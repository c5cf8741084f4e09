import LinuxDevNote.RWTest.Driver

/-!
# What a write of the read-write test driver acknowledges

`example_write` counts the bytes it stores in `buff_len`, and returns `size`. The two
agree exactly when every byte of the caller can be read.
-/

namespace LinuxDevNote.RWTest

open Memory Kernel

/-- A write appends the readable part of the data, acknowledges just that, and changes
nothing else. -/
structure AppendLaw (s : Device) (size : ℕ) (buf : ℕ → Option UInt8) (r : Result Device) :
    Prop where
  /-- The readable part is at the old `buff_pos`. -/
  stored : slice r.device.byte s.buffPos (readable buf size).length = readable buf size
  /-- `buff_pos` is behind it. -/
  advanced : r.device.buffPos = s.buffPos + (readable buf size).length
  /-- Before the old `buff_pos` and from the new one on nothing changes. -/
  unchanged : ∀ j, j < s.buffPos ∨ r.device.buffPos ≤ j → r.device.byte j = s.byte j
  /-- The result is the number of bytes stored, or an error when there are none. -/
  acknowledged : r.ret = (readable buf size).length ∨
    (readable buf size).length = 0 ∧ 0 < size ∧ r.ret < 0

/-- With room for the data a write stores what `exampleWrite_eq` says, whatever `buff_len`
was: the loop starts by overwriting it. -/
theorem exampleWrite_of_fits {s : Device} {size : ℕ} (buf : ℕ → Option UInt8)
    (hpos : 0 ≤ s.buffPos) (hfits : s.buffPos + size ≤ byteSize) :
    exampleWrite s size buf =
      ⟨⟨⟨splice s.byte s.buffPos (stored buf size), s.buffPos + (readable buf size).length⟩,
        s.postion, s.buffPos + (readable buf size).length⟩, size, [],
        indices s.buffPos (stored buf size).length⟩ := by
  have hcounters : ({ s with buffLen := 0 } : Device).CountersInBounds :=
    ⟨hpos, by dsimp only; omega, le_rfl, by simp⟩
  have hsize : size ≤ MAX_RW_COUNT := by
    unfold byteSize at hfits
    unfold MAX_RW_COUNT
    omega
  have hwrite := exampleWrite_eq buf hcounters hsize
  exact hwrite

/-- **What a write acknowledges.** With room for the data, a write appends and
acknowledges it as it should exactly when every byte can be read. -/
theorem appendLaw_iff {s : Device} {size : ℕ} (buf : ℕ → Option UInt8) (hpos : 0 ≤ s.buffPos)
    (hfits : s.buffPos + size ≤ byteSize) :
    AppendLaw s size buf (exampleWrite s size buf) ↔ ∀ k < size, (buf k).isSome = true := by
  rw [exampleWrite_of_fits buf hpos hfits]
  constructor
  · intro hlaw
    have hret := hlaw.acknowledged
    dsimp only at hret
    exact isSome_of_readable_length (by omega)
  · intro hread
    obtain ⟨hstored, hlen⟩ := stored_of_readable hread
    rw [hstored]
    refine ⟨slice_splice _ _ _, rfl, ?_, Or.inl (by rw [hlen])⟩
    intro j hj
    rcases hj with hlo | hhi
    · exact splice_of_lt _ _ hlo
    · exact splice_of_ge _ _ hhi

/-- A write of three readable bytes behind two others. -/
theorem appendLaw_iff_run :
    AppendLaw ⟨⟨fun _ => 0, 2⟩, 0, 2⟩ 3 (fun k => some k.toUInt8)
      (exampleWrite ⟨⟨fun _ => 0, 2⟩, 0, 2⟩ 3 fun k => some k.toUInt8) :=
  (appendLaw_iff _ (by decide) (by decide)).mpr fun _ _ => rfl

/-- A write of two bytes of which only the first can be read returns 2. -/
theorem unstored_acknowledged :
    ¬ ∀ (s : Device) (size : ℕ) (buf : ℕ → Option UInt8), 0 ≤ s.buffPos →
      s.buffPos + size ≤ byteSize → AppendLaw s size buf (exampleWrite s size buf) := by
  intro h
  have hret := (h (Device.init fun _ => 0) 2 (fun k => if k = 0 then some 7 else none)
    (by decide) (by decide)).acknowledged
  exact absurd hret (by decide)

end LinuxDevNote.RWTest
