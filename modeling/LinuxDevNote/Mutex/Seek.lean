import LinuxDevNote.Mutex.Positions

/-!
# Seeking against the size of the device

`_read` and `_write` stop at `MEM_SIZE`, and `_llseek` accepts every position up to it.
But it counts `SEEK_END` from `MEM_SIZE - 1`, so a seek relative to the end arrives one
byte before where the end is. No other seek disagrees with the size, and the 64-bit sums
that wrap are refused as the exact ones are.
-/

namespace LinuxDevNote.Mutex

open Memory Kernel

/-- Where the offset counts from: the start, the file position, or the position at which
`_read` and `_write` stop. -/
def seekOrigin (fPos : BitVec 64) (whence : ℤ) : Option ℤ :=
  if whence = 0 then some 0
  else if whence = 1 then some fPos.toInt
  else if whence = 2 then some memSize
  else none

/-- The seek agrees with the size of the device. -/
structure SeekLaw (fPos offset : BitVec 64) (whence : ℤ) : Prop where
  /-- An exact sum within the device is accepted. -/
  accepts : ∀ origin, seekOrigin fPos whence = some origin → 0 ≤ origin + offset.toInt →
    origin + offset.toInt ≤ memSize →
    (llseek fPos offset whence).1 = origin + offset.toInt ∧
      (llseek fPos offset whence).2.toInt = origin + offset.toInt
  /-- Every other sum is refused. -/
  refuses : ∀ origin, seekOrigin fPos whence = some origin →
    ¬ (0 ≤ origin + offset.toInt ∧ origin + offset.toInt ≤ memSize) →
    llseek fPos offset whence = (-EINVAL, fPos)
  /-- A read of at least `k` bytes from `k` bytes before the end gets the last `k`. -/
  tail : whence = 2 → ∀ k : ℕ, k ≤ memSize → offset.toInt = -k →
    ∀ (mem : Mem) (cnt : BitVec 64) (writable : ℕ → Bool), k ≤ cnt.toNat →
      cnt.toNat ≤ MAX_RW_COUNT → (∀ i < cnt.toNat, writable i = true) →
      (read mem cnt writable (llseek fPos offset whence).2).ret = k ∧
        (read mem cnt writable (llseek fPos offset whence).2).out = slice mem (memSize - k) k

/-- From a base within the device, the 64-bit sum is within it exactly when the exact sum
is. -/
theorem inDevice_add_iff {base : BitVec 64} (h : InDevice base) (offset : BitVec 64) :
    InDevice (base + offset) ↔
      0 ≤ base.toInt + offset.toInt ∧ base.toInt + offset.toInt ≤ memSize := by
  have hoff := offset.toInt_lt
  have hoff' := offset.le_toInt
  obtain ⟨hlo, hhi⟩ := h
  unfold InDevice
  rw [BitVec.toInt_add, Int.bmod_def]
  unfold memSize at *
  split <;> omega

/-- Within the device the 64-bit sum is the exact one. -/
theorem toInt_add_of_inDevice {base offset : BitVec 64} (h : InDevice base)
    (hsum : InDevice (base + offset)) : (base + offset).toInt = base.toInt + offset.toInt := by
  obtain ⟨hlo, hhi⟩ := (inDevice_add_iff h offset).mp hsum
  rw [BitVec.toInt_add]
  unfold memSize at hhi
  exact Int.bmod_eq_of_le (by omega) (by omega)

/-- What `_llseek` does with a target that is a base within the device plus the offset. -/
theorem llseek_of_target {fPos offset base : BitVec 64} {whence : ℤ} (h : InDevice base)
    (htarget : seekTarget fPos offset whence = some (base + offset)) :
    llseek fPos offset whence =
      if 0 ≤ base.toInt + offset.toInt ∧ base.toInt + offset.toInt ≤ memSize
      then (base.toInt + offset.toInt, base + offset) else (-EINVAL, fPos) := by
  unfold llseek
  rw [htarget]
  dsimp only
  by_cases hsum : InDevice (base + offset)
  · have hexact := toInt_add_of_inDevice h hsum
    rw [if_pos ((inDevice_add_iff h offset).mp hsum), ← hexact]
    obtain ⟨hlo, hhi⟩ := hsum
    rw [if_neg (by omega)]
  · rw [if_neg (fun hin => hsum ((inDevice_add_iff h offset).mpr hin))]
    unfold InDevice at hsum
    rw [if_pos (by omega)]

/-- A seek whose base is where the offset counts from agrees with the size. -/
theorem SeekLaw.of_origin {fPos offset base : BitVec 64} {whence : ℤ} (h : InDevice base)
    (hwhence : whence ≠ 2) (horigin : seekOrigin fPos whence = some base.toInt)
    (htarget : seekTarget fPos offset whence = some (base + offset)) :
    SeekLaw fPos offset whence := by
  refine ⟨?_, ?_, fun hend => absurd hend hwhence⟩
  · intro origin hsome hlo hhi
    obtain rfl := Option.some.inj (horigin.symm.trans hsome)
    have hsum := (inDevice_add_iff h offset).mpr ⟨hlo, hhi⟩
    rw [llseek_of_target h htarget, if_pos ⟨hlo, hhi⟩]
    exact ⟨rfl, toInt_add_of_inDevice h hsum⟩
  · intro origin hsome hout
    obtain rfl := Option.some.inj (horigin.symm.trans hsome)
    rw [llseek_of_target h htarget, if_neg hout]

/-- The base of `SEEK_END` in the source. -/
theorem inDevice_end : InDevice (BitVec.ofNat 64 (memSize - 1)) := inDevice_iff.mpr (by decide)

/-- A seek relative to the end counts from the last byte. -/
theorem llseek_end (fPos offset : BitVec 64) :
    llseek fPos offset 2 =
      if 0 ≤ 127 + offset.toInt ∧ 127 + offset.toInt ≤ memSize
      then (127 + offset.toInt, BitVec.ofNat 64 (memSize - 1) + offset) else (-EINVAL, fPos) := by
  have hbase : (BitVec.ofNat 64 (memSize - 1)).toInt = 127 := by decide
  rw [llseek_of_target inDevice_end rfl, hbase]

/-- Relative to the end, the seek agrees with the size exactly where both the source's sum
and the right one lie outside the device. -/
theorem seekLaw_end_iff {fPos offset : BitVec 64} :
    SeekLaw fPos offset 2 ↔ offset.toInt < -memSize ∨ 1 < offset.toInt := by
  have horigin : seekOrigin fPos 2 = some memSize := rfl
  constructor
  · intro hlaw
    by_contra hnear
    by_cases hone : offset.toInt = 1
    · have hrefused := congrArg Prod.fst (hlaw.refuses _ horigin (by omega))
      rw [llseek_end, hone, if_pos (by decide)] at hrefused
      change (127 + 1 : ℤ) = -EINVAL at hrefused
      exact absurd hrefused (by decide)
    · have hret := (hlaw.accepts _ horigin (by omega) (by omega)).1
      rw [llseek_end] at hret
      unfold memSize at *
      unfold EINVAL at hret
      split at hret <;> dsimp only at hret <;> omega
  · intro hfar
    have hrefused : llseek fPos offset 2 = (-EINVAL, fPos) := by
      rw [llseek_end, if_neg (by unfold memSize at *; omega)]
    refine ⟨?_, fun _ _ _ => hrefused, ?_⟩
    · intro origin hsome hlo hhi
      obtain rfl := Option.some.inj (horigin.symm.trans hsome)
      omega
    · intro _ k hk hoffset
      omega

/-- **Seeking against the size of the device.** From every position within the device the
seek agrees with the size exactly when it is not relative to the end, or so far from the
end that it is refused either way. -/
theorem seekLaw_iff {fPos : BitVec 64} (h : InDevice fPos) (offset : BitVec 64) (whence : ℤ) :
    SeekLaw fPos offset whence ↔ (whence = 2 → offset.toInt < -128 ∨ 1 < offset.toInt) := by
  by_cases hend : whence = 2
  · subst hend
    exact ⟨fun hlaw _ => seekLaw_end_iff.mp hlaw, fun hfar => seekLaw_end_iff.mpr (hfar rfl)⟩
  refine ⟨fun _ heq => absurd heq hend, fun _ => ?_⟩
  by_cases hset : whence = 0
  · subst hset
    have hzero : InDevice 0#64 := inDevice_iff.mpr (by decide)
    refine SeekLaw.of_origin hzero hend rfl ?_
    rw [BitVec.zero_add]
    rfl
  by_cases hcur : whence = 1
  · subst hcur
    exact SeekLaw.of_origin h hend rfl rfl
  have hnone : seekOrigin fPos whence = none := by simp [seekOrigin, hset, hcur, hend]
  refine ⟨?_, ?_, fun heq => absurd heq hend⟩
  all_goals
    intro origin hsome
    rw [hnone] at hsome
    cases hsome

/-- A seek back by ten from position 20 agrees with the size. -/
theorem seekLaw_iff_run : SeekLaw 20 (-10) 1 :=
  (seekLaw_iff (inDevice_iff.mpr (by decide)) _ _).mpr fun h => absurd h (by decide)

/-- The seek to the end arrives at the last byte. -/
theorem seek_end_short :
    ¬ ∀ (fPos offset : BitVec 64) (whence : ℤ), InDevice fPos → SeekLaw fPos offset whence := by
  intro h
  have haccepts := (h 0 0 2 (inDevice_iff.mpr (by decide))).accepts memSize rfl
    (by decide) (by decide)
  exact absurd haccepts.1 (by decide)

end LinuxDevNote.Mutex
