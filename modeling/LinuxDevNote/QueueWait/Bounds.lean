import LinuxDevNote.QueueWait.Driver

/-!
# Buffer bounds of the queue-wait driver

Neither handler compares its `size` with the 100 bytes of `byte`. The accesses
stay inside the array exactly when the callers keep to it themselves.
-/

namespace LinuxDevNote.QueueWait

open Memory Kernel Execution

/-- The accesses of a run and the final `buff_len` stay within `byte`. -/
def InBounds (s : Device) (touched : List ℤ) : Prop :=
  (∀ j ∈ touched, Within byteSize j) ∧ 0 ≤ s.buffLen ∧ s.buffLen ≤ byteSize

/-- The callers keep to the array: a write is of at most 100 bytes, or one of the
first 100 cannot be read; a read that finds a message asks for at most 100 bytes. -/
def Op.Fits (s : Device) : Op → Prop
  | .write size buf => size ≤ byteSize ∨ ∃ k < byteSize, buf k = none
  | .read size _ _ => s.havedata = false ∨ size ≤ byteSize

/-- `buff_len` is within `byte`. -/
def Device.LengthInBounds (s : Device) : Prop := 0 ≤ s.buffLen ∧ s.buffLen ≤ byteSize

/-- Consecutive indices from zero stay within `byte` exactly when they are at most
100. -/
theorem indices_zero_within {n : ℕ} : (∀ j ∈ indices 0 n, Within byteSize j) ↔ n ≤ byteSize := by
  rw [forall_mem_indices_within]
  omega

/-- A write stays within `byte` exactly when its caller keeps to it. -/
theorem exampleWrite_in_bounds (s : Device) {size : ℕ} (buf : ℕ → Option UInt8)
    (hsize : size ≤ MAX_RW_COUNT) :
    (∀ j ∈ (exampleWrite s size buf).touched, Within byteSize j) ↔
      size ≤ byteSize ∨ ∃ k < byteSize, buf k = none := by
  rw [exampleWrite_eq s buf hsize, indices_zero_within, stored_length_le_iff]

/-- A read stays within `byte` exactly when its caller keeps to it. -/
theorem exampleRead_in_bounds {s : Device} {size : ℕ} {nonblock : Bool} {writable : ℕ → Bool}
    {r : Result Device} (hlen : s.LengthInBounds)
    (hr : exampleRead s size nonblock writable = some r) :
    (∀ j ∈ r.touched, Within byteSize j) ↔ s.havedata = false ∨ size ≤ byteSize := by
  cases hdata : s.havedata with
  | false =>
    cases nonblock <;> simp [exampleRead, hdata] at hr
    simp [← hr]
  | true =>
    have hlog : ∀ j ∈ indices 0 (toSize s.buffLen), Within byteSize j := by
      apply indices_zero_within.mpr
      obtain ⟨hlo, hhi⟩ := hlen
      unfold byteSize at *
      rw [toSize_of_bounds hlo (by omega)]
      omega
    simp only [exampleRead, hdata, if_true] at hr
    split at hr
    · obtain rfl := Option.some.inj hr
      rw [indices_zero_within]
      simp
    · obtain rfl := Option.some.inj hr
      rw [List.forall_mem_append, indices_zero_within, and_iff_left hlog]
      simp

/-- Calls that keep to the array keep `buff_len` within it. -/
theorem Device.LengthInBounds.step {s t : Device} {op : Op} {touched : List ℤ}
    (h : s.LengthInBounds) (hfits : op.Fits s) (hstep : s.step op = some (t, touched)) :
    t.LengthInBounds := by
  obtain ⟨hsize, r, hr, rfl, _⟩ := Device.step_eq_some.mp hstep
  cases op with
  | write size buf =>
    obtain rfl := Option.some.inj hr
    have hstored := stored_length_le_iff.mpr hfits
    have hle := (readable_prefix_stored buf size).length_le
    rw [exampleWrite_eq s buf (by simpa [Op.size] using hsize)]
    exact ⟨by simp, by dsimp only; omega⟩
  | read size nonblock writable =>
    simp only [Op.result, exampleRead] at hr
    split_ifs at hr
    all_goals obtain rfl := Option.some.inj hr
    · exact h
    · exact ⟨le_rfl, by simp⟩
    · exact h

/-- **Buffer bounds.** In every run the accesses and `buff_len` stay within `byte`
exactly when every call of the run keeps to the array. -/
theorem accesses_in_bounds_iff {byte : ℤ → UInt8} {ops : List Op} {s : Device}
    {touched : List ℤ} (hexec : exec Device.step (Device.init byte) ops = some (s, touched)) :
    InBounds s touched ↔ Meets Device.step (fun s op => op.Fits s) (Device.init byte) ops := by
  have hinit : (Device.init byte).LengthInBounds := ⟨le_rfl, by simp [Device.init]⟩
  have hiff := forall_events_iff_meets Device.LengthInBounds (Within byteSize)
    (fun s op => op.Fits s)
    (fun {s t op es} hs hstep => by
      obtain ⟨hsize, r, hr, _, rfl⟩ := Device.step_eq_some.mp hstep
      cases op with
      | write size buf =>
        obtain rfl := Option.some.inj hr
        exact exampleWrite_in_bounds s buf hsize
      | read size nonblock writable => exact exampleRead_in_bounds hs hr)
    (fun hs hfits hstep => hs.step hfits hstep) hinit hexec
  constructor
  · exact fun h => hiff.mp h.1
  · intro hmeets
    refine ⟨hiff.mpr hmeets, ?_⟩
    exact (run_of_exec hmeets hexec).invariant (I := fun s _ => s.LengthInBounds) hinit
      fun hs hfits hstep => hs.step hfits hstep

/-- A message of three bytes is written and read back within the array. -/
theorem accesses_in_bounds_iff_run :
    ∃ s touched, exec Device.step (Device.init fun _ => 0)
        [.write 3 fun _ => some 7, .read 5 false fun _ => true] = some (s, touched) ∧
      InBounds s touched := by
  obtain ⟨⟨s, touched⟩, hexec, _⟩ := Option.map_eq_some_iff.mp
    (show (exec Device.step (Device.init fun _ => 0)
      [.write 3 fun _ => some 7, .read 5 false fun _ => true]).map (fun p => p.1.buffLen) = some 0
      by decide)
  refine ⟨s, touched, hexec, (accesses_in_bounds_iff hexec).mpr ?_⟩
  exact ⟨Or.inl (by decide), fun _ _ _ => ⟨Or.inr (by decide), fun _ _ _ => trivial⟩⟩

/-- A single write of 101 readable bytes stores past the end of `byte`. -/
theorem accesses_leave_bounds :
    ¬ ∀ (byte : ℤ → UInt8) (ops : List Op) (s : Device) (touched : List ℤ),
      exec Device.step (Device.init byte) ops = some (s, touched) → InBounds s touched := by
  intro h
  have hstep : (Device.init fun _ => 0).step (.write 101 fun _ => some 0) =
      some ((exampleWrite (Device.init fun _ => 0) 101 fun _ => some 0).device,
        (exampleWrite (Device.init fun _ => 0) 101 fun _ => some 0).touched) :=
    Device.step_eq_some.mpr ⟨by decide, _, rfl, rfl, rfl⟩
  have hbounds := (h _ _ _ _ (exec_singleton hstep)).1
  rw [exampleWrite_in_bounds _ _ (by decide)] at hbounds
  simp [byteSize] at hbounds

end LinuxDevNote.QueueWait
