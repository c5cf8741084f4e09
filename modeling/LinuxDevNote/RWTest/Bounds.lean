import LinuxDevNote.RWTest.Driver

/-!
# Buffer bounds of the read-write test driver

Neither handler compares its counters with the 100 bytes of `byte`. The accesses
stay inside the array exactly when every write fits behind `buff_pos` and every
read ends within the array.
-/

namespace LinuxDevNote.RWTest

open Memory Kernel Execution

/-- Every index a handler touched in these calls is within `byte`. -/
def AccessesInBounds (calls : List Call) : Prop :=
  ∀ c ∈ calls, ∀ j ∈ c.result.touched, Within byteSize j

/-- The caller keeps to the array: a write ends within it, or one of the bytes that
fit cannot be read; a read finds no data, asks for none, or ends within it. -/
def Op.Fits (s : Device) : Op → Prop
  | .write size buf =>
    s.buffPos + size ≤ byteSize ∨ ∃ k : ℕ, s.buffPos + k < byteSize ∧ buf k = none
  | .read size _ => s.buffLen = 0 ∨ size = 0 ∨ s.postion + min s.buffLen size ≤ byteSize

/-- The counters of the driver while the callers keep to the array. Only `postion`
may leave it, by one read that asks for more than there is. -/
structure Device.Bounded (s : Device) : Prop extends s.CountersInBounds where
  /-- `postion` is not negative. -/
  postion_nonneg : 0 ≤ s.postion
  /-- `postion` is at most one read beyond the array. -/
  postion_le : s.postion ≤ 99 + MAX_RW_COUNT

/-- A write stays within `byte` exactly when its caller keeps to it. -/
theorem exampleWrite_in_bounds {s : Device} {size : ℕ} (buf : ℕ → Option UInt8)
    (hs : s.CountersInBounds) (hsize : size ≤ MAX_RW_COUNT) :
    (∀ j ∈ (exampleWrite s size buf).touched, Within byteSize j) ↔
      s.buffPos + size ≤ byteSize ∨ ∃ k : ℕ, s.buffPos + k < byteSize ∧ buf k = none := by
  have hlo := hs.pos_nonneg
  have hhi := hs.pos_le
  have hroom : (stored buf size).length ≤ byteSize - s.buffPos.toNat ↔
      s.buffPos + size ≤ byteSize ∨ ∃ k : ℕ, s.buffPos + k < byteSize ∧ buf k = none := by
    rw [stored_length_le_iff]
    refine or_congr (by omega) (exists_congr fun k => and_congr_left fun _ => by omega)
  rw [exampleWrite_eq buf hs hsize, forall_mem_indices_within, ← hroom]
  omega

/-- A read stays within `byte` exactly when its caller keeps to it. -/
theorem exampleRead_in_bounds {s : Device} {size : ℕ} (writable : ℕ → Bool) (hs : s.Bounded) :
    (∀ j ∈ (exampleRead s size writable).touched, Within byteSize j) ↔
      s.buffLen = 0 ∨ size = 0 ∨ s.postion + min s.buffLen size ≤ byteSize := by
  have hlo := hs.len_nonneg
  have hhi := hs.len_le
  have hpos := hs.postion_nonneg
  by_cases hempty : s.buffLen = 0 ∧ 0 < size
  · rw [exampleRead_of_empty writable hempty.1 hempty.2]
    simp [hempty.1]
  · have hrlen := readLength_eq size hs.toCountersInBounds
    have hlog : ∀ j ∈ indices 0 (readLength s size), Within byteSize j :=
      forall_mem_indices_within.mpr (Or.inr ⟨le_rfl, by omega⟩)
    have hcopy : (∀ j ∈ indices s.postion (readLength s size), Within byteSize j) ↔
        s.buffLen = 0 ∨ size = 0 ∨ s.postion + min s.buffLen size ≤ byteSize := by
      rw [forall_mem_indices_within]
      omega
    rw [exampleRead_of_data writable hs.toCountersInBounds (by omega)]
    split
    · rw [List.forall_mem_append, and_iff_left hlog, hcopy]
    · exact hcopy

/-- A call stays within `byte` exactly when its caller keeps to it. -/
theorem Op.accesses_in_bounds {s : Device} {op : Op} (hs : s.Bounded)
    (hsize : op.size ≤ MAX_RW_COUNT) :
    (∀ j ∈ (op.result s).touched, Within byteSize j) ↔ op.Fits s := by
  cases op with
  | write size buf => exact exampleWrite_in_bounds buf hs.toCountersInBounds hsize
  | read size writable => exact exampleRead_in_bounds writable hs

/-- A write that keeps to the array keeps the counters bounded. -/
theorem Device.Bounded.write {s : Device} {size : ℕ} {buf : ℕ → Option UInt8} (hs : s.Bounded)
    (hsize : size ≤ MAX_RW_COUNT) (hfits : (Op.write size buf).Fits s) :
    (exampleWrite s size buf).device.Bounded := by
  have hlo := hs.pos_nonneg
  have hend : s.buffPos + (readable buf size).length ≤ byteSize := by
    have hin := (exampleWrite_in_bounds buf hs.toCountersInBounds hsize).mpr hfits
    rw [exampleWrite_eq buf hs.toCountersInBounds hsize, forall_mem_indices_within] at hin
    have hhi := hs.pos_le
    have hle := (readable_prefix_stored buf size).length_le
    omega
  rw [exampleWrite_eq buf hs.toCountersInBounds hsize]
  exact
    { pos_nonneg := by dsimp only; omega
      pos_le := hend
      len_nonneg := by dsimp only; omega
      len_le := hend
      postion_nonneg := hs.postion_nonneg
      postion_le := hs.postion_le }

/-- A read that keeps to the array keeps the counters bounded. -/
theorem Device.Bounded.read {s : Device} {size : ℕ} {writable : ℕ → Bool} (hs : s.Bounded)
    (hsize : size ≤ MAX_RW_COUNT) (hfits : (Op.read size writable).Fits s) :
    (exampleRead s size writable).device.Bounded := by
  have hlo := hs.len_nonneg
  have hhi := hs.len_le
  have hpos := hs.postion_nonneg
  by_cases hempty : s.buffLen = 0 ∧ 0 < size
  · rw [exampleRead_of_empty writable hempty.1 hempty.2]
    exact { hs with
      pos_nonneg := le_rfl
      pos_le := by simp
      postion_nonneg := le_rfl
      postion_le := by dsimp only; omega }
  · rw [exampleRead_of_data writable hs.toCountersInBounds (by omega)]
    split
    · have hrlen := readLength_eq size hs.toCountersInBounds
      have hmoved : s.postion + size ≤ 99 + MAX_RW_COUNT := by
        have hle := hs.postion_le
        unfold Op.Fits byteSize at hfits
        omega
      have hnext : toInt (s.postion + size) = s.postion + size := by
        unfold MAX_RW_COUNT at hmoved
        exact toInt_of_bounds (by omega) (by omega)
      exact { hs with
        len_nonneg := by dsimp only; omega
        len_le := by dsimp only; omega
        postion_nonneg := by dsimp only; omega
        postion_le := by dsimp only; omega }
    · exact hs

/-- Calls that keep to the array keep the counters bounded. -/
theorem Device.Bounded.step {s t : Device} {op : Op} {calls : List Call} (hs : s.Bounded)
    (hfits : op.Fits s) (hstep : s.step op = some (t, calls)) : t.Bounded := by
  obtain ⟨hsize, rfl, _⟩ := Device.step_eq_some.mp hstep
  cases op with
  | write size buf => exact hs.write hsize hfits
  | read size writable => exact hs.read hsize hfits

/-- **Buffer bounds.** In every run the accesses of the handlers stay within `byte`
exactly when every call of the run keeps to the array. -/
theorem handlers_in_bounds_iff {byte : ℤ → UInt8} {ops : List Op} {s : Device}
    {calls : List Call} (hexec : exec Device.step (Device.init byte) ops = some (s, calls)) :
    AccessesInBounds calls ↔ Meets Device.step (fun s op => op.Fits s) (Device.init byte) ops := by
  have hinit : (Device.init byte).Bounded :=
    { Device.init_counters byte with
      postion_nonneg := le_rfl
      postion_le := by simp only [Device.init]; omega }
  refine forall_events_iff_meets Device.Bounded
    (fun c => ∀ j ∈ c.result.touched, Within byteSize j) (fun s op => op.Fits s) ?_
    (fun hs hfits hstep => hs.step hfits hstep) hinit hexec
  intro s t op calls hs hstep
  obtain ⟨hsize, _, rfl⟩ := Device.step_eq_some.mp hstep
  rw [List.forall_mem_singleton]
  exact Op.accesses_in_bounds hs hsize

/-- Three bytes are written and read back, in two reads, within the array. -/
theorem handlers_in_bounds_iff_run :
    ∃ s calls, exec Device.step (Device.init fun _ => 0)
        [.write 3 fun _ => some 7, .read 2 fun _ => true, .read 5 fun _ => true] =
          some (s, calls) ∧ AccessesInBounds calls := by
  obtain ⟨⟨s, calls⟩, hexec, _⟩ := Option.map_eq_some_iff.mp
    (show (exec Device.step (Device.init fun _ => 0)
      [.write 3 fun _ => some 7, .read 2 fun _ => true, .read 5 fun _ => true]).map
        (fun p => p.1.postion) = some 7 by decide)
  refine ⟨s, calls, hexec, (handlers_in_bounds_iff hexec).mpr ?_⟩
  refine ⟨Or.inl (by decide), fun s₁ _ h₁ => ⟨?_, fun s₂ _ h₂ => ⟨?_, fun _ _ _ => trivial⟩⟩⟩
  · obtain ⟨_, rfl, _⟩ := Device.step_eq_some.mp h₁
    exact Or.inr (Or.inr (by decide))
  · obtain ⟨_, rfl, _⟩ := Device.step_eq_some.mp h₁
    obtain ⟨_, rfl, _⟩ := Device.step_eq_some.mp h₂
    exact Or.inr (Or.inr (by decide))

/-- A single write of 101 readable bytes stores past the end of `byte`. -/
theorem handlers_leave_bounds :
    ¬ ∀ (byte : ℤ → UInt8) (ops : List Op) (s : Device) (calls : List Call),
      exec Device.step (Device.init byte) ops = some (s, calls) → AccessesInBounds calls := by
  intro h
  have hstep : (Device.init fun _ => 0).step (.write 101 fun _ => some 0) = some (_, _) :=
    Device.step_eq_some.mpr ⟨by decide, rfl, rfl⟩
  have hbounds := h _ _ _ _ (exec_singleton hstep) _ List.mem_cons_self
  have hcounters := Device.init_counters fun _ => 0
  rw [Op.result, exampleWrite_in_bounds _ hcounters (by decide)] at hbounds
  simp [byteSize, Device.init] at hbounds

end LinuxDevNote.RWTest
