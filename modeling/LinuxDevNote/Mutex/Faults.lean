import LinuxDevNote.Mutex.Driver

/-!
# Writes that meet a fault

Both copy loops of `_write` note a fault in `ret` and go on, and `ret` is overwritten
with `count` after them. So a write acknowledges bytes that it did not store exactly
when a byte of the clamped range cannot be read.
-/

namespace LinuxDevNote.Mutex

open Memory Kernel

/-- The result of a write is honest: what it acknowledges is stored, and it stops before the
first byte that cannot be read, or fails and leaves `*loff` alone. -/
structure Honest (cnt : BitVec 64) (buff : ℕ → Option UInt8) (loff : BitVec 64)
    (r : WriteResult) : Prop where
  /-- The bytes acknowledged are those of the user buffer, and `*loff` is behind them. -/
  stored : 0 ≤ r.ret →
    (slice r.share.mem loff.toNat r.ret.toNat).map some = (List.range r.ret.toNat).map buff ∧
      (r.loff.toNat : ℤ) = loff.toNat + r.ret
  /-- A byte that cannot be read is not acknowledged. -/
  stops : ∀ k < clampCount loff.toNat cnt, buff k = none →
    (r.ret = -EFAULT ∧ r.loff = loff) ∨ 0 ≤ r.ret ∧ r.ret ≤ k

/-- The bytes a write stores, as far as the user buffer can be read. -/
theorem slice_write {sh : Share} {cnt : BitVec 64} {buff : ℕ → Option UInt8} {loff : BitVec 64}
    (h : loff.toNat < memSize) (hread : ∀ k < clampCount loff.toNat cnt, (buff k).isSome = true) :
    (slice (write sh cnt buff loff).share.mem loff.toNat (clampCount loff.toNat cnt)).map some =
      (List.range (clampCount loff.toNat cnt)).map buff := by
  have hcells : ((List.range' 0 (clampCount loff.toNat cnt)).map fun k =>
      (copyFromUserByte (buff k)).1).length = clampCount loff.toNat cnt := by simp
  have hslice := slice_splice sh.mem loff.toNat
    ((List.range' 0 (clampCount loff.toNat cnt)).map fun k => (copyFromUserByte (buff k)).1)
  rw [hcells] at hslice
  rw [write_of_lt h, writeLoop_mem, Nat.cast_zero, add_zero, hslice, List.map_map,
    ← List.range_eq_range']
  refine List.map_congr_left fun k hk => ?_
  obtain ⟨b, hb⟩ := Option.isSome_iff_exists.mp (hread k (List.mem_range.mp hk))
  simp [hb, copyFromUserByte]

/-- **Writes that meet a fault.** Before the end of the device, whatever `writecount` is, a
write is honest exactly when every byte of the clamped range can be read. -/
theorem honest_iff (sh : Share) {cnt : BitVec 64} {buff : ℕ → Option UInt8} {loff : BitVec 64}
    (h : loff.toNat < memSize) :
    Honest cnt buff loff (write sh cnt buff loff) ↔
      ∀ k < clampCount loff.toNat cnt, (buff k).isSome = true := by
  have hret : (write sh cnt buff loff).ret = clampCount loff.toNat cnt := by rw [write_of_lt h]
  constructor
  · intro hhonest k hk
    by_contra hnone
    rw [Bool.not_eq_true, Option.isSome_eq_false_iff, Option.isNone_iff_eq_none] at hnone
    have hstops := hhonest.stops k hk hnone
    rw [hret, EFAULT] at hstops
    omega
  · intro hread
    refine ⟨fun _ => ?_, fun k hk hnone => ?_⟩
    · rw [hret, Int.toNat_natCast]
      refine ⟨slice_write h hread, ?_⟩
      have hle := clampCount_le loff.toNat cnt
      have hlt := loff.isLt
      rw [write_of_lt h]
      dsimp only
      rw [BitVec.toNat_add, BitVec.toNat_ofNat]
      unfold memSize at h hle
      omega
    · have hsome := hread k hk
      rw [hnone] at hsome
      cases hsome

/-- A write of five readable bytes is honest. -/
theorem honest_iff_run :
    Honest 5 (fun _ => some 7) 0 (write ⟨fun _ => 0, 0⟩ 5 (fun _ => some 7) 0) :=
  (honest_iff _ (by decide)).mpr fun _ _ => rfl

/-- A write of two bytes of which only the first can be read returns 2. -/
theorem fault_acknowledged :
    ¬ ∀ (sh : Share) (cnt : BitVec 64) (buff : ℕ → Option UInt8) (loff : BitVec 64),
      loff.toNat < memSize → Honest cnt buff loff (write sh cnt buff loff) := by
  intro h
  have hstops := (h ⟨fun _ => 0, 0⟩ 2 (fun k => if k = 0 then some 7 else none) 0 (by decide)).stops
    1 (by decide) rfl
  rw [write_of_lt (by decide)] at hstops
  exact absurd hstops (by decide)

end LinuxDevNote.Mutex
