import LinuxDevNote.Library.Execution
import LinuxDevNote.Mutex.Driver

/-!
# File positions and memory bounds of the mutex driver

The handlers are called through the VFS, which keeps one position per open file,
passes either it or a caller's explicit offset as `*loff`, and writes `*loff`
back only after a nonnegative result. Every position stays within the device,
and this is what makes the possibly wrapping additions of `_llseek` harmless.
-/

namespace LinuxDevNote.Mutex

open Memory Kernel Execution

variable {File : Type*} [DecidableEq File]

/-- The shared data and the position of each open file. -/
structure Device (File : Type*) where
  /-- `sh->mem` and `writecount`. -/
  share : Share
  /-- `f_pos` of each open file; `none` while the file is not open. -/
  files : File → Option (BitVec 64)

/-- The loaded module before any `open`. -/
def Device.init (mem : Mem) : Device File := ⟨⟨mem, 0⟩, fun _ => none⟩

/-- A system call on the device. `explicit` is the offset of `pread` and
`pwrite`, and `none` where the file's own position is used. -/
inductive Op (File : Type*)
  | open (f : File)
  | llseek (f : File) (offset : BitVec 64) (whence : ℤ)
  | read (f : File) (explicit : Option (BitVec 64)) (cnt : BitVec 64) (writable : ℕ → Bool)
  | write (f : File) (explicit : Option (BitVec 64)) (cnt : BitVec 64) (buff : ℕ → Option UInt8)

/-- What a completed call reports: its result and the indices of `sh->mem` it
accessed. -/
structure Returned where
  /-- The value returned by the handler. -/
  ret : ℤ
  /-- The indices accessed. -/
  touched : List ℤ

/-- The position the VFS stores after a call: `*loff` after a nonnegative result
of a call that used the file's own position. -/
def storedPosition (explicit : Option (BitVec 64)) (pos loff : BitVec 64) (ret : ℤ) : BitVec 64 :=
  if explicit = none ∧ 0 ≤ ret then loff else pos

/-- One system call on an open file. -/
def Device.onFile (s : Device File) (f : File) (call : BitVec 64 → Device File × Returned) :
    Option (Device File × List Returned) :=
  (s.files f).map fun pos => ((call pos).1, [(call pos).2])

/-- Store the position of an open file. -/
def Device.setPos (s : Device File) (f : File) (pos : BitVec 64) : Device File :=
  { s with files := Function.update s.files f (some pos) }

/-- The effect of a system call, `none` on a file that is not open. -/
def Device.step (s : Device File) : Op File → Option (Device File × List Returned)
  | .open f => some (s.setPos f 0, [⟨0, []⟩])
  | .llseek f offset whence => s.onFile f fun pos =>
      (s.setPos f (llseek pos offset whence).2, ⟨(llseek pos offset whence).1, []⟩)
  | .read f explicit cnt writable => s.onFile f fun pos =>
      let r := read s.share.mem cnt writable (explicit.getD pos)
      (s.setPos f (storedPosition explicit pos r.loff r.ret), ⟨r.ret, r.touched⟩)
  | .write f explicit cnt buff => s.onFile f fun pos =>
      let r := write s.share cnt buff (explicit.getD pos)
      ({ s with share := r.share }.setPos f (storedPosition explicit pos r.loff r.ret),
        ⟨r.ret, r.touched⟩)

/-- A position within the device, the end included. -/
def InDevice (pos : BitVec 64) : Prop := 0 ≤ pos.toInt ∧ pos.toInt ≤ memSize

/-- Every open file's position is within the device. -/
def Device.PositionsInDevice (s : Device File) : Prop :=
  ∀ f pos, s.files f = some pos → InDevice pos

/-- The exact base that a `whence` adds the offset to. -/
def seekBase (fPos : BitVec 64) (whence : ℤ) : Option ℤ :=
  if whence = 0 then some 0
  else if whence = 1 then some fPos.toInt
  else if whence = 2 then some (memSize - 1)
  else none

/-- A small unsigned position reads the same as a signed one. -/
theorem toInt_eq_toNat_of_le {pos : BitVec 64} (h : pos.toNat ≤ memSize) :
    pos.toInt = pos.toNat := by
  unfold memSize at h
  exact BitVec.toInt_eq_toNat_of_lt (by omega)

/-- A position within the device is a small unsigned word. -/
theorem inDevice_iff {pos : BitVec 64} : InDevice pos ↔ pos.toNat ≤ memSize := by
  have hlt := pos.isLt
  constructor
  · rintro ⟨hlo, hhi⟩
    rw [BitVec.toInt_eq_toNat_cond] at hlo hhi
    split_ifs at hlo hhi <;> omega
  · intro h
    have heq := toInt_eq_toNat_of_le h
    exact ⟨by omega, by omega⟩

/-- Moving a position within the device on by no more than what is left. -/
theorem toNat_advance {pos : BitVec 64} {n : ℕ} (hpos : pos.toNat ≤ memSize)
    (hn : n ≤ memSize - pos.toNat) : (pos + BitVec.ofNat 64 n).toNat = pos.toNat + n := by
  rw [BitVec.toNat_add, BitVec.toNat_ofNat]
  unfold memSize at *
  omega

/-- Advancing a position by no more than what is left stays within the device. -/
theorem inDevice_advance {pos : BitVec 64} {n : ℕ} (hpos : pos.toNat < memSize)
    (hn : n ≤ memSize - pos.toNat) : InDevice (pos + BitVec.ofNat 64 n) := by
  rw [inDevice_iff, toNat_advance hpos.le hn]
  omega

/-- `_read` leaves a position within the device when given one. -/
theorem read_loff_inDevice {mem : Mem} {cnt : BitVec 64} {writable : ℕ → Bool} {loff : BitVec 64}
    (h : InDevice loff) : InDevice (read mem cnt writable loff).loff := by
  by_cases hp : memSize ≤ loff.toNat
  · rwa [read_of_ge hp]
  · unfold read
    dsimp only
    rw [if_neg hp]
    dsimp only
    split
    · exact h
    · exact inDevice_advance (by omega) (clampCount_le _ _)

/-- `_write` leaves a position within the device when given one. -/
theorem write_loff_inDevice {sh : Share} {cnt : BitVec 64} {buff : ℕ → Option UInt8}
    {loff : BitVec 64} (h : InDevice loff) : InDevice (write sh cnt buff loff).loff := by
  by_cases hp : memSize ≤ loff.toNat
  · rwa [write_of_ge hp]
  · rw [write_of_lt (not_le.mp hp)]
    exact inDevice_advance (by omega) (clampCount_le _ _)

/-- From a position within the device `_llseek` either fails and keeps the
position, or succeeds with the exact sum of the base and the offset. No wrapped
sum lands within the device. -/
theorem llseek_cases {fPos : BitVec 64} (h : InDevice fPos) (offset : BitVec 64) (whence : ℤ) :
    llseek fPos offset whence = (-EINVAL, fPos) ∨
      ∃ base, seekBase fPos whence = some base ∧
        (llseek fPos offset whence).1 = base + offset.toInt ∧
        (llseek fPos offset whence).2.toInt = base + offset.toInt ∧
        InDevice (llseek fPos offset whence).2 := by
  have hoff := offset.toInt_lt
  have hoff' := offset.le_toInt
  unfold llseek
  cases htarget : seekTarget fPos offset whence with
  | none => exact Or.inl rfl
  | some newPos =>
    by_cases hbad : newPos.toInt < 0 ∨ (memSize : ℤ) < newPos.toInt
    · left
      dsimp only
      rw [if_pos hbad]
    · right
      dsimp only
      rw [if_neg hbad]
      have hin : InDevice newPos := ⟨by omega, by omega⟩
      unfold seekTarget at htarget
      unfold seekBase
      obtain ⟨hlo, hhi⟩ := h
      unfold memSize at *
      split_ifs at htarget ⊢ with h0 h1 h2
      · obtain rfl := Option.some.inj htarget
        exact ⟨0, rfl, (zero_add _).symm, (zero_add _).symm, hin⟩
      · obtain rfl := Option.some.inj htarget
        have hexact : (fPos + offset).toInt = fPos.toInt + offset.toInt := by
          rw [BitVec.toInt_add, Int.bmod_def] at hbad ⊢
          split at hbad <;> split <;> omega
        exact ⟨fPos.toInt, rfl, hexact, hexact, hin⟩
      · obtain rfl := Option.some.inj htarget
        have hbase : (BitVec.ofNat 64 (128 - 1)).toInt = 127 := by decide
        have hexact : (BitVec.ofNat 64 (128 - 1) + offset).toInt = 127 + offset.toInt := by
          rw [BitVec.toInt_add, Int.bmod_def, hbase] at hbad ⊢
          split at hbad <;> split <;> omega
        exact ⟨127, rfl, hexact, hexact, hin⟩

omit [DecidableEq File] in
/-- A call on a file changes what its handler says on that file's position. -/
theorem Device.onFile_eq_some {s t : Device File} {f : File}
    {call : BitVec 64 → Device File × Returned} {es : List Returned} :
    s.onFile f call = some (t, es) ↔
      ∃ pos, s.files f = some pos ∧ t = (call pos).1 ∧ es = [(call pos).2] := by
  simp only [Device.onFile, Option.map_eq_some_iff, Prod.mk.injEq]
  constructor
  · rintro ⟨pos, hpos, rfl, rfl⟩
    exact ⟨pos, hpos, rfl, rfl⟩
  · rintro ⟨pos, hpos, rfl, rfl⟩
    exact ⟨pos, hpos, rfl, rfl⟩

/-- Storing a position within the device keeps all positions within it. -/
theorem Device.PositionsInDevice.setPos {s : Device File} (h : s.PositionsInDevice) (f : File)
    {pos : BitVec 64} (hpos : InDevice pos) : (s.setPos f pos).PositionsInDevice := by
  intro g q hq
  by_cases hg : g = f
  · subst hg
    simp only [Device.setPos, Function.update_self, Option.some.injEq] at hq
    rwa [← hq]
  · simp only [Device.setPos, Function.update_of_ne hg] at hq
    exact h g q hq

/-- The VFS stores a position within the device, because an explicit offset is
never stored. -/
theorem storedPosition_inDevice {explicit : Option (BitVec 64)} {pos loff : BitVec 64} {ret : ℤ}
    (hpos : InDevice pos) (hloff : explicit = none → InDevice loff) :
    InDevice (storedPosition explicit pos loff ret) := by
  unfold storedPosition
  split
  · rename_i h
    exact hloff h.1
  · exact hpos

/-- Every system call keeps all positions within the device. -/
theorem Device.PositionsInDevice.step {s t : Device File} {op : Op File} {es : List Returned}
    (h : s.PositionsInDevice) (hstep : s.step op = some (t, es)) : t.PositionsInDevice := by
  cases op with
  | «open» f =>
    simp only [Device.step, Option.some.injEq, Prod.mk.injEq] at hstep
    obtain ⟨rfl, _⟩ := hstep
    exact h.setPos f (inDevice_iff.mpr (by decide))
  | llseek f offset whence =>
    obtain ⟨pos, hpos, rfl, _⟩ := Device.onFile_eq_some.mp hstep
    apply h.setPos f
    rcases llseek_cases (h f pos hpos) offset whence with hfail | ⟨_, _, _, _, hin⟩
    · rw [hfail]
      exact h f pos hpos
    · exact hin
  | read f explicit cnt writable =>
    obtain ⟨pos, hpos, rfl, _⟩ := Device.onFile_eq_some.mp hstep
    apply h.setPos f
    apply storedPosition_inDevice (h f pos hpos)
    rintro rfl
    exact read_loff_inDevice (h f pos hpos)
  | write f explicit cnt buff =>
    obtain ⟨pos, hpos, rfl, _⟩ := Device.onFile_eq_some.mp hstep
    have hsame : ({ s with share := (Mutex.write s.share cnt buff (explicit.getD pos)).share } :
        Device File).PositionsInDevice := h
    apply hsame.setPos f
    apply storedPosition_inDevice (h f pos hpos)
    rintro rfl
    exact write_loff_inDevice (h f pos hpos)

/-- In every reachable state every position is within the device. -/
theorem positionsInDevice_of_run {mem : Mem} {s : Device File} {trace : List Returned}
    (hrun : Run Device.step anyLabel (Device.init mem) s trace) : s.PositionsInDevice :=
  hrun.invariant (I := fun s _ => s.PositionsInDevice) (fun _ _ h => by simp [Device.init] at h)
    fun h _ hstep => h.step hstep

/-- The range of indices that a call with the clamped count accesses lies within
`sh->mem`. -/
theorem indices_clampCount_in_bounds (p : ℕ) (cnt : BitVec 64) :
    ∀ j ∈ indices p (clampCount p cnt), 0 ≤ j ∧ j < memSize := by
  intro j hj
  have hle := clampCount_le p cnt
  rw [mem_indices] at hj
  omega

/-- `_read` accesses only indices of `sh->mem`, whatever position it is given. -/
theorem read_touched_in_bounds (mem : Mem) (cnt : BitVec 64) (writable : ℕ → Bool)
    (loff : BitVec 64) : ∀ j ∈ (read mem cnt writable loff).touched, 0 ≤ j ∧ j < memSize := by
  by_cases hp : memSize ≤ loff.toNat
  · simp [read_of_ge hp]
  · unfold read
    dsimp only
    rw [if_neg hp]
    exact indices_clampCount_in_bounds _ _

/-- `_write` stores only to indices of `sh->mem`, whatever position it is given. -/
theorem write_touched_in_bounds (sh : Share) (cnt : BitVec 64) (buff : ℕ → Option UInt8)
    (loff : BitVec 64) : ∀ j ∈ (write sh cnt buff loff).touched, 0 ≤ j ∧ j < memSize := by
  by_cases hp : memSize ≤ loff.toNat
  · simp [write_of_ge hp]
  · rw [write_of_lt (not_le.mp hp)]
    exact indices_clampCount_in_bounds _ _

/-- `_read` never returns more than was asked for. -/
theorem read_ret_le (mem : Mem) (cnt : BitVec 64) (writable : ℕ → Bool) (loff : BitVec 64) :
    (read mem cnt writable loff).ret ≤ cnt.toNat := by
  by_cases hp : memSize ≤ loff.toNat
  · simp [read_of_ge hp]
  · have hle := clampCount_le_cnt loff.toNat cnt
    unfold read
    dsimp only
    rw [if_neg hp]
    rcases readCopy_cases mem writable loff.toNat (clampCount loff.toNat cnt) with hfail | hok
    · dsimp only
      rw [hfail, EFAULT]
      omega
    · dsimp only
      rw [hok]
      omega

/-- `_write` never returns more than was asked for. -/
theorem write_ret_le (sh : Share) (cnt : BitVec 64) (buff : ℕ → Option UInt8) (loff : BitVec 64) :
    (write sh cnt buff loff).ret ≤ cnt.toNat := by
  by_cases hp : memSize ≤ loff.toNat
  · simp [write_of_ge hp]
  · have hle := clampCount_le_cnt loff.toNat cnt
    rw [write_of_lt (not_le.mp hp)]
    dsimp only
    omega

/-- Outside the clamped range `_write` changes nothing. -/
theorem write_mem_of_outside (sh : Share) (cnt : BitVec 64) (buff : ℕ → Option UInt8)
    (loff : BitVec 64) {j : ℤ}
    (hj : j < loff.toNat ∨ loff.toNat + clampCount loff.toNat cnt ≤ j) :
    (write sh cnt buff loff).share.mem j = sh.mem j := by
  by_cases hp : memSize ≤ loff.toNat
  · simp [write_of_ge hp, Share.countWrite]
  · rw [write_of_lt (not_le.mp hp)]
    dsimp only
    rw [writeLoop_mem, Nat.cast_zero, add_zero]
    rcases hj with hlo | hhi
    · exact splice_of_lt _ _ hlo
    · exact splice_of_ge _ _ (by simpa using hhi)

/-- What one system call may do from the state `s`, leading to `t`. -/
def Op.Respects (s t : Device File) (r : Returned) : Op File → Prop
  | .open f => t.files f = some 0 ∧ t.share = s.share
  | .llseek f offset whence => t.share = s.share ∧
      (r.ret < 0 → t.files = s.files) ∧
      (0 ≤ r.ret → ∃ pos base pos', s.files f = some pos ∧ seekBase pos whence = some base ∧
        r.ret = base + offset.toInt ∧ t.files f = some pos' ∧ pos'.toInt = base + offset.toInt)
  | .read _ _ cnt _ => t.share = s.share ∧ r.ret ≤ cnt.toNat
  | .write f explicit cnt _ => r.ret ≤ cnt.toNat ∧
      ∀ pos, s.files f = some pos → ∀ p : ℕ, p = (explicit.getD pos).toNat → ∀ j : ℤ,
        j < p ∨ p + clampCount p cnt ≤ j → t.share.mem j = s.share.mem j

/-- Each system call from a state whose positions are within the device does
only what it may. -/
theorem Device.PositionsInDevice.respects {s t : Device File} {op : Op File} {r : Returned}
    (h : s.PositionsInDevice) (hstep : s.step op = some (t, [r])) : op.Respects s t r := by
  cases op with
  | «open» f =>
    simp only [Device.step, Option.some.injEq, Prod.mk.injEq] at hstep
    obtain ⟨rfl, _⟩ := hstep
    exact ⟨by simp [Device.setPos], rfl⟩
  | llseek f offset whence =>
    obtain ⟨pos, hpos, rfl, hr⟩ := Device.onFile_eq_some.mp hstep
    obtain rfl := List.singleton_injective hr
    refine ⟨rfl, ?_, ?_⟩
    · intro hneg
      rcases llseek_cases (h f pos hpos) offset whence with hfail | ⟨base, _, hret, hto, hin⟩
      · simp only [hfail, Device.setPos, ← hpos, Function.update_eq_self]
      · exact absurd hin.1 (by dsimp only at hneg; omega)
    · intro hnonneg
      rcases llseek_cases (h f pos hpos) offset whence with hfail | ⟨base, hbase, hret, hto, _⟩
      · simp [hfail, EINVAL] at hnonneg
      · exact ⟨pos, base, _, hpos, hbase, hret, by simp [Device.setPos], hto⟩
  | read f explicit cnt writable =>
    obtain ⟨pos, hpos, rfl, hr⟩ := Device.onFile_eq_some.mp hstep
    obtain rfl := List.singleton_injective hr
    exact ⟨rfl, read_ret_le _ _ _ _⟩
  | write f explicit cnt buff =>
    obtain ⟨pos, hpos, rfl, hr⟩ := Device.onFile_eq_some.mp hstep
    obtain rfl := List.singleton_injective hr
    refine ⟨write_ret_le _ _ _ _, ?_⟩
    intro pos' hpos' p hp j hj
    obtain rfl := Option.some.inj (hpos.symm.trans hpos')
    subst hp
    exact write_mem_of_outside _ _ _ _ hj

/-- **Position and bounds invariant.** In every reachable state every open file's
position is in `[0, 128]`, and every call from it accesses only indices of
`sh->mem`, changes nothing outside its clamped range, returns no more than was
asked for, and moves the position only to an exact sum. -/
theorem positions_and_accesses_in_bounds {mem : Mem} {s : Device File} {trace : List Returned}
    (hrun : Run Device.step anyLabel (Device.init mem) s trace) :
    (∀ f pos, s.files f = some pos → 0 ≤ pos.toInt ∧ pos.toInt ≤ 128) ∧
      ∀ op t es, s.step op = some (t, es) → ∃ r, es = [r] ∧
        (∀ j ∈ r.touched, 0 ≤ j ∧ j < 128) ∧ op.Respects s t r := by
  have hpos := positionsInDevice_of_run hrun
  refine ⟨hpos, ?_⟩
  intro op t es hstep
  cases op with
  | «open» f =>
    simp only [Device.step, Option.some.injEq, Prod.mk.injEq] at hstep
    obtain ⟨rfl, rfl⟩ := hstep
    exact ⟨_, rfl, by simp, hpos.respects (by simp [Device.step])⟩
  | llseek f offset whence =>
    obtain ⟨pos, _, _, rfl⟩ := Device.onFile_eq_some.mp hstep
    exact ⟨_, rfl, by simp, hpos.respects hstep⟩
  | read f explicit cnt writable =>
    obtain ⟨pos, _, _, rfl⟩ := Device.onFile_eq_some.mp hstep
    exact ⟨_, rfl, read_touched_in_bounds _ _ _ _, hpos.respects hstep⟩
  | write f explicit cnt buff =>
    obtain ⟨pos, _, _, rfl⟩ := Device.onFile_eq_some.mp hstep
    exact ⟨_, rfl, write_touched_in_bounds _ _ _ _, hpos.respects hstep⟩

/-- A file is opened, moved near the end and written past it: the position stays
at the end of the device. -/
theorem positions_and_accesses_in_bounds_run :
    ∃ s trace, exec Device.step (Device.init fun _ => 0 : Device Bool)
        [.open true, .llseek true 120 0, .write true none 20 fun _ => some 7] = some (s, trace) ∧
      s.files true = some 128 ∧
      ∀ f pos, s.files f = some pos → 0 ≤ pos.toInt ∧ pos.toInt ≤ 128 := by
  obtain ⟨⟨s, trace⟩, hexec, hfinal⟩ := Option.map_eq_some_iff.mp
    (show (exec Device.step (Device.init fun _ => 0 : Device Bool)
      [.open true, .llseek true 120 0, .write true none 20 fun _ => some 7]).map
        (fun p => p.1.files true) = some (some 128) by decide)
  exact ⟨s, trace, hexec, hfinal,
    (positions_and_accesses_in_bounds (run_of_exec (meets_anyLabel _ _) hexec)).1⟩

end LinuxDevNote.Mutex
