import LinuxDevNote.Kernel.Machine
import LinuxDevNote.Library.Memory

/-!
# The handlers of the mutex driver

`mutex_drv.c` shares 128 bytes among all processes that open its node. This file
embeds `_read`, `_write` and `_llseek`, each as one uninterrupted call. `loff_t`
and `size_t` values are 64-bit words; `p` is the unsigned reinterpretation of
`*loff`, and `count` the 32-bit narrowing of `cnt`, both as in the source.
-/

namespace LinuxDevNote.Mutex

open Memory Kernel

/-- `MEM_SIZE`. -/
def memSize : ℕ := 128

/-- The bytes of `sh->mem`, indexed from its start. -/
abbrev Mem := ℤ → UInt8

/-- The data all calls share: `sh->mem` and the static counter of `_write`. -/
structure Share where
  /-- `sh->mem`. -/
  mem : Mem
  /-- `static int writecount`. -/
  writecount : ℤ

/-- `unsigned int count = cnt`, clamped to the bytes from `p` to the end. -/
def clampCount (p : ℕ) (cnt : BitVec 64) : ℕ :=
  let count := (cnt.setWidth 32).toNat
  if memSize - p < count then memSize - p else count

/-- The critical section of `_read`: `copy_to_user(buff, sh->mem + p, count)`,
giving the bytes that reached the caller and the value of `ret`. -/
def readCopy (mem : Mem) (writable : ℕ → Bool) (p count : ℕ) : List UInt8 × ℤ :=
  let copied := copyToUser writable (slice mem p count)
  if copied.2 ≠ 0 then (copied.1, -EFAULT) else (copied.1, count)

/-- What a call of `_read` leaves behind. -/
structure ReadResult where
  /-- The value returned. -/
  ret : ℤ
  /-- `*loff` afterwards. -/
  loff : BitVec 64
  /-- The bytes placed at the start of the caller's buffer. -/
  out : List UInt8
  /-- The indices of `sh->mem` that were accessed. -/
  touched : List ℤ

/-- `_read`. -/
def read (mem : Mem) (cnt : BitVec 64) (writable : ℕ → Bool) (loff : BitVec 64) : ReadResult :=
  let p := loff.toNat
  if memSize ≤ p then ⟨0, loff, [], []⟩
  else
    let count := clampCount p cnt
    let copied := readCopy mem writable p count
    ⟨copied.2, if copied.2 = -EFAULT then loff else loff + BitVec.ofNat 64 count, copied.1,
      indices p count⟩

/-- The variables of `_write` that its copy loops change. -/
structure LoopState where
  /-- `sh->mem`. -/
  mem : Mem
  /-- `ret`, which both loops may set and `_write` overwrites after them. -/
  ret : ℤ
  /-- The indices of `sh->mem` stored to so far. -/
  touched : List ℤ

/-- The body of either copy loop: `copy_from_user(sh->mem + p + i, buff++, 1)`. -/
def writeByte (buff : ℕ → Option UInt8) (p i : ℕ) (st : LoopState) : LoopState :=
  let copied := copyFromUserByte (buff i)
  ⟨Function.update st.mem (p + i) copied.1, if copied.2 ≠ 0 then -EFAULT else st.ret,
    st.touched ++ [(p + i : ℤ)]⟩

/-- Either copy loop, with `remaining` iterations to go from index `i`. -/
def writeLoop (buff : ℕ → Option UInt8) (p : ℕ) : ℕ → ℕ → LoopState → LoopState
  | 0, _, st => st
  | remaining + 1, i, st => writeLoop buff p remaining (i + 1) (writeByte buff p i st)

/-- What a call of `_write` leaves behind. -/
structure WriteResult where
  /-- The value returned. -/
  ret : ℤ
  /-- `*loff` afterwards. -/
  loff : BitVec 64
  /-- The shared data afterwards. -/
  share : Share
  /-- The indices of `sh->mem` that were stored to. -/
  touched : List ℤ

/-- `writecount++`. -/
def Share.countWrite (sh : Share) : Share := { sh with writecount := toInt (sh.writecount + 1) }

/-- `_write`. The branches on `writecount` differ in their log text and delay
only; the `ret` of the loop is overwritten by `count`. -/
def write (sh : Share) (cnt : BitVec 64) (buff : ℕ → Option UInt8) (loff : BitVec 64) :
    WriteResult :=
  let sh := sh.countWrite
  let p := loff.toNat
  if memSize ≤ p then ⟨0, loff, sh, []⟩
  else
    let count := clampCount p cnt
    let st := if sh.writecount.tmod 2 = 1 then writeLoop buff p count 0 ⟨sh.mem, 0, []⟩
      else writeLoop buff p count 0 ⟨sh.mem, 0, []⟩
    ⟨count, loff + BitVec.ofNat 64 count, { sh with mem := st.mem }, st.touched⟩

/-- The position a `whence` asks for, or `none` for an unknown one. The additions
are those of 64-bit words. -/
def seekTarget (fPos offset : BitVec 64) (whence : ℤ) : Option (BitVec 64) :=
  if whence = 0 then some offset
  else if whence = 1 then some (fPos + offset)
  else if whence = 2 then some (BitVec.ofNat 64 (memSize - 1) + offset)
  else none

/-- `_llseek`: the value returned and `filp->f_pos` afterwards. -/
def llseek (fPos offset : BitVec 64) (whence : ℤ) : ℤ × BitVec 64 :=
  match seekTarget fPos offset whence with
  | none => (-EINVAL, fPos)
  | some newPos =>
    if newPos.toInt < 0 ∨ (memSize : ℤ) < newPos.toInt then (-EINVAL, fPos)
    else (newPos.toInt, newPos)

/-- The clamped count never reaches past the end. -/
theorem clampCount_le (p : ℕ) (cnt : BitVec 64) : clampCount p cnt ≤ memSize - p := by
  unfold clampCount
  dsimp only
  split <;> omega

/-- The clamped count never exceeds the size asked for. -/
theorem clampCount_le_cnt (p : ℕ) (cnt : BitVec 64) : clampCount p cnt ≤ cnt.toNat := by
  have hnarrow : (cnt.setWidth 32).toNat ≤ cnt.toNat := by
    rw [BitVec.toNat_setWidth]
    exact Nat.mod_le _ _
  unfold clampCount
  dsimp only
  split <;> omega

/-- The copy loop writes the bytes of the user buffer, zero for an unreadable
one, to consecutive indices. -/
theorem writeLoop_mem (buff : ℕ → Option UInt8) (p remaining i : ℕ) (st : LoopState) :
    (writeLoop buff p remaining i st).mem =
      splice st.mem (p + i)
        ((List.range' i remaining).map fun k => (copyFromUserByte (buff k)).1) := by
  induction remaining generalizing i st with
  | zero => simp [writeLoop]
  | succ remaining ih =>
    rw [writeLoop, ih, List.range'_succ, List.map_cons, ← List.singleton_append, splice_append,
      splice_singleton]
    simp [writeByte, add_assoc]

/-- The copy loop stores to consecutive indices, once each. -/
theorem writeLoop_touched (buff : ℕ → Option UInt8) (p remaining i : ℕ) (st : LoopState) :
    (writeLoop buff p remaining i st).touched = st.touched ++ indices (p + i) remaining := by
  induction remaining generalizing i st with
  | zero => simp [writeLoop, indices]
  | succ remaining ih =>
    rw [writeLoop, ih, indices_succ]
    simp [writeByte, add_assoc]

/-- The memory after a loop depends on the memory before it only, not on the
other loop variables. -/
theorem writeLoop_mem_congr (buff : ℕ → Option UInt8) (p remaining i : ℕ) {st st' : LoopState}
    (h : st.mem = st'.mem) :
    (writeLoop buff p remaining i st).mem = (writeLoop buff p remaining i st').mem := by
  rw [writeLoop_mem, writeLoop_mem, h]

/-- At or past the end `_write` stores nothing and returns zero. -/
theorem write_of_ge {sh : Share} {cnt : BitVec 64} {buff : ℕ → Option UInt8} {loff : BitVec 64}
    (h : memSize ≤ loff.toNat) : write sh cnt buff loff = ⟨0, loff, sh.countWrite, []⟩ := by
  simp [write, h]

/-- Before the end `_write` runs one loop over the clamped count, whichever
branch `writecount` selects. -/
theorem write_of_lt {sh : Share} {cnt : BitVec 64} {buff : ℕ → Option UInt8} {loff : BitVec 64}
    (h : loff.toNat < memSize) :
    write sh cnt buff loff =
      ⟨clampCount loff.toNat cnt, loff + BitVec.ofNat 64 (clampCount loff.toNat cnt),
        { sh.countWrite with
          mem := (writeLoop buff loff.toNat (clampCount loff.toNat cnt) 0 ⟨sh.mem, 0, []⟩).mem },
        indices loff.toNat (clampCount loff.toNat cnt)⟩ := by
  have htouched := writeLoop_touched buff loff.toNat (clampCount loff.toNat cnt) 0 ⟨sh.mem, 0, []⟩
  unfold write
  dsimp only
  rw [if_neg (not_le.mpr h), ite_self]
  simp only [Share.countWrite, htouched, List.nil_append, Nat.cast_zero, add_zero]

/-- At or past the end `_read` copies nothing and returns zero. -/
theorem read_of_ge {mem : Mem} {cnt : BitVec 64} {writable : ℕ → Bool} {loff : BitVec 64}
    (h : memSize ≤ loff.toNat) : read mem cnt writable loff = ⟨0, loff, [], []⟩ := by
  simp [read, h]

/-- The section of `_read` either fails with `-EFAULT` or delivers the whole
slice and returns its length. -/
theorem readCopy_cases (mem : Mem) (writable : ℕ → Bool) (p count : ℕ) :
    (readCopy mem writable p count).2 = -EFAULT ∨
      readCopy mem writable p count = (slice mem p count, (count : ℤ)) := by
  unfold readCopy
  dsimp only
  split
  · exact Or.inl rfl
  · rename_i hzero
    right
    rw [copyToUser_fst_of_success (not_not.mp hzero)]

end LinuxDevNote.Mutex
