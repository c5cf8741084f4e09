import LinuxDevNote.Library.Accesses
import LinuxDevNote.Mutex.Interleaving

/-!
# The driver without the mutex

`unuseMutex/mutex_drv.c` is the mutex driver with `mutex_lock` and `mutex_unlock` commented
out. Any number of calls run at the same time, and every byte that a copy moves is a step
of its own, in `_read` as well: nothing keeps `copy_to_user` together. What a call does to
`sh->mem` is what a thread of `Library/Accesses` does to its cells.
-/

namespace LinuxDevNote.UnuseMutex

open Memory Kernel Mutex Execution Accesses

/-- A call of a handler. -/
inductive Call
  | read (cnt : BitVec 64) (writable : ℕ → Bool)
  | write (cnt : BitVec 64) (buff : ℕ → Option UInt8)

/-- The statement a call executes next. -/
inductive Pc
  | start
  | readCopy (fr : Frame (ℕ → Bool)) (k : ℕ) (out : List UInt8)
  | writeBranch (fr : Frame (ℕ → Option UInt8))
  | writeLoop (fr : Frame (ℕ → Option UInt8)) (thread0 : Bool) (i : ℕ) (ret : ℤ)
  | done (ret : ℤ) (out : List UInt8)

/-- The driver with its calls, each of an open file of its own. -/
structure State (ι : Type*) where
  /-- `sh->mem` and `writecount`. -/
  share : Share
  /-- `*loff` of each call. -/
  loff : ι → BitVec 64
  /-- The next statement of each call. -/
  pc : ι → Pc

/-- No call has started. -/
def State.init {ι : Type*} (share : Share) (loff : ι → BitVec 64) : State ι :=
  ⟨share, loff, fun _ => .start⟩

variable {ι : Type*} [DecidableEq ι]

/-- Move one call to its next statement. -/
def State.setPc (s : State ι) (i : ι) (pc : Pc) : State ι :=
  { s with pc := Function.update s.pc i pc }

/-- `*loff += count`, and the return. -/
def State.finish (s : State ι) (i : ι) (count : ℕ) (out : List UInt8) : State ι :=
  { s with loff := Function.update s.loff i (s.loff i + BitVec.ofNat 64 count) }.setPc i
    (.done count out)

/-- The next statement of a call, with the index of `sh->mem` it accesses. -/
def State.advance (call : Call) (s : State ι) (i : ι) : Option (State ι × List (ι × ℤ)) :=
  match s.pc i with
  | .start =>
    let p := (s.loff i).toNat
    match call with
    | .read cnt writable =>
      if memSize ≤ p then some (s.setPc i (.done 0 []), [])
      else some (s.setPc i (.readCopy ⟨cnt, writable, p, clampCount p cnt⟩ 0 []), [])
    | .write cnt buff =>
      let s := { s with share := s.share.countWrite }
      if memSize ≤ p then some (s.setPc i (.done 0 []), [])
      else some (s.setPc i (.writeBranch ⟨cnt, buff, p, clampCount p cnt⟩), [])
  | .readCopy fr k out =>
    if k < fr.count then
      if fr.buff k then
        some (s.setPc i (.readCopy fr (k + 1) (out ++ [s.share.mem (fr.p + k)])),
          [(i, (fr.p + k : ℤ))])
      else some (s.setPc i (.done (-EFAULT) out), [])
    else some (s.finish i fr.count out, [])
  | .writeBranch fr => some (s.setPc i (.writeLoop fr (s.share.writecount.tmod 2 = 1) 0 0), [])
  | .writeLoop fr thread0 k ret =>
    if k < fr.count then
      let st := writeByte fr.buff fr.p k ⟨s.share.mem, ret, []⟩
      some ({ s with share := { s.share with mem := st.mem } }.setPc i
        (.writeLoop fr thread0 (k + 1) st.ret), [(i, (fr.p + k : ℤ))])
    else some (s.finish i fr.count [], [])
  | .done _ _ => none

/-- One step of one call. -/
def State.step (calls : ι → Call) (s : State ι) (i : ι) : Option (State ι × List (ι × ℤ)) :=
  s.advance (calls i) i

/-- The bytes of `sh->mem` that a call accesses: those of the clamped count, and of a read
those before the first that the caller cannot take. -/
def Call.length (loff : BitVec 64) (call : Call) : ℕ :=
  if memSize ≤ loff.toNat then 0
  else
    match call with
    | .read cnt writable => ((List.range (clampCount loff.toNat cnt)).takeWhile writable).length
    | .write cnt _ => clampCount loff.toNat cnt

/-- What a call does to `sh->mem`. -/
def Call.thread (call : Call) (loff : BitVec 64) : Thread ℤ UInt8 where
  cells := indices loff.toNat (call.length loff)
  stores c :=
    match call with
    | .read _ _ => none
    | .write _ buff => some (copyFromUserByte (buff (c - loff.toNat).toNat)).1

/-- The value a call returns: the clamped count, also where bytes of a write could not be
read, and `-EFAULT` where bytes of a read could not be taken. -/
def Call.ret (loff : BitVec 64) (call : Call) : ℤ :=
  if memSize ≤ loff.toNat then 0
  else
    match call with
    | .read cnt _ =>
      if call.length loff = clampCount loff.toNat cnt then clampCount loff.toNat cnt else -EFAULT
    | .write cnt _ => clampCount loff.toNat cnt

/-- The bytes a call hands to its caller, when it found some in `sh->mem`. -/
def Call.delivered (found : List UInt8) : Call → List UInt8
  | .read _ _ => found
  | .write _ _ => []

end LinuxDevNote.UnuseMutex
