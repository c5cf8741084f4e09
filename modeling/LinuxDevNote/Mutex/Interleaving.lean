import LinuxDevNote.Library.Execution
import LinuxDevNote.Library.LockOrder
import LinuxDevNote.Mutex.Driver

/-!
# The mutex driver step by step

Any number of clients, each with its own open file, call the handlers of
`mutex_drv.c` at the same time. A call advances by the steps of its source text:
the part before `mutex_lock`, the acquisition, the statements under the lock (one
step for each byte of a copy loop of `_write`, which gives up the processor after
it), the release, and the return. Any client may take the next step.
-/

namespace LinuxDevNote.Mutex

open Memory Kernel Execution LockOrder

/-- The arguments and local variables of a running call. -/
structure Frame (Buffer : Type) where
  /-- `cnt`. -/
  cnt : BitVec 64
  /-- `buff`: which bytes can be written, or the bytes that can be read. -/
  buff : Buffer
  /-- `unsigned long p = *loff`. -/
  p : ℕ
  /-- `count` after it was clamped. -/
  count : ℕ

/-- The statement a client executes next. -/
inductive Pc
  | idle
  | readLock (fr : Frame (ℕ → Bool))
  | readCopy (fr : Frame (ℕ → Bool))
  | readUnlock (ret : ℤ) (out : List UInt8)
  | readReturn (ret : ℤ) (out : List UInt8)
  | writeLock (fr : Frame (ℕ → Option UInt8))
  | writeBranch (fr : Frame (ℕ → Option UInt8))
  | writeLoop (fr : Frame (ℕ → Option UInt8)) (thread0 : Bool) (i : ℕ) (ret : ℤ)
  | writeUnlock (fr : Frame (ℕ → Option UInt8))
  | writeReturn (fr : Frame (ℕ → Option UInt8))

/-- The statements between `mutex_lock` and `mutex_unlock`, the latter included. -/
def Pc.inSection : Pc → Bool
  | .readCopy _ | .readUnlock _ _ | .writeBranch _ | .writeLoop _ _ _ _ | .writeUnlock _ => true
  | _ => false

/-- A client: the position of its open file and where its current call stands. -/
structure Client where
  /-- `*loff`, the position of the client's own open file. -/
  loff : BitVec 64
  /-- The next statement. -/
  pc : Pc

/-- The driver with its clients. -/
structure State (ι : Type*) where
  /-- `sh->mem` and `writecount`. -/
  share : Share
  /-- The holder of `share_mutex`. -/
  lock : Option ι
  /-- All clients. -/
  clients : ι → Client

/-- Nobody is in a call; the memory, the counter and the positions are arbitrary. -/
def State.init {ι : Type*} (share : Share) (loff : ι → BitVec 64) : State ι :=
  ⟨share, none, fun i => ⟨loff i, .idle⟩⟩

/-- A call that a client may issue. -/
inductive Call
  | llseek (offset : BitVec 64) (whence : ℤ)
  | read (cnt : BitVec 64) (writable : ℕ → Bool)
  | write (cnt : BitVec 64) (buff : ℕ → Option UInt8)

/-- A scheduling decision: a client issues a call, or its call takes a step. -/
inductive Label (ι : Type*)
  | call (i : ι) (c : Call)
  | advance (i : ι)

/-- A call that takes the lock, with its arguments and the position it started
from. -/
inductive LockedCall
  | read (cnt : BitVec 64) (writable : ℕ → Bool) (loff : BitVec 64)
  | write (cnt : BitVec 64) (buff : ℕ → Option UInt8) (loff : BitVec 64)

/-- The whole call as one atomic step on the shared data. -/
def LockedCall.apply : LockedCall → Share → Share
  | .read _ _ _, sh => sh
  | .write cnt buff loff, sh => (Mutex.write sh cnt buff loff).share

/-- What can be observed of a step. -/
inductive Event (ι : Type*)
  | locked (i : ι) (c : LockedCall)
  | unlocked (i : ι)
  | readReturned (i : ι) (ret : ℤ) (out : List UInt8)
  | returned (i : ι) (ret : ℤ)

/-- The acquisitions of `share_mutex` among the events. -/
def Event.acquired {ι : Type*} : Event ι → Option (ι × LockedCall)
  | .locked i c => some (i, c)
  | _ => none

variable {ι : Type*} [DecidableEq ι]

/-- Replace one client. -/
def State.setClient (s : State ι) (i : ι) (c : Client) : State ι :=
  { s with clients := Function.update s.clients i c }

/-- Move one client to its next statement. -/
def State.setPc (s : State ι) (i : ι) (pc : Pc) : State ι :=
  s.setClient i ⟨(s.clients i).loff, pc⟩

/-- The part of a call before `mutex_lock`, all of it for `_llseek` and for a
position at or past the end. -/
def State.begin (s : State ι) (i : ι) : Call → State ι × List (Event ι)
  | .llseek offset whence =>
    let sought := llseek (s.clients i).loff offset whence
    (s.setClient i ⟨sought.2, .idle⟩, [.returned i sought.1])
  | .read cnt writable =>
    let p := (s.clients i).loff.toNat
    if memSize ≤ p then (s, [.returned i 0])
    else (s.setPc i (.readLock ⟨cnt, writable, p, clampCount p cnt⟩), [])
  | .write cnt buff =>
    let s := { s with share := s.share.countWrite }
    let p := (s.clients i).loff.toNat
    if memSize ≤ p then (s, [.returned i 0])
    else (s.setPc i (.writeLock ⟨cnt, buff, p, clampCount p cnt⟩), [])

/-- The next statement of a running call; `none` while it waits for the lock. -/
def State.advance (s : State ι) (i : ι) : Option (State ι × List (Event ι)) :=
  let loff := (s.clients i).loff
  match (s.clients i).pc with
  | .idle => none
  | .readLock fr =>
    if s.lock.isNone then
      some ({ s with lock := some i }.setPc i (.readCopy fr),
        [.locked i (.read fr.cnt fr.buff loff)])
    else none
  | .readCopy fr =>
    let copied := readCopy s.share.mem fr.buff fr.p fr.count
    some (s.setClient i ⟨if copied.2 = -EFAULT then loff else loff + BitVec.ofNat 64 fr.count,
      .readUnlock copied.2 copied.1⟩, [])
  | .readUnlock ret out =>
    some ({ s with lock := none }.setPc i (.readReturn ret out), [.unlocked i])
  | .readReturn ret out => some (s.setPc i .idle, [.readReturned i ret out])
  | .writeLock fr =>
    if s.lock.isNone then
      some ({ s with lock := some i }.setPc i (.writeBranch fr),
        [.locked i (.write fr.cnt fr.buff loff)])
    else none
  | .writeBranch fr =>
    -- `writecount` is read under the lock, but any `_write` may have counted up since
    some (s.setPc i (.writeLoop fr (s.share.writecount.tmod 2 = 1) 0 0), [])
  | .writeLoop fr thread0 k ret =>
    if k < fr.count then
      let st := writeByte fr.buff fr.p k ⟨s.share.mem, ret, []⟩
      some ({ s with share := { s.share with mem := st.mem } }.setPc i
        (.writeLoop fr thread0 (k + 1) st.ret), [])
    else some (s.setPc i (.writeUnlock fr), [])
  | .writeUnlock fr => some ({ s with lock := none }.setPc i (.writeReturn fr), [.unlocked i])
  | .writeReturn fr =>
    some (s.setClient i ⟨loff + BitVec.ofNat 64 fr.count, .idle⟩, [.returned i fr.count])

/-- One step of the driver with its clients. A client issues a call only when it
is not in one. -/
def State.step (s : State ι) : Label ι → Option (State ι × List (Event ι))
  | .call i c =>
    match (s.clients i).pc with
    | .idle => some (s.begin i c)
    | _ => none
  | .advance i => s.advance i

/-- Replacing a client is seen by that client only. -/
@[simp] theorem State.setClient_self (s : State ι) (i : ι) (c : Client) :
    (s.setClient i c).clients i = c := by simp [State.setClient]

/-- Replacing a client is not seen by the others. -/
theorem State.setClient_other (s : State ι) {i j : ι} (c : Client) (h : j ≠ i) :
    (s.setClient i c).clients j = s.clients j := Function.update_of_ne h _ _

/-- Replacing a client keeps the shared data. -/
@[simp] theorem State.setClient_share (s : State ι) (i : ι) (c : Client) :
    (s.setClient i c).share = s.share := rfl

/-- Replacing a client keeps the lock. -/
@[simp] theorem State.setClient_lock (s : State ι) (i : ι) (c : Client) :
    (s.setClient i c).lock = s.lock := rfl

end LinuxDevNote.Mutex
