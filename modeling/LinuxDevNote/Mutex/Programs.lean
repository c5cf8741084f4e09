import LinuxDevNote.Library.Simulation
import LinuxDevNote.Mutex.Interleaving

/-!
# Clients that run programs

Each client of the mutex driver goes through a list of calls and issues the next one when the
one before has returned. Beside the driver stands what it is meant to be: a driver in which
every call is one step. The two have the same outcomes.
-/

namespace LinuxDevNote.Mutex

open Memory Kernel Execution

/-- What a call returned, and the bytes it delivered. -/
abbrev Result := ℤ × List UInt8

/-- The result that a client sees in an event. -/
def Event.result {ι : Type*} : Event ι → Option Result
  | .readReturned _ ret out => some (ret, out)
  | .returned _ ret => some (ret, [])
  | _ => none

/-- The driver with the programs of its clients. -/
structure System (ι : Type*) where
  /-- The driver. -/
  driver : State ι
  /-- The calls that each client has still to issue. -/
  todo : ι → List Call
  /-- What the calls of each client returned so far. -/
  got : ι → List Result

/-- No client has begun its program. -/
def System.init {ι : Type*} (share : Share) (loff : ι → BitVec 64) (programs : ι → List Call) :
    System ι :=
  ⟨State.init share loff, programs, fun _ => []⟩

/-- All programs are over. -/
def System.Over {ι : Type*} (s : System ι) : Prop :=
  ∀ i, (s.driver.clients i).pc = .idle ∧ s.todo i = []

/-- A client's side: its position, the calls it has still to issue, and what the calls before
returned. -/
structure View where
  /-- `*loff`. -/
  loff : BitVec 64
  /-- The calls to come. -/
  todo : List Call
  /-- The results so far. -/
  got : List Result

/-- The side of one client. -/
def System.view {ι : Type*} (s : System ι) (i : ι) : View :=
  ⟨(s.driver.clients i).loff, s.todo i, s.got i⟩

/-- What a call does when nothing comes between. -/
structure Effect where
  /-- `sh->mem` afterwards. -/
  mem : Mem
  /-- `*loff` afterwards. -/
  loff : BitVec 64
  /-- What the call returns. -/
  result : Result

/-- The whole call. The number of writes before does not matter to it. -/
def Call.whole (mem : Mem) (loff : BitVec 64) : Call → Effect
  | .llseek offset whence =>
    let sought := Mutex.llseek loff offset whence
    ⟨mem, sought.2, (sought.1, [])⟩
  | .read cnt writable =>
    let done := Mutex.read mem cnt writable loff
    ⟨mem, done.loff, (done.ret, done.out)⟩
  | .write cnt buff =>
    let done := Mutex.write ⟨mem, 0⟩ cnt buff loff
    ⟨done.share.mem, done.loff, (done.ret, [])⟩

/-- The driver as it is meant: a memory, and clients whose calls are single steps. -/
structure Atomic (ι : Type*) where
  /-- `sh->mem`. -/
  mem : Mem
  /-- All clients. -/
  clients : ι → View

/-- No client has begun its program. -/
def Atomic.init {ι : Type*} (mem : Mem) (loff : ι → BitVec 64) (programs : ι → List Call) :
    Atomic ι :=
  ⟨mem, fun i => ⟨loff i, programs i, []⟩⟩

/-- What is left when all programs are over. -/
structure Outcome (ι : Type*) where
  /-- `sh->mem`. -/
  mem : Mem
  /-- The positions of the open files. -/
  loff : ι → BitVec 64
  /-- What the calls of each client returned. -/
  got : ι → List Result

variable {ι : Type*} [DecidableEq ι]

/-- What a step of the driver is for the client that took it. -/
def System.after (s : System ι) (i : ι) (todo : List Call) (p : State ι × List (Event ι)) :
    System ι × List (Event ι) :=
  (⟨p.1, Function.update s.todo i todo,
    Function.update s.got i (s.got i ++ p.2.filterMap Event.result)⟩, p.2)

/-- A client takes the next step of its call, or issues its next call. -/
def System.step (s : System ι) (i : ι) : Option (System ι × List (Event ι)) :=
  match (s.driver.clients i).pc with
  | .idle =>
    match s.todo i with
    | [] => none
    | c :: cs => (s.driver.step (.call i c)).map (s.after i cs)
  | _ => (s.driver.step (.advance i)).map (s.after i (s.todo i))

/-- A client makes its next call. -/
def Atomic.step (a : Atomic ι) (i : ι) : Option (Atomic ι × List (ι × Result)) :=
  match (a.clients i).todo with
  | [] => none
  | c :: cs =>
    let done := c.whole a.mem (a.clients i).loff
    some (⟨done.mem, Function.update a.clients i
      ⟨done.loff, cs, (a.clients i).got ++ [done.result]⟩⟩, [(i, done.result)])

/-- The outcomes of the driver. -/
def Reaches (share : Share) (loff : ι → BitVec 64) (programs : ι → List Call) (o : Outcome ι) :
    Prop :=
  ∃ is s es, exec System.step (System.init share loff programs) is = some (s, es) ∧ s.Over ∧
    o = ⟨s.driver.share.mem, fun i => (s.driver.clients i).loff, s.got⟩

/-- The outcomes of the atomic driver. -/
def AtomicallyReaches (mem : Mem) (loff : ι → BitVec 64) (programs : ι → List Call)
    (o : Outcome ι) : Prop :=
  ∃ is a es, exec Atomic.step (Atomic.init mem loff programs) is = some (a, es) ∧
    (∀ i, (a.clients i).todo = []) ∧
    o = ⟨a.mem, fun i => (a.clients i).loff, fun i => (a.clients i).got⟩

/-- Where a client stands, and what it seems to have done: a call seems done from the moment
it has the lock, or from its start when it takes none. -/
inductive Stands (mem seeming : Mem) : Pc → View → View → Prop
  | idle (v : View) : Stands mem seeming .idle v v
  | readLock {loff cnt : BitVec 64} {writable : ℕ → Bool} {todo : List Call} {got : List Result}
      (hp : loff.toNat < memSize) :
      Stands mem seeming (.readLock ⟨cnt, writable, loff.toNat, clampCount loff.toNat cnt⟩)
        ⟨loff, todo, got⟩ ⟨loff, .read cnt writable :: todo, got⟩
  | readCopy {loff cnt : BitVec 64} {writable : ℕ → Bool} {todo : List Call} {got : List Result}
      (hp : loff.toNat < memSize) (hmem : mem = seeming) :
      Stands mem seeming (.readCopy ⟨cnt, writable, loff.toNat, clampCount loff.toNat cnt⟩)
        ⟨loff, todo, got⟩ ⟨(read mem cnt writable loff).loff, todo,
          got ++ [((read mem cnt writable loff).ret, (read mem cnt writable loff).out)]⟩
  | readUnlock {loff : BitVec 64} {ret : ℤ} {out : List UInt8} {todo : List Call}
      {got : List Result} (hmem : mem = seeming) :
      Stands mem seeming (.readUnlock ret out) ⟨loff, todo, got⟩ ⟨loff, todo, got ++ [(ret, out)]⟩
  | readReturn {loff : BitVec 64} {ret : ℤ} {out : List UInt8} {todo : List Call}
      {got : List Result} :
      Stands mem seeming (.readReturn ret out) ⟨loff, todo, got⟩ ⟨loff, todo, got ++ [(ret, out)]⟩
  | writeLock {loff cnt : BitVec 64} {buff : ℕ → Option UInt8} {todo : List Call}
      {got : List Result} (hp : loff.toNat < memSize) :
      Stands mem seeming (.writeLock ⟨cnt, buff, loff.toNat, clampCount loff.toNat cnt⟩)
        ⟨loff, todo, got⟩ ⟨loff, .write cnt buff :: todo, got⟩
  | writeBranch {fr : Frame (ℕ → Option UInt8)} {loff : BitVec 64} {todo : List Call}
      {got : List Result}
      (hmem : (writeLoop fr.buff fr.p fr.count 0 ⟨mem, 0, []⟩).mem = seeming) :
      Stands mem seeming (.writeBranch fr) ⟨loff, todo, got⟩
        ⟨loff + BitVec.ofNat 64 fr.count, todo, got ++ [((fr.count : ℤ), [])]⟩
  | writeLoop {fr : Frame (ℕ → Option UInt8)} {thread0 : Bool} {k : ℕ} {ret : ℤ}
      {loff : BitVec 64} {todo : List Call} {got : List Result} (hk : k ≤ fr.count)
      (hmem : (writeLoop fr.buff fr.p (fr.count - k) k ⟨mem, ret, []⟩).mem = seeming) :
      Stands mem seeming (.writeLoop fr thread0 k ret) ⟨loff, todo, got⟩
        ⟨loff + BitVec.ofNat 64 fr.count, todo, got ++ [((fr.count : ℤ), [])]⟩
  | writeUnlock {fr : Frame (ℕ → Option UInt8)} {loff : BitVec 64} {todo : List Call}
      {got : List Result} (hmem : mem = seeming) :
      Stands mem seeming (.writeUnlock fr) ⟨loff, todo, got⟩
        ⟨loff + BitVec.ofNat 64 fr.count, todo, got ++ [((fr.count : ℤ), [])]⟩
  | writeReturn {fr : Frame (ℕ → Option UInt8)} {loff : BitVec 64} {todo : List Call}
      {got : List Result} :
      Stands mem seeming (.writeReturn fr) ⟨loff, todo, got⟩
        ⟨loff + BitVec.ofNat 64 fr.count, todo, got ++ [((fr.count : ℤ), [])]⟩

/-- The statements that a call has still to go through, before and under the lock and after. -/
def Pc.remaining : Pc → ℕ
  | .idle => 0
  | .readLock _ => 4
  | .readCopy _ => 3
  | .readUnlock _ _ => 2
  | .readReturn _ _ => 1
  | .writeLock fr => fr.count + 5
  | .writeBranch fr => fr.count + 4
  | .writeLoop fr _ k _ => fr.count - k + 3
  | .writeUnlock _ => 2
  | .writeReturn _ => 1

/-- What the driver with its clients seems to be. -/
structure Seems (s : System ι) (a : Atomic ι) : Prop where
  /-- The lock is held exactly by the client between `mutex_lock` and `mutex_unlock`. -/
  holder : ∀ i, s.driver.lock = some i ↔ (s.driver.clients i).pc.inSection = true
  /-- With the lock free the memory is the one it seems to be. -/
  free : s.driver.lock = none → s.driver.share.mem = a.mem
  /-- Where the clients stand. -/
  client : ∀ i, Stands s.driver.share.mem a.mem (s.driver.clients i).pc (s.view i) (a.clients i)

end LinuxDevNote.Mutex
