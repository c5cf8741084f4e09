import Mathlib.Data.Nat.Digits.Defs
import LinuxDevNote.Library.CString

/-!
# The message queue program

`Mesge_queues_RW.c` opens the message queue of a key, forks, and waits for its child, which sends a
message; then it receives a message without waiting, and deletes the queue. Any number of runs
share the key: what one sends another one may receive, and the queue may be gone when a run comes
to use it. A queue that is made after that has a new id.
-/

namespace LinuxDevNote.MessageQueue

open CString

/-- The length of `buf_r` and `buf_w`. -/
def bufSize : ℕ := 0xff

/-- `sizeof(long)`: the bytes of the type that is in front of the text of a message. -/
def longSize : ℕ := 8

/-- `MSGMNB`: the bytes of text that a queue holds. -/
def MSGMNB : ℕ := 16384

/-- The string copied to `buf_w`, without its NUL. -/
def helloWord : List UInt8 := [104, 101, 108, 108, 111, 32, 119, 111, 114, 100, 46, 10]

/-- `buf_w` after `strcpy`. A global array starts with zeros. -/
def bufW : List UInt8 := helloWord ++ List.replicate (bufSize - helloWord.length) 0

/-- What is behind `buf_w`, as far as `msgsnd` reads it: as many bytes as the type takes. -/
def Behind : Type := { bytes : List UInt8 // bytes.length = longSize }

/-- A message: its type and its text. -/
structure Message where
  /-- The bytes of `mtype`. -/
  mtype : List UInt8
  /-- `mtext`. -/
  mtext : List UInt8

/-- The type as a `long`. -/
def Message.type (m : Message) : ℤ :=
  (BitVec.ofNat 64 (Nat.ofDigits 256 (m.mtype.map UInt8.toNat))).toInt

/-- The message that `msgsnd(msg_id, buf_w, sizeof(buf_w), 0)` reads: the array has no room for
the type, so the first bytes of the string are the type, and the text goes on behind the array. -/
def messageAt (behind : Behind) : Message :=
  ⟨(bufW ++ behind.val).take longSize, ((bufW ++ behind.val).drop longSize).take bufSize⟩

/-- What `%s` prints of `buf_r` after `msgrcv` stored a message there. -/
def Message.shown (m : Message) : Option (List UInt8) := cString (m.mtype ++ m.mtext)

/-- The call a run makes next, in the child where that is `msgsnd`; with the id it got. -/
inductive Pc
  | msgget
  | fork (id : ℕ)
  | msgsnd (id : ℕ)
  | msgrcv (id : ℕ)
  | msgctl (id : ℕ)
  | exit
  deriving DecidableEq

/-- The runs, and the queue of the key. -/
structure State (ι : Type*) where
  /-- Where each run is. -/
  pc : ι → Pc
  /-- The messages in the queue, each with the run that sent it; `none` where there is no queue. -/
  queue : Option (List (ι × Message))
  /-- How many queues were deleted. The next one, or the one that there is, has this number as
  its id. -/
  deleted : ℕ

/-- Nobody has opened the queue. -/
def State.init (ι : Type*) : State ι := ⟨fun _ => .msgget, none, 0⟩

/-- A scheduling decision: the run that makes its next call, and whether the call fails for want of
resources. -/
structure Label (ι : Type*) where
  /-- The run. -/
  run : ι
  /-- No memory, or no process. -/
  fails : Bool
  deriving DecidableEq

/-- What a run prints: that it sent a message, the message that it received (and, not printed, who
sent it), that it deleted the queue, or the error of a call. -/
inductive Event (ι : Type*)
  | success (i : ι) (id : ℕ)
  | readSuccess (i j : ι) (id : ℕ) (text : Option (List UInt8))
  | deleteSuccess (i : ι) (id : ℕ)
  | perror (i : ι) (call : Pc)
  deriving DecidableEq

variable {ι : Type*}

/-- The queue with an id. -/
def State.find (s : State ι) (id : ℕ) : Option (List (ι × Message)) :=
  if id = s.deleted then s.queue else none

/-- The text in a queue. -/
def textSize (messages : List (ι × Message)) : ℕ := (messages.map fun p => p.2.mtext.length).sum

variable [DecidableEq ι]

/-- Move a run. -/
def State.setPc (s : State ι) (i : ι) (pc : Pc) : State ι :=
  { s with pc := Function.update s.pc i pc }

/-- `msgget(777, IPC_CREAT | 0666)`. -/
def State.msgget (s : State ι) (i : ι) : State ι :=
  { s with queue := some (s.queue.getD []) }.setPc i (.fork s.deleted)

/-- `msgsnd(msg_id, buf_w, sizeof(buf_w), 0)` by the child: it waits while the queue is full. -/
def State.msgsnd (s : State ι) (i : ι) (id : ℕ) (m : Message) :
    Option (State ι × List (Event ι)) :=
  if m.type < 1 then some (s.setPc i (.msgrcv id), [.perror i (.msgsnd id)])
  else
    match s.find id with
    | none => some (s.setPc i (.msgrcv id), [.perror i (.msgsnd id)])
    | some messages =>
      if textSize messages + m.mtext.length ≤ MSGMNB then
        some ({ s with queue := some (messages ++ [(i, m)]) }.setPc i (.msgrcv id),
          [.success i id])
      else none

/-- `msgrcv(msg_id, buf_r, sizeof(buf_r), 0, IPC_NOWAIT)`: the first message, if there is one and
`buf_r` is long enough for its text. -/
def State.msgrcv (s : State ι) (i : ι) (id : ℕ) : State ι × List (Event ι) :=
  match s.find id with
  | some ((j, m) :: rest) =>
    if bufSize < m.mtext.length then (s.setPc i .exit, [.perror i (.msgrcv id)])
    else ({ s with queue := some rest }.setPc i (.msgctl id), [.readSuccess i j id m.shown])
  | _ => (s.setPc i .exit, [.perror i (.msgrcv id)])

/-- `msgctl(msg_id, IPC_RMID, 0)`. Its failure is not printed. -/
def State.msgctl (s : State ι) (i : ι) (id : ℕ) : State ι × List (Event ι) :=
  match s.find id with
  | some _ => (⟨Function.update s.pc i .exit, none, s.deleted + 1⟩, [.deleteSuccess i id])
  | none => (s.setPc i .exit, [])

/-- The next call of a run. -/
def State.step (behind : ι → Behind) (s : State ι) (a : Label ι) :
    Option (State ι × List (Event ι)) :=
  match s.pc a.run, a.fails with
  | .msgget, true => some (s.setPc a.run .exit, [.perror a.run .msgget])
  | .msgget, false => some (s.msgget a.run, [])
  | .fork _, true => some (s.setPc a.run .exit, [])
  | .fork id, false => some (s.setPc a.run (.msgsnd id), [])
  | .msgsnd id, true => some (s.setPc a.run (.msgrcv id), [.perror a.run (.msgsnd id)])
  | .msgsnd id, false => s.msgsnd a.run id (messageAt (behind a.run))
  | .msgrcv id, false => some (s.msgrcv a.run id)
  | .msgctl id, false => some (s.msgctl a.run id)
  | .msgrcv _, true | .msgctl _, true | .exit, _ => none

/-- The ways a call can go. -/
inductive Steps (behind : ι → Behind) (s : State ι) :
    Label ι → State ι → List (Event ι) → Prop
  | opens {i : ι} : s.pc i = .msgget → Steps behind s ⟨i, false⟩ (s.msgget i) []
  | forks {i : ι} {id : ℕ} : s.pc i = .fork id →
      Steps behind s ⟨i, false⟩ (s.setPc i (.msgsnd id)) []
  | sends {i : ι} {id : ℕ} {messages : List (ι × Message)} : s.pc i = .msgsnd id →
      s.find id = some messages →
      textSize messages + (messageAt (behind i)).mtext.length ≤ MSGMNB →
      Steps behind s ⟨i, false⟩
        ({ s with queue := some (messages ++ [(i, messageAt (behind i))]) }.setPc i (.msgrcv id))
        [.success i id]
  | sendFails {a : Label ι} {id : ℕ} : s.pc a.run = .msgsnd id →
      Steps behind s a (s.setPc a.run (.msgrcv id)) [.perror a.run (.msgsnd id)]
  | receives {i j : ι} {id : ℕ} {m : Message} {rest : List (ι × Message)} :
      s.pc i = .msgrcv id → s.find id = some ((j, m) :: rest) →
      Steps behind s ⟨i, false⟩ ({ s with queue := some rest }.setPc i (.msgctl id))
        [.readSuccess i j id m.shown]
  | misses {i : ι} {id : ℕ} : s.pc i = .msgrcv id →
      (∀ p rest, s.find id = some (p :: rest) → bufSize < p.2.mtext.length) →
      Steps behind s ⟨i, false⟩ (s.setPc i .exit) [.perror i (.msgrcv id)]
  | deletes {i : ι} {id : ℕ} {messages : List (ι × Message)} : s.pc i = .msgctl id →
      s.find id = some messages →
      Steps behind s ⟨i, false⟩ ⟨Function.update s.pc i .exit, none, s.deleted + 1⟩
        [.deleteSuccess i id]
  | deleteFails {i : ι} {id : ℕ} : s.pc i = .msgctl id → s.find id = none →
      Steps behind s ⟨i, false⟩ (s.setPc i .exit) []
  | openFails {i : ι} : s.pc i = .msgget →
      Steps behind s ⟨i, true⟩ (s.setPc i .exit) [.perror i .msgget]
  | forkFails {i : ι} {id : ℕ} : s.pc i = .fork id →
      Steps behind s ⟨i, true⟩ (s.setPc i .exit) []

variable {behind : ι → Behind} {s t : State ι} {a : Label ι} {es : List (Event ι)} {id : ℕ}

omit [DecidableEq ι] in
/-- A queue is found by its id while it is there. -/
theorem State.find_eq_some {messages : List (ι × Message)} :
    s.find id = some messages ↔ id = s.deleted ∧ s.queue = some messages := by
  unfold State.find
  split_ifs with hid <;> simp [hid]

/-- Every call goes in one of these ways. -/
theorem State.steps (h : s.step behind a = some (t, es)) : Steps behind s a t es := by
  obtain ⟨i, fails⟩ := a
  unfold State.step at h
  dsimp only at h
  split at h
  · rename_i hpc
    obtain ⟨rfl, rfl⟩ := Prod.mk.inj (Option.some.inj h)
    exact .openFails hpc
  · rename_i hpc
    obtain ⟨rfl, rfl⟩ := Prod.mk.inj (Option.some.inj h)
    exact .opens hpc
  · rename_i hpc
    obtain ⟨rfl, rfl⟩ := Prod.mk.inj (Option.some.inj h)
    exact .forkFails hpc
  · rename_i hpc
    obtain ⟨rfl, rfl⟩ := Prod.mk.inj (Option.some.inj h)
    exact .forks hpc
  · rename_i hpc
    obtain ⟨rfl, rfl⟩ := Prod.mk.inj (Option.some.inj h)
    exact .sendFails hpc
  · rename_i id hpc
    unfold State.msgsnd at h
    split at h
    · obtain ⟨rfl, rfl⟩ := Prod.mk.inj (Option.some.inj h)
      exact .sendFails hpc
    · split at h
      · obtain ⟨rfl, rfl⟩ := Prod.mk.inj (Option.some.inj h)
        exact .sendFails hpc
      · rename_i hfind
        split at h
        · rename_i hroom
          obtain ⟨rfl, rfl⟩ := Prod.mk.inj (Option.some.inj h)
          exact .sends hpc hfind hroom
        · cases h
  · rename_i id hpc
    unfold State.msgrcv at h
    split at h
    · rename_i j m rest hfind
      split at h
      · rename_i hlong
        obtain ⟨rfl, rfl⟩ := Prod.mk.inj (Option.some.inj h)
        refine .misses hpc fun p rest' hp => ?_
        obtain ⟨rfl, _⟩ := List.cons.inj (Option.some.inj (hfind.symm.trans hp))
        exact hlong
      · obtain ⟨rfl, rfl⟩ := Prod.mk.inj (Option.some.inj h)
        exact .receives hpc hfind
    · rename_i hnone
      obtain ⟨rfl, rfl⟩ := Prod.mk.inj (Option.some.inj h)
      exact .misses hpc fun p rest hp => absurd hp (hnone p.1 p.2 rest)
  · rename_i id hpc
    unfold State.msgctl at h
    split at h
    · rename_i messages hfind
      obtain ⟨rfl, rfl⟩ := Prod.mk.inj (Option.some.inj h)
      exact .deletes hpc hfind
    · rename_i hfind
      obtain ⟨rfl, rfl⟩ := Prod.mk.inj (Option.some.inj h)
      exact .deleteFails hpc hfind
  · cases h
  · cases h
  · cases h

/-- The array has its length. -/
theorem length_bufW : bufW.length = bufSize := by
  rw [bufW, List.length_append, List.length_replicate]
  exact Nat.add_sub_of_le (by decide)

/-- The array, and what is behind it. -/
theorem length_bufW_append (b : Behind) : (bufW ++ b.val).length = bufSize + longSize := by
  rw [List.length_append, length_bufW, b.property]

/-- The message is the array and what is behind it. -/
theorem messageAt_bytes (b : Behind) :
    (messageAt b).mtype ++ (messageAt b).mtext = bufW ++ b.val := by
  have htake : ((bufW ++ b.val).drop longSize).take bufSize = (bufW ++ b.val).drop longSize :=
    List.take_of_length_le (by rw [List.length_drop, length_bufW_append, Nat.add_sub_cancel])
  rw [messageAt, htake, List.take_append_drop]

/-- Its text fills a buffer. -/
theorem length_messageAt (b : Behind) : (messageAt b).mtext.length = bufSize := by
  rw [messageAt, List.length_take, List.length_drop, length_bufW_append, Nat.add_sub_cancel,
    Nat.min_self]

/-- The receiver prints the string, though its first bytes were the type. -/
theorem shown_messageAt (b : Behind) : (messageAt b).shown = some helloWord := by
  have hroom : bufSize - helloWord.length = (bufSize - helloWord.length - 1) + 1 := by
    simp [bufSize, helloWord]
  rw [Message.shown, messageAt_bytes, bufW, hroom, List.replicate_succ, List.append_assoc,
    List.cons_append]
  exact cString_append (by decide) _

/-- These bytes are a type that may be sent. -/
theorem type_messageAt (b : Behind) : ¬ (messageAt b).type < 1 := by
  have htype : (messageAt b).mtype = helloWord.take longSize := by
    rw [messageAt, bufW, List.append_assoc, List.take_append_of_le_length (by decide)]
  rw [Message.type, htype]
  decide +kernel

end LinuxDevNote.MessageQueue
