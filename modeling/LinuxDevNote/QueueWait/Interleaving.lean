import LinuxDevNote.QueueWait.Driver

/-!
# The queue-wait driver step by step

Any number of calls of `example_read` and `example_write` are in progress at once,
and nothing orders their steps: the driver has no lock. A call advances by the
statements of its source text, a write by one step for each turn of its copy loop.
`wait_event_interruptible` puts the caller on the queue, tests `havedata`, and
sleeps until `wake_up` or a signal makes it test again.
-/

namespace LinuxDevNote.QueueWait

open Memory Kernel Execution

/-- The statement a call executes next. -/
inductive Pc
  | start
  | writeLoop (k : ℕ)
  | writePublish
  | writeWake
  | writeDelay
  | writeReturn
  | readTest
  | waitEnqueue
  | waitTest
  | waitSleep
  | readClear
  | readCopy
  | readLog (out : List UInt8)
  | readLength (out : List UInt8)
  | readReset (n : ℤ) (out : List UInt8)
  | readReturn (n : ℤ) (out : List UInt8)
  | readFail (ret : ℤ)
  | done
  deriving DecidableEq

/-- The statements of a write from the one after `buff_len = 0` to `havedata = 1`. -/
def Pc.filling : Pc → Bool
  | .writeLoop _ | .writePublish => true
  | _ => false

/-- The statements of a read from `havedata = 0` to `buff_len = 0`. -/
def Pc.emptying : Pc → Bool
  | .readClear | .readCopy | .readLog _ | .readLength _ | .readReset _ _ => true
  | _ => false

/-- The statements during which a call works on the message in `byte`. -/
def Pc.inSection (pc : Pc) : Bool := pc.filling || pc.emptying

/-- The driver with the calls in progress. -/
structure State (ι : Type*) extends Device where
  /-- The next statement of each call. -/
  pc : ι → Pc
  /-- Whether a call was made runnable since it last put itself on the queue. -/
  woken : ι → Bool
  /-- Whether a signal is pending for the caller. -/
  signalled : ι → Bool

/-- The loaded module; no call has started. -/
def State.init {ι : Type*} (byte : ℤ → UInt8) : State ι :=
  ⟨Device.init byte, fun _ => .start, fun _ => false, fun _ => false⟩

/-- A scheduling decision: a call takes a step, or its caller gets a signal. -/
inductive Label (ι : Type*)
  | advance (i : ι)
  | signal (i : ι)

/-- What can be observed of a step: `havedata = 1`, `havedata = 0`, and the returns
of the two handlers. -/
inductive Event (ι : Type*)
  | published (w : ι)
  | cleared (r : ι)
  | wrote (w : ι) (ret : ℤ)
  | delivered (r : ι) (ret : ℤ) (out : List UInt8)
  | failed (r : ι) (ret : ℤ)
  deriving DecidableEq

/-- The call an event belongs to. -/
def Event.caller {ι : Type*} : Event ι → ι
  | .published w => w
  | .cleared r => r
  | .wrote w _ => w
  | .delivered r _ _ => r
  | .failed r _ => r

variable {ι : Type*} [DecidableEq ι]

/-- Move one call to its next statement. -/
def State.setPc (s : State ι) (i : ι) (pc : Pc) : State ι :=
  { s with pc := Function.update s.pc i pc }

/-- Replace the globals. -/
def State.setDevice (s : State ι) (d : Device) : State ι := { s with toDevice := d }

/-- The next statement of call `i` with the arguments `op`; `none` when the call
sleeps or has returned. -/
def State.advance (op : Op) (s : State ι) (i : ι) : Option (State ι × List (Event ι)) :=
  match s.pc i with
  | .start =>
    if op.isWrite then
      some ((s.setDevice ⟨{ s.toBuffer with buffLen := 0 }, s.havedata⟩).setPc i (.writeLoop 0), [])
    else some (s.setPc i .readTest, [])
  | .writeLoop k =>
    let turn := copyTurn op.size (op.source k) s.toBuffer
    some ((s.setDevice ⟨turn.1, s.havedata⟩).setPc i
      (if turn.2.1 then .writeLoop (k + 1) else .writePublish), [])
  | .writePublish =>
    some ((s.setDevice ⟨s.toBuffer, true⟩).setPc i .writeWake, [.published i])
  | .writeWake => some ({ s with woken := fun _ => true }.setPc i .writeDelay, [])
  | .writeDelay => some (s.setPc i .writeReturn, [])
  | .writeReturn => some (s.setPc i .done, [.wrote i s.buffLen])
  | .readTest =>
    if s.havedata then some (s.setPc i .readClear, [])
    else if op.nonblock then some (s.setPc i (.readFail (-EAGAIN)), [])
    else some (s.setPc i .waitEnqueue, [])
  | .waitEnqueue =>
    some ({ s with woken := Function.update s.woken i false }.setPc i .waitTest, [])
  | .waitTest =>
    -- the result of the wait is not looked at: a signal only leads back to the loop test
    if s.havedata || s.signalled i then some (s.setPc i .readTest, [])
    else some (s.setPc i .waitSleep, [])
  | .waitSleep =>
    if s.woken i || s.signalled i then some (s.setPc i .waitEnqueue, []) else none
  | .readClear => some ((s.setDevice ⟨s.toBuffer, false⟩).setPc i .readCopy, [.cleared i])
  | .readCopy =>
    let copied := copyToUser op.writable (slice s.byte 0 op.size)
    if copied.2 ≠ 0 then some (s.setPc i (.readFail (-EFAULT)), [])
    else some (s.setPc i (.readLog copied.1), [])
  | .readLog out => some (s.setPc i (.readLength out), [])
  | .readLength out => some (s.setPc i (.readReset s.buffLen out), [])
  | .readReset n out =>
    some ((s.setDevice ⟨{ s.toBuffer with buffLen := 0 }, s.havedata⟩).setPc i
      (.readReturn n out), [])
  | .readReturn n out => some (s.setPc i .done, [.delivered i n out])
  | .readFail ret => some (s.setPc i .done, [.failed i ret])
  | .done => none

/-- One step of the driver with its calls, whose arguments are `calls`. -/
def State.step (calls : ι → Op) (s : State ι) : Label ι → Option (State ι × List (Event ι))
  | .advance i => s.advance (calls i) i
  | .signal i => some ({ s with signalled := Function.update s.signalled i true }, [])

/-- Moving a call is seen by that call. -/
@[simp] theorem State.setPc_self (s : State ι) (i : ι) (pc : Pc) : (s.setPc i pc).pc i = pc := by
  simp [setPc]

/-- Moving a call keeps the globals. -/
@[simp] theorem State.setPc_toDevice (s : State ι) (i : ι) (pc : Pc) :
    (s.setPc i pc).toDevice = s.toDevice := rfl

omit [DecidableEq ι] in
/-- The replaced globals. -/
@[simp] theorem State.setDevice_toDevice (s : State ι) (d : Device) :
    (s.setDevice d).toDevice = d := rfl

/-- The statements that only move call `i` on, and when they do. -/
inductive Moves (op : Op) (s : State ι) (i : ι) : Pc → Pc → Prop
  | startRead : op.isWrite = false → Moves op s i .start .readTest
  | delay : Moves op s i .writeDelay .writeReturn
  | found : s.havedata = true → Moves op s i .readTest .readClear
  | refused : s.havedata = false → op.nonblock = true →
    Moves op s i .readTest (.readFail (-EAGAIN))
  | waits : s.havedata = false → op.nonblock = false → Moves op s i .readTest .waitEnqueue
  | leaves : (s.havedata || s.signalled i) = true → Moves op s i .waitTest .readTest
  | sleeps : s.havedata = false → s.signalled i = false → Moves op s i .waitTest .waitSleep
  | wakes : (s.woken i || s.signalled i) = true → Moves op s i .waitSleep .waitEnqueue
  | faults : (copyToUser op.writable (slice s.byte 0 op.size)).2 ≠ 0 →
    Moves op s i .readCopy (.readFail (-EFAULT))
  | copies : (copyToUser op.writable (slice s.byte 0 op.size)).2 = 0 →
    Moves op s i .readCopy (.readLog (copyToUser op.writable (slice s.byte 0 op.size)).1)
  | logs (out : List UInt8) : Moves op s i (.readLog out) (.readLength out)
  | loads (out : List UInt8) : Moves op s i (.readLength out) (.readReset s.buffLen out)

/-- The returns of the two handlers, and what is seen of them. -/
inductive Returns (s : State ι) (i : ι) : Pc → Event ι → Prop
  | wrote : Returns s i .writeReturn (.wrote i s.buffLen)
  | delivered (n : ℤ) (out : List UInt8) : Returns s i (.readReturn n out) (.delivered i n out)
  | failed (ret : ℤ) : Returns s i (.readFail ret) (.failed i ret)

/-- What a step of call `i` can do. -/
inductive Advances (op : Op) (s : State ι) (i : ι) : State ι → List (Event ι) → Prop
  | moves {pc pc' : Pc} : s.pc i = pc → Moves op s i pc pc' → Advances op s i (s.setPc i pc') []
  | returns {pc : Pc} {e : Event ι} : s.pc i = pc → Returns s i pc e →
    Advances op s i (s.setPc i .done) [e]
  | startWrite : s.pc i = .start → op.isWrite = true →
    Advances op s i ((s.setDevice ⟨{ s.toBuffer with buffLen := 0 }, s.havedata⟩).setPc i
      (.writeLoop 0)) []
  | turn (k : ℕ) : s.pc i = .writeLoop k →
    Advances op s i
      ((s.setDevice ⟨(copyTurn op.size (op.source k) s.toBuffer).1, s.havedata⟩).setPc i
        (if (copyTurn op.size (op.source k) s.toBuffer).2.1 then .writeLoop (k + 1)
          else .writePublish)) []
  | publish : s.pc i = .writePublish →
    Advances op s i ((s.setDevice ⟨s.toBuffer, true⟩).setPc i .writeWake) [.published i]
  | wake : s.pc i = .writeWake →
    Advances op s i ({ s with woken := fun _ => true }.setPc i .writeDelay) []
  | enqueue : s.pc i = .waitEnqueue →
    Advances op s i ({ s with woken := Function.update s.woken i false }.setPc i .waitTest) []
  | clear : s.pc i = .readClear →
    Advances op s i ((s.setDevice ⟨s.toBuffer, false⟩).setPc i .readCopy) [.cleared i]
  | reset (n : ℤ) (out : List UInt8) : s.pc i = .readReset n out →
    Advances op s i ((s.setDevice ⟨{ s.toBuffer with buffLen := 0 }, s.havedata⟩).setPc i
      (.readReturn n out)) []

/-- Every step of a call is one of these. -/
theorem State.advances {op : Op} {s t : State ι} {i : ι} {es : List (Event ι)}
    (h : s.advance op i = some (t, es)) : Advances op s i t es := by
  cases hpc : s.pc i <;> simp only [advance, hpc] at h
  case start =>
    split at h
    all_goals
      rename_i hop
      obtain ⟨rfl, rfl⟩ := Prod.mk.inj (Option.some.inj h)
    · exact .startWrite hpc hop
    · exact .moves hpc (.startRead (by simpa using hop))
  case readTest =>
    split_ifs at h with hdata hnonblock
    all_goals obtain ⟨rfl, rfl⟩ := Prod.mk.inj (Option.some.inj h)
    · exact .moves hpc (.found hdata)
    · exact .moves hpc (.refused (by simpa using hdata) hnonblock)
    · exact .moves hpc (.waits (by simpa using hdata) (by simpa using hnonblock))
  case waitTest =>
    split_ifs at h with hleave
    all_goals obtain ⟨rfl, rfl⟩ := Prod.mk.inj (Option.some.inj h)
    · exact .moves hpc (.leaves hleave)
    · rw [Bool.not_eq_true, Bool.or_eq_false_iff] at hleave
      exact .moves hpc (.sleeps hleave.1 hleave.2)
  case waitSleep =>
    split_ifs at h with hwoken
    obtain ⟨rfl, rfl⟩ := Prod.mk.inj (Option.some.inj h)
    exact .moves hpc (.wakes hwoken)
  case readCopy =>
    split_ifs at h with hcopied
    all_goals obtain ⟨rfl, rfl⟩ := Prod.mk.inj (Option.some.inj h)
    · exact .moves hpc (.faults hcopied)
    · exact .moves hpc (.copies (not_not.mp hcopied))
  case done => cases h
  all_goals obtain ⟨rfl, rfl⟩ := Prod.mk.inj (Option.some.inj h)
  case writeLoop k => exact .turn k hpc
  case writePublish => exact .publish hpc
  case writeWake => exact .wake hpc
  case writeDelay => exact .moves hpc .delay
  case writeReturn => exact .returns hpc .wrote
  case waitEnqueue => exact .enqueue hpc
  case readClear => exact .clear hpc
  case readLog out => exact .moves hpc (.logs out)
  case readLength out => exact .moves hpc (.loads out)
  case readReset n out => exact .reset n out hpc
  case readReturn n out => exact .returns hpc (.delivered n out)
  case readFail ret => exact .returns hpc (.failed ret)

/-- A step of a call moves only that call. -/
theorem State.advance_pc_of_ne {op : Op} {s t : State ι} {i j : ι} {es : List (Event ι)}
    (h : s.advance op i = some (t, es)) (hj : j ≠ i) : t.pc j = s.pc j := by
  have hmove : ∀ (u : State ι) (pc : Pc), u.pc = s.pc → (u.setPc i pc).pc j = s.pc j := by
    intro u pc hu
    exact (Function.update_of_ne hj pc u.pc).trans (congrFun hu j)
  cases State.advances h <;> exact hmove _ _ rfl

/-- Two calls: a write of the byte 7, and a read of one byte. -/
def writeAndRead (i : Fin 2) : Op :=
  if i.val = 0 then .write 1 fun _ => some 7 else .read 1 false fun _ => true

end LinuxDevNote.QueueWait
