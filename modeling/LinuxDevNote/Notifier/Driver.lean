import Mathlib.Logic.Function.Basic
import LinuxDevNote.Library.Execution

/-!
# The notifier module and its timer

`notifier.c` arms a timer whose handler walks a notifier chain and arms the timer
again. The module advances by the statements of `myNotifier_init` and then, at any
later time, of `myNotifier_exit`; the handler advances by its own statements on any
processor on which the timer expires.
-/

namespace LinuxDevNote.Notifier

open Execution

/-- The three notifier blocks. -/
inductive Block
  | notifier1
  | notifier2
  | notifier3
  deriving DecidableEq

/-- The statements of the init and the exit function. -/
inductive Stmt
  | register (b : Block)
  | initTimer
  | addTimer
  | initReturn
  | delTimer
  | unregister (b : Block)
  | exitReturn
  deriving DecidableEq

/-- `myNotifier_init`. -/
def myNotifierInit : List Stmt :=
  [.register .notifier1, .register .notifier2, .register .notifier3, .initTimer, .addTimer,
    .initReturn]

/-- `myNotifier_exit`. -/
def myNotifierExit : List Stmt :=
  [.delTimer, .unregister .notifier1, .unregister .notifier2, .unregister .notifier3, .exitReturn]

/-- The statement `notifier_function` executes next. -/
inductive HandlerPc
  | idle
  | callChain
  | modTimer
  | countUp
  | ret
  deriving DecidableEq

/-- The handler has still to arm the timer again. -/
def HandlerPc.willArm : HandlerPc → Bool
  | .callChain | .modTimer => true
  | _ => false

/-- `NOTIFY_STOP_MASK`. -/
def notifyStopMask : BitVec 32 := 0x8000

/-- `raw_notifier_call_chain`: the blocks that are called, up to the first whose
callback yields a value with the stop bit. -/
def callChain (yields : Block → BitVec 32) : List Block → List Block
  | [] => []
  | b :: chain => if yields b &&& notifyStopMask = 0 then b :: callChain yields chain else [b]

/-- The module, its timer and the processors. -/
structure State (ι : Type*) where
  /-- The statements the module has still to execute. -/
  rest : List Stmt
  /-- `myNotifier`, in the order of registration. -/
  chain : List Block
  /-- Whether the timer is pending. -/
  pending : Bool
  /-- `count`. -/
  count : BitVec 64
  /-- The callbacks called so far, each with its event. -/
  called : List (Block × BitVec 64)
  /-- The handler on each processor. -/
  handler : ι → HandlerPc

/-- The module before it is loaded. -/
def State.init (ι : Type*) : State ι :=
  ⟨myNotifierInit ++ myNotifierExit, [], false, 0, [], fun _ => .idle⟩

/-- A scheduling decision: the module takes a step, the timer expires on a
processor, or the handler there takes a step, with the values that the callbacks
yield. -/
inductive Label (ι : Type*)
  | module
  | expire (i : ι)
  | handler (i : ι) (yields : Block → BitVec 32)

variable {ι : Type*}

/-- One statement of the module. -/
def State.execute (s : State ι) : Stmt → State ι
  | .register b => { s with chain := s.chain ++ [b] }
  | .initTimer => { s with pending := false }
  | .addTimer => { s with pending := true }
  | .initReturn => s
  -- a handler that is running is not waited for
  | .delTimer => { s with pending := false }
  | .unregister b => { s with chain := s.chain.erase b }
  | .exitReturn => s

variable [DecidableEq ι]

/-- Move the handler on one processor. -/
def State.setHandler (s : State ι) (i : ι) (pc : HandlerPc) : State ι :=
  { s with handler := Function.update s.handler i pc }

/-- The handler that moves. -/
@[simp] theorem State.setHandler_self (s : State ι) (i : ι) (pc : HandlerPc) :
    (s.setHandler i pc).handler i = pc :=
  Function.update_self _ _ _

/-- The other handlers stay where they are. -/
@[simp] theorem State.setHandler_of_ne (s : State ι) {i j : ι} (h : j ≠ i) (pc : HandlerPc) :
    (s.setHandler i pc).handler j = s.handler j :=
  Function.update_of_ne h _ _

/-- One statement of `notifier_function` on processor `i`. -/
def State.advance (s : State ι) (i : ι) (yields : Block → BitVec 32) : Option (State ι) :=
  match s.handler i with
  | .idle => none
  | .callChain =>
    some ({ s with
      called := s.called ++ (callChain yields s.chain).map fun b => (b, s.count) }.setHandler i
        .modTimer)
  | .modTimer => some ({ s with pending := true }.setHandler i .countUp)
  | .countUp => some ({ s with count := s.count + 1 }.setHandler i .ret)
  | .ret => some (s.setHandler i .idle)

/-- The state after a step. -/
def State.next (s : State ι) : Label ι → Option (State ι)
  | .module =>
    match s.rest with
    | [] => none
    | stmt :: rest => some { s.execute stmt with rest := rest }
  | .expire i =>
    if s.pending = true ∧ s.handler i = .idle then
      some ({ s with pending := false }.setHandler i .callChain)
    else none
  | .handler i yields => s.advance i yields

/-- One step; the event is the state it leads to. -/
def State.step (s : State ι) (a : Label ι) : Option (State ι × List (State ι)) :=
  (s.next a).map fun t => (t, [t])

end LinuxDevNote.Notifier
