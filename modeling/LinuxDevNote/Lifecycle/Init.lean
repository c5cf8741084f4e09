import Mathlib.Logic.Function.Basic
import LinuxDevNote.Library.Execution

/-!
# Loading a driver while clients call it

Four drivers publish their node in the middle of their init function: from the
moment `cdev_add` or `misc_register` has succeeded, a client may open the node and
have a handler called. This file embeds the four init functions as the kernel
calls they make, each with any outcome it can have, and the handlers as the
objects their statements use, and lets any number of clients run beside the init
function.
-/

namespace LinuxDevNote.Lifecycle

open Execution

/-- The objects that the init functions allocate or initialise. -/
inductive Obj
  | mydrv
  | sh
  | shareMutex
  | sem
  | queueRw
  | buffer
  deriving DecidableEq

/-- The kernel calls of the init functions, and the stores `buffer[i] = i`. -/
inductive KernelCall
  | allocChrdevRegion
  | cdevAlloc
  | cdevInit
  | cdevAdd
  | classCreate
  | deviceCreate
  | kzalloc
  | mutexInit
  | semaInit
  | miscRegister
  | initWaitqueueHead
  | kmalloc
  | setPageReserved
  | storeBuffer
  deriving DecidableEq

/-- The object that is allocated or initialised once the call has succeeded. -/
def KernelCall.provides : KernelCall → Option Obj
  | .cdevAlloc => some .mydrv
  | .kzalloc => some .sh
  | .mutexInit => some .shareMutex
  | .semaInit => some .sem
  | .initWaitqueueHead => some .queueRw
  | .kmalloc => some .buffer
  | _ => none

/-- Whether a success publishes the node. -/
def KernelCall.publishes : KernelCall → Bool
  | .cdevAdd | .miscRegister => true
  | _ => false

/-- The object a call dereferences; without it the init function crashes. -/
def KernelCall.needs : KernelCall → Option Obj
  | .cdevInit | .cdevAdd => some .mydrv
  | .setPageReserved | .storeBuffer => some .buffer
  | _ => none

/-- Whether a call can fail. -/
def KernelCall.canFail : KernelCall → Bool
  | .cdevInit | .mutexInit | .semaInit | .initWaitqueueHead | .setPageReserved
  | .storeBuffer => false
  | _ => true

/-- What the init function does when a call fails: it does not look at the outcome,
keeps it as its own return value, or returns at once with an error. -/
inductive OnFailure
  | ignored
  | kept
  | returned
  deriving DecidableEq

/-- A statement of an init function. -/
structure InitStmt where
  /-- The call it makes. -/
  call : KernelCall
  /-- What a failure leads to. -/
  onFailure : OnFailure
  deriving DecidableEq

/-- The four drivers. -/
inductive Module
  | mutexDrv
  | semaphoreDrv
  | queueWaitDev
  | mmapDrv
  deriving DecidableEq

/-- The statements of `mod_init`, `example_init` and `dev_init`. -/
def Module.init : Module → List InitStmt
  | .mutexDrv =>
    [⟨.allocChrdevRegion, .ignored⟩, ⟨.cdevAlloc, .ignored⟩, ⟨.cdevInit, .ignored⟩,
      ⟨.cdevAdd, .ignored⟩, ⟨.classCreate, .ignored⟩, ⟨.deviceCreate, .ignored⟩,
      ⟨.kzalloc, .returned⟩, ⟨.mutexInit, .ignored⟩]
  | .semaphoreDrv =>
    [⟨.allocChrdevRegion, .ignored⟩, ⟨.cdevAlloc, .ignored⟩, ⟨.cdevInit, .ignored⟩,
      ⟨.cdevAdd, .ignored⟩, ⟨.classCreate, .ignored⟩, ⟨.deviceCreate, .ignored⟩,
      ⟨.semaInit, .ignored⟩]
  | .queueWaitDev => [⟨.miscRegister, .returned⟩, ⟨.initWaitqueueHead, .ignored⟩]
  | .mmapDrv =>
    [⟨.miscRegister, .kept⟩, ⟨.kmalloc, .ignored⟩, ⟨.setPageReserved, .ignored⟩,
      ⟨.storeBuffer, .ignored⟩]

/-- A request of a client, with the path it takes: a call at or past the end of the
device, a read or write with the number of turns of its loop, or a mapping. -/
inductive Request
  | atEnd
  | read (turns : ℕ)
  | write (turns : ℕ)
  | mmap

/-- The objects that the statements of a handler use, in order; `none` where the
driver has no such handler. -/
def Module.handler : Module → Request → Option (List Obj)
  | .mutexDrv, .atEnd => some []
  | .mutexDrv, .read _ => some [.shareMutex, .sh, .shareMutex]
  | .mutexDrv, .write turns =>
    some (.shareMutex :: (List.replicate turns .sh ++ [.shareMutex]))
  -- `down` or `up`, and the log of `sem.count`
  | .semaphoreDrv, .read _ => some [.sem, .sem]
  | .semaphoreDrv, .write _ => some [.sem, .sem]
  -- one `wait_event_interruptible` for each turn of `while(!havedata)`
  | .queueWaitDev, .read turns => some (List.replicate turns .queueRw)
  | .queueWaitDev, .write _ => some [.queueRw]
  | .mmapDrv, .mmap => some [.buffer]
  | _, _ => none

/-- Where the init function stands. -/
inductive InitPc
  | running (n : ℕ) (err : Bool)
  | returned (err : Bool)
  | crashed
  deriving DecidableEq

/-- A driver that is being loaded or is loaded, with its clients. -/
structure State (κ : Type*) where
  /-- The init function. -/
  init : InitPc
  /-- The calls of the init function that have succeeded. -/
  succeeded : List KernelCall
  /-- Whether the node can be opened. -/
  published : Bool
  /-- The objects that were allocated and initialised. -/
  ready : Obj → Bool
  /-- The uses of objects that each client's request has still to make. -/
  clients : κ → List Obj

/-- The start of the init function. -/
def State.init0 (κ : Type*) : State κ := ⟨.running 0 false, [], false, fun _ => false, fun _ => []⟩

/-- A scheduling decision: the next statement of the init function with its
outcome, the removal of the node, a new request, or the next use by a request. -/
inductive Label (κ : Type*)
  | init (success : Bool)
  | unregister
  | request (i : κ) (r : Request)
  | advance (i : κ)

/-- A handler statement that uses an object, and whether the object was ready. -/
structure Use (κ : Type*) where
  /-- The client. -/
  client : κ
  /-- The object. -/
  obj : Obj
  /-- Whether it had been allocated and initialised. -/
  ready : Bool

variable {κ : Type*}

/-- The effect of a successful kernel call. -/
def State.succeed (s : State κ) (c : KernelCall) : State κ :=
  { s with
    succeeded := s.succeeded ++ [c]
    published := s.published || c.publishes
    ready := fun o => s.ready o || c.provides == some o }

/-- Whether a call meets the object it dereferences. -/
def State.meetsNeeds (s : State κ) (c : KernelCall) : Bool :=
  match c.needs with
  | none => true
  | some o => s.ready o

/-- One statement of the init function. -/
def State.runInit (m : Module) (s : State κ) (success : Bool) : Option (State κ) :=
  match s.init with
  | .running n err =>
    match m.init[n]? with
    | none => some { s with init := .returned err }
    | some stmt =>
      if s.meetsNeeds stmt.call then
        if success || !stmt.call.canFail then
          some { s.succeed stmt.call with init := .running (n + 1) err }
        else
          match stmt.onFailure with
          | .ignored => some { s with init := .running (n + 1) err }
          | .kept => some { s with init := .running (n + 1) true }
          | .returned => some { s with init := .returned true }
      else some { s with init := .crashed }
  | _ => none

/-- One step of the driver with its clients. The node is removed by the exit
function, which runs only after an init that returned 0. -/
def State.step [DecidableEq κ] (m : Module) (s : State κ) :
    Label κ → Option (State κ × List (Use κ))
  | .init success => (s.runInit m success).map fun t => (t, [])
  | .unregister =>
    if s.init = .returned false then some ({ s with published := false }, []) else none
  | .request i r =>
    if s.published = true ∧ s.clients i = [] then
      (m.handler r).map fun uses => ({ s with clients := Function.update s.clients i uses }, [])
    else none
  | .advance i =>
    match s.clients i with
    | [] => none
    | o :: rest =>
      some ({ s with clients := Function.update s.clients i rest }, [⟨i, o, s.ready o⟩])

end LinuxDevNote.Lifecycle
