import Mathlib.Data.List.Perm.Basic
import LinuxDevNote.Kernel.Machine
import LinuxDevNote.Library.CString
import LinuxDevNote.Library.Execution

/-!
# A driver on a bus of its own

`bus.c` defines a bus whose `my_match` compares the name of a device with that of a
driver, and `driver.c` a driver that registers the misc device `misc_321` when a
device is bound to it, and deregisters it when one is unbound. The driver core is
modelled by what it does with the two callbacks; the order in which it goes through
several devices is left open, and so is whether `misc_register` finds a free minor.
-/

namespace LinuxDevNote.Bus

open Kernel CString Execution

/-- The name of `my_driver`: `"my_dev"`. -/
def driverName : List UInt8 := [109, 121, 95, 100, 101, 118]

/-- `my_match`, with its closing brace. -/
def myMatch (devName : List UInt8) : Bool := strncmp devName driverName driverName.length == 0

/-- The bus with its devices and the driver. -/
structure State (ι : Type*) where
  /-- The devices registered on the bus. -/
  devices : List ι
  /-- Whether `my_driver` is registered. -/
  driver : Bool
  /-- The devices bound to `my_driver`. -/
  bound : List ι
  /-- Whether `misc_321` is registered. -/
  misc : Bool
  deriving DecidableEq

/-- An empty bus. -/
def State.init {ι : Type*} : State ι := ⟨[], false, [], false⟩

/-- What can be seen after a callback of the driver. -/
structure Moment (ι : Type*) where
  /-- The devices bound. -/
  bound : List ι
  /-- Whether `misc_321` is registered. -/
  misc : Bool
  /-- Whether `misc_321` was registered wherever the callback deregistered it. -/
  clean : Bool
  deriving DecidableEq

variable {ι : Type*}

/-- `misc_register(&misc_321)`: it fails when the device is registered already, or no
minor is free. -/
def miscRegister (s : State ι) (free : Bool) : State ι × ℤ :=
  if s.misc then (s, -EBUSY)
  else if free then ({ s with misc := true }, 0)
  else (s, -EBUSY)

/-- `misc_deregister(&misc_321)`, and whether the device was registered. -/
def miscDeregister (s : State ι) : State ι × Bool := ({ s with misc := false }, s.misc)

/-- `my_probe`: the result of `misc_register` is printed and dropped. -/
def myProbe (s : State ι) (free : Bool) : State ι × ℤ := ((miscRegister s free).1, 0)

/-- `my_remove`. -/
def myRemove (s : State ι) : State ι × Bool := miscDeregister s

/-- The core probes a device, and binds it if the probe returns 0. -/
def State.bind (s : State ι) (d : ι) (free : Bool) : State ι × List (Moment ι) :=
  let probed := myProbe s free
  let bound := if probed.2 = 0 then s.bound ++ [d] else s.bound
  ({ probed.1 with bound := bound }, [⟨bound, probed.1.misc, true⟩])

/-- The core probes some devices one after another. -/
def State.bindAll (s : State ι) : List (ι × Bool) → State ι × List (Moment ι)
  | [] => (s, [])
  | (d, free) :: probes =>
    let first := s.bind d free
    let rest := first.1.bindAll probes
    (rest.1, first.2 ++ rest.2)

variable [DecidableEq ι]

/-- The core unbinds a device, after the driver has removed it. -/
def State.unbind (s : State ι) (d : ι) : State ι × List (Moment ι) :=
  let removed := myRemove s
  let bound := s.bound.erase d
  ({ removed.1 with bound := bound }, [⟨bound, removed.1.misc, removed.2⟩])

/-- The core unbinds some devices one after another. -/
def State.unbindAll (s : State ι) : List ι → State ι × List (Moment ι)
  | [] => (s, [])
  | d :: order =>
    let first := s.unbind d
    let rest := first.1.unbindAll order
    (rest.1, first.2 ++ rest.2)

/-- A registration or unregistration. Where devices are probed, each comes with
whether a minor is free then. -/
inductive Label (ι : Type*)
  | registerDevice (d : ι) (free : Bool)
  | unregisterDevice (d : ι)
  | registerDriver (probes : List (ι × Bool))
  | unregisterDriver (order : List ι)

/-- The devices on the bus that `my_match` accepts, when the devices have the names
`names`. -/
def State.matching (names : ι → List UInt8) (s : State ι) : List ι :=
  s.devices.filter fun d => myMatch (names d)

/-- One registration or unregistration, with what can be seen after each callback. A
device is registered once at a time, and so is the driver. -/
def State.step (names : ι → List UInt8) (s : State ι) :
    Label ι → Option (State ι × List (Moment ι))
  | .registerDevice d free =>
    if d ∈ s.devices then none
    else if s.driver = true ∧ myMatch (names d) = true then
      some ({ s with devices := s.devices ++ [d] }.bind d free)
    else some ({ s with devices := s.devices ++ [d] }, [])
  | .unregisterDevice d =>
    if d ∈ s.devices then
      let unbound := if d ∈ s.bound then s.unbind d else (s, [])
      some ({ unbound.1 with devices := s.devices.erase d }, unbound.2)
    else none
  | .registerDriver probes =>
    if s.driver = false ∧ (probes.map Prod.fst).Perm (s.matching names) then
      some ({ s with driver := true }.bindAll probes)
    else none
  | .unregisterDriver order =>
    if s.driver = true ∧ order.Perm s.bound then
      let unbound := s.unbindAll order
      some ({ unbound.1 with driver := false }, unbound.2)
    else none

omit [DecidableEq ι] in
/-- A probe binds the device, and registers `misc_321` if a minor is free. -/
theorem State.bind_eq (s : State ι) (d : ι) (free : Bool) :
    s.bind d free = ({ s with bound := s.bound ++ [d], misc := s.misc || free },
      [⟨s.bound ++ [d], s.misc || free, true⟩]) := by
  cases hmisc : s.misc <;> cases free <;> simp [bind, myProbe, miscRegister, hmisc]

omit [DecidableEq ι] in
/-- A probe keeps the driver. -/
@[simp] theorem State.bind_driver (s : State ι) (d : ι) (free : Bool) :
    (s.bind d free).1.driver = s.driver := by
  rw [bind_eq]

omit [DecidableEq ι] in
/-- A probe binds the device. -/
@[simp] theorem State.bind_bound (s : State ι) (d : ι) (free : Bool) :
    (s.bind d free).1.bound = s.bound ++ [d] := by
  rw [bind_eq]

/-- A device matches when its name starts with that of the driver. -/
theorem myMatch_iff (devName : List UInt8) : myMatch devName = true ↔ driverName <+: devName := by
  rw [myMatch, beq_iff_eq]
  exact strncmp_eq_zero_iff (by decide)

end LinuxDevNote.Bus
