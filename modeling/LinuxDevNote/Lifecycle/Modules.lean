import LinuxDevNote.Library.Scripts
import LinuxDevNote.Lifecycle.Init

/-!
# Loading and unloading the modules

The init and exit functions of the modules, as the kernel calls they make. Most init functions
do not look at the outcome of their calls, and most exit functions release what may not have been
acquired. Which modules can be loaded and unloaded whatever fails, and which as long as nothing
fails, is decided here for all of them.
-/

namespace LinuxDevNote.Lifecycle

open Execution Scripts

/-- What the modules acquire. -/
inductive Held
  | region
  | cdev
  | registration
  | deviceClass
  | node
  | sh
  | misc
  | buffer
  | reservation
  | chrdev
  | debugfsFile
  | queue
  | disk
  | addedDisk
  | platformDevice
  | addedPlatformDevice
  | platformDriver
  | bus
  | device
  | driver
  | reference
  | directory
  deriving DecidableEq

/-- The kernel calls of the init functions: those of the drivers that publish a node halfway, and
those of the other modules. `kobject_init_and_add` is the two calls it is made of. -/
inductive InitCall
  | publishing (call : KernelCall)
  | registerChrdev
  | debugfsCreateFile
  | blkInitQueue
  | allocDisk
  | addDisk
  | platformDeviceAlloc
  | platformDeviceAdd
  | platformDriverRegister
  | busRegister
  | busCreateFile
  | deviceRegister
  | deviceCreateFile
  | driverRegister
  | driverCreateFile
  | kobjectInit
  | kobjectAdd

/-- What a success acquires. -/
def InitCall.acquires : InitCall → Option Held
  | .publishing .allocChrdevRegion => some .region
  | .publishing .cdevAlloc => some .cdev
  | .publishing .cdevAdd => some .registration
  | .publishing .classCreate => some .deviceClass
  | .publishing .deviceCreate => some .node
  | .publishing .kzalloc => some .sh
  | .publishing .miscRegister => some .misc
  | .publishing .kmalloc => some .buffer
  | .publishing .setPageReserved => some .reservation
  | .publishing _ => none
  | .registerChrdev => some .chrdev
  | .debugfsCreateFile => some .debugfsFile
  | .blkInitQueue => some .queue
  | .allocDisk => some .disk
  | .addDisk => some .addedDisk
  | .platformDeviceAlloc => some .platformDevice
  | .platformDeviceAdd => some .addedPlatformDevice
  | .platformDriverRegister => some .platformDriver
  | .busRegister => some .bus
  | .deviceRegister => some .device
  | .driverRegister => some .driver
  | .kobjectInit => some .reference
  | .kobjectAdd => some .directory
  | .busCreateFile | .deviceCreateFile | .driverCreateFile => none

/-- What a call dereferences: a file is created in the directory that the registration of its
driver or device has made. -/
def InitCall.needs : InitCall → Option Held
  | .publishing .cdevInit | .publishing .cdevAdd => some .cdev
  | .publishing .setPageReserved | .publishing .storeBuffer => some .buffer
  | .addDisk => some .disk
  | .deviceCreateFile => some .device
  | .driverCreateFile => some .driver
  | _ => none

/-- What a call checks for: a class that is not an error, a device that is not `NULL`. -/
def InitCall.wants : InitCall → Option Held
  | .publishing .deviceCreate => some .deviceClass
  | .platformDeviceAdd => some .platformDevice
  | _ => none

/-- Whether a call can fail. -/
def InitCall.canFail : InitCall → Bool
  | .publishing call => call.canFail
  | .addDisk | .kobjectInit => false
  | _ => true

/-- A statement of an init function. -/
def InitCall.statement (call : InitCall) (onFailure : Scripts.OnFailure Held) : Statement Held where
  needs := call.needs
  wants := call.wants
  acquires := call.acquires
  onFailure := if call.canFail then some onFailure else none

/-- A statement of a driver that publishes a node halfway. Where such a driver returns at once it
releases nothing: `kfree(sh)` has no `sh` to free. -/
def InitStmt.statement (stmt : InitStmt) : Statement Held :=
  InitCall.statement (.publishing stmt.call) <|
    match stmt.onFailure with
    | .ignored => .ignored
    | .kept => .kept
    | .returned => .returned []

/-- A release that must find what it releases. -/
def strict (held : Held) : Release Held := ⟨held, false⟩

/-- A release that checks whether there is anything to release. -/
def checked (held : Held) : Release Held := ⟨held, true⟩

/-- The modules, by their files. -/
inductive ModuleFile
  | charDrv
  | miscDrv
  | fileOperateDrv
  | kernalSignalDrv
  | unuseMutexDrv
  | useMutexDrv
  | semaphoreDrv
  | queueWaitDev
  | bus
  | busDevice
  | busDriver
  | kobject
  | platformDevice
  | platformDriver
  | kernalSignal
  | mmapDrv
  | blockDevice
  deriving DecidableEq

/-- The calls of the init function. -/
def ModuleFile.init : ModuleFile → List (Statement Held)
  | .charDrv =>
    [.allocChrdevRegion, .cdevAlloc, .cdevInit, .cdevAdd, .classCreate, .deviceCreate].map
      fun call => InitCall.statement (.publishing call) .ignored
  | .miscDrv => [InitCall.statement (.publishing .miscRegister) .kept]
  | .fileOperateDrv => [InitCall.registerChrdev.statement (.returned [])]
  | .kernalSignalDrv | .kernalSignal => [InitCall.debugfsCreateFile.statement .ignored]
  | .unuseMutexDrv | .useMutexDrv => Module.mutexDrv.init.map InitStmt.statement
  | .semaphoreDrv => Module.semaphoreDrv.init.map InitStmt.statement
  | .queueWaitDev => Module.queueWaitDev.init.map InitStmt.statement
  | .mmapDrv => Module.mmapDrv.init.map InitStmt.statement
  | .bus =>
    [InitCall.busRegister.statement (.returned []), InitCall.busCreateFile.statement .ignored,
      InitCall.deviceRegister.statement .kept]
  | .busDevice =>
    [InitCall.deviceRegister.statement .ignored, InitCall.deviceCreateFile.statement .ignored]
  | .busDriver =>
    [InitCall.driverRegister.statement .ignored, InitCall.driverCreateFile.statement .ignored]
  | .kobject => [InitCall.kobjectInit.statement .ignored, InitCall.kobjectAdd.statement .ignored]
  | .platformDevice =>
    [InitCall.platformDeviceAlloc.statement .ignored,
      InitCall.platformDeviceAdd.statement (.returned [checked .platformDevice])]
  | .platformDriver => [InitCall.platformDriverRegister.statement .kept]
  | .blockDevice =>
    [InitCall.blkInitQueue.statement (.returned []),
      InitCall.allocDisk.statement (.returned [strict .queue]),
      InitCall.addDisk.statement .ignored]

/-- The releases of the exit function. `cdev_del` ends the registration only: `cdev_init` has made
the cdev of `cdev_alloc` one that is not freed with its last reference. `platform_device_unregister`
also gives the platform device back, and `kobject_del` removes the directory but keeps the
reference. -/
def ModuleFile.exit : ModuleFile → List (Release Held)
  | .charDrv | .unuseMutexDrv | .useMutexDrv | .semaphoreDrv =>
    [strict .registration, strict .region, strict .node, strict .deviceClass]
  | .miscDrv | .queueWaitDev => [strict .misc]
  | .fileOperateDrv => [strict .chrdev]
  | .kernalSignalDrv | .kernalSignal => [checked .debugfsFile]
  | .mmapDrv => [strict .misc, strict .reservation, checked .buffer]
  | .bus => [strict .device, strict .bus]
  | .busDevice => [strict .device]
  | .busDriver => [strict .driver]
  | .kobject => [strict .directory]
  | .platformDevice => [strict .addedPlatformDevice, strict .platformDevice]
  | .platformDriver => [strict .platformDriver]
  | .blockDevice => [strict .addedDisk, strict .disk, strict .queue]

/-- The module as a script. -/
def ModuleFile.script (m : ModuleFile) : Script Held := ⟨m.init, m.exit⟩

/-- **What survives failures.** The modules of which every sequence of loads and unloads is clean,
whatever calls fail: nothing crashes, nothing is released that is not held, and nothing is held
while the module is not loaded. -/
theorem clean_whatever_fails_iff (m : ModuleFile) :
    (∀ as s trace, exec m.script.step .unloaded as = some (s, trace) → Clean trace) ↔
      m ∈ [.miscDrv, .fileOperateDrv, .kernalSignalDrv, .queueWaitDev, .platformDevice,
        .platformDriver, .kernalSignal, .blockDevice] := by
  rw [clean_iff_forall_paths]
  cases m <;> decide +kernel

/-- What a load and an unload in which nothing fails leave held. -/
def ModuleFile.kept : ModuleFile → List Held
  | .charDrv | .semaphoreDrv => [.cdev]
  | .unuseMutexDrv | .useMutexDrv => [.sh, .cdev]
  | .kobject => [.reference]
  | _ => []

/-- What is kept is what is still held after the unload. -/
theorem heldAfter_eq_kept {m : ModuleFile} {way : ℕ} {p : Path Held} {s : Phase Held}
    {trace : List (Event Held)} (hway : m.script.paths[way]? = some p)
    (hfaultless : p.faultless = true)
    (hexec : exec m.script.step .unloaded [.load way, .unload] = some (s, trace)) :
    heldAfter [] (actions trace) = some m.kept := by
  have hall : ∀ p ∈ m.script.paths, p.faultless = true →
      (p.whole m.script).bind (heldAfter []) = some m.kept := by
    cases m <;> decide +kernel
  rw [heldAfter_load_unload hway hexec, hall p (List.mem_of_getElem? hway) hfaultless]

/-- **What is clean while nothing fails.** Every sequence of loads in which no call fails, and of
unloads, is clean for all modules but five: the four that allocate a cdev keep it, the two mutex
drivers keep `sh` too, and `kobject.c` keeps its reference. -/
theorem clean_while_nothing_fails_iff (m : ModuleFile) :
    (∀ as s trace, Meets m.script.step (m.script.Admits fun p => p.faultless = true) .unloaded as →
        exec m.script.step .unloaded as = some (s, trace) → Clean trace) ↔
      m ∉ [.charDrv, .unuseMutexDrv, .useMutexDrv, .semaphoreDrv, .kobject] := by
  rw [clean_iff]
  cases m <;> decide +kernel

end LinuxDevNote.Lifecycle
