import LinuxDevNote.Library.Resources
import LinuxDevNote.Lifecycle.Publish

/-!
# Loading and unloading the mutex driver

`mod_init` acquires a device number region, a cdev, its registration, a class, a
device node and the buffer `sh`. Its error exit releases none of them, and `mod_exit`
releases all of them but the cdev and `sh`. So at every moment at which the module is not
loaded any more, something that a load has acquired is still held.
-/

namespace LinuxDevNote.Lifecycle

open Execution Resources

/-- What a load of the mutex driver acquires. -/
inductive Resource
  | region
  | cdev
  | registration
  | deviceClass
  | node
  | sh
  deriving DecidableEq

/-- The resource that a successful call acquires. -/
def KernelCall.acquires : KernelCall → Option Resource
  | .allocChrdevRegion => some .region
  | .cdevAlloc => some .cdev
  | .cdevAdd => some .registration
  | .classCreate => some .deviceClass
  | .deviceCreate => some .node
  | .kzalloc => some .sh
  | _ => none

/-- What `mod_exit` releases. `cdev_del` ends the registration only: after `cdev_init` the
cdev is not freed with its last reference. -/
def modExit : List Resource := [.registration, .region, .node, .deviceClass]

/-- A resource of one load. -/
structure Handle where
  /-- The loads that had ended before it. -/
  load : ℕ
  /-- What was acquired. -/
  resource : Resource
  deriving DecidableEq

/-- A command to the module: load it, let the running `mod_init` do its next statement
with its outcome, or unload it. -/
inductive Command
  | load
  | init (success : Bool)
  | unload
  deriving DecidableEq

/-- What is seen: an acquisition or a release, and the module being gone after
`mod_exit` or after an error of `mod_init`. -/
inductive Event
  | action (a : Action Handle)
  | notLoaded
  deriving DecidableEq

/-- The module between its loads and unloads. -/
structure Loader where
  /-- How many loads have ended. -/
  ended : ℕ
  /-- The driver, while it is being loaded or is loaded. -/
  driver : Option (State Empty)

/-- Nothing was loaded yet. -/
def Loader.start : Loader := ⟨0, none⟩

/-- The acquisitions of the calls that have succeeded. -/
def acquisitions (load : ℕ) (calls : List KernelCall) : List Event :=
  (calls.filterMap KernelCall.acquires).map fun r => .action (.acquire ⟨load, r⟩)

/-- The releases of `mod_exit`. -/
def releases (load : ℕ) : List Event := modExit.map fun r => .action (.release ⟨load, r⟩)

/-- One command. An error of `mod_init` calls only `kfree(NULL)`, which releases nothing,
and `mod_exit` runs only after a `mod_init` that returned 0. -/
def Loader.step (l : Loader) : Command → Option (Loader × List Event)
  | .load =>
    match l.driver with
    | none => some ({ l with driver := some (State.init0 Empty) }, [])
    | some _ => none
  | .init success =>
    match l.driver with
    | none => none
    | some d =>
      (d.runInit .mutexDrv success).map fun t =>
        let es := acquisitions l.ended (t.succeeded.drop d.succeeded.length)
        if t.init = .returned true then (⟨l.ended + 1, none⟩, es ++ [.notLoaded])
        else ({ l with driver := some t }, es)
  | .unload =>
    match l.driver with
    | none => none
    | some d =>
      if d.init = .returned false then
        some (⟨l.ended + 1, none⟩, releases l.ended ++ [.notLoaded])
      else none

/-- The call that `mod_init` makes next. -/
def State.nextCall (d : State Empty) : Option KernelCall :=
  match d.init with
  | .running n _ => Module.mutexDrv.init[n]?.map InitStmt.call
  | _ => none

/-- The module stays where it is: it is not unloaded, and its `kzalloc` does not fail. -/
def Loader.Stays (l : Loader) : Command → Prop
  | .load => True
  | .init success => l.driver.bind State.nextCall = some .kzalloc → success = true
  | .unload => False

instance (l : Loader) : ∀ c, Decidable (l.Stays c)
  | .load => isTrue trivial
  | .init success =>
    inferInstanceAs (Decidable (l.driver.bind State.nextCall = some .kzalloc → success = true))
  | .unload => isFalse id

/-- The acquisitions and releases of a trace. -/
def actions (trace : List Event) : List (Action Handle) :=
  trace.filterMap fun
    | .action a => some a
    | .notLoaded => none

/-- Loads and unloads balance: nothing is released that is not held, and whenever the
module is not loaded nothing is held. -/
structure Balanced (trace : List Event) : Prop where
  /-- Only what is held is released. -/
  sound : Sound (actions trace)
  /-- Nothing is left when the module is gone. -/
  settled : Justified (fun before e => e = .notLoaded → Settled (actions before)) trace

variable {l l' : Loader} {d t : State Empty} {trace es : List Event} {h : Handle} {k : ℕ}
  {calls : List KernelCall} {success : Bool}

/-- The actions of two parts of a trace. -/
@[simp] theorem actions_append : actions (trace ++ es) = actions trace ++ actions es :=
  List.filterMap_append

/-- That the module is gone is no action. -/
@[simp] theorem actions_notLoaded : actions [.notLoaded] = [] := rfl

/-- Acquisitions release nothing. -/
@[simp] theorem released_acquisitions : released h (actions (acquisitions k calls)) = 0 := by
  simp [released, actions, acquisitions, List.count_eq_zero, List.filterMap_map]

/-- A successful call acquires its resource. -/
theorem acquired_acquisitions {c : KernelCall} {r : Resource} (hc : c ∈ calls)
    (hr : c.acquires = some r) : 0 < acquired ⟨k, r⟩ (actions (acquisitions k calls)) := by
  rw [acquired, List.count_pos_iff]
  simp only [actions, acquisitions, List.mem_filterMap, List.mem_map]
  exact ⟨_, ⟨r, ⟨c, hc, hr⟩, rfl⟩, rfl⟩

/-- `mod_exit` releases nothing of another load, and never `sh`. -/
theorem released_releases (hne : h.load ≠ k ∨ h.resource = .sh) :
    released h (actions (releases k)) = 0 := by
  rw [released, List.count_eq_zero]
  simp only [actions, releases, List.mem_filterMap, List.mem_map]
  rintro ⟨_, ⟨r, hr, rfl⟩, heq⟩
  obtain rfl := Action.release.inj (Option.some.inj heq)
  rcases hne with hne | rfl
  · exact hne rfl
  · exact absurd hr (by decide)

/-- What one command can do: start `mod_init`, run a statement of it, after which the
module is still there or is gone, or run `mod_exit`. -/
theorem Loader.step_cases {c : Command} (hstep : l.step c = some (l', es)) :
    (c = .load ∧ l.driver = none ∧ l' = { l with driver := some (State.init0 Empty) } ∧
        es = []) ∨
      (∃ success d t, c = .init success ∧ l.driver = some d ∧
        d.runInit .mutexDrv success = some t ∧
        (t.init ≠ .returned true ∧ l' = { l with driver := some t } ∧
            es = acquisitions l.ended (t.succeeded.drop d.succeeded.length) ∨
          t.init = .returned true ∧ l' = ⟨l.ended + 1, none⟩ ∧
            es = acquisitions l.ended (t.succeeded.drop d.succeeded.length) ++ [.notLoaded])) ∨
      ∃ d, c = .unload ∧ l.driver = some d ∧ d.init = .returned false ∧
        l' = ⟨l.ended + 1, none⟩ ∧ es = releases l.ended ++ [.notLoaded] := by
  cases c with
  | load =>
    simp only [Loader.step] at hstep
    split at hstep
    · rename_i hnone
      obtain ⟨rfl, rfl⟩ := Prod.mk.inj (Option.some.inj hstep)
      exact Or.inl ⟨rfl, hnone, rfl, rfl⟩
    · cases hstep
  | init success =>
    simp only [Loader.step] at hstep
    split at hstep
    · cases hstep
    · rename_i d hd
      obtain ⟨t, ht, heq⟩ := Option.map_eq_some_iff.mp hstep
      refine Or.inr (Or.inl ⟨success, d, t, rfl, hd, ht, ?_⟩)
      split at heq
      · rename_i hret
        obtain ⟨rfl, rfl⟩ := Prod.mk.inj heq
        exact Or.inr ⟨hret, rfl, rfl⟩
      · rename_i hret
        obtain ⟨rfl, rfl⟩ := Prod.mk.inj heq
        exact Or.inl ⟨hret, rfl, rfl⟩
  | unload =>
    simp only [Loader.step] at hstep
    split at hstep
    · cases hstep
    · rename_i d hd
      split at hstep
      · rename_i hret
        obtain ⟨rfl, rfl⟩ := Prod.mk.inj (Option.some.inj hstep)
        exact Or.inr (Or.inr ⟨d, rfl, hd, hret, rfl, rfl⟩)
      · cases hstep

/-- What is known of the mutex driver while it is there. -/
structure Driven (d : State Empty) : Prop where
  /-- The facts about its init function. -/
  inv : Inv .mutexDrv d
  /-- `mod_init` keeps no failure for its return value. -/
  clean : ∀ n err, d.init = .running n err → err = false
  /-- `cdev_init` crashes without a cdev. -/
  cdev : .cdevInit ∈ d.succeeded → .cdevAlloc ∈ d.succeeded
  /-- `mod_init` comes to an end only with a cdev. -/
  returned : ∀ err, d.init = .returned err → .cdevAlloc ∈ d.succeeded
  /-- It returns 0 only with the buffer. -/
  loaded : d.init = .returned false → .kzalloc ∈ d.succeeded

/-- The start of `mod_init`. -/
theorem driven_init0 : Driven (State.init0 Empty) where
  inv := inv_init0 .mutexDrv
  clean n err hinit := (InitPc.running.inj hinit).2.symm
  cdev hinit := by cases hinit
  returned err hret := by cases hret
  loaded hret := by cases hret

/-- Of the calls of `mod_init` only `kzalloc` is looked at, the seventh, and its failure
is returned. -/
theorem mutexDrv_stmt {n : ℕ} {stmt : InitStmt} (hstmt : Module.mutexDrv.init[n]? = some stmt) :
    stmt.onFailure ≠ .kept ∧ (stmt.onFailure = .returned ↔ stmt.call = .kzalloc) ∧
      (stmt.call = .kzalloc → n = 6) := by
  have hall : ∀ n : Fin 8, (Module.mutexDrv.init.get n).onFailure ≠ .kept ∧
      ((Module.mutexDrv.init.get n).onFailure = .returned ↔
        (Module.mutexDrv.init.get n).call = .kzalloc) ∧
      ((Module.mutexDrv.init.get n).call = .kzalloc → n.val = 6) := by
    decide
  obtain ⟨hn, rfl⟩ := List.getElem?_eq_some_iff.mp hstmt
  exact hall ⟨n, hn⟩

/-- Past `cdev_init`, `mod_init` has a cdev. -/
theorem Driven.cdev_of_lt {n : ℕ} {err : Bool} (hd : Driven d) (hinit : d.init = .running n err)
    (hlt : 2 < n) : .cdevAlloc ∈ d.succeeded :=
  hd.cdev (hd.inv.passed n err hinit 2 ⟨.cdevInit, .ignored⟩ rfl hlt (by decide))

/-- A statement of `mod_init` keeps what is known of the driver. -/
theorem Driven.runInit (hd : Driven d) (hrun : d.runInit .mutexDrv success = some t) :
    Driven t := by
  have hinv := hd.inv.runInit hrun
  cases State.runsInit hrun with
  | @succeeds n err stmt hinit hstmt hneeds =>
    refine ⟨hinv, fun _ _ heq => ?_, fun hmem => ?_, fun _ hret => (by cases hret),
      fun hret => (by cases hret)⟩
    · obtain ⟨-, rfl⟩ := InitPc.running.inj heq
      exact hd.clean n _ hinit
    · refine List.mem_append_left _ ?_
      rcases List.mem_append.mp hmem with hold | hnew
      · exact hd.cdev hold
      · rw [← List.mem_singleton.mp hnew] at hneeds
        obtain ⟨c, hc, hprovides⟩ := (hd.inv.ready_iff .mydrv).mp hneeds
        cases c <;> first | exact hc | cases hprovides
  | @ignores n err stmt hinit =>
    refine ⟨hinv, fun _ _ heq => ?_, hd.cdev, fun _ hret => (by cases hret),
      fun hret => (by cases hret)⟩
    obtain ⟨-, rfl⟩ := InitPc.running.inj heq
    exact hd.clean n _ hinit
  | keeps hinit hstmt hcan hon => exact absurd hon (mutexDrv_stmt hstmt).1
  | @fails n err stmt hinit hstmt hon =>
    obtain ⟨-, hkzalloc, hindex⟩ := mutexDrv_stmt hstmt
    have hn := hindex (hkzalloc.mp hon)
    exact ⟨hinv, fun _ _ heq => (by cases heq), hd.cdev,
      fun _ _ => hd.cdev_of_lt hinit (by omega), fun hret => (by cases hret)⟩
  | @finishes n err hinit hnone =>
    have hlen : 8 ≤ n := List.getElem?_eq_none_iff.mp hnone
    exact ⟨hinv, fun _ _ heq => (by cases heq), hd.cdev,
      fun _ _ => hd.cdev_of_lt hinit (by omega),
      fun _ => hd.inv.passed n err hinit 6 ⟨.kzalloc, .returned⟩ rfl (by omega) (by decide)⟩
  | crashes =>
    exact ⟨hinv, fun _ _ heq => (by cases heq), hd.cdev, fun _ hret => (by cases hret),
      fun hret => (by cases hret)⟩

/-- `mod_init` returns an error exactly when `kzalloc` fails. -/
theorem Driven.fails_iff (hd : Driven d) (hrun : d.runInit .mutexDrv success = some t) :
    t.init = .returned true ↔ d.nextCall = some .kzalloc ∧ success = false := by
  cases State.runsInit hrun with
  | succeeds hinit hstmt hneeds hok =>
    refine iff_of_false (by simp) ?_
    rintro ⟨hnext, rfl⟩
    simp only [State.nextCall, hinit, hstmt, Option.map_some, Option.some.injEq] at hnext
    simp [hnext, KernelCall.canFail] at hok
  | ignores hinit hstmt hcan hon =>
    refine iff_of_false (by simp) ?_
    rintro ⟨hnext, -⟩
    simp only [State.nextCall, hinit, hstmt, Option.map_some, Option.some.injEq] at hnext
    rw [(mutexDrv_stmt hstmt).2.1.mpr hnext] at hon
    cases hon
  | keeps hinit hstmt hcan hon => exact absurd hon (mutexDrv_stmt hstmt).1
  | fails hinit hstmt hon hfalse =>
    refine iff_of_true rfl ⟨?_, hfalse⟩
    simp only [State.nextCall, hinit, hstmt, Option.map_some, (mutexDrv_stmt hstmt).2.1.mp hon]
  | finishes hinit hnone =>
    refine iff_of_false ?_ ?_
    · rw [hd.clean _ _ hinit]
      simp
    · simp [State.nextCall, hinit, hnone]
  | crashes hinit hstmt hneeds =>
    refine iff_of_false (by simp) ?_
    rintro ⟨hnext, -⟩
    simp only [State.nextCall, hinit, hstmt, Option.map_some, Option.some.injEq] at hnext
    simp [hnext, State.meetsNeeds, KernelCall.needs] at hneeds

/-- The calls that have succeeded are kept. -/
theorem runInit_succeeded (hrun : d.runInit .mutexDrv success = some t) :
    t.succeeded = d.succeeded ++ t.succeeded.drop d.succeeded.length := by
  cases State.runsInit hrun <;> simp [State.succeed]

/-- What is known of the loads and unloads so far. -/
structure Loader.Inv (l : Loader) (trace : List Event) : Prop where
  /-- The driver that is there. -/
  driver : ∀ d, l.driver = some d → Driven d
  /-- What its successful calls have acquired. -/
  held : ∀ d, l.driver = some d → ∀ c ∈ d.succeeded, ∀ r, c.acquires = some r →
    0 < acquired ⟨l.ended, r⟩ (actions trace)
  /-- Nothing of this load or a later one was released, and no `sh`. -/
  unreleased : ∀ h : Handle, l.ended ≤ h.load ∨ h.resource = .sh → released h (actions trace) = 0
  /-- Only a load that has ended has released anything. -/
  quiet : .notLoaded ∉ trace → ∀ h, released h (actions trace) = 0
  /-- Whenever the module was gone something was held. -/
  unsettled : Justified (fun before e => e = .notLoaded → ¬ Settled (actions before)) trace

/-- Nothing was loaded yet. -/
theorem Loader.inv_start : Loader.start.Inv [] where
  driver d hd := by cases hd
  held d hd := by cases hd
  unreleased h _ := rfl
  quiet _ h := rfl
  unsettled := justified_nil

/-- Actions are no moment at which the module is gone. -/
theorem Loader.Inv.unsettled_append (hl : l.Inv trace) (hes : .notLoaded ∉ es) :
    Justified (fun before e => e = .notLoaded → ¬ Settled (actions before)) (trace ++ es) :=
  hl.unsettled.append fun _ he _ heq => absurd (heq ▸ he) hes

/-- A load starts. -/
theorem Loader.Inv.load (hl : l.Inv trace) :
    Loader.Inv { l with driver := some (State.init0 Empty) } trace where
  driver d hd := by
    obtain rfl := Option.some.inj hd
    exact driven_init0
  held d hd := by
    obtain rfl := Option.some.inj hd
    exact fun c hc => absurd hc List.not_mem_nil
  unreleased := hl.unreleased
  quiet := hl.quiet
  unsettled := hl.unsettled

/-- A statement of `mod_init` acquires what its call provides. -/
theorem Loader.Inv.init (hl : l.Inv trace) (hd : l.driver = some d)
    (hrun : d.runInit .mutexDrv success = some t) :
    Loader.Inv { l with driver := some t }
      (trace ++ acquisitions l.ended (t.succeeded.drop d.succeeded.length)) where
  driver u hu := by
    obtain rfl := Option.some.inj hu
    exact (hl.driver d hd).runInit hrun
  held u hu c hc r hr := by
    obtain rfl := Option.some.inj hu
    rw [runInit_succeeded hrun] at hc
    rw [actions_append, acquired_append]
    rcases List.mem_append.mp hc with hold | hnew
    · exact Nat.add_pos_left (hl.held d hd c hold r hr) _
    · exact Nat.add_pos_right _ (acquired_acquisitions hnew hr)
  unreleased h hh := by simpa using hl.unreleased h hh
  quiet hnot h := by
    rw [List.mem_append, not_or] at hnot
    simpa using hl.quiet hnot.1 h
  unsettled := hl.unsettled_append (by simp [acquisitions])

/-- `mod_init` has returned an error. -/
theorem Loader.Inv.fail (hl : l.Inv trace) (hd : l.driver = some d)
    (hret : d.init = .returned true) :
    Loader.Inv ⟨l.ended + 1, none⟩ (trace ++ [.notLoaded]) where
  driver u hu := by cases hu
  held u hu := by cases hu
  unreleased h hh := by simpa using hl.unreleased h (hh.imp_left Nat.le_of_succ_le)
  quiet hnot := absurd (List.mem_append_right _ List.mem_cons_self) hnot
  unsettled := by
    refine hl.unsettled.append_singleton fun _ => not_settled_of_held (r := ⟨l.ended, .cdev⟩) ?_
    rw [hl.unreleased _ (Or.inl (Nat.le_refl _))]
    exact hl.held d hd .cdevAlloc ((hl.driver d hd).returned true hret) .cdev rfl

/-- `mod_exit` has run. -/
theorem Loader.Inv.unload (hl : l.Inv trace) (hd : l.driver = some d)
    (hret : d.init = .returned false) :
    Loader.Inv ⟨l.ended + 1, none⟩ (trace ++ (releases l.ended ++ [.notLoaded])) where
  driver u hu := by cases hu
  held u hu := by cases hu
  unreleased h hh := by
    have hother := released_releases (h := h) (k := l.ended) (hh.imp_left fun hle => by
      have : l.ended + 1 ≤ h.load := hle
      omega)
    simpa [hother] using hl.unreleased h (hh.imp_left Nat.le_of_succ_le)
  quiet hnot := absurd (by simp) hnot
  unsettled := by
    rw [← List.append_assoc]
    refine (hl.unsettled_append (by simp [releases])).append_singleton fun _ =>
      not_settled_of_held (r := ⟨l.ended, .sh⟩) ?_
    have hheld := hl.held d hd .kzalloc ((hl.driver d hd).loaded hret) .sh rfl
    have hnone := released_releases (h := ⟨l.ended, .sh⟩) (k := l.ended) (Or.inr rfl)
    rw [actions_append, released_append, acquired_append, hnone,
      hl.unreleased _ (Or.inl (Nat.le_refl _))]
    omega

/-- Every command keeps what is known of the loads and unloads. -/
theorem Loader.Inv.step {c : Command} (hl : l.Inv trace) (hstep : l.step c = some (l', es)) :
    l'.Inv (trace ++ es) := by
  rcases Loader.step_cases hstep with ⟨-, -, rfl, rfl⟩ |
    ⟨success, d, t, -, hd, hrun, ⟨-, rfl, rfl⟩ | ⟨hret, rfl, rfl⟩⟩ | ⟨d, -, hd, hret, rfl, rfl⟩
  · simpa using hl.load
  · exact hl.init hd hrun
  · rw [← List.append_assoc]
    exact (hl.init hd hrun).fail rfl hret
  · exact hl.unload hd hret

/-- A command that is seen to leave the module where it is, is one under which it
stays. -/
theorem Loader.Inv.stays_iff {c : Command} (hl : l.Inv trace)
    (hstep : l.step c = some (l', es)) : (∀ e ∈ es, e ≠ .notLoaded) ↔ l.Stays c := by
  have hacquisitions : ∀ calls, ∀ e ∈ acquisitions l.ended calls, e ≠ .notLoaded := by
    intro calls e he
    obtain ⟨r, -, rfl⟩ := List.mem_map.mp he
    simp
  rcases Loader.step_cases hstep with ⟨rfl, -, -, rfl⟩ | ⟨success, d, t, rfl, hd, hrun, hcase⟩ |
    ⟨d, rfl, -, -, -, rfl⟩
  · exact iff_of_true (by simp) trivial
  · have hfails := (hl.driver d hd).fails_iff hrun
    have hstays : l.Stays (.init success) ↔ ¬ (d.nextCall = some .kzalloc ∧ success = false) := by
      simp [Loader.Stays, hd]
    rw [hstays, ← hfails]
    rcases hcase with ⟨hret, -, rfl⟩ | ⟨hret, -, rfl⟩
    · exact iff_of_true (hacquisitions _) hret
    · exact iff_of_false (by simp) (not_not.mpr hret)
  · exact iff_of_false (by simp) id

/-- In a run loads and unloads balance exactly when the module was never gone. -/
theorem Loader.Inv.balanced_iff_loaded (hl : l.Inv trace) :
    Balanced trace ↔ ∀ e ∈ trace, e ≠ .notLoaded := by
  constructor
  · rintro hbalanced e hmem rfl
    obtain ⟨before, after, rfl⟩ := List.append_of_mem hmem
    exact hl.unsettled before _ after rfl rfl (hbalanced.settled before _ after rfl rfl)
  · intro hall
    refine ⟨sound_of_released_eq_zero (hl.quiet fun hmem => hall _ hmem rfl), ?_⟩
    rintro before e after rfl rfl
    exact absurd rfl (hall .notLoaded (by simp))

/-- **Load and unload balance.** In every run of loads, with any pattern of failures, and
unloads, only what is held is released and nothing is held whenever the module is not
loaded, exactly when the module is loaded once and stays: no `kzalloc` fails, and there is
no unload. -/
theorem balanced_iff {commands : List Command}
    (hexec : exec Loader.step Loader.start commands = some (l, trace)) :
    Balanced trace ↔ Meets Loader.step Loader.Stays Loader.start commands := by
  have hrun := run_of_exec (meets_anyLabel commands Loader.start) hexec
  have hinv : l.Inv trace :=
    hrun.invariant Loader.inv_start fun hl _ hstep => hl.step hstep
  rw [hinv.balanced_iff_loaded]
  exact forall_events_iff_meets (fun l => ∃ trace, l.Inv trace) (· ≠ .notLoaded) Loader.Stays
    (fun ⟨_, hl⟩ hstep => hl.stays_iff hstep) (fun ⟨_, hl⟩ _ hstep => ⟨_, hl.step hstep⟩)
    ⟨_, Loader.inv_start⟩ hexec

/-- A load in which every call succeeds, and no unload. -/
theorem balanced_iff_run :
    ∃ l trace, exec Loader.step Loader.start
        (.load :: List.replicate 9 (.init true)) = some (l, trace) ∧ Balanced trace := by
  obtain ⟨⟨l, trace⟩, hexec, _⟩ := Option.map_eq_some_iff.mp
    (show (exec Loader.step Loader.start (.load :: List.replicate 9 (.init true))).map
      (fun p => p.1.ended) = some 0 by decide)
  exact ⟨l, trace, hexec, (balanced_iff hexec).mpr (by decide +kernel)⟩

/-- The module is loaded, every call succeeds, and it is unloaded: `sh` is still held. -/
theorem sh_not_released :
    ¬ ∀ (commands : List Command) (l : Loader) (trace : List Event),
      exec Loader.step Loader.start commands = some (l, trace) → Balanced trace := by
  intro hall
  obtain ⟨⟨l, trace⟩, hexec, htrace⟩ := Option.map_eq_some_iff.mp
    (show (exec Loader.step Loader.start
      (.load :: (List.replicate 9 (.init true) ++ [.unload]))).map
        (fun p => (p.2.getLast?, released ⟨0, .sh⟩ (actions p.2.dropLast),
          acquired ⟨0, .sh⟩ (actions p.2.dropLast))) = some (some .notLoaded, 0, 1) by decide)
  obtain ⟨hlast, hcounts⟩ := Prod.mk.inj htrace
  obtain ⟨hreleased, hacquired⟩ := Prod.mk.inj hcounts
  have hsplit := List.dropLast_append_getLast? _ hlast
  have hsettled := (hall _ l trace hexec).settled trace.dropLast .notLoaded [] hsplit.symm rfl
  have hequal := hsettled ⟨0, .sh⟩
  rw [hreleased, hacquired] at hequal
  cases hequal

end LinuxDevNote.Lifecycle
