import LinuxDevNote.Lifecycle.Init

/-!
# Publishing before initialising

Each of the four init functions publishes its node before it has initialised what
the handlers use, and leaves it published when it fails. A request uses only
initialised objects exactly when its statements run after the last initialising
call of the init function has succeeded.
-/

namespace LinuxDevNote.Lifecycle

open Execution

/-- The last initialising call of an init function. -/
def Module.lastInit : Module → KernelCall
  | .mutexDrv => .mutexInit
  | .semaphoreDrv => .semaInit
  | .queueWaitDev => .initWaitqueueHead
  | .mmapDrv => .kmalloc

/-- The object it provides, which every handler uses first. -/
def Module.guard : Module → Obj
  | .mutexDrv => .shareMutex
  | .semaphoreDrv => .sem
  | .queueWaitDev => .queueRw
  | .mmapDrv => .buffer

/-- The objects the handlers of a driver use. -/
def Module.objects : Module → List Obj
  | .mutexDrv => [.shareMutex, .sh]
  | .semaphoreDrv => [.sem]
  | .queueWaitDev => [.queueRw]
  | .mmapDrv => [.buffer]

/-- The init function goes on only if the call has succeeded. -/
def InitStmt.MustSucceed (stmt : InitStmt) : Prop :=
  stmt.onFailure = .returned ∨ stmt.call.canFail = false

instance (stmt : InitStmt) : Decidable stmt.MustSucceed :=
  inferInstanceAs (Decidable (_ ∨ _))

variable {κ : Type*} {m : Module} {s t : State κ}

/-- Requests come late enough: a handler uses an object only after the last
initialising call of the init function has succeeded. -/
def AfterInit (m : Module) (s : State κ) : Label κ → Prop
  | .advance _ => m.lastInit ∈ s.succeeded
  | _ => True

instance (m : Module) (s : State κ) : ∀ a, Decidable (AfterInit m s a)
  | .advance _ => inferInstanceAs (Decidable (m.lastInit ∈ s.succeeded))
  | .init _ => isTrue trivial
  | .unregister => isTrue trivial
  | .request _ _ => isTrue trivial

/-- The guard comes from the last initialising call and from no other. -/
theorem Module.provides_guard (m : Module) (c : KernelCall) :
    c.provides = some m.guard ↔ c = m.lastInit := by
  cases m <;> cases c <;> decide

/-- When the init function is at its last initialising call, that call or an
earlier one, which must have succeeded, provides each object of the handlers. -/
theorem Module.init_provides (m : Module) {n : ℕ} {stmt : InitStmt}
    (hstmt : m.init[n]? = some stmt) (hlast : stmt.call = m.lastInit) {o : Obj}
    (ho : o ∈ m.objects) :
    ∃ k stmt', m.init[k]? = some stmt' ∧ stmt'.call.provides = some o ∧
      (k = n ∨ k < n ∧ stmt'.MustSucceed) := by
  have hall : ∀ n : Fin m.init.length, (m.init.get n).call = m.lastInit → ∀ o ∈ m.objects,
      ∃ k : Fin m.init.length, (m.init.get k).call.provides = some o ∧
        (k = n ∨ k < n ∧ (m.init.get k).MustSucceed) := by
    cases m <;> decide
  obtain ⟨hn, rfl⟩ := List.getElem?_eq_some_iff.mp hstmt
  obtain ⟨k, hk, hcase⟩ := hall ⟨n, hn⟩ hlast o ho
  exact ⟨k, _, List.getElem?_eq_getElem k.isLt, hk, hcase.imp (congrArg Fin.val) id⟩

/-- A handler uses only objects of its driver, and the guard first. -/
theorem Module.handler_guarded {r : Request} {uses : List Obj} (h : m.handler r = some uses) :
    uses ⊆ m.objects ∧ (uses = [] ∨ uses.head? = some m.guard) := by
  have hmem : ∀ {turns : ℕ} {o p : Obj}, o ∈ List.replicate turns p → o = p :=
    fun ho => List.eq_of_mem_replicate ho
  cases m <;> cases r <;> simp only [Module.handler, Option.some.injEq, reduceCtorEq] at h
  all_goals subst h
  case mutexDrv.write turns =>
    refine ⟨fun o ho => ?_, Or.inr rfl⟩
    simp only [List.mem_cons, List.mem_append] at ho
    rcases ho with rfl | ho | rfl | ho
    · decide
    · rw [hmem ho]
      decide
    · decide
    · cases ho
  case queueWaitDev.read turns =>
    refine ⟨fun o ho => ?_, ?_⟩
    · rw [hmem ho]
      decide
    · cases turns with
      | zero => exact Or.inl rfl
      | succ turns => exact Or.inr rfl
  all_goals decide

/-- What is known while requests come late enough. -/
structure Inv (m : Module) (s : State κ) : Prop where
  /-- An object is ready exactly when the call that provides it has succeeded. -/
  ready_iff : ∀ o, s.ready o = true ↔ ∃ c ∈ s.succeeded, c.provides = some o
  /-- The init function has got past the calls that must succeed. -/
  passed : ∀ n err, s.init = .running n err → ∀ k stmt, m.init[k]? = some stmt → k < n →
    stmt.MustSucceed → stmt.call ∈ s.succeeded
  /-- After the last initialising call everything the handlers use is ready. -/
  complete : m.lastInit ∈ s.succeeded → ∀ o ∈ m.objects, s.ready o = true
  /-- Requests use objects of the driver. -/
  uses : ∀ i, s.clients i ⊆ m.objects
  /-- A request has still to use the guard, or the guard is ready. -/
  guarded : ∀ i, s.clients i = [] ∨ (s.clients i).head? = some m.guard ∨
    m.lastInit ∈ s.succeeded

/-- The start of the init function. -/
theorem inv_init0 (m : Module) : Inv m (State.init0 κ) where
  ready_iff o := by simp [State.init0]
  passed n err h k stmt hstmt hk := by
    obtain ⟨rfl, _⟩ := InitPc.running.inj h
    omega
  complete h := by cases h
  uses i := List.nil_subset _
  guarded i := Or.inl rfl

/-- What one statement of the init function can do: succeed in the call it makes, go on
without a success, or end the function. -/
inductive RunsInit (m : Module) (s : State κ) (success : Bool) : State κ → Prop
  | succeeds {n : ℕ} {err : Bool} {stmt : InitStmt} : s.init = .running n err →
    m.init[n]? = some stmt → s.meetsNeeds stmt.call = true →
    success = true ∨ stmt.call.canFail = false →
    RunsInit m s success { s.succeed stmt.call with init := .running (n + 1) err }
  | ignores {n : ℕ} {err : Bool} {stmt : InitStmt} : s.init = .running n err →
    m.init[n]? = some stmt → stmt.call.canFail = true → stmt.onFailure = .ignored →
    success = false → RunsInit m s success { s with init := .running (n + 1) err }
  | keeps {n : ℕ} {err : Bool} {stmt : InitStmt} : s.init = .running n err →
    m.init[n]? = some stmt → stmt.call.canFail = true → stmt.onFailure = .kept →
    success = false → RunsInit m s success { s with init := .running (n + 1) true }
  | fails {n : ℕ} {err : Bool} {stmt : InitStmt} : s.init = .running n err →
    m.init[n]? = some stmt → stmt.onFailure = .returned → success = false →
    RunsInit m s success { s with init := .returned true }
  | finishes {n : ℕ} {err : Bool} : s.init = .running n err → m.init[n]? = none →
    RunsInit m s success { s with init := .returned err }
  | crashes {n : ℕ} {err : Bool} {stmt : InitStmt} : s.init = .running n err →
    m.init[n]? = some stmt → s.meetsNeeds stmt.call = false →
    RunsInit m s success { s with init := .crashed }

/-- Every statement of the init function does one of these. -/
theorem State.runsInit {success : Bool} (h : s.runInit m success = some t) :
    RunsInit m s success t := by
  unfold State.runInit at h
  split at h
  · rename_i n err hinit
    split at h
    · rename_i hnone
      obtain rfl := Option.some.inj h
      exact .finishes hinit hnone
    · rename_i stmt hstmt
      split at h
      · rename_i hneeds
        split at h
        · rename_i hok
          obtain rfl := Option.some.inj h
          exact .succeeds hinit hstmt hneeds (by simpa using hok)
        · rename_i hfail
          have hfailed : success = false ∧ stmt.call.canFail = true := by simpa using hfail
          split at h
          all_goals
            rename_i hon
            obtain rfl := Option.some.inj h
          · exact .ignores hinit hstmt hfailed.2 hon hfailed.1
          · exact .keeps hinit hstmt hfailed.2 hon hfailed.1
          · exact .fails hinit hstmt hon hfailed.1
      · rename_i hneeds
        obtain rfl := Option.some.inj h
        exact .crashes hinit hstmt (by simpa using hneeds)
  · cases h

/-- A successful call of the init function keeps the invariant. -/
theorem Inv.succeed {n : ℕ} {err : Bool} {stmt : InitStmt} (h : Inv m s)
    (hinit : s.init = .running n err) (hstmt : m.init[n]? = some stmt) :
    Inv m { s.succeed stmt.call with init := .running (n + 1) err } := by
  have hready : ∀ o, (s.succeed stmt.call).ready o = true ↔
      ∃ c ∈ (s.succeed stmt.call).succeeded, c.provides = some o := by
    intro o
    simp only [State.succeed, Bool.or_eq_true, h.ready_iff, beq_iff_eq, List.mem_append,
      List.mem_singleton]
    constructor
    · rintro (⟨c, hc, ho⟩ | ho)
      · exact ⟨c, Or.inl hc, ho⟩
      · exact ⟨stmt.call, Or.inr rfl, ho⟩
    · rintro ⟨c, hc | rfl, ho⟩
      · exact Or.inl ⟨c, hc, ho⟩
      · exact Or.inr ho
  have hpassed : ∀ k stmt', m.init[k]? = some stmt' → k < n + 1 → stmt'.MustSucceed →
      stmt'.call ∈ (s.succeed stmt.call).succeeded := by
    intro k stmt' hk hlt hmust
    rcases Nat.lt_succ_iff_lt_or_eq.mp hlt with hold | rfl
    · exact List.mem_append_left _ (h.passed n err hinit k stmt' hk hold hmust)
    · obtain rfl := Option.some.inj (hstmt.symm.trans hk)
      exact List.mem_append_right _ (List.mem_singleton_self _)
  refine ⟨hready, fun n' err' hn k stmt' hk hlt => ?_, fun hlast o ho => ?_, h.uses, fun i => ?_⟩
  · obtain ⟨rfl, _⟩ := InitPc.running.inj hn
    exact hpassed k stmt' hk hlt
  · rcases List.mem_append.mp hlast with hold | hnew
    · exact (Bool.or_eq_true _ _).mpr (Or.inl (h.complete hold o ho))
    · have heq := (List.mem_singleton.mp hnew).symm
      obtain ⟨k, stmt', hk, hprovides, rfl | ⟨hlt, hmust⟩⟩ := m.init_provides hstmt heq ho
      · obtain rfl := Option.some.inj (hstmt.symm.trans hk)
        exact (hready o).mpr ⟨_, List.mem_append_right _ (List.mem_singleton_self _), hprovides⟩
      · exact (hready o).mpr ⟨_, hpassed k stmt' hk (by omega) hmust, hprovides⟩
  · exact (h.guarded i).imp_right fun hi => hi.imp_right (List.mem_append_left _)

/-- Going on without a success that is not needed keeps the invariant. -/
theorem Inv.skip {n : ℕ} {err err' : Bool} {stmt : InitStmt} (h : Inv m s)
    (hinit : s.init = .running n err) (hstmt : m.init[n]? = some stmt)
    (hmust : ¬ stmt.MustSucceed) : Inv m { s with init := .running (n + 1) err' } := by
  refine ⟨h.ready_iff, fun n' err'' hn k stmt' hk hlt hmust' => ?_, h.complete, h.uses, h.guarded⟩
  obtain ⟨rfl, _⟩ := InitPc.running.inj hn
  rcases Nat.lt_succ_iff_lt_or_eq.mp hlt with hold | rfl
  · exact h.passed n err hinit k stmt' hk hold hmust'
  · obtain rfl := Option.some.inj (hstmt.symm.trans hk)
    exact absurd hmust' hmust

/-- Ending the init function keeps the invariant. -/
theorem Inv.ended {pc : InitPc} (h : Inv m s) (hpc : ∀ n err, pc ≠ .running n err) :
    Inv m { s with init := pc } :=
  ⟨h.ready_iff, fun n err hn => absurd hn (hpc n err), h.complete, h.uses, h.guarded⟩

/-- A statement of the init function keeps the invariant. -/
theorem Inv.runInit {success : Bool} (h : Inv m s) (hstep : s.runInit m success = some t) :
    Inv m t := by
  cases State.runsInit hstep with
  | succeeds hinit hstmt => exact h.succeed hinit hstmt
  | ignores hinit hstmt hcan hon | keeps hinit hstmt hcan hon =>
    exact h.skip hinit hstmt (by simp [InitStmt.MustSucceed, hon, hcan])
  | fails | finishes | crashes => exact h.ended (by simp)

/-- A use finds its object ready exactly when it comes late enough. -/
theorem Inv.use_ready (h : Inv m s) {i : κ} {o : Obj} {rest : List Obj}
    (hclient : s.clients i = o :: rest) : s.ready o = true ↔ m.lastInit ∈ s.succeeded := by
  have ho : o ∈ m.objects := h.uses i (by rw [hclient]; exact List.mem_cons_self)
  constructor
  · intro hready
    rcases h.guarded i with hidle | hguard | hlast
    · rw [hclient] at hidle
      cases hidle
    · rw [hclient] at hguard
      obtain rfl := Option.some.inj hguard
      obtain ⟨c, hc, hprovides⟩ := (h.ready_iff _).mp hready
      exact (m.provides_guard c).mp hprovides ▸ hc
    · exact hlast
  · exact fun hlast => h.complete hlast o ho

variable [DecidableEq κ]

/-- Changing what one client has still to do keeps the invariant when the new
request is guarded. -/
theorem Inv.setClient (h : Inv m s) (i : κ) {uses : List Obj} (hsub : uses ⊆ m.objects)
    (hguard : uses = [] ∨ uses.head? = some m.guard ∨ m.lastInit ∈ s.succeeded) :
    Inv m { s with clients := Function.update s.clients i uses } := by
  refine ⟨h.ready_iff, h.passed, h.complete, fun j => ?_, fun j => ?_⟩
  · by_cases hj : j = i
    · simpa [hj] using hsub
    · simpa [hj] using h.uses j
  · by_cases hj : j = i
    · simpa [hj] using hguard
    · simpa [hj] using h.guarded j

/-- What a step can do: run a statement of the init function, remove the node, start
a request, or make the next use of one, which is the only step that shows. -/
theorem step_cases {a : Label κ} {es : List (Use κ)} (h : s.step m a = some (t, es)) :
    (∃ success, a = .init success ∧ s.runInit m success = some t ∧ es = []) ∨
      (a = .unregister ∧ t = { s with published := false } ∧ es = []) ∨
      (∃ i r uses, a = .request i r ∧ m.handler r = some uses ∧
        t = { s with clients := Function.update s.clients i uses } ∧ es = []) ∨
      ∃ i o rest, a = .advance i ∧ s.clients i = o :: rest ∧
        t = { s with clients := Function.update s.clients i rest } ∧ es = [⟨i, o, s.ready o⟩] := by
  cases a with
  | init success =>
    obtain ⟨u, hu, heq⟩ := Option.map_eq_some_iff.mp h
    obtain ⟨rfl, rfl⟩ := Prod.mk.inj heq
    exact Or.inl ⟨success, rfl, hu, rfl⟩
  | unregister =>
    simp only [State.step] at h
    split at h
    · obtain ⟨rfl, rfl⟩ := Prod.mk.inj (Option.some.inj h)
      exact Or.inr (Or.inl ⟨rfl, rfl, rfl⟩)
    · cases h
  | request i r =>
    simp only [State.step] at h
    split at h
    · obtain ⟨uses, huses, heq⟩ := Option.map_eq_some_iff.mp h
      obtain ⟨rfl, rfl⟩ := Prod.mk.inj heq
      exact Or.inr (Or.inr (Or.inl ⟨i, r, uses, rfl, huses, rfl, rfl⟩))
    · cases h
  | advance i =>
    simp only [State.step] at h
    split at h
    · cases h
    · rename_i o rest hclient
      obtain ⟨rfl, rfl⟩ := Prod.mk.inj (Option.some.inj h)
      exact Or.inr (Or.inr (Or.inr ⟨i, o, rest, rfl, hclient, rfl, rfl⟩))

/-- Steps that come late enough keep the invariant. -/
theorem Inv.step {a : Label κ} {es : List (Use κ)} (h : Inv m s) (hok : AfterInit m s a)
    (hstep : s.step m a = some (t, es)) : Inv m t := by
  rcases step_cases hstep with ⟨success, rfl, hrun, -⟩ | ⟨rfl, rfl, -⟩ |
    ⟨i, r, uses, rfl, huses, rfl, -⟩ | ⟨i, o, rest, rfl, hclient, rfl, -⟩
  · exact h.runInit hrun
  · exact ⟨h.ready_iff, h.passed, h.complete, h.uses, h.guarded⟩
  · obtain ⟨hsub, hguard⟩ := Module.handler_guarded huses
    exact h.setClient i hsub (hguard.imp_right Or.inl)
  · refine h.setClient i (fun p hp => h.uses i ?_) (Or.inr (Or.inr hok))
    rw [hclient]
    exact List.mem_cons_of_mem _ hp

/-- A step shows only ready objects exactly when it comes late enough. -/
theorem Inv.uses_ready {a : Label κ} {es : List (Use κ)} (h : Inv m s)
    (hstep : s.step m a = some (t, es)) :
    (∀ use ∈ es, use.ready = true) ↔ AfterInit m s a := by
  rcases step_cases hstep with ⟨success, rfl, -, rfl⟩ | ⟨rfl, -, rfl⟩ |
    ⟨i, r, uses, rfl, -, -, rfl⟩ | ⟨i, o, rest, rfl, hclient, -, rfl⟩
  · simp [AfterInit]
  · simp [AfterInit]
  · simp [AfterInit]
  · rw [List.forall_mem_singleton]
    exact h.use_ready hclient

/-- **Publishing before initialising.** In every run of a driver with its clients,
the handlers use only objects that are ready exactly when each use comes after the
last initialising call of the init function has succeeded. -/
theorem uses_ready_iff (m : Module) {labels : List (Label κ)} {trace : List (Use κ)}
    (hexec : exec (State.step m) (State.init0 κ) labels = some (s, trace)) :
    (∀ use ∈ trace, use.ready = true) ↔
      Meets (State.step m) (AfterInit m) (State.init0 κ) labels :=
  forall_events_iff_meets (Inv m) (fun use => use.ready = true) (AfterInit m)
    (fun h hstep => h.uses_ready hstep) (fun h hok hstep => h.step hok hstep) (inv_init0 m) hexec

/-- The semaphore driver is loaded before its node is read. -/
theorem uses_ready_iff_run :
    ∃ s trace, exec (State.step .semaphoreDrv) (State.init0 Unit)
        (List.replicate 8 (Label.init true) ++
          [Label.request () (.read 0), Label.advance (), Label.advance ()]) = some (s, trace) ∧
      ∀ use ∈ trace, use.ready = true := by
  obtain ⟨⟨s, trace⟩, hexec, _⟩ := Option.map_eq_some_iff.mp
    (show (exec (State.step .semaphoreDrv) (State.init0 Unit)
      (List.replicate 8 (Label.init true) ++
        [Label.request () (.read 0), Label.advance (), Label.advance ()])).map
          (fun p => p.1.init) = some (.returned false) by decide)
  exact ⟨s, trace, hexec, (uses_ready_iff .semaphoreDrv hexec).mpr (by decide +kernel)⟩

/-- The allocation of `sh` fails, `mod_init` returns an error, and a read locks the
uninitialised `share_mutex` through the node that is still there. -/
theorem unready_object_used :
    ¬ ∀ (m : Module) (labels : List (Label Unit)) (s : State Unit) (trace : List (Use Unit)),
      exec (State.step m) (State.init0 Unit) labels = some (s, trace) →
      ∀ use ∈ trace, use.ready = true := by
  intro h
  obtain ⟨⟨s, trace⟩, hexec, htrace⟩ := Option.map_eq_some_iff.mp
    (show (exec (State.step .mutexDrv) (State.init0 Unit) (List.replicate 6 (Label.init true) ++
      [Label.init false, Label.request () (.read 0), Label.advance ()])).map
        (fun p => (p.1.init, p.2.map Use.ready)) = some (.returned true, [false]) by decide)
  obtain ⟨_, hready⟩ := Prod.mk.inj htrace
  have hall := h .mutexDrv _ s trace hexec
  have hfalse : false ∈ trace.map Use.ready := by
    rw [hready]
    decide
  obtain ⟨use, huse, hnot⟩ := List.mem_map.mp hfalse
  rw [hall use huse] at hnot
  cases hnot

end LinuxDevNote.Lifecycle
