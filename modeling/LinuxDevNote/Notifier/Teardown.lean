import Mathlib.Data.Fintype.Basic
import Mathlib.Data.List.Infix
import LinuxDevNote.Notifier.Driver

/-!
# Unloading the notifier module

`del_timer` removes a pending timer but does not wait for a running handler, which
arms the timer again. Nothing is left of the timer after `myNotifier_exit` exactly
when no handler has still to arm the timer at the time of `del_timer` and none is
running when the exit function returns.
-/

namespace LinuxDevNote.Notifier

open Execution

variable {ι : Type*}

/-- The exit function has returned. -/
def State.Gone (s : State ι) : Prop := s.rest = []

/-- The exit function has executed `del_timer`. -/
def State.Deleted (s : State ι) : Prop := Stmt.delTimer ∉ s.rest

/-- Some handler, now or later, will arm the timer. -/
def State.Live (s : State ι) : Prop := s.pending = true ∨ ∃ i, (s.handler i).willArm = true

/-- The module is unloaded at a quiet time: `del_timer` runs when no handler has
still to arm the timer, and the exit function returns when none is running. -/
def Quiet (s : State ι) : Label ι → Prop
  | .module => (s.rest.head? = some .delTimer → ∀ i, (s.handler i).willArm = false) ∧
      (s.rest.head? = some .exitReturn → ∀ i, s.handler i = .idle)
  | _ => True

/-- What the order of the statements says about the next one: the timer is set up
and armed only before `del_timer`, which comes once, and the last statement is the
return. -/
theorem stmt_cases {stmt : Stmt} {rest : List Stmt}
    (h : stmt :: rest <:+ myNotifierInit ++ myNotifierExit) :
    (stmt = .initTimer → .delTimer ∈ rest) ∧ (stmt = .addTimer → .delTimer ∈ rest) ∧
      (stmt = .delTimer → .delTimer ∉ rest) ∧ (rest = [] → stmt = .exitReturn) := by
  have hall : ∀ l ∈ (myNotifierInit ++ myNotifierExit).tails,
      (l.head? = some .initTimer → .delTimer ∈ l.tail) ∧
        (l.head? = some .addTimer → .delTimer ∈ l.tail) ∧
          (l.head? = some .delTimer → .delTimer ∉ l.tail) ∧
            (l ≠ [] → l.tail = [] → l.head? = some .exitReturn) := by decide
  simpa using hall _ (List.mem_tails _ _ |>.mpr h)

/-- Of the statements of the module only `add_timer` arms the timer, and
`del_timer` leaves it disarmed. -/
theorem pending_execute {s : State ι} {stmt : Stmt} (h : (s.execute stmt).pending = true) :
    stmt = .addTimer ∨ s.pending = true ∧ stmt ≠ .delTimer := by
  cases stmt <;> simp_all [State.execute]

/-- A statement of the module leaves the handlers alone. -/
theorem handler_execute (s : State ι) (stmt : Stmt) (rest : List Stmt) :
    ({ s.execute stmt with rest := rest } : State ι).handler = s.handler := by
  cases stmt <;> rfl

/-- What is known of a run that is quiet at the two places. -/
structure Inv (s : State ι) : Prop where
  /-- The module goes through its statements in order. -/
  suffix : s.rest <:+ myNotifierInit ++ myNotifierExit
  /-- After `del_timer` nothing will arm the timer. -/
  deleted : s.Deleted → ¬ s.Live
  /-- After the exit function no handler is running. -/
  gone : s.Gone → ∀ i, s.handler i = .idle

/-- Before the module is loaded. -/
theorem inv_init : Inv (State.init ι) where
  suffix := List.suffix_refl _
  deleted h := absurd (by decide : Stmt.delTimer ∈ myNotifierInit ++ myNotifierExit) h
  gone h := by cases h

/-- A statement of the module keeps the invariant at a quiet time. -/
theorem Inv.execute {s : State ι} {stmt : Stmt} {rest : List Stmt} (h : Inv s)
    (hrest : s.rest = stmt :: rest) (hquiet : Quiet s .module) :
    Inv { s.execute stmt with rest := rest } := by
  have hsuffix : stmt :: rest <:+ myNotifierInit ++ myNotifierExit := hrest ▸ h.suffix
  obtain ⟨_, hadd, _, hlast⟩ := stmt_cases hsuffix
  have hhandler := handler_execute s stmt rest
  refine ⟨(List.suffix_cons stmt rest).trans hsuffix, fun hdeleted hlive => ?_, fun hgone => ?_⟩
  · have hnotadd : stmt ≠ .addTimer := fun heq => hdeleted (hadd heq)
    by_cases heq : stmt = .delTimer
    · rcases hlive with hpending | ⟨i, hi⟩
      · rcases pending_execute hpending with hstmt | ⟨_, hstmt⟩
        · exact hnotadd hstmt
        · exact hstmt heq
      · rw [hhandler] at hi
        rw [hquiet.1 (by rw [hrest, heq]; rfl) i] at hi
        cases hi
    · refine h.deleted (fun hmem => ?_) ?_
      · rw [hrest] at hmem
        rcases List.mem_cons.mp hmem with hhead | htail
        · exact heq hhead.symm
        · exact hdeleted htail
      · rcases hlive with hpending | ⟨i, hi⟩
        · exact Or.inl ((pending_execute hpending).resolve_left hnotadd).1
        · exact Or.inr ⟨i, hhandler ▸ hi⟩
  · have hret := hlast hgone
    intro i
    rw [hhandler]
    exact hquiet.2 (by rw [hrest, hret]; rfl) i

/-- With finitely many processors, the quiet times are decided by looking at all. -/
instance [Fintype ι] (s : State ι) : ∀ a, Decidable (Quiet s a)
  | .module => inferInstanceAs (Decidable (_ ∧ _))
  | .expire _ => isTrue trivial
  | .handler _ _ => isTrue trivial

variable [DecidableEq ι]

/-- Once the exit function has returned, the timer is not pending, no handler is
running, and nothing can ever happen again. -/
def State.TornDown (s : State ι) : Prop :=
  s.Gone → s.pending = false ∧ (∀ i, s.handler i = .idle) ∧ ∀ a, s.step a = none

/-- With nothing to arm the timer and no handler running, an unloaded module is torn
down. -/
theorem Inv.tornDown {s : State ι} (h : Inv s) : s.TornDown := by
  intro hgone
  have hidle := h.gone hgone
  have hnot := h.deleted (by rw [State.Deleted, hgone]; exact List.not_mem_nil)
  have hpending : s.pending = false := by
    by_contra hp
    exact hnot (Or.inl (by simpa using hp))
  refine ⟨hpending, hidle, fun a => ?_⟩
  cases a with
  | module =>
    have hrest : s.rest = [] := hgone
    simp [State.step, State.next, hrest]
  | expire i => simp [State.step, State.next, hpending]
  | handler i yields => simp [State.step, State.next, State.advance, hidle i]

/-- The three kinds of steps: a statement of the module, an expiration of the
pending timer, and a statement of a handler, of which only the one at `mod_timer`
arms the timer. -/
theorem next_cases {s t : State ι} {a : Label ι} (h : s.next a = some t) :
    (a = .module ∧ ∃ stmt rest, s.rest = stmt :: rest ∧ t = { s.execute stmt with rest := rest }) ∨
      (∃ i, a = .expire i ∧ s.pending = true ∧
        t = { s with pending := false }.setHandler i .callChain) ∨
      ∃ i yields pc, a = .handler i yields ∧ t.rest = s.rest ∧ s.handler i ≠ .idle ∧
        t.handler = Function.update s.handler i pc ∧
        (s.handler i = .callChain ∧ pc = .modTimer ∧ t.pending = s.pending ∨
          s.handler i = .modTimer ∧ t.pending = true ∨
          (s.handler i).willArm = false ∧ pc.willArm = false ∧ t.pending = s.pending) := by
  cases a with
  | module =>
    simp only [State.next] at h
    split at h
    · cases h
    · rename_i stmt rest hrest
      exact Or.inl ⟨rfl, stmt, rest, hrest, (Option.some.inj h).symm⟩
  | expire i =>
    simp only [State.next] at h
    split at h
    · rename_i hfires
      exact Or.inr (Or.inl ⟨i, rfl, hfires.1, (Option.some.inj h).symm⟩)
    · cases h
  | handler i yields =>
    refine Or.inr (Or.inr ⟨i, yields, ?_⟩)
    simp only [State.next, State.advance] at h
    cases hpc : s.handler i with
    | idle =>
      rw [hpc] at h
      cases h
    | callChain =>
      rw [hpc] at h
      obtain rfl := Option.some.inj h
      exact ⟨.modTimer, rfl, rfl, by simp, rfl, Or.inl ⟨rfl, rfl, rfl⟩⟩
    | modTimer =>
      rw [hpc] at h
      obtain rfl := Option.some.inj h
      exact ⟨.countUp, rfl, rfl, by simp, rfl, Or.inr (Or.inl ⟨rfl, rfl⟩)⟩
    | countUp =>
      rw [hpc] at h
      obtain rfl := Option.some.inj h
      exact ⟨.ret, rfl, rfl, by simp, rfl, Or.inr (Or.inr ⟨rfl, rfl, rfl⟩)⟩
    | ret =>
      rw [hpc] at h
      obtain rfl := Option.some.inj h
      exact ⟨.idle, rfl, rfl, by simp, rfl, Or.inr (Or.inr ⟨rfl, rfl, rfl⟩)⟩

/-- A step shows the state it leads to. -/
theorem step_eq_some {s t : State ι} {a : Label ι} {es : List (State ι)}
    (h : s.step a = some (t, es)) : s.next a = some t ∧ es = [t] := by
  obtain ⟨u, hnext, heq⟩ := Option.map_eq_some_iff.mp h
  obtain ⟨rfl, rfl⟩ := Prod.mk.inj heq
  exact ⟨hnext, rfl⟩

/-- Every step of a quiet run keeps the invariant. -/
theorem Inv.next {s t : State ι} {a : Label ι} (h : Inv s) (hquiet : Quiet s a)
    (hstep : s.next a = some t) : Inv t := by
  rcases next_cases hstep with ⟨rfl, stmt, rest, hrest, rfl⟩ | ⟨i, rfl, hpending, rfl⟩ |
    ⟨i, yields, pc, rfl, hrest, hbusy, hhandler, hcase⟩
  · exact h.execute hrest hquiet
  · have hnot : ¬ s.Deleted := fun hdeleted => h.deleted hdeleted (Or.inl hpending)
    have hmem : Stmt.delTimer ∈ s.rest := not_not.mp hnot
    refine ⟨h.suffix, fun hdeleted => absurd hdeleted hnot, fun hgone => ?_⟩
    have hnil : s.rest = [] := hgone
    rw [hnil] at hmem
    cases hmem
  · refine ⟨hrest ▸ h.suffix, fun hdeleted hlive => ?_, fun hgone => ?_⟩
    · have hnot := h.deleted (by rwa [State.Deleted, ← hrest])
      have hpast : (s.handler i).willArm = false ∧ pc.willArm = false ∧ t.pending = s.pending := by
        rcases hcase with ⟨hpc, _⟩ | ⟨hpc, _⟩ | hpast
        · exact absurd (Or.inr ⟨i, by rw [hpc]; rfl⟩) hnot
        · exact absurd (Or.inr ⟨i, by rw [hpc]; rfl⟩) hnot
        · exact hpast
      rcases hlive with hp | ⟨j, hj⟩
      · exact hnot (Or.inl (hpast.2.2 ▸ hp))
      · rw [hhandler] at hj
        by_cases hji : j = i
        · rw [hji, Function.update_self, hpast.2.1] at hj
          cases hj
        · rw [Function.update_of_ne hji] at hj
          exact hnot (Or.inr ⟨j, hj⟩)
    · exact absurd (h.gone (by rwa [State.Gone, ← hrest]) i) hbusy

/-- The module goes through its statements in order. -/
theorem suffix_next {s t : State ι} {a : Label ι}
    (h : s.rest <:+ myNotifierInit ++ myNotifierExit) (hstep : s.next a = some t) :
    t.rest <:+ myNotifierInit ++ myNotifierExit := by
  rcases next_cases hstep with ⟨rfl, stmt, rest, hrest, rfl⟩ | ⟨i, rfl, _, rfl⟩ |
    ⟨i, yields, pc, rfl, hrest, _⟩
  · rw [hrest] at h
    exact (List.suffix_cons stmt rest).trans h
  · exact h
  · rwa [hrest]

/-- After `del_timer` something that will arm the timer stays. -/
theorem live_next {s t : State ι} {a : Label ι} (hsuffix : s.rest <:+ myNotifierInit ++
      myNotifierExit) (hdeleted : s.Deleted) (hlive : s.Live) (hstep : s.next a = some t) :
    t.Deleted ∧ t.Live := by
  rcases next_cases hstep with ⟨rfl, stmt, rest, hrest, rfl⟩ | ⟨i, rfl, hpending, rfl⟩ |
    ⟨i, yields, pc, rfl, hrest, hbusy, hhandler, hcase⟩
  · rw [State.Deleted, hrest, List.mem_cons, not_or] at hdeleted
    have hkeep : s.pending = true → (s.execute stmt).pending = true := by
      intro hp
      rw [hrest] at hsuffix
      have hnot : stmt ≠ .initTimer := fun heq => hdeleted.2 ((stmt_cases hsuffix).1 heq)
      cases stmt <;> simp_all [State.execute]
    refine ⟨hdeleted.2, hlive.imp hkeep fun ⟨i, hi⟩ => ⟨i, ?_⟩⟩
    rwa [handler_execute]
  · exact ⟨hdeleted, Or.inr ⟨i, by simp [State.setHandler, HandlerPc.willArm]⟩⟩
  · refine ⟨by rwa [State.Deleted, hrest], ?_⟩
    have hself : t.handler i = pc := by rw [hhandler, Function.update_self]
    rcases hcase with ⟨_, rfl, _⟩ | ⟨_, hp⟩ | ⟨hpast, _, hp⟩
    · exact Or.inr ⟨i, by rw [hself]; rfl⟩
    · exact Or.inl hp
    · refine hlive.imp (fun h => hp ▸ h) fun ⟨j, hj⟩ => ⟨j, ?_⟩
      have hji : j ≠ i := by
        rintro rfl
        rw [hpast] at hj
        cases hj
      rw [hhandler, Function.update_of_ne hji]
      exact hj

/-- A module that is live after `del_timer`, or was once not torn down in time. -/
def Doomed (s : State ι) (visited : List (State ι)) : Prop :=
  s.Deleted ∧ s.Live ∨ ∃ u ∈ visited, ¬ u.TornDown

/-- A step at the wrong time dooms the run. -/
theorem doomed_of_break {s t : State ι} {a : Label ι} {visited : List (State ι)}
    (hsuffix : s.rest <:+ myNotifierInit ++ myNotifierExit) (hbreak : ¬ Quiet s a)
    (hstep : s.next a = some t) : Doomed t (visited ++ [t]) := by
  rcases next_cases hstep with ⟨rfl, stmt, rest, hrest, rfl⟩ | ⟨i, rfl, _⟩ | ⟨i, yields, pc, rfl, _⟩
  · have hhandler := handler_execute s stmt rest
    rw [Quiet, hrest, not_and_or] at hbreak
    rw [hrest] at hsuffix
    rcases hbreak with hdel | hret
    · obtain ⟨hstmt, hnot⟩ := Classical.not_imp.mp hdel
      obtain ⟨i, hi⟩ := not_forall.mp hnot
      refine Or.inl ⟨(stmt_cases hsuffix).2.2.1 (Option.some.inj hstmt), Or.inr ⟨i, ?_⟩⟩
      rw [hhandler]
      simpa using hi
    · obtain ⟨hstmt, hnot⟩ := Classical.not_imp.mp hret
      obtain ⟨i, hi⟩ := not_forall.mp hnot
      refine Or.inr ⟨_, List.mem_append_right _ (List.mem_singleton_self _), fun htorn => hi ?_⟩
      have hall : ∀ l ∈ (myNotifierInit ++ myNotifierExit).tails,
          l.head? = some .exitReturn → l.tail = [] := by decide
      have hgone : rest = [] := hall _ (List.mem_tails _ _ |>.mpr hsuffix) hstmt
      have hidle := (htorn hgone).2.1 i
      rwa [hhandler] at hidle
  · exact absurd trivial hbreak
  · exact absurd trivial hbreak

/-- **Unloading.** The module is torn down in every state of a run that is quiet at
the two places; and a run in which the exit function has returned has it torn down
only if it was quiet. -/
theorem torn_down_iff {labels : List (Label ι)} {s : State ι} {visited : List (State ι)}
    (hexec : exec State.step (State.init ι) labels = some (s, visited)) :
    (Meets State.step Quiet (State.init ι) labels → ∀ u ∈ visited, u.TornDown) ∧
      (s.Gone → (∀ u ∈ visited, u.TornDown) →
        Meets State.step Quiet (State.init ι) labels) := by
  constructor
  · intro hmeets
    refine ((run_of_exec hmeets hexec).invariant
      (I := fun s visited => Inv s ∧ ∀ u ∈ visited, u.TornDown) ⟨inv_init, by simp⟩ ?_).2
    intro s t a visited es ⟨hinv, hall⟩ hquiet hstep
    obtain ⟨hnext, rfl⟩ := step_eq_some hstep
    have hinv' := hinv.next hquiet hnext
    refine ⟨hinv', fun v hv => ?_⟩
    rcases List.mem_append.mp hv with hold | hnew
    · exact hall v hold
    · rw [List.mem_singleton.mp hnew]
      exact hinv'.tornDown
  · intro hgone hall
    have hcases := meets_or_bad Quiet
      (fun s visited => s.rest <:+ myNotifierInit ++ myNotifierExit ∧
        (s.rest = [] → s ∈ visited))
      (fun s visited => Doomed s visited ∧ (s.rest = [] → s ∈ visited)) ?_ ?_ ?_ []
      ⟨List.suffix_refl _, fun h => by cases h⟩ hexec
    · refine hcases.resolve_right fun hbad => ?_
      rw [List.nil_append] at hbad
      obtain ⟨⟨_, hlive⟩ | ⟨u, hu, hnot⟩, hlast⟩ := hbad
      · obtain ⟨hpending, hidle, _⟩ := hall s (hlast hgone) hgone
        rcases hlive with hp | ⟨i, hi⟩
        · rw [hpending] at hp
          cases hp
        · rw [hidle i] at hi
          cases hi
      · exact hnot (hall u hu)
    · intro s t a visited es ⟨hsuffix, _⟩ hstep
      obtain ⟨hnext, rfl⟩ := step_eq_some hstep
      exact ⟨suffix_next hsuffix hnext, fun _ => by simp⟩
    · intro s t a visited es ⟨hsuffix, _⟩ hbreak hstep
      obtain ⟨hnext, rfl⟩ := step_eq_some hstep
      exact ⟨doomed_of_break hsuffix hbreak hnext, fun _ => by simp⟩
    · intro s t a visited es ⟨hsuffix, _⟩ ⟨hdoomed, _⟩ hstep
      obtain ⟨hnext, rfl⟩ := step_eq_some hstep
      refine ⟨hdoomed.imp (fun ⟨hdeleted, hlive⟩ => live_next hsuffix hdeleted hlive hnext)
        fun ⟨v, hv, hnot⟩ => ⟨v, List.mem_append_left _ hv, hnot⟩, fun _ => by simp⟩

/-- The timer expires once before the module is unloaded, and its handler returns in
time. -/
theorem torn_down_iff_run :
    ∃ s visited, exec State.step (State.init (Fin 1))
        (List.replicate 6 Label.module ++ [Label.expire 0] ++
          List.replicate 4 (Label.handler 0 fun _ => 0) ++ List.replicate 5 Label.module) =
            some (s, visited) ∧
      ∀ u ∈ visited, u.TornDown := by
  obtain ⟨⟨s, visited⟩, hexec, _⟩ := Option.map_eq_some_iff.mp
    (show (exec State.step (State.init (Fin 1))
      (List.replicate 6 Label.module ++ [Label.expire 0] ++
        List.replicate 4 (Label.handler 0 fun _ => 0) ++ List.replicate 5 Label.module)).map
          (fun p => p.1.count) = some 1 by decide)
  exact ⟨s, visited, hexec, (torn_down_iff hexec).1 (by decide +kernel)⟩

/-- The handler walks the chain, the exit function removes the timer and returns,
and the handler arms the timer again. -/
theorem timer_armed_after_exit :
    ¬ ∀ (labels : List (Label (Fin 1))) (s : State (Fin 1)) (visited : List (State (Fin 1))),
      exec State.step (State.init (Fin 1)) labels = some (s, visited) →
      ∀ u ∈ visited, u.TornDown := by
  intro h
  obtain ⟨⟨s, visited⟩, hexec, hend⟩ := Option.map_eq_some_iff.mp
    (show (exec State.step (State.init (Fin 1)) (List.replicate 6 Label.module ++
      [Label.expire 0, Label.handler 0 fun _ => 0] ++ List.replicate 5 Label.module ++
        [Label.handler 0 fun _ => 0])).map (fun p => (p.1.rest, p.1.pending,
          p.2.getLast?.map fun u => (u.rest, u.pending))) =
            some ([], true, some ([], true)) by decide)
  simp only [Prod.mk.injEq, Option.map_eq_some_iff] at hend
  obtain ⟨_, _, u, hlast, hrest, hpending⟩ := hend
  have htorn := h _ s visited hexec u (List.mem_of_getLast? hlast) hrest
  rw [htorn.1] at hpending
  cases hpending

end LinuxDevNote.Notifier
