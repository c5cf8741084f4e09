import Mathlib.Data.List.Basic
import Mathlib.Data.List.Induction

/-!
# Finite executions of labelled step functions

A system is a partial step function: in a state, a label either is not enabled
or leads to one next state and a list of observed events. This file defines
finite runs of such a system, the same runs computed from an explicit schedule,
and the induction rules by which every safety property in the development is
proved. Nothing here depends on a particular program.
-/

namespace LinuxDevNote.Execution

variable {State Label Event : Type*}

/-- `Run step ok init s trace`: a finite schedule leads from `init` to `s` and
emits `trace`, and each label satisfied `ok` in the state where it was taken. -/
inductive Run (step : State → Label → Option (State × List Event))
    (ok : State → Label → Prop) (init : State) : State → List Event → Prop
  | start : Run step ok init init []
  | next {s t : State} {trace es : List Event} {a : Label} : Run step ok init s trace →
      ok s a → step s a = some (t, es) → Run step ok init t (trace ++ es)

/-- The condition that restricts nothing: every enabled label may be taken. -/
def anyLabel : State → Label → Prop := fun _ _ => True

/-- Run an explicit schedule, collecting the events; `none` when some label is
not enabled in the state where the schedule takes it. -/
def exec (step : State → Label → Option (State × List Event)) :
    State → List Label → Option (State × List Event)
  | s, [] => some (s, [])
  | s, a :: as =>
    match step s a with
    | none => none
    | some (t, es) => (exec step t as).map fun p => (p.1, es ++ p.2)

/-- Every label of a schedule satisfies `ok` in the state where it is taken. -/
def Meets (step : State → Label → Option (State × List Event))
    (ok : State → Label → Prop) : State → List Label → Prop
  | _, [] => True
  | s, a :: as => ok s a ∧ ∀ t es, step s a = some (t, es) → Meets step ok t as

/-- Every event of a trace is justified by the events before it. -/
def Justified (P : List Event → Event → Prop) (trace : List Event) : Prop :=
  ∀ before e after, trace = before ++ e :: after → P before e

variable {step : State → Label → Option (State × List Event)} {ok : State → Label → Prop}
  {init s t : State} {a : Label} {as : List Label} {trace es : List Event}

/-- A schedule with one more label in front runs exactly when that label is
enabled and the rest runs from the state it leads to. -/
theorem exec_cons_eq_some :
    exec step s (a :: as) = some (t, trace) ↔
      ∃ u es rest, step s a = some (u, es) ∧ exec step u as = some (t, rest) ∧
        trace = es ++ rest := by
  simp only [exec]
  cases hstep : step s a with
  | none => simp
  | some p =>
    obtain ⟨u, es⟩ := p
    simp only [Option.map_eq_some_iff, Option.some.injEq, Prod.mk.injEq]
    constructor
    · rintro ⟨⟨v, rest⟩, hrest, rfl, rfl⟩
      exact ⟨u, es, rest, ⟨rfl, rfl⟩, hrest, rfl⟩
    · rintro ⟨u', es', rest, ⟨rfl, rfl⟩, hrest, rfl⟩
      exact ⟨(t, rest), hrest, rfl, rfl⟩

/-- Whether a schedule meets a decidable condition is decided by running it. -/
instance Meets.decidable [∀ s a, Decidable (ok s a)] :
    ∀ (s : State) (as : List Label), Decidable (Meets step ok s as)
  | _, [] => isTrue trivial
  | s, a :: as =>
    match hstep : step s a with
    | none => decidable_of_iff (ok s a) (by simp [Meets, hstep])
    | some (t, es) =>
      have := Meets.decidable t as
      decidable_of_iff (ok s a ∧ Meets step ok t as) (by simp [Meets, hstep])

/-- Two schedules run one after the other. -/
theorem exec_append {bs : List Label} {u : State} {rest : List Event}
    (hfirst : exec step s as = some (t, trace)) (hsecond : exec step t bs = some (u, rest)) :
    exec step s (as ++ bs) = some (u, trace ++ rest) := by
  induction as generalizing s trace with
  | nil =>
    simp only [exec, Option.some.injEq, Prod.mk.injEq] at hfirst
    obtain ⟨rfl, rfl⟩ := hfirst
    exact hsecond
  | cons a as ih =>
    obtain ⟨v, es, tail, hstep, htail, rfl⟩ := exec_cons_eq_some.mp hfirst
    exact exec_cons_eq_some.mpr ⟨v, es, tail ++ rest, hstep, ih htail, List.append_assoc _ _ _⟩

/-- A schedule that runs can be cut anywhere. -/
theorem exec_append_eq_some {bs : List Label} {u : State}
    (h : exec step s (as ++ bs) = some (u, trace)) :
    ∃ t es rest, exec step s as = some (t, es) ∧ exec step t bs = some (u, rest) ∧
      trace = es ++ rest := by
  induction as generalizing s trace with
  | nil => exact ⟨s, [], trace, rfl, h, rfl⟩
  | cons a as ih =>
    obtain ⟨v, es, tail, hstep, htail, rfl⟩ := exec_cons_eq_some.mp h
    obtain ⟨t, fs, rest, hfirst, hsecond, rfl⟩ := ih htail
    exact ⟨t, es ++ fs, rest, exec_cons_eq_some.mpr ⟨v, es, fs, hstep, hfirst, rfl⟩, hsecond,
      (List.append_assoc _ _ _).symm⟩

/-- A schedule of one label runs when that label is enabled. -/
theorem exec_singleton (h : step s a = some (t, es)) : exec step s [a] = some (t, es) := by
  simp [exec, h]

/-- An explicit schedule whose labels all satisfy the condition extends a run. -/
theorem Run.append_exec (hrun : Run step ok init s trace) {rest : List Event}
    (hok : Meets step ok s as) (hexec : exec step s as = some (t, rest)) :
    Run step ok init t (trace ++ rest) := by
  induction as generalizing s trace rest with
  | nil =>
    simp only [exec, Option.some.injEq, Prod.mk.injEq] at hexec
    obtain ⟨rfl, rfl⟩ := hexec
    simpa using hrun
  | cons a as ih =>
    obtain ⟨u, es, tail, hstep, htail, rfl⟩ := exec_cons_eq_some.mp hexec
    have hnext := hrun.next hok.1 hstep
    simpa only [List.append_assoc] using ih hnext (hok.2 u es hstep) htail

/-- A computed schedule is a run. -/
theorem run_of_exec (hok : Meets step ok init as) (hexec : exec step init as = some (t, trace)) :
    Run step ok init t trace := by
  have hstart : Run step ok init init [] := Run.start
  simpa using hstart.append_exec hok hexec

/-- Without a condition on the labels, every schedule meets it. -/
theorem meets_anyLabel : ∀ (as : List Label) (s : State), Meets step anyLabel s as
  | [], _ => trivial
  | _ :: as, _ => ⟨trivial, fun t _ _ => meets_anyLabel as t⟩

/-- A condition on the labels alone is met by a schedule of such labels. -/
theorem meets_of_forall_mem (h : ∀ a ∈ as, ∀ s, ok s a) (s : State) : Meets step ok s as := by
  induction as generalizing s with
  | nil => trivial
  | cons a as ih =>
    exact ⟨h a List.mem_cons_self s,
      fun t _ _ => ih (fun b hb => h b (List.mem_cons_of_mem _ hb)) t⟩

/-- A schedule that runs and meets a condition meets it with each of its labels. -/
theorem Meets.exists_of_mem (h : Meets step ok s as) (hexec : exec step s as = some (t, trace)) :
    ∀ a ∈ as, ∃ u, ok u a := by
  induction as generalizing s trace with
  | nil => exact fun a ha => absurd ha List.not_mem_nil
  | cons b as ih =>
    obtain ⟨u, es, rest, hstep, hrest, rfl⟩ := exec_cons_eq_some.mp hexec
    intro a ha
    rcases List.mem_cons.mp ha with rfl | ha
    · exact ⟨s, h.1⟩
    · exact ih (h.2 u es hstep) hrest a ha

/-- The empty trace needs no justification. -/
theorem justified_nil {P : List Event → Event → Prop} : Justified P [] :=
  fun _ _ _ h => by simp at h

/-- One more event needs a justification by the trace before it. -/
theorem Justified.append_singleton {P : List Event → Event → Prop} {e : Event}
    (h : Justified P trace) (he : P trace e) : Justified P (trace ++ [e]) := by
  intro before e' after heq
  rcases List.eq_nil_or_concat after with rfl | ⟨after', e'', rfl⟩
  · obtain ⟨rfl, hlast⟩ := List.append_inj' heq rfl
    exact List.singleton_injective hlast ▸ he
  · rw [List.concat_eq_append, ← List.cons_append, ← List.append_assoc] at heq
    exact h before e' after' (List.append_inj' heq rfl).1

/-- A trace is justified when what comes before its last event is, and the event by that. -/
theorem justified_append_singleton_iff {P : List Event → Event → Prop} {e : Event} :
    Justified P (trace ++ [e]) ↔ Justified P trace ∧ P trace e := by
  refine ⟨fun h => ⟨fun before e' after heq => ?_, h trace e [] rfl⟩,
    fun h => h.1.append_singleton h.2⟩
  refine h before e' (after ++ [e]) ?_
  rw [heq, List.append_assoc, List.cons_append]

/-- Events that need no justification by what came before. -/
theorem Justified.append {P : List Event → Event → Prop} (h : Justified P trace)
    (hes : ∀ e ∈ es, ∀ before, P before e) : Justified P (trace ++ es) := by
  induction es generalizing trace with
  | nil => simpa using h
  | cons e es ih =>
    have hfirst := h.append_singleton (hes e List.mem_cons_self trace)
    simpa using ih hfirst fun e' he' => hes e' (List.mem_cons_of_mem _ he')

/-- **Invariant rule.** A property of the state and the trace that holds at the
start and is kept by every admitted step holds after every run. -/
theorem Run.invariant {I : State → List Event → Prop} (hrun : Run step ok init s trace)
    (hstart : I init [])
    (hstep : ∀ {s t a trace es}, I s trace → ok s a → step s a = some (t, es) →
      I t (trace ++ es)) : I s trace := by
  induction hrun with
  | start => exact hstart
  | next _ hok hs ih => exact hstep ih hok hs

/-- **Schedule rule.** A property of the labels taken so far, the state and the trace that holds
at the start and is kept by every step holds after every schedule that runs. -/
theorem exec_invariant {I : List Label → State → List Event → Prop}
    (hexec : exec step s as = some (t, trace)) (hstart : I [] s [])
    (hstep : ∀ {as u v a trace es}, I as u trace → step u a = some (v, es) →
      I (as ++ [a]) v (trace ++ es)) : I as t trace := by
  induction as using List.reverseRecOn generalizing t trace with
  | nil =>
    obtain ⟨rfl, rfl⟩ := Prod.mk.inj (Option.some.inj hexec)
    exact hstart
  | append_singleton as a ih =>
    obtain ⟨u, es, rest, hfirst, hlast, rfl⟩ := exec_append_eq_some hexec
    obtain ⟨v, fs, rest, ha, hend, rfl⟩ := exec_cons_eq_some.mp hlast
    obtain ⟨rfl, rfl⟩ := Prod.mk.inj (Option.some.inj hend)
    rw [List.append_nil]
    exact hstep (ih hfirst) ha

/-- **Exact-condition rule.** If, on the states of an invariant, a step's events
are all good exactly when the step meets the condition, and steps that meet it
keep the invariant, then a schedule emits only good events exactly when all of
its steps meet the condition. -/
theorem forall_events_iff_meets (I : State → Prop) (good : Event → Prop)
    (ok : State → Label → Prop)
    (hgood : ∀ {s t a es}, I s → step s a = some (t, es) → ((∀ e ∈ es, good e) ↔ ok s a))
    (hkeep : ∀ {s t a es}, I s → ok s a → step s a = some (t, es) → I t)
    (hs : I s) (hexec : exec step s as = some (t, trace)) :
    (∀ e ∈ trace, good e) ↔ Meets step ok s as := by
  induction as generalizing s trace with
  | nil =>
    simp only [exec, Option.some.injEq, Prod.mk.injEq] at hexec
    obtain ⟨_, rfl⟩ := hexec
    simp [Meets]
  | cons a as ih =>
    obtain ⟨u, es, rest, hstep, hrest, rfl⟩ := exec_cons_eq_some.mp hexec
    have hfirst := hgood hs hstep
    simp only [List.mem_append, or_imp, forall_and, Meets]
    constructor
    · rintro ⟨hes, htail⟩
      have hok := hfirst.mp hes
      refine ⟨hok, fun v fs hv => ?_⟩
      rw [hstep, Option.some.injEq, Prod.mk.injEq] at hv
      obtain ⟨rfl, rfl⟩ := hv
      exact (ih (hkeep hs hok hstep) hrest).mp htail
    · rintro ⟨hok, htail⟩
      exact ⟨hfirst.mpr hok, (ih (hkeep hs hok hstep) hrest).mpr (htail u es hstep)⟩

/-- **Point of no return.** If every step that breaks the condition leads to a bad
history, and a history once bad stays bad, then a schedule either meets the
condition throughout or ends badly. -/
theorem meets_or_bad (ok : State → Label → Prop) (I Bad : State → List Event → Prop)
    (hkeep : ∀ {s t a trace es}, I s trace → step s a = some (t, es) → I t (trace ++ es))
    (hbreak : ∀ {s t a trace es}, I s trace → ¬ ok s a → step s a = some (t, es) →
      Bad t (trace ++ es))
    (hbad : ∀ {s t a trace es}, I s trace → Bad s trace → step s a = some (t, es) →
      Bad t (trace ++ es))
    (before : List Event) (hs : I s before) (hexec : exec step s as = some (t, trace)) :
    Meets step ok s as ∨ Bad t (before ++ trace) := by
  induction as generalizing s trace before with
  | nil => exact Or.inl trivial
  | cons a as ih =>
    obtain ⟨u, es, rest, hstep, hrest, rfl⟩ := exec_cons_eq_some.mp hexec
    rw [← List.append_assoc]
    by_cases hok : ok s a
    · refine (ih _ (hkeep hs hstep) hrest).imp_left fun hmeets => ⟨hok, fun v fs hv => ?_⟩
      rw [hstep, Option.some.injEq, Prod.mk.injEq] at hv
      obtain ⟨rfl, rfl⟩ := hv
      exact hmeets
    · have hstart : Run step anyLabel u u [] := Run.start
      have hrun := hstart.append_exec (meets_anyLabel as u) hrest
      refine Or.inr (hrun.invariant (I := fun v fs => I v ((before ++ es) ++ fs) ∧
        Bad v ((before ++ es) ++ fs)) ?_ ?_).2
      · simpa using ⟨hkeep hs hstep, hbreak hs hok hstep⟩
      · intro v w b fs gs hv _ hw
        rw [← List.append_assoc]
        exact ⟨hkeep hv.1 hw, hbad hv.1 hv.2 hw⟩

section Alone

/-- A label repeats a state when, taken alone often enough, it leads to some state
twice. -/
def Repeats (step : State → Label → Option (State × List Event)) (s : State) (a : Label) : Prop :=
  ∃ n m t es fs, exec step s (List.replicate n a) = some (t, es) ∧
    exec step t (List.replicate (m + 1) a) = some (t, fs)

/-- A label that can be taken `n` times can be taken less often. -/
theorem exec_replicate_of_le {m n : ℕ} (hle : m ≤ n) {trace : List Event}
    (h : exec step s (List.replicate n a) = some (t, trace)) :
    ∃ u es, exec step s (List.replicate m a) = some (u, es) := by
  obtain ⟨k, rfl⟩ := Nat.exists_eq_add_of_le hle
  rw [List.replicate_add] at h
  obtain ⟨u, es, _, hfirst, _⟩ := exec_append_eq_some h
  exact ⟨u, es, hfirst⟩

/-- A label that leads back to a state does so again and again. -/
theorem exec_replicate_mul {m : ℕ} {fs : List Event}
    (h : exec step t (List.replicate m a) = some (t, fs)) (k : ℕ) :
    ∃ es, exec step t (List.replicate (m * k) a) = some (t, es) := by
  induction k with
  | zero => exact ⟨[], rfl⟩
  | succ k ih =>
    obtain ⟨es, hes⟩ := ih
    refine ⟨es ++ fs, ?_⟩
    rw [Nat.mul_succ, List.replicate_add]
    exact exec_append hes h

/-- A label that can be taken only finitely often repeats no state. -/
theorem not_repeats_of_stuck {n : ℕ} (h : exec step s (List.replicate n a) = none) :
    ¬ Repeats step s a := by
  rintro ⟨m, k, t, es, fs, hfirst, hloop⟩
  obtain ⟨gs, hmany⟩ := exec_replicate_mul hloop n
  have hlong := exec_append hfirst hmany
  rw [← List.replicate_add] at hlong
  have hle : n ≤ m + (k + 1) * n := by
    have hmul : n ≤ (k + 1) * n := Nat.le_mul_of_pos_left n (Nat.succ_pos k)
    omega
  obtain ⟨u, gs, hu⟩ := exec_replicate_of_le hle hlong
  rw [h] at hu
  cases hu

end Alone

end LinuxDevNote.Execution
