import LinuxDevNote.Library.Execution

/-!
# Runs of one system as runs of another

Two step functions and a relation between their states. When every step of the first system
is answered by some steps of the second one, so is every run.
-/

namespace LinuxDevNote.Execution

variable {State Label Event State' Label' Event' : Type*}

/-- Related states stay related when a step of the first system is answered by some steps of
the second. -/
def Simulates (step : State → Label → Option (State × List Event))
    (step' : State' → Label' → Option (State' × List Event')) (R : State → State' → Prop) : Prop :=
  ∀ ⦃s s' a t es⦄, R s s' → step s a = some (t, es) →
    ∃ as t' es', exec step' s' as = some (t', es') ∧ R t t'

variable {step : State → Label → Option (State × List Event)}
  {step' : State' → Label' → Option (State' × List Event')} {R : State → State' → Prop}
  {s t : State} {s' : State'} {as : List Label} {es : List Event}

/-- **Simulation rule.** Every run of the first system is answered by one of the second. -/
theorem Simulates.run (h : Simulates step step' R) (hs : R s s')
    (hexec : exec step s as = some (t, es)) :
    ∃ bs t' es', exec step' s' bs = some (t', es') ∧ R t t' := by
  induction as generalizing s s' es with
  | nil =>
    obtain ⟨rfl, rfl⟩ := Prod.mk.inj (Option.some.inj hexec)
    exact ⟨[], s', [], rfl, hs⟩
  | cons a as ih =>
    obtain ⟨u, fs, rest, hstep, hrest, rfl⟩ := exec_cons_eq_some.mp hexec
    obtain ⟨bs, u', gs, hbs, hu⟩ := h hs hstep
    obtain ⟨cs, t', hs', hcs, ht⟩ := ih hu hrest
    exact ⟨bs ++ cs, t', gs ++ hs', exec_append hbs hcs, ht⟩

end LinuxDevNote.Execution
