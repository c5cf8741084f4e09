import LinuxDevNote.Library.Execution

/-!
# Runs in which everyone has a fixed number of steps

The labels are the processes of a system, and each process has a number of steps left that only
its own steps change, by one each. Then a run has taken of each process what it started with
less what is left, and a run that cannot get stuck before that ends with nothing left.
-/

namespace LinuxDevNote.Execution

variable {State ι Event : Type*}

/-- A number of steps left for each process. -/
structure Counts (step : State → ι → Option (State × List Event)) (left : State → ι → ℕ) :
    Prop where
  /-- A step of a process is one of those it had left. -/
  own : ∀ {s t i es}, step s i = some (t, es) → left t i + 1 = left s i
  /-- A step of another process does not change them. -/
  other : ∀ {s t i j es}, step s i = some (t, es) → j ≠ i → left t j = left s j

variable [DecidableEq ι] {step : State → ι → Option (State × List Event)} {left : State → ι → ℕ}
  {s t : State} {is : List ι} {es : List Event}

/-- **Countdown rule.** What a process has done and what it has left make up what it had. -/
theorem Counts.count_add (h : Counts step left) (hexec : exec step s is = some (t, es)) (i : ι) :
    is.count i + left t i = left s i := by
  induction is generalizing s es with
  | nil =>
    obtain ⟨rfl, _⟩ := Prod.mk.inj (Option.some.inj hexec)
    rw [List.count_nil, Nat.zero_add]
  | cons j is ih =>
    obtain ⟨u, fs, rest, hstep, hrest, rfl⟩ := exec_cons_eq_some.mp hexec
    have hlater := ih hrest
    by_cases hij : i = j
    · subst hij
      have hown := h.own hstep
      rw [List.count_cons_self]
      omega
    · rw [List.count_cons_of_ne (Ne.symm hij), hlater, h.other hstep hij]

/-- A process has done everything when nothing is left. -/
theorem Counts.count_eq_iff (h : Counts step left) (hexec : exec step s is = some (t, es)) (i : ι) :
    is.count i = left s i ↔ left t i = 0 := by
  have hcount := h.count_add hexec i
  omega

omit [DecidableEq ι] in
/-- A system that can go on while something is left is stuck just when nothing is. -/
theorem Counts.stuck_iff (h : Counts step left)
    (hprogress : ∀ i, left s i ≠ 0 → ∃ j p, step s j = some p) :
    (∀ i, step s i = none) ↔ ∀ i, left s i = 0 := by
  constructor
  · intro hstuck i
    by_contra hleft
    obtain ⟨j, p, hp⟩ := hprogress i hleft
    rw [hstuck j] at hp
    cases hp
  · intro hnone i
    cases hstep : step s i with
    | none => rfl
    | some p =>
      have hown : left p.1 i + 1 = left s i := h.own hstep
      rw [hnone i] at hown
      cases hown

end LinuxDevNote.Execution
