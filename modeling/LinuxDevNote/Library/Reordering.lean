import Mathlib.Data.List.Basic
import Mathlib.Logic.Relation

/-!
# Reordering what does not conflict

Two lists with the same entries, in which entries that conflict stand in the same order, differ
by exchanges of neighbours that do not conflict. So what such exchanges do not change, no
reordering of this kind does.
-/

namespace LinuxDevNote.Reordering

variable {α : Type*}

/-- An exchange of two neighbours that do not conflict. -/
inductive Exchange (conflict : α → α → Prop) : List α → List α → Prop
  | mk (before : List α) {x y : α} (after : List α) (h : ¬ conflict x y) :
    Exchange conflict (before ++ x :: y :: after) (before ++ y :: x :: after)

/-- The same entries, those that conflict in the same order. -/
structure SameOrder [DecidableEq α] (conflict : α → α → Prop) (xs ys : List α) : Prop where
  /-- The same entries. -/
  perm : xs.Perm ys
  /-- Of two conflicting entries both lists show the same order. -/
  order : ∀ a b, conflict a b →
    xs.filter (fun c => decide (c = a ∨ c = b)) = ys.filter fun c => decide (c = a ∨ c = b)

variable {conflict : α → α → Prop} {xs ys : List α} {x : α}

/-- An exchange behind one more entry. -/
theorem Exchange.cons (x : α) (h : Exchange conflict xs ys) :
    Exchange conflict (x :: xs) (x :: ys) := by
  cases h with
  | mk before after h => exact .mk (x :: before) after h

/-- An entry passes over entries that it does not conflict with. -/
theorem exchanges_of_forall {before after : List α} (h : ∀ y ∈ before, ¬ conflict x y) :
    Relation.ReflTransGen (Exchange conflict) (x :: (before ++ after)) (before ++ x :: after) := by
  induction before with
  | nil => exact .refl
  | cons y before ih =>
    have hfirst : Exchange conflict (x :: y :: (before ++ after)) (y :: x :: (before ++ after)) :=
      .mk [] _ (h y List.mem_cons_self)
    have hrest := ih fun z hz => h z (List.mem_cons_of_mem _ hz)
    exact .head hfirst (hrest.lift (y :: ·) fun _ _ hex => hex.cons y)

variable [DecidableEq α]

/-- What comes before the first entry of one list in the other does not conflict with it. -/
theorem SameOrder.not_conflict {before after : List α}
    (h : SameOrder conflict (x :: xs) (before ++ x :: after)) (hx : x ∉ before) :
    ∀ y ∈ before, ¬ conflict x y := by
  intro y hy hconflict
  have horder := h.order x y hconflict
  rw [List.filter_cons_of_pos (by simp), List.filter_append] at horder
  -- the first entry of the one is `x`, that of the other stands before it
  cases hbefore : before.filter fun c => decide (c = x ∨ c = y) with
  | nil =>
    have hmem : y ∈ before.filter fun c => decide (c = x ∨ c = y) :=
      List.mem_filter.mpr ⟨hy, by simp⟩
    rw [hbefore] at hmem
    exact List.not_mem_nil hmem
  | cons z rest =>
    rw [hbefore, List.cons_append, List.cons.injEq] at horder
    have hz : z ∈ before.filter fun c => decide (c = x ∨ c = y) := by
      rw [hbefore]
      exact List.mem_cons_self
    exact hx (horder.1 ▸ (List.mem_filter.mp hz).1)

/-- Without its first entry a list is in the same order. -/
theorem SameOrder.tail {before after : List α} (hsymm : ∀ {a b}, conflict a b → conflict b a)
    (h : SameOrder conflict (x :: xs) (before ++ x :: after)) (hx : x ∉ before) :
    SameOrder conflict xs (before ++ after) := by
  have hfree := h.not_conflict hx
  refine ⟨(h.perm.trans List.perm_middle).cons_inv, fun a b hab => ?_⟩
  have horder := h.order a b hab
  rw [List.filter_append, List.filter_cons, List.filter_cons] at horder
  rw [List.filter_append]
  by_cases hxab : x = a ∨ x = b
  · have hnone : before.filter (fun c => decide (c = a ∨ c = b)) = [] := by
      rw [List.filter_eq_nil_iff]
      intro y hy hyab
      rcases hxab with rfl | rfl <;> rcases of_decide_eq_true hyab with rfl | rfl
      · exact hx hy
      · exact hfree _ hy hab
      · exact hfree _ hy (hsymm hab)
      · exact hx hy
    rw [hnone] at horder ⊢
    simpa [hxab] using horder
  · simpa [hxab] using horder

/-- An exchange keeps the order. -/
theorem sameOrder_swap (hsymm : ∀ {a b}, conflict a b → conflict b a) {x y : α}
    (h : ¬ conflict x y) (xs : List α) : SameOrder conflict (x :: y :: xs) (y :: x :: xs) := by
  refine ⟨.swap _ _ _, fun a b hab => ?_⟩
  by_cases hx : x = a ∨ x = b
  · by_cases hy : y = a ∨ y = b
    · have hxy : x = y := by
        rcases hx with rfl | rfl <;> rcases hy with rfl | rfl
        · rfl
        · exact absurd hab h
        · exact absurd (hsymm hab) h
        · rfl
      rw [hxy]
    · simp [hx, hy]
  · simp [List.filter_cons, hx]

/-- **Reordering is exchanging neighbours.** -/
theorem SameOrder.exchanges (hsymm : ∀ {a b}, conflict a b → conflict b a)
    (h : SameOrder conflict xs ys) : Relation.ReflTransGen (Exchange conflict) xs ys := by
  induction xs generalizing ys with
  | nil =>
    rw [h.perm.nil_eq]
  | cons x xs ih =>
    obtain ⟨before, after, rfl, hx⟩ :=
      List.eq_append_cons_of_mem (h.perm.mem_iff.mp (List.mem_cons_self (a := x) (l := xs)))
    have hrest := ih (h.tail hsymm hx)
    exact (hrest.lift (x :: ·) fun _ _ hex => hex.cons x).trans
      (exchanges_of_forall (h.not_conflict hx))

/-- **Reordering rule.** A relation that holds across exchanges holds across reorderings. The
entries may be known to have a property. -/
theorem SameOrder.rel {P : α → Prop} {R : List α → List α → Prop} (h : SameOrder conflict xs ys)
    (hsymm : ∀ {a b}, conflict a b → conflict b a) (hP : ∀ x ∈ xs, P x) (hrefl : ∀ xs, R xs xs)
    (htrans : ∀ {xs ys zs}, R xs ys → R ys zs → R xs zs)
    (hexchange : ∀ before after x y, P x → P y → ¬ conflict x y →
      R (before ++ x :: y :: after) (before ++ y :: x :: after)) : R xs ys := by
  refine Relation.ReflTransGen.head_induction_on (h.exchanges hsymm)
    (motive := fun xs _ => (∀ x ∈ xs, P x) → R xs ys) (fun _ => hrefl _) ?_ hP
  rintro _ _ ⟨before, after, hfree⟩ _ ih hP
  refine htrans (hexchange before after _ _ (hP _ (by simp)) (hP _ (by simp)) hfree)
    (ih fun z hz => hP z ?_)
  simp only [List.mem_append, List.mem_cons] at hz ⊢
  rcases hz with hz | rfl | rfl | hz
  · exact Or.inl hz
  · exact Or.inr (Or.inr (Or.inl rfl))
  · exact Or.inr (Or.inl rfl)
  · exact Or.inr (Or.inr (Or.inr hz))

end LinuxDevNote.Reordering
