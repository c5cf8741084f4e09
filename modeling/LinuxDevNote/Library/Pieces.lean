import Mathlib.Algebra.BigOperators.Group.List.Basic
import Mathlib.Algebra.Order.Ring.Nat
import Mathlib.Data.List.SplitLengths

/-!
# Sequences read in pieces

A reader that asks for some number of elements, gets at most that many, and asks again,
receives a sequence in pieces. `List.splitLengths` lists them; once the sequence has
been delivered they are empty. The elements have an arbitrary type.
-/

namespace LinuxDevNote.Pieces

variable {α : Type*}

/-- Together the pieces are as much of the sequence as was asked for. -/
theorem flatten_splitLengths (sizes : List ℕ) (xs : List α) :
    (sizes.splitLengths xs).flatten = xs.take sizes.sum := by
  induction sizes generalizing xs with
  | nil => simp
  | cons n sizes ih =>
    rw [List.splitLengths_cons, List.flatten_cons, ih, List.sum_cons, List.take_add]

/-- Where every request is positive, a piece is empty exactly when the pieces before it are
the whole sequence. -/
theorem eq_nil_iff_of_splitLengths {sizes : List ℕ} {xs : List α}
    (hpos : ∀ n ∈ sizes, 0 < n) {before after : List (List α)} {piece : List α}
    (h : sizes.splitLengths xs = before ++ piece :: after) :
    piece = [] ↔ before.flatten = xs := by
  induction sizes generalizing xs before with
  | nil => simp at h
  | cons n sizes ih =>
    have hn := hpos n List.mem_cons_self
    rw [List.splitLengths_cons] at h
    cases before with
    | nil =>
      obtain ⟨rfl, _⟩ := List.cons_eq_cons.mp h
      rw [List.take_eq_nil_iff, List.flatten_nil, eq_comm (b := xs)]
      exact ⟨fun hnil => hnil.resolve_left (by omega), Or.inr⟩
    | cons first before =>
      obtain ⟨rfl, htail⟩ := List.cons_eq_cons.mp h
      have hrest := ih (fun m hm => hpos m (List.mem_cons_of_mem _ hm)) htail
      rw [hrest, List.flatten_cons]
      constructor
      · intro hdrop
        rw [hdrop, List.take_append_drop]
      · intro hwhole
        conv_rhs at hwhole => rw [← List.take_append_drop n xs]
        exact List.append_cancel_left hwhole

/-- Positive requests, one after the other, deliver a finite sequence in finitely many
pieces, none of them empty. -/
theorem exists_splitLengths (sizes : ℕ → ℕ) (hpos : ∀ i, 0 < sizes i) (xs : List α) :
    ∃ n, (((List.range n).map sizes).splitLengths xs).flatten = xs ∧
      ∀ piece ∈ ((List.range n).map sizes).splitLengths xs, piece ≠ [] := by
  induction hlen : xs.length using Nat.strong_induction_on generalizing xs sizes with
  | _ len ih =>
    by_cases hxs : xs = []
    · exact ⟨0, by simp [hxs], by simp⟩
    · have hfirst := hpos 0
      have hnonempty := List.length_pos_iff.mpr hxs
      obtain ⟨n, hflatten, hpieces⟩ := ih (xs.drop (sizes 0)).length
        (by rw [List.length_drop]; omega) (fun i => sizes (i + 1)) (fun i => hpos (i + 1)) _ rfl
      have hcons : (List.range (n + 1)).map sizes =
          sizes 0 :: (List.range n).map fun i => sizes (i + 1) := by
        rw [List.range_succ_eq_map, List.map_cons, List.map_map]
        rfl
      refine ⟨n + 1, ?_, ?_⟩
      · rw [hcons, List.splitLengths_cons, List.flatten_cons, hflatten, List.take_append_drop]
      · intro piece hpiece
        rw [hcons, List.splitLengths_cons, List.mem_cons] at hpiece
        rcases hpiece with rfl | hrest
        · rw [ne_eq, List.take_eq_nil_iff]
          rintro (hzero | hnil)
          · omega
          · exact hxs hnil
        · exact hpieces piece hrest

end LinuxDevNote.Pieces
