import Mathlib.Algebra.Order.Ring.Int
import Mathlib.Data.List.Basic
import Mathlib.Logic.Function.Basic
import Mathlib.Tactic.Common

/-!
# Slices of an indexed memory

A memory is a function from signed indices to cells, so that an index outside
the array it stands for can still be written down. `slice` reads consecutive
cells, `splice` overwrites them, and `indices` lists the indices such an access
touches. The cells have an arbitrary type.
-/

namespace LinuxDevNote.Memory

variable {α : Type*}

/-- The `n` consecutive cells from index `p`. -/
def slice (mem : ℤ → α) (p : ℤ) (n : ℕ) : List α := (List.range n).map fun i : ℕ => mem (p + i)

/-- The memory with `cells` written from index `p`. -/
def splice (mem : ℤ → α) (p : ℤ) (cells : List α) : ℤ → α :=
  fun j => if p ≤ j then (cells[(j - p).toNat]?).getD (mem j) else mem j

/-- The `n` consecutive indices from `p`. -/
def indices (p : ℤ) (n : ℕ) : List ℤ := (List.range n).map fun i : ℕ => p + i

/-- A slice has exactly the requested number of cells. -/
@[simp] theorem slice_length (mem : ℤ → α) (p : ℤ) (n : ℕ) : (slice mem p n).length = n := by
  simp [slice]

/-- Reading within a slice reads the memory at the absolute index. -/
@[simp] theorem slice_getElem (mem : ℤ → α) (p : ℤ) (n k : ℕ)
    (hk : k < (slice mem p n).length) : (slice mem p n)[k] = mem (p + k) := by
  simp [slice]

/-- The empty slice. -/
@[simp] theorem slice_zero (mem : ℤ → α) (p : ℤ) : slice mem p 0 = [] := rfl

/-- Adjacent slices concatenate to the slice of combined length. -/
theorem slice_add (mem : ℤ → α) (p : ℤ) (a b : ℕ) :
    slice mem p (a + b) = slice mem p a ++ slice mem (p + a) b := by
  simp [slice, List.range_add, List.map_map, Function.comp_def, add_assoc]

/-- A slice one cell longer ends in the next cell. -/
theorem slice_succ (mem : ℤ → α) (p : ℤ) (n : ℕ) :
    slice mem p (n + 1) = slice mem p n ++ [mem (p + n)] := by
  simp [slice, List.range_succ]

/-- An initial part of a slice keeps its starting index. -/
theorem slice_take (mem : ℤ → α) (p : ℤ) (n k : ℕ) :
    (slice mem p n).take k = slice mem p (min k n) := by
  simp only [slice, ← List.map_take, List.take_range]

/-- A slice without its first cells starts that much later. -/
theorem slice_drop (mem : ℤ → α) (p : ℤ) (n k : ℕ) :
    (slice mem p n).drop k = slice mem (p + k) (n - k) := by
  apply List.ext_getElem (by simp)
  intro i h₁ h₂
  rw [List.getElem_drop, slice_getElem, slice_getElem]
  congr 1
  omega

/-- Slices of memories that agree on the range are equal. -/
theorem slice_congr {mem mem' : ℤ → α} {p : ℤ} {n : ℕ}
    (h : ∀ j, p ≤ j → j < p + n → mem j = mem' j) : slice mem p n = slice mem' p n := by
  apply List.map_congr_left
  intro i hi
  have hin := List.mem_range.mp hi
  exact h _ (by omega) (by omega)

/-- Writing one cell outside the range leaves a slice unchanged. -/
theorem slice_update_of_outside (mem : ℤ → α) {p q : ℤ} {n : ℕ} (x : α)
    (h : q < p ∨ p + n ≤ q) : slice (Function.update mem q x) p n = slice mem p n := by
  apply slice_congr
  intro j hlo hhi
  exact Function.update_of_ne (by omega) _ _

/-- Below its range a splice changes nothing. -/
theorem splice_of_lt (mem : ℤ → α) {p j : ℤ} (cells : List α) (h : j < p) :
    splice mem p cells j = mem j := by
  simp [splice, not_le.mpr h]

/-- Above its range a splice changes nothing. -/
theorem splice_of_ge (mem : ℤ → α) {p j : ℤ} (cells : List α) (h : p + cells.length ≤ j) :
    splice mem p cells j = mem j := by
  have hlen : cells.length ≤ (j - p).toNat := by omega
  simp [splice, List.getElem?_eq_none hlen]

/-- Within its range a splice holds the written cells. -/
theorem splice_getElem (mem : ℤ → α) (p : ℤ) (cells : List α) {i : ℕ} (h : i < cells.length) :
    splice mem p cells (p + i) = cells[i] := by
  simp [splice, List.getElem?_eq_getElem h]

/-- Writing no cells changes nothing. -/
@[simp] theorem splice_nil (mem : ℤ → α) (p : ℤ) : splice mem p [] = mem := by
  funext j
  simp [splice]

/-- Writing consecutive blocks one after the other writes their concatenation. -/
theorem splice_append (mem : ℤ → α) (p : ℤ) (xs ys : List α) :
    splice mem p (xs ++ ys) = splice (splice mem p xs) (p + xs.length) ys := by
  funext j
  by_cases hlo : j < p
  · rw [splice_of_lt _ _ hlo, splice_of_lt _ _ (by omega), splice_of_lt _ _ hlo]
  by_cases hhi : p + xs.length ≤ j
  · have hsub : (j - p).toNat - xs.length = (j - (p + xs.length)).toNat := by omega
    have hle : xs.length ≤ (j - p).toNat := by omega
    rw [splice, splice, if_pos (by omega), if_pos hhi, List.getElem?_append_right hle, hsub,
      splice_of_ge _ _ hhi]
  · obtain ⟨i, rfl⟩ : ∃ i : ℕ, j = p + i := ⟨(j - p).toNat, by omega⟩
    have hi : i < xs.length := by omega
    rw [splice_of_lt _ ys (by omega), splice_getElem _ _ _ hi,
      splice_getElem _ _ _ (by rw [List.length_append]; omega), List.getElem_append_left hi]

/-- Writing one cell. -/
theorem splice_singleton (mem : ℤ → α) (p : ℤ) (x : α) :
    splice mem p [x] = Function.update mem p x := by
  funext j
  by_cases hj : j = p
  · subst hj
    simp [splice]
  by_cases hlo : j < p
  · rw [splice_of_lt _ _ hlo, Function.update_of_ne hj]
  · rw [splice_of_ge _ _ (by simp; omega), Function.update_of_ne hj]

/-- Reading back what was just written. -/
theorem slice_splice (mem : ℤ → α) (p : ℤ) (cells : List α) :
    slice (splice mem p cells) p cells.length = cells := by
  apply List.ext_getElem (by simp)
  intro i h₁ h₂
  rw [slice_getElem, splice_getElem _ _ _ h₂]

/-- Reading back an initial part of what was just written. -/
theorem slice_splice_of_le (mem : ℤ → α) (p : ℤ) {cells : List α} {n : ℕ}
    (h : n ≤ cells.length) : slice (splice mem p cells) p n = cells.take n := by
  have htake := slice_take (splice mem p cells) p cells.length n
  rw [slice_splice, min_eq_left h] at htake
  exact htake.symm

/-- Cells written outside a slice do not change it. -/
theorem slice_splice_of_outside (mem : ℤ → α) {p q : ℤ} {n : ℕ} {cells : List α}
    (h : q + n ≤ p ∨ p + cells.length ≤ q) : slice (splice mem p cells) q n = slice mem q n := by
  apply slice_congr
  intro j hlo hhi
  rcases h with h | h
  · exact splice_of_lt _ _ (by omega)
  · exact splice_of_ge _ _ (by omega)

/-- Cells written apart can be written in either order. -/
theorem splice_comm (mem : ℤ → α) {p q : ℤ} {xs ys : List α}
    (h : p + xs.length ≤ q ∨ q + ys.length ≤ p) :
    splice (splice mem p xs) q ys = splice (splice mem q ys) p xs := by
  funext j
  by_cases hxs : p ≤ j ∧ j < p + xs.length
  · obtain ⟨i, rfl⟩ : ∃ i : ℕ, j = p + i := ⟨(j - p).toNat, by omega⟩
    have hi : i < xs.length := by omega
    have hout : splice (splice mem p xs) q ys (p + i) = splice mem p xs (p + i) := by
      rcases h with h | h
      · exact splice_of_lt _ _ (by omega)
      · exact splice_of_ge _ _ (by omega)
    rw [hout, splice_getElem _ _ _ hi, splice_getElem _ _ _ hi]
  · have hout : ∀ mem : ℤ → α, splice mem p xs j = mem j := by
      intro mem
      by_cases hlo : j < p
      · exact splice_of_lt _ _ hlo
      · exact splice_of_ge _ _ (by omega)
    have hsame : splice (splice mem p xs) q ys j = splice mem q ys j := by
      simp only [splice.eq_def (splice mem p xs), splice.eq_def mem q, hout]
    rw [hout, hsame]

/-- An index lies in a range of consecutive indices exactly when it is between
the ends. -/
@[simp] theorem mem_indices {p j : ℤ} {n : ℕ} : j ∈ indices p n ↔ p ≤ j ∧ j < p + n := by
  simp only [indices, List.mem_map, List.mem_range]
  constructor
  · rintro ⟨i, hi, rfl⟩
    omega
  · rintro ⟨hlo, hhi⟩
    exact ⟨(j - p).toNat, by omega, by omega⟩

/-- An index lies within an array of `m` cells. -/
def Within (m : ℕ) (j : ℤ) : Prop := 0 ≤ j ∧ j < m

/-- Consecutive indices lie within an array exactly when there are none or the
first and the last do. -/
theorem forall_mem_indices_within {p : ℤ} {n m : ℕ} :
    (∀ j ∈ indices p n, Within m j) ↔ n = 0 ∨ 0 ≤ p ∧ p + n ≤ m := by
  simp only [mem_indices, Within]
  constructor
  · intro h
    by_cases hn : n = 0
    · exact Or.inl hn
    · have hfirst := h p (by omega)
      have hlast := h (p + n - 1) (by omega)
      exact Or.inr (by omega)
  · intro h j hj
    omega

/-- A slice holds the cells at consecutive indices. -/
theorem slice_eq_map_indices (mem : ℤ → α) (p : ℤ) (n : ℕ) :
    slice mem p n = (indices p n).map mem := by
  rw [slice, indices, List.map_map]
  rfl

/-- Adjacent ranges of indices concatenate. -/
theorem indices_add (p : ℤ) (a b : ℕ) : indices p (a + b) = indices p a ++ indices (p + a) b :=
  slice_add id p a b

/-- One index more in front. -/
theorem indices_succ (p : ℤ) (n : ℕ) : indices p (n + 1) = p :: indices (p + 1) n := by
  simp only [indices, List.range_succ_eq_map, List.map_cons, List.map_map, Function.comp_def,
    Nat.cast_zero, add_zero, Nat.cast_succ]
  congr 1
  apply List.map_congr_left
  intro i _
  omega

end LinuxDevNote.Memory
