import Mathlib.Algebra.Order.Ring.Nat
import Mathlib.Data.Nat.Basic
import Mathlib.Tactic.Common

/-!
# Page tables

A page table maps the pages of an address space to frames of the memory, and an address
within a page to the address at the same place in the frame. Consecutive pages are mapped
to consecutive frames, and unmapped, at once. Page numbers, frames and addresses are
natural numbers, and pages have any positive size.
-/

namespace LinuxDevNote.Paging

/-- The frame of each page that is mapped. -/
abbrev Table : Type := ℕ → Option ℕ

/-- Nothing is mapped. -/
def Table.empty : Table := fun _ => none

/-- `count` pages from `page` on are mapped to the frames from `frame` on. -/
def Table.remap (table : Table) (page count frame : ℕ) : Table := fun v =>
  if page ≤ v ∧ v < page + count then some (frame + (v - page)) else table v

/-- `count` pages from `page` on are not mapped any more. -/
def Table.unmap (table : Table) (page count : ℕ) : Table := fun v =>
  if page ≤ v ∧ v < page + count then none else table v

/-- The memory address behind an address, when its page is mapped. -/
def Table.translate (table : Table) (size a : ℕ) : Option ℕ :=
  (table (a / size)).map fun frame => frame * size + a % size

/-- All pages are mapped to frames of a kind. -/
def Table.MapsTo (table : Table) (ok : ℕ → Prop) : Prop :=
  ∀ v frame, table v = some frame → ok frame

variable {table : Table} {ok : ℕ → Prop} {page count frame size : ℕ}

/-- A page that was just mapped. -/
theorem Table.remap_add {k : ℕ} (hk : k < count) :
    table.remap page count frame (page + k) = some (frame + k) := by
  rw [remap, if_pos (by omega), Nat.add_sub_cancel_left]

/-- The empty table maps to frames of any kind. -/
theorem Table.mapsTo_empty : Table.empty.MapsTo ok :=
  fun _ _ h => by cases h

/-- Mapping to frames of a kind. -/
theorem Table.MapsTo.remap (h : table.MapsTo ok) (hok : ∀ k < count, ok (frame + k)) :
    (table.remap page count frame).MapsTo ok := by
  intro v f hv
  rw [Table.remap] at hv
  split at hv
  · obtain rfl := Option.some.inj hv
    exact hok _ (by omega)
  · exact h v f hv

/-- Unmapping maps nothing elsewhere. -/
theorem Table.MapsTo.unmap (h : table.MapsTo ok) : (table.unmap page count).MapsTo ok := by
  intro v f hv
  rw [Table.unmap] at hv
  split at hv
  · cases hv
  · exact h v f hv

/-- The addresses of the pages that were just mapped run through the frames. -/
theorem Table.translate_remap (hsize : 0 < size) {i : ℕ} (hi : i < count * size) :
    (table.remap page count frame).translate size (page * size + i) = some (frame * size + i) := by
  have hpage : (page * size + i) / size = page + i / size := by
    rw [Nat.mul_comm, Nat.mul_add_div hsize]
  have hplace : (page * size + i) % size = i % size := by
    rw [Nat.mul_comm, Nat.mul_add_mod]
  have hsplit : frame * size + i = (frame + i / size) * size + i % size := by
    rw [Nat.add_mul, Nat.add_assoc, Nat.div_add_mod']
  rw [translate, hpage, Table.remap_add (Nat.div_lt_of_lt_mul (by rwa [Nat.mul_comm])),
    Option.map_some, hplace, hsplit]

end LinuxDevNote.Paging
