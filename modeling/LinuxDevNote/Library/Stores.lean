import Mathlib.Data.List.Basic
import Mathlib.Data.List.Induction
import Mathlib.Logic.Function.Basic

/-!
# A memory and the stores to it

A memory holds in every cell the value stored last, or the one it held at the start. When a
program sees the cells of a memory under other names, each under one, the stores that it does
under these names are stores to an array of its own.
-/

namespace LinuxDevNote.Stores

variable {Cell Place Value : Type*} [DecidableEq Cell] [DecidableEq Place]

/-- The memory after some stores, the first one first. -/
def contents (start : Cell → Value) (stores : List (Cell × Value)) : Cell → Value :=
  stores.foldl (fun cells s => Function.update cells s.1 s.2) start

variable {start : Cell → Value} {stores : List (Cell × Value)} {c : Cell} {x : Value}

/-- One more store. -/
theorem contents_append_singleton (start : Cell → Value) (stores : List (Cell × Value)) (c : Cell)
    (x : Value) :
    contents start (stores ++ [(c, x)]) = Function.update (contents start stores) c x := by
  rw [contents, List.foldl_append]
  rfl

/-- A cell that nothing was stored to. -/
theorem contents_of_notMem (h : c ∉ stores.map Prod.fst) : contents start stores c = start c := by
  induction stores generalizing start with
  | nil => rfl
  | cons s stores ih =>
    rw [List.map_cons, List.mem_cons, not_or] at h
    have hrest : contents start (s :: stores) c = Function.update start s.1 s.2 c := ih h.2
    rw [hrest, Function.update_of_ne h.1]

/-- A cell that only one value was stored to. -/
theorem contents_of_forall (hmem : c ∈ stores.map Prod.fst) (hall : ∀ y, (c, y) ∈ stores → y = x) :
    contents start stores c = x := by
  induction stores generalizing start with
  | nil => cases hmem
  | cons s stores ih =>
    have htail := fun y hy => hall y (List.mem_cons_of_mem s hy)
    by_cases hlater : c ∈ stores.map Prod.fst
    · exact ih hlater htail
    · rw [List.map_cons, List.mem_cons] at hmem
      have hhead := hmem.resolve_right hlater
      have hrest : contents start (s :: stores) c = Function.update start s.1 s.2 c :=
        contents_of_notMem hlater
      rw [hrest, hhead, Function.update_self]
      refine hall s.2 ?_
      rw [hhead]
      exact List.mem_cons_self

/-- **Renaming rule.** The stores to the cells under their names are stores to an array with the
names for its places. -/
theorem contents_map {name : Place → Cell} (places : Place → Prop)
    (hname : ∀ k l, places k → places l → name k = name l → k = l) (start : Cell → Value)
    {stores : List (Place × Value)} (hstores : ∀ s ∈ stores, places s.1) {k : Place}
    (hk : places k) :
    contents start (stores.map fun s => (name s.1, s.2)) (name k) =
      contents (fun k => start (name k)) stores k := by
  induction stores using List.reverseRecOn with
  | nil => rfl
  | append_singleton stores s ih =>
    have hbefore := ih fun s' hs' => hstores s' (List.mem_append_left _ hs')
    have hplace := hstores s (List.mem_append_right _ List.mem_cons_self)
    rw [List.map_append, List.map_singleton, contents_append_singleton,
      contents_append_singleton]
    by_cases hks : k = s.1
    · rw [hks, Function.update_self, Function.update_self]
    · rw [Function.update_of_ne hks, Function.update_of_ne fun h => hks (hname k s.1 hk hplace h),
        hbefore]

end LinuxDevNote.Stores
