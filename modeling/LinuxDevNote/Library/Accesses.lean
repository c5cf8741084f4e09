import Mathlib.Data.List.Nodup
import Mathlib.Data.List.TakeWhile
import Mathlib.Logic.Function.Basic
import Mathlib.Order.Basic
import LinuxDevNote.Library.Execution

/-!
# Accesses to shared cells without a lock

Threads access the cells of a shared memory, each its own cells in ascending order, and
any thread may make the next access. What becomes of a cell depends on the order in which
it is accessed and on nothing else. Every run gives each cell an order, and the orders are
independent: whatever order is chosen for each cell, some run has all of them. So a memory
without a lock is atomic cell by cell, and no more than that.
-/

namespace LinuxDevNote.Accesses

open Execution

/-- What a thread does. -/
structure Thread (Cell Value : Type*) where
  /-- The cells it accesses, in turn. -/
  cells : List Cell
  /-- What it stores to a cell; `none` where it loads. -/
  stores : Cell → Option Value

/-- The memory and the threads. -/
structure State (ι Cell Value : Type*) where
  /-- The cells. -/
  mem : Cell → Value
  /-- The cells that each thread has still to access. -/
  rest : ι → List Cell
  /-- What each thread has found in the cells before its accesses. -/
  found : ι → List Value

variable {ι Cell Value : Type*}

/-- Nothing was accessed yet. -/
def State.init (threads : ι → Thread Cell Value) (start : Cell → Value) : State ι Cell Value :=
  ⟨start, fun i => (threads i).cells, fun _ => []⟩

/-- The value of a cell after the accesses of some threads, one after another. -/
def valueAfter (threads : ι → Thread Cell Value) (start : Cell → Value) (c : Cell)
    (before : List ι) : Value :=
  before.foldl (fun v i => ((threads i).stores c).getD v) (start c)

variable [DecidableEq ι]

/-- The value that a thread finds in a cell when the cell is accessed in some order. -/
def foundBy (threads : ι → Thread Cell Value) (start : Cell → Value) (order : Cell → List ι) (i : ι)
    (c : Cell) : Value :=
  valueAfter threads start c ((order c).takeWhile fun j => decide (j ≠ i))

/-- Every cell is accessed once by each thread that has it among its cells. -/
structure IsOrder (threads : ι → Thread Cell Value) (order : Cell → List ι) : Prop where
  /-- No thread accesses a cell twice. -/
  nodup : ∀ c, (order c).Nodup
  /-- The threads that access a cell. -/
  mem_iff : ∀ c i, i ∈ order c ↔ c ∈ (threads i).cells

/-- What the threads leave when each cell is accessed in the order chosen for it. -/
structure Outcome (threads : ι → Thread Cell Value) (start : Cell → Value) (order : Cell → List ι)
    (mem' : Cell → Value) (found : ι → List Value) : Prop where
  /-- The memory. -/
  mem : ∀ c, mem' c = valueAfter threads start c (order c)
  /-- What the threads found. -/
  found : ∀ i, found i = (threads i).cells.map (foundBy threads start order i)

variable [DecidableEq Cell]

/-- A thread makes its next access. -/
def State.step (threads : ι → Thread Cell Value) (s : State ι Cell Value) (i : ι) :
    Option (State ι Cell Value × List (ι × Cell)) :=
  match s.rest i with
  | [] => none
  | c :: cs =>
    some (⟨Function.update s.mem c (((threads i).stores c).getD (s.mem c)),
      Function.update s.rest i cs, Function.update s.found i (s.found i ++ [s.mem c])⟩, [(i, c)])

/-- The order in which a cell was accessed. -/
def orderOf (trace : List (ι × Cell)) (c : Cell) : List ι :=
  (trace.filter fun e => decide (e.2 = c)).map Prod.fst

variable {threads : ι → Thread Cell Value} {start : Cell → Value} {s t : State ι Cell Value}
  {trace es : List (ι × Cell)} {i : ι} {c : Cell}

/-- A thread can move when it has cells left. -/
theorem State.step_of_cons {cs : List Cell} (h : s.rest i = c :: cs) :
    s.step threads i =
      some (⟨Function.update s.mem c (((threads i).stores c).getD (s.mem c)),
        Function.update s.rest i cs, Function.update s.found i (s.found i ++ [s.mem c])⟩,
        [(i, c)]) := by
  rw [step, h]

/-- What a step does. -/
theorem State.step_cases (h : s.step threads i = some (t, es)) :
    ∃ c cs, s.rest i = c :: cs ∧ es = [(i, c)] ∧
      t.mem = Function.update s.mem c (((threads i).stores c).getD (s.mem c)) ∧
      t.rest = Function.update s.rest i cs ∧
      t.found = Function.update s.found i (s.found i ++ [s.mem c]) := by
  cases hrest : s.rest i with
  | nil =>
    rw [step, hrest] at h
    cases h
  | cons c cs =>
    rw [State.step_of_cons hrest] at h
    obtain ⟨rfl, rfl⟩ := Prod.mk.inj (Option.some.inj h)
    exact ⟨c, cs, rfl, rfl, rfl, rfl, rfl⟩

omit [DecidableEq ι] in
/-- The orders of two parts of a trace. -/
theorem orderOf_append : orderOf (trace ++ es) c = orderOf trace c ++ orderOf es c := by
  rw [orderOf, List.filter_append, List.map_append]
  rfl

omit [DecidableEq ι] in
/-- One more access to a cell. -/
theorem orderOf_append_self : orderOf (trace ++ [(i, c)]) c = orderOf trace c ++ [i] := by
  rw [orderOf_append]
  simp [orderOf]

omit [DecidableEq ι] in
/-- An access to another cell. -/
theorem orderOf_append_of_ne {c' : Cell} (h : c ≠ c') :
    orderOf (trace ++ [(i, c)]) c' = orderOf trace c' := by
  rw [orderOf_append]
  simp [orderOf, h]

omit [DecidableEq ι] [DecidableEq Cell] in
/-- One more access. -/
theorem valueAfter_append_singleton {before : List ι} :
    valueAfter threads start c (before ++ [i]) =
      ((threads i).stores c).getD (valueAfter threads start c before) := by
  rw [valueAfter, List.foldl_append]
  rfl

omit [DecidableEq Cell] in
/-- What was found before is not changed by a later access. -/
theorem takeWhile_append_of_mem {before after : List ι} (h : i ∈ before) :
    (before ++ after).takeWhile (fun j => decide (j ≠ i)) =
      before.takeWhile fun j => decide (j ≠ i) := by
  rw [List.takeWhile_append, if_neg]
  intro hlen
  have hall := List.takeWhile_eq_self_iff.mp ((List.takeWhile_prefix _).eq_of_length hlen)
  exact absurd (hall i h) (by simp)

omit [DecidableEq Cell] in
/-- A thread that has not accessed a cell yet finds it as it is. -/
theorem takeWhile_of_notMem {before : List ι} (h : i ∉ before) :
    before.takeWhile (fun j => decide (j ≠ i)) = before := by
  refine List.takeWhile_eq_self_iff.mpr fun j hj => ?_
  rw [decide_eq_true_eq]
  rintro rfl
  exact h hj

/-- What the accesses so far determine. -/
structure Inv (threads : ι → Thread Cell Value) (start : Cell → Value) (s : State ι Cell Value)
    (trace : List (ι × Cell)) : Prop where
  /-- The memory is that of the orders so far. -/
  mem : ∀ c, s.mem c = valueAfter threads start c (orderOf trace c)
  /-- No cell was accessed twice by a thread. -/
  nodup : ∀ c, (orderOf trace c).Nodup
  /-- What each thread has accessed and found. -/
  thread : ∀ i, ∃ past, (threads i).cells = past ++ s.rest i ∧
    s.found i = past.map (foundBy threads start (orderOf trace) i) ∧
    ∀ c, i ∈ orderOf trace c ↔ c ∈ past

/-- Nothing was accessed yet. -/
theorem inv_init : Inv threads start (State.init threads start) [] where
  mem _ := rfl
  nodup _ := List.nodup_nil
  thread i := ⟨[], rfl, rfl, fun c => by simp [orderOf]⟩

/-- An access keeps what is determined. -/
theorem Inv.step (h : Inv threads start s trace) (hcells : ∀ i, (threads i).cells.Nodup)
    (hstep : s.step threads i = some (t, es)) : Inv threads start t (trace ++ es) := by
  obtain ⟨c, cs, hrest, rfl, hmem, hrest', hfound⟩ := State.step_cases hstep
  obtain ⟨past, hpast, hseen, hmem_iff⟩ := h.thread i
  have hnodup := hpast ▸ hcells i
  rw [hrest] at hpast hnodup
  have hfresh : i ∉ orderOf trace c := by
    rw [hmem_iff]
    exact fun hc => (List.nodup_append.mp hnodup).2.2 c hc c List.mem_cons_self rfl
  -- the accesses so far have found what they found
  have hkeep : ∀ j c', j ∈ orderOf trace c' →
      foundBy threads start (orderOf (trace ++ [(i, c)])) j c' =
        foundBy threads start (orderOf trace) j c' := by
    intro j c' hj
    rw [foundBy, foundBy, orderOf_append, takeWhile_append_of_mem hj]
  refine ⟨fun c' => ?_, fun c' => ?_, fun j => ?_⟩
  · by_cases hc : c = c'
    · subst hc
      rw [hmem, Function.update_self, orderOf_append_self, valueAfter_append_singleton, h.mem]
    · rw [hmem, Function.update_of_ne (Ne.symm hc), orderOf_append_of_ne hc, h.mem]
  · by_cases hc : c = c'
    · subst hc
      rw [orderOf_append_self, ← List.concat_eq_append]
      exact (h.nodup c).concat hfresh
    · rw [orderOf_append_of_ne hc]
      exact h.nodup c'
  · by_cases hj : j = i
    · subst hj
      refine ⟨past ++ [c], ?_, ?_, fun c' => ?_⟩
      · rw [hpast, hrest', Function.update_self, List.append_assoc, List.singleton_append]
      · have hnow : foundBy threads start (orderOf (trace ++ [(j, c)])) j c = s.mem c := by
          rw [foundBy, orderOf_append_self, h.mem, List.takeWhile_append,
            if_pos (congrArg List.length (takeWhile_of_notMem hfresh))]
          simp
        rw [hfound, Function.update_self, hseen, List.map_append, List.map_singleton, hnow]
        congr 1
        exact List.map_congr_left fun c' hc' => (hkeep j c' ((hmem_iff c').mpr hc')).symm
      · by_cases hc : c = c'
        · subst hc
          simp [orderOf_append_self]
        · rw [orderOf_append_of_ne hc, hmem_iff]
          simp [Ne.symm hc]
    · obtain ⟨past', hpast', hseen', hmem_iff'⟩ := h.thread j
      refine ⟨past', ?_, ?_, fun c' => ?_⟩
      · rw [hrest', Function.update_of_ne hj, hpast']
      · rw [hfound, Function.update_of_ne hj, hseen']
        exact List.map_congr_left fun c' hc' => (hkeep j c' ((hmem_iff' c').mpr hc')).symm
      · by_cases hc : c = c'
        · subst hc
          rw [orderOf_append_self, List.mem_append, List.mem_singleton, hmem_iff']
          exact or_iff_left hj
        · rw [orderOf_append_of_ne hc, hmem_iff']

/-- **Every run has an order for each cell.** -/
theorem outcome_of_exec (hcells : ∀ i, (threads i).cells.Nodup) {as : List ι}
    (hexec : exec (State.step threads) (State.init threads start) as = some (s, trace))
    (hdone : ∀ i, s.rest i = []) :
    IsOrder threads (orderOf trace) ∧ Outcome threads start (orderOf trace) s.mem s.found := by
  have h : Inv threads start s trace :=
    (run_of_exec (meets_anyLabel _ _) hexec).invariant (I := Inv threads start) inv_init
      fun h _ hstep => h.step hcells hstep
  have hall : ∀ i, s.found i = (threads i).cells.map (foundBy threads start (orderOf trace) i) ∧
      ∀ c, i ∈ orderOf trace c ↔ c ∈ (threads i).cells := by
    intro i
    obtain ⟨past, hpast, hfound, hmem_iff⟩ := h.thread i
    rw [hdone i, List.append_nil] at hpast
    rw [hpast]
    exact ⟨hfound, hmem_iff⟩
  exact ⟨⟨h.nodup, fun c i => (hall i).2 c⟩, ⟨h.mem, fun i => (hall i).1⟩⟩

section Choice

variable {order : Cell → List ι} {cells : List Cell}

variable (threads) in
/-- Some threads whose next cell is the same access it one after another. -/
theorem exec_of_next (later : ι → List Cell) {turns : List ι} (hturns : turns.Nodup)
    (hnext : ∀ i, s.rest i = if i ∈ turns then c :: later i else later i) :
    ∃ t, exec (State.step threads) s turns = some (t, turns.map fun i => (i, c)) ∧
      t.rest = later := by
  induction turns generalizing s with
  | nil => exact ⟨s, rfl, funext fun i => by simpa using hnext i⟩
  | cons i turns ih =>
    obtain ⟨hi, hrest⟩ := List.nodup_cons.mp hturns
    have hfirst : s.rest i = c :: later i := by simpa using hnext i
    obtain ⟨t, ht, hlater⟩ := ih (s := ⟨Function.update s.mem c
      (((threads i).stores c).getD (s.mem c)), Function.update s.rest i (later i),
      Function.update s.found i (s.found i ++ [s.mem c])⟩) hrest fun j => by
        dsimp only
        by_cases hj : j = i
        · subst hj
          rw [Function.update_self, if_neg hi]
        · rw [Function.update_of_ne hj, hnext j]
          simp [hj]
    exact ⟨t, exec_cons_eq_some.mpr ⟨_, _, _, State.step_of_cons hfirst, ht, rfl⟩, hlater⟩

omit [DecidableEq ι] in
/-- The orders of a trace that goes through some cells one after another. -/
theorem orderOf_flatMap (hcells : cells.Nodup) (c : Cell) :
    orderOf (cells.flatMap fun d => (order d).map fun i => (i, d)) c =
      if c ∈ cells then order c else [] := by
  have hcell : ∀ d, orderOf ((order d).map fun i => (i, d)) c = if c = d then order c else [] := by
    intro d
    by_cases hd : c = d
    · subst hd
      simp [orderOf, List.filter_map, Function.comp_def]
    · simp [orderOf, List.filter_map, Function.comp_def, hd, Ne.symm hd]
  induction cells with
  | nil => rfl
  | cons d cells ih =>
    obtain ⟨hd, hrest⟩ := List.nodup_cons.mp hcells
    rw [List.flatMap_cons, orderOf_append, hcell, ih hrest]
    by_cases hc : c = d
    · subst hc
      simp [hd]
    · simp [hc]

variable [Preorder Cell]

omit [DecidableEq ι] in
/-- Of some ascending cells, those from the first of other ascending cells on. -/
theorem filter_of_ascending {own later : List Cell} (hown : own.Pairwise (· < ·))
    (hlater : ∀ d ∈ later, c < d) :
    own.filter (fun d => decide (d ∈ c :: later)) =
      if c ∈ own then c :: own.filter (fun d => decide (d ∈ later))
      else own.filter fun d => decide (d ∈ later) := by
  have hc : c ∉ later := fun hc => lt_irrefl _ (hlater c hc)
  induction own with
  | nil => rfl
  | cons d own ih =>
    obtain ⟨hd, hrest⟩ := List.pairwise_cons.mp hown
    have hsame : c ∉ own → own.filter (fun d => decide (d ∈ c :: later)) =
        own.filter fun d => decide (d ∈ later) := fun hout => by rw [ih hrest, if_neg hout]
    by_cases hdc : d = c
    · subst hdc
      have hout : d ∉ own := fun hmem => lt_irrefl _ (hd d hmem)
      rw [List.filter_cons_of_pos (by simp), hsame hout, if_pos List.mem_cons_self,
        List.filter_cons_of_neg (by simpa using hc)]
    · by_cases hdl : d ∈ later
      · -- this cell comes after `c`, and so do the ones that follow
        have hout : c ∉ own := fun hmem => lt_asymm (hlater d hdl) (hd c hmem)
        rw [List.filter_cons_of_pos (by simp [hdl]), hsame hout,
          if_neg (by simp [Ne.symm hdc, hout]), List.filter_cons_of_pos (by simpa using hdl)]
      · rw [List.filter_cons_of_neg (by simp [hdc, hdl]), ih hrest,
          List.filter_cons_of_neg (by simpa using hdl)]
        simp [Ne.symm hdc]

/-- The threads go through some cells, each in the order chosen for it. -/
theorem exec_flatMap (hthreads : ∀ i, (threads i).cells.Pairwise (· < ·))
    (horder : IsOrder threads order) (hcells : cells.Pairwise (· < ·))
    (hrest : ∀ i, s.rest i = (threads i).cells.filter fun d => decide (d ∈ cells)) :
    ∃ t, exec (State.step threads) s (cells.flatMap order) =
        some (t, cells.flatMap fun d => (order d).map fun i => (i, d)) ∧ ∀ i, t.rest i = [] := by
  induction cells generalizing s with
  | nil => exact ⟨s, rfl, fun i => by rw [hrest]; simp⟩
  | cons c cells ih =>
    obtain ⟨hc, hlater⟩ := List.pairwise_cons.mp hcells
    obtain ⟨u, hu, hurest⟩ := exec_of_next threads (s := s) (c := c)
      (fun i => (threads i).cells.filter fun d => decide (d ∈ cells)) (horder.nodup c) fun i => by
        rw [hrest, filter_of_ascending (hthreads i) hc]
        simp only [horder.mem_iff]
    obtain ⟨t, ht, hdone⟩ := ih hlater fun i => congrFun hurest i
    exact ⟨t, exec_append hu ht, hdone⟩

variable (start) in
/-- **Every choice of orders is that of a run.** The cells are all those that are accessed. -/
theorem exists_exec (hthreads : ∀ i, (threads i).cells.Pairwise (· < ·))
    (horder : IsOrder threads order) (hcells : cells.Pairwise (· < ·))
    (hall : ∀ i, ∀ c ∈ (threads i).cells, c ∈ cells) :
    ∃ as s trace, exec (State.step threads) (State.init threads start) as = some (s, trace) ∧
      (∀ i, s.rest i = []) ∧ Outcome threads start order s.mem s.found := by
  have hstart : ∀ i, (State.init threads start).rest i =
      (threads i).cells.filter fun d => decide (d ∈ cells) := fun i =>
    (List.filter_eq_self.mpr fun c hc => decide_eq_true (hall i c hc)).symm
  obtain ⟨s, hexec, hdone⟩ := exec_flatMap hthreads horder hcells hstart
  have hunaccessed : ∀ c, c ∉ cells → order c = [] := by
    intro c hc
    rw [List.eq_nil_iff_forall_not_mem]
    exact fun i hi => hc (hall i c ((horder.mem_iff c i).mp hi))
  have horders : orderOf (cells.flatMap fun d => (order d).map fun i => (i, d)) = order := by
    funext c
    rw [orderOf_flatMap (hcells.imp ne_of_lt)]
    split
    · rfl
    · rename_i hc
      exact (hunaccessed c hc).symm
  obtain ⟨_, houtcome⟩ := outcome_of_exec (fun i => (hthreads i).imp ne_of_lt) hexec hdone
  rw [horders] at houtcome
  exact ⟨_, s, _, hexec, hdone, houtcome⟩

end Choice

end LinuxDevNote.Accesses
