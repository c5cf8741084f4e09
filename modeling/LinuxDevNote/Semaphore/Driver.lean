import Mathlib.Data.List.Nodup
import LinuxDevNote.Library.Execution
import LinuxDevNote.Library.Semaphore

/-!
# The semaphore driver

`semaphore_drv.c` takes a semaphore in `_read` and releases it in `_write`. Any number of clients
call the two handlers at the same time. A read waits inside `down` until it is let through; then
it logs the count, as a write does after `up`, and other calls may come in between.
-/

namespace LinuxDevNote.Semaphore

open Execution

/-- The number of values of `unsigned int count`. -/
def countModulus : ℕ := 2 ^ 32

/-- The statement a client executes next. -/
inductive Pc
  | idle
  | waiting
  | readLog
  | writeLog (cnt : BitVec 64)

/-- The driver with its clients. -/
structure State (ι : Type*) where
  /-- `sem`. -/
  sem : Sem ι
  /-- The next statement of each client. -/
  pc : ι → Pc

/-- After `sema_init(&sem, 1)` nobody is in a call. -/
def State.init (ι : Type*) : State ι := ⟨⟨1, []⟩, fun _ => .idle⟩

/-- A client calls a handler, or its call takes a step. -/
inductive Label (ι : Type*)
  | read (i : ι)
  | write (i : ι) (cnt : BitVec 64)
  | advance (i : ι)

/-- What is seen: an operation on the semaphore, a client getting through, and a return after the
count was logged. -/
inductive Event (ι : Type*)
  | op (op : Op ι)
  | granted (i : ι)
  | returned (i : ι) (ret : ℤ) (logged : ℕ)
  deriving DecidableEq

variable {ι : Type*} [DecidableEq ι]

/-- A client does an operation and is at some statement then; the client that gets through by it
leaves `down`. -/
def State.operate (s : State ι) (i : ι) (pc : Pc) (op : Op ι) : State ι × List (Event ι) :=
  let done := s.sem.apply countModulus op
  let pcs := Function.update s.pc i pc
  (⟨done.1, fun j => if j ∈ done.2 then .readLog else pcs j⟩,
    .op op :: done.2.toList.map .granted)

/-- One step of the driver. A client issues a call only when it is not in one. -/
def State.step (s : State ι) : Label ι → Option (State ι × List (Event ι))
  | .read i =>
    match s.pc i with
    | .idle => some (s.operate i .waiting (.down i))
    | _ => none
  | .write i cnt =>
    match s.pc i with
    | .idle => some (s.operate i (.writeLog cnt) .up)
    | _ => none
  | .advance i =>
    match s.pc i with
    | .readLog => some ({ s with pc := Function.update s.pc i .idle }, [.returned i 0 s.sem.count])
    | .writeLog cnt =>
      some ({ s with pc := Function.update s.pc i .idle }, [.returned i cnt.toInt s.sem.count])
    | .idle | .waiting => none

/-- The step does not make the count wrap. -/
def State.Fits (s : State ι) : Label ι → Prop
  | .write _ _ => s.sem.Fits countModulus .up
  | .read _ | .advance _ => True

instance (s : State ι) : ∀ a, Decidable (s.Fits a)
  | .write _ _ => inferInstanceAs (Decidable (s.sem.Fits countModulus .up))
  | .read _ | .advance _ => isTrue trivial

/-- The operations of a trace. -/
def ops (trace : List (Event ι)) : List (Op ι) :=
  trace.filterMap fun
    | .op op => some op
    | _ => none

/-- The clients that got through, in order. -/
def grants (trace : List (Event ι)) : List ι :=
  trace.filterMap fun
    | .granted i => some i
    | _ => none

/-- What the calls of a client have returned, in order. -/
def returns (i : ι) (trace : List (Event ι)) : List ℤ :=
  trace.filterMap fun
    | .returned j ret _ => if j = i then some ret else none
    | _ => none

/-- What a call of the client is to return: nothing for a read, and `cnt` for a write. -/
def Label.result (i : ι) : Label ι → Option ℤ
  | .read j => if j = i then some 0 else none
  | .write j cnt => if j = i then some cnt.toInt else none
  | .advance _ => none

/-- What the call that a client is in is to return. -/
def Pc.pending : Pc → List ℤ
  | .idle => []
  | .waiting | .readLog => [0]
  | .writeLog cnt => [cnt.toInt]

variable {s t : State ι} {a : Label ι} {labels : List (Label ι)} {trace es : List (Event ι)}

omit [DecidableEq ι] in
/-- The operations of two parts. -/
theorem ops_append : ops (trace ++ es) = ops trace ++ ops es := List.filterMap_append

omit [DecidableEq ι] in
/-- The clients that got through in two parts. -/
theorem grants_append : grants (trace ++ es) = grants trace ++ grants es := List.filterMap_append

omit [DecidableEq ι] in
/-- What an operation shows. -/
theorem ops_operation (op : Op ι) (i : Option ι) :
    ops (.op op :: i.toList.map Event.granted) = [op] ∧
      grants (.op op :: i.toList.map Event.granted) = i.toList := by
  cases i <;> exact ⟨rfl, rfl⟩

/-- The operation that a call of a client starts with, and the statement that the client is at
then, unless it gets through. -/
inductive Starts (i : ι) : Op ι → Pc → Prop
  | read : Starts i (.down i) .waiting
  | write (cnt : BitVec 64) : Starts i .up (.writeLog cnt)

/-- A step is an operation of a client that was in no call, or the return of a call. -/
theorem State.step_cases (h : s.step a = some (t, es)) :
    (∃ i pc op, s.pc i = .idle ∧ Starts i op pc ∧ (s.Fits a ↔ s.sem.Fits countModulus op) ∧
        s.operate i pc op = (t, es)) ∨
      ∃ i ret, s.pc i ≠ .idle ∧ s.pc i ≠ .waiting ∧
        t = { s with pc := Function.update s.pc i .idle } ∧
        es = [.returned i ret s.sem.count] := by
  cases a with
  | read i =>
    cases hpc : s.pc i <;> simp only [State.step, hpc, reduceCtorEq, Option.some.injEq] at h
    exact Or.inl ⟨i, _, _, hpc, .read, Iff.rfl, h⟩
  | write i cnt =>
    cases hpc : s.pc i <;> simp only [State.step, hpc, reduceCtorEq, Option.some.injEq] at h
    exact Or.inl ⟨i, _, _, hpc, .write cnt, Iff.rfl, h⟩
  | advance i =>
    cases hpc : s.pc i with
    | idle | waiting => simp [State.step, hpc] at h
    | readLog | writeLog cnt =>
      simp only [State.step, hpc, Option.some.injEq, Prod.mk.injEq] at h
      obtain ⟨rfl, rfl⟩ := h
      exact Or.inr ⟨i, _, by simp [hpc], by simp [hpc], rfl, rfl⟩

/-- Who waits. -/
structure Queued (s : State ι) : Prop where
  /-- The clients inside `down` are those that wait. -/
  waiting : ∀ i, s.pc i = .waiting ↔ i ∈ s.sem.waiting
  /-- Nobody waits twice. -/
  nodup : s.sem.waiting.Nodup

omit [DecidableEq ι] in
/-- Nobody has called anything. -/
theorem queued_init : Queued (State.init ι) :=
  ⟨fun i => by simp [State.init], List.nodup_nil⟩

/-- After an operation the clients inside `down` are again those that wait, once each. -/
theorem queued_operate {i : ι} {pc : Pc} {op : Op ι} (hidle : s.pc i = .idle)
    (hop : Starts i op pc) (h : Queued s) : Queued (s.operate i pc op).1 := by
  obtain ⟨hwaiting, hnodup⟩ := h
  have hfresh : i ∉ s.sem.waiting := fun hmem => by
    have hin := (hwaiting i).mpr hmem
    rw [hidle] at hin
    cases hin
  cases hop with
  | read =>
    by_cases hpos : 0 < s.sem.count
    · simp only [State.operate, Sem.apply, if_pos hpos]
      refine ⟨fun j => ?_, hnodup⟩
      by_cases hj : j = i
      · subst hj
        simpa using hfresh
      · dsimp only
        rw [if_neg (by simpa using Ne.symm hj), Function.update_of_ne hj]
        exact hwaiting j
    · simp only [State.operate, Sem.apply, if_neg hpos]
      refine ⟨fun j => ?_, List.concat_eq_append ▸ hnodup.concat hfresh⟩
      by_cases hj : j = i
      · subst hj
        simp
      · dsimp only
        rw [if_neg (by simp), Function.update_of_ne hj, hwaiting j]
        simp [hj]
  | write cnt =>
    cases hqueue : s.sem.waiting with
    | nil =>
      simp only [State.operate, Sem.apply, hqueue]
      refine ⟨fun j => ?_, List.nodup_nil⟩
      by_cases hj : j = i
      · subst hj
        simp
      · dsimp only
        rw [if_neg (by simp), Function.update_of_ne hj, hwaiting j, hqueue]
    | cons first rest =>
      simp only [State.operate, Sem.apply, hqueue]
      rw [hqueue] at hnodup hfresh
      obtain ⟨hfirst, hrest⟩ := List.nodup_cons.mp hnodup
      refine ⟨fun j => ?_, hrest⟩
      by_cases hj : j = first
      · subst hj
        simpa using hfirst
      · dsimp only
        rw [if_neg (by simpa using Ne.symm hj)]
        by_cases hji : j = i
        · subst hji
          simpa using fun hmem => hfresh (List.mem_cons_of_mem _ hmem)
        · rw [Function.update_of_ne hji, hwaiting j, hqueue]
          simp [hj]

/-- A step keeps that the clients inside `down` are those that wait. -/
theorem Queued.step (h : Queued s) (hstep : s.step a = some (t, es)) : Queued t := by
  rcases State.step_cases hstep with
    ⟨i, pc, op, hidle, hop, -, hoperate⟩ | ⟨i, ret, hi, hi', rfl, rfl⟩
  · obtain ⟨rfl, rfl⟩ := Prod.mk.inj hoperate
    exact queued_operate hidle hop h
  · refine ⟨fun j => ?_, h.nodup⟩
    dsimp only
    rw [← h.waiting j]
    by_cases hj : j = i
    · subst hj
      simp [hi']
    · rw [Function.update_of_ne hj]

/-- A step that does not make the count wrap goes on from what the operations have led to. -/
theorem served_step (h : Served countModulus 1 (ops trace) (grants trace) s.sem)
    (hfits : s.Fits a) (hstep : s.step a = some (t, es)) :
    Served countModulus 1 (ops (trace ++ es)) (grants (trace ++ es)) t.sem := by
  rw [ops_append, grants_append]
  rcases State.step_cases hstep with
    ⟨i, pc, op, hidle, hop, hiff, hoperate⟩ | ⟨i, ret, hi, hi', rfl, rfl⟩
  · obtain ⟨rfl, rfl⟩ := Prod.mk.inj hoperate
    obtain ⟨hops, hgrants⟩ := ops_operation op (s.sem.apply countModulus op).2
    rw [hops, hgrants]
    exact h.apply (hiff.mp hfits)
  · simpa [ops, grants] using h

/-- After an operation its client is in the call, and the others are in the calls they were in. -/
theorem pending_operate {i : ι} {pc : Pc} {op : Op ι} (hidle : s.pc i = .idle)
    (hop : Starts i op pc) (h : Queued s) (j : ι) :
    ((s.operate i pc op).1.pc j).pending = if j = i then pc.pending else (s.pc j).pending := by
  dsimp only [State.operate]
  by_cases hthrough : j ∈ (s.sem.apply countModulus op).2
  · rw [if_pos hthrough]
    cases hop with
    | read =>
      rw [if_pos (Sem.eq_of_down hthrough)]
      rfl
    | write cnt =>
      have hwaits := (h.waiting j).mpr (Sem.mem_waiting_of_up hthrough)
      have hj : j ≠ i := by
        rintro rfl
        rw [hidle] at hwaits
        cases hwaits
      rw [if_neg hj, hwaits]
      rfl
  · rw [if_neg hthrough]
    by_cases hj : j = i
    · subst hj
      simp
    · rw [Function.update_of_ne hj, if_neg hj]

/-- An operation returns nothing, and is the start of a call of its client. -/
theorem returns_operate {i : ι} {pc : Pc} {op : Op ι} (hidle : s.pc i = .idle)
    (hop : Starts i op pc) (h : Queued s) (j : ι) :
    returns j (s.operate i pc op).2 ++ ((s.operate i pc op).1.pc j).pending =
      (s.pc j).pending ++ if i = j then pc.pending else [] := by
  have hnone : returns j (s.operate i pc op).2 = [] := by
    dsimp only [State.operate]
    cases (s.sem.apply countModulus op).2 <;> rfl
  rw [hnone, List.nil_append, pending_operate hidle hop h]
  by_cases hj : j = i
  · subst hj
    simp [hidle, Pc.pending]
  · simp [hj, Ne.symm hj]

/-- By a step a client returns what its call is to return, or calls, or goes on with its call. -/
theorem returns_step (h : Queued s) (hstep : s.step a = some (t, es)) (j : ι) :
    returns j es ++ (t.pc j).pending = (s.pc j).pending ++ (a.result j).toList := by
  cases a with
  | read i =>
    cases hpc : s.pc i <;> simp only [State.step, hpc, reduceCtorEq, Option.some.injEq] at hstep
    have hcall := returns_operate hpc .read h j
    rw [hstep] at hcall
    rw [hcall, Label.result]
    split <;> rfl
  | write i cnt =>
    cases hpc : s.pc i <;> simp only [State.step, hpc, reduceCtorEq, Option.some.injEq] at hstep
    have hcall := returns_operate hpc (.write cnt) h j
    rw [hstep] at hcall
    rw [hcall, Label.result]
    split <;> rfl
  | advance i =>
    cases hpc : s.pc i <;>
      simp only [State.step, hpc, reduceCtorEq, Option.some.injEq, Prod.mk.injEq] at hstep
    all_goals
      obtain ⟨rfl, rfl⟩ := hstep
      by_cases hj : j = i
      · subst hj
        simp [returns, Pc.pending, Label.result, hpc]
      · simp [returns, Label.result, hj, Ne.symm hj]

/-- What the calls of a client have returned, and its call is to return, are what its calls are to
return. -/
theorem returns_eq (hexec : exec State.step (State.init ι) labels = some (s, trace)) :
    Queued s ∧ ∀ i, returns i trace ++ (s.pc i).pending = labels.filterMap (Label.result i) := by
  refine exec_invariant (I := fun labels s trace => Queued s ∧
    ∀ i, returns i trace ++ (s.pc i).pending = labels.filterMap (Label.result i)) hexec
    ⟨queued_init, fun i => rfl⟩ ?_
  rintro labels s t a trace es ⟨hqueued, hreturns⟩ hstep
  refine ⟨hqueued.step hstep, fun i => ?_⟩
  have hlabel : [a].filterMap (Label.result i) = (a.result i).toList := by
    cases hresult : a.result i <;> simp [hresult]
  calc returns i (trace ++ es) ++ (t.pc i).pending
      = returns i trace ++ (returns i es ++ (t.pc i).pending) := by
        rw [returns, List.filterMap_append, List.append_assoc, ← returns, ← returns]
    _ = returns i trace ++ (s.pc i).pending ++ (a.result i).toList := by
        rw [returns_step hqueued hstep, List.append_assoc]
    _ = (labels ++ [a]).filterMap (Label.result i) := by
        rw [hreturns, List.filterMap_append, hlabel]

/-- **First come, first served.** As long as no write makes the count wrap, the reads that got
through are the first that were called, one more than there were writes; the others wait in `down`,
and the count is what is left. Each call returns once, in the order of the calls of its client, a
read 0 and a write its `cnt`. -/
theorem reads_in_order (hmeets : Meets State.step State.Fits (State.init ι) labels)
    (hexec : exec State.step (State.init ι) labels = some (s, trace)) :
    grants trace = (downs (ops trace)).take (1 + ups (ops trace)) ∧
      (∀ i, s.pc i = .waiting ↔ i ∈ (downs (ops trace)).drop (1 + ups (ops trace))) ∧
      s.sem.count = 1 + ups (ops trace) - (downs (ops trace)).length ∧
      ∀ i, returns i trace ++ (s.pc i).pending = labels.filterMap (Label.result i) := by
  have hserved : Served countModulus 1 (ops trace) (grants trace) s.sem :=
    (run_of_exec hmeets hexec).invariant
      (I := fun s trace => Served countModulus 1 (ops trace) (grants trace) s.sem)
      (served_init _ _) served_step
  obtain ⟨hqueued, hreturns⟩ := returns_eq hexec
  obtain ⟨hgrants, hqueue, hcount⟩ := hserved.closed_form
  exact ⟨hgrants, fun i => by rw [hqueued.waiting, hqueue], hcount, hreturns⟩

/-- Two reads are called before a write: the first got through at once, the second waits for the
write. -/
theorem reads_in_order_run :
    ∃ s trace, exec State.step (State.init Bool) [.read true, .read false, .advance true,
        .write true 4] = some (s, trace) ∧ grants trace = [true, false] ∧ s.sem.count = 0 := by
  obtain ⟨⟨s, trace⟩, hexec, hops⟩ := Option.map_eq_some_iff.mp
    (show (exec State.step (State.init Bool) [.read true, .read false, .advance true,
      .write true 4]).map (fun p => ops p.2) = some [.down true, .down false, .up]
      by decide +kernel)
  dsimp only at hops
  obtain ⟨hgrants, _, hcount, _⟩ := reads_in_order (by decide +kernel) hexec
  rw [hops] at hgrants hcount
  exact ⟨s, trace, hexec, hgrants, hcount⟩

/-- What `readme` shows: two writes, two reads and three writes, with the counts they logged. -/
example : (exec State.step (State.init Unit)
    [.write () 4, .advance (), .write () 4, .advance (), .read (), .advance (), .read (),
      .advance (), .write () 4, .advance (), .write () 4, .advance (), .write () 4,
      .advance ()]).map (fun p => p.2.filterMap fun
        | .returned _ _ logged => some logged
        | _ => none) = some [2, 3, 2, 1, 2, 3, 4] := by
  decide +kernel

end LinuxDevNote.Semaphore
