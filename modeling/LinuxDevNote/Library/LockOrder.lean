import Mathlib.Data.List.Basic

/-!
# Serial replay in lock order

A trace of a concurrent system records, among other events, each acquisition of
a lock together with the operation it protects. Replaying the operations one
after another in the order of the acquisitions gives the serial execution that
the concurrent one is compared with. The events are arbitrary; a partial
function picks out the acquisitions.
-/

namespace LinuxDevNote.LockOrder

variable {Event Client Operation Data : Type*}

/-- The operations protected by the lock, in the order it was acquired. -/
def acquisitions (acquired : Event → Option (Client × Operation)) (trace : List Event) :
    List (Client × Operation) := trace.filterMap acquired

/-- The data after the operations of a trace ran one by one in lock order. -/
def replay (acquired : Event → Option (Client × Operation)) (apply : Operation → Data → Data)
    (start : Data) (trace : List Event) : Data :=
  (acquisitions acquired trace).foldl (fun data op => apply op.2 data) start

/-- The last acquisition of `i` in the trace follows the events `before` and
protects the operation `op`. -/
def LastAcquired (acquired : Event → Option (Client × Operation)) (trace : List Event)
    (i : Client) (before : List Event) (op : Operation) : Prop :=
  ∃ e after, trace = before ++ e :: after ∧ acquired e = some (i, op) ∧
    ∀ e' ∈ after, ∀ op', acquired e' ≠ some (i, op')

variable {acquired : Event → Option (Client × Operation)} {apply : Operation → Data → Data}
  {start : Data} {trace es before : List Event} {i : Client} {op : Operation} {e : Event}

/-- Events without an acquisition do not change the replayed data. -/
theorem replay_append_of_none (h : ∀ e ∈ es, acquired e = none) :
    replay acquired apply start (trace ++ es) = replay acquired apply start trace := by
  have hnone : es.filterMap acquired = [] := List.filterMap_eq_nil_iff.mpr h
  simp [replay, acquisitions, List.filterMap_append, hnone]

/-- An acquisition applies its operation to the replayed data. -/
theorem replay_append_acquired (h : acquired e = some (i, op)) :
    replay acquired apply start (trace ++ [e]) =
      apply op (replay acquired apply start trace) := by
  simp [replay, acquisitions, List.filterMap_append, h]

/-- The acquisition just recorded is the last one of its client. -/
theorem lastAcquired_append (h : acquired e = some (i, op)) :
    LastAcquired acquired (trace ++ [e]) i trace op :=
  ⟨e, [], rfl, h, by simp⟩

/-- Events without an acquisition of `i` keep its last acquisition. -/
theorem LastAcquired.append (h : LastAcquired acquired trace i before op)
    (hes : ∀ e ∈ es, ∀ op', acquired e ≠ some (i, op')) :
    LastAcquired acquired (trace ++ es) i before op := by
  obtain ⟨e, after, rfl, he, hafter⟩ := h
  refine ⟨e, after ++ es, by simp, he, ?_⟩
  intro e' he'
  rcases List.mem_append.mp he' with h | h
  · exact hafter e' h
  · exact hes e' h

end LinuxDevNote.LockOrder
