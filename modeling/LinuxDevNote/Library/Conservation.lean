import Mathlib.Data.List.Basic

/-!
# Conservation of a stream

Events put items into a queue and take items out of it. A trace conserves the
stream when the items accepted are those delivered followed by those still queued.
First-in first-out order, and that no item is lost, repeated or invented, follow
from this one equation. The items and events are arbitrary.
-/

namespace LinuxDevNote.Conservation

variable {Item Event : Type*} {accepted delivered : Event → List Item} {trace es : List Event}
  {queued queued' : List Item}

/-- The items accepted over a trace are those delivered, in order, and then those
still queued. -/
def Conserved (accepted delivered : Event → List Item) (trace : List Event)
    (queued : List Item) : Prop :=
  trace.flatMap accepted = trace.flatMap delivered ++ queued

/-- Before any event the queue is empty. -/
theorem conserved_nil : Conserved accepted delivered [] [] := rfl

/-- Events that move items between the queue and the outside keep a trace
conserved. -/
theorem Conserved.append (h : Conserved accepted delivered trace queued)
    (hmove : queued ++ es.flatMap accepted = es.flatMap delivered ++ queued') :
    Conserved accepted delivered (trace ++ es) queued' := by
  unfold Conserved at *
  rw [List.flatMap_append, List.flatMap_append, h, List.append_assoc, hmove, List.append_assoc]

/-- What was delivered is an initial part of what was accepted. -/
theorem Conserved.delivered_prefix (h : Conserved accepted delivered trace queued) :
    trace.flatMap delivered <+: trace.flatMap accepted :=
  ⟨queued, h.symm⟩

/-- With nothing queued, exactly what was accepted has been delivered. -/
theorem Conserved.delivered_eq (h : Conserved accepted delivered trace []) :
    trace.flatMap delivered = trace.flatMap accepted := by
  rw [h, List.append_nil]

end LinuxDevNote.Conservation
