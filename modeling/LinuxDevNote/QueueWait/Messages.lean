import LinuxDevNote.Library.Mailbox
import LinuxDevNote.QueueWait.Interleaving

/-!
# Conservation of messages

What the queue-wait driver is for: a mailbox that hands each message to one read.
The ledger of a trace follows `havedata`: raising it puts the message of a write,
lowering it takes what was pending. `Conserved` asks that every message has one
fate, and that the reads return exactly what they took.
-/

namespace LinuxDevNote.QueueWait

open Memory Kernel Mailbox

variable {ι : Type*}

/-- The message of a write: the bytes it supplies. -/
def message (calls : ι → Op) (w : ι) : List UInt8 := readable (calls w).source (calls w).size

/-- The move of the mailbox that an event is. -/
def Event.moves : Event ι → List (Move ι)
  | .published w => [.put w]
  | .cleared r => [.take r]
  | _ => []

/-- The mailbox after a trace. -/
def mailbox (trace : List (Event ι)) : Ledger ι := ledger (trace.flatMap Event.moves)

/-- Read `r` returns the message of write `w`: it took it, it returns its length,
and its bytes arrived as far as they were asked for. -/
structure Delivers (calls : ι → Op) (trace : List (Event ι)) (r w : ι) (ret : ℤ)
    (out : List UInt8) : Prop where
  /-- The read took the message. -/
  taken : (r, w) ∈ (mailbox trace).taken
  /-- It returns the length of the message. -/
  length : ret = (message calls w).length
  /-- The bytes are those of the message. -/
  bytes : out.take (message calls w).length = (message calls w).take (calls r).size

/-- No message is lost, delivered twice or mixed with another. -/
structure Conserved (calls : ι → Op) (trace : List (Event ι)) : Prop where
  /-- Every published message is pending, overwritten, or taken by one read. -/
  accounted : ∀ w, .published w ∈ trace → (mailbox trace).Accounted w
  /-- Every read that returns data returns one published message, which it took. -/
  delivered : ∀ r ret out, .delivered r ret out ∈ trace →
    ∃ w, .published w ∈ trace ∧ Delivers calls trace r w ret out
  /-- A read that took a message does not fail. -/
  unerased : ∀ r w ret, (r, w) ∈ (mailbox trace).taken → .failed r ret ∉ trace
  /-- A read takes one message. -/
  taken_once : ∀ r w w', (r, w) ∈ (mailbox trace).taken → (r, w') ∈ (mailbox trace).taken → w = w'

/-- A call that has shown nothing yet. -/
def Fresh (trace : List (Event ι)) (i : ι) : Prop := ∀ e ∈ trace, e.caller ≠ i

/-- The moves of a trace are those of its publications and clears. -/
theorem mem_moves {trace : List (Event ι)} {i : ι} :
    (.put i ∈ trace.flatMap Event.moves ↔ .published i ∈ trace) ∧
      (.take i ∈ trace.flatMap Event.moves ↔ .cleared i ∈ trace) := by
  simp only [List.mem_flatMap]
  constructor
  all_goals
    constructor
    · rintro ⟨e, he, hmove⟩
      cases e <;> simp_all [Event.moves]
    · exact fun h => ⟨_, h, by simp [Event.moves]⟩

/-- Taken messages were published, and cleared by their takers. -/
theorem events_of_taken {trace : List (Event ι)} {r w : ι} (h : (r, w) ∈ (mailbox trace).taken) :
    .cleared r ∈ trace ∧ .published w ∈ trace :=
  (moves_of_taken h).imp mem_moves.2.mp mem_moves.1.mp

/-- A call that has shown nothing took nothing. -/
theorem Fresh.not_taken {trace : List (Event ι)} {i : ι} (h : Fresh trace i) (w : ι) :
    (i, w) ∉ (mailbox trace).taken :=
  fun htaken => h _ (events_of_taken htaken).1 rfl

/-- Events of other calls show nothing of this one. -/
theorem Fresh.append {trace es : List (Event ι)} {i : ι} (h : Fresh trace i)
    (hes : ∀ e ∈ es, e.caller ≠ i) : Fresh (trace ++ es) i := by
  intro e he
  rcases List.mem_append.mp he with hold | hnew
  · exact h e hold
  · exact hes e hnew

/-- What was taken stays taken. -/
theorem taken_append {trace es : List (Event ι)} :
    (mailbox trace).taken ⊆ (mailbox (trace ++ es)).taken := by
  rw [mailbox, mailbox, List.flatMap_append]
  exact taken_subset_append

/-- What was delivered stays delivered. -/
theorem Delivers.append {calls : ι → Op} {trace es : List (Event ι)} {r w : ι} {ret : ℤ}
    {out : List UInt8} (h : Delivers calls trace r w ret out) :
    Delivers calls (trace ++ es) r w ret out :=
  ⟨taken_append h.taken, h.length, h.bytes⟩

/-- A publication puts the message of its write. -/
@[simp] theorem mailbox_published (trace : List (Event ι)) (w : ι) :
    mailbox (trace ++ [.published w]) = (mailbox trace).record (.put w) := by
  rw [mailbox, List.flatMap_append]
  exact ledger_append_singleton _ _

/-- A clear takes what was pending. -/
@[simp] theorem mailbox_cleared (trace : List (Event ι)) (r : ι) :
    mailbox (trace ++ [.cleared r]) = (mailbox trace).record (.take r) := by
  rw [mailbox, List.flatMap_append]
  exact ledger_append_singleton _ _

/-- The other events leave the mailbox alone. -/
theorem mailbox_of_moves_nil (trace : List (Event ι)) {e : Event ι} (he : e.moves = []) :
    mailbox (trace ++ [e]) = mailbox trace := by
  rw [mailbox, List.flatMap_append, List.flatMap_singleton, he, List.append_nil, mailbox]

/-- What a trace must satisfy while calls are in progress: `Conserved`, with the
cause of `accounted` in its place. -/
structure Recorded (calls : ι → Op) (trace : List (Event ι)) : Prop where
  /-- No write publishes twice. -/
  nodup : (puts (trace.flatMap Event.moves)).Nodup
  /-- Every read that returned data took the message it returned. -/
  delivered : ∀ r ret out, .delivered r ret out ∈ trace → ∃ w, Delivers calls trace r w ret out
  /-- A read that took a message does not fail. -/
  unerased : ∀ r w ret, (r, w) ∈ (mailbox trace).taken → .failed r ret ∉ trace
  /-- A read takes one message. -/
  taken_once : ∀ r w w', (r, w) ∈ (mailbox trace).taken → (r, w') ∈ (mailbox trace).taken → w = w'

/-- A recorded trace conserves its messages. -/
theorem Recorded.conserved {calls : ι → Op} {trace : List (Event ι)} (h : Recorded calls trace) :
    Conserved calls trace where
  accounted w hw := accounted_of_nodup h.nodup (mem_puts.mpr (mem_moves.1.mpr hw))
  delivered r ret out hr := by
    obtain ⟨w, hw⟩ := h.delivered r ret out hr
    exact ⟨w, (events_of_taken hw.taken).2, hw⟩
  unerased := h.unerased
  taken_once := h.taken_once

/-- An event that moves nothing is recorded when a return of data is justified and
a failure is of a read that took nothing. -/
theorem Recorded.append_of_moves_nil {calls : ι → Op} {trace : List (Event ι)} {e : Event ι}
    (h : Recorded calls trace) (he : e.moves = [])
    (hdelivered : ∀ r ret out, e = .delivered r ret out → ∃ w, Delivers calls trace r w ret out)
    (hfailed : ∀ r ret, e = .failed r ret → Fresh trace r) : Recorded calls (trace ++ [e]) := by
  have hmailbox := mailbox_of_moves_nil trace he
  refine ⟨?_, fun r ret out hr => ?_, fun r w ret htaken hr => ?_, ?_⟩
  · rw [List.flatMap_append, List.flatMap_singleton, he, List.append_nil]
    exact h.nodup
  · rcases List.mem_append.mp hr with hold | hnew
    · exact (h.delivered r ret out hold).imp fun w hw => hw.append
    · exact (hdelivered r ret out (List.mem_singleton.mp hnew).symm).imp fun w hw => hw.append
  · rw [hmailbox] at htaken
    rcases List.mem_append.mp hr with hold | hnew
    · exact h.unerased r w ret htaken hold
    · exact (hfailed r ret (List.mem_singleton.mp hnew).symm).not_taken w htaken
  · rw [hmailbox]
    exact h.taken_once

/-- The publication of a fresh write is recorded. -/
theorem Recorded.published {calls : ι → Op} {trace : List (Event ι)} {i : ι}
    (h : Recorded calls trace) (hfresh : Fresh trace i) :
    Recorded calls (trace ++ [.published i]) := by
  have hnew : i ∉ puts (trace.flatMap Event.moves) := by
    rw [mem_puts, mem_moves.1]
    exact fun hi => hfresh _ hi rfl
  refine ⟨?_, fun r ret out hr => ?_, fun r w ret htaken hr => ?_, ?_⟩
  · rw [List.flatMap_append, puts_append]
    change (puts (trace.flatMap Event.moves) ++ [i]).Nodup
    rw [← List.concat_eq_append]
    exact h.nodup.concat hnew
  · exact (h.delivered r ret out (by simpa using hr)).imp fun w hw => hw.append
  · exact h.unerased r w ret (by simpa [Ledger.record] using htaken) (by simpa using hr)
  · simpa [Ledger.record] using h.taken_once

/-- The clear of a fresh read is recorded. -/
theorem Recorded.cleared {calls : ι → Op} {trace : List (Event ι)} {i : ι}
    (h : Recorded calls trace) (hfresh : Fresh trace i) :
    Recorded calls (trace ++ [.cleared i]) := by
  have htaken : ∀ {r w}, (r, w) ∈ (mailbox (trace ++ [.cleared i])).taken →
      (r, w) ∈ (mailbox trace).taken ∨ r = i ∧ (mailbox trace).pending = some w := by
    intro r w hrw
    rw [mailbox_cleared] at hrw
    rcases List.mem_append.mp hrw with hold | hnew
    · exact Or.inl hold
    · obtain ⟨v, hv, hpair⟩ := List.mem_map.mp hnew
      obtain ⟨rfl, rfl⟩ := Prod.mk.inj hpair
      exact Or.inr ⟨rfl, Option.mem_toList.mp hv⟩
  refine ⟨?_, fun r ret out hr => ?_, fun r w ret hrw hr => ?_, fun r w w' hw hw' => ?_⟩
  · rw [List.flatMap_append, puts_append]
    simpa [Event.moves, puts] using h.nodup
  · exact (h.delivered r ret out (by simpa using hr)).imp fun w hw => hw.append
  · have hr' : .failed r ret ∈ trace := by simpa using hr
    rcases htaken hrw with hold | ⟨rfl, _⟩
    · exact h.unerased r w ret hold hr'
    · exact hfresh _ hr' rfl
  · rcases htaken hw with hold | ⟨rfl, hpending⟩
    · rcases htaken hw' with hold' | ⟨rfl, _⟩
      · exact h.taken_once r w w' hold hold'
      · exact absurd hold (hfresh.not_taken w)
    · rcases htaken hw' with hold' | ⟨_, hpending'⟩
      · exact absurd hold' (hfresh.not_taken w')
      · exact Option.some.inj (hpending.symm.trans hpending')

end LinuxDevNote.QueueWait
