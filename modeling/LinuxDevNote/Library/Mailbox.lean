import Mathlib.Data.List.Induction
import Mathlib.Data.List.Nodup

/-!
# A mailbox for one message

A put stores a message and overwrites the one that was there; a take removes it.
The ledger keeps the fate of every message: pending, taken by whom, or
overwritten. When no message is put twice, each has exactly one fate. Senders and
takers are of an arbitrary type.
-/

namespace LinuxDevNote.Mailbox

variable {ι : Type*}

/-- What can happen to the mailbox. -/
inductive Move (ι : Type*)
  | put (w : ι)
  | take (r : ι)

/-- The fates of the messages put so far, each named by its sender. -/
structure Ledger (ι : Type*) where
  /-- The message in the mailbox. -/
  pending : Option ι
  /-- The takers, each with the message it found. -/
  taken : List (ι × ι)
  /-- The messages replaced by a later one. -/
  overwritten : List ι

/-- The ledger of an empty mailbox. -/
def Ledger.empty : Ledger ι := ⟨none, [], []⟩

/-- Record one move. A take from an empty mailbox finds nothing. -/
def Ledger.record (l : Ledger ι) : Move ι → Ledger ι
  | .put w => ⟨some w, l.taken, l.overwritten ++ l.pending.toList⟩
  | .take r => ⟨none, l.taken ++ l.pending.toList.map fun w => (r, w), l.overwritten⟩

/-- The ledger after some moves. -/
def ledger (moves : List (Move ι)) : Ledger ι := moves.foldl Ledger.record Ledger.empty

/-- The messages that were put. -/
def puts (moves : List (Move ι)) : List ι :=
  moves.flatMap fun
    | .put w => [w]
    | .take _ => []

/-- All messages with a recorded fate. -/
def Ledger.messages (l : Ledger ι) : List ι :=
  l.pending.toList ++ l.overwritten ++ l.taken.map Prod.snd

/-- A message has exactly one of the three fates, and at most one taker. -/
structure Ledger.Accounted (l : Ledger ι) (w : ι) : Prop where
  /-- It is pending, overwritten or taken. -/
  fate : l.pending = some w ∨ w ∈ l.overwritten ∨ ∃ r, (r, w) ∈ l.taken
  /-- A pending message is neither overwritten nor taken. -/
  pending_only : l.pending = some w → w ∉ l.overwritten ∧ ∀ r, (r, w) ∉ l.taken
  /-- An overwritten message is not taken. -/
  overwritten_only : w ∈ l.overwritten → ∀ r, (r, w) ∉ l.taken
  /-- Only one taker has it. -/
  taker_unique : ∀ r r', (r, w) ∈ l.taken → (r', w) ∈ l.taken → r = r'

/-- One more move. -/
@[simp] theorem ledger_append_singleton (moves : List (Move ι)) (m : Move ι) :
    ledger (moves ++ [m]) = (ledger moves).record m := by
  simp [ledger]

/-- Further moves are put after the earlier ones. -/
theorem puts_append (moves moves' : List (Move ι)) :
    puts (moves ++ moves') = puts moves ++ puts moves' :=
  List.flatMap_append

/-- A put message is named by a put. -/
theorem mem_puts {moves : List (Move ι)} {w : ι} : w ∈ puts moves ↔ .put w ∈ moves := by
  simp only [puts, List.mem_flatMap]
  constructor
  · rintro ⟨m, hm, hw⟩
    cases m with
    | put v => simpa [List.mem_singleton.mp hw] using hm
    | take r => cases hw
  · exact fun h => ⟨_, h, List.mem_singleton_self w⟩

/-- Each move keeps every message put in the ledger once. -/
theorem messages_perm_puts (moves : List (Move ι)) :
    (ledger moves).messages.Perm (puts moves) := by
  induction moves using List.reverseRecOn with
  | nil => rfl
  | append_singleton moves m ih =>
    rw [ledger_append_singleton, puts_append]
    cases m with
    | put w =>
      have hswap : ((ledger moves).overwritten ++ (ledger moves).pending.toList).Perm
          ((ledger moves).pending.toList ++ (ledger moves).overwritten) := List.perm_append_comm
      have hrest := (hswap.append_right ((ledger moves).taken.map Prod.snd)).trans ih
      simp only [Ledger.messages, Ledger.record, Option.toList_some, List.append_assoc [w]]
      exact List.perm_append_comm.trans (hrest.append_right [w])
    | take r =>
      have hlast : (ledger moves).overwritten ++ ((ledger moves).taken.map Prod.snd ++
          (ledger moves).pending.toList) = ((ledger moves).overwritten ++
            (ledger moves).taken.map Prod.snd) ++ (ledger moves).pending.toList :=
        (List.append_assoc _ _ _).symm
      rw [show puts [Move.take r] = [] from rfl, List.append_nil]
      refine List.Perm.trans ?_ ih
      simp only [Ledger.messages, Ledger.record, Option.toList_none, List.nil_append,
        List.map_append, List.map_map, Function.comp_def, List.map_id']
      rw [hlast, List.append_assoc (ledger moves).pending.toList]
      exact List.perm_append_comm

/-- A taker took, and what it found had been put. -/
theorem moves_of_taken {moves : List (Move ι)} {r w : ι} (h : (r, w) ∈ (ledger moves).taken) :
    .take r ∈ moves ∧ .put w ∈ moves := by
  have hput : w ∈ puts moves := by
    refine (messages_perm_puts moves).mem_iff.mp (List.mem_append_right _ ?_)
    exact List.mem_map_of_mem h
  refine ⟨?_, mem_puts.mp hput⟩
  clear hput
  induction moves using List.reverseRecOn with
  | nil => cases h
  | append_singleton moves m ih =>
    rw [ledger_append_singleton] at h
    cases m with
    | put v => exact List.mem_append_left _ (ih h)
    | take q =>
      rcases List.mem_append.mp h with hold | hnew
      · exact List.mem_append_left _ (ih hold)
      · obtain ⟨v, _, hpair⟩ := List.mem_map.mp hnew
        obtain ⟨rfl, _⟩ := Prod.mk.inj hpair
        simp

/-- Takers keep what they took. -/
theorem taken_subset_append {moves moves' : List (Move ι)} :
    (ledger moves).taken ⊆ (ledger (moves ++ moves')).taken := by
  induction moves' using List.reverseRecOn with
  | nil => simp
  | append_singleton moves' m ih =>
    rw [← List.append_assoc, ledger_append_singleton]
    cases m with
    | put w => exact ih
    | take r => exact List.subset_append_of_subset_left _ ih

/-- When no message is put twice, every message put has exactly one fate. -/
theorem accounted_of_nodup {moves : List (Move ι)} (hnodup : (puts moves).Nodup) {w : ι}
    (hw : w ∈ puts moves) : (ledger moves).Accounted w := by
  have hperm := messages_perm_puts moves
  have hmessages : (ledger moves).messages.Nodup := hperm.nodup_iff.mpr hnodup
  have hmem : w ∈ (ledger moves).messages := hperm.mem_iff.mpr hw
  simp only [Ledger.messages, List.append_assoc, List.mem_append, Option.mem_toList,
    List.mem_map, Prod.exists, exists_eq_right] at hmem
  unfold Ledger.messages at hmessages
  obtain ⟨hfirst, htaken, hdisjoint⟩ := List.nodup_append.mp hmessages
  obtain ⟨_, _, hpending⟩ := List.nodup_append.mp hfirst
  have hnot_taken : ∀ {r}, w ∈ (ledger moves).pending.toList ++ (ledger moves).overwritten →
      (r, w) ∉ (ledger moves).taken := by
    intro r hw hr
    exact hdisjoint w hw w (List.mem_map_of_mem hr) rfl
  refine ⟨hmem, fun h => ⟨fun ho => ?_, fun r => ?_⟩, fun ho r => ?_, fun r r' h h' => ?_⟩
  · exact hpending w (by simp [h]) w ho rfl
  · exact hnot_taken (by simp [h])
  · exact hnot_taken (by simp [ho])
  · exact congrArg Prod.fst (List.inj_on_of_nodup_map htaken h h' rfl)

end LinuxDevNote.Mailbox
