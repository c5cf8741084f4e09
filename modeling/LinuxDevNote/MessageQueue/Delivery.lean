import Mathlib.Data.List.Nodup
import LinuxDevNote.Library.Execution
import LinuxDevNote.MessageQueue.Program

/-!
# What the runs of the message queue program share

However any number of runs interleave, every message is received at most once, in the order in
which the messages were sent, and shows the string. A run that finds no message though it sent one
has lost it to another run. Every queue is deleted at most once, and once no run is under way every
queue that something was sent to has been deleted. No run waits for ever.
-/

namespace LinuxDevNote.MessageQueue

open Execution

variable {ι : Type*}

/-- The runs that sent a message, in order. -/
def senders (trace : List (Event ι)) : List ι :=
  trace.filterMap fun
    | .success i _ => some i
    | _ => none

/-- The runs whose messages were received, in order. -/
def sources (trace : List (Event ι)) : List ι :=
  trace.filterMap fun
    | .readSuccess _ j _ _ => some j
    | _ => none

/-- A queue is deleted. -/
def Event.isDelete (id : ℕ) : Event ι → Bool
  | .deleteSuccess _ k => decide (k = id)
  | _ => false

/-- A run has received a message from a queue. -/
def Reads (trace : List (Event ι)) (i : ι) (id : ℕ) : Prop :=
  ∃ j text, .readSuccess i j id text ∈ trace

/-- A run that finds no message in a queue to which it sent one is not the one that has received
from it. -/
def LostToAnother (before : List (Event ι)) : Event ι → Prop
  | .perror i (.msgrcv id) => .success i id ∈ before → ∃ k, k ≠ i ∧ Reads before k id
  | _ => True

/-- No run is between its first call and its end. -/
def State.Quiet (s : State ι) : Prop := ∀ i, s.pc i = .msgget ∨ s.pc i = .exit

/-- What the runs can rely on. -/
structure QueueLaw (s : State ι) (trace : List (Event ι)) : Prop where
  /-- Only messages that were sent to the queue are received, and they show the string. -/
  shows : ∀ i j id text, .readSuccess i j id text ∈ trace →
    text = some helloWord ∧ .success j id ∈ trace
  /-- A run sends once. -/
  once : (senders trace).Nodup
  /-- Messages are received in the order in which they were sent, each once. -/
  order : (sources trace).Sublist (senders trace)
  /-- No message is lost but to another run. -/
  lost : Justified LostToAnother trace
  /-- A queue is deleted once. -/
  deletes : ∀ id, trace.countP (Event.isDelete id) ≤ 1
  /-- No queue is left to which a message was sent. -/
  left : s.Quiet → ∀ i id, .success i id ∈ trace → ∃ k, .deleteSuccess k id ∈ trace

/-- The queue that a run uses. -/
def Pc.queue : Pc → Option ℕ
  | .fork id | .msgsnd id | .msgrcv id | .msgctl id => some id
  | .msgget | .exit => none

/-- The child has sent its message. -/
def Pc.Sent (id : ℕ) : Pc → Prop
  | .msgrcv k | .msgctl k => k = id
  | .exit => True
  | .msgget | .fork _ | .msgsnd _ => False

/-- The parent has received a message. -/
def Pc.Received (id : ℕ) : Pc → Prop
  | .msgctl k => k = id
  | .exit => True
  | .msgget | .fork _ | .msgsnd _ | .msgrcv _ => False

/-- The queue with an id is or was there. -/
def State.Opened (s : State ι) (id : ℕ) : Prop :=
  id < s.deleted ∨ id = s.deleted ∧ s.queue.isSome = true

variable [DecidableEq ι] {behind : ι → Behind} {s t : State ι} {a : Label ι}
  {trace es : List (Event ι)} {i j : ι} {id : ℕ}

/-- A call moves the run that makes it. -/
theorem Steps.pc_of_ne (h : Steps behind s a t es) (hj : j ≠ a.run) : t.pc j = s.pc j := by
  cases h <;> exact Function.update_of_ne hj _ _

/-- What was sent stays sent. -/
theorem Steps.sent (h : Steps behind s a t es) (hsent : (s.pc j).Sent id) :
    (t.pc j).Sent id := by
  by_cases hj : j = a.run
  · subst hj
    cases h with
    | opens hpc | forks hpc | sends hpc | sendFails hpc | openFails hpc | forkFails hpc =>
      rw [hpc] at hsent
      cases hsent
    | receives hpc =>
      rw [hpc] at hsent
      simp only [State.setPc, Function.update_self]
      exact hsent
    | misses | deletes | deleteFails =>
      simp only [State.setPc, Function.update_self]
      trivial
  · rwa [h.pc_of_ne hj]

/-- What was received stays received. -/
theorem Steps.received (h : Steps behind s a t es) (hreceived : (s.pc j).Received id) :
    (t.pc j).Received id := by
  by_cases hj : j = a.run
  · subst hj
    cases h with
    | opens hpc | forks hpc | sends hpc | sendFails hpc | openFails hpc | forkFails hpc
    | receives hpc | misses hpc =>
      rw [hpc] at hreceived
      cases hreceived
    | deletes | deleteFails =>
      simp only [State.setPc, Function.update_self]
      trivial
  · rwa [h.pc_of_ne hj]

/-- An id that was given stays given. -/
theorem Steps.opened (h : Steps behind s a t es) (hopened : s.Opened id) : t.Opened id := by
  cases h with
  | opens | sends | receives =>
    exact hopened.imp_right fun hcurrent => ⟨hcurrent.1, rfl⟩
  | deletes =>
    rcases hopened with hold | ⟨rfl, _⟩
    · exact Or.inl (Nat.lt_succ_of_lt hold)
    · exact Or.inl (Nat.lt_succ_self _)
  | forks | sendFails | misses | deleteFails | openFails | forkFails => exact hopened

/-- A run uses the queue it used before, or the one that there is. -/
theorem Steps.queue_of_pc (h : Steps behind s a t es) (hid : (t.pc j).queue = some id) :
    (s.pc j).queue = some id ∨ t.Opened id := by
  by_cases hj : j = a.run
  · subst hj
    cases h with
    | opens =>
      simp only [State.msgget, State.setPc, Function.update_self, Pc.queue] at hid
      exact Or.inr (Or.inr ⟨(Option.some.inj hid).symm, rfl⟩)
    | forks hpc | sends hpc | sendFails hpc | receives hpc =>
      simp only [State.setPc, Function.update_self] at hid
      exact Or.inl (by rw [hpc]; exact hid)
    | misses | deletes | deleteFails | openFails | forkFails =>
      simp only [State.setPc, Function.update_self] at hid
      cases hid
  · exact Or.inl (h.pc_of_ne hj ▸ hid)

/-- What it takes to send. -/
theorem Steps.of_success (h : Steps behind s a t es) (he : .success i id ∈ es) :
    s.pc i = .msgsnd id ∧ t.pc i = .msgrcv id ∧ id = s.deleted := by
  cases h with
  | sends hpc hfind _ =>
    obtain ⟨rfl, rfl⟩ := Event.success.inj (List.mem_singleton.mp he)
    exact ⟨hpc, Function.update_self _ _ _, (State.find_eq_some.mp hfind).1⟩
  | opens | forks | sendFails | receives | misses | deletes | deleteFails | openFails
  | forkFails => simp at he

/-- What it takes to receive. -/
theorem Steps.of_read {text : Option (List UInt8)} (h : Steps behind s a t es)
    (he : .readSuccess i j id text ∈ es) : s.pc i = .msgrcv id ∧ t.pc i = .msgctl id ∧
      id = s.deleted ∧ ∃ m rest, s.queue = some ((j, m) :: rest) ∧ text = m.shown := by
  cases h with
  | receives hpc hfind =>
    obtain ⟨rfl, rfl, rfl, rfl⟩ := Event.readSuccess.inj (List.mem_singleton.mp he)
    obtain ⟨hid, hqueue⟩ := State.find_eq_some.mp hfind
    exact ⟨hpc, Function.update_self _ _ _, hid, _, _, hqueue, rfl⟩
  | opens | forks | sends | sendFails | misses | deletes | deleteFails | openFails
  | forkFails => simp at he

/-- What it takes to delete. -/
theorem Steps.of_delete (h : Steps behind s a t es) (he : .deleteSuccess i id ∈ es) :
    s.pc i = .msgctl id := by
  cases h with
  | deletes hpc =>
    obtain ⟨rfl, rfl⟩ := Event.deleteSuccess.inj (List.mem_singleton.mp he)
    exact hpc
  | opens | forks | sends | sendFails | receives | misses | deleteFails | openFails
  | forkFails => simp at he

omit [DecidableEq ι] in
/-- What was received, after some more events. -/
theorem Reads.append (h : Reads trace i id) : Reads (trace ++ es) i id := by
  obtain ⟨j, text, hread⟩ := h
  exact ⟨j, text, List.mem_append_left _ hread⟩

/-- Who has to delete the queue that there is: a run that has received from it, or nobody yet, and
then the messages of all who sent to it are there, and these runs will receive. -/
def Pending (s : State ι) (trace : List (Event ι)) (messages : List (ι × Message)) : Prop :=
  (∃ i, s.pc i = .msgctl s.deleted) ∨
    (∀ i, .success i s.deleted ∈ trace → i ∈ messages.map Prod.fst) ∧
      ∀ p ∈ messages, s.pc p.1 = .msgrcv s.deleted

/-- What holds of all runs and the queue. -/
structure Inv (behind : ι → Behind) (s : State ι) (trace : List (Event ι)) : Prop where
  /-- Every id that a run uses was given. -/
  opened : ∀ i id, (s.pc i).queue = some id → s.Opened id
  /-- Who sent. -/
  sent : ∀ i id, .success i id ∈ trace → (s.pc i).Sent id ∧ s.Opened id
  /-- Who received. -/
  received : ∀ i id, Reads trace i id → (s.pc i).Received id
  /-- Who is to delete. -/
  deleting : ∀ i id, s.pc i = .msgctl id → Reads trace i id
  /-- Who deleted. -/
  removed : ∀ i id, .deleteSuccess i id ∈ trace → Reads trace i id
  /-- What was received. -/
  shows : ∀ i j id text, .readSuccess i j id text ∈ trace →
    text = some helloWord ∧ .success j id ∈ trace
  /-- What is in the queue. -/
  messages : ∀ messages, s.queue = some messages → ∀ p ∈ messages,
    p.2 = messageAt (behind p.1) ∧ .success p.1 s.deleted ∈ trace
  /-- The queue is not overfull. -/
  room : ∀ messages, s.queue = some messages → textSize messages ≤ MSGMNB
  /-- Who has to delete it. -/
  pending : ∀ messages, s.queue = some messages → Pending s trace messages
  /-- Who sent, once. -/
  once : (senders trace).Nodup
  /-- What was received, and what is in the queue. -/
  order : (sources trace ++ (s.queue.getD []).map Prod.fst).Sublist (senders trace)
  /-- Which queues were deleted. -/
  deletes : ∀ id, trace.countP (Event.isDelete id) = if id < s.deleted then 1 else 0
  /-- What was lost. -/
  lost : Justified LostToAnother trace

omit [DecidableEq ι] in
/-- Nothing has happened. -/
theorem inv_init : Inv behind (State.init ι) [] where
  opened i id h := by cases h
  sent i id h := by cases h
  received i id h := by
    obtain ⟨_, _, h⟩ := h
    cases h
  deleting i id h := by cases h
  removed i id h := by cases h
  shows i j id text h := by cases h
  messages messages h := by cases h
  room messages h := by cases h
  pending messages h := by cases h
  once := List.nodup_nil
  order := List.Sublist.refl _
  deletes id := rfl
  lost := justified_nil

/-- Who sent, after a step. -/
theorem Inv.sent_step (h : Inv behind s trace) (hsteps : Steps behind s a t es)
    (hsuccess : .success i id ∈ trace ++ es) : (t.pc i).Sent id ∧ t.Opened id := by
  rcases List.mem_append.mp hsuccess with hold | hnew
  · obtain ⟨hsent, hopened⟩ := h.sent i id hold
    exact ⟨hsteps.sent hsent, hsteps.opened hopened⟩
  · obtain ⟨hpc, hnext, _⟩ := hsteps.of_success hnew
    refine ⟨by rw [hnext]; rfl, hsteps.opened (h.opened i id (by rw [hpc]; rfl))⟩

/-- Who received, after a step. -/
theorem Inv.received_step (h : Inv behind s trace) (hsteps : Steps behind s a t es)
    (hreads : Reads (trace ++ es) i id) : (t.pc i).Received id := by
  obtain ⟨j, text, hread⟩ := hreads
  rcases List.mem_append.mp hread with hold | hnew
  · exact hsteps.received (h.received i id ⟨j, text, hold⟩)
  · obtain ⟨_, hnext, _⟩ := hsteps.of_read hnew
    rw [hnext]
    rfl

/-- Who is to delete, after a step. -/
theorem Inv.deleting_step (h : Inv behind s trace) (hsteps : Steps behind s a t es)
    (hpc : t.pc i = .msgctl id) : Reads (trace ++ es) i id := by
  by_cases hi : i = a.run
  · subst hi
    cases hsteps with
    | receives =>
      simp only [State.setPc, Function.update_self, Pc.msgctl.injEq] at hpc
      exact ⟨_, _, List.mem_append_right _ (by rw [hpc]; exact List.mem_cons_self)⟩
    | opens | forks | sends | sendFails | misses | deletes | deleteFails | openFails
    | forkFails =>
      simp only [State.msgget, State.setPc, Function.update_self] at hpc
      cases hpc
  · rw [hsteps.pc_of_ne hi] at hpc
    exact (h.deleting i id hpc).append

/-- What was received, after a step. -/
theorem Inv.shows_step {text : Option (List UInt8)} (h : Inv behind s trace)
    (hsteps : Steps behind s a t es) (hread : .readSuccess i j id text ∈ trace ++ es) :
    text = some helloWord ∧ .success j id ∈ trace ++ es := by
  rcases List.mem_append.mp hread with hold | hnew
  · obtain ⟨htext, hsent⟩ := h.shows i j id text hold
    exact ⟨htext, List.mem_append_left _ hsent⟩
  · obtain ⟨_, _, rfl, m, rest, hqueue, rfl⟩ := hsteps.of_read hnew
    obtain ⟨hm, hsent⟩ := h.messages _ hqueue (j, m) List.mem_cons_self
    exact ⟨(congrArg Message.shown hm).trans (shown_messageAt _), List.mem_append_left _ hsent⟩

/-- What is in the queue, after a step. -/
theorem Inv.messages_step (h : Inv behind s trace) (hsteps : Steps behind s a t es)
    {messages : List (ι × Message)} (hqueue : t.queue = some messages) :
    ∀ p ∈ messages, p.2 = messageAt (behind p.1) ∧ .success p.1 t.deleted ∈ trace ++ es := by
  have hframe {old : List (ι × Message)} (hold : s.queue = some old) (p : ι × Message)
      (hp : p ∈ old) : p.2 = messageAt (behind p.1) ∧ .success p.1 s.deleted ∈ trace ++ es :=
    (h.messages old hold p hp).imp_right (List.mem_append_left _)
  cases hsteps with
  | opens =>
    obtain rfl := Option.some.inj hqueue
    cases hold : s.queue with
    | none => simp
    | some old => exact hframe hold
  | @sends i id old hpc hfind _ =>
    obtain ⟨rfl, hold⟩ := State.find_eq_some.mp hfind
    obtain rfl := Option.some.inj hqueue
    intro p hp
    rcases List.mem_append.mp hp with hp | hp
    · exact hframe hold p hp
    · obtain rfl := List.mem_singleton.mp hp
      exact ⟨rfl, List.mem_append_right _ List.mem_cons_self⟩
  | receives hpc hfind =>
    obtain ⟨rfl, hold⟩ := State.find_eq_some.mp hfind
    obtain rfl := Option.some.inj hqueue
    exact fun p hp => hframe hold p (List.mem_cons_of_mem _ hp)
  | deletes => cases hqueue
  | forks | sendFails | misses | deleteFails | openFails | forkFails => exact hframe hqueue

/-- The text in the queue, after a step. -/
theorem Inv.room_step (h : Inv behind s trace) (hsteps : Steps behind s a t es)
    {messages : List (ι × Message)} (hqueue : t.queue = some messages) :
    textSize messages ≤ MSGMNB := by
  cases hsteps with
  | opens =>
    obtain rfl := Option.some.inj hqueue
    cases hold : s.queue with
    | none => exact Nat.zero_le _
    | some old => exact h.room old hold
  | sends hpc hfind hroom =>
    obtain rfl := Option.some.inj hqueue
    simpa [textSize] using hroom
  | receives hpc hfind =>
    obtain ⟨rfl, hold⟩ := State.find_eq_some.mp hfind
    obtain rfl := Option.some.inj hqueue
    exact le_trans (by simp [textSize]) (h.room _ hold)
  | deletes => cases hqueue
  | forks | sendFails | misses | deleteFails | openFails | forkFails => exact h.room _ hqueue

/-- A run that neither receives nor deletes leaves to the others what they have to do. -/
theorem Pending.frame {messages : List (ι × Message)} (h : Pending s trace messages)
    (hsteps : Steps behind s a t es) (hdeleted : t.deleted = s.deleted)
    (hsilent : ∀ i, .success i s.deleted ∉ es) (hreceive : s.pc a.run ≠ .msgrcv s.deleted)
    (hdelete : s.pc a.run ≠ .msgctl s.deleted) : Pending t (trace ++ es) messages := by
  have hkeep {j : ι} {pc : Pc} (hj : s.pc j = pc) (hne : s.pc a.run ≠ pc) : t.pc j = pc := by
    rw [hsteps.pc_of_ne fun heq => hne (heq ▸ hj), hj]
  rcases h with ⟨i, hi⟩ | ⟨hall, hwait⟩
  · exact Or.inl ⟨i, hdeleted ▸ hkeep hi hdelete⟩
  · refine Or.inr ⟨fun i hi => ?_, fun p hp => hdeleted ▸ hkeep (hwait p hp) hreceive⟩
    rw [hdeleted] at hi
    rcases List.mem_append.mp hi with hi | hi
    · exact hall i hi
    · exact absurd hi (hsilent i)

omit [DecidableEq ι] in
/-- A run that finds no message in the queue that there is finds it empty. -/
theorem Inv.empty_of_misses (h : Inv behind s trace) {messages : List (ι × Message)}
    (hqueue : s.queue = some messages)
    (hmiss : ∀ p rest, s.find s.deleted = some (p :: rest) → bufSize < p.2.mtext.length) :
    messages = [] := by
  cases messages with
  | nil => rfl
  | cons p rest =>
    have hlong := hmiss p rest (State.find_eq_some.mpr ⟨rfl, hqueue⟩)
    rw [(h.messages _ hqueue p List.mem_cons_self).1, length_messageAt] at hlong
    exact absurd hlong (lt_irrefl _)

/-- Who has to delete the queue, after a step. -/
theorem Inv.pending_step (h : Inv behind s trace) (hsteps : Steps behind s a t es)
    {messages : List (ι × Message)} (hqueue : t.queue = some messages) :
    Pending t (trace ++ es) messages := by
  have hframe := fun old (hold : s.queue = some old) => (h.pending old hold).frame hsteps
  cases hsteps with
  | @opens i hpc =>
    obtain rfl := Option.some.inj hqueue
    cases hold : s.queue with
    | none =>
      -- the queue is new: nobody has its id yet
      refine Or.inr ⟨fun j hj => ?_, by simp⟩
      rw [List.append_nil] at hj
      rcases (h.sent j _ hj).2 with hlt | ⟨_, hthere⟩
      · exact absurd hlt (lt_irrefl _)
      · rw [hold] at hthere
        cases hthere
    | some old => exact hframe old hold rfl (by simp) (by simp [hpc]) (by simp [hpc])
  | @sends i id old hpc hfind _ =>
    obtain ⟨rfl, hold⟩ := State.find_eq_some.mp hfind
    obtain rfl := Option.some.inj hqueue
    have hkeep {j : ι} {pc : Pc} (hj : s.pc j = pc) (hne : Pc.msgsnd s.deleted ≠ pc) :
        Function.update s.pc i (.msgrcv s.deleted) j = pc := by
      rw [Function.update_of_ne (fun heq => hne (by rw [← hj, heq, hpc])), hj]
    rcases h.pending old hold with ⟨k, hk⟩ | ⟨hall, hwait⟩
    · exact Or.inl ⟨k, hkeep hk (by simp)⟩
    · refine Or.inr ⟨fun j hj => ?_, fun p hp => ?_⟩
      · rw [List.map_append, List.mem_append]
        rcases List.mem_append.mp hj with hj | hj
        · exact Or.inl (hall j hj)
        · obtain ⟨rfl, _⟩ := Event.success.inj (List.mem_singleton.mp hj)
          exact Or.inr List.mem_cons_self
      · rcases List.mem_append.mp hp with hp | hp
        · exact hkeep (hwait p hp) (by simp)
        · obtain rfl := List.mem_singleton.mp hp
          exact Function.update_self _ _ _
  | receives hpc hfind =>
    obtain ⟨rfl, hold⟩ := State.find_eq_some.mp hfind
    exact Or.inl ⟨_, Function.update_self _ _ _⟩
  | deletes => cases hqueue
  | @misses i id hpc hmiss =>
    by_cases hid : id = s.deleted
    · subst hid
      obtain rfl := h.empty_of_misses hqueue hmiss
      rcases h.pending [] hqueue with ⟨k, hk⟩ | ⟨hall, _⟩
      · refine Or.inl ⟨k, ?_⟩
        have hne : k ≠ i := by
          rintro rfl
          rw [hpc] at hk
          cases hk
        exact (Function.update_of_ne hne _ _).trans hk
      · refine Or.inr ⟨fun j hj => hall j ?_, by simp⟩
        rcases List.mem_append.mp hj with hj | hj
        · exact hj
        · cases List.mem_singleton.mp hj
    · exact hframe messages hqueue rfl (by simp) (by simp [hpc, hid]) (by simp [hpc])
  | @deleteFails i id hpc hnone =>
    have hid : id ≠ s.deleted := by
      rintro rfl
      rw [State.find, if_pos rfl] at hnone
      exact absurd (hnone.symm.trans hqueue) (by simp)
    exact hframe messages hqueue rfl (by simp) (by simp [hpc]) (by simp [hpc, hid])
  | forks hpc | sendFails hpc | openFails hpc | forkFails hpc =>
    exact hframe messages hqueue rfl (by simp) (by simp [hpc]) (by simp [hpc])

/-- Who sent and whose messages were received, after a step. -/
theorem Inv.order_step (h : Inv behind s trace) (hsteps : Steps behind s a t es) :
    (senders (trace ++ es)).Nodup ∧
      (sources (trace ++ es) ++ (t.queue.getD []).map Prod.fst).Sublist
        (senders (trace ++ es)) := by
  have honce := h.once
  have horder := h.order
  have hsplit : senders (trace ++ es) = senders trace ++ senders es ∧
      sources (trace ++ es) = sources trace ++ sources es :=
    ⟨List.filterMap_append, List.filterMap_append⟩
  rw [hsplit.1, hsplit.2]
  cases hsteps with
  | opens =>
    refine ⟨by simpa [senders] using honce, ?_⟩
    cases hold : s.queue <;>
      simpa [senders, sources, State.msgget, State.setPc, hold] using horder
  | @sends i id old hpc hfind _ =>
    obtain ⟨rfl, hold⟩ := State.find_eq_some.mp hfind
    have hfresh : i ∉ senders trace := by
      intro hi
      obtain ⟨e, he, heq⟩ := List.mem_filterMap.mp hi
      cases e with
      | success j id =>
        obtain rfl := Option.some.inj heq
        have hsent := (h.sent j id he).1
        rw [hpc] at hsent
        cases hsent
      | readSuccess | deleteSuccess | perror => cases heq
    have hnodup := List.Nodup.concat hfresh honce
    rw [List.concat_eq_append] at hnodup
    refine ⟨hnodup, ?_⟩
    rw [hold] at horder
    simpa [senders, sources, State.setPc, ← List.append_assoc] using
      horder.append_right [i]
  | receives hpc hfind =>
    obtain ⟨rfl, hold⟩ := State.find_eq_some.mp hfind
    refine ⟨by simpa [senders] using honce, ?_⟩
    simpa [senders, sources, State.setPc, hold] using horder
  | deletes =>
    refine ⟨by simpa [senders] using honce, ?_⟩
    simpa [senders, sources] using (List.sublist_append_left _ _).trans horder
  | forks | sendFails | misses | deleteFails | openFails | forkFails =>
    exact ⟨by simpa [senders] using honce, by simpa [senders, sources, State.setPc] using horder⟩

/-- Which queues were deleted, after a step. -/
theorem Inv.deletes_step (h : Inv behind s trace) (hsteps : Steps behind s a t es) (id : ℕ) :
    (trace ++ es).countP (Event.isDelete id) = if id < t.deleted then 1 else 0 := by
  have hbefore := h.deletes id
  rw [List.countP_append]
  cases hsteps with
  | @deletes i k old hpc hfind =>
    obtain ⟨rfl, _⟩ := State.find_eq_some.mp hfind
    rw [hbefore, List.countP_singleton]
    simp only [Event.isDelete, decide_eq_true_eq]
    split_ifs <;> omega
  | opens | forks | sends | sendFails | receives | misses | deleteFails | openFails
  | forkFails => exact hbefore

omit [DecidableEq ι] in
/-- A queue that was deleted was deleted by a run that received from it. -/
theorem Inv.exists_reads (h : Inv behind s trace) (hid : id < s.deleted) :
    ∃ i, .deleteSuccess i id ∈ trace ∧ Reads trace i id := by
  have hcount := h.deletes id
  rw [if_pos hid] at hcount
  have hpos : 0 < trace.countP (Event.isDelete id) := by omega
  obtain ⟨e, he, hdelete⟩ := List.countP_pos_iff.mp hpos
  cases e with
  | deleteSuccess i k =>
    obtain rfl := of_decide_eq_true hdelete
    exact ⟨i, he, h.removed i k he⟩
  | success | readSuccess | perror => cases hdelete

/-- What was lost, after a step. -/
theorem Inv.lost_step (h : Inv behind s trace) (hsteps : Steps behind s a t es) :
    Justified LostToAnother (trace ++ es) := by
  cases hsteps with
  | @misses i id hpc hmiss =>
    refine h.lost.append_singleton fun hsuccess => ?_
    have hother {k : ι} (hreads : Reads trace k id) : k ≠ i := by
      rintro rfl
      have hreceived := h.received k id hreads
      rw [hpc] at hreceived
      cases hreceived
    rcases (h.sent i id hsuccess).2 with hgone | ⟨rfl, hthere⟩
    · obtain ⟨k, _, hreads⟩ := h.exists_reads hgone
      exact ⟨k, hother hreads, hreads⟩
    · obtain ⟨messages, hqueue⟩ := Option.isSome_iff_exists.mp hthere
      obtain rfl := h.empty_of_misses hqueue hmiss
      rcases h.pending [] hqueue with ⟨k, hk⟩ | ⟨hall, _⟩
      · have hreads := h.deleting k _ hk
        exact ⟨k, hother hreads, hreads⟩
      · cases hall i hsuccess
  | opens | forks | sends | sendFails | receives | deletes | deleteFails | openFails
  | forkFails => exact h.lost.append (by simp [LostToAnother])

/-- Every step keeps the invariant. -/
theorem Inv.step (h : Inv behind s trace) (hstep : s.step behind a = some (t, es)) :
    Inv behind t (trace ++ es) := by
  have hsteps := State.steps hstep
  have horder := h.order_step hsteps
  exact
    { opened := fun i id hid => by
        rcases hsteps.queue_of_pc hid with hold | hnew
        · exact hsteps.opened (h.opened i id hold)
        · exact hnew
      sent := fun i id => h.sent_step hsteps
      received := fun i id => h.received_step hsteps
      deleting := fun i id => h.deleting_step hsteps
      removed := fun i id hdelete => by
        rcases List.mem_append.mp hdelete with hold | hnew
        · exact (h.removed i id hold).append
        · exact (h.deleting i id (hsteps.of_delete hnew)).append
      shows := fun i j id text => h.shows_step hsteps
      messages := fun messages => h.messages_step hsteps
      room := fun messages => h.room_step hsteps
      pending := fun messages => h.pending_step hsteps
      once := horder.1
      order := horder.2
      deletes := h.deletes_step hsteps
      lost := h.lost_step hsteps }

omit [DecidableEq ι] in
/-- The invariant is what the runs can rely on. -/
theorem Inv.law (h : Inv behind s trace) : QueueLaw s trace where
  shows := h.shows
  once := h.once
  order := (List.sublist_append_left _ _).trans h.order
  lost := h.lost
  deletes id := by
    rw [h.deletes id]
    split_ifs <;> omega
  left hquiet i id hsuccess := by
    rcases (h.sent i id hsuccess).2 with hgone | ⟨rfl, hthere⟩
    · obtain ⟨k, hdelete, _⟩ := h.exists_reads hgone
      exact ⟨k, hdelete⟩
    · -- somebody would still have to receive, or to delete the queue
      obtain ⟨messages, hqueue⟩ := Option.isSome_iff_exists.mp hthere
      rcases h.pending messages hqueue with ⟨k, hk⟩ | ⟨hall, hwait⟩
      · rcases hquiet k with hpc | hpc <;> cases hk.symm.trans hpc
      · obtain ⟨p, hp, rfl⟩ := List.mem_map.mp (hall i hsuccess)
        rcases hquiet p.1 with hpc | hpc <;> cases (hwait p hp).symm.trans hpc

/-- **The message queue program.** However its runs interleave, and whatever fails for want of
resources: every message is received at most once, in the order of the sends, and shows the
string; a run that finds no message though it sent one lost it to another run; every queue is
deleted at most once, and when no run is under way every queue that something was sent to has
been. -/
theorem queue_law {as : List (Label ι)}
    (hexec : exec (State.step behind) (State.init ι) as = some (s, trace)) : QueueLaw s trace := by
  have hrun := run_of_exec (meets_anyLabel as _) hexec
  have hinv := hrun.invariant (I := Inv behind) inv_init fun h _ hstep => h.step hstep
  exact hinv.law

/-- Two runs send; the first one receives its own message and deletes the queue, so that the other
one finds none. -/
theorem queue_law_run :
    ∃ s trace, exec (State.step fun _ : Bool => ⟨List.replicate longSize 0, rfl⟩) (State.init Bool)
        [⟨true, false⟩, ⟨false, false⟩, ⟨true, false⟩, ⟨false, false⟩, ⟨true, false⟩,
          ⟨false, false⟩, ⟨true, false⟩, ⟨true, false⟩, ⟨false, false⟩] = some (s, trace) ∧
      .perror false (.msgrcv 0) ∈ trace ∧ QueueLaw s trace := by
  obtain ⟨⟨s, trace⟩, hexec, hlost⟩ := Option.map_eq_some_iff.mp
    (show (exec (State.step fun _ : Bool => ⟨List.replicate longSize 0, rfl⟩) (State.init Bool)
      [⟨true, false⟩, ⟨false, false⟩, ⟨true, false⟩, ⟨false, false⟩, ⟨true, false⟩,
        ⟨false, false⟩, ⟨true, false⟩, ⟨true, false⟩, ⟨false, false⟩]).map
          (fun p => decide (.perror false (.msgrcv 0) ∈ p.2)) = some true by decide +kernel)
  exact ⟨s, trace, hexec, of_decide_eq_true hlost, queue_law hexec⟩

/-- The calls that a run has left at most. -/
def Pc.left : Pc → ℕ
  | .msgget => 5
  | .fork _ => 4
  | .msgsnd _ => 3
  | .msgrcv _ => 2
  | .msgctl _ => 1
  | .exit => 0

/-- A call of a run is one of those it had left. -/
theorem Steps.left (h : Steps behind s a t es) : (t.pc a.run).left + 1 ≤ (s.pc a.run).left := by
  cases h with
  | opens hpc | forks hpc | sends hpc | sendFails hpc | receives hpc | misses hpc | deletes hpc
  | deleteFails hpc | openFails hpc | forkFails hpc =>
    rw [hpc]
    simp [State.msgget, State.setPc, Pc.left]

omit [DecidableEq ι] in
/-- In a full queue there is a message. -/
theorem exists_of_full {messages : List (ι × Message)}
    (hfull : ¬ textSize messages + bufSize ≤ MSGMNB) : ∃ p rest, messages = p :: rest := by
  cases messages with
  | nil => simp [textSize, bufSize, MSGMNB] at hfull
  | cons p rest => exact ⟨p, rest, rfl⟩

/-- A child waits just while the queue that it opened is there and full. -/
theorem isSome_msgsnd_iff (hpc : s.pc i = .msgsnd id) :
    (s.step behind ⟨i, false⟩).isSome = true ↔
      ∀ messages, s.find id = some messages → textSize messages + bufSize ≤ MSGMNB := by
  have hstep : s.step behind ⟨i, false⟩ = s.msgsnd i id (messageAt (behind i)) := by
    simp [State.step, hpc]
  rw [hstep, State.msgsnd, if_neg (type_messageAt _), length_messageAt]
  cases s.find id with
  | none => simp
  | some messages =>
    by_cases hroom : textSize messages + bufSize ≤ MSGMNB <;> simp [hroom]

/-- A child stays at its `msgsnd` while another run makes a call. -/
theorem pc_of_msgsnd (hpc : s.pc i = .msgsnd id) (hj : s.pc j = .msgrcv id ∨ s.pc j = .msgctl id)
    (hstep : s.step behind ⟨j, false⟩ = some (t, es)) : t.pc i = .msgsnd id := by
  have hne : i ≠ j := by
    rintro rfl
    rcases hj with hj | hj <;> cases hpc.symm.trans hj
  rw [(State.steps hstep).pc_of_ne hne, hpc]

/-- Once the queue is deleted, the `msgsnd` of a child does not wait: it fails. -/
theorem isSome_of_delete {messages : List (ι × Message)} (hpc : s.pc i = .msgsnd id)
    (hj : s.pc j = .msgctl id) (hfind : s.find id = some messages)
    (hstep : s.step behind ⟨j, false⟩ = some (t, es)) :
    (t.step behind ⟨i, false⟩).isSome = true := by
  refine (isSome_msgsnd_iff (pc_of_msgsnd hpc (Or.inr hj) hstep)).mpr fun _ hthere => ?_
  simp only [State.step, hj, State.msgctl, hfind, Option.some.injEq, Prod.mk.injEq] at hstep
  obtain ⟨rfl, _⟩ := hstep
  exact absurd (State.find_eq_some.mp hthere).2 (by simp)

/-- Once a message was received, there is room for another one, which is as long. -/
theorem Inv.isSome_of_receive {p : ι × Message} {rest : List (ι × Message)}
    (h : Inv behind s trace) (hpc : s.pc i = .msgsnd id) (hj : s.pc j = .msgrcv id)
    (hfind : s.find id = some (p :: rest)) (hstep : s.step behind ⟨j, false⟩ = some (t, es)) :
    (t.step behind ⟨i, false⟩).isSome = true := by
  have hqueue := (State.find_eq_some.mp hfind).2
  have hlength : p.2.mtext.length = bufSize := by
    rw [(h.messages _ hqueue p List.mem_cons_self).1, length_messageAt]
  have hroom := h.room _ hqueue
  rw [textSize, List.map_cons, List.sum_cons, hlength, Nat.add_comm] at hroom
  refine (isSome_msgsnd_iff (pc_of_msgsnd hpc (Or.inl hj) hstep)).mpr fun _ hthere => ?_
  simp only [State.step, hj, State.msgrcv, hfind, hlength, lt_irrefl, if_false,
    Option.some.injEq, Prod.mk.injEq] at hstep
  obtain ⟨rfl, _⟩ := hstep
  obtain rfl := Option.some.inj (State.find_eq_some.mp hthere).2
  exact hroom

/-- A child that waits for room waits for a run that is to receive from the queue, which makes room
in it, or to delete it. -/
theorem Inv.waits_for (h : Inv behind s trace) (hpc : s.pc i = .msgsnd id)
    (hwaits : s.step behind ⟨i, false⟩ = none) :
    ∃ j, (s.pc j = .msgrcv id ∨ s.pc j = .msgctl id) ∧
      ∀ t es, s.step behind ⟨j, false⟩ = some (t, es) →
        (t.step behind ⟨i, false⟩).isSome = true := by
  obtain ⟨messages, hfind, hfull⟩ : ∃ messages, s.find id = some messages ∧
      ¬ textSize messages + bufSize ≤ MSGMNB := by
    by_contra hnone
    have hsome : (s.step behind ⟨i, false⟩).isSome = true :=
      (isSome_msgsnd_iff hpc).mpr fun messages hfind =>
        by_contra fun hfull => hnone ⟨messages, hfind, hfull⟩
    rw [hwaits] at hsome
    cases hsome
  obtain ⟨p, rest, rfl⟩ := exists_of_full hfull
  obtain ⟨rfl, hqueue⟩ := State.find_eq_some.mp hfind
  rcases h.pending _ hqueue with ⟨j, hj⟩ | ⟨_, hall⟩
  · exact ⟨j, Or.inr hj, fun t es => isSome_of_delete hpc hj hfind⟩
  · have hj := hall p List.mem_cons_self
    exact ⟨p.1, Or.inl hj, fun t es => h.isSome_of_receive hpc hj hfind⟩

/-- A run that receives or deletes does not wait. -/
theorem exists_step_of_pc (hpc : s.pc i = .msgrcv id ∨ s.pc i = .msgctl id) :
    (s.step behind ⟨i, false⟩).isSome = true := by
  rcases hpc with hpc | hpc <;> simp [State.step, hpc]

/-- While a run is not over, some run can go on: if not that one, then the one that it waits for. -/
theorem Inv.progress (h : Inv behind s trace) (hpc : s.pc i ≠ .exit) :
    ∃ j, (s.step behind ⟨j, false⟩).isSome = true := by
  cases hi : s.pc i with
  | msgget | fork => exact ⟨i, by simp [State.step, hi]⟩
  | msgrcv => exact ⟨i, exists_step_of_pc (Or.inl hi)⟩
  | msgctl => exact ⟨i, exists_step_of_pc (Or.inr hi)⟩
  | exit => exact absurd hi hpc
  | msgsnd id =>
    cases hwaits : s.step behind ⟨i, false⟩ with
    | some next => exact ⟨i, by rw [hwaits]; rfl⟩
    | none =>
      obtain ⟨j, hj, _⟩ := h.waits_for hi hwaits
      exact ⟨j, exists_step_of_pc hj⟩

/-- **No run waits for ever.** In every schedule a run makes at most five calls, no run can go on
just when every run is over, and a child that waits for room in the queue waits for some run that
is to receive from that queue or to delete it, by whose call the child can go on. -/
theorem no_run_stuck {as : List (Label ι)}
    (hexec : exec (State.step behind) (State.init ι) as = some (s, trace)) :
    (∀ i, (as.map Label.run).count i ≤ 5) ∧
      ((∀ i, s.step behind ⟨i, false⟩ = none) ↔ ∀ i, s.pc i = .exit) ∧
      ∀ i id, s.pc i = .msgsnd id → s.step behind ⟨i, false⟩ = none →
        ∃ j, (s.pc j = .msgrcv id ∨ s.pc j = .msgctl id) ∧
          ∀ t es, s.step behind ⟨j, false⟩ = some (t, es) →
            (t.step behind ⟨i, false⟩).isSome = true := by
  have h : Inv behind s trace ∧ ∀ i, (as.map Label.run).count i + (s.pc i).left ≤ 5 := by
    refine exec_invariant (I := fun as s trace => Inv behind s trace ∧
      ∀ i, (as.map Label.run).count i + (s.pc i).left ≤ 5) hexec ⟨inv_init, fun _ => le_refl _⟩ ?_
    intro as u v a trace es ⟨hinv, hcount⟩ hstep
    have hsteps := State.steps hstep
    refine ⟨hinv.step hstep, fun i => ?_⟩
    have hbefore := hcount i
    rw [List.map_append, List.count_append, List.map_singleton]
    by_cases hi : i = a.run
    · subst hi
      have hleft := hsteps.left
      rw [List.count_singleton_self]
      omega
    · rw [hsteps.pc_of_ne hi, List.count_singleton]
      simpa [Ne.symm hi] using hbefore
  refine ⟨fun i => le_trans (Nat.le_add_right _ _) (h.2 i), ⟨fun hstuck i => ?_, fun hdone i => ?_⟩,
    fun i id => h.1.waits_for⟩
  · by_contra hpc
    obtain ⟨j, hj⟩ := h.1.progress hpc
    rw [hstuck j] at hj
    cases hj
  · simp [State.step, hdone i]

/-- 65 runs have forked, and the children of the first 64 have filled the queue: the child of the
last one waits, for one of the others. -/
theorem no_run_stuck_run :
    ∃ s trace, exec (State.step fun _ : ℕ => ⟨List.replicate longSize 0, rfl⟩) (State.init ℕ)
        ((List.range 64).flatMap (fun i => [⟨i, false⟩, ⟨i, false⟩, ⟨i, false⟩]) ++
          [⟨64, false⟩, ⟨64, false⟩]) = some (s, trace) ∧
      s.step (fun _ => ⟨List.replicate longSize 0, rfl⟩) ⟨64, false⟩ = none ∧
      ∃ j, s.pc j = .msgrcv 0 ∨ s.pc j = .msgctl 0 := by
  obtain ⟨⟨s, trace⟩, hexec, hwaits⟩ := Option.map_eq_some_iff.mp
    (show (exec (State.step fun _ : ℕ => ⟨List.replicate longSize 0, rfl⟩) (State.init ℕ)
      ((List.range 64).flatMap (fun i => [⟨i, false⟩, ⟨i, false⟩, ⟨i, false⟩]) ++
        [⟨64, false⟩, ⟨64, false⟩])).map (fun p => (decide (p.1.pc 64 = .msgsnd 0),
          (p.1.step (fun _ => ⟨List.replicate longSize 0, rfl⟩) ⟨64, false⟩).isNone)) =
            some (true, true) by decide +kernel)
  obtain ⟨hpc, hnone⟩ := Prod.mk.inj hwaits
  have hblocked := Option.isNone_iff_eq_none.mp hnone
  obtain ⟨_, _, hfor⟩ := no_run_stuck hexec
  obtain ⟨j, hj, _⟩ := hfor 64 0 (of_decide_eq_true hpc) hblocked
  exact ⟨s, trace, hexec, hblocked, j, hj⟩

end LinuxDevNote.MessageQueue
