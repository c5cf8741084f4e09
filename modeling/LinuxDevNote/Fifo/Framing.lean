import Mathlib.Data.List.Nodup
import LinuxDevNote.Fifo.Programs
import LinuxDevNote.Library.Conservation
import LinuxDevNote.Library.LockOrder

/-!
# Record framing

Writer and readers of the FIFO each hard-code a size of 100 bytes, and no length
travels with a record. The framing holds nevertheless: the content of the FIFO is
always a sequence of whole records, so every read that returns data returns the
next record, and its text is the argument of the run that wrote it.
-/

namespace LinuxDevNote.Fifo

open CString Execution Conservation LockOrder

variable {ι κ : Type*}

/-- The writers whose records went in, in order. -/
def senders (trace : List (Event ι κ)) : List ι :=
  trace.flatMap fun
    | .sent w => [w]
    | _ => []

/-- The records an event puts into the FIFO. -/
def Event.accepted (setup : Setup ι κ) : Event ι κ → List (List UInt8)
  | .sent w => [setup.record w]
  | _ => []

/-- The bytes an event takes out, where it takes any. -/
def Event.delivered : Event ι κ → List (List UInt8)
  | .read _ data => if data = [] then [] else [data]
  | _ => []

/-- The bytes of the reads that returned data, in order. -/
def reads (trace : List (Event ι κ)) : List (List UInt8) := trace.flatMap Event.delivered

/-- The reads among the events, each with what it returned. -/
def Event.returned : Event ι κ → Option (κ × List UInt8)
  | .read r data => some (r, data)
  | _ => none

/-- After `before`, a read that returns `data` and leads to the line `text` returns
the record whose turn it is and prints the argument of its writer; a read without
data prints nothing. -/
def Shown (setup : Setup ι κ) (before : List (Event ι κ)) (data : List UInt8)
    (text : Option (List UInt8)) : Prop :=
  data = [] ∧ text = some [] ∨
    ∃ w a, (senders before)[(reads before).length]? = some w ∧ setup.arg w = some a ∧
      data = setup.record w ∧ text = some a.chars

/-- A line that is printed is that of the reader's last read. -/
def Event.PrintsLastRead (setup : Setup ι κ) (pre : List (Event ι κ)) (e : Event ι κ) : Prop :=
  ∀ r text, e = .printed r text →
    ∃ before data, LastAcquired Event.returned pre r before data ∧ Shown setup before data text

/-- The records put in are those of the senders. -/
theorem flatMap_accepted (setup : Setup ι κ) (trace : List (Event ι κ)) :
    trace.flatMap (Event.accepted setup) = (senders trace).map setup.record := by
  rw [senders, List.map_flatMap]
  refine List.flatMap_congr fun e _ => ?_
  cases e <;> rfl

/-- What is known about a writer from the statement it is at. -/
def WriterOk (setup : Setup ι κ) (s : State ι κ) (trace : List (Event ι κ)) (w : ι) : Prop :=
  match s.writer w with
  | .start => w ∉ senders trace ∧ s.wBuf w = setup.stack w
  | .write => w ∉ senders trace ∧
      ∃ a, setup.arg w = some a ∧ s.wBuf w = (setup.stack w).strcpy a
  | .done => True

/-- What is known about a reader from the statement it is at. -/
def ReaderOk (setup : Setup ι κ) (s : State ι κ) (trace : List (Event ι κ)) (r : κ) : Prop :=
  match s.reader r with
  | .clear => True
  | .select | .read => s.bufR r = Buf.zero
  | .print => ∃ before data, LastAcquired Event.returned trace r before data ∧
      Shown setup before data (cString (s.bufR r).val)

/-- The invariant of the system. -/
structure Inv (setup : Setup ι κ) (s : State ι κ) (trace : List (Event ι κ)) : Prop where
  /-- The content is the records put in and not yet taken out. -/
  queued : ∃ queued, Conserved (Event.accepted setup) Event.delivered trace queued ∧
    s.content = queued.flatten
  /-- Every sender had an argument. -/
  argument : ∀ w ∈ senders trace, (setup.arg w).isSome = true
  /-- No writer sends twice. -/
  nodup : (senders trace).Nodup
  /-- Every writer is where it should be. -/
  writer : ∀ w, WriterOk setup s trace w
  /-- Every reader is where it should be. -/
  reader : ∀ r, ReaderOk setup s trace r
  /-- The lines printed so far are right. -/
  printed : Justified (Event.PrintsLastRead setup) trace

/-- The record of a sender is 100 bytes. -/
theorem record_length {setup : Setup ι κ} {w : ι} (h : (setup.arg w).isSome = true) :
    (setup.record w).length = bufSize := by
  obtain ⟨a, ha⟩ := Option.isSome_iff_exists.mp h
  rw [Setup.record, ha]
  exact ((setup.stack w).strcpy a).property

/-- The records in the FIFO are each 100 bytes. -/
theorem Inv.queued_length {setup : Setup ι κ} {s : State ι κ} {trace : List (Event ι κ)}
    (h : Inv setup s trace) {queued : List (List UInt8)}
    (hqueued : Conserved (Event.accepted setup) Event.delivered trace queued) :
    ∀ q ∈ queued, q.length = bufSize := by
  intro q hq
  have hmem : q ∈ (senders trace).map setup.record := by
    rw [← flatMap_accepted, hqueued]
    exact List.mem_append_right _ hq
  obtain ⟨w, hw, rfl⟩ := List.mem_map.mp hmem
  exact record_length (h.argument w hw)

/-- Before any program has started. -/
theorem inv_init (setup : Setup ι κ) : Inv setup (State.init setup) [] where
  queued := ⟨[], conserved_nil, rfl⟩
  argument w hw := by cases hw
  nodup := List.nodup_nil
  writer w := ⟨by simp [senders], rfl⟩
  reader r := trivial
  printed := justified_nil

/-- The senders of a longer trace. -/
theorem senders_append (trace es : List (Event ι κ)) :
    senders (trace ++ es) = senders trace ++ senders es :=
  List.flatMap_append

/-- A writer that does not move is not affected by the steps of others. -/
theorem WriterOk.frame {setup : Setup ι κ} {s t : State ι κ} {trace es : List (Event ι κ)} {w : ι}
    (h : WriterOk setup s trace w) (hpc : t.writer w = s.writer w) (hbuf : t.wBuf w = s.wBuf w)
    (hes : w ∉ senders es) : WriterOk setup t (trace ++ es) w := by
  unfold WriterOk at h ⊢
  rw [hpc, hbuf]
  have hnot : w ∉ senders trace → w ∉ senders (trace ++ es) := by
    rw [senders_append, List.mem_append, not_or]
    exact fun hw => ⟨hw, hes⟩
  split at h
  · exact h.imp_left hnot
  · exact h.imp_left hnot
  · trivial

/-- A reader that does not move is not affected by the steps of others. -/
theorem ReaderOk.frame {setup : Setup ι κ} {s t : State ι κ} {trace es : List (Event ι κ)} {r : κ}
    (h : ReaderOk setup s trace r) (hpc : t.reader r = s.reader r) (hbuf : t.bufR r = s.bufR r)
    (hes : ∀ e ∈ es, ∀ data, e.returned ≠ some (r, data)) :
    ReaderOk setup t (trace ++ es) r := by
  unfold ReaderOk at h ⊢
  rw [hpc, hbuf]
  split at h
  · trivial
  · exact h
  · exact h
  · obtain ⟨before, data, hlast, hshown⟩ := h
    exact ⟨before, data, hlast.append hes, hshown⟩

variable [DecidableEq ι] [DecidableEq κ] {setup : Setup ι κ} {s t : State ι κ}
  {trace es : List (Event ι κ)}

omit [DecidableEq κ] in
/-- A writer moves without sending. -/
theorem Inv.setWriter (h : Inv setup s trace) {w : ι} {pc : WriterPc} {buf : Buf}
    (hok : WriterOk setup (s.setWriter w pc buf) trace w) :
    Inv setup (s.setWriter w pc buf) (trace ++ []) := by
  rw [List.append_nil]
  refine ⟨h.queued, h.argument, h.nodup, fun v => ?_, fun r => h.reader r, h.printed⟩
  by_cases hv : v = w
  · rw [hv]
    exact hok
  · have hframe : WriterOk setup (s.setWriter w pc buf) (trace ++ []) v := (h.writer v).frame
      (by simp [State.setWriter, hv]) (by simp [State.setWriter, hv]) (by simp [senders])
    rwa [List.append_nil] at hframe

omit [DecidableEq ι] in
/-- A reader moves without reading or printing. -/
theorem Inv.setReader (h : Inv setup s trace) {r : κ} {pc : ReaderPc} {buf : Buf}
    (hok : ReaderOk setup (s.setReader r pc buf) trace r) :
    Inv setup (s.setReader r pc buf) (trace ++ []) := by
  rw [List.append_nil]
  refine ⟨h.queued, h.argument, h.nodup, fun w => h.writer w, fun q => ?_, h.printed⟩
  by_cases hq : q = r
  · rw [hq]
    exact hok
  · have hframe : ReaderOk setup (s.setReader r pc buf) (trace ++ []) q := (h.reader q).frame
      (by simp [State.setReader, hq]) (by simp [State.setReader, hq]) (by simp)
    rwa [List.append_nil] at hframe

omit [DecidableEq κ] in
/-- A write that finds room puts the writer's record into the FIFO. -/
theorem Inv.send (h : Inv setup s trace) {w : ι} (hpc : s.writer w = .write) :
    Inv setup ({ s with content := s.content ++ (s.wBuf w).val }.setWriter w .done (s.wBuf w))
      (trace ++ [.sent w]) := by
  have hok := h.writer w
  unfold WriterOk at hok
  rw [hpc] at hok
  obtain ⟨hfresh, a, ha, hbuf⟩ := hok
  have hrecord : setup.record w = (s.wBuf w).val := by rw [Setup.record, ha, hbuf]
  have hsenders : senders (trace ++ [Event.sent w]) = senders trace ++ [w] := senders_append _ _
  obtain ⟨queued, hconserved, hcontent⟩ := h.queued
  refine ⟨⟨queued ++ [setup.record w], hconserved.append ?_, ?_⟩, fun v hv => ?_, ?_,
    fun v => ?_, fun r => (h.reader r).frame rfl rfl (by simp [Event.returned]),
    h.printed.append_singleton fun r text he => by cases he⟩
  · simp [Event.accepted, Event.delivered]
  · simp [State.setWriter, hcontent, hrecord]
  · rw [hsenders] at hv
    rcases List.mem_append.mp hv with hold | hnew
    · exact h.argument v hold
    · rw [List.mem_singleton.mp hnew, ha]
      rfl
  · rw [hsenders, ← List.concat_eq_append]
    exact h.nodup.concat hfresh
  · by_cases hv : v = w
    · rw [hv]
      simp [WriterOk, State.setWriter]
    · exact (h.writer v).frame (by simp [State.setWriter, hv]) (by simp [State.setWriter])
        (by simp [senders, hv])

omit [DecidableEq ι] [DecidableEq κ] in
/-- A read returns the next record, or nothing. -/
theorem Inv.next_record (h : Inv setup s trace) (r : κ) :
    ∃ queued, Conserved (Event.accepted setup) Event.delivered
        (trace ++ [Event.read r (s.content.take bufSize)]) queued ∧
      s.content.drop bufSize = queued.flatten ∧
      Shown setup trace (s.content.take bufSize)
        (cString (Buf.zero.receive s.content).val) := by
  obtain ⟨queued, hconserved, hcontent⟩ := h.queued
  have hlength := h.queued_length hconserved
  cases queued with
  | nil =>
    have hnil : s.content = [] := hcontent
    refine ⟨[], hconserved.append ?_, by simp [hnil], Or.inl ⟨by simp [hnil], ?_⟩⟩
    · simp [Event.accepted, Event.delivered, hnil]
    · rw [hnil, receive_nil, cString_zero]
  | cons q queued =>
    have hq : q.length = bufSize := hlength q (by simp)
    rw [List.flatten_cons] at hcontent
    have htake : s.content.take bufSize = q := by rw [hcontent, ← hq, List.take_left]
    have hdrop : s.content.drop bufSize = queued.flatten := by
      rw [hcontent, ← hq, List.drop_left]
    have hne : q ≠ [] := by
      rintro rfl
      simp [bufSize] at hq
    have hbuf : (Buf.zero.receive s.content).val = q := by
      rw [receive_of_length_ge (by rw [hcontent, List.length_append]; omega), htake]
    -- the record at the head is that of the writer whose turn it is
    have hsplit : (senders trace).map setup.record = reads trace ++ q :: queued := by
      rw [← flatMap_accepted]
      exact hconserved
    have hturn : ((senders trace).map setup.record)[(reads trace).length]? = some q := by
      simp [hsplit]
    rw [List.getElem?_map] at hturn
    obtain ⟨w, hw, hrecord⟩ := Option.map_eq_some_iff.mp hturn
    obtain ⟨a, ha⟩ := Option.isSome_iff_exists.mp
      (h.argument w (List.mem_of_getElem? hw))
    refine ⟨queued, hconserved.append ?_, hdrop, Or.inr ⟨w, a, hw, ha, ?_, ?_⟩⟩
    · simp [Event.accepted, Event.delivered, htake, hne]
    · rw [htake, hrecord]
    · rw [hbuf, ← hrecord, Setup.record, ha]
      exact cString_strcpy _ _

omit [DecidableEq ι] in
/-- A read takes the next record out of the FIFO. -/
theorem Inv.read (h : Inv setup s trace) {r : κ} (hpc : s.reader r = .read) :
    Inv setup ({ s with content := s.content.drop bufSize }.setReader r .print
      ((s.bufR r).receive s.content)) (trace ++ [.read r (s.content.take bufSize)]) := by
  have hok := h.reader r
  unfold ReaderOk at hok
  rw [hpc] at hok
  obtain ⟨queued, hconserved, hcontent, hshown⟩ := h.next_record r
  have hsenders : senders (trace ++ [Event.read r (s.content.take bufSize)]) = senders trace := by
    rw [senders_append]
    exact List.append_nil _
  refine ⟨⟨queued, hconserved, hcontent⟩, hsenders ▸ h.argument, hsenders ▸ h.nodup,
    fun w => (h.writer w).frame rfl rfl (by simp [senders]), fun q => ?_,
    h.printed.append_singleton fun q text he => by cases he⟩
  by_cases hq : q = r
  · subst hq
    rw [ReaderOk, State.setReader]
    simp only [Function.update_self]
    exact ⟨trace, _, lastAcquired_append rfl, hok ▸ hshown⟩
  · exact (h.reader q).frame (by simp [State.setReader, hq]) (by simp [State.setReader, hq])
      (by simp [Event.returned, Ne.symm hq])

omit [DecidableEq ι] in
/-- A reader prints what its last read left in the buffer. -/
theorem Inv.print (h : Inv setup s trace) {r : κ} (hpc : s.reader r = .print) :
    Inv setup (s.setReader r .clear (s.bufR r))
      (trace ++ [.printed r (cString (s.bufR r).val)]) := by
  have hok := h.reader r
  unfold ReaderOk at hok
  rw [hpc] at hok
  obtain ⟨queued, hconserved, hcontent⟩ := h.queued
  have hsenders : senders (trace ++ [Event.printed r (cString (s.bufR r).val)]) =
      senders trace := by
    rw [senders_append]
    exact List.append_nil _
  refine ⟨⟨queued, hconserved.append ?_, hcontent⟩, hsenders ▸ h.argument, hsenders ▸ h.nodup,
    fun w => (h.writer w).frame rfl rfl (by simp [senders]), fun q => ?_,
    h.printed.append_singleton fun q text he => ?_⟩
  · simp [Event.accepted, Event.delivered]
  · by_cases hq : q = r
    · rw [hq]
      simp [ReaderOk, State.setReader]
    · exact (h.reader q).frame (by simp [State.setReader, hq]) (by simp [State.setReader])
        (by simp [Event.returned])
  · cases he
    exact hok

/-- Every step keeps the invariant. -/
theorem Inv.step {a : Label ι κ} (h : Inv setup s trace)
    (hstep : s.step setup a = some (t, es)) : Inv setup t (trace ++ es) := by
  cases a with
  | writer w success =>
    have hok := h.writer w
    unfold WriterOk at hok
    simp only [State.step, State.stepWriter] at hstep
    cases hpc : s.writer w with
    | start =>
      rw [hpc] at hok hstep
      dsimp only at hstep
      split at hstep
      · obtain ⟨rfl, rfl⟩ := Prod.mk.inj (Option.some.inj hstep)
        exact h.setWriter (by simp [WriterOk, State.setWriter])
      · rename_i a ha
        obtain ⟨rfl, rfl⟩ := Prod.mk.inj (Option.some.inj hstep)
        exact h.setWriter (by simp [WriterOk, State.setWriter, hok.1, hok.2, ha])
    | write =>
      rw [hpc] at hstep
      dsimp only at hstep
      split at hstep
      · obtain ⟨rfl, rfl⟩ := Prod.mk.inj (Option.some.inj hstep)
        exact h.send hpc
      · obtain ⟨rfl, rfl⟩ := Prod.mk.inj (Option.some.inj hstep)
        exact h.setWriter (by simp [WriterOk, State.setWriter])
    | done =>
      rw [hpc] at hstep
      cases hstep
  | reader r success =>
    have hok := h.reader r
    unfold ReaderOk at hok
    simp only [State.step, State.stepReader] at hstep
    cases hpc : s.reader r with
    | clear =>
      rw [hpc] at hstep
      dsimp only at hstep
      split at hstep
      all_goals
        obtain ⟨rfl, rfl⟩ := Prod.mk.inj (Option.some.inj hstep)
        exact h.setReader (by simp [ReaderOk, State.setReader])
    | select =>
      rw [hpc] at hok hstep
      obtain ⟨rfl, rfl⟩ := Prod.mk.inj (Option.some.inj hstep)
      refine h.setReader ?_
      cases success <;> simpa [ReaderOk, State.setReader] using hok
    | read =>
      rw [hpc] at hstep
      obtain ⟨rfl, rfl⟩ := Prod.mk.inj (Option.some.inj hstep)
      exact h.read hpc
    | print =>
      rw [hpc] at hstep
      obtain ⟨rfl, rfl⟩ := Prod.mk.inj (Option.some.inj hstep)
      exact h.print hpc

end LinuxDevNote.Fifo
