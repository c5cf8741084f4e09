import Mathlib.Data.List.Nodup
import LinuxDevNote.Tcp.Programs

/-!
# Client and server agree on the line

The server reads once from every connection. Whatever the order of steps, it prints
the first piece of the line for every connection, once; so client and server agree on
the line exactly when the line is not cut.
-/

namespace LinuxDevNote.Tcp

open Memory Execution

variable {ι : Type*}

/-- The connections for which the server printed a line, in order. -/
def printers (trace : List (Event ι)) : List ι :=
  trace.filterMap fun
    | .printed c _ => some c
    | .closed _ => none

/-- The server prints exactly the line of `c`, once. -/
structure Agreed [DecidableEq ι] (setup : Setup ι) (trace : List (Event ι)) (c : ι) : Prop where
  /-- Nothing is missing and nothing added. -/
  exact : ∀ text, .printed c text ∈ trace → text = some (setup.line c)
  /-- Nothing is printed twice. -/
  once : (printers trace).count c ≤ 1
  /-- A connection is closed after its line was printed. -/
  served : .closed c ∈ trace → c ∈ printers trace

/-- The connections that still wait for their line to be printed. -/
def State.pending (s : State ι) : List ι :=
  match s.server with
  | .read c | .print c => c :: s.backlog
  | .accept | .close _ => s.backlog

/-- What a client has put into its stream when it comes to a call. -/
def Setup.sent (setup : Setup ι) (c : ι) : ClientPc → List (List UInt8)
  | .connect | .fgets | .write => []
  | .close | .done => (setup.segmentation c).pieces (setup.line c)

/-- The invariant of the system. -/
structure Inv (setup : Setup ι) (s : State ι) (trace : List (Event ι)) : Prop where
  /-- A client writes the line it read. -/
  typed : ∀ c, s.client c = .write → text (s.clientBuf c) = some (setup.line c)
  /-- A stream that was not read holds what its client sent. -/
  stream : ∀ c, c ∉ printers trace → s.server ≠ .print c → s.stream c = setup.sent c (s.client c)
  /-- Every connection waits once. -/
  nodup : s.pending.Nodup
  /-- Only connections without a line wait. -/
  waits : ∀ c ∈ s.pending, c ∉ printers trace ∧ s.client c ≠ .connect
  /-- No connection has two lines. -/
  once : (printers trace).Nodup
  /-- Only clients that connected have a line. -/
  connected : ∀ c ∈ printers trace, s.client c ≠ .connect
  /-- Every line printed is a first piece. -/
  printed : ∀ c text, .printed c text ∈ trace → text = some (setup.firstPiece c)
  /-- After its read the server holds the first piece. -/
  received : ∀ c, s.server = .print c → text s.buffer = some (setup.firstPiece c)
  /-- The server closes a connection after it printed its line. -/
  closing : ∀ c, s.server = .close c → c ∈ printers trace
  /-- Closed connections have a line. -/
  closed : ∀ c, .closed c ∈ trace → c ∈ printers trace

/-- Nothing has happened yet. -/
theorem inv_init (setup : Setup ι) (buffer : ℤ → UInt8) :
    Inv setup (State.init setup buffer) [] where
  typed c hc := by cases hc
  stream c _ _ := rfl
  nodup := List.nodup_nil
  waits c hc := by cases hc
  once := List.nodup_nil
  connected c hc := by cases hc
  printed c text h := by cases h
  received c hc := by cases hc
  closing c hc := by cases hc
  closed c hc := by cases hc

variable [DecidableEq ι] {setup : Setup ι} {s t : State ι} {trace es : List (Event ι)}

/-- A client that moves changes its own buffer and stream only. -/
theorem Inv.client {c : ι} {pc : ClientPc} (h : Inv setup s trace)
    (hclient : t.client = Function.update s.client c pc) (hpc : pc ≠ .connect)
    (hserver : t.server = s.server) (hbuffer : t.buffer = s.buffer)
    (hother : ∀ c', c' ≠ c → t.clientBuf c' = s.clientBuf c' ∧ t.stream c' = s.stream c')
    (htyped : pc = .write → text (t.clientBuf c) = some (setup.line c))
    (hstream : s.stream c = setup.sent c (s.client c) → t.stream c = setup.sent c pc)
    (hnodup : t.pending.Nodup)
    (hpending : ∀ c' ∈ t.pending, c' ∈ s.pending ∨ c' = c ∧ c ∉ printers trace) :
    Inv setup t trace := by
  have hself : t.client c = pc := by rw [hclient, Function.update_self]
  have hsame : ∀ c', c' ≠ c → t.client c' = s.client c' := fun c' hc' => by
    rw [hclient, Function.update_of_ne hc']
  have hconnected : ∀ c', s.client c' ≠ .connect → t.client c' ≠ .connect := by
    intro c' hc'
    by_cases heq : c' = c
    · rw [heq, hself]
      exact hpc
    · rw [hsame c' heq]
      exact hc'
  refine ⟨fun c' hc' => ?_, fun c' hc' hprint => ?_, hnodup, fun c' hc' => ?_, h.once,
    fun c' hc' => hconnected c' (h.connected c' hc'), h.printed, fun c' hc' => ?_,
    fun c' hc' => h.closing c' (hserver ▸ hc'), h.closed⟩
  · by_cases heq : c' = c
    · subst heq
      exact htyped (hself.symm.trans hc')
    · rw [(hother c' heq).1]
      exact h.typed c' (hsame c' heq ▸ hc')
  · rw [hserver] at hprint
    by_cases heq : c' = c
    · subst heq
      rw [hself]
      exact hstream (h.stream c' hc' hprint)
    · rw [(hother c' heq).2, hsame c' heq]
      exact h.stream c' hc' hprint
  · rcases hpending c' hc' with hold | ⟨rfl, hfresh⟩
    · exact ⟨(h.waits c' hold).1, hconnected c' (h.waits c' hold).2⟩
    · exact ⟨hfresh, by rw [hself]; exact hpc⟩
  · rw [hbuffer]
    exact h.received c' (hserver ▸ hc')

/-- Every step of a client keeps the invariant. -/
theorem Inv.stepClient {c : ι} (h : Inv setup s trace)
    (hstep : s.stepClient setup c = some (t, es)) : Inv setup t (trace ++ es) := by
  cases hpc : s.client c <;> simp only [State.stepClient, hpc] at hstep
  case connect =>
    obtain ⟨rfl, rfl⟩ := Prod.mk.inj (Option.some.inj hstep)
    have hpending : State.pending ({ s with backlog := s.backlog ++ [c] }.setClient c .fgets) =
        s.pending ++ [c] := by
      unfold State.pending State.setClient
      cases s.server <;> simp
    have hnew : c ∉ s.pending := fun hc => (h.waits c hc).2 hpc
    rw [List.append_nil]
    refine h.client rfl (by simp) rfl rfl (fun _ _ => ⟨rfl, rfl⟩) (by simp) ?_ ?_ ?_
    · rw [hpc]
      exact id
    · rw [hpending, ← List.concat_eq_append]
      exact h.nodup.concat hnew
    · intro c' hc'
      rw [hpending, List.mem_append, List.mem_singleton] at hc'
      exact hc'.imp_right fun heq => ⟨heq, fun hc => h.connected c hc hpc⟩
  case fgets =>
    obtain ⟨rfl, rfl⟩ := Prod.mk.inj (Option.some.inj hstep)
    rw [List.append_nil]
    refine h.client rfl (by simp) rfl rfl
      (fun c' hc' => ⟨Function.update_of_ne hc' _ _, rfl⟩) ?_ ?_ h.nodup fun _ => Or.inl
    · intro _
      simp only [State.setClient, Function.update_self]
      exact text_store _ (setup.line_nul_free c) (setup.line_length_lt c)
    · rw [hpc]
      exact id
  case write =>
    rw [h.typed c hpc] at hstep
    obtain ⟨rfl, rfl⟩ := Prod.mk.inj (Option.some.inj hstep)
    rw [List.append_nil]
    refine h.client rfl (by simp) rfl rfl
      (fun c' hc' => ⟨rfl, Function.update_of_ne hc' _ _⟩) (by simp) ?_ h.nodup fun _ => Or.inl
    intro _
    simp [State.setClient, Setup.sent]
  case close =>
    obtain ⟨rfl, rfl⟩ := Prod.mk.inj (Option.some.inj hstep)
    rw [List.append_nil]
    refine h.client rfl (by simp) rfl rfl (fun _ _ => ⟨rfl, rfl⟩) (by simp) ?_ h.nodup
      fun _ => Or.inl
    rw [hpc]
    exact id
  case done => cases hstep

omit [DecidableEq ι] in
/-- The server, at its only read from a connection, finds the first piece. -/
theorem Inv.stream_eq {c : ι} (h : Inv setup s trace) (hserver : s.server = .read c)
    (hstarted : s.stream c ≠ [] ∨ s.client c = .done) :
    ∃ rest, s.stream c = setup.firstPiece c :: rest := by
  have hpending : c ∈ s.pending := by simp [State.pending, hserver]
  have hstream := h.stream c (h.waits c hpending).1 (by simp [hserver])
  obtain ⟨rest, hpieces⟩ := setup.pieces_eq c
  refine ⟨rest, ?_⟩
  rw [hstream]
  cases hpc : s.client c with
  | close => exact hpieces
  | done => exact hpieces
  | connect => simp [hstream, hpc, Setup.sent] at hstarted
  | fgets => simp [hstream, hpc, Setup.sent] at hstarted
  | write => simp [hstream, hpc, Setup.sent] at hstarted

omit [DecidableEq ι] in
/-- What is known of the connections that wait. -/
theorem Inv.of_pending {waiting : List ι} (h : Inv setup s trace) (hpending : s.pending = waiting) :
    waiting.Nodup ∧ ∀ c ∈ waiting, c ∉ printers trace ∧ s.client c ≠ .connect :=
  hpending ▸ ⟨h.nodup, h.waits⟩

omit [DecidableEq ι] in
/-- The server accepts the first connection that waits. -/
theorem Inv.accept {c : ι} {backlog : List ι} (h : Inv setup s trace)
    (hserver : s.server = .accept) (hbacklog : s.backlog = c :: backlog) :
    Inv setup { s with backlog := backlog, server := .read c } trace := by
  have hpending : s.pending = c :: backlog := by rw [State.pending, hserver, hbacklog]
  obtain ⟨hnodup, hwaits⟩ := h.of_pending hpending
  exact
    { h with
      stream := fun c' hc' _ => h.stream c' hc' (by simp [hserver])
      nodup := hnodup
      waits := hwaits
      received := fun c' hc' => by cases hc'
      closing := fun c' hc' => by cases hc' }

/-- The server reads the first piece. -/
theorem Inv.read {c : ι} {piece : List UInt8} {rest unread : List (List UInt8)}
    (h : Inv setup s trace) (hserver : s.server = .read c) (hstream : s.stream c = piece :: rest) :
    Inv setup
      { s with
        stream := Function.update s.stream c unread
        buffer := store s.buffer (piece.take bufSize)
        server := .print c } trace := by
  obtain ⟨rest', hfirst⟩ := h.stream_eq hserver (by simp [hstream])
  obtain ⟨rfl, -⟩ := List.cons.inj (hstream.symm.trans hfirst)
  have hpending : s.pending = c :: s.backlog := by rw [State.pending, hserver]
  obtain ⟨hnodup, hwaits⟩ := h.of_pending hpending
  refine
    { h with
      stream := fun c' hc' hprint => ?_
      nodup := hnodup
      waits := hwaits
      received := fun c' hc' => ?_
      closing := fun c' hc' => by cases hc' }
  · have hne : c' ≠ c := by
      rintro rfl
      exact hprint rfl
    dsimp only
    rw [Function.update_of_ne hne]
    exact h.stream c' hc' (by simp [hserver])
  · cases hc'
    exact setup.text_firstPiece c _

omit [DecidableEq ι] in
/-- The connections with a line, after some more events. -/
theorem printers_append : printers (trace ++ es) = printers trace ++ printers es :=
  List.filterMap_append

omit [DecidableEq ι] in
/-- The server prints the first piece. -/
theorem Inv.print {c : ι} (h : Inv setup s trace) (hserver : s.server = .print c) :
    Inv setup { s with server := .close c } (trace ++ [.printed c (text s.buffer)]) := by
  have hpending : s.pending = c :: s.backlog := by rw [State.pending, hserver]
  obtain ⟨hnodup, hwaits⟩ := h.of_pending hpending
  obtain ⟨hfresh, hstarted⟩ := hwaits c List.mem_cons_self
  have hprinters : printers (trace ++ [.printed c (text s.buffer)]) = printers trace ++ [c] :=
    printers_append
  have hmem : ∀ {c'}, c' ∈ printers trace ∨ c' = c ↔
      c' ∈ printers (trace ++ [.printed c (text s.buffer)]) := by
    intro c'
    rw [hprinters, List.mem_append, List.mem_singleton]
  constructor
  case typed => exact h.typed
  case stream =>
    intro c' hc' _
    rw [← hmem, not_or] at hc'
    exact h.stream c' hc'.1 (by simp [hserver, Ne.symm hc'.2])
  case nodup => exact (List.nodup_cons.mp hnodup).2
  case waits =>
    intro c' hc'
    have hwait := hwaits c' (List.mem_cons_of_mem _ hc')
    rw [← hmem, not_or]
    refine ⟨⟨hwait.1, ?_⟩, hwait.2⟩
    rintro rfl
    exact (List.nodup_cons.mp hnodup).1 hc'
  case once =>
    rw [hprinters, ← List.concat_eq_append]
    exact h.once.concat hfresh
  case connected =>
    intro c' hc'
    rcases hmem.mpr hc' with hold | rfl
    · exact h.connected c' hold
    · exact hstarted
  case printed =>
    intro c' line hline
    rcases List.mem_append.mp hline with hold | hnew
    · exact h.printed c' line hold
    · obtain ⟨rfl, htext⟩ := Event.printed.inj (List.mem_singleton.mp hnew)
      exact htext.trans (h.received c' hserver)
  case received =>
    intro c' hc'
    cases hc'
  case closing =>
    intro c' hc'
    cases hc'
    exact hmem.mp (Or.inr rfl)
  case closed =>
    intro c' hc'
    rcases List.mem_append.mp hc' with hold | hnew
    · exact hmem.mp (Or.inl (h.closed c' hold))
    · cases List.mem_singleton.mp hnew

omit [DecidableEq ι] in
/-- The server closes the connection. -/
theorem Inv.close {c : ι} (h : Inv setup s trace) (hserver : s.server = .close c) :
    Inv setup { s with server := .accept } (trace ++ [.closed c]) := by
  have hpending : s.pending = s.backlog := by rw [State.pending, hserver]
  have hprinters : printers (trace ++ [.closed c]) = printers trace := by
    rw [printers_append]
    exact List.append_nil _
  obtain ⟨hnodup, hwaits⟩ := h.of_pending hpending
  constructor
  case typed => exact h.typed
  case stream =>
    intro c' hc' _
    rw [hprinters] at hc'
    exact h.stream c' hc' (by simp [hserver])
  case nodup => exact hnodup
  case waits =>
    rw [hprinters]
    exact hwaits
  case once =>
    rw [hprinters]
    exact h.once
  case connected =>
    rw [hprinters]
    exact h.connected
  case printed =>
    intro c' line hline
    rcases List.mem_append.mp hline with hold | hnew
    · exact h.printed c' line hold
    · cases List.mem_singleton.mp hnew
  case received =>
    intro c' hc'
    cases hc'
  case closing =>
    intro c' hc'
    cases hc'
  case closed =>
    intro c' hc'
    rw [hprinters]
    rcases List.mem_append.mp hc' with hold | hnew
    · exact h.closed c' hold
    · obtain rfl := Event.closed.inj (List.mem_singleton.mp hnew)
      exact h.closing c' hserver

/-- Every step of the server keeps the invariant. -/
theorem Inv.stepServer (h : Inv setup s trace) (hstep : s.stepServer = some (t, es)) :
    Inv setup t (trace ++ es) := by
  cases hserver : s.server <;> simp only [State.stepServer, hserver] at hstep
  case accept =>
    cases hbacklog : s.backlog with
    | nil => simp [hbacklog] at hstep
    | cons c backlog =>
      simp only [hbacklog, Option.some.injEq, Prod.mk.injEq] at hstep
      obtain ⟨rfl, rfl⟩ := hstep
      rw [List.append_nil]
      exact h.accept hserver hbacklog
  case read c =>
    cases hstream : s.stream c with
    | nil =>
      cases hpc : s.client c with
      | done =>
        obtain ⟨rest, hfirst⟩ := h.stream_eq hserver (Or.inr hpc)
        rw [hstream] at hfirst
        cases hfirst
      | _ => simp [hstream, hpc] at hstep
    | cons piece rest =>
      simp only [hstream, Option.some.injEq, Prod.mk.injEq] at hstep
      obtain ⟨rfl, rfl⟩ := hstep
      rw [List.append_nil]
      exact h.read hserver hstream
  case print c =>
    obtain ⟨rfl, rfl⟩ := Prod.mk.inj (Option.some.inj hstep)
    exact h.print hserver
  case close c =>
    obtain ⟨rfl, rfl⟩ := Prod.mk.inj (Option.some.inj hstep)
    exact h.close hserver

/-- In every run the system is as it should be. -/
theorem inv_of_run {buffer : ℤ → UInt8}
    (hrun : Run (State.step setup) anyLabel (State.init setup buffer) s trace) :
    Inv setup s trace :=
  hrun.invariant (I := Inv setup) (inv_init setup buffer) fun {_ _ a _ _} h _ hstep => by
    cases a with
    | client c => exact h.stepClient hstep
    | server => exact h.stepServer hstep

/-- Every connection can be served first, and then its first piece is printed. -/
theorem exists_run_printed (setup : Setup ι) (buffer : ℤ → UInt8) (c : ι) :
    ∃ s, Run (State.step setup) anyLabel (State.init setup buffer) s
      [.printed c (some (setup.firstPiece c))] := by
  have hline : text (store (setup.junk c) (fgets (bufSize - 1) (setup.stdin c).bytes)) =
      some (setup.line c) :=
    text_store _ (setup.line_nul_free c) (setup.line_length_lt c)
  obtain ⟨rest, hpieces⟩ := setup.pieces_eq c
  have hexec : ∃ s, exec (State.step setup) (State.init setup buffer)
      [.client c, .client c, .client c, .server, .server, .server] =
        some (s, [.printed c (some (setup.firstPiece c))]) := by
    simp [exec, State.step, State.stepClient, State.stepServer, State.init, State.setClient, hline,
      hpieces, setup.text_firstPiece c]
  obtain ⟨s, hexec⟩ := hexec
  exact ⟨s, run_of_exec (meets_anyLabel _ _) hexec⟩

/-- **Agreement on the line.** For every connection, the server prints exactly the
line of its client, once, in every run, exactly when the first piece of the stream is
the whole line. -/
theorem agreed_iff (setup : Setup ι) (buffer : ℤ → UInt8) (c : ι) :
    (∀ s trace, Run (State.step setup) anyLabel (State.init setup buffer) s trace →
      Agreed setup trace c) ↔ setup.firstPiece c = setup.line c := by
  constructor
  · intro h
    obtain ⟨s, hrun⟩ := exists_run_printed setup buffer c
    exact Option.some.inj ((h s _ hrun).exact _ List.mem_cons_self)
  · intro hwhole s trace hrun
    have hinv := inv_of_run hrun
    exact
      { exact := fun line hline => by rw [hinv.printed c line hline, hwhole]
        once := List.nodup_iff_count_le_one.mp hinv.once c
        served := hinv.closed c }

/-- A line of two bytes whose stream is cut after each byte. -/
def cutLine : Setup Unit where
  stdin _ := ⟨[97, 98], by decide, by decide⟩
  segmentation _ :=
    { pieces := fun bytes => bytes.map fun b => [b]
      flatten := fun bytes => List.flatMap_def.symm.trans (List.flatMap_singleton' bytes)
      nonempty := fun bytes => by simp }
  junk _ _ := 0

/-- The same line with a stream that is not cut. -/
def uncutLine : Setup Unit :=
  { cutLine with
    segmentation := fun _ =>
      { pieces := fun bytes => if bytes = [] then [] else [bytes]
        flatten := fun bytes => by split_ifs with h <;> simp [h]
        nonempty := fun bytes => by split_ifs with h <;> simp [eq_comm, h] } }

/-- Of the line that is not cut the server prints both bytes, and every run agrees on them. -/
theorem agreed_iff_run :
    ∃ s, Run (State.step uncutLine) anyLabel (State.init uncutLine fun _ => 0) s
        [.printed () (some [97, 98])] ∧
      ∀ s trace, Run (State.step uncutLine) anyLabel (State.init uncutLine fun _ => 0) s trace →
        Agreed uncutLine trace () := by
  obtain ⟨s, hrun⟩ := exists_run_printed uncutLine (fun _ => 0) ()
  have hwhole : uncutLine.firstPiece () = [97, 98] := by decide
  rw [hwhole] at hrun
  exact ⟨s, hrun, (agreed_iff uncutLine (fun _ => 0) ()).mpr (by decide)⟩

/-- Of a line that is cut the server prints the first piece only. -/
theorem cut_line_not_printed :
    ¬ ∀ (setup : Setup Unit) (buffer : ℤ → UInt8) (c : Unit) (s : State Unit)
      (trace : List (Event Unit)),
        Run (State.step setup) anyLabel (State.init setup buffer) s trace →
          Agreed setup trace c := by
  intro h
  obtain ⟨s, hrun⟩ := exists_run_printed cutLine (fun _ => 0) ()
  have hprinted := (h _ _ _ _ _ hrun).exact _ List.mem_cons_self
  exact absurd (Option.some.inj hprinted) (by decide)

end LinuxDevNote.Tcp
