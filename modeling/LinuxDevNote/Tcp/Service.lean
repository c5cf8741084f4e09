import Mathlib.Data.List.Dedup
import LinuxDevNote.Tcp.Agreement

/-!
# The order of service

The server serves the clients in the order in which they connect, whatever else happens in which
order: what it prints and closes is always an initial part of what that order gives. Nobody waits
for ever, for a client that the server reads from does not wait for the server.
-/

namespace LinuxDevNote.Tcp

open Memory Execution

variable {ι : Type*}

deriving instance DecidableEq for Label

/-- The client that takes a step. -/
def Label.caller : Label ι → Option ι
  | .client c => some c
  | .server => none

/-- The clients of a schedule in the order of their first steps, by which they connect. -/
def connections [DecidableEq ι] (as : List (Label ι)) : List ι :=
  (as.filterMap Label.caller).reverse.dedup.reverse

/-- What the server does for connections: it prints the first piece of a line, and closes the
connection. -/
def serve (setup : Setup ι) (cs : List ι) : List (Event ι) :=
  cs.flatMap fun c => [.printed c (some (setup.firstPiece c)), .closed c]

/-- The calls that a client has left. -/
def ClientPc.left : ClientPc → ℕ
  | .connect => 4
  | .fgets => 3
  | .write => 2
  | .close => 1
  | .done => 0

/-- The calls that the server has left for a connection it accepted. -/
def ServerPc.left : ServerPc ι → ℕ
  | .accept => 0
  | .read _ => 3
  | .print _ => 2
  | .close _ => 1

/-- What the server has still to do for the clients that connected. -/
def State.owed (setup : Setup ι) (s : State ι) : List (Event ι) :=
  match s.server with
  | .accept => serve setup s.backlog
  | .read c | .print c => serve setup (c :: s.backlog)
  | .close c => .closed c :: serve setup s.backlog

variable [DecidableEq ι] {setup : Setup ι} {s t : State ι} {as : List (Label ι)}
  {trace es : List (Event ι)} {c : ι}

/-- Who connected. -/
theorem mem_connections : c ∈ connections as ↔ .client c ∈ as := by
  rw [connections, List.mem_reverse, List.mem_dedup, List.mem_reverse, List.mem_filterMap]
  constructor
  · rintro ⟨a, ha, heq⟩
    cases a with
    | client c' => exact Option.some.inj heq ▸ ha
    | server => cases heq
  · exact fun h => ⟨.client c, h, rfl⟩

/-- A step of the server connects nobody. -/
theorem connections_server : connections (as ++ [.server]) = connections as := by
  have hcallers : (as ++ [Label.server]).filterMap Label.caller = as.filterMap Label.caller := by
    rw [List.filterMap_append]
    exact List.append_nil _
  rw [connections, hcallers, connections]

omit [DecidableEq ι] in
/-- A step of a client is its last so far. -/
theorem callers_client : ((as ++ [Label.client c]).filterMap Label.caller).reverse =
    c :: (as.filterMap Label.caller).reverse := by
  rw [List.filterMap_append, List.reverse_append]
  rfl

/-- The first step of a client connects it. -/
theorem connections_first (h : .client c ∉ as) :
    connections (as ++ [.client c]) = connections as ++ [c] := by
  rw [← mem_connections, connections, List.mem_reverse, List.mem_dedup] at h
  rw [connections, callers_client, List.dedup_cons_of_notMem h, List.reverse_cons, connections]

/-- Its later steps do not. -/
theorem connections_later (h : .client c ∈ as) :
    connections (as ++ [.client c]) = connections as := by
  rw [← mem_connections, connections, List.mem_reverse, List.mem_dedup] at h
  rw [connections, callers_client, List.dedup_cons_of_mem h, connections]

omit [DecidableEq ι] in
/-- Connections in two parts. -/
theorem serve_append (cs ds : List ι) : serve setup (cs ++ ds) = serve setup cs ++ serve setup ds :=
  List.flatMap_append

/-- What holds after a schedule. -/
structure Served (setup : Setup ι) (as : List (Label ι)) (s : State ι)
    (trace : List (Event ι)) : Prop where
  /-- The programs and the streams. -/
  inv : Inv setup s trace
  /-- A client makes four calls. -/
  client : ∀ c, as.count (.client c) + (s.client c).left = 4
  /-- The server makes four for each connection. -/
  server : as.count .server + (4 * s.backlog.length + s.server.left) = 4 * (connections as).length
  /-- What the server did, and has still to do, is what the order of the connections gives. -/
  order : trace ++ s.owed setup = serve setup (connections as)

/-- Nothing has happened. -/
theorem served_init (setup : Setup ι) (buffer : ℤ → UInt8) :
    Served setup [] (State.init setup buffer) [] :=
  ⟨inv_init setup buffer, fun _ => rfl, rfl, rfl⟩

/-- A client that has taken a step is in the schedule. -/
theorem Served.mem_iff (h : Served setup as s trace) : .client c ∈ as ↔ s.client c ≠ .connect := by
  have hcount := h.client c
  rw [← List.count_pos_iff]
  cases hpc : s.client c with
  | connect =>
    rw [hpc, ClientPc.left] at hcount
    simp only [ne_eq, not_true, iff_false]
    omega
  | fgets | write | close | done =>
    rw [hpc, ClientPc.left] at hcount
    simp only [ne_eq, reduceCtorEq, not_false_eq_true, iff_true]
    omega

/-- A call of a client: it is one of those it had left, and the first one connects it. -/
theorem stepClient_cases (hstep : s.stepClient setup c = some (t, es)) :
    es = [] ∧ t.server = s.server ∧
      (∃ pc, t.client = Function.update s.client c pc ∧ pc.left + 1 = (s.client c).left) ∧
      ((s.client c = .connect ∧ t.backlog = s.backlog ++ [c]) ∨
        s.client c ≠ .connect ∧ t.backlog = s.backlog) := by
  cases hpc : s.client c <;> simp only [State.stepClient, hpc] at hstep
  case connect | fgets | close =>
    obtain ⟨rfl, rfl⟩ := Prod.mk.inj (Option.some.inj hstep)
    exact ⟨rfl, rfl, ⟨_, rfl, rfl⟩, by simp [State.setClient]⟩
  case write =>
    obtain ⟨data, _, heq⟩ := Option.map_eq_some_iff.mp hstep
    obtain ⟨rfl, rfl⟩ := Prod.mk.inj heq
    exact ⟨rfl, rfl, ⟨_, rfl, rfl⟩, by simp [State.setClient]⟩
  case done => cases hstep

/-- A client makes its next call. -/
theorem Served.stepClient (h : Served setup as s trace)
    (hstep : s.stepClient setup c = some (t, es)) :
    Served setup (as ++ [.client c]) t (trace ++ es) := by
  have hinv := h.inv.stepClient hstep
  have hbefore := h.server
  have horder := h.order
  obtain ⟨rfl, hserver, ⟨pc, hclient, hleft⟩, hbacklog⟩ := stepClient_cases hstep
  have hcount : (as ++ [Label.client c]).count .server = as.count .server := by
    simp [List.count_append]
  refine ⟨hinv, fun c' => ?_, ?_, ?_⟩
  · have hold := h.client c'
    rw [hclient, List.count_append]
    by_cases hc : c' = c
    · subst hc
      rw [Function.update_self, List.count_singleton_self]
      omega
    · rw [Function.update_of_ne hc, List.count_singleton]
      simpa [Ne.symm hc] using hold
  · rw [hcount, hserver]
    rcases hbacklog with ⟨hpc, hbacklog⟩ | ⟨hpc, hbacklog⟩
    · rw [connections_first (h.mem_iff.not.mpr (not_not.mpr hpc)), hbacklog, List.length_append,
        List.length_append, List.length_singleton]
      omega
    · rw [connections_later (h.mem_iff.mpr hpc), hbacklog, hbefore]
  · rw [List.append_nil]
    rcases hbacklog with ⟨hpc, hbacklog⟩ | ⟨hpc, hbacklog⟩
    · rw [connections_first (h.mem_iff.not.mpr (not_not.mpr hpc)), serve_append, ← horder,
        List.append_assoc, List.append_cancel_left_eq]
      cases hs : s.server <;> simp [State.owed, hserver, hs, hbacklog, serve]
    · rw [connections_later (h.mem_iff.mpr hpc), ← horder]
      simp only [State.owed, hserver, hbacklog]

/-- A call of the server is one of those it had left, and does what it owed. -/
theorem stepServer_cases (h : Inv setup s trace) (hstep : s.stepServer = some (t, es)) :
    t.client = s.client ∧
      4 * t.backlog.length + t.server.left + 1 = 4 * s.backlog.length + s.server.left ∧
      es ++ t.owed setup = s.owed setup := by
  cases hserver : s.server <;> simp only [State.stepServer, hserver] at hstep
  case accept =>
    cases hbacklog : s.backlog with
    | nil => simp [hbacklog] at hstep
    | cons c backlog =>
      simp only [hbacklog, Option.some.injEq, Prod.mk.injEq] at hstep
      obtain ⟨rfl, rfl⟩ := hstep
      refine ⟨rfl, ?_, ?_⟩
      · simp only [ServerPc.left, List.length_cons]
        omega
      · simp [State.owed, hserver, hbacklog]
  case read c =>
    split at hstep
    · obtain ⟨rfl, rfl⟩ := Prod.mk.inj (Option.some.inj hstep)
      exact ⟨rfl, rfl, by simp [State.owed, hserver]⟩
    · obtain ⟨rfl, rfl⟩ := Prod.mk.inj (Option.some.inj hstep)
      exact ⟨rfl, rfl, by simp [State.owed, hserver]⟩
    · cases hstep
  case print c =>
    obtain ⟨rfl, rfl⟩ := Prod.mk.inj (Option.some.inj hstep)
    exact ⟨rfl, rfl, by simp [State.owed, hserver, serve, h.received c hserver]⟩
  case close c =>
    obtain ⟨rfl, rfl⟩ := Prod.mk.inj (Option.some.inj hstep)
    exact ⟨rfl, rfl, by simp [State.owed, hserver]⟩

/-- The server makes its next call. -/
theorem Served.stepServer (h : Served setup as s trace) (hstep : s.stepServer = some (t, es)) :
    Served setup (as ++ [.server]) t (trace ++ es) := by
  have hinv := h.inv.stepServer hstep
  have hbefore := h.server
  have horder := h.order
  obtain ⟨hclient, hleft, howed⟩ := stepServer_cases h.inv hstep
  refine ⟨hinv, fun c => ?_, ?_, ?_⟩
  · rw [hclient, ← h.client c, List.count_append, List.count_singleton]
    simp
  · rw [connections_server, List.count_append, List.count_singleton_self]
    omega
  · rw [connections_server, List.append_assoc, howed, horder]

omit [DecidableEq ι] in
/-- Nothing is owed when nobody waits and the server is not in a connection. -/
theorem owed_eq_nil_iff : s.owed setup = [] ↔ s.server = .accept ∧ s.backlog = [] := by
  cases hs : s.server with
  | accept =>
    cases hbacklog : s.backlog <;> simp [State.owed, hs, hbacklog, serve]
  | read c | print c | close c => simp [State.owed, hs, serve]

/-- A client that is not done can make its next call. -/
theorem Inv.client_step (h : Inv setup s trace) (hpc : s.client c ≠ .done) :
    (s.stepClient setup c).isSome = true := by
  cases hc : s.client c with
  | connect | fgets | close => simp [State.stepClient, hc]
  | write => simp [State.stepClient, hc, h.typed c hc]
  | done => exact absurd hc hpc

/-- The programs are stuck when every client is done and the server owes nothing. -/
theorem Inv.stuck_iff (h : Inv setup s trace) :
    (∀ a, s.step setup a = none) ↔ (∀ c, s.client c = .done) ∧ s.owed setup = [] := by
  rw [owed_eq_nil_iff]
  constructor
  · intro hstuck
    have hdone (c : ι) : s.client c = .done := by
      by_contra hpc
      have hstep := h.client_step hpc
      rw [show s.stepClient setup c = none from hstuck (.client c)] at hstep
      cases hstep
    have hserver := hstuck .server
    refine ⟨hdone, ?_⟩
    cases hs : s.server with
    | accept =>
      cases hbacklog : s.backlog with
      | nil => exact ⟨rfl, rfl⟩
      | cons c backlog => simp [State.step, State.stepServer, hs, hbacklog] at hserver
    | read c =>
      -- the client has written its line before it was done
      cases hstream : s.stream c <;>
        simp [State.step, State.stepServer, hs, hstream, hdone c] at hserver
    | print c | close c => simp [State.step, State.stepServer, hs] at hserver
  · rintro ⟨hdone, hserver, hbacklog⟩ a
    cases a with
    | client c => simp [State.step, State.stepClient, hdone c]
    | server => simp [State.step, State.stepServer, hserver, hbacklog]

/-- **The order of service.** In every schedule of the clients and the server, each client makes at
most four calls, and the server four for each connection; what the server prints and closes is an
initial part of what the order of the connections gives, and nobody can go on exactly when each
client has made its four calls and the server has done all of it. -/
theorem serves_in_order {buffer : ℤ → UInt8}
    (hexec : exec (State.step setup) (State.init setup buffer) as = some (s, trace)) :
    (∀ c, as.count (.client c) ≤ 4) ∧ as.count .server ≤ 4 * (connections as).length ∧
      trace <+: serve setup (connections as) ∧
      ((∀ a, s.step setup a = none) ↔
        (∀ c, as.count (.client c) = 4) ∧ trace = serve setup (connections as)) := by
  have h : Served setup as s trace :=
    exec_invariant hexec (served_init setup buffer) fun {_ _ _ a _ _} h hstep => by
      cases a with
      | client c => exact h.stepClient hstep
      | server => exact h.stepServer hstep
  have hserver := h.server
  refine ⟨fun c => ?_, by omega, ⟨_, h.order⟩, ?_⟩
  · have hclient := h.client c
    omega
  · rw [h.inv.stuck_iff, ← h.order]
    refine and_congr (forall_congr' fun c => ?_) ?_
    · have hclient := h.client c
      cases hpc : s.client c <;> simp only [hpc, ClientPc.left] at hclient <;> simp <;> omega
    · exact List.self_eq_append_right.symm

/-- Two clients with the same line, cut in the same way. -/
def twoLines : Setup Bool :=
  ⟨fun _ => cutLine.stdin (), fun _ => cutLine.segmentation (), fun _ => cutLine.junk ()⟩

/-- The one that connects first is served first, though the other one writes before it. -/
theorem serves_in_order_run :
    ∃ s trace, exec (State.step twoLines) (State.init twoLines fun _ => 0)
        [.client true, .client false, .client false, .client false, .client true, .server,
          .client true, .server, .server, .server, .client false] = some (s, trace) ∧
      trace <+: serve twoLines [true, false] ∧ ¬ ∀ a, s.step twoLines a = none := by
  obtain ⟨⟨s, trace⟩, hexec⟩ := Option.isSome_iff_exists.mp
    (show (exec (State.step twoLines) (State.init twoLines fun _ => 0)
      [.client true, .client false, .client false, .client false, .client true, .server,
        .client true, .server, .server, .server, .client false]).isSome = true by decide +kernel)
  obtain ⟨_, _, horder, hstuck⟩ := serves_in_order hexec
  refine ⟨s, trace, hexec, horder, fun h => ?_⟩
  have hclient := (hstuck.mp h).1 true
  revert hclient
  decide +kernel

end LinuxDevNote.Tcp
