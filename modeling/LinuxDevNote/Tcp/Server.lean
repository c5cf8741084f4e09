import LinuxDevNote.Tcp.Agreement

/-!
# The server loop with any peer

`tcp_server` asks every connection for up to 1024 bytes and stores a NUL behind those it
got, in a buffer of 1024 bytes that all connections share. The NUL cuts off whatever an
earlier connection left there, and it falls within the buffer exactly when the read did
not fill it. The lines of `tcp_client` never do.
-/

namespace LinuxDevNote.Tcp

open Memory Execution

/-- What one `read` returns: some bytes, and at most as many as were asked for. -/
structure Payload where
  /-- The bytes. -/
  bytes : List UInt8
  /-- `read` was asked for 1024 of them. -/
  le : bytes.length ≤ bufSize

/-- The call that the loop of `main` makes next. The bytes that were read stand here for the
comparison; the program keeps their number only. -/
inductive LoopPc
  | accept
  | read
  | print (data : List UInt8)
  | close
  | exited

/-- The server: its buffer, with the memory around it, and where it stands. -/
structure Loop where
  /-- `buffer`. -/
  buffer : ℤ → UInt8
  /-- The next call. -/
  pc : LoopPc

/-- The server listens. -/
def Loop.init (buffer : ℤ → UInt8) : Loop := ⟨buffer, .accept⟩

/-- What the outside decides about a call: whether `accept` succeeds, and what `read` returns,
`none` for an error. -/
inductive Outcome
  | accepted (success : Bool)
  | received (payload : Option Payload)
  | proceeds

/-- What is watched: the index of every store into the buffer, and every text printed, next
to the bytes that were read. -/
inductive Observed
  | stored (index : ℤ)
  | printed (data : List UInt8) (text : Option (List UInt8))

/-- The next call of the loop, with the assignments up to the one after it. -/
def Loop.step (s : Loop) (a : Outcome) : Option (Loop × List Observed) :=
  match s.pc, a with
  | .accept, .accepted true => some ({ s with pc := .read }, [])
  | .accept, .accepted false => some ({ s with pc := .exited }, [])
  | .read, .received none => some ({ s with pc := .exited }, [])
  | .read, .received (some p) =>
    -- `buffer[nbytes]` is the last index stored to
    some (⟨store s.buffer p.bytes, .print p.bytes⟩,
      (indices 0 (p.bytes.length + 1)).map .stored)
  | .print data, .proceeds => some ({ s with pc := .close }, [.printed data (text s.buffer)])
  | .close, .proceeds => some ({ s with pc := .accept }, [])
  | _, _ => none

/-- A store falls within the buffer, and a text is what was read, up to its first NUL. -/
def Observed.Good : Observed → Prop
  | .stored index => Within bufSize index
  | .printed data text => text = some (data.takeWhile (· ≠ 0))

/-- A read leaves room for the terminator. -/
def Outcome.LeavesRoom : Outcome → Prop
  | .received (some p) => p.bytes.length < bufSize
  | _ => True

/-- The text to be printed is that of the bytes just read. -/
def Loop.Terminated (s : Loop) : Prop :=
  ∀ data, s.pc = .print data → text s.buffer = some (data.takeWhile (· ≠ 0))

variable {s t : Loop} {a : Outcome} {es : List Observed}

/-- What a step can do: move on without a trace, read, or print. -/
theorem Loop.step_cases (h : s.step a = some (t, es)) :
    (es = [] ∧ a.LeavesRoom ∧ ∀ data, t.pc ≠ .print data) ∨
      (∃ p, a = .received (some p) ∧ t = ⟨store s.buffer p.bytes, .print p.bytes⟩ ∧
        es = (indices 0 (p.bytes.length + 1)).map .stored) ∨
      ∃ data, s.pc = .print data ∧ a = .proceeds ∧ t = { s with pc := .close } ∧
        es = [.printed data (text s.buffer)] := by
  unfold Loop.step at h
  split at h
  case h_4 p hpc =>
    obtain ⟨rfl, rfl⟩ := Prod.mk.inj (Option.some.inj h)
    exact Or.inr (Or.inl ⟨p, rfl, rfl, rfl⟩)
  case h_5 data hpc =>
    obtain ⟨rfl, rfl⟩ := Prod.mk.inj (Option.some.inj h)
    exact Or.inr (Or.inr ⟨data, hpc, rfl, rfl, rfl⟩)
  case h_7 => cases h
  all_goals
    obtain ⟨rfl, rfl⟩ := Prod.mk.inj (Option.some.inj h)
    exact Or.inl ⟨rfl, trivial, fun data hdata => by cases hdata⟩

/-- The stores of a read and its terminator are within the buffer exactly when the read left
room. -/
theorem forall_stored_iff (n : ℕ) :
    (∀ e ∈ (indices 0 (n + 1)).map Observed.stored, e.Good) ↔ n < bufSize := by
  rw [List.forall_mem_map]
  refine forall_mem_indices_within.trans ?_
  omega

/-- A step does no harm exactly when its read leaves room. -/
theorem Loop.Terminated.good_iff (h : s.Terminated) (hstep : s.step a = some (t, es)) :
    (∀ e ∈ es, e.Good) ↔ a.LeavesRoom := by
  rcases Loop.step_cases hstep with ⟨rfl, hroom, _⟩ | ⟨p, rfl, _, rfl⟩ | ⟨data, hpc, rfl, _, rfl⟩
  · exact iff_of_true (by simp) hroom
  · exact forall_stored_iff _
  · refine iff_of_true (fun e he => ?_) trivial
    rw [List.mem_singleton.mp he]
    exact h data hpc

/-- Where there was room the terminator cuts off whatever was in the buffer before. -/
theorem Loop.Terminated.step (hroom : a.LeavesRoom) (hstep : s.step a = some (t, es)) :
    t.Terminated := by
  rcases Loop.step_cases hstep with ⟨_, _, hpc⟩ | ⟨p, rfl, rfl, _⟩ | ⟨data, _, _, rfl, _⟩
  · exact fun data hdata => absurd hdata (hpc data)
  · intro data hdata
    rw [← LoopPc.print.inj hdata]
    exact text_store_takeWhile s.buffer hroom
  · intro data' hdata
    cases hdata

/-- The loop does no harm exactly when every read leaves room. -/
theorem forall_good_iff {buffer : ℤ → UInt8} {as : List Outcome} {trace : List Observed}
    (hexec : exec Loop.step (Loop.init buffer) as = some (s, trace)) :
    (∀ e ∈ trace, e.Good) ↔ ∀ a ∈ as, a.LeavesRoom := by
  refine (forall_events_iff_meets Loop.Terminated Observed.Good (fun _ a => a.LeavesRoom)
    (fun h hstep => h.good_iff hstep) (fun _ hroom hstep => Loop.Terminated.step hroom hstep)
    (fun data hdata => by cases hdata) hexec).trans ⟨fun hmeets a ha => ?_, fun hroom => ?_⟩
  · obtain ⟨_, hroom⟩ := hmeets.exists_of_mem hexec a ha
    exact hroom
  · exact meets_of_forall_mem (fun a ha _ => hroom a ha) _

/-- **The server loop with any peer.** For every sequence of connections and every result of
each read: all stores fall within the buffer and every text is that of the connection's own
bytes exactly when no read fills the buffer. -/
theorem loop_good_iff {buffer : ℤ → UInt8} {as : List Outcome} {trace : List Observed}
    (hexec : exec Loop.step (Loop.init buffer) as = some (s, trace)) :
    (∀ e ∈ trace, e.Good) ↔ ∀ p, .received (some p) ∈ as → p.bytes.length < bufSize := by
  refine (forall_good_iff hexec).trans ⟨fun hroom p hp => hroom _ hp, fun hroom a ha => ?_⟩
  cases a with
  | accepted | proceeds => trivial
  | received payload =>
    cases payload with
    | none => trivial
    | some p => exact hroom p ha

/-- A long line and then a short one: the second text is the short line. -/
theorem loop_good_iff_run :
    ∃ s trace, exec Loop.step (Loop.init fun _ => 9)
        [.accepted true, .received (some ⟨[7, 7, 7], by decide⟩), .proceeds, .proceeds,
          .accepted true, .received (some ⟨[8, 0, 8], by decide⟩), .proceeds] = some (s, trace) ∧
      ∀ e ∈ trace, e.Good := by
  obtain ⟨⟨s, trace⟩, hexec⟩ := Option.isSome_iff_exists.mp
    (show (exec Loop.step (Loop.init fun _ => 9)
      [.accepted true, .received (some ⟨[7, 7, 7], by decide⟩), .proceeds, .proceeds,
        .accepted true, .received (some ⟨[8, 0, 8], by decide⟩), .proceeds]).isSome = true from rfl)
  refine ⟨s, trace, hexec, (loop_good_iff hexec).mpr fun p hp => ?_⟩
  simp only [List.mem_cons, Outcome.received.injEq, Option.some.injEq, reduceCtorEq, false_or,
    List.not_mem_nil, or_false] at hp
  rcases hp with rfl | rfl <;> decide

/-- A peer sends 1024 bytes at once, and the terminator falls behind the buffer. -/
theorem terminator_overflows :
    ¬ ∀ (buffer : ℤ → UInt8) (as : List Outcome) (s : Loop) (trace : List Observed),
      exec Loop.step (Loop.init buffer) as = some (s, trace) → ∀ e ∈ trace, e.Good := by
  intro h
  have hfull : (List.replicate bufSize (7 : UInt8)).length = bufSize := List.length_replicate
  have hexec : exec Loop.step (Loop.init fun _ => 0)
      [.accepted true, .received (some ⟨List.replicate bufSize 7, hfull.le⟩)] =
        some (⟨store (fun _ => 0) (List.replicate bufSize 7), .print (List.replicate bufSize 7)⟩,
          (indices 0 (bufSize + 1)).map .stored) := by
    simp [exec, Loop.step, Loop.init]
  have hlast := h _ _ _ _ hexec (.stored bufSize)
    (List.mem_map_of_mem (mem_indices.mpr (by omega)))
  exact absurd hlast.2 (lt_irrefl _)

section Clients

variable {ι : Type*} {setup : Setup ι} {s t : State ι} {trace es : List (Event ι)}

/-- The server among the clients of the repository, seen as the loop. -/
def State.loop (setup : Setup ι) (s : State ι) : Loop :=
  ⟨s.buffer, match s.server with
    | .accept => .accept
    | .read _ => .read
    | .print c => .print (setup.firstPiece c)
    | .close _ => .close⟩

variable [DecidableEq ι]

/-- When the server reads, the first piece of the line has arrived. -/
theorem Inv.stream_of_step {c : ι} (h : Inv setup s trace) (hserver : s.server = .read c)
    (hstep : s.stepServer = some (t, es)) :
    ∃ rest, s.stream c = setup.firstPiece c :: rest := by
  refine h.stream_eq hserver ?_
  by_contra hnone
  rw [not_or, not_not] at hnone
  obtain ⟨hempty, hrunning⟩ := hnone
  cases hpc : s.client c with
  | done => exact hrunning hpc
  | connect | fgets | write | close => simp [State.stepServer, hserver, hempty, hpc] at hstep

/-- The texts that the system prints are among those that the loop prints. -/
def Shown (setup : Setup ι) (trace : List (Event ι)) (watched : List Observed) : Prop :=
  ∀ c line, .printed c line ∈ trace → .printed (setup.firstPiece c) line ∈ watched

omit [DecidableEq ι] in
/-- Texts of one step after those of another. -/
theorem Shown.append {watched more : List Observed} (h : Shown setup trace watched)
    (hes : Shown setup es more) : Shown setup (trace ++ es) (watched ++ more) := by
  intro c line hline
  rw [List.mem_append] at hline ⊢
  exact hline.imp (h c line) (hes c line)

/-- A step of the server is one of the loop, and a read of it leaves room. -/
theorem Inv.loop_step (h : Inv setup s trace) (hstep : s.stepServer = some (t, es)) :
    ∃ a watched, a.LeavesRoom ∧ (s.loop setup).step a = some (t.loop setup, watched) ∧
      Shown setup es watched := by
  cases hserver : s.server with
  | accept =>
    simp only [State.stepServer, hserver] at hstep
    cases hbacklog : s.backlog with
    | nil => simp [hbacklog] at hstep
    | cons c backlog =>
      simp only [hbacklog] at hstep
      obtain ⟨rfl, rfl⟩ := Prod.mk.inj (Option.some.inj hstep)
      exact ⟨.accepted true, [], trivial, by simp [Loop.step, State.loop, hserver],
        by simp [Shown]⟩
  | read c =>
    obtain ⟨rest, hstream⟩ := h.stream_of_step hserver hstep
    have hfits := setup.firstPiece_length_lt c
    simp only [State.stepServer, hserver, hstream] at hstep
    obtain ⟨rfl, rfl⟩ := Prod.mk.inj (Option.some.inj hstep)
    refine ⟨.received (some ⟨setup.firstPiece c, hfits.le⟩),
      (indices 0 ((setup.firstPiece c).length + 1)).map .stored, hfits, ?_, by simp [Shown]⟩
    simp only [Loop.step, State.loop, hserver, List.take_of_length_le hfits.le]
  | print c =>
    simp only [State.stepServer, hserver] at hstep
    obtain ⟨rfl, rfl⟩ := Prod.mk.inj (Option.some.inj hstep)
    refine ⟨.proceeds, [.printed (setup.firstPiece c) (text s.buffer)], trivial,
      by simp only [Loop.step, State.loop, hserver], fun c' line hline => ?_⟩
    obtain ⟨rfl, htext⟩ := Event.printed.inj (List.mem_singleton.mp hline)
    rw [htext]
    exact List.mem_singleton_self _
  | close c =>
    simp only [State.stepServer, hserver] at hstep
    obtain ⟨rfl, rfl⟩ := Prod.mk.inj (Option.some.inj hstep)
    exact ⟨.proceeds, [], trivial, by simp only [Loop.step, State.loop, hserver],
      by simp [Shown]⟩

/-- A step of a client is none of the loop. -/
theorem State.loop_stepClient {c : ι} (hstep : s.stepClient setup c = some (t, es)) :
    t.loop setup = s.loop setup ∧ es = [] := by
  cases hpc : s.client c <;> simp only [State.stepClient, hpc] at hstep
  case write =>
    obtain ⟨data, _, heq⟩ := Option.map_eq_some_iff.mp hstep
    obtain ⟨rfl, rfl⟩ := Prod.mk.inj heq
    exact ⟨rfl, rfl⟩
  case done => cases hstep
  all_goals
    obtain ⟨rfl, rfl⟩ := Prod.mk.inj (Option.some.inj hstep)
    exact ⟨rfl, rfl⟩

/-- Every run of the system is one of the loop in which each read leaves room. -/
theorem loop_of_run {buffer : ℤ → UInt8}
    (hrun : Run (State.step setup) anyLabel (State.init setup buffer) s trace) :
    ∃ as watched, exec Loop.step (Loop.init buffer) as = some (s.loop setup, watched) ∧
      (∀ a ∈ as, a.LeavesRoom) ∧ Shown setup trace watched := by
  refine (hrun.invariant (I := fun s trace => Inv setup s trace ∧
    ∃ as watched, exec Loop.step (Loop.init buffer) as = some (s.loop setup, watched) ∧
      (∀ a ∈ as, a.LeavesRoom) ∧ Shown setup trace watched)
    ⟨inv_init setup buffer, [], [], rfl, by simp, by simp [Shown]⟩ ?_).2
  intro s t a trace es ⟨h, as, watched, hexec, hroom, hshown⟩ _ hstep
  cases a with
  | client c =>
    obtain ⟨hloop, rfl⟩ := State.loop_stepClient hstep
    refine ⟨h.stepClient hstep, as, watched, ?_, hroom, ?_⟩
    · rw [hloop, hexec]
    · rwa [List.append_nil]
  | server =>
    obtain ⟨b, more, hb, hnext, hmore⟩ := h.loop_step hstep
    refine ⟨h.stepServer hstep, as ++ [b], watched ++ more,
      exec_append hexec (exec_singleton hnext), fun a ha => ?_, hshown.append hmore⟩
    rcases List.mem_append.mp ha with ha | ha
    · exact hroom a ha
    · rwa [List.mem_singleton.mp ha]

/-- With the clients of the repository the server does no harm. -/
theorem clients_good {buffer : ℤ → UInt8}
    (hrun : Run (State.step setup) anyLabel (State.init setup buffer) s trace) :
    ∃ as watched, exec Loop.step (Loop.init buffer) as = some (s.loop setup, watched) ∧
      Shown setup trace watched ∧ ∀ e ∈ watched, e.Good := by
  obtain ⟨as, watched, hexec, hroom, hshown⟩ := loop_of_run hrun
  exact ⟨as, watched, hexec, hshown, (forall_good_iff hexec).mpr hroom⟩

end Clients

end LinuxDevNote.Tcp
