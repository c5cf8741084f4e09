import Mathlib.Algebra.Ring.Nat
import Mathlib.Data.Fintype.Basic
import LinuxDevNote.Notifier.Teardown

/-!
# Events delivered to the callbacks

Every expiration of the timer passes `count` to the blocks of the chain, in the order of
registration, up to the first callback that yields the stop bit. The callbacks return
nothing, so any of them may. While the module is loaded each callback receives every
event once and in order exactly when neither of the first two ever yields the stop bit and
`count` has not wrapped.
-/

namespace LinuxDevNote.Notifier

open Execution

variable {ι : Type*} [DecidableEq ι]

/-- The chain once all blocks are registered. -/
def fullChain : List Block := [.notifier1, .notifier2, .notifier3]

/-- What is watched: an expiration, and the values the callbacks yield to a walk of the
chain. -/
inductive Watched
  | expired
  | walked (yields : Block → BitVec 32)

/-- What a step shows. -/
def State.watched (s : State ι) : Label ι → List Watched
  | .module => []
  | .expire _ => [.expired]
  | .handler i yields => if s.handler i = .callChain then [.walked yields] else []

/-- One step, watched. -/
def State.watch (s : State ι) (a : Label ι) : Option (State ι × List Watched) :=
  (s.next a).map fun t => (t, s.watched a)

/-- The module is loaded and stays so, and the kernel does not run the handler of one timer
twice at a time: a timer armed by its own handler waits for the handler to return. -/
def Serial (s : State ι) : Label ι → Prop
  | .module => myNotifierExit.length < s.rest.length
  | .expire _ => ∀ i, s.handler i = .idle
  | .handler _ _ => True

instance [Fintype ι] (s : State ι) : ∀ a, Decidable (Serial s a)
  | .module => inferInstanceAs (Decidable (_ < _))
  | .expire _ => inferInstanceAs (Decidable (∀ i, s.handler i = .idle))
  | .handler _ _ => isTrue trivial

/-- Whether an expiration was watched. -/
def Watched.isExpired : Watched → Bool
  | .expired => true
  | .walked _ => false

/-- The values yielded to a walk. -/
def Watched.yields : Watched → Option (Block → BitVec 32)
  | .expired => none
  | .walked yields => some yields

/-- The calls that are due for the events below `n`: all three for an event, in the order of
registration, before any for the next. -/
def due (n : ℕ) : List (Block × ℕ) :=
  (List.range n).flatMap fun k => fullChain.map fun b => (b, k)

/-- The callbacks have received the events below `n`, and nothing else. -/
def State.Delivered (s : State ι) (n : ℕ) : Prop :=
  s.called.map (fun p => (p.1, p.2.toNat)) = due n

/-- Neither of the first two callbacks yields the stop bit. -/
def GoesOn (yields : Block → BitVec 32) : Prop :=
  yields .notifier1 &&& notifyStopMask = 0 ∧ yields .notifier2 &&& notifyStopMask = 0

instance (yields : Block → BitVec 32) : Decidable (GoesOn yields) :=
  inferInstanceAs (Decidable (_ ∧ _))

/-- The calls that walks with the given yields make, the first with event 0. -/
def deliveries (ys : List (Block → BitVec 32)) : List (Block × BitVec 64) :=
  ys.zipIdx.flatMap fun y => (callChain y.1 fullChain).map fun b => (b, BitVec.ofNat 64 y.2)

/-- One more walk. -/
theorem deliveries_append (ys : List (Block → BitVec 32)) (y : Block → BitVec 32) :
    deliveries (ys ++ [y]) = deliveries ys ++
      (callChain y fullChain).map fun b => (b, BitVec.ofNat 64 ys.length) := by
  simp [deliveries, List.zipIdx_append]

/-- A walk calls the whole chain exactly when the first two callbacks let it go on, and
calls at most the whole chain. -/
theorem callChain_fullChain (y : Block → BitVec 32) :
    (callChain y fullChain).length ≤ 3 ∧ (callChain y fullChain = fullChain ↔ GoesOn y) := by
  unfold fullChain GoesOn
  by_cases h1 : y .notifier1 &&& notifyStopMask = 0
  · by_cases h2 : y .notifier2 &&& notifyStopMask = 0
    · have hlast : callChain y [.notifier3] = [.notifier3] := by
        rw [callChain, callChain, ite_self]
      rw [callChain, if_pos h1, callChain, if_pos h2, hlast]
      exact ⟨le_rfl, iff_of_true rfl ⟨h1, h2⟩⟩
    · rw [callChain, if_pos h1, callChain, if_neg h2]
      exact ⟨by decide, iff_of_false (by decide) fun h => h2 h.2⟩
  · rw [callChain, if_neg h1]
    exact ⟨by decide, iff_of_false (by decide) fun h => h1 h.1⟩

/-- The last of `n + 1` walks delivers its event to everyone exactly when it goes on and
the counter has not wrapped. -/
theorem map_callChain_iff {y : Block → BitVec 32} {n : ℕ} :
    (callChain y fullChain).map (fun b => (b, (BitVec.ofNat 64 n).toNat)) =
      fullChain.map (fun b => (b, n)) ↔ GoesOn y ∧ n < 2 ^ 64 := by
  rw [← (callChain_fullChain y).2, BitVec.toNat_ofNat]
  constructor
  · intro heq
    have hblocks := congrArg (List.map Prod.fst) heq
    rw [List.map_map, List.map_map] at hblocks
    have hwhole : callChain y fullChain = fullChain :=
      (List.map_id _).symm.trans (hblocks.trans (List.map_id _))
    rw [hwhole] at heq
    have hhead := (List.cons_eq_cons.mp heq).1
    have hmod := (Prod.mk.inj hhead).2
    exact ⟨hwhole, by omega⟩
  · rintro ⟨hwhole, hlt⟩
    rw [hwhole, Nat.mod_eq_of_lt hlt]

/-- What the walks deliver, read as numbers. -/
def received (ys : List (Block → BitVec 32)) : List (Block × ℕ) :=
  (deliveries ys).map fun p => (p.1, p.2.toNat)

/-- The walks make at most three calls each. -/
theorem length_received_le (ys : List (Block → BitVec 32)) :
    (received ys).length ≤ 3 * ys.length := by
  induction ys using List.reverseRecOn with
  | nil => simp [received, deliveries]
  | append_singleton ys y ih =>
    have hlast := (callChain_fullChain y).1
    rw [received, deliveries_append, List.map_append, List.length_append]
    rw [received] at ih
    simp only [List.length_map, List.length_append, List.length_singleton] at *
    omega

/-- One more event. -/
theorem due_succ (n : ℕ) : due (n + 1) = due n ++ fullChain.map fun b => (b, n) := by
  simp [due, List.range_succ]

/-- Three calls are due for each event. -/
theorem length_due (n : ℕ) : (due n).length = 3 * n := by
  induction n with
  | zero => rfl
  | succ n ih =>
    rw [due_succ, List.length_append, ih, List.length_map]
    change 3 * n + 3 = 3 * (n + 1)
    omega

/-- What is due is delivered exactly when every walk goes on and the counter has not
wrapped. -/
theorem received_eq_due_iff (ys : List (Block → BitVec 32)) :
    received ys = due ys.length ↔ ys.length ≤ 2 ^ 64 ∧ ∀ y ∈ ys, GoesOn y := by
  induction ys using List.reverseRecOn with
  | nil => simp [received, deliveries, due]
  | append_singleton ys y ih =>
    have hlast := (callChain_fullChain y).1
    have hshort := length_received_le ys
    have hsplit : received (ys ++ [y]) = received ys ++
        (callChain y fullChain).map fun b => (b, (BitVec.ofNat 64 ys.length).toNat) := by
      rw [received, deliveries_append, List.map_append, List.map_map]
      rfl
    rw [hsplit, List.length_append, List.length_singleton, due_succ]
    constructor
    · intro heq
      have hlen := congrArg List.length heq
      rw [List.length_append, List.length_append, length_due, List.length_map,
        List.length_map] at hlen
      have hthree : fullChain.length = 3 := rfl
      obtain ⟨hfirst, hmore⟩ := List.append_inj heq (by rw [length_due]; omega)
      obtain ⟨_, hgoes⟩ := ih.mp hfirst
      obtain ⟨hgo, hlt⟩ := map_callChain_iff.mp hmore
      refine ⟨by omega, fun z hz => ?_⟩
      rcases List.mem_append.mp hz with hz | hz
      · exact hgoes z hz
      · rwa [List.mem_singleton.mp hz]
    · rintro ⟨hle, hgoes⟩
      have hfirst := ih.mpr ⟨by omega, fun z hz => hgoes z (List.mem_append_left _ hz)⟩
      have hmore := map_callChain_iff.mpr
        ⟨hgoes y (List.mem_append_right _ List.mem_cons_self), (by omega : ys.length < 2 ^ 64)⟩
      rw [hfirst, hmore]

/-- The state while the module is loaded, before the timer is armed. -/
structure Loading (s : State ι) : Prop where
  /-- The statements executed so far have registered their blocks. -/
  rest : ∃ k < 5, s.rest = (myNotifierInit ++ myNotifierExit).drop k ∧ s.chain = fullChain.take k
  /-- The timer is not armed. -/
  pending : s.pending = false
  /-- No handler runs. -/
  idle : ∀ i, s.handler i = .idle
  /-- Nothing was counted. -/
  count : s.count = 0
  /-- Nothing was called. -/
  called : s.called = []

/-- Where a handler is against the expirations `n` and the walks `c` so far. -/
def Round (count : BitVec 64) (n c : ℕ) : HandlerPc → Prop
  | .idle | .ret => n = c ∧ count = BitVec.ofNat 64 c
  | .callChain => n = c + 1 ∧ count = BitVec.ofNat 64 c
  | .modTimer | .countUp => n = c ∧ ∃ m, c = m + 1 ∧ count = BitVec.ofNat 64 m

/-- The walks watched. -/
def walks (trace : List Watched) : List (Block → BitVec 32) := trace.filterMap Watched.yields

/-- The state once the timer is armed. -/
structure Loaded (s : State ι) (trace : List Watched) : Prop where
  /-- The module is about to finish loading, or has. -/
  rest : s.rest = .initReturn :: myNotifierExit ∨ s.rest = myNotifierExit
  /-- All blocks are registered. -/
  chain : s.chain = fullChain
  /-- The calls are those of the walks. -/
  called : s.called = deliveries (walks trace)
  /-- No handler runs, or one does. -/
  round : (∀ i, s.handler i = .idle) ∧
      Round s.count (trace.countP Watched.isExpired) (walks trace).length .idle ∨
    ∃ i, s.handler i ≠ .idle ∧ (∀ j, j ≠ i → s.handler j = .idle) ∧
      Round s.count (trace.countP Watched.isExpired) (walks trace).length (s.handler i)

omit [DecidableEq ι] in
/-- The module starts with nothing done. -/
theorem loading_init : Loading (State.init ι) :=
  ⟨⟨0, by omega, rfl, rfl⟩, rfl, fun _ => rfl, rfl, rfl⟩

/-- While the module loads, only it takes steps, and the last of them arms the timer. -/
theorem Loading.next {s t : State ι} {a : Label ι} (h : Loading s) (hnext : s.next a = some t) :
    s.watched a = [] ∧ (Loading t ∨ Loaded t []) := by
  cases a with
  | expire i => simp [State.next, h.pending] at hnext
  | handler i yields => simp [State.next, State.advance, h.idle i] at hnext
  | module =>
    refine ⟨rfl, ?_⟩
    obtain ⟨k, hk, hrest, hchain⟩ := h.rest
    have hstmt : k = 0 ∨ k = 1 ∨ k = 2 ∨ k = 3 ∨ k = 4 := by omega
    rcases hstmt with rfl | rfl | rfl | rfl | rfl
    all_goals
      rw [State.next, hrest] at hnext
      obtain rfl := Option.some.inj hnext
    · exact Or.inl ⟨⟨1, by omega, rfl, by simp [State.execute, hchain, fullChain]⟩, h.pending,
        h.idle, h.count, h.called⟩
    · exact Or.inl ⟨⟨2, by omega, rfl, by simp [State.execute, hchain, fullChain]⟩, h.pending,
        h.idle, h.count, h.called⟩
    · exact Or.inl ⟨⟨3, by omega, rfl, by simp [State.execute, hchain, fullChain]⟩, h.pending,
        h.idle, h.count, h.called⟩
    · exact Or.inl ⟨⟨4, by omega, rfl, hchain⟩, rfl, h.idle, h.count, h.called⟩
    · exact Or.inr ⟨Or.inl rfl, hchain, h.called, Or.inl ⟨h.idle, rfl, h.count⟩⟩

/-- When one handler moves, the others still do not run. -/
theorem idle_setHandler {s : State ι} {i : ι} {pc : HandlerPc}
    (h : ∀ j, j ≠ i → s.handler j = .idle) (j : ι) (hj : j ≠ i) :
    (s.setHandler i pc).handler j = .idle := by
  rw [s.setHandler_of_ne hj]
  exact h j hj

/-- A handler that has returned does not run either. -/
theorem idle_setHandler_idle {s : State ι} {i : ι} (h : ∀ j, j ≠ i → s.handler j = .idle)
    (j : ι) : (s.setHandler i .idle).handler j = .idle := by
  by_cases hj : j = i
  · rw [hj, s.setHandler_self]
  · exact idle_setHandler h j hj

/-- An expiration starts a round. -/
theorem Loaded.expire {s : State ι} {trace : List Watched} (h : Loaded s trace) (i : ι)
    (hidle : ∀ j, s.handler j = .idle) :
    Loaded ({ s with pending := false }.setHandler i .callChain) (trace ++ [.expired]) := by
  have hwalks : walks (trace ++ [.expired]) = walks trace := by
    simp [walks, List.filterMap_append, Watched.yields]
  refine ⟨h.rest, h.chain, by rw [hwalks]; exact h.called, Or.inr ⟨i, by simp,
    idle_setHandler fun j _ => hidle j, ?_⟩⟩
  rcases h.round with ⟨_, hcount, hvalue⟩ | ⟨j, hbusy, _⟩
  · simp [State.setHandler, Round, hwalks, List.countP_append, Watched.isExpired, hcount, hvalue]
  · exact absurd (hidle j) hbusy

/-- A statement of the handler moves its round on. -/
theorem Loaded.handler {s t : State ι} {trace : List Watched} (h : Loaded s trace) (i : ι)
    (yields : Block → BitVec 32) (hnext : s.advance i yields = some t) :
    Loaded t (trace ++ s.watched (.handler i yields)) := by
  rcases h.round with ⟨hidle, _⟩ | ⟨j, hbusy, hothers, hround⟩
  · simp [State.advance, hidle i] at hnext
  · have hi : i = j := by
      by_contra hne
      simp [State.advance, hothers i hne] at hnext
    subst hi
    have hquiet : s.handler i ≠ .callChain → s.watched (.handler i yields) = [] :=
      fun hne => if_neg hne
    cases hpc : s.handler i with
    | idle => exact absurd hpc hbusy
    | callChain =>
      rw [State.advance, hpc] at hnext
      obtain rfl := Option.some.inj hnext
      rw [hpc] at hround
      obtain ⟨hcount, hvalue⟩ := hround
      have hwalks : walks (trace ++ [.walked yields]) = walks trace ++ [yields] := by
        simp [walks, List.filterMap_append, Watched.yields]
      rw [State.watched, if_pos hpc]
      refine ⟨h.rest, h.chain, ?_, Or.inr ⟨i, by simp, idle_setHandler hothers, ?_⟩⟩
      · rw [hwalks, deliveries_append]
        simp only [State.setHandler, h.called, h.chain, hvalue]
      · simp [State.setHandler, Round, hwalks, List.countP_append, Watched.isExpired, hcount,
          hvalue]
    | modTimer =>
      rw [hquiet (by rw [hpc]; decide), List.append_nil]
      rw [State.advance, hpc] at hnext
      obtain rfl := Option.some.inj hnext
      rw [hpc] at hround
      refine ⟨h.rest, h.chain, h.called, Or.inr ⟨i, by simp, idle_setHandler hothers, ?_⟩⟩
      rwa [State.setHandler_self]
    | countUp =>
      rw [hquiet (by rw [hpc]; decide), List.append_nil]
      rw [State.advance, hpc] at hnext
      obtain rfl := Option.some.inj hnext
      rw [hpc] at hround
      obtain ⟨hcount, m, hwalked, hvalue⟩ := hround
      refine ⟨h.rest, h.chain, h.called, Or.inr ⟨i, by simp, idle_setHandler hothers, ?_⟩⟩
      rw [State.setHandler_self]
      refine ⟨hcount, ?_⟩
      simp only [State.setHandler]
      rw [hvalue, hwalked, BitVec.ofNat_add]
      rfl
    | ret =>
      rw [hquiet (by rw [hpc]; decide), List.append_nil]
      rw [State.advance, hpc] at hnext
      obtain rfl := Option.some.inj hnext
      rw [hpc] at hround
      exact ⟨h.rest, h.chain, h.called, Or.inl ⟨idle_setHandler_idle hothers, hround⟩⟩

/-- A step once the timer is armed. -/
theorem Loaded.next {s t : State ι} {a : Label ι} {trace : List Watched} (h : Loaded s trace)
    (hserial : Serial s a) (hnext : s.next a = some t) : Loaded t (trace ++ s.watched a) := by
  cases a with
  | module =>
    rcases h.rest with hrest | hrest
    · rw [State.next, hrest] at hnext
      obtain rfl := Option.some.inj hnext
      rw [State.watched, List.append_nil]
      exact ⟨Or.inr rfl, h.chain, h.called, h.round⟩
    · rw [Serial, hrest] at hserial
      exact absurd hserial (lt_irrefl _)
  | expire i =>
    simp only [State.next] at hnext
    split at hnext
    · obtain rfl := Option.some.inj hnext
      exact h.expire i hserial
    · cases hnext
  | handler i yields => exact h.handler i yields hnext

/-- In every run the module is loading, and nothing was watched, or it is loaded. -/
theorem loaded_of_run {s : State ι} {trace : List Watched}
    (hrun : Run State.watch Serial (State.init ι) s trace) :
    Loading s ∧ trace = [] ∨ Loaded s trace := by
  refine hrun.invariant (I := fun s trace => Loading s ∧ trace = [] ∨ Loaded s trace)
    (Or.inl ⟨loading_init, rfl⟩) ?_
  intro s t a trace es h hserial hstep
  obtain ⟨u, hnext, heq⟩ := Option.map_eq_some_iff.mp hstep
  obtain ⟨rfl, rfl⟩ := Prod.mk.inj heq
  rcases h with ⟨hloading, rfl⟩ | hloaded
  · obtain ⟨hnothing, hthen⟩ := hloading.next hnext
    rw [hnothing]
    exact hthen.imp_left fun hstill => ⟨hstill, rfl⟩
  · exact Or.inr (hloaded.next hserial hnext)

/-- The walks watched are those with their yields. -/
theorem mem_walks {trace : List Watched} {y : Block → BitVec 32} :
    y ∈ walks trace ↔ .walked y ∈ trace := by
  rw [walks, List.mem_filterMap]
  constructor
  · rintro ⟨w, hw, hy⟩
    cases w with
    | expired => cases hy
    | walked y' => rwa [← Option.some.inj hy]
  · exact fun h => ⟨_, h, rfl⟩

/-- **Events delivered to the callbacks.** After every run of any number of expirations of
the timer, whatever the callbacks yield, each of them has received every event once and in
order, and all three an event before any the next, exactly when neither of the first two
ever yielded the stop bit and the counter has not wrapped. -/
theorem delivered_iff {s : State ι} {trace : List Watched}
    (hrun : Run State.watch Serial (State.init ι) s trace) (hidle : ∀ i, s.handler i = .idle) :
    s.Delivered (trace.countP Watched.isExpired) ↔
      trace.countP Watched.isExpired ≤ 2 ^ 64 ∧ ∀ y, .walked y ∈ trace → GoesOn y := by
  rcases loaded_of_run hrun with ⟨hloading, rfl⟩ | hloaded
  · simp [State.Delivered, hloading.called, due]
  · rcases hloaded.round with ⟨_, hcount, _⟩ | ⟨i, hbusy, _⟩
    · rw [State.Delivered, hloaded.called, hcount]
      refine (received_eq_due_iff (walks trace)).trans ?_
      simp only [mem_walks]
    · exact absurd (hidle i) hbusy

/-- Two expirations after the module is loaded, and callbacks that yield values without the stop
bit. -/
theorem delivered_iff_run :
    ∃ s trace, exec State.watch (State.init Unit) (List.replicate 6 .module ++
        .expire () :: List.replicate 4 (.handler () fun _ => 7) ++
        .expire () :: List.replicate 4 (.handler () fun _ => 0x4001)) = some (s, trace) ∧
      trace.countP Watched.isExpired = 2 ∧ s.Delivered (trace.countP Watched.isExpired) := by
  obtain ⟨⟨s, trace⟩, hexec, hend⟩ := Option.map_eq_some_iff.mp
    (show (exec State.watch (State.init Unit) (List.replicate 6 .module ++
      .expire () :: List.replicate 4 (.handler () fun _ => 7) ++
      .expire () :: List.replicate 4 (.handler () fun _ => 0x4001))).map
        (fun p : State Unit × List Watched => (decide (∀ i, p.1.handler i = .idle),
          p.2.countP Watched.isExpired, decide (∀ y ∈ walks p.2, GoesOn y))) =
            some (true, 2, true) by decide +kernel)
  simp only [Prod.mk.injEq, decide_eq_true_eq] at hend
  obtain ⟨hidle, hcount, hgoes⟩ := hend
  exact ⟨s, trace, hexec, hcount,
    (delivered_iff (run_of_exec (by decide +kernel) hexec) hidle).mpr
      ⟨by omega, fun y hy => hgoes y (mem_walks.mpr hy)⟩⟩

/-- The first callback yields the stop bit, and the other two never get the event. -/
theorem event_stopped :
    ¬ ∀ (s : State Unit) (trace : List Watched),
      Run State.watch Serial (State.init Unit) s trace → (∀ i, s.handler i = .idle) →
      s.Delivered (trace.countP Watched.isExpired) := by
  intro h
  obtain ⟨⟨s, trace⟩, hexec, hend⟩ := Option.map_eq_some_iff.mp
    (show (exec State.watch (State.init Unit) (List.replicate 6 .module ++
      .expire () :: List.replicate 4 (.handler () fun _ => 0x8000))).map (fun p =>
        (decide (∀ i, p.1.handler i = .idle), p.2.countP Watched.isExpired,
          p.1.called.length)) = some (true, 1, 1) by decide +kernel)
  simp only [Prod.mk.injEq, decide_eq_true_eq] at hend
  obtain ⟨hidle, hcount, hcalled⟩ := hend
  have hlen := congrArg List.length (h s trace (run_of_exec (by decide +kernel) hexec) hidle)
  rw [length_due, List.length_map, hcalled, hcount] at hlen
  omega

end LinuxDevNote.Notifier
