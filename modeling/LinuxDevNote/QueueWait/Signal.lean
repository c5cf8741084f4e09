import LinuxDevNote.QueueWait.Interleaving

/-!
# A signal during the wait

The loop `while(!havedata)` does not look at the result of `wait_event_interruptible`,
which a pending signal makes return at once. So a reader with a signal pending spins:
its own steps alone take it out of the loop exactly when a message is published.
-/

namespace LinuxDevNote.QueueWait

open Kernel Execution

/-- The statements of the loop `while(!havedata)`. -/
def Pc.waiting : Pc → Bool
  | .readTest | .waitEnqueue | .waitTest | .waitSleep => true
  | _ => false

/-- How many statements a read that finds its message has at most still to execute;
`none` for a call that is not at a statement of a read. -/
def Pc.statementsLeft : Pc → Option ℕ
  | .waitSleep => some 10
  | .waitEnqueue => some 9
  | .waitTest => some 8
  | .readTest => some 7
  | .readClear => some 6
  | .readCopy => some 5
  | .readLog _ => some 4
  | .readLength _ => some 3
  | .readReset _ _ => some 2
  | .readReturn _ _ | .readFail _ => some 1
  | .done => some 0
  | .start | .writeLoop _ | .writePublish | .writeWake | .writeDelay | .writeReturn => none

variable {ι : Type*} [DecidableEq ι] {calls : ι → Op}

/-- The steps of call `i` alone end the call, and lead to no state twice. -/
structure EndsAlone (calls : ι → Op) (i : ι) (s : State ι) : Prop where
  /-- It returns after finitely many steps. -/
  returns : ∃ n t es, exec (State.step calls) s (List.replicate n (.advance i)) = some (t, es) ∧
    t.pc i = .done
  /-- It repeats no state. -/
  fresh : ¬ Repeats (State.step calls) s (.advance i)

/-- A read that is past the loop, or in it with a signal pending and a message
published. -/
structure Leaving (i : ι) (n : ℕ) (s : State ι) : Prop where
  /-- It has at most `n` statements to execute. -/
  left : (s.pc i).statementsLeft = some n
  /-- In the loop it finds a message, and does not sleep. -/
  found : (s.pc i).waiting = true → s.havedata = true ∧ s.signalled i = true

/-- A call that has not returned and does not sleep can take a step. -/
theorem State.exists_advance (op : Op) {s : State ι} {i : ι} (hdone : s.pc i ≠ .done)
    (hsleep : s.pc i = .waitSleep → (s.woken i || s.signalled i) = true) :
    ∃ t es, s.advance op i = some (t, es) := by
  cases hpc : s.pc i <;> simp only [State.advance, hpc]
  case done => exact absurd hpc hdone
  case waitSleep => exact ⟨_, _, if_pos (hsleep hpc)⟩
  case start | readTest | waitTest | readCopy => split_ifs <;> exact ⟨_, _, rfl⟩
  all_goals exact ⟨_, _, rfl⟩

/-- A step of a read on its way out leaves it fewer statements. -/
theorem Leaving.advance {op : Op} {i : ι} {n : ℕ} {s t : State ι} {es : List (Event ι)}
    (h : Leaving i (n + 1) s) (hstep : s.advance op i = some (t, es)) :
    ∃ m ≤ n, Leaving i m t := by
  obtain ⟨hleft, hfound⟩ := h
  cases State.advances hstep with
  | moves hpc hmove =>
    rw [hpc] at hleft hfound
    cases hmove with
    | startRead | delay => cases hleft
    | refused hdown | waits hdown | sleeps hdown =>
      rw [(hfound rfl).1] at hdown
      cases hdown
    | leaves | wakes =>
      cases hleft
      exact ⟨_, le_rfl, by simp [Pc.statementsLeft], fun _ => hfound rfl⟩
    | found | copies | logs | loads =>
      cases hleft
      exact ⟨_, le_rfl, by simp [Pc.statementsLeft], fun hin => by simp [Pc.waiting] at hin⟩
    | faults =>
      cases hleft
      exact ⟨1, by omega, by simp [Pc.statementsLeft], fun hin => by simp [Pc.waiting] at hin⟩
  | returns hpc hret =>
    refine ⟨0, Nat.zero_le n, by simp [Pc.statementsLeft], fun hin => by simp [Pc.waiting] at hin⟩
  | startWrite hpc | turn k hpc | publish hpc | wake hpc =>
    rw [hpc] at hleft
    cases hleft
  | enqueue hpc =>
    rw [hpc] at hleft hfound
    cases hleft
    exact ⟨_, le_rfl, by simp [Pc.statementsLeft], fun _ => hfound rfl⟩
  | clear hpc | reset n out hpc =>
    rw [hpc] at hleft
    cases hleft
    exact ⟨_, le_rfl, by simp [Pc.statementsLeft], fun hin => by simp [Pc.waiting] at hin⟩

/-- A read on its way out returns. -/
theorem Leaving.returns (calls : ι → Op) {i : ι} {n : ℕ} {s : State ι} (h : Leaving i n s) :
    ∃ k t es, exec (State.step calls) s (List.replicate k (.advance i)) = some (t, es) ∧
      t.pc i = .done := by
  induction n using Nat.strong_induction_on generalizing s with
  | _ n ih =>
    obtain ⟨hleft, hfound⟩ := h
    cases n with
    | zero =>
      refine ⟨0, s, [], rfl, ?_⟩
      cases hpc : s.pc i <;> rw [hpc] at hleft <;> simp [Pc.statementsLeft] at hleft
    | succ n =>
      have hdone : s.pc i ≠ .done := by
        intro hpc
        rw [hpc] at hleft
        cases hleft
      obtain ⟨u, es, hstep⟩ := State.exists_advance (calls i) hdone fun hpc => by
        simp [(hfound (by rw [hpc]; rfl)).2]
      obtain ⟨m, hle, hu⟩ := Leaving.advance ⟨hleft, hfound⟩ hstep
      obtain ⟨k, t, rest, hexec, hpc⟩ := ih m (by omega) hu
      exact ⟨k + 1, t, es ++ rest, exec_cons_eq_some.mpr ⟨u, es, rest, hstep, hexec, rfl⟩, hpc⟩

/-- A call that has returned takes no more steps. -/
theorem exec_of_done {i : ι} {k : ℕ} {s t : State ι} {es : List (Event ι)}
    (hexec : exec (State.step calls) s (List.replicate k (.advance i)) = some (t, es))
    (hdone : t.pc i = .done) :
    exec (State.step calls) s (List.replicate (k + 1) (.advance i)) = none := by
  rw [Option.eq_none_iff_forall_ne_some]
  rintro ⟨u, fs⟩ hlong
  rw [List.replicate_succ'] at hlong
  obtain ⟨v, gs, rest, hfirst, hlast, -⟩ := exec_append_eq_some hlong
  rw [hexec] at hfirst
  obtain ⟨rfl, -⟩ := Prod.mk.inj (Option.some.inj hfirst)
  simp [exec, State.step, State.advance, hdone] at hlast

/-- A blocking read in the loop, with a signal pending and no message published. -/
structure Spinning (i : ι) (s : State ι) : Prop where
  /-- It is in the loop. -/
  waiting : (s.pc i).waiting = true
  /-- No message is published. -/
  empty : s.havedata = false
  /-- A signal is pending. -/
  signalled : s.signalled i = true

/-- A step of a spinning read leaves it spinning. -/
theorem Spinning.advance {op : Op} {i : ι} {s t : State ι} {es : List (Event ι)}
    (h : Spinning i s) (hblock : op.nonblock = false) (hstep : s.advance op i = some (t, es)) :
    Spinning i t := by
  obtain ⟨hwaiting, hempty, hsignal⟩ := h
  cases State.advances hstep with
  | moves hpc hmove =>
    rw [hpc] at hwaiting
    cases hmove with
    | found hdata =>
      rw [hempty] at hdata
      cases hdata
    | refused _ hnonblock =>
      rw [hblock] at hnonblock
      cases hnonblock
    | waits | leaves | sleeps | wakes => exact ⟨by simp [Pc.waiting], hempty, hsignal⟩
    | _ => cases hwaiting
  | enqueue hpc => exact ⟨by simp [Pc.waiting], hempty, hsignal⟩
  | returns hpc hret =>
    rw [hpc] at hwaiting
    cases hret <;> cases hwaiting
  | startWrite hpc | turn k hpc | publish hpc | wake hpc | clear hpc | reset n out hpc =>
    rw [hpc] at hwaiting
    cases hwaiting

/-- However many steps it takes alone, a spinning read stays in the loop. -/
theorem Spinning.exec {i : ι} {k : ℕ} {s t : State ι} {es : List (Event ι)}
    (hblock : (calls i).nonblock = false) (h : Spinning i s)
    (hexec : exec (State.step calls) s (List.replicate k (.advance i)) = some (t, es)) :
    Spinning i t := by
  induction k generalizing s es with
  | zero =>
    obtain ⟨rfl, -⟩ := Prod.mk.inj (Option.some.inj hexec)
    exact h
  | succ k ih =>
    obtain ⟨u, _, rest, hstep, hrest, -⟩ := exec_cons_eq_some.mp hexec
    exact ih (h.advance hblock hstep) hrest

/-- **A signal during the wait.** In every state, the steps of a blocking read alone that
is in the loop with a signal pending end it, without repeating a state, exactly when a
message is published. -/
theorem ends_alone_iff (calls : ι → Op) {s : State ι} {i : ι}
    (hblock : (calls i).nonblock = false) (hwaiting : (s.pc i).waiting = true)
    (hsignal : s.signalled i = true) : EndsAlone calls i s ↔ s.havedata = true := by
  constructor
  · rintro ⟨⟨n, t, es, hexec, hdone⟩, -⟩
    by_contra hempty
    have hspin := Spinning.exec hblock ⟨hwaiting, by simpa using hempty, hsignal⟩ hexec
    have hin := hspin.waiting
    rw [hdone] at hin
    cases hin
  · intro hdata
    obtain ⟨n, hleft⟩ : ∃ n, (s.pc i).statementsLeft = some n := by
      cases hpc : s.pc i <;> rw [hpc] at hwaiting <;> first | exact ⟨_, rfl⟩ | cases hwaiting
    have hleaving : Leaving i n s := ⟨hleft, fun _ => ⟨hdata, hsignal⟩⟩
    obtain ⟨k, t, es, hexec, hdone⟩ := hleaving.returns calls
    exact ⟨⟨k, t, es, hexec, hdone⟩, not_repeats_of_stuck (exec_of_done hexec hdone)⟩

/-- The read has put itself on the queue, a signal comes, and the write publishes. -/
theorem ends_alone_iff_run :
    ∃ s trace, Run (State.step writeAndRead) anyLabel (State.init fun _ => 0) s trace ∧
      EndsAlone writeAndRead 1 s := by
  let schedule : List (Label (Fin 2)) :=
    List.replicate 3 (Label.advance 1) ++ Label.signal 1 :: List.replicate 4 (Label.advance 0)
  obtain ⟨⟨s, trace⟩, hexec, hs⟩ := Option.map_eq_some_iff.mp
    (show (exec (State.step writeAndRead) (State.init fun _ => 0) schedule).map
        (fun p => (p.1.havedata, p.1.pc 1, p.1.signalled 1)) = some (true, .waitTest, true)
      by decide +kernel)
  simp only [Prod.mk.injEq] at hs
  obtain ⟨hdata, hpc, hsignal⟩ := hs
  exact ⟨s, trace, run_of_exec (meets_anyLabel _ _) hexec,
    (ends_alone_iff writeAndRead rfl (by rw [hpc]; rfl) hsignal).mpr hdata⟩

/-- A read sleeps on an empty mailbox and gets a signal: it spins. -/
theorem signalled_read_spins :
    ¬ ∀ (calls : Fin 2 → Op) (s : State (Fin 2)) (trace : List (Event (Fin 2))),
      Run (State.step calls) anyLabel (State.init fun _ => 0) s trace →
        ∀ i, (calls i).nonblock = false → (s.pc i).waiting = true → s.signalled i = true →
          EndsAlone calls i s := by
  intro h
  let schedule : List (Label (Fin 2)) := List.replicate 4 (Label.advance 1) ++ [Label.signal 1]
  obtain ⟨⟨s, trace⟩, hexec, hs⟩ := Option.map_eq_some_iff.mp
    (show (exec (State.step writeAndRead) (State.init fun _ => 0) schedule).map
        (fun p => (p.1.havedata, p.1.pc 1, p.1.signalled 1)) = some (false, .waitSleep, true)
      by decide +kernel)
  simp only [Prod.mk.injEq] at hs
  obtain ⟨hempty, hpc, hsignal⟩ := hs
  have hwaiting : (s.pc 1).waiting = true := by rw [hpc]; rfl
  obtain ⟨n, t, es, halone, hdone⟩ := (h writeAndRead s trace
    (run_of_exec (meets_anyLabel _ _) hexec) 1 rfl hwaiting hsignal).returns
  have hin := (Spinning.exec rfl ⟨hwaiting, hempty, hsignal⟩ halone).waiting
  rw [hdone] at hin
  cases hin

end LinuxDevNote.QueueWait
