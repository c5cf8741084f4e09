import LinuxDevNote.QueueWait.Interleaving

/-!
# No lost wake-up

A reader puts itself on the queue before it tests `havedata`, and a writer raises
`havedata` before it calls `wake_up`. This file proves that these two orders are
enough: whatever the interleaving, a reader asleep on a published message has a
writer on its way to wake it.
-/

namespace LinuxDevNote.QueueWait

open Execution

variable {ι : Type*} [DecidableEq ι] {calls : ι → Op}

/-- What one step of call `i` does to the flag and to the queue of sleepers. -/
structure State.QueueStep (op : Op) (s t : State ι) (i : ι) : Prop where
  /-- A call stops being runnable only by putting itself on the queue. -/
  woken : ∀ j, t.woken j = false → s.woken j = false ∨ j = i ∧ t.pc i = .waitTest
  /-- `wake_up` makes everything on the queue runnable. -/
  wakes : s.pc i = .writeWake → ∀ j, t.woken j = true
  /-- A call goes to sleep only when it found the flag down. -/
  sleeps : t.pc i = .waitSleep → t.havedata = false
  /-- The flag is raised only by a call that then wakes the sleepers. -/
  raises : t.havedata = true → s.havedata = true ∨ t.pc i = .writeWake
  /-- The statements of a write that come before `wake_up` follow each other. -/
  writes : (t.pc i).filling = true ∨ t.pc i = .writeWake →
    (s.pc i).filling = true ∨ op.isWrite = true

/-- A step that changes neither the queue nor the flag, and does not go to sleep. -/
theorem State.QueueStep.of_move {op : Op} {s : State ι} {i : ι} {pc : Pc} (d : Device)
    (hflag : d.havedata = true → s.havedata = true) (hfrom : s.pc i ≠ .writeWake)
    (hsleep : pc ≠ .waitSleep)
    (hwrite : pc.filling = true ∨ pc = .writeWake → (s.pc i).filling = true ∨ op.isWrite = true) :
    State.QueueStep op s ((s.setDevice d).setPc i pc) i where
  woken j hj := Or.inl hj
  wakes hwake := absurd hwake hfrom
  sleeps hasleep := absurd (by simpa using hasleep) hsleep
  raises hdata := Or.inl (hflag hdata)
  writes := by simpa using hwrite

/-- The steps of a call, as the queue sees them. -/
theorem State.advance_queueStep {op : Op} {s t : State ι} {i : ι} {es : List (Event ι)}
    (h : s.advance op i = some (t, es)) : State.QueueStep op s t i := by
  cases State.advances h with
  | moves hpc hmove =>
    cases hmove with
    | sleeps hdown =>
      exact
        { woken := fun j hj => Or.inl hj
          wakes := fun hwake => by simp [hpc] at hwake
          sleeps := fun _ => hdown
          raises := fun hdata => Or.inl hdata
          writes := fun hwrite => by simp [Pc.filling] at hwrite }
    | _ =>
      exact .of_move s.toDevice id (by simp [hpc]) (by simp) fun h => by simp [Pc.filling] at h
  | returns hpc hret =>
    refine .of_move s.toDevice id ?_ (by simp) fun h => by simp [Pc.filling] at h
    cases hret <;> simp [hpc]
  | startWrite hpc hwrite =>
    exact .of_move _ id (by simp [hpc]) (by simp) fun _ => Or.inr hwrite
  | turn k hpc =>
    exact .of_move _ id (by simp [hpc]) (by split <;> simp)
      fun _ => Or.inl (by simp [hpc, Pc.filling])
  | publish hpc =>
    exact
      { woken := fun j hj => Or.inl hj
        wakes := fun hwake => by simp [hpc] at hwake
        sleeps := fun hasleep => by simp at hasleep
        raises := fun _ => Or.inr (by simp)
        writes := fun _ => Or.inl (by simp [hpc, Pc.filling]) }
  | wake hpc =>
    exact
      { woken := fun j hj => by simp [setPc] at hj
        wakes := fun _ j => rfl
        sleeps := fun hasleep => by simp at hasleep
        raises := fun hdata => Or.inl hdata
        writes := fun hwrite => by simp [Pc.filling] at hwrite }
  | enqueue hpc =>
    refine
      { woken := fun j hj => ?_
        wakes := fun hwake => by simp [hpc] at hwake
        sleeps := fun hasleep => by simp at hasleep
        raises := fun hdata => Or.inl hdata
        writes := fun hwrite => by simp [Pc.filling] at hwrite }
    by_cases hji : j = i
    · exact Or.inr ⟨hji, by simp⟩
    · exact Or.inl (by simpa [setPc, Function.update_of_ne hji] using hj)
  | clear hpc =>
    exact .of_move _ (fun hdata => by cases hdata) (by simp [hpc]) (by simp)
      fun h => by simp [Pc.filling] at h
  | reset n out hpc =>
    exact .of_move _ id (by simp [hpc]) (by simp) fun h => by simp [Pc.filling] at h

/-- Every sleeper on a published message is woken or about to be. -/
structure State.Announced (calls : ι → Op) (s : State ι) : Prop where
  /-- Only writes fill the array and wake the readers. -/
  writers : ∀ j, (s.pc j).filling = true ∨ s.pc j = .writeWake → (calls j).isWrite = true
  /-- While a message is published and a reader asleep, some call is about to wake it. -/
  asleep : s.havedata = true → ∀ i, s.pc i = .waitSleep → s.woken i = false →
    ∃ j, s.pc j = .writeWake

omit [DecidableEq ι] in
/-- Nobody sleeps at the start. -/
theorem State.announced_init (calls : ι → Op) (byte : ℤ → UInt8) :
    (State.init byte).Announced calls where
  writers j hj := by simp [init, Pc.filling] at hj
  asleep hdata := by cases hdata

/-- A step of a call keeps every sleeper announced. -/
theorem State.Announced.advance {s t : State ι} {i : ι} {es : List (Event ι)}
    (h : s.Announced calls) (hstep : s.advance (calls i) i = some (t, es)) :
    t.Announced calls := by
  have hq := State.advance_queueStep hstep
  have hother : ∀ j, j ≠ i → t.pc j = s.pc j := fun j hj => State.advance_pc_of_ne hstep hj
  constructor
  · intro j hj
    by_cases hji : j = i
    · subst hji
      rcases hq.writes hj with hfilling | hwrite
      · exact h.writers j (Or.inl hfilling)
      · exact hwrite
    · rw [hother j hji] at hj
      exact h.writers j hj
  · intro hdata k hsleep hwoken
    rcases hq.raises hdata with hbefore | hwake
    · by_cases hki : k = i
      · -- a call that just fell asleep found the flag down
        subst hki
        rw [hq.sleeps hsleep] at hdata
        cases hdata
      · rw [hother k hki] at hsleep
        obtain ⟨j, hj⟩ := h.asleep hbefore k hsleep
          ((hq.woken k hwoken).resolve_right fun hk => hki hk.1)
        -- the step of that waker would have woken the sleeper
        have hji : j ≠ i := by
          rintro rfl
          rw [hq.wakes hj k] at hwoken
          cases hwoken
        exact ⟨j, (hother j hji).trans hj⟩
    · exact ⟨i, hwake⟩

/-- **No lost wake-up.** In every reachable state, while a message is published and
a reader asleep that was not made runnable, some writer is between its
`havedata = 1` and its `wake_up`. -/
theorem no_lost_wakeup (calls : ι → Op) {byte : ℤ → UInt8} {s : State ι}
    {trace : List (Event ι)} (hrun : Run (State.step calls) anyLabel (State.init byte) s trace)
    (hdata : s.havedata = true) {i : ι} (hsleep : s.pc i = .waitSleep)
    (hwoken : s.woken i = false) :
    ∃ j, (calls j).isWrite = true ∧ s.pc j = .writeWake := by
  have hinv : s.Announced calls := by
    refine hrun.invariant (I := fun s _ => s.Announced calls) (State.announced_init calls byte) ?_
    intro s t a trace es h _ hstep
    cases a with
    | advance i => exact h.advance hstep
    | signal i =>
      obtain ⟨rfl, -⟩ := Prod.mk.inj (Option.some.inj hstep)
      exact ⟨h.writers, h.asleep⟩
  obtain ⟨j, hj⟩ := hinv.asleep hdata i hsleep hwoken
  exact ⟨j, hinv.writers j (Or.inr hj), hj⟩

/-- The read falls asleep, and the write has raised the flag and not called
`wake_up` yet. -/
theorem no_lost_wakeup_run :
    ∃ s trace, Run (State.step writeAndRead) anyLabel (State.init fun _ => 0) s trace ∧
      s.havedata = true ∧ s.pc 1 = .waitSleep ∧ s.woken 1 = false ∧
        ∃ j, (writeAndRead j).isWrite = true ∧ s.pc j = .writeWake := by
  let schedule : List (Label (Fin 2)) :=
    List.replicate 4 (Label.advance 1) ++ List.replicate 4 (Label.advance 0)
  obtain ⟨⟨s, trace⟩, hexec, hs⟩ := Option.map_eq_some_iff.mp
    (show (exec (State.step writeAndRead) (State.init fun _ => 0) schedule).map
        (fun p => (p.1.havedata, p.1.pc 1, p.1.woken 1)) = some (true, .waitSleep, false)
      by decide +kernel)
  simp only [Prod.mk.injEq] at hs
  obtain ⟨hdata, hsleep, hwoken⟩ := hs
  have hrun := run_of_exec (meets_anyLabel _ _) hexec
  exact ⟨s, trace, hrun, hdata, hsleep, hwoken, no_lost_wakeup _ hrun hdata hsleep hwoken⟩

end LinuxDevNote.QueueWait
