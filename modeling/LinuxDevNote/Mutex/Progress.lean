import LinuxDevNote.Library.Countdown
import LinuxDevNote.Mutex.Refinement

/-!
# Progress of the mutex driver

No schedule of the clients gets stuck before all programs are over, and every client takes the
same number of steps whatever the schedule: a call that waits for the lock waits for a client
that can go on.
-/

namespace LinuxDevNote.Mutex

open Memory Kernel Execution

/-- The statements of a call from a position: its start, and when it takes the lock those up to
its return. -/
def Call.steps (loff : BitVec 64) : Call → ℕ
  | .llseek _ _ => 1
  | .read _ _ => if memSize ≤ loff.toNat then 1 else 5
  | .write cnt _ => if memSize ≤ loff.toNat then 1 else clampCount loff.toNat cnt + 6

/-- The statements of a program. The position after a call does not depend on `sh->mem`. -/
def stepsOf (loff : BitVec 64) : List Call → ℕ
  | [] => 0
  | c :: cs => c.steps loff + stepsOf (c.whole (fun _ => 0) loff).loff cs

/-- The position after the call that a client is in. -/
def Client.landing (c : Client) : BitVec 64 :=
  match c.pc with
  | .readLock fr | .readCopy fr =>
    if (Mutex.readCopy (fun _ => 0) fr.buff fr.p fr.count).2 = -EFAULT then c.loff
    else c.loff + BitVec.ofNat 64 fr.count
  | .writeLock fr | .writeBranch fr | .writeLoop fr _ _ _ | .writeUnlock fr | .writeReturn fr =>
    c.loff + BitVec.ofNat 64 fr.count
  | .idle | .readUnlock _ _ | .readReturn _ _ => c.loff

/-- The statements that a client has still to go through. -/
def System.left {ι : Type*} (s : System ι) (i : ι) : ℕ :=
  (s.driver.clients i).pc.remaining + stepsOf (s.driver.clients i).landing (s.todo i)

variable {ι : Type*}

/-- Whether a read fails does not depend on what it reads. -/
theorem readCopy_snd (mem mem' : Mem) (writable : ℕ → Bool) (p count : ℕ) :
    (readCopy mem writable p count).2 = (readCopy mem' writable p count).2 := by
  simp only [readCopy, copyToUser, slice_length]
  split <;> rfl

variable [DecidableEq ι] {s t : System ι} {i j : ι} {es : List (Event ι)}

/-- A statement of a call does not change where it leads. -/
theorem advance_landing {s t : State ι} (hstep : s.advance i = some (t, es)) :
    (t.clients i).landing = (s.clients i).landing := by
  unfold State.advance at hstep
  cases hpc : (s.clients i).pc with
  | idle => simp [hpc] at hstep
  | readLock fr | writeLock fr =>
    simp only [hpc, Option.ite_none_right_eq_some, Option.some.injEq, Prod.mk.injEq] at hstep
    obtain ⟨_, rfl, _⟩ := hstep
    simp [State.setPc, Client.landing, hpc]
  | readCopy fr =>
    simp only [hpc, Option.some.injEq, Prod.mk.injEq] at hstep
    obtain ⟨rfl, _⟩ := hstep
    simp only [State.setClient_self, Client.landing, hpc]
    rw [readCopy_snd s.share.mem]
  | writeLoop fr thread0 k ret =>
    simp only [hpc] at hstep
    split at hstep
    all_goals
      obtain ⟨rfl, _⟩ := Prod.mk.inj (Option.some.inj hstep)
      simp [State.setPc, Client.landing, hpc]
  | readUnlock ret out | readReturn ret out | writeBranch fr | writeUnlock fr | writeReturn fr =>
    simp only [hpc, Option.some.injEq, Prod.mk.injEq] at hstep
    obtain ⟨rfl, _⟩ := hstep
    simp [State.setPc, Client.landing, hpc]

/-- The start of a call is one of its statements, and leads where the call leads. -/
theorem begin_remaining {s : State ι} (hidle : (s.clients i).pc = .idle) (call : Call) :
    ((s.begin i call).1.clients i).pc.remaining + 1 = call.steps (s.clients i).loff ∧
      ((s.begin i call).1.clients i).landing =
        (call.whole (fun _ => 0) (s.clients i).loff).loff := by
  cases call with
  | llseek offset whence => simp [State.begin, Pc.remaining, Call.steps, Client.landing, Call.whole]
  | read cnt writable =>
    unfold State.begin Call.steps
    dsimp only
    split
    · rename_i hp
      rw [whole_read_of_ge hp, hidle]
      simp [Pc.remaining, Client.landing, hidle]
    · rename_i hp
      simp [State.setPc, Pc.remaining, Client.landing, Call.whole, read, hp]
  | write cnt buff =>
    unfold State.begin Call.steps
    dsimp only
    split
    · rename_i hp
      rw [whole_write_of_ge hp, hidle]
      simp [Pc.remaining, Client.landing, hidle]
    · rename_i hp
      rw [whole_write_of_lt (not_le.mp hp)]
      simp [State.setPc, Pc.remaining, Client.landing]

/-- What is left of the client that took a step. -/
theorem left_after_self (todo : List Call) (p : State ι × List (Event ι)) :
    (s.after i todo p).1.left i =
      (p.1.clients i).pc.remaining + stepsOf (p.1.clients i).landing todo := by
  simp only [System.left, System.after, Function.update_self]

/-- What is left of another client. -/
theorem left_after_other (todo : List Call) (p : State ι × List (Event ι)) (hj : j ≠ i)
    (hsame : p.1.clients j = s.driver.clients j) : (s.after i todo p).1.left j = s.left j := by
  simp only [System.left, System.after, Function.update_of_ne hj, hsame]

/-- **One step each.** A step of a client is one of those it had left, and none of the others'. -/
theorem system_counts : Counts (@System.step ι _) System.left where
  own {s t i es} hstep := by
    rcases System.step_cases hstep with ⟨c, cs, hidle, htodo, hafter⟩ | ⟨p, _, hp, hafter⟩
    · obtain rfl : (s.after i cs (s.driver.begin i c)).1 = t := congrArg Prod.fst hafter
      obtain ⟨hremaining, hlanding⟩ := begin_remaining hidle c
      have hbefore : s.left i = stepsOf (s.driver.clients i).loff (c :: cs) := by
        simp only [System.left, hidle, Client.landing, htodo, Pc.remaining, Nat.zero_add]
      rw [left_after_self, hlanding, hbefore, stepsOf]
      omega
    · obtain rfl : (s.after i (s.todo i) p).1 = t := congrArg Prod.fst hafter
      have hremaining := (advance_remaining hp).1
      rw [left_after_self, advance_landing hp, System.left]
      omega
  other {s t i j es} hstep hj := by
    rcases System.step_cases hstep with ⟨c, cs, hidle, htodo, hafter⟩ | ⟨p, _, hp, hafter⟩
    · obtain rfl : (s.after i cs (s.driver.begin i c)).1 = t := congrArg Prod.fst hafter
      exact left_after_other cs _ hj (begin_others s.driver c hj)
    · obtain rfl : (s.after i (s.todo i) p).1 = t := congrArg Prod.fst hafter
      exact left_after_other _ p hj ((advance_remaining hp).2 j hj).1

omit [DecidableEq ι] in
/-- Nothing is left of a client that is through with its program. -/
theorem left_eq_zero_iff : s.left i = 0 ↔ (s.driver.clients i).pc = .idle ∧ s.todo i = [] := by
  have hprogram : ∀ {loff : BitVec 64} {cs : List Call}, stepsOf loff cs = 0 ↔ cs = [] := by
    intro loff cs
    cases cs with
    | nil => exact iff_of_true rfl rfl
    | cons c cs =>
      have hpos : 0 < c.steps loff := by
        cases c <;> simp only [Call.steps] <;> (try split) <;> omega
      simp only [stepsOf, reduceCtorEq, iff_false]
      omega
  rw [System.left, Nat.add_eq_zero_iff, hprogram]
  refine and_congr_left fun _ => ?_
  cases (s.driver.clients i).pc <;> simp [Pc.remaining]

/-- While something is left, somebody can go on: if not the client, the one it waits for. -/
theorem Seems.progress {a : Atomic ι} (h : Seems s a) (hleft : s.left i ≠ 0) :
    ∃ j p, s.step j = some p := by
  by_cases hidle : (s.driver.clients i).pc = .idle
  · cases htodo : s.todo i with
    | nil => exact absurd (left_eq_zero_iff.mpr ⟨hidle, htodo⟩) hleft
    | cons call cs =>
      exact ⟨i, _, System.step_of_idle hidle htodo⟩
  · cases hlock : s.driver.lock with
    | none =>
      obtain ⟨p, hp⟩ := exists_advance hidle (Or.inl hlock)
      exact ⟨i, _, by rw [System.step_of_running hidle, hp]; rfl⟩
    | some j =>
      have hin := (h.holder j).mp hlock
      have hj : (s.driver.clients j).pc ≠ .idle := by
        intro hpc
        rw [hpc] at hin
        simp [Pc.inSection] at hin
      obtain ⟨p, hp⟩ := exists_advance hj (Or.inr hin)
      exact ⟨j, _, by rw [System.step_of_running hj, hp]; rfl⟩

/-- **No deadlock, and no detour.** In every schedule a client takes at most the steps of its
program, and the driver is stuck exactly when each client has taken all of them; then all
programs are over. -/
theorem no_deadlock {share : Share} {loff : ι → BitVec 64} {programs : ι → List Call} {is : List ι}
    (hexec : exec System.step (System.init share loff programs) is = some (s, es)) :
    (∀ i, is.count i ≤ stepsOf (loff i) (programs i)) ∧
      ((∀ i, s.step i = none) ↔ ∀ i, is.count i = stepsOf (loff i) (programs i)) ∧
      (s.Over ↔ ∀ i, is.count i = stepsOf (loff i) (programs i)) := by
  obtain ⟨_, a, _, _, hseems⟩ := simulates_atomic.run (seems_init share loff programs) hexec
  have hinit : ∀ i, (System.init share loff programs).left i = stepsOf (loff i) (programs i) :=
    fun i => Nat.zero_add _
  have hcount : ∀ i, is.count i = stepsOf (loff i) (programs i) ↔ s.left i = 0 := fun i => by
    rw [← hinit]
    exact system_counts.count_eq_iff hexec i
  refine ⟨fun i => ?_, ?_, ?_⟩
  · rw [← hinit, ← system_counts.count_add hexec i]
    exact Nat.le_add_right _ _
  · rw [system_counts.stuck_iff fun i => hseems.progress]
    exact forall_congr' fun i => (hcount i).symm
  · exact forall_congr' fun i => left_eq_zero_iff.symm.trans (hcount i).symm

/-- A client that waits to read while another one writes is one of the schedules. -/
theorem no_deadlock_run :
    ∃ s es, exec System.step (System.init ⟨fun _ => 0, 0⟩ (fun _ => 0) fun i : Bool =>
        if i then [.write 2 fun _ => some 65] else [.read 2 fun _ => true])
        [true, true, false, true] = some (s, es) ∧
      ¬ (∀ i, s.step i = none) ∧ ¬ s.Over := by
  obtain ⟨⟨s, es⟩, hexec⟩ := Option.isSome_iff_exists.mp
    (show (exec System.step (System.init ⟨fun _ => 0, 0⟩ (fun _ => 0) fun i : Bool =>
      if i then [.write 2 fun _ => some 65] else [.read 2 fun _ => true])
      [true, true, false, true]).isSome = true by decide +kernel)
  obtain ⟨_, hstuck, hover⟩ := no_deadlock hexec
  have hless : ¬ ∀ i, [true, true, false, true].count i = stepsOf 0 (if i then
      [.write 2 fun _ => some 65] else [.read 2 fun _ => true]) := by decide +kernel
  exact ⟨s, es, hexec, fun h => hless (hstuck.mp h), fun h => hless (hover.mp h)⟩

end LinuxDevNote.Mutex
