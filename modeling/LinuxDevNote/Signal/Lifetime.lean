import Mathlib.Data.Fintype.Basic
import LinuxDevNote.Signal.Calls

/-!
# The life of the task that is signalled

`write_pid` finds a task inside a read section, leaves the section, and then signals the
task. The section protects the task until `rcu_read_unlock`; from there to
`send_sig_info` nothing does. So a caller may signal a freed task exactly when one is
freed in that window. The section itself is left once on every path.
-/

namespace LinuxDevNote.Signal

open Execution ReadCopyUpdate

variable {ι Task : Type*} [DecidableEq ι] [DecidableEq Task]

/-- No task is freed between `rcu_read_unlock` and `send_sig_info` of a caller that found
it. -/
def WindowClosed (s : State ι Task) : Label ι Task → Prop
  | .free t => ∀ i, (s.pc i).target ≠ some t
  | _ => True

instance [Fintype ι] (s : State ι Task) : ∀ a, Decidable (WindowClosed s a)
  | .free t => inferInstanceAs (Decidable (∀ i, (s.pc i).target ≠ some t))
  | .write _ _ _ | .advance _ _ | .fork _ _ | .exit _ => isTrue trivial

/-- A task that is signalled was not freed. -/
def Event.Live : Event ι Task → Prop
  | .sent _ _ freed => freed = false
  | _ => True

instance : ∀ e : Event ι Task, Decidable e.Live
  | .sent _ _ freed => inferInstanceAs (Decidable (freed = false))
  | .refused _ | .locked _ | .unlocked _ | .returned _ _ => isTrue trivial

/-- The caller enters its read section. -/
def Event.isLock (i : ι) : Event ι Task → Bool
  | .locked j => decide (j = i)
  | _ => false

/-- The caller leaves its read section. -/
def Event.isUnlock (i : ι) : Event ι Task → Bool
  | .unlocked j => decide (j = i)
  | _ => false

/-- The caller returns from a call that was not refused for its count. -/
def Event.isReturn (i : ι) : Event ι Task → Bool
  | .returned j _ => decide (j = i)
  | _ => false

/-- What a run may do: whenever the calls in progress go on, they signal only tasks that
were not freed, and a caller has left its read section once for each call. -/
structure WritePidLaw (s : State ι Task) (trace : List (Event ι Task)) : Prop where
  /-- Every task signalled so far, or by the calls as they go on, was not freed. -/
  live : ∀ (as : List (Label ι Task)) (t : State ι Task) (rest : List (Event ι Task)),
    (∀ a ∈ as, a.caller.isSome = true) → exec State.step s as = some (t, rest) →
    ∀ e ∈ trace ++ rest, e.Live
  /-- A caller is in its section or not, and never twice. -/
  sections : ∀ i, trace.countP (Event.isLock i) =
    trace.countP (Event.isUnlock i) + if (s.pc i).inSection then 1 else 0
  /-- A caller that is in no call has left the section once for each return. -/
  leaves : ∀ i, s.pc i = .idle →
    trace.countP (Event.isUnlock i) = trace.countP (Event.isReturn i)

variable {s t : State ι Task} {a : Label ι Task} {es trace : List (Event ι Task)}

/-- A step changes the table by at most one operation: the section of the caller that
takes the step, or what the kernel does. -/
theorem Steps.rcu_cases (h : Steps s a t es) :
    t.rcu = s.rcu ∨ ∃ op, s.rcu.step op = some t.rcu ∧
      (∀ j, op = .leave j → a.caller = some j) ∧ (∀ o, op = .reclaim o → a = .free o) := by
  cases h with
  | refuse | start | find | send => exact Or.inl rfl
  | lock _ hrcu =>
    exact Or.inr ⟨_, hrcu, fun j h => (by cases h), fun o h => (by cases h)⟩
  | unlockMissing _ hrcu | unlockFound _ hrcu =>
    refine Or.inr ⟨_, hrcu, fun j h => ?_, fun o h => (by cases h)⟩
    rw [Op.leave.inj h]
    rfl
  | kernel hop hrcu =>
    refine Or.inr ⟨_, hrcu, fun j h => ?_, fun o h => ?_⟩
    · subst h
      cases a <;> cases hop
    · subst h
      cases a <;> cases hop
      rfl

/-- A step moves only the caller that takes it. -/
theorem Steps.pc_eq (h : Steps s a t es) {j : ι} (hj : a.caller ≠ some j) : t.pc j = s.pc j := by
  cases h with
  | refuse | kernel => rfl
  | start | lock | find | unlockMissing | unlockFound | send =>
    exact Function.update_of_ne (fun heq => hj (by rw [heq]; rfl)) _ _

omit [DecidableEq ι] [DecidableEq Task] in
/-- What the kernel does is no caller's step. -/
theorem Label.caller_of_update {op : Op ι ℤ Task} (h : a.update = some op) : a.caller = none := by
  cases a with
  | write | advance => cases h
  | fork | exit | free => rfl

/-- Where a step takes its caller: the section begins before the task is looked up, and
ends before the task is signalled. -/
theorem Steps.pc_cases (h : Steps s a t es) {j : ι} (hj : a.caller = some j) :
    t.pc j = .idle ∨ (∃ c, t.pc j = .lock c) ∨
      (∃ c, s.rcu.step (.enter j) = some t.rcu ∧ t.pc j = .find c) ∨
      (∃ c, s.pc j = .find c ∧ t.rcu = s.rcu ∧ t.pc j = .unlock c (s.rcu.entry c.pid)) ∨
      ∃ c o, s.pc j = .unlock c (some o) ∧ s.rcu.step (.leave j) = some t.rcu ∧
        t.pc j = .send c o := by
  cases h with
  | kernel hop => cases hj.symm.trans (Label.caller_of_update hop)
  | refuse hpc =>
    obtain rfl := Option.some.inj hj
    exact Or.inl hpc
  | unlockMissing | send =>
    obtain rfl := Option.some.inj hj
    exact Or.inl (Function.update_self _ _ _)
  | start =>
    obtain rfl := Option.some.inj hj
    exact Or.inr (Or.inl ⟨_, Function.update_self _ _ _⟩)
  | lock _ hrcu =>
    obtain rfl := Option.some.inj hj
    exact Or.inr (Or.inr (Or.inl ⟨_, hrcu, Function.update_self _ _ _⟩))
  | find hpc =>
    obtain rfl := Option.some.inj hj
    exact Or.inr (Or.inr (Or.inr (Or.inl ⟨_, hpc, rfl, Function.update_self _ _ _⟩)))
  | unlockFound hpc hrcu =>
    obtain rfl := Option.some.inj hj
    exact Or.inr (Or.inr (Or.inr (Or.inr ⟨_, _, hpc, hrcu, Function.update_self _ _ _⟩)))

/-- What holds of the callers and the table in every run. -/
structure Invariant (s : State ι Task) : Prop where
  /-- The table finds only linked tasks. -/
  sound : s.rcu.Sound
  /-- A caller is inside while its program counter says so. -/
  inside : ∀ i, (s.pc i).inSection = true → i ∈ s.rcu.inside
  /-- The section of a caller protects the task it found. -/
  found : ∀ i c t, s.pc i = .unlock c (some t) → s.rcu.Protects i t

omit [DecidableEq ι] [DecidableEq Task] in
/-- It holds at the start. -/
theorem invariant_init : Invariant (State.init ι Task) :=
  ⟨Table.init_sound, fun _ h => absurd h Bool.false_ne_true, fun _ _ _ h => by cases h⟩

/-- Every step keeps the table sound. -/
theorem Invariant.sound_step (h : Invariant s) (hsteps : Steps s a t es) : t.rcu.Sound := by
  rcases hsteps.rcu_cases with hsame | ⟨op, hrcu, _, _⟩
  · rw [hsame]
    exact h.sound
  · exact h.sound.step hrcu

/-- A caller that takes no step stays inside. -/
theorem Invariant.inside_other (h : Invariant s) (hsteps : Steps s a t es) {j : ι}
    (hj : a.caller ≠ some j) (hin : (t.pc j).inSection = true) : j ∈ t.rcu.inside := by
  rw [hsteps.pc_eq hj] at hin
  have hold := h.inside j hin
  rcases hsteps.rcu_cases with hsame | ⟨op, hrcu, hleave, _⟩
  · rwa [hsame]
  · exact Table.inside_step hold (fun heq => hj (hleave j heq)) hrcu

/-- A caller that takes no step keeps the protection of its section. -/
theorem Invariant.found_other (h : Invariant s) (hsteps : Steps s a t es) {j : ι}
    (hj : a.caller ≠ some j) {c : Call} {o : Task} (hfound : t.pc j = .unlock c (some o)) :
    t.rcu.Protects j o := by
  rw [hsteps.pc_eq hj] at hfound
  have hold := h.found j c o hfound
  rcases hsteps.rcu_cases with hsame | ⟨op, hrcu, hleave, _⟩
  · rwa [hsame]
  · exact hold.step (fun heq => hj (hleave j heq)) hrcu

/-- The caller that takes the step is inside while its program counter says so. -/
theorem Invariant.inside_self (h : Invariant s) (hsteps : Steps s a t es) {j : ι}
    (hj : a.caller = some j) (hin : (t.pc j).inSection = true) : j ∈ t.rcu.inside := by
  rcases hsteps.pc_cases hj with hpc | ⟨c, hpc⟩ | ⟨c, hrcu, _⟩ | ⟨c, hold, hrcu, _⟩ |
    ⟨c, o, _, _, hpc⟩
  · rw [hpc] at hin
    cases hin
  · rw [hpc] at hin
    cases hin
  · obtain heq := Option.some.inj hrcu
    rw [← heq]
    exact Finset.mem_insert_self _ _
  · rw [hrcu]
    exact h.inside j (by rw [hold]; rfl)
  · rw [hpc] at hin
    cases hin

/-- The task that a caller finds is protected by its section. -/
theorem Invariant.found_self (h : Invariant s) (hsteps : Steps s a t es) {j : ι}
    (hj : a.caller = some j) {c : Call} {o : Task} (hfound : t.pc j = .unlock c (some o)) :
    t.rcu.Protects j o := by
  rcases hsteps.pc_cases hj with hpc | ⟨d, hpc⟩ | ⟨d, _, hpc⟩ | ⟨d, hold, hrcu, hpc⟩ |
    ⟨d, p, _, _, hpc⟩
  · cases hfound.symm.trans hpc
  · cases hfound.symm.trans hpc
  · cases hfound.symm.trans hpc
  · have hentry := (Pc.unlock.inj (hpc.symm.trans hfound)).2
    rw [hrcu]
    exact h.sound.protects (h.inside j (by rw [hold]; rfl)) hentry
  · cases hfound.symm.trans hpc

/-- Every step keeps the invariant. -/
theorem Invariant.step (h : Invariant s) (hstep : s.step a = some (t, es)) : Invariant t := by
  have hsteps := State.steps hstep
  refine ⟨h.sound_step hsteps, fun j hin => ?_, fun j c o hfound => ?_⟩
  · by_cases hj : a.caller = some j
    · exact h.inside_self hsteps hj hin
    · exact h.inside_other hsteps hj hin
  · by_cases hj : a.caller = some j
    · exact h.found_self hsteps hj hfound
    · exact h.found_other hsteps hj hfound

/-- The events of a caller so far, counted. -/
structure Books (s : State ι Task) (trace : List (Event ι Task)) (i : ι) : Prop where
  /-- The section was entered once more than it was left while the caller is inside. -/
  locks : trace.countP (Event.isLock i) =
    trace.countP (Event.isUnlock i) + if (s.pc i).inSection then 1 else 0
  /-- It was left once more than the caller returned while the caller is to signal. -/
  unlocks : trace.countP (Event.isUnlock i) =
    trace.countP (Event.isReturn i) + if (s.pc i).target.isSome then 1 else 0

/-- The events of a step are those of the caller that takes it. -/
theorem Steps.countP_eq_zero (h : Steps s a t es) {j : ι} (hj : a.caller ≠ some j) :
    es.countP (Event.isLock j) = 0 ∧ es.countP (Event.isUnlock j) = 0 ∧
      es.countP (Event.isReturn j) = 0 := by
  cases h with
  | refuse | start | find | kernel =>
    simp [Event.isLock, Event.isUnlock, Event.isReturn]
  | @lock i | @unlockMissing i | @unlockFound i | @send i =>
    have hne : i ≠ j := fun heq => hj (by rw [heq]; rfl)
    simp [Event.isLock, Event.isUnlock, Event.isReturn, hne]

/-- Every step keeps the books. -/
theorem Books.step {j : ι} (h : Books s trace j) (hsteps : Steps s a t es) :
    Books t (trace ++ es) j := by
  obtain ⟨hlocks, hunlocks⟩ := h
  by_cases hj : a.caller = some j
  · cases hsteps with
    | kernel hop => cases hj.symm.trans (Label.caller_of_update hop)
    | refuse hpc | start hpc | lock hpc | find hpc | unlockMissing hpc | unlockFound hpc
    | send hpc =>
      obtain rfl := Option.some.inj hj
      rw [hpc] at hlocks hunlocks
      simp only [Pc.inSection, Pc.target, Option.isSome_none, Option.isSome_some,
        Bool.false_eq_true, if_true, if_false, add_zero] at hlocks hunlocks
      constructor <;>
        simp [List.countP_append, Event.isLock, Event.isUnlock, Event.isReturn, Pc.inSection,
          Pc.target, hpc] <;>
        omega
  · obtain ⟨hnolock, hnounlock, hnoreturn⟩ := hsteps.countP_eq_zero hj
    have hpc := hsteps.pc_eq hj
    constructor
    · rw [List.countP_append, List.countP_append, hnolock, hnounlock, hpc, add_zero, add_zero,
        hlocks]
    · rw [List.countP_append, List.countP_append, hnounlock, hnoreturn, hpc, add_zero, add_zero,
        hunlocks]

/-- The tasks about to be signalled were not freed. -/
def Held (s : State ι Task) : Prop :=
  ∀ i o, (s.pc i).target = some o → s.rcu.stage o ≠ .freed

/-- Every step outside of the window keeps it so. -/
theorem Held.step (h : Held s) (hinv : Invariant s) (hclosed : WindowClosed s a)
    (hsteps : Steps s a t es) : Held t := by
  intro j o htarget
  by_cases hj : a.caller = some j
  · rcases hsteps.pc_cases hj with hpc | ⟨c, hpc⟩ | ⟨c, _, hpc⟩ | ⟨c, _, _, hpc⟩ |
      ⟨c, p, hold, hrcu, hpc⟩
    · cases (congrArg Pc.target hpc).symm.trans htarget
    · cases (congrArg Pc.target hpc).symm.trans htarget
    · cases (congrArg Pc.target hpc).symm.trans htarget
    · cases (congrArg Pc.target hpc).symm.trans htarget
    · obtain rfl := Option.some.inj ((congrArg Pc.target hpc).symm.trans htarget)
      have hprotects := hinv.found j c p hold
      exact Table.not_freed_step hprotects.not_freed (fun heq => by cases heq) hrcu
  · rw [hsteps.pc_eq hj] at htarget
    have hold := h j o htarget
    rcases hsteps.rcu_cases with hsame | ⟨op, hrcu, _, hreclaim⟩
    · rwa [hsame]
    · refine Table.not_freed_step hold (fun heq => ?_) hrcu
      rw [hreclaim o heq] at hclosed
      exact hclosed j htarget

/-- A step signals only tasks that were not freed. -/
theorem Held.live (h : Held s) (hsteps : Steps s a t es) : ∀ e ∈ es, e.Live := by
  cases hsteps with
  | refuse | start | lock | find | unlockMissing | unlockFound | kernel =>
    simp [Event.Live]
  | send hpc =>
    have hstage := h _ _ (by rw [hpc]; rfl)
    simp [Event.Live, hstage]

/-- A caller is about to signal a freed task, or has done so. -/
def Doomed (s : State ι Task) (trace : List (Event ι Task)) : Prop :=
  (∃ i c o, s.pc i = .send c o ∧ s.rcu.stage o = .freed) ∨ ∃ e ∈ trace, ¬ e.Live

/-- Freeing a task in the window dooms the caller. -/
theorem doomed_of_window (hclosed : ¬ WindowClosed s a) (hstep : s.step a = some (t, es)) :
    Doomed t (trace ++ es) := by
  cases a with
  | free o =>
    simp only [WindowClosed, not_forall, not_not] at hclosed
    obtain ⟨i, htarget⟩ := hclosed
    obtain ⟨rcu, hrcu, rfl, rfl⟩ := State.onTable_eq_some.mp hstep
    obtain ⟨_, rfl⟩ := Table.step_reclaim.mp hrcu
    cases hpc : s.pc i with
    | send c o' =>
      rw [hpc] at htarget
      obtain rfl := Option.some.inj htarget
      exact Or.inl ⟨i, c, o', hpc, Function.update_self _ _ _⟩
    | idle | lock | find | unlock =>
      rw [hpc] at htarget
      cases htarget
  | write | advance | fork | exit => exact absurd trivial hclosed

/-- A caller that is to signal a task does so next. -/
theorem State.step_send {i : ι} {c : Call} {o : Task} (hpc : s.pc i = .send c o) (sent : ℤ) :
    s.step (.advance i sent) = some (⟨Function.update s.pc i .idle, s.rcu⟩,
      [.sent i o (decide (s.rcu.stage o = .freed)),
        .returned i (if sent < 0 then sent else c.count)]) := by
  rw [step, advance, hpc]

/-- There is no way back. -/
theorem Doomed.step (h : Doomed s trace) (hinv : Invariant s)
    (hstep : s.step a = some (t, es)) : Doomed t (trace ++ es) := by
  rcases h with ⟨i, c, o, hpc, hfreed⟩ | ⟨e, he, hdead⟩
  · have hsteps := State.steps hstep
    have hstill : t.rcu.stage o = .freed := by
      rcases hsteps.rcu_cases with hsame | ⟨op, hrcu, _, _⟩
      · rw [hsame, hfreed]
      · exact hinv.sound.freed_step hfreed hrcu
    by_cases hi : a.caller = some i
    · cases a with
      | write =>
        obtain rfl := Option.some.inj hi
        simp [State.step, State.write, hpc] at hstep
      | advance i' sent =>
        obtain rfl := Option.some.inj hi
        rw [State.step_send hpc] at hstep
        obtain ⟨_, rfl⟩ := Prod.mk.inj (Option.some.inj hstep)
        refine Or.inr ⟨_, List.mem_append_right _ List.mem_cons_self, ?_⟩
        simp [Event.Live, hfreed]
      | fork | exit | free => cases hi
    · exact Or.inl ⟨i, c, o, (hsteps.pc_eq hi).trans hpc, hstill⟩
  · exact Or.inr ⟨e, List.mem_append_left _ he, hdead⟩

/-- The steps of the callers free nothing. -/
theorem meets_of_callers (as : List (Label ι Task)) (h : ∀ a ∈ as, a.caller.isSome = true)
    (s : State ι Task) : Meets State.step WindowClosed s as := by
  refine meets_of_forall_mem (fun a ha _ => ?_) s
  cases a with
  | write | advance | fork | exit => trivial
  | free => exact absurd (h _ ha) Bool.false_ne_true

/-- In every run the books are right. -/
theorem books_of_run (hrun : Run State.step anyLabel (State.init ι Task) s trace) :
    Invariant s ∧ ∀ i, Books s trace i :=
  hrun.invariant (I := fun s trace => Invariant s ∧ ∀ i, Books s trace i)
    ⟨invariant_init, fun _ => ⟨rfl, rfl⟩⟩
    fun h _ hstep => ⟨h.1.step hstep, fun i => (h.2 i).step (State.steps hstep)⟩

/-- In every run that keeps out of the window, only tasks that were not freed are
signalled. -/
theorem live_of_run (hrun : Run State.step WindowClosed (State.init ι Task) s trace) :
    (Invariant s ∧ Held s) ∧ ∀ e ∈ trace, e.Live := by
  refine hrun.invariant (I := fun s trace => (Invariant s ∧ Held s) ∧ ∀ e ∈ trace, e.Live)
    ⟨⟨invariant_init, fun _ _ h => by cases h⟩, by simp⟩ ?_
  intro s t a trace es ⟨⟨hinv, hheld⟩, hlive⟩ hclosed hstep
  have hsteps := State.steps hstep
  refine ⟨⟨hinv.step hstep, hheld.step hinv hclosed hsteps⟩, fun e he => ?_⟩
  rcases List.mem_append.mp he with he | he
  · exact hlive e he
  · exact hheld.live hsteps e he

/-- **The life of the task that is signalled.** For every interleaving of the callers with
the kernel: whenever the calls in progress go on they signal only tasks that were not
freed exactly when no task was freed between a caller's `rcu_read_unlock` and its
`send_sig_info`; and on every path the read section is left once. -/
theorem write_pid_law_iff {as : List (Label ι Task)}
    (hexec : exec State.step (State.init ι Task) as = some (s, trace)) :
    WritePidLaw s trace ↔ Meets State.step WindowClosed (State.init ι Task) as := by
  constructor
  · intro hlaw
    have hcases := meets_or_bad WindowClosed (fun s _ => Invariant s) Doomed
      (fun h hstep => h.step hstep) (fun _ hclosed hstep => doomed_of_window hclosed hstep)
      (fun hinv h hstep => h.step hinv hstep) [] invariant_init hexec
    rcases hcases with hmeets | ⟨i, c, o, hpc, hfreed⟩ | ⟨e, he, hdead⟩
    · exact hmeets
    · have hnext := exec_singleton (State.step_send hpc 0)
      have hlive := hlaw.live [.advance i 0] _ _ (by simp [Label.caller]) hnext
        _ (List.mem_append_right _ List.mem_cons_self)
      simp [Event.Live, hfreed] at hlive
    · exact absurd (hlaw.live [] s [] (by simp) rfl e (by simpa using he)) hdead
  · intro hmeets
    have hrun := run_of_exec hmeets hexec
    have hbooks := (books_of_run (run_of_exec (meets_anyLabel _ _) hexec)).2
    refine ⟨fun bs t rest hcallers hrest => ?_, fun i => (hbooks i).locks, fun i hidle => ?_⟩
    · exact (live_of_run (hrun.append_exec (meets_of_callers bs hcallers s) hrest)).2
    · have hunlocks := (hbooks i).unlocks
      rw [hidle] at hunlocks
      exact hunlocks

/-- A task exits while a caller that found it is inside its section, its pid goes to another
one, and it is freed after it was signalled. -/
theorem write_pid_law_iff_run :
    ∃ s trace, exec State.step (State.init Unit Bool)
        [.fork 5 true, .write () 2 5, .advance () 0, .advance () 0, .exit 5, .fork 5 false,
          .advance () 0, .advance () 0, .free true] = some (s, trace) ∧ WritePidLaw s trace := by
  obtain ⟨⟨s, trace⟩, hexec⟩ := Option.isSome_iff_exists.mp
    (show (exec State.step (State.init Unit Bool)
      [.fork 5 true, .write () 2 5, .advance () 0, .advance () 0, .exit 5, .fork 5 false,
        .advance () 0, .advance () 0, .free true]).isSome = true by decide +kernel)
  exact ⟨s, trace, hexec, (write_pid_law_iff hexec).mpr (by decide +kernel)⟩

/-- A task exits and is freed right after the caller that found it left its section. -/
theorem freed_task_signalled :
    ¬ ∀ (as : List (Label Unit Unit)) (s : State Unit Unit) (trace : List (Event Unit Unit)),
      exec State.step (State.init Unit Unit) as = some (s, trace) → WritePidLaw s trace := by
  intro h
  obtain ⟨⟨s, trace⟩, hexec, hdead⟩ := Option.map_eq_some_iff.mp
    (show (exec State.step (State.init Unit Unit)
      [.fork 5 (), .write () 2 5, .advance () 0, .advance () 0, .advance () 0, .exit 5, .free (),
        .advance () 0]).map (fun p => decide (∀ e ∈ p.2, e.Live)) = some false by decide +kernel)
  have hlive := (h _ s trace hexec).live [] s [] (by simp) rfl
  rw [List.append_nil] at hlive
  exact absurd hlive (of_decide_eq_false hdead)

end LinuxDevNote.Signal
