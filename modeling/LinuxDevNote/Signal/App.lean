import LinuxDevNote.Signal.Lifetime
import LinuxDevNote.Signal.Numerals

/-!
# The application of the signal driver

Each run of `app.c` sets a handler, opens the file of the driver and writes its own pid to it. The
driver looks the task of the pid up and signals it, and the handler prints the value before the
run goes on. Other tasks come and go at the same time, and pids and tasks are used again. A run
that writes is alive until its call returns: so the driver always signals the run that called it,
and never a task that was freed.
-/

namespace LinuxDevNote.Signal

open Execution ReadCopyUpdate Decimal Kernel

/-- `info.si_int`. -/
def siInt : ℤ := 12345

/-- `SIG_TEST`. -/
def SIG_TEST : ℤ := 35

/-- `PID_MAX_LIMIT`. -/
def PID_MAX_LIMIT : ℤ := 4194304

/-- What a run of `app.c` does next. -/
inductive AppPc
  | unborn
  | sigaction
  | openFile
  | write
  | writing
  | written (ret : ℤ)
  | exit (status : ℤ)
  | dead
  deriving DecidableEq

/-- The runs of the application and other tasks. -/
structure System (ι κ : Type*) where
  /-- The driver, and the tasks: one for each run, and others. -/
  driver : State ι (ι ⊕ κ)
  /-- The next statement of each run. -/
  pc : ι → AppPc
  /-- `getpid()` of each run. -/
  pid : ι → ℤ
  /-- How many signals wait for each run. -/
  pending : ι → ℕ

/-- There are no tasks. -/
def System.init (ι κ : Type*) : System ι κ := ⟨State.init ι (ι ⊕ κ), fun _ => .unborn, fun _ => 0,
  fun _ => 0⟩

/-- A scheduling decision: a run starts, takes the step named, is interrupted by a signal or ends;
or another task starts or ends, or the kernel frees one. -/
inductive AppLabel (ι κ : Type*)
  | fork (i : ι) (pid : ℤ)
  | sigaction (i : ι)
  | openFile (i : ι) (fails : Bool)
  | write (i : ι) (stack before : List UInt8)
  | advance (i : ι) (sent : ℤ)
  | deliver (i : ι)
  | finish (i : ι)
  | exit (i : ι)
  | otherFork (pid : ℤ) (k : κ)
  | otherExit (pid : ℤ)
  | free (t : ι ⊕ κ)

deriving instance DecidableEq for Event

/-- What is seen: the events of the driver, the line that `receiveData` prints, a run that has no
handler for its signal, and the end of a run. -/
inductive AppEvent (ι κ : Type*)
  | driver (e : Event ι (ι ⊕ κ))
  | received (i : ι) (value : ℤ)
  | killed (i : ι)
  | exited (i : ι) (status : ℤ)
  deriving DecidableEq

/-- The value that a call of the driver returns by a step, if it does. -/
def returnOf {ι Task : Type*} (es : List (Event ι Task)) : Option ℤ :=
  es.findSome? fun
    | .returned _ ret => some ret
    | .refused _ => some (-EINVAL)
    | _ => none

section

variable {ι κ : Type*} [DecidableEq ι]

/-- A signal is sent to the task of a run. -/
def Event.sentTo (i : ι) : Event ι (ι ⊕ κ) → Bool
  | .sent _ (.inl j) _ => decide (j = i)
  | _ => false

/-- A run is where a step of the driver takes it. -/
def System.after (s : System ι κ) (i : ι) (sent : ℤ)
    (p : State ι (ι ⊕ κ) × List (Event ι (ι ⊕ κ))) : System ι κ × List (AppEvent ι κ) :=
  (⟨p.1, Function.update s.pc i ((returnOf p.2).elim .writing .written), s.pid,
    fun j => s.pending j + if 0 ≤ sent then p.2.countP (Event.sentTo j) else 0⟩, p.2.map .driver)

/-- A run goes on to another statement. -/
def System.setPc (s : System ι κ) (i : ι) (pc : AppPc) : System ι κ :=
  { s with pc := Function.update s.pc i pc }

/-- A step on the tasks that is no step of a call. -/
def System.setDriver (s : System ι κ) (d : State ι (ι ⊕ κ)) : System ι κ := { s with driver := d }

variable [DecidableEq κ]

/-- `write(configfd, buf, strlen(buf) + 1)`, where `buf` held `before` and `mybuf` and what is
behind it hold `stack`. -/
def System.write (s : System ι κ) (i : ι) (stack before : List UInt8) :
    Option (System ι κ × List (AppEvent ι κ)) :=
  let buf := printed before (s.pid i)
  let count := strlen buf + 1
  match sscanf (copyFromUser (fun k => buf[k]?) count ++ stack.drop count) 0 with
  | some scan => (s.driver.step (.write i count scan.pid)).map (s.after i 0)
  | none => none

/-- A signal reaches a run that is not in the kernel. -/
def System.deliver (s : System ι κ) (i : ι) : Option (System ι κ × List (AppEvent ι κ)) :=
  if 0 < s.pending i then
    let taken := { s with pending := Function.update s.pending i (s.pending i - 1) }
    match s.pc i with
    | .unborn | .writing | .dead => none
    | .sigaction => some (taken.setPc i (.exit SIG_TEST), [.killed i])
    | .openFile | .write | .written _ | .exit _ => some (taken, [.received i siInt])
  else none

/-- One step. -/
def System.step (s : System ι κ) : AppLabel ι κ → Option (System ι κ × List (AppEvent ι κ))
  | .fork i pid =>
    if s.pc i = .unborn ∧ 1 ≤ pid ∧ pid ≤ PID_MAX_LIMIT then
      (s.driver.step (.fork pid (.inl i))).map fun p =>
        ({ (s.setDriver p.1).setPc i .sigaction with pid := Function.update s.pid i pid }, [])
    else none
  | .sigaction i => if s.pc i = .sigaction then some (s.setPc i .openFile, []) else none
  | .openFile i fails =>
    if s.pc i = .openFile then some (s.setPc i (if fails then .exit (-1) else .write), []) else none
  | .write i stack before => if s.pc i = .write then s.write i stack before else none
  | .advance i sent =>
    if s.pc i = .writing then (s.driver.step (.advance i sent)).map (s.after i sent) else none
  | .deliver i => s.deliver i
  | .finish i =>
    match s.pc i with
    | .written ret =>
      -- a signal that waits is handled before the run goes on
      if s.pending i = 0 then some (s.setPc i (.exit (if ret < 0 then -1 else 0)), []) else none
    | _ => none
  | .exit i =>
    match s.pc i with
    | .exit status =>
      (s.driver.step (.exit (s.pid i))).map fun p =>
        ((s.setDriver p.1).setPc i .dead, [.exited i status])
    | _ => none
  | .otherFork pid k =>
    (s.driver.step (.fork pid (.inr k))).map fun p => (s.setDriver p.1, [])
  | .otherExit pid =>
    match s.driver.rcu.entry pid with
    | some (.inr _) => (s.driver.step (.exit pid)).map fun p => (s.setDriver p.1, [])
    | _ => none
  | .free t => (s.driver.step (.free t)).map fun p => (s.setDriver p.1, [])

end

/-- What a call of a run parses is the pid of the run. -/
theorem sscanf_printed {pid : ℤ} (hpos : 1 ≤ pid) (hmax : pid ≤ PID_MAX_LIMIT)
    (stack before : List UInt8) :
    let count := strlen (printed before pid) + 1
    count ≤ mybufSize ∧ ∃ reads, sscanf (copyFromUser (fun k => (printed before pid)[k]?) count ++
      stack.drop count) 0 = some ⟨pid, reads⟩ := by
  unfold PID_MAX_LIMIT at hmax
  have hstring := sprintf_of_pos (by omega : 0 < pid)
  have hlen := strlen_printed (by omega : 0 < pid) before
  have hdigits : (decimal pid.natAbs).length ≤ 9 := length_decimal_le (by omega) (by omega)
  have htotal : (sprintf pid).length = strlen (printed before pid) + 1 := by
    rw [hstring, hlen, List.length_append, List.length_singleton]
  refine ⟨by unfold mybufSize; omega, (decimal pid.natAbs).length + 1, ?_⟩
  have hcopy : copyFromUser (fun k => (printed before pid)[k]?) (strlen (printed before pid) + 1) =
      decimal pid.natAbs ++ [0] := by
    rw [← htotal, copyFromUser_getElem? (by simp [printed]), printed, List.take_left, hstring]
  have hscan := sscanf_append false 0 (stack.drop (strlen (printed before pid) + 1))
    (show ∀ c ∈ [], isspace c = true by simp)
    (fun c hc => isDigit_of_mem_decimal (n := pid.natAbs) hc) (show isDigit 0 = false by decide)
    fun _ hnil => absurd hnil (decimal_ne_nil pid.natAbs)
  rw [if_neg (decimal_ne_nil pid.natAbs), value_decimal, signed_natAbs hpos (by omega)] at hscan
  rw [hcopy, List.append_assoc, List.singleton_append]
  simpa [signBytes] using hscan

/-- The run received its signal. -/
def AppEvent.receives {ι κ : Type*} [DecidableEq ι] (i : ι) : AppEvent ι κ → Bool
  | .received j _ => decide (j = i)
  | _ => false

/-- A run signals only itself, and while it is there; and it has a handler by then. -/
def AppEvent.Own {ι κ : Type*} : AppEvent ι κ → Prop
  | .driver (.sent i t freed) => t = .inl i ∧ freed = false
  | .received _ value => value = siInt
  | .killed _ => False
  | _ => True

section

variable {ι κ : Type*}

/-- The pid of a run leads to its task. -/
def Alive (d : State ι (ι ⊕ κ)) (pid : ℤ) (i : ι) : Prop := d.rcu.entry pid = some (.inl i)

/-- The call of a run is for its own pid, and has found its own task. -/
def OwnCall (pid : ℤ) (i : ι) : Pc (ι ⊕ κ) → Prop
  | .lock c | .find c => c.pid = pid
  | .unlock c t => c.pid = pid ∧ t = some (.inl i)
  | .send c t => c.pid = pid ∧ t = .inl i
  | .idle => False

/-- What is known about a run at a statement: where its call is, how many signals wait for it and
how many it has received. -/
def Stage (d : State ι (ι ⊕ κ)) (pid : ℤ) (i : ι) (pending received : ℕ) : AppPc → Prop
  | .unborn => d.pc i = .idle ∧ pending = 0 ∧ received = 0
  | .sigaction | .openFile | .write =>
    (d.pc i = .idle ∧ pending = 0 ∧ received = 0) ∧ Alive d pid i ∧ 1 ≤ pid ∧ pid ≤ PID_MAX_LIMIT
  | .writing => OwnCall pid i (d.pc i) ∧ Alive d pid i ∧ pending = 0 ∧ received = 0
  | .written ret =>
    d.pc i = .idle ∧ Alive d pid i ∧ pending + received = if 0 ≤ ret then 1 else 0
  | .exit status =>
    d.pc i = .idle ∧ Alive d pid i ∧ pending = 0 ∧ received = if status = 0 then 1 else 0
  | .dead => d.pc i = .idle ∧ pending = 0

/-- A run that takes no step stays where it is. -/
theorem Stage.frame {d d' : State ι (ι ⊕ κ)} {pid : ℤ} {i : ι} {pc : AppPc}
    {pending received : ℕ} (h : Stage d pid i pending received pc) (hpc : d'.pc i = d.pc i)
    (halive : Alive d pid i → Alive d' pid i) : Stage d' pid i pending received pc := by
  cases pc with
  | unborn => exact ⟨hpc.trans h.1, h.2⟩
  | sigaction | openFile | write => exact ⟨⟨hpc.trans h.1.1, h.1.2⟩, halive h.2.1, h.2.2⟩
  | writing => exact ⟨hpc ▸ h.1, halive h.2.1, h.2.2⟩
  | written | exit => exact ⟨hpc.trans h.1, halive h.2.1, h.2.2⟩
  | dead => exact ⟨hpc.trans h.1, h.2⟩

end

variable {ι κ : Type*} [DecidableEq ι] {s t : System ι κ} {trace es : List (AppEvent ι κ)}

/-- How often a run has received its signal. -/
def received (i : ι) (trace : List (AppEvent ι κ)) : ℕ := trace.countP (AppEvent.receives i)

/-- What holds of all runs of the application. -/
structure System.Inv (s : System ι κ) (trace : List (AppEvent ι κ)) : Prop where
  /-- The table of tasks. -/
  sound : s.driver.rcu.Sound
  /-- Every run. -/
  stage : ∀ i, Stage s.driver (s.pid i) i (s.pending i) (received i trace) (s.pc i)
  /-- What was seen. -/
  own : ∀ e ∈ trace, e.Own
  /-- The runs that have ended. -/
  exited : ∀ i status, .exited i status ∈ trace →
    s.pc i = .dead ∧ received i trace = if status = 0 then 1 else 0

/-- Nothing has started. -/
theorem System.inv_init : (System.init ι κ).Inv [] where
  sound := Table.init_sound
  stage _ := ⟨rfl, rfl, rfl⟩
  own := by simp
  exited := by simp

/-- What a run has received in two parts. -/
theorem received_append (i : ι) (trace es : List (AppEvent ι κ)) :
    received i (trace ++ es) = received i trace + received i es := List.countP_append

/-- A step of one run. -/
theorem System.Inv.after {i : ι} (h : s.Inv trace) (hsound : t.driver.rcu.Sound)
    (hothers : ∀ j, j ≠ i → t.driver.pc j = s.driver.pc j ∧ t.pc j = s.pc j ∧ t.pid j = s.pid j ∧
      t.pending j = s.pending j ∧ received j es = 0)
    (halive : ∀ j, j ≠ i → Alive s.driver (s.pid j) j → Alive t.driver (s.pid j) j)
    (hself : Stage t.driver (t.pid i) i (t.pending i) (received i (trace ++ es)) (t.pc i))
    (hown : ∀ e ∈ es, e.Own) (hnotDead : s.pc i ≠ .dead)
    (hexited : ∀ j status, .exited j status ∈ es → j = i ∧ t.pc i = .dead ∧
      received i (trace ++ es) = if status = 0 then 1 else 0) : t.Inv (trace ++ es) := by
  refine ⟨hsound, fun j => ?_, fun e he => ?_, fun j status he => ?_⟩
  · by_cases hj : j = i
    · subst hj
      exact hself
    · obtain ⟨hcall, hpc, hpid, hpending, hnone⟩ := hothers j hj
      rw [hpc, hpid, hpending, received_append, hnone]
      exact (h.stage j).frame hcall (halive j hj)
  · rcases List.mem_append.mp he with he | he
    · exact h.own e he
    · exact hown e he
  · rcases List.mem_append.mp he with he | he
    · obtain ⟨hdead, hcount⟩ := h.exited j status he
      have hj : j ≠ i := fun hji => hnotDead (hji ▸ hdead)
      obtain ⟨_, hpc, _, _, hnone⟩ := hothers j hj
      exact ⟨hpc.trans hdead, by rw [received_append, hnone, hcount, add_zero]⟩
    · obtain ⟨rfl, hdone⟩ := hexited j status he
      exact hdone

section Driver

variable {d d' : State ι (ι ⊕ κ)} {a : Label ι (ι ⊕ κ)} {fs : List (Event ι (ι ⊕ κ))}
  [DecidableEq κ]

/-- A task keeps its pid until it exits. -/
theorem Steps.entry_step {k : ℤ} {o : ι ⊕ κ} (h : Steps d a d' fs) (hexit : a ≠ .exit k)
    (hentry : d.rcu.entry k = some o) : d'.rcu.entry k = some o := by
  cases h with
  | refuse | start | find | send => exact hentry
  | lock _ hrcu | unlockMissing _ hrcu | unlockFound _ hrcu =>
    exact Table.entry_step hentry (fun h => by cases h) hrcu
  | kernel hop hrcu =>
    refine Table.entry_step hentry (fun heq => ?_) hrcu
    subst heq
    cases a <;> cases hop
    exact hexit rfl

/-- What the kernel does to the tasks is not seen. -/
theorem Steps.silent (h : Steps d a d' fs) (hcaller : a.caller = none) : fs = [] := by
  cases h with
  | kernel => rfl
  | refuse | start | lock | find | unlockMissing | unlockFound | send => cases hcaller

/-- The table stays sound. -/
theorem Steps.sound (h : Steps d a d' fs) (hsound : d.rcu.Sound) : d'.rcu.Sound := by
  rcases h.rcu_cases with hsame | ⟨op, hrcu, _⟩
  · rwa [hsame]
  · exact hsound.step hrcu

/-- What the kernel does to the tasks, as a step of a larger system. -/
theorem State.exists_of_map {α : Type*} {f : State ι (ι ⊕ κ) × List (Event ι (ι ⊕ κ)) → α} {r : α}
    (h : (d.step a).map f = some r) (hcaller : a.caller = none) :
    ∃ d', Steps d a d' [] ∧ f (d', []) = r := by
  obtain ⟨⟨d', fs⟩, hd, heq⟩ := Option.map_eq_some_iff.mp h
  have hsteps := State.steps hd
  obtain rfl := hsteps.silent hcaller
  exact ⟨d', hsteps, heq⟩

/-- What a step of the call of a run does: it goes on for its own pid, or it returns, after it has
signalled the run. -/
theorem Steps.call_cases {i : ι} {pid sent : ℤ} (h : Steps d (.advance i sent) d' fs)
    (hsound : d.rcu.Sound) (halive : Alive d pid i) (hcall : OwnCall pid i (d.pc i)) :
    (OwnCall pid i (d'.pc i) ∧ returnOf fs = none ∧ (∀ j, fs.countP (Event.sentTo j) = 0) ∧
        ∀ e ∈ fs, (AppEvent.driver e).Own) ∨
      (d'.pc i = .idle ∧ ∃ ret, returnOf fs = some ret ∧ (0 ≤ ret ↔ 0 ≤ sent) ∧
        (∀ j, fs.countP (Event.sentTo j) = if i = j then 1 else 0) ∧
        ∀ e ∈ fs, (AppEvent.driver e).Own) := by
  cases h with
  | kernel hop => cases hop
  | lock hpc =>
    rw [hpc] at hcall
    refine Or.inl ⟨?_, rfl, fun _ => rfl, by simp [AppEvent.Own]⟩
    dsimp only
    rw [Function.update_self]
    exact hcall
  | find hpc =>
    rw [hpc] at hcall
    refine Or.inl ⟨?_, rfl, fun _ => rfl, by simp⟩
    dsimp only
    rw [Function.update_self]
    exact ⟨hcall, by rw [hcall]; exact halive⟩
  | unlockMissing hpc =>
    rw [hpc] at hcall
    cases hcall.2
  | unlockFound hpc =>
    rw [hpc] at hcall
    refine Or.inl ⟨?_, rfl, fun _ => rfl, by simp [AppEvent.Own]⟩
    dsimp only
    rw [Function.update_self]
    exact ⟨hcall.1, Option.some.inj hcall.2⟩
  | @send _ _ c task hpc =>
    rw [hpc] at hcall
    obtain ⟨_, rfl⟩ := hcall
    have hlinked := hsound pid _ halive
    refine Or.inr ⟨Function.update_self _ _ _, _, rfl, ?_, fun j => ?_, ?_⟩
    · split_ifs with hsent
      · exact Iff.rfl
      · exact iff_of_true (Int.natCast_nonneg _) (not_lt.mp hsent)
    · by_cases hj : i = j <;> simp [Event.sentTo, hj]
    · simp [AppEvent.Own, hlinked]

end Driver

/-- The events of the driver are no signals received. -/
theorem received_driver (j : ι) (fs : List (Event ι (ι ⊕ κ))) :
    received j (fs.map AppEvent.driver) = 0 := by
  simp [received, List.countP_eq_zero, AppEvent.receives]

variable {i : ι}

/-- A run goes on to its next statement. -/
theorem System.Inv.setPc {pc : AppPc} (h : s.Inv trace) (hnotDead : s.pc i ≠ .dead)
    (hself : Stage s.driver (s.pid i) i (s.pending i) (received i trace) pc) :
    (s.setPc i pc).Inv (trace ++ []) := by
  refine h.after (i := i) h.sound (fun j hj => ?_) (fun _ _ hold => hold) ?_ (by simp) hnotDead
    (by simp)
  · exact ⟨rfl, Function.update_of_ne hj _ _, rfl, rfl, rfl⟩
  · rw [List.append_nil]
    simpa [System.setPc] using hself

/-- A run that a signal waits for has called the driver, and receives it. -/
theorem System.Inv.deliver (h : s.Inv trace) (hstep : s.deliver i = some (t, es)) :
    t.Inv (trace ++ es) := by
  have hstage := h.stage i
  unfold System.deliver at hstep
  split_ifs at hstep with hwaits
  cases hpc : s.pc i with
  | written ret =>
    rw [hpc] at hstage hstep
    obtain ⟨rfl, rfl⟩ := Prod.mk.inj (Option.some.inj hstep)
    obtain ⟨hidle, halive, hsum⟩ := hstage
    refine h.after (i := i) h.sound (fun j hj => ?_) (fun _ _ hold => hold) ?_
      (by simp [AppEvent.Own]) (by simp [hpc]) (by simp)
    · have hother : ¬ i = j := fun heq => hj heq.symm
      exact ⟨rfl, rfl, rfl, Function.update_of_ne hj _ _, by
        simp [received, AppEvent.receives, hother]⟩
    · simp only [Function.update_self, hpc, received_append]
      refine ⟨hidle, halive, ?_⟩
      simp only [received, List.countP_singleton, AppEvent.receives, decide_true, if_true] at hsum ⊢
      omega
  | unborn | dead | writing =>
    rw [hpc] at hstep
    cases hstep
  | sigaction | openFile | write =>
    rw [hpc] at hstage
    exact absurd hstage.1.2.1 hwaits.ne'
  | exit =>
    rw [hpc] at hstage
    exact absurd hstage.2.2.1 hwaits.ne'

variable [DecidableEq κ] {a : Label ι (ι ⊕ κ)} {d : State ι (ι ⊕ κ)} {fs : List (Event ι (ι ⊕ κ))}

/-- A step of the call of a run. -/
theorem System.Inv.after_call {sent : ℤ} (h : s.Inv trace) (hsteps : Steps s.driver a d fs)
    (hcaller : a.caller = some i) (hothers : ∀ j, j ≠ i → fs.countP (Event.sentTo j) = 0)
    (hself : Stage d (s.pid i) i
      (s.pending i + if 0 ≤ sent then fs.countP (Event.sentTo i) else 0) (received i trace)
      ((returnOf fs).elim .writing .written))
    (hown : ∀ e ∈ fs, (AppEvent.driver e).Own) (hnotDead : s.pc i ≠ .dead) :
    (s.after i sent (d, fs)).1.Inv (trace ++ (s.after i sent (d, fs)).2) := by
  refine h.after (i := i) (hsteps.sound h.sound) (fun j hj => ?_) (fun j hj hold => ?_) ?_ ?_
    hnotDead ?_
  · refine ⟨hsteps.pc_eq fun heq => hj ?_, Function.update_of_ne hj _ _, rfl, ?_,
      received_driver j fs⟩
    · exact (Option.some.inj (hcaller.symm.trans heq)).symm
    · simp [System.after, hothers j hj]
  · refine hsteps.entry_step (fun heq => ?_) hold
    rw [heq] at hcaller
    cases hcaller
  · simp only [System.after, received_append, received_driver, add_zero, Function.update_self]
    exact hself
  · simpa [System.after] using hown
  · simp [System.after]

/-- A run calls the driver with its own pid. -/
theorem System.Inv.write {stack before : List UInt8} (h : s.Inv trace) (hpc : s.pc i = .write)
    (hstep : s.write i stack before = some (t, es)) : t.Inv (trace ++ es) := by
  have hstage := h.stage i
  rw [hpc] at hstage
  obtain ⟨⟨hidle, hpending, hreceived⟩, halive, hpos, hmax⟩ := hstage
  obtain ⟨hcount, reads, hscan⟩ := sscanf_printed hpos hmax stack before
  simp only [System.write, hscan, Option.map_eq_some_iff] at hstep
  obtain ⟨⟨d, fs⟩, hdriver, hafter⟩ := hstep
  have hsteps := State.steps hdriver
  have hnotDead : s.pc i ≠ .dead := by
    rw [hpc]
    exact fun heq => by cases heq
  obtain ⟨rfl, rfl⟩ := Prod.mk.inj hafter
  refine h.after_call hsteps rfl ?_ ?_ ?_ hnotDead
  all_goals
    cases hsteps with
    | refuse _ htoo => omega
    | kernel hop => cases hop
    | start => ?_
  · exact fun _ _ => rfl
  · refine ⟨?_, halive, by simp [hpending], hreceived⟩
    dsimp only
    rw [Function.update_self]
    rfl
  · simp

/-- A call goes on, and signals the run that made it. -/
theorem System.Inv.advance {sent : ℤ} (h : s.Inv trace) (hpc : s.pc i = .writing)
    (hdriver : s.driver.step (.advance i sent) = some (d, fs)) :
    (s.after i sent (d, fs)).1.Inv (trace ++ (s.after i sent (d, fs)).2) := by
  have hstage := h.stage i
  rw [hpc] at hstage
  obtain ⟨hcall, halive, hpending, hreceived⟩ := hstage
  have hsteps := State.steps hdriver
  have hnotDead : s.pc i ≠ .dead := by
    rw [hpc]
    exact fun heq => by cases heq
  have hstill := hsteps.entry_step (k := s.pid i) (fun heq => by cases heq) halive
  rcases hsteps.call_cases h.sound halive hcall with
    ⟨hnext, hnone, hsilent, hown⟩ | ⟨hidle, ret, hret, hsign, honce, hown⟩
  · refine h.after_call hsteps rfl (fun j _ => hsilent j) ?_ hown hnotDead
    rw [hnone, hsilent i]
    exact ⟨hnext, hstill, by simp [hpending], hreceived⟩
  · refine h.after_call hsteps rfl (fun j hj => ?_) ?_ hown hnotDead
    · rw [honce j, if_neg (Ne.symm hj)]
    · rw [hret, honce i, if_pos rfl, hpending, hreceived]
      refine ⟨hidle, hstill, ?_⟩
      simp only [hsign, zero_add, add_zero]

/-- The kernel ends or frees a task, or starts one that is no run. -/
theorem System.Inv.setDriver (h : s.Inv trace) (hsteps : Steps s.driver a d [])
    (hcaller : a.caller = none)
    (halive : ∀ j, Alive s.driver (s.pid j) j → a ≠ .exit (s.pid j)) :
    (s.setDriver d).Inv (trace ++ []) := by
  rw [List.append_nil]
  refine ⟨hsteps.sound h.sound, fun j => ?_, h.own, h.exited⟩
  refine (h.stage j).frame (hsteps.pc_eq fun heq => ?_) fun hold => ?_
  · cases hcaller.symm.trans heq
  · exact hsteps.entry_step (halive j hold) hold

/-- A run starts. -/
theorem System.Inv.fork {pid : ℤ} (h : s.Inv trace) (hpc : s.pc i = .unborn) (hpos : 1 ≤ pid)
    (hmax : pid ≤ PID_MAX_LIMIT) (hsteps : Steps s.driver (.fork pid (.inl i)) d []) :
    ({ (s.setDriver d).setPc i .sigaction with pid := Function.update s.pid i pid } :
      System ι κ).Inv (trace ++ []) := by
  have hstage := h.stage i
  rw [hpc] at hstage
  obtain ⟨hidle, hpending, hreceived⟩ := hstage
  refine h.after (i := i) (hsteps.sound h.sound) (fun j hj => ?_)
    (fun _ _ hold => hsteps.entry_step (fun heq => by cases heq) hold) ?_ (by simp) (by simp [hpc])
    (by simp)
  · refine ⟨hsteps.pc_eq fun heq => ?_, Function.update_of_ne hj _ _, Function.update_of_ne hj _ _,
      rfl, rfl⟩
    cases heq
  · have hentry : Alive d pid i := by
      cases hsteps with
      | kernel hop hrcu =>
        cases hop
        obtain ⟨_, rfl⟩ := Table.step_link.mp hrcu
        exact Function.update_self _ _ _
    have hcall := hsteps.pc_eq (j := i) fun heq => by cases heq
    simp only [System.setPc, System.setDriver, Function.update_self, List.append_nil]
    exact ⟨⟨hcall.trans hidle, hpending, hreceived⟩, hentry, hpos, hmax⟩

/-- A run ends, and its pid is free again. -/
theorem System.Inv.exit {status : ℤ} (h : s.Inv trace) (hpc : s.pc i = .exit status)
    (hsteps : Steps s.driver (.exit (s.pid i)) d []) :
    ((s.setDriver d).setPc i .dead).Inv (trace ++ [.exited i status]) := by
  have hstage := h.stage i
  rw [hpc] at hstage
  obtain ⟨hidle, halive, hpending, hreceived⟩ := hstage
  have hcall (j : ι) : d.pc j = s.driver.pc j := hsteps.pc_eq fun heq => by cases heq
  have hdone (j : ι) : received j (trace ++ [.exited i status]) = received j trace := by
    simp [received, AppEvent.receives]
  refine h.after (i := i) (hsteps.sound h.sound) (fun j hj => ?_) (fun j hj hold => ?_) ?_
    (by simp [AppEvent.Own]) (by simp [hpc]) (fun j status' he => ?_)
  · exact ⟨hcall j, Function.update_of_ne hj _ _, rfl, rfl, rfl⟩
  · -- two runs have different pids
    refine hsteps.entry_step (fun heq => hj ?_) hold
    have hsame : some (Sum.inl j) = (some (Sum.inl i) : Option (ι ⊕ κ)) := by
      rw [← hold, ← halive, Label.exit.inj heq]
    exact Sum.inl.inj (Option.some.inj hsame)
  · simp only [System.setPc, System.setDriver, Function.update_self]
    exact ⟨(hcall i).trans hidle, hpending⟩
  · obtain ⟨rfl, rfl⟩ := AppEvent.exited.inj (List.mem_singleton.mp he)
    exact ⟨rfl, Function.update_self _ _ _, (hdone j).trans hreceived⟩

/-- Every step of the system keeps the invariant. -/
theorem System.Inv.step {b : AppLabel ι κ} (h : s.Inv trace) (hstep : s.step b = some (t, es)) :
    t.Inv (trace ++ es) := by
  cases b with
  | deliver i => exact h.deliver hstep
  | fork i pid =>
    simp only [System.step] at hstep
    split_ifs at hstep with hcan
    obtain ⟨d, hsteps, heq⟩ := State.exists_of_map hstep rfl
    obtain ⟨rfl, rfl⟩ := Prod.mk.inj heq
    exact h.fork hcan.1 hcan.2.1 hcan.2.2 hsteps
  | sigaction i =>
    simp only [System.step] at hstep
    split_ifs at hstep with hpc
    obtain ⟨rfl, rfl⟩ := Prod.mk.inj (Option.some.inj hstep)
    have hstage := h.stage i
    rw [hpc] at hstage
    exact h.setPc (by simp [hpc]) hstage
  | openFile i fails =>
    simp only [System.step] at hstep
    split at hstep
    · rename_i hpc
      have hstage := h.stage i
      rw [hpc] at hstage
      obtain ⟨rfl, rfl⟩ := Prod.mk.inj (Option.some.inj hstep)
      cases fails with
      | false => exact h.setPc (by simp [hpc]) hstage
      | true =>
        obtain ⟨⟨hidle, hpending, hreceived⟩, halive, _⟩ := hstage
        exact h.setPc (by simp [hpc]) ⟨hidle, halive, hpending, hreceived⟩
    · cases hstep
  | write i stack before =>
    simp only [System.step] at hstep
    split_ifs at hstep with hpc
    exact h.write hpc hstep
  | advance i sent =>
    simp only [System.step] at hstep
    split_ifs at hstep with hpc
    obtain ⟨⟨d, fs⟩, hd, heq⟩ := Option.map_eq_some_iff.mp hstep
    obtain ⟨rfl, rfl⟩ := Prod.mk.inj heq
    exact h.advance hpc hd
  | finish i =>
    simp only [System.step] at hstep
    split at hstep
    · rename_i ret hpc
      split at hstep
      · rename_i hnone
        obtain ⟨rfl, rfl⟩ := Prod.mk.inj (Option.some.inj hstep)
        have hstage := h.stage i
        rw [hpc] at hstage
        obtain ⟨hidle, halive, hsum⟩ := hstage
        refine h.setPc (by simp [hpc]) ⟨hidle, halive, hnone, ?_⟩
        rw [hnone, zero_add] at hsum
        rw [hsum]
        by_cases hret : ret < 0 <;> simp [hret]
      · cases hstep
    · cases hstep
  | exit i =>
    simp only [System.step] at hstep
    split at hstep
    · rename_i status hpc
      obtain ⟨d, hsteps, heq⟩ := State.exists_of_map hstep rfl
      obtain ⟨rfl, rfl⟩ := Prod.mk.inj heq
      exact h.exit hpc hsteps
    · cases hstep
  | otherFork pid k =>
    obtain ⟨d, hsteps, heq⟩ := State.exists_of_map hstep rfl
    obtain ⟨rfl, rfl⟩ := Prod.mk.inj heq
    exact h.setDriver hsteps rfl fun _ _ heq => by cases heq
  | otherExit pid =>
    simp only [System.step] at hstep
    split at hstep
    · rename_i k hentry
      obtain ⟨d, hsteps, heq⟩ := State.exists_of_map hstep rfl
      obtain ⟨rfl, rfl⟩ := Prod.mk.inj heq
      refine h.setDriver hsteps rfl fun j hold heq => ?_
      rw [Label.exit.inj heq, hold] at hentry
      cases hentry
    · cases hstep
  | free o =>
    obtain ⟨d, hsteps, heq⟩ := State.exists_of_map hstep rfl
    obtain ⟨rfl, rfl⟩ := Prod.mk.inj heq
    exact h.setDriver hsteps rfl fun _ _ heq => by cases heq

/-- **The application is signalled, and only it.** However its runs, the driver and the tasks that
come and go interleave, the driver signals no task but that of the run that called it, and that one
before it is freed; no run is without its handler by then; and a run that has ended received
exactly one signal if it returned 0, and none otherwise. -/
theorem app_signalled {as : List (AppLabel ι κ)}
    (hexec : exec System.step (System.init ι κ) as = some (s, trace)) :
    (∀ e ∈ trace, e.Own) ∧ ∀ i status, .exited i status ∈ trace →
      received i trace = if status = 0 then 1 else 0 := by
  have hrun := run_of_exec (meets_anyLabel as _) hexec
  have hinv := hrun.invariant (I := System.Inv) System.inv_init fun h _ hstep => h.step hstep
  exact ⟨hinv.own, fun i status he => (hinv.exited i status he).2⟩

/-- Two runs, where the pid of the first goes to another task that ends as the second one calls
the driver. -/
theorem app_signalled_run :
    ∃ s trace, exec System.step (System.init Bool Unit)
        [.fork true 7, .sigaction true, .openFile true false, .write true [] [], .fork false 8,
          .advance true 0, .sigaction false, .advance true 0, .advance true 0, .advance true 0,
          .deliver true, .finish true, .exit true, .otherFork 7 (), .openFile false false,
          .free (.inl true), .write false [] [], .advance false 0, .otherExit 7, .advance false 0,
          .advance false 0, .advance false (-11), .finish false, .exit false] = some (s, trace) ∧
      received true trace = 1 ∧ received false trace = 0 := by
  obtain ⟨⟨s, trace⟩, hexec, hboth⟩ := Option.map_eq_some_iff.mp
    (show (exec System.step (System.init Bool Unit)
      [.fork true 7, .sigaction true, .openFile true false, .write true [] [], .fork false 8,
        .advance true 0, .sigaction false, .advance true 0, .advance true 0, .advance true 0,
        .deliver true, .finish true, .exit true, .otherFork 7 (), .openFile false false,
        .free (.inl true), .write false [] [], .advance false 0, .otherExit 7, .advance false 0,
        .advance false 0, .advance false (-11), .finish false, .exit false]).map
          (fun p => decide (.exited true 0 ∈ p.2 ∧ .exited false (-1) ∈ p.2)) = some true by
            decide +kernel)
  obtain ⟨htrue, hfalse⟩ := of_decide_eq_true hboth
  have hsignals := (app_signalled hexec).2
  exact ⟨s, trace, hexec, hsignals true 0 htrue, hsignals false (-1) hfalse⟩

end LinuxDevNote.Signal
