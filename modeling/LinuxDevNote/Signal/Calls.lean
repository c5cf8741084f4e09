import LinuxDevNote.Library.Execution
import LinuxDevNote.Library.ReadCopyUpdate
import LinuxDevNote.Signal.Driver

/-!
# Calls of the signal driver among tasks that come and go

Any number of callers are in `write_pid`, each at one of its statements from
`rcu_read_lock` on, and between any two of their steps the kernel may start, end or free a
task, and give a pid to another one. The read section and the life of a task are those of
a read-copy-update table.
-/

namespace LinuxDevNote.Signal

open Execution ReadCopyUpdate

/-- The arguments of a call: its count, and the pid that was parsed. -/
structure Call where
  /-- `count`. -/
  count : ℕ
  /-- `pid`. -/
  pid : ℤ

/-- The statement of `write_pid` a caller executes next, with the locals it needs. -/
inductive Pc (Task : Type*)
  | idle
  | lock (c : Call)
  | find (c : Call)
  | unlock (c : Call) (t : Option Task)
  | send (c : Call) (t : Task)

/-- The callers, and the kernel's table of tasks by pid. -/
structure State (ι Task : Type*) where
  /-- Where each caller is. -/
  pc : ι → Pc Task
  /-- The tasks. -/
  rcu : Table ι ℤ Task

/-- Nobody is in a call, and there are no tasks. -/
def State.init (ι Task : Type*) : State ι Task := ⟨fun _ => .idle, Table.init ι ℤ Task⟩

/-- A scheduling decision: a call begins, a caller takes a step (`sent` is the result of
`send_sig_info`, where that is the step), or the kernel starts, ends or frees a task. -/
inductive Label (ι Task : Type*)
  | write (i : ι) (count : ℕ) (pid : ℤ)
  | advance (i : ι) (sent : ℤ)
  | fork (pid : ℤ) (t : Task)
  | exit (pid : ℤ)
  | free (t : Task)

/-- What can be observed: a count refused with `-EINVAL`, the ends of the read section, the
use of a task and whether it was freed, and a return. -/
inductive Event (ι Task : Type*)
  | refused (i : ι)
  | locked (i : ι)
  | unlocked (i : ι)
  | sent (i : ι) (t : Task) (freed : Bool)
  | returned (i : ι) (ret : ℤ)

variable {ι Task : Type*} [DecidableEq ι] [DecidableEq Task]

/-- A step on the table of tasks that takes a caller to its next statement. -/
def State.onTable (s : State ι Task) (op : Op ι ℤ Task) (pc : ι → Pc Task)
    (es : List (Event ι Task)) : Option (State ι Task × List (Event ι Task)) :=
  (s.rcu.step op).map fun rcu => (⟨pc, rcu⟩, es)

/-- One statement of `write_pid` by the caller `i`. -/
def State.advance (s : State ι Task) (i : ι) (sent : ℤ) :
    Option (State ι Task × List (Event ι Task)) :=
  match s.pc i with
  | .idle => none
  | .lock c => s.onTable (.enter i) (Function.update s.pc i (.find c)) [.locked i]
  | .find c => some (⟨Function.update s.pc i (.unlock c (s.rcu.entry c.pid)), s.rcu⟩, [])
  | .unlock _ none =>
    s.onTable (.leave i) (Function.update s.pc i .idle) [.unlocked i, .returned i (-ENODEV)]
  | .unlock c (some t) =>
    s.onTable (.leave i) (Function.update s.pc i (.send c t)) [.unlocked i]
  | .send c t =>
    some (⟨Function.update s.pc i .idle, s.rcu⟩,
      [.sent i t (decide (s.rcu.stage t = .freed)),
        .returned i (if sent < 0 then sent else c.count)])

/-- A call begins; its count is checked before anything else. -/
def State.write (s : State ι Task) (i : ι) (count : ℕ) (pid : ℤ) :
    Option (State ι Task × List (Event ι Task)) :=
  match s.pc i with
  | .idle =>
    if mybufSize < count then some (s, [.refused i])
    else some (⟨Function.update s.pc i (.lock ⟨count, pid⟩), s.rcu⟩, [])
  | _ => none

/-- One step of the callers or of the kernel. -/
def State.step (s : State ι Task) : Label ι Task → Option (State ι Task × List (Event ι Task))
  | .write i count pid => s.write i count pid
  | .advance i sent => s.advance i sent
  | .fork pid t => s.onTable (.link pid t) s.pc []
  | .exit pid => s.onTable (.unlink pid) s.pc []
  | .free t => s.onTable (.reclaim t) s.pc []

/-- The caller that takes a step. -/
def Label.caller : Label ι Task → Option ι
  | .write i _ _ => some i
  | .advance i _ => some i
  | _ => none

/-- What the kernel does to the table. -/
def Label.update : Label ι Task → Option (Op ι ℤ Task)
  | .fork pid t => some (.link pid t)
  | .exit pid => some (.unlink pid)
  | .free t => some (.reclaim t)
  | _ => none

/-- The caller is between `rcu_read_lock` and `rcu_read_unlock`. -/
def Pc.inSection : Pc Task → Bool
  | .find _ | .unlock _ _ => true
  | _ => false

/-- The task that a caller is about to signal, outside of the section. -/
def Pc.target : Pc Task → Option Task
  | .send _ t => some t
  | _ => none

/-- The ways a step can go. -/
inductive Steps (s : State ι Task) :
    Label ι Task → State ι Task → List (Event ι Task) → Prop
  | refuse {i : ι} {count : ℕ} {pid : ℤ} : s.pc i = .idle → mybufSize < count →
      Steps s (.write i count pid) s [.refused i]
  | start {i : ι} {count : ℕ} {pid : ℤ} : s.pc i = .idle → count ≤ mybufSize →
      Steps s (.write i count pid) ⟨Function.update s.pc i (.lock ⟨count, pid⟩), s.rcu⟩ []
  | lock {i : ι} {sent : ℤ} {c : Call} {rcu : Table ι ℤ Task} : s.pc i = .lock c →
      s.rcu.step (.enter i) = some rcu →
      Steps s (.advance i sent) ⟨Function.update s.pc i (.find c), rcu⟩ [.locked i]
  | find {i : ι} {sent : ℤ} {c : Call} : s.pc i = .find c →
      Steps s (.advance i sent)
        ⟨Function.update s.pc i (.unlock c (s.rcu.entry c.pid)), s.rcu⟩ []
  | unlockMissing {i : ι} {sent : ℤ} {c : Call} {rcu : Table ι ℤ Task} :
      s.pc i = .unlock c none → s.rcu.step (.leave i) = some rcu →
      Steps s (.advance i sent) ⟨Function.update s.pc i .idle, rcu⟩
        [.unlocked i, .returned i (-ENODEV)]
  | unlockFound {i : ι} {sent : ℤ} {c : Call} {t : Task} {rcu : Table ι ℤ Task} :
      s.pc i = .unlock c (some t) → s.rcu.step (.leave i) = some rcu →
      Steps s (.advance i sent) ⟨Function.update s.pc i (.send c t), rcu⟩ [.unlocked i]
  | send {i : ι} {sent : ℤ} {c : Call} {t : Task} : s.pc i = .send c t →
      Steps s (.advance i sent) ⟨Function.update s.pc i .idle, s.rcu⟩
        [.sent i t (decide (s.rcu.stage t = .freed)),
          .returned i (if sent < 0 then sent else c.count)]
  | kernel {a : Label ι Task} {op : Op ι ℤ Task} {rcu : Table ι ℤ Task} : a.update = some op →
      s.rcu.step op = some rcu → Steps s a ⟨s.pc, rcu⟩ []

variable {s t : State ι Task} {a : Label ι Task} {es trace : List (Event ι Task)}

/-- A step on the table. -/
theorem State.onTable_eq_some {op : Op ι ℤ Task} {pc : ι → Pc Task} {fs : List (Event ι Task)} :
    s.onTable op pc fs = some (t, es) ↔
      ∃ rcu, s.rcu.step op = some rcu ∧ t = ⟨pc, rcu⟩ ∧ es = fs := by
  simp only [onTable, Option.map_eq_some_iff, Prod.mk.injEq]
  exact exists_congr fun _ => and_congr_right fun _ => and_congr eq_comm eq_comm

/-- Every step goes in one of these ways. -/
theorem State.steps (h : s.step a = some (t, es)) : Steps s a t es := by
  cases a with
  | write i count pid =>
    simp only [step, write] at h
    split at h
    · rename_i hidle
      split at h
      · rename_i hcount
        obtain ⟨rfl, rfl⟩ := Prod.mk.inj (Option.some.inj h)
        exact .refuse hidle hcount
      · rename_i hcount
        obtain ⟨rfl, rfl⟩ := Prod.mk.inj (Option.some.inj h)
        exact .start hidle (not_lt.mp hcount)
    · cases h
  | advance i sent =>
    simp only [step, advance] at h
    split at h
    · cases h
    · rename_i c hpc
      obtain ⟨rcu, hrcu, rfl, rfl⟩ := State.onTable_eq_some.mp h
      exact .lock hpc hrcu
    · rename_i c hpc
      obtain ⟨rfl, rfl⟩ := Prod.mk.inj (Option.some.inj h)
      exact .find hpc
    · rename_i c hpc
      obtain ⟨rcu, hrcu, rfl, rfl⟩ := State.onTable_eq_some.mp h
      exact .unlockMissing hpc hrcu
    · rename_i c t hpc
      obtain ⟨rcu, hrcu, rfl, rfl⟩ := State.onTable_eq_some.mp h
      exact .unlockFound hpc hrcu
    · rename_i c t hpc
      obtain ⟨rfl, rfl⟩ := Prod.mk.inj (Option.some.inj h)
      exact .send hpc
  | fork pid t =>
    obtain ⟨rcu, hrcu, rfl, rfl⟩ := State.onTable_eq_some.mp h
    exact .kernel rfl hrcu
  | exit pid =>
    obtain ⟨rcu, hrcu, rfl, rfl⟩ := State.onTable_eq_some.mp h
    exact .kernel rfl hrcu
  | free t =>
    obtain ⟨rcu, hrcu, rfl, rfl⟩ := State.onTable_eq_some.mp h
    exact .kernel rfl hrcu

end LinuxDevNote.Signal
