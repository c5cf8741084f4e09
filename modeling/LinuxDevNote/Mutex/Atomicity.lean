import LinuxDevNote.Mutex.Interleaving

/-!
# Atomicity of the calls under the lock

Every interleaving of the steps of `Interleaving` has the effect of the
lock-taking calls run whole, one after another, in the order they acquired
`share_mutex`. The invariant says how far the call under the lock has come: the
iterations a half-done copy loop still has to run lead from the present memory to
the serial one.
-/

namespace LinuxDevNote.Mutex

open Memory Kernel Execution LockOrder

variable {ι : Type*}

/-- The shared data after the lock-taking calls of a trace ran whole, in the order
they acquired the lock. -/
def serial (start : Share) (trace : List (Event ι)) : Share :=
  replay Event.acquired LockedCall.apply start trace

/-- The result of a read is that of an atomic `_read` on the serial memory at the
place where the call acquired the lock. -/
def ReadServed (start : Share) (trace : List (Event ι)) (i : ι) (ret : ℤ)
    (out : List UInt8) : Prop :=
  ∃ before cnt writable loff,
    LastAcquired Event.acquired trace i before (.read cnt writable loff) ∧
      loff.toNat < memSize ∧
      ret = (read (serial start before).mem cnt writable loff).ret ∧
      out = (read (serial start before).mem cnt writable loff).out

/-- Every completed read of the trace was served from the serial memory. -/
def ReadsServed (start : Share) (trace : List (Event ι)) : Prop :=
  ∀ pre post i ret out, trace = pre ++ .readReturned i ret out :: post →
    ReadServed start pre i ret out

/-- The locals of a call before the lock agree with the position of its file. -/
def Frame.Computed {Buffer : Type} (fr : Frame Buffer) (loff : BitVec 64) : Prop :=
  fr.p = loff.toNat ∧ loff.toNat < memSize ∧ fr.count = clampCount loff.toNat fr.cnt

/-- What is known about a client from the statement it is at, the present memory
and the trace. -/
def ClientOk (start : Share) (mem : Mem) (trace : List (Event ι)) (i : ι) (c : Client) : Prop :=
  match c.pc with
  | .idle | .writeReturn _ => True
  | .readLock fr => fr.Computed c.loff
  | .writeLock fr => fr.Computed c.loff
  | .readCopy fr => fr.Computed c.loff ∧ mem = (serial start trace).mem ∧
      ∃ before, LastAcquired Event.acquired trace i before (.read fr.cnt fr.buff c.loff) ∧
        mem = (serial start before).mem
  | .readUnlock ret out => mem = (serial start trace).mem ∧ ReadServed start trace i ret out
  | .readReturn ret out => ReadServed start trace i ret out
  | .writeBranch fr =>
      (writeLoop fr.buff fr.p fr.count 0 ⟨mem, 0, []⟩).mem = (serial start trace).mem
  | .writeLoop fr _ k ret => k ≤ fr.count ∧
      (writeLoop fr.buff fr.p (fr.count - k) k ⟨mem, ret, []⟩).mem = (serial start trace).mem
  | .writeUnlock _ => mem = (serial start trace).mem

/-- The invariant of all interleavings. -/
structure Inv (start : Share) (s : State ι) (trace : List (Event ι)) : Prop where
  /-- The lock is held exactly by the client between `mutex_lock` and `mutex_unlock`. -/
  holder : ∀ i, s.lock = some i ↔ (s.clients i).pc.inSection = true
  /-- With the lock free the memory is the serial one. -/
  free : s.lock = none → s.share.mem = (serial start trace).mem
  /-- Every client is where its call should be. -/
  client : ∀ i, ClientOk start s.share.mem trace i (s.clients i)
  /-- The completed reads were served. -/
  reads : ReadsServed start trace

/-- Events that are not acquisitions leave the serial execution as it is. -/
theorem serial_append_of_none {start : Share} {trace es : List (Event ι)}
    (h : ∀ e ∈ es, e.acquired = none) : serial start (trace ++ es) = serial start trace :=
  replay_append_of_none h

/-- An acquisition applies its whole call to the serial data. -/
theorem serial_append_locked (start : Share) (trace : List (Event ι)) (i : ι) (op : LockedCall) :
    serial start (trace ++ [.locked i op]) = op.apply (serial start trace) :=
  replay_append_acquired (i := i) rfl

/-- A served read stays served while its client acquires nothing. -/
theorem ReadServed.append {start : Share} {trace es : List (Event ι)} {i : ι} {ret : ℤ}
    {out : List UInt8} (h : ReadServed start trace i ret out)
    (hes : ∀ e ∈ es, ∀ op, e.acquired ≠ some (i, op)) :
    ReadServed start (trace ++ es) i ret out := by
  obtain ⟨before, cnt, writable, loff, hlast, hrest⟩ := h
  exact ⟨before, cnt, writable, loff, hlast.append hes, hrest⟩

/-- Recording further events keeps the earlier reads served; a recorded return of
a read must be served itself. -/
theorem ReadsServed.append {start : Share} {trace es : List (Event ι)}
    (h : ReadsServed start trace)
    (hes : es = [] ∨ ∃ e, es = [e] ∧ ∀ i ret out, e = .readReturned i ret out →
      ReadServed start trace i ret out) : ReadsServed start (trace ++ es) := by
  rcases hes with rfl | ⟨e, rfl, he⟩
  · rwa [List.append_nil]
  · have hjustified : Justified (fun pre e => ∀ i ret out, e = .readReturned i ret out →
        ReadServed start pre i ret out) trace := by
      rintro pre e post heq i ret out rfl
      exact h pre post i ret out heq
    intro pre post i ret out heq
    exact hjustified.append_singleton he pre _ post heq i ret out rfl

/-- A client outside the section is not affected by the steps of others. -/
theorem ClientOk.frame_outside {start : Share} {mem mem' : Mem} {trace es : List (Event ι)} {i : ι}
    {c : Client} (h : ClientOk start mem trace i c) (hout : c.pc.inSection = false)
    (hes : ∀ e ∈ es, ∀ op, e.acquired ≠ some (i, op)) : ClientOk start mem' (trace ++ es) i c := by
  obtain ⟨loff, pc⟩ := c
  cases pc with
  | idle => trivial
  | writeReturn fr => trivial
  | readLock fr => exact h
  | writeLock fr => exact h
  | readReturn ret out => exact ReadServed.append h hes
  | readCopy fr => simp [Pc.inSection] at hout
  | readUnlock ret out => simp [Pc.inSection] at hout
  | writeBranch fr => simp [Pc.inSection] at hout
  | writeLoop fr thread0 k ret => simp [Pc.inSection] at hout
  | writeUnlock fr => simp [Pc.inSection] at hout

/-- A client is not affected by steps that keep the memory and acquire nothing. -/
theorem ClientOk.frame_same {start : Share} {mem : Mem} {trace es : List (Event ι)} {i : ι}
    {c : Client} (h : ClientOk start mem trace i c) (hes : ∀ e ∈ es, e.acquired = none) :
    ClientOk start mem (trace ++ es) i c := by
  have hnot : ∀ e ∈ es, ∀ op, e.acquired ≠ some (i, op) := fun e he op heq => by
    rw [hes e he] at heq
    cases heq
  obtain ⟨loff, pc⟩ := c
  unfold ClientOk at h ⊢
  rw [serial_append_of_none hes]
  cases pc with
  | readCopy fr =>
    obtain ⟨hcomp, hmem, before, hlast, hbefore⟩ := h
    exact ⟨hcomp, hmem, before, hlast.append hnot, hbefore⟩
  | readUnlock ret out => exact ⟨h.1, h.2.append hnot⟩
  | readReturn ret out => exact ReadServed.append h hnot
  | _ => exact h

variable [DecidableEq ι]

/-- The invariant holds after a step of client `i` when it holds for `i` itself and
the step respects the lock: it changes the memory only when `i` holds the lock and
acquires only when nobody does. -/
theorem Inv.step_of {start : Share} {s t : State ι} {trace es : List (Event ι)} {i : ι}
    (h : Inv start s trace) (hothers : ∀ j, j ≠ i → t.clients j = s.clients j)
    (hlock : ∀ j, j ≠ i → (t.lock = some j ↔ s.lock = some j))
    (hself : t.lock = some i ↔ (t.clients i).pc.inSection = true)
    (hmem : t.share.mem = s.share.mem ∨ s.lock = some i)
    (hacq : (∀ e ∈ es, e.acquired = none) ∨
      (s.lock = none ∧ ∀ e ∈ es, ∀ j op, e.acquired = some (j, op) → j = i))
    (hfree : t.lock = none → t.share.mem = (serial start (trace ++ es)).mem)
    (hclient : ClientOk start t.share.mem (trace ++ es) i (t.clients i))
    (hreads : es = [] ∨ ∃ e, es = [e] ∧ ∀ i ret out, e = .readReturned i ret out →
      ReadServed start trace i ret out) : Inv start t (trace ++ es) := by
  refine ⟨?_, hfree, ?_, h.reads.append hreads⟩
  · intro j
    by_cases hj : j = i
    · rw [hj]
      exact hself
    · rw [hlock j hj, h.holder j, hothers j hj]
  · intro j
    by_cases hj : j = i
    · rw [hj]
      exact hclient
    · rw [hothers j hj]
      have hnot : ∀ e ∈ es, ∀ op, e.acquired ≠ some (j, op) := by
        intro e he op heq
        rcases hacq with hnone | ⟨_, honly⟩
        · rw [hnone e he] at heq
          cases heq
        · exact hj (honly e he j op heq)
      by_cases hin : (s.clients j).pc.inSection = true
      · -- `j` holds the lock, so this step of `i` kept the memory and acquired nothing
        have hheld := (h.holder j).mpr hin
        have hsame : t.share.mem = s.share.mem := by
          rcases hmem with hsame | hi
          · exact hsame
          · rw [hheld] at hi
            exact absurd (Option.some.inj hi) hj
        have hnone : ∀ e ∈ es, e.acquired = none := by
          rcases hacq with hnone | ⟨hnoLock, _⟩
          · exact hnone
          · rw [hheld] at hnoLock
            cases hnoLock
        rw [hsame]
        exact (h.client j).frame_same hnone
      · exact (h.client j).frame_outside (by simpa using hin) hnot

/-- A step outside the section that keeps the lock and the memory keeps the
invariant when it does for the client that takes it. -/
theorem Inv.quiet {start : Share} {s t : State ι} {trace es : List (Event ι)} {i : ι}
    (h : Inv start s trace) (hothers : ∀ j, j ≠ i → t.clients j = s.clients j)
    (hlock : t.lock = s.lock) (hmem : t.share.mem = s.share.mem)
    (hout : (s.clients i).pc.inSection = false) (hout' : (t.clients i).pc.inSection = false)
    (hes : ∀ e ∈ es, e.acquired = none)
    (hclient : ClientOk start t.share.mem (trace ++ es) i (t.clients i))
    (hreads : es = [] ∨ ∃ e, es = [e] ∧ ∀ i ret out, e = .readReturned i ret out →
      ReadServed start trace i ret out) : Inv start t (trace ++ es) := by
  apply h.step_of hothers (fun j _ => by rw [hlock]) _ (Or.inl hmem) (Or.inl hes) _ hclient hreads
  · rw [hlock, h.holder i, hout, hout']
  · intro hnone
    rw [hmem, serial_append_of_none hes]
    exact h.free (by rw [← hlock]; exact hnone)

/-- A call that ends outside the section leaves its client idle. -/
theorem Inv.finish {start : Share} {s : State ι} {trace : List (Event ι)} {i : ι} {e : Event ι}
    {loff : BitVec 64} (h : Inv start s trace) (hout : (s.clients i).pc.inSection = false)
    (he : e.acquired = none)
    (hread : ∀ j ret out, e = .readReturned j ret out → ReadServed start trace j ret out) :
    Inv start (s.setClient i ⟨loff, .idle⟩) (trace ++ [e]) := by
  apply h.quiet (i := i) (fun j hj => State.setClient_other _ _ hj) rfl rfl hout
  · simp [Pc.inSection]
  · simpa using he
  · simp [ClientOk]
  · exact Or.inr ⟨e, rfl, hread⟩

/-- A call that is over at once changes no more than the number of writes. -/
theorem Inv.refuse {start : Share} {s t : State ι} {trace : List (Event ι)} {i : ι} {ret : ℤ}
    (h : Inv start s trace) (hidle : (s.clients i).pc = .idle) (hclients : t.clients = s.clients)
    (hlock : t.lock = s.lock) (hmem : t.share.mem = s.share.mem) :
    Inv start t (trace ++ [.returned i ret]) := by
  have hout : (s.clients i).pc.inSection = false := by rw [hidle]; rfl
  refine h.quiet (i := i) (fun j _ => congrFun hclients j) hlock hmem hout ?_ ?_ ?_ ?_
  · rw [hclients, hout]
  · simp [Event.acquired]
  · rw [hclients, ClientOk, hidle]
    trivial
  · exact Or.inr ⟨_, rfl, by simp⟩

/-- The part of a call before the lock keeps the invariant. -/
theorem Inv.begin {start : Share} {s : State ι} {trace : List (Event ι)} {i : ι}
    (h : Inv start s trace) (hidle : (s.clients i).pc = .idle) (c : Call) :
    Inv start (s.begin i c).1 (trace ++ (s.begin i c).2) := by
  have hout : (s.clients i).pc.inSection = false := by rw [hidle]; rfl
  cases c with
  | llseek offset whence => exact h.finish hout rfl (by simp)
  | read cnt writable =>
    unfold State.begin
    dsimp only
    split
    · exact h.refuse hidle rfl rfl rfl
    · rename_i hp
      apply h.quiet (i := i) (fun j hj => State.setClient_other _ _ hj) rfl rfl hout
      · simp [Pc.inSection]
      · simp
      · simp only [State.setClient_self, ClientOk]
        exact ⟨rfl, not_le.mp hp, rfl⟩
      · exact Or.inl rfl
  | write cnt buff =>
    unfold State.begin
    dsimp only
    split
    · exact h.refuse hidle rfl rfl rfl
    · rename_i hp
      refine h.quiet (i := i) (fun j hj => Function.update_of_ne hj _ _) rfl rfl hout ?_ ?_ ?_ ?_
      · simp [State.setPc, Pc.inSection]
      · simp
      · simp only [State.setPc, State.setClient_self, ClientOk]
        exact ⟨rfl, not_le.mp hp, rfl⟩
      · exact Or.inl rfl

/-- Taking the lock keeps the invariant when the client's knowledge holds at the
first statement of the section. -/
theorem Inv.acquire {start : Share} {s : State ι} {trace : List (Event ι)} {i : ι} {pc : Pc}
    {op : LockedCall} (h : Inv start s trace) (hfree : s.lock = none)
    (hin : pc.inSection = true)
    (hclient : ClientOk start s.share.mem (trace ++ [.locked i op]) i ⟨(s.clients i).loff, pc⟩) :
    Inv start ({ s with lock := some i }.setPc i pc) (trace ++ [.locked i op]) := by
  refine h.step_of (i := i) (fun j hj => Function.update_of_ne hj _ _) ?_ ?_ ?_ ?_ ?_ ?_ ?_
  · intro j hj
    simp [State.setPc, hfree, Ne.symm hj]
  · simp [State.setPc, hin]
  · exact Or.inl rfl
  · exact Or.inr ⟨hfree, fun e he j op' heq => by
      obtain rfl := List.mem_singleton.mp he
      simp only [Event.acquired, Option.some.injEq, Prod.mk.injEq] at heq
      exact heq.1.symm⟩
  · simp [State.setPc]
  · simpa [State.setPc] using hclient
  · exact Or.inr ⟨_, rfl, by simp⟩

/-- A silent step under the lock keeps the invariant when it does for the holder. -/
theorem Inv.inside {start : Share} {s : State ι} {trace : List (Event ι)} {i : ι} {c : Client}
    (mem : Mem) (h : Inv start s trace) (hin : (s.clients i).pc.inSection = true)
    (hin' : c.pc.inSection = true) (hclient : ClientOk start mem trace i c) :
    Inv start ({ s with share := { s.share with mem := mem } }.setClient i c) (trace ++ []) := by
  have hheld := (h.holder i).mpr hin
  refine h.step_of (i := i) (fun j hj => Function.update_of_ne hj _ _) (fun _ _ => Iff.rfl)
    ?_ ?_ ?_ ?_ ?_ ?_
  · simp [hheld, hin']
  · exact Or.inr hheld
  · exact Or.inl (by simp)
  · simp [hheld]
  · simpa using hclient
  · exact Or.inl rfl

/-- Releasing the lock keeps the invariant when the memory is the serial one. -/
theorem Inv.release {start : Share} {s : State ι} {trace : List (Event ι)} {i : ι} {pc : Pc}
    (h : Inv start s trace) (hin : (s.clients i).pc.inSection = true)
    (hout : pc.inSection = false) (hmem : s.share.mem = (serial start trace).mem)
    (hclient : ClientOk start s.share.mem (trace ++ [.unlocked i]) i ⟨(s.clients i).loff, pc⟩) :
    Inv start ({ s with lock := none }.setPc i pc) (trace ++ [.unlocked i]) := by
  have hheld := (h.holder i).mpr hin
  have hnone : ∀ e ∈ ([.unlocked i] : List (Event ι)), e.acquired = none := by
    simp [Event.acquired]
  refine h.step_of (i := i) (fun j hj => Function.update_of_ne hj _ _) ?_ ?_ ?_ ?_ ?_ ?_ ?_
  · intro j hj
    simp [State.setPc, hheld, Ne.symm hj]
  · simp [State.setPc, hout]
  · exact Or.inl rfl
  · exact Or.inl hnone
  · intro _
    rw [serial_append_of_none hnone]
    exact hmem
  · simpa [State.setPc] using hclient
  · exact Or.inr ⟨_, rfl, by simp⟩

/-- One iteration of the copy loop brings the memory one iteration closer to the
serial one. -/
theorem writeLoop_advance {buff : ℕ → Option UInt8} {p count k : ℕ} {mem : Mem} {ret : ℤ}
    (hk : k < count) :
    (writeLoop buff p (count - (k + 1)) (k + 1)
        ⟨(writeByte buff p k ⟨mem, ret, []⟩).mem,
          (writeByte buff p k ⟨mem, ret, []⟩).ret, []⟩).mem =
      (writeLoop buff p (count - k) k ⟨mem, ret, []⟩).mem := by
  have hsucc : count - k = count - (k + 1) + 1 := by omega
  rw [hsucc, writeLoop]
  exact writeLoop_mem_congr _ _ _ _ rfl

omit [DecidableEq ι] in
/-- Under the lock, the whole `_write` still to run leads to the serial memory. -/
theorem serial_append_write {start : Share} {trace : List (Event ι)} {i : ι} {cnt : BitVec 64}
    {buff : ℕ → Option UInt8} {loff : BitVec 64} (h : loff.toNat < memSize) :
    (serial start (trace ++ [.locked i (.write cnt buff loff)])).mem =
      (writeLoop buff loff.toNat (clampCount loff.toNat cnt) 0
        ⟨(serial start trace).mem, 0, []⟩).mem := by
  rw [serial_append_locked, LockedCall.apply, write_of_lt h]

/-- The next statement of a running call keeps the invariant. -/
theorem Inv.advance {start : Share} {s t : State ι} {trace es : List (Event ι)} {i : ι}
    (h : Inv start s trace) (hstep : s.advance i = some (t, es)) : Inv start t (trace ++ es) := by
  have hi := h.client i
  unfold ClientOk at hi
  unfold State.advance at hstep
  cases hpc : (s.clients i).pc with
  | idle => simp [hpc] at hstep
  | readLock fr =>
    simp only [hpc, Option.isNone_iff_eq_none, Option.ite_none_right_eq_some, Option.some.injEq,
      Prod.mk.injEq] at hi hstep
    obtain ⟨hfree, rfl, rfl⟩ := hstep
    apply h.acquire hfree rfl
    have hserial : (serial start (trace ++ [.locked i (.read fr.cnt fr.buff
        (s.clients i).loff)])).mem = (serial start trace).mem := by
      rw [serial_append_locked, LockedCall.apply]
    exact ⟨hi, by rw [hserial]; exact h.free hfree, trace, lastAcquired_append rfl, h.free hfree⟩
  | readCopy fr =>
    simp only [hpc, Option.some.injEq, Prod.mk.injEq] at hi hstep
    obtain ⟨rfl, rfl⟩ := hstep
    obtain ⟨⟨hp, hlt, hcount⟩, hmem, before, hlast, hbefore⟩ := hi
    apply h.inside s.share.mem (by rw [hpc]; rfl) rfl
    refine ⟨hmem, before, fr.cnt, fr.buff, (s.clients i).loff, hlast, hlt, ?_, ?_⟩
    · simp only [read, if_neg (not_le.mpr hlt), ← hbefore, hp, hcount]
    · simp only [read, if_neg (not_le.mpr hlt), ← hbefore, hp, hcount]
  | readUnlock ret out =>
    simp only [hpc, Option.some.injEq, Prod.mk.injEq] at hi hstep
    obtain ⟨rfl, rfl⟩ := hstep
    apply h.release (by rw [hpc]; rfl) rfl hi.1
    exact ReadServed.append hi.2 (by simp [Event.acquired])
  | readReturn ret out =>
    simp only [hpc, Option.some.injEq, Prod.mk.injEq] at hi hstep
    obtain ⟨rfl, rfl⟩ := hstep
    refine h.finish (by rw [hpc]; rfl) rfl ?_
    intro i' ret' out' heq
    obtain ⟨rfl, rfl, rfl⟩ := Event.readReturned.inj heq
    exact hi
  | writeLock fr =>
    simp only [hpc, Option.isNone_iff_eq_none, Option.ite_none_right_eq_some, Option.some.injEq,
      Prod.mk.injEq] at hi hstep
    obtain ⟨hfree, rfl, rfl⟩ := hstep
    obtain ⟨hp, hlt, hcount⟩ := hi
    apply h.acquire hfree rfl
    simp only [ClientOk]
    rw [serial_append_write hlt, hp, hcount, h.free hfree]
  | writeBranch fr =>
    simp only [hpc, Option.some.injEq, Prod.mk.injEq] at hi hstep
    obtain ⟨rfl, rfl⟩ := hstep
    apply h.inside s.share.mem (by rw [hpc]; rfl) rfl
    exact ⟨Nat.zero_le _, hi⟩
  | writeLoop fr thread0 k ret =>
    simp only [hpc] at hi hstep
    obtain ⟨hle, hrest⟩ := hi
    by_cases hk : k < fr.count
    · simp only [if_pos hk, Option.some.injEq, Prod.mk.injEq] at hstep
      obtain ⟨rfl, rfl⟩ := hstep
      apply h.inside _ (by rw [hpc]; rfl) rfl
      exact ⟨hk, (writeLoop_advance hk).trans hrest⟩
    · simp only [if_neg hk, Option.some.injEq, Prod.mk.injEq] at hstep
      obtain ⟨rfl, rfl⟩ := hstep
      have hdone : fr.count - k = 0 := by omega
      rw [hdone] at hrest
      apply h.inside s.share.mem (by rw [hpc]; rfl) rfl
      exact hrest
  | writeUnlock fr =>
    simp only [hpc, Option.some.injEq, Prod.mk.injEq] at hi hstep
    obtain ⟨rfl, rfl⟩ := hstep
    exact h.release (by rw [hpc]; rfl) rfl hi trivial
  | writeReturn fr =>
    simp only [hpc, Option.some.injEq, Prod.mk.injEq] at hi hstep
    obtain ⟨rfl, rfl⟩ := hstep
    exact h.finish (by rw [hpc]; rfl) rfl (by simp)

/-- The invariant holds after every interleaving. -/
theorem inv_of_run {start : Share} {loff : ι → BitVec 64} {s : State ι} {trace : List (Event ι)}
    (hrun : Run State.step anyLabel (State.init start loff) s trace) : Inv start s trace := by
  refine hrun.invariant ?_ ?_
  · refine ⟨?_, fun _ => rfl, fun _ => trivial, ?_⟩
    · simp [State.init, Pc.inSection]
    · intro pre post i ret out heq
      simp at heq
  · intro s t a trace es h _ hstep
    cases a with
    | advance i => exact h.advance hstep
    | call i c =>
      simp only [State.step] at hstep
      split at hstep
      · rename_i hidle
        obtain heq := Option.some.inj hstep
        have hbegin := h.begin hidle c
        rwa [heq] at hbegin
      · cases hstep

end LinuxDevNote.Mutex
