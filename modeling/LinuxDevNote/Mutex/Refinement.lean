import LinuxDevNote.Mutex.Atomicity
import LinuxDevNote.Mutex.Programs

/-!
# The driver seems atomic

Every step of the driver is a whole call of the atomic driver or is not seen at all, and every
call of the atomic driver can be carried out in the steps of the driver. So clients that run
programs cannot tell the two apart.
-/

namespace LinuxDevNote.Mutex

open Memory Kernel Execution

variable {ι : Type*} [DecidableEq ι] {s t : System ι} {a b : Atomic ι} {i : ι}
  {es : List (Event ι)}

/-- Outside the section a client does not depend on the memory. -/
theorem Stands.outside {mem mem' seeming seeming' : Mem} {pc : Pc} {own seen : View}
    (h : Stands mem seeming pc own seen) (hout : pc.inSection = false) :
    Stands mem' seeming' pc own seen := by
  cases h with
  | idle => exact .idle _
  | readLock hp => exact .readLock hp
  | readReturn => exact .readReturn
  | writeLock hp => exact .writeLock hp
  | writeReturn => exact .writeReturn
  | readCopy | readUnlock | writeBranch | writeLoop | writeUnlock => simp [Pc.inSection] at hout

/-- A client in a call takes its next statement. -/
theorem System.step_of_running (h : (s.driver.clients i).pc ≠ .idle) :
    s.step i = (s.driver.advance i).map (s.after i (s.todo i)) := by
  unfold System.step
  cases hpc : (s.driver.clients i).pc with
  | idle => exact absurd hpc h
  | _ => rfl

/-- An idle client issues its next call. -/
theorem System.step_of_idle {c : Call} {cs : List Call} (hidle : (s.driver.clients i).pc = .idle)
    (htodo : s.todo i = c :: cs) : s.step i = some (s.after i cs (s.driver.begin i c)) := by
  simp only [System.step, State.step, hidle, htodo, Option.map_some]

/-- A step issues a call or is a statement of one. -/
theorem System.step_cases (h : s.step i = some (t, es)) :
    (∃ c cs, (s.driver.clients i).pc = .idle ∧ s.todo i = c :: cs ∧
      s.after i cs (s.driver.begin i c) = (t, es)) ∨
    ∃ p, (s.driver.clients i).pc ≠ .idle ∧ s.driver.advance i = some p ∧
      s.after i (s.todo i) p = (t, es) := by
  by_cases hidle : (s.driver.clients i).pc = .idle
  · cases htodo : s.todo i with
    | nil =>
      simp only [System.step, hidle, htodo] at h
      cases h
    | cons c cs =>
      rw [System.step_of_idle hidle htodo] at h
      exact Or.inl ⟨c, cs, hidle, rfl, Option.some.inj h⟩
  · rw [System.step_of_running hidle] at h
    obtain ⟨p, hp, hafter⟩ := Option.map_eq_some_iff.mp h
    exact Or.inr ⟨p, hidle, hp, hafter⟩

/-- After a step of client `i` the driver seems to be what it should when it does so for `i`,
and the step respects the lock. -/
theorem Seems.after {share : Share} {lock : Option ι} {c : Client} {todo : List Call}
    (h : Seems s a) (hlock : ∀ j, j ≠ i → (lock = some j ↔ s.driver.lock = some j))
    (hself : lock = some i ↔ c.pc.inSection = true)
    (hmem : (share.mem = s.driver.share.mem ∧ b.mem = a.mem) ∨
      ∀ j, j ≠ i → s.driver.lock ≠ some j)
    (hfree : lock = none → share.mem = b.mem) (hothers : ∀ j, j ≠ i → b.clients j = a.clients j)
    (hclient : Stands share.mem b.mem c.pc
      ⟨c.loff, todo, s.got i ++ es.filterMap Event.result⟩ (b.clients i)) :
    Seems (s.after i todo (⟨share, lock, Function.update s.driver.clients i c⟩, es)).1 b where
  holder j := by
    dsimp only [System.after]
    by_cases hj : j = i
    · rw [hj, Function.update_self]
      exact hself
    · rw [Function.update_of_ne hj, hlock j hj, h.holder j]
  free := hfree
  client j := by
    by_cases hj : j = i
    · simpa [hj, System.view, System.after] using hclient
    · have hj' := h.client j
      simp only [System.view, System.after, Function.update_of_ne hj] at hj' ⊢
      rw [hothers j hj]
      by_cases hin : (s.driver.clients j).pc.inSection = true
      · -- `j` holds the lock, so the step kept both memories
        obtain ⟨hsame, hsame'⟩ := hmem.resolve_right fun hno => hno j hj ((h.holder j).mpr hin)
        rwa [hsame, hsame']
      · exact hj'.outside (by simpa using hin)

/-- A step that is not seen. -/
theorem Seems.silent {share : Share} {lock : Option ι} {c : Client} {todo : List Call}
    (h : Seems s a) (hlock : ∀ j, j ≠ i → (lock = some j ↔ s.driver.lock = some j))
    (hself : lock = some i ↔ c.pc.inSection = true)
    (hmem : share.mem = s.driver.share.mem ∨ ∀ j, j ≠ i → s.driver.lock ≠ some j)
    (hfree : lock = none → share.mem = a.mem)
    (hclient : Stands share.mem a.mem c.pc
      ⟨c.loff, todo, s.got i ++ es.filterMap Event.result⟩ (a.clients i)) :
    Seems (s.after i todo (⟨share, lock, Function.update s.driver.clients i c⟩, es)).1 a :=
  h.after hlock hself (hmem.imp_left fun hsame => ⟨hsame, rfl⟩) hfree (fun _ _ => rfl) hclient

/-- A step that makes a call seem done. -/
theorem Seems.commit {share : Share} {lock : Option ι} {c : Client} {todo : List Call} {call : Call}
    {cs : List Call} (h : Seems s a) (hnext : (a.clients i).todo = call :: cs)
    (hlock : ∀ j, j ≠ i → (lock = some j ↔ s.driver.lock = some j))
    (hself : lock = some i ↔ c.pc.inSection = true)
    (hmem : (share.mem = s.driver.share.mem ∧
        (call.whole a.mem (a.clients i).loff).mem = a.mem) ∨
      ∀ j, j ≠ i → s.driver.lock ≠ some j)
    (hfree : lock = none → share.mem = (call.whole a.mem (a.clients i).loff).mem)
    (hclient : Stands share.mem (call.whole a.mem (a.clients i).loff).mem c.pc
      ⟨c.loff, todo, s.got i ++ es.filterMap Event.result⟩
      ⟨(call.whole a.mem (a.clients i).loff).loff, cs,
        (a.clients i).got ++ [(call.whole a.mem (a.clients i).loff).result]⟩) :
    ∃ b fs, a.step i = some (b, fs) ∧
      Seems (s.after i todo (⟨share, lock, Function.update s.driver.clients i c⟩, es)).1 b := by
  refine ⟨_, _, by rw [Atomic.step, hnext], h.after hlock hself hmem hfree
    (fun j hj => Function.update_of_ne hj _ _) ?_⟩
  dsimp only
  rw [Function.update_self]
  exact hclient

omit [DecidableEq ι] in
/-- An idle client seems to have done what it has done. -/
theorem Seems.view_of_idle (h : Seems s a) (hidle : (s.driver.clients i).pc = .idle) :
    a.clients i = s.view i := by
  have hclient := h.client i
  rw [hidle] at hclient
  generalize s.view i = own at hclient ⊢
  generalize a.clients i = seen at hclient ⊢
  cases hclient
  rfl

/-- A call that takes no lock is over at once, and seems so. -/
theorem Seems.refuse {loff : BitVec 64} {ret : ℤ} {call : Call} {cs : List Call} (h : Seems s a)
    (share : Share) (hidle : (s.driver.clients i).pc = .idle) (htodo : s.todo i = call :: cs)
    (hshare : share.mem = s.driver.share.mem)
    (hwhole : call.whole a.mem (s.driver.clients i).loff = ⟨a.mem, loff, (ret, [])⟩) :
    ∃ b fs, a.step i = some (b, fs) ∧
      Seems (s.after i cs (⟨share, s.driver.lock,
        Function.update s.driver.clients i ⟨loff, .idle⟩⟩, [.returned i ret])).1 b := by
  have hsame := h.view_of_idle hidle
  have hloff : (a.clients i).loff = (s.driver.clients i).loff := by rw [hsame]; rfl
  rw [← hloff] at hwhole
  have hout : ¬ s.driver.lock = some i := by
    rw [h.holder, hidle]
    simp [Pc.inSection]
  refine h.commit (by rw [hsame]; exact htodo) (fun _ _ => Iff.rfl)
    (iff_of_false hout (by simp [Pc.inSection])) (Or.inl ⟨hshare, by rw [hwhole]⟩) ?_ ?_
  · intro hfree
    rw [hwhole, hshare]
    exact h.free hfree
  · rw [hwhole, hsame]
    exact .idle _

/-- A read at or past the end. -/
theorem whole_read_of_ge {mem : Mem} {loff cnt : BitVec 64} {writable : ℕ → Bool}
    (h : memSize ≤ loff.toNat) :
    (Call.read cnt writable).whole mem loff = ⟨mem, loff, (0, [])⟩ := by
  rw [Call.whole, read_of_ge h]

/-- A write at or past the end. -/
theorem whole_write_of_ge {mem : Mem} {loff cnt : BitVec 64} {buff : ℕ → Option UInt8}
    (h : memSize ≤ loff.toNat) : (Call.write cnt buff).whole mem loff = ⟨mem, loff, (0, [])⟩ := by
  rw [Call.whole, write_of_ge h]
  rfl

/-- A write before the end. -/
theorem whole_write_of_lt {mem : Mem} {loff cnt : BitVec 64} {buff : ℕ → Option UInt8}
    (h : loff.toNat < memSize) : (Call.write cnt buff).whole mem loff =
      ⟨(writeLoop buff loff.toNat (clampCount loff.toNat cnt) 0 ⟨mem, 0, []⟩).mem,
        loff + BitVec.ofNat 64 (clampCount loff.toNat cnt),
        ((clampCount loff.toNat cnt : ℕ), [])⟩ := by
  rw [Call.whole, write_of_lt h]

/-- An idle client that stays where it is. -/
theorem update_of_idle (hidle : (s.driver.clients i).pc = .idle) :
    Function.update s.driver.clients i ⟨(s.driver.clients i).loff, .idle⟩ = s.driver.clients := by
  rw [← hidle]
  exact Function.update_eq_self _ _

/-- The start of a call is not seen, or it is the whole call. -/
theorem Seems.begin {call : Call} {cs : List Call} (h : Seems s a)
    (hidle : (s.driver.clients i).pc = .idle) (htodo : s.todo i = call :: cs) :
    Seems (s.after i cs (s.driver.begin i call)).1 a ∨
      ∃ b fs, a.step i = some (b, fs) ∧ Seems (s.after i cs (s.driver.begin i call)).1 b := by
  have hsame := h.view_of_idle hidle
  have hout : ¬ s.driver.lock = some i := by
    rw [h.holder, hidle]
    simp [Pc.inSection]
  cases call with
  | llseek offset whence => exact Or.inr (h.refuse _ hidle htodo rfl rfl)
  | read cnt writable =>
    unfold State.begin
    dsimp only
    split
    · rename_i hp
      have hrefuse := h.refuse s.driver.share hidle htodo rfl (whole_read_of_ge hp)
      rw [update_of_idle hidle] at hrefuse
      exact Or.inr hrefuse
    · rename_i hp
      refine Or.inl (h.silent (fun _ _ => Iff.rfl) (iff_of_false hout (by simp [Pc.inSection]))
        (Or.inl rfl) h.free ?_)
      rw [hsame, System.view, htodo, List.filterMap_nil, List.append_nil]
      exact .readLock (not_le.mp hp)
  | write cnt buff =>
    unfold State.begin
    dsimp only
    split
    · rename_i hp
      have hrefuse := h.refuse s.driver.share.countWrite hidle htodo rfl
        (whole_write_of_ge hp)
      rw [update_of_idle hidle] at hrefuse
      exact Or.inr hrefuse
    · rename_i hp
      refine Or.inl (h.silent (fun _ _ => Iff.rfl) (iff_of_false hout (by simp [Pc.inSection]))
        (Or.inl rfl) h.free ?_)
      rw [hsame, System.view, htodo, List.filterMap_nil, List.append_nil]
      exact .writeLock (not_le.mp hp)

/-- Taking the lock makes a call seem done. -/
theorem Seems.acquire {pc : Pc} {call : Call} {cs : List Call} (h : Seems s a)
    (hfree : s.driver.lock = none) (hin : pc.inSection = true)
    (hnext : (a.clients i).todo = call :: cs) (hes : es.filterMap Event.result = [])
    (hclient : Stands s.driver.share.mem (call.whole a.mem (a.clients i).loff).mem pc (s.view i)
      ⟨(call.whole a.mem (a.clients i).loff).loff, cs,
        (a.clients i).got ++ [(call.whole a.mem (a.clients i).loff).result]⟩) :
    ∃ b fs, a.step i = some (b, fs) ∧
      Seems (s.after i (s.todo i) ({ s.driver with lock := some i }.setPc i pc, es)).1 b := by
  refine h.commit hnext (fun j hj => ?_) (by simp [hin]) (Or.inr fun j _ => ?_) (by simp) ?_
  · simp [hfree, Ne.symm hj]
  · simp [hfree]
  · rw [hes, List.append_nil]
    exact hclient

/-- A statement under the lock is not seen. -/
theorem Seems.inside {c : Client} (mem : Mem) (h : Seems s a)
    (hin : (s.driver.clients i).pc.inSection = true) (hin' : c.pc.inSection = true)
    (hclient : Stands mem a.mem c.pc ⟨c.loff, s.todo i, s.got i⟩ (a.clients i)) :
    Seems (s.after i (s.todo i)
      ({ s.driver with share := { s.driver.share with mem := mem } }.setClient i c, [])).1 a := by
  have hheld := (h.holder i).mpr hin
  refine h.silent (fun _ _ => Iff.rfl) (iff_of_true hheld hin') (Or.inr fun j hj => ?_) ?_ ?_
  · rw [hheld]
    exact fun heq => hj (Option.some.inj heq).symm
  · simp [hheld]
  · rw [List.filterMap_nil, List.append_nil]
    exact hclient

/-- Giving the lock back is not seen. -/
theorem Seems.release {pc : Pc} (h : Seems s a) (hin : (s.driver.clients i).pc.inSection = true)
    (hout : pc.inSection = false) (hmem : s.driver.share.mem = a.mem)
    (hclient : Stands s.driver.share.mem a.mem pc (s.view i) (a.clients i)) :
    Seems (s.after i (s.todo i)
      ({ s.driver with lock := none }.setPc i pc, [.unlocked i])).1 a := by
  have hheld := (h.holder i).mpr hin
  refine h.silent (fun j hj => ?_) (by simp [hout]) (Or.inl rfl) (fun _ => hmem) ?_
  · simp [hheld, Ne.symm hj]
  · rw [show [Event.unlocked i].filterMap Event.result = [] from rfl, List.append_nil]
    exact hclient

/-- The return of a call is not seen. -/
theorem Seems.leave {loff : BitVec 64} (h : Seems s a)
    (hout : (s.driver.clients i).pc.inSection = false)
    (hclient : a.clients i = ⟨loff, s.todo i, s.got i ++ es.filterMap Event.result⟩) :
    Seems (s.after i (s.todo i) (s.driver.setClient i ⟨loff, .idle⟩, es)).1 a := by
  refine h.silent (fun _ _ => Iff.rfl) (iff_of_false ?_ (by simp [Pc.inSection])) (Or.inl rfl)
    h.free ?_
  · rw [h.holder, hout]
    simp
  · rw [hclient]
    exact .idle _

/-- A statement of a running call is not seen, or it makes the call seem done. -/
theorem Seems.advance {p : State ι × List (Event ι)} (h : Seems s a)
    (hstep : s.driver.advance i = some p) :
    Seems (s.after i (s.todo i) p).1 a ∨
      ∃ b fs, a.step i = some (b, fs) ∧ Seems (s.after i (s.todo i) p).1 b := by
  have hclient := h.client i
  generalize hown : s.view i = own at hclient
  generalize hseen : a.clients i = seen at hclient
  generalize hpc : (s.driver.clients i).pc = pc at hclient
  rw [State.advance, hpc] at hstep
  cases hclient with
  | idle => cases hstep
  | @readLock loff cnt writable todo got hp =>
    obtain ⟨rfl, rfl, rfl⟩ := View.mk.inj hown
    simp only [Option.isNone_iff_eq_none, Option.ite_none_right_eq_some, Option.some.injEq] at hstep
    obtain ⟨hfree, rfl⟩ := hstep
    refine Or.inr (h.acquire hfree rfl (by rw [hseen]) rfl ?_)
    rw [hseen, System.view, ← h.free hfree]
    exact .readCopy hp rfl
  | @readCopy loff cnt writable todo got hp hmem =>
    obtain ⟨rfl, rfl, rfl⟩ := View.mk.inj hown
    obtain rfl := Option.some.inj hstep
    refine Or.inl (h.inside s.driver.share.mem (by rw [hpc]; rfl) rfl ?_)
    rw [hseen]
    simp only [read, if_neg (not_le.mpr hp)]
    exact .readUnlock hmem
  | readUnlock hmem =>
    obtain rfl := Option.some.inj hstep
    refine Or.inl (h.release (by rw [hpc]; rfl) rfl hmem ?_)
    rw [hown, hseen]
    exact .readReturn
  | readReturn =>
    obtain ⟨rfl, rfl, rfl⟩ := View.mk.inj hown
    obtain rfl := Option.some.inj hstep
    exact Or.inl (h.leave (by rw [hpc]; rfl) hseen)
  | @writeLock loff cnt buff todo got hp =>
    obtain ⟨rfl, rfl, rfl⟩ := View.mk.inj hown
    simp only [Option.isNone_iff_eq_none, Option.ite_none_right_eq_some, Option.some.injEq] at hstep
    obtain ⟨hfree, rfl⟩ := hstep
    refine Or.inr (h.acquire hfree rfl (by rw [hseen]) rfl ?_)
    rw [hseen, System.view, ← h.free hfree, whole_write_of_lt hp]
    exact .writeBranch rfl
  | writeBranch hmem =>
    obtain ⟨rfl, rfl, rfl⟩ := View.mk.inj hown
    obtain rfl := Option.some.inj hstep
    refine Or.inl (h.inside s.driver.share.mem (by rw [hpc]; rfl) rfl ?_)
    rw [hseen]
    exact .writeLoop (Nat.zero_le _) hmem
  | @writeLoop fr thread0 k ret loff todo got hk hmem =>
    obtain ⟨rfl, rfl, rfl⟩ := View.mk.inj hown
    dsimp only at hstep
    split at hstep
    · rename_i hlt
      obtain rfl := Option.some.inj hstep
      refine Or.inl (h.inside _ (by rw [hpc]; rfl) rfl ?_)
      rw [hseen]
      exact .writeLoop hlt ((writeLoop_advance hlt).trans hmem)
    · rename_i hge
      obtain rfl := Option.some.inj hstep
      refine Or.inl (h.inside s.driver.share.mem (by rw [hpc]; rfl) rfl ?_)
      rw [Nat.sub_eq_zero_of_le (not_lt.mp hge)] at hmem
      rw [hseen]
      exact .writeUnlock hmem
  | writeUnlock hmem =>
    obtain rfl := Option.some.inj hstep
    refine Or.inl (h.release (by rw [hpc]; rfl) rfl hmem ?_)
    rw [hown, hseen]
    exact .writeReturn
  | writeReturn =>
    obtain ⟨rfl, rfl, rfl⟩ := View.mk.inj hown
    obtain rfl := Option.some.inj hstep
    exact Or.inl (h.leave (by rw [hpc]; rfl) hseen)

/-- **Refinement.** A step of a client is a whole call of the atomic driver, or is not seen. -/
theorem Seems.step (h : Seems s a) (hstep : s.step i = some (t, es)) :
    Seems t a ∨ ∃ b fs, a.step i = some (b, fs) ∧ Seems t b := by
  rcases System.step_cases hstep with ⟨c, cs, hidle, htodo, hafter⟩ | ⟨p, _, hp, hafter⟩
  · obtain ⟨rfl, _⟩ := Prod.mk.inj hafter
    exact h.begin hidle htodo
  · obtain ⟨rfl, _⟩ := Prod.mk.inj hafter
    exact h.advance hp

omit [DecidableEq ι] in
/-- Before any call the driver seems to be what it is. -/
theorem seems_init (share : Share) (loff : ι → BitVec 64) (programs : ι → List Call) :
    Seems (System.init share loff programs) (Atomic.init share.mem loff programs) where
  holder i := by simp [System.init, State.init, Pc.inSection]
  free _ := rfl
  client _ := .idle _

/-- Each statement of a call brings it one closer to its end, and concerns no other client. -/
theorem advance_remaining {s t : State ι} (hstep : s.advance i = some (t, es)) :
    (t.clients i).pc.remaining + 1 = (s.clients i).pc.remaining ∧
      ∀ j, j ≠ i → t.clients j = s.clients j ∧ (t.lock = some j → s.lock = some j) := by
  have hothers : ∀ (c : Client) (j : ι), j ≠ i → Function.update s.clients i c j = s.clients j :=
    fun c j hj => Function.update_of_ne hj _ _
  unfold State.advance at hstep
  cases hpc : (s.clients i).pc with
  | idle => simp [hpc] at hstep
  | readLock fr | writeLock fr =>
    simp only [hpc, Option.ite_none_right_eq_some, Option.some.injEq, Prod.mk.injEq] at hstep
    obtain ⟨_, rfl, _⟩ := hstep
    refine ⟨by simp [State.setPc, Pc.remaining], fun j hj => ⟨hothers _ j hj, fun heq => ?_⟩⟩
    exact absurd (Option.some.inj heq).symm hj
  | readUnlock ret out | writeUnlock fr =>
    simp only [hpc, Option.some.injEq, Prod.mk.injEq] at hstep
    obtain ⟨rfl, _⟩ := hstep
    refine ⟨by simp [State.setPc, Pc.remaining], fun j hj => ⟨hothers _ j hj, fun heq => ?_⟩⟩
    cases heq
  | writeLoop fr thread0 k ret =>
    simp only [hpc] at hstep
    split at hstep
    · rename_i hk
      obtain ⟨rfl, rfl⟩ := Prod.mk.inj (Option.some.inj hstep)
      refine ⟨?_, fun j hj => ⟨hothers _ j hj, id⟩⟩
      simp only [State.setPc, State.setClient_self, Pc.remaining]
      omega
    · rename_i hk
      obtain ⟨rfl, rfl⟩ := Prod.mk.inj (Option.some.inj hstep)
      refine ⟨?_, fun j hj => ⟨hothers _ j hj, id⟩⟩
      simp only [State.setPc, State.setClient_self, Pc.remaining]
      omega
  | readCopy fr | readReturn ret out | writeBranch fr | writeReturn fr =>
    simp only [hpc, Option.some.injEq, Prod.mk.injEq] at hstep
    obtain ⟨rfl, _⟩ := hstep
    exact ⟨by simp [State.setPc, Pc.remaining], fun j hj => ⟨hothers _ j hj, id⟩⟩

/-- A call can go on when the lock is free or its own. -/
theorem exists_advance {s : State ι} (hpc : (s.clients i).pc ≠ .idle)
    (hlock : s.lock = none ∨ (s.clients i).pc.inSection = true) :
    ∃ p : State ι × List (Event ι), s.advance i = some p := by
  unfold State.advance
  cases hi : (s.clients i).pc with
  | idle => exact absurd hi hpc
  | readLock fr | writeLock fr =>
    rw [hi] at hlock
    rw [hlock.resolve_right (by simp [Pc.inSection])]
    exact ⟨_, rfl⟩
  | writeLoop fr thread0 k ret =>
    dsimp only
    split <;> exact ⟨_, rfl⟩
  | _ => exact ⟨_, rfl⟩

/-- A client in a call keeps its program, and brings the call closer to its end. -/
theorem System.step_running (hidle : (s.driver.clients i).pc ≠ .idle)
    (hstep : s.step i = some (t, es)) :
    t.todo = s.todo ∧
      (t.driver.clients i).pc.remaining + 1 = (s.driver.clients i).pc.remaining ∧
      ∀ j, j ≠ i → t.driver.clients j = s.driver.clients j := by
  rcases System.step_cases hstep with ⟨_, _, hpc, _⟩ | ⟨p, _, hp, hafter⟩
  · exact absurd hpc hidle
  obtain ⟨rfl, _⟩ := Prod.mk.inj hafter
  obtain ⟨hremaining, hothers⟩ := advance_remaining hp
  exact ⟨Function.update_eq_self _ _, hremaining, fun j hj => (hothers j hj).1⟩

/-- Nobody but one client is in a call. -/
def System.Alone (s : System ι) (i : ι) : Prop :=
  ∀ j, j ≠ i → (s.driver.clients j).pc = .idle

omit [DecidableEq ι] in
/-- A client alone does not wait for the lock. -/
theorem Seems.lock_of_alone (h : Seems s a) (halone : s.Alone i) :
    s.driver.lock = none ∨ (s.driver.clients i).pc.inSection = true := by
  cases hlock : s.driver.lock with
  | none => exact Or.inl rfl
  | some j =>
    have hin := (h.holder j).mp hlock
    by_cases hj : j = i
    · exact Or.inr (hj ▸ hin)
    · rw [halone j hj] at hin
      simp [Pc.inSection] at hin

/-- A client alone in a call brings it to its end, and meanwhile seems to make some calls. -/
theorem Seems.comeToIdle (h : Seems s a) (halone : s.Alone i) :
    ∃ n t es m b fs, exec System.step s (List.replicate n i) = some (t, es) ∧
      exec Atomic.step a (List.replicate m i) = some (b, fs) ∧ Seems t b ∧
      (∀ j, (t.driver.clients j).pc = .idle) ∧ t.todo = s.todo := by
  induction hn : (s.driver.clients i).pc.remaining generalizing s a with
  | zero =>
    have hidle : (s.driver.clients i).pc = .idle := by
      cases hpc : (s.driver.clients i).pc <;> simp [hpc, Pc.remaining] at hn
      rfl
    refine ⟨0, s, [], 0, a, [], rfl, rfl, h, fun j => ?_, rfl⟩
    by_cases hj : j = i
    · rw [hj, hidle]
    · exact halone j hj
  | succ n ih =>
    have hidle : (s.driver.clients i).pc ≠ .idle := by
      intro hpc
      rw [hpc] at hn
      cases hn
    obtain ⟨p, hp⟩ := exists_advance hidle (h.lock_of_alone halone)
    obtain ⟨⟨u, es⟩, hu⟩ : ∃ q, s.step i = some q :=
      ⟨_, by rw [System.step_of_running hidle, hp]; rfl⟩
    obtain ⟨htodo, hremaining, hothers⟩ := System.step_running hidle hu
    have hualone : u.Alone i := fun j hj => by rw [hothers j hj, halone j hj]
    rcases h.step hu with hseems | ⟨b, fs, hb, hseems⟩
    · obtain ⟨k, t, es', m, c, gs, ht, hc, hseems', hall, hsame⟩ := ih hseems hualone (by omega)
      exact ⟨k + 1, t, es ++ es', m, c, gs, exec_cons_eq_some.mpr ⟨u, es, es', hu, ht, rfl⟩, hc,
        hseems', hall, hsame.trans htodo⟩
    · obtain ⟨k, t, es', m, c, gs, ht, hc, hseems', hall, hsame⟩ := ih hseems hualone (by omega)
      exact ⟨k + 1, t, es ++ es', m + 1, c, fs ++ gs,
        exec_cons_eq_some.mpr ⟨u, es, es', hu, ht, rfl⟩,
        exec_cons_eq_some.mpr ⟨b, fs, gs, hb, hc, rfl⟩, hseems', hall, hsame.trans htodo⟩

/-- Each step of the atomic driver is one call of the client's program. -/
theorem Atomic.todo_of_exec {m : ℕ} {fs : List (ι × Result)}
    (hexec : exec Atomic.step a (List.replicate m i) = some (b, fs)) :
    (b.clients i).todo.length + m = (a.clients i).todo.length := by
  induction m generalizing a fs with
  | zero =>
    obtain ⟨rfl, _⟩ := Prod.mk.inj (Option.some.inj hexec)
    rfl
  | succ m ih =>
    obtain ⟨c, gs, rest, hstep, hrest, rfl⟩ := exec_cons_eq_some.mp hexec
    have hlength := ih hrest
    unfold Atomic.step at hstep
    cases htodo : (a.clients i).todo with
    | nil => simp [htodo] at hstep
    | cons call cs =>
      rw [htodo] at hstep
      obtain ⟨rfl, _⟩ := Prod.mk.inj (Option.some.inj hstep)
      simp only [Function.update_self] at hlength
      rw [List.length_cons]
      omega

/-- The start of a call concerns no other client. -/
theorem begin_others (s : State ι) (call : Call) {j : ι} (hj : j ≠ i) :
    (s.begin i call).1.clients j = s.clients j := by
  cases call with
  | llseek offset whence => exact Function.update_of_ne hj _ _
  | read cnt writable | write cnt buff =>
    unfold State.begin
    dsimp only
    split
    · rfl
    · exact Function.update_of_ne hj _ _

/-- A client alone goes through its next call, and meanwhile seems to make some calls. -/
theorem Seems.goThrough {call : Call} {cs : List Call} (h : Seems s a)
    (hidle : ∀ j, (s.driver.clients j).pc = .idle) (htodo : s.todo i = call :: cs) :
    ∃ n t es m b fs, exec System.step s (List.replicate n i) = some (t, es) ∧
      exec Atomic.step a (List.replicate m i) = some (b, fs) ∧ Seems t b ∧
      (∀ j, (t.driver.clients j).pc = .idle) ∧ t.todo i = cs := by
  obtain ⟨u, es, hu⟩ : ∃ u es, s.after i cs (s.driver.begin i call) = (u, es) := ⟨_, _, rfl⟩
  have hbegin : s.step i = some (u, es) := by rw [System.step_of_idle (hidle i) htodo, hu]
  obtain ⟨hafter, _⟩ := Prod.mk.inj hu
  have hucs : u.todo i = cs := by
    rw [← hafter]
    exact Function.update_self _ _ _
  have halone : u.Alone i := by
    intro j hj
    rw [← hafter]
    exact (congrArg Client.pc (begin_others s.driver call hj)).trans (hidle j)
  rcases h.step hbegin with hseems | ⟨b, fs, hb, hseems⟩
  · obtain ⟨n, t, es', m, c, gs, ht, hc, hseems', hall, hsame⟩ := hseems.comeToIdle halone
    exact ⟨n + 1, t, es ++ es', m, c, gs, exec_cons_eq_some.mpr ⟨u, es, es', hbegin, ht, rfl⟩, hc,
      hseems', hall, (congrFun hsame i).trans hucs⟩
  · obtain ⟨n, t, es', m, c, gs, ht, hc, hseems', hall, hsame⟩ := hseems.comeToIdle halone
    exact ⟨n + 1, t, es ++ es', m + 1, c, fs ++ gs,
      exec_cons_eq_some.mpr ⟨u, es, es', hbegin, ht, rfl⟩,
      exec_cons_eq_some.mpr ⟨b, fs, gs, hb, hc, rfl⟩, hseems', hall,
      (congrFun hsame i).trans hucs⟩

/-- **Completeness.** A call of the atomic driver can be carried out in the steps of the driver
when no other call is going on. -/
theorem Seems.carryOut {fs : List (ι × Result)} (h : Seems s a)
    (hidle : ∀ j, (s.driver.clients j).pc = .idle) (hstep : a.step i = some (b, fs)) :
    ∃ n t es, exec System.step s (List.replicate n i) = some (t, es) ∧ Seems t b ∧
      ∀ j, (t.driver.clients j).pc = .idle := by
  have hsame := h.view_of_idle (hidle i)
  have hprogram : (a.clients i).todo = s.todo i := by rw [hsame]; rfl
  cases htodo : s.todo i with
  | nil =>
    simp only [Atomic.step, hprogram, htodo] at hstep
    cases hstep
  | cons call cs =>
    obtain ⟨n, t, es, m, c, gs, ht, hc, hseems, hall, hcs⟩ := h.goThrough hidle htodo
    -- the calls it seems to make are as many as have left its program, which is one
    have hcount := Atomic.todo_of_exec hc
    rw [hprogram, htodo, hseems.view_of_idle (hall i), List.length_cons,
      show (t.view i).todo = cs from hcs] at hcount
    obtain rfl : m = 1 := by omega
    obtain ⟨b', fs', rest, hstep', hrest, _⟩ := exec_cons_eq_some.mp hc
    obtain ⟨rfl, _⟩ := Prod.mk.inj (Option.some.inj hrest)
    obtain ⟨rfl, _⟩ := Prod.mk.inj (Option.some.inj (hstep'.symm.trans hstep))
    exact ⟨n, t, es, ht, hseems, hall⟩

/-- The driver simulates forwards. -/
theorem simulates_atomic : Simulates (@System.step ι _) Atomic.step Seems := by
  intro s a i t es h hstep
  rcases h.step hstep with hseems | ⟨b, fs, hb, hseems⟩
  · exact ⟨[], a, [], rfl, hseems⟩
  · exact ⟨[i], b, fs, exec_singleton hb, hseems⟩

/-- The atomic driver is simulated when nobody is in a call between its steps. -/
theorem atomic_simulates : Simulates (@Atomic.step ι _) System.step fun a s =>
    Seems s a ∧ ∀ j, (s.driver.clients j).pc = .idle := by
  rintro a s i b fs ⟨h, hidle⟩ hstep
  obtain ⟨n, t, es, ht, hseems, hall⟩ := h.carryOut hidle hstep
  exact ⟨_, t, es, ht, hseems, hall⟩

omit [DecidableEq ι] in
/-- With nobody in a call the memory is the one it seems to be. -/
theorem Seems.mem_of_idle (h : Seems s a) (hidle : ∀ j, (s.driver.clients j).pc = .idle) :
    s.driver.share.mem = a.mem := by
  refine h.free (Option.eq_none_iff_forall_not_mem.mpr fun j hj => ?_)
  have hin := (h.holder j).mp hj
  rw [hidle j] at hin
  simp [Pc.inSection] at hin

omit [DecidableEq ι] in
/-- With nobody in a call the outcomes are the same. -/
theorem Seems.outcome_of_idle (h : Seems s a) (hidle : ∀ j, (s.driver.clients j).pc = .idle) :
    (⟨s.driver.share.mem, fun i => (s.driver.clients i).loff, s.got⟩ : Outcome ι) =
      ⟨a.mem, fun i => (a.clients i).loff, fun i => (a.clients i).got⟩ := by
  rw [h.mem_of_idle hidle]
  simp only [h.view_of_idle (hidle _)]
  rfl

/-- Every outcome is one of the atomic driver. -/
theorem atomicallyReaches_of_reaches {share : Share} {loff : ι → BitVec 64}
    {programs : ι → List Call} {o : Outcome ι} (h : Reaches share loff programs o) :
    AtomicallyReaches share.mem loff programs o := by
  obtain ⟨is, s, es, hexec, hover, rfl⟩ := h
  obtain ⟨js, a, fs, ha, hseems⟩ := simulates_atomic.run (seems_init share loff programs) hexec
  refine ⟨js, a, fs, ha, fun i => ?_, hseems.outcome_of_idle fun i => (hover i).1⟩
  rw [hseems.view_of_idle (hover i).1]
  exact (hover i).2

/-- Every outcome of the atomic driver is one of the driver. -/
theorem reaches_of_atomicallyReaches {share : Share} {loff : ι → BitVec 64}
    {programs : ι → List Call} {o : Outcome ι}
    (h : AtomicallyReaches share.mem loff programs o) : Reaches share loff programs o := by
  obtain ⟨js, a, fs, ha, hover, rfl⟩ := h
  obtain ⟨is, s, es, hexec, hseems, hidle⟩ :=
    atomic_simulates.run ⟨seems_init share loff programs, fun _ => rfl⟩ ha
  refine ⟨is, s, es, hexec, fun i => ⟨hidle i, ?_⟩, (hseems.outcome_of_idle hidle).symm⟩
  have hsame := congrArg View.todo (hseems.view_of_idle (hidle i))
  rw [hover i] at hsame
  exact hsame.symm

/-- **The driver is its atomic self.** Clients that run any programs reach exactly the outcomes
(memory, positions and all results) of the driver in which every call is one step. -/
theorem reaches_iff_atomically (share : Share) (loff : ι → BitVec 64) (programs : ι → List Call)
    (o : Outcome ι) :
    Reaches share loff programs o ↔ AtomicallyReaches share.mem loff programs o :=
  ⟨atomicallyReaches_of_reaches, reaches_of_atomicallyReaches⟩

end LinuxDevNote.Mutex
