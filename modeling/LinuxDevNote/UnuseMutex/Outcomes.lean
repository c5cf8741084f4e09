import Mathlib.Data.Fintype.Basic
import LinuxDevNote.Library.Simulation
import LinuxDevNote.UnuseMutex.Driver

/-!
# What calls can do to each other without the mutex

The driver runs as the threads of `Library/Accesses` do, between statements that nobody
else sees. So the calls are atomic byte by byte and in no other way: what a run leaves in
`sh->mem` and hands to the readers is what some order of the calls gives at each byte, and
every choice of these orders, byte by byte, is that of a run.
-/

namespace LinuxDevNote.UnuseMutex

open Memory Kernel Mutex Execution Accesses

/-- Consecutive indices ascend. -/
theorem pairwise_indices (p : ℤ) (n : ℕ) : (indices p n).Pairwise (· < ·) := by
  rw [indices, List.pairwise_map]
  exact List.pairwise_lt_range.imp fun h => by omega

/-- Where a call stands, what it has still to access, and what it has found. -/
inductive Matches (loff : BitVec 64) : Call → Pc → List ℤ → List UInt8 → Prop
  | start (call : Call) : Matches loff call .start (call.thread loff).cells []
  | copying {cnt : BitVec 64} {writable : ℕ → Bool} {k : ℕ} {found : List UInt8} :
      loff.toNat < memSize → k ≤ (Call.read cnt writable).length loff →
      Matches loff (.read cnt writable)
        (.readCopy ⟨cnt, writable, loff.toNat, clampCount loff.toNat cnt⟩ k found)
        (indices (loff.toNat + k) ((Call.read cnt writable).length loff - k)) found
  | branching {cnt : BitVec 64} {buff : ℕ → Option UInt8} {found : List UInt8} :
      loff.toNat < memSize →
      Matches loff (.write cnt buff)
        (.writeBranch ⟨cnt, buff, loff.toNat, clampCount loff.toNat cnt⟩)
        (indices loff.toNat (clampCount loff.toNat cnt)) found
  | looping {cnt : BitVec 64} {buff : ℕ → Option UInt8} {thread0 : Bool} {k : ℕ} {ret : ℤ}
      {found : List UInt8} : loff.toNat < memSize → k ≤ clampCount loff.toNat cnt →
      Matches loff (.write cnt buff)
        (.writeLoop ⟨cnt, buff, loff.toNat, clampCount loff.toNat cnt⟩ thread0 k ret)
        (indices (loff.toNat + k) (clampCount loff.toNat cnt - k)) found
  | done {call : Call} {found : List UInt8} :
      Matches loff call (.done (call.ret loff) (call.delivered found)) [] found

variable {ι : Type*} [DecidableEq ι] {calls : ι → Call} {loff : ι → BitVec 64}

/-- The calls as threads. -/
def threads (calls : ι → Call) (loff : ι → BitVec 64) (i : ι) : Thread ℤ UInt8 :=
  (calls i).thread (loff i)

/-- The driver and the threads stand at the same accesses. -/
structure Sim (calls : ι → Call) (loff : ι → BitVec 64) (s : State ι)
    (l : Accesses.State ι ℤ UInt8) : Prop where
  /-- The memory. -/
  mem : l.mem = s.share.mem
  /-- A call that has not started has its position still. -/
  position : ∀ i, s.pc i = .start → s.loff i = loff i
  /-- The calls. -/
  call : ∀ i, Matches (loff i) (calls i) (s.pc i) (l.rest i) (l.found i)

/-- The statements a call has still to execute at least, without those that access
`sh->mem`. -/
def Pc.silent : Pc → ℕ
  | .start => 3
  | .writeBranch _ => 2
  | .readCopy _ _ _ | .writeLoop _ _ _ _ => 1
  | .done _ _ => 0

variable {s t : State ι} {l : Accesses.State ι ℤ UInt8} {i : ι} {es : List (ι × ℤ)}

/-- A statement of a call that accesses nothing. -/
theorem Sim.quiet {pc : Pc} (h : Sim calls loff s l) (hmem : t.share.mem = s.share.mem)
    (hpc : t.pc = Function.update s.pc i pc) (hloff : ∀ j, j ≠ i → t.loff j = s.loff j)
    (hstart : pc ≠ .start) (hcall : Matches (loff i) (calls i) pc (l.rest i) (l.found i)) :
    Sim calls loff t l := by
  refine ⟨h.mem.trans hmem.symm, fun j hj => ?_, fun j => ?_⟩
  · by_cases hji : j = i
    · subst hji
      rw [hpc, Function.update_self] at hj
      exact absurd hj hstart
    · rw [hpc, Function.update_of_ne hji] at hj
      rw [hloff j hji]
      exact h.position j hj
  · by_cases hji : j = i
    · subst hji
      rw [hpc, Function.update_self]
      exact hcall
    · rw [hpc, Function.update_of_ne hji]
      exact h.call j

/-- A statement of a call that accesses a byte. -/
theorem Sim.access {pc : Pc} {c : ℤ} {cs : List ℤ} (h : Sim calls loff s l)
    (hrest : l.rest i = c :: cs)
    (hmem : t.share.mem = Function.update s.share.mem c
      ((((calls i).thread (loff i)).stores c).getD (s.share.mem c)))
    (hpc : t.pc = Function.update s.pc i pc) (hloff : t.loff = s.loff) (hstart : pc ≠ .start)
    (hcall : Matches (loff i) (calls i) pc cs (l.found i ++ [s.share.mem c])) :
    ∃ l', l.step (threads calls loff) i = some (l', [(i, c)]) ∧ Sim calls loff t l' := by
  refine ⟨_, State.step_of_cons hrest, ?_, fun j hj => ?_, fun j => ?_⟩
  · rw [hmem, ← h.mem]
    rfl
  · by_cases hji : j = i
    · subst hji
      rw [hpc, Function.update_self] at hj
      exact absurd hj hstart
    · rw [hpc, Function.update_of_ne hji] at hj
      rw [hloff]
      exact h.position j hj
  · dsimp only
    by_cases hji : j = i
    · subst hji
      rw [hpc, Function.update_self, Function.update_self, Function.update_self, h.mem]
      exact hcall
    · rw [hpc, Function.update_of_ne hji, Function.update_of_ne hji, Function.update_of_ne hji]
      exact h.call j

/-- Past the end a call accesses nothing. -/
theorem length_of_ge {loff : BitVec 64} (call : Call) (hp : memSize ≤ loff.toNat) :
    call.length loff = 0 := if_pos hp

/-- A read accesses the bytes that its caller can take. -/
theorem length_read {loff : BitVec 64} (cnt : BitVec 64) (writable : ℕ → Bool)
    (hp : loff.toNat < memSize) :
    (Call.read cnt writable).length loff =
      ((List.range (clampCount loff.toNat cnt)).takeWhile writable).length :=
  if_neg (not_le.mpr hp)

/-- A write accesses the clamped count of bytes. -/
theorem length_write {loff : BitVec 64} (cnt : BitVec 64) (buff : ℕ → Option UInt8)
    (hp : loff.toNat < memSize) :
    (Call.write cnt buff).length loff = clampCount loff.toNat cnt :=
  if_neg (not_le.mpr hp)

/-- A write stores the bytes of its caller, zero for one that cannot be read. -/
theorem stores_write (loff cnt : BitVec 64) (buff : ℕ → Option UInt8) (k : ℕ) :
    ((Call.write cnt buff).thread loff).stores (loff.toNat + k) =
      some (copyFromUserByte (buff k)).1 := by
  have hk : ((loff.toNat : ℤ) + k - loff.toNat).toNat = k := by omega
  simp only [Call.thread, hk]

/-- A read accesses at most the clamped count of bytes. -/
theorem length_read_le {loff : BitVec 64} (cnt : BitVec 64) (writable : ℕ → Bool)
    (hp : loff.toNat < memSize) :
    (Call.read cnt writable).length loff ≤ clampCount loff.toNat cnt := by
  rw [length_read cnt writable hp]
  exact (List.takeWhile_prefix _).length_le.trans_eq List.length_range

/-- The elements from the start that satisfy a condition go on exactly while it holds. -/
theorem lt_length_takeWhile_iff {α : Type*} {p : α → Bool} {xs : List α} {k : ℕ}
    (hk : k ≤ (xs.takeWhile p).length) :
    k < (xs.takeWhile p).length ↔ ∃ h : k < xs.length, p xs[k] = true := by
  induction xs generalizing k with
  | nil => simp
  | cons x xs ih =>
    by_cases hx : p x = true
    · rw [List.takeWhile_cons_of_pos hx] at hk ⊢
      cases k with
      | zero => simp [hx]
      | succ k => simpa using ih (Nat.le_of_succ_le_succ hk)
    · rw [List.takeWhile_cons_of_neg hx, List.length_nil, Nat.le_zero] at hk
      subst hk
      simp [List.takeWhile_cons_of_neg hx, hx]

/-- The copy of a read goes on exactly while the caller can take the next byte. -/
theorem lt_length_read_iff {loff cnt : BitVec 64} {writable : ℕ → Bool} {k : ℕ}
    (hp : loff.toNat < memSize) (hk : k ≤ (Call.read cnt writable).length loff) :
    k < (Call.read cnt writable).length loff ↔
      k < clampCount loff.toNat cnt ∧ writable k = true := by
  rw [length_read cnt writable hp] at hk ⊢
  rw [lt_length_takeWhile_iff hk]
  simp

/-- The next of some consecutive indices, and those after it. -/
theorem indices_of_lt {p : ℤ} {k n : ℕ} (h : k < n) :
    indices (p + k) (n - k) = (p + k) :: indices (p + (k + 1 : ℕ)) (n - (k + 1)) := by
  have hsucc : n - k = n - (k + 1) + 1 := by omega
  rw [hsucc, indices_succ, Nat.cast_succ, add_assoc]

/-- Past the end a call is over at once. -/
theorem Matches.past {loff : BitVec 64} (call : Call) (hp : memSize ≤ loff.toNat) :
    Matches loff call (.done 0 []) (call.thread loff).cells [] := by
  have hcells : (call.thread loff).cells = [] := by
    rw [Call.thread, length_of_ge call hp]
    rfl
  have hret : call.ret loff = 0 := if_pos hp
  have hdelivered : call.delivered [] = [] := by cases call <;> rfl
  have hdone : Matches loff call (.done (call.ret loff) (call.delivered [])) [] [] := .done
  rwa [hret, hdelivered, ← hcells] at hdone

/-- A read starts to copy. -/
theorem Matches.startRead {loff : BitVec 64} (cnt : BitVec 64) (writable : ℕ → Bool)
    (hp : loff.toNat < memSize) :
    Matches loff (.read cnt writable)
      (.readCopy ⟨cnt, writable, loff.toNat, clampCount loff.toNat cnt⟩ 0 [])
      ((Call.read cnt writable).thread loff).cells [] := by
  have hcopying : Matches loff _ _ _ [] :=
    .copying hp (Nat.zero_le ((Call.read cnt writable).length loff))
  rwa [Nat.cast_zero, add_zero, Nat.sub_zero] at hcopying

/-- A write starts. -/
theorem Matches.startWrite {loff : BitVec 64} (cnt : BitVec 64) (buff : ℕ → Option UInt8)
    (hp : loff.toNat < memSize) :
    Matches loff (.write cnt buff)
      (.writeBranch ⟨cnt, buff, loff.toNat, clampCount loff.toNat cnt⟩)
      ((Call.write cnt buff).thread loff).cells [] := by
  have hbranching : Matches loff (.write cnt buff) _ _ [] := .branching hp
  rwa [← length_write cnt buff hp] at hbranching ⊢

/-- A read that found all it can take is over. -/
theorem Matches.doneRead {loff cnt : BitVec 64} {writable : ℕ → Bool} {k : ℕ}
    (hp : loff.toNat < memSize) (hk : k = (Call.read cnt writable).length loff)
    (found : List UInt8) : Matches loff (.read cnt writable)
      (.done (if k = clampCount loff.toNat cnt then clampCount loff.toNat cnt else -EFAULT) found)
      (indices (loff.toNat + k) ((Call.read cnt writable).length loff - k)) found := by
  have hret : (Call.read cnt writable).ret loff =
      if k = clampCount loff.toNat cnt then (clampCount loff.toNat cnt : ℤ) else -EFAULT := by
    rw [Call.ret, if_neg (not_le.mpr hp), hk]
  rw [← hret, hk, Nat.sub_self]
  exact .done

/-- The copy loop of a write starts. -/
theorem Matches.startLoop {loff cnt : BitVec 64} {buff : ℕ → Option UInt8} {thread0 : Bool}
    {found : List UInt8} (hp : loff.toNat < memSize) :
    Matches loff (.write cnt buff)
      (.writeLoop ⟨cnt, buff, loff.toNat, clampCount loff.toNat cnt⟩ thread0 0 0)
      (indices loff.toNat (clampCount loff.toNat cnt)) found := by
  have hlooping : Matches loff (.write cnt buff) (.writeLoop _ thread0 0 0) _ found :=
    .looping hp (Nat.zero_le (clampCount loff.toNat cnt))
  rwa [Nat.cast_zero, add_zero, Nat.sub_zero] at hlooping

/-- A write that has copied the clamped count is over. -/
theorem Matches.doneWrite {loff cnt : BitVec 64} {buff : ℕ → Option UInt8} {k : ℕ}
    {found : List UInt8} (hp : loff.toNat < memSize) (hk : k = clampCount loff.toNat cnt) :
    Matches loff (.write cnt buff) (.done (clampCount loff.toNat cnt) [])
      (indices (loff.toNat + k) (clampCount loff.toNat cnt - k)) found := by
  have hret : (Call.write cnt buff).ret loff = clampCount loff.toNat cnt :=
    if_neg (not_le.mpr hp)
  rw [← hret, hk, Nat.sub_self]
  exact .done

/-- One statement of a call is silent, or is the next access of its thread. -/
theorem Sim.step (h : Sim calls loff s l) (hstep : s.step calls i = some (t, es)) :
    (es = [] ∧ Sim calls loff t l ∧ (t.pc i).silent < (s.pc i).silent) ∨
      ∃ l', l.step (threads calls loff) i = some (l', es) ∧ Sim calls loff t l' := by
  have hm := h.call i
  generalize hrest : l.rest i = rest at hm
  generalize hfound : l.found i = found at hm
  generalize hcall : calls i = call at hm
  generalize hpc : s.pc i = pc at hm ⊢
  rw [State.step, hcall, State.advance, hpc] at hstep
  cases hm with
  | start =>
    rw [h.position i hpc] at hstep
    cases call with
    | read cnt writable =>
      dsimp only at hstep
      split at hstep
      · rename_i hp
        obtain ⟨rfl, rfl⟩ := Prod.mk.inj (Option.some.inj hstep)
        refine Or.inl ⟨rfl, h.quiet rfl rfl (fun _ _ => rfl) (by simp) ?_, ?_⟩
        · rw [hrest, hfound, hcall]
          exact .past _ hp
        · simp [State.setPc, Pc.silent]
      · rename_i hp
        obtain ⟨rfl, rfl⟩ := Prod.mk.inj (Option.some.inj hstep)
        refine Or.inl ⟨rfl, h.quiet rfl rfl (fun _ _ => rfl) (by simp) ?_, ?_⟩
        · rw [hrest, hfound, hcall]
          exact .startRead cnt writable (not_le.mp hp)
        · simp [State.setPc, Pc.silent]
    | write cnt buff =>
      dsimp only at hstep
      split at hstep
      · rename_i hp
        obtain ⟨rfl, rfl⟩ := Prod.mk.inj (Option.some.inj hstep)
        refine Or.inl ⟨rfl, h.quiet rfl rfl (fun _ _ => rfl) (by simp) ?_, ?_⟩
        · rw [hrest, hfound, hcall]
          exact .past _ hp
        · simp [State.setPc, Pc.silent]
      · rename_i hp
        obtain ⟨rfl, rfl⟩ := Prod.mk.inj (Option.some.inj hstep)
        refine Or.inl ⟨rfl, h.quiet rfl rfl (fun _ _ => rfl) (by simp) ?_, ?_⟩
        · rw [hrest, hfound, hcall]
          exact .startWrite cnt buff (not_le.mp hp)
        · simp [State.setPc, Pc.silent]
  | @copying cnt writable k _ hp hk =>
    dsimp only at hstep
    have hnext := lt_length_read_iff hp hk
    split at hstep
    · rename_i hlt
      split at hstep
      · rename_i hwritable
        obtain ⟨rfl, rfl⟩ := Prod.mk.inj (Option.some.inj hstep)
        have hmore := hnext.mpr ⟨hlt, hwritable⟩
        rw [indices_of_lt hmore] at hrest
        refine Or.inr (h.access hrest ?_ rfl rfl (by simp) ?_)
        · rw [hcall]
          exact (Function.update_eq_self _ _).symm
        · rw [hcall, hfound]
          exact .copying hp hmore
      · rename_i hwritable
        obtain ⟨rfl, rfl⟩ := Prod.mk.inj (Option.some.inj hstep)
        have hend := le_antisymm hk (not_lt.mp fun hmore => hwritable (hnext.mp hmore).2)
        refine Or.inl ⟨rfl, h.quiet rfl rfl (fun _ _ => rfl) (by simp) ?_, ?_⟩
        · rw [hrest, hfound, hcall]
          have hdone := Matches.doneRead hp hend found
          rwa [if_neg hlt.ne] at hdone
        · simp [State.setPc, Pc.silent]
    · rename_i hge
      obtain ⟨rfl, rfl⟩ := Prod.mk.inj (Option.some.inj hstep)
      have hend := le_antisymm hk (not_lt.mp fun hmore => hge (hnext.mp hmore).1)
      have hcount := le_antisymm (hk.trans (length_read_le cnt writable hp)) (not_lt.mp hge)
      refine Or.inl ⟨rfl, h.quiet rfl rfl (fun _ hj => Function.update_of_ne hj _ _) (by simp) ?_,
        ?_⟩
      · rw [hrest, hfound, hcall]
        have hdone := Matches.doneRead hp hend found
        rwa [if_pos hcount] at hdone
      · simp [State.finish, State.setPc, Pc.silent]
  | branching hp =>
    dsimp only at hstep
    obtain ⟨rfl, rfl⟩ := Prod.mk.inj (Option.some.inj hstep)
    refine Or.inl ⟨rfl, h.quiet rfl rfl (fun _ _ => rfl) (by simp) ?_, ?_⟩
    · rw [hrest, hfound, hcall]
      exact .startLoop hp
    · simp [State.setPc, Pc.silent]
  | @looping cnt buff thread0 k ret _ hp hk =>
    dsimp only at hstep
    split at hstep
    · rename_i hlt
      obtain ⟨rfl, rfl⟩ := Prod.mk.inj (Option.some.inj hstep)
      rw [indices_of_lt hlt] at hrest
      refine Or.inr (h.access hrest ?_ rfl rfl (by simp) ?_)
      · rw [hcall, stores_write]
        rfl
      · rw [hcall, hfound]
        exact .looping hp hlt
    · rename_i hge
      obtain ⟨rfl, rfl⟩ := Prod.mk.inj (Option.some.inj hstep)
      refine Or.inl ⟨rfl, h.quiet rfl rfl (fun _ hj => Function.update_of_ne hj _ _) (by simp) ?_,
        ?_⟩
      · rw [hrest, hfound, hcall]
        exact .doneWrite hp (le_antisymm hk (not_lt.mp hge))
      · simp [State.finish, State.setPc, Pc.silent]
  | done => cases hstep

variable (calls) in
/-- A call that is not over can go on, and moves no other. -/
theorem exists_step (hpc : 0 < (s.pc i).silent) :
    ∃ t es pc, s.step calls i = some (t, es) ∧ t.pc = Function.update s.pc i pc := by
  unfold State.step
  generalize calls i = call
  unfold State.advance
  cases hi : s.pc i with
  | start =>
    cases call with
    | read cnt writable =>
      dsimp only
      split <;> exact ⟨_, _, _, rfl, rfl⟩
    | write cnt buff =>
      dsimp only
      split <;> exact ⟨_, _, _, rfl, rfl⟩
  | readCopy fr k out =>
    dsimp only
    split
    · split <;> exact ⟨_, _, _, rfl, rfl⟩
    · exact ⟨_, _, _, rfl, rfl⟩
  | writeBranch fr => exact ⟨_, _, _, rfl, rfl⟩
  | writeLoop fr thread0 k ret =>
    dsimp only
    split <;> exact ⟨_, _, _, rfl, rfl⟩
  | done ret out =>
    rw [hi] at hpc
    exact absurd hpc (lt_irrefl 0)

omit [DecidableEq ι] in
/-- A call that is over has accessed all its bytes. -/
theorem Sim.rest_of_over (h : Sim calls loff s l) (hpc : (s.pc i).silent = 0) :
    l.rest i = [] ∧ s.pc i = .done ((calls i).ret (loff i)) ((calls i).delivered (l.found i)) := by
  have hm := h.call i
  generalize l.rest i = rest at hm ⊢
  generalize l.found i = found at hm ⊢
  generalize s.pc i = pc at hm hpc ⊢
  generalize calls i = call at hm ⊢
  cases hm with
  | start | copying | branching | looping => simp [Pc.silent] at hpc
  | done => exact ⟨rfl, rfl⟩

/-- The next access of a thread is made by its call, after statements that nobody sees. -/
theorem Sim.catchUp {l' : Accesses.State ι ℤ UInt8} (h : Sim calls loff s l)
    (hnext : l.step (threads calls loff) i = some (l', es)) :
    ∃ n t, exec (State.step calls) s (List.replicate n i) = some (t, es) ∧
      Sim calls loff t l' := by
  induction hn : (s.pc i).silent using Nat.strong_induction_on generalizing s with
  | _ n ih =>
    have hpc : 0 < (s.pc i).silent := by
      rw [Nat.pos_iff_ne_zero]
      intro hzero
      rw [Accesses.State.step, (h.rest_of_over hzero).1] at hnext
      cases hnext
    obtain ⟨u, fs, pc, hstep, hupdate⟩ := exists_step calls hpc
    rcases h.step hstep with ⟨rfl, hu, hlt⟩ | ⟨l'', hl'', hu⟩
    · obtain ⟨m, t, hexec, ht⟩ := ih _ (hn ▸ hlt) hu rfl
      exact ⟨m + 1, t, exec_cons_eq_some.mpr ⟨u, [], es, hstep, hexec, rfl⟩, ht⟩
    · obtain ⟨rfl, rfl⟩ := Prod.mk.inj (Option.some.inj (hl''.symm.trans hnext))
      exact ⟨1, u, exec_singleton hstep, hu⟩

/-- A call that has nothing left to access comes to its end unseen. -/
theorem Sim.comeToEnd (h : Sim calls loff s l) (hrest : l.rest i = []) :
    ∃ n t, exec (State.step calls) s (List.replicate n i) = some (t, []) ∧ Sim calls loff t l ∧
      (t.pc i).silent = 0 ∧ ∀ j, j ≠ i → t.pc j = s.pc j := by
  induction hn : (s.pc i).silent using Nat.strong_induction_on generalizing s with
  | _ n ih =>
    by_cases hpc : 0 < (s.pc i).silent
    · obtain ⟨u, fs, pc, hstep, hupdate⟩ := exists_step calls hpc
      rcases h.step hstep with ⟨rfl, hu, hlt⟩ | ⟨l', hl', _⟩
      · obtain ⟨m, t, hexec, ht, hover, hsame⟩ := ih _ (hn ▸ hlt) hu rfl
        exact ⟨m + 1, t, exec_cons_eq_some.mpr ⟨u, [], [], hstep, hexec, rfl⟩, ht, hover,
          fun j hj => (hsame j hj).trans (by rw [hupdate, Function.update_of_ne hj])⟩
      · rw [Accesses.State.step, hrest] at hl'
        cases hl'
    · exact ⟨0, s, rfl, h, Nat.eq_zero_of_not_pos hpc, fun _ _ => rfl⟩

/-- Calls that have nothing left to access come to their ends. -/
theorem Sim.allComeToEnd (h : Sim calls loff s l) (hrest : ∀ i, l.rest i = []) (is : List ι) :
    ∃ as t, exec (State.step calls) s as = some (t, []) ∧ Sim calls loff t l ∧
      ∀ i, (i ∈ is ∨ (s.pc i).silent = 0) → (t.pc i).silent = 0 := by
  induction is generalizing s with
  | nil => exact ⟨[], s, rfl, h, fun i hi => hi.resolve_left List.not_mem_nil⟩
  | cons i is ih =>
    obtain ⟨n, u, hu, hsim, hover, hsame⟩ := h.comeToEnd (hrest i)
    obtain ⟨as, t, hexec, ht, hall⟩ := ih hsim
    refine ⟨_, t, exec_append hu hexec, ht, fun j hj => hall j ?_⟩
    by_cases hji : j = i
    · exact Or.inr (hji ▸ hover)
    · rw [hsame j hji]
      exact hj.imp_left fun hmem => (List.mem_cons.mp hmem).resolve_left hji

/-- The statements of the driver are accesses of the threads, or silent. -/
theorem simulates_threads :
    Simulates (State.step calls) (Accesses.State.step (threads calls loff)) (Sim calls loff) := by
  intro s l i t es h hstep
  rcases h.step hstep with ⟨_, hu, _⟩ | ⟨l', hl', hu⟩
  · exact ⟨[], l, [], rfl, hu⟩
  · exact ⟨[i], l', es, exec_singleton hl', hu⟩

/-- The accesses of the threads are made by the driver. -/
theorem threads_simulate : Simulates (Accesses.State.step (threads calls loff)) (State.step calls)
    fun l s => Sim calls loff s l := by
  intro l s i l' es h hstep
  obtain ⟨n, t, ht, hsim⟩ := h.catchUp hstep
  exact ⟨_, t, es, ht, hsim⟩

omit [DecidableEq ι] in
/-- Before any call the driver and the threads stand at the same accesses. -/
theorem sim_init (calls : ι → Call) (share : Share) (loff : ι → BitVec 64) :
    Sim calls loff (State.init share loff)
      (Accesses.State.init (threads calls loff) share.mem) where
  mem := rfl
  position _ _ := rfl
  call i := .start (calls i)

/-- A call accesses only bytes of `sh->mem`. -/
theorem cells_within (call : Call) (p : BitVec 64) :
    ∀ c ∈ (call.thread p).cells, c ∈ indices 0 memSize := by
  intro c hc
  simp only [Call.thread, mem_indices] at hc ⊢
  by_cases hp : memSize ≤ p.toNat
  · rw [length_of_ge call hp] at hc
    omega
  · have hlength : call.length p ≤ memSize - p.toNat := by
      cases call with
      | read cnt writable =>
        exact (length_read_le cnt writable (not_le.mp hp)).trans (clampCount_le _ _)
      | write cnt buff =>
        rw [length_write cnt buff (not_le.mp hp)]
        exact clampCount_le _ _
    omega

/-- When all calls are over, each byte was accessed in some order. -/
theorem exists_order_of_exec {share : Share} {as : List ι}
    (hexec : exec (State.step calls) (State.init share loff) as = some (s, es))
    (hover : ∀ i, (s.pc i).silent = 0) :
    ∃ order found, IsOrder (threads calls loff) order ∧
      Outcome (threads calls loff) share.mem order s.share.mem found ∧
      ∀ i, s.pc i = .done ((calls i).ret (loff i)) ((calls i).delivered (found i)) := by
  obtain ⟨bs, l, _, hbs, hsim⟩ := simulates_threads.run (sim_init calls share loff) hexec
  have hdone := fun i => hsim.rest_of_over (hover i)
  have hsorted : ∀ i, (threads calls loff i).cells.Pairwise (· < ·) := fun i => pairwise_indices _ _
  obtain ⟨horder, houtcome⟩ := outcome_of_exec (fun i => (hsorted i).imp ne_of_lt) hbs
    fun i => (hdone i).1
  exact ⟨_, l.found, horder, hsim.mem ▸ houtcome, fun i => (hdone i).2⟩

/-- Whatever order is chosen for each byte, some run has all of them. -/
theorem exists_exec_of_order [Fintype ι] (share : Share) {order : ℤ → List ι} {mem : Mem}
    {found : ι → List UInt8} (horder : IsOrder (threads calls loff) order)
    (houtcome : Outcome (threads calls loff) share.mem order mem found) :
    ∃ as s trace, exec (State.step calls) (State.init share loff) as = some (s, trace) ∧
      s.share.mem = mem ∧
      ∀ i, s.pc i = .done ((calls i).ret (loff i)) ((calls i).delivered (found i)) := by
  obtain ⟨bs, l, trace, hbs, hrest, hl⟩ := exists_exec share.mem
    (fun i => pairwise_indices _ _) horder (pairwise_indices 0 memSize)
    fun i => cells_within (calls i) (loff i)
  obtain ⟨as, u, _, has, hsim⟩ := threads_simulate.run (sim_init calls share loff) hbs
  obtain ⟨cs, s, hcs, hs, hall⟩ := hsim.allComeToEnd hrest Finset.univ.toList
  refine ⟨_, s, _, exec_append has hcs, ?_, fun i => ?_⟩
  · rw [← hs.mem]
    exact funext fun c => (hl.mem c).trans (houtcome.mem c).symm
  · have hover := hall i (Or.inl (Finset.mem_toList.mpr (Finset.mem_univ i)))
    rw [(hs.rest_of_over hover).2, hl.found i, houtcome.found i]

/-- **Atomic byte by byte, and no more.** When all calls are over, the memory and the bytes
delivered are those of some order of the calls at each byte, and each call has returned what its
own arguments determine; and whatever orders are chosen for the bytes, some run of the calls leaves
just that. -/
theorem outcomes_iff [Fintype ι] (calls : ι → Call) (share : Share) (loff : ι → BitVec 64)
    (mem : Mem) (ret : ι → ℤ) (out : ι → List UInt8) :
    (∃ as s trace, exec (State.step calls) (State.init share loff) as = some (s, trace) ∧
        s.share.mem = mem ∧ ∀ i, s.pc i = .done (ret i) (out i)) ↔
      ∃ order found, IsOrder (threads calls loff) order ∧
        Outcome (threads calls loff) share.mem order mem found ∧
        ∀ i, ret i = (calls i).ret (loff i) ∧ out i = (calls i).delivered (found i) := by
  constructor
  · rintro ⟨as, s, trace, hexec, rfl, hdone⟩
    have hover : ∀ i, (s.pc i).silent = 0 := fun i => by rw [hdone i]; rfl
    obtain ⟨order, found, horder, houtcome, hresult⟩ := exists_order_of_exec hexec hover
    exact ⟨order, found, horder, houtcome, fun i => Pc.done.inj ((hdone i).symm.trans (hresult i))⟩
  · rintro ⟨order, found, horder, houtcome, hresult⟩
    obtain ⟨as, s, trace, hexec, hmem, hdone⟩ := exists_exec_of_order share horder houtcome
    exact ⟨as, s, trace, hexec, hmem, fun i => by rw [(hresult i).1, (hresult i).2, hdone i]⟩

end LinuxDevNote.UnuseMutex
