import LinuxDevNote.Mutex.App
import LinuxDevNote.UnuseMutex.Outcomes

/-!
# The application without the mutex

Two threads of `app.c` fill five bytes of the device, one with `A` and one with `B`, and a
third reads them. Without the mutex every byte is decided on its own: the reader may see
any mixture of old bytes, `A` and `B`, and any mixture of `A` and `B` may remain.
-/

namespace LinuxDevNote.UnuseMutex

open Memory Kernel Mutex Execution Accesses

/-- The call that a thread of `wirite_share_mem` makes after its `lseek`. -/
def appCall (tid : Fin 3) : Call :=
  if tid.val < 2 then .write (BitVec.ofNat 64 rwBuffSize) (wrbuf tid)
  else .read (BitVec.ofNat 64 rwBuffSize) fun k => decide (k < rwBuffSize)

/-- The position after `open` and `lseek(fd, 0, 0)`. -/
def appLoff : BitVec 64 := (llseek 0 0 0).2

/-- The threads. -/
abbrev appThreads : Fin 3 → Thread ℤ UInt8 := threads appCall fun _ => appLoff

/-- Each thread accesses the first five bytes. -/
theorem appThreads_cells (i : Fin 3) : (appThreads i).cells = indices 0 rwBuffSize := by
  have hall : ∀ i : Fin 3, (appCall i).length appLoff = rwBuffSize := by decide
  rw [appThreads, threads, Call.thread, hall i]
  rfl

/-- The letters. -/
theorem letter_mem : ∀ i : Fin 3, i.val < 2 → letter i ∈ [(65 : UInt8), 66] := by decide

/-- The writers store their letter. -/
theorem appThreads_stores {c : ℤ} (hc : c ∈ indices 0 rwBuffSize) (i : Fin 3) :
    (appThreads i).stores c = if i.val < 2 then some (letter i) else none := by
  rw [mem_indices] at hc
  have hzero : appLoff.toNat = 0 := by decide
  have hlt : (c - (appLoff.toNat : ℤ)).toNat < rwBuffSize := by omega
  by_cases hi : i.val < 2
  · simp only [appThreads, threads, appCall, if_pos hi, Call.thread, wrbuf, if_pos hlt,
      copyFromUserByte]
  · simp only [appThreads, threads, appCall, if_neg hi, Call.thread]

/-- Whatever the order, a byte is an old one or a letter. -/
theorem valueAfter_mem (mem : Mem) {c : ℤ} (hc : c ∈ indices 0 rwBuffSize) (before : List (Fin 3)) :
    valueAfter appThreads mem c before ∈ [mem c, 65, 66] := by
  induction before using List.reverseRecOn with
  | nil => exact List.mem_cons_self
  | append_singleton before i ih =>
    rw [valueAfter_append_singleton, appThreads_stores hc]
    split_ifs with hi
    · exact List.mem_cons_of_mem _ (letter_mem i hi)
    · exact ih

/-- After a writer a byte is a letter. -/
theorem valueAfter_mem_letters (mem : Mem) {c : ℤ} (hc : c ∈ indices 0 rwBuffSize)
    {before : List (Fin 3)} (hwriter : 0 ∈ before) :
    valueAfter appThreads mem c before ∈ [(65 : UInt8), 66] := by
  induction before using List.reverseRecOn with
  | nil => exact absurd hwriter List.not_mem_nil
  | append_singleton before i ih =>
    rw [valueAfter_append_singleton, appThreads_stores hc]
    split_ifs with hi
    · exact letter_mem i hi
    · refine ih ((List.mem_append.mp hwriter).resolve_right ?_)
      rintro hlast
      rw [← List.mem_singleton.mp hlast] at hi
      exact hi (by decide)

/-- In some order of the three threads the reader finds one byte and another one remains. -/
theorem exists_orderFor {mem : Mem} {c : ℤ} (hc : c ∈ indices 0 rwBuffSize) {seen last : UInt8}
    (hseen : seen ∈ [mem c, 65, 66]) (hlast : last ∈ [(65 : UInt8), 66]) :
    ∃ order : List (Fin 3), order.Perm [0, 1, 2] ∧
      valueAfter appThreads mem c (order.takeWhile fun j => decide (j ≠ 2)) = seen ∧
      valueAfter appThreads mem c order = last := by
  have hstores := appThreads_stores hc
  simp only [List.mem_cons, List.not_mem_nil, or_false] at hseen hlast
  -- the reader comes first, between the writers or last
  rcases hlast with rfl | rfl <;> rcases hseen with rfl | rfl | rfl
  · exact ⟨[2, 1, 0], by decide, by simp [valueAfter], by simp [valueAfter, hstores, letter]⟩
  · exact ⟨[1, 0, 2], by decide, by simp [valueAfter, hstores, letter, List.takeWhile],
      by simp [valueAfter, hstores, letter]⟩
  · exact ⟨[1, 2, 0], by decide, by simp [valueAfter, hstores, letter, List.takeWhile],
      by simp [valueAfter, hstores, letter]⟩
  · exact ⟨[2, 0, 1], by decide, by simp [valueAfter], by simp [valueAfter, hstores, letter]⟩
  · exact ⟨[0, 2, 1], by decide, by simp [valueAfter, hstores, letter, List.takeWhile],
      by simp [valueAfter, hstores, letter]⟩
  · exact ⟨[0, 1, 2], by decide, by simp [valueAfter, hstores, letter, List.takeWhile],
      by simp [valueAfter, hstores, letter]⟩

/-- What the reader may find in a byte, and what may remain in it. -/
def Mixed (mem : Mem) (out fin : List UInt8) : Prop :=
  List.Forall₂ (fun c b => b ∈ [mem c, 65, 66]) (indices 0 rwBuffSize) out ∧
    List.Forall₂ (fun _ b => b ∈ [(65 : UInt8), 66]) (indices 0 rwBuffSize) fin

/-- Some bytes, as the values of a function. -/
theorem exists_map_indices {xs : List UInt8} (h : xs.length = rwBuffSize) :
    ∃ f : ℤ → UInt8, (indices 0 rwBuffSize).map f = xs := by
  refine ⟨splice (fun _ => 0) 0 xs, ?_⟩
  rw [← slice_eq_map_indices, ← h, slice_splice]

/-- The orders in which the reader finds some bytes and others remain. -/
theorem exists_order {mem : Mem} {out fin : List UInt8} (h : Mixed mem out fin) :
    ∃ order, IsOrder appThreads order ∧
      (indices 0 rwBuffSize).map (foundBy appThreads mem order 2) = out ∧
      (indices 0 rwBuffSize).map (fun c => valueAfter appThreads mem c (order c)) = fin := by
  obtain ⟨seen, rfl⟩ := exists_map_indices (h.1.length_eq.symm.trans (slice_length id _ _))
  obtain ⟨last, rfl⟩ := exists_map_indices (h.2.length_eq.symm.trans (slice_length id _ _))
  obtain ⟨hseen, hlast⟩ := h
  rw [List.forall₂_map_right_iff, List.forall₂_same] at hseen hlast
  choose order hperm hfound hleft using fun c (hc : c ∈ indices 0 rwBuffSize) =>
    exists_orderFor hc (hseen c hc) (hlast c hc)
  refine ⟨fun c => if hc : c ∈ indices 0 rwBuffSize then order c hc else [],
    ⟨fun c => ?_, fun c i => ?_⟩, List.map_congr_left fun c hc => ?_,
    List.map_congr_left fun c hc => ?_⟩
  · split_ifs with hc
    · exact (hperm c hc).nodup_iff.mpr (by decide)
    · exact List.nodup_nil
  · rw [appThreads_cells]
    split_ifs with hc
    · rw [(hperm c hc).mem_iff]
      exact iff_of_true (by revert i; decide) hc
    · exact iff_of_false List.not_mem_nil hc
  · rw [foundBy, dif_pos hc]
    exact hfound c hc
  · dsimp only
    rw [dif_pos hc]
    exact hleft c hc

/-- **The application without the mutex.** Over all runs, the reader may find exactly the
mixtures of old bytes and letters, and exactly the mixtures of letters may remain, each with
each. -/
theorem app_mixed_iff (share : Share) (out fin : List UInt8) :
    (∃ as s trace, exec (State.step appCall) (State.init share fun _ => appLoff) as =
        some (s, trace) ∧ (∀ i, (s.pc i).silent = 0) ∧ s.pc 2 = .done rwBuffSize out ∧
        slice s.share.mem 0 rwBuffSize = fin) ↔ Mixed share.mem out fin := by
  have hret : (appCall 2).ret appLoff = rwBuffSize := by decide
  constructor
  · rintro ⟨as, s, trace, hexec, hover, hout, rfl⟩
    obtain ⟨order, found, horder, houtcome, hdone⟩ := exists_order_of_exec hexec hover
    have hfound : out = found 2 := (Pc.done.inj (hout.symm.trans (hdone 2))).2
    rw [hfound, houtcome.found 2, appThreads_cells, slice_eq_map_indices]
    refine ⟨?_, ?_⟩
    · rw [List.forall₂_map_right_iff, List.forall₂_same]
      exact fun c hc => valueAfter_mem _ hc _
    · rw [List.forall₂_map_right_iff, List.forall₂_same]
      intro c hc
      rw [houtcome.mem c]
      refine valueAfter_mem_letters _ hc ((horder.mem_iff c 0).mpr ?_)
      rwa [appThreads_cells]
  · intro h
    obtain ⟨order, horder, rfl, rfl⟩ := exists_order h
    obtain ⟨as, s, trace, hexec, hmem, hdone⟩ := exists_exec_of_order share horder
      ⟨fun _ => rfl, fun _ => rfl⟩
    refine ⟨as, s, trace, hexec, fun i => ?_, ?_, ?_⟩
    · rw [hdone i]
      rfl
    · rw [hdone 2, hret, appThreads_cells]
      rfl
    · rw [hmem, slice_eq_map_indices]

end LinuxDevNote.UnuseMutex
