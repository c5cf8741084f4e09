import Mathlib.Data.Fintype.Basic
import LinuxDevNote.QueueWait.Messages

/-!
# When messages are conserved

Nothing keeps two calls of the queue-wait driver from working on `byte`,
`buff_len` and `havedata` at the same time, so two readers past the loop return
the same message. Conservation holds in every interleaving in which the sections
of two calls never overlap, a section reaching from the first statement that
touches a message to the last, and no read fails to copy out what it took.
-/

namespace LinuxDevNote.QueueWait

open Memory Kernel Execution Mailbox

variable {ι : Type*} {calls : ι → Op}

/-- Call `i` is about to enter its section: to set `buff_len` to 0 in a write, or
to find `havedata` set in a read. -/
def State.Enters (calls : ι → Op) (s : State ι) (i : ι) : Prop :=
  s.pc i = .start ∧ (calls i).isWrite = true ∨ s.pc i = .readTest ∧ s.havedata = true

/-- Sections do not overlap, and no read faults: a call enters its section only
when no call is in one, and a read copies out only to writable memory. -/
def Separate (calls : ι → Op) (s : State ι) : Label ι → Prop
  | .advance i => (s.Enters calls i → ∀ j, (s.pc j).inSection = false) ∧
      (s.pc i = .readCopy → ∀ k < (calls i).size, (calls i).writable k = true)
  | .signal _ => True

/-- With finitely many calls, overlap is decided by looking at all of them. -/
instance [Fintype ι] (s : State ι) : ∀ a, Decidable (Separate calls s a)
  | .advance i => inferInstanceAs (Decidable
      ((s.pc i = .start ∧ (calls i).isWrite = true ∨ s.pc i = .readTest ∧ s.havedata = true →
        ∀ j, (s.pc j).inSection = false) ∧
      (s.pc i = .readCopy → ∀ k < (calls i).size, (calls i).writable k = true)))
  | .signal _ => isTrue trivial

/-- A read that took a message whose bytes are still in the array. -/
def Emptying (calls : ι → Op) (d : Device) (trace : List (Event ι)) (i w : ι) : Prop :=
  (i, w) ∈ (mailbox trace).taken ∧ Holds d.toBuffer (message calls w)

/-- What is known about a call from the statement it is at. -/
def CallOk (calls : ι → Op) (d : Device) (trace : List (Event ι)) (i : ι) : Pc → Prop
  | .start | .readTest | .waitEnqueue | .waitTest | .waitSleep | .readFail _ | .readClear =>
    Fresh trace i
  | .writeLoop k => Fresh trace i ∧ (calls i).isWrite = true ∧ k ≤ (calls i).size ∧
      d.buffLen = k ∧ (readable (calls i).source k).length = k ∧
      slice d.byte 0 k = readable (calls i).source k
  | .writePublish => Fresh trace i ∧ Holds d.toBuffer (message calls i)
  | .readCopy => ∃ w, Emptying calls d trace i w
  | .readLog out | .readLength out => ∃ w, Emptying calls d trace i w ∧
      out.take (message calls w).length = (message calls w).take (calls i).size
  | .readReset n out | .readReturn n out => ∃ w, Delivers calls trace i w n out
  | .writeWake | .writeDelay | .writeReturn | .done => True

/-- The invariant of the interleavings whose sections do not overlap. -/
structure Inv (calls : ι → Op) (s : State ι) (trace : List (Event ι)) : Prop where
  /-- At most one call is in its section. -/
  exclusive : ∀ i j, (s.pc i).inSection = true → (s.pc j).inSection = true → i = j
  /-- `havedata` says whether a message is pending. -/
  flag : s.havedata = (mailbox trace).pending.isSome
  /-- `havedata` is set before it is cleared, and not after. -/
  emptying : ∀ i, (s.pc i).emptying = true → (s.havedata = true ↔ s.pc i = .readClear)
  /-- Unless a write is filling it, the array holds the pending message. -/
  holds : ∀ w, (mailbox trace).pending = some w → (∀ i, (s.pc i).filling = false) →
    Holds s.toBuffer (message calls w)
  /-- Every call is where it should be. -/
  call : ∀ i, CallOk calls s.toDevice trace i (s.pc i)
  /-- The trace is as it should be. -/
  recorded : Recorded calls trace

/-- Nothing has happened yet. -/
theorem inv_init (calls : ι → Op) (byte : ℤ → UInt8) : Inv calls (State.init byte) [] where
  exclusive i j hi := by simp [State.init, Pc.inSection, Pc.filling, Pc.emptying] at hi
  flag := rfl
  emptying i hi := by simp [State.init, Pc.emptying] at hi
  holds w hw := by cases hw
  call i e he := by cases he
  recorded :=
    { nodup := List.nodup_nil
      delivered := fun r ret out h => by cases h
      unerased := fun r w ret h => by cases h
      taken_once := fun r w w' h => by cases h }

/-- A call in its section sees only its own changes, one outside it none. -/
theorem CallOk.frame {d d' : Device} {trace es : List (Event ι)} {i : ι} {pc : Pc}
    (h : CallOk calls d trace i pc) (hd : d' = d ∨ pc.inSection = false)
    (hes : ∀ e ∈ es, e.caller ≠ i) : CallOk calls d' (trace ++ es) i pc := by
  have hkeep : ∀ w, pc.inSection = true → Emptying calls d trace i w →
      Emptying calls d' (trace ++ es) i w := by
    intro w hin hw
    rw [hd.resolve_right (by simp [hin])]
    exact ⟨taken_append hw.1, hw.2⟩
  cases pc with
  | start => exact Fresh.append h hes
  | readTest => exact Fresh.append h hes
  | waitEnqueue => exact Fresh.append h hes
  | waitTest => exact Fresh.append h hes
  | waitSleep => exact Fresh.append h hes
  | readFail ret => exact Fresh.append h hes
  | readClear => exact Fresh.append h hes
  | writeLoop k =>
    rw [hd.resolve_right (by simp [Pc.inSection, Pc.filling])]
    exact ⟨h.1.append hes, h.2⟩
  | writePublish =>
    rw [hd.resolve_right (by simp [Pc.inSection, Pc.filling])]
    exact ⟨h.1.append hes, h.2⟩
  | readCopy => exact h.imp fun w hw => hkeep w rfl hw
  | readLog out => exact h.imp fun w hw => ⟨hkeep w rfl hw.1, hw.2⟩
  | readLength out => exact h.imp fun w hw => ⟨hkeep w rfl hw.1, hw.2⟩
  | readReset n out => exact h.imp fun w hw => hw.append
  | readReturn n out => exact h.imp fun w hw => hw.append
  | writeWake => trivial
  | writeDelay => trivial
  | writeReturn => trivial
  | done => trivial

variable [DecidableEq ι]

/-- **One step of one call.** The invariant is kept by a step of call `i` to `pc`
when the call was alone in its section, or there was none, wherever the step
enters a section or changes the globals, and when the new globals, the new
mailbox and the new statement fit together. -/
theorem Inv.move {s t : State ι} {trace es : List (Event ι)} {i : ι} {pc : Pc}
    (h : Inv calls s trace) (hpc : t.pc = Function.update s.pc i pc)
    (hentry : pc.inSection = true →
      (s.pc i).inSection = true ∨ ∀ j, (s.pc j).inSection = false)
    (hdevice : t.toDevice = s.toDevice ∨ (s.pc i).inSection = true ∨
      ∀ j, (s.pc j).inSection = false)
    (hcaller : ∀ e ∈ es, e.caller = i)
    (hflag : t.havedata = (mailbox (trace ++ es)).pending.isSome)
    (hemptying : pc.emptying = true → (t.havedata = true ↔ pc = .readClear))
    (hholds : ∀ w, (mailbox (trace ++ es)).pending = some w → pc.filling = false →
      (∀ j, j ≠ i → (s.pc j).filling = false) → Holds t.toBuffer (message calls w))
    (hcall : CallOk calls t.toDevice (trace ++ es) i pc)
    (hrecorded : Recorded calls (trace ++ es)) : Inv calls t (trace ++ es) := by
  have hself : t.pc i = pc := by simp [hpc]
  have hother : ∀ j, j ≠ i → t.pc j = s.pc j := fun j hj => by
    rw [hpc, Function.update_of_ne hj]
  -- a call other than `i` that is in its section sees no change
  have hsame : ∀ j, j ≠ i → (s.pc j).inSection = true → t.toDevice = s.toDevice := by
    intro j hj hin
    rcases hdevice with hsame | hi | hnone
    · exact hsame
    · exact absurd (h.exclusive j i hin hi) hj
    · exact absurd hin (by simp [hnone j])
  have halone : ∀ j, j ≠ i → (s.pc j).inSection = true → pc.inSection = true → False := by
    intro j hj hin hpcin
    rcases hentry hpcin with hi | hnone
    · exact hj (h.exclusive j i hin hi)
    · exact absurd hin (by simp [hnone j])
  refine ⟨fun j k hj hk => ?_, hflag, fun j hj => ?_, fun w hw hfill => ?_, fun j => ?_, hrecorded⟩
  · by_cases hji : j = i
    · by_cases hki : k = i
      · rw [hji, hki]
      · rw [hother k hki] at hk
        rw [hji, hself] at hj
        exact (halone k hki hk hj).elim
    · by_cases hki : k = i
      · rw [hother j hji] at hj
        rw [hki, hself] at hk
        exact (halone j hji hj hk).elim
      · rw [hother j hji] at hj
        rw [hother k hki] at hk
        exact h.exclusive j k hj hk
  · by_cases hji : j = i
    · rw [hji, hself] at hj ⊢
      exact hemptying hj
    · rw [hother j hji] at hj ⊢
      have hin : (s.pc j).inSection = true := by simp [Pc.inSection, hj]
      rw [hsame j hji hin]
      exact h.emptying j hj
  · refine hholds w hw (hself ▸ hfill i) fun j hj => ?_
    rw [← hother j hj]
    exact hfill j
  · by_cases hji : j = i
    · rw [hji, hself]
      exact hcall
    · rw [hother j hji]
      refine (h.call j).frame ?_ fun e he => hcaller e he ▸ Ne.symm hji
      by_cases hin : (s.pc j).inSection = true
      · exact Or.inl (hsame j hji hin)
      · exact Or.inr (by simpa using hin)

/-- One step of one call without events. -/
theorem Inv.move_silent {s t : State ι} {trace : List (Event ι)} {i : ι} {pc : Pc}
    (h : Inv calls s trace) (hpc : t.pc = Function.update s.pc i pc)
    (hentry : pc.inSection = true →
      (s.pc i).inSection = true ∨ ∀ j, (s.pc j).inSection = false)
    (hdevice : t.toDevice = s.toDevice ∨ (s.pc i).inSection = true ∨
      ∀ j, (s.pc j).inSection = false)
    (hflag : t.havedata = s.havedata)
    (hemptying : pc.emptying = true → (t.havedata = true ↔ pc = .readClear))
    (hholds : ∀ w, (mailbox trace).pending = some w → pc.filling = false →
      (∀ j, j ≠ i → (s.pc j).filling = false) → Holds t.toBuffer (message calls w))
    (hcall : CallOk calls t.toDevice trace i pc) : Inv calls t (trace ++ []) := by
  refine h.move hpc hentry hdevice (fun e he => absurd he List.not_mem_nil) ?_ hemptying ?_ ?_ ?_
  · rw [List.append_nil, hflag]
    exact h.flag
  · rw [List.append_nil]
    exact hholds
  · rw [List.append_nil]
    exact hcall
  · rw [List.append_nil]
    exact h.recorded

/-- A step that changes neither the globals nor the mailbox, and enters no section. -/
theorem Inv.quiet {s t : State ι} {trace es : List (Event ι)} {i : ι} {pc : Pc}
    (h : Inv calls s trace) (hpc : t.pc = Function.update s.pc i pc)
    (hdevice : t.toDevice = s.toDevice) (hcaller : ∀ e ∈ es, e.caller = i)
    (hmailbox : mailbox (trace ++ es) = mailbox trace) (hfilling : pc.filling = (s.pc i).filling)
    (hemptying : pc.emptying = true →
      (s.pc i).emptying = true ∧ s.pc i ≠ .readClear ∧ pc ≠ .readClear)
    (hcall : CallOk calls s.toDevice (trace ++ es) i pc)
    (hrecorded : Recorded calls (trace ++ es)) : Inv calls t (trace ++ es) := by
  refine h.move hpc (fun hin => Or.inl ?_) (Or.inl hdevice) hcaller ?_ (fun hin => ?_)
    (fun w hw hfill hothers => ?_) (by rw [hdevice]; exact hcall) hrecorded
  · rcases Bool.or_eq_true _ _ ▸ hin with hfill | hempty
    · simp [Pc.inSection, ← hfilling, hfill]
    · simp [Pc.inSection, (hemptying hempty).1]
  · rw [hdevice, hmailbox]
    exact h.flag
  · obtain ⟨hi, hclear, hclear'⟩ := hemptying hin
    rw [hdevice, h.emptying i hi]
    exact iff_of_false hclear hclear'
  · rw [hdevice]
    refine h.holds w (hmailbox ▸ hw) fun j => ?_
    by_cases hj : j = i
    · rw [hj, ← hfilling, hfill]
    · exact hothers j hj

omit [DecidableEq ι] in
/-- One turn of the copy loop: it goes on with one byte more, or ends with the whole
message in the array. -/
theorem CallOk.turn {d : Device} {trace : List (Event ι)} {i : ι} {k : ℕ}
    (h : CallOk calls d trace i (.writeLoop k))
    (hsize : (calls i).isWrite = true → (calls i).size ≤ byteSize) :
    CallOk calls ⟨(copyTurn (calls i).size ((calls i).source k) d.toBuffer).1, d.havedata⟩ trace i
      (if (copyTurn (calls i).size ((calls i).source k) d.toBuffer).2.1 then .writeLoop (k + 1)
        else .writePublish) := by
  obtain ⟨hfresh, hwrite, hk, hlen, hall, hslice⟩ := h
  have hsize := hsize hwrite
  unfold byteSize at hsize
  have hkeep : ∀ x, slice (Function.update d.byte d.buffLen x) 0 k = slice d.byte 0 k :=
    fun x => slice_update_of_outside _ _ (Or.inr (by omega))
  by_cases hgo : k < (calls i).size
  · have htest : toSize d.buffLen < (calls i).size := by
      rw [toSize_of_bounds (by omega) (by omega)]
      omega
    cases hsrc : (calls i).source k with
    | none =>
      have hmessage : message calls i = readable (calls i).source k :=
        readable_of_none hall hk hsrc
      have hturn : copyTurn (calls i).size none d.toBuffer =
          (⟨Function.update d.byte d.buffLen 0, d.buffLen⟩, false, [d.buffLen]) := by
        simp [copyTurn, htest, copyFromUserByte]
      rw [hturn]
      refine ⟨hfresh, ?_, ?_⟩
      · rw [hmessage, hall]
        exact hlen
      · rw [hmessage, hall, hkeep]
        exact hslice
    | some x =>
      have hnext : toInt (d.buffLen + 1) = ((k + 1 : ℕ) : ℤ) := by
        rw [toInt_of_bounds (by omega) (by omega)]
        omega
      have hmore := readable_succ_of_some hall hsrc
      have hturn : copyTurn (calls i).size (some x) d.toBuffer =
          (⟨Function.update d.byte d.buffLen x, ((k + 1 : ℕ) : ℤ)⟩, true, [d.buffLen]) := by
        simp [copyTurn, htest, copyFromUserByte, hnext]
      rw [hturn]
      refine ⟨hfresh, hwrite, hgo, rfl, by simp [hmore, hall], ?_⟩
      rw [hmore, slice_succ, hkeep, hslice]
      simp [hlen]
  · obtain rfl : k = (calls i).size := by omega
    have htest : ¬ toSize d.buffLen < (calls i).size := by
      rw [toSize_of_bounds (by omega) (by omega)]
      omega
    have hturn : copyTurn (calls i).size ((calls i).source (calls i).size) d.toBuffer =
        (d.toBuffer, false, []) := by
      simp [copyTurn, htest]
    rw [hturn]
    refine ⟨hfresh, ?_, ?_⟩
    · rw [message, hall]
      exact hlen
    · rw [message, hall]
      exact hslice

/-- A step without events that changes neither the globals nor the sections. -/
theorem Inv.silent {s : State ι} {trace : List (Event ι)} {i : ι} {pc : Pc} (woken : ι → Bool)
    (h : Inv calls s trace) (hfilling : pc.filling = (s.pc i).filling)
    (hemptying : pc.emptying = true →
      (s.pc i).emptying = true ∧ s.pc i ≠ .readClear ∧ pc ≠ .readClear)
    (hcall : CallOk calls s.toDevice trace i pc) :
    Inv calls ({ s with woken := woken }.setPc i pc) (trace ++ []) := by
  have hnil : trace ++ [] = trace := List.append_nil trace
  exact h.quiet rfl rfl (fun e he => absurd he List.not_mem_nil) (by rw [hnil]) hfilling
    hemptying (by rwa [hnil]) (by rw [hnil]; exact h.recorded)

/-- A return, which moves nothing in the mailbox. -/
theorem Inv.returns {s : State ι} {trace : List (Event ι)} {i : ι} {e : Event ι}
    (h : Inv calls s trace) (hfilling : (s.pc i).filling = false)
    (hcaller : e.caller = i) (hmoves : e.moves = [])
    (hdelivered : ∀ r ret out, e = .delivered r ret out → ∃ w, Delivers calls trace r w ret out)
    (hfailed : ∀ r ret, e = .failed r ret → Fresh trace r) :
    Inv calls (s.setPc i .done) (trace ++ [e]) := by
  refine h.quiet rfl rfl (fun e' he => ?_) (mailbox_of_moves_nil trace hmoves) hfilling.symm
    (fun hin => by cases hin) trivial (h.recorded.append_of_moves_nil hmoves hdelivered hfailed)
  rw [List.mem_singleton.mp he, hcaller]

/-- A write enters its section, which is free. -/
theorem Inv.start_write {s : State ι} {trace : List (Event ι)} {i : ι} (h : Inv calls s trace)
    (hpc : s.pc i = .start) (hwrite : (calls i).isWrite = true)
    (hfree : ∀ j, (s.pc j).inSection = false) :
    Inv calls ((s.setDevice ⟨{ s.toBuffer with buffLen := 0 }, s.havedata⟩).setPc i (.writeLoop 0))
      (trace ++ []) := by
  have hcall := h.call i
  rw [hpc] at hcall
  exact h.move_silent rfl (fun _ => Or.inr hfree) (Or.inr (Or.inr hfree)) rfl
    (fun hin => by cases hin) (fun w _ hfill => by cases hfill)
    ⟨hcall, hwrite, Nat.zero_le _, rfl, rfl, rfl⟩

/-- A turn of the copy loop of the write in its section. -/
theorem Inv.write_turn {s : State ι} {trace : List (Event ι)} {i : ι} {k : ℕ}
    (h : Inv calls s trace) (hpc : s.pc i = .writeLoop k)
    (hsize : (calls i).isWrite = true → (calls i).size ≤ byteSize) :
    Inv calls ((s.setDevice
        ⟨(copyTurn (calls i).size ((calls i).source k) s.toBuffer).1, s.havedata⟩).setPc i
      (if (copyTurn (calls i).size ((calls i).source k) s.toBuffer).2.1 then .writeLoop (k + 1)
        else .writePublish)) (trace ++ []) := by
  have hcall := h.call i
  rw [hpc] at hcall
  have hin : (s.pc i).inSection = true := by simp [hpc, Pc.inSection, Pc.filling]
  refine h.move_silent rfl (fun _ => Or.inl hin) (Or.inr (Or.inl hin)) rfl (fun hin => ?_)
    (fun w _ hfill => ?_) (hcall.turn hsize)
  · split at hin <;> cases hin
  · split at hfill <;> cases hfill

/-- The write in its section publishes its message. -/
theorem Inv.publish {s : State ι} {trace : List (Event ι)} {i : ι} (h : Inv calls s trace)
    (hpc : s.pc i = .writePublish) :
    Inv calls ((s.setDevice ⟨s.toBuffer, true⟩).setPc i .writeWake)
      (trace ++ [.published i]) := by
  have hcall := h.call i
  rw [hpc] at hcall
  obtain ⟨hfresh, hmessage⟩ := hcall
  have hin : (s.pc i).inSection = true := by simp [hpc, Pc.inSection, Pc.filling]
  refine h.move rfl (fun hin => by cases hin) (Or.inr (Or.inl hin)) (fun e he => ?_) ?_
    (fun hin => by cases hin) (fun w hw _ _ => ?_) trivial (h.recorded.published hfresh)
  · rw [List.mem_singleton.mp he]
    rfl
  · rw [mailbox_published]
    rfl
  · rw [mailbox_published] at hw
    rw [← Option.some.inj hw]
    exact hmessage

/-- A read enters its section, which is free, on finding `havedata` set. -/
theorem Inv.enter_read {s : State ι} {trace : List (Event ι)} {i : ι} (h : Inv calls s trace)
    (hpc : s.pc i = .readTest) (hdata : s.havedata = true)
    (hfree : ∀ j, (s.pc j).inSection = false) :
    Inv calls (s.setPc i .readClear) (trace ++ []) := by
  have hcall := h.call i
  rw [hpc] at hcall
  refine h.move_silent rfl (fun _ => Or.inr hfree) (Or.inl rfl) rfl (fun _ => by simp [hdata])
    (fun w hw _ _ => h.holds w hw fun j => ?_) hcall
  have hj := hfree j
  rw [Pc.inSection, Bool.or_eq_false_iff] at hj
  exact hj.1

/-- The read in its section takes the pending message. -/
theorem Inv.clear {s : State ι} {trace : List (Event ι)} {i : ι} (h : Inv calls s trace)
    (hpc : s.pc i = .readClear) :
    Inv calls ((s.setDevice ⟨s.toBuffer, false⟩).setPc i .readCopy) (trace ++ [.cleared i]) := by
  have hcall := h.call i
  rw [hpc] at hcall
  have hin : (s.pc i).inSection = true := by simp [hpc, Pc.inSection, Pc.emptying]
  have hdata : s.havedata = true := (h.emptying i (by rw [hpc]; rfl)).mpr hpc
  obtain ⟨w, hw⟩ := Option.isSome_iff_exists.mp (h.flag ▸ hdata)
  have hnofill : ∀ j, (s.pc j).filling = false := by
    intro j
    by_contra hfill
    rw [Bool.not_eq_false] at hfill
    have hji := h.exclusive j i (by simp [Pc.inSection, hfill]) hin
    rw [hji, hpc] at hfill
    cases hfill
  refine h.move rfl (fun _ => Or.inl hin) (Or.inr (Or.inl hin)) (fun e he => ?_) ?_
    (fun _ => by simp [State.setPc, State.setDevice]) (fun v hv _ _ => ?_)
    ⟨w, ?_, h.holds w hw hnofill⟩ (h.recorded.cleared hcall)
  · rw [List.mem_singleton.mp he]
    rfl
  · rw [mailbox_cleared]
    rfl
  · rw [mailbox_cleared] at hv
    cases hv
  · rw [mailbox_cleared]
    exact List.mem_append_right _ (by simp [hw])

/-- The read in its section resets `buff_len` and leaves. -/
theorem Inv.reset {s : State ι} {trace : List (Event ι)} {i : ι} {n : ℤ} {out : List UInt8}
    (h : Inv calls s trace) (hpc : s.pc i = .readReset n out) :
    Inv calls ((s.setDevice ⟨{ s.toBuffer with buffLen := 0 }, s.havedata⟩).setPc i
      (.readReturn n out)) (trace ++ []) := by
  have hcall := h.call i
  rw [hpc] at hcall
  have hin : (s.pc i).inSection = true := by simp [hpc, Pc.inSection, Pc.emptying]
  have hempty : s.havedata = false := by
    have hiff := h.emptying i (by rw [hpc]; rfl)
    simpa [hpc] using hiff
  refine h.move_silent rfl (fun hin => by cases hin) (Or.inr (Or.inl hin)) rfl
    (fun hin => by cases hin) (fun w hw _ _ => ?_) hcall
  have hflag := h.flag
  rw [hw, hempty] at hflag
  cases hflag

/-- Every step of a call keeps the invariant when sections do not overlap. -/
theorem Inv.advance {s t : State ι} {trace es : List (Event ι)} {i : ι} (h : Inv calls s trace)
    (hsize : (calls i).isWrite = true → (calls i).size ≤ byteSize)
    (hok : Separate calls s (.advance i)) (hstep : s.advance (calls i) i = some (t, es)) :
    Inv calls t (trace ++ es) := by
  have hcall := h.call i
  obtain ⟨hfree, hwritable⟩ := hok
  cases State.advances hstep with
  | moves hpc hmove =>
    rw [hpc] at hcall
    have hsilent : ∀ {pc : Pc}, pc.filling = (s.pc i).filling → pc.emptying = false →
        CallOk calls s.toDevice trace i pc → Inv calls (s.setPc i pc) (trace ++ []) := by
      intro pc hfilling hemptying hpc'
      exact h.silent s.woken hfilling (fun hin => by rw [hemptying] at hin; cases hin) hpc'
    cases hmove with
    | found hdata => exact h.enter_read hpc hdata (hfree (Or.inr ⟨hpc, hdata⟩))
    | faults hfault =>
      have hcopy : copyToUser (calls i).writable (slice s.byte 0 (calls i).size) = (_, 0) :=
        copyToUser_of_writable (by simpa using hwritable hpc)
      rw [hcopy] at hfault
      exact absurd rfl hfault
    | copies =>
      obtain ⟨w, hw⟩ := hcall
      have hcopy : copyToUser (calls i).writable (slice s.byte 0 (calls i).size) = (_, 0) :=
        copyToUser_of_writable (by simpa using hwritable hpc)
      rw [hcopy]
      refine h.silent _ (by simp [hpc, Pc.filling]) (fun _ => by simp [hpc, Pc.emptying])
        ⟨w, hw, ?_⟩
      rw [← hw.2.2, slice_take, slice_take, slice_length, min_comm]
    | logs out =>
      exact h.silent _ (by simp [hpc, Pc.filling]) (fun _ => by simp [hpc, Pc.emptying]) hcall
    | loads out =>
      obtain ⟨w, hw, hbytes⟩ := hcall
      exact h.silent _ (by simp [hpc, Pc.filling]) (fun _ => by simp [hpc, Pc.emptying])
        ⟨w, hw.1, hw.2.1, hbytes⟩
    | delay => exact hsilent (by simp [hpc, Pc.filling]) rfl trivial
    | startRead | refused | waits | leaves | sleeps | wakes =>
      exact hsilent (by simp [hpc, Pc.filling]) rfl hcall
  | returns hpc hret =>
    rw [hpc] at hcall
    cases hret with
    | wrote =>
      exact h.returns (by simp [hpc, Pc.filling]) rfl rfl (fun _ _ _ he => by cases he)
        fun _ _ he => by cases he
    | delivered n out =>
      exact h.returns (by simp [hpc, Pc.filling]) rfl rfl
        (fun _ _ _ he => by cases he; exact hcall) fun _ _ he => by cases he
    | failed ret =>
      exact h.returns (by simp [hpc, Pc.filling]) rfl rfl (fun _ _ _ he => by cases he)
        fun _ _ he => by cases he; exact hcall
  | startWrite hpc hwrite => exact h.start_write hpc hwrite (hfree (Or.inl ⟨hpc, hwrite⟩))
  | turn k hpc => exact h.write_turn hpc hsize
  | publish hpc => exact h.publish hpc
  | wake hpc => exact h.silent _ (by simp [hpc, Pc.filling]) (fun hin => by cases hin) trivial
  | enqueue hpc =>
    rw [hpc] at hcall
    exact h.silent _ (by simp [hpc, Pc.filling]) (fun hin => by cases hin) hcall
  | clear hpc => exact h.clear hpc
  | reset n out hpc => exact h.reset hpc

/-- **Conservation of messages.** In every interleaving of calls, of which the
writes are of at most 100 bytes, in which the sections of two calls never overlap
and no read faults, every message has one fate and the reads return exactly the
messages they took. -/
theorem messages_conserved (calls : ι → Op)
    (hsize : ∀ i, (calls i).isWrite = true → (calls i).size ≤ byteSize) {byte : ℤ → UInt8}
    {s : State ι} {trace : List (Event ι)}
    (hrun : Run (State.step calls) (Separate calls) (State.init byte) s trace) :
    Conserved calls trace := by
  refine (hrun.invariant (I := Inv calls) (inv_init calls byte) ?_).recorded.conserved
  intro s t a trace es h hok hstep
  cases a with
  | advance i => exact h.advance (hsize i) hok hstep
  | signal i =>
    obtain ⟨rfl, rfl⟩ := Prod.mk.inj (Option.some.inj hstep)
    rw [List.append_nil]
    exact ⟨h.exclusive, h.flag, h.emptying, h.holds, h.call, h.recorded⟩

/-- A call of each kind: one write of the byte 7, and reads of one byte. -/
def oneByteCalls (i : Fin 3) : Op :=
  if i = 0 then .write 1 fun _ => some 7 else .read 1 false fun _ => true

/-- One write and one read, run one after the other. -/
theorem messages_conserved_run :
    Conserved oneByteCalls [.published 0, .wrote 0 1, .cleared 1, .delivered 1 1 [7]] := by
  have hsize : ∀ i, (oneByteCalls i).isWrite = true → (oneByteCalls i).size ≤ byteSize := by decide
  let schedule : List (Label (Fin 3)) :=
    List.replicate 7 (Label.advance 0) ++ List.replicate 8 (Label.advance 1)
  obtain ⟨⟨s, trace⟩, hexec, rfl⟩ := Option.map_eq_some_iff.mp
    (show (exec (State.step oneByteCalls) (State.init fun _ => 0) schedule).map Prod.snd =
      some [.published 0, .wrote 0 1, .cleared 1, .delivered 1 1 [7]] by decide +kernel)
  exact messages_conserved oneByteCalls hsize (run_of_exec (by decide +kernel) hexec)

/-- Two reads pass the test of `havedata` before either clears it, and both return
the one message. -/
theorem message_delivered_twice :
    ¬ ∀ (calls : Fin 3 → Op) (s : State (Fin 3)) (trace : List (Event (Fin 3))),
      (∀ i, (calls i).isWrite = true → (calls i).size ≤ byteSize) →
      Run (State.step calls) anyLabel (State.init fun _ => 0) s trace → Conserved calls trace := by
  intro h
  let schedule : List (Label (Fin 3)) :=
    List.replicate 4 (Label.advance 0) ++ List.replicate 2 (Label.advance 1) ++
      List.replicate 6 (Label.advance 2) ++ List.replicate 6 (Label.advance 1) ++
        List.replicate 2 (Label.advance 2)
  obtain ⟨⟨s, trace⟩, hexec, rfl⟩ := Option.map_eq_some_iff.mp
    (show (exec (State.step oneByteCalls) (State.init fun _ => 0) schedule).map Prod.snd =
      some [.published 0, .cleared 2, .cleared 1, .delivered 1 1 [7], .delivered 2 1 [7]]
      by decide +kernel)
  have hconserved := h oneByteCalls s _ (by decide) (run_of_exec (meets_anyLabel _ _) hexec)
  obtain ⟨w, _, hdelivers⟩ := hconserved.delivered 1 1 [7] (by decide)
  have htaken : ∀ w, (1, w) ∉ (mailbox [.published (0 : Fin 3), .cleared 2, .cleared 1,
      .delivered 1 1 [7], .delivered 2 1 [7]]).taken := by decide
  exact htaken w hdelivers.taken

/-- One write of the byte 7, and a read of one byte into memory it cannot write. -/
def faultyCalls (i : Fin 2) : Op :=
  if i = 0 then .write 1 fun _ => some 7 else .read 1 false fun _ => false

/-- Even when the two calls run one after the other, a read that faults has taken
the message and returns nothing. -/
theorem message_erased_by_fault :
    ∃ s trace, exec (State.step faultyCalls) (State.init fun _ => 0)
        (List.replicate 7 (Label.advance 0) ++ List.replicate 5 (Label.advance 1)) =
          some (s, trace) ∧
      ¬ Conserved faultyCalls trace := by
  obtain ⟨⟨s, trace⟩, hexec, rfl⟩ := Option.map_eq_some_iff.mp
    (show (exec (State.step faultyCalls) (State.init fun _ => 0)
      (List.replicate 7 (Label.advance 0) ++ List.replicate 5 (Label.advance 1))).map Prod.snd =
        some [.published 0, .wrote 0 1, .cleared 1, .failed 1 (-EFAULT)] by decide +kernel)
  exact ⟨s, _, hexec, fun h => h.unerased 1 0 (-EFAULT) (by decide) (by decide)⟩

end LinuxDevNote.QueueWait
