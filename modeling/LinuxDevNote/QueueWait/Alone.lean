import LinuxDevNote.QueueWait.Interleaving

/-!
# A call that runs alone

The two views of the queue-wait driver agree: a call whose steps are not
interleaved with others has the effect of its handler as a whole.
-/

namespace LinuxDevNote.QueueWait

open Memory Kernel Execution

variable {ι : Type*} [DecidableEq ι] {calls : ι → Op} {s : State ι} {i : ι}

/-- Call `i` takes steps alone until it reaches `pc`: the globals become `d` and the
events are `es`. -/
def Reaches (calls : ι → Op) (i : ι) (s : State ι) (d : Device) (pc : Pc)
    (es : List (Event ι)) : Prop :=
  ∃ n t, exec (State.step calls) s (List.replicate n (.advance i)) = some (t, es) ∧
    t.toDevice = d ∧ t.pc i = pc

/-- One step, and then the others. -/
theorem Reaches.step {t : State ι} {es es' : List (Event ι)} {d : Device} {pc : Pc}
    (hstep : s.advance (calls i) i = some (t, es)) (h : Reaches calls i t d pc es') :
    Reaches calls i s d pc (es ++ es') := by
  obtain ⟨n, u, hexec, hd, hpc⟩ := h
  have hfirst : exec (State.step calls) s [.advance i] = some (t, es) := exec_singleton hstep
  exact ⟨n + 1, u, exec_append hfirst hexec, hd, hpc⟩

/-- The steps of the copy loop end with the array as `copyLoop` leaves it. -/
theorem reaches_of_writeLoop (turns : ℕ) {size k : ℕ} {buf : ℕ → Option UInt8} {d : Device}
    {pc : Pc} {es : List (Event ι)} (hop : calls i = .write size buf) (hsize : size ≤ MAX_RW_COUNT)
    (hpc : s.pc i = .writeLoop k) (hlen : s.buffLen = k) (hk : k ≤ size)
    (hturns : size < k + turns)
    (hrest : ∀ t : State ι, t.pc i = .writePublish →
      t.toDevice = ⟨(copyLoop size turns (fun j => buf (k + j)) s.toBuffer).1, s.havedata⟩ →
      Reaches calls i t d pc es) : Reaches calls i s d pc es := by
  unfold MAX_RW_COUNT at hsize
  induction turns generalizing s k with
  | zero => omega
  | succ turns ih =>
    obtain ⟨⟨b, go, touched⟩, hturn⟩ : ∃ r, copyTurn size (buf k) s.toBuffer = r := ⟨_, rfl⟩
    have hstep : s.advance (calls i) i = some ((s.setDevice ⟨b, s.havedata⟩).setPc i
        (if go then .writeLoop (k + 1) else .writePublish), []) := by
      simp [State.advance, hpc, hop, Op.size, Op.source, hturn]
    refine Reaches.step hstep ?_
    cases go with
    | false => exact hrest _ (by simp) (by simp [copyLoop, hturn])
    | true =>
      obtain ⟨hgo, hb⟩ := copyTurn_continues hturn
      rw [hlen, toSize_of_bounds (by omega) (by omega)] at hgo
      rw [hlen, toInt_of_bounds (by omega) (by omega)] at hb
      refine ih (k := k + 1) (by simp) hb (by omega) (by omega) fun t ht hd => hrest t ht ?_
      have hshift : (fun j => buf (k + 1 + j)) = fun j => buf (k + (j + 1)) := by
        funext j
        rw [Nat.add_assoc, Nat.add_comm 1]
      rw [hd, hshift]
      simp [copyLoop, hturn]

/-- **A write alone.** A write that is not interleaved with other calls publishes
once, returns what `example_write` returns, and leaves the globals as it does. -/
theorem write_alone {size : ℕ} {buf : ℕ → Option UInt8} (hop : calls i = .write size buf)
    (hsize : size ≤ MAX_RW_COUNT) (hpc : s.pc i = .start) :
    Reaches calls i s (exampleWrite s.toDevice size buf).device .done
      [.published i, .wrote i (exampleWrite s.toDevice size buf).ret] := by
  have hstart : s.advance (calls i) i = some ((s.setDevice
      ⟨{ s.toBuffer with buffLen := 0 }, s.havedata⟩).setPc i (.writeLoop 0), []) := by
    simp [State.advance, hpc, hop, Op.isWrite]
  refine Reaches.step hstart (reaches_of_writeLoop (size + 1) hop hsize (by simp) rfl
    (Nat.zero_le _) (by omega) fun t ht hd => ?_)
  let waking := (t.setDevice ⟨t.toBuffer, true⟩).setPc i .writeWake
  let delaying := { waking with woken := fun _ => true }.setPc i .writeDelay
  refine ⟨4, (delaying.setPc i .writeReturn).setPc i .done, ?_, ?_, by simp⟩
  · simp [exec, List.replicate_succ, State.step, State.advance, ht, waking, delaying, hd,
      exampleWrite]
  · simp [hd, exampleWrite, waking, delaying]

/-- **A read alone.** A read that is not interleaved with other calls, and need not
wait, leaves the globals as `example_read` does and returns what it returns. -/
theorem read_alone {size : ℕ} {nonblock : Bool} {writable : ℕ → Bool} {r : Result Device}
    (hop : calls i = .read size nonblock writable) (hpc : s.pc i = .start)
    (hr : exampleRead s.toDevice size nonblock writable = some r) :
    ∃ es, Reaches calls i s r.device .done es ∧
      (.delivered i r.ret r.out ∈ es ∨ .failed i r.ret ∈ es) := by
  let testing := s.setPc i .readTest
  simp only [exampleRead] at hr
  split at hr
  · rename_i hdata
    let copying := ((testing.setPc i .readClear).setDevice ⟨s.toBuffer, false⟩).setPc i .readCopy
    split at hr
    · rename_i hfault
      obtain rfl := Option.some.inj hr
      refine ⟨[.cleared i, .failed i (-EFAULT)], ⟨5,
        (copying.setPc i (.readFail (-EFAULT))).setPc i .done, ?_, rfl, by simp⟩, by simp⟩
      simp [exec, List.replicate_succ, State.step, State.advance, hpc, hop, Op.isWrite, testing,
        copying, hdata, Op.writable, Op.size, hfault]
    · rename_i hdone
      obtain rfl := Option.some.inj hr
      let out := (copyToUser writable (slice s.byte 0 size)).1
      let resetting := ((copying.setPc i (.readLog out)).setPc i (.readLength out)).setPc i
        (.readReset s.buffLen out)
      refine ⟨[.cleared i, .delivered i s.buffLen out], ⟨8, ((resetting.setDevice
        ⟨{ s.toBuffer with buffLen := 0 }, false⟩).setPc i (.readReturn s.buffLen out)).setPc i
          .done, ?_, rfl, by simp⟩, by simp [out]⟩
      rw [not_not] at hdone
      simp [exec, List.replicate_succ, State.step, State.advance, hpc, hop, Op.isWrite, testing,
        copying, resetting, hdata, Op.writable, Op.size, hdone, out]
  · rename_i hdata
    split at hr
    · rename_i hnonblock
      obtain rfl := Option.some.inj hr
      refine ⟨[.failed i (-EAGAIN)], ⟨3, (testing.setPc i (.readFail (-EAGAIN))).setPc i .done,
        ?_, rfl, by simp⟩, by simp⟩
      simp [exec, List.replicate_succ, State.step, State.advance, hpc, hop, Op.isWrite, testing,
        hdata, hnonblock, Op.nonblock]
    · cases hr

end LinuxDevNote.QueueWait
