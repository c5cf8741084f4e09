import LinuxDevNote.Library.CString
import LinuxDevNote.QueueWait.Alone
import LinuxDevNote.QueueWait.Conservation

/-!
# The programs of the queue-wait driver

`write.c` writes the string `1234`, and `read.c` prints the string that it reads. Nothing orders
the calls of several of them. With one writer every reader gets the message, however many
readers there are and however they overlap. With two writers this fails, although both write the
same bytes.
-/

namespace LinuxDevNote.QueueWait

open Memory Kernel CString Execution

variable {ι : Type*} {calls : ι → Op}

/-- A call may fail: it does not wait, or it may not write all bytes it asked for. -/
def Op.Refusable (op : Op) : Prop := op.nonblock = true ∨ ∃ k < op.size, op.writable k = false

/-- What is known about a call while the one write has not published. -/
def Before (calls : ι → Op) (d : Device) (i : ι) : Pc → Prop
  | .start | .readTest | .waitEnqueue | .waitTest | .waitSleep | .done => True
  | .writeLoop k => CallOk calls d [] i (.writeLoop k)
  | .writePublish => (calls i).isWrite = true ∧ CallOk calls d [] i .writePublish
  | .readFail _ => (calls i).Refusable
  | _ => False

/-- What is known about a call after the write `w` has published. -/
def After (calls : ι → Op) (w i : ι) : Pc → Prop
  | .start => (calls i).isWrite = false
  | .writeLoop _ | .writePublish => False
  | .readLog out | .readLength out | .readReset _ out | .readReturn _ out =>
    out.take (message calls w).length = (message calls w).take (calls i).size
  | .readFail _ => (calls i).Refusable
  | _ => True

/-- What holds when there is only one write. -/
inductive Phase (calls : ι → Op) (s : State ι) : Prop
  | before : s.havedata = false → (∀ i, Before calls s.toDevice i (s.pc i)) → Phase calls s
  | after (w : ι) : (calls w).isWrite = true →
    slice s.byte 0 (message calls w).length = message calls w →
    (∀ i, After calls w i (s.pc i)) → Phase calls s

/-- A read returns the message of a write, as far as it asked for it, or had a reason to fail. -/
def Event.Genuine (calls : ι → Op) : Event ι → Prop
  | .delivered r _ out => ∃ w, (calls w).isWrite = true ∧
      out.take (message calls w).length = (message calls w).take (calls r).size
  | .failed r _ => (calls r).Refusable
  | _ => True

/-- Nobody has published. -/
theorem phase_init (calls : ι → Op) (byte : ℤ → UInt8) : Phase calls (State.init byte) :=
  .before rfl fun _ => trivial

/-- A call that is not writing sees nothing of the globals. -/
theorem Before.frame {d d' : Device} {i : ι} {pc : Pc} (h : Before calls d i pc)
    (hd : d' = d ∨ (calls i).isWrite = false) : Before calls d' i pc := by
  rcases hd with rfl | hread
  · exact h
  · cases pc with
    | writeLoop k => exact absurd h.2.1 (by simp [hread])
    | writePublish => exact absurd h.1 (by simp [hread])
    | _ => exact h

/-- A call that has not published is after the publication of another one where it was. -/
theorem Before.after {d : Device} {w i : ι} {pc : Pc} (h : Before calls d i pc)
    (hread : (calls i).isWrite = false) : After calls w i pc := by
  cases pc with
  | start => exact hread
  | writeLoop k => exact absurd h.2.1 (by simp [hread])
  | writePublish => exact absurd h.1 (by simp [hread])
  | readFail ret => exact h
  | readTest | waitEnqueue | waitTest | waitSleep | done => trivial
  | _ => exact h.elim

/-- The bytes that a read copies are those of the message. -/
theorem take_copied {byte : ℤ → UInt8} {w : ι} {op : Op}
    (hbyte : slice byte 0 (message calls w).length = message calls w)
    (hcopied : (copyToUser op.writable (slice byte 0 op.size)).2 = 0) :
    (copyToUser op.writable (slice byte 0 op.size)).1.take (message calls w).length =
      (message calls w).take op.size := by
  have hmessage := congrArg (List.take op.size) hbyte
  rw [copyToUser_fst_of_success hcopied, ← hmessage, slice_take, slice_take, min_comm]

/-- A copy that fails had a reason to. -/
theorem refusable_of_fault {byte : ℤ → UInt8} {op : Op}
    (h : (copyToUser op.writable (slice byte 0 op.size)).2 ≠ 0) : op.Refusable := by
  rw [Ne, copyToUser_snd_eq_zero, slice_length] at h
  push Not at h
  obtain ⟨k, hk, hfault⟩ := h
  exact Or.inr ⟨k, hk, by simpa using hfault⟩

variable [DecidableEq ι] {s t : State ι} {i : ι} {es : List (Event ι)}

/-- What is known about the others, when one call moved. -/
theorem forall_update {P : ι → Pc → Prop} {pcs : ι → Pc} {pc : Pc} (hpc : P i pc)
    (h : ∀ j, j ≠ i → P j (pcs j)) : ∀ j, P j (Function.update pcs i pc j) := by
  intro j
  by_cases hj : j = i
  · subst hj
    rwa [Function.update_self]
  · rw [Function.update_of_ne hj]
    exact h j hj

/-- A step before the write has published. -/
theorem Phase.advance_before (hdata : s.havedata = false)
    (hcalls : ∀ j, Before calls s.toDevice j (s.pc j))
    (honly : ∀ i j, (calls i).isWrite = true → (calls j).isWrite = true → i = j)
    (hsize : ∀ i, (calls i).isWrite = true → (calls i).size ≤ byteSize)
    (hstep : s.advance (calls i) i = some (t, es)) :
    Phase calls t ∧ ∀ e ∈ es, e.Genuine calls := by
  have hi := hcalls i
  have hothers : (calls i).isWrite = true → ∀ j, j ≠ i → (calls j).isWrite = false :=
    fun hwrite j hj => by
      by_contra hwrite'
      exact hj (honly j i (by simpa using hwrite') hwrite)
  cases State.advances hstep with
  | moves hpc hmove =>
    rw [hpc] at hi
    refine ⟨.before hdata (forall_update ?_ fun j _ => hcalls j), by simp⟩
    cases hmove with
    | startRead | waits | leaves | sleeps | wakes => trivial
    | found hfound => cases hdata.symm.trans hfound
    | refused _ hnonblock => exact Or.inl hnonblock
    | delay | faults | copies | logs | loads => exact hi.elim
  | returns hpc hreturn =>
    rw [hpc] at hi
    cases hreturn with
    | wrote | delivered => exact hi.elim
    | failed ret =>
      refine ⟨.before hdata (forall_update trivial fun j _ => hcalls j), ?_⟩
      rw [List.forall_mem_singleton]
      exact hi
  | startWrite hpc hwrite =>
    refine ⟨.before hdata (forall_update ?_ fun j hj => ?_), by simp⟩
    · exact ⟨by simp [Fresh], hwrite, Nat.zero_le _, rfl, rfl, rfl⟩
    · exact (hcalls j).frame (Or.inr (hothers hwrite j hj))
  | turn k hpc =>
    rw [hpc] at hi
    have hwrite := hi.2.1
    refine ⟨.before hdata (forall_update ?_ fun j hj => ?_), by simp⟩
    · have hturn := hi.turn (hsize i)
      split_ifs at hturn ⊢
      · exact hturn
      · exact ⟨hwrite, hturn⟩
    · exact (hcalls j).frame (Or.inr (hothers hwrite j hj))
  | publish hpc =>
    rw [hpc] at hi
    obtain ⟨hwrite, _, hholds⟩ := hi
    refine ⟨.after i hwrite hholds.2 (forall_update trivial fun j hj => ?_),
      by simp [Event.Genuine]⟩
    exact (hcalls j).after (hothers hwrite j hj)
  | enqueue hpc => exact ⟨.before hdata (forall_update trivial fun j _ => hcalls j), by simp⟩
  | wake hpc | clear hpc | reset n out hpc =>
    rw [hpc] at hi
    exact hi.elim

/-- A step after the write has published. -/
theorem Phase.advance_after {w : ι} (hw : (calls w).isWrite = true)
    (hbyte : slice s.byte 0 (message calls w).length = message calls w)
    (hcalls : ∀ j, After calls w j (s.pc j)) (hstep : s.advance (calls i) i = some (t, es)) :
    Phase calls t ∧ ∀ e ∈ es, e.Genuine calls := by
  have hi := hcalls i
  cases State.advances hstep with
  | moves hpc hmove =>
    rw [hpc] at hi
    refine ⟨.after w hw hbyte (forall_update ?_ fun j _ => hcalls j), by simp⟩
    cases hmove with
    | startRead | delay | found | waits | leaves | sleeps | wakes => trivial
    | refused _ hnonblock => exact Or.inl hnonblock
    | faults hfault => exact refusable_of_fault hfault
    | copies hcopied => exact take_copied hbyte hcopied
    | logs | loads => exact hi
  | returns hpc hreturn =>
    rw [hpc] at hi
    refine ⟨.after w hw hbyte (forall_update trivial fun j _ => hcalls j), ?_⟩
    rw [List.forall_mem_singleton]
    cases hreturn with
    | wrote => trivial
    | delivered n out => exact ⟨w, hw, hi⟩
    | failed ret => exact hi
  | startWrite hpc hwrite =>
    rw [hpc] at hi
    cases hi.symm.trans hwrite
  | turn k hpc | publish hpc =>
    rw [hpc] at hi
    exact hi.elim
  | wake hpc | enqueue hpc =>
    exact ⟨.after w hw hbyte (forall_update trivial fun j _ => hcalls j), by simp⟩
  | clear hpc =>
    exact ⟨.after w hw hbyte (forall_update trivial fun j _ => hcalls j), by simp [Event.Genuine]⟩
  | reset n out hpc =>
    rw [hpc] at hi
    exact ⟨.after w hw hbyte (forall_update hi fun j _ => hcalls j), by simp⟩

/-- **One write.** With one write, of at most 100 bytes, every read gets its message, whatever the
other reads do to `havedata` and `buff_len` at the same time. -/
theorem genuine_of_one_write {byte : ℤ → UInt8} {trace : List (Event ι)} {as : List (Label ι)}
    (honly : ∀ i j, (calls i).isWrite = true → (calls j).isWrite = true → i = j)
    (hsize : ∀ i, (calls i).isWrite = true → (calls i).size ≤ byteSize)
    (hexec : exec (State.step calls) (State.init byte) as = some (s, trace)) :
    ∀ e ∈ trace, e.Genuine calls := by
  refine ((run_of_exec (meets_anyLabel _ _) hexec).invariant
    (I := fun s trace => Phase calls s ∧ ∀ e ∈ trace, e.Genuine calls)
    ⟨phase_init calls byte, by simp⟩ ?_).2
  intro s t a trace es ⟨hphase, htrace⟩ _ hstep
  have hnext : Phase calls t ∧ ∀ e ∈ es, e.Genuine calls := by
    cases a with
    | advance i =>
      cases hphase with
      | before hdata hcalls => exact Phase.advance_before hdata hcalls honly hsize hstep
      | after w hw hbyte hcalls => exact Phase.advance_after hw hbyte hcalls hstep
    | signal i =>
      obtain ⟨rfl, rfl⟩ := Prod.mk.inj (Option.some.inj hstep)
      refine ⟨?_, by simp⟩
      cases hphase with
      | before hdata hcalls => exact .before hdata hcalls
      | after w hw hbyte hcalls => exact .after w hw hbyte hcalls
  refine ⟨hnext.1, fun e he => ?_⟩
  rcases List.mem_append.mp he with he | he
  · exact htrace e he
  · exact hnext.2 e he

/-- The statements of a write. -/
def Pc.ofWrite : Pc → Bool
  | .start | .writeLoop _ | .writePublish | .writeWake | .writeDelay | .writeReturn | .done => true
  | _ => false

/-- What a read returns is returned by a read. -/
def Event.FromRead (calls : ι → Op) : Event ι → Prop
  | .delivered r _ _ | .failed r _ => (calls r).isWrite = false
  | _ => True

/-- A write stays among its statements. -/
theorem State.advance_ofWrite {op : Op} (hwrite : op.isWrite = true)
    (hpc : (s.pc i).ofWrite = true) (hstep : s.advance op i = some (t, es)) :
    (t.pc i).ofWrite = true := by
  cases State.advances hstep with
  | moves hold hmove =>
    rw [hold] at hpc
    rw [State.setPc_self]
    cases hmove with
    | startRead hread => cases hread.symm.trans hwrite
    | delay => rfl
    | _ => exact hpc
  | turn k =>
    rw [State.setPc_self]
    split_ifs <;> rfl
  | clear hold | enqueue hold | reset n out hold =>
    rw [hold] at hpc
    cases hpc
  | returns | startWrite | publish | wake => rw [State.setPc_self]; rfl

/-- In every run the data and the errors of reads are returned by reads. -/
theorem fromRead_of_exec {byte : ℤ → UInt8} {trace : List (Event ι)} {as : List (Label ι)}
    (hexec : exec (State.step calls) (State.init byte) as = some (s, trace)) :
    ∀ e ∈ trace, e.FromRead calls := by
  refine ((run_of_exec (meets_anyLabel _ _) hexec).invariant
    (I := fun s trace => (∀ i, (calls i).isWrite = true → (s.pc i).ofWrite = true) ∧
      ∀ e ∈ trace, e.FromRead calls) ⟨fun _ _ => rfl, by simp⟩ ?_).2
  intro s t a trace es ⟨hpcs, htrace⟩ _ hstep
  cases a with
  | signal i =>
    obtain ⟨rfl, rfl⟩ := Prod.mk.inj (Option.some.inj hstep)
    exact ⟨hpcs, by simpa using htrace⟩
  | advance i =>
    refine ⟨fun j hj => ?_, fun e he => ?_⟩
    · by_cases hji : j = i
      · subst hji
        exact State.advance_ofWrite hj (hpcs j hj) hstep
      · rw [State.advance_pc_of_ne hstep hji]
        exact hpcs j hj
    · rcases List.mem_append.mp he with he | he
      · exact htrace e he
      · have hread : (s.pc i).ofWrite = false → (calls i).isWrite = false := fun hnot => by
          by_contra hwrite
          cases hnot.symm.trans (hpcs i (by simpa using hwrite))
        cases State.advances hstep with
        | moves | startWrite | turn | wake | enqueue | reset => cases he
        | publish | clear =>
          obtain rfl := List.mem_singleton.mp he
          trivial
        | returns hpc hreturn =>
          obtain rfl := List.mem_singleton.mp he
          rw [hpc] at hread
          cases hreturn with
          | wrote => trivial
          | delivered | failed => exact hread rfl

/-- `write.c` or `read.c`. -/
inductive Program
  | write
  | read
  deriving DecidableEq

/-- `char num[10]="1234"` of `write.c`; that of `read.c` is as long. -/
def num : List UInt8 := [49, 50, 51, 52, 0, 0, 0, 0, 0, 0]

/-- `5*sizeof(char)`. -/
def numSize : ℕ := 5

/-- The call that a program makes on the device, opened without `O_NONBLOCK`. -/
def Program.call : Program → Op
  | .write => .write numSize fun k => num[k]?
  | .read => .read numSize false fun k => decide (k < num.length)

/-- Which program writes. -/
theorem Program.call_isWrite {p : Program} : p.call.isWrite = true ↔ p = .write := by
  cases p <;> simp [Program.call, Op.isWrite]

/-- A reader waits for data, and its array is large enough. -/
theorem Program.not_refusable : ¬ Program.read.call.Refusable := by
  rintro (hnonblock | ⟨k, hk, hfault⟩)
  · cases hnonblock
  · have hlt : k < numSize := hk
    have hge : ¬ k < num.length := of_decide_eq_false hfault
    exact hge (lt_trans hlt (by decide))

omit [DecidableEq ι] in
/-- The message of `write.c`. -/
theorem message_write {w : ι} (hw : calls w = Program.write.call) :
    message calls w = num.take 4 ++ [0] := by
  rw [message, hw]
  decide

/-- Whatever a reader had in its array, it prints `1234`, and it does not fail. -/
def Event.Prints : Event ι → Prop
  | .delivered _ _ out => ∀ rest, cString (out ++ rest) = some (num.take 4)
  | .failed _ _ => False
  | _ => True

/-- Some steps take call `i` to a statement and make the globals `d`; nothing else changes. -/
def Leads (calls : ι → Op) (i : ι) (s : State ι) (d : Device) (pc : Pc) (es : List (Event ι)) :
    Prop :=
  ∃ as, exec (State.step calls) s as = some ((s.setDevice d).setPc i pc, es)

/-- Some steps and then some more. -/
theorem Leads.trans {d d' : Device} {pc pc' : Pc} {es es' : List (Event ι)}
    (h : Leads calls i s d pc es)
    (h' : Leads calls i ((s.setDevice d).setPc i pc) d' pc' es') :
    Leads calls i s d' pc' (es ++ es') := by
  obtain ⟨as, hfirst⟩ := h
  obtain ⟨bs, hrest⟩ := h'
  refine ⟨as ++ bs, (exec_append hfirst hrest).trans ?_⟩
  simp [State.setPc, State.setDevice]

/-- A write starts. -/
theorem leads_start (hpc : s.pc i = .start) (hwrite : (calls i).isWrite = true) :
    Leads calls i s ⟨⟨s.byte, 0⟩, s.havedata⟩ (.writeLoop 0) [] :=
  ⟨[.advance i], exec_singleton (by simp only [State.step, State.advance, hpc, hwrite, if_true])⟩

/-- The turns of the copy loop of a write, wherever `buff_len` is below the size. -/
theorem leads_turns {size : ℕ} {buf : ℕ → Option UInt8} {cells : List UInt8} {k b : ℕ}
    (hop : calls i = .write size buf) (hpc : s.pc i = .writeLoop k) (hlen : s.buffLen = b)
    (hfits : b + cells.length ≤ size) (hsize : size ≤ byteSize)
    (hcells : ∀ m, (h : m < cells.length) → buf (k + m) = some cells[m]) :
    Leads calls i s ⟨⟨splice s.byte b cells, (b + cells.length : ℕ)⟩, s.havedata⟩
      (.writeLoop (k + cells.length)) [] := by
  unfold byteSize at hsize
  induction cells generalizing s k b with
  | nil => exact ⟨[], by simp [exec, State.setPc, State.setDevice, ← hlen, ← hpc]⟩
  | cons x cells ih =>
    rw [List.length_cons] at hfits
    have hturn : copyTurn size (buf k) s.toBuffer =
        (⟨Function.update s.byte b x, (b + 1 : ℕ)⟩, true, [(b : ℤ)]) := by
      have hx : buf k = some x := hcells 0 (by simp)
      have htest : toSize (b : ℤ) < size := by
        rw [toSize_of_bounds (by omega) (by omega)]
        omega
      have hnext : toInt ((b : ℤ) + 1) = ((b + 1 : ℕ) : ℤ) := by
        rw [toInt_of_bounds (by omega) (by omega)]
        omega
      simp only [copyTurn, hlen, if_pos htest, hx, copyFromUserByte, hnext, ne_eq,
        not_true_eq_false, if_false]
    have hfirst : Leads calls i s ⟨⟨Function.update s.byte b x, (b + 1 : ℕ)⟩, s.havedata⟩
        (.writeLoop (k + 1)) [] :=
      ⟨[.advance i], exec_singleton (by
        simp only [State.step, State.advance, hpc, hop, Op.size, Op.source, hturn, if_true])⟩
    have hrest := ih (s := (s.setDevice ⟨⟨Function.update s.byte b x, (b + 1 : ℕ)⟩,
      s.havedata⟩).setPc i (.writeLoop (k + 1))) (State.setPc_self _ _ _) rfl (by omega)
      fun m hm => by
        rw [Nat.add_right_comm, Nat.add_assoc]
        exact hcells (m + 1) (by simpa using hm)
    have hboth := hfirst.trans hrest
    have hcell : splice (Function.update s.byte b x) ((b + 1 : ℕ) : ℤ) cells =
        splice s.byte b (x :: cells) := by
      rw [← List.singleton_append, splice_append, splice_singleton]
      rfl
    rw [List.length_cons, ← hcell, Nat.add_comm cells.length, ← Nat.add_assoc, ← Nat.add_assoc]
    exact hboth

/-- A write whose copy loop has reached the size publishes. -/
theorem leads_publish {size k : ℕ} {buf : ℕ → Option UInt8} (hop : calls i = .write size buf)
    (hpc : s.pc i = .writeLoop k) (hlen : s.buffLen = size) (hsize : size ≤ byteSize) :
    Leads calls i s ⟨s.toBuffer, true⟩ .writeWake [.published i] := by
  unfold byteSize at hsize
  have htest : ¬ toSize (size : ℤ) < size := by
    rw [toSize_of_bounds (by omega) (by omega)]
    omega
  have hstop : Leads calls i s s.toDevice .writePublish [] :=
    ⟨[.advance i], exec_singleton (by
      simp [State.step, State.advance, hpc, hop, Op.size, copyTurn, hlen, htest])⟩
  exact hstop.trans ⟨[.advance i], exec_singleton (by
    simp [State.step, State.advance, State.setDevice, State.setPc])⟩

/-- A read that finds a message takes it. -/
theorem leads_read {size : ℕ} {nonblock : Bool} {writable : ℕ → Bool}
    (hop : calls i = .read size nonblock writable) (hpc : s.pc i = .start)
    (hdata : s.havedata = true) (hwritable : ∀ k < size, writable k = true) :
    Leads calls i s ⟨⟨s.byte, 0⟩, false⟩ .done
      [.cleared i, .delivered i s.buffLen (slice s.byte 0 size)] := by
  have hcopied : copyToUser writable (slice s.byte 0 size) = (slice s.byte 0 size, 0) :=
    copyToUser_of_writable (by simpa using hwritable)
  have htake : Leads calls i s ⟨s.toBuffer, false⟩ .readCopy [.cleared i] :=
    ⟨List.replicate 3 (.advance i), by
      simp [exec, List.replicate_succ, State.step, State.advance, hpc, hop, Op.isWrite, hdata,
        State.setPc, State.setDevice]⟩
  exact htake.trans ⟨List.replicate 5 (.advance i), by
    simp [exec, List.replicate_succ, State.step, State.advance, hop, Op.writable, Op.size,
      State.setPc, State.setDevice, hcopied]⟩

/-- What two writers may leave in the array. -/
def mixed : List UInt8 := [50, 51, 52, 0, 0]

/-- While one writer is filling the array another one sets `buff_len` back to 0, and the first
goes on with its second byte from there: a reader gets `234`. -/
theorem exists_mixed {w v r : ι} (hw : calls w = Program.write.call)
    (hv : calls v = Program.write.call) (hr : calls r = Program.read.call) (hne : v ≠ w)
    (byte : ℤ → UInt8) :
    ∃ as s trace n, exec (State.step calls) (State.init byte) as = some (s, trace) ∧
      .delivered r n mixed ∈ trace := by
  have hread : ∀ i, calls i = Program.write.call → r ≠ i := by
    rintro i hi rfl
    cases hr.symm.trans hi
  -- the first writer starts and stores one byte
  have hstart : Leads calls w (State.init byte) ⟨⟨byte, 0⟩, false⟩ (.writeLoop 0) [] :=
    leads_start rfl (by rw [hw]; rfl)
  have hone : Leads calls w (State.init byte) ⟨⟨splice byte 0 [49], 1⟩, false⟩ (.writeLoop 1) [] :=
    hstart.trans (leads_turns hw (State.setPc_self _ _ _) rfl (by decide) (by decide) (by decide))
  obtain ⟨as, has⟩ := hone
  obtain ⟨s, hs⟩ : ∃ s, s = ((State.init byte).setDevice ⟨⟨splice byte 0 [49], 1⟩, false⟩).setPc w
    (.writeLoop 1) := ⟨_, rfl⟩
  have hsv : s.pc v = .start := by rw [hs]; exact Function.update_of_ne hne _ _
  have hsr : s.pc r = .start := by rw [hs]; exact Function.update_of_ne (hread w hw) _ _
  have hsw : s.pc w = .writeLoop 1 := by rw [hs, State.setPc_self]
  rw [← hs] at has
  clear hs
  -- the second one starts
  obtain ⟨bs, hbs⟩ : Leads calls v s ⟨⟨s.byte, 0⟩, s.havedata⟩ (.writeLoop 0) [] :=
    leads_start hsv (by rw [hv]; rfl)
  obtain ⟨t, ht⟩ : ∃ t, t = (s.setDevice ⟨⟨s.byte, 0⟩, s.havedata⟩).setPc v (.writeLoop 0) :=
    ⟨_, rfl⟩
  have htlen : t.buffLen = 0 := by rw [ht]; rfl
  have htr : t.pc r = .start := by rw [ht]; exact (Function.update_of_ne (hread v hv) _ _).trans hsr
  have htw : t.pc w = .writeLoop 1 := by
    rw [ht]
    exact (Function.update_of_ne hne.symm _ _).trans hsw
  rw [← ht] at hbs
  clear ht
  -- the first one goes on and publishes
  have hturns : Leads calls w t ⟨⟨splice t.byte 0 mixed, 5⟩, t.havedata⟩ (.writeLoop 6) [] :=
    leads_turns hw htw htlen (by decide) (by decide) (by decide)
  obtain ⟨cs, hcs⟩ : Leads calls w t ⟨⟨splice t.byte 0 mixed, 5⟩, true⟩ .writeWake [.published w] :=
    hturns.trans (leads_publish hw (State.setPc_self _ _ _) rfl (by decide))
  have hback : slice (splice t.byte 0 mixed) 0 numSize = mixed := slice_splice _ _ _
  obtain ⟨ds, hds⟩ := leads_read hr (s := (t.setDevice
    ⟨⟨splice t.byte 0 mixed, 5⟩, true⟩).setPc w .writeWake)
    ((Function.update_of_ne (hread w hw) _ _).trans htr) rfl (by decide)
  refine ⟨_, _, _, 5, exec_append (exec_append (exec_append has hbs) hcs) hds, ?_⟩
  exact List.mem_append_right _ (List.mem_cons_of_mem _
    (List.mem_singleton.mpr (congrArg (Event.delivered r 5) hback.symm)))

/-- **The programs.** Every `read.c` that ends has printed `1234`, in every interleaving and
whatever signals arrive, exactly when no two `write.c` take part, or there is nobody to read. -/
theorem programs_print_iff (programs : ι → Program) (byte : ℤ → UInt8) :
    (∀ as s trace, exec (State.step fun i => (programs i).call) (State.init byte) as =
        some (s, trace) → ∀ e ∈ trace, e.Prints) ↔
      (∀ i, programs i ≠ .read) ∨
        ∀ i j, programs i = .write → programs j = .write → i = j := by
  constructor
  · intro h
    by_contra hnot
    push Not at hnot
    obtain ⟨⟨r, hr⟩, w, v, hw, hv, hne⟩ := hnot
    obtain ⟨as, s, trace, n, hexec, hmem⟩ : ∃ as s trace n,
        exec (State.step fun i => (programs i).call) (State.init byte) as = some (s, trace) ∧
          .delivered r n mixed ∈ trace :=
      @exists_mixed ι (fun i => (programs i).call) _ w v r (congrArg Program.call hw)
        (congrArg Program.call hv) (congrArg Program.call hr) hne.symm byte
    exact absurd (h as s trace hexec _ hmem []) (by decide)
  · intro hfew as s trace hexec e he
    have hread : ∀ r, (programs r).call.isWrite = false → programs r = .read := fun r h => by
      cases hr : programs r with
      | write => rw [hr] at h; cases h
      | read => rfl
    have hfrom := fromRead_of_exec hexec e he
    have hgenuine : ∀ r, programs r = .read → e.Genuine fun i => (programs i).call := by
      intro r hr
      have honly := hfew.resolve_left fun hnone => hnone r hr
      refine genuine_of_one_write (fun i j hi hj => ?_) (fun i hi => ?_) hexec e he
      · exact honly i j (Program.call_isWrite.mp hi) (Program.call_isWrite.mp hj)
      · rw [Program.call_isWrite.mp hi]
        decide
    cases e with
    | published | cleared | wrote => trivial
    | failed r ret =>
      have hr := hread r hfrom
      have hrefused : (programs r).call.Refusable := hgenuine r hr
      rw [hr] at hrefused
      exact Program.not_refusable hrefused
    | delivered r n out =>
      have hr := hread r hfrom
      obtain ⟨w, hw, htake⟩ := hgenuine r hr
      have hmessage : message (fun i => (programs i).call) w = num.take 4 ++ [0] :=
        message_write (congrArg Program.call (Program.call_isWrite.mp hw))
      have hfive : out.take 5 = num.take 4 ++ [0] := by
        rw [hmessage] at htake
        dsimp only at htake
        rwa [hr] at htake
      intro rest
      have hout : out = num.take 4 ++ 0 :: out.drop 5 :=
        calc
          out = out.take 5 ++ out.drop 5 := (List.take_append_drop 5 out).symm
          _ = num.take 4 ++ 0 :: out.drop 5 := by
            rw [hfive, List.append_assoc, List.singleton_append]
      rw [hout, List.append_assoc, List.cons_append]
      exact cString_append (by decide) _

end LinuxDevNote.QueueWait
