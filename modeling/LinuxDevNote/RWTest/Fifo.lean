import Mathlib.Data.List.Infix
import LinuxDevNote.Library.Conservation
import LinuxDevNote.RWTest.Driver

/-!
# The read-write test driver as a byte queue

What the device is for: the bytes written come back in order, and a read that
reports the end of the data has delivered them all. `buff_len` is the end of the
data after a write but the amount left after a read, so a write while the array is
partly read makes the driver count the bytes already delivered again. The queue
law holds in every run without such a write, and fails in every run with one that
goes on to the end of the data.
-/

namespace LinuxDevNote.RWTest

open Memory Kernel Execution Conservation

/-- The bytes a call put in. -/
def Call.written (c : Call) : List UInt8 :=
  match c.op with
  | .write size buf => readable buf size
  | .read _ _ => []

/-- The bytes a call returned. -/
def Call.returned (c : Call) : List UInt8 :=
  match c.op with
  | .write _ _ => []
  | .read _ _ => c.result.out

/-- A read of a positive size that returned 0. -/
def Call.endOfData (c : Call) : Bool :=
  match c.op with
  | .write _ _ => false
  | .read size _ => decide (0 < size ∧ c.result.ret = 0)

/-- The number of bytes written since the last end of data. -/
def sinceEnd (calls : List Call) : ℕ :=
  calls.foldl (fun n c => if c.endOfData then 0 else n + c.written.length) 0

/-- The byte-queue law: what was returned is an initial part of what was written,
and all of it at every end of data. -/
def Fifo (calls : List Call) : Prop :=
  calls.flatMap Call.returned <+: calls.flatMap Call.written ∧
    ∀ before c, before ++ [c] <+: calls → c.endOfData = true →
      (before ++ [c]).flatMap Call.returned = (before ++ [c]).flatMap Call.written

/-- The last call was an end of data. -/
def EndsDrained (calls : List Call) : Prop := ∃ c, calls.getLast? = some c ∧ c.endOfData = true

/-- No byte of the caller faults. -/
def Op.Faultless : Op → Prop
  | .write size buf => ∀ k < size, (buf k).isSome = true
  | .read size writable => ∀ k < size, writable k = true

/-- What the callers promise: no faults, and never more than 100 bytes written
since the last end of data. -/
structure Assumed (calls : List Call) : Prop where
  /-- No call faults. -/
  faultless : ∀ c ∈ calls, c.op.Faultless
  /-- At every point at most 100 bytes were written since the last end of data. -/
  limited : ∀ before, before <+: calls → sinceEnd before ≤ byteSize

/-- A write starts on data of which nothing was read. -/
def Op.AtStart (s : Device) : Op → Prop
  | .write _ _ => s.postion = 0
  | .read _ _ => True

/-- The promises about a run cover each of its calls. -/
theorem Assumed.faultless_of_step {s t : Device} {op : Op} {calls es : List Call}
    (h : Assumed (calls ++ es)) (hstep : s.step op = some (t, es)) : op.Faultless := by
  obtain ⟨_, _, rfl⟩ := Device.step_eq_some.mp hstep
  exact h.faultless ⟨op, op.result s⟩ (by simp)

/-- One more call in the count since the last end of data. -/
theorem sinceEnd_append (calls : List Call) (c : Call) :
    sinceEnd (calls ++ [c]) = if c.endOfData then 0 else sinceEnd calls + c.written.length := by
  simp [sinceEnd]

/-- Whether the last call was an end of data. -/
theorem endsDrained_append (calls : List Call) (c : Call) :
    EndsDrained (calls ++ [c]) ↔ c.endOfData = true := by
  simp [EndsDrained]

/-- The three things a faultless call can do: append bytes at `buff_pos`, reset the
positions at the end of the data, or return the next bytes. -/
theorem step_cases {s t : Device} {op : Op} {calls : List Call} (hs : s.CountersInBounds)
    (hfault : op.Faultless) (hstep : s.step op = some (t, calls)) :
    ∃ c, calls = [c] ∧ c.op = op ∧
      ((c.returned = [] ∧ c.endOfData = false ∧ (op.AtStart s ↔ s.postion = 0) ∧
          t = ⟨⟨splice s.byte s.buffPos c.written, s.buffPos + c.written.length⟩, s.postion,
            s.buffPos + c.written.length⟩) ∨
        (c.written = [] ∧ c.returned = [] ∧ c.endOfData = true ∧ op.AtStart s ∧ s.buffLen = 0 ∧
          t = { s with buffPos := 0, postion := 0 }) ∨
        ∃ size : ℕ, c.written = [] ∧ c.endOfData = false ∧ op.AtStart s ∧ size ≤ MAX_RW_COUNT ∧
          (s.buffLen ≠ 0 ∨ size = 0) ∧
          c.returned = slice s.byte s.postion (min s.buffLen.toNat size) ∧
          t = ⟨⟨s.byte, s.buffLen - min s.buffLen.toNat size⟩, toInt (s.postion + size),
            s.buffPos⟩) := by
  obtain ⟨hsize, rfl, rfl⟩ := Device.step_eq_some.mp hstep
  refine ⟨_, rfl, rfl, ?_⟩
  cases op with
  | write size buf =>
    refine Or.inl ⟨rfl, rfl, Iff.rfl, ?_⟩
    have hwrite : exampleWrite s size buf = _ := exampleWrite_eq buf hs hsize
    rw [Op.result, hwrite, (stored_of_readable hfault).1]
    rfl
  | read size writable =>
    by_cases hempty : s.buffLen = 0 ∧ 0 < size
    · have hread := exampleRead_of_empty writable hempty.1 hempty.2
      refine Or.inr (Or.inl ⟨rfl, ?_, ?_, trivial, hempty.1, ?_⟩)
      · simp [Call.returned, Op.result, hread]
      · simp [Call.endOfData, Op.result, hread, hempty.2]
      · simp [Op.result, hread]
    · have hdata : s.buffLen ≠ 0 ∨ size = 0 := by omega
      have hlo := hs.len_nonneg
      have hcopy : (copyToUser writable (slice s.byte s.postion (readLength s size))).2 = 0 := by
        rw [copyToUser_snd_eq_zero, slice_length, readLength_eq size hs]
        exact fun i hi => hfault i (by omega)
      have hread := exampleRead_of_data writable hs hdata
      rw [if_pos hcopy, readLength_eq size hs] at hread
      refine Or.inr (Or.inr ⟨size, rfl, ?_, trivial, hsize, hdata, ?_, ?_⟩)
      · simp only [Call.endOfData, Op.result, hread, decide_eq_false_iff_not]
        omega
      · simp [Call.returned, Op.result, hread]
      · simp [Op.result, hread]

/-- The counters in every run that keeps the promises: `buff_pos` counts the bytes
written since the last end of data, and `buff_len` never exceeds it. -/
structure Counted (s : Device) (calls : List Call) : Prop where
  /-- Both are within the array. -/
  counters : s.CountersInBounds
  /-- `buff_pos` counts the bytes since the last end of data. -/
  since : s.buffPos = sinceEnd calls
  /-- `buff_len` is at most `buff_pos`. -/
  len_le : s.buffLen ≤ s.buffPos
  /-- At an end of data nothing is left. -/
  empty : EndsDrained calls → s.buffLen = 0

/-- The counters are right at the start. -/
theorem counted_init (byte : ℤ → UInt8) : Counted (Device.init byte) [] :=
  ⟨Device.init_counters byte, rfl, le_rfl, fun _ => rfl⟩

/-- Every call keeps the counters right. -/
theorem Counted.step {s t : Device} {op : Op} {calls es : List Call} (h : Counted s calls)
    (hassumed : Assumed (calls ++ es)) (hstep : s.step op = some (t, es)) :
    Counted t (calls ++ es) := by
  have hfault := hassumed.faultless_of_step hstep
  have hroom := hassumed.limited _ (List.prefix_refl _)
  obtain ⟨hcounters, hsince, hlen, _⟩ := h
  have hlo := hcounters.len_nonneg
  obtain ⟨c, rfl, _, hcase⟩ := step_cases hcounters hfault hstep
  rw [sinceEnd_append] at hroom
  rcases hcase with ⟨_, hend, _, rfl⟩ | ⟨_, _, hend, _, hzero, rfl⟩ |
    ⟨size, hwritten, hend, _, _, _, _, rfl⟩
  · rw [hend, if_neg (by decide)] at hroom
    have hpos := hcounters.pos_nonneg
    have htop : s.buffPos + c.written.length ≤ byteSize := by omega
    exact ⟨⟨by dsimp only; omega, htop, by dsimp only; omega, htop⟩,
      by simp [sinceEnd_append, hend, hsince], le_rfl, by simp [endsDrained_append, hend]⟩
  · exact ⟨{ hcounters with pos_nonneg := le_rfl, pos_le := by simp },
      by simp [sinceEnd_append, hend], hzero.le, fun _ => hzero⟩
  · have hhi := hcounters.len_le
    refine ⟨{ hcounters with
      len_nonneg := by dsimp only; omega
      len_le := by dsimp only; omega }, ?_, by dsimp only; omega,
      by simp [endsDrained_append, hend]⟩
    simpa [sinceEnd_append, hend, hwritten] using hsince

/-- The data still in the array, while every write starts on unread data: it lies
between `postion` and `buff_pos`. -/
structure Ordered (s : Device) (calls : List Call) : Prop where
  /-- `postion` is not negative. -/
  postion_nonneg : 0 ≤ s.postion
  /-- `postion` is at most one read beyond the array. -/
  postion_le : s.postion ≤ 99 + MAX_RW_COUNT
  /-- With nothing read, all the data is left. -/
  unread : s.postion = 0 → s.buffLen = s.buffPos
  /-- The data left ends at `buff_pos`. -/
  end_eq : s.buffLen ≠ 0 → s.postion + s.buffLen = s.buffPos
  /-- The data left is what was written and not yet returned. -/
  conserved : Conserved Call.written Call.returned calls
    (slice s.byte s.postion s.buffLen.toNat)

/-- A call that writes only on unread data keeps the data in order. -/
theorem Ordered.step {s t : Device} {op : Op} {calls es : List Call} (hcounted : Counted s calls)
    (h : Ordered s calls) (hassumed : Assumed (calls ++ es)) (hstart : op.AtStart s)
    (hstep : s.step op = some (t, es)) : Ordered t (calls ++ es) := by
  have hfault := hassumed.faultless_of_step hstep
  obtain ⟨hpostion, hpostion_le, hunread, hend, hconserved⟩ := h
  have hlo := hcounted.counters.len_nonneg
  have hhi := hcounted.counters.len_le
  have htop := hcounted.counters.pos_le
  unfold byteSize at hhi htop
  obtain ⟨c, rfl, _, hcase⟩ := step_cases hcounted.counters hfault hstep
  rcases hcase with ⟨hreturned, _, hat, rfl⟩ | ⟨hwritten, hreturned, _, _, hzero, rfl⟩ |
    ⟨size, hwritten, _, _, hsize, hdata, hreturned, rfl⟩
  · have hp : s.postion = 0 := hat.mp hstart
    have hlen : s.buffLen = s.buffPos := hunread hp
    refine ⟨hpostion, hpostion_le, fun _ => rfl, fun _ => by dsimp only; omega,
      hconserved.append ?_⟩
    have hsplit : (s.buffPos + c.written.length).toNat = s.buffLen.toNat + c.written.length := by
      omega
    have hfirst : s.postion + s.buffLen.toNat = s.buffPos := by omega
    have hold : slice (splice s.byte s.buffPos c.written) s.postion s.buffLen.toNat =
        slice s.byte s.postion s.buffLen.toNat :=
      slice_congr fun j _ hj => splice_of_lt _ _ (by omega)
    simp only [hsplit, slice_add, hfirst, slice_splice, hold, List.flatMap_singleton, hreturned,
      List.nil_append]
  · refine ⟨le_rfl, by dsimp only; omega, fun _ => hzero, fun hne => absurd hzero hne,
      hconserved.append ?_⟩
    simp [hwritten, hreturned, hzero]
  · have hnext : s.postion + size ≤ 99 + MAX_RW_COUNT := by omega
    have hmoved : toInt (s.postion + size) = s.postion + size := by
      unfold MAX_RW_COUNT at hnext
      exact toInt_of_bounds (by omega) (by omega)
    rw [hmoved]
    refine ⟨by dsimp only; omega, hnext, by dsimp only; omega, by dsimp only; omega,
      hconserved.append ?_⟩
    have hleft : (s.buffLen - min s.buffLen.toNat size).toNat =
        s.buffLen.toNat - min s.buffLen.toNat size := by omega
    have hsplit : slice s.byte s.postion s.buffLen.toNat =
        slice s.byte s.postion (min s.buffLen.toNat size) ++
          slice s.byte (s.postion + (min s.buffLen.toNat size : ℕ))
            (s.buffLen.toNat - min s.buffLen.toNat size) := by
      rw [← slice_add]
      congr 1
      omega
    simp only [List.flatMap_singleton, hwritten, hreturned, List.append_nil, hleft, hsplit]
    congr 1
    by_cases hall : size ≤ s.buffLen.toNat
    · rw [min_eq_right hall]
    · rw [min_eq_left (by omega), Nat.sub_self, slice_zero, slice_zero]

/-- What is known of the numbers of bytes in every run that keeps the promises. -/
structure Tallied (s : Device) (calls : List Call) : Prop where
  /-- Every byte written is returned or counted by `buff_len`. -/
  covered : ((calls.flatMap Call.written).length : ℤ) ≤
    (calls.flatMap Call.returned).length + s.buffLen
  /-- Once `postion` has moved, some byte counted by `buff_pos` was returned. -/
  partly : s.postion ≠ 0 → ((calls.flatMap Call.written).length : ℤ) <
    (calls.flatMap Call.returned).length + s.buffPos

/-- More bytes were returned or are still counted than were written. -/
def Overcounted (s : Device) (calls : List Call) : Prop :=
  ((calls.flatMap Call.written).length : ℤ) <
    (calls.flatMap Call.returned).length + s.buffLen

/-- Every call keeps the tallies. -/
theorem Tallied.step {s t : Device} {op : Op} {calls es : List Call} (hcounted : Counted s calls)
    (h : Tallied s calls) (hassumed : Assumed (calls ++ es)) (hstep : s.step op = some (t, es)) :
    Tallied t (calls ++ es) := by
  have hfault := hassumed.faultless_of_step hstep
  obtain ⟨hcovered, hpartly⟩ := h
  have hle := hcounted.len_le
  have hlo := hcounted.counters.len_nonneg
  obtain ⟨c, rfl, _, hcase⟩ := step_cases hcounted.counters hfault hstep
  rcases hcase with ⟨hreturned, _, _, rfl⟩ | ⟨hwritten, hreturned, _, _, hzero, rfl⟩ |
    ⟨size, hwritten, _, _, _, hdata, hreturned, rfl⟩
  · constructor
    all_goals
      simp only [List.flatMap_append, List.flatMap_singleton, List.length_append, hreturned,
        List.length_nil]
      omega
  · constructor
    · simpa [hwritten, hreturned] using hcovered
    · exact fun hne => absurd rfl hne
  · have hstay : s.postion = 0 → size = 0 → toInt (s.postion + size) = 0 := by
      intro hp hn
      simp [hp, hn, toInt]
    constructor
    all_goals
      simp only [List.flatMap_append, List.flatMap_singleton, List.length_append, hwritten,
        hreturned, slice_length, List.length_nil]
      omega

/-- Bytes counted twice stay counted twice. -/
theorem Overcounted.step {s t : Device} {op : Op} {calls es : List Call}
    (hcounted : Counted s calls) (h : Overcounted s calls) (hassumed : Assumed (calls ++ es))
    (hstep : s.step op = some (t, es)) : Overcounted t (calls ++ es) := by
  have hfault := hassumed.faultless_of_step hstep
  have hle := hcounted.len_le
  unfold Overcounted at *
  obtain ⟨c, rfl, _, hcase⟩ := step_cases hcounted.counters hfault hstep
  rcases hcase with ⟨hreturned, _, _, rfl⟩ | ⟨hwritten, hreturned, _, _, _, rfl⟩ |
    ⟨size, hwritten, _, _, _, _, hreturned, rfl⟩
  · simp only [List.flatMap_append, List.flatMap_singleton, List.length_append, hreturned,
      List.length_nil]
    omega
  · simpa [hwritten, hreturned] using h
  · simp only [List.flatMap_append, List.flatMap_singleton, List.length_append, hwritten,
      hreturned, slice_length, List.length_nil]
    omega

/-- The law holds with one more call when the data left accounts for all bytes, and
none is left at an end of data. -/
theorem Fifo.append {calls : List Call} {c : Call} {left : List UInt8} (h : Fifo calls)
    (hconserved : Conserved Call.written Call.returned (calls ++ [c]) left)
    (hempty : c.endOfData = true → left = []) : Fifo (calls ++ [c]) := by
  refine ⟨hconserved.delivered_prefix, fun before d hbefore hend => ?_⟩
  rcases List.prefix_concat_iff.mp hbefore with heq | hold
  · obtain ⟨rfl, hd⟩ := List.append_inj' heq rfl
    obtain rfl := List.singleton_inj.mp hd
    rw [hempty hend] at hconserved
    exact hconserved.delivered_eq
  · exact h.2 before d hold hend

end LinuxDevNote.RWTest
