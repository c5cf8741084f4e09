import LinuxDevNote.Library.Pieces
import LinuxDevNote.RWTest.Fifo

/-!
# Rounds of filling and draining

The use of the readme: some data is echoed into the device, and `cat` reads until a read
returns 0. However the data is cut into writes and reads, every round gives it back, ends
after finitely many reads, and leaves the counters as it found them. The read that ends
up short moves `postion` past the data, and the one after it sets it right.
-/

namespace LinuxDevNote.RWTest

open Memory Kernel Execution Pieces

/-- A write that meets no fault. -/
structure Put where
  /-- The byte count. -/
  size : ℕ
  /-- The bytes of the caller. -/
  buf : ℕ → Option UInt8
  /-- The VFS admits the count. -/
  admitted : size ≤ MAX_RW_COUNT
  /-- Every byte can be read. -/
  faultless : (Op.write size buf).Faultless

/-- A read of a positive size that meets no fault. -/
structure Get where
  /-- The byte count. -/
  size : ℕ
  /-- The bytes of the caller's buffer that can be written. -/
  writable : ℕ → Bool
  /-- The size is positive. -/
  positive : 0 < size
  /-- The VFS admits the count. -/
  admitted : size ≤ MAX_RW_COUNT
  /-- Every byte can be written. -/
  faultless : (Op.read size writable).Faultless

/-- The call of a write. -/
def Put.op (p : Put) : Op := .write p.size p.buf

/-- The bytes of a write. -/
def Put.data (p : Put) : List UInt8 := readable p.buf p.size

/-- The call of a read. -/
def Get.op (g : Get) : Op := .read g.size g.writable

/-- The write of some bytes. -/
def Put.ofBytes (bytes : List UInt8) (hle : bytes.length ≤ MAX_RW_COUNT) : Put where
  size := bytes.length
  buf := fun k => bytes[k]?
  admitted := hle
  faultless k hk := by simpa using hk

/-- It writes these bytes. -/
@[simp] theorem Put.data_ofBytes (bytes : List UInt8) (hle : bytes.length ≤ MAX_RW_COUNT) :
    (Put.ofBytes bytes hle).data = bytes := by
  simp only [Put.data, Put.ofBytes]
  clear hle
  induction bytes with
  | nil => rfl
  | cons b bytes ih => simpa [readable] using ih

/-- One round: some writes, and then as many of the reads as it takes. -/
structure Round where
  /-- The writes. -/
  puts : List Put
  /-- The reads. -/
  gets : ℕ → Get
  /-- The data fits the array. -/
  fits : (puts.flatMap Put.data).length ≤ byteSize

/-- The data of a round. -/
def Round.data (r : Round) : List UInt8 := r.puts.flatMap Put.data

/-- All counters are zero. -/
def Device.Fresh (s : Device) : Prop := s.postion = 0 ∧ s.buffPos = 0 ∧ s.buffLen = 0

/-- The round leads from `s` to `t`: the first read that returns 0 is the one after the
first `n`, the reads up to it give the data back, and the counters are zero afterwards. -/
def Round.Served (r : Round) (s t : Device) : Prop :=
  ∃ u wrote n calls last,
    exec Device.step s (r.puts.map Put.op) = some (u, wrote) ∧
    exec Device.step u ((List.range (n + 1)).map fun i => (r.gets i).op) =
      some (t, calls ++ [last]) ∧
    (∀ c ∈ calls, c.result.ret ≠ 0) ∧ last.result.ret = 0 ∧
    (calls ++ [last]).flatMap Call.returned = r.data ∧ t.Fresh

/-- The rounds are served one after the other. -/
def Serves : Device → List Round → Prop
  | _, [] => True
  | s, r :: rounds => ∃ t, r.Served s t ∧ Serves t rounds

/-- The device has just these bytes left to deliver. Once there are none, `postion` may
be anywhere. -/
structure Device.Holds (s : Device) (left : List UInt8) : Prop where
  /-- The counters are within the array. -/
  counters : s.CountersInBounds
  /-- `buff_len` counts the bytes. -/
  len : s.buffLen = left.length
  /-- They start at `postion`, and end within the array. -/
  at_postion : left ≠ [] → 0 ≤ s.postion ∧ s.postion + left.length ≤ byteSize ∧
    slice s.byte s.postion left.length = left

/-- The device with some bytes appended at `buff_pos`. -/
def Device.appended (s : Device) (data : List UInt8) : Device :=
  ⟨⟨splice s.byte s.buffPos data, s.buffPos + data.length⟩, s.postion, s.buffPos + data.length⟩

/-- Appending nothing to a device that was not read from. -/
theorem Device.appended_nil {s : Device} (heq : s.buffLen = s.buffPos) : s.appended [] = s := by
  obtain ⟨⟨byte, buffLen⟩, postion, buffPos⟩ := s
  obtain rfl : buffLen = buffPos := heq
  simp [appended]

/-- Bytes appended one after the other. -/
theorem Device.appended_append (s : Device) (xs ys : List UInt8) :
    (s.appended xs).appended ys = s.appended (xs ++ ys) := by
  simp only [appended, splice_append, List.length_append, Nat.cast_add, add_assoc]

/-- Appending what fits keeps the counters within the array. -/
theorem Device.CountersInBounds.appended {s : Device} (hs : s.CountersInBounds)
    {data : List UInt8} (hfits : s.buffPos + data.length ≤ byteSize) :
    (s.appended data).CountersInBounds := by
  have hlo := hs.pos_nonneg
  exact ⟨by dsimp only [Device.appended]; omega, hfits, by dsimp only [Device.appended]; omega,
    hfits⟩

/-- A write appends its bytes. -/
theorem Put.step (p : Put) {s : Device} (hs : s.CountersInBounds) :
    s.step p.op = some (s.appended p.data, [⟨p.op, p.op.result s⟩]) := by
  refine Device.step_eq_some.mpr ⟨p.admitted, ?_, rfl⟩
  rw [Put.op, Op.result, exampleWrite_eq p.buf hs p.admitted, (stored_of_readable p.faultless).1]
  rfl

/-- The writes of a round append their bytes one after the other. -/
theorem exec_puts {puts : List Put} {s : Device} (hs : s.CountersInBounds)
    (heq : s.buffLen = s.buffPos)
    (hfits : s.buffPos + (puts.flatMap Put.data).length ≤ byteSize) :
    ∃ wrote, exec Device.step s (puts.map Put.op) =
      some (s.appended (puts.flatMap Put.data), wrote) := by
  induction puts generalizing s with
  | nil =>
    refine ⟨[], ?_⟩
    rw [List.flatMap_nil, s.appended_nil heq]
    rfl
  | cons p puts ih =>
    rw [List.flatMap_cons, List.length_append] at hfits
    have hnext : (s.appended p.data).buffPos = s.buffPos + p.data.length := rfl
    have hin : s.buffPos + p.data.length ≤ byteSize := by omega
    obtain ⟨wrote, hexec⟩ := ih (hs.appended hin) rfl (by omega)
    rw [s.appended_append, ← List.flatMap_cons] at hexec
    exact ⟨_, exec_cons_eq_some.mpr ⟨_, _, _, p.step hs, hexec, rfl⟩⟩

/-- A read of a device that has bytes left delivers the next of them and reports how
many. -/
theorem Get.step (g : Get) {s : Device} {left : List UInt8} (h : s.Holds left) (hleft : left ≠ []) :
    ∃ t c, s.step g.op = some (t, [c]) ∧ c.returned = left.take g.size ∧
      c.result.ret = (left.take g.size).length ∧ t.Holds (left.drop g.size) := by
  obtain ⟨hlo, hhi, hslice⟩ := h.at_postion hleft
  have hpos := List.length_pos_iff.mpr hleft
  have hlen := h.len
  have hrlen : readLength s g.size = min left.length g.size := by
    rw [readLength_eq g.size h.counters, hlen, Int.toNat_natCast]
  have hout : slice s.byte s.postion (min left.length g.size) = left.take g.size := by
    rw [← hslice, slice_take, slice_length, min_comm]
  have hcopy : (copyToUser g.writable
      (slice s.byte s.postion (min left.length g.size))).2 = 0 := by
    rw [copyToUser_snd_eq_zero, slice_length]
    exact fun i hi => g.faultless i (by omega)
  have hmore : s.buffLen ≠ 0 ∨ g.size = 0 := Or.inl (by omega)
  have hread := exampleRead_of_data g.writable h.counters hmore
  rw [hrlen, if_pos hcopy, hout] at hread
  refine ⟨_, ⟨g.op, g.op.result s⟩, Device.step_eq_some.mpr ⟨g.admitted, rfl, rfl⟩, ?_, ?_, ?_⟩
  · simp [Call.returned, Get.op, Op.result, hread]
  · simp [Get.op, Op.result, hread, min_comm]
  · rw [Get.op, Op.result, hread]
    have hcount := h.counters
    refine ⟨⟨hcount.pos_nonneg, hcount.pos_le, by dsimp only; omega, ?_⟩, ?_, ?_⟩
    · have := hcount.len_le
      dsimp only
      omega
    · rw [List.length_drop]
      dsimp only
      omega
    · intro hmore
      have hsize : g.size < left.length := by
        by_contra hge
        exact hmore (List.drop_eq_nil_of_le (not_lt.mp hge))
      have hmove : toInt (s.postion + g.size) = s.postion + g.size :=
        toInt_of_bounds (by omega) (by unfold byteSize at hhi; omega)
      dsimp only
      rw [hmove, List.length_drop]
      refine ⟨by omega, by omega, ?_⟩
      rw [← slice_drop, hslice]

/-- The read of a device with nothing left returns 0 and resets the counters. -/
theorem Get.step_empty (g : Get) {s : Device} (h : s.Holds []) :
    ∃ t c, s.step g.op = some (t, [c]) ∧ c.returned = [] ∧ c.result.ret = 0 ∧ t.Fresh := by
  have hread := exampleRead_of_empty g.writable h.len g.positive
  refine ⟨_, ⟨g.op, g.op.result s⟩, Device.step_eq_some.mpr ⟨g.admitted, rfl, rfl⟩, ?_, ?_, ?_⟩
  · simp [Call.returned, Get.op, Op.result, hread]
  · simp [Get.op, Op.result, hread]
  · rw [Get.op, Op.result, hread]
    exact ⟨rfl, rfl, h.len⟩

/-- Reads that each find something left deliver it in pieces. -/
theorem exec_gets {gs : List Get} {s : Device} {left : List UInt8} (h : s.Holds left)
    (hpieces : ∀ piece ∈ (gs.map Get.size).splitLengths left, piece ≠ []) :
    ∃ t calls, exec Device.step s (gs.map Get.op) = some (t, calls) ∧
      calls.flatMap Call.returned = left.take (gs.map Get.size).sum ∧
      (∀ c ∈ calls, c.result.ret ≠ 0) ∧ t.Holds (left.drop (gs.map Get.size).sum) := by
  induction gs generalizing s left with
  | nil => exact ⟨s, [], rfl, by simp, by simp, by simpa using h⟩
  | cons g gs ih =>
    rw [List.map_cons, List.splitLengths_cons] at hpieces
    have hfirst := hpieces _ List.mem_cons_self
    have hleft : left ≠ [] := by
      rintro rfl
      exact hfirst List.take_nil
    obtain ⟨u, c, hstep, hreturned, hret, hholds⟩ := g.step h hleft
    obtain ⟨t, calls, hexec, hrest, hnonzero, hend⟩ :=
      ih hholds fun piece hpiece => hpieces piece (List.mem_cons_of_mem _ hpiece)
    refine ⟨t, [c] ++ calls, exec_cons_eq_some.mpr ⟨u, _, _, hstep, hexec, rfl⟩, ?_, ?_, ?_⟩
    · rw [List.flatMap_append, hrest, List.flatMap_singleton, hreturned, List.map_cons,
        List.sum_cons, List.take_add]
    · intro d hd
      rcases List.mem_append.mp hd with hd | hd
      · obtain rfl := List.mem_singleton.mp hd
        rw [hret, Int.natCast_ne_zero]
        exact (List.length_pos_iff.mpr hfirst).ne'
      · exact hnonzero d hd
    · rwa [List.map_cons, List.sum_cons, ← List.drop_drop]

/-- A device with its counters zero serves a round. -/
theorem Device.Fresh.served {s : Device} (h : s.Fresh) (r : Round) : ∃ t, r.Served s t := by
  obtain ⟨hpostion, hbuffPos, hbuffLen⟩ := h
  have hfits := r.fits
  have hcounters : s.CountersInBounds :=
    ⟨hbuffPos.ge, by omega, hbuffLen.ge, by omega⟩
  have hroom : s.buffPos + r.data.length ≤ byteSize := by
    rw [hbuffPos]
    unfold Round.data
    omega
  obtain ⟨wrote, hputs⟩ := exec_puts hcounters (hbuffLen.trans hbuffPos.symm) hroom
  have hholds : (s.appended r.data).Holds r.data := by
    refine ⟨hcounters.appended hroom, by simp [Device.appended, hbuffPos], fun _ => ?_⟩
    refine ⟨hpostion.ge, ?_, ?_⟩
    · rw [show (s.appended r.data).postion = s.buffPos from hpostion.trans hbuffPos.symm]
      exact hroom
    · rw [show (s.appended r.data).postion = s.buffPos from hpostion.trans hbuffPos.symm]
      exact slice_splice _ _ _
  obtain ⟨n, hflatten, hpieces⟩ := exists_splitLengths (fun i => (r.gets i).size)
    (fun i => (r.gets i).positive) r.data
  have hsizes : (List.range n).map (fun i => (r.gets i).size) =
      ((List.range n).map r.gets).map Get.size := by rw [List.map_map]; rfl
  rw [hsizes] at hflatten hpieces
  rw [Pieces.flatten_splitLengths] at hflatten
  obtain ⟨v, calls, hgets, hreturned, hnonzero, hleft⟩ := exec_gets hholds hpieces
  rw [List.drop_eq_nil_of_le (List.take_eq_self_iff _ |>.mp hflatten)] at hleft
  obtain ⟨t, last, hlast, hnothing, hzero, hfresh⟩ := (r.gets n).step_empty hleft
  refine ⟨t, _, wrote, n, calls, last, hputs, ?_, hnonzero, hzero, ?_, hfresh⟩
  · rw [List.range_succ, List.map_append]
    rw [List.map_map] at hgets
    exact exec_append hgets (exec_singleton hlast)
  · rw [List.flatMap_append, hreturned, hflatten, List.flatMap_singleton, hnothing,
      List.append_nil]

end LinuxDevNote.RWTest
