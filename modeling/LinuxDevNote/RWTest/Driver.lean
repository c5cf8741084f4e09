import LinuxDevNote.Kernel.CopyLoop
import LinuxDevNote.Library.Execution

/-!
# The handlers of the read-write test driver

`fileOperate_drv.c` keeps one array and three counters: `buff_pos`, where the
next write starts, `postion`, where the next read starts, and `buff_len`, which a
write leaves at the end of the data and a read counts down. This file embeds the
two handlers as complete calls; the sizes are those the VFS lets through.
-/

namespace LinuxDevNote.RWTest

open Memory Kernel Execution

/-- The length of `byte`. -/
def byteSize : ℕ := 100

/-- The globals of the driver: `byte`, `buff_len`, `postion` and `buff_pos`. -/
structure Device extends Buffer where
  /-- `postion`, the index the next read starts from. -/
  postion : ℤ
  /-- `buff_pos`, the index the next write starts from. -/
  buffPos : ℤ

/-- The loaded module: all counters zero, and arbitrary bytes in and around the
array. -/
def Device.init (byte : ℤ → UInt8) : Device := ⟨⟨byte, 0⟩, 0, 0⟩

/-- `example_write`. It returns `size` whatever was copied. -/
def exampleWrite (s : Device) (size : ℕ) (buf : ℕ → Option UInt8) : Result Device :=
  let bound := toSize (size + s.buffPos)
  let filled := copyLoop bound (size + 1) buf { s.toBuffer with buffLen := s.buffPos }
  ⟨⟨filled.1, s.postion, filled.1.buffLen⟩, size, [], filled.2⟩

/-- The number of bytes a read moves, `rlen`. -/
def readLength (s : Device) (size : ℕ) : ℕ :=
  if toSize s.buffLen < size then toSize s.buffLen else size

/-- `example_read`. `postion` advances by `size`, not by the bytes moved. -/
def exampleRead (s : Device) (size : ℕ) (writable : ℕ → Bool) : Result Device :=
  let rlen := readLength s size
  if toSize s.buffLen < size ∧ rlen = 0 then
    ⟨{ s with buffPos := 0, postion := 0 }, 0, [], []⟩
  else
    let copied := copyToUser writable (slice s.byte s.postion rlen)
    if copied.2 ≠ 0 then ⟨s, -EFAULT, copied.1, indices s.postion rlen⟩
    else
      ⟨⟨⟨s.byte, toInt (s.buffLen - rlen)⟩, toInt (s.postion + size), s.buffPos⟩, rlen, copied.1,
        indices s.postion rlen ++ indices 0 rlen⟩

/-- A call of a handler, with the memory of the caller it may meet. -/
inductive Op
  | write (size : ℕ) (buf : ℕ → Option UInt8)
  | read (size : ℕ) (writable : ℕ → Bool)

/-- The byte count of a call. -/
def Op.size : Op → ℕ
  | .write size _ => size
  | .read size _ => size

/-- The handler a call runs. -/
def Op.result (s : Device) : Op → Result Device
  | .write size buf => exampleWrite s size buf
  | .read size writable => exampleRead s size writable

/-- A completed call and what it left behind. -/
structure Call where
  /-- The call. -/
  op : Op
  /-- The outcome of its handler. -/
  result : Result Device

/-- A complete call; the VFS refuses counts above its limit. -/
def Device.step (s : Device) (op : Op) : Option (Device × List Call) :=
  if op.size ≤ MAX_RW_COUNT then some ((op.result s).device, [⟨op, op.result s⟩]) else none

/-- A completed call was admitted by the VFS and ran its handler. -/
theorem Device.step_eq_some {s t : Device} {op : Op} {calls : List Call} :
    s.step op = some (t, calls) ↔
      op.size ≤ MAX_RW_COUNT ∧ t = (op.result s).device ∧ calls = [⟨op, op.result s⟩] := by
  unfold step
  split
  · rename_i hsize
    simp only [Option.some.injEq, Prod.mk.injEq, hsize, true_and]
    exact and_congr eq_comm eq_comm
  · rename_i hsize
    simp [hsize]

/-- The counters `buff_pos` and `buff_len` are within `byte`. -/
structure Device.CountersInBounds (s : Device) : Prop where
  /-- `buff_pos` is not negative. -/
  pos_nonneg : 0 ≤ s.buffPos
  /-- `buff_pos` is at most 100. -/
  pos_le : s.buffPos ≤ byteSize
  /-- `buff_len` is not negative. -/
  len_nonneg : 0 ≤ s.buffLen
  /-- `buff_len` is at most 100. -/
  len_le : s.buffLen ≤ byteSize

/-- The module starts with its counters in bounds. -/
theorem Device.init_counters (byte : ℤ → UInt8) : (Device.init byte).CountersInBounds :=
  ⟨le_rfl, by simp [init], le_rfl, by simp [init]⟩

/-- With the counters in bounds, a write of an admitted size stores the readable
bytes from `buff_pos`, and a zero where the first unreadable one was to go; both
counters move to the end of the bytes supplied. -/
theorem exampleWrite_eq {s : Device} {size : ℕ} (buf : ℕ → Option UInt8)
    (hs : s.CountersInBounds) (hsize : size ≤ MAX_RW_COUNT) :
    exampleWrite s size buf =
      ⟨⟨⟨splice s.byte s.buffPos (stored buf size), s.buffPos + (readable buf size).length⟩,
        s.postion, s.buffPos + (readable buf size).length⟩, size, [],
        indices s.buffPos (stored buf size).length⟩ := by
  have hlo := hs.pos_nonneg
  have hhi := hs.pos_le
  unfold MAX_RW_COUNT at hsize
  unfold byteSize at hhi
  have hbound : (toSize (size + s.buffPos) : ℤ) = s.buffPos + size := by
    rw [toSize_of_bounds (by omega) (by omega)]
    omega
  have hloop := copyLoop_spec (toSize (size + s.buffPos)) size (size + 1) buf
    { s.toBuffer with buffLen := s.buffPos } (by omega) hlo (by simpa using hbound) (by omega)
  simp [exampleWrite, hloop]

/-- With `buff_len` in bounds a read moves the smaller of `size` and `buff_len`. -/
theorem readLength_eq {s : Device} (size : ℕ) (hs : s.CountersInBounds) :
    readLength s size = min s.buffLen.toNat size := by
  have hlo := hs.len_nonneg
  have hhi := hs.len_le
  unfold byteSize at hhi
  rw [readLength, toSize_of_bounds hlo (by omega)]
  split <;> omega

/-- A read of a positive size with no data left returns nothing and resets the
positions. -/
theorem exampleRead_of_empty {s : Device} {size : ℕ} (writable : ℕ → Bool)
    (hlen : s.buffLen = 0) (hsize : 0 < size) :
    exampleRead s size writable = ⟨{ s with buffPos := 0, postion := 0 }, 0, [], []⟩ := by
  have hzero : toSize s.buffLen = 0 := by simp [toSize, hlen]
  simp [exampleRead, readLength, hzero, hsize]

/-- Any other read copies its bytes out and accesses them again for the log, or
fails in the copy and changes nothing. -/
theorem exampleRead_of_data {s : Device} {size : ℕ} (writable : ℕ → Bool)
    (hs : s.CountersInBounds) (hdata : s.buffLen ≠ 0 ∨ size = 0) :
    exampleRead s size writable =
      if (copyToUser writable (slice s.byte s.postion (readLength s size))).2 = 0 then
        ⟨⟨⟨s.byte, s.buffLen - readLength s size⟩, toInt (s.postion + size), s.buffPos⟩,
          readLength s size, slice s.byte s.postion (readLength s size),
          indices s.postion (readLength s size) ++ indices 0 (readLength s size)⟩
      else
        ⟨s, -EFAULT, (copyToUser writable (slice s.byte s.postion (readLength s size))).1,
          indices s.postion (readLength s size)⟩ := by
  have hlo := hs.len_nonneg
  have hhi := hs.len_le
  have hrlen := readLength_eq size hs
  unfold byteSize at hhi
  have hgo : ¬ (toSize s.buffLen < size ∧ readLength s size = 0) := by
    rw [toSize_of_bounds hlo (by omega)]
    omega
  have hleft : toInt (s.buffLen - readLength s size) = s.buffLen - readLength s size :=
    toInt_of_bounds (by omega) (by omega)
  simp only [exampleRead, if_neg hgo, hleft, ne_eq, ite_not]
  split
  · rename_i hdone
    rw [copyToUser_fst_of_success hdone]
  · rfl

end LinuxDevNote.RWTest
