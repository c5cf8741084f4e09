import LinuxDevNote.Kernel.CopyLoop
import LinuxDevNote.Library.Execution

/-!
# The handlers of the queue-wait driver

`queue_wait_dev.c` is a mailbox for one message: a write fills `byte` and raises
`havedata`, a read waits for it, lowers it and copies the array out. This file
embeds the two handlers as complete calls, one after another; the sizes are those
the VFS lets through.
-/

namespace LinuxDevNote.QueueWait

open Memory Kernel Execution

/-- The length of `byte`. -/
def byteSize : ℕ := 100

/-- The globals of the driver: `byte`, `buff_len` and `havedata`. -/
structure Device extends Buffer where
  /-- `havedata`, which is only ever 0 or 1. -/
  havedata : Bool

/-- The loaded module: no data, and arbitrary bytes in and around the array. -/
def Device.init (byte : ℤ → UInt8) : Device := ⟨⟨byte, 0⟩, false⟩

/-- `example_write`. -/
def exampleWrite (s : Device) (size : ℕ) (buf : ℕ → Option UInt8) : Result Device :=
  let filled := copyLoop size (size + 1) buf { s.toBuffer with buffLen := 0 }
  ⟨⟨filled.1, true⟩, filled.1.buffLen, [], filled.2⟩

/-- `example_read`; `none` while it sleeps in `wait_event_interruptible`. The
return value is `buff_len` whatever `size` is, and the flag is lowered before the
copy that may fail. -/
def exampleRead (s : Device) (size : ℕ) (nonblock : Bool) (writable : ℕ → Bool) :
    Option (Result Device) :=
  if s.havedata then
    let copied := copyToUser writable (slice s.byte 0 size)
    if copied.2 ≠ 0 then
      some ⟨{ s with havedata := false }, -EFAULT, copied.1, indices 0 size⟩
    else
      some ⟨⟨{ s.toBuffer with buffLen := 0 }, false⟩, s.buffLen, copied.1,
        indices 0 size ++ indices 0 (toSize s.buffLen)⟩
  else if nonblock then some ⟨s, -EAGAIN, [], []⟩
  else none

/-- The array holds a message. -/
def Holds (b : Buffer) (msg : List UInt8) : Prop :=
  b.buffLen = msg.length ∧ slice b.byte 0 msg.length = msg

/-- A call of a handler, with the memory of the caller it may meet. -/
inductive Op
  | write (size : ℕ) (buf : ℕ → Option UInt8)
  | read (size : ℕ) (nonblock : Bool) (writable : ℕ → Bool)

/-- The byte count of a call. -/
def Op.size : Op → ℕ
  | .write size _ => size
  | .read size _ _ => size

/-- The bytes of the caller a call can read: those handed to a write. -/
def Op.source : Op → ℕ → Option UInt8
  | .write _ buf => buf
  | .read _ _ _ => fun _ => none

/-- Which bytes of the caller a call can write: those handed to a read. -/
def Op.writable : Op → ℕ → Bool
  | .write _ _ => fun _ => false
  | .read _ _ writable => writable

/-- Whether `O_NONBLOCK` is set for a call. -/
def Op.nonblock : Op → Bool
  | .write _ _ => false
  | .read _ nonblock _ => nonblock

/-- Whether a call is a write. -/
def Op.isWrite : Op → Bool
  | .write _ _ => true
  | .read _ _ _ => false

/-- The handler a call runs. -/
def Op.result (s : Device) : Op → Option (Result Device)
  | .write size buf => some (exampleWrite s size buf)
  | .read size nonblock writable => exampleRead s size nonblock writable

/-- A complete call; the VFS refuses counts above its limit. The events are the
indices of `byte` accessed. -/
def Device.step (s : Device) (op : Op) : Option (Device × List ℤ) :=
  if op.size ≤ MAX_RW_COUNT then (op.result s).map fun r => (r.device, r.touched) else none

/-- A completed call was admitted by the VFS and ran its handler. -/
theorem Device.step_eq_some {s t : Device} {op : Op} {touched : List ℤ} :
    s.step op = some (t, touched) ↔
      op.size ≤ MAX_RW_COUNT ∧ ∃ r, op.result s = some r ∧ t = r.device ∧ touched = r.touched := by
  unfold step
  split
  · rename_i hsize
    simp only [Option.map_eq_some_iff, Prod.mk.injEq, hsize, true_and]
    constructor
    · rintro ⟨r, hr, rfl, rfl⟩
      exact ⟨r, hr, rfl, rfl⟩
    · rintro ⟨r, hr, rfl, rfl⟩
      exact ⟨r, hr, rfl, rfl⟩
  · rename_i hsize
    simp [hsize]

/-- A write of an admitted size stores the readable bytes from the start of
`byte`, and a zero where the first unreadable one was to go; `buff_len` and the
return value are the number of bytes supplied. -/
theorem exampleWrite_eq (s : Device) {size : ℕ} (buf : ℕ → Option UInt8)
    (hsize : size ≤ MAX_RW_COUNT) :
    exampleWrite s size buf =
      ⟨⟨⟨splice s.byte 0 (stored buf size), (readable buf size).length⟩, true⟩,
        (readable buf size).length, [], indices 0 (stored buf size).length⟩ := by
  unfold MAX_RW_COUNT at hsize
  have hloop := copyLoop_spec size size (size + 1) buf
    { s.toBuffer with buffLen := 0 } (by omega) le_rfl (by simp) (by omega)
  simp [exampleWrite, hloop]

/-- A read that returns finds no message and does not wait, or takes the message
and fails in the copy, or takes it and empties the array. -/
theorem exampleRead_cases {s : Device} {size : ℕ} {nonblock : Bool} {writable : ℕ → Bool}
    {r : Result Device} (hr : exampleRead s size nonblock writable = some r) :
    (s.havedata = false ∧ r = ⟨s, -EAGAIN, [], []⟩) ∨
      (s.havedata = true ∧ (∃ k < size, writable k = false) ∧ r.ret = -EFAULT ∧
        r.device = { s with havedata := false } ∧
        r.out = (copyToUser writable (slice s.byte 0 size)).1) ∨
      (s.havedata = true ∧ (∀ k < size, writable k = true) ∧ r.ret = s.buffLen ∧
        r.device = ⟨{ s.toBuffer with buffLen := 0 }, false⟩ ∧ r.out = slice s.byte 0 size) := by
  cases hdata : s.havedata with
  | false =>
    cases nonblock <;> simp only [exampleRead, hdata, Bool.false_eq_true, if_true, if_false,
      reduceCtorEq, Option.some.injEq] at hr
    exact Or.inl ⟨rfl, hr.symm⟩
  | true =>
    have hwritable : (copyToUser writable (slice s.byte 0 size)).2 = 0 ↔
        ∀ k < size, writable k = true := by
      rw [copyToUser_snd_eq_zero, slice_length]
    simp only [exampleRead, hdata, if_true] at hr
    split at hr
    · rename_i hfault
      obtain rfl := Option.some.inj hr
      refine Or.inr (Or.inl ⟨rfl, ?_, rfl, rfl, rfl⟩)
      simpa [hwritable] using hfault
    · rename_i hdone
      rw [not_not] at hdone
      obtain rfl := Option.some.inj hr
      exact Or.inr (Or.inr ⟨rfl, hwritable.mp hdone, rfl, rfl, copyToUser_fst_of_success hdone⟩)

/-- A read that returns leaves no message. -/
theorem exampleRead_havedata {s : Device} {size : ℕ} {nonblock : Bool} {writable : ℕ → Bool}
    {r : Result Device} (hr : exampleRead s size nonblock writable = some r) :
    r.device.havedata = false := by
  rcases exampleRead_cases hr with ⟨hdata, rfl⟩ | ⟨-, -, -, hdevice, -⟩ | ⟨-, -, -, hdevice, -⟩
  · exact hdata
  · rw [hdevice]
  · rw [hdevice]

/-- After a write of an admitted size the array holds the bytes it supplied. -/
theorem holds_exampleWrite (s : Device) {size : ℕ} (buf : ℕ → Option UInt8)
    (hsize : size ≤ MAX_RW_COUNT) :
    Holds (exampleWrite s size buf).device.toBuffer (readable buf size) := by
  rw [exampleWrite_eq s buf hsize]
  refine ⟨rfl, ?_⟩
  have hprefix := readable_prefix_stored buf size
  rw [slice_splice_of_le _ _ hprefix.length_le, ← List.prefix_iff_eq_take.mp hprefix]

end LinuxDevNote.QueueWait
