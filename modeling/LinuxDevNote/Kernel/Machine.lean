import Mathlib.Algebra.Ring.Int.Defs
import Mathlib.Algebra.Ring.Nat
import Mathlib.Data.Int.DivMod
import Mathlib.Data.List.TakeWhile

/-!
# Machine integers, error numbers and user copies

The drivers mix `int`, `unsigned int`, `size_t` and `loff_t`, and move bytes
across the user boundary with `copy_from_user` and `copy_to_user`. The word
sizes are those of the x86-64 kernel named in the repository; signed arithmetic
wraps, as the kernel is compiled.
-/

namespace LinuxDevNote.Kernel

/-- `EAGAIN`: try again. -/
def EAGAIN : ℤ := 11

/-- `EFAULT`: bad address. -/
def EFAULT : ℤ := 14

/-- `EBUSY`: device or resource busy. -/
def EBUSY : ℤ := 16

/-- `EINVAL`: invalid argument. -/
def EINVAL : ℤ := 22

/-- Conversion to `int`: reduction to a signed 32-bit value. -/
def toInt (x : ℤ) : ℤ := x.bmod (2 ^ 32)

/-- Conversion to `size_t`: reduction to an unsigned 64-bit value. -/
def toSize (x : ℤ) : ℕ := (x % 2 ^ 64).toNat

/-- The largest byte count the VFS hands to a `read` or `write` handler. -/
def MAX_RW_COUNT : ℕ := 0x7ffff000

/-- A value in the range of `int` converts to itself. -/
theorem toInt_of_bounds {x : ℤ} (hlo : -2 ^ 31 ≤ x) (hhi : x < 2 ^ 31) : toInt x = x := by
  rw [toInt, Int.bmod_def]
  split <;> omega

/-- A nonnegative value in the range of `size_t` converts to itself. -/
theorem toSize_of_bounds {x : ℤ} (hlo : 0 ≤ x) (hhi : x < 2 ^ 64) : toSize x = x.toNat := by
  rw [toSize]
  omega

/-- `copy_from_user(dst, src, 1)`: the byte `dst` holds afterwards and the
number of bytes that could not be copied. An unreadable user byte is `none`, and
the kernel pads what it could not copy with zero. -/
def copyFromUserByte : Option UInt8 → UInt8 × ℕ
  | some b => (b, 0)
  | none => (0, 1)

/-- `copy_to_user(dst, src, n)`: the bytes that reached the caller's buffer and
the number that did not. The copy stops at the first user byte that cannot be
written. -/
def copyToUser (writable : ℕ → Bool) (src : List UInt8) : List UInt8 × ℕ :=
  let done := ((List.range src.length).takeWhile writable).length
  (src.take done, src.length - done)

/-- When every destination byte can be written the whole source arrives. -/
theorem copyToUser_of_writable {writable : ℕ → Bool} {src : List UInt8}
    (h : ∀ i < src.length, writable i = true) : copyToUser writable src = (src, 0) := by
  have hall : (List.range src.length).takeWhile writable = List.range src.length :=
    List.takeWhile_eq_self_iff.mpr fun i hi => h i (List.mem_range.mp hi)
  simp [copyToUser, hall]

/-- The copy reports complete success exactly when every destination byte can
be written. -/
theorem copyToUser_snd_eq_zero {writable : ℕ → Bool} {src : List UInt8} :
    (copyToUser writable src).2 = 0 ↔ ∀ i < src.length, writable i = true := by
  constructor
  · intro hzero
    have hle : src.length ≤ ((List.range src.length).takeWhile writable).length := by
      simpa [copyToUser, Nat.sub_eq_zero_iff_le] using hzero
    have hprefix := List.takeWhile_prefix writable (l := List.range src.length)
    have heq := hprefix.eq_of_length_le (by simpa using hle)
    exact fun i hi => List.takeWhile_eq_self_iff.mp heq i (List.mem_range.mpr hi)
  · exact fun h => by rw [copyToUser_of_writable h]

/-- A completely successful copy delivers the whole source. -/
theorem copyToUser_fst_of_success {writable : ℕ → Bool} {src : List UInt8}
    (h : (copyToUser writable src).2 = 0) : (copyToUser writable src).1 = src := by
  rw [copyToUser_of_writable (copyToUser_snd_eq_zero.mp h)]

end LinuxDevNote.Kernel
