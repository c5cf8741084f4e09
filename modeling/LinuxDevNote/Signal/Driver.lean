import LinuxDevNote.Kernel.CopyLoop
import LinuxDevNote.Library.Decimal

/-!
# The signal driver

`write_pid` of `kernalSignal.c` copies what was written to a local array, scans a
decimal number there, and signals the task of that pid. The array is a part of the
stack: a list of bytes that starts with `mybuf` and goes on behind it. The lookup of the
task and the sending of the signal are the kernel's.
-/

namespace LinuxDevNote.Signal

open Kernel Decimal

/-- `ENODEV`: no such device. -/
def ENODEV : ℤ := 19

/-- The length of `mybuf`. -/
def mybufSize : ℕ := 10

/-- `isspace` of the kernel: its table marks the blanks of ASCII and the no-break space. -/
def isspace (c : UInt8) : Bool := decide (9 ≤ c ∧ c ≤ 13 ∨ c = 32 ∨ c = 160)

/-- What a scan found: the number it stored, and how many bytes it looked at. -/
structure Scan where
  /-- The variable the number goes to. -/
  pid : ℤ
  /-- The bytes looked at, from the first. -/
  reads : ℕ

/-- The digits that a number starts with, up to the byte that ends them; `none` where the
memory ends first. `negative` is whether a minus sign came before. -/
def simpleStrtol (negative : Bool) (mem : List UInt8) : Option Scan :=
  match mem.dropWhile isDigit with
  | [] => none
  | _ :: _ =>
    let digits := mem.takeWhile isDigit
    let number : ℤ := if negative then -value digits else value digits
    some ⟨toInt number, digits.length + 1⟩

/-- The number after the blanks, or the variable as it was where no digit follows. -/
def scanNumber (negative : Bool) (pid : ℤ) (mem : List UInt8) : Option Scan :=
  match mem with
  | [] => none
  | c :: _ => if isDigit c then simpleStrtol negative mem else some ⟨pid, 1⟩

/-- `sscanf(mem, "%d", &pid)` of the kernel, for a variable that holds `pid`; `none` where the
memory ends before the scan does. -/
def sscanf (mem : List UInt8) (pid : ℤ) : Option Scan :=
  let blanks := mem.takeWhile isspace
  match mem.dropWhile isspace with
  | [] => none
  | c :: rest =>
    if c = 45 then
      (scanNumber true pid rest).map fun s => ⟨s.pid, blanks.length + 1 + s.reads⟩
    else (scanNumber false pid (c :: rest)).map fun s => ⟨s.pid, blanks.length + s.reads⟩

/-- `copy_from_user(mybuf, buf, count)`: the bytes that can be read, and zeros from the first
one that cannot. -/
def copyFromUser (buf : ℕ → Option UInt8) (count : ℕ) : List UInt8 :=
  readable buf count ++ List.replicate (count - (readable buf count).length) 0

/-- What a call of `write_pid` does. -/
structure Outcome (Task : Type*) where
  /-- The scan, unless the count is refused before it. -/
  scan : Option Scan
  /-- The task that is signalled. -/
  task : Option Task
  /-- The value returned. -/
  ret : ℤ

variable {Task : Type*}

/-- `write_pid` once `pid` is scanned. -/
def signalPid (findTask : ℤ → Option Task) (sendSig : Task → ℤ) (count : ℕ) (scan : Scan) :
    Outcome Task :=
  match findTask scan.pid with
  | none => ⟨some scan, none, -ENODEV⟩
  | some t => ⟨some scan, some t, if sendSig t < 0 then sendSig t else count⟩

/-- `write_pid`, with `mybuf` at the start of `stack`; `none` where the scan runs off the
stack. The result of `copy_from_user` is not looked at. -/
def writePid (findTask : ℤ → Option Task) (sendSig : Task → ℤ) (stack : List UInt8)
    (buf : ℕ → Option UInt8) (count : ℕ) : Option (Outcome Task) :=
  if mybufSize < count then some ⟨none, none, -EINVAL⟩
  else
    (sscanf (copyFromUser buf count ++ stack.drop count) 0).map
      (signalPid findTask sendSig count)

/-- The copy fills exactly the bytes asked for. -/
@[simp] theorem copyFromUser_length (buf : ℕ → Option UInt8) (count : ℕ) :
    (copyFromUser buf count).length = count := by
  have hle : (readable buf count).length ≤ count := by
    induction count generalizing buf with
    | zero => simp [readable]
    | succ count ih =>
      cases hbuf : buf 0 with
      | none => simp [readable, hbuf]
      | some b => simpa [readable, hbuf] using ih fun i => buf (i + 1)
  rw [copyFromUser, List.length_append, List.length_replicate]
  omega

/-- The pid that a call parses, where its scan ends. -/
theorem effect_writePid (findTask : ℤ → Option Task) (sendSig : Task → ℤ) {stack : List UInt8}
    {buf : ℕ → Option UInt8} {count : ℕ} (hcount : count ≤ mybufSize) {scan : Scan}
    (hscan : sscanf (copyFromUser buf count ++ stack.drop count) 0 = some scan) :
    writePid findTask sendSig stack buf count = some (signalPid findTask sendSig count scan) ∧
      (signalPid findTask sendSig count scan).scan = some scan := by
  refine ⟨?_, ?_⟩
  · rw [writePid, if_neg (not_lt.mpr hcount), hscan, Option.map_some]
  · unfold signalPid
    split <;> rfl

/-- The minus sign, where there is one. -/
def signBytes (negative : Bool) : List UInt8 := if negative then [45] else []

/-- A number with its sign, as an `int`. -/
def signed (negative : Bool) (n : ℕ) : ℤ := toInt (if negative then -n else n)

/-- The first byte that is not a digit ends a number. -/
theorem simpleStrtol_append (negative : Bool) {digits : List UInt8} {stop : UInt8}
    (rest : List UInt8) (hdigits : ∀ c ∈ digits, isDigit c = true) (hstop : isDigit stop = false) :
    simpleStrtol negative (digits ++ stop :: rest) =
      some ⟨signed negative (value digits), digits.length + 1⟩ := by
  rw [simpleStrtol, dropWhile_append_stop rest hdigits hstop,
    takeWhile_append_stop rest hdigits hstop]
  rfl

/-- Behind the blanks and the sign: a number, or nothing. -/
theorem scanNumber_append (negative : Bool) (pid : ℤ) {digits : List UInt8} {stop : UInt8}
    (rest : List UInt8) (hdigits : ∀ c ∈ digits, isDigit c = true) (hstop : isDigit stop = false) :
    scanNumber negative pid (digits ++ stop :: rest) =
      some ⟨if digits = [] then pid else signed negative (value digits), digits.length + 1⟩ := by
  cases digits with
  | nil => simp [scanNumber, hstop]
  | cons d digits =>
    have hnumber := simpleStrtol_append negative rest hdigits hstop
    rw [if_neg (List.cons_ne_nil d digits), ← hnumber, List.cons_append, scanNumber,
      if_pos (hdigits d List.mem_cons_self)]

/-- No digit is a blank. -/
theorem isspace_of_isDigit {c : UInt8} (h : isDigit c = true) : isspace c = false := by
  simp only [isDigit, isspace, decide_eq_true_eq, decide_eq_false_iff_not,
    UInt8.le_iff_toNat_le, ← UInt8.toNat_inj, UInt8.reduceToNat] at *
  omega

/-- No digit is a minus sign. -/
theorem ne_minus_of_isDigit {c : UInt8} (h : isDigit c = true) : c ≠ 45 := by
  rintro rfl
  exact absurd h (by decide)

/-- The scan skips the blanks in front. -/
theorem sscanf_blanks {blanks rest : List UInt8} {c : UInt8} (pid : ℤ)
    (hblanks : ∀ b ∈ blanks, isspace b = true) (hc : isspace c = false) :
    sscanf (blanks ++ c :: rest) pid =
      if c = 45 then
        (scanNumber true pid rest).map fun s => ⟨s.pid, blanks.length + 1 + s.reads⟩
      else (scanNumber false pid (c :: rest)).map fun s => ⟨s.pid, blanks.length + s.reads⟩ := by
  rw [sscanf, dropWhile_append_stop rest hblanks hc, takeWhile_append_stop rest hblanks hc]

/-- A scan of blanks, a sign, digits and the byte that ends them. -/
theorem sscanf_append {blanks digits : List UInt8} {stop : UInt8} (negative : Bool) (pid : ℤ)
    (rest : List UInt8) (hblanks : ∀ c ∈ blanks, isspace c = true)
    (hdigits : ∀ c ∈ digits, isDigit c = true)
    (hstop : isDigit stop = false)
    (hstart : negative = false → digits = [] → isspace stop = false ∧ stop ≠ 45) :
    sscanf (blanks ++ (signBytes negative ++ (digits ++ stop :: rest))) pid =
      some ⟨if digits = [] then pid else signed negative (value digits),
        blanks.length + ((signBytes negative).length + (digits.length + 1))⟩ := by
  have hnumber := scanNumber_append negative pid rest hdigits hstop
  cases negative with
  | true =>
    rw [show signBytes true ++ (digits ++ stop :: rest) = 45 :: (digits ++ stop :: rest) from rfl,
      sscanf_blanks pid hblanks (by decide), if_pos rfl, hnumber]
    simp only [Option.map_some, signBytes, if_true, List.length_singleton, add_assoc]
  | false =>
    have hhead : ∃ c tail, digits ++ stop :: rest = c :: tail ∧ isspace c = false ∧ c ≠ 45 := by
      cases digits with
      | nil => exact ⟨stop, rest, rfl, hstart rfl rfl⟩
      | cons d digits =>
        have hd := hdigits d List.mem_cons_self
        exact ⟨d, _, rfl, isspace_of_isDigit hd, ne_minus_of_isDigit hd⟩
    obtain ⟨c, tail, hcons, hspace, hminus⟩ := hhead
    rw [show signBytes false ++ (digits ++ stop :: rest) = digits ++ stop :: rest from rfl, hcons,
      sscanf_blanks pid hblanks hspace, if_neg hminus, ← hcons, hnumber]
    simp [signBytes]

end LinuxDevNote.Signal
