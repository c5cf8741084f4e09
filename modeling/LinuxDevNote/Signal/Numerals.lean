import LinuxDevNote.Signal.Driver

/-!
# The pid that the application writes

`main` of `app.c` prints its pid into an array of ten bytes and writes the string with its
terminator. The longest number the array has room for is also the longest the driver
parses whole, and every pid of up to nine digits comes back as it was.
-/

namespace LinuxDevNote.Signal

open Kernel Decimal

/-- The length of `buf` in `main`. -/
def appBufSize : ℕ := 10

/-- What `sprintf(buf, "%d", pid)` stores: the numeral and its terminator. -/
def sprintf (pid : ℤ) : List UInt8 := signBytes (decide (pid < 0)) ++ decimal pid.natAbs ++ [0]

/-- `buf` after it, with what it held before behind the terminator. -/
def printed (before : List UInt8) (pid : ℤ) : List UInt8 :=
  sprintf pid ++ before.drop (sprintf pid).length

/-- `strlen`. -/
def strlen (mem : List UInt8) : ℕ := (mem.takeWhile fun c => decide (c ≠ 0)).length

/-- `write(configfd, buf, strlen(buf) + 1)`, as the driver receives it. -/
def writePrinted {Task : Type*} (findTask : ℤ → Option Task) (sendSig : Task → ℤ)
    (stack before : List UInt8) (pid : ℤ) : Option (Outcome Task) :=
  writePid findTask sendSig stack (fun i => (printed before pid)[i]?)
    (strlen (printed before pid) + 1)

/-- Copying from a buffer that holds at least the bytes asked for. -/
theorem copyFromUser_getElem? {mem : List UInt8} {count : ℕ} (h : count ≤ mem.length) :
    copyFromUser (fun i => mem[i]?) count = mem.take count := by
  have hreadable : readable (fun i => mem[i]?) count = mem.take count := by
    induction count generalizing mem with
    | zero => simp [readable]
    | succ count ih =>
      cases mem with
      | nil => simp at h
      | cons b mem => simpa [readable] using ih (Nat.le_of_succ_le_succ h)
  rw [copyFromUser, hreadable, List.length_take, min_eq_left h, Nat.sub_self, List.replicate_zero,
    List.append_nil]

/-- No digit is the terminator. -/
theorem ne_zero_of_isDigit {c : UInt8} (h : isDigit c = true) : c ≠ 0 := by
  rintro rfl
  exact absurd h (by decide)

/-- The string printed for a positive pid. -/
theorem sprintf_of_pos {pid : ℤ} (h : 0 < pid) : sprintf pid = decimal pid.natAbs ++ [0] := by
  simp [sprintf, signBytes, not_lt.mpr h.le]

/-- Its length is the number of digits. -/
theorem strlen_printed {pid : ℤ} (h : 0 < pid) (before : List UInt8) :
    strlen (printed before pid) = (decimal pid.natAbs).length := by
  have hdigits : ∀ c ∈ decimal pid.natAbs, (decide (c ≠ 0)) = true :=
    fun c hc => decide_eq_true (ne_zero_of_isDigit (isDigit_of_mem_decimal hc))
  rw [strlen, printed, sprintf_of_pos h, List.append_assoc, List.takeWhile_append_of_pos hdigits,
    List.singleton_append, List.takeWhile_cons_of_neg (by simp), List.append_nil]

/-- A pid of at most nine digits is an `int`. -/
theorem signed_natAbs {pid : ℤ} (hpos : 1 ≤ pid) (hlt : pid < 10 ^ 9) :
    signed false pid.natAbs = pid := by
  rw [signed, if_neg Bool.false_ne_true, Int.natAbs_of_nonneg (by omega)]
  exact toInt_of_bounds (by omega) (by omega)

/-- **Printing and parsing a pid.** For every pid of at most nine digits the string fits the
array of the application, its bytes pass the driver's check, and the pid parsed is the one
printed, whatever both arrays held before. -/
theorem printed_pid_parsed {Task : Type*} (findTask : ℤ → Option Task) (sendSig : Task → ℤ)
    {pid : ℤ} (hpos : 1 ≤ pid) (hlt : pid < 10 ^ 9) (stack before : List UInt8) :
    (sprintf pid).length ≤ appBufSize ∧ strlen (printed before pid) + 1 ≤ mybufSize ∧
      ∃ o scan, writePrinted findTask sendSig stack before pid = some o ∧ o.scan = some scan ∧
        scan.pid = pid := by
  have hstring := sprintf_of_pos (by omega : 0 < pid)
  have hlen := strlen_printed (by omega : 0 < pid) before
  have hdigits : (decimal pid.natAbs).length ≤ 9 := length_decimal_le (by omega) (by omega)
  have hfits : strlen (printed before pid) + 1 ≤ mybufSize := by
    unfold mybufSize
    omega
  have htotal : (sprintf pid).length = strlen (printed before pid) + 1 := by
    rw [hstring, hlen, List.length_append, List.length_singleton]
  refine ⟨htotal.trans_le hfits, hfits, ?_⟩
  have hcopy : copyFromUser (fun i => (printed before pid)[i]?) (strlen (printed before pid) + 1) =
      decimal pid.natAbs ++ [0] := by
    rw [← htotal, copyFromUser_getElem? (by simp [printed]), printed, List.take_left, hstring]
  have hscan := sscanf_append false 0
    (stack.drop (strlen (printed before pid) + 1)) (show ∀ c ∈ [], isspace c = true by simp)
    (fun c hc => isDigit_of_mem_decimal hc) (show isDigit 0 = false by decide)
    fun _ hnil => absurd hnil (decimal_ne_nil pid.natAbs)
  rw [List.nil_append, show signBytes false = [] from rfl, List.nil_append, ← List.singleton_append,
    ← List.append_assoc, ← hcopy, if_neg (decimal_ne_nil pid.natAbs), value_decimal] at hscan
  obtain ⟨hwrite, hpid⟩ := effect_writePid findTask sendSig hfits hscan
  refine ⟨_, _, hwrite, hpid, ?_⟩
  dsimp only
  exact signed_natAbs hpos hlt

/-- The largest pid that Linux assigns comes back as it was. -/
theorem printed_pid_parsed_run :
    ∃ o scan, writePrinted (fun _ => some ()) (fun _ => 0) (List.replicate 10 255)
      (List.replicate 10 57) 4194304 = some o ∧ o.scan = some scan ∧ scan.pid = 4194304 := by
  have hlo : (1 : ℤ) ≤ 4194304 := by omega
  have hhi : (4194304 : ℤ) < 10 ^ 9 := by omega
  exact (printed_pid_parsed _ _ hlo hhi _ _).2.2

end LinuxDevNote.Signal
