import Mathlib.Data.Nat.Digits.Lemmas
import Mathlib.Tactic.Ring

/-!
# Decimal numerals as bytes

A numeral is a list of ASCII digits, the most significant first. `decimal` prints a
number, `value` reads a numeral, and reading what was printed gives the number back.
-/

namespace LinuxDevNote.Decimal

/-- An ASCII digit. -/
def isDigit (c : UInt8) : Bool := decide (48 ≤ c ∧ c ≤ 57)

/-- The number that a digit stands for. -/
def digitValue (c : UInt8) : ℕ := c.toNat - 48

/-- The number that a numeral stands for. -/
def value (ds : List UInt8) : ℕ := ds.foldl (fun v c => 10 * v + digitValue c) 0

/-- The digit of a number below ten. -/
def digitByte (d : ℕ) : UInt8 := UInt8.ofNat (48 + d)

/-- The numeral of a number. -/
def decimal (n : ℕ) : List UInt8 :=
  if n = 0 then [48] else (Nat.digits 10 n).reverse.map digitByte

/-- A scan takes the bytes it is for, up to one that it is not for. -/
theorem takeWhile_append_stop {p : UInt8 → Bool} {front : List UInt8} {stop : UInt8}
    (rest : List UInt8) (hfront : ∀ c ∈ front, p c = true) (hstop : p stop = false) :
    (front ++ stop :: rest).takeWhile p = front := by
  rw [List.takeWhile_append_of_pos hfront, List.takeWhile_cons_of_neg (by simp [hstop]),
    List.append_nil]

/-- The scan leaves that byte and what follows it. -/
theorem dropWhile_append_stop {p : UInt8 → Bool} {front : List UInt8} {stop : UInt8}
    (rest : List UInt8) (hfront : ∀ c ∈ front, p c = true) (hstop : p stop = false) :
    (front ++ stop :: rest).dropWhile p = stop :: rest := by
  rw [List.dropWhile_append_of_pos hfront, List.dropWhile_cons_of_neg (by simp [hstop])]

/-- One more digit at the end. -/
theorem value_append_singleton (ds : List UInt8) (c : UInt8) :
    value (ds ++ [c]) = 10 * value ds + digitValue c := by
  simp [value, List.foldl_append]

/-- The byte of a digit, as a number. -/
theorem toNat_digitByte {d : ℕ} (h : d < 10) : (digitByte d).toNat = 48 + d := by
  rw [digitByte, UInt8.toNat_ofNat']
  omega

/-- Reading the digit that was printed. -/
theorem digitValue_digitByte {d : ℕ} (h : d < 10) : digitValue (digitByte d) = d := by
  rw [digitValue, toNat_digitByte h]
  omega

/-- The byte of a digit is a digit. -/
theorem isDigit_digitByte {d : ℕ} (h : d < 10) : isDigit (digitByte d) = true := by
  have hbyte := toNat_digitByte h
  simp only [isDigit, UInt8.le_iff_toNat_le, hbyte, decide_eq_true_eq]
  constructor
  · change 48 ≤ 48 + d
    omega
  · change 48 + d ≤ 57
    omega

/-- The digits of a number, from the least significant one, have its value. -/
theorem value_reverse {ds : List ℕ} (h : ∀ d ∈ ds, d < 10) :
    value (ds.reverse.map digitByte) = Nat.ofDigits 10 ds := by
  induction ds with
  | nil => rfl
  | cons d ds ih =>
    have hd := h d List.mem_cons_self
    have hds : ∀ e ∈ ds, e < 10 := fun e he => h e (List.mem_cons_of_mem _ he)
    rw [List.reverse_cons, List.map_append, List.map_singleton, value_append_singleton, ih hds,
      digitValue_digitByte hd, Nat.ofDigits_cons]
    ring

/-- Reading what was printed. -/
@[simp] theorem value_decimal (n : ℕ) : value (decimal n) = n := by
  unfold decimal
  split
  · rename_i hzero
    rw [hzero]
    rfl
  · rw [value_reverse fun d hd => Nat.digits_lt_base (by omega) hd, Nat.ofDigits_digits]

/-- A numeral consists of digits. -/
theorem isDigit_of_mem_decimal {n : ℕ} {c : UInt8} (h : c ∈ decimal n) : isDigit c = true := by
  unfold decimal at h
  split at h
  · obtain rfl := List.mem_singleton.mp h
    rfl
  · obtain ⟨d, hd, rfl⟩ := List.mem_map.mp h
    exact isDigit_digitByte (Nat.digits_lt_base (by omega) (List.mem_reverse.mp hd))

/-- A numeral has at least one digit. -/
theorem decimal_ne_nil (n : ℕ) : decimal n ≠ [] := by
  unfold decimal
  split
  · exact List.cons_ne_nil _ _
  · rename_i hpos
    rw [ne_eq, List.map_eq_nil_iff, List.reverse_eq_nil_iff]
    exact Nat.digits_ne_nil_iff_ne_zero.mpr hpos

/-- A number below a power of ten has no more digits than the exponent. -/
theorem length_decimal_le {n k : ℕ} (hk : 0 < k) (h : n < 10 ^ k) : (decimal n).length ≤ k := by
  unfold decimal
  split
  · exact hk
  · rw [List.length_map, List.length_reverse, Nat.digits_length_le_iff (by omega)]
    exact h

end LinuxDevNote.Decimal
