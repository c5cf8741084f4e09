import Mathlib.Algebra.Order.Ring.Nat
import Mathlib.Tactic.Common

/-!
# Fields of a machine word

A word is cut into fields of some bits each. A field is read by a shift and a mask, and
fields are put side by side by a shift and a disjunction. As numbers, these are a quotient
and a remainder, and a sum.
-/

namespace LinuxDevNote.BitField

variable {w : ℕ}

/-- The field of `width` bits from bit `pos` on. -/
def field (x : BitVec w) (pos width : ℕ) : BitVec w := x >>> pos &&& BitVec.ofNat w (2 ^ width - 1)

/-- A field as a number. -/
theorem toNat_field (x : BitVec w) (pos : ℕ) {width : ℕ} (h : width ≤ w) :
    (field x pos width).toNat = x.toNat / 2 ^ pos % 2 ^ width := by
  have hpow : 2 ^ width ≤ 2 ^ w := Nat.pow_le_pow_right (by decide) h
  have hpos := Nat.two_pow_pos width
  rw [field, BitVec.toNat_and, BitVec.toNat_ushiftRight, Nat.shiftRight_eq_div_pow,
    BitVec.toNat_ofNat, Nat.mod_eq_of_lt (by omega), Nat.and_two_pow_sub_one_eq_mod]

/-- Two fields side by side, as a number. -/
theorem toNat_shiftLeft_or {high low : BitVec w} {pos : ℕ} (hlow : low.toNat < 2 ^ pos)
    (hhigh : high.toNat * 2 ^ pos < 2 ^ w) :
    (high <<< pos ||| low).toNat = high.toNat * 2 ^ pos + low.toNat := by
  rw [BitVec.toNat_or, BitVec.toNat_shiftLeft, Nat.shiftLeft_eq, Nat.mod_eq_of_lt hhigh,
    ← Nat.shiftLeft_eq, ← Nat.shiftLeft_add_eq_or_of_lt hlow]

end LinuxDevNote.BitField
