import Mathlib.Data.List.TakeWhile

/-!
# Strings that end with a NUL

What C programs print of an array of bytes, and how they compare two strings: only the bytes
before the first NUL count, whatever follows it.
-/

namespace LinuxDevNote.CString

/-- The text `%s` prints: the bytes before the first NUL, when there is one. -/
def cString (bytes : List UInt8) : Option (List UInt8) :=
  if 0 ∈ bytes then some (bytes.takeWhile (· ≠ 0)) else none

/-- `strncmp` on the bytes before the terminators of two strings. -/
def strncmp : List UInt8 → List UInt8 → ℕ → ℤ
  | _, _, 0 => 0
  | xs, ys, n + 1 =>
    -- past its last byte a string shows its terminator
    let x := xs.headD 0
    let y := ys.headD 0
    if x ≠ y then (if x < y then -1 else 1)
    else if x = 0 then 0
    else strncmp xs.tail ys.tail n

/-- Behind a terminator nothing is printed. -/
theorem cString_append_nul (bytes rest : List UInt8) :
    cString (bytes ++ 0 :: rest) = some (bytes.takeWhile (· ≠ 0)) := by
  have hmem : (0 : UInt8) ∈ bytes ++ 0 :: rest := by simp
  rw [cString, if_pos hmem, Option.some.injEq]
  induction bytes with
  | nil => simp
  | cons b bytes ih =>
    by_cases hb : b = 0
    · simp [hb]
    · have htail := ih (by simp)
      rw [List.cons_append, List.takeWhile_cons_of_pos (by simpa using hb),
        List.takeWhile_cons_of_pos (by simpa using hb), htail]

/-- Bytes without a NUL are all before it. -/
theorem takeWhile_of_nul_free {bytes : List UInt8} (h : 0 ∉ bytes) :
    bytes.takeWhile (· ≠ 0) = bytes := by
  rw [List.takeWhile_eq_self_iff]
  intro b hb
  rw [decide_eq_true_iff]
  rintro rfl
  exact h hb

/-- The bytes before the first NUL are printed, whatever follows it. -/
theorem cString_append {chars : List UInt8} (hchars : 0 ∉ chars) (rest : List UInt8) :
    cString (chars ++ 0 :: rest) = some chars := by
  rw [cString_append_nul, takeWhile_of_nul_free hchars]

/-- With the length of the second string `strncmp` tests whether it starts the first. -/
theorem strncmp_eq_zero_iff {xs ys : List UInt8} (hys : 0 ∉ ys) :
    strncmp xs ys ys.length = 0 ↔ ys <+: xs := by
  induction ys generalizing xs with
  | nil => simp [strncmp]
  | cons y ys ih =>
    rw [List.mem_cons, not_or] at hys
    have hsign : ∀ (p : Prop) [Decidable p], ¬ (if p then (-1 : ℤ) else 1) = 0 := by
      intro p _
      split_ifs <;> decide
    cases xs with
    | nil =>
      have hne : (0 : UInt8) ≠ y := hys.1
      simp only [List.length_cons, strncmp, List.headD_nil, List.headD_cons, if_pos hne,
        List.prefix_nil, reduceCtorEq]
      exact iff_false_intro (hsign _)
    | cons x xs =>
      by_cases hxy : x = y
      · subst hxy
        simp only [List.length_cons, strncmp, List.headD_cons, ne_eq, not_true_eq_false, if_false,
          Ne.symm hys.1, List.tail_cons, ih hys.2, List.prefix_cons_inj]
      · simp only [List.length_cons, strncmp, List.headD_cons, ne_eq, hxy, not_false_eq_true,
          if_true, List.cons_prefix_cons, Ne.symm hxy, false_and]
        exact iff_false_intro (hsign _)

end LinuxDevNote.CString
