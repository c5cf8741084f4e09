import LinuxDevNote.Kernel.Machine
import LinuxDevNote.Library.Memory

/-!
# The byte-wise copy loop of the buffered drivers

Two drivers receive a write with the same loop: `buff_len` runs from a start
index up to a bound, and each turn copies one user byte to `byte[buff_len]`, or
leaves the loop at a byte that cannot be read. They differ in the start and the
bound only. This file embeds the loop once and says what it stores.
-/

namespace LinuxDevNote.Kernel

open Memory

/-- The data of the loop: the array and the index that is also its length. -/
structure Buffer where
  /-- `byte`, indexed from its start. -/
  byte : ℤ → UInt8
  /-- `buff_len`. -/
  buffLen : ℤ

/-- What a completed handler leaves behind, for a driver with the globals `Device`. -/
structure Result (Device : Type*) where
  /-- The globals afterwards. -/
  device : Device
  /-- The value returned. -/
  ret : ℤ
  /-- The bytes placed at the start of the caller's buffer. -/
  out : List UInt8
  /-- The indices of `byte` that were accessed. -/
  touched : List ℤ

/-- One turn of the loop: the data afterwards, whether the loop goes on, and the
indices of `byte` it stored to. -/
def copyTurn (bound : ℕ) (src : Option UInt8) (b : Buffer) : Buffer × Bool × List ℤ :=
  if toSize b.buffLen < bound then
    let copied := copyFromUserByte src
    let byte := Function.update b.byte b.buffLen copied.1
    if copied.2 ≠ 0 then (⟨byte, b.buffLen⟩, false, [b.buffLen])
    else (⟨byte, toInt (b.buffLen + 1)⟩, true, [b.buffLen])
  else (b, false, [])

/-- `for (...; buff_len < bound; ++buff_len)`, for at most `turns` turns, with the
user pointer moving on by one byte a turn. -/
def copyLoop (bound : ℕ) : ℕ → (ℕ → Option UInt8) → Buffer → Buffer × List ℤ
  | 0, _, b => (b, [])
  | turns + 1, buf, b =>
    match copyTurn bound (buf 0) b with
    | (b, false, touched) => (b, touched)
    | (b, true, touched) =>
      let rest := copyLoop bound turns (fun i => buf (i + 1)) b
      (rest.1, touched ++ rest.2)

/-- The bytes a caller supplies: the first `size`, up to the first unreadable one. -/
def readable (buf : ℕ → Option UInt8) : ℕ → List UInt8
  | 0 => []
  | size + 1 =>
    match buf 0 with
    | none => []
    | some b => b :: readable (fun i => buf (i + 1)) size

/-- The bytes the loop stores: those supplied, and the zero that the kernel leaves
where the first unreadable byte was to go. -/
def stored (buf : ℕ → Option UInt8) : ℕ → List UInt8
  | 0 => []
  | size + 1 =>
    match buf 0 with
    | none => [0]
    | some b => b :: stored (fun i => buf (i + 1)) size

/-- The loop goes on only below the bound, and then with the next index. -/
theorem copyTurn_continues {bound : ℕ} {src : Option UInt8} {b b' : Buffer} {touched : List ℤ}
    (h : copyTurn bound src b = (b', true, touched)) :
    toSize b.buffLen < bound ∧ b'.buffLen = toInt (b.buffLen + 1) := by
  unfold copyTurn at h
  split at h
  · rename_i hgo
    dsimp only at h
    split at h
    · cases h
    · obtain ⟨rfl, _⟩ := Prod.mk.inj h
      exact ⟨hgo, rfl⟩
  · cases h

/-- The loop is left with the index it had. -/
theorem copyTurn_stops {bound : ℕ} {src : Option UInt8} {b b' : Buffer} {touched : List ℤ}
    (h : copyTurn bound src b = (b', false, touched)) : b'.buffLen = b.buffLen := by
  unfold copyTurn at h
  split at h
  · dsimp only at h
    split at h
    · obtain ⟨rfl, _⟩ := Prod.mk.inj h
      rfl
    · cases h
  · obtain ⟨rfl, _⟩ := Prod.mk.inj h
    rfl

/-- With every byte before the next supplied, a readable byte is supplied as well. -/
theorem readable_succ_of_some {buf : ℕ → Option UInt8} {k : ℕ} {x : UInt8}
    (hall : (readable buf k).length = k) (hx : buf k = some x) :
    readable buf (k + 1) = readable buf k ++ [x] := by
  induction k generalizing buf with
  | zero => simp [readable, hx]
  | succ k ih =>
    cases hbuf : buf 0 with
    | none => simp [readable, hbuf] at hall
    | some b =>
      have hrest := @ih (fun i => buf (i + 1)) (by simpa [readable, hbuf] using hall) hx
      have hcons : ∀ n, readable buf (n + 1) = b :: readable (fun i => buf (i + 1)) n := by
        intro n
        rw [readable, hbuf]
      rw [hcons, hcons, hrest, List.cons_append]

/-- With every byte before the next supplied, an unreadable byte ends the supply. -/
theorem readable_of_none {buf : ℕ → Option UInt8} {k size : ℕ}
    (hall : (readable buf k).length = k) (hk : k ≤ size) (hnone : buf k = none) :
    readable buf size = readable buf k := by
  induction k generalizing buf size with
  | zero => cases size <;> simp [readable, hnone]
  | succ k ih =>
    obtain ⟨size, rfl⟩ : ∃ n, size = n + 1 := ⟨size - 1, by omega⟩
    cases hbuf : buf 0 with
    | none => simp [readable, hbuf] at hall
    | some b =>
      have hrest := @ih (fun i => buf (i + 1)) size (by simpa [readable, hbuf] using hall)
        (by omega) hnone
      simp only [readable, hbuf, hrest]

/-- The supplied bytes come first among the stored ones. -/
theorem readable_prefix_stored (buf : ℕ → Option UInt8) (size : ℕ) :
    readable buf size <+: stored buf size := by
  induction size generalizing buf with
  | zero => simp [readable, stored]
  | succ size ih =>
    cases hbuf : buf 0 with
    | none => simp [readable, hbuf]
    | some b => simpa [readable, stored, hbuf, List.cons_prefix_cons] using ih fun i => buf (i + 1)

/-- When every byte can be read the loop stores exactly the supplied bytes, and
all of them. -/
theorem stored_of_readable {buf : ℕ → Option UInt8} {size : ℕ}
    (h : ∀ k < size, (buf k).isSome = true) :
    stored buf size = readable buf size ∧ (readable buf size).length = size := by
  induction size generalizing buf with
  | zero => simp [stored, readable]
  | succ size ih =>
    obtain ⟨b, hb⟩ := Option.isSome_iff_exists.mp (h 0 (by omega))
    obtain ⟨heq, hlen⟩ := @ih (fun i => buf (i + 1)) fun k hk => h (k + 1) (by omega)
    simp [stored, readable, hb, heq, hlen]

/-- Conversely, when all bytes are supplied each of them can be read. -/
theorem isSome_of_readable_length {buf : ℕ → Option UInt8} {size : ℕ}
    (h : (readable buf size).length = size) : ∀ k < size, (buf k).isSome = true := by
  induction size generalizing buf with
  | zero => exact fun k hk => absurd hk (Nat.not_lt_zero k)
  | succ size ih =>
    cases hbuf : buf 0 with
    | none => simp [readable, hbuf] at h
    | some b =>
      have hrest := @ih (fun i => buf (i + 1)) (by simpa [readable, hbuf] using h)
      intro k hk
      cases k with
      | zero => simp [hbuf]
      | succ k => exact hrest k (by omega)

/-- The loop stores at most `m` bytes exactly when at most `m` were announced or
one of the first `m` cannot be read. -/
theorem stored_length_le_iff {buf : ℕ → Option UInt8} {size m : ℕ} :
    (stored buf size).length ≤ m ↔ size ≤ m ∨ ∃ k < m, buf k = none := by
  induction size generalizing buf m with
  | zero => simp [stored]
  | succ size ih =>
    cases m with
    | zero => cases hbuf : buf 0 <;> simp [stored, hbuf]
    | succ m =>
      cases hbuf : buf 0 with
      | none =>
        simp only [stored, hbuf, List.length_singleton, Nat.le_add_left, true_iff]
        exact Or.inr ⟨0, by omega, hbuf⟩
      | some b =>
        simp only [stored, hbuf, List.length_cons, Nat.add_le_add_iff_right, ih]
        constructor
        · rintro (hle | ⟨k, hk, hnone⟩)
          · exact Or.inl hle
          · exact Or.inr ⟨k + 1, by omega, hnone⟩
        · rintro (hle | ⟨k, hk, hnone⟩)
          · exact Or.inl hle
          · cases k with
            | zero => rw [hbuf] at hnone; cases hnone
            | succ k => exact Or.inr ⟨k, by omega, hnone⟩

/-- From a nonnegative start, and with turns to spare, the loop stores the stored
bytes at consecutive indices, leaves `buff_len` after the supplied ones, and
touches nothing else. -/
theorem copyLoop_spec (bound size turns : ℕ) (buf : ℕ → Option UInt8) (b : Buffer)
    (hturns : size < turns) (hstart : 0 ≤ b.buffLen) (hbound : (bound : ℤ) = b.buffLen + size)
    (hint : bound < 2 ^ 31) :
    copyLoop bound turns buf b =
      (⟨splice b.byte b.buffLen (stored buf size), b.buffLen + (readable buf size).length⟩,
        indices b.buffLen (stored buf size).length) := by
  induction size generalizing turns buf b with
  | zero =>
    obtain ⟨turns, rfl⟩ : ∃ n, turns = n + 1 := ⟨turns - 1, by omega⟩
    have hstop : ¬ toSize b.buffLen < bound := by
      rw [toSize_of_bounds hstart (by omega)]
      omega
    simp [copyLoop, copyTurn, hstop, stored, readable, indices]
  | succ size ih =>
    obtain ⟨turns, rfl⟩ : ∃ n, turns = n + 1 := ⟨turns - 1, by omega⟩
    have hgo : toSize b.buffLen < bound := by
      rw [toSize_of_bounds hstart (by omega)]
      omega
    cases hbuf : buf 0 with
    | none =>
      simp [copyLoop, copyTurn, hgo, hbuf, copyFromUserByte, stored, readable, indices,
        splice_singleton]
    | some x =>
      have hnext : toInt (b.buffLen + 1) = b.buffLen + 1 :=
        toInt_of_bounds (by omega) (by omega)
      have hrest := ih turns (fun i => buf (i + 1))
        ⟨Function.update b.byte b.buffLen x, b.buffLen + 1⟩ (by omega) (by dsimp only; omega)
        (by dsimp only; omega)
      have hcells : stored buf (size + 1) = [x] ++ stored (fun i => buf (i + 1)) size := by
        simp [stored, hbuf]
      have hlen : ((readable buf (size + 1)).length : ℤ) =
          1 + (readable (fun i => buf (i + 1)) size).length := by
        simp [readable, hbuf, add_comm]
      simp only [copyLoop, copyTurn, if_pos hgo, hbuf, copyFromUserByte, ne_eq, not_true_eq_false,
        if_false, hnext, hrest]
      rw [hcells, splice_append, splice_singleton, hlen, List.length_append, List.length_singleton,
        Nat.add_comm 1, indices_succ]
      simp [add_assoc]

end LinuxDevNote.Kernel
