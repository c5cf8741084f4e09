import Mathlib.Algebra.Order.Ring.Nat
import Mathlib.Data.List.Basic
import Mathlib.Data.List.Induction

/-!
# A counting semaphore

A semaphore has a count, kept modulo some number, and the clients that wait in the order they
came. Taking it lowers a positive count and waits otherwise; releasing it lets the first waiting
client through, or raises the count. As long as the count does not wrap, the clients that got
through are the first ones that came, as many as there were permits.
-/

namespace LinuxDevNote.Semaphore

/-- The state of a semaphore. -/
structure Sem (Client : Type*) where
  /-- The permits that are left. -/
  count : ℕ
  /-- The clients that wait, the first one first. -/
  waiting : List Client

/-- An operation. -/
inductive Op (Client : Type*)
  | down (i : Client)
  | up
  deriving DecidableEq

variable {Client : Type*}

/-- An operation, and the client that gets through by it. -/
def Sem.apply (modulus : ℕ) (s : Sem Client) : Op Client → Sem Client × Option Client
  | .down i =>
    if 0 < s.count then ({ s with count := s.count - 1 }, some i)
    else ({ s with waiting := s.waiting ++ [i] }, none)
  | .up =>
    match s.waiting with
    | [] => ({ s with count := (s.count + 1) % modulus }, none)
    | i :: rest => ({ s with waiting := rest }, some i)

/-- The operation does not make the count wrap: a release that nobody waits for finds room. -/
def Sem.Fits (modulus : ℕ) (s : Sem Client) : Op Client → Prop
  | .down _ => True
  | .up => s.waiting = [] → s.count + 1 < modulus

instance (modulus : ℕ) (s : Sem Client) : ∀ op, Decidable (s.Fits modulus op)
  | .down _ => isTrue trivial
  | .up => inferInstanceAs (Decidable (s.waiting = [] → s.count + 1 < modulus))

/-- The clients that came, in order. -/
def downs (ops : List (Op Client)) : List Client :=
  ops.filterMap fun
    | .down i => some i
    | .up => none

/-- How often the semaphore was released. -/
def ups (ops : List (Op Client)) : ℕ :=
  ops.countP fun
    | .down _ => false
    | .up => true

/-- What some operations lead to: the state, and the clients that got through, in order. -/
structure Served (modulus permits : ℕ) (ops : List (Op Client)) (granted : List Client)
    (s : Sem Client) : Prop where
  /-- Those that got through and those that wait are all that came, in order. -/
  queue : granted ++ s.waiting = downs ops
  /-- Every permit is left or was used. -/
  permits : s.count + granted.length = permits + ups ops
  /-- Nobody waits while a permit is left. -/
  free : 0 < s.count → s.waiting = []

variable {modulus permits : ℕ} {ops : List (Op Client)} {granted : List Client} {s : Sem Client}

/-- Taking the semaphore lets nobody through but the client that takes it. -/
theorem Sem.eq_of_down {i j : Client} (h : j ∈ (s.apply modulus (.down i)).2) : j = i := by
  unfold Sem.apply at h
  dsimp only at h
  split at h
  · exact (Option.some.inj h).symm
  · cases h

/-- A client that gets through by a release has waited. -/
theorem Sem.mem_waiting_of_up {i : Client} (h : i ∈ (s.apply modulus .up).2) : i ∈ s.waiting := by
  cases hqueue : s.waiting with
  | nil => simp [Sem.apply, hqueue] at h
  | cons first rest =>
    obtain rfl : first = i := by simpa [Sem.apply, hqueue] using h
    exact List.mem_cons_self

/-- Nobody came. -/
theorem served_init (modulus permits : ℕ) :
    Served modulus permits [] [] (⟨permits, []⟩ : Sem Client) :=
  ⟨rfl, rfl, fun _ => rfl⟩

/-- One more operation that does not make the count wrap. -/
theorem Served.apply (h : Served modulus permits ops granted s) {op : Op Client}
    (hfits : s.Fits modulus op) :
    Served modulus permits (ops ++ [op]) (granted ++ (s.apply modulus op).2.toList)
      (s.apply modulus op).1 := by
  obtain ⟨hqueue, hpermits, hfree⟩ := h
  cases op with
  | down i =>
    have hdowns : downs (ops ++ [.down i]) = downs ops ++ [i] := by simp [downs]
    have hups : ups (ops ++ [.down i]) = ups ops := by simp [ups]
    unfold Sem.apply
    dsimp only
    split
    · rename_i hpos
      have hnone := hfree hpos
      refine ⟨?_, ?_, fun _ => hnone⟩
      · rw [hdowns, ← hqueue, hnone]
        simp
      · rw [hups]
        simp only [Option.toList_some, List.length_append, List.length_singleton]
        omega
    · rename_i hzero
      refine ⟨?_, ?_, fun hpos => absurd hpos hzero⟩
      · rw [hdowns, ← hqueue]
        simp
      · rw [hups]
        simpa using hpermits
  | up =>
    have hdowns : downs (ops ++ [.up]) = downs ops := by simp [downs]
    have hups : ups (ops ++ [.up]) = ups ops + 1 := by simp [ups]
    unfold Sem.apply
    dsimp only
    split
    · rename_i hnone
      have hcount : (s.count + 1) % modulus = s.count + 1 := Nat.mod_eq_of_lt (hfits hnone)
      refine ⟨?_, ?_, fun _ => hnone⟩
      · rw [hdowns, ← hqueue]
        simp
      · rw [hups, hcount]
        simp only [Option.toList_none, List.append_nil]
        omega
    · rename_i i rest hwaiting
      refine ⟨?_, ?_, fun hpos => ?_⟩
      · rw [hdowns, ← hqueue, hwaiting]
        simp
      · rw [hups]
        simp only [Option.toList_some, List.length_append, List.length_singleton]
        omega
      · have hnone := hfree hpos
        rw [hwaiting] at hnone
        cases hnone

/-- **First come, first served.** The clients that got through are the first that came, as many as
there were permits; the others wait, and the permits that nobody came for are left. -/
theorem Served.closed_form (h : Served modulus permits ops granted s) :
    granted = (downs ops).take (permits + ups ops) ∧
      s.waiting = (downs ops).drop (permits + ups ops) ∧
      s.count = permits + ups ops - (downs ops).length := by
  obtain ⟨hqueue, hpermits, hfree⟩ := h
  rw [← hqueue, ← hpermits]
  by_cases hpos : 0 < s.count
  · rw [hfree hpos, List.append_nil, List.take_of_length_le (by omega),
      List.drop_of_length_le (by omega)]
    exact ⟨rfl, rfl, by omega⟩
  · have hzero : s.count = 0 := by omega
    rw [hzero, Nat.zero_add, List.take_left, List.drop_left, List.length_append]
    exact ⟨rfl, rfl, by omega⟩

end LinuxDevNote.Semaphore
