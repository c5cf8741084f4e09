import LinuxDevNote.QueueWait.Interleaving

/-!
# What a write acknowledges

A write returns `buff_len`, which every other call shares, after a delay in which
the reader it woke runs. Two counters are kept beside the driver for each call:
the bytes it copied itself, and by how much other calls changed `buff_len` since it
set it to 0. The length is always the sum of the two, so a write acknowledges what
it stored exactly when the others' changes cancel out.
-/

namespace LinuxDevNote.QueueWait

open Kernel Execution

/-- The statements of a write from the one after `buff_len = 0` to the return. -/
def Pc.underWay : Pc → Bool
  | .writeLoop _ | .writePublish | .writeWake | .writeDelay | .writeReturn => true
  | _ => false

/-- The driver, with two counters for each call. -/
structure Watched (ι : Type*) extends State ι where
  /-- The bytes a write copied into `byte`. -/
  copied : ι → ℕ
  /-- By how much other calls changed `buff_len` since a write set it to 0. -/
  drift : ι → ℤ

/-- A write that returned, the value it returned and the bytes it copied. -/
structure Ack (ι : Type*) where
  /-- The write. -/
  writer : ι
  /-- The value returned. -/
  ret : ℤ
  /-- The bytes it copied into `byte`. -/
  copied : ℕ
  deriving DecidableEq

variable {ι : Type*} [DecidableEq ι] {calls : ι → Op}

/-- The bytes copied after a step from one statement to the next: a write starts
with none, and a turn that leads to another turn copied one. -/
def copiedAfter (copied : ℕ) : Pc → Pc → ℕ
  | .start, _ => 0
  | .writeLoop _, .writeLoop _ => copied + 1
  | _, _ => copied

/-- The counters after a step to `t`. -/
def Watched.count (s : Watched ι) (t : State ι) : Label ι → Watched ι
  | .advance i =>
    { toState := t
      copied := Function.update s.copied i (copiedAfter (s.copied i) (s.pc i) (t.pc i))
      drift := fun j =>
        if j = i then if s.pc i = .start then 0 else s.drift i
        else s.drift j + (t.buffLen - s.buffLen) }
  | .signal _ => ⟨t, s.copied, s.drift⟩

/-- The write an event returns from. -/
def Watched.ack (s : Watched ι) : Event ι → Option (Ack ι)
  | .wrote i ret => some ⟨i, ret, s.copied i⟩
  | _ => none

/-- One step of the driver, counted. -/
def Watched.step (calls : ι → Op) (s : Watched ι) (a : Label ι) :
    Option (Watched ι × List (Ack ι)) :=
  (State.step calls s.toState a).map fun p => (s.count p.1 a, p.2.filterMap s.ack)

/-- The loaded module; no call has started. -/
def Watched.init (byte : ℤ → UInt8) : Watched ι := ⟨State.init byte, fun _ => 0, fun _ => 0⟩

/-- When a write returns, the changes other calls made to `buff_len` have cancelled
out. -/
def Watched.Undisturbed (s : Watched ι) : Label ι → Prop
  | .advance i => s.pc i = .writeReturn → s.drift i = 0
  | .signal _ => True

instance (s : Watched ι) : ∀ a, Decidable (s.Undisturbed a)
  | .advance i => inferInstanceAs (Decidable (s.pc i = .writeReturn → s.drift i = 0))
  | .signal _ => isTrue trivial

/-- What a step of call `i` does to `buff_len`. -/
inductive LengthStep (op : Op) (s t : State ι) (i : ι) : List (Event ι) → Prop
  /-- A write sets it to 0. -/
  | begins : s.pc i = .start → t.pc i = .writeLoop 0 → t.buffLen = 0 → LengthStep op s t i []
  /-- A turn of the copy loop stores a byte. -/
  | copies (k : ℕ) : s.pc i = .writeLoop k → t.pc i = .writeLoop (k + 1) →
    toSize s.buffLen < op.size → t.buffLen = toInt (s.buffLen + 1) → LengthStep op s t i []
  /-- A read sets it to 0. -/
  | resets : (s.pc i).underWay = false → (t.pc i).underWay = false → t.buffLen = 0 →
    LengthStep op s t i []
  /-- A write returns it. -/
  | returns : s.pc i = .writeReturn → t.pc i = .done → t.buffLen = s.buffLen →
    LengthStep op s t i [.wrote i s.buffLen]
  /-- The other statements leave it alone. -/
  | keeps {es : List (Event ι)} : ((t.pc i).underWay = true → (s.pc i).underWay = true) →
    (∀ k, t.pc i ≠ .writeLoop k) → s.pc i ≠ .writeReturn → t.buffLen = s.buffLen →
    (∀ j ret, .wrote j ret ∉ es) → LengthStep op s t i es

/-- The steps of a call, as `buff_len` sees them. -/
theorem State.advance_lengthStep {op : Op} {s t : State ι} {i : ι} {es : List (Event ι)}
    (h : s.advance op i = some (t, es)) : LengthStep op s t i es := by
  cases State.advances h with
  | moves hpc hmove =>
    cases hmove <;>
      exact .keeps (by simp [hpc, Pc.underWay]) (by simp) (by simp [hpc]) rfl (by simp)
  | returns hpc hret =>
    cases hret with
    | wrote => exact .returns hpc (by simp) rfl
    | _ => exact .keeps (by simp [Pc.underWay]) (by simp) (by simp [hpc]) rfl (by simp)
  | startWrite hpc => exact .begins hpc (by simp) rfl
  | turn k hpc =>
    obtain ⟨⟨b, go, touched⟩, hturn⟩ : ∃ r, copyTurn op.size (op.source k) s.toBuffer = r :=
      ⟨_, rfl⟩
    cases go with
    | true =>
      obtain ⟨hgo, hlen⟩ := copyTurn_continues hturn
      exact .copies k hpc (by simp [hturn]) hgo (by simpa [hturn] using hlen)
    | false =>
      refine .keeps (fun _ => by simp [hpc, Pc.underWay]) (by simp [hturn]) (by simp [hpc]) ?_
        (by simp)
      simpa [hturn] using copyTurn_stops hturn
  | reset n out hpc => exact .resets (by simp [hpc, Pc.underWay]) (by simp [Pc.underWay]) rfl
  | publish hpc | wake hpc | enqueue hpc | clear hpc =>
    exact .keeps (by simp [hpc, Pc.underWay]) (by simp) (by simp [hpc]) rfl (by simp)

/-- The bounds of `buff_len`, and what it is made of while a write is under way. -/
structure Watched.Counted (s : Watched ι) : Prop where
  /-- `buff_len` is not negative. -/
  nonneg : 0 ≤ s.buffLen
  /-- `buff_len` is at most the largest count. -/
  le : s.buffLen ≤ MAX_RW_COUNT
  /-- `buff_len` is what the write copied and what others changed. -/
  sum : ∀ i, (s.pc i).underWay = true → s.buffLen = s.copied i + s.drift i

omit [DecidableEq ι] in
/-- Nothing is under way at the start. -/
theorem Watched.counted_init (byte : ℤ → UInt8) : (Watched.init byte : Watched ι).Counted where
  nonneg := le_rfl
  le := by simp [init, State.init, Device.init, MAX_RW_COUNT]
  sum i hi := by simp [init, State.init, Pc.underWay] at hi

/-- A step of call `i` keeps the sum of every other call. -/
theorem Watched.Counted.sum_other {s : Watched ι} {t : State ι} {i j : ι} (h : s.Counted)
    (hj : j ≠ i) (hpc : t.pc j = s.pc j) (hunder : (t.pc j).underWay = true) :
    t.buffLen = (s.count t (.advance i)).copied j + (s.count t (.advance i)).drift j := by
  rw [hpc] at hunder
  have hsum := h.sum j hunder
  simp only [count, Function.update_of_ne hj, if_neg hj]
  omega

/-- Every step keeps the counters. -/
theorem Watched.Counted.advance {s : Watched ι} {t : State ι} {i : ι} {es : List (Event ι)}
    (hsize : (calls i).size ≤ MAX_RW_COUNT) (h : s.Counted)
    (hstep : s.toState.advance (calls i) i = some (t, es)) :
    (s.count t (.advance i)).Counted := by
  have hnonneg := h.nonneg
  have hle := h.le
  unfold MAX_RW_COUNT at hle hsize
  -- the sum of the call that moves, and the new bounds, are left to each kind of step
  have hcount : 0 ≤ t.buffLen → t.buffLen ≤ MAX_RW_COUNT →
      ((t.pc i).underWay = true → t.buffLen = copiedAfter (s.copied i) (s.pc i) (t.pc i) +
        if s.pc i = .start then 0 else s.drift i) → (s.count t (.advance i)).Counted := by
    intro hlo hhi hself
    refine ⟨hlo, hhi, fun j hj => ?_⟩
    by_cases hji : j = i
    · subst hji
      simpa [count] using hself hj
    · exact h.sum_other hji (State.advance_pc_of_ne hstep hji) hj
  cases State.advance_lengthStep hstep with
  | begins hfrom hto hlen =>
    refine hcount (by omega) (by omega) fun _ => ?_
    rw [hlen, hfrom, hto]
    rfl
  | copies k hfrom hto hgo hlen =>
    have hsum := h.sum i (by simp [hfrom, Pc.underWay])
    rw [toSize_of_bounds hnonneg (by omega)] at hgo
    rw [toInt_of_bounds (by omega) (by omega)] at hlen
    refine hcount (by omega) (by unfold MAX_RW_COUNT; omega) fun _ => ?_
    rw [hlen, hfrom, hto, hsum]
    simp only [copiedAfter, reduceCtorEq, if_false]
    omega
  | resets hfrom hto hlen =>
    refine hcount (by omega) (by omega) fun hunder => ?_
    rw [hto] at hunder
    cases hunder
  | returns hfrom hto hlen =>
    refine hcount (by omega) (by unfold MAX_RW_COUNT; omega) fun hunder => ?_
    rw [hto] at hunder
    cases hunder
  | keeps hunder hloop hfrom hlen hes =>
    refine hcount (by omega) (by unfold MAX_RW_COUNT; omega) fun hto => ?_
    have hsum := h.sum i (hunder hto)
    have hstart : s.pc i ≠ .start := by
      intro hpc
      have hafter := hunder hto
      simp [hpc, Pc.underWay] at hafter
    have hcopied : copiedAfter (s.copied i) (s.pc i) (t.pc i) = s.copied i := by
      unfold copiedAfter
      split <;> simp_all
    rw [hlen, hcopied, if_neg hstart, hsum]

/-- The value a write returned is the number of bytes it copied. -/
def Ack.Exact (a : Ack ι) : Prop := a.ret = a.copied

/-- A step acknowledges exactly what was copied when the changes of other calls have
cancelled out. -/
theorem Watched.Counted.exact_iff {s : Watched ι} {t : State ι} {i : ι} {es : List (Event ι)}
    (h : s.Counted) (hstep : s.toState.advance (calls i) i = some (t, es)) :
    (∀ a ∈ es.filterMap s.ack, a.Exact) ↔ s.Undisturbed (.advance i) := by
  have hsilent : (∀ j ret, .wrote j ret ∉ es) → s.pc i ≠ .writeReturn →
      ((∀ a ∈ es.filterMap s.ack, a.Exact) ↔ s.Undisturbed (.advance i)) := by
    intro hes hpc
    refine iff_of_true (fun a ha => ?_) fun hreturn => absurd hreturn hpc
    obtain ⟨e, he, hack⟩ := List.mem_filterMap.mp ha
    cases e with
    | wrote j ret => exact absurd he (hes j ret)
    | published w => cases hack
    | cleared r => cases hack
    | delivered r ret out => cases hack
    | failed r ret => cases hack
  cases State.advance_lengthStep hstep with
  | begins hfrom hto hlen => exact hsilent (by simp) (by simp [hfrom])
  | copies k hfrom hto hgo hlen => exact hsilent (by simp) (by simp [hfrom])
  | resets hfrom hto hlen =>
    refine hsilent (by simp) fun hpc => ?_
    rw [hpc] at hfrom
    cases hfrom
  | returns hfrom hto hlen =>
    have hsum := h.sum i (by simp [hfrom, Pc.underWay])
    simp only [List.filterMap_cons, ack, List.filterMap_nil, List.forall_mem_singleton, Ack.Exact,
      Undisturbed, hfrom, forall_const]
    omega
  | keeps hunder hloop hfrom hlen hes => exact hsilent hes hfrom

/-- **What a write acknowledges.** In every run, every write that returns returns the
number of bytes it copied itself exactly when at each of these returns the changes
other calls made to `buff_len` since its `buff_len = 0` have cancelled out. -/
theorem acknowledged_iff (calls : ι → Op) (hsize : ∀ i, (calls i).size ≤ MAX_RW_COUNT)
    {byte : ℤ → UInt8} {schedule : List (Label ι)} {s : Watched ι} {acks : List (Ack ι)}
    (hexec : exec (Watched.step calls) (Watched.init byte) schedule = some (s, acks)) :
    (∀ a ∈ acks, a.Exact) ↔
      Meets (Watched.step calls) Watched.Undisturbed (Watched.init byte) schedule := by
  refine forall_events_iff_meets Watched.Counted Ack.Exact Watched.Undisturbed ?_ ?_
    (Watched.counted_init byte) hexec
  · intro s t a acks h hstep
    obtain ⟨⟨u, es⟩, hu, heq⟩ := Option.map_eq_some_iff.mp hstep
    obtain ⟨-, rfl⟩ := Prod.mk.inj heq
    cases a with
    | advance i => exact h.exact_iff hu
    | signal i =>
      obtain ⟨-, rfl⟩ := Prod.mk.inj (Option.some.inj hu)
      exact iff_of_true (by simp) trivial
  · intro s t a acks h _ hstep
    obtain ⟨⟨u, es⟩, hu, heq⟩ := Option.map_eq_some_iff.mp hstep
    obtain ⟨rfl, -⟩ := Prod.mk.inj heq
    cases a with
    | advance i => exact h.advance (hsize i) hu
    | signal i =>
      obtain ⟨rfl, -⟩ := Prod.mk.inj (Option.some.inj hu)
      exact ⟨h.nonneg, h.le, h.sum⟩

/-- A write that nobody disturbs acknowledges its one byte. -/
theorem acknowledged_iff_run :
    ∃ s, exec (Watched.step writeAndRead) (Watched.init fun _ => 0)
        (List.replicate 7 (Label.advance 0)) = some (s, [⟨0, 1, 1⟩]) ∧
      ∀ a ∈ [(⟨0, 1, 1⟩ : Ack (Fin 2))], a.Exact := by
  obtain ⟨⟨s, acks⟩, hexec, rfl⟩ := Option.map_eq_some_iff.mp
    (show (exec (Watched.step writeAndRead) (Watched.init fun _ => 0)
      (List.replicate 7 (Label.advance 0))).map Prod.snd = some [⟨0, 1, 1⟩] by decide +kernel)
  exact ⟨s, hexec, (acknowledged_iff writeAndRead (by decide) hexec).mpr (by decide +kernel)⟩

/-- A read that runs during the delay of a write makes it return 0 for a byte that
it stored and the read returned. -/
theorem stored_byte_not_acknowledged :
    ¬ ∀ (calls : Fin 2 → Op) (schedule : List (Label (Fin 2))) (s : Watched (Fin 2))
      (acks : List (Ack (Fin 2))), (∀ i, (calls i).size ≤ byteSize) →
        exec (Watched.step calls) (Watched.init fun _ => 0) schedule = some (s, acks) →
          ∀ a ∈ acks, a.Exact := by
  intro h
  let schedule : List (Label (Fin 2)) :=
    List.replicate 5 (Label.advance 0) ++ List.replicate 8 (Label.advance 1) ++
      List.replicate 2 (Label.advance 0)
  obtain ⟨⟨s, acks⟩, hexec, rfl⟩ := Option.map_eq_some_iff.mp
    (show (exec (Watched.step writeAndRead) (Watched.init fun _ => 0) schedule).map Prod.snd =
      some [⟨0, 0, 1⟩] by decide +kernel)
  have hexact := h writeAndRead schedule s _ (by decide) hexec ⟨0, 0, 1⟩ (by decide)
  exact absurd hexact (by simp [Ack.Exact])

end LinuxDevNote.QueueWait
