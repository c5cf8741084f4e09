import LinuxDevNote.Signal.Driver

/-!
# Parsing what was written

Nothing terminates `mybuf`, so the scan of `write_pid` goes on behind the bytes that were
written unless one of them ends it. Where one does, the stack plays no part; where none
does, two stacks that differ in the next byte give two pids.
-/

namespace LinuxDevNote.Signal

open Kernel Decimal

variable {Task : Type*}

/-- What is left of the memory behind the blanks, the sign and the digits. -/
def scanRest (mem : List UInt8) : List UInt8 :=
  match mem.dropWhile isspace with
  | [] => []
  | c :: rest => if c = 45 then rest.dropWhile isDigit else (c :: rest).dropWhile isDigit

/-- What a call gives its caller and whom it signals: the pid parsed, the task and the
value returned. -/
def Outcome.effect (o : Outcome Task) : Option ℤ × Option Task × ℤ :=
  (o.scan.map Scan.pid, o.task, o.ret)

/-- The call depends on nothing but what was written. -/
structure OwnBytes (findTask : ℤ → Option Task) (sendSig : Task → ℤ) (buf : ℕ → Option UInt8)
    (count : ℕ) : Prop where
  /-- Two runs from different stacks have the same effect. -/
  same : ∀ stack stack', mybufSize ≤ stack.length → mybufSize ≤ stack'.length →
    (writePid findTask sendSig stack buf count).map Outcome.effect =
      (writePid findTask sendSig stack' buf count).map Outcome.effect
  /-- The scan ends within `mybuf`. -/
  within : ∀ stack, mybufSize ≤ stack.length →
    ∃ o, writePid findTask sendSig stack buf count = some o ∧
      ∀ scan, o.scan = some scan → scan.reads ≤ mybufSize

/-- What a list starts with once the elements in front are dropped. -/
theorem eq_false_of_dropWhile {p : UInt8 → Bool} {l rest : List UInt8} {c : UInt8}
    (h : l.dropWhile p = c :: rest) : p c = false := by
  have hhead := List.head?_dropWhile_not p l
  rw [h] at hhead
  simpa using hhead

/-- Every memory starts with blanks, a sign and digits, each of them possibly missing. -/
theorem exists_scan_parts (mem : List UInt8) :
    ∃ blanks negative digits,
      mem = blanks ++ (signBytes negative ++ (digits ++ scanRest mem)) ∧
      (∀ c ∈ blanks, isspace c = true) ∧ (∀ c ∈ digits, isDigit c = true) ∧
      ∀ stop rest, scanRest mem = stop :: rest → isDigit stop = false ∧
        (negative = false → digits = [] → isspace stop = false ∧ stop ≠ 45) := by
  have hblanks : ∀ c ∈ mem.takeWhile isspace, isspace c = true :=
    fun c hc => List.mem_takeWhile_imp hc
  have hmem := List.takeWhile_append_dropWhile (p := isspace) (l := mem)
  cases hskip : mem.dropWhile isspace with
  | nil =>
    have hrest : scanRest mem = [] := by rw [scanRest, hskip]
    rw [hskip, List.append_nil] at hmem
    refine ⟨mem.takeWhile isspace, false, [], ?_, hblanks, by simp, by simp [hrest]⟩
    simp [signBytes, hrest, hmem]
  | cons c tail =>
    have hspace := eq_false_of_dropWhile hskip
    rw [hskip] at hmem
    by_cases hminus : c = 45
    · have hrest : scanRest mem = tail.dropWhile isDigit := by
        rw [scanRest, hskip]
        exact if_pos hminus
      refine ⟨mem.takeWhile isspace, true, tail.takeWhile isDigit, ?_, hblanks,
        fun d hd => List.mem_takeWhile_imp hd, ?_⟩
      · rw [hrest, List.takeWhile_append_dropWhile]
        subst hminus
        exact hmem.symm
      · intro stop rest hstop
        rw [hrest] at hstop
        exact ⟨eq_false_of_dropWhile hstop, fun h => absurd h (by decide)⟩
    · have hrest : scanRest mem = (c :: tail).dropWhile isDigit := by
        rw [scanRest, hskip]
        exact if_neg hminus
      refine ⟨mem.takeWhile isspace, false, (c :: tail).takeWhile isDigit, ?_, hblanks,
        fun d hd => List.mem_takeWhile_imp hd, ?_⟩
      · rw [hrest, List.takeWhile_append_dropWhile]
        exact hmem.symm
      · intro stop rest hstop
        rw [hrest] at hstop
        refine ⟨eq_false_of_dropWhile hstop, fun _ hnone => ?_⟩
        have hsplit := List.takeWhile_append_dropWhile (p := isDigit) (l := c :: tail)
        rw [hnone, List.nil_append, hstop] at hsplit
        obtain ⟨rfl, _⟩ := List.cons_eq_cons.mp hsplit
        exact ⟨hspace, hminus⟩

/-- Where the memory itself ends the number, what follows it plays no part. -/
theorem sscanf_of_scanRest {mem : List UInt8} (h : scanRest mem ≠ []) (pid : ℤ) :
    ∃ scan : Scan, scan.reads ≤ mem.length ∧ ∀ rest, sscanf (mem ++ rest) pid = some scan := by
  obtain ⟨blanks, negative, digits, hmem, hblanks, hdigits, hstops⟩ := exists_scan_parts mem
  obtain ⟨stop, tail, hrest⟩ := List.exists_cons_of_ne_nil h
  obtain ⟨hstop, hstart⟩ := hstops stop tail hrest
  rw [hrest] at hmem
  refine ⟨⟨if digits = [] then pid else signed negative (value digits),
    blanks.length + ((signBytes negative).length + (digits.length + 1))⟩, ?_, fun rest => ?_⟩
  · rw [hmem]
    simp only [List.length_append, List.length_cons]
    omega
  · have hscan := sscanf_append negative pid (tail ++ rest) hblanks hdigits hstop hstart
    rw [hmem]
    simpa only [List.append_assoc, List.cons_append] using hscan

/-- Where it does not, the next byte of the stack decides. -/
theorem sscanf_of_no_scanRest {mem : List UInt8} (h : scanRest mem = []) (pid : ℤ) :
    ∃ negative n, ∀ d < 10, ∀ rest, ∃ reads,
      sscanf (mem ++ digitByte d :: 0 :: rest) pid =
        some ⟨signed negative (10 * n + d), reads⟩ := by
  obtain ⟨blanks, negative, digits, hmem, hblanks, hdigits, _⟩ := exists_scan_parts mem
  rw [h, List.append_nil] at hmem
  refine ⟨negative, value digits, fun d hd rest => ?_⟩
  have hall : ∀ c ∈ digits ++ [digitByte d], isDigit c = true := by
    intro c hc
    rcases List.mem_append.mp hc with hc | hc
    · exact hdigits c hc
    · rw [List.mem_singleton.mp hc]
      exact isDigit_digitByte hd
  have hzero : isDigit 0 = false := by decide
  have hscan := sscanf_append negative pid rest hblanks hall hzero
    fun _ hnil => absurd hnil (by simp)
  rw [if_neg (by simp), value_append_singleton, digitValue_digitByte hd] at hscan
  refine ⟨_, Eq.trans ?_ hscan⟩
  rw [hmem]
  simp only [List.append_assoc, List.singleton_append]

/-- Numbers that differ in their last digit differ as `int`s. -/
theorem signed_ne (negative : Bool) (n : ℕ) :
    signed negative (10 * n + 1) ≠ signed negative (10 * n + 2) := by
  unfold signed toInt
  rw [Int.bmod_def, Int.bmod_def]
  split_ifs <;> push_cast <;> omega

/-- **Parsing what was written.** Whatever the lookup and the sending do, a call depends on
nothing but the bytes written exactly when one of them ends the number. -/
theorem ownBytes_iff (findTask : ℤ → Option Task) (sendSig : Task → ℤ) (buf : ℕ → Option UInt8)
    {count : ℕ} (hcount : count ≤ mybufSize) :
    OwnBytes findTask sendSig buf count ↔ scanRest (copyFromUser buf count) ≠ [] := by
  constructor
  · intro hown hnone
    obtain ⟨negative, n, hscan⟩ := sscanf_of_no_scanRest hnone 0
    -- Two stacks that differ in the byte behind those written.
    have hparse : ∀ d < 10, ((writePid findTask sendSig
        (List.replicate count 0 ++ digitByte d :: 0 :: List.replicate mybufSize 0) buf count).map
          Outcome.effect).map Prod.fst = some (some (signed negative (10 * n + d))) := by
      intro d hd
      obtain ⟨reads, hreads⟩ := hscan d hd (List.replicate mybufSize 0)
      have hdrop : (List.replicate count (0 : UInt8) ++
          digitByte d :: 0 :: List.replicate mybufSize 0).drop count =
          digitByte d :: 0 :: List.replicate mybufSize 0 := List.drop_left' (by simp)
      rw [← hdrop] at hreads
      obtain ⟨hwrite, hpid⟩ := effect_writePid findTask sendSig hcount hreads
      rw [hwrite, Option.map_some, Option.map_some, Outcome.effect, hpid]
      rfl
    have hsame := hown.same
      (List.replicate count 0 ++ digitByte 1 :: 0 :: List.replicate mybufSize 0)
      (List.replicate count 0 ++ digitByte 2 :: 0 :: List.replicate mybufSize 0)
      (by simp; omega) (by simp; omega)
    have heq := (hparse 1 (by decide)).symm.trans
      ((congrArg (Option.map Prod.fst) hsame).trans (hparse 2 (by decide)))
    exact signed_ne negative n (Option.some.inj (Option.some.inj heq))
  · intro hends
    obtain ⟨scan, hreads, hscan⟩ := sscanf_of_scanRest hends 0
    rw [copyFromUser_length] at hreads
    refine ⟨fun stack stack' _ _ => ?_, fun stack _ => ?_⟩
    · rw [(effect_writePid findTask sendSig hcount (hscan _)).1,
        (effect_writePid findTask sendSig hcount (hscan _)).1]
    · obtain ⟨hwrite, hpid⟩ := effect_writePid findTask sendSig hcount (hscan (stack.drop count))
      refine ⟨_, hwrite, fun s hs => ?_⟩
      obtain rfl := Option.some.inj (hpid.symm.trans hs)
      omega

/-- The number 12 and a newline are written. -/
theorem ownBytes_iff_run :
    OwnBytes (fun _ => some ()) (fun _ => 0) (fun i => ([49, 50, 10] : List UInt8)[i]?) 3 :=
  (ownBytes_iff _ _ _ (by decide)).mpr (by decide)

/-- The number 12 is written without an end: with the digit 3 behind it in the stack, the
pid is 123. -/
theorem stack_parsed :
    ¬ ∀ (findTask : ℤ → Option Unit) (sendSig : Unit → ℤ) (buf : ℕ → Option UInt8) (count : ℕ),
      count ≤ mybufSize → OwnBytes findTask sendSig buf count := by
  intro h
  have hsame := (h (fun _ => none) (fun _ => 0) (fun i => ([49, 50] : List UInt8)[i]?) 2
    (by decide)).same [0, 0, 51, 0, 0, 0, 0, 0, 0, 0] [0, 0, 0, 0, 0, 0, 0, 0, 0, 0]
    (by decide) (by decide)
  exact absurd hsame (by decide)

end LinuxDevNote.Signal
