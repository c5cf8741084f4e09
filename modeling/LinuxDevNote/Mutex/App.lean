import LinuxDevNote.Mutex.Refinement
import LinuxDevNote.Mutex.RoundTrip

/-!
# The application with the mutex

Two threads of `app.c` fill five bytes of the device, one with `A` and one with `B`, and a
third reads them. With the mutex the five bytes are never mixed: the reader sees all of what
was there before, all `A` or all `B`.
-/

namespace LinuxDevNote.Mutex

open Memory Kernel Execution

/-- `RW_BUFF_SIZE`. -/
def rwBuffSize : ℕ := 5

/-- `tid + 'A'`. -/
def letter (tid : Fin 3) : UInt8 := 65 + UInt8.ofNat tid.val

/-- `wrbuf`, as large as it was allocated. -/
def wrbuf (tid : Fin 3) (k : ℕ) : Option UInt8 := if k < rwBuffSize then some (letter tid) else none

/-- The call that a thread of `wirite_share_mem` makes after its `lseek`. -/
def appCall (tid : Fin 3) : Call :=
  if tid.val < 2 then .write (BitVec.ofNat 64 rwBuffSize) (wrbuf tid)
  else .read (BitVec.ofNat 64 rwBuffSize) fun k => decide (k < rwBuffSize)

/-- The calls of a thread of `wirite_share_mem` on its open file. -/
def wirite_share_mem (tid : Fin 3) : List Call := [.llseek 0 0, appCall tid]

/-- All five bytes of a letter. -/
def filled (tid : Fin 3) : List UInt8 := List.replicate rwBuffSize (letter tid)

/-- All five bytes are the letter of one writer. -/
def OneLetter (bytes : List UInt8) : Prop := ∃ tid : Fin 3, tid.val < 2 ∧ bytes = filled tid

section Programs

variable {ι : Type*} [DecidableEq ι] {a : Atomic ι} {i : ι}

/-- The calls of a program, nothing coming between. -/
def runProgram (mem : Mem) (loff : BitVec 64) (got : List Result) : List Call → Mem × View
  | [] => (mem, ⟨loff, [], got⟩)
  | c :: cs =>
    let done := c.whole mem loff
    runProgram done.mem done.loff (got ++ [done.result]) cs

/-- A client goes through its program, nothing coming between. -/
theorem exec_program {loff : BitVec 64} {program : List Call} {got : List Result}
    (h : a.clients i = ⟨loff, program, got⟩) :
    ∃ is b es, exec Atomic.step a is = some (b, es) ∧
      b.mem = (runProgram a.mem loff got program).1 ∧
      b.clients i = (runProgram a.mem loff got program).2 ∧
      ∀ j, j ≠ i → b.clients j = a.clients j := by
  induction program generalizing a loff got with
  | nil => exact ⟨[], a, [], rfl, rfl, h, fun _ _ => rfl⟩
  | cons c cs ih =>
    obtain ⟨b, hb⟩ : ∃ b : Atomic ι, b = ⟨(c.whole a.mem loff).mem, Function.update a.clients i
      ⟨(c.whole a.mem loff).loff, cs, got ++ [(c.whole a.mem loff).result]⟩⟩ := ⟨_, rfl⟩
    have hstep : a.step i = some (b, [(i, (c.whole a.mem loff).result)]) := by
      rw [hb]
      simp only [Atomic.step, h]
    have hmem : b.mem = (c.whole a.mem loff).mem := by rw [hb]
    have hself : b.clients i =
        ⟨(c.whole a.mem loff).loff, cs, got ++ [(c.whole a.mem loff).result]⟩ := by
      rw [hb]
      exact Function.update_self _ _ _
    have hothers : ∀ j, j ≠ i → b.clients j = a.clients j := by
      intro j hj
      rw [hb]
      exact Function.update_of_ne hj _ _
    obtain ⟨is, d, es, hexec, hdmem, hdself, hdothers⟩ := ih hself
    rw [hmem] at hdmem hdself
    exact ⟨i :: is, d, _, exec_cons_eq_some.mpr ⟨b, _, es, hstep, hexec, rfl⟩, hdmem, hdself,
      fun j hj => (hdothers j hj).trans (hothers j hj)⟩

end Programs

/-- The atomic driver with the threads of the application. -/
abbrev appInit (mem : Mem) : Atomic (Fin 3) := Atomic.init mem (fun _ => 0) wirite_share_mem

/-- `lseek(fd, 0, 0)`. -/
theorem whole_lseek (mem : Mem) (loff : BitVec 64) :
    (Call.llseek 0 0).whole mem loff = ⟨mem, 0, (0, [])⟩ := by
  have hsought : ∀ fPos, llseek fPos 0 0 = (0, 0) := fun _ => rfl
  rw [Call.whole, hsought]

/-- The bytes that a writer copies. -/
theorem whole_write {tid : Fin 3} (htid : tid.val < 2) (mem : Mem) :
    (appCall tid).whole mem 0 = ⟨splice mem 0 (filled tid), 5, (5, [])⟩ := by
  rw [appCall, if_pos htid, whole_write_of_lt (by decide), writeLoop_mem]
  rfl

/-- The bytes that the reader gets. -/
theorem whole_read (mem : Mem) :
    (appCall 2).whole mem 0 = ⟨mem, 5, (5, slice mem 0 rwBuffSize)⟩ := by
  rw [show appCall 2 = .read (BitVec.ofNat 64 rwBuffSize) fun k => decide (k < rwBuffSize) from rfl,
    Call.whole, read_of_writable mem _ _ (by decide) (by decide)]
  rfl

/-- How far a thread is: it has called nothing yet, has sought the start, or is through. -/
inductive Stage (mem : Mem) (tid : Fin 3) : View → Prop
  | fresh : Stage mem tid ⟨0, [.llseek 0 0, appCall tid], []⟩
  | sought : Stage mem tid ⟨0, [appCall tid], [(0, [])]⟩
  | wrote (htid : tid.val < 2) : Stage mem tid ⟨5, [], [(0, []), (5, [])]⟩
  | found {out : List UInt8} (htid : tid = 2)
      (hout : out = slice mem 0 rwBuffSize ∨ OneLetter out) :
      Stage mem tid ⟨5, [], [(0, []), (5, out)]⟩

/-- What holds while the threads run. -/
structure AppInv (mem : Mem) (a : Atomic (Fin 3)) : Prop where
  /-- The five bytes are never mixed. -/
  whole : slice a.mem 0 rwBuffSize = slice mem 0 rwBuffSize ∨ OneLetter (slice a.mem 0 rwBuffSize)
  /-- The threads. -/
  stage : ∀ i, Stage mem i (a.clients i)
  /-- Once a writer is through the old bytes are gone. -/
  written : ∀ i : Fin 3, i.val < 2 → (a.clients i).todo = [] →
    OneLetter (slice a.mem 0 rwBuffSize)

/-- Nobody has called anything. -/
theorem appInv_init (mem : Mem) : AppInv mem (appInit mem) where
  whole := Or.inl rfl
  stage _ := .fresh
  written _ _ h := by cases h

/-- A step keeps the invariant when the thread is in order, and the five bytes are as before or
those of a writer. -/
theorem AppInv.after {mem mem' : Mem} {a : Atomic (Fin 3)} {i : Fin 3} {view : View}
    (h : AppInv mem a) (hview : Stage mem i view)
    (hmem : (slice mem' 0 rwBuffSize = slice a.mem 0 rwBuffSize ∧
        (i.val < 2 → view.todo ≠ [])) ∨
      OneLetter (slice mem' 0 rwBuffSize)) :
    AppInv mem ⟨mem', Function.update a.clients i view⟩ where
  whole := by
    rcases hmem with ⟨hsame, _⟩ | hfilled
    · rw [hsame]
      exact h.whole
    · exact Or.inr hfilled
  stage j := by
    by_cases hj : j = i
    · subst hj
      simpa using hview
    · simpa [Function.update_of_ne hj] using h.stage j
  written j hj htodo := by
    rcases hmem with ⟨hsame, hleft⟩ | hfilled
    · by_cases hji : j = i
      · subst hji
        simp only [Function.update_self] at htodo
        exact absurd htodo (hleft hj)
      · simp only [Function.update_of_ne hji] at htodo
        simp only [hsame]
        exact h.written j hj htodo
    · exact hfilled

/-- A call of a thread keeps the bytes unmixed. -/
theorem AppInv.step {mem : Mem} {a b : Atomic (Fin 3)} {i : Fin 3} {es : List (Fin 3 × Result)}
    (h : AppInv mem a) (hstep : a.step i = some (b, es)) : AppInv mem b := by
  have hstage := h.stage i
  generalize hview : a.clients i = view at hstage
  cases hstage with
  | wrote | found => simp [Atomic.step, hview] at hstep
  | fresh =>
    simp only [Atomic.step, hview, whole_lseek, Option.some.injEq, Prod.mk.injEq] at hstep
    obtain ⟨rfl, _⟩ := hstep
    exact h.after .sought (Or.inl ⟨rfl, fun _ => List.cons_ne_nil _ _⟩)
  | sought =>
    by_cases hi : i.val < 2
    · simp only [Atomic.step, hview, whole_write hi, Option.some.injEq, Prod.mk.injEq] at hstep
      obtain ⟨rfl, _⟩ := hstep
      exact h.after (.wrote hi) (Or.inr ⟨i, hi, slice_splice _ _ _⟩)
    · obtain rfl : i = 2 := by omega
      simp only [Atomic.step, hview, whole_read, Option.some.injEq, Prod.mk.injEq] at hstep
      obtain ⟨rfl, _⟩ := hstep
      exact h.after (.found rfl h.whole) (Or.inl ⟨rfl, fun hlt => absurd hlt hi⟩)

/-- What the reader may find, and what may remain, when the bytes are never mixed. -/
def Whole (mem : Mem) (out fin : List UInt8) : Prop :=
  (out = slice mem 0 rwBuffSize ∨ OneLetter out) ∧ OneLetter fin

/-- A program that ran has no calls left. -/
theorem runProgram_todo (mem : Mem) (loff : BitVec 64) (got : List Result) (program : List Call) :
    (runProgram mem loff got program).2.todo = [] := by
  induction program generalizing mem loff got with
  | nil => rfl
  | cons c cs ih => exact ih _ _ _

/-- One thread after another. -/
theorem reaches_inOrder (share : Share) {x y z : Fin 3} (hxy : x ≠ y) (hxz : x ≠ z)
    (hyz : y ≠ z) :
    let first := runProgram share.mem 0 [] (wirite_share_mem x)
    let second := runProgram first.1 0 [] (wirite_share_mem y)
    let third := runProgram second.1 0 [] (wirite_share_mem z)
    ∃ o, Reaches share (fun _ => 0) wirite_share_mem o ∧ o.mem = third.1 ∧
      o.got x = first.2.got ∧ o.got y = second.2.got ∧ o.got z = third.2.got := by
  obtain ⟨is, a, es, ha, hmem, hx, haothers⟩ := exec_program (a := appInit share.mem) (i := x) rfl
  obtain ⟨js, b, fs, hb, hbmem, hy, hbothers⟩ := exec_program (haothers y hxy.symm)
  obtain ⟨ks, c, gs, hc, hcmem, hz, hcothers⟩ := exec_program
    ((hbothers z hyz.symm).trans (haothers z hxz.symm))
  rw [hmem] at hbmem hy
  rw [hbmem] at hcmem hz
  have hcx := (hcothers x hxz).trans ((hbothers x hxy).trans hx)
  have hcy := (hcothers y hyz).trans hy
  refine ⟨_, reaches_of_atomicallyReaches
    ⟨_, c, _, exec_append (exec_append ha hb) hc, fun i => ?_, rfl⟩, hcmem,
    congrArg View.got hcx, congrArg View.got hcy, congrArg View.got hz⟩
  obtain rfl | rfl | rfl : i = x ∨ i = y ∨ i = z := by omega
  · rw [hcx, runProgram_todo]
  · rw [hcy, runProgram_todo]
  · rw [hz, runProgram_todo]

/-- What a writer leaves. -/
theorem runProgram_writer {tid : Fin 3} (htid : tid.val < 2) (mem : Mem) :
    runProgram mem 0 [] (wirite_share_mem tid) =
      (splice mem 0 (filled tid), ⟨5, [], [(0, []), (5, [])]⟩) := by
  simp only [wirite_share_mem, runProgram, whole_lseek, whole_write htid]
  rfl

/-- What the reader finds. -/
theorem runProgram_reader (mem : Mem) :
    runProgram mem 0 [] (wirite_share_mem 2) =
      (mem, ⟨5, [], [(0, []), (5, slice mem 0 rwBuffSize)]⟩) := by
  simp only [wirite_share_mem, runProgram, whole_lseek, whole_read]
  rfl

/-- What a writer copied is read back. -/
theorem slice_filled (mem : Mem) (tid : Fin 3) :
    slice (splice mem 0 (filled tid)) 0 rwBuffSize = filled tid := slice_splice _ _ _

section Orders

variable {x y : Fin 3} (hx : x.val < 2) (hy : y.val < 2) (hxy : x ≠ y)
include hx hy hxy

/-- The reader comes before both writers. -/
theorem reaches_reader_first (share : Share) : ∃ o, Reaches share (fun _ => 0) wirite_share_mem o ∧
    o.got 2 = [(0, []), (5, slice share.mem 0 rwBuffSize)] ∧
    slice o.mem 0 rwBuffSize = filled y := by
  obtain ⟨o, ho, hmem, hread, _, _⟩ := reaches_inOrder share (x := 2) (y := x) (z := y)
    (by omega) (by omega) hxy
  rw [runProgram_reader, runProgram_writer hx, runProgram_writer hy] at hmem
  rw [runProgram_reader] at hread
  exact ⟨o, ho, hread, hmem ▸ slice_filled _ _⟩

/-- The reader comes between the writers. -/
theorem reaches_reader_between (share : Share) :
    ∃ o, Reaches share (fun _ => 0) wirite_share_mem o ∧ o.got 2 = [(0, []), (5, filled x)] ∧
      slice o.mem 0 rwBuffSize = filled y := by
  obtain ⟨o, ho, hmem, _, hread, _⟩ := reaches_inOrder share (x := x) (y := 2) (z := y)
    (by omega) hxy (by omega)
  rw [runProgram_writer hx, runProgram_reader, runProgram_writer hy] at hmem
  rw [runProgram_writer hx, runProgram_reader, slice_filled] at hread
  exact ⟨o, ho, hread, hmem ▸ slice_filled _ _⟩

/-- The reader comes after both writers. -/
theorem reaches_reader_last (share : Share) :
    ∃ o, Reaches share (fun _ => 0) wirite_share_mem o ∧ o.got 2 = [(0, []), (5, filled y)] ∧
      slice o.mem 0 rwBuffSize = filled y := by
  obtain ⟨o, ho, hmem, _, _, hread⟩ := reaches_inOrder share (x := x) (y := y) (z := 2)
    hxy (by omega) (by omega)
  rw [runProgram_writer hx, runProgram_writer hy, runProgram_reader] at hmem
  rw [runProgram_writer hx, runProgram_writer hy, runProgram_reader, slice_filled] at hread
  exact ⟨o, ho, hread, hmem ▸ slice_filled _ _⟩

end Orders

/-- **The application with the mutex.** Over all runs, the reader finds the old bytes, all `A` or
all `B`, and all `A` or all `B` remain, each with each. -/
theorem app_whole_iff (share : Share) (out fin : List UInt8) :
    (∃ o, Reaches share (fun _ => 0) wirite_share_mem o ∧ o.got 2 = [(0, []), (5, out)] ∧
        slice o.mem 0 rwBuffSize = fin) ↔ Whole share.mem out fin := by
  constructor
  · rintro ⟨o, ho, hout, rfl⟩
    obtain ⟨is, a, es, hexec, hover, rfl⟩ := atomicallyReaches_of_reaches ho
    have h : AppInv share.mem a :=
      (run_of_exec (meets_anyLabel _ _) hexec).invariant (I := fun a _ => AppInv share.mem a)
        (appInv_init _) fun h _ hstep => h.step hstep
    refine ⟨?_, h.written 0 (by decide) (hover 0)⟩
    have hstage := h.stage 2
    have htodo := hover 2
    dsimp only at hout
    generalize a.clients 2 = view at hstage hout htodo
    cases hstage with
    | fresh | sought => cases htodo
    | wrote htid => exact absurd htid (by decide)
    | found _ hfound =>
      simp only [List.cons.injEq, Prod.mk.injEq, true_and, and_true] at hout
      exact hout ▸ hfound
  · rintro ⟨hout, y, hy, rfl⟩
    obtain ⟨x, hx, hxy⟩ : ∃ x : Fin 3, x.val < 2 ∧ x ≠ y := by
      revert y
      decide
    rcases hout with rfl | ⟨z, hz, rfl⟩
    · exact reaches_reader_first hx hy hxy share
    · by_cases hzy : z = y
      · subst hzy
        exact reaches_reader_last hx hz hxy share
      · exact reaches_reader_between hz hy hzy share

end LinuxDevNote.Mutex
