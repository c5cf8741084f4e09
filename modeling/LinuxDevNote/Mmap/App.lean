import LinuxDevNote.Mmap.SharedArray

/-!
# The application of the mmap driver

Each run of `mmap_app.c` maps the page, prints its first ten bytes and sets them to 66 one by
one, and prints them again. Any number of runs share the page. Which of the two values a byte
has when it is printed first depends on whether another run was faster; the second time it is 66.
-/

namespace LinuxDevNote.Mmap

open Execution Paging Stores

/-- The statement of `mmap_app.c` that a run executes next, with `p_map` and `i`. -/
inductive AppPc
  | start
  | print (p k : ℕ)
  | store (p k : ℕ)
  | printAgain (p k : ℕ)
  | unmap (p : ℕ)
  | done

/-- The runs of the application, on a machine. -/
structure App (ι : Type*) where
  /-- The machine. -/
  machine : Machine ι
  /-- The next statement of each run. -/
  pc : ι → AppPc

/-- The memory after the loop of `dev_init`. -/
def fillBuffer (m : DirectMap) (b : PageBuffer) (ram : ℕ → UInt8) : ℕ → UInt8 :=
  (List.range fillSize).foldl
    (fun ram k => Function.update ram (m.bufferByte b k) (UInt8.ofNat k)) ram

/-- The module is loaded, and no run has started. -/
def App.init (ι : Type*) (m : DirectMap) (b : PageBuffer) (ram : ℕ → UInt8) : App ι :=
  ⟨.loaded ι b (fillBuffer m b ram), fun _ => .start⟩

/-- A run asks for the page, at an address that the kernel chooses, or takes another step. -/
inductive AppLabel (ι : Type*)
  | mmap (i : ι) (vma : Vma) (fails : Bool)
  | advance (i : ι)

/-- What is seen: a byte that is printed first, stored or printed again, a request that failed,
and the end of a run that accessed a page it does not have. -/
inductive AppEvent (ι : Type*)
  | shown (i : ι) (k : ℕ) (x : UInt8)
  | stored (i : ι) (k : ℕ)
  | shownAgain (i : ι) (k : ℕ) (x : UInt8)
  | mmapFailed (i : ι)
  | killed (i : ι)
  deriving DecidableEq

/-- `i<10` in the loops of the application. -/
def loopSize : ℕ := 10

section

variable {ι : Type*} [DecidableEq ι]

/-- A run accesses a byte, shows something of it and goes on. -/
def App.access (m : DirectMap) (s : App ι) (i : ι) (a : MachineLabel ι) (pc : AppPc)
    (event : UInt8 → AppEvent ι) : Option (App ι × List (AppEvent ι)) :=
  (s.machine.step m a).map fun p =>
    match p.2 with
    | [.loaded _ _ x] | [.stored _ _ x] => (⟨p.1, Function.update s.pc i pc⟩, [event x])
    | _ => (⟨p.1, Function.update s.pc i .done⟩, [.killed i])

/-- The request of a run, for one page from the start of the device. -/
def App.mmap (m : DirectMap) (s : App ι) (i : ι) (vma : Vma) (fails : Bool) :
    Option (App ι × List (AppEvent ι)) :=
  if vma.vmPgoff = 0 ∧ vma.length = PAGE_SIZE then
    (s.machine.step m (.driver (.mmap i vma fails))).map fun p =>
      if (myMap m s.machine.driver.bufferAddr fails vma (s.machine.driver.table i)).1 = 0 then
        (⟨p.1, Function.update s.pc i (.print vma.vmStart.toNat 0)⟩, [])
      else (⟨p.1, Function.update s.pc i .done⟩, [.mmapFailed i])
  else none

/-- One step. -/
def App.step (m : DirectMap) (s : App ι) : AppLabel ι → Option (App ι × List (AppEvent ι))
  | .mmap i vma fails =>
    match s.pc i with
    | .start => s.mmap m i vma fails
    | _ => none
  | .advance i =>
    match s.pc i with
    | .start | .done => none
    | .print p k => s.access m i (.load i (p + k)) (.store p k) (.shown i k)
    | .store p k =>
      s.access m i (.store i (p + k) 66)
        (if k + 1 < loopSize then .print p (k + 1) else .printAgain p 0) fun _ => .stored i k
    | .printAgain p k =>
      s.access m i (.load i (p + k))
        (if k + 1 < loopSize then .printAgain p (k + 1) else .unmap p) (.shownAgain i k)
    | .unmap p =>
      (s.machine.step m (.driver (.munmap i (p / PAGE_SIZE) 1))).map fun q =>
        (⟨q.1, Function.update s.pc i .done⟩, [])

end

/-- The stores of a trace. -/
def appStores {ι : Type*} (trace : List (AppEvent ι)) : List (ℕ × UInt8) :=
  trace.filterMap fun
    | .stored _ k => some (k, 66)
    | _ => none

/-- What a run prints: first 66 if the byte was stored by some run, and what `dev_init` left there
if not; the second time 66. -/
def Shows {ι : Type*} (before : List (AppEvent ι)) : AppEvent ι → Prop
  | .shown _ k x =>
    (x = 66 ∧ ∃ j, .stored j k ∈ before) ∨ (x = UInt8.ofNat k ∧ ∀ j, .stored j k ∉ before)
  | .shownAgain _ _ x => x = 66
  | .killed _ => False
  | _ => True

variable {ι : Type*} {m : DirectMap} {b : PageBuffer} {ram : ℕ → UInt8} {s t : App ι}
  {trace es : List (AppEvent ι)}

/-- What `dev_init` left in the first ten bytes. -/
theorem fillBuffer_bufferByte {k : ℕ} (hk : k < fillSize) :
    fillBuffer m b ram (m.bufferByte b k) = UInt8.ofNat k := by
  have hlt : ∀ l < fillSize, l < PAGE_SIZE := fun l hl => lt_trans hl (by decide)
  have hfill : fillBuffer m b ram = contents ram
      (((List.range fillSize).map fun l => (l, UInt8.ofNat l)).map
        fun s => (m.bufferByte b s.1, s.2)) := by
    rw [fillBuffer, contents, List.map_map, List.foldl_map]
    rfl
  rw [hfill, contents_map (fun k => k < PAGE_SIZE) (fun _ _ hk hl => bufferByte_inj hk hl) ram
    (by simpa using hlt) (hlt k hk)]
  refine contents_of_forall (by simpa using hk) fun y hy => ?_
  obtain ⟨l, _, hl⟩ := List.mem_map.mp hy
  obtain ⟨rfl, rfl⟩ := Prod.mk.inj hl
  rfl

/-- What a byte holds after the stores of the runs. -/
theorem contents_appStores (start : ℕ → UInt8) (trace : List (AppEvent ι)) (k : ℕ) :
    (contents start (appStores trace) k = 66 ∧ ∃ j, .stored j k ∈ trace) ∨
      (contents start (appStores trace) k = start k ∧ ∀ j, .stored j k ∉ trace) := by
  have hmem : ∀ y, (k, y) ∈ appStores trace ↔ y = 66 ∧ ∃ j, .stored j k ∈ trace := by
    intro y
    constructor
    · intro hy
      obtain ⟨e, he, heq⟩ := List.mem_filterMap.mp hy
      cases e with
      | stored j l =>
        obtain ⟨rfl, rfl⟩ := Prod.mk.inj (Option.some.inj heq)
        exact ⟨rfl, j, he⟩
      | _ => cases heq
    · rintro ⟨rfl, j, hj⟩
      exact List.mem_filterMap.mpr ⟨_, hj, rfl⟩
  by_cases hstored : ∃ j, .stored j k ∈ trace
  · have hcell : k ∈ (appStores trace).map Prod.fst :=
      List.mem_map.mpr ⟨_, (hmem 66).mpr ⟨rfl, hstored⟩, rfl⟩
    exact Or.inl ⟨contents_of_forall hcell fun y hy => ((hmem y).mp hy).1, hstored⟩
  · refine Or.inr ⟨contents_of_notMem fun h => ?_, not_exists.mp hstored⟩
    obtain ⟨⟨_, y⟩, hy, rfl⟩ := List.mem_map.mp h
    exact hstored ((hmem y).mp hy).2

/-- The page at an address of a run is mapped. -/
def Mapped (d : State ι) (i : ι) (p : ℕ) : Prop :=
  place p = 0 ∧ ∀ k < PAGE_SIZE, ((d.table i).translate PAGE_SIZE (p + k)).isSome = true

/-- What is known about a run at its statement. -/
def Going (d : State ι) (trace : List (AppEvent ι)) (i : ι) : AppPc → Prop
  | .print p k | .store p k => Mapped d i p ∧ k < loopSize ∧ ∀ l < k, .stored i l ∈ trace
  | .printAgain p k => Mapped d i p ∧ k < loopSize ∧ ∀ l < loopSize, .stored i l ∈ trace
  | _ => True

/-- What holds while the application runs. -/
structure App.Inv (m : DirectMap) (b : PageBuffer) (ram : ℕ → UInt8) (s : App ι)
    (trace : List (AppEvent ι)) : Prop where
  /-- The machine has carried out the stores. -/
  machine : ∃ accesses, s.machine.Inv m b (fillBuffer m b ram) accesses ∧
    storesOf accesses = appStores trace
  /-- Every run is where it should be. -/
  going : ∀ i, Going s.machine.driver trace i (s.pc i)
  /-- What was printed. -/
  shows : Justified Shows trace

/-- No run has started. -/
theorem App.inv_init : App.Inv m b ram (.init ι m b ram) [] where
  machine := ⟨[], Machine.inv_loaded, rfl⟩
  going _ := trivial
  shows := justified_nil

/-- A run that takes no step stays where it is. -/
theorem Going.frame {d d' : State ι} {i : ι} {pc : AppPc} (h : Going d trace i pc)
    (htable : d'.table i = d.table i) : Going d' (trace ++ es) i pc := by
  have hmapped : ∀ p, Mapped d i p → Mapped d' i p := fun p hp => by
    rw [Mapped, htable]
    exact hp
  have hstored : ∀ l, .stored i l ∈ trace → .stored i l ∈ trace ++ es :=
    fun l hl => List.mem_append_left _ hl
  cases pc with
  | print p k | store p k =>
    exact ⟨hmapped p h.1, h.2.1, fun l hl => hstored l (h.2.2 l hl)⟩
  | printAgain p k => exact ⟨hmapped p h.1, h.2.1, fun l hl => hstored l (h.2.2 l hl)⟩
  | start | unmap | done => trivial

/-- The address of a byte is at its place. -/
theorem place_add {p k : ℕ} (hp : place p = 0) (hk : k < PAGE_SIZE) : place (p + k) = k := by
  unfold place PAGE_SIZE at *
  omega

/-- A byte that is shown. -/
theorem App.Inv.shown (h : s.Inv m b ram trace) {k : ℕ} (hk : k < loopSize) :
    let x := s.machine.ram (m.bufferByte b k)
    (x = 66 ∧ ∃ j, .stored j k ∈ trace) ∨ (x = UInt8.ofNat k ∧ ∀ j, .stored j k ∉ trace) := by
  obtain ⟨accesses, hmachine, hstores⟩ := h.machine
  dsimp only
  have hfilled : fillBuffer m b ram (m.bufferByte b k) = UInt8.ofNat k := fillBuffer_bufferByte hk
  rw [hmachine.ram_bufferByte (lt_trans hk (by decide)), hstores, ← hfilled]
  exact contents_appStores (fun k => fillBuffer m b ram (m.bufferByte b k)) trace k

variable [DecidableEq ι]

/-- A step of one run. -/
theorem App.Inv.after {i : ι} {machine : Machine ι} {pc : AppPc} {accesses : List (Access ι)}
    (h : s.Inv m b ram trace) (hmachine : machine.Inv m b (fillBuffer m b ram) accesses)
    (hstores : storesOf accesses = appStores (trace ++ es))
    (htables : ∀ j, j ≠ i → machine.driver.table j = s.machine.driver.table j)
    (hgoing : Going machine.driver (trace ++ es) i pc) (hshows : Justified Shows (trace ++ es)) :
    App.Inv m b ram ⟨machine, Function.update s.pc i pc⟩ (trace ++ es) := by
  refine ⟨⟨accesses, hmachine, hstores⟩, fun j => ?_, hshows⟩
  by_cases hj : j = i
  · subst hj
    dsimp only
    rwa [Function.update_self]
  · dsimp only
    rw [Function.update_of_ne hj]
    exact (h.going j).frame (htables j hj)

/-- A load of a byte of the page. -/
theorem App.Inv.access_load {i : ι} {p k : ℕ} {pc : AppPc} {event : UInt8 → AppEvent ι}
    (h : s.Inv m b ram trace) (hmapped : Mapped s.machine.driver i p) (hk : k < loopSize) :
    s.access m i (.load i (p + k)) pc event =
      some (⟨s.machine, Function.update s.pc i pc⟩,
        [event (s.machine.ram (m.bufferByte b k))]) := by
  have hpage : k < PAGE_SIZE := lt_trans hk (by decide)
  obtain ⟨accesses, hmachine, _⟩ := h.machine
  obtain ⟨q, hq⟩ := Option.isSome_iff_exists.mp (hmapped.2 k hpage)
  have hbyte := translate_eq hmachine.buffer hmachine.own hq
  rw [place_add hmapped.1 hpage] at hbyte
  simp only [App.access, Machine.step, hq, hbyte, Option.map_some]

/-- A store to a byte of the page. -/
theorem App.Inv.access_store {i : ι} {p k : ℕ} {x : UInt8} {pc : AppPc}
    {event : UInt8 → AppEvent ι} (h : s.Inv m b ram trace)
    (hmapped : Mapped s.machine.driver i p) (hk : k < loopSize) :
    s.access m i (.store i (p + k) x) pc event =
      some (⟨⟨s.machine.driver, Function.update s.machine.ram (m.bufferByte b k) x⟩,
        Function.update s.pc i pc⟩, [event x]) := by
  have hpage : k < PAGE_SIZE := lt_trans hk (by decide)
  obtain ⟨accesses, hmachine, _⟩ := h.machine
  obtain ⟨q, hq⟩ := Option.isSome_iff_exists.mp (hmapped.2 k hpage)
  have hbyte := translate_eq hmachine.buffer hmachine.own hq
  rw [place_add hmapped.1 hpage] at hbyte
  simp only [App.access, Machine.step, hq, hbyte, Option.map_some]

/-- A step of the driver changes the pages of at most one run. -/
theorem App.Inv.driver {i : ι} {a : Label ι} {d : State ι} {pc : AppPc}
    {answers : List Answer} (h : s.Inv m b ram trace)
    (hstep : s.machine.driver.step m a = some (d, answers))
    (hone : OnePageLong s.machine (.driver a))
    (htables : ∀ j, j ≠ i → d.table j = s.machine.driver.table j)
    (hgoing : Going d (trace ++ es) i pc) (hstores : appStores es = [])
    (hshows : Justified Shows (trace ++ es)) :
    App.Inv m b ram ⟨⟨d, s.machine.ram⟩, Function.update s.pc i pc⟩ (trace ++ es) := by
  obtain ⟨accesses, hmachine, haccesses⟩ := h.machine
  refine h.after (hmachine.driver hone hstep) ?_ htables hgoing hshows
  rw [haccesses, appStores, appStores, List.filterMap_append]
  exact (List.append_nil _).symm.trans (congrArg _ hstores.symm)

/-- A request of a run. -/
theorem App.Inv.mmap {i : ι} {vma : Vma} {fails : Bool} (h : s.Inv m b ram trace)
    (hstep : s.mmap m i vma fails = some (t, es)) : t.Inv m b ram (trace ++ es) := by
  simp only [App.mmap, Option.ite_none_right_eq_some] at hstep
  obtain ⟨⟨_, hlength⟩, hstep⟩ := hstep
  obtain ⟨q, hrequest, hanswer⟩ := Option.map_eq_some_iff.mp hstep
  obtain ⟨⟨d, answers⟩, hdriver, rfl⟩ := Option.map_eq_some_iff.mp hrequest
  have hone : OnePageLong s.machine (.driver (.mmap i vma fails)) := Or.inr hlength
  have htable : d.table = Function.update s.machine.driver.table i
      (myMap m s.machine.driver.bufferAddr fails vma (s.machine.driver.table i)).2 := by
    cases State.steps hdriver
    rfl
  have htables : ∀ j, j ≠ i → d.table j = s.machine.driver.table j := fun j hj => by
    rw [htable, Function.update_of_ne hj]
  split_ifs at hanswer with hret
  · obtain ⟨rfl, rfl⟩ := Prod.mk.inj hanswer
    rw [myMap_eq_zero_iff] at hret
    subst hret
    refine h.driver hdriver hone htables ⟨⟨vma.start_aligned, fun k hk => ?_⟩, by decide,
      fun l hl => absurd hl (Nat.not_lt_zero l)⟩ rfl (by simpa using h.shows)
    rw [htable, Function.update_self, myMap_translate m _ vma _ (by rwa [hlength])]
    rfl
  · obtain ⟨rfl, rfl⟩ := Prod.mk.inj hanswer
    exact h.driver hdriver hone htables trivial rfl (h.shows.append_singleton trivial)

/-- A run unmaps the page. -/
theorem App.Inv.unmap {i : ι} {p : ℕ} {q : Machine ι × List (Access ι)}
    (h : s.Inv m b ram trace)
    (hstep : s.machine.step m (.driver (.munmap i p 1)) = some q) :
    App.Inv m b ram ⟨q.1, Function.update s.pc i .done⟩ (trace ++ []) := by
  rw [Machine.step] at hstep
  obtain ⟨⟨d, answers⟩, hdriver, rfl⟩ := Option.map_eq_some_iff.mp hstep
  refine h.driver hdriver trivial (fun j hj => ?_) trivial rfl (by simpa using h.shows)
  cases State.steps hdriver
  exact Function.update_of_ne hj _ _

/-- Every step of a run keeps it so. -/
theorem App.Inv.step {a : AppLabel ι} (h : s.Inv m b ram trace)
    (hstep : s.step m a = some (t, es)) : t.Inv m b ram (trace ++ es) := by
  cases a with
  | mmap i vma fails =>
    cases hpc : s.pc i <;> simp only [App.step, hpc, reduceCtorEq] at hstep
    exact h.mmap hstep
  | advance i =>
    have hgoing := h.going i
    obtain ⟨accesses, hmachine, hstores⟩ := h.machine
    cases hpc : s.pc i with
    | start | done => simp [App.step, hpc] at hstep
    | print p k =>
      rw [hpc] at hgoing
      obtain ⟨hmapped, hk, hbefore⟩ := hgoing
      simp only [App.step, hpc, h.access_load hmapped hk, Option.some.injEq, Prod.mk.injEq] at hstep
      obtain ⟨rfl, rfl⟩ := hstep
      refine h.after hmachine (by simp [hstores, appStores]) (fun _ _ => rfl) ?_
        (h.shows.append_singleton (h.shown hk))
      exact ⟨hmapped, hk, fun l hl => List.mem_append_left _ (hbefore l hl)⟩
    | store p k =>
      rw [hpc] at hgoing
      obtain ⟨hmapped, hk, hbefore⟩ := hgoing
      simp only [App.step, hpc, h.access_store hmapped hk, Option.some.injEq,
        Prod.mk.injEq] at hstep
      obtain ⟨rfl, rfl⟩ := hstep
      have hnext : ∀ l < k + 1, AppEvent.stored i l ∈ trace ++ [.stored i k] := by
        intro l hl
        rcases Nat.lt_succ_iff_lt_or_eq.mp hl with hl | rfl
        · exact List.mem_append_left _ (hbefore l hl)
        · exact List.mem_append_right _ List.mem_cons_self
      have hplace : storesOf [Access.stored i (p + k) 66] = [(k, 66)] := by
        have hstored : storesOf [Access.stored i (p + k) 66] = [(place (p + k), 66)] := rfl
        rwa [place_add hmapped.1 (lt_trans hk (by decide))] at hstored
      refine h.after (hmachine.store hplace trivial) ?_ (fun _ _ => rfl) ?_
        (h.shows.append_singleton trivial)
      · rw [storesOf_append, hplace, hstores, appStores, appStores, List.filterMap_append]
        rfl
      · split_ifs with hmore
        · exact ⟨hmapped, hmore, hnext⟩
        · exact ⟨hmapped, by decide, fun l hl => hnext l (by omega)⟩
    | printAgain p k =>
      rw [hpc] at hgoing
      obtain ⟨hmapped, hk, hbefore⟩ := hgoing
      simp only [App.step, hpc, h.access_load hmapped hk, Option.some.injEq, Prod.mk.injEq] at hstep
      obtain ⟨rfl, rfl⟩ := hstep
      have hshown : s.machine.ram (m.bufferByte b k) = 66 := by
        rcases h.shown hk with ⟨hbyte, _⟩ | ⟨_, hnone⟩
        · exact hbyte
        · exact absurd (hbefore k hk) (hnone i)
      refine h.after hmachine (by simp [hstores, appStores]) (fun _ _ => rfl) ?_
        (h.shows.append_singleton hshown)
      split_ifs with hmore
      · exact ⟨hmapped, hmore, fun l hl => List.mem_append_left _ (hbefore l hl)⟩
      · trivial
    | unmap p =>
      simp only [App.step, hpc, Option.map_eq_some_iff] at hstep
      obtain ⟨q, hunmap, heq⟩ := hstep
      obtain ⟨rfl, rfl⟩ := Prod.mk.inj heq
      exact h.unmap hunmap

/-- **The application of the mmap driver.** Whatever runs of `mmap_app.c` take their steps in
whatever order: a byte that is printed first is 66 exactly when some run has stored it before, and
what `dev_init` left there otherwise; the second time every byte is 66; and no run is killed. -/
theorem app_shows {as : List (AppLabel ι)}
    (hexec : exec (App.step m) (.init ι m b ram) as = some (s, trace)) :
    Justified Shows trace := by
  refine ((run_of_exec (meets_anyLabel _ _) hexec).invariant
    (I := fun s trace => App.Inv m b ram s trace) App.inv_init ?_).shows
  exact fun h _ hstep => h.step hstep

/-- The second run is slower with the first byte, and faster with the second one. -/
theorem app_shows_run :
    Justified Shows [AppEvent.shown true 0 0, .stored true 0, .shown false 0 66, .stored false 0,
      .shown false 1 1, .stored false 1, .shown true 1 66] := by
  obtain ⟨⟨s, trace⟩, hexec, htrace⟩ := Option.map_eq_some_iff.mp
    (show (exec (App.step ⟨0, rfl⟩) (.init Bool ⟨0, rfl⟩ ⟨0x3000, rfl⟩ fun _ => 0)
        [.mmap true ⟨0x1000, 0x2000, 0, rfl, rfl, by decide⟩ false,
          .mmap false ⟨0x8000, 0x9000, 0, rfl, rfl, by decide⟩ false, .advance true, .advance true,
          .advance false, .advance false, .advance false, .advance false, .advance true]).map
        Prod.snd = some [.shown true 0 0, .stored true 0, .shown false 0 66, .stored false 0,
          .shown false 1 1, .stored false 1, .shown true 1 66] by decide +kernel)
  obtain rfl : trace = _ := htrace
  exact app_shows hexec

end LinuxDevNote.Mmap
