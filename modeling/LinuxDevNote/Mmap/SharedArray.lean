import LinuxDevNote.Library.Stores
import LinuxDevNote.Mmap.Aliasing

/-!
# The array that the processes share

Once `dev_init` has allocated the buffer, every process may map it and access it through its own
addresses, also while `dev_init` still fills it. As long as each request that is served is for one
page, whatever its offset, they share one array of 4096 bytes: a load finds what was stored last
at its place in the page, by whomever and through whichever mapping, and no other byte of the
memory is changed.
-/

namespace LinuxDevNote.Mmap

open Execution Paging Stores

/-- The driver with its processes, and the memory by physical addresses. -/
structure Machine (ι : Type*) where
  /-- The driver and the pages of the processes. -/
  driver : State ι
  /-- The memory. -/
  ram : ℕ → UInt8

/-- After `dev_init` has allocated the buffer `b`; nothing is mapped yet. -/
def Machine.loaded (ι : Type*) (b : PageBuffer) (ram : ℕ → UInt8) : Machine ι :=
  ⟨⟨true, some b, fun _ => Table.empty⟩, ram⟩

/-- The bytes that `dev_init` stores to. -/
def fillSize : ℕ := 10

/-- A step of the driver, `buffer[k] = k` in `dev_init`, or an access of a process to one of its
addresses. -/
inductive MachineLabel (ι : Type*)
  | driver (a : Label ι)
  | fill (k : ℕ)
  | load (i : ι) (addr : ℕ)
  | store (i : ι) (addr : ℕ) (x : UInt8)

/-- An access that was carried out, or one to a page that is not mapped. -/
inductive Access (ι : Type*)
  | filled (k : ℕ)
  | loaded (i : ι) (addr : ℕ) (x : UInt8)
  | stored (i : ι) (addr : ℕ) (x : UInt8)
  | faulted (i : ι) (addr : ℕ)
  deriving DecidableEq

/-- The place of an access in its page. -/
def place (addr : ℕ) : ℕ := addr % PAGE_SIZE

/-- The stores of a trace, by their places. -/
def storesOf {ι : Type*} (trace : List (Access ι)) : List (ℕ × UInt8) :=
  trace.filterMap fun
    | .filled k => some (place k, UInt8.ofNat k)
    | .stored _ addr x => some (place addr, x)
    | _ => none

/-- A load finds what was stored last at its place, or what was there at the start. -/
def FindsLast {ι : Type*} (start : ℕ → UInt8) (before : List (Access ι)) : Access ι → Prop
  | .loaded _ addr x => x = contents start (storesOf before) (place addr)
  | _ => True

/-- A request that is served is for one page. -/
def OnePageLong {ι : Type*} (_ : Machine ι) : MachineLabel ι → Prop
  | .driver (.mmap _ vma fails) => fails = true ∨ vma.length = PAGE_SIZE
  | _ => True

instance {ι : Type*} (s : Machine ι) : ∀ a, Decidable (OnePageLong s a)
  | .driver (.mmap _ _ _) => inferInstanceAs (Decidable (_ ∨ _))
  | .driver .miscRegister | .driver (.kmalloc _) | .driver (.munmap _ _ _) | .fill _ | .load _ _
  | .store _ _ _ => isTrue trivial

section

variable {ι : Type*} [DecidableEq ι]

/-- One step. -/
def Machine.step (m : DirectMap) (s : Machine ι) :
    MachineLabel ι → Option (Machine ι × List (Access ι))
  | .driver a => (s.driver.step m a).map fun p => (⟨p.1, s.ram⟩, [])
  | .fill k =>
    match s.driver.buffer with
    | some b =>
      if k < fillSize then
        some (⟨s.driver, Function.update s.ram (m.bufferByte b k) (UInt8.ofNat k)⟩, [.filled k])
      else none
    | none => none
  | .load i addr =>
    match (s.driver.table i).translate PAGE_SIZE addr with
    | some p => some (s, [.loaded i addr (s.ram p)])
    | none => some (s, [.faulted i addr])
  | .store i addr x =>
    match (s.driver.table i).translate PAGE_SIZE addr with
    | some p => some (⟨s.driver, Function.update s.ram p x⟩, [.stored i addr x])
    | none => some (s, [.faulted i addr])

end

variable {ι : Type*} {m : DirectMap} {b : PageBuffer} {ram : ℕ → UInt8} {s t : Machine ι}
  {trace es : List (Access ι)}

/-- Places are within the page. -/
theorem place_lt (addr : ℕ) : place addr < PAGE_SIZE := Nat.mod_lt _ (by decide)

/-- Different places are different bytes of the buffer. -/
theorem bufferByte_inj {k l : ℕ} (hk : k < PAGE_SIZE) (hl : l < PAGE_SIZE)
    (h : m.bufferByte b k = m.bufferByte b l) : k = l := by
  rw [m.bufferByte_eq b hk, m.bufferByte_eq b hl] at h
  omega

/-- An address of a process that maps only the buffer is the byte at its place. -/
theorem translate_eq {s : State ι} (hbuffer : s.buffer = some b) (hown : s.Own m) {i : ι}
    {addr p : ℕ} (h : (s.table i).translate PAGE_SIZE addr = some p) :
    p = m.bufferByte b (place addr) := by
  obtain ⟨frame, hframe, rfl⟩ := Option.map_eq_some_iff.mp h
  obtain ⟨b', hb', rfl⟩ := hown i _ _ hframe
  obtain rfl := Option.some.inj (hb'.symm.trans hbuffer)
  exact (m.bufferByte_eq _ (place_lt addr)).symm

/-- What holds in every run. -/
structure Machine.Inv (m : DirectMap) (b : PageBuffer) (ram : ℕ → UInt8) (s : Machine ι)
    (trace : List (Access ι)) : Prop where
  /-- The buffer stays. -/
  buffer : s.driver.buffer = some b
  /-- The processes map nothing else. -/
  own : s.driver.Own m
  /-- The memory is what the stores to the buffer have made of it. -/
  memory : s.ram = contents ram ((storesOf trace).map fun s => (m.bufferByte b s.1, s.2))
  /-- Every load found what was stored last. -/
  loads : Justified (FindsLast fun k => ram (m.bufferByte b k)) trace

/-- Nothing has happened yet. -/
theorem Machine.inv_loaded : Machine.Inv m b ram (.loaded ι b ram) [] where
  buffer := rfl
  own _ := Table.mapsTo_empty
  memory := rfl
  loads := justified_nil

/-- The stores are within the page. -/
theorem storesOf_lt (trace : List (Access ι)) : ∀ s ∈ storesOf trace, s.1 < PAGE_SIZE := by
  intro s hs
  obtain ⟨e, _, he⟩ := List.mem_filterMap.mp hs
  cases e with
  | stored i addr x =>
    obtain rfl := Option.some.inj he
    exact place_lt addr
  | filled k =>
    obtain rfl := Option.some.inj he
    exact place_lt k
  | loaded | faulted => cases he

/-- A byte of the buffer. -/
theorem Machine.Inv.ram_bufferByte (h : s.Inv m b ram trace) {k : ℕ} (hk : k < PAGE_SIZE) :
    s.ram (m.bufferByte b k) =
      contents (fun k => ram (m.bufferByte b k)) (storesOf trace) k := by
  rw [h.memory]
  exact contents_map (fun k => k < PAGE_SIZE) (fun _ _ hk hl => bufferByte_inj hk hl) ram
    (storesOf_lt trace) hk

/-- A byte of the memory that is not of the buffer. -/
theorem Machine.Inv.ram_elsewhere (h : s.Inv m b ram trace) {p : ℕ}
    (hp : ∀ k < PAGE_SIZE, p ≠ m.bufferByte b k) : s.ram p = ram p := by
  rw [h.memory]
  refine contents_of_notMem fun hmem => ?_
  simp only [List.map_map, List.mem_map, Function.comp_apply] at hmem
  obtain ⟨s, hs, rfl⟩ := hmem
  exact hp s.1 (storesOf_lt trace s hs) rfl

/-- Accesses that are no stores. -/
theorem storesOf_append (trace es : List (Access ι)) :
    storesOf (trace ++ es) = storesOf trace ++ storesOf es := List.filterMap_append

variable [DecidableEq ι]

/-- A step of the driver maps nothing but the buffer. -/
theorem Machine.Inv.driver {a : Label ι} {d : State ι} {answers : List Answer}
    (h : s.Inv m b ram trace) (hone : OnePageLong s (.driver a))
    (hstep : s.driver.step m a = some (d, answers)) : Machine.Inv m b ram ⟨d, s.ram⟩ trace := by
  obtain ⟨hbuffer, hown, hmemory, hloads⟩ := h
  cases State.steps hstep with
  | miscRegister => exact ⟨hbuffer, hown, hmemory, hloads⟩
  | kmalloc hnone => cases hnone.symm.trans hbuffer
  | @munmap i => exact ⟨hbuffer, hown.update i (hown i).unmap, hmemory, hloads⟩
  | @mmap i vma fails =>
    refine ⟨hbuffer, hown.update i ?_, hmemory, hloads⟩
    cases fails with
    | true => exact hown i
    | false =>
      have hlength : vma.length = PAGE_SIZE := hone.resolve_left (by decide)
      refine (hown i).remap fun k hk => ⟨b, hbuffer, ?_⟩
      rw [vma.toNat_size, hlength, Nat.div_self (by decide), Nat.lt_one_iff] at hk
      rw [hk, State.bufferAddr_eq hbuffer, Nat.add_zero]
      rfl

omit [DecidableEq ι] in
/-- An access that stores nothing. -/
theorem Machine.Inv.append {e : Access ι} (h : s.Inv m b ram trace) (hstores : storesOf [e] = [])
    (hfinds : FindsLast (fun k => ram (m.bufferByte b k)) trace e) :
    s.Inv m b ram (trace ++ [e]) := by
  refine ⟨h.buffer, h.own, ?_, h.loads.append_singleton hfinds⟩
  rw [storesOf_append, hstores, List.append_nil]
  exact h.memory

omit [DecidableEq ι] in
/-- An access that stores a byte of the buffer. -/
theorem Machine.Inv.store {e : Access ι} {k : ℕ} {x : UInt8} (h : s.Inv m b ram trace)
    (hstores : storesOf [e] = [(k, x)])
    (hfinds : FindsLast (fun k => ram (m.bufferByte b k)) trace e) :
    Machine.Inv m b ram ⟨s.driver, Function.update s.ram (m.bufferByte b k) x⟩ (trace ++ [e]) := by
  refine ⟨h.buffer, h.own, ?_, h.loads.append_singleton hfinds⟩
  rw [storesOf_append, hstores, List.map_append, List.map_singleton, contents_append_singleton,
    ← h.memory]

/-- Every step keeps it so. -/
theorem Machine.Inv.step {a : MachineLabel ι} (h : s.Inv m b ram trace) (hone : OnePageLong s a)
    (hstep : s.step m a = some (t, es)) : t.Inv m b ram (trace ++ es) := by
  cases a with
  | driver a =>
    obtain ⟨⟨d, answers⟩, hdriver, heq⟩ := Option.map_eq_some_iff.mp hstep
    obtain ⟨rfl, rfl⟩ := Prod.mk.inj heq
    rw [List.append_nil]
    exact h.driver hone hdriver
  | fill k =>
    simp only [Machine.step, h.buffer, Option.ite_none_right_eq_some, Option.some.injEq,
      Prod.mk.injEq] at hstep
    obtain ⟨hk, rfl, rfl⟩ := hstep
    have hstores : storesOf [(.filled k : Access ι)] = [(place k, UInt8.ofNat k)] := rfl
    rw [place, Nat.mod_eq_of_lt (lt_trans hk (by decide))] at hstores
    exact h.store hstores trivial
  | load i addr =>
    cases hp : (s.driver.table i).translate PAGE_SIZE addr with
    | none =>
      simp only [Machine.step, hp, Option.some.injEq, Prod.mk.injEq] at hstep
      obtain ⟨rfl, rfl⟩ := hstep
      exact h.append rfl trivial
    | some p =>
      simp only [Machine.step, hp, Option.some.injEq, Prod.mk.injEq] at hstep
      obtain ⟨rfl, rfl⟩ := hstep
      refine h.append rfl ?_
      rw [translate_eq h.buffer h.own hp]
      exact h.ram_bufferByte (place_lt addr)
  | store i addr x =>
    cases hp : (s.driver.table i).translate PAGE_SIZE addr with
    | none =>
      simp only [Machine.step, hp, Option.some.injEq, Prod.mk.injEq] at hstep
      obtain ⟨rfl, rfl⟩ := hstep
      exact h.append rfl trivial
    | some p =>
      simp only [Machine.step, hp, Option.some.injEq, Prod.mk.injEq] at hstep
      obtain ⟨rfl, rfl⟩ := hstep
      rw [translate_eq h.buffer h.own hp]
      exact h.store rfl trivial

/-- **The shared array.** In every run whose requests are served for one page only, every load
finds what was stored last at its place in the page, by whichever process and through whichever
mapping; that is what the buffer holds, and the rest of the memory is as it was. -/
theorem shared_array {as : List (MachineLabel ι)}
    (hexec : exec (Machine.step m) (.loaded ι b ram) as = some (s, trace))
    (hone : Meets (Machine.step m) OnePageLong (.loaded ι b ram) as) :
    Justified (FindsLast fun k => ram (m.bufferByte b k)) trace ∧
      (∀ k < PAGE_SIZE, s.ram (m.bufferByte b k) =
        contents (fun k => ram (m.bufferByte b k)) (storesOf trace) k) ∧
      ∀ p, (∀ k < PAGE_SIZE, p ≠ m.bufferByte b k) → s.ram p = ram p := by
  have h : s.Inv m b ram trace := (run_of_exec hone hexec).invariant
    (I := fun s trace => Machine.Inv m b ram s trace) Machine.inv_loaded
    fun h hone hstep => h.step hone hstep
  exact ⟨h.loads, fun _ hk => h.ram_bufferByte hk, fun _ hp => h.ram_elsewhere hp⟩

/-- The pages of two processes, at different addresses. -/
def twoPages : Bool → Vma
  | true => ⟨0x1000, 0x2000, 0, rfl, rfl, by decide⟩
  | false => ⟨0x8000, 0x9000, 3, rfl, rfl, by decide⟩

/-- One process stores a byte and another one loads it. -/
theorem shared_array_run :
    ∃ s, exec (Machine.step ⟨0, rfl⟩) (.loaded Bool ⟨0x3000, rfl⟩ fun _ => 0)
        [.driver (.mmap true (twoPages true) false), .driver (.mmap false (twoPages false) false),
          .store true 0x1005 66, .load false 0x8005] =
        some (s, [.stored true 0x1005 66, .loaded false 0x8005 66]) ∧ s.ram 0x3005 = 66 := by
  obtain ⟨⟨s, trace⟩, hexec, htrace⟩ := Option.map_eq_some_iff.mp
    (show (exec (Machine.step ⟨0, rfl⟩) (.loaded Bool ⟨0x3000, rfl⟩ fun _ => 0)
        [.driver (.mmap true (twoPages true) false), .driver (.mmap false (twoPages false) false),
          .store true 0x1005 66, .load false 0x8005]).map Prod.snd =
        some [.stored true 0x1005 66, .loaded false 0x8005 66] by decide +kernel)
  obtain rfl : trace = _ := htrace
  have hbyte := (shared_array hexec (by decide +kernel)).2.1 5 (by decide)
  exact ⟨s, hexec, hbyte⟩

end LinuxDevNote.Mmap
