import LinuxDevNote.Mmap.Driver

/-!
# What the mmap driver maps

`my_map` looks neither at the offset of a request nor at its length against the size of the
buffer. So it maps what was asked for, and nothing but the buffer, exactly when the
request is for the one page there is, after `kmalloc`; every other request should be
refused, and is only where `remap_pfn_range` fails.
-/

namespace LinuxDevNote.Mmap

open Execution Paging

/-- A request was answered as it should be. -/
structure MapLaw (m : DirectMap) (e : Answer) : Prop where
  /-- Only a request within the buffer succeeds. -/
  fits : e.ret = 0 → e.vma.offset + e.vma.length ≤ PAGE_SIZE
  /-- Every byte of the area is the byte of the buffer at its offset. -/
  aliases : e.ret = 0 → ∀ i < e.vma.length, ∃ b, e.buffer = some b ∧
    e.table.translate PAGE_SIZE (e.vma.vmStart.toNat + i) =
      some (m.bufferByte b (e.vma.offset + i))

/-- The frame is that of the buffer. -/
def State.Owns {ι : Type*} (m : DirectMap) (s : State ι) (frame : ℕ) : Prop :=
  ∃ b, s.buffer = some b ∧ frame = (m.pfn b.addr).toNat

/-- No process has a page in another frame. -/
def State.Own {ι : Type*} (m : DirectMap) (s : State ι) : Prop :=
  ∀ i, (s.table i).MapsTo (s.Owns m)

/-- The driver maps only its own buffer: every request is answered as it should be, and no
process has a page in another frame. -/
structure MmapLaw {ι : Type*} (m : DirectMap) (s : State ι) (trace : List Answer) : Prop where
  /-- The requests. -/
  requests : ∀ e ∈ trace, MapLaw m e
  /-- The pages. -/
  own : s.Own m

/-- A request is for the page of the buffer, which is there; others are not served. -/
def OnePage {ι : Type*} (s : State ι) : Label ι → Prop
  | .mmap _ vma fails =>
    fails = true ∨ s.buffer.isSome = true ∧ vma.offset = 0 ∧ vma.length = PAGE_SIZE
  | _ => True

instance {ι : Type*} (s : State ι) : ∀ a, Decidable (OnePage s a)
  | .mmap _ _ _ => inferInstanceAs (Decidable (_ ∨ _))
  | .miscRegister | .kmalloc _ | .munmap _ _ _ => isTrue trivial

variable {ι : Type*} {m : DirectMap} {s t : State ι} {a : Label ι} {es trace : List Answer}

/-- A request of `my_map` fails only where `remap_pfn_range` does. -/
theorem myMap_eq_zero_iff (buffer : BitVec 64) (fails : Bool) (vma : Vma) (table : Table) :
    (myMap m buffer fails vma table).1 = 0 ↔ fails = false := by
  cases fails <;> simp [myMap, remapPfnRange]

/-- **One request.** It is answered as it should be exactly when it is for the one page of the
buffer, or not served. -/
theorem mapLaw_iff (s : State ι) (i : ι) (vma : Vma) (fails : Bool) :
    MapLaw m ⟨s.buffer, vma, (myMap m s.bufferAddr fails vma (s.table i)).1,
      (myMap m s.bufferAddr fails vma (s.table i)).2⟩ ↔ OnePage s (.mmap i vma fails) := by
  have hret := myMap_eq_zero_iff (m := m) s.bufferAddr fails vma (s.table i)
  have hpage := vma.PAGE_SIZE_le_length
  constructor
  · rintro ⟨hfits, haliases⟩
    dsimp only at hfits haliases
    cases fails with
    | true => exact Or.inl rfl
    | false =>
      have hin := hfits (hret.mpr rfl)
      obtain ⟨b, hb, _⟩ := haliases (hret.mpr rfl) 0 (by unfold PAGE_SIZE at hpage; omega)
      exact Or.inr ⟨by rw [hb]; rfl, by omega, by omega⟩
  · intro hone
    refine ⟨fun hzero => ?_, fun hzero i hi => ?_⟩
    · obtain ⟨_, hoffset, hlength⟩ := hone.resolve_left (by rw [hret.mp hzero]; decide)
      dsimp only
      rw [hoffset, hlength, Nat.zero_add]
    · have hserved := hret.mp hzero
      obtain ⟨hbuffer, hoffset, hlength⟩ := hone.resolve_left (by rw [hserved]; decide)
      obtain ⟨b, hb⟩ := Option.isSome_iff_exists.mp hbuffer
      refine ⟨b, hb, ?_⟩
      dsimp only at hi ⊢
      rw [hserved, s.bufferAddr_eq hb, myMap_translate m b.addr vma _ hi, hoffset, Nat.zero_add,
        m.bufferByte_eq b (by omega)]

/-- A request for the one page maps only that. -/
theorem mapsTo_myMap {i : ι} {vma : Vma} {fails : Bool} (h : (s.table i).MapsTo (s.Owns m))
    (hone : OnePage s (.mmap i vma fails)) :
    (myMap m s.bufferAddr fails vma (s.table i)).2.MapsTo (s.Owns m) := by
  cases fails with
  | true => exact h
  | false =>
    obtain ⟨hbuffer, _, hlength⟩ := hone.resolve_left (by decide)
    obtain ⟨b, hb⟩ := Option.isSome_iff_exists.mp hbuffer
    refine h.remap fun k hk => ⟨b, hb, ?_⟩
    rw [vma.toNat_size, hlength, Nat.div_self (by decide)] at hk
    rw [Nat.lt_one_iff.mp hk, s.bufferAddr_eq hb, Nat.add_zero]
    rfl

variable [DecidableEq ι]

/-- The answer to the request of a step is right exactly when it is for the one page. -/
theorem forall_mapLaw_iff (hstep : s.step m a = some (t, es)) :
    (∀ e ∈ es, MapLaw m e) ↔ OnePage s a := by
  cases State.steps hstep with
  | miscRegister | kmalloc | munmap => exact iff_of_true (by simp) trivial
  | @mmap i vma fails =>
    rw [List.forall_mem_singleton]
    exact mapLaw_iff s i vma fails

/-- When the pages of one process change, those of the others do not. -/
theorem State.Own.update {table : Table} (h : s.Own m) (i : ι) (htable : table.MapsTo (s.Owns m)) :
    State.Own m { s with table := Function.update s.table i table } := by
  intro j
  by_cases hj : j = i
  · subst hj
    dsimp only
    rwa [Function.update_self]
  · dsimp only
    rw [Function.update_of_ne hj]
    exact h j

/-- A step that serves at most the one page maps nothing else. -/
theorem State.Own.step (h : s.Own m) (hone : OnePage s a) (hstep : s.step m a = some (t, es)) :
    t.Own m := by
  cases State.steps hstep with
  | miscRegister => exact h
  | kmalloc hnone =>
    -- before there was a buffer, nothing was mapped
    intro i v frame hv
    obtain ⟨b, hb, _⟩ := h i v frame hv
    rw [hnone] at hb
    cases hb
  | @mmap i => exact h.update i (mapsTo_myMap (h i) hone)
  | @munmap i => exact h.update i (h i).unmap

/-- **What the mmap driver maps.** In every run, for requests of any length and offset, the
driver maps only its own buffer, each byte at its offset, exactly when every request that
`remap_pfn_range` serves is for the one page, after `kmalloc`. -/
theorem mmapLaw_iff {as : List (Label ι)}
    (hexec : exec (State.step m) (State.init ι) as = some (s, trace)) :
    MmapLaw m s trace ↔ Meets (State.step m) OnePage (State.init ι) as := by
  have hevents : (∀ e ∈ trace, MapLaw m e) ↔ Meets (State.step m) OnePage (State.init ι) as :=
    forall_events_iff_meets (fun _ => True) (MapLaw m) OnePage
      (fun _ hstep => forall_mapLaw_iff hstep) (fun _ _ _ => trivial) trivial hexec
  refine ⟨fun hlaw => hevents.mp hlaw.requests, fun hmeets => ⟨hevents.mpr hmeets, ?_⟩⟩
  exact (run_of_exec hmeets hexec).invariant (I := fun s _ => s.Own m)
    (fun _ => Table.mapsTo_empty) fun h hone hstep => h.step hone hstep

/-- The one page is mapped, and unmapped again. -/
theorem mmapLaw_iff_run :
    ∃ s trace, exec (State.step ⟨0, rfl⟩) (State.init Unit)
        [.miscRegister, .kmalloc ⟨0x3000, rfl⟩,
          .mmap () ⟨0x1000, 0x2000, 0, rfl, rfl, by decide⟩ false, .munmap () 1 1] =
            some (s, trace) ∧
      MmapLaw ⟨0, rfl⟩ s trace := by
  obtain ⟨⟨s, trace⟩, hexec⟩ := Option.isSome_iff_exists.mp
    (show (exec (State.step ⟨0, rfl⟩) (State.init Unit)
      [.miscRegister, .kmalloc ⟨0x3000, rfl⟩,
        .mmap () ⟨0x1000, 0x2000, 0, rfl, rfl, by decide⟩ false, .munmap () 1 1]).isSome = true
      from rfl)
  exact ⟨s, trace, hexec, (mmapLaw_iff hexec).mpr (by decide)⟩

/-- Two pages are asked for, and the second one is not the driver's. -/
theorem foreign_page_mapped :
    ¬ ∀ (m : DirectMap) (as : List (Label Unit)) (s : State Unit) (trace : List Answer),
      exec (State.step m) (State.init Unit) as = some (s, trace) → MmapLaw m s trace := by
  intro h
  obtain ⟨⟨s, trace⟩, hexec, hpage⟩ := Option.map_eq_some_iff.mp
    (show (exec (State.step ⟨0, rfl⟩) (State.init Unit)
      [.miscRegister, .kmalloc ⟨0x3000, rfl⟩,
        .mmap () ⟨0x1000, 0x3000, 0, rfl, rfl, by decide⟩ false]).map
          (fun p => (p.1.buffer.map PageBuffer.addr, p.1.table () 2)) = some (some 0x3000, some 4)
      by decide)
  obtain ⟨hbuffer, hframe⟩ := Prod.mk.inj hpage
  obtain ⟨b, hb, hown⟩ := (h _ _ s trace hexec).own () 2 4 hframe
  rw [hb, Option.map_some, Option.some.injEq] at hbuffer
  rw [hbuffer] at hown
  exact absurd hown (by decide)

end LinuxDevNote.Mmap
