import Mathlib.Data.Finset.Insert
import Mathlib.Logic.Function.Basic
import Mathlib.Data.Finset.Erase

/-!
# Objects behind a read-copy-update table

Readers look objects up by key inside read sections. An updater links objects and unlinks
them, and an unlinked object is reclaimed once the sections that were open at that time
have ended: what a reader found in its section stays until the section ends, and may be
gone right after it. Readers, keys and objects have arbitrary types.
-/

namespace LinuxDevNote.ReadCopyUpdate

/-- The life of an object. A retired one waits for the readers whose sections were open. -/
inductive Stage (Reader Key : Type*)
  | fresh
  | linked (k : Key)
  | retired (waits : Finset Reader)
  | freed
  deriving DecidableEq

/-- The readers in a section, the table and the objects. -/
structure Table (Reader Key Obj : Type*) where
  /-- The readers in a read section. -/
  inside : Finset Reader
  /-- What a lookup finds. -/
  entry : Key → Option Obj
  /-- The life of each object. -/
  stage : Obj → Stage Reader Key

/-- What can happen to the table. A lookup changes nothing. -/
inductive Op (Reader Key Obj : Type*)
  | enter (r : Reader)
  | leave (r : Reader)
  | link (k : Key) (o : Obj)
  | unlink (k : Key)
  | reclaim (o : Obj)

/-- No reader is inside and no object is linked. -/
def Table.init (Reader Key Obj : Type*) : Table Reader Key Obj :=
  ⟨∅, fun _ => none, fun _ => .fresh⟩

variable {Reader Key Obj : Type*} [DecidableEq Reader] [DecidableEq Key] [DecidableEq Obj]

/-- A reader that leaves is no longer waited for. -/
def Stage.release (r : Reader) : Stage Reader Key → Stage Reader Key
  | .retired waits => .retired (waits.erase r)
  | stage => stage

/-- One step, where it is enabled. -/
def Table.step (s : Table Reader Key Obj) : Op Reader Key Obj → Option (Table Reader Key Obj)
  | .enter r => some { s with inside := insert r s.inside }
  | .leave r =>
    some { s with inside := s.inside.erase r, stage := fun o => (s.stage o).release r }
  | .link k o =>
    if s.entry k = none ∧ s.stage o = .fresh then
      some { s with
        entry := Function.update s.entry k (some o)
        stage := Function.update s.stage o (.linked k) }
    else none
  | .unlink k =>
    (s.entry k).map fun o => { s with
      entry := Function.update s.entry k none
      stage := Function.update s.stage o (.retired s.inside) }
  | .reclaim o =>
    if s.stage o = .retired ∅ then some { s with stage := Function.update s.stage o .freed }
    else none

/-- The table finds only objects that are linked under the key. -/
def Table.Sound (s : Table Reader Key Obj) : Prop :=
  ∀ k o, s.entry k = some o → s.stage o = .linked k

/-- The section of a reader protects an object: the object is linked, or waits for the
reader. -/
def Table.Protects (s : Table Reader Key Obj) (r : Reader) (o : Obj) : Prop :=
  r ∈ s.inside ∧ ((∃ k, s.stage o = .linked k) ∨ ∃ waits, s.stage o = .retired waits ∧ r ∈ waits)

variable {s t : Table Reader Key Obj} {op : Op Reader Key Obj} {r : Reader} {k : Key} {o : Obj}

/-- Linking takes an unused key and a fresh object. -/
theorem Table.step_link :
    s.step (.link k o) = some t ↔ (s.entry k = none ∧ s.stage o = .fresh) ∧
      t = ⟨s.inside, Function.update s.entry k (some o),
        Function.update s.stage o (.linked k)⟩ := by
  simp only [step]
  split
  · rename_i h
    simp only [h, and_self, true_and, Option.some.injEq]
    exact eq_comm
  · rename_i h
    simp [h]

/-- Unlinking takes a key in use. -/
theorem Table.step_unlink :
    s.step (.unlink k) = some t ↔ ∃ o, s.entry k = some o ∧
      t = ⟨s.inside, Function.update s.entry k none,
        Function.update s.stage o (.retired s.inside)⟩ := by
  simp only [step, Option.map_eq_some_iff]
  exact exists_congr fun _ => and_congr_right fun _ => eq_comm

/-- Reclaiming takes an object that waits for nobody. -/
theorem Table.step_reclaim :
    s.step (.reclaim o) = some t ↔ s.stage o = .retired ∅ ∧
      t = ⟨s.inside, s.entry, Function.update s.stage o .freed⟩ := by
  simp only [step]
  split
  · rename_i h
    simp only [h, true_and, Option.some.injEq]
    exact eq_comm
  · rename_i h
    simp [h]

/-- The stages of one object that a step can lead from and to. -/
theorem Table.stage_cases (o : Obj) (hstep : s.step op = some t) :
    t.stage o = s.stage o ∨
      (∃ r, op = .leave r ∧ t.stage o = (s.stage o).release r) ∨
      (∃ k, op = .link k o ∧ s.stage o = .fresh ∧ t.stage o = .linked k) ∨
      (∃ k, op = .unlink k ∧ s.entry k = some o ∧ t.stage o = .retired s.inside) ∨
      (op = .reclaim o ∧ s.stage o = .retired ∅ ∧ t.stage o = .freed) := by
  cases op with
  | enter r =>
    obtain rfl := Option.some.inj hstep
    exact Or.inl rfl
  | leave r =>
    obtain rfl := Option.some.inj hstep
    exact Or.inr (Or.inl ⟨r, rfl, rfl⟩)
  | link k o' =>
    obtain ⟨⟨_, hfresh⟩, rfl⟩ := Table.step_link.mp hstep
    by_cases ho : o = o'
    · subst ho
      exact Or.inr (Or.inr (Or.inl ⟨k, rfl, hfresh, Function.update_self _ _ _⟩))
    · exact Or.inl (Function.update_of_ne ho _ _)
  | unlink k =>
    obtain ⟨o', hentry, rfl⟩ := Table.step_unlink.mp hstep
    by_cases ho : o = o'
    · subst ho
      exact Or.inr (Or.inr (Or.inr (Or.inl ⟨k, rfl, hentry, Function.update_self _ _ _⟩)))
    · exact Or.inl (Function.update_of_ne ho _ _)
  | reclaim o' =>
    obtain ⟨hretired, rfl⟩ := Table.step_reclaim.mp hstep
    by_cases ho : o = o'
    · subst ho
      exact Or.inr (Or.inr (Or.inr (Or.inr ⟨rfl, hretired, Function.update_self _ _ _⟩)))
    · exact Or.inl (Function.update_of_ne ho _ _)

/-- What a lookup finds after a step was linked by it, or was there and not unlinked. -/
theorem Table.entry_cases (hstep : s.step op = some t) (hentry : t.entry k = some o) :
    (s.entry k = some o ∧ op ≠ .unlink k) ∨ op = .link k o ∧ t.stage o = .linked k := by
  cases op with
  | enter r =>
    obtain rfl := Option.some.inj hstep
    exact Or.inl ⟨hentry, fun h => by cases h⟩
  | leave r =>
    obtain rfl := Option.some.inj hstep
    exact Or.inl ⟨hentry, fun h => by cases h⟩
  | link k' o' =>
    obtain ⟨_, rfl⟩ := Table.step_link.mp hstep
    dsimp only at hentry
    by_cases hk : k = k'
    · subst hk
      rw [Function.update_self] at hentry
      obtain rfl := Option.some.inj hentry
      exact Or.inr ⟨rfl, Function.update_self _ _ _⟩
    · rw [Function.update_of_ne hk] at hentry
      exact Or.inl ⟨hentry, fun h => by cases h⟩
  | unlink k' =>
    obtain ⟨o', _, rfl⟩ := Table.step_unlink.mp hstep
    dsimp only at hentry
    by_cases hk : k = k'
    · subst hk
      rw [Function.update_self] at hentry
      cases hentry
    · rw [Function.update_of_ne hk] at hentry
      exact Or.inl ⟨hentry, fun h => hk (Op.unlink.inj h).symm⟩
  | reclaim o' =>
    obtain ⟨_, rfl⟩ := Table.step_reclaim.mp hstep
    exact Or.inl ⟨hentry, fun h => by cases h⟩

/-- What a lookup finds it finds until it is unlinked. -/
theorem Table.entry_step (hentry : s.entry k = some o) (hop : op ≠ .unlink k)
    (hstep : s.step op = some t) : t.entry k = some o := by
  cases op with
  | enter r | leave r =>
    obtain rfl := Option.some.inj hstep
    exact hentry
  | link k' o' =>
    obtain ⟨⟨hnone, _⟩, rfl⟩ := Table.step_link.mp hstep
    have hk : k ≠ k' := fun h => by
      rw [h, hnone] at hentry
      cases hentry
    exact (Function.update_of_ne hk _ _).trans hentry
  | unlink k' =>
    obtain ⟨_, _, rfl⟩ := Table.step_unlink.mp hstep
    exact (Function.update_of_ne (fun h => hop (by rw [h])) _ _).trans hentry
  | reclaim o' =>
    obtain ⟨_, rfl⟩ := Table.step_reclaim.mp hstep
    exact hentry

/-- A reader stays inside until it leaves. -/
theorem Table.inside_step (hr : r ∈ s.inside) (hop : op ≠ .leave r) (hstep : s.step op = some t) :
    r ∈ t.inside := by
  cases op with
  | enter r' =>
    obtain rfl := Option.some.inj hstep
    exact Finset.mem_insert_of_mem hr
  | leave r' =>
    obtain rfl := Option.some.inj hstep
    exact Finset.mem_erase.mpr ⟨fun h => hop (by rw [h]), hr⟩
  | link k o =>
    obtain ⟨_, rfl⟩ := Table.step_link.mp hstep
    exact hr
  | unlink k =>
    obtain ⟨o, _, rfl⟩ := Table.step_unlink.mp hstep
    exact hr
  | reclaim o =>
    obtain ⟨_, rfl⟩ := Table.step_reclaim.mp hstep
    exact hr

/-- Every step keeps the table sound. -/
theorem Table.Sound.step (hs : s.Sound) (hstep : s.step op = some t) : t.Sound := by
  intro k o hentry
  rcases Table.entry_cases hstep hentry with ⟨hold, hkept⟩ | ⟨_, hlinked⟩
  · have hlinked := hs k o hold
    rcases Table.stage_cases o hstep with hsame | ⟨r, _, hrelease⟩ | ⟨k', _, hfresh, _⟩ |
      ⟨k', hop, hfound, _⟩ | ⟨_, hretired, _⟩
    · rw [hsame, hlinked]
    · rw [hrelease, hlinked]
      rfl
    · rw [hfresh] at hlinked
      cases hlinked
    · rw [hs k' o hfound] at hlinked
      rw [Stage.linked.inj hlinked] at hop
      exact absurd hop hkept
    · rw [hretired] at hlinked
      cases hlinked
  · exact hlinked

/-- A section protects an object until it ends. -/
theorem Table.Protects.step (h : s.Protects r o) (hop : op ≠ .leave r)
    (hstep : s.step op = some t) : t.Protects r o := by
  obtain ⟨hinside, hstage⟩ := h
  refine ⟨Table.inside_step hinside hop hstep, ?_⟩
  rcases Table.stage_cases o hstep with hsame | ⟨r', hleave, hrelease⟩ | ⟨k, _, _, hlinked⟩ |
    ⟨k, _, _, hretired⟩ | ⟨_, hnobody, _⟩
  · rwa [hsame]
  · rcases hstage with ⟨k, hlinked⟩ | ⟨waits, hretired, hwaits⟩
    · rw [hlinked] at hrelease
      exact Or.inl ⟨k, hrelease⟩
    · rw [hretired] at hrelease
      have hne : r ≠ r' := fun heq => hop (by rw [hleave, heq])
      exact Or.inr ⟨_, hrelease, Finset.mem_erase.mpr ⟨hne, hwaits⟩⟩
  · exact Or.inl ⟨k, hlinked⟩
  · exact Or.inr ⟨_, hretired, hinside⟩
  · rcases hstage with ⟨k, hlinked⟩ | ⟨waits, hretired, hwaits⟩
    · rw [hnobody] at hlinked
      cases hlinked
    · rw [hnobody] at hretired
      rw [← Stage.retired.inj hretired] at hwaits
      exact absurd hwaits (Finset.notMem_empty r)

/-- An object is freed by being reclaimed, and in no other way. -/
theorem Table.not_freed_step (h : s.stage o ≠ .freed) (hop : op ≠ .reclaim o)
    (hstep : s.step op = some t) : t.stage o ≠ .freed := by
  rcases Table.stage_cases o hstep with hsame | ⟨r, _, hrelease⟩ | ⟨k, _, _, hlinked⟩ |
    ⟨k, _, _, hretired⟩ | ⟨hreclaim, _, _⟩
  · rwa [hsame]
  · rw [hrelease]
    cases hstage : s.stage o with
    | freed => exact absurd hstage h
    | fresh | linked | retired => exact fun heq => by cases heq
  · rw [hlinked]
    exact fun heq => by cases heq
  · rw [hretired]
    exact fun heq => by cases heq
  · exact absurd hreclaim hop

/-- What is freed stays freed. -/
theorem Table.Sound.freed_step (hs : s.Sound) (h : s.stage o = .freed)
    (hstep : s.step op = some t) : t.stage o = .freed := by
  rcases Table.stage_cases o hstep with hsame | ⟨r, _, hrelease⟩ | ⟨k, _, hfresh, _⟩ |
    ⟨k, _, hfound, _⟩ | ⟨_, _, hfreed⟩
  · rw [hsame, h]
  · rw [hrelease, h]
    rfl
  · rw [h] at hfresh
    cases hfresh
  · rw [hs k o hfound] at h
    cases h
  · exact hfreed

omit [DecidableEq Reader] [DecidableEq Key] [DecidableEq Obj]

/-- The empty table finds nothing. -/
theorem Table.init_sound : (Table.init Reader Key Obj).Sound := by
  intro k o h
  cases h

/-- A reader's section protects what the reader finds in it. -/
theorem Table.Sound.protects (hs : s.Sound) (hr : r ∈ s.inside) (hfind : s.entry k = some o) :
    s.Protects r o := ⟨hr, Or.inl ⟨k, hs k o hfind⟩⟩

/-- What is protected was not freed. -/
theorem Table.Protects.not_freed (h : s.Protects r o) : s.stage o ≠ .freed := by
  intro hfreed
  rcases h.2 with ⟨k, hlinked⟩ | ⟨waits, hretired, _⟩
  · rw [hfreed] at hlinked
    cases hlinked
  · rw [hfreed] at hretired
    cases hretired

end LinuxDevNote.ReadCopyUpdate
