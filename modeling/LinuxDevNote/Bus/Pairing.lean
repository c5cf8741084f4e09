import LinuxDevNote.Bus.Driver

/-!
# Pairing of probe and remove

One misc device stands for every device bound to the driver. It is registered by the
probe that finds it missing and deregistered by every remove, so it is there exactly
while a device is bound only as long as devices are bound one at a time, and the
probe that should register it finds a free minor.
-/

namespace LinuxDevNote.Bus

open Execution

variable {ι : Type*}

/-- `misc_321` is registered exactly while a device is bound, and the callback did
not deregister it when it was not registered. -/
def Moment.Good (m : Moment ι) : Prop := (m.misc = true ↔ m.bound ≠ []) ∧ m.clean = true

instance (m : Moment ι) : Decidable m.Good := inferInstanceAs (Decidable (_ ∧ _))

/-- The driver and `misc_321` fit together. -/
structure State.Paired (s : State ι) : Prop where
  /-- `misc_321` is registered exactly while a device is bound. -/
  misc : s.misc = true ↔ s.bound ≠ []
  /-- Without the driver no device is bound. -/
  driver : s.driver = false → s.bound = []

variable [DecidableEq ι]

/-- A step leaves driver and `misc_321` together: a probe with no device bound before
it finds a free minor, and a device is unbound only when no other one is bound. -/
def State.KeepsPaired (names : ι → List UInt8) (s : State ι) : Label ι → Prop
  | .registerDevice d free =>
    s.driver = true → myMatch (names d) = true → s.bound = [] → free = true
  | .unregisterDevice d => d ∈ s.bound → s.bound = [d]
  | .registerDriver probes => ∀ p ∈ probes.head?, p.2 = true
  | .unregisterDriver _ => s.bound.length ≤ 1

instance (names : ι → List UInt8) (s : State ι) : ∀ a, Decidable (s.KeepsPaired names a)
  | .registerDevice _ _ => inferInstanceAs (Decidable (_ → _ → _ → _))
  | .unregisterDevice _ => inferInstanceAs (Decidable (_ → _))
  | .registerDriver _ => inferInstanceAs (Decidable (∀ p ∈ List.head? _, _))
  | .unregisterDriver _ => inferInstanceAs (Decidable (_ ≤ _))

omit [DecidableEq ι] in
/-- Nothing is bound at the start. -/
theorem State.paired_init : (State.init : State ι).Paired := ⟨by simp [init], fun _ => rfl⟩

omit [DecidableEq ι] in
/-- A probe fits when a device was bound before, or a minor is free. -/
theorem State.Paired.bind_good_iff {s : State ι} {d : ι} {free : Bool} (h : s.Paired) :
    (∀ m ∈ (s.bind d free).2, m.Good) ↔ (s.bound = [] → free = true) := by
  rw [State.bind_eq, List.forall_mem_singleton]
  simp only [Moment.Good, ne_eq, List.append_eq_nil_iff, reduceCtorEq, and_false, not_false_eq_true,
    iff_true, and_true, Bool.or_eq_true, h.misc]
  exact or_iff_not_imp_left.trans (by rw [not_not])

omit [DecidableEq ι] in
/-- A probe that fits leaves driver and `misc_321` together. -/
theorem State.Paired.bind {s : State ι} {d : ι} {free : Bool} (h : s.Paired)
    (hdriver : s.driver = true) (hfree : s.bound = [] → free = true) :
    (s.bind d free).1.Paired := by
  rw [State.bind_eq]
  refine ⟨?_, fun hnone => ?_⟩
  · by_cases hbound : s.bound = []
    · simp [hfree hbound]
    · simp [h.misc.mpr hbound]
  · dsimp only at hnone
    rw [hdriver] at hnone
    cases hnone

omit [DecidableEq ι] in
/-- Once a device is bound, all further probes fit. -/
theorem State.Paired.bindAll_of_bound {s : State ι} (h : s.Paired) (hdriver : s.driver = true)
    (hbound : s.bound ≠ []) (probes : List (ι × Bool)) :
    (s.bindAll probes).1.Paired ∧ ∀ m ∈ (s.bindAll probes).2, m.Good := by
  induction probes generalizing s with
  | nil => exact ⟨h, by simp [State.bindAll]⟩
  | cons p probes ih =>
    obtain ⟨d, free⟩ := p
    have hfree : s.bound = [] → free = true := fun hnone => absurd hnone hbound
    have hrest := ih (h.bind (d := d) hdriver hfree) (by simpa using hdriver) (by simp)
    refine ⟨hrest.1, fun m hm => ?_⟩
    rcases List.mem_append.mp hm with hfirst | hlater
    · exact h.bind_good_iff.mpr hfree m hfirst
    · exact hrest.2 m hlater

omit [DecidableEq ι] in
/-- With no device bound, the probes fit exactly when the first finds a free minor. -/
theorem State.Paired.bindAll_good_iff {s : State ι} (h : s.Paired) (hdriver : s.driver = true)
    (hnone : s.bound = []) (probes : List (ι × Bool)) :
    (∀ m ∈ (s.bindAll probes).2, m.Good) ↔ ∀ p ∈ probes.head?, p.2 = true := by
  cases probes with
  | nil => simp [State.bindAll]
  | cons p probes =>
    obtain ⟨d, free⟩ := p
    have hfirst : (∀ m ∈ (s.bind d free).2, m.Good) ↔ (s.bound = [] → free = true) :=
      h.bind_good_iff
    simp only [State.bindAll, List.head?_cons, Option.mem_def, Option.some.injEq, forall_eq']
    constructor
    · intro hgood
      exact hfirst.mp (fun m hm => hgood m (List.mem_append_left _ hm)) hnone
    · intro hfree m hm
      rcases List.mem_append.mp hm with hhead | hlater
      · exact hfirst.mpr (fun _ => hfree) m hhead
      · have hpaired := h.bind (d := d) hdriver fun _ => hfree
        exact (hpaired.bindAll_of_bound (by simpa using hdriver) (by simp) probes).2 m hlater

omit [DecidableEq ι] in
/-- Probes that fit leave driver and `misc_321` together. -/
theorem State.Paired.bindAll {s : State ι} (h : s.Paired) (hdriver : s.driver = true)
    {probes : List (ι × Bool)} (hfree : ∀ p ∈ probes.head?, p.2 = true) :
    (s.bindAll probes).1.Paired := by
  cases probes with
  | nil => exact h
  | cons p probes =>
    obtain ⟨d, free⟩ := p
    have hpaired := h.bind (d := d) hdriver fun _ => hfree _ rfl
    exact (hpaired.bindAll_of_bound (by simpa using hdriver) (by simp) probes).1

/-- Removing an entry empties a list that holds nothing else. -/
theorem erase_eq_nil_iff {l : List ι} {d : ι} (hd : d ∈ l) : l.erase d = [] ↔ l = [d] := by
  constructor
  · intro hnil
    have hlen := List.length_erase_of_mem hd
    have hpos := List.length_pos_of_mem hd
    rw [hnil, List.length_nil] at hlen
    obtain ⟨x, rfl⟩ := List.length_eq_one_iff.mp (show l.length = 1 by omega)
    rw [List.mem_singleton.mp hd]
  · rintro rfl
    exact List.erase_cons_head ..

/-- A remove fits exactly when no other device is bound. -/
theorem State.Paired.unbind_good_iff {s : State ι} {d : ι} (h : s.Paired) (hd : d ∈ s.bound) :
    (∀ m ∈ (s.unbind d).2, m.Good) ↔ s.bound = [d] := by
  have hmisc := h.misc.mpr (List.ne_nil_of_mem hd)
  simp only [State.unbind, myRemove, miscDeregister, List.forall_mem_singleton, Moment.Good,
    Bool.false_eq_true, ne_eq, false_iff, not_not, hmisc, and_true, erase_eq_nil_iff hd]

/-- Unbinding all devices fits exactly when there is at most one. -/
theorem State.Paired.unbindAll_good_iff {s : State ι} {order : List ι} (h : s.Paired)
    (horder : order.Perm s.bound) :
    (∀ m ∈ (s.unbindAll order).2, m.Good) ↔ s.bound.length ≤ 1 := by
  cases order with
  | nil =>
    rw [← horder.length_eq]
    simp [State.unbindAll]
  | cons d order =>
    have hd : d ∈ s.bound := horder.subset List.mem_cons_self
    have hfirst := h.unbind_good_iff hd
    simp only [State.unbindAll]
    constructor
    · intro hgood
      rw [hfirst.mp fun m hm => hgood m (List.mem_append_left _ hm)]
      rfl
    · intro hlen m hm
      rw [← horder.length_eq, List.length_cons] at hlen
      obtain rfl : order = [] := List.length_eq_zero_iff.mp (by omega)
      have hbound : s.bound = [d] := (List.perm_singleton.mp horder.symm)
      rw [State.unbindAll, List.append_nil] at hm
      exact hfirst.mpr hbound m hm

/-- Unbinding at most one device leaves nothing bound and `misc_321` not registered. -/
theorem State.Paired.unbindAll {s : State ι} {order : List ι} (h : s.Paired)
    (horder : order.Perm s.bound) (hlen : s.bound.length ≤ 1) :
    (s.unbindAll order).1.bound = [] ∧ (s.unbindAll order).1.misc = false := by
  cases order with
  | nil =>
    have hnone : s.bound = [] := List.nil_perm.mp horder
    refine ⟨hnone, ?_⟩
    rw [State.unbindAll, ← Bool.not_eq_true, h.misc, not_not]
    exact hnone
  | cons d order =>
    rw [← horder.length_eq, List.length_cons] at hlen
    obtain rfl : order = [] := List.length_eq_zero_iff.mp (by omega)
    have hbound : s.bound = [d] := List.perm_singleton.mp horder.symm
    simp [State.unbindAll, State.unbind, myRemove, miscDeregister, hbound]

/-- What can be seen during a step fits exactly when the step keeps the pairing, and then
driver and `misc_321` stay together. -/
theorem State.Paired.step {names : ι → List UInt8} {s t : State ι} {a : Label ι}
    {moments : List (Moment ι)} (h : s.Paired) (hstep : s.step names a = some (t, moments)) :
    ((∀ m ∈ moments, m.Good) ↔ s.KeepsPaired names a) ∧ (s.KeepsPaired names a → t.Paired) := by
  cases a with
  | registerDevice d free =>
    have hpaired : State.Paired { s with devices := s.devices ++ [d] } := ⟨h.misc, h.driver⟩
    simp only [State.step] at hstep
    split_ifs at hstep with hold hmatch
    all_goals obtain ⟨rfl, rfl⟩ := Prod.mk.inj (Option.some.inj hstep)
    · refine ⟨hpaired.bind_good_iff.trans ?_, fun hkeeps => ?_⟩
      · simp [State.KeepsPaired, hmatch.1, hmatch.2]
      · exact hpaired.bind hmatch.1 (hkeeps hmatch.1 hmatch.2)
    · refine ⟨iff_of_true (by simp) fun hdriver hname => ?_, fun _ => hpaired⟩
      exact absurd ⟨hdriver, hname⟩ hmatch
  | unregisterDevice d =>
    simp only [State.step] at hstep
    split_ifs at hstep with hold hbound
    all_goals obtain ⟨rfl, rfl⟩ := Prod.mk.inj (Option.some.inj hstep)
    · refine ⟨?_, fun hkeeps => ?_⟩
      · rw [h.unbind_good_iff hbound]
        simp [State.KeepsPaired, hbound]
      · have honly := hkeeps hbound
        constructor <;> simp [State.unbind, myRemove, miscDeregister, honly]
    · refine ⟨iff_of_true (by simp) fun hd => ?_, fun _ => ⟨h.misc, h.driver⟩⟩
      exact absurd hd hbound
  | registerDriver probes =>
    simp only [State.step] at hstep
    split_ifs at hstep with hprobes
    obtain ⟨rfl, rfl⟩ := Prod.mk.inj (Option.some.inj hstep)
    have hnone := h.driver hprobes.1
    have hpaired : State.Paired { s with driver := true } := ⟨h.misc, fun hd => by cases hd⟩
    exact ⟨hpaired.bindAll_good_iff rfl hnone probes, fun hkeeps => hpaired.bindAll rfl hkeeps⟩
  | unregisterDriver order =>
    simp only [State.step] at hstep
    split_ifs at hstep with horder
    obtain ⟨rfl, rfl⟩ := Prod.mk.inj (Option.some.inj hstep)
    refine ⟨h.unbindAll_good_iff horder.2, fun hkeeps => ?_⟩
    obtain ⟨hbound, hmisc⟩ := h.unbindAll horder.2 hkeeps
    constructor <;> simp [hbound, hmisc]

/-- **Pairing of probe and remove.** For any number of devices with any names, in
every sequence of registrations and unregistrations `misc_321` is registered exactly
while a device is bound, and never deregistered while it is not registered, exactly
when every probe that finds no device bound finds a free minor, and no device is
unbound while another one is bound. -/
theorem paired_iff {names : ι → List UInt8} {schedule : List (Label ι)} {s : State ι}
    {moments : List (Moment ι)}
    (hexec : exec (State.step names) State.init schedule = some (s, moments)) :
    (∀ m ∈ moments, m.Good) ↔
      Meets (State.step names) (State.KeepsPaired names) State.init schedule :=
  forall_events_iff_meets State.Paired Moment.Good (State.KeepsPaired names)
    (fun h hstep => (h.step hstep).1) (fun h hkeeps hstep => (h.step hstep).2 hkeeps)
    State.paired_init hexec

/-- The device of the repository comes and goes while the driver is there. -/
theorem paired_iff_run :
    ∃ s moments, exec (State.step fun _ => driverName) State.init
        [.registerDriver [], .registerDevice 0 true, .unregisterDevice 0,
          .registerDevice 0 true, .unregisterDriver [(0 : ℕ)]] = some (s, moments) ∧
      ∀ m ∈ moments, m.Good := by
  obtain ⟨⟨s, moments⟩, hexec, _⟩ := Option.map_eq_some_iff.mp
    (show (exec (State.step fun _ => driverName) State.init
      [.registerDriver [], .registerDevice 0 true, .unregisterDevice 0, .registerDevice 0 true,
        .unregisterDriver [(0 : ℕ)]]).map (fun p => p.1.misc) = some false by decide +kernel)
  exact ⟨s, moments, hexec, (paired_iff hexec).mpr (by decide +kernel)⟩

/-- Two devices of different names match the driver, one named as it is and one with a 0 behind
that; when the first is unregistered, `misc_321` is gone while the second is still bound. -/
theorem bound_without_misc :
    ¬ ∀ (names : ℕ → List UInt8) (schedule : List (Label ℕ)) (s : State ℕ)
      (moments : List (Moment ℕ)), Function.Injective names →
        exec (State.step names) State.init schedule = some (s, moments) →
          ∀ m ∈ moments, m.Good := by
  intro h
  have hnames : Function.Injective fun d : ℕ => driverName ++ List.replicate d 48 := by
    intro d e heq
    simpa using congrArg List.length heq
  have hexec : exec (State.step fun d : ℕ => driverName ++ List.replicate d 48) State.init
      [.registerDriver [], .registerDevice 0 true, .registerDevice 1 true, .unregisterDevice 0] =
        some (⟨[1], true, [1], false⟩,
          [⟨[0], true, true⟩, ⟨[0, 1], true, true⟩, ⟨[1], false, true⟩]) := by
    decide +kernel
  exact absurd (h _ _ _ _ hnames hexec ⟨[1], false, true⟩ (by simp)) (by decide)

end LinuxDevNote.Bus
