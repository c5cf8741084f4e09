import Mathlib.Data.List.Basic
import Mathlib.Data.List.Induction
import LinuxDevNote.Library.Resources

/-!
# Programs that are set up and torn down

A script says what a program does when it is loaded, call by call, with what it does when a call
fails, and what it releases when it is unloaded. It is loaded and unloaded any number of times.
Whether all this is clean can be seen from the ways a single load can turn out.
-/

namespace LinuxDevNote.Scripts

open Execution Resources

/-- A call that gives something back. -/
structure Release (Resource : Type*) where
  /-- What it releases. -/
  resource : Resource
  /-- It does nothing when there is nothing to release. -/
  tolerant : Bool

/-- What a script does when a call fails: it goes on, it goes on and returns the error at the end,
or it releases some things and returns at once. -/
inductive OnFailure (Resource : Type*)
  | ignored
  | kept
  | returned (unwind : List (Release Resource))

/-- A call of a script. -/
structure Statement (Resource : Type*) where
  /-- What the call uses unchecked; a script that makes it nevertheless crashes. -/
  needs : Option Resource
  /-- What the call checks for; without it the call fails. -/
  wants : Option Resource
  /-- What a success acquires. -/
  acquires : Option Resource
  /-- What a failure leads to; `none` when the call cannot fail. -/
  onFailure : Option (OnFailure Resource)

/-- A program. -/
structure Script (Resource : Type*) where
  /-- The calls of a load. -/
  init : List (Statement Resource)
  /-- The releases of an unload. -/
  exit : List (Release Resource)

/-- How a load ends. -/
inductive Ending (Resource : Type*)
  | loaded (held : List Resource)
  | failed
  | crashed

/-- A way in which a load can turn out. -/
structure Path (Resource : Type*) where
  /-- What was acquired and released. -/
  actions : List (Action Resource)
  /-- How it ends. -/
  ending : Ending Resource
  /-- No call has failed. -/
  faultless : Bool

variable {Resource : Type*} [DecidableEq Resource]

/-- The releases that take place. -/
def releases : List (Release Resource) → List Resource → List (Action Resource)
  | [], _ => []
  | r :: rs, held =>
    if r.resource ∉ held ∧ r.tolerant then releases rs held
    else .release r.resource :: releases rs (held.erase r.resource)

/-- The ways in which a load goes on. -/
def paths : List (Statement Resource) → List Resource → Bool → List (Path Resource)
  | [], held, error => [⟨[], if error then .failed else .loaded held, true⟩]
  | stmt :: stmts, held, error =>
    if stmt.needs.all (· ∈ held) then
      let succeeded :=
        if stmt.wants.all (· ∈ held) then
          (paths stmts (stmt.acquires.toList ++ held) error).map fun p =>
            { p with actions := stmt.acquires.toList.map .acquire ++ p.actions }
        else []
      let failed :=
        match stmt.onFailure with
        | none => []
        | some .ignored => paths stmts held error
        | some .kept => paths stmts held true
        | some (.returned unwind) => [⟨releases unwind held, .failed, false⟩]
      succeeded ++ failed.map fun p => { p with faultless := false }
    else [⟨[], .crashed, true⟩]

/-- The ways in which a load can turn out. -/
def Script.paths (script : Script Resource) : List (Path Resource) :=
  Scripts.paths script.init [] false

/-- Where a program stands. -/
inductive Phase (Resource : Type*)
  | unloaded
  | loaded (held : List Resource)
  | crashed

/-- A command to the program: load it, which turns out in one of the ways it can, or unload it. -/
inductive Command
  | load (way : ℕ)
  | unload

/-- What is seen. -/
inductive Event (Resource : Type*)
  | action (a : Action Resource)
  | notLoaded
  | crashed

/-- One command. -/
def Script.step (script : Script Resource) :
    Phase Resource → Command → Option (Phase Resource × List (Event Resource))
  | .unloaded, .load way =>
    script.paths[way]?.map fun p =>
      match p.ending with
      | .loaded held => (.loaded held, p.actions.map .action)
      | .failed => (.unloaded, p.actions.map .action ++ [.notLoaded])
      | .crashed => (.crashed, p.actions.map .action ++ [.crashed])
  | .loaded held, .unload =>
    some (.unloaded, (releases script.exit held).map .action ++ [.notLoaded])
  | _, _ => none

/-- The acquisitions and releases of a trace. -/
def actions (trace : List (Event Resource)) : List (Action Resource) :=
  trace.filterMap fun
    | .action a => some a
    | .notLoaded | .crashed => none

/-- Nothing crashes, only what is held is released, and nothing is left behind. -/
structure Clean (trace : List (Event Resource)) : Prop where
  /-- The program does not crash. -/
  running : Event.crashed ∉ trace
  /-- Only what is held is released. -/
  sound : Sound (actions trace)
  /-- Whenever the program is gone, nothing is held. -/
  settled : Justified (fun before e => e = .notLoaded → Settled (actions before)) trace

/-- What is held after some actions; `none` when one of them releases what is not held. -/
def heldAfter : List Resource → List (Action Resource) → Option (List Resource)
  | held, [] => some held
  | held, .acquire r :: rest => heldAfter (r :: held) rest
  | held, .release r :: rest => if r ∈ held then heldAfter (held.erase r) rest else none

/-- All that a load does until the program is gone; `none` when it crashes. -/
def Path.whole (script : Script Resource) (p : Path Resource) : Option (List (Action Resource)) :=
  match p.ending with
  | .loaded held => some (p.actions ++ releases script.exit held)
  | .failed => some p.actions
  | .crashed => none

/-- A load leaves nothing behind, and nothing it does goes wrong. -/
def Path.clean (script : Script Resource) (p : Path Resource) : Bool :=
  (p.whole script).bind (heldAfter []) = some []

variable {script : Script Resource} {trace es : List (Event Resource)}
  {xs ys : List (Action Resource)} {held held' : List Resource} {r : Resource}

/-- What is held after two parts. -/
theorem heldAfter_append :
    heldAfter held (xs ++ ys) = (heldAfter held xs).bind fun held => heldAfter held ys := by
  induction xs generalizing held with
  | nil => rfl
  | cons a xs ih =>
    cases a with
    | acquire r => exact ih
    | release r =>
      rw [List.cons_append, heldAfter, heldAfter]
      split
      · exact ih
      · rfl

/-- What is held goes up with acquisitions and down with releases. -/
theorem count_heldAfter (h : heldAfter held xs = some held') (r : Resource) :
    held'.count r + released r xs = held.count r + acquired r xs := by
  induction xs generalizing held with
  | nil =>
    obtain rfl := Option.some.inj h
    rfl
  | cons a xs ih =>
    cases a with
    | acquire r' =>
      have hrest := ih h
      by_cases hr : r' = r
      · subst hr
        simp only [acquired, released, List.count_cons_self, List.count_cons, reduceCtorEq,
          if_false, beq_iff_eq] at hrest ⊢
        omega
      · simpa [acquired, released, List.count_cons, hr] using hrest
    | release r' =>
      rw [heldAfter] at h
      split at h
      · rename_i hmem
        have hrest := ih h
        by_cases hr : r' = r
        · subst hr
          have hpos := List.count_pos_iff.mpr hmem
          rw [List.count_erase_self] at hrest
          simp only [acquired, released, List.count_cons_self, List.count_cons, reduceCtorEq,
            if_false, beq_iff_eq] at hrest ⊢
          omega
        · rw [List.count_erase_of_ne (Ne.symm hr)] at hrest
          simpa [acquired, released, List.count_cons, hr] using hrest
      · cases h

/-- Actions are sound exactly when what is held can be followed through them. -/
theorem sound_iff : Sound xs ↔ ∃ held, heldAfter [] xs = some held := by
  induction xs using List.reverseRecOn with
  | nil => exact iff_of_true justified_nil ⟨[], rfl⟩
  | append_singleton xs a ih =>
    rw [Sound, justified_append_singleton_iff, heldAfter_append]
    change Sound xs ∧ _ ↔ _
    rw [ih]
    constructor
    · rintro ⟨⟨held, hheld⟩, hlast⟩
      rw [hheld]
      cases a with
      | acquire r => exact ⟨_, rfl⟩
      | release r =>
        have hcount := count_heldAfter hheld r
        have hless := hlast r rfl
        have hmem : r ∈ held := List.count_pos_iff.mp (by simp at hcount; omega)
        exact ⟨_, by rw [Option.bind_some, heldAfter, if_pos hmem]; rfl⟩
    · rintro ⟨held', hheld'⟩
      obtain ⟨held, hheld, hlast⟩ := Option.bind_eq_some_iff.mp hheld'
      refine ⟨⟨held, hheld⟩, ?_⟩
      rintro r rfl
      rw [heldAfter] at hlast
      split at hlast
      · rename_i hmem
        have hcount := count_heldAfter hheld r
        have hpos := List.count_pos_iff.mpr hmem
        simp at hcount
        omega
      · cases hlast

/-- Actions are sound and settled exactly when they lead from nothing held to nothing held. -/
theorem sound_and_settled_iff : Sound xs ∧ Settled xs ↔ heldAfter [] xs = some [] := by
  rw [sound_iff]
  constructor
  · rintro ⟨⟨held, hheld⟩, hsettled⟩
    have hnil : held = [] := by
      rw [List.eq_nil_iff_forall_not_mem]
      intro r hr
      have hcount := count_heldAfter hheld r
      have hpos := List.count_pos_iff.mpr hr
      have hsame := hsettled r
      simp at hcount
      omega
    rw [hheld, hnil]
  · intro h
    refine ⟨⟨[], h⟩, fun r => ?_⟩
    have hcount := count_heldAfter h r
    simpa using hcount

/-- The loads that turn out in certain ways only. -/
def Script.Admits (script : Script Resource) (ok : Path Resource → Prop) :
    Phase Resource → Command → Prop
  | _, .load way => ∀ p, script.paths[way]? = some p → ok p
  | _, .unload => True

omit [DecidableEq Resource] in
/-- The actions of two parts of a trace. -/
theorem actions_append : actions (trace ++ es) = actions trace ++ actions es :=
  List.filterMap_append

omit [DecidableEq Resource] in
/-- The actions of a part without anything else. -/
@[simp] theorem actions_map : actions (xs.map Event.action) = xs := by
  simp [actions, List.filterMap_map]

/-- A clean trace goes on with sound actions. -/
theorem Clean.append_actions (h : Clean trace) (hsound : Sound (actions trace ++ xs)) :
    Clean (trace ++ xs.map .action) where
  running := by
    simp only [List.mem_append, List.mem_map, reduceCtorEq, and_false, exists_false, or_false]
    exact h.running
  sound := by rwa [actions_append, actions_map]
  settled := by
    refine h.settled.append fun e he _ hgone => ?_
    obtain ⟨a, _, rfl⟩ := List.mem_map.mp he
    cases hgone

/-- A clean trace goes on with the program being gone, when nothing is held. -/
theorem Clean.append_notLoaded (h : Clean trace) (hsettled : Settled (actions trace)) :
    Clean (trace ++ [.notLoaded]) where
  running := by
    simp only [List.mem_append, List.mem_singleton, reduceCtorEq, or_false]
    exact h.running
  sound := by
    rw [actions_append, show actions [(.notLoaded : Event Resource)] = [] from rfl, List.append_nil]
    exact h.sound
  settled := h.settled.append_singleton fun _ => hsettled

/-- A clean trace goes on with actions after which the program is gone and nothing is held. -/
theorem Clean.append_whole (h : Clean trace)
    (hwhole : heldAfter [] (actions trace ++ xs) = some []) :
    Clean (trace ++ (xs.map .action ++ [.notLoaded])) ∧
      heldAfter [] (actions (trace ++ (xs.map .action ++ [.notLoaded]))) = some [] := by
  obtain ⟨hsound, hsettled⟩ := sound_and_settled_iff.mpr hwhole
  have hactions := h.append_actions hsound
  rw [← List.append_assoc]
  refine ⟨hactions.append_notLoaded ?_, ?_⟩
  · rwa [actions_append, actions_map]
  · rw [actions_append, actions_append, actions_map]
    simpa [actions] using hwhole

/-- Of a clean trace at whose end the program is gone, nothing is held. -/
theorem Clean.heldAfter_eq (h : Clean (xs.map .action ++ [.notLoaded])) :
    heldAfter [] xs = some [] := by
  have hsound := h.sound
  have hsettled := h.settled (xs.map .action) _ [] rfl rfl
  rw [actions_append, actions_map, show actions [(.notLoaded : Event Resource)] = [] from rfl,
    List.append_nil] at hsound
  rw [actions_map] at hsettled
  exact sound_and_settled_iff.mp ⟨hsound, hsettled⟩

/-- What holds while loads are clean. -/
def Inv (script : Script Resource) (s : Phase Resource) (trace : List (Event Resource)) : Prop :=
  Clean trace ∧
    match s with
    | .unloaded => heldAfter [] (actions trace) = some []
    | .loaded held => ∃ p : Path Resource, ∃ xs, p.ending = .loaded held ∧ p.clean script = true ∧
        actions trace = xs ++ p.actions ∧ heldAfter [] xs = some []
    | .crashed => False

/-- A command keeps the trace clean when the load it may be is clean. -/
theorem Inv.step {s t : Phase Resource} {c : Command} {ok : Path Resource → Prop}
    (hclean : ∀ p ∈ script.paths, ok p → p.clean script = true) (h : Inv script s trace)
    (hok : script.Admits ok s c) (hstep : script.step s c = some (t, es)) :
    Inv script t (trace ++ es) := by
  obtain ⟨htrace, hphase⟩ := h
  cases s with
  | crashed => exact hphase.elim
  | unloaded =>
    cases c with
    | unload => cases hstep
    | load way =>
      obtain ⟨p, hp, heq⟩ := Option.map_eq_some_iff.mp hstep
      have hpclean := hclean p (List.mem_of_getElem? hp) (hok p hp)
      dsimp only at hphase heq
      cases hending : p.ending with
      | loaded held =>
        rw [hending] at heq
        obtain ⟨rfl, rfl⟩ := Prod.mk.inj heq
        refine ⟨htrace.append_actions ?_, p, _, hending, hpclean, ?_, hphase⟩
        · obtain ⟨held', hheld', _⟩ := Option.bind_eq_some_iff.mp
            (heldAfter_append.symm.trans (by simpa [Path.clean, Path.whole, hending] using hpclean))
          exact sound_iff.mpr ⟨held', by rw [heldAfter_append, hphase]; exact hheld'⟩
        · rw [actions_append, actions_map]
      | failed =>
        rw [hending] at heq
        obtain ⟨rfl, rfl⟩ := Prod.mk.inj heq
        refine htrace.append_whole ?_
        rw [heldAfter_append, hphase]
        simpa [Path.clean, Path.whole, hending] using hpclean
      | crashed => simp [Path.clean, Path.whole, hending] at hpclean
  | loaded held =>
    cases c with
    | load way => cases hstep
    | unload =>
      obtain ⟨rfl, rfl⟩ := Prod.mk.inj (Option.some.inj hstep)
      obtain ⟨p, xs, hending, hpclean, hactions, hxs⟩ := hphase
      refine htrace.append_whole ?_
      rw [hactions, List.append_assoc, heldAfter_append, hxs]
      simpa [Path.clean, Path.whole, hending] using hpclean

/-- What a load and the unload after it leave held. -/
theorem heldAfter_load_unload {way : ℕ} {p : Path Resource} {s : Phase Resource}
    (hway : script.paths[way]? = some p)
    (hexec : exec script.step .unloaded [.load way, .unload] = some (s, trace)) :
    heldAfter [] (actions trace) = (p.whole script).bind (heldAfter []) := by
  obtain ⟨t, es, rest, hload, hrest, rfl⟩ := exec_cons_eq_some.mp hexec
  obtain ⟨u, fs, last, hunload, hnil, rfl⟩ := exec_cons_eq_some.mp hrest
  obtain ⟨rfl, rfl⟩ := Prod.mk.inj (Option.some.inj hnil)
  cases hending : p.ending with
  | loaded held =>
    simp only [Script.step, hway, hending, Option.map_some, Option.some.injEq,
      Prod.mk.injEq] at hload
    obtain ⟨rfl, rfl⟩ := hload
    obtain ⟨rfl, rfl⟩ := Prod.mk.inj (Option.some.inj hunload)
    rw [Path.whole, hending, actions_append, actions_map, List.append_nil, actions_append,
      actions_map]
    simp [actions]
  | failed | crashed =>
    -- the program is not loaded then, and cannot be unloaded
    simp only [Script.step, hway, hending, Option.map_some, Option.some.injEq,
      Prod.mk.injEq] at hload
    obtain ⟨rfl, rfl⟩ := hload
    cases hunload

/-- **One load decides.** All runs of loads that turn out in certain ways, and of unloads, are
clean exactly when each of these ways is clean by itself. -/
theorem clean_iff (script : Script Resource) (ok : Path Resource → Prop) :
    (∀ as s trace, Meets script.step (script.Admits ok) .unloaded as →
        exec script.step .unloaded as = some (s, trace) → Clean trace) ↔
      ∀ p ∈ script.paths, ok p → p.clean script = true := by
  constructor
  · intro h p hp hok
    obtain ⟨way, hway⟩ := List.mem_iff_getElem?.mp hp
    have hadmits : script.Admits ok .unloaded (.load way) := by
      intro q hq
      rwa [← Option.some.inj (hway.symm.trans hq)]
    cases hending : p.ending with
    | loaded held =>
      have hload : script.step .unloaded (.load way) =
          some (.loaded held, p.actions.map .action) := by
        simp [Script.step, hway, hending]
      have htrace := h [.load way, .unload] _ _
        ⟨hadmits, fun _ _ hnext => by
          obtain ⟨rfl, _⟩ := Prod.mk.inj (Option.some.inj (hload.symm.trans hnext))
          exact ⟨trivial, fun _ _ _ => trivial⟩⟩
        (exec_cons_eq_some.mpr ⟨_, _, _, hload, exec_singleton rfl, rfl⟩)
      rw [← List.append_assoc, ← List.map_append] at htrace
      simpa [Path.clean, Path.whole, hending] using htrace.heldAfter_eq
    | failed =>
      have hload : script.step .unloaded (.load way) =
          some (.unloaded, p.actions.map .action ++ [.notLoaded]) := by
        simp [Script.step, hway, hending]
      have htrace := h [.load way] _ _ ⟨hadmits, fun _ _ _ => trivial⟩ (exec_singleton hload)
      simpa [Path.clean, Path.whole, hending] using htrace.heldAfter_eq
    | crashed =>
      have hload : script.step .unloaded (.load way) =
          some (.crashed, p.actions.map .action ++ [.crashed]) := by
        simp [Script.step, hway, hending]
      have htrace := h [.load way] _ _ ⟨hadmits, fun _ _ _ => trivial⟩ (exec_singleton hload)
      exact absurd (by simp) htrace.running
  · intro hclean as s trace hmeets hexec
    have hinv : Inv script s trace := by
      refine (run_of_exec hmeets hexec).invariant (I := Inv script) ⟨?_, rfl⟩
        fun h hok hstep => h.step hclean hok hstep
      exact ⟨List.not_mem_nil, justified_nil, justified_nil⟩
    exact hinv.1

/-- All runs are clean exactly when each way a load can turn out is. -/
theorem clean_iff_forall_paths (script : Script Resource) :
    (∀ as s trace, exec script.step .unloaded as = some (s, trace) → Clean trace) ↔
      ∀ p ∈ script.paths, p.clean script = true := by
  have hadmits : ∀ as, Meets script.step (script.Admits fun _ => True) .unloaded as := fun as =>
    meets_of_forall_mem (fun c _ s => by cases c <;> simp [Script.Admits]) _
  have h := clean_iff script fun _ => True
  simp only [hadmits, true_implies] at h
  exact h

end LinuxDevNote.Scripts
