import LinuxDevNote.Library.Execution

/-!
# Acquisitions and releases

A program acquires and releases resources. Its actions are sound when only what is
held is released, and settled when nothing is still held. The resources are arbitrary.
-/

namespace LinuxDevNote.Resources

open Execution

/-- An action on a resource of some kind. -/
inductive Action (Resource : Type*)
  | acquire (r : Resource)
  | release (r : Resource)
  deriving DecidableEq

variable {Resource : Type*} [DecidableEq Resource] {r : Resource}
  {actions more : List (Action Resource)}

/-- How many resources of a kind were acquired. -/
def acquired (r : Resource) (actions : List (Action Resource)) : ℕ := actions.count (.acquire r)

/-- How many resources of a kind were released. -/
def released (r : Resource) (actions : List (Action Resource)) : ℕ := actions.count (.release r)

/-- Only what is held is released. -/
def Sound (actions : List (Action Resource)) : Prop :=
  Justified (fun before a => ∀ r, a = .release r → released r before < acquired r before) actions

/-- Every resource was released as often as it was acquired: nothing is still held. -/
def Settled (actions : List (Action Resource)) : Prop :=
  ∀ r, released r actions = acquired r actions

/-- The acquisitions of two parts. -/
@[simp] theorem acquired_append :
    acquired r (actions ++ more) = acquired r actions + acquired r more :=
  List.count_append

/-- The releases of two parts. -/
@[simp] theorem released_append :
    released r (actions ++ more) = released r actions + released r more :=
  List.count_append

/-- A resource that is still held leaves the actions unsettled. -/
theorem not_settled_of_held (h : released r actions < acquired r actions) :
    ¬ Settled actions :=
  fun hsettled => absurd (hsettled r) (Nat.ne_of_lt h)

/-- Without a release nothing is released that is not held. -/
theorem sound_of_released_eq_zero (h : ∀ r, released r actions = 0) : Sound actions := by
  rintro before _ after rfl r rfl
  have hzero := h r
  simp [released] at hzero

end LinuxDevNote.Resources
