import Mathlib.Data.List.Basic

/-!
# Ordered choice

`firstSome` takes the candidates of a list in turn and stops at the first that answers; it
tells the place of the candidate with its answer. A choice from a list put together of two
is one from the first, or else one from the second, further along.
-/

namespace Kotatsu.Core

variable {α β : Type}

/-- The first answer, and the place of the candidate that gave it. -/
def firstSome (f : α → Option β) : List α → Option (Nat × β)
  | [] => none
  | a :: rest =>
    match f a with
    | some b => some (0, b)
    | none => (firstSome f rest).map fun found => (found.1 + 1, found.2)

theorem firstSome_append (f : α → Option β) (before after : List α) :
    firstSome f (before ++ after) =
      (firstSome f before).or
        ((firstSome f after).map fun found => (before.length + found.1, found.2)) := by
  induction before with
  | nil =>
    cases h : firstSome f after <;>
      simp only [List.nil_append, firstSome, h, Option.none_or, Option.map_none, Option.map_some,
        List.length_nil, Nat.zero_add]
  | cons a before ih =>
    rw [List.cons_append, firstSome, firstSome]
    cases f a with
    | some b => rfl
    | none =>
      dsimp only
      rw [ih]
      cases firstSome f before with
      | some found => rfl
      | none =>
        cases firstSome f after with
        | none => rfl
        | some found =>
          simp only [Option.map_none, Option.map_some, Option.none_or, List.length_cons,
            Option.some.injEq, Prod.mk.injEq, and_true]
          omega

theorem firstSome_eq_none {f : α → Option β} {candidates : List α} :
    firstSome f candidates = none ↔ ∀ a ∈ candidates, f a = none := by
  induction candidates with
  | nil => simp only [firstSome, List.not_mem_nil, false_implies, implies_true]
  | cons a candidates ih =>
    rw [firstSome, List.forall_mem_cons]
    cases h : f a with
    | some b => simp only [reduceCtorEq, false_and]
    | none => simp only [Option.map_eq_none_iff, ih, true_and]

/-- The candidate at the place told answers, and none before it does. -/
theorem firstSome_eq_some {f : α → Option β} {candidates : List α} {i : Nat} {b : β}
    (h : firstSome f candidates = some (i, b)) :
    ∃ before a after, candidates = before ++ a :: after ∧ before.length = i ∧ f a = some b ∧
      ∀ x ∈ before, f x = none := by
  induction candidates generalizing i with
  | nil => cases h
  | cons a candidates ih =>
    rw [firstSome] at h
    cases ha : f a with
    | some b' =>
      rw [ha] at h
      cases h
      exact ⟨[], a, candidates, rfl, rfl, ha, List.forall_mem_nil _⟩
    | none =>
      rw [ha] at h
      obtain ⟨⟨j, b'⟩, hj, heq⟩ := Option.map_eq_some_iff.mp h
      cases heq
      obtain ⟨before, x, after, rfl, rfl, hx, hbefore⟩ := ih hj
      refine ⟨a :: before, x, after, rfl, rfl, hx, ?_⟩
      exact List.forall_mem_cons.mpr ⟨ha, hbefore⟩

end Kotatsu.Core
