import Mathlib.Data.List.Basic

/-!
# Lists between separators

`List.splitOn` cuts a list at every separator. The parts hold no separator, and they
say what the list is, so a list whose parts begin with those of another begins with it.
-/

namespace Kotatsu.Core

variable {α β : Type} [DecidableEq α] [DecidableEq β] {a : α} {xs ys p rest : List α}

/-- A list has no separator, or a first one. -/
theorem splitOn_induction {motive : List α → Prop} (last : ∀ xs, a ∉ xs → motive xs)
    (cons : ∀ front back, a ∉ front → motive back → motive (front ++ a :: back))
    (xs : List α) : motive xs := by
  induction hn : xs.length using Nat.strongRecOn generalizing xs with
  | ind n ih =>
    subst hn
    by_cases hm : a ∈ xs
    · obtain ⟨front, back, rfl, hfront⟩ := List.eq_append_cons_of_mem hm
      refine cons front back hfront (ih back.length ?_ back rfl)
      rw [List.length_append, List.length_cons]
      omega
    · exact last xs hm

/-- What is between separators is in the list, and no separator. -/
theorem mem_of_mem_splitOn (h : ys ∈ xs.splitOn a) {y : α} (hy : y ∈ ys) : y ∈ xs ∧ y ≠ a := by
  induction xs using splitOn_induction (a := a) with
  | last xs hnot =>
    rw [List.splitOn_eq_singleton hnot, List.mem_singleton] at h
    subst h
    exact ⟨hy, fun heq => hnot (heq ▸ hy)⟩
  | cons front back hfront ih =>
    rw [List.splitOn_append_cons_self_of_not_mem hfront, List.mem_cons] at h
    obtain rfl | h := h
    · exact ⟨List.mem_append_left _ hy, fun heq => hfront (heq ▸ hy)⟩
    · obtain ⟨hmem, hne⟩ := ih h
      exact ⟨List.mem_append_right _ (List.mem_cons_of_mem _ hmem), hne⟩

theorem splitOn_injective (h : xs.splitOn a = ys.splitOn a) : xs = ys := by
  have hxs : [a].intercalate (xs.splitOn a) = xs := List.intercalate_splitOn a
  rw [← hxs, h, List.intercalate_splitOn]

/-- The parts of an image are the images of the parts. -/
theorem splitOn_map {f : α → β} {b : β} (hf : ∀ x ∈ xs, f x = b ↔ x = a) :
    (xs.map f).splitOn b = (xs.splitOn a).map (List.map f) := by
  induction xs using splitOn_induction (a := a) with
  | last xs hnot =>
    rw [List.splitOn_eq_singleton hnot, List.splitOn_eq_singleton, List.map_singleton]
    intro hm
    obtain ⟨x, hx, hb⟩ := List.mem_map.mp hm
    exact hnot ((hf x hx).mp hb ▸ hx)
  | cons front back hfront ih =>
    have ha : f a = b := (hf a (List.mem_append_right _ List.mem_cons_self)).mpr rfl
    have hnot : b ∉ front.map f := by
      intro hm
      obtain ⟨x, hx, hb⟩ := List.mem_map.mp hm
      exact hfront ((hf x (List.mem_append_left _ hx)).mp hb ▸ hx)
    rw [List.map_append, List.map_cons, ha, List.splitOn_append_cons_self_of_not_mem hnot,
      List.splitOn_append_cons_self_of_not_mem hfront, List.map_cons,
      ih fun x hx => hf x (List.mem_append_right _ (List.mem_cons_of_mem _ hx))]

/-- A list whose parts begin with those of another is the other, a separator, and the rest. -/
theorem splitOn_eq_append {zs : List (List α)} (h : ys.splitOn a = xs.splitOn a ++ zs)
    (hne : zs ≠ []) : ∃ rest, ys = xs ++ a :: rest ∧ rest.splitOn a = zs := by
  have hrest : ([a].intercalate zs).splitOn a = zs := by
    refine List.splitOn_intercalate a (fun l hl ha => ?_) hne
    have hmem : l ∈ ys.splitOn a := h ▸ List.mem_append_right _ hl
    exact (mem_of_mem_splitOn hmem ha).2 rfl
  refine ⟨[a].intercalate zs, splitOn_injective (a := a) ?_, hrest⟩
  rw [h, List.splitOn_append_cons_self, hrest]

/-- Text in front goes to the first part. -/
theorem splitOn_append_left (hp : a ∉ p) :
    (p ++ rest).splitOn a = (rest.splitOn a).modifyHead (p ++ ·) := by
  obtain ⟨y, zs, hsplit⟩ := List.exists_cons_of_ne_nil (List.splitOn_ne_nil a rest)
  induction p with
  | nil => rw [List.nil_append, hsplit]; rfl
  | cons b p ih =>
    rw [List.mem_cons, not_or] at hp
    rw [List.cons_append, List.splitOn_cons_eq_if_modifyHead, ih hp.2, hsplit,
      if_neg (by simpa using Ne.symm hp.1)]
    rfl

end Kotatsu.Core
