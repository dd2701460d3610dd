import Mathlib.Data.List.Basic
import Mathlib.Data.List.Infix
import Mathlib.Data.List.TakeWhile

/-!
# Words between separators

The words of a text are its longest parts without a separator. Separators beside one
another, in front and at the end make no word, so a text is split at any one of them.
-/

namespace Kotatsu.Core

variable {α : Type} {sep : α → Bool} {xs ys w : List α} {c : α}

/-- The words of a text, in order. -/
def words (sep : α → Bool) (xs : List α) : List (List α) :=
  (xs.splitOnP sep).filter fun w => !w.isEmpty

theorem words_nil : words sep [] = [] := rfl

/-- A separator splits the words. -/
theorem words_append_cons (xs ys : List α) (hc : sep c = true) :
    words sep (xs ++ c :: ys) = words sep xs ++ words sep ys := by
  rw [words, List.splitOnP_append_cons xs ys hc, List.filter_append]
  rfl

theorem words_cons (hc : sep c = true) : words sep (c :: ys) = words sep ys := by
  have h := words_append_cons [] ys hc
  rwa [words_nil] at h

/-- A text without a separator is a word. -/
theorem words_eq_singleton (hne : xs ≠ []) (hxs : ∀ x ∈ xs, sep x = false) :
    words sep xs = [xs] := by
  rw [words, List.splitOnP_eq_singleton hxs, List.filter_cons_of_pos (by simpa using hne),
    List.filter_nil]

/-- A word ends with the text, or before a separator. -/
theorem words_append (hne : w ≠ []) (hw : ∀ x ∈ w, sep x = false)
    (hys : ∀ y ∈ ys.head?, sep y = true) : words sep (w ++ ys) = w :: words sep ys := by
  cases ys with
  | nil => rw [List.append_nil, words_eq_singleton hne hw, words_nil]
  | cons y ys =>
    have hy := hys y rfl
    rw [words_append_cons _ _ hy, words_eq_singleton hne hw, words_cons hy]
    rfl

/-- Separators in front make no word. -/
theorem words_seps_append (hxs : ∀ x ∈ xs, sep x = true) (ys : List α) :
    words sep (xs ++ ys) = words sep ys := by
  induction xs with
  | nil => rfl
  | cons x xs ih =>
    rw [List.forall_mem_cons] at hxs
    rw [List.cons_append, words_cons hxs.1, ih hxs.2]

/-- Separators at the end make no word. -/
theorem words_append_seps (hys : ∀ y ∈ ys, sep y = true) :
    words sep (xs ++ ys) = words sep xs := by
  cases ys with
  | nil => rw [List.append_nil]
  | cons y ys =>
    rw [List.forall_mem_cons] at hys
    have hnil := words_seps_append hys.2 []
    rw [List.append_nil, words_nil] at hnil
    rw [words_append_cons _ _ hys.1, hnil, List.append_nil]

/-- A text begins with separators, and behind them is a word or nothing. -/
theorem exists_first_word (sep : α → Bool) (xs : List α) :
    ∃ s w ys, xs = s ++ (w ++ ys) ∧ (∀ x ∈ s, sep x = true) ∧ (∀ x ∈ w, sep x = false) ∧
      (∀ y ∈ ys.head?, sep y = true) ∧ (w = [] → ys = []) := by
  refine ⟨xs.takeWhile sep, (xs.dropWhile sep).takeWhile (!sep ·),
    (xs.dropWhile sep).dropWhile (!sep ·), ?_, ?_, ?_, ?_, ?_⟩
  · rw [List.takeWhile_append_dropWhile, List.takeWhile_append_dropWhile]
  · exact fun x hx => List.mem_takeWhile_imp hx
  · exact fun x hx => by simpa using List.mem_takeWhile_imp hx
  · intro y hy
    have hnot := List.head?_dropWhile_not (!sep ·) (xs.dropWhile sep)
    rw [Option.mem_def.mp hy] at hnot
    simpa using hnot
  · intro hw
    have hnot := List.head?_dropWhile_not sep xs
    cases hd : xs.dropWhile sep with
    | nil => rfl
    | cons x rest =>
      rw [hd] at hnot hw
      simp only [List.head?_cons] at hnot
      rw [List.takeWhile_cons_of_pos (by simp [hnot])] at hw
      cases hw

/-- A word is not empty and holds no separator. -/
theorem mem_words (h : w ∈ words sep xs) : w ≠ [] ∧ ∀ x ∈ w, sep x = false := by
  induction hn : xs.length using Nat.strongRecOn generalizing xs with
  | ind n ih =>
    subst hn
    obtain ⟨s, v, ys, rfl, hs, hv, hys, hnil⟩ := exists_first_word sep xs
    rw [words_seps_append hs] at h
    by_cases hne : v = []
    · rw [hne, hnil hne] at h
      cases h
    · rw [words_append hne hv hys, List.mem_cons] at h
      obtain rfl | h := h
      · exact ⟨hne, hv⟩
      · refine ih ys.length ?_ h rfl
        have hpos := List.length_pos_iff.mpr hne
        rw [List.length_append, List.length_append]
        omega

theorem words_eq_nil_iff : words sep xs = [] ↔ ∀ x ∈ xs, sep x = true := by
  constructor
  · intro h
    obtain ⟨s, v, ys, rfl, hs, hv, hys, hnil⟩ := exists_first_word sep xs
    rw [words_seps_append hs] at h
    by_cases hne : v = []
    · rw [hne, hnil hne, List.append_nil, List.append_nil]
      exact hs
    · rw [words_append hne hv hys] at h
      cases h
  · intro h
    have hnil := words_seps_append h []
    rwa [List.append_nil] at hnil

/-- Words with one separator between them are the words of their text. -/
theorem words_intercalate (hc : sep c = true) {ws : List (List α)}
    (hws : ∀ w ∈ ws, w ≠ [] ∧ ∀ x ∈ w, sep x = false) :
    words sep ([c].intercalate ws) = ws := by
  induction ws with
  | nil => rfl
  | cons w ws ih =>
    rw [List.forall_mem_cons] at hws
    cases ws with
    | nil =>
      rw [List.intercalate_singleton]
      exact words_eq_singleton hws.1.1 hws.1.2
    | cons v ws =>
      rw [List.intercalate_cons_cons, List.append_assoc, List.singleton_append,
        words_append_cons _ _ hc, words_eq_singleton hws.1.1 hws.1.2, ih hws.2]
      rfl

end Kotatsu.Core
