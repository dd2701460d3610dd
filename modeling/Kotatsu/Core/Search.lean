import Mathlib.Data.List.Basic
import Mathlib.Order.Defs.Unbundled

/-!
# Ordered search

`StrictTotal` is a comparison that orders a type strictly and totally. Such orders
come from the integers and are put together lexicographically. `lowerBound` is the
halving loop of a binary search; what it finds is fixed by the predicate it asks,
once that predicate holds of a beginning of the range and of nothing behind it.
-/

namespace Kotatsu.Core

/-! ## Strict total orders -/

/-- `less` is a strict total order: two values of which neither is below the other
are the same one. -/
abbrev StrictTotal {α : Type} (less : α → α → Bool) : Prop :=
  IsStrictTotalOrder α fun a b => less a b = true

namespace StrictTotal

variable {α β : Type} {less : α → α → Bool}

theorem of_laws (irrefl : ∀ a, less a a = false)
    (trans : ∀ a b c, less a b = true → less b c = true → less a c = true)
    (eq_of_ties : ∀ a b, less a b = false → less b a = false → a = b) : StrictTotal less where
  irrefl a := by rw [irrefl a]; exact Bool.false_ne_true
  trans := trans
  trichotomous a b hab hba :=
    eq_of_ties a b (Bool.eq_false_iff.mpr hab) (Bool.eq_false_iff.mpr hba)

theorem not_less_self (h : StrictTotal less) (a : α) : less a a = false :=
  Bool.eq_false_iff.mpr (h.irrefl a)

theorem less_trans (h : StrictTotal less) {a b c : α} (hab : less a b = true)
    (hbc : less b c = true) : less a c = true := h.trans a b c hab hbc

theorem not_less_of_less (h : StrictTotal less) {a b : α} (hab : less a b = true) :
    less b a = false := by
  by_contra hne
  have hba : less b a = true := by simpa only [Bool.not_eq_false] using hne
  have hself := h.less_trans hab hba
  rw [h.not_less_self a] at hself
  exact Bool.false_ne_true hself

theorem eq_of_ties (h : StrictTotal less) {a b : α} (hab : less a b = false)
    (hba : less b a = false) : a = b :=
  h.trichotomous a b (Bool.eq_false_iff.mp hab) (Bool.eq_false_iff.mp hba)

/-- The ties of a strict total order are the pairs of one value. -/
theorem ties_iff (h : StrictTotal less) {a b : α} :
    (less a b = false ∧ less b a = false) ↔ a = b := by
  constructor
  · rintro ⟨hab, hba⟩
    exact h.eq_of_ties hab hba
  · rintro rfl
    exact ⟨h.not_less_self a, h.not_less_self a⟩

/-- Values are ordered by the integers they stand for. -/
theorem of_value {value : α → Int} (hinj : ∀ a b, value a = value b → a = b)
    (hless : ∀ a b, less a b = decide (value a < value b)) : StrictTotal less := by
  refine of_laws (fun a => ?_) (fun a b c hab hbc => ?_) fun a b hab hba => ?_
  · rw [hless, decide_eq_false_iff_not]
    exact Int.lt_irrefl _
  · rw [hless, decide_eq_true_eq] at hab hbc ⊢
    exact Int.lt_trans hab hbc
  · rw [hless, decide_eq_false_iff_not] at hab hba
    exact hinj a b (Int.le_antisymm (Int.not_lt.mp hba) (Int.not_lt.mp hab))

/-- A first comparison that decides where it can, and another for its ties. -/
theorem ite_eq_true_iff (h : StrictTotal less) {a b : α} {rest : Bool} :
    (if less a b then true else if less b a then false else rest) = true ↔
      less a b = true ∨ (a = b ∧ rest = true) := by
  by_cases hab : less a b = true
  · simp only [hab, ite_true, true_or]
  · by_cases hba : less b a = true
    · have hne : a ≠ b := by
        rintro rfl
        exact hab hba
      simp only [hab, hba, hne, ite_true, Bool.false_eq_true, ite_false, false_and, or_self]
    · have he := h.eq_of_ties (Bool.eq_false_iff.mpr hab) (Bool.eq_false_iff.mpr hba)
      rw [if_neg hab, if_neg hba]
      simp only [he, h.not_less_self, Bool.false_eq_true, true_and, false_or]

end StrictTotal

/-- Two orders, the first deciding where it can. -/
def lexLess {α β : Type} (first : α → α → Bool) (second : β → β → Bool) (x y : α × β) : Bool :=
  if first x.1 y.1 then true else if first y.1 x.1 then false else second x.2 y.2

/-- Two strict total orders are one on pairs. -/
theorem StrictTotal.lex {α β : Type} {first : α → α → Bool} {second : β → β → Bool}
    (hfirst : StrictTotal first) (hsecond : StrictTotal second) :
    StrictTotal (lexLess first second) := by
  have hcases : ∀ x y, lexLess first second x y = true ↔
      first x.1 y.1 = true ∨ (x.1 = y.1 ∧ second x.2 y.2 = true) :=
    fun x y => hfirst.ite_eq_true_iff
  refine of_laws (fun x => ?_) (fun x y z hxy hyz => ?_) fun x y hxy hyx => ?_
  · rw [lexLess, hfirst.not_less_self, if_neg Bool.false_ne_true, if_neg Bool.false_ne_true]
    exact hsecond.not_less_self x.2
  · rw [hcases] at hxy hyz ⊢
    rcases hxy with hxy | ⟨hxy, hxy'⟩ <;> rcases hyz with hyz | ⟨hyz, hyz'⟩
    · exact .inl (hfirst.less_trans hxy hyz)
    · exact .inl (hyz ▸ hxy)
    · exact .inl (hxy ▸ hyz)
    · exact .inr ⟨hxy.trans hyz, hsecond.less_trans hxy' hyz'⟩
  · rw [Bool.eq_false_iff, Ne, hcases, not_or] at hxy hyx
    have hfst := hfirst.eq_of_ties (Bool.eq_false_iff.mpr hxy.1) (Bool.eq_false_iff.mpr hyx.1)
    refine Prod.ext hfst (hsecond.eq_of_ties ?_ ?_)
    · exact Bool.eq_false_iff.mpr fun h => hxy.2 ⟨hfst, h⟩
    · exact Bool.eq_false_iff.mpr fun h => hyx.2 ⟨hfst.symm, h⟩

/-- Two texts, an order of their letters deciding at the first place where they differ. -/
def textLess {α : Type} (less : α → α → Bool) : List α → List α → Bool
  | _, [] => false
  | [], _ :: _ => true
  | a :: as, b :: bs => if less a b then true else if less b a then false else textLess less as bs

/-- A strict total order of the letters is one of the texts. -/
theorem StrictTotal.text {α : Type} {less : α → α → Bool} (h : StrictTotal less) :
    StrictTotal (textLess less) := by
  have hcons : ∀ a as b bs, textLess less (a :: as) (b :: bs) = true ↔
      less a b = true ∨ (a = b ∧ textLess less as bs = true) :=
    fun a as b bs => h.ite_eq_true_iff
  refine of_laws (fun as => ?_) (fun as => ?_) fun as => ?_
  · induction as with
    | nil => rfl
    | cons a as ih =>
      rw [textLess, h.not_less_self, if_neg Bool.false_ne_true, if_neg Bool.false_ne_true]
      exact ih
  · induction as with
    | nil =>
      intro bs cs hab hbc
      cases bs with
      | nil => exact absurd hab Bool.false_ne_true
      | cons b bs =>
        cases cs with
        | nil => exact absurd hbc Bool.false_ne_true
        | cons c cs => rfl
    | cons a as ih =>
      intro bs cs hab hbc
      cases bs with
      | nil => exact absurd hab Bool.false_ne_true
      | cons b bs =>
        cases cs with
        | nil => exact absurd hbc Bool.false_ne_true
        | cons c cs =>
          rw [hcons] at hab hbc ⊢
          rcases hab with hab | ⟨hab, hab'⟩ <;> rcases hbc with hbc | ⟨hbc, hbc'⟩
          · exact .inl (h.less_trans hab hbc)
          · exact .inl (hbc ▸ hab)
          · exact .inl (hab ▸ hbc)
          · exact .inr ⟨hab.trans hbc, ih bs cs hab' hbc'⟩
  · induction as with
    | nil =>
      intro bs hab hba
      cases bs with
      | nil => rfl
      | cons b bs => exact absurd hab Bool.noConfusion
    | cons a as ih =>
      intro bs hab hba
      cases bs with
      | nil => exact absurd hba Bool.noConfusion
      | cons b bs =>
        rw [Bool.eq_false_iff, Ne, hcons, not_or] at hab hba
        have he := h.eq_of_ties (Bool.eq_false_iff.mpr hab.1) (Bool.eq_false_iff.mpr hba.1)
        have hrest := ih bs (Bool.eq_false_iff.mpr fun ht => hab.2 ⟨he, ht⟩)
          (Bool.eq_false_iff.mpr fun ht => hba.2 ⟨he.symm, ht⟩)
        rw [he, hrest]

/-! ## Halving -/

/-- The first index of `[lo, hi)` that is not below what is looked for. -/
def lowerBound (below : Nat → Bool) (lo hi : Nat) : Nat :=
  if lo < hi then
    let mid := lo + (hi - lo) / 2
    if below mid then lowerBound below (mid + 1) hi else lowerBound below lo mid
  else lo
termination_by hi - lo

/-- The indices below are those before the one found, when they come first. -/
theorem lowerBound_spec {below : Nat → Bool} {lo hi : Nat} (hle : lo ≤ hi)
    (hmono : ∀ i j, i < j → j < hi → below j = true → below i = true) :
    lo ≤ lowerBound below lo hi ∧ lowerBound below lo hi ≤ hi ∧
      (∀ i, lo ≤ i → i < lowerBound below lo hi → below i = true) ∧
      ∀ i, lowerBound below lo hi ≤ i → i < hi → below i = false := by
  fun_induction lowerBound below lo hi with
  | case1 lo hi hlt mid hmid ih =>
    obtain ⟨hlo, hhi, hbefore, hbehind⟩ := ih (by omega) hmono
    refine ⟨by omega, hhi, fun i hi' hir => ?_, hbehind⟩
    by_cases him : i < mid
    · exact hmono i mid him (by omega) hmid
    · by_cases he : i = mid
      · exact he ▸ hmid
      · exact hbefore i (by omega) hir
  | case2 lo hi hlt mid hmid ih =>
    have hnot : below mid = false := Bool.eq_false_iff.mpr hmid
    obtain ⟨hlo, hhi, hbefore, hbehind⟩ :=
      ih (by omega) fun i j hij hj => hmono i j hij (by omega)
    refine ⟨hlo, by omega, hbefore, fun i hri hi' => ?_⟩
    by_cases him : i < mid
    · exact hbehind i hri him
    · by_contra hne
      have hbi : below i = true := by simpa only [Bool.not_eq_false] using hne
      by_cases he : i = mid
      · exact hmid (he ▸ hbi)
      · exact hmid (hmono mid i (by omega) hi' hbi)
  | case3 lo hi hlt =>
    exact ⟨Nat.le_refl lo, hle, fun i _ _ => by omega, fun i _ _ => by omega⟩

/-- An index that is not below while all before it are is the one found. -/
theorem lowerBound_eq {below : Nat → Bool} {hi i : Nat}
    (hmono : ∀ i j, i < j → j < hi → below j = true → below i = true) (hi' : i < hi)
    (hbefore : ∀ j, j < i → below j = true) (hnot : below i = false) :
    lowerBound below 0 hi = i := by
  obtain ⟨-, hle, hall, hnone⟩ := lowerBound_spec (Nat.zero_le hi) hmono
  rcases Nat.lt_trichotomy (lowerBound below 0 hi) i with hlt | heq | hgt
  · have hfalse := hnone (lowerBound below 0 hi) (Nat.le_refl _) (by omega)
    rw [hbefore _ hlt] at hfalse
    exact absurd hfalse Bool.noConfusion
  · exact heq
  · rw [hall i (Nat.zero_le i) hgt] at hnot
    exact absurd hnot Bool.noConfusion

end Kotatsu.Core
