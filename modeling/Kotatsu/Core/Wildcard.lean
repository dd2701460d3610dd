import Mathlib.Data.List.Basic
import Mathlib.Logic.Function.Iterate

/-!
# Patterns with gaps

A pattern is a list of elements that each take something from the front of an
input, and of gaps that take any number of units. A matcher that goes through the
input from the left keeps what comes after the latest gap and where it was tried
last. A gap that is reached makes what was left of earlier gaps superfluous, since
it takes whatever they could have taken more; this holds where every element takes
a number of units of its own. Sequences whose elements take one unit each are a
case of it.
-/

namespace Kotatsu.Core

section Gaps

variable {σ τ : Type} (next : σ → σ) (take : τ → σ → σ → Prop) (done : σ → Prop)

/-- A pattern, with `none` for a gap, takes the whole input. -/
def Matches : List (Option τ) → σ → Prop
  | [], s => done s
  | none :: pattern, s => ∃ n, Matches pattern (next^[n] s)
  | some t :: pattern, s => ∃ s', take t s s' ∧ Matches pattern s'

/-- Elements take their parts one after another. -/
def TakeAll : List τ → σ → σ → Prop
  | [], s, s' => s' = s
  | t :: ts, s, s' => ∃ m, take t s m ∧ TakeAll ts m s'

variable {next take done} {pattern : List (Option τ)} {s s' : σ} {t : τ}

/-- A gap takes nothing, or a unit and what it takes then. -/
theorem matches_gap_iff :
    Matches next take done (none :: pattern) s ↔
      Matches next take done pattern s ∨ Matches next take done (none :: pattern) (next s) := by
  constructor
  · rintro ⟨n, hn⟩
    cases n with
    | zero => exact Or.inl hn
    | succ n => exact Or.inr ⟨n, hn⟩
  · rintro (hm | ⟨n, hn⟩)
    · exact ⟨0, hm⟩
    · exact ⟨n + 1, hn⟩

theorem matches_gap_of_iterate {n : Nat}
    (h : Matches next take done (none :: pattern) (next^[n] s)) :
    Matches next take done (none :: pattern) s := by
  obtain ⟨m, hm⟩ := h
  exact ⟨m + n, by rwa [Function.iterate_add_apply]⟩

theorem takeAll_append {front back : List τ} {m : σ} (h : TakeAll take front s m)
    (h' : TakeAll take back m s') : TakeAll take (front ++ back) s s' := by
  induction front generalizing s with
  | nil =>
    cases h
    exact h'
  | cons t front ih =>
    obtain ⟨k, ht, hk⟩ := h
    exact ⟨k, ht, ih hk⟩

theorem takeAll_append_iff {front back : List τ} :
    TakeAll take (front ++ back) s s' ↔ ∃ m, TakeAll take front s m ∧ TakeAll take back m s' := by
  refine ⟨fun h => ?_, fun ⟨m, hm, hback⟩ => takeAll_append hm hback⟩
  induction front generalizing s with
  | nil => exact ⟨s, rfl, h⟩
  | cons t front ih =>
    obtain ⟨k, ht, hk⟩ := h
    obtain ⟨m, hm, hback⟩ := ih hk
    exact ⟨m, ⟨k, ht, hm⟩, hback⟩

theorem takeAll_singleton : TakeAll take [t] s s' ↔ take t s s' := by
  constructor
  · rintro ⟨m, ht, rfl⟩
    exact ht
  · exact fun ht => ⟨s', ht, rfl⟩

/-- Elements at the start of a pattern. -/
theorem matches_fixed_append (front : List τ) :
    Matches next take done (front.map some ++ pattern) s ↔
      ∃ s', TakeAll take front s s' ∧ Matches next take done pattern s' := by
  induction front generalizing s with
  | nil =>
    constructor
    · exact fun h => ⟨s, rfl, h⟩
    · rintro ⟨s', rfl, hm⟩
      exact hm
  | cons t front ih =>
    constructor
    · rintro ⟨m, ht, hm⟩
      obtain ⟨s', hf, hs'⟩ := ih.mp hm
      exact ⟨s', ⟨m, ht, hf⟩, hs'⟩
    · rintro ⟨s', ⟨m, ht, hf⟩, hs'⟩
      exact ⟨m, ht, ih.mpr ⟨s', hf, hs'⟩⟩

/-- Elements that take a number of units each take as many further on. -/
theorem takeAll_iterate {width : τ → Nat} {front : List τ} {n : Nat} {m : σ}
    (hw : ∀ t ∈ front, ∀ s s', take t s s' → s' = next^[width t] s)
    (h : TakeAll take front s s') (hm : TakeAll take front (next^[n] s) m) :
    m = next^[n] s' := by
  induction front generalizing s with
  | nil =>
    cases h
    exact hm
  | cons t front ih =>
    obtain ⟨x, ht, hx⟩ := h
    obtain ⟨y, ht', hy⟩ := hm
    have hxy : y = next^[n] x := by
      rw [hw t List.mem_cons_self _ y ht', hw t List.mem_cons_self s x ht,
        ← Function.iterate_add_apply, ← Function.iterate_add_apply, Nat.add_comm]
    exact ih (fun t' ht' => hw t' (List.mem_cons_of_mem _ ht')) hx (hxy ▸ hy)

/-- A gap takes what earlier gaps could have taken more: where elements come before the
gap, a match further to the right moves what the gap has left. -/
theorem matches_gap_of_later {width : τ → Nat} {front : List τ} {n : Nat}
    (hw : ∀ t ∈ front, ∀ s s', take t s s' → s' = next^[width t] s)
    (hfront : TakeAll take front s s')
    (h : Matches next take done (front.map some ++ none :: pattern) (next^[n] s)) :
    Matches next take done (none :: pattern) s' := by
  obtain ⟨m, hm, hrest⟩ := (matches_fixed_append front).mp h
  have hmove := takeAll_iterate hw hfront hm
  exact matches_gap_of_iterate (hmove ▸ hrest)

end Gaps

/-! ## Sequences -/

section Sequences

variable {α τ : Type}

/-- An element takes one unit of a sequence that it fits. -/
def takeOne (fits : τ → α → Prop) (t : τ) (xs rest : List α) : Prop :=
  ∃ x, xs = x :: rest ∧ fits t x

/-- A pattern takes a whole sequence. -/
def MatchesSeq (fits : τ → α → Prop) : List (Option τ) → List α → Prop :=
  Matches List.tail (takeOne fits) (· = [])

variable {fits : τ → α → Prop} {pattern : List (Option τ)} {xs : List α} {t : τ} {x : α}

theorem takeOne_iterate (t : τ) (xs rest : List α) (h : takeOne fits t xs rest) :
    rest = List.tail^[1] xs := by
  obtain ⟨x, rfl, -⟩ := h
  rfl

@[simp] theorem matchesSeq_nil : MatchesSeq fits [] xs ↔ xs = [] := Iff.rfl

@[simp] theorem matchesSeq_some_nil : ¬MatchesSeq fits (some t :: pattern) [] := by
  rintro ⟨s', ⟨x, hx, -⟩, -⟩
  cases hx

@[simp] theorem matchesSeq_some_cons :
    MatchesSeq fits (some t :: pattern) (x :: xs) ↔ fits t x ∧ MatchesSeq fits pattern xs := by
  constructor
  · rintro ⟨s', ⟨x', hx, hf⟩, hm⟩
    cases hx
    exact ⟨hf, hm⟩
  · rintro ⟨hf, hm⟩
    exact ⟨xs, ⟨x, rfl, hf⟩, hm⟩

theorem tail_iterate (n : Nat) (xs : List α) : List.tail^[n] xs = xs.drop n := by
  induction n generalizing xs with
  | zero => rfl
  | succ n ih => rw [Function.iterate_succ_apply, ih, List.drop_tail]

theorem matchesSeq_gap :
    MatchesSeq fits (none :: pattern) xs ↔ ∃ n, MatchesSeq fits pattern (xs.drop n) := by
  change (∃ n, Matches _ _ _ pattern (List.tail^[n] xs)) ↔ _
  simp only [tail_iterate]
  rfl

/-- A match takes at least one unit for each element. -/
theorem MatchesSeq.length_le (h : MatchesSeq fits pattern xs) :
    (pattern.filter Option.isSome).length ≤ xs.length := by
  induction pattern generalizing xs with
  | nil => exact Nat.zero_le _
  | cons p pattern ih =>
    cases p with
    | none =>
      obtain ⟨n, hn⟩ := matchesSeq_gap.mp h
      have := ih hn
      simp only [List.length_drop] at this
      simp only [Option.isSome_none, Bool.false_eq_true, not_false_eq_true,
        List.filter_cons_of_neg]
      omega
    | some t =>
      obtain ⟨rest, ⟨x, rfl, -⟩, hm⟩ := h
      have := ih hm
      simp only [Option.isSome_some, List.filter_cons_of_pos, List.length_cons]
      omega

/-- Only gaps match nothing. -/
theorem matchesSeq_empty_iff : MatchesSeq fits pattern [] ↔ ∀ p ∈ pattern, p = none := by
  induction pattern with
  | nil => simp
  | cons p pattern ih =>
    cases p with
    | none =>
      rw [List.forall_mem_cons, ← ih, matchesSeq_gap]
      simp
    | some t => simp

/-- Gaps match everything. -/
theorem matchesSeq_of_gaps (hne : pattern ≠ []) (h : ∀ p ∈ pattern, p = none) :
    MatchesSeq fits pattern xs := by
  cases pattern with
  | nil => exact absurd rfl hne
  | cons p pattern =>
    obtain rfl : p = none := h p List.mem_cons_self
    refine matchesSeq_gap.mpr ⟨xs.length, ?_⟩
    rw [List.drop_length]
    exact matchesSeq_empty_iff.mpr fun q hq => h q (List.mem_cons_of_mem _ hq)

end Sequences

end Kotatsu.Core
