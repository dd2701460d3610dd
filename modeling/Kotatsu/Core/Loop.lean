import Mathlib.Algebra.Order.Ring.Nat

/-!
# Loops that run until they return

A loop without a condition of its own is a function from the state of one turn to
the state of the next or to the result. It is run for a number of turns that some
measure of the state bounds: where an invariant makes every turn shrink the
measure, the loop returns, and what the last turn gives holds of the result.
`rank` is the measure of three counters in the order of their weight.
-/

namespace Kotatsu.Core

variable {σ β : Type}

/-- The result of a loop that returns within `n` turns. -/
def loop (turn : σ → σ ⊕ β) : Nat → σ → Option β
  | 0, _ => none
  | n + 1, s => (turn s).elim (loop turn n) some

/-- However many turns a loop is given, it returns one result. -/
theorem loop_unique {turn : σ → σ ⊕ β} {n m : Nat} {s : σ} {b b' : β}
    (h : loop turn n s = some b) (h' : loop turn m s = some b') : b = b' := by
  induction n generalizing m s with
  | zero => cases h
  | succ n ih =>
    cases m with
    | zero => cases h'
    | succ m =>
      rw [loop] at h h'
      cases ht : turn s with
      | inl s' =>
        rw [ht] at h h'
        exact ih h h'
      | inr result =>
        rw [ht] at h h'
        exact (Option.some.inj h).symm.trans (Option.some.inj h')

/-- A loop whose turns keep an invariant and shrink a measure returns. -/
theorem loop_total {turn : σ → σ ⊕ β} {I : σ → Prop} {Q : β → Prop} {μ : σ → Nat}
    (hturn : ∀ s s', I s → turn s = .inl s' → I s' ∧ μ s' < μ s)
    (hend : ∀ s b, I s → turn s = .inr b → Q b) {n : Nat} {s : σ} (hs : I s) (hn : μ s < n) :
    ∃ b, loop turn n s = some b ∧ Q b := by
  induction n generalizing s with
  | zero => exact absurd hn (Nat.not_lt_zero _)
  | succ n ih =>
    cases ht : turn s with
    | inl s' =>
      obtain ⟨hs', hlt⟩ := hturn s s' hs ht
      obtain ⟨b, hb, hq⟩ := ih hs' (by omega)
      exact ⟨b, by simp only [loop, ht, Sum.elim_inl, hb], hq⟩
    | inr b => exact ⟨b, by simp only [loop, ht, Sum.elim_inr], hend s b hs ht⟩

/-- Three counters, the first of the most weight. -/
def rank (B C a b c : Nat) : Nat := (a * B + b) * C + c

theorem rank_lt_of_third (B C a b : Nat) {c c' : Nat} (h : c' < c) :
    rank B C a b c' < rank B C a b c := Nat.add_lt_add_left h _

theorem rank_lt_of_second (B a : Nat) {C b b' c : Nat} {c' : Nat} (h : b' < b) (hc : c' < C) :
    rank B C a b' c' < rank B C a b c := by
  have hle : (a * B + b' + 1) * C ≤ (a * B + b) * C := Nat.mul_le_mul_right C (by omega)
  rw [Nat.add_mul _ 1, Nat.one_mul] at hle
  unfold rank
  omega

theorem rank_lt_of_first {B C a a' b b' c c' : Nat} (h : a' < a) (hb : b' < B) (hc : c' < C) :
    rank B C a' b' c' < rank B C a b c := by
  have hle : (a' + 1) * B ≤ a * B := Nat.mul_le_mul_right B h
  rw [Nat.add_mul, Nat.one_mul] at hle
  have hle' : (a' * B + b' + 1) * C ≤ (a * B + b) * C := Nat.mul_le_mul_right C (by omega)
  rw [Nat.add_mul _ 1, Nat.one_mul] at hle'
  unfold rank
  omega

end Kotatsu.Core
