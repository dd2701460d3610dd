import Mathlib.Algebra.BigOperators.Ring.Finset
import Mathlib.Algebra.Order.BigOperators.Group.Finset
import Mathlib.Algebra.Order.Group.Int

/-!
# Runs of a transition function

A system is a partial step function: a step is refused where its precondition
fails. What holds at the start and is kept by each step holds after every run.
A system that numbers its parties counts them with `tally`, a sum over the
first `n` of them, which a change of one party moves by that party's share.
-/

namespace Kotatsu.Core

variable {σ α β : Type}

/-- The state after a list of operations, when every one of them was possible. -/
def run (step : σ → α → Option σ) : σ → List α → Option σ
  | s, [] => some s
  | s, a :: as => (step s a).bind fun s' => run step s' as

variable {step : σ → α → Option σ} {as : List α} {s t u : σ} {a : α}

/-- What every step keeps, a run keeps. -/
theorem run_invariant {I : σ → Prop} (hstep : ∀ {s s' : σ} {a : α}, I s → step s a = some s' → I s')
    {s s' : σ} (hs : I s) (h : run step s as = some s') : I s' := by
  induction as generalizing s with
  | nil =>
    cases h
    exact hs
  | cons a as ih =>
    obtain ⟨t, ht, hrest⟩ := Option.bind_eq_some_iff.mp h
    exact ih (hstep hs ht) hrest

theorem run_append {as bs : List α} (hs : run step s as = some t) (ht : run step t bs = some u) :
    run step s (as ++ bs) = some u := by
  induction as generalizing s with
  | nil =>
    cases hs
    exact ht
  | cons a as ih =>
    obtain ⟨r, hr, hrest⟩ := Option.bind_eq_some_iff.mp hs
    exact Option.bind_eq_some_iff.mpr ⟨r, hr, ih hrest⟩

/-- A run of two parts goes through a state between them. -/
theorem run_append_inv {as bs : List α} (h : run step s (as ++ bs) = some u) :
    ∃ t, run step s as = some t ∧ run step t bs = some u := by
  induction as generalizing s with
  | nil => exact ⟨s, rfl, h⟩
  | cons a as ih =>
    obtain ⟨r, hr, hrest⟩ := Option.bind_eq_some_iff.mp h
    obtain ⟨t, ht, hbs⟩ := ih hrest
    exact ⟨t, Option.bind_eq_some_iff.mpr ⟨r, hr, ht⟩, hbs⟩

/-- A run cut before its last operation. -/
theorem run_concat (hs : run step s as = some t) (ht : step t a = some u) :
    run step s (as ++ [a]) = some u :=
  run_append hs (Option.bind_eq_some_iff.mpr ⟨u, ht, rfl⟩)

/-- The states some run leads to. -/
def Reach (step : σ → α → Option σ) (s t : σ) : Prop := ∃ as, run step s as = some t

theorem Reach.refl (step : σ → α → Option σ) (s : σ) : Reach step s s := ⟨[], rfl⟩

theorem Reach.of_isSome (as : List α) (h : (run step s as).isSome = true) :
    Reach step s ((run step s as).get h) :=
  ⟨as, (Option.some_get h).symm⟩

theorem Reach.tail (h : Reach step s t) (ha : step t a = some u) : Reach step s u := by
  obtain ⟨as, has⟩ := h
  exact ⟨as ++ [a], run_concat has ha⟩

theorem Reach.trans (h : Reach step s t) (h' : Reach step t u) : Reach step s u := by
  obtain ⟨as, has⟩ := h
  obtain ⟨bs, hbs⟩ := h'
  exact ⟨as ++ bs, run_append has hbs⟩

/-- What every step keeps holds in every state reached from one where it holds. -/
theorem Reach.invariant {I : σ → Prop}
    (hstep : ∀ {s s' : σ} {a : α}, I s → step s a = some s' → I s') (hs : I s) (h : Reach step s t) :
    I t := by
  obtain ⟨as, has⟩ := h
  exact run_invariant hstep hs has

/-- Where a log extended by one event is cut: at that event, or before. -/
theorem concat_eq_append_cons {l before after : List α} {a e : α}
    (h : l ++ [a] = before ++ e :: after) :
    (l = before ∧ a = e ∧ after = []) ∨ ∃ after', after = after' ++ [a] ∧
      l = before ++ e :: after' := by
  rcases List.eq_nil_or_concat' after with rfl | ⟨after', b, rfl⟩
  · obtain ⟨rfl, hae⟩ := List.append_inj' h rfl
    exact .inl ⟨rfl, List.head_eq_of_cons_eq hae, rfl⟩
  · rw [← List.cons_append, ← List.append_assoc] at h
    obtain ⟨rfl, hab⟩ := List.append_inj' h rfl
    obtain rfl : a = b := List.head_eq_of_cons_eq hab
    exact .inr ⟨after', rfl, rfl⟩

/-- The sum of what each of the first `n` parties counts for. -/
def tally (f : α → Int) (g : Nat → α) (n : Nat) : Int := ∑ i ∈ Finset.range n, f (g i)

/-- A change of one party moves the tally by that party's share. -/
theorem tally_update (f : α → Int) (g : Nat → α) {n i : Nat} (hi : i < n) (x : α) :
    tally f (Function.update g i x) n = tally f g n - f (g i) + f x := by
  have hmem : i ∈ Finset.range n := Finset.mem_range.mpr hi
  have hrest : ∑ j ∈ (Finset.range n).erase i, f (Function.update g i x j) =
      ∑ j ∈ (Finset.range n).erase i, f (g j) := by
    apply Finset.sum_congr rfl
    intro j hj
    rw [Function.update_of_ne (Finset.ne_of_mem_erase hj)]
  have hnew := Finset.add_sum_erase (Finset.range n) (fun j => f (Function.update g i x j)) hmem
  have hold := Finset.add_sum_erase (Finset.range n) (fun j => f (g j)) hmem
  simp only [Function.update_self, hrest] at hnew
  simp only [tally]
  omega

/-- A party beyond the first `n` does not count. -/
theorem tally_update_of_le (f : α → Int) (g : Nat → α) {n i : Nat} (hi : n ≤ i) (x : α) :
    tally f (Function.update g i x) n = tally f g n := by
  apply Finset.sum_congr rfl
  intro j hj
  rw [Function.update_of_ne (by rw [Finset.mem_range] at hj; omega)]

theorem tally_succ (f : α → Int) (g : Nat → α) (n : Nat) :
    tally f g (n + 1) = tally f g n + f (g n) := Finset.sum_range_succ _ n

theorem tally_nonneg {f : α → Int} (g : Nat → α) (n : Nat) (h : ∀ x, 0 ≤ f x) :
    0 ≤ tally f g n := Finset.sum_nonneg fun i _ => h (g i)

/-- The number of parties with a property. -/
def census (p : α → Prop) [DecidablePred p] (g : Nat → α) (n : Nat) : Nat :=
  ((Finset.range n).filter fun i => p (g i)).card

/-- A tally of ones and zeros is a number of parties. -/
theorem tally_eq_census (p : α → Prop) [DecidablePred p] (g : Nat → α) (n : Nat) :
    tally (fun x => if p x then 1 else 0) g n = census p g n := by
  simp only [tally, census, Finset.card_filter, Nat.cast_sum, Nat.cast_ite, Nat.cast_one,
    Nat.cast_zero]

end Kotatsu.Core
