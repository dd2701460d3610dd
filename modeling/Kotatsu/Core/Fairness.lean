import Kotatsu.Core.Transition

/-!
# Runs without an end

An endless run: at each moment the system takes one step or
stands still. A goal is reached on a trace when a measure of the way to it never
grows and, wherever the trace stands, shrinks at some later moment.
-/

namespace Kotatsu.Core

variable {σ α : Type}

/-- An endless run of a system; `none` is a moment in which it stands still. -/
structure EndlessRun (step : σ → α → Option σ) (start : σ) where
  state : Nat → σ
  op : Nat → Option α
  begins : state 0 = start
  moves : ∀ i, (op i).elim (some (state i)) (step (state i)) = some (state (i + 1))

namespace EndlessRun

variable {step : σ → α → Option σ} {start : σ}

theorem next_of_none (r : EndlessRun step start) {i : Nat} (h : r.op i = none) :
    r.state (i + 1) = r.state i := by
  have hm := r.moves i
  rw [h] at hm
  exact (Option.some.inj hm).symm

theorem next_of_some (r : EndlessRun step start) {i : Nat} {a : α} (h : r.op i = some a) :
    step (r.state i) a = some (r.state (i + 1)) := by
  have hm := r.moves i
  rwa [h] at hm

/-- What every step keeps, a trace keeps from any moment on. -/
theorem keeps (r : EndlessRun step start) (I : σ → Prop)
    (hstep : ∀ {s s' : σ} {a : α}, I s → step s a = some s' → I s') {i j : Nat} (hij : i ≤ j)
    (hi : I (r.state i)) : I (r.state j) := by
  induction j, hij using Nat.le_induction with
  | base => exact hi
  | succ j _ ih =>
    cases hop : r.op j with
    | none =>
      rw [r.next_of_none hop]
      exact ih
    | some a => exact hstep ih (r.next_of_some hop)

/-- Each state of a trace is one a run leads to. -/
theorem reach (r : EndlessRun step start) (i : Nat) : Reach step start (r.state i) := by
  apply r.keeps (Reach step start) (fun h ha => h.tail ha) (Nat.zero_le i)
  rw [r.begins]
  exact Reach.refl step start

/-- A goal is reached when the way to it never gets longer and always gets shorter at some
later moment. -/
theorem eventually (r : EndlessRun step start) (goal : σ → Prop) (μ : σ → Nat) {i : Nat}
    (hle : ∀ j, i ≤ j → ¬goal (r.state j) → μ (r.state (j + 1)) ≤ μ (r.state j))
    (hlt : ∀ j, i ≤ j → (∀ m, i ≤ m → ¬goal (r.state m)) →
      ∃ m, j ≤ m ∧ μ (r.state (m + 1)) < μ (r.state m)) :
    ∃ j, i ≤ j ∧ goal (r.state j) := by
  by_contra hnone
  have hnot : ∀ m, i ≤ m → ¬goal (r.state m) := fun m hm hg => hnone ⟨m, hm, hg⟩
  have hmono : ∀ j m, i ≤ j → j ≤ m → μ (r.state m) ≤ μ (r.state j) := by
    intro j m hj hjm
    induction m, hjm using Nat.le_induction with
    | base => exact le_refl _
    | succ m hm ih => exact (hle m (hj.trans hm) (hnot m (hj.trans hm))).trans ih
  have hdrop : ∀ n, ∃ j, i ≤ j ∧ μ (r.state j) + n ≤ μ (r.state i) := by
    intro n
    induction n with
    | zero => exact ⟨i, le_refl _, le_refl _⟩
    | succ n ih =>
      obtain ⟨j, hj, hn⟩ := ih
      obtain ⟨m, hm, hshort⟩ := hlt j hj hnot
      have := hmono j m hj hm
      exact ⟨m + 1, by omega, by omega⟩
  obtain ⟨j, _, hj⟩ := hdrop (μ (r.state i) + 1)
  omega

/-- The trace that stands still once a run is over. -/
def ofRun (as : List α) (h : (run step start as).isSome = true) : EndlessRun step start where
  state i := (run step start (as.take i)).getD start
  op i := as[i]?
  begins := rfl
  moves i := by
    by_cases hi : i < as.length
    · have hcut : as.take i ++ (as[i] :: as.drop (i + 1)) = as := by
        rw [← List.drop_eq_getElem_cons hi, List.take_append_drop]
      obtain ⟨u, hu⟩ := Option.isSome_iff_exists.mp h
      rw [← hcut] at hu
      obtain ⟨t, ht, hrest⟩ := run_append_inv hu
      obtain ⟨t', ht', -⟩ := Option.bind_eq_some_iff.mp hrest
      rw [List.getElem?_eq_getElem hi, List.take_succ_eq_append_getElem hi, run_concat ht ht', ht]
      exact ht'
    · rw [List.getElem?_eq_none (Nat.le_of_not_lt hi), List.take_of_length_le (by omega),
        List.take_of_length_le (by omega)]
      rfl

end EndlessRun

end Kotatsu.Core
