import Kotatsu.Async.Sync.Endings

/-!
# The owner of a mutex

A mutex is locked exactly when it has an owner, and it has at most one: a task
that locked it, a lock that was granted and not resumed, or a wait on a
condition variable that has the mutex again. A cancelled lock hands the mutex on
and a cancelled wait on a condition variable keeps it, so such a wait always
ends with its task holding the mutex.
-/

namespace Kotatsu.Async.Sync

open Kotatsu.Core

variable {cfg : Config} {base s : State} {m : PrimId}

/-- The tasks that hold a mutex and the waits that own it. -/
def State.owners (s : State) (m : PrimId) : Nat :=
  (s.history m).holders.length + census (Wait.Owns m) s.waits s.fresh

theorem Counted.owners {debt ahead : PrimId → Int} (h : Counted cfg debt ahead s)
    (hm : cfg.kind m = .mutex) (hd : debt m = 0) :
    s.owners m = if (s.prims m).locked then 1 else 0 := by
  have hb := h.mutex m hm
  have hc : s.waitingOwners m = census (Wait.Owns m) s.waits s.fresh :=
    tally_eq_census (Wait.Owns m) s.waits s.fresh
  rw [hd, hc] at hb
  unfold State.owners
  cases hl : (s.prims m).locked with
  | false =>
    simp only [hl, Bool.false_eq_true, ite_false] at hb ⊢
    omega
  | true =>
    simp only [hl, ite_true] at hb ⊢
    omega

/-- A holder of a mutex is its only holder, and the mutex is locked. -/
theorem Counted.holder {debt ahead : PrimId → Int} (h : Counted cfg debt ahead s)
    (hm : cfg.kind m = .mutex) (hd : debt m = 0) {t : TaskId} (ht : t ∈ (s.history m).holders) :
    (s.history m).holders = [t] ∧ (s.prims m).locked = true := by
  have ho := h.owners hm hd
  have hpos := List.length_pos_of_mem ht
  unfold State.owners at ho
  cases hl : (s.prims m).locked with
  | false =>
    simp only [hl, Bool.false_eq_true, ite_false] at ho
    omega
  | true =>
    simp only [hl, ite_true] at ho
    obtain ⟨u, hu⟩ := List.length_eq_one_iff.mp (show (s.history m).holders.length = 1 by omega)
    rw [hu, List.mem_singleton] at ht
    exact ⟨by rw [hu, ht], rfl⟩

/-- After every run a mutex is locked exactly when it has its one owner, waits
queue only while it is locked, and a wait on a condition variable, cancelled or
not, ends with its task as the holder. -/
theorem Config.Reachable.mutex (h : cfg.Reachable s) (hm : cfg.kind m = .mutex) :
    s.owners m ≤ 1 ∧ ((s.prims m).locked = true ↔ s.owners m = 1) ∧
      ((s.prims m).queue ≠ [] → (s.prims m).locked = true) ∧
      (∀ op s' w, step s op = some s' → (s'.waits w).relock = some m → ¬(s.waits w).Ended →
        (s'.waits w).Ended →
        (s'.history m).holders = [(s'.waits w).task] ∧ (s'.prims m).locked = true) ∧
      ∀ t c l s', step s (.waitOn t c m l true) = some s' → (s'.history m).holders = [t] := by
  have hclean := h.clean
  have ho := hclean.counted.owners hm rfl
  refine ⟨?_, ?_, ?_, ?_, ?_⟩
  · rw [ho]
    split <;> decide
  · rw [ho]
    split <;> simp_all
  · intro hq
    by_contra hl
    exact hq (hclean.ordered.locked m hm (Bool.eq_false_iff.mpr hl))
  · intro op s' w hs hr hold hnew
    have hclean' := hclean.step hs
    exact hclean'.counted.holder hm rfl (step_ended hs hold hnew hr)
  · intro t c l s' hs
    cases step_called hs with
    | kept _ hholds => exact (hclean.counted.holder hm rfl hholds).1

/-- A mutex and its condition variable. -/
private def monitor : Config where
  kind p := if p = 0 then .mutex else .conditionVariable

/-- The task of a wait that was notified is cancelled before it resumes. -/
private def cancelledNotified : List Op :=
  [.take 0 0 0 false, .waitOn 0 1 0 0 false, .notifyOne 1, .cancel 0]

theorem Config.Reachable.mutex_cancelledNotified :
    let s := (run step monitor.start cancelledNotified).get rfl
    s.owners 0 ≤ 1 ∧ ∃ s', step s (.resume 0) = some s' ∧ (s'.history 0).holders = [0] := by
  have hr : monitor.Reachable _ := Reach.of_isSome cancelledNotified rfl
  obtain ⟨hone, _, _, hends, _⟩ := hr.mutex (m := 0) rfl
  exact ⟨hone, _, rfl, (hends (.resume 0) _ 0 rfl rfl (by decide) (by decide)).1⟩

/-- A locked mutex need not have a task that runs nor a wait that no cancel has
reached: a notified wait on a condition variable keeps it when it is cancelled. -/
theorem locked_for_cancelled_wait :
    ∃ s, monitor.Reachable s ∧ (s.prims 0).locked = true ∧ (s.history 0).holders = [] ∧
      ∀ w, (s.waits w).granted = true → (s.waits w).cancelRequested = true := by
  have hr : monitor.Reachable _ := Reach.of_isSome cancelledNotified rfl
  refine ⟨_, hr, rfl, rfl, ?_⟩
  intro w hw
  have hlt : w < 1 := hr.clean.linked.lt_fresh fun hu => by
    rw [(hr.clean.linked.wait w).unused hu] at hw
    cases hw
  obtain rfl : w = 0 := Nat.lt_one_iff.mp hlt
  rfl

end Kotatsu.Async.Sync
