import Kotatsu.Async.Sync.Endings

/-!
# The units of a semaphore

Every unit that a semaphore was given is in its count, with a wait that was
granted it, or with a task that took it. The count is positive only when nobody
waits, waits are granted in the order in which they queued, and a cancel of a
granted wait passes its unit on.
-/

namespace Kotatsu.Async.Sync

open Kotatsu.Core

variable {cfg : Config} {base : State} {s : State} {p : PrimId} {w : WaitId}

/-- The waits a semaphore granted that are neither resumed nor cancelled. -/
def State.grantedWaits (s : State) (p : PrimId) : Nat := census (Wait.Outstanding p) s.waits s.fresh

theorem State.outstanding_eq (s : State) (p : PrimId) : s.outstanding p = s.grantedWaits p :=
  tally_eq_census (Wait.Outstanding p) s.waits s.fresh

/-- What `await_ready` takes of a semaphore, it takes when nobody waits. -/
theorem Ordered.awaitReady (h : Ordered cfg s) (hkind : (s.prims p).kind = cfg.kind p)
    (hp : cfg.kind p = .semaphore) (ht : (s.awaitReady p).1 = true) :
    (s.prims p).queue = [] := by
  apply h.count_pos p hp
  unfold State.awaitReady State.tryAcquire at ht
  rw [hkind, hp] at ht
  dsimp only at ht
  split at ht
  · cases ht
  · omega

/-- Cancelling a granted wait of a semaphore gives its unit to the first wait in
the queue, or to the count when there is none. -/
theorem Linked.cancel_semaphore (h : Linked cfg base none s) (hp : cfg.kind p = .semaphore)
    (hw : (s.waits w).Outstanding p) :
    match (s.prims p).queue with
    | [] => ((s.cancel w).prims p).count = (s.prims p).count + 1 ∧
        ((s.cancel w).prims p).queue = []
    | v :: rest => ((s.cancel w).prims p).count = (s.prims p).count ∧
        ((s.cancel w).prims p).queue = rest ∧ ((s.cancel w).waits v).Outstanding p := by
  obtain ⟨t, ht, hqueue, hcount, _, he⟩ := h.cancel_outstanding hw (by rw [hp]; decide)
  rw [hp] at he
  dsimp only [State.release] at he
  rw [he]
  cases hq : (s.prims p).queue with
  | nil =>
    rw [hq] at hqueue
    rw [State.wakeOne_nil hqueue]
    simp [hqueue, hcount]
  | cons v rest =>
    rw [hq] at hqueue
    obtain ⟨hrest, hsame, hout, _⟩ := ht.wakeOne_granted hqueue (by rw [hp]; decide)
    have htrue := State.wakeOne_cons hqueue
    dsimp only
    split
    · next heq =>
      rw [heq] at hrest hsame hout
      exact ⟨hsame.trans hcount, hrest, hout⟩
    · next heq => simp only [heq, Bool.false_eq_true] at htrue

/-- The units a semaphore was given, less the ones tasks took of it. -/
def Config.units (cfg : Config) (s : State) (p : PrimId) : Int :=
  cfg.initial p + (s.history p).released - (s.history p).taken

/-- A release adds no more than its units to the count. -/
theorem State.release_count (p : PrimId) (n : Nat) (s : State) :
    ((State.release p n s).prims p).count ≤ (s.prims p).count + n := by
  induction n generalizing s with
  | zero => exact (Int.add_zero _).ge
  | succ n ih =>
    rw [State.release]
    cases hq : (s.prims p).queue with
    | nil =>
      rw [State.wakeOne_nil hq]
      have h := ih (s.modifyPrim p fun x => { x with count := x.count + 1 })
      rw [State.modifyPrim_prims, ite_cond_eq_true _ _ (eq_self p)] at h
      dsimp only at h ⊢
      push_cast
      omega
    | cons w rest =>
      have hsame : ((s.wakeOne p).2.prims p).count = (s.prims p).count := by
        unfold State.wakeOne
        rw [hq]
        simp [State.grant_count]
      split
      · next t heq =>
        have h := ih t
        rw [heq] at hsame
        dsimp only at hsame
        push_cast
        omega
      · next t heq =>
        have htrue := State.wakeOne_cons hq
        simp only [heq, Bool.false_eq_true] at htrue

/-- A granted wait is one of them. -/
theorem Linked.grantedWaits_pos (h : Linked cfg base none s) (hw : (s.waits w).Outstanding p) :
    0 < s.grantedWaits p := by
  have hlt : w < s.fresh := h.lt_fresh fun hu => by
    have hg := hw.2.1
    rw [(h.wait w).unused hu] at hg
    cases hg
  exact Finset.card_pos.mpr ⟨w, Finset.mem_filter.mpr ⟨Finset.mem_range.mpr hlt, hw⟩⟩

/-- After every run, each unit of a semaphore is in its count, granted or taken;
units are in the count only when nobody waits; and waits are granted in the
order in which they queued. While the units fit a `ptrdiff_t`, so does the
count: a release that keeps them so is defined, and so is a cancel of a granted
wait, which gives its one unit back, to the first wait in the queue if there is
one. -/
theorem Config.Reachable.semaphore (h : cfg.Reachable s) (hp : cfg.kind p = .semaphore) :
    (s.prims p).count + s.grantedWaits p = cfg.units s p ∧
      0 ≤ (s.prims p).count ∧
      (0 < (s.prims p).count → (s.prims p).queue = []) ∧
      ((s.awaitReady p).1 = true → (s.prims p).queue = []) ∧
      (s.history p).arrivals.Nodup ∧
      ((s.history p).grants ++ (s.prims p).queue).Sublist (s.history p).arrivals ∧
      (∀ n : Nat, cfg.units s p + n ≤ ptrdiffMax → ∃ s', step s (.release p n) = some s') ∧
      (cfg.units s p ≤ ptrdiffMax → (s.prims p).count ≤ ptrdiffMax ∧
        ∀ w, (s.waits w).Outstanding p → ∃ s', step s (.cancel w) = some s' ∧
          match (s.prims p).queue with
          | [] => (s'.prims p).count = (s.prims p).count + 1 ∧ (s'.prims p).queue = []
          | v :: rest => (s'.prims p).count = (s.prims p).count ∧ (s'.prims p).queue = rest ∧
              (s'.waits v).Outstanding p) := by
  have hclean := h.clean
  have hunits := hclean.counted.units p hp
  rw [State.outstanding_eq, Int.add_zero] at hunits
  change _ = cfg.units s p at hunits
  refine ⟨hunits, hclean.ordered.count_nonneg p hp, hclean.ordered.count_pos p hp,
    hclean.ordered.awaitReady (hclean.linked.kind p) hp, ?_, hclean.ordered.fifo p, ?_, ?_⟩
  · exact (hclean.ordered.arrivals p hp).1.imp Nat.ne_of_lt
  · intro n hn
    have hle := State.release_count p n
      (s.modifyHistory p fun h => { h with released := h.released + n })
    rw [State.modifyHistory_prims] at hle
    have hstep : step s (.release p n) = (State.release p n
        (s.modifyHistory p fun h => { h with released := h.released + n })).inRange p :=
      if_pos ((hclean.linked.kind p).trans hp)
    exact ⟨_, hstep.trans (State.inRange_self fun _ => by omega)⟩
  · intro hfits
    refine ⟨by omega, fun w hw => ?_⟩
    have hcancel := hclean.linked.cancel_semaphore hp hw
    have hpos := hclean.linked.grantedWaits_pos hw
    refine ⟨s.cancel w, hclean.can_cancel hw fun _ => ?_, hcancel⟩
    split at hcancel
    · omega
    · omega

/-- One semaphore with one unit. -/
private def oneUnit : Config where
  kind _ := .semaphore
  initial _ := 1
  initial_le _ := by decide

/-- The first of three tasks has the unit, and a release has granted the second its wait. -/
private def releasedOnce : List Op :=
  [.take 0 0 0 false, .take 1 0 0 false, .take 2 0 0 false, .release 0 1]

theorem Config.Reachable.semaphore_releasedOnce :
    let s := (run step oneUnit.start releasedOnce).get rfl
    (s.prims 0).count + s.grantedWaits 0 = oneUnit.units s 0 ∧
      ∃ s', step s (.cancel 0) = some s' ∧ (s'.waits 1).Outstanding 0 := by
  have hr : oneUnit.Reachable _ := Reach.of_isSome releasedOnce rfl
  have h := hr.semaphore (p := 0) rfl
  obtain ⟨s', hs, _, _, hv⟩ := (h.2.2.2.2.2.2.2 (by decide)).2 0 (by decide)
  exact ⟨h.1, s', hs, hv⟩

/-- One semaphore with as many units as a `ptrdiff_t` counts. -/
private def fullSemaphore : Config where
  kind _ := .semaphore
  initial _ := 9223372036854775807
  initial_le _ := by decide

/-- A unit more than a `ptrdiff_t` counts is released where nobody waits: no
count equals the units, and the release is not defined. -/
theorem release_past_ptrdiffMax :
    let s := fullSemaphore.start
    fullSemaphore.Reachable s ∧ (s.prims 0).kind = .semaphore ∧ (s.prims 0).queue = [] ∧
      step s (.release 0 1) = none ∧
      ∀ count ≤ ptrdiffMax, count + s.grantedWaits 0 ≠ fullSemaphore.units s 0 + 1 := by
  refine ⟨Reach.refl step _, rfl, rfl, by decide, fun count hcount => ?_⟩
  change count + (0 : Nat) ≠ ptrdiffMax + 0 - 0 + 1
  omega

end Kotatsu.Async.Sync
