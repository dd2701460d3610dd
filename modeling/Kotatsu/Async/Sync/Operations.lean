import Kotatsu.Async.Sync.Invariant

/-!
# Every call keeps the invariant

The calls of the primitives are made of a few moves of one wait: off a queue,
onto one, into a loop's list of waits to resume, to its end. Each move keeps the
invariant up to what the call then holds, and a call ends with nothing in hand.
-/

namespace Kotatsu.Async.Sync

open Kotatsu.Core

variable {cfg : Config} {base : State} {hand : Option WaitId} {debt debt' ahead ahead' : PrimId → Int} {s : State}
  {p : PrimId} {w : WaitId}

/-! ## Moves of one wait -/

theorem Inv.congr (h : Inv cfg base hand debt ahead s) (hdebt : ∀ p, debt' p = debt p)
    (hover : ∀ p, ahead' p = ahead p) : Inv cfg base hand debt' ahead' s :=
  ⟨h.linked, h.counted.congr hdebt hover, h.ordered⟩

theorem Linked.lt_of_queued (h : Linked cfg base hand s) (hw : (s.waits w).queue = some p) :
    w < s.fresh := by
  apply h.lt_fresh
  rcases ((h.wait w).queued p hw).1 with hx | hx <;> simp [hx.2]

private theorem shares_inHand {x : Wait} (hx : x.place = .atOwner ∧ x.granted = false ∨
    x.place = .atMutex) (q : PrimId) :
    outstandingShare q { x with queue := none, place := .inHand } = outstandingShare q x ∧
      ownsShare q { x with queue := none, place := .inHand } = ownsShare q x := by
  unfold outstandingShare ownsShare Wait.Outstanding Wait.Owns
  grind

private theorem Linked.queued_place (h : Linked cfg base hand s) (hw : (s.waits w).queue = some p) :
    (s.waits w).place = .atOwner ∧ (s.waits w).granted = false ∨
      (s.waits w).place = .atMutex := by
  have hok := h.wait w
  rcases (hok.queued p hw).1 with hx | hx
  · exact Or.inl ⟨hx.2, (hok.atOwner hx.2).2.2⟩
  · exact Or.inr hx.2

theorem Counted.remove (h : Counted cfg debt ahead s) (hl : Linked cfg base none s)
    (hw : (s.waits w).queue = some p) : Counted cfg debt ahead (s.remove p w) := by
  have hshares := shares_inHand (hl.queued_place hw)
  refine h.changeWait (hl.lt_of_queued hw) (s.remove_waits_eq p w) (s.remove_fresh p w)
    ?_ ?_ ?_ ?_ ?_
  · intro q
    rw [State.remove_prims]
    split <;> exact ⟨rfl, rfl, rfl⟩
  · intro q
    rw [State.remove_history]
    exact ⟨rfl, rfl, rfl⟩
  · intro q _
    rw [(hshares q).1]
    omega
  · intro q _
    rw [(hshares q).2]
    omega
  · intro q _
    rw [(hshares q).1]
    omega

/-- A queued wait is taken off its queue. -/
theorem Inv.remove (h : Inv cfg base none debt ahead s) (hw : (s.waits w).queue = some p) :
    Inv cfg base (some w) debt ahead (s.remove p w) :=
  ⟨h.linked.remove hw, h.counted.remove h.linked hw, h.ordered.remove⟩

variable {rest : List WaitId} {m c : PrimId} {t : TaskId} {l : LoopId} {s' : State}

/-- The first wait of a queue is taken off it to be granted. -/
theorem Inv.pop (h : Inv cfg base none debt ahead s) (hq : (s.prims p).queue = w :: rest) :
    Inv cfg base (some w) debt ahead
      ((s.remove p w).modifyHistory p fun h => { h with grants := h.grants ++ [w] }) := by
  have hw : (s.waits w).queue = some p :=
    (h.linked.mem_queue p w).mp (by rw [hq]; exact List.mem_cons_self ..)
  have hremove := h.remove hw
  refine ⟨hremove.linked.modifyHistory, ?_, h.ordered.pop hq⟩
  apply hremove.counted.changeHistory
  · intro m _
    split <;> simp
  · intro q _
    split <;> simp

/-- A wait in hand is put on a queue. -/
theorem Inv.insert (h : Inv cfg base (some w) debt ahead s) (hm : (s.waits w).MayQueue p)
    (hmutex : cfg.kind p = .mutex → (s.prims p).locked = true)
    (hsem : cfg.kind p = .semaphore → (s.prims p).count ≤ 0 ∧ w < s.fresh ∧
      ∀ v ∈ (s.history p).arrivals, v < w) : Inv cfg base none debt ahead (s.insert p w) := by
  have hin := h.linked.inHand_of_eq
  have hlt : w < s.fresh := h.linked.lt_fresh (by simp [hin])
  have hok := h.linked.wait w
  have hne : ∀ m, (s.waits w).relock = some m → m ≠ (s.waits w).owner := by
    intro m hr he
    have hk := hok.kinds m hr
    rw [he, hk.1] at hk
    cases hk.2
  have hshares : ∀ q, outstandingShare q { s.waits w with
        queue := some p, place := if p = (s.waits w).owner then .atOwner else .atMutex } =
      outstandingShare q (s.waits w) ∧
      ownsShare q { s.waits w with
        queue := some p, place := if p = (s.waits w).owner then .atOwner else .atMutex } =
      ownsShare q (s.waits w) := by
    intro q
    unfold outstandingShare ownsShare Wait.Outstanding Wait.Owns
    unfold Wait.MayQueue at hm
    grind
  refine ⟨h.linked.insert hm, ?_, h.ordered.insert hmutex hsem⟩
  refine h.counted.changeWait hlt (s.insert_waits_eq p w) (s.insert_fresh p w) ?_ ?_ ?_ ?_ ?_
  · intro q
    rw [State.insert_prims]
    split <;> exact ⟨rfl, rfl, rfl⟩
  · intro q
    rw [State.insert_history]
    split <;> exact ⟨rfl, rfl, rfl⟩
  · intro q _
    rw [(hshares q).1]
    omega
  · intro q _
    rw [(hshares q).2]
    omega
  · intro q _
    rw [(hshares q).1]
    omega

/-- A wait in hand is to be resumed, with the mutex it then holds. -/
theorem Inv.deferResume (h : Inv cfg base (some w) debt ahead s)
    (hg : (s.waits w).cancelRequested = false → (s.waits w).granted = true)
    (hmutex : ∀ m, cfg.kind m = .mutex →
      debt' m = debt m - ownsShare m { s.waits w with place := .deferred })
    (hsem : ∀ p, cfg.kind p = .semaphore → debt' p = debt p) :
    Inv cfg base none debt' ahead (s.deferResume w) := by
  have hin := h.linked.inHand_of_eq
  have hlt : w < s.fresh := h.linked.lt_fresh (by simp [hin])
  have hshares : ∀ q, outstandingShare q { s.waits w with place := .deferred } =
      outstandingShare q (s.waits w) ∧ ownsShare q (s.waits w) = 0 := by
    intro q
    unfold outstandingShare ownsShare Wait.Outstanding Wait.Owns
    grind
  refine ⟨h.linked.deferResume hg, ?_, h.ordered.frame ?_ ?_ ?_⟩
  · refine h.counted.changeWait hlt (s.deferResume_waits_eq w) (s.deferResume_fresh w)
      ?_ ?_ ?_ ?_ ?_
    · intro q
      rw [State.deferResume_prims]
      exact ⟨rfl, rfl, rfl⟩
    · intro q
      rw [State.deferResume_history]
      exact ⟨rfl, rfl, rfl⟩
    · intro q _
      rw [(hshares q).1]
      omega
    · intro m hm
      have hd := hmutex m hm
      dsimp only at hd
      rw [(hshares m).2, hd]
      omega
    · intro q hq
      rw [(hshares q).1, hsem q hq]
      omega
  · intro q
    rw [State.deferResume_prims]
    exact ⟨rfl, rfl, rfl⟩
  · intro q
    rw [State.deferResume_history]
    exact ⟨rfl, rfl⟩
  · rw [State.deferResume_fresh]

/-- The counters of a primitive's `woken` change with no wait. -/
theorem Inv.addWoken (h : Inv cfg base hand debt ahead s) (hk : cfg.kind p ≠ .event) (n : Int)
    (ahead' : PrimId → Int) (hover : ∀ q, ahead' q = ahead q + if q = p then n else 0) :
    Inv cfg base hand debt ahead' (s.modifyPrim p fun o => { o with woken := o.woken + n }) := by
  refine ⟨h.linked.modifyPrim (fun _ => rfl) (fun _ => rfl), ?_, ?_⟩
  · apply h.counted.changePrim
    · intro _ q
      rw [hover q]
      grind
    · exact fun hc => absurd hc hk
    · intro m _
      grind
    · intro q _
      grind
  · refine h.ordered.modifyPrim rfl (fun hm => h.ordered.locked p hm) (fun hp => ?_)
    exact ⟨h.ordered.count_nonneg p hp, h.ordered.count_pos p hp⟩

/-- A change of one wait outside the lists. -/
theorem Inv.modifyWait (h : Inv cfg base hand debt ahead s) {f : Wait → Wait} {hand' : Option WaitId}
    (hlinked : Linked cfg base hand' (s.modifyWait w f)) (hlt : w < s.fresh)
    (hover : ∀ p, cfg.kind p ≠ .event → ahead' p = ahead p +
      outstandingShare p (s.waits w) - outstandingShare p (f (s.waits w)))
    (hmutex : ∀ m, cfg.kind m = .mutex → debt' m = debt m +
      ownsShare m (s.waits w) - ownsShare m (f (s.waits w)))
    (hunits : ∀ p, cfg.kind p = .semaphore → debt' p = debt p +
      outstandingShare p (s.waits w) - outstandingShare p (f (s.waits w))) :
    Inv cfg base hand' debt' ahead' (s.modifyWait w f) := by
  refine ⟨hlinked, ?_, ?_⟩
  · exact h.counted.changeWait hlt rfl rfl (fun _ => ⟨rfl, rfl, rfl⟩) (fun _ => ⟨rfl, rfl, rfl⟩)
      hover hmutex hunits
  · exact h.ordered.frame (fun _ => ⟨rfl, rfl, rfl⟩) (fun _ => ⟨rfl, rfl⟩) (Nat.le_refl _)

/-- A free mutex is locked by the call. -/
theorem Inv.lock (h : Inv cfg base hand debt ahead s) (hfree : (s.prims m).locked = false)
    (hdebt : ∀ q, debt' q = debt q + if q = m ∧ cfg.kind q = .mutex then 1 else 0) :
    Inv cfg base hand debt' ahead (s.modifyPrim m fun x => { x with locked := true }) := by
  refine ⟨h.linked.modifyPrim (fun _ => rfl) (fun _ => rfl), ?_, ?_⟩
  · apply h.counted.changePrim
    · intro _ q
      grind
    · exact fun _ => ⟨rfl, fun _ => rfl⟩
    · intro q hq
      rw [hdebt q]
      grind
    · intro q hq
      rw [hdebt q]
      grind
  · refine h.ordered.modifyPrim rfl (fun _ hc => by cases hc) (fun hp => ?_)
    exact ⟨h.ordered.count_nonneg m hp, h.ordered.count_pos m hp⟩

/-! ## Grants -/

/-- The wait's owner grants it. -/
def State.notified (s : State) (w : WaitId) : State :=
  (if (s.prims (s.waits w).owner).kind ≠ .event then
    s.modifyPrim (s.waits w).owner fun o => { o with woken := o.woken + 1 }
  else s).modifyWait w fun x => { x with granted := true }

@[simp] theorem State.notified_waits (s : State) (w v : WaitId) :
    (s.notified w).waits v = if v = w then { s.waits v with granted := true } else s.waits v := by
  unfold State.notified
  split <;> simp only [State.modifyWait_waits, State.modifyPrim_waits]

@[simp] theorem State.notified_queue (s : State) (w : WaitId) (q : PrimId) :
    ((s.notified w).prims q).queue = (s.prims q).queue := by
  unfold State.notified
  split
  · simp only [State.modifyWait_prims, State.modifyPrim_prims]
    split <;> rfl
  · rfl

@[simp] theorem State.notified_count (s : State) (w : WaitId) (q : PrimId) :
    ((s.notified w).prims q).count = (s.prims q).count := by
  unfold State.notified
  split
  · simp only [State.modifyWait_prims, State.modifyPrim_prims]
    split <;> rfl
  · rfl

@[simp] theorem State.notified_locked (s : State) (w : WaitId) (q : PrimId) :
    ((s.notified w).prims q).locked = (s.prims q).locked := by
  unfold State.notified
  split
  · simp only [State.modifyWait_prims, State.modifyPrim_prims]
    split <;> rfl
  · rfl

/-- What a grant can do. -/
theorem State.grant_cases (s : State) (source : PrimId) (w : WaitId) :
    source ≠ (s.waits w).owner ∧ s.grant source w = s.deferResume w ∨
    source = (s.waits w).owner ∧ (s.waits w).relock = none ∧
      s.grant source w = (s.notified w).deferResume w ∨
    ∃ m, source = (s.waits w).owner ∧ (s.waits w).relock = some m ∧
      ((s.prims m).locked = true ∧ s.grant source w = (s.notified w).insert m w ∨
        (s.prims m).locked = false ∧ s.grant source w =
          ((s.notified w).modifyPrim m fun x => { x with locked := true }).deferResume w) := by
  by_cases hs : source = (s.waits w).owner
  · cases hr : (s.waits w).relock with
    | none =>
      refine Or.inr (Or.inl ⟨hs, rfl, ?_⟩)
      unfold State.grant
      simp only [hs, hr, ite_true]
      rfl
    | some m =>
      refine Or.inr (Or.inr ⟨m, hs, rfl, ?_⟩)
      have hl := s.notified_locked w m
      cases hlocked : (s.prims m).locked with
      | true =>
        have htry : (s.notified w).tryLock m = (false, s.notified w) := by
          rw [State.tryLock, hl, hlocked]
          rfl
        refine Or.inl ⟨rfl, ?_⟩
        unfold State.notified at htry ⊢
        unfold State.grant
        simp only [hs, hr, ite_true, htry]
      | false =>
        have htry : (s.notified w).tryLock m =
            (true, (s.notified w).modifyPrim m fun x => { x with locked := true }) := by
          rw [State.tryLock, hl, hlocked]
          rfl
        refine Or.inr ⟨rfl, ?_⟩
        unfold State.notified at htry ⊢
        unfold State.grant
        simp only [hs, hr, ite_true, htry]
  · refine Or.inl ⟨hs, ?_⟩
    unfold State.grant
    simp only [hs, ite_false]

theorem State.grant_count (s : State) (p q : PrimId) (w : WaitId) :
    ((s.grant p w).prims q).count = (s.prims q).count := by
  rcases s.grant_cases p w with ⟨_, h⟩ | ⟨_, _, h⟩ | ⟨m, _, _, ⟨_, h⟩ | ⟨_, h⟩⟩ <;>
    simp only [h, State.deferResume_prims, State.insert_prims, State.modifyPrim_prims] <;>
    grind [State.notified_count]

theorem State.grant_queue (s : State) (p q : PrimId) (w : WaitId) (hq : (s.waits w).relock ≠ some q) :
    ((s.grant p w).prims q).queue = (s.prims q).queue := by
  rcases s.grant_cases p w with ⟨_, h⟩ | ⟨_, _, h⟩ | ⟨m, _, hm, ⟨_, h⟩ | ⟨_, h⟩⟩ <;>
    simp only [h, State.deferResume_prims, State.insert_prims, State.modifyPrim_prims] <;>
    grind [State.notified_queue]

/-- What a grant by its owner leaves of a wait. -/
theorem State.grant_wait (s : State) (w : WaitId) (hne : (s.waits w).relock ≠ some (s.waits w).owner) :
    ((s.grant (s.waits w).owner w).waits w).owner = (s.waits w).owner ∧
    ((s.grant (s.waits w).owner w).waits w).granted = true ∧
    ((s.grant (s.waits w).owner w).waits w).cancelRequested = (s.waits w).cancelRequested ∧
    ((s.grant (s.waits w).owner w).waits w).loop = (s.waits w).loop ∧
      (((s.grant (s.waits w).owner w).waits w).place = .deferred ∨
        ((s.grant (s.waits w).owner w).waits w).place = .atMutex) := by
  rcases s.grant_cases (s.waits w).owner w with ⟨h, _⟩ | ⟨_, _, h⟩ | ⟨m, _, hm, ⟨_, h⟩ | ⟨_, h⟩⟩
  · exact absurd rfl h
  all_goals
    simp only [h, State.insert_waits, State.deferResume_waits, State.modifyPrim_waits,
      State.notified_waits, ite_true]
    grind

/-- What a call has of a primitive when it is about to pass it on. -/
def token (cfg : Config) (p q : PrimId) : Int :=
  if q = p ∧ (cfg.kind p = .mutex ∨ cfg.kind p = .semaphore) then 1 else 0

/-- A wait in hand is granted what its owner has for it. -/
theorem Inv.setGranted (h : Inv cfg base (some w) debt ahead s)
    (hw : (s.waits w).cancelRequested = false ∧ (s.waits w).granted = false)
    (hover : ∀ q, cfg.kind q ≠ .event → ahead' q = ahead q - if q = (s.waits w).owner then 1 else 0)
    (hdebt : ∀ q, debt' q = debt q -
      if q = (s.waits w).owner ∧ cfg.kind q = .semaphore then 1 else 0) :
    Inv cfg base (some w) debt' ahead' (s.modifyWait w fun x => { x with granted := true }) := by
  have hin := h.linked.inHand_of_eq
  have hlt : w < s.fresh := h.linked.lt_fresh (by simp [hin])
  refine h.modifyWait h.linked.setGranted hlt ?_ ?_ ?_
  · intro q hq
    rw [hover q hq]
    unfold outstandingShare Wait.Outstanding
    grind
  · intro m hm
    rw [hdebt m]
    unfold ownsShare Wait.Owns
    grind
  · intro q hq
    rw [hdebt q]
    unfold outstandingShare Wait.Outstanding
    grind

/-- How a wait comes to be granted by a queue it was taken off. -/
def Wait.MayGrant (source : PrimId) (x : Wait) : Prop :=
  source = x.owner ∧ x.cancelRequested = false ∧ x.granted = false ∨
    source ≠ x.owner ∧ x.relock = some source ∧ (x.cancelRequested = false → x.granted = true)

/-- The wait's owner grants it: it is counted as woken. -/
private theorem Inv.notified (h : Inv cfg base (some w) debt (fun _ => 0) s)
    (hw : (s.waits w).cancelRequested = false ∧ (s.waits w).granted = false)
    (hdebt : ∀ q, debt' q = debt q -
      if q = (s.waits w).owner ∧ cfg.kind q = .semaphore then 1 else 0) :
    Inv cfg base (some w) debt' (fun _ => 0) (s.notified w) := by
  unfold State.notified
  split
  · next hk =>
    rw [h.linked.kind] at hk
    refine Inv.setGranted (h.addWoken hk 1 _ fun q => rfl) hw ?_ hdebt
    intro q _
    simp only [State.modifyPrim_waits, Int.zero_add]
    grind
  · next hk =>
    rw [h.linked.kind, ne_eq, not_not] at hk
    refine Inv.setGranted h hw ?_ hdebt
    intro q hq
    have hne : q ≠ (s.waits w).owner := fun he => hq (he ▸ hk)
    simp only [hne, ite_false, Int.sub_zero]

/-- A grant ends with the wait queued at its mutex or to be resumed. -/
theorem Inv.grant {source : PrimId} (h : Inv cfg base (some w) debt (fun _ => 0) s)
    (hw : (s.waits w).MayGrant source) :
    Inv cfg base none (fun q => debt q - token cfg source q) (fun _ => 0) (s.grant source w) := by
  have hok := h.linked.wait w
  have hin := h.linked.inHand_of_eq
  have hnew : source = (s.waits w).owner →
      (s.waits w).cancelRequested = false ∧ (s.waits w).granted = false := by
    intro hs
    rcases hw with hw | hw
    · exact hw.2
    · exact absurd hs hw.1
  have hwait : (s.notified w).waits w = { s.waits w with granted := true } := by
    rw [State.notified_waits, ite_cond_eq_true _ _ (eq_self w)]
  rcases s.grant_cases source w with ⟨hs, he⟩ | ⟨hs, hr, he⟩ |
    ⟨m, hs, hr, ⟨hlocked, he⟩ | ⟨hfree, he⟩⟩ <;> rw [he]
  · obtain ⟨_, hr, hg⟩ : source ≠ (s.waits w).owner ∧ (s.waits w).relock = some source ∧
        ((s.waits w).cancelRequested = false → (s.waits w).granted = true) := by
      rcases hw with hw | hw
      · exact absurd hw.1 hs
      · exact hw
    obtain ⟨hcv, hmutex⟩ := hok.kinds source hr
    refine h.deferResume hg ?_ ?_
    · intro m hm
      unfold token ownsShare Wait.Owns
      grind
    · intro q hq
      unfold token
      grind
  · have hn := h.notified (hnew hs) (fun _ => rfl)
    have hcv : cfg.kind (s.waits w).owner ≠ .conditionVariable := by
      intro hc
      exact hok.relocks (by simp [hin]) hc hr
    refine hn.deferResume (by rw [hwait]; exact fun _ => rfl) ?_ ?_
    · intro m hm
      rw [hwait]
      unfold token ownsShare Wait.Owns
      grind
    · intro q hq
      unfold token
      grind
  · have hn := h.notified (hnew hs) (fun _ => rfl)
    obtain ⟨hcv, hmutex⟩ := hok.kinds m hr
    have hins := hn.insert (p := m) (Or.inr ⟨by rw [hwait]; exact hr, by rw [hwait]; exact fun _ => rfl⟩)
      (fun _ => by rw [State.notified_locked]; exact hlocked)
      (fun hc => by rw [hmutex] at hc; cases hc)
    refine hins.congr ?_ (fun _ => rfl)
    intro q
    unfold token
    grind
  · have hn := h.notified (hnew hs) (fun _ => rfl)
    obtain ⟨hcv, hmutex⟩ := hok.kinds m hr
    have hlock := hn.lock (m := m) (by rw [State.notified_locked]; exact hfree) (fun _ => rfl)
    refine hlock.deferResume (by simp) ?_ ?_
    · intro q hq
      simp only [State.modifyPrim_waits, hwait]
      unfold token ownsShare Wait.Owns
      grind
    · intro q hq
      unfold token
      grind

/-- Waking the first waiter passes on what the call has of the primitive. -/
theorem Inv.wakeOne (h : Inv cfg base none debt (fun _ => 0) s) {rest : List WaitId}
    (hq : (s.prims p).queue = w :: rest) :
    (s.wakeOne p).1 = true ∧
      Inv cfg base none (fun q => debt q - token cfg p q) (fun _ => 0) (s.wakeOne p).2 := by
  have hw : (s.waits w).queue = some p :=
    (h.linked.mem_queue p w).mp (by rw [hq]; exact List.mem_cons_self ..)
  have hok := h.linked.wait w
  have hmay : (s.waits w).MayGrant p := by
    unfold Wait.MayGrant
    rcases (hok.queued p hw).1 with hx | hx
    · exact Or.inl ⟨hx.1, (hok.atOwner hx.2).2⟩
    · refine Or.inr ⟨?_, hx.1, hok.granted (Or.inl hx.2)⟩
      intro he
      have hk := hok.kinds p hx.1
      rw [he, hk.1] at hk
      cases hk.2
  unfold State.wakeOne
  rw [hq]
  dsimp only
  refine ⟨rfl, (h.pop hq).grant ?_⟩
  rw [State.modifyHistory_waits, State.remove_waits, ite_cond_eq_true _ _ (eq_self w)]
  exact hmay

theorem State.wakeOne_nil (hq : (s.prims p).queue = []) : s.wakeOne p = (false, s) := by
  unfold State.wakeOne
  rw [hq]

theorem State.wakeOne_cons (hq : (s.prims p).queue = w :: rest) : (s.wakeOne p).1 = true := by
  unfold State.wakeOne
  rw [hq]

/-- `fun _ => 0`: the call holds nothing. -/
abbrev Clean (cfg : Config) (base s : State) : Prop := Inv cfg base none (fun _ => 0) (fun _ => 0) s

theorem State.waitingOwners_nonneg (s : State) (m : PrimId) : 0 ≤ s.waitingOwners m :=
  tally_nonneg s.waits s.fresh (ownsShare_nonneg m)

theorem State.outstanding_nonneg (s : State) (p : PrimId) : 0 ≤ s.outstanding p :=
  tally_nonneg s.waits s.fresh (outstandingShare_nonneg p)

/-- Unlocking passes the mutex on, or frees it. -/
theorem Inv.unlock (h : Inv cfg base none debt (fun _ => 0) s) (hm : cfg.kind m = .mutex)
    (hd : debt m = 1) :
    Inv cfg base none (fun q => debt q - token cfg m q) (fun _ => 0) (s.unlock m) := by
  unfold State.unlock
  cases hq : (s.prims m).queue with
  | nil =>
    rw [State.wakeOne_nil hq]
    dsimp only
    have hlocked : (s.prims m).locked = true := by
      have hb := h.counted.mutex m hm
      have hn := s.waitingOwners_nonneg m
      rw [hd] at hb
      by_contra hc
      rw [Bool.not_eq_true] at hc
      simp only [hc, Bool.false_eq_true, ite_false] at hb
      omega
    refine ⟨h.linked.modifyPrim (fun _ => rfl) (fun _ => rfl), ?_, ?_⟩
    · apply h.counted.changePrim
      · intro _ q
        grind
      · exact fun _ => ⟨rfl, fun _ => rfl⟩
      · intro q hk
        unfold token
        grind
      · intro q hk
        unfold token
        grind
    · refine h.ordered.modifyPrim rfl (fun _ _ => hq) (fun hp => ?_)
      rw [hm] at hp
      cases hp
  | cons w rest =>
    obtain ⟨htrue, hinv⟩ := h.wakeOne hq
    split
    · next heq => rwa [heq] at hinv
    · next heq => simp only [heq, Bool.false_eq_true] at htrue

/-- Each released unit goes to the first waiter, or to the count. -/
theorem Inv.release {p : PrimId} (hp : cfg.kind p = .semaphore) (n : Nat)
    (h : Inv cfg base none debt (fun _ => 0) s)
    (hdebt : ∀ q, debt q = debt' q + if q = p then (n : Int) else 0) :
    Inv cfg base none debt' (fun _ => 0) (State.release p n s) := by
  induction n generalizing s debt with
  | zero =>
    refine h.congr ?_ (fun _ => rfl)
    intro q
    rw [hdebt q]
    split <;> simp
  | succ n ih =>
    unfold State.release
    cases hq : (s.prims p).queue with
    | nil =>
      rw [State.wakeOne_nil hq]
      dsimp only
      have hcount : Inv cfg base none (fun q => debt q - if q = p then 1 else 0) (fun _ => 0)
          (s.modifyPrim p fun x => { x with count := x.count + 1 }) := by
        refine ⟨h.linked.modifyPrim (fun _ => rfl) (fun _ => rfl), ?_, ?_⟩
        · apply h.counted.changePrim
          · intro _ q
            grind
          · exact fun _ => ⟨rfl, fun _ => rfl⟩
          · intro m hm
            grind
          · intro q _
            grind
        · refine h.ordered.modifyPrim rfl (fun hm _ => hq) (fun _ => ⟨?_, fun _ => hq⟩)
          have hnn := h.ordered.count_nonneg p hp
          dsimp only
          omega
      apply ih hcount
      intro q
      rw [hdebt q]
      push_cast
      split <;> omega
    | cons w rest =>
      obtain ⟨htrue, hinv⟩ := h.wakeOne hq
      split
      · next heq =>
        rw [heq] at hinv
        apply ih hinv
        intro q
        rw [hdebt q]
        unfold token
        push_cast
        grind
      · next heq => simp only [heq, Bool.false_eq_true] at htrue

theorem token_eq_zero (hm : cfg.kind c ≠ .mutex) (hs : cfg.kind c ≠ .semaphore) (q : PrimId) :
    token cfg c q = 0 := by
  unfold token
  grind

/-- A notification goes to the first waiter. -/
theorem Inv.notifyOne (h : Inv cfg base none debt (fun _ => 0) s) (hm : cfg.kind c ≠ .mutex)
    (hs : cfg.kind c ≠ .semaphore) : Inv cfg base none debt (fun _ => 0) (s.notifyOne c) := by
  unfold State.notifyOne
  cases hq : (s.prims c).queue with
  | nil => rwa [State.wakeOne_nil hq]
  | cons w rest =>
    refine (h.wakeOne hq).2.congr ?_ (fun _ => rfl)
    intro q
    rw [token_eq_zero hm hs, Int.sub_zero]

theorem Inv.wakeTimes (hm : cfg.kind c ≠ .mutex) (hs : cfg.kind c ≠ .semaphore) (n : Nat)
    (h : Inv cfg base none debt (fun _ => 0) s) :
    Inv cfg base none debt (fun _ => 0) (State.wakeTimes c n s) := by
  induction n generalizing s with
  | zero => exact h
  | succ n ih =>
    have hone := h.notifyOne hm hs
    unfold State.wakeTimes
    unfold State.notifyOne at hone
    split
    · next heq =>
      rw [heq] at hone
      exact ih hone
    · next heq =>
      rw [heq] at hone
      exact hone

/-! ## The life of a wait -/

/-- A wait in hand ends, and a condition variable's task has its mutex. -/
theorem Inv.finish (h : Inv cfg base hand debt ahead s) {place : Place}
    (hw : hand = some w ∨ hand = none ∧ (s.waits w).place = .abandoned)
    (hplace : place = .resumed ∧ hand = some w ∧ (s.waits w).granted = true ∧
        (s.waits w).cancelRequested = false ∨
      place = .cancelled ∧ (s.waits w).cancelRequested = true)
    (hover : ∀ p, cfg.kind p ≠ .event → ahead' p = ahead p + outstandingShare p (s.waits w))
    (hmutex : ∀ m, cfg.kind m = .mutex →
      debt' m = debt m - if (s.waits w).relock = some m then 1 else 0)
    (hunits : ∀ p, cfg.kind p = .semaphore →
      debt' p = debt p + outstandingShare p (s.waits w)) :
    Inv cfg base none debt' ahead' (s.finish w place) := by
  have hlt : w < s.fresh := by
    apply h.linked.lt_fresh
    rcases hw with rfl | hw
    · simp [h.linked.inHand_of_eq]
    · simp [hw.2]
  have hout : ∀ q, outstandingShare q { s.waits w with place := place } = 0 := by
    intro q
    unfold outstandingShare Wait.Outstanding
    grind
  have howns : ∀ q, ownsShare q { s.waits w with place := place } = 0 ∧
      ownsShare q (s.waits w) = 0 := by
    intro q
    have hin := h.linked.inHand w
    unfold ownsShare Wait.Owns
    grind
  have hend : Inv cfg base none (fun q => if cfg.kind q = .mutex then debt q else debt' q) ahead'
      (s.modifyWait w fun x => { x with place := place }) := by
    refine h.modifyWait (h.linked.setEnded hw hplace) hlt ?_ ?_ ?_
    · intro q hq
      rw [hover q hq, hout q]
      omega
    · intro m hm
      rw [(howns m).1, (howns m).2]
      simp only [hm, ite_true]
      omega
    · intro q hq
      have hne : cfg.kind q ≠ .mutex := by
        rw [hq]
        decide
      rw [hout q]
      simp only [hne, ite_false, hunits q hq]
      omega
  unfold State.finish
  dsimp only
  split
  · next m hr =>
    refine ⟨hend.linked.modifyHistory, ?_, hend.ordered.frame (fun _ => ⟨rfl, rfl, rfl⟩) ?_
      (Nat.le_refl _)⟩
    · obtain ⟨_, hkm⟩ := (h.linked.wait w).kinds m hr
      apply hend.counted.changeHistory
      · intro q hq
        rw [hmutex q hq, hr]
        simp only [hq, ite_true, Option.some.injEq, List.length_cons]
        grind
      · intro q hq
        have hne : cfg.kind q ≠ .mutex := by
          rw [hq]
          decide
        have hqm : q ≠ m := fun he => hne (he ▸ hkm)
        simp only [hne, hqm, ite_false, Int.add_zero]
    · intro q
      rw [State.addHolder, State.modifyHistory_history]
      split <;> exact ⟨rfl, rfl⟩
  · next hr =>
    refine ⟨hend.linked, ⟨hend.counted.woken, ?_, ?_⟩, hend.ordered⟩
    · intro m hm
      have hb := hend.counted.mutex m hm
      have hd := hmutex m hm
      simp only [hr, reduceCtorEq, hm, ite_false, ite_true, Int.sub_zero] at hb hd
      rw [hb, hd]
    · intro q hq
      have hb := hend.counted.units q hq
      have hne : cfg.kind q ≠ .mutex := by
        rw [hq]
        decide
      simpa only [hne, ite_false] using hb

theorem State.grant_alive (s : State) (source : PrimId) (w : WaitId) :
    (s.grant source w).alive = s.alive := by
  unfold State.grant State.tryLock
  grind [State.insert_alive, State.deferResume_alive, State.modifyPrim_alive,
    State.modifyWait_alive]

theorem State.wakeOne_alive (s : State) (p : PrimId) : (s.wakeOne p).2.alive = s.alive := by
  unfold State.wakeOne
  split
  · rfl
  · rw [State.grant_alive, State.modifyHistory_alive, State.remove_alive]

theorem State.unlock_alive (s : State) (m : PrimId) : (s.unlock m).alive = s.alive := by
  have hw := s.wakeOne_alive m
  unfold State.unlock
  split
  · next heq => rwa [heq] at hw
  · next heq =>
    rw [heq] at hw
    rwa [State.modifyPrim_alive]

/-- A new wait counts for nothing. -/
private theorem tally_begin {f : Wait → Int} (s : State) {x : Wait} (hx : f x = 0) :
    tally f (Function.update s.waits s.fresh x) (s.fresh + 1) = tally f s.waits s.fresh := by
  rw [tally_succ, tally_update_of_le f s.waits (Nat.le_refl _), Function.update_self, hx,
    Int.add_zero]

/-- A wait begins and is queued at a primitive that has nothing for it. -/
theorem Inv.enqueue {owner : PrimId} {relock : Option PrimId} (h : Clean cfg base s)
    (halive : s.alive l = true)
    (hkinds : ∀ m, relock = some m → cfg.kind owner = .conditionVariable ∧ cfg.kind m = .mutex)
    (hrelock : cfg.kind owner = .conditionVariable → relock ≠ none)
    (hmutex : cfg.kind owner = .mutex → (s.prims owner).locked = true)
    (hsem : cfg.kind owner = .semaphore → (s.prims owner).count ≤ 0) :
    Clean cfg base ((s.begin t owner relock l).insert owner s.fresh) := by
  have hout : ∀ q, (s.begin t owner relock l).outstanding q = s.outstanding q := by
    intro q
    apply tally_begin
    simp [outstandingShare, Wait.Outstanding]
  have howns : ∀ q, (s.begin t owner relock l).waitingOwners q = s.waitingOwners q := by
    intro q
    apply tally_begin
    simp [ownsShare, Wait.Owns]
  have hbegin : Inv cfg base (some s.fresh) (fun _ => 0) (fun _ => 0) (s.begin t owner relock l) := by
    refine ⟨h.linked.begin halive hkinds hrelock, ⟨?_, ?_, ?_⟩, ?_⟩
    · intro q
      rw [hout]
      exact h.counted.woken q
    · intro m hm
      rw [howns]
      exact h.counted.mutex m hm
    · intro q hq
      rw [hout]
      exact h.counted.units q hq
    · exact h.ordered.frame (fun _ => ⟨rfl, rfl, rfl⟩) (fun _ => ⟨rfl, rfl⟩) (Nat.le_succ _)
  refine hbegin.insert ?_ hmutex ?_
  · exact Or.inl (by simp [State.begin])
  · intro hk
    exact ⟨hsem hk, Nat.lt_succ_self _, (h.ordered.arrivals owner hk).2⟩

/-- A call that holds a mutex lets it go and holds nothing. -/
theorem Inv.unlock_clean (h : Inv cfg base none debt (fun _ => 0) s) (hm : cfg.kind m = .mutex)
    (hd : ∀ q, debt q = if q = m then 1 else 0) : Clean cfg base (s.unlock m) := by
  refine (h.unlock hm (by rw [hd, ite_cond_eq_true _ _ (eq_self m)])).congr ?_ (fun _ => rfl)
  intro q
  rw [hd q]
  unfold token
  grind

/-- A condition variable's wait lets the mutex go and queues. -/
theorem Inv.waitOn (h : Inv cfg base none debt (fun _ => 0) s) (halive : s.alive l = true)
    (hd : ∀ q, debt q = if q = m then 1 else 0) (hc : cfg.kind c = .conditionVariable)
    (hm : cfg.kind m = .mutex) : Clean cfg base (s.wait t c (some m) l) := by
  unfold State.wait
  refine (h.unlock_clean hm hd).enqueue ?_ ?_ ?_ ?_ ?_
  · rw [State.unlock_alive]
    exact halive
  · intro m' hr
    cases hr
    exact ⟨hc, hm⟩
  · exact fun _ hr => by cases hr
  · intro hk
    rw [hc] at hk
    cases hk
  · intro hk
    rw [hc] at hk
    cases hk

/-! ## Cancels -/

/-- A wait taken off its queue by a cancel, or one its loop left, ends or goes
on to wait for its mutex. -/
theorem Inv.cancelTaken (h : Inv cfg base hand (fun _ => 0) (fun _ => 0) s)
    (hw : hand = some w ∨ hand = none ∧ (s.waits w).place = .abandoned)
    (hc : (s.waits w).cancelRequested = true) : Clean cfg base (s.cancelTaken w) := by
  have hshare : ∀ q, outstandingShare q (s.waits w) = 0 := by
    intro q
    unfold outstandingShare Wait.Outstanding
    grind
  unfold State.cancelTaken
  cases hr : (s.waits w).relock with
  | none =>
    refine h.finish hw (Or.inr ⟨rfl, hc⟩) ?_ ?_ ?_
    · intro q _
      rw [hshare, Int.add_zero]
    · intro m _
      rw [hr]
      simp
    · intro q _
      rw [hshare, Int.add_zero]
  | some m =>
    obtain ⟨_, hm⟩ := (h.linked.wait w).kinds m hr
    dsimp only [State.tryLock]
    split
    · next b s' heq =>
      split at heq
      · cases heq
      · next hfree =>
        obtain rfl := (Prod.mk.inj heq).2
        have hlock := h.lock (Bool.eq_false_iff.mpr hfree) (fun _ => rfl)
        refine hlock.finish hw (Or.inr ⟨rfl, hc⟩) ?_ ?_ ?_
        · intro q _
          simp only [State.modifyPrim_waits, hshare, Int.add_zero]
        · intro q hq
          simp only [State.modifyPrim_waits, hr, Option.some.injEq]
          grind
        · intro q hq
          simp only [State.modifyPrim_waits, hshare, Int.add_zero]
          grind
    · next b s' heq =>
      split at heq
      · next hlocked =>
        obtain rfl := (Prod.mk.inj heq).2
        split
        · next hl =>
          rcases hw with rfl | ⟨rfl, hp⟩
          · exact h.insert (Or.inr ⟨hr, fun hf => by rw [hc] at hf; cases hf⟩) (fun _ => hlocked)
              (fun hk => by rw [hm] at hk; cases hk)
          · rw [(h.linked.wait w).abandoned hp] at hl
            cases hl
        · next hl =>
          rcases hw with rfl | ⟨rfl, _⟩
          · obtain ⟨l, hl', _⟩ := (h.linked.wait w).inHand h.linked.inHand_of_eq
            simp [hl'] at hl
          · exact h
      · cases heq

/-- A cancel that finds a wait queued at its owner may take it off before it marks it. -/
private theorem remove_modifyWait (s : State) (p : PrimId) (w : WaitId) :
    (s.modifyWait w fun x => { x with cancelRequested := true }).remove p w =
      (s.remove p w).modifyWait w fun x => { x with cancelRequested := true } := by
  apply State.ext
  · funext q
    simp only [State.remove_prims, State.modifyWait_prims]
  · funext v
    simp only [State.remove_waits, State.modifyWait_waits]
    grind
  · funext l
    simp only [State.remove_loops, State.modifyWait_waits, State.modifyWait_loops, ite_true]
  · simp only [State.remove_fresh, State.modifyWait_fresh]
  · simp only [State.remove_history, State.modifyWait_history]

/-- A cancel reaches a wait that was granted and not resumed: the call has what
the wait was granted. -/
private theorem Inv.markGranted (h : Clean cfg base s)
    (hp : (s.waits w).place = .atMutex ∨ (s.waits w).place = .deferred)
    (hc : (s.waits w).cancelRequested = false)
    (hover : ∀ q, cfg.kind q ≠ .event → ahead q = if q = (s.waits w).owner then 1 else 0) :
    Inv cfg base none (token cfg (s.waits w).owner) ahead
      (s.modifyWait w fun x => { x with cancelRequested := true }) := by
  have hok := h.linked.wait w
  have hg := hok.granted hp hc
  have hlt : w < s.fresh := h.linked.lt_fresh (by rcases hp with hp | hp <;> simp [hp])
  refine h.modifyWait (h.linked.setCancelRequested (by rcases hp with hp | hp <;> simp [hp]))
    hlt
    ?_ ?_ ?_
  · intro q hq
    rw [hover q hq]
    unfold outstandingShare Wait.Outstanding
    grind
  · intro m hm
    have hkinds := hok.kinds
    have hat := hok.atMutex
    have hrel := hok.relocks
    unfold ownsShare Wait.Owns token
    rcases Option.eq_none_or_eq_some (s.waits w).relock with hr | ⟨m', hr⟩
    · grind
    · have hk := hkinds m' hr
      grind
  · intro q hq
    unfold outstandingShare Wait.Outstanding token
    grind

private theorem Inv.setHandedOn (h : Inv cfg base hand debt ahead s)
    (hc : (s.waits w).cancelRequested = true) (hlt : w < s.fresh) :
    Inv cfg base hand debt ahead (s.modifyWait w fun x => { x with handedOn := true }) := by
  refine h.modifyWait (h.linked.setHandedOn hc) hlt ?_ ?_ ?_
  all_goals
    intro q _
    exact (Int.add_sub_cancel _ _).symm

/-- A cancelled wait hands on what it was granted. -/
theorem Inv.giveBack (h : Clean cfg base s)
    (hp : (s.waits w).place = .atMutex ∨ (s.waits w).place = .deferred)
    (hc : (s.waits w).cancelRequested = false) :
    Clean cfg base ((s.modifyWait w fun x => { x with cancelRequested := true }).giveBack w) := by
  have hlt : w < s.fresh := h.linked.lt_fresh (by rcases hp with hp | hp <;> simp [hp])
  have hmarked : ∀ ahead : PrimId → Int,
      (∀ q, cfg.kind q ≠ .event → ahead q = if q = (s.waits w).owner then 1 else 0) →
      Inv cfg base none (token cfg (s.waits w).owner) ahead
        ((s.modifyWait w fun x => { x with cancelRequested := true }).modifyWait w
          fun x => { x with handedOn := true }) := by
    intro ahead hover
    refine (h.markGranted hp hc hover).setHandedOn ?_ hlt
    rw [State.modifyWait_waits, ite_cond_eq_true _ _ (eq_self w)]
  have howner : ((s.modifyWait w fun x => { x with cancelRequested := true }).waits w).owner =
      (s.waits w).owner := by
    rw [State.modifyWait_waits, ite_cond_eq_true _ _ (eq_self w)]
  unfold State.giveBack
  dsimp only
  rw [howner, State.modifyWait_prims, State.modifyWait_prims, h.linked.kind]
  by_cases hev : cfg.kind (s.waits w).owner = .event
  · rw [hev]
    have hmark := hmarked (fun _ => 0) (by
      intro q hq
      have hne : q ≠ (s.waits w).owner := fun he => hq (he ▸ hev)
      simp only [hne, ite_false])
    refine hmark.congr ?_ (fun _ => rfl)
    intro q
    rw [token_eq_zero (by rw [hev]; decide) (by rw [hev]; decide)]
  · have hmark := hmarked (fun q => if q = (s.waits w).owner then 1 else 0)
      (fun _ _ => rfl)
    have hless := hmark.addWoken hev (-1) (fun _ => 0) (by
      intro q
      split <;> omega)
    simp only [← Int.sub_eq_add_neg] at hless
    cases hk : cfg.kind (s.waits w).owner with
    | event => exact absurd hk hev
    | mutex =>
      refine hless.unlock_clean hk ?_
      intro q
      unfold token
      grind
    | semaphore =>
      refine Inv.release hk 1 hless ?_
      intro q
      unfold token
      grind
    | conditionVariable =>
      have hzero : ∀ q, token cfg (s.waits w).owner q = 0 :=
        token_eq_zero (by rw [hk]; decide) (by rw [hk]; decide)
      refine Inv.notifyOne ?_ (by rw [hk]; decide) (by rw [hk]; decide)
      exact hless.congr (fun q => (hzero q).symm) (fun _ => rfl)

/-- A cancel at any phase keeps the invariant. -/
theorem Inv.cancel (h : Clean cfg base s) (hp : (s.waits w).place = .atOwner ∨
    (s.waits w).place = .atMutex ∨ (s.waits w).place = .deferred ∨
    (s.waits w).place = .abandoned) : Clean cfg base (s.cancel w) := by
  unfold State.cancel
  split
  · exact h
  · next hc =>
    rw [Bool.not_eq_true] at hc
    have hok := h.linked.wait w
    have hwait : (s.modifyWait w fun x => { x with cancelRequested := true }).waits w =
        { s.waits w with cancelRequested := true } := by
      rw [State.modifyWait_waits, ite_cond_eq_true _ _ (eq_self w)]
    unfold State.cancelWait
    dsimp only
    rw [hwait]
    dsimp only
    split
    · next hq =>
      rw [remove_modifyWait]
      have hremove := h.remove hq
      have hin := hremove.linked.inHand_of_eq
      have hlt : w < (s.remove (s.waits w).owner w).fresh :=
        hremove.linked.lt_fresh (by rw [hin]; decide)
      have hmark : Inv cfg base (some w) (fun _ => 0) (fun _ => 0)
          ((s.remove (s.waits w).owner w).modifyWait w fun x =>
            { x with cancelRequested := true }) := by
        have hat : (s.waits w).granted = false := by
          rcases (hok.queued _ hq).1 with hx | hx
          · exact (hok.atOwner hx.2).2.2
          · have hk := hok.kinds _ hx.1
            rw [hk.1] at hk
            cases hk.2
        refine hremove.modifyWait
          (hremove.linked.setCancelRequested (by rw [hin]; decide)) hlt ?_ ?_ ?_
        all_goals
          intro q _
          simp only [State.remove_waits, ite_true]
          grind [outstandingShare, ownsShare, Wait.Outstanding, Wait.Owns]
      refine hmark.cancelTaken (Or.inl rfl) ?_
      rw [State.modifyWait_waits, ite_cond_eq_true _ _ (eq_self w)]
    · next hq =>
      have hnot : (s.waits w).place ≠ .atOwner := fun hx => hq (hok.atOwner hx).1
      split
      · next hl =>
        apply h.giveBack _ hc
        rcases hp with hx | hx | hx | hx
        · exact absurd hx hnot
        · exact Or.inl hx
        · exact Or.inr hx
        · rw [hok.abandoned hx] at hl
          cases hl
      · next hl =>
        have hx : (s.waits w).place = .abandoned := by
          rcases hp with hx | hx | hx | hx
          · exact absurd hx hnot
          · have hat := hok.atMutex hx
            obtain ⟨m, hm⟩ := Option.ne_none_iff_exists'.mp hat.2
            obtain ⟨_, l, hl', _⟩ := hok.queued m (hat.1.trans hm)
            simp [hl'] at hl
          · obtain ⟨l, hl'⟩ := hok.deferred hx
            simp [hl'] at hl
          · exact hx
        have hlt : w < s.fresh := h.linked.lt_fresh (by rw [hx]; decide)
        have hmark : Clean cfg base (s.modifyWait w fun x => { x with cancelRequested := true }) := by
          refine h.modifyWait (h.linked.setCancelRequested ⟨hnot, by rw [hx]; decide⟩) hlt ?_ ?_ ?_
          all_goals
            intro q _
            grind [outstandingShare, ownsShare, Wait.Outstanding, Wait.Owns]
        refine hmark.cancelTaken (Or.inr ⟨rfl, ?_⟩) ?_
        · rw [hwait]
          exact hx
        · rw [hwait]

/-! ## Loops -/

/-- A loop leaves a queued wait. -/
theorem Inv.abandon (h : Clean cfg base s) (hw : (s.waits w).queue = some p) :
    Clean cfg base (s.abandon w) := by
  have hok := h.linked.wait w
  have hplace := hok.queued p hw
  have hkinds := hok.kinds p
  have howner := hok.atOwner
  have hgranted := hok.granted
  have habandon : ∀ {t : State} {ahead : PrimId → Int}, Inv cfg base (some w) (fun _ => 0) ahead t →
      t.waits w = { s.waits w with queue := none, place := .inHand } →
      (∀ q, cfg.kind q ≠ .event → 0 = ahead q +
        outstandingShare q { s.waits w with queue := none, place := .inHand }) →
      Clean cfg base (t.modifyWait w fun x => { x with loop := none, place := .abandoned }) := by
    intro t ahead ht hwait hover
    have hin := ht.linked.inHand_of_eq
    have hlt : w < t.fresh := ht.linked.lt_fresh (by rw [hin]; decide)
    have hends : ∀ q, outstandingShare q { t.waits w with loop := none, place := .abandoned } = 0 ∧
        ownsShare q { t.waits w with loop := none, place := .abandoned } = 0 ∧
        ownsShare q (t.waits w) = 0 := by
      intro q
      grind [outstandingShare, ownsShare, Wait.Outstanding, Wait.Owns]
    have hunits : ∀ q, cfg.kind q = .semaphore → outstandingShare q (t.waits w) = 0 := by
      intro q hq
      rw [hwait]
      grind [outstandingShare, Wait.Outstanding]
    refine ht.modifyWait ht.linked.setAbandoned hlt ?_ ?_ ?_
    · intro q hq
      rw [(hends q).1, hwait]
      have := hover q hq
      omega
    · intro m _
      rw [(hends m).2.1, (hends m).2.2]
      omega
    · intro q hq
      rw [(hends q).1, hunits q hq]
      omega
  unfold State.abandon
  simp only [hw]
  split
  · next hq =>
    have hev : cfg.kind (s.waits w).owner ≠ .event := by
      rcases hplace.1 with hx | hx
      · exact absurd (congrArg some hx.1) hq.1
      · rw [(hkinds hx.1).1]
        decide
    have hless := h.addWoken hev (-1) _ (fun _ => rfl)
    simp only [← Int.sub_eq_add_neg] at hless
    refine habandon (hless.remove hw) ?_ ?_
    · rw [State.remove_waits, ite_cond_eq_true _ _ (eq_self w), State.modifyPrim_waits]
    · intro q _
      grind [outstandingShare, Wait.Outstanding]
  · next hq =>
    refine habandon (h.remove hw) ?_ ?_
    · rw [State.remove_waits, ite_cond_eq_true _ _ (eq_self w)]
    · intro q _
      grind [outstandingShare, Wait.Outstanding]

theorem State.abandon_loops (s : State) (hw : (s.waits w).queue = some p) (l : LoopId) :
    (s.abandon w).loops l = if (s.waits w).loop = some l then
      { s.loops l with queuedWaits := (s.loops l).queuedWaits.erase w } else s.loops l := by
  unfold State.abandon
  simp only [hw]
  split
  · rw [State.modifyWait_loops, State.remove_loops]
    rfl
  · rw [State.modifyWait_loops, State.remove_loops]

/-- A loop that goes leaves every wait it tracks. -/
theorem Inv.abandonTimes {l : LoopId} (n : Nat) (h : Clean cfg base s)
    (hn : (s.loops l).queuedWaits.length = n) :
    Clean cfg base (State.abandonTimes l n s) ∧
      ((State.abandonTimes l n s).loops l).queuedWaits = [] := by
  induction n generalizing s with
  | zero => exact ⟨h, List.length_eq_zero_iff.mp hn⟩
  | succ n ih =>
    unfold State.abandonTimes
    split
    · next hl => rw [hl] at hn; cases hn
    · next w rest hl =>
      obtain ⟨hq, hloop⟩ := (h.linked.mem_tracked l w).mp (by rw [hl]; exact List.mem_cons_self ..)
      obtain ⟨p, hq⟩ := Option.ne_none_iff_exists'.mp hq
      apply ih (h.abandon hq)
      rw [s.abandon_loops hq, hloop, ite_cond_eq_true _ _ (eq_self _), hl, List.erase_cons_head]
      rw [hl, List.length_cons] at hn
      exact Nat.succ.inj hn

theorem Inv.destroyLoop (h : Clean cfg base s) (l : LoopId) : Clean cfg base (s.destroyLoop l) := by
  obtain ⟨hclean, hempty⟩ := h.abandonTimes (l := l) _ rfl
  unfold State.destroyLoop
  refine ⟨hclean.linked.kill hempty, ⟨hclean.counted.woken, hclean.counted.mutex,
    hclean.counted.units⟩, ?_⟩
  exact hclean.ordered.frame (fun _ => ⟨rfl, rfl, rfl⟩) (fun _ => ⟨rfl, rfl⟩) (Nat.le_refl _)

/-- A task has taken what the call had for it. -/
theorem Inv.recordTaken (h : Inv cfg base hand debt ahead s) (p : PrimId) (t : TaskId)
    (hdebt : ∀ q, debt' q = debt q - token cfg p q) :
    Inv cfg base hand debt' ahead (s.recordTaken p t) := by
  unfold State.recordTaken
  rw [h.linked.kind]
  cases hk : cfg.kind p with
  | mutex =>
    refine ⟨h.linked.modifyHistory, ?_, h.ordered.frame (fun _ => ⟨rfl, rfl, rfl⟩) ?_
      (Nat.le_refl _)⟩
    · apply h.counted.changeHistory
      · intro m hm
        rw [hdebt m]
        unfold token
        simp only [List.length_cons]
        grind
      · intro q hq
        rw [hdebt q]
        unfold token
        grind
    · intro q
      simp only [State.addHolder, State.modifyHistory_history]
      split <;> exact ⟨rfl, rfl⟩
  | semaphore =>
    refine ⟨h.linked.modifyHistory, ?_, h.ordered.frame (fun _ => ⟨rfl, rfl, rfl⟩) ?_
      (Nat.le_refl _)⟩
    · apply h.counted.changeHistory
      · intro m hm
        rw [hdebt m]
        unfold token
        grind
      · intro q hq
        rw [hdebt q]
        unfold token
        grind
    · intro q
      simp only [State.modifyHistory_history]
      split <;> exact ⟨rfl, rfl⟩
  | event =>
    refine h.congr ?_ (fun _ => rfl)
    intro q
    rw [hdebt q, token_eq_zero (by rw [hk]; decide) (by rw [hk]; decide), Int.sub_zero]
  | conditionVariable =>
    refine h.congr ?_ (fun _ => rfl)
    intro q
    rw [hdebt q, token_eq_zero (by rw [hk]; decide) (by rw [hk]; decide), Int.sub_zero]

/-- The wait a loop resumes next is in its hand, with what the wait holds. -/
theorem Inv.popDeferred (h : Clean cfg base s) (hl : (s.loops l).deferred = w :: rest)
    (halive : s.alive l = true) :
    Inv cfg base (some w) (fun q => if cfg.kind q = .mutex then ownsShare q (s.waits w) else 0)
      (fun _ => 0) (s.popDeferred l w) := by
  have hplace := ((h.linked.mem_deferred l w).mp (by rw [hl]; exact List.mem_cons_self ..)).1
  have hlt : w < s.fresh := h.linked.lt_fresh (by rw [hplace]; decide)
  have hshares : ∀ q, outstandingShare q { s.waits w with place := .inHand } =
      outstandingShare q (s.waits w) ∧ ownsShare q { s.waits w with place := .inHand } = 0 := by
    intro q
    grind [outstandingShare, ownsShare, Wait.Outstanding, Wait.Owns]
  refine ⟨h.linked.popDeferred hl halive, ?_, ?_⟩
  · refine h.counted.changeWait (f := fun x => { x with place := .inHand }) hlt rfl rfl
      (fun _ => ⟨rfl, rfl, rfl⟩) (fun _ => ⟨rfl, rfl, rfl⟩) ?_ ?_ ?_
    · intro q _
      rw [(hshares q).1]
      omega
    · intro m hm
      rw [(hshares m).2]
      simp only [hm, ite_true]
      omega
    · intro q hq
      rw [(hshares q).1]
      simp only [hq, reduceCtorEq, ite_false]
      omega
  · exact h.ordered.frame (fun _ => ⟨rfl, rfl, rfl⟩) (fun _ => ⟨rfl, rfl⟩) (Nat.le_refl _)

/-- Resuming a wait ends it, its task having what it was granted. -/
theorem Inv.resume (h : Clean cfg base s) (hl : (s.loops l).deferred = w :: rest)
    (halive : s.alive l = true) : Clean cfg base ((s.popDeferred l w).resume w) := by
  have hok := h.linked.wait w
  have hplace := ((h.linked.mem_deferred l w).mp (by rw [hl]; exact List.mem_cons_self ..)).1
  have hgranted := hok.granted (Or.inr hplace)
  have hpop := h.popDeferred hl halive
  have hkinds := hok.kinds
  generalize ht : s.popDeferred l w = t at hpop
  have hwait : t.waits w = { s.waits w with place := .inHand } := by
    rw [← ht, State.popDeferred, State.modifyWait_waits, ite_cond_eq_true _ _ (eq_self w),
      State.modifyLoop_waits]
  have hkind : ∀ q, (t.prims q).kind = cfg.kind q := hpop.linked.kind
  unfold State.resume
  dsimp only
  rw [hwait]
  dsimp only
  split
  · next hc =>
    refine hpop.finish (Or.inl rfl) (Or.inr ⟨rfl, by rw [hwait]; exact hc⟩) ?_ ?_ ?_
    · intro q _
      rw [hwait]
      grind [outstandingShare, Wait.Outstanding]
    · intro m hm
      rw [hwait]
      grind [ownsShare, Wait.Owns]
    · intro q hq
      rw [hwait]
      grind [outstandingShare, Wait.Outstanding]
  · next hc =>
    rw [Bool.not_eq_true] at hc
    have hg := hgranted hc
    have hless : Inv cfg base (some w)
        (fun q => if cfg.kind q = .mutex then ownsShare q (s.waits w) else 0)
        (fun q => if q = (s.waits w).owner ∧ cfg.kind q ≠ .event then -1 else 0)
        (if (t.prims (s.waits w).owner).kind ≠ .event then
          t.modifyPrim (s.waits w).owner fun o => { o with woken := o.woken - 1 } else t) := by
      rw [hkind]
      split
      · next hev =>
        have hadd := hpop.addWoken hev (-1) (fun q => if q = (s.waits w).owner ∧
          cfg.kind q ≠ .event then -1 else 0) (by grind)
        simpa only [← Int.sub_eq_add_neg] using hadd
      · next hev =>
        refine hpop.congr (fun _ => rfl) ?_
        grind
    have htaken := hless.recordTaken (s.waits w).owner (s.waits w).task (fun _ => rfl)
    have hwait' : ∀ u : State, u = (if (t.prims (s.waits w).owner).kind ≠ .event then
        t.modifyPrim (s.waits w).owner fun o => { o with woken := o.woken - 1 } else t) →
        (u.recordTaken (s.waits w).owner (s.waits w).task).waits w =
          { s.waits w with place := .inHand } := by
      intro u hu
      have : (u.recordTaken (s.waits w).owner (s.waits w).task).waits = u.waits := by
        unfold State.recordTaken
        split <;> rfl
      rw [this, hu]
      split
      · exact hwait
      · exact hwait
    refine htaken.finish (Or.inl rfl) (Or.inl ⟨rfl, rfl, by rw [hwait' _ rfl]; exact ⟨hg, hc⟩⟩)
      ?_ ?_ ?_
    · intro q hq
      rw [hwait' _ rfl]
      grind [outstandingShare, Wait.Outstanding]
    · intro m hm
      rw [hwait' _ rfl]
      rcases Option.eq_none_or_eq_some (s.waits w).relock with hr | ⟨m', hr⟩
      · grind [ownsShare, Wait.Owns, token]
      · have hk := hkinds m' hr
        grind [ownsShare, Wait.Owns, token]
    · intro q hq
      rw [hwait' _ rfl]
      grind [outstandingShare, Wait.Outstanding, token]

/-! ## Steps -/

/-- What `await_ready` takes is in the call's hand. -/
theorem Inv.awaitReady (h : Clean cfg base s) {taken : Bool} (heq : s.awaitReady p = (taken, s')) :
    (taken = true → Inv cfg base none (token cfg p) (fun _ => 0) s') ∧
      (taken = false → s' = s ∧ (cfg.kind p = .mutex → (s.prims p).locked = true) ∧
        (cfg.kind p = .semaphore → (s.prims p).count ≤ 0)) := by
  unfold State.awaitReady at heq
  rw [h.linked.kind] at heq
  cases hk : cfg.kind p with
  | mutex =>
    rw [hk] at heq
    dsimp only [State.tryLock] at heq
    split at heq
    · next hlocked =>
      obtain ⟨rfl, rfl⟩ := Prod.mk.inj heq
      exact ⟨nofun, fun _ => ⟨rfl, fun _ => hlocked, nofun⟩⟩
    · next hfree =>
      obtain ⟨rfl, rfl⟩ := Prod.mk.inj heq
      refine ⟨fun _ => h.lock (Bool.eq_false_iff.mpr hfree) ?_, nofun⟩
      intro q
      unfold token
      grind
  | semaphore =>
    rw [hk] at heq
    dsimp only [State.tryAcquire] at heq
    split at heq
    · next hnone =>
      obtain ⟨rfl, rfl⟩ := Prod.mk.inj heq
      exact ⟨nofun, fun _ => ⟨rfl, nofun, fun _ => hnone⟩⟩
    · next hsome =>
      obtain ⟨rfl, rfl⟩ := Prod.mk.inj heq
      refine ⟨fun _ => ?_, nofun⟩
      refine ⟨h.linked.modifyPrim (fun _ => rfl) (fun _ => rfl), ?_, ?_⟩
      · apply h.counted.changePrim
        · intro _ q
          grind
        · exact fun _ => ⟨rfl, fun _ => rfl⟩
        · intro m hm
          unfold token
          grind
        · intro q hq
          unfold token
          grind
      · refine h.ordered.modifyPrim rfl (fun hm => h.ordered.locked p hm) (fun _ => ⟨?_, ?_⟩)
        · dsimp only
          omega
        · exact fun _ => h.ordered.count_pos p hk (by omega)
  | event =>
    rw [hk] at heq
    obtain ⟨rfl, rfl⟩ := Prod.mk.inj heq
    refine ⟨fun _ => h.congr ?_ (fun _ => rfl), fun _ =>
      ⟨rfl, nofun, nofun⟩⟩
    exact token_eq_zero (by rw [hk]; decide) (by rw [hk]; decide)
  | conditionVariable =>
    rw [hk] at heq
    obtain ⟨rfl, rfl⟩ := Prod.mk.inj heq
    exact ⟨nofun, fun _ =>
      ⟨rfl, nofun, nofun⟩⟩

/-- What a task took at once is its own. -/
theorem Inv.taken (h : Inv cfg base none (token cfg p) (fun _ => 0) s) (t : TaskId) :
    Clean cfg base (s.recordTaken p t) := by
  refine h.recordTaken p t ?_
  intro q
  rw [Int.sub_self]

/-- A holder that is about to let a mutex go hands it to the call. -/
theorem Inv.dropHolder (h : Clean cfg base s) (hm : cfg.kind m = .mutex)
    (ht : t ∈ (s.history m).holders) :
    Inv cfg base none (fun q => if q = m then 1 else 0) (fun _ => 0)
      (s.modifyHistory m fun h => { h with holders := h.holders.erase t }) := by
  have hlen := List.length_erase_of_mem ht
  have hpos := List.length_pos_of_mem ht
  refine ⟨h.linked.modifyHistory, ?_, h.ordered.frame (fun _ => ⟨rfl, rfl, rfl⟩) ?_
    (Nat.le_refl _)⟩
  · apply h.counted.changeHistory
    · intro q _
      rw [hlen]
      split <;> omega
    · intro q hq
      have hne : q ≠ m := by
        rintro rfl
        rw [hm] at hq
        cases hq
      simp only [hne, ite_false]
      rfl
  · intro q
    rw [State.modifyHistory_history]
    split <;> exact ⟨rfl, rfl⟩

/-- A change of an event's flag touches nothing else. -/
theorem Inv.setSignaled {e : PrimId} (h : Clean cfg base s) (hk : cfg.kind e = .event) (b : Bool) :
    Clean cfg base (s.modifyPrim e fun x => { x with signaled := b }) := by
  refine ⟨h.linked.modifyPrim (fun _ => rfl) (fun _ => rfl), ?_, ?_⟩
  · apply h.counted.changePrim
    · exact fun hc => absurd hk hc
    · exact fun _ => ⟨rfl, fun _ => rfl⟩
    · intro m hm
      grind
    · intro q hq
      grind
  · exact h.ordered.modifyPrim rfl (fun hm => by rw [hk] at hm; cases hm)
      (fun hs => by rw [hk] at hs; cases hs)

/-- The units of a release are on the books before it hands them out. -/
theorem Inv.released (h : Clean cfg base s) (hp : cfg.kind p = .semaphore) (n : Nat) :
    Clean cfg base (State.release p n
      (s.modifyHistory p fun h => { h with released := h.released + n })) := by
  have hbooked : Inv cfg base none (fun q => if q = p then (n : Int) else 0) (fun _ => 0)
      (s.modifyHistory p fun h => { h with released := h.released + n }) := by
    refine ⟨h.linked.modifyHistory, ?_, h.ordered.frame (fun _ => ⟨rfl, rfl, rfl⟩) ?_
      (Nat.le_refl _)⟩
    · apply h.counted.changeHistory
      · intro m hm
        grind
      · intro q _
        grind
    · intro q
      rw [State.modifyHistory_history]
      split <;> exact ⟨rfl, rfl⟩
  refine Inv.release hp n hbooked ?_
  intro q
  rw [Int.zero_add]

/-- What each call does where it is made. -/
inductive Called (s : State) : Op → State → Prop where
  | taken {t : TaskId} {p : PrimId} {l : LoopId} {cancelled : Bool} {s' : State}
    (hready : s.awaitReady p = (true, s')) :
    Called s (.take t p l cancelled) (s'.recordTaken p t)
  | turned {t : TaskId} {p : PrimId} {l : LoopId} {s' : State}
    (hready : s.awaitReady p = (false, s')) : Called s (.take t p l true) s'
  | queued {t : TaskId} {p : PrimId} {l : LoopId} {s' : State}
    (hkind : (s.prims p).kind ≠ .conditionVariable) (halive : (s.loops l).alive = true)
    (hready : s.awaitReady p = (false, s')) :
    Called s (.take t p l false) (s'.wait t p none l)
  | kept {t : TaskId} {c m : PrimId} {l : LoopId} (hm : (s.prims m).kind = .mutex)
    (hholds : t ∈ (s.history m).holders) : Called s (.waitOn t c m l true) s
  | waitOn {t : TaskId} {c m : PrimId} {l : LoopId}
    (hc : (s.prims c).kind = .conditionVariable) (hm : (s.prims m).kind = .mutex)
    (halive : (s.loops l).alive = true) (hholds : t ∈ (s.history m).holders) :
    Called s (.waitOn t c m l false)
      ((s.modifyHistory m fun h => { h with holders := h.holders.erase t }).wait t c (some m) l)
  | tried {t : TaskId} {p : PrimId} {s' : State} (hready : s.awaitReady p = (true, s')) :
    Called s (.tryTake t p) (s'.recordTaken p t)
  | refused {t : TaskId} {p : PrimId} {s' : State} (hready : s.awaitReady p = (false, s')) :
    Called s (.tryTake t p) s'
  | unlock {t : TaskId} {m : PrimId} (hm : (s.prims m).kind = .mutex)
    (hholds : t ∈ (s.history m).holders) : Called s (.unlock t m)
      ((s.modifyHistory m fun h => { h with holders := h.holders.erase t }).unlock m)
  | release {p : PrimId} {n : Nat} (hp : (s.prims p).kind = .semaphore) :
    Called s (.release p n) (State.release p n
      (s.modifyHistory p fun h => { h with released := h.released + n }))
  | notifyOne {c : PrimId} (hc : (s.prims c).kind = .conditionVariable) :
    Called s (.notifyOne c) (s.notifyOne c)
  | notifyAll {c : PrimId} (hc : (s.prims c).kind = .conditionVariable) :
    Called s (.notifyAll c) (s.wakeAll c)
  | set {e : PrimId} (he : (s.prims e).kind = .event) :
    Called s (.set e) ((s.modifyPrim e fun x => { x with signaled := true }).wakeAll e)
  | reset {e : PrimId} (he : (s.prims e).kind = .event) :
    Called s (.reset e) (s.modifyPrim e fun x => { x with signaled := false })
  | cancel {w : WaitId}
    (hplace : (s.waits w).place ∈ [Place.atOwner, .atMutex, .deferred, .abandoned]) :
    Called s (.cancel w) (s.cancel w)
  | resume {l : LoopId} {w : WaitId} {rest : List WaitId} (halive : (s.loops l).alive = true)
    (hl : (s.loops l).deferred = w :: rest) : Called s (.resume l) ((s.popDeferred l w).resume w)
  | destroyLoop {l : LoopId} : Called s (.destroyLoop l) (s.destroyLoop l)

theorem State.inRange_some (h : s.inRange p = some s') : s' = s := by
  obtain ⟨-, h⟩ := Option.ite_none_left_eq_some.mp h
  exact (Option.some.inj h).symm

theorem State.inRange_self (h : (s.prims p).kind = .semaphore → (s.prims p).count ≤ ptrdiffMax) :
    s.inRange p = some s :=
  if_neg fun hover => (h hover.1).not_gt hover.2

/-- A step is a call that its caller may make. -/
theorem step_called {op : Op} (hs : step s op = some s') : Called s op s' := by
  cases op with
  | take t p l cancelled =>
    obtain ⟨⟨hkind, halive⟩, hs⟩ := Option.ite_none_right_eq_some.mp hs
    split at hs
    · next hready =>
      cases hs
      exact .taken hready
    · next hready =>
      cases cancelled with
      | true =>
        cases hs
        exact .turned hready
      | false =>
        cases hs
        exact .queued hkind halive hready
  | waitOn t c m l cancelled =>
    obtain ⟨⟨hc, hm, halive, hholds⟩, hs⟩ := Option.ite_none_right_eq_some.mp hs
    cases cancelled with
    | true =>
      cases hs
      exact .kept hm hholds
    | false =>
      cases hs
      exact .waitOn hc hm halive hholds
  | tryTake t p =>
    obtain ⟨-, hs⟩ := Option.ite_none_right_eq_some.mp hs
    split at hs
    · next hready =>
      cases hs
      exact .tried hready
    · next hready =>
      cases hs
      exact .refused hready
  | unlock t m =>
    obtain ⟨⟨hm, hholds⟩, ⟨⟩⟩ := Option.ite_none_right_eq_some.mp hs
    exact .unlock hm hholds
  | release p n =>
    obtain ⟨hp, hs⟩ := Option.ite_none_right_eq_some.mp hs
    obtain rfl := State.inRange_some hs
    exact .release hp
  | notifyOne c =>
    obtain ⟨hc, ⟨⟩⟩ := Option.ite_none_right_eq_some.mp hs
    exact .notifyOne hc
  | notifyAll c =>
    obtain ⟨hc, ⟨⟩⟩ := Option.ite_none_right_eq_some.mp hs
    exact .notifyAll hc
  | set e =>
    obtain ⟨he, ⟨⟩⟩ := Option.ite_none_right_eq_some.mp hs
    exact .set he
  | reset e =>
    obtain ⟨he, ⟨⟩⟩ := Option.ite_none_right_eq_some.mp hs
    exact .reset he
  | cancel w =>
    obtain ⟨hplace, hs⟩ := Option.ite_none_right_eq_some.mp hs
    obtain rfl := State.inRange_some hs
    exact .cancel hplace
  | resume l =>
    obtain ⟨halive, hs⟩ := Option.ite_none_right_eq_some.mp hs
    split at hs
    · cases hs
    · next w rest hl =>
      cases hs
      exact .resume halive hl
  | destroyLoop l =>
    obtain ⟨-, ⟨⟩⟩ := Option.ite_none_right_eq_some.mp hs
    exact .destroyLoop

/-- Every call keeps the invariant. -/
theorem Inv.step (h : Clean cfg base s) {op : Op} (hs : step s op = some s') :
    Clean cfg base s' := by
  cases step_called hs with
  | taken hready => exact ((h.awaitReady hready).1 rfl).taken _
  | turned hready =>
    obtain ⟨rfl, -⟩ := (h.awaitReady hready).2 rfl
    exact h
  | queued hkind halive hready =>
    obtain ⟨rfl, hmutex, hsem⟩ := (h.awaitReady hready).2 rfl
    rw [h.linked.kind] at hkind
    exact h.enqueue halive nofun (fun hc => absurd hc hkind) hmutex hsem
  | kept => exact h
  | waitOn hc hm halive hholds =>
    rw [h.linked.kind] at hc hm
    exact (h.dropHolder hm hholds).waitOn halive (fun _ => rfl) hc hm
  | tried hready => exact ((h.awaitReady hready).1 rfl).taken _
  | refused hready =>
    obtain ⟨rfl, -⟩ := (h.awaitReady hready).2 rfl
    exact h
  | unlock hm hholds =>
    rw [h.linked.kind] at hm
    exact (h.dropHolder hm hholds).unlock_clean hm (fun _ => rfl)
  | release hp => exact h.released (h.linked.kind _ ▸ hp) _
  | notifyOne hc =>
    rw [h.linked.kind] at hc
    exact h.notifyOne (by rw [hc]; decide) (by rw [hc]; decide)
  | notifyAll hc =>
    rw [h.linked.kind] at hc
    exact Inv.wakeTimes (by rw [hc]; decide) (by rw [hc]; decide) _ h
  | set he =>
    rw [h.linked.kind] at he
    exact Inv.wakeTimes (by rw [he]; decide) (by rw [he]; decide) _ (h.setSignaled he true)
  | reset he => exact h.setSignaled (h.linked.kind _ ▸ he) false
  | cancel hplace =>
    simp only [List.mem_cons, List.not_mem_nil, or_false] at hplace
    exact h.cancel hplace
  | resume halive hl => exact h.resume hl halive
  | destroyLoop => exact h.destroyLoop _

theorem Config.clean_start (cfg : Config) : Clean cfg cfg.start cfg.start := by
  refine ⟨?_, ⟨?_, ?_, ?_⟩, ?_⟩
  · constructor
    case wait =>
      intro w
      constructor <;> simp [Config.start]
    case since => exact Evolves.refl _
    all_goals simp [Config.start]
  · intro p
    simp [Config.start, State.outstanding, tally]
  · intro m _
    simp [Config.start, State.waitingOwners, tally]
  · intro p _
    simp [Config.start, State.outstanding, tally]
  · constructor <;> simp [Config.start]

/-- The invariant may be taken to start where it holds. -/
theorem Inv.rebase (h : Inv cfg base hand debt ahead s) : Inv cfg s hand debt ahead s := by
  obtain ⟨hl, hc, ho⟩ := h
  refine ⟨?_, hc, ho⟩
  exact ⟨hl.kind, hl.unused, hl.inHand, hl.wait, hl.mem_queue, hl.nodup_queue, hl.mem_tracked,
    hl.nodup_tracked, hl.mem_deferred, hl.nodup_deferred, Evolves.refl s⟩

/-- The invariant holds after every run. -/
theorem Config.Reachable.clean (h : cfg.Reachable s) : Clean cfg s s :=
  Inv.rebase (Reach.invariant (fun hi hs => Inv.step hi hs) cfg.clean_start h)

end Kotatsu.Async.Sync
