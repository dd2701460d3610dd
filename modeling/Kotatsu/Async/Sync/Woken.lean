import Kotatsu.Async.Sync.Endings

/-!
# Wake-ups are counted and not lost

The `woken` of a primitive counts its waits that were granted and have neither
resumed, been cancelled nor been abandoned. A notification that reached a wait
goes to the next one when the wait is cancelled, so it stays with some wait for
as long as one of those it was made for is left.
-/

namespace Kotatsu.Async.Sync

open Kotatsu.Core

variable {cfg : Config} {base s s' : State} {c p : PrimId} {v w : WaitId}

/-- Since `base` the wait was notified, no cancel has reached it, and its task
has gone on or its loop is there to resume it. -/
def State.GoesOn (base s : State) (c : PrimId) (w : WaitId) : Prop :=
  (s.waits w).owner = c ∧ (base.waits w).granted = false ∧ (s.waits w).granted = true ∧
    (s.waits w).cancelRequested = false ∧
    ((s.waits w).place = .resumed ∨ ∃ l, (s.waits w).loop = some l ∧ s.alive l = true)

/-- Since `base` the wait was notified, and its loop went before it handed the
notification on or its task resumed. -/
def State.Stranded (base s : State) (c : PrimId) (w : WaitId) : Prop :=
  (s.waits w).owner = c ∧ (base.waits w).granted = false ∧ (s.waits w).granted = true ∧
    (s.waits w).handedOn = false ∧ s.Gone w ∧ (s.waits w).place ≠ .resumed

/-- A notification made at `base` lets a task go on, unless it went with a loop or
every wait it was made for was cancelled or lost its loop. -/
def State.Delivered (base s : State) (c : PrimId) : Prop :=
  (∃ w, base.GoesOn s c w) ∨ (∃ w, base.Stranded s c w) ∨
    ∀ w ∈ (base.prims c).queue, (s.waits w).cancelRequested = true ∨ s.Gone w

theorem State.gone_or_alive (s : State) (w : WaitId) :
    s.Gone w ∨ ∃ l, (s.waits w).loop = some l ∧ s.alive l = true := by
  unfold State.Gone
  cases (s.waits w).loop with
  | none => exact Or.inl nofun
  | some l =>
    cases hl : s.alive l with
    | false =>
      refine Or.inl ?_
      rintro k hk
      cases hk
      exact hl
    | true => exact Or.inr ⟨l, rfl, hl⟩

/-- A wait that is queued at its owner was not granted before. -/
theorem Linked.not_granted_before (hb : Linked cfg base none base) (h : Linked cfg base none s)
    (hg : (s.waits w).granted = false) : (base.waits w).granted = false := by
  by_cases hlt : w < base.fresh
  · by_contra hc
    rw [h.since.granted w hlt (by simpa using hc)] at hg
    cases hg
  · exact (hb.wait w).unused ((hb.unused w).mpr (Nat.le_of_not_lt hlt))

/-- A condition variable with waits in its queue notifies the first of them. -/
theorem Linked.notifyOne_goesOn {t : State} (hb : Linked cfg base none base)
    (h : Linked cfg base none t) (hc : cfg.kind c = .conditionVariable) {rest : List WaitId}
    (hq : (t.prims c).queue = v :: rest) : base.GoesOn (t.notifyOne c) c v := by
  obtain ⟨_, _, ⟨howner, hgranted, hcancel, _⟩, hloop⟩ := h.wakeOne_granted hq (by rw [hc]; decide)
  have hmem : (t.waits v).queue = some c :=
    (h.mem_queue c v).mp (by rw [hq]; exact List.mem_cons_self ..)
  have hok := h.wait v
  obtain ⟨hplace, l, hl, halive⟩ := hok.queued c hmem
  have hfresh : (t.waits v).granted = false := by
    rcases hplace with hx | hx
    · exact (hok.atOwner hx.2).2.2
    · have hk := (hok.kinds c hx.1).2
      rw [hc] at hk
      cases hk
  refine ⟨howner, hb.not_granted_before h hfresh, hgranted, hcancel, Or.inr ⟨l, ?_, ?_⟩⟩
  · exact hloop.trans hl
  · rw [State.notifyOne, State.wakeOne_alive]
    exact halive

/-- Once the queue is empty, each wait a notification was made for was notified,
cancelled, or left by its loop. -/
theorem Linked.delivered_of_nil (hb : Linked cfg base none base) (h : Linked cfg base none s)
    (hc : cfg.kind c = .conditionVariable) (hq : (s.prims c).queue = []) :
    base.Delivered s c := by
  by_contra hcontra
  simp only [State.Delivered, not_or, not_exists, not_forall] at hcontra
  obtain ⟨hgo, _, w, hw, hcancel, hgone⟩ := hcontra
  have hqueued := (hb.mem_queue c w).mp hw
  have hbok := hb.wait w
  have hat : (base.waits w).owner = c ∧ (base.waits w).place = .atOwner := by
    rcases (hbok.queued c hqueued).1 with hx | hx
    · exact ⟨hx.1.symm, hx.2⟩
    · have hk := (hbok.kinds c hx.1).2
      rw [hc] at hk
      cases hk
  have hlt : w < base.fresh := hb.lt_fresh (by rw [hat.2]; decide)
  have howner : (s.waits w).owner = c := (h.since.owner w hlt).trans hat.1
  have hok := h.wait w
  have hgranted : (s.waits w).granted = true := by
    cases hp : (s.waits w).place with
    | unused => exact absurd (hlt.trans_le h.since.fresh) (Nat.not_lt.mpr ((h.unused w).mp hp))
    | atOwner =>
      have hmem := (h.mem_queue c w).mpr ((hok.atOwner hp).1.trans (congrArg some howner))
      rw [hq] at hmem
      cases hmem
    | atMutex => exact hok.granted (Or.inl hp) (Bool.eq_false_iff.mpr hcancel)
    | inHand =>
      have := (h.inHand w).mp hp
      cases this
    | deferred => exact hok.granted (Or.inr hp) (Bool.eq_false_iff.mpr hcancel)
    | abandoned =>
      exact absurd (fun l hl => by rw [hok.abandoned hp] at hl; cases hl) hgone
    | resumed => exact (hok.resumed hp).1
    | cancelled => exact absurd (hok.cancelled hp) hcancel
  refine hgo w ⟨howner, (hbok.atOwner hat.2).2.2, hgranted, Bool.eq_false_iff.mpr hcancel, ?_⟩
  exact Or.inr ((s.gone_or_alive w).resolve_left hgone)

/-- A cancel of a notified wait hands the notification on. -/
theorem Linked.delivered_of_cancel (hb : Linked cfg base none base) (h : Linked cfg base none s)
    (hc : cfg.kind c = .conditionVariable) (hw : (s.waits w).Outstanding c)
    (hafter : Linked cfg base none (s.cancel w)) : base.Delivered (s.cancel w) c := by
  obtain ⟨t, ht, hqueue, _, _, he⟩ := h.cancel_outstanding hw (by rw [hc]; decide)
  rw [hc] at he
  dsimp only at he
  cases hq : (s.prims c).queue with
  | nil =>
    apply hb.delivered_of_nil hafter hc
    rw [he, State.notifyOne, State.wakeOne_nil (hqueue.trans hq), hqueue, hq]
  | cons v rest =>
    rw [he]
    exact Or.inl ⟨v, hb.notifyOne_goesOn ht hc (hqueue.trans hq)⟩

/-- A wait that was granted and neither ended, cancelled nor abandoned is outstanding. -/
theorem Linked.outstanding (h : Linked cfg base none s) (howner : (s.waits w).owner = c)
    (hgranted : (s.waits w).granted = true) (hcancel : (s.waits w).cancelRequested = false)
    (hplace : (s.waits w).place ∈ [Place.atOwner, .atMutex, .deferred, .abandoned])
    (hleft : (s.waits w).place ≠ .abandoned) : (s.waits w).Outstanding c := by
  refine ⟨howner, hgranted, hcancel, ?_⟩
  simp only [List.mem_cons, List.not_mem_nil, or_false] at hplace
  rcases hplace with hx | hx | hx | hx
  · have := ((h.wait w).atOwner hx).2.2
    rw [hgranted] at this
    cases this
  · exact Or.inl hx
  · exact Or.inr (Or.inr hx)
  · exact absurd hx hleft

/-- A cancel of a wait its loop has left hands nothing on. -/
theorem Linked.cancel_abandoned (h : Linked cfg base none s) (hp : (s.waits w).place = .abandoned)
    (hh : ((s.cancel w).waits w).handedOn = true) : (s.waits w).handedOn = true := by
  have hok := h.wait w
  have hqueue : (s.waits w).queue ≠ some (s.waits w).owner := by
    intro hc
    rcases (hok.queued _ hc).1 with hx | hx <;> simp [hx.2] at hp
  have hwait : (s.modifyWait w fun x => { x with cancelRequested := true }).waits w =
      { s.waits w with cancelRequested := true } := by
    rw [State.modifyWait_waits, ite_cond_eq_true _ _ (eq_self w)]
  unfold State.cancel at hh
  split at hh
  · exact hh
  · unfold State.cancelWait at hh
    simp only [hwait, hqueue, hok.abandoned hp, Option.isSome_none, Bool.false_eq_true,
      ite_false] at hh
    obtain ⟨t, ht, he⟩ := State.cancelTaken_cases
      (s.modifyWait w fun x => { x with cancelRequested := true }) w
    have hsame : (t.waits w).handedOn = true := by
      rcases he with he | he
      · rwa [he] at hh
      · rw [he, State.finish_waits] at hh
        simpa using hh
    have hmarked := (ht.handedOn w hsame).resolve_right nofun
    rwa [hwait] at hmarked

/-- The cancel of a wait that was granted is possible where the wait is going. -/
theorem step_cancel (hs : step s (.cancel w) = some s') :
    (s.waits w).place ∈ [Place.atOwner, .atMutex, .deferred, .abandoned] ∧ s' = s.cancel w := by
  cases step_called hs with
  | cancel hplace => exact ⟨hplace, rfl⟩

/-- A call keeps a notification with some wait. -/
theorem Inv.delivered (hb : Clean cfg base base) (h : Clean cfg base s) {op : Op}
    (hs : Sync.step s op = some s') (hc : cfg.kind c = .conditionVariable)
    (hd : base.Delivered s c) : base.Delivered s' c := by
  have hev : Evolves s s' := (h.rebase.step hs).linked.since
  have h' := h.step hs
  have hlt : ∀ {w}, (s.waits w).granted = true → w < s.fresh := by
    intro w hg
    apply h.linked.lt_fresh
    intro hp
    rw [(h.linked.wait w).unused hp] at hg
    cases hg
  rcases hd with ⟨w, howner, hnew, hgranted, hcancel, hlast⟩ |
    ⟨w, howner, hnew, hgranted, hhanded, hgone, hplace⟩ | hall
  · have howner' := (hev.owner w (hlt hgranted)).trans howner
    have hgranted' := hev.granted w (hlt hgranted) hgranted
    cases hc' : (s'.waits w).cancelRequested with
    | true =>
      obtain rfl : op = .cancel w := (step_cancelRequested hs hc').resolve_left (by simp [hcancel])
      obtain ⟨hp, rfl⟩ := step_cancel hs
      refine hb.linked.delivered_of_cancel h.linked hc
        (h.linked.outstanding howner hgranted hcancel hp ?_) h'.linked
      intro hleft
      rcases hlast with hx | ⟨l, hl, _⟩
      · rw [hleft] at hx
        cases hx
      · rw [(h.linked.wait w).abandoned hleft] at hl
        cases hl
    | false =>
      by_cases hr : (s'.waits w).place = .resumed
      · exact Or.inl ⟨w, howner', hnew, hgranted', hc', Or.inl hr⟩
      · rcases s'.gone_or_alive w with hg | ha
        · refine Or.inr (Or.inl ⟨w, howner', hnew, hgranted', ?_, hg, hr⟩)
          by_contra hh
          rw [(h'.linked.wait w).handedOn (by simpa using hh)] at hc'
          cases hc'
        · exact Or.inl ⟨w, howner', hnew, hgranted', hc', Or.inr ha⟩
  · obtain ⟨hgone', hresumed⟩ := hev.gone w (hlt hgranted) hgone
    cases hh : (s'.waits w).handedOn with
    | true =>
      obtain ⟨rfl, hcancel⟩ := (step_handedOn hs hh).resolve_left (by simp [hhanded])
      obtain ⟨hp, rfl⟩ := step_cancel hs
      refine hb.linked.delivered_of_cancel h.linked hc
        (h.linked.outstanding howner hgranted hcancel hp ?_) h'.linked
      intro hleft
      rw [h.linked.cancel_abandoned hleft hh] at hhanded
      cases hhanded
    | false =>
      exact Or.inr (Or.inl ⟨w, (hev.owner w (hlt hgranted)).trans howner, hnew,
        hev.granted w (hlt hgranted) hgranted, hh, hgone', fun hr => hplace (hresumed hr)⟩)
  · refine Or.inr (Or.inr ?_)
    intro w hw
    have hwlt : w < s.fresh :=
      (hb.linked.lt_of_queued ((hb.linked.mem_queue c w).mp hw)).trans_le h.linked.since.fresh
    rcases hall w hw with hx | hx
    · exact Or.inl (hev.cancelRequested w hwlt hx)
    · exact Or.inr (hev.gone w hwlt hx).1

/-- A cancel of a notified wait notifies the first wait in the queue. -/
theorem Linked.cancel_notified (h : Linked cfg base none s) (hc : cfg.kind c = .conditionVariable)
    (hw : (s.waits w).Outstanding c) {rest : List WaitId} (hq : (s.prims c).queue = v :: rest) :
    ((s.cancel w).prims c).queue = rest ∧ ((s.cancel w).waits v).Outstanding c := by
  obtain ⟨t, ht, hqueue, _, _, he⟩ := h.cancel_outstanding hw (by rw [hc]; decide)
  rw [hc] at he
  obtain ⟨hrest, _, hv, _⟩ := ht.wakeOne_granted (hqueue.trans hq) (by rw [hc]; decide)
  rw [he]
  exact ⟨hrest, hv⟩

/-- After every run `woken` counts the waits that were granted and have neither
resumed, been cancelled nor been abandoned; a wait is in at most one queue, and
in its loop's list exactly while it is in one; a cancelled wait's notification
goes to the next; and a notification made while a task waits lets one go on. -/
theorem Config.Reachable.woken (h : cfg.Reachable s) :
    (∀ p, cfg.kind p ≠ .event → 0 ≤ (s.prims p).woken ∧
      (s.prims p).woken = census (Wait.Outstanding p) s.waits s.fresh) ∧
      (∀ w p q, w ∈ (s.prims p).queue → w ∈ (s.prims q).queue → p = q) ∧
      (∀ p, (s.prims p).queue.Nodup) ∧
      (∀ l, (s.loops l).queuedWaits.Nodup) ∧
      (∀ w l, w ∈ (s.loops l).queuedWaits ↔
        (∃ p, w ∈ (s.prims p).queue) ∧ (s.waits w).loop = some l) ∧
      (∀ c w v rest, cfg.kind c = .conditionVariable → (s.waits w).Outstanding c →
        (s.prims c).queue = v :: rest → ∃ s', step s (.cancel w) = some s' ∧
          (s'.prims c).queue = rest ∧ (s'.waits v).Outstanding c) ∧
      ∀ c s₁ s₂, (s.prims c).queue ≠ [] → step s (.notifyOne c) = some s₁ → Reach step s₁ s₂ →
        s.Delivered s₂ c := by
  have hclean := h.clean
  have hlinked := hclean.linked
  refine ⟨?_, ?_, hlinked.nodup_queue, hlinked.nodup_tracked, ?_, ?_, ?_⟩
  · intro p hp
    have hw := hclean.counted.woken p
    simp only [hp, ite_false, Int.add_zero] at hw
    rw [hw]
    exact ⟨s.outstanding_nonneg p, tally_eq_census (Wait.Outstanding p) s.waits s.fresh⟩
  · intro w p q hp hq
    have hp' := (hlinked.mem_queue p w).mp hp
    rw [(hlinked.mem_queue q w).mp hq] at hp'
    exact (Option.some.inj hp').symm
  · intro w l
    rw [hlinked.mem_tracked l w, Option.ne_none_iff_exists']
    simp only [hlinked.mem_queue]
  · intro c w v rest hc hw hq
    exact ⟨s.cancel w, hclean.can_cancel hw (fun hp => absurd (hc.symm.trans hp) (by decide)),
      hlinked.cancel_notified hc hw hq⟩
  · intro c s₁ s₂ hq hs hr
    obtain ⟨v, rest, hq⟩ := List.exists_cons_of_ne_nil hq
    obtain ⟨hc, hfirst⟩ : cfg.kind c = .conditionVariable ∧ s₁ = s.notifyOne c := by
      cases step_called hs with
      | notifyOne hk => exact ⟨(hlinked.kind c).symm.trans hk, rfl⟩
    have hstart : Clean cfg s s₁ ∧ s.Delivered s₁ c := by
      refine ⟨hclean.step hs, Or.inl ⟨v, ?_⟩⟩
      rw [hfirst]
      exact hlinked.notifyOne_goesOn hlinked hc hq
    exact (Reach.invariant (I := fun t => Clean cfg s t ∧ s.Delivered t c)
      (fun hi ht => ⟨hi.1.step ht, hclean.delivered hi.1 ht hc hi.2⟩) hstart hr).2

/-- A mutex and a condition variable. -/
private def turnstile : Config where
  kind p := if p = 0 then .mutex else .conditionVariable

/-- Two tasks wait on the condition variable, each having let the mutex go. -/
private def twoWaiting : List Op :=
  [.take 0 0 0 false, .waitOn 0 1 0 0 false, .take 1 0 0 false, .waitOn 1 1 0 0 false]

/-- The first of the two is notified and cancelled. -/
theorem Config.Reachable.woken_twoWaiting :
    let s := (run step turnstile.start twoWaiting).get rfl
    ∃ s₁ s₂, step s (.notifyOne 1) = some s₁ ∧ step s₁ (.cancel 0) = some s₂ ∧
      s.Delivered s₂ 1 := by
  have hr : turnstile.Reachable _ := Reach.of_isSome twoWaiting rfl
  refine ⟨_, _, rfl, rfl, ?_⟩
  exact hr.woken.2.2.2.2.2.2 1 _ _ (by decide) rfl ⟨[.cancel 0], rfl⟩

end Kotatsu.Async.Sync
