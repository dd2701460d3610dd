import Kotatsu.Async.Sync.Operations

/-!
# What ends and what cancels a wait

Only a cancel of a wait marks it as cancelled, and only that cancel or the loop
that resumes the wait ends it. Every other call is quiet: it ends no wait and
marks none, whichever waits it queues, grants or abandons.
-/

namespace Kotatsu.Async.Sync

open Kotatsu.Core

/-- The task that waited goes on, with or without what it waited for. -/
def Wait.Ended (x : Wait) : Prop := x.place = .resumed ∨ x.place = .cancelled

instance (x : Wait) : Decidable x.Ended := inferInstanceAs (Decidable (_ ∨ _))

/-- No wait ends, and none but `who` is marked as cancelled. -/
structure Quiet (who : Option WaitId) (s s' : State) : Prop where
  ended : ∀ v, (s'.waits v).Ended → (s.waits v).Ended
  cancelRequested : ∀ v, (s'.waits v).cancelRequested = true →
    (s.waits v).cancelRequested = true ∨ who = some v
  handedOn : ∀ v, (s'.waits v).handedOn = true → (s.waits v).handedOn = true ∨ who = some v

variable {who : Option WaitId} {s s' s'' : State} {p : PrimId} {w : WaitId}

theorem Quiet.refl (s : State) : Quiet who s s :=
  ⟨fun _ h => h, fun _ h => Or.inl h, fun _ h => Or.inl h⟩

theorem Quiet.trans (h : Quiet who s s') (h' : Quiet who s' s'') : Quiet who s s'' where
  ended v hv := h.ended v (h'.ended v hv)
  cancelRequested v hv := (h'.cancelRequested v hv).elim (h.cancelRequested v) Or.inr
  handedOn v hv := (h'.handedOn v hv).elim (h.handedOn v) Or.inr

theorem Quiet.weaken (h : Quiet none s s') : Quiet who s s' where
  ended := h.ended
  cancelRequested v hv := (h.cancelRequested v hv).elim Or.inl nofun
  handedOn v hv := (h.handedOn v hv).elim Or.inl nofun

theorem Quiet.of_waits_eq (h : s'.waits = s.waits) : Quiet who s s' := by
  refine ⟨?_, ?_, ?_⟩ <;> intro v hv <;> rw [h] at hv
  · exact hv
  · exact Or.inl hv
  · exact Or.inl hv

/-- A change of one wait that leaves it going and does not mark it. -/
theorem Quiet.changeWait {f : Wait → Wait}
    (hwaits : ∀ v, s'.waits v = if v = w then f (s.waits v) else s.waits v)
    (hended : (f (s.waits w)).Ended → (s.waits w).Ended)
    (hcancel : (f (s.waits w)).cancelRequested = true →
      (s.waits w).cancelRequested = true ∨ who = some w)
    (hhanded : (f (s.waits w)).handedOn = true → (s.waits w).handedOn = true ∨ who = some w) :
    Quiet who s s' := by
  refine ⟨?_, ?_, ?_⟩ <;> intro v hv <;> rw [hwaits] at hv <;> split at hv
  · next he =>
    subst he
    exact hended hv
  · exact hv
  · next he =>
    subst he
    exact hcancel hv
  · exact Or.inl hv
  · next he =>
    subst he
    exact hhanded hv
  · exact Or.inl hv

namespace State

theorem remove_quiet (s : State) (p : PrimId) (w : WaitId) : Quiet who s (s.remove p w) :=
  Quiet.changeWait (f := fun x => { x with queue := none, place := .inHand }) (s.remove_waits p w)
    (by simp [Wait.Ended]) Or.inl Or.inl

theorem insert_quiet (s : State) (p : PrimId) (w : WaitId) : Quiet who s (s.insert p w) := by
  refine Quiet.changeWait (f := fun x =>
    { x with queue := some p, place := if p = x.owner then .atOwner else .atMutex })
    (s.insert_waits p w) ?_ Or.inl Or.inl
  intro h
  dsimp only [Wait.Ended] at h
  split at h <;> simp at h

theorem deferResume_quiet (s : State) (w : WaitId) : Quiet who s (s.deferResume w) :=
  Quiet.changeWait (f := fun x => { x with place := .deferred }) (s.deferResume_waits w)
    (by simp [Wait.Ended]) Or.inl Or.inl

theorem notified_quiet (s : State) (w : WaitId) : Quiet who s (s.notified w) :=
  Quiet.changeWait (f := fun x => { x with granted := true }) (s.notified_waits w)
    (fun h => h) Or.inl Or.inl

theorem modifyPrim_quiet (s : State) (p : PrimId) (f : Primitive → Primitive) :
    Quiet who s (s.modifyPrim p f) := Quiet.of_waits_eq rfl

theorem modifyHistory_quiet (s : State) (p : PrimId) (f : History → History) :
    Quiet who s (s.modifyHistory p f) := Quiet.of_waits_eq rfl

theorem grant_quiet (s : State) (p : PrimId) (w : WaitId) : Quiet who s (s.grant p w) := by
  rcases s.grant_cases p w with ⟨_, h⟩ | ⟨_, _, h⟩ | ⟨m, _, _, ⟨_, h⟩ | ⟨_, h⟩⟩ <;> rw [h]
  · exact s.deferResume_quiet w
  · exact (s.notified_quiet w).trans (deferResume_quiet _ w)
  · exact (s.notified_quiet w).trans (insert_quiet _ m w)
  · exact ((s.notified_quiet w).trans (modifyPrim_quiet _ m _)).trans (deferResume_quiet _ w)

theorem wakeOne_quiet (s : State) (p : PrimId) : Quiet who s (s.wakeOne p).2 := by
  unfold wakeOne
  split
  · exact Quiet.refl s
  · next w _ _ =>
    exact ((s.remove_quiet p w).trans (modifyHistory_quiet _ p _)).trans (grant_quiet _ p w)

theorem unlock_quiet (s : State) (m : PrimId) : Quiet who s (s.unlock m) := by
  have hw : Quiet who s _ := s.wakeOne_quiet m
  unfold unlock
  split
  · next heq => rwa [heq] at hw
  · next heq =>
    rw [heq] at hw
    exact hw.trans (modifyPrim_quiet _ m _)

theorem release_quiet (p : PrimId) (n : Nat) (s : State) : Quiet who s (release p n s) := by
  induction n generalizing s with
  | zero => exact Quiet.refl s
  | succ n ih =>
    have hw : Quiet who s _ := s.wakeOne_quiet p
    unfold release
    split
    · next heq =>
      rw [heq] at hw
      exact hw.trans (ih _)
    · next heq =>
      rw [heq] at hw
      exact (hw.trans (modifyPrim_quiet _ p _)).trans (ih _)

theorem wakeTimes_quiet (p : PrimId) (n : Nat) (s : State) : Quiet who s (wakeTimes p n s) := by
  induction n generalizing s with
  | zero => exact Quiet.refl s
  | succ n ih =>
    have hw : Quiet who s _ := s.wakeOne_quiet p
    unfold wakeTimes
    split
    · next heq =>
      rw [heq] at hw
      exact hw.trans (ih _)
    · next heq => rwa [heq] at hw

theorem awaitReady_quiet {ready : Bool} (h : s.awaitReady p = (ready, s')) : Quiet who s s' := by
  apply Quiet.of_waits_eq
  change (ready, s').2.waits = s.waits
  rw [← h]
  unfold awaitReady tryLock tryAcquire
  split
  · split <;> rfl
  · split <;> rfl
  · rfl
  · rfl

theorem recordTaken_quiet (s : State) (p : PrimId) (t : TaskId) :
    Quiet who s (s.recordTaken p t) := by
  unfold recordTaken
  apply Quiet.of_waits_eq
  split <;> rfl

theorem begin_quiet (s : State) (t : TaskId) (owner : PrimId) (relock : Option PrimId)
    (l : LoopId) : Quiet who s (s.begin t owner relock l) := by
  refine ⟨?_, ?_, ?_⟩ <;> intro v hv <;> simp only [begin, Function.update_apply] at hv
  · split at hv
    · simp [Wait.Ended] at hv
    · exact hv
  · split at hv
    · cases hv
    · exact Or.inl hv
  · split at hv
    · cases hv
    · exact Or.inl hv

theorem wait_quiet (s : State) (t : TaskId) (owner : PrimId) (relock : Option PrimId)
    (l : LoopId) : Quiet who s (s.wait t owner relock l) := by
  unfold wait
  dsimp only
  split
  · exact ((s.unlock_quiet _).trans (begin_quiet _ t owner _ l)).trans (insert_quiet _ owner _)
  · exact (begin_quiet _ t owner _ l).trans (insert_quiet _ owner _)

theorem abandon_quiet (s : State) (w : WaitId) : Quiet who s (s.abandon w) := by
  have hleft : ∀ t : State, Quiet who t
      (t.modifyWait w fun x => { x with loop := none, place := .abandoned }) := fun t =>
    Quiet.changeWait (f := fun x => { x with loop := none, place := .abandoned })
      (t.modifyWait_waits w · _) (by simp [Wait.Ended]) Or.inl Or.inl
  have hless : Quiet who s (if (s.waits w).queue ≠ some (s.waits w).owner ∧
      (s.waits w).cancelRequested = false then
        s.modifyPrim (s.waits w).owner fun o => { o with woken := o.woken - 1 } else s) := by
    apply Quiet.of_waits_eq
    split <;> rfl
  unfold abandon
  dsimp only
  refine (hless.trans ?_).trans (hleft _)
  cases (s.waits w).queue with
  | none => exact Quiet.refl _
  | some p => exact remove_quiet _ p w

theorem abandonTimes_quiet (l : LoopId) (n : Nat) (s : State) :
    Quiet who s (abandonTimes l n s) := by
  induction n generalizing s with
  | zero => exact Quiet.refl s
  | succ n ih =>
    unfold abandonTimes
    split
    · exact Quiet.refl s
    · exact (s.abandon_quiet _).trans (ih _)

theorem destroyLoop_quiet (s : State) (l : LoopId) : Quiet who s (s.destroyLoop l) :=
  (abandonTimes_quiet l _ s).trans (Quiet.of_waits_eq rfl)

theorem giveBack_quiet (s : State) (w : WaitId) : Quiet (some w) s (s.giveBack w) := by
  have hmark : Quiet (some w) s (s.modifyWait w fun x => { x with handedOn := true }) :=
    Quiet.changeWait (f := fun x => { x with handedOn := true }) (s.modifyWait_waits w · _)
      (fun h => h) Or.inl (fun _ => Or.inr rfl)
  unfold giveBack
  dsimp only
  split
  · exact hmark
  · exact (hmark.trans (modifyPrim_quiet _ _ _)).trans (unlock_quiet _ _)
  · exact (hmark.trans (modifyPrim_quiet _ _ _)).trans (release_quiet _ _ _)
  · exact (hmark.trans (modifyPrim_quiet _ _ _)).trans (wakeOne_quiet _ _)

theorem popDeferred_quiet (s : State) (l : LoopId) (w : WaitId) :
    Quiet who s (s.popDeferred l w) := by
  refine Quiet.changeWait (w := w) (f := fun x => { x with place := .inHand }) ?_
    (by simp [Wait.Ended]) Or.inl Or.inl
  intro v
  simp only [popDeferred, modifyWait_waits, modifyLoop_waits]

/-- A cancelled wait that was granted nothing ends, or waits for its mutex first. -/
theorem cancelTaken_cases (s : State) (w : WaitId) :
    ∃ t, Quiet none s t ∧ (s.cancelTaken w = t ∨ s.cancelTaken w = t.finish w .cancelled) := by
  unfold cancelTaken
  cases (s.waits w).relock with
  | none => exact ⟨s, Quiet.refl s, Or.inr rfl⟩
  | some m =>
    dsimp only [tryLock]
    split
    · next heq =>
      split at heq
      · cases heq
      · obtain rfl := (Prod.mk.inj heq).2
        exact ⟨_, s.modifyPrim_quiet m _, Or.inr rfl⟩
    · next heq =>
      split at heq
      · obtain rfl := (Prod.mk.inj heq).2
        split
        · exact ⟨_, s.insert_quiet m w, Or.inl rfl⟩
        · exact ⟨s, Quiet.refl s, Or.inl rfl⟩
      · cases heq

theorem resume_cases (s : State) (w : WaitId) :
    ∃ t place, Quiet none s t ∧ s.resume w = t.finish w place := by
  unfold resume
  dsimp only
  split
  · exact ⟨s, .cancelled, Quiet.refl s, rfl⟩
  · refine ⟨_, .resumed, Quiet.trans (Quiet.of_waits_eq ?_) (recordTaken_quiet _ _ _), rfl⟩
    split <;> rfl

theorem cancel_cases (s : State) (w : WaitId) :
    s.cancel w = s ∨ (s.waits w).cancelRequested = false ∧
      ∃ t, Quiet (some w) s t ∧ (s.cancel w = t ∨ s.cancel w = t.finish w .cancelled) := by
  have hmark : Quiet (some w) s (s.modifyWait w fun x => { x with cancelRequested := true }) :=
    Quiet.changeWait (f := fun x => { x with cancelRequested := true }) (s.modifyWait_waits w · _)
      (fun h => h) (fun _ => Or.inr rfl) Or.inl
  unfold cancel
  split
  · exact Or.inl rfl
  · next hc =>
    refine Or.inr ⟨Bool.eq_false_iff.mpr hc, ?_⟩
    unfold cancelWait
    dsimp only
    split
    · obtain ⟨t, ht, he⟩ := cancelTaken_cases (remove (s.modifyWait w fun x =>
        { x with cancelRequested := true }) _ w) w
      exact ⟨t, (hmark.trans (remove_quiet _ _ w)).trans ht.weaken, he⟩
    · split
      · exact ⟨_, hmark.trans (giveBack_quiet _ w), Or.inl rfl⟩
      · obtain ⟨t, ht, he⟩ := cancelTaken_cases (s.modifyWait w fun x =>
          { x with cancelRequested := true }) w
        exact ⟨t, hmark.trans ht.weaken, he⟩

theorem finish_waits (s : State) (w v : WaitId) (place : Place) :
    (s.finish w place).waits v = if v = w then { s.waits v with place := place }
      else s.waits v := by
  unfold finish
  dsimp only
  split <;> simp only [addHolder, modifyHistory_waits, modifyWait_waits]

/-- The task whose wait on a condition variable ends has its mutex. -/
theorem finish_holders (s : State) {w : WaitId} {m : PrimId} (place : Place)
    (hr : (s.waits w).relock = some m) :
    ((s.finish w place).history m).holders = (s.waits w).task :: (s.history m).holders := by
  unfold finish
  dsimp only
  rw [hr]
  simp [addHolder]

end State

variable {op : Op} {v : WaitId}

/-- A call ends at most one wait, and marks none but the one it cancels. -/
theorem step_endings (h : step s op = some s') :
    ∃ who t, Quiet who s t ∧
      (∀ v, who = some v → op = .cancel v ∧ (s.waits v).cancelRequested = false) ∧
      (s' = t ∨ ∃ w place, s' = t.finish w place) := by
  have hquiet : Quiet none s s' → ∃ who t, Quiet who s t ∧
      (∀ v, who = some v → op = .cancel v ∧ (s.waits v).cancelRequested = false) ∧
      (s' = t ∨ ∃ w place, s' = t.finish w place) := fun hq =>
    ⟨none, s', hq, nofun, Or.inl rfl⟩
  cases step_called h with
  | taken hready =>
    exact hquiet ((State.awaitReady_quiet hready).trans (State.recordTaken_quiet _ _ _))
  | turned hready => exact hquiet (State.awaitReady_quiet hready)
  | queued _ _ hready =>
    exact hquiet ((State.awaitReady_quiet hready).trans (State.wait_quiet _ _ _ _ _))
  | kept => exact hquiet (Quiet.refl s)
  | waitOn =>
    exact hquiet ((State.modifyHistory_quiet s _ _).trans (State.wait_quiet _ _ _ _ _))
  | tried hready =>
    exact hquiet ((State.awaitReady_quiet hready).trans (State.recordTaken_quiet _ _ _))
  | refused hready => exact hquiet (State.awaitReady_quiet hready)
  | unlock => exact hquiet ((State.modifyHistory_quiet s _ _).trans (State.unlock_quiet _ _))
  | release => exact hquiet ((State.modifyHistory_quiet s _ _).trans (State.release_quiet _ _ _))
  | notifyOne => exact hquiet (s.wakeOne_quiet _)
  | notifyAll => exact hquiet (State.wakeTimes_quiet _ _ s)
  | set => exact hquiet ((State.modifyPrim_quiet s _ _).trans (State.wakeTimes_quiet _ _ _))
  | reset => exact hquiet (State.modifyPrim_quiet s _ _)
  | @cancel w _ =>
    rcases s.cancel_cases w with he | ⟨hc, t, ht, he⟩
    · exact hquiet (by rw [he]; exact Quiet.refl s)
    · refine ⟨some w, t, ht, ?_, he.imp_right fun hf => ⟨w, .cancelled, hf⟩⟩
      intro v hv
      cases hv
      exact ⟨rfl, hc⟩
  | @resume l w _ _ _ =>
    obtain ⟨t, place, ht, he⟩ := (s.popDeferred l w).resume_cases w
    exact ⟨none, t, (s.popDeferred_quiet l w).trans ht, nofun, Or.inr ⟨w, place, he⟩⟩
  | destroyLoop => exact hquiet (s.destroyLoop_quiet _)

/-- Only a cancel of a wait marks it. -/
theorem step_cancelRequested (h : step s op = some s') (hv : (s'.waits v).cancelRequested = true) :
    (s.waits v).cancelRequested = true ∨ op = .cancel v := by
  obtain ⟨who, t, ht, hwho, he⟩ := step_endings h
  have hsame : (s'.waits v).cancelRequested = (t.waits v).cancelRequested := by
    rcases he with rfl | ⟨w, place, rfl⟩
    · rfl
    · rw [State.finish_waits]
      split <;> rfl
  exact (ht.cancelRequested v (hsame ▸ hv)).imp_right fun hw => (hwho v hw).1

/-- Only the first cancel of a wait makes it hand on what it was granted. -/
theorem step_handedOn (h : step s op = some s') (hv : (s'.waits v).handedOn = true) :
    (s.waits v).handedOn = true ∨ op = .cancel v ∧ (s.waits v).cancelRequested = false := by
  obtain ⟨who, t, ht, hwho, he⟩ := step_endings h
  have hsame : (s'.waits v).handedOn = (t.waits v).handedOn := by
    rcases he with rfl | ⟨w, place, rfl⟩
    · rfl
    · rw [State.finish_waits]
      split <;> rfl
  exact (ht.handedOn v (hsame ▸ hv)).imp_right (hwho v)

/-- A wait on a condition variable ends with its task holding the mutex. -/
theorem step_ended (h : step s op = some s') {m : PrimId} (hold : ¬(s.waits v).Ended)
    (hnew : (s'.waits v).Ended) (hr : (s'.waits v).relock = some m) :
    (s'.waits v).task ∈ (s'.history m).holders := by
  obtain ⟨who, t, ht, _, rfl | ⟨w, place, rfl⟩⟩ := step_endings h
  · exact absurd (ht.ended v hnew) hold
  · rw [State.finish_waits] at hnew hr ⊢
    by_cases he : v = w
    · subst he
      simp only [ite_true] at hr ⊢
      rw [t.finish_holders place hr]
      exact List.mem_cons_self ..
    · simp only [he, ite_false] at hnew
      exact absurd (ht.ended v hnew) hold

/-! ## Handing on -/

section

variable {cfg : Config} {base : State}

/-- A primitive that is no mutex wakes its first waiter: the wait is granted, and
the rest of the queue waits on. -/
theorem Linked.wakeOne_granted (h : Linked cfg base none s) {rest : List WaitId}
    (hq : (s.prims p).queue = w :: rest) (hk : cfg.kind p ≠ .mutex) :
    ((s.wakeOne p).2.prims p).queue = rest ∧
      ((s.wakeOne p).2.prims p).count = (s.prims p).count ∧
      ((s.wakeOne p).2.waits w).Outstanding p ∧
      ((s.wakeOne p).2.waits w).loop = (s.waits w).loop := by
  have hw : (s.waits w).queue = some p :=
    (h.mem_queue p w).mp (by rw [hq]; exact List.mem_cons_self ..)
  have hok := h.wait w
  obtain ⟨howner, hplace⟩ : p = (s.waits w).owner ∧ (s.waits w).place = .atOwner := by
    rcases (hok.queued p hw).1 with hx | hx
    · exact hx
    · exact absurd (hok.kinds p hx.1).2 hk
  obtain ⟨_, hcancel, _⟩ := hok.atOwner hplace
  have hne : (s.waits w).relock ≠ some p := fun hr => hk (hok.kinds p hr).2
  unfold State.wakeOne
  rw [hq]
  dsimp only
  generalize ht : (s.remove p w).modifyHistory p (fun h => { h with grants := h.grants ++ [w] }) = t
  have hwait : t.waits w = { s.waits w with queue := none, place := .inHand } := by
    rw [← ht, State.modifyHistory_waits, State.remove_waits, ite_cond_eq_true _ _ (eq_self w)]
  have hprim : t.prims p = { s.prims p with queue := rest } := by
    rw [← ht, State.modifyHistory_prims, State.remove_prims, ite_cond_eq_true _ _ (eq_self p), hq,
      List.erase_cons_head]
  have howner' : (t.waits w).owner = p := by rw [hwait]; exact howner.symm
  obtain ⟨hg₁, hg₂, hg₃, hg₄, hg₅⟩ := t.grant_wait w (by rw [howner', hwait]; exact hne)
  rw [howner'] at hg₁ hg₂ hg₃ hg₄ hg₅
  refine ⟨?_, ?_, ⟨hg₁, hg₂, ?_, ?_⟩, ?_⟩
  · rw [t.grant_queue p p w (by rw [hwait]; exact hne), hprim]
  · rw [t.grant_count, hprim]
  · rw [hg₃, hwait, hcancel]
  · rcases hg₅ with hd | hm
    · exact Or.inr (Or.inr hd)
    · exact Or.inl hm
  · rw [hg₄, hwait]

/-- A cancel of an outstanding wait: the wait is marked and the primitive has
what it was granted. -/
theorem Linked.cancel_outstanding (h : Linked cfg base none s) (hw : (s.waits w).Outstanding p)
    (hev : cfg.kind p ≠ .event) :
    ∃ t, Linked cfg base none t ∧ (t.prims p).queue = (s.prims p).queue ∧
      (t.prims p).count = (s.prims p).count ∧
      (∀ v, t.waits v = if v = w then { s.waits v with cancelRequested := true, handedOn := true }
        else s.waits v) ∧
      s.cancel w = match cfg.kind p with
        | .event => s
        | .mutex => t.unlock p
        | .semaphore => State.release p 1 t
        | .conditionVariable => t.notifyOne p := by
  obtain ⟨howner, hgranted, hcancel, hplace⟩ := hw
  have hok := h.wait w
  have hin : (s.waits w).place ≠ .inHand := by
    intro hc
    have := (h.inHand w).mp hc
    cases this
  have hqueue : (s.waits w).queue ≠ some (s.waits w).owner := by
    intro hc
    rcases (hok.queued _ hc).1 with hx | hx
    · simp [hx.2] at hplace
    · have hk := hok.kinds _ hx.1
      rw [hk.1] at hk
      cases hk.2
  have hloop : (s.waits w).loop.isSome = true := by
    rcases hplace with hx | hx | hx
    · obtain ⟨hq, hr⟩ := hok.atMutex hx
      obtain ⟨m, hm⟩ := Option.ne_none_iff_exists'.mp hr
      obtain ⟨_, l, hl, _⟩ := hok.queued m (hq.trans hm)
      rw [hl]
      rfl
    · exact absurd hx hin
    · obtain ⟨l, hl⟩ := hok.deferred hx
      rw [hl]
      rfl
  have hmark := h.setCancelRequested (w := w) ⟨by rcases hplace with hx | hx | hx <;> simp [hx],
    by rcases hplace with hx | hx | hx <;> simp [hx]⟩
  have hwait : (s.modifyWait w fun x => { x with cancelRequested := true }).waits w =
      { s.waits w with cancelRequested := true } := by
    rw [State.modifyWait_waits, ite_cond_eq_true _ _ (eq_self w)]
  have hhand := hmark.setHandedOn (w := w) (by rw [hwait])
  refine ⟨_, hhand.modifyPrim (p := p) (f := fun o => { o with woken := o.woken - 1 })
    (fun _ => rfl) (fun _ => rfl), ?_, ?_, ?_, ?_⟩
  · simp
  · simp
  · intro v
    simp only [State.modifyPrim_waits, State.modifyWait_waits]
    split <;> rfl
  · unfold State.cancel State.cancelWait
    simp only [hcancel, Bool.false_eq_true, ite_false, hwait, hqueue, hloop, ite_true]
    unfold State.giveBack
    rw [hwait]
    dsimp only
    rw [howner, State.modifyWait_prims, State.modifyWait_prims, h.kind]
    cases hk : cfg.kind p with
    | event => exact absurd hk hev
    | mutex => rfl
    | semaphore => rfl
    | conditionVariable => rfl

/-- A granted wait can be cancelled, where what it gives back has room. -/
theorem Inv.can_cancel (h : Clean cfg base s) (hw : (s.waits w).Outstanding p)
    (hroom : cfg.kind p = .semaphore → ((s.cancel w).prims p).count ≤ ptrdiffMax) :
    Sync.step s (.cancel w) = some (s.cancel w) := by
  have hplace : (s.waits w).place = .atOwner ∨ (s.waits w).place = .atMutex ∨
      (s.waits w).place = .deferred ∨ (s.waits w).place = .abandoned := by
    obtain ⟨_, _, _, hx | hx | hx⟩ := hw
    · exact Or.inr (Or.inl hx)
    · cases (h.linked.inHand w).mp hx
    · exact Or.inr (Or.inr (Or.inl hx))
  have hkind := (h.cancel hplace).linked.kind p
  simp only [Sync.step, List.mem_cons, List.not_mem_nil, or_false, hplace, ite_true, hw.1]
  exact State.inRange_self fun hp => hroom (hkind.symm.trans hp)

end

end Kotatsu.Async.Sync
