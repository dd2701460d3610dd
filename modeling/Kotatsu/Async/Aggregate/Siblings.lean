import Kotatsu.Async.Aggregate.Outcome
import Kotatsu.Core.Linked

/-!
# The siblings of an aggregate

An aggregate links its children through their frames, and `cancel_children`
rotates that list: each turn moves the head to the tail and cancels it, as often
as there were children at its start. What a turn runs may end children, cancel
the aggregate, which starts a second such loop inside the first, or try to spawn.
The links follow the list of the model through every step, and a call of
`cancel_children` leaves no child of its start neither asked nor ended.
-/

namespace Kotatsu.Async.Aggregate

open Kotatsu.Core

variable {V E X : Type} {cfg : Config} {s s' : State V E X} {c : ChildId}

/-! ## What a step does to the list and the stack -/

/-- The loop of `cancel_children`. -/
def Frame.isLoop : Frame → Bool
  | .cancelChildren _ => true
  | _ => false

/-- The child that a turn of the loop on top cancels. -/
def askedBy (s : State V E X) (op : Op V E X) : Option ChildId :=
  match op, s.stack, s.siblings with
  | .tick, .cancelChildren (_ + 1) :: _, c :: _ => some c
  | _, _, _ => none

/-- What a step does to the children and the calls under way. A call returns or goes on and may
make others; a loop of `cancel_children` ends, or cancels the head; a child ends, which may start
such a loop, as a cancel of the aggregate does; and children join before anything is decided. -/
inductive Effect (s : State V E X) (op : Op V E X) (s' : State V E X) : Prop
  | quiet (dropped pushed base : List Frame) (hlen : dropped.length ≤ 1)
      (hdropped : ∀ f ∈ dropped, f.isLoop = false) (hpushed : ∀ f ∈ pushed, f.isLoop = false)
      (hstack : s.stack = dropped ++ base) (hstack' : s'.stack = pushed ++ base)
      (hsiblings : s'.siblings = s.siblings)
  | pop (n : Nat) (rest : List Frame) (hstack : s.stack = .cancelChildren n :: rest)
      (hend : n = 0 ∨ s.siblings = []) (hstack' : s'.stack = rest)
      (hsiblings : s'.siblings = s.siblings)
  | turn (n : Nat) (c : ChildId) (cs : List ChildId) (pushed rest : List Frame)
      (hop : op = .tick) (hstack : s.stack = .cancelChildren (n + 1) :: rest)
      (hhead : s.siblings = c :: cs) (hsiblings : s'.siblings = cs ++ [c])
      (hpushed : ∀ f ∈ pushed, f.isLoop = false)
      (hstack' : s'.stack = pushed ++ .cancelChildren n :: rest)
  | leave (c : ChildId) (dropped pushed base : List Frame) (hlen : dropped.length ≤ 1)
      (hdropped : ∀ f ∈ dropped, f.isLoop = false) (hpushed : ∀ f ∈ pushed, f.isLoop = false)
      (hstack : s.stack = dropped ++ base) (hmem : c ∈ s.siblings)
      (hsiblings : s'.siblings = s.siblings.erase c)
      (hended : ∃ how, (s'.child c).progress = .ended how)
      (hstack' : s'.stack = pushed ++ base ∨
        s'.stack = .cancelChildren s'.siblings.length :: (pushed ++ base) ∧ s'.decided = true)
  | loop (pushed : List Frame) (hstack' : s'.stack = .cancelChildren s'.siblings.length ::
        (pushed ++ s.stack)) (hpushed : ∀ f ∈ pushed, f.isLoop = false)
      (hdecided : s'.decided = true) (hsiblings : s'.siblings = s.siblings)
  | join (joining : List ChildId) (pushed : List Frame) (hfree : s.decided = false)
      (hpushed : ∀ f ∈ pushed, f.isLoop = false) (hstack' : s'.stack = pushed ++ s.stack)
      (hsiblings : s'.siblings = s.siblings ++ joining)

@[simp] theorem State.decide_siblings (s : State V E X) (d : Decision) :
    (s.decide d).siblings = s.siblings := by
  unfold State.decide
  split
  · split <;> rfl
  · rfl

theorem State.decide_stack (s : State V E X) {d : Decision} (hd : d ≠ .none) :
    (s.decide d).stack = s.stack ∨
      (s.decide d).stack = .cancelChildren s.siblings.length :: s.stack ∧
        (s.decide d).decided = true := by
  unfold State.decide
  split
  · split <;> exact .inl rfl
  · exact .inr ⟨rfl, by simp [State.push, State.decided, hd]⟩

/-- A child that ends leaves the list, and its end may start the loop. -/
theorem State.childCompleted_effect (cfg : Config) (s : State V E X) (c : ChildId)
    (how : End V E X) :
    (s.childCompleted cfg c how).siblings = s.siblings.erase c ∧
      ((s.childCompleted cfg c how).stack = .complete c :: s.stack ∨
        (s.childCompleted cfg c how).stack =
          .cancelChildren (s.siblings.erase c).length :: .complete c :: s.stack ∧
          (s.childCompleted cfg c how).decided = true) := by
  unfold State.childCompleted
  cases how with
  | threw x => exact ⟨State.decide_siblings _ _, State.decide_stack _ nofun⟩
  | failed e =>
    dsimp only
    unfold State.takeError
    split
    · exact ⟨State.decide_siblings _ _, State.decide_stack _ nofun⟩
    · exact ⟨State.decide_siblings _ _, State.decide_stack _ nofun⟩
  | cancelled =>
    dsimp only
    split
    · exact ⟨State.decide_siblings _ _, State.decide_stack _ nofun⟩
    · exact ⟨rfl, .inl rfl⟩
  | succeeded v =>
    dsimp only
    split
    · exact ⟨State.decide_siblings _ _, State.decide_stack _ nofun⟩
    · exact ⟨rfl, .inl rfl⟩

theorem State.childCompleted_ended (cfg : Config) (s : State V E X) (c : ChildId)
    (how : End V E X) : ((s.childCompleted cfg c how).child c).progress = .ended how := by
  rw [(s.childCompleted_bones cfg c how).progress, State.leave_child, if_pos rfl]

theorem State.settleIfIdle_effect (cfg : Config) (s : State V E X) :
    (s.settleIfIdle cfg).siblings = s.siblings ∧
      ∃ pushed, (∀ f ∈ pushed, f.isLoop = false ∧ f.isComplete = false) ∧
        (s.settleIfIdle cfg).stack = pushed ++ s.stack := by
  unfold State.settleIfIdle State.settle
  split
  · exact ⟨rfl, [], nofun, rfl⟩
  · dsimp only
    split
    · exact ⟨rfl, [.outside, .deliver s.settledState],
        by simp [Frame.isLoop, Frame.isComplete], rfl⟩
    · exact ⟨rfl, [], nofun, rfl⟩

theorem State.cancelChild_effect (s : State V E X) (c : ChildId) :
    (s.cancelChild c).siblings = s.siblings ∧
      ∃ pushed, (∀ f ∈ pushed, f.isLoop = false ∧ f.isComplete = false) ∧
        (s.cancelChild c).stack = pushed ++ s.stack := by
  unfold State.cancelChild
  split
  · exact ⟨rfl, [], nofun, rfl⟩
  · dsimp only
    split
    · exact ⟨rfl, [.outside], by simp [Frame.isLoop, Frame.isComplete], rfl⟩
    · exact ⟨rfl, [], nofun, rfl⟩

variable {t : State V E X} {op : Op V E X} {base rest pushed : List Frame} {d : ChildId}
  {l : List ChildId} {n : Nat} {p : State V E X × Links ChildId}

/-- The effect of a child's end, from a state with the same list above the same calls. -/
private theorem childCompleted_leave (how : End V E X) (dropped pushed : List Frame)
    (hlen : dropped.length ≤ 1) (hdropped : ∀ f ∈ dropped, f.isLoop = false)
    (hpushed : ∀ f ∈ pushed, f.isLoop = false) (hstack : s.stack = dropped ++ base)
    (ht : t.stack = pushed ++ base) (hsib : t.siblings = s.siblings) (hmem : c ∈ s.siblings) :
    Effect s op (t.childCompleted cfg c how) := by
  obtain ⟨hsiblings, hstack'⟩ := t.childCompleted_effect cfg c how
  rw [hsib] at hsiblings hstack'
  refine .leave c dropped (.complete c :: pushed) base hlen hdropped ?_ hstack hmem hsiblings
    ⟨how, t.childCompleted_ended cfg c how⟩ ?_
  · rintro f hf
    rcases List.mem_cons.mp hf with rfl | hf
    · rfl
    · exact hpushed f hf
  · rw [hsiblings]
    rwa [ht] at hstack'

theorem Invariant.tick_effect {frame : Frame} (h : Invariant cfg s) (hs : s.stack = frame :: rest)
    (ht : s.tick cfg frame rest = some s') : Effect s .tick s' := by
  obtain ⟨c, cs, rfl, rfl⟩ | ⟨ended, hf, -, -, rfl⟩ | ⟨n, rfl, rfl⟩ |
    ⟨n, c, cs, rfl, hsib, rfl⟩ | ⟨outcome, rfl, rfl⟩ := tick_cases ht
  · have hgiven : (s.child c).progress = .given := by
      rw [h.counted.given, hs]
      simp [Frame.toStart]
    have hmem : c ∈ s.siblings := (h.counted.siblings c).mpr (.inl hgiven)
    unfold State.start
    split
    · exact childCompleted_leave .cancelled [.arm (c :: cs)] [.arm cs] (le_refl 1)
        (by simp [Frame.isLoop]) (by simp [Frame.isLoop]) hs rfl rfl hmem
    · exact .quiet [.arm (c :: cs)] [.outside, .arm cs] rest (le_refl 1) (by simp [Frame.isLoop])
        (by simp [Frame.isLoop]) hs rfl rfl
  · have hloop : frame.isLoop = false := by
      cases frame <;> simp_all [Frame.isLoop, Frame.isComplete, Frame.isPin]
    obtain ⟨hsib, pushed, hpushed, hstack⟩ := State.settleIfIdle_effect cfg ({ s with
      stack := rest, pending := s.pending - 1, ended := ended } : State V E X)
    exact .quiet [frame] pushed rest (le_refl 1) (by simpa using hloop)
      (fun f hf => (hpushed f hf).1) hs hstack hsib
  · have hend : n = 0 ∨ s.siblings = [] := by
      cases n with
      | zero => exact .inl rfl
      | succ n =>
        cases hsib : s.siblings with
        | nil => exact .inr rfl
        | cons c cs =>
          simp only [State.tick, hsib, Option.some.injEq] at ht
          have hstack := congrArg State.stack ht
          obtain ⟨-, pushed, -, hpushed⟩ := State.cancelChild_effect ({ s with
            stack := .cancelChildren n :: rest, siblings := cs ++ [c] } : State V E X) c
          rw [hpushed] at hstack
          have hlen := congrArg List.length hstack
          simp only [List.length_append, List.length_cons] at hlen
          omega
    exact .pop n rest hs hend rfl rfl
  · obtain ⟨hsib', pushed, hpushed, hstack⟩ := State.cancelChild_effect ({ s with
      stack := .cancelChildren n :: rest, siblings := cs ++ [c] } : State V E X) c
    exact .turn n c cs pushed rest rfl hs hsib hsib' (fun f hf => (hpushed f hf).1) hstack
  · exact .quiet [.deliver outcome] [] rest (le_refl 1) (by simp [Frame.isLoop])
      (List.forall_mem_nil _) hs rfl rfl

/-- A cancel of the aggregate pins it and starts the loop. -/
private theorem cancelAll_effect (hsib : t.siblings = s.siblings) (hstack : t.stack = s.stack)
    (hd : t.decided = true) : Effect s op t.cancelAll := by
  refine .loop [.cancelAll] ?_ (by simp [Frame.isLoop]) hd hsib
  change Frame.cancelChildren t.siblings.length :: .cancelAll :: t.stack = _
  rw [hstack]
  rfl

private theorem idle_effect (hsib : s'.siblings = s.siblings) (hstack : s'.stack = s.stack) :
    Effect s op s' :=
  .quiet [] [] s.stack (by simp) nofun nofun rfl hstack hsib

theorem Invariant.effect (h : Invariant cfg s) (hs : Aggregate.step cfg s op = some s') :
    Effect s op s' := by
  cases op with
  | tick =>
    simp only [Aggregate.step] at hs
    split at hs
    · cases hs
    · next frame rest hstack => exact h.tick_effect hstack hs
  | ret =>
    simp only [Aggregate.step] at hs
    split at hs
    · next rest hstack =>
      cases hs
      exact .quiet [.outside] [] rest (le_refl 1) (by simp [Frame.isLoop])
        (List.forall_mem_nil _) hstack rfl rfl
    · cases hs
  | finish c how =>
    obtain ⟨⟨-, hr⟩, heq⟩ := Option.ite_none_right_eq_some.mp hs
    cases heq
    have hmem : c ∈ s.siblings := (h.counted.siblings c).mpr (.inr ((s.runs_iff c).mp hr))
    exact childCompleted_leave how [] [] (Nat.zero_le 1) (List.forall_mem_nil _)
      (List.forall_mem_nil _) rfl rfl rfl hmem
  | await waitingCancelled =>
    obtain ⟨⟨-, hk, hj, -⟩, heq⟩ := Option.ite_none_right_eq_some.mp hs
    cases heq
    unfold State.await
    split
    · exact idle_effect rfl rfl
    · split
      · exact idle_effect rfl rfl
      · have hnil := (h.counted.of_pending_zero (h.counted.unarmed hj hk)).1
        have hfree : s.decided = false := by
          rw [h.recorded.decided, h.roster.history hk hj]
          rfl
        refine .join cfg.tasks [.arm cfg.tasks] hfree (by simp [Frame.isLoop]) rfl ?_
        rw [hnil]
        rfl
  | cancel =>
    obtain ⟨-, heq⟩ := Option.ite_none_right_eq_some.mp hs
    cases heq
    unfold State.cancel
    split
    · exact idle_effect rfl rfl
    · exact cancelAll_effect rfl rfl (by simp [State.record, State.decided])
  | spawn c cancelled =>
    obtain ⟨⟨-, hk, hidle⟩, heq⟩ := Option.ite_none_right_eq_some.mp hs
    cases heq
    have hc : c ∉ s.siblings := by
      rw [h.counted.siblings, (s.idle_iff c).mp hidle]
      simp
    unfold State.spawn
    split
    · exact idle_effect rfl rfl
    · next hfree =>
      have hfree' : s.decided = false := by
        cases hd : s.decided with
        | false => rfl
        | true => simp [hd] at hfree
      dsimp only
      unfold State.start
      split
      · have herase : (s.siblings ++ [c]).erase c = s.siblings := by
          rw [List.erase_append_right _ hc, List.erase_cons_head, List.append_nil]
        refine .quiet [] [.complete c] s.stack (by simp) (List.forall_mem_nil _)
          (by simp [Frame.isLoop]) rfl ?_ ?_
        · simp only [State.childCompleted, hk]
          rfl
        · simp only [State.childCompleted, hk]
          exact herase
      · exact .join [c] [.outside] hfree' (by simp [Frame.isLoop]) rfl rfl
  | groupCancel =>
    obtain ⟨-, heq⟩ := Option.ite_none_right_eq_some.mp hs
    cases heq
    unfold State.groupCancel
    split
    · exact idle_effect rfl rfl
    · exact cancelAll_effect rfl rfl (by simp [State.record, State.decided])
  | join waitingCancelled =>
    obtain ⟨-, heq⟩ := Option.ite_none_right_eq_some.mp hs
    cases heq
    unfold State.join
    dsimp only
    split
    · unfold State.settle
      dsimp only
      split
      · exact .quiet [] [.outside, .deliver _] s.stack (by simp) (List.forall_mem_nil _)
          (by simp [Frame.isLoop]) rfl rfl rfl
      · exact idle_effect rfl rfl
    · split
      · exact cancelAll_effect rfl rfl (by simp [State.record, State.decided])
      · exact idle_effect rfl rfl
  | takeEnded =>
    obtain ⟨-, heq⟩ := Option.ite_none_right_eq_some.mp hs
    cases heq
    exact idle_effect rfl rfl

/-! ## What has happened -/

theorem State.decide_history (s : State V E X) (d : Decision) :
    (s.decide d).history = s.history := by
  unfold State.decide
  split
  · split <;> rfl
  · rfl

theorem State.childCompleted_history (cfg : Config) (s : State V E X) (c : ChildId)
    (how : End V E X) : (s.childCompleted cfg c how).history = s.history ++ [.ended c how] := by
  unfold State.childCompleted
  cases how with
  | threw x => exact State.decide_history _ _
  | failed e =>
    dsimp only
    unfold State.takeError
    split
    · exact State.decide_history _ _
    · exact State.decide_history _ _
  | cancelled =>
    dsimp only
    split
    · exact State.decide_history _ _
    · rfl
  | succeeded v =>
    dsimp only
    split
    · exact State.decide_history _ _
    · rfl

theorem State.start_history (cfg : Config) (s : State V E X) (c : ChildId) :
    s.history <+: (s.start cfg c).history := by
  unfold State.start
  split
  · rw [State.childCompleted_history]
    exact List.prefix_append _ _
  · exact List.prefix_refl _

/-- What has happened is never taken back. -/
theorem history_grows (hs : step cfg s op = some s') : s.history <+: s'.history := by
  obtain ⟨frame, rest, hstack, ht⟩ | ⟨rest, hstack, rfl⟩ | ⟨c, how, hr, rfl⟩ |
    ⟨waitingCancelled, hk, hj, rfl⟩ | ⟨ha, rfl⟩ | ⟨c, cancelled, hk, hi, rfl⟩ | ⟨hk, rfl⟩ |
    ⟨waitingCancelled, hk, hj, rfl⟩ | rfl := step_cases hs
  · obtain ⟨c, cs, rfl, rfl⟩ | ⟨ended, hf, -, -, rfl⟩ | ⟨n, rfl, rfl⟩ |
      ⟨n, c, cs, rfl, hsib, rfl⟩ | ⟨outcome, rfl, rfl⟩ := tick_cases ht
    · exact State.start_history cfg ({ s with stack := .arm cs :: rest } : State V E X) c
    · rw [(State.settleIfIdle_quiet _).history]
    · exact List.prefix_refl _
    · rw [(State.cancelChild_quiet _ c).history]
    · exact List.prefix_refl _
  · exact List.prefix_refl _
  · rw [State.childCompleted_history]
    exact List.prefix_append _ _
  · unfold State.await
    split
    · exact List.prefix_refl _
    · split <;> exact List.prefix_refl _
  · unfold State.cancel
    split
    · exact List.prefix_refl _
    · exact List.prefix_append _ _
  · unfold State.spawn
    split
    · exact List.prefix_refl _
    · refine List.IsPrefix.trans ?_ (State.start_history cfg _ c)
      exact List.prefix_refl _
  · unfold State.groupCancel
    split
    · exact List.prefix_refl _
    · exact List.prefix_append _ _
  · unfold State.join
    dsimp only
    split
    · rw [(State.settle_quiet _).history]
    · split
      · exact List.prefix_append _ _
      · exact List.prefix_refl _
  · exact List.prefix_refl _

/-- Decided once, an aggregate stays decided. -/
theorem Invariant.decided_step (h : Invariant cfg s) (hd : s.decided = true)
    (hs : Aggregate.step cfg s op = some s') : s'.decided = true := by
  rw [h.recorded.decided] at hd
  rw [(h.step hs).recorded.decided]
  obtain ⟨event, hmem, hdecides⟩ := List.any_eq_true.mp hd
  exact List.any_eq_true.mpr ⟨event, (history_grows hs).mem hmem, hdecides⟩

/-- A child that has ended. -/
def State.Ended (s : State V E X) (c : ChildId) : Prop := ∃ how, (s.child c).progress = .ended how

theorem Invariant.ended_step (h : Invariant cfg s) (hc : s.Ended c)
    (hs : Aggregate.step cfg s op = some s') : s'.Ended c := by
  obtain ⟨how, hhow⟩ := hc
  refine ⟨how, ((h.step hs).recorded.ended c how).mpr ?_⟩
  exact (history_grows hs).mem ((h.recorded.ended c how).mp hhow)

private theorem mem_of_not_complete (hpushed : ∀ f ∈ pushed, f.isComplete = false)
    (hmem : .complete c ∈ pushed ++ base) : .complete c ∈ base := by
  rcases List.mem_append.mp hmem with hp | hb
  · exact nomatch hpushed _ hp
  · exact hb

/-- An end under way is that of a child that ended. -/
private theorem childCompleted_complete (how : End V E X)
    (hmem : .complete c ∈ (t.childCompleted cfg d how).stack) :
    .complete c ∈ t.stack ∨ (t.childCompleted cfg d how).Ended c := by
  have hcases : c = d ∨ .complete c ∈ t.stack := by
    rcases (t.childCompleted_effect cfg d how).2 with hstack | ⟨hstack, -⟩
    · rw [hstack] at hmem
      simpa using hmem
    · rw [hstack] at hmem
      simpa using hmem
  rcases hcases with rfl | hin
  · exact .inr ⟨how, t.childCompleted_ended cfg c how⟩
  · exact .inl hin

private theorem start_complete (hmem : .complete c ∈ (t.start cfg d).stack) :
    .complete c ∈ t.stack ∨ (t.start cfg d).Ended c := by
  cases hcr : (t.child d).cancelRequested with
  | true =>
    have heq : t.start cfg d = t.childCompleted cfg d .cancelled := by
      rw [State.start, if_pos hcr]
    rw [heq] at hmem ⊢
    exact childCompleted_complete .cancelled hmem
  | false =>
    left
    rw [State.start, if_neg (by simp [hcr])] at hmem
    simpa [State.push, State.modifyChild] using hmem

theorem complete_step (hs : step cfg s op = some s') (hmem : .complete c ∈ s'.stack) :
    .complete c ∈ s.stack ∨ s'.Ended c := by
  obtain ⟨frame, rest, hstack, ht⟩ | ⟨rest, hstack, rfl⟩ | ⟨d, how, hr, rfl⟩ |
    ⟨waitingCancelled, hk, hj, rfl⟩ | ⟨ha, rfl⟩ | ⟨d, cancelled, hk, hi, rfl⟩ | ⟨hk, rfl⟩ |
    ⟨waitingCancelled, hk, hj, rfl⟩ | rfl := step_cases hs
  · obtain ⟨d, cs, rfl, rfl⟩ | ⟨ended, hf, -, -, rfl⟩ | ⟨n, rfl, rfl⟩ |
      ⟨n, d, cs, rfl, hsib, rfl⟩ | ⟨outcome, rfl, rfl⟩ := tick_cases ht
    · refine (start_complete hmem).imp_left fun hin => ?_
      rw [hstack]
      simpa using hin
    · obtain ⟨-, pushed, hpushed, hst⟩ := State.settleIfIdle_effect cfg ({ s with
        stack := rest, pending := s.pending - 1, ended := ended } : State V E X)
      rw [hst] at hmem
      have hin := mem_of_not_complete (fun f hf => (hpushed f hf).2) hmem
      exact .inl (hstack ▸ List.mem_cons_of_mem _ hin)
    · exact .inl (hstack ▸ List.mem_cons_of_mem _ hmem)
    · obtain ⟨-, pushed, hpushed, hst⟩ := State.cancelChild_effect ({ s with
        stack := .cancelChildren n :: rest, siblings := cs ++ [d] } : State V E X) d
      rw [hst] at hmem
      have hin := mem_of_not_complete (fun f hf => (hpushed f hf).2) hmem
      left
      rw [hstack]
      simpa using hin
    · exact .inl (hstack ▸ List.mem_cons_of_mem _ hmem)
  · exact .inl (hstack ▸ List.mem_cons_of_mem _ hmem)
  · exact childCompleted_complete how hmem
  · left
    unfold State.await at hmem
    split at hmem
    · exact hmem
    · split at hmem
      · exact hmem
      · simpa [State.push] using hmem
  · left
    unfold State.cancel at hmem
    split at hmem
    · exact hmem
    · simpa [State.cancelAll, State.push, State.record] using hmem
  · by_cases hfree : (s.decided || s.done) = true
    · rw [State.spawn, if_pos hfree] at hmem
      exact .inl hmem
    · rw [State.spawn, if_neg hfree] at hmem ⊢
      exact start_complete hmem
  · left
    unfold State.groupCancel at hmem
    split at hmem
    · exact hmem
    · simpa [State.cancelAll, State.push, State.record] using hmem
  · left
    unfold State.join State.settle at hmem
    simp only [hk, if_true] at hmem
    split at hmem
    · simpa [State.push] using hmem
    · split at hmem
      · simpa [State.cancelAll, State.push, State.record] using hmem
      · exact hmem
  · exact .inl hmem

/-! ## Nothing joins once the children are cancelled -/

/-- The loop runs only once the outcome is decided. -/
def Latched (s : State V E X) : Prop := ∀ f ∈ s.stack, f.isLoop = true → s.decided = true

theorem Invariant.siblings_step (h : Invariant cfg s) (hd : s.decided = true)
    (hs : Aggregate.step cfg s op = some s') : ∀ c ∈ s'.siblings, c ∈ s.siblings := by
  intro c hc
  cases h.effect hs with
  | quiet _ _ _ _ _ _ _ _ hsib => exact hsib ▸ hc
  | pop _ _ _ _ _ hsib => exact hsib ▸ hc
  | turn n d cs _ _ _ _ hhead hsib =>
    rw [hsib] at hc
    rw [hhead]
    simpa [or_comm] using hc
  | leave d _ _ _ _ _ _ _ _ hsib => exact List.mem_of_mem_erase (hsib ▸ hc)
  | loop _ _ _ _ hsib => exact hsib ▸ hc
  | join _ _ hfree => exact nomatch hd.symm.trans hfree

private theorem mem_of_nonloop {f : Frame} (hf : f.isLoop = true)
    (hpushed : ∀ f ∈ pushed, f.isLoop = false) (hmem : f ∈ pushed ++ base) : f ∈ base := by
  rcases List.mem_append.mp hmem with hp | hb
  · exact nomatch hf.symm.trans (hpushed f hp)
  · exact hb

theorem Invariant.latched_step (h : Invariant cfg s) (hl : Latched s)
    (hs : Aggregate.step cfg s op = some s') : Latched s' := by
  intro f hmem hf
  have hold : ∀ g ∈ s.stack, g.isLoop = true → s'.decided = true :=
    fun g hg hloop => h.decided_step (hl g hg hloop) hs
  cases h.effect hs with
  | quiet dropped pushed base _ _ hpushed hstack hstack' _ =>
    have hbase := mem_of_nonloop hf hpushed (hstack' ▸ hmem)
    exact hold f (hstack ▸ List.mem_append_right _ hbase) hf
  | pop n rest hstack _ hstack' _ => exact hold f (hstack ▸ List.mem_cons_of_mem _ (hstack' ▸ hmem)) hf
  | turn n d cs pushed rest _ hstack _ _ hpushed hstack' =>
    exact hold (.cancelChildren (n + 1)) (hstack ▸ List.mem_cons_self) rfl
  | leave d dropped pushed base _ _ hpushed hstack _ _ _ hstack' =>
    rcases hstack' with hstack' | ⟨-, hd⟩
    · have hbase := mem_of_nonloop hf hpushed (hstack' ▸ hmem)
      exact hold f (hstack ▸ List.mem_append_right _ hbase) hf
    · exact hd
  | loop _ _ _ hd _ => exact hd
  | join _ pushed _ hpushed hstack' _ =>
    exact hold f (mem_of_nonloop hf hpushed (hstack' ▸ hmem)) hf

/-! ## One call of `cancel_children` -/

/-- The turns that the innermost loop has left. -/
def turnsLeft : List Frame → Nat
  | [] => 0
  | .cancelChildren n :: _ => n
  | _ :: rest => turnsLeft rest

theorem turnsLeft_append (hpushed : ∀ f ∈ pushed, f.isLoop = false) (base : List Frame) :
    turnsLeft (pushed ++ base) = turnsLeft base := by
  induction pushed with
  | nil => rfl
  | cons f pushed ih =>
    have hrest := ih fun g hg => hpushed g (List.mem_cons_of_mem _ hg)
    have hf := hpushed f List.mem_cons_self
    cases f with
    | cancelChildren n => exact nomatch hf
    | arm | complete | cancelAll | deliver | outside => exact hrest

private theorem mem_take_erase {c d : ChildId} (hc : c ∈ l.take n) (hne : c ≠ d) :
    c ∈ (l.erase d).take n := by
  induction l generalizing n with
  | nil => simp at hc
  | cons x l ih =>
    cases n with
    | zero => simp at hc
    | succ n =>
      rw [List.take_succ_cons] at hc
      by_cases hxd : x = d
      · rw [hxd, List.erase_cons_head]
        rcases List.mem_cons.mp hc with hcx | hmem
        · exact absurd (hcx.trans hxd) hne
        · exact List.take_subset_take_left l (Nat.le_succ n) hmem
      · rw [List.erase_cons_tail (by simpa using hxd), List.take_succ_cons]
        rcases List.mem_cons.mp hc with rfl | hmem
        · exact List.mem_cons_self
        · exact List.mem_cons_of_mem _ (ih hmem)

/-- A child ahead of the turns left is cancelled by this step, or has ended after it, or is still
ahead of the turns left. -/
theorem Invariant.ahead_step (h : Invariant cfg s) (hs : Aggregate.step cfg s op = some s')
    (hc : c ∈ s.siblings.take (turnsLeft s.stack)) :
    askedBy s op = some c ∨ s'.Ended c ∨ c ∈ s'.siblings.take (turnsLeft s'.stack) := by
  cases h.effect hs with
  | quiet dropped pushed base _ hdropped hpushed hstack hstack' hsib =>
    rw [hstack, turnsLeft_append hdropped] at hc
    rw [hsib, hstack', turnsLeft_append hpushed]
    exact .inr (.inr hc)
  | pop n rest hstack hend hstack' hsib =>
    rw [hstack] at hc
    rcases hend with rfl | hnil
    · simp [turnsLeft] at hc
    · simp [hnil] at hc
  | turn n d cs pushed rest hop hstack hhead hsib hpushed hstack' =>
    rw [hhead, hstack] at hc
    change c ∈ (d :: cs).take (n + 1) at hc
    rw [List.take_succ_cons] at hc
    rcases List.mem_cons.mp hc with rfl | hmem
    · exact .inl (by simp only [askedBy, hop, hstack, hhead])
    · rw [hsib, hstack', turnsLeft_append hpushed]
      refine .inr (.inr ?_)
      change c ∈ (cs ++ [d]).take n
      rw [List.take_append]
      exact List.mem_append_left _ hmem
  | leave d dropped pushed base _ hdropped hpushed hstack hmem hsib hended hstack' =>
    by_cases hcd : c = d
    · exact .inr (.inl (hcd ▸ hended))
    · refine .inr (.inr ?_)
      rcases hstack' with hstack' | ⟨hstack', -⟩
      · rw [hstack, turnsLeft_append hdropped] at hc
        rw [hsib, hstack', turnsLeft_append hpushed]
        exact mem_take_erase hc hcd
      · rw [hstack', turnsLeft, List.take_length, hsib]
        exact (List.mem_erase_of_ne hcd).mpr (List.mem_of_mem_take hc)
  | loop pushed hstack' _ _ hsib =>
    rw [hstack', turnsLeft, List.take_length, hsib]
    exact .inr (.inr (List.mem_of_mem_take hc))
  | join joining pushed _ hpushed hstack' hsib =>
    rw [hsib, hstack', turnsLeft_append hpushed, List.take_append]
    exact .inr (.inr (List.mem_append_left _ hc))

/-- A call of `cancel_children` under way: the children its own loop has cancelled, those that
loops inside it have, and the state. -/
structure Call (V E X : Type) where
  own : List ChildId := []
  nested : List ChildId := []
  state : State V E X

/-- One step inside a call above `depth` others; `none` where the call returns. -/
def callStep (cfg : Config) (depth : Nat) (k : Call V E X) (op : Op V E X) :
    Option (Call V E X) :=
  (step cfg k.state op).bind fun s' =>
    if depth < s'.stack.length then
      if k.state.stack.length = depth + 1 then
        some { k with own := k.own ++ (askedBy k.state op).toList, state := s' }
      else some { k with nested := k.nested ++ (askedBy k.state op).toList, state := s' }
    else none

/-- What holds inside a call that began in `s₀` above the calls of `rest`. -/
structure Underway (cfg : Config) (s₀ : State V E X) (rest : List Frame) (k : Call V E X) :
    Prop where
  invariant : Invariant cfg k.state
  stack : ∃ above n, k.state.stack = above ++ .cancelChildren n :: rest ∧
    k.own.length + n = s₀.siblings.length
  covered : ∀ c ∈ s₀.siblings, c ∈ k.own ∨ c ∈ k.nested ∨ k.state.Ended c ∨
    c ∈ k.state.siblings.take (turnsLeft k.state.stack)

theorem underway_begins (h : Invariant cfg s)
    (hs : s.stack = .cancelChildren s.siblings.length :: rest) :
    Underway cfg s rest { state := s } where
  invariant := h
  stack := ⟨[], s.siblings.length, hs, Nat.zero_add _⟩
  covered c hc := by
    refine .inr (.inr (.inr ?_))
    change c ∈ s.siblings.take (turnsLeft s.stack)
    rwa [hs, turnsLeft, List.take_length]

/-- A turn of the loop on top. -/
theorem asked_step (hs : step cfg s op = some s') (hc : askedBy s op = some c) :
    ∃ n pushed rest, s.stack = .cancelChildren (n + 1) :: rest ∧
      s'.stack = pushed ++ .cancelChildren n :: rest := by
  unfold askedBy at hc
  split at hc
  · next n rest d cs hstack hsib =>
    simp only [step, hstack, State.tick, hsib, Option.some.injEq] at hs
    obtain ⟨-, pushed, -, hpushed⟩ := State.cancelChild_effect ({ s with
      stack := .cancelChildren n :: rest, siblings := cs ++ [d] } : State V E X) d
    exact ⟨n, pushed, rest, hstack, hs ▸ hpushed⟩
  · cases hc

/-- Where a call is taken off the stack, the rest of it stays. -/
private theorem stack_cut {dropped base above rest : List Frame} (hlen : dropped.length ≤ 1)
    (hdropped : ∀ f ∈ dropped, f.isLoop = false)
    (h : dropped ++ base = above ++ .cancelChildren n :: rest) :
    ∃ above', base = above' ++ .cancelChildren n :: rest := by
  cases dropped with
  | nil => exact ⟨above, h⟩
  | cons f dropped =>
    obtain rfl : dropped = [] := List.length_eq_zero_iff.mp (by simpa using hlen)
    cases above with
    | nil =>
      obtain ⟨rfl, -⟩ := List.cons.inj h
      exact nomatch hdropped _ List.mem_cons_self
    | cons g above =>
      obtain ⟨-, htail⟩ := List.cons.inj h
      exact ⟨above, htail⟩

/-- A step that is no turn keeps the frame of a call, unless the loop of that call ends. -/
theorem Invariant.stack_step {above rest : List Frame} (h : Invariant cfg s)
    (hs : Aggregate.step cfg s op = some s') (hstack : s.stack = above ++ .cancelChildren n :: rest)
    (hask : askedBy s op = none) :
    (∃ above', s'.stack = above' ++ .cancelChildren n :: rest) ∨
      (above = [] ∧ s'.stack = rest ∧ s.siblings.take n = []) := by
  cases h.effect hs with
  | quiet dropped pushed base hlen hdropped _ hst hst' _ =>
    obtain ⟨above', rfl⟩ := stack_cut hlen hdropped (hst.symm.trans hstack)
    exact .inl ⟨pushed ++ above', by rw [hst', List.append_assoc]⟩
  | pop m below hst hend hst' _ =>
    cases above with
    | nil =>
      obtain ⟨hm, rfl⟩ := List.cons.inj (hst.symm.trans hstack)
      obtain rfl := Frame.cancelChildren.inj hm
      refine .inr ⟨rfl, hst', ?_⟩
      rcases hend with rfl | hnil
      · rfl
      · rw [hnil, List.take_nil]
    | cons f above =>
      obtain ⟨-, rfl⟩ := List.cons.inj (hst.symm.trans hstack)
      exact .inl ⟨above, hst'⟩
  | turn m d cs _ _ hop hst hhead => simp [askedBy, hop, hst, hhead] at hask
  | leave d dropped pushed base hlen hdropped _ hst _ _ _ hst' =>
    obtain ⟨above', rfl⟩ := stack_cut hlen hdropped (hst.symm.trans hstack)
    rcases hst' with hst' | ⟨hst', -⟩
    · exact .inl ⟨pushed ++ above', by rw [hst', List.append_assoc]⟩
    · refine .inl ⟨.cancelChildren s'.siblings.length :: (pushed ++ above'), ?_⟩
      rw [hst', ← List.append_assoc]
      rfl
  | loop pushed hst' _ _ _ =>
    refine .inl ⟨.cancelChildren s'.siblings.length :: (pushed ++ above), ?_⟩
    rw [hst', hstack, ← List.append_assoc]
    rfl
  | join _ pushed _ _ hst' _ =>
    exact .inl ⟨pushed ++ above, by rw [hst', hstack, List.append_assoc]⟩

theorem Underway.step {s₀ : State V E X} {k k' : Call V E X} (h : Underway cfg s₀ rest k)
    (hs : callStep cfg rest.length k op = some k') : Underway cfg s₀ rest k' := by
  obtain ⟨s', hstep, hs⟩ := Option.bind_eq_some_iff.mp hs
  obtain ⟨hdeep, hs⟩ := Option.ite_none_right_eq_some.mp hs
  obtain ⟨above, n, hstack, hcount⟩ := h.stack
  have hcovered : ∀ c ∈ s₀.siblings, (c ∈ k.own ∨ c ∈ k.nested) ∨ askedBy k.state op = some c ∨
      s'.Ended c ∨ c ∈ s'.siblings.take (turnsLeft s'.stack) := by
    intro c hc
    rcases h.covered c hc with hown | hnested | hended | hahead
    · exact .inl (.inl hown)
    · exact .inl (.inr hnested)
    · exact .inr (.inr (.inl (h.invariant.ended_step hended hstep)))
    · exact .inr (h.invariant.ahead_step hstep hahead)
  have hinv := h.invariant.step hstep
  cases hask : askedBy k.state op with
  | none =>
    have hkept : ∃ above', s'.stack = above' ++ .cancelChildren n :: rest := by
      rcases h.invariant.stack_step hstep hstack hask with hkept | ⟨-, hrest, -⟩
      · exact hkept
      · exact absurd hdeep (by rw [hrest]; exact Nat.lt_irrefl _)
    obtain ⟨above', hstack'⟩ := hkept
    rw [hask, Option.toList_none, List.append_nil, List.append_nil] at hs
    have hs' : some { k with state := s' } = some k' := by
      rw [← hs]
      split <;> rfl
    cases hs'
    refine ⟨hinv, ⟨above', n, hstack', hcount⟩, fun c hc => ?_⟩
    rcases hcovered c hc with (hown | hnested) | hnew | hrest
    · exact .inl hown
    · exact .inr (.inl hnested)
    · exact nomatch hask.symm.trans hnew
    · exact .inr (.inr hrest)
  | some d =>
    obtain ⟨m, pushed, below, htop, hstack'⟩ := asked_step hstep hask
    rw [hask, Option.toList_some] at hs
    have hd : ∀ c, askedBy k.state op = some c → c = d :=
      fun c hc => Option.some.inj (hc.symm.trans hask)
    cases above with
    | nil =>
      obtain ⟨hm, rfl⟩ := List.cons.inj (htop.symm.trans hstack)
      obtain rfl := Frame.cancelChildren.inj hm
      have hlen : k.state.stack.length = below.length + 1 := by rw [htop, List.length_cons]
      rw [if_pos hlen] at hs
      cases hs
      refine ⟨hinv, ⟨pushed, m, hstack', ?_⟩, fun c hc => ?_⟩
      · simp only [List.length_append, List.length_singleton]
        omega
      · rcases hcovered c hc with (hown | hnested) | hnew | hrest
        · exact .inl (List.mem_append_left _ hown)
        · exact .inr (.inl hnested)
        · exact .inl (List.mem_append_right _ (by rw [hd c hnew]; exact List.mem_singleton_self d))
        · exact .inr (.inr hrest)
    | cons f above =>
      have hbelow : below = above ++ .cancelChildren n :: rest :=
        (List.cons.inj (htop.symm.trans hstack)).2
      subst hbelow
      have hlen : ¬k.state.stack.length = rest.length + 1 := by
        rw [htop]
        simp only [List.length_cons, List.length_append]
        omega
      rw [if_neg hlen] at hs
      cases hs
      refine ⟨hinv, ⟨pushed ++ .cancelChildren m :: above, n, ?_, hcount⟩, fun c hc => ?_⟩
      · rw [hstack', List.append_assoc]
        rfl
      · rcases hcovered c hc with (hown | hnested) | hnew | hrest
        · exact .inl hown
        · exact .inr (.inl (List.mem_append_left _ hnested))
        · refine .inr (.inl (List.mem_append_right _ ?_))
          rw [hd c hnew]
          exact List.mem_singleton_self d
        · exact .inr (.inr hrest)

/-- When a call returns, the children of its start have been cancelled by it, or by a loop inside
it, or have ended. -/
theorem Underway.returns {s₀ : State V E X} {k : Call V E X} (h : Underway cfg s₀ rest k)
    (hs : Aggregate.step cfg k.state op = some s') (hdepth : s'.stack.length ≤ rest.length) :
    s'.stack = rest ∧ ∀ c ∈ s₀.siblings, c ∈ k.own ∨ c ∈ k.nested ∨ s'.Ended c := by
  obtain ⟨above, n, hstack, -⟩ := h.stack
  cases hask : askedBy k.state op with
  | some d =>
    obtain ⟨m, pushed, below, htop, hstack'⟩ := asked_step hs hask
    rw [hstack', List.length_append, List.length_cons] at hdepth
    have hlen := congrArg List.length (htop.symm.trans hstack)
    simp only [List.length_append, List.length_cons] at hlen
    omega
  | none =>
    rcases h.invariant.stack_step hs hstack hask with ⟨above', hkept⟩ | ⟨rfl, hrest, hnone⟩
    · rw [hkept, List.length_append, List.length_cons] at hdepth
      omega
    · refine ⟨hrest, fun c hc => ?_⟩
      rcases h.covered c hc with hown | hnested | hended | hahead
      · exact .inl hown
      · exact .inr (.inl hnested)
      · exact .inr (.inr (h.invariant.ended_step hended hs))
      · rw [hstack] at hahead
        change c ∈ k.state.siblings.take n at hahead
        rw [hnone] at hahead
        exact nomatch hahead

/-! ## The links -/

/-- What the code does to a child's links: `link`, `unlink`, and the end of a group's child, whose
`next_sibling` then names the one that ended before it. -/
inductive Edit where
  | link (c : ChildId)
  | unlink (c : ChildId)
  | thread (c : ChildId) (next : Option ChildId)
deriving DecidableEq, Repr

def Edit.apply (links : Links ChildId) : Edit → Links ChildId
  | .link c => links.link c
  | .unlink c => links.unlink c
  | .thread c next => links.setNext (some c) next

/-- What an edit makes of the list. -/
def Edit.onList (l : List ChildId) : Edit → List ChildId
  | .link c => l ++ [c]
  | .unlink c => l.erase c
  | .thread _ _ => l

/-- A child is linked where it is not on the list, and unlinked where it is. -/
def Edit.Fits (l : List ChildId) : Edit → Prop
  | .link c => c ∉ l
  | .unlink c => c ∈ l
  | .thread c _ => c ∉ l

/-- Edits that fit one after the other. -/
def EditsFit : List ChildId → List Edit → Prop
  | _, [] => True
  | l, e :: es => e.Fits l ∧ EditsFit (e.onList l) es

theorem Edit.Fits.spells {links : Links ChildId} {e : Edit} (he : e.Fits l) (h : links.Spells l) :
    (e.apply links).Spells (e.onList l) := by
  cases e with
  | link c => exact h.link he
  | unlink c => exact h.unlink_erase he
  | thread c next => exact h.setNext_of_notMem he next

/-- The links follow the list through every edit. -/
theorem EditsFit.spells {links : Links ChildId} {es : List Edit} (hes : EditsFit l es)
    (h : links.Spells l) (k : Nat) :
    ((es.take k).foldl Edit.apply links).Spells ((es.take k).foldl Edit.onList l) := by
  induction es generalizing links l k with
  | nil => simpa using h
  | cons e es ih =>
    cases k with
    | zero => simpa using h
    | succ k =>
      rw [List.take_succ_cons, List.foldl_cons, List.foldl_cons]
      exact ih hes.2 (hes.1.spells h) k

/-- The edits of a step, with the head that the code reads. -/
def edits (cfg : Config) (s : State V E X) (head : Option ChildId) : Op V E X → List Edit
  | .tick =>
    match s.stack with
    | .arm (c :: _) :: _ => if (s.child c).cancelRequested then [.unlink c] else []
    | .cancelChildren (_ + 1) :: _ => head.elim [] fun c => [.unlink c, .link c]
    | .complete c :: _ => if cfg.kind = .taskGroup then [.thread c s.ended.head?] else []
    | _ => []
  | .finish c _ => [.unlink c]
  | .await waitingCancelled => if waitingCancelled then [] else cfg.tasks.map .link
  | .spawn c cancelled =>
    if s.decided || s.done then [] else if cancelled then [.link c, .unlink c] else [.link c]
  | _ => []

/-- One step of an aggregate together with its links. -/
def linkedStep (cfg : Config) (p : State V E X × Links ChildId) (op : Op V E X) :
    Option (State V E X × Links ChildId) :=
  (step cfg p.1 op).map fun s' => (s', (edits cfg p.1 p.2.head op).foldl Edit.apply p.2)

/-- The states and links that some run leads to. -/
def LinkedReachable (cfg : Config) (p : State V E X × Links ChildId) : Prop :=
  ∃ cancelled, Reach (linkedStep cfg) (fresh cancelled, {}) p

/-- Every end under way is that of a child that ended. -/
def Ending (s : State V E X) : Prop := ∀ c, .complete c ∈ s.stack → s.Ended c

theorem Invariant.ending_step (h : Invariant cfg s) (he : Ending s)
    (hs : Aggregate.step cfg s op = some s') : Ending s' := by
  intro c hc
  rcases complete_step hs hc with hold | hended
  · exact h.ended_step (he c hold) hs
  · exact hended

theorem Invariant.notMem_of_ended (h : Invariant cfg s) (hc : s.Ended c) : c ∉ s.siblings := by
  obtain ⟨how, hhow⟩ := hc
  rw [h.counted.siblings, hhow]
  simp

private theorem editsFit_unlink (hc : c ∈ l) : EditsFit l [.unlink c] :=
  ⟨hc, trivial⟩

/-- The children of `when_all` and `when_any` are linked one after the other. -/
private theorem editsFit_links {l cs : List ChildId} (h : (l ++ cs).Nodup) :
    EditsFit l (cs.map .link) ∧ (cs.map Edit.link).foldl Edit.onList l = l ++ cs := by
  induction cs generalizing l with
  | nil => exact ⟨trivial, (List.append_nil l).symm⟩
  | cons c cs ih =>
    have hcut : l ++ c :: cs = l ++ [c] ++ cs := by simp
    obtain ⟨hfit, hfold⟩ := ih (hcut ▸ h)
    refine ⟨⟨?_, hfit⟩, ?_⟩
    · exact fun hc => (List.nodup_append.mp h).2.2 c hc c List.mem_cons_self rfl
    · rw [hcut, ← hfold]
      rfl

/-- A child that starts without running leaves the list again. -/
private theorem start_siblings (cfg : Config) (t : State V E X) (d : ChildId) :
    (t.start cfg d).siblings =
      if (t.child d).cancelRequested then t.siblings.erase d else t.siblings := by
  unfold State.start
  split
  · exact (t.childCompleted_effect cfg d .cancelled).1
  · rfl

theorem Invariant.edits_tick {frame : Frame} (h : Invariant cfg s) (he : Ending s)
    (hs : s.stack = frame :: rest) (ht : s.tick cfg frame rest = some s') :
    EditsFit s.siblings (edits cfg s s.siblings.head? .tick) ∧
      (edits cfg s s.siblings.head? .tick).foldl Edit.onList s.siblings = s'.siblings := by
  cases frame with
  | arm todo =>
    cases todo with
    | nil =>
      cases ht
      rw [(State.settleIfIdle_effect cfg _).1]
      simp only [edits, hs]
      exact ⟨trivial, rfl⟩
    | cons c cs =>
      cases ht
      have hgiven : (s.child c).progress = .given := by
        rw [h.counted.given, hs]
        simp [Frame.toStart]
      have hmem : c ∈ s.siblings := (h.counted.siblings c).mpr (.inl hgiven)
      rw [start_siblings]
      simp only [edits, hs]
      split
      · exact ⟨editsFit_unlink hmem, rfl⟩
      · exact ⟨trivial, rfl⟩
  | complete c =>
    have hc : c ∉ s.siblings := h.notMem_of_ended (he c (hs ▸ List.mem_cons_self))
    simp only [State.tick, Option.some.injEq] at ht
    have hsib : s'.siblings = s.siblings := by
      rw [← ht]
      refine (State.settleIfIdle_effect cfg _).1.trans ?_
      dsimp only
      split <;> rfl
    rw [hsib]
    simp only [edits, hs]
    split
    · exact ⟨⟨hc, trivial⟩, rfl⟩
    · exact ⟨trivial, rfl⟩
  | cancelChildren n =>
    cases n with
    | zero =>
      cases ht
      simp only [edits, hs]
      exact ⟨trivial, rfl⟩
    | succ n =>
      cases hsib : s.siblings with
      | nil =>
        simp only [State.tick, hsib, Option.some.injEq] at ht
        obtain rfl := ht
        simp only [edits, hs]
        exact ⟨trivial, rfl⟩
      | cons c cs =>
        simp only [State.tick, hsib, Option.some.injEq] at ht
        obtain rfl := ht
        have hnodup : c ∉ cs := by
          have := h.counted.nodup
          rw [hsib] at this
          exact (List.nodup_cons.mp this).1
        rw [(State.cancelChild_effect _ c).1]
        simp only [edits, hs, List.head?_cons, Option.elim_some]
        refine ⟨⟨List.mem_cons_self, ?_, trivial⟩, ?_⟩
        · change c ∉ (c :: cs).erase c
          rwa [List.erase_cons_head]
        · change (c :: cs).erase c ++ [c] = cs ++ [c]
          rw [List.erase_cons_head]
  | cancelAll =>
    cases ht
    rw [(State.settleIfIdle_effect cfg _).1]
    simp only [edits, hs]
    exact ⟨trivial, rfl⟩
  | deliver outcome =>
    cases ht
    simp only [edits, hs]
    exact ⟨trivial, rfl⟩
  | outside => cases ht

/-- The edits of a step fit the list, and make of it the list of the next state. -/
theorem Invariant.edits_step (h : Invariant cfg s) (he : Ending s)
    (hs : Aggregate.step cfg s op = some s') :
    EditsFit s.siblings (edits cfg s s.siblings.head? op) ∧
      (edits cfg s s.siblings.head? op).foldl Edit.onList s.siblings = s'.siblings := by
  cases op with
  | tick =>
    simp only [Aggregate.step] at hs
    split at hs
    · cases hs
    · next frame rest hstack => exact h.edits_tick he hstack hs
  | ret =>
    simp only [Aggregate.step] at hs
    split at hs
    · cases hs
      exact ⟨trivial, rfl⟩
    · cases hs
  | finish c how =>
    obtain ⟨⟨-, hr⟩, heq⟩ := Option.ite_none_right_eq_some.mp hs
    cases heq
    have hmem : c ∈ s.siblings := (h.counted.siblings c).mpr (.inr ((s.runs_iff c).mp hr))
    exact ⟨editsFit_unlink hmem, (s.childCompleted_effect cfg c how).1.symm⟩
  | await waitingCancelled =>
    obtain ⟨⟨-, hk, hj, -⟩, heq⟩ := Option.ite_none_right_eq_some.mp hs
    cases heq
    have hnil := (h.counted.of_pending_zero (h.counted.unarmed hj hk)).1
    obtain ⟨hfit, hfold⟩ := editsFit_links (l := []) cfg.nodup
    simp only [edits, hnil]
    unfold State.await
    cases waitingCancelled with
    | true =>
      simp only [if_true]
      split
      · exact ⟨trivial, hnil.symm⟩
      · exact ⟨trivial, hnil.symm⟩
    | false =>
      simp only [Bool.false_eq_true, if_false]
      split
      · next htasks =>
        rw [htasks]
        exact ⟨trivial, hnil.symm⟩
      · exact ⟨hfit, hfold⟩
  | cancel =>
    obtain ⟨-, heq⟩ := Option.ite_none_right_eq_some.mp hs
    cases heq
    unfold State.cancel
    split <;> exact ⟨trivial, rfl⟩
  | spawn c cancelled =>
    obtain ⟨⟨-, hk, hidle⟩, heq⟩ := Option.ite_none_right_eq_some.mp hs
    cases heq
    have hc : c ∉ s.siblings := by
      rw [h.counted.siblings, (s.idle_iff c).mp hidle]
      simp
    by_cases hfree : (s.decided || s.done) = true
    · simp only [edits, if_pos hfree, State.spawn]
      exact ⟨trivial, rfl⟩
    · rw [State.spawn, if_neg hfree, start_siblings]
      simp only [edits, if_neg hfree, State.modifyChild_child, if_true]
      cases cancelled with
      | true => exact ⟨⟨hc, by simp [Edit.onList, Edit.Fits], trivial⟩, rfl⟩
      | false => exact ⟨⟨hc, trivial⟩, rfl⟩
  | groupCancel =>
    obtain ⟨-, heq⟩ := Option.ite_none_right_eq_some.mp hs
    cases heq
    unfold State.groupCancel
    split <;> exact ⟨trivial, rfl⟩
  | join waitingCancelled =>
    obtain ⟨⟨-, hk, -⟩, heq⟩ := Option.ite_none_right_eq_some.mp hs
    cases heq
    unfold State.join State.settle
    simp only [hk, if_true]
    split
    · exact ⟨trivial, rfl⟩
    · split <;> exact ⟨trivial, rfl⟩
  | takeEnded =>
    obtain ⟨-, heq⟩ := Option.ite_none_right_eq_some.mp hs
    cases heq
    exact ⟨trivial, rfl⟩

/-- What holds of an aggregate and its links between the steps. -/
structure Linked (cfg : Config) (p : State V E X × Links ChildId) : Prop where
  invariant : Invariant cfg p.1
  latched : Latched p.1
  ending : Ending p.1
  spells : p.2.Spells p.1.siblings

theorem Linked.spells_edits {p : State V E X × Links ChildId} {op : Op V E X} (h : Linked cfg p)
    (hs : Aggregate.step cfg p.1 op = some s') (k : Nat) :
    (((edits cfg p.1 p.2.head op).take k).foldl Edit.apply p.2).Spells
      (((edits cfg p.1 p.2.head op).take k).foldl Edit.onList p.1.siblings) := by
  rw [h.spells.head]
  exact (h.invariant.edits_step h.ending hs).1.spells h.spells k

theorem Linked.step {p p' : State V E X × Links ChildId} (h : Linked cfg p)
    (hs : linkedStep cfg p op = some p') : Linked cfg p' := by
  obtain ⟨s', hstep, rfl⟩ := Option.map_eq_some_iff.mp hs
  refine ⟨h.invariant.step hstep, h.invariant.latched_step h.latched hstep,
    h.invariant.ending_step h.ending hstep, ?_⟩
  have hspells := h.spells_edits hstep (edits cfg p.1 p.2.head op).length
  rw [List.take_length] at hspells
  rw [h.spells.head, (h.invariant.edits_step h.ending hstep).2] at hspells
  change ((edits cfg p.1 p.2.head op).foldl Edit.apply p.2).Spells s'.siblings
  rwa [h.spells.head]

theorem LinkedReachable.linked (h : LinkedReachable cfg p) : Linked cfg p := by
  obtain ⟨cancelled, hr⟩ := h
  refine hr.invariant Linked.step ⟨?_, ?_, ?_, Links.spells_nil⟩
  · exact ⟨counts_fresh cfg cancelled, recorded_fresh cfg cancelled, roster_fresh cfg cancelled,
      delivered_fresh cfg cancelled⟩
  · intro f hf
    cases hf
  · intro c hc
    cases hc

/-- Once the loop has run, no child joins. -/
theorem Linked.siblings_subset (h : Linked cfg p) (hloop : ∃ f ∈ p.1.stack, f.isLoop = true)
    (hr : Reach (Aggregate.step cfg) p.1 t) : ∀ c ∈ t.siblings, c ∈ p.1.siblings := by
  obtain ⟨f, hf, hl⟩ := hloop
  have hkept : Invariant cfg t ∧ t.decided = true ∧ ∀ c ∈ t.siblings, c ∈ p.1.siblings := by
    refine hr.invariant (I := fun t : State V E X =>
      Invariant cfg t ∧ t.decided = true ∧ ∀ c ∈ t.siblings, c ∈ p.1.siblings) ?_
      ⟨h.invariant, h.latched f hf hl, fun _ hc => hc⟩
    rintro s s' op ⟨hi, hd, hsub⟩ hs
    exact ⟨hi.step hs, hi.decided_step hd hs,
      fun c hc => hsub c (hi.siblings_step hd hs c hc)⟩
  exact hkept.2.2

/-- The list of siblings is well formed after every step and every edit of its links; only
children that have not ended are cancelled; and none joins once they are being cancelled. A call
of `cancel_children` takes at most as many turns as there are children when it starts, each of
them possible, and when it returns each of those children was cancelled by it or by such a call
inside it, or has ended. -/
theorem LinkedReachable.cancelChildren {p : State V E X × Links ChildId}
    (h : LinkedReachable cfg p) :
    p.2.Spells p.1.siblings ∧
    (∀ op s', step cfg p.1 op = some s' → ∀ k, ∃ l,
      (((edits cfg p.1 p.2.head op).take k).foldl Edit.apply p.2).Spells l) ∧
    (∀ op c, askedBy p.1 op = some c → c ∈ p.1.siblings ∧ ¬p.1.Ended c) ∧
    ((∃ f ∈ p.1.stack, f.isLoop = true) → ∀ t, Reach (step cfg) p.1 t →
      ∀ c ∈ t.siblings, c ∈ p.1.siblings) ∧
    ∀ rest, p.1.stack = .cancelChildren p.1.siblings.length :: rest →
      ∀ k, Reach (callStep cfg rest.length) { state := p.1 } k →
        (∃ above n, k.state.stack = above ++ .cancelChildren n :: rest ∧
          k.own.length + n = p.1.siblings.length ∧
          (above = [] → (step cfg k.state .tick).isSome = true)) ∧
        ∀ op s', step cfg k.state op = some s' → s'.stack.length ≤ rest.length →
          s'.stack = rest ∧ ∀ c ∈ p.1.siblings, c ∈ k.own ∨ c ∈ k.nested ∨ s'.Ended c := by
  have hl := h.linked
  refine ⟨hl.spells, fun op s' hs k => ⟨_, hl.spells_edits hs k⟩, ?_,
    fun hloop t => hl.siblings_subset hloop, ?_⟩
  · intro op c hask
    have hmem : c ∈ p.1.siblings := by
      unfold askedBy at hask
      split at hask
      · next n rest d cs hstack hsib =>
        cases hask
        rw [hsib]
        exact List.mem_cons_self
      · cases hask
    exact ⟨hmem, fun hended => hl.invariant.notMem_of_ended hended hmem⟩
  · intro rest hstack k hk
    have hunder : Underway cfg p.1 rest k :=
      hk.invariant Underway.step (underway_begins hl.invariant hstack)
    refine ⟨?_, fun op s' hs hdepth => hunder.returns hs hdepth⟩
    obtain ⟨above, n, hst, hcount⟩ := hunder.stack
    refine ⟨above, n, hst, hcount, ?_⟩
    rintro rfl
    rw [List.nil_append] at hst
    cases n with
    | zero => simp [step, hst, State.tick]
    | succ n =>
      cases hsib : k.state.siblings with
      | nil => simp [step, hst, State.tick, hsib]
      | cons c cs => simp [step, hst, State.tick, hsib]

/-! ## A loop inside the loop -/

private def group : Config where
  kind := .taskGroup
  tasks := []
  intercept := false
  nodup := List.nodup_nil
  ne_nil := nofun
  group := fun _ => rfl

/-- Three children of a group are cancelled. -/
private def cancelGroup : List (Op Nat Nat Nat) :=
  [.spawn 0 false, .ret, .spawn 1 false, .ret, .spawn 2 false, .ret, .join false, .groupCancel]

/-- The second child, when it is cancelled, cancels the task that waits for the group; of the
loop that this starts, the first cancel ends the first child. -/
private def cancelInside : List (Op Nat Nat Nat) :=
  [.tick, .ret, .tick, .cancel, .tick, .finish 0 .cancelled, .tick, .ret, .tick, .tick, .tick,
    .tick, .ret, .tick]

private def grouped : State Nat Nat Nat × Links ChildId :=
  (run (linkedStep group) (fresh fun _ => false, {}) cancelGroup).get rfl

private def inside : Call Nat Nat Nat :=
  (run (callStep group 1) { state := grouped.1 } cancelInside).get rfl

/-- The outer of two loops returns without having cancelled the third child, which has not
ended. -/
theorem outer_loop_misses :
    LinkedReachable group grouped ∧
      grouped.1.stack = .cancelChildren grouped.1.siblings.length :: [.cancelAll] ∧
      Reach (callStep group 1) { state := grouped.1 } inside ∧ 2 ∈ grouped.1.siblings ∧
      ∃ s', step group inside.state .tick = some s' ∧ s'.stack = [.cancelAll] ∧
        2 ∉ inside.own ∧ ¬s'.Ended 2 := by
  refine ⟨⟨_, Reach.of_isSome cancelGroup rfl⟩, rfl, Reach.of_isSome cancelInside rfl,
    by decide, (step group inside.state .tick).get rfl, rfl, rfl, by decide, ?_⟩
  rintro ⟨how, hhow⟩
  cases hhow

theorem LinkedReachable.cancelChildren_inside :
    2 ∈ inside.own ∨ 2 ∈ inside.nested ∨
      ((step group inside.state .tick).get rfl).Ended 2 := by
  have hr : LinkedReachable group grouped := ⟨_, Reach.of_isSome cancelGroup rfl⟩
  have hcall := hr.cancelChildren.2.2.2.2 [.cancelAll] rfl inside
    (Reach.of_isSome cancelInside rfl)
  exact (hcall.2 .tick _ rfl (by decide)).2 2 (by decide)

end Kotatsu.Async.Aggregate
