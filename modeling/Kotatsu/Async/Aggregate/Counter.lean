import Mathlib.Data.Set.Card
import Kotatsu.Async.Aggregate.Model

/-!
# What `pending` counts

`pending` counts the children that were given to the aggregate and have not been
counted off, and a pin for each call that walks the children. A child is counted
off at the end of the call that handles its end, so while that call cancels the
other children it keeps the aggregate from settling, as a pin does. The awaiting
task is delivered once, after every child has ended.
-/

namespace Kotatsu.Async.Aggregate

open Kotatsu.Core

variable {V E X : Type} {cfg : Config} {s s' : State V E X} {c : ChildId}

/-! ## What is on the stack -/

/-- A walk over the children that holds a pin. -/
def Frame.isPin : Frame → Bool
  | .arm _ => true
  | .cancelAll => true
  | _ => false

/-- A `child_completed` that has not counted its child off. -/
def Frame.isComplete : Frame → Bool
  | .complete _ => true
  | _ => false

def Frame.isDeliver : Frame → Bool
  | .deliver _ => true
  | _ => false

/-- The children a loop of `arm` has left to start. -/
def Frame.toStart : Frame → List ChildId
  | .arm rest => rest
  | _ => []

/-- The pins held. -/
def pins (stack : List Frame) : Nat := stack.countP Frame.isPin

/-- The children whose end is being handled. -/
def completing (stack : List Frame) : Nat := stack.countP Frame.isComplete

def delivering (stack : List Frame) : Nat := stack.countP Frame.isDeliver

def toStart (stack : List Frame) : List ChildId := stack.flatMap Frame.toStart

@[simp] theorem pins_cons (frame : Frame) (stack : List Frame) :
    pins (frame :: stack) = pins stack + if frame.isPin then 1 else 0 := List.countP_cons

@[simp] theorem completing_cons (frame : Frame) (stack : List Frame) :
    completing (frame :: stack) = completing stack + if frame.isComplete then 1 else 0 :=
  List.countP_cons

@[simp] theorem delivering_cons (frame : Frame) (stack : List Frame) :
    delivering (frame :: stack) = delivering stack + if frame.isDeliver then 1 else 0 :=
  List.countP_cons

@[simp] theorem toStart_cons (frame : Frame) (stack : List Frame) :
    toStart (frame :: stack) = frame.toStart ++ toStart stack := List.flatMap_cons

/-! ## The invariant -/

/-- The outcome was fixed: the awaiting task has been delivered or is about to be. -/
def State.Settled (s : State V E X) : Prop := s.joined = true ∧ s.awaited = false

/-- The counter, the list of children and the delivery agree, with the children
of `todo` given and not started. -/
structure Counts (cfg : Config) (s : State V E X) (todo : List ChildId) : Prop where
  pending : s.pending = s.siblings.length + completing s.stack + pins s.stack
  siblings : ∀ c, c ∈ s.siblings ↔
    (s.child c).progress = .given ∨ (s.child c).progress = .running
  nodup : s.siblings.Nodup
  given : ∀ c, (s.child c).progress = .given ↔ c ∈ todo
  todo_nodup : todo.Nodup
  awaited : s.awaited = true → s.pending ≠ 0 ∧ s.joined = true ∧ s.state = .running
  unawaited : s.joined = false → s.state = .pending ∧ s.awaited = false
  unarmed : s.joined = false → cfg.kind ≠ .taskGroup → s.pending = 0
  delivered : s.deliveries.length + delivering s.stack =
    if s.joined = true ∧ s.awaited = false then 1 else 0
  settled : s.Settled → s.pending = 0 ∧ (cfg.kind = .taskGroup → s.done = true)

theorem counts_fresh (cfg : Config) (cancelled : ChildId → Bool) :
    Counts cfg (fresh cancelled : State V E X) [] := by
  constructor <;> simp [fresh, State.Settled, pins, completing, delivering]

variable {todo : List ChildId} {frame : Frame} {rest : List Frame}

/-- A state in which nothing is pending has no child left and no call that counts. -/
theorem Counts.of_pending_zero (h : Counts cfg s todo) (hp : s.pending = 0) :
    s.siblings = [] ∧ completing s.stack = 0 ∧ pins s.stack = 0 := by
  have hc := h.pending
  rw [hp] at hc
  refine ⟨List.length_eq_zero_iff.mp ?_, ?_, ?_⟩ <;> omega

/-! ## Changes that count nothing -/

/-- What the counter depends on is the same, up to the order of the children. -/
structure Bones (s s' : State V E X) : Prop where
  state : s'.state = s.state
  awaited : s'.awaited = s.awaited
  joined : s'.joined = s.joined
  siblings : s'.siblings.Perm s.siblings
  pending : s'.pending = s.pending
  deliveries : s'.deliveries = s.deliveries
  progress : ∀ c, (s'.child c).progress = (s.child c).progress
  pins : pins s'.stack = pins s.stack
  completing : completing s'.stack = completing s.stack
  delivering : delivering s'.stack = delivering s.stack
  toStart : toStart s'.stack = toStart s.stack

theorem Bones.refl (s : State V E X) : Bones s s :=
  ⟨rfl, rfl, rfl, .refl _, rfl, rfl, fun _ => rfl, rfl, rfl, rfl, rfl⟩

theorem Bones.trans {s'' : State V E X} (h : Bones s s') (h' : Bones s' s'') : Bones s s'' where
  state := h'.state.trans h.state
  awaited := h'.awaited.trans h.awaited
  joined := h'.joined.trans h.joined
  siblings := h'.siblings.trans h.siblings
  pending := h'.pending.trans h.pending
  deliveries := h'.deliveries.trans h.deliveries
  progress c := (h'.progress c).trans (h.progress c)
  pins := h'.pins.trans h.pins
  completing := h'.completing.trans h.completing
  delivering := h'.delivering.trans h.delivering
  toStart := h'.toStart.trans h.toStart

theorem Counts.bones (h : Counts cfg s todo) (hb : Bones s s') : Counts cfg s' todo := by
  have hdone : s'.done = s.done := by rw [State.done, State.done, hb.state]
  constructor
  · rw [hb.pending, hb.siblings.length_eq, hb.completing, hb.pins]
    exact h.pending
  · intro c
    rw [hb.siblings.mem_iff, hb.progress]
    exact h.siblings c
  · exact hb.siblings.nodup_iff.mpr h.nodup
  · intro c
    rw [hb.progress]
    exact h.given c
  · exact h.todo_nodup
  · rw [hb.awaited, hb.pending, hb.joined, hb.state]
    exact h.awaited
  · rw [hb.joined, hb.state, hb.awaited]
    exact h.unawaited
  · rw [hb.joined, hb.pending]
    exact h.unarmed
  · rw [hb.deliveries, hb.delivering, hb.joined, hb.awaited]
    exact h.delivered
  · rw [State.Settled, hb.joined, hb.awaited, hb.pending, hdone]
    exact h.settled

namespace State

/-- A frame that neither counts nor delivers nor starts. -/
theorem push_bones (s : State V E X) (hp : frame.isPin = false) (hc : frame.isComplete = false)
    (hd : frame.isDeliver = false) (ht : frame.toStart = []) : Bones s (s.push frame) := by
  refine ⟨rfl, rfl, rfl, .refl _, rfl, rfl, fun _ => rfl, ?_, ?_, ?_, ?_⟩
  · simp [push, hp]
  · simp [push, hc]
  · simp [push, hd]
  · simp [push, ht]

theorem decide_bones (s : State V E X) (d : Decision) : Bones s (s.decide d) := by
  unfold decide
  split
  · split
    · exact ⟨rfl, rfl, rfl, .refl _, rfl, rfl, fun _ => rfl, rfl, rfl, rfl, rfl⟩
    · exact Bones.refl s
  · refine Bones.trans ?_ (push_bones _ rfl rfl rfl rfl)
    exact ⟨rfl, rfl, rfl, .refl _, rfl, rfl, fun _ => rfl, rfl, rfl, rfl, rfl⟩

/-- A child that ends leaves the list, with its end to be handled. -/
def leave (s : State V E X) (c : ChildId) (how : End V E X) : State V E X :=
  { (s.record (.ended c how)).modifyChild c fun x => { x with progress := .ended how } with
    siblings := s.siblings.erase c
    stack := .complete c :: s.stack }

theorem childCompleted_bones (cfg : Config) (s : State V E X) (c : ChildId) (how : End V E X) :
    Bones (s.leave c how) (s.childCompleted cfg c how) := by
  have hrefl : Bones (s.leave c how) (s.leave c how) := Bones.refl _
  unfold childCompleted
  cases how with
  | threw x =>
    refine Bones.trans ?_ (decide_bones _ _)
    exact ⟨rfl, rfl, rfl, .refl _, rfl, rfl, fun _ => rfl, rfl, rfl, rfl, rfl⟩
  | failed e =>
    refine Bones.trans ?_ (decide_bones _ _)
    unfold takeError
    split <;> exact ⟨rfl, rfl, rfl, .refl _, rfl, rfl, fun _ => rfl, rfl, rfl, rfl, rfl⟩
  | cancelled =>
    dsimp only
    split
    · exact hrefl.trans (decide_bones _ _)
    · exact hrefl
  | succeeded v =>
    dsimp only
    split
    · refine Bones.trans ?_ (decide_bones _ _)
      exact ⟨rfl, rfl, rfl, .refl _, rfl, rfl, fun _ => rfl, rfl, rfl, rfl, rfl⟩
    · exact hrefl

@[simp] theorem modifyChild_child (s : State V E X) (c d : ChildId)
    (f : Child V E X → Child V E X) :
    (s.modifyChild c f).child d = if d = c then f (s.child d) else s.child d := by
  simp only [modifyChild, Function.update_apply]
  split <;> simp_all

theorem leave_child (s : State V E X) (c d : ChildId) (how : End V E X) :
    (s.leave c how).child d =
      if d = c then { s.child d with progress := .ended how } else s.child d :=
  modifyChild_child (s.record (.ended c how)) c d fun x => { x with progress := .ended how }

theorem cancelChild_bones (s : State V E X) (c : ChildId) : Bones s (s.cancelChild c) := by
  have hmark : Bones s (s.modifyChild c fun x => { x with cancelRequested := true }) := by
    refine ⟨rfl, rfl, rfl, .refl _, rfl, rfl, fun d => ?_, rfl, rfl, rfl, rfl⟩
    rw [modifyChild_child]
    split <;> rfl
  unfold cancelChild
  split
  · exact Bones.refl s
  · dsimp only
    split
    · exact hmark.trans (push_bones _ rfl rfl rfl rfl)
    · exact hmark

end State

/-! ## The end of a child -/

theorem Counts.leave (h : Counts cfg s todo) (hc : c ∈ s.siblings) (how : End V E X) :
    Counts cfg (s.leave c how) (todo.erase c) := by
  have hlen := List.length_erase_of_mem hc
  have hpos := List.length_pos_of_mem hc
  have hp := h.pending
  constructor
  · change s.pending = (s.siblings.erase c).length + completing (.complete c :: s.stack) +
      pins (.complete c :: s.stack)
    simp only [completing_cons, pins_cons, Frame.isComplete, Frame.isPin, ite_true, hlen,
      Bool.false_eq_true, ite_false]
    omega
  · intro d
    have hd := h.siblings d
    change d ∈ s.siblings.erase c ↔ _
    rw [State.leave_child, h.nodup.mem_erase_iff]
    by_cases hdc : d = c <;> simp_all
  · exact h.nodup.erase c
  · intro d
    have hd := h.given d
    rw [State.leave_child, h.todo_nodup.mem_erase_iff]
    by_cases hdc : d = c <;> simp_all
  · exact h.todo_nodup.erase c
  · exact h.awaited
  · exact h.unawaited
  · exact h.unarmed
  · exact h.delivered
  · intro hs
    have hnil := (h.of_pending_zero (h.settled hs).1).1
    rw [hnil] at hc
    cases hc

/-- A child ends, running or not yet started. -/
theorem Counts.childCompleted (h : Counts cfg s todo) (hc : c ∈ s.siblings) (how : End V E X) :
    Counts cfg (s.childCompleted cfg c how) (todo.erase c) :=
  (h.leave hc how).bones (s.childCompleted_bones cfg c how)

theorem Counts.start (h : Counts cfg s (c :: todo)) : Counts cfg (s.start cfg c) todo := by
  have hg : (s.child c).progress = .given := (h.given c).mpr List.mem_cons_self
  have hc : c ∈ s.siblings := (h.siblings c).mpr (Or.inl hg)
  have hn := List.nodup_cons.mp h.todo_nodup
  unfold State.start
  split
  · have := h.childCompleted hc .cancelled
    rwa [List.erase_cons_head] at this
  · refine Counts.bones ?_ (State.push_bones _ rfl rfl rfl rfl)
    refine ⟨h.pending, fun d => ?_, h.nodup, fun d => ?_, hn.2, h.awaited, h.unawaited, h.unarmed,
      h.delivered, h.settled⟩
    · have hd := h.siblings d
      change d ∈ s.siblings ↔ _
      rw [State.modifyChild_child]
      by_cases hdc : d = c <;> simp_all
    · have hd := h.given d
      rw [State.modifyChild_child]
      by_cases hdc : d = c <;> simp_all

theorem State.start_toStart (s : State V E X) (c : ChildId) :
    toStart (s.start cfg c).stack = toStart s.stack := by
  unfold State.start
  split
  · rw [(s.childCompleted_bones cfg c .cancelled).toStart]
    simp [State.leave, Frame.toStart]
  · simp [State.push, State.modifyChild, Frame.toStart]

/-! ## Settling -/

theorem State.settledState_done (s : State V E X) :
    s.settledState = .failed ∨ s.settledState = .cancelled ∨ s.settledState = .succeeded := by
  unfold State.settledState
  split
  · exact Or.inl rfl
  · split
    · exact Or.inr (Or.inl rfl)
    · exact Or.inr (Or.inr rfl)

/-- Settling when nothing is pending and nothing was delivered. -/
theorem Counts.settle (hp : s.pending = 0)
    (hc : s.pending = s.siblings.length + completing s.stack + pins s.stack)
    (hs : ∀ c, c ∈ s.siblings ↔ (s.child c).progress = .given ∨ (s.child c).progress = .running)
    (hg : ∀ c, (s.child c).progress = .given ↔ c ∈ todo) (ht : todo.Nodup) (hj : s.joined = true)
    (hd : s.deliveries.length + delivering s.stack = 0) : Counts cfg (s.settle cfg) todo := by
  have hdone : ({ s with state := s.settledState } : State V E X).done = true := by
    obtain h | h | h := s.settledState_done <;> simp [State.done, h]
  have hnil : s.siblings = [] := List.length_eq_zero_iff.mp (by omega)
  have hnd : s.siblings.Nodup := hnil ▸ List.nodup_nil
  have hj' : ¬s.joined = false := by simp [hj]
  unfold State.settle
  split
  · refine ⟨?_, hs, hnd, hg, ht, nofun, fun h => absurd h hj', fun h => absurd h hj', ?_,
      fun _ => ⟨hp, fun _ => hdone⟩⟩
    · simpa [State.push, Frame.isComplete, Frame.isPin] using hc
    · simp [State.push, Frame.isDeliver, hj]
      omega
  · refine ⟨hc, hs, hnd, hg, ht, nofun, fun h => absurd h hj', fun h => absurd h hj', ?_,
      fun _ => ⟨hp, fun h => absurd h ‹_›⟩⟩
    simp [hj]
    omega

/-- A call that counts comes to its end: what it held is let go, and the
aggregate settles if nothing is left. -/
theorem Counts.countOff {ended : List ChildId} (h : Counts cfg s todo)
    (hs : s.stack = frame :: rest) (hf : frame.isComplete = true ∧ frame.isPin = false ∨
      frame.isComplete = false ∧ frame.isPin = true) (hd : frame.isDeliver = false) :
    Counts cfg (({ s with
      stack := rest, pending := s.pending - 1, ended := ended } : State V E X).settleIfIdle cfg)
      todo := by
  have hp := h.pending
  have hdel := h.delivered
  rw [hs] at hp hdel
  simp only [completing_cons, pins_cons, delivering_cons, hd] at hp hdel
  have hpend : s.pending - 1 = s.siblings.length + completing rest + pins rest := by
    obtain ⟨hc, hn⟩ | ⟨hc, hn⟩ := hf <;> simp only [hc, hn] at hp <;> simp at hp <;> omega
  have hne : s.pending ≠ 0 := by omega
  unfold State.settleIfIdle
  split
  · next hcond =>
    simp only [Bool.or_eq_true, decide_eq_true_eq, Bool.not_eq_true'] at hcond
    refine ⟨hpend, h.siblings, h.nodup, h.given, h.todo_nodup, fun ha => ?_, h.unawaited,
      fun hj hk => absurd (h.unarmed hj hk) hne, ?_, fun hset => absurd (h.settled hset).1 hne⟩
    · refine ⟨?_, (h.awaited ha).2⟩
      obtain hz | hz := hcond
      · exact hz
      · exact absurd (ha.symm.trans hz) nofun
    · simpa using hdel
  · next hcond =>
    simp only [Bool.or_eq_true, decide_eq_true_eq, Bool.not_eq_true', not_or,
      Decidable.not_not, Bool.not_eq_false] at hcond
    have hj := (h.awaited hcond.2).2.1
    refine Counts.settle hcond.1 hpend h.siblings h.given h.todo_nodup hj ?_
    change s.deliveries.length + delivering rest = 0
    simpa [hj, show s.awaited = true from hcond.2] using hdel

theorem State.settle_toStart (s : State V E X) :
    toStart (s.settle cfg).stack = toStart s.stack := by
  unfold State.settle
  split
  · simp [State.push, Frame.toStart]
  · rfl

theorem State.settleIfIdle_toStart (s : State V E X) :
    toStart (s.settleIfIdle cfg).stack = toStart s.stack := by
  unfold State.settleIfIdle
  split
  · rfl
  · exact s.settle_toStart

/-! ## The steps -/

theorem State.runs_iff (s : State V E X) (c : ChildId) :
    s.runs c = true ↔ (s.child c).progress = .running := by
  unfold State.runs
  split <;> simp_all

theorem State.idle_iff (s : State V E X) (c : ChildId) :
    s.idle c = true ↔ (s.child c).progress = .idle := by
  unfold State.idle
  split <;> simp_all

/-- What a step can be. -/
theorem step_cases {op : Op V E X} (hs : step cfg s op = some s') :
    (∃ frame rest, s.stack = frame :: rest ∧ s.tick cfg frame rest = some s') ∨
    (∃ rest, s.stack = .outside :: rest ∧ { s with stack := rest } = s') ∨
    (∃ c how, (s.child c).progress = .running ∧ s.childCompleted cfg c how = s') ∨
    (∃ waitingCancelled, cfg.kind ≠ .taskGroup ∧ s.joined = false ∧
      s.await cfg waitingCancelled = s') ∨
    (s.awaited = true ∧ s.cancel = s') ∨
    (∃ c cancelled, cfg.kind = .taskGroup ∧ (s.child c).progress = .idle ∧
      s.spawn cfg c cancelled = s') ∨
    (cfg.kind = .taskGroup ∧ s.groupCancel = s') ∨
    (∃ waitingCancelled, cfg.kind = .taskGroup ∧ s.joined = false ∧
      s.join cfg waitingCancelled = s') ∨
    { s with ended := [] } = s' := by
  cases op with
  | tick =>
    simp only [step] at hs
    split at hs
    · cases hs
    · next frame rest hstack => exact Or.inl ⟨frame, rest, hstack, hs⟩
  | ret =>
    simp only [step] at hs
    split at hs
    · next rest hstack => exact Or.inr (Or.inl ⟨rest, hstack, Option.some.inj hs⟩)
    · cases hs
  | finish c how =>
    obtain ⟨⟨-, hr⟩, h⟩ := Option.ite_none_right_eq_some.mp hs
    exact Or.inr (Or.inr (Or.inl ⟨c, how, (s.runs_iff c).mp hr, Option.some.inj h⟩))
  | await waitingCancelled =>
    obtain ⟨⟨-, hk, hj, -⟩, h⟩ := Option.ite_none_right_eq_some.mp hs
    exact Or.inr (Or.inr (Or.inr (Or.inl ⟨waitingCancelled, hk, hj, Option.some.inj h⟩)))
  | cancel =>
    obtain ⟨⟨-, ha⟩, h⟩ := Option.ite_none_right_eq_some.mp hs
    exact Or.inr (Or.inr (Or.inr (Or.inr (Or.inl ⟨ha, Option.some.inj h⟩))))
  | spawn c cancelled =>
    obtain ⟨⟨-, hk, hi⟩, h⟩ := Option.ite_none_right_eq_some.mp hs
    refine Or.inr (Or.inr (Or.inr (Or.inr (Or.inr (Or.inl ?_)))))
    exact ⟨c, cancelled, hk, (s.idle_iff c).mp hi, Option.some.inj h⟩
  | groupCancel =>
    obtain ⟨⟨-, hk⟩, h⟩ := Option.ite_none_right_eq_some.mp hs
    refine Or.inr (Or.inr (Or.inr (Or.inr (Or.inr (Or.inr (Or.inl ?_))))))
    exact ⟨hk, Option.some.inj h⟩
  | join waitingCancelled =>
    obtain ⟨⟨-, hk, hj⟩, h⟩ := Option.ite_none_right_eq_some.mp hs
    refine Or.inr (Or.inr (Or.inr (Or.inr (Or.inr (Or.inr (Or.inr (Or.inl ?_)))))))
    exact ⟨waitingCancelled, hk, hj, Option.some.inj h⟩
  | takeEnded =>
    obtain ⟨-, h⟩ := Option.ite_none_right_eq_some.mp hs
    refine Or.inr (Or.inr (Or.inr (Or.inr (Or.inr (Or.inr (Or.inr (Or.inr ?_)))))))
    exact Option.some.inj h

/-- What the next piece of work of a frame can be. -/
theorem tick_cases (ht : s.tick cfg frame rest = some s') :
    (∃ c cs, frame = .arm (c :: cs) ∧
      ({ s with stack := .arm cs :: rest } : State V E X).start cfg c = s') ∨
    (∃ ended, (frame.isComplete = true ∧ frame.isPin = false ∨
        frame.isComplete = false ∧ frame.isPin = true) ∧ frame.isDeliver = false ∧
      frame.toStart = [] ∧ ({ s with
        stack := rest, pending := s.pending - 1, ended := ended } : State V E X).settleIfIdle
        cfg = s') ∨
    (∃ n, frame = .cancelChildren n ∧ { s with stack := rest } = s') ∨
    (∃ n c cs, frame = .cancelChildren (n + 1) ∧ s.siblings = c :: cs ∧
      ({ s with stack := .cancelChildren n :: rest, siblings := cs ++ [c] } :
        State V E X).cancelChild c = s') ∨
    ∃ outcome, frame = .deliver outcome ∧
      { s with stack := rest, deliveries := s.deliveries ++ [outcome] } = s' := by
  cases frame with
  | arm todo =>
    cases todo with
    | nil => exact Or.inr (Or.inl ⟨s.ended, Or.inr ⟨rfl, rfl⟩, rfl, rfl, Option.some.inj ht⟩)
    | cons c cs => exact Or.inl ⟨c, cs, rfl, Option.some.inj ht⟩
  | complete c =>
    refine Or.inr (Or.inl ?_)
    simp only [State.tick] at ht
    split at ht
    · exact ⟨c :: s.ended, Or.inl ⟨rfl, rfl⟩, rfl, rfl, Option.some.inj ht⟩
    · exact ⟨s.ended, Or.inl ⟨rfl, rfl⟩, rfl, rfl, Option.some.inj ht⟩
  | cancelChildren n =>
    cases n with
    | zero => exact Or.inr (Or.inr (Or.inl ⟨0, rfl, Option.some.inj ht⟩))
    | succ n =>
      simp only [State.tick] at ht
      split at ht
      · exact Or.inr (Or.inr (Or.inl ⟨n + 1, rfl, Option.some.inj ht⟩))
      · next c cs hsib =>
        exact Or.inr (Or.inr (Or.inr (Or.inl ⟨n, c, cs, rfl, hsib, Option.some.inj ht⟩)))
  | cancelAll =>
    exact Or.inr (Or.inl ⟨s.ended, Or.inr ⟨rfl, rfl⟩, rfl, rfl, Option.some.inj ht⟩)
  | deliver outcome =>
    exact Or.inr (Or.inr (Or.inr (Or.inr ⟨outcome, rfl, Option.some.inj ht⟩)))
  | outside => cases ht

/-- The counter agrees with the children, those to be started being the ones that
the loops of `arm` have left. -/
def Counted (cfg : Config) (s : State V E X) : Prop := Counts cfg s (toStart s.stack)

theorem Counted.bones (h : Counted cfg s) (hb : Bones s s') : Counted cfg s' := by
  have := Counts.bones h hb
  rwa [← hb.toStart] at this

/-- A frame that counts nothing is left. -/
theorem Counted.pop (h : Counted cfg s) (hs : s.stack = frame :: rest) (hp : frame.isPin = false)
    (hc : frame.isComplete = false) (hd : frame.isDeliver = false) (ht : frame.toStart = []) :
    Counted cfg { s with stack := rest } := by
  refine Counted.bones h ⟨rfl, rfl, rfl, .refl _, rfl, rfl, fun _ => rfl, ?_, ?_, ?_, ?_⟩
  · simp [hs, hp]
  · simp [hs, hc]
  · simp [hs, hd]
  · simp [hs, ht]

theorem Counted.countOff {ended : List ChildId} (h : Counted cfg s) (hs : s.stack = frame :: rest)
    (hf : frame.isComplete = true ∧ frame.isPin = false ∨
      frame.isComplete = false ∧ frame.isPin = true) (hd : frame.isDeliver = false)
    (ht : frame.toStart = []) :
    Counted cfg (({ s with
      stack := rest, pending := s.pending - 1, ended := ended } : State V E X).settleIfIdle
      cfg) := by
  unfold Counted
  rw [State.settleIfIdle_toStart]
  have h' : Counts cfg s (toStart rest) := by
    have := h
    rwa [Counted, hs, toStart_cons, ht, List.nil_append] at this
  exact h'.countOff hs hf hd

theorem Counted.tick (h : Counted cfg s) (hs : s.stack = frame :: rest)
    (ht : s.tick cfg frame rest = some s') : Counted cfg s' := by
  obtain ⟨c, cs, rfl, rfl⟩ | ⟨ended, hf, hd, hnil, rfl⟩ | ⟨n, rfl, rfl⟩ |
    ⟨n, c, cs, rfl, hsib, rfl⟩ | ⟨outcome, rfl, rfl⟩ := tick_cases ht
  · unfold Counted
    rw [State.start_toStart]
    refine Counts.start ?_
    have h' : Counts cfg s (c :: (cs ++ toStart rest)) := by
      have := h
      rwa [Counted, hs, toStart_cons] at this
    have hb : pins (.arm cs :: rest) = pins s.stack ∧
        completing (.arm cs :: rest) = completing s.stack ∧
        delivering (.arm cs :: rest) = delivering s.stack := by
      simp [hs, Frame.isPin, Frame.isComplete, Frame.isDeliver]
    refine ⟨?_, h'.siblings, h'.nodup, h'.given, h'.todo_nodup, h'.awaited, h'.unawaited,
      h'.unarmed, ?_, h'.settled⟩
    · change s.pending = _
      rw [hb.1, hb.2.1]
      exact h'.pending
    · change s.deliveries.length + _ = _
      rw [hb.2.2]
      exact h'.delivered
  · exact h.countOff hs hf hd hnil
  · exact h.pop hs rfl rfl rfl rfl
  · refine Counted.bones (Counted.bones h ?_) (State.cancelChild_bones _ c)
    refine ⟨rfl, rfl, rfl, ?_, rfl, rfl, fun _ => rfl, ?_, ?_, ?_, ?_⟩
    · rw [hsib]
      exact List.perm_append_singleton c cs
    · simp [hs, Frame.isPin]
    · simp [hs, Frame.isComplete]
    · simp [hs, Frame.isDeliver]
    · simp [hs, Frame.toStart]
  · have h' : Counts cfg s (toStart rest) := by
      have := h
      rw [Counted, hs, toStart_cons] at this
      exact this
    refine ⟨?_, h'.siblings, h'.nodup, h'.given, h'.todo_nodup, h'.awaited, h'.unawaited,
      h'.unarmed, ?_, h'.settled⟩
    · have := h'.pending
      rw [hs] at this
      simpa [Frame.isPin, Frame.isComplete] using this
    · have := h'.delivered
      rw [hs] at this
      simp only [delivering_cons, Frame.isDeliver, ite_true] at this
      rw [← this]
      simp only [List.length_append, List.length_singleton]
      omega

theorem Counted.finish (h : Counted cfg s) (hc : (s.child c).progress = .running)
    (how : End V E X) : Counted cfg (s.childCompleted cfg c how) := by
  have hmem : c ∈ s.siblings := (h.siblings c).mpr (Or.inr hc)
  have hnot : c ∉ toStart s.stack := by
    intro hin
    have := (h.given c).mpr hin
    rw [hc] at this
    cases this
  have hcount := Counts.childCompleted h hmem how
  rw [List.erase_of_not_mem hnot] at hcount
  unfold Counted
  rwa [(s.childCompleted_bones cfg c how).toStart, State.leave, toStart_cons]

/-- What cancels all children holds a pin. -/
theorem Counted.cancelAll (h : Counted cfg s) (hn : ¬s.Settled)
    (hk : s.joined = false → cfg.kind = .taskGroup) : Counted cfg s.cancelAll := by
  refine Counted.bones ?_ (State.push_bones _ rfl rfl rfl rfl)
  have hp := h.pending
  refine ⟨?_, h.siblings, h.nodup, h.given, h.todo_nodup, fun ha => ?_, h.unawaited,
    fun hj hg => absurd (hk hj) hg, ?_, fun hs => absurd hs hn⟩
  · simp [State.push, Frame.isPin, Frame.isComplete]
    omega
  · refine ⟨?_, (h.awaited ha).2⟩
    simp only [State.push]
    omega
  · change s.deliveries.length + delivering (.cancelAll :: s.stack) = _
    rw [delivering_cons]
    exact h.delivered

theorem Counted.await (h : Counted cfg s) (hk : cfg.kind ≠ .taskGroup) (hj : s.joined = false)
    (waitingCancelled : Bool) : Counted cfg (s.await cfg waitingCancelled) := by
  have hp := h.unarmed hj hk
  obtain ⟨hsib, hc, hpin⟩ := h.of_pending_zero hp
  have hd : s.deliveries.length + delivering s.stack = 0 := by
    have := h.delivered
    rwa [if_neg (by simp [hj])] at this
  have hidle : ∀ c, (s.child c).progress ≠ .given ∧ (s.child c).progress ≠ .running := by
    intro c
    have := h.siblings c
    rw [hsib] at this
    simpa using this
  have hstart : toStart s.stack = [] := by
    refine List.eq_nil_iff_forall_not_mem.mpr fun c hin => ?_
    exact (hidle c).1 ((h.given c).mpr hin)
  unfold State.await
  split
  · refine ⟨h.pending, h.siblings, h.nodup, h.given, h.todo_nodup, fun ha => ?_, nofun, nofun, ?_,
      fun _ => ⟨hp, fun hg => absurd hg hk⟩⟩
    · exact absurd ((h.unawaited hj).2.symm.trans ha) nofun
    · simp [(h.unawaited hj).2]
      omega
  · split
    · exact Counted.bones h
        ⟨rfl, rfl, rfl, .refl _, rfl, rfl, fun _ => rfl, rfl, rfl, rfl, rfl⟩
    · refine ⟨?_, fun c => ?_, cfg.nodup, fun c => ?_, ?_, fun _ => ⟨?_, rfl, rfl⟩, nofun, nofun,
        ?_, nofun⟩
      · simp [State.push, Frame.isPin, Frame.isComplete, hc, hpin]
      · by_cases hin : c ∈ cfg.tasks <;> simp [State.push, hin, hidle c]
      · by_cases hin : c ∈ cfg.tasks <;> simp [State.push, hin, hidle c, hstart, Frame.toStart]
      · simpa [State.push, hstart, Frame.toStart] using cfg.nodup
      · simp only [State.push]
        omega
      · simpa [State.push, Frame.isDeliver] using hd

theorem Counted.spawn (h : Counted cfg s) (hk : cfg.kind = .taskGroup)
    (hc : (s.child c).progress = .idle) (cancelled : Bool) :
    Counted cfg (s.spawn cfg c cancelled) := by
  unfold State.spawn
  split
  · exact h
  · next hopen =>
    have hdone : s.done = false := by
      simp only [Bool.or_eq_true, not_or, Bool.not_eq_true] at hopen
      exact hopen.2
    have hn : ¬s.Settled := fun hs => absurd ((h.settled hs).2 hk) (by simp [hdone])
    have hnot : c ∉ s.siblings := fun hin => by
      have := (h.siblings c).mp hin
      simp [hc] at this
    have hnot' : c ∉ toStart s.stack := fun hin => by
      have := (h.given c).mpr hin
      simp [hc] at this
    have hp := h.pending
    unfold Counted
    rw [State.start_toStart]
    refine Counts.start ⟨?_, fun d => ?_, ?_, fun d => ?_, ?_, fun ha => ⟨?_, (h.awaited ha).2⟩,
      h.unawaited, fun _ hg => absurd hk hg, h.delivered, fun hs => absurd hs hn⟩
    · simp only [State.modifyChild, List.length_append, List.length_singleton]
      push_cast
      omega
    · have := h.siblings d
      rw [State.modifyChild_child]
      by_cases hdc : d = c <;> simp_all [State.modifyChild]
    · exact (List.perm_append_singleton c s.siblings).nodup_iff.mpr
        (List.nodup_cons.mpr ⟨hnot, h.nodup⟩)
    · have := h.given d
      rw [State.modifyChild_child]
      by_cases hdc : d = c <;> simp_all [State.modifyChild]
    · exact List.nodup_cons.mpr ⟨hnot', h.todo_nodup⟩
    · simp only [State.modifyChild]
      omega

theorem Counted.cancel (h : Counted cfg s) (ha : s.awaited = true) : Counted cfg s.cancel := by
  unfold State.cancel
  split
  · exact h
  · refine Counted.cancelAll ?_ (fun hs => ?_) (fun hj => ?_)
    · exact Counted.bones h
        ⟨rfl, rfl, rfl, .refl _, rfl, rfl, fun _ => rfl, rfl, rfl, rfl, rfl⟩
    · exact absurd (ha.symm.trans hs.2) nofun
    · exact absurd ((h.awaited ha).2.1.symm.trans hj) nofun

theorem Counted.groupCancel (h : Counted cfg s) (hk : cfg.kind = .taskGroup) :
    Counted cfg s.groupCancel := by
  unfold State.groupCancel
  split
  · exact h
  · next hopen =>
    refine Counted.cancelAll ?_ (fun hs => ?_) (fun _ => hk)
    · exact Counted.bones h
        ⟨rfl, rfl, rfl, .refl _, rfl, rfl, fun _ => rfl, rfl, rfl, rfl, rfl⟩
    · simp only [Bool.or_eq_true, not_or, Bool.not_eq_true] at hopen
      exact absurd ((h.settled hs).2 hk) (by simp [hopen.2])

theorem Counted.join (h : Counted cfg s) (hj : s.joined = false) (hk : cfg.kind = .taskGroup)
    (waitingCancelled : Bool) : Counted cfg (s.join cfg waitingCancelled) := by
  have hd : s.deliveries.length + delivering s.stack = 0 := by
    have := h.delivered
    rwa [if_neg (by simp [hj])] at this
  unfold State.join
  dsimp only
  split
  · next hp =>
    unfold Counted
    rw [State.settle_toStart]
    exact Counts.settle hp h.pending h.siblings h.given h.todo_nodup rfl hd
  · next hp =>
    have hwait : Counted cfg
        { s with joined := true, awaited := true, state := NodeState.running } := by
      refine ⟨h.pending, h.siblings, h.nodup, h.given, h.todo_nodup, fun _ => ⟨hp, rfl, rfl⟩,
        nofun, nofun, ?_, nofun⟩
      simpa using hd
    split
    · refine Counted.cancelAll ?_ nofun (fun _ => hk)
      exact Counted.bones hwait
        ⟨rfl, rfl, rfl, .refl _, rfl, rfl, fun _ => rfl, rfl, rfl, rfl, rfl⟩
    · exact hwait

/-- Every step keeps the counter in agreement with the children. -/
theorem Counted.step {op : Op V E X} (h : Counted cfg s)
    (hs : Aggregate.step cfg s op = some s') : Counted cfg s' := by
  obtain ⟨frame, rest, hstack, ht⟩ | ⟨rest, hstack, rfl⟩ | ⟨c, how, hr, rfl⟩ |
    ⟨waitingCancelled, hk, hj, rfl⟩ | ⟨ha, rfl⟩ | ⟨c, cancelled, hk, hi, rfl⟩ | ⟨hk, rfl⟩ |
    ⟨waitingCancelled, hk, hj, rfl⟩ | rfl := step_cases hs
  · exact h.tick hstack ht
  · exact h.pop hstack rfl rfl rfl rfl
  · exact h.finish hr how
  · exact h.await hk hj waitingCancelled
  · exact h.cancel ha
  · exact h.spawn hk hi cancelled
  · exact h.groupCancel hk
  · exact h.join hj hk waitingCancelled
  · exact Counted.bones h
      ⟨rfl, rfl, rfl, .refl _, rfl, rfl, fun _ => rfl, rfl, rfl, rfl, rfl⟩

theorem Reachable.counted (h : Reachable cfg s) : Counted cfg s := by
  obtain ⟨cancelled, hr⟩ := h
  exact hr.invariant Counted.step (counts_fresh cfg cancelled)

/-! ## The counter and the delivery -/

/-- The children in the list are those that run and those that `arm` has left to start. -/
theorem Counted.siblings_length (h : Counted cfg s) :
    {c | (s.child c).progress = .running}.Finite ∧
      s.siblings.length =
        {c | (s.child c).progress = .running}.ncard + (toStart s.stack).length := by
  have hset : {c | (s.child c).progress = .running} =
      ↑(s.siblings.toFinset \ (toStart s.stack).toFinset) := by
    ext c
    have hs := h.siblings c
    have hg := h.given c
    rw [Finset.coe_sdiff, Set.mem_sdiff, Finset.mem_coe, Finset.mem_coe, List.mem_toFinset,
      List.mem_toFinset, hs, ← hg, Set.mem_ofPred_eq]
    constructor
    · intro hr
      exact ⟨Or.inr hr, by simp [hr]⟩
    · rintro ⟨hr | hr, hn⟩
      · exact absurd hr hn
      · exact hr
  have hsub : (toStart s.stack).toFinset ⊆ s.siblings.toFinset := by
    intro c hc
    rw [List.mem_toFinset] at hc ⊢
    exact (h.siblings c).mpr (Or.inl ((h.given c).mpr hc))
  have hcard := Finset.card_sdiff_add_card_eq_card hsub
  rw [List.toFinset_card_of_nodup h.nodup, List.toFinset_card_of_nodup h.todo_nodup] at hcard
  rw [hset, Set.ncard_coe_finset]
  exact ⟨Finset.finite_toSet _, hcard.symm⟩

theorem Counted.not_unended (h : Counted cfg s) (hp : s.pending = 0) (c : ChildId) :
    (s.child c).progress ≠ .given ∧ (s.child c).progress ≠ .running := by
  have hs := h.siblings c
  rw [(h.of_pending_zero hp).1] at hs
  simpa using hs

theorem Counted.settled_of_deliveries (h : Counted cfg s) (hne : s.deliveries ≠ []) :
    s.Settled := by
  by_contra hn
  have hzero : s.deliveries.length + delivering s.stack = 0 := h.delivered.trans (if_neg hn)
  have hpos := List.length_pos_of_ne_nil hne
  omega

/-- In every state of every run: `pending` is the number of children that run,
plus the children that `arm` has linked and not started, the children whose end
`child_completed` is handling, and the pins held; it is not below zero. The
awaiting task is delivered at most once, only with every child ended and counted
off, and it has been delivered when no child is left and no call is under way. -/
theorem Reachable.counter (h : Reachable cfg s) :
    {c | (s.child c).progress = .running}.Finite ∧
      s.pending = {c | (s.child c).progress = .running}.ncard + (toStart s.stack).length +
        completing s.stack + pins s.stack ∧
      0 ≤ s.pending ∧ s.deliveries.length ≤ 1 ∧
      (s.deliveries ≠ [] → s.joined = true ∧ s.pending = 0 ∧
        ∀ c, (s.child c).progress ≠ .given ∧ (s.child c).progress ≠ .running) ∧
      (s.joined = true → s.stack = [] → (∀ c, (s.child c).progress ≠ .running) →
        s.deliveries.length = 1) := by
  have hc := h.counted
  obtain ⟨hfin, hlen⟩ := hc.siblings_length
  have hp := hc.pending
  have hd := hc.delivered
  refine ⟨hfin, ?_, ?_, ?_, ?_, ?_⟩
  · rw [hp, hlen]
    push_cast
    rfl
  · omega
  · split at hd <;> omega
  · intro hne
    have hset := hc.settled_of_deliveries hne
    have hz := (hc.settled hset).1
    exact ⟨hset.1, hz, hc.not_unended hz⟩
  · intro hj hstack hrun
    have hnil : s.siblings = [] := by
      refine List.eq_nil_iff_forall_not_mem.mpr fun c hin => ?_
      obtain hg | hr := (hc.siblings c).mp hin
      · have := (hc.given c).mp hg
        rw [hstack] at this
        cases this
      · exact hrun c hr
    have hz : s.pending = 0 := by
      rw [hp, hnil, hstack]
      rfl
    have ha : s.awaited = false := by
      by_contra hn
      exact (hc.awaited (Bool.eq_true_of_not_eq_false hn)).1 hz
    rw [if_pos ⟨hj, ha⟩, hstack] at hd
    exact hd

/-- Two tasks that are awaited together. -/
private def pair : Config where
  kind := .whenAll
  tasks := [0, 1]
  intercept := false
  nodup := by decide
  ne_nil := nofun
  group := nofun

/-- The first child succeeds as it starts, the second later. -/
private def bothSucceed : List (Op Nat Nat Nat) :=
  [.await false, .tick, .finish 0 (.succeeded 7), .tick, .ret, .tick, .ret, .tick,
    .finish 1 (.succeeded 8), .tick]

theorem Reachable.counter_bothSucceed :
    let s := (run (step pair) (fresh fun _ => false) bothSucceed).get rfl
    s.pending = 0 ∧ s.deliveries.length = 1 := by
  have hr : Reachable pair ((run (step pair) (fresh fun _ => false) bothSucceed).get rfl) :=
    ⟨_, Reach.of_isSome bothSucceed rfl⟩
  obtain ⟨_, _, _, _, hzero, hone⟩ := hr.counter
  have hend := hone rfl rfl fun c hrun => by
    have := (hr.counted.siblings c).mpr (Or.inr hrun)
    cases this
  exact ⟨(hzero (List.ne_nil_of_length_eq_add_one hend)).2.1, hend⟩

/-- While `arm` starts the first of two children, `pending` counts the second as
well: it is not the children that run and the pin. -/
theorem pending_counts_linked :
    ∃ s : State Nat Nat Nat, Reachable pair s ∧
      s.pending ≠ {c | (s.child c).progress = .running}.ncard + pins s.stack := by
  have hr : Reachable pair
      ((run (step pair) (fresh fun _ => false) [Op.await false, .tick]).get rfl :
        State Nat Nat Nat) :=
    ⟨_, Reach.of_isSome [Op.await false, .tick] rfl⟩
  refine ⟨_, hr, fun heq => ?_⟩
  obtain ⟨-, hlen⟩ := hr.counted.siblings_length
  change 2 = _ + 1 at hlen
  change (3 : Int) = _ + (1 : Nat) at heq
  omega

end Kotatsu.Async.Aggregate
