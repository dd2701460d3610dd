import Kotatsu.Async.Aggregate.Counter

/-!
# How an aggregate ends

What an aggregate keeps of its children is a function of the events that
happened to it, in their order: the first one that decides, the failures, and
whether it was cancelled from outside. Nothing happens once it has settled, so
what is delivered is the outcome of all events.
-/

namespace Kotatsu.Async.Aggregate

open Kotatsu.Core

variable {V E X : Type} {cfg : Config} {s s' : State V E X} {c : ChildId} {kind : Kind}
  {events : List (Event V E X)} {event : Event V E X}

/-! ## Events -/

namespace Event

/-- A child that ends with an error or an exception. -/
def fails : Event V E X → Bool
  | .ended _ (.failed _) => true
  | .ended _ (.threw _) => true
  | _ => false

/-- What decides the outcome of an aggregate that nothing has decided yet. -/
def decides (kind : Kind) : Event V E X → Bool
  | .ended _ (.succeeded _) => kind = .whenAny
  | .ended _ .cancelled => kind ≠ .taskGroup
  | _ => true

/-- The decision of an event that decides. -/
def decision : Event V E X → Decision
  | .ended _ (.succeeded _) => .resume
  | .ended _ (.failed _) => .error
  | .ended _ (.threw _) => .error
  | .ended _ .cancelled => .cancel
  | .cancelled => .none
  | .groupCancelled => .resume

/-- A cancel from outside. -/
def isCancelled : Event V E X → Bool
  | .cancelled => true
  | _ => false

def succeeding : Event V E X → Option ChildId
  | .ended c (.succeeded _) => some c
  | _ => none

def exception : Event V E X → Option X
  | .ended _ (.threw exception) => some exception
  | _ => none

def error : Event V E X → Option E
  | .ended _ (.failed error) => some error
  | _ => none

theorem decides_of_fails (kind : Kind) (h : event.fails = true) : event.decides kind = true := by
  unfold fails at h
  split at h
  · rfl
  · rfl
  · cases h

end Event

/-! ## What the events come to -/

/-- The first event that decides. -/
def decider (kind : Kind) (events : List (Event V E X)) : Option (Event V E X) :=
  events.find? (Event.decides kind)

/-- A failure decides whenever it happens, anything else only where it is first. -/
def decisionOf (kind : Kind) (events : List (Event V E X)) : Decision :=
  if events.any Event.fails then .error
  else ((decider kind events).map Event.decision).getD .none

/-- How an aggregate with these events ends. -/
def outcomeOf (kind : Kind) (events : List (Event V E X)) : NodeState :=
  if decisionOf kind events = .error then .failed
  else if decisionOf kind events = .cancel || events.any Event.isCancelled then .cancelled
  else .succeeded

theorem decider_eq_none :
    decider kind events = none ↔ events.any (Event.decides kind) = false := by
  rw [decider, List.find?_eq_none, List.any_eq_false]

theorem decider_concat_of_any (h : events.any (Event.decides kind) = true)
    (event : Event V E X) : decider kind (events ++ [event]) = decider kind events := by
  have hne : decider kind events ≠ none := by
    rw [Ne, decider_eq_none, h]
    nofun
  rw [decider, List.find?_append]
  exact Option.or_of_isSome (Option.isSome_iff_ne_none.mpr hne)

theorem decider_concat_of_not (h : events.any (Event.decides kind) = false)
    (event : Event V E X) :
    decider kind (events ++ [event]) = if event.decides kind then some event else none := by
  rw [decider, List.find?_append, ← decider, decider_eq_none.mpr h, Option.none_or,
    List.find?_singleton]

theorem any_fails_of_not (h : events.any (Event.decides kind) = false) :
    events.any Event.fails = false := by
  rw [List.any_eq_false] at h ⊢
  exact fun event hin hf => h event hin (Event.decides_of_fails kind hf)

theorem decisionOf_concat_of_fails (hf : event.fails = true) :
    decisionOf kind (events ++ [event]) = .error := by
  rw [decisionOf, if_pos]
  simp [hf]

theorem decisionOf_concat_of_any (h : events.any (Event.decides kind) = true)
    (hf : event.fails = false) :
    decisionOf kind (events ++ [event]) = decisionOf kind events := by
  rw [decisionOf, decisionOf, decider_concat_of_any h]
  simp [hf]

theorem decisionOf_concat_of_not (h : events.any (Event.decides kind) = false)
    (hf : event.fails = false) :
    decisionOf kind (events ++ [event]) =
      if event.decides kind then event.decision else .none := by
  rw [decisionOf, decider_concat_of_not h, if_neg]
  · split <;> rfl
  · simp only [List.any_append, any_fails_of_not h, List.any_cons, hf, List.any_nil, Bool.or_self,
      Bool.false_eq_true, not_false_eq_true]

/-- An event that decides nothing leaves the decision as it is. -/
theorem decisionOf_concat_of_idle (events : List (Event V E X))
    (hd : event.decides kind = false) :
    decisionOf kind (events ++ [event]) = decisionOf kind events ∧
      decider kind (events ++ [event]) = decider kind events := by
  have hdec : decider kind (events ++ [event]) = decider kind events := by
    rw [decider, List.find?_append, List.find?_singleton, hd, if_neg Bool.false_ne_true,
      Option.or_none, decider]
  have hf : event.fails = false := by
    by_contra hf
    rw [Event.decides_of_fails kind (Bool.eq_true_of_not_eq_false hf)] at hd
    cases hd
  refine ⟨?_, hdec⟩
  rw [decisionOf, hdec, decisionOf]
  simp [hf]

/-! ## What an aggregate keeps -/

/-- The fields of an aggregate are what its events come to. -/
structure Recorded (cfg : Config) (s : State V E X) : Prop where
  decision : s.decision = decisionOf cfg.kind s.history
  cancelRequested : s.cancelRequested = s.history.any Event.isCancelled
  winner : s.winner = (decider cfg.kind s.history).bind Event.succeeding
  exception : s.exception = (s.history.filterMap Event.exception).head?
  firstError : cfg.kind ≠ .taskGroup →
    s.firstError = (s.history.filterMap Event.error).head?
  errors : cfg.kind = .taskGroup → s.errors = s.history.filterMap Event.error
  ended : ∀ c how, (s.child c).progress = .ended how ↔ .ended c how ∈ s.history
  grouped : .groupCancelled ∈ s.history → cfg.kind = .taskGroup

theorem recorded_fresh (cfg : Config) (cancelled : ChildId → Bool) :
    Recorded cfg (fresh cancelled : State V E X) := by
  constructor <;> simp [fresh, decisionOf, decider]

theorem Recorded.settledState (h : Recorded cfg s) :
    s.settledState = outcomeOf cfg.kind s.history := by
  rw [State.settledState, outcomeOf, h.decision, h.cancelRequested]

/-- An aggregate is decided when some event has decided. -/
theorem Recorded.decided (h : Recorded cfg s) :
    s.decided = s.history.any (Event.decides cfg.kind) := by
  rw [State.decided, h.decision, h.cancelRequested]
  cases hd : decider cfg.kind s.history with
  | none =>
    have hany := decider_eq_none.mp hd
    have hcancel : s.history.any Event.isCancelled = false := by
      rw [List.any_eq_false] at hany ⊢
      rintro (⟨c, how⟩ | _ | _) hin hc
      · cases hc
      · exact hany _ hin rfl
      · cases hc
    rw [hany, hcancel, decisionOf, any_fails_of_not hany, hd]
    rfl
  | some event =>
    have hin := List.mem_of_find?_eq_some hd
    have hany : s.history.any (Event.decides cfg.kind) = true :=
      List.any_eq_true.mpr ⟨event, hin, List.find?_some hd⟩
    rw [hany, decisionOf, hd]
    split
    · rfl
    · cases event with
      | ended c how => cases how <;> rfl
      | cancelled =>
        have hcancel : s.history.any Event.isCancelled = true :=
          List.any_eq_true.mpr ⟨_, hin, rfl⟩
        rw [hcancel, Bool.or_true]
      | groupCancelled => rfl

/-! ## Changes that record nothing -/

/-- What an aggregate keeps of its events is the same. -/
structure Quiet (s s' : State V E X) : Prop where
  decision : s'.decision = s.decision
  cancelRequested : s'.cancelRequested = s.cancelRequested
  winner : s'.winner = s.winner
  exception : s'.exception = s.exception
  firstError : s'.firstError = s.firstError
  errors : s'.errors = s.errors
  history : s'.history = s.history
  ended : ∀ c how, (s'.child c).progress = .ended how ↔ (s.child c).progress = .ended how

theorem Quiet.refl (s : State V E X) : Quiet s s :=
  ⟨rfl, rfl, rfl, rfl, rfl, rfl, rfl, fun _ _ => Iff.rfl⟩

theorem Quiet.trans {s'' : State V E X} (h : Quiet s s') (h' : Quiet s' s'') : Quiet s s'' where
  decision := h'.decision.trans h.decision
  cancelRequested := h'.cancelRequested.trans h.cancelRequested
  winner := h'.winner.trans h.winner
  exception := h'.exception.trans h.exception
  firstError := h'.firstError.trans h.firstError
  errors := h'.errors.trans h.errors
  history := h'.history.trans h.history
  ended c how := (h'.ended c how).trans (h.ended c how)

theorem Recorded.quiet (h : Recorded cfg s) (hq : Quiet s s') : Recorded cfg s' := by
  constructor
  · rw [hq.decision, hq.history]
    exact h.decision
  · rw [hq.cancelRequested, hq.history]
    exact h.cancelRequested
  · rw [hq.winner, hq.history]
    exact h.winner
  · rw [hq.exception, hq.history]
    exact h.exception
  · rw [hq.firstError, hq.history]
    exact h.firstError
  · rw [hq.errors, hq.history]
    exact h.errors
  · intro c how
    rw [hq.ended, hq.history]
    exact h.ended c how
  · rw [hq.history]
    exact h.grouped

theorem State.settle_quiet (s : State V E X) : Quiet s (s.settle cfg) := by
  unfold State.settle
  split <;> exact ⟨rfl, rfl, rfl, rfl, rfl, rfl, rfl, fun _ _ => Iff.rfl⟩

theorem State.settleIfIdle_quiet (s : State V E X) : Quiet s (s.settleIfIdle cfg) := by
  unfold State.settleIfIdle
  split
  · exact Quiet.refl s
  · exact s.settle_quiet

theorem State.cancelAll_quiet (s : State V E X) : Quiet s s.cancelAll :=
  ⟨rfl, rfl, rfl, rfl, rfl, rfl, rfl, fun _ _ => Iff.rfl⟩

/-- A child that stays as it is but for its request, or goes on without an end. -/
theorem State.modifyChild_quiet (s : State V E X) (c : ChildId) (f : Child V E X → Child V E X)
    (hf : ∀ how, (f (s.child c)).progress = .ended how ↔ (s.child c).progress = .ended how) :
    Quiet s (s.modifyChild c f) := by
  refine ⟨rfl, rfl, rfl, rfl, rfl, rfl, rfl, fun d how => ?_⟩
  rw [State.modifyChild_child]
  split
  · next hd =>
    subst hd
    exact hf how
  · exact Iff.rfl

theorem State.cancelChild_quiet (s : State V E X) (c : ChildId) : Quiet s (s.cancelChild c) := by
  have hmark := s.modifyChild_quiet c (fun x => { x with cancelRequested := true })
    fun _ => Iff.rfl
  unfold State.cancelChild
  split
  · exact Quiet.refl s
  · dsimp only
    split
    · exact hmark.trans ⟨rfl, rfl, rfl, rfl, rfl, rfl, rfl, fun _ _ => Iff.rfl⟩
    · exact hmark

/-! ## The end of a child -/

theorem State.decide_error (s : State V E X) :
    ∃ stack, s.decide .error = { s with decision := .error, stack := stack } := by
  unfold State.decide
  split
  · exact ⟨s.stack, rfl⟩
  · exact ⟨_, rfl⟩

theorem State.decide_eq (s : State V E X) {d : Decision} (hd : d ≠ .error) :
    ∃ stack, s.decide d =
      { s with decision := if s.decided then s.decision else d, stack := stack } := by
  unfold State.decide
  split
  · exact ⟨s.stack, rfl⟩
  · exact ⟨_, rfl⟩

theorem State.leave_ended (hc : ∀ how, (s.child c).progress ≠ .ended how) (how : End V E X)
    (hrec : ∀ c how, (s.child c).progress = .ended how ↔ .ended c how ∈ s.history)
    (d : ChildId) (how' : End V E X) :
    ((s.leave c how).child d).progress = .ended how' ↔
      .ended d how' ∈ s.history ++ [.ended c how] := by
  rw [State.leave_child, List.mem_append, List.mem_singleton, ← hrec]
  by_cases hd : d = c
  · subst hd
    simp only [ite_true, Progress.ended.injEq, hc, false_or, Event.ended.injEq, true_and]
    exact eq_comm
  · simp [hd]

theorem Recorded.decision_decides (h : Recorded cfg s) (hf : event.fails = false)
    (hd : event.decides cfg.kind = true) :
    (if s.decided then s.decision else event.decision) =
      decisionOf cfg.kind (s.history ++ [event]) := by
  rw [h.decided, h.decision]
  split
  · next hany => rw [decisionOf_concat_of_any hany hf]
  · next hany => rw [decisionOf_concat_of_not (Bool.eq_false_iff.mpr hany) hf, if_pos hd]

theorem Recorded.winner_loses (h : Recorded cfg s) (hs : event.succeeding = none) :
    s.winner = (decider cfg.kind (s.history ++ [event])).bind Event.succeeding := by
  rw [h.winner]
  by_cases hany : s.history.any (Event.decides cfg.kind) = true
  · rw [decider_concat_of_any hany]
  · rw [decider_concat_of_not (Bool.eq_false_iff.mpr hany),
      decider_eq_none.mpr (Bool.eq_false_iff.mpr hany)]
    split
    · exact hs.symm
    · rfl

theorem head?_filterMap_concat {α β : Type} (f : α → Option β) (as : List α) (a : α) (b : β)
    (ha : f a = some b) :
    some ((as.filterMap f).head?.getD b) = ((as ++ [a]).filterMap f).head? := by
  rw [List.filterMap_append, List.filterMap_cons_some ha, List.filterMap_nil, List.head?_append]
  cases (as.filterMap f).head? <;> rfl

theorem Recorded.childCompleted (h : Recorded cfg s)
    (hc : ∀ how, (s.child c).progress ≠ .ended how) (how : End V E X) :
    Recorded cfg (s.childCompleted cfg c how) := by
  let event : Event V E X := .ended c how
  have hended := State.leave_ended hc how h.ended
  have hcancel : s.cancelRequested = (s.history ++ [event]).any Event.isCancelled := by
    rw [List.any_append, h.cancelRequested]
    exact (Bool.or_false _).symm
  have hgroup : .groupCancelled ∈ s.history ++ [event] → cfg.kind = .taskGroup := by
    intro hin
    obtain hin | hin := List.mem_append.mp hin
    · exact h.grouped hin
    · have : Event.groupCancelled = Event.ended c how := List.mem_singleton.mp hin
      cases this
  have hexc : event.exception = none →
      s.exception = ((s.history ++ [event]).filterMap Event.exception).head? := by
    intro hn
    rw [List.filterMap_append, List.filterMap_cons_none hn, List.filterMap_nil, List.append_nil]
    exact h.exception
  have herr : event.error = none →
      s.history.filterMap Event.error = (s.history ++ [event]).filterMap Event.error := by
    intro hn
    rw [List.filterMap_append, List.filterMap_cons_none hn, List.filterMap_nil, List.append_nil]
  have hfirst : event.error = none → cfg.kind ≠ .taskGroup →
      s.firstError = ((s.history ++ [event]).filterMap Event.error).head? :=
    fun hn hk => (h.firstError hk).trans (congrArg List.head? (herr hn))
  have hall : event.error = none → cfg.kind = .taskGroup →
      s.errors = (s.history ++ [event]).filterMap Event.error :=
    fun hn hk => (h.errors hk).trans (herr hn)
  cases how with
  | threw x =>
    obtain ⟨stack, heq⟩ := State.decide_error
      { s.leave c (.threw x) with exception := some (s.exception.getD x) }
    have hs : s.childCompleted cfg c (.threw x) = _ := heq
    rw [hs]
    refine ⟨(decisionOf_concat_of_fails rfl).symm, hcancel, h.winner_loses rfl, ?_, hfirst rfl,
      hall rfl, hended, hgroup⟩
    change some (s.exception.getD x) = _
    rw [h.exception]
    exact head?_filterMap_concat Event.exception s.history event x rfl
  | failed e =>
    obtain ⟨stack, heq⟩ := State.decide_error ((s.leave c (.failed e)).takeError cfg e)
    have hs : s.childCompleted cfg c (.failed e) = _ := heq
    rw [hs]
    unfold State.takeError
    split
    · next hk =>
      refine ⟨(decisionOf_concat_of_fails rfl).symm, hcancel, h.winner_loses rfl, hexc rfl,
        fun hk' => absurd hk hk', fun _ => ?_, hended, hgroup⟩
      change s.errors ++ [e] = (s.history ++ [event]).filterMap Event.error
      rw [h.errors hk, List.filterMap_append]
      rfl
    · next hk =>
      refine ⟨(decisionOf_concat_of_fails rfl).symm, hcancel, h.winner_loses rfl, hexc rfl,
        fun _ => ?_, fun hk' => absurd hk' hk, hended, hgroup⟩
      change some (s.firstError.getD e) = _
      rw [h.firstError hk]
      exact head?_filterMap_concat Event.error s.history event e rfl
  | cancelled =>
    by_cases hk : cfg.kind = .taskGroup
    · have hs : s.childCompleted cfg c .cancelled = s.leave c .cancelled := if_neg (by simp [hk])
      have hidle : event.decides cfg.kind = false := by simp [event, Event.decides, hk]
      obtain ⟨hdec, _⟩ := decisionOf_concat_of_idle s.history hidle
      rw [hs]
      exact ⟨h.decision.trans hdec.symm, hcancel, h.winner_loses rfl, hexc rfl, hfirst rfl,
        hall rfl, hended, hgroup⟩
    · obtain ⟨stack, heq⟩ := State.decide_eq (s.leave c .cancelled)
        (show Decision.cancel ≠ .error from nofun)
      have hs : s.childCompleted cfg c .cancelled = _ := (if_pos hk).trans heq
      rw [hs]
      have hd : event.decides cfg.kind = true := by simp [event, Event.decides, hk]
      exact ⟨h.decision_decides rfl hd, hcancel, h.winner_loses rfl, hexc rfl, hfirst rfl,
        hall rfl, hended, hgroup⟩
  | succeeded v =>
    by_cases hw : cfg.kind = .whenAny ∧ s.decided = false
    · obtain ⟨stack, heq⟩ := State.decide_eq { s.leave c (.succeeded v) with winner := some c }
        (show Decision.resume ≠ .error from nofun)
      have hcond : (decide (cfg.kind = .whenAny) && !s.decided) = true := by simp [hw.1, hw.2]
      have hs : s.childCompleted cfg c (.succeeded v) = _ := (if_pos hcond).trans heq
      have hd : event.decides cfg.kind = true := by simp [event, Event.decides, hw.1]
      have hany : s.history.any (Event.decides cfg.kind) = false := h.decided ▸ hw.2
      rw [hs]
      refine ⟨h.decision_decides rfl hd, hcancel, ?_, hexc rfl, hfirst rfl, hall rfl, hended,
        hgroup⟩
      change some c = (decider cfg.kind (s.history ++ [event])).bind Event.succeeding
      rw [decider_concat_of_not hany, if_pos hd]
      rfl
    · have hs : s.childCompleted cfg c (.succeeded v) = s.leave c (.succeeded v) := by
        refine if_neg fun hcond => hw ?_
        simp only [Bool.and_eq_true, decide_eq_true_eq, Bool.not_eq_true'] at hcond
        exact hcond
      have hsame : decisionOf cfg.kind (s.history ++ [event]) = decisionOf cfg.kind s.history ∧
          decider cfg.kind (s.history ++ [event]) = decider cfg.kind s.history := by
        by_cases hk : cfg.kind = .whenAny
        · have hany : s.history.any (Event.decides cfg.kind) = true := by
            rw [← h.decided]
            exact Bool.eq_true_of_not_eq_false fun hn => hw ⟨hk, hn⟩
          exact ⟨decisionOf_concat_of_any hany rfl, decider_concat_of_any hany event⟩
        · exact decisionOf_concat_of_idle s.history (by simp [event, Event.decides, hk])
      rw [hs]
      exact ⟨h.decision.trans hsame.1.symm, hcancel,
        h.winner.trans (congrArg (Option.bind · Event.succeeding) hsame.2.symm), hexc rfl,
        hfirst rfl, hall rfl, hended, hgroup⟩

/-! ## The steps -/

theorem Recorded.start (h : Recorded cfg s) (hc : (s.child c).progress = .given) :
    Recorded cfg (s.start cfg c) := by
  unfold State.start
  split
  · refine h.childCompleted (fun how => ?_) .cancelled
    rw [hc]
    nofun
  · have hrun := s.modifyChild_quiet c (fun x => { x with progress := .running }) fun how => by
      rw [hc]
      exact ⟨nofun, nofun⟩
    exact h.quiet (hrun.trans ⟨rfl, rfl, rfl, rfl, rfl, rfl, rfl, fun _ _ => Iff.rfl⟩)

/-- A cancel from outside, or of a group. -/
theorem Recorded.cancelled (h : Recorded cfg s)
    (he : event = .cancelled ∨ event = .groupCancelled ∧ cfg.kind = .taskGroup) :
    Recorded cfg { s with
      decision := if s.decided then s.decision else event.decision
      cancelRequested := s.cancelRequested || event.isCancelled
      history := s.history ++ [event] } := by
  have hnone : event.fails = false ∧ event.decides cfg.kind = true ∧ event.succeeding = none ∧
      event.exception = none ∧ event.error = none := by
    obtain rfl | ⟨rfl, -⟩ := he <;> exact ⟨rfl, rfl, rfl, rfl, rfl⟩
  obtain ⟨hf, hd, hs, hx, herr⟩ := hnone
  refine ⟨h.decision_decides hf hd, ?_, h.winner_loses hs, ?_, fun hk => ?_, fun hk => ?_,
    fun c how => ?_, fun hin => ?_⟩
  · rw [List.any_append, h.cancelRequested]
    simp
  · rw [List.filterMap_append, List.filterMap_cons_none hx, List.filterMap_nil, List.append_nil]
    exact h.exception
  · rw [List.filterMap_append, List.filterMap_cons_none herr, List.filterMap_nil, List.append_nil]
    exact h.firstError hk
  · rw [List.filterMap_append, List.filterMap_cons_none herr, List.filterMap_nil, List.append_nil]
    exact h.errors hk
  · rw [List.mem_append, ← h.ended]
    obtain rfl | ⟨rfl, -⟩ := he <;> simp
  · obtain rfl | ⟨rfl, hk⟩ := he
    · exact h.grouped (by simpa using hin)
    · exact hk

theorem State.decision_eq (s : State V E X) :
    s.decision = if s.decided then s.decision else .none := by
  split
  · rfl
  · next hn => simp_all [State.decided]

theorem Recorded.cancel (h : Recorded cfg s) : Recorded cfg s.cancel := by
  unfold State.cancel
  split
  · exact h
  · refine ((h.cancelled (Or.inl rfl)).quiet ?_).quiet (State.cancelAll_quiet _)
    exact ⟨s.decision_eq, (Bool.or_true _).symm, rfl, rfl, rfl, rfl, rfl, fun _ _ => Iff.rfl⟩

theorem Recorded.groupCancel (h : Recorded cfg s) (hk : cfg.kind = .taskGroup) :
    Recorded cfg s.groupCancel := by
  unfold State.groupCancel
  split
  · exact h
  · next hopen =>
    simp only [Bool.or_eq_true, not_or, Bool.not_eq_true] at hopen
    refine ((h.cancelled (Or.inr ⟨rfl, hk⟩)).quiet ?_).quiet (State.cancelAll_quiet _)
    refine ⟨?_, (Bool.or_false _).symm, rfl, rfl, rfl, rfl, rfl, fun _ _ => Iff.rfl⟩
    exact (if_neg (by simp [hopen.1])).symm

theorem Recorded.join (h : Recorded cfg s) (waitingCancelled : Bool) :
    Recorded cfg (s.join cfg waitingCancelled) := by
  have hjoined : Recorded cfg { s with joined := true } :=
    h.quiet ⟨rfl, rfl, rfl, rfl, rfl, rfl, rfl, fun _ _ => Iff.rfl⟩
  unfold State.join
  dsimp only
  split
  · exact hjoined.quiet (State.settle_quiet _)
  · split
    · refine ((h.cancelled (Or.inl rfl)).quiet ?_).quiet (State.cancelAll_quiet _)
      exact ⟨s.decision_eq, (Bool.or_true _).symm, rfl, rfl, rfl, rfl, rfl,
        fun _ _ => Iff.rfl⟩
    · exact h.quiet ⟨rfl, rfl, rfl, rfl, rfl, rfl, rfl, fun _ _ => Iff.rfl⟩

variable {frame : Frame} {rest : List Frame}

theorem Recorded.tick (h : Recorded cfg s) (hcount : Counted cfg s) (hs : s.stack = frame :: rest)
    (ht : s.tick cfg frame rest = some s') : Recorded cfg s' := by
  obtain ⟨c, cs, rfl, rfl⟩ | ⟨ended, -, -, -, rfl⟩ | ⟨n, rfl, rfl⟩ |
    ⟨n, c, cs, rfl, hsib, rfl⟩ | ⟨outcome, rfl, rfl⟩ := tick_cases ht
  · refine Recorded.start ?_ ?_
    · exact h.quiet ⟨rfl, rfl, rfl, rfl, rfl, rfl, rfl, fun _ _ => Iff.rfl⟩
    · refine (hcount.given c).mpr ?_
      rw [hs, toStart_cons]
      exact List.mem_append_left _ List.mem_cons_self
  · refine Recorded.quiet ?_ (State.settleIfIdle_quiet _)
    exact h.quiet ⟨rfl, rfl, rfl, rfl, rfl, rfl, rfl, fun _ _ => Iff.rfl⟩
  · exact h.quiet ⟨rfl, rfl, rfl, rfl, rfl, rfl, rfl, fun _ _ => Iff.rfl⟩
  · refine Recorded.quiet ?_ (State.cancelChild_quiet _ c)
    exact h.quiet ⟨rfl, rfl, rfl, rfl, rfl, rfl, rfl, fun _ _ => Iff.rfl⟩
  · exact h.quiet ⟨rfl, rfl, rfl, rfl, rfl, rfl, rfl, fun _ _ => Iff.rfl⟩

theorem Recorded.await (h : Recorded cfg s) (hidle : ∀ c, (s.child c).progress = .idle)
    (waitingCancelled : Bool) : Recorded cfg (s.await cfg waitingCancelled) := by
  unfold State.await
  split
  · exact h.quiet ⟨rfl, rfl, rfl, rfl, rfl, rfl, rfl, fun _ _ => Iff.rfl⟩
  · split
    · exact h.quiet ⟨rfl, rfl, rfl, rfl, rfl, rfl, rfl, fun _ _ => Iff.rfl⟩
    · refine h.quiet ⟨rfl, rfl, rfl, rfl, rfl, rfl, rfl, fun c how => ?_⟩
      by_cases hin : c ∈ cfg.tasks <;> simp [State.push, hin, hidle c]

theorem Recorded.spawn (h : Recorded cfg s) (hc : (s.child c).progress = .idle)
    (cancelled : Bool) : Recorded cfg (s.spawn cfg c cancelled) := by
  have hgive := s.modifyChild_quiet c
    (fun _ => { progress := .given, cancelRequested := cancelled }) fun how => by
      rw [hc]
      exact ⟨nofun, nofun⟩
  unfold State.spawn
  split
  · exact h
  · refine Recorded.start ((h.quiet hgive).quiet
      ⟨rfl, rfl, rfl, rfl, rfl, rfl, rfl, fun _ _ => Iff.rfl⟩) ?_
    simp

/-! ## The children of `when_all` and `when_any` -/

/-- The children of `when_all` and `when_any` are its tasks: nothing happens before
it is awaited, and then all of them are given to it. -/
structure Roster (cfg : Config) (s : State V E X) : Prop where
  history : cfg.kind ≠ .taskGroup → s.joined = false → s.history = []
  armed : cfg.kind ≠ .taskGroup → s.joined = true →
    ∀ c ∈ cfg.tasks, (s.child c).progress ≠ .idle
  members : cfg.kind ≠ .taskGroup → ∀ c, (s.child c).progress ≠ .idle → c ∈ cfg.tasks

theorem roster_fresh (cfg : Config) (cancelled : ChildId → Bool) :
    Roster cfg (fresh cancelled : State V E X) := by
  constructor <;> simp [fresh]

theorem Roster.of_group (hk : cfg.kind = .taskGroup) : Roster cfg s :=
  ⟨fun hn => absurd hk hn, fun hn => absurd hk hn, fun hn => absurd hk hn⟩

theorem Roster.of_idle (h : Roster cfg s) (hj : s'.joined = s.joined)
    (hidle : ∀ c, (s'.child c).progress = .idle ↔ (s.child c).progress = .idle)
    (hh : cfg.kind ≠ .taskGroup → s.joined = false → s'.history = s.history) :
    Roster cfg s' := by
  refine ⟨fun hk hn => ?_, fun hk ht c hin => ?_, fun hk c hn => ?_⟩
  · rw [hj] at hn
    exact (hh hk hn).trans (h.history hk hn)
  · rw [Ne, hidle]
    exact h.armed hk (hj ▸ ht) c hin
  · rw [Ne, hidle] at hn
    exact h.members hk c hn

/-- Before it is awaited, no child of `when_all` or `when_any` does anything. -/
theorem Roster.idle (h : Roster cfg s) (hcount : Counted cfg s) (hrec : Recorded cfg s)
    (hk : cfg.kind ≠ .taskGroup) (hj : s.joined = false) (c : ChildId) :
    (s.child c).progress = .idle := by
  have hn := hcount.not_unended (hcount.unarmed hj hk) c
  cases hp : (s.child c).progress with
  | idle => rfl
  | given => exact absurd hp hn.1
  | running => exact absurd hp hn.2
  | ended how =>
    have := (hrec.ended c how).mp hp
    rw [h.history hk hj] at this
    cases this

theorem State.childCompleted_idle (hc : (s.child c).progress ≠ .idle) (how : End V E X)
    (d : ChildId) :
    ((s.childCompleted cfg c how).child d).progress = .idle ↔ (s.child d).progress = .idle := by
  rw [(s.childCompleted_bones cfg c how).progress, State.leave_child]
  by_cases hd : d = c
  · subst hd
    simp [hc]
  · simp [hd]

theorem State.start_idle (hc : (s.child c).progress = .given) (d : ChildId) :
    ((s.start cfg c).child d).progress = .idle ↔ (s.child d).progress = .idle := by
  unfold State.start
  split
  · exact State.childCompleted_idle (by simp [hc]) .cancelled d
  · change ((s.modifyChild c fun x => { x with progress := .running }).child d).progress = _ ↔ _
    rw [State.modifyChild_child]
    by_cases hd : d = c
    · subst hd
      simp [hc]
    · simp [hd]

theorem State.start_settled : (s.start cfg c).joined = s.joined ∧
    (s.start cfg c).awaited = s.awaited := by
  unfold State.start
  split
  · have hb := s.childCompleted_bones cfg c .cancelled
    exact ⟨hb.joined, hb.awaited⟩
  · exact ⟨rfl, rfl⟩

theorem State.settleIfIdle_roster :
    (s.settleIfIdle cfg).joined = s.joined ∧ (s.settleIfIdle cfg).child = s.child := by
  unfold State.settleIfIdle State.settle
  split
  · exact ⟨rfl, rfl⟩
  · dsimp only
    split <;> exact ⟨rfl, rfl⟩

/-- A call that counts is under way only after the aggregate was awaited. -/
theorem Counted.not_unarmed (h : Counted cfg s) (hk : cfg.kind ≠ .taskGroup)
    (hj : s.joined = false) :
    s.siblings = [] ∧ completing s.stack = 0 ∧ pins s.stack = 0 :=
  h.of_pending_zero (h.unarmed hj hk)

theorem Roster.tick (h : Roster cfg s) (hcount : Counted cfg s) (hs : s.stack = frame :: rest)
    (ht : s.tick cfg frame rest = some s') : Roster cfg s' := by
  obtain ⟨c, cs, rfl, rfl⟩ | ⟨ended, -, -, -, rfl⟩ | ⟨n, rfl, rfl⟩ |
    ⟨n, c, cs, rfl, hsib, rfl⟩ | ⟨outcome, rfl, rfl⟩ := tick_cases ht
  · have hg : (s.child c).progress = .given := by
      refine (hcount.given c).mpr ?_
      rw [hs, toStart_cons]
      exact List.mem_append_left _ List.mem_cons_self
    refine h.of_idle State.start_settled.1 (State.start_idle hg) fun hk hj => ?_
    have hp := (hcount.not_unarmed hk hj).2.2
    simp [hs, Frame.isPin] at hp
  · refine h.of_idle State.settleIfIdle_roster.1 (fun d => ?_) fun _ _ => ?_
    · rw [State.settleIfIdle_roster.2]
    · rw [(State.settleIfIdle_quiet _).history]
  · exact h.of_idle rfl (fun _ => Iff.rfl) fun _ _ => rfl
  · have hb := State.cancelChild_bones ({ s with
      stack := .cancelChildren n :: rest, siblings := cs ++ [c] } : State V E X) c
    refine h.of_idle hb.joined (fun d => ?_) fun _ _ => ?_
    · rw [hb.progress]
    · rw [(State.cancelChild_quiet _ c).history]
  · exact h.of_idle rfl (fun _ => Iff.rfl) fun _ _ => rfl

theorem Roster.finish (h : Roster cfg s) (hcount : Counted cfg s)
    (hc : (s.child c).progress = .running) (how : End V E X) :
    Roster cfg (s.childCompleted cfg c how) := by
  refine h.of_idle (s.childCompleted_bones cfg c how).joined
    (State.childCompleted_idle (by simp [hc]) how) fun hk hj => ?_
  have hmem := (hcount.siblings c).mpr (Or.inr hc)
  rw [(hcount.not_unarmed hk hj).1] at hmem
  cases hmem

theorem Roster.await (h : Roster cfg s) (hidle : ∀ c, (s.child c).progress = .idle)
    (waitingCancelled : Bool) : Roster cfg (s.await cfg waitingCancelled) := by
  unfold State.await
  split
  · next hnil =>
    refine ⟨nofun, fun _ _ c hin => ?_, h.members⟩
    rw [hnil] at hin
    cases hin
  · split
    · exact h.of_idle rfl (fun _ => Iff.rfl) fun _ _ => rfl
    · refine ⟨nofun, fun _ _ c hin => ?_, fun _ c hn => ?_⟩
      · simp [State.push, hin]
      · by_contra hin
        exact hn (by simp [State.push, hin, hidle c])

theorem Roster.cancel (h : Roster cfg s) (hj : s.joined = true) : Roster cfg s.cancel := by
  unfold State.cancel
  split
  · exact h
  · refine h.of_idle rfl (fun _ => Iff.rfl) fun _ hn => ?_
    rw [hj] at hn
    cases hn

/-! ## What is delivered -/

/-- What was delivered, or is about to be, is the outcome of the events. -/
def Delivered (cfg : Config) (s : State V E X) : Prop :=
  s.Settled → (∀ st, st ∈ s.deliveries ∨ .deliver st ∈ s.stack →
      st = outcomeOf cfg.kind s.history) ∧
    (s.state = outcomeOf cfg.kind s.history ∨ s.state = .pending)

theorem delivered_fresh (cfg : Config) (cancelled : ChildId → Bool) :
    Delivered cfg (fresh cancelled : State V E X) := nofun

/-- Nothing is delivered before the outcome is fixed. -/
theorem Counted.undelivered (h : Counted cfg s) (hn : ¬s.Settled) :
    s.deliveries.length + delivering s.stack = 0 := h.delivered.trans (if_neg hn)

theorem no_deliver {stack : List Frame} (h : delivering stack = 0) (st : NodeState) :
    .deliver st ∉ stack := fun hin => List.countP_eq_zero.mp h _ hin rfl

theorem Recorded.settle_delivered (h : Recorded cfg s)
    (hd : s.deliveries.length + delivering s.stack = 0) : Delivered cfg (s.settle cfg) := by
  have hnil : s.deliveries = [] := List.length_eq_zero_iff.mp (by omega)
  have hnone := no_deliver (show delivering s.stack = 0 by omega)
  unfold State.settle
  intro _
  split
  · refine ⟨fun st hst => ?_, Or.inl h.settledState⟩
    simp only [State.push, hnil, List.not_mem_nil, false_or, List.mem_cons, reduceCtorEq,
      Frame.deliver.injEq, hnone, or_false] at hst
    rw [hst]
    exact h.settledState
  · refine ⟨fun st hst => ?_, Or.inl h.settledState⟩
    simp only [hnil, List.nil_append, List.mem_singleton, hnone, or_false] at hst
    rw [hst]
    exact h.settledState

/-- While something is counted, the outcome is not fixed. -/
theorem Counted.not_settled (h : Counted cfg s)
    (hc : s.siblings ≠ [] ∨ completing s.stack ≠ 0 ∨ pins s.stack ≠ 0) : ¬s.Settled := by
  intro hset
  obtain ⟨h1, h2, h3⟩ := h.of_pending_zero (h.settled hset).1
  obtain hc | hc | hc := hc
  · exact hc h1
  · exact hc h2
  · exact hc h3

theorem Delivered.tick (h : Delivered cfg s) (hcount : Counted cfg s) (hrec : Recorded cfg s)
    (hs : s.stack = frame :: rest) (ht : s.tick cfg frame rest = some s') : Delivered cfg s' := by
  obtain ⟨c, cs, rfl, rfl⟩ | ⟨ended, hf, hd, -, rfl⟩ | ⟨n, rfl, rfl⟩ |
    ⟨n, c, cs, rfl, hsib, rfl⟩ | ⟨outcome, rfl, rfl⟩ := tick_cases ht
  · intro hset
    have hn := hcount.not_settled (Or.inr (Or.inr (by simp [hs, Frame.isPin])))
    rw [State.Settled, State.start_settled.1, State.start_settled.2] at hset
    exact absurd hset hn
  · have hn : ¬s.Settled := by
      refine hcount.not_settled ?_
      obtain ⟨hc, -⟩ | ⟨-, hp⟩ := hf
      · exact Or.inr (Or.inl (by simp [hs, hc]))
      · exact Or.inr (Or.inr (by simp [hs, hp]))
    have hund := hcount.undelivered hn
    rw [hs, delivering_cons, hd] at hund
    unfold State.settleIfIdle
    split
    · exact fun hset => absurd hset hn
    · refine Recorded.settle_delivered ?_ (by simpa using hund)
      exact hrec.quiet ⟨rfl, rfl, rfl, rfl, rfl, rfl, rfl, fun _ _ => Iff.rfl⟩
  · intro hset
    refine ⟨fun st hst => (h hset).1 st (hst.imp_right fun hin => ?_), (h hset).2⟩
    rw [hs]
    exact List.mem_cons_of_mem _ hin
  · intro hset
    have hn := hcount.not_settled (Or.inl (by simp [hsib]))
    have hb := State.cancelChild_bones ({ s with
      stack := .cancelChildren n :: rest, siblings := cs ++ [c] } : State V E X) c
    rw [State.Settled, hb.joined, hb.awaited] at hset
    exact absurd hset hn
  · intro hset
    refine ⟨fun st hst => (h hset).1 st ?_, (h hset).2⟩
    rw [hs]
    obtain hin | hin := hst
    · obtain hin | hin := List.mem_append.mp hin
      · exact Or.inl hin
      · rw [List.mem_singleton.mp hin]
        exact Or.inr List.mem_cons_self
    · exact Or.inr (List.mem_cons_of_mem _ hin)

theorem Delivered.finish (hcount : Counted cfg s) (hc : (s.child c).progress = .running)
    (how : End V E X) : Delivered cfg (s.childCompleted cfg c how) := by
  intro hset
  have hmem := (hcount.siblings c).mpr (Or.inr hc)
  have hn := hcount.not_settled (Or.inl (List.ne_nil_of_mem hmem))
  have hb := s.childCompleted_bones cfg c how
  rw [State.Settled, hb.joined, hb.awaited] at hset
  exact absurd hset hn

theorem Delivered.await (hcount : Counted cfg s) (hj : s.joined = false)
    (hh : s.history = []) (waitingCancelled : Bool) :
    Delivered cfg (s.await cfg waitingCancelled) := by
  have hn : ¬s.Settled := fun hset => absurd (hj.symm.trans hset.1) nofun
  have hund := hcount.undelivered hn
  have hnil : s.deliveries = [] := List.length_eq_zero_iff.mp (by omega)
  unfold State.await
  split
  · intro _
    refine ⟨fun st hst => ?_, Or.inr (hcount.unawaited hj).1⟩
    have hnone := no_deliver (show delivering s.stack = 0 by omega) st
    simp only [hnil, List.nil_append, List.mem_singleton, hnone, or_false] at hst
    rw [hst, hh]
    rfl
  · split
    · exact fun hset => absurd hset hn
    · nofun

theorem Delivered.spawn (h : Delivered cfg s) (hcount : Counted cfg s)
    (hk : cfg.kind = .taskGroup) (cancelled : Bool) :
    Delivered cfg (s.spawn cfg c cancelled) := by
  unfold State.spawn
  split
  · exact h
  · next hopen =>
    intro hset
    rw [State.Settled, State.start_settled.1, State.start_settled.2] at hset
    have hdone := (hcount.settled hset).2 hk
    simp [hdone] at hopen

theorem Delivered.cancel (h : Delivered cfg s) (ha : s.awaited = true) :
    Delivered cfg s.cancel := by
  unfold State.cancel
  split
  · exact h
  · exact fun hset => absurd (ha.symm.trans hset.2) nofun

theorem Delivered.groupCancel (h : Delivered cfg s) (hcount : Counted cfg s)
    (hk : cfg.kind = .taskGroup) : Delivered cfg s.groupCancel := by
  unfold State.groupCancel
  split
  · exact h
  · next hopen =>
    intro hset
    have hdone := (hcount.settled hset).2 hk
    simp [hdone] at hopen

theorem Delivered.join (hcount : Counted cfg s) (hrec : Recorded cfg s) (hj : s.joined = false)
    (waitingCancelled : Bool) : Delivered cfg (s.join cfg waitingCancelled) := by
  have hund := hcount.undelivered fun hset => absurd (hj.symm.trans hset.1) nofun
  unfold State.join
  dsimp only
  split
  · refine Recorded.settle_delivered ?_ hund
    exact hrec.quiet ⟨rfl, rfl, rfl, rfl, rfl, rfl, rfl, fun _ _ => Iff.rfl⟩
  · split <;> nofun

/-! ## Every run -/

/-- What holds of an aggregate in every state. -/
structure Invariant (cfg : Config) (s : State V E X) : Prop where
  counted : Counted cfg s
  recorded : Recorded cfg s
  roster : Roster cfg s
  delivered : Delivered cfg s

theorem Invariant.step {op : Op V E X} (h : Invariant cfg s)
    (hs : Aggregate.step cfg s op = some s') : Invariant cfg s' := by
  suffices hrest : Recorded cfg s' ∧ Roster cfg s' ∧ Delivered cfg s' from
    ⟨h.counted.step hs, hrest.1, hrest.2.1, hrest.2.2⟩
  obtain ⟨hcount, hrec, hroster, hdel⟩ := h
  obtain ⟨frame, rest, hstack, ht⟩ | ⟨rest, hstack, rfl⟩ | ⟨c, how, hr, rfl⟩ |
    ⟨waitingCancelled, hk, hj, rfl⟩ | ⟨ha, rfl⟩ | ⟨c, cancelled, hk, hi, rfl⟩ | ⟨hk, rfl⟩ |
    ⟨waitingCancelled, hk, hj, rfl⟩ | rfl := step_cases hs
  · exact ⟨hrec.tick hcount hstack ht, hroster.tick hcount hstack ht,
      hdel.tick hcount hrec hstack ht⟩
  · refine ⟨hrec.quiet ⟨rfl, rfl, rfl, rfl, rfl, rfl, rfl, fun _ _ => Iff.rfl⟩,
      hroster.of_idle rfl (fun _ => Iff.rfl) fun _ _ => rfl, fun hset => ?_⟩
    refine ⟨fun st hst => (hdel hset).1 st (hst.imp_right fun hin => ?_), (hdel hset).2⟩
    rw [hstack]
    exact List.mem_cons_of_mem _ hin
  · refine ⟨hrec.childCompleted (fun _ => ?_) how, hroster.finish hcount hr how,
      Delivered.finish hcount hr how⟩
    rw [hr]
    nofun
  · have hidle := hroster.idle hcount hrec hk hj
    exact ⟨hrec.await hidle waitingCancelled, hroster.await hidle waitingCancelled,
      Delivered.await hcount hj (hroster.history hk hj) waitingCancelled⟩
  · exact ⟨hrec.cancel, hroster.cancel (hcount.awaited ha).2.1, hdel.cancel ha⟩
  · exact ⟨hrec.spawn hi cancelled, Roster.of_group hk, hdel.spawn hcount hk cancelled⟩
  · exact ⟨hrec.groupCancel hk, Roster.of_group hk, hdel.groupCancel hcount hk⟩
  · exact ⟨hrec.join waitingCancelled, Roster.of_group hk,
      Delivered.join hcount hrec hj waitingCancelled⟩
  · exact ⟨hrec.quiet ⟨rfl, rfl, rfl, rfl, rfl, rfl, rfl, fun _ _ => Iff.rfl⟩,
      hroster.of_idle rfl (fun _ => Iff.rfl) fun _ _ => rfl, hdel⟩

theorem Reachable.invariant (h : Reachable cfg s) : Invariant cfg s := by
  obtain ⟨cancelled, hr⟩ := h
  exact hr.invariant Invariant.step ⟨counts_fresh cfg cancelled, recorded_fresh cfg cancelled,
    roster_fresh cfg cancelled, delivered_fresh cfg cancelled⟩

/-! ## Outcomes -/

theorem decisionOf_eq_error (kind : Kind) (events : List (Event V E X)) :
    decisionOf kind events = .error ↔ ∃ event ∈ events, event.fails = true := by
  rw [← List.any_eq_true]
  unfold decisionOf
  split
  · next hf => simp [hf]
  · next hf =>
    refine iff_of_false ?_ hf
    cases hd : decider kind events with
    | none => simp
    | some event =>
      have hin := List.mem_of_find?_eq_some hd
      have hnf : ¬event.fails = true := fun he => hf (List.any_eq_true.mpr ⟨event, hin, he⟩)
      cases event with
      | ended c how => cases how <;> simp_all [Event.decision, Event.fails]
      | cancelled => simp [Event.decision]
      | groupCancelled => simp [Event.decision]

/-- The first event that decides is one that nothing before it decides. -/
theorem decider_eq_some :
    decider kind events = some event ↔ event.decides kind = true ∧
      ∃ before after, events = before ++ event :: after ∧
        ∀ e ∈ before, e.decides kind = false := by
  rw [decider, List.find?_eq_some_iff_append]
  simp

theorem decisionOf_eq_cancel (kind : Kind) (events : List (Event V E X)) :
    decisionOf kind events = .cancel ↔ (∀ event ∈ events, event.fails = false) ∧
      ∃ c, decider kind events = some (.ended c .cancelled) := by
  unfold decisionOf
  split
  · next hf =>
    obtain ⟨event, hin, he⟩ := List.any_eq_true.mp hf
    simp only [reduceCtorEq, false_iff, not_and]
    intro hall
    exact absurd (hall event hin) (by simp [he])
  · next hf =>
    have hall : ∀ event ∈ events, event.fails = false := by
      simpa using hf
    rw [and_iff_right hall]
    cases hd : decider kind events with
    | none => simp
    | some event =>
      cases event with
      | ended c how => cases how <;> simp [Event.decision]
      | cancelled => simp [Event.decision]
      | groupCancelled => simp [Event.decision]

theorem any_isCancelled : events.any Event.isCancelled = true ↔ .cancelled ∈ events := by
  rw [List.any_eq_true]
  constructor
  · rintro ⟨⟨c, how⟩ | _ | _, hin, he⟩
    · cases he
    · exact hin
    · cases he
  · exact fun hin => ⟨_, hin, rfl⟩

theorem outcomeOf_eq_failed :
    outcomeOf kind events = .failed ↔ ∃ event ∈ events, event.fails = true := by
  rw [← decisionOf_eq_error kind]
  unfold outcomeOf
  split
  · simp_all
  · split <;> simp_all

theorem outcomeOf_eq_cancelled :
    outcomeOf kind events = .cancelled ↔ (∀ event ∈ events, event.fails = false) ∧
      (.cancelled ∈ events ∨ ∃ c, decider kind events = some (.ended c .cancelled)) := by
  have herr := decisionOf_eq_error kind events
  have hcan := decisionOf_eq_cancel kind events
  unfold outcomeOf
  split
  · next hd =>
    obtain ⟨event, hin, he⟩ := herr.mp hd
    simp only [reduceCtorEq, false_iff, not_and]
    intro hall
    exact absurd (hall event hin) (by simp [he])
  · next hd =>
    have hall : ∀ event ∈ events, event.fails = false := by
      intro event hin
      by_contra he
      exact hd (herr.mpr ⟨event, hin, Bool.eq_true_of_not_eq_false he⟩)
    have hcond : (decisionOf kind events = .cancel || events.any Event.isCancelled) = true ↔
        .cancelled ∈ events ∨ ∃ c, decider kind events = some (.ended c .cancelled) := by
      rw [Bool.or_eq_true, decide_eq_true_eq, hcan, any_isCancelled, and_iff_right hall, or_comm]
    rw [and_iff_right hall, ← hcond]
    split <;> simp_all

theorem outcomeOf_cases (kind : Kind) (events : List (Event V E X)) :
    outcomeOf kind events = .failed ∨ outcomeOf kind events = .cancelled ∨
      outcomeOf kind events = .succeeded := by
  unfold outcomeOf
  split
  · exact Or.inl rfl
  · split
    · exact Or.inr (Or.inl rfl)
    · exact Or.inr (Or.inr rfl)

/-! ## Results -/

theorem Event.fails_iff : event.fails = true ↔
    ∃ c, (∃ error, event = .ended c (.failed error)) ∨
      ∃ exception, event = .ended c (.threw exception) := by
  cases event with
  | ended c how => cases how <;> simp [Event.fails]
  | cancelled => simp [Event.fails]
  | groupCancelled => simp [Event.fails]

theorem filterMap_exception_nil (h : ∀ event ∈ events, event.fails = false) :
    events.filterMap Event.exception = [] := by
  rw [List.filterMap_eq_nil_iff]
  intro event hin
  have hf := h event hin
  cases event with
  | ended c how => cases how <;> simp_all [Event.exception, Event.fails]
  | cancelled => rfl
  | groupCancelled => rfl

theorem filterMap_error_nil (h : ∀ event ∈ events, event.fails = false) :
    events.filterMap Event.error = [] := by
  rw [List.filterMap_eq_nil_iff]
  intro event hin
  have hf := h event hin
  cases event with
  | ended c how => cases how <;> simp_all [Event.error, Event.fails]
  | cancelled => rfl
  | groupCancelled => rfl

/-- Without a failure, `await_resume` of `when_all` and `when_any` collects the values. -/
theorem Recorded.awaitResume (h : Recorded cfg s) (hk : cfg.kind ≠ .taskGroup)
    (hf : ∀ event ∈ s.history, event.fails = false) (hst : s.state ≠ .cancelled) :
    s.awaitResume cfg = s.collectSuccess cfg := by
  have hx : s.exception = none := by
    rw [h.exception, filterMap_exception_nil hf]
    rfl
  have he : s.firstError = none := by
    rw [h.firstError hk, filterMap_error_nil hf]
    rfl
  rw [State.awaitResume, hx]
  simp only [hk, if_false, he, hst, decide_false, Bool.and_false, Bool.false_eq_true]

theorem mapM_some {α β : Type} {f : α → Option β} {as : List α}
    (h : ∀ a ∈ as, ∃ b, f a = some b) :
    ∃ bs, as.mapM f = some bs ∧ List.Forall₂ (fun a b => f a = some b) as bs := by
  induction as with
  | nil => exact ⟨[], rfl, .nil⟩
  | cons a as ih =>
    obtain ⟨b, hb⟩ := h a List.mem_cons_self
    obtain ⟨bs, hbs, hall⟩ := ih fun a' hin => h a' (List.mem_cons_of_mem _ hin)
    exact ⟨b :: bs, by simp [List.mapM_cons, hb, hbs], .cons hb hall⟩

theorem State.successOf_eq_some {v : V} :
    s.successOf c = some v ↔ (s.child c).progress = .ended (.succeeded v) := by
  unfold State.successOf
  split <;> simp_all

/-- A child of `when_all` or `when_any` has ended when the aggregate has settled. -/
theorem Invariant.task_ended (h : Invariant cfg s) (hset : s.Settled)
    (hk : cfg.kind ≠ .taskGroup) (hc : c ∈ cfg.tasks) :
    ∃ how, (s.child c).progress = .ended how := by
  have hn := h.counted.not_unended (h.counted.settled hset).1 c
  cases hp : (s.child c).progress with
  | idle => exact absurd hp (h.roster.armed hk hset.1 c hc)
  | given => exact absurd hp hn.1
  | running => exact absurd hp hn.2
  | ended how => exact ⟨how, rfl⟩

theorem not_fails_of_succeeded (hst : outcomeOf kind events = .succeeded) :
    ∀ event ∈ events, event.fails = false := by
  intro event hin
  by_contra hf
  rw [outcomeOf_eq_failed.mpr ⟨event, hin, Bool.eq_true_of_not_eq_false hf⟩] at hst
  cases hst

/-- In an aggregate that succeeds, what decided is a child that succeeded or the
cancel of a group. -/
theorem decider_of_succeeded (hst : outcomeOf kind events = .succeeded)
    (hd : decider kind events = some event) :
    (∃ c v, event = .ended c (.succeeded v)) ∨ event = .groupCancelled := by
  have hin := List.mem_of_find?_eq_some hd
  have hnf := not_fails_of_succeeded hst
  have hf := hnf event hin
  have hn : ¬outcomeOf kind events = .cancelled := by
    rw [hst]
    nofun
  cases event with
  | ended c how =>
    cases how with
    | succeeded v => exact Or.inl ⟨c, v, rfl⟩
    | failed e => cases hf
    | threw x => cases hf
    | cancelled => exact absurd (outcomeOf_eq_cancelled.mpr ⟨hnf, Or.inr ⟨c, hd⟩⟩) hn
  | cancelled => exact absurd (outcomeOf_eq_cancelled.mpr ⟨hnf, Or.inl hin⟩) hn
  | groupCancelled => exact Or.inr rfl

/-- `when_all` that succeeds has the values of all its tasks, in order. -/
theorem Invariant.whenAll_values (h : Invariant cfg s) (hset : s.Settled)
    (hk : cfg.kind = .whenAll) (hst : outcomeOf cfg.kind s.history = .succeeded) :
    ∃ values, s.collectSuccess cfg = some (.values values) ∧
      List.Forall₂ (fun c v => (s.child c).progress = .ended (.succeeded v)) cfg.tasks values := by
  have hk' : cfg.kind ≠ .taskGroup := by simp [hk]
  have hvalue : ∀ c ∈ cfg.tasks, ∃ v, s.successOf c = some v := by
    intro c hc
    obtain ⟨how, hp⟩ := h.task_ended hset hk' hc
    have hin := (h.recorded.ended c how).mp hp
    have hnf := not_fails_of_succeeded hst _ hin
    cases how with
    | succeeded v => exact ⟨v, State.successOf_eq_some.mpr hp⟩
    | failed e => cases hnf
    | threw x => cases hnf
    | cancelled =>
      have hsome : decider cfg.kind s.history ≠ none := by
        rw [Ne, decider_eq_none, List.any_eq_false]
        intro hall
        exact hall _ hin (by simp [Event.decides, hk'])
      obtain ⟨event, hd⟩ := Option.ne_none_iff_exists'.mp hsome
      have hdecides := (decider_eq_some.mp hd).1
      obtain ⟨d, v, rfl⟩ | rfl := decider_of_succeeded hst hd
      · simp [Event.decides, hk] at hdecides
      · exact absurd (h.recorded.grouped (List.mem_of_find?_eq_some hd)) hk'
  obtain ⟨values, hmap, hall⟩ := mapM_some hvalue
  refine ⟨values, ?_, hall.imp fun c v hv => State.successOf_eq_some.mp hv⟩
  rw [State.collectSuccess, hk]
  simp only [hmap, Option.map_some]

/-- `when_any` that succeeds has a winner: the child whose success decided. -/
theorem Invariant.whenAny_winner (h : Invariant cfg s) (hset : s.Settled)
    (hk : cfg.kind = .whenAny) (hst : outcomeOf cfg.kind s.history = .succeeded) :
    ∃ index c v, decider cfg.kind s.history = some (.ended c (.succeeded v)) ∧
      cfg.tasks[index]? = some c ∧ s.collectSuccess cfg = some (.winner index v) := by
  have hk' : cfg.kind ≠ .taskGroup := by simp [hk]
  obtain ⟨t, ht⟩ := List.exists_mem_of_ne_nil _ (cfg.ne_nil hk)
  obtain ⟨how, hp⟩ := h.task_ended hset hk' ht
  have hsome : decider cfg.kind s.history ≠ none := by
    rw [Ne, decider_eq_none, List.any_eq_false]
    intro hall
    exact hall _ ((h.recorded.ended t how).mp hp) (by cases how <;> simp [Event.decides, hk])
  obtain ⟨event, hd⟩ := Option.ne_none_iff_exists'.mp hsome
  obtain ⟨c, v, rfl⟩ | rfl := decider_of_succeeded hst hd
  · have hw : s.winner = some c := by
      rw [h.recorded.winner, hd]
      rfl
    have hended := (h.recorded.ended c _).mpr (List.mem_of_find?_eq_some hd)
    have hmem : c ∈ cfg.tasks := h.roster.members hk' c (by simp [hended])
    have hfind : (cfg.tasks.findIdx? fun d => decide (s.winner = some d)).isSome = true := by
      rw [List.findIdx?_isSome, List.any_eq_true]
      exact ⟨c, hmem, by simp [hw]⟩
    obtain ⟨index, hindex⟩ := Option.isSome_iff_exists.mp hfind
    have hget : cfg.tasks[index]? = some c := by
      obtain ⟨hlt, hwin, -⟩ := List.findIdx?_eq_some_iff_getElem.mp hindex
      rw [decide_eq_true_eq, hw, Option.some.injEq] at hwin
      rw [List.getElem?_eq_getElem hlt, hwin]
    refine ⟨index, c, v, hd, hget, ?_⟩
    rw [State.collectSuccess, hk]
    simp only [hindex, hget, Option.bind_some, State.successOf_eq_some.mpr hended,
      Option.map_some]
  · exact absurd (h.recorded.grouped (List.mem_of_find?_eq_some hd)) hk'

/-- An aggregate in which a child failed and none threw has an error. -/
theorem filterMap_error_ne_nil (hf : ∃ event ∈ events, event.fails = true)
    (hx : events.filterMap Event.exception = []) : events.filterMap Event.error ≠ [] := by
  obtain ⟨event, hin, hfails⟩ := hf
  obtain ⟨c, ⟨error, rfl⟩ | ⟨exception, rfl⟩⟩ := Event.fails_iff.mp hfails
  · exact List.ne_nil_of_mem (List.mem_filterMap.mpr ⟨_, hin, rfl⟩)
  · have := List.filterMap_eq_nil_iff.mp hx _ hin
    cases this

theorem Recorded.awaitResume_threw {exception : X} (h : Recorded cfg s)
    (hx : (s.history.filterMap Event.exception).head? = some exception) :
    s.awaitResume cfg = some (.rethrow exception) := by
  rw [State.awaitResume, h.exception, hx]

theorem Recorded.awaitResume_failed (h : Recorded cfg s)
    (hf : ∃ event ∈ s.history, event.fails = true)
    (hx : s.history.filterMap Event.exception = []) :
    (cfg.kind = .taskGroup →
      s.awaitResume cfg = some (.errors (s.history.filterMap Event.error))) ∧
    (cfg.kind ≠ .taskGroup → ∃ error, (s.history.filterMap Event.error).head? = some error ∧
      s.awaitResume cfg = some (.error error)) := by
  have hne := filterMap_error_ne_nil hf hx
  have hnone : s.exception = none := by
    rw [h.exception, hx]
    rfl
  constructor
  · intro hk
    rw [State.awaitResume, hnone]
    simp only [hk, if_true, h.errors hk, ne_eq, hne, not_false_eq_true]
  · intro hk
    obtain ⟨error, herror⟩ := Option.isSome_iff_exists.mp (List.isSome_head?.mpr hne)
    refine ⟨error, herror, ?_⟩
    rw [State.awaitResume, hnone]
    simp only [hk, if_false, h.firstError hk, herror]

/-- What is delivered to the task that awaits an aggregate: it failed if some child
did; else it was cancelled if a cancel came from outside or, but for a group, a
child ended cancelled before anything decided; else it succeeded. `when_all` that
succeeds gives the values of its tasks in order, `when_any` the value of the child
whose success decided; a failure gives the first exception, else the first error
or, for a group, all errors in the order of failure. -/
theorem Reachable.outcome (h : Reachable cfg s) {st : NodeState} (hd : s.deliveries = [st]) :
    (∀ c how, (s.child c).progress = .ended how ↔ .ended c how ∈ s.history) ∧
      (st = .failed ↔
        ∃ c how, (s.child c).progress = .ended how ∧ (Event.ended c how).fails = true) ∧
      (st = .cancelled ↔ st ≠ .failed ∧ (.cancelled ∈ s.history ∨
        cfg.kind ≠ .taskGroup ∧ ∃ before c after,
          s.history = before ++ .ended c .cancelled :: after ∧
            ∀ event ∈ before, event.decides cfg.kind = false)) ∧
      (st = .failed ∨ st = .cancelled ∨ st = .succeeded) ∧
      (st = .succeeded → cfg.kind = .whenAll → ∃ values,
        s.awaitResume cfg = some (.values values) ∧
          List.Forall₂ (fun c v => (s.child c).progress = .ended (.succeeded v))
            cfg.tasks values) ∧
      (st = .succeeded → cfg.kind = .whenAny → ∃ index c v before after,
        s.winner = some c ∧ cfg.tasks[index]? = some c ∧
          s.awaitResume cfg = some (.winner index v) ∧
          s.history = before ++ .ended c (.succeeded v) :: after ∧
            ∀ event ∈ before, event.decides cfg.kind = false) ∧
      (st = .failed →
        (∀ exception, (s.history.filterMap Event.exception).head? = some exception →
          s.awaitResume cfg = some (.rethrow exception)) ∧
        (s.history.filterMap Event.exception = [] →
          (cfg.kind = .taskGroup →
            s.awaitResume cfg = some (.errors (s.history.filterMap Event.error))) ∧
          (cfg.kind ≠ .taskGroup →
            ∃ error, (s.history.filterMap Event.error).head? = some error ∧
              s.awaitResume cfg = some (.error error)))) := by
  have hi := h.invariant
  have hset : s.Settled := hi.counted.settled_of_deliveries (by simp [hd])
  have hst : st = outcomeOf cfg.kind s.history :=
    (hi.delivered hset).1 st (Or.inl (by simp [hd]))
  have hstate : outcomeOf cfg.kind s.history = .succeeded → s.state ≠ .cancelled := by
    intro hs
    obtain hstate | hstate := (hi.delivered hset).2
    · rw [hstate, hs]
      nofun
    · rw [hstate]
      nofun
  refine ⟨hi.recorded.ended, ?_, ?_, ?_, ?_, ?_, ?_⟩
  · rw [hst, outcomeOf_eq_failed]
    constructor
    · rintro ⟨event, hin, hf⟩
      obtain ⟨c, ⟨error, rfl⟩ | ⟨exception, rfl⟩⟩ := Event.fails_iff.mp hf
      · exact ⟨c, _, (hi.recorded.ended c _).mpr hin, rfl⟩
      · exact ⟨c, _, (hi.recorded.ended c _).mpr hin, rfl⟩
    · rintro ⟨c, how, hp, hf⟩
      exact ⟨_, (hi.recorded.ended c how).mp hp, hf⟩
  · have hnf : st ≠ .failed ↔ ∀ event ∈ s.history, event.fails = false := by
      rw [hst, Ne, outcomeOf_eq_failed]
      simp
    rw [hnf, hst, outcomeOf_eq_cancelled]
    refine and_congr_right fun _ => or_congr_right ⟨?_, ?_⟩
    · rintro ⟨c, hc⟩
      obtain ⟨hdec, before, after, heq, hall⟩ := decider_eq_some.mp hc
      refine ⟨?_, before, c, after, heq, hall⟩
      simpa [Event.decides] using hdec
    · rintro ⟨hk, before, c, after, heq, hall⟩
      exact ⟨c, decider_eq_some.mpr ⟨by simp [Event.decides, hk], before, after, heq, hall⟩⟩
  · rw [hst]
    exact outcomeOf_cases cfg.kind s.history
  · intro hs hk
    rw [hst] at hs
    obtain ⟨values, hvalues, hall⟩ := hi.whenAll_values hset hk hs
    refine ⟨values, ?_, hall⟩
    rw [hi.recorded.awaitResume (by simp [hk]) (not_fails_of_succeeded hs) (hstate hs), hvalues]
  · intro hs hk
    rw [hst] at hs
    obtain ⟨index, c, v, hdec, hget, hwin⟩ := hi.whenAny_winner hset hk hs
    obtain ⟨-, before, after, heq, hall⟩ := decider_eq_some.mp hdec
    refine ⟨index, c, v, before, after, ?_, hget, ?_, heq, hall⟩
    · rw [hi.recorded.winner, hdec]
      rfl
    · rw [hi.recorded.awaitResume (by simp [hk]) (not_fails_of_succeeded hs) (hstate hs), hwin]
  · intro hs
    rw [hst] at hs
    exact ⟨fun exception hx => hi.recorded.awaitResume_threw hx,
      hi.recorded.awaitResume_failed (outcomeOf_eq_failed.mp hs)⟩

/-- Three tasks, the first to succeed wins. -/
private def race : Config where
  kind := .whenAny
  tasks := [4, 5, 6]
  intercept := false
  nodup := by decide
  ne_nil := nofun
  group := nofun

/-- The second task wins as it starts; the first is cancelled by that and fails, the
third ends without running. -/
private def lateFailure : List (Op Nat Nat Nat) :=
  [.await false, .tick, .ret, .tick, .finish 5 (.succeeded 1), .tick, .finish 4 (.failed 2),
    .tick, .ret, .tick, .tick, .tick, .ret, .tick, .tick, .tick]

theorem Reachable.outcome_lateFailure :
    let s := (run (step race) (fresh fun _ => false) lateFailure).get rfl
    s.deliveries = [.failed] ∧ s.awaitResume race = some (.error 2) := by
  have hr : Reachable race ((run (step race) (fresh fun _ => false) lateFailure).get rfl) :=
    ⟨_, Reach.of_isSome lateFailure rfl⟩
  have hd := hr.outcome (show _ = [NodeState.failed] from rfl)
  obtain ⟨error, herror, hres⟩ := (hd.2.2.2.2.2.2 rfl).2 rfl |>.2 nofun
  refine ⟨rfl, hres.trans ?_⟩
  obtain rfl : 2 = error := Option.some.inj herror
  rfl

end Kotatsu.Async.Aggregate
