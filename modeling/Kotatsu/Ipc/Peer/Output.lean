import Kotatsu.Ipc.Peer.Handlers

/-!
# The output of a peer that serves

What the write loop has handed to the transport is the beginning of what was
accepted, and while the output is open the rest is queued. Two invariants carry
this: `Traffic` relates the log to the queue and the flag, and `Awake` says what
the write loop finds when it goes on. A half-close, a failed write and a close
leave the output closed, and with it nothing is accepted; a loop that goes on
after them finds the queue empty.
-/

namespace Kotatsu.Ipc.Serve

open Kotatsu.Core
open Kotatsu.Ipc.Peer (RequestId Error Wire)

/-! ## The log -/

/-- The messages that were accepted. -/
def accepted (log : List Event) : List Bytes :=
  log.filterMap fun
    | .accepted payload => some payload
    | _ => none

/-- The messages that were handed to the transport. -/
def handed (log : List Event) : List Bytes :=
  log.flatMap fun
    | .handed batch => batch
    | _ => []

/-- After these, the output takes nothing more. -/
def Event.isStop : Event → Bool
  | .halfClosed => true
  | .writeFailed => true
  | .closed => true
  | _ => false

/-- Something is accepted or handed over. -/
def Event.isTraffic : Event → Bool
  | .accepted _ => true
  | .handed _ => true
  | _ => false

/-- The input has ended, and every handler that was dispatched. -/
def Answered (log : List Event) : Prop :=
  .inputEnded ∈ log ∧ ∀ k id, .dispatched k id ∈ log → ∃ id', .attempted (some k) id' ∈ log

/-- The log, against the queue and the output's flag. -/
structure Traffic (s : State) : Prop where
  queued : s.outputOpen = true → accepted s.log = handed s.log ++ s.queue
  inOrder : handed s.log <+: accepted s.log
  stopped : ∀ e ∈ s.log, e.isStop = true → s.outputOpen = false
  silent : ∀ before e after, s.log = before ++ e :: after → e.isStop = true →
    ∀ e' ∈ after, e'.isTraffic = false
  halfClosed : ∀ before after, s.log = before ++ .halfClosed :: after →
    .halfClosed ∉ before ∧ .halfClosed ∉ after ∧ accepted before = handed before ∧
    (.outputEnd ∈ before ∨ Answered before)

theorem accepted_concat (log : List Event) (e : Event) :
    accepted (log ++ [e]) = accepted log ++ accepted [e] := List.filterMap_append

theorem handed_concat (log : List Event) (e : Event) :
    handed (log ++ [e]) = handed log ++ handed [e] := List.flatMap_append

variable {e : Event} {s t : State}

theorem accepted_singleton (h : e.isTraffic = false) : accepted [e] = [] := by
  cases e <;> first | rfl | cases h

theorem handed_singleton (h : e.isTraffic = false) : handed [e] = [] := by
  cases e <;> first | rfl | cases h

/-- An event that is no traffic and no half-close, after which the output is as open as the
queue allows. -/
theorem Traffic.note (h : Traffic s) (hlog : t.log = s.log ++ [e]) (he : e.isTraffic = false)
    (hne : e ≠ .halfClosed)
    (hopen : t.outputOpen = true → s.outputOpen = true ∧ t.queue = s.queue ∧ e.isStop = false) :
    Traffic t where
  queued ho := by
    obtain ⟨hs, hq, -⟩ := hopen ho
    rw [hlog, accepted_concat, handed_concat, accepted_singleton he, handed_singleton he,
      List.append_nil, List.append_nil, hq, h.queued hs]
  inOrder := by
    rw [hlog, accepted_concat, handed_concat, accepted_singleton he, handed_singleton he,
      List.append_nil, List.append_nil]
    exact h.inOrder
  stopped e' he' hstop := by
    by_contra hno
    obtain ⟨hs, -, hns⟩ := hopen (Bool.not_eq_false _ ▸ hno)
    rw [hlog] at he'
    rcases List.mem_append.mp he' with hmem | hmem
    · rw [h.stopped e' hmem hstop] at hs
      cases hs
    · obtain rfl := List.mem_singleton.mp hmem
      rw [hstop] at hns
      cases hns
  silent before e' after heq hstop := by
    rw [hlog] at heq
    obtain ⟨-, -, rfl⟩ | ⟨after', rfl, heq'⟩ := concat_eq_append_cons heq
    · exact List.forall_mem_nil _
    · intro x hx
      rcases List.mem_append.mp hx with hmem | hmem
      · exact h.silent before e' after' heq' hstop x hmem
      · rw [List.mem_singleton.mp hmem]
        exact he
  halfClosed before after heq := by
    rw [hlog] at heq
    obtain ⟨-, rfl, -⟩ | ⟨after', rfl, heq'⟩ := concat_eq_append_cons heq
    · exact absurd rfl hne
    · obtain ⟨hb, ha, hrest⟩ := h.halfClosed before after' heq'
      refine ⟨hb, fun hmem => ?_, hrest⟩
      rcases List.mem_append.mp hmem with hmem | hmem
      · exact ha hmem
      · exact hne (List.mem_singleton.mp hmem).symm

/-- Nothing happens to the log. -/
theorem Traffic.keep (h : Traffic s) (hlog : t.log = s.log)
    (hopen : t.outputOpen = true → s.outputOpen = true ∧ t.queue = s.queue) : Traffic t where
  queued ho := by
    obtain ⟨hs, hq⟩ := hopen ho
    rw [hlog, hq, h.queued hs]
  inOrder := hlog ▸ h.inOrder
  stopped e he hstop := by
    by_contra hno
    obtain ⟨hs, -⟩ := hopen (Bool.not_eq_false _ ▸ hno)
    rw [hlog] at he
    rw [h.stopped e he hstop] at hs
    cases hs
  silent := hlog ▸ h.silent
  halfClosed := hlog ▸ h.halfClosed

/-- Traffic through an open output. -/
theorem Traffic.carry (h : Traffic s) (ho : s.outputOpen = true) (hlog : t.log = s.log ++ [e])
    (he : e.isTraffic = true) (hqueue : accepted t.log = handed t.log ++ t.queue) : Traffic t where
  queued _ := hqueue
  inOrder := ⟨t.queue, hqueue.symm⟩
  stopped e' he' hstop := by
    rw [hlog] at he'
    rcases List.mem_append.mp he' with hmem | hmem
    · rw [h.stopped e' hmem hstop] at ho
      cases ho
    · rw [List.mem_singleton.mp hmem] at hstop
      cases e <;> first | exact Bool.noConfusion hstop | exact Bool.noConfusion he
  silent before e' after heq hstop := by
    rw [hlog] at heq
    obtain ⟨-, -, rfl⟩ | ⟨after', rfl, heq'⟩ := concat_eq_append_cons heq
    · exact List.forall_mem_nil _
    · have hmem : e' ∈ s.log := by
        rw [heq']
        exact List.mem_append_right _ List.mem_cons_self
      rw [h.stopped e' hmem hstop] at ho
      cases ho
  halfClosed before after heq := by
    rw [hlog] at heq
    obtain ⟨-, rfl, -⟩ | ⟨after', rfl, heq'⟩ := concat_eq_append_cons heq
    · cases he
    · have hmem : .halfClosed ∈ s.log := by
        rw [heq']
        exact List.mem_append_right _ List.mem_cons_self
      rw [h.stopped _ hmem rfl] at ho
      cases ho

/-- A half-close, with everything handed over that was accepted. -/
theorem Traffic.half (h : Traffic s) (ho : s.outputOpen = true) (hqueue : s.queue = [])
    (hwhy : .outputEnd ∈ s.log ∨ Answered s.log) (hlog : t.log = s.log ++ [.halfClosed])
    (hopen : t.outputOpen = false) : Traffic t where
  queued ht := by
    rw [hopen] at ht
    cases ht
  inOrder := by
    rw [hlog, accepted_concat, handed_concat, accepted_singleton rfl, handed_singleton rfl,
      List.append_nil, List.append_nil]
    exact h.inOrder
  stopped _ _ _ := hopen
  silent before e after heq hstop := by
    rw [hlog] at heq
    obtain ⟨-, -, rfl⟩ | ⟨after', rfl, heq'⟩ := concat_eq_append_cons heq
    · exact List.forall_mem_nil _
    · have hmem : e ∈ s.log := by
        rw [heq']
        exact List.mem_append_right _ List.mem_cons_self
      rw [h.stopped e hmem hstop] at ho
      cases ho
  halfClosed before after heq := by
    rw [hlog] at heq
    have hnone : .halfClosed ∉ s.log := by
      intro hmem
      rw [h.stopped _ hmem rfl] at ho
      cases ho
    obtain ⟨rfl, -, rfl⟩ | ⟨after', rfl, heq'⟩ := concat_eq_append_cons heq
    · refine ⟨hnone, List.not_mem_nil, ?_, hwhy⟩
      rw [h.queued ho, hqueue, List.append_nil]
    · refine absurd ?_ hnone
      rw [heq']
      exact List.mem_append_right _ List.mem_cons_self

/-! ## The write loop -/

/-- What the write loop finds when it goes on. -/
structure Awake (s : State) : Prop where
  drained : s.outputOpen = false → s.call = none → s.loop ≠ .ended → s.queue = []
  asleep : s.loop = .sleeping →
    s.queue ≠ [] ∨ s.closingOutput = true ∨ s.answersDone = true → s.writeEvent = true
  closing : s.closingOutput = true → s.outputOpen = true ∨ s.loop = .ended
  calling : s.call.isSome = true → s.outputOpen = false
  halfClosing : s.loop = .halfClosing → s.outputOpen = false
  asked : s.closingOutput = true → .outputEnd ∈ s.log
  answered : s.answersDone = true → s.reading = false ∧ Answered s.log
  read : s.reading = false → .inputEnded ∈ s.log

/-- The output's part of the state. -/
structure Output (s : State) : Prop where
  traffic : Traffic s
  awake : Awake s

/-- `t` has the output of `s`. -/
structure Beside (s t : State) : Prop where
  queue : t.queue = s.queue
  outputOpen : t.outputOpen = s.outputOpen
  closingOutput : t.closingOutput = s.closingOutput
  answersDone : t.answersDone = s.answersDone
  writeEvent : t.writeEvent = s.writeEvent
  loop : t.loop = s.loop
  call : t.call = s.call
  reading : t.reading = s.reading

theorem Output.beside (h : Output s) (hst : Beside s t) (hlog : t.log = s.log) : Output t where
  traffic := h.traffic.keep hlog fun ho => ⟨hst.outputOpen ▸ ho, hst.queue⟩
  awake := by
    obtain ⟨hqueue, hopen, hclosing, hanswers, hevent, hloop, hcall, hreading⟩ := hst
    constructor
    · rw [hopen, hcall, hloop, hqueue]
      exact h.awake.drained
    · rw [hloop, hqueue, hclosing, hanswers, hevent]
      exact h.awake.asleep
    · rw [hclosing, hopen, hloop]
      exact h.awake.closing
    · rw [hcall, hopen]
      exact h.awake.calling
    · rw [hloop, hopen]
      exact h.awake.halfClosing
    · rw [hclosing, hlog]
      exact h.awake.asked
    · rw [hanswers, hreading, hlog]
      exact h.awake.answered
    · rw [hreading, hlog]
      exact h.awake.read

/-- Something is noted after which all that were answered still are. -/
theorem Answered.concat {log : List Event} (h : Answered log) (he : ∀ k id, e ≠ .dispatched k id) :
    Answered (log ++ [e]) := by
  refine ⟨List.mem_append_left _ h.1, fun k id hk => ?_⟩
  rcases List.mem_append.mp hk with hk | hk
  · obtain ⟨id', hid'⟩ := h.2 k id hk
    exact ⟨id', List.mem_append_left _ hid'⟩
  · exact absurd (List.mem_singleton.mp hk).symm (he k id)

/-- Nothing is dispatched once the input has ended. -/
theorem Awake.note (h : Awake s) (he : s.reading = false → ∀ k id, e ≠ .dispatched k id) :
    Awake (s.note e) :=
  { h with
    asked := fun hc => List.mem_append_left _ (h.asked hc)
    answered := fun ha => ⟨(h.answered ha).1, (h.answered ha).2.concat (he (h.answered ha).1)⟩
    read := fun hr => List.mem_append_left _ (h.read hr) }

/-- Something is noted that is not the output's business. -/
theorem Output.note (h : Output s) (he : e.isTraffic = false) (hstop : e.isStop = false)
    (hreading : s.reading = false → ∀ k id, e ≠ .dispatched k id) : Output (s.note e) where
  traffic := by
    refine h.traffic.note rfl he ?_ fun ho => ⟨ho, rfl, hstop⟩
    rintro rfl
    cases hstop
  awake := h.awake.note hreading

/-! ## Operations -/

theorem Output.enqueueOutgoing (h : Output s) (payload : Bytes) :
    Output (s.enqueueOutgoing payload) := by
  unfold State.enqueueOutgoing
  split
  case isTrue => exact h
  case isFalse hrefused =>
    obtain ⟨hopen, hclosing⟩ : s.outputOpen = true ∧ s.closingOutput = false := by
      simpa using hrefused
    refine ⟨h.traffic.carry hopen rfl rfl ?_, ?_⟩
    · simp only [State.note, accepted_concat, handed_concat, h.traffic.queued hopen]
      simp [accepted, handed]
    · exact { h.awake.note fun _ _ _ => Event.noConfusion with
        drained := fun ho => Bool.noConfusion (hopen.symm.trans ho)
        asleep := fun _ _ => rfl }

theorem Output.closeOutput (h : Output s) : Output s.closeOutput := by
  unfold State.closeOutput
  split
  case isTrue hasked =>
    obtain ⟨hopen, -⟩ : s.outputOpen = true ∧ s.closingOutput = false := by simpa using hasked
    refine ⟨h.traffic.note rfl rfl Event.noConfusion fun ho => ⟨ho, rfl, rfl⟩, ?_⟩
    exact { h.awake.note fun _ _ _ => Event.noConfusion with
      asleep := fun _ _ => rfl
      closing := fun _ => .inl hopen
      asked := fun _ => List.mem_append_right _ (List.mem_singleton_self _) }
  case isFalse => exact h

theorem Output.close (h : Output s) : Output s.close := by
  unfold State.close
  split
  case isTrue => exact h
  case isFalse =>
    refine ⟨h.traffic.note rfl rfl Event.noConfusion Bool.noConfusion, ?_⟩
    exact { h.awake.note fun _ _ _ => Event.noConfusion with
      drained := fun _ hc => absurd hc (Option.some_ne_none _)
      asleep := fun hl hq => h.awake.asleep hl (hq.imp_right (.imp_left Bool.noConfusion))
      closing := fun hc => Bool.noConfusion hc
      calling := fun _ => rfl
      halfClosing := fun _ => rfl
      asked := fun hc => Bool.noConfusion hc }

theorem Output.endLoop (h : Output s) (cancelled : Bool) : Output (s.endLoop cancelled) := by
  have hended : Awake { s with outputOpen := false, loop := .ended } :=
    { drained := fun _ _ hl => absurd rfl hl
      asleep := fun hl => WriteLoop.noConfusion hl
      closing := fun _ => .inr rfl
      calling := fun _ => rfl
      halfClosing := fun _ => rfl
      asked := h.awake.asked
      answered := h.awake.answered
      read := h.awake.read }
  unfold State.endLoop
  dsimp only
  split
  · refine ⟨h.traffic.note rfl rfl Event.noConfusion Bool.noConfusion, ?_⟩
    exact { hended.note fun _ _ _ => Event.noConfusion with }
  · exact ⟨h.traffic.keep rfl Bool.noConfusion, hended⟩

theorem Output.failOutput (h : Output s) : Output s.failOutput := by
  unfold State.failOutput
  split
  case isTrue => exact h.endLoop false
  case isFalse =>
    refine ⟨h.traffic.note rfl rfl Event.noConfusion Bool.noConfusion, ?_⟩
    exact { h.awake.note fun _ _ _ => Event.noConfusion with
      drained := fun _ _ _ => rfl
      asleep := fun hl => WriteLoop.noConfusion hl
      closing := fun hc => Bool.noConfusion hc
      calling := fun _ => rfl
      halfClosing := fun _ => rfl
      asked := fun hc => Bool.noConfusion hc }

/-- The loop sleeps with nothing to do while the output is open. -/
theorem Output.sleep (h : Output s)
    (hidle : s.outputOpen = true → s.queue = [] ∧ s.closingOutput = false ∧ s.answersDone = false) :
    Output s.sleep := by
  unfold State.sleep
  split
  case isTrue hopen =>
    obtain ⟨hqueue, hclosing, hanswers⟩ := hidle hopen
    refine ⟨h.traffic.keep rfl fun ho => ⟨ho, rfl⟩, ?_⟩
    exact { h.awake with
      drained := fun ho => absurd (hopen.symm.trans ho) (by decide)
      asleep := fun _ hwork => by
        rcases hwork with hw | hw | hw
        · exact absurd hqueue hw
        · exact Bool.noConfusion (hclosing.symm.trans hw)
        · exact Bool.noConfusion (hanswers.symm.trans hw)
      closing := fun hc => Bool.noConfusion (hclosing.symm.trans hc)
      halfClosing := fun hl => WriteLoop.noConfusion hl }
  case isFalse => exact h.endLoop false

theorem Output.turn (h : Output s) (hidle : s.Idle) (hloop : s.loop ≠ .ended) : Output s.turn := by
  have hcall : s.call = none := Option.isNone_iff_eq_none.mp hidle
  unfold State.turn
  split
  case isTrue hqueue =>
    split
    case isTrue hfinish =>
      have hopen : s.outputOpen = true := by
        rcases Bool.or_eq_true_iff.mp hfinish with hc | hc
        · exact (h.awake.closing hc).resolve_right hloop
        · exact (Bool.and_eq_true_iff.mp hc).2
      have hwhy : .outputEnd ∈ s.log ∨ Answered s.log := by
        rcases Bool.or_eq_true_iff.mp hfinish with hc | hc
        · exact .inl (h.awake.asked hc)
        · exact .inr (h.awake.answered (Bool.and_eq_true_iff.mp hc).1).2
      refine ⟨h.traffic.half hopen hqueue hwhy rfl rfl, ?_⟩
      exact { h.awake.note fun _ _ _ => Event.noConfusion with
        drained := fun _ _ _ => hqueue
        asleep := fun hl => WriteLoop.noConfusion hl
        closing := fun hc => Bool.noConfusion hc
        calling := fun _ => rfl
        halfClosing := fun _ => rfl
        asked := fun hc => Bool.noConfusion hc }
    case isFalse hunfinished =>
      refine h.sleep fun hopen => ⟨hqueue, ?_⟩
      simpa [hopen] using hunfinished
  case isFalse hqueue =>
    have hopen : s.outputOpen = true := by
      by_contra hno
      exact hqueue (h.awake.drained (Bool.eq_false_iff.mpr hno) hcall hloop)
    refine ⟨h.traffic.carry hopen rfl rfl ?_, ?_⟩
    · simp only [State.note, accepted_concat, handed_concat, h.traffic.queued hopen]
      simp [accepted, handed]
    · exact { h.awake.note fun _ _ _ => Event.noConfusion with
        drained := fun _ _ _ => rfl
        asleep := fun hl => WriteLoop.noConfusion hl
        closing := fun _ => .inl hopen
        calling := h.awake.calling
        halfClosing := fun hl => WriteLoop.noConfusion hl
        asked := fun hc => List.mem_append_left _ (h.awake.asked hc) }

theorem Output.handlersCancelled (h : Output s) (hcall : s.call.isSome = true) (closing : Bool) :
    Output (s.handlersCancelled closing) := by
  have hopen := h.awake.calling hcall
  unfold State.handlersCancelled
  dsimp only
  split
  · refine ⟨h.traffic.keep rfl fun ho => Bool.noConfusion (hopen.symm.trans ho), ?_⟩
    exact { h.awake with
      drained := fun _ _ _ => rfl
      asleep := fun _ _ => rfl
      calling := fun hc => Bool.noConfusion hc }
  · unfold State.endLoop
    refine ⟨h.traffic.keep rfl Bool.noConfusion, ?_⟩
    exact { h.awake with
      drained := fun _ _ hl => absurd rfl hl
      asleep := fun hl => WriteLoop.noConfusion hl
      closing := fun _ => .inr rfl
      calling := fun _ => rfl
      halfClosing := fun _ => rfl }

theorem Output.refuse (h : Output s) (wire : Wire) (id : RequestId) (error : Error) :
    Output (s.refuse wire id error) := by
  have hnoted : Output (s.note (.attempted none id)) :=
    h.note rfl rfl fun _ _ _ => Event.noConfusion
  exact State.sendError_induct hnoted.enqueueOutgoing hnoted wire (some id) error

/-- A request is dispatched while the input is read. -/
theorem Output.dispatchRequest (h : Output s) (hreading : s.reading = true) (wire : Wire)
    (id : RequestId) (method : String) (registered : Bool) :
    Output (s.dispatchRequest wire id method registered) := by
  have hadded : Output { s with incoming := s.incoming ++ [(id, s.made)] } :=
    h.beside ⟨rfl, rfl, rfl, rfl, rfl, rfl, rfl, rfl⟩ rfl
  unfold State.dispatchRequest
  split
  · exact h.refuse wire id _
  · split
    · exact h.refuse wire id _
    · dsimp only
      split
      · exact (hadded.refuse wire id _).beside ⟨rfl, rfl, rfl, rfl, rfl, rfl, rfl, rfl⟩ rfl
      · refine Output.note ?_ rfl rfl fun hr => Bool.noConfusion (hreading.symm.trans hr)
        exact h.beside ⟨rfl, rfl, rfl, rfl, rfl, rfl, rfl, rfl⟩ rfl

theorem Output.cancelRequest (h : Output s) (id : RequestId) : Output (s.cancelRequest id) := by
  unfold State.cancelRequest
  split
  · exact h.note rfl rfl fun _ _ _ => Event.noConfusion
  · exact h

theorem Output.endRequest (h : Output s) (wire : Wire) (k : Nat) (how : HandlerEnd) :
    Output (s.endRequest wire k how) := by
  have hnoted : Output (s.note (.attempted (some k) (s.handlers k).id)) :=
    h.note rfl rfl fun _ _ _ => Event.noConfusion
  rw [State.endRequest_eq]
  exact (State.answer_induct hnoted.enqueueOutgoing hnoted wire _ how).beside
    ⟨rfl, rfl, rfl, rfl, rfl, rfl, rfl, rfl⟩ rfl

theorem Output.endInput (h : Output s) :
    Output ({ s with reading := false, inputOpen := false }.note .inputEnded) := by
  refine ⟨h.traffic.note rfl rfl Event.noConfusion fun ho => ⟨ho, rfl, rfl⟩, ?_⟩
  exact { h.awake.note fun _ _ _ => Event.noConfusion with
    answered := fun ha =>
      ⟨rfl, (h.awake.answered ha).2.concat fun _ _ => Event.noConfusion⟩
    read := fun _ => List.mem_append_right _ (List.mem_singleton_self _) }

/-- The answers are done when no handler runs, and none will. -/
theorem Output.finishAnswers (h : Output s) (hs : Handled s) (hreading : s.reading = false)
    (hjoined : s.Joined) :
    Output ({ s with answersDone := true, writeEvent := true }.note .answersDone) := by
  have hall : Answered s.log := by
    refine ⟨h.awake.read hreading, fun k id hk => ?_⟩
    obtain ⟨hlt, -⟩ := (hs.dispatched k id).mp hk
    have hattempts := hs.attempted k
    rw [if_pos ⟨hlt, hjoined k (List.mem_range.mpr hlt)⟩] at hattempts
    refine ⟨(s.handlers k).id, mem_of_mem_attempts ?_⟩
    rw [hattempts]
    exact List.mem_singleton_self _
  refine ⟨h.traffic.note rfl rfl Event.noConfusion fun ho => ⟨ho, rfl, rfl⟩, ?_⟩
  exact { h.awake.note fun _ _ _ => Event.noConfusion with
    asleep := fun _ _ => rfl
    answered := fun _ => ⟨hreading, hall.concat fun _ _ => Event.noConfusion⟩ }

/-! ## Steps -/

theorem Output.step {a : Op × Wire} (h : Output s) (hs : Handled s) (hst : step s a = some t) :
    Output t := by
  obtain ⟨op, wire⟩ := a
  cases op with
  | send payload =>
    cases hst
    exact h.enqueueOutgoing payload
  | closeOutput =>
    cases hst
    exact h.closeOutput
  | close =>
    cases hst
    exact h.close
  | startLoop =>
    obtain ⟨⟨hidle, hloop⟩, ⟨⟩⟩ := Option.ite_none_right_eq_some.mp hst
    exact h.turn hidle (by rw [hloop]; exact WriteLoop.noConfusion)
  | neverStarted =>
    obtain ⟨-, ⟨⟩⟩ := Option.ite_none_right_eq_some.mp hst
    refine ⟨h.traffic.keep rfl fun ho => ⟨ho, rfl⟩, ?_⟩
    exact { h.awake with
      drained := fun _ _ hl => absurd rfl hl
      asleep := fun hl => WriteLoop.noConfusion hl
      closing := fun _ => .inr rfl
      halfClosing := fun hl => WriteLoop.noConfusion hl }
  | wake =>
    obtain ⟨⟨hidle, hloop, -⟩, ⟨⟩⟩ := Option.ite_none_right_eq_some.mp hst
    exact h.turn hidle (by rw [hloop]; exact WriteLoop.noConfusion)
  | sleepCancelled =>
    obtain ⟨-, ⟨⟩⟩ := Option.ite_none_right_eq_some.mp hst
    exact h.endLoop true
  | written how =>
    cases how with
    | done =>
      obtain ⟨⟨hidle, hloop⟩, ⟨⟩⟩ := Option.ite_none_right_eq_some.mp hst
      exact h.turn hidle (by rw [hloop]; exact WriteLoop.noConfusion)
    | failed =>
      obtain ⟨-, ⟨⟩⟩ := Option.ite_none_right_eq_some.mp hst
      exact h.failOutput
    | cancelled =>
      obtain ⟨-, ⟨⟩⟩ := Option.ite_none_right_eq_some.mp hst
      exact h.endLoop true
  | outputClosed how =>
    cases how with
    | done =>
      obtain ⟨⟨-, hloop⟩, ⟨⟩⟩ := Option.ite_none_right_eq_some.mp hst
      exact h.sleep fun ho => Bool.noConfusion ((h.awake.halfClosing hloop).symm.trans ho)
    | failed =>
      obtain ⟨-, ⟨⟩⟩ := Option.ite_none_right_eq_some.mp hst
      exact h.failOutput
    | cancelled =>
      obtain ⟨hloop, ⟨⟩⟩ := Option.ite_none_right_eq_some.mp hst
      exact h.sleep fun ho => Bool.noConfusion ((h.awake.halfClosing hloop).symm.trans ho)
  | request id method registered =>
    obtain ⟨⟨hreading, -⟩, ⟨⟩⟩ := Option.ite_none_right_eq_some.mp hst
    exact h.dispatchRequest hreading wire id method registered
  | cancelRequest id =>
    obtain ⟨-, ⟨⟩⟩ := Option.ite_none_right_eq_some.mp hst
    exact h.cancelRequest id
  | endInput =>
    obtain ⟨-, ⟨⟩⟩ := Option.ite_none_right_eq_some.mp hst
    exact h.endInput
  | cancelGroup =>
    cases hst
    exact h.beside ⟨rfl, rfl, rfl, rfl, rfl, rfl, rfl, rfl⟩ rfl
  | endRequest k how =>
    obtain ⟨-, ⟨⟩⟩ := Option.ite_none_right_eq_some.mp hst
    exact h.endRequest wire k how
  | answersDone =>
    obtain ⟨⟨hreading, -, hjoined⟩, ⟨⟩⟩ := Option.ite_none_right_eq_some.mp hst
    exact h.finishAnswers hs hreading hjoined
  | cancelNext k =>
    simp only [Serve.step] at hst
    split at hst
    case h_1 call hcall =>
      obtain ⟨-, ⟨⟩⟩ := Option.ite_none_right_eq_some.mp hst
      refine Output.note ⟨h.traffic.keep rfl fun ho => ⟨ho, rfl⟩, ?_⟩ rfl rfl
        fun _ _ _ => Event.noConfusion
      exact { h.awake with
        drained := fun _ hc => absurd hc (Option.some_ne_none _)
        calling := fun _ => h.awake.calling (hcall ▸ rfl) }
    case h_2 => cases hst
  | handlersCancelled =>
    simp only [Serve.step] at hst
    split at hst
    case h_1 call hcall =>
      obtain ⟨-, ⟨⟩⟩ := Option.ite_none_right_eq_some.mp hst
      exact h.handlersCancelled (hcall ▸ rfl) call.closing
    case h_2 => cases hst

theorem Output.initial : Output {} where
  traffic :=
    { queued := fun _ => rfl
      inOrder := List.prefix_rfl
      stopped := List.forall_mem_nil _
      silent := fun before e after heq => by simp at heq
      halfClosed := fun before after heq => by simp at heq }
  awake :=
    { drained := fun _ _ _ => rfl
      asleep := fun hl => WriteLoop.noConfusion hl
      closing := fun hc => Bool.noConfusion hc
      calling := fun hc => Bool.noConfusion hc
      halfClosing := fun hl => WriteLoop.noConfusion hl
      asked := fun hc => Bool.noConfusion hc
      answered := fun ha => Bool.noConfusion ha
      read := fun hr => Bool.noConfusion hr }

theorem Reachable.output (h : Reachable s) : Output s := by
  have hboth : Output s ∧ Handled s :=
    Reach.invariant (I := fun s => Output s ∧ Handled s)
      (fun hi hst => ⟨hi.1.step hi.2 hst, hi.2.step hst⟩) ⟨Output.initial, Handled.initial⟩ h
  exact hboth.1

/-- In every state that is reached: what was handed to the transport is, in order, the beginning
of what was accepted, and the rest is queued while the output is open; a loop that sleeps with
something to do has been woken; the output was half-closed at most once, with everything handed
over that was accepted, and after `close_output` or the end of the input and of every handler;
and after a half-close, a failed write or a close nothing was accepted or handed over. -/
theorem Reachable.output_ordered {s : State} (h : Reachable s) :
    handed s.log <+: accepted s.log ∧
    (s.outputOpen = true → accepted s.log = handed s.log ++ s.queue) ∧
    (s.loop = .sleeping → s.queue ≠ [] ∨ s.closingOutput = true ∨ s.answersDone = true →
      s.writeEvent = true) ∧
    (∀ before after, s.log = before ++ .halfClosed :: after →
      .halfClosed ∉ before ∧ .halfClosed ∉ after ∧ accepted before = handed before ∧
      (.outputEnd ∈ before ∨ Answered before)) ∧
    (∀ before e after, s.log = before ++ e :: after → e.isStop = true →
      ∀ e' ∈ after, e'.isTraffic = false) :=
  have ho := h.output
  ⟨ho.traffic.inOrder, ho.traffic.queued, ho.awake.asleep, ho.traffic.halfClosed,
    ho.traffic.silent⟩

/-- Two messages, the first handed over alone; then the output is half-closed. -/
private def halfClosing : List (Op × Wire) :=
  [(.send [1], wordless), (.startLoop, wordless), (.send [2], wordless),
    (.closeOutput, wordless), (.send [3], wordless), (.written .done, wordless),
    (.written .done, wordless), (.send [4], wordless)]

theorem Reachable.output_ordered_halfClosing :
    let s := (run step {} halfClosing).get rfl
    accepted s.log = [[1], [2]] ∧ handed s.log = [[1], [2]] ∧ s.loop = .halfClosing ∧
      handed s.log <+: accepted s.log := by
  have hr : Reachable _ := Reach.of_isSome halfClosing rfl
  exact ⟨rfl, rfl, rfl, hr.output_ordered.1⟩

end Kotatsu.Ipc.Serve
