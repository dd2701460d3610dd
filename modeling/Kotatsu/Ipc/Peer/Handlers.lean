import Kotatsu.Ipc.Peer.Serve

/-!
# The handlers of a peer that serves

A request that is dispatched has an entry for as long as its handler runs, and its
handler makes one attempt to answer, when it ends. Most of what a peer does is no
business of its handlers: `Aside` is what such a part of a step leaves alone. The
others are a dispatch, the end of a handler and the emptying of the entries, after
which nothing is dispatched.
-/

namespace Kotatsu.Ipc.Serve

open Kotatsu.Core
open Kotatsu.Ipc.Peer (RequestId Error Wire)

/-! ## The log -/

/-- An event of a handler's life, or a refusal. -/
def Event.isRequest : Event → Bool
  | .dispatched _ _ => true
  | .attempted _ _ => true
  | _ => false

/-- An event that has the handlers cancelled. -/
def Event.cancelsHandlers : Event → Bool
  | .closed => true
  | .writeFailed => true
  | _ => false

/-- The events of the handlers' lives, and the refusals. -/
def requests (log : List Event) : List Event := log.filter Event.isRequest

/-- The ids that the handler `k` attempted to answer. -/
def attempts (k : Nat) (log : List Event) : List RequestId :=
  log.filterMap fun
    | .attempted (some k') id => if k' = k then some id else none
    | _ => none

theorem requests_concat (log : List Event) (e : Event) :
    requests (log ++ [e]) = requests log ++ requests [e] := List.filter_append ..

theorem attempts_concat (k : Nat) (log : List Event) (e : Event) :
    attempts k (log ++ [e]) = attempts k log ++ attempts k [e] := List.filterMap_append

theorem attempts_requests (k : Nat) (log : List Event) :
    attempts k (requests log) = attempts k log := by
  simp only [attempts, requests, List.filterMap_filter]
  congr 1
  funext e
  cases e <;> rfl

theorem mem_requests {e : Event} (he : e.isRequest = true) (log : List Event) :
    e ∈ requests log ↔ e ∈ log := by
  simp only [requests, List.mem_filter, he, and_true]

variable {k : Nat} {id : RequestId} {s t : State} {P : State → Prop}

theorem mem_of_mem_attempts {log : List Event} (h : id ∈ attempts k log) :
    .attempted (some k) id ∈ log := by
  obtain ⟨e, he, heq⟩ := List.mem_filterMap.mp h
  split at heq
  · obtain ⟨rfl, ⟨⟩⟩ := Option.ite_none_right_eq_some.mp heq
    exact he
  · cases heq

/-! ## What leaves the handlers alone -/

/-- `t` has the handlers of `s`, their entries and their events. -/
structure Aside (s t : State) : Prop where
  incoming : t.incoming = s.incoming
  handlers : t.handlers = s.handlers
  made : t.made = s.made
  emptied : t.emptied = s.emptied
  transport : t.transportOpen = true → s.transportOpen = true
  log : requests t.log = requests s.log
  grows : ∀ e ∈ s.log, e ∈ t.log
  calling : t.call.isSome = true →
    s.call.isSome = true ∨ ∃ e ∈ t.log, e.cancelsHandlers = true

theorem Aside.refl (s : State) : Aside s s := ⟨rfl, rfl, rfl, rfl, id, rfl, fun _ => id, .inl⟩

theorem Aside.trans {s t u : State} (h : Aside s t) (h' : Aside t u) : Aside s u where
  incoming := h'.incoming.trans h.incoming
  handlers := h'.handlers.trans h.handlers
  made := h'.made.trans h.made
  emptied := h'.emptied.trans h.emptied
  transport ht := h.transport (h'.transport ht)
  log := h'.log.trans h.log
  grows e he := h'.grows e (h.grows e he)
  calling hu := by
    rcases h'.calling hu with ht | ht
    · rcases h.calling ht with hs | ⟨e, he, hcancels⟩
      · exact .inl hs
      · exact .inr ⟨e, h'.grows e he, hcancels⟩
    · exact .inr ht

/-- Nothing of a handler's life is noted. -/
theorem Aside.noted {e : Event} (hlog : t.log = s.log ++ [e]) (he : e.isRequest = false)
    (hincoming : t.incoming = s.incoming) (hhandlers : t.handlers = s.handlers)
    (hmade : t.made = s.made) (hemptied : t.emptied = s.emptied)
    (htransport : t.transportOpen = true → s.transportOpen = true)
    (hcall : t.call = s.call ∨ e.cancelsHandlers = true) : Aside s t where
  incoming := hincoming
  handlers := hhandlers
  made := hmade
  emptied := hemptied
  transport := htransport
  log := by
    simp only [hlog, requests, List.filter_append, List.filter_cons, he, List.filter_nil]
    exact List.append_nil _
  grows e' he' := by
    rw [hlog]
    exact List.mem_append_left _ he'
  calling ht := by
    rcases hcall with hcall | hcancels
    · exact .inl (hcall ▸ ht)
    · refine .inr ⟨e, ?_, hcancels⟩
      rw [hlog]
      exact List.mem_append_right _ (List.mem_singleton_self e)

/-- Nothing is noted at all. -/
theorem Aside.quiet (hlog : t.log = s.log) (hincoming : t.incoming = s.incoming)
    (hhandlers : t.handlers = s.handlers) (hmade : t.made = s.made)
    (hemptied : t.emptied = s.emptied)
    (htransport : t.transportOpen = true → s.transportOpen = true) (hcall : t.call = s.call) :
    Aside s t where
  incoming := hincoming
  handlers := hhandlers
  made := hmade
  emptied := hemptied
  transport := htransport
  log := by rw [hlog]
  grows e' he' := hlog ▸ he'
  calling ht := .inl (hcall ▸ ht)

namespace State

theorem enqueueOutgoing_aside (s : State) (payload : Bytes) :
    Aside s (s.enqueueOutgoing payload) := by
  unfold enqueueOutgoing
  split
  · exact Aside.refl s
  · exact Aside.noted rfl rfl rfl rfl rfl rfl id (.inl rfl)

/-- What holds of a state, however much more it sends, holds after an answer. -/
theorem sendAnswer_induct (hsend : ∀ payload, P (s.enqueueOutgoing payload)) (hs : P s)
    (wire : Wire) (id : Option RequestId) (response : Bytes) :
    P (s.sendAnswer wire id response) := by
  unfold sendAnswer
  split
  · exact hsend _
  · split
    · split
      · exact hsend _
      · exact hs
    · exact hs

theorem sendError_induct (hsend : ∀ payload, P (s.enqueueOutgoing payload)) (hs : P s) (wire : Wire)
    (id : Option RequestId) (error : Error) : P (s.sendError wire id error) := by
  unfold sendError
  split
  · exact sendAnswer_induct hsend hs wire id _
  · exact hs

/-- What a handler sends as it ends. -/
def answer (s : State) (wire : Wire) (id : RequestId) : HandlerEnd → State
  | .answered response => s.sendAnswer wire (some id) response
  | .failed error => s.sendError wire (some id) error
  | .threw => s.sendError wire (some id) ⟨internalError, "request handler threw"⟩
  | .cancelled => s.sendError wire (some id) ⟨Peer.requestCancelled, "request cancelled"⟩

theorem answer_induct (hsend : ∀ payload, P (s.enqueueOutgoing payload)) (hs : P s) (wire : Wire)
    (id : RequestId) (how : HandlerEnd) : P (s.answer wire id how) := by
  cases how with
  | answered response => exact sendAnswer_induct hsend hs wire _ response
  | failed error => exact sendError_induct hsend hs wire _ error
  | threw => exact sendError_induct hsend hs wire _ _
  | cancelled => exact sendError_induct hsend hs wire _ _

theorem endRequest_eq (s : State) (wire : Wire) (k : Nat) (how : HandlerEnd) :
    s.endRequest wire k how =
      let t := (s.note (.attempted (some k) (s.handlers k).id)).answer wire (s.handlers k).id how
      { t with
        incoming := t.incoming.filter (·.1 ≠ (s.handlers k).id)
        handlers := Function.update t.handlers k ⟨(s.handlers k).id, false⟩ } := by
  cases how <;> rfl

theorem closeOutput_aside (s : State) : Aside s s.closeOutput := by
  unfold closeOutput
  split
  · exact Aside.noted rfl rfl rfl rfl rfl rfl id (.inl rfl)
  · exact Aside.refl s

theorem close_aside (s : State) : Aside s s.close := by
  unfold close
  split
  · exact Aside.refl s
  · exact Aside.noted rfl rfl rfl rfl rfl rfl id (.inr rfl)

theorem endLoop_aside (s : State) (cancelled : Bool) : Aside s (s.endLoop cancelled) := by
  unfold endLoop
  dsimp only
  split
  · exact Aside.noted rfl rfl rfl rfl rfl rfl (fun h => Bool.noConfusion h) (.inr rfl)
  · exact Aside.quiet rfl rfl rfl rfl rfl id rfl

theorem failOutput_aside (s : State) : Aside s s.failOutput := by
  unfold failOutput
  split
  · exact endLoop_aside s false
  · exact Aside.noted rfl rfl rfl rfl rfl rfl id (.inr rfl)

theorem sleep_aside (s : State) : Aside s s.sleep := by
  unfold sleep
  split
  · exact Aside.quiet rfl rfl rfl rfl rfl id rfl
  · exact endLoop_aside s false

theorem turn_aside (s : State) : Aside s s.turn := by
  unfold turn
  split
  · split
    · exact Aside.noted rfl rfl rfl rfl rfl rfl id (.inl rfl)
    · exact sleep_aside s
  · exact Aside.noted rfl rfl rfl rfl rfl rfl id (.inl rfl)

theorem cancelRequest_aside (s : State) (id : RequestId) : Aside s (s.cancelRequest id) := by
  unfold cancelRequest
  split
  · exact Aside.noted rfl rfl rfl rfl rfl rfl (fun h => h) (.inl rfl)
  · exact Aside.refl s

/-! ## What does not -/

/-- A refusal notes its one attempt, and is else no handler's business. -/
theorem refuse_aside (s : State) (wire : Wire) (id : RequestId) (error : Error) :
    Aside (s.note (.attempted none id)) (s.refuse wire id error) :=
  sendError_induct (P := Aside (s.note (.attempted none id)))
    (enqueueOutgoing_aside _) (Aside.refl _) wire (some id) error

/-- The handler of a request that is dispatched runs under its id. -/
def dispatched (s : State) (id : RequestId) : State :=
  { s with
    incoming := s.incoming ++ [(id, s.made)]
    handlers := Function.update s.handlers s.made ⟨id, true⟩
    made := s.made + 1 }.note (.dispatched s.made id)

/-- A request is refused or dispatched. -/
theorem dispatchRequest_cases (s : State) (wire : Wire) (id : RequestId) (method : String)
    (registered : Bool) :
    ((s.incoming.any (·.1 = id) || !registered || s.groupCancelled) = true ∧
      Aside (s.note (.attempted none id)) (s.dispatchRequest wire id method registered)) ∨
    ((s.incoming.any (·.1 = id) || !registered || s.groupCancelled) = false ∧
      s.dispatchRequest wire id method registered = s.dispatched id) := by
  unfold dispatchRequest
  split
  case isTrue hdup => exact .inl ⟨by simp only [hdup, Bool.true_or], refuse_aside s wire id _⟩
  case isFalse hnew =>
    split
    case isTrue hunknown =>
      exact .inl ⟨by simp only [hunknown, Bool.or_true, Bool.true_or], refuse_aside s wire id _⟩
    case isFalse hknown =>
      dsimp only
      split
      case isTrue hcancelled =>
        refine .inl ⟨by simp only [hcancelled, Bool.or_true], ?_⟩
        have haside := refuse_aside { s with incoming := s.incoming ++ [(id, s.made)] } wire id
          ⟨Peer.requestCancelled, "request cancelled"⟩
        refine ⟨?_, haside.handlers, haside.made, haside.emptied, haside.transport, haside.log,
          haside.grows, haside.calling⟩
        rw [haside.incoming]
        have hfresh : ∀ entry ∈ s.incoming, entry.1 ≠ id := by
          intro entry hentry heq
          exact hnew (List.any_eq_true.mpr ⟨entry, hentry, by simpa using heq⟩)
        simp only [State.note, List.filter_append, List.filter_cons, ne_eq, not_true_eq_false,
          decide_false, List.filter_nil]
        simpa using hfresh
      case isFalse hspawn =>
        refine .inr ⟨?_, rfl⟩
        simp only [Bool.not_eq_true] at hnew hknown hspawn
        simp only [hnew, hknown, hspawn, Bool.or_self]

/-- A handler that has ended has made its attempt, and its entry is gone. -/
def ended (s : State) (k : Nat) : State :=
  { s with
    incoming := s.incoming.filter (·.1 ≠ (s.handlers k).id)
    handlers := Function.update s.handlers k ⟨(s.handlers k).id, false⟩ }.note
      (.attempted (some k) (s.handlers k).id)

theorem endRequest_aside (s : State) (wire : Wire) (k : Nat) (how : HandlerEnd) :
    Aside (s.ended k) (s.endRequest wire k how) := by
  rw [endRequest_eq]
  have haside := answer_induct (P := Aside (s.note (.attempted (some k) (s.handlers k).id)))
    (enqueueOutgoing_aside _) (Aside.refl _) wire (s.handlers k).id how
  refine ⟨?_, ?_, haside.made, haside.emptied, haside.transport, haside.log, haside.grows,
    haside.calling⟩
  · dsimp only
    rw [haside.incoming]
    rfl
  · dsimp only
    rw [haside.handlers]
    rfl

/-- The entries are gone, and with them the transport. -/
def cleared (s : State) : State :=
  { s with incoming := [], emptied := true, transportOpen := false, call := none }

theorem handlersCancelled_aside (s : State) (closing : Bool) :
    Aside s.cleared (s.handlersCancelled closing) := by
  unfold handlersCancelled
  dsimp only
  split
  · exact Aside.quiet rfl rfl rfl rfl rfl id rfl
  · exact endLoop_aside s.cleared false

end State

/-! ## Steps -/

/-- What a step does to the handlers. -/
inductive HandlerStep (s : State) : State → Prop where
  | none : HandlerStep s s
  | refused (id : RequestId) : HandlerStep s (s.note (.attempted none id))
  | dispatched (id : RequestId) (hopen : s.transportOpen = true)
      (hnew : s.incoming.any (·.1 = id) = false) : HandlerStep s (s.dispatched id)
  | ended (k : Nat) (hk : k < s.made) (hrun : (s.handlers k).running = true) :
      HandlerStep s (s.ended k)
  | emptied (hcall : s.call.isSome = true) : HandlerStep s s.cleared

/-- A step that is none of the handlers' business. -/
theorem HandlerStep.of_aside (h : Aside s t) : ∃ u, HandlerStep s u ∧ Aside u t :=
  ⟨s, .none, h⟩

open State in
/-- Every step does at most one thing to the handlers. -/
theorem step_handlers {op : Op} {wire : Wire} (h : step s (op, wire) = some t) :
    ∃ u, HandlerStep s u ∧ Aside u t := by
  cases op with
  | send payload =>
    cases h
    exact HandlerStep.of_aside (enqueueOutgoing_aside s payload)
  | closeOutput =>
    cases h
    exact HandlerStep.of_aside (closeOutput_aside s)
  | close =>
    cases h
    exact HandlerStep.of_aside (close_aside s)
  | startLoop =>
    obtain ⟨-, ⟨⟩⟩ := Option.ite_none_right_eq_some.mp h
    exact HandlerStep.of_aside (turn_aside s)
  | neverStarted =>
    obtain ⟨-, ⟨⟩⟩ := Option.ite_none_right_eq_some.mp h
    exact HandlerStep.of_aside (Aside.quiet rfl rfl rfl rfl rfl id rfl)
  | wake =>
    obtain ⟨-, ⟨⟩⟩ := Option.ite_none_right_eq_some.mp h
    exact HandlerStep.of_aside (turn_aside s)
  | sleepCancelled =>
    obtain ⟨-, ⟨⟩⟩ := Option.ite_none_right_eq_some.mp h
    exact HandlerStep.of_aside (endLoop_aside s true)
  | written how =>
    cases how with
    | done =>
      obtain ⟨-, ⟨⟩⟩ := Option.ite_none_right_eq_some.mp h
      exact HandlerStep.of_aside (turn_aside s)
    | failed =>
      obtain ⟨-, ⟨⟩⟩ := Option.ite_none_right_eq_some.mp h
      exact HandlerStep.of_aside (failOutput_aside s)
    | cancelled =>
      obtain ⟨-, ⟨⟩⟩ := Option.ite_none_right_eq_some.mp h
      exact HandlerStep.of_aside (endLoop_aside s true)
  | outputClosed how =>
    cases how with
    | done =>
      obtain ⟨-, ⟨⟩⟩ := Option.ite_none_right_eq_some.mp h
      exact HandlerStep.of_aside (sleep_aside s)
    | failed =>
      obtain ⟨-, ⟨⟩⟩ := Option.ite_none_right_eq_some.mp h
      exact HandlerStep.of_aside (failOutput_aside s)
    | cancelled =>
      obtain ⟨-, ⟨⟩⟩ := Option.ite_none_right_eq_some.mp h
      exact HandlerStep.of_aside (sleep_aside s)
  | request id method registered =>
    obtain ⟨⟨-, hopen⟩, ⟨⟩⟩ := Option.ite_none_right_eq_some.mp h
    rcases dispatchRequest_cases s wire id method registered with ⟨-, haside⟩ | ⟨hnew, heq⟩
    · exact ⟨_, .refused id, haside⟩
    · rw [heq]
      rw [Bool.or_eq_false_iff, Bool.or_eq_false_iff] at hnew
      exact ⟨_, .dispatched id hopen hnew.1.1, Aside.refl _⟩
  | cancelRequest id =>
    obtain ⟨-, ⟨⟩⟩ := Option.ite_none_right_eq_some.mp h
    exact HandlerStep.of_aside (cancelRequest_aside s id)
  | endInput =>
    obtain ⟨-, ⟨⟩⟩ := Option.ite_none_right_eq_some.mp h
    exact HandlerStep.of_aside (Aside.noted rfl rfl rfl rfl rfl rfl id (.inl rfl))
  | cancelGroup =>
    cases h
    exact HandlerStep.of_aside (Aside.quiet rfl rfl rfl rfl rfl id rfl)
  | endRequest k how =>
    obtain ⟨⟨hk, hrun⟩, ⟨⟩⟩ := Option.ite_none_right_eq_some.mp h
    exact ⟨_, .ended k hk hrun, endRequest_aside s wire k how⟩
  | answersDone =>
    obtain ⟨-, ⟨⟩⟩ := Option.ite_none_right_eq_some.mp h
    exact HandlerStep.of_aside (Aside.noted rfl rfl rfl rfl rfl rfl id (.inl rfl))
  | cancelNext k =>
    simp only [step] at h
    split at h
    case h_1 call hcall =>
      obtain ⟨-, ⟨⟩⟩ := Option.ite_none_right_eq_some.mp h
      refine HandlerStep.of_aside (Aside.trans ?_ (Aside.noted rfl rfl rfl rfl rfl rfl id (.inl rfl)))
      exact ⟨rfl, rfl, rfl, rfl, id, rfl, fun _ => id, fun _ => .inl (hcall ▸ rfl)⟩
    case h_2 => cases h
  | handlersCancelled =>
    simp only [step] at h
    split at h
    case h_1 call hcall =>
      obtain ⟨-, ⟨⟩⟩ := Option.ite_none_right_eq_some.mp h
      exact ⟨_, .emptied (hcall ▸ rfl), handlersCancelled_aside s call.closing⟩
    case h_2 => cases h

/-! ## The invariant -/

/-- The entries, the handlers and their attempts agree. -/
structure Handled (s : State) : Prop where
  entries : s.emptied = false → ∀ id k, (id, k) ∈ s.incoming ↔
    k < s.made ∧ (s.handlers k).running = true ∧ (s.handlers k).id = id
  keys : (s.incoming.map Prod.fst).Nodup
  cleared : s.emptied = true → s.incoming = [] ∧ s.transportOpen = false
  dispatched : ∀ k id, .dispatched k id ∈ s.log ↔ k < s.made ∧ (s.handlers k).id = id
  attempted : ∀ k, attempts k s.log =
    if k < s.made ∧ (s.handlers k).running = false then [(s.handlers k).id] else []
  stopped : s.emptied = true ∨ s.call.isSome = true →
    ∃ e ∈ s.log, e.cancelsHandlers = true

theorem Handled.aside (h : Handled s) (hst : Aside s t) : Handled t where
  entries := by
    rw [hst.emptied, hst.incoming, hst.made, hst.handlers]
    exact h.entries
  keys := by
    rw [hst.incoming]
    exact h.keys
  cleared ht := by
    rw [hst.emptied] at ht
    obtain ⟨hincoming, hclosed⟩ := h.cleared ht
    refine ⟨hst.incoming.trans hincoming, ?_⟩
    rw [Bool.eq_false_iff]
    intro hopen
    rw [hst.transport hopen] at hclosed
    cases hclosed
  dispatched k id := by
    rw [hst.made, hst.handlers, ← mem_requests rfl, hst.log, mem_requests rfl]
    exact h.dispatched k id
  attempted k := by
    rw [hst.made, hst.handlers, ← attempts_requests, hst.log, attempts_requests]
    exact h.attempted k
  stopped ht := by
    have hs : (s.emptied = true ∨ s.call.isSome = true) ∨
        ∃ e ∈ t.log, e.cancelsHandlers = true := by
      rcases ht with ht | ht
      · exact .inl (.inl (hst.emptied ▸ ht))
      · exact (hst.calling ht).imp_left .inr
    rcases hs with hs | hs
    · obtain ⟨e, he, hcancels⟩ := h.stopped hs
      exact ⟨e, hst.grows e he, hcancels⟩
    · exact hs

/-- Two entries of one id are one. -/
theorem Handled.entry_unique (h : Handled s) {k k' : Nat} (hk : (id, k) ∈ s.incoming)
    (hk' : (id, k') ∈ s.incoming) : k = k' :=
  congrArg Prod.snd (List.inj_on_of_nodup_map h.keys hk hk' rfl)

theorem Handled.refused (h : Handled s) (id : RequestId) :
    Handled (s.note (.attempted none id)) where
  entries := h.entries
  keys := h.keys
  cleared := h.cleared
  dispatched k id := by
    refine Iff.trans ?_ (h.dispatched k id)
    simp only [State.note, List.mem_append, List.mem_singleton, reduceCtorEq, or_false]
  attempted k := by
    rw [State.note, attempts_concat]
    exact (List.append_nil _).trans (h.attempted k)
  stopped hs := by
    obtain ⟨e, he, hcancels⟩ := h.stopped hs
    exact ⟨e, List.mem_append_left _ he, hcancels⟩

theorem Handled.dispatch (h : Handled s) (hopen : s.transportOpen = true)
    (hnew : s.incoming.any (·.1 = id) = false) : Handled (s.dispatched id) := by
  have hfull : s.emptied = false := by
    rw [Bool.eq_false_iff]
    intro hemptied
    rw [(h.cleared hemptied).2] at hopen
    cases hopen
  have hfresh : ∀ k, (id, k) ∉ s.incoming := by
    intro k hk
    rw [List.any_eq_false] at hnew
    exact hnew _ hk (decide_eq_true rfl)
  refine ⟨fun _ id' k => ?_, ?_, fun ht => ?_, fun k id' => ?_, fun k => ?_, fun hs => ?_⟩
  · simp only [State.dispatched, State.note, List.mem_append, List.mem_singleton, Prod.mk.injEq]
    rcases eq_or_ne k s.made with rfl | hk
    · rw [Function.update_self, h.entries hfull]
      constructor
      · rintro (⟨hlt, -⟩ | ⟨rfl, -⟩)
        · exact absurd hlt (Nat.lt_irrefl _)
        · exact ⟨Nat.lt_succ_self _, rfl, rfl⟩
      · rintro ⟨-, -, rfl⟩
        exact .inr ⟨rfl, rfl⟩
    · rw [Function.update_of_ne hk, h.entries hfull]
      constructor
      · rintro (⟨hlt, hrest⟩ | ⟨-, heq⟩)
        · exact ⟨by omega, hrest⟩
        · exact absurd heq hk
      · rintro ⟨hlt, hrest⟩
        exact .inl ⟨by omega, hrest⟩
  · simp only [State.dispatched, State.note, List.map_append, List.map_cons, List.map_nil]
    refine List.Nodup.append h.keys (List.nodup_singleton id) ?_
    rw [List.disjoint_singleton]
    intro hmem
    obtain ⟨⟨id', k⟩, hk, rfl⟩ := List.mem_map.mp hmem
    exact hfresh k hk
  · exact absurd (hfull.symm.trans ht) Bool.false_ne_true
  · simp only [State.dispatched, State.note, List.mem_append, List.mem_singleton,
      Event.dispatched.injEq, h.dispatched k]
    rcases eq_or_ne k s.made with rfl | hk
    · rw [Function.update_self]
      simp only [Nat.lt_irrefl, false_and, true_and, false_or, Nat.lt_succ_self, eq_comm]
    · have hlt : k < s.made ↔ k < s.made + 1 := by omega
      simp only [Function.update_of_ne hk, hlt, hk, false_and, or_false]
  · have hlog : attempts k (s.dispatched id).log = attempts k s.log :=
      (attempts_concat k s.log _).trans (List.append_nil _)
    rw [hlog, h.attempted k]
    rcases eq_or_ne k s.made with rfl | hk
    · simp only [State.dispatched, State.note, Function.update_self, Nat.lt_irrefl, false_and,
        Bool.true_eq_false, and_false, if_false]
    · have hlt : k < s.made ↔ k < s.made + 1 := by omega
      simp only [State.dispatched, State.note, Function.update_of_ne hk, hlt]
  · obtain ⟨e, he, hcancels⟩ := h.stopped hs
    exact ⟨e, List.mem_append_left _ he, hcancels⟩

/-- The entry that goes with a handler that ends is its own. -/
theorem Handled.mem_ended (h : Handled s) (hk : k < s.made) (hrun : (s.handlers k).running = true)
    (id : RequestId) (k' : Nat) :
    (id, k') ∈ (s.ended k).incoming ↔ (id, k') ∈ s.incoming ∧ k' ≠ k := by
  cases hemptied : s.emptied with
  | true =>
    simp only [State.ended, State.note, (h.cleared hemptied).1, List.filter_nil, List.not_mem_nil,
      false_and]
  | false =>
    have hown : ((s.handlers k).id, k) ∈ s.incoming := (h.entries hemptied _ _).mpr ⟨hk, hrun, rfl⟩
    simp only [State.ended, State.note, List.mem_filter, decide_eq_true_eq]
    refine and_congr_right fun hmem => not_congr ⟨?_, ?_⟩
    · rintro rfl
      exact h.entry_unique hmem hown
    · rintro rfl
      exact ((h.entries hemptied _ _).mp hmem).2.2.symm

theorem Handled.endHandler (h : Handled s) (hk : k < s.made) (hrun : (s.handlers k).running = true) :
    Handled (s.ended k) := by
  refine ⟨fun hfull id k' => ?_, ?_, fun ht => ?_, fun k' id => ?_, fun k' => ?_, fun hs => ?_⟩
  · rw [h.mem_ended hk hrun, h.entries hfull]
    simp only [State.ended, State.note]
    rcases eq_or_ne k' k with rfl | hne
    · rw [Function.update_self]
      simp only [ne_eq, not_true_eq_false, and_false, Bool.false_eq_true, false_and]
    · rw [Function.update_of_ne hne]
      simp only [ne_eq, hne, not_false_eq_true, and_true]
  · exact (h.keys.sublist (List.Sublist.map _ List.filter_sublist))
  · obtain ⟨hincoming, hclosed⟩ := h.cleared ht
    refine ⟨?_, hclosed⟩
    simp only [State.ended, State.note, hincoming, List.filter_nil]
  · simp only [State.ended, State.note, List.mem_append, List.mem_singleton, reduceCtorEq,
      or_false, h.dispatched k']
    rcases eq_or_ne k' k with rfl | hne
    · rw [Function.update_self]
    · rw [Function.update_of_ne hne]
  · simp only [State.ended, State.note, attempts_concat, h.attempted k']
    rcases eq_or_ne k' k with rfl | hne
    · simp only [Function.update_self, hrun, hk, attempts, List.filterMap_cons, if_true]
      rfl
    · have hother : attempts k' [.attempted (some k) (s.handlers k).id] = [] := by
        simp only [attempts, List.filterMap_cons, if_neg hne.symm, List.filterMap_nil]
      simp only [hother, List.append_nil, Function.update_of_ne hne]
  · obtain ⟨e, he, hcancels⟩ := h.stopped hs
    exact ⟨e, List.mem_append_left _ he, hcancels⟩

theorem Handled.clear (h : Handled s) (hcall : s.call.isSome = true) : Handled s.cleared where
  entries ht := Bool.noConfusion ht
  keys := List.nodup_nil
  cleared _ := ⟨rfl, rfl⟩
  dispatched := h.dispatched
  attempted := h.attempted
  stopped _ := h.stopped (.inr hcall)

theorem HandlerStep.handled {s u : State} (hu : HandlerStep s u) (h : Handled s) :
    Handled u := by
  cases hu with
  | none => exact h
  | refused id => exact h.refused id
  | dispatched id hopen hnew => exact h.dispatch hopen hnew
  | ended k hk hrun => exact h.endHandler hk hrun
  | emptied hcall => exact h.clear hcall

theorem Handled.step {a : Op × Wire} (h : Handled s) (hst : step s a = some t) : Handled t := by
  obtain ⟨u, hu, haside⟩ := step_handlers hst
  exact (hu.handled h).aside haside

theorem Handled.initial : Handled {} where
  entries _ id k := by simp only [List.not_mem_nil, Nat.not_lt_zero, false_and]
  keys := List.nodup_nil
  cleared h := Bool.noConfusion h
  dispatched k id := by simp only [List.not_mem_nil, Nat.not_lt_zero, false_and]
  attempted k := by
    rw [if_neg fun hc => Nat.not_lt_zero k hc.1]
    rfl
  stopped h := by
    rcases h with h | h <;> cases h

theorem Reachable.handled (h : Reachable s) : Handled s :=
  h.invariant Handled.step Handled.initial

/-! ## Requests -/

/-- A cancel reaches the handler that runs under the id. -/
theorem Handled.cancelRequest (h : Handled s) (hopen : s.transportOpen = true) (id : RequestId) :
    s.cancelRequest id = s ∨ ∃ k, k < s.made ∧ (s.handlers k).running = true ∧
      (s.handlers k).id = id ∧ s.cancelRequest id = s.note (.cancelled k) := by
  have hfull : s.emptied = false := by
    rw [Bool.eq_false_iff]
    intro hemptied
    rw [(h.cleared hemptied).2] at hopen
    cases hopen
  unfold State.cancelRequest
  split
  case h_1 id' k hfind =>
    have hid : id' = id := by simpa using List.find?_some hfind
    obtain ⟨hk, hrun, hown⟩ := (h.entries hfull id' k).mp (List.mem_of_find?_eq_some hfind)
    exact .inr ⟨k, hk, hrun, hown.trans hid, rfl⟩
  case h_2 => exact .inl rfl

/-- A handler that ends takes its own entry and makes its one attempt. -/
theorem Handled.endRequest (h : Handled s) (hk : k < s.made) (hrun : (s.handlers k).running = true)
    (wire : Wire) (how : HandlerEnd) :
    (∀ id k', (id, k') ∈ (s.endRequest wire k how).incoming ↔ (id, k') ∈ s.incoming ∧ k' ≠ k) ∧
    requests (s.endRequest wire k how).log =
      requests s.log ++ [.attempted (some k) (s.handlers k).id] := by
  have haside := s.endRequest_aside wire k how
  refine ⟨fun id k' => ?_, haside.log.trans (requests_concat ..)⟩
  rw [haside.incoming]
  exact h.mem_ended hk hrun id k'

/-- A codec that writes nothing. -/
def wordless : Wire where
  encodeRequest _ := .ok []
  encodeCancelRequest _ := .ok []
  encodeErrorResponse _ _ := .ok []
  remoteMaxPayload := 0

end Kotatsu.Ipc.Serve
