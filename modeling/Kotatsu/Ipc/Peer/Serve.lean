import Kotatsu.Ipc.Peer.Model

/-!
# A peer that serves

While `Peer::run` runs, three things share the peer's output: the write loop, which
takes what is queued and sleeps on `write_event`; the read loop, which dispatches
each request to a handler of its own; and whoever sends, closes or half-closes. A
step is what runs until the next suspension. Cancelling the handlers runs them
inside the call: `cancel_handlers` is a call in progress, one source a step, and
meanwhile only a cancel resumes the write loop, though handlers end, send and
close. A transport that is closed gives the read loop nothing more. `log` records
what has happened and is read by no step.
-/

namespace Kotatsu.Ipc.Serve

open Kotatsu.Core
open Kotatsu.Ipc.Peer (RequestId Error Wire messageTooLarge requestCancelled)

/-- `protocol::ErrorCode::InvalidRequest`. -/
def invalidRequest : Int := -32600

/-- `protocol::ErrorCode::MethodNotFound`. -/
def methodNotFound : Int := -32601

/-- `protocol::ErrorCode::InternalError`. -/
def internalError : Int := -32603

/-- Where the write loop is. -/
inductive WriteLoop where
  | notStarted
  | sleeping
  | writing
  | halfClosing
  | failing
  | ended
deriving DecidableEq, Repr

/-- `run_request`, by the id of its request; the handlers are numbered as they are made. -/
structure Handler where
  id : RequestId := .number 0
  running : Bool := false

/-- How a handler ends. -/
inductive HandlerEnd where
  | answered (response : Bytes)
  | failed (error : Error)
  | threw
  | cancelled

/-- How a write or a half-close ends. -/
inductive WriteEnd where
  | done
  | failed
  | cancelled

/-- `cancel_handlers` in progress: the sources it has not cancelled yet, and whether `close`
called it rather than `fail_output`. -/
structure CancelCall where
  sources : List Nat
  closing : Bool

/-- What happens to a peer. -/
inductive Event where
  | accepted (payload : Bytes)
  | handed (batch : List Bytes)
  | halfClosed
  | writeFailed
  | closed
  | outputEnd
  | inputEnded
  | answersDone
  | dispatched (k : Nat) (id : RequestId)
  | attempted (k : Option Nat) (id : RequestId)
  | cancelled (k : Nat)

/-- `Peer::Self` while it serves, the handlers it has made so far and whether the read loop, the
transport and the group of the handlers still run. -/
structure State where
  queue : List Bytes := []
  inputOpen : Bool := true
  outputOpen : Bool := true
  closingOutput : Bool := false
  closed : Bool := false
  answersDone : Bool := false
  writeEvent : Bool := false
  loop : WriteLoop := .notStarted
  incoming : List (RequestId × Nat) := []
  handlers : Nat → Handler := fun _ => {}
  made : Nat := 0
  reading : Bool := true
  transportOpen : Bool := true
  groupCancelled : Bool := false
  emptied : Bool := false
  call : Option CancelCall := none
  log : List Event := []

namespace State

def note (s : State) (e : Event) : State := { s with log := s.log ++ [e] }

/-! ## Sending -/

/-- `enqueue_outgoing`. -/
def enqueueOutgoing (s : State) (payload : Bytes) : State :=
  if !s.outputOpen || s.closingOutput then s
  else { s with queue := s.queue ++ [payload], writeEvent := true }.note (.accepted payload)

/-- `send_answer`. -/
def sendAnswer (s : State) (wire : Wire) (id : Option RequestId) (response : Bytes) : State :=
  if Peer.State.fits wire response then s.enqueueOutgoing response
  else
    match wire.encodeErrorResponse id (Peer.State.tooLarge wire "response" response.length) with
    | .ok replacement =>
      if Peer.State.fits wire replacement then s.enqueueOutgoing replacement else s
    | .error _ => s

/-- `send_error`. -/
def sendError (s : State) (wire : Wire) (id : Option RequestId) (error : Error) : State :=
  match wire.encodeErrorResponse id error with
  | .ok response => s.sendAnswer wire id response
  | .error _ => s

/-- `close_output`. -/
def closeOutput (s : State) : State :=
  if s.outputOpen && !s.closingOutput then
    { s with closingOutput := true, writeEvent := true }.note .outputEnd
  else s

/-! ## Closing -/

/-- `cancel_handlers`, which copies the sources first. -/
def cancelHandlers (s : State) (closing : Bool) : State :=
  { s with call := some ⟨s.incoming.map Prod.snd, closing⟩ }

/-- `close`, up to the handlers it cancels. -/
def close (s : State) : State :=
  if s.closed then s
  else
    let s := { s with
      closed := true
      inputOpen := false
      outputOpen := false
      closingOutput := false }
    (s.note .closed).cancelHandlers true

/-- The end of `write_loop`. -/
def endLoop (s : State) (cancelled : Bool) : State :=
  let s := { s with outputOpen := false, loop := .ended }
  if cancelled && !s.closed then
    { s with closed := true, transportOpen := false }.note .closed
  else s

/-- `fail_output`, up to the handlers it cancels; what `close` caused is no failure. -/
def failOutput (s : State) : State :=
  if s.closed then s.endLoop false
  else
    let s := { s with
      outputOpen := false
      closingOutput := false
      queue := []
      closed := true
      loop := .failing }
    (s.note .writeFailed).cancelHandlers false

/-- What `close` or `fail_output` does once the handlers are cancelled. -/
def handlersCancelled (s : State) (closing : Bool) : State :=
  let s := { s with incoming := [], emptied := true, transportOpen := false, call := none }
  if closing then { s with queue := [], writeEvent := true } else s.endLoop false

/-! ## The write loop -/

/-- What `write_loop` does with an empty queue and nothing to finish. -/
def sleep (s : State) : State :=
  if s.outputOpen then { s with writeEvent := false, loop := .sleeping } else s.endLoop false

/-- A turn of `write_loop`, up to where it suspends. -/
def turn (s : State) : State :=
  if s.queue = [] then
    if s.closingOutput || (s.answersDone && s.outputOpen) then
      { s with closingOutput := false, outputOpen := false, loop := .halfClosing }.note .halfClosed
    else s.sleep
  else { s with queue := [], loop := .writing }.note (.handed s.queue)

/-! ## The read loop -/

/-- An error for a request that no handler gets. -/
def refuse (s : State) (wire : Wire) (id : RequestId) (error : Error) : State :=
  (s.note (.attempted none id)).sendError wire (some id) error

/-- `dispatch_request` of a method that is registered or not. -/
def dispatchRequest (s : State) (wire : Wire) (id : RequestId) (method : String)
    (registered : Bool) : State :=
  if s.incoming.any (·.1 = id) then
    s.refuse wire id ⟨invalidRequest, "duplicate request id"⟩
  else if !registered then
    s.refuse wire id ⟨methodNotFound, "method not found: " ++ method⟩
  else
    let k := s.made
    let s := { s with incoming := s.incoming ++ [(id, k)] }
    if s.groupCancelled then
      let s := s.refuse wire id ⟨requestCancelled, "request cancelled"⟩
      { s with incoming := s.incoming.filter (·.1 ≠ id) }
    else
      { s with handlers := Function.update s.handlers k ⟨id, true⟩, made := k + 1 }.note
        (.dispatched k id)

/-- `$/cancelRequest`. -/
def cancelRequest (s : State) (id : RequestId) : State :=
  match s.incoming.find? (·.1 = id) with
  | some (_, k) => s.note (.cancelled k)
  | none => s

/-- The end of `run_request`. -/
def endRequest (s : State) (wire : Wire) (k : Nat) (how : HandlerEnd) : State :=
  let id := (s.handlers k).id
  let s := s.note (.attempted (some k) id)
  let s :=
    match how with
    | .answered response => s.sendAnswer wire (some id) response
    | .failed error => s.sendError wire (some id) error
    | .threw => s.sendError wire (some id) ⟨internalError, "request handler threw"⟩
    | .cancelled => s.sendError wire (some id) ⟨requestCancelled, "request cancelled"⟩
  { s with
    incoming := s.incoming.filter (·.1 ≠ id)
    handlers := Function.update s.handlers k ⟨id, false⟩ }

end State

/-! ## Steps -/

/-- What runs until the next suspension. -/
inductive Op where
  | send (payload : Bytes)
  | closeOutput
  | close
  | startLoop
  | neverStarted
  | wake
  | sleepCancelled
  | written (how : WriteEnd)
  | outputClosed (how : WriteEnd)
  | request (id : RequestId) (method : String) (registered : Bool)
  | cancelRequest (id : RequestId)
  | endInput
  | cancelGroup
  | endRequest (k : Nat) (how : HandlerEnd)
  | answersDone
  | cancelNext (k : Nat)
  | handlersCancelled

/-- No call is in progress: the write loop goes on. -/
def State.Idle (s : State) : Prop := s.call.isNone = true

instance (s : State) : Decidable s.Idle := inferInstanceAs (Decidable (_ = true))

/-- No handler runs. -/
def State.Joined (s : State) : Prop := ∀ k ∈ List.range s.made, (s.handlers k).running = false

instance (s : State) : Decidable s.Joined := inferInstanceAs (Decidable (∀ k ∈ _, _))

/-- What is asked of the transport: it gives a message only while it is open. -/
def State.Receives (s : State) : Prop := s.reading = true ∧ s.transportOpen = true

instance (s : State) : Decidable s.Receives := inferInstanceAs (Decidable (_ ∧ _))

open State in
/-- One step, where it is possible. -/
def step (s : State) : Op × Wire → Option State
  | (.send payload, _) => some (s.enqueueOutgoing payload)
  | (.closeOutput, _) => some s.closeOutput
  | (.close, _) => some s.close
  | (.startLoop, _) => if s.Idle ∧ s.loop = .notStarted then some s.turn else none
  | (.neverStarted, _) => if s.loop = .notStarted then some { s with loop := .ended } else none
  | (.wake, _) => if s.Idle ∧ s.loop = .sleeping ∧ s.writeEvent then some s.turn else none
  | (.sleepCancelled, _) => if s.loop = .sleeping then some (s.endLoop true) else none
  | (.written .done, _) => if s.Idle ∧ s.loop = .writing then some s.turn else none
  | (.written .failed, _) => if s.Idle ∧ s.loop = .writing then some s.failOutput else none
  | (.written .cancelled, _) => if s.loop = .writing then some (s.endLoop true) else none
  | (.outputClosed .done, _) => if s.Idle ∧ s.loop = .halfClosing then some s.sleep else none
  | (.outputClosed .failed, _) =>
    if s.Idle ∧ s.loop = .halfClosing then some s.failOutput else none
  | (.outputClosed .cancelled, _) => if s.loop = .halfClosing then some s.sleep else none
  | (.request id method registered, wire) =>
    if s.Receives then some (s.dispatchRequest wire id method registered) else none
  | (.cancelRequest id, _) => if s.Receives then some (s.cancelRequest id) else none
  | (.endInput, _) =>
    if s.reading then
      some ({ s with reading := false, inputOpen := false }.note .inputEnded)
    else none
  | (.cancelGroup, _) => some { s with groupCancelled := true }
  | (.endRequest k how, wire) =>
    if k < s.made ∧ (s.handlers k).running then some (s.endRequest wire k how) else none
  | (.answersDone, _) =>
    if s.reading = false ∧ s.answersDone = false ∧ s.Joined then
      some ({ s with answersDone := true, writeEvent := true }.note .answersDone)
    else none
  | (.cancelNext k, _) =>
    match s.call with
    | some call =>
      if k ∈ call.sources then
        some ({ s with call := some { call with sources := call.sources.erase k } }.note
          (.cancelled k))
      else none
    | none => none
  | (.handlersCancelled, _) =>
    match s.call with
    | some call => if call.sources = [] then some (s.handlersCancelled call.closing) else none
    | none => none

/-- The states that some run leads to. -/
def Reachable (s : State) : Prop := Core.Reach step {} s

end Kotatsu.Ipc.Serve
