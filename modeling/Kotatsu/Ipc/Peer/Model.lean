import Kotatsu.Core.Bytes
import Kotatsu.Core.Transition
import Mathlib.Data.List.Sort

/-!
# A peer and the requests it has sent

A `Peer` keeps the requests it sent and nobody has settled: each by its id, and
the ones with a timeout also by when they time out. A step is one call into the
peer from a sender, a cancel, a loop of the peer or its owner; none of them runs
another task before it returns, since a settled request's sender is only ever
deferred. What the codec gives and what the remote reads come with each step.
The last two fields of `State` record what has happened and are read by no step.
-/

namespace Kotatsu.Ipc.Peer

open Kotatsu.Core

/-! ## Values -/

/-- `protocol::RequestID`. -/
inductive RequestId where
  | number (n : Int)
  | text (s : String)
deriving DecidableEq, Repr

/-- `protocol::Error`. -/
structure Error where
  code : Int
  message : String
deriving DecidableEq, Repr

/-- `protocol::ErrorCode::MessageTooLarge`. -/
def messageTooLarge : Int := -32010

/-- `protocol::ErrorCode::ConnectionClosed`. -/
def connectionClosed : Int := -32011

/-- `protocol::ErrorCode::RequestCancelled`. -/
def requestCancelled : Int := -32800

/-- `ConversationEnd::Kind`. -/
inductive EndKind where
  | inputEnded
  | malformed
  | writeFailed
  | shutDown
deriving DecidableEq, Repr

/-- `ConversationEnd`. -/
structure ConversationEnd where
  kind : EndKind
  message : String
deriving DecidableEq, Repr

/-- `ViolationPolicy`. -/
inductive ViolationPolicy where
  | tolerate
  | endConversation
deriving DecidableEq, Repr

/-- `MessageHead`, what the first bytes of a message tell of it. -/
inductive MessageHead where
  | unknown
  | request (id : Option RequestId)
  | notification
  | response (id : Option RequestId)
deriving DecidableEq, Repr

/-- `request_options`, with whether its token has fired. A timeout is in milliseconds. -/
structure RequestOptions where
  tokenCancelled : Bool := false
  timeout : Option Int := none

/-- The messages read that answer a request, or that the codec could not read. -/
inductive Incoming where
  | response (id : RequestId) (result : Bytes)
  | errorResponse (id : Option RequestId) (error : Error) (unreadable : Bool)
  | parseError (id : Option RequestId) (error : Error) (notification : Bool)

/-- The codec and the remote's limit, at one step. -/
structure Wire where
  encodeRequest : RequestId → Except Error Bytes
  encodeCancelRequest : RequestId → Except Error Bytes
  encodeErrorResponse : Option RequestId → Error → Except Error Bytes
  remoteMaxPayload : Nat

/-! ## State -/

abbrev PendingId := Nat

/-- `PendingRequest`, with whether an exception unwound its sender before it was settled. -/
structure PendingRequest where
  id : RequestId := .number 0
  response : Option (Except Error Bytes) := none
  deadline : Option Int := none
  cancelSent : Bool := false
  unwound : Bool := false

/-- `Peer::Self`, the requests it made so far, in order, and whether the peer is gone. -/
structure State where
  outgoingQueue : List Bytes := []
  nextRequestId : Int := 1
  pendingRequests : List (RequestId × PendingId) := []
  deadlines : List (Int × PendingId) := []
  inputOpen : Bool := true
  outputOpen : Bool := true
  closingOutput : Bool := false
  closed : Bool := false
  answersDone : Bool := false
  violationPolicy : ViolationPolicy := .tolerate
  ending : Option ConversationEnd := none
  requests : PendingId → PendingRequest := fun _ => {}
  made : PendingId := 0
  destroyed : Bool := false
  settlements : List PendingId := []
  cancelsSent : List RequestId := []

namespace State

def modifyRequest (s : State) (k : PendingId) (f : PendingRequest → PendingRequest) : State :=
  { s with requests := Function.update s.requests k (f (s.requests k)) }

/-! ## Sending -/

/-- `unsendable`. -/
def unsendable (s : State) (expectsAnswer : Bool) : Option Error :=
  if s.closed then some ⟨connectionClosed, "peer closed"⟩
  else if !s.outputOpen || s.closingOutput then some ⟨connectionClosed, "peer output closed"⟩
  else if expectsAnswer && !s.inputOpen then some ⟨connectionClosed, "peer input closed"⟩
  else none

/-- `refuse_request`. -/
def refuseRequest (s : State) (opts : RequestOptions) : Option Error :=
  if opts.timeout.any (· ≤ 0) then some ⟨requestCancelled, "request timed out"⟩
  else
    match s.unsendable true with
    | some error => some error
    | none => if opts.tokenCancelled then some ⟨requestCancelled, "request cancelled"⟩ else none

/-- `enqueue_outgoing`. -/
def enqueueOutgoing (s : State) (payload : Bytes) : State :=
  if !s.outputOpen || s.closingOutput then s
  else { s with outgoingQueue := s.outgoingQueue ++ [payload] }

/-- `too_large`. -/
def tooLarge (wire : Wire) (what : String) (size : Nat) : Error :=
  ⟨messageTooLarge, "a " ++ what ++ " of " ++ toString size ++ " bytes exceeds the limit of " ++
    toString wire.remoteMaxPayload ++ " bytes"⟩

/-- `fits`. -/
def fits (wire : Wire) (payload : Bytes) : Bool := payload.length ≤ wire.remoteMaxPayload

/-- `send_answer`. -/
def sendAnswer (s : State) (wire : Wire) (id : Option RequestId) (response : Bytes) : State :=
  if fits wire response then s.enqueueOutgoing response
  else
    match wire.encodeErrorResponse id (tooLarge wire "response" response.length) with
    | .ok replacement => if fits wire replacement then s.enqueueOutgoing replacement else s
    | .error _ => s

/-- `send_error`. -/
def sendError (s : State) (wire : Wire) (id : Option RequestId) (error : Error) : State :=
  match wire.encodeErrorResponse id error with
  | .ok response => s.sendAnswer wire id response
  | .error _ => s

/-- `send_notification` of an encoded notification. -/
def sendNotification (s : State) (wire : Wire) (encoded : Except Error Bytes) :
    Except Error State :=
  match s.unsendable false with
  | some error => .error error
  | none =>
    match encoded with
    | .error error => .error error
    | .ok notification =>
      if fits wire notification then .ok (s.enqueueOutgoing notification)
      else .error (tooLarge wire "notification" notification.length)

/-- `send_cancel_request`. -/
def sendCancelRequest (s : State) (wire : Wire) (id : RequestId) : Bool × State :=
  match s.sendNotification wire (wire.encodeCancelRequest id) with
  | .ok s => (true, { s with cancelsSent := s.cancelsSent ++ [id] })
  | .error _ => (false, s)

/-! ## Settling -/

/-- `forget`. -/
def forget (s : State) (k : PendingId) : State :=
  { s with
    pendingRequests := s.pendingRequests.filter (·.1 ≠ (s.requests k).id)
    deadlines := if (s.requests k).deadline.isSome then s.deadlines.filter (·.2 ≠ k)
      else s.deadlines }

/-- `settle`. -/
def settle (s : State) (k : PendingId) (response : Except Error Bytes) : State :=
  let s := s.forget k
  let s := s.modifyRequest k fun x => { x with response := some response }
  { s with settlements := s.settlements ++ [k] }

/-- `fail_pending_requests`. -/
def failPendingRequests (s : State) (error : Error) : State :=
  (s.pendingRequests.map (·.2)).foldl (fun s k => s.settle k (.error error)) s

/-- `complete_pending_request`. -/
def completePendingRequest (s : State) (id : RequestId) (response : Except Error Bytes) : State :=
  match s.pendingRequests.lookup id with
  | none => s
  | some k => s.settle k response

/-- `PendingRequest::cancel_remote`. -/
def cancelRemote (s : State) (wire : Wire) (k : PendingId) : State :=
  let x := s.requests k
  if x.response.isSome || x.cancelSent then s
  else
    let s := s.modifyRequest k fun x => { x with cancelSent := true }
    match s.sendCancelRequest wire x.id with
    | (true, s) => s
    | (false, s) => s.settle k (.error ⟨requestCancelled, "request cancelled"⟩)

/-! ## Deadlines -/

/-- `steady_clock` counts nanoseconds. -/
def ticksPerMillisecond : Int := 1000000

/-- `Clock::time_point::max()`. -/
def clockMax : Int := 2 ^ 63 - 1

/-- When a request sent now times out; past what the clock counts, never. -/
def deadlineAt (now timeout : Int) : Int :=
  if timeout < (clockMax - now) / ticksPerMillisecond then now + timeout * ticksPerMillisecond
  else clockMax

/-- `multimap::emplace`: after the entries that are not later. -/
def insertDeadline (time : Int) (k : PendingId) (entries : List (Int × PendingId)) :
    List (Int × PendingId) := entries.orderedInsert (fun a b => a.1 < b.1) (time, k)

/-- `file_deadline`. -/
def fileDeadline (s : State) (k : PendingId) (now timeout : Int) : State :=
  let time := deadlineAt now timeout
  let s := { s with deadlines := insertDeadline time k s.deadlines }
  s.modifyRequest k fun x => { x with deadline := some time }

/-- The body of the loop of `expire_due`. -/
def expire (s : State) (wire : Wire) (k : PendingId) : State :=
  let x := s.requests k
  let s := if x.cancelSent then s
    else ((s.modifyRequest k fun x => { x with cancelSent := true }).sendCancelRequest wire x.id).2
  s.settle k (.error ⟨requestCancelled, "request timed out"⟩)

/-- The loop of `expire_due`, for at most so many turns. -/
def expireTimes (wire : Wire) (now : Int) : Nat → State → State
  | 0, s => s
  | n + 1, s =>
    match s.deadlines with
    | [] => s
    | (time, k) :: _ => if time ≤ now then expireTimes wire now n (s.expire wire k) else s

/-- `expire_due`. -/
def expireDue (s : State) (wire : Wire) (now : Int) : State :=
  expireTimes wire now s.deadlines.length s

/-! ## Requests -/

/-- `send_request_impl`, up to its wait for the answer. -/
def sendRequestImpl (s : State) (wire : Wire) (id : RequestId) (request : Bytes)
    (timeout : Option Int) (now : Int) : State :=
  if fits wire request then
    let k := s.made
    let s := { s with
      made := s.made + 1
      requests := Function.update s.requests k { id := id }
      pendingRequests := if s.pendingRequests.any (·.1 = id) then s.pendingRequests
        else s.pendingRequests ++ [(id, k)] }
    let s := match timeout with
      | some timeout => s.fileDeadline k now timeout
      | none => s
    s.enqueueOutgoing request
  else s

/-- `send_request`. Counting past the last id is undefined. -/
def sendRequest (s : State) (wire : Wire) (opts : RequestOptions) (now : Int) : Option State :=
  match s.refuseRequest opts with
  | some _ => some s
  | none =>
    if s.nextRequestId < 2 ^ 63 - 1 then
      let id := RequestId.number s.nextRequestId
      let s := { s with nextRequestId := s.nextRequestId + 1 }
      match wire.encodeRequest id with
      | .error _ => some s
      | .ok request => some (s.sendRequestImpl wire id request opts.timeout now)
    else none

/-! ## Ends -/

/-- `end_conversation`. -/
def noteEnding (s : State) (why : ConversationEnd) : State :=
  { s with ending := some (s.ending.getD why) }

/-- `end_input`. -/
def endInput (s : State) (why : ConversationEnd) : State :=
  let s := { s with inputOpen := false }.noteEnding why
  s.failPendingRequests ⟨connectionClosed, (s.ending.getD why).message⟩

/-- `fail_output`. -/
def failOutput (s : State) (message : String) : State :=
  if s.closed then s
  else
    let s := { s with outputOpen := false, closingOutput := false, outgoingQueue := [] }
    let s := s.noteEnding ⟨.writeFailed, message⟩
    let s := s.failPendingRequests ⟨connectionClosed, message⟩
    { s with closed := true }

/-- `close`. -/
def close (s : State) : State :=
  if s.closed then s
  else
    let s := { s with
      closed := true
      inputOpen := false
      outputOpen := false
      closingOutput := false }
    let s := s.noteEnding ⟨.shutDown, "peer closed"⟩
    let s := s.failPendingRequests ⟨connectionClosed, "peer closed"⟩
    { s with outgoingQueue := [] }

/-- `close_output`. -/
def closeOutput (s : State) : State :=
  if s.outputOpen && !s.closingOutput then { s with closingOutput := true } else s

/-- `~Peer`. -/
def destroy (s : State) : State :=
  { s.failPendingRequests ⟨connectionClosed, "peer destroyed"⟩ with destroyed := true }

/-! ## Reading -/

/-- `dispatch_incoming_message`, with what breaks the protocol in the message. -/
def dispatchIncomingMessage (s : State) (wire : Wire) : Incoming → Option String × State
  | .response id result => (none, s.completePendingRequest id (.ok result))
  | .errorResponse none error _ => (some ("error response without an id: " ++ error.message), s)
  | .errorResponse (some id) error unreadable =>
    (if unreadable then some error.message else none, s.completePendingRequest id (.error error))
  | .parseError id error notification =>
    (some error.message, if notification then s else s.sendError wire id error)

/-- One turn of `read_loop`, and the end of the input where the message ends it. -/
def readMessage (s : State) (wire : Wire) (message : Incoming) : State :=
  match s.dispatchIncomingMessage wire message with
  | (some violation, s) =>
    match s.violationPolicy with
    | .endConversation => s.endInput ⟨.malformed, violation⟩
    | .tolerate => s
  | (none, s) => s

/-- `skip_oversized`. -/
def skipOversized (s : State) (wire : Wire) (message : String) (head : MessageHead) : State :=
  match head with
  | .request id => s.sendError wire id ⟨messageTooLarge, message⟩
  | .response (some id) => s.completePendingRequest id (.error ⟨messageTooLarge, message⟩)
  | .response none => s
  | .notification => s
  | .unknown => s.failPendingRequests ⟨messageTooLarge, message⟩

end State

/-! ## Steps -/

/-- A call into the peer. -/
inductive Op where
  | sendRequest (opts : RequestOptions) (now : Int)
  | sendNotification (encoded : Except Error Bytes)
  | sendAnswer (id : RequestId) (response : Bytes)
  | cancel (k : PendingId)
  | unwind (k : PendingId)
  | expireDue (now : Int)
  | receive (message : Incoming)
  | oversized (message : String) (head : MessageHead)
  | endInput (why : ConversationEnd)
  | answersDone
  | takeBatch
  | finishOutput
  | failOutput (message : String)
  | closeOutput
  | close
  | destroy

open State in
/-- One call, where its caller may make it. A peer that is gone takes none but what
its requests' senders do, which finds them settled. -/
def step (s : State) : Op × Wire → Option State
  | (.cancel k, wire) =>
    if k < s.made ∧ (s.requests k).unwound = false then some (s.cancelRemote wire k) else none
  | (.unwind k, _) =>
    if k < s.made ∧ (s.requests k).unwound = false then
      if (s.requests k).response.isSome then some s
      else some ((s.forget k).modifyRequest k fun x => { x with unwound := true })
    else none
  | (op, wire) =>
    if s.destroyed then none
    else
      match op with
      | .sendRequest opts now => s.sendRequest wire opts now
      | .sendNotification encoded =>
        match s.sendNotification wire encoded with
        | .ok s' => some s'
        | .error _ => some s
      | .sendAnswer id response => some (s.sendAnswer wire (some id) response)
      | .cancel _ => none
      | .unwind _ => none
      | .expireDue now => if s.inputOpen then some (s.expireDue wire now) else none
      | .receive message => some (s.readMessage wire message)
      | .oversized message head => some (s.skipOversized wire message head)
      | .endInput why => some (s.endInput why)
      | .answersDone => if s.inputOpen then none else some { s with answersDone := true }
      | .takeBatch => if s.outputOpen then some { s with outgoingQueue := [] } else none
      | .finishOutput =>
        if s.outgoingQueue = [] ∧ (s.closingOutput = true ∨ s.answersDone = true) ∧
            s.outputOpen = true then
          some { s with closingOutput := false, outputOpen := false }
        else none
      | .failOutput message => some (s.failOutput message)
      | .closeOutput => some s.closeOutput
      | .close => some s.close
      | .destroy => some s.destroy

/-- A peer as it is made. -/
def start (policy : ViolationPolicy) : State := { violationPolicy := policy }

/-- The states that some run leads to. -/
def Reachable (policy : ViolationPolicy) (s : State) : Prop := Core.Reach step (start policy) s

end Kotatsu.Ipc.Peer
