import Kotatsu.Core.Transition

/-!
# Aggregates of tasks

`when_all`, `when_any` and `task_group` run children and settle once all of them
have ended. Starting or cancelling a child runs code of the program, which may
end any child, cancel the aggregate or call into it again before it returns. The
model keeps the calls of the aggregate that have not returned as a stack of
frames: while the top of the stack is `outside` the program runs and makes any
call it may, and otherwise the frame on top does its next piece of work. Events
are recorded in the order in which they happen and are read by no step.
-/

namespace Kotatsu.Async.Aggregate

abbrev ChildId := Nat

/-- The aggregates among `NodeKind`. -/
inductive Kind where
  | whenAll
  | whenAny
  | taskGroup
deriving DecidableEq, Repr

/-- `async_node::State`. -/
inductive NodeState where
  | pending
  | running
  | succeeded
  | failed
  | cancelled
deriving DecidableEq, Repr

/-- `aggregate_op::Decision`. -/
inductive Decision where
  | none
  | resume
  | cancel
  | error
deriving DecidableEq, Repr

/-- How a child ends: with a value, an error, an exception, or cancelled. -/
inductive End (V E X : Type) where
  | succeeded (value : V)
  | failed (error : E)
  | threw (exception : X)
  | cancelled
deriving DecidableEq, Repr

/-- Where a child is: not given to the aggregate, given and not started, running, ended. -/
inductive Progress (V E X : Type) where
  | idle
  | given
  | running
  | ended (how : End V E X)
deriving DecidableEq, Repr

/-- A child's `task_frame`. -/
structure Child (V E X : Type) where
  progress : Progress V E X := .idle
  cancelRequested : Bool := false

/-- What happens to an aggregate. -/
inductive Event (V E X : Type) where
  | ended (child : ChildId) (how : End V E X)
  | cancelled
  | groupCancelled
deriving DecidableEq, Repr

/-- A call that has not returned: the loop of `arm` with the children left to
start, `child_completed` before it counts the child off, the loop of
`cancel_children` with the turns left, `cancel_all` with its pin, the end of
`settle_if_idle` for a group, and the program outside the aggregate. -/
inductive Frame where
  | arm (rest : List ChildId)
  | complete (child : ChildId)
  | cancelChildren (count : Nat)
  | cancelAll
  | deliver (state : NodeState)
  | outside
deriving DecidableEq, Repr

/-- How an aggregate is made: the tasks of `when_all` or `when_any`, and whether
the program sees its cancellation as a value. -/
structure Config where
  kind : Kind
  tasks : List ChildId
  intercept : Bool
  nodup : tasks.Nodup
  ne_nil : kind = .whenAny → tasks ≠ []
  group : kind = .taskGroup → tasks = []

/-- An `aggregate_op` with its children, the fields of each kind, and what was
delivered to the awaiting task. -/
structure State (V E X : Type) where
  state : NodeState := .pending
  cancelRequested : Bool := false
  awaited : Bool := false
  siblings : List ChildId := []
  pending : Int := 0
  winner : Option ChildId := none
  ended : List ChildId := []
  decision : Decision := .none
  exception : Option X := none
  firstError : Option E := none
  errors : List E := []
  child : ChildId → Child V E X := fun _ => {}
  stack : List Frame := []
  joined : Bool := false
  gone : Bool := false
  deliveries : List NodeState := []
  history : List (Event V E X) := []

variable {V E X : Type}

namespace State

/-- `done`. -/
def done (s : State V E X) : Bool :=
  s.state = .succeeded || s.state = .failed || s.state = .cancelled

/-- `decided`. -/
def decided (s : State V E X) : Bool := s.decision ≠ .none || s.cancelRequested

def modifyChild (s : State V E X) (c : ChildId) (f : Child V E X → Child V E X) : State V E X :=
  { s with child := Function.update s.child c (f (s.child c)) }

def push (s : State V E X) (frame : Frame) : State V E X := { s with stack := frame :: s.stack }

def record (s : State V E X) (event : Event V E X) : State V E X :=
  { s with history := s.history ++ [event] }

/-! ## Settling -/

/-- `settled_state`. -/
def settledState (s : State V E X) : NodeState :=
  if s.decision = .error then .failed
  else if s.decision = .cancel || s.cancelRequested then .cancelled
  else .succeeded

/-- The outcome is fixed. A group's ended children go before it is delivered,
and code of theirs runs as they do. -/
def settle (cfg : Config) (s : State V E X) : State V E X :=
  let outcome := s.settledState
  let s := { s with state := outcome, awaited := false }
  if cfg.kind = .taskGroup then
    (({ s with ended := [] }).push (.deliver outcome)).push .outside
  else { s with deliveries := s.deliveries ++ [outcome] }

/-- `settle_if_idle`. -/
def settleIfIdle (cfg : Config) (s : State V E X) : State V E X :=
  if s.pending ≠ 0 || !s.awaited then s else s.settle cfg

/-! ## The end of a child -/

/-- `decide`. The first decision goes on to cancel the children. -/
def decide (s : State V E X) (d : Decision) : State V E X :=
  if s.decided then (if d = .error then { s with decision := .error } else s)
  else ({ s with decision := d }).push (.cancelChildren s.siblings.length)

/-- The hooks of `when_op` and `task_group` that take a child's error. -/
def takeError (cfg : Config) (s : State V E X) (error : E) : State V E X :=
  if cfg.kind = .taskGroup then { s with errors := s.errors ++ [error] }
  else { s with firstError := some (s.firstError.getD error) }

/-- `child_completed`, up to where it counts the child off. -/
def childCompleted (cfg : Config) (s : State V E X) (c : ChildId) (how : End V E X) :
    State V E X :=
  let s := (s.record (.ended c how)).modifyChild c fun x => { x with progress := .ended how }
  let s := ({ s with siblings := s.siblings.erase c }).push (.complete c)
  match how with
  | .threw exception => ({ s with exception := some (s.exception.getD exception) }).decide .error
  | .failed error => (s.takeError cfg error).decide .error
  | .cancelled => if cfg.kind ≠ .taskGroup then s.decide .cancel else s
  | .succeeded _ =>
    if cfg.kind = .whenAny && !s.decided then ({ s with winner := some c }).decide .resume else s

/-- `task_frame::start`: a task cancelled before it starts never runs. -/
def start (cfg : Config) (s : State V E X) (c : ChildId) : State V E X :=
  if (s.child c).cancelRequested then s.childCompleted cfg c .cancelled
  else (s.modifyChild c fun x => { x with progress := .running }).push .outside

/-- `async_node::cancel` of a child: one that runs passes it on. -/
def cancelChild (s : State V E X) (c : ChildId) : State V E X :=
  if (s.child c).cancelRequested then s
  else
    let s := s.modifyChild c fun x => { x with cancelRequested := true }
    match (s.child c).progress with
    | .running => s.push .outside
    | _ => s

/-- `cancel_all`, up to its first cancel. -/
def cancelAll (s : State V E X) : State V E X :=
  (({ s with pending := s.pending + 1 }).push .cancelAll).push
    (.cancelChildren s.siblings.length)

/-- The next piece of work of the frame on top. -/
def tick (cfg : Config) (s : State V E X) (frame : Frame) (rest : List Frame) :
    Option (State V E X) :=
  match frame with
  | .arm [] => some (({ s with stack := rest, pending := s.pending - 1 }).settleIfIdle cfg)
  | .arm (c :: cs) => some (({ s with stack := .arm cs :: rest }).start cfg c)
  | .complete c =>
    let s := if cfg.kind = .taskGroup then { s with ended := c :: s.ended } else s
    some (({ s with stack := rest, pending := s.pending - 1 }).settleIfIdle cfg)
  | .cancelChildren 0 => some { s with stack := rest }
  | .cancelChildren (n + 1) =>
    match s.siblings with
    | [] => some { s with stack := rest }
    | c :: cs =>
      some (({ s with stack := .cancelChildren n :: rest, siblings := cs ++ [c] }).cancelChild c)
  | .cancelAll => some (({ s with stack := rest, pending := s.pending - 1 }).settleIfIdle cfg)
  | .deliver outcome => some { s with stack := rest, deliveries := s.deliveries ++ [outcome] }
  | .outside => none

/-! ## Calls of the program -/

/-- `when_op::await_suspend` and `arm`. With no task to wait for, `when_all` is ready. -/
def await (cfg : Config) (s : State V E X) (waitingCancelled : Bool) : State V E X :=
  if cfg.tasks = [] then
    { s with joined := true, deliveries := s.deliveries ++ [.succeeded] }
  else if waitingCancelled then { s with gone := true }
  else
    let s := { s with
      joined := true
      awaited := true
      state := .running
      pending := cfg.tasks.length + 1
      siblings := cfg.tasks
      child := fun c =>
        if c ∈ cfg.tasks then { s.child c with progress := .given } else s.child c }
    s.push (.arm cfg.tasks)

/-- `task_group::spawn` of a child that a cancel has reached or not. -/
def spawn (cfg : Config) (s : State V E X) (c : ChildId) (cancelled : Bool) : State V E X :=
  if s.decided || s.done then s
  else
    let s := s.modifyChild c fun _ => { progress := .given, cancelRequested := cancelled }
    let s := { s with siblings := s.siblings ++ [c], pending := s.pending + 1 }
    s.start cfg c

/-- `async_node::cancel` of the aggregate. -/
def cancel (s : State V E X) : State V E X :=
  if s.done || s.cancelRequested then s
  else (({ s with cancelRequested := true }).record .cancelled).cancelAll

/-- `task_group::cancel`. -/
def groupCancel (s : State V E X) : State V E X :=
  if s.decided || s.done then s
  else (({ s with decision := .resume }).record .groupCancelled).cancelAll

/-- `task_group::join`: `await_ready`, then `await_children`. -/
def join (cfg : Config) (s : State V E X) (waitingCancelled : Bool) : State V E X :=
  let s := { s with joined := true }
  if s.pending = 0 then s.settle cfg
  else
    let s := { s with awaited := true, state := .running }
    if waitingCancelled then
      (({ s with cancelRequested := true }).record .cancelled).cancelAll
    else s

end State

/-! ## Steps -/

/-- A turn of the frame on top, the return of the program into it, or a call the
program makes: a child that runs ends, the aggregate is awaited or cancelled, a
group takes a child or is cancelled or joined, and ended children go. -/
inductive Op (V E X : Type) where
  | tick
  | ret
  | finish (c : ChildId) (how : End V E X)
  | await (waitingCancelled : Bool)
  | cancel
  | spawn (c : ChildId) (cancelled : Bool)
  | groupCancel
  | join (waitingCancelled : Bool)
  | takeEnded

/-- The program runs. -/
def State.Outside (s : State V E X) : Prop := s.stack = [] ∨ ∃ rest, s.stack = .outside :: rest

instance (s : State V E X) : Decidable s.Outside :=
  match h : s.stack with
  | [] => isTrue (Or.inl h)
  | .outside :: rest => isTrue (Or.inr ⟨rest, h⟩)
  | .arm _ :: _ | .complete _ :: _ | .cancelChildren _ :: _ | .cancelAll :: _ | .deliver _ :: _ =>
    isFalse (by simp [State.Outside, h])

/-- A child that runs. -/
def State.runs (s : State V E X) (c : ChildId) : Bool :=
  match (s.child c).progress with
  | .running => true
  | _ => false

/-- A child the aggregate does not know. -/
def State.idle (s : State V E X) (c : ChildId) : Bool :=
  match (s.child c).progress with
  | .idle => true
  | _ => false

/-- One step, where it is possible. -/
def step (cfg : Config) (s : State V E X) (op : Op V E X) : Option (State V E X) :=
  match op with
  | .tick =>
    match s.stack with
    | [] => none
    | frame :: rest => s.tick cfg frame rest
  | .ret =>
    match s.stack with
    | .outside :: rest => some { s with stack := rest }
    | _ => none
  | .finish c how =>
    if s.Outside ∧ s.runs c = true then some (s.childCompleted cfg c how) else none
  | .await waitingCancelled =>
    if s.Outside ∧ cfg.kind ≠ .taskGroup ∧ s.joined = false ∧ s.gone = false then
      some (s.await cfg waitingCancelled)
    else none
  | .cancel => if s.Outside ∧ s.awaited = true then some s.cancel else none
  | .spawn c cancelled =>
    if s.Outside ∧ cfg.kind = .taskGroup ∧ s.idle c = true then some (s.spawn cfg c cancelled)
    else none
  | .groupCancel => if s.Outside ∧ cfg.kind = .taskGroup then some s.groupCancel else none
  | .join waitingCancelled =>
    if s.Outside ∧ cfg.kind = .taskGroup ∧ s.joined = false then
      some (s.join cfg waitingCancelled)
    else none
  | .takeEnded => if s.Outside then some { s with ended := [] } else none

/-- An aggregate as it is made, with tasks that a cancel has reached or not. -/
def fresh (cancelled : ChildId → Bool) : State V E X where
  child c := { cancelRequested := cancelled c }

/-- The states that some run leads to. -/
def Reachable (cfg : Config) (s : State V E X) : Prop :=
  ∃ cancelled, Core.Reach (step cfg) (fresh cancelled) s

/-! ## Results -/

/-- What `await_resume` gives the awaiting task. -/
inductive Result (V E X : Type) where
  | rethrow (exception : X)
  | error (error : E)
  | errors (errors : List E)
  | cancelled
  | values (values : List V)
  | winner (index : Nat) (value : V)
  | joined
deriving DecidableEq, Repr

/-- `success_of`; a child that has not succeeded has no value to take. -/
def State.successOf (s : State V E X) (c : ChildId) : Option V :=
  match (s.child c).progress with
  | .ended (.succeeded value) => some value
  | _ => none

/-- `collect_success`. -/
def State.collectSuccess (cfg : Config) (s : State V E X) : Option (Result V E X) :=
  match cfg.kind with
  | .whenAll => (cfg.tasks.mapM s.successOf).map .values
  | .whenAny =>
    match cfg.tasks.findIdx? (fun c => s.winner = some c) with
    | some index => (cfg.tasks[index]?.bind s.successOf).map (.winner index)
    | none => none
  | .taskGroup => none

/-- `await_resume` of each kind; `none` where the code would take a value that is not there. -/
def State.awaitResume (cfg : Config) (s : State V E X) : Option (Result V E X) :=
  match s.exception with
  | some exception => some (.rethrow exception)
  | none =>
    if cfg.kind = .taskGroup then
      if s.errors ≠ [] then some (.errors s.errors) else some .joined
    else
      match s.firstError with
      | some error => some (.error error)
      | none =>
        if cfg.intercept && s.state = .cancelled then some .cancelled
        else s.collectSuccess cfg

end Kotatsu.Async.Aggregate
