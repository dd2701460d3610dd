import Kotatsu.Core.Transition

/-!
# Sync primitives and the waits on them

Mutexes, semaphores, events and condition variables keep the tasks that wait on
them in a queue; a loop keeps the waits of its tasks that are queued anywhere,
and the ones it is to resume. A step is one call from a task or a loop: each of
them runs to its end before any other task does, since a primitive only ever
defers the tasks it wakes. The links of a queue are read as the list they
spell. `History` and the last three fields of `Wait` record what has happened
and are read by no step.
-/

namespace Kotatsu.Async.Sync

abbrev PrimId := Nat
abbrev WaitId := Nat
abbrev LoopId := Nat
abbrev TaskId := Nat

/-! ## State -/

/-- `sync_primitive::Kind`. -/
inductive Kind where
  | mutex
  | semaphore
  | event
  | conditionVariable
deriving DecidableEq, Repr

/-- `PTRDIFF_MAX`. -/
def ptrdiffMax : Int := 9223372036854775807

theorem zero_le_ptrdiffMax : ((0 : Nat) : Int) ≤ ptrdiffMax := by decide

/-- A `sync_primitive` with the fields of each kind. A semaphore's `count` is a
`ptrdiff_t`: a call that takes it past `ptrdiffMax` is no step. -/
structure Primitive where
  kind : Kind
  queue : List WaitId := []
  woken : Int := 0
  locked : Bool := false
  count : Int := 0
  signaled : Bool := false

/-- Where a wait is: in a queue, taken off one by the call under way, to be
resumed, left by its loop, or over. -/
inductive Place where
  | unused
  | atOwner
  | atMutex
  | inHand
  | deferred
  | abandoned
  | resumed
  | cancelled
deriving DecidableEq, Repr

/-- A `wait_node`, with the task that waits. -/
structure Wait where
  task : TaskId := 0
  owner : PrimId := 0
  relock : Option PrimId := none
  loop : Option LoopId := none
  queue : Option PrimId := none
  cancelRequested : Bool := false
  granted : Bool := false
  handedOn : Bool := false
  place : Place := .unused
deriving DecidableEq, Repr

/-- The part of an event loop that waits touch. -/
structure Loop where
  queuedWaits : List WaitId := []
  deferred : List WaitId := []
  alive : Bool := true

/-- What happened at a primitive: the waits queued on it and the waits it
granted, each in order; the units released to it and taken from it; the tasks
that hold it. -/
structure History where
  arrivals : List WaitId := []
  grants : List WaitId := []
  released : Int := 0
  taken : Int := 0
  holders : List TaskId := []

/-- The primitives, the waits so far, numbered in the order in which they
began, and the loops. -/
@[ext]
structure State where
  prims : PrimId → Primitive
  waits : WaitId → Wait
  loops : LoopId → Loop
  fresh : WaitId
  history : PrimId → History

namespace State

def modifyPrim (s : State) (p : PrimId) (f : Primitive → Primitive) : State :=
  { s with prims := Function.update s.prims p (f (s.prims p)) }

def modifyWait (s : State) (w : WaitId) (f : Wait → Wait) : State :=
  { s with waits := Function.update s.waits w (f (s.waits w)) }

def modifyLoop (s : State) (l : LoopId) (f : Loop → Loop) : State :=
  { s with loops := Function.update s.loops l (f (s.loops l)) }

def modifyHistory (s : State) (p : PrimId) (f : History → History) : State :=
  { s with history := Function.update s.history p (f (s.history p)) }

/-! ## Queues -/

/-- `event_loop::track`. -/
def track (s : State) (w : WaitId) : State :=
  match (s.waits w).loop with
  | some l => s.modifyLoop l fun x => { x with queuedWaits := w :: x.queuedWaits }
  | none => s

/-- `event_loop::untrack`. -/
def untrack (s : State) (w : WaitId) : State :=
  match (s.waits w).loop with
  | some l => s.modifyLoop l fun x => { x with queuedWaits := x.queuedWaits.erase w }
  | none => s

/-- `event_loop::defer_resume`. -/
def deferResume (s : State) (w : WaitId) : State :=
  let s := s.modifyWait w fun x => { x with place := .deferred }
  match (s.waits w).loop with
  | some l => s.modifyLoop l fun x => { x with deferred := x.deferred ++ [w] }
  | none => s

/-- `sync_primitive::insert`. -/
def insert (s : State) (p : PrimId) (w : WaitId) : State :=
  let s := s.modifyWait w fun x =>
    { x with queue := some p, place := if p = x.owner then .atOwner else .atMutex }
  let s := s.modifyPrim p fun x => { x with queue := x.queue ++ [w] }
  let s := s.modifyHistory p fun h => { h with arrivals := h.arrivals ++ [w] }
  s.track w

/-- `sync_primitive::remove`. -/
def remove (s : State) (p : PrimId) (w : WaitId) : State :=
  let s := s.modifyPrim p fun x => { x with queue := x.queue.erase w }
  let s := s.modifyWait w fun x => { x with queue := none, place := .inHand }
  s.untrack w

/-- `mutex::try_lock`. -/
def tryLock (s : State) (m : PrimId) : Bool × State :=
  if (s.prims m).locked then (false, s)
  else (true, s.modifyPrim m fun x => { x with locked := true })

/-- `semaphore::try_acquire`. -/
def tryAcquire (s : State) (p : PrimId) : Bool × State :=
  if (s.prims p).count ≤ 0 then (false, s)
  else (true, s.modifyPrim p fun x => { x with count := x.count - 1 })

/-- `wait_node::grant`. -/
def grant (s : State) (source : PrimId) (w : WaitId) : State :=
  let x := s.waits w
  if source = x.owner then
    let s := if (s.prims x.owner).kind ≠ .event then
        s.modifyPrim x.owner fun o => { o with woken := o.woken + 1 }
      else s
    let s := s.modifyWait w fun x => { x with granted := true }
    match x.relock with
    | some m =>
      match s.tryLock m with
      | (true, s) => s.deferResume w
      | (false, s) => s.insert m w
    | none => s.deferResume w
  else s.deferResume w

/-- `sync_primitive::wake_one`. -/
def wakeOne (s : State) (p : PrimId) : Bool × State :=
  match (s.prims p).queue with
  | [] => (false, s)
  | w :: _ =>
    let s := s.remove p w
    let s := s.modifyHistory p fun h => { h with grants := h.grants ++ [w] }
    (true, s.grant p w)

/-- `while(wake_one())`, for as many turns as there are waits. -/
def wakeTimes (p : PrimId) : Nat → State → State
  | 0, s => s
  | n + 1, s =>
    match s.wakeOne p with
    | (true, s) => wakeTimes p n s
    | (false, s) => s

/-- `sync_primitive::wake_all`. -/
def wakeAll (s : State) (p : PrimId) : State := wakeTimes p (s.prims p).queue.length s

/-- `mutex::unlock`. -/
def unlock (s : State) (m : PrimId) : State :=
  match s.wakeOne m with
  | (true, s) => s
  | (false, s) => s.modifyPrim m fun x => { x with locked := false }

/-- `semaphore::release`. -/
def release (p : PrimId) : Nat → State → State
  | 0, s => s
  | n + 1, s =>
    match s.wakeOne p with
    | (true, s) => release p n s
    | (false, s) => release p n (s.modifyPrim p fun x => { x with count := x.count + 1 })

/-- `condition_variable::notify_one`. -/
def notifyOne (s : State) (c : PrimId) : State := (s.wakeOne c).2

/-! ## Waits -/

/-- The task holds a mutex from here on. -/
def addHolder (s : State) (m : PrimId) (t : TaskId) : State :=
  s.modifyHistory m fun h => { h with holders := t :: h.holders }

/-- The task has taken what the primitive had for it. -/
def recordTaken (s : State) (p : PrimId) (t : TaskId) : State :=
  match (s.prims p).kind with
  | .mutex => s.addHolder p t
  | .semaphore => s.modifyHistory p fun h => { h with taken := h.taken + 1 }
  | .event => s
  | .conditionVariable => s

/-- The wait is over, and a condition variable's task has its mutex. -/
def finish (s : State) (w : WaitId) (place : Place) : State :=
  let x := s.waits w
  let s := s.modifyWait w fun x => { x with place := place }
  match x.relock with
  | some m => s.addHolder m x.task
  | none => s

/-- `wait_node::await_ready`. -/
def awaitReady (s : State) (p : PrimId) : Bool × State :=
  match (s.prims p).kind with
  | .mutex => s.tryLock p
  | .semaphore => s.tryAcquire p
  | .event => ((s.prims p).signaled, s)
  | .conditionVariable => (false, s)

/-- The wait of a task on a loop, before it is queued. -/
def begin (s : State) (t : TaskId) (owner : PrimId) (relock : Option PrimId) (l : LoopId) :
    State :=
  { s with
    fresh := s.fresh + 1
    waits := Function.update s.waits s.fresh
      { task := t, owner := owner, relock := relock, loop := some l, place := .inHand } }

/-- `wait_node::wait` of a task no cancel has reached. -/
def wait (s : State) (t : TaskId) (owner : PrimId) (relock : Option PrimId) (l : LoopId) : State :=
  let s := match relock with
    | some m => s.unlock m
    | none => s
  (s.begin t owner relock l).insert owner s.fresh

/-- `wait_node::give_back`. -/
def giveBack (s : State) (w : WaitId) : State :=
  let owner := (s.waits w).owner
  let s := s.modifyWait w fun x => { x with handedOn := true }
  let less := s.modifyPrim owner fun o => { o with woken := o.woken - 1 }
  match (s.prims owner).kind with
  | .event => s
  | .mutex => less.unlock owner
  | .semaphore => release owner 1 less
  | .conditionVariable => less.notifyOne owner

/-- The end of `wait_node::cancel_wait`, for a wait queued until now or abandoned. -/
def cancelTaken (s : State) (w : WaitId) : State :=
  match (s.waits w).relock with
  | some m =>
    match s.tryLock m with
    | (true, s) => s.finish w .cancelled
    | (false, s) => if (s.waits w).loop.isSome then s.insert m w else s
  | none => s.finish w .cancelled

/-- `wait_node::cancel_wait`. -/
def cancelWait (s : State) (w : WaitId) : State :=
  let x := s.waits w
  if x.queue = some x.owner then (s.remove x.owner w).cancelTaken w
  else if x.loop.isSome then s.giveBack w
  else s.cancelTaken w

/-- `async_node::cancel` of a wait. -/
def cancel (s : State) (w : WaitId) : State :=
  if (s.waits w).cancelRequested then s
  else (s.modifyWait w fun x => { x with cancelRequested := true }).cancelWait w

/-- `wait_node::abandon`. -/
def abandon (s : State) (w : WaitId) : State :=
  let x := s.waits w
  let s := if x.queue ≠ some x.owner ∧ x.cancelRequested = false then
      s.modifyPrim x.owner fun o => { o with woken := o.woken - 1 }
    else s
  let s := match x.queue with
    | some p => s.remove p w
    | none => s
  s.modifyWait w fun x => { x with loop := none, place := .abandoned }

/-- The loop of `~event_loop` over the waits it tracks, for as many turns as there are. -/
def abandonTimes (l : LoopId) : Nat → State → State
  | 0, s => s
  | n + 1, s =>
    match (s.loops l).queuedWaits with
    | [] => s
    | w :: _ => abandonTimes l n (s.abandon w)

/-- `~event_loop`. -/
def destroyLoop (s : State) (l : LoopId) : State :=
  (abandonTimes l (s.loops l).queuedWaits.length s).modifyLoop l fun x => { x with alive := false }

/-- The next wait that `drain_deferred` resumes is taken off the loop's list. -/
def popDeferred (s : State) (l : LoopId) (w : WaitId) : State :=
  let s := s.modifyLoop l fun x => { x with deferred := x.deferred.tail }
  s.modifyWait w fun x => { x with place := .inHand }

/-- `wait_node::resume`. -/
def resume (s : State) (w : WaitId) : State :=
  let x := s.waits w
  if x.cancelRequested then s.finish w .cancelled
  else
    let s := if (s.prims x.owner).kind ≠ .event then
        s.modifyPrim x.owner fun o => { o with woken := o.woken - 1 }
      else s
    let s := s.recordTaken x.owner x.task
    s.finish w .resumed

/-- The state after a call that may have added to a semaphore's count: none where
the count overflowed, which is undefined. Such a call adds by ones and takes
nothing off, so the count overflowed just when it ends past `ptrdiffMax`. -/
def inRange (s : State) (p : PrimId) : Option State :=
  if (s.prims p).kind = .semaphore ∧ ptrdiffMax < (s.prims p).count then none else some s

end State

/-! ## Steps -/

/-- A call of a task or a loop. `cancelled` says that a cancel has reached the
task before it would wait. -/
inductive Op where
  | take (t : TaskId) (p : PrimId) (l : LoopId) (cancelled : Bool)
  | waitOn (t : TaskId) (c m : PrimId) (l : LoopId) (cancelled : Bool)
  | tryTake (t : TaskId) (p : PrimId)
  | unlock (t : TaskId) (m : PrimId)
  | release (p : PrimId) (n : Nat)
  | notifyOne (c : PrimId)
  | notifyAll (c : PrimId)
  | set (e : PrimId)
  | reset (e : PrimId)
  | cancel (w : WaitId)
  | resume (l : LoopId)
  | destroyLoop (l : LoopId)
deriving DecidableEq, Repr

open State in
/-- One call, where its caller may make it and what it does is defined. -/
def step (s : State) : Op → Option State
  | .take t p l cancelled =>
    if (s.prims p).kind ≠ .conditionVariable ∧ (s.loops l).alive = true then
      match s.awaitReady p with
      | (true, s') => some (s'.recordTaken p t)
      | (false, s') => if cancelled then some s' else some (s'.wait t p none l)
    else none
  | .waitOn t c m l cancelled =>
    if (s.prims c).kind = .conditionVariable ∧ (s.prims m).kind = .mutex ∧
        (s.loops l).alive = true ∧ t ∈ (s.history m).holders then
      if cancelled then some s
      else some ((s.modifyHistory m fun h => { h with holders := h.holders.erase t }).wait
        t c (some m) l)
    else none
  | .tryTake t p =>
    if (s.prims p).kind = .mutex ∨ (s.prims p).kind = .semaphore then
      match s.awaitReady p with
      | (true, s') => some (s'.recordTaken p t)
      | (false, s') => some s'
    else none
  | .unlock t m =>
    if (s.prims m).kind = .mutex ∧ t ∈ (s.history m).holders then
      some ((s.modifyHistory m fun h => { h with holders := h.holders.erase t }).unlock m)
    else none
  | .release p n =>
    if (s.prims p).kind = .semaphore then
      (State.release p n
        (s.modifyHistory p fun h => { h with released := h.released + n })).inRange p
    else none
  | .notifyOne c => if (s.prims c).kind = .conditionVariable then some (s.notifyOne c) else none
  | .notifyAll c => if (s.prims c).kind = .conditionVariable then some (s.wakeAll c) else none
  | .set e =>
    if (s.prims e).kind = .event then
      some ((s.modifyPrim e fun x => { x with signaled := true }).wakeAll e)
    else none
  | .reset e =>
    if (s.prims e).kind = .event then
      some (s.modifyPrim e fun x => { x with signaled := false })
    else none
  | .cancel w =>
    if (s.waits w).place ∈ [.atOwner, .atMutex, .deferred, .abandoned] then
      (s.cancel w).inRange (s.waits w).owner
    else none
  | .resume l =>
    if (s.loops l).alive = true then
      match (s.loops l).deferred with
      | [] => none
      | w :: _ => some ((s.popDeferred l w).resume w)
    else none
  | .destroyLoop l => if (s.loops l).alive = true then some (s.destroyLoop l) else none

/-- The primitives of a program as they are made. -/
structure Config where
  kind : PrimId → Kind
  initial : PrimId → Nat := fun _ => 0
  initial_le : ∀ p, initial p ≤ ptrdiffMax := by exact fun _ => zero_le_ptrdiffMax
  signaled : PrimId → Bool := fun _ => false

/-- The state before any task has waited. -/
def Config.start (cfg : Config) : State where
  prims p := { kind := cfg.kind p, count := cfg.initial p, signaled := cfg.signaled p }
  waits _ := {}
  loops _ := {}
  fresh := 0
  history _ := {}

/-- The states that some run leads to. -/
def Config.Reachable (cfg : Config) (s : State) : Prop := Core.Reach step cfg.start s

end Kotatsu.Async.Sync
