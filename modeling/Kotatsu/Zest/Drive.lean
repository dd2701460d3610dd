import Kotatsu.Core.Bytes
import Kotatsu.Core.Transition

/-!
# The tests of a run and its workers

The runner drives its tests through worker processes: several drivers take the tests of one
list, and once they are done one takes the serial tests. A driver goes from one await to the
next in a step, and the drivers take their steps in any order. What a driver awaits, the start
of a worker, a test on a worker or the end of a worker, comes back with any result. `sent`,
`ended` and `lost` record what has happened, and no step reads them.
-/

namespace Kotatsu.Zest

open Kotatsu.Core

/-- `Entry`, with the attributes of its test that `run_pool` and `drive` read. -/
structure Entry where
  name : Bytes
  serial : Bool := false
  crashes : Bool := false
deriving DecidableEq

/-- What a coroutine of `drive` awaits: nothing at the head of its loop, the start of a worker,
a test, the end of a crash test's own worker, or after its loop the end of its worker. -/
inductive Phase (Outcome : Type) where
  | fetching
  | starting (entry : Entry)
  | running (entry : Entry)
  | finishing (entry : Entry) (outcome : Outcome)
  | closing
  | done

def Phase.isDone {Outcome : Type} : Phase Outcome → Bool
  | .done => true
  | _ => false

/-- A coroutine of `drive`, with the numbers of its `worker` and of the crash test's `own`. -/
structure Driver (Outcome : Type) where
  worker : Option Nat := none
  own : Option Nat := none
  phase : Phase Outcome := .fetching

/-- A run of `run_pool`: the list its drivers take tests from and how many they are, the serial
tests still to come, and what the workers were sent, which of them have ended, and the tests
that nobody will take or report. -/
structure Pool (Outcome Failure : Type) where
  tests : List Entry
  next : Nat := 0
  count : Nat
  drivers : Nat → Driver Outcome := fun _ => {}
  serial : Option (List Entry)
  broken : Option Failure := none
  failures : List Failure := []
  reported : List (Entry × Outcome) := []
  spawned : Nat := 0
  sent : Nat → List Entry := fun _ => []
  ended : List Nat := []
  lost : List Entry := []

namespace Pool

/-- A driver at the head of its loop goes on; a worker has started or not; a test has an outcome,
and its worker stays or has ended; a worker that was hung up on has ended; the serial tests
begin. -/
inductive Event (Outcome Failure : Type) where
  | fetch (i : Nat)
  | started (i : Nat) (failure : Option Failure)
  | ran (i : Nat) (outcome : Outcome) (stays : Bool)
  | finished (i : Nat) (failure : Option Failure)
  | serial

variable {Outcome Failure : Type}

def setDriver (s : Pool Outcome Failure) (i : Nat) (d : Driver Outcome) : Pool Outcome Failure :=
  { s with drivers := Function.update s.drivers i d }

/-- The end of `drive`, past its loop. -/
def leave (s : Pool Outcome Failure) (i : Nat) : Pool Outcome Failure :=
  let d := s.drivers i
  s.setDriver i { d with phase := if d.worker.isSome then .closing else .done }

/-- `run` is called, on a worker of the driver. -/
def send (s : Pool Outcome Failure) (i : Nat) (d : Driver Outcome) (entry : Entry) (w : Nat) :
    Pool Outcome Failure :=
  { s with sent := Function.update s.sent w (s.sent w ++ [entry]) }.setDriver i
    { d with phase := .running entry }

/-- The head of `drive`'s loop; a crash test never has a worker yet. -/
def fetch (s : Pool Outcome Failure) (i : Nat) : Pool Outcome Failure :=
  let d := s.drivers i
  match s.tests[s.next]?, s.broken with
  | some entry, none =>
    let s := { s with next := s.next + 1 }
    match if entry.crashes then none else d.worker with
    | some w => s.send i d entry w
    | none => s.setDriver i { d with phase := .starting entry }
  | _, _ => s.leave i

/-- `start` has returned. -/
def started (s : Pool Outcome Failure) (i : Nat) (entry : Entry) :
    Option Failure → Pool Outcome Failure
  | some failure => { s with broken := some failure, lost := s.lost ++ [entry] }.leave i
  | none =>
    let d := s.drivers i
    let w := s.spawned
    { s with spawned := s.spawned + 1 }.send i
      (if entry.crashes then { d with own := some w } else { d with worker := some w }) entry w

def report (s : Pool Outcome Failure) (entry : Entry) (outcome : Outcome) :
    Pool Outcome Failure := { s with reported := s.reported ++ [(entry, outcome)] }

/-- `run` has returned. -/
def ran (s : Pool Outcome Failure) (i : Nat) (entry : Entry) (outcome : Outcome) (stays : Bool) :
    Pool Outcome Failure :=
  let d := s.drivers i
  if entry.crashes then
    if stays then s.setDriver i { d with phase := .finishing entry outcome }
    else { s with ended := s.ended ++ d.own.toList }.report entry outcome |>.setDriver i
      { d with own := none, phase := .fetching }
  else if stays then (s.report entry outcome).setDriver i { d with phase := .fetching }
  else { s with ended := s.ended ++ d.worker.toList }.report entry outcome |>.setDriver i
    { d with worker := none, phase := .fetching }

/-- `finish` has returned: of the crash test's own worker, or of the driver's after its loop. -/
def finished (s : Pool Outcome Failure) (i : Nat) (failure : Option Failure) :
    Option (Pool Outcome Failure) :=
  let d := s.drivers i
  let s := { s with failures := s.failures ++ failure.toList }
  match d.phase with
  | .finishing entry outcome =>
    some ({ s with ended := s.ended ++ d.own.toList }.report entry outcome |>.setDriver i
      { d with own := none, phase := .fetching })
  | .closing =>
    some ({ s with ended := s.ended ++ d.worker.toList }.setDriver i
      { d with worker := none, phase := .done })
  | _ => none

/-- The drivers are all done. -/
def idle (s : Pool Outcome Failure) : Bool :=
  (List.range s.count).all fun i => (s.drivers i).phase.isDone

/-- The one driver of the serial tests. -/
def startSerial (s : Pool Outcome Failure) (tests : List Entry) : Pool Outcome Failure :=
  { s with
    tests, next := 0, count := 1, drivers := fun _ => {}, serial := none
    lost := s.lost ++ s.tests.drop s.next }

def step (s : Pool Outcome Failure) : Event Outcome Failure → Option (Pool Outcome Failure)
  | .fetch i =>
    match (s.drivers i).phase with
    | .fetching => if i < s.count then some (s.fetch i) else none
    | _ => none
  | .started i failure =>
    match (s.drivers i).phase with
    | .starting entry => if i < s.count then some (s.started i entry failure) else none
    | _ => none
  | .ran i outcome stays =>
    match (s.drivers i).phase with
    | .running entry => if i < s.count then some (s.ran i entry outcome stays) else none
    | _ => none
  | .finished i failure => if i < s.count then s.finished i failure else none
  | .serial => s.serial.bind fun tests => if s.idle then some (s.startSerial tests) else none

/-- The beginning of `run_pool`, for so many jobs. -/
def initial (jobs : Nat) (tests : List Entry) : Pool Outcome Failure :=
  let concurrent := tests.filter fun e => !e.serial
  { tests := concurrent
    count := min jobs concurrent.length
    serial := some (tests.filter Entry.serial) }

/-- The end of `run_pool`. -/
def isOver (s : Pool Outcome Failure) : Bool := s.serial.isNone && s.idle

end Pool

end Kotatsu.Zest
