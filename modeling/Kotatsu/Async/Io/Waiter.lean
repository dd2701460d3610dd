import Kotatsu.Core.Transition

/-!
# The one task a resource wakes

A `waiter_slot` holds an awaiter from its wait until it resumes, is cancelled or is aborted.
Awaiters are numbered in the order of their waits, and the slot's pointer and the awaiter's
back pointer are the number and a flag. A loop completes what was queued: the operations
staged in one turn are ready in the next and completed in the one after. The last three
fields of `Awaiter` record what has happened and are read by no step.
-/

namespace Kotatsu.Async.Io

open Kotatsu.Core

/-- The codes of an `error` that are told apart. -/
inductive Reason where
  | operationAborted
  | resourceBusyOrLocked
  | endOfFile
  | invalidArgument
  | canceled
  | other (code : Nat)
deriving DecidableEq, Repr

/-- `error`; none where there is none. -/
abbrev Error := Option Reason

/-- `status_to_error` of a status that is an error. -/
def Reason.reported : Reason → Reason
  | .canceled => .operationAborted
  | err => err

/-- `async_node::State`. -/
inductive State where
  | pending
  | running
  | succeeded
  | failed
  | cancelled
deriving DecidableEq, Repr

/-- `waiter_slot::awaiter` with the fields of an `io_op` it has: whether it points at the
slot, what it resumes with, whether its completion is queued, whether a task awaits it. -/
structure Awaiter (T : Type) where
  slot : Bool := false
  value : Except Reason T := .error .resourceBusyOrLocked
  queued : Bool := false
  awaited : Bool := false
  cancelRequested : Bool := false
  state : State := .pending
  resumed : Option (Except Reason T) := none
  given : List (Except Reason T) := []
  enqueued : Nat := 0
  completed : Nat := 0

/-- `waiter_slot`, with the awaiters so far and the queue of the loop. -/
structure WaiterSlot (T : Type) where
  waiter : Option Nat := none
  awaiters : Nat → Awaiter T := fun _ => {}
  fresh : Nat := 0
  staged : List Nat := []
  ready : List Nat := []
  completing : List Nat := []

namespace WaiterSlot

variable {T : Type}

def set (s : WaiterSlot T) (i : Nat) (a : Awaiter T) : WaiterSlot T :=
  { s with awaiters := Function.update s.awaiters i a }

/-- `taken`. -/
def taken (s : WaiterSlot T) : Bool := s.waiter.isSome

/-- `waiting`. -/
def waiting (s : WaiterSlot T) : Bool :=
  match s.waiter with
  | none => false
  | some i => !(s.awaiters i).queued

/-- `awaiter::leave`. -/
def leave (s : WaiterSlot T) (i : Nat) : WaiterSlot T :=
  if (s.awaiters i).slot then
    { s with waiter := none }.set i { s.awaiters i with slot := false }
  else s

/-- `awaiter::await_resume`. -/
def awaitResume (s : WaiterSlot T) (i : Nat) : WaiterSlot T :=
  let s := s.leave i
  s.set i { s.awaiters i with resumed := some (s.awaiters i).value }

/-- `io_op::complete`: the task that awaits it ends cancelled, or resumes; none where its
assertion fails. -/
def complete (s : WaiterSlot T) (i : Nat) : Option (WaiterSlot T) :=
  let a := s.awaiters i
  if a.awaited then
    let ended := s.set i { a with
      state := if a.cancelRequested then .cancelled else .succeeded
      awaited := false
      completed := a.completed + 1 }
    some (if a.cancelRequested then ended else ended.awaitResume i)
  else none

/-- `complete_later`. -/
def completeLater (s : WaiterSlot T) (i : Nat) : WaiterSlot T :=
  { s with staged := s.staged ++ [i] }.set i
    { s.awaiters i with enqueued := (s.awaiters i).enqueued + 1 }

/-- `awaiter::cancel`. -/
def withdraw (s : WaiterSlot T) (i : Nat) : Option (WaiterSlot T) :=
  let s := s.leave i
  if (s.awaiters i).queued then some s else s.complete i

/-- `async_node::cancel` of the operation the waiting task awaits, if it still does. -/
def cancel (s : WaiterSlot T) (i : Nat) : Option (WaiterSlot T) :=
  let a := s.awaiters i
  if a.awaited = false ∨ a.cancelRequested = true then some s
  else (s.set i { a with cancelRequested := true }).withdraw i

/-- A wait: `awaiter::start` and `io_op::attach`, by a task that is cancelled already or
not. -/
def wait (s : WaiterSlot T) (cancelled : Bool) : Option (WaiterSlot T) :=
  let i := s.fresh
  let s := { s with fresh := i + 1 }.set i {}
  if s.waiter.isSome then some (s.awaitResume i)
  else
    let s := { s with waiter := some i }.set i
      { slot := true, awaited := true, state := .running }
    if cancelled then s.cancel i else some s

/-- The value of an awaiter, replaced by the slot. -/
def give (s : WaiterSlot T) (i : Nat) (value : Except Reason T) : WaiterSlot T :=
  s.set i { s.awaiters i with value := value, given := (s.awaiters i).given ++ [value] }

/-- `deliver`; none where its assertion fails. -/
def deliver (s : WaiterSlot T) (value : Except Reason T) : Option (WaiterSlot T) :=
  if s.waiting then
    s.waiter.bind fun i => ((s.leave i).give i value).complete i
  else none

/-- `deliver_later`, whose value is that of a wait that ends well; none where its assertion
fails. -/
def deliverLater (s : WaiterSlot T) (nothing : T) : Option (WaiterSlot T) :=
  if s.waiting then
    s.waiter.map fun i =>
      let s := s.give i (.ok nothing)
      (s.set i { s.awaiters i with queued := true }).completeLater i
  else none

/-- `abort`. -/
def abort (s : WaiterSlot T) : WaiterSlot T :=
  match s.waiter with
  | none => s
  | some i =>
    let s := (s.leave i).give i (.error .operationAborted)
    let queued := (s.awaiters i).queued
    let s := s.set i { s.awaiters i with queued := true }
    if queued then s else s.completeLater i

/-- The beginning of a turn of the loop, once the one before has completed its batch. -/
def turn (s : WaiterSlot T) : Option (WaiterSlot T) :=
  if s.completing = [] then some { s with completing := s.ready, ready := s.staged, staged := [] }
  else none

/-- The next completion of the batch. -/
def next (s : WaiterSlot T) : Option (WaiterSlot T) :=
  match s.completing with
  | [] => none
  | i :: rest => { s with completing := rest }.complete i

/-- What happens to a slot: the calls, the cancel of a task that waits, and the loop. -/
inductive Action (T : Type) where
  | wait (cancelled : Bool)
  | deliver (value : Except Reason T)
  | deliverLater (nothing : T)
  | abort
  | cancel (i : Nat)
  | turn
  | next

/-- One step; none where an assertion fails, or the loop has nothing to complete. -/
def step (s : WaiterSlot T) : Action T → Option (WaiterSlot T)
  | .wait cancelled => s.wait cancelled
  | .deliver value => s.deliver value
  | .deliverLater nothing => s.deliverLater nothing
  | .abort => some s.abort
  | .cancel i => s.cancel i
  | .turn => s.turn
  | .next => s.next

/-! ## The life of an awaiter -/

/-- Where an awaiter is in its life: not there yet, refused by a slot found taken, in the
slot, in the slot and woken, let go by the slot and still queued, over. -/
inductive Stage where
  | unused
  | refused
  | waiting
  | woken
  | leaving
  | resumed
  | cancelled
deriving DecidableEq

/-- The slot holds an awaiter of this stage. -/
def Stage.Holds (stage : Stage) : Prop := stage = .waiting ∨ stage = .woken

/-- How many times an awaiter of this stage is on the queue of the loop. -/
def Stage.share (stage : Stage) : Nat :=
  match stage with
  | .woken | .leaving => 1
  | _ => 0

end WaiterSlot

/-- What the fields of an awaiter are at a stage of its life. -/
def Awaiter.At {T : Type} (a : Awaiter T) : WaiterSlot.Stage → Prop
  | .unused => a = {}
  | .refused => a = { resumed := some (.error .resourceBusyOrLocked) }
  | .waiting => a = { slot := true, awaited := true, state := .running }
  | .woken => ∃ nothing,
    a = { slot := true, value := .ok nothing, queued := true, awaited := true, state := .running,
          given := [.ok nothing], enqueued := 1 }
  | .leaving => ∃ value given cancelRequested, given.getLast? = some value ∧
    (cancelRequested = false → value = .error .operationAborted) ∧
    a = { value, queued := true, awaited := true, cancelRequested, state := .running, given,
          enqueued := 1 }
  | .resumed => ∃ value given queued, given.getLast? = some value ∧
    a = { value, queued, state := .succeeded, resumed := some value, given,
          enqueued := queued.toNat, completed := 1 }
  | .cancelled => ∃ value given queued,
    a = { value, queued, cancelRequested := true, state := .cancelled, given,
          enqueued := queued.toNat, completed := 1 }

namespace WaiterSlot

variable {s s' : WaiterSlot T} {i : Nat}

/-- The queue of the loop, the last staged first. -/
def queue (s : WaiterSlot T) : List Nat := s.staged ++ (s.ready ++ s.completing)

/-- Every awaiter is at a stage of its life; the slot's pointer and the queue say so too. -/
def Valid (s : WaiterSlot T) : Prop :=
  ∀ i, ∃ stage, (s.awaiters i).At stage ∧ (s.waiter = some i ↔ stage.Holds) ∧
    s.queue.count i = stage.share ∧ (s.fresh ≤ i ↔ stage = .unused)

theorem valid_start : Valid (T := T) {} := fun i =>
  ⟨.unused, rfl, iff_of_false nofun (by unfold Stage.Holds; nofun), rfl,
    iff_of_true (Nat.zero_le i) rfl⟩

/-- A step that moves one awaiter on leaves the others as they are. -/
theorem Valid.move (h : s.Valid) (stage : Stage) (hi : (s'.awaiters i).At stage)
    (hwaiter : s'.waiter = some i ↔ stage.Holds) (hqueue : s'.queue.count i = stage.share)
    (hfresh : s'.fresh ≤ i ↔ stage = .unused)
    (hothers : ∀ j, j ≠ i → s'.awaiters j = s.awaiters j ∧
      (s'.waiter = some j ↔ s.waiter = some j) ∧ s'.queue.count j = s.queue.count j ∧
      (s'.fresh ≤ j ↔ s.fresh ≤ j)) : s'.Valid := by
  intro j
  by_cases hj : j = i
  · subst hj
    exact ⟨stage, hi, hwaiter, hqueue, hfresh⟩
  · obtain ⟨hawaiter, hw, hq, hf⟩ := hothers j hj
    obtain ⟨stage, hat, hholds, hshare, hunused⟩ := h j
    exact ⟨stage, hawaiter ▸ hat, hw.trans hholds, hq.trans hshare, hf.trans hunused⟩

/-! ## What each call does -/

@[simp] theorem set_awaiters (s : WaiterSlot T) (i : Nat) (a : Awaiter T) :
    (s.set i a).awaiters i = a := Function.update_self ..

@[simp] theorem set_set (s : WaiterSlot T) (i : Nat) (a b : Awaiter T) :
    (s.set i a).set i b = s.set i b := by
  simp only [set, Function.update_idem]

theorem set_ne (s : WaiterSlot T) {i j : Nat} (a : Awaiter T) (h : j ≠ i) :
    (s.set i a).awaiters j = s.awaiters j := Function.update_of_ne h ..

/-- Leaving the slot, for an awaiter the slot holds or not. -/
theorem leave_eq {a : Awaiter T} (ha : s.awaiters i = a) :
    s.leave i = { s with waiter := if a.slot = true then none else s.waiter }.set i
      { a with slot := false } := by
  subst ha
  unfold leave
  cases hslot : (s.awaiters i).slot with
  | true => rfl
  | false =>
    rw [if_neg Bool.false_ne_true, if_neg Bool.false_ne_true, ← hslot]
    simp only [set, Function.update_eq_self]

/-- A completion with no cancel: the task resumes with the value, and leaves the slot. -/
theorem complete_resumes {a : Awaiter T} (ha : s.awaiters i = a) (hawaited : a.awaited = true)
    (hcancel : a.cancelRequested = false) :
    s.complete i = some ({ s with waiter := if a.slot = true then none else s.waiter }.set i
      { a with
        slot := false
        state := .succeeded
        awaited := false
        resumed := some a.value
        completed := a.completed + 1 }) := by
  unfold complete
  rw [ha]
  dsimp only
  rw [if_pos hawaited, hcancel, if_neg Bool.false_ne_true, if_neg Bool.false_ne_true, awaitResume,
    leave_eq (set_awaiters ..)]
  simp only [set, Function.update_self, Function.update_idem]

/-- A completion after a cancel: the task ends. -/
theorem complete_ends {a : Awaiter T} (ha : s.awaiters i = a) (hawaited : a.awaited = true)
    (hcancel : a.cancelRequested = true) :
    s.complete i = some (s.set i { a with
      state := .cancelled
      awaited := false
      completed := a.completed + 1 }) := by
  unfold complete
  rw [ha]
  dsimp only
  rw [if_pos hawaited, hcancel, if_pos rfl, if_pos rfl]

theorem waiting_of_waiter (h : s.waiter = some i) : s.waiting = !(s.awaiters i).queued := by
  rw [waiting, h]

/-- Whether a task waits depends on the waiter alone. -/
theorem waiting_congr (hwaiter : s'.waiter = s.waiter)
    (hawaiter : ∀ j, s.waiter = some j → s'.awaiters j = s.awaiters j) :
    s'.waiting = s.waiting := by
  cases h : s.waiter with
  | none => rw [waiting, waiting, hwaiter, h]
  | some j => rw [waiting_of_waiter h, waiting_of_waiter (hwaiter.trans h), hawaiter j h]

theorem waiting_eq_true : s.waiting = true ↔ ∃ i, s.waiter = some i ∧
    (s.awaiters i).queued = false := by
  unfold waiting
  cases s.waiter with
  | none => exact iff_of_false Bool.false_ne_true nofun
  | some i => simp

/-- A delivery ends the wait at once. -/
theorem deliver_eq {value : Except Reason T} (hwaiter : s.waiter = some i)
    (ha : s.awaiters i = { slot := true, awaited := true, state := .running }) :
    s.deliver value = some ({ s with waiter := none }.set i
      { value, state := .succeeded, resumed := some value, given := [value], completed := 1 }) := by
  have hwaiting : s.waiting = true := waiting_eq_true.mpr ⟨i, hwaiter, by rw [ha]⟩
  unfold deliver
  rw [if_pos hwaiting, hwaiter, Option.bind_some, leave_eq ha, give, set_awaiters, set_set,
    complete_resumes (set_awaiters ..) rfl rfl]
  simp only [set, Function.update_idem]
  rfl

/-- A later delivery queues the completion of a wait that stays in the slot. -/
theorem deliverLater_eq {nothing : T} (hwaiter : s.waiter = some i)
    (ha : s.awaiters i = { slot := true, awaited := true, state := .running }) :
    s.deliverLater nothing = some ({ s with staged := s.staged ++ [i] }.set i
      { slot := true, value := .ok nothing, queued := true, awaited := true, state := .running,
        given := [.ok nothing], enqueued := 1 }) := by
  have hwaiting : s.waiting = true := waiting_eq_true.mpr ⟨i, hwaiter, by rw [ha]⟩
  unfold deliverLater
  rw [if_pos hwaiting, hwaiter, Option.map_some, give, ha]
  simp only [set_awaiters, set_set, completeLater]
  simp only [set, Function.update_idem, hwaiter]
  rfl

/-- An abort of a wait nothing woke queues its completion. -/
theorem abort_waiting (hwaiter : s.waiter = some i)
    (ha : s.awaiters i = { slot := true, awaited := true, state := .running }) :
    s.abort = { s with waiter := none, staged := s.staged ++ [i] }.set i
      { value := .error .operationAborted, queued := true, awaited := true, state := .running,
        given := [.error .operationAborted], enqueued := 1 } := by
  unfold abort
  rw [hwaiter]
  dsimp only
  rw [leave_eq ha]
  simp only [give, set_awaiters, set_set, completeLater]
  simp only [set, Function.update_idem]
  rfl

/-- An abort of a wait that was woken changes what it resumes with. -/
theorem abort_woken {nothing : T} (hwaiter : s.waiter = some i)
    (ha : s.awaiters i =
      { slot := true, value := .ok nothing, queued := true, awaited := true, state := .running,
        given := [.ok nothing], enqueued := 1 }) :
    s.abort = { s with waiter := none }.set i
      { value := .error .operationAborted, queued := true, awaited := true, state := .running,
        given := [.ok nothing, .error .operationAborted], enqueued := 1 } := by
  unfold abort
  rw [hwaiter]
  dsimp only
  rw [leave_eq ha]
  simp only [give, set_awaiters, set_set]
  rfl

/-- Cancelling a wait nothing woke ends its task at once. -/
theorem cancel_waiting
    (ha : s.awaiters i = { slot := true, awaited := true, state := .running }) :
    s.cancel i = some ({ s with waiter := none }.set i
      { cancelRequested := true, state := .cancelled, completed := 1 }) := by
  unfold cancel
  rw [ha]
  dsimp only
  rw [if_neg (by simp), withdraw, leave_eq (set_awaiters ..)]
  simp only [set_awaiters]
  rw [if_neg Bool.false_ne_true, complete_ends (set_awaiters ..) rfl rfl]
  simp only [set, Function.update_idem]
  rfl

/-- Cancelling a wait that is queued leaves its end to the queue. -/
theorem cancel_queued {a : Awaiter T} (ha : s.awaiters i = a) (hawaited : a.awaited = true)
    (hcancel : a.cancelRequested = false) (hqueued : a.queued = true) :
    s.cancel i = some ({ s with waiter := if a.slot = true then none else s.waiter }.set i
      { a with slot := false, cancelRequested := true }) := by
  unfold cancel
  rw [ha]
  dsimp only
  rw [if_neg (by rw [hawaited, hcancel]; simp), withdraw, leave_eq (set_awaiters ..)]
  simp only [set_awaiters]
  rw [if_pos hqueued]
  simp only [set, Function.update_idem]

/-- A task that does not wait, or is cancelled already, is not cancelled again. -/
theorem cancel_nothing
    (h : (s.awaiters i).awaited = false ∨ (s.awaiters i).cancelRequested = true) :
    s.cancel i = some s := if_pos h

/-- A wait on a slot that is taken is refused at once. -/
theorem wait_taken {j : Nat} (cancelled : Bool) (hwaiter : s.waiter = some j) :
    s.wait cancelled = some ({ s with fresh := s.fresh + 1 }.set s.fresh
      { resumed := some (.error .resourceBusyOrLocked) }) := by
  have htaken : ({ s with fresh := s.fresh + 1 }.set s.fresh {}).waiter.isSome = true := by
    rw [set, hwaiter]
    rfl
  unfold wait
  dsimp only
  rw [if_pos htaken, awaitResume, leave_eq (set_awaiters ..)]
  simp only [set, Function.update_idem, Function.update_self]
  rfl

/-- A wait on a free slot takes it. -/
theorem wait_free (hwaiter : s.waiter = none) :
    s.wait false = some ({ s with fresh := s.fresh + 1, waiter := some s.fresh }.set s.fresh
      { slot := true, awaited := true, state := .running }) := by
  have hfree : ¬({ s with fresh := s.fresh + 1 }.set s.fresh {}).waiter.isSome = true := by
    rw [set, hwaiter]
    exact Bool.false_ne_true
  unfold wait
  dsimp only
  rw [if_neg hfree, if_neg Bool.false_ne_true]
  simp only [set, Function.update_idem]

/-- A wait by a cancelled task takes a free slot and leaves it again. -/
theorem wait_cancelled (hwaiter : s.waiter = none) :
    s.wait true = some ({ s with fresh := s.fresh + 1 }.set s.fresh
      { cancelRequested := true, state := .cancelled, completed := 1 }) := by
  have hfree : ¬({ s with fresh := s.fresh + 1 }.set s.fresh {}).waiter.isSome = true := by
    rw [set, hwaiter]
    exact Bool.false_ne_true
  unfold wait
  dsimp only
  rw [if_neg hfree, if_pos rfl, cancel_waiting (set_awaiters ..)]
  simp only [set, Function.update_idem, hwaiter]

/-! ## Every step keeps a slot valid -/

/-- An awaiter the slot points at is one it holds. -/
theorem Valid.held (h : s.Valid) (hwaiter : s.waiter = some i) : i < s.fresh ∧
    ((s.awaiters i = { slot := true, awaited := true, state := .running } ∧
        s.queue.count i = 0) ∨
      ∃ nothing, s.awaiters i =
        { slot := true, value := .ok nothing, queued := true, awaited := true, state := .running,
          given := [.ok nothing], enqueued := 1 } ∧ s.queue.count i = 1) := by
  obtain ⟨stage, hat, hholds, hcount, hfresh⟩ := h i
  have hstage := hholds.mp hwaiter
  have hunused : stage ≠ .unused := by
    rintro rfl
    exact hstage.elim nofun nofun
  refine ⟨Nat.lt_of_not_le fun hle => hunused (hfresh.mp hle), ?_⟩
  obtain rfl | rfl := hstage
  · exact .inl ⟨hat, hcount⟩
  · obtain ⟨value, hat⟩ := hat
    exact .inr ⟨value, hat, hcount⟩

theorem count_stage (s : WaiterSlot T) (i j : Nat) :
    { s with staged := s.staged ++ [i] }.queue.count j =
      s.queue.count j + if i = j then 1 else 0 := by
  unfold queue
  simp only [List.count_append, List.count_singleton, beq_iff_eq]
  omega

theorem Valid.waitStep (h : s.Valid) {cancelled : Bool} (hstep : s.wait cancelled = some s') :
    s'.Valid := by
  obtain ⟨stage, hat, hholds, hcount, hfresh⟩ := h s.fresh
  obtain rfl : stage = .unused := hfresh.mp (Nat.le_refl _)
  have hnot : ¬s.waiter = some s.fresh := fun hw => (hholds.mp hw).elim nofun nofun
  have hnew : ∀ j, j ≠ s.fresh → (s.fresh + 1 ≤ j ↔ s.fresh ≤ j) := fun j hj => by omega
  cases hwaiter : s.waiter with
  | some j =>
    rw [wait_taken cancelled hwaiter] at hstep
    cases hstep
    refine h.move .refused (set_awaiters ..) (iff_of_false hnot ?_) hcount
      (iff_of_false (Nat.not_succ_le_self _) nofun)
      fun j hj => ⟨set_ne _ _ hj, Iff.rfl, rfl, hnew j hj⟩
    exact fun hstage => hstage.elim nofun nofun
  | none =>
    cases cancelled with
    | false =>
      rw [wait_free hwaiter] at hstep
      cases hstep
      refine h.move .waiting (set_awaiters ..) (iff_of_true rfl (.inl rfl)) hcount
        (iff_of_false (Nat.not_succ_le_self _) nofun)
        fun j hj => ⟨set_ne _ _ hj, ?_, rfl, hnew j hj⟩
      rw [hwaiter]
      exact iff_of_false (fun heq => hj (Option.some.inj heq).symm) nofun
    | true =>
      rw [wait_cancelled hwaiter] at hstep
      cases hstep
      refine h.move .cancelled ⟨_, [], false, set_awaiters ..⟩ (iff_of_false hnot ?_) hcount
        (iff_of_false (Nat.not_succ_le_self _) nofun)
        fun j hj => ⟨set_ne _ _ hj, Iff.rfl, rfl, hnew j hj⟩
      exact fun hstage => hstage.elim nofun nofun

/-- The waiter leaves the slot, for a stage the slot does not hold. -/
theorem Valid.moveOut (h : s.Valid) (hwaiter : s.waiter = some i) (stage : Stage)
    {a : Awaiter T} (hstage : ¬stage.Holds) (hunused : stage ≠ .unused) (hat : a.At stage)
    (hcount : s.queue.count i = stage.share) :
    Valid ({ s with waiter := none }.set i a) :=
  h.move stage (by rw [set_awaiters]; exact hat) (iff_of_false nofun hstage) hcount
    (iff_of_false (Nat.not_le_of_lt (h.held hwaiter).1) hunused)
    fun j hj => ⟨set_ne _ _ hj,
      iff_of_false nofun (by rw [hwaiter]; exact fun heq => hj (Option.some.inj heq).symm),
      rfl, Iff.rfl⟩

theorem Stage.not_holds {stage : Stage} (hwaiting : stage ≠ .waiting) (hwoken : stage ≠ .woken) :
    ¬stage.Holds := fun h => h.elim hwaiting hwoken

theorem Valid.deliverStep (h : s.Valid) {value : Except Reason T}
    (hstep : s.deliver value = some s') : s'.Valid := by
  have hwaiting : s.waiting = true := by
    unfold deliver at hstep
    split at hstep
    · next hwaiting => exact hwaiting
    · cases hstep
  obtain ⟨i, hwaiter, hqueued⟩ := waiting_eq_true.mp hwaiting
  obtain ⟨-, ⟨ha, hcount⟩ | ⟨woken, ha, -⟩⟩ := h.held hwaiter
  · rw [deliver_eq hwaiter ha] at hstep
    cases hstep
    exact h.moveOut hwaiter .resumed (Stage.not_holds nofun nofun) nofun
      ⟨value, [value], false, rfl, rfl⟩ hcount
  · rw [ha] at hqueued
    cases hqueued

theorem Valid.deliverLaterStep (h : s.Valid) {nothing : T}
    (hstep : s.deliverLater nothing = some s') : s'.Valid := by
  have hwaiting : s.waiting = true := by
    unfold deliverLater at hstep
    split at hstep
    · next hwaiting => exact hwaiting
    · cases hstep
  obtain ⟨i, hwaiter, hqueued⟩ := waiting_eq_true.mp hwaiting
  obtain ⟨hlt, ⟨ha, hcount⟩ | ⟨woken, ha, -⟩⟩ := h.held hwaiter
  · rw [deliverLater_eq hwaiter ha] at hstep
    cases hstep
    refine h.move .woken ⟨nothing, set_awaiters ..⟩ (iff_of_true hwaiter (.inr rfl)) ?_
      (iff_of_false (Nat.not_le_of_lt hlt) nofun)
      fun j hj => ⟨set_ne _ _ hj, Iff.rfl, ?_, Iff.rfl⟩
    · exact (count_stage s i i).trans (by rw [hcount, if_pos rfl]; rfl)
    · exact (count_stage s i j).trans (by rw [if_neg (Ne.symm hj), Nat.add_zero])
  · rw [ha] at hqueued
    cases hqueued

theorem Valid.abortStep (h : s.Valid) : s.abort.Valid := by
  cases hwaiter : s.waiter with
  | none =>
    unfold abort
    rw [hwaiter]
    exact h
  | some i =>
    obtain ⟨hlt, ⟨ha, hcount⟩ | ⟨woken, ha, hcount⟩⟩ := h.held hwaiter
    · rw [abort_waiting hwaiter ha]
      refine h.move .leaving ⟨_, _, false, rfl, fun _ => rfl, set_awaiters ..⟩
        (iff_of_false nofun (Stage.not_holds nofun nofun)) ?_
        (iff_of_false (Nat.not_le_of_lt hlt) nofun)
        fun j hj => ⟨set_ne _ _ hj, ?_, ?_, Iff.rfl⟩
      · exact (count_stage s i i).trans (by rw [hcount, if_pos rfl]; rfl)
      · rw [hwaiter]
        exact iff_of_false nofun fun heq => hj (Option.some.inj heq).symm
      · exact (count_stage s i j).trans (by rw [if_neg (Ne.symm hj), Nat.add_zero])
    · rw [abort_woken hwaiter ha]
      exact h.moveOut hwaiter .leaving (Stage.not_holds nofun nofun) nofun
        ⟨_, _, false, rfl, fun _ => rfl, rfl⟩ hcount

theorem Valid.cancelStep (h : s.Valid) (hstep : s.cancel i = some s') : s'.Valid := by
  have hsame : (s.awaiters i).awaited = false ∨ (s.awaiters i).cancelRequested = true →
      s'.Valid := by
    intro hnothing
    rw [cancel_nothing hnothing] at hstep
    exact Option.some.inj hstep ▸ h
  obtain ⟨stage, hat, hholds, hcount, hfresh⟩ := h i
  cases stage with
  | unused | refused => exact hsame (.inl (by rw [show s.awaiters i = _ from hat]))
  | waiting =>
    rw [cancel_waiting hat] at hstep
    cases hstep
    exact h.moveOut (hholds.mpr (.inl rfl)) .cancelled (Stage.not_holds nofun nofun) nofun
      ⟨_, [], false, rfl⟩ hcount
  | woken =>
    obtain ⟨nothing, ha⟩ := hat
    rw [cancel_queued ha rfl rfl rfl] at hstep
    cases hstep
    exact h.moveOut (hholds.mpr (.inr rfl)) .leaving (Stage.not_holds nofun nofun) nofun
      ⟨.ok nothing, [.ok nothing], true, rfl, nofun, rfl⟩ hcount
  | leaving =>
    obtain ⟨value, given, cancelRequested, hlast, -, ha⟩ := hat
    cases cancelRequested with
    | true => exact hsame (.inr (by rw [ha]))
    | false =>
      rw [cancel_queued ha rfl rfl rfl] at hstep
      cases hstep
      exact h.move .leaving ⟨value, given, true, hlast, nofun, set_awaiters ..⟩ hholds hcount hfresh
        fun j hj => ⟨set_ne _ _ hj, Iff.rfl, rfl, Iff.rfl⟩
  | resumed =>
    obtain ⟨value, given, queued, -, ha⟩ := hat
    exact hsame (.inl (by rw [ha]))
  | cancelled =>
    obtain ⟨value, given, queued, ha⟩ := hat
    exact hsame (.inl (by rw [ha]))

theorem Valid.turnStep (h : s.Valid) (hstep : s.turn = some s') : s'.Valid := by
  unfold turn at hstep
  split at hstep
  · next hnil =>
    cases hstep
    have hqueue : { s with completing := s.ready, ready := s.staged, staged := [] }.queue =
        s.queue := by
      unfold queue
      rw [hnil, List.append_nil, List.nil_append]
    intro i
    obtain ⟨stage, hat, hholds, hcount, hfresh⟩ := h i
    exact ⟨stage, hat, hholds, hqueue ▸ hcount, hfresh⟩
  · cases hstep

/-- The next completion of a batch: an awaiter the slot woke resumes with no error and leaves
it, one that was let go ends cancelled or resumes with the error of an abort. -/
structure Completes (s s' : WaiterSlot T) (i : Nat) (rest : List Nat) : Prop where
  valid : s'.Valid
  staged : s'.staged = s.staged
  ready : s'.ready = s.ready
  completing : s'.completing = rest
  others : ∀ j, j ≠ i → s'.awaiters j = s.awaiters j
  completed : (s'.awaiters i).completed = 1
  outcome : (s.waiter = some i ∧ s'.waiter = none ∧
      ∃ nothing, (s'.awaiters i).resumed = some (.ok nothing)) ∨
    (s.waiter ≠ some i ∧ s'.waiter = s.waiter ∧ ((s'.awaiters i).resumed = none ∨
      (s'.awaiters i).resumed = some (.error .operationAborted)))

/-- What the loop completes is an awaiter that is woken or let go, and it ends. -/
theorem Valid.next_spec (h : s.Valid) {rest : List Nat} (hbatch : s.completing = i :: rest) :
    ∃ s', s.next = some s' ∧ s.Completes s' i rest := by
  have hqueue : ∀ j, s.queue.count j =
      { s with completing := rest }.queue.count j + if i = j then 1 else 0 := by
    intro j
    unfold queue
    simp only [hbatch, List.count_append, List.count_cons, beq_iff_eq]
    omega
  obtain ⟨stage, hat, hholds, hcount, hfresh⟩ := h i
  have hrest := hqueue i
  rw [if_pos rfl, hcount] at hrest
  have hthere : stage.share ≠ 0 → ¬s.fresh ≤ i := by
    intro hshare hle
    rw [hfresh.mp hle] at hshare
    exact hshare rfl
  have hnext : s.next = { s with completing := rest }.complete i := by
    unfold next
    rw [hbatch]
  have hothers : ∀ j, j ≠ i → { s with completing := rest }.queue.count j = s.queue.count j :=
    fun j hj => by rw [hqueue j, if_neg (Ne.symm hj), Nat.add_zero]
  rw [hnext]
  cases stage with
  | unused | refused | waiting | resumed | cancelled => cases hrest
  | woken =>
    obtain ⟨nothing, ha⟩ := hat
    have hwaiter := hholds.mpr (.inr rfl)
    refine ⟨_, complete_resumes (show ({ s with completing := rest } : WaiterSlot T).awaiters i = _
      from ha) rfl rfl, ?_, rfl, rfl, rfl, fun j hj => set_ne _ _ hj, ?_,
      .inl ⟨hwaiter, rfl, nothing, ?_⟩⟩
    · refine h.move .resumed ⟨.ok nothing, [.ok nothing], true, rfl, set_awaiters ..⟩
        (iff_of_false nofun (Stage.not_holds nofun nofun)) (Nat.succ.inj hrest).symm
        (iff_of_false (hthere nofun) nofun)
        fun j hj => ⟨set_ne _ _ hj, ?_, hothers j hj, Iff.rfl⟩
      rw [hwaiter]
      exact iff_of_false nofun fun heq => hj (Option.some.inj heq).symm
    · rw [set_awaiters]
    · rw [set_awaiters]
  | leaving =>
    obtain ⟨value, given, cancelRequested, hlast, haborted, ha⟩ := hat
    have hfree : ¬s.waiter = some i := fun hw => (hholds.mp hw).elim nofun nofun
    cases cancelRequested with
    | true =>
      refine ⟨_, complete_ends (show ({ s with completing := rest } : WaiterSlot T).awaiters i = _
        from ha) rfl rfl, ?_, rfl, rfl, rfl, fun j hj => set_ne _ _ hj, ?_,
        .inr ⟨hfree, rfl, .inl ?_⟩⟩
      · exact h.move .cancelled ⟨value, given, true, set_awaiters ..⟩
          (iff_of_false hfree (Stage.not_holds nofun nofun)) (Nat.succ.inj hrest).symm
          (iff_of_false (hthere nofun) nofun)
          fun j hj => ⟨set_ne _ _ hj, Iff.rfl, hothers j hj, Iff.rfl⟩
      · rw [set_awaiters]
      · rw [set_awaiters]
    | false =>
      refine ⟨_, complete_resumes (show ({ s with completing := rest } : WaiterSlot T).awaiters i =
        _ from ha) rfl rfl, ?_, rfl, rfl, rfl, fun j hj => set_ne _ _ hj, ?_,
        .inr ⟨hfree, rfl, .inr ?_⟩⟩
      · exact h.move .resumed ⟨value, given, true, hlast, set_awaiters ..⟩
          (iff_of_false hfree (Stage.not_holds nofun nofun)) (Nat.succ.inj hrest).symm
          (iff_of_false (hthere nofun) nofun)
          fun j hj => ⟨set_ne _ _ hj, Iff.rfl, hothers j hj, Iff.rfl⟩
      · rw [set_awaiters]
      · rw [set_awaiters, haborted rfl]

/-- Every step keeps a slot valid. -/
theorem Valid.step (h : s.Valid) {action : Action T} (hstep : s.step action = some s') :
    s'.Valid := by
  cases action with
  | wait cancelled => exact h.waitStep hstep
  | deliver value => exact h.deliverStep hstep
  | deliverLater nothing => exact h.deliverLaterStep hstep
  | abort => exact Option.some.inj hstep ▸ h.abortStep
  | cancel i => exact h.cancelStep hstep
  | turn => exact h.turnStep hstep
  | next =>
    cases hbatch : s.completing with
    | nil =>
      have hnone : s.next = none := by
        unfold next
        rw [hbatch]
      exact absurd (hnone.symm.trans hstep) (Option.some_ne_none _).symm
    | cons i rest =>
      obtain ⟨t, ht, hdone⟩ := h.next_spec hbatch
      exact Option.some.inj (ht.symm.trans hstep) ▸ hdone.valid

/-- A slot that is used from its construction on is valid. -/
theorem Valid.reach (h : Reach WaiterSlot.step {} s) : s.Valid :=
  h.invariant (fun hs hstep => hs.step hstep) valid_start

/-- What is on the queue is a suspended awaiter that is marked as queued, and once only. -/
theorem Valid.count (h : s.Valid) (i : Nat) : s.queue.count i =
    if (s.awaiters i).queued = true ∧ (s.awaiters i).awaited = true then 1 else 0 := by
  obtain ⟨stage, hat, -, hcount, -⟩ := h i
  rw [hcount]
  cases stage with
  | unused | refused | waiting =>
    rw [show s.awaiters i = _ from hat]
    rfl
  | woken =>
    obtain ⟨value, ha⟩ := hat
    rw [ha]
    rfl
  | leaving =>
    obtain ⟨value, given, cancelRequested, -, -, ha⟩ := hat
    rw [ha]
    rfl
  | resumed =>
    obtain ⟨value, given, queued, -, ha⟩ := hat
    rw [ha, if_neg (fun hboth => Bool.false_ne_true hboth.2)]
    rfl
  | cancelled =>
    obtain ⟨value, given, queued, ha⟩ := hat
    rw [ha, if_neg (fun hboth => Bool.false_ne_true hboth.2)]
    rfl

/-! ## The loop completes what is queued -/

/-- The loop alone leads from one state to another, and what it changes it has completed. -/
def Loops (s s' : WaiterSlot T) : Prop :=
  (∃ actions, (∀ action ∈ actions, action = .turn ∨ action = .next) ∧
    run WaiterSlot.step s actions = some s') ∧
  ∀ i, s'.awaiters i = s.awaiters i ∨ (s'.awaiters i).completed = 1

theorem Loops.trans {t : WaiterSlot T} (h : s.Loops s') (h' : s'.Loops t) : s.Loops t := by
  obtain ⟨⟨as, has, hrun⟩, hsame⟩ := h
  obtain ⟨⟨bs, hbs, hrun'⟩, hsame'⟩ := h'
  refine ⟨⟨as ++ bs, fun a ha => ?_, run_append hrun hrun'⟩, fun i => ?_⟩
  · exact (List.mem_append.mp ha).elim (has a) (hbs a)
  · obtain heq | hdone := hsame' i
    · rw [heq]
      exact hsame i
    · exact .inr hdone

/-- A batch is completed, one operation after another. -/
theorem Valid.batch (h : s.Valid) : ∃ s', s.Loops s' ∧ s'.Valid ∧ s'.staged = s.staged ∧
    s'.ready = s.ready ∧ s'.completing = [] := by
  induction hbatch : s.completing generalizing s with
  | nil => exact ⟨s, ⟨⟨[], nofun, rfl⟩, fun i => .inl rfl⟩, h, rfl, rfl, hbatch⟩
  | cons i rest ih =>
    obtain ⟨t, ht, hdone⟩ := h.next_spec hbatch
    obtain ⟨u, hloops, hvalid, hstaged, hready, hnil⟩ := ih hdone.valid hdone.completing
    refine ⟨u, .trans ⟨⟨[.next], ?_, ?_⟩, fun j => ?_⟩ hloops, hvalid, hstaged.trans hdone.staged,
      hready.trans hdone.ready, hnil⟩
    · exact fun a ha => .inr (List.mem_singleton.mp ha)
    · exact Option.bind_eq_some_iff.mpr ⟨t, ht, rfl⟩
    · by_cases hj : j = i
      · exact .inr (hj ▸ hdone.completed)
      · exact .inl (hdone.others j hj)

/-- A turn of the loop with nothing left of the one before. -/
theorem Valid.wholeTurn (h : s.Valid) (hnil : s.completing = []) : ∃ s', s.Loops s' ∧ s'.Valid ∧
    s'.staged = [] ∧ s'.ready = s.staged ∧ s'.completing = [] := by
  have hturn : s.turn = some { s with completing := s.ready, ready := s.staged, staged := [] } :=
    if_pos hnil
  obtain ⟨u, hloops, hvalid, hstaged, hready, hdone⟩ := (h.turnStep hturn).batch
  have hfirst : s.Loops { s with completing := s.ready, ready := s.staged, staged := [] } :=
    ⟨⟨[.turn], fun a ha => .inl (List.mem_singleton.mp ha),
      Option.bind_eq_some_iff.mpr ⟨_, hturn, rfl⟩⟩, fun j => .inl rfl⟩
  exact ⟨u, hfirst.trans hloops, hvalid, hstaged, hready, hdone⟩

/-- The batch under way and two turns complete all that is queued. -/
theorem Valid.drain (h : s.Valid) : ∃ s', s.Loops s' ∧ s'.queue = [] ∧
    ∀ i, s.queue.count i = 1 → (s'.awaiters i).completed = 1 := by
  obtain ⟨t, hloops, hvalid, -, -, hnil⟩ := h.batch
  obtain ⟨u, hloops', hvalid', hstaged, -, hnil'⟩ := hvalid.wholeTurn hnil
  obtain ⟨v, hloops'', hvalid'', hstaged', hready, hnil''⟩ := hvalid'.wholeTurn hnil'
  have hqueue : v.queue = [] := by
    rw [queue, hstaged', hready, hstaged, hnil'']
    rfl
  have hall := (hloops.trans hloops').trans hloops''
  refine ⟨v, hall, hqueue, fun i hi => ?_⟩
  obtain heq | hdone := hall.2 i
  · -- an awaiter the loop left alone would still be on the queue
    have hcount := hvalid''.count i
    rw [heq, ← h.count i, hi, hqueue] at hcount
    cases hcount
  · exact hdone

/-! ## What holds of every slot -/

/-- The slot points at the awaiter that points back at it. -/
theorem Valid.pointer (h : s.Valid) (i : Nat) :
    s.waiter = some i ↔ (s.awaiters i).slot = true := by
  obtain ⟨stage, hat, hholds, -, -⟩ := h i
  rw [hholds]
  cases stage with
  | unused | refused =>
    rw [show s.awaiters i = _ from hat]
    exact iff_of_false (Stage.not_holds nofun nofun) Bool.false_ne_true
  | waiting =>
    rw [show s.awaiters i = _ from hat]
    exact iff_of_true (.inl rfl) rfl
  | woken =>
    obtain ⟨nothing, ha⟩ := hat
    rw [ha]
    exact iff_of_true (.inr rfl) rfl
  | leaving =>
    obtain ⟨value, given, cancelRequested, -, -, ha⟩ := hat
    rw [ha]
    exact iff_of_false (Stage.not_holds nofun nofun) Bool.false_ne_true
  | resumed =>
    obtain ⟨value, given, queued, -, ha⟩ := hat
    rw [ha]
    exact iff_of_false (Stage.not_holds nofun nofun) Bool.false_ne_true
  | cancelled =>
    obtain ⟨value, given, queued, ha⟩ := hat
    rw [ha]
    exact iff_of_false (Stage.not_holds nofun nofun) Bool.false_ne_true

/-- An awaiter is queued once at most; while a task awaits it, it is in the slot or on the
queue and not completed, and once none does it has been completed once. -/
theorem Valid.once (h : s.Valid) (i : Nat) :
    (s.awaiters i).enqueued ≤ 1 ∧
      ((s.awaiters i).awaited = true → (s.awaiters i).completed = 0 ∧
        ((s.waiter = some i ∧ s.queue.count i = 0) ∨ s.queue.count i = 1)) ∧
      ((s.awaiters i).awaited = false → s.queue.count i = 0 ∧ (s.awaiters i).completed =
        if (s.awaiters i).state = .pending then 0 else 1) := by
  obtain ⟨stage, hat, hholds, hcount, -⟩ := h i
  rw [hcount]
  cases stage with
  | unused | refused =>
    rw [show s.awaiters i = _ from hat]
    exact ⟨Nat.zero_le _, nofun, fun _ => ⟨rfl, rfl⟩⟩
  | waiting =>
    rw [show s.awaiters i = _ from hat]
    exact ⟨Nat.zero_le _, fun _ => ⟨rfl, .inl ⟨hholds.mpr (.inl rfl), rfl⟩⟩, nofun⟩
  | woken =>
    obtain ⟨nothing, ha⟩ := hat
    rw [ha]
    exact ⟨Nat.le_refl _, fun _ => ⟨rfl, .inr rfl⟩, nofun⟩
  | leaving =>
    obtain ⟨value, given, cancelRequested, -, -, ha⟩ := hat
    rw [ha]
    exact ⟨Nat.le_refl _, fun _ => ⟨rfl, .inr rfl⟩, nofun⟩
  | resumed =>
    obtain ⟨value, given, queued, -, ha⟩ := hat
    rw [ha]
    exact ⟨Bool.toNat_le _, nofun, fun _ => ⟨rfl, rfl⟩⟩
  | cancelled =>
    obtain ⟨value, given, queued, ha⟩ := hat
    rw [ha]
    exact ⟨Bool.toNat_le _, nofun, fun _ => ⟨rfl, rfl⟩⟩

/-- A wait resumes with the last value that was given to it, or was refused. -/
theorem Valid.value (h : s.Valid) {value : Except Reason T}
    (hresumed : (s.awaiters i).resumed = some value) :
    (s.awaiters i).given.getLast? = some value ∨
      ((s.awaiters i).state = .pending ∧ value = .error .resourceBusyOrLocked) := by
  obtain ⟨stage, hat, -, -, -⟩ := h i
  cases stage with
  | unused | waiting =>
    rw [show s.awaiters i = _ from hat] at hresumed
    cases hresumed
  | refused =>
    rw [show s.awaiters i = _ from hat] at hresumed ⊢
    exact .inr ⟨rfl, (Option.some.inj hresumed).symm⟩
  | woken =>
    obtain ⟨nothing, ha⟩ := hat
    rw [ha] at hresumed
    cases hresumed
  | leaving =>
    obtain ⟨last, given, cancelRequested, -, -, ha⟩ := hat
    rw [ha] at hresumed
    cases hresumed
  | resumed =>
    obtain ⟨last, given, queued, hlast, ha⟩ := hat
    rw [ha] at hresumed ⊢
    exact .inl (hlast.trans hresumed)
  | cancelled =>
    obtain ⟨last, given, queued, ha⟩ := hat
    rw [ha] at hresumed
    cases hresumed

theorem leave_others {j : Nat} (hi : i ≠ j) : (s.leave j).awaiters i = s.awaiters i := by
  rw [leave_eq rfl, set_ne _ _ hi]

theorem complete_others {j : Nat} (hi : i ≠ j) (h : s.complete j = some s') :
    s'.awaiters i = s.awaiters i := by
  unfold complete at h
  dsimp only at h
  split at h
  · cases h
    split
    · exact set_ne _ _ hi
    · rw [awaitResume, set_ne _ _ hi, leave_others hi, set_ne _ _ hi]
  · cases h

theorem cancel_others {j : Nat} (hi : i ≠ j) (h : s.cancel j = some s') :
    s'.awaiters i = s.awaiters i := by
  unfold cancel at h
  dsimp only at h
  split at h
  · rw [Option.some.inj h]
  · unfold withdraw at h
    dsimp only at h
    split at h
    · rw [← Option.some.inj h, leave_others hi, set_ne _ _ hi]
    · rw [complete_others hi h, leave_others hi, set_ne _ _ hi]

/-- A cancel frees the slot, or leaves the waiter as it is. -/
theorem Valid.cancel_waiter (h : s.Valid) (hstep : s.cancel i = some s') :
    s'.waiter = none ∨ (s'.waiter = s.waiter ∧ s'.waiting = s.waiting) := by
  have hsame : (s.awaiters i).awaited = false ∨ (s.awaiters i).cancelRequested = true →
      s'.waiter = s.waiter ∧ s'.waiting = s.waiting := by
    intro hnothing
    rw [cancel_nothing hnothing] at hstep
    rw [Option.some.inj hstep]
    exact ⟨rfl, rfl⟩
  obtain ⟨stage, hat, hholds, -, -⟩ := h i
  cases stage with
  | unused | refused => exact .inr (hsame (.inl (by rw [show s.awaiters i = _ from hat])))
  | waiting =>
    rw [cancel_waiting hat] at hstep
    exact .inl (by rw [← Option.some.inj hstep]; rfl)
  | woken =>
    obtain ⟨nothing, ha⟩ := hat
    rw [cancel_queued ha rfl rfl rfl] at hstep
    exact .inl (by rw [← Option.some.inj hstep]; rfl)
  | leaving =>
    obtain ⟨value, given, cancelRequested, -, -, ha⟩ := hat
    cases cancelRequested with
    | true => exact .inr (hsame (.inr (by rw [ha])))
    | false =>
      have hfree : ¬s.waiter = some i := fun hw => (hholds.mp hw).elim nofun nofun
      rw [cancel_queued ha rfl rfl rfl] at hstep
      rw [← Option.some.inj hstep]
      exact .inr ⟨rfl, waiting_congr rfl fun j hj =>
        set_ne _ _ fun heq => hfree (heq ▸ hj)⟩
  | resumed =>
    obtain ⟨value, given, queued, -, ha⟩ := hat
    exact .inr (hsame (.inl (by rw [ha])))
  | cancelled =>
    obtain ⟨value, given, queued, ha⟩ := hat
    exact .inr (hsame (.inl (by rw [ha])))

/-- A later delivery wakes the waiter, which stays. -/
theorem Valid.deliverLater_waiter (h : s.Valid) (hwaiting : s.waiting = true) (nothing : T) :
    ∃ s', s.deliverLater nothing = some s' ∧ s'.Valid ∧ s'.waiter = s.waiter ∧
      s'.waiting = false := by
  obtain ⟨i, hwaiter, hqueued⟩ := waiting_eq_true.mp hwaiting
  obtain ⟨-, ⟨ha, -⟩ | ⟨woken, ha, -⟩⟩ := h.held hwaiter
  · have heq : s.deliverLater nothing = some _ := deliverLater_eq hwaiter ha
    refine ⟨_, heq, h.deliverLaterStep heq, rfl, ?_⟩
    have hsame : (set { s with staged := s.staged ++ [i] } i
        { slot := true, value := .ok nothing, queued := true, awaited := true, state := .running,
          given := [.ok nothing], enqueued := 1 }).waiter = some i := hwaiter
    rw [waiting_of_waiter hsame, set_awaiters]
    rfl
  · rw [ha] at hqueued
    cases hqueued

/-- Cancelling the waiter frees the slot. -/
theorem Valid.cancel_held (h : s.Valid) (hwaiter : s.waiter = some i)
    (hstep : s.cancel i = some s') : s'.waiter = none := by
  obtain ⟨-, ⟨ha, -⟩ | ⟨nothing, ha, -⟩⟩ := h.held hwaiter
  · rw [cancel_waiting ha] at hstep
    rw [← Option.some.inj hstep]
    rfl
  · rw [cancel_queued ha rfl rfl rfl] at hstep
    rw [← Option.some.inj hstep]
    rfl

/-- An abort frees the slot. -/
theorem Valid.abort_waiter (h : s.Valid) : s.abort.waiter = none := by
  cases hwaiter : s.waiter with
  | none =>
    unfold abort
    rw [hwaiter]
    exact hwaiter
  | some i =>
    obtain ⟨-, ⟨ha, -⟩ | ⟨nothing, ha, -⟩⟩ := h.held hwaiter
    · rw [abort_waiting hwaiter ha]
      rfl
    · rw [abort_woken hwaiter ha]
      rfl

/-- An awaiter holds the slot until it resumes, is cancelled or is aborted. -/
theorem Valid.stays (h : s.Valid) (hheld : (s.awaiters i).slot = true) {action : Action T}
    (hstep : s.step action = some s') :
    (s'.awaiters i).slot = true ∨ action = .abort ∨ action = .cancel i ∨
      (s'.awaiters i).resumed ≠ none := by
  have hwaiter := (h.pointer i).mpr hheld
  obtain ⟨hlt, hform⟩ := h.held hwaiter
  cases action with
  | wait cancelled =>
    rw [WaiterSlot.step, wait_taken cancelled hwaiter] at hstep
    rw [← Option.some.inj hstep, set_ne _ _ (Nat.ne_of_lt hlt)]
    exact .inl hheld
  | deliver value =>
    obtain ⟨ha, -⟩ | ⟨nothing, ha, -⟩ := hform
    · rw [WaiterSlot.step, deliver_eq hwaiter ha] at hstep
      rw [← Option.some.inj hstep, set_awaiters]
      exact .inr (.inr (.inr (Option.some_ne_none _)))
    · have hwoken : s.waiting = false := by
        rw [waiting_of_waiter hwaiter, ha]
        rfl
      rw [WaiterSlot.step, deliver, hwoken] at hstep
      cases hstep
  | deliverLater nothing =>
    obtain ⟨ha, -⟩ | ⟨woken, ha, -⟩ := hform
    · rw [WaiterSlot.step, deliverLater_eq hwaiter ha] at hstep
      rw [← Option.some.inj hstep, set_awaiters]
      exact .inl rfl
    · have hwoken : s.waiting = false := by
        rw [waiting_of_waiter hwaiter, ha]
        rfl
      rw [WaiterSlot.step, deliverLater, hwoken] at hstep
      cases hstep
  | abort => exact .inr (.inl rfl)
  | cancel j =>
    by_cases hj : i = j
    · exact .inr (.inr (.inl (by rw [hj])))
    · rw [cancel_others hj hstep]
      exact .inl hheld
  | turn =>
    rw [WaiterSlot.step, turn] at hstep
    split at hstep
    · rw [← Option.some.inj hstep]
      exact .inl hheld
    · cases hstep
  | next =>
    cases hbatch : s.completing with
    | nil =>
      have hnone : s.next = none := by
        unfold next
        rw [hbatch]
      exact absurd (hnone.symm.trans hstep) (Option.some_ne_none _).symm
    | cons j rest =>
      obtain ⟨t, ht, hdone⟩ := h.next_spec hbatch
      obtain rfl := Option.some.inj (ht.symm.trans hstep)
      by_cases hj : i = j
      · obtain ⟨-, -, nothing, hresumed⟩ | ⟨hfree, -⟩ := hdone.outcome
        · exact .inr (.inr (.inr (by rw [hj, hresumed]; exact Option.some_ne_none _)))
        · exact absurd (hj ▸ hwaiter) hfree
      · rw [hdone.others i hj]
        exact .inl hheld

/-- The calls whose preconditions hold succeed, and so does every completion of the loop. -/
theorem Valid.possible (h : s.Valid) :
    (∀ cancelled, ∃ s', s.step (.wait cancelled) = some s') ∧
      (∀ i, ∃ s', s.step (.cancel i) = some s') ∧
      (s.waiting = true → (∀ value, ∃ s', s.step (.deliver value) = some s') ∧
        ∀ nothing, ∃ s', s.step (.deliverLater nothing) = some s') ∧
      (s.completing ≠ [] → ∃ s', s.step .next = some s') := by
  refine ⟨fun cancelled => ?_, fun i => ?_, fun hwaiting => ?_, fun hbatch => ?_⟩
  · cases hwaiter : s.waiter with
    | some j => exact ⟨_, wait_taken cancelled hwaiter⟩
    | none =>
      cases cancelled with
      | false => exact ⟨_, wait_free hwaiter⟩
      | true => exact ⟨_, wait_cancelled hwaiter⟩
  · obtain ⟨stage, hat, -, -, -⟩ := h i
    cases stage with
    | unused | refused => exact ⟨s, cancel_nothing (.inl (by rw [show s.awaiters i = _ from hat]))⟩
    | waiting => exact ⟨_, cancel_waiting hat⟩
    | woken =>
      obtain ⟨nothing, ha⟩ := hat
      exact ⟨_, cancel_queued ha rfl rfl rfl⟩
    | leaving =>
      obtain ⟨value, given, cancelRequested, -, -, ha⟩ := hat
      cases cancelRequested with
      | true => exact ⟨s, cancel_nothing (.inr (by rw [ha]))⟩
      | false => exact ⟨_, cancel_queued ha rfl rfl rfl⟩
    | resumed =>
      obtain ⟨value, given, queued, -, ha⟩ := hat
      exact ⟨s, cancel_nothing (.inl (by rw [ha]))⟩
    | cancelled =>
      obtain ⟨value, given, queued, ha⟩ := hat
      exact ⟨s, cancel_nothing (.inl (by rw [ha]))⟩
  · obtain ⟨i, hwaiter, hqueued⟩ := waiting_eq_true.mp hwaiting
    obtain ⟨-, ⟨ha, -⟩ | ⟨nothing, ha, -⟩⟩ := h.held hwaiter
    · exact ⟨fun value => ⟨_, deliver_eq hwaiter ha⟩,
        fun nothing => ⟨_, deliverLater_eq hwaiter ha⟩⟩
    · rw [ha] at hqueued
      cases hqueued
  · obtain ⟨i, rest, hcons⟩ := List.exists_cons_of_ne_nil hbatch
    obtain ⟨t, ht, -⟩ := h.next_spec hcons
    exact ⟨t, ht⟩

end WaiterSlot

end Kotatsu.Async.Io
