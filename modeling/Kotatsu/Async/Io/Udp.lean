import Kotatsu.Async.Io.Waiter
import Kotatsu.Core.Bytes

/-!
# The socket that queues datagrams

A udp socket keeps what arrives in a queue, and wakes the `recv` that waits on a later turn
of the loop. A `recv` that waits found the queue empty; from its wakeup to its turn it holds
the slot, so no other `recv` takes what it was woken for. The last two fields of `Udp`
record what was queued and taken, and are read by no step.
-/

namespace Kotatsu.Async.Io

open Kotatsu.Core

/-- `endpoint`. -/
structure Endpoint where
  addr : Bytes := []
  port : Int := 0
deriving DecidableEq

/-- `udp::recv_flags`. -/
structure RecvFlags where
  isPartial : Bool := false
  mmsgChunk : Bool := false
deriving DecidableEq

/-- `udp::recv_result`. -/
structure RecvResult where
  data : Bytes
  sender : Endpoint
  flags : RecvFlags
deriving DecidableEq

/-- `udp::Self`. -/
structure Udp where
  slot : WaiterSlot Unit := {}
  received : List (Except Reason RecvResult) := []
  receiving : Bool := false
  queued : List (Except Reason RecvResult) := []
  taken : List (Except Reason RecvResult) := []

namespace Udp

/-- `udp::Self::backlog`. -/
def backlog : Nat := 64

/-- The end of `on_recv`: what was got is queued if there is room, and the `recv` that waits
is woken. -/
def keep (s : Udp) (got : Except Reason RecvResult) : Option Udp :=
  let s :=
    if s.received.length < backlog then
      { s with received := s.received ++ [got], queued := s.queued ++ [got] }
    else s
  if s.slot.waiting then (s.slot.deliverLater ()).map fun slot => { s with slot } else some s

/-- `on_recv`, on Windows or not: the bytes of the buffer, and the sender, if there is an
address, as `endpoint_of` reads it; none where there is data from no address. -/
def onRecv (s : Udp) (windows : Bool) (nread : Except Reason Nat) (buf : Bytes)
    (addr : Option (Option Endpoint)) (flags : RecvFlags) : Option Udp :=
  match nread, addr with
  | .ok 0, none => some s
  | .error err, _ =>
    (if windows then { s with receiving := false } else s).keep (.error err.reported)
  | .ok n, some sender =>
    s.keep (.ok { data := buf.take n, sender := sender.getD {}, flags })
  | .ok _, none => none

/-- The end of `recv`: the oldest result; none where the queue is empty. -/
def take (s : Udp) : Option Udp :=
  match s.received with
  | [] => none
  | next :: rest => some { s with received := rest, taken := s.taken ++ [next] }

/-- `recv` up to its result or its wait, by a task that is cancelled already or not, with
what `uv_udp_recv_start` returns if it is called. -/
def recv (s : Udp) (cancelled : Bool) (start : Error) : Option Udp :=
  if s.slot.taken then some s
  else if s.received.isEmpty = false then s.take
  else if s.receiving = false ∧ start.isSome then some s
  else (s.slot.wait cancelled).map fun slot => { s with slot, receiving := true }

/-- `stop`. -/
def stop (s : Udp) : Udp := { s with receiving := false, slot := s.slot.abort }

/-- How `recv` goes on where its wait has ended. -/
def goOn (s : Udp) (i : Nat) : Option Udp :=
  match (s.slot.awaiters i).resumed with
  | some (.ok ()) => s.take
  | _ => some s

/-- The next completion of the loop, and what the `recv` it resumes does. -/
def next (s : Udp) : Option Udp :=
  match s.slot.completing with
  | [] => none
  | i :: _ => s.slot.next.bind fun slot => { s with slot }.goOn i

/-- What happens to a socket. -/
inductive Action where
  | arrive (nread : Except Reason Nat) (buf : Bytes) (addr : Option (Option Endpoint))
    (flags : RecvFlags)
  | recv (cancelled : Bool) (start : Error)
  | cancel (i : Nat)
  | stop
  | turn
  | next

/-- One step; none where an assertion fails, the front of an empty queue is taken, or libuv
and the loop do what they never do. -/
def step (windows : Bool) (s : Udp) : Action → Option Udp
  | .arrive nread buf addr flags => s.onRecv windows nread buf addr flags
  | .recv cancelled start => s.recv cancelled start
  | .cancel i => (s.slot.cancel i).map fun slot => { s with slot }
  | .stop => some s.stop
  | .turn => s.slot.turn.map fun slot => { s with slot }
  | .next => s.next

/-! ## What is queued and who waits -/

/-- What was queued was taken, in order, or still is; a `recv` that nothing woke waits on an
empty queue, and one that was woken has something to take. -/
structure Valid (s : Udp) : Prop where
  slot : s.slot.Valid
  order : s.taken ++ s.received = s.queued
  bound : s.received.length ≤ backlog
  waiting : s.slot.waiting = true → s.received = []
  woken : s.slot.taken = true → s.slot.waiting = false → s.received ≠ []

theorem valid_start : Valid {} :=
  ⟨WaiterSlot.valid_start, rfl, Nat.zero_le _, fun _ => rfl, nofun⟩

variable {s s' : Udp} {windows : Bool}

/-- The rest is as it was where the waiter is gone or as it was. -/
theorem Valid.of_slot (h : s.Valid) {slot : WaiterSlot Unit} (hslot : slot.Valid)
    (hwaiter : slot.waiter = none ∨ (slot.waiter = s.slot.waiter ∧ slot.waiting = s.slot.waiting)) :
    Valid { s with slot } := by
  obtain hnone | ⟨hsame, hwaiting⟩ := hwaiter
  · refine ⟨hslot, h.order, h.bound, fun hwaits => ?_, fun htaken => ?_⟩
    · obtain ⟨i, hi, -⟩ := WaiterSlot.waiting_eq_true.mp hwaits
      cases hnone.symm.trans hi
    · rw [WaiterSlot.taken, hnone] at htaken
      cases htaken
  · refine ⟨hslot, h.order, h.bound, fun hwaits => h.waiting (hwaiting ▸ hwaits),
      fun htaken hwoken => h.woken ?_ (hwaiting ▸ hwoken)⟩
    rwa [WaiterSlot.taken, ← hsame]

/-- Taking the oldest result frees room, while no `recv` waits. -/
theorem Valid.take (h : s.Valid) (hfree : s.slot.taken = false) (hreceived : s.received ≠ []) :
    ∃ s', s.take = some s' ∧ s'.Valid ∧
      ∃ got, s.received = got :: s'.received ∧ s'.taken = s.taken ++ [got] := by
  obtain ⟨got, rest, hcons⟩ := List.exists_cons_of_ne_nil hreceived
  refine ⟨{ s with received := rest, taken := s.taken ++ [got] }, ?_, ⟨h.slot, ?_, ?_, ?_, ?_⟩,
    got, hcons, rfl⟩
  · rw [Udp.take, hcons]
  · dsimp only
    rw [List.append_assoc, List.singleton_append, ← hcons, h.order]
  · have hbound := h.bound
    rw [hcons, List.length_cons] at hbound
    exact Nat.le_of_succ_le hbound
  · intro hwaits
    obtain ⟨i, hi, -⟩ := WaiterSlot.waiting_eq_true.mp hwaits
    rw [WaiterSlot.taken, hi] at hfree
    cases hfree
  · intro htaken
    cases hfree.symm.trans htaken

/-- What arrives is queued where there is room, and wakes the `recv` that waits. -/
theorem Valid.keep (h : s.Valid) (got : Except Reason RecvResult) :
    ∃ s', s.keep got = some s' ∧ s'.Valid ∧ s'.slot.waiting = false ∧ s'.taken = s.taken ∧
      ((s.received.length < backlog ∧ s'.received = s.received ++ [got] ∧
          s'.queued = s.queued ++ [got]) ∨
        (s.received.length = backlog ∧ s'.received = s.received ∧ s'.queued = s.queued)) := by
  obtain ⟨kept, hkept, hslot, htaken, horder, hbound, hsome, hcases⟩ : ∃ kept : Udp,
      kept = (if s.received.length < backlog then
        { s with received := s.received ++ [got], queued := s.queued ++ [got] } else s) ∧
      kept.slot = s.slot ∧ kept.taken = s.taken ∧ kept.taken ++ kept.received = kept.queued ∧
      kept.received.length ≤ backlog ∧ kept.received ≠ [] ∧
      ((s.received.length < backlog ∧ kept.received = s.received ++ [got] ∧
          kept.queued = s.queued ++ [got]) ∨
        (s.received.length = backlog ∧ kept.received = s.received ∧ kept.queued = s.queued)) := by
    have hbound := h.bound
    by_cases hroom : s.received.length < backlog
    · refine ⟨_, rfl, ?_⟩
      rw [if_pos hroom]
      refine ⟨rfl, rfl, ?_, ?_, List.concat_ne_nil _ _, .inl ⟨hroom, rfl, rfl⟩⟩
      · rw [← List.append_assoc, h.order]
      · rw [List.length_append, List.length_singleton]
        exact hroom
    · have hfull : s.received.length = backlog := by omega
      refine ⟨_, rfl, ?_⟩
      rw [if_neg hroom]
      refine ⟨rfl, rfl, h.order, hbound, ?_, .inr ⟨hfull, rfl, rfl⟩⟩
      exact List.ne_nil_of_length_pos (by rw [hfull]; decide)
  unfold Udp.keep
  dsimp only
  rw [← hkept, hslot]
  cases hwaiting : s.slot.waiting with
  | true =>
    rw [if_pos rfl]
    obtain ⟨slot, hdeliver, hslot', -, hwoken⟩ := h.slot.deliverLater_waiter hwaiting ()
    refine ⟨{ kept with slot }, Option.map_eq_some_iff.mpr ⟨slot, hdeliver, rfl⟩,
      ⟨hslot', horder, hbound, fun hwaits => ?_, fun _ _ => hsome⟩, hwoken, htaken, hcases⟩
    cases hwoken.symm.trans hwaits
  | false =>
    rw [if_neg Bool.false_ne_true]
    refine ⟨kept, rfl, ⟨hslot ▸ h.slot, horder, hbound, fun hwaits => ?_, fun _ _ => hsome⟩,
      hslot ▸ hwaiting, htaken, hcases⟩
    rw [hslot, hwaiting] at hwaits
    cases hwaits

/-- A report of libuv leaves the queue as it was, or is queued where there is room. -/
theorem Valid.onRecv (h : s.Valid) (windows : Bool) {nread : Except Reason Nat} (buf : Bytes)
    {addr : Option (Option Endpoint)} (flags : RecvFlags)
    (hlibuv : addr = none → nread = .ok 0 ∨ ∃ err, nread = .error err) :
    ∃ s', s.onRecv windows nread buf addr flags = some s' ∧ s'.Valid ∧ s'.taken = s.taken ∧
      ((s'.received = s.received ∧ s'.queued = s.queued ∧ (nread = .ok 0 ∧ addr = none ∨
          s.received.length = backlog)) ∨
        ∃ got, s.received.length < backlog ∧ s'.received = s.received ++ [got] ∧
          s'.queued = s.queued ++ [got]) := by
  have hkeep : ∀ t : Udp, t.Valid → t.received = s.received → t.queued = s.queued →
      t.taken = s.taken → ∀ got, ∃ s', t.keep got = some s' ∧ s'.Valid ∧ s'.taken = s.taken ∧
        ((s'.received = s.received ∧ s'.queued = s.queued ∧ (nread = .ok 0 ∧ addr = none ∨
            s.received.length = backlog)) ∨
          ∃ got, s.received.length < backlog ∧ s'.received = s.received ++ [got] ∧
            s'.queued = s.queued ++ [got]) := by
    intro t ht hreceived hqueued htaken got
    obtain ⟨s', hs', hvalid, -, htaken', hcases⟩ := ht.keep got
    rw [hreceived, hqueued] at hcases
    refine ⟨s', hs', hvalid, htaken'.trans htaken, ?_⟩
    obtain ⟨hroom, happend, hlog⟩ | ⟨hfull, hsame, hlog⟩ := hcases
    · exact .inr ⟨got, hroom, happend, hlog⟩
    · exact .inl ⟨hsame, hlog, .inr hfull⟩
  cases nread with
  | error err =>
    rw [Udp.onRecv]
    cases windows with
    | true =>
      exact hkeep { s with receiving := false } ⟨h.slot, h.order, h.bound, h.waiting, h.woken⟩
        rfl rfl rfl _
    | false => exact hkeep s h rfl rfl rfl _
  | ok n =>
    cases addr with
    | some sender =>
      cases n with
      | zero | succ => exact hkeep s h rfl rfl rfl _
    | none =>
      obtain hzero | ⟨err, herr⟩ := hlibuv rfl
      · obtain rfl := Except.ok.inj hzero
        exact ⟨s, rfl, h, rfl, .inl ⟨rfl, rfl, .inl ⟨rfl, rfl⟩⟩⟩
      · cases herr

theorem onRecv_some {nread : Except Reason Nat} {buf : Bytes} {addr : Option (Option Endpoint)}
    {flags : RecvFlags} (h : s.onRecv windows nread buf addr flags = some s') :
    addr = none → nread = .ok 0 ∨ ∃ err, nread = .error err := by
  rintro rfl
  cases nread with
  | error err => exact .inr ⟨err, rfl⟩
  | ok n =>
    cases n with
    | zero => exact .inl rfl
    | succ n => cases h

/-- What one step may do to the queue: queue what arrived, take the oldest result, or
nothing. -/
def Moves (s s' : Udp) : Prop :=
  (s'.taken = s.taken ∧ s'.received = s.received ∧ s'.queued = s.queued) ∨
  (s'.taken = s.taken ∧ ∃ got, s.received.length < backlog ∧
    s'.received = s.received ++ [got] ∧ s'.queued = s.queued ++ [got]) ∨
  (s'.queued = s.queued ∧ ∃ got, s.received = got :: s'.received ∧ s'.taken = s.taken ++ [got])

theorem queued_of_take (h : s.take = some s') : s'.queued = s.queued := by
  unfold Udp.take at h
  split at h
  · cases h
  · rw [← Option.some.inj h]

/-- A `recv` that finds a result takes the oldest one; one that finds the slot taken fails. -/
theorem Valid.recv (h : s.Valid) (cancelled : Bool) (start : Error) :
    ∃ s', s.recv cancelled start = some s' ∧ s'.Valid ∧ s.Moves s' ∧
      (s.slot.taken = true → s' = s) ∧
      (s.slot.taken = false → s.received ≠ [] →
        ∃ got, s.received = got :: s'.received ∧ s'.taken = s.taken ++ [got]) := by
  unfold Udp.recv
  cases htaken : s.slot.taken with
  | true =>
    rw [if_pos rfl]
    exact ⟨s, rfl, h, .inl ⟨rfl, rfl, rfl⟩, fun _ => rfl,
      fun hheld => absurd hheld.symm Bool.false_ne_true⟩
  | false =>
    rw [if_neg Bool.false_ne_true]
    cases hempty : s.received.isEmpty with
    | false =>
      have hsome : s.received ≠ [] := by
        intro hnil
        rw [hnil] at hempty
        cases hempty
      obtain ⟨s', hs', hvalid, hfront⟩ := h.take htaken hsome
      rw [if_pos rfl]
      exact ⟨s', hs', hvalid, .inr (.inr ⟨queued_of_take hs', hfront⟩),
        fun hheld => absurd hheld Bool.false_ne_true, fun _ _ => hfront⟩
    | true =>
      have hnil : s.received = [] := List.isEmpty_iff.mp hempty
      rw [if_neg (by decide)]
      split
      · exact ⟨s, rfl, h, .inl ⟨rfl, rfl, rfl⟩,
          fun hheld => absurd hheld Bool.false_ne_true, fun _ hsome => absurd hnil hsome⟩
      · obtain ⟨slot, hwait⟩ := h.slot.possible.1 cancelled
        refine ⟨{ s with slot, receiving := true },
          Option.map_eq_some_iff.mpr ⟨slot, hwait, rfl⟩,
          ⟨h.slot.step hwait, h.order, h.bound, fun _ => hnil, fun hheld hwoken => ?_⟩,
          .inl ⟨rfl, rfl, rfl⟩,
          fun hheld => absurd hheld Bool.false_ne_true, fun _ hsome => absurd hnil hsome⟩
        -- a wait that took the slot has not been woken
        have hfree : s.slot.waiter = none := Option.isNone_iff_eq_none.mp (by
          rwa [← Option.not_isSome, Bool.not_eq_true'])
        cases cancelled with
        | true =>
          have hslot := Option.some.inj (hwait.symm.trans (WaiterSlot.wait_cancelled hfree))
          rw [hslot] at hheld
          exact absurd hheld (by rw [WaiterSlot.taken, WaiterSlot.set, hfree]; exact Bool.false_ne_true)
        | false =>
          have hslot := Option.some.inj (hwait.symm.trans (WaiterSlot.wait_free hfree))
          rw [hslot, WaiterSlot.waiting_of_waiter (i := s.slot.fresh) rfl,
            WaiterSlot.set_awaiters] at hwoken
          cases hwoken

/-- A wait that was woken and is let go leaves its result to the next `recv`. -/
theorem Valid.letGo (h : s.Valid) {slot : WaiterSlot Unit} (hslot : slot.Valid)
    (hfree : slot.waiter = none) (receiving : Bool) : Valid { s with slot, receiving } := by
  have hvalid := h.of_slot hslot (.inl hfree)
  exact ⟨hvalid.slot, hvalid.order, hvalid.bound, hvalid.waiting, hvalid.woken⟩

/-- The `recv` the loop resumes takes the oldest result where its wait ended well, and
leaves the queue alone where it was cancelled or aborted. -/
theorem Valid.next (h : s.Valid) {i : Nat} {rest : List Nat}
    (hbatch : s.slot.completing = i :: rest) :
    ∃ s', s.next = some s' ∧ s'.Valid ∧ s.Moves s' ∧
      ((s'.slot.awaiters i).resumed = some (.ok ()) → s.received ≠ [] ∧
        ∃ got, s.received = got :: s'.received ∧ s'.taken = s.taken ++ [got]) ∧
      (s.slot.waiter ≠ some i → s'.received = s.received ∧ s'.taken = s.taken) := by
  obtain ⟨slot, hslot, hdone⟩ := h.slot.next_spec hbatch
  have hnext : s.next = { s with slot }.goOn i := by
    rw [Udp.next, hbatch]
    dsimp only
    rw [hslot, Option.bind_some]
  obtain ⟨hwaiter, hnone, ⟨⟩, hresumed⟩ | ⟨hother, hsame, hended⟩ := hdone.outcome
  · have hcount := h.slot.count i
    have hqueued : (s.slot.awaiters i).queued = true := by
      by_contra hnot
      rw [if_neg (fun hboth => hnot hboth.1), List.count_eq_zero] at hcount
      refine hcount ?_
      rw [WaiterSlot.queue, hbatch]
      simp
    have hwoken : s.slot.waiting = false := by
      rw [WaiterSlot.waiting_of_waiter hwaiter, hqueued]
      rfl
    have hsome : s.received ≠ [] := h.woken (by rw [WaiterSlot.taken, hwaiter]; rfl) hwoken
    have hfree : slot.taken = false := by
      rw [WaiterSlot.taken, hnone]
      rfl
    obtain ⟨s', hs', hvalid, hfront⟩ :=
      (h.of_slot hdone.valid (.inl hnone)).take hfree hsome
    have hqueue := queued_of_take hs'
    refine ⟨s', ?_, hvalid, .inr (.inr ⟨hqueue, hfront⟩),
      fun _ => ⟨hsome, hfront⟩, fun hnot => absurd hwaiter hnot⟩
    rw [hnext, Udp.goOn]
    dsimp only
    rw [hresumed]
    exact hs'
  · have hwaiting : slot.waiting = s.slot.waiting :=
      WaiterSlot.waiting_congr hsame fun j hj =>
        hdone.others j fun heq => hother (heq ▸ hj)
    refine ⟨{ s with slot }, ?_, h.of_slot hdone.valid (.inr ⟨hsame, hwaiting⟩),
      .inl ⟨rfl, rfl, rfl⟩, fun hok => ?_, fun _ => ⟨rfl, rfl⟩⟩
    · rw [hnext, Udp.goOn]
      dsimp only
      obtain hnone | haborted := hended
      · rw [hnone]
      · rw [haborted]
    · obtain hnone | haborted := hended
      · cases hnone.symm.trans hok
      · cases haborted.symm.trans hok

/-- Every step keeps a socket valid, and moves its queue as it may. -/
theorem Valid.step {action : Action} (h : s.Valid) (hstep : s.step windows action = some s') :
    s'.Valid ∧ s.Moves s' := by
  cases action with
  | arrive nread buf addr flags =>
    obtain ⟨t, ht, hvalid, htaken, hcases⟩ :=
      h.onRecv windows buf flags (onRecv_some hstep)
    obtain rfl := Option.some.inj (ht.symm.trans hstep)
    refine ⟨hvalid, ?_⟩
    obtain ⟨hreceived, hqueued, -⟩ | hadded := hcases
    · exact .inl ⟨htaken, hreceived, hqueued⟩
    · exact .inr (.inl ⟨htaken, hadded⟩)
  | recv cancelled start =>
    obtain ⟨t, ht, hvalid, hmoves, -⟩ := h.recv cancelled start
    obtain rfl := Option.some.inj (ht.symm.trans hstep)
    exact ⟨hvalid, hmoves⟩
  | cancel i =>
    obtain ⟨slot, hslot, rfl⟩ := Option.map_eq_some_iff.mp hstep
    exact ⟨h.of_slot (h.slot.cancelStep hslot) (h.slot.cancel_waiter hslot),
      .inl ⟨rfl, rfl, rfl⟩⟩
  | stop =>
    rw [← Option.some.inj hstep]
    exact ⟨h.letGo h.slot.abortStep h.slot.abort_waiter false, .inl ⟨rfl, rfl, rfl⟩⟩
  | turn =>
    obtain ⟨slot, hslot, rfl⟩ := Option.map_eq_some_iff.mp hstep
    have hsame : slot.waiter = s.slot.waiter ∧ slot.waiting = s.slot.waiting := by
      unfold WaiterSlot.turn at hslot
      split at hslot
      · rw [← Option.some.inj hslot]
        exact ⟨rfl, rfl⟩
      · cases hslot
    exact ⟨h.of_slot (h.slot.turnStep hslot) (.inr hsame), .inl ⟨rfl, rfl, rfl⟩⟩
  | next =>
    cases hbatch : s.slot.completing with
    | nil =>
      rw [Udp.step, Udp.next, hbatch] at hstep
      cases hstep
    | cons i rest =>
      obtain ⟨t, ht, hvalid, hmoves, -⟩ := h.next hbatch
      obtain rfl := Option.some.inj (ht.symm.trans hstep)
      exact ⟨hvalid, hmoves⟩

theorem Valid.reach (h : Reach (Udp.step windows) {} s) : s.Valid :=
  h.invariant (fun hs hstep => (hs.step hstep).1) valid_start

/-- In every run: what was queued is what was taken followed by what is still in the queue,
which never exceeds the backlog; a step adds one arrival at the end, takes one result at the
front or leaves the queue alone, and an arrival is dropped on a full queue alone; the loop
resumes a `recv` without an error only where there is a result to take; and a `recv` that was
woken and is cancelled or stopped leaves its result to the next one, also when the loop gets
to it. -/
theorem udp_spec {windows : Bool} {s : Udp} (h : Reach (Udp.step windows) {} s) :
    s.taken ++ s.received = s.queued ∧ s.received.length ≤ backlog ∧
      (∀ action s', s.step windows action = some s' → s.Moves s') ∧
      (∀ nread buf addr flags s', s.step windows (.arrive nread buf addr flags) = some s' →
        s'.queued = s.queued →
          nread = .ok 0 ∧ addr = none ∨ s.received.length = backlog) ∧
      (∀ i rest, s.slot.completing = i :: rest → ∃ s', s.step windows .next = some s' ∧
        ((s'.slot.awaiters i).resumed = some (.ok ()) → s.received ≠ [] ∧
          ∃ got, s.received = got :: s'.received ∧ s'.taken = s.taken ++ [got]) ∧
        (s.slot.waiter ≠ some i → s'.received = s.received ∧ s'.taken = s.taken)) ∧
      (∀ i, s.slot.waiter = some i → s.slot.waiting = false →
        ∀ action, action = .cancel i ∨ action = .stop →
          ∃ s' got, s.step windows action = some s' ∧ s'.taken = s.taken ∧
            s'.received = s.received ∧ s'.slot.taken = false ∧
            ∀ cancelled start, ∃ t, s'.step windows (.recv cancelled start) = some t ∧
              s.received = got :: t.received ∧ t.taken = s.taken ++ [got]) := by
  have hvalid := Valid.reach h
  refine ⟨hvalid.order, hvalid.bound, fun action s' hstep => (hvalid.step hstep).2,
    fun nread buf addr flags s' hstep hsame => ?_, fun i rest hbatch => ?_,
    fun i hwaiter hwoken action haction => ?_⟩
  · obtain ⟨t, ht, -, -, ⟨-, -, hdropped⟩ | ⟨got, -, -, hadded⟩⟩ :=
      hvalid.onRecv windows buf flags (onRecv_some hstep)
    · exact hdropped
    · obtain rfl := Option.some.inj (ht.symm.trans hstep)
      exact absurd (List.self_eq_append_right.mp (hsame.symm.trans hadded)) (List.cons_ne_nil _ _)
  · obtain ⟨s', hs', -, -, hresumed, hother⟩ := hvalid.next hbatch
    exact ⟨s', hs', hresumed, hother⟩
  · have htaken : s.slot.taken = true := by
      rw [WaiterSlot.taken, hwaiter]
      rfl
    have hsome := hvalid.woken htaken hwoken
    obtain ⟨s', hs', hfree, hsame, hqueue⟩ : ∃ s', s.step windows action = some s' ∧
        s'.slot.taken = false ∧ s'.taken = s.taken ∧ s'.received = s.received := by
      obtain rfl | rfl := haction
      · obtain ⟨slot, hslot⟩ := hvalid.slot.possible.2.1 i
        refine ⟨{ s with slot }, Option.map_eq_some_iff.mpr ⟨slot, hslot, rfl⟩, ?_, rfl, rfl⟩
        rw [WaiterSlot.taken, hvalid.slot.cancel_held hwaiter hslot]
        rfl
      · refine ⟨s.stop, rfl, ?_, rfl, rfl⟩
        rw [WaiterSlot.taken, Udp.stop, hvalid.slot.abort_waiter]
        rfl
    obtain ⟨got, rest, hcons⟩ := List.exists_cons_of_ne_nil hsome
    refine ⟨s', got, hs', hsame, hqueue, hfree, fun cancelled start => ?_⟩
    obtain ⟨t, ht, -, -, -, hfront⟩ := (hvalid.step hs').1.recv cancelled start
    obtain ⟨got', hgot, htook⟩ := hfront hfree (hqueue ▸ hsome)
    rw [hqueue, hcons] at hgot
    obtain ⟨rfl, hrest⟩ := List.cons.inj hgot
    exact ⟨t, ht, by rw [hcons, hrest], by rw [htook, hsame]⟩

/-- A datagram for a `recv` that is cancelled before its turn, and for the next one. -/
def handedOn : List Action :=
  [.recv false none, .arrive (.ok 1) [7] (some none) {}, .cancel 0, .turn, .recv false none,
    .recv false none, .arrive (.ok 1) [8] (some none) {}]

theorem udp_spec_handedOn : ∃ s, run (step false) {} handedOn = some s ∧
    s.taken ++ s.received = s.queued ∧
    s.taken = [.ok { data := [7], sender := {}, flags := {} }] ∧
    s.received = [.ok { data := [8], sender := {}, flags := {} }] := by
  have hrun : Reach (Udp.step false) {} ((run (Udp.step false) {} handedOn).get rfl) :=
    Reach.of_isSome handedOn rfl
  exact ⟨_, (Option.some_get _).symm, (udp_spec hrun).1, rfl, rfl⟩

end Udp

end Kotatsu.Async.Io
