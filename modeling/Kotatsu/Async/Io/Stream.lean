import Kotatsu.Async.Io.Ring
import Kotatsu.Async.Io.Waiter

/-!
# The stream over the ring

A stream reads ahead into its ring while libuv is told to read. It starts reading only on an
empty ring and stops as the ring fills, so libuv, which asks for room only between start and
stop, always finds some. A read resumes its reader before it returns, so of the slot of a
stream what counts is whether a reader waits.
-/

namespace Kotatsu.Async.Io

open Kotatsu.Core

/-- `status_to_error`, of an error libuv reports or the count it gives. -/
def statusToError : Except Reason Nat → Error
  | .ok _ => none
  | .error err => some err.reported

/-- `stream::Self`. -/
structure Stream where
  use : Use := {}
  reading : Bool := false
  ended : Error := none
  waiting : Bool := false

/-- How a wait for bytes goes on: at once, with an error or none, or later. -/
inductive Filled where
  | ready (err : Error)
  | wait
deriving DecidableEq

namespace Stream

/-- `stop_reading`. -/
def stopReading (s : Stream) : Stream := { s with reading := false }

/-- `fill`, with what `uv_read_start` returns if it is called. -/
def fill (s : Stream) (start : Error) : Stream × Filled :=
  if s.use.ring.empty = false then (s, .ready none)
  else if s.ended.isSome then (s, .ready s.ended)
  else if s.reading = false ∧ start.isSome then (s, .ready start)
  else
    let s := { s with reading := true }
    if s.waiting then (s, .ready (some .resourceBusyOrLocked))
    else ({ s with waiting := true }, .wait)

/-- `on_alloc`; none where the assertion of `writable` fails. -/
def onAlloc (s : Stream) : Option Stream :=
  (s.use.step .writable).map fun use => { s with use }

/-- The end of `on_read`: the reader that waits and what it is given, if one does. -/
def wake (s : Stream) : Stream × Option Error :=
  if s.waiting then ({ s with waiting := false }, some s.ended) else (s, none)

/-- `on_read`; none where the assertion of `commit` fails. -/
def onRead (s : Stream) : Except Reason Nat → Option (Stream × Option Error)
  | .ok 0 => some (s, none)
  | .error err => some ({ s with ended := statusToError (.error err) }.stopReading.wake)
  | .ok n =>
    (s.use.step (.commit n)).map fun use =>
      let s := { s with use }
      (if use.ring.full then s.stopReading else s).wake

/-- `consume`, and what the readers do with the bytes they take. -/
def consume (s : Stream) (n : Nat) : Option Stream :=
  (s.use.step (.consume n)).map fun use => { s with use }

/-- The reader that waits is gone, cancelled or aborted. -/
def letGo (s : Stream) : Stream := { s with waiting := false }

/-- `stop`. -/
def stop (s : Stream) : Stream := s.stopReading.letGo

/-- What happens to a stream: a reader that needs bytes, libuv asking for room, filling it
and reporting a read, bytes being consumed, a reader that goes, and a stop. -/
inductive Action where
  | fill (start : Error)
  | alloc
  | put (bytes : Bytes)
  | read (nread : Except Reason Nat)
  | consume (n : Nat)
  | letGo
  | stop

/-- One step; none where an assertion fails, or libuv does what it never does: it asks for
room only while it reads, and reports at most the bytes it put there. -/
def step (s : Stream) : Action → Option Stream
  | .fill start => some (s.fill start).1
  | .alloc => if s.reading then s.onAlloc else none
  | .put bytes => (s.use.step (.put bytes)).map fun use => { s with use }
  | .read nread => (s.onRead nread).map Prod.fst
  | .consume n => s.consume n
  | .letGo => some s.letGo
  | .stop => some s.stop

/-- A stream that reads has room, and its ring is one in use. -/
structure Valid (s : Stream) : Prop where
  use : Reach Use.step {} s.use
  room : s.reading = true → s.use.ring.full = false

theorem valid_start : Valid {} := ⟨Reach.refl _ _, nofun⟩

theorem fill_use (s : Stream) (start : Error) : (s.fill start).1.use = s.use := by
  unfold fill
  grind

variable {s : Stream} {use : Use} {n : Nat}

/-- Reading starts on an empty ring alone. -/
theorem fill_reading {start : Error} (h : (s.fill start).1.reading = true) :
    s.reading = true ∨ s.use.ring.empty = true := by
  unfold fill at h
  grind

theorem wake_eq (s : Stream) : s.wake.1 = { s with waiting := false } := by
  unfold wake
  cases hwaiting : s.waiting with
  | true => rfl
  | false =>
    rw [if_neg Bool.false_ne_true, ← hwaiting]

theorem wake_snd (s : Stream) : s.wake.2 = if s.waiting then some s.ended else none := by
  unfold wake
  split <;> rfl

theorem not_full_of_empty {ring : Ring} (h : ring.empty = true) : ring.full = false := by
  have hzero : ring.size = 0 := beq_iff_eq.mp h
  rw [Ring.full, hzero]
  decide

theorem full_eq_false_iff {ring : Ring} (h : ring.WellFormed) :
    ring.full = false ↔ ring.size < capacity := by
  rw [Ring.full, beq_eq_false_iff_ne]
  have hsize := h.size
  omega

/-- A ring that is not full is not filled by what is no commit. -/
theorem Valid.of_use (h : s.Valid) {action : Use.Action} (hstep : s.use.step action = some use)
    (hcommit : ∀ n, action ≠ .commit n) : Valid { s with use } := by
  have hvalid := Use.Valid.reach h.use
  have hreach := h.use.tail hstep
  refine ⟨hreach, fun hreading => ?_⟩
  have hsize := (full_eq_false_iff hvalid.ring).mp (h.room hreading)
  exact (full_eq_false_iff (Use.Valid.reach hreach).ring).mpr
    ((hvalid.size_le hstep hcommit).trans_lt hsize)

/-- A read leaves a stream that has room, or does not read. -/
theorem Valid.onRead {nread : Except Reason Nat} {after : Stream × Option Error} (h : s.Valid)
    (hread : s.onRead nread = some after) : after.1.Valid := by
  unfold Stream.onRead at hread
  split at hread
  · rw [← Option.some.inj hread]
    exact h
  · rw [← Option.some.inj hread, wake_eq]
    exact ⟨h.use, nofun⟩
  · obtain ⟨use, huse, rfl⟩ := Option.map_eq_some_iff.mp hread
    dsimp only
    rw [wake_eq]
    cases hfull : use.ring.full with
    | true => exact ⟨h.use.tail huse, nofun⟩
    | false => exact ⟨h.use.tail huse, fun _ => hfull⟩

/-- Every step keeps the room a stream that reads has. -/
theorem Valid.step {s s' : Stream} {action : Action} (h : s.Valid)
    (hstep : s.step action = some s') : s'.Valid := by
  cases action with
  | fill start =>
    rw [← Option.some.inj hstep]
    refine ⟨by rw [fill_use]; exact h.use, fun hreading => ?_⟩
    rw [fill_use]
    exact (fill_reading hreading).elim h.room not_full_of_empty
  | alloc =>
    rw [Stream.step] at hstep
    split at hstep
    · obtain ⟨use, huse, rfl⟩ := Option.map_eq_some_iff.mp hstep
      exact h.of_use huse nofun
    · cases hstep
  | put bytes =>
    obtain ⟨use, huse, rfl⟩ := Option.map_eq_some_iff.mp hstep
    exact h.of_use huse nofun
  | read nread =>
    obtain ⟨after, hread, rfl⟩ := Option.map_eq_some_iff.mp hstep
    exact h.onRead hread
  | consume n =>
    obtain ⟨use, huse, rfl⟩ := Option.map_eq_some_iff.mp hstep
    exact h.of_use huse nofun
  | letGo =>
    rw [← Option.some.inj hstep]
    exact ⟨h.use, h.room⟩
  | stop =>
    rw [← Option.some.inj hstep]
    exact ⟨h.use, nofun⟩

theorem Valid.reach (h : Reach Stream.step {} s) : s.Valid :=
  h.invariant (fun hs hstep => hs.step hstep) valid_start

/-- Consuming drops the oldest unread bytes and leaves the rest of a stream alone. -/
theorem Valid.consume (h : s.Valid) (hn : n ≤ s.use.ring.size) :
    ∃ use, s.consume n = some { s with use } ∧ Valid { s with use } ∧
      use.ring.unread = s.use.ring.unread.drop n ∧ use.filled = s.use.filled := by
  have hvalid := Use.Valid.reach h.use
  obtain ⟨use, hstep, hvalid'⟩ := hvalid.step (show s.use.Possible (.consume n) from hn)
  refine ⟨use, Option.map_eq_some_iff.mpr ⟨use, hstep, rfl⟩, h.of_use hstep nofun, ?_, ?_⟩
  · have hbytes := hvalid'.bytes
    obtain ⟨ring, -, rfl⟩ := Option.map_eq_some_iff.mp hstep
    have hall := hbytes.trans hvalid.bytes.symm
    dsimp only at hall
    rw [List.append_assoc, List.append_cancel_left_eq] at hall
    refine List.append_cancel_left (hall.trans (List.take_append_drop n _).symm)
  · obtain ⟨ring, -, rfl⟩ := Option.map_eq_some_iff.mp hstep
    rfl

/-- What a read of some bytes does: it commits them, stops reading if the ring is full, and
wakes the reader that waits. -/
theorem onRead_succ {after : Stream × Option Error} (hread : s.onRead (.ok (n + 1)) = some after) :
    ∃ use reading, s.use.step (.commit (n + 1)) = some use ∧
      after = ({ s with use, reading, waiting := false },
        if s.waiting then some s.ended else none) := by
  obtain ⟨use, huse, rfl⟩ := Option.map_eq_some_iff.mp hread
  dsimp only
  cases use.ring.full with
  | true => exact ⟨use, false, huse, Prod.ext (wake_eq _) (wake_snd _)⟩
  | false => exact ⟨use, s.reading, huse, Prod.ext (wake_eq _) (wake_snd _)⟩

theorem onRead_some (hstep : s.use.step (.commit (n + 1)) = some use) :
    ∃ after, s.onRead (.ok (n + 1)) = some after :=
  ⟨_, Option.map_eq_some_iff.mpr ⟨use, hstep, rfl⟩⟩

/-- Asking for room and putting bytes there leaves the unread bytes alone. -/
theorem Valid.arrive {s s' : Stream} (h : s.Valid) {action : Use.Action}
    (haction : action = .writable ∨ ∃ bytes, action = .put bytes)
    (hstep : (s.use.step action).map (fun use => { s with use }) = some s') :
    ∃ use, s' = { s with use } ∧ Valid { s with use } ∧
      use.ring.unread = s.use.ring.unread ∧
      ((action = .writable ∧ use.filled = []) ∨ action = .put use.filled) := by
  have hvalid := Use.Valid.reach h.use
  obtain ⟨use, huse, rfl⟩ := Option.map_eq_some_iff.mp hstep
  have hbytes := (Use.Valid.reach (h.use.tail huse)).bytes
  obtain rfl | ⟨bytes, rfl⟩ := haction
  · refine ⟨use, rfl, h.of_use huse nofun, ?_⟩
    obtain ⟨ring, -, rfl⟩ := Option.map_eq_some_iff.mp huse
    exact ⟨List.append_cancel_left (hbytes.trans hvalid.bytes.symm), .inl ⟨rfl, rfl⟩⟩
  · refine ⟨use, rfl, h.of_use huse nofun, ?_⟩
    unfold Use.step at huse
    dsimp only at huse
    split at huse
    · cases huse
    · split at huse
      · cases huse
        exact ⟨List.append_cancel_left (hbytes.trans hvalid.bytes.symm), .inr rfl⟩
      · cases huse

/-- A commit adds the bytes that were put into the room. -/
theorem Valid.commit (h : s.Valid) (hstep : s.use.step (.commit n) = some use) :
    use.ring.unread = s.use.ring.unread ++ s.use.filled.take n ∧ use.filled = [] ∧
      n ≤ s.use.filled.length := by
  have hvalid := Use.Valid.reach h.use
  have hvalid' := Use.Valid.reach (h.use.tail hstep)
  obtain ⟨hroom, hn⟩ := Use.possible_of_step hstep
  have hbytes := hvalid'.bytes
  unfold Use.step at hstep
  dsimp only at hstep
  split at hstep
  · cases hstep
  · rw [if_pos hn] at hstep
    obtain ⟨ring, -, rfl⟩ := Option.map_eq_some_iff.mp hstep
    rw [← hvalid.bytes, List.append_assoc, List.append_cancel_left_eq] at hbytes
    exact ⟨hbytes, rfl, hn⟩

/-- libuv always finds room. -/
theorem Valid.onAlloc (h : s.Valid) (hreading : s.reading = true) : ∃ s', s.onAlloc = some s' := by
  obtain ⟨use, huse, -⟩ := (Use.Valid.reach h.use).step
    (show s.use.Possible .writable from h.room hreading)
  exact ⟨_, Option.map_eq_some_iff.mpr ⟨use, huse, rfl⟩⟩

/-- However a ring is used, the bytes consumed and those still unread are the bytes that were
committed, in order; what can be read at once is the front of the unread bytes, and no room
that was given holds any of them; what is possible is done. A stream uses its ring so, and
never asks a full one for room. -/
theorem ring_spec {use : Use} {stream : Stream} (huse : Reach Use.step {} use)
    (hstream : Reach Stream.step {} stream) :
    (use.consumed ++ use.ring.unread = use.committed ∧
      use.ring.unread.length = use.ring.size ∧
      use.ring.readable =
        use.ring.unread.take (min use.ring.size (capacity - use.ring.head)) ∧
      use.ring.head < capacity ∧ use.ring.size ≤ capacity ∧
      (∀ room, use.room = some room → room.start + room.length ≤ capacity ∧
        ∀ i, i < use.ring.size → (use.ring.head + i) % capacity < room.start ∨
          room.start + room.length ≤ (use.ring.head + i) % capacity) ∧
      ∀ action, use.Possible action ↔ ∃ use', use.step action = some use') ∧
    (Reach Use.step {} stream.use ∧ (stream.reading = true →
      stream.use.ring.full = false ∧ ∃ stream', stream.onAlloc = some stream')) := by
  have hvalid := Use.Valid.reach huse
  have hreads := Valid.reach hstream
  refine ⟨⟨hvalid.bytes, Ring.length_unread hvalid.ring, Ring.readable_eq hvalid.ring,
    hvalid.ring.head, hvalid.ring.size, fun room hroom => ?_, fun action => ⟨?_, ?_⟩⟩,
    hreads.use, fun hreading => ⟨hreads.room hreading, hreads.onAlloc hreading⟩⟩
  · obtain ⟨hfits, -, -⟩ := hvalid.room room hroom
    exact ⟨hfits.piece, fun i hi => Ring.Fits.disjoint hvalid.ring hfits hi⟩
  · intro hpossible
    obtain ⟨use', hstep, -⟩ := hvalid.step hpossible
    exact ⟨use', hstep⟩
  · rintro ⟨use', hstep⟩
    exact Use.possible_of_step hstep

/-- A byte consumed between a room and its commit. -/
def consumedMeanwhile : List Use.Action :=
  [.writable, .put [1, 2, 3], .commit 2, .writable, .consume 2, .put [4], .commit 1]

/-- A stream that is told to read and asks for room. -/
def askedForRoom : List Action := [.fill none, .alloc, .put [1, 2], .read (.ok 2)]

theorem ring_spec_meanwhile : ∃ use stream, run Use.step {} consumedMeanwhile = some use ∧
    run step {} askedForRoom = some stream ∧ use.consumed ++ use.ring.unread = use.committed ∧
    use.ring.head = 2 ∧ stream.use.ring.full = false := by
  have huse : Reach Use.step {} ((run Use.step {} consumedMeanwhile).get rfl) :=
    Reach.of_isSome consumedMeanwhile rfl
  have hstream : Reach Stream.step {} ((run Stream.step {} askedForRoom).get rfl) :=
    Reach.of_isSome askedForRoom rfl
  have hspec := ring_spec huse hstream
  exact ⟨_, _, (Option.some_get _).symm, (Option.some_get _).symm, hspec.1.1, rfl,
    (hspec.2.2 rfl).1⟩

end Stream

end Kotatsu.Async.Io
