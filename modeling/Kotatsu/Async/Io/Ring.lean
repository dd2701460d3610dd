import Kotatsu.Core.Overwrite
import Kotatsu.Core.Transition
import Mathlib.Data.List.Rotate

/-!
# The ring of unread bytes

`ring_buffer` keeps the bytes that were read and not consumed yet in a ring of fixed size.
Turned so that its head comes first, the ring begins with the unread bytes, so dropping
bytes and putting bytes behind them are what they are on a list. A room that was given
stays behind the unread bytes, whatever is consumed until it is committed: the sum of the
head and the size only moves when the ring is empty and a room is given anew.
-/

namespace Kotatsu.Async.Io

open Kotatsu.Core

/-- `ring_buffer::capacity`. -/
def capacity : Nat := 64 * 1024

theorem capacity_pos : 0 < capacity := by decide

/-- `ring_buffer`. -/
structure Ring where
  data : Bytes := []
  head : Nat := 0
  size : Nat := 0
deriving DecidableEq

/-- The room a read fills: where it starts in the ring, and how long it is. -/
structure Room where
  start : Nat
  length : Nat
deriving DecidableEq

namespace Ring

/-- `empty`. -/
def empty (ring : Ring) : Bool := ring.size == 0

/-- `full`. -/
def full (ring : Ring) : Bool := ring.size == capacity

/-- `readable`. -/
def readable (ring : Ring) : Bytes :=
  substr ring.data ring.head (min ring.size (capacity - ring.head))

/-- `consume`; none where its assertion fails. -/
def consume (ring : Ring) (n : Nat) : Option Ring :=
  if n ≤ ring.size then
    some { ring with size := ring.size - n, head := (ring.head + n) % capacity }
  else none

/-- `writable`; none where its assertion fails. -/
def writable (ring : Ring) : Option (Ring × Room) :=
  if ring.full then none
  else
    let ring :=
      if ring.data = [] then { ring with data := growTo ring.data capacity } else ring
    let ring := if ring.empty then { ring with head := 0 } else ring
    let tail := (ring.head + ring.size) % capacity
    some (ring,
      { start := tail, length := if tail < ring.head then ring.head - tail else capacity - tail })

/-- `commit`; none where its assertion fails. -/
def commit (ring : Ring) (n : Nat) : Option Ring :=
  if n ≤ capacity - ring.size then some { ring with size := ring.size + n } else none

/-- The bytes a read puts at the front of a room. -/
def put (ring : Ring) (room : Room) (bytes : Bytes) : Ring :=
  { ring with data := overwrite ring.data room.start bytes }

/-- The unread bytes, in the order they are handed out. -/
def unread (ring : Ring) : Bytes := (ring.data.rotate ring.head).take ring.size

/-! ## Turning the ring -/

/-- The head and the size are those of a ring, which is allocated before it holds bytes. -/
structure WellFormed (ring : Ring) : Prop where
  head : ring.head < capacity
  size : ring.size ≤ capacity
  data : ring.data.length = capacity ∨ (ring.data = [] ∧ ring.size = 0)

theorem wellFormed_start : WellFormed {} :=
  ⟨capacity_pos, Nat.zero_le _, .inr ⟨rfl, rfl⟩⟩

variable {ring : Ring} {n : Nat} {room : Room} {bytes : Bytes}

theorem length_unread (h : ring.WellFormed) : ring.unread.length = ring.size := by
  have hsize := h.size
  rw [unread, List.length_take, List.length_rotate]
  obtain hdata | ⟨hdata, hzero⟩ := h.data <;> rw [hdata]
  · exact Nat.min_eq_left hsize
  · rw [hzero]
    exact Nat.zero_min _

/-- Turning by the head brings what follows it to the front. -/
theorem rotate_head (h : ring.WellFormed) :
    ring.data.rotate ring.head = ring.data.drop ring.head ++ ring.data.take ring.head := by
  obtain hdata | ⟨hdata, -⟩ := h.data
  · exact List.rotate_eq_drop_append_take (by rw [hdata]; exact Nat.le_of_lt h.head)
  · rw [hdata, List.rotate_nil, List.drop_nil, List.take_nil, List.nil_append]

/-- What can be read in one piece is the front of the unread bytes. -/
theorem readable_eq (h : ring.WellFormed) :
    ring.readable = ring.unread.take (min ring.size (capacity - ring.head)) := by
  rw [unread, rotate_head h, readable, substr, List.take_take,
    Nat.min_eq_left (Nat.min_le_left _ _)]
  obtain hdata | ⟨hdata, -⟩ := h.data
  · rw [List.take_append_of_le_length]
    rw [List.length_drop, hdata]
    exact Nat.min_le_right _ _
  · rw [hdata, List.drop_nil, List.take_nil, List.take_nil, List.nil_append, List.take_nil]

theorem length_turned (h : ring.WellFormed) (hsize : ring.size ≠ 0) :
    (ring.data.rotate ring.head).length = capacity := by
  obtain hdata | ⟨-, hzero⟩ := h.data
  · rw [List.length_rotate, hdata]
  · exact absurd hzero hsize

/-- Moving the head on turns the ring further. -/
theorem rotate_mod_capacity {data : Bytes} (hdata : data.length = capacity ∨ data = [])
    (head n : Nat) : data.rotate ((head + n) % capacity) = (data.rotate head).rotate n := by
  obtain hdata | rfl := hdata
  · rw [← hdata, List.rotate_mod, List.rotate_rotate]
  · rw [List.rotate_nil, List.rotate_nil, List.rotate_nil]

/-- What stands behind the unread bytes moves up as bytes are dropped. -/
theorem prefix_rotate {xs ys turned : Bytes} (h : xs ++ ys <+: turned) (hn : n ≤ xs.length) :
    xs.drop n ++ ys <+: turned.rotate n := by
  obtain ⟨rest, rfl⟩ := h
  have hle : n ≤ (xs ++ ys ++ rest).length := by
    rw [List.length_append, List.length_append]
    omega
  rw [List.rotate_eq_drop_append_take hle, List.append_assoc, List.drop_append_of_le_length hn,
    ← List.append_assoc, List.append_assoc]
  exact List.prefix_append _ _

/-- Consuming drops the oldest unread bytes and leaves what stands behind them. -/
theorem consume_spec {ring ring' : Ring} (h : ring.WellFormed)
    (hconsume : ring.consume n = some ring') :
    ring'.WellFormed ∧ ring'.unread = ring.unread.drop n ∧ ring'.data = ring.data ∧
      ring'.size + n = ring.size ∧
      (ring'.head + ring'.size) % capacity = (ring.head + ring.size) % capacity ∧
      ∀ behind, ring.unread ++ behind <+: ring.data.rotate ring.head →
        ring'.unread ++ behind <+: ring'.data.rotate ring'.head := by
  unfold Ring.consume at hconsume
  split at hconsume
  · next hn =>
    cases hconsume
    have hdata : ring.data.length = capacity ∨ ring.data = [] := h.data.imp_right And.left
    have hlength := length_unread h
    have hunread : ((ring.data.rotate ((ring.head + n) % capacity)).take (ring.size - n)) =
        ring.unread.drop n := by
      rw [rotate_mod_capacity hdata, unread, List.drop_take]
      by_cases hzero : ring.size = 0
      · rw [hzero, Nat.zero_sub, List.take_zero, List.take_zero]
      · have hturned := length_turned h hzero
        have hsize := h.size
        rw [List.rotate_eq_drop_append_take (by omega), List.take_append_of_le_length]
        rw [List.length_drop]
        omega
    refine ⟨⟨Nat.mod_lt _ capacity_pos, (Nat.sub_le _ _).trans h.size, ?_⟩, hunread, rfl,
      Nat.sub_add_cancel hn, ?_, fun behind hbehind => ?_⟩
    · exact h.data.imp_right fun hnil => ⟨hnil.1, by rw [hnil.2, Nat.zero_sub]⟩
    · dsimp only
      rw [Nat.mod_add_mod]
      congr 1
      omega
    · rw [unread, hunread]
      dsimp only
      rw [rotate_mod_capacity hdata]
      exact prefix_rotate hbehind (hlength ▸ hn)
  · cases hconsume

/-! ## Rooms -/

/-- A place at most one turn past the end of the ring. -/
theorem mod_capacity {x : Nat} (h : x < capacity + capacity) :
    (x < capacity ∧ x % capacity = x) ∨ (capacity ≤ x ∧ x % capacity = x - capacity) := by
  by_cases hlt : x < capacity
  · exact .inl ⟨hlt, Nat.mod_eq_of_lt hlt⟩
  · rw [not_lt] at hlt
    refine .inr ⟨hlt, ?_⟩
    rw [Nat.mod_eq_sub_mod hlt, Nat.mod_eq_of_lt (by omega)]

/-- A room is behind the unread bytes, and ends before them and before the end of the
ring. -/
structure Fits (ring : Ring) (room : Room) : Prop where
  data : ring.data.length = capacity
  start : room.start = (ring.head + ring.size) % capacity
  free : room.length ≤ capacity - ring.size
  piece : room.start + room.length ≤ capacity

/-- No byte of a room is an unread one. -/
theorem Fits.disjoint {ring : Ring} {room : Room} (h : ring.WellFormed) (hfits : ring.Fits room)
    {i : Nat} (hi : i < ring.size) :
    (ring.head + i) % capacity < room.start ∨
      room.start + room.length ≤ (ring.head + i) % capacity := by
  have hhead := h.head
  have hsize := h.size
  have hstart := hfits.start
  have hfree := hfits.free
  have hunread := mod_capacity (show ring.head + i < capacity + capacity by omega)
  have hroom := mod_capacity (show ring.head + ring.size < capacity + capacity by omega)
  omega

/-- Bytes put behind the first `size` of the turned ring. -/
theorem rotate_overwrite {data bytes : Bytes} {head size : Nat} (hdata : data.length = capacity)
    (hhead : head < capacity) (hfree : size + bytes.length ≤ capacity)
    (hpiece : (head + size) % capacity + bytes.length ≤ capacity) :
    (overwrite data ((head + size) % capacity) bytes).rotate head =
      overwrite (data.rotate head) size bytes := by
  have hroom : (head + size) % capacity + bytes.length ≤ data.length := hdata ▸ hpiece
  have hturned : size + bytes.length ≤ (data.rotate head).length := by
    rw [List.length_rotate, hdata]
    exact hfree
  refine List.ext_getElem? fun i => ?_
  by_cases hi : i < capacity
  · have hindex := mod_capacity (show i + head < capacity + capacity by omega)
    have hstart := mod_capacity (show head + size < capacity + capacity by omega)
    rw [List.getElem?_rotate (by rw [length_overwrite hroom, hdata]; exact hi),
      length_overwrite hroom, hdata, getElem?_overwrite hroom, getElem?_overwrite hturned,
      List.getElem?_rotate (by rw [hdata]; exact hi), hdata]
    by_cases hin : size ≤ i ∧ i < size + bytes.length
    · rw [if_pos hin, if_pos (by omega)]
      congr 1
      omega
    · rw [if_neg hin, if_neg (by omega)]
  · rw [List.getElem?_eq_none, List.getElem?_eq_none]
    · rw [length_overwrite hturned, List.length_rotate, hdata]
      omega
    · rw [List.length_rotate, length_overwrite hroom, hdata]
      omega

/-- A ring that is not full gives a room, and its unread bytes stay. -/
theorem writable_spec (h : ring.WellFormed) (hfull : ring.full = false) :
    ∃ ring' room, ring.writable = some (ring', room) ∧ ring'.WellFormed ∧
      ring'.unread = ring.unread ∧ ring'.size = ring.size ∧ ring'.Fits room ∧
      0 < room.length := by
  have hhead := h.head
  have hsize := h.size
  have hfree : ring.size ≠ capacity := beq_eq_false_iff_ne.mp hfull
  obtain ⟨allocated, hallocated, hdata, hunread, hsame⟩ : ∃ allocated : Ring,
      allocated = (if ring.data = [] then { ring with data := growTo ring.data capacity }
        else ring) ∧ allocated.data.length = capacity ∧ allocated.unread = ring.unread ∧
        allocated.head = ring.head ∧ allocated.size = ring.size := by
    by_cases hnil : ring.data = []
    · have hzero : ring.size = 0 := by
        obtain hdata | ⟨-, hzero⟩ := h.data
        · rw [hnil, List.length_nil] at hdata
          exact absurd hdata (Nat.ne_of_lt capacity_pos)
        · exact hzero
      refine ⟨_, rfl, ?_⟩
      rw [if_pos hnil]
      refine ⟨length_growTo (by rw [hnil]; exact Nat.zero_le _), ?_, rfl, rfl⟩
      rw [unread, unread, hzero, List.take_zero, List.take_zero]
    · refine ⟨_, rfl, ?_⟩
      rw [if_neg hnil]
      exact ⟨h.data.resolve_right fun hempty => hnil hempty.1, rfl, rfl, rfl⟩
  obtain ⟨hhead', hsize'⟩ := hsame
  rw [writable, hfull, if_neg Bool.false_ne_true, ← hallocated]
  dsimp only
  by_cases hempty : allocated.size = 0
  · have hstart : (0 + allocated.size) % capacity = 0 := by rw [hempty, Nat.zero_add, Nat.zero_mod]
    refine ⟨{ allocated with head := 0 }, { start := 0, length := capacity }, ?_,
      ⟨capacity_pos, hsize' ▸ hsize, .inl hdata⟩, ?_, hsize', ⟨hdata, hstart.symm, ?_, ?_⟩,
      capacity_pos⟩
    · have hyes : allocated.empty = true := beq_iff_eq.mpr hempty
      rw [if_pos hyes]
      dsimp only
      rw [hstart, if_neg (Nat.lt_irrefl 0), Nat.sub_zero]
    · rw [← hunread, unread, unread, hempty, List.take_zero, List.take_zero]
    · exact Nat.le_of_eq (by rw [hempty, Nat.sub_zero])
    · exact Nat.le_of_eq (Nat.zero_add capacity)
  · have hturn := mod_capacity (show allocated.head + allocated.size < capacity + capacity by omega)
    have hnot : allocated.empty = false := beq_false_of_ne hempty
    rw [hnot, if_neg Bool.false_ne_true]
    refine ⟨allocated, _, rfl, ⟨hhead' ▸ hhead, hsize' ▸ hsize, .inl hdata⟩, hunread, hsize',
      ⟨hdata, rfl, ?_, ?_⟩, ?_⟩
    · dsimp only
      split <;> omega
    · dsimp only
      split <;> omega
    · dsimp only
      split <;> omega

/-- Bytes put into a room stand behind the unread ones, which stay. -/
theorem put_spec (h : ring.WellFormed) (hfits : ring.Fits room)
    (hbytes : bytes.length ≤ room.length) :
    (ring.put room bytes).WellFormed ∧ (ring.put room bytes).unread = ring.unread ∧
      (ring.put room bytes).Fits room ∧
      ring.unread ++ bytes <+: (ring.put room bytes).data.rotate ring.head := by
  have hsize := h.size
  have hfree := hfits.free
  have hpiece := hfits.piece
  have hroom : room.start + bytes.length ≤ ring.data.length := by
    rw [hfits.data]
    omega
  have hlength : (ring.put room bytes).data.length = capacity :=
    (length_overwrite hroom).trans hfits.data
  have hunread := length_unread h
  have hturned : (ring.put room bytes).data.rotate ring.head =
      overwrite (ring.data.rotate ring.head) ring.size bytes := by
    rw [put, hfits.start]
    exact rotate_overwrite hfits.data h.head (by omega) (by rw [← hfits.start]; omega)
  have hbehind : ring.unread ++ bytes <+: (ring.put room bytes).data.rotate ring.head := by
    rw [hturned, ← hunread]
    refine prefix_overwrite (List.take_prefix _ _) ?_
    rw [List.length_rotate, hfits.data]
    omega
  refine ⟨⟨h.head, h.size, .inl hlength⟩, ?_, ⟨hlength, hfits.start, hfree, hpiece⟩, hbehind⟩
  obtain ⟨rest, hrest⟩ := (List.prefix_append _ _).trans hbehind
  rw [unread, put]
  dsimp only
  rw [put] at hrest
  rw [← hrest, ← hunread, List.take_left]

/-- Committing adds the bytes that stand behind the unread ones. -/
theorem commit_spec (h : ring.WellFormed) (hfits : ring.Fits room)
    (hbytes : bytes.length ≤ room.length)
    (hbehind : ring.unread ++ bytes <+: ring.data.rotate ring.head) (hn : n ≤ bytes.length) :
    ∃ ring', ring.commit n = some ring' ∧ ring'.WellFormed ∧
      ring'.unread = ring.unread ++ bytes.take n ∧ ring'.size = ring.size + n := by
  have hsize := h.size
  have hfree := hfits.free
  have hle : n ≤ capacity - ring.size := by omega
  refine ⟨{ ring with size := ring.size + n }, if_pos hle, ⟨h.head, ?_, .inl hfits.data⟩, ?_, rfl⟩
  · dsimp only
    omega
  · obtain ⟨rest, hrest⟩ := hbehind
    have hcut : (ring.unread ++ bytes ++ rest).take (ring.size + n) =
        ring.unread ++ bytes.take n := by
      rw [← length_unread h, List.append_assoc, List.take_length_add_append,
        List.take_append_of_le_length hn]
    rw [← hcut, hrest, unread]

end Ring

/-! ## Every interleaving -/

/-- A ring in use: the room it gave last, until its commit, what has been put there, and all
that was committed and consumed. -/
structure Use where
  ring : Ring := {}
  room : Option Room := none
  filled : Bytes := []
  committed : Bytes := []
  consumed : Bytes := []

/-- What is done with a ring, looking at its readable bytes apart. -/
inductive Use.Action where
  | writable
  | put (bytes : Bytes)
  | commit (n : Nat)
  | consume (n : Nat)

namespace Use

/-- A room is asked of a ring that is not full, filled and committed up to its size, and
unread bytes alone are consumed. -/
def Possible (use : Use) : Action → Prop
  | .writable => use.ring.full = false
  | .put bytes => ∃ room, use.room = some room ∧ bytes.length ≤ room.length
  | .commit n => use.room ≠ none ∧ n ≤ use.filled.length
  | .consume n => n ≤ use.ring.size

/-- One step; none where it is not possible or an assertion fails. -/
def step (use : Use) : Action → Option Use
  | .writable =>
    use.ring.writable.map fun (ring, room) =>
      { use with ring := ring, room := some room, filled := [] }
  | .put bytes =>
    match use.room with
    | none => none
    | some room =>
      if bytes.length ≤ room.length then
        some { use with ring := use.ring.put room bytes, filled := bytes }
      else none
  | .commit n =>
    match use.room with
    | none => none
    | some _ =>
      if n ≤ use.filled.length then
        (use.ring.commit n).map fun ring =>
          { use with
            ring := ring, room := none, filled := [],
            committed := use.committed ++ use.filled.take n }
      else none
  | .consume n =>
    (use.ring.consume n).map fun ring =>
      { use with ring := ring, consumed := use.consumed ++ use.ring.unread.take n }

/-- The consumed bytes and the unread ones are those committed; a room that is given stays
disjoint from the unread bytes, and what has been put there stands behind them. -/
structure Valid (use : Use) : Prop where
  ring : use.ring.WellFormed
  bytes : use.consumed ++ use.ring.unread = use.committed
  room : ∀ room, use.room = some room → use.ring.Fits room ∧ use.filled.length ≤ room.length ∧
    use.ring.unread ++ use.filled <+: use.ring.data.rotate use.ring.head

theorem valid_start : Valid {} :=
  ⟨Ring.wellFormed_start, rfl, nofun⟩

variable {use : Use} {action : Action}

/-- What is possible is done, and keeps a ring in use valid. -/
theorem Valid.step (h : use.Valid) (hpossible : use.Possible action) :
    ∃ use', use.step action = some use' ∧ use'.Valid := by
  cases action with
  | writable =>
    obtain ⟨ring, room, hring, hwell, hunread, -, hfits, -⟩ :=
      Ring.writable_spec h.ring hpossible
    refine ⟨_, by rw [Use.step, hring, Option.map_some], hwell, ?_, ?_⟩
    · dsimp only
      rw [hunread, h.bytes]
    · intro room' hroom
      cases hroom
      refine ⟨hfits, Nat.zero_le _, ?_⟩
      dsimp only
      rw [List.append_nil]
      exact List.take_prefix _ _
  | put bytes =>
    obtain ⟨room, hroom, hbytes⟩ := hpossible
    obtain ⟨hfits, -, -⟩ := h.room room hroom
    obtain ⟨hwell, hunread, hfits', hbehind⟩ := Ring.put_spec h.ring hfits hbytes
    refine ⟨{ use with ring := use.ring.put room bytes, filled := bytes }, ?_, hwell, ?_, ?_⟩
    · rw [Use.step, hroom]
      exact if_pos hbytes
    · dsimp only
      rw [hunread, h.bytes]
    · intro room' hroom'
      obtain rfl : room = room' := Option.some.inj (hroom.symm.trans hroom')
      exact ⟨hfits', hbytes, by rw [hunread]; exact hbehind⟩
  | commit n =>
    obtain ⟨hsome, hn⟩ := hpossible
    obtain ⟨room, hroom⟩ := Option.ne_none_iff_exists'.mp hsome
    obtain ⟨hfits, hfilled, hbehind⟩ := h.room room hroom
    obtain ⟨ring, hring, hwell, hunread, -⟩ :=
      Ring.commit_spec h.ring hfits hfilled hbehind hn
    refine ⟨{ use with
      ring := ring, room := none, filled := [],
      committed := use.committed ++ use.filled.take n }, ?_, hwell, ?_, nofun⟩
    · rw [Use.step, hroom]
      dsimp only
      rw [if_pos hn, hring, Option.map_some]
    · dsimp only
      rw [hunread, ← List.append_assoc, h.bytes]
  | consume n =>
    have hring : use.ring.consume n = some { use.ring with
      size := use.ring.size - n, head := (use.ring.head + n) % capacity } := if_pos hpossible
    obtain ⟨hwell, hunread, hdata, hsize, hplace, hbehind⟩ := Ring.consume_spec h.ring hring
    refine ⟨_, by rw [Use.step, hring, Option.map_some], hwell, ?_, ?_⟩
    · dsimp only
      rw [hunread, List.append_assoc, List.take_append_drop, h.bytes]
    · intro room hroom
      obtain ⟨hfits, hfilled, hfront⟩ := h.room room hroom
      refine ⟨⟨hfits.data, ?_, ?_, hfits.piece⟩, hfilled, hbehind _ hfront⟩
      · rw [hplace]
        exact hfits.start
      · have hfree := hfits.free
        dsimp only at hsize ⊢
        omega

/-- Only what is possible is done. -/
theorem possible_of_step {use use' : Use} (h : use.step action = some use') :
    use.Possible action := by
  cases action with
  | writable =>
    obtain ⟨⟨ring, room⟩, hring, -⟩ := Option.map_eq_some_iff.mp h
    unfold Ring.writable at hring
    split at hring
    · cases hring
    · next hfull => exact Bool.eq_false_iff.mpr hfull
  | put bytes =>
    unfold Use.step at h
    dsimp only at h
    split at h
    · cases h
    · next room hroom =>
      split at h
      · next hbytes => exact ⟨room, hroom, hbytes⟩
      · cases h
  | commit n =>
    unfold Use.step at h
    dsimp only at h
    split at h
    · cases h
    · next room hroom =>
      split at h
      · next hn => exact ⟨by rw [hroom]; exact Option.some_ne_none _, hn⟩
      · cases h
  | consume n =>
    obtain ⟨ring, hring, -⟩ := Option.map_eq_some_iff.mp h
    unfold Ring.consume at hring
    split at hring
    · next hn => exact hn
    · cases hring

/-- Every run keeps a ring in use valid. -/
theorem Valid.reach (h : Reach Use.step {} use) : use.Valid := by
  refine h.invariant (fun {s s' a} hs hstep => ?_) valid_start
  obtain ⟨t, ht, hvalid⟩ := hs.step (possible_of_step hstep)
  rw [hstep] at ht
  cases ht
  exact hvalid

/-- No step but a commit adds unread bytes. -/
theorem Valid.size_le {use use' : Use} (h : use.Valid) (hstep : use.step action = some use')
    (hcommit : ∀ n, action ≠ .commit n) : use'.ring.size ≤ use.ring.size := by
  cases action with
  | writable =>
    obtain ⟨ring, room, hring, -, -, hsize, -⟩ :=
      Ring.writable_spec h.ring (possible_of_step hstep)
    rw [Use.step, hring] at hstep
    rw [← Option.some.inj hstep]
    exact Nat.le_of_eq hsize
  | put bytes =>
    unfold Use.step at hstep
    dsimp only at hstep
    split at hstep
    · cases hstep
    · split at hstep
      · rw [← Option.some.inj hstep]
        exact Nat.le_refl _
      · cases hstep
  | commit n => exact absurd rfl (hcommit n)
  | consume n =>
    obtain ⟨ring, hring, rfl⟩ := Option.map_eq_some_iff.mp hstep
    obtain ⟨-, -, -, hsize, -⟩ := Ring.consume_spec h.ring hring
    dsimp only
    omega

/-- A ring that is not full takes a byte. -/
theorem Valid.takes (h : use.Valid) (hfull : use.ring.full = false) (byte : UInt8) :
    ∃ asked filled landed, use.step .writable = some asked ∧
      asked.step (.put [byte]) = some filled ∧ filled.step (.commit 1) = some landed := by
  obtain ⟨ring, room, hring, -, -, -, -, hroom⟩ := Ring.writable_spec h.ring hfull
  have hasked : use.step .writable = some { use with ring, room := some room, filled := [] } := by
    rw [Use.step, hring, Option.map_some]
  have hput : Use.step { use with ring, room := some room, filled := [] } (.put [byte]) =
      some { use with ring := ring.put room [byte], room := some room, filled := [byte] } :=
    if_pos hroom
  obtain ⟨asked, hasked', hvalid⟩ := h.step (show use.Possible .writable from hfull)
  obtain rfl := Option.some.inj (hasked.symm.trans hasked')
  obtain ⟨filled, hput', hvalid'⟩ := hvalid.step (possible_of_step hput)
  obtain rfl := Option.some.inj (hput.symm.trans hput')
  obtain ⟨landed, hcommit, -⟩ := hvalid'.step
    (show Possible _ (.commit 1) from ⟨Option.some_ne_none _, Nat.le_refl 1⟩)
  exact ⟨_, _, landed, hasked, hput, hcommit⟩

end Use

end Kotatsu.Async.Io
