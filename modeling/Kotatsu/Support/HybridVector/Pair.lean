import Kotatsu.Support.HybridVector.Assign

/-!
# Two hybrid_vectors

An operation on a vector and another one takes the other's allocation, or its elements one
by one; a swap exchanges allocations, or elements where one of them has none.
-/

namespace Kotatsu.Support.HybridVector

open Kotatsu.Core Kotatsu.Core.Slots

/-- Two vectors while an operation is under way. -/
structure Pair (α : Type) where
  self : Header
  peer : Header
  memory : Memory α

namespace State

variable {α : Type} (z : Sizes) (inlineCapacity : Nat) (s : State α)

/-- A vector is destroyed, and another constructed in its place. -/
def construct : Option (State α) :=
  s.destroyElements.bind fun s => (s.header.resetToSmall z inlineCapacity).map fun header =>
    { header, memory := openBlock s.memory .own inlineCapacity }

/-- `reclaim_inline_buffer`. -/
def reclaimInlineBuffer : Option (State α) :=
  if s.header.onHeap = false ∧ s.header.room = 0 then
    (s.header.resetToSmall z inlineCapacity).map fun header =>
      { header, memory := openBlock s.memory .own inlineCapacity }
  else some s

end State

namespace Pair

variable {α : Type} (husk : α → α) (z : Sizes) (choose : Allocator) (p : Pair α)

/-- The vectors change their parts. -/
def flip : Pair α where
  self := p.peer
  peer := p.self
  memory := HybridVector.flip p.memory

/-- The vector that an operation is called on. -/
def state : State α := ⟨p.self, p.memory⟩

/-- The vectors after an operation on that one. -/
def set (s : State α) : Pair α := { p with self := s.header, memory := s.memory }

/-- The other is cleared. -/
def clearPeer : Option (Pair α) :=
  p.flip.state.destroyElements.map fun s => (p.flip.set s).flip

/-- `append` of another's copies. -/
def appendCopy : Option (Outcome (Pair α)) :=
  (p.state.appendSources husk z choose (Place.copies ⟨.other, 0⟩ p.peer.used)).map (·.map p.set)

/-- `append` of another, which is moved. -/
def appendMove : Option (Outcome (Pair α)) :=
  (p.state.appendSources husk z choose (Place.moves ⟨.other, 0⟩ p.peer.used)).bind fun
    | .threw s => some (.threw (p.set s))
    | .done s => (p.set s).clearPeer.map .done

/-- `take_allocation`, which may not take it. -/
def takeAllocation (otherInlineCapacity : Nat) : Option (Option (Pair α)) :=
  if p.peer.onHeap = false ∨ p.peer.head = p.self.inline then some none
  else
    (p.peer.resetToSmall z otherInlineCapacity).bind fun peer =>
      (p.state.adoptAllocation z .other p.peer.head p.peer.used p.peer.room).map fun s =>
        some { self := s.header, peer, memory := openBlock s.memory .other otherInlineCapacity }

/-- `take_elements`. -/
def takeElements (otherInlineCapacity : Nat) : Option (Outcome (Pair α)) :=
  (p.takeAllocation z otherInlineCapacity).bind fun
    | some p => some (.done p)
    | none => p.appendMove husk z choose

/-- `move_assign`. -/
def moveAssign (otherInlineCapacity : Nat) : Option (Outcome (Pair α)) :=
  (p.takeAllocation z otherInlineCapacity).bind fun
    | some p => some (.done p)
    | none =>
      (p.state.assignItems husk z choose (Place.moves ⟨.other, 0⟩ p.peer.used)).bind fun
        | .threw s => some (.threw (p.set s))
        | .done s => (p.set s).clearPeer.map .done

/-- The copying assignment. -/
def copyAssign : Option (Outcome (Pair α)) :=
  (p.state.assignItems husk z choose (Place.copies ⟨.other, 0⟩ p.peer.used)).map (·.map p.set)

/-- What the longer of two vectors has more than the `shared` elements is moved to the
shorter one. -/
def spill (shared : Nat) : Option (Pair α) :=
  (checkedSub p.self.used shared).bind fun n =>
    (p.memory.constructEach husk ⟨.other, p.peer.used⟩ (Place.moves ⟨.own, shared⟩ n)).bind
      fun memory =>
        (p.peer.setSize z p.self.used).bind fun peer =>
          (State.truncate z ⟨p.self, memory⟩ shared).map fun s =>
            { self := s.header, peer, memory := s.memory }

/-- The elements of two vectors that have room for each other's are swapped. -/
def exchange : Option (Pair α) :=
  let shared := min p.self.used p.peer.used
  (p.memory.swapEach ⟨.own, 0⟩ ⟨.other, 0⟩ shared).bind fun memory =>
    if p.peer.used < p.self.used then spill husk z { p with memory } shared
    else (spill husk z (flip { p with memory }) shared).map flip

/-- `swap`. -/
def swap : Option (Outcome (Pair α)) :=
  if p.self.onHeap ∧ p.peer.onHeap ∧ p.self.head ≠ p.peer.inline ∧
      p.peer.head ≠ p.self.inline then
    some (.done {
      self := { p.peer with inline := p.self.inline }
      peer := { p.self with inline := p.peer.inline }
      memory := HybridVector.flip p.memory })
  else
    (p.state.reserve husk z choose p.peer.used).bind fun
      | .threw s => some (.threw (p.set s))
      | .done s =>
        ((p.set s).flip.state.reserve husk z choose (p.set s).self.used).bind fun
          | .threw t => some (.threw ((p.set s).flip.set t).flip)
          | .done t => (exchange husk z ((p.set s).flip.set t).flip).map .done

end Pair

variable {α : Type}

/-- An operation on a vector and another one, of inline capacities that their types have. -/
def Pairing.run (husk : α → α) (z : Sizes) (choose : Allocator) (inlineCapacity other : Nat)
    (p : Pair α) : Pairing → Option (Outcome (Pair α))
  | .appendCopy => p.appendCopy husk z choose
  | .appendMove => p.appendMove husk z choose
  | .copyAssign => p.copyAssign husk z choose
  | .moveAssign false => p.moveAssign husk z choose 0
  | .moveAssign true => (p.state.reclaimInlineBuffer z inlineCapacity).bind fun s =>
    (p.set s).moveAssign husk z choose other
  | .swap => p.swap husk z choose
  | .copyConstruct => (p.state.construct z inlineCapacity).bind fun s =>
    (p.set s).appendCopy husk z choose
  | .moveConstruct small => (p.state.construct z inlineCapacity).bind fun s =>
    (p.set s).takeElements husk z choose (if small then other else 0)

/-! ## What two vectors keep -/

/-- Two vectors of two lists. -/
structure Pair.Stores (z : Sizes) (p : Pair α) (xs ys : List α) : Prop where
  own : Keeps z p.self p.memory .own xs
  other : Keeps z p.peer p.memory .other ys

/-- An operation is defined, and does to two vectors what is meant to happen to the lists. -/
def DoesBoth (z : Sizes) (op : Option (Outcome (Pair α)))
    (result : Outcome (List α × List α)) : Prop :=
  ∃ out, op = some out ∧ out.Rel (fun p lists => p.Stores z lists.1 lists.2) result

variable {h : Header} {b : Block} {m : Memory α}

section

variable {f : α → α} {z : Sizes} {g : Allocator} {p : Pair α} {s : State α}
  {xs ys : List α} {cap : Nat}

theorem Pair.Stores.flip (hp : p.Stores z xs ys) : p.flip.Stores z ys xs :=
  ⟨⟨hp.other.holds, hp.other.used, hp.other.room, hp.other.le_room, hp.other.le_max⟩,
    ⟨hp.own.holds, hp.own.used, hp.own.room, hp.own.le_room, hp.own.le_max⟩⟩

/-- A vector's block that an operation on the other leaves. -/
theorem Keeps.of_same {m m' : Memory α} (hk : Keeps z h m b xs) (hsame : Same m m' b) :
    Keeps z h m' b xs :=
  ⟨hk.holds.of_slot hsame.2, hk.used, hk.room.trans hsame.1.symm, hk.le_room, hk.le_max⟩

/-- The other is cleared, whatever is left of its elements. -/
theorem clearPeer_spec (hp : p.Stores z xs ys) :
    ∃ p', p.clearPeer = some p' ∧ p'.Stores z xs [] := by
  obtain ⟨s, heq, hs, -, hsame⟩ := destroyElements_spec (s := p.flip.state) hp.flip.own
  rw [Pair.clearPeer, heq, Option.map_some]
  have hother : Keeps z p.self s.memory .other xs :=
    hp.flip.other.of_same (hsame .other (by decide))
  have hboth : (p.flip.set s).Stores z [] xs := ⟨hs, hother⟩
  exact ⟨_, rfl, hboth.flip⟩

theorem holds_moved (hm : m.Holds b ys) : (m.put ⟨b, 0⟩ (ys.map f)).Holds b (ys.map f) := by
  have hparts : m.Holds b ([] ++ ys ++ []) := by
    rw [List.nil_append, List.append_nil]
    exact hm
  have hleft := hparts.put_part (ys.map f) (List.length_map _).symm
  rw [List.nil_append, List.append_nil] at hleft
  exact hleft

theorem appendCopy_does (hp : p.Stores z xs ys) :
    DoesBoth z (p.appendCopy f z g) (Pairing.appendCopy.effect z xs ys) := by
  have hfeeds : p.memory.Feeds (Place.copies ⟨.other, 0⟩ ys.length) ys none :=
    (live_of_holds hp.other.holds).feeds_copies
  rw [Pair.appendCopy, hp.other.used, Pairing.effect]
  by_cases hfits : xs.length + ys.length ≤ z.maxSize
  · obtain ⟨s, heq, hs, -, hsame⟩ := appendSources_spec (s := p.state) (f := f)
      (g := g) hp.own hfeeds (avoids_copies (by decide)) hp.own.holds rfl hfits
    rw [heq, if_pos hfits]
    exact ⟨_, rfl, .done ⟨hs, hp.other.of_same (hsame .other (by decide) (by decide))⟩⟩
  · have hlong : z.maxSize < xs.length +
        (Place.copies ⟨.other, 0⟩ ys.length : List (Source Block α)).length := by
      rw [Place.length_copies]
      exact Nat.not_le.mp hfits
    rw [appendSources_threw (s := p.state) hp.own hlong, if_neg hfits]
    exact ⟨_, rfl, .threw hp⟩

theorem feeds_moves (hm : m.Holds b ys) :
    m.Feeds (Place.moves ⟨b, 0⟩ ys.length) ys (some ⟨b, 0⟩) := ⟨rfl, live_of_holds hm⟩

/-- What moving all the elements of the other leaves of it. -/
theorem Keeps.moved {m m' : Memory α} (hk : Keeps z h m b ys)
    (hsame : Same (m.drain f ys (some ⟨b, 0⟩)) m' b) : Keeps z h m' b (ys.map f) := by
  refine ⟨(holds_moved hk.holds).of_slot hsame.2, ?_, hk.room.trans hsame.1.symm, ?_, hk.le_max⟩
  · rw [hk.used, List.length_map]
  · rw [List.length_map]
    exact hk.le_room

theorem appendMove_does (hp : p.Stores z xs ys) :
    DoesBoth z (p.appendMove f z g) (Pairing.appendMove.effect z xs ys) := by
  have hfeeds := feeds_moves hp.other.holds
  rw [Pair.appendMove, hp.other.used, Pairing.effect]
  by_cases hfits : xs.length + ys.length ≤ z.maxSize
  · have hown : (p.memory.drain f ys (some ⟨.other, 0⟩)).Holds .own xs :=
      hp.own.holds.of_slot (slot_put_other (by decide))
    obtain ⟨s, heq, hs, -, hsame⟩ := appendSources_spec (s := p.state) (f := f)
      (g := g) hp.own hfeeds (avoids_moves (by decide)) hown rfl hfits
    have hboth : (p.set s).Stores z (xs ++ ys) (ys.map f) :=
      ⟨hs, hp.other.moved (hsame .other (by decide) (by decide))⟩
    obtain ⟨p', hp', hclear⟩ := clearPeer_spec hboth
    rw [heq, Option.bind_some, if_pos hfits]
    dsimp only
    rw [hp']
    exact ⟨_, rfl, .done hclear⟩
  · have hlong : z.maxSize < xs.length +
        (Place.moves ⟨.other, 0⟩ ys.length : List (Source Block α)).length := by
      rw [Place.length_moves]
      exact Nat.not_le.mp hfits
    rw [appendSources_threw (s := p.state) hp.own hlong, if_neg hfits]
    exact ⟨_, rfl, .threw hp⟩

theorem Header.resetToSmall_eq (h : Header) (hcap : cap ≤ z.maxSize) :
    h.resetToSmall z cap = some { h with head := h.inline, used := 0, room := cap } := by
  rw [Header.resetToSmall, Sizes.toCompact_eq hcap, Option.map_some]

theorem keeps_small (m : Memory α) (hcap : cap ≤ z.maxSize) :
    Keeps z { h with head := h.inline, used := 0, room := cap } (openBlock m b cap) b [] :=
  ⟨holds_openBlock b m cap, rfl, (room_openBlock_self b m cap).symm, Nat.zero_le _, hcap⟩

/-- The other's allocation is taken, or nothing is done. -/
theorem takeAllocation_spec (hp : p.Stores z xs ys) (hcap : cap ≤ z.maxSize) :
    p.takeAllocation z cap = some none ∨
      ∃ p', p.takeAllocation z cap = some (some p') ∧ p'.Stores z ys [] := by
  rw [Pair.takeAllocation]
  by_cases htake : p.peer.onHeap = false ∨ p.peer.head = p.self.inline
  · exact .inl (if_pos htake)
  · obtain ⟨s, heq, hs, -⟩ := adoptAllocation_spec (z := z) (s := p.state) (b := .other)
      p.peer.head (by decide) hp.own.used hp.own.live hp.other.holds hp.other.room.symm
      hp.other.le_room hp.other.le_max
    rw [if_neg htake, Header.resetToSmall_eq _ hcap, Option.bind_some, hp.other.used, heq,
      Option.map_some]
    refine .inr ⟨_, rfl, ?_, keeps_small s.memory hcap⟩
    exact Keeps.of_same hs ⟨room_openBlock (by decide) _ _, slot_openBlock (by decide) _ _⟩

theorem takeElements_does (hp : p.Stores z [] ys) (hcap : cap ≤ z.maxSize) :
    DoesBoth z (p.takeElements f z g cap) (.done (ys, [])) := by
  rw [Pair.takeElements]
  obtain hnone | ⟨p', hp', htaken⟩ := takeAllocation_spec hp hcap
  · have hall := appendMove_does (f := f) (g := g) hp
    rw [Pairing.effect, if_pos (by rw [List.length_nil, Nat.zero_add]; exact hp.other.le)] at hall
    rw [hnone, Option.bind_some]
    exact hall
  · rw [hp', Option.bind_some]
    exact ⟨_, rfl, .done htaken⟩

theorem moveAssign_does (hp : p.Stores z xs ys) (hcap : cap ≤ z.maxSize) :
    DoesBoth z (p.moveAssign f z g cap) (.done (ys, [])) := by
  rw [Pair.moveAssign]
  obtain hnone | ⟨p', hp', htaken⟩ := takeAllocation_spec hp hcap
  · obtain ⟨s, heq, hs, hsame⟩ := assignItems_spec (s := p.state) (f := f)
      (g := g) hp.own (feeds_moves hp.other.holds) (avoids_moves (by decide))
      (avoids_moves (by decide)) hp.other.le
    have hboth : (p.set s).Stores z ys (ys.map f) :=
      ⟨hs, hp.other.moved (hsame .other (by decide) (by decide))⟩
    obtain ⟨p', hp', hclear⟩ := clearPeer_spec hboth
    rw [hnone, Option.bind_some]
    dsimp only
    rw [hp.other.used, heq, Option.bind_some]
    dsimp only
    rw [hp']
    exact ⟨_, rfl, .done hclear⟩
  · rw [hp', Option.bind_some]
    exact ⟨_, rfl, .done htaken⟩

theorem copyAssign_does (hp : p.Stores z xs ys) :
    DoesBoth z (p.copyAssign f z g) (.done (ys, ys)) := by
  obtain ⟨s, heq, hs, hsame⟩ := assignItems_spec (s := p.state) (f := f)
    (g := g) hp.own ((live_of_holds hp.other.holds).feeds_copies) (avoids_copies (by decide))
    (avoids_copies (by decide)) hp.other.le
  rw [Pair.copyAssign, hp.other.used, heq]
  exact ⟨_, rfl, .done ⟨hs, hp.other.of_same (hsame .other (by decide) (by decide))⟩⟩

/-! ## Construction -/

/-- What is in the place of a vector is another one, and empty. -/
theorem construct_spec (hs : Stores z s xs) (hcap : cap ≤ z.maxSize) :
    ∃ s', s.construct z cap = some s' ∧ Stores z s' [] ∧
      ∀ c, c ≠ .own → Same s.memory s'.memory c := by
  obtain ⟨t, heq, -, -, hsame⟩ := destroyElements_spec hs
  rw [State.construct, heq, Option.bind_some, Header.resetToSmall_eq _ hcap, Option.map_some]
  refine ⟨_, rfl, keeps_small t.memory hcap, fun c hc => (hsame c hc).trans ⟨?_, ?_⟩⟩
  · exact room_openBlock hc _ _
  · exact slot_openBlock hc _ _

/-- A vector that has no room gets its inline buffer back. -/
theorem reclaimInlineBuffer_spec (hs : Stores z s xs) (hcap : cap ≤ z.maxSize) :
    ∃ s', s.reclaimInlineBuffer z cap = some s' ∧ Stores z s' xs ∧
      ∀ c, c ≠ .own → Same s.memory s'.memory c := by
  rw [State.reclaimInlineBuffer]
  by_cases hempty : s.header.onHeap = false ∧ s.header.room = 0
  · have hle := hs.le_room
    rw [hempty.2] at hle
    obtain rfl : xs = [] := List.length_eq_zero_iff.mp (Nat.le_zero.mp hle)
    rw [if_pos hempty, Header.resetToSmall_eq _ hcap, Option.map_some]
    refine ⟨_, rfl, keeps_small s.memory hcap, fun c hc => ⟨?_, ?_⟩⟩
    · exact room_openBlock hc _ _
    · exact slot_openBlock hc _ _
  · rw [if_neg hempty]
    exact ⟨s, rfl, hs, fun _ _ => ⟨rfl, rfl⟩⟩

/-! ## Swapping -/

theorem Pair.Stores.set {s' : State α} (hp : p.Stores z xs ys) {xs' : List α}
    (hs : HybridVector.Stores z s' xs') (hsame : Same p.memory s'.memory .other) :
    (p.set s').Stores z xs' ys := ⟨hs, hp.other.of_same hsame⟩

/-- What one of two vectors has more than the other is moved. -/
theorem spill_spec {extra : List α} (hp : p.Stores z (xs ++ extra) ys)
    (hlength : ys.length = xs.length) (hroom : (xs ++ extra).length ≤ p.peer.room) :
    ∃ p', p.spill f z xs.length = some p' ∧ p'.Stores z xs (ys ++ extra) := by
  have hused : p.self.used = xs.length + extra.length := by
    rw [hp.own.used, List.length_append]
  have hsub : checkedSub p.self.used xs.length = some extra.length := by
    rw [checkedSub_of_le (by omega), hused, Nat.add_sub_cancel_left]
  have hparts : p.memory.Holds .own (xs ++ extra ++ []) := by
    rw [List.append_nil]
    exact hp.own.holds
  have hspace : ys.length + extra.length ≤ p.memory.room .other := by
    rw [← hp.other.room, hlength, ← List.length_append]
    exact hroom
  obtain ⟨m', hm', hown, hother, hrooms, -⟩ :=
    hparts.move_other (f := f) hp.other.holds (by decide) hspace
  rw [List.append_nil] at hown
  have hkeeps : Stores z (⟨p.self, m'⟩ : State α) (xs ++ extra.map f) := by
    refine ⟨hown, ?_, hp.own.room.trans (congrFun hrooms .own).symm, ?_, hp.own.le_max⟩
    · rw [hused, List.length_append, List.length_map]
    · have hle := hp.own.le_room
      rwa [List.length_append, List.length_map, ← List.length_append]
  obtain ⟨s', heq, hs', -, hsame⟩ := truncate_spec hkeeps
  have hpeer : p.self.used ≤ p.peer.room := by
    rw [hp.own.used]
    exact hroom
  rw [Pair.spill, hsub, Option.bind_some, hp.other.used, hm', Option.bind_some,
    Header.setSize_eq hpeer hp.other.le_max, Option.bind_some, heq, Option.map_some]
  refine ⟨_, rfl, hs', ?_⟩
  have hboth : Keeps z { p.peer with used := p.self.used } m' .other (ys ++ extra) := by
    refine ⟨hother, ?_, hp.other.room.trans (congrFun hrooms .other).symm, ?_, hp.other.le_max⟩
    · rw [List.length_append, hlength]
      exact hused
    · rw [List.length_append, hlength]
      exact hused ▸ hpeer
  exact hboth.of_same (hsame .other (by decide))

/-- The elements that both vectors have are swapped. -/
theorem swapEach_spec {xs' ys' : List α} (hp : p.Stores z (xs ++ xs') (ys ++ ys'))
    (hlength : xs.length = ys.length) :
    ∃ m, p.memory.swapEach ⟨.own, 0⟩ ⟨.other, 0⟩ xs.length = some m ∧
      Pair.Stores z { p with memory := m } (ys ++ xs') (xs ++ ys') := by
  have hown : p.memory.Holds .own ([] ++ xs ++ xs') := hp.own.holds
  have hother : p.memory.Holds .other ([] ++ ys ++ ys') := hp.other.holds
  refine ⟨_, swapEach_eq hown.live hother.live hlength (by decide), ⟨?_, ?_, ?_, ?_, ?_⟩, ?_⟩
  · have hput : (p.memory.put ⟨.own, 0⟩ ys).Holds .own ([] ++ ys ++ xs') :=
      hown.put_part ys hlength
    exact hput.put_other (by decide)
  · rw [hp.own.used, List.length_append, List.length_append, hlength]
  · exact hp.own.room
  · have hle := hp.own.le_room
    rwa [List.length_append, hlength, ← List.length_append] at hle
  · exact hp.own.le_max
  · have hleft : (p.memory.put ⟨.own, 0⟩ ys).Holds .other ([] ++ ys ++ ys') :=
      hother.put_other (by decide)
    refine ⟨hleft.put_part xs hlength.symm, ?_, hp.other.room, ?_, hp.other.le_max⟩
    · rw [hp.other.used, List.length_append, List.length_append, hlength]
    · have hle := hp.other.le_room
      rwa [List.length_append, ← hlength, ← List.length_append] at hle

/-- Vectors that have room for each other's elements exchange them. -/
theorem exchange_spec (hp : p.Stores z xs ys) (hself : ys.length ≤ p.self.room)
    (hpeer : xs.length ≤ p.peer.room) :
    ∃ p', p.exchange f z = some p' ∧ p'.Stores z ys xs := by
  rw [Pair.exchange, hp.own.used, hp.other.used]
  by_cases hlonger : ys.length < xs.length
  · have hmin : min xs.length ys.length = (xs.take ys.length).length := by
      rw [List.length_take, Nat.min_comm]
    have hfront : (xs.take ys.length).length = ys.length := by
      rw [List.length_take, Nat.min_eq_left (Nat.le_of_lt hlonger)]
    have hparts : p.Stores z (xs.take ys.length ++ xs.drop ys.length) (ys ++ []) := by
      rw [List.take_append_drop, List.append_nil]
      exact hp
    obtain ⟨m, hm, hswapped⟩ := swapEach_spec hparts hfront
    rw [List.append_nil] at hswapped
    have hspace : (ys ++ xs.drop ys.length).length ≤ p.peer.room := by
      rw [List.length_append, List.length_drop]
      omega
    obtain ⟨p', hp', hspilled⟩ := spill_spec (f := f) hswapped hfront hspace
    rw [List.take_append_drop] at hspilled
    rw [hmin, hm, Option.bind_some, if_pos hlonger, hfront]
    exact ⟨p', hp', hspilled⟩
  · have hle : xs.length ≤ ys.length := Nat.not_lt.mp hlonger
    have hfront : xs.length = (ys.take xs.length).length := by
      rw [List.length_take, Nat.min_eq_left hle]
    have hparts : p.Stores z (xs ++ []) (ys.take xs.length ++ ys.drop xs.length) := by
      rw [List.take_append_drop, List.append_nil]
      exact hp
    obtain ⟨m, hm, hswapped⟩ := swapEach_spec hparts hfront
    rw [List.append_nil] at hswapped
    have hspace : (xs ++ ys.drop xs.length).length ≤ p.self.room := by
      rw [List.length_append, List.length_drop]
      omega
    obtain ⟨p', hp', hspilled⟩ := spill_spec (f := f) hswapped.flip hfront.symm hspace
    rw [List.take_append_drop] at hspilled
    rw [Nat.min_eq_left hle, hm, Option.bind_some, if_neg hlonger, hp', Option.map_some]
    exact ⟨_, rfl, hspilled.flip⟩

theorem swap_does (hp : p.Stores z xs ys) : DoesBoth z (p.swap f z g) (.done (ys, xs)) := by
  rw [Pair.swap]
  by_cases hheap : p.self.onHeap ∧ p.peer.onHeap ∧ p.self.head ≠ p.peer.inline ∧
      p.peer.head ≠ p.self.inline
  · rw [if_pos hheap]
    refine ⟨_, rfl, .done ⟨?_, ?_⟩⟩
    · exact ⟨hp.other.holds, hp.other.used, hp.other.room, hp.other.le_room, hp.other.le_max⟩
    · exact ⟨hp.own.holds, hp.own.used, hp.own.room, hp.own.le_room, hp.own.le_max⟩
  · obtain ⟨s, heq, hs, hself, hsame⟩ := reserve_spec (s := p.state) (g := g) (f := f) hp.own
      hp.other.le
    have hset : (p.set s).Stores z xs ys := hp.set hs (hsame .other (by decide) (by decide))
    obtain ⟨t, hteq, ht, hpeer, hkept⟩ := reserve_spec (s := (p.set s).flip.state) (g := g) (f := f)
      hset.flip.own hset.own.le
    have hboth : ((p.set s).flip.set t).Stores z ys xs :=
      hset.flip.set ht (hkept .other (by decide) (by decide))
    obtain ⟨p', hp', hswapped⟩ := exchange_spec (f := f) hboth.flip hself hpeer
    rw [if_neg hheap, hp.other.used, heq, Option.bind_some]
    dsimp only
    rw [hset.own.used, hteq, Option.bind_some]
    dsimp only
    rw [hp', Option.map_some]
    exact ⟨_, rfl, .done hswapped⟩

/-! ## Every operation on two vectors -/

/-- An operation on two vectors has its effect on the two lists. -/
theorem Pairing.run_does (pairing : Pairing) {other : Nat} (hp : p.Stores z xs ys)
    (hcap : cap ≤ z.maxSize) (hother : other ≤ z.maxSize) :
    DoesBoth z (pairing.run f z g cap other p) (pairing.effect z xs ys) := by
  have hlist : ([] : List α).length + ys.length ≤ z.maxSize := by
    rw [List.length_nil, Nat.zero_add]
    exact hp.other.le
  cases pairing with
  | appendCopy => exact appendCopy_does hp
  | appendMove => exact appendMove_does hp
  | copyAssign => exact copyAssign_does hp
  | moveAssign small =>
    cases small with
    | false => exact moveAssign_does hp (Nat.zero_le _)
    | true =>
      obtain ⟨s, heq, hs, hsame⟩ := reclaimInlineBuffer_spec (s := p.state) hp.own hcap
      rw [Pairing.run, heq, Option.bind_some]
      exact moveAssign_does (hp.set hs (hsame .other (by decide))) hother
  | swap => exact swap_does hp
  | copyConstruct =>
    obtain ⟨s, heq, hs, hsame⟩ := construct_spec (s := p.state) hp.own hcap
    have hdoes := appendCopy_does (f := f) (g := g) (hp.set hs (hsame .other (by decide)))
    rw [Pairing.effect, if_pos hlist] at hdoes
    rw [Pairing.run, heq, Option.bind_some]
    exact hdoes
  | moveConstruct small =>
    obtain ⟨s, heq, hs, hsame⟩ := construct_spec (s := p.state) hp.own hcap
    rw [Pairing.run, heq, Option.bind_some]
    refine takeElements_does (hp.set hs (hsame .other (by decide))) ?_
    split
    · exact hother
    · exact Nat.zero_le _

end

end Kotatsu.Support.HybridVector
