import Kotatsu.Core.Bytes
import Kotatsu.Core.Slots

/-!
# hybrid_vector

The operations of `hybrid_vector` on the memory they use: the vector's buffer, an allocation
that is to replace it, another vector's buffer, and copies of an argument. What a program
may not do (reading an element that is not there, constructing over one, a size that wraps)
has no result.
-/

namespace Kotatsu.Support.HybridVector

open Kotatsu.Core

/-- The blocks of memory an operation uses. -/
inductive Block where
  | own
  | fresh
  | other
  | copies
deriving DecidableEq

abbrev Memory (α : Type) := Slots Block α

/-- The integers of an element type: sizes stay below `word`, those kept in a vector, which
hold any `unsigned int`, are at most `compact`, and an element takes `bytes`. -/
structure Sizes where
  word : Nat
  compact : Nat
  bytes : Nat
  word_pos : 0 < word
  uint_le : 2 ^ 32 - 1 ≤ compact
  bytes_pos : 0 < bytes

/-- The fields of a vector, and where its inline buffer is. -/
structure Header where
  head : Nat
  inline : Nat
  used : Nat
  room : Nat
deriving DecidableEq

/-- Where a vector's allocations of a room are, the first of them and the next. -/
abbrev Allocator := Header → Nat → Nat × Nat

/-- A vector while an operation is under way. -/
structure State (α : Type) where
  header : Header
  memory : Memory α

/-- What an operation comes to: it returns, or throws `std::length_error`. -/
inductive Outcome (σ : Type) where
  | done (state : σ)
  | threw (state : σ)

/-- What an operation comes to, in another form. -/
def Outcome.map {σ τ : Type} (f : σ → τ) : Outcome σ → Outcome τ
  | .done s => .done (f s)
  | .threw s => .threw (f s)

/-- The state an operation leaves. -/
def Outcome.state {σ : Type} : Outcome σ → σ
  | .done s | .threw s => s

/-- What the check of a size throws. -/
inductive LengthError where
  | capacityOverflow
deriving DecidableEq

/-- A value, or a reference to an element of the vector. -/
inductive Item (α : Type) where
  | value (a : α)
  | element (i : Nat)
deriving DecidableEq

/-- An argument: a value or a reference to copy, or an element to move. -/
inductive Arg (α : Type) where
  | item (x : Item α)
  | moved (i : Nat)
deriving DecidableEq

/-- What a range supports. -/
inductive Category where
  | single
  | forward
  | contiguous
deriving DecidableEq

/-- A range of references to values elsewhere or to elements of the vector. A contiguous one
is of values elsewhere, or a view of consecutive elements. -/
inductive Range (α : Type) where
  | single (items : List (Item α))
  | forward (items : List (Item α))
  | contiguous (values : List α)
  | view (first count : Nat)

namespace Item

variable {α : Type}

def source : Item α → Source Block α
  | .value a => .value a
  | .element i => .copy ⟨.own, i⟩

/-- `references_elements`, of what an item refers to. -/
def references (used : Nat) : Item α → Bool
  | .value _ => false
  | .element i => i < used

def isElement : Item α → Bool
  | .value _ => false
  | .element _ => true

/-- An item that is moved. -/
def moved : Item α → Source Block α
  | .value a => .value a
  | .element i => .move ⟨.own, i⟩

end Item

def Arg.source {α : Type} : Arg α → Source Block α
  | .item x => x.source
  | .moved i => .move ⟨.own, i⟩

namespace Range

variable {α : Type}

def category : Range α → Category
  | .single _ => .single
  | .forward _ => .forward
  | .contiguous _ | .view _ _ => .contiguous

def items : Range α → List (Item α)
  | .single items | .forward items => items
  | .contiguous values => values.map .value
  | .view first count => (List.range' first count).map .element

/-- `range_references_elements`. -/
def references (range : Range α) (used : Nat) : Bool :=
  match range.category with
  | .contiguous =>
    range.items.head?.any (·.references used) || range.items.getLast?.any (·.references used)
  | _ => range.items.any (·.references used)

end Range

/-! ## Sizes -/

namespace Sizes

variable (z : Sizes)

/-- `max_size`. -/
def maxSize : Nat := min z.compact ((z.word - 1) / z.bytes)

/-- A sum that does not wrap. -/
def add (a b : Nat) : Option Nat := if a + b < z.word then some (a + b) else none

/-- A size that `compact_size_type` holds. -/
def toCompact (a : Nat) : Option Nat := if a ≤ z.compact then some a else none

/-- `checked_size`. -/
def checkedSize (base extra : Nat) : Option (Except LengthError Nat) :=
  (checkedSub z.maxSize base).bind fun left =>
    if left < extra then some (.error .capacityOverflow) else (z.add base extra).map .ok

/-- `next_capacity`. -/
def nextCapacity (room minCapacity : Nat) : Option (Except LengthError Nat) :=
  if z.maxSize < minCapacity then some (.error .capacityOverflow)
  else if z.maxSize / 2 < room then some (.ok (max z.maxSize minCapacity))
  else (z.add room room).map fun doubled => .ok (max (max doubled 1) minCapacity)

end Sizes

/-! ## Memory -/

section

variable {α : Type}

/-- A block of uninitialized memory is allocated. -/
def openBlock (m : Memory α) (b : Block) (room : Nat) : Memory α where
  room := fun c => if c = b then room else m.room c
  slot := fun c => if c = b then fun _ => none else m.slot c

/-- The block `b` becomes the vector's buffer, which is freed. -/
def takeBlock (m : Memory α) (b : Block) : Memory α where
  room := fun c => if c = .own then m.room b else if c = b then 0 else m.room c
  slot := fun c => if c = .own then m.slot b else if c = b then fun _ => none else m.slot c

/-- The two vectors of an operation change their parts. -/
def flipBlock : Block → Block
  | .own => .other
  | .other => .own
  | b => b

def flip (m : Memory α) : Memory α where
  room := fun b => m.room (flipBlock b)
  slot := fun b => m.slot (flipBlock b)

end

namespace Header

/-- `on_heap`. -/
def onHeap (h : Header) : Bool := h.head ≠ h.inline

/-- `set_size`. -/
def setSize (h : Header) (z : Sizes) (count : Nat) : Option Header :=
  if count ≤ h.room then (z.toCompact count).map fun used => { h with used } else none

/-- `reset_to_small`. -/
def resetToSmall (h : Header) (z : Sizes) (inlineCapacity : Nat) : Option Header :=
  (z.toCompact inlineCapacity).map fun room => { h with head := h.inline, used := 0, room }

/-- `allocate`: where an allocation is, of the two that the allocator gives for its room. -/
def allocate (h : Header) (choose : Allocator) (capacity : Nat) : Nat :=
  if (choose h capacity).1 ≠ h.inline then (choose h capacity).1 else (choose h capacity).2

end Header

namespace State

variable {α : Type} (husk : α → α) (z : Sizes) (choose : Allocator) (s : State α)

/-- `destroy_elements`. -/
def destroyElements : Option (State α) :=
  (s.memory.destroyEach ⟨.own, 0⟩ s.header.used).map fun memory =>
    { header := { s.header with used := 0 }, memory }

/-- `adopt_allocation`, of the block `b` at `data`. -/
def adoptAllocation (b : Block) (data count capacity : Nat) : Option (State α) :=
  if count ≤ capacity then
    s.destroyElements.bind fun s =>
      (z.toCompact count).bind fun used => (z.toCompact capacity).map fun room =>
        { header := { s.header with head := data, used, room }, memory := takeBlock s.memory b }
  else none

/-- `truncate`. -/
def truncate (count : Nat) : Option (State α) :=
  (checkedSub s.header.used count).bind fun n =>
    (s.memory.destroyEach ⟨.own, count⟩ n).bind fun memory =>
      (s.header.setSize z count).map fun header => { header, memory }

/-- `rebuild`. -/
def rebuild (newRoom count : Nat) (fill : Memory α → Place Block → Option (Memory α)) :
    Option (State α) :=
  (fill (openBlock s.memory .fresh newRoom) ⟨.fresh, 0⟩).bind fun memory =>
    adoptAllocation z { s with memory } .fresh (s.header.allocate choose newRoom) count newRoom

/-- `reserve`. -/
def reserve (newCapacity : Nat) : Option (Outcome (State α)) :=
  if s.header.room < newCapacity then
    (z.nextCapacity s.header.room newCapacity).bind fun
      | .error _ => some (.threw s)
      | .ok newRoom => (s.rebuild z choose newRoom s.header.used fun memory first =>
          memory.constructEach husk first (Place.moves ⟨.own, 0⟩ s.header.used)).map .done
  else some (.done s)

/-- `append_with`. -/
def appendWith (count : Nat) (construct : Memory α → Place Block → Option (Memory α)) :
    Option (Outcome (State α)) :=
  (z.checkedSize s.header.used count).bind fun
    | .error _ => some (.threw s)
    | .ok newSize =>
      if newSize ≤ s.header.room then
        (construct s.memory ⟨.own, s.header.used⟩).bind fun memory =>
          (s.header.setSize z newSize).map fun header => .done { header, memory }
      else
        (z.nextCapacity s.header.room newSize).bind fun
          | .error _ => some (.threw s)
          | .ok newRoom =>
            (construct (openBlock s.memory .fresh newRoom) ⟨.fresh, s.header.used⟩).bind fun m =>
              (m.constructEach husk ⟨.fresh, 0⟩
                (Place.moves ⟨.own, 0⟩ s.header.used)).bind fun memory =>
                (adoptAllocation z { s with memory } .fresh
                  (s.header.allocate choose newRoom) newSize newRoom).map .done

/-- `emplace_back` and `push_back`. -/
def emplaceBack (source : Source Block α) : Option (Outcome (State α)) :=
  s.appendWith husk z choose 1 fun memory tail => memory.constructEach husk tail [source]

/-- `append` of one value. -/
def appendFill (count : Nat) (source : Source Block α) : Option (Outcome (State α)) :=
  s.appendWith husk z choose count fun memory tail =>
    memory.constructEach husk tail (List.replicate count source)

/-- `append` of a forward range. -/
def appendSources (sources : List (Source Block α)) : Option (Outcome (State α)) :=
  s.appendWith husk z choose sources.length fun memory tail =>
    memory.constructEach husk tail sources

/-- `append` of a single-pass range, whose references are to a buffer with room for `start`
elements: a vector that grows has a larger one. A full vector refuses an item unread. -/
def appendEach (start : Nat) (s : State α) : List (Item α) → Option (Outcome (State α))
  | [] => some (.done s)
  | item :: items =>
    if item.isElement ∧ s.header.room ≠ start ∧ s.header.used < z.maxSize then none
    else
      (s.emplaceBack husk z choose item.source).bind fun
        | .threw s => some (.threw s)
        | .done s => s.appendEach start items

/-- `append` of a range. -/
def appendRange (range : Range α) : Option (Outcome (State α)) :=
  if range.category = .single then s.appendEach husk z choose s.header.room range.items
  else s.appendSources husk z choose (range.items.map Item.source)

/-- `assign` of one value. -/
def assignFill (count : Nat) (source : Source Block α) : Option (Outcome (State α)) :=
  if s.header.room < count then
    (z.nextCapacity s.header.room count).bind fun
      | .error _ => some (.threw s)
      | .ok newRoom => (s.rebuild z choose newRoom count fun memory first =>
          memory.constructEach husk first (List.replicate count source)).map .done
  else
    (s.memory.assignEach husk ⟨.own, 0⟩
      (List.replicate (min count s.header.used) source)).bind fun memory =>
      (if s.header.used < count then
        memory.constructEach husk ⟨.own, s.header.used⟩
          (List.replicate (count - s.header.used) source)
      else memory.destroyEach ⟨.own, count⟩ (s.header.used - count)).bind fun memory =>
        (s.header.setSize z count).map fun header => .done { header, memory }

/-- `assign` of a range. -/
def assignRange (range : Range α) : Option (Outcome (State α)) :=
  if range.category ≠ .single ∧ range.references s.header.used then
    ((openBlock s.memory .copies range.items.length).constructEach husk ⟨.copies, 0⟩
      (range.items.map Item.source)).bind fun memory =>
      (destroyElements { s with memory }).bind fun s =>
        s.appendSources husk z choose (Place.moves ⟨.copies, 0⟩ range.items.length)
  else s.destroyElements.bind fun s => s.appendRange husk z choose range

/-- `assign_items`. -/
def assignItems (sources : List (Source Block α)) : Option (Outcome (State α)) :=
  if s.header.room < sources.length then
    (z.nextCapacity s.header.room sources.length).bind fun
      | .error _ => some (.threw s)
      | .ok newRoom => (s.rebuild z choose newRoom sources.length fun memory first =>
          memory.constructEach husk first sources).map .done
  else
    let kept := min sources.length s.header.used
    (s.memory.assignEach husk ⟨.own, 0⟩ (sources.take kept)).bind fun memory =>
      (if s.header.used < sources.length then
        memory.constructEach husk ⟨.own, s.header.used⟩ (sources.drop kept)
      else memory.destroyEach ⟨.own, sources.length⟩ (s.header.used - sources.length)).bind
        fun memory =>
          (s.header.setSize z sources.length).map fun header => .done { header, memory }

/-- `insert_items`. -/
def insertItems (index count : Nat)
    (construct assign : Memory α → Place Block → Nat → Option (Memory α)) :
    Option (Outcome (State α)) :=
  if count = 0 then some (.done s)
  else
    (z.checkedSize s.header.used count).bind fun
      | .error _ => some (.threw s)
      | .ok newSize =>
        (checkedSub s.header.used index).bind fun after =>
          if s.header.room < newSize then
            (z.nextCapacity s.header.room newSize).bind fun
              | .error _ => some (.threw s)
              | .ok newRoom =>
                ((openBlock s.memory .fresh newRoom).constructEach husk ⟨.fresh, 0⟩
                  (Place.moves ⟨.own, 0⟩ index)).bind fun m =>
                  (construct m ⟨.fresh, index⟩ 0).bind fun m =>
                    (m.constructEach husk ⟨.fresh, index + count⟩
                      (Place.moves ⟨.own, index⟩ after)).bind fun memory =>
                      (adoptAllocation z { s with memory } .fresh
                        (s.header.allocate choose newRoom) newSize newRoom).map .done
          else if count < after then
            (s.memory.constructEach husk ⟨.own, s.header.used⟩
              (Place.moves ⟨.own, s.header.used - count⟩ count)).bind fun m =>
              (s.header.setSize z newSize).bind fun header =>
                (m.moveBackward husk ⟨.own, index⟩ ⟨.own, index + count⟩ (after - count)).bind
                  fun m => (assign m ⟨.own, index⟩ count).map fun memory =>
                    .done { header, memory }
          else
            (construct s.memory ⟨.own, s.header.used⟩ after).bind fun m =>
              (z.add s.header.used count).bind fun sum =>
                (s.header.setSize z (sum - after)).bind fun header =>
                  (m.constructEach husk ⟨.own, index + count⟩
                    (Place.moves ⟨.own, index⟩ after)).bind fun m =>
                    (header.setSize z newSize).bind fun header =>
                      (assign m ⟨.own, index⟩ after).map fun memory => .done { header, memory }

/-- `insert_one`. -/
def insertOne (index : Nat) (source : Source Block α) : Option (Outcome (State α)) :=
  s.insertItems husk z choose index 1
    (fun memory dest from' =>
      if from' = 0 then memory.constructEach husk dest [source] else some memory)
    fun memory dest n => if n ≠ 0 then memory.assignEach husk dest [source] else some memory

/-- `insert_from`. -/
def insertFrom (index : Nat) (sources : List (Source Block α)) : Option (Outcome (State α)) :=
  s.insertItems husk z choose index sources.length
    (fun memory dest from' => (checkedSub sources.length from').bind fun n =>
      memory.constructEach husk dest ((sources.drop from').take n))
    fun memory dest n => memory.assignEach husk dest (sources.take n)

/-- `emplace`, and `insert` of a reference. -/
def emplace (index : Nat) (source : Source Block α) : Option (Outcome (State α)) :=
  (s.memory.fetch husk source).bind fun (a, memory) =>
    insertOne husk z choose { s with memory } index (.value a)

/-- `insert` of an rvalue. -/
def insertRvalue (index : Nat) (item : Item α) : Option (Outcome (State α)) :=
  if item.references s.header.used then s.emplace husk z choose index item.moved
  else s.insertOne husk z choose index item.moved

/-- `insert` of one value a number of times. -/
def insertFill (index count : Nat) (source : Source Block α) : Option (Outcome (State α)) :=
  if count = 0 then some (.done s)
  else
    (s.memory.fetch husk source).bind fun (a, memory) =>
      insertItems husk z choose { s with memory } index count
        (fun memory dest from' => (checkedSub count from').bind fun n =>
          memory.constructEach husk dest (List.replicate n (.value a)))
        fun memory dest n => memory.assignEach husk dest (List.replicate n (.value a))

/-- `insert` of a range. -/
def insertRange (index : Nat) (range : Range α) : Option (Outcome (State α)) :=
  if range.category = .single then
    (s.appendEach husk z choose s.header.room range.items).bind fun
      | .threw t => (t.truncate z s.header.used).map .threw
      | .done t =>
        (checkedSub t.header.used index).bind fun n =>
          (t.memory.rotate ⟨.own, index⟩ (s.header.used - index) n).map fun memory =>
            .done { t with memory }
  else if range.references s.header.used then
    ((openBlock s.memory .copies range.items.length).constructEach husk ⟨.copies, 0⟩
      (range.items.map Item.source)).bind fun memory =>
      insertFrom husk z choose { s with memory } index
        (Place.moves ⟨.copies, 0⟩ range.items.length)
  else s.insertFrom husk z choose index (range.items.map Item.source)

/-- `erase`. -/
def erase (first last : Nat) : Option (State α) :=
  if first = last then some s
  else
    (checkedSub s.header.used last).bind fun n =>
      (s.memory.assignEach husk ⟨.own, first⟩ (Place.moves ⟨.own, last⟩ n)).bind fun memory =>
        truncate z { s with memory } (first + n)

end State

end Kotatsu.Support.HybridVector
