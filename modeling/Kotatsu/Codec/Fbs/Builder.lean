import Kotatsu.Codec.Fbs.Key

/-!
# The flatbuffers library

What the encoder and the views use of the flatbuffers library: a builder that takes
strings, tables and vectors, and accessors that give back what a table, a string or a
vector was built with. What was built can be read for as long as the builder only goes
on building, and in the buffer it finishes. `objects` is a builder that keeps what it
is given in a list.
-/

namespace Kotatsu.Codec.Fbs

open Kotatsu.Core

/-- What a slot of a table holds: bytes in the table, or an offset to something else. -/
inductive Slot (Offset : Type) where
  | inline (bytes : Bytes)
  | offset (o : Offset)
deriving DecidableEq, Repr

/-- The builder and the accessors of the flatbuffers library. -/
structure Flatbuffers where
  /-- A builder, or the buffer it has finished. -/
  Builder : Type
  Offset : Type
  /-- The second builder is the first after it has built more, or has finished. -/
  Later : Builder → Builder → Prop
  createString : Builder → Bytes → Builder × Offset
  /-- `StartTable`, the slots in turn, `EndTable`. -/
  createTable : Builder → List (Nat × Slot Offset) → Builder × Offset
  createVector : Builder → List Offset → Builder × Offset
  getString : Builder → Offset → Bytes
  getField : Builder → Offset → Nat → Option (Slot Offset)
  getVector : Builder → Offset → List Offset
  later_refl : ∀ b, Later b b
  later_trans : ∀ {b b' b''}, Later b b' → Later b' b'' → Later b b''
  later_createString : ∀ b text, Later b (createString b text).1
  later_createTable : ∀ b slots, Later b (createTable b slots).1
  later_createVector : ∀ b offsets, Later b (createVector b offsets).1
  getString_later : ∀ {b text b'}, Later (createString b text).1 b' →
    getString b' (createString b text).2 = text
  getField_later : ∀ {b slots b'}, (slots.map Prod.fst).Nodup →
    Later (createTable b slots).1 b' →
    ∀ slot, getField b' (createTable b slots).2 slot = slots.lookup slot
  getVector_later : ∀ {b offsets b'}, Later (createVector b offsets).1 b' →
    getVector b' (createVector b offsets).2 = offsets

/-- The slot of a table's `index`th field. -/
def fieldSlot (index : Nat) : Nat := 4 + 2 * index

/-! ## Objects in a list -/

/-- Something a builder has built. -/
inductive Object where
  | string (text : Bytes)
  | table (slots : List (Nat × Slot Nat))
  | vector (offsets : List Nat)
deriving DecidableEq, Repr

private theorem getElem?_later {built later : List Object} {o : Object}
    (h : built ++ [o] <+: later) : later[built.length]? = some o := by
  obtain ⟨rest, rfl⟩ := h
  rw [List.append_assoc, List.getElem?_append_right (Nat.le_refl _), Nat.sub_self]
  rfl

/-- A builder that keeps what it builds in a list, where an offset is an index. -/
def objects : Flatbuffers where
  Builder := List Object
  Offset := Nat
  Later := fun built later => built <+: later
  createString built text := (built ++ [.string text], built.length)
  createTable built slots := (built ++ [.table slots], built.length)
  createVector built offsets := (built ++ [.vector offsets], built.length)
  getString built o :=
    match built[o]? with
    | some (.string text) => text
    | _ => []
  getField built o slot :=
    match built[o]? with
    | some (.table slots) => slots.lookup slot
    | _ => none
  getVector built o :=
    match built[o]? with
    | some (.vector offsets) => offsets
    | _ => []
  later_refl built := List.prefix_refl built
  later_trans := List.IsPrefix.trans
  later_createString built _ := List.prefix_append built _
  later_createTable built _ := List.prefix_append built _
  later_createVector built _ := List.prefix_append built _
  getString_later h := by simp only [getElem?_later h]
  getField_later _ h slot := by simp only [getElem?_later h]
  getVector_later h := by simp only [getElem?_later h]

end Kotatsu.Codec.Fbs
