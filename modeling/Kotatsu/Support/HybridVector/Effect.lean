import Kotatsu.Support.HybridVector.Basic
import Mathlib.Logic.Function.Basic

/-!
# What the operations of a hybrid_vector mean

A vector is a plain list of at most `max_size` elements: the effect of each operation on it,
or on two of them. An operation that is to make a longer list throws. A call with an
argument that is not there, or at a position that is not, has no effect to speak of.
-/

namespace Kotatsu.Support.HybridVector

/-- The operations on one vector. -/
inductive Call (α : Type) where
  | emplaceBack (arg : Arg α)
  | appendFill (count : Nat) (item : Item α)
  | appendRange (range : Range α)
  | assignFill (count : Nat) (item : Item α)
  | assignRange (range : Range α)
  | emplace (index : Nat) (arg : Arg α)
  | insertRvalue (index : Nat) (item : Item α)
  | insertFill (index count : Nat) (item : Item α)
  | insertRange (index : Nat) (range : Range α)
  | erase (first last : Nat)

/-- The operations on a vector and another one. A move through `hybrid_vector` does not know
the other's inline capacity, and one of a `small_vector` does. -/
inductive Pairing where
  | appendCopy
  | appendMove
  | copyAssign
  | moveAssign (small : Bool)
  | swap
  | copyConstruct
  | moveConstruct (small : Bool)
deriving DecidableEq

/-- The operations of a program with vectors. -/
inductive Op (α : Type) where
  | one (v : Nat) (call : Call α)
  | two (v w : Nat) (pairing : Pairing)

/-- The lists of a program's vectors. -/
abbrev Lists (α : Type) := Nat → List α

section

variable {α : Type} (husk : α → α) (z : Sizes) (l : List α)

/-- The value of an item. -/
def Item.resolve : Item α → Option α
  | .value a => some a
  | .element i => l[i]?

/-- The values of the items of a range. -/
def resolveEach : List (Item α) → Option (List α)
  | [] => some []
  | item :: items => (item.resolve l).bind fun a => (resolveEach items).map (a :: ·)

/-- The value of an argument, and the list after it is taken. -/
def Arg.resolve : Arg α → Option (α × List α)
  | .item x => (x.resolve l).map fun a => (a, l)
  | .moved i => l[i]?.map fun a => (a, l.set i (husk a))

/-- The value of an item that is moved, and the list after it. -/
def Item.resolveMoved : Item α → Option (α × List α)
  | .value a => some (a, l)
  | .element i => l[i]?.map fun a => (a, l.set i (husk a))

/-- A list that may be too long, which throws and leaves another one. -/
def bounded (result otherwise : List α) : Outcome (List α) :=
  if result.length ≤ z.maxSize then .done result else .threw otherwise

/-- A list is put into another one. -/
def spliced (index : Nat) (xs : List α) : List α := l.take index ++ xs ++ l.drop index

/-- The effect of an operation on a list. -/
def Call.effect : Call α → Option (Outcome (List α))
  | .emplaceBack arg => (arg.resolve husk l).map fun (a, l') => bounded z (l' ++ [a]) l
  | .appendFill count item => (item.resolve l).map fun a =>
    bounded z (l ++ List.replicate count a) l
  | .appendRange range => (resolveEach l range.items).map fun xs =>
    bounded z (l ++ xs) (if range.category = .single then (l ++ xs).take z.maxSize else l)
  | .assignFill count item => (item.resolve l).map fun a => bounded z (List.replicate count a) l
  | .assignRange range => (resolveEach l range.items).map fun xs =>
    bounded z xs (if range.category = .single then xs.take z.maxSize else [])
  | .emplace index arg =>
    if index ≤ l.length then
      (arg.resolve husk l).map fun (a, l') => bounded z (spliced l' index [a]) l'
    else none
  | .insertRvalue index item =>
    if index ≤ l.length then
      (item.resolveMoved husk l).map fun (a, l') => bounded z (spliced l' index [a]) l'
    else none
  | .insertFill index count item =>
    if index ≤ l.length then
      (item.resolve l).map fun a => bounded z (spliced l index (List.replicate count a)) l
    else none
  | .insertRange index range =>
    if index ≤ l.length then
      (resolveEach l range.items).map fun xs => bounded z (spliced l index xs) l
    else none
  | .erase first last =>
    if first ≤ last ∧ last ≤ l.length then some (.done (l.take first ++ l.drop last)) else none

/-- The effect of an operation on a list and another vector's. -/
def Pairing.effect (other : List α) : Pairing → Outcome (List α × List α)
  | .appendCopy =>
    if l.length + other.length ≤ z.maxSize then .done (l ++ other, other) else .threw (l, other)
  | .appendMove =>
    if l.length + other.length ≤ z.maxSize then .done (l ++ other, []) else .threw (l, other)
  | .copyAssign | .copyConstruct => .done (other, other)
  | .moveAssign _ | .moveConstruct _ => .done (other, [])
  | .swap => .done (other, l)

/-- The effect of an operation on a list and itself. A vector is not constructed from
itself. -/
def Pairing.effectSelf : Pairing → Option (Outcome (List α))
  | .appendCopy => some (bounded z (l ++ l) l)
  | .appendMove | .copyAssign | .moveAssign _ | .swap => some (.done l)
  | .copyConstruct | .moveConstruct _ => none

end

variable {α : Type}

/-- The effect of an operation on the lists of a program. -/
def Op.effect (husk : α → α) (z : Sizes) (lists : Lists α) : Op α → Option (Outcome (Lists α))
  | .one v call => (call.effect husk z (lists v)).map (·.map (Function.update lists v))
  | .two v w pairing =>
    if v = w then (pairing.effectSelf z (lists v)).map (·.map (Function.update lists v))
    else some ((pairing.effect z (lists v) (lists w)).map fun (l, other) =>
      Function.update (Function.update lists v l) w other)

end Kotatsu.Support.HybridVector
