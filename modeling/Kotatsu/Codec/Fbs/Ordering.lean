import Kotatsu.Codec.Fbs.Key
import Kotatsu.Core.Search

/-!
# The order of the entries of a map

`orderingLess` is the order the encoder sorts the entries of a map by and the one a
view searches them with: scalars by the value of their cell, structs field by field,
strings by their bytes. It is a strict total order on the values of every key type,
and `orderingEqual` holds of its ties, which are the pairs of one value.
-/

namespace Kotatsu.Codec.Fbs

open Kotatsu.Core
open Kotatsu.Codec.Bincode (Width SignedInt UnsignedInt)

/-! ## Cells -/

/-- A scalar as the order compares it. -/
inductive Cell where
  | boolean (b : Bool)
  | integer (v : Int)
deriving DecidableEq, Repr

/-- `ordering_cell`: a `char` is its `int8_t` cell, and any other scalar itself. -/
def orderingCell : (s : Scalar) → s.Val → Cell
  | .boolean, b => .boolean b
  | .character, c => .integer (BitVec.ofNat 8 (UInt8.toNat c)).toInt
  | .int _, v => .integer v.val
  | .uint _, v => .integer v.val

/-- The integer that a cell is promoted to. -/
def Cell.value : Cell → Int
  | .boolean b => Bool.toNat b
  | .integer v => v

/-- `ordering_less` of two scalars, which may be of different types. -/
def cellLess : Cell → Cell → Bool
  | .integer a, .integer b => decide (a < b)
  | .boolean a, .boolean b => !a && b
  | a, b => decide (a.value < b.value)

/-- `ordering_equal` of two scalars, which may be of different types. -/
def cellEqual : Cell → Cell → Bool
  | .integer a, .integer b => decide (a = b)
  | .boolean a, .boolean b => a == b
  | a, b => decide (a.value = b.value)

/-- Scalars are ordered by value, whatever their types. -/
theorem cellLess_eq (a b : Cell) : cellLess a b = decide (a.value < b.value) := by
  cases a with
  | integer a => cases b <;> rfl
  | boolean a =>
    cases b with
    | integer b => rfl
    | boolean b => cases a <;> cases b <;> rfl

/-- Scalars are equal by value, whatever their types. -/
theorem cellEqual_eq (a b : Cell) : cellEqual a b = decide (a.value = b.value) := by
  cases a with
  | integer a => cases b <;> rfl
  | boolean a =>
    cases b with
    | integer b => rfl
    | boolean b => cases a <;> cases b <;> rfl

/-- Scalars of one type that have the same value are the same. -/
theorem orderingCell_injective : (s : Scalar) → (a b : s.Val) →
    (orderingCell s a).value = (orderingCell s b).value → a = b
  | .boolean, a, b, h => by
    cases a <;> cases b <;> first | rfl | exact absurd h (by decide)
  | .character, a, b, h => by
    have hbits : BitVec.ofNat 8 (UInt8.toNat a) = BitVec.ofNat 8 (UInt8.toNat b) :=
      BitVec.eq_of_toInt_eq h
    have hnat := congrArg BitVec.toNat hbits
    rw [BitVec.toNat_ofNat, BitVec.toNat_ofNat, Nat.mod_eq_of_lt (UInt8.toNat_lt a),
      Nat.mod_eq_of_lt (UInt8.toNat_lt b)] at hnat
    exact UInt8.toNat_inj.mp hnat
  | .int _, _, _, h => Subtype.ext h
  | .uint _, _, _, h => Subtype.ext (Int.ofNat_inj.mp h)

/-! ## Keys -/

mutual

/-- `ordering_less` of two values of an inline type. -/
def InlineTy.orderingLess : (t : InlineTy) → t.Val → t.Val → Bool
  | .scalar s, a, b => cellLess (orderingCell s a) (orderingCell s b)
  | .enumeration u, a, b => cellLess (orderingCell u a) (orderingCell u b)
  | .struct fs, as, bs => fs.orderingLess as bs

/-- The walk over the fields: the first in which two structs differ decides. -/
def InlineFields.orderingLess : (fs : InlineFields) → fs.Vals → fs.Vals → Bool
  | .done _, _, _ => false
  | .field _ t fs, as, bs =>
    if t.orderingLess as.1 bs.1 then true
    else if t.orderingLess bs.1 as.1 then false
    else fs.orderingLess as.2 bs.2

end

/-- `ordering_less` of two keys of a type; the bytes of a string compare unsigned. -/
def orderingLess : (t : KeyTy) → t.Val → t.Val → Bool
  | .inline t, a, b => t.orderingLess a b
  | .string, a, b => textLess (fun x y : UInt8 => decide (x < y)) a b

/-- `operator==` of two strings. -/
def textEqual (a b : Bytes) : Bool := decide (a = b)

theorem textEqual_iff (a b : Bytes) : textEqual a b = true ↔ a = b := decide_eq_true_iff

/-- `ordering_equal` of two keys of a type: structs are equal when neither is below the
other. -/
def orderingEqual : (t : KeyTy) → t.Val → t.Val → Bool
  | .inline (.scalar s), a, b => cellEqual (orderingCell s a) (orderingCell s b)
  | .inline (.enumeration u), a, b => cellEqual (orderingCell u a) (orderingCell u b)
  | .inline (.struct fs), as, bs => !fs.orderingLess as bs && !fs.orderingLess bs as
  | .string, a, b => textEqual a b

private theorem strictTotal_cells (s : Scalar) :
    StrictTotal fun a b : s.Val => cellLess (orderingCell s a) (orderingCell s b) :=
  StrictTotal.of_value (orderingCell_injective s) fun a b =>
    cellLess_eq (orderingCell s a) (orderingCell s b)

mutual

/-- The values of an inline type are strictly and totally ordered. -/
theorem InlineTy.strictTotal : (t : InlineTy) → StrictTotal t.orderingLess
  | .scalar s => strictTotal_cells s
  | .enumeration u => strictTotal_cells u
  | .struct fs => fs.strictTotal

theorem InlineFields.strictTotal : (fs : InlineFields) → StrictTotal fs.orderingLess
  | .done _ => StrictTotal.of_laws (fun _ => rfl) (fun _ _ _ h _ => h) fun _ _ _ _ => rfl
  | .field _ t fs => StrictTotal.lex t.strictTotal fs.strictTotal

end

/-- The keys of a type are strictly and totally ordered. -/
theorem strictTotal_orderingLess : (t : KeyTy) → StrictTotal (orderingLess t)
  | .inline t => t.strictTotal
  | .string => by
    have hbytes : StrictTotal fun x y : UInt8 => decide (x < y) := by
      have hinj : ∀ x y : UInt8, (x.toNat : Int) = y.toNat → x = y :=
        fun x y h => UInt8.toNat_inj.mp (Int.ofNat_inj.mp h)
      refine StrictTotal.of_value hinj fun x y => ?_
      rw [decide_eq_decide, UInt8.lt_iff_toNat_lt, Int.ofNat_lt]
    exact hbytes.text

private theorem cellEqual_iff (s : Scalar) (a b : s.Val) :
    cellEqual (orderingCell s a) (orderingCell s b) = true ↔ a = b := by
  rw [cellEqual_eq, decide_eq_true_eq]
  exact ⟨orderingCell_injective s a b, fun h => by rw [h]⟩

/-- Two keys are equal in the order exactly when they are the same key. -/
theorem orderingEqual_iff : (t : KeyTy) → (a b : t.Val) → (orderingEqual t a b = true ↔ a = b)
  | .inline (.scalar s), a, b => cellEqual_iff s a b
  | .inline (.enumeration u), a, b => cellEqual_iff u a b
  | .inline (.struct fs), as, bs => by
    rw [orderingEqual, Bool.and_eq_true, Bool.not_eq_true', Bool.not_eq_true']
    exact fs.strictTotal.ties_iff
  | .string, a, b => textEqual_iff a b

end Kotatsu.Codec.Fbs
