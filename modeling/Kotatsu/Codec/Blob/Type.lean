import Kotatsu.Codec.Bincode.Reader

/-!
# The types a blob holds

A view type is a scalar, a `Vec` of a view type, or a record of them, and what it
occupies is what a compiler gives it: a field stands at the next multiple of its
alignment, and a record ends at a multiple of its own. The queries of the header
follow, and the fingerprint by which a blob names the layout it was written in.
-/

namespace Kotatsu.Codec.Blob

open Kotatsu.Core
open Kotatsu.Codec.Bincode (Width Underlying)

/-! ## Alignments -/

/-- The first multiple of `align` from `at'` on. -/
def roundUp (at' align : Nat) : Nat := (at' + align - 1) / align * align

theorem le_roundUp (at' : Nat) {align : Nat} (h : 0 < align) : at' ≤ roundUp at' align := by
  have hdiv := Nat.div_add_mod (at' + align - 1) align
  have hmod := Nat.mod_lt (at' + align - 1) h
  rw [roundUp, Nat.mul_comm]
  omega

theorem roundUp_lt (at' : Nat) {align : Nat} (h : 0 < align) :
    roundUp at' align < at' + align := by
  have hdiv := Nat.div_mul_le_self (at' + align - 1) align
  rw [roundUp]
  omega

theorem dvd_roundUp (at' align : Nat) : align ∣ roundUp at' align := Nat.dvd_mul_left _ _

theorem roundUp_of_dvd {at' align : Nat} (h : 0 < align) (hdvd : align ∣ at') :
    roundUp at' align = at' := by
  have hlt := roundUp_lt at' h
  have hle := le_roundUp at' h
  have hsub := Nat.dvd_sub (dvd_roundUp at' align) hdvd
  have hzero := Nat.eq_zero_of_dvd_of_lt hsub (by omega)
  omega

theorem roundUp_le {at' align n : Nat} (h : 0 < align) (hdvd : align ∣ n) (hle : at' ≤ n) :
    roundUp at' align ≤ n := by
  obtain ⟨k, rfl⟩ := hdvd
  have hlt := roundUp_lt at' h
  obtain ⟨j, hj⟩ := dvd_roundUp at' align
  rw [hj] at hlt ⊢
  have hjk : align * j < align * (k + 1) := by
    rw [Nat.mul_succ]
    omega
  exact Nat.mul_le_mul_left align (Nat.le_of_lt_succ (Nat.lt_of_mul_lt_mul_left hjk))

/-- The bytes of an integer, and its alignment. -/
def bytesOf (w : Width) : Nat := w.bits / 8

/-- The larger of two alignments. -/
def maxWidth (a b : Width) : Width := if bytesOf a ≤ bytesOf b then b else a

theorem bytesOf_pos (w : Width) : 0 < bytesOf w := by cases w <;> decide

theorem bytesOf_dvd (w : Width) : bytesOf w ∣ 8 := by cases w <;> decide

theorem bytesOf_dvd_left (a b : Width) : bytesOf a ∣ bytesOf (maxWidth a b) := by
  cases a <;> cases b <;> decide

theorem bytesOf_dvd_right (a b : Width) : bytesOf b ∣ bytesOf (maxWidth a b) := by
  cases a <;> cases b <;> decide

/-! ## Types -/

/-- An arithmetic type other than `long double`. -/
inductive Arithmetic where
  | bool
  | char
  | signed (w : Width)
  | unsigned (w : Width)
  | float
  | double
deriving DecidableEq, Repr

/-- Its size, and its alignment too. -/
def Arithmetic.width : Arithmetic → Width
  | .bool => .w8
  | .char => .w8
  | .signed w => w
  | .unsigned w => w
  | .float => .w32
  | .double => .w64

/-- An arithmetic type, or an enumeration with a fixed underlying type. -/
inductive Scalar where
  | arithmetic (a : Arithmetic)
  | enumeration (u : Underlying)
deriving DecidableEq, Repr

/-- `arithmetic_t`. -/
def Scalar.arithmeticT : Scalar → Arithmetic
  | .arithmetic a => a
  | .enumeration (.signed w) => .signed w
  | .enumeration (.unsigned w) => .unsigned w
  | .enumeration .bool => .bool

/-- The width of a scalar. -/
def Scalar.width (s : Scalar) : Width := s.arithmeticT.width

mutual

/-- A view type. A record says whether it is its own view, as a struct that is no template over
its sequence type is, and whether `alignas` raises its alignment. -/
inductive Ty where
  | scalar (s : Scalar)
  | vec (element : Ty)
  | record (own : Bool) (alignas : Width) (fields : Fields)

/-- The fields of a record in the order of their declaration. -/
inductive Fields where
  | nil
  | cons (name : Bytes) (alignas : Width) (t : Ty) (fs : Fields)

end

mutual

/-- `alignof`. -/
def Ty.align : Ty → Width
  | .scalar s => s.width
  | .vec _ => .w32
  | .record _ a fs => maxWidth a fs.align

/-- The largest alignment of the fields. -/
def Fields.align : Fields → Width
  | .nil => .w8
  | .cons _ a t fs => maxWidth (maxWidth a t.align) fs.align

end

/-- Where a field stands that `pos` bytes of its record precede. -/
def fieldOffset (pos : Nat) (alignas : Width) (t : Ty) : Nat :=
  roundUp pos (bytesOf (maxWidth alignas t.align))

mutual

/-- `sizeof`. -/
def Ty.size : Ty → Nat
  | .scalar s => bytesOf s.width
  | .vec _ => 8
  | .record _ a fs => roundUp (max 1 (fs.endFrom 0)) (bytesOf (maxWidth a fs.align))

/-- Where the last of the fields ends when `pos` bytes precede the first. -/
def Fields.endFrom (pos : Nat) : Fields → Nat
  | .nil => pos
  | .cons _ a t fs => fs.endFrom (fieldOffset pos a t + t.size)

end

/-- A record, which the root of a blob is. -/
structure Record where
  own : Bool
  alignas : Width
  fields : Fields

/-- The record as a view type. -/
def Record.ty (r : Record) : Ty := .record r.own r.alignas r.fields

/-! ## Queries -/

/-- The scalar `char`, whose sequences are strings. -/
def Ty.char : Ty := .scalar (.arithmetic .char)

/-- `is_string_v<Vec<E>>`. -/
def Ty.isChar : Ty → Bool
  | .scalar (.arithmetic .char) => true
  | _ => false

/-- `part_alignment_v<Vec<E>>`. -/
def partAlignment (element : Ty) : Nat := if element.isChar then 1 else 8

mutual

/-- `is_plain`. -/
def Ty.isPlain : Ty → Bool
  | .scalar _ => true
  | .vec _ => false
  | .record _ _ fs => fs.isPlain

/-- Whether every field is plain. -/
def Fields.isPlain : Fields → Bool
  | .nil => true
  | .cons _ _ t fs => t.isPlain && fs.isPlain

end

/-- The sum of the sizes of the fields. -/
def Fields.sizes : Fields → Nat
  | .nil => 0
  | .cons _ _ t fs => t.size + fs.sizes

mutual

/-- `is_packed`. -/
def Ty.isPacked : Ty → Bool
  | .scalar _ => true
  | .vec _ => false
  | .record own a fs => fs.isPlain && fs.isPacked && fs.sizes == (Ty.record own a fs).size

/-- Whether every field is packed. -/
def Fields.isPacked : Fields → Bool
  | .nil => true
  | .cons _ _ t fs => t.isPacked && fs.isPacked

end

mutual

/-- `needs_check`. -/
def Ty.needsCheck : Ty → Bool
  | .scalar s => s.arithmeticT == .bool
  | .vec _ => true
  | .record _ _ fs => fs.needsCheck

/-- Whether a field needs a check. -/
def Fields.needsCheck : Fields → Bool
  | .nil => false
  | .cons _ _ t fs => t.needsCheck || fs.needsCheck

end

/-- Whether the writer form of a type is its view: the writer form of a `Vec` never is, and that
of a record holding one neither. -/
def Ty.isOwnView : Ty → Bool
  | .scalar _ => true
  | .vec _ => false
  | .record own _ fs => own && fs.isPlain

/-! ## The fingerprint -/

def mixByte (hash : UInt32) (byte : UInt8) : UInt32 := (hash ^^^ byte.toUInt32) * 16777619

def mix (hash : UInt32) (text : Bytes) : UInt32 := text.foldl mixByte hash

def mixNumber (hash : UInt32) (number : Nat) : UInt32 := mix hash (leBytes 8 number)

/-- The two characters `fingerprint` writes for a scalar, where `char` is signed. -/
def Arithmetic.code (a : Arithmetic) : Bytes :=
  let kind := match a with
    | .bool => 0x62
    | .float => 0x66
    | .double => 0x66
    | .char => 0x69
    | .signed _ => 0x69
    | .unsigned _ => 0x75
  [kind, UInt8.ofNat (0x30 + bytesOf a.width)]

mutual

/-- `fingerprint`. -/
def Ty.fingerprint (hash : UInt32) : Ty → UInt32
  | .scalar s => mix hash s.arithmeticT.code
  | .vec element =>
    if element.isChar then mix hash (ascii "s")
    else mix (element.fingerprint (mix hash (ascii "["))) (ascii "]")
  | .record own a fs =>
    mixNumber (mix (fs.fingerprint 0 (mix hash (ascii "\x7b"))) (ascii "\x7d"))
      (Ty.record own a fs).size

/-- The part of the fingerprint that covers the fields. -/
def Fields.fingerprint (pos : Nat) (hash : UInt32) : Fields → UInt32
  | .nil => hash
  | .cons name a t fs =>
    let named := mixNumber (mix hash name) (fieldOffset pos a t)
    fs.fingerprint (fieldOffset pos a t + t.size)
      (mix (t.fingerprint (mix named (ascii ":"))) (ascii ";"))

end

/-- `fingerprint_v`. -/
def Ty.fingerprintV (t : Ty) : UInt32 := t.fingerprint 2166136261

/-! ## Sizes -/

theorem sizes_le (fs : Fields) : ∀ pos, pos + fs.sizes ≤ fs.endFrom pos := by
  induction fs using Fields.rec (motive_1 := fun _ => True) with
  | scalar => trivial
  | vec => trivial
  | record => trivial
  | nil => exact fun pos => Nat.le_refl pos
  | cons name a t fs _ ih =>
    intro pos
    have hfield := le_roundUp pos (bytesOf_pos (maxWidth a t.align))
    have hrest := ih (fieldOffset pos a t + t.size)
    rw [Fields.endFrom, Fields.sizes]
    unfold fieldOffset at hrest ⊢
    omega

theorem le_endFrom (fs : Fields) (pos : Nat) : pos ≤ fs.endFrom pos :=
  (Nat.le_add_right ..).trans (sizes_le fs pos)

theorem Ty.align_dvd_size (t : Ty) : bytesOf t.align ∣ t.size := by
  cases t with
  | scalar s => rw [Ty.align, Ty.size]
  | vec e => rw [Ty.align, Ty.size]; decide
  | record own a fs => rw [Ty.align, Ty.size]; exact dvd_roundUp _ _

theorem Ty.size_pos (t : Ty) : 0 < t.size := by
  cases t with
  | scalar s => rw [Ty.size]; exact bytesOf_pos _
  | vec e => rw [Ty.size]; decide
  | record own a fs =>
    rw [Ty.size]
    have := le_roundUp (max 1 (fs.endFrom 0)) (bytesOf_pos (maxWidth a fs.align))
    omega

theorem partAlignment_pos (element : Ty) : 0 < partAlignment element := by
  rw [partAlignment]
  split <;> decide

theorem partAlignment_dvd (element : Ty) : partAlignment element ∣ 2 ^ 32 := by
  rw [partAlignment]
  split <;> decide

theorem partAlignment_le (element : Ty) : partAlignment element ≤ 8 := by
  rw [partAlignment]
  split <;> decide

/-- The elements of a sequence are aligned where the sequence is. -/
theorem align_dvd_partAlignment (element : Ty) :
    bytesOf element.align ∣ partAlignment element := by
  rw [partAlignment]
  split
  case isTrue h =>
    unfold Ty.isChar at h
    split at h
    case h_1 => decide
    case h_2 => cases h
  case isFalse => exact bytesOf_dvd _

end Kotatsu.Codec.Blob
