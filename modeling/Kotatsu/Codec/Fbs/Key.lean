import Kotatsu.Codec.Bincode.Value
import Kotatsu.Core.Overwrite
import Kotatsu.Core.Reader

/-!
# The keys of flatbuffers maps

A key of a map is a scalar, an enumeration, a string, or a struct that lies in its
table as an image of its bytes. A struct is given by the layout the compiler chose
for it: each field behind some padding, and padding behind the last. The image of a
struct that has padding is copied field by field over zeroed bytes, that of any
other struct as a whole; either way it is the fields at their offsets with zeros
between them, and reading it back gives the struct.
-/

namespace Kotatsu.Codec.Fbs

open Kotatsu.Core
open Kotatsu.Codec.Bincode (Width SignedInt UnsignedInt)

/-! ## Key types -/

/-- A scalar without a fraction: `bool`, `char`, or an integer. -/
inductive Scalar where
  | boolean
  | character
  | int (w : Width)
  | uint (w : Width)
deriving DecidableEq, Repr

mutual

/-- A type that lies in a table by itself: a scalar, an enumeration over its
underlying type, or a struct satisfying `can_inline_struct_v`. -/
inductive InlineTy where
  | scalar (s : Scalar)
  | enumeration (underlying : Scalar)
  | struct (fs : InlineFields)

/-- The fields of a struct in the order of their declaration, each with the padding
in front of it, and the padding behind the last. -/
inductive InlineFields where
  | done (padding : Nat)
  | field (padding : Nat) (t : InlineTy) (fs : InlineFields)

end

/-- The key type of a map, as `deep_clean_t` gives it. -/
inductive KeyTy where
  | inline (t : InlineTy)
  | string

/-! ## Values -/

/-- The values of a scalar type, a `char` as the byte it is held in. -/
def Scalar.Val : Scalar → Type
  | .boolean => Bool
  | .character => UInt8
  | .int w => SignedInt w
  | .uint w => UnsignedInt w

mutual

/-- The values of an inline type, those of an enumeration by their underlying value. -/
def InlineTy.Val : InlineTy → Type
  | .scalar s => s.Val
  | .enumeration u => u.Val
  | .struct fs => fs.Vals

/-- One value for each field. -/
def InlineFields.Vals : InlineFields → Type
  | .done _ => Unit
  | .field _ t fs => t.Val × fs.Vals

end

/-- The values of a key type. -/
def KeyTy.Val : KeyTy → Type
  | .inline t => t.Val
  | .string => Bytes

/-! ## Sizes -/

/-- `sizeof` of a scalar. -/
def Scalar.size : Scalar → Nat
  | .boolean => 1
  | .character => 1
  | .int w => w.bits / 8
  | .uint w => w.bits / 8

mutual

/-- `sizeof(T)`. -/
def InlineTy.size : InlineTy → Nat
  | .scalar s => s.size
  | .enumeration u => u.size
  | .struct fs => fs.size

/-- The size of the fields and the padding among them. -/
def InlineFields.size : InlineFields → Nat
  | .done padding => padding
  | .field padding t fs => padding + t.size + fs.size

end

mutual

/-- `packed_size`: the bytes the fields of a type occupy. -/
def InlineTy.packedSize : InlineTy → Nat
  | .scalar s => s.size
  | .enumeration u => u.size
  | .struct fs => fs.packedSize

/-- The sum of `packed_size` over the fields. -/
def InlineFields.packedSize : InlineFields → Nat
  | .done _ => 0
  | .field _ t fs => t.packedSize + fs.packedSize

end

/-! ## Cells -/

/-- The bits of the fixed-width cell a scalar is stored as: a `bool` is the byte 0
or 1, and a `char` the `int8_t` that has its bits. -/
def Scalar.toCell : (s : Scalar) → s.Val → Nat
  | .boolean, b => Bool.toNat b
  | .character, c => UInt8.toNat c
  | .int w, v => (BitVec.ofInt w.bits v.val).toNat
  | .uint _, v => v.val

/-- `from_cell`: a cell holding anything but zero is the `bool` true. -/
def Scalar.fromCell : (s : Scalar) → Nat → s.Val
  | .boolean, cell => cell != 0
  | .character, cell => UInt8.ofNat cell
  | .int w, cell => ⟨(BitVec.ofNat w.bits cell).toInt, BitVec.le_toInt _, BitVec.toInt_lt⟩
  | .uint w, cell => ⟨cell % 2 ^ w.bits, Nat.mod_lt _ (Nat.two_pow_pos _)⟩

theorem Scalar.size_bits (w : Width) : 8 * (w.bits / 8) = w.bits := by cases w <;> rfl

theorem Scalar.toCell_lt : (s : Scalar) → (v : s.Val) → s.toCell v < 2 ^ (8 * s.size)
  | .boolean, b => by cases b <;> decide
  | .character, c => UInt8.toNat_lt c
  | .int w, v => by
    rw [Scalar.size, Scalar.size_bits]
    exact BitVec.isLt _
  | .uint w, v => by
    rw [Scalar.size, Scalar.size_bits]
    exact v.property

/-- A scalar is read from the cell it was stored as. -/
theorem Scalar.fromCell_toCell : (s : Scalar) → (v : s.Val) → s.fromCell (s.toCell v) = v
  | .boolean, b => by cases b <;> rfl
  | .character, c => UInt8.ofNat_toNat
  | .int w, v => by
    obtain ⟨hlo, hhi⟩ := v.property
    apply Subtype.ext
    simp only [Scalar.toCell, Scalar.fromCell, BitVec.ofNat_toNat, BitVec.setWidth_eq]
    cases w <;>
      simp only [Width.bits, Nat.add_one_sub_one] at hlo hhi ⊢ <;>
      rw [BitVec.toInt_ofInt, Int.bmod_def] <;> omega
  | .uint w, v => Subtype.ext (Nat.mod_eq_of_lt v.property)

/-- The bytes of a scalar's cell, which are also those the scalar has in memory. -/
def Scalar.bytes (s : Scalar) (v : s.Val) : Bytes := leBytes s.size (s.toCell v)

/-- The scalar that some bytes of a cell spell. -/
def Scalar.ofBytes (s : Scalar) (bs : Bytes) : s.Val := s.fromCell (leValue bs)

@[simp] theorem Scalar.length_bytes (s : Scalar) (v : s.Val) : (s.bytes v).length = s.size :=
  length_leBytes _ _

theorem Scalar.ofBytes_bytes (s : Scalar) (v : s.Val) : s.ofBytes (s.bytes v) = v := by
  rw [Scalar.ofBytes, Scalar.bytes, leValue_leBytes_of_lt (s.toCell_lt v), s.fromCell_toCell]

/-! ## Images -/

/-- `count` bytes of a memory from `start` on. -/
def paddingBytes (memory : Nat → UInt8) (start count : Nat) : Bytes :=
  (List.range count).map fun i => memory (start + i)

mutual

/-- The bytes a value has at `start`, in a memory whose contents the padding shows. -/
def InlineTy.objectBytes (memory : Nat → UInt8) : (t : InlineTy) → Nat → t.Val → Bytes
  | .scalar s, _, v => s.bytes v
  | .enumeration u, _, v => u.bytes v
  | .struct fs, start, vs => fs.objectBytes memory start vs

/-- The bytes of the fields of a struct and of the padding among them. -/
def InlineFields.objectBytes (memory : Nat → UInt8) :
    (fs : InlineFields) → Nat → fs.Vals → Bytes
  | .done padding, start, _ => paddingBytes memory start padding
  | .field padding t fs, start, vs =>
    paddingBytes memory start padding ++ (t.objectBytes memory (start + padding) vs.1 ++
      fs.objectBytes memory (start + padding + t.size) vs.2)

end

mutual

/-- `copy_field_bytes`: the fields of a value over the image at `start`, each at its offset. -/
def InlineTy.copyFieldBytes : (t : InlineTy) → t.Val → Bytes → Nat → Bytes
  | .scalar s, v, image, start => overwrite image start (s.bytes v)
  | .enumeration u, v, image, start => overwrite image start (u.bytes v)
  | .struct fs, vs, image, start => fs.copyFieldBytes vs image start

/-- The fields of a struct in turn. -/
def InlineFields.copyFieldBytes : (fs : InlineFields) → fs.Vals → Bytes → Nat → Bytes
  | .done _, _, image, _ => image
  | .field padding t fs, vs, image, start =>
    fs.copyFieldBytes vs.2 (t.copyFieldBytes vs.1 image (start + padding))
      (start + padding + t.size)

end

/-- `struct_image`: the image of a struct that has padding is copied over zeroed bytes. -/
def structImage (memory : Nat → UInt8) (fs : InlineFields) (vs : fs.Vals) : Bytes :=
  if fs.packedSize ≠ fs.size then fs.copyFieldBytes vs (List.replicate fs.size 0) 0
  else fs.objectBytes memory 0 vs

mutual

/-- `load_unaligned`, read from `start` on: the value whose bytes stand there. -/
def InlineTy.loadUnaligned : (t : InlineTy) → Bytes → Nat → t.Val
  | .scalar s, image, start => s.ofBytes (substr image start s.size)
  | .enumeration u, image, start => u.ofBytes (substr image start u.size)
  | .struct fs, image, start => fs.loadUnaligned image start

/-- The fields of a struct, each from its offset. -/
def InlineFields.loadUnaligned : (fs : InlineFields) → Bytes → Nat → fs.Vals
  | .done _, _, _ => ()
  | .field padding t fs, image, start =>
    (t.loadUnaligned image (start + padding), fs.loadUnaligned image (start + padding + t.size))

end

/-! ## What an image holds -/

@[simp] theorem length_paddingBytes (memory : Nat → UInt8) (start count : Nat) :
    (paddingBytes memory start count).length = count := by
  rw [paddingBytes, List.length_map, List.length_range]

theorem paddingBytes_zero (start count : Nat) :
    paddingBytes (fun _ => 0) start count = List.replicate count 0 := by
  rw [paddingBytes, List.map_const', List.length_range]

mutual

@[simp] theorem InlineTy.length_objectBytes (memory : Nat → UInt8) :
    (t : InlineTy) → (start : Nat) → (v : t.Val) → (t.objectBytes memory start v).length = t.size
  | .scalar s, _, v => s.length_bytes v
  | .enumeration u, _, v => u.length_bytes v
  | .struct fs, start, vs => fs.length_objectBytes memory start vs

@[simp] theorem InlineFields.length_objectBytes (memory : Nat → UInt8) :
    (fs : InlineFields) → (start : Nat) → (vs : fs.Vals) →
      (fs.objectBytes memory start vs).length = fs.size
  | .done padding, start, _ => length_paddingBytes memory start padding
  | .field padding t fs, start, vs => by
    rw [InlineFields.objectBytes, List.length_append, List.length_append, length_paddingBytes,
      t.length_objectBytes, fs.length_objectBytes, InlineFields.size, Nat.add_assoc]

end

mutual

theorem InlineTy.packedSize_le : (t : InlineTy) → t.packedSize ≤ t.size
  | .scalar s => Nat.le_refl s.size
  | .enumeration u => Nat.le_refl u.size
  | .struct fs => fs.packedSize_le

theorem InlineFields.packedSize_le : (fs : InlineFields) → fs.packedSize ≤ fs.size
  | .done padding => Nat.zero_le padding
  | .field padding t fs => by
    have ht := t.packedSize_le
    have hfs := fs.packedSize_le
    rw [InlineFields.packedSize, InlineFields.size]
    omega

end

mutual

/-- The bytes of a value without padding are the value's alone. -/
theorem InlineTy.objectBytes_packed (memory : Nat → UInt8) :
    (t : InlineTy) → (start : Nat) → (v : t.Val) → t.packedSize = t.size →
      t.objectBytes memory start v = t.objectBytes (fun _ => 0) start v
  | .scalar _, _, _, _ => rfl
  | .enumeration _, _, _, _ => rfl
  | .struct fs, start, vs, h => fs.objectBytes_packed memory start vs h

theorem InlineFields.objectBytes_packed (memory : Nat → UInt8) :
    (fs : InlineFields) → (start : Nat) → (vs : fs.Vals) → fs.packedSize = fs.size →
      fs.objectBytes memory start vs = fs.objectBytes (fun _ => 0) start vs
  | .done padding, start, _, h => by
    have hnone : padding = 0 := h.symm
    subst hnone
    rfl
  | .field padding t fs, start, vs, h => by
    have ht := t.packedSize_le
    have hfs := fs.packedSize_le
    rw [InlineFields.packedSize, InlineFields.size] at h
    have hnone : padding = 0 := by omega
    subst hnone
    rw [InlineFields.objectBytes, InlineFields.objectBytes,
      t.objectBytes_packed memory _ vs.1 (by omega),
      fs.objectBytes_packed memory _ vs.2 (by omega)]
    rfl

end

mutual

/-- Copied over zeroed bytes, the fields stand at their offsets with zeros between them. -/
theorem InlineTy.copyFieldBytes_zeros : (t : InlineTy) → (v : t.Val) → (before after : Bytes) →
    t.copyFieldBytes v (before ++ (List.replicate t.size 0 ++ after)) before.length =
      before ++ (t.objectBytes (fun _ => 0) before.length v ++ after)
  | .scalar s, v, _, _ =>
    overwrite_middle ((s.length_bytes v).trans (List.length_replicate ..).symm)
  | .enumeration u, v, _, _ =>
    overwrite_middle ((u.length_bytes v).trans (List.length_replicate ..).symm)
  | .struct fs, vs, before, after => fs.copyFieldBytes_zeros vs before after

theorem InlineFields.copyFieldBytes_zeros : (fs : InlineFields) → (vs : fs.Vals) →
    (before after : Bytes) →
    fs.copyFieldBytes vs (before ++ (List.replicate fs.size 0 ++ after)) before.length =
      before ++ (fs.objectBytes (fun _ => 0) before.length vs ++ after)
  | .done padding, _, before, after => by
    rw [InlineFields.copyFieldBytes, InlineFields.objectBytes, paddingBytes_zero]
    rfl
  | .field padding t fs, vs, before, after => by
    have hgap : (before ++ List.replicate padding 0).length = before.length + padding := by
      rw [List.length_append, List.length_replicate]
    have hsplit : before ++ (List.replicate (InlineFields.field padding t fs).size 0 ++ after) =
        (before ++ List.replicate padding 0) ++
          (List.replicate t.size 0 ++ (List.replicate fs.size 0 ++ after)) := by
      rw [InlineFields.size, List.replicate_add, List.replicate_add]
      simp only [List.append_assoc]
    have hone := t.copyFieldBytes_zeros vs.1 (before ++ List.replicate padding 0)
      (List.replicate fs.size 0 ++ after)
    rw [hgap] at hone
    have hlen : ((before ++ List.replicate padding 0) ++
        t.objectBytes (fun _ => 0) (before.length + padding) vs.1).length =
        before.length + padding + t.size := by
      rw [List.length_append, hgap, t.length_objectBytes]
    have hrest := fs.copyFieldBytes_zeros vs.2 ((before ++ List.replicate padding 0) ++
      t.objectBytes (fun _ => 0) (before.length + padding) vs.1) after
    rw [hlen] at hrest
    rw [InlineFields.copyFieldBytes, hsplit, hone, ← List.append_assoc _ _ (_ ++ after), hrest,
      InlineFields.objectBytes, paddingBytes_zero]
    simp only [List.append_assoc]

end

/-- An image shows nothing of the memory the struct lay in. -/
theorem structImage_eq (memory : Nat → UInt8) (fs : InlineFields) (vs : fs.Vals) :
    structImage memory fs vs = fs.objectBytes (fun _ => 0) 0 vs := by
  rw [structImage]
  by_cases h : fs.packedSize = fs.size
  · rw [if_neg (not_not_intro h)]
    exact fs.objectBytes_packed memory 0 vs h
  · rw [if_pos h]
    have hcopy := fs.copyFieldBytes_zeros vs [] []
    simpa only [List.nil_append, List.append_nil, List.length_nil] using hcopy

mutual

/-- A value is read from where its bytes stand. -/
theorem InlineTy.loadUnaligned_objectBytes (memory : Nat → UInt8) : (t : InlineTy) →
    (v : t.Val) → (start : Nat) → (before after : Bytes) →
    t.loadUnaligned (before ++ (t.objectBytes memory start v ++ after)) before.length = v
  | .scalar s, v, _, _, _ => by
    rw [InlineTy.loadUnaligned, InlineTy.objectBytes, substr_middle (s.length_bytes v)]
    exact s.ofBytes_bytes v
  | .enumeration u, v, _, _, _ => by
    rw [InlineTy.loadUnaligned, InlineTy.objectBytes, substr_middle (u.length_bytes v)]
    exact u.ofBytes_bytes v
  | .struct fs, vs, start, before, after =>
    fs.loadUnaligned_objectBytes memory vs start before after

theorem InlineFields.loadUnaligned_objectBytes (memory : Nat → UInt8) : (fs : InlineFields) →
    (vs : fs.Vals) → (start : Nat) → (before after : Bytes) →
    fs.loadUnaligned (before ++ (fs.objectBytes memory start vs ++ after)) before.length = vs
  | .done _, _, _, _, _ => rfl
  | .field padding t fs, vs, start, before, after => by
    have hgap : (before ++ paddingBytes memory start padding).length =
        before.length + padding := by
      rw [List.length_append, length_paddingBytes]
    have hone := t.loadUnaligned_objectBytes memory vs.1 (start + padding)
      (before ++ paddingBytes memory start padding)
      (fs.objectBytes memory (start + padding + t.size) vs.2 ++ after)
    have hlen : ((before ++ paddingBytes memory start padding) ++
        t.objectBytes memory (start + padding) vs.1).length =
        before.length + padding + t.size := by
      rw [List.length_append, hgap, t.length_objectBytes]
    have hrest := fs.loadUnaligned_objectBytes memory vs.2 (start + padding + t.size)
      ((before ++ paddingBytes memory start padding) ++
        t.objectBytes memory (start + padding) vs.1) after
    rw [hgap] at hone
    rw [hlen] at hrest
    rw [InlineFields.loadUnaligned, InlineFields.objectBytes]
    simp only [List.append_assoc] at hone hrest ⊢
    rw [hone, hrest]
    rfl

end

/-- A struct is read back from its image. -/
theorem loadUnaligned_structImage (memory : Nat → UInt8) (fs : InlineFields) (vs : fs.Vals) :
    fs.loadUnaligned (structImage memory fs vs) 0 = vs := by
  have hload := fs.loadUnaligned_objectBytes (fun _ => 0) vs 0 [] []
  rw [structImage_eq]
  simpa only [List.nil_append, List.append_nil, List.length_nil] using hload

end Kotatsu.Codec.Fbs
