import Mathlib.Data.Rat.Defs

/-!
# Type infos

What the codec knows of a type at run time: its kind, and the infos of the types it is
made of. An info is named by an index, as the program names it by its address, and a
graph of infos gives each index its info.
-/

namespace Kotatsu.Codec

/-- `type_kind` of the fixed-width integers. -/
inductive IntegerKind where
  | int8
  | int16
  | int32
  | int64
  | uint8
  | uint16
  | uint32
  | uint64
deriving DecidableEq, Repr

/-- `tag_mode`. -/
inductive TagMode where
  | none
  | external
  | internal
  | adjacent
deriving DecidableEq, Repr

/-- `presence_kind`. -/
inductive PresenceKind where
  | required
  | optional
  | omitIfDefault
  | omitIf
deriving DecidableEq, Repr

/-- `schema_number`; a floating-point bound is finite. -/
inductive SchemaNumber where
  | unset
  | int (n : Int)
  | uint (n : Nat)
  | double (x : Rat)
deriving DecidableEq

/-- `field_info`. -/
structure FieldInfo (I : Type) where
  name : String
  aliases : List String
  type : I
  presence : PresenceKind
  description : String
  schemaDefault : Bool
  minimum : SchemaNumber
  maximum : SchemaNumber
  choices : List String

/-- `struct_type_info`. -/
structure StructTypeInfo (I : Type) where
  denyUnknown : Bool
  fields : List (FieldInfo I)
  description : String

/-- `enum_type_info`; an underlying type of `char` or `bool` is no integer kind. -/
structure EnumTypeInfo where
  memberNames : List String
  underlyingKind : Option IntegerKind
  named : Bool

/-- `variant_type_info`. -/
structure VariantTypeInfo (I : Type) where
  alternatives : List I
  tagging : TagMode
  tagField : String
  contentField : String
  altNames : List String
  denyUnknown : Bool

/-- `type_kind`, with the rest of the info of each kind. -/
inductive Shape (I : Type) where
  | null
  | boolean
  | integer (kind : IntegerKind)
  | floating
  | character
  | string
  | bytes
  | enumeration (info : EnumTypeInfo)
  | array (element : I)
  | set (element : I)
  | map (key value : I)
  | tuple (elements : List I)
  | structure (info : StructTypeInfo I)
  | variant (info : VariantTypeInfo I)
  | optional (inner : I)
  | pointer (inner : I)
  | any
  | unknown

/-- `type_info`. -/
structure TypeInfo (I : Type) where
  typeName : String
  shape : Shape I

/-- The infos of a program. -/
abbrev Infos (I : Type) := I → TypeInfo I

end Kotatsu.Codec
