import Mathlib.Data.List.DropRight
import Kotatsu.Codec.Dyn.Value
import Kotatsu.Codec.TypeInfo

/-!
# The schema emitter

`SchemaEmitter` writes the schema of an info by walking the infos it is made of. It keeps
the names of the structs it has referred to and the bodies it has written for them; all
other infos are written where they stand. A walk that goes on for ever shows as running
out of any fuel: what a step calls is the emitter with one unit less.
-/

namespace Kotatsu.Codec.Json.Schema

open Kotatsu.Codec.Dyn

/-! ## Names -/

/-- The loop of `normalize_identifier`. -/
def spellFrom (out : List Char) : List Char → List Char
  | [] => out
  | c :: text =>
    if c.isAlphanum then spellFrom (out ++ [c]) text
    else if out.getLast? ≠ some '_' then spellFrom (out ++ ['_']) text
    else spellFrom out text

/-- `normalize_identifier`. -/
def normalizeIdentifier (text : String) : String :=
  let out := (spellFrom [] text.toList).rdropWhile (· = '_')
  match out with
  | [] => "unnamed"
  | c :: _ => if c.isDigit then String.ofList ('_' :: out) else String.ofList out

/-! ## State -/

/-- What the emitter has written: `defs`, `def_names` and `used_names`. -/
structure State (I : Type) where
  defs : List (String × Value)
  defNames : List (I × String)
  usedNames : List String

/-- A computation of the emitter, which may run out of fuel or fail with an error. -/
abbrev Emit (I : Type) (α : Type) := StateT (State I) (ExceptT String Option) α

/-- A computation that runs out of fuel. -/
def exhausted {I α : Type} : Emit I α := fun _ => none

/-- A computation that fails. -/
def fail {I α : Type} (message : String) : Emit I α := fun _ => some (.error message)

/-- A result that may have run out of fuel. -/
def ofFuel {I α : Type} (result : Option α) : Emit I α := fun s =>
  result.map fun a => .ok (a, s)

/-- A result that may be an error. -/
def ofExcept {I α : Type} (result : Except String α) : Emit I α := fun s =>
  some (result.map fun a => (a, s))

/-! ## Parameters -/

/-- `schema_options`, `human_readable` and `DefaultDocuments`. -/
structure Options (I : Type) where
  denyUnknownFields : Bool
  humanReadable : Bool
  rootDocument : Option Object
  freshDocument : I → Option Object

/-- `InternalTag`. -/
structure InternalTag where
  field : String
  altName : String
  denyUnknown : Bool

section Emitter

variable {I : Type}

/-- `unwrap`. -/
def unwrap (infos : Infos I) : Nat → I → Option I
  | 0, _ => none
  | fuel + 1, ti =>
    match (infos ti).shape with
    | .optional inner => unwrap infos fuel inner
    | .pointer inner => unwrap infos fuel inner
    | _ => some ti

/-- `alternative_name`. -/
def alternativeName (infos : Infos I) (vi : VariantTypeInfo I) (i : Nat) (alternative : I) :
    String :=
  match vi.altNames[i]? with
  | some name => name
  | none => normalizeIdentifier (infos alternative).typeName

/-- `{"type": name}`. -/
def typed (name : String) : Value := .object [("type", .string name)]

/-- `make_integer`. -/
def makeInteger (minVal maxVal : Int) : Value :=
  .object [("type", .string "integer"), ("minimum", .int minVal), ("maximum", .int maxVal)]

/-- `make_unsigned`. -/
def makeUnsigned (maxVal : Nat) : Value :=
  .object [("type", .string "integer"), ("minimum", .uint 0), ("maximum", .uint maxVal)]

/-- `make_integer_kind`. -/
def makeIntegerKind : Option IntegerKind → Value
  | some .int8 => makeInteger (-128) 127
  | some .int16 => makeInteger (-32768) 32767
  | some .int32 => makeInteger (-2147483648) 2147483647
  | some .int64 => makeInteger (-9223372036854775808) 9223372036854775807
  | some .uint8 => makeUnsigned 255
  | some .uint16 => makeUnsigned 65535
  | some .uint32 => makeUnsigned 4294967295
  | some .uint64 => makeUnsigned 18446744073709551615
  | none => typed "integer"

/-- `make_enum`. -/
def makeEnum (ei : EnumTypeInfo) : Value :=
  if ei.named then .object [("enum", .array (ei.memberNames.map .string))]
  else makeIntegerKind ei.underlyingKind

/-- The pattern `key_names` gives an integer key. -/
def integerKeyNames : IntegerKind → Value
  | .int8 | .int16 | .int32 | .int64 => .object [("pattern", .string "^-?[0-9]+$")]
  | .uint8 | .uint16 | .uint32 | .uint64 => .object [("pattern", .string "^[0-9]+$")]

/-- `key_names`. -/
def keyNames (infos : Infos I) (ti : I) : Option Value :=
  match (infos ti).shape with
  | .enumeration ei =>
    if ei.named then some (makeEnum ei) else ei.underlyingKind.map integerKeyNames
  | .integer kind => some (integerKeyNames kind)
  | _ => none

/-! ## Bounds and choices -/

/-- The number a bound or a value is. -/
def toRat : SchemaNumber → Option Rat
  | .unset => none
  | .int n => some n
  | .uint n => some n
  | .double x => some x

/-- `compare_numbers`, where neither is unset. -/
def compareNumbers (a b : SchemaNumber) : Option Ordering := do
  let x ← toRat a
  let y ← toRat b
  some (if x < y then .lt else if y < x then .gt else .eq)

/-- `number_of`. -/
def numberOf : Value → SchemaNumber
  | .int n => .int n
  | .uint n => .uint n
  | .double x => .double x
  | _ => .unset

/-- `to_dyn`. -/
def toDyn : SchemaNumber → Value
  | .unset => .null
  | .int n => .int n
  | .uint n => .uint n
  | .double x => .double x

/-- The last entry of a key, replaced. -/
def replaceLast (key : String) (v : Value) : Object → Object
  | [] => []
  | (k, w) :: rest =>
    if k = key ∧ (find rest key).isNone then (k, v) :: rest
    else (k, w) :: replaceLast key v rest

/-- `std::holds_alternative<double>` of a number. -/
def isDouble : SchemaNumber → Bool
  | .double _ => true
  | _ => false

/-- `bound`. -/
def bound (branch : Object) (name key : String) (number : SchemaNumber) (tighter : Ordering) :
    Except String Object :=
  if number = .unset then .ok branch
  else
    if (find branch "type").bind Value.getString = some "integer" ∧ isDouble number then
      .error ("floating-point " ++ key ++ " on integer field '" ++ name ++ "'")
    else
      match find branch key with
      | some current =>
        if compareNumbers number (numberOf current) = some tighter then
          .ok (replaceLast key (toDyn number) branch)
        else .ok branch
      | none => .ok (branch ++ [(key, toDyn number)])

mutual

/-- The branches of `typed_branches`, changed one after another, and how many they are. -/
def updateBranches (types : List String) (f : Object → Except String Object) :
    Value → Except String (Value × Nat)
  | .object entries =>
    match (find entries "type").bind Value.getString with
    | some name =>
      if name ∈ types then do
        let entries ← f entries
        .ok (.object entries, 1)
      else do
        let (entries, n) ← updateAnyOf types f entries
        .ok (.object entries, n)
    | none => do
      let (entries, n) ← updateAnyOf types f entries
      .ok (.object entries, n)
  | v => .ok (v, 0)

/-- The branches of the `anyOf` entry. -/
def updateAnyOf (types : List String) (f : Object → Except String Object) :
    List (String × Value) → Except String (Object × Nat)
  | [] => .ok ([], 0)
  | (k, v) :: rest =>
    if k = "anyOf" ∧ (find rest "anyOf").isNone then do
      let (v, n) ← updateArray types f v
      .ok ((k, v) :: rest, n)
    else do
      let (rest, n) ← updateAnyOf types f rest
      .ok ((k, v) :: rest, n)

/-- The branches of the values of an array. -/
def updateArray (types : List String) (f : Object → Except String Object) :
    Value → Except String (Value × Nat)
  | .array items => do
    let (items, n) ← updateItems types f items
    .ok (.array items, n)
  | v => .ok (v, 0)

def updateItems (types : List String) (f : Object → Except String Object) :
    List Value → Except String (List Value × Nat)
  | [] => .ok ([], 0)
  | v :: vs => do
    let (v, n) ← updateBranches types f v
    let (vs, m) ← updateItems types f vs
    .ok (v :: vs, n + m)

end

/-- The bounds `constrain` writes. -/
def constrainBounds (schema : Value) (f : FieldInfo I) : Except String Value :=
  if f.minimum ≠ .unset ∨ f.maximum ≠ .unset then do
    let (schema, n) ← updateBranches ["integer", "number"] (fun branch => do
      let branch ← bound branch f.name "minimum" f.minimum .gt
      bound branch f.name "maximum" f.maximum .lt) schema
    if n = 0 then
      .error ("minimum or maximum on field '" ++ f.name ++ "', which is not a number")
    else .ok schema
  else .ok schema

/-- The choices `constrain` writes. -/
def constrainChoices (schema : Value) (f : FieldInfo I) : Except String Value :=
  if f.choices ≠ [] then do
    let (schema, n) ← updateBranches ["string"] (fun branch =>
      .ok (branch ++ [("enum", .array (f.choices.map .string))])) schema
    if n = 0 then .error ("choices on field '" ++ f.name ++ "', which is not a string")
    else .ok schema
  else .ok schema

/-- `constrain`. -/
def constrain (schema : Value) (f : FieldInfo I) : Except String Value := do
  let schema ← constrainBounds schema f
  constrainChoices schema f

/-! ## Structs -/

/-- `is_required`. -/
def isRequired (f : FieldInfo I) : Bool := f.presence == .required

/-- `schema.get_object()->insert`. -/
def insertEntry (schema : Value) (key : String) (v : Value) : Value :=
  match schema with
  | .object entries => .object (entries ++ [(key, v)])
  | schema => schema

/-- The properties of a field: its schema, constrained, under its name and aliases. -/
def fieldEntries (doc : Option Object) (f : FieldInfo I) (schema : Value) : Object :=
  let aliased := schema
  let schema :=
    if f.description ≠ "" then insertEntry schema "description" (.string f.description)
    else schema
  let schema :=
    match if isRequired f then none else doc.bind (find · f.name) with
    | some value => insertEntry schema "default" value
    | none => schema
  (f.name, schema) :: f.aliases.map fun name => (name, aliased)

/-- The turn of `make_properties` for a field. -/
def makeField (makeSchema : I → Emit I Value) (doc : Option Object) (f : FieldInfo I) :
    Emit I Object := do
  if f.schemaDefault = false ∧ isRequired f then
    fail ("schema_default = false on field '" ++ f.name ++ "', which is required")
  else
    let schema ← makeSchema f.type
    let schema ← ofExcept (constrain schema f)
    pure (fieldEntries doc f schema)

/-- `make_properties`. -/
def makeProperties (makeSchema : I → Emit I Value) (doc : Option Object) :
    List (FieldInfo I) → Emit I Object
  | [] => pure []
  | f :: fields => do
    let props ← makeField makeSchema doc f
    let rest ← makeProperties makeSchema doc fields
    pure (props ++ rest)

/-- `{"required": [name]}`. -/
def requires (name : String) : Value := .object [("required", .array [.string name])]

/-- The names `required` lists. -/
def requiredNames (fields : List (FieldInfo I)) (tag : Option InternalTag) : List String :=
  (fields.filter fun f => isRequired f && f.aliases.isEmpty).map FieldInfo.name ++
    tag.toList.map InternalTag.field

/-- `named_once`: a required field with aliases is present under one of its names. -/
def namedOnce (fields : List (FieldInfo I)) : List Value :=
  (fields.filter fun f => isRequired f && !f.aliases.isEmpty).map fun f =>
    .object [("anyOf", .array (requires f.name :: f.aliases.map requires))]

/-- An entry that is written only when it is wanted. -/
def entryIf (wanted : Bool) (key : String) (v : Value) : Object :=
  if wanted then [(key, v)] else []

/-- The entries `add_struct_body` writes, given the properties of the fields. -/
def structEntries (options : Options I) (si : StructTypeInfo I) (tag : Option InternalTag)
    (props : Object) : Object :=
  let props :=
    props ++ tag.toList.map fun tag => (tag.field, .object [("const", .string tag.altName)])
  let required := requiredNames si.fields tag
  [("type", .string "object")] ++
    entryIf (si.description ≠ "") "description" (.string si.description) ++
    [("properties", .object props)] ++
    entryIf (required ≠ []) "required" (.array (required.map .string)) ++
    entryIf (!(namedOnce si.fields).isEmpty) "allOf" (.array (namedOnce si.fields)) ++
    entryIf (si.denyUnknown || options.denyUnknownFields || tag.any InternalTag.denyUnknown)
      "additionalProperties" (.boolean false)

/-- `add_struct_body`. -/
def addStructBody (options : Options I) (makeSchema : I → Emit I Value)
    (si : StructTypeInfo I) (doc : Option Object) (tag : Option InternalTag) :
    Emit I Object := do
  let props ← makeProperties makeSchema doc si.fields
  pure (structEntries options si tag props)

/-- `{"$ref": target}`. -/
def refTo (target : String) : Value := .object [("$ref", .string target)]

/-- `make_struct_ref`. -/
def makeStructRef [DecidableEq I] (infos : Infos I) (options : Options I) (root : I)
    (makeSchema : I → Emit I Value) (ti : I) (si : StructTypeInfo I) : Emit I Value := do
  if ti = root then pure (refTo "#")
  else
    let s ← get
    match s.defNames.lookup ti with
    | some name => pure (refTo ("#/$defs/" ++ name))
    | none =>
      let spelled := normalizeIdentifier (infos ti).typeName
      if spelled ∈ s.usedNames then
        fail ("duplicate $defs name '" ++ spelled ++ "' from type '" ++ (infos ti).typeName ++
          "'")
      else
        set { s with
          usedNames := s.usedNames ++ [spelled]
          defNames := s.defNames ++ [(ti, spelled)] }
        let body ← addStructBody options makeSchema si (options.freshDocument ti) none
        modify fun s => { s with defs := s.defs ++ [(spelled, .object body)] }
        pure (refTo ("#/$defs/" ++ spelled))

/-! ## Variants -/

/-- The info of `std::monostate` as an alternative: a struct without fields. -/
def unit : StructTypeInfo I := { denyUnknown := false, fields := [], description := "" }

/-- An internally tagged alternative that is no struct. -/
def taggedSchema (tag : InternalTag) (schema : Value) : Value :=
  .object [("allOf", .array [schema, .object [
    ("properties", .object [(tag.field, .object [("const", .string tag.altName)])]),
    ("required", .array [.string tag.field])]])]

/-- `make_internal_tagged`. -/
def makeInternalTagged (infos : Infos I) (options : Options I) (fuel : Nat)
    (makeSchema : I → Emit I Value) (ti : I) (tag : InternalTag) : Emit I Value := do
  let ti ← ofFuel (unwrap infos fuel ti)
  match (infos ti).shape with
  | .null => do
    let body ← addStructBody options makeSchema unit none (some tag)
    pure (.object body)
  | .structure si => do
    let body ← addStructBody options makeSchema si (options.freshDocument ti) (some tag)
    pure (.object body)
  | _ => do
    let schema ← makeSchema ti
    pure (taggedSchema tag schema)

/-- An externally tagged alternative. -/
def externalAlternative (altName : String) (schema : Value) : Value :=
  .object [
    ("type", .string "object"),
    ("properties", .object [(altName, schema)]),
    ("required", .array [.string altName]),
    ("additionalProperties", .boolean false)]

/-- An adjacently tagged alternative. -/
def adjacentAlternative (options : Options I) (vi : VariantTypeInfo I) (altName : String)
    (schema : Value) : Value :=
  .object ([
    ("type", .string "object"),
    ("properties", .object [
      (vi.tagField, .object [("const", .string altName)]), (vi.contentField, schema)]),
    ("required", .array [.string vi.tagField, .string vi.contentField])] ++
    entryIf (vi.denyUnknown || options.denyUnknownFields) "additionalProperties"
      (.boolean false))

/-- The turn of `make_variant` for an alternative. -/
def makeAlternative (infos : Infos I) (options : Options I) (fuel : Nat)
    (makeSchema : I → Emit I Value) (vi : VariantTypeInfo I) (tagging : TagMode) (i : Nat)
    (alternative : I) : Emit I Value := do
  let altName := alternativeName infos vi i alternative
  match tagging with
  | .none => makeSchema alternative
  | .external => do
    let schema ← makeSchema alternative
    pure (externalAlternative altName schema)
  | .internal =>
    makeInternalTagged infos options fuel makeSchema alternative
      { field := vi.tagField, altName := altName, denyUnknown := vi.denyUnknown }
  | .adjacent => do
    let schema ← makeSchema alternative
    pure (adjacentAlternative options vi altName schema)

/-- The loop of `make_variant` from alternative `i` on. -/
def makeAlternatives (infos : Infos I) (options : Options I) (fuel : Nat)
    (makeSchema : I → Emit I Value) (vi : VariantTypeInfo I) (tagging : TagMode) :
    Nat → List I → Emit I (List Value)
  | _, [] => pure []
  | i, alternative :: rest => do
    let schema ← makeAlternative infos options fuel makeSchema vi tagging i alternative
    let alts ← makeAlternatives infos options fuel makeSchema vi tagging (i + 1) rest
    pure (schema :: alts)

/-- How a variant is tagged in the documents. -/
def taggingOf (options : Options I) (vi : VariantTypeInfo I) : TagMode :=
  if options.humanReadable then vi.tagging else .none

/-- The schema of a variant. -/
def variantOf (tagging : TagMode) (alts : List Value) : Value :=
  .object [(if tagging = .none then "anyOf" else "oneOf", .array alts)]

/-- `make_variant`. -/
def makeVariant (infos : Infos I) (options : Options I) (fuel : Nat)
    (makeSchema : I → Emit I Value) (vi : VariantTypeInfo I) : Emit I Value := do
  let tagging := taggingOf options vi
  let alts ← makeAlternatives infos options fuel makeSchema vi tagging 0 vi.alternatives
  pure (variantOf tagging alts)

/-! ## Schemas -/

/-- A schema that also admits null. -/
def nullable (schema : Value) : Value := .object [("anyOf", .array [schema, typed "null"])]

/-- The schema of a sequence. -/
def arrayOf (items : Value) : Value := .object [("type", .string "array"), ("items", items)]

/-- The schema of a map. -/
def mapOf (names : Option Value) (schema : Value) : Value :=
  .object ([("type", .string "object"), ("additionalProperties", schema)] ++
    names.toList.map fun names => ("propertyNames", names))

/-- The schema of a tuple. -/
def tupleOf (items : List Value) (size : Nat) : Value :=
  .object [
    ("type", .string "array"), ("prefixItems", .array items), ("items", .boolean false),
    ("minItems", .uint size), ("maxItems", .uint size)]

/-- The schema of a kind that is made of no other info. -/
def leafSchema : Shape I → Option Value
  | .null => some (typed "null")
  | .boolean => some (typed "boolean")
  | .character => some (.object [
      ("type", .string "string"), ("pattern", .string "^[\\u0000-\\u00FF]$")])
  | .string => some (typed "string")
  | .bytes => some (arrayOf (makeInteger 0 255))
  | .floating => some (typed "number")
  | .integer kind => some (makeIntegerKind (some kind))
  | .enumeration ei => some (makeEnum ei)
  | .any => some (.object [])
  | _ => none

/-- The loop of `make_tuple`. -/
def makeElements (makeSchema : I → Emit I Value) : List I → Emit I (List Value)
  | [] => pure []
  | ti :: rest => do
    let elem ← makeSchema ti
    let items ← makeElements makeSchema rest
    pure (elem :: items)

/-- `make_schema`. -/
def makeSchema [DecidableEq I] (infos : Infos I) (options : Options I) (root : I) :
    Nat → I → Emit I Value
  | 0, _ => exhausted
  | fuel + 1, ti =>
    match (infos ti).shape with
    | .optional _ | .pointer _ => do
      let inner ← ofFuel (unwrap infos fuel ti)
      let schema ← makeSchema infos options root fuel inner
      pure (nullable schema)
    | .array element | .set element => do
      let items ← makeSchema infos options root fuel element
      pure (arrayOf items)
    | .map key value => do
      let schema ← makeSchema infos options root fuel value
      pure (mapOf (keyNames infos key) schema)
    | .tuple elements => do
      let items ← makeElements (makeSchema infos options root fuel) elements
      pure (tupleOf items elements.length)
    | .structure si =>
      makeStructRef infos options root (makeSchema infos options root fuel) ti si
    | .variant vi => makeVariant infos options fuel (makeSchema infos options root fuel) vi
    | shape =>
      match leafSchema shape with
      | some schema => pure schema
      | none =>
        fail ("unsupported type kind '" ++ (infos ti).typeName ++
          "' for JSON Schema generation")

/-- The dialect every schema names. -/
def dialect : String × Value :=
  ("$schema", .string "https://json-schema.org/draft/2020-12/schema")

/-- The body of the root's schema. -/
def emitRoot [DecidableEq I] (infos : Infos I) (options : Options I) (fuel : Nat) (root : I) :
    Emit I Object := do
  match (infos root).shape with
  | .structure si => do
    modify fun s =>
      { s with usedNames := s.usedNames ++ [normalizeIdentifier (infos root).typeName] }
    addStructBody options (makeSchema infos options root fuel) si options.rootDocument none
  | _ => do
    let body ← makeSchema infos options root fuel root
    pure (body.getObject.getD [])

/-- `emit`, with fuel for the walk. -/
def emit [DecidableEq I] (infos : Infos I) (options : Options I) (fuel : Nat) (root : I) :
    Option (Except String Value) := do
  let root ← unwrap infos fuel root
  let result ← emitRoot infos options fuel root { defs := [], defNames := [], usedNames := [] }
  match result with
  | .error e => some (.error e)
  | .ok (body, s) =>
    some (.ok (.object ([dialect] ++ body ++
      entryIf (!s.defs.isEmpty) "$defs" (.object s.defs))))

end Emitter

end Kotatsu.Codec.Json.Schema
