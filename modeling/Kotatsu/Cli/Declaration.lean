import Kotatsu.Cli.Table.Option

/-!
# Declarations of options

A struct of options is checked when it is compiled, and built into a command by the same
rules. This is the check: what a field is on a command line, the names an option registers,
and what the check refuses.
-/

namespace Kotatsu.Cli

open Kotatsu.Core Kotatsu.Cli.Table

/-- `KVStyle`. -/
inductive KVStyle where
  | joined
  | separate
  | joinedOrSeparate
deriving DecidableEq, Repr

/-- `has_style(style, KVStyle::Joined)`. -/
def KVStyle.hasJoined (style : KVStyle) : Bool := style ≠ .separate

/-- `has_style(style, KVStyle::Separate)`. -/
def KVStyle.hasSeparate (style : KVStyle) : Bool := style ≠ .joined

/-- `ArgNum`. -/
structure ArgNum where
  min : Nat := 1
  max : Nat := 2 ^ 32 - 1
deriving DecidableEq, Repr

/-- `ArgSpec`. -/
structure ArgSpec where
  names : List Bytes := []
  positional : Bool := false
  rest : Bool := false
  count : Bool := false
  stop : Bool := false
  style : KVStyle := .joinedOrSeparate
  comma : Bool := false
  argNum : ArgNum := {}
  forward : List Bytes := []
  exclusive : Bool := false
  hiddenSub : List Bytes := []
  global : Bool := false
deriving DecidableEq, Repr

/-- The kinds of types a value of an argument is told apart by. -/
inductive ValueKind where
  | boolean
  | tuple (size : Nat)
  | other
deriving DecidableEq, Repr

/-- `field_info` of an argument: its declared name, whether its presence is required, and its
type, a value or a list of them, under a `std::optional` or not. -/
structure FieldInfo where
  declaredName : Bytes
  spec : ArgSpec := {}
  required : Bool := false
  optional : Bool := false
  list : Bool := false
  value : ValueKind := .other
deriving DecidableEq, Repr

/-- `tag_mode`. -/
inductive TagMode where
  | none
  | external
  | internal
  | adjacent
deriving DecidableEq, Repr

/-- A field of options, by `FieldUse::Kind`: structs and alternatives by their fields, and
subcommands with the words that name them. -/
inductive Field where
  | arg (info : FieldInfo)
  | group (spec : ArgSpec) (optional : Bool) (fields : List Field)
  | exclusive (spec : ArgSpec) (required : Bool) (tagging : TagMode)
      (alternatives : List (List Field))
  | subcommands (spec : ArgSpec) (optional : Bool) (tagging : TagMode)
      (alternatives : List (Bytes × List Field))
  | commands (spec : ArgSpec) (required : Bool) (entries : List (Bytes × List Field))

/-- `Shape`. -/
inductive Shape where
  | flag
  | count
  | value
  | tuple
  | alias
deriving DecidableEq, Repr

/-- What `use_of` says of an argument. -/
structure FieldUse where
  spec : ArgSpec
  required : Bool
  optional : Bool
  shape : Shape
  list : Bool
  tupleSize : Nat
deriving DecidableEq, Repr

/-- `use_of`. -/
def useOf (field : FieldInfo) : FieldUse :=
  let spec := field.spec
  let forwards := spec.forward ≠ []
  let list := !forwards && field.list
  let (shape, tupleSize) : Shape × Nat :=
    if forwards then (.alias, 0)
    else
      match field.value with
      | .tuple size => (.tuple, size)
      | value =>
        if value = .boolean ∧ ¬ list ∧ ¬ spec.positional ∧ ¬ spec.rest then (.flag, 0)
        else if spec.count then (.count, 0)
        else (.value, 0)
  { spec, shape, list, tupleSize
    optional := field.optional
    required := field.required || (spec.positional && !list && !field.optional) }

/-! ## Names -/

/-- `Spelling`. -/
structure Spelling where
  dashes : Bytes := []
  stem : Bytes := []
  suffix : Option UInt8 := none
deriving DecidableEq, Repr

/-- `Spelling::generated`. -/
def Spelling.generated (s : Spelling) : Bool := s.dashes ≠ []

/-- `'_'`. -/
def underscoreByte : UInt8 := 0x5F

/-- `Spelling::text`. Two spellings are equal when their texts are. -/
def Spelling.text (s : Spelling) : Bytes :=
  let stem := if s.generated then s.stem.map fun c => if c = underscoreByte then dashByte else c
    else s.stem
  s.dashes ++ stem ++ s.suffix.toList

/-- `NameForm::Role`. -/
inductive Role where
  | own
  | equals
  | onlyEquals
deriving DecidableEq, Repr

/-- The kinds of the options that a field names. -/
inductive IsNamed : OptionKind → Prop
  | flag : IsNamed .flag
  | joined : IsNamed .joined
  | separate : IsNamed .separate
  | commaJoined : IsNamed .commaJoined
  | multiArg : IsNamed .multiArg

/-- `NameForm`. -/
structure NameForm where
  name : Spelling
  kind : OptionKind
  role : Role := .own
  proper : IsNamed kind := by constructor
deriving DecidableEq, Repr

/-- `joined_name`. -/
def joinedName (style : KVStyle) (name : Bytes) : Bool :=
  if !style.hasJoined then false
  else !style.hasSeparate || name.getLast? = some equalsByte || name.getLast? = some colonByte

/-- The names `name_forms` goes through: an option's own, else one generated. -/
def eachName (use : FieldUse) (declared : Bytes) : List Spelling :=
  if use.spec.names = [] then
    [{ dashes := if declared.length = 1 then [dashByte] else [dashByte, dashByte]
       stem := declared }]
  else use.spec.names.map fun name => { stem := name }

/-- `name_forms`. -/
def nameForms (use : FieldUse) (declared : Bytes) : List NameForm :=
  let each := eachName use declared
  match use.shape with
  | .flag | .count | .alias => each.map fun name => { name, kind := .flag }
  | .tuple => each.map fun name => { name, kind := .multiArg }
  | .value =>
    if use.spec.comma then
      each.map fun name =>
        { name := if name.stem.getLast? = some commaByte then name
            else { name with suffix := some commaByte }
          kind := .commaJoined }
    else
      each.flatMap fun name =>
        let style := use.spec.style
        let joins := if name.generated then !style.hasSeparate else joinedName style name.stem
        if joins && !name.generated then [{ name, kind := .joined }]
        else
          (if joins then [] else [{ name, kind := .separate }]) ++
            if style.hasJoined then
              [{ name := { name with suffix := some equalsByte }
                 kind := .joined
                 role := if joins then .onlyEquals else .equals }]
            else []

/-! ## The check -/

/-- `DeclarationCheck`, its names by their texts. -/
structure DeclarationCheck where
  names : List Bytes := []
  equalsForms : List NameForm := []
  aliasNames : List Bytes := []
  forwards : List Bytes := []
  rest : Bool := false
  subcommands : Bool := false
  inAlternative : Bool := false
  alternativePositional : Bool := false
  requiredSubcommands : Bool := false
  ownArgument : Bool := false

namespace DeclarationCheck

/-- `claim_subcommands`. -/
def claimSubcommands (c : DeclarationCheck) : Except String DeclarationCheck :=
  if c.subcommands then .error "cli: a command has one field of subcommands"
  else .ok { c with subcommands := true }

/-- `check_name`. -/
def checkName (name : Bytes) : Except String Unit :=
  if name.length < 2 ∨ (name.head? ≠ some dashByte ∧ name.head? ≠ some slashByte) then
    .error "cli: an option name starts with '-', '--' or '/' and goes on"
  else .ok ()

/-- What `check_arg` does with each form of a name. -/
def addForms (use : FieldUse) (c : DeclarationCheck) :
    List NameForm → Except String DeclarationCheck
  | [] => .ok c
  | form :: forms => do
    checkName form.name.text
    let c := if use.shape = .alias then { c with aliasNames := c.aliasNames ++ [form.name.text] }
      else c
    if form.role = .own then addForms use { c with names := c.names ++ [form.name.text] } forms
    else addForms use { c with equalsForms := c.equalsForms ++ [form] } forms

/-- `check_arg`. -/
def checkArg (c : DeclarationCheck) (field : FieldInfo) : Except String DeclarationCheck :=
  let use := useOf field
  if use.spec.rest then
    if !use.list then .error "cli: the rest is a list"
    else if c.rest then .error "cli: one field takes the rest"
    else .ok { c with rest := true }
  else if use.spec.positional then .ok { c with alternativePositional := c.inAlternative }
  else if use.spec.comma && !use.list then .error "cli: a comma option is a list"
  else do
    let c ← addForms use c (nameForms use field.declaredName)
    .ok (if use.shape = .alias then { c with forwards := c.forwards ++ use.spec.forward } else c)

/-- The loop of `check` over the '=' forms. -/
def addEquals (names : List Bytes) : List NameForm → Except String (List Bytes)
  | [] => .ok names
  | form :: forms =>
    if form.name.text ∈ names then
      if form.role = .onlyEquals then .error "cli: two options are named the same"
      else addEquals names forms
    else addEquals (names ++ [form.name.text]) forms

/-- `repeats`. -/
def repeats : List Bytes → Bool
  | [] => false
  | value :: values => values.contains value || repeats values

/-- The end of `check`, once the fields are added. -/
def finish (c : DeclarationCheck) : Except String Unit :=
  if c.requiredSubcommands && c.ownArgument then
    .error ("cli: beside a subcommand that must be given, an argument is cli::global or " ++
      "stops the parse")
  else do
    let names ← addEquals c.names c.equalsForms
    if c.forwards.any (c.aliasNames.contains ·) then
      .error "cli: an alias stands for another alias"
    else if repeats names then .error "cli: two options are named the same"
    else .ok ()

mutual

/-- The loop of `add_struct`. -/
def addStruct (c : DeclarationCheck) (global conditional : Bool) :
    List Field → Except String DeclarationCheck
  | [] => .ok c
  | field :: fields => do
    let c ← addField c global conditional field
    addStruct c global conditional fields

/-- What `add_struct` does with a field. -/
def addField (c : DeclarationCheck) (global conditional : Bool) :
    Field → Except String DeclarationCheck
  | .arg field =>
    let use := useOf field
    let fieldGlobal := global || use.spec.global
    if use.spec.exclusive then .error "cli: an exclusive field is a std::variant of structs"
    else do
      let c ← checkArg c field
      .ok { c with
        ownArgument :=
          c.ownArgument || (!fieldGlobal && !use.spec.stop && use.shape ≠ .alias) }
  | .group spec optional fields =>
    if spec.exclusive then .error "cli: an exclusive field is a std::variant of structs"
    else addStruct c (global || spec.global) (conditional || optional) fields
  | .exclusive spec _ tagging alternatives =>
    if c.inAlternative then
      .error ("cli: an alternative of an exclusive field has no subcommands, " ++
        "and no exclusive field")
    else if tagging ≠ .none then .error "cli: an exclusive field is untagged"
    else do
      let (c, positional) ←
        checkExclusive { c with inAlternative := true } (global || spec.global) 0 alternatives
      if positional > 1 then
        .error "cli: one alternative of an exclusive field has positional arguments"
      else .ok { c with inAlternative := false }
  | .subcommands spec optional tagging alternatives =>
    if c.inAlternative then
      .error ("cli: an alternative of an exclusive field has no subcommands, " ++
        "and no exclusive field")
    else do
      let c ← c.claimSubcommands
      if tagging ≠ .none ∧ tagging ≠ .external then
        .error "cli: subcommands are named by their tag names alone"
      else do
        let words ← checkSubcommands alternatives
        if spec.hiddenSub.any fun hidden => !words.contains hidden then
          .error "cli: a hidden subcommand is one of the field's"
        else if repeats words then .error "cli: two subcommands are named the same"
        else .ok { c with
          requiredSubcommands := c.requiredSubcommands || (!optional && !conditional) }
  | .commands spec required _ =>
    if spec.exclusive then .error "cli: an exclusive field is a std::variant of structs"
    else if c.inAlternative then
      .error ("cli: an alternative of an exclusive field has no subcommands, " ++
        "and no exclusive field")
    else do
      let c ← c.claimSubcommands
      .ok { c with requiredSubcommands := c.requiredSubcommands || (required && !conditional) }

/-- The loop of `check_exclusive`, with how many alternatives have positional arguments. -/
def checkExclusive (c : DeclarationCheck) (global : Bool) (positional : Nat) :
    List (List Field) → Except String (DeclarationCheck × Nat)
  | [] => .ok (c, positional)
  | alternative :: alternatives => do
    let c ← addStruct { c with alternativePositional := false } global true alternative
    checkExclusive c global (positional + if c.alternativePositional then 1 else 0) alternatives

/-- The loop of `check_subcommands`: the words of the alternatives, each checked. -/
def checkSubcommands : List (Bytes × List Field) → Except String (List Bytes)
  | [] => .ok []
  | alternative :: alternatives => do
    let inner ← addStruct {} false false alternative.2
    inner.finish
    let words ← checkSubcommands alternatives
    .ok (alternative.1 :: words)

end

/-- `DeclarationCheck::check`. -/
def check (fields : List Field) : Except String Unit := do
  let c ← addStruct {} false false fields
  c.finish

end DeclarationCheck

/-- `check_declaration`, of a struct with these fields. -/
def checkDeclaration (fields : List Field) : Except String Unit := DeclarationCheck.check fields

end Kotatsu.Cli
