import Kotatsu.Cli.Declaration
import Kotatsu.Cli.Table.Iter

/-!
# Commands

A struct of options is built into a command: its arguments in the order of their fields,
and the options that name them, with the table that reads them. The '=' forms of the names
come last, and then those names of the help option that no option takes.
-/

namespace Kotatsu.Cli

open Kotatsu.Core Kotatsu.Cli.Table

/-- What `arg_of` says an option reads into. -/
inductive Target where
  | help
  | arg (index : Nat)
deriving DecidableEq, Repr

/-- An option of a command by its spelling, with what `options` and `arg_of` hold for it. -/
structure NamedOption where
  name : Bytes
  kind : OptionKind
  numArgs : UInt8 := 0
  target : Target
  proper : IsNamed kind
deriving Repr

/-- A command being built, without its groups and what a usage shows. -/
structure Builder where
  args : List FieldInfo := []
  positionals : List Nat := []
  rest : Option Nat := none
  named : List NamedOption := []
  equalsForms : List (NameForm × Nat) := []

namespace Builder

/-- `prefixes_of`. -/
def prefixesOf (name : Bytes) : List Bytes :=
  if dashDash.isPrefixOf name then [dashDash]
  else if [dashByte].isPrefixOf name then [[dashByte]]
  else [[slashByte], [dashByte]]

/-- `takes`. -/
def takes (spelling name : Bytes) : Bool :=
  let stem := spelling.drop (if dashDash.isPrefixOf spelling then 2 else 1)
  (prefixesOf spelling).any fun lead =>
    name.length = lead.length + stem.length && lead.isPrefixOf name && stem.isSuffixOf name

/-- `add_option`. -/
def addOption (b : Builder) (name : Bytes) (form : NameForm) (target : Target)
    (tupleSize : Nat) : Builder :=
  let numArgs := if form.kind = .multiArg then UInt8.ofNat tupleSize else 0
  let option : NamedOption := { name, kind := form.kind, numArgs, target, proper := form.proper }
  { b with named := b.named ++ [option] }

/-- `name`: registers argument `index` under its names. -/
def name (b : Builder) (index tupleSize : Nat) : List NameForm → Builder
  | [] => b
  | form :: forms =>
    if form.role = .own then
      name (b.addOption form.name.text form (.arg index) tupleSize) index tupleSize forms
    else name { b with equalsForms := b.equalsForms ++ [(form, index)] } index tupleSize forms

/-- `add_arg`. -/
def addArg (b : Builder) (field : FieldInfo) : Builder :=
  let index := b.args.length
  let use := useOf field
  let b := { b with args := b.args ++ [field] }
  if use.spec.rest then { b with rest := some index }
  else if use.spec.positional then { b with positionals := b.positionals ++ [index] }
  else b.name index use.tupleSize (nameForms use field.declaredName)

mutual

/-- The arguments of `add_struct`, through groups and the alternatives of exclusive fields. -/
def argsOf : List Field → List FieldInfo
  | [] => []
  | field :: fields => argsOfField field ++ argsOf fields

/-- The arguments a field of options declares. -/
def argsOfField : Field → List FieldInfo
  | .arg info => [info]
  | .group _ _ fields => argsOf fields
  | .exclusive _ _ _ alternatives => argsOfEach alternatives
  | .subcommands _ _ _ _ | .commands _ _ _ => []

/-- The arguments of the alternatives of an exclusive field. -/
def argsOfEach : List (List Field) → List FieldInfo
  | [] => []
  | alternative :: alternatives => argsOf alternative ++ argsOfEach alternatives

end

/-- `Command::spellings`. -/
def names (b : Builder) : List Bytes := b.named.map (·.name)

/-- `name_equals_forms`. -/
def nameEqualsForms (b : Builder) : List (NameForm × Nat) → Builder
  | [] => b
  | form :: forms =>
    if b.names.contains form.1.name.text then nameEqualsForms b forms
    else nameEqualsForms (b.addOption form.1.name.text form.1 (.arg form.2) 0) forms

/-- The end of `build`: `-h` and `--help`, each unless an option takes it. -/
def addHelp (b : Builder) : List Bytes → Builder
  | [] => b
  | name :: names =>
    if b.named.any fun o => takes o.name name then addHelp b names
    else addHelp (b.addOption name { name := { stem := name }, kind := .flag } .help 0) names

/-- `"-h"` and `"--help"`. -/
def helpNames : List Bytes := [ascii "-h", ascii "--help"]

/-- `build`, without subcommands. -/
def build (fields : List Field) : Builder :=
  let b := (argsOf fields).foldl addArg {}
  (b.nameEqualsForms b.equalsForms).addHelp helpNames

/-- The unknown option and the input option. -/
def sentinels : List OptionInfo :=
  [{ prefixes := [], prefixedName := ascii "<unknown>", id := 1, kind := .unknown },
    { prefixes := [], prefixedName := ascii "<input>", id := 2, kind := .input }]

end Builder

/-- An option of a command as its table has it, the number `i` of those with a name. -/
def NamedOption.toOption (i : Nat) (o : NamedOption) : OptionInfo :=
  { prefixes := Builder.prefixesOf o.name
    prefixedName := o.name
    id := i + 3
    kind := o.kind
    numArgs := o.numArgs }

theorem IsNamed.not_sentinel {kind : OptionKind} (h : IsNamed kind) : ¬ kind.IsSentinel := by
  cases h <;> decide

namespace Builder

/-- `Command::options`. -/
def options (b : Builder) : List OptionInfo := sentinels ++ b.named.mapIdx NamedOption.toOption

theorem mem_options {b : Builder} {info : OptionInfo} (h : info ∈ b.options) :
    info ∈ sentinels ∨ ∃ i o, b.named[i]? = some o ∧ info = NamedOption.toOption i o := by
  rw [options, List.mem_append] at h
  refine h.imp_right fun h => ?_
  obtain ⟨i, hi, rfl⟩ := List.mem_mapIdx.mp h
  exact ⟨i, b.named[i], List.getElem?_eq_getElem hi, rfl⟩

theorem options_aliasSound (b : Builder) : ∀ info ∈ b.options, info.AliasSound b.options := by
  intro info hinfo
  have hnone : info.aliasId = 0 ∧ info.aliasArgs = none := by
    obtain hsentinel | ⟨i, o, -, rfl⟩ := mem_options hinfo
    · simp only [sentinels, List.mem_cons, List.not_mem_nil, or_false] at hsentinel
      obtain rfl | rfl := hsentinel <;> exact ⟨rfl, rfl⟩
    · exact ⟨rfl, rfl⟩
  refine ⟨fun h => absurd hnone.1 h, fun h => ?_⟩
  rw [hnone.2] at h
  cases h

theorem options_bare (b : Builder) :
    ∀ info ∈ b.options, info.kind.IsSentinel → info.prefixes = [] := by
  intro info hinfo hkind
  obtain hsentinel | ⟨i, o, -, rfl⟩ := mem_options hinfo
  · simp only [sentinels, List.mem_cons, List.not_mem_nil, or_false] at hsentinel
    obtain rfl | rfl := hsentinel <;> rfl
  · exact absurd hkind o.proper.not_sentinel

/-- The options with a name leave what is gathered of the two that have none. -/
theorem gather_proper {i : Nat} {g : Gathered} {infos : List OptionInfo}
    (h : ∀ info ∈ infos, ¬ info.kind.IsSentinel) :
    (gather i g infos).unknownOptionId = g.unknownOptionId ∧
      (gather i g infos).inputOptionId = g.inputOptionId := by
  induction infos generalizing i g with
  | nil => exact ⟨rfl, rfl⟩
  | cons info infos ih =>
    have hproper := h info List.mem_cons_self
    have hrest := fun o ho => h o (List.mem_cons_of_mem _ ho)
    rw [gather]
    split
    · next hkind => exact absurd (.inr (.inl hkind)) hproper
    · next hkind => exact absurd (.inr (.inr hkind)) hproper
    · next hkind => exact absurd (.inl hkind) hproper
    · exact ih hrest

theorem gather_options (b : Builder) : (gather 0 {} b.options).unknownOptionId = 1 ∧
    (gather 0 {} b.options).inputOptionId = 2 := by
  have hproper : ∀ info ∈ b.named.mapIdx NamedOption.toOption, ¬ info.kind.IsSentinel := by
    intro info hinfo
    obtain ⟨i, hi, rfl⟩ := List.mem_mapIdx.mp hinfo
    exact b.named[i].proper.not_sentinel
  exact @gather_proper 2 { inputOptionId := 2, unknownOptionId := 1 } _ hproper

/-- `Command::table`: `"-"` and `"--"` begin an option whatever names there are. -/
def table (b : Builder) : OptTable :=
  let prefixes := (b.options.flatMap (·.prefixes)).foldl (fun set p => insertSorted p set)
    [[dashByte], dashDash]
  { OptTable.new b.options prefixes b.options_aliasSound b.options_bare
      (by rw [(gather_options b).1]; exact Nat.one_ne_zero) with
    searchIncludesInput := true }

/-- `Command::parse_options`. -/
def parseOptions (b : Builder) : ParseOptions :=
  { dashDashParsing := true, dashDashPacking := b.rest.isSome }

end Builder

/-! ## Subcommands -/

/-- `Command`: the struct it is built from, and its subcommands by their words. -/
structure Command where
  type : List Field
  subcommands : Option (List (Bytes × Command))

namespace Command

/-- What a command takes for itself. -/
def builder (command : Command) : Builder := Builder.build command.type

mutual

/-- The subcommands `add_struct` leaves: those of the last field that has any. -/
def subcommandsOf : List Field → Option (List (Bytes × Command))
  | [] => none
  | field :: fields => (subcommandsOf fields).or (subcommandsOfField field)

/-- The subcommands a field of options declares. -/
def subcommandsOfField : Field → Option (List (Bytes × Command))
  | .arg _ => none
  | .group _ _ fields => subcommandsOf fields
  | .exclusive _ _ _ alternatives => subcommandsOfEach alternatives
  | .subcommands _ _ _ alternatives => some (makeCommands alternatives)
  | .commands _ _ entries => some (makeCommands entries)

/-- The subcommands of the alternatives of an exclusive field. -/
def subcommandsOfEach : List (List Field) → Option (List (Bytes × Command))
  | [] => none
  | alternative :: alternatives =>
    (subcommandsOfEach alternatives).or (subcommandsOf alternative)

/-- `make_command` for each of the structs that words name. -/
def makeCommands : List (Bytes × List Field) → List (Bytes × Command)
  | [] => []
  | entry :: entries => (entry.1, ⟨entry.2, subcommandsOf entry.2⟩) :: makeCommands entries

end

/-- `make_command`. -/
def make (fields : List Field) : Command := ⟨fields, subcommandsOf fields⟩

/-- A subcommand is smaller than its command. -/
theorem sizeOf_subcommand {command sub : Command} {subcommands : List (Bytes × Command)}
    {word : Bytes} (hsome : command.subcommands = some subcommands)
    (hmem : (word, sub) ∈ subcommands) : sizeOf sub < sizeOf command := by
  obtain ⟨type, subs⟩ := command
  subst hsome
  have hlt := List.sizeOf_lt_of_mem hmem
  simp only [Command.mk.sizeOf_spec, Option.some.sizeOf_spec, Prod.mk.sizeOf_spec] at hlt ⊢
  omega

end Command

end Kotatsu.Cli
