import Mathlib.Data.List.Infix
import Mathlib.Data.List.Sort
import Kotatsu.Core.Bytes

/-!
# Options and their table

An option has a name after any of its prefixes and a kind, which says how it takes its
arguments. The table finds options by name and by number. `OptionRef` asserts what an
alias may be, and only proper options have prefixes; a table carries both as fields.
-/

namespace Kotatsu.Cli.Table

open Kotatsu.Core

/-- What is left of a number in 32 bits. -/
def u32 (n : Nat) : Nat := n % 2 ^ 32

theorem u32_of_lt {n : Nat} (h : n < 2 ^ 32) : u32 n = n := Nat.mod_eq_of_lt h

theorem u32_le (n : Nat) : u32 n ≤ n := Nat.mod_le n _

/-- `'-'`. -/
def dashByte : UInt8 := 0x2D

/-- `'='`. -/
def equalsByte : UInt8 := 0x3D

/-- `','`. -/
def commaByte : UInt8 := 0x2C

/-- `OptionKind`. -/
inductive OptionKind where
  | group
  | input
  | unknown
  | flag
  | joined
  | separate
  | commaJoined
  | multiArg
  | joinedOrSeparate
  | joinedAndSeparate
  | remainingArgs
  | remainingArgsJoined
deriving DecidableEq, Repr

/-- `Option`. -/
structure OptionInfo where
  prefixes : List Bytes
  prefixedName : Bytes
  id : Nat
  kind : OptionKind
  aliasId : Nat := 0
  aliasArgs : Option Bytes := none
  flags : UInt32 := 0
  visibility : UInt32 := 1
  numArgs : UInt8 := 0
deriving DecidableEq, Repr

/-- `Option::name`. -/
def OptionInfo.name (o : OptionInfo) : Bytes :=
  o.prefixedName.drop (match o.prefixes with | [] => 0 | first :: _ => u32 first.length)

/-- `OptTable::option`, over the entries: the entry whose place is one below `id`. -/
def optionAt (infos : List OptionInfo) (id : Nat) : Option OptionInfo :=
  if id = 0 then none else infos[id - 1]?

/-- What `OptionRef` asserts of an entry: an alias is of an entry that is no alias, and
only a flag that is an alias of no flag has arguments of its own. -/
def OptionInfo.AliasSound (infos : List OptionInfo) (o : OptionInfo) : Prop :=
  (o.aliasId ≠ 0 → ∃ target ∈ optionAt infos o.aliasId, target.aliasId = 0) ∧
    (o.aliasArgs.isSome → o.kind = .flag ∧
      ∃ target ∈ optionAt infos o.aliasId, target.kind ≠ .flag)

instance (infos : List OptionInfo) (o : OptionInfo) : Decidable (o.AliasSound infos) :=
  inferInstanceAs (Decidable (_ ∧ _))

/-- The kinds of the entries that are not options themselves. -/
def OptionKind.IsSentinel (kind : OptionKind) : Prop :=
  kind = .group ∨ kind = .input ∨ kind = .unknown

instance (kind : OptionKind) : Decidable kind.IsSentinel := inferInstanceAs (Decidable (_ ∨ _))

/-- `OptTable`. -/
structure OptTable where
  optionInfos : List OptionInfo
  prefixesUnion : List Bytes
  prefixChars : List UInt8
  inputOptionId : Nat
  unknownOptionId : Nat
  firstSearchableIndex : Nat
  ignoreCase : Bool := false
  tablegenMode : Bool := false
  searchIncludesInput : Bool := false
  aliasSound : ∀ o ∈ optionInfos, o.AliasSound optionInfos
  bare : ∀ o ∈ optionInfos, o.kind.IsSentinel → o.prefixes = []
  unknown_pos : unknownOptionId ≠ 0

/-- `OptTable::option`. -/
def OptTable.option (table : OptTable) (id : Nat) : Option OptionInfo :=
  optionAt table.optionInfos id

/-- `OptionRef::alias`. -/
def OptTable.aliasOf (table : OptTable) (o : OptionInfo) : Option OptionInfo :=
  table.option o.aliasId

/-- `OptionRef::unaliased_option`, whose recursion ends at the first target. -/
def OptTable.unaliasedOption (table : OptTable) (o : OptionInfo) : OptionInfo :=
  (table.aliasOf o).getD o

/-! ## The constructor of a table -/

/-- Inserts into a `std::set`. -/
def insertSorted {α : Type} [LT α] [DecidableEq α] [DecidableLT α] (a : α) : List α → List α
  | [] => [a]
  | b :: set => if a = b then b :: set else if a < b then a :: b :: set
    else b :: insertSorted a set

/-- What the loop of the constructor gathers. -/
structure Gathered where
  inputOptionId : Nat := 0
  unknownOptionId : Nat := 0
  firstSearchableIndex : Option Nat := none

/-- The loop of the constructor, from entry `i` on. -/
def gather (i : Nat) (g : Gathered) : List OptionInfo → Gathered
  | [] => g
  | info :: infos =>
    gather (i + 1) (match info.kind with
      | .input => { g with inputOptionId := info.id }
      | .unknown => { g with unknownOptionId := info.id }
      | .group => g
      | _ => { g with firstSearchableIndex := g.firstSearchableIndex.or (some i) }) infos

/-- The prefixes of the entries, each once. -/
def prefixesOf (infos : List OptionInfo) : List Bytes :=
  (infos.flatMap (·.prefixes)).foldl (fun set p => insertSorted p set) []

/-- The constructor of `OptTable`. -/
def OptTable.new (infos : List OptionInfo) (prefixesUnion : List Bytes)
    (aliasSound : ∀ o ∈ infos, o.AliasSound infos)
    (bare : ∀ o ∈ infos, o.kind.IsSentinel → o.prefixes = [])
    (unknown_pos : (gather 0 {} infos).unknownOptionId ≠ 0) : OptTable :=
  let g := gather 0 {} infos
  let first := g.firstSearchableIndex.getD 0
  let union := if prefixesUnion = [] then prefixesOf (infos.drop first) else prefixesUnion
  { optionInfos := infos
    prefixesUnion := union
    prefixChars := union.flatten.foldl (fun set c => insertSorted c set) []
    inputOptionId := g.inputOptionId
    unknownOptionId := g.unknownOptionId
    firstSearchableIndex := first
    aliasSound, bare, unknown_pos }

theorem mem_insertSorted {α : Type} [LT α] [DecidableEq α] [DecidableLT α] {a b : α}
    {set : List α} : b ∈ insertSorted a set ↔ b = a ∨ b ∈ set := by
  induction set with
  | nil => simp [insertSorted]
  | cons c set ih =>
    rw [insertSorted]
    split
    · next h => simp [h]
    · split
      · simp
      · simp only [List.mem_cons, ih]
        exact or_left_comm

/-- What is inserted is there afterwards. -/
theorem mem_foldl_insertSorted {p : Bytes} {ps set : List Bytes} (h : p ∈ ps ∨ p ∈ set) :
    p ∈ ps.foldl (fun set p => insertSorted p set) set := by
  induction ps generalizing set with
  | nil => exact h.resolve_left List.not_mem_nil
  | cons q ps ih =>
    refine ih ?_
    rw [mem_insertSorted]
    rw [List.mem_cons] at h
    tauto

/-! ## Which options take part -/

/-- `ParseOptions`. -/
structure ParseOptions where
  groupedShortOptions : Bool := false
  dashDashParsing : Bool := false
  dashDashPacking : Bool := false
  greedyUnknown : Bool := false
  visibility : UInt32 := 0xFFFFFFFF
  includeFlags : UInt32 := 0
  excludeFlags : UInt32 := 0
deriving DecidableEq, Repr

/-- `ParseOptions::excludes`. -/
def ParseOptions.excludes (options : ParseOptions) (o : OptionInfo) : Bool :=
  if o.visibility &&& options.visibility = 0 then true
  else if options.includeFlags ≠ 0 ∧ o.flags &&& options.includeFlags = 0 then true
  else options.excludeFlags ≠ 0 && o.flags &&& options.excludeFlags ≠ 0

/-- `safe_tolower`. -/
def safeTolower (c : UInt8) : UInt8 := if 65 ≤ c.toNat ∧ c.toNat ≤ 90 then c + 32 else c

/-- `starts_with_insensitive`. -/
def startsWithInsensitive (text lead : Bytes) : Bool :=
  decide (lead.length ≤ text.length) &&
    (text.zip lead).all fun (a, b) => safeTolower a == safeTolower b

/-- `match_opt`'s comparison of what follows a prefix with the name. -/
def startsWithName (ignoreCase : Bool) (rest name : Bytes) : Bool :=
  if ignoreCase then startsWithInsensitive rest name else name.isPrefixOf rest

theorem length_le_of_startsWithName {ignoreCase : Bool} {rest name : Bytes}
    (h : startsWithName ignoreCase rest name = true) : name.length ≤ rest.length := by
  rw [startsWithName] at h
  split at h
  · rw [startsWithInsensitive, Bool.and_eq_true] at h
    exact of_decide_eq_true h.1
  · exact (List.isPrefixOf_iff_prefix.mp h).length_le

/-- `match_opt`: how much of `str` the option's name takes, `0` when it is not its name. -/
def matchOpt (i : OptionInfo) (str : Bytes) (ignoreCase : Bool) : Nat :=
  (i.prefixes.findSome? fun lead =>
    if lead.isPrefixOf str && startsWithName ignoreCase (str.drop lead.length) i.name then
      some (u32 (lead.length + i.name.length))
    else none).getD 0

/-- A name takes no more than there is. -/
theorem matchOpt_le (i : OptionInfo) (str : Bytes) (ignoreCase : Bool) :
    matchOpt i str ignoreCase ≤ str.length := by
  unfold matchOpt
  cases hfind : i.prefixes.findSome? _ with
  | none => exact Nat.zero_le _
  | some n =>
    obtain ⟨lead, -, hlead⟩ := List.exists_of_findSome?_eq_some hfind
    obtain ⟨hmatch, hn⟩ := Option.ite_none_right_eq_some.mp hlead
    cases hn
    rw [Bool.and_eq_true] at hmatch
    have hpre := (List.isPrefixOf_iff_prefix.mp hmatch.1).length_le
    have hname := length_le_of_startsWithName hmatch.2
    have hcut := u32_le (lead.length + i.name.length)
    rw [List.length_drop] at hname
    rw [Option.getD_some]
    omega

/-- What has no prefix is nobody's name, so the entries that are not options are never
matched. -/
theorem OptTable.matchOpt_sentinel (table : OptTable) {o : OptionInfo}
    (ho : o ∈ table.optionInfos) (hkind : o.kind.IsSentinel) (str : Bytes) (ignoreCase : Bool) :
    matchOpt o str ignoreCase = 0 := by
  rw [matchOpt, table.bare o ho hkind]
  rfl

end Kotatsu.Cli.Table
