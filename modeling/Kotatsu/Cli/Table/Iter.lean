import Kotatsu.Cli.Table.Step

/-!
# Iterating over a parse

An advance gives one result: an argument, or the error of an option that misses its value.
It reads all of an element, or a letter of a group and stays at the element. So the
results read the argv from left to right, and there is an end to them.
-/

namespace Kotatsu.Cli.Table

open Kotatsu.Core

/-- `Error::Kind`. -/
inductive ErrorKind where
  | unknownOption
  | missingValue
  | invalidValue
  | unexpectedArgument
  | missingRequired
  | conflict
  | unknownSubcommand
  | missingSubcommand
deriving DecidableEq, Repr

/-- `Error`, its elements at fault from `first` up to `past`. -/
structure Error where
  kind : ErrorKind
  message : Bytes
  argv : List Bytes
  first : Nat
  past : Nat
deriving DecidableEq, Repr

/-- `ParseIter::value_type`. -/
abbrev Result := Except Error ParsedArg

/-- `ParseIter`. -/
structure ParseIter where
  table : OptTable
  args : List Bytes
  index : Nat := 0
  options : ParseOptions
  done : Bool := false
  current : Result := .ok {}
  groupBuf : Bytes := []
  pastDashDash : Bool := false

namespace ParseIter

/-- The element of the argv an iterator is at. -/
def element (it : ParseIter) : Bytes := it.args.getD it.index []

/-- `advance` past `"--"`: each element is an input. -/
def positional (it : ParseIter) : ParseIter :=
  if it.index < it.args.length then
    let next := u32 (it.index + 1)
    { it with
      index := next
      current := .ok
        { id := it.table.inputOptionId
          index := it.index
          nextIndex := next
          spelling := it.element } }
  else { it with done := true }

/-- `advance` at a `"--"` that packs what follows it. A 32-bit counter goes through what
follows, and does so for the argvs it can count. -/
def packed (it : ParseIter) : ParseIter :=
  let next := u32 it.args.length
  { it with
    pastDashDash := true
    index := next
    current := .ok
      { id := it.table.inputOptionId
        index := it.index
        nextIndex := next
        spelling := dashDash
        values := (List.range' (it.index + 1) (it.args.length - (it.index + 1))).map fun i =>
          ⟨.element i, 0, it.args.getD i []⟩ } }

/-- The end of `advance`: what a step took becomes the current result. -/
def deliver (it : ParseIter) (step : Accepted) : ParseIter :=
  { it with
    index := step.index
    current :=
      if step.result = .missingValue then
        .error
          { kind := .missingValue
            message := ascii "missing argument value"
            argv := it.args
            first := step.out.index
            past := u32 (step.out.index + 1) }
      else .ok { step.out with nextIndex := step.index } }

/-- The argv as a step reads it. -/
def view (it : ParseIter) : Args :=
  if it.groupBuf = [] then { list := it.args }
  else { list := it.args, overlayIndex := it.index, overlay := it.groupBuf }

/-- What `advance` keeps of the rest of a group. -/
def bufferOf (rest : Bytes) : Bytes := if rest = [] then [] else dashByte :: rest

/-- What `advance` makes of the values of an argument: inside a group, views of the argv. -/
def rebase (it : ParseIter) (out : ParsedArg) : ParsedArg :=
  if it.groupBuf = [] then out
  else rebaseGroupValues out it.groupBuf ⟨.element out.index, 0, it.args.getD out.index []⟩

/-- `advance` at an element that may be an option. -/
def option (it : ParseIter) : ParseIter :=
  if it.options.groupedShortOptions then
    let step := parseStepGrouped it.table it.view it.index it.options
    deliver { it with groupBuf := bufferOf step.rest }
      { step.accepted with out := it.rebase step.accepted.out }
  else it.deliver (parseStep it.table { list := it.args } it.index it.options)

/-- An iterator is at the `"--"` that ends the options. -/
def atDashDash (it : ParseIter) : Bool :=
  !it.pastDashDash && it.options.dashDashParsing && it.element = dashDash

/-- An iterator behind the `"--"` it is at. -/
def skipped (it : ParseIter) : ParseIter :=
  { it with pastDashDash := true, index := u32 (it.index + 1) }

/-- `advance`. -/
def advance (it : ParseIter) : ParseIter :=
  if it.done then it
  else if it.index < it.args.length then
    if it.atDashDash then
      if it.options.dashDashPacking then it.packed else it.skipped.positional
    else if it.pastDashDash then it.positional
    else it.option
  else { it with done := true }

/-- What a loop over `parse` sees, when it ends within `fuel` advances. -/
def results : Nat → ParseIter → Option (List Result)
  | 0, _ => none
  | fuel + 1, it =>
    if it.advance.done then some []
    else (results fuel it.advance).map (it.advance.current :: ·)

end ParseIter

/-- `OptTable::parse`, before its first advance. -/
def OptTable.parse (table : OptTable) (argv : List Bytes) (options : ParseOptions) : ParseIter :=
  { table, args := argv, options }

/-! ## What the results say -/

/-- The element a result begins at. -/
def Result.index : Result → Nat
  | .ok r => r.index
  | .error e => e.first

/-- The elements a result ends up with. -/
def Result.elements : Result → List Nat
  | .ok r => List.range' r.index (r.nextIndex - r.index)
  | .error _ => []

/-- Where results stop: at an element that misses its value, or at the end. -/
def reach (size : Nat) : List Result → Nat
  | [] => size
  | .error e :: _ => e.first
  | .ok _ :: results => reach size results

/-- The element `t` is a `"--"` that ends the options and is no argument itself. -/
def Terminator (argv : List Bytes) (options : ParseOptions) (t : Nat) : Prop :=
  options.dashDashParsing = true ∧ options.dashDashPacking = false ∧ argv[t]? = some dashDash

/-- A value stands in an element from `low` up to `high`. -/
def InArgv (argv : List Bytes) (low high : Nat) (v : View) : Prop :=
  ∃ j, low ≤ j ∧ j < high ∧ v.buffer = .element j ∧ v.Within (argv.getD j [])

/-- Results that read an argv from element `i` on. -/
inductive Reads (table : OptTable) (argv : List Bytes) (options : ParseOptions) :
    Nat → Bool → List Result → Prop
  | done {past : Bool} : Reads table argv options argv.length past []
  | skip {i : Nat} {results : List Result} (terminator : Terminator argv options i)
      (rest : Reads table argv options (i + 1) true results) :
      Reads table argv options i false results
  | whole {i : Nat} {past past' : Bool} {r : ParsedArg} {results : List Result}
      (at_index : r.index = i) (lt : i < r.nextIndex) (le : r.nextIndex ≤ argv.length)
      (values : ∀ v ∈ r.values, InArgv argv i r.nextIndex v ∨ table.GivesValue v)
      (past_mono : past = true → past' = true)
      (rest : Reads table argv options r.nextIndex past' results) :
      Reads table argv options i past (.ok r :: results)
  | letter {i : Nat} {past : Bool} {r : ParsedArg} {next : Result} {results : List Result}
      (lt : i < argv.length) (at_index : r.index = i) (stays : r.nextIndex = i)
      (values : ∀ v ∈ r.values, table.GivesValue v) (again : next.index = i)
      (rest : Reads table argv options i past (next :: results)) :
      Reads table argv options i past (.ok r :: next :: results)
  | missing {i : Nat} {past : Bool} {e : Error} (lt : i < argv.length)
      (kind : e.kind = .missingValue) (first : e.first = i) (span : e.past = i + 1) :
      Reads table argv options i past [.error e]

end Kotatsu.Cli.Table
