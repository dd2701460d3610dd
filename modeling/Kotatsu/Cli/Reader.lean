import Kotatsu.Cli.Command

/-!
# Reading an argv

A reader goes through the elements of an argv as a command takes them. An alias is replaced
by what it stands for, and the elements are parsed again from there; a subcommand's word
hands the elements after it to the subcommand. A machine does one argument a step. What the
reader keeps of the values is a state of its own, with functions that change it.
-/

namespace Kotatsu.Cli

open Kotatsu.Core Kotatsu.Cli.Table

/-- `Reading`, of the elements: those as read, the element of the argv each comes from, and
those that name a subcommand. -/
structure Reading where
  active : List Bytes
  origin : List Nat
  subcommandWords : List Nat := []
deriving DecidableEq, Repr

/-- What `ArgvReader::error` is given: an error at `[low, high)` of the active elements. -/
structure Failure where
  kind : ErrorKind
  message : Bytes
  low : Nat
  high : Nat
  suggestion : Bytes := []
deriving DecidableEq, Repr

/-- `Error` of a reader. -/
structure ReadError extends Error where
  subcommands : List Bytes
  suggestion : Bytes
deriving DecidableEq, Repr

/-- `error_from`. -/
def errorFrom (reading : Reading) (argv : List Bytes) (failure : Failure) : ReadError :=
  let size := u32 reading.active.length
  let argc := u32 argv.length
  let first := if size ≤ failure.low then argc else reading.origin.getD failure.low 0
  let past :=
    if failure.high ≤ failure.low then first
    else if size < failure.high then argc
    else u32 (reading.origin.getD (failure.high - 1) 0 + 1)
  { kind := failure.kind
    message := failure.message
    argv
    first
    past := max first past
    subcommands := (reading.subcommandWords.filter (· < failure.low)).map fun word =>
      reading.active.getD word []
    suggestion := failure.suggestion }

/-- What a reader does with a `State` that holds the nodes of the fields, the levels of the
commands being read and the arguments given. -/
structure Effects (State : Type) where
  /-- The start of `run` for a command. -/
  enter : Command → State → State
  /-- `store`, for argument `arg` and elements `[low, high)`. -/
  store (command : Command) (arg : Nat) (parsed : ParsedArg) (low high : Nat)
    (reading : Reading) (state : State) : Except Failure State
  /-- `store_input`. -/
  storeInput (command : Command) (index : Nat) (reading : Reading) (state : State) :
    Except Failure State
  /-- The word of subcommand `alternative`. -/
  subcommand (command : Command) (alternative index : Nat) (reading : Reading) (state : State) :
    Except Failure State
  /-- `check`, of the command that has `outer` others around it. -/
  check (command : Command) (outer cursor : Nat) (subcommand : Bool) (reading : Reading)
    (state : State) : Option Failure
  /-- `closest`, to a name or a subcommand's word. -/
  closest (command : Command) (word : Bytes) (subcommand : Bool) : Bytes

/-- What an option's number reads into. -/
inductive ArgOf where
  | none
  | help
  | arg (index : Nat) (field : FieldInfo)

/-- `Command::arg_of`. -/
def Builder.argOf (b : Builder) (id : Nat) : ArgOf :=
  if id < 3 then .none
  else
    match b.named[id - 3]? with
    | none => .none
    | some o =>
      match o.target with
      | .help => .help
      | .arg index =>
        match b.args[index]? with
        | none => .none
        | some field => .arg index field

/-- A call of `run`: the command, where its parse begins, the parse, and its cursor. -/
structure Frame where
  command : Command
  base : Nat
  it : ParseIter
  cursor : Nat

/-- The start of a parse of the elements from `base` on. -/
def Command.parse (command : Command) (active : List Bytes) (base : Nat) : ParseIter :=
  command.builder.table.parse (active.drop base) command.builder.parseOptions

/-- The start of a call of `run`. -/
def Frame.start (command : Command) (active : List Bytes) (base : Nat) : Frame :=
  { command, base, it := command.parse active base, cursor := base }

/-- A reader: the call of `run` it is in, and those around it. -/
structure Machine (State : Type) where
  reading : Reading
  frame : Frame
  outer : List Frame := []
  state : State

/-- How a reader ends. -/
inductive Outcome where
  | read
  | help
  | error (error : ReadError)

section

variable {State : Type} (fx : Effects State) (argv : List Bytes)

namespace Machine

/-- The constructor of `ArgvReader`, and its first call of `run`. -/
def start (command : Command) (state : State) : Machine State :=
  { reading := { active := argv, origin := List.range argv.length }
    frame := .start command argv 0
    state := fx.enter command state }

variable (m : Machine State)

/-- `ArgvReader::error`. -/
def fail (failure : Failure) : Outcome := .error (errorFrom m.reading argv failure)

/-- What the calls around one that ends say: each checks what goes with the subcommand. -/
def unwind : List Frame → Option Failure
  | [] => none
  | frame :: outer =>
    (fx.check frame.command outer.length frame.cursor true m.reading m.state).or (unwind outer)

/-- The end of `run`, when nothing stopped it. -/
def close : Outcome :=
  match (fx.check m.frame.command m.outer.length m.frame.cursor false m.reading m.state).or
    (m.unwind fx m.outer) with
  | some failure => m.fail argv failure
  | none => .read

/-- `expand`, and the parse from the alias on. -/
def expand (field : FieldInfo) (index next : Nat) : Machine State :=
  let tokens := field.spec.forward
  let active := m.reading.active.take index ++ tokens ++ m.reading.active.drop next
  let origin := m.reading.origin.take index ++
    tokens.map (fun _ => m.reading.origin.getD index 0) ++ m.reading.origin.drop next
  { m with
    reading := { m.reading with active, origin }
    frame := { m.frame with base := index, it := m.frame.command.parse active index } }

/-- An argument that is stored, and ends the parse or not. -/
def store (arg : Nat) (parsed : ParsedArg) (low high : Nat) (stop : Bool) :
    Machine State ⊕ Outcome :=
  match fx.store m.frame.command arg parsed low high m.reading m.state with
  | .error failure => .inr (m.fail argv failure)
  | .ok state =>
    if stop then .inr .read
    else .inl { m with state, frame := { m.frame with cursor := high } }

/-- A positional argument. -/
def storeInput (index high : Nat) : Machine State ⊕ Outcome :=
  match fx.storeInput m.frame.command index m.reading m.state with
  | .error failure => .inr (m.fail argv failure)
  | .ok state => .inl { m with state, frame := { m.frame with cursor := high } }

/-- The call of `run` for a subcommand, by the word at `index`. -/
def enter (sub : Command) (alternative index next : Nat) : Machine State ⊕ Outcome :=
  match fx.subcommand m.frame.command alternative index m.reading m.state with
  | .error failure => .inr (m.fail argv failure)
  | .ok state => .inl
    { reading := { m.reading with subcommandWords := m.reading.subcommandWords ++ [index] }
      frame := .start sub m.reading.active next
      outer := { m.frame with cursor := index } :: m.outer
      state := fx.enter sub state }

/-- An input: what follows a `"--"`, a subcommand's word or a positional argument. -/
def input (parsed : ParsedArg) (index next high : Nat) : Machine State ⊕ Outcome :=
  let command := m.frame.command
  if parsed.spelling = dashDash ∧ command.builder.parseOptions.dashDashPacking = true then
    m.store fx argv (command.builder.rest.getD 0) parsed index high false
  else
    match command.subcommands with
    | none => m.storeInput fx argv index high
    | some subcommands =>
      match subcommands.find? (·.1 = parsed.spelling) with
      | some (_, sub) =>
        let alternative := subcommands.findIdx (·.1 = parsed.spelling)
        m.enter fx argv sub alternative index next
      | none =>
        if command.builder.positionals = [] then
          .inr (m.fail argv
            { kind := .unknownSubcommand
              message := ascii "unknown subcommand '" ++ parsed.spelling ++ ascii "'"
              low := index
              high := u32 (index + 1)
              suggestion := fx.closest command parsed.spelling true })
        else m.storeInput fx argv index high

/-- An option `run` knows by its number. -/
def option (parsed : ParsedArg) (index next high : Nat) : Machine State ⊕ Outcome :=
  match m.frame.command.builder.argOf parsed.id with
  -- only the unknown option and the input option read into nothing
  | .none => .inr .read
  | .help => .inr .help
  | .arg arg field =>
    if (useOf field).shape = .alias then .inl (m.expand field index next)
    else m.store fx argv arg parsed index high (useOf field).spec.stop

/-- What `run` does with an argument. -/
def take (parsed : ParsedArg) : Machine State ⊕ Outcome :=
  let table := m.frame.command.builder.table
  let index := u32 (m.frame.base + parsed.index)
  let next := u32 (m.frame.base + parsed.nextIndex)
  let high := max next (u32 (index + 1))
  if parsed.id = table.unknownOptionId then
    .inr (m.fail argv
      { kind := .unknownOption
        message := ascii "unknown option '" ++ parsed.spelling ++ ascii "'"
        low := index
        high
        suggestion :=
          fx.closest m.frame.command (parsed.spelling.takeWhile (· ≠ equalsByte)) false })
  else if parsed.id = table.inputOptionId then m.input fx argv parsed index next high
  else m.option fx argv parsed index next high

/-- A turn of the loop of `run`. -/
def step : Machine State ⊕ Outcome :=
  let it := m.frame.it.advance
  let m := { m with frame := { m.frame with it } }
  if it.done then .inr (m.close fx argv)
  else
    match it.current with
    | .error e => .inr (m.fail argv
      { kind := e.kind
        message := e.message
        low := u32 (m.frame.base + e.first)
        high := u32 (m.frame.base + e.past) })
    | .ok parsed => m.take fx argv parsed

end Machine

end

end Kotatsu.Cli
