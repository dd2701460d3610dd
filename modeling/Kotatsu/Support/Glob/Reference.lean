import Kotatsu.Core.Wildcard
import Kotatsu.Support.Glob.Matcher

/-!
# What a pattern means

The reference that the compiled forms are held to. A pattern is read into items; a
choice of one term for each group of its braces gives an arm; an arm is cut at its
separators, and matches a path segment by segment: a whole `**` takes any number
of segments, and every other segment takes one, token by token.
-/

namespace Kotatsu.Support.Glob

open Kotatsu.Core

/-! ## Items -/

/-- What stands in a pattern: a byte, an escaped byte, or a bracket expression. -/
inductive Item where
  | raw (b : UInt8)
  | escaped (b : UInt8)
  | bracket (body : Bytes)
deriving DecidableEq, Repr

/-- How an item is written. -/
def Item.text : Item → Bytes
  | .raw b => [b]
  | .escaped b => [backslash, b]
  | .bracket body => openBracket :: body ++ [closeBracket]

/-- The items of a text, unless an escape or a bracket does not end. -/
def items (s : Bytes) : Option (List Item) :=
  match s with
  | [] => some []
  | b :: rest =>
    if b = openBracket then
      match scanBracket 0 rest with
      | .error _ => none
      | .ok close => (items (rest.drop close)).map (.bracket (rest.take (close - 1)) :: ·)
    else if b = backslash then
      match rest with
      | [] => none
      | c :: rest => (items rest).map (.escaped c :: ·)
    else (items rest).map (.raw b :: ·)
termination_by s.length
decreasing_by
  · simp only [List.length_cons, List.length_drop]
    omega
  all_goals simp only [List.length_cons]
  all_goals omega

/-! ## Arms -/

/-- The groups of a pattern, each with its terms; an item outside of braces is a group of
one term. An open group has the terms that have ended and the one that has not. -/
def readGroups : Option (List (List Item) × List Item) → List Item →
    Option (List (List (List Item)))
  | none, [] => some []
  | some _, [] => none
  | none, item :: rest =>
    if item = .raw openBrace then readGroups (some ([], [])) rest
    else (readGroups none rest).map ([[item]] :: ·)
  | some (terms, term), item :: rest =>
    if item = .raw openBrace then none
    else if item = .raw comma then readGroups (some (terms ++ [term], [])) rest
    else if item = .raw closeBrace then
      if terms = [] ∧ term = [] then none
      else (readGroups none rest).map ((terms ++ [term]) :: ·)
    else readGroups (some (terms, term ++ [item])) rest

/-- The groups where braces expand; where they do not, every item stands for itself. -/
def groupsOf (maxArms : Nat) (is : List Item) : Option (List (List (List Item))) :=
  if maxArms = 0 then some (is.map fun item => [[item]]) else readGroups none is

/-- An arm of the brace expansion: one term of each group. -/
def IsArm (s : Bytes) (maxArms : Nat) (arm : List Item) : Prop :=
  ∃ is groups choice, items s = some is ∧ groupsOf maxArms is = some groups ∧
    List.Forall₂ (· ∈ ·) choice groups ∧ arm = choice.flatten

/-! ## Tokens -/

/-- A token of a segment. -/
inductive Tok where
  | byte (b : UInt8)
  | star
  | any
  | cls (negated : Bool) (ranges : List (Nat × Nat))
deriving DecidableEq, Repr

/-- A bracket expression: its ranges as they are written. -/
def bracketTok (body : Bytes) : Tok :=
  let negated := isNegation body
  match parseMembers 0 (if negated then body.drop 1 else body) none [] with
  | .ok ranges => .cls negated ranges
  | .error _ => .cls negated []

/-- The token that an item stands for. -/
def Item.tok : Item → Tok
  | .raw b => if b = star then .star else if b = question then .any else .byte b
  | .escaped b => .byte b
  | .bracket body => bracketTok body

/-- The first atom of a text is in a class. A byte that does not decode is in no range. -/
def InClass (negated : Bool) (ranges : List (Nat × Nat)) (x : Bytes) : Prop :=
  (negated = false ↔ (decodeUtf8 x).valid = true ∧
    ∃ range ∈ ranges, range.1 ≤ (decodeUtf8 x).codePoint ∧ (decodeUtf8 x).codePoint ≤ range.2)

/-- The tokens of a segment take an input segment: a star any run of atoms, `?` and a
class one atom, a byte itself. -/
def TokensMatch : List Tok → Bytes → Prop
  | [], x => x = []
  | .byte b :: toks, x => ∃ rest, x = b :: rest ∧ TokensMatch toks rest
  | .star :: toks, x => ∃ rest, AtomSuffix x rest ∧ TokensMatch toks rest
  | .any :: toks, x => x ≠ [] ∧ TokensMatch toks (dropAtom x)
  | .cls negated ranges :: toks, x =>
    x ≠ [] ∧ InClass negated ranges x ∧ TokensMatch toks (dropAtom x)

/-! ## Segments -/

/-- A segment of an arm; `none` is a whole `**`. A `**` that is only part of a segment is
two stars, which take what one does. -/
def readSegment (is : List Item) : Option (List Tok) :=
  if is = [.raw star, .raw star] then none else some (is.map Item.tok)

/-- A trailing `**/` reads as `**/*`. -/
def readTrailing : List (Option (List Tok)) → List (Option (List Tok))
  | [] => []
  | [none, some []] => [none, some [.star]]
  | segment :: segments => segment :: readTrailing segments

/-- The segments of an arm. -/
def readArm (arm : List Item) : List (Option (List Tok)) :=
  readTrailing ((arm.splitOn (.raw slash)).map readSegment)

/-- The reference: some arm matches the segments of the path. -/
def Accepts (s : Bytes) (maxArms : Nat) (path : Bytes) : Prop :=
  ∃ arm, IsArm s maxArms arm ∧ MatchesSeq TokensMatch (readArm arm) (path.splitOn slash)

end Kotatsu.Support.Glob
