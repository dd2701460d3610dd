import Kotatsu.Core.Loop
import Kotatsu.Support.Utf8

/-!
# Compiled glob patterns

`GlobPattern::create`: a pattern is validated, its literal head is hoisted as a
prefix, its braces are expanded into arms, and each arm is compiled into segments
and a plan read off them. A position in a text is the rest of the text from there;
positions are numbers only where an error reports them. The pools of tokens,
segments, classes and literals that the compiled form indexes are read as the
lists they hold.
-/

namespace Kotatsu.Support.Glob

open Kotatsu.Core

abbrev slash : UInt8 := 0x2F
abbrev backslash : UInt8 := 0x5C
abbrev star : UInt8 := 0x2A
abbrev question : UInt8 := 0x3F
abbrev openBracket : UInt8 := 0x5B
abbrev closeBracket : UInt8 := 0x5D
abbrev openBrace : UInt8 := 0x7B
abbrev closeBrace : UInt8 := 0x7D
abbrev comma : UInt8 := 0x2C
abbrev dash : UInt8 := 0x2D
abbrev dot : UInt8 := 0x2E
abbrev bang : UInt8 := 0x21
abbrev caret : UInt8 := 0x5E

/-! ## Errors -/

/-- `GlobError::Kind`. -/
inductive ErrorKind where
  | unmatchedBracket
  | strayBackslash
  | nestedBrace
  | emptyBrace
  | incompleteBrace
  | invalidRange
  | multipleSlash
  | multipleStar
  | tooManyExpansions
  | invalidUtf8
  | invalidEscape
deriving DecidableEq, Repr

/-- `GlobError`: the bytes from `begin` up to `stop` are at fault. -/
structure GlobError where
  kind : ErrorKind
  begin : Nat
  stop : Nat
  message : String
deriving DecidableEq, Repr

/-! ## The literal head -/

/-- `wildcards`. -/
def isWildcard (b : UInt8) : Bool :=
  b = question || b = star || b = openBracket || b = openBrace

/-- `LiteralHead`: the text, and how much of the pattern it takes. -/
structure LiteralHead where
  text : Bytes
  stop : Nat
deriving DecidableEq, Repr

/-- `literal_head`. -/
def literalHead : Bytes → LiteralHead
  | [] => ⟨[], 0⟩
  | b :: rest =>
    if isWildcard b then ⟨[], 0⟩
    else if b = backslash then
      match rest with
      | [] => ⟨[], 0⟩
      | c :: rest =>
        if c = slash then ⟨[], 0⟩
        else
          let head := literalHead rest
          ⟨c :: head.text, head.stop + 2⟩
    else
      let head := literalHead rest
      ⟨b :: head.text, head.stop + 1⟩

/-! ## Bracket expressions -/

/-- The loop of `scan_bracket`, at `j`, for the bracket opened at `opened`. -/
def scanClose (opened j : Nat) : Bytes → Except GlobError Nat
  | [] => .error ⟨.unmatchedBracket, opened, opened + 1, "unmatched `[`"⟩
  | b :: rest =>
    if b = closeBracket then .ok j
    else if b = backslash then
      match rest with
      | [] => .error ⟨.strayBackslash, j, j + 1, "unmatched `[` with stray `\\` inside"⟩
      | _ :: rest => scanClose opened (j + 2) rest
    else scanClose opened (j + 1) rest

/-- The negation a bracket expression begins with. -/
def isNegation (body : Bytes) : Bool := body.head? = some bang || body.head? = some caret

/-- How much of a bracket expression comes before the loop that looks for its end:
the negation, and a `]` that is a member. -/
def scanLead (rest : Bytes) : Nat :=
  let negation := if isNegation rest then 1 else 0
  negation + if (rest.drop negation).head? = some closeBracket then 1 else 0

/-- `scan_bracket`, on what follows the `[` at `opened`: where the closing `]` is. -/
def scanBracket (opened : Nat) (rest : Bytes) : Except GlobError Nat :=
  scanClose opened (opened + 1 + scanLead rest) (rest.drop (scanLead rest))

/-- `next_member`: the code point of a member, and the bytes it takes. -/
def nextMember (s : Bytes) : Utf8Atom :=
  let escape := if s.head? = some backslash then 1 else 0
  let atom := decodeUtf8Atom (s.drop escape)
  ⟨atom.cp, escape + atom.len⟩

theorem nextMember_len_pos (s : Bytes) : 0 < (nextMember s).len := by
  have := atom_len_pos (s.drop (if s.head? = some backslash then 1 else 0))
  simp only [nextMember]
  omega

/-- A code point as `{:04X}` prints it. -/
def hex4 (n : Nat) : String :=
  let digits := (Nat.toDigits 16 n).map Char.toUpper
  String.ofList (List.replicate (4 - digits.length) '0' ++ digits)

/-- The loop of `parse_bracket_charset`. A member is held back with where it begins. -/
def parseMembers (it : Nat) (s : Bytes) (pending : Option (Nat × Nat))
    (ranges : List (Nat × Nat)) : Except GlobError (List (Nat × Nat)) :=
  if _h : s = [] then .ok (ranges ++ (pending.map fun p => (p.1, p.1)).toList)
  else if s.head? = some dash ∧ pending.isSome = true ∧ s.length ≠ 1 then
    let held := pending.getD (0, 0)
    let hi := nextMember (s.drop 1)
    if held.1 > hi.cp then
      .error ⟨.invalidRange, held.2, it + 1 + hi.len,
        "`U+" ++ hex4 held.1 ++ "` is larger than `U+" ++ hex4 hi.cp ++ "`"⟩
    else parseMembers (it + 1 + hi.len) (s.drop (1 + hi.len)) none (ranges ++ [(held.1, hi.cp)])
  else
    let member := nextMember s
    parseMembers (it + member.len) (s.drop member.len) (some (member.cp, it))
      (ranges ++ (pending.map fun p => (p.1, p.1)).toList)
termination_by s.length
decreasing_by
  · have := nextMember_len_pos (s.drop 1)
    have := List.length_pos_of_ne_nil _h
    rw [List.length_drop]
    omega
  · have := nextMember_len_pos s
    have := List.length_pos_of_ne_nil _h
    rw [List.length_drop]
    omega

/-- One turn of the loop that coalesces sorted ranges. -/
def mergeRange (merged : List (Nat × Nat)) (range : Nat × Nat) : List (Nat × Nat) :=
  match merged.getLast? with
  | some last =>
    if range.1 ≤ last.2 + 1 then merged.dropLast ++ [(last.1, max last.2 range.2)]
    else merged ++ [range]
  | none => merged ++ [range]

/-- The order of `std::pair`. -/
def pairLe (a b : Nat × Nat) : Bool := a.1 < b.1 || (a.1 = b.1 && a.2 ≤ b.2)

/-- `parse_bracket_charset`. -/
def parseBracketCharset (s : Bytes) : Except GlobError (List (Nat × Nat)) :=
  (parseMembers 0 s none []).map fun ranges => (ranges.mergeSort pairLe).foldl mergeRange []

/-- `CharClass`. -/
structure CharClass where
  negated : Bool
  ranges : List (Nat × Nat)
deriving DecidableEq, Repr

/-- `CharClass::contains`: the first range whose upper bound reaches the code point is
the only one that can hold it. -/
def CharClass.contains (c : CharClass) (cp : Nat) : Bool :=
  let hit := ((c.ranges.find? fun range => cp ≤ range.2).map fun range =>
    decide (range.1 ≤ cp)).getD false
  if c.negated then !hit else hit

/-! ## Compiled segments -/

/-- `Token`. -/
inductive Token where
  | literal (text : Bytes)
  | star
  | any
  | cls (c : CharClass)
deriving DecidableEq, Repr

/-- `Segment::Kind`. -/
inductive SegmentKind where
  | recursive
  | literal
  | affix
  | general
deriving DecidableEq, Repr

/-- `Segment`, with its tokens. -/
structure Segment where
  kind : SegmentKind
  tokens : List Token
  first : Option UInt8 := none
  nullable : Bool := false
  optionalRest : Bool := false
deriving DecidableEq, Repr

/-- `push_literal`. -/
def pushLiteral (tokens : List Token) (b : UInt8) : List Token :=
  match tokens.getLast? with
  | some (.literal text) => tokens.dropLast ++ [.literal (text ++ [b])]
  | _ => tokens ++ [.literal [b]]

/-- A star after a star says nothing new. -/
def pushStar (tokens : List Token) : List Token :=
  if tokens.getLast? = some .star then tokens else tokens ++ [.star]

/-- The tokens of one segment that begins at `i`, and what is left at its end. -/
def compileTokens (i : Nat) (s : Bytes) (tokens : List Token) :
    Except GlobError (List Token × Bytes) :=
  match s with
  | [] => .ok (tokens, [])
  | b :: rest =>
    if b = slash then .ok (tokens, b :: rest)
    else if b = openBracket then
      match scanBracket i rest with
      | .error error => .error error
      | .ok close =>
        let body := rest.take (close - i - 1)
        let negated := isNegation body
        match parseBracketCharset (if negated then body.drop 1 else body) with
        | .error error =>
          let base := i + 1 + if negated then 1 else 0
          .error { error with begin := error.begin + base, stop := error.stop + base }
        | .ok ranges =>
          compileTokens (close + 1) (rest.drop (close - i)) (tokens ++ [.cls ⟨negated, ranges⟩])
    else if b = star then
      let run := (b :: rest).takeWhile (· = star)
      if run.length > 2 then
        .error ⟨.multipleStar, i, i + 3, "multiple `*` is not allowed"⟩
      else compileTokens (i + run.length) (rest.dropWhile (· = star)) (pushStar tokens)
    else if b = question then compileTokens (i + 1) rest (tokens ++ [.any])
    else if b = backslash then
      match rest with
      | [] => .error ⟨.strayBackslash, i, i + 1, "stray `\\`"⟩
      | c :: rest =>
        if c = slash then .error ⟨.invalidEscape, i, i + 2, "`/` cannot be escaped"⟩
        else compileTokens (i + 2) rest (pushLiteral tokens c)
    else compileTokens (i + 1) rest (pushLiteral tokens b)
termination_by s.length
decreasing_by
  · simp only [List.length_cons, List.length_drop]
    omega
  · have := (List.dropWhile_sublist (l := rest) (· = star)).length_le
    simp only [List.length_cons]
    omega
  all_goals simp only [List.length_cons]
  all_goals omega

theorem compileTokens_length {i : Nat} {s : Bytes} {tokens tokens' : List Token} {rest : Bytes}
    (h : compileTokens i s tokens = .ok (tokens', rest)) : rest.length ≤ s.length := by
  fun_induction compileTokens i s tokens with
  | case1 | case2 =>
    cases h
    exact Nat.le_refl _
  | case3 | case4 | case6 | case9 | case10 => cases h
  | case5 _ _ rest' _ _ _ _ _ _ _ ih =>
    have := ih h
    simp only [List.length_drop, List.length_cons] at this ⊢
    omega
  | case7 _ _ rest' _ _ _ _ ih =>
    have hle := (List.dropWhile_sublist (l := rest') (· = star)).length_le
    have := ih h
    simp only [List.length_cons] at this ⊢
    omega
  | case8 | case11 | case12 =>
    simp only [List.length_cons]
    grind

/-- The segment of some tokens that is not a whole `**`. -/
def plainSegment (tokens : List Token) : Segment where
  kind :=
    let stars := tokens.count .star
    let simple := tokens.all fun token => match token with
      | .any => false
      | .cls _ => false
      | _ => true
    if !simple || stars > 1 then .general else if stars = 1 then .affix else .literal
  tokens := tokens
  first := match tokens with
    | .literal (b :: _) :: _ => some b
    | _ => none

/-- The segments of an arm from one that begins at `i` on; `atStart` is false where the
prefix ends inside the segment. -/
def compileSegments (atStart : Bool) (i : Nat) (s : Bytes) : Except GlobError (List Segment) :=
  match _h : compileTokens i s [] with
  | .error error => .error error
  | .ok (tokens, rest) =>
    let raw := s.take (s.length - rest.length)
    let segment :=
      if atStart && raw = [star, star] then { kind := .recursive, tokens := [] }
      else plainSegment tokens
    match rest with
    | [] => .ok [segment]
    | _ :: rest' =>
      let at' := i + raw.length
      if rest'.head? = some slash then
        .error ⟨.multipleSlash, at', at' + 2, "multiple `/` is not allowed"⟩
      else
        match compileSegments true (at' + 1) rest' with
        | .error error => .error error
        | .ok segments => .ok (segment :: segments)
termination_by s.length
decreasing_by
  have := compileTokens_length _h
  simp only [List.length_cons] at this
  omega

/-- A trailing `**/` matches like `**/*`. -/
def fixTrailing : List Segment → List Segment
  | [] => []
  | [segment] => [segment]
  | [globstar, last] =>
    if globstar.kind = .recursive ∧ last.kind = .literal ∧ last.tokens = [] then
      [globstar, { last with tokens := [.star], kind := .affix }]
    else [globstar, last]
  | segment :: segments => segment :: fixTrailing segments

/-- The backward loop that marks each segment: the marked segments, and
`following_nullable` and `following_absorbs` before them. -/
def markSegments : List Segment → List Segment × Bool × Bool
  | [] => ([], true, false)
  | segment :: segments =>
    let (marked, followingNullable, followingAbsorbs) := markSegments segments
    let last := segments.isEmpty
    let recursive := segment.kind = .recursive
    let optionalRest := last || followingAbsorbs
    let nullable :=
      if recursive then last || followingNullable
      else optionalRest && segment.tokens.all (· = .star)
    ({ segment with nullable := nullable, optionalRest := optionalRest } :: marked, nullable,
      recursive && optionalRest)

/-! ## Arms -/

/-- `Arm::Plan`. -/
inductive Plan where
  | prefixTree
  | directoryTree
  | suffix
  | pathSuffix
  | segmentSuffix
  | affix
  | final
  | general
deriving DecidableEq, Repr

/-- A word of memory, the first byte the lowest. -/
def loadWord : Bytes → Nat
  | [] => 0
  | b :: rest => b.toNat + 256 * loadWord rest

/-- `PackedLiteral`, with its text. -/
structure PackedLiteral where
  text : Bytes := []
  word : Nat := 0
  mask : Nat := 0
  leadWord : Nat := 0
  leadMask : Nat := 0
deriving DecidableEq, Repr

/-- The words of a literal of at most 16 bytes, right-aligned. -/
def packLiteral (text : Bytes) : PackedLiteral :=
  if text.length ≤ 16 then
    let value := List.replicate (16 - text.length) 0 ++ text
    let mask := List.replicate (16 - text.length) 0 ++ List.replicate text.length 0xFF
    { text := text
      word := loadWord (value.drop 8)
      mask := loadWord (mask.drop 8)
      leadWord := loadWord (value.take 8)
      leadMask := loadWord (mask.take 8) }
  else { text := text }

/-- `Arm`, with its segments. -/
structure Arm where
  plan : Plan := .general
  basename : Bool := false
  absorbsSeparator : Bool := false
  segments : List Segment
  head : Bytes := []
  literal : PackedLiteral := {}
deriving DecidableEq, Repr

/-- The text of a token that is a literal. -/
def Token.text : Token → Bytes
  | .literal text => text
  | _ => []

/-- A segment of the given kind. -/
def isKind (kind : SegmentKind) (segment : Option Segment) : Bool :=
  segment.any fun segment => segment.kind = kind

/-- The plan of an arm, whether it matches the basename, and the literal it starts with. -/
def choosePlan (segments : List Segment) : Plan × Bool × Bytes :=
  let count := segments.length
  let first := segments.head?
  let last := segments.getLast?
  let lastTokens := (last.map Segment.tokens).getD []
  let prefixTree := count = 2 && isKind .literal first && isKind .recursive last
  let directoryTree := count = 3 && isKind .recursive first && isKind .literal segments[1]? &&
    isKind .recursive last
  let basename := count = 2 && isKind .recursive first && !isKind .recursive last
  if prefixTree then
    (.prefixTree, basename,
      (first.bind fun segment => segment.tokens.head?.map Token.text).getD [])
  else if directoryTree then
    (.directoryTree, basename,
      (segments[1]?.bind fun segment => segment.tokens.head?.map Token.text).getD [])
  else if basename || (count = 1 && !isKind .recursive first) then
    if isKind .affix last && lastTokens.head? = some .star then
      (if basename then .suffix else .segmentSuffix, basename, [])
    else if isKind .affix last then
      (.affix, basename, (lastTokens.head?.map Token.text).getD [])
    else if basename && isKind .literal last then (.pathSuffix, basename, [])
    else (.final, basename, [])
  else (.general, basename, [])

/-- The literal that ends the last segment. -/
def trailingLiteral (segments : List Segment) : PackedLiteral :=
  match segments.getLast?.bind fun last =>
    if last.kind = .recursive then none else last.tokens.getLast? with
  | some (.literal text) => packLiteral text
  | _ => {}

/-- `compile_arm`. -/
def compileArm (s : Bytes) (atSegmentStart : Bool) : Except GlobError Arm :=
  match compileSegments atSegmentStart 0 s with
  | .error error => .error error
  | .ok compiled =>
    let (segments, _, absorbs) := markSegments (fixTrailing compiled)
    let (plan, basename, head) := choosePlan segments
    .ok {
      plan := plan
      basename := basename
      absorbsSeparator := absorbs
      segments := segments
      head := head
      literal := trailingLiteral segments }

/-! ## Braces -/

/-- A view of the pattern: where it begins, and its text. -/
structure View where
  start : Nat
  text : Bytes
deriving DecidableEq, Repr

/-- `Brace`. -/
structure Brace where
  begin : Nat
  stop : Nat
  terms : List View
deriving DecidableEq, Repr

/-- The view from `begin` up to `stop`. -/
def viewOf (pattern : Bytes) (begin stop : Nat) : View :=
  ⟨begin, substr pattern begin (stop - begin)⟩

/-- The loop of `parse_braces` at `i`, with the braces that are closed, the one that is
open with its terms, and where its next term begins. -/
def parseBraces (pattern : Bytes) (i : Nat) (s : Bytes) (braces : List Brace)
    (opened : Option (Nat × List View)) (termBegin : Nat) : Except GlobError (List Brace) :=
  match s with
  | [] =>
    match opened with
    | none => .ok braces
    | some (begin, _) =>
      .error ⟨.incompleteBrace, begin, begin + 1, "incomplete brace expansion"⟩
  | b :: rest =>
    if b = openBracket then
      match scanBracket i rest with
      | .error error => .error error
      | .ok close =>
        parseBraces pattern (close + 1) (rest.drop (close - i)) braces opened termBegin
    else if b = openBrace then
      match opened with
      | some _ =>
        .error ⟨.nestedBrace, i, i + 1, "nested brace expansions are not supported"⟩
      | none => parseBraces pattern (i + 1) rest braces (some (i, [])) (i + 1)
    else if b = comma then
      match opened with
      | none => parseBraces pattern (i + 1) rest braces none termBegin
      | some (begin, terms) =>
        parseBraces pattern (i + 1) rest braces
          (some (begin, terms ++ [viewOf pattern termBegin i])) (i + 1)
    else if b = closeBrace then
      match opened with
      | none => parseBraces pattern (i + 1) rest braces none termBegin
      | some (begin, terms) =>
        if terms = [] ∧ i = termBegin then
          .error ⟨.emptyBrace, begin, i + 1, "empty brace expression"⟩
        else
          parseBraces pattern (i + 1) rest
            (braces ++ [⟨begin, i + 1, terms ++ [viewOf pattern termBegin i]⟩]) none termBegin
    else if b = backslash then
      match rest with
      | [] => .error ⟨.strayBackslash, i, i + 1, "stray `\\`"⟩
      | _ :: rest => parseBraces pattern (i + 2) rest braces opened termBegin
    else parseBraces pattern (i + 1) rest braces opened termBegin
termination_by s.length
decreasing_by
  · simp only [List.length_cons, List.length_drop]
    omega
  all_goals simp only [List.length_cons]
  all_goals omega

/-- `ArmText::build`: the pieces of the arm that takes term `choice[k]` of brace `k`. -/
def buildPieces (pattern : Bytes) (cursor : Nat) : List Brace → List Nat → List View
  | brace :: braces, k :: choice =>
    viewOf pattern cursor brace.begin :: brace.terms.getD k ⟨0, []⟩ ::
      buildPieces pattern brace.stop braces choice
  | _, _ => [⟨cursor, pattern.drop cursor⟩]

/-- The text of an arm. -/
def piecesText (pieces : List View) : Bytes := pieces.flatMap View.text

/-- `ArmText::origin`. -/
def origin : List View → Nat → Nat
  | [], _ => 0
  | piece :: pieces, offset =>
    if offset < piece.text.length then piece.start + offset
    else origin pieces (offset - piece.text.length)

/-- `ArmText::rebase`. -/
def rebase (pieces : List View) (error : GlobError) : GlobError :=
  { error with stop := origin pieces (error.stop - 1) + 1, begin := origin pieces error.begin }

/-- `next_choice`: the last brace's term changes fastest. -/
def nextChoice : List Nat → List Brace → Option (List Nat)
  | k :: choice, brace :: braces =>
    match nextChoice choice braces with
    | some choice' => some (k :: choice')
    | none =>
      if k + 1 ≠ brace.terms.length then some ((k + 1) :: choice.map fun _ => 0) else none
  | _, _ => none

/-- The choices the loop over the arms takes from `choice` on, at most `n` more. -/
def choicesFrom (braces : List Brace) : Nat → List Nat → List (List Nat)
  | 0, choice => [choice]
  | n + 1, choice => choice :: ((nextChoice choice braces).map (choicesFrom braces n)).getD []

/-- The largest `size_t`. -/
def sizeMax : Nat := 2 ^ 64 - 1

/-- The number of arms, or the largest `size_t` where it does not fit. -/
def armCount (count : Nat) : List Brace → Nat
  | [] => count
  | brace :: braces =>
    if count > sizeMax / brace.terms.length then sizeMax
    else armCount (count * brace.terms.length) braces

/-! ## Patterns -/

/-- `GlobPattern::Mode`. -/
inductive Mode where
  | literal
  | any
  | prefixTree
  | suffix
  | pathSuffix
  | segmentSuffix
  | arms
  | suffixArms
  | segmentSuffixArms
  | extensionArms
deriving DecidableEq, Repr

/-- `GlobPattern`. -/
structure GlobPattern where
  literalPrefix : Bytes
  prefixAtSegEnd : Bool := false
  mode : Mode := .literal
  arms : List Arm := []
deriving DecidableEq, Repr

/-- Where two `/` follow one another, from the position `at'` on. -/
def findDoubleSlash (at' : Nat) : Bytes → Option Nat
  | a :: b :: rest =>
    if a = slash ∧ b = slash then some at' else findDoubleSlash (at' + 1) (b :: rest)
  | _ => none

/-- One turn of the loop over the arms: an arm, and whether it matches everything. -/
def compileChoice (s : Bytes) (start : Nat) (atSegEnd root atSegmentStart : Bool)
    (braces : List Brace) (choice : List Nat) : Except GlobError (Arm × Bool) :=
  let pieces := buildPieces s start braces choice
  let text := piecesText pieces
  if atSegEnd && text.head? = some slash then
    .error ⟨.multipleSlash, start - 1, origin pieces 0 + 1, "multiple `/` is not allowed"⟩
  else
    match compileArm text atSegmentStart with
    | .error error => .error (rebase pieces error)
    | .ok arm => .ok (arm, root && (text = [star, star] || text = [star, star, slash]))

/-- A suffix that `match_extension_set` can look up. -/
def isExtension (text : Bytes) : Bool :=
  text.length ≤ 8 && text.head? = some dot && !(text.drop 1).contains dot

/-- The order of the arms that `match_extension_set` searches. -/
def extensionLe (a b : Arm) : Bool :=
  pairLe (a.literal.text.length, a.literal.word) (b.literal.text.length, b.literal.word)

/-- The mode of a pattern with arms, and its arms in the order it keeps them. -/
def chooseMode (atSegEnd root matchAll : Bool) (arms : List Arm) : Mode × List Arm :=
  let single (p : Arm → Bool) := arms.length = 1 && arms.head?.any p
  let all (plan : Plan) := arms.all fun arm => arm.plan = plan
  if matchAll then (.any, arms)
  else if single fun arm => atSegEnd && arm.segments.length = 1 &&
      isKind .recursive arm.segments.head? then (.prefixTree, arms)
  else if single fun arm => root && arm.plan = .suffix then (.suffix, arms)
  else if single fun arm => root && arm.plan = .pathSuffix then (.pathSuffix, arms)
  else if single fun arm => root && arm.plan = .segmentSuffix then (.segmentSuffix, arms)
  else if all .suffix then
    if arms.length ≥ 16 && arms.all fun arm => isExtension arm.literal.text then
      (.extensionArms, arms.mergeSort extensionLe)
    else (.suffixArms, arms)
  else if all .segmentSuffix then (.segmentSuffixArms, arms)
  else (.arms, arms)

/-- The braces of a pattern from `start` on, where braces expand. -/
def bracesOf (s : Bytes) (start maxArms : Nat) : Except GlobError (List Brace) :=
  if maxArms ≠ 0 && (s.drop start).contains openBrace then
    match parseBraces s start (s.drop start) [] none 0 with
    | .error error => .error error
    | .ok braces =>
      if armCount 1 braces > maxArms then
        .error ⟨.tooManyExpansions, 0, 0, "too many brace expansions"⟩
      else .ok braces
  else .ok []

/-- `GlobPattern::create`. -/
def create (s : Bytes) (maxArms : Nat) : Except GlobError GlobPattern :=
  match findInvalidUtf8 0 s with
  | some pos => .error ⟨.invalidUtf8, pos, pos + 1, "pattern is not valid UTF-8"⟩
  | none =>
    let head := literalHead s
    let start := head.stop
    if (s.drop start).head? = some backslash then
      if start + 1 = s.length then .error ⟨.strayBackslash, start, start + 1, "stray `\\`"⟩
      else .error ⟨.invalidEscape, start, start + 2, "`/` cannot be escaped"⟩
    else
      match findDoubleSlash 0 (s.take start) with
      | some pos => .error ⟨.multipleSlash, pos, pos + 2, "multiple `/` is not allowed"⟩
      | none =>
        if start = s.length then .ok { literalPrefix := head.text }
        else
          let atSegEnd := head.text.getLast? = some slash
          let literalPrefix := if atSegEnd then head.text.dropLast else head.text
          let root := literalPrefix = [] && !atSegEnd
          let atSegmentStart := literalPrefix = [] || atSegEnd
          match bracesOf s start maxArms with
          | .error error => .error error
          | .ok braces =>
            let choices := choicesFrom braces (braces.map fun brace => brace.terms.length).prod
              (braces.map fun _ => 0)
            match choices.mapM (compileChoice s start atSegEnd root atSegmentStart braces) with
            | .error error => .error error
            | .ok compiled =>
              let (mode, arms) := chooseMode atSegEnd root (compiled.any Prod.snd)
                (compiled.map Prod.fst)
              .ok {
                literalPrefix := literalPrefix
                prefixAtSegEnd := atSegEnd
                mode := mode
                arms := arms }

end Kotatsu.Support.Glob
