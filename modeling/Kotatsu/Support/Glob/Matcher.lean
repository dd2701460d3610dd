import Kotatsu.Support.Glob.Pattern

/-!
# Matching a path

`GlobPattern::match` and the plans it chooses from. The two backtracking loops,
over the tokens of a segment and over the segments of an arm, keep one restart
point each: the latest `*`, and the latest `**`. They are run for more turns than
they take. Offsets of `execute` are always at the start of a segment of the input.
-/

namespace Kotatsu.Support.Glob

open Kotatsu.Core

/-! ## Literals -/

/-- `PackedLiteral::matches`. -/
def PackedLiteral.matches (literal : PackedLiteral) (input : Bytes) : Bool :=
  let size := literal.text.length
  if input.length < size then false
  else if size ≤ 8 ∧ input.length ≥ 8 then
    loadWord (input.drop (input.length - 8)) &&& literal.mask = literal.word
  else if size ≤ 16 ∧ input.length ≥ 16 then
    let first := loadWord ((input.drop (input.length - 16)).take 8)
    let last := loadWord (input.drop (input.length - 8))
    last &&& literal.mask = literal.word && first &&& literal.leadMask = literal.leadWord
  else literal.text.isSuffixOf input

/-- `basename`. -/
def basename (path : Bytes) : Bytes := path.rtakeWhile (· ≠ slash)

/-- `find_segment`: the text from the first segment that begins with `first` and, when
`text` is given, equals it. `start` says whether a segment begins here. -/
def findSegment (first : UInt8) (text : Bytes) (start : Bool) : Bytes → Option Bytes
  | [] => none
  | b :: rest =>
    if b = first then
      if (b :: rest).length < text.length then none
      else
        let after := (b :: rest).drop text.length
        if start && (text = [] ||
            ((after = [] || after.head? = some slash) && text.isPrefixOf (b :: rest))) then
          some (b :: rest)
        else findSegment first text (b = slash) rest
    else findSegment first text (b = slash) rest

/-! ## Tokens -/

/-- `match_affix`. -/
def matchAffix (tokens : List Token) (input : Bytes) : Bool :=
  let head := (tokens.head?.map Token.text).getD []
  let tail := (tokens.getLast?.map Token.text).getD []
  input.length ≥ head.length + tail.length && head.isPrefixOf input && tail.isSuffixOf input

/-- The state of the loop of `match_tokens`: the tokens and the input that are left, and
where the latest star resumes. -/
structure TokenState where
  tokens : List Token
  input : Bytes
  retry : Option (List Token × Bytes)

/-- The latest star takes one more atom. -/
def TokenState.backtrack (s : TokenState) : TokenState ⊕ Bool :=
  match s.retry with
  | none => .inr false
  | some (tokens, input) =>
    if input = [] then .inr false
    else .inl { tokens := tokens, input := dropAtom input, retry := some (tokens, dropAtom input) }

/-- One token against the input. -/
def TokenState.advance (s : TokenState) (tokens : List Token) (fits : Bool) :
    TokenState ⊕ Bool :=
  if s.input ≠ [] && fits then .inl { s with tokens := tokens, input := dropAtom s.input }
  else s.backtrack

/-- One turn of `match_tokens`. -/
def TokenState.turn (s : TokenState) : TokenState ⊕ Bool :=
  match s.tokens with
  | [] => if s.input = [] then .inr true else s.backtrack
  | .star :: tokens =>
    if tokens = [] then .inr true
    else .inl { s with tokens := tokens, retry := some (tokens, s.input) }
  | .literal text :: tokens =>
    if s.retry.any fun retry => retry.1.length = tokens.length + 1 then
      if tokens = [] then .inr (s.input.length ≥ text.length && text.isSuffixOf s.input)
      else
        match find text s.input with
        | none => .inr false
        | some at' =>
          .inl {
            tokens := tokens
            input := s.input.drop (at' + text.length)
            retry := some (.literal text :: tokens, s.input.drop at') }
    else if text.isPrefixOf s.input then
      .inl { s with tokens := tokens, input := s.input.drop text.length }
    else s.backtrack
  | .any :: tokens => s.advance tokens true
  | .cls c :: tokens => s.advance tokens (c.contains (decodeUtf8Atom s.input).cp)

/-- `match_tokens`. -/
def matchTokens (tokens : List Token) (input : Bytes) : Bool :=
  let turns := rank (input.length + 1) (tokens.length + 1) (tokens.length + 1) 0 tokens.length + 1
  (loop TokenState.turn turns ⟨tokens, input, none⟩).getD false

/-! ## Segments -/

/-- The input segment at the start of a text, and what follows it. -/
def segmentEnd (rest : Bytes) : Bytes × Bytes := rest.span (· ≠ slash)

/-- A segment other than `**` against the input: what follows the input segment it takes. -/
def matchSegment (part : Segment) (rest : Bytes) : Option Bytes :=
  match part.kind with
  | .literal =>
    let text := (part.tokens.head?.map Token.text).getD []
    let after := rest.drop text.length
    if text.isPrefixOf rest && (after = [] || after.head? = some slash) then some after else none
  | .affix =>
    let input := segmentEnd rest
    if matchAffix part.tokens input.1 then some input.2 else none
  | _ =>
    let input := segmentEnd rest
    if matchTokens part.tokens input.1 then some input.2 else none

/-- The state of the loop of `execute`: the segments and the input that are left, and where
the latest `**` resumes. -/
structure ExecuteState where
  segments : List Segment
  input : Bytes
  retry : Option (List Segment × Bytes)

/-- The next input segment that can begin a match of the retry segment. -/
def ExecuteState.jump (segments : List Segment) (found : Option Bytes) : ExecuteState ⊕ Bool :=
  match found with
  | none => .inr false
  | some input => .inl { segments := segments, input := input, retry := some (segments, input) }

/-- The latest `**` takes one more segment. -/
def ExecuteState.backtrack (s : ExecuteState) : ExecuteState ⊕ Bool :=
  match s.retry with
  | none => .inr false
  | some (segments, input) =>
    match segments.head?.bind Segment.first with
    | none =>
      let next := (segmentEnd input).2.drop 1
      .inl { segments := segments, input := next, retry := some (segments, next) }
    | some first =>
      jump segments (findSegment first [] (input.head? = some slash) (input.drop 1))

/-- One turn of `execute`; there always is a segment. -/
def ExecuteState.turn (s : ExecuteState) : ExecuteState ⊕ Bool :=
  match s.segments with
  | [] => .inr false
  | part :: following =>
    if s.input = [] then .inr part.nullable
    else if part.kind = .recursive then
      match following with
      | [] => .inr true
      | next :: _ =>
        match next.first with
        | none => .inl { s with segments := following, retry := some (following, s.input) }
        | some first => jump following (findSegment first [] true s.input)
    else
      let matched := if part.first = none ∨ s.input.head? = part.first then
        matchSegment part s.input else none
      match matched with
      | none => s.backtrack
      | some [] => if part.optionalRest then .inr true else s.backtrack
      | some (_ :: input) =>
        if following = [] then s.backtrack
        else .inl { s with segments := following, input := input }

/-- `execute`. -/
def execute (segments : List Segment) (str : Bytes) : Bool :=
  let turns := rank (str.length + 1) (segments.length + 1) (segments.length + 1) 0
    segments.length + 1
  (loop ExecuteState.turn turns ⟨segments, str, none⟩).getD false

/-! ## Arms -/

/-- `match_final`. -/
def matchFinal (arm : Arm) (str : Bytes) : Bool :=
  if !arm.literal.matches str then false
  else
    let name := if arm.basename then basename str else str
    if !arm.basename && name.contains slash then false
    else if arm.plan = .affix then
      name.length ≥ arm.head.length + arm.literal.text.length && arm.head.isPrefixOf name
    else if isKind .literal arm.segments.getLast? then
      name.length = arm.literal.text.length
    else matchTokens ((arm.segments.getLast?.map Segment.tokens).getD []) name

/-- A literal that fills the last segment of the input. -/
def matchPathSuffix (literal : PackedLiteral) (str : Bytes) : Bool :=
  literal.matches str && (str.length = literal.text.length ||
    str[str.length - literal.text.length - 1]? = some slash)

/-- A directory, or a path in it. -/
def matchPrefixTree (directory str : Bytes) : Bool :=
  directory.isPrefixOf str &&
    (str.length = directory.length || str[directory.length]? = some slash)

/-- An arm as its plan says. -/
def matchArm (arm : Arm) (str : Bytes) : Bool :=
  match arm.plan with
  | .prefixTree => matchPrefixTree arm.head str
  | .directoryTree => (findSegment (arm.head.headD 0) arm.head true str).isSome
  | .suffix => arm.literal.matches str
  | .pathSuffix => matchPathSuffix arm.literal str
  | .segmentSuffix => arm.literal.matches str && !str.contains slash
  | .affix => matchFinal arm str
  | .final => matchFinal arm str
  | .general => arm.literal.matches str && execute arm.segments str

/-- The binary search of `match_extension_set` between `first` and `last`. -/
def searchExtension (arms : List Arm) (length word first last : Nat) : Bool :=
  if _h : first < last then
    let middle := first + (last - first) / 2
    let literal := (arms[middle]?.map Arm.literal).getD {}
    let candidate := (length, word &&& literal.mask)
    let key := (literal.text.length, literal.word)
    if candidate = key then true
    else if pairLe candidate key then searchExtension arms length word first middle
    else searchExtension arms length word (middle + 1) last
  else false
termination_by last - first

/-- `match_extension_set`. -/
def matchExtensionSet (arms : List Arm) (str : Bytes) : Bool :=
  let length := (str.rtakeWhile (· ≠ dot)).length + 1
  if !str.contains dot || length > 8 then false
  else
    let word :=
      if str.length ≥ 8 then loadWord (str.drop (str.length - 8))
      else loadWord (List.replicate (8 - str.length) 0 ++ str)
    searchExtension arms length word 0 arms.length

/-- The input past the prefix and its separator, or the answer where it ends there. -/
def stripPrefix (pat : GlobPattern) (str : Bytes) : Bytes ⊕ Bool :=
  if !pat.literalPrefix.isPrefixOf str then .inr false
  else
    let str := str.drop pat.literalPrefix.length
    if !pat.prefixAtSegEnd then .inl str
    else
      match str with
      | [] => .inr (pat.arms.any Arm.absorbsSeparator)
      | b :: rest => if b = slash then .inl rest else .inr false

/-- `match_arms`. -/
def matchArms (pat : GlobPattern) (str : Bytes) : Bool :=
  match stripPrefix pat str with
  | .inr answer => answer
  | .inl str =>
    match pat.mode with
    | .extensionArms => matchExtensionSet pat.arms str
    | .segmentSuffixArms =>
      !str.contains slash && pat.arms.any fun arm => arm.literal.matches str
    | .suffixArms => pat.arms.any fun arm => arm.literal.matches str
    | _ => pat.arms.any fun arm => matchArm arm str

/-- `GlobPattern::match`. -/
def GlobPattern.match (pat : GlobPattern) (s : Bytes) : Bool :=
  let literal := (pat.arms.head?.map Arm.literal).getD {}
  match pat.mode with
  | .literal => s = pat.literalPrefix
  | .any => true
  | .prefixTree => matchPrefixTree pat.literalPrefix s
  | .suffix => literal.matches s
  | .pathSuffix => matchPathSuffix literal s
  | .segmentSuffix => literal.matches s && !s.contains slash
  | .arms | .suffixArms | .segmentSuffixArms | .extensionArms => matchArms pat s

end Kotatsu.Support.Glob
