import Kotatsu.Core.Bytes
import Kotatsu.Core.Stream

/-!
# The frame parser of the base protocol

`FrameParser.feed` as `src/ipc/framing.cpp` computes it: a header block up to
its blank line, then the payload it announces, kept whole or, over the limit,
skipped but for its first bytes. Every difference of sizes the source takes is
a `checkedSub` here, so a call has no result where one would go below zero.
A moved-from string is left empty, as the next header clears it before use.
-/

namespace Kotatsu.Ipc

open Kotatsu.Core

/-- How much of a skipped frame's payload is kept. -/
def skippedPrefixSize : Nat := 4 * 1024

/-- The largest header block read, blank line included. -/
def maxHeaderSize : Nat := 8 * 1024

/-- Why a message could not be read. -/
inductive ReadErrorKind where
  | closed
  | malformed
  | oversized
  deriving DecidableEq, Repr

/-- A message that could not be read: for an oversized one, its size and first bytes. -/
structure ReadError where
  kind : ReadErrorKind
  message : Bytes
  size : Nat
  skippedPrefix : Bytes
  deriving DecidableEq, Repr

/-- What ends a frame: its payload, or why it cannot be read. -/
inductive Frame where
  | payload (bytes : Bytes)
  | error (why : ReadError)
  deriving DecidableEq, Repr

/-- Whether a frame ends the input: nothing after a malformed header can be found. -/
def Frame.isMalformed : Frame → Bool
  | .payload _ => false
  | .error why => why.kind = .malformed

/-- What the parser reads next. -/
inductive Phase where
  | header
  | payload
  | skip
  | broken
  deriving DecidableEq, Repr

/-- The parser's fields, in the source's order. -/
structure FrameParser where
  maxPayload : Nat
  phase : Phase
  header : Bytes
  payload : Bytes
  skippedPrefix : Bytes
  failure : Bytes
  remaining : Nat
  skippedSize : Nat
  deriving DecidableEq, Repr

/-- A parser that has read nothing yet. -/
def FrameParser.new (maxPayload : Nat) : FrameParser :=
  ⟨maxPayload, .header, [], [], [], [], 0, 0⟩

/-- The line end and the blank line that ends a header. -/
def lineEnd : Bytes := [13, 10]

def blankLine : Bytes := [13, 10, 13, 10]

/-- Spaces and tabs around header names and values do not count. -/
def trim (value : Bytes) : Bytes := trimBy (fun b => b == 32 || b == 9) value

/-- ASCII upper case letters become lower case ones. -/
def toLower (c : UInt8) : UInt8 := if 65 ≤ c.toNat ∧ c.toNat ≤ 90 then c + 32 else c

/-- Header names are compared without regard to ASCII case. -/
def equalsIgnoringCase (lhs rhs : Bytes) : Bool := lhs.map toLower == rhs.map toLower

/-- The name of the one header that counts. -/
def contentLengthName : Bytes := ascii "Content-Length"

/-- What the line of one header says: a size, why it is none, or nothing about it. -/
def lineLength (line : Bytes) : Option (Except Bytes Nat) :=
  match line.findIdx? (· == 58) with
  | none => none
  | some colon =>
    if equalsIgnoringCase (trim (line.take colon)) contentLengthName then
      let value := trim (line.drop (colon + 1))
      match fromChars 64 value with
      | some length => some (.ok length)
      | none => some (.error (ascii "invalid Content-Length: " ++ value))
    else none

/-- The payload size the first Content-Length of a header block names. A block
whose line end is missing would be cut by the wrapped sum `npos + 2`. -/
def contentLength (header : Bytes) : Except Bytes Nat :=
  if _h : header = [] then .error (ascii "missing Content-Length")
  else
    match find lineEnd header with
    | some e =>
      match lineLength (header.take e) with
      | some answer => answer
      | none => contentLength (header.drop (e + 2))
    | none =>
      match lineLength header with
      | some answer => answer
      | none => contentLength (header.drop 1)
termination_by header.length
decreasing_by
  all_goals
    have := List.length_pos_iff.mpr _h
    simp only [List.length_drop]
    omega

/-- What goes before a payload of `size` bytes. -/
def frameHeader (size : Nat) : Bytes := ascii "Content-Length: " ++ decimal size ++ blankLine

/-- A blank line that begins in the header read so far, the longest such part first. -/
def straddle (header next : Bytes) : Nat → Option Nat
  | 0 => none
  | before + 1 =>
    if (blankLine.take (before + 1)).isSuffixOf header &&
        (blankLine.drop (before + 1)).isPrefixOf next then
      some (blankLine.length - (before + 1))
    else straddle header next before

/-- How many bytes of `next`, which follows the header read so far, end the header. -/
def headerEnd (header next : Bytes) : Option Nat :=
  match straddle header next (min 3 header.length) with
  | some n => some n
  | none => (find blankLine next).map (· + blankLine.length)

/-- The result every call gives once the input is broken. -/
def FrameParser.malformed (p : FrameParser) (consumed : Nat) : Feed FrameParser Frame :=
  ⟨consumed, some (.error ⟨.malformed, p.failure, 0, []⟩), p⟩

/-- The header cannot be read, for `reason`. -/
def FrameParser.breakWith (p : FrameParser) (consumed : Nat) (reason : Bytes) :
    Feed FrameParser Frame :=
  { p with phase := .broken, failure := reason }.malformed consumed

/-- Why a header that does not end is given up. -/
def headerTooLong : Bytes := ascii "header exceeds " ++ decimal maxHeaderSize ++ ascii " bytes"

/-- Why a frame over the limit is skipped. -/
def oversizedMessage (size maxPayload : Nat) : Bytes :=
  ascii "a message of " ++ decimal size ++ ascii " bytes exceeds the limit of " ++
    decimal maxPayload ++ ascii " bytes"

/-- The frame of a skipped payload. -/
def oversized (size maxPayload : Nat) (kept : Bytes) : Frame :=
  .error ⟨.oversized, oversizedMessage size maxPayload, size, kept⟩

/-- The payload phase, from `consumed` on. -/
def FrameParser.feedPayload (p : FrameParser) (input : Bytes) (consumed : Nat) :
    Option (Feed FrameParser Frame) := do
  let left ← checkedSub input.length consumed
  let take := min p.remaining left
  let payload := p.payload ++ substr input consumed take
  let remaining ← checkedSub p.remaining take
  if remaining ≠ 0 then
    return ⟨consumed + take, none, { p with payload, remaining }⟩
  else
    return ⟨consumed + take, some (.payload payload),
      { p with phase := .header, payload := [], remaining }⟩

/-- The skip phase, from `consumed` on: only the first bytes are kept. -/
def FrameParser.feedSkip (p : FrameParser) (input : Bytes) (consumed : Nat) :
    Option (Feed FrameParser Frame) := do
  let left ← checkedSub input.length consumed
  let take := min p.remaining left
  let room ← checkedSub skippedPrefixSize p.skippedPrefix.length
  let keep := min take room
  let skippedPrefix := p.skippedPrefix ++ substr input consumed keep
  let remaining ← checkedSub p.remaining take
  if remaining ≠ 0 then
    return ⟨consumed + take, none, { p with skippedPrefix, remaining }⟩
  else
    return ⟨consumed + take, some (oversized p.skippedSize p.maxPayload skippedPrefix),
      { p with phase := .header, skippedPrefix := [], remaining }⟩

/-- A whole header was read: the parser goes on with its payload in the same call. -/
def FrameParser.enterBody (p : FrameParser) (input : Bytes) (consumed : Nat) :
    Option (Feed FrameParser Frame) :=
  if p.header.length > maxHeaderSize then some (p.breakWith consumed headerTooLong)
  else
    match contentLength p.header with
    | .error why => some (p.breakWith consumed why)
    | .ok length =>
      let q := { p with header := [], payload := [], skippedPrefix := [], remaining := length }
      if length > p.maxPayload then
        { q with phase := .skip, skippedSize := length }.feedSkip input consumed
      else { q with phase := .payload }.feedPayload input consumed

/-- The header phase: no more than one byte past the limit is copied. -/
def FrameParser.feedHeader (p : FrameParser) (input : Bytes) : Option (Feed FrameParser Frame) := do
  let room ← checkedSub (maxHeaderSize + 1) p.header.length
  let window := input.take room
  match headerEnd p.header window with
  | none =>
    let q := { p with header := p.header ++ window }
    if q.header.length > maxHeaderSize then return q.breakWith window.length headerTooLong
    else return ⟨window.length, none, q⟩
  | some n => FrameParser.enterBody { p with header := p.header ++ window.take n } input n

/-- Takes bytes from the front of `input`, up to the end of the next frame. -/
def FrameParser.feed (p : FrameParser) (input : Bytes) : Option (Feed FrameParser Frame) :=
  match p.phase with
  | .broken => some (p.malformed 0)
  | .header => p.feedHeader input
  | .payload => p.feedPayload input 0
  | .skip => p.feedSkip input 0

/-- The read loops of the transports: feed the rest of a chunk, drop what it took,
and stop at a malformed frame. -/
def readChunks (p : FrameParser) (chunks : List Bytes) : Option (Trace FrameParser Frame) :=
  drive FrameParser.feed Frame.isMalformed p 0 chunks

/-- The phase a parser is in with the fields that phase reads; the others are
cleared or set before they are read again. -/
inductive ParserState where
  | header (header : Bytes)
  | payload (payload : Bytes) (remaining : Nat)
  | skip (skippedPrefix : Bytes) (remaining skippedSize : Nat)
  | broken (failure : Bytes)
  deriving DecidableEq, Repr

/-- The state a parser is in. -/
def FrameParser.state (p : FrameParser) : ParserState :=
  match p.phase with
  | .header => .header p.header
  | .payload => .payload p.payload p.remaining
  | .skip => .skip p.skippedPrefix p.remaining p.skippedSize
  | .broken => .broken p.failure

end Kotatsu.Ipc
