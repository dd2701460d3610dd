import Kotatsu.Ipc.Lsp.Lines
import Kotatsu.Ipc.Lsp.Text

/-!
# Positions of a text

The conversions between byte offsets and positions, over a text or over its size alone.
Each finds a line in the table of line starts and places a byte or a unit in it; what is
known of ASCII lines and of carriage returns is a parameter of all of them. The line
found is the line of the text that holds the byte or has the number.
-/

namespace Kotatsu.Ipc.Lsp

open Kotatsu.Core

/-- `protocol::Position`. -/
structure Position where
  line : Nat
  character : Nat
deriving DecidableEq, Repr

/-- `protocol::Range`. -/
structure Range where
  (start end' : Position)
deriving DecidableEq, Repr

/-- `OffsetRange`. -/
structure OffsetRange where
  (begin' end' : Nat)
deriving DecidableEq, Repr

/-- `ascii_lines`: a predicate, or the bitmap `non_ascii_lines` gives. -/
inductive AsciiLines where
  | predicate (known : Nat → Bool)
  | bitmap (bits : List Nat)

/-- `all_ascii`. -/
def allAscii : AsciiLines := .predicate fun _ => true

/-- `unknown_ascii`. -/
def unknownAscii : AsciiLines := .predicate fun _ => false

/-- `known_ascii`. -/
def knownAscii : AsciiLines → Nat → Bool
  | .predicate known, line => known line
  | .bitmap bits, line =>
    decide (line / 64 ≥ bits.length) || (bits.getD (line / 64) 0 >>> (line % 64)) &&& 1 == 0

/-- `line_of`: the last line that starts at or before the offset. -/
def lineOf (lines : List Nat) (offset : Nat) : Nat :=
  u32 (lines.findIdx (fun start => decide (offset < start)) - 1)

/-- `Line`. -/
structure Line where
  number : Nat
  (start end' : Nat)
  ascii : Bool
deriving DecidableEq, Repr

/-- `line_at`. -/
def lineAt (lines : List Nat) (number size : Nat) (ascii : AsciiLines)
    (crlf : Nat → Nat → Bool) : Line :=
  let start := u32 (lines.getD number 0)
  let end' :=
    if u32 (number + 1) < lines.length then
      let newline := u32 (lines.getD (u32 (number + 1)) 0 + (2 ^ 32 - 1))
      if newline > start ∧ crlf number newline then newline - 1 else newline
    else size
  { number := number, start := start, end' := end', ascii := knownAscii ascii number }

/-- `crlf_read`. -/
def crlfRead (content : Bytes) : Nat → Nat → Bool := fun _ newline =>
  content[newline - 1]? == some returnByte

/-- `crlf_told`. -/
def crlfTold (crlf : Nat → Bool) : Nat → Nat → Bool := fun line _ => crlf line

/-- `position_in`. -/
def positionIn (content : Bytes) (line : Line) (offset : Nat) (encoding : PositionEncoding) :
    Position :=
  let column := min offset line.end' - line.start
  let column :=
    if line.ascii then column
    else
      let text := substr content line.start (line.end' - line.start)
      let start := (locate text column .utf8).offset
      encodedLength (substr text 0 start) encoding
  { line := line.number, character := column }

/-- `offset_in`. -/
def offsetIn (content : Bytes) (line : Line) (character : Nat) (encoding : PositionEncoding) :
    Located :=
  if line.ascii then
    { offset := line.start + min character (line.end' - line.start), exact := true }
  else
    let found :=
      locate (substr content line.start (line.end' - line.start)) character encoding
    let offset := line.start + found.offset
    { offset := offset, exact := found.exact || offset == line.end' }

/-- `position_of`. -/
def positionOf (content : Bytes) (size : Nat) (lines : List Nat) (offset : Nat)
    (encoding : PositionEncoding) (ascii : AsciiLines) (crlf : Nat → Nat → Bool) :
    Option Position :=
  if offset > size then none
  else
    let line := lineAt lines (lineOf lines offset) size ascii crlf
    some (positionIn content line offset encoding)

/-- `offset_of`. -/
def offsetOf (content : Bytes) (size : Nat) (lines : List Nat) (position : Position)
    (encoding : PositionEncoding) (ascii : AsciiLines) (crlf : Nat → Nat → Bool) : Located :=
  if position.line ≥ lines.length then { offset := size, exact := false }
  else
    let line := lineAt lines position.line size ascii crlf
    offsetIn content line position.character encoding

/-- `range_of`: the start is in the text if the end is. -/
def rangeOf (content : Bytes) (size : Nat) (lines : List Nat) (begin' end' : Nat)
    (encoding : PositionEncoding) (ascii : AsciiLines) (crlf : Nat → Nat → Bool) :
    Option Range :=
  if begin' > end' then none
  else do
    let stop ← positionOf content size lines end' encoding ascii crlf
    let start ← positionOf content size lines begin' encoding ascii crlf
    some { start := start, end' := stop }

/-- `offset_range_of`. -/
def offsetRangeOf (content : Bytes) (size : Nat) (lines : List Nat) (range : Range)
    (encoding : PositionEncoding) (ascii : AsciiLines) (crlf : Nat → Nat → Bool) :
    OffsetRange :=
  let begin' := (offsetOf content size lines range.start encoding ascii crlf).offset
  let end' := (offsetOf content size lines range.end' encoding ascii crlf).offset
  { begin' := min begin' end', end' := max begin' end' }

/-- `to_position` over a text and its line starts. -/
def toPosition (content : Bytes) (lines : List Nat) (offset : Nat)
    (encoding : PositionEncoding) (ascii : AsciiLines) : Option Position :=
  positionOf content (u32 content.length) lines offset encoding ascii (crlfRead content)

/-- `to_offset` over a text and its line starts. -/
def toOffset (content : Bytes) (lines : List Nat) (position : Position)
    (encoding : PositionEncoding) (ascii : AsciiLines) : Option Nat :=
  let found :=
    offsetOf content (u32 content.length) lines position encoding ascii (crlfRead content)
  if found.exact then some found.offset else none

/-- `to_offset_clamped` over a text and its line starts. -/
def toOffsetClamped (content : Bytes) (lines : List Nat) (position : Position)
    (encoding : PositionEncoding) (ascii : AsciiLines) : Nat :=
  (offsetOf content (u32 content.length) lines position encoding ascii
    (crlfRead content)).offset

/-- `to_range` over a text and its line starts. -/
def toRange (content : Bytes) (lines : List Nat) (begin' end' : Nat)
    (encoding : PositionEncoding) (ascii : AsciiLines) : Option Range :=
  rangeOf content (u32 content.length) lines begin' end' encoding ascii (crlfRead content)

/-- `to_offset_range` over a text and its line starts. -/
def toOffsetRange (content : Bytes) (lines : List Nat) (range : Range)
    (encoding : PositionEncoding) (ascii : AsciiLines) : OffsetRange :=
  offsetRangeOf content (u32 content.length) lines range encoding ascii (crlfRead content)

/-- `to_position` over a text alone. -/
def toPositionOfText (content : Bytes) (offset : Nat) (encoding : PositionEncoding) :
    Option Position :=
  toPosition content (lineStarts content) offset encoding unknownAscii

/-- `to_offset` over a text alone. -/
def toOffsetOfText (content : Bytes) (position : Position) (encoding : PositionEncoding) :
    Option Nat :=
  toOffset content (lineStarts content) position encoding unknownAscii

/-- `to_position` over a size and line starts, every line ASCII. -/
def toPositionOfSize (size : Nat) (lines : List Nat) (offset : Nat) (crlf : Nat → Bool) :
    Option Position :=
  positionOf [] size lines offset .utf8 allAscii (crlfTold crlf)

/-- `to_offset` over a size and line starts. -/
def toOffsetOfSize (size : Nat) (lines : List Nat) (position : Position)
    (crlf : Nat → Bool) : Option Nat :=
  let found := offsetOf [] size lines position .utf8 allAscii (crlfTold crlf)
  if found.exact then some found.offset else none

/-- `to_offset_clamped` over a size and line starts. -/
def toOffsetClampedOfSize (size : Nat) (lines : List Nat) (position : Position)
    (crlf : Nat → Bool) : Nat :=
  (offsetOf [] size lines position .utf8 allAscii (crlfTold crlf)).offset

/-- `to_range` over a size and line starts. -/
def toRangeOfSize (size : Nat) (lines : List Nat) (begin' end' : Nat) (crlf : Nat → Bool) :
    Option Range :=
  rangeOf [] size lines begin' end' .utf8 allAscii (crlfTold crlf)

/-- `to_offset_range` over a size and line starts. -/
def toOffsetRangeOfSize (size : Nat) (lines : List Nat) (range : Range)
    (crlf : Nat → Bool) : OffsetRange :=
  offsetRangeOf [] size lines range .utf8 allAscii (crlfTold crlf)

/-! ## The line found -/

variable {content : Bytes}

/-- The line `line_at` gives for a line of the text. -/
def TextLine.found (l : TextLine content) (ascii : AsciiLines) : Line :=
  { number := l.number, start := l.start, end' := l.stop, ascii := knownAscii ascii l.number }

/-- What tells carriage returns tells them for each line with a byte before its
newline. -/
def TellsReturns (content : Bytes) (crlf : Nat → Nat → Bool) : Prop :=
  ∀ l : TextLine content, l.start < l.newline → l.newline < content.length →
    (crlf l.number l.newline = true ↔ content[l.newline - 1]? = some returnByte)

theorem crlfRead_tells (content : Bytes) : TellsReturns content (crlfRead content) := by
  intro l _ _
  rw [crlfRead, beq_iff_eq]

theorem TextLine.number_lt (l : TextLine content) (ht : content.length < 2 ^ 32) :
    l.number < 2 ^ 32 := by
  have h1 := l.number_lt_length
  have h2 : content.count newlineByte ≤ content.length := List.count_le_length
  rw [length_lineStarts] at h1
  omega

private theorem Listed.getD_start {l : TextLine content} (h : Listed (lineStarts content) l) :
    (lineStarts content).getD l.number 0 = l.start := by
  rw [List.getD_eq_getElem?_getD, h.start, Option.getD_some]

variable {crlf : Nat → Nat → Bool} {o : Nat}

theorem lineAt_eq (l : TextLine content) (ht : content.length < 2 ^ 32) (ascii : AsciiLines)
    (hc : TellsReturns content crlf) :
    lineAt (lineStarts content) l.number content.length ascii crlf = l.found ascii := by
  have hl := l.listed
  have hnumber := l.number_lt ht
  have hle := l.newline_le
  have hstart := l.start_le
  have hstarts : u32 l.start = l.start := u32_of_lt (by omega)
  rw [lineAt, hl.getD_start, hstarts, TextLine.found, Line.mk.injEq]
  refine ⟨rfl, rfl, ?_, rfl⟩
  obtain ⟨hnext, hlt⟩ | ⟨hlast, hend⟩ := hl.next
  · have hlength := (List.getElem?_eq_some_iff.mp hnext).1
    have hcount : (lineStarts content).length ≤ 2 ^ 32 := by
      have : content.count newlineByte ≤ content.length := List.count_le_length
      rw [length_lineStarts]
      omega
    have hnewline : u32 (l.newline + 1 + (2 ^ 32 - 1)) = l.newline := by
      rw [u32]
      omega
    rw [u32_of_lt (by omega : l.number + 1 < 2 ^ 32), if_pos hlength,
      List.getD_eq_getElem?_getD, hnext, Option.getD_some, hnewline]
    dsimp only
    rw [TextLine.stop]
    by_cases hbyte : l.start < l.newline
    · simp only [hbyte, hlt, hc l hbyte hlt, true_and]
    · simp only [hbyte, false_and, and_false, if_false]
  · have hstop : l.stop = content.length := by
      rw [TextLine.stop, if_neg (by omega), hend]
    rw [hstop]
    split
    · next hwrap =>
      -- The number of the last line wraps only when every byte ends a line.
      have hall : l.number + 1 = 2 ^ 32 := by
        by_contra hne
        rw [u32_of_lt (by omega : l.number + 1 < 2 ^ 32)] at hwrap
        omega
      have hfull : l.number ≤ l.start := by
        have := (content.take l.start).count_le_length (a := newlineByte)
        rw [l.numbered, List.length_take] at this
        omega
      have hzero : u32 ((lineStarts content).getD (u32 (l.number + 1)) 0 + (2 ^ 32 - 1)) =
          content.length := by
        rw [hall, show u32 (2 ^ 32) = 0 from rfl, lineStarts, List.getD_cons_zero, u32]
        omega
      dsimp only
      rw [hzero, if_neg (by omega)]
    · rfl

private theorem exists_line_found (content : Bytes) (ho : o ≤ content.length) :
    ∃ l : TextLine content, (l.start ≤ o ∧ o ≤ l.newline) ∧
      (lineStarts content).findIdx (fun start => decide (o < start)) - 1 = l.number := by
  have hlen := @List.findIdx_le_length _ (fun start => decide (o < start)) (lineStarts content)
  have hpos : 0 < (lineStarts content).findIdx (fun start => decide (o < start)) := by
    rw [lineStarts, List.findIdx_cons, decide_eq_false (Nat.not_lt_zero o)]
    exact Nat.succ_pos _
  obtain ⟨n, hn⟩ := Nat.exists_eq_add_of_lt hpos
  rw [Nat.zero_add] at hn
  rw [hn] at hlen
  obtain ⟨l, rfl, hl⟩ := exists_listed content (n := n) (by omega)
  refine ⟨l, ⟨?_, ?_⟩, by rw [hn, Nat.add_sub_cancel]⟩
  · obtain ⟨hlt, hget⟩ := List.getElem?_eq_some_iff.mp hl.start
    have hbefore : l.number <
        (lineStarts content).findIdx (fun start => decide (o < start)) := by omega
    have hfalse := List.not_of_lt_findIdx hbefore
    rw [hget, decide_eq_false_iff_not] at hfalse
    omega
  · obtain ⟨hnext, -⟩ | ⟨hlast, hend⟩ := hl.next
    · obtain ⟨hlt, hget⟩ := List.getElem?_eq_some_iff.mp hnext
      rw [← hn] at hlt
      have htrue := List.findIdx_getElem (w := hlt)
      simp only [hn, hget, decide_eq_true_eq] at htrue
      omega
    · omega

/-- Every byte, and the end of the text, lies in a line. -/
theorem exists_line (content : Bytes) (ho : o ≤ content.length) :
    ∃ l : TextLine content, l.start ≤ o ∧ o ≤ l.newline := by
  obtain ⟨l, hl, -⟩ := exists_line_found content ho
  exact ⟨l, hl⟩

/-- The line found for a byte is the line that holds it. -/
theorem lineOf_eq (l : TextLine content) (ht : content.length < 2 ^ 32)
    (ho : l.start ≤ o ∧ o ≤ l.newline) : lineOf (lineStarts content) o = l.number := by
  obtain ⟨l', hl', hfound⟩ := exists_line_found content (Nat.le_trans ho.2 l.newline_le)
  rw [lineOf, hfound, l'.eq_of_mem l hl' ho, u32_of_lt (l.number_lt ht)]

/-! ## The conversions, in the line -/

theorem positionOf_eq (l : TextLine content) (ht : content.length < 2 ^ 32)
    (ho : l.start ≤ o ∧ o ≤ l.newline) (bytes : Bytes) (encoding : PositionEncoding)
    (ascii : AsciiLines) (hc : TellsReturns content crlf) :
    positionOf bytes content.length (lineStarts content) o encoding ascii crlf =
      some (positionIn bytes (l.found ascii) o encoding) := by
  have hle := Nat.le_trans ho.2 l.newline_le
  rw [positionOf, if_neg (by omega), lineOf_eq l ht ho, lineAt_eq l ht ascii hc]

theorem offsetOf_eq (l : TextLine content) (ht : content.length < 2 ^ 32) (character : Nat)
    (bytes : Bytes) (encoding : PositionEncoding) (ascii : AsciiLines)
    (hc : TellsReturns content crlf) :
    offsetOf bytes content.length (lineStarts content) ⟨l.number, character⟩ encoding ascii
        crlf = offsetIn bytes (l.found ascii) character encoding := by
  have hlt := l.number_lt_length
  rw [offsetOf, if_neg (by dsimp only; omega), lineAt_eq l ht ascii hc]

end Kotatsu.Ipc.Lsp
