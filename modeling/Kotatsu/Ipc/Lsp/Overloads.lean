import Kotatsu.Ipc.Lsp.RoundTrip

/-!
# The forms of the conversions agree

A line of ASCII converts one to one in every encoding, so it need not be read; with the
carriage returns told, the text need not even be kept.
-/

namespace Kotatsu.Ipc.Lsp

open Kotatsu.Core Kotatsu.Support

variable {content text : Bytes} {encoding : PositionEncoding}

/-! ## ASCII text -/

private theorem nextCodepointSizes_ascii (ha : isAscii text = true) {i : Nat}
    (hi : i < text.length) : nextCodepointSizes text i = (1, 1) := by
  have hbyte : text[i] < 0x80 := (isAscii_iff text).mp ha _ (List.getElem_mem hi)
  have hsmall : text[i].toNat < 0x10000 := by
    have := text[i].toNat_lt
    omega
  rw [nextCodepointSizes, List.drop_eq_getElem_cons hi, decodeUtf8_ascii hbyte]
  simp only [hsmall, Bool.true_eq_false, if_false, if_true]

private theorem width_ascii (encoding : PositionEncoding) : width encoding (1, 1) = 1 := by
  cases encoding <;> rfl

/-- In ASCII text every byte begins a code point of one unit. -/
theorem marked_ascii (encoding : PositionEncoding) (ha : isAscii text = true) {k : Nat}
    (hk : k ≤ text.length) : Marked encoding text k k := by
  induction k with
  | zero => exact Marked.zero encoding text
  | succ k ih =>
    have hnext := (ih (by omega)).next (by omega)
    rw [nextCodepointSizes_ascii ha (by omega), width_ascii] at hnext
    exact hnext

/-- A unit of ASCII text is its byte, up to the end. -/
theorem locate_ascii (encoding : PositionEncoding) (ha : isAscii text = true)
    (character : Nat) (ht : text.length < 2 ^ 32) :
    locate text character encoding =
      ⟨min character text.length, decide (character ≤ text.length)⟩ := by
  obtain hlt | hle := Nat.lt_or_ge text.length character
  · have hp := locate_places encoding character ht
    generalize locate text character encoding = found at hp ⊢
    rw [Nat.min_eq_right (Nat.le_of_lt hlt), decide_eq_false (Nat.not_le_of_lt hlt)]
    cases hp with
    | exact h =>
      have := h.eq_of_offset (marked_ascii encoding ha h.le)
      have := h.le
      omega
    | inside h hs hlo hhi =>
      have := h.eq_of_offset (marked_ascii encoding ha h.le)
      rw [nextCodepointSizes_ascii ha hs, width_ascii] at hhi
      omega
    | past h _ => rfl
  · rw [locate_of_marked (marked_ascii encoding ha hle) ht, Nat.min_eq_left hle, decide_eq_true hle]

/-! ## ASCII lines -/

theorem positionIn_ascii (l : TextLine content) (ht : content.length < 2 ^ 32)
    (ha : isAscii l.text = true) {o : Nat} (ho : l.start ≤ o) (encoding : PositionEncoding) :
    positionIn content (l.found unknownAscii) o encoding =
      ⟨l.number, min o l.stop - l.start⟩ := by
  have hlen := l.length_text
  have hstop := l.start_le_stop
  obtain ⟨s, u, hposition, hu, hinside, hend⟩ := positionIn_spec l ht ho encoding
  obtain rfl := hu.eq_of_offset (marked_ascii encoding ha hu.le)
  rw [hposition, Position.mk.injEq]
  refine ⟨rfl, ?_⟩
  obtain hlt | hge := Nat.lt_or_ge o l.stop
  · rw [(hinside hlt).eq_of_marked (marked_ascii .utf8 ha (by omega)),
      Nat.min_eq_left (Nat.le_of_lt hlt)]
  · have := hend hge
    omega

theorem offsetIn_ascii (l : TextLine content) (ht : content.length < 2 ^ 32)
    (ha : isAscii l.text = true) (character : Nat) (encoding : PositionEncoding) :
    offsetIn content (l.found unknownAscii) character encoding =
      ⟨l.start + min character (l.stop - l.start), true⟩ := by
  have hlen := l.length_text
  have hstop := l.start_le_stop
  have hfound := locate_ascii encoding ha character (l.length_text_lt ht)
  rw [hlen, TextLine.text] at hfound
  simp only [offsetIn, TextLine.found, unknownAscii, knownAscii, Bool.false_eq_true, if_false,
    hfound, Located.mk.injEq, true_and, Bool.or_eq_true, decide_eq_true_eq, beq_iff_eq]
  omega

/-- Bytes, an encoding, what is known of ASCII lines and what tells carriage returns that
place bytes and units in every line as reading the text does. -/
structure Alike (content : Bytes) (encoding : PositionEncoding) (bytes : Bytes)
    (encoding' : PositionEncoding) (ascii : AsciiLines) (crlf : Nat → Nat → Bool) : Prop where
  tells : TellsReturns content crlf
  position : ∀ (l : TextLine content) (o : Nat), l.start ≤ o →
    positionIn bytes (l.found ascii) o encoding' =
      positionIn content (l.found unknownAscii) o encoding
  offset : ∀ (l : TextLine content) (character : Nat),
    offsetIn bytes (l.found ascii) character encoding' =
      offsetIn content (l.found unknownAscii) character encoding

/-- A line said to hold only ASCII is not read. -/
theorem positionIn_known (l : TextLine content) {ascii : AsciiLines}
    (h : knownAscii ascii l.number = true) (bytes : Bytes) (o : Nat)
    (encoding : PositionEncoding) :
    positionIn bytes (l.found ascii) o encoding = ⟨l.number, min o l.stop - l.start⟩ := by
  simp only [positionIn, TextLine.found, h, if_true]

theorem offsetIn_known (l : TextLine content) {ascii : AsciiLines}
    (h : knownAscii ascii l.number = true) (bytes : Bytes) (character : Nat)
    (encoding : PositionEncoding) :
    offsetIn bytes (l.found ascii) character encoding =
      ⟨l.start + min character (l.stop - l.start), true⟩ := by
  simp only [offsetIn, TextLine.found, h, if_true]

/-- What is known of ASCII lines, where it is right, changes nothing. -/
theorem alike_of_known (ht : content.length < 2 ^ 32) (ascii : AsciiLines)
    (h : ∀ l : TextLine content, knownAscii ascii l.number = true → isAscii l.text = true)
    (encoding : PositionEncoding) :
    Alike content encoding content encoding ascii (crlfRead content) where
  tells := crlfRead_tells content
  position l o ho := by
    cases hk : knownAscii ascii l.number with
    | true => rw [positionIn_known l hk, positionIn_ascii l ht (h l hk) ho]
    | false => rw [TextLine.found, TextLine.found, hk, unknownAscii, knownAscii]
  offset l character := by
    cases hk : knownAscii ascii l.number with
    | true => rw [offsetIn_known l hk, offsetIn_ascii l ht (h l hk)]
    | false => rw [TextLine.found, TextLine.found, hk, unknownAscii, knownAscii]

/-- Where every line is ASCII, the text is not needed. -/
theorem alike_of_size (ht : content.length < 2 ^ 32)
    (h : ∀ l : TextLine content, isAscii l.text = true) {crlf : Nat → Bool}
    (hc : TellsReturns content (crlfTold crlf)) (encoding : PositionEncoding) :
    Alike content encoding [] .utf8 allAscii (crlfTold crlf) where
  tells := hc
  position l o ho := by
    have hk : knownAscii allAscii l.number = true := rfl
    rw [positionIn_known l hk, positionIn_ascii l ht (h l) ho]
  offset l character := by
    have hk : knownAscii allAscii l.number = true := rfl
    rw [offsetIn_known l hk, offsetIn_ascii l ht (h l)]

section Conversions

variable {bytes : Bytes} {encoding' : PositionEncoding} {ascii : AsciiLines}
  {crlf : Nat → Nat → Bool}

theorem Alike.positionOf (h : Alike content encoding bytes encoding' ascii crlf)
    (ht : content.length < 2 ^ 32) (o : Nat) :
    positionOf bytes content.length (lineStarts content) o encoding' ascii crlf =
      positionOf content content.length (lineStarts content) o encoding unknownAscii
        (crlfRead content) := by
  obtain hlt | hle := Nat.lt_or_ge content.length o
  · rw [Lsp.positionOf, Lsp.positionOf, if_pos hlt, if_pos hlt]
  · obtain ⟨l, hl⟩ := exists_line content hle
    rw [positionOf_eq l ht hl bytes encoding' ascii h.tells,
      positionOf_eq l ht hl content encoding unknownAscii (crlfRead_tells content),
      h.position l o hl.1]

theorem Alike.offsetOf (h : Alike content encoding bytes encoding' ascii crlf)
    (ht : content.length < 2 ^ 32) (p : Position) :
    offsetOf bytes content.length (lineStarts content) p encoding' ascii crlf =
      offsetOf content content.length (lineStarts content) p encoding unknownAscii
        (crlfRead content) := by
  obtain ⟨number, character⟩ := p
  by_cases hline : number ≥ (lineStarts content).length
  · rw [Lsp.offsetOf, Lsp.offsetOf, if_pos hline, if_pos hline]
  · obtain ⟨l, rfl, -⟩ := exists_listed content (Nat.lt_of_not_le hline)
    rw [offsetOf_eq l ht character bytes encoding' ascii h.tells,
      offsetOf_eq l ht character content encoding unknownAscii (crlfRead_tells content),
      h.offset l character]

theorem Alike.rangeOf (h : Alike content encoding bytes encoding' ascii crlf)
    (ht : content.length < 2 ^ 32) (begin' end' : Nat) :
    rangeOf bytes content.length (lineStarts content) begin' end' encoding' ascii crlf =
      rangeOf content content.length (lineStarts content) begin' end' encoding unknownAscii
        (crlfRead content) := by
  simp only [Lsp.rangeOf, h.positionOf ht]

theorem Alike.offsetRangeOf (h : Alike content encoding bytes encoding' ascii crlf)
    (ht : content.length < 2 ^ 32) (range : Range) :
    offsetRangeOf bytes content.length (lineStarts content) range encoding' ascii crlf =
      offsetRangeOf content content.length (lineStarts content) range encoding unknownAscii
        (crlfRead content) := by
  simp only [Lsp.offsetRangeOf, h.offsetOf ht]

end Conversions

/-- A bit that is not set is an ASCII line known. -/
theorem knownAscii_bitmap (bits : List Nat) (line : Nat) :
    knownAscii (.bitmap bits) line = !bitOf bits line := by
  rw [knownAscii, bitOf, Nat.testBit, Nat.and_comm]
  obtain hlt | hge := Nat.lt_or_ge (line / 64) bits.length
  · rw [decide_eq_false (Nat.not_le_of_lt hlt), Bool.false_or, bne, Bool.not_not]
  · rw [decide_eq_true hge, List.getD_eq_getElem?_getD, List.getElem?_eq_none hge,
      Option.getD_none, Nat.zero_shiftRight, Nat.and_zero]
    rfl

/-- The five conversions over a text and its line starts give the same with the bitmap of
the text, or with any predicate true only of lines whose text is ASCII, as with no
knowledge of ASCII lines; and where every line is ASCII, so do the conversions over the
size alone, in every encoding, with what tells for each line that has a byte before its
newline whether that byte is a carriage return. -/
theorem conversions_agree (content : Bytes) (ht : content.length < 2 ^ 32)
    (encoding : PositionEncoding) :
    (∀ ascii : AsciiLines,
      (ascii = .bitmap (nonAsciiLines content) ∨ ∃ known, ascii = .predicate known ∧
        ∀ l : TextLine content, known l.number = true → isAscii l.text = true) →
      (∀ o, toPosition content (lineStarts content) o encoding ascii =
        toPosition content (lineStarts content) o encoding unknownAscii) ∧
      (∀ p, toOffset content (lineStarts content) p encoding ascii =
        toOffset content (lineStarts content) p encoding unknownAscii) ∧
      (∀ p, toOffsetClamped content (lineStarts content) p encoding ascii =
        toOffsetClamped content (lineStarts content) p encoding unknownAscii) ∧
      (∀ b e, toRange content (lineStarts content) b e encoding ascii =
        toRange content (lineStarts content) b e encoding unknownAscii) ∧
      ∀ r, toOffsetRange content (lineStarts content) r encoding ascii =
        toOffsetRange content (lineStarts content) r encoding unknownAscii) ∧
    ((∀ l : TextLine content, isAscii l.text = true) → ∀ crlf : Nat → Bool,
      (∀ l : TextLine content, l.start < l.newline → l.newline < content.length →
        (crlf l.number = true ↔ content[l.newline - 1]? = some returnByte)) →
      (∀ o, toPositionOfSize content.length (lineStarts content) o crlf =
        toPosition content (lineStarts content) o encoding unknownAscii) ∧
      (∀ p, toOffsetOfSize content.length (lineStarts content) p crlf =
        toOffset content (lineStarts content) p encoding unknownAscii) ∧
      (∀ p, toOffsetClampedOfSize content.length (lineStarts content) p crlf =
        toOffsetClamped content (lineStarts content) p encoding unknownAscii) ∧
      (∀ b e, toRangeOfSize content.length (lineStarts content) b e crlf =
        toRange content (lineStarts content) b e encoding unknownAscii) ∧
      ∀ r, toOffsetRangeOfSize content.length (lineStarts content) r crlf =
        toOffsetRange content (lineStarts content) r encoding unknownAscii) := by
  refine ⟨fun ascii hascii => ?_, fun hall crlf hcrlf => ?_⟩
  · have hknown : ∀ l : TextLine content, knownAscii ascii l.number = true →
        isAscii l.text = true := by
      intro l hl
      obtain rfl | ⟨known, rfl, hpredicate⟩ := hascii
      · rw [knownAscii_bitmap, Bool.not_eq_true'] at hl
        exact isAscii_of_bitOf l hl
      · exact hpredicate l hl
    have h := alike_of_known ht ascii hknown encoding
    simp only [toPosition, toOffset, toOffsetClamped, toRange, toOffsetRange, u32_of_lt ht,
      h.positionOf ht, h.offsetOf ht, h.rangeOf ht, h.offsetRangeOf ht, implies_true, and_self]
  · have h := alike_of_size ht hall hcrlf encoding
    simp only [toPosition, toOffset, toOffsetClamped, toRange, toOffsetRange, u32_of_lt ht,
      toPositionOfSize, toOffsetOfSize, toOffsetClampedOfSize, toRangeOfSize,
      toOffsetRangeOfSize, h.positionOf ht, h.offsetOf ht, h.rangeOf ht, h.offsetRangeOf ht,
      implies_true, and_self]

private theorem line_of_probe (l : TextLine [0x61, 0x0D, 0x0A]) (h : l.newline < 3) :
    l.number = 0 ∧ l.newline = 2 := by
  have hle := l.start_le
  have hnewline : l.newline = 2 := by
    obtain h' | h' := l.ends
    · rw [h'] at h
      exact absurd h (by decide)
    · obtain h0 | h1 | h2 : l.newline = 0 ∨ l.newline = 1 ∨ l.newline = 2 := by omega
      · rw [h0] at h'
        exact absurd h' (by decide)
      · rw [h1] at h'
        exact absurd h' (by decide)
      · exact h2
  refine ⟨?_, hnewline⟩
  have hstart : l.start = 0 := by
    obtain h' | h' := l.begins
    · exact h'
    · obtain h0 | h1 | h2 : l.start = 0 ∨ l.start = 1 ∨ l.start = 2 := by omega
      · exact h0
      · rw [h1] at h'
        exact absurd h' (by decide)
      · rw [h2] at h'
        exact absurd h' (by decide)
  rw [← l.numbered, hstart, List.take_zero, List.count_nil]

/-- A text of one line that ends in a carriage return and a newline, and an empty one. -/
theorem conversions_agree_probe :
    (∀ o, toPosition [0x61, 0x0D, 0x0A] (lineStarts [0x61, 0x0D, 0x0A]) o .utf16
        (.bitmap (nonAsciiLines [0x61, 0x0D, 0x0A])) =
      toPosition [0x61, 0x0D, 0x0A] (lineStarts [0x61, 0x0D, 0x0A]) o .utf16 unknownAscii) ∧
    ∀ o, toPositionOfSize 3 (lineStarts [0x61, 0x0D, 0x0A]) o (fun line => line == 0) =
      toPosition [0x61, 0x0D, 0x0A] (lineStarts [0x61, 0x0D, 0x0A]) o .utf16 unknownAscii := by
  have h := conversions_agree [0x61, 0x0D, 0x0A] (by decide) .utf16
  refine ⟨(h.1 _ (Or.inl rfl)).1, (h.2 (fun l => ?_) _ fun l _ hlt => ?_).1⟩
  · rw [isAscii_iff]
    intro byte hbyte
    have hmem : byte ∈ ([0x61, 0x0D, 0x0A] : Bytes) :=
      List.mem_of_mem_drop (List.mem_of_mem_take hbyte)
    revert byte
    simp only [List.mem_cons, List.not_mem_nil, or_false]
    rintro byte - (rfl | rfl | rfl) <;> decide
  · obtain ⟨hnumber, hnewline⟩ := line_of_probe l hlt
    rw [hnumber, hnewline]
    decide

end Kotatsu.Ipc.Lsp
