import Kotatsu.Ipc.Lsp.Overloads

/-!
# The conversions keep the order

Clamping to a code point, to the end of a line's text and to the end of the text are each
monotone, and the lines of a text follow one another; so offsets in order have positions
in order, and positions in order offsets in order. What is known of ASCII lines plays no
part in it, right or wrong.
-/

namespace Kotatsu.Ipc.Lsp

open Kotatsu.Core

/-- Positions in line, then character order. -/
instance : LE Position where
  le p q := p.line < q.line ∨ p.line = q.line ∧ p.character ≤ q.character

variable {content text : Bytes} {encoding : PositionEncoding}

theorem Position.le_def (p q : Position) :
    p ≤ q ↔ p.line < q.line ∨ p.line = q.line ∧ p.character ≤ q.character := Iff.rfl

/-! ## In a line -/

/-- Marks are in the order of their bytes. -/
theorem Marked.units_le {s u s' u' : Nat} (h : Marked encoding text s u)
    (h' : Marked encoding text s' u') (hle : s ≤ s') : u ≤ u' := by
  obtain rfl | hlt := Nat.eq_or_lt_of_le hle
  · exact Nat.le_of_eq (h.eq_of_offset h')
  · have := (h.next_le h' (Or.inl hlt)).2
    omega

/-- The code points that hold bytes in order begin in order. -/
theorem HoldsByte.start_le {s k s' k' : Nat} (h : HoldsByte text s k)
    (h' : HoldsByte text s' k') (hle : k ≤ k') : s ≤ s' := by
  obtain ⟨⟨u, hu⟩, hs, -⟩ := h
  obtain ⟨⟨u', hu'⟩, -, hlt⟩ := h'
  by_contra hgt
  have := (hu'.next_le hu (Or.inl (Nat.lt_of_not_le hgt))).1
  omega

/-- A unit falls at a mark not after it, and before the next one. -/
theorem Places.mark {character : Nat} {found : Located}
    (h : Places encoding text character found) :
    ∃ u, Marked encoding text found.offset u ∧ u ≤ character ∧
      (found.offset < text.length →
        character < u + width encoding (nextCodepointSizes text found.offset)) := by
  cases h with
  | exact h => exact ⟨character, h, le_refl _, fun _ => Nat.lt_add_of_pos_right (width_pos _)⟩
  | inside h hs hlo hhi => exact ⟨_, h, Nat.le_of_lt hlo, fun _ => hhi⟩
  | past h hlt => exact ⟨_, h, Nat.le_of_lt hlt, fun hself => absurd hself (Nat.lt_irrefl _)⟩

theorem locate_le (ht : text.length < 2 ^ 32) (encoding : PositionEncoding) (character : Nat) :
    (locate text character encoding).offset ≤ text.length := by
  obtain ⟨u, hu, -⟩ := (locate_places encoding character ht).mark
  exact hu.le

theorem locate_mono (ht : text.length < 2 ^ 32) (encoding : PositionEncoding)
    {character character' : Nat} (hle : character ≤ character') :
    (locate text character encoding).offset ≤ (locate text character' encoding).offset := by
  obtain ⟨u, hu, hlo, -⟩ := (locate_places encoding character ht).mark
  obtain ⟨u', hu', -, hhi⟩ := (locate_places encoding character' ht).mark
  by_contra hgt
  have hlt := Nat.lt_of_not_le hgt
  have hnext := (hu'.next_le hu (Or.inl hlt)).2
  have := hhi (Nat.lt_of_lt_of_le hlt hu.le)
  omega

/-- A line not said to hold only ASCII is read. -/
theorem TextLine.found_unknown (l : TextLine content) {ascii : AsciiLines}
    (h : knownAscii ascii l.number = false) : l.found ascii = l.found unknownAscii := by
  rw [TextLine.found, TextLine.found, h, unknownAscii, knownAscii]

theorem positionIn_line (l : TextLine content) (ascii : AsciiLines) (o : Nat) :
    (positionIn content (l.found ascii) o encoding).line = l.number := rfl

theorem positionIn_mono (l : TextLine content) (ht : content.length < 2 ^ 32)
    (ascii : AsciiLines) (encoding : PositionEncoding) {o o' : Nat} (ho : l.start ≤ o)
    (hle : o ≤ o') :
    (positionIn content (l.found ascii) o encoding).character ≤
      (positionIn content (l.found ascii) o' encoding).character := by
  cases hk : knownAscii ascii l.number with
  | true =>
    rw [positionIn_known l hk, positionIn_known l hk]
    dsimp only
    omega
  | false =>
    have hlen := l.length_text
    have hstop := l.start_le_stop
    obtain ⟨s, u, hposition, hu, hinside, hend⟩ := positionIn_spec l ht ho encoding
    obtain ⟨s', u', hposition', hu', hinside', hend'⟩ :=
      positionIn_spec l ht (Nat.le_trans ho hle) encoding
    rw [l.found_unknown hk, hposition, hposition']
    refine hu.units_le hu' ?_
    obtain hlt | hge := Nat.lt_or_ge o' l.stop
    · exact (hinside (by omega)).start_le (hinside' hlt) (by omega)
    · have := hend' hge
      have := hu.le
      omega

theorem offsetIn_le (l : TextLine content) (ht : content.length < 2 ^ 32)
    (ascii : AsciiLines) (encoding : PositionEncoding) (character : Nat) :
    l.start ≤ (offsetIn content (l.found ascii) character encoding).offset ∧
      (offsetIn content (l.found ascii) character encoding).offset ≤ l.stop := by
  have hstop := l.start_le_stop
  cases hk : knownAscii ascii l.number with
  | true =>
    rw [offsetIn_known l hk]
    dsimp only
    omega
  | false =>
    have hlen := l.length_text
    have hle := locate_le (l.length_text_lt ht) encoding character
    rw [hlen, TextLine.text] at hle
    rw [l.found_unknown hk]
    simp only [offsetIn, TextLine.found, unknownAscii, knownAscii, Bool.false_eq_true, if_false]
    omega

theorem offsetIn_mono (l : TextLine content) (ht : content.length < 2 ^ 32)
    (ascii : AsciiLines) (encoding : PositionEncoding) {character character' : Nat}
    (hle : character ≤ character') :
    (offsetIn content (l.found ascii) character encoding).offset ≤
      (offsetIn content (l.found ascii) character' encoding).offset := by
  cases hk : knownAscii ascii l.number with
  | true =>
    rw [offsetIn_known l hk, offsetIn_known l hk]
    dsimp only
    omega
  | false =>
    have hlocate := locate_mono (l.length_text_lt ht) encoding hle
    rw [TextLine.text] at hlocate
    rw [l.found_unknown hk]
    simp only [offsetIn, TextLine.found, unknownAscii, knownAscii, Bool.false_eq_true, if_false]
    omega

/-! ## In a text -/

section Text

variable (ht : content.length < 2 ^ 32) (encoding : PositionEncoding) (ascii : AsciiLines)
include ht

/-- Positions in order have offsets in order. -/
theorem toOffsetClamped_mono {p q : Position} (h : p ≤ q) :
    toOffsetClamped content (lineStarts content) p encoding ascii ≤
      toOffsetClamped content (lineStarts content) q encoding ascii := by
  have heq (l : TextLine content) (character : Nat) :=
    offsetOf_eq l ht character content encoding ascii (crlfRead_tells content)
  obtain ⟨pline, pchar⟩ := p
  obtain ⟨qline, qchar⟩ := q
  rw [toOffsetClamped, toOffsetClamped, u32_of_lt ht]
  by_cases hq : qline ≥ (lineStarts content).length
  · -- Past the last line is the end of the text.
    have hsize : offsetOf content content.length (lineStarts content) ⟨qline, qchar⟩ encoding
        ascii (crlfRead content) = ⟨content.length, false⟩ := by
      rw [offsetOf, if_pos hq]
    rw [hsize]
    by_cases hp : pline ≥ (lineStarts content).length
    · rw [offsetOf, if_pos hp]
    · obtain ⟨l, rfl, -⟩ := exists_listed content (Nat.lt_of_not_le hp)
      have hle := (offsetIn_le l ht ascii encoding pchar).2
      have hstop := l.stop_le_newline
      have hend := l.newline_le
      rw [heq]
      dsimp only
      omega
  · obtain ⟨l', rfl, -⟩ := exists_listed content (Nat.lt_of_not_le hq)
    obtain hlt | ⟨hline, hchar⟩ := h
    · obtain ⟨l, rfl, -⟩ := exists_listed content
        (Nat.lt_trans hlt (Nat.lt_of_not_le hq) : pline < (lineStarts content).length)
      have hbefore := l.newline_lt_of_number l' hlt
      have hstop := l.stop_le_newline
      have hle := (offsetIn_le l ht ascii encoding pchar).2
      have hge := (offsetIn_le l' ht ascii encoding qchar).1
      rw [heq, heq]
      omega
    · dsimp only at hline hchar
      subst hline
      rw [heq, heq]
      exact offsetIn_mono l' ht ascii encoding hchar

/-- Offsets in order have positions in order. -/
theorem toPosition_mono {a b : Nat} (hab : a ≤ b) (hb : b ≤ content.length) :
    ∃ p q, toPosition content (lineStarts content) a encoding ascii = some p ∧
      toPosition content (lineStarts content) b encoding ascii = some q ∧ p ≤ q := by
  obtain ⟨l, hl⟩ := exists_line content (Nat.le_trans hab hb)
  obtain ⟨l', hl'⟩ := exists_line content hb
  refine ⟨positionIn content (l.found ascii) a encoding,
    positionIn content (l'.found ascii) b encoding, ?_, ?_, ?_⟩
  · rw [toPosition, u32_of_lt ht, positionOf_eq l ht hl content encoding ascii
      (crlfRead_tells content)]
  · rw [toPosition, u32_of_lt ht, positionOf_eq l' ht hl' content encoding ascii
      (crlfRead_tells content)]
  · rw [Position.le_def, positionIn_line, positionIn_line]
    obtain hlt | heq | hgt := Nat.lt_trichotomy l.number l'.number
    · exact Or.inl hlt
    · obtain rfl := l.eq_of_number l' heq
      exact Or.inr ⟨rfl, positionIn_mono l ht ascii encoding hl.1 hab⟩
    · have := l'.newline_lt_of_number l hgt
      omega

/-- A range in order keeps its ends. -/
theorem toOffsetRange_of_le {range : Range} (h : range.start ≤ range.end') :
    toOffsetRange content (lineStarts content) range encoding ascii =
      ⟨toOffsetClamped content (lineStarts content) range.start encoding ascii,
          toOffsetClamped content (lineStarts content) range.end' encoding ascii⟩ := by
  have hle := toOffsetClamped_mono ht encoding ascii h
  rw [toOffsetClamped, toOffsetClamped] at hle
  rw [toOffsetRange, offsetRangeOf, toOffsetClamped, toOffsetClamped, Nat.min_eq_left hle,
    Nat.max_eq_right hle]

/-- A range of offsets in order has its ends in order. -/
theorem toRange_ordered {a b : Nat} (hab : a ≤ b) (hb : b ≤ content.length) :
    ∃ range, toRange content (lineStarts content) a b encoding ascii = some range ∧
      range.start ≤ range.end' := by
  obtain ⟨p, q, hp, hq, hle⟩ := toPosition_mono ht encoding ascii hab hb
  rw [toPosition] at hp hq
  refine ⟨{ start := p, end' := q }, ?_, hle⟩
  rw [toRange, rangeOf, if_neg (Nat.not_lt_of_le hab), hp, hq]
  rfl

end Text

/-- Over every text, in every encoding and whatever is said of ASCII lines: positions in
order are clamped to offsets in order, and offsets in order have positions in order; so
the offset range of a range in order has the ends of the range for its own, and every
range given has its start not after its end. -/
theorem conversions_monotone (content : Bytes) (ht : content.length < 2 ^ 32)
    (encoding : PositionEncoding) (ascii : AsciiLines) :
    (∀ p q : Position, p ≤ q →
      toOffsetClamped content (lineStarts content) p encoding ascii ≤
        toOffsetClamped content (lineStarts content) q encoding ascii) ∧
    (∀ a b, a ≤ b → b ≤ content.length →
      ∃ p q, toPosition content (lineStarts content) a encoding ascii = some p ∧
        toPosition content (lineStarts content) b encoding ascii = some q ∧ p ≤ q) ∧
    (∀ range : Range, range.start ≤ range.end' →
      toOffsetRange content (lineStarts content) range encoding ascii =
        ⟨toOffsetClamped content (lineStarts content) range.start encoding ascii,
          toOffsetClamped content (lineStarts content) range.end' encoding ascii⟩) ∧
    ∀ a b range, toRange content (lineStarts content) a b encoding ascii = some range →
      range.start ≤ range.end' := by
  refine ⟨fun _ _ => toOffsetClamped_mono ht encoding ascii,
    fun _ _ => toPosition_mono ht encoding ascii,
    fun _ => toOffsetRange_of_le ht encoding ascii, fun a b range h => ?_⟩
  have hab : a ≤ b := by
    by_contra hgt
    rw [toRange, rangeOf, if_pos (Nat.lt_of_not_le hgt)] at h
    cases h
  have hb : b ≤ content.length := by
    by_contra hgt
    rw [toRange, rangeOf, if_neg (Nat.not_lt_of_le hab), positionOf, u32_of_lt ht,
      if_pos (Nat.lt_of_not_le hgt)] at h
    cases h
  obtain ⟨range', heq, hle⟩ := toRange_ordered ht encoding ascii hab hb
  rw [heq] at h
  cases h
  exact hle

/-- A character past the end of a line that a carriage return ends, and a line past the
last one. -/
theorem conversions_monotone_probe :
    (⟨0, 9⟩ : Position) ≤ ⟨7, 0⟩ ∧
      toOffsetClamped [0xC3, 0xA9, 0x0D, 0x0A] (lineStarts [0xC3, 0xA9, 0x0D, 0x0A]) ⟨0, 9⟩
          .utf16 unknownAscii ≤
        toOffsetClamped [0xC3, 0xA9, 0x0D, 0x0A] (lineStarts [0xC3, 0xA9, 0x0D, 0x0A]) ⟨7, 0⟩
          .utf16 unknownAscii := by
  have h : (⟨0, 9⟩ : Position) ≤ ⟨7, 0⟩ := Or.inl (by decide)
  exact ⟨h, (conversions_monotone [0xC3, 0xA9, 0x0D, 0x0A] (by decide) .utf16 unknownAscii).1
    ⟨0, 9⟩ ⟨7, 0⟩ h⟩

end Kotatsu.Ipc.Lsp
