import Kotatsu.Ipc.Lsp.Position

/-!
# Round trips between offsets and positions

An offset has a position, and that position the offset of the code point the byte is in,
or of the end of the line's text; a position that is exactly at an offset is the
position of it.
-/

namespace Kotatsu.Ipc.Lsp

open Kotatsu.Core

variable {content text : Bytes} {encoding : PositionEncoding}

/-- The byte the scan back finds begins the code point that holds the byte looked for. -/
theorem locate_utf8_start {k : Nat} (hk : k ≤ text.length) (ht : text.length < 2 ^ 32) :
    ∃ s, (locate text k .utf8).offset = s ∧ (∃ u, Marked .utf8 text s u) ∧
      (k < text.length → HoldsByte text s k) ∧ (k = text.length → s = k) := by
  have hp := locate_places .utf8 k ht
  generalize locate text k .utf8 = found at hp
  cases hp with
  | exact h =>
    refine ⟨k, ?_, ⟨k, ?_⟩, fun _ => ⟨⟨k, ?_⟩, le_refl k, ?_⟩, fun _ => rfl⟩
    · exact h.utf8_units.symm
    · have := h.utf8_units
      rwa [← this] at h
    · have := h.utf8_units
      rwa [← this] at h
    · exact Nat.lt_add_of_pos_right (nextCodepointSizes_pos text k).1
  | @inside s u h hs hlo hhi =>
    obtain rfl := h.utf8_units
    refine ⟨u, rfl, ⟨u, h⟩, fun _ => ⟨⟨u, h⟩, Nat.le_of_lt hlo, hhi⟩, fun heq => ?_⟩
    have := length_nextCodepointSizes_le hs
    simp only [width] at hhi
    omega
  | past h hlt =>
    have := h.utf8_units
    omega

/-- The text up to a mark is as long as the mark says. -/
theorem encodedLength_take {s u : Nat} (h : Marked encoding text s u)
    (ht : text.length < 2 ^ 32) : encodedLength (substr text 0 s) encoding = u := by
  have hle := h.le
  have hlen : (text.take s).length = s := List.length_take_of_le hle
  have htake : (text.take s).length < 2 ^ 32 := by omega
  have hcount := encodedLength_marked encoding htake
  rw [hlen] at hcount
  rw [substr, List.drop_zero]
  exact hcount.eq_of_offset (h.take (le_refl s))

theorem TextLine.length_text_lt (l : TextLine content) (ht : content.length < 2 ^ 32) :
    l.text.length < 2 ^ 32 := by
  have := l.newline_le
  have := l.stop_le_newline
  rw [l.length_text]
  omega

/-- A byte of a line has the position of the start of its code point, and one of the
line's end that of the end of the line's text. -/
theorem positionIn_spec (l : TextLine content) (ht : content.length < 2 ^ 32) {o : Nat}
    (ho : l.start ≤ o) (encoding : PositionEncoding) :
    ∃ s u, positionIn content (l.found unknownAscii) o encoding = ⟨l.number, u⟩ ∧
      Marked encoding l.text s u ∧ (o < l.stop → HoldsByte l.text s (o - l.start)) ∧
      (l.stop ≤ o → l.start + s = l.stop) := by
  have hlen := l.length_text
  have hstop := l.start_le_stop
  have htext := l.length_text_lt ht
  obtain ⟨s, hs, ⟨v, hv⟩, hinside, hend⟩ :=
    locate_utf8_start (show min o l.stop - l.start ≤ l.text.length by omega) htext
  obtain ⟨u, hu⟩ := hv.change encoding
  refine ⟨s, u, ?_, hu, fun hlt => ?_, fun hge => ?_⟩
  · have hcount := encodedLength_take hu htext
    rw [← hs] at hcount
    simp only [positionIn, TextLine.found, unknownAscii, knownAscii, Bool.false_eq_true, if_false,
      Position.mk.injEq, true_and]
    exact hcount
  · have := hinside (by omega)
    rwa [Nat.min_eq_left (Nat.le_of_lt hlt)] at this
  · have := hend (by omega)
    omega

/-- A mark of the line's text is exactly at its byte. -/
theorem offsetIn_of_marked (l : TextLine content) (ht : content.length < 2 ^ 32) {s u : Nat}
    (h : Marked encoding l.text s u) :
    offsetIn content (l.found unknownAscii) u encoding = ⟨l.start + s, true⟩ := by
  have hfound := locate_of_marked h (l.length_text_lt ht)
  rw [TextLine.text] at hfound
  simp only [offsetIn, TextLine.found, unknownAscii, knownAscii, Bool.false_eq_true, if_false,
    hfound, Bool.true_or]

/-- An exact unit not past the line's end is a mark of the line's text. -/
theorem marked_of_offsetIn (l : TextLine content) (ht : content.length < 2 ^ 32)
    {character : Nat} (hchar : character ≤ encodedLength l.text encoding)
    (h : (offsetIn content (l.found unknownAscii) character encoding).exact = true) :
    ∃ s, (offsetIn content (l.found unknownAscii) character encoding).offset = l.start + s ∧
      Marked encoding l.text s character := by
  have htext := l.length_text_lt ht
  have hlen := l.length_text
  have hstop := l.start_le_stop
  have htotal := encodedLength_marked encoding htext
  have hp := locate_places encoding character htext
  have hoffset : offsetIn content (l.found unknownAscii) character encoding =
      ⟨l.start + (locate l.text character encoding).offset,
        (locate l.text character encoding).exact ||
          l.start + (locate l.text character encoding).offset == l.stop⟩ := by
    simp only [offsetIn, TextLine.found, unknownAscii, knownAscii, Bool.false_eq_true, if_false,
      TextLine.text]
  rw [hoffset] at h ⊢
  generalize locate l.text character encoding = found at hp h ⊢
  cases hp with
  | exact hm => exact ⟨_, rfl, hm⟩
  | inside hm hs hlo hhi =>
    dsimp only at h
    rw [Bool.false_or, beq_iff_eq] at h
    omega
  | past hm hlt =>
    have := hm.eq_of_offset htotal
    omega

/-! ## The round trips -/

/-- A position the code gives for the text alone, in its line. -/
theorem toPositionOfText_eq (l : TextLine content) (ht : content.length < 2 ^ 32) {o : Nat}
    (ho : l.start ≤ o ∧ o ≤ l.newline) (encoding : PositionEncoding) :
    toPositionOfText content o encoding =
      some (positionIn content (l.found unknownAscii) o encoding) := by
  rw [toPositionOfText, toPosition, u32_of_lt ht]
  exact positionOf_eq l ht ho content encoding unknownAscii (crlfRead_tells content)

theorem toOffsetOfText_eq (l : TextLine content) (ht : content.length < 2 ^ 32)
    (character : Nat) (encoding : PositionEncoding) :
    toOffsetOfText content ⟨l.number, character⟩ encoding =
      if (offsetIn content (l.found unknownAscii) character encoding).exact then
        some (offsetIn content (l.found unknownAscii) character encoding).offset
      else none := by
  rw [toOffsetOfText, toOffset, u32_of_lt ht,
    offsetOf_eq l ht character content encoding unknownAscii (crlfRead_tells content)]

/-- The position of an offset has the offset of the code point, or of the end of the
line's text. -/
theorem toOffset_toPosition (l : TextLine content) (ht : content.length < 2 ^ 32) {o : Nat}
    (ho : l.start ≤ o ∧ o ≤ l.newline) (encoding : PositionEncoding) :
    ∃ p s, toPositionOfText content o encoding = some p ∧
      toOffsetOfText content p encoding = some (l.start + s) ∧
      (o < l.stop → HoldsByte l.text s (o - l.start)) ∧ (l.stop ≤ o → l.start + s = l.stop) := by
  obtain ⟨s, u, hposition, hu, hinside, hend⟩ := positionIn_spec l ht ho.1 encoding
  refine ⟨⟨l.number, u⟩, s, ?_, ?_, hinside, hend⟩
  · rw [toPositionOfText_eq l ht ho, hposition]
  · rw [toOffsetOfText_eq l ht, offsetIn_of_marked l ht hu, if_pos rfl]

/-- No mark but the first lies in a code point. -/
theorem HoldsByte.eq_of_marked {s k u : Nat} (h : HoldsByte text s k)
    (hk : Marked .utf8 text k u) : s = k := by
  obtain ⟨⟨v, hv⟩, hle, hlt⟩ := h
  obtain heq | hlt' := Nat.eq_or_lt_of_le hle
  · exact heq
  · have := (hv.next_le hk (Or.inl hlt')).1
    omega

/-- For every text and every encoding: an offset has a position, whose offset is the
start of the code point of the line's text that holds the byte, or the end of the line's
text; so the starts of code points and the ends of the lines' texts come back, and so
does a position exactly at an offset that is not past its line's end. -/
theorem position_round_trip (content : Bytes) (encoding : PositionEncoding)
    (ht : content.length < 2 ^ 32) :
    (∀ o ≤ content.length, ∃ (l : TextLine content) (p : Position) (s : Nat),
      (l.start ≤ o ∧ o ≤ l.newline) ∧ toPositionOfText content o encoding = some p ∧
      toOffsetOfText content p encoding = some (l.start + s) ∧
      (o < l.stop → HoldsByte l.text s (o - l.start)) ∧
      (l.stop ≤ o → l.start + s = l.stop)) ∧
    (∀ (l : TextLine content) (o : Nat),
      (o = l.stop ∨ ∃ s, o = l.start + s ∧ s < l.text.length ∧ HoldsByte l.text s s) →
      ∃ p, toPositionOfText content o encoding = some p ∧
        toOffsetOfText content p encoding = some o) ∧
    ∀ (p : Position) (o : Nat), toOffsetOfText content p encoding = some o →
      (∀ l : TextLine content, l.number = p.line →
        p.character ≤ encodedLength l.text encoding) →
      toPositionOfText content o encoding = some p := by
  refine ⟨fun o ho => ?_, fun l o ho => ?_, fun p o hp hchar => ?_⟩
  · obtain ⟨l, hl⟩ := exists_line content ho
    obtain ⟨p, s, h⟩ := toOffset_toPosition l ht hl encoding
    exact ⟨l, p, s, hl, h⟩
  · have hstop := l.start_le_stop
    have hnewline := l.stop_le_newline
    have hlen := l.length_text
    obtain rfl | ⟨k, rfl, hk, hm⟩ := ho
    · obtain ⟨p, s, hposition, hoffset, -, hend⟩ :=
        toOffset_toPosition l ht ⟨hstop, hnewline⟩ encoding
      rw [hend (le_refl _)] at hoffset
      exact ⟨p, hposition, hoffset⟩
    · obtain ⟨p, s, hposition, hoffset, hinside, -⟩ :=
        toOffset_toPosition l ht (o := l.start + k) (by omega) encoding
      have hs := hinside (by omega)
      obtain ⟨u, hu⟩ := hm.1
      rw [Nat.add_sub_cancel_left] at hs
      rw [hs.eq_of_marked hu] at hoffset
      exact ⟨p, hposition, hoffset⟩
  · obtain ⟨number, character⟩ := p
    by_cases hline : number ≥ (lineStarts content).length
    · rw [toOffsetOfText, toOffset, offsetOf, if_pos hline] at hp
      cases hp
    · obtain ⟨l, rfl, -⟩ := exists_listed content (Nat.lt_of_not_le hline)
      rw [toOffsetOfText_eq l ht] at hp
      split at hp
      · next hexact =>
        obtain ⟨s, hoffset, hm⟩ := marked_of_offsetIn l ht (hchar l rfl) hexact
        rw [hoffset] at hp
        cases hp
        have hle := hm.le
        have hlen := l.length_text
        have hstop := l.start_le_stop
        have hnewline := l.stop_le_newline
        obtain ⟨s', u, hposition, hu, hinside, hend⟩ :=
          positionIn_spec l ht (o := l.start + s) (by omega) encoding
        have hs : s' = s := by
          obtain hlt | hge := Nat.lt_or_ge (l.start + s) l.stop
          · have hbyte := hinside hlt
            obtain ⟨v, hv⟩ := hm.change .utf8
            rw [Nat.add_sub_cancel_left] at hbyte
            exact hbyte.eq_of_marked hv
          · have := hend hge
            omega
        rw [toPositionOfText_eq l ht (by omega), hposition, hu.eq_of_offset (hs ▸ hm)]
      · cases hp

/-- A code point cut by a carriage return, and a lone continuation byte. -/
theorem position_round_trip_probe :
    ∃ (l : TextLine [0x61, 0xE4, 0xBD, 0x0D, 0x0A, 0x80]) (p : Position) (s : Nat),
      (l.start ≤ 2 ∧ 2 ≤ l.newline) ∧
      toPositionOfText [0x61, 0xE4, 0xBD, 0x0D, 0x0A, 0x80] 2 .utf16 = some p ∧
      toOffsetOfText [0x61, 0xE4, 0xBD, 0x0D, 0x0A, 0x80] p .utf16 = some (l.start + s) ∧
      (2 < l.stop → HoldsByte l.text s (2 - l.start)) ∧
      (l.stop ≤ 2 → l.start + s = l.stop) :=
  (position_round_trip [0x61, 0xE4, 0xBD, 0x0D, 0x0A, 0x80] .utf16 (by decide)).1 2 (by decide)

end Kotatsu.Ipc.Lsp
