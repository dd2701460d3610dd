import Kotatsu.Codec.Json.StringBuilder
import Kotatsu.Core.Json.Encoding
import Kotatsu.Support.AnyWord

/-!
# Strings as JSON writes them

A string goes between quotes with its quotes, its backslashes and its control
characters escaped, or as it is where it has none. What is written is a string of
the grammar, and reads as the characters that were written.
-/

namespace Kotatsu.Codec.Json

open Relation
open Kotatsu.Core Kotatsu.Core.Json Kotatsu.Support

/-- `short_escape`. -/
def shortEscape (c : UInt8) : UInt8 :=
  if c = 0x22 then 0x22
  else if c = 0x5C then 0x5C
  else if c = 0x08 then 0x62
  else if c = 0x0C then 0x66
  else if c = 0x0A then 0x6E
  else if c = 0x0D then 0x72
  else if c = 0x09 then 0x74
  else 0

/-- The digits of `escape_to`. -/
def hexLetter (n : UInt8) : UInt8 := (ascii "0123456789abcdef").getD n.toNat 0

/-- What `escape_to` writes for a byte. -/
def escapeByte (c : UInt8) : Bytes :=
  if shortEscape c ≠ 0 then [0x5C, shortEscape c]
  else if isControl c then [0x5C, 0x75, 0x30, 0x30, hexLetter (c >>> 4), hexLetter (c &&& 0xF)]
  else [c]

/-- `escape_to`. -/
def escapeTo (text : Bytes) : Bytes := text.flatMap escapeByte

/-- `needs_escape`. -/
def needsEscape (text : Bytes) : Bool :=
  anyWord text 0x6161616161616161 (escapedBytes · ≠ 0)

/-- `StringBuilder::append_string`, what it appends. -/
def appendString (value : Bytes) : Bytes :=
  if needsEscape value then 0x22 :: (escapeTo value ++ [0x22]) else 0x22 :: (value ++ [0x22])

/-! ## Escaping -/

theorem escapeByte_plain {c : UInt8} (h : isEscaped c = false) : escapeByte c = [c] := by
  have hplain : ∀ n < 256, isEscaped (UInt8.ofNat n) = false →
      escapeByte (UInt8.ofNat n) = [UInt8.ofNat n] := by decide +kernel
  have := hplain c.toNat c.toNat_lt
  rw [UInt8.ofNat_toNat] at this
  exact this h

theorem needsEscape_eq (text : Bytes) : needsEscape text = text.any isEscaped := by
  have hbytes : Bytewise isEscaped fun word => escapedBytes word ≠ 0 :=
    .of_shows fun _ => escapedBytes_shows
  have hnone : ∀ b ∈ List.replicate 8 0x61, isEscaped b = false := fun b hb => by
    rw [List.eq_of_mem_replicate hb]
    rfl
  have hany := anyWord_eq hbytes (List.replicate 8 0x61) rfl hnone text
  have hfill : wordOf (List.replicate 8 0x61) = 0x6161616161616161 := by
    simp [wordOf, leValue, leValueFrom, List.replicate]
  rw [hfill] at hany
  exact hany

/-- The string that needs no escape is the same escaped. -/
theorem appendString_eq (value : Bytes) :
    appendString value = 0x22 :: (escapeTo value ++ [0x22]) := by
  unfold appendString
  rw [needsEscape_eq]
  split
  case isTrue => rfl
  case isFalse hnone =>
    have hplain : ∀ c ∈ value, escapeByte c = [c] := fun c hc =>
      escapeByte_plain (Bool.eq_false_iff.mpr fun he =>
        hnone (List.any_eq_true.mpr ⟨c, hc, he⟩))
    have hsame : escapeTo value = value := by
      rw [escapeTo, List.flatMap_congr hplain, List.flatMap_singleton']
    rw [hsame]

/-! ## What is written is a string -/

instance (n : Nat) : Decidable (IsPlain n) := inferInstanceAs (Decidable (_ ∧ _))
instance (n : Nat) : Decidable (IsEscaped n) := inferInstanceAs (Decidable (_ ∨ _))
instance (n : Nat) : Decidable (IsDigit n) := inferInstanceAs (Decidable (_ ∧ _))
instance (n : Nat) : Decidable (IsHex n) := inferInstanceAs (Decidable (_ ∨ _))

/-- The character of a byte. -/
def charOf (b : UInt8) : Char := Char.ofNat b.toNat

/-- The forms a byte is written in, and what each stands for. -/
theorem escapeByte_cases (c : UInt8) :
    (escapeByte c = [c] ∧ IsPlain c.toNat) ∨
    (∃ l, escapeByte c = [0x5C, l] ∧ c.toNat < 0x80 ∧ l.toNat < 0x80 ∧ IsEscaped l.toNat ∧
      escapedChar (charOf l) = some (charOf c)) ∨
    (∃ h l, escapeByte c = [0x5C, 0x75, 0x30, 0x30, h, l] ∧ c.toNat < 0x20 ∧
      IsHex h.toNat ∧ IsHex l.toNat ∧
      codeUnit '0' '0' (charOf h) (charOf l) = some c.toNat) := by
  have hforms : ∀ n < 256, let c := UInt8.ofNat n
      (escapeByte c = [c] ∧ IsPlain c.toNat) ∨
      (escapeByte c = [0x5C, shortEscape c] ∧ c.toNat < 0x80 ∧ (shortEscape c).toNat < 0x80 ∧
        IsEscaped (shortEscape c).toNat ∧
        escapedChar (charOf (shortEscape c)) = some (charOf c)) ∨
      (escapeByte c = [0x5C, 0x75, 0x30, 0x30, hexLetter (c >>> 4), hexLetter (c &&& 0xF)] ∧
        c.toNat < 0x20 ∧ IsHex (hexLetter (c >>> 4)).toNat ∧
        IsHex (hexLetter (c &&& 0xF)).toNat ∧
        codeUnit '0' '0' (charOf (hexLetter (c >>> 4))) (charOf (hexLetter (c &&& 0xF))) =
          some c.toNat) := by decide +kernel
  have := hforms c.toNat c.toNat_lt
  rw [UInt8.ofNat_toNat] at this
  rcases this with hplain | hshort | hhex
  · exact .inl hplain
  · exact .inr (.inl ⟨_, hshort⟩)
  · exact .inr (.inr ⟨_, _, hhex⟩)

theorem escapeTo_chars (value rest : Bytes) :
    Chars UInt8.toNat (escapeTo value ++ rest) rest := by
  induction value with
  | nil => exact .refl
  | cons c value ih =>
    rw [escapeTo, List.flatMap_cons, List.append_assoc]
    rcases escapeByte_cases c with ⟨hc, hplain⟩ | ⟨l, hc, -, -, hl, -⟩ | ⟨h, l, hc, -, hh, hl, -⟩
    · rw [hc]
      exact .head (.inl (.intro hplain)) ih
    · rw [hc]
      exact .head (.inr ⟨_, .intro rfl, .inl (.intro hl)⟩) ih
    · rw [hc]
      exact .head (.inr ⟨_, .intro rfl, .inr ⟨_, .intro rfl, _, .intro (by decide), _,
        .intro (by decide), _, .intro hh, .intro hl⟩⟩) ih

/-- A string is written as one. -/
theorem appendString_str (value rest : Bytes) :
    Str UInt8.toNat (appendString value ++ rest) rest := by
  rw [appendString_eq, List.cons_append, List.append_assoc]
  exact ⟨_, .intro rfl, _, escapeTo_chars value _, .intro rfl⟩

/-! ## What is written reads back -/

theorem utf8_charOf {b : UInt8} (h : b.toNat < 0x80) : utf8 [charOf b] = [b] := by
  have hvalid : b.toNat.isValidChar := .inl (by omega)
  have hval : (charOf b).val.toNat = b.toNat := by
    rw [charOf, Char.ofNat, dif_pos hvalid]
    rfl
  rw [utf8, List.flatMap_singleton, String.utf8EncodeChar, hval, if_pos (by omega),
    UInt8.ofNat_toNat]

private theorem unescape_cons {c : Char} (h : c.toNat ≠ 0x5C) (s : List Char) :
    unescape (c :: s) = (unescape s).map (c :: ·) := by
  rw [unescape]
  · rintro a b c d e rfl
    exact absurd rfl h
  · rintro a b rfl
    exact absurd rfl h

theorem lt_of_isHex {n : Nat} (h : IsHex n) : n < 0x80 := by
  simp only [IsHex, IsDigit] at h
  omega

/-- What a character is written as, in characters. -/
private theorem escape_char (c : Char) : ∃ form : List Char,
    (String.utf8EncodeChar c).flatMap escapeByte = utf8 form ∧
    ∀ s, unescape (form ++ s) = (unescape s).map (c :: ·) := by
  have hcons : ∀ (a : Char) (s : List Char), utf8 (a :: s) = utf8 [a] ++ utf8 s := fun a s => by
    rw [← List.singleton_append, utf8, List.flatMap_append]
    rfl
  have hascii : ∀ (n : Nat) (a : Char) (s : List Char), n < 0x80 → a = charOf (UInt8.ofNat n) →
      utf8 (a :: s) = UInt8.ofNat n :: utf8 s := by
    rintro n _ s hn rfl
    rw [hcons, utf8_charOf (by rw [UInt8.toNat_ofNat']; omega), List.singleton_append]
  rcases Nat.lt_or_ge c.toNat 0x80 with hlow | hhigh
  · obtain ⟨b, hb, hcode⟩ := utf8_transparent.ascii c hlow
    have hc : charOf b = c := by rw [charOf, hcode, Char.ofNat_toNat]
    rw [hb, List.flatMap_singleton]
    rcases escapeByte_cases b with ⟨hform, hplain⟩ | ⟨l, hform, -, hl, -, hletter⟩ |
      ⟨h, l, hform, hsmall, hh, hl, hunit⟩
    · refine ⟨[c], ?_, unescape_cons (hcode ▸ hplain.2.2)⟩
      rw [hform, utf8, List.flatMap_singleton, hb]
    · refine ⟨['\\', charOf l], ?_, fun s => ?_⟩
      · rw [hform, hascii 0x5C '\\' _ (by decide) rfl, utf8_charOf hl]
        rfl
      · have hu : charOf l ≠ 'u' := fun he => by
          have hnone : escapedChar 'u' = none := rfl
          rw [he, hnone] at hletter
          cases hletter
        rw [List.cons_append, List.singleton_append, unescape]
        · rw [hletter, hc]
        · intro a b c d e he
          exact absurd he hu
    · refine ⟨['\\', 'u', '0', '0', charOf h, charOf l], ?_, fun s => ?_⟩
      · rw [hform, hascii 0x5C '\\' _ (by decide) rfl, hascii 0x75 'u' _ (by decide) rfl,
          hascii 0x30 '0' _ (by decide) rfl, hascii 0x30 '0' _ (by decide) rfl,
          hcons (charOf h), utf8_charOf (lt_of_isHex hh), utf8_charOf (lt_of_isHex hl)]
        rfl
      · simp only [List.cons_append, List.nil_append]
        rw [unescape, hunit]
        have hu : b.toNat < 0xD800 ∨ 0xE000 ≤ b.toNat := .inl (by omega)
        simp only [hu, if_true]
        rw [← hc]
        rfl
  · refine ⟨[c], ?_, unescape_cons (by omega)⟩
    have hplain : ∀ b ∈ String.utf8EncodeChar c, escapeByte b = [b] := fun b hb => by
      have := (utf8_transparent.other c hhigh).2 b hb
      refine escapeByte_plain ?_
      simp only [isEscaped, isControl, Bool.or_eq_false_iff, decide_eq_false_iff_not,
        ← UInt8.toNat_inj, UInt8.reduceToNat]
      omega
    rw [List.flatMap_congr hplain, List.flatMap_singleton', utf8, List.flatMap_singleton]

/-- A string of characters is written as one that stands for them. -/
theorem appendString_utf8 (s : List Char) : ∃ key : List Char,
    appendString (utf8 s) = utf8 key ∧ Json.keyName key = some s := by
  obtain ⟨content, hcontent, hname⟩ : ∃ content, escapeTo (utf8 s) = utf8 content ∧
      unescape content = some s := by
    induction s with
    | nil => exact ⟨[], rfl, rfl⟩
    | cons c s ih =>
      obtain ⟨content, hcontent, hname⟩ := ih
      obtain ⟨form, hform, hreads⟩ := escape_char c
      refine ⟨form ++ content, ?_, ?_⟩
      · rw [escapeTo, utf8, List.flatMap_cons, List.flatMap_append, hform]
        rw [escapeTo, utf8] at hcontent
        rw [hcontent, utf8, utf8, utf8, List.flatMap_append]
      · rw [hreads, hname]
        rfl
  refine ⟨'"' :: (content ++ ['"']), ?_, ?_⟩
  · rw [appendString_eq, hcontent, utf8, utf8, List.flatMap_cons, List.flatMap_append]
    rfl
  · rw [Json.keyName, List.drop_one, List.tail_cons, List.dropLast_concat, hname]

end Kotatsu.Codec.Json
