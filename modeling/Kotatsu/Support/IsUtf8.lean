import Kotatsu.Core.Json.Encoding
import Kotatsu.Support.AnyWord
import Kotatsu.Support.Utf8

/-!
# Well-formed text

`is_utf8` passes what is ASCII eight bytes at a time, and decodes the rest a sequence
at a time. A sequence that decodes is the encoding of a character, so a text that
passes encodes characters.
-/

namespace Kotatsu.Support

open Kotatsu.Core Kotatsu.Core.Json

private theorem length_pos_of_valid {text : Bytes} (h : (decodeUtf8 text).valid = true) :
    0 < (decodeUtf8 text).length := by
  obtain ⟨b, taken, after, -, -, -, hlen, -⟩ := decodeUtf8_valid h
  omega

/-- The loop of `is_utf8`. -/
def isUtf8From (text : Bytes) : Bool :=
  if _hempty : text = [] then true
  else if 8 ≤ text.length ∧ nonAscii (wordOf (text.take 8)) = 0 then isUtf8From (text.drop 8)
  else if _hvalid : (decodeUtf8 text).valid = true then
    isUtf8From (text.drop (decodeUtf8 text).length)
  else false
termination_by text.length
decreasing_by
  · rw [List.length_drop]
    omega
  · have := length_pos_of_valid _hvalid
    have := List.length_pos_iff.mpr _hempty
    rw [List.length_drop]
    omega

/-- `is_utf8`. -/
def isUtf8 (text : Bytes) : Bool :=
  if anyWord text 0 (nonAscii · ≠ 0) then isUtf8From text else true

/-! ## A sequence is a character -/

/-- The loop of `decode_sequence`, where it takes another byte. -/
private theorem takeContinuations_next {need cp n : Nat} {low high : UInt8} {rest : Bytes}
    (hlt : n < need) (h : (takeContinuations need cp n low high rest).2 = need) :
    ∃ x rest', rest = x :: rest' ∧ low.toNat ≤ x.toNat ∧ x.toNat ≤ high.toNat ∧
      takeContinuations need cp n low high rest =
        takeContinuations need (cp * 64 + x.toNat % 64) (n + 1) 0x80 0xBF rest' := by
  cases rest with
  | nil =>
    rw [takeContinuations] at h
    dsimp only at h
    omega
  | cons x rest' =>
    rw [takeContinuations] at h ⊢
    split at h
    case isTrue hc =>
      rw [if_pos hc, continuation_bits]
      exact ⟨x, rest', rfl, UInt8.le_iff_toNat_le.mp hc.2.1, UInt8.le_iff_toNat_le.mp hc.2.2, rfl⟩
    case isFalse =>
      dsimp only at h
      omega

/-- What a lead byte says, by the length of its sequence. -/
private theorem lead_cases {b : UInt8} {l : Lead} (h : lead b false = some l) :
    (l.need = 2 ∧ l.codePoint = b.toNat % 32 ∧ 0xC2 ≤ b.toNat ∧ b.toNat ≤ 0xDF) ∨
    (l.need = 3 ∧ l.codePoint = b.toNat % 16 ∧ 0xE0 ≤ b.toNat ∧ b.toNat ≤ 0xEF ∧
      (b.toNat = 0xE0 → 0xA0 ≤ l.low.toNat) ∧ (b.toNat = 0xED → l.high.toNat ≤ 0x9F)) ∨
    (l.need = 4 ∧ l.codePoint = b.toNat % 8 ∧ 0xF0 ≤ b.toNat ∧ b.toNat ≤ 0xF4 ∧
      (b.toNat = 0xF0 → 0x90 ≤ l.low.toNat) ∧ (b.toNat = 0xF4 → l.high.toNat ≤ 0x8F)) := by
  obtain ⟨h5, h4, h3⟩ := toNat_and_mask b
  have hbyte : ∀ {a : UInt8}, b.toNat = a.toNat → b = a := UInt8.toNat_inj.mp
  unfold lead at h
  split at h
  case isTrue hrange =>
    cases h
    exact .inl ⟨rfl, h5, UInt8.le_iff_toNat_le.mp hrange.1, UInt8.le_iff_toNat_le.mp hrange.2⟩
  case isFalse =>
    split at h
    case isTrue hrange =>
      cases h
      refine .inr (.inl ⟨rfl, h4, UInt8.le_iff_toNat_le.mp hrange.1,
        UInt8.le_iff_toNat_le.mp hrange.2, fun hb => ?_, fun hb => ?_⟩)
      · obtain rfl := hbyte (a := 0xE0) hb
        decide
      · obtain rfl := hbyte (a := 0xED) hb
        decide
    case isFalse =>
      split at h
      case isTrue hrange =>
        cases h
        refine .inr (.inr ⟨rfl, h3, UInt8.le_iff_toNat_le.mp hrange.1,
          UInt8.le_iff_toNat_le.mp hrange.2, fun hb => ?_, fun hb => ?_⟩)
        · obtain rfl := hbyte (a := 0xF0) hb
          decide
        · obtain rfl := hbyte (a := 0xF4) hb
          decide
      case isFalse => cases h

/-- A sequence that decodes is the encoding of a character. -/
theorem decodeUtf8_char {text : Bytes} (h : (decodeUtf8 text).valid = true) :
    ∃ c : Char, text = String.utf8EncodeChar c ++ text.drop (decodeUtf8 text).length := by
  have hchar : ∀ v : Nat, v < 0xD800 ∨ 0xDFFF < v ∧ v < 0x110000 →
      ∃ c : Char, c.val.toNat = v := fun v hv => by
    refine ⟨Char.ofNat v, ?_⟩
    have hvalid : v.isValidChar := hv
    rw [Char.ofNat, dif_pos hvalid]
    exact rfl
  unfold decodeUtf8 at h ⊢
  obtain ⟨b, rest, rfl, ⟨hascii, heq⟩ | ⟨-, l, hl, hneed, heq⟩⟩ := decodeSequence_valid h <;>
    rw [heq]
  · have hb : b.toNat < 0x80 := UInt8.lt_iff_toNat_lt.mp hascii
    obtain ⟨c, hc⟩ := hchar b.toNat (by omega)
    refine ⟨c, ?_⟩
    rw [String.utf8EncodeChar, hc, if_pos (by omega), ofNat_eq rfl]
    rfl
  · obtain ⟨hlow, hhigh⟩ := lead_low_high hl
    rw [UInt8.le_iff_toNat_le] at hlow hhigh
    simp only [UInt8.reduceToNat] at hlow hhigh
    rcases lead_cases hl with ⟨hn, hcp, hb, hb'⟩ | ⟨hn, hcp, hb, hb', hfirst, hlast⟩ |
      ⟨hn, hcp, hb, hb', hfirst, hlast⟩
    · rw [hn, hcp] at hneed
      obtain ⟨x, r, rfl, hx, hx', -⟩ := takeContinuations_next (by decide) hneed
      obtain ⟨c, hc⟩ := hchar (b.toNat % 32 * 64 + x.toNat % 64) (by omega)
      refine ⟨c, ?_⟩
      rw [hn, String.utf8EncodeChar, hc, if_neg (by omega), if_pos (by omega),
        ofNat_eq (b := b) (by omega), ofNat_eq (b := x) (by omega)]
      rfl
    · rw [hn, hcp] at hneed
      obtain ⟨x, r, rfl, hx, hx', heq⟩ := takeContinuations_next (by decide) hneed
      rw [heq] at hneed
      obtain ⟨y, r, rfl, hy, hy', -⟩ := takeContinuations_next (by decide) hneed
      simp only [UInt8.reduceToNat] at hy hy'
      obtain ⟨c, hc⟩ := hchar ((b.toNat % 16 * 64 + x.toNat % 64) * 64 + y.toNat % 64)
        (by omega)
      refine ⟨c, ?_⟩
      rw [hn, String.utf8EncodeChar, hc, if_neg (by omega), if_neg (by omega),
        if_pos (by omega), ofNat_eq (b := b) (by omega), ofNat_eq (b := x) (by omega),
        ofNat_eq (b := y) (by omega)]
      rfl
    · rw [hn, hcp] at hneed
      obtain ⟨x, r, rfl, hx, hx', heq⟩ := takeContinuations_next (by decide) hneed
      rw [heq] at hneed
      obtain ⟨y, r, rfl, hy, hy', heq'⟩ := takeContinuations_next (by decide) hneed
      rw [heq'] at hneed
      obtain ⟨z, r, rfl, hz, hz', -⟩ := takeContinuations_next (by decide) hneed
      simp only [UInt8.reduceToNat] at hy hy' hz hz'
      obtain ⟨c, hc⟩ := hchar
        (((b.toNat % 8 * 64 + x.toNat % 64) * 64 + y.toNat % 64) * 64 + z.toNat % 64)
        (by omega)
      refine ⟨c, ?_⟩
      rw [hn, String.utf8EncodeChar, hc, if_neg (by omega), if_neg (by omega),
        if_neg (by omega), ofNat_eq (b := b) (by omega), ofNat_eq (b := x) (by omega),
        ofNat_eq (b := y) (by omega), ofNat_eq (b := z) (by omega)]
      rfl

/-! ## A text is characters -/

private theorem utf8_append (s t : List Char) : utf8 (s ++ t) = utf8 s ++ utf8 t :=
  List.flatMap_append

/-- ASCII encodes itself. -/
private theorem ascii_utf8 {bs : Bytes} (h : ∀ b ∈ bs, b.toNat < 0x80) :
    ∃ s, bs = utf8 s := by
  induction bs with
  | nil => exact ⟨[], rfl⟩
  | cons b bs ih =>
    obtain ⟨hb, hbs⟩ := List.forall_mem_cons.mp h
    obtain ⟨s, rfl⟩ := ih hbs
    have hdecode : decodeUtf8 (b :: utf8 s) = ⟨b.toNat, 1, true⟩ :=
      decodeUtf8_ascii (UInt8.lt_iff_toNat_lt.mpr hb) _
    have hvalid : (decodeUtf8 (b :: utf8 s)).valid = true := by rw [hdecode]
    obtain ⟨c, hc⟩ := decodeUtf8_char hvalid
    refine ⟨c :: s, ?_⟩
    rw [hdecode] at hc
    exact hc

/-- A word of eight bytes whose mask shows nothing is of ASCII. -/
theorem ascii_of_word {bs : Bytes} (hlen : bs.length = 8) (h : nonAscii (wordOf bs) = 0) :
    ∀ b ∈ bs, b.toNat < 0x80 := by
  obtain ⟨-, hnone⟩ | ⟨hshown, -⟩ := (nonAscii_shows hlen).firstByteIndex hlen
  · exact fun b hb => Nat.lt_of_not_le (of_decide_eq_false (hnone b hb))
  · exact absurd h hshown

private theorem isUtf8From_utf8 {text : Bytes} (h : isUtf8From text = true) :
    ∃ s, text = utf8 s := by
  fun_induction isUtf8From text with
  | case1 => exact ⟨[], rfl⟩
  | case2 text hne hword ih =>
    obtain ⟨s, hs⟩ := ih h
    obtain ⟨front, hfront⟩ := ascii_utf8 (ascii_of_word (List.length_take_of_le hword.1) hword.2)
    refine ⟨front ++ s, ?_⟩
    rw [utf8_append, ← hfront, ← hs, List.take_append_drop]
  | case3 text hne hword hvalid ih =>
    obtain ⟨s, hs⟩ := ih h
    obtain ⟨c, hc⟩ := decodeUtf8_char hvalid
    refine ⟨c :: s, hc.trans ?_⟩
    rw [hs]
    rfl
  | case4 => cases h

/-- `is_utf8` looks closer where a byte is not ASCII. -/
theorem isUtf8_eq (text : Bytes) :
    isUtf8 text =
      if text.any fun b => decide (0x80 ≤ b.toNat) then isUtf8From text else true := by
  have hbytes : Bytewise (fun b => decide (0x80 ≤ b.toNat)) fun word => nonAscii word ≠ 0 :=
    .of_shows fun _ => nonAscii_shows
  have hascii : ∀ b ∈ List.replicate 8 (0 : UInt8), decide (0x80 ≤ b.toNat) = false :=
    fun b hb => by
      rw [List.eq_of_mem_replicate hb]
      rfl
  have hany := anyWord_eq hbytes (List.replicate 8 0) rfl hascii text
  have hzero : wordOf (List.replicate 8 0) = 0 := by
    simp [wordOf, leValue, leValueFrom, List.replicate]
  rw [hzero] at hany
  rw [isUtf8, hany]

theorem ascii_of_any {text : Bytes} (h : ¬text.any (fun b => decide (0x80 ≤ b.toNat)) = true) :
    ∀ b ∈ text, b.toNat < 0x80 := fun b hb =>
  Nat.lt_of_not_le fun hle => h (List.any_eq_true.mpr ⟨b, hb, decide_eq_true hle⟩)

/-- A text that passes `is_utf8` encodes characters. -/
theorem isUtf8_utf8 {text : Bytes} (h : isUtf8 text = true) : ∃ s, text = utf8 s := by
  rw [isUtf8_eq] at h
  split at h
  case isTrue => exact isUtf8From_utf8 h
  case isFalse hnone => exact ascii_utf8 (ascii_of_any hnone)

end Kotatsu.Support
