import Kotatsu.Support.Utf16

/-!
# WTF-8

The text that `to_utf16` reads is what `from_utf16` spells: code points, surrogates
among them, with no high one right before a low one.
-/

namespace Kotatsu.Support

open Kotatsu.Core

variable {text rest seq : Bytes} {cp : Nat}

/-! ## Code points -/

/-- The bits that a lead byte brings. -/
def leadValue (b : UInt8) : Nat :=
  if b < 0x80 then b.toNat
  else if b < 0xE0 then b.toNat % 32
  else if b < 0xF0 then b.toNat % 16
  else b.toNat % 8

/-- The code point that a sequence spells. -/
def sequenceValue : Bytes → Nat
  | [] => 0
  | b :: rest => rest.foldl (fun cp next => cp * 64 + next.toNat % 64) (leadValue b)

/-- The bytes that `put` writes, as sums. -/
theorem putCodePoint_eq (h : cp < 0x110000) :
    putCodePoint cp =
      if cp < 0x80 then [UInt8.ofNat cp]
      else if cp < 0x800 then [UInt8.ofNat (0xC0 + cp / 64), UInt8.ofNat (0x80 + cp % 64)]
      else if cp < 0x10000 then
        [UInt8.ofNat (0xE0 + cp / 4096), UInt8.ofNat (0x80 + cp / 64 % 64),
          UInt8.ofNat (0x80 + cp % 64)]
      else
        [UInt8.ofNat (0xF0 + cp / 262144), UInt8.ofNat (0x80 + cp / 4096 % 64),
          UInt8.ofNat (0x80 + cp / 64 % 64), UInt8.ofNat (0x80 + cp % 64)] := by
  have htrail (n : Nat) : 0x80 ||| (n &&& 0x3F) = 0x80 + n % 64 := by
    rw [show n &&& 0x3F = n % 64 from Nat.and_two_pow_sub_one_eq_mod n 6]
    exact (Nat.two_pow_add_eq_or_of_lt (i := 6) (Nat.mod_lt n (by decide)) 2).symm
  have hshift (k : Nat) : cp >>> k = cp / 2 ^ k := Nat.shiftRight_eq_div_pow cp k
  have h2 (hlt : cp < 0x800) : 0xC0 ||| cp / 64 = 0xC0 + cp / 64 :=
    (Nat.two_pow_add_eq_or_of_lt (i := 5) (by omega) 6).symm
  have h3 (hlt : cp < 0x10000) : 0xE0 ||| cp / 4096 = 0xE0 + cp / 4096 :=
    (Nat.two_pow_add_eq_or_of_lt (i := 4) (by omega) 14).symm
  have h4 : 0xF0 ||| cp / 262144 = 0xF0 + cp / 262144 :=
    (Nat.two_pow_add_eq_or_of_lt (i := 3) (by omega) 30).symm
  rw [putCodePoint]
  simp only [hshift, Nat.reducePow, htrail]
  split
  · rfl
  split
  · next hlt => rw [h2 hlt]
  split
  · next hlt => rw [h3 hlt]
  · rw [h4]

theorem takeContinuations_value (need cp n : Nat) (low high : UInt8) (rest : Bytes) :
    ∃ k, (takeContinuations need cp n low high rest).2 = n + k ∧
      (takeContinuations need cp n low high rest).1 =
        (rest.take k).foldl (fun cp next => cp * 64 + next.toNat % 64) cp := by
  induction rest generalizing cp n low high with
  | nil => exact ⟨0, rfl, rfl⟩
  | cons next rest ih =>
    by_cases hc : n < need ∧ low ≤ next ∧ next ≤ high
    · obtain ⟨k, hk, hvalue⟩ := ih (cp <<< 6 ||| (next &&& 0x3F).toNat) (n + 1) 0x80 0xBF
      rw [takeContinuations, if_pos hc]
      refine ⟨k + 1, by omega, ?_⟩
      rw [hvalue, List.take_succ_cons, List.foldl_cons, continuation_bits]
    · rw [takeContinuations, if_neg hc]
      exact ⟨0, rfl, rfl⟩

variable {b a c : UInt8}

theorem lead_value {l : Lead} {surrogates : Bool} (h : lead b surrogates = some l) :
    l.codePoint = leadValue b := by
  have hall : ∀ surrogates : Bool, ∀ n : Fin 256, (lead (UInt8.ofNat n.val) surrogates).all
      (fun l => l.codePoint = leadValue (UInt8.ofNat n.val)) = true := by
    decide +kernel
  have hb := hall surrogates ⟨b.toNat, b.toNat_lt⟩
  rw [UInt8.ofNat_toNat, h] at hb
  exact of_decide_eq_true hb

/-- What is decoded is what its bytes spell. -/
theorem codePoint_of_valid {surrogates : Bool} (h : (decodeSequence text surrogates).valid = true) :
    (decodeSequence text surrogates).codePoint =
      sequenceValue (text.take (decodeSequence text surrogates).length) := by
  obtain ⟨b, rest, rfl, ⟨hb, heq⟩ | ⟨-, l, hl, hneed, heq⟩⟩ := decodeSequence_valid h <;>
    rw [heq]
  · exact (if_pos hb).symm
  · obtain ⟨k, hk, hvalue⟩ := takeContinuations_value l.need l.codePoint 1 l.low l.high rest
    dsimp only
    rw [hvalue, ← hneed, hk, Nat.add_comm, List.take_succ_cons, sequenceValue, lead_value hl]

/-! ## Sequences that are put -/

theorem put_one (ha : a.toNat ≤ 0x7F) :
    sequenceValue [a] < 0x110000 ∧ putCodePoint (sequenceValue [a]) = [a] := by
  have hvalue : sequenceValue [a] = a.toNat :=
    if_pos (UInt8.lt_iff_toNat_lt.mpr (Nat.lt_succ_of_le ha))
  rw [hvalue]
  have hlt : a.toNat < 0x110000 := by omega
  refine ⟨hlt, ?_⟩
  rw [putCodePoint_eq hlt, if_pos (by omega), ofNat_eq rfl]

theorem put_two (ha : 0xC2 ≤ a.toNat ∧ a.toNat ≤ 0xDF) (hb : 0x80 ≤ b.toNat ∧ b.toNat ≤ 0xBF) :
    sequenceValue [a, b] < 0x110000 ∧ putCodePoint (sequenceValue [a, b]) = [a, b] := by
  have hlead : leadValue a = a.toNat % 32 := by
    simp only [leadValue, UInt8.lt_iff_toNat_lt, UInt8.reduceToNat]
    rw [if_neg (by omega), if_pos (by omega)]
  have hvalue : sequenceValue [a, b] = a.toNat % 32 * 64 + b.toNat % 64 := by
    rw [← hlead]
    rfl
  rw [hvalue]
  have hlt : a.toNat % 32 * 64 + b.toNat % 64 < 0x110000 := by omega
  refine ⟨hlt, ?_⟩
  rw [putCodePoint_eq hlt, if_neg (by omega), if_pos (by omega),
    ofNat_eq (b := a) (by omega), ofNat_eq (b := b) (by omega)]

theorem put_three (ha : 0xE0 ≤ a.toNat ∧ a.toNat ≤ 0xEF) (hb : 0x80 ≤ b.toNat ∧ b.toNat ≤ 0xBF)
    (hc : 0x80 ≤ c.toNat ∧ c.toNat ≤ 0xBF) (hlow : a.toNat = 0xE0 → 0xA0 ≤ b.toNat) :
    sequenceValue [a, b, c] < 0x110000 ∧ putCodePoint (sequenceValue [a, b, c]) = [a, b, c] := by
  have hlead : leadValue a = a.toNat % 16 := by
    simp only [leadValue, UInt8.lt_iff_toNat_lt, UInt8.reduceToNat]
    rw [if_neg (by omega), if_neg (by omega), if_pos (by omega)]
  have hvalue : sequenceValue [a, b, c] =
      (a.toNat % 16 * 64 + b.toNat % 64) * 64 + c.toNat % 64 := by
    rw [← hlead]
    rfl
  rw [hvalue]
  have hlt : (a.toNat % 16 * 64 + b.toNat % 64) * 64 + c.toNat % 64 < 0x110000 := by omega
  refine ⟨hlt, ?_⟩
  rw [putCodePoint_eq hlt, if_neg (by omega), if_neg (by omega), if_pos (by omega),
    ofNat_eq (b := a) (by omega), ofNat_eq (b := b) (by omega),
    ofNat_eq (b := c) (by omega)]

theorem put_four {a b c d : UInt8} (ha : 0xF0 ≤ a.toNat ∧ a.toNat ≤ 0xF4)
    (hb : 0x80 ≤ b.toNat ∧ b.toNat ≤ 0xBF) (hc : 0x80 ≤ c.toNat ∧ c.toNat ≤ 0xBF)
    (hd : 0x80 ≤ d.toNat ∧ d.toNat ≤ 0xBF) (hlow : a.toNat = 0xF0 → 0x90 ≤ b.toNat)
    (hhigh : a.toNat = 0xF4 → b.toNat ≤ 0x8F) :
    sequenceValue [a, b, c, d] < 0x110000 ∧
      putCodePoint (sequenceValue [a, b, c, d]) = [a, b, c, d] := by
  have hlead : leadValue a = a.toNat % 8 := by
    simp only [leadValue, UInt8.lt_iff_toNat_lt, UInt8.reduceToNat]
    rw [if_neg (by omega), if_neg (by omega), if_neg (by omega)]
  have hvalue : sequenceValue [a, b, c, d] =
      ((a.toNat % 8 * 64 + b.toNat % 64) * 64 + c.toNat % 64) * 64 + d.toNat % 64 := by
    rw [← hlead]
    rfl
  rw [hvalue]
  have hlt : ((a.toNat % 8 * 64 + b.toNat % 64) * 64 + c.toNat % 64) * 64 + d.toNat % 64 <
      0x110000 := by omega
  refine ⟨hlt, ?_⟩
  rw [putCodePoint_eq hlt, if_neg (by omega), if_neg (by omega), if_neg (by omega),
    ofNat_eq (b := a) (by omega), ofNat_eq (b := b) (by omega),
    ofNat_eq (b := c) (by omega), ofNat_eq (b := d) (by omega)]

theorem follows_cons {range : ByteRange} {row : List ByteRange} (h : Follows (range :: row) seq) :
    ∃ b rest, seq = b :: rest ∧ range.1.toNat ≤ b.toNat ∧ b.toNat ≤ range.2.toNat ∧
      Follows row rest := by
  cases h with
  | cons hb hrest =>
    exact ⟨_, _, rfl, UInt8.le_iff_toNat_le.mp hb.1, UInt8.le_iff_toNat_le.mp hb.2, hrest⟩

theorem follows_nil (h : Follows [] seq) : seq = [] := List.forall₂_nil_left_iff.mp h

/-- A well-formed sequence spells a code point, which is put as it. -/
theorem putCodePoint_value (h : WellFormedSequence true seq) :
    sequenceValue seq < 0x110000 ∧ putCodePoint (sequenceValue seq) = seq := by
  obtain ⟨row, hrow, hfollows⟩ := h
  have hthree {lead second : ByteRange} (hl : 0xE0 ≤ lead.1.toNat ∧ lead.2.toNat ≤ 0xEF)
      (hs : 0x80 ≤ second.1.toNat ∧ second.2.toNat ≤ 0xBF)
      (hlow : lead.1 = 0xE0 → 0xA0 ≤ second.1.toNat)
      (hfollows : Follows [lead, second, trailing] seq) :
      sequenceValue seq < 0x110000 ∧ putCodePoint (sequenceValue seq) = seq := by
    obtain ⟨a, rest, rfl, ha, ha', hrest⟩ := follows_cons hfollows
    obtain ⟨b, rest, rfl, hb, hb', hrest⟩ := follows_cons hrest
    obtain ⟨c, rest, rfl, hc, hc', hrest⟩ := follows_cons hrest
    obtain rfl := follows_nil hrest
    refine put_three ⟨by omega, by omega⟩ ⟨by omega, by omega⟩ ⟨hc, hc'⟩ fun heq => ?_
    have hlead : lead.1 = 0xE0 := UInt8.toNat_inj.mp (Nat.le_antisymm (ha.trans heq.le) hl.1)
    exact (hlow hlead).trans hb
  have hfour {lead second : ByteRange} (hl : 0xF0 ≤ lead.1.toNat ∧ lead.2.toNat ≤ 0xF4)
      (hs : 0x80 ≤ second.1.toNat ∧ second.2.toNat ≤ 0xBF)
      (hlow : lead.1 = 0xF0 → 0x90 ≤ second.1.toNat)
      (hhigh : lead.2 = 0xF4 → second.2.toNat ≤ 0x8F)
      (hfollows : Follows [lead, second, trailing, trailing] seq) :
      sequenceValue seq < 0x110000 ∧ putCodePoint (sequenceValue seq) = seq := by
    obtain ⟨a, rest, rfl, ha, ha', hrest⟩ := follows_cons hfollows
    obtain ⟨b, rest, rfl, hb, hb', hrest⟩ := follows_cons hrest
    obtain ⟨c, rest, rfl, hc, hc', hrest⟩ := follows_cons hrest
    obtain ⟨d, rest, rfl, hd, hd', hrest⟩ := follows_cons hrest
    obtain rfl := follows_nil hrest
    refine put_four ⟨by omega, by omega⟩ ⟨by omega, by omega⟩ ⟨hc, hc'⟩ ⟨hd, hd'⟩
      (fun heq => ?_) fun heq => ?_
    · have hlead : lead.1 = 0xF0 := UInt8.toNat_inj.mp (Nat.le_antisymm (ha.trans heq.le) hl.1)
      exact (hlow hlead).trans hb
    · have hlead : lead.2 = 0xF4 := UInt8.toNat_inj.mp (Nat.le_antisymm hl.2 (heq.ge.trans ha'))
      exact hb'.trans (hhigh hlead)
  simp only [table, List.mem_cons, List.not_mem_nil, or_false] at hrow
  obtain rfl | rfl | rfl | rfl | rfl | rfl | rfl | rfl | rfl := hrow
  · obtain ⟨a, rest, rfl, -, ha, hrest⟩ := follows_cons hfollows
    obtain rfl := follows_nil hrest
    exact put_one ha
  · obtain ⟨a, rest, rfl, ha, ha', hrest⟩ := follows_cons hfollows
    obtain ⟨b, rest, rfl, hb, hb', hrest⟩ := follows_cons hrest
    obtain rfl := follows_nil hrest
    exact put_two ⟨ha, ha'⟩ ⟨hb, hb'⟩
  · exact hthree (by decide) (by decide) (by decide) hfollows
  · exact hthree (by decide) (by decide) (by decide) hfollows
  · exact hthree (by decide) (by decide) (by decide) hfollows
  · exact hthree (by decide) (by decide) (by decide) hfollows
  · exact hfour (by decide) (by decide) (by decide) (by decide) hfollows
  · exact hfour (by decide) (by decide) (by decide) (by decide) hfollows
  · exact hfour (by decide) (by decide) (by decide) (by decide) hfollows

theorem holds_iff {range : ByteRange} :
    range.Holds b ↔ range.1.toNat ≤ b.toNat ∧ b.toNat ≤ range.2.toNat := by
  rw [ByteRange.Holds, UInt8.le_iff_toNat_le, UInt8.le_iff_toNat_le]

theorem wellFormed_three (ha : 0xE0 ≤ a.toNat ∧ a.toNat ≤ 0xEF)
    (hb : 0x80 ≤ b.toNat ∧ b.toNat ≤ 0xBF) (hc : 0x80 ≤ c.toNat ∧ c.toNat ≤ 0xBF)
    (hlow : a.toNat = 0xE0 → 0xA0 ≤ b.toNat) : WellFormedSequence true [a, b, c] := by
  have hrow (lead second : ByteRange) (hm : [lead, second, trailing] ∈ table true)
      (hl : lead.1.toNat ≤ a.toNat ∧ a.toNat ≤ lead.2.toNat)
      (hs : second.1.toNat ≤ b.toNat ∧ b.toNat ≤ second.2.toNat) :
      WellFormedSequence true [a, b, c] :=
    ⟨_, hm, .cons (holds_iff.mpr hl) (.cons (holds_iff.mpr hs)
      (.cons (holds_iff.mpr hc) .nil))⟩
  by_cases hE0 : a.toNat = 0xE0
  · exact hrow (0xE0, 0xE0) (0xA0, 0xBF) (by decide) ⟨hE0.ge, hE0.le⟩
      ⟨hlow hE0, hb.2⟩
  by_cases hEC : a.toNat ≤ 0xEC
  · exact hrow (0xE1, 0xEC) trailing (by decide)
      ⟨Nat.lt_of_le_of_ne ha.1 (Ne.symm hE0), hEC⟩ hb
  by_cases hED : a.toNat = 0xED
  · exact hrow (0xED, 0xED) (0x80, 0xBF) (by decide) ⟨hED.ge, hED.le⟩ hb
  · exact hrow (0xEE, 0xEF) trailing (by decide)
      ⟨Nat.lt_of_le_of_ne (Nat.lt_of_not_le hEC) (Ne.symm hED), ha.2⟩ hb

theorem wellFormed_four {a b c d : UInt8} (ha : 0xF0 ≤ a.toNat ∧ a.toNat ≤ 0xF4)
    (hb : 0x80 ≤ b.toNat ∧ b.toNat ≤ 0xBF) (hc : 0x80 ≤ c.toNat ∧ c.toNat ≤ 0xBF)
    (hd : 0x80 ≤ d.toNat ∧ d.toNat ≤ 0xBF) (hlow : a.toNat = 0xF0 → 0x90 ≤ b.toNat)
    (hhigh : a.toNat = 0xF4 → b.toNat ≤ 0x8F) : WellFormedSequence true [a, b, c, d] := by
  have hrow (lead second : ByteRange) (hm : [lead, second, trailing, trailing] ∈ table true)
      (hl : lead.1.toNat ≤ a.toNat ∧ a.toNat ≤ lead.2.toNat)
      (hs : second.1.toNat ≤ b.toNat ∧ b.toNat ≤ second.2.toNat) :
      WellFormedSequence true [a, b, c, d] :=
    ⟨_, hm, .cons (holds_iff.mpr hl) (.cons (holds_iff.mpr hs)
      (.cons (holds_iff.mpr hc) (.cons (holds_iff.mpr hd) .nil)))⟩
  by_cases hF0 : a.toNat = 0xF0
  · exact hrow (0xF0, 0xF0) (0x90, 0xBF) (by decide) ⟨hF0.ge, hF0.le⟩
      ⟨hlow hF0, hb.2⟩
  by_cases hF4 : a.toNat = 0xF4
  · exact hrow (0xF4, 0xF4) (0x80, 0x8F) (by decide) ⟨hF4.ge, hF4.le⟩
      ⟨hb.1, hhigh hF4⟩
  · exact hrow (0xF1, 0xF3) trailing (by decide)
      ⟨Nat.lt_of_le_of_ne ha.1 (Ne.symm hF0),
        Nat.le_of_lt_succ (Nat.lt_of_le_of_ne ha.2 hF4)⟩ hb

/-- What is put for a code point is a well-formed sequence that spells it. -/
theorem wellFormed_putCodePoint (h : cp < 0x110000) :
    WellFormedSequence true (putCodePoint cp) ∧ sequenceValue (putCodePoint cp) = cp := by
  have hbyte {n : Nat} (hn : n < 256) : (UInt8.ofNat n).toNat = n := by
    rw [UInt8.toNat_ofNat']
    exact Nat.mod_eq_of_lt hn
  rw [putCodePoint_eq h]
  split
  · have ha := hbyte (n := cp) (by omega)
    generalize UInt8.ofNat cp = a at ha
    refine ⟨⟨[(0x00, 0x7F)], by decide, .cons (holds_iff.mpr ⟨Nat.zero_le _, ?_⟩) .nil⟩, ?_⟩
    · change a.toNat ≤ 0x7F
      omega
    · rw [← ha]
      exact if_pos (UInt8.lt_iff_toNat_lt.mpr (show a.toNat < 0x80 by omega))
  split
  · have ha := hbyte (n := 0xC0 + cp / 64) (by omega)
    have hb := hbyte (n := 0x80 + cp % 64) (by omega)
    generalize UInt8.ofNat (0xC0 + cp / 64) = a at ha
    generalize UInt8.ofNat (0x80 + cp % 64) = b at hb
    have hlead : leadValue a = a.toNat % 32 := by
      simp only [leadValue, UInt8.lt_iff_toNat_lt, UInt8.reduceToNat]
      rw [if_neg (by omega), if_pos (by omega)]
    refine ⟨⟨[(0xC2, 0xDF), trailing], by decide, .cons (holds_iff.mpr ?_)
      (.cons (holds_iff.mpr ?_) .nil)⟩, ?_⟩
    · change 0xC2 ≤ a.toNat ∧ a.toNat ≤ 0xDF
      omega
    · change 0x80 ≤ b.toNat ∧ b.toNat ≤ 0xBF
      omega
    · change leadValue a * 64 + b.toNat % 64 = cp
      omega
  split
  · have ha := hbyte (n := 0xE0 + cp / 4096) (by omega)
    have hb := hbyte (n := 0x80 + cp / 64 % 64) (by omega)
    have hc := hbyte (n := 0x80 + cp % 64) (by omega)
    generalize UInt8.ofNat (0xE0 + cp / 4096) = a at ha
    generalize UInt8.ofNat (0x80 + cp / 64 % 64) = b at hb
    generalize UInt8.ofNat (0x80 + cp % 64) = c at hc
    have hlead : leadValue a = a.toNat % 16 := by
      simp only [leadValue, UInt8.lt_iff_toNat_lt, UInt8.reduceToNat]
      rw [if_neg (by omega), if_neg (by omega), if_pos (by omega)]
    refine ⟨wellFormed_three (by omega) (by omega) (by omega) (by omega), ?_⟩
    change (leadValue a * 64 + b.toNat % 64) * 64 + c.toNat % 64 = cp
    omega
  · have ha := hbyte (n := 0xF0 + cp / 262144) (by omega)
    have hb := hbyte (n := 0x80 + cp / 4096 % 64) (by omega)
    have hc := hbyte (n := 0x80 + cp / 64 % 64) (by omega)
    have hd := hbyte (n := 0x80 + cp % 64) (by omega)
    generalize UInt8.ofNat (0xF0 + cp / 262144) = a at ha
    generalize UInt8.ofNat (0x80 + cp / 4096 % 64) = b at hb
    generalize UInt8.ofNat (0x80 + cp / 64 % 64) = c at hc
    generalize UInt8.ofNat (0x80 + cp % 64) = d at hd
    have hlead : leadValue a = a.toNat % 8 := by
      simp only [leadValue, UInt8.lt_iff_toNat_lt, UInt8.reduceToNat]
      rw [if_neg (by omega), if_neg (by omega), if_neg (by omega)]
    refine ⟨wellFormed_four (by omega) (by omega) (by omega) (by omega) (by omega) (by omega), ?_⟩
    change ((leadValue a * 64 + b.toNat % 64) * 64 + c.toNat % 64) * 64 + d.toNat % 64 = cp
    omega

end Kotatsu.Support
