import Mathlib.Logic.Function.Iterate
import Kotatsu.Core.Bytes

/-!
# UTF-8

The decoder of one sequence, and the atoms a text is matched in: a code point, or
a byte that does not decode. A sequence that decodes begins with no continuation
byte and holds nothing else after its first byte, so a text may be cut before any
byte that continues nothing, and a cut at an ASCII byte leaves valid text on both
sides.
-/

namespace Kotatsu.Support

open Kotatsu.Core

/-- `UTF8Sequence`. -/
structure Utf8Sequence where
  codePoint : Nat
  length : Nat
  valid : Bool
deriving DecidableEq, Repr

/-- What a lead byte says: the length of its sequence, its bits, and the range of the
second byte. -/
structure Lead where
  need : Nat
  codePoint : Nat
  low : UInt8
  high : UInt8

/-- The leads of `decode_sequence`. -/
def lead (b : UInt8) (surrogates : Bool) : Option Lead :=
  if 0xC2 ≤ b ∧ b ≤ 0xDF then
    some { need := 2, codePoint := (b &&& 0x1F).toNat, low := 0x80, high := 0xBF }
  else if 0xE0 ≤ b ∧ b ≤ 0xEF then
    some {
      need := 3
      codePoint := (b &&& 0x0F).toNat
      low := if b = 0xE0 then 0xA0 else 0x80
      high := if b = 0xED ∧ surrogates = false then 0x9F else 0xBF }
  else if 0xF0 ≤ b ∧ b ≤ 0xF4 then
    some {
      need := 4
      codePoint := (b &&& 0x07).toNat
      low := if b = 0xF0 then 0x90 else 0x80
      high := if b = 0xF4 then 0x8F else 0xBF }
  else none

/-- The loop of `decode_sequence` from the second byte on: the code point and the
length of what it takes. -/
def takeContinuations (need codePoint length : Nat) (low high : UInt8) : Bytes → Nat × Nat
  | [] => (codePoint, length)
  | next :: rest =>
    if length < need ∧ low ≤ next ∧ next ≤ high then
      takeContinuations need (codePoint <<< 6 ||| (next &&& 0x3F).toNat) (length + 1) 0x80 0xBF
        rest
    else (codePoint, length)

/-- `decode_sequence`; it is not called with an empty text. -/
def decodeSequence (text : Bytes) (surrogates : Bool) : Utf8Sequence :=
  match text with
  | [] => ⟨0xFFFD, 0, false⟩
  | b :: rest =>
    if b < 0x80 then ⟨b.toNat, 1, true⟩
    else
      match lead b surrogates with
      | none => ⟨0xFFFD, 1, false⟩
      | some l =>
        let taken := takeContinuations l.need l.codePoint 1 l.low l.high rest
        if taken.2 ≠ l.need then ⟨0xFFFD, taken.2, false⟩ else ⟨taken.1, taken.2, true⟩

/-- `decode_utf8`. -/
def decodeUtf8 (text : Bytes) : Utf8Sequence := decodeSequence text false

/-! ## Sequences that decode -/

/-- A byte that only continues a sequence. -/
def IsContinuation (b : UInt8) : Prop := 0x80 ≤ b ∧ b ≤ 0xBF

instance (b : UInt8) : Decidable (IsContinuation b) := inferInstanceAs (Decidable (_ ∧ _))

variable {b : UInt8} {text : Bytes}

theorem ofNat_eq {n : Nat} (h : n = b.toNat) : UInt8.ofNat n = b := by
  rw [h, UInt8.ofNat_toNat]

theorem lead_low_high {l : Lead} (h : lead b false = some l) :
    0x80 ≤ l.low ∧ l.high ≤ 0xBF := by
  unfold lead at h
  split at h
  · cases h
    exact ⟨UInt8.le_refl _, UInt8.le_refl _⟩
  · split at h
    · cases h
      constructor
      · dsimp only
        split <;> decide
      · dsimp only
        split <;> decide
    · split at h
      · cases h
        constructor
        · dsimp only
          split <;> decide
        · dsimp only
          split <;> decide
      · cases h

theorem lead_not_continuation {l : Lead} (h : lead b false = some l) : ¬IsContinuation b := by
  intro hc
  have hle : ¬0xC2 ≤ b := fun h' => absurd (UInt8.le_trans h' hc.2) (by decide)
  have hle' : ¬0xE0 ≤ b := fun h' => absurd (UInt8.le_trans h' hc.2) (by decide)
  have hle'' : ¬0xF0 ≤ b := fun h' => absurd (UInt8.le_trans h' hc.2) (by decide)
  simp only [lead, hle, hle', hle'', false_and, if_false, reduceCtorEq] at h

/-- What the loop takes are continuation bytes, and only they matter. -/
theorem takeContinuations_spec (need cp n : Nat) (low high : UInt8) (rest : Bytes)
    (hl : 0x80 ≤ low) (hh : high ≤ 0xBF) :
    ∃ taken after, rest = taken ++ after ∧ (∀ b ∈ taken, IsContinuation b) ∧
      (takeContinuations need cp n low high rest).2 = n + taken.length ∧
      ((takeContinuations need cp n low high rest).2 = need → ∀ after',
        takeContinuations need cp n low high (taken ++ after') =
          takeContinuations need cp n low high rest) := by
  induction rest generalizing cp n low high with
  | nil =>
    refine ⟨[], [], rfl, by simp, rfl, fun hneed after' => ?_⟩
    cases after' with
    | nil => rfl
    | cons x xs =>
      simp only [takeContinuations] at hneed
      simp only [List.nil_append, takeContinuations, hneed, Nat.lt_irrefl, false_and, if_false]
  | cons next rest ih =>
    by_cases hc : n < need ∧ low ≤ next ∧ next ≤ high
    · obtain ⟨taken, after, heq, hall, hlen, hsame⟩ :=
        ih (cp <<< 6 ||| (next &&& 0x3F).toNat) (n + 1) 0x80 0xBF (by decide) (by decide)
      refine ⟨next :: taken, after, by rw [heq, List.cons_append], ?_, ?_, ?_⟩
      · intro b hb
        obtain rfl | hb := List.mem_cons.mp hb
        · exact ⟨UInt8.le_trans hl hc.2.1, UInt8.le_trans hc.2.2 hh⟩
        · exact hall b hb
      · simp only [takeContinuations, if_pos hc, hlen, List.length_cons]
        omega
      · intro hneed after'
        simp only [takeContinuations, if_pos hc] at hneed
        simp only [List.cons_append, takeContinuations, if_pos hc]
        exact hsame hneed after'
    · refine ⟨[], next :: rest, rfl, by simp, ?_, fun hneed after' => ?_⟩
      · simp only [takeContinuations, if_neg hc, List.length_nil, Nat.add_zero]
      · simp only [takeContinuations, if_neg hc] at hneed ⊢
        cases after' with
        | nil => rfl
        | cons x xs =>
          simp only [List.nil_append, takeContinuations, hneed, Nat.lt_irrefl, false_and, if_false]

/-- How a text decodes: its first byte is ASCII, or leads a sequence that is all there. -/
theorem decodeSequence_valid {surrogates : Bool}
    (h : (decodeSequence text surrogates).valid = true) :
    ∃ b rest, text = b :: rest ∧
      (b < 0x80 ∧ decodeSequence text surrogates = ⟨b.toNat, 1, true⟩ ∨
        ¬b < 0x80 ∧ ∃ l, lead b surrogates = some l ∧
          (takeContinuations l.need l.codePoint 1 l.low l.high rest).2 = l.need ∧
          decodeSequence text surrogates =
            ⟨(takeContinuations l.need l.codePoint 1 l.low l.high rest).1, l.need, true⟩) := by
  cases text with
  | nil => cases h
  | cons b rest =>
    refine ⟨b, rest, rfl, ?_⟩
    by_cases hb : b < 0x80
    · exact .inl ⟨hb, if_pos hb⟩
    · cases hl : lead b surrogates with
      | none => simp only [decodeSequence, hb, if_false, hl, Bool.false_eq_true] at h
      | some l =>
        have hneed : (takeContinuations l.need l.codePoint 1 l.low l.high rest).2 = l.need := by
          by_contra hn
          simp only [decodeSequence, hb, if_false, hl, ne_eq, hn, not_false_eq_true, if_true,
            Bool.false_eq_true] at h
        refine .inr ⟨hb, l, rfl, hneed, ?_⟩
        simp only [decodeSequence, hb, if_false, hl, ne_eq, hneed, not_true_eq_false]

/-- A text that decodes: a byte that continues nothing, the bytes that continue it, and
any text after them. -/
theorem decodeUtf8_valid (h : (decodeUtf8 text).valid = true) :
    ∃ b taken after, text = b :: taken ++ after ∧ ¬IsContinuation b ∧
      (∀ c ∈ taken, IsContinuation c) ∧ (decodeUtf8 text).length = taken.length + 1 ∧
      ∀ after', decodeUtf8 (b :: taken ++ after') = decodeUtf8 text := by
  unfold decodeUtf8 at h ⊢
  obtain ⟨b, rest, rfl, ⟨hb, heq⟩ | ⟨hb, l, hl, hneed, heq⟩⟩ := decodeSequence_valid h
  · refine ⟨b, [], rest, rfl, ?_, by simp, congrArg _ heq, fun after' => (if_pos hb).trans heq.symm⟩
    exact fun hc => absurd (UInt8.lt_of_le_of_lt hc.1 hb) (UInt8.lt_irrefl _)
  · obtain ⟨hlow, hhigh⟩ := lead_low_high hl
    obtain ⟨taken, after, rfl, hall, hlen, hsame⟩ :=
      takeContinuations_spec l.need l.codePoint 1 l.low l.high rest hlow hhigh
    refine ⟨b, taken, after, List.cons_append.symm, lead_not_continuation hl, hall, ?_,
      fun after' => ?_⟩
    · rw [heq]
      dsimp only
      omega
    · simp only [List.cons_append, decodeSequence, hb, if_false, hl, hsame hneed after']

/-- A sequence that decodes needs nothing after it. -/
theorem decodeUtf8_take {n : Nat} (h : (decodeUtf8 text).valid = true)
    (hn : (decodeUtf8 text).length ≤ n) : decodeUtf8 (text.take n) = decodeUtf8 text := by
  obtain ⟨b, taken, after, heq, -, -, hlen, hsame⟩ := decodeUtf8_valid h
  have htake : text.take n = b :: taken ++ after.take (n - (taken.length + 1)) := by
    conv_lhs => rw [heq]
    rw [List.take_append, List.take_of_length_le (by rw [List.length_cons]; omega),
      List.length_cons]
  rw [htake, hsame]

/-- What decodes in a text cut short decodes in the text. -/
theorem decodeUtf8_of_take {n : Nat} (h : (decodeUtf8 (text.take n)).valid = true) :
    decodeUtf8 text = decodeUtf8 (text.take n) := by
  obtain ⟨b, taken, after, heq, -, -, -, hsame⟩ := decodeUtf8_valid h
  have htext : text = b :: taken ++ (after ++ text.drop n) := by
    conv_lhs => rw [← List.take_append_drop n text, heq]
    rw [List.append_assoc]
  conv_lhs => rw [htext]
  exact hsame _

/-- A continuation byte adds six bits. -/
theorem continuation_bits (cp : Nat) (next : UInt8) :
    cp <<< 6 ||| (next &&& 0x3F).toNat = cp * 64 + next.toNat % 64 := by
  have hx : (next &&& 0x3F).toNat = next.toNat % 64 := by
    rw [UInt8.toNat_and]
    exact Nat.and_two_pow_sub_one_eq_mod next.toNat 6
  rw [hx, ← Nat.shiftLeft_add_eq_or_of_lt (Nat.mod_lt _ (by decide)), Nat.shiftLeft_eq]

theorem takeContinuations_lt (need cp n : Nat) (low high : UInt8) (rest : Bytes) :
    ∃ k, (takeContinuations need cp n low high rest).2 = n + k ∧
      (takeContinuations need cp n low high rest).1 < (cp + 1) * 64 ^ k := by
  induction rest generalizing cp n low high with
  | nil => exact ⟨0, rfl, by simp [takeContinuations]⟩
  | cons next rest ih =>
    by_cases hc : n < need ∧ low ≤ next ∧ next ≤ high
    · obtain ⟨k, hk, hlt⟩ := ih (cp <<< 6 ||| (next &&& 0x3F).toNat) (n + 1) 0x80 0xBF
      simp only [takeContinuations, if_pos hc]
      refine ⟨k + 1, by omega, lt_of_lt_of_le hlt ?_⟩
      rw [continuation_bits]
      have hx := Nat.mod_lt next.toNat (show 64 > 0 by decide)
      calc (cp * 64 + next.toNat % 64 + 1) * 64 ^ k
          ≤ ((cp + 1) * 64) * 64 ^ k := Nat.mul_le_mul_right _ (by omega)
        _ = (cp + 1) * 64 ^ (k + 1) := by rw [Nat.mul_assoc, Nat.pow_succ']
    · simp only [takeContinuations, if_neg hc]
      exact ⟨0, rfl, by simp⟩

theorem toNat_and_mask (b : UInt8) : (b &&& 0x1F).toNat = b.toNat % 32 ∧
    (b &&& 0x0F).toNat = b.toNat % 16 ∧ (b &&& 0x07).toNat = b.toNat % 8 := by
  simp only [UInt8.toNat_and]
  exact ⟨Nat.and_two_pow_sub_one_eq_mod b.toNat 5, Nat.and_two_pow_sub_one_eq_mod b.toNat 4,
    Nat.and_two_pow_sub_one_eq_mod b.toNat 3⟩

theorem lead_bits {l : Lead} (h : lead b false = some l) :
    l.need = 2 ∧ l.codePoint < 32 ∨ l.need = 3 ∧ l.codePoint < 16 ∨
      l.need = 4 ∧ (l.codePoint < 4 ∨ l.codePoint = 4 ∧ l.high = 0x8F) := by
  obtain ⟨h5, h4, h3⟩ := toNat_and_mask b
  unfold lead at h
  split at h
  · cases h
    exact Or.inl ⟨rfl, by dsimp only; omega⟩
  · split at h
    · cases h
      exact Or.inr (Or.inl ⟨rfl, by dsimp only; omega⟩)
    · split at h
      · next hrange =>
        cases h
        refine Or.inr (Or.inr ⟨rfl, ?_⟩)
        have hlo : 240 ≤ b.toNat := UInt8.le_iff_toNat_le.mp hrange.1
        have hhi : b.toNat ≤ 244 := UInt8.le_iff_toNat_le.mp hrange.2
        by_cases hf4 : b = 0xF4
        · subst hf4
          exact Or.inr ⟨rfl, rfl⟩
        · have hne : b.toNat ≠ 244 := fun heq => hf4 (UInt8.toNat_inj.mp heq)
          exact Or.inl (by dsimp only; omega)
      · cases h

/-- A sequence that decodes takes at most four bytes. -/
theorem decodeUtf8_length_le (h : (decodeUtf8 text).valid = true) :
    (decodeUtf8 text).length ≤ 4 := by
  unfold decodeUtf8 at h ⊢
  obtain ⟨b, rest, -, ⟨-, heq⟩ | ⟨-, l, hl, -, heq⟩⟩ := decodeSequence_valid h
  · rw [heq]
    dsimp only
    omega
  · have := lead_bits hl
    rw [heq]
    dsimp only
    omega

/-- The last lead allows only second bytes that stay within Unicode. -/
theorem takeContinuations_last (rest : Bytes) (low : UInt8)
    (h : (takeContinuations 4 4 1 low 0x8F rest).2 = 4) (hl : 0x80 ≤ low) :
    (takeContinuations 4 4 1 low 0x8F rest).1 < 0x110000 := by
  cases rest with
  | nil => cases h
  | cons next rest =>
    by_cases hc : 1 < 4 ∧ low ≤ next ∧ next ≤ 0x8F
    · simp only [takeContinuations, if_pos hc, continuation_bits] at h ⊢
      obtain ⟨k, hk, hlt⟩ := takeContinuations_lt 4 (4 * 64 + next.toNat % 64) (1 + 1)
        0x80 0xBF rest
      obtain rfl : k = 2 := by omega
      have hlo : 128 ≤ next.toNat := UInt8.le_iff_toNat_le.mp (UInt8.le_trans hl hc.2.1)
      have hhi : next.toNat ≤ 143 := UInt8.le_iff_toNat_le.mp hc.2.2
      omega
    · simp only [takeContinuations, if_neg hc] at h
      omega

/-- A sequence that decodes makes a Unicode code point. -/
theorem decodeUtf8_codePoint_lt (h : (decodeUtf8 text).valid = true) :
    (decodeUtf8 text).codePoint < 0x110000 := by
  unfold decodeUtf8 at h ⊢
  obtain ⟨b, rest, -, ⟨-, heq⟩ | ⟨-, l, hl, hneed, heq⟩⟩ := decodeSequence_valid h <;> rw [heq]
  · have := b.toNat_lt
    dsimp only
    omega
  · dsimp only
    obtain ⟨k, hk, hlt⟩ := takeContinuations_lt l.need l.codePoint 1 l.low l.high rest
    obtain ⟨h2, hbits⟩ | ⟨h3, hbits⟩ | ⟨h4, hbits | ⟨hbits, hhigh⟩⟩ := lead_bits hl
    · obtain rfl : k = 1 := by omega
      omega
    · obtain rfl : k = 2 := by omega
      omega
    · obtain rfl : k = 3 := by omega
      omega
    · rw [h4, hbits, hhigh] at hneed ⊢
      exact takeContinuations_last rest l.low hneed (lead_low_high hl).1

/-! ## Atoms -/

/-- `UTF8Atom`. -/
structure Utf8Atom where
  cp : Nat
  len : Nat
deriving DecidableEq, Repr

/-- `invalid_atom_base`. -/
def invalidAtomBase : Nat := 0x110000

/-- `decode_utf8_atom` at the start of a text that is not empty. -/
def decodeUtf8Atom (text : Bytes) : Utf8Atom :=
  let sequence := decodeUtf8 text
  if sequence.valid then ⟨sequence.codePoint, sequence.length⟩
  else ⟨invalidAtomBase + (text.headD 0).toNat, 1⟩

/-- The text after its first atom. -/
def dropAtom (text : Bytes) : Bytes := text.drop (decodeUtf8Atom text).len

theorem atom_len_pos (text : Bytes) : 0 < (decodeUtf8Atom text).len := by
  unfold decodeUtf8Atom
  dsimp only
  split
  · next h =>
    obtain ⟨b, taken, after, -, -, -, hlen, -⟩ := decodeUtf8_valid h
    dsimp only
    omega
  · exact Nat.one_pos

theorem atom_len_le (h : text ≠ []) : (decodeUtf8Atom text).len ≤ text.length := by
  unfold decodeUtf8Atom
  dsimp only
  split
  · next hv =>
    obtain ⟨b, taken, after, heq, -, -, hlen, -⟩ := decodeUtf8_valid hv
    have := congrArg List.length heq
    simp only [List.length_append, List.length_cons] at this
    dsimp only
    omega
  · exact List.length_pos_of_ne_nil h

theorem length_dropAtom_lt (h : text ≠ []) : (dropAtom text).length < text.length := by
  have h1 := atom_len_pos text
  have h2 := atom_len_le h
  rw [dropAtom, List.length_drop]
  omega

/-- What is inside an atom continues it. -/
theorem isContinuation_of_atom {i : Nat} (h0 : 0 < i) (hi : i < (decodeUtf8Atom text).len)
    (hb : text[i]? = some b) : IsContinuation b := by
  unfold decodeUtf8Atom at hi
  dsimp only at hi
  split at hi
  · next hv =>
    obtain ⟨a, taken, after, heq, -, hall, hlen, -⟩ := decodeUtf8_valid hv
    dsimp only at hi
    obtain ⟨j, rfl⟩ := Nat.exists_eq_add_of_lt h0
    rw [heq, Nat.zero_add, List.cons_append, List.getElem?_cons_succ,
      List.getElem?_append_left (by omega)] at hb
    exact hall b (List.mem_of_getElem? hb)
  · dsimp only at hi
    omega

/-- The texts that are left after some atoms. -/
inductive AtomSuffix : Bytes → Bytes → Prop where
  | refl (text : Bytes) : AtomSuffix text text
  | step {text rest : Bytes} (h : text ≠ []) (hs : AtomSuffix (dropAtom text) rest) :
    AtomSuffix text rest

/-- A text may be cut before a byte that continues nothing, and at its end. -/
theorem atomSuffix_append (front back : Bytes)
    (h : ∀ b ∈ back.head?, ¬IsContinuation b) : AtomSuffix (front ++ back) back := by
  induction hn : front.length using Nat.strong_induction_on generalizing front with
  | _ n ih =>
    subst hn
    cases front with
    | nil => exact .refl back
    | cons a front =>
      have hne : a :: front ++ back ≠ [] := nofun
      by_cases hle : (decodeUtf8Atom (a :: front ++ back)).len ≤ (a :: front).length
      · refine .step hne ?_
        rw [dropAtom, List.drop_append_of_le_length hle]
        refine ih _ ?_ _ rfl
        have := atom_len_pos (a :: front ++ back)
        simp only [List.length_drop, List.length_cons] at hle ⊢
        omega
      · exfalso
        have hlen := atom_len_le hne
        rw [List.length_append] at hlen
        cases back with
        | nil =>
          simp only [List.length_nil] at hlen
          omega
        | cons b back =>
          refine h b rfl ?_
          refine isContinuation_of_atom (Nat.succ_pos front.length) (Nat.lt_of_not_le hle) ?_
          simp

/-! ## Valid text -/

/-- `find_invalid_utf8`, from the position `at'` on. -/
def findInvalidUtf8 (at' : Nat) (text : Bytes) : Option Nat :=
  if _h : text = [] then none
  else
    let atom := decodeUtf8Atom text
    if atom.cp ≥ invalidAtomBase then some at'
    else findInvalidUtf8 (at' + atom.len) (text.drop atom.len)
termination_by text.length
decreasing_by exact length_dropAtom_lt _h

/-- A text of sequences that all decode. -/
inductive ValidUtf8 : Bytes → Prop where
  | nil : ValidUtf8 []
  | cons {text : Bytes} (h : (decodeUtf8 text).valid = true)
    (hs : ValidUtf8 (text.drop (decodeUtf8 text).length)) : ValidUtf8 text

theorem decodeUtf8Atom_of_valid (h : (decodeUtf8 text).valid = true) :
    decodeUtf8Atom text = ⟨(decodeUtf8 text).codePoint, (decodeUtf8 text).length⟩ := by
  simp only [decodeUtf8Atom, h, if_true]

theorem valid_of_atom_lt (h : (decodeUtf8Atom text).cp < invalidAtomBase) :
    (decodeUtf8 text).valid = true := by
  by_contra hn
  simp only [decodeUtf8Atom, hn, if_false] at h
  omega

theorem validUtf8_of_findInvalidUtf8 {at' : Nat} (h : findInvalidUtf8 at' text = none) :
    ValidUtf8 text := by
  induction hn : text.length using Nat.strong_induction_on generalizing text at' with
  | _ n ih =>
    subst hn
    rw [findInvalidUtf8] at h
    split at h
    · next hnil =>
      rw [hnil]
      exact .nil
    · next hne =>
      dsimp only at h
      split at h
      · cases h
      · next hlt =>
        have hv := valid_of_atom_lt (Nat.lt_of_not_le hlt)
        refine .cons hv ?_
        have hrest := ih _ (length_dropAtom_lt hne) h rfl
        rwa [decodeUtf8Atom_of_valid hv] at hrest

theorem decodeUtf8_ascii (hb : b < 0x80) (rest : Bytes) :
    decodeUtf8 (b :: rest) = ⟨b.toNat, 1, true⟩ := by
  simp only [decodeUtf8, decodeSequence, hb, if_true]

theorem ValidUtf8.drop (h : ValidUtf8 text) (hne : text ≠ []) :
    (decodeUtf8 text).valid = true ∧ ValidUtf8 (text.drop (decodeUtf8 text).length) := by
  cases h with
  | nil => exact absurd rfl hne
  | cons hv hs => exact ⟨hv, hs⟩

theorem ValidUtf8.tail {rest : Bytes} (h : ValidUtf8 (b :: rest)) (hb : b < 0x80) :
    ValidUtf8 rest := by
  have := (h.drop (List.cons_ne_nil b rest)).2
  rwa [decodeUtf8_ascii hb, List.drop_one] at this

/-- Valid text does not begin inside a sequence. -/
theorem ValidUtf8.not_continuation {rest : Bytes} (h : ValidUtf8 (b :: rest)) :
    ¬IsContinuation b := by
  obtain ⟨hv, -⟩ := h.drop (List.cons_ne_nil b rest)
  obtain ⟨a, taken, after, heq, ha, -⟩ := decodeUtf8_valid hv
  rw [List.cons_append, List.cons.injEq] at heq
  rw [heq.1]
  exact ha

theorem ValidUtf8.append {front back : Bytes} (h : ValidUtf8 front) (h' : ValidUtf8 back) :
    ValidUtf8 (front ++ back) := by
  induction h with
  | nil => exact h'
  | @cons text hv _ ih =>
    obtain ⟨a, taken, after, heq, -, -, hlen, hsame⟩ := decodeUtf8_valid hv
    have hdecode : decodeUtf8 (text ++ back) = decodeUtf8 text := by
      conv_lhs => rw [heq]
      rw [List.append_assoc]
      exact hsame (after ++ back)
    have hle : (decodeUtf8 text).length ≤ text.length := by
      have := congrArg List.length heq
      simp only [List.length_append, List.length_cons] at this
      omega
    refine .cons (hdecode ▸ hv) ?_
    rw [hdecode, List.drop_append_of_le_length hle]
    exact ih

/-- A cut at an ASCII byte leaves valid text on both sides. -/
theorem ValidUtf8.split {front back : Bytes} (h : ValidUtf8 (front ++ b :: back))
    (hb : b < 0x80) : ValidUtf8 front ∧ ValidUtf8 back := by
  induction hn : front.length using Nat.strong_induction_on generalizing front with
  | _ n ih =>
    subst hn
    cases front with
    | nil => exact ⟨.nil, h.tail hb⟩
    | cons a front =>
      obtain ⟨hv, hs⟩ := h.drop nofun
      obtain ⟨a', taken, after, heq, -, hall, hlen, hsame⟩ := decodeUtf8_valid hv
      rw [List.cons_append, List.cons_append, List.cons.injEq] at heq
      obtain ⟨rfl, heq⟩ := heq
      have hle : taken.length ≤ front.length := by
        by_contra hlt
        have hbyte : taken[front.length]? = some b := by
          have hget := congrArg (fun l => l[front.length]?) heq
          simp only [List.getElem?_append_right (Nat.le_refl _), Nat.sub_self,
            List.getElem?_cons_zero, List.getElem?_append_left (Nat.lt_of_not_le hlt)] at hget
          exact hget.symm
        exact absurd (UInt8.lt_of_le_of_lt (hall b (List.mem_of_getElem? hbyte)).1 hb)
          (UInt8.lt_irrefl _)
      obtain ⟨front', rfl⟩ : ∃ front', front = taken ++ front' := by
        refine ⟨front.drop taken.length, ?_⟩
        have htake := congrArg (List.take taken.length) heq
        rw [List.take_append_of_le_length hle, List.take_left] at htake
        conv_lhs => rw [← List.take_append_drop taken.length front, htake]
      have hdecode := hsame front'
      rw [hlen] at hs
      have hdrop : (a :: (taken ++ front') ++ b :: back).drop (taken.length + 1) =
          front' ++ b :: back := by
        simp
      rw [hdrop] at hs
      obtain ⟨hfront, hback⟩ := ih front'.length
        (by simp only [List.length_cons, List.length_append]; omega) hs rfl
      refine ⟨ValidUtf8.cons (by rwa [← List.cons_append, hdecode]) ?_, hback⟩
      rw [← List.cons_append, hdecode, hlen]
      simpa using hfront

/-! ## Rests of a text -/

variable {x y z : Bytes}

/-- What comes after some atoms is the end of the text. -/
theorem AtomSuffix.suffix (h : AtomSuffix x y) : y <:+ x := by
  induction h with
  | refl => exact List.suffix_refl _
  | step _ _ ih => exact ih.trans (List.drop_suffix _ _)

theorem atomSuffix_iterate (n : Nat) (x : Bytes) : AtomSuffix x (dropAtom^[n] x) := by
  induction n generalizing x with
  | zero => exact .refl x
  | succ n ih =>
    rw [Function.iterate_succ_apply]
    by_cases hx : x = []
    · subst hx
      exact ih []
    · exact .step hx (ih _)

theorem atomSuffix_iff : AtomSuffix x y ↔ ∃ n, dropAtom^[n] x = y := by
  constructor
  · intro h
    induction h with
    | refl => exact ⟨0, rfl⟩
    | step _ _ ih =>
      obtain ⟨n, hn⟩ := ih
      exact ⟨n + 1, hn⟩
  · rintro ⟨n, rfl⟩
    exact atomSuffix_iterate n x

theorem AtomSuffix.nil_left (h : AtomSuffix [] y) : y = [] := by
  cases h with
  | refl => rfl
  | step hne _ => exact absurd rfl hne

theorem AtomSuffix.cases_length (h : AtomSuffix x y) :
    x = y ∨ x ≠ [] ∧ AtomSuffix (dropAtom x) y := by
  cases h with
  | refl => exact Or.inl rfl
  | step hne hs => exact Or.inr ⟨hne, hs⟩

/-- The number of atoms of a text. -/
def atomCount (text : Bytes) : Nat :=
  if _h : text = [] then 0 else atomCount (dropAtom text) + 1
termination_by text.length
decreasing_by exact length_dropAtom_lt _h

/-- Valid text is taken as its atoms, whatever follows it. -/
theorem dropAtom_iterate_valid (h : ValidUtf8 x) (y : Bytes) :
    dropAtom^[atomCount x] (x ++ y) = y := by
  induction h with
  | nil =>
    rw [atomCount]
    simp
  | @cons text hv _ ih =>
    obtain ⟨a, taken, after, heq, -, -, hlen, hsame⟩ := decodeUtf8_valid hv
    have hne : text ≠ [] := by
      rw [heq]
      nofun
    have hdecode : decodeUtf8 (text ++ y) = decodeUtf8 text := by
      conv_lhs => rw [heq, List.append_assoc]
      exact hsame (after ++ y)
    have hle : (decodeUtf8 text).length ≤ text.length := by
      have := congrArg List.length heq
      simp only [List.length_append, List.length_cons] at this
      omega
    have hdrop : dropAtom text = text.drop (decodeUtf8 text).length := by
      rw [dropAtom, decodeUtf8Atom_of_valid hv]
    have hdrop' : dropAtom (text ++ y) = dropAtom text ++ y := by
      have hv' : (decodeUtf8 (text ++ y)).valid = true := hdecode ▸ hv
      rw [hdrop, dropAtom, decodeUtf8Atom_of_valid hv', hdecode]
      exact List.drop_append_of_le_length hle
    rw [atomCount, dif_neg hne, Function.iterate_succ_apply, hdrop', hdrop]
    exact ih

/-- Valid text occurs only at the start of an atom. -/
theorem atomSuffix_of_valid (h : ValidUtf8 y) (hne : y ≠ []) (front z : Bytes) :
    AtomSuffix (front ++ (y ++ z)) (y ++ z) := by
  refine atomSuffix_append front (y ++ z) fun b hb => ?_
  cases y with
  | nil => exact absurd rfl hne
  | cons c y =>
    cases hb
    exact h.not_continuation

end Kotatsu.Support
