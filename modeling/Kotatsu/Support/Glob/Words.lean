import Kotatsu.Support.Glob.Matcher

/-!
# Literals compared by words

A literal of at most 16 bytes is packed right-aligned into two words with their
masks. The bytes that a masked word keeps are the last ones of the input, so the
comparison of words says whether the input ends with the literal.
-/

namespace Kotatsu.Support.Glob

open Kotatsu.Core

/-! ## Words as bytes -/

private theorem and_byte_word {a b m n : Nat} (ha : a < 256) (hb : b < 256) :
    (a + 256 * m) &&& (b + 256 * n) = (a &&& b) + 256 * (m &&& n) := by
  have hlow : ((a + 256 * m) &&& (b + 256 * n)) % 2 ^ 8 = a &&& b := by
    rw [Nat.and_mod_two_pow]
    congr 1 <;> omega
  have hhigh : ((a + 256 * m) &&& (b + 256 * n)) / 2 ^ 8 = m &&& n := by
    rw [Nat.and_div_two_pow]
    congr 1 <;> omega
  omega

/-- Words are masked byte by byte. -/
theorem loadWord_and (xs ms : Bytes) (h : xs.length = ms.length) :
    loadWord xs &&& loadWord ms = loadWord (xs.zipWith (· &&& ·) ms) := by
  induction xs generalizing ms with
  | nil => simp only [loadWord, Nat.zero_and, List.zipWith_nil_left]
  | cons x xs ih =>
    cases ms with
    | nil => cases h
    | cons m ms =>
      rw [loadWord, loadWord, and_byte_word x.toNat_lt m.toNat_lt,
        ih ms (Nat.succ.inj h), List.zipWith_cons_cons, loadWord, UInt8.toNat_and]

/-- As many bytes in one word are the same bytes. -/
theorem loadWord_injective {xs ys : Bytes} (hlen : xs.length = ys.length)
    (h : loadWord xs = loadWord ys) : xs = ys := by
  induction xs generalizing ys with
  | nil => exact (List.eq_nil_of_length_eq_zero hlen.symm).symm
  | cons x xs ih =>
    cases ys with
    | nil => cases hlen
    | cons y ys =>
      rw [loadWord, loadWord] at h
      have hx := x.toNat_lt
      have hy := y.toNat_lt
      have hbyte : x = y := UInt8.toNat_inj.mp (by omega)
      rw [hbyte, ih (Nat.succ.inj hlen) (by omega)]

private theorem masked_eq_iff {xs ms vs : Bytes} (hm : xs.length = ms.length)
    (hv : xs.length = vs.length) :
    loadWord xs &&& loadWord ms = loadWord vs ↔ xs.zipWith (· &&& ·) ms = vs := by
  rw [loadWord_and xs ms hm]
  refine ⟨fun h => loadWord_injective ?_ h, fun h => by rw [h]⟩
  rw [List.length_zipWith, ← hm, Nat.min_self, hv]

private theorem zipWith_zeros (xs : Bytes) :
    xs.zipWith (· &&& ·) (List.replicate xs.length 0) = List.replicate xs.length 0 := by
  induction xs with
  | nil => rfl
  | cons x xs ih =>
    rw [List.length_cons, List.replicate_succ, List.zipWith_cons_cons, ih]
    congr 1
    exact UInt8.and_zero

private theorem zipWith_ones (xs : Bytes) :
    xs.zipWith (· &&& ·) (List.replicate xs.length 0xFF) = xs := by
  induction xs with
  | nil => rfl
  | cons x xs ih =>
    rw [List.length_cons, List.replicate_succ, List.zipWith_cons_cons, ih]
    congr 1
    exact UInt8.and_neg_one

variable {xs text input : Bytes}

/-- A mask over the last bytes keeps them. -/
private theorem masked_suffix_iff (h : text.length ≤ xs.length) :
    xs.zipWith (· &&& ·) (List.replicate (xs.length - text.length) 0 ++
      List.replicate text.length 0xFF) =
      List.replicate (xs.length - text.length) 0 ++ text ↔ text <:+ xs := by
  obtain ⟨front, back, rfl, hback⟩ : ∃ front back, xs = front ++ back ∧
      back.length = text.length := by
    refine ⟨xs.take (xs.length - text.length), xs.drop (xs.length - text.length),
      (List.take_append_drop _ _).symm, ?_⟩
    rw [List.length_drop]
    omega
  have hfront : (front ++ back).length - text.length = front.length := by
    rw [List.length_append]
    omega
  rw [hfront, ← hback, List.zipWith_append (by rw [List.length_replicate]), zipWith_zeros,
    zipWith_ones, List.append_cancel_left_eq]
  constructor
  · rintro rfl
    exact List.suffix_append front back
  · rintro ⟨more, hmore⟩
    exact (List.append_inj_right' hmore hback.symm).symm

/-! ## Packed literals -/

private theorem suffix_drop_iff {n : Nat} (h : n ≤ input.length) (ht : text.length ≤ n) :
    text <:+ input.drop (input.length - n) ↔ text <:+ input := by
  constructor
  · exact fun hs => hs.trans (List.drop_suffix _ _)
  · intro hs
    refine List.suffix_of_suffix_length_le hs (List.drop_suffix _ _) ?_
    rw [List.length_drop]
    omega

/-- The comparison of one word. -/
theorem lastWord_iff (ht : text.length ≤ 8) (hi : 8 ≤ input.length) :
    loadWord (input.drop (input.length - 8)) &&& (packLiteral text).mask =
      (packLiteral text).word ↔ text <:+ input := by
  obtain ⟨last, hlast⟩ : ∃ last, last = input.drop (input.length - 8) := ⟨_, rfl⟩
  have hlen : last.length = 8 := by
    rw [hlast, List.length_drop]
    omega
  have hdrop (b : UInt8) (tail : Bytes) :
      (List.replicate (16 - text.length) b ++ tail).drop 8 =
        List.replicate (8 - text.length) b ++ tail := by
    rw [List.drop_append_of_le_length (by rw [List.length_replicate]; omega),
      List.drop_replicate, show 16 - text.length - 8 = 8 - text.length by omega]
  have hword : (packLiteral text).word =
      loadWord (List.replicate (8 - text.length) 0 ++ text) := by
    rw [packLiteral, if_pos (by omega)]
    dsimp only
    rw [hdrop]
  have hmask : (packLiteral text).mask =
      loadWord (List.replicate (8 - text.length) 0 ++ List.replicate text.length 0xFF) := by
    rw [packLiteral, if_pos (by omega)]
    dsimp only
    rw [hdrop]
  rw [hword, hmask, ← hlast, ← hlen, masked_eq_iff (by simp; omega) (by simp; omega),
    masked_suffix_iff (by omega), hlast, suffix_drop_iff hi ht]

/-- The comparison of two words. -/
private theorem twoWords_iff (ht : text.length ≤ 16) (hi : 16 ≤ input.length) :
    (loadWord (input.drop (input.length - 8)) &&& (packLiteral text).mask =
        (packLiteral text).word ∧
      loadWord ((input.drop (input.length - 16)).take 8) &&& (packLiteral text).leadMask =
        (packLiteral text).leadWord) ↔ text <:+ input := by
  obtain ⟨last, hlast⟩ : ∃ last, last = input.drop (input.length - 16) := ⟨_, rfl⟩
  have hlen : last.length = 16 := by
    rw [hlast, List.length_drop]
    omega
  have htail : input.drop (input.length - 8) = last.drop 8 := by
    rw [hlast, List.drop_drop]
    congr 1
    omega
  obtain ⟨value, hvalue⟩ : ∃ value, value = List.replicate (16 - text.length) 0 ++ text :=
    ⟨_, rfl⟩
  obtain ⟨mask, hmask⟩ : ∃ mask, mask = List.replicate (16 - text.length) (0 : UInt8) ++
      List.replicate text.length 0xFF := ⟨_, rfl⟩
  have hv : value.length = 16 := by
    rw [hvalue, List.length_append, List.length_replicate]
    omega
  have hm : mask.length = 16 := by
    rw [hmask, List.length_append, List.length_replicate, List.length_replicate]
    omega
  have hpack : packLiteral text = ⟨text, loadWord (value.drop 8), loadWord (mask.drop 8),
      loadWord (value.take 8), loadWord (mask.take 8)⟩ := by
    rw [packLiteral, if_pos ht, hvalue, hmask]
  rw [hpack, htail, ← hlast]
  dsimp only
  rw [masked_eq_iff (by rw [List.length_drop, List.length_drop]; omega)
    (by rw [List.length_drop, List.length_drop]; omega),
    masked_eq_iff (by rw [List.length_take, List.length_take]; omega)
    (by rw [List.length_take, List.length_take]; omega)]
  have hwhole : last.zipWith (· &&& ·) mask = value ↔
      (last.drop 8).zipWith (· &&& ·) (mask.drop 8) = value.drop 8 ∧
      (last.take 8).zipWith (· &&& ·) (mask.take 8) = value.take 8 := by
    rw [← List.drop_zipWith, ← List.take_zipWith]
    constructor
    · rintro rfl
      exact ⟨rfl, rfl⟩
    · rintro ⟨hd, ht'⟩
      rw [← List.take_append_drop 8 (last.zipWith _ mask), hd, ht', List.take_append_drop]
  rw [← hwhole, hvalue, hmask, ← hlen, masked_suffix_iff (by omega), hlast,
    suffix_drop_iff hi ht]

theorem text_packLiteral (text : Bytes) : (packLiteral text).text = text := by
  rw [packLiteral]
  split <;> rfl

/-- `PackedLiteral::matches` says whether the input ends with the literal. -/
theorem matches_packLiteral (text input : Bytes) :
    (packLiteral text).matches input = true ↔ text <:+ input := by
  rw [PackedLiteral.matches, text_packLiteral]
  dsimp only
  split
  · next hlt =>
    refine iff_of_false Bool.false_ne_true fun hs => ?_
    exact absurd hs.length_le (by omega)
  · split
    · next hle h8 =>
      rw [decide_eq_true_eq]
      exact lastWord_iff h8.1 h8.2
    · split
      · next h16 =>
        rw [Bool.and_eq_true, decide_eq_true_eq, decide_eq_true_eq]
        exact twoWords_iff h16.1 h16.2
      · exact List.isSuffixOf_iff_suffix

/-- No literal is the empty one. -/
theorem packLiteral_nil : packLiteral [] = {} := by decide

end Kotatsu.Support.Glob
