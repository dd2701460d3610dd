import Kotatsu.Support.IsUtf8
import Kotatsu.Support.WellFormed

/-!
# Text that is well-formed

`is_utf8` passes the concatenations of well-formed sequences, and
`replace_invalid_utf8` makes one of every text: it keeps the well-formed sequences and
puts one `U+FFFD` for each maximal subpart of what is not.
-/

namespace Kotatsu.Support

open Kotatsu.Core

variable {text rest seq : Bytes}

/-! ## Concatenations -/

/-- Well-formed sequences one behind the other. -/
def WellFormedText (text : Bytes) : Prop :=
  ∃ seqs : List Bytes, (∀ seq ∈ seqs, WellFormedSequence false seq) ∧ text = seqs.flatten

theorem wellFormedText_nil : WellFormedText [] := ⟨[], by simp, rfl⟩

theorem WellFormedText.cons (h : WellFormedSequence false seq) (hrest : WellFormedText rest) :
    WellFormedText (seq ++ rest) := by
  obtain ⟨seqs, hall, rfl⟩ := hrest
  exact ⟨seq :: seqs, List.forall_mem_cons.mpr ⟨h, hall⟩, rfl⟩

/-- A text is well-formed when its first sequence decodes and the rest is well-formed. -/
theorem wellFormedText_iff (hne : text ≠ []) :
    WellFormedText text ↔
      (decodeUtf8 text).valid = true ∧ WellFormedText (text.drop (decodeUtf8 text).length) := by
  constructor
  · rintro ⟨seqs, hall, rfl⟩
    cases seqs with
    | nil => exact absurd rfl hne
    | cons seq seqs =>
      rw [List.forall_mem_cons] at hall
      obtain ⟨hvalid, hlen⟩ := decodeSequence_of_wellFormed hall.1 seqs.flatten
      rw [List.flatten_cons, decodeUtf8]
      refine ⟨hvalid, seqs, hall.2, ?_⟩
      rw [hlen, List.drop_left]
  · rintro ⟨hvalid, hrest⟩
    have h := WellFormedText.cons (wellFormed_of_valid hvalid) hrest
    rwa [← decodeUtf8, List.take_append_drop] at h

theorem wellFormedText_append (h : WellFormedSequence false seq) :
    WellFormedText (seq ++ rest) ↔ WellFormedText rest := by
  refine ⟨fun htext => ?_, WellFormedText.cons h⟩
  have hne : seq ++ rest ≠ [] := List.append_ne_nil_of_left_ne_nil (wellFormed_ne_nil h) rest
  have hdrop := ((wellFormedText_iff hne).mp htext).2
  rwa [decodeUtf8, (decodeSequence_of_wellFormed h rest).2, List.drop_left] at hdrop

/-- An ASCII byte is a sequence. -/
theorem wellFormed_ascii {b : UInt8} (h : b < 0x80) : WellFormedSequence false [b] := by
  rw [wellFormed_cons, tails_eq, if_pos h]
  exact ⟨[], List.mem_cons_self, .nil⟩

theorem wellFormedText_ascii_append {front : Bytes} (h : ∀ b ∈ front, b.toNat < 0x80) :
    WellFormedText (front ++ rest) ↔ WellFormedText rest := by
  induction front with
  | nil => exact Iff.rfl
  | cons b front ih =>
    rw [List.forall_mem_cons] at h
    have hb : WellFormedText ([b] ++ (front ++ rest)) ↔ WellFormedText (front ++ rest) :=
      wellFormedText_append (wellFormed_ascii (UInt8.lt_iff_toNat_lt.mpr h.1))
    exact hb.trans (ih h.2)

/-! ## What passes -/

/-- The loop passes what is well-formed. -/
theorem isUtf8From_iff (text : Bytes) : isUtf8From text = true ↔ WellFormedText text := by
  fun_induction isUtf8From text with
  | case1 => exact iff_of_true rfl wellFormedText_nil
  | case2 text hne hword ih =>
    have hascii := ascii_of_word (List.length_take_of_le hword.1) hword.2
    rw [ih, ← wellFormedText_ascii_append hascii, List.take_append_drop]
  | case3 text hne hword hvalid ih =>
    rw [ih, wellFormedText_iff hne]
    exact (and_iff_right hvalid).symm
  | case4 text hne hword hinvalid =>
    exact iff_of_false Bool.false_ne_true fun h => hinvalid ((wellFormedText_iff hne).mp h).1

/-- `is_utf8` passes what is well-formed. -/
theorem isUtf8_iff (text : Bytes) : isUtf8 text = true ↔ WellFormedText text := by
  rw [isUtf8_eq]
  split
  · exact isUtf8From_iff text
  · next hnone =>
    have hnil := (wellFormedText_ascii_append (ascii_of_any hnone)).mpr wellFormedText_nil
    rw [List.append_nil] at hnil
    exact iff_of_true rfl hnil

/-! ## Replacements -/

/-- `U+FFFD`. -/
def replacementCharacter : Bytes := [0xEF, 0xBF, 0xBD]

/-- `replace_invalid_utf8`. -/
def replaceInvalidUtf8 (text : Bytes) : Bytes :=
  if _h : text = [] then []
  else
    let sequence := decodeUtf8 text
    (if sequence.valid then text.take sequence.length else replacementCharacter) ++
      replaceInvalidUtf8 (text.drop sequence.length)
termination_by text.length
decreasing_by
  have := decodeSequence_length false _h
  rw [List.length_drop]
  change text.length - (decodeSequence text false).length < text.length
  omega

/-- A text with a replacement for each maximal subpart of what is not well-formed. -/
inductive Replaced : Bytes → Bytes → Prop where
  | nil : Replaced [] []
  | sequence {seq rest out : Bytes} (h : WellFormedSequence false seq) (hrest : Replaced rest out) :
    Replaced (seq ++ rest) (seq ++ out)
  | subpart {sub rest out : Bytes} (h : MaximalSubpart false sub (sub ++ rest))
    (hnone : ∀ seq, seq <+: sub ++ rest → ¬WellFormedSequence false seq)
    (hrest : Replaced rest out) : Replaced (sub ++ rest) (replacementCharacter ++ out)

/-- A text whose first sequence does not decode begins with none. -/
theorem not_wellFormed_of_invalid (h : (decodeUtf8 text).valid = false) (hseq : seq <+: text) :
    ¬WellFormedSequence false seq := by
  intro hwell
  obtain ⟨rest, rfl⟩ := hseq
  rw [decodeUtf8, (decodeSequence_of_wellFormed hwell rest).1] at h
  cases h

/-- A text has one maximal subpart. -/
theorem MaximalSubpart.unique {surrogates : Bool} {sub sub' : Bytes}
    (h : MaximalSubpart surrogates sub text) (h' : MaximalSubpart surrogates sub' text) :
    sub = sub' := by
  obtain ⟨hpre, hne, hcases⟩ := h
  obtain ⟨hpre', hne', hcases'⟩ := h'
  have hlen : sub.length = sub'.length := by
    obtain ⟨hbegins, hlongest⟩ | ⟨hone, hnone⟩ := hcases
    · obtain ⟨hbegins', hlongest'⟩ | ⟨-, hnone'⟩ := hcases'
      · exact Nat.le_antisymm (hlongest' sub hpre hbegins) (hlongest sub' hpre' hbegins')
      · exact absurd (hnone' sub hpre hbegins) hne
    · obtain ⟨hbegins', -⟩ | ⟨hone', -⟩ := hcases'
      · exact absurd (hnone sub' hpre' hbegins') hne'
      · rw [hone, hone']
  exact List.IsPrefix.eq_of_length (List.prefix_of_prefix_length_le hpre hpre' hlen.le) hlen

theorem replaced_replaceInvalidUtf8 (text : Bytes) : Replaced text (replaceInvalidUtf8 text) := by
  fun_induction replaceInvalidUtf8 text with
  | case1 => exact .nil
  | case2 text hne sequence ih =>
    have htext : text = text.take sequence.length ++ text.drop sequence.length :=
      (List.take_append_drop _ _).symm
    by_cases hvalid : sequence.valid = true
    · rw [if_pos hvalid]
      conv_lhs => rw [htext]
      exact .sequence (wellFormed_of_valid hvalid) ih
    · rw [if_neg hvalid]
      have hinvalid : (decodeUtf8 text).valid = false := Bool.eq_false_iff.mpr hvalid
      conv_lhs => rw [htext]
      refine .subpart ?_ ?_ ih
      · rw [List.take_append_drop]
        exact maximalSubpart_of_invalid hne hinvalid
      · rw [List.take_append_drop]
        exact fun seq hseq => not_wellFormed_of_invalid hinvalid hseq

/-- `replace_invalid_utf8` is what has the replacements. -/
theorem replaced_iff {out : Bytes} : Replaced text out ↔ out = replaceInvalidUtf8 text := by
  constructor
  · intro h
    induction h with
    | nil => rw [replaceInvalidUtf8, dif_pos rfl]
    | @sequence seq rest out hseq _ ih =>
      obtain ⟨hvalid, hlen⟩ := decodeSequence_of_wellFormed hseq rest
      have hne : seq ++ rest ≠ [] :=
        List.append_ne_nil_of_left_ne_nil (wellFormed_ne_nil hseq) rest
      rw [replaceInvalidUtf8, dif_neg hne, decodeUtf8]
      dsimp only
      rw [hlen, if_pos hvalid, List.take_left, List.drop_left, ih]
    | @subpart sub rest out hsub hnone _ ih =>
      have hne : sub ++ rest ≠ [] := List.append_ne_nil_of_left_ne_nil hsub.2.1 rest
      have hinvalid : (decodeSequence (sub ++ rest) false).valid = false := by
        rw [Bool.eq_false_iff]
        exact fun hvalid => hnone _ (List.take_prefix _ _) (wellFormed_of_valid hvalid)
      have htake := hsub.unique (maximalSubpart_of_invalid hne hinvalid)
      have hlen : (decodeSequence (sub ++ rest) false).length = sub.length := by
        have hle := (decodeSequence_length false hne).2
        have h := congrArg List.length htake
        rw [List.length_take, Nat.min_eq_left hle] at h
        exact h.symm
      rw [replaceInvalidUtf8, dif_neg hne, decodeUtf8]
      dsimp only
      rw [hlen, hinvalid, List.drop_left, ih]
      rfl
  · rintro rfl
    exact replaced_replaceInvalidUtf8 text

theorem wellFormed_replacementCharacter : WellFormedSequence false replacementCharacter :=
  ⟨[(0xEE, 0xEF), trailing, trailing], by decide,
    .cons (by decide) (.cons (by decide) (.cons (by decide) .nil))⟩

/-- A text with its replacements is well-formed. -/
theorem Replaced.wellFormed {out : Bytes} (h : Replaced text out) : WellFormedText out := by
  induction h with
  | nil => exact wellFormedText_nil
  | sequence hseq _ ih => exact ih.cons hseq
  | subpart _ _ _ ih => exact ih.cons wellFormed_replacementCharacter

/-- A well-formed text needs none. -/
theorem WellFormedText.replaced (h : WellFormedText text) : Replaced text text := by
  obtain ⟨seqs, hall, rfl⟩ := h
  induction seqs with
  | nil => exact .nil
  | cons seq seqs ih =>
    rw [List.forall_mem_cons] at hall
    exact .sequence hall.1 (ih hall.2)

/-- Whether a text is well-formed, and how what is not is replaced. -/
theorem utf8_spec (text : Bytes) :
    (isUtf8 text = true ↔ WellFormedText text) ∧
      WellFormedText (replaceInvalidUtf8 text) ∧
      (replaceInvalidUtf8 text = text ↔ WellFormedText text) ∧
      replaceInvalidUtf8 (replaceInvalidUtf8 text) = replaceInvalidUtf8 text ∧
      (∀ out, Replaced text out ↔ out = replaceInvalidUtf8 text) ∧
      (text = [] ∨ 0 < (decodeUtf8 text).length) ∧
      (decodeUtf8 text).length ≤ text.length := by
  have hwell := (replaced_replaceInvalidUtf8 text).wellFormed
  have hsame {text : Bytes} (h : WellFormedText text) : replaceInvalidUtf8 text = text :=
    (replaced_iff.mp h.replaced).symm
  refine ⟨isUtf8_iff text, hwell, ⟨fun h => h ▸ hwell, hsame⟩, hsame hwell,
    fun out => replaced_iff, ?_⟩
  by_cases hne : text = []
  · subst hne
    exact ⟨.inl rfl, Nat.le_refl 0⟩
  · obtain ⟨hpos, hle⟩ := decodeSequence_length false hne
    exact ⟨.inr hpos, hle⟩

end Kotatsu.Support
