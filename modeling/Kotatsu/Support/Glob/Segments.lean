import Kotatsu.Support.Glob.Tokens

/-!
# Segments against input segments

A path is read as the segments between its separators. A segment of an arm that is no
whole `**` takes one of them, and the three ways it is matched in, as one literal, as
a literal around a star, and token by token, say the same.
-/

namespace Kotatsu.Support.Glob

open Kotatsu.Core

/-! ## Input segments -/

theorem segmentEnd_append {y : Bytes} (hy : slash ∉ y) {after : Bytes}
    (hafter : after = [] ∨ after.head? = some slash) : segmentEnd (y ++ after) = (y, after) := by
  have hall : ∀ b ∈ y, decide (b ≠ slash) = true := by
    intro b hb
    rw [decide_eq_true_eq]
    rintro rfl
    exact hy hb
  have htake : after.takeWhile (· ≠ slash) = [] ∧ after.dropWhile (· ≠ slash) = after := by
    cases after with
    | nil => exact ⟨rfl, rfl⟩
    | cons b after =>
      obtain h | h := hafter
      · cases h
      · rw [List.head?_cons, Option.some.injEq] at h
        subst h
        exact ⟨by simp, by simp⟩
  rw [segmentEnd, List.span_eq_takeWhile_dropWhile, List.takeWhile_append_of_pos hall,
    List.dropWhile_append_of_pos hall, htake.1, htake.2, List.append_nil]

/-- A text is its first segment and what follows it, nothing or a separator. -/
theorem segmentEnd_spec (rest : Bytes) :
    rest = (segmentEnd rest).1 ++ (segmentEnd rest).2 ∧ slash ∉ (segmentEnd rest).1 ∧
      ((segmentEnd rest).2 = [] ∨ (segmentEnd rest).2.head? = some slash) := by
  rw [segmentEnd, List.span_eq_takeWhile_dropWhile]
  refine ⟨(List.takeWhile_append_dropWhile).symm, fun hm => ?_, ?_⟩
  · have := List.mem_takeWhile_imp hm
    exact absurd this (by decide)
  · cases hd : rest.dropWhile (· ≠ slash) with
    | nil => exact .inl rfl
    | cons b after =>
      refine .inr ?_
      have hb := List.head?_dropWhile_not (fun b : UInt8 => decide (b ≠ slash)) rest
      rw [hd] at hb
      simpa using hb

theorem drop_segmentEnd (rest : Bytes) :
    rest.drop (segmentEnd rest).1.length = (segmentEnd rest).2 := by
  conv_lhs =>
    enter [2]
    rw [(segmentEnd_spec rest).1]
  exact List.drop_left

/-- The first segment of a text is a text that a separator or the end follows. -/
theorem segmentEnd_eq_iff {text rest : Bytes} (htext : slash ∉ text) :
    (segmentEnd rest).1 = text ↔ text <+: rest ∧
      (rest.drop text.length = [] ∨ (rest.drop text.length).head? = some slash) := by
  constructor
  · rintro rfl
    obtain ⟨hsplit, -, hafter⟩ := segmentEnd_spec rest
    rw [drop_segmentEnd]
    exact ⟨⟨_, hsplit.symm⟩, hafter⟩
  · rintro ⟨⟨after, rfl⟩, hafter⟩
    rw [List.drop_left] at hafter
    rw [segmentEnd_append htext hafter]

/-- The segments of a text, the first and the others. -/
theorem splitOn_segmentEnd (rest : Bytes) :
    rest.splitOn slash = (segmentEnd rest).1 ::
      match (segmentEnd rest).2 with
      | [] => []
      | _ :: after => after.splitOn slash := by
  obtain ⟨hsplit, hslash, hafter⟩ := segmentEnd_spec rest
  cases hrest : (segmentEnd rest).2 with
  | nil =>
    rw [hrest, List.append_nil] at hsplit
    conv_lhs => rw [hsplit]
    exact List.splitOn_eq_singleton hslash
  | cons b after =>
    obtain h | h := hafter
    · rw [hrest] at h
      cases h
    · rw [hrest, List.head?_cons, Option.some.injEq] at h
      rw [hrest, h] at hsplit
      conv_lhs => rw [hsplit]
      exact List.splitOn_append_cons_self_of_not_mem hslash after

/-! ## Sound segments -/

/-- The tokens of a literal, none for the empty one. -/
def literalTokens (text : Bytes) : List Token := if text = [] then [] else [.literal text]

/-- The tokens of a segment with one star. -/
def affixTokens (front back : Bytes) : List Token :=
  literalTokens front ++ .star :: literalTokens back

/-- What the kind of a segment says about its tokens. -/
def Segment.HasKind (part : Segment) : Prop :=
  match part.kind with
  | .recursive => part.tokens = [] ∧ part.first = none
  | .literal => ∃ text, part.tokens = literalTokens text
  | .affix => ∃ front back, part.tokens = affixTokens front back
  | .general => True

/-- A segment of an arm: its literals are whole code points without a separator, and it is
what its kind and its first byte say. -/
structure Segment.Sound (part : Segment) : Prop where
  valid : ValidTokens part.tokens
  noSlash : ∀ text, .literal text ∈ part.tokens → slash ∉ text
  kind : part.HasKind
  first : ∀ b, part.first = some b → ∃ text tokens, part.tokens = .literal (b :: text) :: tokens

variable {part : Segment} {text front back rest after : Bytes}

theorem tokensFit_literalTokens_append :
    TokensFit (literalTokens text ++ tokens) x ↔ ∃ y, x = text ++ y ∧ TokensFit tokens y := by
  rw [literalTokens]
  split
  · next h =>
    subst h
    constructor
    · exact fun hm => ⟨x, rfl, hm⟩
    · rintro ⟨y, rfl, hm⟩
      exact hm
  · exact tokensFit_literal_iff

/-- The empty tokens and one literal take exactly the literal. -/
theorem tokensFit_literalTokens : TokensFit (literalTokens text) x ↔ x = text := by
  have h : TokensFit (literalTokens text ++ []) x ↔ ∃ y, x = text ++ y ∧ TokensFit [] y :=
    tokensFit_literalTokens_append
  rw [List.append_nil] at h
  rw [h]
  constructor
  · rintro ⟨y, rfl, hy⟩
    obtain rfl : y = [] := hy
    exact List.append_nil text
  · rintro rfl
    exact ⟨[], (List.append_nil x).symm, rfl⟩

theorem tokensFit_star_literalTokens (hv : ValidTokens (literalTokens text)) :
    TokensFit (.star :: literalTokens text) x ↔ text <:+ x := by
  by_cases hnil : text = []
  · rw [literalTokens, if_pos hnil, hnil]
    exact iff_of_true (tokensFit_star x) (List.nil_suffix)
  · rw [literalTokens, if_neg hnil] at hv ⊢
    obtain ⟨hne, hvalid⟩ := hv text List.mem_cons_self
    exact tokensFit_star_last hne hvalid

/-- A segment with one star takes what begins and ends as it says. -/
theorem tokensFit_affixTokens (hv : ValidTokens (affixTokens front back)) :
    TokensFit (affixTokens front back) x ↔ ∃ y, x = front ++ y ∧ back <:+ y := by
  have hback : ValidTokens (literalTokens back) := fun text hm =>
    hv text (List.mem_append_right _ (List.mem_cons_of_mem _ hm))
  rw [affixTokens, tokensFit_literalTokens_append]
  refine exists_congr fun y => and_congr_right fun _ => ?_
  exact tokensFit_star_literalTokens hback

theorem head_affixTokens : ((affixTokens front back).head?.map Token.text).getD [] = front := by
  rw [affixTokens, literalTokens]
  split
  · next h =>
    rw [h]
    rfl
  · rfl

theorem getLast_affixTokens :
    ((affixTokens front back).getLast?.map Token.text).getD [] = back := by
  rw [affixTokens, List.getLast?_append_of_ne_nil _ (List.cons_ne_nil _ _), literalTokens]
  split
  · next h =>
    rw [h]
    rfl
  · rfl

/-- `match_affix` says whether the tokens fit. -/
theorem matchAffix_iff (hv : ValidTokens (affixTokens front back)) :
    matchAffix (affixTokens front back) x = true ↔ TokensFit (affixTokens front back) x := by
  rw [matchAffix, head_affixTokens, getLast_affixTokens, tokensFit_affixTokens hv]
  simp only [Bool.and_eq_true, decide_eq_true_eq, List.isPrefixOf_iff_prefix,
    List.isSuffixOf_iff_suffix]
  constructor
  · rintro ⟨⟨hlen, y, rfl⟩, hs⟩
    refine ⟨y, rfl, List.suffix_of_suffix_length_le hs (List.suffix_append front y) ?_⟩
    rw [List.length_append] at hlen
    omega
  · rintro ⟨y, rfl, hs⟩
    have hle := hs.length_le
    rw [List.length_append]
    exact ⟨⟨by omega, List.prefix_append front y⟩, hs.trans (List.suffix_append front y)⟩

/-! ## One segment -/

theorem Segment.Sound.text_of_literal (h : part.Sound) (hk : part.kind = .literal) :
    part.tokens = literalTokens ((part.tokens.head?.map Token.text).getD []) ∧
      slash ∉ (part.tokens.head?.map Token.text).getD [] := by
  have hkind := h.kind
  rw [Segment.HasKind, hk] at hkind
  obtain ⟨text, htext⟩ := hkind
  have hslash := h.noSlash
  rw [htext] at hslash ⊢
  rw [literalTokens] at hslash ⊢
  split at hslash
  · next hnil =>
    rw [if_pos hnil]
    exact ⟨rfl, List.not_mem_nil⟩
  · next hne =>
    rw [if_neg hne]
    exact ⟨by rw [literalTokens]; exact (if_neg hne).symm, hslash text List.mem_cons_self⟩

/-- A segment takes the first input segment when its tokens fit it. -/
theorem Segment.Sound.matchSegment_iff (h : part.Sound) (hk : part.kind ≠ .recursive) :
    matchSegment part rest = some after ↔
      TokensFit part.tokens (segmentEnd rest).1 ∧ after = (segmentEnd rest).2 := by
  have hstep {matched : Bool} (hm : matched = true ↔ TokensFit part.tokens (segmentEnd rest).1) :
      (if matched then some (segmentEnd rest).2 else none) = some after ↔
        TokensFit part.tokens (segmentEnd rest).1 ∧ after = (segmentEnd rest).2 := by
    rw [← hm]
    cases matched with
    | false => simp
    | true => simp [eq_comm]
  rw [matchSegment]
  cases hkind : part.kind with
  | recursive => exact absurd hkind hk
  | literal =>
    obtain ⟨htokens, hslash⟩ := h.text_of_literal hkind
    dsimp only
    generalize (part.tokens.head?.map Token.text).getD [] = text at htokens hslash ⊢
    have hif : (text.isPrefixOf rest && (rest.drop text.length = [] ||
        (rest.drop text.length).head? = some slash)) = true ↔ (segmentEnd rest).1 = text := by
      rw [segmentEnd_eq_iff hslash, Bool.and_eq_true, List.isPrefixOf_iff_prefix,
        Bool.or_eq_true, decide_eq_true_eq, decide_eq_true_eq]
    rw [htokens, tokensFit_literalTokens]
    constructor
    · intro hm
      split at hm
      · next hcond =>
        have hfirst := hif.mp hcond
        rw [← hfirst, drop_segmentEnd] at hm
        exact ⟨hfirst, (Option.some.inj hm).symm⟩
      · cases hm
    · rintro ⟨hfirst, rfl⟩
      rw [if_pos (hif.mpr hfirst), ← hfirst, drop_segmentEnd]
  | affix =>
    have hform := h.kind
    rw [Segment.HasKind, hkind] at hform
    obtain ⟨front, back, htokens⟩ := hform
    have hv := h.valid
    dsimp only
    refine hstep ?_
    rw [htokens] at hv ⊢
    exact matchAffix_iff hv
  | general =>
    dsimp only
    exact hstep (matchTokens_iff h.valid)

/-- A segment that begins with a literal takes only what begins with its first byte. -/
theorem Segment.Sound.head_of_fits (h : part.Sound) {b : UInt8} (hb : part.first = some b)
    (hfit : TokensFit part.tokens x) : x.head? = some b := by
  obtain ⟨text, tokens, htokens⟩ := h.first b hb
  rw [htokens, tokensFit_literal_iff] at hfit
  obtain ⟨y, rfl, -⟩ := hfit
  rfl

end Kotatsu.Support.Glob
