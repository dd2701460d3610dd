import Kotatsu.Support.Glob.Execute
import Kotatsu.Support.Glob.Words

/-!
# Plans

A plan is read off the segments of an arm, and matches what the segments do. All but
the general one look at the ends of the path: at its first segment, at its last one,
or at whether some segment is a directory's name.
-/

namespace Kotatsu.Support.Glob

open Kotatsu.Core

variable {part last : Segment} {segments : List Segment} {text front back path : Bytes}

/-! ## The last segment of a path -/

/-- A path is its last segment, or ends with it behind a separator. -/
theorem basename_spec (path : Bytes) :
    slash ∉ basename path ∧
      (path = basename path ∧ path.splitOn slash = [basename path] ∨
        ∃ front, path = front ++ slash :: basename path ∧
          path.splitOn slash = front.splitOn slash ++ [basename path]) := by
  have hslash : slash ∉ basename path := by
    intro hm
    have hkeep := List.mem_rtakeWhile_imp hm
    exact absurd hkeep (by decide)
  refine ⟨hslash, ?_⟩
  have hsplit : path.rdropWhile (· ≠ slash) ++ basename path = path :=
    List.rdropWhile_append_rtakeWhile ..
  by_cases hnil : path.rdropWhile (· ≠ slash) = []
  · rw [hnil, List.nil_append] at hsplit
    refine .inl ⟨hsplit.symm, ?_⟩
    conv_lhs => rw [← hsplit]
    exact List.splitOn_eq_singleton hslash
  · have hlast := List.rdropWhile_last_not (fun b : UInt8 => decide (b ≠ slash)) path hnil
    have hback : (path.rdropWhile (· ≠ slash)).getLast hnil = slash := by simpa using hlast
    have hfront := List.dropLast_append_getLast hnil
    rw [hback] at hfront
    have hpath : path = (path.rdropWhile (· ≠ slash)).dropLast ++ slash :: basename path := by
      rw [← List.singleton_append, ← List.append_assoc, hfront, hsplit]
    refine .inr ⟨_, hpath, ?_⟩
    conv_lhs => rw [hpath]
    rw [List.splitOn_append_cons_self, List.splitOn_eq_singleton hslash]

theorem basename_suffix (path : Bytes) : basename path <:+ path := List.rtakeWhile_suffix _ _

theorem basename_eq_self (h : slash ∉ path) : basename path = path := by
  obtain ⟨-, ⟨hself, -⟩ | ⟨front, hpath, -⟩⟩ := basename_spec path
  · exact hself.symm
  · exact absurd (hpath ▸ List.mem_append_right _ List.mem_cons_self) h

/-- What holds no separator ends a path when it ends the last segment. -/
theorem suffix_basename (h : slash ∉ text) : text <:+ basename path ↔ text <:+ path := by
  constructor
  · exact fun hs => hs.trans (basename_suffix path)
  · intro hs
    obtain ⟨-, ⟨hself, -⟩ | ⟨front, hpath, -⟩⟩ := basename_spec path
    · rwa [← hself]
    · refine List.suffix_of_suffix_length_le hs (basename_suffix path) ?_
      by_contra hlt
      have hlong : slash :: basename path <:+ text := by
        refine List.suffix_of_suffix_length_le ?_ hs (by rw [List.length_cons]; omega)
        conv_rhs => rw [hpath]
        exact List.suffix_append front _
      exact h (hlong.subset List.mem_cons_self)

/-- A text is the last segment when it is the path, or ends it behind a separator. -/
theorem basename_eq_iff (h : slash ∉ text) :
    basename path = text ↔ path = text ∨ ∃ front, path = front ++ slash :: text := by
  constructor
  · rintro rfl
    obtain ⟨-, ⟨hself, -⟩ | ⟨front, hpath, -⟩⟩ := basename_spec path
    · exact .inl hself
    · exact .inr ⟨front, hpath⟩
  · rintro (rfl | ⟨front, rfl⟩)
    · exact basename_eq_self h
    · have hbehind : slash :: text <:+ front ++ slash :: text := List.suffix_append _ _
      have hbase : text <:+ basename (front ++ slash :: text) :=
        (suffix_basename h).mpr ((List.suffix_cons _ _).trans hbehind)
      refine (hbase.eq_of_length_le ?_).symm
      by_contra hlong
      have hs : slash :: text <:+ basename (front ++ slash :: text) :=
        List.suffix_of_suffix_length_le hbehind (basename_suffix _)
          (by rw [List.length_cons]; omega)
      exact (basename_spec _).1 (hs.subset List.mem_cons_self)

/-! ## One segment, and one behind a gap -/

theorem armFits_single (hk : last.kind ≠ .recursive) :
    ArmFits [last] (path.splitOn slash) ↔
      slash ∉ path ∧ TokensFit last.tokens (basename path) := by
  obtain ⟨hslash, ⟨hself, hsplit⟩ | ⟨front, hpath, hsplit⟩⟩ := basename_spec path
  · rw [hsplit, armFits_cons hk, armFits_nil]
    rw [← hself] at hslash
    exact ⟨fun h => ⟨hslash, h.1⟩, fun h => ⟨h.2, rfl⟩⟩
  · refine iff_of_false (fun h => ?_) fun h => ?_
    · obtain ⟨y, ys, hfront⟩ := List.exists_cons_of_ne_nil (List.splitOn_ne_nil slash front)
      rw [hsplit, hfront, List.cons_append, armFits_cons hk, armFits_nil] at h
      exact List.append_ne_nil_of_right_ne_nil ys (List.cons_ne_nil _ _) h.2
    · rw [hpath] at h
      exact h.1 (List.mem_append_right _ List.mem_cons_self)

theorem fitsLater_last (hk : last.kind ≠ .recursive) (ys : List Bytes) (y : Bytes) :
    FitsLater [last] (ys ++ [y]) ↔ TokensFit last.tokens y := by
  induction ys with
  | nil =>
    rw [List.nil_append, fitsLater_cases, armFits_cons hk, armFits_nil, List.tail_cons,
      fitsLater_end]
    constructor
    · rintro (h | h)
      · exact h.1
      · exact absurd (h last List.mem_cons_self) hk
    · exact fun h => .inl ⟨h, rfl⟩
  | cons z zs ih =>
    rw [List.cons_append, fitsLater_cases, List.tail_cons, ih, armFits_cons hk, armFits_nil,
      or_iff_right]
    exact fun h => List.append_ne_nil_of_right_ne_nil zs (List.cons_ne_nil _ _) h.2

/-- A segment behind a `**` takes the last segment of the path. -/
theorem armFits_behind {globstar : Segment} (hg : globstar.kind = .recursive)
    (hk : last.kind ≠ .recursive) :
    ArmFits [globstar, last] (path.splitOn slash) ↔ TokensFit last.tokens (basename path) := by
  rw [armFits_recursive hg]
  obtain ⟨-, ⟨-, hsplit⟩ | ⟨front, -, hsplit⟩⟩ := basename_spec path
  · rw [hsplit]
    exact fitsLater_last hk [] (basename path)
  · rw [hsplit, fitsLater_last hk]

/-- The last segment of an arm takes the last segment of the path. -/
theorem fits_last (hk : last.kind ≠ .recursive)
    (h : ArmFits (segments ++ [last]) (path.splitOn slash)) :
    TokensFit last.tokens (basename path) := by
  have hlater : FitsLater [last] (path.splitOn slash) := by
    rw [ArmFits, List.map_append] at h
    generalize path.splitOn slash = ys at h ⊢
    induction segments generalizing ys with
    | nil => exact fitsLater_cases.mpr (.inl h)
    | cons part segments ih =>
      by_cases hp : part.kind = .recursive
      · rw [List.map_cons, gap_of_recursive hp] at h
        obtain ⟨n, hn⟩ := matchesSeq_gap.mp h
        obtain ⟨m, hm⟩ := fitsLater_iff.mp (ih _ hn)
        rw [List.drop_drop] at hm
        exact fitsLater_iff.mpr ⟨_, hm⟩
      · rw [List.map_cons, gap_of_ne hp] at h
        obtain ⟨zs, ⟨y, rfl, -⟩, hm⟩ := h
        exact fitsLater_cases.mpr (.inr (ih _ hm))
  obtain ⟨-, ⟨-, hsplit⟩ | ⟨front, -, hsplit⟩⟩ := basename_spec path
  · rw [hsplit] at hlater
    exact (fitsLater_last hk [] (basename path)).mp hlater
  · rwa [hsplit, fitsLater_last hk] at hlater

/-! ## The trailing literal -/

theorem takeToken_suffix {t : Token} {x y : Bytes} (h : takeToken t x y) : y <:+ x := by
  cases t with
  | literal text =>
    obtain rfl : x = text ++ y := h
    exact List.suffix_append text y
  | star => exact h.elim
  | any =>
    rw [h.2]
    exact List.drop_suffix _ _
  | cls c =>
    rw [h.2.2]
    exact List.drop_suffix _ _

/-- What tokens that end with a literal take ends with it. -/
theorem suffix_of_fits {tokens : List Token} {x : Bytes}
    (h : TokensFit (tokens ++ [.literal text]) x) : text <:+ x := by
  induction tokens generalizing x with
  | nil =>
    obtain ⟨y, rfl, hy⟩ := tokensFit_literal_iff.mp h
    obtain rfl : y = [] := hy
    rw [List.append_nil]
  | cons t tokens ih =>
    by_cases ht : t = .star
    · subst ht
      obtain ⟨y, hy, hfit⟩ := tokensFit_star_iff.mp h
      exact (ih hfit).trans hy.suffix
    · obtain ⟨y, hy, hfit⟩ := (tokensFit_cons ht).mp h
      exact (ih hfit).trans (takeToken_suffix hy)

theorem matches_empty (input : Bytes) : PackedLiteral.matches {} input = true := by
  rw [← packLiteral_nil, matches_packLiteral]
  exact List.nil_suffix

theorem trailingLiteral_append (hk : last.kind ≠ .recursive) :
    trailingLiteral (segments ++ [last]) =
      match last.tokens.getLast? with
      | some (.literal text) => packLiteral text
      | _ => {} := by
  have hlast : ((segments ++ [last]).getLast?.bind fun last =>
      if last.kind = .recursive then none else last.tokens.getLast?) = last.tokens.getLast? := by
    rw [List.getLast?_append_of_ne_nil _ (List.cons_ne_nil _ _), List.getLast?_singleton,
      Option.bind_some, if_neg hk]
  exact congrArg (fun found : Option Token => match found with
    | some (.literal text) => packLiteral text
    | _ => {}) hlast

theorem trailingLiteral_recursive (hk : last.kind = .recursive) :
    trailingLiteral (segments ++ [last]) = {} := by
  rw [trailingLiteral, List.getLast?_append_of_ne_nil _ (List.cons_ne_nil _ _)]
  simp only [List.getLast?_singleton, Option.bind_some, hk, if_true]

theorem trailingLiteral_literal (segments : List Segment) (hk : last.kind ≠ .recursive)
    (h : last.tokens = literalTokens text) :
    trailingLiteral (segments ++ [last]) = packLiteral text := by
  rw [trailingLiteral_append hk, h, literalTokens]
  by_cases hnil : text = []
  · rw [if_pos hnil, hnil]
    exact packLiteral_nil.symm
  · rw [if_neg hnil]
    rfl

theorem trailingLiteral_affix (hk : last.kind ≠ .recursive)
    (h : last.tokens = affixTokens front back) :
    trailingLiteral (segments ++ [last]) = packLiteral back := by
  rw [trailingLiteral_append hk, h, affixTokens,
    List.getLast?_append_of_ne_nil _ (List.cons_ne_nil _ _), literalTokens]
  by_cases hnil : back = []
  · rw [if_pos hnil, hnil]
    exact packLiteral_nil.symm
  · rw [if_neg hnil]
    rfl

/-- The trailing literal is packed, also where there is none. -/
theorem trailingLiteral_pack (segments : List Segment) :
    ∃ text, trailingLiteral segments = packLiteral text := by
  rw [trailingLiteral]
  split
  · next text _ => exact ⟨text, rfl⟩
  · exact ⟨[], packLiteral_nil.symm⟩

/-- A path whose last segment fits ends with the trailing literal. -/
theorem trailingLiteral_of_fits (hk : last.kind ≠ .recursive)
    (hfit : TokensFit last.tokens (basename path)) :
    (trailingLiteral (segments ++ [last])).matches path = true := by
  rw [trailingLiteral_append hk]
  split
  · next text htext =>
    rw [matches_packLiteral]
    obtain ⟨tokens, htokens⟩ := List.getLast?_eq_some_iff.mp htext
    rw [htokens] at hfit
    exact (suffix_of_fits hfit).trans (basename_suffix path)
  · exact matches_empty path

/-- A path that an arm matches ends with the arm's trailing literal. -/
theorem trailingLiteral_matches (h : ArmFits segments (path.splitOn slash)) :
    (trailingLiteral segments).matches path = true := by
  rcases List.eq_nil_or_concat segments with rfl | ⟨init, last, rfl⟩
  · exact matches_empty path
  · rw [List.concat_eq_append] at h ⊢
    by_cases hk : last.kind = .recursive
    · rw [trailingLiteral_recursive hk]
      exact matches_empty path
    · exact trailingLiteral_of_fits hk (fits_last hk h)

/-! ## Literals against a path -/

/-- `match_prefix_tree` takes a directory and what is in it. -/
theorem matchPrefixTree_iff {directory : Bytes} :
    matchPrefixTree directory path = true ↔
      path = directory ∨ ∃ y, path = directory ++ slash :: y := by
  rw [matchPrefixTree, Bool.and_eq_true, List.isPrefixOf_iff_prefix, Bool.or_eq_true,
    decide_eq_true_eq, decide_eq_true_eq]
  constructor
  · rintro ⟨⟨after, rfl⟩, hafter⟩
    cases after with
    | nil => exact .inl (List.append_nil directory)
    | cons b after =>
      refine .inr ⟨after, ?_⟩
      obtain h | h := hafter
      · rw [List.length_append, List.length_cons] at h
        omega
      · rw [List.getElem?_append_right (Nat.le_refl _), Nat.sub_self, List.getElem?_cons_zero,
          Option.some.injEq] at h
        rw [h]
  · rintro (rfl | ⟨y, rfl⟩)
    · exact ⟨List.prefix_rfl, .inl rfl⟩
    · refine ⟨List.prefix_append _ _, .inr ?_⟩
      rw [List.getElem?_append_right (Nat.le_refl _), Nat.sub_self, List.getElem?_cons_zero]

/-- `match_path_suffix` takes what has the literal for its last segment. -/
theorem matchPathSuffix_iff (htext : slash ∉ text) :
    matchPathSuffix (packLiteral text) path = true ↔ basename path = text := by
  rw [matchPathSuffix, text_packLiteral, Bool.and_eq_true, matches_packLiteral, Bool.or_eq_true,
    decide_eq_true_eq, decide_eq_true_eq]
  rw [basename_eq_iff htext]
  constructor
  · rintro ⟨⟨front, rfl⟩, hfront⟩
    rcases List.eq_nil_or_concat front with rfl | ⟨init, b, rfl⟩
    · exact .inl rfl
    · refine .inr ⟨init, ?_⟩
      rw [List.length_append, Nat.add_sub_cancel, List.concat_eq_append, List.length_append,
        List.length_singleton, Nat.add_sub_cancel, List.append_assoc,
        List.getElem?_append_right (Nat.le_refl _), Nat.sub_self] at hfront
      obtain h | h := hfront
      · omega
      · rw [List.concat_eq_append, List.append_assoc, Option.some.inj h]
        rfl
  · rintro (rfl | ⟨front, rfl⟩)
    · exact ⟨List.suffix_rfl, .inl rfl⟩
    · refine ⟨(List.suffix_cons _ _).trans (List.suffix_append front _), .inr ?_⟩
      have hat : (front ++ slash :: text).length - text.length - 1 = front.length := by
        rw [List.length_append, List.length_cons]
        omega
      rw [hat, List.getElem?_append_right (Nat.le_refl _), Nat.sub_self, List.getElem?_cons_zero]

/-! ## Plans -/

/-- What a plan says about the segments it is read off. -/
inductive PlanOf : List Segment → Plan → Bool → Bytes → Prop where
  | prefixTree {first last : Segment} (hf : first.kind = .literal) (hl : last.kind = .recursive) :
    PlanOf [first, last] .prefixTree false ((first.tokens.head?.map Token.text).getD [])
  | directoryTree {first middle last : Segment} (hf : first.kind = .recursive)
    (hm : middle.kind = .literal) (hl : last.kind = .recursive) :
    PlanOf [first, middle, last] .directoryTree false
      ((middle.tokens.head?.map Token.text).getD [])
  | suffix {first last : Segment} (hf : first.kind = .recursive) (hl : last.kind = .affix)
    (hstar : last.tokens.head? = some .star) : PlanOf [first, last] .suffix true []
  | segmentSuffix {last : Segment} (hl : last.kind = .affix)
    (hstar : last.tokens.head? = some .star) : PlanOf [last] .segmentSuffix false []
  | affixBehind {first last : Segment} (hf : first.kind = .recursive) (hl : last.kind = .affix) :
    PlanOf [first, last] .affix true ((last.tokens.head?.map Token.text).getD [])
  | affix {last : Segment} (hl : last.kind = .affix) :
    PlanOf [last] .affix false ((last.tokens.head?.map Token.text).getD [])
  | pathSuffix {first last : Segment} (hf : first.kind = .recursive) (hl : last.kind = .literal) :
    PlanOf [first, last] .pathSuffix true []
  | finalBehind {first last : Segment} (hf : first.kind = .recursive) (hl : last.kind = .general) :
    PlanOf [first, last] .final true []
  | final {last : Segment} (hl : last.kind = .general ∨ last.kind = .literal) :
    PlanOf [last] .final false []
  | general (segments : List Segment) (basename : Bool) : PlanOf segments .general basename []

@[simp] theorem isKind_some (kind : SegmentKind) (part : Segment) :
    isKind kind (some part) = decide (part.kind = kind) := rfl

/-- The plan is read off the segments. -/
theorem choosePlan_spec (segments : List Segment) :
    PlanOf segments (choosePlan segments).1 (choosePlan segments).2.1
      (choosePlan segments).2.2 := by
  rw [choosePlan]
  split
  · next h =>
    simp only [Bool.and_eq_true, decide_eq_true_eq] at h
    obtain ⟨⟨hcount, hf⟩, hl⟩ := h
    obtain ⟨first, last, rfl⟩ := List.length_eq_two.mp hcount
    have hfirst : first.kind = .literal := of_decide_eq_true hf
    have hlast : last.kind = .recursive := of_decide_eq_true hl
    simpa [hfirst, hlast] using PlanOf.prefixTree hfirst hlast
  split
  · next h =>
    simp only [Bool.and_eq_true, decide_eq_true_eq] at h
    obtain ⟨⟨⟨hcount, hf⟩, hm⟩, hl⟩ := h
    obtain ⟨first, middle, last, rfl⟩ := List.length_eq_three.mp hcount
    have hfirst : first.kind = .recursive := of_decide_eq_true hf
    have hmiddle : middle.kind = .literal := of_decide_eq_true hm
    have hlast : last.kind = .recursive := of_decide_eq_true hl
    simpa using PlanOf.directoryTree hfirst hmiddle hlast
  split
  · next h =>
    rw [Bool.or_eq_true] at h
    obtain h | h := h
    · rw [if_pos h, h]
      simp only [Bool.and_eq_true, decide_eq_true_eq, Bool.not_eq_true', true_and] at h ⊢
      obtain ⟨⟨hcount, hf⟩, hl⟩ := h
      obtain ⟨first, last, rfl⟩ := List.length_eq_two.mp hcount
      have hfirst : first.kind = .recursive := of_decide_eq_true hf
      have hlast : last.kind ≠ .recursive := of_decide_eq_false hl
      simp only [List.getLast?_cons_cons, List.getLast?_singleton, isKind_some, Option.map_some,
        Option.getD_some, decide_eq_true_eq]
      split
      · next h => exact .suffix hfirst h.1 h.2
      split
      · next h => exact .affixBehind hfirst h
      split
      · next h => exact .pathSuffix hfirst h
      · next ha hp =>
        refine .finalBehind hfirst ?_
        cases hk : last.kind with
        | recursive => exact absurd hk hlast
        | literal => exact absurd hk hp
        | affix => exact absurd hk ha
        | general => rfl
    · simp only [Bool.and_eq_true, decide_eq_true_eq, Bool.not_eq_true'] at h
      obtain ⟨hcount, hl⟩ := h
      obtain ⟨last, rfl⟩ := List.length_eq_one_iff.mp hcount
      have hlast : last.kind ≠ .recursive := of_decide_eq_false hl
      have hone : decide ([last].length = 2) = false := rfl
      simp only [hone, List.getLast?_singleton, isKind_some, Option.map_some, Option.getD_some,
        Bool.and_eq_true, decide_eq_true_eq, Bool.false_and, Bool.false_eq_true, if_false]
      split
      · next h => exact .segmentSuffix h.1 (of_decide_eq_true h.2)
      split
      · next h => exact .affix h
      · next ha =>
        refine .final ?_
        cases hk : last.kind with
        | recursive => exact absurd hk hlast
        | literal => exact .inr rfl
        | affix => exact absurd hk ha
        | general => exact .inl rfl
  · exact .general _ _

/-! ## Arms -/

/-- Literal segments in front of a `**`: the directory and what is in it. -/
theorem armFits_tree {first : Segment} (hk : first.kind ≠ .recursive)
    (hl : last.kind = .recursive) (htokens : first.tokens = literalTokens text)
    (htext : slash ∉ text) :
    ArmFits [first, last] (path.splitOn slash) ↔ matchPrefixTree text path = true := by
  rw [matchPrefixTree_iff, splitOn_segmentEnd, armFits_cons hk, htokens, tokensFit_literalTokens,
    and_iff_left (armFits_of_gaps (List.cons_ne_nil _ _) (by simpa using hl) _),
    segmentEnd_eq_iff htext]
  constructor
  · rintro ⟨⟨after, rfl⟩, hafter⟩
    rw [List.drop_left] at hafter
    cases after with
    | nil => exact .inl (List.append_nil text)
    | cons b after =>
      obtain h | h := hafter
      · cases h
      · rw [List.head?_cons, Option.some.injEq] at h
        exact .inr ⟨after, by rw [h]⟩
  · rintro (rfl | ⟨y, rfl⟩)
    · exact ⟨List.prefix_rfl, .inl List.drop_length⟩
    · exact ⟨List.prefix_append _ _, .inr (by rw [List.drop_left, List.head?_cons])⟩

/-- A literal segment between two `**` is a segment of the path. -/
theorem armFits_directory {middle : Segment} (hk : middle.kind ≠ .recursive)
    (hl : last.kind = .recursive) (htokens : middle.tokens = literalTokens text)
    (ys : List Bytes) : FitsLater [middle, last] ys ↔ text ∈ ys := by
  have hgaps : ∀ part ∈ [last], part.kind = .recursive := by simpa using hl
  induction ys with
  | nil =>
    rw [fitsLater_end]
    refine iff_of_false (fun h => hk (h middle List.mem_cons_self)) List.not_mem_nil
  | cons y ys ih =>
    have hhere : ArmFits [middle, last] (y :: ys) ↔ text = y := by
      rw [armFits_cons hk, htokens, tokensFit_literalTokens,
        and_iff_left (armFits_of_gaps (List.cons_ne_nil _ _) hgaps _), eq_comm]
    rw [fitsLater_cases, List.mem_cons, List.tail_cons]
    exact or_congr hhere ih

/-- The tokens of a segment that is one star between literals, which hold no separator. -/
theorem Segment.Sound.affix_spec (h : part.Sound) (hk : part.kind = .affix) :
    ∃ front back, part.tokens = affixTokens front back ∧ slash ∉ front ∧ slash ∉ back := by
  have hkind := h.kind
  rw [Segment.HasKind, hk] at hkind
  obtain ⟨front, back, htokens⟩ := hkind
  refine ⟨front, back, htokens, fun hm => ?_, fun hm => ?_⟩
  · refine h.noSlash front ?_ hm
    rw [htokens, affixTokens, literalTokens, if_neg (List.ne_nil_of_mem hm)]
    exact List.mem_cons_self
  · refine h.noSlash back ?_ hm
    rw [htokens, affixTokens, literalTokens, literalTokens, if_neg (List.ne_nil_of_mem hm)]
    exact List.mem_append_right _ (List.mem_cons_of_mem _ List.mem_cons_self)

/-- The last segment, a star and a literal, takes what ends with the literal. -/
theorem fits_suffix (segments : List Segment) (h : last.Sound) (hk : last.kind = .affix)
    (hstar : last.tokens.head? = some .star) :
    (trailingLiteral (segments ++ [last])).matches path = true ↔
      TokensFit last.tokens (basename path) := by
  obtain ⟨front, back, htokens, -, hback⟩ := h.affix_spec hk
  have hv := h.valid
  have hfront : front = [] := by
    by_contra hne
    rw [htokens, affixTokens, literalTokens, if_neg hne] at hstar
    cases hstar
  rw [htokens, hfront] at hv
  rw [trailingLiteral_affix (by rw [hk]; decide) htokens, matches_packLiteral, htokens, hfront,
    tokensFit_affixTokens hv, ← suffix_basename hback]
  constructor
  · exact fun hs => ⟨_, rfl, hs⟩
  · rintro ⟨y, hy, hs⟩
    rwa [hy]

/-- The last segment, one star between literals, takes what begins and ends with them. -/
theorem fits_affix (h : last.Sound) (hk : last.kind = .affix) {head : Bytes}
    (hhead : head = (last.tokens.head?.map Token.text).getD []) {literal : PackedLiteral}
    (hliteral : literal = trailingLiteral (segments ++ [last])) :
    literal.matches path = true ∧ (basename path).length ≥ head.length + literal.text.length ∧
      head <+: basename path ↔ TokensFit last.tokens (basename path) := by
  obtain ⟨front, back, htokens, -, hback⟩ := h.affix_spec hk
  have hv := h.valid
  rw [htokens] at hv
  rw [trailingLiteral_affix (by rw [hk]; decide) htokens] at hliteral
  rw [htokens, head_affixTokens] at hhead
  rw [hliteral, matches_packLiteral, text_packLiteral, hhead, htokens, ← matchAffix_iff hv,
    matchAffix, head_affixTokens, getLast_affixTokens, Bool.and_eq_true, Bool.and_eq_true,
    decide_eq_true_eq, List.isPrefixOf_iff_prefix, List.isSuffixOf_iff_suffix,
    suffix_basename hback]
  exact ⟨fun hm => ⟨⟨hm.2.1, hm.2.2⟩, hm.1⟩, fun hm => ⟨hm.2, hm.1.1, hm.1.2⟩⟩

/-- The last segment, a literal, takes what it ends and is as long as it. -/
theorem fits_literal (h : last.Sound) (hk : last.kind = .literal) {literal : PackedLiteral}
    (hliteral : literal = trailingLiteral (segments ++ [last])) :
    literal.matches path = true ∧ (basename path).length = literal.text.length ↔
      TokensFit last.tokens (basename path) := by
  obtain ⟨htokens, htext⟩ := h.text_of_literal hk
  generalize (last.tokens.head?.map Token.text).getD [] = text at htokens htext
  rw [trailingLiteral_literal _ (by rw [hk]; decide) htokens] at hliteral
  rw [hliteral, matches_packLiteral, text_packLiteral, htokens, tokensFit_literalTokens,
    ← suffix_basename htext]
  constructor
  · exact fun hm => (hm.1.eq_of_length hm.2.symm).symm
  · intro hm
    rw [hm]
    exact ⟨List.suffix_rfl, rfl⟩

/-- `match_final` says whether the last segment fits, and, but for arms that match the
basename, that there is no other. -/
theorem matchFinal_iff {arm : Arm} (h : last.Sound) (hk : last.kind ≠ .recursive)
    (hsegments : arm.segments = segments ++ [last])
    (hliteral : arm.literal = trailingLiteral arm.segments)
    (haffix : arm.plan = .affix →
      last.kind = .affix ∧ arm.head = (last.tokens.head?.map Token.text).getD []) :
    matchFinal arm path = true ↔
      (arm.basename = false → slash ∉ path) ∧ TokensFit last.tokens (basename path) := by
  have hlast : arm.segments.getLast? = some last := by
    rw [hsegments, List.getLast?_append_of_ne_nil _ (List.cons_ne_nil _ _)]
    rfl
  rw [hsegments] at hliteral
  by_cases hmatches : arm.literal.matches path = true
  swap
  · rw [matchFinal, if_pos (by simpa using hmatches)]
    refine iff_of_false Bool.false_ne_true fun hm => hmatches ?_
    rw [hliteral]
    exact trailingLiteral_of_fits hk hm.2
  have hname : (if arm.plan = .affix then
        decide ((basename path).length ≥ arm.head.length + arm.literal.text.length) &&
          arm.head.isPrefixOf (basename path)
      else if isKind .literal arm.segments.getLast? then
        decide ((basename path).length = arm.literal.text.length)
      else matchTokens ((arm.segments.getLast?.map Segment.tokens).getD []) (basename path)) =
        true ↔ TokensFit last.tokens (basename path) := by
    rw [hlast, isKind_some, Option.map_some, Option.getD_some]
    split
    · next hplan =>
      obtain ⟨ha, hhead⟩ := haffix hplan
      rw [← fits_affix h ha hhead hliteral, and_iff_right hmatches, Bool.and_eq_true,
        decide_eq_true_eq, List.isPrefixOf_iff_prefix]
    split
    · next hl =>
      rw [← fits_literal h (of_decide_eq_true hl) hliteral, and_iff_right hmatches,
        decide_eq_true_eq]
    · exact matchTokens_iff h.valid
  rw [matchFinal, if_neg (by simpa using hmatches)]
  cases hb : arm.basename with
  | true =>
    rw [if_pos rfl, if_neg (by simp), hname]
    simp
  | false =>
    by_cases hslash : slash ∈ path
    · rw [if_neg Bool.false_ne_true, if_pos (by simpa using hslash)]
      exact iff_of_false Bool.false_ne_true fun hm => hm.1 rfl hslash
    · rw [basename_eq_self hslash] at hname ⊢
      rw [if_neg Bool.false_ne_true, if_neg (by simpa using hslash), hname]
      simp [hslash]

/-- An arm whose plan is read off its marked segments matches what they do. -/
theorem matchArm_iff {arm : Arm} (hm : Marked arm.segments) (hne : arm.segments ≠ [])
    (hplan : PlanOf arm.segments arm.plan arm.basename arm.head)
    (hliteral : arm.literal = trailingLiteral arm.segments) :
    matchArm arm path = true ↔ ArmFits arm.segments (path.splitOn slash) := by
  rw [matchArm]
  generalize hs : arm.segments = segments at hm hne hplan hliteral ⊢
  generalize hp : arm.plan = plan at hplan ⊢
  generalize hb : arm.basename = base at hplan
  generalize hh : arm.head = head at hplan ⊢
  have hfinal (front : List Segment) {last : Segment} (hsplit : segments = front ++ [last])
      (hk : last.kind ≠ .recursive) (haffix : plan = .affix →
        last.kind = .affix ∧ head = (last.tokens.head?.map Token.text).getD []) :
      matchFinal arm path = true ↔
        (base = false → slash ∉ path) ∧ TokensFit last.tokens (basename path) := by
    have hlast : last ∈ segments := by
      rw [hsplit]
      exact List.mem_append_right _ List.mem_cons_self
    rw [← hb]
    refine matchFinal_iff (hm.sound hlast) hk (hs.trans hsplit) (hs ▸ hliteral) ?_
    rw [hp, hh]
    exact haffix
  cases hplan with
  | @prefixTree first last hf hl =>
    have hk : first.kind ≠ .recursive := by rw [hf]; decide
    obtain ⟨htokens, htext⟩ := (hm.sound List.mem_cons_self).text_of_literal hf
    exact (armFits_tree hk hl htokens htext).symm
  | @directoryTree first middle last hf hmid hl =>
    have hk : middle.kind ≠ .recursive := by rw [hmid]; decide
    have hsound := hm.sound (List.mem_cons_of_mem first List.mem_cons_self)
    obtain ⟨htokens, htext⟩ := hsound.text_of_literal hmid
    have hempty : (middle.tokens.head?.map Token.text).getD [] ≠ [] := by
      intro hnil
      rw [hnil, literalTokens, if_pos rfl] at htokens
      cases hm with
      | cons _ _ _ behind _ => exact behind hf middle rfl hk htokens
    rw [armFits_recursive hf, armFits_directory hk hl htokens, ← findSegment_text htext hempty]
  | @suffix first last hf hl hstar =>
    have hk : last.kind ≠ .recursive := by rw [hl]; decide
    have hsound := hm.sound (List.mem_cons_of_mem first List.mem_cons_self)
    rw [hliteral, armFits_behind hf hk, ← fits_suffix [first] hsound hl hstar]
    rfl
  | @segmentSuffix last hl hstar =>
    have hk : last.kind ≠ .recursive := by rw [hl]; decide
    have hsound := hm.sound List.mem_cons_self
    rw [hliteral, armFits_single hk, ← fits_suffix [] hsound hl hstar]
    simp [and_comm]
  | @affixBehind first last hf hl =>
    have hk : last.kind ≠ .recursive := by rw [hl]; decide
    rw [armFits_behind hf hk]
    refine (hfinal [first] rfl hk fun _ => ⟨hl, rfl⟩).trans ?_
    simp
  | @affix last hl =>
    have hk : last.kind ≠ .recursive := by rw [hl]; decide
    rw [armFits_single hk]
    refine (hfinal [] rfl hk fun _ => ⟨hl, rfl⟩).trans ?_
    simp
  | @pathSuffix first last hf hl =>
    have hk : last.kind ≠ .recursive := by rw [hl]; decide
    have hsound := hm.sound (List.mem_cons_of_mem first List.mem_cons_self)
    obtain ⟨htokens, htext⟩ := hsound.text_of_literal hl
    have htrailing := trailingLiteral_literal [first] hk htokens
    rw [armFits_behind hf hk, htokens, tokensFit_literalTokens, ← matchPathSuffix_iff htext,
      hliteral, ← htrailing]
    rfl
  | @finalBehind first last hf hl =>
    have hk : last.kind ≠ .recursive := by rw [hl]; decide
    rw [armFits_behind hf hk]
    refine (hfinal [first] rfl hk fun h => by cases h).trans ?_
    simp
  | @final last hl =>
    have hk : last.kind ≠ .recursive := by
      intro hrec
      rw [hrec] at hl
      simp at hl
    rw [armFits_single hk]
    refine (hfinal [] rfl hk fun h => by cases h).trans ?_
    simp
  | general segments base =>
    rw [← execute_iff hm hne, Bool.and_eq_true, and_iff_right_iff_imp, hliteral]
    exact fun hex => trailingLiteral_matches ((execute_iff hm hne).mp hex)

end Kotatsu.Support.Glob
