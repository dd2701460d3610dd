import Mathlib.Data.List.Chain
import Kotatsu.Support.Glob.Classes
import Kotatsu.Support.Glob.Segments

/-!
# The tokens that items compile to

Bytes behind one another are one literal and stars behind one another one star, so the
tokens of a segment take what its items say, and the segment that they make is sound: a
literal that is still growing makes valid text with what is left to read.
-/

namespace Kotatsu.Support.Glob

open Kotatsu.Core

variable {item : Item} {is : List Item} {tokens : List Token} {x y z : Bytes} {b : UInt8}

/-! ## What tokens take -/

/-- What a token takes; a star takes atoms. -/
def Token.Takes : Token → Bytes → Bytes → Prop
  | .star, x, y => AtomSuffix x y
  | token, x, y => takeToken token x y

/-- What a token of the reference takes. -/
def Tok.Takes : Tok → Bytes → Bytes → Prop
  | .byte b, x, y => x = b :: y
  | .star, x, y => AtomSuffix x y
  | .any, x, y => x ≠ [] ∧ y = dropAtom x
  | .cls negated ranges, x, y => x ≠ [] ∧ InClass negated ranges x ∧ y = dropAtom x

theorem tokensFit_iff_takes : TokensFit tokens x ↔ TakeAll Token.Takes tokens x [] := by
  induction tokens generalizing x with
  | nil => exact eq_comm
  | cons t tokens ih =>
    cases t with
    | star => exact tokensFit_star_iff.trans (exists_congr fun y => and_congr_right fun _ => ih)
    | literal | any | cls =>
      exact (tokensFit_cons (by simp)).trans (exists_congr fun y => and_congr_right fun _ => ih)

theorem tokensMatch_iff_takes {toks : List Tok} :
    TokensMatch toks x ↔ TakeAll Tok.Takes toks x [] := by
  induction toks generalizing x with
  | nil => exact eq_comm
  | cons t toks ih =>
    cases t with
    | byte | star => exact exists_congr fun y => and_congr_right fun _ => ih
    | any =>
      constructor
      · rintro ⟨hne, hm⟩
        exact ⟨_, ⟨hne, rfl⟩, ih.mp hm⟩
      · rintro ⟨y, ⟨hne, rfl⟩, hm⟩
        exact ⟨hne, ih.mpr hm⟩
    | cls =>
      constructor
      · rintro ⟨hne, hc, hm⟩
        exact ⟨_, ⟨hne, hc, rfl⟩, ih.mp hm⟩
      · rintro ⟨y, ⟨hne, hc, rfl⟩, hm⟩
        exact ⟨hne, hc, ih.mpr hm⟩

theorem takes_snoc {t : Token} :
    TakeAll Token.Takes (tokens ++ [t]) x z ↔
      ∃ y, TakeAll Token.Takes tokens x y ∧ t.Takes y z := by
  rw [takeAll_append_iff]
  exact exists_congr fun y => and_congr_right fun _ => takeAll_singleton

/-- A byte more is taken. -/
theorem takes_pushLiteral :
    TakeAll Token.Takes (pushLiteral tokens b) x z ↔ TakeAll Token.Takes tokens x (b :: z) := by
  rw [pushLiteral]
  split
  · next text htext =>
    obtain ⟨init, rfl⟩ := List.getLast?_eq_some_iff.mp htext
    rw [List.dropLast_concat, takes_snoc, takes_snoc]
    refine exists_congr fun y => and_congr_right fun _ => ?_
    change y = text ++ [b] ++ z ↔ y = text ++ b :: z
    rw [List.append_assoc, List.singleton_append]
  · rw [takes_snoc]
    constructor
    · rintro ⟨y, hm, rfl⟩
      exact hm
    · exact fun hm => ⟨_, hm, rfl⟩

theorem AtomSuffix.trans (h : AtomSuffix x y) (h' : AtomSuffix y z) : AtomSuffix x z := by
  induction h with
  | refl => exact h'
  | step hne _ ih => exact .step hne (ih h')

/-- Any run of atoms more is taken. -/
theorem takes_pushStar :
    TakeAll Token.Takes (pushStar tokens) x z ↔
      ∃ y, TakeAll Token.Takes tokens x y ∧ AtomSuffix y z := by
  rw [pushStar]
  split
  · next hstar =>
    obtain ⟨init, rfl⟩ := List.getLast?_eq_some_iff.mp hstar
    constructor
    · exact fun hm => ⟨z, hm, .refl z⟩
    · rintro ⟨y, hm, hy⟩
      obtain ⟨w, hw, hs⟩ := takes_snoc.mp hm
      exact takes_snoc.mpr ⟨w, hw, AtomSuffix.trans hs hy⟩
  · exact takes_snoc

/-- An item takes what its token says. -/
theorem takes_pushItem (hs : item.Sound) (hp : item.Plain)
    (hv : ∀ body, item = .bracket body → ValidUtf8 body) :
    TakeAll Token.Takes (pushItem tokens item) x z ↔
      ∃ y, TakeAll Token.Takes tokens x y ∧ item.tok.Takes y z := by
  have hbyte (b : UInt8) : TakeAll Token.Takes (pushLiteral tokens b) x z ↔
      ∃ y, TakeAll Token.Takes tokens x y ∧ (Tok.byte b).Takes y z := by
    rw [takes_pushLiteral]
    constructor
    · exact fun hm => ⟨_, hm, rfl⟩
    · rintro ⟨y, hm, rfl⟩
      exact hm
  cases item with
  | raw b =>
    rw [pushItem, Item.tok]
    split
    · exact takes_pushStar
    split
    · exact takes_snoc
    · exact hbyte b
  | escaped c => exact hbyte c
  | bracket body =>
    obtain ⟨negated, ranges, htok, hiff⟩ := classOf_spec hs (hv body rfl) hp
    rw [pushItem, takes_snoc, Item.tok, htok]
    refine exists_congr fun y => and_congr_right fun _ => and_congr_right fun _ => ?_
    rw [hiff y]

/-- The tokens of a segment take what its items say. -/
theorem takes_foldl (h : ∀ item ∈ is, item.Sound ∧ item.Plain)
    (hv : ∀ body, .bracket body ∈ is → ValidUtf8 body) :
    TakeAll Token.Takes (is.foldl pushItem tokens) x z ↔
      ∃ y, TakeAll Token.Takes tokens x y ∧ TakeAll Tok.Takes (is.map Item.tok) y z := by
  induction is generalizing tokens with
  | nil => exact ⟨fun hm => ⟨z, hm, rfl⟩, fun ⟨y, hm, hz⟩ => by rwa [show z = y from hz]⟩
  | cons item is ih =>
    obtain ⟨hitem, hrest⟩ := List.forall_mem_cons.mp h
    have hbody : ∀ body, item = .bracket body → ValidUtf8 body :=
      fun body hb => hv body (hb ▸ List.mem_cons_self)
    rw [List.foldl_cons, ih hrest fun body hm => hv body (List.mem_cons_of_mem _ hm)]
    constructor
    · rintro ⟨y, hy, hm⟩
      obtain ⟨w, hw, ht⟩ := (takes_pushItem hitem.1 hitem.2 hbody).mp hy
      exact ⟨w, hw, y, ht, hm⟩
    · rintro ⟨w, hw, y, ht, hm⟩
      exact ⟨y, (takes_pushItem hitem.1 hitem.2 hbody).mpr ⟨w, hw, ht⟩, hm⟩

theorem tokensFit_foldl (h : ∀ item ∈ is, item.Sound ∧ item.Plain)
    (hv : ∀ body, .bracket body ∈ is → ValidUtf8 body) :
    TokensFit (is.foldl pushItem []) x ↔ TokensMatch (is.map Item.tok) x := by
  rw [tokensFit_iff_takes, tokensMatch_iff_takes, takes_foldl h hv]
  constructor
  · rintro ⟨y, rfl, hm⟩
    exact hm
  · exact fun hm => ⟨x, rfl, hm⟩

/-! ## Literals that grow -/

/-- The text that the last token holds. -/
def lastText (tokens : List Token) : Bytes := (tokens.getLast?.map Token.text).getD []

/-- Tokens before `rest` is read: all literals are valid but the last, which is with it. -/
structure Growing (tokens : List Token) (rest : Bytes) : Prop where
  nonempty : ∀ text, .literal text ∈ tokens → text ≠ []
  done : ∀ text, .literal text ∈ tokens.dropLast → ValidUtf8 text
  valid : ValidUtf8 (lastText tokens ++ rest)

variable {rest : Bytes}

theorem Growing.nil (h : ValidUtf8 rest) : Growing [] rest :=
  ⟨fun _ hm => (List.not_mem_nil hm).elim, fun _ hm => (List.not_mem_nil hm).elim, h⟩

theorem lastText_concat (tokens : List Token) (t : Token) : lastText (tokens ++ [t]) = t.text := by
  rw [lastText, List.getLast?_concat]
  rfl

theorem mem_literal_cases {text : Bytes} (h : .literal text ∈ tokens) :
    .literal text ∈ tokens.dropLast ∨ text = lastText tokens := by
  rcases List.eq_nil_or_concat tokens with rfl | ⟨init, last, rfl⟩
  · cases h
  · rw [List.concat_eq_append] at h ⊢
    rw [List.dropLast_concat, lastText_concat]
    obtain hm | hm := List.mem_append.mp h
    · exact .inl hm
    · exact .inr (by rw [← List.mem_singleton.mp hm]; rfl)

/-- A byte that continues no sequence ends the last literal. -/
theorem Growing.cut (h : Growing tokens (b :: rest)) (hb : b < 0x80) :
    ValidTokens tokens ∧ ValidUtf8 rest := by
  obtain ⟨hlast, hrest⟩ := h.valid.split hb
  refine ⟨fun text hm => ⟨h.nonempty text hm, ?_⟩, hrest⟩
  obtain hm | rfl := mem_literal_cases hm
  · exact h.done text hm
  · exact hlast

/-- So does the end. -/
theorem Growing.finish (h : Growing tokens []) : ValidTokens tokens := by
  have hlast := h.valid
  rw [List.append_nil] at hlast
  refine fun text hm => ⟨h.nonempty text hm, ?_⟩
  obtain hm | rfl := mem_literal_cases hm
  · exact h.done text hm
  · exact hlast

theorem ValidTokens.growing {t : Token} (h : ValidTokens tokens) (ht : ∀ text, t ≠ .literal text)
    (hrest : ValidUtf8 rest) : Growing (tokens ++ [t]) rest := by
  have htext : t.text = [] := by
    cases t with
    | literal text => exact absurd rfl (ht text)
    | star | any | cls => rfl
  refine ⟨fun text hm => ?_, fun text hm => ?_, ?_⟩
  · obtain hm | hm := List.mem_append.mp hm
    · exact (h text hm).1
    · exact absurd (List.mem_singleton.mp hm).symm (ht text)
  · rw [List.dropLast_concat] at hm
    exact (h text hm).2
  · rwa [lastText_concat, htext]

theorem Growing.literal (h : Growing tokens (b :: rest)) : Growing (pushLiteral tokens b) rest := by
  have hvalid := h.valid
  rw [pushLiteral]
  split
  · next text htext =>
    obtain ⟨init, rfl⟩ := List.getLast?_eq_some_iff.mp htext
    have hdone := h.done
    rw [List.dropLast_concat] at hdone ⊢
    rw [lastText_concat] at hvalid
    refine ⟨fun text' hm => ?_, fun text' hm => ?_, ?_⟩
    · obtain hm | hm := List.mem_append.mp hm
      · exact h.nonempty text' (List.mem_append_left _ hm)
      · rw [Token.literal.inj (List.mem_singleton.mp hm)]
        exact List.append_ne_nil_of_right_ne_nil text (List.cons_ne_nil _ _)
    · rw [List.dropLast_concat] at hm
      exact hdone text' hm
    · rw [lastText_concat]
      change ValidUtf8 ((text ++ [b]) ++ rest)
      rwa [List.append_assoc]
  · next hlast =>
    have hnone : lastText tokens = [] := by
      rw [lastText]
      cases htokens : tokens.getLast? with
      | none => rfl
      | some t =>
        cases t with
        | literal text => exact absurd htokens (hlast text)
        | star | any | cls => rfl
    rw [hnone] at hvalid
    refine ⟨fun text hm => ?_, fun text hm => ?_, ?_⟩
    · obtain hm | hm := List.mem_append.mp hm
      · exact h.nonempty text hm
      · rw [Token.literal.inj (List.mem_singleton.mp hm)]
        exact List.cons_ne_nil _ _
    · rw [List.dropLast_concat] at hm
      obtain hm' | rfl := mem_literal_cases hm
      · exact h.done text hm'
      · exact absurd hnone (h.nonempty _ hm)
    · rwa [lastText_concat]

/-- An item that is pushed leaves the literals growing. -/
theorem Growing.push (h : Growing tokens (item.text ++ rest)) :
    Growing (pushItem tokens item) rest := by
  cases item with
  | raw b =>
    rw [pushItem]
    split
    · next hb =>
      obtain ⟨hvalid, hrest⟩ := h.cut (by rw [hb]; decide)
      rw [pushStar]
      split
      · next hstar =>
        refine ⟨h.nonempty, h.done, ?_⟩
        rwa [lastText, hstar]
      · exact hvalid.growing (by simp) hrest
    split
    · next hb =>
      obtain ⟨hvalid, hrest⟩ := h.cut (by rw [hb]; decide)
      exact hvalid.growing (by simp) hrest
    · exact h.literal
  | escaped c =>
    obtain ⟨hvalid, hrest⟩ := h.valid.split (b := backslash) (by decide)
    exact Growing.literal ⟨h.nonempty, h.done, hvalid.append hrest⟩
  | bracket body =>
    rw [bracket_text] at h
    obtain ⟨hvalid, hbody⟩ := h.cut (by decide)
    exact hvalid.growing (by simp) (hbody.split (by decide)).2

theorem growing_foldl (h : Growing tokens (itemsText is ++ rest)) :
    Growing (is.foldl pushItem tokens) rest := by
  induction is generalizing tokens with
  | nil => exact h
  | cons item is ih =>
    rw [itemsText_cons, List.append_assoc] at h
    exact ih h.push

theorem valid_foldl (h : ValidUtf8 (itemsText is)) : ValidTokens (is.foldl pushItem []) := by
  refine Growing.finish (growing_foldl ?_)
  rw [List.append_nil]
  exact .nil h

/-! ## The kind of a segment -/

/-- One of two tokens behind one another is no literal. -/
def Apart (t u : Token) : Prop := ¬∃ text text', t = .literal text ∧ u = .literal text'

/-- Literals hold no separator, and do not follow one another. -/
structure Tidy (tokens : List Token) : Prop where
  noSlash : ∀ text, .literal text ∈ tokens → slash ∉ text
  apart : tokens.IsChain Apart

theorem Tidy.snoc {t : Token} (h : Tidy tokens) (ht : ∀ text, t ≠ .literal text) :
    Tidy (tokens ++ [t]) := by
  refine ⟨fun text hm => ?_, h.apart.append (.singleton t) ?_⟩
  · obtain hm | hm := List.mem_append.mp hm
    · exact h.noSlash text hm
    · exact absurd (List.mem_singleton.mp hm).symm (ht text)
  · rintro u - v hv ⟨text, text', -, rfl⟩
    cases hv
    exact ht text' rfl

theorem Tidy.literal (h : Tidy tokens) (hb : b ≠ slash) : Tidy (pushLiteral tokens b) := by
  rw [pushLiteral]
  split
  · next text htext =>
    obtain ⟨init, rfl⟩ := List.getLast?_eq_some_iff.mp htext
    rw [List.dropLast_concat]
    obtain ⟨hinit, -, hcross⟩ := List.isChain_append.mp h.apart
    refine ⟨fun text' hm => ?_, hinit.append (.singleton _) ?_⟩
    · obtain hm | hm := List.mem_append.mp hm
      · exact h.noSlash text' (List.mem_append_left _ hm)
      · rw [Token.literal.inj (List.mem_singleton.mp hm), List.mem_append, List.mem_singleton]
        rintro (hm' | hm')
        · exact h.noSlash text (List.mem_append_right _ List.mem_cons_self) hm'
        · exact hb hm'.symm
    · rintro u hu v - ⟨text', -, rfl, -⟩
      exact hcross _ hu _ rfl ⟨text', text, rfl, rfl⟩
  · next hlast =>
    refine ⟨fun text' hm => ?_, h.apart.append (.singleton _) ?_⟩
    · obtain hm | hm := List.mem_append.mp hm
      · exact h.noSlash text' hm
      · rw [Token.literal.inj (List.mem_singleton.mp hm), List.mem_singleton]
        exact fun hm' => hb hm'.symm
    · rintro u hu v - ⟨text', -, rfl, -⟩
      exact hlast text' hu

theorem Tidy.push (h : Tidy tokens) (hp : item.Plain) : Tidy (pushItem tokens item) := by
  cases item with
  | raw b =>
    rw [pushItem]
    split
    · rw [pushStar]
      split
      · exact h
      · exact h.snoc (by simp)
    split
    · exact h.snoc (by simp)
    · exact h.literal hp
  | escaped c => exact h.literal hp
  | bracket body => exact h.snoc (by simp)

theorem tidy_foldl (h : Tidy tokens) (hp : ∀ item ∈ is, item.Plain) :
    Tidy (is.foldl pushItem tokens) := by
  induction is generalizing tokens with
  | nil => exact h
  | cons item is ih =>
    rw [List.forall_mem_cons] at hp
    exact ih (h.push hp.1) hp.2

/-- Literals alone are at most one. -/
theorem literalTokens_of_apart (hv : ValidTokens tokens) (h : tokens.IsChain Apart)
    (hall : ∀ t ∈ tokens, ∃ text, t = .literal text) :
    ∃ text, tokens = literalTokens text := by
  match tokens with
  | [] => exact ⟨[], rfl⟩
  | [t] =>
    obtain ⟨text, rfl⟩ := hall t List.mem_cons_self
    exact ⟨text, (if_neg (hv text List.mem_cons_self).1).symm⟩
  | t :: u :: rest =>
    obtain ⟨text, rfl⟩ := hall t List.mem_cons_self
    obtain ⟨text', rfl⟩ := hall u (List.mem_cons_of_mem _ List.mem_cons_self)
    exact absurd ⟨text, text', rfl, rfl⟩ (List.isChain_cons_cons.mp h).1

/-- A literal or a star. -/
def Token.Simple : Token → Bool
  | .any => false
  | .cls _ => false
  | _ => true

theorem literal_of_simple {t : Token} (h : t.Simple = true) (ht : t ≠ .star) :
    ∃ text, t = .literal text := by
  cases t with
  | literal text => exact ⟨text, rfl⟩
  | star => exact absurd rfl ht
  | any | cls => cases h

theorem kind_plainSegment (tokens : List Token) :
    (plainSegment tokens).kind =
      if !tokens.all Token.Simple || tokens.count .star > 1 then .general
      else if tokens.count .star = 1 then .affix else .literal := by
  have hsimple (f : Token → Bool) (hf : ∀ t, f t = t.Simple) :
      tokens.all f = tokens.all Token.Simple := by
    rw [funext hf]
  rw [plainSegment.eq_def]
  dsimp only
  rw [hsimple]
  intro t
  cases t <;> rfl

theorem hasKind_plainSegment (hv : ValidTokens tokens) (h : tokens.IsChain Apart) :
    (plainSegment tokens).HasKind := by
  have htokens : (plainSegment tokens).tokens = tokens := rfl
  rw [Segment.HasKind, kind_plainSegment, htokens]
  by_cases hgeneral : (!tokens.all Token.Simple || tokens.count .star > 1) = true
  · rw [if_pos hgeneral]
    trivial
  rw [if_neg hgeneral]
  rw [Bool.or_eq_true, Bool.not_eq_true', decide_eq_true_eq, not_or, Bool.not_eq_false,
    List.all_eq_true] at hgeneral
  obtain ⟨hsimple, hcount⟩ := hgeneral
  by_cases hone : tokens.count .star = 1
  · rw [if_pos hone]
    have hmem : Token.star ∈ tokens := List.count_pos_iff.mp (by omega)
    obtain ⟨front, back, rfl, hfront⟩ := List.eq_append_cons_of_mem hmem
    have hback : Token.star ∉ back := by
      rw [← List.count_eq_zero]
      rw [List.count_append, List.count_cons_self, List.count_eq_zero.mpr hfront] at hone
      omega
    obtain ⟨hchain, hchain', -⟩ := List.isChain_append.mp h
    obtain ⟨ftext, hf⟩ := literalTokens_of_apart
      (fun text hm => hv text (List.mem_append_left _ hm)) hchain fun t hm =>
        literal_of_simple (hsimple t (List.mem_append_left _ hm)) fun ht => hfront (ht ▸ hm)
    have hin {t : Token} (hm : t ∈ back) : t ∈ front ++ .star :: back :=
      List.mem_append_right _ (List.mem_cons_of_mem _ hm)
    obtain ⟨btext, hb⟩ := literalTokens_of_apart (fun text hm => hv text (hin hm)) hchain'.tail
      fun t hm => literal_of_simple (hsimple t (hin hm)) fun ht => hback (ht ▸ hm)
    exact ⟨ftext, btext, by rw [affixTokens, ← hf, ← hb]⟩
  · rw [if_neg hone]
    refine literalTokens_of_apart hv h fun t hm => literal_of_simple (hsimple t hm) ?_
    rintro rfl
    have := List.count_pos_iff.mpr hm
    omega

/-- The segment of tidy tokens is sound. -/
theorem sound_plainSegment (hv : ValidTokens tokens) (ht : Tidy tokens) :
    (plainSegment tokens).Sound := by
  refine ⟨hv, ht.noSlash, hasKind_plainSegment hv ht.apart, fun b hb => ?_⟩
  rw [plainSegment.eq_def] at hb
  dsimp only at hb
  split at hb
  · next c text tokens =>
    cases hb
    exact ⟨text, tokens, rfl⟩
  · cases hb

end Kotatsu.Support.Glob
