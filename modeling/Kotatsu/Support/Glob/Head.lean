import Kotatsu.Support.Glob.Compile
import Kotatsu.Support.Glob.Expand

/-!
# The literal head

The head of a pattern is bytes and escaped bytes, so it is in every arm, and what an arm
matches begins with its text: up to a separator, after which an arm of `**` alone may also
match nothing, or into the first segment of what follows.
-/

namespace Kotatsu.Support.Glob

open Kotatsu.Core

/-- The byte an item stands for. -/
def Item.byte : Item → UInt8
  | .raw b => b
  | .escaped c => c
  | .bracket _ => 0

/-- An item that is a byte, and a separator only unescaped. -/
structure Item.IsByte (item : Item) : Prop where
  sound : item.Sound
  tok : item.tok = .byte item.byte
  slash : item.byte = slash ↔ item = .raw Glob.slash
  brace : item ≠ .raw openBrace

variable {s : Bytes} {h arm : List Item} {x : Bytes}

theorem isByte_escaped {c : UInt8} (hc : c ≠ slash) : (Item.escaped c).IsByte where
  sound := trivial
  tok := rfl
  slash := iff_of_false hc (by simp)
  brace := by simp

theorem isByte_raw {b : UInt8} (hw : isWildcard b = false) (hb : b ≠ backslash) :
    (Item.raw b).IsByte := by
  simp only [isWildcard, Bool.or_eq_false_iff, decide_eq_false_iff_not] at hw
  obtain ⟨⟨⟨hquestion, hstar⟩, hopen⟩, hbrace⟩ := hw
  refine ⟨⟨hopen, hb⟩, ?_, by rw [Item.byte, Item.raw.injEq], by rwa [ne_eq, Item.raw.injEq]⟩
  rw [Item.tok, if_neg hstar, if_neg hquestion, Item.byte]

/-- The head takes bytes, and stops at a wildcard or a backslash. -/
theorem literalHead_spec (s : Bytes) :
    ∃ h, s.take (literalHead s).stop = itemsText h ∧ (∀ item ∈ h, item.IsByte) ∧
      h.map Item.byte = (literalHead s).text ∧
      ∀ b ∈ (s.drop (literalHead s).stop).head?, isWildcard b = true ∨ b = backslash := by
  fun_induction literalHead s with
  | case1 => exact ⟨[], rfl, by simp, rfl, by simp⟩
  | case2 b rest hw =>
    refine ⟨[], rfl, by simp, rfl, fun c hc => ?_⟩
    cases hc
    exact .inl hw
  | case3 => exact ⟨[], rfl, by simp, rfl, fun c hc => by cases hc; exact .inr rfl⟩
  | case4 rest _ => exact ⟨[], rfl, by simp, rfl, fun c hc => by cases hc; exact .inr rfl⟩
  | case5 c rest hc head _ ih =>
    obtain ⟨h, htake, hbytes, htext, hstop⟩ := ih
    refine ⟨.escaped c :: h, ?_, List.forall_mem_cons.mpr ⟨isByte_escaped hc, hbytes⟩, ?_, hstop⟩
    · rw [itemsText_cons, ← htake]
      rfl
    · rw [List.map_cons, htext]
      rfl
  | case6 b rest hw hb head ih =>
    obtain ⟨h, htake, hbytes, htext, hstop⟩ := ih
    refine ⟨.raw b :: h, ?_,
      List.forall_mem_cons.mpr ⟨isByte_raw (by simpa using hw) hb, hbytes⟩, ?_, hstop⟩
    · rw [itemsText_cons, ← htake]
      rfl
    · rw [List.map_cons, htext]
      rfl

/-! ## Bytes in an arm -/

variable {q : List Item} {text : Bytes}

theorem map_tok_bytes (h : ∀ item ∈ q, item.IsByte) :
    q.map Item.tok = (q.map Item.byte).map .byte := by
  rw [List.map_map]
  exact List.map_congr_left fun item hm => (h item hm).tok

/-- Bytes take themselves. -/
theorem tokensMatch_bytes {toks : List Tok} :
    TokensMatch (text.map .byte ++ toks) x ↔ ∃ y, x = text ++ y ∧ TokensMatch toks y := by
  induction text generalizing x with
  | nil =>
    constructor
    · exact fun hm => ⟨x, rfl, hm⟩
    · rintro ⟨y, rfl, hm⟩
      exact hm
  | cons b text ih =>
    constructor
    · rintro ⟨rest, rfl, hm⟩
      obtain ⟨y, rfl, hy⟩ := ih.mp hm
      exact ⟨y, rfl, hy⟩
    · rintro ⟨y, rfl, hy⟩
      exact ⟨text ++ y, rfl, ih.mpr ⟨y, rfl, hy⟩⟩

/-- A segment that begins with a byte is no whole `**`. -/
theorem readSegment_bytes {is : List Item} (h : ∀ item ∈ q, item.IsByte)
    (hne : q ≠ [] ∨ is = []) :
    readSegment (q ++ is) = some ((q.map Item.byte).map .byte ++ is.map Item.tok) := by
  have hstars : q ++ is ≠ [.raw star, .raw star] := by
    intro heq
    cases q with
    | nil =>
      obtain hne | rfl := hne
      · exact hne rfl
      · cases heq
    | cons item q =>
      rw [List.cons_append, List.cons.injEq] at heq
      have htok := (h item List.mem_cons_self).tok
      rw [heq.1] at htok
      cases htok
  rw [readSegment, if_neg hstars, List.map_append, map_tok_bytes h]

theorem splitOn_bytes (h : ∀ item ∈ q, item.IsByte) :
    (q.splitOn (.raw slash)).map readSegment =
      ((q.map Item.byte).splitOn slash).map fun text => some (text.map .byte) := by
  rw [splitOn_map (a := Item.raw slash) fun item hm => (h item hm).slash, List.map_map]
  refine List.map_congr_left fun js hjs => ?_
  have hread : readSegment (js ++ []) = some ((js.map Item.byte).map .byte ++ [].map Item.tok) :=
    readSegment_bytes (fun item hm => h item (mem_of_mem_splitOn hjs hm).1) (.inr rfl)
  rw [List.append_nil, List.map_nil, List.append_nil] at hread
  exact hread

/-- Segments of bytes take themselves. -/
theorem matchesSeq_bytes (texts ys : List Bytes) (ps : List (Option (List Tok))) :
    MatchesSeq TokensMatch (texts.map (fun text => some (text.map .byte)) ++ ps) ys ↔
      ∃ zs, ys = texts ++ zs ∧ MatchesSeq TokensMatch ps zs := by
  induction texts generalizing ys with
  | nil =>
    constructor
    · exact fun hm => ⟨ys, rfl, hm⟩
    · rintro ⟨zs, rfl, hm⟩
      exact hm
  | cons text texts ih =>
    have hself (y : Bytes) : TokensMatch (text.map .byte) y ↔ y = text := by
      have hm : TokensMatch (text.map .byte ++ []) y ↔ ∃ z, y = text ++ z ∧ TokensMatch [] z :=
        tokensMatch_bytes
      rw [List.append_nil] at hm
      rw [hm]
      constructor
      · rintro ⟨z, rfl, rfl⟩
        exact List.append_nil text
      · rintro rfl
        exact ⟨[], (List.append_nil y).symm, rfl⟩
    cases ys with
    | nil =>
      refine iff_of_false matchesSeq_some_nil ?_
      rintro ⟨zs, hnil, -⟩
      cases hnil
    | cons y ys =>
      rw [List.map_cons, List.cons_append, matchesSeq_some_cons, hself, ih]
      constructor
      · rintro ⟨rfl, zs, rfl, hm⟩
        exact ⟨zs, rfl, hm⟩
      · rintro ⟨zs, heq, hm⟩
        rw [List.cons_append, List.cons.injEq] at heq
        exact ⟨heq.1, zs, heq.2, hm⟩

theorem readTrailing_bytes (texts : List Bytes) (ps : List (Option (List Tok))) :
    readTrailing (texts.map (fun text => some (text.map .byte)) ++ ps) =
      texts.map (fun text => some (text.map .byte)) ++ readTrailing ps := by
  induction texts with
  | nil => rfl
  | cons text texts ih => rw [List.map_cons, List.cons_append, readTrailing_some, ih]; rfl

/-- Behind a directory, an arm matches what it does in it; and the directory itself where
it matches nothing. -/
theorem matches_directory (h : ∀ item ∈ q, item.IsByte) (arm : List Item) :
    MatchesSeq TokensMatch (readArm (q ++ .raw slash :: arm)) (x.splitOn slash) ↔
      x = q.map Item.byte ∧ MatchesSeq TokensMatch (readArm arm) [] ∨
        ∃ y, x = q.map Item.byte ++ slash :: y ∧
          MatchesSeq TokensMatch (readArm arm) (y.splitOn slash) := by
  rw [readArm, List.splitOn_append_cons_self, List.map_append, splitOn_bytes h,
    readTrailing_bytes, matchesSeq_bytes, ← readArm]
  constructor
  · rintro ⟨zs, hsplit, hm⟩
    by_cases hnil : zs = []
    · subst hnil
      rw [List.append_nil] at hsplit
      exact .inl ⟨splitOn_injective hsplit, hm⟩
    · obtain ⟨y, hx, rfl⟩ := splitOn_eq_append hsplit hnil
      exact .inr ⟨y, hx, hm⟩
  · rintro (⟨rfl, hm⟩ | ⟨y, rfl, hm⟩)
    · exact ⟨[], (List.append_nil _).symm, hm⟩
    · exact ⟨_, List.splitOn_append_cons_self .., hm⟩

/-- An arm that begins with bytes in front of other items of its first segment. -/
theorem readArm_inner (h : ∀ item ∈ q, item.IsByte) (hslash : .raw slash ∉ q) (hne : q ≠ [])
    (arm : List Item) :
    ∃ toks ps, readArmFrom false arm = some toks :: ps ∧
      readArm (q ++ arm) = some ((q.map Item.byte).map .byte ++ toks) :: ps := by
  obtain ⟨js, jss, hjs⟩ := List.exists_cons_of_ne_nil (List.splitOn_ne_nil (.raw slash) arm)
  refine ⟨js.map Item.tok, readTrailing (jss.map readSegment), ?_, ?_⟩
  · rw [readArmFrom, hjs, readFrom, readFirst, if_neg Bool.false_ne_true, readTrailing_some]
  · rw [readArm, splitOn_append_left hslash, hjs, List.modifyHead_cons, List.map_cons,
      readSegment_bytes h (.inl hne), readTrailing_some]

/-- Bytes inside a segment are taken by what the rest of the arm takes behind them. -/
theorem matches_inner (h : ∀ item ∈ q, item.IsByte) (hslash : .raw slash ∉ q) (hne : q ≠ [])
    (arm : List Item) :
    MatchesSeq TokensMatch (readArm (q ++ arm)) (x.splitOn slash) ↔
      ∃ y, x = q.map Item.byte ++ y ∧
        MatchesSeq TokensMatch (readArmFrom false arm) (y.splitOn slash) := by
  have hnot : slash ∉ q.map Item.byte := by
    intro hm
    obtain ⟨item, hitem, hbyte⟩ := List.mem_map.mp hm
    exact hslash ((h item hitem).slash.mp hbyte ▸ hitem)
  obtain ⟨toks, ps, hfrom, hread⟩ := readArm_inner h hslash hne arm
  rw [hread, hfrom]
  constructor
  · intro hm
    rw [splitOn_segmentEnd, matchesSeq_some_cons, tokensMatch_bytes] at hm
    obtain ⟨⟨y, hy, hfit⟩, hrest⟩ := hm
    have hx : x = q.map Item.byte ++ (y ++ (segmentEnd x).2) := by
      conv_lhs => rw [(segmentEnd_spec x).1, hy]
      rw [List.append_assoc]
    obtain ⟨-, hfirst, hafter⟩ := segmentEnd_spec x
    rw [hy, List.mem_append, not_or] at hfirst
    refine ⟨_, hx, ?_⟩
    rw [splitOn_segmentEnd (y ++ _), segmentEnd_append hfirst.2 hafter, matchesSeq_some_cons]
    exact ⟨hfit, hrest⟩
  · rintro ⟨y, rfl, hm⟩
    rw [splitOn_append_left hnot]
    rw [splitOn_segmentEnd y, matchesSeq_some_cons] at hm
    rw [splitOn_segmentEnd y, List.modifyHead_cons, matchesSeq_some_cons, tokensMatch_bytes]
    exact ⟨⟨_, rfl, hm.1⟩, hm.2⟩

/-- Bytes that end inside a segment are taken by what the rest of the arm takes behind them. -/
theorem matches_inside (h : ∀ item ∈ q, item.IsByte) (hlast : q.getLast? ≠ some (.raw slash))
    (hne : q ≠ []) (arm : List Item) :
    MatchesSeq TokensMatch (readArm (q ++ arm)) (x.splitOn slash) ↔
      ∃ y, x = q.map Item.byte ++ y ∧
        MatchesSeq TokensMatch (readArmFrom false arm) (y.splitOn slash) := by
  by_cases hslash : .raw slash ∈ q
  · obtain ⟨back, front, hsplit, hback⟩ :=
      List.eq_append_cons_of_mem (List.mem_reverse.mpr hslash)
    rw [← List.reverse_inj, List.reverse_reverse, List.reverse_append, List.reverse_cons,
      List.append_assoc, List.singleton_append] at hsplit
    have hnot : .raw slash ∉ back.reverse := fun hm => hback (List.mem_reverse.mp hm)
    generalize front.reverse = front at hsplit
    generalize back.reverse = back at hsplit hnot
    subst hsplit
    have hne' : back ≠ [] := by
      rintro rfl
      exact hlast (by rw [List.getLast?_append_of_ne_nil _ (List.cons_ne_nil _ _)]; rfl)
    have hfront : ∀ item ∈ front, item.IsByte := fun item hm => h item (List.mem_append_left _ hm)
    have hback' : ∀ item ∈ back, item.IsByte :=
      fun item hm => h item (List.mem_append_right _ (List.mem_cons_of_mem _ hm))
    obtain ⟨toks, ps, -, hread⟩ := readArm_inner hback' hnot hne' arm
    rw [List.append_assoc, List.cons_append, matches_directory hfront, or_iff_right]
    · simp only [matches_inner hback' hnot hne']
      have hmap : (front ++ .raw slash :: back).map Item.byte =
          front.map Item.byte ++ slash :: back.map Item.byte := by
        rw [List.map_append, List.map_cons]
        rfl
      rw [hmap]
      constructor
      · rintro ⟨z, rfl, y, rfl, hm⟩
        exact ⟨y, by rw [List.append_assoc, List.cons_append], hm⟩
      · rintro ⟨y, rfl, hm⟩
        exact ⟨_, by rw [List.append_assoc, List.cons_append], y, rfl, hm⟩
    · rw [hread]
      exact fun hm => matchesSeq_some_nil hm.2
  · exact matches_inner h hslash hne arm

end Kotatsu.Support.Glob
