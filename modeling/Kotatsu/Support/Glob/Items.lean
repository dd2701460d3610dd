import Kotatsu.Support.Glob.Pieces
import Kotatsu.Support.Glob.Reference

/-!
# Items

A text that is read whole is a list of items, and the compiler reads it one item at a
time: the tokens of a segment are a fold over the items up to the next separator, and the
segments of an arm are those of the lists between its separators.
-/

namespace Kotatsu.Support.Glob

open Kotatsu.Core

/-- How items are written. -/
def itemsText (is : List Item) : Bytes := is.flatMap Item.text

/-- What is written so is read as the item. -/
def Item.Sound : Item → Prop
  | .raw b => b ≠ openBracket ∧ b ≠ backslash
  | .escaped _ => True
  | .bracket body => Closes body

variable {item : Item} {is js : List Item} {s rest : Bytes} {b : UInt8}

@[simp] theorem itemsText_nil : itemsText [] = [] := rfl

@[simp] theorem itemsText_cons (item : Item) (is : List Item) :
    itemsText (item :: is) = item.text ++ itemsText is := List.flatMap_cons

@[simp] theorem itemsText_append (is js : List Item) :
    itemsText (is ++ js) = itemsText is ++ itemsText js := List.flatMap_append

theorem bracket_text (body rest : Bytes) :
    (Item.bracket body).text ++ rest = openBracket :: (body ++ closeBracket :: rest) := by
  rw [Item.text, List.cons_append, List.cons_append, List.append_assoc, List.singleton_append]

/-! ## Reading what is written -/

theorem items_nil : items [] = some [] := by rw [items]

theorem items_raw (hb : b ≠ openBracket) (hb' : b ≠ backslash) (rest : Bytes) :
    items (b :: rest) = (items rest).map (.raw b :: ·) := by
  rw [items.eq_def]
  dsimp only
  rw [if_neg hb, if_neg hb']

theorem items_escaped (c : UInt8) (rest : Bytes) :
    items (backslash :: c :: rest) = (items rest).map (.escaped c :: ·) := by
  rw [items, if_neg (by decide), if_pos rfl]

theorem items_bracket {body : Bytes} (h : Closes body) (rest : Bytes) :
    items (openBracket :: (body ++ closeBracket :: rest)) =
      (items rest).map (.bracket body :: ·) := by
  rw [items.eq_def]
  dsimp only
  rw [if_pos rfl]
  have hdrop : (body ++ closeBracket :: rest).drop (0 + 1 + body.length) = rest := by
    rw [Nat.zero_add, Nat.add_comm, ← List.drop_drop, List.drop_left]
    rfl
  have htake : (body ++ closeBracket :: rest).take (0 + 1 + body.length - 1) = body := by
    rw [Nat.zero_add, Nat.add_sub_cancel_left, List.take_left]
  rw [h 0 rest]
  dsimp only
  rw [hdrop, htake]

theorem items_cons (h : item.Sound) (rest : Bytes) :
    items (item.text ++ rest) = (items rest).map (item :: ·) := by
  cases item with
  | raw b => exact items_raw h.1 h.2 rest
  | escaped c => exact items_escaped c rest
  | bracket body =>
    rw [bracket_text]
    exact items_bracket h rest

/-- A text is read as items when they are written so and each is read as itself. -/
theorem items_eq_some : items s = some is ↔ s = itemsText is ∧ ∀ item ∈ is, item.Sound := by
  constructor
  · intro h
    fun_induction items s generalizing is with
    | case1 =>
      cases h
      exact ⟨rfl, by simp⟩
    | case2 | case4 => cases h
    | case3 rest close hscan ih =>
      obtain ⟨tail, htail, rfl⟩ := Option.map_eq_some_iff.mp h
      obtain ⟨htext, hsound⟩ := ih htail
      obtain ⟨body, more, rfl, rfl, hcloses, -, -⟩ := scanBracket_ok hscan
      have hdrop : (body ++ closeBracket :: more).drop (0 + 1 + body.length) = more := by
        rw [Nat.zero_add, Nat.add_comm, ← List.drop_drop, List.drop_left]
        rfl
      have htake : (body ++ closeBracket :: more).take (0 + 1 + body.length - 1) = body := by
        rw [Nat.zero_add, Nat.add_sub_cancel_left, List.take_left]
      rw [hdrop] at htext
      rw [htake]
      refine ⟨?_, List.forall_mem_cons.mpr ⟨hcloses, hsound⟩⟩
      rw [itemsText_cons, bracket_text, ← htext]
    | case5 c rest _ ih =>
      obtain ⟨tail, htail, rfl⟩ := Option.map_eq_some_iff.mp h
      obtain ⟨rfl, hsound⟩ := ih htail
      exact ⟨rfl, List.forall_mem_cons.mpr ⟨trivial, hsound⟩⟩
    | case6 b rest hb hb' ih =>
      obtain ⟨tail, htail, rfl⟩ := Option.map_eq_some_iff.mp h
      obtain ⟨rfl, hsound⟩ := ih htail
      exact ⟨rfl, List.forall_mem_cons.mpr ⟨⟨hb, hb'⟩, hsound⟩⟩
  · rintro ⟨rfl, hsound⟩
    induction is with
    | nil => exact items_nil
    | cons item is ih =>
      rw [List.forall_mem_cons] at hsound
      rw [itemsText_cons, items_cons hsound.1, ih hsound.2]
      rfl

theorem items_append {t : Bytes} (hs : items s = some is) (ht : items t = some js) :
    items (s ++ t) = some (is ++ js) := by
  obtain ⟨rfl, hsound⟩ := items_eq_some.mp hs
  obtain ⟨rfl, hsound'⟩ := items_eq_some.mp ht
  refine items_eq_some.mpr ⟨(itemsText_append is js).symm, fun item hm => ?_⟩
  exact (List.mem_append.mp hm).elim (hsound item) (hsound' item)

theorem items_singleton (h : item.Sound) : items item.text = some [item] :=
  items_eq_some.mpr ⟨(List.append_nil _).symm, List.forall_mem_singleton.mpr h⟩

/-- What is read in front of a text stays in front. -/
theorem items_append_left {t : Bytes} (hs : items s = some is) :
    items (s ++ t) = (items t).map (is ++ ·) := by
  cases ht : items t with
  | some js => exact items_append hs ht
  | none =>
    rw [Option.map_none, Option.eq_none_iff_forall_ne_some]
    intro ks hks
    obtain ⟨rfl, hsound⟩ := items_eq_some.mp hs
    clear hs
    induction is generalizing ks with
    | nil => exact absurd (ht.symm.trans hks) (by simp)
    | cons item is ih =>
      rw [List.forall_mem_cons] at hsound
      rw [itemsText_cons, List.append_assoc, items_cons hsound.1] at hks
      obtain ⟨tail, htail, -⟩ := Option.map_eq_some_iff.mp hks
      exact ih tail hsound.2 htail

/-! ## Tokens -/

/-- What a bracket expression says between its negation and its end. -/
def membersOf (body : Bytes) : Bytes := if isNegation body then body.drop 1 else body

/-- The class that a bracket expression compiles to. -/
def classOf (body : Bytes) : CharClass where
  negated := isNegation body
  ranges :=
    match parseBracketCharset (membersOf body) with
    | .ok ranges => ranges
    | .error _ => []

/-- An item is put behind the tokens of a segment. -/
def pushItem (tokens : List Token) : Item → List Token
  | .raw b =>
    if b = star then pushStar tokens
    else if b = question then tokens ++ [.any]
    else pushLiteral tokens b
  | .escaped c => pushLiteral tokens c
  | .bracket body => tokens ++ [.cls (classOf body)]

/-- What may stand in a segment: a class in order, and no separator. -/
def Item.Plain : Item → Prop
  | .raw b => b ≠ slash
  | .escaped c => c ≠ slash
  | .bracket body => ∃ ranges, parseBracketCharset (membersOf body) = .ok ranges

theorem pushStar_pushStar (tokens : List Token) : pushStar (pushStar tokens) = pushStar tokens := by
  have hlast : (pushStar tokens).getLast? = some .star := by
    rw [pushStar]
    split
    · next h => exact h
    · rw [List.getLast?_append_of_ne_nil _ (List.cons_ne_nil _ _), List.getLast?_singleton]
  conv_lhs => rw [pushStar, if_pos hlast]

/-- Stars behind one another are one. -/
theorem foldl_stars (n : Nat) (tokens : List Token) :
    (List.replicate (n + 1) (Item.raw star)).foldl pushItem tokens = pushStar tokens := by
  induction n generalizing tokens with
  | zero => rfl
  | succ n ih => rw [List.replicate_succ, List.foldl_cons, ih, pushItem, if_pos rfl,
      pushStar_pushStar]

theorem itemsText_stars (n : Nat) :
    itemsText (List.replicate n (.raw star)) = List.replicate n star := by
  induction n with
  | zero => rfl
  | succ n ih => rw [List.replicate_succ, itemsText_cons, ih, List.replicate_succ]; rfl

variable {i : Nat} {tokens tokens' : List Token}

/-- The tokens of a segment are those of the items up to its end. -/
theorem compileTokens_items (h : compileTokens i s tokens = .ok (tokens', rest)) :
    ∃ is, s = itemsText is ++ rest ∧ (∀ item ∈ is, item.Sound ∧ item.Plain) ∧
      (rest = [] ∨ rest.head? = some slash) ∧ tokens' = is.foldl pushItem tokens := by
  fun_induction compileTokens i s tokens with
  | case1 =>
    cases h
    exact ⟨[], rfl, by simp, .inl rfl, rfl⟩
  | case2 =>
    cases h
    exact ⟨[], rfl, by simp, .inr rfl, rfl⟩
  | case3 | case4 | case6 | case9 | case10 => cases h
  | case5 i tokens rest close hscan body negated ranges hranges _ ih =>
    obtain ⟨is, htext, hplain, hrest, rfl⟩ := ih h
    obtain ⟨inner, more, rfl, rfl, hcloses, -, -⟩ := scanBracket_ok hscan
    have hbody : body = inner := by
      dsimp only [body]
      rw [show i + 1 + inner.length - i - 1 = inner.length by omega, List.take_left]
    have hmore : (inner ++ closeBracket :: more).drop (i + 1 + inner.length - i) = more := by
      rw [show i + 1 + inner.length - i = inner.length + 1 by omega, ← List.drop_drop,
        List.drop_left]
      rfl
    have hparse : parseBracketCharset (membersOf inner) = .ok ranges := by
      rw [← hbody, ← hranges, membersOf, dite_eq_ite]
    rw [hmore] at htext
    refine ⟨.bracket inner :: is, ?_, List.forall_mem_cons.mpr ⟨⟨hcloses, ranges, hparse⟩, hplain⟩,
      hrest, ?_⟩
    · rw [itemsText_cons, List.append_assoc, bracket_text, htext]
    · have hclass : classOf inner = ⟨negated, ranges⟩ := by
        rw [classOf, hparse]
        dsimp only [negated]
        rw [hbody]
      rw [List.foldl_cons, pushItem, hclass]
  | case7 i tokens rest' _ _ run hrun ih =>
    obtain ⟨is, htext, hplain, hrest, rfl⟩ := ih h
    have hall : ∀ b ∈ run, b = star := fun b hb => by simpa using List.mem_takeWhile_imp hb
    have hlen : run.length = (rest'.takeWhile (· = star)).length + 1 := by
      dsimp only [run]
      rw [List.takeWhile_cons_of_pos (by simp), List.length_cons]
    have hsplit : star :: rest' = run ++ rest'.dropWhile (· = star) := by
      conv_lhs => rw [← List.takeWhile_append_dropWhile (p := (· = star)) (l := star :: rest')]
      rw [List.dropWhile_cons_of_pos (by simp)]
    refine ⟨List.replicate run.length (.raw star) ++ is, ?_, fun item hm => ?_, hrest, ?_⟩
    · rw [hsplit, htext, itemsText_append, itemsText_stars, List.append_assoc,
        ← List.eq_replicate_of_mem hall]
    · obtain hm | hm := List.mem_append.mp hm
      · rw [List.eq_of_mem_replicate hm]
        exact ⟨⟨by decide, by decide⟩, fun h => absurd h (by decide)⟩
      · exact hplain item hm
    · rw [List.foldl_append, hlen, foldl_stars]
  | case8 i tokens rest _ _ _ ih =>
    obtain ⟨is, htext, hplain, hrest, rfl⟩ := ih h
    have hitem : (Item.raw question).Sound ∧ (Item.raw question).Plain :=
      ⟨⟨by decide, by decide⟩, fun h => absurd h (by decide)⟩
    exact ⟨.raw question :: is, by rw [htext]; rfl, List.forall_mem_cons.mpr ⟨hitem, hplain⟩,
      hrest, rfl⟩
  | case11 i tokens c rest hc _ _ _ _ ih =>
    obtain ⟨is, htext, hplain, hrest, rfl⟩ := ih h
    exact ⟨.escaped c :: is, by rw [htext]; rfl,
      List.forall_mem_cons.mpr ⟨⟨trivial, hc⟩, hplain⟩, hrest, rfl⟩
  | case12 i tokens b rest hslash hopen hstar hquestion hback ih =>
    obtain ⟨is, htext, hplain, hrest, rfl⟩ := ih h
    refine ⟨.raw b :: is, by rw [htext]; rfl,
      List.forall_mem_cons.mpr ⟨⟨⟨hopen, hback⟩, hslash⟩, hplain⟩, hrest, ?_⟩
    rw [List.foldl_cons, pushItem, if_neg hstar, if_neg hquestion]

/-! ## Segments -/

/-- The segment of the items between two separators. -/
def segmentOf (atStart : Bool) (is : List Item) : Segment :=
  if atStart && is = [.raw star, .raw star] then { kind := .recursive, tokens := [] }
  else plainSegment (is.foldl pushItem [])

/-- The segments of an arm; `atStart` is about the first one. -/
def segmentsOf (atStart : Bool) : List (List Item) → List Segment
  | [] => []
  | is :: iss => segmentOf atStart is :: iss.map (segmentOf true)

/-- Only the first and the last segment may be empty. -/
def Spaced : List (List Item) → Prop
  | _ :: is :: iss => (is = [] → iss = []) ∧ Spaced (is :: iss)
  | _ => True

/-- What may stand in an arm. -/
def Item.Fine (item : Item) : Prop := item.Sound ∧ (item = .raw slash ∨ item.Plain)

theorem itemsText_eq_stars (h : ∀ item ∈ is, item.Sound) :
    itemsText is = [star, star] ↔ is = [.raw star, .raw star] := by
  constructor
  · intro htext
    have hitems : items (itemsText is) = some is := items_eq_some.mpr ⟨rfl, h⟩
    have hstars : items [star, star] = some [.raw star, .raw star] :=
      items_eq_some.mpr ⟨rfl, fun item hm => by
        rw [List.eq_of_mem_replicate (n := 2) hm]
        exact ⟨by decide, by decide⟩⟩
    rw [htext, hstars] at hitems
    exact (Option.some.inj hitems).symm
  · rintro rfl
    rfl

theorem Item.Plain.ne_slash (h : item.Plain) : item ≠ .raw slash := by
  rintro rfl
  exact h rfl

/-- The first segment of an arm is that of the items up to its end. -/
private theorem compileTokens_segment (h : compileTokens i s [] = .ok (tokens, rest))
    (atStart : Bool) :
    ∃ is, s = itemsText is ++ rest ∧ (∀ item ∈ is, item.Fine) ∧ .raw slash ∉ is ∧
      (rest = [] ∨ rest.head? = some slash) ∧
      (if atStart && s.take (s.length - rest.length) = [star, star] then
        { kind := .recursive, tokens := [] } else plainSegment tokens) = segmentOf atStart is := by
  obtain ⟨is, rfl, hplain, hrest, rfl⟩ := compileTokens_items h
  refine ⟨is, rfl, fun item hm => ⟨(hplain item hm).1, .inr (hplain item hm).2⟩,
    fun hm => (hplain _ hm).2.ne_slash rfl, hrest, ?_⟩
  have htake : (itemsText is ++ rest).take ((itemsText is ++ rest).length - rest.length) =
      itemsText is := by
    rw [List.length_append, Nat.add_sub_cancel, List.take_left]
  rw [htake, segmentOf]
  simp only [itemsText_eq_stars fun item hm => (hplain item hm).1]

/-- The segments of an arm are those of its items between the separators. -/
theorem compileSegments_items {atStart : Bool} {segments : List Segment}
    (h : compileSegments atStart i s = .ok segments) :
    ∃ is, s = itemsText is ∧ (∀ item ∈ is, item.Fine) ∧
      segments = segmentsOf atStart (is.splitOn (.raw slash)) ∧
      Spaced (is.splitOn (.raw slash)) := by
  fun_induction compileSegments atStart i s generalizing segments with
  | case1 | case3 | case4 => cases h
  | case2 atStart i s tokens hcompile raw segment =>
    cases h
    obtain ⟨is, hs, hfine, hslash, -, hsegment⟩ := compileTokens_segment hcompile atStart
    rw [List.append_nil] at hs
    refine ⟨is, hs, hfine, ?_, ?_⟩
    · rw [List.splitOn_eq_singleton hslash]
      exact congrArg (· :: []) hsegment
    · rw [List.splitOn_eq_singleton hslash]
      trivial
  | case5 =>
    rename_i atStart i s tokens b rest' hcompile hslash segments' _ raw segment at' hrest ih
    cases h
    obtain ⟨is, hs, hfine, hnot, hb, hsegment⟩ := compileTokens_segment hcompile atStart
    obtain ⟨js, rfl, hfine', rfl, hspaced⟩ := ih hrest
    have hsplit : (is ++ .raw slash :: js).splitOn (.raw slash) = is :: js.splitOn (.raw slash) :=
      List.splitOn_append_cons_self_of_not_mem hnot js
    have hb : b = slash := by simpa using hb
    refine ⟨is ++ .raw slash :: js, ?_, fun item hm => ?_, ?_, ?_⟩
    · rw [hs, hb, itemsText_append, itemsText_cons]
      rfl
    · rcases List.mem_append.mp hm with hm | hm
      · exact hfine item hm
      · rcases List.mem_cons.mp hm with rfl | hm
        · exact ⟨⟨by decide, by decide⟩, .inl rfl⟩
        · exact hfine' item hm
    · have htail : segmentsOf true (js.splitOn (.raw slash)) =
          (js.splitOn (.raw slash)).map (segmentOf true) := by
        cases js.splitOn (.raw slash) with
        | nil => rfl
        | cons => rfl
      rw [hsplit, segmentsOf, ← htail]
      exact congrArg (· :: segmentsOf true (js.splitOn (.raw slash))) hsegment
    · rw [hsplit]
      obtain ⟨ks, kss, hks⟩ := List.exists_cons_of_ne_nil (List.splitOn_ne_nil (.raw slash) js)
      rw [hks] at hspaced ⊢
      refine ⟨?_, hspaced⟩
      rintro rfl
      cases js with
      | nil =>
        rw [List.splitOn_nil] at hks
        cases hks
        rfl
      | cons item js =>
        have hitem : item ≠ .raw slash := by
          rintro rfl
          exact hslash rfl
        rw [List.splitOn_cons_eq_if_modifyHead, if_neg (by simpa using hitem)] at hks
        cases hjs : js.splitOn (.raw slash) with
        | nil =>
          rw [hjs] at hks
          cases hks
        | cons =>
          rw [hjs] at hks
          cases hks

end Kotatsu.Support.Glob
