import Kotatsu.Support.Glob.Refinement

/-!
# Escaped text

`GlobPattern::escape` puts a backslash in front of each byte that a pattern reads as
anything but itself. What is escaped is a head without a wildcard where it stands alone, and
a term of bytes where it stands in braces: either way it matches itself and nothing else.
-/

namespace Kotatsu.Support.Glob

open Kotatsu.Core

/-- `special_bytes`. -/
def isSpecial (b : UInt8) : Bool :=
  b = backslash || b = question || b = star || b = openBracket || b = closeBracket ||
    b = openBrace || b = closeBrace || b = comma

/-- `GlobPattern::escape`. -/
def escape (literal : Bytes) : Bytes :=
  literal.flatMap fun c => if isSpecial c then [backslash, c] else [c]

/-- The alternatives of some texts: their escapes in braces, with commas between them. -/
def alternatives (literals : List Bytes) : Bytes :=
  openBrace :: ([comma].intercalate (literals.map escape) ++ [closeBrace])

/-- No separator follows another one. -/
def SingleSlashes (l : Bytes) : Prop := ¬[slash, slash] <:+: l

/-- What a byte is read as when it is escaped. -/
def escapedItem (c : UInt8) : Item := if isSpecial c then .escaped c else .raw c

variable {l : Bytes} {c : UInt8} {maxArms : Nat} {x : Bytes}

/-! ## The items of escaped text -/

theorem escape_nil : escape [] = [] := rfl

theorem escape_special (hc : isSpecial c = true) (l : Bytes) :
    escape (c :: l) = backslash :: c :: escape l := by
  rw [escape, List.flatMap_cons, if_pos hc]
  rfl

theorem escape_plain (hc : isSpecial c = false) (l : Bytes) : escape (c :: l) = c :: escape l := by
  rw [escape, List.flatMap_cons, if_neg (Bool.eq_false_iff.mp hc)]
  rfl

theorem escape_append (l l' : Bytes) : escape (l ++ l') = escape l ++ escape l' :=
  List.flatMap_append

theorem not_special_slash : isSpecial slash = false := by decide

theorem ne_slash_of_special (hc : isSpecial c = true) : c ≠ slash := by
  rintro rfl
  exact absurd hc (by decide)

/-- A byte that is not special is no byte that a pattern reads otherwise. -/
theorem plain_iff : isSpecial c = false ↔ isWildcard c = false ∧ c ≠ backslash ∧
    c ≠ closeBracket ∧ c ≠ closeBrace ∧ c ≠ comma := by
  simp only [isSpecial, isWildcard, Bool.or_eq_false_iff, decide_eq_false_iff_not]
  tauto

theorem isByte_escapedItem (c : UInt8) : (escapedItem c).IsByte := by
  rw [escapedItem]
  split
  · next hc => exact isByte_escaped (ne_slash_of_special hc)
  · next hc =>
    obtain ⟨hw, hb, -⟩ := plain_iff.mp (Bool.eq_false_iff.mpr hc)
    exact isByte_raw hw hb

theorem byte_escapedItem (c : UInt8) : (escapedItem c).byte = c := by
  rw [escapedItem]
  split <;> rfl

theorem forall_escapedItem (l : Bytes) : ∀ item ∈ l.map escapedItem, item.IsByte := by
  intro item hm
  obtain ⟨c, -, rfl⟩ := List.mem_map.mp hm
  exact isByte_escapedItem c

theorem map_byte_escapedItem (l : Bytes) : (l.map escapedItem).map Item.byte = l := by
  rw [List.map_map]
  exact (List.map_congr_left fun c _ => byte_escapedItem c).trans (List.map_id l)

theorem escape_eq (l : Bytes) : escape l = itemsText (l.map escapedItem) := by
  induction l with
  | nil => rfl
  | cons c l ih =>
    rw [List.map_cons, itemsText_cons, ← ih, escapedItem]
    split
    · next hc => exact escape_special hc l
    · next hc => exact escape_plain (Bool.eq_false_iff.mpr hc) l

theorem items_escape (l : Bytes) : items (escape l) = some (l.map escapedItem) :=
  items_eq_some.mpr ⟨escape_eq l, fun item hm => (forall_escapedItem l item hm).sound⟩

/-- An arm of escaped text takes the text. -/
theorem matches_escape : MatchesSeq TokensMatch (readArm (l.map escapedItem)) (x.splitOn slash) ↔
    x = l := by
  have hsplit := splitOn_bytes (forall_escapedItem l)
  rw [map_byte_escapedItem] at hsplit
  have htrailing := readTrailing_bytes (l.splitOn slash) []
  have hmatches := matchesSeq_bytes (l.splitOn slash) (x.splitOn slash) []
  rw [List.append_nil] at htrailing
  rw [readArm, hsplit, htrailing, readTrailing, hmatches]
  constructor
  · rintro ⟨zs, heq, rfl⟩
    rw [List.append_nil] at heq
    exact splitOn_injective heq
  · rintro rfl
    exact ⟨[], (List.append_nil _).symm, rfl⟩

/-! ## Escaped text is valid -/

theorem ascii_of_special (hc : isSpecial c = true) : c < 0x80 := by
  simp only [isSpecial, Bool.or_eq_true, decide_eq_true_eq] at hc
  obtain ((((((rfl | rfl) | rfl) | rfl) | rfl) | rfl) | rfl) | rfl := hc <;> decide

theorem escape_of_plain (h : ∀ c ∈ l, isSpecial c = false) : escape l = l := by
  induction l with
  | nil => rfl
  | cons c l ih =>
    rw [List.forall_mem_cons] at h
    rw [escape_plain h.1, ih h.2]

/-- Backslashes come between the sequences of a text. -/
theorem valid_escape (h : ValidUtf8 l) : ValidUtf8 (escape l) := by
  induction hn : l.length using Nat.strong_induction_on generalizing l with
  | _ n ih =>
    subst hn
    by_cases hplain : ∀ c ∈ l, isSpecial c = false
    · rw [escape_of_plain hplain]
      exact h
    · obtain ⟨c, hm, hspecial⟩ : ∃ c ∈ l, isSpecial c = true := by simpa using hplain
      obtain ⟨front, back, rfl⟩ := List.append_of_mem hm
      obtain ⟨hfront, hback⟩ := h.split (ascii_of_special hspecial)
      have hfront' := ih front.length (by rw [List.length_append, List.length_cons]; omega)
        hfront rfl
      have hback' := ih back.length (by rw [List.length_append, List.length_cons]; omega)
        hback rfl
      rw [escape_append, escape_special hspecial]
      refine hfront'.append (valid_ascii (by decide) ?_)
      exact valid_ascii (ascii_of_special hspecial) hback'

/-! ## Escaped text compiles -/

theorem SingleSlashes.of_append (front : Bytes) (h : SingleSlashes (front ++ l)) :
    SingleSlashes l := fun hm => h (hm.trans (List.suffix_append front l).isInfix)

theorem SingleSlashes.head (h : SingleSlashes (slash :: l)) : l.head? ≠ some slash := by
  intro hhead
  obtain ⟨rest, rfl⟩ := List.head?_eq_some_iff.mp hhead
  exact h (List.prefix_append [slash, slash] rest).isInfix

theorem head_escape : (escape l).head? = some slash ↔ l.head? = some slash := by
  cases l with
  | nil => exact Iff.rfl
  | cons c l =>
    by_cases hc : isSpecial c = true
    · rw [escape_special hc, List.head?_cons, List.head?_cons, Option.some.injEq,
        Option.some.injEq]
      exact iff_of_false (by decide) (ne_slash_of_special hc)
    · rw [escape_plain (Bool.eq_false_iff.mpr hc), List.head?_cons, List.head?_cons]

theorem findDoubleSlash_cons {b : UInt8} {rest : Bytes}
    (h : b ≠ slash ∨ rest.head? ≠ some slash) (at' : Nat) :
    findDoubleSlash at' (b :: rest) = findDoubleSlash (at' + 1) rest := by
  cases rest with
  | nil => rfl
  | cons d rest =>
    rw [findDoubleSlash, if_neg]
    rintro ⟨rfl, rfl⟩
    exact h.elim (fun hb => hb rfl) fun hd => hd rfl

theorem findDoubleSlash_escape (h : SingleSlashes l) (at' : Nat) :
    findDoubleSlash at' (escape l) = none := by
  induction l generalizing at' with
  | nil => rfl
  | cons c l ih =>
    have htail : SingleSlashes l := SingleSlashes.of_append [c] h
    by_cases hc : isSpecial c = true
    · rw [escape_special hc, findDoubleSlash_cons (.inl (by decide)),
        findDoubleSlash_cons (.inl (ne_slash_of_special hc))]
      exact ih htail _
    · rw [escape_plain (Bool.eq_false_iff.mpr hc), findDoubleSlash_cons]
      · exact ih htail _
      · by_cases hslash : c = slash
        · obtain rfl := hslash
          exact .inr fun hhead => h.head (head_escape.mp hhead)
        · exact .inl hslash

theorem literalHead_escape (l : Bytes) : literalHead (escape l) = ⟨l, (escape l).length⟩ := by
  induction l with
  | nil => rfl
  | cons c l ih =>
    by_cases hc : isSpecial c = true
    · rw [escape_special hc, literalHead, if_neg (by decide), if_pos rfl]
      dsimp only
      rw [if_neg (ne_slash_of_special hc), ih]
      rfl
    · have hplain := Bool.eq_false_iff.mpr hc
      obtain ⟨hw, hb, -⟩ := plain_iff.mp hplain
      rw [escape_plain hplain, literalHead.eq_def]
      dsimp only
      rw [if_neg (Bool.eq_false_iff.mp hw), if_neg hb, ih]
      rfl

/-- What is escaped is a literal. -/
theorem create_escape (hv : ValidUtf8 l) (h : SingleSlashes l) :
    create (escape l) maxArms = .ok { literalPrefix := l } := by
  have hcreate : create (escape l) maxArms =
      .ok { literalPrefix := (literalHead (escape l)).text } :=
    create_of_literal (valid_escape hv) (by rw [literalHead_escape]) (findDoubleSlash_escape h 0)
  rwa [literalHead_escape] at hcreate

/-- The tokens of a segment of escaped text. -/
theorem compileTokens_escape (l : Bytes) (i : Nat) (tokens : List Token) :
    ∃ tokens' seg tail, l = seg ++ tail ∧ (tail = [] ∨ tail.head? = some slash) ∧
      compileTokens i (escape l) tokens = .ok (tokens', escape tail) := by
  induction l generalizing i tokens with
  | nil => exact ⟨tokens, [], [], rfl, .inl rfl, by rw [escape_nil, compileTokens]⟩
  | cons c l ih =>
    by_cases hc : isSpecial c = true
    · obtain ⟨tokens', seg, tail, rfl, htail, heq⟩ := ih (i + 2) (pushLiteral tokens c)
      refine ⟨tokens', c :: seg, tail, rfl, htail, ?_⟩
      rw [escape_special hc, compileTokens, if_neg (by decide), if_neg (by decide),
        if_neg (by decide), if_neg (by decide), if_pos rfl]
      rw [if_neg (ne_slash_of_special hc)]
      exact heq
    · have hplain := Bool.eq_false_iff.mpr hc
      by_cases hslash : c = slash
      · obtain rfl := hslash
        refine ⟨tokens, [], slash :: l, rfl, .inr rfl, ?_⟩
        rw [escape_plain hplain, compileTokens.eq_def]
        dsimp only
        rw [if_pos rfl]
      · obtain ⟨tokens', seg, tail, rfl, htail, heq⟩ := ih (i + 1) (pushLiteral tokens c)
        obtain ⟨hw, hb, -⟩ := plain_iff.mp hplain
        simp only [isWildcard, Bool.or_eq_false_iff, decide_eq_false_iff_not] at hw
        obtain ⟨⟨⟨hquestion, hstar⟩, hopen⟩, -⟩ := hw
        refine ⟨tokens', c :: seg, tail, rfl, htail, ?_⟩
        rw [escape_plain hplain, compileTokens.eq_def]
        dsimp only
        rw [if_neg hslash, if_neg hopen, if_neg hstar, if_neg hquestion, if_neg hb]
        exact heq

/-- What follows the separator that ends a segment of escaped text. -/
theorem segment_rest (h : SingleSlashes l) {i : Nat} {tokens : List Token} {b : UInt8}
    {rest : Bytes} (heq : compileTokens i (escape l) [] = .ok (tokens, b :: rest)) :
    ∃ l', rest = escape l' ∧ SingleSlashes l' ∧ rest.head? ≠ some slash := by
  obtain ⟨tokens', seg, tail, rfl, htail, htokens⟩ := compileTokens_escape l i []
  have hrest : escape tail = b :: rest :=
    (Prod.mk.inj (Except.ok.inj (htokens.symm.trans heq))).2
  obtain rfl | htail := htail
  · exact absurd hrest (List.cons_ne_nil b rest).symm
  · obtain ⟨l', rfl⟩ := List.head?_eq_some_iff.mp htail
    rw [escape_plain not_special_slash, List.cons.injEq] at hrest
    have hslashes := SingleSlashes.of_append seg h
    refine ⟨l', hrest.2.symm, SingleSlashes.of_append [slash] hslashes, ?_⟩
    rw [← hrest.2]
    exact fun hhead => hslashes.head (head_escape.mp hhead)

theorem compileSegments_escape {s : Bytes} (hs : s = escape l) (h : SingleSlashes l)
    (atStart : Bool) (i : Nat) : ∃ segments, compileSegments atStart i s = .ok segments := by
  fun_induction compileSegments atStart i s generalizing l with
  | case1 _ i _ error htokens =>
    obtain ⟨tokens', seg, tail, -, -, hok⟩ := compileTokens_escape l i []
    rw [hs, hok] at htokens
    cases htokens
  | case2 => exact ⟨_, rfl⟩
  | case3 _ _ _ _ _ _ htokens hhead =>
    obtain ⟨l', -, -, hnot⟩ := segment_rest h (hs ▸ htokens)
    exact absurd hhead hnot
  | case4 =>
    rename_i htokens _ _ _ _ _ herror ih
    obtain ⟨l', hrest, hslashes, -⟩ := segment_rest h (hs ▸ htokens)
    obtain ⟨segments, hok⟩ := ih hrest hslashes
    rw [herror] at hok
    cases hok
  | case5 => exact ⟨_, rfl⟩

theorem compileArm_escape (h : SingleSlashes l) (atStart : Bool) :
    ∃ arm, compileArm (escape l) atStart = .ok arm := by
  obtain ⟨segments, hok⟩ := compileSegments_escape rfl h atStart 0
  rw [compileArm, hok]
  exact ⟨_, rfl⟩

/-! ## Alternatives -/

variable {pattern rest : Bytes} {i begin termBegin : Nat} {terms : List View}

/-- Escaped text is read over. -/
theorem parseBraces_escape (l : Bytes) :
    parseBraces pattern i (escape l ++ rest) [] (some (begin, terms)) termBegin =
      parseBraces pattern (i + (escape l).length) rest [] (some (begin, terms)) termBegin := by
  induction l generalizing i with
  | nil => rfl
  | cons c l ih =>
    by_cases hc : isSpecial c = true
    · rw [escape_special hc, List.cons_append, List.cons_append, parseBraces, if_neg (by decide),
        if_neg (by decide), if_neg (by decide), if_neg (by decide), if_pos rfl, ih]
      congr 1
      rw [List.length_cons, List.length_cons]
      omega
    · have hplain := Bool.eq_false_iff.mpr hc
      obtain ⟨hw, hb, -, hclose, hcomma⟩ := plain_iff.mp hplain
      simp only [isWildcard, Bool.or_eq_false_iff, decide_eq_false_iff_not] at hw
      rw [escape_plain hplain, List.cons_append, parseBraces.eq_def]
      dsimp only
      rw [if_neg hw.1.2, if_neg hw.2, if_neg hcomma, if_neg hclose, if_neg hb, ih]
      congr 1
      rw [List.length_cons]
      omega

/-- A term of escaped text is its text. -/
theorem viewOf_escape {tail : Bytes} (hs : pattern.drop i = escape l ++ tail) :
    (viewOf pattern i (i + (escape l).length)).text = escape l := by
  rw [viewOf, substr, Nat.add_sub_cancel_left, hs, List.take_left]

/-- Escaped terms are read up to the end of their brace. -/
theorem parseBraces_alternatives (begin : Nat) (terms : List View) (literals : List Bytes)
    (l : Bytes)
    (hs : pattern.drop i = [comma].intercalate ((l :: literals).map escape) ++ [closeBrace])
    (hterms : terms ≠ [] ∨ literals ≠ []) :
    ∃ views, parseBraces pattern i
        ([comma].intercalate ((l :: literals).map escape) ++ [closeBrace]) []
        (some (begin, terms)) i = .ok [⟨begin, pattern.length, terms ++ views⟩] ∧
      views.map View.text = (l :: literals).map escape := by
  induction literals generalizing i l terms with
  | nil =>
    have hone : [comma].intercalate ([l].map escape) = escape l := List.intercalate_singleton
    rw [hone] at hs ⊢
    have hlength : i + (escape l).length + 1 = pattern.length := by
      have hdrop := congrArg List.length hs
      rw [List.length_drop, List.length_append, List.length_singleton] at hdrop
      omega
    have hterms' : ¬(terms = [] ∧ i + (escape l).length = i) :=
      fun hempty => hterms.elim (fun hne => hne hempty.1) fun hne => hne rfl
    refine ⟨[viewOf pattern i (i + (escape l).length)], ?_, ?_⟩
    · rw [parseBraces_escape, parseBraces.eq_def]
      dsimp only
      rw [if_neg (by decide), if_neg (by decide), if_neg (by decide), if_pos rfl, if_neg hterms',
        hlength, parseBraces.eq_def]
      rfl
    · rw [List.map_singleton, viewOf_escape hs, List.map_singleton]
  | cons l' literals ih =>
    have hmore : [comma].intercalate ((l :: l' :: literals).map escape) =
        escape l ++ comma :: [comma].intercalate ((l' :: literals).map escape) := by
      rw [List.map_cons, List.map_cons, List.intercalate_cons_cons, List.append_assoc]
      rfl
    rw [hmore, List.append_assoc, List.cons_append] at hs ⊢
    have hrest := drop_step (u := escape l ++ [comma])
      (hs.trans (List.append_cons _ _ _))
    rw [List.length_append, List.length_singleton, ← Nat.add_assoc] at hrest
    obtain ⟨views, hviews, htexts⟩ := ih (terms ++ [viewOf pattern i (i + (escape l).length)]) l'
      hrest (.inl (List.append_ne_nil_of_right_ne_nil _ (List.cons_ne_nil _ _)))
    refine ⟨viewOf pattern i (i + (escape l).length) :: views, ?_, ?_⟩
    · rw [parseBraces_escape, parseBraces.eq_def]
      dsimp only
      rw [if_neg (by decide), if_neg (by decide), if_pos rfl]
      rw [hviews, List.append_assoc, List.singleton_append]
    · rw [List.map_cons, viewOf_escape hs, htexts]
      rfl

variable {literals : List Bytes}

/-- The alternatives are one brace. -/
theorem bracesOf_alternatives (hmany : 2 ≤ literals.length) (harms : literals.length ≤ maxArms) :
    ∃ views, bracesOf (alternatives literals) 0 maxArms =
        .ok [⟨0, (alternatives literals).length, views⟩] ∧
      views.map View.text = literals.map escape := by
  have hpos : 0 < literals.length := Nat.lt_of_lt_of_le Nat.zero_lt_two hmany
  obtain ⟨l, literals, rfl⟩ := List.exists_cons_of_length_pos hpos
  have hmore : literals ≠ [] := by
    rintro rfl
    exact absurd hmany (Nat.not_succ_le_self 1)
  have hdrop : (alternatives (l :: literals)).drop 1 =
      [comma].intercalate ((l :: literals).map escape) ++ [closeBrace] := rfl
  obtain ⟨views, hparse, htexts⟩ := parseBraces_alternatives 0 [] literals l hdrop (.inr hmore)
  have hcount : views.length = (l :: literals).length := by
    rw [← List.length_map View.text, htexts, List.length_map]
  have hopen : parseBraces (alternatives (l :: literals)) 0 (alternatives (l :: literals)) []
      none 0 = .ok [⟨0, (alternatives (l :: literals)).length, views⟩] := by
    conv_lhs => arg 3; rw [alternatives]
    rw [parseBraces.eq_def]
    dsimp only
    rw [if_neg (by decide), if_pos rfl]
    exact hparse
  have hbrace : (decide (maxArms ≠ 0) &&
      ((alternatives (l :: literals)).drop 0).contains openBrace) = true := by
    rw [Bool.and_eq_true, decide_eq_true_eq]
    exact ⟨by omega, by simp [alternatives]⟩
  have hfew : ¬armCount 1 [⟨0, (alternatives (l :: literals)).length, views⟩] > maxArms := by
    rw [armCount, armCount, Nat.one_mul, hcount]
    split
    · next hlarge =>
      have hlt : sizeMax < (l :: literals).length :=
        (Nat.div_lt_iff_lt_mul hpos).mp hlarge |>.trans_eq
          (Nat.one_mul _)
      omega
    · omega
  refine ⟨views, ?_, htexts⟩
  rw [bracesOf, if_pos hbrace, List.drop_zero, hopen]
  dsimp only
  rw [if_neg hfew]

theorem piecesText_choice (s : Bytes) (views : List View) (k : Nat) :
    piecesText (buildPieces s 0 [⟨0, s.length, views⟩] [k]) = (views.getD k ⟨0, []⟩).text := by
  simp [buildPieces, piecesText, viewOf, substr]

/-- The arms that the terms of the brace make are the texts. -/
theorem choice_alternatives {s : Bytes} {views : List View}
    (htexts : views.map View.text = literals.map escape) {choice : List Nat}
    (hrange : InRange choice [⟨0, s.length, views⟩]) :
    ∃ l ∈ literals, piecesText (buildPieces s 0 [⟨0, s.length, views⟩] choice) = escape l := by
  cases hrange with
  | @cons k _ _ _ hk hnil =>
    cases hnil
    have hk' : k < views.length := hk
    have hmem : views[k].text ∈ literals.map escape :=
      htexts ▸ List.mem_map_of_mem (List.getElem_mem hk')
    obtain ⟨l, hl, heq⟩ := List.mem_map.mp hmem
    refine ⟨l, hl, ?_⟩
    rw [piecesText_choice, List.getD_eq_getElem?_getD, List.getElem?_eq_getElem hk',
      Option.getD_some, heq]

theorem exists_choice {s : Bytes} {views : List View}
    (htexts : views.map View.text = literals.map escape) (hl : l ∈ literals) :
    ∃ choice, InRange choice [⟨0, s.length, views⟩] ∧
      piecesText (buildPieces s 0 [⟨0, s.length, views⟩] choice) = escape l := by
  have hmem : escape l ∈ views.map View.text := htexts ▸ List.mem_map_of_mem hl
  obtain ⟨v, hv, heq⟩ := List.mem_map.mp hmem
  obtain ⟨k, hk, rfl⟩ := List.getElem_of_mem hv
  refine ⟨[k], .cons hk .nil, ?_⟩
  rw [piecesText_choice, List.getD_eq_getElem?_getD, List.getElem?_eq_getElem hk,
    Option.getD_some, heq]

theorem valid_alternatives (h : ∀ l ∈ literals, ValidUtf8 l) :
    ValidUtf8 (alternatives literals) := by
  have hjoined : ValidUtf8 ([comma].intercalate (literals.map escape)) := by
    induction literals with
    | nil => exact .nil
    | cons l literals ih =>
      rw [List.forall_mem_cons] at h
      cases literals with
      | nil =>
        rw [List.map_singleton, List.intercalate_singleton]
        exact valid_escape h.1
      | cons l' literals =>
        rw [List.map_cons, List.map_cons, List.intercalate_cons_cons]
        exact ((valid_escape h.1).append (valid_ascii (by decide) .nil)).append (ih h.2)
  exact valid_ascii (by decide) (hjoined.append (valid_ascii (by decide) .nil))

/-- The alternatives of texts are accepted. -/
theorem create_alternatives (hmany : 2 ≤ literals.length) (harms : literals.length ≤ maxArms)
    (h : ∀ l ∈ literals, ValidUtf8 l ∧ SingleSlashes l) :
    ∃ pat, create (alternatives literals) maxArms = .ok pat := by
  obtain ⟨views, hbraces, htexts⟩ := bracesOf_alternatives hmany harms
  have hhead : literalHead (alternatives literals) = ⟨[], 0⟩ := by
    rw [alternatives, literalHead.eq_def]
    dsimp only
    rw [if_pos (by decide)]
  have hcompile : ∀ choice ∈ choicesOf [⟨0, (alternatives literals).length, views⟩],
      ∃ entry, compileChoice (alternatives literals) 0 false true true
        [⟨0, (alternatives literals).length, views⟩] choice = .ok entry := by
    intro choice hchoice
    obtain ⟨l, hl, htext⟩ := choice_alternatives htexts
      ((mem_choices (bracesOf_arms hbraces).1).mp hchoice)
    obtain ⟨arm, harm⟩ := compileArm_escape (h l hl).2 true
    rw [compileChoice]
    rw [htext, harm]
    exact ⟨_, rfl⟩
  obtain ⟨compiled, hcompiled⟩ := mapM_of_forall hcompile
  have hfront : hoisted (alternatives literals) = ([], false) := by
    rw [hoisted, hhead]
    rfl
  refine create_of_compiled (valid_alternatives fun l hl => (h l hl).1) ?_ ?_ ?_ hfront
    (by rw [hhead]; exact hbraces) (by rw [hhead]; exact hcompiled)
  · rw [hhead, List.drop_zero, alternatives, List.head?_cons, ne_eq, Option.some.injEq]
    decide
  · rw [hhead]
    rfl
  · rw [hhead, alternatives, List.length_cons]
    exact (Nat.succ_ne_zero _).symm

/-- The arms of the alternatives are the texts. -/
theorem isArm_alternatives (hmany : 2 ≤ literals.length) (harms : literals.length ≤ maxArms)
    (arm : List Item) :
    IsArm (alternatives literals) maxArms arm ↔ ∃ l ∈ literals, arm = l.map escapedItem := by
  obtain ⟨views, hbraces, htexts⟩ := bracesOf_alternatives hmany harms
  have hpieces := (bracesOf_arms hbraces).2 arm
  rw [List.drop_zero] at hpieces
  rw [hpieces]
  constructor
  · rintro ⟨choice, hrange, hitems⟩
    obtain ⟨l, hl, htext⟩ := choice_alternatives htexts hrange
    rw [htext, items_escape] at hitems
    exact ⟨l, hl, (Option.some.inj hitems).symm⟩
  · rintro ⟨l, hl, rfl⟩
    obtain ⟨choice, hrange, htext⟩ := exists_choice htexts hl
    exact ⟨choice, hrange, by rw [htext, items_escape]⟩

/-- Escaped text matches itself alone, and the alternatives of some texts match each of them and
nothing else. -/
theorem escape_spec :
    (∀ (l : Bytes) (maxArms : Nat), ValidUtf8 l → SingleSlashes l →
      ∃ pat, create (escape l) maxArms = .ok pat ∧ ∀ x, pat.match x = true ↔ x = l) ∧
    ∀ (literals : List Bytes) (maxArms : Nat), 2 ≤ literals.length →
      literals.length ≤ maxArms → (∀ l ∈ literals, ValidUtf8 l ∧ SingleSlashes l) →
      ∃ pat, create (alternatives literals) maxArms = .ok pat ∧
        ∀ x, pat.match x = true ↔ x ∈ literals := by
  constructor
  · intro l maxArms hv hslashes
    exact ⟨_, create_escape hv hslashes, fun x => decide_eq_true_iff⟩
  · intro literals maxArms hmany harms h
    obtain ⟨pat, hpat⟩ := create_alternatives hmany harms h
    refine ⟨pat, hpat, fun x => ?_⟩
    rw [create_match_iff hpat, Accepts]
    constructor
    · rintro ⟨arm, harm, hmatches⟩
      obtain ⟨l, hl, rfl⟩ := (isArm_alternatives hmany harms arm).mp harm
      exact matches_escape.mp hmatches ▸ hl
    · intro hx
      exact ⟨_, (isArm_alternatives hmany harms _).mpr ⟨x, hx, rfl⟩, matches_escape.mpr rfl⟩

/-- A star and a comma, escaped. -/
theorem escape_spec_star :
    (∃ pat, create (escape [star]) 1 = .ok pat ∧ ∀ x, pat.match x = true ↔ x = [star]) ∧
      ∃ pat, create (alternatives [[star], [comma]]) 2 = .ok pat ∧
        ∀ x, pat.match x = true ↔ x ∈ [[star], [comma]] := by
  have hstar : ValidUtf8 [star] := valid_ascii (by decide) .nil
  have hcomma : ValidUtf8 [comma] := valid_ascii (by decide) .nil
  have hsingle (c : UInt8) : SingleSlashes [c] := fun h =>
    absurd (Nat.le_of_succ_le_succ h.length_le) (Nat.not_succ_le_zero 0)
  have hall : ∀ l ∈ [[star], [comma]], ValidUtf8 l ∧ SingleSlashes l := by
    rw [List.forall_mem_cons, List.forall_mem_singleton]
    exact ⟨⟨hstar, hsingle star⟩, hcomma, hsingle comma⟩
  exact ⟨escape_spec.1 [star] 1 hstar (hsingle star),
    escape_spec.2 [[star], [comma]] 2 (by decide) (by decide) hall⟩

end Kotatsu.Support.Glob
