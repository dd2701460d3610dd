import Kotatsu.Support.Glob.Refinement

/-!
# The root of a pattern

`GlobPattern::split_root` cuts a pattern at the last separator of its literal head. The rest
is parsed and compiled as it is in the pattern, only at other positions and with another
prefix hoisted, and matches what the pattern does behind the directory.
-/

namespace Kotatsu.Support.Glob

open Kotatsu.Core

/-- `text.rfind('/') + 1`: how much of a text comes up to its last separator. -/
def afterSlash (text : Bytes) : Nat :=
  text.length - (text.reverse.takeWhile (· ≠ slash)).length

/-- `GlobRoot`. -/
structure GlobRoot where
  directory : Bytes
  rest : Bytes
deriving DecidableEq, Repr

/-- `GlobPattern::split_root`. -/
def splitRoot (pattern : Bytes) : GlobRoot :=
  let head := literalHead pattern
  let cut := afterSlash (pattern.take head.stop)
  ⟨head.text.take (afterSlash head.text), pattern.drop cut⟩

/-! ## Positions -/

variable {s u p rest : Bytes} {i termBegin : Nat} {maxArms : Nat}

/-- A view of a text behind another one. -/
def View.shift (n : Nat) (v : View) : View := ⟨n + v.start, v.text⟩

def Brace.shift (n : Nat) (brace : Brace) : Brace :=
  ⟨n + brace.begin, n + brace.stop, brace.terms.map (View.shift n)⟩

theorem scanClose_shift (n opened j : Nat) (s : Bytes) {close : Nat}
    (h : scanClose (n + opened) (n + j) s = .ok close) :
    ∃ close', scanClose opened j s = .ok close' ∧ close = n + close' := by
  fun_induction scanClose opened j s with
  | case1 => cases h
  | case2 j rest =>
    rw [scanClose_close] at h
    exact ⟨j, rfl, (Except.ok.inj h).symm⟩
  | case3 => cases h
  | case4 j c rest _ ih =>
    rw [scanClose_escape] at h
    exact ih h
  | case5 j b rest hclose hback ih =>
    rw [scanClose_byte hclose hback] at h
    exact ih h

theorem scanBracket_shift (n : Nat) {close : Nat} (h : scanBracket (n + i) rest = .ok close) :
    ∃ close', scanBracket i rest = .ok close' ∧ close = n + close' := by
  rw [scanBracket, show n + i + 1 + scanLead rest = n + (i + 1 + scanLead rest) by omega] at h
  exact scanClose_shift n i _ _ h

theorem viewOf_shift (u p : Bytes) (begin stop : Nat) :
    viewOf (u ++ p) (u.length + begin) (u.length + stop) =
      (viewOf p begin stop).shift u.length := by
  rw [viewOf, viewOf, View.shift, Nat.add_sub_add_left, substr, substr, ← List.drop_drop,
    List.drop_left]

/-- Braces behind another text are found where they are, further on. -/
theorem parseBraces_shift (braces : List Brace) (opened : Option (Nat × List View))
    {out : List Brace} {from' : Nat} (hfrom : opened.isSome = true → from' = u.length + termBegin)
    (h : parseBraces (u ++ p) (u.length + i) s (braces.map (Brace.shift u.length))
      (opened.map fun o => (u.length + o.1, o.2.map (View.shift u.length))) from' = .ok out) :
    ∃ out', parseBraces p i s braces opened termBegin = .ok out' ∧
      out = out'.map (Brace.shift u.length) := by
  fun_induction parseBraces p i s braces opened termBegin generalizing from' with
  | case1 =>
    rw [parseBraces.eq_def] at h
    exact ⟨_, rfl, (Except.ok.inj h).symm⟩
  | case2 =>
    rw [parseBraces.eq_def] at h
    cases h
  | case3 i _ _ _ rest error hscan =>
    rw [parseBraces.eq_def] at h
    dsimp only at h
    rw [if_pos rfl] at h
    cases hshift : scanBracket (u.length + i) rest with
    | error e =>
      rw [hshift] at h
      cases h
    | ok close =>
      obtain ⟨close', hclose, -⟩ := scanBracket_shift u.length hshift
      rw [hscan] at hclose
      cases hclose
  | case4 i _ _ _ rest close hscan ih =>
    rw [parseBraces.eq_def] at h
    dsimp only at h
    rw [if_pos rfl] at h
    cases hshift : scanBracket (u.length + i) rest with
    | error e =>
      rw [hshift] at h
      cases h
    | ok far =>
      obtain ⟨close', hclose, rfl⟩ := scanBracket_shift u.length hshift
      rw [hscan] at hclose
      obtain rfl := Except.ok.inj hclose
      rw [hshift] at h
      dsimp only at h
      rw [Nat.add_sub_add_left] at h
      exact ih hfrom h
  | case5 =>
    rw [parseBraces.eq_def] at h
    dsimp only at h
    rw [if_neg (by decide), if_pos rfl] at h
    cases h
  | case6 i _ _ _ _ ih =>
    rw [parseBraces.eq_def] at h
    dsimp only at h
    rw [if_neg (by decide), if_pos rfl] at h
    exact ih (fun _ => rfl) h
  | case7 i _ _ _ _ _ ih =>
    rw [parseBraces.eq_def] at h
    dsimp only at h
    rw [if_neg (by decide), if_neg (by decide), if_pos rfl] at h
    exact ih hfrom h
  | case8 i _ termBegin _ begin terms _ _ ih =>
    obtain rfl := hfrom rfl
    rw [parseBraces.eq_def] at h
    dsimp only at h
    rw [if_neg (by decide), if_neg (by decide), if_pos rfl] at h
    refine ih (fun _ => rfl) ?_
    rw [Option.map_some, List.map_append, List.map_singleton, ← viewOf_shift]
    exact h
  | case9 i _ _ _ _ _ _ ih =>
    rw [parseBraces.eq_def] at h
    dsimp only at h
    rw [if_neg (by decide), if_neg (by decide), if_neg (by decide), if_pos rfl] at h
    exact ih hfrom h
  | case10 i _ termBegin _ begin terms hempty =>
    obtain rfl := hfrom rfl
    rw [parseBraces.eq_def] at h
    dsimp only at h
    rw [if_neg (by decide), if_neg (by decide), if_neg (by decide), if_pos rfl] at h
    dsimp only [Option.map_some] at h
    rw [if_pos ⟨by rw [hempty.1]; rfl, by rw [hempty.2]⟩] at h
    cases h
  | case11 i _ termBegin _ begin terms hempty _ _ _ ih =>
    obtain rfl := hfrom rfl
    have hempty' : ¬(terms.map (View.shift u.length) = [] ∧
        u.length + i = u.length + termBegin) := fun h =>
      hempty ⟨List.map_eq_nil_iff.mp h.1, Nat.add_left_cancel h.2⟩
    rw [parseBraces.eq_def] at h
    dsimp only at h
    rw [if_neg (by decide), if_neg (by decide), if_neg (by decide), if_pos rfl] at h
    dsimp only [Option.map_some] at h
    rw [if_neg hempty'] at h
    refine ih (fun _ => rfl) ?_
    rw [List.map_append, List.map_singleton, Brace.shift, List.map_append, List.map_singleton,
      ← viewOf_shift]
    exact h
  | case12 =>
    rw [parseBraces.eq_def] at h
    dsimp only at h
    rw [if_neg (by decide), if_neg (by decide), if_neg (by decide), if_neg (by decide),
      if_pos rfl] at h
    cases h
  | case13 _ _ _ _ _ _ _ _ _ _ ih =>
    rw [parseBraces.eq_def] at h
    dsimp only at h
    rw [if_neg (by decide), if_neg (by decide), if_neg (by decide), if_neg (by decide),
      if_pos rfl] at h
    exact ih hfrom h
  | case14 _ _ _ _ _ _ hopen hbrace hcomma hclose hback ih =>
    rw [parseBraces.eq_def] at h
    dsimp only at h
    rw [if_neg hopen, if_neg hbrace, if_neg hcomma, if_neg hclose, if_neg hback] at h
    exact ih hfrom h

theorem getD_shift (n k : Nat) (terms : List View) :
    ((terms.map (View.shift n)).getD k ⟨0, []⟩).text = (terms.getD k ⟨0, []⟩).text := by
  rw [List.getD_eq_getElem?_getD, List.getD_eq_getElem?_getD, List.getElem?_map]
  cases terms[k]? with
  | none => rfl
  | some v => rfl

/-- An arm has the same text there. -/
theorem piecesText_shift (u p : Bytes) (cursor : Nat) (braces : List Brace) (choice : List Nat) :
    piecesText (buildPieces (u ++ p) (u.length + cursor) (braces.map (Brace.shift u.length))
      choice) = piecesText (buildPieces p cursor braces choice) := by
  induction braces generalizing cursor choice with
  | nil =>
    simp only [List.map_nil, buildPieces, piecesText, List.flatMap_cons, List.flatMap_nil,
      ← List.drop_drop, List.drop_left]
  | cons brace braces ih =>
    cases choice with
    | nil =>
      simp only [List.map_cons, buildPieces, piecesText, List.flatMap_cons, List.flatMap_nil,
        ← List.drop_drop, List.drop_left]
    | cons k choice =>
      rw [List.map_cons, buildPieces, buildPieces, piecesText, piecesText, List.flatMap_cons,
        List.flatMap_cons, List.flatMap_cons, List.flatMap_cons, Brace.shift]
      dsimp only
      rw [viewOf_shift, getD_shift]
      exact congrArg (_ ++ ·) (congrArg (_ ++ ·) (ih brace.stop choice))

theorem armCount_shift (n count : Nat) (braces : List Brace) :
    armCount count (braces.map (Brace.shift n)) = armCount count braces := by
  induction braces generalizing count with
  | nil => rfl
  | cons brace braces ih =>
    rw [List.map_cons, armCount, armCount, ih, Brace.shift, List.length_map]

theorem bracesOf_shift {start : Nat} {braces : List Brace}
    (h : bracesOf (u ++ p) (u.length + start) maxArms = .ok braces) :
    ∃ braces', bracesOf p start maxArms = .ok braces' ∧
      braces = braces'.map (Brace.shift u.length) := by
  have hdrop : (u ++ p).drop (u.length + start) = p.drop start := by
    rw [← List.drop_drop, List.drop_left]
  rw [bracesOf, hdrop] at h
  rw [bracesOf]
  split at h
  · next hbrace =>
    rw [if_pos hbrace]
    split at h
    · cases h
    · next out hparse =>
      split at h
      · cases h
      · next hfew =>
        cases h
        obtain ⟨out', hparse', rfl⟩ := parseBraces_shift [] none
          (fun hsome => absurd hsome Bool.false_ne_true) hparse
        rw [armCount_shift] at hfew
        rw [hparse']
        dsimp only
        exact ⟨out', if_neg hfew, rfl⟩
  · next hbrace =>
    cases h
    rw [if_neg hbrace]
    exact ⟨[], rfl, rfl⟩

theorem inRange_shift {n : Nat} {braces : List Brace} {choice : List Nat}
    (h : InRange choice braces) : InRange choice (braces.map (Brace.shift n)) := by
  induction h with
  | nil => exact .nil
  | @cons k brace _ _ hk _ ih =>
    refine .cons ?_ ih
    rw [Brace.shift, List.length_map]
    exact hk

/-! ## The cut -/

/-- An item that is a byte is written as one that begins no wildcard, or escaped. -/
theorem isByte_cases {item : Item} (h : item.IsByte) :
    (∃ b, item = .raw b ∧ isWildcard b = false ∧ b ≠ backslash) ∨
      ∃ c, item = .escaped c ∧ c ≠ slash := by
  cases item with
  | raw b =>
    have htok := h.tok
    rw [Item.tok] at htok
    have hstar : b ≠ star := by
      rintro rfl
      cases htok
    have hquestion : b ≠ question := by
      rintro rfl
      cases htok
    have hbrace : b ≠ openBrace := by
      rintro rfl
      exact h.brace rfl
    refine .inl ⟨b, rfl, ?_, h.sound.2⟩
    simp [isWildcard, hstar, hquestion, hbrace, h.sound.1]
  | escaped c =>
    refine .inr ⟨c, rfl, fun hc => ?_⟩
    cases h.slash.mp hc
  | bracket body =>
    have htok := h.tok
    rw [Item.tok, bracketTok] at htok
    split at htok <;> cases htok

/-- Bytes in front are of the head. -/
theorem literalHead_bytes {q : List Item} (h : ∀ item ∈ q, item.IsByte) (s : Bytes) :
    literalHead (itemsText q ++ s) =
      ⟨q.map Item.byte ++ (literalHead s).text, (itemsText q).length + (literalHead s).stop⟩ := by
  induction q with
  | nil => rw [itemsText_nil, List.nil_append, List.length_nil, Nat.zero_add, List.map_nil,
      List.nil_append]
  | cons item q ih =>
    rw [List.forall_mem_cons] at h
    obtain ⟨b, rfl, hw, hb⟩ | ⟨c, rfl, hc⟩ := isByte_cases h.1
    · rw [itemsText_cons, List.append_assoc, Item.text, List.singleton_append, literalHead.eq_def]
      dsimp only
      rw [if_neg (Bool.eq_false_iff.mp hw), if_neg hb, ih h.2, List.length_append,
        List.length_singleton]
      simp only [List.map_cons, List.cons_append, Item.byte, LiteralHead.mk.injEq, true_and]
      omega
    · rw [itemsText_cons, List.append_assoc, Item.text, List.cons_append, List.singleton_append,
        literalHead, if_neg (by decide), if_pos rfl]
      rw [if_neg hc, ih h.2, List.length_append, List.length_cons, List.length_singleton]
      simp only [List.map_cons, List.cons_append, Item.byte, LiteralHead.mk.injEq, true_and]
      omega

/-- Items are cut at the last separator. -/
theorem exists_cut (q : List Item) : ∃ d t, q = d ++ t ∧ .raw slash ∉ t ∧
    (d = [] ∨ ∃ d', d = d' ++ [.raw slash]) := by
  induction q with
  | nil => exact ⟨[], [], rfl, List.not_mem_nil, .inl rfl⟩
  | cons item q ih =>
    obtain ⟨d, t, rfl, ht, rfl | ⟨d', rfl⟩⟩ := ih
    · by_cases hslash : item = .raw slash
      · exact ⟨[item], t, rfl, ht, .inr ⟨[], by rw [hslash]; rfl⟩⟩
      · refine ⟨[], item :: t, rfl, fun hm => ?_, .inl rfl⟩
        exact (List.mem_cons.mp hm).elim (fun heq => hslash heq.symm) ht
    · exact ⟨item :: (d' ++ [.raw slash]), t, rfl, ht, .inr ⟨item :: d', rfl⟩⟩

theorem afterSlash_append {a b : Bytes} (hb : slash ∉ b)
    (ha : a = [] ∨ ∃ a', a = a' ++ [slash]) : afterSlash (a ++ b) = a.length := by
  have hwhile : (a ++ b).reverse.takeWhile (· ≠ slash) = b.reverse := by
    have hall : ∀ c ∈ b.reverse, decide (c ≠ slash) = true := fun c hc =>
      decide_eq_true fun heq => hb (heq ▸ List.mem_reverse.mp hc)
    rw [List.reverse_append, List.takeWhile_append_of_pos hall]
    obtain rfl | ⟨a', rfl⟩ := ha
    · exact List.append_nil _
    · rw [List.reverse_append, List.reverse_singleton, List.singleton_append,
        List.takeWhile_cons_of_neg (by simp), List.append_nil]
  rw [afterSlash, hwhile, List.length_reverse, List.length_append, Nat.add_sub_cancel]

theorem slash_not_mem_text {t : List Item} (h : ∀ item ∈ t, item.IsByte) (ht : .raw slash ∉ t) :
    slash ∉ itemsText t := by
  intro hm
  obtain ⟨item, hitem, hbyte⟩ := List.mem_flatMap.mp hm
  obtain ⟨b, rfl, -, -⟩ | ⟨c, rfl, hc⟩ := isByte_cases (h item hitem)
  · obtain rfl := List.mem_singleton.mp hbyte
    exact ht hitem
  · obtain hbyte | hbyte := List.mem_cons.mp hbyte
    · exact absurd hbyte (by decide)
    · exact hc (List.mem_singleton.mp hbyte).symm

theorem slash_not_mem_bytes {t : List Item} (h : ∀ item ∈ t, item.IsByte) (ht : .raw slash ∉ t) :
    slash ∉ t.map Item.byte := by
  intro hm
  obtain ⟨item, hitem, hbyte⟩ := List.mem_map.mp hm
  exact ht ((h item hitem).slash.mp hbyte ▸ hitem)

/-- What `split_root` gives: the bytes up to the last separator of the head, and the others
with what follows the head. -/
theorem splitRoot_parts (s : Bytes) : ∃ d t, (∀ item ∈ d, item.IsByte) ∧ (∀ item ∈ t, item.IsByte) ∧
    .raw slash ∉ t ∧ (d = [] ∨ ∃ d', d = d' ++ [.raw slash]) ∧
    s = itemsText d ++ (splitRoot s).rest ∧ (splitRoot s).directory = d.map Item.byte ∧
    (splitRoot s).rest = itemsText t ++ s.drop (literalHead s).stop ∧
    (literalHead s).text = d.map Item.byte ++ t.map Item.byte := by
  obtain ⟨q, htake, hbytes, htext, -⟩ := literalHead_spec s
  obtain ⟨d, t, rfl, ht, hd⟩ := exists_cut q
  obtain ⟨hdbytes, htbytes⟩ := List.forall_mem_append.mp hbytes
  rw [List.map_append] at htext
  rw [itemsText_append] at htake
  have hs : s = itemsText d ++ (itemsText t ++ s.drop (literalHead s).stop) := by
    rw [← List.append_assoc, ← htake, List.take_append_drop]
  have hcut : afterSlash (s.take (literalHead s).stop) = (itemsText d).length := by
    rw [htake]
    refine afterSlash_append (slash_not_mem_text htbytes ht) (hd.imp ?_ ?_)
    · rintro rfl
      rfl
    · rintro ⟨d', rfl⟩
      exact ⟨itemsText d', itemsText_append d' _⟩
  have hdirectory : afterSlash (literalHead s).text = (d.map Item.byte).length := by
    rw [← htext]
    refine afterSlash_append (slash_not_mem_bytes htbytes ht) (hd.imp ?_ ?_)
    · rintro rfl
      rfl
    · rintro ⟨d', rfl⟩
      exact ⟨d'.map Item.byte, List.map_append⟩
  have hrest : (splitRoot s).rest = itemsText t ++ s.drop (literalHead s).stop := by
    rw [splitRoot]
    dsimp only
    rw [hcut]
    conv_lhs => rw [hs]
    exact List.drop_left
  refine ⟨d, t, hdbytes, htbytes, ht, hd, by rw [hrest]; exact hs, ?_, hrest, htext.symm⟩
  rw [splitRoot]
  dsimp only
  rw [hdirectory, ← htext, List.take_left]

/-! ## The rest is accepted -/

theorem findDoubleSlash_none (h : slash ∉ s) (at' : Nat) : findDoubleSlash at' s = none := by
  cases hfound : findDoubleSlash at' s with
  | none => rfl
  | some pos =>
    obtain ⟨n, -, -, hbyte⟩ := findDoubleSlash_some hfound
    exact absurd (List.mem_of_getElem? hbyte) h

/-- What follows the head is no head. -/
theorem literalHead_rest (h : (s.drop (literalHead s).stop).head? ≠ some backslash) :
    literalHead (s.drop (literalHead s).stop) = ⟨[], 0⟩ := by
  obtain ⟨-, -, -, -, hstop⟩ := literalHead_spec s
  cases hback : s.drop (literalHead s).stop with
  | nil => rfl
  | cons b back =>
    rw [hback] at hstop h
    obtain hw | rfl := hstop b rfl
    · rw [literalHead.eq_def]
      dsimp only
      rw [if_pos hw]
    · exact absurd rfl h

theorem compileArm_of_choice {start : Nat} {atSegEnd root atStart : Bool} {braces : List Brace}
    {choice : List Nat} {entry : Arm × Bool}
    (h : compileChoice s start atSegEnd root atStart braces choice = .ok entry) :
    ∃ arm, compileArm (piecesText (buildPieces s start braces choice)) atStart = .ok arm := by
  rw [compileChoice] at h
  split at h
  · cases h
  · split at h
    · cases h
    · next arm harm => exact ⟨arm, harm⟩

theorem compileChoice_of_arm {start : Nat} {root atStart : Bool} {braces : List Brace}
    {choice : List Nat} {arm : Arm}
    (h : compileArm (piecesText (buildPieces s start braces choice)) atStart = .ok arm) :
    ∃ entry, compileChoice s start false root atStart braces choice = .ok entry := by
  rw [compileChoice, Bool.false_and, if_neg Bool.false_ne_true, h]
  exact ⟨_, rfl⟩

theorem getLast_bytes {t : List Item} (h : slash ∉ t.map Item.byte) :
    (t.map Item.byte).getLast? ≠ some slash := fun hlast => h (List.mem_of_getLast? hlast)

/-- The prefix ends at a separator, or is empty, where the rest has none. -/
theorem hoisted_start {d t : List Item} {front : Bytes} {atSegEnd : Bool}
    (hfront : hoisted s = (front, atSegEnd))
    (htext : (literalHead s).text = d.map Item.byte ++ t.map Item.byte)
    (hnot : slash ∉ t.map Item.byte) (hd : d = [] ∨ ∃ d', d = d' ++ [.raw slash]) :
    (decide (front = []) || atSegEnd) = decide (t.map Item.byte = []) := by
  by_cases ht : t = []
  · subst ht
    rw [hoisted, htext, List.map_nil, List.append_nil] at hfront
    obtain rfl | ⟨d', rfl⟩ := hd
    · cases hfront
      rfl
    · have hlast : ((d' ++ [Item.raw slash]).map Item.byte).getLast? = some slash := by
        rw [List.map_append]
        exact List.getLast?_concat
      rw [if_pos hlast] at hfront
      cases hfront
      rw [Bool.or_true]
      rfl
  · have hne : t.map Item.byte ≠ [] := fun hnil => ht (List.map_eq_nil_iff.mp hnil)
    have hlast : (d.map Item.byte ++ t.map Item.byte).getLast? ≠ some slash := by
      rw [List.getLast?_append_of_ne_nil _ hne]
      exact getLast_bytes hnot
    rw [hoisted, htext, if_neg hlast] at hfront
    cases hfront
    rw [decide_eq_false hne, decide_eq_false (List.append_ne_nil_of_right_ne_nil _ hne)]
    rfl

theorem valid_behind {d : List Item} (hd : d = [] ∨ ∃ d', d = d' ++ [.raw slash])
    (hs : s = itemsText d ++ rest) (hv : ValidUtf8 s) : ValidUtf8 rest := by
  obtain rfl | ⟨d', rfl⟩ := hd
  · rw [itemsText_nil, List.nil_append] at hs
    exact hs ▸ hv
  · have hcut : s = itemsText d' ++ slash :: rest := by
      rw [hs, itemsText_append, List.append_assoc]
      rfl
    rw [hcut] at hv
    exact (hv.split (by decide)).2

/-- The rest of a pattern that is accepted is accepted. -/
theorem create_rest {pat : GlobPattern} (h : create s maxArms = .ok pat) :
    ∃ pat', create (splitRoot s).rest maxArms = .ok pat' := by
  obtain ⟨hv, hcreated⟩ := create_created h
  obtain ⟨d, t, hd, ht, hslash, hend, hs, -, hrest, htext⟩ := splitRoot_parts s
  have hv' := valid_behind hend hs hv
  have hslashes : findDoubleSlash 0 (itemsText t) = none :=
    findDoubleSlash_none (slash_not_mem_text ht hslash) 0
  have hnot := slash_not_mem_bytes ht hslash
  generalize hr : (splitRoot s).rest = r at hs hrest hv' ⊢
  cases hcreated with
  | literal hstop =>
    have hback : s.drop (literalHead s).stop = [] := by rw [hstop, List.drop_length]
    rw [hback, List.append_nil] at hrest
    have hhead := literalHead_bytes ht []
    rw [List.append_nil] at hhead
    exact ⟨_, create_of_literal hv' (by rw [hrest, hhead]; rfl) (hrest ▸ hslashes)⟩
  | @arms front atSegEnd braces compiled hstop hback hfront hbraces hcompiled =>
    have hhead : literalHead r = ⟨t.map Item.byte, (itemsText t).length⟩ := by
      rw [hrest, literalHead_bytes ht, literalHead_rest hback, List.append_nil, Nat.add_zero]
    have hlength : (literalHead s).stop = (itemsText d).length + (itemsText t).length := by
      have hwhole := literalHead_bytes hd r
      rw [← hs, hhead] at hwhole
      exact congrArg LiteralHead.stop hwhole
    have hdrop : r.drop (itemsText t).length = s.drop (literalHead s).stop := by
      rw [hrest, List.drop_left]
    have hne : (itemsText t).length ≠ r.length := by
      rw [hlength] at hstop
      conv_rhs at hstop => rw [hs, List.length_append]
      exact fun heq => hstop (by rw [heq])
    have hfront' : hoisted r = (t.map Item.byte, false) := by
      rw [hoisted, hhead]
      exact if_neg (getLast_bytes hnot)
    obtain ⟨braces', hbraces', hshift⟩ : ∃ braces', bracesOf r (itemsText t).length maxArms =
        .ok braces' ∧ braces = braces'.map (Brace.shift (itemsText d).length) := by
      rw [hlength] at hbraces
      conv_lhs at hbraces => rw [hs]
      exact bracesOf_shift hbraces
    have hcompile : ∀ choice ∈ choicesOf braces', ∃ entry, compileChoice r (itemsText t).length
        false (t.map Item.byte = [] && !false) (t.map Item.byte = [] || false) braces' choice =
        .ok entry := by
      intro choice hchoice
      have hrange := (mem_choices (bracesOf_arms hbraces').1).mp hchoice
      have hmem : choice ∈ choicesOf braces :=
        (mem_choices (bracesOf_arms hbraces).1).mpr (hshift ▸ inRange_shift hrange)
      obtain ⟨entry, -, hentry⟩ := (mapM_ok hcompiled).1 choice hmem
      obtain ⟨arm, harm⟩ := compileArm_of_choice hentry
      have htexts : piecesText (buildPieces s (literalHead s).stop braces choice) =
          piecesText (buildPieces r (itemsText t).length braces' choice) := by
        rw [hlength, hshift]
        conv_lhs => rw [hs]
        exact piecesText_shift _ _ _ _ _
      rw [htexts, hoisted_start hfront htext hnot hend] at harm
      rw [Bool.or_false]
      exact compileChoice_of_arm harm
    obtain ⟨compiled', hcompiled'⟩ := mapM_of_forall hcompile
    refine create_of_compiled hv' ?_ ?_ ?_ hfront' (by rw [hhead]; exact hbraces')
      (by rw [hhead]; exact hcompiled')
    · rw [hhead, hdrop]
      exact hback
    · rw [hhead, hrest, List.take_left]
      exact hslashes
    · rw [hhead]
      exact hne

/-! ## What is behind the directory -/

/-- A pattern accepts the directory with what the rest accepts, and the directory itself where
an arm of the rest takes nothing. -/
theorem accepts_root (s : Bytes) (maxArms : Nat) (x : Bytes) : Accepts s maxArms x ↔
    (∃ y, x = (splitRoot s).directory ++ y ∧ Accepts (splitRoot s).rest maxArms y) ∨
      (splitRoot s).directory = x ++ [slash] ∧ ∃ arm, IsArm (splitRoot s).rest maxArms arm ∧
        MatchesSeq TokensMatch (readArm arm) [] := by
  obtain ⟨d, t, hd, -, -, hend, hs, hdirectory, -, -⟩ := splitRoot_parts s
  rw [hdirectory]
  generalize (splitRoot s).rest = r at hs
  obtain rfl | ⟨d', rfl⟩ := hend
  · rw [itemsText_nil, List.nil_append] at hs
    subst hs
    constructor
    · exact fun haccepts => .inl ⟨x, rfl, haccepts⟩
    · rintro (⟨y, rfl, haccepts⟩ | ⟨hnil, -⟩)
      · exact haccepts
      · exact absurd hnil (List.append_ne_nil_of_right_ne_nil _ (List.cons_ne_nil _ _)).symm
  · have hitems : items (itemsText (d' ++ [.raw slash])) = some (d' ++ [.raw slash]) :=
      items_eq_some.mpr ⟨rfl, fun item hm => (hd item hm).sound⟩
    have hbrace : .raw openBrace ∉ d' ++ [.raw slash] := fun hm => (hd _ hm).brace rfl
    have hd' : ∀ item ∈ d', item.IsByte := fun item hm => hd item (List.mem_append_left _ hm)
    have harms (arm : List Item) : IsArm s maxArms arm ↔
        ∃ rest, IsArm r maxArms rest ∧ arm = d' ++ [.raw slash] ++ rest := by
      conv_lhs => rw [hs]
      exact isArm_append hitems hbrace
    have hbytes : (d' ++ [Item.raw slash]).map Item.byte = d'.map Item.byte ++ [slash] :=
      List.map_append
    have hmatches (rest : List Item) :
        MatchesSeq TokensMatch (readArm (d' ++ [.raw slash] ++ rest)) (x.splitOn slash) ↔
          x = d'.map Item.byte ∧ MatchesSeq TokensMatch (readArm rest) [] ∨
            ∃ y, x = d'.map Item.byte ++ slash :: y ∧
              MatchesSeq TokensMatch (readArm rest) (y.splitOn slash) := by
      rw [List.append_assoc, List.singleton_append]
      exact matches_directory hd' rest
    rw [hbytes]
    constructor
    · rintro ⟨arm, harm, hm⟩
      obtain ⟨rest, hrest, rfl⟩ := (harms arm).mp harm
      obtain ⟨rfl, hnone⟩ | ⟨y, rfl, hy⟩ := (hmatches rest).mp hm
      · exact .inr ⟨rfl, rest, hrest, hnone⟩
      · exact .inl ⟨y, by rw [List.append_assoc, List.singleton_append], rest, hrest, hy⟩
    · rintro (⟨y, rfl, rest, hrest, hy⟩ | ⟨heq, rest, hrest, hnone⟩)
      · refine ⟨_, (harms _).mpr ⟨rest, hrest, rfl⟩, (hmatches rest).mpr (.inr ⟨y, ?_, hy⟩)⟩
        rw [List.append_assoc, List.singleton_append]
      · refine ⟨_, (harms _).mpr ⟨rest, hrest, rfl⟩, (hmatches rest).mpr (.inl ⟨?_, hnone⟩)⟩
        exact (List.append_cancel_right heq).symm

/-- A pattern that is accepted has a rest that is accepted: what the pattern matches is in the
directory or is the directory, and in the directory the two match the same. -/
theorem splitRoot_spec {pat : GlobPattern} (h : create s maxArms = .ok pat) :
    ∃ pat', create (splitRoot s).rest maxArms = .ok pat' ∧
      (∀ x, pat.match x = true →
        (splitRoot s).directory <+: x ∨ (splitRoot s).directory = x ++ [slash]) ∧
      ∀ y, pat.match ((splitRoot s).directory ++ y) = true ↔ pat'.match y = true := by
  obtain ⟨pat', hrest⟩ := create_rest h
  refine ⟨pat', hrest, fun x hx => ?_, fun y => ?_⟩
  · rw [create_match_iff h, accepts_root] at hx
    exact hx.imp (fun ⟨y, hy, _⟩ => ⟨y, hy.symm⟩) And.left
  · rw [create_match_iff h, create_match_iff hrest, accepts_root]
    constructor
    · rintro (⟨y', heq, haccepts⟩ | ⟨heq, -⟩)
      · exact List.append_cancel_left heq ▸ haccepts
      · have hlength := congrArg List.length heq
        rw [List.length_append, List.length_append, List.length_singleton] at hlength
        omega
    · exact fun haccepts => .inl ⟨y, rfl, haccepts⟩

theorem create_sample : ∃ pat, create [97, slash, question] 0 = .ok pat := by
  have hv : ValidUtf8 [97, slash, question] :=
    valid_ascii (by decide) (valid_ascii (by decide) (valid_ascii (by decide) .nil))
  have htokens : compileTokens 0 [question] [] = .ok ([.any], []) := by
    rw [compileTokens, if_neg (by decide), if_neg (by decide), if_neg (by decide), if_pos rfl,
      compileTokens]
    rfl
  have hsegments : ∃ segments, compileSegments true 0 [question] = .ok segments := by
    rw [compileSegments]
    split
    · next h =>
      rw [htokens] at h
      cases h
    · next h =>
      rw [htokens] at h
      cases h
      exact ⟨_, rfl⟩
  obtain ⟨segments, hsegments⟩ := hsegments
  have harm : ∃ arm, compileArm (piecesText (buildPieces [97, slash, question] 2 [] [])) true =
      .ok arm := by
    have htext : piecesText (buildPieces [97, slash, question] 2 [] []) = [question] := rfl
    rw [htext, compileArm, hsegments]
    exact ⟨_, rfl⟩
  obtain ⟨arm, harm⟩ := harm
  have hcompile : ∀ choice ∈ choicesOf [], ∃ entry, compileChoice [97, slash, question] 2 true
      false true [] choice = .ok entry := by
    intro choice hchoice
    obtain rfl : choice = [] := List.mem_singleton.mp hchoice
    rw [compileChoice]
    rw [harm, if_neg (by decide)]
    exact ⟨_, rfl⟩
  obtain ⟨compiled, hcompiled⟩ := mapM_of_forall hcompile
  exact create_of_compiled hv (by decide) rfl (by decide) rfl rfl hcompiled

/-- `a/?` matches in the directory `a/` what `?` matches. -/
theorem splitRoot_spec_sample : ∃ pat pat', create [97, slash, question] 0 = .ok pat ∧
    create [question] 0 = .ok pat' ∧
    (pat.match [97, slash, 98] = true ↔ pat'.match [98] = true) := by
  obtain ⟨pat, hpat⟩ := create_sample
  obtain ⟨pat', hrest, -, hmatch⟩ := splitRoot_spec hpat
  exact ⟨pat, pat', hpat, hrest, hmatch [98]⟩

end Kotatsu.Support.Glob
