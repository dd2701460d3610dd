import Mathlib.Data.List.Forall2
import Kotatsu.Support.Glob.Braces
import Kotatsu.Support.Glob.Items

/-!
# The arms of a pattern

The braces that `parse_braces` finds are the groups that the items of the pattern read as,
so the arms put together from pieces of the text are those that take one term of each
group; and the odometer that goes through them misses none.
-/

namespace Kotatsu.Support.Glob

open Kotatsu.Core

/-! ## Braces and groups -/

/-- A term for each brace. -/
def InRange (choice : List Nat) (braces : List Brace) : Prop :=
  List.Forall₂ (fun k brace => k < brace.terms.length) choice braces

/-- An arm that some choice of terms puts together. -/
def PiecesArm (pattern : Bytes) (cursor : Nat) (braces : List Brace) (arm : List Item) : Prop :=
  ∃ choice, InRange choice braces ∧
    items (piecesText (buildPieces pattern cursor braces choice)) = some arm

/-- An arm that takes one term of each group. -/
def GroupsArm (groups : List (List (List Item))) (arm : List Item) : Prop :=
  ∃ choice, List.Forall₂ (· ∈ ·) choice groups ∧ arm = choice.flatten

/-- Views of the pattern and what they are read as. -/
def ReadTerms (terms : List View) (group : List (List Item)) : Prop :=
  List.Forall₂ (fun v is => items v.text = some is) terms group

/-- What the loop of `parse_braces` still finds, and the groups that the items from there on
read as. -/
def Found (pattern : Bytes) (i : Nat) (s : Bytes) (braces out : List Brace) :
    Option (Nat × List View) → Nat → Prop
  | none, _ =>
    ∃ is groups more, items s = some is ∧ readGroups none is = some groups ∧
      out = braces ++ more ∧ ∀ cursor gap, cursor ≤ i →
        items (substr pattern cursor (i - cursor)) = some gap →
        ∀ arm, PiecesArm pattern cursor more arm ↔
          ∃ rest, GroupsArm groups rest ∧ arm = gap ++ rest
  | some (begin, terms), termBegin =>
    ∀ group term, ReadTerms terms group → termBegin ≤ i →
      items (substr pattern termBegin (i - termBegin)) = some term →
      ∃ is group' groups brace more, items s = some is ∧
        readGroups (some (group, term)) is = some (group' :: groups) ∧
        out = braces ++ brace :: more ∧ brace.begin = begin ∧
        ReadTerms brace.terms group' ∧
        ∀ arm, PiecesArm pattern brace.stop more arm ↔ GroupsArm groups arm

variable {pattern s : Bytes} {i termBegin : Nat} {braces out : List Brace}
  {opened : Option (Nat × List View)}

variable {group : List (List Item)} {groups : List (List (List Item))} {terms : List View}
  {rest : Bytes}

theorem groupsArm_cons {arm : List Item} :
    GroupsArm (group :: groups) arm ↔
      ∃ term ∈ group, ∃ rest, GroupsArm groups rest ∧ arm = term ++ rest := by
  constructor
  · rintro ⟨choice, hall, rfl⟩
    cases hall with
    | cons hterm hrest => exact ⟨_, hterm, _, ⟨_, hrest, rfl⟩, rfl⟩
  · rintro ⟨term, hterm, rest, ⟨choice, hrest, rfl⟩, rfl⟩
    exact ⟨term :: choice, .cons hterm hrest, rfl⟩

theorem ReadTerms.get (h : ReadTerms terms group) {k : Nat} (hk : k < terms.length) :
    ∃ term ∈ group, items (terms.getD k ⟨0, []⟩).text = some term := by
  induction h generalizing k with
  | nil => cases hk
  | cons hterm _ ih =>
    cases k with
    | zero => exact ⟨_, List.mem_cons_self, hterm⟩
    | succ k =>
      obtain ⟨term, hm, hread⟩ := ih (Nat.lt_of_succ_lt_succ hk)
      exact ⟨term, List.mem_cons_of_mem _ hm, hread⟩

theorem ReadTerms.exists_get (h : ReadTerms terms group) {term : List Item} (hm : term ∈ group) :
    ∃ k < terms.length, items (terms.getD k ⟨0, []⟩).text = some term := by
  induction h with
  | nil => cases hm
  | cons hterm _ ih =>
    obtain rfl | hm := List.mem_cons.mp hm
    · exact ⟨0, Nat.zero_lt_succ _, hterm⟩
    · obtain ⟨k, hk, hread⟩ := ih hm
      exact ⟨k + 1, Nat.succ_lt_succ hk, hread⟩

/-- An arm is a gap, a term, and what follows. -/
theorem piecesArm_cons {cursor : Nat} {brace : Brace} {gap : List Item}
    (hgap : items (substr pattern cursor (brace.begin - cursor)) = some gap)
    (hterms : ReadTerms brace.terms group) (arm : List Item) :
    PiecesArm pattern cursor (brace :: braces) arm ↔
      ∃ term ∈ group, ∃ rest, PiecesArm pattern brace.stop braces rest ∧
        arm = gap ++ (term ++ rest) := by
  have htext (k : Nat) (choice : List Nat) :
      piecesText (buildPieces pattern cursor (brace :: braces) (k :: choice)) =
        substr pattern cursor (brace.begin - cursor) ++ ((brace.terms.getD k ⟨0, []⟩).text ++
          piecesText (buildPieces pattern brace.stop braces choice)) := by
    rw [buildPieces, piecesText_cons, piecesText_cons]
    rfl
  constructor
  · rintro ⟨choice, hrange, hitems⟩
    cases hrange with
    | @cons k _ choice _ hk hrest =>
      obtain ⟨term, hm, hread⟩ := hterms.get hk
      rw [htext, items_append_left hgap, items_append_left hread] at hitems
      obtain ⟨tail, htail, rfl⟩ := Option.map_eq_some_iff.mp hitems
      obtain ⟨rest, hrest', rfl⟩ := Option.map_eq_some_iff.mp htail
      exact ⟨term, hm, rest, ⟨choice, hrest, hrest'⟩, rfl⟩
  · rintro ⟨term, hm, rest, ⟨choice, hrest, hitems⟩, rfl⟩
    obtain ⟨k, hk, hread⟩ := hterms.exists_get hm
    refine ⟨k :: choice, .cons hk hrest, ?_⟩
    rw [htext, items_append_left hgap, items_append_left hread, hitems]
    rfl

/-- Outside of braces, an item goes to the gap. -/
theorem Found.item {rest : Bytes} {item : Item}
    (h : Found pattern (i + item.text.length) rest braces out none termBegin)
    (hs : pattern.drop i = item.text ++ rest) (hsound : item.Sound) (hne : item ≠ .raw openBrace) :
    Found pattern i (item.text ++ rest) braces out none termBegin := by
  have hitem := items_singleton hsound
  obtain ⟨is, groups, more, his, hgroups, hout, harms⟩ := h
  refine ⟨item :: is, [[item]] :: groups, more, ?_, ?_, hout, fun cursor gap hle hgap arm => ?_⟩
  · rw [items_append_left hitem, his]
    rfl
  · rw [readGroups, if_neg hne, hgroups]
    rfl
  · have hgap' := items_append hgap hitem
    rw [← substr_snoc hle hs] at hgap'
    rw [harms cursor _ (Nat.le_add_right_of_le hle) hgap']
    constructor
    · rintro ⟨rest, hrest, rfl⟩
      exact ⟨item :: rest, groupsArm_cons.mpr ⟨[item], List.mem_cons_self, rest, hrest, rfl⟩,
        List.append_assoc ..⟩
    · rintro ⟨rest, hrest, rfl⟩
      obtain ⟨term, hm, tail, htail, rfl⟩ := groupsArm_cons.mp hrest
      rw [List.mem_singleton.mp hm]
      exact ⟨tail, htail, (List.append_assoc ..).symm⟩

/-- An item that ends no term and opens no brace. -/
def Item.Inner (item : Item) : Prop :=
  item ≠ .raw openBrace ∧ item ≠ .raw comma ∧ item ≠ .raw closeBrace

/-- In a brace, such an item goes to the term. -/
theorem Found.term {rest : Bytes} {item : Item} {begin : Nat} {terms : List View}
    (h : Found pattern (i + item.text.length) rest braces out (some (begin, terms)) termBegin)
    (hs : pattern.drop i = item.text ++ rest) (hsound : item.Sound) (hne : item.Inner) :
    Found pattern i (item.text ++ rest) braces out (some (begin, terms)) termBegin := by
  have hitem := items_singleton hsound
  intro group term hterms hle hterm
  have hterm' := items_append hterm hitem
  rw [← substr_snoc hle hs] at hterm'
  obtain ⟨is, group', groups, brace, more, his, hgroups, hrest⟩ :=
    h group _ hterms (Nat.le_add_right_of_le hle) hterm'
  refine ⟨item :: is, group', groups, brace, more, ?_, ?_, hrest⟩
  · rw [items_append_left hitem, his]
    rfl
  · rw [readGroups, if_neg hne.1, if_neg hne.2.1, if_neg hne.2.2]
    exact hgroups

theorem Found.inner {item : Item}
    (h : Found pattern (i + item.text.length) rest braces out opened termBegin)
    (hs : pattern.drop i = item.text ++ rest) (hsound : item.Sound) (hne : item.Inner) :
    Found pattern i (item.text ++ rest) braces out opened termBegin := by
  cases opened with
  | none => exact h.item hs hsound hne.1
  | some brace => exact h.term hs hsound hne

theorem items_empty (lo : Nat) : items (substr pattern lo (lo - lo)) = some [] := by
  rw [Nat.sub_self, substr, List.take_zero]
  exact items_nil

/-- An opening brace ends the gap. -/
theorem Found.opening (h : Found pattern (i + 1) rest braces out (some (i, [])) (i + 1)) :
    Found pattern i (openBrace :: rest) braces out none termBegin := by
  obtain ⟨is, group, groups, brace, more, his, hgroups, hout, rfl, hterms, harms⟩ :=
    h [] [] .nil (Nat.le_refl _) (items_empty _)
  refine ⟨.raw openBrace :: is, group :: groups, brace :: more, ?_, ?_, hout,
    fun cursor gap _ hgap arm => ?_⟩
  · rw [items_raw (by decide) (by decide), his]
    rfl
  · rw [readGroups, if_pos rfl]
    exact hgroups
  · rw [piecesArm_cons hgap hterms]
    constructor
    · rintro ⟨term, hm, rest, hrest, rfl⟩
      exact ⟨_, groupsArm_cons.mpr ⟨term, hm, rest, (harms rest).mp hrest, rfl⟩, rfl⟩
    · rintro ⟨rest, hrest, rfl⟩
      obtain ⟨term, hm, tail, htail, rfl⟩ := groupsArm_cons.mp hrest
      exact ⟨term, hm, tail, (harms tail).mpr htail, rfl⟩

/-- A comma ends the term. -/
theorem Found.comma {begin : Nat} (h : Found pattern (i + 1) rest braces out
      (some (begin, terms ++ [viewOf pattern termBegin i])) (i + 1)) :
    Found pattern i (comma :: rest) braces out (some (begin, terms)) termBegin := by
  intro group term hterms _ hterm
  have hview : ReadTerms [viewOf pattern termBegin i] [term] := .cons hterm .nil
  obtain ⟨is, group', groups, brace, more, his, hgroups, hrest⟩ :=
    h (group ++ [term]) [] (List.rel_append hterms hview) (Nat.le_refl _) (items_empty _)
  refine ⟨.raw Glob.comma :: is, group', groups, brace, more, ?_, ?_, hrest⟩
  · rw [items_raw (by decide) (by decide), his]
    rfl
  · rw [readGroups, if_neg (by decide), if_pos rfl]
    exact hgroups

/-- A closing brace ends the last term. -/
theorem Found.closing {begin : Nat} (h : Found pattern (i + 1) rest
      (braces ++ [⟨begin, i + 1, terms ++ [viewOf pattern termBegin i]⟩]) out none termBegin)
    (hs : pattern.drop i = closeBrace :: rest) (hempty : ¬(terms = [] ∧ i = termBegin)) :
    Found pattern i (closeBrace :: rest) braces out (some (begin, terms)) termBegin := by
  intro group term hterms hle hterm
  obtain ⟨is, groups, more, his, hgroups, hout, harms⟩ := h
  have hview : ReadTerms [viewOf pattern termBegin i] [term] := .cons hterm .nil
  have hterms' := List.rel_append hterms hview
  refine ⟨.raw closeBrace :: is, group ++ [term], groups,
    ⟨begin, i + 1, terms ++ [viewOf pattern termBegin i]⟩, more, ?_, ?_, ?_, rfl, hterms',
    fun arm => ?_⟩
  · rw [items_raw (by decide) (by decide), his]
    rfl
  · rw [readGroups, if_neg (by decide), if_neg (by decide), if_pos rfl, if_neg, hgroups]
    · rfl
    · rintro ⟨rfl, rfl⟩
      refine hempty ⟨List.forall₂_nil_right_iff.mp hterms, ?_⟩
      have hlen := congrArg List.length (items_eq_some.mp hterm).1
      have hin := congrArg List.length hs
      rw [itemsText_nil, List.length_nil, length_substr] at hlen
      rw [List.length_drop, List.length_cons] at hin
      omega
  · rw [hout, List.append_assoc]
    rfl
  · rw [harms (i + 1) [] (Nat.le_refl _) (items_empty _)]
    constructor
    · rintro ⟨rest, hrest, rfl⟩
      exact hrest
    · exact fun hrest => ⟨arm, hrest, rfl⟩

/-- The braces that are found are the groups that are read. -/
theorem parseBraces_found (hs : pattern.drop i = s)
    (h : parseBraces pattern i s braces opened termBegin = .ok out) :
    Found pattern i s braces out opened termBegin := by
  fun_induction parseBraces pattern i s braces opened termBegin with
  | case1 i braces termBegin =>
    cases h
    refine ⟨[], [], [], items_nil, rfl, (List.append_nil _).symm, fun cursor gap hle hgap arm => ?_⟩
    have hrest : substr pattern cursor (i - cursor) = pattern.drop cursor := by
      refine List.take_of_length_le ?_
      rw [List.length_drop]
      exact Nat.sub_le_sub_right (List.drop_eq_nil_iff.mp hs) cursor
    have htext : piecesText (buildPieces pattern cursor [] []) = pattern.drop cursor :=
      List.append_nil _
    rw [hrest] at hgap
    constructor
    · rintro ⟨choice, hrange, hitems⟩
      cases hrange
      rw [htext, hgap] at hitems
      exact ⟨[], ⟨[], .nil, rfl⟩, by rw [List.append_nil, Option.some.inj hitems]⟩
    · rintro ⟨rest, ⟨choice, hnil, rfl⟩, rfl⟩
      cases hnil
      exact ⟨[], .nil, by rw [htext, hgap, List.flatten_nil, List.append_nil]⟩
  | case2 => cases h
  | case3 => cases h
  | case4 i braces opened termBegin rest close hscan ih =>
    obtain ⟨body, more, rfl, rfl, hcloses, -, -⟩ := scanBracket_ok hscan
    have htext : openBracket :: (body ++ closeBracket :: more) = (Item.bracket body).text ++ more :=
      (bracket_text body more).symm
    have hdrop : (body ++ closeBracket :: more).drop (i + 1 + body.length - i) = more := by
      rw [show i + 1 + body.length - i = body.length + 1 by omega, ← List.drop_drop,
        List.drop_left]
      rfl
    have hlen : i + 1 + body.length + 1 = i + (Item.bracket body).text.length := by
      rw [Item.text, List.length_append, List.length_cons, List.length_singleton]
      omega
    rw [htext] at hs ⊢
    rw [hdrop, hlen] at ih h
    exact Found.inner (ih (drop_step hs) h) hs hcloses ⟨by simp, by simp, by simp⟩
  | case5 => cases h
  | case6 i braces termBegin rest _ ih => exact Found.opening (ih (drop_step (u := [openBrace]) hs) h)
  | case7 i braces termBegin rest _ _ ih =>
    have hfound : Found pattern (i + (Item.raw comma).text.length) rest braces out none termBegin :=
      ih (drop_step (u := [comma]) hs) h
    exact hfound.item hs ⟨by decide, by decide⟩ (by decide)
  | case8 i braces termBegin rest begin terms _ _ ih =>
    exact Found.comma (ih (drop_step (u := [comma]) hs) h)
  | case9 i braces termBegin rest _ _ _ ih =>
    have hfound : Found pattern (i + (Item.raw closeBrace).text.length) rest braces out none
        termBegin := ih (drop_step (u := [closeBrace]) hs) h
    exact hfound.item hs ⟨by decide, by decide⟩ (by decide)
  | case10 => cases h
  | case11 i braces termBegin rest begin terms hempty _ _ _ ih =>
    exact Found.closing (ih (drop_step (u := [closeBrace]) hs) h) hs hempty
  | case12 => cases h
  | case13 i braces opened termBegin c rest _ _ _ _ ih =>
    have hfound : Found pattern (i + (Item.escaped c).text.length) rest braces out opened termBegin :=
      ih (drop_step (u := [backslash, c]) hs) h
    exact hfound.inner hs trivial ⟨by simp, by simp, by simp⟩
  | case14 i braces opened termBegin b rest hopen hb hc hclose hback ih =>
    have hfound : Found pattern (i + (Item.raw b).text.length) rest braces out opened termBegin :=
      ih (drop_step (u := [b]) hs) h
    exact hfound.inner hs ⟨hopen, hback⟩ ⟨by simpa using hb, by simpa using hc, by simpa using hclose⟩

theorem parseBraces_terms (hb : ∀ brace ∈ braces, brace.terms ≠ [])
    (h : parseBraces pattern i s braces opened termBegin = .ok out) :
    ∀ brace ∈ out, brace.terms ≠ [] := by
  fun_induction parseBraces pattern i s braces opened termBegin with
  | case1 =>
    cases h
    exact hb
  | case2 | case3 | case5 | case10 | case12 => cases h
  | case4 _ _ _ _ _ _ _ ih => exact ih hb h
  | case6 _ _ _ _ _ ih => exact ih hb h
  | case7 _ _ _ _ _ _ ih => exact ih hb h
  | case8 _ _ _ _ _ _ _ _ ih => exact ih hb h
  | case9 _ _ _ _ _ _ _ ih => exact ih hb h
  | case11 _ _ _ _ _ _ _ _ _ _ ih =>
    refine ih ?_ h
    rw [List.forall_mem_append, List.forall_mem_singleton]
    exact ⟨hb, List.append_ne_nil_of_right_ne_nil _ (List.cons_ne_nil _ _)⟩
  | case13 _ _ _ _ _ _ _ _ _ _ ih => exact ih hb h
  | case14 _ _ _ _ _ _ _ _ _ _ _ ih => exact ih hb h

/-! ## The odometer -/

/-- How many choices of terms there are. -/
def choiceCount (braces : List Brace) : Nat := (braces.map fun brace => brace.terms.length).prod

/-- The place of a choice where the last brace's term changes fastest. -/
def choiceIndex : List Nat → List Brace → Nat
  | k :: choice, _ :: braces => k * choiceCount braces + choiceIndex choice braces
  | _, _ => 0

variable {choice choice' : List Nat}

@[simp] theorem choiceCount_cons (brace : Brace) (braces : List Brace) :
    choiceCount (brace :: braces) = brace.terms.length * choiceCount braces := by
  rw [choiceCount, List.map_cons, List.prod_cons]
  rfl

theorem InRange.index_lt (h : InRange choice braces) :
    choiceIndex choice braces < choiceCount braces := by
  induction h with
  | nil => exact Nat.one_pos
  | @cons k brace choice braces hk _ ih =>
    rw [choiceIndex, choiceCount_cons]
    calc k * choiceCount braces + choiceIndex choice braces
        < k * choiceCount braces + choiceCount braces := Nat.add_lt_add_left ih _
      _ = (k + 1) * choiceCount braces := (Nat.succ_mul k _).symm
      _ ≤ brace.terms.length * choiceCount braces := Nat.mul_le_mul_right _ hk

theorem InRange.ext (h : InRange choice braces) (h' : InRange choice' braces)
    (heq : choiceIndex choice braces = choiceIndex choice' braces) : choice = choice' := by
  induction h generalizing choice' with
  | nil =>
    cases h'
    rfl
  | @cons k brace choice braces hk hrest ih =>
    cases h' with
    | @cons k' _ choice' _ hk' hrest' =>
      rw [choiceIndex, choiceIndex] at heq
      have hlt := InRange.index_lt hrest
      have hlt' := InRange.index_lt hrest'
      have hpos : 0 < choiceCount braces := Nat.zero_lt_of_lt hlt
      have hdiv : k = k' := by
        have hdiv := congrArg (· / choiceCount braces) heq
        rwa [Nat.mul_comm, Nat.mul_add_div hpos, Nat.div_eq_of_lt hlt, Nat.mul_comm k',
          Nat.mul_add_div hpos, Nat.div_eq_of_lt hlt'] at hdiv
      subst hdiv
      rw [ih hrest' (Nat.add_left_cancel heq)]

/-- The first choice. -/
theorem inRange_zeros (h : ∀ brace ∈ braces, brace.terms ≠ []) :
    InRange (braces.map fun _ => 0) braces ∧ choiceIndex (braces.map fun _ => 0) braces = 0 := by
  induction braces with
  | nil => exact ⟨.nil, rfl⟩
  | cons brace braces ih =>
    rw [List.forall_mem_cons] at h
    obtain ⟨hrest, hindex⟩ := ih h.2
    refine ⟨.cons (List.length_pos_of_ne_nil h.1) hrest, ?_⟩
    rw [List.map_cons, choiceIndex, hindex, Nat.zero_mul]

theorem InRange.terms_ne (h : InRange choice braces) : ∀ brace ∈ braces, brace.terms ≠ [] := by
  induction h with
  | nil => exact fun brace hm => (List.not_mem_nil hm).elim
  | cons hk _ ih =>
    refine List.forall_mem_cons.mpr ⟨fun hnil => ?_, ih⟩
    rw [hnil] at hk
    cases hk

/-- `next_choice` goes to the next place, until the last. -/
theorem nextChoice_spec (h : InRange choice braces) :
    match nextChoice choice braces with
    | some next => InRange next braces ∧
        choiceIndex next braces = choiceIndex choice braces + 1
    | none => choiceIndex choice braces + 1 = choiceCount braces := by
  induction h with
  | nil => rfl
  | @cons k brace choice braces hk hrest ih =>
    rw [nextChoice]
    cases hnext : nextChoice choice braces with
    | some next =>
      rw [hnext] at ih
      dsimp only at ih ⊢
      refine ⟨.cons hk ih.1, ?_⟩
      rw [choiceIndex, choiceIndex, ih.2, Nat.add_assoc]
    | none =>
      rw [hnext] at ih
      dsimp only at ih ⊢
      have hconst : choice.map (fun _ => 0) = braces.map fun _ => 0 := by
        rw [List.map_const', List.map_const', hrest.length_eq]
      obtain ⟨hzeros, hindex⟩ := inRange_zeros (InRange.terms_ne hrest)
      split
      · next hsome =>
        split at hsome
        · next hlast =>
          cases hsome
          rw [hconst]
          refine ⟨.cons (by omega) hzeros, ?_⟩
          rw [choiceIndex, choiceIndex, hindex, Nat.add_zero, Nat.add_assoc, ih, Nat.succ_mul]
        · cases hsome
      · next hnone =>
        split at hnone
        · cases hnone
        · next hlast =>
          rw [choiceIndex, choiceCount_cons, Nat.add_assoc, ih, ← Nat.succ_mul,
            ← Decidable.not_not.mp hlast]

/-- The loop goes through the choices from one on, as many as it may. -/
theorem mem_choicesFrom {n : Nat} (h : InRange choice braces) (h' : InRange choice' braces)
    (hle : choiceIndex choice braces ≤ choiceIndex choice' braces)
    (hn : choiceIndex choice' braces ≤ choiceIndex choice braces + n) :
    choice' ∈ choicesFrom braces n choice := by
  induction n generalizing choice with
  | zero =>
    rw [InRange.ext h' h (Nat.le_antisymm hn hle)]
    exact List.mem_cons_self
  | succ n ih =>
    by_cases heq : choiceIndex choice braces = choiceIndex choice' braces
    · rw [InRange.ext h' h heq.symm]
      exact List.mem_cons_self
    · have hnext := nextChoice_spec h
      refine List.mem_cons_of_mem _ ?_
      split at hnext
      · next next hsome =>
        rw [hsome]
        exact ih hnext.1 (by omega) (by omega)
      · have := InRange.index_lt h'
        omega

theorem inRange_of_mem {n : Nat} (h : InRange choice braces)
    (hm : choice' ∈ choicesFrom braces n choice) : InRange choice' braces := by
  induction n generalizing choice with
  | zero => rwa [List.mem_singleton.mp hm]
  | succ n ih =>
    obtain rfl | hm := List.mem_cons.mp hm
    · exact h
    · have hnext := nextChoice_spec h
      split at hnext
      · next next hsome =>
        rw [hsome] at hm
        exact ih hnext.1 hm
      · next hnone =>
        rw [hnone] at hm
        cases hm

/-- The loop over the arms goes through all the choices. -/
theorem mem_choices (h : ∀ brace ∈ braces, brace.terms ≠ []) :
    choice ∈ choicesFrom braces (braces.map fun brace => brace.terms.length).prod
      (braces.map fun _ => 0) ↔ InRange choice braces := by
  obtain ⟨hzeros, hindex⟩ := inRange_zeros h
  refine ⟨inRange_of_mem hzeros, fun hrange => mem_choicesFrom hzeros hrange ?_ ?_⟩
  · rw [hindex]
    exact Nat.zero_le _
  · rw [hindex, Nat.zero_add]
    exact (InRange.index_lt hrange).le

/-! ## Arms -/

variable {is js : List Item} {arm : List Item} {maxArms start : Nat}

theorem isArm_iff (h : items s = some is) :
    IsArm s maxArms arm ↔ ∃ groups, groupsOf maxArms is = some groups ∧ GroupsArm groups arm := by
  constructor
  · rintro ⟨is', groups, choice, his, hgroups, hall, rfl⟩
    rw [h, Option.some.injEq] at his
    subst his
    exact ⟨groups, hgroups, choice, hall, rfl⟩
  · rintro ⟨groups, hgroups, choice, hall, rfl⟩
    exact ⟨is, groups, choice, h, hgroups, hall, rfl⟩

/-- Items that stand for themselves. -/
def singles (is : List Item) : List (List (List Item)) := is.map fun item => [[item]]

/-- They are in every arm as they are. -/
theorem groupsArm_singles :
    GroupsArm (singles is ++ groups) arm ↔ ∃ rest, GroupsArm groups rest ∧ arm = is ++ rest := by
  induction is generalizing arm with
  | nil =>
    constructor
    · exact fun h => ⟨arm, h, rfl⟩
    · rintro ⟨rest, h, rfl⟩
      exact h
  | cons item is ih =>
    rw [singles, List.map_cons, List.cons_append, groupsArm_cons]
    constructor
    · rintro ⟨term, hm, tail, htail, rfl⟩
      rw [List.mem_singleton.mp hm]
      obtain ⟨rest, hrest, rfl⟩ := ih.mp htail
      exact ⟨rest, hrest, rfl⟩
    · rintro ⟨rest, hrest, rfl⟩
      exact ⟨[item], List.mem_cons_self, is ++ rest, ih.mpr ⟨rest, hrest, rfl⟩, rfl⟩

/-- Outside of braces, items are read as themselves. -/
theorem readGroups_append (h : .raw openBrace ∉ is) :
    readGroups none (is ++ js) = (readGroups none js).map (singles is ++ ·) := by
  induction is with
  | nil => exact Option.map_id'.symm
  | cons item is ih =>
    rw [List.mem_cons, not_or] at h
    rw [List.cons_append, readGroups, if_neg (Ne.symm h.1), ih h.2, Option.map_map]
    rfl

theorem groupsOf_append (h : .raw openBrace ∉ is) :
    groupsOf maxArms (is ++ js) = (groupsOf maxArms js).map (singles is ++ ·) := by
  rw [groupsOf, groupsOf]
  split
  · rw [List.map_append]
    rfl
  · exact readGroups_append h

/-- What is in front of the first brace is in every arm. -/
theorem isArm_append {t : Bytes} (hs : items s = some is) (h : .raw openBrace ∉ is) :
    IsArm (s ++ t) maxArms arm ↔ ∃ rest, IsArm t maxArms rest ∧ arm = is ++ rest := by
  cases ht : items t with
  | none =>
    have hst : items (s ++ t) = none := by rw [items_append_left hs, ht, Option.map_none]
    constructor
    · rintro ⟨is', -, -, his, -⟩
      rw [hst] at his
      cases his
    · rintro ⟨rest, ⟨is', -, -, his, -⟩, -⟩
      rw [ht] at his
      cases his
  | some js =>
    rw [isArm_iff (items_append hs ht)]
    simp only [isArm_iff ht, groupsOf_append h, Option.map_eq_some_iff]
    constructor
    · rintro ⟨groups', ⟨groups, hgroups, rfl⟩, harm⟩
      obtain ⟨rest, hrest, rfl⟩ := groupsArm_singles.mp harm
      exact ⟨rest, ⟨groups, hgroups, hrest⟩, rfl⟩
    · rintro ⟨rest, ⟨groups, hgroups, hrest⟩, rfl⟩
      exact ⟨_, ⟨groups, hgroups, rfl⟩, groupsArm_singles.mpr ⟨rest, hrest, rfl⟩⟩

/-- Where no braces expand, the pattern is its own arm. -/
theorem isArm_plain (h : maxArms = 0 ∨ openBrace ∉ s) :
    IsArm s maxArms arm ↔ items s = some arm := by
  cases hs : items s with
  | none =>
    refine iff_of_false ?_ (by simp)
    rintro ⟨is, -, -, his, -⟩
    rw [hs] at his
    cases his
  | some is =>
    have hgroups : groupsOf maxArms is = some (singles is) := by
      by_cases hmax : maxArms = 0
      · rw [groupsOf, if_pos hmax]
        rfl
      · rw [groupsOf, if_neg hmax]
        have hnot : .raw openBrace ∉ is := by
          intro hm
          refine h.resolve_left hmax ?_
          rw [(items_eq_some.mp hs).1]
          exact List.mem_flatMap.mpr ⟨_, hm, List.mem_cons_self⟩
        have hread : readGroups none (is ++ []) = (readGroups none []).map (singles is ++ ·) :=
          readGroups_append hnot
        rw [List.append_nil] at hread
        rw [hread, readGroups, Option.map_some, List.append_nil]
    have harm : GroupsArm (singles is) arm ↔ is = arm := by
      rw [← List.append_nil (singles is), groupsArm_singles]
      constructor
      · rintro ⟨rest, ⟨choice, hnil, rfl⟩, rfl⟩
        cases hnil
        exact (List.append_nil is).symm
      · rintro rfl
        exact ⟨[], ⟨[], .nil, rfl⟩, (List.append_nil is).symm⟩
    rw [isArm_iff hs, hgroups, Option.some.injEq, ← harm]
    simp

/-- The arms that the pieces make are those of the reference. -/
theorem bracesOf_arms (h : bracesOf s start maxArms = .ok braces) :
    (∀ brace ∈ braces, brace.terms ≠ []) ∧
      ∀ arm, IsArm (s.drop start) maxArms arm ↔ PiecesArm s start braces arm := by
  rw [bracesOf] at h
  split at h
  · next hbrace =>
    rw [Bool.and_eq_true, decide_eq_true_eq] at hbrace
    split at h
    · cases h
    · next hparse =>
      split at h
      · cases h
      · cases h
        refine ⟨parseBraces_terms (fun brace hm => (List.not_mem_nil hm).elim) hparse,
          fun arm => ?_⟩
        obtain ⟨is, groups, more, his, hgroups, rfl, harms⟩ := parseBraces_found rfl hparse
        rw [isArm_iff his, groupsOf, if_neg hbrace.1,
          harms start [] (Nat.le_refl _) (items_empty _)]
        simp [hgroups]
  · next hbrace =>
    cases h
    refine ⟨fun brace hm => (List.not_mem_nil hm).elim, fun arm => ?_⟩
    rw [Bool.and_eq_true, decide_eq_true_eq, not_and_or, Decidable.not_not] at hbrace
    rw [isArm_plain (hbrace.imp_right fun hc hm => hc (by simpa using hm))]
    have htext : piecesText (buildPieces s start [] []) = s.drop start := List.append_nil _
    constructor
    · exact fun hitems => ⟨[], .nil, by rw [htext, hitems]⟩
    · rintro ⟨choice, hrange, hitems⟩
      cases hrange
      rwa [htext] at hitems

/-! ## Valid arms -/

/-- Groups whose arms are valid text with the bytes in front of them, and an open one whose
terms are. -/
def ValidGroups (is : List Item) (groups : List (List (List Item))) :
    Option (List (List Item) × List Item) → Prop
  | none => ∀ front, ValidUtf8 (front ++ itemsText is) →
      ∀ arm, GroupsArm groups arm → ValidUtf8 (front ++ itemsText arm)
  | some (terms, term) => (∀ t ∈ terms, ValidUtf8 (itemsText t)) →
      ValidUtf8 (itemsText term ++ itemsText is) →
      ∃ group groups', groups = group :: groups' ∧ (∀ t ∈ group, ValidUtf8 (itemsText t)) ∧
        ∀ arm, GroupsArm groups' arm → ValidUtf8 (itemsText arm)

/-- The groups of valid text have valid arms: they are cut at ASCII bytes. -/
theorem readGroups_valid {brace : Option (List (List Item) × List Item)}
    (h : readGroups brace is = some groups) : ValidGroups is groups brace := by
  fun_induction readGroups brace is generalizing groups with
  | case1 =>
    cases h
    rintro front hv arm ⟨choice, hnil, rfl⟩
    cases hnil
    exact hv
  | case2 | case5 | case7 => cases h
  | case3 rest ih =>
    intro front hv arm harm
    rw [itemsText_cons] at hv
    obtain ⟨hfront, hrest⟩ := hv.split (b := openBrace) (by decide)
    obtain ⟨group, groups', rfl, hgroup, hgroups⟩ :=
      ih h (fun t hm => (List.not_mem_nil hm).elim) hrest
    obtain ⟨term, hm, tail, htail, rfl⟩ := groupsArm_cons.mp harm
    rw [itemsText_append]
    exact hfront.append ((hgroup term hm).append (hgroups tail htail))
  | case4 item rest hne ih =>
    intro front hv arm harm
    obtain ⟨groups', hgroups', rfl⟩ := Option.map_eq_some_iff.mp h
    obtain ⟨term, hm, tail, htail, rfl⟩ := groupsArm_cons.mp harm
    rw [itemsText_cons, ← List.append_assoc] at hv
    rw [List.mem_singleton.mp hm, List.singleton_append, itemsText_cons, ← List.append_assoc]
    exact ih hgroups' _ hv tail htail
  | case6 terms term rest hbrace ih =>
    intro hterms hv
    rw [itemsText_cons] at hv
    obtain ⟨hterm, hrest⟩ := hv.split (b := comma) (by decide)
    refine ih h ?_ hrest
    rw [List.forall_mem_append, List.forall_mem_singleton]
    exact ⟨hterms, hterm⟩
  | case8 terms term rest hbrace hcomma hempty ih =>
    intro hterms hv
    obtain ⟨groups', hgroups', rfl⟩ := Option.map_eq_some_iff.mp h
    rw [itemsText_cons] at hv
    obtain ⟨hterm, hrest⟩ := hv.split (b := closeBrace) (by decide)
    refine ⟨_, _, rfl, ?_, ih hgroups' [] hrest⟩
    rw [List.forall_mem_append, List.forall_mem_singleton]
    exact ⟨hterms, hterm⟩
  | case9 terms term item rest hbrace hcomma hclose ih =>
    intro hterms hv
    refine ih h hterms ?_
    rw [itemsText_append, itemsText_cons, itemsText_nil, List.append_nil, List.append_assoc]
    rwa [itemsText_cons] at hv

/-- The arms of a valid pattern are valid. -/
theorem IsArm.valid (h : IsArm s maxArms arm) (hv : ValidUtf8 s) : ValidUtf8 (itemsText arm) := by
  obtain ⟨is, groups, choice, his, hgroups, hall, rfl⟩ := h
  obtain ⟨rfl, -⟩ := items_eq_some.mp his
  rw [groupsOf] at hgroups
  split at hgroups
  · cases hgroups
    have harm : GroupsArm (singles is ++ []) choice.flatten := by
      rw [List.append_nil]
      exact ⟨choice, hall, rfl⟩
    obtain ⟨rest, ⟨empty, hnil, rfl⟩, hflat⟩ := groupsArm_singles.mp harm
    cases hnil
    rw [hflat, List.flatten_nil, List.append_nil]
    exact hv
  · exact readGroups_valid hgroups [] hv _ ⟨choice, hall, rfl⟩

end Kotatsu.Support.Glob
