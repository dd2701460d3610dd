import Kotatsu.Support.Glob.Spans

/-!
# The braces of a pattern

`parse_braces` cuts the pattern at its braces and at the commas in them, never inside a
bracket expression or an escape. So the gaps between the braces and the terms in them are
whole, and the pieces of every arm follow one another in the pattern.
-/

namespace Kotatsu.Support.Glob

open Kotatsu.Core

variable {pattern : Bytes}

/-! ## Braces in their order -/

/-- A view of the pattern between `lo` and `hi` that is read whole. -/
structure View.Within (pattern : Bytes) (lo hi : Nat) (v : View) : Prop where
  le_start : lo ≤ v.start
  stop_le : v.start + v.text.length ≤ hi
  text : v.text <+: pattern.drop v.start
  whole : Whole v.text

/-- Braces that follow one another from `lo` up to `hi`, with whole gaps before them. -/
inductive Laid (pattern : Bytes) : Nat → List Brace → Nat → Prop where
  | nil (lo : Nat) : Laid pattern lo [] lo
  | cons {lo hi : Nat} {brace : Brace} {braces : List Brace} (hlo : lo ≤ brace.begin)
    (hle : brace.begin ≤ brace.stop) (hgap : Whole (substr pattern lo (brace.begin - lo)))
    (hterms : ∀ t ∈ brace.terms, t.Within pattern brace.begin brace.stop)
    (h : Laid pattern brace.stop braces hi) : Laid pattern lo (brace :: braces) hi

variable {lo hi : Nat} {choice : List Nat} {u rest s : Bytes} {b : UInt8} {e : GlobError}

theorem Laid.snoc {braces : List Brace} {brace : Brace} (h : Laid pattern lo braces hi)
    (hhi : hi ≤ brace.begin) (hle : brace.begin ≤ brace.stop)
    (hgap : Whole (substr pattern hi (brace.begin - hi)))
    (hterms : ∀ t ∈ brace.terms, t.Within pattern brace.begin brace.stop) :
    Laid pattern lo (braces ++ [brace]) brace.stop := by
  induction h with
  | nil lo => exact .cons hhi hle hgap hterms (.nil _)
  | cons hlo hle' hgap' hterms' _ ih => exact .cons hlo hle' hgap' hterms' (ih hhi hgap)

theorem viewOf_within (h : Whole (substr pattern lo (hi - lo))) (hle : lo ≤ hi) :
    (viewOf pattern lo hi).Within pattern lo hi where
  le_start := Nat.le_refl lo
  stop_le := by
    dsimp only [viewOf]
    rw [length_substr]
    omega
  text := List.take_prefix _ _
  whole := h

theorem View.Within.mono {lo lo' hi hi' : Nat} {v : View} (h : v.Within pattern lo hi)
    (hlo : lo' ≤ lo) (hhi : hi ≤ hi') : v.Within pattern lo' hi' :=
  ⟨hlo.trans h.le_start, h.stop_le.trans hhi, h.text, h.whole⟩

/-- The pieces of an arm follow one another in the pattern. -/
theorem Laid.ordered {braces : List Brace} (h : Laid pattern lo braces hi)
    (hlen : choice.length = braces.length) :
    Ordered pattern lo (buildPieces pattern lo braces choice) := by
  induction h generalizing choice with
  | nil lo => exact .last (Nat.le_refl lo) (List.prefix_refl _)
  | @cons lo hi brace braces hlo hle hgap hterms hrest ih =>
    obtain _ | ⟨k, choice⟩ := choice
    · cases hlen
    · have hview := viewOf_within hgap hlo
      have hnext : Ordered pattern brace.stop (buildPieces pattern brace.stop braces choice) :=
        ih (Nat.succ.inj hlen)
      refine .cons (Nat.le_refl lo) hview.text hview.whole ?_
      cases hk : brace.terms[k]? with
      | none =>
        have hterm : brace.terms.getD k ⟨0, []⟩ = ⟨0, []⟩ := by
          rw [List.getD_eq_getElem?_getD, hk, Option.getD_none]
        rw [hterm]
        exact .skip rfl (hnext.mono (hview.stop_le.trans hle))
      | some t =>
        have hterm : brace.terms.getD k ⟨0, []⟩ = t := by
          rw [List.getD_eq_getElem?_getD, hk, Option.getD_some]
        have hwithin := hterms t (List.mem_of_getElem? hk)
        rw [hterm]
        exact .cons (hview.stop_le.trans hwithin.le_start) hwithin.text hwithin.whole
          (hnext.mono hwithin.stop_le)

/-! ## The loop over the pattern -/

/-- What the loop of `parse_braces` has read up to `i`: the braces that are closed, and a gap or,
in an open brace, the terms that have ended and the one that has not. -/
def Reading (pattern : Bytes) (start i : Nat) (braces : List Brace) :
    Option (Nat × List View) → Nat → Prop
  | none, _ => ∃ cursor, Laid pattern start braces cursor ∧ cursor ≤ i ∧
      Whole (substr pattern cursor (i - cursor))
  | some (begin, terms), termBegin =>
    (∃ cursor, Laid pattern start braces cursor ∧ cursor ≤ begin ∧
      Whole (substr pattern cursor (begin - cursor))) ∧ pattern[begin]? = some openBrace ∧
    begin < termBegin ∧ termBegin ≤ i ∧ Whole (substr pattern termBegin (i - termBegin)) ∧
    ∀ t ∈ terms, t.Within pattern begin termBegin

variable {start i termBegin : Nat} {braces : List Brace} {opened : Option (Nat × List View)}

theorem substr_snoc (hlo : lo ≤ i) (hdrop : pattern.drop i = u ++ rest) :
    substr pattern lo (i + u.length - lo) = substr pattern lo (i - lo) ++ u := by
  rw [substr, substr, show i + u.length - lo = i - lo + u.length by omega, List.take_add,
    List.drop_drop, Nat.add_sub_cancel' hlo, hdrop, List.take_left]

private theorem whole_snoc (h : Whole (substr pattern lo (i - lo))) (hlo : lo ≤ i)
    (hdrop : pattern.drop i = u ++ rest) (hu : Whole u) :
    Whole (substr pattern lo (i + u.length - lo)) := by
  rw [substr_snoc hlo hdrop]
  exact h.append hu

/-- What is read whole goes to the gap or to the term that is being read. -/
theorem Reading.step (h : Reading pattern start i braces opened termBegin)
    (hdrop : pattern.drop i = u ++ rest) (hu : Whole u) :
    Reading pattern start (i + u.length) braces opened termBegin := by
  cases opened with
  | none =>
    obtain ⟨cursor, hlaid, hle, hgap⟩ := h
    exact ⟨cursor, hlaid, Nat.le_add_right_of_le hle, whole_snoc hgap hle hdrop hu⟩
  | some brace =>
    obtain ⟨hclosed, hopen, hlt, hle, hterm, hterms⟩ := h
    exact ⟨hclosed, hopen, hlt, Nat.le_add_right_of_le hle, whole_snoc hterm hle hdrop hu, hterms⟩

/-- A pattern whose braces are read, or whose error spans what it is about. -/
def BracesRead (pattern : Bytes) (start : Nat) : Except GlobError (List Brace) → Prop
  | .ok braces => ∃ cursor, Laid pattern start braces cursor ∧ cursor ≤ pattern.length ∧
      Whole (pattern.drop cursor)
  | .error e => e.Spans pattern

theorem drop_step (h : pattern.drop i = u ++ rest) : pattern.drop (i + u.length) = rest := by
  rw [← List.drop_drop, h, List.drop_left]

private theorem getElem?_of_drop (h : pattern.drop i = b :: rest) : pattern[i]? = some b := by
  rw [← List.head?_drop, h, List.head?_cons]

private theorem lt_of_drop (h : pattern.drop i = b :: rest) :
    i + 1 + rest.length = pattern.length := by
  have hlen := congrArg List.length h
  rw [List.length_drop, List.length_cons] at hlen
  omega

private theorem spans_of_drop {kind : ErrorKind} {message : String}
    (hdrop : pattern.drop i = b :: rest) (hkind : kind.byte = some b) :
    GlobError.Spans pattern ⟨kind, i, i + 1, message⟩ := by
  have hlen := lt_of_drop hdrop
  exact .of_byte hkind (Nat.lt_succ_self i) (by dsimp only; omega) (getElem?_of_drop hdrop)

private theorem spans_of_scan (hdrop : pattern.drop i = openBracket :: rest)
    (h : scanBracket i rest = .error e) : e.Spans pattern := by
  have hlen := lt_of_drop hdrop
  obtain ⟨hkind, hbegin, hstop⟩ | ⟨hkind, hbegin, hstop, hbyte⟩ := scanBracket_error h
  · refine .of_byte (b := openBracket) (by rw [hkind]; rfl) (by omega) (by omega) ?_
    rw [hbegin]
    exact getElem?_of_drop hdrop
  · have hlt := (List.getElem?_eq_some_iff.mp hbyte).1
    refine .of_byte (b := backslash) (by rw [hkind]; rfl) (by omega) (by omega) ?_
    rw [← hbyte, show e.begin = i + (e.begin - (i + 1) + 1) by omega, ← List.getElem?_drop, hdrop,
      List.getElem?_cons_succ]
    congr 1
    omega

private theorem whole_empty (lo : Nat) : Whole (substr pattern lo (lo - lo)) := by
  rw [Nat.sub_self, substr, List.take_zero]
  exact .nil

/-- The terms of an open brace, and the one that has just ended. -/
private theorem terms_snoc {begin : Nat} {terms : List View}
    (hterms : ∀ t ∈ terms, t.Within pattern begin termBegin) (hlt : begin < termBegin)
    (hle : termBegin ≤ i) (hterm : Whole (substr pattern termBegin (i - termBegin))) :
    ∀ t ∈ terms ++ [viewOf pattern termBegin i], t.Within pattern begin (i + 1) := by
  intro t ht
  obtain ht | ht := List.mem_append.mp ht
  · exact (hterms t ht).mono (Nat.le_refl _) (by omega)
  · rw [List.mem_singleton.mp ht]
    exact (viewOf_within hterm hle).mono hlt.le (Nat.le_succ i)

theorem parseBraces_read (hs : pattern.drop i = s)
    (h : Reading pattern start i braces opened termBegin) (hi : i ≤ pattern.length) :
    BracesRead pattern start (parseBraces pattern i s braces opened termBegin) := by
  fun_induction parseBraces pattern i s braces opened termBegin with
  | case1 i braces termBegin =>
    obtain ⟨cursor, hlaid, hle, hgap⟩ := h
    refine ⟨cursor, hlaid, hle.trans hi, ?_⟩
    rwa [substr, List.take_of_length_le] at hgap
    rw [List.length_drop]
    exact Nat.sub_le_sub_right (List.drop_eq_nil_iff.mp hs) cursor
  | case2 i braces termBegin begin terms =>
    obtain ⟨-, hopen, hlt, hle, -, -⟩ := h
    have hin := (List.getElem?_eq_some_iff.mp hopen).1
    exact .of_byte rfl (Nat.lt_succ_self begin) hin hopen
  | case3 i braces opened termBegin rest error hscan => exact spans_of_scan hs hscan
  | case4 i braces opened termBegin rest close hscan ih =>
    obtain ⟨body, more, rfl, rfl, hcloses, -, -⟩ := scanBracket_ok hscan
    have hunit : Whole (openBracket :: (body ++ [closeBracket])) := .bracket hcloses .nil
    have hdrop : pattern.drop i = openBracket :: (body ++ [closeBracket]) ++ more := by
      rw [hs, List.cons_append, List.append_assoc, List.singleton_append]
    have hlen : i + (openBracket :: (body ++ [closeBracket])).length =
        i + 1 + body.length + 1 := by
      rw [List.length_cons, List.length_append, List.length_singleton]
      omega
    have hstep := h.step hdrop hunit
    have hrest := drop_step hdrop
    have hbound := lt_of_drop hs
    rw [hlen] at hstep hrest
    refine ih ?_ hstep ?_
    · rw [hrest, show i + 1 + body.length - i = body.length + 1 by omega, ← List.drop_drop,
        List.drop_left, List.drop_one, List.tail_cons]
    · rw [List.length_append, List.length_cons] at hbound
      omega
  | case5 i braces termBegin rest val => exact spans_of_drop hs rfl
  | case6 i braces termBegin rest _ ih =>
    obtain ⟨cursor, hlaid, hle, hgap⟩ := h
    have hlen := lt_of_drop hs
    exact ih (drop_step (u := [openBrace]) hs) ⟨⟨cursor, hlaid, hle, hgap⟩, getElem?_of_drop hs,
      Nat.lt_succ_self i, Nat.le_refl _, whole_empty _, fun t ht => by cases ht⟩ (by omega)
  | case7 i braces termBegin rest _ _ ih =>
    have hlen := lt_of_drop hs
    exact ih (drop_step (u := [comma]) hs)
      (h.step (u := [comma]) hs (.byte (by decide) (by decide) .nil)) (by omega)
  | case8 i braces termBegin rest begin terms _ _ ih =>
    obtain ⟨hclosed, hopen, hlt, hle, hterm, hterms⟩ := h
    have hlen := lt_of_drop hs
    exact ih (drop_step (u := [comma]) hs) ⟨hclosed, hopen, by omega, Nat.le_refl _,
      whole_empty _, terms_snoc hterms hlt hle hterm⟩ (by omega)
  | case9 i braces termBegin rest _ _ _ ih =>
    have hlen := lt_of_drop hs
    exact ih (drop_step (u := [closeBrace]) hs)
      (h.step (u := [closeBrace]) hs (.byte (by decide) (by decide) .nil)) (by omega)
  | case10 i braces termBegin rest begin terms hempty =>
    obtain ⟨-, hopen, hlt, hle, -, -⟩ := h
    have hlen := lt_of_drop hs
    exact .of_byte rfl (by dsimp only; omega) (by dsimp only; omega) hopen
  | case11 i braces termBegin rest begin terms hempty _ _ _ ih =>
    obtain ⟨⟨cursor, hlaid, hle', hgap⟩, hopen, hlt, hle, hterm, hterms⟩ := h
    have hlen := lt_of_drop hs
    refine ih (drop_step (u := [closeBrace]) hs) ⟨i + 1, ?_, Nat.le_refl _, whole_empty _⟩
      (by omega)
    have hterms' := terms_snoc hterms hlt hle hterm
    have hsnoc : Laid pattern start
        (braces ++ [⟨begin, i + 1, terms ++ [viewOf pattern termBegin i]⟩]) (i + 1) :=
      hlaid.snoc hle' (by dsimp only; omega) hgap hterms'
    exact hsnoc
  | case12 i braces opened termBegin => exact spans_of_drop hs rfl
  | case13 i braces opened termBegin c rest _ _ _ _ ih =>
    have hlen := lt_of_drop hs
    rw [List.length_cons] at hlen
    exact ih (drop_step (u := [backslash, c]) hs)
      (h.step (u := [backslash, c]) hs (.escape .nil)) (by omega)
  | case14 i braces opened termBegin b rest hb _ _ _ hb' ih =>
    have hlen := lt_of_drop hs
    exact ih (drop_step (u := [b]) hs) (h.step (u := [b]) hs (.byte hb hb' .nil)) (by omega)

/-! ## The arms of a pattern -/

private theorem parse_from (hstart : start ≤ s.length) :
    BracesRead s start (parseBraces s start (s.drop start) [] none 0) :=
  parseBraces_read rfl ⟨start, .nil start, Nat.le_refl _, whole_empty start⟩ hstart

theorem bracesOf_ok {maxArms : Nat} (hstart : start ≤ s.length)
    (h : bracesOf s start maxArms = .ok braces) : ∃ cursor, Laid s start braces cursor := by
  have hread := parse_from hstart
  unfold bracesOf at h
  split at h
  · split at h
    · cases h
    · next hparse =>
      rw [hparse] at hread
      obtain ⟨cursor, hlaid, -, -⟩ := hread
      split at h
      · cases h
      · cases h
        exact ⟨cursor, hlaid⟩
  · cases h
    exact ⟨start, .nil start⟩

theorem bracesOf_error {maxArms : Nat} (hstart : start ≤ s.length)
    (h : bracesOf s start maxArms = .error e) (hkind : e.kind ≠ .tooManyExpansions) :
    e.Spans s := by
  have hread := parse_from hstart
  unfold bracesOf at h
  split at h
  · split at h
    · next hparse =>
      rw [hparse] at hread
      cases h
      exact hread
    · split at h
      · cases h
        exact absurd rfl hkind
      · cases h
  · cases h

theorem nextChoice_length {choice choice' : List Nat}
    (h : nextChoice choice braces = some choice') : choice'.length = choice.length := by
  fun_induction nextChoice choice braces generalizing choice' with
  | case1 k choice brace braces next hnext ih =>
    cases h
    rw [List.length_cons, List.length_cons, ih hnext]
  | case2 k choice brace braces hnext ih hlt =>
    cases h
    rw [List.length_cons, List.length_cons, List.length_map]
  | case3 => cases h
  | case4 => cases h

theorem choicesFrom_length {n : Nat} {choice choice' : List Nat}
    (h : choice' ∈ choicesFrom braces n choice) : choice'.length = choice.length := by
  induction n generalizing choice with
  | zero => rw [List.mem_singleton.mp h]
  | succ n ih =>
    obtain rfl | h := List.mem_cons.mp h
    · rfl
    · cases hnext : nextChoice choice braces with
      | none =>
        rw [hnext] at h
        cases h
      | some next =>
        rw [hnext] at h
        exact (ih h).trans (nextChoice_length hnext)

theorem compileChoice_spans {atSegEnd root atSegmentStart : Bool} {cursor : Nat}
    (hlaid : Laid s start braces cursor) (hlen : choice.length = braces.length)
    (hend : atSegEnd = true → 0 < start ∧ s[start - 1]? = some slash)
    (h : compileChoice s start atSegEnd root atSegmentStart braces choice = .error e) :
    e.Spans s := by
  have hord := hlaid.ordered hlen
  unfold compileChoice at h
  dsimp only at h
  split at h
  · next hslash =>
    obtain ⟨hend', hhead⟩ := Bool.and_eq_true_iff.mp hslash
    obtain ⟨hpos, hbyte⟩ := hend hend'
    have hin : 0 < (piecesText (buildPieces s start braces choice)).length := by
      refine List.length_pos_of_ne_nil fun hnil => ?_
      rw [hnil] at hhead
      cases hhead
    have hle := (hord.origin_get hin).1
    have hspan := (hord.origin_span (Nat.le_refl 0) hin).2
    cases h
    exact .of_byte rfl (by dsimp only; omega) hspan hbyte
  · split at h
    · next error harm =>
      cases h
      exact (compileArm_located harm start _ hord rfl).2.2.2
    · cases h

end Kotatsu.Support.Glob
