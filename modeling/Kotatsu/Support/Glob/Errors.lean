import Kotatsu.Support.Glob.Braces

/-!
# The errors of `create`

Whatever `create` reports, other than that there are too many arms, spans bytes of the
pattern that begin with what the error is about. `ArmText::origin` has a branch that must
not be reached, for an offset outside of the arm: `compileChoiceChecked` gives nothing
where the code would reach it, and it always gives something.
-/

namespace Kotatsu.Support.Glob

open Kotatsu.Core

/-! ## The head of a pattern -/

theorem literalHead_stop (s : Bytes) : (literalHead s).stop ≤ s.length := by
  fun_induction literalHead s with
  | case1 => exact Nat.le_refl 0
  | case2 => exact Nat.zero_le _
  | case3 => exact Nat.zero_le _
  | case4 => exact Nat.zero_le _
  | case5 c rest _ _ head ih =>
    simp only [List.length_cons]
    exact Nat.succ_le_succ (Nat.succ_le_succ ih)
  | case6 b rest _ _ head ih =>
    simp only [List.length_cons]
    exact Nat.succ_le_succ ih

theorem literalHead_empty {s : Bytes} (h : (literalHead s).text = []) :
    (literalHead s).stop = 0 := by
  fun_induction literalHead s with
  | case1 | case2 | case3 | case4 => rfl
  | case5 | case6 => cases h

private theorem getLast?_cons_eq {b c : UInt8} {rest : Bytes}
    (h : (b :: rest).getLast? = some c) : (rest = [] ∧ b = c) ∨ rest.getLast? = some c := by
  cases rest with
  | nil => exact .inl ⟨rfl, Option.some.inj h⟩
  | cons d rest =>
    rw [List.getLast?_cons_cons] at h
    exact .inr h

/-- The byte before a place, behind more bytes. -/
theorem get_behind (front : Bytes) {rest : Bytes} {n : Nat}
    (h : 0 < n ∧ rest[n - 1]? = some slash) :
    0 < n + front.length ∧ (front ++ rest)[n + front.length - 1]? = some slash := by
  refine ⟨Nat.add_pos_left h.1 _, ?_⟩
  rw [List.getElem?_append_right (by omega), ← h.2]
  congr 1
  omega

/-- A head that ends with a separator ends with one in the pattern. -/
theorem literalHead_slash {s : Bytes} (h : (literalHead s).text.getLast? = some slash) :
    0 < (literalHead s).stop ∧ s[(literalHead s).stop - 1]? = some slash := by
  fun_induction literalHead s with
  | case1 | case2 | case3 | case4 => cases h
  | case5 c rest hc head _ ih =>
    obtain ⟨-, hlast⟩ | hlast := getLast?_cons_eq h
    · exact absurd hlast hc
    · exact get_behind [backslash, c] (ih hlast)
  | case6 b rest _ _ head ih =>
    obtain ⟨hnil, hlast⟩ | hlast := getLast?_cons_eq h
    · have hzero : head.stop = 0 := literalHead_empty hnil
      dsimp only
      rw [hzero, hlast]
      exact ⟨Nat.succ_pos 0, rfl⟩
    · exact get_behind [b] (ih hlast)

/-! ## Bytes that do not decode, and separators that follow one another -/

/-- Where a text stops being UTF-8, and that it is UTF-8 up to there. -/
theorem findInvalidUtf8_some {s : Bytes} {at' pos : Nat} (h : findInvalidUtf8 at' s = some pos) :
    ∃ n, pos = at' + n ∧ n < s.length ∧ ValidUtf8 (s.take n) ∧
      (decodeUtf8 (s.drop n)).valid = false := by
  fun_induction findInvalidUtf8 at' s with
  | case1 => cases h
  | case2 at' s hne atom hinvalid =>
    cases h
    refine ⟨0, rfl, List.length_pos_of_ne_nil hne, .nil, ?_⟩
    rw [List.drop_zero]
    by_contra hvalid
    have hv : (decodeUtf8 s).valid = true := by simpa using hvalid
    have hlt := decodeUtf8_codePoint_lt hv
    have hatom : atom = ⟨(decodeUtf8 s).codePoint, (decodeUtf8 s).length⟩ :=
      decodeUtf8Atom_of_valid hv
    rw [hatom] at hinvalid
    exact absurd hinvalid (Nat.not_le_of_lt hlt)
  | case3 at' s hne atom hvalid ih =>
    obtain ⟨n, rfl, hn, htake, hdrop⟩ := ih h
    have hv := valid_of_atom_lt (Nat.lt_of_not_le hvalid)
    have hlen : atom.len = (decodeUtf8 s).length :=
      congrArg Utf8Atom.len (decodeUtf8Atom_of_valid hv)
    have hle : atom.len ≤ s.length := atom_len_le hne
    rw [List.length_drop] at hn
    refine ⟨atom.len + n, by omega, by omega, ?_, ?_⟩
    · have hfirst : decodeUtf8 (s.take (atom.len + n)) = decodeUtf8 s :=
        decodeUtf8_take hv (by omega)
      refine .cons (by rw [hfirst]; exact hv) ?_
      rw [hfirst, ← hlen, List.drop_take, Nat.add_sub_cancel_left]
      exact htake
    · rw [← List.drop_drop]
      exact hdrop

theorem findDoubleSlash_some {s : Bytes} {at' pos : Nat} (h : findDoubleSlash at' s = some pos) :
    ∃ n, pos = at' + n ∧ n + 2 ≤ s.length ∧ s[n]? = some slash := by
  fun_induction findDoubleSlash at' s with
  | case1 at' a b rest hslash =>
    cases h
    refine ⟨0, rfl, by simp, ?_⟩
    rw [hslash.1]
    rfl
  | case2 at' a b rest hslash ih =>
    obtain ⟨n, rfl, hn, hbyte⟩ := ih h
    rw [List.length_cons] at hn
    refine ⟨n + 1, by omega, ?_, hbyte⟩
    rw [List.length_cons, List.length_cons]
    omega
  | case3 => cases h

/-! ## The unreachable branch -/

/-- `ArmText::origin`, with nothing where it is past the pieces. -/
def originChecked : List View → Nat → Option Nat
  | [], _ => none
  | piece :: pieces, offset =>
    if offset < piece.text.length then some (piece.start + offset)
    else originChecked pieces (offset - piece.text.length)

/-- `ArmText::rebase`, with nothing where `originChecked` gives nothing. -/
def rebaseChecked (pieces : List View) (error : GlobError) : Option GlobError := do
  let stop ← originChecked pieces (error.stop - 1)
  let begin ← originChecked pieces error.begin
  pure { error with stop := stop + 1, begin := begin }

/-- `compileChoice`, with nothing where it asks for the origin of what is not in the arm. -/
def compileChoiceChecked (s : Bytes) (start : Nat) (atSegEnd root atSegmentStart : Bool)
    (braces : List Brace) (choice : List Nat) : Option (Except GlobError (Arm × Bool)) :=
  let pieces := buildPieces s start braces choice
  let text := piecesText pieces
  if atSegEnd && text.head? = some slash then
    (originChecked pieces 0).map fun offset =>
      .error ⟨.multipleSlash, start - 1, offset + 1, "multiple `/` is not allowed"⟩
  else
    match compileArm text atSegmentStart with
    | .error error => (rebaseChecked pieces error).map .error
    | .ok arm => some (.ok (arm, root && (text = [star, star] || text = [star, star, slash])))

theorem originChecked_eq {pieces : List View} {offset : Nat}
    (h : offset < (piecesText pieces).length) :
    originChecked pieces offset = some (origin pieces offset) := by
  induction pieces generalizing offset with
  | nil => cases h
  | cons piece pieces ih =>
    rw [originChecked, origin]
    split
    · rfl
    · rw [piecesText_cons, List.length_append] at h
      exact ih (by omega)

/-- The error of an arm is at bytes of the arm, however the arm was put together. -/
theorem compileArm_span {text : Bytes} {atSegmentStart : Bool} {e : GlobError}
    (h : compileArm text atSegmentStart = .error e) : e.begin < e.stop ∧ e.stop ≤ text.length := by
  have hord : Ordered text 0 [⟨0, text⟩] := .last (Nat.le_refl 0) (List.prefix_refl _)
  have htext : piecesText [⟨0, text⟩] = text := by
    rw [piecesText_cons]
    exact List.append_nil text
  obtain ⟨-, hlt, hle, -⟩ := compileArm_located h 0 _ hord htext
  rw [htext, Nat.zero_add] at hle
  exact ⟨hlt, hle⟩

theorem compileChoiceChecked_eq (s : Bytes) (start : Nat) (atSegEnd root atSegmentStart : Bool)
    (braces : List Brace) (choice : List Nat) :
    compileChoiceChecked s start atSegEnd root atSegmentStart braces choice =
      some (compileChoice s start atSegEnd root atSegmentStart braces choice) := by
  unfold compileChoiceChecked compileChoice
  dsimp only
  split
  · next hslash =>
    have hin : 0 < (piecesText (buildPieces s start braces choice)).length := by
      refine List.length_pos_of_ne_nil fun hnil => ?_
      rw [hnil] at hslash
      simp at hslash
    rw [originChecked_eq hin]
    rfl
  · cases harm : compileArm (piecesText (buildPieces s start braces choice)) atSegmentStart with
    | ok arm => rfl
    | error error =>
      obtain ⟨hlt, hle⟩ := compileArm_span harm
      dsimp only
      rw [rebaseChecked, originChecked_eq (by omega), originChecked_eq (by omega)]
      rfl

/-! ## Errors of a pattern -/

theorem mapM_error {α β ε : Type} {f : α → Except ε β} {xs : List α} {e : ε}
    (h : xs.mapM f = .error e) : ∃ x ∈ xs, f x = .error e := by
  induction xs with
  | nil => cases h
  | cons x xs ih =>
    rw [List.mapM_cons] at h
    cases hx : f x with
    | error e' =>
      rw [hx] at h
      cases h
      exact ⟨x, List.mem_cons_self .., hx⟩
    | ok y =>
      cases hxs : xs.mapM f with
      | error e' =>
        rw [hx, hxs] at h
        cases h
        obtain ⟨z, hz, hfz⟩ := ih hxs
        exact ⟨z, List.mem_cons_of_mem x hz, hfz⟩
      | ok ys =>
        rw [hx, hxs] at h
        cases h

theorem create_spans {s : Bytes} {maxArms : Nat} {e : GlobError}
    (h : create s maxArms = .error e) (hkind : e.kind ≠ .tooManyExpansions) : e.Spans s := by
  have hstop := literalHead_stop s
  unfold create at h
  split at h
  · next pos hpos =>
    cases h
    obtain ⟨n, rfl, hn, htake, hdrop⟩ := findInvalidUtf8_some hpos
    refine ⟨Nat.lt_succ_self _, by dsimp only; omega, ?_⟩
    rw [Nat.zero_add]
    exact ⟨htake, hdrop⟩
  dsimp only at h
  split at h
  · next hback =>
    rw [List.head?_drop] at hback
    have hlt := (List.getElem?_eq_some_iff.mp hback).1
    split at h
    · cases h
      exact .of_byte rfl (Nat.lt_succ_self _) hlt hback
    · cases h
      exact .of_byte rfl (by dsimp only; omega) (by dsimp only; omega) hback
  split at h
  · next pos hpos =>
    cases h
    obtain ⟨n, rfl, hn, hbyte⟩ := findDoubleSlash_some hpos
    rw [List.length_take] at hn
    rw [List.getElem?_take, if_pos (by omega)] at hbyte
    rw [Nat.zero_add]
    exact .of_byte rfl (by dsimp only; omega) (by dsimp only; omega) hbyte
  split at h
  · cases h
  split at h
  · next hbraces =>
    cases h
    exact bracesOf_error hstop hbraces hkind
  · next braces hbraces =>
    obtain ⟨cursor, hlaid⟩ := bracesOf_ok hstop hbraces
    split at h
    · next hchoices =>
      cases h
      obtain ⟨choice, hchoice, herror⟩ := mapM_error hchoices
      have hlen : choice.length = braces.length := by
        rw [choicesFrom_length hchoice, List.length_map]
      refine compileChoice_spans hlaid hlen (fun hend => ?_) herror
      exact literalHead_slash (by simpa using hend)
    · cases h

/-- Whatever `create` reports, other than too many arms, spans bytes of the pattern that begin
with what the error is about; and the origin of an offset is only asked for inside an arm. -/
theorem create_errors (s : Bytes) (maxArms : Nat) :
    (∀ e, create s maxArms = .error e → e.kind ≠ .tooManyExpansions → e.Spans s) ∧
    ∀ (start : Nat) (atSegEnd root atSegmentStart : Bool) (braces : List Brace)
      (choice : List Nat),
      compileChoiceChecked s start atSegEnd root atSegmentStart braces choice =
        some (compileChoice s start atSegEnd root atSegmentStart braces choice) :=
  ⟨fun _ h hkind => create_spans h hkind, compileChoiceChecked_eq s⟩

/-! ## An arm that is put together -/

/-- A pattern one of whose arms has three stars, the first of them in a term of the brace. -/
def straddling : Bytes := [openBrace, 97, star, comma, 98, closeBrace, star, star]

theorem findInvalidUtf8_ascii {b : UInt8} (hb : b < 0x80) (at' : Nat) (rest : Bytes) :
    findInvalidUtf8 at' (b :: rest) = findInvalidUtf8 (at' + 1) rest := by
  have hascii := decodeUtf8_ascii hb rest
  have hv : (decodeUtf8 (b :: rest)).valid = true := by rw [hascii]
  have hlt : ¬b.toNat ≥ invalidAtomBase := by
    have hbound := b.toNat_lt
    unfold invalidAtomBase
    omega
  rw [findInvalidUtf8, dif_neg (List.cons_ne_nil b rest), decodeUtf8Atom_of_valid hv, hascii]
  simp only [hlt, if_false, List.drop_succ_cons, List.drop_zero]

private def straddlingBraces : List Brace := [⟨0, 6, [⟨1, [97, star]⟩, ⟨4, [98]⟩]⟩]

private theorem straddling_braces : bracesOf straddling 0 2 = .ok straddlingBraces := by
  simp +decide [straddling, straddlingBraces, bracesOf, parseBraces, viewOf, substr]

private theorem straddling_arm : compileArm [97, star, star, star] true =
    .error ⟨.multipleStar, 1, 4, "multiple `*` is not allowed"⟩ := by
  have htokens : compileTokens 0 [97, star, star, star] [] =
      .error ⟨.multipleStar, 1, 4, "multiple `*` is not allowed"⟩ := by
    simp +decide [compileTokens]
  have hsegments : compileSegments true 0 [97, star, star, star] =
      .error ⟨.multipleStar, 1, 4, "multiple `*` is not allowed"⟩ := by
    rw [compileSegments]
    split
    · next h =>
      rw [htokens] at h
      cases h
      rfl
    · next h =>
      rw [htokens] at h
      cases h
  rw [compileArm, hsegments]

private theorem straddling_choice :
    compileChoice straddling 0 false true true straddlingBraces [0] =
      .error ⟨.multipleStar, 2, 8, "multiple `*` is not allowed"⟩ := by
  have hpieces : buildPieces straddling 0 straddlingBraces [0] =
      [⟨0, []⟩, ⟨1, [97, star]⟩, ⟨6, [star, star]⟩] := by decide
  have htext : piecesText [⟨0, []⟩, ⟨1, [97, star]⟩, ⟨6, [star, star]⟩] =
      [97, star, star, star] := by decide
  unfold compileChoice
  dsimp only
  rw [hpieces, htext, straddling_arm]
  decide

private theorem create_straddling :
    create straddling 2 = .error ⟨.multipleStar, 2, 8, "multiple `*` is not allowed"⟩ := by
  have hvalid : findInvalidUtf8 0 straddling = none := by
    unfold straddling
    iterate 8 rw [findInvalidUtf8_ascii (by decide)]
    rw [findInvalidUtf8]
    rfl
  have hhead : literalHead straddling = ⟨[], 0⟩ := rfl
  have hcount : (straddlingBraces.map fun brace => brace.terms.length).prod = 2 := by decide
  have hchoices : choicesFrom straddlingBraces 2 (straddlingBraces.map fun _ => 0) =
      [[0], [1]] := by decide
  unfold create
  rw [hvalid]
  dsimp only
  rw [hhead]
  dsimp only
  rw [if_neg (by decide), straddling_braces,
    show findDoubleSlash 0 (straddling.take 0) = none from rfl]
  dsimp only
  rw [if_neg (by decide), hcount, hchoices, List.mapM_cons]
  simp [straddling_choice, bind, Except.bind]

theorem create_errors_straddling :
    create straddling 2 = .error ⟨.multipleStar, 2, 8, "multiple `*` is not allowed"⟩ ∧
      GlobError.Spans straddling ⟨.multipleStar, 2, 8, "multiple `*` is not allowed"⟩ :=
  ⟨create_straddling, (create_errors straddling 2).1 _ create_straddling (by decide)⟩

end Kotatsu.Support.Glob
