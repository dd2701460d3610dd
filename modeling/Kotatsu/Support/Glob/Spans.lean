import Kotatsu.Support.Glob.Pieces

/-!
# Where the errors of a pattern are

An error of `create` names some bytes of the pattern, and what it is about stands where
they begin: a bracket, a backslash, a brace, a separator, a star, the first member of a
range, or the first byte that does not decode. Where it was found in an arm, both ends of
its span are mapped through the pieces of the arm, and neither lies outside of the arm.
-/

namespace Kotatsu.Support.Glob

open Kotatsu.Core

/-! ## What an error is about -/

/-- A range whose first member is past its last, as it is written. -/
def IsEmptyRange (span : Bytes) : Prop :=
  ∃ lo hi m n, span = m ++ dash :: n ∧ nextMember m = ⟨lo, m.length⟩ ∧
    nextMember n = ⟨hi, n.length⟩ ∧ hi < lo

/-- The byte an error of some kind is about. -/
def ErrorKind.byte : ErrorKind → Option UInt8
  | .unmatchedBracket => some openBracket
  | .strayBackslash => some backslash
  | .invalidEscape => some backslash
  | .nestedBrace => some openBrace
  | .emptyBrace => some openBrace
  | .incompleteBrace => some openBrace
  | .multipleSlash => some slash
  | .multipleStar => some star
  | .invalidRange => none
  | .invalidUtf8 => none
  | .tooManyExpansions => none

/-- What an error is about stands in the text where its span begins. -/
def GlobError.About (s : Bytes) (e : GlobError) : Prop :=
  let span := substr s e.begin (e.stop - e.begin)
  match e.kind.byte with
  | some b => span.head? = some b
  | none =>
    if e.kind = .invalidRange then IsEmptyRange span
    else ValidUtf8 (s.take e.begin) ∧ (decodeUtf8 (s.drop e.begin)).valid = false

/-- The span of an error is inside the text and begins with what it is about. -/
structure GlobError.Spans (s : Bytes) (e : GlobError) : Prop where
  begin_lt : e.begin < e.stop
  stop_le : e.stop ≤ s.length
  about : e.About s

variable {s rest body : Bytes} {b : UInt8} {n : Nat} {tokens : List Token}

theorem GlobError.Spans.of_byte {e : GlobError} (hkind : e.kind.byte = some b)
    (hlt : e.begin < e.stop) (hle : e.stop ≤ s.length) (hb : s[e.begin]? = some b) : e.Spans s := by
  refine ⟨hlt, hle, ?_⟩
  have hhead : (substr s e.begin (e.stop - e.begin)).head? = some b := by
    rw [substr, List.head?_take, if_neg (by omega), List.head?_drop, hb]
  unfold GlobError.About
  rw [hkind]
  exact hhead

/-! ## Ranges -/

theorem Paired.of_append (xs : Bytes) {ys : Bytes} (hxs : ∀ b ∈ xs, b ≠ backslash)
    (h : Paired (xs ++ ys)) : Paired ys := by
  induction xs with
  | nil => exact h
  | cons x xs ih =>
    refine ih (fun b hb => hxs b (List.mem_cons_of_mem x hb)) ?_
    have hx := hxs x (List.mem_cons_self ..)
    rw [List.cons_append] at h
    generalize xs ++ ys = zs at h
    cases h with
    | byte _ h => exact h
    | escape => exact absurd rfl hx

/-- An atom of a text is the same in the text that ends with it. -/
theorem decodeUtf8Atom_take {x : Bytes} (hne : x ≠ []) :
    decodeUtf8Atom (x.take (decodeUtf8Atom x).len) = decodeUtf8Atom x := by
  by_cases hv : (decodeUtf8 x).valid = true
  · have hlen : (decodeUtf8Atom x).len = (decodeUtf8 x).length := by
      rw [decodeUtf8Atom_of_valid hv]
    have htake := decodeUtf8_take hv hlen.ge
    rw [decodeUtf8Atom_of_valid (htake ▸ hv), htake, ← decodeUtf8Atom_of_valid hv]
  · have hone : (decodeUtf8Atom x).len = 1 := by
      unfold decodeUtf8Atom
      dsimp only
      rw [if_neg hv]
    have hv' : ¬(decodeUtf8 (x.take 1)).valid = true := fun h => hv (decodeUtf8_of_take h ▸ h)
    rw [hone, decodeUtf8Atom, decodeUtf8Atom, if_neg hv, if_neg hv']
    obtain ⟨b, rest, rfl⟩ := List.exists_cons_of_ne_nil hne
    rfl

/-- After an atom that begins with `b`, the escapes are paired where they were after `b`. -/
private theorem Paired.drop_atom (h : Paired rest) :
    Paired ((b :: rest).drop (decodeUtf8Atom (b :: rest)).len) := by
  obtain ⟨n, hn⟩ : ∃ n, (decodeUtf8Atom (b :: rest)).len = n + 1 :=
    Nat.exists_eq_succ_of_ne_zero (atom_len_pos _).ne'
  rw [hn, List.drop_succ_cons]
  refine Paired.of_append (rest.take n) (fun c hc => ?_) ?_
  · obtain ⟨i, hi⟩ := List.mem_iff_getElem?.mp hc
    rw [List.getElem?_take] at hi
    split at hi
    · have hlt : i + 1 < (decodeUtf8Atom (b :: rest)).len := by omega
      have hcont : IsContinuation c := isContinuation_of_atom (Nat.succ_pos i) hlt hi
      rintro rfl
      exact absurd hcont (by decide)
    · cases hi
  · rwa [List.take_append_drop]

/-- A member of a body whose escapes are paired is inside the body, and leaves such a body. -/
theorem nextMember_paired (h : Paired s) (hne : s ≠ []) :
    (nextMember s).len ≤ s.length ∧ Paired (s.drop (nextMember s).len) ∧
      nextMember (s.take (nextMember s).len) = nextMember s := by
  cases h with
  | nil => exact absurd rfl hne
  | @byte b rest hb hrest =>
    have hpos := atom_len_pos (b :: rest)
    have hplain (x : Bytes) (hx : x.head? = some b) : nextMember x = decodeUtf8Atom x := by
      simp [nextMember, hx, hb]
    rw [hplain (b :: rest) rfl]
    refine ⟨atom_len_le hne, hrest.drop_atom, ?_⟩
    rw [hplain _ (by rw [List.head?_take, if_neg hpos.ne', List.head?_cons])]
    exact decodeUtf8Atom_take hne
  | @escape c rest hrest =>
    have hlen := atom_len_le (List.cons_ne_nil c rest)
    have hescaped (x : Bytes) : nextMember (backslash :: x) =
        ⟨(decodeUtf8Atom x).cp, 1 + (decodeUtf8Atom x).len⟩ := by
      simp [nextMember]
    rw [hescaped (c :: rest)]
    refine ⟨?_, ?_, ?_⟩
    · rw [List.length_cons, Nat.add_comm]
      exact Nat.succ_le_succ hlen
    · rw [Nat.add_comm, List.drop_succ_cons]
      exact hrest.drop_atom
    · rw [Nat.add_comm, List.take_succ_cons, hescaped,
        decodeUtf8Atom_take (List.cons_ne_nil c rest), Nat.add_comm]

theorem exists_dash (h : s.head? = some dash) (hpaired : Paired s) :
    ∃ rest, s = dash :: rest ∧ Paired rest := by
  cases hpaired with
  | nil => cases h
  | @byte b rest _ hrest =>
    rw [List.head?_cons, Option.some.injEq] at h
    exact ⟨rest, by rw [h], hrest⟩
  | escape =>
    rw [List.head?_cons, Option.some.injEq] at h
    exact absurd h (by decide)

/-- The error of a class: the members of the range, as the body has them. -/
theorem parseMembers_error {it : Nat} {pending : Option (Nat × Nat)} {ranges : List (Nat × Nat)}
    {e : GlobError} (hs : body.drop it = s) (hit : it ≤ body.length) (hpaired : Paired s)
    (hpending : ∀ p, pending = some p →
      p.2 < it ∧ nextMember (substr body p.2 (it - p.2)) = ⟨p.1, it - p.2⟩)
    (h : parseMembers it s pending ranges = .error e) :
    e.kind = .invalidRange ∧ e.begin < e.stop ∧ e.stop ≤ body.length ∧
      IsEmptyRange (substr body e.begin (e.stop - e.begin)) := by
  have hlen : it + s.length = body.length := by
    rw [← hs, List.length_drop]
    omega
  fun_induction parseMembers it s pending ranges with
  | case1 => cases h
  | case2 it s pending ranges hne hdash held hi hlt =>
    obtain ⟨rest, rfl, hrest⟩ := exists_dash hdash.1 hpaired
    obtain ⟨⟨cp, pb⟩, rfl⟩ := Option.isSome_iff_exists.mp hdash.2.1
    have hne' : rest ≠ [] := by
      rintro rfl
      exact hdash.2.2 rfl
    obtain ⟨hpb, hmember⟩ := hpending _ rfl
    obtain ⟨hhi, -, htake⟩ := nextMember_paired hrest hne'
    rw [List.length_cons] at hlen
    cases h
    have hspan : substr body pb (it + 1 + hi.len - pb) =
        substr body pb (it - pb) ++ dash :: rest.take hi.len := by
      have hsplit : it + 1 + hi.len - pb = it - pb + (hi.len + 1) := by
        dsimp only at hpb
        omega
      have hdrop : (body.drop pb).drop (it - pb) = dash :: rest := by
        rw [List.drop_drop, Nat.add_sub_cancel' hpb.le, hs]
      rw [substr, substr, hsplit, List.take_add, hdrop, List.take_succ_cons]
    have hmlen : (substr body pb (it - pb)).length = it - pb := by
      rw [length_substr]
      omega
    have hnlen : (rest.take hi.len).length = hi.len := by
      rw [List.length_take]
      exact Nat.min_eq_left hhi
    refine ⟨rfl, ?_, ?_, ?_⟩
    · change pb < it + 1 + hi.len
      dsimp only at hpb
      omega
    · change it + 1 + hi.len ≤ body.length
      have hhi' : hi.len ≤ rest.length := hhi
      omega
    · exact ⟨cp, hi.cp, _, _, hspan, by rw [hmlen, hmember], by rw [hnlen]; exact htake, hlt⟩
  | case3 it s pending ranges hne hdash held hi hlt ih =>
    obtain ⟨rest, rfl, hrest⟩ := exists_dash hdash.1 hpaired
    have hne' : rest ≠ [] := by
      rintro rfl
      exact hdash.2.2 rfl
    obtain ⟨hhi, hpaired', -⟩ := nextMember_paired hrest hne'
    have hhi' : hi.len ≤ rest.length := hhi
    rw [List.length_cons] at hlen
    refine ih ?_ (by omega) ?_ (fun p hp => by cases hp) h ?_
    · rw [Nat.add_assoc, ← List.drop_drop, hs]
    · rw [Nat.add_comm, List.drop_succ_cons]
      exact hpaired'
    · rw [Nat.add_comm 1, List.drop_succ_cons, List.length_drop]
      omega
  | case4 it s pending ranges hne hdash member ih =>
    obtain ⟨hmember, hpaired', htake⟩ := nextMember_paired hpaired hne
    have hmember' : member.len ≤ s.length := hmember
    refine ih ?_ (by omega) hpaired' ?_ h ?_
    · rw [← List.drop_drop, hs]
    · intro p hp
      cases hp
      dsimp only
      rw [Nat.add_sub_cancel_left]
      refine ⟨Nat.lt_add_of_pos_right (nextMember_len_pos s), ?_⟩
      rw [substr, hs]
      exact htake
    · rw [List.length_drop]
      omega

/-! ## Errors of an arm -/

/-- An error found from the offset `i` of an arm on, mapped through the pieces that are left. -/
def Located (pattern : Bytes) (vs : List View) (i : Nat) (e : GlobError) : Prop :=
  i ≤ e.begin ∧ e.begin < e.stop ∧ e.stop ≤ i + (piecesText vs).length ∧
    GlobError.Spans pattern
      { e with begin := origin vs (e.begin - i), stop := origin vs (e.stop - 1 - i) + 1 }

variable {pattern : Bytes} {lo i : Nat} {vs vs' : List View} {e : GlobError}

theorem Located.of_advance (hadv : Advance pattern vs n vs') (h : Located pattern vs' (i + n) e) :
    Located pattern vs i e := by
  obtain ⟨hbegin, hlt, hstop, hspans⟩ := h
  have hle := hadv.le
  rw [hadv.text, List.length_drop] at hstop
  refine ⟨by omega, hlt, by omega, ?_⟩
  rwa [← hadv.after, ← hadv.after, show n + (e.begin - (i + n)) = e.begin - i by omega,
    show n + (e.stop - 1 - (i + n)) = e.stop - 1 - i by omega] at hspans

/-- The ends of a span stay in their order, and inside the pattern. -/
theorem Ordered.origin_span (h : Ordered pattern lo vs) {j k : Nat} (hjk : j ≤ k)
    (hk : k < (piecesText vs).length) :
    origin vs j < origin vs k + 1 ∧ origin vs k + 1 ≤ pattern.length := by
  constructor
  · obtain rfl | hlt := Nat.eq_or_lt_of_le hjk
    · exact Nat.lt_succ_self _
    · exact Nat.lt_succ_of_lt (h.origin_lt hlt hk)
  · have hget := (h.origin_get hk).2
    rw [List.getElem?_eq_getElem hk] at hget
    exact (List.getElem?_eq_some_iff.mp hget).1

theorem Located.of_byte (hvs : Ordered pattern lo vs) (hkind : e.kind.byte = some b)
    (hbegin : i ≤ e.begin) (hlt : e.begin < e.stop) (hstop : e.stop ≤ i + (piecesText vs).length)
    (hb : (piecesText vs)[e.begin - i]? = some b) : Located pattern vs i e := by
  obtain ⟨hspan, hin⟩ := hvs.origin_span (j := e.begin - i) (k := e.stop - 1 - i) (by omega)
    (by omega)
  refine ⟨hbegin, hlt, hstop, .of_byte hkind hspan hin ?_⟩
  rw [(hvs.origin_get (by omega)).2, hb]

/-- A range is in a bracket expression, and so in one piece. -/
theorem Located.of_range (hvs : Ordered pattern lo vs) (hjoined : Joined vs n)
    (hn : n ≤ (piecesText vs).length) (hkind : e.kind = .invalidRange) (hbegin : i ≤ e.begin)
    (hlt : e.begin < e.stop) (hstop : e.stop ≤ i + n)
    (hrange : IsEmptyRange (substr (piecesText vs) (e.begin - i) (e.stop - e.begin))) :
    Located pattern vs i e := by
  obtain ⟨hspan, hin⟩ := hvs.origin_span (j := e.begin - i) (k := e.stop - 1 - i) (by omega)
    (by omega)
  refine ⟨hbegin, hlt, by omega, ⟨hspan, hin, ?_⟩⟩
  have hsub : substr pattern (origin vs (e.begin - i))
      (origin vs (e.stop - 1 - i) + 1 - origin vs (e.begin - i)) =
      substr (piecesText vs) (e.begin - i) (e.stop - e.begin) := by
    rw [hjoined (e.begin - i) (by omega), hjoined (e.stop - 1 - i) (by omega)]
    apply List.ext_getElem?
    intro k
    rw [substr, substr, List.getElem?_take, List.getElem?_take, List.getElem?_drop,
      List.getElem?_drop]
    by_cases hk : k < e.stop - e.begin
    · rw [if_pos (by omega), if_pos hk, ← (hvs.origin_get (k := e.begin - i + k) (by omega)).2,
        hjoined (e.begin - i + k) (by omega), Nat.add_assoc]
    · rw [if_neg (by omega), if_neg hk]
  unfold GlobError.About
  simp only [hkind, ErrorKind.byte, if_true, hsub]
  exact hrange

/-- A run of stars may go on from piece to piece. -/
theorem Ordered.advance_stars (h : Ordered pattern lo vs) (htext : piecesText vs = s) :
    ∃ vs', Advance pattern vs (s.takeWhile (· = star)).length vs' := by
  induction s generalizing lo vs with
  | nil => exact ⟨vs, Nat.zero_le _, rfl, ⟨lo, h⟩, fun k => by rw [List.takeWhile_nil]; simp⟩
  | cons b rest ih =>
    by_cases hb : b = star
    · subst hb
      obtain ⟨vs₁, hadv, hrest⟩ := h.advance_byte (by decide) (by decide) htext
      obtain ⟨lo', hord⟩ := hadv.ordered
      obtain ⟨vs₂, hadv'⟩ := ih hord hrest
      refine ⟨vs₂, ?_⟩
      rw [List.takeWhile_cons_of_pos (by simp), List.length_cons, Nat.add_comm]
      exact hadv.trans hadv'
    · rw [List.takeWhile_cons_of_neg (by simpa using hb)]
      exact ⟨vs, Nat.zero_le _, rfl, ⟨lo, h⟩, fun k => by rw [List.length_nil, Nat.zero_add]⟩

/-- The error of a bracket expression that does not end. -/
theorem Located.of_scan (hvs : Ordered pattern lo vs) (htext : piecesText vs = openBracket :: rest)
    (h : scanBracket i rest = .error e) : Located pattern vs i e := by
  obtain ⟨hkind, hbegin, hstop⟩ | ⟨hkind, hbegin, hstop, hbyte⟩ := scanBracket_error h
  · refine .of_byte hvs (b := openBracket) (by rw [hkind]; rfl) (by omega) (by omega) ?_ ?_
    · rw [htext, List.length_cons]
      omega
    · rw [htext, hbegin, Nat.sub_self]
      rfl
  · have hlt := (List.getElem?_eq_some_iff.mp hbyte).1
    refine .of_byte hvs (b := backslash) (by rw [hkind]; rfl) (by omega) (by omega) ?_ ?_
    · rw [htext, List.length_cons]
      omega
    · rw [htext, show e.begin - i = e.begin - (i + 1) + 1 by omega]
      exact hbyte

theorem Paired.drop_negation (h : Paired body) : Paired (body.drop (negationLength body)) := by
  unfold negationLength
  split
  · next hneg =>
    cases h with
    | nil => exact .nil
    | byte _ h => exact h
    | escape => exact absurd (isNegation_iff.mp hneg) (by decide)
  · exact h

/-- The error of a class is moved from the class body to the arm. -/
theorem Located.of_class (hvs : Ordered pattern lo vs) {close : Nat}
    (htext : piecesText vs = openBracket :: rest) (hscan : scanBracket i rest = .ok close)
    (hbody : body = rest.take (close - i - 1))
    (h : parseBracketCharset (body.drop (negationLength body)) = .error e) :
    Located pattern vs i { e with
      begin := e.begin + (i + 1 + negationLength body)
      stop := e.stop + (i + 1 + negationLength body) } := by
  obtain ⟨vs', hadv, hjoined, -⟩ := hvs.advance_bracket htext hscan
  obtain ⟨body', more, hrest, rfl, -, hpaired, hneg⟩ := scanBracket_ok hscan
  obtain rfl : body = body' := by
    rw [hbody, hrest, show i + 1 + body'.length - i - 1 = body'.length by omega, List.take_left]
  have hmembers : parseMembers 0 (body.drop (negationLength body)) none [] = .error e := by
    unfold parseBracketCharset at h
    cases hp : parseMembers 0 (body.drop (negationLength body)) none [] with
    | ok ranges =>
      rw [hp] at h
      cases h
    | error e' =>
      rw [hp] at h
      cases h
      rfl
  obtain ⟨hkind, hlt, hstop, hrange⟩ :=
    parseMembers_error List.drop_zero (Nat.zero_le _) hpaired.drop_negation
      (fun _ hp => by cases hp) hmembers
  rw [List.length_drop] at hstop
  refine .of_range hvs hjoined hadv.le hkind (by dsimp only; omega) (by dsimp only; omega)
    (by dsimp only; omega) ?_
  have hsub : substr (piecesText vs) (e.begin + (i + 1 + negationLength body) - i)
      (e.stop + (i + 1 + negationLength body) - (e.begin + (i + 1 + negationLength body))) =
      substr (body.drop (negationLength body)) e.begin (e.stop - e.begin) := by
    have hoffset : e.begin + (i + 1 + negationLength body) - i =
        negationLength body + e.begin + 1 := by omega
    rw [hoffset, Nat.add_sub_add_right, substr, substr, htext, List.drop_succ_cons, hrest,
      List.drop_append_of_le_length (by omega),
      List.take_append_of_le_length (by rw [List.length_drop]; omega), List.drop_drop]
  rw [hsub]
  exact hrange

private theorem drop_stars (s : Bytes) :
    s.drop (s.takeWhile (· = star)).length = s.dropWhile (· = star) := by
  have hsplit := List.takeWhile_append_dropWhile (p := (· = star)) (l := s)
  exact (congrArg _ hsplit.symm).trans List.drop_left

private theorem drop_negation (body : Bytes) :
    (if isNegation body = true then body.drop 1 else body) = body.drop (negationLength body) := by
  unfold negationLength
  split <;> rfl

/-- An error in the tokens of a segment. -/
theorem compileTokens_located (h : compileTokens i s tokens = .error e) (lo : Nat) (vs : List View)
    (hvs : Ordered pattern lo vs) (hs : piecesText vs = s) : Located pattern vs i e := by
  revert lo vs
  fun_induction compileTokens i s tokens with
  | case1 | case2 => cases h
  | case3 i tokens rest error hscan =>
    cases h
    exact fun lo vs hvs hs => .of_scan hvs hs hscan
  | case4 i tokens rest close hscan body negated error hparse _ base =>
    cases h
    intro lo vs hvs hs
    have hparse' : parseBracketCharset (body.drop (negationLength body)) = .error error := by
      rw [← drop_negation]
      exact hparse
    exact .of_class hvs hs hscan rfl hparse'
  | case5 i tokens rest close hscan body negated ranges hparse _ ih =>
    intro lo vs hvs hs
    obtain ⟨vs', hadv, -, hrest⟩ := hvs.advance_bracket hs hscan
    obtain ⟨lo', hord⟩ := hadv.ordered
    obtain ⟨body', more, -, hclose, -⟩ := scanBracket_ok hscan
    refine .of_advance hadv ?_
    rw [← Nat.add_assoc, Nat.add_sub_cancel' (by omega)]
    exact ih h lo' vs' hord hrest
  | case6 i tokens rest _ _ run hrun =>
    cases h
    intro lo vs hvs hs
    have hle := (List.takeWhile_sublist (l := star :: rest) (· = star)).length_le
    have hrun' : ((star :: rest).takeWhile (· = star)).length > 2 := hrun
    refine .of_byte hvs (b := star) rfl (Nat.le_refl i) (by dsimp only; omega) ?_ ?_
    · rw [hs]
      dsimp only
      omega
    · rw [hs, Nat.sub_self]
      rfl
  | case7 i tokens rest _ _ run hrun ih =>
    intro lo vs hvs hs
    obtain ⟨vs', hadv⟩ := hvs.advance_stars hs
    obtain ⟨lo', hord⟩ := hadv.ordered
    refine .of_advance hadv (ih h lo' vs' hord ?_)
    rw [hadv.text, hs, drop_stars, List.dropWhile_cons_of_pos (by simp)]
  | case8 i tokens rest _ _ _ ih =>
    intro lo vs hvs hs
    obtain ⟨vs', hadv, hrest⟩ := hvs.advance_byte (by decide) (by decide) hs
    obtain ⟨lo', hord⟩ := hadv.ordered
    exact .of_advance hadv (ih h lo' vs' hord hrest)
  | case9 i tokens =>
    cases h
    intro lo vs hvs hs
    refine .of_byte hvs (b := backslash) rfl (Nat.le_refl i) (Nat.lt_succ_self i) ?_ ?_
    · rw [hs]
      exact Nat.le_refl _
    · rw [hs, Nat.sub_self]
      rfl
  | case10 i tokens rest =>
    cases h
    intro lo vs hvs hs
    refine .of_byte hvs (b := backslash) rfl (Nat.le_refl i) (by dsimp only; omega) ?_ ?_
    · rw [hs, List.length_cons, List.length_cons]
      dsimp only
      omega
    · rw [hs, Nat.sub_self]
      rfl
  | case11 i tokens c rest _ _ _ _ _ ih =>
    intro lo vs hvs hs
    obtain ⟨vs', hadv, hrest⟩ := hvs.advance_escape hs
    obtain ⟨lo', hord⟩ := hadv.ordered
    exact .of_advance hadv (ih h lo' vs' hord hrest)
  | case12 i tokens b rest _ hb _ _ hb' ih =>
    intro lo vs hvs hs
    obtain ⟨vs', hadv, hrest⟩ := hvs.advance_byte hb hb' hs
    obtain ⟨lo', hord⟩ := hadv.ordered
    exact .of_advance hadv (ih h lo' vs' hord hrest)

theorem Advance.refl (h : Ordered pattern lo vs) : Advance pattern vs 0 vs :=
  ⟨Nat.zero_le _, rfl, ⟨lo, h⟩, fun k => by rw [Nat.zero_add]⟩

/-- What is left after the tokens of a segment is what is left of the arm. -/
theorem compileTokens_advance {tokens tokens' : List Token}
    (h : compileTokens i s tokens = .ok (tokens', rest)) (lo : Nat) (vs : List View)
    (hvs : Ordered pattern lo vs) (hs : piecesText vs = s) :
    ∃ n vs', Advance pattern vs n vs' ∧ piecesText vs' = rest := by
  revert lo vs
  fun_induction compileTokens i s tokens with
  | case1 | case2 =>
    cases h
    exact fun lo vs hvs hs => ⟨0, vs, .refl hvs, hs⟩
  | case3 | case4 | case6 | case9 | case10 => cases h
  | case5 i tokens rest' close hscan body negated ranges hparse _ ih =>
    intro lo vs hvs hs
    obtain ⟨vs₁, hadv, -, hrest⟩ := hvs.advance_bracket hs hscan
    obtain ⟨lo', hord⟩ := hadv.ordered
    obtain ⟨n, vs', hadv', htext⟩ := ih h lo' vs₁ hord hrest
    exact ⟨_, vs', hadv.trans hadv', htext⟩
  | case7 i tokens rest' _ _ run hrun ih =>
    intro lo vs hvs hs
    obtain ⟨vs₁, hadv⟩ := hvs.advance_stars hs
    obtain ⟨lo', hord⟩ := hadv.ordered
    have hrest : piecesText vs₁ = rest'.dropWhile (· = star) := by
      rw [hadv.text, hs, drop_stars, List.dropWhile_cons_of_pos (by simp)]
    obtain ⟨n, vs', hadv', htext⟩ := ih h lo' vs₁ hord hrest
    exact ⟨_, vs', hadv.trans hadv', htext⟩
  | case8 i tokens rest' _ _ _ ih =>
    intro lo vs hvs hs
    obtain ⟨vs₁, hadv, hrest⟩ := hvs.advance_byte (by decide) (by decide) hs
    obtain ⟨lo', hord⟩ := hadv.ordered
    obtain ⟨n, vs', hadv', htext⟩ := ih h lo' vs₁ hord hrest
    exact ⟨_, vs', hadv.trans hadv', htext⟩
  | case11 i tokens c rest' _ _ _ _ _ ih =>
    intro lo vs hvs hs
    obtain ⟨vs₁, hadv, hrest⟩ := hvs.advance_escape hs
    obtain ⟨lo', hord⟩ := hadv.ordered
    obtain ⟨n, vs', hadv', htext⟩ := ih h lo' vs₁ hord hrest
    exact ⟨_, vs', hadv.trans hadv', htext⟩
  | case12 i tokens b rest' _ hb _ _ hb' ih =>
    intro lo vs hvs hs
    obtain ⟨vs₁, hadv, hrest⟩ := hvs.advance_byte hb hb' hs
    obtain ⟨lo', hord⟩ := hadv.ordered
    obtain ⟨n, vs', hadv', htext⟩ := ih h lo' vs₁ hord hrest
    exact ⟨_, vs', hadv.trans hadv', htext⟩

/-- A segment ends at a separator, or with the arm. -/
theorem compileTokens_slash {tokens tokens' : List Token}
    (h : compileTokens i s tokens = .ok (tokens', b :: rest)) : b = slash := by
  fun_induction compileTokens i s tokens with
  | case1 => cases h
  | case2 =>
    cases h
    rfl
  | case3 | case4 | case6 | case9 | case10 => cases h
  | case5 _ _ _ _ _ _ _ _ _ _ ih => exact ih h
  | case7 _ _ _ _ _ _ _ ih => exact ih h
  | case8 _ _ _ _ _ _ ih => exact ih h
  | case11 _ _ _ _ _ _ _ _ _ ih => exact ih h
  | case12 _ _ _ _ _ _ _ _ _ ih => exact ih h

private theorem length_raw (hs : piecesText vs = s) (hadv : Advance pattern vs n vs')
    (hrest : piecesText vs' = rest) : (s.take (s.length - rest.length)).length = n := by
  have hle := hadv.le
  rw [hs] at hle
  rw [List.length_take, ← hrest, hadv.text, List.length_drop, hs]
  omega

/-- An error in the segments of an arm. -/
theorem compileSegments_located {atStart : Bool} (h : compileSegments atStart i s = .error e)
    (lo : Nat) (vs : List View) (hvs : Ordered pattern lo vs) (hs : piecesText vs = s) :
    Located pattern vs i e := by
  revert lo vs
  fun_induction compileSegments atStart i s with
  | case1 atStart i s error htokens =>
    cases h
    exact compileTokens_located htokens
  | case2 => cases h
  | case3 atStart i s tokens b rest htokens hslash _ raw at' =>
    cases h
    intro lo vs hvs hs
    obtain ⟨n, vs', hadv, hrest⟩ := compileTokens_advance htokens lo vs hvs hs
    obtain ⟨lo', hord⟩ := hadv.ordered
    obtain rfl := compileTokens_slash htokens
    have hat : at' = i + n := by
      dsimp only [at', raw]
      rw [length_raw hs hadv hrest]
    rw [hat]
    obtain ⟨c, more, rfl⟩ : ∃ c more, rest = c :: more := by
      cases rest with
      | nil => cases hslash
      | cons c more => exact ⟨c, more, rfl⟩
    refine .of_advance hadv (.of_byte hord (b := slash) rfl (Nat.le_refl _)
      (by dsimp only; omega) ?_ ?_)
    · rw [hrest, List.length_cons, List.length_cons]
      dsimp only
      omega
    · rw [hrest, Nat.sub_self]
      rfl
  | case4 atStart i s tokens b rest htokens hslash error _ raw at' herror ih =>
    cases h
    intro lo vs hvs hs
    obtain ⟨n, vs₁, hadv, hrest⟩ := compileTokens_advance htokens lo vs hvs hs
    obtain ⟨lo₁, hord₁⟩ := hadv.ordered
    obtain rfl := compileTokens_slash htokens
    obtain ⟨vs₂, hadv₂, hrest₂⟩ := hord₁.advance_byte (by decide) (by decide) hrest
    obtain ⟨lo₂, hord₂⟩ := hadv₂.ordered
    have hat : at' = i + n := by
      dsimp only [at', raw]
      rw [length_raw hs hadv hrest]
    refine .of_advance hadv (.of_advance hadv₂ ?_)
    rw [← hat]
    exact ih herror lo₂ vs₂ hord₂ hrest₂
  | case5 => cases h

/-- An error of an arm is at bytes of the arm, and what it is about stands there in the pattern. -/
theorem compileArm_located {atSegmentStart : Bool} (h : compileArm s atSegmentStart = .error e)
    (lo : Nat) (vs : List View) (hvs : Ordered pattern lo vs) (hs : piecesText vs = s) :
    Located pattern vs 0 e := by
  unfold compileArm at h
  split at h
  · next error hsegments =>
    cases h
    exact compileSegments_located hsegments lo vs hvs hs
  · cases h

end Kotatsu.Support.Glob
