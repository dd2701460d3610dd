import Kotatsu.Support.Glob.Reference

/-!
# The tokens of a segment

`match_tokens` keeps one restart point, after the latest star. What it tries from
there on is a pattern with gaps over the atoms of the input: a literal is whole
code points, so it takes a number of atoms of its own, and an occurrence of its
bytes begins at an atom.
-/

namespace Kotatsu.Support.Glob

open Kotatsu.Core

variable {x y : Bytes} {tokens : List Token}

/-! ## Tokens as a pattern with gaps -/

/-- What a token other than a star takes. -/
def takeToken : Token → Bytes → Bytes → Prop
  | .literal text, x, y => x = text ++ y
  | .star, _, _ => False
  | .any, x, y => x ≠ [] ∧ y = dropAtom x
  | .cls c, x, y => x ≠ [] ∧ c.contains (decodeUtf8Atom x).cp = true ∧ y = dropAtom x

/-- A star is a gap. -/
def Token.gap : Token → Option Token
  | .star => none
  | token => some token

/-- The tokens take the whole input. -/
def TokensFit (tokens : List Token) (x : Bytes) : Prop :=
  Matches dropAtom takeToken (· = []) (tokens.map Token.gap) x

/-- Every literal is whole code points, and at least one. -/
def ValidTokens (tokens : List Token) : Prop :=
  ∀ text, .literal text ∈ tokens → text ≠ [] ∧ ValidUtf8 text

/-- The atoms a token takes. -/
def Token.width : Token → Nat
  | .literal text => atomCount text
  | _ => 1

theorem takeToken_iterate (hv : ValidTokens tokens) (t : Token) (ht : t ∈ tokens) (x y : Bytes)
    (h : takeToken t x y) : y = dropAtom^[t.width] x := by
  cases t with
  | literal text =>
    obtain rfl : x = text ++ y := h
    exact (dropAtom_iterate_valid (hv text ht).2 y).symm
  | star => exact h.elim
  | any => exact h.2
  | cls c => exact h.2.2

theorem map_gap_fixed (h : Token.star ∉ tokens) : tokens.map Token.gap = tokens.map some := by
  refine List.map_congr_left fun t ht => ?_
  cases t with
  | star => exact absurd ht h
  | literal | any | cls => rfl

variable {t : Token} {text : Bytes}

theorem tokensFit_cons (ht : t ≠ .star) :
    TokensFit (t :: tokens) x ↔ ∃ y, takeToken t x y ∧ TokensFit tokens y := by
  cases t with
  | star => exact absurd rfl ht
  | literal | any | cls => exact Iff.rfl

theorem tokensFit_star_iff :
    TokensFit (.star :: tokens) x ↔ ∃ y, AtomSuffix x y ∧ TokensFit tokens y := by
  constructor
  · rintro ⟨n, hn⟩
    exact ⟨_, atomSuffix_iterate n x, hn⟩
  · rintro ⟨y, hy, hm⟩
    obtain ⟨n, rfl⟩ := atomSuffix_iff.mp hy
    exact ⟨n, hm⟩

theorem tokensFit_literal_iff :
    TokensFit (.literal text :: tokens) x ↔ ∃ y, x = text ++ y ∧ TokensFit tokens y := Iff.rfl

/-- A star takes nothing, or an atom and more. -/
theorem tokensFit_star_cases :
    TokensFit (.star :: tokens) x ↔
      TokensFit tokens x ∨ x ≠ [] ∧ TokensFit (.star :: tokens) (dropAtom x) := by
  rw [tokensFit_star_iff, tokensFit_star_iff]
  constructor
  · rintro ⟨y, hy, hm⟩
    obtain rfl | ⟨hne, hy'⟩ := hy.cases_length
    · exact Or.inl hm
    · exact Or.inr ⟨hne, y, hy', hm⟩
  · rintro (hm | ⟨hne, y, hy, hm⟩)
    · exact ⟨x, .refl x, hm⟩
    · exact ⟨y, .step hne hy, hm⟩

theorem tokensFit_star (x : Bytes) : TokensFit [.star] x := by
  refine tokensFit_star_iff.mpr ⟨[], ?_, rfl⟩
  have := atomSuffix_append x [] (by simp)
  rwa [List.append_nil] at this

/-- Elements before a star are as many atoms wherever they are taken, so the star takes
what earlier stars could have taken more. -/
theorem tokensFit_star_of_later {front : List Token} {n : Nat}
    (hv : ValidTokens (front ++ .star :: tokens)) (hstar : Token.star ∉ front)
    (hfront : TakeAll takeToken front x y)
    (h : TokensFit (front ++ .star :: tokens) (dropAtom^[n] x)) :
    TokensFit (.star :: tokens) y := by
  have hvalid : ValidTokens front := fun text ht => hv text (List.mem_append_left _ ht)
  unfold TokensFit at h
  rw [List.map_append, map_gap_fixed hstar] at h
  exact matches_gap_of_later (takeToken_iterate hvalid) hfront h

/-! ## The loop -/

/-- What the latest star can still take. -/
def TokenState.Retries (s : TokenState) : Prop :=
  ∃ tokens input, s.retry = some (tokens, input) ∧ input ≠ [] ∧
    TokensFit (.star :: tokens) (dropAtom input)

/-- A restart point: what is left of its tokens after some that are no star, which took
the input up to where the loop is. -/
structure TokenState.Restarts (all : List Token) (whole : Bytes) (s : TokenState)
    (tokens : List Token) (input : Bytes) : Prop where
  valid : ValidTokens tokens
  tokens_le : tokens.length ≤ all.length
  input_le : input.length ≤ whole.length
  front : ∃ front, tokens = front ++ s.tokens ∧ Token.star ∉ front ∧
    TakeAll takeToken front input s.input

/-- What the turns of `match_tokens` on some tokens and an input keep: the tokens fit the
input when those that are left fit what is left, or a restart makes them fit. -/
structure TokenState.Searches (all : List Token) (whole : Bytes) (s : TokenState) : Prop where
  valid : ValidTokens s.tokens
  tokens_le : s.tokens.length ≤ all.length
  input_le : s.input.length ≤ whole.length
  restarts : ∀ tokens input, s.retry = some (tokens, input) → s.Restarts all whole tokens input
  goal : (TokensFit s.tokens s.input ∨ s.Retries) ↔ TokensFit all whole

/-- The turns that are left: until the latest star moves to a later one, then until it has
taken all, then until the tokens are gone. -/
def TokenState.turnsLeft (all : List Token) (whole : Bytes) (s : TokenState) : Nat :=
  rank (whole.length + 1) (all.length + 1)
    (s.retry.elim (all.length + 1) fun retry => retry.1.length)
    (s.retry.elim 0 fun retry => retry.2.length) s.tokens.length

/-- A turn goes on with less to do, or has the answer. -/
def TokenState.Steps (all : List Token) (whole : Bytes) (s : TokenState) :
    TokenState ⊕ Bool → Prop
  | .inl s' => s'.Searches all whole ∧ s'.turnsLeft all whole < s.turnsLeft all whole
  | .inr answer => answer = true ↔ TokensFit all whole

section Turns

variable {all : List Token} {whole : Bytes} {s : TokenState}

/-- Where the tokens that are left do not fit, the latest star takes one more atom. -/
theorem TokenState.Searches.backtrack (h : s.Searches all whole)
    (hfail : ¬TokensFit s.tokens s.input) : s.Steps all whole s.backtrack := by
  have hgoal := h.goal
  rw [or_iff_right hfail] at hgoal
  obtain ⟨tokens, input, retry⟩ := s
  cases retry with
  | none =>
    have hno : ¬TokenState.Retries ⟨tokens, input, none⟩ := by
      rintro ⟨rt, ri, hsome, -⟩
      cases hsome
    exact iff_of_false Bool.false_ne_true (hgoal.not.mp hno)
  | some retry =>
    obtain ⟨rt, ri⟩ := retry
    have hrestart := h.restarts rt ri rfl
    have hretries : TokenState.Retries ⟨tokens, input, some (rt, ri)⟩ ↔
        ri ≠ [] ∧ TokensFit (.star :: rt) (dropAtom ri) := by
      constructor
      · rintro ⟨rt', ri', hsome, hne, hfit⟩
        cases hsome
        exact ⟨hne, hfit⟩
      · rintro ⟨hne, hfit⟩
        exact ⟨rt, ri, rfl, hne, hfit⟩
    by_cases hnil : ri = []
    · have hanswer : TokenState.backtrack ⟨tokens, input, some (rt, ri)⟩ = .inr false := by
        simp only [TokenState.backtrack, hnil, if_true]
      rw [hanswer]
      exact iff_of_false Bool.false_ne_true (hgoal.not.mp fun hr => (hretries.mp hr).1 hnil)
    · have hnext : TokenState.backtrack ⟨tokens, input, some (rt, ri)⟩ =
          .inl ⟨rt, dropAtom ri, some (rt, dropAtom ri)⟩ := by
        simp only [TokenState.backtrack, hnil, if_false]
      have hshort := length_dropAtom_lt hnil
      have hle := hshort.le.trans hrestart.input_le
      rw [hnext]
      refine ⟨⟨hrestart.valid, hrestart.tokens_le, hle, ?_, ?_⟩, ?_⟩
      · intro rt' ri' hsome
        cases hsome
        exact ⟨hrestart.valid, hrestart.tokens_le, hle, [], rfl, List.not_mem_nil, rfl⟩
      · rw [← hgoal, hretries, and_iff_right hnil, tokensFit_star_cases]
        refine or_congr_right ⟨?_, fun hr => ⟨rt, dropAtom ri, rfl, hr⟩⟩
        rintro ⟨rt', ri', hsome, hr⟩
        cases hsome
        exact hr
      · exact rank_lt_of_second _ _ hshort (Nat.lt_succ_of_le hrestart.tokens_le)

/-- A token that is no star takes what it takes, and the restart point stays. -/
theorem TokenState.Searches.advance {t : Token} {tokens : List Token} {rest : Bytes}
    (h : s.Searches all whole) (htokens : s.tokens = t :: tokens) (ht : t ≠ .star)
    (htake : takeToken t s.input rest) (hle : rest.length ≤ s.input.length)
    (honly : ∀ rest', takeToken t s.input rest' → rest' = rest) :
    s.Steps all whole (.inl { s with tokens := tokens, input := rest }) := by
  have hfit : TokensFit s.tokens s.input ↔ TokensFit tokens rest := by
    rw [htokens, tokensFit_cons ht]
    constructor
    · rintro ⟨rest', htake', hm⟩
      rwa [← honly rest' htake']
    · exact fun hm => ⟨rest, htake, hm⟩
  have hsub : tokens.length < s.tokens.length := by
    rw [htokens]
    exact Nat.lt_succ_self _
  refine ⟨⟨fun text hm => h.valid text ?_, hsub.le.trans h.tokens_le, hle.trans h.input_le, ?_, ?_⟩,
    ?_⟩
  · rw [htokens]
    exact List.mem_cons_of_mem t hm
  · intro rt ri hsome
    obtain ⟨hvalid, htlen, hilen, front, hsplit, hstar, htakes⟩ := h.restarts rt ri hsome
    refine ⟨hvalid, htlen, hilen, front ++ [t], ?_, ?_, ?_⟩
    · rw [hsplit, htokens, List.append_assoc]
      rfl
    · intro hm
      rcases List.mem_append.mp hm with hm | hm
      · exact hstar hm
      · exact ht (List.mem_singleton.mp hm).symm
    · exact takeAll_append htakes ⟨rest, htake, rfl⟩
  · rw [← h.goal, hfit]
    rfl
  · exact rank_lt_of_third _ _ _ _ hsub

/-- A star becomes the restart point. -/
theorem TokenState.Searches.star {tokens : List Token} (h : s.Searches all whole)
    (htokens : s.tokens = .star :: tokens) :
    s.Steps all whole (.inl { s with tokens := tokens, retry := some (tokens, s.input) }) := by
  have hsub : tokens.length < s.tokens.length := by
    rw [htokens]
    exact Nat.lt_succ_self _
  have hvalid : ValidTokens tokens := by
    intro text hm
    apply h.valid text
    rw [htokens]
    exact List.mem_cons_of_mem _ hm
  have hle := hsub.le.trans h.tokens_le
  refine ⟨⟨hvalid, hle, h.input_le, ?_, ?_⟩, ?_⟩
  · intro rt ri hsome
    cases hsome
    exact ⟨hvalid, hle, h.input_le, [], rfl, List.not_mem_nil, rfl⟩
  · rw [← h.goal, htokens]
    constructor
    · rintro (hm | ⟨rt, ri, hsome, hm⟩)
      · exact .inl (tokensFit_star_cases.mpr (.inl hm))
      · cases hsome
        exact .inl (tokensFit_star_cases.mpr (.inr hm))
    · intro hfit
      have hstar : TokensFit (.star :: tokens) s.input := by
        rcases hfit with hfit | ⟨rt, ri, hsome, hne, hm⟩
        · exact hfit
        · obtain ⟨hv, -, -, front, hsplit, hstar, htakes⟩ := h.restarts rt ri hsome
          rw [htokens] at hsplit
          subst hsplit
          obtain ⟨n, hn⟩ := hm
          rw [← Function.iterate_succ_apply] at hn
          exact tokensFit_star_of_later hv hstar htakes hn
      rcases tokensFit_star_cases.mp hstar with hm | hm
      · exact .inl hm
      · exact .inr ⟨tokens, s.input, rfl, hm⟩
  · refine rank_lt_of_first ?_ (Nat.lt_succ_of_le h.input_le) (Nat.lt_succ_of_le hle)
    cases hr : s.retry with
    | none => exact Nat.lt_succ_of_le hle
    | some retry =>
      obtain ⟨-, -, -, front, hsplit, -⟩ := h.restarts retry.1 retry.2 hr
      change tokens.length < retry.1.length
      rw [hsplit, List.length_append]
      omega

/-- An occurrence of whole code points begins at an atom. -/
theorem tokensFit_star_literal (hne : text ≠ []) (hv : ValidUtf8 text) :
    TokensFit (.star :: .literal text :: tokens) x ↔
      ∃ front rest, x = front ++ (text ++ rest) ∧ TokensFit tokens rest := by
  rw [tokensFit_star_iff]
  constructor
  · rintro ⟨y, hy, rest, rfl, hfit⟩
    obtain ⟨front, rfl⟩ := hy.suffix
    exact ⟨front, rest, rfl, hfit⟩
  · rintro ⟨front, rest, rfl, hfit⟩
    exact ⟨text ++ rest, atomSuffix_of_valid hv hne front rest, rest, rfl, hfit⟩

/-- A literal that ends the tokens right after a star ends the input. -/
theorem tokensFit_star_last (hne : text ≠ []) (hv : ValidUtf8 text) :
    TokensFit [.star, .literal text] x ↔ text <:+ x := by
  rw [tokensFit_star_literal hne hv]
  constructor
  · rintro ⟨front, rest, rfl, hrest⟩
    obtain rfl : rest = [] := hrest
    exact ⟨front, by rw [List.append_nil]⟩
  · rintro ⟨front, rfl⟩
    exact ⟨front, [], by rw [List.append_nil], rfl⟩

/-- Right after the latest star, the star may take all that comes before the first
occurrence of a literal, and has to. -/
theorem tokensFit_star_find (hne : text ≠ []) (hv : ValidUtf8 text) {at' : Nat}
    (hfind : find text x = some at') :
    TokensFit (.star :: .literal text :: tokens) x ↔
      TokensFit (.star :: .literal text :: tokens) (x.drop at') := by
  rw [tokensFit_star_literal hne hv, tokensFit_star_literal hne hv]
  constructor
  · rintro ⟨front, rest, rfl, hfit⟩
    have hocc : text <+: (front ++ (text ++ rest)).drop front.length := by
      rw [List.drop_left]
      exact List.prefix_append text rest
    obtain ⟨i, hi, hle⟩ := find_le hocc (by rw [List.length_append]; omega)
    rw [hfind, Option.some.injEq] at hi
    subst hi
    exact ⟨front.drop at', rest, List.drop_append_of_le_length hle, hfit⟩
  · rintro ⟨front, rest, hdrop, hfit⟩
    refine ⟨x.take at' ++ front, rest, ?_, hfit⟩
    rw [List.append_assoc, ← hdrop, List.take_append_drop]

/-- A literal right after the latest star is looked for. -/
theorem TokenState.Searches.find {tokens : List Token} (h : s.Searches all whole)
    (htokens : s.tokens = .literal text :: tokens)
    (hretry : ∃ input, s.retry = some (s.tokens, input)) :
    s.Steps all whole
      (if tokens = [] then .inr (s.input.length ≥ text.length && text.isSuffixOf s.input)
      else
        match find text s.input with
        | none => .inr false
        | some at' =>
          .inl ⟨tokens, s.input.drop (at' + text.length),
            some (.literal text :: tokens, s.input.drop at')⟩) := by
  obtain ⟨hne, hv⟩ : text ≠ [] ∧ ValidUtf8 text := by
    apply h.valid
    rw [htokens]
    exact List.mem_cons_self
  obtain ⟨input, hsome⟩ := hretry
  obtain ⟨hvalid, htlen, hilen, front, hsplit, -, htakes⟩ := h.restarts _ _ hsome
  have hfront : front = [] := by
    have hlen := congrArg List.length hsplit
    rw [List.length_append] at hlen
    exact List.eq_nil_of_length_eq_zero (by omega)
  subst hfront
  have hinput : s.input = input := htakes
  subst hinput
  have hgoal : TokensFit (.star :: .literal text :: tokens) s.input ↔ TokensFit all whole := by
    rw [← h.goal, tokensFit_star_cases, ← htokens]
    refine or_congr_right ⟨fun hr => ⟨s.tokens, s.input, hsome, hr⟩, ?_⟩
    rintro ⟨rt, ri, hsome', hr⟩
    rw [hsome, Option.some.injEq, Prod.mk.injEq] at hsome'
    obtain ⟨rfl, rfl⟩ := hsome'
    exact hr
  rw [htokens] at hvalid htlen hsome
  have hsub : ValidTokens tokens := fun text' hm => hvalid text' (List.mem_cons_of_mem _ hm)
  by_cases hnil : tokens = []
  · subst hnil
    rw [if_pos rfl]
    change _ = true ↔ _
    rw [← hgoal, tokensFit_star_last hne hv, Bool.and_eq_true, decide_eq_true_eq,
      List.isSuffixOf_iff_suffix, and_iff_right_iff_imp]
    exact List.IsSuffix.length_le
  · rw [if_neg hnil]
    cases hfind : Kotatsu.Core.find text s.input with
    | none =>
      refine iff_of_false Bool.false_ne_true fun hfit => ?_
      rw [← hgoal, tokensFit_star_literal hne hv] at hfit
      obtain ⟨front, rest, hsplit', -⟩ := hfit
      have hocc : text <+: s.input.drop front.length := by
        rw [hsplit', List.drop_left]
        exact List.prefix_append text rest
      obtain ⟨i, hi, -⟩ := find_le hocc (by rw [hsplit', List.length_append]; omega)
      rw [hfind] at hi
      cases hi
    | some at' =>
      obtain ⟨rest, hocc⟩ := find_some hfind
      have hrest : s.input.drop (at' + text.length) = rest := by
        rw [← List.drop_drop, ← hocc, List.drop_left]
      have hlen : (s.input.drop at').length ≤ s.input.length := by
        rw [List.length_drop]
        omega
      have hrestlen : rest.length ≤ s.input.length := by
        rw [← hrest, List.length_drop]
        omega
      have hshort : tokens.length < all.length := by
        rw [List.length_cons] at htlen
        omega
      simp only [hrest]
      refine ⟨⟨hsub, hshort.le, hrestlen.trans h.input_le, ?_, ?_⟩, ?_⟩
      · intro rt ri hsome'
        cases hsome'
        refine ⟨hvalid, htlen, hlen.trans h.input_le, [.literal text], rfl, ?_, rest, hocc.symm, rfl⟩
        exact fun hm => Token.noConfusion (List.mem_singleton.mp hm)
      · rw [← hgoal, tokensFit_star_find hne hv hfind, tokensFit_star_cases]
        refine or_congr ?_ ⟨?_, fun hr => ⟨_, _, rfl, hr⟩⟩
        · rw [tokensFit_literal_iff, ← hocc]
          constructor
          · exact fun hm => ⟨rest, rfl, hm⟩
          · rintro ⟨y, hy, hm⟩
            rwa [List.append_cancel_left hy]
        · rintro ⟨rt, ri, hsome', hr⟩
          cases hsome'
          exact hr
      · unfold TokenState.turnsLeft
        rw [hsome, htokens]
        change rank _ _ (tokens.length + 1) (s.input.drop at').length tokens.length <
          rank _ _ (tokens.length + 1) s.input.length (tokens.length + 1)
        obtain heq | hlt := Nat.eq_or_lt_of_le hlen
        · rw [heq]
          exact rank_lt_of_third _ _ _ _ (Nat.lt_succ_self _)
        · exact rank_lt_of_second _ _ hlt (by omega)

private theorem length_of_retry {tokens rt : List Token} {ri : Bytes}
    (htokens : s.tokens = t :: tokens) (hr : s.Restarts all whole rt ri)
    (hlen : rt.length = tokens.length + 1) : rt = s.tokens := by
  obtain ⟨-, -, -, front, hsplit, -⟩ := hr
  rw [hsplit, htokens, List.length_append, List.length_cons] at hlen
  obtain rfl : front = [] := List.eq_nil_of_length_eq_zero (by omega)
  exact hsplit

/-- Every turn goes on with less to do, or has the answer. -/
theorem TokenState.Searches.turn (h : s.Searches all whole) : s.Steps all whole s.turn := by
  unfold TokenState.turn
  cases htokens : s.tokens with
  | nil =>
    by_cases hnil : s.input = []
    · simp only [hnil, if_true]
      refine iff_of_true rfl (h.goal.mp (.inl ?_))
      rw [htokens, hnil]
      exact rfl
    · simp only [hnil, if_false]
      refine h.backtrack ?_
      rw [htokens]
      exact hnil
  | cons t tokens =>
    have hatom (fits : Bool) (ht : t ≠ .star)
        (htake : ∀ rest, takeToken t s.input rest ↔
          s.input ≠ [] ∧ fits = true ∧ rest = dropAtom s.input) :
        s.Steps all whole (s.advance tokens fits) := by
      unfold TokenState.advance
      by_cases hfits : s.input ≠ [] ∧ fits = true
      · rw [if_pos (by simpa only [Bool.and_eq_true, decide_eq_true_eq] using hfits)]
        refine h.advance htokens ht ((htake _).mpr ⟨hfits.1, hfits.2, rfl⟩)
          (length_dropAtom_lt hfits.1).le fun rest' hr => ((htake rest').mp hr).2.2
      · rw [if_neg (by simpa only [Bool.and_eq_true, decide_eq_true_eq] using hfits)]
        refine h.backtrack ?_
        rw [htokens, tokensFit_cons ht]
        rintro ⟨rest, htaken, -⟩
        obtain ⟨hne, hfit, -⟩ := (htake rest).mp htaken
        exact hfits ⟨hne, hfit⟩
    cases t with
    | star =>
      by_cases hnil : tokens = []
      · simp only [hnil, if_true]
        refine iff_of_true rfl (h.goal.mp (.inl ?_))
        rw [htokens, hnil]
        exact tokensFit_star s.input
      · simp only [hnil, if_false]
        exact h.star htokens
    | literal text =>
      by_cases hretry : s.retry.any fun retry => retry.1.length = tokens.length + 1
      · simp only [hretry, if_true]
        refine h.find htokens ?_
        obtain ⟨⟨rt, ri⟩, hsome, hlen⟩ := (Option.any_eq_true _ _).mp hretry
        have hrt := length_of_retry htokens (h.restarts rt ri hsome) (decide_eq_true_eq.mp hlen)
        exact ⟨ri, by rw [hsome, hrt]⟩
      · simp only [hretry, Bool.false_eq_true, if_false]
        by_cases hpre : text.isPrefixOf s.input
        · simp only [hpre, if_true]
          obtain ⟨rest, hrest⟩ := List.isPrefixOf_iff_prefix.mp hpre
          have hdrop : s.input.drop text.length = rest := by rw [← hrest, List.drop_left]
          rw [hdrop]
          refine h.advance htokens (fun ht => Token.noConfusion ht) hrest.symm ?_ ?_
          · rw [← hrest, List.length_append]
            omega
          · intro rest' htaken
            exact List.append_cancel_left (htaken.symm.trans hrest.symm)
        · simp only [hpre, Bool.false_eq_true, if_false]
          refine h.backtrack ?_
          rw [htokens, tokensFit_literal_iff]
          rintro ⟨rest, hrest, -⟩
          exact hpre (List.isPrefixOf_iff_prefix.mpr ⟨rest, hrest.symm⟩)
    | any =>
      refine hatom true (fun ht => Token.noConfusion ht) fun rest => ?_
      rw [eq_self, true_and]
      exact Iff.rfl
    | cls c =>
      exact hatom _ (fun ht => Token.noConfusion ht) fun rest => Iff.rfl

end Turns

/-- `match_tokens` says whether the tokens fit the input. -/
theorem matchTokens_iff (hv : ValidTokens tokens) :
    matchTokens tokens x = true ↔ TokensFit tokens x := by
  have hstart : TokenState.Searches tokens x ⟨tokens, x, none⟩ := by
    refine ⟨hv, Nat.le_refl _, Nat.le_refl _, fun rt ri hsome => ?_, or_iff_left ?_⟩
    · cases hsome
    · rintro ⟨rt, ri, hsome, -⟩
      cases hsome
  have hturn : ∀ s s', TokenState.Searches tokens x s → s.turn = .inl s' →
      s'.Searches tokens x ∧ s'.turnsLeft tokens x < s.turnsLeft tokens x := by
    intro s s' hs ht
    have hsteps := hs.turn
    rwa [ht] at hsteps
  have hanswer : ∀ s answer, TokenState.Searches tokens x s → s.turn = .inr answer →
      (answer = true ↔ TokensFit tokens x) := by
    intro s answer hs ht
    have hsteps := hs.turn
    rwa [ht] at hsteps
  obtain ⟨answer, hloop, hiff⟩ := loop_total hturn hanswer hstart (Nat.lt_succ_self _)
  have hmatch : matchTokens tokens x = answer := by
    unfold matchTokens
    exact (congrArg (fun o => o.getD false) hloop).trans rfl
  rw [hmatch]
  exact hiff

end Kotatsu.Support.Glob
