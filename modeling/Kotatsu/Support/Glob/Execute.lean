import Kotatsu.Support.Glob.Segments

/-!
# Segments against a path

`execute` keeps one restart point, after the latest `**`. The segments of an arm are a
pattern with gaps over the segments of the path, so the restart point is enough, and
the jumps over input segments with the wrong first byte skip nothing. Where the path
has ended, the marks of the segments answer.
-/

namespace Kotatsu.Support.Glob

open Kotatsu.Core

/-! ## Segments as a pattern with gaps -/

/-- A whole `**` is a gap. -/
def Segment.gap (part : Segment) : Option Segment :=
  if part.kind = .recursive then none else some part

/-- An input segment fits a segment. -/
def SegmentFits (part : Segment) (y : Bytes) : Prop := TokensFit part.tokens y

/-- The segments of an arm take all the segments of a path. -/
def ArmFits (segments : List Segment) (ys : List Bytes) : Prop :=
  MatchesSeq SegmentFits (segments.map Segment.gap) ys

/-- They do from some input segment on. -/
def FitsLater (segments : List Segment) (ys : List Bytes) : Prop :=
  MatchesSeq SegmentFits (none :: segments.map Segment.gap) ys

variable {part : Segment} {segments following : List Segment} {y : Bytes} {ys : List Bytes}

theorem gap_of_recursive (h : part.kind = .recursive) : part.gap = none := if_pos h

theorem gap_of_ne (h : part.kind ≠ .recursive) : part.gap = some part := if_neg h

theorem gap_eq_none : part.gap = none ↔ part.kind = .recursive := by
  by_cases h : part.kind = .recursive
  · exact iff_of_true (gap_of_recursive h) h
  · rw [gap_of_ne h]
    exact iff_of_false (Option.some_ne_none part) h

theorem armFits_nil : ArmFits [] ys ↔ ys = [] := matchesSeq_nil

theorem armFits_recursive (h : part.kind = .recursive) :
    ArmFits (part :: following) ys ↔ FitsLater following ys := by
  rw [ArmFits, List.map_cons, gap_of_recursive h]
  rfl

theorem armFits_cons (h : part.kind ≠ .recursive) :
    ArmFits (part :: following) (y :: ys) ↔ TokensFit part.tokens y ∧ ArmFits following ys := by
  rw [ArmFits, List.map_cons, gap_of_ne h]
  exact matchesSeq_some_cons

/-- Only gaps match the end of the path. -/
theorem armFits_end : ArmFits segments [] ↔ ∀ part ∈ segments, part.kind = .recursive := by
  rw [ArmFits, matchesSeq_empty_iff, List.forall_mem_map]
  exact forall₂_congr fun part _ => gap_eq_none

/-- Gaps match every path. -/
theorem armFits_of_gaps (hne : segments ≠ []) (h : ∀ part ∈ segments, part.kind = .recursive)
    (ys : List Bytes) : ArmFits segments ys := by
  refine matchesSeq_of_gaps (by simpa using hne) ?_
  rw [List.forall_mem_map]
  exact fun part hm => gap_of_recursive (h part hm)

/-- Segments match from here on, or from further on. -/
theorem fitsLater_cases : FitsLater segments ys ↔ ArmFits segments ys ∨ FitsLater segments ys.tail :=
  matches_gap_iff

theorem fitsLater_end : FitsLater segments [] ↔ ∀ part ∈ segments, part.kind = .recursive := by
  rw [FitsLater, matchesSeq_empty_iff, List.forall_mem_cons, List.forall_mem_map]
  simp only [true_and]
  exact forall₂_congr fun part _ => gap_eq_none

theorem fitsLater_iff : FitsLater segments ys ↔ ∃ n, ArmFits segments (ys.drop n) := matchesSeq_gap

/-! ## Marked segments -/

/-- What follows a `**` is not an empty segment. -/
def FollowsGap (segments : List Segment) : Prop :=
  ∀ part ∈ segments.head?, part.kind ≠ .recursive → part.tokens ≠ []

/-- Sound segments with their marks: `optionalRest` says that only `**` follow, and
`nullable` that the segments from there on match an empty input segment. -/
inductive Marked : List Segment → Prop where
  | nil : Marked []
  | cons {part : Segment} {following : List Segment} (sound : part.Sound)
    (optional : part.optionalRest = true ↔ ∀ next ∈ following, next.kind = .recursive)
    (nullable : part.nullable = true ↔ ArmFits (part :: following) [[]])
    (behind : part.kind = .recursive → FollowsGap following)
    (h : Marked following) : Marked (part :: following)

/-- Tokens that fit nothing are stars, and stars fit everything. -/
theorem tokensFit_of_empty {tokens : List Token} (hv : ValidTokens tokens) (hne : tokens ≠ [])
    (h : TokensFit tokens []) (y : Bytes) : TokensFit tokens y := by
  induction tokens with
  | nil => exact absurd rfl hne
  | cons t tokens ih =>
    have hsub : ValidTokens tokens := fun text hm => hv text (List.mem_cons_of_mem t hm)
    cases t with
    | star =>
      obtain ⟨rest, hrest, hfit⟩ := tokensFit_star_iff.mp h
      rw [hrest.nil_left] at hfit
      by_cases hnil : tokens = []
      · rw [hnil]
        exact tokensFit_star y
      · exact tokensFit_star_cases.mpr (.inl (ih hsub hnil hfit))
    | literal text =>
      obtain ⟨rest, hrest, -⟩ := h
      exact absurd (List.append_eq_nil_iff.mp hrest.symm).1 (hv text List.mem_cons_self).1
    | any =>
      obtain ⟨rest, hrest, -⟩ := h
      exact absurd rfl hrest.1
    | cls c =>
      obtain ⟨rest, hrest, -⟩ := h
      exact absurd rfl hrest.1

/-- Segments behind a `**` that match an empty input segment match any other one too. -/
theorem Marked.fits_of_empty (h : Marked segments) (hgap : FollowsGap segments)
    (hfit : ArmFits segments [[]]) (y : Bytes) : ArmFits segments [y] := by
  induction h with
  | nil => cases hfit
  | @cons part following sound _ _ behind _ ih =>
    by_cases hk : part.kind = .recursive
    · rw [armFits_recursive hk, fitsLater_cases] at hfit ⊢
      exact hfit.imp_left (ih (behind hk))
    · rw [armFits_cons hk] at hfit ⊢
      exact ⟨tokensFit_of_empty sound.valid (hgap part rfl hk) hfit.1 y, hfit.2⟩

variable {front : List Segment} {first : UInt8}

theorem Marked.append_right (h : Marked (front ++ segments)) : Marked segments := by
  induction front with
  | nil => exact h
  | cons part front ih =>
    cases h with
    | cons _ _ _ _ h => exact ih h

theorem Marked.sound (h : Marked segments) (hp : part ∈ segments) : part.Sound := by
  obtain ⟨front, following, rfl⟩ := List.append_of_mem hp
  cases h.append_right with
  | cons sound _ _ _ _ => exact sound

/-! ## Jumps -/

/-- The segments a search goes through: those that begin in the text. -/
private def segmentsFrom (start : Bool) (rest : Bytes) : List Bytes :=
  if start then rest.splitOn slash else (rest.splitOn slash).tail

private theorem segmentsFrom_cons (start : Bool) (b : UInt8) (rest : Bytes) :
    segmentsFrom start (b :: rest) =
      (if start then [if b = slash then [] else b :: (rest.splitOn slash).headD []] else []) ++
        segmentsFrom (b = slash) rest := by
  obtain ⟨y, ys, hsplit⟩ := List.exists_cons_of_ne_nil (List.splitOn_ne_nil slash rest)
  by_cases hb : b = slash
  · subst hb
    cases start <;> simp [segmentsFrom, List.splitOn_cons_eq_if_modifyHead]
  · cases start <;> simp [segmentsFrom, List.splitOn_cons_eq_if_modifyHead, hb, hsplit]

/-- The search finds the first segment that begins with a byte. -/
theorem findSegment_spec (hfirst : first ≠ slash) (start : Bool) (rest : Bytes) :
    match findSegment first [] start rest with
    | none => (segmentsFrom start rest).dropWhile (fun y => y.head? ≠ some first) = []
    | some found => found <:+ rest ∧ found.splitOn slash =
        (segmentsFrom start rest).dropWhile fun y => y.head? ≠ some first := by
  induction rest generalizing start with
  | nil =>
    rw [findSegment]
    cases start <;> simp [segmentsFrom]
  | cons b rest ih =>
    have hnext : ∀ (hskip : (segmentsFrom start (b :: rest)).dropWhile
        (fun y => y.head? ≠ some first) = (segmentsFrom (b = slash) rest).dropWhile
        fun y => y.head? ≠ some first),
        match findSegment first [] (b = slash) rest with
        | none => (segmentsFrom start (b :: rest)).dropWhile (fun y => y.head? ≠ some first) = []
        | some found => found <:+ b :: rest ∧ found.splitOn slash =
            (segmentsFrom start (b :: rest)).dropWhile fun y => y.head? ≠ some first := by
      intro hskip
      have hrest := ih (b = slash)
      rw [hskip]
      split at hrest
      · exact hrest
      · exact ⟨hrest.1.trans (List.suffix_cons b rest), hrest.2⟩
    rw [findSegment]
    by_cases hb : b = first
    · subst hb
      cases start with
      | true =>
        simp only [if_true, List.length_nil, Nat.not_lt_zero, if_false, Bool.true_and,
          decide_true, Bool.true_or]
        refine ⟨List.suffix_refl _, ?_⟩
        change segmentsFrom true (b :: rest) = _
        rw [segmentsFrom_cons]
        simp only [if_true, hfirst, if_false]
        exact (List.dropWhile_cons_of_neg (by simp)).symm
      | false =>
        simp only [if_true, List.length_nil, Nat.not_lt_zero, if_false, Bool.false_and,
          Bool.false_eq_true]
        refine hnext ?_
        rw [segmentsFrom_cons]
        rfl
    · simp only [hb, if_false]
      refine hnext ?_
      rw [segmentsFrom_cons]
      cases start with
      | false => rfl
      | true =>
        refine List.dropWhile_cons_of_pos ?_
        split
        · simp
        · simp [hb]

private theorem findSegment_short {text rest : Bytes} (h : rest.length < text.length) (start : Bool) :
    findSegment first text start rest = none := by
  induction rest generalizing start with
  | nil => rfl
  | cons b rest ih =>
    have hrest := ih (Nat.lt_of_succ_lt h) (b = slash)
    rw [findSegment, if_pos h, hrest, ite_self]

/-- The search for a text finds it when it is one of the segments. -/
theorem findSegment_text {text : Bytes} (htext : slash ∉ text) (hne : text ≠ []) (path : Bytes) :
    (findSegment (text.headD 0) text true path).isSome = true ↔ text ∈ path.splitOn slash := by
  obtain ⟨first, tail, rfl⟩ := List.exists_cons_of_ne_nil hne
  suffices h : ∀ start, (findSegment first (first :: tail) start path).isSome = true ↔
      first :: tail ∈ segmentsFrom start path from h true
  induction path with
  | nil =>
    intro start
    cases start <;> simp [findSegment, segmentsFrom]
  | cons b rest ih =>
    intro start
    have hfirst : (if b = slash then [] else b :: (rest.splitOn slash).headD []) =
        (segmentEnd (b :: rest)).1 := by
      have hsegments := segmentsFrom_cons true b rest
      have hsplit := splitOn_segmentEnd (b :: rest)
      rw [segmentsFrom, if_pos rfl, hsplit] at hsegments
      exact (List.cons.inj hsegments).1.symm
    have hmem : first :: tail ∈ segmentsFrom start (b :: rest) ↔
        start = true ∧ (segmentEnd (b :: rest)).1 = first :: tail ∨
          (findSegment first (first :: tail) (b = slash) rest).isSome = true := by
      rw [segmentsFrom_cons, hfirst, List.mem_append, ih]
      cases start <;> simp [eq_comm]
    rw [hmem, findSegment]
    by_cases hb : b = first
    · rw [if_pos hb]
      split
      · next hshort =>
        rw [findSegment_short (Nat.lt_of_succ_lt hshort)]
        refine iff_of_false (by simp) ?_
        rintro (⟨-, h⟩ | h)
        · have hle := ((segmentEnd_eq_iff htext).mp h).1.length_le
          omega
        · cases h
      · have hcond : (start && (first :: tail = [] ||
            (((b :: rest).drop (first :: tail).length = [] ||
              ((b :: rest).drop (first :: tail).length).head? = some slash) &&
              (first :: tail).isPrefixOf (b :: rest)))) = true ↔
            start = true ∧ (segmentEnd (b :: rest)).1 = first :: tail := by
          rw [segmentEnd_eq_iff htext, Bool.and_eq_true, Bool.or_eq_true, decide_eq_true_eq,
            or_iff_right (List.cons_ne_nil _ _), Bool.and_eq_true, List.isPrefixOf_iff_prefix,
            Bool.or_eq_true, decide_eq_true_eq, decide_eq_true_eq, and_comm (b := _ <+: _)]
        dsimp only
        rw [← hcond]
        split
        · next h => exact iff_of_true rfl (.inl h)
        · next h => exact (or_iff_right h).symm
    · rw [if_neg hb, or_iff_right]
      rintro ⟨-, h⟩
      obtain ⟨after, hafter⟩ := ((segmentEnd_eq_iff htext).mp h).1
      exact hb (List.cons.inj hafter).1.symm

/-- Where an arm's segment begins with a byte, what does not begin with it is skipped. -/
theorem fitsLater_skip (hs : part.Sound) (hk : part.kind ≠ .recursive)
    (hfirst : part.first = some first) :
    FitsLater (part :: following) ys ↔
      FitsLater (part :: following) (ys.dropWhile fun y => y.head? ≠ some first) := by
  induction ys with
  | nil => rfl
  | cons y ys ih =>
    by_cases hy : y.head? = some first
    · rw [List.dropWhile_cons_of_neg (by simpa using hy)]
    · rw [List.dropWhile_cons_of_pos (by simpa using hy), ← ih, fitsLater_cases, List.tail_cons,
        or_iff_right]
      rw [armFits_cons hk]
      exact fun hm => hy (hs.head_of_fits hfirst hm.1)

/-! ## The loop -/

/-- What the latest `**` can still take. -/
def ExecuteState.Retries (s : ExecuteState) : Prop :=
  ∃ segments input, s.retry = some (segments, input) ∧
    FitsLater segments (input.splitOn slash).tail

/-- A restart point: what is left of its segments after some that are no `**`, which took
the input segments up to where the loop is. -/
structure ExecuteState.Restarts (all : List Segment) (whole : Bytes) (s : ExecuteState)
    (segments : List Segment) (input : Bytes) : Prop where
  marked : Marked segments
  behind : FollowsGap segments
  segments_le : segments.length ≤ all.length
  input_le : s.input.length ≤ input.length
  whole_le : input.length ≤ whole.length
  front : ∃ front, segments = front ++ s.segments ∧ (∀ part ∈ front, part.kind ≠ .recursive) ∧
    TakeAll (takeOne SegmentFits) front (input.splitOn slash) (s.input.splitOn slash)

/-- What the turns of `execute` on some segments and a path keep: the segments fit the path
when those that are left fit what is left, or a restart makes them fit. -/
structure ExecuteState.Searches (all : List Segment) (whole : Bytes) (s : ExecuteState) :
    Prop where
  marked : Marked s.segments
  segments_ne : s.segments ≠ []
  segments_le : s.segments.length ≤ all.length
  input_le : s.input.length ≤ whole.length
  restarts : ∀ segments input, s.retry = some (segments, input) →
    s.Restarts all whole segments input
  goal : (ArmFits s.segments (s.input.splitOn slash) ∨ s.Retries) ↔
    ArmFits all (whole.splitOn slash)

/-- The turns that are left: until the latest `**` moves to a later one, then until it has
taken all, then until the segments are gone. -/
def ExecuteState.turnsLeft (all : List Segment) (whole : Bytes) (s : ExecuteState) : Nat :=
  rank (whole.length + 1) (all.length + 1)
    (s.retry.elim (all.length + 1) fun retry => retry.1.length)
    (s.retry.elim 0 fun retry => retry.2.length) s.segments.length

/-- A turn goes on with less to do, or has the answer. -/
def ExecuteState.Steps (all : List Segment) (whole : Bytes) (s : ExecuteState) :
    ExecuteState ⊕ Bool → Prop
  | .inl s' => s'.Searches all whole ∧ s'.turnsLeft all whole < s.turnsLeft all whole
  | .inr answer => answer = true ↔ ArmFits all (whole.splitOn slash)

section Turns

variable {all : List Segment} {whole input : Bytes} {s : ExecuteState}

private theorem takeAll_drop {ys zs : List Bytes} (h : TakeAll (takeOne SegmentFits) front ys zs) :
    zs = ys.drop front.length := by
  induction front generalizing ys with
  | nil => exact h
  | cons part front ih =>
    obtain ⟨rest, ⟨y, rfl, -⟩, hrest⟩ := h
    exact ih hrest

private theorem map_gap_of_ne (h : ∀ part ∈ front, part.kind ≠ .recursive) :
    front.map Segment.gap = front.map some :=
  List.map_congr_left fun part hm => gap_of_ne (h part hm)

/-- What fits from the restart point on fits from where the loop is. -/
theorem ExecuteState.Restarts.fits (h : s.Restarts all whole segments input)
    (hfit : ArmFits segments (input.splitOn slash)) :
    ArmFits s.segments (s.input.splitOn slash) := by
  obtain ⟨front, hsplit, hfront, htakes⟩ := h.front
  rw [ArmFits, hsplit, List.map_append, map_gap_of_ne hfront] at hfit
  obtain ⟨zs, hzs, hrest⟩ := (matches_fixed_append front).mp hfit
  rw [takeAll_drop htakes, ← takeAll_drop hzs]
  exact hrest

/-- A `**` that is reached takes what the latest one could have taken more. -/
theorem ExecuteState.Searches.gap_of_retries (h : s.Searches all whole)
    (hsegments : s.segments = part :: following) (hk : part.kind = .recursive)
    (hr : s.Retries) : FitsLater following (s.input.splitOn slash) := by
  obtain ⟨segments, input, hsome, hlater⟩ := hr
  obtain ⟨front, hsplit, hfront, htakes⟩ := (h.restarts _ _ hsome).front
  obtain ⟨n, hn⟩ := fitsLater_iff.mp hlater
  rw [hsegments] at hsplit
  rw [ArmFits, hsplit, List.map_append, map_gap_of_ne hfront, List.map_cons,
    gap_of_recursive hk, ← List.drop_one, List.drop_drop, ← tail_iterate] at hn
  exact matches_gap_of_later (fun part _ => takeOne_iterate part) htakes hn

private theorem count_gap {segments : List Segment}
    (h : ((segments.map Segment.gap).filter Option.isSome).length = 0) :
    ∀ part ∈ segments, part.kind = .recursive := by
  intro part hm
  rw [← gap_eq_none]
  by_contra hne
  have hmem : part.gap ∈ (segments.map Segment.gap).filter Option.isSome := by
    rw [List.mem_filter]
    exact ⟨List.mem_map_of_mem hm, Option.isSome_iff_ne_none.mpr hne⟩
  rw [List.eq_nil_of_length_eq_zero h] at hmem
  cases hmem

/-- Where the path has ended, what the latest `**` could take more takes nothing. -/
theorem ExecuteState.Searches.gaps_of_retries (h : s.Searches all whole) (hnil : s.input = [])
    (hr : s.Retries) : ∀ part ∈ s.segments, part.kind = .recursive := by
  obtain ⟨segments, input, hsome, hlater⟩ := hr
  obtain ⟨front, hsplit, hfront, htakes⟩ := (h.restarts _ _ hsome).front
  obtain ⟨n, hn⟩ := fitsLater_iff.mp hlater
  have hlen := MatchesSeq.length_le hn
  have hend := congrArg List.length (takeAll_drop htakes)
  rw [hsplit, List.map_append, map_gap_of_ne hfront, List.filter_append, List.length_append,
    List.length_drop, List.length_tail] at hlen
  rw [hnil, List.splitOn_nil, List.length_singleton, List.length_drop] at hend
  have hall : ((front.map some).filter Option.isSome).length = front.length := by
    rw [List.filter_eq_self.mpr (by simp), List.length_map]
  exact count_gap (by omega)

/-- Where the path has ended, the mark of the segment answers. -/
theorem ExecuteState.Searches.ended (h : s.Searches all whole) (hnil : s.input = [])
    (hsegments : s.segments = part :: following) : s.Steps all whole (.inr part.nullable) := by
  have hmarked := h.marked
  have hgoal := h.goal
  rw [hnil, List.splitOn_nil] at hgoal
  rw [hsegments] at hmarked
  cases hmarked with
  | cons _ _ nullable _ _ =>
    change _ = true ↔ _
    rw [nullable, ← hgoal, hsegments]
    refine ⟨.inl, fun hfit => hfit.elim id fun hr => ?_⟩
    have hgaps := h.gaps_of_retries hnil hr
    rw [hsegments] at hgaps
    exact armFits_of_gaps (List.cons_ne_nil _ _) hgaps _

private theorem retries_some {ri : Bytes} {segments' : List Segment} :
    ExecuteState.Retries ⟨segments', input, some (segments, ri)⟩ ↔
      FitsLater segments (ri.splitOn slash).tail := by
  constructor
  · rintro ⟨rt, ri', hsome, hr⟩
    cases hsome
    exact hr
  · exact fun hr => ⟨segments, ri, rfl, hr⟩

/-- The latest `**` takes more, up to where its segments can begin again. -/
private theorem restart_steps (hgoal : FitsLater segments (input.splitOn slash) ↔
      ArmFits all (whole.splitOn slash))
    (hm : Marked segments) (hb : FollowsGap segments) (hne : segments ≠ [])
    (hs : segments.length ≤ all.length) (hi : input.length ≤ whole.length) :
    ExecuteState.Searches all whole ⟨segments, input, some (segments, input)⟩ := by
  refine ⟨hm, hne, hs, hi, ?_, ?_⟩
  · intro rt ri hsome
    cases hsome
    exact ⟨hm, hb, hs, Nat.le_refl _, hi, [], rfl, List.forall_mem_nil _, rfl⟩
  · rw [← hgoal, retries_some, ← fitsLater_cases]

theorem Segment.Sound.first_spec (h : part.Sound) {b : UInt8} (hb : part.first = some b) :
    part.kind ≠ .recursive ∧ b ≠ slash := by
  obtain ⟨text, tokens, htokens⟩ := h.first b hb
  constructor
  · intro hk
    have hkind := h.kind
    rw [Segment.HasKind, hk] at hkind
    rw [hkind.1] at htokens
    cases htokens
  · rintro rfl
    refine h.noSlash (slash :: text) ?_ List.mem_cons_self
    rw [htokens]
    exact List.mem_cons_self

/-- A jump to where the segments behind a `**` can begin goes on there, or has the answer. -/
private theorem jump_steps {found : Option Bytes}
    (hgoal : FitsLater (part :: following) ys ↔ ArmFits all (whole.splitOn slash))
    (hm : Marked (part :: following)) (hb : FollowsGap (part :: following))
    (hfirst : part.first = some first) (hs : (part :: following).length ≤ all.length)
    (hfound : match found with
      | none => ys.dropWhile (fun y => y.head? ≠ some first) = []
      | some input => input.splitOn slash = ys.dropWhile fun y => y.head? ≠ some first)
    (hle : ∀ input ∈ found, input.length ≤ whole.length)
    (hless : ∀ input ∈ found, ExecuteState.turnsLeft all whole
      ⟨part :: following, input, some (part :: following, input)⟩ < s.turnsLeft all whole) :
    s.Steps all whole (ExecuteState.jump (part :: following) found) := by
  have hsound : part.Sound := by cases hm with | cons sound _ _ _ _ => exact sound
  have hk := (hsound.first_spec hfirst).1
  rw [fitsLater_skip hsound hk hfirst] at hgoal
  cases found with
  | none =>
    rw [hfound, fitsLater_end] at hgoal
    change false = true ↔ _
    rw [← hgoal]
    exact iff_of_false Bool.false_ne_true fun hgaps => hk (hgaps part List.mem_cons_self)
  | some input =>
    rw [← hfound] at hgoal
    exact ⟨restart_steps hgoal hm hb (List.cons_ne_nil _ _) hs (hle input rfl), hless input rfl⟩

/-- Where the segments that are left do not fit, the latest `**` takes one more segment. -/
theorem ExecuteState.Searches.backtrack (h : s.Searches all whole) (hne : s.input ≠ [])
    (hfail : ¬ArmFits s.segments (s.input.splitOn slash)) :
    s.Steps all whole s.backtrack := by
  have hgoal := h.goal
  rw [or_iff_right hfail] at hgoal
  obtain ⟨segments', input, retry⟩ := s
  cases retry with
  | none =>
    have hno : ¬ExecuteState.Retries ⟨segments', input, none⟩ := by
      rintro ⟨rt, ri, hsome, -⟩
      cases hsome
    exact iff_of_false Bool.false_ne_true (hgoal.not.mp hno)
  | some retry =>
    obtain ⟨segments, ri⟩ := retry
    have hrestart := h.restarts segments ri rfl
    rw [retries_some] at hgoal
    have hstuck : ¬ArmFits segments (ri.splitOn slash) := fun hfit => hfail (hrestart.fits hfit)
    have hri : ri ≠ [] := by
      rintro rfl
      have hle := hrestart.input_le
      exact hne (List.eq_nil_of_length_eq_zero (Nat.le_zero.mp hle))
    obtain ⟨b, rest, rfl⟩ := List.exists_cons_of_ne_nil hri
    have hsegs : segments ≠ [] := by
      obtain ⟨front, hsplit, -⟩ := hrestart.front
      rw [hsplit]
      exact List.append_ne_nil_of_right_ne_nil front h.segments_ne
    have hless : ∀ next : Bytes, next.length < (b :: rest).length →
        ExecuteState.turnsLeft all whole ⟨segments, next, some (segments, next)⟩ <
          ExecuteState.turnsLeft all whole ⟨segments', input, some (segments, b :: rest)⟩ :=
      fun next hlt => rank_lt_of_second _ _ hlt (Nat.lt_succ_of_le hrestart.segments_le)
    cases hfirst : segments.head?.bind Segment.first with
    | none =>
      have hnext : ExecuteState.backtrack ⟨segments', input, some (segments, b :: rest)⟩ =
          .inl ⟨segments, (segmentEnd (b :: rest)).2.drop 1,
            some (segments, (segmentEnd (b :: rest)).2.drop 1)⟩ := by
        simp only [ExecuteState.backtrack, hfirst]
      have hshort : ((segmentEnd (b :: rest)).2.drop 1).length < (b :: rest).length := by
        have hlen := congrArg List.length (segmentEnd_spec (b :: rest)).1
        rw [List.length_append, List.length_cons] at hlen
        rw [List.length_drop, List.length_cons]
        omega
      rw [hnext]
      refine ⟨restart_steps ?_ hrestart.marked hrestart.behind hsegs hrestart.segments_le
        (hshort.le.trans hrestart.whole_le), hless _ hshort⟩
      rw [← hgoal, splitOn_segmentEnd (b :: rest), List.tail_cons]
      rw [splitOn_segmentEnd (b :: rest)] at hstuck
      cases hafter : (segmentEnd (b :: rest)).2 with
      | nil =>
        rw [hafter] at hstuck
        rw [List.drop_nil, List.splitOn_nil, fitsLater_cases, List.tail_cons]
        exact or_iff_right fun hfit =>
          hstuck (hrestart.marked.fits_of_empty hrestart.behind hfit _)
      | cons c after => rfl
    | some first =>
      obtain ⟨part, following, rfl⟩ := List.exists_cons_of_ne_nil hsegs
      have hpart : part.first = some first := hfirst
      have hnext : ExecuteState.backtrack ⟨segments', input, some (part :: following, b :: rest)⟩ =
          ExecuteState.jump (part :: following) (findSegment first [] (b = slash) rest) := by
        simp only [ExecuteState.backtrack, List.head?_cons, Option.bind_some, hpart,
          Option.some.injEq, List.drop_succ_cons, List.drop_zero]
      have hsound : part.Sound := by cases hrestart.marked with | cons sound _ _ _ _ => exact sound
      have hspec := findSegment_spec (hsound.first_spec hpart).2 (b = slash) rest
      have hfrom : segmentsFrom (b = slash) rest = ((b :: rest).splitOn slash).tail :=
        (segmentsFrom_cons false b rest).symm
      rw [hfrom] at hspec
      rw [hnext]
      refine jump_steps hgoal hrestart.marked hrestart.behind hpart hrestart.segments_le ?_ ?_ ?_
      · split at hspec
        · exact hspec
        · exact hspec.2
      · intro next hnext'
        rw [Option.mem_def.mp hnext'] at hspec
        have hle := hspec.1.length_le
        exact (hle.trans (Nat.le_succ _)).trans hrestart.whole_le
      · intro next hnext'
        rw [Option.mem_def.mp hnext'] at hspec
        exact hless next (Nat.lt_succ_of_le hspec.1.length_le)

/-- A `**` becomes the restart point of what follows it. -/
theorem ExecuteState.Searches.gap (h : s.Searches all whole)
    (hsegments : s.segments = part :: following) (hk : part.kind = .recursive) :
    (FitsLater following (s.input.splitOn slash) ↔ ArmFits all (whole.splitOn slash)) ∧
      Marked following ∧ FollowsGap following ∧ following.length ≤ all.length ∧
      ∀ next : Bytes, next.length ≤ whole.length → ExecuteState.turnsLeft all whole
        ⟨following, next, some (following, next)⟩ < s.turnsLeft all whole := by
  have hmarked := h.marked
  have hle := h.segments_le
  rw [hsegments] at hmarked hle
  rw [List.length_cons] at hle
  cases hmarked with
  | cons _ _ _ behind hm =>
    refine ⟨?_, hm, behind hk, by omega, fun next hnext => ?_⟩
    · rw [← h.goal, hsegments, armFits_recursive hk]
      refine ⟨.inl, fun hor => hor.elim id fun hr => ?_⟩
      exact h.gap_of_retries hsegments hk hr
    · refine rank_lt_of_first ?_ (Nat.lt_succ_of_le hnext) (Nat.lt_succ_of_lt hle)
      cases hr : s.retry with
      | none =>
        change following.length < all.length + 1
        omega
      | some retry =>
        obtain ⟨front, hsplit, -⟩ := (h.restarts retry.1 retry.2 hr).front
        change following.length < retry.1.length
        rw [hsplit, hsegments, List.length_append, List.length_cons]
        omega

/-- A segment that fits is taken, and the restart point stays. -/
theorem ExecuteState.Searches.advance {next : Bytes} (h : s.Searches all whole)
    (hsegments : s.segments = part :: following) (hk : part.kind ≠ .recursive)
    (hne : following ≠ []) (hfit : TokensFit part.tokens y)
    (hinput : s.input.splitOn slash = y :: next.splitOn slash)
    (hlt : next.length ≤ s.input.length) :
    s.Steps all whole (.inl { s with segments := following, input := next }) := by
  have hmarked := h.marked
  have hle := h.segments_le
  rw [hsegments] at hmarked hle
  rw [List.length_cons] at hle
  cases hmarked with
  | cons _ _ _ _ hm =>
    refine ⟨⟨hm, hne, Nat.le_of_succ_le hle, hlt.trans h.input_le, ?_, ?_⟩, ?_⟩
    · intro segments input hsome
      obtain ⟨hmr, hb, hsl, hil, hwl, front, hsplit, hfront, htakes⟩ :=
        h.restarts segments input hsome
      refine ⟨hmr, hb, hsl, hlt.trans hil, hwl, front ++ [part], ?_, ?_, ?_⟩
      · rw [hsplit, hsegments, List.append_assoc]
        rfl
      · intro p hp
        rcases List.mem_append.mp hp with hp | hp
        · exact hfront p hp
        · rw [List.mem_singleton.mp hp]
          exact hk
      · exact takeAll_append htakes ⟨_, ⟨y, hinput, hfit⟩, rfl⟩
    · rw [← h.goal, hsegments, hinput, armFits_cons hk, and_iff_right hfit]
      rfl
    · refine rank_lt_of_third _ _ _ _ ?_
      rw [hsegments]
      exact Nat.lt_succ_self _

/-- Every turn goes on with less to do, or has the answer. -/
theorem ExecuteState.Searches.turn (h : s.Searches all whole) : s.Steps all whole s.turn := by
  obtain ⟨part, following, hsegments⟩ := List.exists_cons_of_ne_nil h.segments_ne
  have hmarked := h.marked
  rw [hsegments] at hmarked
  obtain ⟨hsound, hoptional⟩ : part.Sound ∧
      (part.optionalRest = true ↔ ∀ next ∈ following, next.kind = .recursive) := by
    cases hmarked with
    | cons sound optional _ _ _ => exact ⟨sound, optional⟩
  unfold ExecuteState.turn
  rw [hsegments]
  dsimp only
  by_cases hnil : s.input = []
  · rw [if_pos hnil]
    exact h.ended hnil hsegments
  rw [if_neg hnil]
  by_cases hk : part.kind = .recursive
  · rw [if_pos hk]
    obtain ⟨hgoal, hm, hb, hle, hless⟩ := h.gap hsegments hk
    cases following with
    | nil =>
      refine iff_of_true rfl (hgoal.mp ?_)
      exact matchesSeq_of_gaps (List.cons_ne_nil _ _) (by simp)
    | cons next rest =>
      dsimp only
      cases hfirst : next.first with
      | none =>
        exact ⟨restart_steps hgoal hm hb (List.cons_ne_nil _ _) hle h.input_le,
          hless s.input h.input_le⟩
      | some first =>
        have hnext : next.Sound := by cases hm with | cons sound _ _ _ _ => exact sound
        have hspec := findSegment_spec (hnext.first_spec hfirst).2 true s.input
        refine jump_steps hgoal hm hb hfirst hle ?_ ?_ ?_
        · split at hspec
          · exact hspec
          · exact hspec.2
        · intro input hinput
          rw [Option.mem_def.mp hinput] at hspec
          exact hspec.1.length_le.trans h.input_le
        · intro input hinput
          rw [Option.mem_def.mp hinput] at hspec
          exact hless input (hspec.1.length_le.trans h.input_le)
  · rw [if_neg hk]
    have hmatched : ∀ after, (if part.first = none ∨ s.input.head? = part.first then
        matchSegment part s.input else none) = some after ↔
        TokensFit part.tokens (segmentEnd s.input).1 ∧ after = (segmentEnd s.input).2 := by
      intro after
      rw [← hsound.matchSegment_iff hk]
      split
      · rfl
      · next hcond =>
        rw [not_or] at hcond
        obtain ⟨b, hb⟩ := Option.ne_none_iff_exists'.mp hcond.1
        refine iff_of_false (fun hm => by cases hm) fun hm => hcond.2 ?_
        have hhead := hsound.head_of_fits hb ((hsound.matchSegment_iff hk).mp hm).1
        rw [(segmentEnd_spec s.input).1, hb, List.head?_append, hhead]
        rfl
    have hsplit := splitOn_segmentEnd s.input
    generalize (if part.first = none ∨ s.input.head? = part.first then
      matchSegment part s.input else none) = matched at hmatched ⊢
    cases hm : matched with
    | none =>
      refine h.backtrack hnil fun hfit => ?_
      rw [hsegments, hsplit, armFits_cons hk] at hfit
      have hsome := (hmatched _).mpr ⟨hfit.1, rfl⟩
      rw [hm] at hsome
      cases hsome
    | some after =>
      obtain ⟨hfit, hafter⟩ := (hmatched after).mp hm
      rw [← hafter] at hsplit
      cases after with
      | nil =>
        have hrest : ArmFits s.segments (s.input.splitOn slash) ↔
            ∀ next ∈ following, next.kind = .recursive := by
          rw [hsegments, hsplit, armFits_cons hk, and_iff_right hfit, armFits_end]
        dsimp only
        split
        · next hopt =>
          exact iff_of_true rfl (h.goal.mp (.inl (hrest.mpr (hoptional.mp hopt))))
        · next hopt =>
          exact h.backtrack hnil fun hf => hopt (hoptional.mpr (hrest.mp hf))
      | cons b next =>
        dsimp only
        split
        · next hlast =>
          refine h.backtrack hnil fun hf => ?_
          rw [hsegments, hsplit, armFits_cons hk, hlast, armFits_nil] at hf
          exact List.splitOn_ne_nil slash next hf.2
        · next hne =>
          refine h.advance hsegments hk hne hfit hsplit ?_
          have hlen := congrArg List.length (segmentEnd_spec s.input).1
          rw [← hafter, List.length_append, List.length_cons] at hlen
          omega

end Turns

/-- `execute` says whether the segments fit the path. -/
theorem execute_iff {path : Bytes} (hm : Marked segments) (hne : segments ≠ []) :
    execute segments path = true ↔ ArmFits segments (path.splitOn slash) := by
  have hstart : ExecuteState.Searches segments path ⟨segments, path, none⟩ := by
    refine ⟨hm, hne, Nat.le_refl _, Nat.le_refl _, fun rt ri hsome => ?_, or_iff_left ?_⟩
    · cases hsome
    · rintro ⟨rt, ri, hsome, -⟩
      cases hsome
  have hturn : ∀ s s', ExecuteState.Searches segments path s → s.turn = .inl s' →
      s'.Searches segments path ∧ s'.turnsLeft segments path < s.turnsLeft segments path := by
    intro s s' hs ht
    have hsteps := hs.turn
    rwa [ht] at hsteps
  have hanswer : ∀ s answer, ExecuteState.Searches segments path s → s.turn = .inr answer →
      (answer = true ↔ ArmFits segments (path.splitOn slash)) := by
    intro s answer hs ht
    have hsteps := hs.turn
    rwa [ht] at hsteps
  obtain ⟨answer, hloop, hiff⟩ := loop_total hturn hanswer hstart (Nat.lt_succ_self _)
  have hexecute : execute segments path = answer := by
    unfold execute
    exact (congrArg (fun o => o.getD false) hloop).trans rfl
  rw [hexecute]
  exact hiff

end Kotatsu.Support.Glob
