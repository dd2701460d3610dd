import Kotatsu.Core.SplitOn
import Kotatsu.Support.Glob.Fold
import Kotatsu.Support.Glob.Modes

/-!
# Compiled arms

The segments of an arm that compiles are sound and marked, and take what the segments of
the reference take. So the plan of the arm matches a path when the reference does.
-/

namespace Kotatsu.Support.Glob

open Kotatsu.Core

variable {is js : List Item} {iss : List (List Item)} {segments following : List Segment}
  {part : Segment} {atStart : Bool}

/-! ## Items between separators -/

/-- Items that one segment compiles from. -/
structure SegmentItems (js : List Item) : Prop where
  plain : ∀ item ∈ js, item.Sound ∧ item.Plain
  valid : ValidUtf8 (itemsText js)

theorem valid_body (h : ValidUtf8 (itemsText is)) {body : Bytes} (hm : .bracket body ∈ is) :
    ValidUtf8 body := by
  obtain ⟨front, back, rfl⟩ := List.append_of_mem hm
  rw [itemsText_append, itemsText_cons, bracket_text] at h
  exact ((h.split (by decide)).2.split (by decide)).1

theorem valid_splitOn (h : ValidUtf8 (itemsText is)) :
    ∀ js ∈ is.splitOn (.raw slash), ValidUtf8 (itemsText js) := by
  induction is using splitOn_induction (a := Item.raw slash) with
  | last is hnot =>
    rw [List.splitOn_eq_singleton hnot]
    exact List.forall_mem_singleton.mpr h
  | cons front back hfront ih =>
    rw [itemsText_append, itemsText_cons] at h
    obtain ⟨hleft, hright⟩ := h.split (b := slash) (by decide)
    rw [List.splitOn_append_cons_self_of_not_mem hfront]
    exact List.forall_mem_cons.mpr ⟨hleft, ih hright⟩

/-- The items between the separators of an arm compile to segments. -/
theorem segmentItems_splitOn (h : ∀ item ∈ is, item.Fine) (hv : ValidUtf8 (itemsText is)) :
    ∀ js ∈ is.splitOn (.raw slash), SegmentItems js := by
  refine fun js hjs => ⟨fun item hm => ?_, valid_splitOn hv js hjs⟩
  obtain ⟨hmem, hne⟩ := mem_of_mem_splitOn hjs hm
  exact ⟨(h item hmem).1, (h item hmem).2.resolve_left hne⟩

theorem SegmentItems.sound (h : SegmentItems js) (atStart : Bool) :
    (segmentOf atStart js).Sound := by
  rw [segmentOf]
  split
  · exact ⟨fun text hm => (List.not_mem_nil hm).elim, fun text hm => (List.not_mem_nil hm).elim,
      ⟨rfl, rfl⟩, fun b hb => by cases hb⟩
  · exact sound_plainSegment (valid_foldl h.valid)
      (tidy_foldl ⟨fun text hm => (List.not_mem_nil hm).elim, .nil⟩ fun item hm =>
        (h.plain item hm).2)

/-! ## What a segment reads as -/

/-- A segment takes what a segment of the reference takes. -/
inductive Reads : Segment → Option (List Tok) → Prop where
  | gap {part : Segment} (hk : part.kind = .recursive) : Reads part none
  | segment {part : Segment} {toks : List Tok} (hk : part.kind ≠ .recursive)
    (hempty : part.kind = .literal ∧ part.tokens = [] ↔ toks = [])
    (hfit : ∀ y, TokensFit part.tokens y ↔ TokensMatch toks y) : Reads part (some toks)

/-- The first segment of an arm is a whole `**` only where it starts a segment. -/
def readFirst (atStart : Bool) (is : List Item) : Option (List Tok) :=
  if atStart then readSegment is else some (is.map Item.tok)

theorem pushItem_ne_nil (tokens : List Token) (item : Item) : pushItem tokens item ≠ [] := by
  have hsnoc (t : Token) : tokens ++ [t] ≠ [] :=
    List.append_ne_nil_of_right_ne_nil tokens (List.cons_ne_nil _ _)
  have hliteral (b : UInt8) : pushLiteral tokens b ≠ [] := by
    rw [pushLiteral]
    split
    · exact List.append_ne_nil_of_right_ne_nil _ (List.cons_ne_nil _ _)
    · exact hsnoc _
  cases item with
  | raw b =>
    rw [pushItem]
    split
    · rw [pushStar]
      split
      · next h =>
        rintro rfl
        cases h
      · exact hsnoc _
    split
    · exact hsnoc _
    · exact hliteral b
  | escaped c => exact hliteral c
  | bracket body => exact hsnoc _

theorem foldl_eq_nil : is.foldl pushItem [] = [] ↔ is = [] := by
  rcases List.eq_nil_or_concat is with rfl | ⟨init, last, rfl⟩
  · simp
  · rw [List.concat_eq_append, List.foldl_append]
    exact iff_of_false (pushItem_ne_nil _ last)
      (List.append_ne_nil_of_right_ne_nil init (List.cons_ne_nil _ _))

theorem plainSegment_ne_recursive (tokens : List Token) :
    (plainSegment tokens).kind ≠ .recursive := by
  rw [kind_plainSegment]
  split
  · decide
  split <;> decide

theorem SegmentItems.reads (h : SegmentItems js) (atStart : Bool) :
    Reads (segmentOf atStart js) (readFirst atStart js) := by
  have hplain : Reads (plainSegment (js.foldl pushItem [])) (some (js.map Item.tok)) := by
    refine .segment (plainSegment_ne_recursive _) ?_ fun y =>
      tokensFit_foldl h.plain fun body hm => valid_body h.valid hm
    rw [List.map_eq_nil_iff, ← foldl_eq_nil]
    refine ⟨fun hm => hm.2, fun hnil => ⟨?_, hnil⟩⟩
    rw [hnil]
    rfl
  rw [segmentOf, readFirst]
  cases atStart with
  | false => exact hplain
  | true =>
    rw [readSegment, if_pos rfl]
    by_cases hstars : js = [.raw star, .raw star]
    · rw [if_pos (by simpa using hstars), if_pos hstars]
      exact .gap rfl
    · rw [if_neg (by simpa using hstars), if_neg hstars]
      exact hplain

variable {ps : List (Option (List Tok))}

/-- Segments take what the segments of the reference take. -/
theorem armFits_iff_reads (h : List.Forall₂ Reads segments ps) (ys : List Bytes) :
    ArmFits segments ys ↔ MatchesSeq TokensMatch ps ys := by
  induction h generalizing ys with
  | nil => exact Iff.rfl
  | @cons part p segments ps hp _ ih =>
    cases hp with
    | gap hk =>
      rw [armFits_recursive hk, fitsLater_iff, matchesSeq_gap]
      exact exists_congr fun n => ih _
    | segment hk _ hfit =>
      cases ys with
      | nil =>
        rw [armFits_end]
        refine iff_of_false (fun hall => hk (hall part List.mem_cons_self)) matchesSeq_some_nil
      | cons y ys => rw [armFits_cons hk, matchesSeq_some_cons, hfit, ih]

/-- The segments of an arm; `atStart` is about the first one. -/
def readFrom (atStart : Bool) : List (List Item) → List (Option (List Tok))
  | [] => []
  | is :: iss => readFirst atStart is :: iss.map readSegment

theorem reads_segmentsOf (h : ∀ js ∈ iss, SegmentItems js) (atStart : Bool) :
    List.Forall₂ Reads (segmentsOf atStart iss) (readFrom atStart iss) := by
  cases iss with
  | nil => exact .nil
  | cons is iss =>
    rw [List.forall_mem_cons] at h
    refine .cons (h.1.reads atStart) ?_
    rw [List.forall₂_map_left_iff, List.forall₂_map_right_iff, List.forall₂_same]
    exact fun js hjs => (h.2 js hjs).reads true

theorem readTrailing_some (toks : List Tok) (ps : List (Option (List Tok))) :
    readTrailing (some toks :: ps) = some toks :: readTrailing ps := by
  rw [readTrailing]
  simp

theorem readTrailing_third (p q r : Option (List Tok)) (ps : List (Option (List Tok))) :
    readTrailing (p :: q :: r :: ps) = p :: readTrailing (q :: r :: ps) := by
  rw [readTrailing]
  simp

/-- A trailing `**/` is fixed where it is read as `**/*`. -/
theorem reads_fixTrailing (h : List.Forall₂ Reads segments ps) :
    List.Forall₂ Reads (fixTrailing segments) (readTrailing ps) := by
  induction h with
  | nil => exact .nil
  | @cons globstar p segments ps hp hrest ih =>
    cases hrest with
    | nil =>
      cases p <;> exact .cons hp .nil
    | @cons last q segments ps hq hrest =>
      cases hrest with
      | nil =>
        cases hp with
        | segment hk hempty hfit =>
          rw [readTrailing_some, fixTrailing, if_neg fun hm => hk hm.1]
          refine .cons (.segment hk hempty hfit) ?_
          cases q <;> exact .cons hq .nil
        | gap hk =>
          cases hq with
          | gap hkq =>
            rw [fixTrailing, if_neg]
            · exact .cons (.gap hk) (.cons (.gap hkq) .nil)
            · rintro ⟨-, hlit, -⟩
              rw [hkq] at hlit
              cases hlit
          | @segment toks hkq hempty hfit =>
            rw [fixTrailing]
            by_cases hnil : toks = []
            · rw [if_pos ⟨hk, hempty.mpr hnil⟩, hnil]
              refine .cons (.gap hk) (.cons (.segment (by simp) (by simp) fun y => ?_) .nil)
              rw [tokensMatch_iff_takes, tokensFit_iff_takes]
              exact exists_congr fun z => Iff.rfl
            · rw [if_neg fun hm => hnil (hempty.mp hm.2)]
              obtain ⟨t, toks, rfl⟩ := List.exists_cons_of_ne_nil hnil
              exact .cons (.gap hk) (.cons (.segment hkq hempty hfit) .nil)
      | @cons third r segments ps hr hrest =>
        rw [readTrailing_third]
        exact .cons hp ih

/-! ## Marks -/

/-- No empty segment is behind a `**`. -/
def Behind : List Segment → Prop
  | [] => True
  | part :: following => (part.kind = .recursive → FollowsGap following) ∧ Behind following

theorem empty_segmentOf {atStart : Bool} (hk : (segmentOf atStart js).kind ≠ .recursive)
    (h : (segmentOf atStart js).tokens = []) :
    js = [] ∧ (segmentOf atStart js).kind = .literal := by
  rw [segmentOf] at h hk ⊢
  split at h
  · next hstars =>
    rw [if_pos hstars] at hk
    exact absurd rfl hk
  · next hplain =>
    have hnil : js = [] := foldl_eq_nil.mp h
    refine ⟨hnil, ?_⟩
    rw [if_neg hplain, hnil]
    rfl

theorem behind_fixTrailing (h : Spaced iss) (atStart : Bool) :
    Behind (fixTrailing (segmentsOf atStart iss)) := by
  induction iss generalizing atStart with
  | nil => trivial
  | cons is iss ih =>
    cases iss with
    | nil => exact ⟨fun _ part hm => (Option.not_mem_none part hm).elim, trivial⟩
    | cons js iss =>
      have hnext := ih h.2 true
      cases iss with
      | nil =>
        rw [segmentsOf, List.map_singleton, fixTrailing]
        split
        · refine ⟨fun _ part hm _ => ?_, fun hk => ?_, trivial⟩
          · cases hm
            exact List.cons_ne_nil _ _
          · cases hk
        · next hfix =>
          refine ⟨fun hg part hm hk hnil => ?_, fun _ part hm => ?_, trivial⟩
          · cases hm
            exact hfix ⟨hg, (empty_segmentOf hk hnil).2, hnil⟩
          · exact (Option.not_mem_none part hm).elim
      | cons ks iss =>
        have hhead : (fixTrailing (segmentsOf true (js :: ks :: iss))).head? =
            some (segmentOf true js) := by
          rw [segmentsOf, List.map_cons]
          cases iss with
          | nil =>
            rw [List.map_nil, fixTrailing]
            split <;> rfl
          | cons => rfl
        refine ⟨fun _ part hm hk hnil => ?_, hnext⟩
        have hpart : segmentOf true js = part := by
          have hm' : part ∈ (fixTrailing (segmentsOf true (js :: ks :: iss))).head? := hm
          rw [hhead] at hm'
          exact Option.some.inj hm'
        subst hpart
        exact List.cons_ne_nil ks iss (h.1 (empty_segmentOf hk hnil).1)

/-- A segment before and after it is marked. -/
structure Alike (part part' : Segment) : Prop where
  kind : part'.kind = part.kind
  tokens : part'.tokens = part.tokens
  first : part'.first = part.first

theorem Alike.sound {part part' : Segment} (h : Alike part part') (hs : part.Sound) :
    part'.Sound := by
  obtain ⟨hk, ht, hf⟩ := h
  refine ⟨ht ▸ hs.valid, ht ▸ hs.noSlash, ?_, fun b hb => ?_⟩
  · have hkind := hs.kind
    rw [Segment.HasKind] at hkind ⊢
    rwa [hk, ht, hf]
  · rw [ht]
    exact hs.first b (hf ▸ hb)

theorem alike_markSegments (segments : List Segment) :
    List.Forall₂ Alike segments (markSegments segments).1 := by
  induction segments with
  | nil => exact .nil
  | cons part segments ih => exact .cons ⟨rfl, rfl, rfl⟩ ih

theorem followsGap_markSegments (h : FollowsGap segments) :
    FollowsGap (markSegments segments).1 := by
  cases segments with
  | nil => exact h
  | cons part segments =>
    intro marked hm hk
    cases hm
    exact h part rfl hk

/-- Tokens that fit nothing are stars. -/
theorem tokensFit_empty {tokens : List Token} (hv : ValidTokens tokens) :
    TokensFit tokens [] ↔ tokens.all (· = .star) = true := by
  induction tokens with
  | nil => exact iff_of_true rfl rfl
  | cons t tokens ih =>
    have hsub : ValidTokens tokens := fun text hm => hv text (List.mem_cons_of_mem t hm)
    rw [List.all_cons, Bool.and_eq_true, ← ih hsub, decide_eq_true_eq]
    cases t with
    | star =>
      rw [tokensFit_star_cases, and_iff_right rfl]
      exact or_iff_left fun hm => hm.1 rfl
    | literal text =>
      refine iff_of_false ?_ fun hm => by cases hm.1
      rintro ⟨rest, hrest, -⟩
      exact (hv text List.mem_cons_self).1 (List.append_eq_nil_iff.mp hrest.symm).1
    | any | cls =>
      refine iff_of_false ?_ fun hm => by cases hm.1
      rintro ⟨rest, hrest, -⟩
      exact hrest.1 rfl

/-- The marks say what follows a segment, and whether an empty one is matched from it on. -/
theorem markSegments_spec (hs : ∀ part ∈ segments, part.Sound) (hb : Behind segments) :
    Marked (markSegments segments).1 ∧
      ((markSegments segments).2.1 = true ↔
        (markSegments segments).1 = [] ∨ ArmFits (markSegments segments).1 [[]]) ∧
      ((markSegments segments).2.2 = true ↔ (markSegments segments).1 ≠ [] ∧
        ∀ part ∈ (markSegments segments).1, part.kind = .recursive) := by
  induction segments with
  | nil => exact ⟨.nil, by simp [markSegments], by simp [markSegments]⟩
  | cons part segments ih =>
    rw [List.forall_mem_cons] at hs
    obtain ⟨hmarked, hnullable, habsorbs⟩ := ih hs.2 hb.2
    have hbehind := fun hk => followsGap_markSegments (hb.1 hk)
    have hempty : segments.isEmpty = true ↔ (markSegments segments).1 = [] := by
      cases segments with
      | nil => simp [markSegments]
      | cons => simp [markSegments]
    rw [markSegments]
    rcases hm : markSegments segments with ⟨marked, followingNullable, followingAbsorbs⟩
    rw [hm] at hmarked hnullable habsorbs hbehind hempty
    generalize segments.isEmpty = last at hempty ⊢
    dsimp only at hmarked hnullable habsorbs hbehind hempty ⊢
    have hoptional : (last || followingAbsorbs) = true ↔
        ∀ next ∈ marked, next.kind = .recursive := by
      rw [Bool.or_eq_true, hempty, habsorbs]
      by_cases hnil : marked = []
      · simp [hnil]
      · simp [hnil]
    have hmarks {part' : Segment} (h : Alike part part') :
        (if part.kind = .recursive then last || followingNullable
          else (last || followingAbsorbs) && part.tokens.all (· = .star)) = true ↔
        ArmFits (part' :: marked) [[]] := by
      by_cases hk : part.kind = .recursive
      · rw [if_pos hk, armFits_recursive (h.kind.trans hk), fitsLater_cases, List.tail_cons,
          fitsLater_end, Bool.or_eq_true, hempty, hnullable]
        constructor
        · rintro (hnil | hnil | hfit)
          · exact .inr (by simp [hnil])
          · exact .inr (by simp [hnil])
          · exact .inl hfit
        · rintro (hfit | hgaps)
          · exact .inr (.inr hfit)
          · by_cases hnil : marked = []
            · exact .inl hnil
            · exact .inr (.inr (armFits_of_gaps hnil hgaps _))
      · rw [if_neg hk, armFits_cons (h.kind ▸ hk), armFits_end, Bool.and_eq_true, hoptional,
          h.tokens, tokensFit_empty hs.1.valid, and_comm]
    have halike (nullable optionalRest : Bool) :
        Alike part { part with nullable := nullable, optionalRest := optionalRest } :=
      ⟨rfl, rfl, rfl⟩
    refine ⟨.cons ((halike _ _).sound hs.1) hoptional (hmarks (halike _ _)) hbehind hmarked,
      (hmarks (halike _ _)).trans (or_iff_right (List.cons_ne_nil _ _)).symm, ?_⟩
    rw [Bool.and_eq_true, decide_eq_true_eq, hoptional, List.forall_mem_cons]
    simp

/-! ## Arms -/

/-- The segments of an arm in the reference; `atStart` is about the first one. -/
def readArmFrom (atStart : Bool) (arm : List Item) : List (Option (List Tok)) :=
  readTrailing (readFrom atStart (arm.splitOn (.raw slash)))

theorem readArmFrom_true (arm : List Item) : readArmFrom true arm = readArm arm := by
  rw [readArmFrom, readArm]
  obtain ⟨is, iss, hsplit⟩ := List.exists_cons_of_ne_nil (List.splitOn_ne_nil (.raw slash) arm)
  rw [hsplit]
  rfl

theorem sound_fixTrailing (h : ∀ part ∈ segments, part.Sound) :
    ∀ part ∈ fixTrailing segments, part.Sound := by
  induction segments with
  | nil => exact h
  | cons globstar segments ih =>
    rw [List.forall_mem_cons] at h
    match segments, h, ih with
    | [], h, _ => exact List.forall_mem_cons.mpr h
    | [last], h, _ =>
      rw [fixTrailing]
      split
      · next hfix =>
        refine List.forall_mem_cons.mpr ⟨h.1, List.forall_mem_singleton.mpr ⟨?_, ?_, ?_, ?_⟩⟩
        · exact fun text hm => by simp at hm
        · exact fun text hm => by simp at hm
        · exact ⟨[], [], rfl⟩
        · intro b hb
          obtain ⟨text, tokens, htokens⟩ := (h.2 last List.mem_cons_self).first b hb
          rw [hfix.2.2] at htokens
          cases htokens
      · exact List.forall_mem_cons.mpr h
    | second :: third :: rest, h, ih => exact List.forall_mem_cons.mpr ⟨h.1, ih h.2⟩

theorem fixTrailing_ne_nil (h : segments ≠ []) : fixTrailing segments ≠ [] := by
  match segments with
  | [] => exact absurd rfl h
  | [_] => exact List.cons_ne_nil _ _
  | [_, _] =>
    rw [fixTrailing]
    split <;> exact List.cons_ne_nil _ _
  | _ :: _ :: _ :: _ => exact List.cons_ne_nil _ _

theorem sound_segmentsOf (h : ∀ js ∈ iss, SegmentItems js) (atStart : Bool) :
    ∀ part ∈ segmentsOf atStart iss, part.Sound := by
  cases iss with
  | nil => exact fun part hm => (List.not_mem_nil hm).elim
  | cons is iss =>
    rw [List.forall_mem_cons] at h
    refine List.forall_mem_cons.mpr ⟨h.1.sound atStart, List.forall_mem_map.mpr ?_⟩
    exact fun js hjs => (h.2 js hjs).sound true

/-- Marks change nothing that is read. -/
theorem Alike.reads {part' : Segment} {p : Option (List Tok)} (h : Alike part part')
    (hp : Reads part p) : Reads part' p := by
  obtain ⟨hk, ht, -⟩ := h
  cases hp with
  | gap hgap => exact .gap (hk.trans hgap)
  | segment hseg hempty hfit =>
    refine .segment (hk ▸ hseg) ?_ ?_
    · rwa [hk, ht]
    · rwa [ht]

theorem reads_alike {marked : List Segment} (h : List.Forall₂ Alike segments marked)
    (hp : List.Forall₂ Reads segments ps) : List.Forall₂ Reads marked ps := by
  induction h generalizing ps with
  | nil => exact hp
  | cons halike _ ih =>
    cases hp with
    | cons hread hrest => exact .cons (halike.reads hread) (ih hrest)

/-- An arm that compiles takes what its items say. -/
theorem compileArm_spec {s : Bytes} {arm : Arm} (hv : ValidUtf8 s)
    (h : compileArm s atStart = .ok arm) :
    ∃ is, items s = some is ∧ arm.Planned ∧
      ∀ ys, ArmFits arm.segments ys ↔ MatchesSeq TokensMatch (readArmFrom atStart is) ys := by
  rw [compileArm] at h
  split at h
  · cases h
  · next compiled hcompile =>
    cases h
    obtain ⟨is, rfl, hfine, rfl, hspaced⟩ := compileSegments_items hcompile
    have hitems := segmentItems_splitOn hfine hv
    have hsound := sound_fixTrailing (sound_segmentsOf hitems atStart)
    obtain ⟨hmarked, -, habsorbs⟩ :=
      markSegments_spec hsound (behind_fixTrailing hspaced atStart)
    have halike := alike_markSegments (fixTrailing (segmentsOf atStart (is.splitOn (.raw slash))))
    have hreads := reads_alike halike (reads_fixTrailing (reads_segmentsOf hitems atStart))
    have hne : (markSegments (fixTrailing (segmentsOf atStart (is.splitOn (.raw slash))))).1 ≠ [] := by
      intro hnil
      rw [hnil, List.forall₂_nil_right_iff] at halike
      refine fixTrailing_ne_nil ?_ halike
      obtain ⟨js, jss, hsplit⟩ := List.exists_cons_of_ne_nil (List.splitOn_ne_nil (.raw slash) is)
      rw [hsplit]
      exact List.cons_ne_nil _ _
    exact ⟨is, items_eq_some.mpr ⟨rfl, fun item hm => (hfine item hm).1⟩,
      ⟨hmarked, hne, choosePlan_spec _, rfl, habsorbs.trans (and_iff_right hne)⟩,
      armFits_iff_reads hreads⟩

end Kotatsu.Support.Glob
