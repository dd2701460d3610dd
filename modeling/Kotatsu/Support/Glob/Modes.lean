import Kotatsu.Support.Glob.Extensions
import Kotatsu.Support.Glob.Plans

/-!
# Modes

The mode of a pattern is read off its arms, and matches what one of them does behind the
prefix. Behind a prefix that ends with a separator the input may also end, where an arm of
`**` alone absorbs the separator.
-/

namespace Kotatsu.Support.Glob

open Kotatsu.Core

variable {arms : List Arm} {front x : Bytes} {atSegEnd root matchAll : Bool}

/-! ## The arms of a pattern -/

/-- Some arm takes the segments. -/
def SomeFits (arms : List Arm) (ys : List Bytes) : Prop :=
  ∃ arm ∈ arms, ArmFits arm.segments ys

/-- Some arm takes what is behind the prefix. -/
def FitsBehind (front : Bytes) (atSegEnd : Bool) (arms : List Arm) (x : Bytes) : Prop :=
  if atSegEnd then
    x = front ∧ SomeFits arms [] ∨ ∃ y, x = front ++ slash :: y ∧ SomeFits arms (y.splitOn slash)
  else ∃ y, x = front ++ y ∧ SomeFits arms (y.splitOn slash)

/-- A compiled arm: its segments are marked, and its plan is read off them. -/
structure Arm.Planned (arm : Arm) : Prop where
  marked : Marked arm.segments
  ne : arm.segments ≠ []
  plan : PlanOf arm.segments arm.plan arm.basename arm.head
  literal : arm.literal = trailingLiteral arm.segments
  absorbs : arm.absorbsSeparator = true ↔ ∀ part ∈ arm.segments, part.kind = .recursive

theorem Arm.Planned.matches_iff {arm : Arm} (h : arm.Planned) (path : Bytes) :
    matchArm arm path = true ↔ ArmFits arm.segments (path.splitOn slash) :=
  matchArm_iff h.marked h.ne h.plan h.literal

theorem Arm.Planned.absorbs_iff {arm : Arm} (h : arm.Planned) :
    arm.absorbsSeparator = true ↔ ArmFits arm.segments [] := by
  rw [h.absorbs, armFits_end]

theorem any_matchArm (h : ∀ arm ∈ arms, arm.Planned) (path : Bytes) :
    (arms.any fun arm => matchArm arm path) = true ↔ SomeFits arms (path.splitOn slash) := by
  rw [List.any_eq_true]
  exact exists_congr fun arm => and_congr_right fun hm => (h arm hm).matches_iff path

/-- What is behind the prefix decides, or the prefix that the input ends with. -/
theorem stripPrefix_iff (pat : GlobPattern) {f : Bytes → Bool}
    (hp : ∀ arm ∈ pat.arms, arm.Planned)
    (hf : ∀ y, f y = true ↔ SomeFits pat.arms (y.splitOn slash)) :
    (match stripPrefix pat x with
      | .inr answer => answer
      | .inl y => f y) = true ↔
      FitsBehind pat.literalPrefix pat.prefixAtSegEnd pat.arms x := by
  have habsorb : pat.arms.any Arm.absorbsSeparator = true ↔ SomeFits pat.arms [] := by
    rw [List.any_eq_true]
    exact exists_congr fun arm => and_congr_right fun hm => (hp arm hm).absorbs_iff
  rw [stripPrefix, FitsBehind]
  by_cases hprefix : pat.literalPrefix <+: x
  · obtain ⟨y, rfl⟩ := hprefix
    rw [if_neg (by simp), List.drop_left]
    cases pat.prefixAtSegEnd with
    | false =>
      simp only [Bool.not_false, if_true, Bool.false_eq_true, if_false]
      rw [hf]
      constructor
      · exact fun hm => ⟨y, rfl, hm⟩
      · rintro ⟨z, hz, hm⟩
        rwa [List.append_cancel_left hz]
    | true =>
      simp only [Bool.not_true, Bool.false_eq_true, if_false, if_true]
      cases y with
      | nil =>
        dsimp only
        rw [habsorb, List.append_nil, or_iff_left]
        · exact (and_iff_right rfl).symm
        · rintro ⟨z, hz, -⟩
          have hlen := congrArg List.length hz
          rw [List.length_append, List.length_cons] at hlen
          omega
      | cons b rest =>
        have hend : ¬(pat.literalPrefix ++ b :: rest = pat.literalPrefix ∧ SomeFits pat.arms []) := by
          rintro ⟨hself, -⟩
          have hlen := congrArg List.length hself
          rw [List.length_append, List.length_cons] at hlen
          omega
        dsimp only
        rw [or_iff_right hend]
        by_cases hb : b = slash
        · subst hb
          rw [if_pos rfl, hf]
          constructor
          · exact fun hm => ⟨rest, rfl, hm⟩
          · rintro ⟨z, hz, hm⟩
            rwa [(List.cons.inj (List.append_cancel_left hz)).2]
        · rw [if_neg hb]
          refine iff_of_false Bool.false_ne_true ?_
          rintro ⟨z, hz, -⟩
          exact hb (List.cons.inj (List.append_cancel_left hz)).1
  · have hfalse : pat.literalPrefix.isPrefixOf x = false := by
      rw [Bool.eq_false_iff]
      exact fun hm => hprefix (List.isPrefixOf_iff_prefix.mp hm)
    rw [hfalse, if_pos (show (!false) = true from rfl)]
    refine iff_of_false Bool.false_ne_true ?_
    split
    · rintro (⟨rfl, -⟩ | ⟨y, rfl, -⟩)
      · exact hprefix List.prefix_rfl
      · exact hprefix (List.prefix_append _ _)
    · rintro ⟨y, rfl, -⟩
      exact hprefix (List.prefix_append _ _)

/-! ## The mode -/

/-- What a mode says about the arms it is read off. -/
inductive ModeOf (atSegEnd root matchAll : Bool) (arms : List Arm) : Mode → List Arm → Prop where
  | any (h : matchAll = true) : ModeOf atSegEnd root matchAll arms .any arms
  | prefixTree {arm : Arm} {part : Segment} (hend : atSegEnd = true) (harms : arms = [arm])
    (hsegments : arm.segments = [part]) (hk : part.kind = .recursive) :
    ModeOf atSegEnd root matchAll arms .prefixTree arms
  | suffix {arm : Arm} (hroot : root = true) (harms : arms = [arm]) (hplan : arm.plan = .suffix) :
    ModeOf atSegEnd root matchAll arms .suffix arms
  | pathSuffix {arm : Arm} (hroot : root = true) (harms : arms = [arm])
    (hplan : arm.plan = .pathSuffix) : ModeOf atSegEnd root matchAll arms .pathSuffix arms
  | segmentSuffix {arm : Arm} (hroot : root = true) (harms : arms = [arm])
    (hplan : arm.plan = .segmentSuffix) : ModeOf atSegEnd root matchAll arms .segmentSuffix arms
  | extensions (hplan : ∀ arm ∈ arms, arm.plan = .suffix)
    (hext : ∀ arm ∈ arms, isExtension arm.literal.text = true) :
    ModeOf atSegEnd root matchAll arms .extensionArms (arms.mergeSort extensionLe)
  | suffixes (hplan : ∀ arm ∈ arms, arm.plan = .suffix) :
    ModeOf atSegEnd root matchAll arms .suffixArms arms
  | segmentSuffixes (hplan : ∀ arm ∈ arms, arm.plan = .segmentSuffix) :
    ModeOf atSegEnd root matchAll arms .segmentSuffixArms arms
  | arms : ModeOf atSegEnd root matchAll arms .arms arms

theorem single_iff {p : Arm → Bool} :
    (arms.length = 1 && arms.head?.any p) = true ↔ ∃ arm, arms = [arm] ∧ p arm = true := by
  rw [Bool.and_eq_true, decide_eq_true_eq]
  constructor
  · rintro ⟨hone, hp⟩
    obtain ⟨arm, rfl⟩ := List.length_eq_one_iff.mp hone
    exact ⟨arm, rfl, hp⟩
  · rintro ⟨arm, rfl, hp⟩
    exact ⟨rfl, hp⟩

/-- The mode is read off the arms. -/
theorem chooseMode_spec (atSegEnd root matchAll : Bool) (arms : List Arm) :
    ModeOf atSegEnd root matchAll arms (chooseMode atSegEnd root matchAll arms).1
      (chooseMode atSegEnd root matchAll arms).2 := by
  rw [chooseMode]
  dsimp only
  split
  · next h => exact .any h
  split
  · next h =>
    obtain ⟨arm, harms, hp⟩ := single_iff.mp h
    simp only [Bool.and_eq_true, decide_eq_true_eq] at hp
    obtain ⟨⟨hend, hone⟩, hk⟩ := hp
    obtain ⟨part, hpart⟩ := List.length_eq_one_iff.mp hone
    rw [hpart] at hk
    exact .prefixTree hend harms hpart (of_decide_eq_true hk)
  split
  · next h =>
    obtain ⟨arm, harms, hp⟩ := single_iff.mp h
    rw [Bool.and_eq_true, decide_eq_true_eq] at hp
    exact .suffix hp.1 harms hp.2
  split
  · next h =>
    obtain ⟨arm, harms, hp⟩ := single_iff.mp h
    rw [Bool.and_eq_true, decide_eq_true_eq] at hp
    exact .pathSuffix hp.1 harms hp.2
  split
  · next h =>
    obtain ⟨arm, harms, hp⟩ := single_iff.mp h
    rw [Bool.and_eq_true, decide_eq_true_eq] at hp
    exact .segmentSuffix hp.1 harms hp.2
  split
  · next h =>
    have hplan : ∀ arm ∈ arms, arm.plan = .suffix := by simpa using h
    split
    · next hext =>
      rw [Bool.and_eq_true, List.all_eq_true] at hext
      exact .extensions hplan hext.2
    · exact .suffixes hplan
  split
  · next h => exact .segmentSuffixes (by simpa using h)
  · exact .arms

theorem someFits_mergeSort (le : Arm → Arm → Bool) (ys : List Bytes) :
    SomeFits (arms.mergeSort le) ys ↔ SomeFits arms ys := by
  simp only [SomeFits, List.mem_mergeSort]

/-- The literals of arms that match a suffix are looked up in the set. -/
theorem extensionSet_iff (hp : ∀ arm ∈ arms, arm.Planned)
    (hplan : ∀ arm ∈ arms, arm.plan = .suffix)
    (hext : ∀ arm ∈ arms, isExtension arm.literal.text = true) (y : Bytes) :
    matchExtensionSet (arms.mergeSort extensionLe) y = true ↔ SomeFits arms (y.splitOn slash) := by
  have hliteral : ∀ arm ∈ arms.mergeSort extensionLe,
      ∃ text, arm.literal = packLiteral text ∧ isExtension text = true := by
    intro arm hm
    rw [List.mem_mergeSort] at hm
    obtain ⟨text, htext⟩ := trailingLiteral_pack arm.segments
    rw [← (hp arm hm).literal] at htext
    have hextension := hext arm hm
    rw [htext, text_packLiteral] at hextension
    exact ⟨text, htext, hextension⟩
  rw [matchExtensionSet_iff hliteral, ← any_matchArm hp, List.any_eq_true]
  · simp only [List.mem_mergeSort]
    refine exists_congr fun arm => and_congr_right fun hm => ?_
    rw [matchArm, hplan arm hm]
  · exact List.pairwise_mergeSort (fun a b c hab hbc => pairLe_trans a.key b.key c.key hab hbc)
      (fun a b => pairLe_total a.key b.key) arms

/-- A pattern with planned arms matches what one of them takes behind the prefix. -/
theorem match_iff {pat : GlobPattern} (hp : ∀ arm ∈ arms, arm.Planned)
    (hmode : ModeOf pat.prefixAtSegEnd root matchAll arms pat.mode pat.arms)
    (hroot : root = true → pat.literalPrefix = [] ∧ pat.prefixAtSegEnd = false)
    (hall : matchAll = true → root = true ∧ ∀ y : Bytes, SomeFits arms (y.splitOn slash)) :
    pat.match x = true ↔ FitsBehind pat.literalPrefix pat.prefixAtSegEnd arms x := by
  obtain ⟨front, atSegEnd, mode, kept⟩ := pat
  dsimp only at hmode hroot ⊢
  have hfits (hr : root = true) :
      FitsBehind front atSegEnd arms x ↔ SomeFits arms (x.splitOn slash) := by
    obtain ⟨rfl, rfl⟩ := hroot hr
    rw [FitsBehind, if_neg Bool.false_ne_true]
    exact ⟨fun ⟨y, hy, hm⟩ => hy ▸ hm, fun hm => ⟨x, rfl, hm⟩⟩
  have hone {arm : Arm} (harms : arms = [arm]) (hr : root = true) :
      matchArm arm x = true ↔ FitsBehind front atSegEnd arms x := by
    rw [hfits hr, ← any_matchArm hp, harms, List.any_cons, List.any_nil, Bool.or_false]
  cases hmode with
  | any h =>
    obtain ⟨hr, hsome⟩ := hall h
    exact iff_of_true rfl ((hfits hr).mpr (hsome x))
  | @prefixTree arm part hend harms hsegments hk =>
    have hsome (ys : List Bytes) : SomeFits arms ys := by
      refine ⟨arm, harms ▸ List.mem_cons_self, ?_⟩
      rw [hsegments]
      exact armFits_of_gaps (List.cons_ne_nil _ _) (by simpa using hk) ys
    refine matchPrefixTree_iff.trans ?_
    rw [FitsBehind, if_pos hend]
    simp only [hsome, and_true]
  | @suffix arm hr harms hplan =>
    rw [← hone harms hr, matchArm, hplan, harms]
    rfl
  | @pathSuffix arm hr harms hplan =>
    rw [← hone harms hr, matchArm, hplan, harms]
    rfl
  | @segmentSuffix arm hr harms hplan =>
    rw [← hone harms hr, matchArm, hplan, harms]
    rfl
  | extensions hplan hext =>
    have hset := extensionSet_iff hp hplan hext
    refine (stripPrefix_iff ⟨front, atSegEnd, .extensionArms, arms.mergeSort extensionLe⟩
      (f := matchExtensionSet (arms.mergeSort extensionLe))
      (fun arm hm => hp arm (List.mem_mergeSort.mp hm)) fun y => ?_).trans ?_
    · rw [hset, someFits_mergeSort]
    · simp only [FitsBehind, someFits_mergeSort]
  | suffixes hplan =>
    refine stripPrefix_iff ⟨front, atSegEnd, .suffixArms, arms⟩
      (f := fun y => arms.any fun arm => arm.literal.matches y) hp fun y => ?_
    rw [← any_matchArm hp, List.any_eq_true, List.any_eq_true]
    refine exists_congr fun arm => and_congr_right fun hm => ?_
    rw [matchArm, hplan arm hm]
  | segmentSuffixes hplan =>
    refine stripPrefix_iff ⟨front, atSegEnd, .segmentSuffixArms, arms⟩
      (f := fun y => !y.contains slash && arms.any fun arm => arm.literal.matches y) hp
      fun y => ?_
    have harm {arm : Arm} (hm : arm ∈ arms) :
        matchArm arm y = true ↔ arm.literal.matches y = true ∧ (!y.contains slash) = true := by
      rw [matchArm, hplan arm hm, Bool.and_eq_true]
    rw [← any_matchArm hp, Bool.and_eq_true, List.any_eq_true, List.any_eq_true]
    constructor
    · rintro ⟨hslash, arm, hm, hmatch⟩
      exact ⟨arm, hm, (harm hm).mpr ⟨hmatch, hslash⟩⟩
    · rintro ⟨arm, hm, hmatch⟩
      exact ⟨((harm hm).mp hmatch).2, arm, hm, ((harm hm).mp hmatch).1⟩
  | arms =>
    exact stripPrefix_iff ⟨front, atSegEnd, .arms, arms⟩
      (f := fun y => arms.any fun arm => matchArm arm y) hp (any_matchArm hp)

end Kotatsu.Support.Glob
