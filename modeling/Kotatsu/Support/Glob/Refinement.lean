import Kotatsu.Support.Glob.Errors
import Kotatsu.Support.Glob.Head
import Kotatsu.Support.Glob.Modes

/-!
# What a pattern matches

A pattern that `create` accepts matches a path when one of its arms does segment by
segment, whatever prefix is hoisted and whatever mode and plans are chosen.
-/

namespace Kotatsu.Support.Glob

open Kotatsu.Core

variable {s : Bytes} {maxArms : Nat} {pat : GlobPattern} {x : Bytes}

/-! ## Patterns that are accepted -/

theorem mapM_ok {α β ε : Type} {f : α → Except ε β} {xs : List α} {ys : List β}
    (h : xs.mapM f = .ok ys) :
    (∀ x ∈ xs, ∃ y ∈ ys, f x = .ok y) ∧ ∀ y ∈ ys, ∃ x ∈ xs, f x = .ok y := by
  induction xs generalizing ys with
  | nil =>
    cases h
    exact ⟨fun x hm => (List.not_mem_nil hm).elim, fun y hm => (List.not_mem_nil hm).elim⟩
  | cons x xs ih =>
    rw [List.mapM_cons] at h
    cases hx : f x with
    | error e =>
      rw [hx] at h
      cases h
    | ok y =>
      cases hxs : xs.mapM f with
      | error e =>
        rw [hx, hxs] at h
        cases h
      | ok rest =>
        rw [hx, hxs] at h
        cases h
        obtain ⟨hleft, hright⟩ := ih hxs
        refine ⟨List.forall_mem_cons.mpr ⟨⟨y, List.mem_cons_self, hx⟩, fun x' hm => ?_⟩,
          List.forall_mem_cons.mpr ⟨⟨x, List.mem_cons_self, hx⟩, fun y' hm => ?_⟩⟩
        · obtain ⟨y', hy', heq⟩ := hleft x' hm
          exact ⟨y', List.mem_cons_of_mem _ hy', heq⟩
        · obtain ⟨x', hx', heq⟩ := hright y' hm
          exact ⟨x', List.mem_cons_of_mem _ hx', heq⟩

/-- The prefix that is hoisted, without the separator it ends with. -/
def hoisted (s : Bytes) : Bytes × Bool :=
  let text := (literalHead s).text
  if text.getLast? = some slash then (text.dropLast, true) else (text, false)

/-- The choices of one term for each brace. -/
def choicesOf (braces : List Brace) : List (List Nat) :=
  choicesFrom braces (braces.map fun brace => brace.terms.length).prod (braces.map fun _ => 0)

/-- A pattern that `create` makes: a literal, or arms behind a prefix. -/
inductive Created (s : Bytes) (maxArms : Nat) : GlobPattern → Prop where
  | literal (h : (literalHead s).stop = s.length) :
    Created s maxArms { literalPrefix := (literalHead s).text }
  | arms {front : Bytes} {atSegEnd : Bool} {braces : List Brace} {compiled : List (Arm × Bool)}
    (hstop : (literalHead s).stop ≠ s.length)
    (hback : (s.drop (literalHead s).stop).head? ≠ some backslash)
    (hfront : hoisted s = (front, atSegEnd))
    (hbraces : bracesOf s (literalHead s).stop maxArms = .ok braces)
    (hcompiled : (choicesOf braces).mapM (compileChoice s (literalHead s).stop atSegEnd
      (front = [] && !atSegEnd) (front = [] || atSegEnd) braces) = .ok compiled) :
    Created s maxArms {
      literalPrefix := front
      prefixAtSegEnd := atSegEnd
      mode := (chooseMode atSegEnd (front = [] && !atSegEnd) (compiled.any Prod.snd)
        (compiled.map Prod.fst)).1
      arms := (chooseMode atSegEnd (front = [] && !atSegEnd) (compiled.any Prod.snd)
        (compiled.map Prod.fst)).2 }

theorem create_created (h : create s maxArms = .ok pat) : ValidUtf8 s ∧ Created s maxArms pat := by
  unfold create at h
  split at h
  · cases h
  next hvalid =>
  refine ⟨validUtf8_of_findInvalidUtf8 hvalid, ?_⟩
  dsimp only at h
  split at h
  · split at h <;> cases h
  next hback =>
  split at h
  · cases h
  split at h
  · next hstop =>
    cases h
    exact .literal hstop
  next hstop =>
  split at h
  · cases h
  next braces hbraces =>
  split at h
  · cases h
  next compiled hcompiled =>
  cases h
  have hfront : hoisted s = (if (literalHead s).text.getLast? = some slash then
      (literalHead s).text.dropLast else (literalHead s).text,
      decide ((literalHead s).text.getLast? = some slash)) := by
    rw [hoisted]
    split <;> simp [*]
  exact .arms hstop hback hfront hbraces hcompiled

theorem mapM_of_forall {α β ε : Type} {f : α → Except ε β} {xs : List α}
    (h : ∀ a ∈ xs, ∃ b, f a = .ok b) : ∃ ys, xs.mapM f = .ok ys := by
  induction xs with
  | nil => exact ⟨[], rfl⟩
  | cons a xs ih =>
    rw [List.forall_mem_cons] at h
    obtain ⟨b, hb⟩ := h.1
    obtain ⟨ys, hys⟩ := ih h.2
    refine ⟨b :: ys, ?_⟩
    rw [List.mapM_cons, hb, hys]
    rfl

theorem valid_ascii {b : UInt8} (hb : b < 0x80) (hs : ValidUtf8 s) :
    ValidUtf8 (b :: s) := by
  refine .cons (by rw [decodeUtf8_ascii hb]) ?_
  rw [decodeUtf8_ascii hb]
  exact hs

theorem findInvalidUtf8_valid (h : ValidUtf8 s) (at' : Nat) :
    findInvalidUtf8 at' s = none := by
  induction h generalizing at' with
  | nil => exact findInvalidUtf8.eq_def at' []
  | cons hv _ ih =>
    rw [findInvalidUtf8]
    split
    · rfl
    · have hlt := decodeUtf8_codePoint_lt hv
      dsimp only
      rw [decodeUtf8Atom_of_valid hv]
      dsimp only
      rw [if_neg (show ¬_ ≥ invalidAtomBase from Nat.not_le_of_lt hlt)]
      exact ih _

/-- A pattern that is all head is accepted when it has no separator after another one. -/
theorem create_of_literal (hv : ValidUtf8 s) (hstop : (literalHead s).stop = s.length)
    (hslashes : findDoubleSlash 0 s = none) :
    create s maxArms = .ok { literalPrefix := (literalHead s).text } := by
  rw [create, findInvalidUtf8_valid hv]
  dsimp only
  rw [hstop, List.drop_length, List.take_length, hslashes, if_neg (by simp)]
  dsimp only
  rw [if_pos rfl]

variable {front : Bytes}

/-- A pattern is accepted when all its arms compile. -/
theorem create_of_compiled {atSegEnd : Bool} {braces : List Brace} {compiled : List (Arm × Bool)}
    (hv : ValidUtf8 s) (hback : (s.drop (literalHead s).stop).head? ≠ some backslash)
    (hslashes : findDoubleSlash 0 (s.take (literalHead s).stop) = none)
    (hstop : (literalHead s).stop ≠ s.length) (hfront : hoisted s = (front, atSegEnd))
    (hbraces : bracesOf s (literalHead s).stop maxArms = .ok braces)
    (hcompiled : (choicesOf braces).mapM (compileChoice s (literalHead s).stop atSegEnd
      (front = [] && !atSegEnd) (front = [] || atSegEnd) braces) = .ok compiled) :
    ∃ pat, create s maxArms = .ok pat := by
  have hparts : front = (if (literalHead s).text.getLast? = some slash then
      (literalHead s).text.dropLast else (literalHead s).text) ∧
      atSegEnd = decide ((literalHead s).text.getLast? = some slash) := by
    rw [hoisted] at hfront
    split at hfront <;> cases hfront <;> simp [*]
  obtain ⟨rfl, rfl⟩ := hparts
  rw [create, findInvalidUtf8_valid hv]
  dsimp only
  rw [if_neg hback, hslashes]
  dsimp only
  rw [if_neg hstop, hbraces]
  dsimp only
  rw [choicesOf] at hcompiled
  rw [hcompiled]
  exact ⟨_, rfl⟩

/-! ## The arms that are compiled -/

variable {start : Nat} {atSegEnd root atStart : Bool} {braces : List Brace} {choice : List Nat}
  {arm : Arm} {all : Bool} {compiled : List (Arm × Bool)}

/-- An arm takes what its items say. -/
def Compiles (atStart : Bool) (is : List Item) (arm : Arm) : Prop :=
  arm.Planned ∧ ∀ ys, ArmFits arm.segments ys ↔ MatchesSeq TokensMatch (readArmFrom atStart is) ys

theorem compileArm_items {text : Bytes} (h : compileArm text atStart = .ok arm) :
    ∃ is, items text = some is := by
  rw [compileArm] at h
  split at h
  · cases h
  next hcompile =>
  obtain ⟨is, htext, hfine, -⟩ := compileSegments_items hcompile
  exact ⟨is, items_eq_some.mpr ⟨htext, fun item hm => (hfine item hm).1⟩⟩

/-- An arm that is known to match everything does. -/
theorem matches_everything {is : List Item} {ys : List Bytes} (hs : ∀ item ∈ is, item.Sound)
    (h : itemsText is = [star, star] ∨ itemsText is = [star, star, slash]) (hne : ys ≠ []) :
    MatchesSeq TokensMatch (readArmFrom true is) ys := by
  have hitems : items (itemsText is) = some is := items_eq_some.mpr ⟨rfl, hs⟩
  have hstar (rest : Bytes) : items (star :: rest) = (items rest).map (.raw star :: ·) :=
    items_raw (by decide) (by decide) rest
  rw [readArmFrom_true]
  obtain htext | htext := h
  · rw [htext, hstar, hstar, items_nil] at hitems
    cases hitems
    have hread : readArm [.raw star, .raw star] = [none] := by decide
    change MatchesSeq TokensMatch (readArm [.raw star, .raw star]) ys
    rw [hread]
    exact matchesSeq_of_gaps (List.cons_ne_nil none []) (by simp)
  · rw [htext, hstar, hstar, items_raw (by decide) (by decide), items_nil] at hitems
    cases hitems
    have hread : readArm [.raw star, .raw star, .raw slash] = [none, some [.star]] := by decide
    obtain ⟨ys, y, rfl⟩ := List.eq_nil_or_concat ys |>.resolve_left hne
    change MatchesSeq TokensMatch (readArm [.raw star, .raw star, .raw slash]) (ys.concat y)
    have hend : AtomSuffix (y ++ []) [] := atomSuffix_append y [] fun b hb => by cases hb
    rw [List.append_nil] at hend
    rw [hread, matchesSeq_gap]
    refine ⟨ys.length, ?_⟩
    rw [List.concat_eq_append, List.drop_left, matchesSeq_some_cons]
    exact ⟨⟨[], hend, rfl⟩, rfl⟩

/-- A choice compiles to the arm that its items say. -/
theorem compileChoice_spec (hv : ValidUtf8 (s.drop start))
    (hbraces : bracesOf s start maxArms = .ok braces) (hrange : InRange choice braces)
    (h : compileChoice s start atSegEnd root atStart braces choice = .ok (arm, all)) :
    ∃ is, IsArm (s.drop start) maxArms is ∧
      items (piecesText (buildPieces s start braces choice)) = some is ∧ Compiles atStart is arm ∧
      (all = true → root = true ∧
        ∀ ys ≠ [], MatchesSeq TokensMatch (readArmFrom true is) ys) := by
  rw [compileChoice] at h
  split at h
  · cases h
  split at h
  · cases h
  next hcompile =>
  cases h
  obtain ⟨is, hitems⟩ := compileArm_items hcompile
  have harm : IsArm (s.drop start) maxArms is :=
    ((bracesOf_arms hbraces).2 is).mpr ⟨choice, hrange, hitems⟩
  have htext := (items_eq_some.mp hitems).1
  have hvalid := harm.valid hv
  rw [← htext] at hvalid
  obtain ⟨is', hitems', hplanned, hfits⟩ := compileArm_spec hvalid hcompile
  rw [hitems, Option.some.injEq] at hitems'
  subst hitems'
  refine ⟨is, harm, hitems, ⟨hplanned, hfits⟩, fun hall => ?_⟩
  rw [Bool.and_eq_true, Bool.or_eq_true, decide_eq_true_eq, decide_eq_true_eq, htext] at hall
  exact ⟨hall.1, fun ys => matches_everything (items_eq_some.mp hitems).2 hall.2⟩

/-- The compiled arms are those of the rest of the pattern. -/
theorem compiled_spec (hv : ValidUtf8 (s.drop start))
    (hbraces : bracesOf s start maxArms = .ok braces)
    (hcompiled : (choicesOf braces).mapM (compileChoice s start atSegEnd root atStart braces) =
      .ok compiled) :
    (∀ entry ∈ compiled, ∃ is, IsArm (s.drop start) maxArms is ∧ Compiles atStart is entry.1 ∧
      (entry.2 = true → root = true ∧
        ∀ ys ≠ [], MatchesSeq TokensMatch (readArmFrom true is) ys)) ∧
    ∀ is, IsArm (s.drop start) maxArms is → ∃ entry ∈ compiled, Compiles atStart is entry.1 := by
  obtain ⟨hterms, harms⟩ := bracesOf_arms hbraces
  obtain ⟨hleft, hright⟩ := mapM_ok hcompiled
  constructor
  · intro entry hm
    obtain ⟨choice, hchoice, hcompile⟩ := hright entry hm
    obtain ⟨is, harm, -, hspec⟩ :=
      compileChoice_spec hv hbraces ((mem_choices hterms).mp hchoice) hcompile
    exact ⟨is, harm, hspec⟩
  · intro is harm
    obtain ⟨choice, hrange, hitems⟩ := (harms is).mp harm
    obtain ⟨entry, hm, hcompile⟩ := hleft choice ((mem_choices hterms).mpr hrange)
    obtain ⟨is', -, hitems', hspec, -⟩ := compileChoice_spec hv hbraces hrange hcompile
    rw [hitems, Option.some.injEq] at hitems'
    subst hitems'
    exact ⟨entry, hm, hspec⟩

/-- Some arm of the rest of a pattern takes the segments. -/
def SomeTakes (rest : Bytes) (maxArms : Nat) (atStart : Bool) (ys : List Bytes) : Prop :=
  ∃ is, IsArm rest maxArms is ∧ MatchesSeq TokensMatch (readArmFrom atStart is) ys

theorem someFits_compiled (hv : ValidUtf8 (s.drop start))
    (hbraces : bracesOf s start maxArms = .ok braces)
    (hcompiled : (choicesOf braces).mapM (compileChoice s start atSegEnd root atStart braces) =
      .ok compiled) (ys : List Bytes) :
    SomeFits (compiled.map Prod.fst) ys ↔ SomeTakes (s.drop start) maxArms atStart ys := by
  obtain ⟨hleft, hright⟩ := compiled_spec hv hbraces hcompiled
  constructor
  · rintro ⟨arm, hm, hfit⟩
    obtain ⟨entry, hentry, rfl⟩ := List.mem_map.mp hm
    obtain ⟨is, harm, hspec, -⟩ := hleft entry hentry
    exact ⟨is, harm, (hspec.2 ys).mp hfit⟩
  · rintro ⟨is, harm, hm⟩
    obtain ⟨entry, hentry, hspec⟩ := hright is harm
    exact ⟨entry.1, List.mem_map_of_mem hentry, (hspec.2 ys).mpr hm⟩

/-! ## Behind the prefix -/

/-- What is behind the prefix is taken. -/
def TakesBehind (front : Bytes) (atSegEnd : Bool) (takes : List Bytes → Prop) (x : Bytes) : Prop :=
  if atSegEnd then x = front ∧ takes [] ∨ ∃ y, x = front ++ slash :: y ∧ takes (y.splitOn slash)
  else ∃ y, x = front ++ y ∧ takes (y.splitOn slash)

/-- The items of the prefix that is hoisted. -/
theorem hoisted_spec (h : hoisted s = (front, atSegEnd)) :
    ∃ q : List Item, (∀ item ∈ q, item.IsByte) ∧ q.map Item.byte = front ∧
      s.take (literalHead s).stop = itemsText (if atSegEnd then q ++ [.raw slash] else q) ∧
      (atSegEnd = false → q.getLast? ≠ some (.raw slash)) := by
  obtain ⟨q, htake, hbytes, htext, -⟩ := literalHead_spec s
  have hlast : q.getLast? = some (.raw slash) ↔ (literalHead s).text.getLast? = some slash := by
    rw [← htext, List.getLast?_map, Option.map_eq_some_iff]
    constructor
    · exact fun hq => ⟨_, hq, rfl⟩
    · rintro ⟨item, hq, hbyte⟩
      rw [hq, (hbytes item (List.mem_of_getLast? hq)).slash.mp hbyte]
  rw [hoisted] at h
  split at h
  · next hslash =>
    cases h
    obtain ⟨q, rfl⟩ := List.getLast?_eq_some_iff.mp (hlast.mpr hslash)
    refine ⟨q, fun item hm => hbytes item (List.mem_append_left _ hm), ?_, htake, by simp⟩
    rw [← htext, List.map_append, List.map_singleton, List.dropLast_concat]
  · next hslash =>
    cases h
    exact ⟨q, hbytes, htext, htake, fun _ hq => hslash (hlast.mp hq)⟩

/-- A path is accepted when it begins with the prefix and the rest of the pattern takes what
is behind it. -/
theorem accepts_iff (h : hoisted s = (front, atSegEnd)) :
    Accepts s maxArms x ↔ TakesBehind front atSegEnd
      (SomeTakes (s.drop (literalHead s).stop) maxArms (front = [] || atSegEnd)) x := by
  obtain ⟨q, hbytes, rfl, htake, hlast⟩ := hoisted_spec h
  have hs : s = itemsText (if atSegEnd then q ++ [.raw slash] else q) ++
      s.drop (literalHead s).stop := by
    rw [← htake, List.take_append_drop]
  have hslash : (Item.raw slash).IsByte := isByte_raw (by decide) (by decide)
  have hfront : ∀ item ∈ (if atSegEnd then q ++ [.raw slash] else q), item.IsByte := by
    split
    · exact List.forall_mem_append.mpr ⟨hbytes, List.forall_mem_singleton.mpr hslash⟩
    · exact hbytes
  have harms (arm : List Item) : IsArm s maxArms arm ↔
      ∃ rest, IsArm (s.drop (literalHead s).stop) maxArms rest ∧
        arm = (if atSegEnd then q ++ [.raw slash] else q) ++ rest := by
    conv_lhs => rw [hs]
    exact isArm_append (items_eq_some.mpr ⟨rfl, fun item hm => (hfront item hm).sound⟩)
      fun hm => (hfront _ hm).brace rfl
  have haccepts : Accepts s maxArms x ↔
      ∃ rest, IsArm (s.drop (literalHead s).stop) maxArms rest ∧
        MatchesSeq TokensMatch (readArm ((if atSegEnd then q ++ [.raw slash] else q) ++ rest))
          (x.splitOn slash) := by
    constructor
    · rintro ⟨arm, harm, hm⟩
      obtain ⟨rest, hrest, rfl⟩ := (harms arm).mp harm
      exact ⟨rest, hrest, hm⟩
    · rintro ⟨rest, hrest, hm⟩
      exact ⟨_, (harms _).mpr ⟨rest, hrest, rfl⟩, hm⟩
  rw [haccepts, TakesBehind]
  cases atSegEnd with
  | true =>
    simp only [if_true, Bool.or_true, SomeTakes, readArmFrom_true, List.append_assoc,
      List.singleton_append, matches_directory hbytes]
    constructor
    · rintro ⟨rest, hrest, ⟨hx, hm⟩ | ⟨y, hx, hm⟩⟩
      · exact .inl ⟨hx, rest, hrest, hm⟩
      · exact .inr ⟨y, hx, rest, hrest, hm⟩
    · rintro (⟨hx, rest, hrest, hm⟩ | ⟨y, hx, rest, hrest, hm⟩)
      · exact ⟨rest, hrest, .inl ⟨hx, hm⟩⟩
      · exact ⟨rest, hrest, .inr ⟨y, hx, hm⟩⟩
  | false =>
    have hinside (rest : List Item) : MatchesSeq TokensMatch (readArm (q ++ rest)) (x.splitOn slash) ↔
        ∃ y, x = q.map Item.byte ++ y ∧
          MatchesSeq TokensMatch (readArmFrom (q.map Item.byte = [] || false) rest)
            (y.splitOn slash) := by
      by_cases hnil : q = []
      · subst hnil
        simp [readArmFrom_true]
      · rw [matches_inside hbytes (hlast rfl) hnil]
        simp [hnil]
    simp only [Bool.false_eq_true, if_false, SomeTakes, hinside]
    constructor
    · rintro ⟨rest, hrest, y, hx, hm⟩
      exact ⟨y, hx, rest, hrest, hm⟩
    · rintro ⟨y, hx, rest, hrest, hm⟩
      exact ⟨rest, hrest, y, hx, hm⟩

/-- The rest of a valid pattern is valid: it begins with an ASCII byte. -/
theorem valid_rest (hv : ValidUtf8 s) : ValidUtf8 (s.drop (literalHead s).stop) := by
  obtain ⟨-, -, -, -, hstop⟩ := literalHead_spec s
  have happend := List.take_append_drop (literalHead s).stop s
  generalize s.take (literalHead s).stop = front at happend
  cases hrest : s.drop (literalHead s).stop with
  | nil => exact .nil
  | cons b rest =>
    rw [hrest] at happend hstop
    have hascii : b < 0x80 := by
      obtain hw | rfl := hstop b rfl
      · simp only [isWildcard, Bool.or_eq_true, decide_eq_true_eq] at hw
        obtain ((rfl | rfl) | rfl) | rfl := hw <;> decide
      · decide
    rw [← happend] at hv
    refine .cons (by rw [decodeUtf8_ascii hascii]) ?_
    rw [decodeUtf8_ascii hascii]
    exact (hv.split hascii).2

theorem takesBehind_congr {takes takes' : List Bytes → Prop} (h : ∀ ys, takes ys ↔ takes' ys) :
    TakesBehind front atSegEnd takes x ↔ TakesBehind front atSegEnd takes' x := by
  simp only [TakesBehind, h]

theorem readArmFrom_nil (atStart : Bool) : readArmFrom atStart [] = [some []] := by
  cases atStart <;> decide

/-- Nothing more is taken where the rest is empty. -/
theorem someTakes_nil {ys : List Bytes} : SomeTakes [] maxArms atStart ys ↔ ys = [[]] := by
  have harm (is : List Item) : IsArm [] maxArms is ↔ is = [] := by
    rw [isArm_plain (.inr List.not_mem_nil), items_nil, Option.some.injEq, eq_comm]
  simp only [SomeTakes, harm, exists_eq_left, readArmFrom_nil]
  constructor
  · rintro ⟨rest, ⟨z, rfl, rfl⟩, rfl⟩
    rfl
  · rintro rfl
    exact ⟨[], ⟨[], rfl, rfl⟩, rfl⟩

/-- A literal is its own prefix. -/
theorem takesBehind_literal (h : hoisted s = (front, atSegEnd)) :
    TakesBehind front atSegEnd (SomeTakes [] maxArms atStart) x ↔ x = (literalHead s).text := by
  have hnil (y : Bytes) : y.splitOn slash = [[]] ↔ y = [] := by
    constructor
    · exact fun hsplit => splitOn_injective (a := slash) hsplit
    · rintro rfl
      rfl
  rw [hoisted] at h
  simp only [TakesBehind, someTakes_nil, hnil]
  split at h
  · next hslash =>
    cases h
    obtain ⟨front, htext⟩ := List.getLast?_eq_some_iff.mp hslash
    rw [htext, List.dropLast_concat]
    simp
  · cases h
    simp

/-- A pattern that is accepted matches what one of its arms does. -/
theorem create_match_iff (h : create s maxArms = .ok pat) (x : Bytes) :
    pat.match x = true ↔ Accepts s maxArms x := by
  obtain ⟨hv, hcreated⟩ := create_created h
  cases hcreated with
  | literal hstop =>
    have hrest : s.drop (literalHead s).stop = [] := by rw [hstop, List.drop_length]
    rcases hfront : hoisted s with ⟨front, atSegEnd⟩
    rw [accepts_iff hfront, hrest, takesBehind_literal hfront]
    exact decide_eq_true_iff
  | @arms front atSegEnd braces compiled hstop hback hfront hbraces hcompiled =>
    have hrest := valid_rest hv
    have hsome := someFits_compiled hrest hbraces hcompiled
    obtain ⟨hleft, -⟩ := compiled_spec hrest hbraces hcompiled
    have hroot : (front = [] && !atSegEnd) = true → front = [] ∧ atSegEnd = false := by
      rw [Bool.and_eq_true, decide_eq_true_eq, Bool.not_eq_true']
      exact id
    have hmode := chooseMode_spec atSegEnd (front = [] && !atSegEnd) (compiled.any Prod.snd)
      (compiled.map Prod.fst)
    rw [accepts_iff hfront, match_iff ?_ hmode hroot]
    · exact takesBehind_congr hsome
    · intro hall
      rw [List.any_eq_true] at hall
      obtain ⟨entry, hentry, hflag⟩ := hall
      obtain ⟨is, harm, -, heverything⟩ := hleft entry hentry
      obtain ⟨hr, htakes⟩ := heverything hflag
      refine ⟨hr, fun y => (hsome _).mpr ⟨is, harm, ?_⟩⟩
      obtain ⟨rfl, rfl⟩ := hroot hr
      exact htakes _ (List.splitOn_ne_nil slash y)
    · intro arm hm
      obtain ⟨entry, hentry, rfl⟩ := List.mem_map.mp hm
      obtain ⟨is, -, hspec, -⟩ := hleft entry hentry
      exact hspec.1

/-- `a/**`: a directory and what is in it. -/
private def tree : Bytes := [97, slash, star, star]

private def treeArm : Arm where
  absorbsSeparator := true
  segments := [{ kind := .recursive, tokens := [], nullable := true, optionalRest := true }]

private def treePattern : GlobPattern where
  literalPrefix := [97]
  prefixAtSegEnd := true
  mode := .prefixTree
  arms := [treeArm]

private theorem tree_segments :
    compileSegments true 0 [star, star] = .ok [{ kind := .recursive, tokens := [] }] := by
  have htokens : compileTokens 0 [star, star] [] = .ok ([.star], []) := by
    simp +decide [compileTokens]
  rw [compileSegments]
  split
  · next h =>
    rw [htokens] at h
    cases h
  · next h =>
    rw [htokens] at h
    cases h
    rfl

private theorem create_tree : create tree 0 = .ok treePattern := by
  have hvalid : findInvalidUtf8 0 tree = none := by
    unfold tree
    iterate 4 rw [findInvalidUtf8_ascii (by decide)]
    rw [findInvalidUtf8]
    rfl
  have hhead : literalHead tree = ⟨[97, slash], 2⟩ := rfl
  have hchoice : compileChoice tree 2 true false true [] [] = .ok (treeArm, false) := by
    have htext : piecesText (buildPieces tree 2 [] []) = [star, star] := by decide
    rw [compileChoice, htext, compileArm, tree_segments]
    decide
  unfold create
  rw [hvalid]
  dsimp only
  rw [hhead]
  simp [bracesOf, choicesFrom, hchoice, bind, Except.bind, pure, Except.pure]
  decide

theorem create_match_iff_tree :
    create tree 0 = .ok treePattern ∧
      (treePattern.match [97, slash, 98] = true ↔ Accepts tree 0 [97, slash, 98]) :=
  ⟨create_tree, create_match_iff create_tree _⟩

end Kotatsu.Support.Glob
