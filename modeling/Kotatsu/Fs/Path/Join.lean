import Kotatsu.Fs.Path.Posix

/-!
# Joining paths and leading from one to another

`push` puts one path behind another, `relative` tells the names that lead from a base to a
path, and `resolve` joins and normalizes. On POSIX the path that `relative` tells, resolved
from the base, is the path it was told for.
-/

namespace Kotatsu.Fs.Path

open Kotatsu.Core

/-- The separator that joins `rest` to a path: the last one of the path, or the first of
`rest`, or a slash. -/
def joinSeparator (path rest : Bytes) (r : Root) (style : Style) : UInt8 :=
  (path.reverse.find? (isSeparator · style)).getD (separatorOf rest r style slash)

/-- The start of the path that `push` keeps, with a separator where one is missing. -/
def pushBase (path rest : Bytes) (b r : Root) (style : Style) : Bytes :=
  if !r.directory.isEmpty then path.take b.name.length
  else
    let endsInSeparator := decide (b.name.length < path.length) &&
      path.getLast?.any (separates style b.kind)
    if !rest.isEmpty && !endsInSeparator &&
        (decide (b.name.length < path.length) || impliesRoot b.kind) then
      path ++ [if isVerbatim b.kind then backslash else joinSeparator path rest r style]
    else path

/-- `push`: what `path` is when `p` has been joined onto it. -/
def push (path p : Bytes) (style : Style) : Bytes :=
  if path.isEmpty || isAbsolute p style then p
  else
    let b := root path style
    let r := root p style
    if r.kind != .none && !samePrefix r b style then p
    else
      let rest := p.drop r.name.length
      pushBase path rest b r style ++
        if isVerbatim b.kind then rest.map fun c => if c = slash then backslash else c else rest

/-- The loop that counts the names two paths start with in common. -/
def commonLength : List Bytes → List Bytes → Nat
  | x :: xs, y :: ys => if x = y then commonLength xs ys + 1 else 0
  | _, _ => 0

/-- The loop that counts the directories to climb out of; none at a `..`. -/
def countClimbs : List Bytes → Option Nat
  | [] => some 0
  | name :: rest =>
    if name = dotDot then none
    else (countClimbs rest).map fun n => if name ≠ dot then n + 1 else n

/-- The loop that writes the climbs. -/
def writeClimbs (sep : UInt8) (climbs : Nat) : Bytes :=
  (List.range climbs).foldl (fun out i => (if i ≠ 0 then out ++ [sep] else out) ++ dotDot) []

/-- The loop that writes the names behind the common ones. -/
def writeNames (sep : UInt8) (out : Bytes) (names : List Bytes) : Bytes :=
  names.foldl (fun out name => (if out.isEmpty then out else out ++ [sep]) ++ name) out

/-- `relative`: what it writes into `out`, none where it returns false. -/
def relative (p base : Bytes) (style : Style) : Option Bytes :=
  let pr := root p style
  let br := root base style
  if !sameRoot pr br style then none
  else
    let a := components p style
    let b := components base style
    let common := commonLength a b
    match countClimbs (b.drop common) with
    | none => none
    | some climbs =>
      if climbs = 0 ∧ common = a.length then some dot
      else
        let sep := separatorOf p pr style (separatorOf base br style slash)
        some (writeNames sep (writeClimbs sep climbs) (a.drop common))

/-- `resolve`. -/
def resolve (p base : Bytes) (mode : DotDot) (style : Style) : Option Bytes :=
  normalize (push base p style) mode style

/-! ### The names that lead from a base to a path -/

/-- Two lists of names are their common names and, behind them, what they do not share. -/
theorem commonLength_spec (xs ys : List Bytes) :
    xs.take (commonLength xs ys) = ys.take (commonLength xs ys) ∧
      commonLength xs ys ≤ xs.length ∧ commonLength xs ys ≤ ys.length ∧
      ∀ x ∈ (xs.drop (commonLength xs ys)).head?,
        (ys.drop (commonLength xs ys)).head? ≠ some x := by
  fun_induction commonLength xs ys with
  | case1 x xs ys ih =>
    obtain ⟨htake, hx, hy, hnext⟩ := ih
    refine ⟨by rw [List.take_succ_cons, List.take_succ_cons, htake], ?_, ?_, hnext⟩
    · rw [List.length_cons]
      omega
    · rw [List.length_cons]
      omega
  | case2 x xs y ys hne =>
    refine ⟨rfl, Nat.zero_le _, Nat.zero_le _, fun z hz heq => hne ?_⟩
    exact (Option.some.inj hz).trans (Option.some.inj heq).symm
  | case3 xs ys hno =>
    refine ⟨rfl, Nat.zero_le _, Nat.zero_le _, fun z hz heq => ?_⟩
    cases xs with
    | nil => cases hz
    | cons x xs =>
      cases ys with
      | nil => cases heq
      | cons y ys => exact hno x xs y ys rfl rfl

theorem countClimbs_eq_none {names : List Bytes} : countClimbs names = none ↔ dotDot ∈ names := by
  induction names with
  | nil => simp [countClimbs]
  | cons name rest ih =>
    rw [countClimbs, List.mem_cons]
    by_cases h : name = dotDot
    · simp [h]
    · rw [if_neg h, Option.map_eq_none_iff, ih]
      simp [Ne.symm h]

/-- The climbs are the names that enter a directory. -/
theorem countClimbs_eq_some {names : List Bytes} {n : Nat} (h : countClimbs names = some n) :
    dotDot ∉ names ∧ n = (names.filter (· ≠ dot)).length := by
  refine ⟨fun hm => ?_, ?_⟩
  · rw [countClimbs_eq_none.mpr hm] at h
    cases h
  induction names generalizing n with
  | nil => exact (Option.some.inj h).symm
  | cons name rest ih =>
    rw [countClimbs] at h
    split at h
    · cases h
    · obtain ⟨m, hm, rfl⟩ := Option.map_eq_some_iff.mp h
      by_cases hd : name = dot
      · rw [if_neg (by simpa using hd), List.filter_cons_of_neg (by simpa using hd), ih hm]
      · rw [if_pos hd, List.filter_cons_of_pos (by simpa using hd), List.length_cons, ih hm]

theorem writeClimbs_eq (sep : UInt8) (climbs : Nat) :
    writeClimbs sep climbs = [sep].intercalate (List.replicate climbs dotDot) := by
  rw [writeClimbs]
  cases climbs with
  | zero => rfl
  | succ n =>
    induction n with
    | zero => rfl
    | succ n ih =>
      rw [List.range_succ, List.foldl_append, ih, List.foldl_cons, List.foldl_nil,
        if_pos (Nat.succ_ne_zero n), List.replicate_succ' (n := n + 1),
        intercalate_concat sep (by simp), List.append_assoc, List.singleton_append]

/-- Names written behind others are joined to them. -/
theorem writeNames_eq (sep : UInt8) (before names : List Bytes)
    (hne : ∀ w ∈ before ++ names, w ≠ []) :
    writeNames sep ([sep].intercalate before) names = [sep].intercalate (before ++ names) := by
  induction names generalizing before with
  | nil => rw [List.append_nil]; rfl
  | cons name names ih =>
    have hstep : (if ([sep].intercalate before).isEmpty then [sep].intercalate before
        else [sep].intercalate before ++ [sep]) ++ name = [sep].intercalate (before ++ [name]) := by
      cases before with
      | nil => simp
      | cons w before =>
        have hw : w ≠ [] := hne w (by simp)
        have htext : ([sep].intercalate (w :: before)).isEmpty = false := by
          rw [intercalate_cons]
          simp [hw]
        rw [htext, if_neg Bool.false_ne_true, intercalate_concat sep (by simp), List.append_assoc,
          List.singleton_append]
    have hrest := ih (before ++ [name]) (by simpa using hne)
    rw [List.append_assoc] at hrest
    rw [writeNames, List.foldl_cons, hstep]
    exact hrest

/-- The names that `relative` writes. -/
def relativeNames (a b : List Bytes) (climbs : Nat) : List Bytes :=
  List.replicate climbs dotDot ++ a.drop (commonLength a b)

/-- `relative` tells the climbs and the names that the base does not share, or `.` where
there are none. -/
theorem relative_eq_some {p base out : Bytes} {style : Style}
    (h : relative p base style = some out) :
    sameRoot (root p style) (root base style) style = true ∧
      ∃ climbs, countClimbs ((components base style).drop
          (commonLength (components p style) (components base style))) = some climbs ∧
        ((out = dot ∧ relativeNames (components p style) (components base style) climbs = []) ∨
          ∃ sep, out = [sep].intercalate
              (relativeNames (components p style) (components base style) climbs) ∧
            sep = separatorOf p (root p style) style
              (separatorOf base (root base style) style slash) ∧
            relativeNames (components p style) (components base style) climbs ≠ []) := by
  rw [relative] at h
  dsimp only at h
  split at h
  · cases h
  · next hroot =>
    refine ⟨by simpa using hroot, ?_⟩
    split at h
    · cases h
    · next climbs hclimbs =>
      refine ⟨climbs, hclimbs, ?_⟩
      have hlen := (commonLength_spec (components p style) (components base style)).2.1
      split at h
      · next hnone =>
        left
        refine ⟨(Option.some.inj h).symm, ?_⟩
        rw [relativeNames, hnone.1, hnone.2, List.drop_length]
        rfl
      · next hsome =>
        right
        refine ⟨_, ?_, rfl, fun hnil => hsome ?_⟩
        · rw [← Option.some.inj h, writeClimbs_eq, writeNames_eq, relativeNames]
          intro w hw
          obtain hw | hw := List.mem_append.mp hw
          · rw [List.eq_of_mem_replicate hw]
            decide
          · exact (mem_components (List.mem_of_mem_drop hw)).1
        · obtain ⟨hzero, hdrop⟩ := List.append_eq_nil_iff.mp hnil
          rw [List.replicate_eq_nil_iff] at hzero
          rw [List.drop_eq_nil_iff] at hdrop
          omega

theorem relative_eq_none {p base : Bytes} {style : Style} :
    relative p base style = none ↔
      sameRoot (root p style) (root base style) style = false ∨
        dotDot ∈ (components base style).drop
          (commonLength (components p style) (components base style)) := by
  rw [relative]
  dsimp only
  cases hroot : sameRoot (root p style) (root base style) style with
  | false => exact iff_of_true rfl (.inl rfl)
  | true =>
    rw [← countClimbs_eq_none, if_neg (by decide)]
    cases countClimbs ((components base style).drop
        (commonLength (components p style) (components base style))) with
    | none => exact iff_of_true rfl (.inr rfl)
    | some climbs =>
      dsimp only
      refine iff_of_false ?_ (by simp)
      split <;> simp

/-- What leads from a base to a path leads there. -/
theorem place_relativeNames (atRoot : Bool) {a b : List Bytes} {climbs : Nat}
    (h : countClimbs (b.drop (commonLength a b)) = some climbs) :
    place atRoot (b ++ relativeNames a b climbs) = place atRoot a := by
  obtain ⟨hdd, hcount⟩ := countClimbs_eq_some h
  have hb : place atRoot b = (b.drop (commonLength a b)).foldl (Place.enter atRoot)
      (place atRoot (b.take (commonLength a b))) := by
    rw [← place_append, List.take_append_drop]
  have hback := Place.foldl_climb_back atRoot (place atRoot (b.take (commonLength a b)))
    (b.drop (commonLength a b)) hdd
  rw [relativeNames, ← List.append_assoc, place_append, place_append, hb, hcount, hback,
    ← (commonLength_spec a b).1, ← place_append, List.take_append_drop]

/-! ### POSIX paths -/

theorem sameRoot_posix (p base : Bytes) :
    sameRoot (root p .posix) (root base .posix) .posix = true ↔
      rooted (root p .posix) = rooted (root base .posix) := by
  rw [sameRoot, Bool.and_eq_true, beq_iff_eq]
  exact and_iff_right rfl

/-- A relative path is joined behind a separator, which the base may already end with. -/
theorem push_posix {path p : Bytes} (hpath : path ≠ []) (hp : p ≠ [])
    (hrel : rooted (root p .posix) = false) :
    push path p .posix =
      if path.getLast? = some slash then path ++ p else path ++ slash :: p := by
  have hdir : (root p .posix).directory.isEmpty = true := by
    rw [rooted, Bool.or_eq_false_iff] at hrel
    simpa using hrel.2
  have habs : isAbsolute p .posix = false := by
    rw [isAbsolute]
    simp only [hdir]
    rfl
  have hempty : path.isEmpty = false := by simpa using hpath
  have hpempty : p.isEmpty = false := by simpa using hp
  have hpos := List.length_pos_iff.mpr hpath
  have hsep : joinSeparator path p (root p .posix) .posix = slash := by
    rw [joinSeparator]
    cases hfind : path.reverse.find? (isSeparator · .posix) with
    | some c =>
      have hc := List.find?_some hfind
      simpa [isSeparator] using hc
    | none =>
      rw [Option.getD_none, separatorOf, if_neg (by simp [isVerbatim])]
      cases hfind' : p.find? (isSeparator · .posix) with
      | none => rfl
      | some c =>
        have hc := List.find?_some hfind'
        simpa [isSeparator] using hc
  have hlast : (path.getLast?.any (separates .posix .none)) =
      decide (path.getLast? = some slash) := by
    cases path.getLast? with
    | none => rfl
    | some c => simp [separates_posix_none, Bool.beq_eq_decide_eq]
  have hname : (root path .posix).name = [] := rfl
  have hname' : (root p .posix).name = [] := rfl
  have hkind : (root path .posix).kind = .none := rfl
  have hkind' : (root p .posix).kind = .none := rfl
  have hverb : isVerbatim Prefix.none = false := rfl
  have hnone : (Prefix.none != Prefix.none) = false := rfl
  rw [push, hempty, habs, Bool.false_or, if_neg Bool.false_ne_true]
  dsimp only
  rw [hkind, hkind', hname', hverb, if_neg Bool.false_ne_true, hnone, Bool.false_and,
    if_neg Bool.false_ne_true, List.length_nil, List.drop_zero, pushBase, hdir, Bool.not_true,
    if_neg Bool.false_ne_true, hname, hkind, hverb, hsep, hpempty, List.length_nil,
    decide_eq_true hpos, hlast]
  by_cases hend : path.getLast? = some slash
  · simp [hend]
  · simp [hend]

/-- Joined behind a base, the names come behind those of the base. -/
theorem components_push_posix {path p : Bytes} (hpath : path ≠ []) (hp : p ≠ [])
    (hrel : rooted (root p .posix) = false) :
    components (push path p .posix) .posix = components path .posix ++ components p .posix ∧
      rooted (root (push path p .posix) .posix) = rooted (root path .posix) := by
  rw [push_posix hpath hp hrel]
  obtain ⟨c, cs, rfl⟩ := List.exists_cons_of_ne_nil hpath
  split
  · next hend =>
    obtain ⟨front, hfront⟩ := List.getLast?_eq_some_iff.mp hend
    refine ⟨?_, by rw [rooted_posix, rooted_posix]; rfl⟩
    rw [hfront, components_posix, components_posix, components_posix, List.append_assoc,
      List.singleton_append, words_append_cons _ _ rfl, words_append_cons _ _ rfl, words_nil,
      List.append_nil]
  · refine ⟨?_, by rw [rooted_posix, rooted_posix]; rfl⟩
    rw [components_posix, components_posix, components_posix, words_append_cons _ _ rfl]

/-- Joined onto nothing, a path is itself. -/
theorem push_nil (p : Bytes) (style : Style) : push [] p style = p := rfl

/-- What `relative` writes is a relative path of the names that it tells. -/
theorem relative_posix {p base out : Bytes} (h : relative p base .posix = some out) :
    out ≠ [] ∧ rooted (root out .posix) = false ∧
      rooted (root p .posix) = rooted (root base .posix) ∧
      ∀ atRoot, place atRoot (components base .posix ++ components out .posix) =
        place atRoot (components p .posix) := by
  obtain ⟨hsame, climbs, hclimbs, hout⟩ := relative_eq_some h
  have hplain : PlainNames
      (relativeNames (components p .posix) (components base .posix) climbs) := by
    intro w hw
    obtain hw | hw := List.mem_append.mp hw
    · rw [List.eq_of_mem_replicate hw]
      exact ⟨List.cons_ne_nil _ _, List.forall_mem_cons.mpr
        ⟨by decide, List.forall_mem_singleton.mpr (by decide)⟩⟩
    · exact plainNames_components p w (List.mem_of_mem_drop hw)
  obtain ⟨rfl, hnil⟩ | ⟨sep, rfl, hsep, hne⟩ := hout
  · refine ⟨by decide, by decide, (sameRoot_posix p base).mp hsame, fun atRoot => ?_⟩
    have hplace := place_relativeNames atRoot hclimbs
    rw [hnil, List.append_nil] at hplace
    rw [show components dot .posix = [dot] by decide, place_append, List.foldl_cons,
      List.foldl_nil, Place.enter_dot, hplace]
  · have hslash : sep = slash := by
      rw [hsep, separatorOf, if_neg (by simp [isVerbatim])]
      cases hfind : p.find? (isSeparator · .posix) with
      | some c =>
        have hc := List.find?_some hfind
        simpa [isSeparator] using hc
      | none => exact sepOf_posix base
    subst hslash
    have htext : posixText false (relativeNames (components p .posix)
        (components base .posix) climbs) = [slash].intercalate (relativeNames
          (components p .posix) (components base .posix) climbs) := List.nil_append _
    rw [← htext]
    refine ⟨fun hnil => hne ((posixText_eq_nil hplain).mp hnil).2,
      rooted_posixText false hplain, (sameRoot_posix p base).mp hsame, fun atRoot => ?_⟩
    rw [components_posixText false hplain]
    exact place_relativeNames atRoot hclimbs

/-- On POSIX `relative` tells a relative path that resolves, from the base, to the path
itself. It fails where one of the two starts at the root and the other does not, and where
the base climbs past the names it shares with the path. -/
theorem relative_spec (p base : Bytes) (hp : p ≠ []) :
    (∀ out, relative p base .posix = some out →
      rooted (root out .posix) = false ∧
        ∃ q, resolve out base .fold .posix = some q ∧ normalize p .fold .posix = some q) ∧
      (relative p base .posix = none ↔
        rooted (root p .posix) ≠ rooted (root base .posix) ∨
          dotDot ∈ (components base .posix).drop
            (commonLength (components p .posix) (components base .posix))) := by
  refine ⟨fun out h => ?_, ?_⟩
  · obtain ⟨hne, hrel, hroot, hplace⟩ := relative_posix h
    refine ⟨hrel, _, ?_, normalize_posix hp .fold⟩
    -- joined onto nothing, the path told is read from where the base would be
    have hjoined : push base out .posix ≠ [] ∧
        rooted (root (push base out .posix) .posix) = rooted (root p .posix) ∧
        reading (push base out .posix) .fold .posix = reading p .fold .posix := by
      by_cases hbase : base = []
      · subst hbase
        have hlist := hplace (rooted (root p .posix))
        rw [show components [] .posix = [] by decide, List.nil_append] at hlist
        rw [push_nil]
        have hsame : rooted (root out .posix) = rooted (root p .posix) := by
          rw [hrel, hroot]
          rfl
        refine ⟨hne, hsame, ?_⟩
        rw [reading, reading, hsame, lexical, lexical, hlist]
      · obtain ⟨hcomp, hrooted⟩ := components_push_posix hbase hne hrel
        refine ⟨?_, hrooted.trans hroot.symm, ?_⟩
        · rw [push_posix hbase hne hrel]
          split
          · exact List.append_ne_nil_of_left_ne_nil hbase _
          · exact List.append_ne_nil_of_left_ne_nil hbase _
        · rw [reading, reading, hcomp, hrooted, ← hroot, lexical, lexical, hplace]
    rw [resolve, normalize_posix hjoined.1, hjoined.2.1, hjoined.2.2]
  · rw [relative_eq_none, ne_eq, ← sameRoot_posix, Bool.not_eq_true]

example : relative (ascii "a/c") (ascii "a/b") .posix = some (ascii "../c") := by decide

/-- From `a/b` to `a/./c`. -/
theorem relative_spec_probe :
    (∀ out, relative (ascii "a/./c") (ascii "a/b") .posix = some out →
      rooted (root out .posix) = false ∧
        ∃ q, resolve out (ascii "a/b") .fold .posix = some q ∧
          normalize (ascii "a/./c") .fold .posix = some q) ∧
      relative (ascii "a/./c") (ascii "a/b") .posix = some (ascii ".././c") := by
  refine ⟨(relative_spec (ascii "a/./c") (ascii "a/b") (by decide)).1, ?_⟩
  decide

end Kotatsu.Fs.Path
