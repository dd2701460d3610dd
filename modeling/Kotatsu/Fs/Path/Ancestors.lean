import Kotatsu.Fs.Path.Shape

/-!
# A path and its parent

A path is cut before its last name, and before the separators there, but never into its
root. What is left has the same root, so cutting goes on until only the root stays.
-/

namespace Kotatsu.Fs.Path

open Kotatsu.Core

variable {p : Bytes} {style : Style}

/-! ### A root stays what it is -/

theorem startsWithServer_mono {xs : Bytes} (ys : Bytes) (h : startsWithServer xs = true) :
    startsWithServer (xs ++ ys) = true := by
  match xs, h with
  | _ :: _ :: _ :: _, h => exact h

theorem startsWithDrive_mono {xs : Bytes} (ys : Bytes) (h : startsWithDrive xs = true) :
    startsWithDrive (xs ++ ys) = true := by
  match xs, h with
  | _ :: _ :: _, h => exact h

/-- What is behind a prefix may be cut, as long as its separators stay. -/
theorem Shape.cut {kind : Prefix} {name rest rest' : Bytes} (h : Shape kind name rest)
    (hcut : rest' <+: rest) (hdir : rest.takeWhile (separates .windows kind) <+: rest') :
    Shape kind name rest' := by
  obtain ⟨n, rfl⟩ : ∃ n, rest' = rest.take n := ⟨rest'.length, List.prefix_iff_eq_take.mp hcut⟩
  have hdrop : ∀ k, (rest.take n).drop k = (rest.drop k).take (n - k) := fun k => List.drop_take
  cases h with
  | none hserver hdrive =>
    refine .none ?_ ?_
    · rw [Bool.eq_false_iff]
      intro h
      have hwhole := startsWithServer_mono (rest.drop n) h
      rw [List.take_append_drop, hserver] at hwhole
      cases hwhole
    · rw [Bool.eq_false_iff]
      intro h
      have hwhole := startsWithDrive_mono (rest.drop n) h
      rw [List.take_append_drop, hdrive] at hwhole
      cases hwhole
  | drive hletter => exact .drive hletter
  | share hs ht hu hserver hname hmark hrest =>
    exact .share hs ht hu hserver hname hmark (hrest.take n)
  | server hs ht hname hmark hrest hnext =>
    refine .server hs ht hname (fun hm => by rw [hmark hm, List.take_nil]) (hrest.take n) ?_
    rw [hdrop]
    exact hnext.take _
  | device hs ht hc hu hstart hname hrest =>
    exact .device hs ht hc hu hstart hname (hrest.take n)
  | noDevice hs ht hc hu hstart hrest =>
    rename_i s t c u r
    rw [separates_windows rfl, List.takeWhile_cons_of_pos hu] at hdir
    cases n with
    | zero => cases List.prefix_nil.mp hdir
    | succ n => exact .noDevice hs ht hc hu hstart (hrest.take n)
  | verbatimDrive hletter hrest => exact .verbatimDrive hletter (hrest.take n)
  | verbatim hname hunc hdrive hrest => exact .verbatim hname hunc hdrive (hrest.take n)
  | noVerbatim hrest =>
    rw [separates_verbatim rfl, List.takeWhile_cons_of_pos rfl] at hdir
    cases n with
    | zero => cases List.prefix_nil.mp hdir
    | succ n => exact .noVerbatim (hrest.take n)
  | verbatimShare hword hserver hname hrest =>
    exact .verbatimShare hword hserver hname (hrest.take n)
  | verbatimServer hword hname hrest hnext =>
    refine .verbatimServer hword hname (hrest.take n) ?_
    rw [hdrop]
    exact hnext.take _
  | noServer hword hrest hnext hthird =>
    refine .noServer hword (hrest.take n) ?_ ?_
    · rw [hdrop]
      exact hnext.take _
    · rw [hdrop]
      exact hthird.take _

/-- Separators up to what is cut off are the same. -/
theorem takeWhile_of_starts {sep : UInt8 → Bool} {rest rest' : Bytes} (hcut : rest' <+: rest)
    (hdir : rest.takeWhile sep <+: rest') : rest'.takeWhile sep = rest.takeWhile sep := by
  obtain ⟨more, hmore⟩ := hdir
  obtain ⟨tail, rfl⟩ := hcut
  have hall : ∀ c ∈ (rest' ++ tail).takeWhile sep, sep c = true :=
    fun c hc => List.mem_takeWhile_imp hc
  have hnone : (more ++ tail).takeWhile sep = [] := by
    have h : ((rest' ++ tail).takeWhile sep ++ (more ++ tail)).takeWhile sep =
        (rest' ++ tail).takeWhile sep ++ (more ++ tail).takeWhile sep :=
      List.takeWhile_append_of_pos hall
    rw [← List.append_assoc, hmore] at h
    exact List.self_eq_append_right.mp h
  conv_lhs => rw [← hmore]
  rw [List.takeWhile_append_of_pos hall]
  cases more with
  | nil => rw [List.takeWhile_nil, List.append_nil]
  | cons c more =>
    have hc : sep c = false := by
      rw [List.cons_append, List.takeWhile_cons] at hnone
      split at hnone
      · cases hnone
      · next hno => simpa using hno
    rw [List.takeWhile_cons_of_neg (by simp [hc]), List.append_nil]

/-- A path that is cut behind its root keeps its root. -/
theorem root_of_prefix {q : Bytes} (hq : q <+: p) (hroot : (root p style).text <+: q) :
    root q style = root p style := by
  cases style with
  | posix =>
    have hdir : (root p .posix).text = p.takeWhile (separates .posix .none) := rfl
    rw [hdir] at hroot
    rw [root_posix, root_posix, takeWhile_of_starts hq hroot]
  | windows =>
    obtain ⟨rest, hp, hshape⟩ := shape_root p
    obtain ⟨more, hmore⟩ := hroot
    have hqname : q = (root p .windows).name ++ ((root p .windows).directory ++ more) := by
      rw [← hmore, Root.text, List.append_assoc]
    have hcut : (root p .windows).directory ++ more <+: rest := by
      rw [hqname] at hq
      conv at hq => rhs; rw [hp]
      exact (List.prefix_append_right_inj _).mp hq
    have hdir : rest.takeWhile (separates .windows (root p .windows).kind) =
        (root p .windows).directory := by
      have hdrop : p.drop (root p .windows).name.length = rest := drop_of_append hp.symm
      rw [directory_eq, hdrop]
    have hpre : rest.takeWhile (separates .windows (root p .windows).kind) <+:
        (root p .windows).directory ++ more := by
      rw [hdir]
      exact List.prefix_append _ _
    have hq' := (hshape.cut hcut hpre).root
    rw [takeWhile_of_starts hcut hpre, hdir] at hq'
    rw [hqname, hq']

/-! ### The last name -/

/-- Where a loop that goes down stops: at its lowest, or behind a character it does not
look for. -/
theorem retreat_spec (p : Bytes) (look : UInt8 → Bool) {low n : Nat} (hlow : low ≤ n)
    (hn : n ≤ p.length) :
    ∃ m, retreat p look low n = m ∧ low ≤ m ∧ m ≤ n ∧ (∀ c ∈ (p.take n).drop m, look c = true) ∧
      (m = low ∨ ∃ c, low < m ∧ p[m - 1]? = some c ∧ look c = false) := by
  have hself : ∀ k, ∀ c ∈ (p.take k).drop k, look c = true := by
    intro k c hc
    rw [List.drop_eq_nil_of_le (by rw [List.length_take]; omega)] at hc
    cases hc
  induction n with
  | zero => exact ⟨0, rfl, hlow, Nat.le_refl _, hself 0, .inl (by omega)⟩
  | succ n ih =>
    have hget : p[n]? = some p[n] := List.getElem?_eq_getElem hn
    rw [retreat, hget, Option.any_some]
    split
    · next hdown =>
      obtain ⟨m, hm, hge, hle, hall, hstop⟩ := ih (by omega) (by omega)
      refine ⟨m, hm, hge, by omega, fun c hc => ?_, hstop⟩
      have hlen : (p.take n).length = n := by
        rw [List.length_take]
        omega
      rw [List.take_add_one, hget, List.drop_append_of_le_length (by omega)] at hc
      obtain hc | hc := List.mem_append.mp hc
      · exact hall c hc
      · rw [← Option.some.inj (Option.mem_toList.mp hc)]
        exact hdown.2
    · next hstay =>
      refine ⟨n + 1, rfl, hlow, Nat.le_refl _, hself _, ?_⟩
      by_cases heq : low = n + 1
      · exact .inl heq.symm
      · exact .inr ⟨p[n], by omega, hget, by simpa using fun hany => hstay ⟨by omega, hany⟩⟩

/-- A path as `filename` sees it: what comes before the last name, the name, and the
separators behind it. -/
structure Cut (p : Bytes) (style : Style) (before name after : Bytes) : Prop where
  text : p = before ++ (name ++ after)
  root : (root p style).text <+: before
  name_noSep : ∀ c ∈ name, separates style (Path.root p style).kind c = false
  after_sep : ∀ c ∈ after, separates style (Path.root p style).kind c = true
  before_end : before = (Path.root p style).text ∨
    ∃ init c, before = init ++ [c] ∧ (Path.root p style).text <+: init ∧
      separates style (Path.root p style).kind c = true
  empty : name = [] → p = (Path.root p style).text
  start : (filenameSpan p style).start = before.length
  filename : filename p style = name

/-- The path up to a position behind its root. -/
theorem root_prefix_take {n : Nat} (hn : rootEnd (root p style) ≤ n) :
    (root p style).text <+: p.take n := by
  rw [rootEnd_eq] at hn
  exact List.prefix_take_iff.mpr ⟨root_text_prefixes p style, hn⟩

theorem exists_cut_filename (p : Bytes) (style : Style) :
    ∃ before name after, Cut p style before name after := by
  have hle := rootEnd_le p style
  obtain ⟨stop, hstopEq, hstop, hstop', hseps, hstopAt⟩ :=
    retreat_spec p (separates style (root p style).kind) hle (Nat.le_refl _)
  obtain ⟨start, hstartEq, hstart, hstart', hname, hstartAt⟩ :=
    retreat_spec p (!separates style (root p style).kind ·) hstop hstop'
  have hspan : filenameSpan p style = { start := start, stop := stop } := by
    simp only [filenameSpan, trimmedEnd]
    rw [hstopEq, hstartEq]
  have htake : (p.take stop).take start = p.take start := by
    rw [List.take_take, Nat.min_eq_left hstart']
  refine ⟨p.take start, (p.take stop).drop start, p.drop stop, ?_, root_prefix_take hstart,
    fun c hc => by simpa using hname c hc, fun c hc => ?_, ?_, fun hnil => ?_, ?_, ?_⟩
  · rw [← htake, ← List.append_assoc, List.take_append_drop, List.take_append_drop]
  · rw [List.take_length] at hseps
    exact hseps c hc
  · obtain rfl | ⟨c, hlt, hget, hc⟩ := hstartAt
    · left
      rw [rootEnd_eq]
      exact (List.prefix_iff_eq_take.mp (root_text_prefixes p style)).symm
    · right
      refine ⟨p.take (start - 1), c, ?_, root_prefix_take (by omega), by simpa using hc⟩
      have hsucc : start = start - 1 + 1 := by omega
      conv_lhs => rw [hsucc]
      rw [List.take_add_one, hget]
      rfl
  · -- nothing between the two loops: neither has left the root
    have heq : start = stop := by
      have hlen := congrArg List.length hnil
      rw [List.length_drop, List.length_take, List.length_nil] at hlen
      omega
    have hroot : stop = rootEnd (root p style) := by
      obtain heq' | ⟨c, hlt, hget, hc⟩ := hstopAt
      · exact heq'
      · obtain heq' | ⟨d, hlt', hget', hd⟩ := hstartAt
        · omega
        · rw [heq, hget] at hget'
          cases hget'
          rw [hc] at hd
          cases hd
    have hnone : p.drop (rootEnd (root p style)) = [] := by
      cases hdrop : p.drop (rootEnd (root p style)) with
      | nil => rfl
      | cons c rest =>
        have hno := head_after_root p style c (by rw [hdrop]; rfl)
        rw [List.take_length, hroot, hdrop] at hseps
        rw [hseps c List.mem_cons_self] at hno
        cases hno
    have hwhole := root_text_append p style
    rw [hnone, List.append_nil] at hwhole
    exact hwhole.symm
  · rw [hspan, List.length_take]
    dsimp only
    omega
  · rw [filename, hspan, Span.text, Span.size, substr, List.drop_take]

/-- The components are those before the last name, and the last name. -/
theorem Cut.components {before name after : Bytes} (h : Cut p style before name after) :
    components p style =
      words (separates style (Path.root p style).kind)
          (before.drop (rootEnd (Path.root p style))) ++
        if name = [] then [] else [name] := by
  obtain ⟨inner, hinner⟩ := h.root
  have hdrop : before.drop (rootEnd (Path.root p style)) = inner := by
    rw [rootEnd_eq]
    exact drop_of_append hinner
  have htext : p.drop (rootEnd (Path.root p style)) = inner ++ (name ++ after) := by
    rw [rootEnd_eq]
    refine drop_of_append ?_
    rw [← List.append_assoc, hinner]
    exact h.text.symm
  have hlast : words (separates style (Path.root p style).kind) (name ++ after) =
      if name = [] then [] else [name] := by
    rw [words_append_seps h.after_sep]
    split
    · next hnil => rw [hnil, words_nil]
    · next hne => exact words_eq_singleton hne h.name_noSep
  rw [components_eq, htext, hdrop]
  rcases h.before_end with hroot | ⟨init, c, hbefore, ⟨more, hmore⟩, hc⟩
  · have hnil : inner = [] := by
      rw [hroot] at hinner
      exact List.self_eq_append_right.mp hinner.symm
    rw [hnil, List.nil_append, hlast, words_nil, List.nil_append]
  · have hinner' : inner = more ++ [c] := by
      rw [hbefore, ← hmore, List.append_assoc] at hinner
      exact List.append_cancel_left hinner
    rw [hinner', List.append_assoc, List.singleton_append, words_append_cons _ _ hc, hlast,
      words_append_cons _ _ hc, words_nil, List.append_nil]

/-- There is no last name where there is none at all. -/
theorem filename_eq_nil_iff (p : Bytes) (style : Style) :
    filename p style = [] ↔ components p style = [] := by
  obtain ⟨before, name, after, h⟩ := exists_cut_filename p style
  rw [h.filename]
  constructor
  · intro hnil
    have hp := h.empty hnil
    rw [components_eq, rootEnd_eq, ← hp, List.drop_length, words_nil]
  · intro hnone
    rw [h.components, List.append_eq_nil_iff] at hnone
    by_contra hne
    rw [if_neg hne] at hnone
    cases hnone.2

/-! ### The parent -/

/-- The parent is what is before the last name without the separators at its end. -/
theorem parent_spec (hne : filename p style ≠ []) :
    parent p style <+: p ∧ (parent p style).length < p.length ∧
      root (parent p style) style = root p style ∧
      components p style = components (parent p style) style ++ [filename p style] := by
  obtain ⟨before, name, after, h⟩ := exists_cut_filename p style
  have hname : name ≠ [] := h.filename ▸ hne
  have htake : p.take before.length = before := by
    conv_lhs => rw [h.text]
    exact List.take_left
  have hroot := h.root
  have hlow : rootEnd (root p style) ≤ before.length := by
    rw [rootEnd_eq]
    exact hroot.length_le
  obtain ⟨m, hm, hge, hle, hseps, -⟩ :=
    retreat_spec before (separates style (root p style).kind) hlow (Nat.le_refl _)
  have hparent : parent p style = before.take m := by
    rw [parent, if_neg (by simpa using hne), h.start, htake]
    dsimp only
    rw [trimmedEnd, hm]
  have hbefore : before <+: p := ⟨name ++ after, h.text.symm⟩
  have hspells' : before.take m <+: p := (List.take_prefix m before).trans hbefore
  have hkeep : (root p style).text <+: before.take m := by
    rw [rootEnd_eq] at hge
    exact List.prefix_take_iff.mpr ⟨hroot, hge⟩
  have hsame := root_of_prefix hspells' hkeep
  rw [hparent]
  refine ⟨hspells', ?_, hsame, ?_⟩
  · have hlen := congrArg List.length h.text
    have hpos := List.length_pos_iff.mpr hname
    rw [List.length_append, List.length_append] at hlen
    rw [List.length_take]
    omega
  · have hcut : before.drop (rootEnd (root p style)) =
        (before.take m).drop (rootEnd (root p style)) ++ before.drop m := by
      have hwhole := (List.take_append_drop m before).symm
      conv_lhs => rw [hwhole]
      exact List.drop_append_of_le_length (by rw [List.length_take]; omega)
    rw [List.take_length] at hseps
    rw [h.components, if_neg hname, h.filename, components_eq, hsame, hcut,
      words_append_seps hseps]

/-- A path without a last name has no parent. -/
theorem parent_eq_nil (h : filename p style = []) : parent p style = [] := by
  rw [parent, h]
  rfl

theorem length_parent_lt (hp : p ≠ []) : (parent p style).length < p.length := by
  by_cases hname : filename p style = []
  · rw [parent_eq_nil hname]
    exact List.length_pos_iff.mpr hp
  · exact (parent_spec hname).2.1

/-- `ancestors`: the path, and what `operator++` makes of it until nothing is left. -/
def ancestors (p : Bytes) (style : Style) : List Bytes :=
  if _h : p = [] then [] else p :: ancestors (parent p style) style
termination_by p.length
decreasing_by exact length_parent_lt ‹_›

theorem ancestors_nil (style : Style) : ancestors [] style = [] := by
  rw [ancestors, dif_pos rfl]

theorem ancestors_of_ne_nil (hp : p ≠ []) :
    ancestors p style = p :: ancestors (parent p style) style := by
  rw [ancestors, dif_neg hp]

/-- What an ancestor is: the path cut behind its root. -/
theorem ancestor_prefix {q : Bytes} (h : q ∈ ancestors p style) :
    q <+: p ∧ root q style = root p style := by
  induction hn : p.length using Nat.strongRecOn generalizing p with
  | ind n ih =>
    subst hn
    by_cases hp : p = []
    · rw [hp, ancestors_nil] at h
      cases h
    · rw [ancestors_of_ne_nil hp] at h
      obtain rfl | h := List.mem_cons.mp h
      · exact ⟨List.prefix_refl _, rfl⟩
      · by_cases hname : filename p style = []
        · rw [parent_eq_nil hname, ancestors_nil] at h
          cases h
        · obtain ⟨hpre, hlt, hroot, -⟩ := parent_spec hname
          obtain ⟨hq, hqroot⟩ := ih _ hlt h rfl
          exact ⟨hq.trans hpre, hqroot.trans hroot⟩

/-- The ancestors have the components of the path, one fewer each time, and none at last
where there is a root. -/
theorem map_components_ancestors (p : Bytes) (style : Style) :
    (ancestors p style).map (components · style) =
      (components p style).inits.reverse.filter fun names =>
        !(names.isEmpty && (root p style).text.isEmpty) := by
  induction hn : p.length using Nat.strongRecOn generalizing p with
  | ind n ih =>
    subst hn
    by_cases hp : p = []
    · subst hp
      rw [ancestors_nil]
      cases style <;> decide
    · rw [ancestors_of_ne_nil hp]
      by_cases hname : filename p style = []
      · have hnone := (filename_eq_nil_iff p style).mp hname
        obtain ⟨before, name, after, h⟩ := exists_cut_filename p style
        have hroot := h.empty (h.filename.symm.trans hname)
        have htext : (root p style).text.isEmpty = false := by
          rw [← hroot]
          simpa using hp
        rw [parent_eq_nil hname, ancestors_nil, List.map_singleton, hnone, htext]
        rfl
      · obtain ⟨-, hlt, hroot, hcomp⟩ := parent_spec hname
        have hrest := ih _ hlt (parent p style) rfl
        rw [List.map_cons, hrest, hroot, hcomp, List.inits_append]
        simp

/-- A filename is its stem and its extension. -/
theorem stem_append_extension (p : Bytes) (style : Style) :
    stem p style ++ extension p style = filename p style := by
  rw [stem, extension]
  cases extensionDot (filename p style) with
  | none => rw [List.append_nil]
  | some dot => exact List.take_append_drop _ _

/-- A path in either style, with any prefix: its root is where it starts, the last name is
the one behind its parent, which has the same root, and the ancestors are the path with one
component fewer each time. -/
theorem path_spec (p : Bytes) (style : Style) :
    (root p style).text <+: p ∧ (windowsPrefix p).isSome = true ∧
      (filename p style = [] ↔ components p style = []) ∧
      (filename p style = [] → pop p style = (false, p)) ∧
      (filename p style ≠ [] →
        (parent p style <+: p ∧ parent p style ≠ p ∧
          root (parent p style) style = root p style ∧
          components p style = components (parent p style) style ++ [filename p style]) ∧
        pop p style = (true, parent p style)) ∧
      stem p style ++ extension p style = filename p style ∧
      (ancestors p style).map (components · style) =
        ((components p style).inits.reverse.filter fun names =>
          !(names.isEmpty && (root p style).text.isEmpty)) ∧
      ∀ q ∈ ancestors p style, q <+: p ∧ root q style = root p style := by
  refine ⟨root_text_prefixes p style, windowsPrefix_isSome p, filename_eq_nil_iff p style,
    fun hname => ?_, fun hname => ?_, stem_append_extension p style,
    map_components_ancestors p style, fun q hq => ancestor_prefix hq⟩
  · rw [pop, hname]
    rfl
  · obtain ⟨hpre, hlt, hroot, hcomp⟩ := parent_spec hname
    refine ⟨⟨hpre, fun heq => ?_, hroot, hcomp⟩, ?_⟩
    · rw [heq] at hlt
      exact absurd hlt (Nat.lt_irrefl _)
    · rw [pop, if_neg (by simpa using hname), ← List.prefix_iff_eq_take.mp hpre]

end Kotatsu.Fs.Path
