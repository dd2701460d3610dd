import Kotatsu.Core.Words
import Kotatsu.Fs.Path.Root

/-!
# The components of a path

The names behind the root, as views of the path. `components` steps from one to the next,
`filename` looks for the last from the end, and `parent` cuts the path before it. The views
are in order, with a separator between them, and their texts are the words of the path
behind its root.
-/

namespace Kotatsu.Fs.Path

open Kotatsu.Core

/-- A view of a path: from `start` up to `stop`. -/
structure Span where
  start : Nat
  stop : Nat
deriving DecidableEq, Repr

/-- The size of a view. -/
def Span.size (s : Span) : Nat := s.stop - s.start

/-- The text of a view. -/
def Span.text (p : Bytes) (s : Span) : Bytes := substr p s.start s.size

/-- Where the names start. -/
def rootEnd (r : Root) : Nat := r.name.length + r.directory.length

/-- `components_view::iterator::operator++`, from the end of a name on. -/
def nextSpan (p : Bytes) (sep : UInt8 → Bool) (i : Nat) : Span :=
  let start := i + ((p.drop i).takeWhile sep).length
  { start := start, stop := start + ((p.drop start).takeWhile (!sep ·)).length }

/-- The names from a position on, at most `n` of them. -/
def spansFrom (p : Bytes) (sep : UInt8 → Bool) : Nat → Nat → List Span
  | 0, _ => []
  | n + 1, i =>
    if (nextSpan p sep i).start = p.length then []
    else nextSpan p sep i :: spansFrom p sep n (nextSpan p sep i).stop

/-- The views that `components` goes through. A path has no more names than characters. -/
def spans (p : Bytes) (style : Style) : List Span :=
  let r := root p style
  spansFrom p (separates style r.kind) p.length (rootEnd r)

/-- `components`. -/
def components (p : Bytes) (style : Style) : List Bytes := (spans p style).map (Span.text p)

/-- A loop that goes down from `n` to `low` at most, while the character before it is one
of those it looks for. -/
def retreat (p : Bytes) (look : UInt8 → Bool) (low : Nat) : Nat → Nat
  | 0 => 0
  | n + 1 => if low < n + 1 ∧ (p[n]?).any look = true then retreat p look low n else n + 1

/-- `trimmed_end`. -/
def trimmedEnd (p : Bytes) (r : Root) (style : Style) : Nat :=
  retreat p (separates style r.kind) (rootEnd r) p.length

/-- The view that `filename` returns. -/
def filenameSpan (p : Bytes) (style : Style) : Span :=
  let r := root p style
  let stop := trimmedEnd p r style
  { start := retreat p (!separates style r.kind ·) (rootEnd r) stop, stop := stop }

/-- `filename`. -/
def filename (p : Bytes) (style : Style) : Bytes := (filenameSpan p style).text p

/-- `parent`. -/
def parent (p : Bytes) (style : Style) : Bytes :=
  if (filename p style).isEmpty then []
  else
    let before := p.take (filenameSpan p style).start
    before.take (trimmedEnd before (root p style) style)

/-- `name.rfind('.')`. -/
def rfindPeriod (name : Bytes) : Option Nat :=
  (name.reverse.findIdx? (· == period)).map fun n => name.length - 1 - n

/-- `extension_dot`. -/
def extensionDot (name : Bytes) : Option Nat :=
  if name = ascii "." ∨ name = ascii ".." then none
  else if rfindPeriod name = some 0 then none else rfindPeriod name

/-- `stem`. -/
def stem (p : Bytes) (style : Style) : Bytes :=
  match extensionDot (filename p style) with
  | none => filename p style
  | some dot => (filename p style).take dot

/-- `extension`. -/
def extension (p : Bytes) (style : Style) : Bytes :=
  match extensionDot (filename p style) with
  | none => []
  | some dot => (filename p style).drop dot

/-- `pop`: whether it cut a name, and the path. -/
def pop (p : Bytes) (style : Style) : Bool × Bytes :=
  if (filename p style).isEmpty then (false, p) else (true, p.take (parent p style).length)

/-! ### Views of a path -/

variable {p : Bytes} {sep : UInt8 → Bool}

theorem length_nextSpan (p : Bytes) (sep : UInt8 → Bool) {i : Nat} (hi : i ≤ p.length) :
    i ≤ (nextSpan p sep i).start ∧ (nextSpan p sep i).start ≤ (nextSpan p sep i).stop ∧
      (nextSpan p sep i).stop ≤ p.length := by
  have hsep := (List.takeWhile_prefix sep (l := p.drop i)).length_le
  rw [List.length_drop] at hsep
  have hstart : i + ((p.drop i).takeWhile sep).length ≤ p.length := by omega
  have hname := (List.takeWhile_prefix (!sep ·)
    (l := p.drop (i + ((p.drop i).takeWhile sep).length))).length_le
  rw [List.length_drop] at hname
  simp only [nextSpan]
  omega

/-- The step from a position: separators, a name, and what follows it. -/
theorem nextSpan_spec (p : Bytes) (sep : UInt8 → Bool) {i : Nat} (hi : i ≤ p.length) :
    ∃ s, (∀ c ∈ s, sep c = true) ∧ (∀ c ∈ (nextSpan p sep i).text p, sep c = false) ∧
      p.drop i = s ++ ((nextSpan p sep i).text p ++ p.drop (nextSpan p sep i).stop) ∧
      (nextSpan p sep i).start = i + s.length ∧
      (∀ c ∈ (p.drop (nextSpan p sep i).stop).head?, sep c = true) ∧
      ((nextSpan p sep i).start ≠ p.length → (nextSpan p sep i).text p ≠ []) := by
  let s := (p.drop i).takeWhile sep
  let start := i + s.length
  let w := (p.drop start).takeWhile (!sep ·)
  have hdrop : p.drop start = (p.drop i).dropWhile sep := by
    have hcut : p.drop i = s ++ (p.drop i).dropWhile sep := List.takeWhile_append_dropWhile.symm
    have hlen := congrArg (List.drop s.length) hcut
    rwa [List.drop_left, List.drop_drop] at hlen
  have htext : (nextSpan p sep i).text p = w := by
    rw [Span.text, Span.size, nextSpan, substr]
    dsimp only
    rw [Nat.add_sub_cancel_left]
    exact (List.prefix_iff_eq_take.mp (List.takeWhile_prefix _)).symm
  have hstop : p.drop (nextSpan p sep i).stop = (p.drop start).dropWhile (!sep ·) := by
    have hcut : p.drop start = w ++ (p.drop start).dropWhile (!sep ·) :=
      List.takeWhile_append_dropWhile.symm
    have hlen := congrArg (List.drop w.length) hcut
    rwa [List.drop_left, List.drop_drop] at hlen
  refine ⟨s, fun c hc => List.mem_takeWhile_imp hc, fun c hc => ?_, ?_, rfl, fun c hc => ?_,
    fun hne hnil => ?_⟩
  · rw [htext] at hc
    simpa using List.mem_takeWhile_imp hc
  · rw [htext, hstop, List.takeWhile_append_dropWhile, hdrop, List.takeWhile_append_dropWhile]
  · rw [hstop] at hc
    have hnot := List.head?_dropWhile_not (!sep ·) (p.drop start)
    rw [Option.mem_def.mp hc] at hnot
    simpa using hnot
  · rw [htext] at hnil
    have hlt : start < p.length := lt_of_le_of_ne
      ((length_nextSpan p sep hi).2.1.trans (length_nextSpan p sep hi).2.2) hne
    have hnot := List.head?_dropWhile_not sep (p.drop i)
    rw [← hdrop, List.drop_eq_getElem_cons hlt] at hnot
    simp only [List.head?_cons] at hnot
    have hcons : w = p[start] :: (p.drop (start + 1)).takeWhile (!sep ·) := by
      simp only [w]
      rw [List.drop_eq_getElem_cons hlt, List.takeWhile_cons_of_pos (by simp [hnot])]
    rw [hcons] at hnil
    cases hnil

/-- Views in order: the first from `low` on, a separator between each and the next. -/
def InOrder (p : Bytes) (sep : UInt8 → Bool) : Nat → List Span → Prop
  | _, [] => True
  | low, s :: rest =>
    low ≤ s.start ∧ s.start < s.stop ∧ s.stop ≤ p.length ∧
      (∀ c ∈ s.text p, sep c = false) ∧ InOrder p sep (s.stop + 1) rest

theorem InOrder.mono {low low' : Nat} {ss : List Span} (h : InOrder p sep low ss)
    (hle : low' ≤ low) : InOrder p sep low' ss := by
  cases ss with
  | nil => trivial
  | cons s rest => exact ⟨hle.trans h.1, h.2⟩

/-- The names that the iterator gives are in order. Where it goes on from another name, a
separator comes before the next. -/
theorem spansFrom_inOrder (n : Nat) {i low : Nat} (hi : i ≤ p.length)
    (hlow : low ≤ (nextSpan p sep i).start) : InOrder p sep low (spansFrom p sep n i) := by
  induction n generalizing i low with
  | zero => trivial
  | succ n ih =>
    rw [spansFrom]
    split
    · trivial
    · next hne =>
      obtain ⟨hstart, hsize, hstop⟩ := length_nextSpan p sep hi
      obtain ⟨s, hs, hw, hdrop, hstart', hhead, hnil⟩ := nextSpan_spec p sep hi
      have hlt : (nextSpan p sep i).start < (nextSpan p sep i).stop := by
        by_contra hge
        refine hnil hne ?_
        rw [Span.text, Span.size, Nat.sub_eq_zero_of_le (by omega), substr, List.take_zero]
      refine ⟨hlow, hlt, hstop, hw, ?_⟩
      by_cases hend : (nextSpan p sep i).stop = p.length
      · -- nothing comes behind a name at the end
        cases n with
        | zero => trivial
        | succ n =>
          have hlast := length_nextSpan p sep (Nat.le_of_eq hend)
          rw [spansFrom, if_pos (by omega)]
          trivial
      · obtain ⟨s', hs', hw', hdrop', hstart'', hhead', hnil'⟩ := nextSpan_spec p sep hstop
        refine ih hstop ?_
        -- the character behind the name is a separator, so the next name is not at once
        have hne' : s' ≠ [] := by
          rintro rfl
          have hlt' : (nextSpan p sep i).stop < p.length := by omega
          have hcons := List.drop_eq_getElem_cons hlt'
          have hsep : sep p[(nextSpan p sep i).stop] = true :=
            hhead _ (by rw [hcons]; rfl)
          have htext := hnil' (by rw [hstart'', List.length_nil]; omega)
          obtain ⟨c, cs, hc⟩ := List.exists_cons_of_ne_nil htext
          rw [List.nil_append, hcons, hc, List.cons_append, List.cons.injEq] at hdrop'
          have hnot := hw' c (by rw [hc]; exact List.mem_cons_self)
          rw [← hdrop'.1, hsep] at hnot
          cases hnot
        have hpos := List.length_pos_iff.mpr hne'
        omega

/-- The texts that the iterator gives are the words of what is ahead of it. -/
theorem map_text_spansFrom (n : Nat) {i : Nat} (hi : i ≤ p.length) (hn : p.length ≤ i + n) :
    (spansFrom p sep n i).map (Span.text p) = words sep (p.drop i) := by
  induction n generalizing i with
  | zero =>
    rw [List.drop_eq_nil_of_le (by omega)]
    rfl
  | succ n ih =>
    obtain ⟨hstart, hsize, hstop⟩ := length_nextSpan p sep hi
    obtain ⟨s, hs, hw, hdrop, hstart', hhead, hnil⟩ := nextSpan_spec p sep hi
    rw [spansFrom]
    split
    · next heq =>
      have hend : (nextSpan p sep i).stop = p.length := by omega
      have hzero : (nextSpan p sep i).text p = [] := by
        rw [Span.text, Span.size, Nat.sub_eq_zero_of_le (by omega), substr, List.take_zero]
      rw [hdrop, hzero, hend, List.drop_length, List.append_nil, List.append_nil]
      exact (words_eq_nil_iff.mpr hs).symm
    · next hne =>
      have htext := hnil hne
      have hgrow : i < (nextSpan p sep i).stop := by
        by_contra hge
        refine htext ?_
        rw [Span.text, Span.size, Nat.sub_eq_zero_of_le (by omega), substr, List.take_zero]
      rw [List.map_cons, ih hstop (by omega), hdrop, words_seps_append hs,
        words_append htext hw hhead]

/-! ### The names of a path -/

theorem rootEnd_eq (r : Root) : rootEnd r = r.text.length := by
  rw [rootEnd, Root.text, List.length_append]

theorem rootEnd_le (p : Bytes) (style : Style) : rootEnd (root p style) ≤ p.length := by
  obtain ⟨rest, hp, -⟩ := exists_root_append p style
  have hlen := congrArg List.length hp
  rw [List.length_append, ← rootEnd_eq] at hlen
  omega

/-- A path is its root and what is behind it. -/
theorem root_text_append (p : Bytes) (style : Style) :
    (root p style).text ++ p.drop (rootEnd (root p style)) = p := by
  obtain ⟨rest, hp, -⟩ := exists_root_append p style
  rw [rootEnd_eq, drop_of_append hp.symm, ← hp]

theorem root_text_prefixes (p : Bytes) (style : Style) : (root p style).text <+: p :=
  ⟨_, root_text_append p style⟩

/-- What is behind the root does not start with a separator. -/
theorem head_after_root (p : Bytes) (style : Style) :
    ∀ c ∈ (p.drop (rootEnd (root p style))).head?,
      separates style (root p style).kind c = false := by
  obtain ⟨rest, hp, hhead⟩ := exists_root_append p style
  rwa [rootEnd_eq, drop_of_append hp.symm]

/-- The components are the words behind the root. -/
theorem components_eq (p : Bytes) (style : Style) :
    components p style =
      words (separates style (root p style).kind) (p.drop (rootEnd (root p style))) :=
  map_text_spansFrom _ (rootEnd_le p style) (Nat.le_add_left _ _)

theorem spans_inOrder (p : Bytes) (style : Style) :
    InOrder p (separates style (root p style).kind) (rootEnd (root p style)) (spans p style) :=
  spansFrom_inOrder _ (rootEnd_le p style)
    (length_nextSpan p _ (rootEnd_le p style)).1

/-- A component is not empty and holds no separator. -/
theorem mem_components {p : Bytes} {style : Style} {w : Bytes} (h : w ∈ components p style) :
    w ≠ [] ∧ ∀ c ∈ w, separates style (root p style).kind c = false := by
  rw [components_eq] at h
  exact mem_words h

end Kotatsu.Fs.Path
