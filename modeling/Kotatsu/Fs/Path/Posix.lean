import Kotatsu.Core.SplitOn
import Kotatsu.Fs.Path.Normalize

/-!
# POSIX paths

A POSIX path has no prefix: it starts at the root where it starts with a slash, and its
components are all of its words. What `normalize` leaves is one slash at most and the names
of the reading, which are read as the path is.
-/

namespace Kotatsu.Fs.Path

open Kotatsu.Core

/-- The components, with the empty ones that repeated and trailing slashes make. -/
def pieces (p : Bytes) : List Bytes :=
  let rest := p.drop (rootEnd (root p .posix))
  if rest.isEmpty then [] else rest.splitOn slash

/-- What `normalize` makes of a POSIX path. -/
structure Normalized (p : Bytes) (mode : DotDot) (q : Bytes) : Prop where
  /-- It starts at the root where the path does, with one slash. -/
  rooted : rooted (root q .posix) = rooted (root p .posix)
  directory : (root q .posix).directory.length ≤ 1
  /-- Its components are the names of the reading, which `.` stands for when there are none. -/
  components : components q .posix = reading p mode .posix ∨
    q = dot ∧ reading p mode .posix = []
  /-- It is read as the path is. -/
  reading : reading q mode .posix = reading p mode .posix
  /-- It holds no empty component, and no `.` but alone. -/
  pieces : q = dot ∨ ∀ w ∈ pieces q, w ≠ [] ∧ w ≠ dot
  /-- It climbs before it names anything, and not from a root. -/
  climbs : mode = .fold → ∃ n names,
    Path.components q .posix = List.replicate n dotDot ++ names ∧ dotDot ∉ names ∧
      (Path.rooted (root q .posix) = true → n = 0)
  idempotent : normalize q mode .posix = some q
  length : q.length ≤ p.length

variable {p : Bytes} {mode : DotDot}

theorem separates_posix_none (c : UInt8) : separates .posix .none c = (c == slash) :=
  separates_posix rfl c

theorem rooted_posix (p : Bytes) : rooted (root p .posix) = decide (p.head? = some slash) := by
  have hdir : (root p .posix).directory = p.takeWhile (separates .posix .none) := rfl
  rw [rooted, hdir]
  cases p with
  | nil => rfl
  | cons c p =>
    by_cases hc : c = slash
    · rw [List.takeWhile_cons_of_pos (by rw [separates_posix_none]; simpa using hc)]
      simp [hc]
    · rw [List.takeWhile_cons_of_neg (by rw [separates_posix_none]; simpa using hc)]
      simp [hc, impliesRoot]

/-- The components of a POSIX path are its words. -/
theorem components_posix (p : Bytes) :
    components p .posix = words (separates .posix .none) p := by
  have hsplit := root_text_append p .posix
  rw [components_eq]
  conv_rhs => rw [← hsplit]
  exact (words_seps_append (fun c hc => separates_of_mem_directory hc) _).symm

/-- The separator that is written is the slash. -/
theorem sepOf_posix (p : Bytes) : sepOf p .posix = slash := by
  rw [sepOf, separatorOf, if_neg (by simp [isVerbatim])]
  cases hfind : p.find? (isSeparator · .posix) with
  | none => rfl
  | some c =>
    have hc := List.find?_some hfind
    simpa [isSeparator] using hc

/-- A slash for the root, and the names with a slash between them. -/
def posixText (atRoot : Bool) (names : List Bytes) : Bytes :=
  (if atRoot then [slash] else []) ++ [slash].intercalate names

theorem spelled_posix (p : Bytes) (mode : DotDot) :
    spelled (root p .posix) .posix (sepOf p .posix) (reading p mode .posix) =
      posixText (rooted (root p .posix)) (reading p mode .posix) := by
  rw [spelled, sepOf_posix, rootText, posixText]
  congr 1
  have hname : (root p .posix).name = [] := rfl
  have hkind : impliesRoot (root p .posix).kind = false := rfl
  rw [hname, List.map_nil, List.nil_append, rooted, hkind, Bool.false_or]
  cases (root p .posix).directory.isEmpty <;> rfl

/-- Names that a POSIX path can have. -/
def PlainNames (names : List Bytes) : Prop := ∀ w ∈ names, w ≠ [] ∧ ∀ c ∈ w, c ≠ slash

theorem plainNames_components (p : Bytes) : PlainNames (components p .posix) := by
  intro w hw
  obtain ⟨hne, hsep⟩ := mem_components hw
  exact ⟨hne, fun c hc => by simpa [kind_posix, separates_posix_none] using hsep c hc⟩

theorem plainNames_reading (p : Bytes) (mode : DotDot) : PlainNames (reading p mode .posix) :=
  fun w hw => plainNames_components p w (mem_of_mem_lexical hw)

variable {names : List Bytes}

theorem PlainNames.noSep (h : PlainNames names) :
    ∀ w ∈ names, w ≠ [] ∧ ∀ c ∈ w, separates .posix .none c = false :=
  fun w hw => ⟨(h w hw).1, fun c hc => by
    rw [separates_posix_none]
    simpa using (h w hw).2 c hc⟩

theorem head?_intercalate (h : PlainNames names) :
    ([slash].intercalate names).head? ≠ some slash := by
  cases names with
  | nil => simp
  | cons w names =>
    rw [intercalate_cons]
    obtain ⟨hne, hw⟩ := h w List.mem_cons_self
    obtain ⟨c, w, rfl⟩ := List.exists_cons_of_ne_nil hne
    intro heq
    exact hw c List.mem_cons_self (Option.some.inj heq)

theorem intercalate_ne_nil (h : PlainNames names) (hne : names ≠ []) :
    [slash].intercalate names ≠ [] := by
  obtain ⟨w, names, rfl⟩ := List.exists_cons_of_ne_nil hne
  rw [intercalate_cons]
  exact List.append_ne_nil_of_left_ne_nil (h w List.mem_cons_self).1 _

/-- The directory of a spelled path is its own slash. -/
theorem directory_posixText (atRoot : Bool) (h : PlainNames names) :
    (root (posixText atRoot names) .posix).directory = if atRoot then [slash] else [] := by
  have hnone : ([slash].intercalate names).takeWhile (separates .posix .none) = [] := by
    cases htext : [slash].intercalate names with
    | nil => rfl
    | cons c rest =>
      refine List.takeWhile_cons_of_neg ?_
      have hhead := head?_intercalate h
      rw [htext, List.head?_cons] at hhead
      rw [separates_posix_none]
      simpa using hhead
  have hdir : (root (posixText atRoot names) .posix).directory =
      (posixText atRoot names).takeWhile (separates .posix .none) := rfl
  rw [hdir, posixText]
  cases atRoot with
  | false => exact hnone
  | true =>
    have hcons := List.takeWhile_cons_of_pos (p := separates .posix .none)
      (l := [slash].intercalate names) (show separates .posix .none slash = true from rfl)
    rw [hnone] at hcons
    exact hcons

theorem rooted_posixText (atRoot : Bool) (h : PlainNames names) :
    rooted (root (posixText atRoot names) .posix) = atRoot := by
  rw [rooted, directory_posixText atRoot h]
  cases atRoot <;> rfl

/-- The components of a spelled path are its names. -/
theorem components_posixText (atRoot : Bool) (h : PlainNames names) :
    components (posixText atRoot names) .posix = names := by
  rw [components_posix, posixText, words_seps_append]
  · exact words_intercalate rfl h.noSep
  · intro c hc
    cases atRoot with
    | false => cases hc
    | true =>
      rw [List.mem_singleton.mp hc]
      rfl

theorem pieces_posixText (atRoot : Bool) (h : PlainNames names) :
    pieces (posixText atRoot names) = names := by
  have hdrop : (posixText atRoot names).drop (rootEnd (root (posixText atRoot names) .posix)) =
      [slash].intercalate names := by
    have hname : (root (posixText atRoot names) .posix).name = [] := rfl
    rw [rootEnd, directory_posixText atRoot h, hname, List.length_nil, Nat.zero_add, posixText]
    exact List.drop_left
  rw [pieces, hdrop]
  by_cases hne : names = []
  · subst hne
    rfl
  · rw [if_neg (by simpa using intercalate_ne_nil h hne)]
    exact List.splitOn_intercalate slash (fun w hw hs => (h w hw).2 slash hs rfl) hne

theorem posixText_eq_nil {atRoot : Bool} (h : PlainNames names) :
    posixText atRoot names = [] ↔ atRoot = false ∧ names = [] := by
  rw [posixText, List.append_eq_nil_iff]
  refine and_congr ?_ ?_
  · cases atRoot <;> simp
  · refine ⟨fun htext => ?_, fun hnil => by rw [hnil]; rfl⟩
    by_contra hne
    exact intercalate_ne_nil h hne htext

/-- The path in the buffer: a POSIX path is spelled from its reading. -/
theorem normalize_posix (hp : p ≠ []) (mode : DotDot) :
    normalize p mode .posix = some
      (if posixText (rooted (root p .posix)) (reading p mode .posix) = [] then dot
        else posixText (rooted (root p .posix)) (reading p mode .posix)) := by
  rw [normalize_eq hp, spelled_posix]

theorem normalize_dot (mode : DotDot) : normalize dot mode .posix = some dot := by
  cases mode <;> decide

/-- A spelled path fits into the one it is read from. -/
theorem length_posixText_le (p : Bytes) (mode : DotDot) :
    (posixText (rooted (root p .posix)) (reading p mode .posix)).length ≤ p.length := by
  have hroot := length_rootText_le (root p .posix) .posix (sepOf p .posix)
  have hnames := (keptSpans_inOrder p mode .posix).length_le (sepOf p .posix)
    (rootEnd_le p .posix)
  rw [map_text_keptSpans] at hnames
  rw [← spelled_posix, spelled, List.length_append, reading]
  omega

/-- What `normalize` leaves of a POSIX path is normal, and each name is copied from where
nothing has been written. -/
theorem normalize_spec (p : Bytes) (hp : p ≠ []) (mode : DotDot) :
    (∃ q, normalize p mode .posix = some q ∧ Normalized p mode q) ∧
      ∀ before s after, keptSpans p mode .posix = before ++ s :: after →
        ∃ w, writtenBefore p .posix before = some w ∧ w.length ≤ s.start ∧
          ∀ t ∈ s :: after, t.text w.chars = t.text p := by
  refine ⟨⟨_, normalize_posix hp mode, ?_⟩, fun before s after h => writtenBefore_spec h⟩
  have hnames := plainNames_reading p mode
  by_cases hnil : posixText (rooted (root p .posix)) (reading p mode .posix) = []
  · -- a relative path that says nothing
    obtain ⟨hrel, hread⟩ := (posixText_eq_nil hnames).mp hnil
    rw [if_pos hnil]
    have hpos := List.length_pos_iff.mpr hp
    exact {
      rooted := by rw [hrel]; rfl
      directory := by decide
      components := .inr ⟨rfl, hread⟩
      reading := by
        rw [hread]
        cases mode <;> decide
      pieces := .inl rfl
      climbs := fun _ => ⟨0, [dot], by decide, by decide, fun _ => rfl⟩
      idempotent := normalize_dot mode
      length := hpos }
  · rw [if_neg hnil]
    have hroot := rooted_posixText (rooted (root p .posix)) hnames
    have hcomp := components_posixText (rooted (root p .posix)) hnames
    have hread : reading (posixText (rooted (root p .posix)) (reading p mode .posix)) mode .posix =
        reading p mode .posix := by
      rw [reading, hroot, hcomp]
      exact lexical_lexical mode _ _
    exact {
      rooted := hroot
      directory := by
        rw [directory_posixText _ hnames]
        split <;> decide
      components := .inl hcomp
      reading := hread
      pieces := .inr fun w hw => by
        rw [pieces_posixText _ hnames] at hw
        refine ⟨(hnames w hw).1, ?_⟩
        rintro rfl
        exact dot_notMem_lexical mode _ _ hw
      climbs := fun hmode => by
        subst hmode
        have hdirect := direct_place (rooted (root p .posix)) (components p .posix)
        refine ⟨_, _, hcomp, hdirect.dotDot, fun h => hdirect.climbs ?_⟩
        rwa [hroot] at h
      idempotent := by
        rw [normalize_posix hnil, hread, hroot, if_neg hnil]
      length := length_posixText_le p mode }

example : normalize (ascii "a//b/./../c/") .fold .posix = some (ascii "a/c") := by decide

/-- The spelling `a//b/./../c/` of `a/c`. -/
theorem normalize_spec_probe :
    ∃ q, normalize (ascii "a//b/./../c/") .fold .posix = some q ∧
      Normalized (ascii "a//b/./../c/") .fold q :=
  (normalize_spec (ascii "a//b/./../c/") (by decide) .fold).1

end Kotatsu.Fs.Path
