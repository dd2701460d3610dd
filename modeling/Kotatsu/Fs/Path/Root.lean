import Kotatsu.Core.Bytes

/-!
# The root of a path

Paths as text, spelled in the POSIX or the Windows style. A path starts with its root: on
Windows maybe a prefix, then in either style the separators up to the first name. The
prefix of an incomplete root, such as `\\.\`, is trimmed of its separators by a loop that
reads the path backwards; no result stands for one that would read before the start.
-/

namespace Kotatsu.Fs.Path

open Kotatsu.Core

/-- `'/'`. -/
def slash : UInt8 := 0x2F

/-- `'\\'`. -/
def backslash : UInt8 := 0x5C

/-- `':'`. -/
def colon : UInt8 := 0x3A

/-- `'.'`. -/
def period : UInt8 := 0x2E

/-- `.` -/
def dot : Bytes := [period]

/-- `..` -/
def dotDot : Bytes := [period, period]

/-- `'?'`. -/
def question : UInt8 := 0x3F

/-- `Style`. -/
inductive Style where
  | posix
  | windows
deriving DecidableEq, Repr

/-- `Prefix`. -/
inductive Prefix where
  | none
  | drive
  | unc
  | device
  | verbatimDrive
  | verbatimUnc
  | verbatim
deriving DecidableEq, Repr

/-- `Root`: the prefix and the separators behind it, as written. -/
structure Root where
  kind : Prefix
  name : Bytes
  directory : Bytes
deriving DecidableEq, Repr

/-- A path without a root. -/
def Root.empty : Root := { kind := .none, name := [], directory := [] }

/-- The text of the root. -/
def Root.text (r : Root) : Bytes := r.name ++ r.directory

/-- `is_ascii_letter`. -/
def isAsciiLetter (c : UInt8) : Bool :=
  (97 ≤ c.toNat && c.toNat ≤ 122) || (65 ≤ c.toNat && c.toNat ≤ 90)

/-- `ascii_lower`. -/
def asciiLower (c : UInt8) : UInt8 := if 65 ≤ c.toNat ∧ c.toNat ≤ 90 then c + 32 else c

/-- `is_verbatim`. -/
def isVerbatim : Prefix → Bool
  | .verbatimDrive | .verbatimUnc | .verbatim => true
  | _ => false

/-- `implies_root`. -/
def impliesRoot : Prefix → Bool
  | .none | .drive => false
  | _ => true

/-- `is_separator`. -/
def isSeparator (c : UInt8) (style : Style) : Bool :=
  c == slash || (style == .windows && c == backslash)

/-- `separates`. -/
def separates (style : Style) (kind : Prefix) (c : UInt8) : Bool :=
  if isVerbatim kind then c == backslash else isSeparator c style

/-- `name_end`. -/
def nameEnd (p : Bytes) (i : Nat) (style : Style) : Nat :=
  i + ((p.drop i).takeWhile fun c => !isSeparator c style).length

/-- The trimming loop of `prefix_of`: down from an end while a separator is before it. -/
def trim (p : Bytes) (kind : Prefix) : Nat → Option Nat
  | 0 => none
  | n + 1 => if (p[n]?).any (separates .windows kind) then trim p kind n else some (n + 1)

/-- `prefix_of`. -/
def prefixOf (p : Bytes) (kind : Prefix) (stop : Nat) : Option Root :=
  (trim p kind stop).map fun n => { kind := kind, name := p.take n, directory := [] }

/-- `component_end`: the next `'\\'`, or the end of the path. -/
def componentEnd (p : Bytes) (i : Nat) : Nat :=
  match (p.drop i).findIdx? (· == backslash) with
  | some n => i + n
  | none => p.length

/-- `\\?\`. -/
def verbatimStart : Bytes := [backslash, backslash, question, backslash]

/-- `starts_with_insensitive("unc")`. -/
def startsWithUnc (rest : Bytes) : Bool := (rest.take 3).map asciiLower == ascii "unc"

/-- A drive letter and a colon. -/
def startsWithDrive : Bytes → Bool
  | letter :: c :: _ => isAsciiLetter letter && c == colon
  | _ => false

/-- The next character, if there is one, is a `'\\'`. -/
def endsVerbatim (rest : Bytes) : Bool :=
  match rest with
  | [] => true
  | c :: _ => c == backslash

/-- A separator of Windows, either way. -/
def isSep (c : UInt8) : Bool := c == slash || c == backslash

/-- `windows_prefix` of a path that starts with `\\?\`. -/
def verbatimPrefix (p : Bytes) : Option Root :=
  let rest := p.drop 4
  if startsWithUnc rest && endsVerbatim (rest.drop 3) then
    let serverEnd := componentEnd p (min p.length 8)
    let shareEnd := if serverEnd < p.length then componentEnd p (serverEnd + 1) else serverEnd
    prefixOf p .verbatimUnc shareEnd
  else if startsWithDrive rest && endsVerbatim (rest.drop 2) then prefixOf p .verbatimDrive 6
  else prefixOf p .verbatim (componentEnd p 4)

/-- Two separators, `.` or `?`, and a separator. -/
def startsWithDevice : Bytes → Bool
  | s :: t :: c :: u :: _ => isSep s && isSep t && (c == period || c == question) && isSep u
  | _ => false

/-- Two separators, and a character that is none. -/
def startsWithServer : Bytes → Bool
  | s :: t :: c :: _ => isSep s && isSep t && !isSep c
  | _ => false

/-- `windows_prefix` of a path that starts with a server. -/
def uncPrefix (p : Bytes) : Option Root :=
  let serverEnd := nameEnd p 2 .windows
  if serverEnd + 1 < p.length && !(p[serverEnd + 1]?).any isSep then
    prefixOf p .unc (nameEnd p (serverEnd + 1) .windows)
  else prefixOf p .unc serverEnd

/-- `windows_prefix`. -/
def windowsPrefix (p : Bytes) : Option Root :=
  if verbatimStart.isPrefixOf p then verbatimPrefix p
  else if startsWithDevice p then prefixOf p .device (nameEnd p 4 .windows)
  else if startsWithServer p then uncPrefix p
  else if startsWithDrive p then prefixOf p .drive 2
  else some .empty

/-- `root`. -/
def root (p : Bytes) (style : Style) : Root :=
  let result :=
    match style with
    | .windows => (windowsPrefix p).getD .empty
    | .posix => .empty
  { result with
    directory := (p.drop result.name.length).takeWhile (separates style result.kind) }

/-- `rooted`. -/
def rooted (r : Root) : Bool := impliesRoot r.kind || !r.directory.isEmpty

/-- `is_absolute`. -/
def isAbsolute (p : Bytes) (style : Style) : Bool :=
  let r := root p style
  impliesRoot r.kind || (r.kind == .drive && !r.directory.isEmpty) ||
    (style == .posix && !r.directory.isEmpty)

/-- The positions of `same_prefix`, one in each name. -/
def sameChar (style : Style) (a b : Prefix) (x y : UInt8) : Bool :=
  (separates style a x && separates style b y) || asciiLower x == asciiLower y

/-- `same_prefix`. -/
def samePrefix (a b : Root) (style : Style) : Bool :=
  a.kind == b.kind && a.name.length == b.name.length &&
    (a.name.zip b.name).all fun xy => sameChar style a.kind b.kind xy.1 xy.2

/-- `same_root`. -/
def sameRoot (a b : Root) (style : Style) : Bool :=
  samePrefix a b style && rooted a == rooted b

/-- `separator_of`. -/
def separatorOf (p : Bytes) (r : Root) (style : Style) (fallback : UInt8) : UInt8 :=
  if isVerbatim r.kind then backslash else (p.find? (isSeparator · style)).getD fallback

/-! ### The directory -/

variable {kind : Prefix} {p : Bytes}

theorem separates_of_not_verbatim (h : isVerbatim kind = false) (style : Style) :
    separates style kind = (isSeparator · style) := by
  funext c
  rw [separates, h]
  rfl

theorem separates_posix (h : isVerbatim kind = false) (c : UInt8) :
    separates .posix kind c = (c == slash) := by
  rw [separates_of_not_verbatim h]
  simp [isSeparator]

@[simp] theorem root_posix (p : Bytes) :
    root p .posix =
      { kind := .none, name := [], directory := p.takeWhile (separates .posix .none) } := rfl

/-- A POSIX path has no prefix. -/
theorem kind_posix (p : Bytes) : (root p .posix).kind = .none := rfl

/-- What the name of the root is followed by. -/
theorem directory_eq (p : Bytes) (style : Style) :
    (root p style).directory =
      (p.drop (root p style).name.length).takeWhile (separates style (root p style).kind) := by
  cases style <;> rfl

/-- The directory holds separators only. -/
theorem separates_of_mem_directory {style : Style} {c : UInt8} (h : c ∈ (root p style).directory) :
    separates style (root p style).kind c = true := by
  rw [directory_eq] at h
  exact List.mem_takeWhile_imp h

theorem drop_of_append {xs ys p : Bytes} (h : xs ++ ys = p) : p.drop xs.length = ys := by
  rw [← h, List.drop_left]

theorem prefixOf_name {stop : Nat} {r : Root} (h : prefixOf p kind stop = some r) :
    r.name <+: p := by
  obtain ⟨n, -, rfl⟩ := Option.map_eq_some_iff.mp h
  exact List.take_prefix n p

/-- The prefix of a path is where the path starts. -/
theorem windowsPrefix_name {r : Root} (h : windowsPrefix p = some r) : r.name <+: p := by
  rw [windowsPrefix] at h
  split at h
  · rw [verbatimPrefix] at h
    dsimp only at h
    split at h
    · exact prefixOf_name h
    · split at h
      · exact prefixOf_name h
      · exact prefixOf_name h
  · split at h
    · exact prefixOf_name h
    · split at h
      · rw [uncPrefix] at h
        split at h
        · exact prefixOf_name h
        · exact prefixOf_name h
      · split at h
        · exact prefixOf_name h
        · cases h
          exact List.nil_prefix

theorem name_prefix (p : Bytes) (style : Style) : (root p style).name <+: p := by
  cases style with
  | posix => exact List.nil_prefix
  | windows =>
    have hname : (root p .windows).name = ((windowsPrefix p).getD .empty).name := rfl
    rw [hname]
    cases h : windowsPrefix p with
    | none => exact List.nil_prefix
    | some r => exact windowsPrefix_name h

/-- A path is its root, and what does not start with a separator. -/
theorem exists_root_append (p : Bytes) (style : Style) :
    ∃ rest, p = (root p style).text ++ rest ∧
      ∀ c ∈ rest.head?, separates style (root p style).kind c = false := by
  obtain ⟨tail, htail⟩ := name_prefix p style
  have hdrop : p.drop (root p style).name.length = tail := drop_of_append htail
  refine ⟨tail.dropWhile (separates style (root p style).kind), ?_, fun c hc => ?_⟩
  · rw [Root.text, directory_eq, hdrop, List.append_assoc, List.takeWhile_append_dropWhile, htail]
  · have hnot := List.head?_dropWhile_not (separates style (root p style).kind) tail
    rw [Option.mem_def.mp hc] at hnot
    simpa using hnot

/-- A trim ends at the last byte before it that is no separator. -/
theorem trim_of_all {n m : Nat} (hm : m < n) (hlast : (p[m]?).any (separates .windows kind) = false)
    (hall : ∀ i, m < i → i < n → (p[i]?).any (separates .windows kind) = true) :
    trim p kind n = some (m + 1) := by
  induction n with
  | zero => omega
  | succ n ih =>
    rw [trim]
    by_cases heq : m = n
    · rw [← heq, hlast]
      rfl
    · rw [if_pos (hall n (by omega) (by omega))]
      exact ih (by omega) fun i hi hlt => hall i hi (by omega)

end Kotatsu.Fs.Path
