import Kotatsu.Fs.Path.Root

/-!
# A POSIX file system

What the calls of the walks and of removal do on a file system that nothing else changes and
where every operation is permitted. A path is resolved a name at a time, through links up to
its last name; the last name is looked up, opened or unlinked in the directory reached.
-/

namespace Kotatsu.Fs

open Kotatsu.Core Kotatsu.Fs.Path

/-- `FileType`. -/
inductive FileType where
  | regular
  | directory
  | symlink
  | character
  | block
  | fifo
  | socket
  | unknown
deriving DecidableEq, Repr

/-- What tells a file from every other: its device and its inode. -/
structure FileId where
  device : Nat
  inode : Nat
deriving DecidableEq

/-- A file: a directory with the one it is in and its entries, a link, or any other. -/
inductive File where
  | directory (parent : FileId) (entries : List (Bytes × FileId))
  | link (target : Bytes)
  | other (type : FileType)

def File.type : File → FileType
  | .directory _ _ => .directory
  | .link _ => .symlink
  | .other type => type

/-- A directory without the entry of a name. -/
def File.erase (name : Bytes) : File → File
  | .directory parent entries => .directory parent (entries.filter (·.1 ≠ name))
  | file => file

/-- A directory without its entries. -/
def File.empty : File → File
  | .directory parent _ => .directory parent []
  | file => file

/-- The errors of the calls. -/
inductive Errno where
  | enoent
  | enotdir
  | eloop
  | enotempty
  | eisdir
  | einval
deriving DecidableEq

/-- A file system as a process sees it: the files, the root and the current directory, how
many names a path may lead through, and the entries listed without their type. -/
structure System where
  files : FileId → Option File
  top : FileId
  current : FileId
  limit : Nat
  hides : FileId → Bytes → Bool

/-- The names of a path. -/
def pathNames (path : Bytes) : List Bytes := (path.splitOn slash).filter (· ≠ [])

namespace System

variable (s : System)

/-- The file one name of a path leads to. -/
def enter (dir : FileId) (name : Bytes) : Except Errno FileId :=
  match s.files dir with
  | none => .error .enoent
  | some (.directory parent entries) =>
    if name = dot then .ok dir
    else if name = dotDot then .ok parent
    else (entries.lookup name).elim (.error .enoent) .ok
  | some _ => .error .enotdir

/-- Where a path starts. -/
def start (dir : FileId) (path : Bytes) : FileId := if path.head? = some slash then s.top else dir

/-- The directory that names lead to. -/
def resolve : Nat → FileId → List Bytes → Except Errno FileId
  | _, dir, [] => .ok dir
  | 0, _, _ :: _ => .error .eloop
  | limit + 1, dir, name :: names =>
    match s.enter dir name with
    | .error code => .error code
    | .ok next =>
      match s.files next with
      | some (.link target) => resolve limit (s.start dir target) (pathNames target ++ names)
      | _ => resolve limit next names

/-- The directory a path, which ends in no separator, names a file in, and its last name. -/
def locate (dir : FileId) (path : Bytes) : Except Errno (FileId × Bytes) :=
  match (pathNames path).getLast? with
  | none => .error .enoent
  | some name => (s.resolve s.limit (s.start dir path) (pathNames path).dropLast).map (·, name)

/-- `fstatat` with `AT_SYMLINK_NOFOLLOW`. -/
def find (dir : FileId) (path : Bytes) : Except Errno FileId :=
  (s.locate dir path).bind fun at' => s.enter at'.1 at'.2

/-- `S_ISDIR`. -/
def isDirectory (id : FileId) : Bool := (s.files id).any (·.type == .directory)

/-- `openat` with `O_DIRECTORY` and `O_NOFOLLOW`. -/
def openDirectory (dir : FileId) (path : Bytes) : Except Errno FileId :=
  (s.find dir path).bind fun id =>
    match s.files id with
    | some (.directory _ _) => .ok id
    | some (.link _) => .error .eloop
    | some (.other _) => .error .enotdir
    | none => .error .enoent

/-- The system without an entry, and without the directory it was the only entry of. -/
def without (dir : FileId) (name : Bytes) (gone : Option FileId) : System :=
  { s with
    files := fun id =>
      if gone = some id then none
      else if id = dir then (s.files id).map (File.erase name)
      else s.files id }

/-- `unlinkat`, with `AT_REMOVEDIR` or not, and the entry it removed. -/
def unlink (dir : FileId) (path : Bytes) (directory : Bool) :
    Except Errno (System × FileId × Bytes) :=
  (s.locate dir path).bind fun (dir, name) =>
    if name = dot then .error .einval
    else if name = dotDot then .error .enotempty
    else
      (s.enter dir name).bind fun id =>
        match s.files id, directory with
        | some (.directory _ []), true => .ok (s.without dir name (some id), dir, name)
        | some (.directory _ (_ :: _)), true => .error .enotempty
        | some (.directory _ _), false => .error .eisdir
        | some _, true => .error .enotdir
        | some _, false => .ok (s.without dir name none, dir, name)
        | none, _ => .error .enoent

end System

/-- A name a directory lists. -/
structure Ordinary (name : Bytes) : Prop where
  nonempty : name ≠ []
  plain : slash ∉ name
  notDot : name ≠ dot
  notDotDot : name ≠ dotDot

theorem pathNames_name {name : Bytes} (hne : name ≠ []) (hplain : slash ∉ name) :
    pathNames name = [name] := by
  rw [pathNames, List.splitOn_eq_singleton hplain, List.filter_cons_of_pos (by simpa using hne),
    List.filter_nil]

namespace System

variable {s : System} {dir id parent : FileId} {name : Bytes} {entries : List (Bytes × FileId)}

/-- A name is looked up in the directory itself. -/
theorem locate_name (hne : name ≠ []) (hplain : slash ∉ name) :
    s.locate dir name = .ok (dir, name) := by
  have hstart : s.start dir name = dir := by
    refine if_neg fun hhead => hplain ?_
    exact List.mem_of_mem_head? hhead
  rw [locate, pathNames_name hne hplain, List.getLast?_singleton, List.dropLast_singleton]
  dsimp only
  rw [hstart, resolve.eq_def]
  rfl

theorem enter_entry (hfile : s.files dir = some (.directory parent entries))
    (hname : Ordinary name) (hentry : entries.lookup name = some id) :
    s.enter dir name = .ok id := by
  rw [enter, hfile]
  dsimp only
  rw [if_neg hname.notDot, if_neg hname.notDotDot, hentry, Option.elim_some]

theorem enter_dotDot (hfile : s.files dir = some (.directory parent entries)) :
    s.enter dir dotDot = .ok parent := by
  rw [enter, hfile]
  rfl

theorem find_name (hname : Ordinary name) : s.find dir name = s.enter dir name := by
  rw [find, locate_name hname.nonempty hname.plain]
  rfl

variable {path : Bytes} {s' : System}

theorem openDirectory_eq (hfind : s.find dir path = .ok id)
    (hfile : s.files id = some (.directory parent entries)) :
    s.openDirectory dir path = .ok id := by
  rw [openDirectory, hfind, Except.bind, hfile]

/-- The directory a directory is in, opened through `..`. -/
theorem openDirectory_dotDot {above : FileId} {others : List (Bytes × FileId)}
    (hfile : s.files dir = some (.directory parent entries))
    (hparent : s.files parent = some (.directory above others)) :
    s.openDirectory dir dotDot = .ok parent := by
  refine openDirectory_eq ?_ hparent
  rw [find, locate_name (by decide) (by decide), Except.bind, enter_dotDot hfile]

/-- A system that lost directories, or entries of them, and nothing else. -/
structure Loses (s s' : System) : Prop where
  top : s'.top = s.top
  limit : s'.limit = s.limit
  files : ∀ id, s'.files id = s.files id ∨ ∃ parent entries,
    s.files id = some (.directory parent entries) ∧
      (s'.files id = none ∨ s'.files id = some (.directory parent []))

theorem Loses.enter (h : Loses s s') (hentry : s'.enter dir name = .ok id) :
    s.enter dir name = .ok id := by
  obtain hsame | ⟨parent, entries, hfile, hgone | hempty⟩ := h.files dir
  · rw [System.enter, ← hsame]
    exact hentry
  · rw [System.enter, hgone] at hentry
    exact nomatch hentry
  · rw [System.enter, hempty] at hentry
    rw [System.enter, hfile]
    dsimp only at hentry ⊢
    split at hentry
    · next hdot => rw [if_pos hdot, hentry]
    · next hdot =>
      split at hentry
      · next hdots => rw [if_neg hdot, if_pos hdots, hentry]
      · exact nomatch hentry

/-- A path that still leads somewhere leads where it did. -/
theorem Loses.resolve (h : Loses s s') {limit : Nat} {names : List Bytes}
    (hends : s'.resolve limit dir names = .ok id) : s.resolve limit dir names = .ok id := by
  induction limit generalizing dir names with
  | zero =>
    cases names with
    | nil => exact hends
    | cons name names => exact nomatch hends
  | succ limit ih =>
    cases names with
    | nil => exact hends
    | cons name names =>
      rw [System.resolve] at hends ⊢
      cases hentry : s'.enter dir name with
      | error code =>
        rw [hentry] at hends
        exact nomatch hends
      | ok next =>
        rw [hentry] at hends
        rw [h.enter hentry]
        dsimp only at hends ⊢
        have hstart : ∀ target, s'.start dir target = s.start dir target := fun target => by
          rw [start, start, h.top]
        obtain hsame | ⟨parent, entries, hfile, hgone | hempty⟩ := h.files next
        · rw [hsame] at hends
          split at hends
          · next target htarget =>
            rw [hstart] at hends
            exact ih hends
          · exact ih hends
        · rw [hgone] at hends
          rw [hfile]
          exact ih hends
        · rw [hempty] at hends
          rw [hfile]
          exact ih hends

theorem Loses.locate (h : Loses s s') {at' : FileId × Bytes} (hat : s'.locate dir path = .ok at') :
    s.locate dir path = .ok at' := by
  rw [System.locate] at hat ⊢
  cases hlast : (pathNames path).getLast? with
  | none =>
    rw [hlast] at hat
    exact nomatch hat
  | some name =>
    rw [hlast] at hat
    dsimp only at hat ⊢
    rw [h.limit, start, h.top] at hat
    rw [start]
    cases hends : s'.resolve s.limit (if path.head? = some slash then s.top else dir)
        (pathNames path).dropLast with
    | error code =>
      rw [hends] at hat
      exact nomatch hat
    | ok id => rwa [h.resolve hends, ← hends]

/-- An empty directory goes. -/
theorem unlink_directory {at' : FileId} (hat : s.locate at' path = .ok (dir, name))
    (hname : Ordinary name) (hentry : s.enter dir name = .ok id)
    (hfile : s.files id = some (.directory parent [])) :
    s.unlink at' path true = .ok (s.without dir name (some id), dir, name) := by
  rw [unlink, hat, Except.bind]
  dsimp only
  rw [if_neg hname.notDot, if_neg hname.notDotDot, hentry, Except.bind, hfile]

/-- Any other file goes. -/
theorem unlink_other {at' : FileId} (hat : s.locate at' path = .ok (dir, name))
    (hname : Ordinary name) (hentry : s.enter dir name = .ok id) {type : FileType}
    (hfile : (s.files id).map File.type = some type) (htype : type ≠ .directory) :
    s.unlink at' path false = .ok (s.without dir name none, dir, name) := by
  obtain ⟨file, hfile, htype'⟩ := Option.map_eq_some_iff.mp hfile
  rw [unlink, hat, Except.bind]
  dsimp only
  rw [if_neg hname.notDot, if_neg hname.notDotDot, hentry, Except.bind, hfile]
  cases file with
  | directory parent entries => exact absurd htype'.symm htype
  | link target => rfl
  | other type => rfl

end System

end Kotatsu.Fs
