import Kotatsu.Core.Bytes
import Mathlib.Logic.Function.Basic

/-!
# Snapshots

A snapshot file is a header between two separators, and a body with a newline behind it.
`checkImpl` reads the file of a snapshot, compares its body with a value, and writes the
file where there is none or where snapshots are updated; it keeps the date the file records.
-/

namespace Kotatsu.Zest

open Kotatsu.Core

/-! ## Paths -/

/-- `path::filename`. -/
def fileName (path : Bytes) : Bytes := (path.reverse.takeWhile (· ≠ 0x2F)).reverse

/-- `path::parent_path`. -/
def parentPath (path : Bytes) : Bytes :=
  let front := path.take (path.length - (fileName path).length)
  let stripped := (front.reverse.dropWhile (· = 0x2F)).reverse
  if stripped = [] then front else stripped

/-- `path::stem`, of a file name. -/
def stem (name : Bytes) : Bytes :=
  let extension := name.reverse.takeWhile (· ≠ 0x2E)
  let front := name.take (name.length - extension.length - 1)
  if name = ascii ".." ∨ front = [] then name else front

/-- `operator/` of two paths. -/
def joined (parent name : Bytes) : Bytes :=
  if parent = [] ∨ parent.getLast? = some 0x2F then parent ++ name
  else parent ++ 0x2F :: name

/-! ## Files -/

/-- The files that a check may read and write, and what the system lets it do. -/
structure Disk where
  file : Bytes → Option Bytes
  writable : Bytes → Bool
  renames : Bytes → Bytes → Bool

/-- A file is written, or removed. -/
def Disk.set (disk : Disk) (path : Bytes) (content : Option Bytes) : Disk :=
  { disk with file := Function.update disk.file path content }

/-- What a check prints. -/
inductive Event where
  | migrated (old new : Bytes)
  | created (path : Bytes)
  | updated (path : Bytes)
deriving DecidableEq

/-- The line that is printed. -/
def Event.line : Event → Bytes
  | .migrated old new => ascii "[snapshot] migrated " ++ old ++ ascii " -> " ++ new ++ ascii "\n"
  | .created path => ascii "[snapshot] created " ++ path ++ ascii "\n"
  | .updated path => ascii "[snapshot] updated " ++ path ++ ascii "\n"

/-! ## Dates -/

/-- `std::chrono::year_month_day`. -/
structure Date where
  year : Nat
  month : Nat
  day : Nat

/-- A number of at least `width` digits. -/
def padded (width n : Nat) : Bytes :=
  List.replicate (width - (decimal n).length) 0x30 ++ decimal n

/-- `std::format("{:%Y-%m-%d}", ymd)`. -/
def Date.text (date : Date) : Bytes :=
  padded 4 date.year ++ ascii "-" ++ padded 2 date.month ++ ascii "-" ++ padded 2 date.day

/-! ## The format -/

/-- `SnapData`. -/
structure SnapData where
  body : Bytes
  createdAt : Bytes
deriving DecidableEq

/-- `separator`. -/
def separator : Bytes := ascii "---\n"

/-- `ca_prefix`. -/
def caPrefix : Bytes := ascii "created_at: "

/-- `std::erase` of carriage returns, and `normalize_newlines`. -/
def normalizeNewlines (text : Bytes) : Bytes := text.filter (· ≠ 0x0D)

/-- `find` from a place on. -/
def findFrom (needle text : Bytes) (start : Nat) : Option Nat :=
  (find needle (text.drop start)).map (start + ·)

/-- The date that a frontmatter records. -/
def dateIn (frontmatter : Bytes) : Bytes :=
  match find caPrefix frontmatter with
  | none => []
  | some pos =>
    let valStart := pos + caPrefix.length
    match findFrom (ascii "\n") frontmatter valStart with
    | none => frontmatter.drop valStart
    | some valEnd => substr frontmatter valStart (valEnd - valStart)

/-- `read_snap`, of what the file holds. -/
def parseSnap (file : Bytes) : SnapData :=
  let raw := normalizeNewlines file
  if separator.isPrefixOf raw = false then { body := raw, createdAt := [] }
  else
    match findFrom separator raw separator.length with
    | none => { body := raw, createdAt := [] }
    | some end' =>
      let frontmatter := substr raw separator.length (end' - separator.length)
      let body := raw.drop (end' + separator.length)
      { body := if body.getLast? = some 0x0A then body.dropLast else body
        createdAt := dateIn frontmatter }

/-- `read_snap`. -/
def readSnap (disk : Disk) (path : Bytes) : Option SnapData := (disk.file path).map parseSnap

/-- The date that is written. -/
def dateStr (createdAt : Bytes) (today : Date) : Bytes :=
  if createdAt = [] then today.text else createdAt

/-- `format_snap`. -/
def formatSnap (source inputFile content createdAt : Bytes) (today : Date) : Bytes :=
  ascii "---\n" ++ (ascii "source: " ++ source ++ ascii "\n") ++
    (ascii "created_at: " ++ dateStr createdAt today ++ ascii "\n") ++
    (if inputFile ≠ [] then ascii "input_file: " ++ inputFile ++ ascii "\n" else []) ++
    ascii "---\n" ++ content ++ ascii "\n"

/-- `write_snap`: whether the file was written. -/
def writeSnap (disk : Disk) (path content : Bytes) : Bool × Disk :=
  if disk.writable path then (true, disk.set path (some content)) else (false, disk)

/-! ## Reports -/

/-- `split_lines`. -/
def splitLines (text : Bytes) : List Bytes :=
  if text = [] then []
  else
    match find (ascii "\n") text with
    | none => [text]
    | some nl => text.take nl :: splitLines (text.drop (nl + 1))
termination_by text.length
decreasing_by
  have hpos : 0 < text.length := List.length_pos_of_ne_nil ‹_›
  rw [List.length_drop]
  omega

/-- `max_diff_lines`. -/
def maxDiffLines : Nat := 30

/-- A line that only the file has, and one that only the value has. -/
def oldLine (line : Bytes) : Bytes := 0x1B :: ascii "[31m-  " ++ line ++ 0x1B :: ascii "[0m\n"

def newLine (line : Bytes) : Bytes := 0x1B :: ascii "[32m+  " ++ line ++ 0x1B :: ascii "[0m\n"

/-- What ends a report that has no room for the lines left. -/
def moreLines (old new : List Bytes) : Bytes :=
  ascii "... (" ++ decimal (max old.length new.length) ++ ascii " more differing lines)\n"

/-- The loop of `diff`, from the lines left on. -/
def diffFrom (printed : Nat) : List Bytes → List Bytes → Bytes
  | [], [] => []
  | old :: olds, [] =>
    if maxDiffLines ≤ printed then moreLines (old :: olds) []
    else oldLine old ++ diffFrom (printed + 1) olds []
  | [], new :: news =>
    if maxDiffLines ≤ printed then moreLines [] (new :: news)
    else newLine new ++ diffFrom (printed + 1) [] news
  | old :: olds, new :: news =>
    if maxDiffLines ≤ printed then moreLines (old :: olds) (new :: news)
    else if old = new then diffFrom printed olds news
    else oldLine old ++ newLine new ++ diffFrom (printed + 2) olds news

/-- `diff`. -/
def diff (expected actual : Bytes) : Bytes := diffFrom 0 (splitLines expected) (splitLines actual)

/-! ## Checks -/

/-- The names a snapshot had before. -/
def oldPaths (target : Bytes) : List Bytes :=
  [ascii ".yml", ascii ".snap"].map fun ext =>
    joined (parentPath target) (stem (stem (fileName target)) ++ ext)

/-- `migrate_snap_extension`. -/
def migrateSnapExtension (disk : Disk) (target : Bytes) : List Event × Disk :=
  if (disk.file target).isSome then ([], disk)
  else
    match (oldPaths target).find? fun path => (disk.file path).isSome with
    | none => ([], disk)
    | some oldPath =>
      if disk.renames oldPath target then
        ([.migrated (fileName oldPath) (fileName target)],
          (disk.set target (disk.file oldPath)).set oldPath none)
      else ([], disk)

/-- What a check comes to: the report when it fails, what it prints, and the files. -/
structure Checked where
  report : Option Bytes
  events : List Event
  disk : Disk

/-- Where the new result of a check that fails is. -/
def newPath (snapPath : Bytes) : Bytes := snapPath ++ ascii ".new"

/-- `check_impl`, by a caller at `location`. -/
def checkImpl (disk : Disk) (snapPath value inputFile location : Bytes) (today : Date)
    (updateSnapshots : Bool) : Checked :=
  let (events, disk) := migrateSnapExtension disk snapPath
  let source := fileName location
  let normalized := normalizeNewlines value
  match readSnap disk snapPath with
  | none =>
    match writeSnap disk snapPath (formatSnap source inputFile normalized [] today) with
    | (true, disk) => ⟨none, events ++ [.created snapPath], disk⟩
    | (false, disk) => ⟨some (ascii "cannot write " ++ snapPath), events, disk⟩
  | some existing =>
    if existing.body = normalized then ⟨none, events, disk.set (newPath snapPath) none⟩
    else if updateSnapshots then
      match writeSnap disk snapPath
          (formatSnap source inputFile normalized existing.createdAt today) with
      | (true, disk) => ⟨none, events ++ [.updated snapPath], disk⟩
      | (false, disk) => ⟨some (ascii "cannot write " ++ snapPath), events, disk⟩
    else
      let differ := diff existing.body normalized ++ ascii "run with --update-snapshots to accept"
      let mismatch := ascii "mismatch: " ++ snapPath ++ ascii "\n"
      match writeSnap disk (newPath snapPath)
          (formatSnap source inputFile normalized [] today) with
      | (true, disk) =>
        ⟨some (mismatch ++ ascii "new result: " ++ newPath snapPath ++ ascii "\n" ++ differ),
          events, disk⟩
      | (false, disk) =>
        ⟨some (mismatch ++ ascii "cannot write the new result to " ++ newPath snapPath ++
          ascii "\n" ++ differ), events, disk⟩

end Kotatsu.Zest
