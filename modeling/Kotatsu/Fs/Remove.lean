import Mathlib.Logic.Relation
import Kotatsu.Core.Loop
import Kotatsu.Fs.System

/-!
# Removing a tree

`remove_tree` keeps the entries of all the directories it is in in one list, goes down by
moving its one descriptor and climbs through `..`. What is left to remove is a zipper of the
tree: the entries yet to remove of each directory it is in, the innermost first. A turn
either removes the first name of that order or goes into its directory.
-/

namespace Kotatsu.Fs.Remove

open Kotatsu.Core
open Kotatsu.Fs.Path (dotDot)

/-- `Listed`. -/
structure Listed where
  name : Bytes
  type : FileType
deriving DecidableEq

/-- `Level`. -/
structure Level where
  name : Bytes
  id : FileId
  entries : Nat
deriving DecidableEq

/-- The variables of `remove_tree`; no descriptor is `AT_FDCWD`. -/
structure State where
  removed : Nat := 0
  listed : List Listed
  levels : List Level := []
  dir : Option FileId := none

/-- What a listing tells of an entry. -/
def listing (s : System) (dir : FileId) (entry : Bytes × FileId) : Listed :=
  { name := entry.1
    type := if s.hides dir entry.1 then .unknown
      else ((s.files entry.2).map File.type).getD .unknown }

/-- `list_entries`: what it appends. -/
def listEntries (s : System) (dir : FileId) : Except Errno (List Listed) :=
  match s.files dir with
  | some (.directory _ entries) => .ok (entries.map (listing s dir))
  | _ => .error .enotdir

/-- What a turn comes to before it unlinks: the next turn, an error, the end, or what goes
next and as what. -/
inductive Next where
  | again (state : State)
  | fail (code : Errno)
  | done
  | remove (state : State) (name : Bytes) (directory : Bool)

namespace State

/-- The descriptor entries go from. -/
def handle (st : State) (s : System) : FileId := st.dir.getD s.current

/-- Whether an entry is a directory. -/
def isDirectory (st : State) (s : System) (entry : Listed) : Except Errno Bool :=
  if entry.type = .unknown then (s.find (st.handle s) entry.name).map s.isDirectory
  else .ok (entry.type == .directory)

/-- A turn that goes on with a directory. -/
def enter (st : State) (s : System) (name : Bytes) : Next :=
  match s.openDirectory (st.handle s) name with
  | .ok opened =>
    match listEntries s opened with
    | .error code => .fail code
    | .ok entries =>
      if entries = [] then .remove st name true
      else .again { st with
        listed := st.listed ++ entries
        levels := st.levels ++ [{ name, id := opened, entries := st.listed.length }]
        dir := some opened }
  | .error code =>
    if code = .enoent then .again st
    else if code = .enotdir ∨ code = .eloop then .remove st name false
    else .fail code

/-- A turn that takes an entry, which is no longer listed. -/
def take (st : State) (s : System) (entry : Listed) : Next :=
  match st.isDirectory s entry with
  | .error code => if code = .enoent ∨ code = .enotdir then .again st else .fail code
  | .ok true => st.enter s entry.name
  | .ok false => .remove st entry.name false

/-- A turn that goes back to the directory above. -/
def climb (st : State) (s : System) : Next :=
  match st.levels.getLast? with
  | none => .done
  | some level =>
    let levels := st.levels.dropLast
    match levels.getLast? with
    | none => .remove { st with levels, dir := none } level.name true
    | some below =>
      match s.openDirectory (st.handle s) dotDot with
      | .error code => .fail code
      | .ok above =>
        if above ≠ below.id then .fail .enoent
        else .remove { st with levels, dir := some above } level.name true

def next (st : State) (s : System) : Next :=
  if (st.levels.getLast?.map (·.entries)).getD 0 < st.listed.length then
    match st.listed.getLast? with
    | some entry => take { st with listed := st.listed.dropLast } s entry
    | none => .done
  else st.climb s

end State

/-- A run of `remove_tree`: its variables, the file system, and the names it has removed from
their directories, in order. -/
structure Run where
  state : State
  system : System
  gone : List (FileId × Bytes) := []

/-- One turn of the loop of `remove_tree`. -/
def turn (r : Run) : Run ⊕ (Except Errno Nat × Run) :=
  match r.state.next r.system with
  | .again state => .inl { r with state }
  | .fail code => .inr (.error code, r)
  | .done => .inr (.ok r.state.removed, r)
  | .remove state name directory =>
    match r.system.unlink (state.handle r.system) name directory with
    | .ok (system, entry) =>
      .inl { state := { state with removed := state.removed + 1 }, system,
             gone := r.gone ++ [entry] }
    | .error code => if code = .enoent then .inl { r with state } else .inr (.error code, r)

/-- `remove_tree` as it starts. -/
def begin (path : Bytes) (system : System) : Run :=
  { state := { listed := [{ name := path, type := .unknown }] }, system }

/-! ## The tree -/

mutual

/-- A file of the tree that is no directory, or a directory with what is in it. -/
inductive Node where
  | leaf (id : FileId) (type : FileType)
  | dir (id : FileId) (entries : Entries)

/-- The entries of a directory in the order it lists them, the last outermost. -/
inductive Entries where
  | nil
  | snoc (rest : Entries) (name : Bytes) (node : Node)

end

def Node.id : Node → FileId
  | .leaf id _ => id
  | .dir id _ => id

def Node.type : Node → FileType
  | .leaf _ type => type
  | .dir _ _ => .directory

def Entries.list : Entries → List (Bytes × FileId)
  | .nil => []
  | .snoc rest name node => rest.list ++ [(name, node.id)]

def Entries.names : Entries → List Bytes
  | .nil => []
  | .snoc rest name _ => rest.names ++ [name]

/-- What a directory tells of its entries. -/
def Entries.listed (hides : FileId → Bytes → Bool) (dir : FileId) : Entries → List Listed
  | .nil => []
  | .snoc rest name node => rest.listed hides dir ++
    [{ name, type := if hides dir name then .unknown else node.type }]

mutual

/-- The order that removes a node: the last entry first, each after what is in it. -/
def Node.post (dir : FileId) (name : Bytes) : Node → List (FileId × Bytes)
  | .leaf _ _ => [(dir, name)]
  | .dir id entries => entries.post id ++ [(dir, name)]

def Entries.post (dir : FileId) : Entries → List (FileId × Bytes)
  | .nil => []
  | .snoc rest name node => node.post dir name ++ rest.post dir

end

mutual

/-- The number of nodes. -/
def Node.count : Node → Nat
  | .leaf _ _ => 1
  | .dir _ entries => entries.count + 1

def Entries.count : Entries → Nat
  | .nil => 0
  | .snoc rest _ node => rest.count + node.count

end

mutual

/-- The directories of a tree. -/
def Node.dirs : Node → List FileId
  | .leaf _ _ => []
  | .dir id entries => id :: entries.dirs

def Entries.dirs : Entries → List FileId
  | .nil => []
  | .snoc rest _ node => node.dirs ++ rest.dirs

end

mutual

/-- The file system holds a node in the directory `parent`. -/
def Node.At (s : System) (parent : FileId) : Node → Prop
  | .leaf id type => type ≠ .directory ∧ (s.files id).map File.type = some type
  | .dir id entries => s.files id = some (.directory parent entries.list) ∧ entries.At s id

def Entries.At (s : System) (dir : FileId) : Entries → Prop
  | .nil => True
  | .snoc rest name node => rest.At s dir ∧ node.At s dir ∧ Ordinary name ∧ name ∉ rest.names

end

/-- The file system holds a tree as the entry `name` of the directory `base`, outside it. -/
structure Tree (s : System) (base : FileId) (name : Bytes) (root : Node) : Prop where
  ordinary : Ordinary name
  entry : s.enter base name = .ok root.id
  held : root.At s base
  nodup : root.dirs.Nodup
  base : base ∉ root.dirs

/-- The file system when all that is in a tree is gone, and its root is not. -/
def emptied (s : System) : Node → System
  | .leaf _ _ => s
  | .dir id entries => { s with
      files := fun other =>
        if other ∈ entries.dirs then none
        else if other = id then (s.files id).map File.empty
        else s.files other }

section

variable {s s' : System} {dir id parent : FileId} {name : Bytes}

theorem Entries.names_eq (entries : Entries) : entries.names = entries.list.map (·.1) := by
  cases entries with
  | nil => rfl
  | snoc rest name node =>
    rw [names, list, List.map_append, rest.names_eq]
    rfl
termination_by structural entries

/-- The entry of a name that the ones before it do not have. -/
theorem lookup_concat {list : List (Bytes × FileId)} (hname : name ∉ list.map (·.1)) :
    (list ++ [(name, id)]).lookup name = some id := by
  have hnone : list.lookup name = none := by
    rw [List.lookup_eq_none_iff]
    intro entry hentry
    rw [bne_iff_ne]
    exact fun heq => hname (heq ▸ List.mem_map_of_mem hentry)
  rw [List.lookup_append, hnone, Option.none_or, List.lookup_cons, beq_self_eq_true]

theorem filter_concat {list : List (Bytes × FileId)} (hname : name ∉ list.map (·.1)) :
    (list ++ [(name, id)]).filter (·.1 ≠ name) = list := by
  have hkeep : list.filter (·.1 ≠ name) = list := by
    rw [List.filter_eq_self]
    intro entry hentry
    rw [decide_eq_true_eq]
    exact fun heq => hname (heq ▸ List.mem_map_of_mem hentry)
  rw [List.filter_append, hkeep, List.filter_cons_of_neg (by simp), List.filter_nil,
    List.append_nil]

mutual

theorem Node.length_post (node : Node) (dir : FileId) (name : Bytes) :
    (node.post dir name).length = node.count := by
  cases node with
  | leaf id type => rfl
  | dir id entries =>
    rw [Node.post, List.length_append, entries.length_post, Node.count, List.length_singleton]
termination_by structural node

theorem Entries.length_post (entries : Entries) (dir : FileId) :
    (entries.post dir).length = entries.count := by
  cases entries with
  | nil => rfl
  | snoc rest name node =>
    rw [Entries.post, List.length_append, node.length_post, rest.length_post, Entries.count,
      Nat.add_comm]
termination_by structural entries

end

/-- A file is held with its type. -/
theorem Node.At.type {node : Node} (h : node.At s parent) :
    (s.files node.id).map File.type = some node.type := by
  cases node with
  | leaf id type => exact h.2
  | dir id entries => rw [Node.id, h.1]; rfl

/-- What a file system keeps of another: what is no directory in it. -/
def Keeps (s s' : System) : Prop :=
  ∀ id, s.isDirectory id = false → s'.files id = s.files id

mutual

/-- A tree is held as long as its directories and what is no directory stay. -/
theorem Node.At.congr (node : Node) {parent : FileId} (h : node.At s parent)
    (hdirs : ∀ id ∈ node.dirs, s'.files id = s.files id) (hkeeps : Keeps s s') :
    node.At s' parent := by
  cases node with
  | leaf id type =>
    refine ⟨h.1, ?_⟩
    rw [hkeeps id, h.2]
    obtain ⟨file, hfile, htype⟩ := Option.map_eq_some_iff.mp h.2
    rw [System.isDirectory, hfile, Option.any_some, htype, beq_false_of_ne h.1]
  | dir id entries =>
    refine ⟨(hdirs id List.mem_cons_self).trans h.1, Entries.At.congr entries h.2 ?_ hkeeps⟩
    exact fun other hother => hdirs other (List.mem_cons_of_mem _ hother)
termination_by structural node

theorem Entries.At.congr (entries : Entries) {dir : FileId} (h : entries.At s dir)
    (hdirs : ∀ id ∈ entries.dirs, s'.files id = s.files id) (hkeeps : Keeps s s') :
    entries.At s' dir := by
  cases entries with
  | nil => trivial
  | snoc rest name node =>
    obtain ⟨hrest, hnode, hname, hnew⟩ := h
    refine ⟨Entries.At.congr rest hrest ?_ hkeeps, Node.At.congr node hnode ?_ hkeeps, hname, hnew⟩
    · exact fun id hid => hdirs id (List.mem_append_right _ hid)
    · exact fun id hid => hdirs id (List.mem_append_left _ hid)
termination_by structural entries

end

/-- A listing tells the entries of a directory. -/
theorem Entries.At.listing (entries : Entries) (h : entries.At s dir) :
    entries.list.map (listing s dir) = entries.listed s.hides dir := by
  cases entries with
  | nil => rfl
  | snoc rest name node =>
    obtain ⟨hrest, hnode, -, -⟩ := h
    rw [list, listed, List.map_append, Entries.At.listing rest hrest, List.map_singleton,
      Remove.listing, hnode.type]
    rfl
termination_by structural entries

theorem listEntries_eq {entries : Entries}
    (hfile : s.files dir = some (.directory parent entries.list)) (h : entries.At s dir) :
    listEntries s dir = .ok (entries.listed s.hides dir) := by
  rw [listEntries, hfile]
  exact congrArg Except.ok (Entries.At.listing entries h)

end

/-! ## The zipper -/

/-- A directory the walk is in: what its level calls it, the entry it is of the directory
above, and the entries yet to remove. -/
structure Frame where
  id : FileId
  name : Bytes
  entry : FileId × Bytes
  rest : Entries

/-- The entries yet to remove, those of the innermost directory last. -/
def listedOf (hides : FileId → Bytes → Bool) : List Frame → List Listed
  | [] => []
  | f :: fs => listedOf hides fs ++ f.rest.listed hides f.id

def levelsOf (hides : FileId → Bytes → Bool) : List Frame → List Level
  | [] => []
  | f :: fs => levelsOf hides fs ++
    [{ name := f.name, id := f.id, entries := (listedOf hides fs).length }]

/-- What is yet to remove, in order. -/
def pending : List Frame → List (FileId × Bytes)
  | [] => []
  | f :: fs => f.rest.post f.id ++ f.entry :: pending fs

/-- The directories that are yet to remove. -/
def dirsOf : List Frame → List FileId
  | [] => []
  | f :: fs => f.id :: f.rest.dirs ++ dirsOf fs

/-- What is left to do: names to remove, and directories to go into. -/
def work : List Frame → Nat
  | [] => 0
  | f :: fs => (f.rest.post f.id).length + 1 + f.rest.dirs.length + work fs

/-- A directory holds the entries yet to remove, and behind them the ones in `child`. -/
structure Holds (s : System) (child : List (Bytes × FileId)) (f : Frame) : Prop where
  file : s.files f.id = some (.directory f.entry.1 (f.rest.list ++ child))
  rest : f.rest.At s f.id
  child : ∀ c ∈ child, Ordinary c.1 ∧ c.1 ∉ f.rest.names

/-- Each directory the walk is in holds the next one; `o` is the outermost as it was. -/
inductive Chain (s : System) (o : Frame) : List (Bytes × FileId) → Frame → List Frame → Prop
  | outer {child : List (Bytes × FileId)} {f : Frame} (holds : Holds s child f)
      (id : f.id = o.id) (name : f.name = o.name) (entry : f.entry = o.entry) :
      Chain s o child f []
  | inner {child : List (Bytes × FileId)} {f g : Frame} {gs : List Frame}
      (holds : Holds s child f) (above : f.entry.1 = g.id) (name : f.name = f.entry.2)
      (chain : Chain s o [(f.entry.2, f.id)] g gs) : Chain s o child f (g :: gs)

section

variable {s s' : System} {o f : Frame} {fs : List Frame} {child : List (Bytes × FileId)}

theorem Chain.holds (h : Chain s o child f fs) : Holds s child f := by
  cases h with
  | outer holds _ _ _ => exact holds
  | inner holds _ _ _ => exact holds

theorem Chain.congr (h : Chain s o child f fs)
    (hdirs : ∀ id ∈ dirsOf (f :: fs), s'.files id = s.files id) (hkeeps : Keeps s s') :
    Chain s' o child f fs := by
  induction h with
  | outer holds id name entry =>
    refine .outer ⟨?_, ?_, holds.child⟩ id name entry
    · exact (hdirs _ List.mem_cons_self).trans holds.file
    · exact Entries.At.congr _ holds.rest
        (fun other hother => hdirs other (List.mem_cons_of_mem _ (List.mem_append_left _ hother)))
        hkeeps
  | inner holds above name chain ih =>
    refine .inner ⟨?_, ?_, holds.child⟩ above name (ih ?_)
    · exact (hdirs _ List.mem_cons_self).trans holds.file
    · exact Entries.At.congr _ holds.rest
        (fun other hother => hdirs other (List.mem_cons_of_mem _ (List.mem_append_left _ hother)))
        hkeeps
    · exact fun other hother =>
        hdirs other (List.mem_cons_of_mem _ (List.mem_append_right _ hother))

/-- The innermost directory may hold other entries. -/
theorem Chain.replace (h : Chain s o child f fs) {child' : List (Bytes × FileId)} {rest : Entries}
    (holds : Holds s child' { f with rest }) : Chain s o child' { f with rest } fs := by
  cases h with
  | outer _ id name entry => exact .outer holds id name entry
  | inner _ above name chain => exact .inner holds above name chain

/-- The walk is at a place of the tree: `log` is gone, then the entries in `child` of the
innermost directory go and take the directories in `dead` with them, then the others. -/
structure Zipped (s₀ : System) (o : Frame) (s : System) (log : List (FileId × Bytes))
    (child : List (Bytes × FileId)) (dead : List FileId) (f : Frame) (fs : List Frame) :
    Prop where
  gone : log ++ (child.map fun c => (f.id, c.1)) ++ pending (f :: fs) = pending [o]
  chain : Chain s o child f fs
  nodup : (dead ++ dirsOf (f :: fs)).Nodup
  subset : ∀ id ∈ dead ++ dirsOf (f :: fs), id ∈ dirsOf [o]
  system : s = { s₀ with files := s.files }
  outside : ∀ id, id ∉ dirsOf [o] → s.files id = s₀.files id
  inside : ∀ id ∈ dirsOf [o], id ∉ dead ++ dirsOf (f :: fs) → s.files id = none

variable {s₀ : System} {log : List (FileId × Bytes)} {dead : List FileId} {rest : Entries}
  {c : Bytes} {node : Node} {id : FileId}

/-- The same place told in another way. -/
theorem Zipped.move (h : Zipped s₀ o s log child dead f fs) {child' : List (Bytes × FileId)}
    {dead' : List FileId} {f' : Frame} {fs' : List Frame}
    (hgone : (child'.map fun c => (f'.id, c.1)) ++ pending (f' :: fs') =
      (child.map fun c => (f.id, c.1)) ++ pending (f :: fs))
    (hchain : Chain s o child' f' fs')
    (hperm : (dead ++ dirsOf (f :: fs)).Perm (dead' ++ dirsOf (f' :: fs'))) :
    Zipped s₀ o s log child' dead' f' fs' where
  gone := by rw [List.append_assoc, hgone, ← List.append_assoc, h.gone]
  chain := hchain
  nodup := hperm.nodup_iff.mp h.nodup
  subset := fun other hother => h.subset other (hperm.mem_iff.mpr hother)
  system := h.system
  outside := h.outside
  inside := fun other hin hnot => h.inside other hin fun hother => hnot (hperm.mem_iff.mp hother)

theorem dirsOf_snoc (hrest : f.rest = .snoc rest c node) :
    (dirsOf (f :: fs)).Perm (node.dirs ++ dirsOf ({ f with rest } :: fs)) := by
  rw [dirsOf, dirsOf, hrest, Entries.dirs, List.cons_append, List.append_assoc]
  exact List.perm_middle.symm

/-- The last entry of the innermost directory is held apart from the others. -/
theorem Zipped.holds_snoc (h : Zipped s₀ o s log [] [] f fs) (hrest : f.rest = .snoc rest c node) :
    Holds s [(c, node.id)] { f with rest } ∧ node.At s f.id := by
  have hholds := h.chain.holds
  have hat := hholds.rest
  rw [hrest] at hat
  obtain ⟨hbefore, hnode, hname, hnew⟩ := hat
  refine ⟨⟨?_, hbefore, ?_⟩, hnode⟩
  · rw [hholds.file, hrest, List.append_nil, Entries.list]
  · exact List.forall_mem_singleton.mpr ⟨hname, hnew⟩

/-- What goes next is a file or an empty directory. -/
theorem Zipped.shift (h : Zipped s₀ o s log [] [] f fs) (hrest : f.rest = .snoc rest c node)
    (hpost : node.post f.id c = [(f.id, c)]) :
    Zipped s₀ o s log [(c, node.id)] node.dirs { f with rest } fs := by
  refine h.move ?_ (h.chain.replace (h.holds_snoc hrest).1) (dirsOf_snoc hrest)
  rw [pending, pending, hrest, Entries.post, hpost]
  rfl

/-- The walk goes into a directory. -/
theorem Zipped.down (h : Zipped s₀ o s log [] [] f fs) {entries : Entries}
    (hrest : f.rest = .snoc rest c (.dir id entries)) :
    Zipped s₀ o s log [] [] { id, name := c, entry := (f.id, c), rest := entries }
      ({ f with rest } :: fs) := by
  obtain ⟨hholds, hfile, hentries⟩ := h.holds_snoc hrest
  refine h.move ?_ (.inner ⟨?_, hentries, nofun⟩ rfl rfl (h.chain.replace hholds))
    (dirsOf_snoc hrest)
  · rw [pending, pending, pending, hrest, Entries.post, Node.post]
    simp only [List.map_nil, List.nil_append, List.append_assoc, List.cons_append]
  · rw [hfile, List.append_nil]

/-- The directories above, behind an innermost one that is empty. -/
theorem Zipped.up {g : Frame} {gs : List Frame} (h : Zipped s₀ o s log [] [] f (g :: gs))
    (hrest : f.rest = .nil) :
    f.entry.1 = g.id ∧ f.name = f.entry.2 ∧
      Zipped s₀ o s log [(f.entry.2, f.id)] [f.id] g gs := by
  cases h.chain with
  | inner holds above name chain =>
    refine ⟨above, name, h.move ?_ chain ?_⟩
    · have hpending : pending (f :: g :: gs) = f.entry :: pending (g :: gs) := by
        rw [pending, hrest]
        rfl
      rw [hpending, ← above]
      rfl
    · rw [dirsOf, hrest]
      exact List.Perm.refl _

theorem without_files {gone : Option FileId} {dir other : FileId} (hdir : other ≠ dir)
    (hgone : gone ≠ some other) : (s.without dir c gone).files other = s.files other := by
  unfold System.without
  dsimp only
  rw [if_neg hgone, if_neg hdir]

theorem isDirectory_of_file {parent : FileId} {entries : List (Bytes × FileId)}
    (hfile : s.files id = some (.directory parent entries)) : s.isDirectory id = true := by
  rw [System.isDirectory, hfile]
  rfl

/-- The entry goes, and with it the directory it is of. -/
theorem Zipped.remove (h : Zipped s₀ o s log [(c, id)] dead f fs)
    (hdead : dead = [] ∨ dead = [id] ∧ s.isDirectory id = true) :
    Zipped s₀ o (s.without f.id c dead.head?) (log ++ [(f.id, c)]) [] [] f fs := by
  have hgone : ∀ other, dead.head? = some other → other ∈ dead := fun other =>
    List.mem_of_mem_head?
  have hof : ∀ other ∈ dead, dead.head? = some other ∧ s.isDirectory other = true := by
    intro other hother
    obtain rfl | ⟨rfl, hid⟩ := hdead
    · exact absurd hother List.not_mem_nil
    · obtain rfl := List.mem_singleton.mp hother
      exact ⟨rfl, hid⟩
  obtain ⟨-, hnodup, hdisjoint⟩ := List.nodup_append.mp h.nodup
  have hholds := h.chain.holds
  have hapart : ∀ other ∈ dirsOf (f :: fs), dead.head? ≠ some other := fun other hother heq =>
    hdisjoint other (hgone other heq) other hother rfl
  have hfirst : f.id ∈ dirsOf (f :: fs) := List.mem_cons_self
  have hkeeps : Keeps s (s.without f.id c dead.head?) := by
    intro other hother
    refine without_files (fun heq => ?_) fun heq => ?_
    · rw [heq, isDirectory_of_file hholds.file] at hother
      exact nomatch hother
    · rw [(hof other (hgone other heq)).2] at hother
      exact nomatch hother
  rw [dirsOf, List.cons_append, List.nodup_cons] at hnodup
  have hsame : ∀ other ∈ f.rest.dirs ++ dirsOf fs,
      (s.without f.id c dead.head?).files other = s.files other := fun other hother =>
    without_files (fun heq => hnodup.1 (heq ▸ hother))
      (hapart other (List.mem_cons_of_mem _ hother))
  have hholds' : Holds (s.without f.id c dead.head?) [] f := by
    refine ⟨?_, Entries.At.congr _ hholds.rest
      (fun other hother => hsame other (List.mem_append_left _ hother)) hkeeps, nofun⟩
    obtain ⟨-, hnew⟩ := hholds.child _ List.mem_cons_self
    rw [Entries.names_eq] at hnew
    unfold System.without
    dsimp only
    rw [if_neg (hapart f.id hfirst), if_pos rfl, hholds.file, Option.map_some, File.erase,
      filter_concat hnew, List.append_nil]
  refine ⟨?_, ?_, List.nodup_cons.mpr hnodup, fun other hother => ?_, ?_, fun other hother => ?_,
    fun other hin hnot => ?_⟩
  · rw [List.map_nil, List.append_nil, ← h.gone]
    rfl
  · cases h.chain with
    | outer _ id name entry => exact .outer hholds' id name entry
    | inner _ above name chain =>
      exact .inner hholds' above name (chain.congr
        (fun other hother => hsame other (List.mem_append_right _ hother)) hkeeps)
  · exact h.subset other (List.mem_append_right _ hother)
  · rw [System.without, h.system]
  · have hne : other ≠ f.id := fun heq =>
      hother (heq ▸ h.subset f.id (List.mem_append_right _ hfirst))
    rw [without_files hne fun heq =>
      hother (h.subset other (List.mem_append_left _ (hgone other heq)))]
    exact h.outside other hother
  · by_cases hother : other ∈ dead
    · unfold System.without
      dsimp only
      rw [if_pos (hof other hother).1]
    · rw [without_files (fun heq => hnot (by rw [heq]; exact hfirst))
        fun heq => hother (hgone other heq)]
      refine h.inside other hin fun hmem => ?_
      exact (List.mem_append.mp hmem).elim hother hnot

end

/-! ## Turns -/

/-- A run is at a place of the tree. -/
structure Stands (s₀ : System) (o : Frame) (r : Run) (f : Frame) (fs : List Frame) : Prop where
  listed : r.state.listed = listedOf s₀.hides (f :: fs)
  levels : r.state.levels = levelsOf s₀.hides (f :: fs)
  dir : r.state.dir = some f.id
  removed : r.state.removed = r.gone.length
  zipped : Zipped s₀ o r.system r.gone [] [] f fs

section

variable {s₀ : System} {o f g : Frame} {fs gs : List Frame} {r : Run} {rest : Entries} {c : Bytes}
  {node : Node} {st : State} {name : Bytes} {directory : Bool}

/-- Going into a directory leaves one less to go into. -/
theorem work_down {id : FileId} {entries : Entries}
    (hrest : f.rest = .snoc rest c (.dir id entries)) :
    work ({ id, name := c, entry := (f.id, c), rest := entries } :: { f with rest } :: fs) <
      work (f :: fs) := by
  rw [work, work, work, hrest, Entries.post, Entries.dirs, Node.post, Node.dirs,
    List.length_append, List.length_append, List.length_append, List.length_singleton,
    List.length_cons]
  dsimp only
  omega

theorem turn_again (hnext : r.state.next r.system = .again st) :
    turn r = .inl { r with state := st } := by
  rw [turn, hnext]

theorem turn_remove {s' : System} {entry : FileId × Bytes}
    (hnext : r.state.next r.system = .remove st name directory)
    (hunlink : r.system.unlink (st.handle r.system) name directory = .ok (s', entry)) :
    turn r = .inl { state := { st with removed := st.removed + 1 }, system := s',
                    gone := r.gone ++ [entry] } := by
  rw [turn, hnext]
  dsimp only
  rw [hunlink]

theorem Zipped.hides {s : System} {log : List (FileId × Bytes)}
    {child : List (Bytes × FileId)} {dead : List FileId}
    (h : Zipped s₀ o s log child dead f fs) : s.hides = s₀.hides := by
  rw [h.system]

/-- An entry is taken from the back of those of the innermost directory. -/
theorem Stands.next_snoc (h : Stands s₀ o r f fs) (hrest : f.rest = .snoc rest c node) :
    r.state.next r.system =
      State.take { r.state with listed := listedOf s₀.hides ({ f with rest } :: fs) } r.system
        { name := c, type := if s₀.hides f.id c then .unknown else node.type } := by
  have hlisted : r.state.listed = listedOf s₀.hides ({ f with rest } :: fs) ++
      [{ name := c, type := if s₀.hides f.id c then .unknown else node.type }] := by
    rw [h.listed, listedOf, hrest, Entries.listed, ← List.append_assoc]
    rfl
  have hmark : (r.state.levels.getLast?.map (·.entries)).getD 0 < r.state.listed.length := by
    rw [h.levels, levelsOf, List.getLast?_concat, hlisted, List.length_append, listedOf,
      List.length_append, List.length_singleton]
    exact Nat.lt_succ_of_le (Nat.le_add_right _ _)
  rw [State.next, if_pos hmark, hlisted, List.getLast?_concat, List.dropLast_concat]

theorem isDirectory_eq {s : System} {dir : FileId} {hides : Bool} (hdir : st.handle s = dir)
    (hname : Ordinary c) (hentry : s.enter dir c = .ok node.id)
    (htype : (s.files node.id).map File.type = some node.type) :
    st.isDirectory s { name := c, type := if hides then .unknown else node.type } =
      .ok (node.type == .directory) := by
  rw [State.isDirectory]
  dsimp only
  by_cases hunknown : (if hides = true then .unknown else node.type) = FileType.unknown
  · obtain ⟨file, hfile, htype'⟩ := Option.map_eq_some_iff.mp htype
    rw [if_pos hunknown, hdir, System.find_name hname, hentry, Except.map, System.isDirectory,
      hfile, Option.any_some, htype']
  · rw [if_neg hunknown]
    cases hides with
    | true => exact absurd rfl hunknown
    | false => rfl

/-- A file or an empty directory goes, and the walk stands where it did. -/
theorem Stands.turn_remove (h : Stands s₀ o r f fs) (hrest : f.rest = .snoc rest c node)
    (hpost : node.post f.id c = [(f.id, c)])
    (hdead : node.dirs = [] ∨ node.dirs = [node.id] ∧ r.system.isDirectory node.id = true)
    (hnext : r.state.next r.system = .remove
      { r.state with listed := listedOf s₀.hides ({ f with rest } :: fs) } c directory)
    (hunlink : r.system.unlink f.id c directory =
      .ok (r.system.without f.id c node.dirs.head?, f.id, c)) :
    ∃ r' f' fs', turn r = .inl r' ∧ Stands s₀ o r' f' fs' ∧ work (f' :: fs') < work (f :: fs) := by
  have hhandle : State.handle { r.state with listed := listedOf s₀.hides ({ f with rest } :: fs) }
      r.system = f.id := by
    rw [State.handle, h.dir, Option.getD_some]
  rw [← hhandle] at hunlink
  refine ⟨_, { f with rest }, fs, Remove.turn_remove hnext hunlink,
    ⟨rfl, h.levels, h.dir, ?_, ?_⟩, ?_⟩
  · rw [List.length_append, List.length_singleton, ← h.removed]
  · rw [hhandle]
    exact (h.zipped.shift hrest hpost).remove hdead
  · rw [work, work, hrest, Entries.post, Entries.dirs, hpost, List.length_append,
      List.length_append, List.length_singleton]
    dsimp only
    omega

/-- A turn with an entry left to remove. -/
theorem Stands.turn_snoc (h : Stands s₀ o r f fs) (hrest : f.rest = .snoc rest c node) :
    ∃ r' f' fs', turn r = .inl r' ∧ Stands s₀ o r' f' fs' ∧ work (f' :: fs') < work (f :: fs) := by
  obtain ⟨hholds, hnode⟩ := h.zipped.holds_snoc hrest
  obtain ⟨hname, hnew⟩ := hholds.child _ List.mem_cons_self
  rw [Entries.names_eq] at hnew
  have hentry : r.system.enter f.id c = .ok node.id :=
    System.enter_entry hholds.file hname (lookup_concat hnew)
  have hat : r.system.locate f.id c = .ok (f.id, c) :=
    System.locate_name hname.nonempty hname.plain
  obtain ⟨st, hst⟩ : ∃ st, st =
    { r.state with listed := listedOf s₀.hides ({ f with rest } :: fs) } := ⟨_, rfl⟩
  have hhandle : st.handle r.system = f.id := by
    rw [hst, State.handle, h.dir, Option.getD_some]
  have hnext := h.next_snoc hrest
  rw [← hst, State.take, isDirectory_eq hhandle hname hentry hnode.type] at hnext
  cases node with
  | leaf id type =>
    have hfile : ((Node.leaf id type).type == .directory) = false := beq_false_of_ne hnode.1
    rw [hfile, hst] at hnext
    exact h.turn_remove hrest rfl (.inl rfl) hnext
      (System.unlink_other hat hname hentry hnode.2 hnode.1)
  | dir id entries =>
    obtain ⟨hfile, hentries⟩ := hnode
    have hopen : r.system.openDirectory f.id c = .ok id :=
      System.openDirectory_eq (by rw [System.find_name hname, hentry]; rfl) hfile
    have htype : ((Node.dir id entries).type == .directory) = true := rfl
    rw [htype] at hnext
    dsimp only at hnext
    rw [State.enter, hhandle, hopen] at hnext
    dsimp only at hnext
    rw [listEntries_eq hfile hentries, h.zipped.hides] at hnext
    cases entries with
    | nil =>
      rw [hst] at hnext
      exact h.turn_remove hrest rfl (.inr ⟨rfl, isDirectory_of_file hfile⟩) hnext
        (System.unlink_directory hat hname hentry hfile)
    | snoc before last lastNode =>
      have hsome : (Entries.snoc before last lastNode).listed s₀.hides id ≠ [] :=
        List.append_ne_nil_of_right_ne_nil _ (List.cons_ne_nil _ _)
      dsimp only at hnext
      rw [if_neg hsome, hst] at hnext
      refine ⟨_, _, _, turn_again hnext, ⟨rfl, ?_, rfl, h.removed, h.zipped.down hrest⟩, ?_⟩
      · dsimp only
        rw [h.levels]
        rfl
      · exact work_down hrest

/-- Where an innermost directory is empty, the walk goes back to its level. -/
theorem Stands.next_nil (h : Stands s₀ o r f fs) (hrest : f.rest = .nil) :
    r.state.next r.system = r.state.climb r.system := by
  refine if_neg ?_
  rw [h.levels, levelsOf, List.getLast?_concat, h.listed, listedOf, hrest, Entries.listed,
    List.append_nil]
  exact lt_irrefl _

/-- A turn that climbs out of a directory and removes it. -/
theorem Stands.turn_up (h : Stands s₀ o r f (g :: gs)) (hrest : f.rest = .nil) :
    ∃ r' f' fs', turn r = .inl r' ∧ Stands s₀ o r' f' fs' ∧
      work (f' :: fs') < work (f :: g :: gs) := by
  obtain ⟨habove, hcalled, hup⟩ := h.zipped.up hrest
  have hfile := h.zipped.chain.holds.file
  rw [hrest, habove] at hfile
  have hholds := hup.chain.holds
  obtain ⟨hname, hnew⟩ := hholds.child _ List.mem_cons_self
  rw [Entries.names_eq] at hnew
  have hentry : r.system.enter g.id f.entry.2 = .ok f.id :=
    System.enter_entry hholds.file hname (lookup_concat hnew)
  have hat : r.system.locate g.id f.entry.2 = .ok (g.id, f.entry.2) :=
    System.locate_name hname.nonempty hname.plain
  have hopen : r.system.openDirectory f.id dotDot = .ok g.id :=
    System.openDirectory_dotDot hfile hholds.file
  have hnext : r.state.next r.system = .remove
      { r.state with levels := levelsOf s₀.hides (g :: gs), dir := some g.id }
      f.entry.2 true := by
    have hlast : (levelsOf s₀.hides (g :: gs)).getLast? =
        some { name := g.name, id := g.id, entries := (listedOf s₀.hides gs).length } := by
      rw [levelsOf, List.getLast?_concat]
    rw [h.next_nil hrest, State.climb, h.levels, levelsOf, List.getLast?_concat,
      List.dropLast_concat]
    dsimp only
    rw [hlast, State.handle, h.dir, Option.getD_some]
    dsimp only
    rw [hopen]
    dsimp only
    rw [if_neg (fun hne => hne rfl), hcalled]
  have hturn := Remove.turn_remove hnext (System.unlink_directory hat hname hentry hfile)
  refine ⟨_, g, gs, hturn, ⟨?_, rfl, rfl, ?_, hup.remove (.inr ⟨rfl, ?_⟩)⟩, ?_⟩
  · dsimp only
    rw [h.listed, listedOf, hrest, Entries.listed, List.append_nil]
  · rw [List.length_append, List.length_singleton, ← h.removed]
  · exact isDirectory_of_file hfile
  · rw [work.eq_2 f]
    omega

/-- The turn that removes the outermost directory, when all that was in it is gone. -/
theorem Stands.next_last (h : Stands s₀ o r f []) (hrest : f.rest = .nil) :
    r.state.next r.system =
        .remove { removed := r.gone.length, listed := [] } o.name true ∧
      r.gone ++ [o.entry] = pending [o] ∧
      r.system.files o.id = some (.directory o.entry.1 []) := by
  have hfile := h.zipped.chain.holds.file
  have hgone := h.zipped.gone
  have hlisted := h.listed
  rw [listedOf, listedOf, hrest, Entries.listed, List.append_nil] at hlisted
  rw [hrest] at hfile
  rw [List.map_nil, List.append_nil, pending, hrest, Entries.post, List.nil_append] at hgone
  cases h.zipped.chain with
  | outer holds id name entry =>
    refine ⟨?_, ?_, ?_⟩
    · rw [h.next_nil hrest, State.climb, h.levels, levelsOf, levelsOf, List.getLast?_concat,
        List.dropLast_concat, hlisted, name, ← h.removed]
      rfl
    · rw [← entry]
      exact hgone
    · rw [← id, ← entry]
      exact hfile

end

/-! ## The whole run -/

/-- The entries of a node. -/
def Node.entries : Node → Entries
  | .leaf _ _ => .nil
  | .dir _ entries => entries

section

variable {s : System} {path : Bytes} {base : FileId} {name : Bytes} {root : Node} {r : Run}

/-- The outermost frame of a walk. -/
def outermost (path : Bytes) (base : FileId) (name : Bytes) (root : Node) : Frame :=
  { id := root.id, name := path, entry := (base, name), rest := root.entries }

/-- With nothing listed and no level the loop returns. -/
theorem turn_done (hlisted : r.state.listed = []) (hlevels : r.state.levels = []) :
    turn r = .inr (.ok r.state.removed, r) := by
  rw [turn, State.next, if_neg (by rw [hlisted]; exact Nat.not_lt_zero _), State.climb, hlevels]
  rfl

theorem Tree.isDirectory (htree : Tree s base name root) :
    s.isDirectory root.id = (root.type == .directory) := by
  obtain ⟨file, hfile, htype⟩ := Option.map_eq_some_iff.mp htree.held.type
  rw [System.isDirectory, hfile, Option.any_some, htype]

/-- An empty directory is as it is when all that was in it is gone. -/
theorem emptied_nil {id : FileId} (hfile : s.files id = some (.directory base [])) :
    emptied s (.dir id .nil) = s := by
  have hfiles : (emptied s (.dir id .nil)).files = s.files := by
    funext other
    unfold emptied
    dsimp only
    rw [if_neg (show other ∉ Entries.nil.dirs from List.not_mem_nil)]
    split
    · next heq => rw [heq, hfile]; rfl
    · rfl
  rw [show emptied s (.dir id .nil) =
    { s with files := (emptied s (.dir id .nil)).files } from rfl, hfiles]

/-- The first turn, unless it goes into the directory, is the last that removes. -/
theorem begin_next (hat : s.locate s.current path = .ok (base, name))
    (htree : Tree s base name root) :
    (emptied s root = s ∧ root.post base name = [(base, name)] ∧
      (begin path s).state.next s = .remove { listed := [] } path (root.type == .directory)) ∨
    ∃ id entries r, root = .dir id entries ∧ turn (begin path s) = .inl r ∧
      Stands s (outermost path base name root) r (outermost path base name root) [] := by
  have hfind : s.find s.current path = .ok root.id := by
    rw [System.find, hat]
    exact htree.entry
  have hnext : (begin path s).state.next s = State.take { listed := [] } s
      { name := path, type := .unknown } := rfl
  have hdirectory : State.isDirectory { listed := [] } s { name := path, type := .unknown } =
      .ok (root.type == .directory) := by
    rw [State.isDirectory, if_pos rfl]
    exact (congrArg (Except.map s.isDirectory) hfind).trans (congrArg Except.ok htree.isDirectory)
  rw [State.take, hdirectory] at hnext
  cases root with
  | leaf id type =>
    have htype : ((Node.leaf id type).type == .directory) = false :=
      beq_false_of_ne htree.held.1
    rw [htype] at hnext
    exact .inl ⟨rfl, rfl, by rw [hnext, htype]⟩
  | dir id entries =>
    obtain ⟨hfile, hentries⟩ := htree.held
    have hopen : s.openDirectory s.current path = .ok id :=
      System.openDirectory_eq hfind hfile
    have htype : ((Node.dir id entries).type == .directory) = true := rfl
    rw [htype] at hnext
    have henter : State.enter { listed := [] } s path =
        if entries.listed s.hides id = [] then .remove { listed := [] } path true
        else .again { listed := [] ++ entries.listed s.hides id,
                      levels := [] ++ [{ name := path, id, entries := 0 }], dir := some id } := by
      rw [State.enter, show State.handle { listed := [] } s = s.current from rfl, hopen]
      dsimp only
      rw [listEntries_eq hfile hentries]
      rfl
    dsimp only at hnext
    rw [henter] at hnext
    cases entries with
    | nil => exact .inl ⟨emptied_nil hfile, rfl, hnext⟩
    | snoc before last lastNode =>
      have hsome : (Entries.snoc before last lastNode).listed s.hides id ≠ [] :=
        List.append_ne_nil_of_right_ne_nil _ (List.cons_ne_nil _ _)
      rw [if_neg hsome] at hnext
      have hdirs : dirsOf [outermost path base name (.dir id (.snoc before last lastNode))] =
          (Node.dir id (.snoc before last lastNode)).dirs := List.append_nil _
      refine .inr ⟨_, _, _, rfl, turn_again hnext, rfl, rfl, rfl, rfl, rfl, ?_, ?_,
        fun _ h => h, rfl, fun _ _ => rfl, fun _ hin hnot => absurd hin hnot⟩
      · refine .outer ⟨?_, hentries, List.forall_mem_nil _⟩ rfl rfl rfl
        exact hfile.trans (by rw [List.append_nil]; rfl)
      · rw [List.nil_append, hdirs]
        exact htree.nodup

mutual

/-- The directories of a tree are directories. -/
theorem Node.At.directories (node : Node) {parent : FileId} (h : node.At s parent) :
    ∀ id ∈ node.dirs, ∃ above list, s.files id = some (.directory above list) := by
  cases node with
  | leaf id type => exact nofun
  | dir id entries =>
    refine List.forall_mem_cons.mpr ⟨⟨parent, entries.list, h.1⟩, ?_⟩
    exact Entries.At.directories entries h.2
termination_by structural node

theorem Entries.At.directories (entries : Entries) {dir : FileId} (h : entries.At s dir) :
    ∀ id ∈ entries.dirs, ∃ above list, s.files id = some (.directory above list) := by
  cases entries with
  | nil => exact nofun
  | snoc rest name node =>
    intro id hid
    obtain hid | hid := List.mem_append.mp hid
    · exact Node.At.directories node h.2.1 id hid
    · exact Entries.At.directories rest h.1 id hid
termination_by structural entries

end

theorem emptied_files {other : FileId} (hother : other ∉ root.dirs) :
    (emptied s root).files other = s.files other := by
  cases root with
  | leaf id type => rfl
  | dir id entries =>
    obtain ⟨hid, hin⟩ := List.ne_and_not_mem_of_not_mem_cons hother
    unfold emptied
    dsimp only
    rw [if_neg hin, if_neg hid]

/-- The root of the tree as all that was in it is gone. -/
theorem Tree.emptied_root (htree : Tree s base name root) {id : FileId} {entries : Entries}
    (hroot : root = .dir id entries) :
    (emptied s root).files id = some (.directory base []) := by
  subst hroot
  unfold emptied
  dsimp only
  rw [if_neg (List.nodup_cons.mp htree.nodup).1, if_pos rfl, htree.held.1]
  rfl

/-- When all that was in it is gone, the root goes as the entry it is. -/
theorem Tree.unlink (htree : Tree s base name root)
    (hat : (emptied s root).locate s.current path = .ok (base, name)) :
    (emptied s root).unlink s.current path (root.type == .directory) =
      .ok ((emptied s root).without base name root.dirs.head?, base, name) := by
  have hentry : (emptied s root).enter base name = .ok root.id := by
    rw [System.enter, emptied_files htree.base]
    exact htree.entry
  cases root with
  | leaf id type =>
    have htype : ((Node.leaf id type).type == .directory) = false :=
      beq_false_of_ne htree.held.1
    rw [htype]
    exact System.unlink_other hat htree.ordinary hentry htree.held.2 htree.held.1
  | dir id entries =>
    exact System.unlink_directory hat htree.ordinary hentry (htree.emptied_root rfl)

/-- What is left of the file system when the root is gone. -/
theorem Tree.files (htree : Tree s base name root) :
    (∀ id ∈ root.dirs, ((emptied s root).without base name root.dirs.head?).files id = none) ∧
      ((emptied s root).without base name root.dirs.head?).files base =
        (s.files base).map (File.erase name) ∧
      ∀ id, id ∉ root.dirs → id ≠ base →
        ((emptied s root).without base name root.dirs.head?).files id = s.files id := by
  have hhead : ∀ id, root.dirs.head? = some id → id ∈ root.dirs := fun id =>
    List.mem_of_mem_head?
  refine ⟨fun id hid => ?_, ?_, fun id hid hne => ?_⟩
  · cases root with
    | leaf id type => exact absurd hid List.not_mem_nil
    | dir root entries =>
      unfold System.without
      dsimp only
      by_cases hroot : (Node.dir root entries).dirs.head? = some id
      · rw [if_pos hroot]
      · have hin : id ∈ entries.dirs := (List.mem_cons.mp hid).resolve_left fun heq =>
          hroot (heq ▸ rfl)
        have hbase : id ≠ base := fun heq => htree.base (heq ▸ hid)
        rw [if_neg hroot, if_neg hbase]
        unfold emptied
        dsimp only
        rw [if_pos hin]
  · unfold System.without
    dsimp only
    rw [if_neg (fun heq => htree.base (hhead base heq)), if_pos rfl, emptied_files htree.base]
  · rw [without_files hne fun heq => hid (hhead id heq), emptied_files hid]

/-- At the outermost directory, when all that was in it is gone. -/
theorem Stands.emptied {id : FileId} {entries : Entries} {f : Frame}
    (htree : Tree s base name (.dir id entries))
    (h : Stands s (outermost path base name (.dir id entries)) r f []) (hrest : f.rest = .nil) :
    r.system = emptied s (.dir id entries) := by
  obtain ⟨-, -, hroot⟩ := h.next_last hrest
  have hdirs : dirsOf [outermost path base name (.dir id entries)] = id :: entries.dirs :=
    List.append_nil _
  have hleft : dirsOf [f] = [id] := by
    have hid : f.id = id := by
      cases h.zipped.chain with
      | outer holds id name entry => exact id
    rw [dirsOf, hrest, hid]
    rfl
  have hfiles : r.system.files = (Remove.emptied s (.dir id entries)).files := by
    funext other
    by_cases hin : other ∈ id :: entries.dirs
    · by_cases hid : other = id
      · rw [hid, htree.emptied_root rfl]
        exact hroot
      · have hbelow := (List.mem_cons.mp hin).resolve_left hid
        have hnone := h.zipped.inside other (by rw [hdirs]; exact hin) (by
          rw [hleft]
          exact fun heq => hid (List.mem_singleton.mp heq))
        rw [hnone]
        unfold Remove.emptied
        dsimp only
        rw [if_pos hbelow]
    · rw [emptied_files hin]
      exact h.zipped.outside other (by rwa [hdirs])
  rw [h.zipped.system, hfiles]
  rfl

/-- A turn of the walk leads from a place of the tree to one, or to the end. -/
theorem invariant (hat : s.locate s.current path = .ok (base, name))
    (htree : Tree s base name root) {r : Run}
    (hreach : Relation.ReflTransGen (fun r r' => turn r = .inl r') (begin path s) r) :
    r = begin path s ∨ (∃ f fs, Stands s (outermost path base name root) r f fs) ∨
      r.state.listed = [] ∧ r.state.levels = [] := by
  induction hreach with
  | refl => exact .inl rfl
  | @tail r r' _ hturn ih =>
    -- the turn that removes the root
    have hends : ∀ {removed : Nat} {directory : Bool}, r.state.next r.system =
        .remove { removed, listed := [] } path directory →
        r'.state.listed = [] ∧ r'.state.levels = [] := by
      intro removed directory hnext
      rw [turn, hnext] at hturn
      dsimp only at hturn
      split at hturn
      · obtain rfl := Sum.inl.inj hturn
        exact ⟨rfl, rfl⟩
      · split at hturn
        · obtain rfl := Sum.inl.inj hturn
          exact ⟨rfl, rfl⟩
        · exact nomatch hturn
    obtain rfl | ⟨f, fs, hstands⟩ | ⟨hlisted, hlevels⟩ := ih
    · obtain ⟨-, -, hnext⟩ | ⟨id, entries, r, rfl, hturn', hstands⟩ := begin_next hat htree
      · exact .inr (.inr (hends hnext))
      · obtain rfl := Sum.inl.inj (hturn.symm.trans hturn')
        exact .inr (.inl ⟨_, _, hstands⟩)
    · cases hrest : f.rest with
      | snoc rest c node =>
        obtain ⟨r'', f', fs', hturn', hstands', -⟩ := hstands.turn_snoc hrest
        obtain rfl := Sum.inl.inj (hturn.symm.trans hturn')
        exact .inr (.inl ⟨f', fs', hstands'⟩)
      | nil =>
        cases fs with
        | nil => exact .inr (.inr (hends (hstands.next_last hrest).1))
        | cons g gs =>
          obtain ⟨r'', f', fs', hturn', hstands', -⟩ := hstands.turn_up hrest
          obtain rfl := Sum.inl.inj (hturn.symm.trans hturn')
          exact .inr (.inl ⟨f', fs', hstands'⟩)
    · rw [turn_done hlisted hlevels] at hturn
      exact nomatch hturn

end

end Kotatsu.Fs.Remove
