import Kotatsu.Core.Loop
import Kotatsu.Fs.Path.Join
import Kotatsu.Fs.System

/-!
# The walk of a tree

`Walk` keeps the entries it listed and has yet to reach in one list, those of each directory
reversed and a mark where they start, and reads a directory when it leaves it for what is
behind it. What it gives is what a recursion over the tree gives: a directory's entries in
the order it lists them, and behind each directory what it holds, its error, or nothing.
-/

namespace Kotatsu.Fs

open Kotatsu.Core

namespace Walk

/-- `Walk::Listed`. -/
structure Listed where
  name : Bytes
  type : FileType
deriving DecidableEq

/-- `Walk::Level`. -/
structure Level where
  path : Bytes
  listed : Nat
deriving DecidableEq

/-- `Walk::Entry`. -/
structure Entry where
  path : Bytes
  depth : Nat
  type : FileType
  relativeStart : Nat
  nameStart : Nat
deriving DecidableEq

/-- What the range gives: an entry, or the error of a directory it could not read. -/
inductive Item (ε : Type) where
  | entry (entry : Entry)
  | error (path : Bytes) (code : ε)
deriving DecidableEq

end Walk

/-- `Walk`. -/
structure Walk (ε : Type) where
  root : Bytes
  maxDepth : Nat
  listed : List Walk.Listed := []
  levels : List Walk.Level := []
  reached : Option Walk.Listed := some { name := [], type := .directory }
  relativeStart : Nat := 0
  current : Option (Walk.Item ε) := none
  started : Bool := false
  skipped : Bool := false
  done : Bool := false

namespace Walk

open Kotatsu.Fs.Path

variable {ε : Type}

/-- The entry `name` of the directory at `path`, the names after the root starting at
`relative` unless it is an entry of the root. -/
def entryAt (style : Style) (path : Bytes) (depth relative : Nat) (listed : Listed) : Entry :=
  let entryPath := push path listed.name style
  let nameStart := entryPath.length - listed.name.length
  { path := entryPath, depth, type := listed.type,
    relativeStart := if depth = 1 then nameStart else relative, nameStart }

/-- The end of `advance`: the next entry is reached, or the range ends; none where the back
of an empty list is taken. -/
def reach (style : Style) (w : Walk ε) : Option (Walk ε) :=
  let w := { w with
    skipped := false
    levels := w.levels.rdropWhile fun level => w.listed.length == level.listed }
  match w.levels.getLast? with
  | none => some { w with done := true }
  | some level => w.listed.getLast?.map fun reached =>
    let entry := entryAt style level.path w.levels.length w.relativeStart reached
    { w with
      reached := some reached
      listed := w.listed.dropLast
      relativeStart := entry.relativeStart
      current := some (.entry entry) }

/-- `advance`, where `read` gives what a directory lists before its end or an error. -/
def advance (read : Bytes → List Listed × Option ε) (style : Style) (w : Walk ε) :
    Option (Walk ε) :=
  match w.reached with
  | none => w.reach style
  | some reached =>
    if reached.type = .directory ∧ w.skipped = false ∧ w.levels.length < w.maxDepth then
      let path := w.levels.getLast?.elim w.root fun level => push level.path reached.name style
      match read path with
      | (_, some code) => some { w with reached := none, current := some (.error path code) }
      | (entries, none) =>
        -- pushed in the order listed, then reversed from where they start
        reach style { w with
          listed := w.listed ++ entries.reverse
          levels := w.levels ++ [{ path, listed := w.listed.length }] }
    else w.reach style

/-- `begin`. -/
def begin (read : Bytes → List Listed × Option ε) (style : Style) (w : Walk ε) :
    Option (Walk ε) :=
  if w.started then some w else { w with started := true, skipped := false }.advance read style

/-- `skip`. -/
def skip (w : Walk ε) : Walk ε := { w with skipped := true }

/-- One turn of a loop over the range, whose body calls `skip` or not; it ends with what the
range has given. -/
def turn (read : Bytes → List Listed × Option ε) (style : Style)
    (choose : List (Item ε) → Bool) :
    Walk ε × List (Item ε) → (Walk ε × List (Item ε)) ⊕ Option (List (Item ε))
  | (w, seen) =>
    if w.done then .inr (some seen)
    else
      match w.current with
      | none => .inr none
      | some item =>
        let seen := seen ++ [item]
        match (if choose seen then w.skip else w).advance read style with
        | none => .inr none
        | some w => .inl (w, seen)

end Walk

/-! ## The tree -/

mutual

/-- What a path names: something that is no directory, or a directory with its entries in
the order it lists them, and the error it fails with after these, if it does. -/
inductive Node (ε : Type) where
  | leaf (type : FileType)
  | dir (entries : Entries ε) (error : Option ε)

inductive Entries (ε : Type) where
  | nil
  | cons (name : Bytes) (node : Node ε) (rest : Entries ε)

end

/-- The type a directory lists a node with. -/
def Node.type {ε : Type} : Node ε → FileType
  | .leaf type => type
  | .dir _ _ => .directory

/-- What a directory lists. -/
def Entries.listed {ε : Type} : Entries ε → List Walk.Listed
  | .nil => []
  | .cons name node rest => { name, type := node.type } :: rest.listed

namespace Walk

open Kotatsu.Fs.Path

variable {ε : Type}

section

variable (read : Bytes → List Listed × Option ε) (style : Style)

mutual

/-- Reading gives the tree `node` at `path`. -/
def NodeAt (path : Bytes) : Node ε → Prop
  | .leaf type => type ≠ .directory
  | .dir entries error => read path = (entries.listed, error) ∧
    (error = none → EntriesAt path entries)

def EntriesAt (path : Bytes) : Entries ε → Prop
  | .nil => True
  | .cons name node rest => NodeAt (push path name style) node ∧ EntriesAt path rest

end

end

section

variable (style : Style) (maxDepth : Nat) (choose : List (Item ε) → Bool)

mutual

/-- The recursive traversal of what is behind a node, after what was seen. -/
def traverseNode (path : Bytes) (depth relative : Nat) (seen : List (Item ε)) :
    Node ε → List (Item ε)
  | .leaf _ => seen
  | .dir entries none => traverseEntries path depth relative seen entries
  | .dir _ (some code) => seen ++ [.error path code]

def traverseEntries (path : Bytes) (depth relative : Nat) (seen : List (Item ε)) :
    Entries ε → List (Item ε)
  | .nil => seen
  | .cons name node rest =>
    let entry := entryAt style path (depth + 1) relative { name, type := node.type }
    let seen := seen ++ [.entry entry]
    let seen :=
      if choose seen = true ∨ maxDepth ≤ depth + 1 then seen
      else traverseNode entry.path (depth + 1) entry.relativeStart seen node
    traverseEntries path depth relative seen rest

end

/-- The recursive traversal of the tree under `root`. -/
def traversal (root : Bytes) (node : Node ε) : List (Item ε) :=
  if maxDepth = 0 then [] else traverseNode style maxDepth choose root 0 0 [] node

end

/-! ## The walk is the traversal -/

section

variable {read : Bytes → List Listed × Option ε} {style : Style} {maxDepth : Nat}
  {choose : List (Item ε) → Bool} {w : Walk ε} {levels : List Level} {level : Level}
  {listed : List Listed} {relative : Nat} {seen result : List (Item ε)}

/-- The range is on its way with these levels and entries yet to reach; below the entries of
the root, the names after the root start where they did. -/
structure Stands (maxDepth : Nat) (w : Walk ε) (levels : List Level) (listed : List Listed)
    (relative : Nat) : Prop where
  maxDepth : w.maxDepth = maxDepth
  going : w.done = false
  relative : 1 < levels.length → w.relativeStart = relative
  levels : w.levels = levels
  listed : w.listed = listed

theorem Stands.skip (h : Stands maxDepth w levels listed relative) :
    Stands maxDepth w.skip levels listed relative :=
  ⟨h.maxDepth, h.going, h.relative, h.levels, h.listed⟩

/-- The loop goes on from the next entry the range reaches, and ends with `result`. -/
def Runs (read : Bytes → List Listed × Option ε) (style : Style) (choose : List (Item ε) → Bool)
    (w : Walk ε) (seen result : List (Item ε)) : Prop :=
  ∃ n w', w.reach style = some w' ∧
    loop (turn read style choose) n (w', seen) = some (some result)

/-- The loop goes on from the body that was given the last item. -/
def Goes (read : Bytes → List Listed × Option ε) (style : Style) (choose : List (Item ε) → Bool)
    (w : Walk ε) (seen result : List (Item ε)) : Prop :=
  ∃ n w', (if choose seen then w.skip else w).advance read style = some w' ∧
    loop (turn read style choose) n (w', seen) = some (some result)

/-- An item the range stands on is given. -/
theorem Goes.loop {item : Item ε} (hgoing : w.done = false) (hcurrent : w.current = some item)
    (h : Goes read style choose w (seen ++ [item]) result) :
    ∃ n, loop (turn read style choose) n (w, seen) = some (some result) := by
  obtain ⟨n, w', hadvance, hloop⟩ := h
  refine ⟨n + 1, ?_⟩
  rw [Core.loop, turn, hgoing, if_neg Bool.false_ne_true, hcurrent]
  dsimp only
  rw [hadvance]
  exact hloop

/-- A level with no entries left is popped. -/
theorem reach_pop (hlevels : w.levels = levels ++ [level])
    (hdone : w.listed.length = level.listed) :
    w.reach style = reach style { w with levels } := by
  have hpop : w.levels.rdropWhile (fun level => w.listed.length == level.listed) =
      levels.rdropWhile fun level => w.listed.length == level.listed := by
    rw [hlevels]
    exact List.rdropWhile_concat_pos _ _ _ (beq_iff_eq.mpr hdone)
  unfold reach
  dsimp only
  rw [hpop]

/-- The last of the entries to reach is the next one. -/
theorem reach_entry {next : Listed} (hlevels : w.levels = levels ++ [level])
    (hlisted : w.listed = listed ++ [next]) (hmore : level.listed ≤ listed.length) :
    w.reach style = some { w with
      skipped := false
      reached := some next
      listed
      relativeStart :=
        (entryAt style level.path (levels.length + 1) w.relativeStart next).relativeStart
      current := some (.entry
        (entryAt style level.path (levels.length + 1) w.relativeStart next)) } := by
  have hkeep : w.levels.rdropWhile (fun level => w.listed.length == level.listed) = w.levels := by
    rw [hlevels, List.rdropWhile_concat_neg]
    rw [hlisted, List.length_append, List.length_singleton, beq_iff_eq]
    omega
  unfold reach
  dsimp only
  rw [hkeep, hlevels, List.getLast?_concat, hlisted, List.getLast?_concat, List.length_append]
  dsimp only
  rw [Option.map_some, List.dropLast_concat]
  rfl

/-- Going past an entry goes on to the next one. -/
theorem advance_past {reached : Listed} (hreached : w.reached = some reached)
    (hpast : ¬(reached.type = .directory ∧ w.skipped = false ∧ w.levels.length < w.maxDepth)) :
    w.advance read style = w.reach style := by
  rw [advance, hreached]
  exact if_neg hpast

/-- A directory that cannot be read gives its error, and the walk goes on past it. -/
theorem goes_error {path : Bytes} {code : ε} (h : Stands maxDepth w levels listed relative)
    (hreached : w.reached = none) (hcurrent : w.current = some (.error path code))
    (hrest : ∀ w' : Walk ε, Stands maxDepth w' levels listed relative →
      Runs read style choose w' (seen ++ [.error path code]) result) :
    ∃ n, loop (turn read style choose) n (w, seen) = some (some result) := by
  have hnext : ∀ w' : Walk ε, w'.reached = none → Stands maxDepth w' levels listed relative →
      ∃ n w'', w'.advance read style = some w'' ∧
        loop (turn read style choose) n (w'', seen ++ [.error path code]) =
          some (some result) := by
    intro w' hnone hstands
    obtain ⟨n, w'', hreach, hloop⟩ := hrest w' hstands
    exact ⟨n, w'', by rw [advance, hnone, hreach], hloop⟩
  refine Goes.loop h.going hcurrent ?_
  unfold Goes
  cases choose (seen ++ [.error path code]) with
  | true => exact hnext w.skip hreached h.skip
  | false => exact hnext w hreached h

mutual

/-- From an entry on: what is behind it, and then what `hrest` gives. -/
theorem goes_node (node : Node ε) {w : Walk ε} {levels : List Level} {level : Level}
    {listed : List Listed} {relative : Nat} {seen : List (Item ε)} {name : Bytes}
    (hnode : NodeAt read style (push level.path name style) node)
    (h : Stands maxDepth w (levels ++ [level]) listed relative)
    (hrelative : w.relativeStart = relative)
    (hreached : w.reached = some { name, type := node.type }) (hskipped : w.skipped = false)
    (hrest : ∀ w' : Walk ε, Stands maxDepth w' (levels ++ [level]) listed relative →
      Runs read style choose w' (if choose seen = true ∨ maxDepth ≤ levels.length + 1 then seen
        else traverseNode style maxDepth choose (push level.path name style) (levels.length + 1)
          relative seen node) result) :
    Goes read style choose w seen result := by
  have hlength : w.levels.length = levels.length + 1 := by
    rw [h.levels, List.length_append, List.length_singleton]
  -- where the walk does not go in, what is behind the entry is left out
  have hpast : ¬(node.type = .directory ∧ w.skipped = false ∧ w.levels.length < w.maxDepth) →
      choose seen = false → Runs read style choose w seen result →
      Goes read style choose w seen result := by
    rintro hnot hchoose ⟨n, w', hreach, hloop⟩
    refine ⟨n, w', ?_, hloop⟩
    rw [hchoose, if_neg Bool.false_ne_true, advance_past hreached hnot, hreach]
  cases hchoose : choose seen with
  | true =>
    rw [hchoose, if_pos (.inl rfl)] at hrest
    obtain ⟨n, w', hreach, hloop⟩ := hrest w.skip h.skip
    refine ⟨n, w', ?_, hloop⟩
    rw [hchoose, if_pos rfl, advance_past (w := w.skip) hreached (fun hin => nomatch hin.2.1),
      hreach]
  | false =>
    rw [hchoose] at hrest
    by_cases hdeep : maxDepth ≤ levels.length + 1
    · rw [if_pos (.inr hdeep)] at hrest
      refine hpast (fun hin => ?_) hchoose (hrest w h)
      rw [hlength, h.maxDepth] at hin
      omega
    · rw [if_neg (by simpa using hdeep)] at hrest
      cases node with
      | leaf type => exact hpast (fun hin => hnode hin.1) hchoose (hrest w h)
      | dir entries error =>
        obtain ⟨hread, hbelow⟩ := hnode
        have hpath : (w.levels.getLast?.elim w.root fun level => push level.path name style) =
            push level.path name style := by
          rw [h.levels, List.getLast?_concat]
          rfl
        have henter : w.skipped = false ∧ w.levels.length < w.maxDepth := by
          refine ⟨hskipped, ?_⟩
          rw [hlength, h.maxDepth]
          omega
        cases error with
        | some code =>
          have hadvance : w.advance read style = some { w with
              reached := none
              current := some (.error (push level.path name style) code) } := by
            rw [advance, hreached]
            dsimp only
            rw [if_pos ⟨rfl, henter⟩, hpath, hread]
          obtain ⟨n, hloop⟩ := goes_error (w := { w with
              reached := none
              current := some (.error (push level.path name style) code) })
            ⟨h.maxDepth, h.going, h.relative, h.levels, h.listed⟩ rfl rfl hrest
          exact ⟨n, _, by rw [hchoose, if_neg Bool.false_ne_true, hadvance], hloop⟩
        | none =>
          have hadvance : w.advance read style = reach style { w with
              listed := w.listed ++ entries.listed.reverse
              levels := w.levels ++
                [{ path := push level.path name style, listed := w.listed.length }] } := by
            rw [advance, hreached]
            dsimp only
            rw [if_pos ⟨rfl, henter⟩, hpath, hread]
          obtain ⟨n, w', hreach, hloop⟩ := runs_entries entries (w := { w with
              listed := w.listed ++ entries.listed.reverse
              levels := w.levels ++
                [{ path := push level.path name style, listed := w.listed.length }] })
            (hbelow rfl) ⟨h.maxDepth, h.going, fun _ => hrelative, by rw [h.levels, h.listed],
              by rw [h.listed]⟩ (by
                rw [List.length_append, List.length_singleton]
                exact hrest)
          exact ⟨n, w', by rw [hchoose, if_neg Bool.false_ne_true, hadvance, hreach], hloop⟩
termination_by structural node

/-- From the entries of a directory on: these, with what is behind each, and then what
`hrest` gives. -/
theorem runs_entries (entries : Entries ε) {w : Walk ε} {levels : List Level}
    {listed : List Listed} {relative : Nat} {seen : List (Item ε)} {path : Bytes}
    (hentries : EntriesAt read style path entries)
    (h : Stands maxDepth w (levels ++ [{ path, listed := listed.length }])
      (listed ++ entries.listed.reverse) relative)
    (hrest : ∀ w' : Walk ε, Stands maxDepth w' levels listed relative →
      Runs read style choose w'
        (traverseEntries style maxDepth choose path levels.length relative seen entries) result) :
    Runs read style choose w seen result := by
  cases entries with
  | nil =>
    have hlisted : w.listed = listed := h.listed.trans (List.append_nil listed)
    obtain ⟨n, w', hreach, hloop⟩ := hrest { w with levels }
      ⟨h.maxDepth, h.going, fun hlt => h.relative (by rw [List.length_append]; omega), rfl,
        hlisted⟩
    exact ⟨n, w', (reach_pop h.levels (congrArg List.length hlisted)).trans hreach, hloop⟩
  | cons name node rest =>
    obtain ⟨hnode, hmore⟩ := hentries
    have hlisted : w.listed = (listed ++ rest.listed.reverse) ++ [{ name, type := node.type }] := by
      rw [h.listed, Entries.listed, List.reverse_cons, List.append_assoc]
    have hentry : entryAt style path (levels.length + 1) w.relativeStart
        { name, type := node.type } =
        entryAt style path (levels.length + 1) relative { name, type := node.type } := by
      by_cases hroot : levels.length = 0
      · rw [hroot]
        rfl
      · rw [h.relative (by rw [List.length_append, List.length_singleton]; omega)]
    obtain ⟨entry, hdef⟩ : ∃ entry, entry = entryAt style path (levels.length + 1) relative
      { name, type := node.type } := ⟨_, rfl⟩
    have hreach : w.reach style = some { w with
        skipped := false
        reached := some { name, type := node.type }
        listed := listed ++ rest.listed.reverse
        relativeStart := entry.relativeStart
        current := some (.entry entry) } := by
      rw [reach_entry h.levels hlisted (by rw [List.length_append]; exact Nat.le_add_right _ _),
        hentry, hdef]
    have hbehind : ∀ w' : Walk ε,
        Stands maxDepth w' (levels ++ [{ path, listed := listed.length }])
          (listed ++ rest.listed.reverse) entry.relativeStart → Runs read style choose w'
          (if choose (seen ++ [.entry entry]) = true ∨ maxDepth ≤ levels.length + 1 then
            seen ++ [.entry entry]
          else traverseNode style maxDepth choose (push path name style) (levels.length + 1)
            entry.relativeStart (seen ++ [.entry entry]) node) result := by
      intro w' hw'
      refine runs_entries rest hmore ⟨hw'.maxDepth, hw'.going, fun hlt => ?_, hw'.levels,
        hw'.listed⟩ (by rw [hdef]; exact hrest)
      rw [List.length_append, List.length_singleton] at hlt
      rw [hw'.relative (by rw [List.length_append, List.length_singleton]; exact hlt), hdef]
      exact if_neg (by omega)
    obtain ⟨n, hloop⟩ := Goes.loop (w := { w with
        skipped := false
        reached := some { name, type := node.type }
        listed := listed ++ rest.listed.reverse
        relativeStart := entry.relativeStart
        current := some (.entry entry) }) h.going rfl (goes_node node hnode
      ⟨h.maxDepth, h.going, fun _ => rfl, h.levels, rfl⟩ rfl rfl rfl hbehind)
    exact ⟨n, _, hreach, hloop⟩
termination_by structural entries

end

/-- With no level left the range ends. -/
theorem runs_done (h : Stands maxDepth w [] listed relative) :
    Runs read style choose w seen seen := by
  refine ⟨1, { w with skipped := false, levels := [], done := true }, ?_, rfl⟩
  unfold reach
  rw [h.levels]
  rfl

/-- An item stands at a depth the walk goes to, which is the number of names below the root
that lead to it. -/
def Placed (style : Style) (maxDepth : Nat) (root : Bytes) : Item ε → Prop
  | .entry entry => ∃ names : List Bytes, names.length = entry.depth ∧ 1 ≤ entry.depth ∧
    entry.depth ≤ maxDepth ∧ entry.path = names.foldl (fun path name => push path name style) root
  | .error path _ => ∃ names : List Bytes, names.length < maxDepth ∧
    path = names.foldl (fun path name => push path name style) root

mutual

theorem placed_node (node : Node ε) {root path : Bytes} {depth relative : Nat}
    {seen : List (Item ε)} {names : List Bytes} (hnames : names.length = depth)
    (hpath : path = names.foldl (fun path name => push path name style) root)
    (hdepth : depth < maxDepth) (hseen : ∀ item ∈ seen, Placed style maxDepth root item) :
    ∀ item ∈ traverseNode style maxDepth choose path depth relative seen node,
      Placed style maxDepth root item := by
  cases node with
  | leaf type => exact hseen
  | dir entries error =>
    cases error with
    | none => exact placed_entries entries hnames hpath hdepth hseen
    | some code =>
      intro item hitem
      obtain hold | hnew := List.mem_append.mp hitem
      · exact hseen item hold
      · obtain rfl := List.mem_singleton.mp hnew
        exact ⟨names, hnames ▸ hdepth, hpath⟩
termination_by structural node

theorem placed_entries (entries : Entries ε) {root path : Bytes} {depth relative : Nat}
    {seen : List (Item ε)} {names : List Bytes} (hnames : names.length = depth)
    (hpath : path = names.foldl (fun path name => push path name style) root)
    (hdepth : depth < maxDepth) (hseen : ∀ item ∈ seen, Placed style maxDepth root item) :
    ∀ item ∈ traverseEntries style maxDepth choose path depth relative seen entries,
      Placed style maxDepth root item := by
  cases entries with
  | nil => exact hseen
  | cons name node rest =>
    have hlength : (names ++ [name]).length = depth + 1 := by
      rw [List.length_append, List.length_singleton, hnames]
    have hbelow : push path name style =
        (names ++ [name]).foldl (fun path name => push path name style) root := by
      rw [List.foldl_append, ← hpath]
      rfl
    have hentry : ∀ item ∈ seen ++ [.entry (entryAt style path (depth + 1) relative
        { name, type := node.type })], Placed style maxDepth root item := by
      intro item hitem
      obtain hold | hnew := List.mem_append.mp hitem
      · exact hseen item hold
      · obtain rfl := List.mem_singleton.mp hnew
        exact ⟨names ++ [name], hlength, Nat.succ_pos depth, hdepth, hbelow⟩
    unfold traverseEntries
    dsimp only
    split
    · exact placed_entries rest hnames hpath hdepth hentry
    · next hin =>
      refine placed_entries rest hnames hpath hdepth ?_
      exact placed_node node hlength hbelow (by rw [not_or] at hin; omega) hentry
termination_by structural entries

end

/-- A loop over the range, which calls `skip` wherever it likes, ends, and has been given the
recursive traversal of the tree: each entry at the depth of its names below the root, which
is at most `maxDepth`. -/
theorem walk_spec (style : Style) (maxDepth : Nat) (choose : List (Item ε) → Bool)
    (early : Bool) {root : Bytes} {entries : Entries ε} {error : Option ε}
    (hroot : NodeAt read style root (.dir entries error)) :
    ∃ w, begin read style { root, maxDepth, skipped := early } = some w ∧
      (∃ n, loop (turn read style choose) n (w, []) =
        some (some (traversal style maxDepth choose root (.dir entries error)))) ∧
      (∀ n result, loop (turn read style choose) n (w, []) = some result →
        result = some (traversal style maxDepth choose root (.dir entries error))) ∧
      ∀ item ∈ traversal style maxDepth choose root (.dir entries error),
        Placed style maxDepth root item := by
  have hends : ∃ w n, begin read style { root, maxDepth, skipped := early } = some w ∧
      loop (turn read style choose) n (w, []) =
        some (some (traversal style maxDepth choose root (.dir entries error))) := by
    have hbegin : begin read style { root, maxDepth, skipped := early } =
        advance read style { root, maxDepth, started := true } := rfl
    by_cases hzero : maxDepth = 0
    · have hpast : advance read style { root, maxDepth, started := true } =
          reach style { root, maxDepth, started := true } :=
        advance_past rfl fun hin => by
          rw [hzero] at hin
          exact Nat.not_lt_zero _ hin.2.2
      have hdone : Runs read style choose { root, maxDepth, started := true } [] [] :=
        runs_done (show Stands maxDepth _ [] [] 0 from ⟨rfl, rfl, nofun, rfl, rfl⟩)
      obtain ⟨n, w, hreach, hloop⟩ := hdone
      exact ⟨w, n, hbegin.trans (hpast.trans hreach), by rw [traversal, if_pos hzero, hloop]⟩
    · have hpos : 0 < maxDepth := Nat.pos_of_ne_zero hzero
      obtain ⟨hread, hbelow⟩ := hroot
      rw [traversal, if_neg hzero]
      cases error with
      | some code =>
        obtain ⟨w, hw⟩ : ∃ w : Walk ε, w = { root, maxDepth, started := true, reached := none,
                                             current := some (.error root code) } := ⟨_, rfl⟩
        have hadvance : advance read style { root, maxDepth, started := true } = some w := by
          rw [advance]
          dsimp only
          rw [if_pos ⟨rfl, rfl, hpos⟩, List.getLast?_nil, Option.elim_none, hread, hw]
        have hstands : Stands maxDepth w [] [] 0 := by
          rw [hw]
          exact ⟨rfl, rfl, nofun, rfl, rfl⟩
        have hloop : ∃ n, loop (turn read style choose) n (w, []) =
            some (some ([] ++ [.error root code])) :=
          goes_error hstands (by rw [hw]) (by rw [hw]) fun w' hw' => runs_done hw'
        obtain ⟨n, hloop⟩ := hloop
        exact ⟨w, n, hbegin.trans hadvance, hloop⟩
      | none =>
        obtain ⟨w, hw⟩ : ∃ w : Walk ε, w = { root, maxDepth, started := true,
                                             listed := entries.listed.reverse,
                                             levels := [{ path := root, listed := 0 }] } :=
          ⟨_, rfl⟩
        have hadvance : advance read style { root, maxDepth, started := true } =
            reach style w := by
          rw [advance]
          dsimp only
          rw [if_pos ⟨rfl, rfl, hpos⟩, List.getLast?_nil, Option.elim_none, hread, hw]
          rfl
        have hstands : Stands maxDepth w
            ([] ++ [{ path := root, listed := ([] : List Listed).length }])
            ([] ++ entries.listed.reverse) 0 := by
          rw [hw]
          exact ⟨rfl, rfl, fun hlt => absurd hlt (Nat.lt_irrefl 1), rfl, rfl⟩
        have hruns : Runs read style choose w []
            (traverseEntries style maxDepth choose root 0 0 [] entries) :=
          runs_entries entries (hbelow rfl) hstands fun w' hw' => runs_done hw'
        obtain ⟨n, w', hreach, hloop⟩ := hruns
        exact ⟨w', n, hbegin.trans (hadvance.trans hreach), hloop⟩
  obtain ⟨w, n, hbegin, hloop⟩ := hends
  refine ⟨w, hbegin, ⟨n, hloop⟩, fun m result hresult => loop_unique hresult hloop, ?_⟩
  unfold traversal
  split
  · exact nofun
  · next hpos =>
    exact placed_node _ (show ([] : List Bytes).length = 0 from rfl) rfl
      (Nat.pos_of_ne_zero hpos) nofun

end

/-- A directory `r` with a directory `a`, which cannot be read, and a file `b`. -/
def readUnreadable : Bytes → List Listed × Option Nat := fun path =>
  if path = [114] then
    ([{ name := [97], type := .directory }, { name := [98], type := .regular }], none)
  else ([{ name := [99], type := .regular }], some 13)

theorem walk_spec_unreadable :
    ∃ w, begin readUnreadable .posix { root := [114], maxDepth := 2 } = some w ∧
      ∃ n, loop (turn readUnreadable .posix fun _ => false) n (w, []) = some (some
        [.entry { path := [114, 47, 97], depth := 1, type := .directory,
                  relativeStart := 2, nameStart := 2 },
          .error [114, 47, 97] 13,
          .entry { path := [114, 47, 98], depth := 1, type := .regular,
                   relativeStart := 2, nameStart := 2 }]) := by
  have hroot : NodeAt readUnreadable .posix [114]
      (.dir (.cons [97] (.dir (.cons [99] (.leaf .regular) .nil) (some 13))
        (.cons [98] (.leaf .regular) .nil)) none) :=
    ⟨rfl, fun _ => ⟨⟨rfl, nofun⟩, nofun, trivial⟩⟩
  obtain ⟨w, hbegin, hloop, -, -⟩ := walk_spec .posix 2 (fun _ => false) false hroot
  exact ⟨w, hbegin, hloop⟩

end Walk

end Kotatsu.Fs
