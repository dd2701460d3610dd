import Kotatsu.Support.Utf16
import Kotatsu.Sys.Cmd.Split

/-!
# Expanding response files

`expand_view` keeps the response files it is reading on a stack and one notion of the
argument at hand. What it has still to give is read off the stack: the rest of the
innermost file, then the rest of the file that names it, and at last of the command. A
step of `settle` takes the next entry of that, so that iterating gives what a recursion
over the files would.
-/

namespace Kotatsu.Sys.Cmd

open Kotatsu.Core Kotatsu.Support

/-! ## Response files -/

/-- The units of UTF-16 bytes. -/
def unitsOf (little : Bool) : Bytes → List UInt16
  | first :: second :: text =>
    let unit :=
      if little then first.toNat ||| (second.toNat <<< 8)
      else (first.toNat <<< 8) ||| second.toNat
    UInt16.ofNat unit :: unitsOf little text
  | _ => []

/-- `decode`: none for UTF-16 of an odd number of bytes. -/
def decode (text : Bytes) : Option Bytes :=
  if [0xEF, 0xBB, 0xBF].isPrefixOf text then some (text.drop 3)
  else
    let little := [0xFF, 0xFE].isPrefixOf text
    if !little && !([0xFE, 0xFF].isPrefixOf text) then some text
    else if text.length % 2 ≠ 0 then none
    else some (fromUtf16 (unitsOf little (text.drop 2)))

/-- `expand_view`; `read` gives no text for an error. -/
structure ExpandView where
  arguments : List Bytes
  quoting : Quoting
  read : Bytes → Option Bytes

/-- How a response file is read. -/
def Quoting.fileReading : Quoting → Reading
  | .windows => .windowsFile
  | .posix => .posixFile

/-- `expand_view::iterator::File`. -/
structure File where
  text : Bytes
  arguments : Iterator

/-- `expand_view::iterator`; the innermost file is the first. -/
structure ExpandIterator where
  index : Nat
  files : List File
  argument : Bytes
  done : Bool

/-- `max_depth`. -/
def maxDepth : Nat := 8

/-- `'@'`. -/
def atByte : UInt8 := 0x40

namespace ExpandView

variable (view : ExpandView)

/-- `advance`. -/
def advance (it : ExpandIterator) : ExpandIterator :=
  match it.files with
  | [] => { it with index := it.index + 1 }
  | file :: files => { it with files := { file with arguments := file.arguments.next } :: files }

/-- The text of the response file an argument names. -/
def readFile (argument : Bytes) : Option Bytes := (view.read (argument.drop 1)).bind decode

/-- The file of a text, at its first argument. -/
def openFile (text : Bytes) : File :=
  { text := text, arguments := Iterator.start text view.quoting.fileReading }

/-- The turn of `settle` for the argument at hand, and whether it ends there. -/
def settleAt (it : ExpandIterator) (argument : Bytes) : ExpandIterator × Bool :=
  let it := { it with argument := argument }
  if argument.head? ≠ some atByte ∨ it.files.length = maxDepth then (it, true)
  else
    match view.readFile argument with
    | none => (it, true)
    | some text => ({ it with files := view.openFile text :: it.files }, false)

/-- A turn of the loop of `settle`, and whether it ends there. -/
def settleTurn (it : ExpandIterator) : ExpandIterator × Bool :=
  match it.files with
  | file :: files =>
    if file.arguments.done then (advance { it with files := files }, false)
    else view.settleAt it file.arguments.value
  | [] =>
    if it.index = view.arguments.length then ({ it with done := true }, true)
    else view.settleAt it (view.arguments.getD it.index [])

/-- `settle`, with fuel for the turns. -/
def settle : Nat → ExpandIterator → Option ExpandIterator
  | 0, _ => none
  | fuel + 1, it =>
    match view.settleTurn it with
    | (it, true) => some it
    | (it, false) => settle fuel it

/-- The iterator before it has settled. -/
def initial : ExpandIterator := { index := 0, files := [], argument := [], done := false }

/-- `begin`. -/
def begin' (fuel : Nat) : Option ExpandIterator := view.settle fuel initial

/-- `operator++`. -/
def next (fuel : Nat) (it : ExpandIterator) : Option ExpandIterator :=
  view.settle fuel (advance it)

/-- The arguments from the one at hand on, with fuel for the turns. -/
def collect : Nat → ExpandIterator → Option (List Bytes)
  | 0, _ => none
  | fuel + 1, it =>
    if it.done then some []
    else do
      let it' ← view.next fuel it
      let arguments ← collect fuel it'
      some (it.argument :: arguments)

/-- All arguments of the view, with fuel for the turns. -/
def expand (fuel : Nat) : Option (List Bytes) := do
  let it ← view.begin' fuel
  view.collect fuel it

/-! ## The recursion -/

/-- The units of UTF-16 in pairs of bytes, if no byte is left over. -/
def pairs (little : Bool) : Bytes → Option (List UInt16)
  | [] => some []
  | [_] => none
  | first :: second :: text =>
    let unit :=
      if little then first.toNat + 256 * second.toNat else 256 * first.toNat + second.toNat
    (pairs little text).map (UInt16.ofNat unit :: ·)

/-- What a response file says. -/
def said : Bytes → Option Bytes
  | 0xEF :: 0xBB :: 0xBF :: text => some text
  | 0xFF :: 0xFE :: text => (pairs true text).map fromUtf16
  | 0xFE :: 0xFF :: text => (pairs false text).map fromUtf16
  | text => some text

/-- The arguments of the response file an argument names, if it names one that can be
read. -/
def included : Bytes → Option (List Bytes)
  | 0x40 :: name => ((view.read name).bind said).map view.quoting.fileReading.arguments
  | _ => none

theorem pairs_eq (little : Bool) (text : Bytes) :
    pairs little text = if text.length % 2 ≠ 0 then none else some (unitsOf little text) := by
  have hor (low high : UInt8) : high.toNat <<< 8 ||| low.toNat = 256 * high.toNat + low.toNat := by
    rw [← Nat.shiftLeft_add_eq_or_of_lt low.toNat_lt, Nat.shiftLeft_eq, Nat.mul_comm]
  fun_induction pairs little text with
  | case1 => rfl
  | case2 => rfl
  | case3 first second text unit ih =>
    have hunit : unit = if little then first.toNat ||| (second.toNat <<< 8)
        else (first.toNat <<< 8) ||| second.toNat := by
      rw [Nat.or_comm first.toNat, hor, hor, Nat.add_comm (256 * _) first.toNat]
    rw [ih, unitsOf, hunit, apply_ite (Option.map _), Option.map_none, Option.map_some]
    simp only [List.length_cons, Nat.add_assoc, Nat.add_mod_right]

theorem decode_eq_said (text : Bytes) : decode text = said text := by
  have hmarked (little : Bool) (text : Bytes) : (pairs little text).map fromUtf16 =
      if (text.length + 1 + 1) % 2 ≠ 0 then none else some (fromUtf16 (unitsOf little text)) := by
    rw [pairs_eq, apply_ite (Option.map _), Option.map_none, Option.map_some]
    simp only [Nat.add_assoc, Nat.add_mod_right]
  fun_cases said text with
  | case1 text => rfl
  | case2 text => exact (hmarked true text).symm
  | case3 text => exact (hmarked false text).symm
  | case4 _ hutf8 hlittle hbig =>
    have hmark (mark : Bytes) (h : ∀ rest, text ≠ mark ++ rest) : mark.isPrefixOf text = false := by
      rw [Bool.eq_false_iff, ne_eq, List.isPrefixOf_iff_prefix]
      rintro ⟨rest, heq⟩
      exact h rest heq.symm
    rw [decode, hmark _ hutf8, hmark _ hlittle, hmark _ hbig]
    rfl

/-- `settle` opens what the recursion does. -/
theorem included_eq (argument : Bytes) :
    view.included argument =
      if argument.head? = some atByte then
        (view.readFile argument).map view.quoting.fileReading.arguments
      else none := by
  split
  · next h =>
    obtain ⟨name, rfl⟩ := List.head?_eq_some_iff.mp h
    rw [readFile, funext decode_eq_said]
    rfl
  · next h =>
    unfold included
    split
    · exact absurd rfl h
    · rfl

/-- What an argument is expanded to with so many files left to open: itself, or what the
arguments of the file it names are expanded to. -/
def expansion : Nat → Bytes → List Bytes
  | 0, argument => [argument]
  | depth + 1, argument =>
    match view.included argument with
    | none => [argument]
    | some arguments => arguments.flatMap (expansion depth)

/-- The same, with a mark where a file is opened and where it is closed. -/
def trace : Nat → Bytes → List (Option Bytes)
  | 0, argument => [some argument]
  | depth + 1, argument =>
    match view.included argument with
    | none => [some argument]
    | some arguments => none :: arguments.flatMap (trace depth) ++ [none]

theorem filterMap_trace (depth : Nat) (argument : Bytes) :
    (view.trace depth argument).filterMap id = view.expansion depth argument := by
  induction depth generalizing argument with
  | zero => rfl
  | succ depth ih =>
    rw [trace, expansion]
    cases view.included argument with
    | none => rfl
    | some arguments =>
      have hmark : ([none] : List (Option Bytes)).filterMap id = [] := rfl
      dsimp only
      rw [List.filterMap_append, List.filterMap_cons_none rfl, hmark, List.append_nil,
        List.filterMap_flatMap]
      simp only [ih]

/-! ## What is still to come -/

/-- What comes after the argument at hand of the innermost of these files. -/
def behind (index : Nat) : List File → List (Option Bytes)
  | [] => (view.arguments.drop (index + 1)).flatMap (view.trace maxDepth)
  | file :: files =>
    file.arguments.next.arguments.flatMap (view.trace (maxDepth - (files.length + 1))) ++
      none :: behind index files

/-- What comes from the argument at hand on. -/
def pending (it : ExpandIterator) : List (Option Bytes) :=
  match it.files with
  | [] => (view.arguments.drop it.index).flatMap (view.trace maxDepth)
  | file :: files =>
    file.arguments.arguments.flatMap (view.trace (maxDepth - (files.length + 1))) ++
      none :: view.behind it.index files

theorem pending_advance (it : ExpandIterator) :
    view.pending (advance it) = view.behind it.index it.files := by
  unfold advance
  cases hfiles : it.files with
  | nil => rw [pending, behind]
  | cons file files => rfl

/-- An open file is at an argument of its own text. -/
def Reads (file : File) : Prop :=
  ∃ n, file.arguments =
    Iterator.next^[n] (Iterator.start file.text view.quoting.fileReading)

/-- There is an argument at hand in each of the open files and in the command. -/
structure Holds (index : Nat) (files : List File) : Prop where
  index : index < view.arguments.length
  files : ∀ file ∈ files, file.arguments.done = false

/-- No more files are open than may be, each at an argument of its text; and every one
but the innermost, and the command, is at the argument that names the next. -/
structure Valid (it : ExpandIterator) : Prop where
  length : it.files.length ≤ maxDepth
  reads : ∀ file ∈ it.files, view.Reads file
  index : it.index ≤ view.arguments.length
  holds : ∀ file files, it.files = file :: files → view.Holds it.index files

theorem initial_valid : view.Valid initial where
  length := Nat.zero_le _
  reads := List.forall_mem_nil _
  index := Nat.zero_le _
  holds := fun _ _ h => absurd h (List.cons_ne_nil _ _).symm

theorem Reads.next {file : File} (h : view.Reads file) :
    view.Reads { file with arguments := file.arguments.next } := by
  obtain ⟨n, hn⟩ := h
  exact ⟨n + 1, by rw [hn, Function.iterate_succ_apply']⟩

variable {it : ExpandIterator}

/-- Moving on from an argument at hand. -/
theorem advance_valid (h : view.Valid it) (hold : view.Holds it.index it.files) :
    view.Valid (advance it) := by
  unfold advance
  cases hfiles : it.files with
  | nil =>
    exact ⟨Nat.zero_le _, List.forall_mem_nil _, hold.index,
      fun _ _ hf => absurd hf (List.cons_ne_nil _ _).symm⟩
  | cons file files =>
    have hlength := h.length
    rw [hfiles] at hlength
    refine ⟨hlength, fun f hf => ?_, h.index, fun f fs hf => ?_⟩
    · obtain rfl | hf := List.mem_cons.mp hf
      · exact Reads.next view (h.reads file (hfiles ▸ List.mem_cons_self))
      · exact h.reads f (hfiles ▸ List.mem_cons_of_mem _ hf)
    · obtain ⟨-, rfl⟩ := List.cons.inj hf
      exact h.holds file files hfiles

/-- What a turn of `settle` does: it ends with nothing to come, or at the next argument
to come, or it goes on behind the mark of a file. -/
inductive Turn (it : ExpandIterator) : ExpandIterator × Bool → Prop
  | finished (h : view.pending it = []) : Turn it ({ it with done := true }, true)
  | settled (it' : ExpandIterator) (hvalid : view.Valid it')
    (hold : view.Holds it'.index it'.files) (hdone : it'.done = it.done)
    (h : view.pending it = some it'.argument :: view.behind it'.index it'.files) :
    Turn it (it', true)
  | further (it' : ExpandIterator) (hvalid : view.Valid it') (hdone : it'.done = it.done)
    (h : view.pending it = none :: view.pending it') : Turn it (it', false)

/-- The argument at hand, given that it comes first of what is to come. -/
theorem settleAt_turn (hvalid : view.Valid it) (hold : view.Holds it.index it.files)
    {argument : Bytes} (h : view.pending it = view.trace (maxDepth - it.files.length) argument ++
      view.behind it.index it.files) : view.Turn it (view.settleAt it argument) := by
  have hvalid' : view.Valid { it with argument := argument } :=
    ⟨hvalid.length, hvalid.reads, hvalid.index, hvalid.holds⟩
  have hitself (hnone : maxDepth - it.files.length = 0 ∨ view.included argument = none) :
      view.pending it = some argument :: view.behind it.index it.files := by
    rw [h]
    cases hdepth : maxDepth - it.files.length with
    | zero => rfl
    | succ depth =>
      rw [hdepth] at hnone
      rw [trace, hnone.resolve_left (Nat.succ_ne_zero _)]
      rfl
  unfold settleAt
  dsimp only
  split
  · next hstop =>
    refine .settled _ hvalid' hold rfl (hitself ?_)
    obtain hat | hdepth := hstop
    · exact Or.inr ((view.included_eq _).trans (if_neg hat))
    · exact Or.inl (by rw [hdepth, Nat.sub_self])
  · next hopen =>
    rw [not_or, not_not] at hopen
    obtain ⟨hat, hdepth⟩ := hopen
    have hlt : it.files.length < maxDepth := lt_of_le_of_ne hvalid.length hdepth
    cases hread : view.readFile argument with
    | none =>
      refine .settled _ hvalid' hold rfl (hitself (Or.inr ?_))
      rw [included_eq, if_pos hat, hread, Option.map_none]
    | some text =>
      refine .further _ ⟨hlt, fun f hf => ?_, hvalid.index, fun f fs hf => ?_⟩ rfl ?_
      · obtain rfl | hf := List.mem_cons.mp hf
        · exact ⟨0, rfl⟩
        · exact hvalid.reads f hf
      · obtain ⟨-, rfl⟩ := List.cons.inj hf
        exact hold
      · have hincluded : view.included argument =
            some (view.quoting.fileReading.arguments text) := by
          rw [included_eq, if_pos hat, hread, Option.map_some]
        obtain ⟨depth, hdepth⟩ : ∃ depth, maxDepth - it.files.length = depth + 1 :=
          ⟨maxDepth - it.files.length - 1, by omega⟩
        have hinner : maxDepth - (it.files.length + 1) = depth := by omega
        rw [h, hdepth, trace, hincluded, pending]
        dsimp only
        rw [hinner, List.cons_append, List.cons_append, List.append_assoc]
        rfl

theorem settleTurn_turn (hvalid : view.Valid it) : view.Turn it (view.settleTurn it) := by
  unfold settleTurn
  split
  · next file files hfiles =>
    have hhold := hvalid.holds file files hfiles
    split
    · next hdone =>
      have hlength := hvalid.length
      rw [hfiles, List.length_cons] at hlength
      have houter : view.Valid { it with files := files } := by
        refine ⟨Nat.le_of_succ_le hlength,
          fun f hf => hvalid.reads f (hfiles ▸ List.mem_cons_of_mem _ hf), hvalid.index,
          fun f fs hf => ⟨hhold.index, fun g hg => hhold.files g ?_⟩⟩
        dsimp only at hf
        rw [hf]
        exact List.mem_cons_of_mem _ hg
      refine .further _ (view.advance_valid houter hhold) ?_ ?_
      · unfold advance
        dsimp only
        split <;> rfl
      · have hnil : file.arguments.arguments = [] := by
          rw [Iterator.arguments, if_pos hdone]
        rw [view.pending_advance, pending, hfiles]
        dsimp only
        rw [hnil]
        rfl
    · next hdone =>
      have hold : view.Holds it.index it.files := by
        refine ⟨hhold.index, fun f hf => ?_⟩
        rw [hfiles] at hf
        obtain rfl | hf := List.mem_cons.mp hf
        · exact Bool.eq_false_iff.mpr hdone
        · exact hhold.files f hf
      refine view.settleAt_turn hvalid hold ?_
      rw [pending, hfiles]
      dsimp only
      rw [Iterator.arguments, if_neg hdone, List.flatMap_cons, List.append_assoc]
      rfl
  · next hfiles =>
    split
    · next hend =>
      refine .finished ?_
      rw [pending, hfiles]
      dsimp only
      rw [hend, List.drop_length]
      rfl
    · next hend =>
      have hlt : it.index < view.arguments.length := lt_of_le_of_ne hvalid.index hend
      refine view.settleAt_turn hvalid ⟨hlt, fun f hf => by rw [hfiles] at hf; cases hf⟩ ?_
      rw [pending, hfiles]
      dsimp only
      rw [List.drop_eq_getElem_cons hlt, List.flatMap_cons, List.getD_eq_getElem?_getD,
        List.getElem?_eq_getElem hlt]
      rfl

/-! ## Iteration -/

/-- An iterator that has settled, with these arguments to give: past the last one, or at
the first. -/
def Settled (it : ExpandIterator) (arguments : List Bytes) : Prop :=
  it.done = true ∧ arguments = [] ∨
    it.done = false ∧ view.Valid it ∧ view.Holds it.index it.files ∧
      arguments = it.argument :: (view.behind it.index it.files).filterMap id

/-- Settling ends within as many turns as there are entries to come. -/
theorem settle_spec (hvalid : view.Valid it) (hdone : it.done = false) :
    ∃ it', view.Settled it' ((view.pending it).filterMap id) ∧
      ∀ fuel, (view.pending it).length < fuel → view.settle fuel it = some it' := by
  obtain ⟨n, hn⟩ : ∃ n, (view.pending it).length = n := ⟨_, rfl⟩
  induction n using Nat.strong_induction_on generalizing it with
  | _ n ih =>
    have hturn := view.settleTurn_turn hvalid
    generalize hresult : view.settleTurn it = result at hturn
    cases hturn with
    | finished h =>
      refine ⟨{ it with done := true }, Or.inl ⟨rfl, by rw [h]; rfl⟩, fun fuel hfuel => ?_⟩
      obtain ⟨fuel, rfl⟩ := Nat.exists_eq_succ_of_ne_zero (Nat.ne_of_gt (Nat.zero_lt_of_lt hfuel))
      rw [settle, hresult]
    | settled it' hvalid' hold hdone' h =>
      refine ⟨it', Or.inr ⟨hdone'.trans hdone, hvalid', hold, by rw [h]; rfl⟩, fun fuel hfuel => ?_⟩
      obtain ⟨fuel, rfl⟩ := Nat.exists_eq_succ_of_ne_zero (Nat.ne_of_gt (Nat.zero_lt_of_lt hfuel))
      rw [settle, hresult]
    | further it' hvalid' hdone' h =>
      rw [h, List.length_cons] at hn
      obtain ⟨it'', hsettled, hsettle⟩ :=
        ih _ (by omega) hvalid' (hdone'.trans hdone) rfl
      refine ⟨it'', ?_, fun fuel hfuel => ?_⟩
      · rwa [h, List.filterMap_cons_none rfl]
      · obtain ⟨fuel, rfl⟩ :=
          Nat.exists_eq_succ_of_ne_zero (Nat.ne_of_gt (Nat.zero_lt_of_lt hfuel))
        rw [h, List.length_cons] at hfuel
        rw [settle, hresult]
        exact hsettle fuel (by omega)

/-- From a settled iterator on, iterating ends and gives the arguments to give. -/
theorem collect_spec {arguments : List Bytes} (h : view.Settled it arguments) :
    ∃ n, ∀ fuel ≥ n, view.collect fuel it = some arguments := by
  induction arguments generalizing it with
  | nil =>
    obtain ⟨hdone, -⟩ | ⟨-, -, -, hcons⟩ := h
    · refine ⟨1, fun fuel hfuel => ?_⟩
      obtain ⟨fuel, rfl⟩ := Nat.exists_eq_succ_of_ne_zero (Nat.ne_of_gt hfuel)
      rw [collect, if_pos hdone]
    · cases hcons
  | cons argument arguments ih =>
    obtain ⟨-, hcons⟩ | ⟨hdone, hvalid, hold, hcons⟩ := h
    · cases hcons
    · obtain ⟨rfl, rfl⟩ := List.cons.inj hcons
      have hadvanced : (advance it).done = false := by
        unfold advance
        split <;> exact hdone
      obtain ⟨it', hsettled, hsettle⟩ :=
        view.settle_spec (view.advance_valid hvalid hold) hadvanced
      rw [view.pending_advance] at hsettled hsettle
      obtain ⟨n, hn⟩ := ih hsettled
      refine ⟨n + (view.behind it.index it.files).length + 2, fun fuel hfuel => ?_⟩
      obtain ⟨fuel, rfl⟩ :=
        Nat.exists_eq_succ_of_ne_zero (show fuel ≠ 0 by omega)
      have hnext : view.next fuel it = some it' := hsettle fuel (by omega)
      rw [collect, if_neg (by rw [hdone]; exact Bool.false_ne_true), hnext, Option.bind_eq_bind,
        Option.bind_some, hn fuel (by omega)]
      rfl

/-! ## Every moment of an iteration -/

/-- The iterators an iteration goes through, and whether each has settled. -/
inductive Reached : ExpandIterator → Bool → Prop
  | initial : Reached initial false
  | turn {it : ExpandIterator} (h : Reached it false) :
    Reached (view.settleTurn it).1 (view.settleTurn it).2
  | advance {it : ExpandIterator} (h : Reached it true) (hdone : it.done = false) :
    Reached (advance it) false

theorem Reached.spec {settled : Bool} (h : view.Reached it settled) :
    view.Valid it ∧ (settled = true → it.done = false → view.Holds it.index it.files) := by
  induction h with
  | initial => exact ⟨view.initial_valid, fun h => absurd h Bool.false_ne_true⟩
  | turn h ih =>
    have hturn := view.settleTurn_turn ih.1
    generalize view.settleTurn _ = result at hturn
    cases hturn with
    | finished _ =>
      refine ⟨⟨ih.1.length, ih.1.reads, ih.1.index, ih.1.holds⟩, fun _ hdone => ?_⟩
      cases hdone
    | settled it' hvalid hold _ _ => exact ⟨hvalid, fun _ _ => hold⟩
    | further it' hvalid _ _ => exact ⟨hvalid, fun h => absurd h Bool.false_ne_true⟩
  | advance h hdone ih =>
    exact ⟨view.advance_valid ih.1 (ih.2 rfl hdone), fun h => absurd h Bool.false_ne_true⟩

/-- For every command, quoting and function read, files that include themselves among
them: iterating ends and gives what the recursion gives, with as many files to open as
may be open; and at every moment of it no more are open than the stack has room for, each
at an argument of its own text. -/
theorem expand_eq_expansion :
    (∃ n, ∀ fuel ≥ n,
      view.expand fuel = some (view.arguments.flatMap (view.expansion maxDepth))) ∧
    ∀ it settled, view.Reached it settled →
      it.files.length ≤ maxDepth ∧ ∀ file ∈ it.files, view.Reads file := by
  refine ⟨?_, fun it settled h => ⟨h.spec.1.length, h.spec.1.reads⟩⟩
  obtain ⟨it, hsettled, hsettle⟩ := view.settle_spec view.initial_valid rfl
  have hall : (view.pending initial).filterMap id =
      view.arguments.flatMap (view.expansion maxDepth) := by
    have hpending : view.pending initial = view.arguments.flatMap (view.trace maxDepth) := rfl
    rw [hpending, List.filterMap_flatMap]
    simp only [filterMap_trace]
  rw [hall] at hsettled
  obtain ⟨n, hn⟩ := view.collect_spec hsettled
  refine ⟨n + (view.pending initial).length + 1, fun fuel hfuel => ?_⟩
  have hbegin : view.begin' fuel = some it := hsettle fuel (by omega)
  rw [expand, hbegin, Option.bind_eq_bind, Option.bind_some, hn fuel (by omega)]

/-- A command whose response file names itself. -/
def selfIncluding : ExpandView :=
  { arguments := [ascii "@a"], quoting := .posix
    read := fun name => if name = ascii "a" then some (ascii "x @a") else none }

theorem expand_selfIncluding :
    (∃ n, ∀ fuel ≥ n, selfIncluding.expand fuel =
      some (selfIncluding.arguments.flatMap (selfIncluding.expansion maxDepth))) ∧
    initial.files.length ≤ maxDepth :=
  ⟨(expand_eq_expansion selfIncluding).1,
    ((expand_eq_expansion selfIncluding).2 initial false .initial).1⟩

end ExpandView

end Kotatsu.Sys.Cmd
