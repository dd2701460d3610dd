import Kotatsu.Core.Loop
import Kotatsu.Fs.Path.Root
import Mathlib.Data.List.Forall2

/-!
# Lists of paths

A list such as `PATH` is read an entry at a time: an entry ends at the first separator
outside quotes, and quotes are left out of a Windows entry. Joining paths quotes those that
hold the separator, and a lone empty one, so that reading gives them back.
-/

namespace Kotatsu.Sys.Env

open Kotatsu.Core Kotatsu.Fs.Path

/-- `';'`. -/
def semicolonByte : UInt8 := 0x3B

/-- What separates the entries of a list. -/
def separatorByte : Style → UInt8
  | .windows => semicolonByte
  | .posix => colon

/-! ## Splitting -/

/-- `split_paths_view::iterator`. -/
structure Iterator where
  rest : Bytes
  style : Style
  entry : Bytes
  unquoted : Bytes
  quoted : Bool
  done : Bool
  last : Bool

/-- `operator*`. -/
def Iterator.value (it : Iterator) : Bytes := if it.quoted then it.unquoted else it.entry

/-- Where the entry ends that a text begins with, and whether it has quotes. -/
def scanEntry (style : Style) : Bytes → Bool → Bool → Nat × Bool
  | [], _, quoted => (0, quoted)
  | c :: rest, inside, quoted =>
    if style = .windows ∧ c = quoteByte then
      let scanned := scanEntry style rest (!inside) true
      (scanned.1 + 1, scanned.2)
    else if c = separatorByte style ∧ inside = false then (0, quoted)
    else
      let scanned := scanEntry style rest inside quoted
      (scanned.1 + 1, scanned.2)

/-- `operator++`. -/
def Iterator.next (it : Iterator) : Iterator :=
  if it.last then { it with done := true }
  else
    let scanned := scanEntry it.style it.rest false false
    let entry := it.rest.take scanned.1
    { it with
      entry := entry
      quoted := scanned.2
      unquoted := if scanned.2 then entry.filter (· ≠ quoteByte) else it.unquoted
      last := scanned.1 == it.rest.length
      rest := it.rest.drop (min (scanned.1 + 1) it.rest.length) }

/-- An iterator in front of a list. -/
def Iterator.before (list : Bytes) (style : Style) : Iterator :=
  { rest := list, style := style, entry := [], unquoted := [], quoted := false, done := false,
    last := false }

/-- `split_paths_view::begin`. -/
def Iterator.first (list : Bytes) (style : Style) : Iterator :=
  if style = .windows ∧ list = [] then { Iterator.before list style with done := true }
  else (Iterator.before list style).next

/-- One turn of a loop over the entries, from those met so far. -/
def collectTurn : Iterator × List Bytes → (Iterator × List Bytes) ⊕ List Bytes
  | (it, entries) => if it.done then .inr entries else .inl (it.next, entries ++ [it.value])

/-- The entries `split_paths` gives, where the loop over them ends. -/
def SplitsInto (list : Bytes) (style : Style) (entries : List Bytes) : Prop :=
  ∃ turns, loop collectTurn turns (Iterator.first list style, []) = some entries

variable {style : Style} {it : Iterator} {entries : List Bytes} {value text : Bytes}

/-- The loop gives one list of entries. -/
theorem SplitsInto.unique {list : Bytes} {entries entries' : List Bytes}
    (h : SplitsInto list style entries) (h' : SplitsInto list style entries') :
    entries = entries' :=
  loop_unique h.choose_spec h'.choose_spec

/-! ## Joining -/

/-- `join_paths` from one index on, behind what is written. -/
def joinFrom (style : Style) (count i : Nat) (out : Bytes) : List Bytes → Option Bytes
  | [] => some out
  | path :: paths =>
    if (if style = .posix then colon else quoteByte) ∈ path then none
    else
      let out := if i ≠ 0 then out ++ [if style = .posix then colon else semicolonByte] else out
      let quote := style ≠ .posix ∧ (semicolonByte ∈ path ∨ (count = 1 ∧ path = []))
      let out := if quote then out ++ [quoteByte] else out
      let out := out ++ path
      let out := if quote then out ++ [quoteByte] else out
      joinFrom style count (i + 1) out paths

/-- `join_paths`; none stands for `invalid_argument`. -/
def joinPaths (paths : List Bytes) (style : Style) : Option Bytes :=
  joinFrom style paths.length 0 [] paths

/-! ## Iterating -/

/-- A loop from an iterator ends with the entries given behind those it has. -/
def Yields (it : Iterator) (entries : List Bytes) : Prop :=
  ∀ met, ∃ turns, loop collectTurn turns (it, met) = some (met ++ entries)

theorem yields_done (h : it.done = true) : Yields it [] := by
  intro met
  refine ⟨1, ?_⟩
  rw [loop, collectTurn, if_pos h, Sum.elim_inr, List.append_nil]

theorem Yields.cons (h : Yields it.next entries) (hdone : it.done = false) :
    Yields it (it.value :: entries) := by
  intro met
  obtain ⟨turns, hturns⟩ := h (met ++ [it.value])
  refine ⟨turns + 1, ?_⟩
  rw [loop, collectTurn, hdone, if_neg Bool.false_ne_true, Sum.elim_inl, hturns,
    List.append_assoc, List.singleton_append]

/-- An iterator is at an entry, with the rest of the list pending if there is more. -/
structure At (it : Iterator) (style : Style) (value : Bytes) (pending : Option Bytes) : Prop where
  style : it.style = style
  value : it.value = value
  done : it.done = false
  last : it.last = pending.isNone
  rest : ∀ rest, pending = some rest → it.rest = rest

/-- The last entry is followed by the end. -/
theorem At.yields_last (h : At it style value none) : Yields it [value] := by
  have hnext : it.next.done = true := by
    have hlast : it.last = true := h.last
    rw [Iterator.next, if_pos hlast]
  have hyields := (yields_done hnext).cons h.done
  rwa [h.value] at hyields

/-- Any other is followed by what the rest of the list gives. -/
theorem At.yields_cons {value rest : Bytes} (h : At it style value (some rest))
    (hnext : Yields it.next entries) : Yields it (value :: entries) := by
  have hyields := hnext.cons h.done
  rwa [h.value] at hyields

/-! ## One entry -/

/-- A separator or the end of the list, and what is pending behind it. -/
def Ends (style : Style) (after : Bytes) : Option Bytes → Prop
  | none => after = []
  | some rest => after = separatorByte style :: rest

/-- An iterator that has not seen the last entry moves on to the next. -/
theorem next_at {entry after : Bytes} {quoted : Bool} {pending : Option Bytes}
    (hstyle : it.style = style) (hdone : it.done = false) (hlast : it.last = false)
    (hrest : it.rest = entry ++ after)
    (hscan : scanEntry style (entry ++ after) false false = (entry.length, quoted))
    (hends : Ends style after pending) :
    At it.next style (if quoted then entry.filter (· ≠ quoteByte) else entry) pending := by
  have hnext : it.next = { it with
      entry := entry
      quoted := quoted
      unquoted := if quoted then entry.filter (· ≠ quoteByte) else it.unquoted
      last := entry.length == (entry ++ after).length
      rest := (entry ++ after).drop (min (entry.length + 1) (entry ++ after).length) } := by
    rw [Iterator.next, hlast, if_neg Bool.false_ne_true, hstyle, hrest, hscan]
    dsimp only
    rw [List.take_left']
    rfl
  rw [hnext]
  refine ⟨hstyle, ?_, hdone, ?_, ?_⟩
  · cases quoted <;> rfl
  · cases pending with
    | none =>
      obtain rfl : after = [] := hends
      exact beq_iff_eq.mpr (by rw [List.append_nil])
    | some rest =>
      obtain rfl : after = separatorByte style :: rest := hends
      rw [Option.isNone_some, beq_eq_false_iff_ne, List.length_append, List.length_cons]
      omega
  · rintro rest rfl
    obtain rfl : after = separatorByte style :: rest := hends
    have hmin : min (entry.length + 1) (entry ++ separatorByte style :: rest).length =
        entry.length + 1 := by
      rw [List.length_append, List.length_cons]
      omega
    dsimp only
    rw [hmin, drop_succ_append]

/-- Neither a quote nor a separator is among the characters of a part. -/
def PlainIn (style : Style) (inside : Bool) (part : Bytes) : Prop :=
  ∀ c ∈ part, ¬(style = .windows ∧ c = quoteByte) ∧ ¬(c = separatorByte style ∧ inside = false)

/-- A plain part is passed over. -/
theorem scanEntry_plain {inside : Bool} {part : Bytes} (h : PlainIn style inside part)
    (quoted : Bool) (rest : Bytes) :
    scanEntry style (part ++ rest) inside quoted =
      ((scanEntry style rest inside quoted).1 + part.length,
        (scanEntry style rest inside quoted).2) := by
  induction part with
  | nil => rfl
  | cons c part ih =>
    obtain ⟨hquote, hsep⟩ := h c List.mem_cons_self
    rw [List.cons_append, scanEntry, if_neg hquote, if_neg hsep,
      ih fun d hd => h d (List.mem_cons_of_mem _ hd), List.length_cons]
    rfl

/-- The scan stops at the end of the list and at a separator outside quotes. -/
theorem scanEntry_end {after : Bytes} {pending : Option Bytes} (quoted : Bool)
    (h : Ends style after pending) : scanEntry style after false quoted = (0, quoted) := by
  cases pending with
  | none =>
    obtain rfl : after = [] := h
    rfl
  | some rest =>
    obtain rfl : after = separatorByte style :: rest := h
    have hquote : ¬(style = .windows ∧ separatorByte style = quoteByte) := by
      rintro ⟨rfl, heq⟩
      exact absurd heq (by decide)
    rw [scanEntry, if_neg hquote, if_pos ⟨rfl, rfl⟩]

/-- An entry is spelled by a text where scanning the text in front of a separator or the
end of the list ends behind it and gives its value. -/
def SpellsEntry (style : Style) (text value : Bytes) : Prop :=
  ∃ quoted, (∀ after pending, Ends style after pending →
    scanEntry style (text ++ after) false false = (text.length, quoted)) ∧
      (if quoted then text.filter (· ≠ quoteByte) else text) = value

/-- A plain text spells itself. -/
theorem spellsEntry_plain (h : PlainIn style false text) : SpellsEntry style text text := by
  refine ⟨false, fun after pending hends => ?_, rfl⟩
  rw [scanEntry_plain h, scanEntry_end false hends, Nat.zero_add]

/-- A Windows text without quotes is spelled in quotes. -/
theorem spellsEntry_quoted (h : quoteByte ∉ text) :
    SpellsEntry .windows ([quoteByte] ++ text ++ [quoteByte]) text := by
  have hplain : PlainIn .windows true text := by
    intro c hc
    refine ⟨?_, fun hsep => Bool.false_ne_true hsep.2.symm⟩
    rintro ⟨-, rfl⟩
    exact h hc
  refine ⟨true, fun after pending hends => ?_, ?_⟩
  · rw [List.append_assoc, List.append_assoc, List.singleton_append, List.singleton_append,
      scanEntry, if_pos ⟨rfl, rfl⟩, Bool.not_false, scanEntry_plain hplain, scanEntry,
      if_pos ⟨rfl, rfl⟩, Bool.not_true, scanEntry_end true hends]
    simp only [List.length_append, List.length_cons, List.length_nil, Nat.zero_add]
  · have hkept : text.filter (fun c => decide (c ≠ quoteByte)) = text := by
      rw [List.filter_eq_self]
      intro c hc
      rw [decide_eq_true_eq]
      rintro rfl
      exact h hc
    simp only [if_true, List.filter_append, hkept, List.filter_cons, List.filter_nil, ne_eq,
      not_true_eq_false, decide_false, Bool.false_eq_true, if_false, List.nil_append,
      List.append_nil]

/-! ## A whole list -/

/-- A list whose entries are spelled between separators is split into them. -/
theorem yields_intercalate {texts values : List Bytes} (hstyle : it.style = style)
    (hdone : it.done = false) (hlast : it.last = false)
    (hspells : List.Forall₂ (SpellsEntry style) (text :: texts) (value :: values))
    (hrest : it.rest = text ++ texts.flatMap (separatorByte style :: ·)) :
    Yields it.next (value :: values) := by
  induction texts generalizing it text value values with
  | nil =>
    obtain ⟨⟨quoted, hscan, rfl⟩, hnil⟩ := List.forall₂_cons.mp hspells
    cases hnil
    have hends : Ends style [] none := rfl
    exact (next_at hstyle hdone hlast hrest (hscan [] none hends) hends).yields_last
  | cons text' texts ih =>
    obtain ⟨⟨quoted, hscan, rfl⟩, hspells'⟩ := List.forall₂_cons.mp hspells
    cases values with
    | nil => cases hspells'
    | cons value' values =>
    have hends : Ends style (separatorByte style :: (text' ++
        texts.flatMap (separatorByte style :: ·))) (some _) := rfl
    have hat := next_at hstyle hdone hlast hrest (hscan _ _ hends) hends
    exact hat.yields_cons (ih hat.style hat.done hat.last hspells' (hat.rest _ rfl))

/-- A list that is spelled so, and not an empty Windows list, is split into the values. -/
theorem splitsInto_of_spells {texts values : List Bytes}
    (hspells : List.Forall₂ (SpellsEntry style) (text :: texts) (value :: values))
    (hlist : ¬(style = .windows ∧ text ++ texts.flatMap (separatorByte style :: ·) = [])) :
    SplitsInto (text ++ texts.flatMap (separatorByte style :: ·)) style (value :: values) := by
  rw [SplitsInto, Iterator.first, if_neg hlist]
  exact yields_intercalate rfl rfl rfl hspells rfl []

/-- An empty Windows list has no entry. -/
theorem splitsInto_nil : SplitsInto [] .windows [] := yields_done rfl []

/-! ## Joining and splitting -/

/-- What is written for a path of a list of so many. -/
def spellPath (style : Style) (count : Nat) (path : Bytes) : Bytes :=
  if style ≠ .posix ∧ (semicolonByte ∈ path ∨ (count = 1 ∧ path = [])) then
    [quoteByte] ++ path ++ [quoteByte]
  else path

/-- What no path of a list may hold. -/
def refusedByte : Style → UInt8
  | .windows => quoteByte
  | .posix => colon

theorem joinFrom_cons (style : Style) (count i : Nat) (out path : Bytes) (paths : List Bytes) :
    joinFrom style count i out (path :: paths) =
      if refusedByte style ∈ path then none
      else
        joinFrom style count (i + 1)
          (out ++ (if i ≠ 0 then [separatorByte style] else []) ++ spellPath style count path)
          paths := by
  have hrefused : (if style = .posix then colon else quoteByte) = refusedByte style := by
    cases style <;> rfl
  have hseparator : (if style = .posix then colon else semicolonByte) = separatorByte style := by
    cases style <;> rfl
  rw [joinFrom, hrefused, hseparator, spellPath]
  dsimp only
  split
  · rfl
  · by_cases hi : i ≠ 0
    · split <;> simp only [List.append_assoc]
    · split <;> simp only [List.append_assoc, List.append_nil]

/-- The later paths are written behind separators, unless one is refused. -/
theorem joinFrom_later (style : Style) (count : Nat) {i : Nat} (hi : i ≠ 0) (out : Bytes)
    (paths : List Bytes) :
    joinFrom style count i out paths =
      if ∃ path ∈ paths, refusedByte style ∈ path then none
      else
        some (out ++ (paths.map (spellPath style count)).flatMap (separatorByte style :: ·)) := by
  induction paths generalizing i out with
  | nil =>
    rw [joinFrom, if_neg (by simp), List.map_nil, List.flatMap_nil, List.append_nil]
  | cons path paths ih =>
    rw [joinFrom_cons]
    by_cases hpath : refusedByte style ∈ path
    · rw [if_pos hpath, if_pos ⟨path, List.mem_cons_self, hpath⟩]
    · rw [if_neg hpath, if_pos hi, ih (Nat.succ_ne_zero i)]
      simp only [List.mem_cons, exists_eq_or_imp, hpath, false_or, List.map_cons,
        List.flatMap_cons, List.append_assoc, List.cons_append, List.nil_append]

/-- A list of paths is refused with one of its paths. -/
theorem joinPaths_eq_none {paths : List Bytes} :
    joinPaths paths style = none ↔ ∃ path ∈ paths, refusedByte style ∈ path := by
  cases paths with
  | nil => simp [joinPaths, joinFrom]
  | cons path paths =>
    rw [joinPaths, joinFrom_cons, joinFrom_later style _ (Nat.succ_ne_zero 0)]
    simp only [List.mem_cons, exists_eq_or_imp]
    split
    · next hpath => simp only [hpath, true_or]
    · next hpath => simp only [hpath, false_or, ite_eq_left_iff, reduceCtorEq, imp_false, not_not]

/-- A path that is not refused is spelled by what is written for it. -/
theorem spellsEntry_spellPath {path : Bytes} (count : Nat) (h : refusedByte style ∉ path) :
    SpellsEntry style (spellPath style count path) path := by
  unfold spellPath
  split
  · next hquote =>
    cases style with
    | posix => exact absurd rfl hquote.1
    | windows => exact spellsEntry_quoted h
  · next hquote =>
    refine spellsEntry_plain fun c hc => ?_
    cases style with
    | posix =>
      refine ⟨fun hwindows => absurd hwindows.1 (by decide), ?_⟩
      rintro ⟨rfl, -⟩
      exact h hc
    | windows =>
      refine ⟨?_, ?_⟩
      · rintro ⟨-, rfl⟩
        exact h hc
      · rintro ⟨rfl, -⟩
        exact hquote ⟨by decide, .inl hc⟩

/-- A list of paths that is written, and does not read as no list, is read back. -/
theorem splitsInto_joinPaths {path : Bytes} {paths : List Bytes} {out : Bytes}
    (h : joinPaths (path :: paths) style = some out) : SplitsInto out style (path :: paths) := by
  have hallowed : ∀ p ∈ path :: paths, refusedByte style ∉ p := by
    intro p hp hmem
    rw [joinPaths_eq_none.mpr ⟨p, hp, hmem⟩] at h
    cases h
  have hcount : (path :: paths).length = paths.length + 1 := rfl
  have hout : out = spellPath style (paths.length + 1) path ++
      (paths.map (spellPath style (paths.length + 1))).flatMap (separatorByte style :: ·) := by
    rw [joinPaths, joinFrom_cons, if_neg (hallowed path List.mem_cons_self),
      joinFrom_later style _ (Nat.succ_ne_zero 0), if_neg, hcount] at h
    · exact (Option.some.inj h).symm
    · rintro ⟨p, hp, hmem⟩
      exact hallowed p (List.mem_cons_of_mem _ hp) hmem
  rw [hout]
  refine splitsInto_of_spells ?_ ?_
  · rw [← List.map_cons, List.forall₂_map_left_iff, List.forall₂_same]
    exact fun p hp => spellsEntry_spellPath _ (hallowed p hp)
  · rintro ⟨rfl, hnil⟩
    obtain ⟨hfirst, hlater⟩ := List.append_eq_nil_iff.mp hnil
    cases paths with
    | nil =>
      unfold spellPath at hfirst
      split at hfirst
      · cases hfirst
      · next hquote => exact hquote ⟨by decide, .inr ⟨rfl, hfirst⟩⟩
    | cons later paths =>
      rw [List.map_cons, List.flatMap_cons] at hlater
      cases hlater

/-! ## Every list -/

/-- The separators of a text outside quotes. -/
def separators (style : Style) (inside : Bool) : Bytes → Nat
  | [] => 0
  | c :: rest =>
    if style = .windows ∧ c = quoteByte then separators style (!inside) rest
    else if c = separatorByte style ∧ inside = false then separators style false rest + 1
    else separators style inside rest

/-- A scan ends at the end of the list or at its first separator outside quotes. -/
theorem scanEntry_spec (style : Style) (text : Bytes) (inside quoted : Bool) :
    ∃ entry after pending quoted', text = entry ++ after ∧ Ends style after pending ∧
      scanEntry style text inside quoted = (entry.length, quoted') ∧
      separators style inside text =
        pending.elim 0 fun rest => separators style false rest + 1 := by
  induction text generalizing inside quoted with
  | nil => exact ⟨[], [], none, quoted, rfl, rfl, rfl, rfl⟩
  | cons c text ih =>
    rw [scanEntry, separators]
    split
    · obtain ⟨entry, after, pending, quoted', rfl, hends, hscan, hcount⟩ := ih (!inside) true
      exact ⟨c :: entry, after, pending, quoted', rfl, hends, by rw [hscan]; rfl, hcount⟩
    · split
      · next hsep =>
        exact ⟨[], c :: text, some text, quoted, rfl, by rw [hsep.1]; rfl, rfl, rfl⟩
      · obtain ⟨entry, after, pending, quoted', rfl, hends, hscan, hcount⟩ := ih inside quoted
        exact ⟨c :: entry, after, pending, quoted', rfl, hends, by rw [hscan]; rfl, hcount⟩

/-- A list ends, with one entry more than it has separators outside quotes. -/
theorem yields_separators (it : Iterator) (hstyle : it.style = style) (hdone : it.done = false)
    (hlast : it.last = false) :
    ∃ entries, Yields it.next entries ∧
      entries.length = separators style false it.rest + 1 := by
  induction hn : it.rest.length using Nat.strongRecOn generalizing it with
  | ind n ih =>
    obtain ⟨entry, after, pending, quoted, hrest, hends, hscan, hcount⟩ :=
      scanEntry_spec style it.rest false false
    rw [hcount]
    rw [hrest] at hscan
    have hat := next_at hstyle hdone hlast hrest hscan hends
    cases pending with
    | none => exact ⟨_, hat.yields_last, rfl⟩
    | some rest =>
      have hlt : it.next.rest.length < n := by
        rw [hat.rest rest rfl, ← hn, hrest, show after = separatorByte style :: rest from hends,
          List.length_append, List.length_cons]
        omega
      obtain ⟨entries, hyields, hlength⟩ := ih _ hlt it.next hat.style hat.done hat.last rfl
      rw [hat.rest rest rfl] at hlength
      exact ⟨_, hat.yields_cons hyields, by rw [List.length_cons, hlength, Option.elim_some]⟩

/-- Lists of paths are written and read back: a list is refused with a path that no list can
hold, and any other is read back as it was, a POSIX list unless it is empty. Splitting ends
on every text, with one entry more than it has separators outside quotes and none for an
empty Windows list. -/
theorem paths_spec :
    (∀ paths, joinPaths paths .windows = none ↔ ∃ path ∈ paths, quoteByte ∈ path) ∧
    (∀ paths out, joinPaths paths .windows = some out → SplitsInto out .windows paths) ∧
    (∀ paths, joinPaths paths .posix = none ↔ ∃ path ∈ paths, colon ∈ path) ∧
    (∀ paths out, paths ≠ [] → joinPaths paths .posix = some out →
      SplitsInto out .posix paths) ∧
    ∀ list style, ∃ entries, SplitsInto list style entries ∧
      (∀ other, SplitsInto list style other → other = entries) ∧ entries.length =
        if style = .windows ∧ list = [] then 0 else separators style false list + 1 := by
  refine ⟨fun paths => joinPaths_eq_none, fun paths out h => ?_, fun paths => joinPaths_eq_none,
    fun paths out hne h => ?_, fun list style => ?_⟩
  · cases paths with
    | nil =>
      cases h
      exact splitsInto_nil
    | cons path paths => exact splitsInto_joinPaths h
  · cases paths with
    | nil => exact absurd rfl hne
    | cons path paths => exact splitsInto_joinPaths h
  · by_cases hempty : style = .windows ∧ list = []
    · rw [if_pos hempty, hempty.1, hempty.2]
      exact ⟨[], splitsInto_nil, fun other h => h.unique splitsInto_nil, rfl⟩
    · obtain ⟨entries, hyields, hlength⟩ :=
        yields_separators (Iterator.before list style) rfl rfl rfl
      have hsplits : SplitsInto list style entries := by
        rw [SplitsInto, Iterator.first, if_neg hempty]
        exact hyields []
      exact ⟨entries, hsplits, fun other h => h.unique hsplits,
        by rw [if_neg hempty, hlength]; rfl⟩

end Kotatsu.Sys.Env
