import Mathlib.Data.List.TakeWhile
import Kotatsu.Core.Bytes

/-!
# Splitting command lines

`split_view` reads a line an argument at a time. An argument with nothing to unquote is
taken as it stands in the line; for the others the reading goes on from the first
character to unquote. Either way it is what reading the argument character by character
from its start gives, which is how all that follows reads lines.
-/

namespace Kotatsu.Sys.Cmd

open Kotatsu.Core

/-! ## Bytes of a line -/

/-- `' '`. -/
def blankByte : UInt8 := 0x20

/-- `'\t'`. -/
def tabByte : UInt8 := 0x09

/-- `'\v'`. -/
def verticalTabByte : UInt8 := 0x0B

/-- `'\''`. -/
def singleQuoteByte : UInt8 := 0x27

/-- `Quoting`. -/
inductive Quoting where
  | windows
  | posix
deriving DecidableEq, Repr

/-- `split_view::iterator::Reading`. -/
inductive Reading where
  | windows
  | windowsFile
  | posix
  | posixFile
deriving DecidableEq, Repr

/-- `separates`. -/
def Reading.separates : Reading → UInt8 → Bool
  | .windows, c => c == blankByte || c == tabByte
  | .windowsFile, c =>
    c == blankByte || c == tabByte || c == returnByte || c == newlineByte || c == 0
  | .posix, c | .posixFile, c =>
    c == blankByte || c == tabByte || c == returnByte || c == newlineByte

/-- `posix`. -/
def Reading.isPosix : Reading → Bool
  | .posix | .posixFile => true
  | .windows | .windowsFile => false

/-! ## Unquoting -/

/-- The backslashes a line begins with, and what follows them. -/
def spanBackslashes (rest : Bytes) : Bytes × Bytes :=
  (rest.takeWhile (· == backslashByte), rest.dropWhile (· == backslashByte))

/-- `read_backslashes`: what the backslashes a line begins with add to the argument, and
what is left of the line. -/
def readBackslashes (rest : Bytes) : Bytes × Bytes :=
  let (slashes, after) := spanBackslashes rest
  match after with
  | [] => (slashes, after)
  | c :: after' =>
    if c ≠ quoteByte then (slashes, after)
    else
      let half := List.replicate (slashes.length / 2) backslashByte
      if slashes.length % 2 = 0 then (half, after) else (half ++ [quoteByte], after')

theorem length_spanBackslashes_le (rest : Bytes) :
    (spanBackslashes rest).2.length ≤ rest.length :=
  List.length_dropWhile_le _ rest

theorem length_readBackslashes_le (rest : Bytes) :
    (readBackslashes rest).2.length ≤ (spanBackslashes rest).2.length := by
  unfold readBackslashes
  dsimp only
  split
  · next h => rw [h]
  · next h =>
    rw [h]
    split
    · exact le_refl _
    · split
      · exact le_refl _
      · exact Nat.le_succ _

theorem length_spanBackslashes_lt {c : UInt8} (rest : Bytes) (hc : c = backslashByte) :
    (spanBackslashes (c :: rest)).2.length < (c :: rest).length := by
  subst hc
  have hdrop : (spanBackslashes (backslashByte :: rest)).2 = (spanBackslashes rest).2 :=
    List.dropWhile_cons_of_pos (p := (· == backslashByte)) (beq_self_eq_true backslashByte)
  have := length_spanBackslashes_le rest
  rw [hdrop, List.length_cons]
  omega

/-- `unquote_windows`, from what is unquoted so far: the argument, and what is left of
the line. -/
def unquoteWindows (reading : Reading) (program quoted : Bool) (unquoted rest : Bytes) :
    Bytes × Bytes :=
  match rest with
  | [] => (unquoted, [])
  | c :: rest =>
    if quoted = false ∧ reading.separates c then (unquoted, c :: rest)
    else if c = backslashByte ∧ program = false then
      let read := readBackslashes (c :: rest)
      unquoteWindows reading program quoted (unquoted ++ read.1) read.2
    else if c ≠ quoteByte then unquoteWindows reading program quoted (unquoted ++ [c]) rest
    else if quoted ∧ program = false ∧ rest.head? = some quoteByte then
      unquoteWindows reading program quoted (unquoted ++ [quoteByte]) rest.tail
    else unquoteWindows reading program (!quoted) unquoted rest
termination_by rest.length
decreasing_by
  · next hc =>
    exact Nat.lt_of_le_of_lt (length_readBackslashes_le (c :: rest))
      (length_spanBackslashes_lt rest hc.1)
  · exact Nat.lt_succ_self _
  · exact Nat.lt_succ_of_le (List.length_tail ▸ Nat.sub_le _ _)
  · exact Nat.lt_succ_self _

/-- `unquote_posix`, in the quote given, if any. -/
def unquotePosix (reading : Reading) (quote : Option UInt8) (unquoted rest : Bytes) :
    Bytes × Bytes :=
  match rest with
  | [] => (unquoted, [])
  | c :: rest =>
    if quote = none ∧ reading.separates c then (unquoted, c :: rest)
    else if quote = some singleQuoteByte ∧ reading = .posix then
      if c = singleQuoteByte then unquotePosix reading none unquoted rest
      else unquotePosix reading quote (unquoted ++ [c]) rest
    else if hc : c = backslashByte ∧ rest ≠ [] then
      unquotePosix reading quote (unquoted ++ [rest.head hc.2]) rest.tail
    else if quote = some c then unquotePosix reading none unquoted rest
    else if quote = none ∧ (c = singleQuoteByte ∨ c = quoteByte) then
      unquotePosix reading (some c) unquoted rest
    else unquotePosix reading quote (unquoted ++ [c]) rest
termination_by rest.length
decreasing_by
  · exact Nat.lt_succ_self _
  · exact Nat.lt_succ_self _
  · exact Nat.lt_succ_of_le (List.length_tail ▸ Nat.sub_le _ _)
  · exact Nat.lt_succ_self _
  · exact Nat.lt_succ_self _
  · exact Nat.lt_succ_self _

/-- What is unquoted of a line, from what is unquoted so far. -/
def unquote (reading : Reading) (program : Bool) (unquoted rest : Bytes) : Bytes × Bytes :=
  if reading.isPosix then unquotePosix reading none unquoted rest
  else unquoteWindows reading program false unquoted rest

/-! ## The iterator -/

/-- The loop of `operator++` up to the first character to unquote: what stands before
it, and the line from it on. -/
def scan (reading : Reading) (program : Bool) (view rest : Bytes) : Bytes × Bytes :=
  match rest with
  | [] => (view, [])
  | c :: rest =>
    if reading.separates c then (view, c :: rest)
    else if c = quoteByte ∨ reading.isPosix ∧ (c = singleQuoteByte ∨ c = backslashByte) then
      (view, c :: rest)
    else if c = backslashByte ∧ program = false then
      let slashes := spanBackslashes (c :: rest)
      if slashes.2.head? = some quoteByte then (view, c :: rest)
      else scan reading program (view ++ slashes.1) slashes.2
    else scan reading program (view ++ [c]) rest
termination_by rest.length
decreasing_by
  · next hc _ => exact length_spanBackslashes_lt rest hc.1
  · exact Nat.lt_succ_self _

/-- `split_view::iterator`; `value` is what it points at. -/
structure Iterator where
  rest : Bytes
  argument : Bytes
  unquoted : Bytes
  reading : Reading
  program : Bool
  borrowed : Bool
  done : Bool
deriving DecidableEq, Repr

namespace Iterator

/-- `operator*`. -/
def value (it : Iterator) : Bytes := if it.borrowed then it.argument else it.unquoted

/-- The line from the next argument on. -/
def skipped (it : Iterator) : Bytes :=
  if it.program then it.rest else it.rest.dropWhile it.reading.separates

/-- `operator++`. -/
def next (it : Iterator) : Iterator :=
  let rest := it.skipped
  if rest = [] then { it with done := true }
  else
    let (view, after) := scan it.reading it.program [] rest
    if after.head?.all it.reading.separates then
      { it with borrowed := true, argument := view, program := false, rest := after }
    else
      let (unquoted, after) := unquote it.reading it.program view after
      { it with borrowed := false, unquoted := unquoted, program := false, rest := after }

/-- The iterator of a line, at its first argument. -/
def start (line : Bytes) (reading : Reading) : Iterator :=
  next { rest := line, argument := [], unquoted := [], reading := reading,
         program := reading = .windows, borrowed := true, done := false }

end Iterator

/-- How a line quoted so is read. -/
def Quoting.reading : Quoting → Reading
  | .windows => .windows
  | .posix => .posix

/-! ## The fast path -/

variable (reading : Reading) (program : Bool)

theorem unquoteWindows_stop {c : UInt8} (unquoted rest : Bytes) (hc : reading.separates c = true) :
    unquoteWindows reading program false unquoted (c :: rest) = (unquoted, c :: rest) := by
  rw [unquoteWindows, if_pos ⟨rfl, hc⟩]

theorem unquotePosix_stop {c : UInt8} (unquoted rest : Bytes) (hc : reading.separates c = true) :
    unquotePosix reading none unquoted (c :: rest) = (unquoted, c :: rest) := by
  rw [unquotePosix, if_pos ⟨rfl, hc⟩]

/-- A separator outside quotes, or the end of the line, ends the argument. -/
theorem unquote_stop {unquoted rest : Bytes} (h : rest.head?.all reading.separates = true) :
    unquote reading program unquoted rest = (unquoted, rest) := by
  unfold unquote
  cases rest with
  | nil =>
    unfold unquotePosix unquoteWindows
    exact ite_self _
  | cons c rest =>
    rw [List.head?_cons, Option.all_some] at h
    rw [unquotePosix_stop _ _ _ h, unquoteWindows_stop _ _ _ _ h, ite_self]

theorem readBackslashes_of_head {rest : Bytes}
    (h : (spanBackslashes rest).2.head? ≠ some quoteByte) :
    readBackslashes rest = spanBackslashes rest := by
  unfold readBackslashes
  dsimp only
  split
  · rfl
  · next c after hafter =>
    rw [hafter, List.head?_cons] at h
    rw [if_pos fun hc => h (congrArg some hc)]

/-- A character that is not unquoted is kept. -/
theorem unquote_keep {c : UInt8} (view rest : Bytes) (hsep : reading.separates c = false)
    (hc : c ≠ quoteByte) (hposix : reading.isPosix = true → c ≠ singleQuoteByte)
    (hslash : c = backslashByte → reading.isPosix = false ∧ program = true) :
    unquote reading program view (c :: rest) = unquote reading program (view ++ [c]) rest := by
  unfold unquote
  split
  · next hreading =>
    have hback : c ≠ backslashByte := by
      intro h
      rw [(hslash h).1] at hreading
      cases hreading
    rw [unquotePosix, if_neg (by simp [hsep]), if_neg (by simp), dif_neg (by simp [hback]),
      if_neg (by simp), if_neg (by simp [hc, hposix hreading])]
  · have hback : ¬(c = backslashByte ∧ program = false) := by
      rintro ⟨h, hprogram⟩
      rw [(hslash h).2] at hprogram
      cases hprogram
    rw [unquoteWindows, if_neg (by simp [hsep]), if_neg hback, if_pos hc]

/-- What the loop passes, unquoting keeps as it is. -/
theorem unquote_scan (view rest : Bytes) :
    unquote reading program (scan reading program view rest).1
        (scan reading program view rest).2 =
      unquote reading program view rest := by
  fun_induction scan reading program view rest with
  | case1 => rfl
  | case2 => rfl
  | case3 => rfl
  | case4 => rfl
  | case5 view c rest hsep hstop hback slashes hhead ih =>
    rw [ih]
    have hposix : reading.isPosix = false := by
      rw [← Bool.not_eq_true]
      exact fun h => hstop (Or.inr ⟨h, Or.inr hback.1⟩)
    rw [unquote, unquote, hposix, if_neg Bool.false_ne_true, if_neg Bool.false_ne_true,
      unquoteWindows.eq_def _ _ _ _ (c :: rest)]
    dsimp only
    rw [if_neg fun h => hsep h.2, if_pos hback, readBackslashes_of_head hhead]
  | case6 view c rest hsep hstop hback ih =>
    rw [ih]
    rw [not_or] at hstop
    refine (unquote_keep _ _ view rest (Bool.eq_false_iff.mpr hsep) hstop.1 (fun h hc => ?_)
      fun hc => ⟨?_, ?_⟩).symm
    · exact hstop.2 ⟨h, Or.inl hc⟩
    · rw [← Bool.not_eq_true]
      exact fun h => hstop.2 ⟨h, Or.inr hc⟩
    · rw [← Bool.not_eq_false]
      exact fun h => hback ⟨hc, h⟩

/-- An argument, borrowed or not, is what unquoting it from its start gives. -/
theorem Iterator.next_spec (it : Iterator) (h : it.skipped ≠ []) :
    (it.next.value, it.next.rest) = unquote it.reading it.program [] it.skipped ∧
      it.next.reading = it.reading ∧ it.next.program = false ∧ it.next.done = it.done := by
  have hscan := unquote_scan it.reading it.program [] it.skipped
  unfold Iterator.next
  rw [if_neg h]
  dsimp only
  split
  · next hstop =>
    rw [unquote_stop _ _ hstop] at hscan
    exact ⟨hscan, rfl, rfl, rfl⟩
  · exact ⟨hscan, rfl, rfl, rfl⟩

/-! ## All arguments -/

theorem unquoteWindows_le (quoted : Bool) (unquoted rest : Bytes) :
    (unquoteWindows reading program quoted unquoted rest).2.length ≤ rest.length := by
  fun_induction unquoteWindows reading program quoted unquoted rest with
  | case1 => exact le_refl _
  | case2 => exact le_refl _
  | case3 quoted unquoted c rest _ hback read ih =>
    have h1 := length_readBackslashes_le (c :: rest)
    have h2 := length_spanBackslashes_le (c :: rest)
    exact Nat.le_trans ih (Nat.le_trans h1 h2)
  | case4 => grind
  | case5 => grind
  | case6 => grind

theorem unquotePosix_le (quote : Option UInt8) (unquoted rest : Bytes) :
    (unquotePosix reading quote unquoted rest).2.length ≤ rest.length := by
  fun_induction unquotePosix reading quote unquoted rest with
  | case1 => exact le_refl _
  | case2 => exact le_refl _
  | case3 => grind
  | case4 => grind
  | case5 => grind
  | case6 => grind
  | case7 => grind
  | case8 => grind

theorem unquote_le (unquoted rest : Bytes) :
    (unquote reading program unquoted rest).2.length ≤ rest.length := by
  unfold unquote
  split
  · exact unquotePosix_le _ none unquoted rest
  · exact unquoteWindows_le _ _ false unquoted rest

/-- What does not separate arguments is taken. -/
theorem unquote_lt {c : UInt8} (unquoted rest : Bytes) (hc : reading.separates c = false) :
    (unquote reading program unquoted (c :: rest)).2.length < (c :: rest).length := by
  have hsep : ∀ p : Prop, ¬(p ∧ reading.separates c = true) := fun _ h => by
    rw [hc] at h
    exact Bool.false_ne_true h.2
  unfold unquote
  split
  · rw [unquotePosix.eq_def]
    dsimp only
    rw [if_neg (hsep _), if_neg fun h => Option.some_ne_none _ h.1.symm]
    split
    · next hback =>
      have := unquotePosix_le reading none (unquoted ++ [rest.head hback.2]) rest.tail
      grind
    · rw [if_neg (Option.some_ne_none c).symm]
      split
      · exact Nat.lt_succ_of_le (unquotePosix_le _ _ _ _)
      · exact Nat.lt_succ_of_le (unquotePosix_le _ _ _ _)
  · rw [unquoteWindows.eq_def]
    dsimp only
    rw [if_neg (hsep _)]
    split
    · next hback =>
      exact Nat.lt_of_le_of_lt (Nat.le_trans (unquoteWindows_le _ _ _ _ _)
        (length_readBackslashes_le (c :: rest))) (length_spanBackslashes_lt rest hback.1)
    · split
      · exact Nat.lt_succ_of_le (unquoteWindows_le _ _ _ _ _)
      · rw [if_neg fun h => Bool.false_ne_true h.1]
        exact Nat.lt_succ_of_le (unquoteWindows_le _ _ _ _ _)

/-- How far an iterator is from its end: a program may be empty, and nothing else. -/
def Iterator.ahead (it : Iterator) : Nat :=
  if it.done then 0 else it.rest.length + (if it.program then 1 else 0) + 1

theorem Iterator.ahead_next (it : Iterator) (h : it.done = false) : it.next.ahead < it.ahead := by
  by_cases hskip : it.skipped = []
  · have hdone : it.next.done = true := by
      unfold next
      rw [if_pos hskip]
    rw [ahead, ahead, if_pos hdone, if_neg (by rw [h]; exact Bool.false_ne_true)]
    exact Nat.succ_pos _
  · obtain ⟨hvalue, -, hprogram, hdone⟩ := it.next_spec hskip
    have hrest := congrArg Prod.snd hvalue
    dsimp only at hrest
    rw [ahead, ahead, hdone, h, hprogram, hrest]
    simp only [Bool.false_eq_true, if_false, Nat.add_lt_add_iff_right]
    cases hp : it.program with
    | true =>
      have hskipped : it.skipped = it.rest := by rw [skipped, hp, if_pos rfl]
      have := unquote_le it.reading true [] it.skipped
      rw [hskipped] at this ⊢
      simp only [if_true]
      omega
    | false =>
      have hskipped : it.skipped = it.rest.dropWhile it.reading.separates := by
        rw [skipped, hp, if_neg Bool.false_ne_true]
      have hle := List.length_dropWhile_le it.reading.separates it.rest
      rw [← hskipped] at hle
      cases hcons : it.skipped with
      | nil => exact absurd hcons hskip
      | cons c rest =>
        have hc : it.reading.separates c = false := by
          have hhead := List.head?_dropWhile_not it.reading.separates it.rest
          rw [← hskipped, hcons] at hhead
          exact hhead
        have hlt := unquote_lt it.reading false [] rest hc
        rw [hcons] at hle
        simp only [Bool.false_eq_true, if_false]
        omega

/-- The arguments from the one at hand on. -/
def Iterator.arguments (it : Iterator) : List Bytes :=
  if it.done then [] else it.value :: it.next.arguments
termination_by it.ahead
decreasing_by
  · next h => exact it.ahead_next (Bool.eq_false_iff.mpr h)

/-- The arguments of a line read so. -/
def Reading.arguments (reading : Reading) (line : Bytes) : List Bytes :=
  (Iterator.start line reading).arguments

/-- The arguments of `split(line, quoting)`. -/
def split (line : Bytes) (quoting : Quoting) : List Bytes := quoting.reading.arguments line

end Kotatsu.Sys.Cmd
