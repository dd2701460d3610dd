import Mathlib.Data.List.Count
import Mathlib.Data.Nat.Bitwise
import Kotatsu.Core.Bytes

/-!
# Lines of a text

A line ends at a newline, and a carriage return just before it belongs to the line's
end. The table of line starts lists the lines by number; the bitmap has a bit set for
each line that holds a byte past ASCII.
-/

namespace Kotatsu.Ipc.Lsp

open Kotatsu.Core

/-- The loop of `line_starts` from byte `i` on. -/
def lineStartsFrom (i : Nat) : Bytes → List Nat
  | [] => []
  | byte :: rest =>
    if byte = newlineByte then (i + 1) :: lineStartsFrom (i + 1) rest
    else lineStartsFrom (i + 1) rest

/-- `line_starts`. -/
def lineStarts (content : Bytes) : List Nat := 0 :: lineStartsFrom 0 content

/-- `is_ascii`. -/
def isAscii (text : Bytes) : Bool :=
  decide (text.foldl (fun seen byte => seen ||| byte) 0 < (0x80 : UInt8))

/-- The words of `non_ascii_lines` with the bit of a line set. -/
def setBit (bits : List Nat) (line : Nat) : List Nat :=
  let resized := bits ++ List.replicate (line / 64 + 1 - bits.length) 0
  resized.modify (line / 64) fun word => word ||| 1 <<< (line % 64)

/-- The loop of `non_ascii_lines` on what is left of the text from a line on. -/
def nonAsciiLinesFrom (bits : List Nat) (line : Nat) (rest : Bytes) : List Nat :=
  let bits :=
    if isAscii (rest.take ((find [newlineByte] rest).getD rest.length)) then bits
    else setBit bits line
  match _h : find [newlineByte] rest with
  | none => bits
  | some end' => nonAsciiLinesFrom bits (line + 1) (rest.drop (end' + 1))
termination_by rest.length
decreasing_by
  cases rest with
  | nil => cases _h
  | cons byte rest =>
    rw [List.length_drop, List.length_cons]
    omega

/-- `non_ascii_lines`. -/
def nonAsciiLines (content : Bytes) : List Nat := nonAsciiLinesFrom [] 0 content

/-! ## A line -/

/-- A line of a text: its number, its first byte, and its newline or the end of the
text. -/
@[ext] structure TextLine (content : Bytes) where
  number : Nat
  start : Nat
  newline : Nat
  start_le : start ≤ newline
  newline_le : newline ≤ content.length
  begins : start = 0 ∨ content[start - 1]? = some newlineByte
  whole : ∀ i, start ≤ i → i < newline → content[i]? ≠ some newlineByte
  ends : newline = content.length ∨ content[newline]? = some newlineByte
  numbered : (content.take start).count newlineByte = number

variable {content : Bytes}

/-- Where the text of a line ends: at its newline, or at the carriage return before
it. -/
def TextLine.stop (l : TextLine content) : Nat :=
  if l.newline < content.length ∧ l.start < l.newline ∧
      content[l.newline - 1]? = some returnByte then l.newline - 1
  else l.newline

/-- The text of a line, without its end. -/
def TextLine.text (l : TextLine content) : Bytes := substr content l.start (l.stop - l.start)

theorem TextLine.start_le_stop (l : TextLine content) : l.start ≤ l.stop := by
  have := l.start_le
  unfold stop
  split <;> omega

theorem TextLine.stop_le_newline (l : TextLine content) : l.stop ≤ l.newline := by
  unfold stop
  split <;> omega

theorem TextLine.length_text (l : TextLine content) : l.text.length = l.stop - l.start := by
  have h1 := l.newline_le
  have h2 := l.stop_le_newline
  rw [text, length_substr]
  omega

private theorem TextLine.start_eq_of_le (l l' : TextLine content) {o : Nat}
    (h : l.start ≤ o ∧ o ≤ l.newline) (h' : l'.start ≤ o ∧ o ≤ l'.newline)
    (hle : l.start ≤ l'.start) : l.start = l'.start := by
  obtain h0 | hb := l'.begins
  · omega
  · by_contra hne
    exact l.whole (l'.start - 1) (by omega) (by omega) hb

/-- A byte lies in one line. -/
theorem TextLine.eq_of_mem (l l' : TextLine content) {o : Nat}
    (h : l.start ≤ o ∧ o ≤ l.newline) (h' : l'.start ≤ o ∧ o ≤ l'.newline) : l = l' := by
  have hs : l.start = l'.start := by
    obtain hle | hle := Nat.le_total l.start l'.start
    · exact start_eq_of_le l l' h h' hle
    · exact (start_eq_of_le l' l h' h hle).symm
  have hnewline (m m' : TextLine content) (hm : m.start ≤ o ∧ o ≤ m.newline)
      (hm' : m'.start ≤ o ∧ o ≤ m'.newline) : m.newline ≤ m'.newline := by
    by_contra hlt
    have := m.newline_le
    obtain hend | hend := m'.ends
    · omega
    · exact m.whole m'.newline (by omega) (by omega) hend
  refine TextLine.ext ?_ hs (le_antisymm (hnewline l l' h h') (hnewline l' l h' h))
  rw [← l.numbered, ← l'.numbered, hs]

private theorem TextLine.number_lt_of_start (l l' : TextLine content) (h : l.start < l'.start) :
    l.number < l'.number := by
  obtain h0 | hb := l'.begins
  · omega
  have hlen := l'.start_le
  have hlen' := l'.newline_le
  have htake : content.take l'.start =
      content.take l.start ++ (content.drop l.start).take (l'.start - l.start) := by
    rw [← List.take_add, Nat.add_sub_cancel' (Nat.le_of_lt h)]
  have hmem : newlineByte ∈ (content.drop l.start).take (l'.start - l.start) := by
    refine List.mem_of_getElem? (i := l'.start - 1 - l.start) ?_
    rw [List.getElem?_take_of_lt (by omega), List.getElem?_drop]
    rwa [show l.start + (l'.start - 1 - l.start) = l'.start - 1 by omega]
  have hpos := List.count_pos_iff.mpr hmem
  rw [← l.numbered, ← l'.numbered, htake, List.count_append]
  omega

/-- A number is that of one line. -/
theorem TextLine.eq_of_number (l l' : TextLine content) (h : l.number = l'.number) : l = l' := by
  have hs : l.start = l'.start := by
    obtain hlt | heq | hlt := Nat.lt_trichotomy l.start l'.start
    · have := number_lt_of_start l l' hlt
      omega
    · exact heq
    · have := number_lt_of_start l' l hlt
      omega
  exact eq_of_mem l l' ⟨le_refl _, l.start_le⟩ ⟨hs ▸ le_refl _, hs ▸ l'.start_le⟩

/-- A line ends before each later line begins. -/
theorem TextLine.newline_lt_of_number (l l' : TextLine content) (h : l.number < l'.number) :
    l.newline < l'.start := by
  by_contra hle
  obtain hlt | heq | hgt := Nat.lt_trichotomy l.start l'.start
  · obtain h0 | hb := l'.begins
    · omega
    · exact l.whole (l'.start - 1) (by omega) (by omega) hb
  · have := eq_of_mem l l' ⟨le_refl _, l.start_le⟩ ⟨heq ▸ le_refl _, heq ▸ l'.start_le⟩
    rw [this] at h
    omega
  · have := number_lt_of_start l' l hgt
    omega

/-- A text without a newline is one line. -/
def TextLine.only (h : newlineByte ∉ content) : TextLine content where
  number := 0
  start := 0
  newline := content.length
  start_le := Nat.zero_le _
  newline_le := le_refl _
  begins := Or.inl rfl
  whole i _ _ hi := h (List.mem_of_getElem? hi)
  ends := Or.inl rfl
  numbered := by rw [List.take_zero, List.count_nil]

/-- The line before the first newline. -/
def TextLine.first {before : Bytes} (after : Bytes) (h : newlineByte ∉ before) :
    TextLine (before ++ newlineByte :: after) where
  number := 0
  start := 0
  newline := before.length
  start_le := Nat.zero_le _
  newline_le := by
    rw [List.length_append]
    omega
  begins := Or.inl rfl
  whole i _ hlt hi := by
    rw [List.getElem?_append_left hlt] at hi
    exact h (List.mem_of_getElem? hi)
  ends := Or.inr (by rw [List.getElem?_append_right (le_refl _), Nat.sub_self,
    List.getElem?_cons_zero])
  numbered := by rw [List.take_zero, List.count_nil]

private theorem getElem?_after (before after : Bytes) (i : Nat) :
    (before ++ newlineByte :: after)[i + (before.length + 1)]? = after[i]? := by
  rw [List.getElem?_append_right (by omega),
    show i + (before.length + 1) - before.length = i + 1 by omega, List.getElem?_cons_succ]

private theorem drop_after (before after : Bytes) :
    (before ++ newlineByte :: after).drop (before.length + 1) = after := by
  rw [List.drop_append, List.drop_of_length_le (by omega), List.nil_append,
    Nat.add_sub_cancel_left, List.drop_succ_cons, List.drop_zero]

/-- A line after the first newline. -/
def TextLine.later {before after : Bytes} (h : newlineByte ∉ before) (l : TextLine after) :
    TextLine (before ++ newlineByte :: after) where
  number := l.number + 1
  start := l.start + (before.length + 1)
  newline := l.newline + (before.length + 1)
  start_le := Nat.add_le_add_right l.start_le _
  newline_le := by
    have := l.newline_le
    rw [List.length_append, List.length_cons]
    omega
  begins := by
    refine Or.inr ?_
    obtain h0 | hb := l.begins
    · rw [h0, Nat.zero_add, Nat.add_sub_cancel, List.getElem?_append_right (le_refl _),
        Nat.sub_self, List.getElem?_cons_zero]
    · obtain h0 | hpos := Nat.eq_zero_or_pos l.start
      · rw [h0, Nat.zero_add, Nat.add_sub_cancel, List.getElem?_append_right (le_refl _),
          Nat.sub_self, List.getElem?_cons_zero]
      · rw [show l.start + (before.length + 1) - 1 = l.start - 1 + (before.length + 1) by omega,
          getElem?_after]
        exact hb
  whole i hi hi' := by
    obtain ⟨j, rfl⟩ := Nat.exists_eq_add_of_le' (Nat.le_of_add_left_le hi)
    rw [getElem?_after]
    exact l.whole j (by omega) (by omega)
  ends := by
    rw [getElem?_after, List.length_append, List.length_cons]
    exact l.ends.imp (by omega) id
  numbered := by
    rw [← l.numbered, Nat.add_comm l.start, List.take_append,
      List.take_of_length_le (by omega), show before.length + 1 + l.start - before.length =
        l.start + 1 by omega, List.take_succ_cons, List.count_append,
      List.count_eq_zero_of_not_mem h, List.count_cons_self]
    omega

/-! ## The table of lines -/

private theorem lineStartsFrom_shift (i k : Nat) (rest : Bytes) :
    lineStartsFrom (i + k) rest = (lineStartsFrom i rest).map (· + k) := by
  induction rest generalizing i with
  | nil => rfl
  | cons byte rest ih =>
    have h := ih (i + 1)
    rw [Nat.add_right_comm] at h
    simp only [lineStartsFrom, h]
    split
    · rw [List.map_cons, Nat.add_right_comm]
    · rfl

private theorem lineStartsFrom_append {before : Bytes} (after : Bytes) (i : Nat)
    (h : newlineByte ∉ before) :
    lineStartsFrom i (before ++ newlineByte :: after) =
      (i + before.length + 1) :: lineStartsFrom (i + before.length + 1) after := by
  induction before generalizing i with
  | nil => simp only [List.nil_append, lineStartsFrom, if_true, List.length_nil, Nat.add_zero]
  | cons byte before ih =>
    have hb := List.ne_of_not_mem_cons h
    have hrest := List.not_mem_of_not_mem_cons h
    rw [List.cons_append, lineStartsFrom, if_neg (Ne.symm hb), ih (i + 1) hrest,
      List.length_cons, show i + 1 + before.length + 1 = i + (before.length + 1) + 1 by omega]

private theorem lineStartsFrom_none {text : Bytes} (i : Nat) (h : newlineByte ∉ text) :
    lineStartsFrom i text = [] := by
  induction text generalizing i with
  | nil => rfl
  | cons byte rest ih =>
    have hb := List.ne_of_not_mem_cons h
    have hrest := List.not_mem_of_not_mem_cons h
    rw [lineStartsFrom, if_neg (Ne.symm hb), ih (i + 1) hrest]

theorem lineStarts_append {before : Bytes} (after : Bytes) (h : newlineByte ∉ before) :
    lineStarts (before ++ newlineByte :: after) =
      0 :: (lineStarts after).map (· + (before.length + 1)) := by
  have hshift := lineStartsFrom_shift 0 (before.length + 1) after
  rw [lineStarts, lineStartsFrom_append after 0 h, lineStarts, List.map_cons, Nat.zero_add,
    ← hshift, Nat.zero_add]

/-- The table lists a line: where it starts, and where the next one does. -/
structure Listed (starts : List Nat) (l : TextLine content) : Prop where
  start : starts[l.number]? = some l.start
  next : starts[l.number + 1]? = some (l.newline + 1) ∧ l.newline < content.length ∨
    starts.length = l.number + 1 ∧ l.newline = content.length

/-- The table lists a line for each of its numbers. -/
theorem exists_listed (content : Bytes) {n : Nat} (hn : n < (lineStarts content).length) :
    ∃ l : TextLine content, l.number = n ∧ Listed (lineStarts content) l := by
  induction hk : content.length using Nat.strong_induction_on generalizing content n with
  | _ k ih =>
    cases hfind : find [newlineByte] content with
    | none =>
      have hnone := find_byte_none hfind
      have htable : lineStarts content = [0] := by rw [lineStarts, lineStartsFrom_none 0 hnone]
      rw [htable] at hn ⊢
      obtain rfl : n = 0 := by
        rw [List.length_singleton] at hn
        omega
      exact ⟨.only hnone, rfl, rfl, Or.inr ⟨rfl, rfl⟩⟩
    | some i =>
      obtain ⟨before, after, rfl, hbefore, -⟩ := find_byte_some hfind
      have hlen : (before ++ newlineByte :: after).length = before.length + (after.length + 1) := by
        rw [List.length_append, List.length_cons]
      rw [lineStarts_append after hbefore] at hn ⊢
      cases n with
      | zero =>
        refine ⟨.first after hbefore, rfl, rfl, Or.inl ⟨?_, ?_⟩⟩
        · rw [TextLine.first, lineStarts, List.getElem?_cons_succ, List.map_cons,
            List.getElem?_cons_zero, Nat.zero_add]
        · rw [hlen, TextLine.first]
          dsimp only
          omega
      | succ n =>
        rw [List.length_cons, List.length_map] at hn
        obtain ⟨l, rfl, hl⟩ := ih after.length (by omega) after (Nat.lt_of_succ_lt_succ hn) rfl
        refine ⟨l.later hbefore, rfl, ?_, ?_⟩
        · rw [TextLine.later, List.getElem?_cons_succ, List.getElem?_map, hl.start, Option.map_some]
        · rw [TextLine.later, List.getElem?_cons_succ, List.getElem?_map, hlen, List.length_cons,
            List.length_map]
          obtain ⟨hnext, hlt⟩ | ⟨hlast, hend⟩ := hl.next
          · refine Or.inl ⟨?_, by dsimp only; omega⟩
            rw [hnext, Option.map_some]
            dsimp only
            rw [show l.newline + 1 + (before.length + 1) = l.newline + (before.length + 1) + 1 by
              omega]
          · exact Or.inr ⟨by rw [hlast], by dsimp only; omega⟩

theorem length_lineStarts (content : Bytes) :
    (lineStarts content).length = content.count newlineByte + 1 := by
  have hfrom (i : Nat) : (lineStartsFrom i content).length = content.count newlineByte := by
    induction content generalizing i with
    | nil => rfl
    | cons byte rest ih =>
      rw [lineStartsFrom]
      split
      · next hb => rw [hb, List.length_cons, ih, List.count_cons_self]
      · next hb => rw [ih, List.count_cons_of_ne hb]
  rw [lineStarts, List.length_cons, hfrom]

theorem TextLine.number_lt_length (l : TextLine content) :
    l.number < (lineStarts content).length := by
  have hle : (content.take l.start).count newlineByte ≤ content.count newlineByte :=
    (List.take_sublist l.start content).count_le newlineByte
  rw [length_lineStarts, ← l.numbered]
  omega

/-- Every line is listed. -/
theorem TextLine.listed (l : TextLine content) : Listed (lineStarts content) l := by
  obtain ⟨l', hnumber, hl'⟩ := exists_listed content l.number_lt_length
  rwa [eq_of_number l' l hnumber] at hl'

/-! ## ASCII lines -/

private theorem or_lt_128 (a b : UInt8) : a ||| b < 0x80 ↔ a < 0x80 ∧ b < 0x80 := by
  simp only [UInt8.lt_iff_toNat_lt, UInt8.toNat_or]
  constructor
  · intro h
    exact ⟨lt_of_le_of_lt Nat.left_le_or h, lt_of_le_of_lt Nat.right_le_or h⟩
  · intro h
    exact Nat.or_lt_two_pow (n := 7) h.1 h.2

theorem isAscii_iff (text : Bytes) : isAscii text = true ↔ ∀ byte ∈ text, byte < 0x80 := by
  have hfold : ∀ seen : UInt8, text.foldl (fun seen byte => seen ||| byte) seen < 0x80 ↔
      seen < 0x80 ∧ ∀ byte ∈ text, byte < 0x80 := by
    induction text with
    | nil => simp
    | cons byte text ih =>
      intro seen
      rw [List.foldl_cons, ih, or_lt_128, List.forall_mem_cons, and_assoc]
  rw [isAscii, decide_eq_true_iff, hfold]
  simp

/-- The bit of a line. -/
def bitOf (bits : List Nat) (line : Nat) : Bool := (bits.getD (line / 64) 0).testBit (line % 64)

private theorem getD_setBit (bits : List Nat) (line w : Nat) :
    (setBit bits line).getD w 0 =
      if line / 64 = w then bits.getD w 0 ||| 1 <<< (line % 64) else bits.getD w 0 := by
  have hresized : (bits ++ List.replicate (line / 64 + 1 - bits.length) 0)[w]?.getD 0 =
      bits[w]?.getD 0 := by
    obtain hlt | hge := Nat.lt_or_ge w bits.length
    · rw [List.getElem?_append_left hlt]
    · rw [List.getElem?_append_right hge, List.getElem?_eq_none hge, List.getElem?_replicate]
      split <;> rfl
  simp only [setBit, List.getD_eq_getElem?_getD, List.getElem?_modify, Option.map_eq_map]
  split
  · next hw =>
    subst hw
    have hlen : line / 64 <
        (bits ++ List.replicate (line / 64 + 1 - bits.length) 0).length := by
      rw [List.length_append, List.length_replicate]
      omega
    rw [List.getElem?_eq_getElem hlen, Option.getD_some] at hresized
    rw [List.getElem?_eq_getElem hlen, Option.map_some, Option.getD_some, hresized]
  · rw [Option.map_id', hresized]

theorem bitOf_setBit (bits : List Nat) (line m : Nat) :
    bitOf (setBit bits line) m = (bitOf bits m || decide (m = line)) := by
  rw [bitOf, bitOf, getD_setBit]
  by_cases hw : line / 64 = m / 64
  · have hbit : decide (line % 64 = m % 64) = decide (m = line) :=
      decide_eq_decide.mpr (by omega)
    rw [if_pos hw, Nat.testBit_or, Nat.one_shiftLeft, Nat.testBit_two_pow, hbit]
  · have hne : m ≠ line := fun h => hw (by rw [h])
    rw [if_neg hw, decide_eq_false hne, Bool.or_false]

private theorem bitOf_of_setBit {bits : List Nat} {line m : Nat} {known : Bool}
    (h : bitOf (if known then bits else setBit bits line) m = false) :
    bitOf bits m = false ∧ (m = line → known = true) := by
  cases known with
  | true => exact ⟨h, fun _ => rfl⟩
  | false =>
    simp only [Bool.false_eq_true, if_false, bitOf_setBit, Bool.or_eq_false_iff,
      decide_eq_false_iff_not] at h
    exact ⟨h.1, fun heq => absurd heq h.2⟩

private theorem nonAsciiLinesFrom_last (bits : List Nat) (line : Nat) {rest : Bytes}
    (hfind : find [newlineByte] rest = none) :
    nonAsciiLinesFrom bits line rest =
      if isAscii rest then bits else setBit bits line := by
  rw [nonAsciiLinesFrom]
  split
  · rw [hfind, Option.getD_none, List.take_length]
  · next i hi =>
    rw [hfind] at hi
    cases hi

private theorem nonAsciiLinesFrom_next (bits : List Nat) (line : Nat) {before after : Bytes}
    (hfind : find [newlineByte] (before ++ newlineByte :: after) = some before.length) :
    nonAsciiLinesFrom bits line (before ++ newlineByte :: after) =
      nonAsciiLinesFrom (if isAscii before then bits else setBit bits line) (line + 1) after := by
  rw [nonAsciiLinesFrom]
  split
  · next hi =>
    rw [hfind] at hi
    cases hi
  · next i hi =>
    rw [hfind] at hi
    cases hi
    rw [hfind, Option.getD_some, List.take_left, drop_after]

/-- The bit of each line the loop reads that holds a byte past ASCII is set, and no bit
is cleared. -/
private theorem bitOf_nonAsciiLinesFrom (bits : List Nat) (line : Nat) (rest : Bytes) :
    (∀ m, bitOf (nonAsciiLinesFrom bits line rest) m = false → bitOf bits m = false) ∧
      ∀ l : TextLine rest, bitOf (nonAsciiLinesFrom bits line rest) (line + l.number) = false →
        isAscii (substr rest l.start (l.newline - l.start)) = true := by
  induction hk : rest.length using Nat.strong_induction_on generalizing bits line rest with
  | _ k ih =>
    cases hfind : find [newlineByte] rest with
    | none =>
      have hnone := find_byte_none hfind
      rw [nonAsciiLinesFrom_last bits line hfind]
      refine ⟨fun m hm => (bitOf_of_setBit hm).1, fun l hl => ?_⟩
      obtain rfl : l = .only hnone := l.eq_of_mem (.only hnone) ⟨le_refl _, l.start_le⟩
        ⟨Nat.zero_le _, Nat.le_trans l.start_le l.newline_le⟩
      rw [TextLine.only, substr, List.drop_zero, Nat.sub_zero, List.take_length]
      exact (bitOf_of_setBit hl).2 rfl
    | some i =>
      obtain ⟨before, after, rfl, hbefore, rfl⟩ := find_byte_some hfind
      rw [nonAsciiLinesFrom_next bits line hfind]
      obtain ⟨hkept, hread⟩ := ih after.length (by
        rw [← hk, List.length_append, List.length_cons]
        omega) (if isAscii before then bits else setBit bits line) (line + 1) after rfl
      refine ⟨fun m hm => (bitOf_of_setBit (hkept m hm)).1, fun l hl => ?_⟩
      cases hn : l.number with
      | zero =>
        obtain rfl : l = .first after hbefore := l.eq_of_number _ hn
        rw [TextLine.first, substr, List.drop_zero, Nat.sub_zero, List.take_left]
        exact (bitOf_of_setBit (hkept _ hl)).2 rfl
      | succ n =>
        have hlt := l.number_lt_length
        rw [hn, lineStarts_append after hbefore, List.length_cons, List.length_map] at hlt
        obtain ⟨l', rfl, -⟩ := exists_listed after (Nat.lt_of_succ_lt_succ hlt)
        obtain rfl : l = l'.later hbefore := l.eq_of_number _ hn
        have htext : substr (before ++ newlineByte :: after) (l'.later hbefore).start
            ((l'.later hbefore).newline - (l'.later hbefore).start) =
            substr after l'.start (l'.newline - l'.start) := by
          simp only [TextLine.later, substr]
          rw [Nat.add_sub_add_right, Nat.add_comm l'.start, ← List.drop_drop, drop_after]
        rw [htext]
        refine hread l' ?_
        rw [show line + 1 + l'.number = line + (l'.number + 1) by omega]
        exact hl

/-- A line whose bit is not set holds only ASCII. -/
theorem isAscii_of_bitOf (l : TextLine content)
    (h : bitOf (nonAsciiLines content) l.number = false) : isAscii l.text = true := by
  have hline := (bitOf_nonAsciiLinesFrom [] 0 content).2 l (by rw [Nat.zero_add]; exact h)
  rw [isAscii_iff] at hline ⊢
  intro byte hbyte
  refine hline byte ?_
  rw [TextLine.text, substr] at hbyte
  have hprefix : (content.drop l.start).take (l.stop - l.start) <+:
      (content.drop l.start).take (l.newline - l.start) := by
    have := l.stop_le_newline
    exact List.take_prefix_take_left (by omega)
  exact hprefix.subset hbyte

end Kotatsu.Ipc.Lsp
