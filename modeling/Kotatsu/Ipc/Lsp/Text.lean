import Mathlib.Order.Monotone.Basic
import Kotatsu.Support.Utf8

/-!
# Units of a text

A line's text is counted in bytes, UTF-16 units or code points. Its marks are the
places where a code point begins, each with the units before it: they grow in both
components, so a unit that begins a code point begins only one. `locate` finds the
mark of a unit in every encoding, by scanning back over continuation bytes or by
counting from the start.
-/

namespace Kotatsu.Ipc.Lsp

open Kotatsu.Core Kotatsu.Support

/-- `PositionEncoding`. -/
inductive PositionEncoding where
  | utf8
  | utf16
  | utf32
deriving DecidableEq, Repr

/-- `static_cast<std::uint32_t>` of a size. -/
def u32 (n : Nat) : Nat := n % 2 ^ 32

theorem u32_of_lt {n : Nat} (h : n < 2 ^ 32) : u32 n = n := Nat.mod_eq_of_lt h

/-- `is_continuation`. -/
def isContinuation (byte : UInt8) : Bool := byte &&& 0xC0 == 0x80

/-- `next_codepoint_sizes`: the bytes of the code point at `index` and the UTF-16 units
it takes. -/
def nextCodepointSizes (text : Bytes) (index : Nat) : Nat × Nat :=
  let sequence := decodeUtf8 (text.drop index)
  if sequence.valid = false then (1, 1)
  else (sequence.length, if sequence.codePoint < 0x10000 then 1 else 2)

theorem nextCodepointSizes_pos (text : Bytes) (index : Nat) :
    0 < (nextCodepointSizes text index).1 ∧ 0 < (nextCodepointSizes text index).2 := by
  unfold nextCodepointSizes
  dsimp only
  split
  · exact ⟨Nat.one_pos, Nat.one_pos⟩
  · next h =>
    obtain ⟨b, taken, after, -, -, -, hlen, -⟩ := decodeUtf8_valid (eq_true_of_ne_false h)
    refine ⟨by dsimp only; omega, ?_⟩
    dsimp only
    split <;> decide

/-- `detail::Located`. -/
structure Located where
  offset : Nat
  exact : Bool
deriving DecidableEq, Repr

/-- `continues` of `locate`. -/
def continues (text : Bytes) (at' : Nat) : Bool := isContinuation (text.getD at' 0)

/-- The loop of `locate` that looks for the lead of the byte at `character`. -/
def findLead (text : Bytes) (character : Nat) : Nat → Nat
  | 0 => 0
  | lead + 1 =>
    if continues text (lead + 1) ∧ character - (lead + 1) < 3 then findLead text character lead
    else lead + 1

/-- What `locate` adds for a code point. -/
def unitsOf (encoding : PositionEncoding) (sizes : Nat × Nat) : Nat :=
  if encoding = .utf16 then sizes.2 else 1

/-- The counting loop of `locate`. -/
def locateFrom (text : Bytes) (size character : Nat) (encoding : PositionEncoding)
    (i units : Nat) : Located :=
  if i < size then
    if units = character then { offset := i, exact := true }
    else
      let sizes := nextCodepointSizes text i
      let units' := units + unitsOf encoding sizes
      if units' > character then { offset := i, exact := false }
      else locateFrom text size character encoding (i + sizes.1) units'
  else { offset := size, exact := units == character }
termination_by size - i
decreasing_by
  have := (nextCodepointSizes_pos text i).1
  omega

/-- `locate`. -/
def locate (text : Bytes) (character : Nat) (encoding : PositionEncoding) : Located :=
  let size := u32 text.length
  if encoding = .utf8 then
    if character ≥ size then { offset := size, exact := character == size }
    else
      let lead := findLead text character character
      if lead ≠ character ∧ ¬continues text lead ∧
          lead + (nextCodepointSizes text lead).1 > character then
        { offset := lead, exact := false }
      else { offset := character, exact := true }
  else locateFrom text size character encoding 0 0

/-- The loop of `encoded_length`. -/
def encodedLengthFrom (text : Bytes) (encoding : PositionEncoding) (i units : Nat) : Nat :=
  if i < text.length then
    let sizes := nextCodepointSizes text i
    encodedLengthFrom text encoding (i + sizes.1) (units + unitsOf encoding sizes)
  else units
termination_by text.length - i
decreasing_by
  have := (nextCodepointSizes_pos text i).1
  omega

/-- `encoded_length`. -/
def encodedLength (text : Bytes) (encoding : PositionEncoding) : Nat :=
  if encoding = .utf8 then u32 text.length else encodedLengthFrom text encoding 0 0

/-! ## Marks -/

/-- The units a code point of these sizes counts for. -/
def width : PositionEncoding → Nat × Nat → Nat
  | .utf8, sizes => sizes.1
  | .utf16, sizes => sizes.2
  | .utf32, _ => 1

/-- Where the code points of a text begin, in order, each with the units before it. -/
def mark (encoding : PositionEncoding) (text : Bytes) : Nat → Nat × Nat
  | 0 => (0, 0)
  | n + 1 =>
    let at' := mark encoding text n
    let sizes := nextCodepointSizes text at'.1
    (at'.1 + sizes.1, at'.2 + width encoding sizes)

/-- A code point of the text begins, or the text ends, at byte `s` after `u` units. -/
def Marked (encoding : PositionEncoding) (text : Bytes) (s u : Nat) : Prop :=
  s ≤ text.length ∧ ∃ n, mark encoding text n = (s, u)

/-- The code point that begins at byte `s` holds byte `k`. -/
def HoldsByte (text : Bytes) (s k : Nat) : Prop :=
  (∃ u, Marked .utf8 text s u) ∧ s ≤ k ∧ k < s + (nextCodepointSizes text s).1

variable {encoding : PositionEncoding} {text : Bytes}

theorem width_pos (index : Nat) : 0 < width encoding (nextCodepointSizes text index) := by
  have h := nextCodepointSizes_pos text index
  cases encoding with
  | utf8 => exact h.1
  | utf16 => exact h.2
  | utf32 => exact Nat.one_pos

theorem mark_offset_strictMono (encoding : PositionEncoding) (text : Bytes) :
    StrictMono fun n => (mark encoding text n).1 := by
  refine strictMono_nat_of_lt_succ fun n => ?_
  exact Nat.lt_add_of_pos_right (nextCodepointSizes_pos text (mark encoding text n).1).1

theorem mark_units_strictMono (encoding : PositionEncoding) (text : Bytes) :
    StrictMono fun n => (mark encoding text n).2 := by
  refine strictMono_nat_of_lt_succ fun n => ?_
  exact Nat.lt_add_of_pos_right (width_pos (mark encoding text n).1)

/-- The code points of a text do not depend on how they are counted. -/
theorem mark_offset_eq (encoding encoding' : PositionEncoding) (text : Bytes) (n : Nat) :
    (mark encoding text n).1 = (mark encoding' text n).1 := by
  induction n with
  | zero => rfl
  | succ n ih => simp only [mark, ih]

/-- Bytes are counted where they stand. -/
theorem mark_utf8 (text : Bytes) (n : Nat) :
    (mark .utf8 text n).2 = (mark .utf8 text n).1 := by
  induction n with
  | zero => rfl
  | succ n ih => simp only [mark, ih, width]

theorem Marked.zero (encoding : PositionEncoding) (text : Bytes) : Marked encoding text 0 0 :=
  ⟨Nat.zero_le _, 0, rfl⟩

variable {s u i k : Nat}

theorem Marked.le (h : Marked encoding text s u) : s ≤ text.length := h.1

theorem length_nextCodepointSizes_le (h : i < text.length) :
    i + (nextCodepointSizes text i).1 ≤ text.length := by
  unfold nextCodepointSizes
  dsimp only
  split
  · dsimp only
    omega
  · next hv =>
    obtain ⟨b, taken, after, heq, -, -, hlen, -⟩ :=
      decodeUtf8_valid (eq_true_of_ne_false hv)
    have := congrArg List.length heq
    simp only [List.length_drop, List.length_append, List.length_cons] at this
    dsimp only
    omega

theorem Marked.next (h : Marked encoding text s u) (hs : s < text.length) :
    Marked encoding text (s + (nextCodepointSizes text s).1)
      (u + width encoding (nextCodepointSizes text s)) := by
  obtain ⟨n, hn⟩ := h.2
  refine ⟨length_nextCodepointSizes_le hs, n + 1, ?_⟩
  simp only [mark, hn]

theorem Marked.eq_of_units {s u s' : Nat} (h : Marked encoding text s u)
    (h' : Marked encoding text s' u) : s = s' := by
  obtain ⟨n, hn⟩ := h.2
  obtain ⟨m, hm⟩ := h'.2
  have hnm : n = m := (mark_units_strictMono encoding text).injective (by rw [hn, hm])
  rw [hnm, hm] at hn
  exact (congrArg Prod.fst hn).symm

theorem Marked.eq_of_offset {s u u' : Nat} (h : Marked encoding text s u)
    (h' : Marked encoding text s u') : u = u' := by
  obtain ⟨n, hn⟩ := h.2
  obtain ⟨m, hm⟩ := h'.2
  have hnm : n = m := (mark_offset_strictMono encoding text).injective (by rw [hn, hm])
  rw [hnm, hm] at hn
  exact (congrArg Prod.snd hn).symm

/-- No mark lies inside a code point. -/
theorem Marked.next_le {s u s' u' : Nat} (h : Marked encoding text s u)
    (h' : Marked encoding text s' u') (hlt : s < s' ∨ u < u') :
    s + (nextCodepointSizes text s).1 ≤ s' ∧
      u + width encoding (nextCodepointSizes text s) ≤ u' := by
  obtain ⟨n, hn⟩ := h.2
  obtain ⟨m, hm⟩ := h'.2
  have hnm : n < m := by
    obtain hlt | hlt := hlt
    · refine (mark_offset_strictMono encoding text).lt_iff_lt.mp ?_
      rwa [hn, hm]
    · refine (mark_units_strictMono encoding text).lt_iff_lt.mp ?_
      rwa [hn, hm]
  have ho := (mark_offset_strictMono encoding text).monotone (Nat.succ_le_of_lt hnm)
  have hu := (mark_units_strictMono encoding text).monotone (Nat.succ_le_of_lt hnm)
  simp only [mark, hn, hm] at ho hu
  exact ⟨ho, hu⟩

theorem Marked.utf8_units (h : Marked .utf8 text s u) : u = s := by
  obtain ⟨n, hn⟩ := h.2
  have := mark_utf8 text n
  rw [hn] at this
  exact this

theorem Marked.change (h : Marked encoding text s u) (encoding' : PositionEncoding) :
    ∃ v, Marked encoding' text s v := by
  obtain ⟨n, hn⟩ := h.2
  refine ⟨(mark encoding' text n).2, h.1, n, ?_⟩
  have := mark_offset_eq encoding encoding' text n
  rw [hn] at this
  exact Prod.ext this.symm rfl

/-- The whole text has a count of units. -/
theorem marked_length (encoding : PositionEncoding) (text : Bytes) :
    ∃ u, Marked encoding text text.length u := by
  have hstep (k : Nat) : ∀ s u, text.length - s = k → Marked encoding text s u →
      ∃ u, Marked encoding text text.length u := by
    induction k using Nat.strong_induction_on with
    | _ k ih =>
      intro s u hk hm
      obtain hs | hs := Nat.lt_or_ge s text.length
      · have hpos := (nextCodepointSizes_pos text s).1
        exact ih _ (by omega) _ _ rfl (hm.next hs)
      · obtain rfl : s = text.length := le_antisymm hm.le hs
        exact ⟨u, hm⟩
  exact hstep _ 0 0 rfl (Marked.zero encoding text)

/-- Every byte of a text lies in a code point of it. -/
theorem exists_holdsByte (hk : k < text.length) : ∃ s, HoldsByte text s k := by
  have hstep (d : Nat) : ∀ s u, k - s = d → s ≤ k → Marked .utf8 text s u →
      ∃ s, HoldsByte text s k := by
    induction d using Nat.strong_induction_on with
    | _ d ih =>
      intro s u hd hs hm
      obtain hlt | hge := Nat.lt_or_ge k (s + (nextCodepointSizes text s).1)
      · exact ⟨s, ⟨u, hm⟩, hs, hlt⟩
      · have hpos := (nextCodepointSizes_pos text s).1
        exact ih _ (by omega) _ _ rfl hge (hm.next (by omega))
  exact hstep _ 0 0 rfl (Nat.zero_le k) (Marked.zero .utf8 text)

theorem isContinuation_iff (b : UInt8) : isContinuation b = true ↔ IsContinuation b := by
  have hbyte : ∀ n < 256, isContinuation (UInt8.ofNat n) = true ↔
      IsContinuation (UInt8.ofNat n) := by decide +kernel
  rw [← UInt8.ofNat_toNat (x := b)]
  exact hbyte b.toNat b.toNat_lt

theorem continues_iff (hk : k < text.length) :
    continues text k = true ↔ IsContinuation text[k] := by
  rw [continues, List.getD_eq_getElem?_getD, List.getElem?_eq_getElem hk, Option.getD_some,
    isContinuation_iff]

/-- A code point of several bytes begins with one that continues nothing and goes on with
bytes that do. -/
theorem HoldsByte.continues (h : HoldsByte text s k) (hlt : s < k) :
    k < text.length ∧ k - s ≤ 3 ∧ continues text s = false ∧
      ∀ j, s < j → j ≤ k → continues text j = true := by
  obtain ⟨-, -, hk⟩ := h
  unfold nextCodepointSizes at hk
  dsimp only at hk
  split at hk
  · dsimp only at hk
    omega
  · next hv =>
    replace hv := eq_true_of_ne_false hv
    obtain ⟨b, taken, after, heq, hb, hall, hlen, -⟩ := decodeUtf8_valid hv
    dsimp only at hk
    have hfour := decodeUtf8_length_le hv
    have htext := congrArg List.length heq
    simp only [List.length_drop, List.length_append, List.length_cons] at htext
    have hget (j : Nat) (hj : s + j < text.length) :
        (b :: taken ++ after)[j]? = some text[s + j] := by
      rw [← heq, List.getElem?_drop, List.getElem?_eq_getElem hj]
    refine ⟨by omega, by omega, ?_, fun j hj hjk => ?_⟩
    · have h0 := hget 0 (by omega)
      simp only [List.cons_append, List.getElem?_cons_zero, Option.some.injEq,
        Nat.add_zero] at h0
      rw [← Bool.not_eq_true, continues_iff (by omega), ← h0]
      exact hb
    · obtain ⟨i, rfl⟩ := Nat.exists_eq_add_of_lt hj
      have hi := hget (i + 1) (by omega)
      rw [List.cons_append, List.getElem?_cons_succ, List.getElem?_append_left (by omega)] at hi
      rw [continues_iff (by omega)]
      exact hall _ (List.mem_of_getElem? hi)

/-- A byte that continues nothing begins a code point. -/
theorem marked_of_not_continues (hk : k < text.length) (hc : continues text k = false) :
    ∃ u, Marked .utf8 text k u := by
  obtain ⟨s, hs⟩ := exists_holdsByte hk
  obtain heq | hlt := Nat.eq_or_lt_of_le hs.2.1
  · rw [← heq]
    exact hs.1
  · have hcont := (hs.continues hlt).2.2.2 k hlt (le_refl k)
    rw [hc] at hcont
    cases hcont

/-! ## Cutting -/

theorem nextCodepointSizes_take {i t : Nat} (h : i + (nextCodepointSizes text i).1 ≤ t) :
    nextCodepointSizes (text.take t) i = nextCodepointSizes text i := by
  have hdrop : (text.take t).drop i = (text.drop i).take (t - i) := List.drop_take
  cases hv : (decodeUtf8 (text.drop i)).valid with
  | true =>
    simp only [nextCodepointSizes, hv, Bool.true_eq_false, if_false] at h
    simp only [nextCodepointSizes, hdrop, decodeUtf8_take hv (n := t - i) (by omega)]
  | false =>
    cases hv' : (decodeUtf8 ((text.drop i).take (t - i))).valid with
    | true =>
      rw [decodeUtf8_of_take hv', hv'] at hv
      cases hv
    | false => simp only [nextCodepointSizes, hdrop, hv, hv', if_true]

/-- Where code points begin does not depend on what follows. -/
theorem Marked.take {s u t : Nat} (h : Marked encoding text s u) (ht : s ≤ t) :
    Marked encoding (text.take t) s u := by
  obtain ⟨hle, n, hn⟩ := h
  refine ⟨by rw [List.length_take]; omega, n, ?_⟩
  clear hle
  induction n generalizing s u with
  | zero => exact hn
  | succ n ih =>
    have hlast : s = (mark encoding text n).1 +
        (nextCodepointSizes text (mark encoding text n).1).1 := (congrArg Prod.fst hn).symm
    have hprev := ih (s := (mark encoding text n).1) (u := (mark encoding text n).2)
      (by omega) rfl
    simp only [mark] at hn ⊢
    rw [hprev]
    dsimp only
    rw [nextCodepointSizes_take (by omega)]
    exact hn

/-! ## Counting -/

private theorem unitsOf_eq_width (henc : encoding ≠ .utf8) (sizes : Nat × Nat) :
    unitsOf encoding sizes = width encoding sizes := by
  cases encoding with
  | utf8 => exact absurd rfl henc
  | utf16 => rfl
  | utf32 => rfl

theorem encodedLengthFrom_marked (henc : encoding ≠ .utf8) (h : Marked encoding text i u) :
    Marked encoding text text.length (encodedLengthFrom text encoding i u) := by
  induction hk : text.length - i using Nat.strong_induction_on generalizing i u with
  | _ k ih =>
    rw [encodedLengthFrom]
    split
    · next hi =>
      have hpos := (nextCodepointSizes_pos text i).1
      dsimp only
      rw [unitsOf_eq_width henc]
      exact ih _ (by omega) (h.next hi) rfl
    · next hi =>
      obtain rfl : i = text.length := le_antisymm h.le (Nat.le_of_not_lt hi)
      exact h

/-- The encoded length is the count at the end of the text. -/
theorem encodedLength_marked (encoding : PositionEncoding) (ht : text.length < 2 ^ 32) :
    Marked encoding text text.length (encodedLength text encoding) := by
  rw [encodedLength]
  split
  · next henc =>
    subst henc
    obtain ⟨u, hu⟩ := marked_length .utf8 text
    rw [u32_of_lt ht]
    have := hu.utf8_units
    rwa [this] at hu
  · next henc => exact encodedLengthFrom_marked henc (Marked.zero encoding text)

/-- Where a unit falls: at a mark, inside a code point, or past the end. -/
inductive Places (encoding : PositionEncoding) (text : Bytes) (character : Nat) :
    Located → Prop where
  | exact {s : Nat} (h : Marked encoding text s character) :
    Places encoding text character { offset := s, exact := true }
  | inside {s u : Nat} (h : Marked encoding text s u) (hs : s < text.length)
    (hlo : u < character) (hhi : character < u + width encoding (nextCodepointSizes text s)) :
    Places encoding text character { offset := s, exact := false }
  | past {u : Nat} (h : Marked encoding text text.length u) (hlt : u < character) :
    Places encoding text character { offset := text.length, exact := false }

theorem locateFrom_places (henc : encoding ≠ .utf8) {character i u : Nat}
    (h : Marked encoding text i u) (hle : u ≤ character) :
    Places encoding text character (locateFrom text text.length character encoding i u) := by
  induction hk : text.length - i using Nat.strong_induction_on generalizing i u with
  | _ k ih =>
    rw [locateFrom]
    split
    · next hi =>
      split
      · next heq =>
        subst heq
        exact .exact h
      · next hne =>
        have hpos := (nextCodepointSizes_pos text i).1
        dsimp only
        rw [unitsOf_eq_width henc]
        split
        · exact .inside h hi (by omega) (by omega)
        · exact ih _ (by omega) (h.next hi) (by omega) rfl
    · next hi =>
      obtain rfl : i = text.length := le_antisymm h.le (Nat.le_of_not_lt hi)
      by_cases heq : u = character
      · subst heq
        rw [beq_self_eq_true]
        exact .exact h
      · rw [beq_false_of_ne heq]
        exact .past h (by omega)

private theorem findLead_spec (text : Bytes) (character lead : Nat) :
    findLead text character lead ≤ lead ∧
      (∀ j, findLead text character lead < j → j ≤ lead →
        continues text j = true ∧ character - j < 3) ∧
      (findLead text character lead = 0 ∨
        ¬(continues text (findLead text character lead) = true ∧
          character - findLead text character lead < 3)) := by
  induction lead with
  | zero => exact ⟨le_refl 0, fun j hj hj' => by simp only [findLead] at hj; omega, Or.inl rfl⟩
  | succ lead ih =>
    rw [findLead]
    split
    · next hc =>
      refine ⟨by omega, fun j hj hj' => ?_, ih.2.2⟩
      obtain rfl | hlt := Nat.eq_or_lt_of_le hj'
      · exact hc
      · exact ih.2.1 j hj (by omega)
    · next hc => exact ⟨le_refl _, fun j hj hj' => by omega, Or.inr hc⟩

/-- The scan back from a byte ends at the lead of its code point. -/
private theorem findLead_of_holdsByte (h : HoldsByte text s k) (hlt : s < k) :
    findLead text k k = s := by
  obtain ⟨-, hthree, hlead, hcont⟩ := h.continues hlt
  obtain ⟨hle, hall, hstop⟩ := findLead_spec text k k
  refine le_antisymm ?_ ?_
  · by_contra hn
    obtain h0 | hs := hstop
    · omega
    · exact hs ⟨hcont _ (by omega) hle, by omega⟩
  · by_contra hn
    have := (hall s (by omega) h.2.1).1
    rw [hlead] at this
    cases this

theorem locate_utf8_places {character : Nat} (ht : text.length < 2 ^ 32) :
    Places .utf8 text character (locate text character .utf8) := by
  have hend : Marked .utf8 text text.length text.length := by
    have := encodedLength_marked .utf8 ht
    rwa [encodedLength, if_pos rfl, u32_of_lt ht] at this
  simp only [locate, if_true, u32_of_lt ht]
  split
  · next hge =>
    by_cases heq : character = text.length
    · subst heq
      rw [beq_self_eq_true]
      exact .exact hend
    · rw [beq_false_of_ne heq]
      exact .past hend (by omega)
  · next hlt =>
    replace hlt := Nat.lt_of_not_le hlt
    have hle := (findLead_spec text character character).1
    split
    · next hc =>
      obtain ⟨hne, hlead, hreach⟩ := hc
      obtain ⟨u, hu⟩ := marked_of_not_continues (by omega) (Bool.not_eq_true _ ▸ hlead)
      obtain rfl := hu.utf8_units
      exact .inside hu (by omega) (by omega) hreach
    · next hc =>
      obtain ⟨s, hs⟩ := exists_holdsByte hlt
      obtain heq | hlt' := Nat.eq_or_lt_of_le hs.2.1
      · subst heq
        obtain ⟨u, hu⟩ := hs.1
        have := hu.utf8_units
        rw [this] at hu
        exact .exact hu
      · refine absurd ⟨?_, ?_, ?_⟩ hc
        · rw [findLead_of_holdsByte hs hlt']
          omega
        · rw [findLead_of_holdsByte hs hlt', (hs.continues hlt').2.2.1]
          exact Bool.false_ne_true
        · rw [findLead_of_holdsByte hs hlt']
          exact hs.2.2

/-- `locate` finds where a unit falls, in every encoding. -/
theorem locate_places (encoding : PositionEncoding) (character : Nat)
    (ht : text.length < 2 ^ 32) :
    Places encoding text character (locate text character encoding) := by
  by_cases henc : encoding = .utf8
  · subst henc
    exact locate_utf8_places ht
  · rw [locate]
    simp only [henc, if_false, u32_of_lt ht]
    exact locateFrom_places henc (Marked.zero encoding text) (Nat.zero_le _)

/-- A unit that begins a code point is found exactly. -/
theorem locate_of_marked (h : Marked encoding text s u) (ht : text.length < 2 ^ 32) :
    locate text u encoding = { offset := s, exact := true } := by
  have hp := locate_places encoding u ht
  generalize locate text u encoding = found at hp ⊢
  cases hp with
  | exact h' => rw [h.eq_of_units h']
  | inside h' hs hlo hhi =>
    have := (h'.next_le h (Or.inr hlo)).2
    omega
  | past h' hlt =>
    have := (h'.next_le h (Or.inr hlt)).1
    have := h.le
    have := (nextCodepointSizes_pos text text.length).1
    omega

end Kotatsu.Ipc.Lsp
