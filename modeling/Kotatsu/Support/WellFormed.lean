import Mathlib.Data.List.Forall2
import Kotatsu.Support.Utf8

/-!
# Well-formed sequences

The well-formed sequences are the rows of Unicode's Table 3-7, each a range for every
byte. `decode_sequence` takes the one that a text begins with; where there is none it
takes the maximal subpart: the longest text that begins one, or a single byte.
-/

namespace Kotatsu.Support

open Kotatsu.Core

/-! ## The table -/

/-- The bytes from the first to the second. -/
abbrev ByteRange := UInt8 × UInt8

/-- A byte of the range. -/
def ByteRange.Holds (range : ByteRange) (b : UInt8) : Prop := range.1 ≤ b ∧ b ≤ range.2

instance (range : ByteRange) (b : UInt8) : Decidable (range.Holds b) :=
  inferInstanceAs (Decidable (_ ∧ _))

/-- The range of every byte after the second. -/
def trailing : ByteRange := (0x80, 0xBF)

/-- Table 3-7; where surrogates are taken for code points, the second byte after `ED` may be
any. -/
def table (surrogates : Bool) : List (List ByteRange) := [
  [(0x00, 0x7F)],
  [(0xC2, 0xDF), trailing],
  [(0xE0, 0xE0), (0xA0, 0xBF), trailing],
  [(0xE1, 0xEC), trailing, trailing],
  [(0xED, 0xED), (0x80, if surrogates then 0xBF else 0x9F), trailing],
  [(0xEE, 0xEF), trailing, trailing],
  [(0xF0, 0xF0), (0x90, 0xBF), trailing, trailing],
  [(0xF1, 0xF3), trailing, trailing, trailing],
  [(0xF4, 0xF4), (0x80, 0x8F), trailing, trailing]]

/-- Bytes of the ranges, one by one. -/
def Follows (row : List ByteRange) (text : Bytes) : Prop := List.Forall₂ ByteRange.Holds row text

/-- A row of the table. -/
def WellFormedSequence (surrogates : Bool) (text : Bytes) : Prop :=
  ∃ row ∈ table surrogates, Follows row text

/-- Bytes that a well-formed sequence begins with. -/
def BeginsSequence (surrogates : Bool) (text : Bytes) : Prop :=
  ∃ rest, WellFormedSequence surrogates (text ++ rest)

/-- The part of an ill-formed text that one replacement stands for: the longest bytes at its
start that begin a well-formed sequence, or its first byte where none do. -/
def MaximalSubpart (surrogates : Bool) (sub text : Bytes) : Prop :=
  sub <+: text ∧ sub ≠ [] ∧
    ((BeginsSequence surrogates sub ∧
        ∀ other, other <+: text → BeginsSequence surrogates other → other.length ≤ sub.length) ∨
      (sub.length = 1 ∧ ∀ other, other <+: text → BeginsSequence surrogates other → other = []))

/-! ## Along a row -/

/-- How many bytes of a text follow a row. -/
def along : List ByteRange → Bytes → Nat
  | range :: row, b :: text => if range.Holds b then along row text + 1 else 0
  | _, _ => 0

variable {row : List ByteRange} {b : UInt8} {l : Lead} {text rest : Bytes} {surrogates : Bool}

theorem along_le_row (row : List ByteRange) (text : Bytes) : along row text ≤ row.length := by
  fun_induction along row text with
  | case1 range row b text h ih => exact Nat.succ_le_succ ih
  | case2 | case3 => exact Nat.zero_le _

theorem along_le_text (row : List ByteRange) (text : Bytes) : along row text ≤ text.length := by
  fun_induction along row text with
  | case1 range row b text h ih => exact Nat.succ_le_succ ih
  | case2 | case3 => exact Nat.zero_le _

/-- The bytes that follow a row can be completed. -/
theorem exists_follows (hrow : ∀ range ∈ row, range.1 ≤ range.2) (text : Bytes) :
    ∃ rest, Follows row (text.take (along row text) ++ rest) := by
  have hany : ∀ row : List ByteRange, (∀ range ∈ row, range.1 ≤ range.2) →
      ∃ rest, Follows row rest := fun row hrow => by
    induction row with
    | nil => exact ⟨[], .nil⟩
    | cons range row ih =>
      rw [List.forall_mem_cons] at hrow
      obtain ⟨rest, hrest⟩ := ih hrow.2
      exact ⟨range.1 :: rest, .cons ⟨UInt8.le_refl _, hrow.1⟩ hrest⟩
  fun_induction along row text with
  | case1 range row b text h ih =>
    rw [List.forall_mem_cons] at hrow
    obtain ⟨rest, hrest⟩ := ih hrow.2
    exact ⟨rest, .cons h hrest⟩
  | case2 range row b text h => exact hany _ hrow
  | case3 row text => exact hany _ hrow

/-- No more bytes at the start of a text can be completed. -/
theorem length_le_along {sub : Bytes} (h : Follows row (sub ++ rest)) (hsub : sub <+: text) :
    sub.length ≤ along row text := by
  induction sub generalizing row text with
  | nil => exact Nat.zero_le _
  | cons b sub ih =>
    obtain ⟨more, rfl⟩ := hsub
    cases h with
    | cons hb hrest =>
      rw [List.cons_append, along, if_pos hb]
      exact Nat.succ_le_succ (ih hrest (List.prefix_append _ _))

/-- A text that follows a row does so with its whole length. -/
theorem along_of_follows (h : Follows row text) (rest : Bytes) :
    along row (text ++ rest) = row.length ∧ text.length = row.length := by
  have hlen : text.length = row.length := (List.Forall₂.length_eq h).symm
  have hle := length_le_along (by rwa [List.append_nil]) (List.prefix_append text rest)
  exact ⟨Nat.le_antisymm (along_le_row _ _) (hlen ▸ hle), hlen⟩

theorem follows_of_along (h : along row text = row.length) :
    Follows row (text.take row.length) := by
  induction row generalizing text with
  | nil => exact .nil
  | cons range row ih =>
    cases text with
    | nil => cases h
    | cons b text =>
      rw [along] at h
      split at h
      · next hb => exact .cons hb (ih (Nat.succ.inj h))
      · cases h

/-! ## Leads -/

/-- What the rows whose first range holds a byte say of the bytes after it. -/
def tails (surrogates : Bool) (b : UInt8) : List (List ByteRange) :=
  (table surrogates).filterMap fun row => match row with
    | [] => none
    | range :: row => if range.Holds b then some row else none

/-- The ranges of the bytes after a lead. -/
def Lead.ranges (l : Lead) : List ByteRange :=
  (l.low, l.high) :: List.replicate (l.need - 2) trailing

/-- The leads of `decode_sequence` are those of the table. -/
theorem tails_eq (surrogates : Bool) (b : UInt8) :
    tails surrogates b =
      if b < 0x80 then [[]] else ((lead b surrogates).map fun l => [l.ranges]).getD [] := by
  have hall : ∀ surrogates : Bool, ∀ n : Fin 256, tails surrogates (UInt8.ofNat n.val) =
      if UInt8.ofNat n.val < 0x80 then [[]]
      else ((lead (UInt8.ofNat n.val) surrogates).map fun l => [l.ranges]).getD [] := by
    decide +kernel
  have h := hall surrogates ⟨b.toNat, b.toNat_lt⟩
  rwa [UInt8.ofNat_toNat] at h

theorem wellFormed_cons :
    WellFormedSequence surrogates (b :: text) ↔ ∃ row ∈ tails surrogates b, Follows row text := by
  constructor
  · rintro ⟨row, hrow, hfollows⟩
    cases hfollows with
    | @cons range _ row _ hb hrest =>
      refine ⟨row, List.mem_filterMap.mpr ⟨range :: row, hrow, ?_⟩, hrest⟩
      exact if_pos hb
  · rintro ⟨row, hrow, hfollows⟩
    obtain ⟨whole, hwhole, heq⟩ := List.mem_filterMap.mp hrow
    cases whole with
    | nil => cases heq
    | cons range row' =>
      dsimp only at heq
      split at heq
      · next hb =>
        cases heq
        exact ⟨range :: row, hwhole, .cons hb hfollows⟩
      · cases heq

theorem wellFormed_ne_nil (h : WellFormedSequence surrogates text) : text ≠ [] := by
  rintro rfl
  obtain ⟨row, hrow, hfollows⟩ := h
  cases hfollows
  exact absurd hrow (by cases surrogates <;> decide)

/-! ## What is decoded -/

/-- A loop that has what it needs takes no more. -/
theorem takeContinuations_done (need cp : Nat) (low high : UInt8) (rest : Bytes) :
    takeContinuations need cp need low high rest = (cp, need) := by
  cases rest with
  | nil => rfl
  | cons next rest => rw [takeContinuations, if_neg fun h => Nat.lt_irrefl _ h.1]

/-- The loop of `decode_sequence` takes what goes along the ranges. -/
theorem takeContinuations_along (k cp n : Nat) (low high : UInt8) (rest : Bytes) :
    (takeContinuations (n + 1 + k) cp n low high rest).2 =
      n + along ((low, high) :: List.replicate k trailing) rest := by
  induction rest generalizing k cp n low high with
  | nil => rfl
  | cons next rest ih =>
    by_cases hb : ByteRange.Holds (low, high) next
    · rw [takeContinuations, if_pos ⟨by omega, hb⟩, along, if_pos hb]
      cases k with
      | zero =>
        rw [Nat.add_zero, takeContinuations_done]
        rfl
      | succ k =>
        have hnext := ih k (cp <<< 6 ||| (next &&& 0x3F).toNat) (n + 1) 0x80 0xBF
        rw [show n + 1 + (k + 1) = n + 1 + 1 + k by omega, hnext, List.replicate_succ, trailing]
        omega
    · rw [takeContinuations, if_neg fun h => hb h.2, along, if_neg hb]
      rfl

theorem lead_need (h : lead b surrogates = some l) : 2 ≤ l.need := by
  unfold lead at h
  split at h
  · cases h
    exact Nat.le_refl 2
  · split at h
    · cases h
      exact Nat.le_succ 2
    · split at h
      · cases h
        exact (by decide : 2 ≤ 4)
      · cases h

/-- What is decoded is what goes along the row of the lead. -/
theorem decodeSequence_tails (b : UInt8) (rest : Bytes) (surrogates : Bool) :
    (tails surrogates b = [] ∧ (decodeSequence (b :: rest) surrogates).length = 1 ∧
      (decodeSequence (b :: rest) surrogates).valid = false) ∨
    ∃ row, tails surrogates b = [row] ∧
      (decodeSequence (b :: rest) surrogates).length = along row rest + 1 ∧
      ((decodeSequence (b :: rest) surrogates).valid = true ↔ along row rest = row.length) := by
  rw [tails_eq, decodeSequence]
  split
  · exact .inr ⟨[], rfl, rfl, iff_of_true rfl rfl⟩
  · cases hl : lead b surrogates with
    | none => exact .inl ⟨rfl, rfl, rfl⟩
    | some l =>
      have hneed := lead_need hl
      have htaken : (takeContinuations l.need l.codePoint 1 l.low l.high rest).2 =
          1 + along l.ranges rest := by
        have h := takeContinuations_along (l.need - 2) l.codePoint 1 l.low l.high rest
        rwa [show 1 + 1 + (l.need - 2) = l.need by omega] at h
      have hlen : l.ranges.length = l.need - 1 := by
        rw [Lead.ranges, List.length_cons, List.length_replicate]
        omega
      refine .inr ⟨l.ranges, rfl, ?_⟩
      dsimp only
      rw [htaken]
      split
      · next hne => exact ⟨Nat.add_comm _ _, iff_of_false Bool.false_ne_true (by omega)⟩
      · next heq => exact ⟨Nat.add_comm _ _, iff_of_true rfl (by omega)⟩

theorem ranges_of_tails (h : tails surrogates b = [row]) :
    ∀ range ∈ row, range.1 ≤ range.2 := by
  have hall : ((table surrogates).all fun row => row.all fun range => range.1 ≤ range.2) = true := by
    cases surrogates <;> decide
  have hm : row ∈ tails surrogates b := h ▸ List.mem_cons_self
  obtain ⟨whole, hwhole, heq⟩ := List.mem_filterMap.mp hm
  cases whole with
  | nil => cases heq
  | cons range row' =>
    dsimp only at heq
    split at heq
    · cases heq
      intro range hrange
      have hrow := List.all_eq_true.mp (List.all_eq_true.mp hall _ hwhole) range
      exact of_decide_eq_true (hrow (List.mem_cons_of_mem _ hrange))
    · cases heq

/-- At least one byte is decoded, and no more than there are. -/
theorem decodeSequence_length (surrogates : Bool) (h : text ≠ []) :
    0 < (decodeSequence text surrogates).length ∧
      (decodeSequence text surrogates).length ≤ text.length := by
  obtain ⟨b, rest, rfl⟩ := List.exists_cons_of_ne_nil h
  obtain ⟨-, hlen, -⟩ | ⟨row, -, hlen, -⟩ := decodeSequence_tails b rest surrogates
  · rw [hlen, List.length_cons]
    omega
  · have := along_le_text row rest
    rw [hlen, List.length_cons]
    omega

/-- What decodes is a well-formed sequence. -/
theorem wellFormed_of_valid (h : (decodeSequence text surrogates).valid = true) :
    WellFormedSequence surrogates (text.take (decodeSequence text surrogates).length) := by
  cases text with
  | nil => cases h
  | cons b rest =>
    obtain ⟨-, -, hv⟩ | ⟨row, htails, hlen, hv⟩ := decodeSequence_tails b rest surrogates
    · rw [h] at hv
      cases hv
    · have hrow := hv.mp h
      rw [hlen, List.take_succ_cons, wellFormed_cons, htails, hrow]
      exact ⟨row, List.mem_cons_self, follows_of_along hrow⟩

/-- A well-formed sequence is decoded, whatever comes after it. -/
theorem decodeSequence_of_wellFormed (h : WellFormedSequence surrogates text) (rest : Bytes) :
    (decodeSequence (text ++ rest) surrogates).valid = true ∧
      (decodeSequence (text ++ rest) surrogates).length = text.length := by
  obtain ⟨b, text, rfl⟩ := List.exists_cons_of_ne_nil (wellFormed_ne_nil h)
  obtain ⟨row, hrow, hfollows⟩ := wellFormed_cons.mp h
  obtain ⟨hnil, -, -⟩ | ⟨row', htails, hlen, hv⟩ :=
    decodeSequence_tails b (text ++ rest) surrogates
  · rw [hnil] at hrow
    cases hrow
  · rw [htails, List.mem_singleton] at hrow
    subst hrow
    obtain ⟨halong, hsame⟩ := along_of_follows hfollows rest
    rw [List.cons_append, hlen, hv, halong, List.length_cons, hsame]
    exact ⟨rfl, rfl⟩

/-- What does not decode is the maximal subpart. -/
theorem maximalSubpart_of_invalid (hne : text ≠ [])
    (h : (decodeSequence text surrogates).valid = false) :
    MaximalSubpart surrogates (text.take (decodeSequence text surrogates).length) text := by
  obtain ⟨b, rest, rfl⟩ := List.exists_cons_of_ne_nil hne
  refine ⟨List.take_prefix _ _, ?_, ?_⟩
  · obtain ⟨hpos, -⟩ := decodeSequence_length surrogates hne
    intro hnil
    obtain hzero | hcons := List.take_eq_nil_iff.mp hnil
    · omega
    · cases hcons
  obtain ⟨hnil, hlen, -⟩ | ⟨row, htails, hlen, hv⟩ := decodeSequence_tails b rest surrogates
  · refine .inr ⟨by rw [hlen]; rfl, fun other hother => ?_⟩
    cases other with
    | nil => exact fun _ => rfl
    | cons c other =>
      rintro ⟨more, hmore⟩
      obtain ⟨rfl, -⟩ := List.cons_prefix_cons.mp hother
      rw [List.cons_append, wellFormed_cons, hnil] at hmore
      obtain ⟨row, hrow, -⟩ := hmore
      cases hrow
  · rw [hlen, List.take_succ_cons]
    refine .inl ⟨?_, fun other hother => ?_⟩
    · obtain ⟨more, hmore⟩ := exists_follows (ranges_of_tails htails) rest
      refine ⟨more, ?_⟩
      rw [List.cons_append, wellFormed_cons, htails]
      exact ⟨row, List.mem_cons_self, hmore⟩
    · have hle : (rest.take (along row rest)).length = along row rest := by
        rw [List.length_take]
        exact Nat.min_eq_left (along_le_text row rest)
      rw [List.length_cons, hle]
      cases other with
      | nil => exact fun _ => Nat.zero_le _
      | cons c other =>
        rintro ⟨more, hmore⟩
        obtain ⟨rfl, hpre⟩ := List.cons_prefix_cons.mp hother
        rw [List.cons_append, wellFormed_cons, htails] at hmore
        obtain ⟨row', hrow, hfollows⟩ := hmore
        rw [List.mem_singleton.mp hrow] at hfollows
        exact Nat.succ_le_succ (length_le_along hfollows hpre)

end Kotatsu.Support
