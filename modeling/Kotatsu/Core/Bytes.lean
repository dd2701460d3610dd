import Mathlib.Algebra.Group.Nat.Defs
import Mathlib.Data.List.DropRight
import Mathlib.Data.List.Infix

/-!
# Byte strings

The standard library's string views, read as lists of bytes. The operations
keep the library's documented results: `find` gives the first occurrence,
`substr` is cut at the end of the text, and `fromChars` accepts a decimal
numeral only when all of the text is one. `checkedSub` is the subtraction of
two unsigned sizes, undefined where the machine's would wrap.
-/

namespace Kotatsu.Core

/-- A `std::string` or `std::string_view`. -/
abbrev Bytes := List UInt8

/-- `'\n'`. -/
def newlineByte : UInt8 := 0x0A

/-- `'\r'`. -/
def returnByte : UInt8 := 0x0D

/-- `'"'`. -/
def quoteByte : UInt8 := 0x22

/-- `'%'`. -/
def percentByte : UInt8 := 0x25

/-- `'/'`. -/
def slashByte : UInt8 := 0x2F

/-- `':'`. -/
def colonByte : UInt8 := 0x3A

/-- `'?'`. -/
def questionByte : UInt8 := 0x3F

/-- `'\\'`. -/
def backslashByte : UInt8 := 0x5C

/-- The bytes of an ASCII literal. -/
def ascii (s : String) : Bytes := s.toList.map fun c => UInt8.ofNat c.toNat

/-- A difference of two sizes, when it does not go below zero. -/
def checkedSub (a b : Nat) : Option Nat := if b ≤ a then some (a - b) else none

theorem checkedSub_of_le {a b : Nat} (h : b ≤ a) : checkedSub a b = some (a - b) := by
  simp only [checkedSub, h, ite_true]

/-- `text.substr(at, count)` for a position inside the text. -/
def substr (text : Bytes) (at' count : Nat) : Bytes := (text.drop at').take count

@[simp] theorem length_substr (text : Bytes) (at' count : Nat) :
    (substr text at' count).length = min count (text.length - at') := by
  simp only [substr, List.length_take, List.length_drop]

/-- The position of the first occurrence of `needle`. -/
def find (needle : Bytes) : Bytes → Option Nat
  | [] => if needle = [] then some 0 else none
  | x :: xs => if needle.isPrefixOf (x :: xs) then some 0 else (find needle xs).map (· + 1)

variable {needle text : Bytes}

/-- The text at a reported position begins with the needle. -/
theorem find_some {i : Nat} (h : find needle text = some i) : needle <+: text.drop i := by
  induction text generalizing i with
  | nil =>
    simp only [find] at h
    split at h
    · next hn => simp [hn]
    · cases h
  | cons x xs ih =>
    simp only [find] at h
    split at h
    · next hp =>
      cases h
      exact List.isPrefixOf_iff_prefix.mp hp
    · obtain ⟨j, hj, rfl⟩ := Option.map_eq_some_iff.mp h
      simpa only [List.drop_succ_cons] using ih hj

/-- No occurrence begins before the reported one. -/
theorem find_le {j : Nat} (hj : needle <+: text.drop j) (hlen : j ≤ text.length) :
    ∃ i, find needle text = some i ∧ i ≤ j := by
  induction text generalizing j with
  | nil =>
    have hn : needle = [] := by simpa using hj
    exact ⟨0, by simp only [find, hn, ite_true], Nat.zero_le j⟩
  | cons x xs ih =>
    by_cases hp : needle.isPrefixOf (x :: xs) = true
    · exact ⟨0, by simp only [find, hp, ite_true], Nat.zero_le j⟩
    · cases j with
      | zero => exact absurd (List.isPrefixOf_iff_prefix.mpr (by simpa using hj)) hp
      | succ j =>
        obtain ⟨i, hi, hij⟩ := ih (by simpa only [List.drop_succ_cons] using hj)
          (by simpa only [List.length_cons, Nat.add_le_add_iff_right] using hlen)
        exact ⟨i + 1, by simp only [find, hp, Bool.false_eq_true, ite_false, hi, Option.map_some],
          by omega⟩

/-- A byte is found where it first occurs. -/
theorem find_byte_some {b : UInt8} {i : Nat} (h : find [b] text = some i) :
    ∃ before after, text = before ++ b :: after ∧ b ∉ before ∧ before.length = i := by
  induction text generalizing i with
  | nil => cases h
  | cons x xs ih =>
    by_cases hx : b = x
    · subst hx
      simp only [find, List.isPrefixOf, beq_self_eq_true, Bool.true_and, if_true,
        Option.some.injEq] at h
      exact ⟨[], xs, rfl, List.not_mem_nil, h⟩
    · simp only [find, List.isPrefixOf, beq_false_of_ne hx, Bool.false_and,
        Bool.false_eq_true, if_false] at h
      obtain ⟨j, hj, rfl⟩ := Option.map_eq_some_iff.mp h
      obtain ⟨before, after, heq, hb, hlen⟩ := ih hj
      refine ⟨x :: before, after, by rw [heq, List.cons_append], ?_, by rw [List.length_cons, hlen]⟩
      exact List.not_mem_cons_of_ne_of_not_mem hx hb

theorem find_byte_none {b : UInt8} (h : find [b] text = none) : b ∉ text := by
  induction text with
  | nil => exact List.not_mem_nil
  | cons x xs ih =>
    by_cases hx : b = x
    · subst hx
      simp only [find, List.isPrefixOf, beq_self_eq_true, Bool.true_and, if_true,
        reduceCtorEq] at h
    · simp only [find, List.isPrefixOf, beq_false_of_ne hx, Bool.false_and,
        Bool.false_eq_true, if_false, Option.map_eq_none_iff] at h
      exact List.not_mem_cons_of_ne_of_not_mem hx (ih h)

/-- A needle whose first byte does not occur before it is found where it stands. -/
theorem find_append {needle before after : Bytes} {x : UInt8} {xs : Bytes}
    (hx : needle = x :: xs) (hb : x ∉ before) :
    find needle (before ++ needle ++ after) = some before.length := by
  induction before with
  | nil =>
    subst hx
    have hp : (x :: xs).isPrefixOf (x :: xs ++ after) = true :=
      List.isPrefixOf_iff_prefix.mpr (List.prefix_append _ _)
    simp only [List.nil_append, List.length_nil]
    rw [List.cons_append, find, ← List.cons_append, hp, ite_cond_eq_true _ _ (eq_self true)]
  | cons y ys ih =>
    have hne : x ≠ y := fun he => hb (he ▸ List.mem_cons_self ..)
    have hys : x ∉ ys := fun hm => hb (List.mem_cons_of_mem _ hm)
    have hp : needle.isPrefixOf (y :: (ys ++ needle ++ after)) = false := by
      subst hx
      simp only [List.isPrefixOf, beq_eq_false_iff_ne.mpr hne, Bool.false_and]
    rw [List.cons_append, List.cons_append, find, hp]
    simp only [Bool.false_eq_true, ite_false, ih hys, Option.map_some, List.length_cons]

theorem find_byte_append {byte : UInt8} {before : Bytes} (after : Bytes) (h : byte ∉ before) :
    find [byte] (before ++ byte :: after) = some before.length := by
  have hfind : find [byte] (before ++ [byte] ++ after) = some before.length := find_append rfl h
  rwa [List.append_assoc, List.singleton_append] at hfind

theorem find_byte_absent {byte : UInt8} (h : byte ∉ text) : find [byte] text = none := by
  cases hfind : find [byte] text with
  | none => rfl
  | some i =>
    obtain ⟨before, after, rfl, -⟩ := find_byte_some hfind
    exact absurd (List.mem_append_right _ List.mem_cons_self) h

theorem drop_succ_append (before : Bytes) (byte : UInt8) (after : Bytes) :
    (before ++ byte :: after).drop (before.length + 1) = after := by
  rw [List.drop_append, List.drop_eq_nil_of_le (Nat.le_succ _), List.nil_append,
    Nat.add_sub_cancel_left, List.drop_succ_cons, List.drop_zero]

/-- The decimal numeral `std::format` writes for a size. -/
def decimal (n : Nat) : Bytes :=
  if n < 10 then [UInt8.ofNat (48 + n)]
  else decimal (n / 10) ++ [UInt8.ofNat (48 + n % 10)]

/-- Whether a byte is an ASCII digit. -/
def isDigit (b : UInt8) : Bool := 48 ≤ b.toNat && b.toNat ≤ 57

/-- The number a row of digits spells after `acc`. -/
def digitsValue (acc : Nat) (digits : Bytes) : Nat :=
  digits.foldl (fun n d => n * 10 + (d.toNat - 48)) acc

/-- `std::from_chars` into an unsigned of `width` bits, when it reads the text to its end. -/
def fromChars (width : Nat) (text : Bytes) : Option Nat :=
  if text ≠ [] ∧ text.all isDigit ∧ digitsValue 0 text < 2 ^ width then
    some (digitsValue 0 text)
  else none

private theorem toNat_digit {d : Nat} (h : d < 10) : (UInt8.ofNat (48 + d)).toNat = 48 + d := by
  simp only [UInt8.toNat_ofNat']
  omega

theorem isDigit_decimal (n : Nat) : ∀ b ∈ decimal n, isDigit b = true := by
  induction n using Nat.strong_induction_on with
  | _ n ih =>
    intro b hb
    rw [decimal] at hb
    split at hb
    · next hn =>
      obtain rfl := List.mem_singleton.mp hb
      simp only [isDigit, toNat_digit hn, Bool.and_eq_true, decide_eq_true_eq]
      omega
    · next hn =>
      rcases List.mem_append.mp hb with hb | hb
      · exact ih (n / 10) (by omega) b hb
      · obtain rfl := List.mem_singleton.mp hb
        simp only [isDigit, toNat_digit (Nat.mod_lt n (by decide)), Bool.and_eq_true,
          decide_eq_true_eq]
        omega

theorem digitsValue_decimal (n : Nat) : digitsValue 0 (decimal n) = n := by
  induction n using Nat.strong_induction_on with
  | _ n ih =>
    rw [decimal]
    split
    · next hn =>
      simp only [digitsValue, List.foldl_cons, List.foldl_nil, toNat_digit hn]
      omega
    · next hn =>
      have hq := ih (n / 10) (by omega)
      simp only [digitsValue] at hq ⊢
      rw [List.foldl_append, hq]
      simp only [List.foldl_cons, List.foldl_nil, toNat_digit (Nat.mod_lt n (by decide))]
      omega

theorem decimal_ne_nil (n : Nat) : decimal n ≠ [] := by
  rw [decimal]
  split <;> simp

/-- A numeral has no more digits than the exponent of a power of ten above it. -/
theorem length_decimal_le {n k : Nat} (hk : 0 < k) (h : n < 10 ^ k) : (decimal n).length ≤ k := by
  induction k generalizing n with
  | zero => omega
  | succ k ih =>
    rw [decimal]
    split
    · simp
    · next hn =>
      have hk0 : 0 < k := by
        rcases Nat.eq_zero_or_pos k with rfl | hp
        · simp only [Nat.zero_add, Nat.pow_one] at h
          omega
        · exact hp
      have hd : n / 10 < 10 ^ k := by
        rw [Nat.pow_succ] at h
        omega
      simpa only [List.length_append, List.length_singleton, Nat.add_le_add_iff_right]
        using ih hk0 hd

/-- Reading back a written size gives the size, when it fits the width. -/
theorem fromChars_decimal {width n : Nat} (h : n < 2 ^ width) :
    fromChars width (decimal n) = some n := by
  have hall : (decimal n).all isDigit = true := List.all_eq_true.mpr (isDigit_decimal n)
  simp only [fromChars, digitsValue_decimal, hall, h, and_true, ne_eq, decimal_ne_nil,
    not_false_eq_true, ite_true]

/-- The text without the bytes satisfying `blank` at both of its ends. -/
def trimBy (blank : UInt8 → Bool) (text : Bytes) : Bytes :=
  (text.dropWhile blank).rdropWhile blank

/-- A text without blanks is its own trim. -/
theorem trimBy_of_forall {blank : UInt8 → Bool} (h : ∀ b ∈ text, blank b = false) :
    trimBy blank text = text := by
  have hl : text.dropWhile blank = text := by
    cases text with
    | nil => rfl
    | cons x xs =>
      rw [List.dropWhile_cons_of_neg]
      simp only [h x (List.mem_cons_self ..), Bool.false_eq_true, not_false_eq_true]
  rw [trimBy, hl, List.rdropWhile_eq_self_iff]
  intro hne
  simp only [h _ (List.getLast_mem hne), Bool.false_eq_true, not_false_eq_true]

end Kotatsu.Core
