import Mathlib.Data.List.Chain
import Kotatsu.Support.Wtf8

/-!
# Surrogates

The units of a text pair up to code points, and a code point that no high surrogate
before it pairs with is read back from its own units. So UTF-16, lone surrogates
included, and WTF-8 spell the same lists of code points.
-/

namespace Kotatsu.Support

open Kotatsu.Core

variable {cp : Nat} {cps : List Nat}

/-- A code point that begins a pair. -/
def IsHigh (cp : Nat) : Prop := 0xD800 ≤ cp ∧ cp ≤ 0xDBFF

/-- One that ends one. -/
def IsLow (cp : Nat) : Prop := 0xDC00 ≤ cp ∧ cp ≤ 0xDFFF

/-- Code points, none of them a high surrogate right before a low one. -/
structure Unpaired (cps : List Nat) : Prop where
  scalar : ∀ cp ∈ cps, cp < 0x110000
  apart : cps.IsChain fun a b => ¬(IsHigh a ∧ IsLow b)

/-- The bytes of code points. -/
def spell (cps : List Nat) : Bytes := cps.flatMap putCodePoint

/-- The units of code points. -/
def unitsOfAll (cps : List Nat) : List UInt16 := cps.flatMap codeUnits

@[simp] theorem spell_cons (cp : Nat) (cps : List Nat) :
    spell (cp :: cps) = putCodePoint cp ++ spell cps := List.flatMap_cons

theorem spell_concat (cps : List Nat) (cp : Nat) :
    spell (cps ++ [cp]) = spell cps ++ putCodePoint cp := by
  simp [spell]

@[simp] theorem unitsOfAll_nil : unitsOfAll [] = [] := rfl

@[simp] theorem unitsOfAll_cons (cp : Nat) (cps : List Nat) :
    unitsOfAll (cp :: cps) = codeUnits cp ++ unitsOfAll cps := List.flatMap_cons

theorem unpaired_nil : Unpaired [] := ⟨by simp, .nil⟩

theorem Unpaired.tail (h : Unpaired (cp :: cps)) : Unpaired cps :=
  ⟨fun other hm => h.scalar other (List.mem_cons_of_mem _ hm), h.apart.tail⟩

theorem Unpaired.head (h : Unpaired (cp :: cps)) : cp < 0x110000 := h.scalar cp List.mem_cons_self

theorem Unpaired.concat (h : Unpaired cps) (hlt : cp < 0x110000) (hhigh : IsHigh cp) :
    Unpaired (cps ++ [cp]) := by
  refine ⟨List.forall_mem_append.mpr ⟨h.scalar, List.forall_mem_singleton.mpr hlt⟩,
    h.apart.append (.singleton _) ?_⟩
  rintro a - b hb ⟨-, hlow⟩
  cases hb
  rw [IsHigh] at hhigh
  rw [IsLow] at hlow
  omega

/-! ## Units -/

theorem isHighSurrogate_iff {unit : UInt16} : isHighSurrogate unit = true ↔ IsHigh unit.toNat := by
  rw [isHighSurrogate, Bool.and_eq_true, decide_eq_true_eq, decide_eq_true_eq, IsHigh]

theorem isLowSurrogate_iff {unit : UInt16} : isLowSurrogate unit = true ↔ IsLow unit.toNat := by
  rw [isLowSurrogate, Bool.and_eq_true, decide_eq_true_eq, decide_eq_true_eq, IsLow]

theorem toNat_unit {n : Nat} (h : n < 0x10000) : (UInt16.ofNat n).toNat = n := by
  rw [UInt16.toNat_ofNat']
  exact Nat.mod_eq_of_lt h

theorem pairCodePoint_eq (unit next : UInt16) :
    pairCodePoint unit next = 0x10000 + (unit.toNat - 0xD800) * 1024 + (next.toNat - 0xDC00) := by
  have hshift (n : Nat) : n <<< 10 = n * 1024 := by rw [Nat.shiftLeft_eq]
  unfold pairCodePoint
  rw [hshift]

/-- The units of a code point past the first plane pair up to it. -/
theorem codeUnits_pair (h : cp < 0x110000) (hp : 0x10000 ≤ cp) :
    ∃ unit next, codeUnits cp = [unit, next] ∧ IsHigh unit.toNat ∧ IsLow next.toNat ∧
      pairCodePoint unit next = cp := by
  have hmod : (cp - 0x10000) &&& 0x3FF = (cp - 0x10000) % 1024 :=
    Nat.and_two_pow_sub_one_eq_mod _ 10
  have hunit : (UInt16.ofNat (0xD800 + (cp - 0x10000) / 1024)).toNat =
      0xD800 + (cp - 0x10000) / 1024 := toNat_unit (by omega)
  have hnext : (UInt16.ofNat (0xDC00 + (cp - 0x10000) % 1024)).toNat =
      0xDC00 + (cp - 0x10000) % 1024 := toNat_unit (by omega)
  rw [codeUnits, if_neg (by omega), hmod, Nat.shiftRight_eq_div_pow]
  refine ⟨_, _, rfl, ?_, ?_, ?_⟩
  · rw [IsHigh, hunit]
    omega
  · rw [IsLow, hnext]
    omega
  · rw [pairCodePoint_eq, hunit, hnext]
    omega

/-- A pair is the units of its code point. -/
theorem codeUnits_pairCodePoint {unit next : UInt16} (hunit : IsHigh unit.toNat)
    (hnext : IsLow next.toNat) :
    codeUnits (pairCodePoint unit next) = [unit, next] ∧ 0x10000 ≤ pairCodePoint unit next ∧
      pairCodePoint unit next < 0x110000 := by
  rw [IsHigh] at hunit
  rw [IsLow] at hnext
  have hvalue := pairCodePoint_eq unit next
  have hp : 0x10000 ≤ pairCodePoint unit next := by omega
  have hlt : pairCodePoint unit next < 0x110000 := by omega
  refine ⟨?_, hp, hlt⟩
  obtain ⟨unit', next', hunits, hhigh, hlow, heq⟩ := codeUnits_pair hlt hp
  rw [pairCodePoint_eq, hvalue] at heq
  rw [IsHigh] at hhigh
  rw [IsLow] at hlow
  have hu : unit' = unit := UInt16.toNat_inj.mp (by omega)
  have hn : next' = next := UInt16.toNat_inj.mp (by omega)
  rw [hunits, hu, hn]

/-- The code points of units, those of a pair together. -/
def codePoints : List UInt16 → List Nat
  | [] => []
  | [unit] => [unit.toNat]
  | unit :: next :: text =>
    if isHighSurrogate unit && isLowSurrogate next then
      pairCodePoint unit next :: codePoints text
    else unit.toNat :: codePoints (next :: text)

theorem fromUtf16_eq (text : List UInt16) : fromUtf16 text = spell (codePoints text) := by
  fun_induction codePoints text with
  | case1 => rfl
  | case2 unit => exact (List.append_nil _).symm
  | case3 unit next text h ih => rw [fromUtf16, if_pos h, ih, spell_cons]
  | case4 unit next text h ih => rw [fromUtf16, if_neg h, ih, spell_cons]

theorem codeUnits_unit (unit : UInt16) : codeUnits unit.toNat = [unit] := by
  rw [codeUnits, if_pos unit.toNat_lt, UInt16.ofNat_toNat]

/-- Units are those of their code points. -/
theorem unitsOfAll_codePoints (text : List UInt16) : unitsOfAll (codePoints text) = text := by
  fun_induction codePoints text with
  | case1 => rfl
  | case2 unit => rw [unitsOfAll_cons, codeUnits_unit, unitsOfAll_nil, List.append_nil]
  | case3 unit next text h ih =>
    rw [Bool.and_eq_true, isHighSurrogate_iff, isLowSurrogate_iff] at h
    rw [unitsOfAll_cons, (codeUnits_pairCodePoint h.1 h.2).1, ih]
    rfl
  | case4 unit next text h ih =>
    rw [unitsOfAll_cons, codeUnits_unit, ih]
    rfl

/-- The first code point is a low surrogate only where the first unit is. -/
theorem isLow_head_codePoints {unit : UInt16} {text : List UInt16}
    (h : ∀ cp ∈ (codePoints (unit :: text)).head?, IsLow cp) : IsLow unit.toNat := by
  cases text with
  | nil => exact h _ rfl
  | cons next text =>
    rw [codePoints] at h
    split at h
    · next hpair =>
      rw [Bool.and_eq_true, isHighSurrogate_iff, isLowSurrogate_iff] at hpair
      have hlow := h _ rfl
      have hp := (codeUnits_pairCodePoint hpair.1 hpair.2).2.1
      rw [IsLow] at hlow
      omega
    · exact h _ rfl

theorem unpaired_codePoints (text : List UInt16) : Unpaired (codePoints text) := by
  fun_induction codePoints text with
  | case1 => exact unpaired_nil
  | case2 unit =>
    refine ⟨List.forall_mem_singleton.mpr ?_, .singleton _⟩
    have := unit.toNat_lt
    omega
  | case3 unit next text h ih =>
    rw [Bool.and_eq_true, isHighSurrogate_iff, isLowSurrogate_iff] at h
    obtain ⟨-, hp, hlt⟩ := codeUnits_pairCodePoint h.1 h.2
    refine ⟨List.forall_mem_cons.mpr ⟨hlt, ih.scalar⟩, List.isChain_cons.mpr ⟨?_, ih.apart⟩⟩
    rintro other - ⟨hhigh, -⟩
    rw [IsHigh] at hhigh
    omega
  | case4 unit next text h ih =>
    rw [Bool.and_eq_true, isHighSurrogate_iff, isLowSurrogate_iff] at h
    have hlt := unit.toNat_lt
    refine ⟨List.forall_mem_cons.mpr ⟨by omega, ih.scalar⟩, List.isChain_cons.mpr ⟨?_, ih.apart⟩⟩
    rintro other hother ⟨hhigh, hlow⟩
    have hnext : ∀ cp ∈ (codePoints (next :: text)).head?, IsLow cp := fun cp hcp => by
      rw [Option.mem_def] at hcp hother
      rw [hcp, Option.some.injEq] at hother
      exact hother ▸ hlow
    exact h ⟨hhigh, isLow_head_codePoints hnext⟩

/-- The units of code points that are apart pair up to them. -/
theorem codePoints_unitsOfAll (h : Unpaired cps) : codePoints (unitsOfAll cps) = cps := by
  induction cps with
  | nil => rfl
  | cons cp cps ih =>
    have hrest := ih h.tail
    by_cases hp : 0x10000 ≤ cp
    · obtain ⟨unit, next, hunits, hhigh, hlow, heq⟩ := codeUnits_pair h.head hp
      rw [unitsOfAll_cons, hunits, List.cons_append, List.singleton_append, codePoints, if_pos, heq,
        hrest]
      rw [Bool.and_eq_true, isHighSurrogate_iff, isLowSurrogate_iff]
      exact ⟨hhigh, hlow⟩
    · have hlt : cp < 0x10000 := Nat.lt_of_not_le hp
      have hunit := toNat_unit hlt
      rw [unitsOfAll_cons, codeUnits, if_pos hlt, List.singleton_append]
      cases cps with
      | nil => rw [unitsOfAll_nil, codePoints, hunit]
      | cons other cps =>
        obtain ⟨next, text, htext, hlow⟩ : ∃ next text, unitsOfAll (other :: cps) = next :: text ∧
            (IsLow next.toNat → IsLow other) := by
          by_cases hp' : 0x10000 ≤ other
          · obtain ⟨unit, next, hunits, hhigh, -, -⟩ := codeUnits_pair h.tail.head hp'
            refine ⟨unit, next :: unitsOfAll cps, by rw [unitsOfAll_cons, hunits]; rfl, ?_⟩
            intro hlow
            rw [IsHigh] at hhigh
            rw [IsLow] at hlow
            omega
          · have hlt' : other < 0x10000 := Nat.lt_of_not_le hp'
            refine ⟨_, _, by rw [unitsOfAll_cons, codeUnits, if_pos hlt']; rfl, ?_⟩
            rw [toNat_unit hlt']
            exact id
        rw [htext, codePoints, if_neg, ← htext, hrest, hunit]
        rw [Bool.and_eq_true, isHighSurrogate_iff, isLowSurrogate_iff, hunit]
        rintro ⟨hhigh, hnext⟩
        exact (List.isChain_cons_cons.mp h.apart).1 ⟨hhigh, hlow hnext⟩

end Kotatsu.Support
