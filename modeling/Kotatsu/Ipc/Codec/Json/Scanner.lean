import Kotatsu.Codec.Json.StringBuilder
import Kotatsu.Core.Json.Encoding

/-!
# The tokens of a JSON text

What the checker passes over between two brackets: spaces, words, numbers and strings.
A token is taken from the front of a text, and what is left is what a rule of the
grammar leaves; one that breaks the grammar stops where it does. A string is passed
eight bytes at a time, and ends where it ends byte by byte.
-/

namespace Kotatsu.Ipc.Codec.JsonCodec

open Relation
open Kotatsu.Core Kotatsu.Core.Json Kotatsu.Support Kotatsu.Codec.Json

/-! ## Scanning -/

/-- Why a text is not read on: it breaks the grammar, with this left of it, or bytes past its end
were read. -/
inductive Stop where
  | rejected (rest : Bytes)
  | pastEnd
deriving DecidableEq, Repr

abbrev Scan := Except Stop Bytes

def isSpace (c : UInt8) : Bool := c = 0x20 || c = 0x09 || c = 0x0D || c = 0x0A

/-- `skip_space`. -/
def skipSpace (s : Bytes) : Bytes := s.dropWhile isSpace

/-- `take`. -/
def take (c : UInt8) : Bytes → Option Bytes
  | [] => none
  | b :: s => if b = c then some s else none

/-- A `take` that has to succeed. -/
def expect (c : UInt8) (s : Bytes) : Scan :=
  match take c s with
  | some t => .ok t
  | none => .error (.rejected s)

/-- `take_word`. -/
def takeWord (word s : Bytes) : Option Bytes :=
  if word.isPrefixOf s then some (s.drop word.length) else none

/-- `is_digit`. -/
def isDigit (c : UInt8) : Bool := 0x30 ≤ c.toNat && c.toNat ≤ 0x39

/-- `is_hex`. -/
def isHex (c : UInt8) : Bool :=
  isDigit c || (0x61 ≤ c.toNat && c.toNat ≤ 0x66) || (0x41 ≤ c.toNat && c.toNat ≤ 0x46)

/-- `digits`. -/
def digits (s : Bytes) : Scan :=
  let t := s.dropWhile isDigit
  if t.length < s.length then .ok t else .error (.rejected t)

/-- `skip_plain`. -/
def skipPlain (s : Bytes) : Scan :=
  if 8 ≤ s.length then
    match loadWord s with
    | none => .error .pastEnd
    | some word =>
      if escapedBytes word ≠ 0 then .ok (s.drop (firstByteIndex (escapedBytes word)))
      else skipPlain (s.drop 8)
  else .ok s
termination_by s.length
decreasing_by
  rw [List.length_drop]
  omega

/-- The digits of a `\u`. -/
def takeHex : Nat → Bytes → Scan
  | 0, s => .ok s
  | _ + 1, [] => .error (.rejected [])
  | n + 1, c :: s => if isHex c then takeHex n s else .error (.rejected s)

/-- What stands after the backslash of an escape. -/
def takeEscape : Bytes → Scan
  | [] => .error (.rejected [])
  | e :: s =>
    if e = 0x75 then takeHex 4 s
    else if e ∈ ascii "\"\\/bfnrt" then .ok s
    else .error (.rejected s)

/-! ## Plain bytes -/

theorem isSpace_iff (c : UInt8) : isSpace c = true ↔ IsSpace c.toNat := by
  simp only [isSpace, IsSpace, Bool.or_eq_true, decide_eq_true_eq, ← UInt8.toNat_inj]
  simp only [UInt8.reduceToNat]
  tauto

theorem isDigit_iff (c : UInt8) : isDigit c = true ↔ IsDigit c.toNat := by
  simp only [isDigit, IsDigit, Bool.and_eq_true, decide_eq_true_eq]

theorem isHex_iff (c : UInt8) : isHex c = true ↔ IsHex c.toNat := by
  simp only [isHex, IsHex, Bool.or_eq_true, Bool.and_eq_true, decide_eq_true_eq, isDigit_iff]
  tauto

theorem isEscaped_iff (c : UInt8) : isEscaped c = false ↔ IsPlain c.toNat := by
  simp only [isEscaped, isControl, IsPlain, Bool.or_eq_false_iff, decide_eq_false_iff_not,
    ← UInt8.toNat_inj, Nat.not_lt]
  simp only [UInt8.reduceToNat, ne_eq]

theorem escapeLetter_iff (e : UInt8) : e ∈ ascii "\"\\/bfnrt" ↔ IsEscaped e.toNat := by
  have hbytes : ascii "\"\\/bfnrt" = [0x22, 0x5C, 0x2F, 0x62, 0x66, 0x6E, 0x72, 0x74] := by decide
  simp only [hbytes, List.mem_cons, List.not_mem_nil, or_false, IsEscaped, ← UInt8.toNat_inj]
  simp only [UInt8.reduceToNat]

/-- Eight bytes at a time, only plain bytes are passed, and none past the end is read. -/
theorem skipPlain_spec (s : Bytes) :
    ∃ front t, skipPlain s = .ok t ∧ s = front ++ t ∧ ∀ c ∈ front, isEscaped c = false := by
  induction hn : s.length using Nat.strong_induction_on generalizing s with
  | _ n ih =>
    subst hn
    rw [skipPlain]
    split
    case isFalse => exact ⟨[], s, rfl, rfl, List.forall_mem_nil _⟩
    case isTrue hlen =>
      have hword : (s.take 8).length = 8 := by
        rw [List.length_take]
        omega
      rw [loadWord, if_pos hlen]
      dsimp only
      rcases (escapedBytes_shows hword).firstByteIndex hword with
        ⟨hzero, hnone⟩ | ⟨hne, front, b, back, heq, hfront, -, hindex⟩
      · rw [if_neg (not_not.mpr hzero)]
        obtain ⟨front, t, ht, heq, hall⟩ := ih (s.drop 8).length
          (by rw [List.length_drop]; omega) (s.drop 8) rfl
        refine ⟨s.take 8 ++ front, t, ht, ?_, ?_⟩
        · rw [List.append_assoc, ← heq, List.take_append_drop]
        · intro c hc
          rcases List.mem_append.mp hc with hc | hc
          · exact hnone c hc
          · exact hall c hc
      · rw [if_pos hne, hindex]
        refine ⟨front, s.drop front.length, rfl, ?_, hfront⟩
        have hs : s = front ++ (b :: back ++ s.drop 8) := by
          conv_lhs => rw [← List.take_append_drop 8 s, heq]
          rw [List.append_assoc]
        conv_rhs => rw [hs, List.drop_left]
        exact hs

variable {s t : Bytes} {c : UInt8} {p : UInt8 → Bool}

theorem takeHex_length {n : Nat} (h : takeHex n s = .ok t) : t.length ≤ s.length := by
  induction n generalizing s with
  | zero => rw [← Except.ok.inj h]
  | succ n ih =>
    cases s with
    | nil => cases h
    | cons c s =>
      simp only [takeHex] at h
      split at h
      · have := ih h
        rw [List.length_cons]
        omega
      · cases h

theorem takeEscape_length (h : takeEscape s = .ok t) : t.length < s.length := by
  cases s with
  | nil => cases h
  | cons e s =>
    simp only [takeEscape] at h
    rw [List.length_cons]
    split at h
    · have := takeHex_length h
      omega
    · split at h
      · rw [← Except.ok.inj h]
        omega
      · cases h

/-! ## Strings -/

/-- `string`, after its opening quote. -/
def stringRest (s : Bytes) : Scan :=
  match _hplain : skipPlain s with
  | .error e => .error e
  | .ok [] => .error (.rejected [])
  | .ok (c :: t) =>
    if c = 0x22 then .ok t
    else if isControl c then .error (.rejected t)
    else if c ≠ 0x5C then stringRest t
    else
      match _hescape : takeEscape t with
      | .error e => .error e
      | .ok t => stringRest t
termination_by s.length
decreasing_by
  all_goals
    obtain ⟨front, t', ht', rfl, -⟩ := skipPlain_spec s
    rw [ht'] at _hplain
    obtain rfl := Except.ok.inj _hplain
    rw [List.length_append, List.length_cons]
  · omega
  · have := takeEscape_length _hescape
    omega

/-- `string`. -/
def string (s : Bytes) : Scan := do stringRest (← expect 0x22 s)

/-- `string`, byte by byte. -/
def stringRestBytes : Bytes → Scan
  | [] => .error (.rejected [])
  | c :: t =>
    if c = 0x22 then .ok t
    else if isControl c then .error (.rejected t)
    else if c ≠ 0x5C then stringRestBytes t
    else
      match _h : takeEscape t with
      | .error e => .error e
      | .ok t => stringRestBytes t
termination_by s => s.length
decreasing_by
  · rw [List.length_cons]
    omega
  · have := takeEscape_length _h
    rw [List.length_cons]
    omega

theorem stringRestBytes_plain {front : Bytes} (s : Bytes)
    (h : ∀ c ∈ front, isEscaped c = false) :
    stringRestBytes (front ++ s) = stringRestBytes s := by
  induction front with
  | nil => rfl
  | cons c front ih =>
    obtain ⟨hc, hfront⟩ := List.forall_mem_cons.mp h
    obtain ⟨hcontrol, hquote, hslash⟩ : isControl c = false ∧ c ≠ 0x22 ∧ c ≠ 0x5C := by
      simpa [isEscaped] using hc
    rw [List.cons_append, stringRestBytes, if_neg hquote, hcontrol, if_neg Bool.false_ne_true,
      if_pos hslash, ih hfront]

/-- Eight bytes at a time, a string ends, or breaks, where it does byte by byte. -/
theorem stringRest_eq (s : Bytes) : stringRest s = stringRestBytes s := by
  induction hn : s.length using Nat.strong_induction_on generalizing s with
  | _ n ih =>
    subst hn
    obtain ⟨front, t, ht, rfl, hfront⟩ := skipPlain_spec s
    rw [stringRestBytes_plain t hfront, stringRest]
    split
    case h_1 e he =>
      rw [ht] at he
      cases he
    case h_2 he =>
      obtain rfl := Except.ok.inj (ht.symm.trans he)
      rw [stringRestBytes]
    case h_3 c t he =>
      obtain rfl := Except.ok.inj (ht.symm.trans he)
      rw [List.length_append, List.length_cons] at ih
      rw [stringRestBytes]
      congr 2
      congr 1
      · exact ih _ (by omega) t rfl
      · split
        · rfl
        · next t' ht' =>
          have := takeEscape_length ht'
          exact ih _ (by omega) t' rfl

/-! ## Numbers -/

/-- The integer of a `number`. -/
def integer (s : Bytes) : Scan :=
  match take 0x30 s with
  | some t => .ok t
  | none => digits s

/-- The fraction of a `number`, if there is one. -/
def fraction (s : Bytes) : Scan :=
  match take 0x2E s with
  | some t => digits t
  | none => .ok s

/-- The exponent of a `number`, if there is one. -/
def exponent (s : Bytes) : Scan :=
  match (take 0x65 s).or (take 0x45 s) with
  | some t => digits ((take 0x2B t).getD ((take 0x2D t).getD t))
  | none => .ok s

/-- `number`. -/
def number (s : Bytes) : Scan := do
  exponent (← fraction (← integer ((take 0x2D s).getD s)))

/-! ## What the rules leave -/

theorem take_eq_some : take c s = some t ↔ s = c :: t := by
  cases s with
  | nil => simp [take]
  | cons b s =>
    simp only [take, Option.ite_none_right_eq_some, Option.some.injEq, List.cons.injEq]

theorem one_iff : One UInt8.toNat (· = c.toNat) s t ↔ s = c :: t := by
  constructor
  · rintro ⟨h⟩
    rw [UInt8.toNat_inj.mp h]
  · rintro rfl
    exact .intro rfl

theorem expect_iff : expect c s = .ok t ↔ One UInt8.toNat (· = c.toNat) s t := by
  rw [one_iff, ← take_eq_some, expect]
  split
  · next t' ht => rw [ht, Except.ok.injEq, Option.some.injEq]
  · next hnone => simp only [hnone, reduceCtorEq]

theorem word_iff {w s t : Bytes} : Word UInt8.toNat (w.map UInt8.toNat) s t ↔ s = w ++ t := by
  induction w generalizing s with
  | nil => exact Iff.rfl
  | cons c w ih =>
    constructor
    · rintro ⟨u, hone, hword⟩
      rw [one_iff.mp hone, ih.mp hword, List.cons_append]
    · rintro rfl
      exact ⟨w ++ t, one_iff.mpr rfl, ih.mpr rfl⟩

theorem takeWord_eq_some {w s t : Bytes} : takeWord w s = some t ↔ s = w ++ t := by
  rw [takeWord, Option.ite_none_right_eq_some, List.isPrefixOf_iff_prefix]
  constructor
  · rintro ⟨⟨t', rfl⟩, ht⟩
    rw [List.drop_left] at ht
    rw [Option.some.inj ht]
  · rintro rfl
    exact ⟨List.prefix_append _ _, by rw [List.drop_left]⟩

/-- What begins with no character of a class. -/
def Without (p : UInt8 → Bool) (s : Bytes) : Prop := ∀ c ∈ s.head?, p c = false

theorem without_dropWhile (p : UInt8 → Bool) (s : Bytes) : Without p (s.dropWhile p) := by
  intro c hc
  cases hs : s.dropWhile p with
  | nil => rw [hs] at hc; cases hc
  | cons b t =>
    rw [hs] at hc
    cases hc
    have hne : s.dropWhile p ≠ [] := by
      rw [hs]
      exact List.cons_ne_nil _ _
    have := List.head_dropWhile_not p hne
    simpa only [hs, List.head_cons] using this

/-- A class is passed over as a rule that repeats it does. -/
theorem star_dropWhile {q : Nat → Prop} (hpq : ∀ c, p c = true ↔ q c.toNat) (s : Bytes) :
    ReflTransGen (One UInt8.toNat q) s (s.dropWhile p) := by
  induction s with
  | nil => exact .refl
  | cons c s ih =>
    rw [List.dropWhile_cons]
    split
    case isTrue h => exact .head (.intro ((hpq c).mp h)) ih
    case isFalse => exact .refl

theorem star_eq_dropWhile {q : Nat → Prop} (hpq : ∀ c, p c = true ↔ q c.toNat)
    (h : ReflTransGen (One UInt8.toNat q) s t) (ht : Without p t) : t = s.dropWhile p := by
  induction h using ReflTransGen.head_induction_on with
  | refl =>
    cases t with
    | nil => rfl
    | cons c t => rw [List.dropWhile_cons_of_neg (by rw [ht c rfl]; exact Bool.false_ne_true)]
  | head hstep _ ih =>
    obtain ⟨hc⟩ := hstep
    rw [List.dropWhile_cons_of_pos ((hpq _).mpr hc)]
    exact ih

theorem space_skipSpace (s : Bytes) : Space UInt8.toNat s (skipSpace s) :=
  star_dropWhile isSpace_iff s

theorem skipSpace_of_space (h : Space UInt8.toNat s t) (ht : Without isSpace t) :
    skipSpace s = t := (star_eq_dropWhile isSpace_iff h ht).symm

theorem digits_sound (h : digits s = .ok t) : Digits UInt8.toNat s t := by
  simp only [digits] at h
  split at h
  case isFalse => cases h
  case isTrue hlt =>
    cases h
    cases s with
    | nil => exact absurd hlt (Nat.lt_irrefl _)
    | cons c s =>
      by_cases hc : isDigit c = true
      · rw [List.dropWhile_cons_of_pos hc]
        exact TransGen.head' (.intro ((isDigit_iff c).mp hc)) (star_dropWhile isDigit_iff s)
      · rw [List.dropWhile_cons_of_neg hc] at hlt
        exact absurd hlt (Nat.lt_irrefl _)

theorem digits_complete (h : Digits UInt8.toNat s t) (ht : Without isDigit t) :
    digits s = .ok t := by
  obtain rfl := star_eq_dropWhile isDigit_iff h.to_reflTransGen ht
  exact if_pos (Takes.one.plus h).2

/-- What goes on with a number. -/
def isNumeral (c : UInt8) : Bool := isDigit c || c = 0x2E || c = 0x65 || c = 0x45

theorem Without.mono {p q : UInt8 → Bool} (h : Without q s) (hpq : ∀ c, p c = true → q c = true) :
    Without p s := by
  intro c hc
  by_contra hp
  have hq := hpq c (Bool.not_eq_false _ ▸ hp)
  rw [h c hc] at hq
  cases hq

theorem bind_eq_ok {ε γ δ : Type} {x : Except ε γ} {f : γ → Except ε δ} {b : δ} :
    (x >>= f) = .ok b ↔ ∃ a, x = .ok a ∧ f a = .ok b := by
  cases x with
  | error e =>
    constructor
    · intro h
      cases h
    · rintro ⟨a, ⟨⟩, -⟩
  | ok a =>
    constructor
    · exact fun h => ⟨a, rfl, h⟩
    · rintro ⟨_, ⟨⟩, h⟩
      exact h

theorem take_eq_none : take c s = none ↔ Without (· = c) s := by
  cases s with
  | nil => simp [take, Without]
  | cons b s =>
    simp only [take, ite_eq_right_iff, reduceCtorEq, Without, List.head?_cons, Option.mem_some_iff,
      forall_eq', decide_eq_false_iff_not]

theorem one_of_take (h : take c s = some t) :
    One UInt8.toNat (· = c.toNat) s t := one_iff.mpr (take_eq_some.mp h)

theorem opt_take (c : UInt8) (s : Bytes) :
    ReflGen (One UInt8.toNat (· = c.toNat)) s ((take c s).getD s) := by
  cases h : take c s with
  | none => exact .refl
  | some t => exact .single (one_of_take h)

theorem integer_sound (h : integer s = .ok t) : Int UInt8.toNat s t := by
  unfold integer at h
  split at h
  case h_1 u hu =>
    cases h
    exact .inl (one_of_take hu)
  case h_2 hnone =>
    obtain ⟨u, ⟨hd⟩, hrest⟩ := TransGen.head'_iff.mp (digits_sound h)
    refine .inr ⟨u, .intro ?_, hrest⟩
    rename_i c
    have hne : c ≠ 0x30 := by
      simpa using take_eq_none.mp hnone c rfl
    have hne' : c.toNat ≠ 0x30 := fun h => hne (UInt8.toNat_inj.mp h)
    unfold IsLeading
    unfold IsDigit at hd
    omega

theorem fraction_sound (h : fraction s = .ok t) : ReflGen (Frac UInt8.toNat) s t := by
  unfold fraction at h
  split at h
  case h_1 u hu => exact .single ⟨u, one_of_take hu, digits_sound h⟩
  case h_2 =>
    cases h
    exact .refl

theorem exponent_sound (h : exponent s = .ok t) : ReflGen (Exp UInt8.toNat) s t := by
  unfold exponent at h
  split at h
  case h_2 =>
    cases h
    exact .refl
  case h_1 u hu =>
    have he : One UInt8.toNat (fun n => n = 0x65 ∨ n = 0x45) s u := by
      rcases Option.or_eq_some_iff.mp hu with hu | ⟨-, hu⟩
      · obtain rfl := take_eq_some.mp hu
        exact .intro (.inl rfl)
      · obtain rfl := take_eq_some.mp hu
        exact .intro (.inr rfl)
    refine .single ⟨u, he, _, ?_, digits_sound h⟩
    cases hplus : take 0x2B u with
    | some v =>
      obtain rfl := take_eq_some.mp hplus
      exact .single (.intro (.inl rfl))
    | none =>
      cases hminus : take 0x2D u with
      | some v =>
        obtain rfl := take_eq_some.mp hminus
        exact .single (.intro (.inr rfl))
      | none => exact .refl

theorem number_sound (h : number s = .ok t) : Number UInt8.toNat s t := by
  obtain ⟨a, ha, h⟩ := bind_eq_ok.mp h
  obtain ⟨b, hb, h⟩ := bind_eq_ok.mp h
  exact ⟨_, opt_take 0x2D s, a, integer_sound ha, b, fraction_sound hb, exponent_sound h⟩

/-- An optional sign is taken when what follows it cannot be one. -/
theorem take_of_opt (h : ReflGen (One UInt8.toNat (· = c.toNat)) s t) (ht : Without (· = c) t) :
    (take c s).getD s = t := by
  cases h with
  | refl => rw [take_eq_none.mpr ht, Option.getD_none]
  | single h => rw [take_eq_some.mpr (one_iff.mp h), Option.getD_some]

/-- What follows a number goes on with no part of it. -/
theorem Without.numeral (h : Without isNumeral t) :
    Without isDigit t ∧ take 0x2E t = none ∧ take 0x65 t = none ∧ take 0x45 t = none := by
  have hsome : ∀ x : UInt8, isNumeral x = true → take x t = none := fun x hx =>
    take_eq_none.mpr (h.mono fun c hc => by rwa [of_decide_eq_true hc])
  refine ⟨h.mono fun c hc => ?_, hsome _ rfl, hsome _ rfl, hsome _ rfl⟩
  simp only [isNumeral, hc, Bool.true_or]

theorem without_cons (s : Bytes) (h : p c = false) : Without p (c :: s) := by
  rintro _ ⟨⟩
  exact h

theorem exponent_complete (h : ReflGen (Exp UInt8.toNat) s t) (ht : Without isNumeral t) :
    exponent s = .ok t ∧ Without isDigit s ∧ take 0x2E s = none := by
  obtain ⟨hdigit, hdot, he, hE⟩ := ht.numeral
  cases h with
  | refl => exact ⟨by rw [exponent, he, hE]; rfl, hdigit, hdot⟩
  | single h =>
    obtain ⟨u, ⟨hc⟩, v, hsign, hdigits⟩ := h
    rename_i c
    have hrest : digits ((take 0x2B u).getD ((take 0x2D u).getD u)) = .ok t := by
      have hv : ∃ d w, v = d :: w ∧ IsDigit d.toNat := by
        obtain ⟨w, ⟨hd⟩, -⟩ := TransGen.head'_iff.mp hdigits
        exact ⟨_, _, rfl, hd⟩
      obtain ⟨d, w, rfl, hd⟩ := hv
      have hdne : ∀ x : UInt8, x.toNat < 0x30 → d ≠ x := by
        rintro x hx rfl
        unfold IsDigit at hd
        omega
      cases hsign with
      | refl =>
        rw [take_eq_none.mpr (without_cons w (decide_eq_false (hdne 0x2B (by decide)))),
          take_eq_none.mpr (without_cons w (decide_eq_false (hdne 0x2D (by decide))))]
        exact digits_complete hdigits hdigit
      | single hsign =>
        obtain ⟨hb⟩ := hsign
        rename_i b
        rcases hb with hb | hb
        · obtain rfl : b = 0x2B := UInt8.toNat_inj.mp hb
          exact digits_complete hdigits hdigit
        · obtain rfl : b = 0x2D := UInt8.toNat_inj.mp hb
          exact digits_complete hdigits hdigit
    rcases hc with hc | hc
    · obtain rfl : c = 0x65 := UInt8.toNat_inj.mp hc
      exact ⟨hrest, without_cons u rfl, rfl⟩
    · obtain rfl : c = 0x45 := UInt8.toNat_inj.mp hc
      exact ⟨hrest, without_cons u rfl, rfl⟩

theorem fraction_complete (h : ReflGen (Frac UInt8.toNat) s t) (ht : Without isDigit t)
    (hdot : take 0x2E t = none) : fraction s = .ok t ∧ Without isDigit s := by
  cases h with
  | refl => exact ⟨by rw [fraction, hdot], ht⟩
  | single h =>
    obtain ⟨u, hone, hdigits⟩ := h
    obtain rfl := (one_iff (c := 0x2E)).mp hone
    exact ⟨digits_complete hdigits ht, without_cons u rfl⟩

theorem integer_complete (h : Int UInt8.toNat s t) (ht : Without isDigit t) :
    integer s = .ok t ∧ Without (· = 0x2D) s := by
  rcases h with h | ⟨u, ⟨hc⟩, hrest⟩
  · obtain rfl := (one_iff (c := 0x30)).mp h
    exact ⟨rfl, without_cons t rfl⟩
  · rename_i c
    have hne : ∀ x : UInt8, x.toNat < 0x31 → c ≠ x := by
      rintro x hx rfl
      unfold IsLeading at hc
      omega
    have hdigit : IsDigit c.toNat := by
      unfold IsLeading at hc
      unfold IsDigit
      omega
    refine ⟨?_, without_cons u (decide_eq_false (hne 0x2D (by decide)))⟩
    rw [integer, take_eq_none.mpr (without_cons u (decide_eq_false (hne 0x30 (by decide))))]
    exact digits_complete (TransGen.head' (.intro hdigit) hrest) ht

theorem number_complete (h : Number UInt8.toNat s t) (ht : Without isNumeral t) :
    number s = .ok t := by
  obtain ⟨a, hsign, b, hint, c, hfrac, hexp⟩ := h
  obtain ⟨he, hc, hcdot⟩ := exponent_complete hexp ht
  obtain ⟨hf, hb⟩ := fraction_complete hfrac hc hcdot
  obtain ⟨hi, ha⟩ := integer_complete hint hb
  rw [number, take_of_opt (c := 0x2D) hsign ha]
  exact bind_eq_ok.mpr ⟨b, hi, bind_eq_ok.mpr ⟨c, hf, he⟩⟩

/-! ## Strings, by the grammar -/

theorem takeHex_iff {n : Nat} :
    takeHex n s = .ok t ↔ (List.replicate n (One UInt8.toNat IsHex)).foldr Comp Eq s t := by
  induction n generalizing s with
  | zero => exact ⟨Except.ok.inj, congrArg _⟩
  | succ n ih =>
    cases s with
    | nil =>
      constructor
      · intro h
        cases h
      · rintro ⟨u, ⟨⟩, -⟩
    | cons c s =>
      simp only [takeHex, List.replicate_succ, List.foldr_cons]
      constructor
      · intro h
        split at h
        · next hc => exact ⟨s, .intro ((isHex_iff c).mp hc), ih.mp h⟩
        · cases h
      · rintro ⟨u, ⟨hc⟩, hrest⟩
        rw [if_pos ((isHex_iff c).mpr hc)]
        exact ih.mpr hrest

theorem takeEscape_iff : takeEscape s = .ok t ↔ Escape UInt8.toNat (0x5C :: s) t := by
  have hhex : Comp (One UInt8.toNat IsHex) (Comp (One UInt8.toNat IsHex)
      (Comp (One UInt8.toNat IsHex) (One UInt8.toNat IsHex))) =
      (List.replicate 4 (One UInt8.toNat IsHex)).foldr Comp Eq := by
    simp only [List.replicate_succ, List.replicate_zero, List.foldr_cons, List.foldr_nil]
    rw [comp_eq]
  have hescape : Escape UInt8.toNat (0x5C :: s) t ↔ One UInt8.toNat IsEscaped s t ∨
      ∃ u, s = 0x75 :: u ∧ takeHex 4 u = .ok t := by
    constructor
    · rintro ⟨_, ⟨-⟩, hletter | ⟨u, hu, hrest⟩⟩
      · exact .inl hletter
      · rw [hhex] at hrest
        exact .inr ⟨u, (one_iff (c := 0x75)).mp hu, takeHex_iff.mpr hrest⟩
    · rintro (hletter | ⟨u, rfl, hrest⟩)
      · exact ⟨s, .intro rfl, .inl hletter⟩
      · refine ⟨0x75 :: u, .intro rfl, .inr ⟨u, .intro rfl, ?_⟩⟩
        rw [hhex]
        exact takeHex_iff.mp hrest
  rw [hescape]
  cases s with
  | nil =>
    constructor
    · intro h
      cases h
    · rintro (hletter | ⟨u, ⟨⟩, -⟩)
      cases hletter
  | cons e s =>
    simp only [takeEscape]
    split
    case isTrue hu =>
      subst hu
      constructor
      · exact fun h => .inr ⟨s, rfl, h⟩
      · rintro (hletter | ⟨u, ⟨⟩, h⟩)
        · obtain ⟨hletter⟩ := hletter
          exact absurd ((escapeLetter_iff 0x75).mpr hletter) (by decide)
        · exact h
    case isFalse hu =>
      constructor
      · intro h
        split at h
        · next he =>
          cases h
          exact .inl (.intro ((escapeLetter_iff e).mp he))
        · cases h
      · rintro (hletter | ⟨u, ⟨⟩, -⟩)
        · obtain ⟨hletter⟩ := hletter
          rw [if_pos ((escapeLetter_iff e).mpr hletter)]
        · exact absurd rfl hu

theorem stringRestBytes_sound (h : stringRestBytes s = .ok t) :
    Comp (Chars UInt8.toNat) (One UInt8.toNat (· = 0x22)) s t := by
  induction hn : s.length using Nat.strong_induction_on generalizing s with
  | _ n ih =>
    subst hn
    cases s with
    | nil =>
      rw [stringRestBytes] at h
      cases h
    | cons c s =>
      rw [stringRestBytes] at h
      split at h
      case isTrue hquote =>
        subst hquote
        cases h
        exact ⟨_, .refl, .intro rfl⟩
      case isFalse hquote =>
        split at h
        case isTrue => cases h
        case isFalse hcontrol =>
          split at h
          case isTrue hslash =>
            have hplain : isEscaped c = false := by simp [isEscaped, hquote, hslash, hcontrol]
            obtain ⟨u, hu, hend⟩ := ih s.length (Nat.lt_succ_self _) h rfl
            exact ⟨u, .head (.inl (.intro ((isEscaped_iff c).mp hplain))) hu, hend⟩
          case isFalse hslash =>
            obtain rfl : c = 0x5C := not_not.mp hslash
            split at h
            case h_1 => cases h
            case h_2 v hv =>
              have hlen := takeEscape_length hv
              obtain ⟨u, hu, hend⟩ := ih v.length
                (by rw [List.length_cons]; omega) h rfl
              exact ⟨u, .head (.inr (takeEscape_iff.mp hv)) hu, hend⟩

theorem stringRestBytes_complete {s u t : Bytes} (h : Chars UInt8.toNat s u)
    (hend : One UInt8.toNat (· = 0x22) u t) : stringRestBytes s = .ok t := by
  induction h using ReflTransGen.head_induction_on with
  | refl =>
    obtain rfl := (one_iff (c := 0x22)).mp hend
    rw [stringRestBytes, if_pos rfl]
  | head hstep _ ih =>
    rcases hstep with hplain | hescape
    · obtain ⟨hplain⟩ := hplain
      refine (stringRestBytes_plain _ (List.forall_mem_singleton.mpr ?_)).trans ih
      exact (isEscaped_iff _).mpr hplain
    · obtain ⟨v, hslash, -⟩ := id hescape
      obtain rfl := (one_iff (c := 0x5C)).mp hslash
      have htaken := takeEscape_iff.mpr hescape
      rw [stringRestBytes, if_neg (by decide), if_neg (by decide), if_neg (by decide)]
      split
      case h_1 e he =>
        rw [htaken] at he
        cases he
      case h_2 w hw =>
        rw [htaken] at hw
        cases hw
        exact ih

/-- A string is passed over exactly where the grammar has one. -/
theorem string_iff : string s = .ok t ↔ Str UInt8.toNat s t := by
  rw [string, bind_eq_ok]
  constructor
  · rintro ⟨u, hu, h⟩
    rw [stringRest_eq] at h
    exact ⟨u, expect_iff.mp hu, stringRestBytes_sound h⟩
  · rintro ⟨u, hu, v, hchars, hend⟩
    refine ⟨u, (expect_iff (c := 0x22)).mpr hu, ?_⟩
    rw [stringRest_eq]
    exact stringRestBytes_complete hchars hend

end Kotatsu.Ipc.Codec.JsonCodec
