import Kotatsu.Ipc.Codec.Json.Scanner

/-!
# Reading the front of a text

A reader of text that may stop anywhere keeps its position, and reads no byte without
asking whether the text has ended. What it reads depends on what is left from there, so
each of its functions is one of that: a string, brackets counted until they close, a
scalar up to what delimits it. What they find in a text they find in every longer one,
and a value of the grammar is found as it is.
-/

namespace Kotatsu.Ipc.Codec.JsonCodec

open Relation
open Kotatsu.Core Kotatsu.Core.Json

/-- `PrefixReader`. -/
structure PrefixReader where
  text : Bytes
  position : Nat := 0

namespace PrefixReader

/-- `ended`. -/
def ended (r : PrefixReader) : Bool := r.text.length ≤ r.position

/-- `text[at]`. -/
def front (r : PrefixReader) : Except Stop UInt8 :=
  match r.text[r.position]? with
  | some c => .ok c
  | none => .error .pastEnd

/-- `++at`. -/
def advance (r : PrefixReader) : PrefixReader := { r with position := r.position + 1 }

/-- `text.substr(start, at - start)`. -/
def since (start : Nat) (r : PrefixReader) : Except Stop Bytes :=
  if start ≤ r.text.length ∧ start ≤ r.position then
    .ok (substr r.text start (r.position - start))
  else .error .pastEnd

/-- What is left of the text. -/
def rest (r : PrefixReader) : Bytes := r.text.drop r.position

/-- The reader where this is left. -/
def upto (r : PrefixReader) (s : Bytes) : PrefixReader :=
  { r with position := r.text.length - s.length }

theorem ended_iff {r : PrefixReader} : r.ended = true ↔ r.rest = [] := by
  simp only [ended, rest, decide_eq_true_eq, List.drop_eq_nil_iff]

theorem length_advance {r : PrefixReader} (h : ¬r.ended = true) :
    r.advance.text.length - r.advance.position < r.text.length - r.position := by
  simp only [ended, decide_eq_true_eq] at h
  simp only [advance]
  omega

/-- `skip_space`. -/
def skipSpace (r : PrefixReader) : Except Stop PrefixReader :=
  if _h : r.ended then .ok r
  else do
    if isSpace (← r.front) then r.advance.skipSpace else return r
termination_by r.text.length - r.position
decreasing_by exact length_advance _h

/-- `take`, where it moves on. -/
def take (c : UInt8) (r : PrefixReader) : Except Stop (Option PrefixReader) := do
  let r ← r.skipSpace
  if r.ended then return none
  if (← r.front) ≠ c then return none
  return some r.advance

/-- The loop of `string`. -/
def closeString (r : PrefixReader) : Except Stop (Option PrefixReader) :=
  if _h : r.ended then .ok none
  else do
    let c ← r.front
    if c = 0x5C then r.advance.advance.closeString
    else if c = 0x22 then return some r.advance
    else r.advance.closeString
termination_by r.text.length - r.position
decreasing_by
  · have := length_advance _h
    simp only [advance] at this ⊢
    omega
  · exact length_advance _h

/-- `string`. -/
def string (r : PrefixReader) : Except Stop (Option (Bytes × PrefixReader)) := do
  let r ← r.skipSpace
  if r.ended then return none
  if (← r.front) ≠ 0x22 then return none
  match ← r.advance.closeString with
  | none => return none
  | some r' => return some (← r'.since r.position, r')

end PrefixReader

/-! ## What is left -/

/-- What is left after the string whose content this begins with. -/
def afterString : Bytes → Option Bytes
  | [] => none
  | c :: s =>
    if c = 0x5C then
      match s with
      | [] => none
      | _ :: s => afterString s
    else if c = 0x22 then some s
    else afterString s

theorem afterString_escape (s : Bytes) (c : UInt8) :
    afterString (0x5C :: c :: s) = afterString s := rfl

theorem afterString_cons {c : UInt8} (h : c ≠ 0x5C) (s : Bytes) :
    afterString (c :: s) = if c = 0x22 then some s else afterString s := by
  rw [afterString.eq_def]
  dsimp only
  rw [if_neg h]

/-- What is taken from the front of a text, up to where this is left. -/
def taken (s t : Bytes) : Bytes := s.take (s.length - t.length)

/-- What `string` reads of what is left, and what it leaves. -/
def readString (s : Bytes) : Option (Bytes × Bytes) :=
  match skipSpace s with
  | [] => none
  | c :: u => if c = 0x22 then (afterString u).map fun t => (taken (c :: u) t, t) else none

/-- What `take` leaves. -/
def readByte (c : UInt8) (s : Bytes) : Option Bytes :=
  match skipSpace s with
  | [] => none
  | b :: t => if b = c then some t else none

namespace PrefixReader

variable {r : PrefixReader} {c : UInt8} {s t : Bytes}

theorem front_of_rest (h : r.rest = c :: s) : r.front = .ok c ∧ r.advance.rest = s ∧
    r.position < r.text.length ∧ ¬r.ended = true := by
  have hget : r.text[r.position]? = some c := by
    rw [← List.head?_drop]
    exact congrArg List.head? h
  have hdrop : r.text.drop (r.position + 1) = s := by
    rw [← List.tail_drop]
    exact congrArg List.tail h
  refine ⟨?_, hdrop, List.getElem?_eq_some_iff.mp hget |>.1, ?_⟩
  · rw [front, hget]
  · rw [ended_iff, h]
    exact List.cons_ne_nil _ _

theorem position_of_rest (h : r.rest = s) (hne : s ≠ []) :
    r.position = r.text.length - s.length := by
  subst h
  have hlen : r.rest.length = r.text.length - r.position := List.length_drop
  have := List.length_pos_iff.mpr hne
  omega

theorem upto_rest (h : s <:+ r.text) : (r.upto s).rest = s :=
  (List.suffix_iff_eq_drop.mp h).symm

theorem rest_suffix : r.rest <:+ r.text := List.drop_suffix _ _

theorem advance_eq_upto (h : r.rest = c :: s) : r.advance = r.upto s := by
  have hpos := position_of_rest h (List.cons_ne_nil _ _)
  have hle : (c :: s).length ≤ r.text.length := h ▸ rest_suffix.length_le
  rw [List.length_cons] at hpos hle
  simp only [advance, upto]
  congr 1
  omega

theorem skipSpace_eq (r : PrefixReader) : ∃ r', r.skipSpace = .ok r' ∧ r'.text = r.text ∧
    r'.rest = JsonCodec.skipSpace r.rest := by
  induction hn : r.rest generalizing r with
  | nil =>
    rw [skipSpace, dif_pos (ended_iff.mpr hn)]
    exact ⟨r, rfl, rfl, hn⟩
  | cons c s ih =>
    obtain ⟨hfront, hrest, -, hended⟩ := front_of_rest hn
    rw [skipSpace, dif_neg hended, hfront]
    simp only [bind, Except.bind, pure, Except.pure]
    cases hspace : isSpace c with
    | true =>
      obtain ⟨r', hr', htext, hleft⟩ := ih r.advance hrest
      refine ⟨r', by simpa only [if_true] using hr', htext, ?_⟩
      rw [hleft, JsonCodec.skipSpace, JsonCodec.skipSpace, List.dropWhile_cons_of_pos hspace]
    | false =>
      refine ⟨r, by simp only [Bool.false_eq_true, if_false], rfl, ?_⟩
      rw [hn, JsonCodec.skipSpace,
        List.dropWhile_cons_of_neg (by rw [hspace]; exact Bool.false_ne_true)]

theorem take_eq (c : UInt8) (r : PrefixReader) :
    r.take c = .ok ((readByte c r.rest).map r.upto) := by
  obtain ⟨r', hr', htext, hrest⟩ := r.skipSpace_eq
  have hupto : r'.upto = r.upto := by
    funext s
    rw [upto, upto, htext]
  rw [take, hr']
  simp only [bind, Except.bind, pure, Except.pure]
  rw [readByte, ← hrest]
  cases hn : r'.rest with
  | nil => simp only [ended_iff.mpr hn, if_true, Option.map_none]
  | cons b t =>
    obtain ⟨hfront, -, -, hended⟩ := front_of_rest hn
    simp only [hended, Bool.false_eq_true, if_false, hfront]
    by_cases hb : b = c
    · simp only [hb, ne_eq, not_true_eq_false, if_false, if_true, Option.map_some,
        advance_eq_upto hn, hupto]
    · simp only [hb, ne_eq, not_false_eq_true, if_true, if_false, Option.map_none]

theorem afterString_suffix {s t : Bytes} (h : afterString s = some t) : t <:+ s := by
  induction hn : s.length using Nat.strong_induction_on generalizing s with
  | _ n ih =>
    subst hn
    match s, h with
    | c :: s, h =>
      by_cases hc : c = 0x5C
      · subst hc
        match s, h with
        | d :: s, h =>
          rw [afterString_escape] at h
          have hsuffix := ih s.length (by simp only [List.length_cons]; omega) h rfl
          exact (hsuffix.trans (List.suffix_cons d s)).trans (List.suffix_cons _ _)
      · rw [afterString_cons hc] at h
        split at h
        case isTrue =>
          cases h
          exact List.suffix_cons c _
        case isFalse =>
          exact (ih s.length (Nat.lt_succ_self _) h rfl).trans (List.suffix_cons c s)

theorem closeString_eq (r : PrefixReader) :
    r.closeString = .ok ((afterString r.rest).map r.upto) := by
  induction hn : r.rest.length using Nat.strong_induction_on generalizing r with
  | _ n ih =>
    subst hn
    cases hn : r.rest with
    | nil =>
      rw [closeString, dif_pos (ended_iff.mpr hn)]
      rfl
    | cons c s =>
      obtain ⟨hfront, hrest, -, hended⟩ := front_of_rest hn
      rw [closeString, dif_neg hended, hfront]
      simp only [bind, Except.bind, pure, Except.pure]
      split
      case isTrue hc =>
        subst hc
        have hskip : r.advance.advance.rest = s.drop 1 := by
          rw [← hrest, rest, rest, List.drop_drop]
          rfl
        have hlen : r.advance.advance.rest.length < r.rest.length := by
          rw [hskip, hn, List.length_drop, List.length_cons]
          omega
        rw [ih _ (hn ▸ hlen) r.advance.advance rfl, hskip]
        cases s with
        | nil => rfl
        | cons d s => rfl
      case isFalse hc =>
        rw [afterString_cons hc]
        split
        case isTrue => rw [Option.map_some, advance_eq_upto hn]
        case isFalse =>
          rw [ih _ (by rw [hrest, hn]; exact Nat.lt_succ_self _) r.advance rfl, hrest]
          rfl

theorem since_eq (r' : PrefixReader) (htext : r'.text = r.text) (hr : r.rest = s) (hne : s ≠ [])
    (ht : t <:+ s) (hr' : r' = r.upto t) : r'.since r.position = .ok (taken s t) := by
  have hs : s <:+ r.text := hr ▸ rest_suffix
  have hpos := position_of_rest hr hne
  have hle := ht.length_le
  have hle' := hs.length_le
  have hposition : r'.position = r.text.length - t.length := by rw [hr', upto]
  have hsub : r.text.length - t.length - r.position = s.length - t.length := by omega
  rw [since, if_pos (by rw [htext, hposition]; omega), htext, hposition, hsub, substr, taken]
  rw [← hr, rest]

theorem string_eq (r : PrefixReader) : r.string =
    .ok ((readString r.rest).map fun (v, t) => (v, r.upto t)) := by
  obtain ⟨r', hr', htext, hrest⟩ := r.skipSpace_eq
  have hupto : r'.upto = r.upto := by
    funext s
    rw [upto, upto, htext]
  rw [string, hr']
  simp only [bind, Except.bind, pure, Except.pure]
  rw [readString, ← hrest]
  cases hn : r'.rest with
  | nil => simp only [ended_iff.mpr hn, if_true, Option.map_none]
  | cons c u =>
    obtain ⟨hfront, hleft, -, hended⟩ := front_of_rest hn
    simp only [hended, Bool.false_eq_true, if_false, hfront]
    by_cases hc : c = 0x22
    · subst hc
      simp only [ne_eq, not_true_eq_false, if_false, if_true, closeString_eq, hleft]
      cases hafter : afterString u with
      | none => rfl
      | some t =>
        have hsince := since_eq (r := r') (r'.advance.upto t) rfl hn (List.cons_ne_nil _ _)
          ((afterString_suffix hafter).trans (List.suffix_cons _ u)) rfl
        simp only [Option.map_some, hsince]
        rw [← hupto]
        rfl
    · simp only [hc, ne_eq, not_false_eq_true, if_true, if_false, Option.map_none]

theorem readString_suffix {s t v : Bytes} (h : readString s = some (v, t)) :
    t <:+ s ∧ t.length < s.length := by
  have hspace : JsonCodec.skipSpace s <:+ s := List.dropWhile_suffix _
  rw [readString] at h
  split at h
  case h_1 => cases h
  case h_2 c u hu =>
    split at h
    case isTrue =>
      obtain ⟨t', ht', h⟩ := Option.map_eq_some_iff.mp h
      cases h
      have hsuffix := afterString_suffix ht'
      rw [hu] at hspace
      refine ⟨(hsuffix.trans (List.suffix_cons c u)).trans hspace, ?_⟩
      have := hspace.length_le
      have := hsuffix.length_le
      rw [List.length_cons] at *
      omega
    case isFalse => cases h

/-- A string that is read moves the reader on. -/
theorem string_position {r r' : PrefixReader} {v : Bytes} (h : r.string = .ok (some (v, r'))) :
    r'.text.length - r'.position < r.text.length - r.position := by
  rw [string_eq, Except.ok.injEq] at h
  obtain ⟨⟨w, t⟩, ht, heq⟩ := Option.map_eq_some_iff.mp h
  cases heq
  obtain ⟨-, hlt⟩ := readString_suffix ht
  have hlen : r.rest.length = r.text.length - r.position := List.length_drop
  simp only [upto]
  omega

/-- The loop of `value` that counts brackets. -/
def closeBrackets (depth : Int) (r : PrefixReader) : Except Stop (Option PrefixReader) :=
  if _h : r.ended then .ok none
  else
    match r.front with
    | .error e => .error e
    | .ok c =>
      if c = 0x22 then
        match _hstring : r.string with
        | .error e => .error e
        | .ok none => .ok none
        | .ok (some (_, r')) => r'.closeBrackets depth
      else if c = 0x7B ∨ c = 0x5B then r.advance.closeBrackets (depth + 1)
      else if (c = 0x7D ∨ c = 0x5D) ∧ depth - 1 = 0 then .ok (some r.advance)
      else if c = 0x7D ∨ c = 0x5D then r.advance.closeBrackets (depth - 1)
      else r.advance.closeBrackets depth
termination_by r.text.length - r.position
decreasing_by
  · exact string_position _hstring
  all_goals exact length_advance _h

/-- What delimits a scalar. -/
def isDelimiter (c : UInt8) : Bool := c ∈ ascii ",\x7d] \t\r\n"

/-- The loop of `value` that passes over a scalar. -/
def scanScalar (r : PrefixReader) : Except Stop PrefixReader :=
  if _h : r.ended then .ok r
  else do
    if isDelimiter (← r.front) then return r else r.advance.scanScalar
termination_by r.text.length - r.position
decreasing_by exact length_advance _h

/-- `value`. -/
def value (r : PrefixReader) : Except Stop (Option (Bytes × PrefixReader)) := do
  let r ← r.skipSpace
  if r.ended then return none
  let c ← r.front
  if c = 0x22 then r.string
  else if c = 0x7B ∨ c = 0x5B then
    match ← r.closeBrackets 0 with
    | none => return none
    | some r' => return some (← r'.since r.position, r')
  else
    let r' ← r.scanScalar
    if r'.ended then return none
    return some (← r'.since r.position, r')

end PrefixReader

open PrefixReader (isDelimiter readString_suffix)

/-- What is left after the bracket that closes all. -/
def afterBrackets (depth : Int) : Bytes → Option Bytes
  | [] => none
  | c :: s =>
    if c = 0x22 then
      match _hstring : readString (c :: s) with
      | none => none
      | some (_, t) => afterBrackets depth t
    else if c = 0x7B ∨ c = 0x5B then afterBrackets (depth + 1) s
    else if (c = 0x7D ∨ c = 0x5D) ∧ depth - 1 = 0 then some s
    else if c = 0x7D ∨ c = 0x5D then afterBrackets (depth - 1) s
    else afterBrackets depth s
termination_by s => s.length
decreasing_by
  · exact (readString_suffix _hstring).2
  all_goals exact Nat.lt_succ_self _

/-- What is left at the delimiter of a scalar. -/
def afterScalar (s : Bytes) : Bytes := s.dropWhile fun c => !isDelimiter c

/-- What `value` reads of what is left, and what it leaves. -/
def readValue (s : Bytes) : Option (Bytes × Bytes) :=
  match skipSpace s with
  | [] => none
  | c :: u =>
    if c = 0x22 then readString (c :: u)
    else if c = 0x7B ∨ c = 0x5B then
      (afterBrackets 0 (c :: u)).map fun t => (taken (c :: u) t, t)
    else if afterScalar (c :: u) = [] then none
    else some (taken (c :: u) (afterScalar (c :: u)), afterScalar (c :: u))

namespace PrefixReader

variable {r : PrefixReader} {c : UInt8} {s t : Bytes}

theorem afterBrackets_suffix {depth : Int} (h : afterBrackets depth s = some t) : t <:+ s := by
  induction hn : s.length using Nat.strong_induction_on generalizing s depth with
  | _ n ih =>
    subst hn
    cases s with
    | nil =>
      rw [afterBrackets] at h
      cases h
    | cons c s =>
      have hcons := List.suffix_cons c s
      rw [afterBrackets] at h
      split at h
      case isTrue =>
        split at h
        case h_1 => cases h
        case h_2 v u hu =>
          obtain ⟨hsuffix, hlt⟩ := readString_suffix hu
          exact (ih _ hlt h rfl).trans hsuffix
      case isFalse =>
        split at h
        case isTrue => exact (ih _ (Nat.lt_succ_self _) h rfl).trans hcons
        case isFalse =>
          split at h
          case isTrue =>
            cases h
            exact hcons
          case isFalse =>
            split at h
            case isTrue => exact (ih _ (Nat.lt_succ_self _) h rfl).trans hcons
            case isFalse => exact (ih _ (Nat.lt_succ_self _) h rfl).trans hcons

theorem closeBrackets_eq (depth : Int) (r : PrefixReader) :
    r.closeBrackets depth = .ok ((afterBrackets depth r.rest).map r.upto) := by
  induction hn : r.rest.length using Nat.strong_induction_on generalizing r depth with
  | _ n ih =>
    subst hn
    cases hn : r.rest with
    | nil =>
      rw [closeBrackets, dif_pos (ended_iff.mpr hn), afterBrackets]
      rfl
    | cons c s =>
      obtain ⟨hfront, hrest, -, hended⟩ := front_of_rest hn
      have hlt : r.advance.rest.length < r.rest.length := by
        rw [hrest, hn]
        exact Nat.lt_succ_self _
      have hadvance := fun depth => ih _ hlt depth r.advance rfl
      simp only [hrest] at hadvance
      rw [closeBrackets, dif_neg hended, hfront, afterBrackets]
      dsimp only
      split
      case isTrue hc =>
        have hstring := r.string_eq
        rw [hn] at hstring
        split
        case h_1 e he =>
          rw [hstring] at he
          cases he
        case h_2 hnone =>
          rw [hstring, Except.ok.injEq, Option.map_eq_none_iff] at hnone
          split
          case h_1 => rfl
          case h_2 hsome =>
            rw [hnone] at hsome
            cases hsome
        case h_3 v r' hsome =>
          rw [hstring, Except.ok.injEq] at hsome
          obtain ⟨⟨w, t⟩, ht, heq⟩ := Option.map_eq_some_iff.mp hsome
          cases heq
          split
          case h_1 hnone =>
            rw [hnone] at ht
            cases ht
          case h_2 v' t' ht' =>
            rw [ht'] at ht
            cases ht
            obtain ⟨hsuffix, hlt⟩ := readString_suffix ht'
            have hleft : (r.upto t).rest = t := upto_rest (hsuffix.trans (hn ▸ rest_suffix))
            rw [ih _ (by rw [hleft, hn]; exact hlt) depth (r.upto t) rfl, hleft]
            rfl
      case isFalse =>
        split
        case isTrue => rw [hadvance]; rfl
        case isFalse =>
          split
          case isTrue => rw [Option.map_some, advance_eq_upto hn]
          case isFalse =>
            split
            case isTrue => rw [hadvance]; rfl
            case isFalse => rw [hadvance]; rfl

theorem scanScalar_eq (r : PrefixReader) : ∃ r', r.scanScalar = .ok r' ∧
    r'.rest = afterScalar r.rest ∧ (r.rest ≠ [] → afterScalar r.rest ≠ [] →
      r' = r.upto (afterScalar r.rest)) := by
  induction hn : r.rest generalizing r with
  | nil =>
    rw [scanScalar, dif_pos (ended_iff.mpr hn)]
    exact ⟨r, rfl, hn, fun hne => absurd rfl hne⟩
  | cons c s ih =>
    obtain ⟨hfront, hrest, -, hended⟩ := front_of_rest hn
    rw [scanScalar, dif_neg hended, hfront]
    simp only [bind, Except.bind, pure, Except.pure]
    cases hdelimiter : isDelimiter c with
    | true =>
      have hstop : afterScalar (c :: s) = c :: s := by
        rw [afterScalar, List.dropWhile_cons_of_neg (by simp only [hdelimiter, Bool.not_true,
          Bool.false_eq_true, not_false_eq_true])]
      refine ⟨r, by simp only [if_true], by rw [hn, hstop], fun _ _ => ?_⟩
      rw [hstop]
      have := position_of_rest hn (List.cons_ne_nil _ _)
      rw [upto, ← this]
    | false =>
      have hgo : afterScalar (c :: s) = afterScalar s := by
        rw [afterScalar, List.dropWhile_cons_of_pos (by simp only [hdelimiter, Bool.not_false])]
        rfl
      obtain ⟨r', hr', hleft, hupto⟩ := ih r.advance hrest
      refine ⟨r', by simpa only [Bool.false_eq_true, if_false] using hr', by rw [hleft, hgo],
        fun _ hne => ?_⟩
      rw [hgo] at hne ⊢
      refine hupto ?_ hne
      rintro rfl
      exact hne rfl

theorem value_eq (r : PrefixReader) : r.value =
    .ok ((readValue r.rest).map fun (v, t) => (v, r.upto t)) := by
  obtain ⟨r', hr', htext, hrest⟩ := r.skipSpace_eq
  have hupto : r'.upto = r.upto := by
    funext s
    rw [upto, upto, htext]
  rw [value, hr']
  simp only [bind, Except.bind, pure, Except.pure]
  rw [readValue, ← hrest]
  cases hn : r'.rest with
  | nil => simp only [ended_iff.mpr hn, if_true, Option.map_none]
  | cons c u =>
    obtain ⟨hfront, hleft, -, hended⟩ := front_of_rest hn
    have hne := List.cons_ne_nil c u
    simp only [hended, Bool.false_eq_true, if_false, hfront]
    split
    case isTrue => rw [string_eq, hn, hupto]
    case isFalse =>
      split
      case isTrue =>
        rw [closeBrackets_eq, hn]
        cases hafter : afterBrackets 0 (c :: u) with
        | none => rfl
        | some t =>
          have hsince := since_eq (r := r') (r'.upto t) rfl hn hne
            (afterBrackets_suffix hafter) rfl
          simp only [Option.map_some, hsince]
          rw [← hupto]
      case isFalse =>
        obtain ⟨r'', hr'', hleft'', hupto''⟩ := r'.scanScalar_eq
        rw [hn] at hleft'' hupto''
        simp only [hr'']
        by_cases hend : afterScalar (c :: u) = []
        · rw [hend] at hleft''
          simp only [ended_iff.mpr hleft'', if_true, hend, Option.map_none]
        · have hgo : ¬r''.ended = true := by
            rw [ended_iff, hleft'']
            exact hend
          have hat := hupto'' hne hend
          have hsince := since_eq (r := r') r'' (by rw [hat]; rfl) hn hne
            (List.dropWhile_suffix _) hat
          simp only [hgo, Bool.false_eq_true, if_false, hsince, hend, Option.map_some]
          rw [hat, hupto]
          rfl

end PrefixReader

/-! ## What a prefix shows of a text -/

section Front

variable {s t v : Bytes}

theorem afterString_append (h : afterString s = some t) (u : Bytes) :
    afterString (s ++ u) = some (t ++ u) := by
  induction hn : s.length using Nat.strong_induction_on generalizing s with
  | _ n ih =>
    subst hn
    match s, h with
    | c :: s, h =>
      by_cases hc : c = 0x5C
      · subst hc
        match s, h with
        | d :: s, h =>
          rw [afterString_escape] at h
          rw [List.cons_append, List.cons_append, afterString_escape]
          exact ih s.length (by simp only [List.length_cons]; omega) h rfl
      · rw [afterString_cons hc] at h
        rw [List.cons_append, afterString_cons hc]
        split at h
        case isTrue hquote =>
          cases h
          rw [if_pos hquote]
        case isFalse hquote =>
          rw [if_neg hquote]
          exact ih s.length (Nat.lt_succ_self _) h rfl

theorem skipSpace_append {c : UInt8} {r : Bytes} (h : skipSpace s = c :: r) (u : Bytes) :
    skipSpace (s ++ u) = c :: (r ++ u) := by
  rw [skipSpace] at h
  rw [skipSpace, List.dropWhile_append, h]
  rfl

theorem taken_append (h : t <:+ s) (u : Bytes) : taken (s ++ u) (t ++ u) = taken s t := by
  have hle := h.length_le
  rw [taken, taken, List.length_append, List.length_append, Nat.add_sub_add_right,
    List.take_append_of_le_length (Nat.sub_le _ _)]

theorem readString_append (h : readString s = some (v, t)) (u : Bytes) :
    readString (s ++ u) = some (v, t ++ u) := by
  rw [readString] at h
  split at h
  case h_1 => cases h
  case h_2 c r hr =>
    split at h
    case isTrue hc =>
      obtain ⟨t', ht', h⟩ := Option.map_eq_some_iff.mp h
      cases h
      have hsuffix := (PrefixReader.afterString_suffix ht').trans (List.suffix_cons c r)
      rw [readString, skipSpace_append hr]
      dsimp only
      rw [if_pos hc, afterString_append ht', Option.map_some, ← List.cons_append,
        taken_append hsuffix]
    case isFalse => cases h

theorem readByte_append {c : UInt8} (h : readByte c s = some t) (u : Bytes) :
    readByte c (s ++ u) = some (t ++ u) := by
  rw [readByte] at h
  split at h
  case h_1 => cases h
  case h_2 b r hr =>
    split at h
    case isTrue hb =>
      cases h
      rw [readByte, skipSpace_append hr]
      dsimp only
      rw [if_pos hb]
    case isFalse => cases h

theorem afterBrackets_append {depth : Int} (h : afterBrackets depth s = some t) (u : Bytes) :
    afterBrackets depth (s ++ u) = some (t ++ u) := by
  induction hn : s.length using Nat.strong_induction_on generalizing s depth with
  | _ n ih =>
    subst hn
    cases s with
    | nil =>
      rw [afterBrackets] at h
      cases h
    | cons c s =>
      rw [afterBrackets] at h
      rw [List.cons_append, afterBrackets]
      split at h
      case isTrue hc =>
        rw [if_pos hc]
        split at h
        case h_1 => cases h
        case h_2 v r hr =>
          have hr' := readString_append hr u
          rw [List.cons_append] at hr'
          split
          case h_1 hnone =>
            rw [hnone] at hr'
            cases hr'
          case h_2 hsome =>
            rw [hsome] at hr'
            cases hr'
            exact ih _ (PrefixReader.readString_suffix hr).2 h rfl
      case isFalse hc =>
        rw [if_neg hc]
        split at h
        case isTrue hopen =>
          rw [if_pos hopen]
          exact ih _ (Nat.lt_succ_self _) h rfl
        case isFalse hopen =>
          rw [if_neg hopen]
          split at h
          case isTrue hclose =>
            cases h
            rw [if_pos hclose]
          case isFalse hclose =>
            rw [if_neg hclose]
            split at h
            case isTrue hdown =>
              rw [if_pos hdown]
              exact ih _ (Nat.lt_succ_self _) h rfl
            case isFalse hdown =>
              rw [if_neg hdown]
              exact ih _ (Nat.lt_succ_self _) h rfl

theorem afterScalar_append (h : afterScalar s ≠ []) (u : Bytes) :
    afterScalar (s ++ u) = afterScalar s ++ u := by
  obtain ⟨b, r, hr⟩ := List.exists_cons_of_ne_nil h
  rw [afterScalar] at hr
  rw [afterScalar, afterScalar, List.dropWhile_append, hr]
  rfl

/-- A value that is read of a text is read of every longer one. -/
theorem readValue_append (h : readValue s = some (v, t)) (u : Bytes) :
    readValue (s ++ u) = some (v, t ++ u) := by
  rw [readValue] at h
  split at h
  case h_1 => cases h
  case h_2 c r hr =>
    rw [readValue, skipSpace_append hr]
    dsimp only
    rw [← List.cons_append]
    split at h
    case isTrue hc =>
      rw [if_pos hc]
      exact readString_append h u
    case isFalse hc =>
      rw [if_neg hc]
      split at h
      case isTrue hopen =>
        rw [if_pos hopen]
        obtain ⟨t', ht', h⟩ := Option.map_eq_some_iff.mp h
        cases h
        rw [afterBrackets_append ht', Option.map_some,
          taken_append (PrefixReader.afterBrackets_suffix ht')]
      case isFalse hopen =>
        rw [if_neg hopen]
        split at h
        case isTrue => cases h
        case isFalse hend =>
          cases h
          have hend' : ¬afterScalar (c :: r) ++ u = [] := fun hnil =>
            hend (List.append_eq_nil_iff.mp hnil).1
          have hsuffix : afterScalar (c :: r) <:+ c :: r := List.dropWhile_suffix _
          rw [afterScalar_append hend, if_neg hend', taken_append hsuffix]

end Front

end Kotatsu.Ipc.Codec.JsonCodec
