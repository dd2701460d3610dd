import Kotatsu.Ipc.Codec.Json.Scanner

/-!
# The JSON checker

The checker keeps the arrays and objects around the next value on a stack of its own.
A value is read up to where it ends or its first element or member begins; where one
ends, what it ends is closed, up to the next value. On the way the members of the
root object that carry a message's params or result are noted, and how deeply the
text nests. The text from `at` on stands for `at`.
-/

namespace Kotatsu.Ipc.Codec.JsonCodec

open Kotatsu.Core

/-- What the checker and the readers of a message use of simdjson: `validate_utf8`, and
`from_string` of a string. -/
structure Simdjson where
  validateUtf8 : Bytes → Bool
  readString : Bytes → Option Bytes

/-- `key_name`. -/
def keyName (lib : Simdjson) (quoted : Bytes) : Bytes :=
  if 0x5C ∈ quoted then (lib.readString quoted).getD []
  else substr quoted 1 (quoted.length - 2)

/-- `Carried`. -/
structure Carried where
  params : Bool
  start : Nat
  stop : Nat
deriving DecidableEq, Repr

/-- `JSONChecker`, with `open` from the innermost out. -/
structure Checker where
  text : Bytes
  rest : Bytes
  depth : Nat := 0
  carried : List Carried := []
  opened : List UInt8 := []
  memberKey : Bytes := []
  memberStart : Nat := 0

/-- How `check` goes on where a value has ended. -/
inductive Ending where
  | done (c : Checker)
  | next (c : Checker)

/-- What closes a bracket. -/
def closer (b : UInt8) : UInt8 := if b = 0x5B then 0x5D else 0x7D

namespace Checker

/-- `at`. -/
def position (c : Checker) : Nat := c.text.length - c.rest.length

/-- `in_root_object`. -/
def inRootObject (c : Checker) : Bool := c.opened = [0x7B]

/-- `key`. -/
def key (c : Checker) : Except Stop Checker := do
  let start := skipSpace c.rest
  let rest ← string start
  let c :=
    if c.inRootObject then { c with memberKey := start.take (start.length - rest.length) } else c
  let rest ← expect 0x3A (skipSpace rest)
  return { c with rest }

/-- `end_member`, at the end of the value. -/
def endMember (lib : Simdjson) (c : Checker) : Checker :=
  let name := keyName lib c.memberKey
  if name = ascii "params" ∨ name = ascii "result" then
    { c with carried := c.carried ++ [⟨name = ascii "params", c.memberStart, c.position⟩] }
  else c

/-- A value that is no array and no object. -/
def scalar (s : Bytes) (first : UInt8) : Scan :=
  if first = 0x22 then string s
  else if first = 0x2D || isDigit first then number s
  else
    match ((takeWord (ascii "true") s).or (takeWord (ascii "false") s)).or
      (takeWord (ascii "null") s) with
    | some t => .ok t
    | none => .error (.rejected s)

/-- Up to the next value, with where it starts if it is a member of the root object. -/
def toValue (c : Checker) : Checker :=
  let c := { c with rest := skipSpace c.rest }
  if c.inRootObject then { c with memberStart := c.position } else c

/-- Past a bracket and the space after it. -/
def enter (c : Checker) (inner : Bytes) : Checker :=
  { c with depth := max c.depth (c.opened.length + 1), rest := skipSpace inner }

/-- The key of the next member, in an object. -/
def nextKey (c : Checker) : Except Stop Checker :=
  if c.opened.head? = some 0x7B then c.key else .ok c

/-- A turn of `check`, with whether a value has ended. -/
def value (c : Checker) : Except Stop (Checker × Bool) :=
  match c.toValue.rest with
  | [] => .error (.rejected [])
  | b :: inner =>
    if b = 0x5B ∨ b = 0x7B then
      let c := c.toValue.enter inner
      match take (closer b) c.rest with
      | some rest => .ok ({ c with rest }, true)
      | none => do return (← nextKey { c with opened := b :: c.opened }, false)
    else do return ({ c.toValue with rest := ← scalar (b :: inner) b }, true)

/-- Past the space after a value, noted if it is a member of the root object. -/
def fromValue (lib : Simdjson) (c : Checker) : Checker :=
  let c := if c.inRootObject then c.endMember lib else c
  { c with rest := skipSpace c.rest }

@[simp] theorem fromValue_opened (lib : Simdjson) (c : Checker) :
    (c.fromValue lib).opened = c.opened := by
  unfold fromValue endMember
  dsimp only
  split
  · split <;> rfl
  · rfl

@[simp] theorem fromValue_rest (lib : Simdjson) (c : Checker) :
    (c.fromValue lib).rest = skipSpace c.rest := by
  unfold fromValue endMember
  dsimp only
  split
  · split <;> rfl
  · rfl

/-- The loop of `check` that closes what a value ends. -/
def endValues (lib : Simdjson) (c : Checker) : Except Stop Ending :=
  let ended := c.fromValue lib
  match _hopen : c.opened with
  | [] => if ended.rest = [] then .ok (.done ended) else .error (.rejected ended.rest)
  | b :: outer =>
    match take 0x2C ended.rest with
    | some rest => do return .next (← nextKey { ended with rest })
    | none =>
      match expect (closer b) ended.rest with
      | .error e => .error e
      | .ok rest => endValues lib { ended with rest, opened := outer }
termination_by c.opened.length
decreasing_by
  rw [_hopen, List.length_cons]
  exact Nat.lt_succ_self _

/-! ## Each turn takes something -/

@[simp] theorem toValue_rest (c : Checker) : c.toValue.rest = skipSpace c.rest := by
  unfold toValue
  dsimp only
  split <;> rfl

theorem key_rest {c c' : Checker} (h : c.key = .ok c') : c'.rest.length < c.rest.length := by
  obtain ⟨t, ht, h⟩ := bind_eq_ok.mp h
  obtain ⟨u, hu, h⟩ := bind_eq_ok.mp h
  cases h
  have hspace := (Json.Takes.space (space_skipSpace c.rest)).2
  have hstr := (Json.Takes.str (string_iff.mp ht)).2
  have hspace' := (Json.Takes.space (space_skipSpace t)).2
  have hcolon := (Json.Takes.one (expect_iff.mp hu)).2
  dsimp only
  omega

theorem nextKey_rest {c c' : Checker} (h : c.nextKey = .ok c') :
    c'.rest.length ≤ c.rest.length := by
  unfold nextKey at h
  split at h
  · exact (key_rest h).le
  · cases h
    exact Nat.le_refl _

theorem scalar_sound {s t : Bytes} {b : UInt8} (h : scalar s b = .ok t) :
    Json.Scalar UInt8.toNat s t := by
  unfold scalar at h
  split at h
  · exact .inr (.inr (string_iff.mp h))
  · split at h
    · exact .inr (.inl (number_sound h))
    · split at h
      case h_2 => cases h
      case h_1 u hu =>
        cases h
        rcases Option.or_eq_some_iff.mp hu with hu | ⟨-, hu⟩
        · rcases Option.or_eq_some_iff.mp hu with hu | ⟨-, hu⟩
          · exact .inl (.inl (word_iff.mpr (takeWord_eq_some.mp hu)))
          · exact .inl (.inr (.inl (word_iff.mpr (takeWord_eq_some.mp hu))))
        · exact .inl (.inr (.inr (word_iff.mpr (takeWord_eq_some.mp hu))))

theorem value_rest {c c' : Checker} {ended : Bool} (h : c.value = .ok (c', ended)) :
    c'.rest.length < c.rest.length := by
  have hspace := (Json.Takes.space (space_skipSpace c.rest)).2
  unfold value at h
  rw [toValue_rest] at h
  split at h
  case h_1 => cases h
  case h_2 b inner hrest =>
    rw [hrest, List.length_cons] at hspace
    have hinner := (Json.Takes.space (space_skipSpace inner)).2
    split at h
    case isTrue =>
      dsimp only [enter] at h
      split at h
      case h_1 t ht =>
        cases h
        have := congrArg List.length (take_eq_some.mp ht)
        rw [List.length_cons] at this
        dsimp only
        omega
      case h_2 =>
        obtain ⟨d, hd, h⟩ := bind_eq_ok.mp h
        cases h
        have := nextKey_rest hd
        dsimp only at this
        omega
    case isFalse =>
      obtain ⟨t, ht, h⟩ := bind_eq_ok.mp h
      cases h
      have := (Json.Takes.scalar (scalar_sound ht)).2
      rw [List.length_cons] at this
      dsimp only
      omega

theorem endValues_rest {lib : Simdjson} {c c' : Checker} (h : c.endValues lib = .ok (.next c')) :
    c'.rest.length < c.rest.length := by
  induction hn : c.opened.length using Nat.strong_induction_on generalizing c with
  | _ n ih =>
    subst hn
    have hspace := (Json.Takes.space (space_skipSpace c.rest)).2
    rw [endValues, fromValue_rest] at h
    split at h
    case h_1 => split at h <;> cases h
    case h_2 b outer hopen =>
      split at h
      case h_1 t ht =>
        have hcomma := congrArg List.length (take_eq_some.mp ht)
        rw [List.length_cons] at hcomma
        obtain ⟨d, hd, h⟩ := bind_eq_ok.mp h
        cases h
        have := nextKey_rest hd
        dsimp only at this
        omega
      case h_2 =>
        split at h
        case h_1 => cases h
        case h_2 t ht =>
          have hclose := (Json.Takes.one (expect_iff.mp ht)).2
          have := ih outer.length (by rw [hopen]; exact Nat.lt_succ_self _) h rfl
          dsimp only at this
          omega

/-- The loop of `check`. -/
def loop (lib : Simdjson) (c : Checker) : Except Stop Checker :=
  match _hvalue : c.value with
  | .error e => .error e
  | .ok (c, false) => loop lib c
  | .ok (c, true) =>
    match _hend : c.endValues lib with
    | .error e => .error e
    | .ok (.done c) => .ok c
    | .ok (.next c) => loop lib c
termination_by c.rest.length
decreasing_by
  · exact value_rest _hvalue
  · exact (endValues_rest _hend).trans (value_rest _hvalue)

end Checker

/-- `check`: what the checker found in JSON, or where a text breaks it. -/
def check (lib : Simdjson) (text : Bytes) : Except Stop Checker :=
  if lib.validateUtf8 text then Checker.loop lib { text, rest := text }
  else .error (.rejected text)

end Kotatsu.Ipc.Codec.JsonCodec
