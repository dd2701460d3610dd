import Kotatsu.Ipc.Codec.Json.Checker

/-!
# What the checker accepts

The checker accepts the JSON texts, and notes of one what the grammar says of it. A
turn is related to a rule: what is left of a value, and of the elements or members up
to their bracket, by `Passed` and `Closed`. That the checker goes on so from every
rule, and only so, is one induction on the derivation and one on the length of what
is left.
-/

namespace Kotatsu.Ipc.Codec.JsonCodec

open Relation
open Kotatsu.Core Kotatsu.Core.Json

/-- The members that carry params or a result, where they lie in a text of this size. -/
def carriedOf (lib : Simdjson) (size : Nat) (ms : List (Member UInt8)) : List Carried :=
  ms.filterMap fun m =>
    let name := keyName lib m.key
    if name = ascii "params" ∨ name = ascii "result" then
      some ⟨name = ascii "params", size - m.value.length, size - m.rest.length⟩
    else none

namespace Checker

variable {lib : Simdjson}

/-! ## Turns -/

/-- The rest of `check` from the end of a value. -/
def after (lib : Simdjson) (c : Checker) : Except Stop Checker :=
  match c.endValues lib with
  | .error e => .error e
  | .ok (.done c) => .ok c
  | .ok (.next c) => loop lib c

theorem loop_eq (c : Checker) : loop lib c =
    match c.value with
    | .error e => .error e
    | .ok (c, false) => loop lib c
    | .ok (c, true) => c.after lib := by
  rw [loop]
  split
  case h_1 e he => rw [he]
  case h_2 d hd => rw [hd]
  case h_3 d hd =>
    rw [hd]
    unfold after
    dsimp only
    split
    case h_1 e he => rw [he]
    case h_2 d' hd' => rw [hd']
    case h_3 d' hd' => rw [hd']

variable {c c' c₁ c₂ : Checker} {b : UInt8} {outer t s key s₁ u x y : Bytes} {d e : Nat}
  {ms : List (Member UInt8)}

theorem after_nil (h : c.opened = []) : c.after lib =
    if skipSpace c.rest = [] then .ok (c.fromValue lib)
    else .error (.rejected (skipSpace c.rest)) := by
  have hend : c.endValues lib = if skipSpace c.rest = [] then .ok (.done (c.fromValue lib))
      else .error (.rejected (skipSpace c.rest)) := by
    rw [endValues]
    split
    case h_1 => rw [fromValue_rest]
    case h_2 b outer hopen =>
      rw [h] at hopen
      cases hopen
  rw [after, hend]
  by_cases hrest : skipSpace c.rest = []
  · rw [if_pos hrest, if_pos hrest]
  · rw [if_neg hrest, if_neg hrest]

theorem endValues_cons (h : c.opened = b :: outer) :
    c.endValues lib =
      match take 0x2C (skipSpace c.rest) with
      | some t => nextKey { c.fromValue lib with rest := t } >>= fun d => .ok (.next d)
      | none =>
        match expect (closer b) (skipSpace c.rest) with
        | .error e => .error e
        | .ok t => endValues lib { c.fromValue lib with rest := t, opened := outer } := by
  rw [endValues]
  split
  case h_1 hopen =>
    rw [h] at hopen
    cases hopen
  case h_2 b' outer' hopen =>
    rw [h] at hopen
    cases hopen
    rw [fromValue_rest]
    rfl

/-- A comma leads to the next value. -/
theorem after_comma (h : c.opened = b :: outer) (hrest : skipSpace c.rest = 0x2C :: t) :
    c.after lib = nextKey { c.fromValue lib with rest := t } >>= loop lib := by
  rw [after, endValues_cons h, hrest, take_eq_some.mpr rfl]
  dsimp only
  cases nextKey { c.fromValue lib with rest := t } <;> rfl

/-- A closing bracket ends the value around. -/
theorem after_close (h : c.opened = b :: outer) (hrest : skipSpace c.rest = closer b :: t) :
    c.after lib = after lib { c.fromValue lib with rest := t, opened := outer } := by
  have hcomma : take 0x2C (closer b :: t) = none := by
    unfold closer
    split <;> rfl
  have hclose : expect (closer b) (closer b :: t) = .ok t := by
    rw [expect, take_eq_some.mpr rfl]
  rw [after, endValues_cons h, hrest, hcomma, hclose]
  rfl

/-- What a value is followed by when the checker goes on. -/
theorem after_ok {c r : Checker} (hopen : c.opened = b :: outer) (h : c.after lib = .ok r) :
    (∃ t, skipSpace c.rest = 0x2C :: t ∧
      nextKey { c.fromValue lib with rest := t } >>= loop lib = .ok r) ∨
    ∃ t, skipSpace c.rest = closer b :: t ∧
      after lib { c.fromValue lib with rest := t, opened := outer } = .ok r := by
  cases hcomma : take 0x2C (skipSpace c.rest) with
  | some t =>
    have hrest := take_eq_some.mp hcomma
    rw [after_comma hopen hrest] at h
    exact .inl ⟨t, hrest, h⟩
  | none =>
    cases hclose : expect (closer b) (skipSpace c.rest) with
    | error e =>
      rw [after, endValues_cons hopen, hcomma, hclose] at h
      cases h
    | ok t =>
      have hrest := one_iff.mp (expect_iff.mp hclose)
      rw [after_close hopen hrest] at h
      exact .inr ⟨t, hrest, h⟩

/-! ## What a turn leaves -/

@[simp] theorem fromValue_text (c : Checker) : (c.fromValue lib).text = c.text := by
  unfold fromValue endMember
  dsimp only
  split
  · split <;> rfl
  · rfl

@[simp] theorem fromValue_depth (c : Checker) : (c.fromValue lib).depth = c.depth := by
  unfold fromValue endMember
  dsimp only
  split
  · split <;> rfl
  · rfl

@[simp] theorem fromValue_memberKey (c : Checker) :
    (c.fromValue lib).memberKey = c.memberKey := by
  unfold fromValue endMember
  dsimp only
  split
  · split <;> rfl
  · rfl

@[simp] theorem fromValue_memberStart (c : Checker) :
    (c.fromValue lib).memberStart = c.memberStart := by
  unfold fromValue endMember
  dsimp only
  split
  · split <;> rfl
  · rfl

/-- A member of the root object is noted with where its value lies. -/
theorem fromValue_carried (hroot : c.inRootObject = true)
    (hstart : c.memberStart = c.text.length - s.length) :
    (c.fromValue lib).carried =
      c.carried ++ carriedOf lib c.text.length [⟨c.memberKey, s, c.rest⟩] := by
  simp only [fromValue, hroot, if_true, endMember, carriedOf, position]
  split
  case isTrue h => simp only [List.filterMap_cons, h, if_true, hstart, List.filterMap_nil]
  case isFalse h =>
    simp only [List.filterMap_cons, h, if_false, List.filterMap_nil, List.append_nil]

theorem fromValue_carried_inner (hroot : c.inRootObject = false) :
    (c.fromValue lib).carried = c.carried := by
  simp only [fromValue, hroot, Bool.false_eq_true, if_false]

/-- A value is passed: what is between `s` and `t`. -/
structure Passed (lib : Simdjson) (c : Checker) (s t : Bytes) (d : Nat)
    (ms : List (Member UInt8)) (c' : Checker) : Prop where
  text : c'.text = c.text
  rest : c'.rest = t
  opened : c'.opened = c.opened
  depth : c'.depth = max c.depth (c.opened.length + d)
  carried : c'.carried = c.carried ++ if c.opened = [] then carriedOf lib c.text.length ms else []
  memberKey : c.opened ≠ [] → c'.memberKey = c.memberKey
  memberStart : c.opened ≠ [] → c'.memberStart =
    if c.inRootObject then c.text.length - s.length else c.memberStart

/-- The elements or members of what is open are passed, and its bracket. -/
structure Closed (lib : Simdjson) (c : Checker) (outer t : Bytes) (d : Nat)
    (ms : List (Member UInt8)) (c' : Checker) : Prop where
  text : c'.text = c.text
  rest : c'.rest = t
  opened : c'.opened = outer
  depth : c'.depth = max c.depth (outer.length + 1 + d)
  carried : c'.carried = c.carried ++ if outer = [] then carriedOf lib c.text.length ms else []
  memberKey : outer ≠ [] → c'.memberKey = c.memberKey
  memberStart : outer ≠ [] → c'.memberStart = c.memberStart

theorem carriedOf_append (size : Nat) (ms ns : List (Member UInt8)) :
    carriedOf lib size (ms ++ ns) = carriedOf lib size ms ++ carriedOf lib size ns :=
  List.filterMap_append

/-! ## Keys -/

/-- The key of a member is kept for the root object. -/
structure Keyed (c : Checker) (key rest : Bytes) (c' : Checker) : Prop where
  text : c'.text = c.text
  rest : c'.rest = rest
  opened : c'.opened = c.opened
  depth : c'.depth = c.depth
  carried : c'.carried = c.carried
  memberKey : c'.memberKey = if c.inRootObject then key else c.memberKey
  memberStart : c'.memberStart = c.memberStart

theorem Keyed.refl (h : c.inRootObject = false) : Keyed c [] c.rest c := by
  refine ⟨rfl, rfl, rfl, rfl, rfl, ?_, rfl⟩
  rw [h, if_neg Bool.false_ne_true]

theorem key_sound (h : c.key = .ok c') :
    ∃ k k' x y, Space UInt8.toNat c.rest k ∧ Str UInt8.toNat k k' ∧ Space UInt8.toNat k' x ∧
      One UInt8.toNat (· = 0x3A) x y ∧ Keyed c (k.take (k.length - k'.length)) y c' := by
  obtain ⟨k', hk', h⟩ := bind_eq_ok.mp h
  obtain ⟨y, hy, h⟩ := bind_eq_ok.mp h
  cases h
  refine ⟨_, k', _, y, space_skipSpace c.rest, string_iff.mp hk', space_skipSpace k',
    expect_iff.mp hy, ?_⟩
  split
  case isTrue hroot => exact ⟨rfl, rfl, rfl, rfl, rfl, (if_pos hroot).symm, rfl⟩
  case isFalse hroot => exact ⟨rfl, rfl, rfl, rfl, rfl, (if_neg hroot).symm, rfl⟩

/-! ## The values of what is open -/

/-- The elements of an array, or the members of an object. -/
def inside (b : UInt8) : Nonterminal := if b = 0x5B then .elements else .members

/-- The member that a value is, in an object. -/
def memberOf (b : UInt8) (key s t : Bytes) : List (Member UInt8) :=
  if b = 0x5B then [] else [⟨key, s, t⟩]

/-- Only the members of a root object are noted. -/
theorem Passed.noted (hb : b = 0x5B ∨ b = 0x7B) (hopen : c.opened = b :: outer)
    (hkey : Keyed c key s₁ c₁) (h : Passed lib c₁ s t d ms c₂) :
    (c₂.fromValue lib).carried = c.carried ++
      if outer = [] then carriedOf lib c.text.length (memberOf b key s t) else [] := by
  have hne : c₁.opened ≠ [] := by
    rw [hkey.opened, hopen]
    exact List.cons_ne_nil _ _
  have hopen₁ := hkey.opened
  have hopen₂ := h.opened
  have hcarried : c₂.carried = c.carried := by
    rw [h.carried, if_neg hne, List.append_nil, hkey.carried]
  have hroot : c₁.inRootObject = c.inRootObject ∧ c₂.inRootObject = c.inRootObject := by
    simp only [inRootObject, hopen₂, hopen₁, and_self]
  cases hc : c.inRootObject with
  | true =>
    have hroot' : b = 0x7B ∧ outer = [] := by simpa [inRootObject, hopen] using hc
    obtain ⟨rfl, rfl⟩ := hroot'
    have hstart : c₂.memberStart = c₂.text.length - s.length := by
      rw [h.memberStart hne, hroot.1, hc, if_pos rfl, h.text]
    rw [fromValue_carried (hroot.2.trans hc) hstart, hcarried, if_pos rfl, h.memberKey hne,
      hkey.memberKey, hc, if_pos rfl, h.text, hkey.text, h.rest]
    rfl
  | false =>
    rw [fromValue_carried_inner (hroot.2.trans hc), hcarried]
    split
    case isTrue houter =>
      subst houter
      have hb' : b = 0x5B := by
        rcases hb with hb | rfl
        · exact hb
        · simp [inRootObject, hopen] at hc
      rw [memberOf, if_pos hb']
      exact (List.append_nil _).symm
    case isFalse => exact (List.append_nil _).symm

/-- The last value of what is open. -/
theorem Passed.closed (hb : b = 0x5B ∨ b = 0x7B) (hopen : c.opened = b :: outer)
    (hkey : Keyed c key s₁ c₁) (h : Passed lib c₁ s t d ms c₂) :
    Closed lib c outer u d (memberOf b key s t)
      { c₂.fromValue lib with rest := u, opened := outer } := by
  have hne : c₁.opened ≠ [] := by
    rw [hkey.opened, hopen]
    exact List.cons_ne_nil _ _
  have hinner : outer ≠ [] → c.inRootObject = false ∧ c₁.inRootObject = false := by
    intro houter
    simp [inRootObject, hkey.opened, hopen, houter]
  refine ⟨?_, rfl, rfl, ?_, h.noted hb hopen hkey, fun ho => ?_, fun ho => ?_⟩
  · rw [fromValue_text, h.text, hkey.text]
  · rw [fromValue_depth, h.depth, hkey.depth, hkey.opened, hopen, List.length_cons]
  · rw [fromValue_memberKey, h.memberKey hne, hkey.memberKey, (hinner ho).1,
      if_neg Bool.false_ne_true]
  · rw [fromValue_memberStart, h.memberStart hne, (hinner ho).2, if_neg Bool.false_ne_true,
      hkey.memberStart]

/-- A value of what is open, and those after its comma. -/
theorem Passed.closed_more {c c₁ c₂ c₃ : Checker} {outer key s₁ s t u v : Bytes}
    {ms ns : List (Member UInt8)} (hb : b = 0x5B ∨ b = 0x7B) (hopen : c.opened = b :: outer)
    (hkey : Keyed c key s₁ c₁) (h : Passed lib c₁ s t d ms c₂)
    (hrest : Closed lib { c₂.fromValue lib with rest := u } outer v e ns c₃) :
    Closed lib c outer v (max d e) (memberOf b key s t ++ ns) c₃ := by
  have hfirst := h.closed (u := u) hb hopen hkey
  refine ⟨hrest.text.trans hfirst.text, hrest.rest, hrest.opened, ?_, ?_,
    fun ho => (hrest.memberKey ho).trans (hfirst.memberKey ho),
    fun ho => (hrest.memberStart ho).trans (hfirst.memberStart ho)⟩
  · have hd := hfirst.depth
    have he := hrest.depth
    dsimp only at hd he
    omega
  · have htext : (c₂.fromValue lib).text = c.text := hfirst.text
    rw [hrest.carried]
    dsimp only
    rw [htext, h.noted hb hopen hkey]
    split
    · rw [carriedOf_append, List.append_assoc]
    · simp only [List.append_nil]

/-! ## Soundness -/

@[simp] theorem toValue_text (c : Checker) : c.toValue.text = c.text := by
  unfold toValue
  dsimp only
  split <;> rfl

@[simp] theorem toValue_opened (c : Checker) : c.toValue.opened = c.opened := by
  unfold toValue
  dsimp only
  split <;> rfl

@[simp] theorem toValue_depth (c : Checker) : c.toValue.depth = c.depth := by
  unfold toValue
  dsimp only
  split <;> rfl

@[simp] theorem toValue_carried (c : Checker) : c.toValue.carried = c.carried := by
  unfold toValue
  dsimp only
  split <;> rfl

@[simp] theorem toValue_memberKey (c : Checker) : c.toValue.memberKey = c.memberKey := by
  unfold toValue
  dsimp only
  split <;> rfl

theorem toValue_memberStart (c : Checker) : c.toValue.memberStart =
    if c.inRootObject then c.text.length - (skipSpace c.rest).length else c.memberStart := by
  have hroot : { c with rest := skipSpace c.rest }.inRootObject = c.inRootObject := rfl
  unfold toValue
  dsimp only
  rw [hroot]
  cases c.inRootObject <;> rfl

/-- A value that is passed in one turn. -/
theorem Passed.turn (t : Bytes) (he : e = max c.depth (c.opened.length + d)) :
    Passed lib c (skipSpace c.rest) t d [] { c.toValue with rest := t, depth := e } where
  text := c.toValue_text
  rest := rfl
  opened := c.toValue_opened
  depth := he
  carried := by
    dsimp only
    rw [toValue_carried]
    split <;> exact (List.append_nil _).symm
  memberKey _ := c.toValue_memberKey
  memberStart _ := c.toValue_memberStart

/-- A turn passes a value, or opens an array or an object that is not empty. -/
theorem value_sound {ended : Bool} (hdeep : c.opened.length ≤ c.depth)
    (h : c.value = .ok (c', ended)) :
    (ended = true ∧ ∃ t d, Reads UInt8.toNat .value (skipSpace c.rest) t d [] ∧
      Passed lib c (skipSpace c.rest) t d [] c') ∨
    ∃ b inner, ended = false ∧ (b = 0x5B ∨ b = 0x7B) ∧ skipSpace c.rest = b :: inner ∧
      take (closer b) (skipSpace inner) = none ∧
      nextKey { c.toValue.enter inner with opened := b :: c.opened } = .ok c' := by
  unfold value at h
  rw [toValue_rest] at h
  split at h
  case h_1 => cases h
  case h_2 b inner hrest =>
    split at h
    case isTrue hb =>
      have hdepth : (c.toValue.enter inner).depth = max c.depth (c.opened.length + 1) := by
        simp only [enter, toValue_depth, toValue_opened]
      dsimp only at h
      split at h
      case h_1 t ht =>
        cases h
        have hempty : Reads UInt8.toNat .value (skipSpace c.rest) t 1 [] := by
          have hclose := (one_iff (c := closer b)).mpr (take_eq_some.mp ht)
          rw [hrest]
          rcases hb with rfl | rfl
          · exact .emptyArray ⟨inner, .intro rfl, _, space_skipSpace inner, hclose⟩
          · exact .emptyObject ⟨inner, .intro rfl, _, space_skipSpace inner, hclose⟩
        exact .inl ⟨rfl, t, 1, hempty, Passed.turn t hdepth⟩
      case h_2 hnone =>
        obtain ⟨d, hd, h⟩ := bind_eq_ok.mp h
        cases h
        have hopened : (c.toValue.enter inner).opened = c.opened := c.toValue_opened
        rw [hopened] at hd
        exact .inr ⟨b, inner, rfl, hb, hrest, hnone, hd⟩
    case isFalse =>
      obtain ⟨t, ht, h⟩ := bind_eq_ok.mp h
      cases h
      have hdepth : c.toValue.depth = max c.depth (c.opened.length + 0) := by
        rw [toValue_depth]
        omega
      refine .inl ⟨rfl, t, 0, ?_, Passed.turn t hdepth⟩
      rw [hrest]
      exact .scalar (scalar_sound ht)

theorem Passed.deep (h : Passed lib c s t d ms c') : c'.opened.length ≤ c'.depth := by
  rw [h.opened, h.depth]
  omega

/-- An array or an object is passed with its bracket. -/
theorem Closed.passed {inner t : Bytes}
    (h : Closed lib { c.toValue.enter inner with opened := b :: c.opened } c.opened t d ms c') :
    Passed lib c (skipSpace c.rest) t (d + 1) ms c' where
  text := h.text.trans c.toValue_text
  rest := h.rest
  opened := h.opened
  depth := by
    have hdepth := h.depth
    simp only [enter, toValue_depth, toValue_opened] at hdepth
    omega
  carried := by
    have hcarried := h.carried
    simp only [enter, toValue_carried, toValue_text] at hcarried
    exact hcarried
  memberKey ho := (h.memberKey ho).trans c.toValue_memberKey
  memberStart ho := (h.memberStart ho).trans c.toValue_memberStart

/-- Space may stand before elements and members. -/
theorem reads_space {s s' t : Bytes} (hspace : Space UInt8.toNat s s')
    (h : Reads UInt8.toNat (inside b) s' t d ms) : Reads UInt8.toNat (inside b) s t d ms := by
  generalize hp : inside b = p at h
  cases h with
  | element hbefore h hafter => exact .element (hspace.trans hbefore) h hafter
  | elements hbefore h hafter hcomma hrest =>
    exact .elements (hspace.trans hbefore) h hafter hcomma hrest
  | member hkey hstr hbetween hcolon hbefore h hafter =>
    exact .member (hspace.trans hkey) hstr hbetween hcolon hbefore h hafter
  | members hkey hstr hbetween hcolon hbefore h hafter hcomma hrest =>
    exact .members (hspace.trans hkey) hstr hbetween hcolon hbefore h hafter hcomma hrest
  | _ => unfold inside at hp; split at hp <;> cases hp

/-- What stands before a value in an array, nothing, or in an object, its key. -/
def Leads (b : UInt8) (x key y : Bytes) : Prop :=
  if b = 0x5B then x = y
  else ∃ k k' z, Space UInt8.toNat x k ∧ Str UInt8.toNat k k' ∧ Space UInt8.toNat k' z ∧
    One UInt8.toNat (· = 0x3A) z y ∧ key = k.take (k.length - k'.length)

theorem inside_one (hlead : Leads b x key y) (hspace : Space UInt8.toNat y s)
    (h : Reads UInt8.toNat .value s t d ms) (hafter : Space UInt8.toNat t u) :
    Reads UInt8.toNat (inside b) x u d (memberOf b key s t) := by
  unfold Leads at hlead
  unfold inside memberOf
  split at hlead
  case isTrue hb =>
    rw [if_pos hb, if_pos hb, hlead]
    exact .element hspace h hafter
  case isFalse hb =>
    obtain ⟨k, k', z, hkey, hstr, hbetween, hcolon, rfl⟩ := hlead
    rw [if_neg hb, if_neg hb]
    exact .member hkey hstr hbetween hcolon hspace h hafter

theorem inside_more {x key y s t u u' v : Bytes} {ms ns : List (Member UInt8)}
    (hlead : Leads b x key y) (hspace : Space UInt8.toNat y s)
    (h : Reads UInt8.toNat .value s t d ms) (hafter : Space UInt8.toNat t u)
    (hcomma : One UInt8.toNat (· = 0x2C) u u') (hrest : Reads UInt8.toNat (inside b) u' v e ns) :
    Reads UInt8.toNat (inside b) x v (max d e) (memberOf b key s t ++ ns) := by
  unfold Leads at hlead
  unfold inside at hrest ⊢
  unfold memberOf
  split at hlead
  case isTrue hb =>
    rw [if_pos hb] at hrest ⊢
    rw [if_pos hb, hlead]
    obtain rfl := hrest.elements_nil
    exact .elements hspace h hafter hcomma hrest
  case isFalse hb =>
    rw [if_neg hb] at hrest ⊢
    obtain ⟨k, k', z, hkey, hstr, hbetween, hcolon, rfl⟩ := hlead
    rw [if_neg hb]
    exact .members hkey hstr hbetween hcolon hspace h hafter hcomma hrest

/-- The checker comes to a value as the grammar does. -/
theorem nextKey_sound (hb : b = 0x5B ∨ b = 0x7B) (hopen : c.opened = b :: outer)
    (h : c.nextKey = .ok c') : ∃ key, Leads b c.rest key c'.rest ∧ Keyed c key c'.rest c' := by
  unfold nextKey at h
  rw [hopen, List.head?_cons] at h
  rcases hb with rfl | rfl
  · cases h
    refine ⟨[], rfl, Keyed.refl ?_⟩
    simp [inRootObject, hopen]
  · obtain ⟨k, k', x, y, hk, hk', hx, hy, hkeyed⟩ := key_sound h
    have hrest := hkeyed.rest
    subst hrest
    exact ⟨_, ⟨k, k', x, hk, hk', hx, hy, rfl⟩, hkeyed⟩

/-- What the checker goes on with, the grammar reads: a value, and what is inside of what is
open. -/
theorem goes_sound (n : Nat) :
    (∀ c r : Checker, c.rest.length ≤ n → c.opened.length ≤ c.depth → loop lib c = .ok r →
      ∃ t d ms c', Reads UInt8.toNat .value (skipSpace c.rest) t d ms ∧
        Passed lib c (skipSpace c.rest) t d ms c' ∧ after lib c' = .ok r) ∧
    (∀ (c r : Checker) (b : UInt8) (outer : Bytes), c.rest.length ≤ n →
      b = 0x5B ∨ b = 0x7B → c.opened = b :: outer → c.opened.length ≤ c.depth →
      nextKey c >>= loop lib = .ok r →
      ∃ t d ms c', Reads UInt8.toNat (inside b) c.rest (closer b :: t) d ms ∧
        Closed lib c outer t d ms c' ∧ after lib c' = .ok r) := by
  induction n using Nat.strong_induction_on with
  | _ n ih =>
    have hvalue : ∀ c r : Checker, c.rest.length ≤ n → c.opened.length ≤ c.depth →
        loop lib c = .ok r →
        ∃ t d ms c', Reads UInt8.toNat .value (skipSpace c.rest) t d ms ∧
          Passed lib c (skipSpace c.rest) t d ms c' ∧ after lib c' = .ok r := by
      intro c r hlen hdeep h
      rw [loop_eq] at h
      have hspace := (Takes.space (space_skipSpace c.rest)).2
      split at h
      case h_1 => cases h
      case h_2 c₁ hc₁ =>
        rcases @value_sound lib _ _ _ hdeep hc₁ with ⟨⟨⟩, -⟩ | ⟨b, inner, -, hb, hrest, -, hkey⟩
        rw [hrest, List.length_cons] at hspace
        have hinner := (Takes.space (space_skipSpace inner)).2
        have hdeep' : (b :: c.opened).length ≤ (c.toValue.enter inner).depth := by
          simp only [enter, toValue_opened, List.length_cons]
          exact Nat.le_max_right _ _
        have hgo : nextKey { c.toValue.enter inner with opened := b :: c.opened } >>= loop lib =
            .ok r := bind_eq_ok.mpr ⟨c₁, hkey, h⟩
        have hshort : (skipSpace inner).length < n := by omega
        obtain ⟨t, d, ms, c', hreads, hclosed, hafter⟩ := (ih _ hshort).2
          { c.toValue.enter inner with opened := b :: c.opened } r b c.opened (Nat.le_refl _) hb rfl
          hdeep' hgo
        have hinside := reads_space (space_skipSpace inner) hreads
        rw [hrest]
        rcases hb with rfl | rfl
        · refine ⟨t, d + 1, [], c', .array (.intro rfl) hinside (.intro rfl), ?_, hafter⟩
          obtain rfl : ms = [] := hinside.elements_nil
          rw [← hrest]
          exact hclosed.passed
        · refine ⟨t, d + 1, ms, c', .object (.intro rfl) hinside (.intro rfl), ?_, hafter⟩
          rw [← hrest]
          exact hclosed.passed
      case h_3 c₁ hc₁ =>
        rcases @value_sound lib _ _ _ hdeep hc₁ with ⟨-, t, d, hreads, hpassed⟩ |
          ⟨b, inner, ⟨⟩, -⟩
        exact ⟨t, d, [], c₁, hreads, hpassed, h⟩
    refine ⟨hvalue, ?_⟩
    intro c r b outer hlen hb hopen hdeep h
    obtain ⟨c₁, hc₁, h⟩ := bind_eq_ok.mp h
    obtain ⟨key, hlead, hkeyed⟩ := nextKey_sound hb hopen hc₁
    have hrest₁ := nextKey_rest hc₁
    have hdeep₁ : c₁.opened.length ≤ c₁.depth := by
      rw [hkeyed.opened, hkeyed.depth]
      exact hdeep
    obtain ⟨t, d, ms, c₂, hreads, hpassed, hafter⟩ := hvalue c₁ r (by omega) hdeep₁ h
    have hopen₂ : c₂.opened = b :: outer := by rw [hpassed.opened, hkeyed.opened, hopen]
    have hspace := space_skipSpace c₂.rest
    rw [hpassed.rest] at hspace
    rcases after_ok hopen₂ hafter with ⟨u, hu, hgo⟩ | ⟨u, hu, hgo⟩
    · rw [hpassed.rest] at hu
      rw [hu] at hspace
      have htaken := hreads.placed.2.1
      have hbefore := (Takes.space (space_skipSpace c₁.rest)).2
      have hcomma := (Takes.space hspace).2
      rw [List.length_cons] at hcomma
      obtain ⟨v, e, ns, c₃, hmore, hclosed, hafter₃⟩ := (ih u.length (by omega)).2
        { c₂.fromValue lib with rest := u } r b outer (Nat.le_refl _) hb
        ((fromValue_opened lib c₂).trans hopen₂)
        (by
          dsimp only
          rw [fromValue_opened, fromValue_depth]
          exact hpassed.deep) hgo
      refine ⟨v, max d e, _, c₃, ?_, hpassed.closed_more hb hopen hkeyed hclosed, hafter₃⟩
      exact inside_more hlead (space_skipSpace c₁.rest) hreads hspace (.intro rfl) hmore
    · rw [hpassed.rest] at hu
      rw [hu] at hspace
      refine ⟨u, d, _, _, ?_, hpassed.closed hb hopen hkeyed, hgo⟩
      exact inside_one hlead (space_skipSpace c₁.rest) hreads hspace

/-! ## Completeness -/

/-- A text that begins with space goes on with no number. -/
theorem without_numeral_of_space (h : Space UInt8.toNat t u) (hu : Without isNumeral u) :
    Without isNumeral t := by
  cases h using ReflTransGen.head_induction_on with
  | refl => exact hu
  | head hstep _ =>
    obtain ⟨hc⟩ := hstep
    refine without_cons _ ?_
    have hspace := (isSpace_iff _).mpr hc
    simp only [isSpace, Bool.or_eq_true, decide_eq_true_eq] at hspace
    rcases hspace with ((rfl | rfl) | rfl) | rfl <;> rfl

theorem number_head (h : Number UInt8.toNat s t) :
    ∃ b s', s = b :: s' ∧ (b = 0x2D ∨ isDigit b = true) := by
  obtain ⟨a, hsign, b, hint, -⟩ := h
  cases hsign with
  | single hsign => exact ⟨_, a, (one_iff (c := 0x2D)).mp hsign, .inl rfl⟩
  | refl =>
    rcases hint with h | ⟨u, ⟨hc⟩, -⟩
    · exact ⟨_, b, (one_iff (c := 0x30)).mp h, .inr rfl⟩
    · refine ⟨_, u, rfl, .inr ((isDigit_iff _).mpr ?_)⟩
      unfold IsLeading at hc
      unfold IsDigit
      omega

theorem scalar_complete (h : Scalar UInt8.toNat s t) :
    ∃ b s', s = b :: s' ∧ (Without isNumeral t → scalar s b = .ok t) ∧ isSpace b = false ∧
      b ≠ 0x5B ∧ b ≠ 0x7B ∧ b ≠ 0x5D := by
  rcases h with (h | h | h) | h | h
  · obtain rfl := (word_iff (w := ascii "true")).mp h
    exact ⟨0x74, _, rfl, fun _ => rfl, rfl, by decide, by decide, by decide⟩
  · obtain rfl := (word_iff (w := ascii "false")).mp h
    exact ⟨0x66, _, rfl, fun _ => rfl, rfl, by decide, by decide, by decide⟩
  · obtain rfl := (word_iff (w := ascii "null")).mp h
    exact ⟨0x6E, _, rfl, fun _ => rfl, rfl, by decide, by decide, by decide⟩
  · obtain ⟨b, s', rfl, hb⟩ := number_head h
    have hne : b ≠ 0x22 ∧ isSpace b = false ∧ b ≠ 0x5B ∧ b ≠ 0x7B ∧ b ≠ 0x5D := by
      rcases hb with rfl | hb
      · decide
      · have hdigit := (isDigit_iff b).mp hb
        unfold IsDigit at hdigit
        refine ⟨?_, Bool.eq_false_iff.mpr fun hs => ?_, ?_, ?_, ?_⟩
        · rintro rfl
          exact absurd hdigit (by decide)
        · have hspace := (isSpace_iff b).mp hs
          unfold IsSpace at hspace
          omega
        all_goals
          rintro rfl
          exact absurd hdigit (by decide)
    refine ⟨b, s', rfl, fun ht => ?_, hne.2⟩
    have hsign : (b = 0x2D || isDigit b) = true := by
      rcases hb with rfl | hb
      · rfl
      · rw [hb, Bool.or_true]
    rw [scalar, if_neg hne.1, if_pos hsign]
    exact number_complete h ht
  · obtain ⟨u, hquote, hrest⟩ := id h
    obtain rfl := (one_iff (c := 0x22)).mp hquote
    exact ⟨0x22, u, rfl, fun _ => string_iff.mpr h, rfl, by decide, by decide, by decide⟩

/-- What a value begins with. -/
theorem value_head (h : Reads UInt8.toNat .value s t d ms) :
    ∃ b s', s = b :: s' ∧ isSpace b = false ∧ b ≠ 0x5D := by
  cases h with
  | scalar h =>
    obtain ⟨b, s', rfl, -, hspace, -, -, hclose⟩ := scalar_complete h
    exact ⟨b, s', rfl, hspace, hclose⟩
  | emptyArray h =>
    obtain ⟨a, hopen, -⟩ := h
    exact ⟨_, a, (one_iff (c := 0x5B)).mp hopen, rfl, by decide⟩
  | emptyObject h =>
    obtain ⟨a, hopen, -⟩ := h
    exact ⟨_, a, (one_iff (c := 0x7B)).mp hopen, rfl, by decide⟩
  | array hopen => exact ⟨_, _, (one_iff (c := 0x5B)).mp hopen, rfl, by decide⟩
  | object hopen => exact ⟨_, _, (one_iff (c := 0x7B)).mp hopen, rfl, by decide⟩

theorem skipSpace_value (hspace : Space UInt8.toNat x s) (h : Reads UInt8.toNat .value s t d ms) :
    skipSpace x = s := by
  obtain ⟨b, s', rfl, hb, -⟩ := value_head h
  exact skipSpace_of_space hspace (without_cons s' hb)

theorem skipSpace_cons (hspace : Space UInt8.toNat x (b :: t)) (hb : isSpace b = false) :
    skipSpace x = b :: t :=
  skipSpace_of_space hspace (without_cons t hb)

theorem key_complete {k k' x y : Bytes} (hk : skipSpace c.rest = k) (hstr : Str UInt8.toNat k k')
    (hspace : Space UInt8.toNat k' x) (hcolon : One UInt8.toNat (· = 0x3A) x y) :
    ∃ c', c.key = .ok c' ∧ Keyed c (k.take (k.length - k'.length)) y c' := by
  obtain rfl := (one_iff (c := 0x3A)).mp hcolon
  have hrest : expect 0x3A (skipSpace k') = .ok y := by
    rw [skipSpace_cons hspace rfl]
    rfl
  subst hk
  refine ⟨_, bind_eq_ok.mpr ⟨k', string_iff.mpr hstr, bind_eq_ok.mpr ⟨y, hrest, rfl⟩⟩, ?_⟩
  split
  case isTrue hroot => exact ⟨rfl, rfl, rfl, rfl, rfl, (if_pos hroot).symm, rfl⟩
  case isFalse hroot => exact ⟨rfl, rfl, rfl, rfl, rfl, (if_neg hroot).symm, rfl⟩

/-- The checker goes on with what is inside of what is open. -/
def GoesOn (lib : Simdjson) (b : UInt8) (s t : Bytes) (d : Nat) (ms : List (Member UInt8)) :
    Prop :=
  ∀ (c : Checker) (outer u : Bytes), c.opened = b :: outer → skipSpace c.rest = skipSpace s →
    c.opened.length ≤ c.depth → t = closer b :: u →
    ∃ c', Closed lib c outer u d ms c' ∧ nextKey c >>= loop lib = after lib c'

/-- The checker goes on with a value. -/
def Passes (lib : Simdjson) (s t : Bytes) (d : Nat) (ms : List (Member UInt8)) : Prop :=
  ∀ c : Checker, skipSpace c.rest = s → c.opened.length ≤ c.depth → Without isNumeral t →
    ∃ c', Passed lib c s t d ms c' ∧ loop lib c = after lib c'

section

variable {b : UInt8} {s a t u u' v : Bytes} {d e : Nat} {ms ns : List (Member UInt8)}

/-- The checker comes to a value of what is open, its key read if it has one. -/
def Comes (b : UInt8) (s key a : Bytes) : Prop :=
  ∀ (c : Checker) (outer : Bytes), c.opened = b :: outer → skipSpace c.rest = skipSpace s →
    ∃ c' y, nextKey c = .ok c' ∧ Keyed c key y c' ∧ skipSpace y = a

theorem GoesOn.one (hb : b = 0x5B ∨ b = 0x7B) (hcomes : Comes b s key a) (h : Passes lib a t d ms)
    (hafter : Space UInt8.toNat t u) : GoesOn lib b s u d (memberOf b key a t) := by
  rintro c outer v hopen hspace hdeep rfl
  obtain ⟨c₁, y, hkey, hkeyed, hy⟩ := hcomes c outer hopen hspace
  have hdeep₁ : c₁.opened.length ≤ c₁.depth := by
    rw [hkeyed.opened, hkeyed.depth]
    exact hdeep
  have hclose : isSpace (closer b) = false ∧ isNumeral (closer b) = false := by
    rcases hb with rfl | rfl <;> decide
  have hnumeral := without_numeral_of_space hafter (without_cons v hclose.2)
  obtain ⟨c₂, hpassed, hloop⟩ := h c₁ (by rw [hkeyed.rest, hy]) hdeep₁ hnumeral
  have hopen₂ : c₂.opened = b :: outer := by rw [hpassed.opened, hkeyed.opened, hopen]
  refine ⟨_, hpassed.closed (u := v) hb hopen hkeyed, ?_⟩
  rw [hkey]
  refine hloop.trans (after_close hopen₂ ?_)
  rw [hpassed.rest]
  exact skipSpace_cons hafter hclose.1

theorem GoesOn.more (hb : b = 0x5B ∨ b = 0x7B) (hcomes : Comes b s key a) (h : Passes lib a t d ms)
    (hafter : Space UInt8.toNat t u) (hcomma : One UInt8.toNat (· = 0x2C) u u')
    (hrest : GoesOn lib b u' v e ns) : GoesOn lib b s v (max d e) (memberOf b key a t ++ ns) := by
  rintro c outer w hopen hspace hdeep rfl
  obtain rfl := (one_iff (c := 0x2C)).mp hcomma
  obtain ⟨c₁, y, hkey, hkeyed, hy⟩ := hcomes c outer hopen hspace
  have hdeep₁ : c₁.opened.length ≤ c₁.depth := by
    rw [hkeyed.opened, hkeyed.depth]
    exact hdeep
  have hnumeral := without_numeral_of_space hafter (without_cons u' rfl)
  obtain ⟨c₂, hpassed, hloop⟩ := h c₁ (by rw [hkeyed.rest, hy]) hdeep₁ hnumeral
  have hopen₂ : c₂.opened = b :: outer := by rw [hpassed.opened, hkeyed.opened, hopen]
  obtain ⟨c₃, hclosed, hgo⟩ := hrest { c₂.fromValue lib with rest := u' } outer w
    ((fromValue_opened lib c₂).trans hopen₂) rfl
    (by
      dsimp only
      rw [fromValue_opened, fromValue_depth]
      exact hpassed.deep) rfl
  refine ⟨c₃, hpassed.closed_more hb hopen hkeyed hclosed, ?_⟩
  rw [hkey]
  refine hloop.trans ((after_comma hopen₂ ?_).trans hgo)
  rw [hpassed.rest]
  exact skipSpace_cons hafter rfl

/-- An array or an object that is not empty. -/
theorem Passes.inside (hb : b = 0x5B ∨ b = 0x7B)
    (hfull : take (closer b) (skipSpace a) = none) (h : GoesOn lib b a (closer b :: t) d ms) :
    Passes lib (b :: a) t (d + 1) ms := by
  intro c hrest hdeep _
  obtain ⟨c', hclosed, hgo⟩ := h { c.toValue.enter a with opened := b :: c.opened } c.opened t rfl
    (by
      dsimp only [enter]
      exact skipSpace_of_space .refl (without_dropWhile isSpace a))
    (by
      simp only [enter, toValue_opened, List.length_cons]
      exact Nat.le_max_right _ _) rfl
  refine ⟨c', hrest ▸ hclosed.passed, ?_⟩
  rw [← hgo, loop_eq, value, toValue_rest, hrest]
  have hopened : (c.toValue.enter a).opened = c.opened := c.toValue_opened
  dsimp only
  rw [if_pos hb, hopened]
  have hnone : take (closer b) (c.toValue.enter a).rest = none := hfull
  rw [hnone]
  dsimp only
  cases nextKey { c.toValue.enter a with opened := b :: c.opened } <;> rfl

/-- An array or an object that is empty. -/
theorem Passes.empty (hb : b = 0x5B ∨ b = 0x7B) (hempty : skipSpace a = closer b :: t) :
    Passes lib (b :: a) t 1 [] := by
  intro c hrest _ _
  have hdepth : (c.toValue.enter a).depth = max c.depth (c.opened.length + 1) := by
    simp only [enter, toValue_depth, toValue_opened]
  refine ⟨_, hrest ▸ Passed.turn t hdepth, ?_⟩
  have htake : take (closer b) (c.toValue.enter a).rest = some t := take_eq_some.mpr hempty
  rw [loop_eq, value, toValue_rest, hrest]
  dsimp only
  rw [if_pos hb, htake]
  rfl

theorem Passes.scalar (h : Scalar UInt8.toNat s t) : Passes lib s t 0 [] := by
  intro c hrest hdeep ht
  obtain ⟨b, s', rfl, hscalar, -, harray, hobject, -⟩ := scalar_complete h
  have hdepth : c.toValue.depth = max c.depth (c.opened.length + 0) := by
    rw [toValue_depth]
    omega
  refine ⟨_, hrest ▸ Passed.turn t hdepth, ?_⟩
  rw [loop_eq, value, toValue_rest, hrest]
  dsimp only
  rw [if_neg (not_or.mpr ⟨harray, hobject⟩), hscalar ht]
  rfl

theorem comes_element (hbefore : Space UInt8.toNat s a) (h : Reads UInt8.toNat .value a t d ms) :
    Comes 0x5B s [] a := by
  intro c outer hopen hspace
  refine ⟨c, c.rest, ?_, Keyed.refl ?_, hspace.trans (skipSpace_value hbefore h)⟩
  · rw [nextKey, hopen]
    rfl
  · simp [inRootObject, hopen]

theorem comes_member {k k' x y : Bytes} (hkey : Space UInt8.toNat s k) (hstr : Str UInt8.toNat k k')
    (hbetween : Space UInt8.toNat k' x) (hcolon : One UInt8.toNat (· = 0x3A) x y)
    (hbefore : Space UInt8.toNat y a) (h : Reads UInt8.toNat .value a t d ms) :
    Comes 0x7B s (k.take (k.length - k'.length)) a ∧ take 0x7D (skipSpace s) = none := by
  obtain ⟨q, hquote, -⟩ := id hstr
  obtain rfl := (one_iff (c := 0x22)).mp hquote
  have hs : skipSpace s = 0x22 :: q := skipSpace_cons hkey rfl
  refine ⟨fun c outer hopen hspace => ?_, by rw [hs]; rfl⟩
  obtain ⟨c', hc', hkeyed⟩ := key_complete (hspace.trans hs) hstr hbetween hcolon
  refine ⟨c', y, ?_, hkeyed, skipSpace_value hbefore h⟩
  rw [nextKey, hopen]
  exact hc'

theorem full_elements (hbefore : Space UInt8.toNat s a) (h : Reads UInt8.toNat .value a t d ms) :
    take 0x5D (skipSpace s) = none := by
  rw [skipSpace_value hbefore h]
  obtain ⟨b, s', rfl, -, hclose⟩ := value_head h
  exact take_eq_none.mpr (without_cons s' (decide_eq_false hclose))

end

/-- What the grammar reads, the checker goes on with. -/
theorem goes_complete {p : Nonterminal} (h : Reads UInt8.toNat p s t d ms) :
    match p with
    | .value => Passes lib s t d ms
    | .elements => GoesOn lib 0x5B s t d ms ∧ take 0x5D (skipSpace s) = none
    | .members => GoesOn lib 0x7B s t d ms ∧ take 0x7D (skipSpace s) = none := by
  induction h with
  | scalar h => exact Passes.scalar h
  | emptyArray h =>
    obtain ⟨a, hopen, b, hspace, hclose⟩ := h
    obtain rfl := (one_iff (c := 0x5B)).mp hopen
    obtain rfl := (one_iff (c := 0x5D)).mp hclose
    exact Passes.empty (.inl rfl) (skipSpace_cons hspace rfl)
  | emptyObject h =>
    obtain ⟨a, hopen, b, hspace, hclose⟩ := h
    obtain rfl := (one_iff (c := 0x7B)).mp hopen
    obtain rfl := (one_iff (c := 0x7D)).mp hclose
    exact Passes.empty (.inr rfl) (skipSpace_cons hspace rfl)
  | array hopen h hclose ih =>
    obtain rfl := (one_iff (c := 0x5B)).mp hopen
    obtain rfl := (one_iff (c := 0x5D)).mp hclose
    have hinside := Passes.inside (.inl rfl) ih.2 ih.1
    rwa [h.elements_nil] at hinside
  | object hopen _ hclose ih =>
    obtain rfl := (one_iff (c := 0x7B)).mp hopen
    obtain rfl := (one_iff (c := 0x7D)).mp hclose
    exact Passes.inside (.inr rfl) ih.2 ih.1
  | element hbefore h hafter ih =>
    exact ⟨GoesOn.one (.inl rfl) (comes_element hbefore h) ih hafter, full_elements hbefore h⟩
  | elements hbefore h hafter hcomma hrest ih ihrest =>
    have hgo := GoesOn.more (.inl rfl) (comes_element hbefore h) ih hafter hcomma ihrest.1
    rw [hrest.elements_nil] at hgo
    exact ⟨hgo, full_elements hbefore h⟩
  | member hkey hstr hbetween hcolon hbefore h hafter ih =>
    obtain ⟨hcomes, hfull⟩ := comes_member hkey hstr hbetween hcolon hbefore h
    exact ⟨GoesOn.one (.inr rfl) hcomes ih hafter, hfull⟩
  | members hkey hstr hbetween hcolon hbefore h hafter hcomma _ ih ihrest =>
    obtain ⟨hcomes, hfull⟩ := comes_member hkey hstr hbetween hcolon hbefore h
    exact ⟨GoesOn.more (.inr rfl) hcomes ih hafter hcomma ihrest.1, hfull⟩

end Checker

/-! ## Check -/

/-- The checker accepts the JSON texts, by their bytes, with what the grammar says of them. -/
theorem check_eq (lib : Simdjson) (text : Bytes) (d : Nat) (carried : List Carried) :
    (∃ c, check lib text = .ok c ∧ c.depth = d ∧ c.carried = carried) ↔
      lib.validateUtf8 text = true ∧
        ∃ ms, Text UInt8.toNat text d ms ∧ carried = carriedOf lib text.length ms := by
  have hinitial : ∀ {s t : Bytes} {d : Nat} {ms : List (Member UInt8)} {c : Checker},
      Checker.Passed lib { text, rest := text } s t d ms c →
      c.opened = [] ∧ (c.fromValue lib).depth = d ∧
        (c.fromValue lib).carried = carriedOf lib text.length ms := by
    intro s t d ms c hpassed
    have hopened : c.opened = [] := hpassed.opened
    have hroot : c.inRootObject = false := by simp [Checker.inRootObject, hopened]
    refine ⟨hopened, ?_, ?_⟩
    · rw [Checker.fromValue_depth, hpassed.depth]
      simp
    · rw [Checker.fromValue_carried_inner hroot, hpassed.carried]
      rfl
  unfold check
  constructor
  · rintro ⟨r, h, rfl, rfl⟩
    split at h
    case isFalse => cases h
    case isTrue hvalid =>
      obtain ⟨t, d, ms, c, hreads, hpassed, hafter⟩ :=
        (Checker.goes_sound text.length).1 _ r (Nat.le_refl _) (Nat.le_refl _) h
      obtain ⟨hopened, hdepth, hcarried⟩ := hinitial hpassed
      rw [Checker.after_nil hopened] at hafter
      split at hafter
      case isFalse => cases hafter
      case isTrue hend =>
        cases hafter
        refine ⟨hvalid, ms, ⟨_, t, space_skipSpace text, ?_, ?_⟩, hcarried⟩
        · rw [hdepth]
          exact hreads
        · rw [hpassed.rest] at hend
          rw [← hend]
          exact space_skipSpace t
  · rintro ⟨hvalid, ms, ⟨s, t, hbefore, hreads, hend⟩, rfl⟩
    rw [if_pos hvalid]
    have hnil : skipSpace t = [] := skipSpace_of_space hend (by rintro c ⟨⟩)
    obtain ⟨c, hpassed, hloop⟩ := Checker.goes_complete hreads { text, rest := text }
      (Checker.skipSpace_value hbefore hreads) (Nat.le_refl _)
      (Checker.without_numeral_of_space hend (by rintro c ⟨⟩))
    obtain ⟨hopened, hdepth, hcarried⟩ := hinitial hpassed
    refine ⟨c.fromValue lib, ?_, hdepth, hcarried⟩
    rw [hloop, Checker.after_nil hopened, hpassed.rest, if_pos hnil]

/-! ## Characters -/

/-- What is relied on: `validate_utf8` accepts well-formed UTF-8, and a string is read as the
characters it stands for. -/
structure Simdjson.Lawful (lib : Simdjson) : Prop where
  validateUtf8 : ∀ text, lib.validateUtf8 text = true ↔ ∃ s, text = utf8 s
  readString : ∀ key : List Char, Str Char.toNat key [] →
    lib.readString (utf8 key) = (Json.keyName key).map utf8

theorem keyName_eq {lib : Simdjson} (hlib : lib.Lawful) {key : List Char}
    (h : Str Char.toNat key []) :
    keyName lib (utf8 key) = ((Json.keyName key).map utf8).getD [] := by
  have hslash : (0x5C ∈ utf8 key) ↔ '\\' ∈ key := by
    constructor
    · intro hmem
      obtain ⟨c, hc, hcode⟩ := (mem_utf8 (by decide)).mp ⟨_, hmem, rfl⟩
      obtain rfl := Char.toNat_inj.mp (hcode.trans (by rfl : (0x5C : UInt8).toNat = '\\'.toNat))
      exact hc
    · intro hmem
      obtain ⟨b, hb, hcode⟩ := (mem_utf8 (by decide)).mpr ⟨_, hmem, rfl⟩
      obtain rfl := UInt8.toNat_inj.mp (hcode.trans (by rfl : '\\'.toNat = (0x5C : UInt8).toNat))
      exact hb
  unfold keyName
  split
  case isTrue => rw [hlib.readString key h]
  case isFalse hplain =>
    obtain ⟨content, rfl⟩ := str_quotes h
    have hcontent : '\\' ∉ content := fun hmem =>
      hplain (hslash.mpr (List.mem_cons_of_mem _ (List.mem_append_left _ hmem)))
    have hname : Json.keyName ('"' :: (content ++ ['"'])) = some content := by
      rw [Json.keyName, List.drop_one, List.tail_cons, List.dropLast_concat,
        unescape_plain hcontent]
    have hbytes : utf8 ('"' :: (content ++ ['"'])) = 0x22 :: (utf8 content ++ [0x22]) := by
      simp only [utf8, List.flatMap_cons, List.flatMap_append, List.flatMap_nil]
      rfl
    rw [hname, hbytes, Option.map_some, Option.getD_some, substr, List.drop_one, List.tail_cons,
      List.length_cons, List.length_append, List.length_singleton]
    exact List.take_left

/-- The members of a root object that are named `params` or `result`, with the bytes their
values take in a text of this size. -/
def membersCarried (size : Nat) (ms : List (Member Char)) : List Carried :=
  ms.filterMap fun m =>
    if Json.keyName m.key = some "params".toList ∨ Json.keyName m.key = some "result".toList then
      some ⟨Json.keyName m.key = some "params".toList, size - (utf8 m.value).length,
        size - (utf8 m.rest).length⟩
    else none

theorem carriedOf_encode {lib : Simdjson} (hlib : lib.Lawful) (size : Nat)
    {ms : List (Member Char)} (hkeys : ∀ m ∈ ms, Str Char.toNat m.key []) :
    carriedOf lib size (ms.map (Member.encode String.utf8EncodeChar)) =
      membersCarried size ms := by
  have hname : ∀ w : List Char, w ≠ [] → (∀ c ∈ w, c.toNat < 0x80) → ∀ m ∈ ms,
      keyName lib (utf8 m.key) = utf8 w ↔ Json.keyName m.key = some w := by
    intro w hne hw m hm
    rw [keyName_eq hlib (hkeys m hm)]
    cases Json.keyName m.key with
    | none =>
      simp only [Option.map_none, Option.getD_none, reduceCtorEq, iff_false]
      exact fun h => hne (utf8_inj_ascii (s := []) hw h).symm
    | some name =>
      rw [Option.map_some, Option.getD_some, Option.some.injEq]
      exact ⟨utf8_inj_ascii hw, congrArg utf8⟩
  rw [carriedOf, membersCarried, List.filterMap_map]
  refine List.filterMap_congr fun m hm => ?_
  have hparams := hname "params".toList (by decide) (by simp) m hm
  have hresult := hname "result".toList (by decide) (by simp) m hm
  have hp : utf8 "params".toList = ascii "params" := by decide
  have hr : utf8 "result".toList = ascii "result" := by decide
  rw [hp] at hparams
  rw [hr] at hresult
  unfold utf8 at hparams hresult ⊢
  simp only [Function.comp_apply, Member.encode, hparams, hresult]

/-! ## Spans -/

/-- A suffix is what is left from where it begins. -/
theorem drop_of_suffix (h : t <:+ s) : s.drop (s.length - t.length) = t := by
  obtain ⟨front, rfl⟩ := h
  rw [List.length_append, Nat.add_sub_cancel, List.drop_left]

/-- What the checker notes lies in the text, apart and in order, each a value. -/
theorem carriedOf_placed (lib : Simdjson) {text : Bytes} (h : Text UInt8.toNat text d ms) :
    ((carriedOf lib text.length ms).Pairwise fun a b => a.stop ≤ b.start) ∧
      ∀ a ∈ carriedOf lib text.length ms, a.start < a.stop ∧ a.stop ≤ text.length ∧
        ∃ d ns, Reads UInt8.toNat .value (text.drop a.start) (text.drop a.stop) d ns := by
  obtain ⟨s, t, hbefore, hreads, -⟩ := h
  obtain ⟨-, -, hplaced, hpair⟩ := hreads.placed
  have hs := (Takes.space hbefore).1
  constructor
  · refine List.pairwise_filterMap.mpr (hpair.imp fun hle a ha b hb => ?_)
    obtain ⟨-, ⟨⟩⟩ := Option.ite_none_right_eq_some.mp ha
    obtain ⟨-, ⟨⟩⟩ := Option.ite_none_right_eq_some.mp hb
    exact Nat.sub_le_sub_left hle _
  · intro a ha
    obtain ⟨m, hm, heq⟩ := List.mem_filterMap.mp ha
    obtain ⟨-, ⟨⟩⟩ := Option.ite_none_right_eq_some.mp heq
    have hp := hplaced m hm
    obtain ⟨e, ns, hvalue⟩ := hp.reads
    have hsuffix := hp.value.trans hs
    have hlen := hsuffix.length_le
    have hne := hp.nonempty
    refine ⟨by dsimp only; omega, Nat.sub_le _ _, e, ns, ?_⟩
    dsimp only
    rw [drop_of_suffix hsuffix, drop_of_suffix (hvalue.placed.1.trans hsuffix)]
    exact hvalue

/-- Well-formed UTF-8 and the strings of RFC 8259, decided by Unicode characters. -/
def standard : Simdjson where
  validateUtf8 text := text.toByteArray.validateUTF8
  readString quoted :=
    quoted.toByteArray.utf8Decode?.bind fun s => (Json.keyName s.toList).map utf8

theorem standard_lawful : standard.Lawful where
  validateUtf8 text := by
    refine ByteArray.validateUTF8_eq_true_iff.trans ⟨?_, ?_⟩
    · rintro ⟨s, hs⟩
      exact ⟨s, List.toByteArray_inj.mp hs⟩
    · rintro ⟨s, rfl⟩
      exact ⟨s, rfl⟩
  readString key _ := by
    have hdecode : (utf8 key).toByteArray.utf8Decode? = some key.toArray :=
      List.utf8Decode?_utf8Encode
    simp only [standard, hdecode, Option.bind_some]

/-- `check` accepts the JSON texts of RFC 8259, in UTF-8: it finds how deeply one nests, and of a
root object the members named `params` or `result`, whose spans are values, apart, in order and
in the text. The skip of a word at a time reads nothing past the text, and a string ends or
breaks where it does byte by byte. -/
theorem check_json {lib : Simdjson} (hlib : lib.Lawful) (text : Bytes) :
    (∀ d carried, (∃ c, check lib text = .ok c ∧ c.depth = d ∧ c.carried = carried) ↔
      ∃ s ms, text = utf8 s ∧ Text Char.toNat s d ms ∧
        carried = membersCarried text.length ms) ∧
    (∀ c, check lib text = .ok c →
      (c.carried.Pairwise fun a b => a.stop ≤ b.start) ∧
      ∀ a ∈ c.carried, a.start < a.stop ∧ a.stop ≤ text.length ∧
        ∃ d ns, Reads UInt8.toNat .value (text.drop a.start) (text.drop a.stop) d ns) ∧
    ∀ s, skipPlain s ≠ .error .pastEnd ∧ stringRest s = stringRestBytes s := by
  refine ⟨fun d carried => ?_, fun c hc => ?_, fun s => ⟨?_, stringRest_eq s⟩⟩
  · rw [check_eq, hlib.validateUtf8]
    constructor
    · rintro ⟨⟨s, rfl⟩, ms', htext, rfl⟩
      obtain ⟨ms, rfl, hchars⟩ := (Text.encode utf8_transparent utf8EncodeChar_ne_nil).mp htext
      obtain ⟨a, b, -, hreads, -⟩ := id hchars
      exact ⟨s, ms, rfl, hchars,
        carriedOf_encode hlib _ fun m hm => (hreads.placed.2.2.1 m hm).key⟩
    · rintro ⟨s, ms, rfl, hchars, rfl⟩
      obtain ⟨a, b, -, hreads, -⟩ := id hchars
      refine ⟨⟨s, rfl⟩, _,
        (Text.encode utf8_transparent utf8EncodeChar_ne_nil).mpr ⟨ms, rfl, hchars⟩, ?_⟩
      exact (carriedOf_encode hlib _ fun m hm => (hreads.placed.2.2.1 m hm).key).symm
  · obtain ⟨-, ms, htext, hcarried⟩ :=
      (check_eq lib text c.depth c.carried).mp ⟨c, hc, rfl, rfl⟩
    rw [hcarried]
    exact carriedOf_placed lib htext
  · obtain ⟨front, t, ht, -⟩ := skipPlain_spec s
    rw [ht]
    exact fun h => by cases h

theorem check_json_result : ∃ c, check standard (utf8 "\x7b\"result\":1\x7d".toList) = .ok c ∧
    c.depth = 1 ∧ c.carried = [⟨false, 10, 11⟩] := by
  have hkey : Str Char.toNat ['"', 'r', 'e', 's', 'u', 'l', 't', '"', ':', '1', '}']
      [':', '1', '}'] := by
    refine ⟨_, .intro rfl, ['"', ':', '1', '}'], ?_, .intro rfl⟩
    iterate 6 refine .head (.inl (.intro ⟨by decide, by decide, by decide⟩)) ?_
    exact .refl
  have hone : Number Char.toNat ['1', '}'] ['}'] :=
    ⟨_, .refl, _, .inr ⟨_, .intro ⟨by decide, by decide⟩, .refl⟩, _, .refl, .refl⟩
  have htext : Text Char.toNat "\x7b\"result\":1\x7d".toList 1
      [⟨"\"result\"".toList, ['1', '}'], ['}']⟩] :=
    ⟨_, [], .refl, .object (.intro rfl)
      (.member .refl hkey .refl (.intro rfl) .refl (.scalar (.inr (.inl hone))) .refl)
      (.intro rfl), .refl⟩
  exact ((check_json standard_lawful _).1 1 _).mpr ⟨_, _, rfl, htext, by decide⟩

end Kotatsu.Ipc.Codec.JsonCodec
