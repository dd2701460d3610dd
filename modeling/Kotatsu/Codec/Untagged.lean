import Kotatsu.Core.FirstSome

/-!
# Variants without tags

A variant is read by probing its alternatives: first those the kind of the value matches
exactly, then those that take it only widened, and at last the last alternative once more.
A nested variant takes part in a pass with its own alternatives and is as compatible as
they are, so a pass over nested variants is one over the leaves. How alternatives are
grouped does not show.
-/

namespace Kotatsu.Codec.Untagged

open Kotatsu.Core

/-- `meta::type_kind`. -/
inductive TypeKind where
  | null
  | boolean
  | int8
  | int16
  | int32
  | int64
  | uint8
  | uint16
  | uint32
  | uint64
  | float32
  | float64
  | character
  | string
  | bytes
  | enumeration
  | array
  | set
  | map
  | tuple
  | struct
  | variant
  | optional
  | pointer
  | unknown
  | any
deriving DecidableEq, Repr

/-- What `kind_compatible` asks of an alternative that is no variant: whether it is visited
by a `deserialize_visit`, represented dynamically or read by its tags, and of what kind its
representation is. An optional and a pointer are nullable. -/
inductive Shape where
  | visited
  | dynamic
  | tagged
  | boolean
  | integer
  | floating
  | character
  | string
  | null
  | nullable (wrapped : Shape)
  | struct
  | array
  | set
  | map
  | enumeration
  | other
deriving Repr

/-- `kind_compatible`, of an alternative that is no variant. -/
def Shape.kindCompatible (src : TypeKind) (widen : Bool) : Shape → Bool
  | .visited => true
  | .dynamic => true
  | .tagged => src == .unknown || src == .struct
  | .boolean => src == .unknown || src == .boolean
  | .integer => src == .unknown || src == .int64 || src == .uint64
  | .floating =>
    src == .unknown || src == .float64 || (widen && (src == .int64 || src == .uint64))
  | .character => src == .unknown || src == .string
  | .string => src == .unknown || src == .string
  | .null => src == .unknown || src == .null
  | .nullable wrapped => src == .unknown || src == .null || wrapped.kindCompatible src widen
  | .struct => src == .unknown || src == .struct
  | .array => src == .unknown || src == .array
  | .set => src == .unknown || src == .array
  | .map => src == .unknown || src == .struct
  | .enumeration => src == .unknown || src == .string || src == .int64 || src == .uint64
  | .other => true

/-! ## Alternatives -/

section Model

variable {V Value E Entry : Type}

/-- What decoding a leaf comes to: its value or its error, where the visitor stands, and
the unknown fields that were met. -/
structure Decoded (V Value E Entry : Type) where
  result : Except E Value
  visitor : V
  reported : List Entry

/-- An alternative that is no variant. -/
structure Leaf (V Value E Entry : Type) where
  shape : Shape
  decode : V → Decoded V Value E Entry

mutual

/-- An alternative of a variant. -/
inductive Alternative (V Value E Entry : Type) where
  | leaf (leaf : Leaf V Value E Entry)
  | variant (alternatives : Alternatives V Value E Entry)

/-- The alternatives of a variant, of which there is one at least. -/
inductive Alternatives (V Value E Entry : Type) where
  | last (alternative : Alternative V Value E Entry)
  | cons (alternative : Alternative V Value E Entry) (rest : Alternatives V Value E Entry)

end

mutual

/-- The values of an alternative. -/
def Alternative.Held : Alternative V Value E Entry → Type
  | .leaf _ => Value
  | .variant alternatives => alternatives.Held

/-- The values of a variant: those of an alternative, at its index. -/
def Alternatives.Held : Alternatives V Value E Entry → Type
  | .last alternative => alternative.Held
  | .cons alternative rest => alternative.Held ⊕ rest.Held

end

mutual

/-- The leaves of an alternative, from left to right. -/
def Alternative.leaves : Alternative V Value E Entry → List (Leaf V Value E Entry)
  | .leaf leaf => [leaf]
  | .variant alternatives => alternatives.leaves

/-- The leaves of a variant, from left to right. -/
def Alternatives.leaves : Alternatives V Value E Entry → List (Leaf V Value E Entry)
  | .last alternative => alternative.leaves
  | .cons alternative rest => alternative.leaves ++ rest.leaves

end

mutual

/-- Which leaf an alternative holds, and its value. -/
def Alternative.read : (alternative : Alternative V Value E Entry) → alternative.Held → Nat × Value
  | .leaf _, value => (0, value)
  | .variant alternatives, held => alternatives.read held

/-- Which leaf a variant holds, and its value. -/
def Alternatives.read :
    (alternatives : Alternatives V Value E Entry) → alternatives.Held → Nat × Value
  | .last alternative, held => alternative.read held
  | .cons alternative _, .inl held => alternative.read held
  | .cons alternative rest, .inr held =>
    (alternative.leaves.length + (rest.read held).1, (rest.read held).2)

end

mutual

/-- `kind_compatible`. -/
def Alternative.kindCompatible (src : TypeKind) (widen : Bool) :
    Alternative V Value E Entry → Bool
  | .leaf leaf => leaf.shape.kindCompatible src widen
  | .variant alternatives => alternatives.kindCompatible src widen

/-- A variant is as compatible as its alternatives. -/
def Alternatives.kindCompatible (src : TypeKind) (widen : Bool) :
    Alternatives V Value E Entry → Bool
  | .last alternative => alternative.kindCompatible src widen
  | .cons alternative rest =>
    alternative.kindCompatible src widen || rest.kindCompatible src widen

end

/-! ## Passes -/

/-- A visitor with `peek_kind` and `try_read`: what it is after a probe, from what it was
and from what the probe made of it. -/
structure Visitor (V : Type) where
  peekKind : V → TypeKind
  kept : V → V → V
  dropped : V → V → V
  unmoved : ∀ before after, dropped before after = before

/-- The unknown fields met so far, where they are collected. -/
abbrev Sink (Entry : Type) := Option (List Entry)

/-- What a probe comes to: what it claims the value as, the visitor and the sink. -/
structure Probe (V Entry A : Type) where
  claimed : Option A
  visitor : V
  sink : Sink Entry

/-- The same probe, of what is made of what it claims. -/
def Probe.map {A B : Type} (f : A → B) (probe : Probe V Entry A) : Probe V Entry B :=
  { probe with claimed := probe.claimed.map f }

/-- `try_read`: the probe reads the visitor, or a copy of it, as it stands, and its error is
thrown away. -/
def Visitor.tryRead {A : Type} (visitor : Visitor V) (vis : V) (fn : V → Probe V Entry A) :
    Probe V Entry A :=
  let fork := fn vis
  match fork.claimed with
  | some _ => { fork with visitor := visitor.kept vis fork.visitor }
  | none => { fork with visitor := visitor.dropped vis fork.visitor }

/-- The admission of an alternative to a pass. -/
def admits (nested strict widened widen : Bool) : Bool :=
  if widen then (nested || !strict) && widened else strict

/-- The body of `untagged_variant_pass` for an alternative. -/
def tryAlternative {A : Type} (visitor : Visitor V) (admitted : Bool) (vis : V) (sink : Sink Entry)
    (fn : V → Probe V Entry A) : Probe V Entry A :=
  if admitted then
    let reported := (sink.map List.length).getD 0
    let probe := visitor.tryRead vis fn
    match probe.claimed with
    | some _ => probe
    | none => { probe with sink := probe.sink.map (List.take reported) }
  else { claimed := none, visitor := vis, sink := sink }

/-- `construct_and_visit` of a leaf, as a probe. -/
def Leaf.probe (leaf : Leaf V Value E Entry) (sink : Sink Entry) (fork : V) :
    Probe V Entry Value :=
  let decoded := leaf.decode fork
  { claimed := decoded.result.toOption, visitor := decoded.visitor,
    sink := sink.map (· ++ decoded.reported) }

mutual

/-- One alternative of `untagged_variant_pass`. -/
def Alternative.pass (visitor : Visitor V) (src : TypeKind) (widen : Bool) :
    (alternative : Alternative V Value E Entry) → V → Sink Entry →
      Probe V Entry alternative.Held
  | .leaf leaf, vis, sink =>
    tryAlternative visitor
      (admits false (leaf.shape.kindCompatible src false) (leaf.shape.kindCompatible src true)
        widen) vis sink (leaf.probe sink)
  | .variant alternatives, vis, sink =>
    tryAlternative visitor
      (admits true (alternatives.kindCompatible src false) (alternatives.kindCompatible src true)
        widen) vis sink fun fork => alternatives.pass visitor src widen fork sink

/-- `untagged_variant_pass`. -/
def Alternatives.pass (visitor : Visitor V) (src : TypeKind) (widen : Bool) :
    (alternatives : Alternatives V Value E Entry) → V → Sink Entry →
      Probe V Entry alternatives.Held
  | .last alternative, vis, sink => alternative.pass visitor src widen vis sink
  | .cons alternative rest, vis, sink =>
    let probe := alternative.pass visitor src widen vis sink
    match probe.claimed with
    | some held => { probe with claimed := some (.inl held) }
    | none => (rest.pass visitor src widen probe.visitor probe.sink).map .inr

end

/-! ## Decoding -/

/-- What a decode comes to: the value or the error, the visitor and the sink. -/
structure Outcome (V E Entry A : Type) where
  result : Except E A
  visitor : V
  sink : Sink Entry

/-- `decode_untagged_variant`, from how the last alternative is read. -/
def Alternatives.decodeOr (visitor : Visitor V) (alternatives : Alternatives V Value E Entry)
    (last : V → Sink Entry → Outcome V E Entry alternatives.Held) (vis : V) (sink : Sink Entry) :
    Outcome V E Entry alternatives.Held :=
  let src := visitor.peekKind vis
  let exact := alternatives.pass visitor src false vis sink
  match exact.claimed with
  | some held => { result := .ok held, visitor := exact.visitor, sink := exact.sink }
  | none =>
    let widened := alternatives.pass visitor src true exact.visitor exact.sink
    match widened.claimed with
    | some held => { result := .ok held, visitor := widened.visitor, sink := widened.sink }
    | none => last widened.visitor widened.sink

mutual

/-- `construct_and_visit` of an alternative. -/
def Alternative.construct (visitor : Visitor V) :
    (alternative : Alternative V Value E Entry) → V → Sink Entry →
      Outcome V E Entry alternative.Held
  | .leaf leaf, vis, sink =>
    let decoded := leaf.decode vis
    { result := decoded.result, visitor := decoded.visitor,
      sink := sink.map (· ++ decoded.reported) }
  | .variant alternatives, vis, sink =>
    alternatives.decodeOr visitor (alternatives.constructLast visitor) vis sink

/-- `construct_and_visit` of the last alternative. -/
def Alternatives.constructLast (visitor : Visitor V) :
    (alternatives : Alternatives V Value E Entry) → V → Sink Entry →
      Outcome V E Entry alternatives.Held
  | .last alternative, vis, sink => alternative.construct visitor vis sink
  | .cons _ rest, vis, sink =>
    let outcome := rest.constructLast visitor vis sink
    { outcome with result := outcome.result.map .inr }

end

/-- `decode_untagged_variant`. -/
def Alternatives.decodeUntaggedVariant (visitor : Visitor V)
    (alternatives : Alternatives V Value E Entry) (vis : V) (sink : Sink Entry) :
    Outcome V E Entry alternatives.Held :=
  alternatives.decodeOr visitor (alternatives.constructLast visitor) vis sink

/-! ## A pass over the leaves -/

/-- What a leaf claims at a level: its value and the unknown fields it met. -/
def Leaf.attempt (src : TypeKind) (widen : Bool) (vis : V) (leaf : Leaf V Value E Entry) :
    Option (Value × List Entry) :=
  if admits false (leaf.shape.kindCompatible src false) (leaf.shape.kindCompatible src true)
      widen then
    (leaf.decode vis).result.toOption.map fun value => (value, (leaf.decode vis).reported)
  else none

/-- A probe claims the leaf that is found and reports its unknown fields, or claims none. -/
def Probe.Claims {A : Type} (found : Option (Nat × Value × List Entry)) (read : A → Nat × Value)
    (sink : Sink Entry) (probe : Probe V Entry A) : Prop :=
  match found with
  | some (i, value, reported) =>
    (∃ held, probe.claimed = some held ∧ read held = (i, value)) ∧
      probe.sink = sink.map (· ++ reported)
  | none => probe.claimed = none ∧ ∃ more, probe.sink = sink.map (· ++ more)

/-- And where it claims none, nothing has changed. -/
def Probe.Settles {A : Type} (found : Option (Nat × Value × List Entry))
    (read : A → Nat × Value) (vis : V) (sink : Sink Entry) (probe : Probe V Entry A) : Prop :=
  probe.Claims found read sink ∧ (found = none → probe.visitor = vis ∧ probe.sink = sink)

/-- What was reported is taken back. -/
theorem take_reported (sink : Sink Entry) (more : List Entry) :
    (sink.map (· ++ more)).map (List.take ((sink.map List.length).getD 0)) = sink := by
  cases sink with
  | none => rfl
  | some entries =>
    simp only [Option.map_some, Option.getD_some, List.take_left']

/-- An alternative that is not admitted holds nothing to be found, and one whose probe
fails leaves no trace. -/
theorem tryAlternative_settles {A : Type} {visitor : Visitor V} {admitted : Bool} {vis : V}
    {sink : Sink Entry} {fn : V → Probe V Entry A} {found : Option (Nat × Value × List Entry)}
    {read : A → Nat × Value} (hopen : admitted = true → (fn vis).Claims found read sink)
    (hskip : admitted = false → found = none) :
    (tryAlternative visitor admitted vis sink fn).Settles found read vis sink := by
  cases admitted with
  | false =>
    rw [hskip rfl]
    refine ⟨⟨rfl, [], ?_⟩, fun _ => ⟨rfl, rfl⟩⟩
    simp only [tryAlternative, Bool.false_eq_true, if_false, List.append_nil, Option.map_id']
  | true =>
    have hclaims := hopen rfl
    rw [tryAlternative, if_pos rfl, Visitor.tryRead]
    dsimp only
    cases found with
    | some found =>
      obtain ⟨i, value, reported⟩ := found
      obtain ⟨⟨held, hheld, hread⟩, hsink⟩ := hclaims
      rw [hheld]
      exact ⟨⟨⟨held, rfl, hread⟩, hsink⟩, nofun⟩
    | none =>
      obtain ⟨hnone, more, hsink⟩ := hclaims
      rw [hnone]
      dsimp only
      rw [hsink, take_reported]
      refine ⟨⟨rfl, [], ?_⟩, fun _ => ⟨visitor.unmoved vis _, rfl⟩⟩
      simp only [List.append_nil, Option.map_id']

theorem Leaf.probe_claims (leaf : Leaf V Value E Entry) (src : TypeKind) (widen : Bool) (vis : V)
    (sink : Sink Entry)
    (h : admits false (leaf.shape.kindCompatible src false)
      (leaf.shape.kindCompatible src true) widen = true) :
    (leaf.probe sink vis).Claims (firstSome (Leaf.attempt src widen vis) [leaf])
      (fun value => (0, value)) sink := by
  rw [firstSome, Leaf.attempt, if_pos h, Leaf.probe]
  cases (leaf.decode vis).result with
  | error e => exact ⟨rfl, _, rfl⟩
  | ok value => exact ⟨⟨value, rfl, rfl⟩, rfl⟩

theorem Leaf.attempt_of_not_admits {leaf : Leaf V Value E Entry} {src : TypeKind} {widen : Bool}
    {vis : V} (h : admits false (leaf.shape.kindCompatible src false)
      (leaf.shape.kindCompatible src true) widen = false) :
    leaf.attempt src widen vis = none := by
  rw [Leaf.attempt, h]
  rfl

/-- A leaf is admitted only at a level it is compatible at. -/
theorem Leaf.attempt_of_not_compatible {leaf : Leaf V Value E Entry} {src : TypeKind}
    {widen : Bool} {vis : V} (h : leaf.shape.kindCompatible src widen = false) :
    leaf.attempt src widen vis = none := by
  refine Leaf.attempt_of_not_admits ?_
  cases widen with
  | false => exact h
  | true => rw [admits, if_pos rfl, h, Bool.and_false]

mutual

/-- An alternative is as compatible as its leaves. -/
theorem Alternative.kindCompatible_eq (src : TypeKind) (widen : Bool) :
    ∀ alternative : Alternative V Value E Entry, alternative.kindCompatible src widen =
      alternative.leaves.any fun leaf => leaf.shape.kindCompatible src widen
  | .leaf leaf => by
    rw [Alternative.kindCompatible, Alternative.leaves, List.any_cons, List.any_nil,
      Bool.or_false]
  | .variant alternatives => by
    rw [Alternative.kindCompatible, Alternative.leaves]
    exact alternatives.kindCompatible_eq src widen

theorem Alternatives.kindCompatible_eq (src : TypeKind) (widen : Bool) :
    ∀ alternatives : Alternatives V Value E Entry, alternatives.kindCompatible src widen =
      alternatives.leaves.any fun leaf => leaf.shape.kindCompatible src widen
  | .last alternative => by
    rw [Alternatives.kindCompatible, Alternatives.leaves]
    exact alternative.kindCompatible_eq src widen
  | .cons alternative rest => by
    rw [Alternatives.kindCompatible, Alternatives.leaves, List.any_append,
      alternative.kindCompatible_eq src widen, rest.kindCompatible_eq src widen]

end

/-- A variant that is not admitted has no leaf that is. -/
theorem Alternatives.firstSome_of_not_admits {alternatives : Alternatives V Value E Entry}
    {src : TypeKind} {widen : Bool} (vis : V)
    (h : admits true (alternatives.kindCompatible src false)
      (alternatives.kindCompatible src true) widen = false) :
    firstSome (Leaf.attempt src widen vis) alternatives.leaves = none := by
  have hlevel : alternatives.kindCompatible src widen = false := by
    cases widen with
    | false => exact h
    | true => rwa [admits, if_pos rfl, Bool.true_or, Bool.true_and] at h
  rw [Alternatives.kindCompatible_eq, List.any_eq_false] at hlevel
  rw [firstSome_eq_none]
  exact fun leaf hleaf =>
    Leaf.attempt_of_not_compatible (Bool.eq_false_iff.mpr (hlevel leaf hleaf))

/-- What the rest of a variant claims stands behind the leaves of its first alternative. -/
theorem Probe.Settles.inr {alternative : Alternative V Value E Entry}
    {rest : Alternatives V Value E Entry} {found : Option (Nat × Value × List Entry)} {vis : V}
    {sink : Sink Entry} {probe : Probe V Entry rest.Held}
    (h : probe.Settles found rest.read vis sink) :
    (probe.map (.inr : rest.Held → (Alternatives.cons alternative rest).Held)).Settles
      (found.map fun found => (alternative.leaves.length + found.1, found.2))
      (Alternatives.cons alternative rest).read vis sink := by
  cases found with
  | some found =>
    obtain ⟨i, value, reported⟩ := found
    obtain ⟨⟨⟨held, hheld, hread⟩, hsink⟩, -⟩ := h
    refine ⟨⟨⟨.inr held, ?_, ?_⟩, hsink⟩, nofun⟩
    · rw [Probe.map, hheld]
      rfl
    · rw [Alternatives.read, hread]
  | none =>
    obtain ⟨⟨hnone, hsink⟩, hstays⟩ := h
    refine ⟨⟨?_, hsink⟩, fun _ => hstays rfl⟩
    rw [Probe.map, hnone]
    rfl

mutual

/-- A pass over an alternative is one over its leaves. -/
theorem Alternative.pass_settles (visitor : Visitor V) (src : TypeKind) (widen : Bool) :
    ∀ (alternative : Alternative V Value E Entry) (vis : V) (sink : Sink Entry),
      (alternative.pass visitor src widen vis sink).Settles
        (firstSome (Leaf.attempt src widen vis) alternative.leaves) alternative.read vis sink
  | .leaf leaf, vis, sink => by
    rw [Alternative.pass, Alternative.leaves]
    refine tryAlternative_settles (leaf.probe_claims src widen vis sink) fun hskip => ?_
    rw [firstSome, Leaf.attempt_of_not_admits hskip]
    rfl
  | .variant alternatives, vis, sink => by
    rw [Alternative.pass, Alternative.leaves]
    exact tryAlternative_settles
      (fun _ => (alternatives.pass_settles visitor src widen vis sink).1)
      (alternatives.firstSome_of_not_admits vis)

/-- A pass over the alternatives of a variant is one over its leaves. -/
theorem Alternatives.pass_settles (visitor : Visitor V) (src : TypeKind) (widen : Bool) :
    ∀ (alternatives : Alternatives V Value E Entry) (vis : V) (sink : Sink Entry),
      (alternatives.pass visitor src widen vis sink).Settles
        (firstSome (Leaf.attempt src widen vis) alternatives.leaves) alternatives.read vis sink
  | .last alternative, vis, sink => by
    rw [Alternatives.pass, Alternatives.leaves]
    exact alternative.pass_settles visitor src widen vis sink
  | .cons alternative rest, vis, sink => by
    have hfirst := alternative.pass_settles visitor src widen vis sink
    rw [Alternatives.pass, Alternatives.leaves, firstSome_append]
    cases hfound : firstSome (Leaf.attempt src widen vis) alternative.leaves with
    | some found =>
      obtain ⟨i, value, reported⟩ := found
      rw [hfound] at hfirst
      obtain ⟨⟨⟨held, hheld, hread⟩, hsink⟩, -⟩ := hfirst
      rw [hheld]
      exact ⟨⟨⟨.inl held, rfl, hread⟩, hsink⟩, nofun⟩
    | none =>
      rw [hfound] at hfirst
      obtain ⟨⟨hnone, -⟩, hstays⟩ := hfirst
      obtain ⟨hvisitor, hsink⟩ := hstays rfl
      rw [hnone, Option.none_or]
      dsimp only
      rw [hvisitor, hsink]
      exact (rest.pass_settles visitor src widen vis sink).inr

end

/-! ## The last alternative -/

/-- Where no leaf is found at either level, a variant is read as its last alternative. -/
theorem Alternatives.decodeOr_last {visitor : Visitor V}
    {alternatives : Alternatives V Value E Entry} {vis : V}
    (hnone : ∀ leaf ∈ alternatives.leaves, ∀ widen,
      leaf.attempt (visitor.peekKind vis) widen vis = none)
    (last : V → Sink Entry → Outcome V E Entry alternatives.Held) (sink : Sink Entry) :
    alternatives.decodeOr visitor last vis sink = last vis sink := by
  have hlevel (widen : Bool) :
      (alternatives.pass visitor (visitor.peekKind vis) widen vis sink).claimed = none ∧
        (alternatives.pass visitor (visitor.peekKind vis) widen vis sink).visitor = vis ∧
        (alternatives.pass visitor (visitor.peekKind vis) widen vis sink).sink = sink := by
    have hpass := alternatives.pass_settles visitor (visitor.peekKind vis) widen vis sink
    rw [firstSome_eq_none.mpr fun leaf hleaf => hnone leaf hleaf widen] at hpass
    exact ⟨hpass.1.1, hpass.2 rfl⟩
  obtain ⟨hexact, hvisitor, hsink⟩ := hlevel false
  obtain ⟨hwidened, hvisitor', hsink'⟩ := hlevel true
  rw [Alternatives.decodeOr]
  dsimp only
  rw [hexact]
  dsimp only
  rw [hvisitor, hsink, hwidened]
  dsimp only
  rw [hvisitor', hsink']

/-- An outcome is that of a leaf, the one at a place. -/
def Outcome.IsOf {A : Type} (outcome : Outcome V E Entry A) (read : A → Nat × Value)
    (i : Nat) (decoded : Decoded V Value E Entry) (sink : Sink Entry) : Prop :=
  outcome.result.map read = decoded.result.map (fun value => (i, value)) ∧
    outcome.sink = sink.map (· ++ decoded.reported)

theorem Outcome.IsOf.inr {alternative : Alternative V Value E Entry}
    {rest : Alternatives V Value E Entry} {outcome : Outcome V E Entry rest.Held} {i : Nat}
    {decoded : Decoded V Value E Entry} {sink : Sink Entry}
    (h : outcome.IsOf rest.read i decoded sink) :
    ({ outcome with result := outcome.result.map .inr } :
      Outcome V E Entry (Alternatives.cons alternative rest).Held).IsOf
        (Alternatives.cons alternative rest).read (alternative.leaves.length + i) decoded sink := by
  obtain ⟨result, visitor, sink'⟩ := outcome
  obtain ⟨result', visitor', reported⟩ := decoded
  obtain ⟨hresult, hsink⟩ := h
  refine ⟨?_, hsink⟩
  cases result with
  | error e =>
    cases result' with
    | error e' => exact hresult
    | ok value => cases hresult
  | ok held =>
    cases result' with
    | error e' => cases hresult
    | ok value =>
      have hread : rest.read held = (i, value) := Except.ok.inj hresult
      refine congrArg Except.ok ?_
      rw [Alternatives.read, hread]

mutual

/-- Where no leaf is found, an alternative is read as its last leaf. -/
theorem Alternative.construct_last (visitor : Visitor V) :
    ∀ (alternative : Alternative V Value E Entry) (vis : V) (sink : Sink Entry),
      (∀ leaf ∈ alternative.leaves, ∀ widen,
        leaf.attempt (visitor.peekKind vis) widen vis = none) →
      ∃ before leaf, alternative.leaves = before ++ [leaf] ∧
        (alternative.construct visitor vis sink).IsOf alternative.read before.length
          (leaf.decode vis) sink
  | .leaf leaf, vis, sink, _ => by
    refine ⟨[], leaf, by rw [Alternative.leaves, List.nil_append], ?_, ?_⟩
    · rw [Alternative.construct]
      cases (leaf.decode vis).result <;> rfl
    · rw [Alternative.construct]
  | .variant alternatives, vis, sink, hnone => by
    rw [Alternative.leaves] at hnone ⊢
    obtain ⟨before, leaf, hleaves, hlast⟩ :=
      alternatives.constructLast_last visitor vis sink hnone
    refine ⟨before, leaf, hleaves, ?_⟩
    rw [Alternative.construct, Alternatives.decodeOr_last hnone]
    exact hlast

theorem Alternatives.constructLast_last (visitor : Visitor V) :
    ∀ (alternatives : Alternatives V Value E Entry) (vis : V) (sink : Sink Entry),
      (∀ leaf ∈ alternatives.leaves, ∀ widen,
        leaf.attempt (visitor.peekKind vis) widen vis = none) →
      ∃ before leaf, alternatives.leaves = before ++ [leaf] ∧
        (alternatives.constructLast visitor vis sink).IsOf alternatives.read before.length
          (leaf.decode vis) sink
  | .last alternative, vis, sink, hnone => by
    rw [Alternatives.leaves] at hnone ⊢
    rw [Alternatives.constructLast]
    exact alternative.construct_last visitor vis sink hnone
  | .cons alternative rest, vis, sink, hnone => by
    rw [Alternatives.leaves] at hnone ⊢
    obtain ⟨before, leaf, hleaves, hlast⟩ :=
      rest.constructLast_last visitor vis sink fun leaf hleaf =>
        hnone leaf (List.mem_append_right _ hleaf)
    refine ⟨alternative.leaves ++ before, leaf, by rw [hleaves, List.append_assoc], ?_⟩
    rw [Alternatives.constructLast, List.length_append]
    exact hlast.inr

end

/-! ## Decoding -/

/-- The kind of the value is one the leaf takes as it is. -/
def Leaf.Exact (src : TypeKind) (leaf : Leaf V Value E Entry) : Prop :=
  leaf.shape.kindCompatible src false = true

/-- The kind of the value is one the leaf takes only widened. -/
def Leaf.OnlyWidened (src : TypeKind) (leaf : Leaf V Value E Entry) : Prop :=
  leaf.shape.kindCompatible src true = true ∧ ¬leaf.Exact src

/-- The leaf decodes. -/
def Leaf.Decodes (vis : V) (leaf : Leaf V Value E Entry) : Prop :=
  ∃ value, (leaf.decode vis).result = .ok value

theorem Leaf.admits_iff {leaf : Leaf V Value E Entry} {src : TypeKind} {widen : Bool} :
    admits false (leaf.shape.kindCompatible src false) (leaf.shape.kindCompatible src true)
      widen = true ↔ if widen then leaf.OnlyWidened src else leaf.Exact src := by
  cases widen with
  | false => exact Iff.rfl
  | true =>
    rw [admits, if_pos rfl, if_pos rfl, Bool.false_or, Bool.and_eq_true, Bool.not_eq_true',
      Leaf.OnlyWidened, Leaf.Exact, Bool.not_eq_true, and_comm]

/-- A leaf claims what it is admitted to and decodes. -/
theorem Leaf.attempt_eq_some {leaf : Leaf V Value E Entry} {src : TypeKind} {widen : Bool}
    {vis : V} {value : Value} {reported : List Entry}
    (h : leaf.attempt src widen vis = some (value, reported)) :
    (if widen then leaf.OnlyWidened src else leaf.Exact src) ∧
      (leaf.decode vis).result = .ok value ∧ (leaf.decode vis).reported = reported := by
  rw [Leaf.attempt] at h
  split at h
  · next hadmits =>
    refine ⟨Leaf.admits_iff.mp hadmits, ?_⟩
    cases hresult : (leaf.decode vis).result with
    | error e =>
      rw [hresult] at h
      cases h
    | ok value' =>
      rw [hresult] at h
      cases h
      exact ⟨rfl, rfl⟩
  · cases h

/-- A leaf that claims nothing is not admitted or does not decode. -/
theorem Leaf.attempt_eq_none {leaf : Leaf V Value E Entry} {src : TypeKind} {widen : Bool}
    {vis : V} (h : leaf.attempt src widen vis = none) :
    (if widen then leaf.OnlyWidened src else leaf.Exact src) → ¬leaf.Decodes vis := by
  rintro hadmits ⟨value, hresult⟩
  rw [Leaf.attempt, if_pos (Leaf.admits_iff.mpr hadmits), hresult] at h
  cases h

/-- What a decode picks of the leaves: the first that takes the kind of the value exactly
and decodes, else the first that takes it only widened and decodes, else the last, whether
it decodes or not. The unknown fields are those of the leaf that is picked. -/
inductive Picks (src : TypeKind) (leaves : List (Leaf V Value E Entry)) (vis : V)
    (sink : Sink Entry) : Except E (Nat × Value) → Sink Entry → Prop where
  | exact {before after : List (Leaf V Value E Entry)} {leaf : Leaf V Value E Entry}
      {value : Value} (hleaves : leaves = before ++ leaf :: after) (hexact : leaf.Exact src)
      (hdecodes : (leaf.decode vis).result = .ok value)
      (hfirst : ∀ other ∈ before, other.Exact src → ¬other.Decodes vis) :
      Picks src leaves vis sink (.ok (before.length, value))
        (sink.map (· ++ (leaf.decode vis).reported))
  | widened {before after : List (Leaf V Value E Entry)} {leaf : Leaf V Value E Entry}
      {value : Value} (hleaves : leaves = before ++ leaf :: after)
      (hexact : ∀ other ∈ leaves, other.Exact src → ¬other.Decodes vis)
      (hwidened : leaf.OnlyWidened src) (hdecodes : (leaf.decode vis).result = .ok value)
      (hfirst : ∀ other ∈ before, other.OnlyWidened src → ¬other.Decodes vis) :
      Picks src leaves vis sink (.ok (before.length, value))
        (sink.map (· ++ (leaf.decode vis).reported))
  | last {before : List (Leaf V Value E Entry)} {leaf : Leaf V Value E Entry}
      (hleaves : leaves = before ++ [leaf])
      (hnone : ∀ other ∈ leaves, other.Exact src ∨ other.OnlyWidened src → ¬other.Decodes vis) :
      Picks src leaves vis sink ((leaf.decode vis).result.map fun value => (before.length, value))
        (sink.map (· ++ (leaf.decode vis).reported))

/-- What is picked, where there is a leaf at all. -/
def pick (src : TypeKind) (leaves : List (Leaf V Value E Entry)) (vis : V) (sink : Sink Entry) :
    Option (Except E (Nat × Value) × Sink Entry) :=
  match firstSome (Leaf.attempt src false vis) leaves with
  | some (i, value, reported) => some (.ok (i, value), sink.map (· ++ reported))
  | none =>
    match firstSome (Leaf.attempt src true vis) leaves with
    | some (i, value, reported) => some (.ok (i, value), sink.map (· ++ reported))
    | none =>
      leaves.getLast?.map fun leaf =>
        ((leaf.decode vis).result.map fun value => (leaves.length - 1, value),
          sink.map (· ++ (leaf.decode vis).reported))

theorem picks_of_pick {src : TypeKind} {leaves : List (Leaf V Value E Entry)} {vis : V}
    {sink : Sink Entry} {result : Except E (Nat × Value)} {sink' : Sink Entry}
    (h : pick src leaves vis sink = some (result, sink')) :
    Picks src leaves vis sink result sink' := by
  unfold pick at h
  split at h
  · next i value reported hexact =>
    cases h
    obtain ⟨before, leaf, after, rfl, rfl, hleaf, hbefore⟩ := firstSome_eq_some hexact
    obtain ⟨hlevel, hresult, rfl⟩ := Leaf.attempt_eq_some hleaf
    exact .exact rfl hlevel hresult fun other hother => Leaf.attempt_eq_none (hbefore other hother)
  · next hexact =>
    rw [firstSome_eq_none] at hexact
    split at h
    · next i value reported hwidened =>
      cases h
      obtain ⟨before, leaf, after, rfl, rfl, hleaf, hbefore⟩ := firstSome_eq_some hwidened
      obtain ⟨hlevel, hresult, rfl⟩ := Leaf.attempt_eq_some hleaf
      exact .widened rfl (fun other hother => Leaf.attempt_eq_none (hexact other hother)) hlevel
        hresult fun other hother => Leaf.attempt_eq_none (hbefore other hother)
    · next hwidened =>
      rw [firstSome_eq_none] at hwidened
      obtain ⟨leaf, hlast, heq⟩ := Option.map_eq_some_iff.mp h
      cases heq
      obtain ⟨before, rfl⟩ := List.getLast?_eq_some_iff.mp hlast
      rw [List.length_append, List.length_singleton, Nat.add_sub_cancel]
      refine .last rfl fun other hother => ?_
      rintro (hlevel | hlevel)
      · exact Leaf.attempt_eq_none (hexact other hother) hlevel
      · exact Leaf.attempt_eq_none (hwidened other hother) hlevel

/-- What is seen of a decode: the leaf with its value or the error, and the unknown
fields. -/
def Alternatives.observed (visitor : Visitor V) (alternatives : Alternatives V Value E Entry)
    (vis : V) (sink : Sink Entry) : Except E (Nat × Value) × Sink Entry :=
  let outcome := alternatives.decodeUntaggedVariant visitor vis sink
  (outcome.result.map alternatives.read, outcome.sink)

/-- A decode is a pick of the leaves. -/
theorem Alternatives.observed_pick (visitor : Visitor V)
    (alternatives : Alternatives V Value E Entry) (vis : V) (sink : Sink Entry) :
    pick (visitor.peekKind vis) alternatives.leaves vis sink =
      some (alternatives.observed visitor vis sink) := by
  have hexact := alternatives.pass_settles visitor (visitor.peekKind vis) false vis sink
  have hwidened := alternatives.pass_settles visitor (visitor.peekKind vis) true vis sink
  rw [pick, Alternatives.observed, Alternatives.decodeUntaggedVariant]
  cases hfirst : firstSome (Leaf.attempt (visitor.peekKind vis) false vis) alternatives.leaves with
  | some found =>
    obtain ⟨i, value, reported⟩ := found
    rw [hfirst] at hexact
    obtain ⟨⟨⟨held, hheld, hread⟩, hsink⟩, -⟩ := hexact
    rw [Alternatives.decodeOr]
    dsimp only
    rw [hheld]
    dsimp only
    rw [hsink, Except.map, hread]
  | none =>
    rw [hfirst] at hexact
    obtain ⟨hvisitor, hsink⟩ := hexact.2 rfl
    cases hsecond : firstSome (Leaf.attempt (visitor.peekKind vis) true vis)
      alternatives.leaves with
    | some found =>
      obtain ⟨i, value, reported⟩ := found
      rw [hsecond] at hwidened
      obtain ⟨⟨⟨held, hheld, hread⟩, hsink'⟩, -⟩ := hwidened
      rw [Alternatives.decodeOr]
      dsimp only
      rw [hexact.1.1]
      dsimp only
      rw [hvisitor, hsink, hheld]
      dsimp only
      rw [hsink', Except.map, hread]
    | none =>
      have hnone : ∀ leaf ∈ alternatives.leaves, ∀ widen,
          leaf.attempt (visitor.peekKind vis) widen vis = none := by
        rintro leaf hleaf (_ | _)
        · exact firstSome_eq_none.mp hfirst leaf hleaf
        · exact firstSome_eq_none.mp hsecond leaf hleaf
      obtain ⟨before, leaf, hleaves, hresult, hsink'⟩ :=
        alternatives.constructLast_last visitor vis sink hnone
      dsimp only
      rw [Alternatives.decodeOr_last hnone, hresult, hsink', hleaves, List.getLast?_concat,
        List.length_append, List.length_singleton, Nat.add_sub_cancel]
      rfl

/-- Two variants of the same leaves decode alike, however the leaves are grouped, and what
they pick is said of the leaves alone. -/
theorem Alternatives.untagged_spec (visitor : Visitor V) (left right : Alternatives V Value E Entry)
    (hleaves : left.leaves = right.leaves) (vis : V) (sink : Sink Entry) :
    left.observed visitor vis sink = right.observed visitor vis sink ∧
      Picks (visitor.peekKind vis) left.leaves vis sink (left.observed visitor vis sink).1
        (left.observed visitor vis sink).2 := by
  have hleft := left.observed_pick visitor vis sink
  have hright := right.observed_pick visitor vis sink
  refine ⟨?_, picks_of_pick hleft⟩
  rw [← hleaves, hleft] at hright
  exact Option.some.inj hright

end Model

/-- A leaf that reads the integers below a bound. -/
def boundedLeaf (shape : Shape) (bound : Int) : Leaf Int Int String String :=
  { shape := shape,
    decode := fun vis =>
      { result := if vis < bound then .ok vis else .error "integer value out of range",
        visitor := vis, reported := [] } }

/-- A visitor at an integer, copied for each probe. -/
def integerVisitor : Visitor Int :=
  { peekKind := fun _ => .int64, kept := fun before _ => before, dropped := fun before _ => before,
    unmoved := fun _ _ => rfl }

/-- However a narrow integer, a float and a wide integer are grouped, the wide integer takes
what the narrow one does not. -/
theorem Alternatives.untagged_spec_probe :
    let narrow := Alternative.leaf (boundedLeaf .integer 128)
    let float := Alternative.leaf (boundedLeaf .floating 10000)
    let wide := Alternative.leaf (boundedLeaf .integer 10000)
    (Alternatives.cons (.variant (.cons narrow (.last float))) (.last wide)).observed
        integerVisitor 1000 none =
      (Alternatives.cons narrow (.last (.variant (.cons float (.last wide))))).observed
        integerVisitor 1000 none :=
  (Alternatives.untagged_spec integerVisitor _ _ rfl 1000 none).1

end Kotatsu.Codec.Untagged
