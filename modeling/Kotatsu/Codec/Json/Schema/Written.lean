import Mathlib.Data.List.Nodup
import Kotatsu.Codec.Json.Schema.Emitter

/-!
# What the emitter writes

A schema is written by finitely many rules, one for each kind of info: each says what is
written, from which state, and in which state that ends. A computation of the emitter that
succeeds writes by them. The names and the bodies of the state only grow, and each name
that is added gets one body.
-/

namespace Kotatsu.Codec.Json.Schema

open Kotatsu.Codec.Dyn

variable {I : Type} {α β : Type}

/-! ## Computations -/

variable {x : Emit I α} {f : α → Emit I β} {s t s' : State I} {a : α} {ti : I}
  {si : StructTypeInfo I} {fuel : Nat}

/-- A computation after another one comes to something where both do, or the first to an
error. -/
theorem bind_some {r : Except String (β × State I)} (h : (x >>= f) s = some r) :
    (∃ e, x s = some (.error e) ∧ r = .error e) ∨
      ∃ a t, x s = some (.ok (a, t)) ∧ f a t = some r := by
  change ((x s : ExceptT String Option (α × State I)) >>= fun p => f p.1 p.2) = some r at h
  cases hx : x s with
  | none =>
    rw [hx] at h
    cases h
  | some q =>
    rw [hx] at h
    cases q with
    | error e => exact Or.inl ⟨e, rfl, (Option.some.inj h).symm⟩
    | ok p => exact Or.inr ⟨p.1, p.2, rfl, h⟩

theorem bind_error {e : String} (h : x s = some (.error e)) : (x >>= f) s = some (.error e) := by
  change ((x s : ExceptT String Option (α × State I)) >>= fun p => f p.1 p.2) = _
  rw [h]
  rfl

theorem bind_ok (h : x s = some (.ok (a, t))) : (x >>= f) s = f a t := by
  change ((x s : ExceptT String Option (α × State I)) >>= fun p => f p.1 p.2) = f a t
  rw [h]
  rfl

theorem bind_none (h : x s = none) : (x >>= f) s = none := by
  change ((x s : ExceptT String Option (α × State I)) >>= fun p => f p.1 p.2) = none
  rw [h]
  rfl

theorem bind_done {b : β} :
    (x >>= f) s = some (.ok (b, s')) ↔
      ∃ a t, x s = some (.ok (a, t)) ∧ f a t = some (.ok (b, s')) := by
  constructor
  · intro h
    rcases bind_some h with ⟨e, -, he⟩ | hdone
    · cases he
    · exact hdone
  · rintro ⟨a, t, h, h'⟩
    exact (bind_ok h).trans h'

theorem get_bind (f : State I → Emit I α) (s : State I) :
    ((get : Emit I (State I)) >>= f) s = f s s := rfl

theorem pure_done {a b : α} : (pure a : Emit I α) s = some (.ok (b, s')) ↔ b = a ∧ s' = s := by
  constructor
  · intro h
    cases h
    exact ⟨rfl, rfl⟩
  · rintro ⟨rfl, rfl⟩
    rfl

theorem ofFuel_done {r : Option α} :
    (ofFuel r : Emit I α) s = some (.ok (a, s')) ↔ r = some a ∧ s' = s := by
  constructor
  · intro h
    obtain ⟨b, hb, heq⟩ := Option.map_eq_some_iff.mp h
    cases heq
    exact ⟨hb, rfl⟩
  · rintro ⟨rfl, rfl⟩
    rfl

theorem ofExcept_done {r : Except String α} :
    (ofExcept r : Emit I α) s = some (.ok (a, s')) ↔ r = .ok a ∧ s' = s := by
  cases r with
  | error e =>
    constructor
    · intro h
      cases h
    · rintro ⟨h, -⟩
      cases h
  | ok b =>
    constructor
    · intro h
      cases h
      exact ⟨rfl, rfl⟩
    · rintro ⟨h, rfl⟩
      cases h
      rfl

/-! ## The rules -/

/-- What is written for some infos. -/
inductive Judgement (I : Type) where
  | schema (ti : I) (v : Value)
  | props (doc : Option Object) (fields : List (FieldInfo I)) (props : Object)
  | elements (tis : List I) (vs : List Value)
  | alternatives (vi : VariantTypeInfo I) (tagging : TagMode) (i : Nat) (tis : List I)
    (vs : List Value)
  | tagged (ti : I) (tag : InternalTag) (v : Value)

/-- An optional or a pointer, and what it holds. -/
def innerOf : Shape I → Option I
  | .optional inner | .pointer inner => some inner
  | _ => none

/-- A sequence, and its elements. -/
def elementOf : Shape I → Option I
  | .array element | .set element => some element
  | _ => none

/-- The schema of an alternative written with its tag around it. -/
def wrapAlternative (options : Options I) (vi : VariantTypeInfo I) (altName : String)
    (schema : Value) : TagMode → Value
  | .external => externalAlternative altName schema
  | .adjacent => adjacentAlternative options vi altName schema
  | _ => schema

/-- The tag of an internally tagged alternative. -/
def tagOf (infos : Infos I) (vi : VariantTypeInfo I) (i : Nat) (ti : I) : InternalTag :=
  { field := vi.tagField, altName := alternativeName infos vi i ti,
    denyUnknown := vi.denyUnknown }

/-- Unwrapping ends at an info. -/
def Unwraps (infos : Infos I) (ti inner : I) : Prop :=
  ∃ fuel, unwrap infos fuel ti = some inner

/-- A struct that had no name gets one. -/
def State.named (s : State I) (ti : I) (name : String) : State I :=
  { s with usedNames := s.usedNames ++ [name], defNames := s.defNames ++ [(ti, name)] }

/-- The body of a struct is kept under its name. -/
def State.define (s : State I) (name : String) (body : Object) : State I :=
  { s with defs := s.defs ++ [(name, .object body)] }

/-- The name a struct is referred to by. -/
def nameOf (infos : Infos I) (ti : I) : String := normalizeIdentifier (infos ti).typeName

variable [DecidableEq I]

section Rules

variable (infos : Infos I) (options : Options I) (root : I)

/-- What is written from a state, and the state it ends in. -/
inductive Written : State I → Judgement I → State I → Prop where
  | leaf {s : State I} {ti : I} {v : Value} (h : leafSchema (infos ti).shape = some v) :
    Written s (.schema ti v) s
  | nullable {s s' : State I} {ti held inner : I} {v : Value}
    (h : innerOf (infos ti).shape = some held) (hu : Unwraps infos ti inner)
    (hv : Written s (.schema inner v) s') : Written s (.schema ti (nullable v)) s'
  | array {s s' : State I} {ti element : I} {v : Value}
    (h : elementOf (infos ti).shape = some element)
    (hv : Written s (.schema element v) s') : Written s (.schema ti (arrayOf v)) s'
  | map {s s' : State I} {ti key value : I} {v : Value} (h : (infos ti).shape = .map key value)
    (hv : Written s (.schema value v) s') :
    Written s (.schema ti (mapOf (keyNames infos key) v)) s'
  | tuple {s s' : State I} {ti : I} {elements : List I} {vs : List Value}
    (h : (infos ti).shape = .tuple elements) (hv : Written s (.elements elements vs) s') :
    Written s (.schema ti (tupleOf vs elements.length)) s'
  | root {s : State I} {si : StructTypeInfo I} (h : (infos root).shape = .structure si) :
    Written s (.schema root (refTo "#")) s
  | known {s : State I} {ti : I} {si : StructTypeInfo I} {name : String}
    (h : (infos ti).shape = .structure si) (hroot : ti ≠ root)
    (hname : s.defNames.lookup ti = some name) :
    Written s (.schema ti (refTo ("#/$defs/" ++ name))) s
  | named {s s' : State I} {ti : I} {si : StructTypeInfo I} {props : Object}
    (h : (infos ti).shape = .structure si) (hroot : ti ≠ root)
    (hnew : s.defNames.lookup ti = none) (hfresh : nameOf infos ti ∉ s.usedNames)
    (hv : Written (s.named ti (nameOf infos ti))
      (.props (options.freshDocument ti) si.fields props) s') :
    Written s (.schema ti (refTo ("#/$defs/" ++ nameOf infos ti)))
      (s'.define (nameOf infos ti) (structEntries options si none props))
  | variant {s s' : State I} {ti : I} {vi : VariantTypeInfo I} {vs : List Value}
    (h : (infos ti).shape = .variant vi)
    (hv : Written s (.alternatives vi (taggingOf options vi) 0 vi.alternatives vs) s') :
    Written s (.schema ti (variantOf (taggingOf options vi) vs)) s'
  | noProps {s : State I} {doc : Option Object} : Written s (.props doc [] []) s
  | props {s t s' : State I} {doc : Option Object} {f : FieldInfo I}
    {fields : List (FieldInfo I)} {v v' : Value} {rest : Object}
    (hdefault : ¬(f.schemaDefault = false ∧ isRequired f))
    (hv : Written s (.schema f.type v) t) (hc : constrain v f = .ok v')
    (hrest : Written t (.props doc fields rest) s') :
    Written s (.props doc (f :: fields) (fieldEntries doc f v' ++ rest)) s'
  | noElements {s : State I} : Written s (.elements [] []) s
  | elements {s t s' : State I} {ti : I} {tis : List I} {v : Value} {vs : List Value}
    (hv : Written s (.schema ti v) t) (hrest : Written t (.elements tis vs) s') :
    Written s (.elements (ti :: tis) (v :: vs)) s'
  | noAlternatives {s : State I} {vi : VariantTypeInfo I} {tagging : TagMode} {i : Nat} :
    Written s (.alternatives vi tagging i [] []) s
  | wrapped {s t s' : State I} {vi : VariantTypeInfo I} {tagging : TagMode} {i : Nat} {ti : I}
    {tis : List I} {v : Value} {vs : List Value} (ht : tagging ≠ .internal)
    (hv : Written s (.schema ti v) t)
    (hrest : Written t (.alternatives vi tagging (i + 1) tis vs) s') :
    Written s (.alternatives vi tagging i (ti :: tis)
      (wrapAlternative options vi (alternativeName infos vi i ti) v tagging :: vs)) s'
  | internal {s t s' : State I} {vi : VariantTypeInfo I} {i : Nat} {ti : I} {tis : List I}
    {v : Value} {vs : List Value} (hv : Written s (.tagged ti (tagOf infos vi i ti) v) t)
    (hrest : Written t (.alternatives vi .internal (i + 1) tis vs) s') :
    Written s (.alternatives vi .internal i (ti :: tis) (v :: vs)) s'
  | taggedUnit {s : State I} {ti inner : I} {tag : InternalTag} (hu : Unwraps infos ti inner)
    (h : (infos inner).shape = .null) :
    Written s (.tagged ti tag (.object (structEntries options unit (some tag) []))) s
  | taggedStruct {s s' : State I} {ti inner : I} {tag : InternalTag} {si : StructTypeInfo I}
    {props : Object} (hu : Unwraps infos ti inner) (h : (infos inner).shape = .structure si)
    (hv : Written s (.props (options.freshDocument inner) si.fields props) s') :
    Written s (.tagged ti tag (.object (structEntries options si (some tag) props))) s'
  | taggedSchema {s s' : State I} {ti inner : I} {tag : InternalTag} {v : Value}
    (hu : Unwraps infos ti inner) (hnull : (infos inner).shape ≠ .null)
    (hstruct : ∀ si, (infos inner).shape ≠ .structure si)
    (hv : Written s (.schema inner v) s') : Written s (.tagged ti tag (taggedSchema tag v)) s'

end Rules

variable {infos : Infos I} {options : Options I} {root : I}

/-! ## References -/

section Reference

variable {makeSchema : I → Emit I Value}

theorem makeStructRef_root (h : ti = root) :
    makeStructRef infos options root makeSchema ti si s = some (.ok (refTo "#", s)) := by
  unfold makeStructRef
  rw [if_pos h]
  rfl

theorem makeStructRef_known (hroot : ti ≠ root) {name : String}
    (h : s.defNames.lookup ti = some name) :
    makeStructRef infos options root makeSchema ti si s =
      some (.ok (refTo ("#/$defs/" ++ name), s)) := by
  unfold makeStructRef
  rw [if_neg hroot, get_bind, h]
  rfl

theorem makeStructRef_taken (hroot : ti ≠ root) (h : s.defNames.lookup ti = none)
    (hused : nameOf infos ti ∈ s.usedNames) :
    makeStructRef infos options root makeSchema ti si s =
      some (.error ("duplicate $defs name '" ++ nameOf infos ti ++ "' from type '" ++
        (infos ti).typeName ++ "'")) := by
  rw [nameOf] at hused
  unfold makeStructRef
  rw [if_neg hroot, get_bind, h]
  dsimp only
  rw [if_pos hused]
  rfl

/-- A struct that has no name gets one before its body is written. -/
theorem makeStructRef_new (hroot : ti ≠ root) (h : s.defNames.lookup ti = none)
    (hfresh : nameOf infos ti ∉ s.usedNames) :
    makeStructRef infos options root makeSchema ti si s =
      (addStructBody options makeSchema si (options.freshDocument ti) none >>= fun body => do
        modify fun s => s.define (nameOf infos ti) body
        pure (refTo ("#/$defs/" ++ nameOf infos ti))) (s.named ti (nameOf infos ti)) := by
  rw [nameOf] at hfresh
  unfold makeStructRef
  rw [if_neg hroot, get_bind, h]
  dsimp only
  rw [if_neg hfresh]
  rfl

end Reference

/-! ## Computations that write -/

section Walk

variable {makeSchema : I → Emit I Value}
  (hrec : ∀ {s s' : State I} {ti : I} {v : Value}, makeSchema ti s = some (.ok (v, s')) →
    Written infos options root s (.schema ti v) s')

include hrec

theorem makeProperties_written {doc : Option Object} {fields : List (FieldInfo I)}
    {props : Object} (h : makeProperties makeSchema doc fields s = some (.ok (props, s'))) :
    Written infos options root s (.props doc fields props) s' := by
  induction fields generalizing s props with
  | nil =>
    obtain ⟨rfl, rfl⟩ := pure_done.mp h
    exact .noProps
  | cons f fields ih =>
    obtain ⟨es, t, hes, h⟩ := bind_done.mp h
    obtain ⟨rest, t', hrest, h⟩ := bind_done.mp h
    obtain ⟨rfl, rfl⟩ := pure_done.mp h
    unfold makeField at hes
    split at hes
    · cases hes
    · next hdefault =>
      obtain ⟨v, t1, hv, hconstrained⟩ := bind_done.mp hes
      obtain ⟨v', t2, hdone, hentries⟩ := bind_done.mp hconstrained
      obtain ⟨rfl, rfl⟩ := pure_done.mp hentries
      obtain ⟨hc, rfl⟩ := ofExcept_done.mp hdone
      exact .props hdefault (hrec hv) hc (ih hrest)

theorem addStructBody_written {doc : Option Object} {tag : Option InternalTag} {body : Object}
    (h : addStructBody options makeSchema si doc tag s = some (.ok (body, s'))) :
    ∃ props, Written infos options root s (.props doc si.fields props) s' ∧
      body = structEntries options si tag props := by
  obtain ⟨props, t, hprops, h⟩ := bind_done.mp h
  obtain ⟨rfl, rfl⟩ := pure_done.mp h
  exact ⟨props, makeProperties_written hrec hprops, rfl⟩

theorem makeElements_written {tis : List I} {vs : List Value}
    (h : makeElements makeSchema tis s = some (.ok (vs, s'))) :
    Written infos options root s (.elements tis vs) s' := by
  induction tis generalizing s vs with
  | nil =>
    obtain ⟨rfl, rfl⟩ := pure_done.mp h
    exact .noElements
  | cons ti tis ih =>
    obtain ⟨v, t, hv, h⟩ := bind_done.mp h
    obtain ⟨rest, t', hrest, h⟩ := bind_done.mp h
    obtain ⟨rfl, rfl⟩ := pure_done.mp h
    exact .elements (hrec hv) (ih hrest)

theorem makeInternalTagged_written {tag : InternalTag} {v : Value}
    (h : makeInternalTagged infos options fuel makeSchema ti tag s = some (.ok (v, s'))) :
    Written infos options root s (.tagged ti tag v) s' := by
  obtain ⟨inner, t, hunwrap, hinner⟩ := bind_done.mp h
  obtain ⟨hfound, rfl⟩ := ofFuel_done.mp hunwrap
  have hu : Unwraps infos ti inner := ⟨fuel, hfound⟩
  cases hs : (infos inner).shape
  all_goals rw [hs] at hinner
  case null =>
    obtain ⟨body, u, hbody, hpure⟩ := bind_done.mp hinner
    obtain ⟨rfl, rfl⟩ := pure_done.mp hpure
    obtain ⟨props, hprops, rfl⟩ := addStructBody_written hrec hbody
    cases hprops
    exact .taggedUnit hu hs
  all_goals
    obtain ⟨w, u, hw, hpure⟩ := bind_done.mp hinner
    obtain ⟨rfl, rfl⟩ := pure_done.mp hpure
    first
      | exact .taggedSchema hu (by rw [hs]; exact nofun) (by rw [hs]; exact nofun) (hrec hw)
      | (obtain ⟨props, hprops, rfl⟩ := addStructBody_written hrec hw
         exact .taggedStruct hu hs hprops)

theorem makeAlternatives_written {vi : VariantTypeInfo I} {tagging : TagMode} {i : Nat}
    {tis : List I} {vs : List Value} (h : makeAlternatives infos options fuel makeSchema vi
      tagging i tis s = some (.ok (vs, s'))) :
    Written infos options root s (.alternatives vi tagging i tis vs) s' := by
  induction tis generalizing s i vs with
  | nil =>
    obtain ⟨rfl, rfl⟩ := pure_done.mp h
    exact .noAlternatives
  | cons ti tis ih =>
    obtain ⟨v, t, hv, h⟩ := bind_done.mp h
    obtain ⟨rest, t', hrest, h⟩ := bind_done.mp h
    obtain ⟨rfl, rfl⟩ := pure_done.mp h
    unfold makeAlternative at hv
    cases tagging with
    | none => exact .wrapped TagMode.noConfusion (hrec hv) (ih hrest)
    | internal => exact .internal (makeInternalTagged_written hrec hv) (ih hrest)
    | external =>
      obtain ⟨w, t, hw, hv⟩ := bind_done.mp hv
      obtain ⟨rfl, rfl⟩ := pure_done.mp hv
      exact .wrapped TagMode.noConfusion (hrec hw) (ih hrest)
    | adjacent =>
      obtain ⟨w, t, hw, hv⟩ := bind_done.mp hv
      obtain ⟨rfl, rfl⟩ := pure_done.mp hv
      exact .wrapped TagMode.noConfusion (hrec hw) (ih hrest)

theorem makeStructRef_written (hs : (infos ti).shape = .structure si) {v : Value}
    (h : makeStructRef infos options root makeSchema ti si s = some (.ok (v, s'))) :
    Written infos options root s (.schema ti v) s' := by
  by_cases hroot : ti = root
  · rw [makeStructRef_root hroot] at h
    cases h
    subst hroot
    exact .root hs
  cases hname : s.defNames.lookup ti with
  | some name =>
    rw [makeStructRef_known hroot hname] at h
    cases h
    exact .known hs hroot hname
  | none =>
    by_cases hused : nameOf infos ti ∈ s.usedNames
    · rw [makeStructRef_taken hroot hname hused] at h
      cases h
    · rw [makeStructRef_new hroot hname hused] at h
      obtain ⟨body, t, hbody, h⟩ := bind_done.mp h
      obtain ⟨props, hprops, rfl⟩ := addStructBody_written hrec hbody
      cases h
      exact .named hs hroot hname hused hprops

end Walk

theorem makeSchema_held {held : I} (h : innerOf (infos ti).shape = some held) :
    makeSchema infos options root (fuel + 1) ti =
      ofFuel (unwrap infos fuel ti) >>= fun inner =>
        makeSchema infos options root fuel inner >>= fun v => pure (nullable v) := by
  cases hs : (infos ti).shape with
  | optional inner => simp only [makeSchema, hs]
  | pointer inner => simp only [makeSchema, hs]
  | _ =>
    rw [hs] at h
    cases h

theorem makeSchema_element {element : I} (h : elementOf (infos ti).shape = some element) :
    makeSchema infos options root (fuel + 1) ti =
      makeSchema infos options root fuel element >>= fun v => pure (arrayOf v) := by
  cases hs : (infos ti).shape with
  | array inner =>
    rw [hs] at h
    cases h
    simp only [makeSchema, hs]
  | set inner =>
    rw [hs] at h
    cases h
    simp only [makeSchema, hs]
  | _ =>
    rw [hs] at h
    cases h

theorem makeSchema_variant {vi : VariantTypeInfo I} (h : (infos ti).shape = .variant vi) :
    makeSchema infos options root (fuel + 1) ti =
      makeVariant infos options fuel (makeSchema infos options root fuel) vi := by
  simp only [makeSchema, h]

theorem makeSchema_structure (h : (infos ti).shape = .structure si) :
    makeSchema infos options root (fuel + 1) ti =
      makeStructRef infos options root (makeSchema infos options root fuel) ti si := by
  simp only [makeSchema, h]

theorem makeSchema_leaf {v : Value} (h : leafSchema (infos ti).shape = some v) :
    makeSchema infos options root (fuel + 1) ti s = some (.ok (v, s)) := by
  cases hs : (infos ti).shape
  all_goals
    rw [hs] at h
    cases h
    try simp only [makeSchema, hs]
    try rfl

/-- What the emitter gives for an info is written for it. -/
theorem makeSchema_written {v : Value}
    (h : makeSchema infos options root fuel ti s = some (.ok (v, s'))) :
    Written infos options root s (.schema ti v) s' := by
  induction fuel generalizing s s' ti v with
  | zero => cases h
  | succ fuel ih =>
    have hheld (held : I) (hshape : innerOf (infos ti).shape = some held) :
        Written infos options root s (.schema ti v) s' := by
      rw [makeSchema_held hshape] at h
      obtain ⟨inner, t, hunwrap, hinner⟩ := bind_done.mp h
      obtain ⟨hfound, rfl⟩ := ofFuel_done.mp hunwrap
      obtain ⟨w, t', hw, hpure⟩ := bind_done.mp hinner
      obtain ⟨rfl, rfl⟩ := pure_done.mp hpure
      exact .nullable hshape ⟨fuel, hfound⟩ (ih hw)
    have helement (element : I) (hshape : elementOf (infos ti).shape = some element) :
        Written infos options root s (.schema ti v) s' := by
      rw [makeSchema_element hshape] at h
      obtain ⟨w, t, hw, h⟩ := bind_done.mp h
      obtain ⟨rfl, rfl⟩ := pure_done.mp h
      exact .array hshape (ih hw)
    have hleaf (w : Value) (hshape : leafSchema (infos ti).shape = some w) :
        Written infos options root s (.schema ti v) s' := by
      rw [makeSchema_leaf hshape] at h
      cases h
      exact .leaf hshape
    cases hs : (infos ti).shape
    case optional held => exact hheld held (by rw [hs]; rfl)
    case pointer held => exact hheld held (by rw [hs]; rfl)
    case array element => exact helement element (by rw [hs]; rfl)
    case set element => exact helement element (by rw [hs]; rfl)
    case map key value =>
      simp only [makeSchema, hs] at h
      obtain ⟨w, t, hw, hpure⟩ := bind_done.mp h
      obtain ⟨rfl, rfl⟩ := pure_done.mp hpure
      exact .map hs (ih hw)
    case tuple elements =>
      simp only [makeSchema, hs] at h
      obtain ⟨vs, t, hvs, hpure⟩ := bind_done.mp h
      obtain ⟨rfl, rfl⟩ := pure_done.mp hpure
      exact .tuple hs (makeElements_written ih hvs)
    case variant vi =>
      rw [makeSchema_variant hs] at h
      obtain ⟨vs, t, hvs, hpure⟩ := bind_done.mp h
      obtain ⟨rfl, rfl⟩ := pure_done.mp hpure
      exact .variant hs (makeAlternatives_written ih hvs)
    all_goals first
      | exact makeStructRef_written ih hs (makeSchema_structure hs ▸ h)
      | exact hleaf _ (by rw [hs]; rfl)
      | (simp only [makeSchema, hs] at h; cases h)

/-! ## States -/

/-- The names are distinct, and no body is written twice. -/
structure State.Valid (s : State I) : Prop where
  used : ∀ p ∈ s.defNames, p.2 ∈ s.usedNames
  distinct : (s.defNames.map Prod.snd).Nodup
  written : ∀ d ∈ s.defs, d.1 ∈ s.usedNames
  once : (s.defs.map Prod.fst).Nodup

/-- The body of a struct that has been written under its name. -/
def BodyOf (infos : Infos I) (options : Options I) (root : I) (names : List (I × String))
    (body : Value) : Prop :=
  ∃ ti si props, ∃ t t' : State I, t'.defNames ⊆ names ∧
    Written infos options root t (.props (options.freshDocument ti) si.fields props) t' ∧
    body = .object (structEntries options si none props)

/-- From one state to a later one: the names and the bodies grow, and each new name has
got a body. -/
structure Grew (infos : Infos I) (options : Options I) (root : I) (s s' : State I) : Prop where
  valid : s.Valid → s'.Valid
  names : s.defNames ⊆ s'.defNames
  used : s.usedNames ⊆ s'.usedNames
  defs : s.defs ⊆ s'.defs
  named : ∀ p ∈ s'.defNames, p ∈ s.defNames ∨ p.2 ∈ s'.defs.map Prod.fst
  bodies : ∀ d ∈ s'.defs, d ∈ s.defs ∨
    d.1 ∉ s.usedNames ∧ BodyOf infos options root s'.defNames d.2

theorem Grew.refl (s : State I) : Grew infos options root s s where
  valid h := h
  names := List.Subset.refl _
  used := List.Subset.refl _
  defs := List.Subset.refl _
  named _ h := Or.inl h
  bodies _ h := Or.inl h

theorem Grew.trans (h : Grew infos options root s t) (h' : Grew infos options root t s') :
    Grew infos options root s s' where
  valid hs := h'.valid (h.valid hs)
  names := List.Subset.trans h.names h'.names
  used := List.Subset.trans h.used h'.used
  defs := List.Subset.trans h.defs h'.defs
  named p hp := by
    obtain hp | hp := h'.named p hp
    · obtain hp | hp := h.named p hp
      · exact Or.inl hp
      · obtain ⟨d, hd, heq⟩ := List.mem_map.mp hp
        exact Or.inr (List.mem_map.mpr ⟨d, h'.defs hd, heq⟩)
    · exact Or.inr hp
  bodies d hd := by
    obtain hd | ⟨hfresh, hbody⟩ := h'.bodies d hd
    · obtain hd | ⟨hfresh, ti, si, props, u, u', hsub, hw, hbody⟩ := h.bodies d hd
      · exact Or.inl hd
      · exact Or.inr ⟨hfresh, ti, si, props, u, u', List.Subset.trans hsub h'.names, hw, hbody⟩
    · exact Or.inr ⟨fun hmem => hfresh (h.used hmem), hbody⟩

omit [DecidableEq I] in
theorem State.Valid.named (h : s.Valid) {name : String} (hfresh : name ∉ s.usedNames) :
    (s.named ti name).Valid := by
  refine ⟨fun p hp => ?_, ?_, fun d hd => List.mem_append_left _ (h.written d hd), h.once⟩
  · obtain hp | hp := List.mem_append.mp hp
    · exact List.mem_append_left _ (h.used p hp)
    · cases List.mem_singleton.mp hp
      exact List.mem_append_right _ List.mem_cons_self
  · rw [State.named, List.map_append, List.map_singleton, List.nodup_append]
    refine ⟨h.distinct, List.nodup_singleton _, fun a ha b hb heq => ?_⟩
    obtain ⟨p, hp, rfl⟩ := List.mem_map.mp ha
    obtain rfl := List.mem_singleton.mp hb
    exact hfresh (heq ▸ h.used p hp)

/-- A struct named for the first time, its body written under the name, and the body
kept. -/
theorem Grew.define {name : String} {props : Object} (hfresh : name ∉ s.usedNames)
    (h : Grew infos options root (s.named ti name) t)
    (hw : Written infos options root (s.named ti name)
      (.props (options.freshDocument ti) si.fields props) t) :
    Grew infos options root s (t.define name (structEntries options si none props)) := by
  have hname : (ti, name) ∈ t.defNames :=
    h.names (List.mem_append_right _ List.mem_cons_self)
  refine ⟨fun hs => ?_, List.Subset.trans (List.subset_append_left _ _) h.names,
    List.Subset.trans (List.subset_append_left _ _) h.used,
    List.Subset.trans h.defs (List.subset_append_left _ _), fun p hp => ?_, fun d hd => ?_⟩
  · have ht := h.valid (hs.named hfresh)
    refine ⟨ht.used, ht.distinct, fun d hd => ?_, ?_⟩
    · obtain hd | hd := List.mem_append.mp hd
      · exact ht.written d hd
      · obtain rfl := List.mem_singleton.mp hd
        exact ht.used _ hname
    · rw [State.define, List.map_append, List.map_singleton, List.nodup_append]
      refine ⟨ht.once, List.nodup_singleton _, fun a ha b hb heq => ?_⟩
      obtain ⟨d, hd, rfl⟩ := List.mem_map.mp ha
      obtain rfl := List.mem_singleton.mp hb
      obtain hd | ⟨hnew, -⟩ := h.bodies d hd
      · exact hfresh (heq ▸ hs.written d hd)
      · exact hnew (heq ▸ List.mem_append_right _ List.mem_cons_self)
  · obtain hp | hp := h.named p hp
    · obtain hp | hp := List.mem_append.mp hp
      · exact Or.inl hp
      · cases List.mem_singleton.mp hp
        exact Or.inr (List.mem_map.mpr ⟨_, List.mem_append_right _ List.mem_cons_self, rfl⟩)
    · obtain ⟨d, hd, heq⟩ := List.mem_map.mp hp
      exact Or.inr (List.mem_map.mpr ⟨d, List.mem_append_left _ hd, heq⟩)
  · obtain hd | hd := List.mem_append.mp hd
    · obtain hd | ⟨hnew, hbody⟩ := h.bodies d hd
      · exact Or.inl hd
      · exact Or.inr ⟨fun hmem => hnew (List.mem_append_left _ hmem), hbody⟩
    · cases List.mem_singleton.mp hd
      exact Or.inr ⟨hfresh, ti, si, props, _, t, List.Subset.refl _, hw, rfl⟩

theorem Written.grew {j : Judgement I} (h : Written infos options root s j s') :
    Grew infos options root s s' := by
  induction h with
  | leaf | root | known | noProps | noElements | noAlternatives | taggedUnit => exact .refl _
  | nullable _ _ _ ih => exact ih
  | array _ _ ih => exact ih
  | map _ _ ih => exact ih
  | tuple _ _ ih => exact ih
  | named _ _ _ hfresh hv ih => exact ih.define hfresh hv
  | variant _ _ ih => exact ih
  | props _ _ _ _ ih ih' => exact ih.trans ih'
  | elements _ _ ih ih' => exact ih.trans ih'
  | wrapped _ _ _ ih ih' => exact ih.trans ih'
  | internal _ _ ih ih' => exact ih.trans ih'
  | taggedStruct _ _ _ ih => exact ih
  | taggedSchema _ _ _ _ ih => exact ih

/-! ## Emission -/

/-- A state in which nothing is written. -/
def State.start (usedNames : List String) : State I :=
  { defs := [], defNames := [], usedNames := usedNames }

omit [DecidableEq I] in
theorem State.valid_start (usedNames : List String) : (State.start usedNames : State I).Valid :=
  ⟨List.forall_mem_nil _, List.nodup_nil, List.forall_mem_nil _, List.nodup_nil⟩

/-- The body of the root that the emitter writes, and the state it ends in. -/
def RootWritten (infos : Infos I) (options : Options I) (root : I) (body : Object)
    (s' : State I) : Prop :=
  (∃ si props, (infos root).shape = .structure si ∧
    Written infos options root (.start [nameOf infos root])
      (.props options.rootDocument si.fields props) s' ∧
    body = structEntries options si none props) ∨
  (∀ si, (infos root).shape ≠ .structure si) ∧
    ∃ v, Written infos options root (.start []) (.schema root v) s' ∧
      body = v.getObject.getD []

/-- The whole schema. -/
def schemaOf (defs body : Object) : Value :=
  .object ([dialect] ++ body ++ entryIf (!defs.isEmpty) "$defs" (.object defs))

theorem emitRoot_structure (h : (infos root).shape = .structure si) :
    emitRoot infos options fuel root =
      (modify fun s => { s with usedNames := s.usedNames ++ [nameOf infos root] }) >>=
      fun _ => addStructBody options (makeSchema infos options root fuel) si
        options.rootDocument none := by
  unfold emitRoot
  split
  · next si' h' =>
    rw [h] at h'
    cases h'
    rfl
  · next h' => exact absurd h (h' si)

theorem emitRoot_other (h : ∀ si, (infos root).shape ≠ .structure si) :
    emitRoot infos options fuel root =
      makeSchema infos options root fuel root >>= fun body =>
        pure (body.getObject.getD []) := by
  unfold emitRoot
  split
  · next si h' => exact absurd h' (h si)
  · rfl

theorem emit_ok {schema : Value} (h : emit infos options fuel ti = some (.ok schema)) :
    ∃ root body s, Unwraps infos ti root ∧ RootWritten infos options root body s ∧
      schema = schemaOf s.defs body := by
  obtain ⟨root, hroot, h⟩ := Option.bind_eq_some_iff.mp h
  obtain ⟨result, hresult, h⟩ := Option.bind_eq_some_iff.mp h
  cases result with
  | error e => cases h
  | ok p =>
    obtain ⟨body, s⟩ := p
    cases h
    refine ⟨root, body, s, ⟨fuel, hroot⟩, ?_, rfl⟩
    by_cases hs : ∃ si, (infos root).shape = .structure si
    · obtain ⟨si, hs⟩ := hs
      rw [emitRoot_structure hs] at hresult
      have hbody : addStructBody options (makeSchema infos options root fuel) si
          options.rootDocument none (.start [nameOf infos root]) = some (.ok (body, s)) := hresult
      obtain ⟨props, hprops, rfl⟩ := addStructBody_written makeSchema_written hbody
      exact Or.inl ⟨si, props, hs, hprops, rfl⟩
    · have hs := not_exists.mp hs
      rw [emitRoot_other hs] at hresult
      obtain ⟨v, t, hv, hbody⟩ := bind_done.mp hresult
      obtain ⟨rfl, rfl⟩ := pure_done.mp hbody
      exact Or.inr ⟨hs, v, makeSchema_written hv, rfl⟩

end Kotatsu.Codec.Json.Schema
