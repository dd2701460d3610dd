import Mathlib.Order.Filter.AtTopBot.Basic
import Kotatsu.Codec.Json.Schema.Written

/-!
# Walks that are made again

What was written is written again from any state that knows the structs it named: it
refers to them, and leaves the state as it is. And more fuel gives what less fuel gave, so
that the emitter gives, with any fuel that is enough, what is written by the rules.
-/

namespace Kotatsu.Codec.Json.Schema

open Filter Kotatsu.Codec.Dyn

variable {I : Type} {α β : Type}

/-- Unwrapping gives with more fuel what it gave. -/
theorem unwrap_mono (hle : fuel ≤ fuel') {ti inner : I} (h : unwrap infos fuel ti = some inner) :
    unwrap infos fuel' ti = some inner := by
  induction fuel generalizing fuel' ti with
  | zero => cases h
  | succ fuel ih =>
    obtain ⟨fuel', rfl⟩ : ∃ k, fuel' = k + 1 := ⟨fuel' - 1, by omega⟩
    unfold unwrap at h ⊢
    split at h
    · exact ih (Nat.le_of_succ_le_succ hle) h
    · exact ih (Nat.le_of_succ_le_succ hle) h
    · exact h

theorem unwrap_agree {ti inner inner' : I} (h : unwrap infos fuel ti = some inner)
    (h' : unwrap infos fuel' ti = some inner') : inner = inner' := by
  have hmore := unwrap_mono (Nat.le_max_left fuel fuel') h
  rw [unwrap_mono (Nat.le_max_right fuel fuel') h'] at hmore
  exact (Option.some.inj hmore).symm

theorem unwraps_self (h : innerOf (infos ti).shape = none) : ∃ inner, Unwraps infos ti inner := by
  refine ⟨ti, 1, ?_⟩
  unfold unwrap
  split
  · next inner hs =>
    rw [hs] at h
    cases h
  · next inner hs =>
    rw [hs] at h
    cases h
  · rfl

/-! ## Again -/

variable [DecidableEq I]

/-- A state has the names another one has. -/
def State.Knows (s t : State I) : Prop :=
  ∀ ti name, t.defNames.lookup ti = some name → s.defNames.lookup ti = some name

theorem State.Knows.refl (s : State I) : s.Knows s := fun _ _ h => h

theorem State.Knows.trans {s t u : State I} (h : s.Knows t) (h' : t.Knows u) : s.Knows u :=
  fun ti name hname => h ti name (h' ti name hname)

theorem State.named_knows (s : State I) (ti : I) (name : String) : (s.named ti name).Knows s :=
  fun tj old h => by
    rw [State.named, List.lookup_append, h]
    rfl

theorem State.lookup_named {s : State I} (h : s.defNames.lookup ti = none) (name : String) :
    (s.named ti name).defNames.lookup ti = some name := by
  rw [State.named, List.lookup_append, h, Option.none_or, List.lookup_cons_self]

variable {infos : Infos I} {options : Options I} {root ti : I} {s s' : State I} {j : Judgement I}

/-- What is written is written again from a state that knows the names it ended with. -/
theorem Written.again (h : Written infos options root s j s') :
    s'.Knows s ∧ ∀ u : State I, u.Knows s' → Written infos options root u j u := by
  induction h with
  | leaf h => exact ⟨.refl _, fun u _ => .leaf h⟩
  | nullable h hu _ ih => exact ⟨ih.1, fun u hk => .nullable h hu (ih.2 u hk)⟩
  | array h _ ih => exact ⟨ih.1, fun u hk => .array h (ih.2 u hk)⟩
  | map h _ ih => exact ⟨ih.1, fun u hk => .map h (ih.2 u hk)⟩
  | tuple h _ ih => exact ⟨ih.1, fun u hk => .tuple h (ih.2 u hk)⟩
  | root h => exact ⟨.refl _, fun u _ => .root h⟩
  | known h hroot hname => exact ⟨.refl _, fun u hk => .known h hroot (hk _ _ hname)⟩
  | named h hroot hnew _ _ ih =>
    refine ⟨State.Knows.trans ih.1 (State.named_knows _ _ _), fun u hk => .known h hroot ?_⟩
    exact hk _ _ (ih.1 _ _ (State.lookup_named hnew _))
  | variant h _ ih => exact ⟨ih.1, fun u hk => .variant h (ih.2 u hk)⟩
  | noProps => exact ⟨.refl _, fun u _ => .noProps⟩
  | props hdefault _ hc _ ih ih' =>
    exact ⟨ih'.1.trans ih.1, fun u hk => .props hdefault (ih.2 u (hk.trans ih'.1)) hc (ih'.2 u hk)⟩
  | noElements => exact ⟨.refl _, fun u _ => .noElements⟩
  | elements _ _ ih ih' =>
    exact ⟨ih'.1.trans ih.1, fun u hk => .elements (ih.2 u (hk.trans ih'.1)) (ih'.2 u hk)⟩
  | noAlternatives => exact ⟨.refl _, fun u _ => .noAlternatives⟩
  | wrapped ht _ _ ih ih' =>
    exact ⟨ih'.1.trans ih.1, fun u hk => .wrapped ht (ih.2 u (hk.trans ih'.1)) (ih'.2 u hk)⟩
  | internal _ _ ih ih' =>
    exact ⟨ih'.1.trans ih.1, fun u hk => .internal (ih.2 u (hk.trans ih'.1)) (ih'.2 u hk)⟩
  | taggedUnit hu h => exact ⟨.refl _, fun u _ => .taggedUnit hu h⟩
  | taggedStruct hu h _ ih => exact ⟨ih.1, fun u hk => .taggedStruct hu h (ih.2 u hk)⟩
  | taggedSchema hu hnull hstruct _ ih =>
    exact ⟨ih.1, fun u hk => .taggedSchema hu hnull hstruct (ih.2 u hk)⟩

/-! ## More fuel -/

/-- What `x` gives, `y` gives too. -/
def Gives (x y : Emit I α) : Prop := ∀ s r, x s = some r → y s = some r

omit [DecidableEq I] in
theorem Gives.refl (x : Emit I α) : Gives x x := fun _ _ h => h

omit [DecidableEq I] in
theorem Gives.bind {x y : Emit I α} {f g : α → Emit I β} (hx : Gives x y)
    (hf : ∀ a, Gives (f a) (g a)) : Gives (x >>= f) (y >>= g) := by
  intro s r h
  rcases bind_some h with ⟨e, he, rfl⟩ | ⟨a, t, ht, h⟩
  · exact bind_error (hx s _ he)
  · exact (bind_ok (hx s _ ht)).trans (hf a t r h)

omit [DecidableEq I] in
theorem gives_unwrap {fuel fuel' : Nat} (hle : fuel ≤ fuel') :
    Gives (ofFuel (unwrap infos fuel ti) : Emit I I) (ofFuel (unwrap infos fuel' ti)) := by
  intro s r h
  obtain ⟨inner, hinner, rfl⟩ := Option.map_eq_some_iff.mp h
  rw [unwrap_mono hle hinner]
  rfl

section Walk

variable {m m' : I → Emit I Value} (hrec : ∀ ti, Gives (m ti) (m' ti))

include hrec

omit [DecidableEq I] in
theorem gives_makeProperties (doc : Option Object) (fields : List (FieldInfo I)) :
    Gives (makeProperties m doc fields) (makeProperties m' doc fields) := by
  induction fields with
  | nil => exact .refl _
  | cons f fields ih =>
    have hfield : Gives (makeField m doc f) (makeField m' doc f) := by
      unfold makeField
      split
      · exact .refl _
      · exact (hrec _).bind fun v => .refl _
    exact hfield.bind fun es => ih.bind fun rest => .refl _

omit [DecidableEq I] in
theorem gives_addStructBody (si : StructTypeInfo I) (doc : Option Object)
    (tag : Option InternalTag) :
    Gives (addStructBody options m si doc tag) (addStructBody options m' si doc tag) :=
  (gives_makeProperties hrec doc si.fields).bind fun _ => .refl _

omit [DecidableEq I] in
theorem gives_makeElements (tis : List I) : Gives (makeElements m tis) (makeElements m' tis) := by
  induction tis with
  | nil => exact .refl _
  | cons ti tis ih => exact (hrec ti).bind fun v => ih.bind fun vs => .refl _

theorem gives_makeStructRef (ti : I) (si : StructTypeInfo I) :
    Gives (makeStructRef infos options root m ti si)
      (makeStructRef infos options root m' ti si) := by
  unfold makeStructRef
  split
  · exact .refl _
  · refine (Gives.refl _).bind fun s => ?_
    split
    · exact .refl _
    · dsimp only
      split
      · exact .refl _
      · exact (Gives.refl _).bind fun _ =>
          (gives_addStructBody hrec _ _ _).bind fun body => .refl _

omit [DecidableEq I] in
theorem gives_makeInternalTagged {fuel fuel' : Nat} (hle : fuel ≤ fuel') (ti : I)
    (tag : InternalTag) : Gives (makeInternalTagged infos options fuel m ti tag)
      (makeInternalTagged infos options fuel' m' ti tag) := by
  refine (gives_unwrap hle).bind fun inner => ?_
  split
  · exact (gives_addStructBody hrec unit none (some tag)).bind fun body => .refl _
  · exact (gives_addStructBody hrec _ _ (some tag)).bind fun body => .refl _
  · exact (hrec inner).bind fun v => .refl _

omit [DecidableEq I] in
theorem gives_makeAlternatives {fuel fuel' : Nat} (hle : fuel ≤ fuel')
    (vi : VariantTypeInfo I) (tagging : TagMode) (i : Nat) (tis : List I) :
    Gives (makeAlternatives infos options fuel m vi tagging i tis)
      (makeAlternatives infos options fuel' m' vi tagging i tis) := by
  induction tis generalizing i with
  | nil => exact .refl _
  | cons ti tis ih =>
    have hturn : Gives (makeAlternative infos options fuel m vi tagging i ti)
        (makeAlternative infos options fuel' m' vi tagging i ti) := by
      cases tagging with
      | none => exact hrec ti
      | external => exact (hrec ti).bind fun v => .refl _
      | internal => exact gives_makeInternalTagged hrec hle ti _
      | adjacent => exact (hrec ti).bind fun v => .refl _
    exact hturn.bind fun v => (ih (i + 1)).bind fun vs => .refl _

end Walk

/-- What the emitter gives with some fuel it gives with more. -/
theorem gives_makeSchema {fuel fuel' : Nat} (hle : fuel ≤ fuel') (ti : I) :
    Gives (makeSchema infos options root fuel ti) (makeSchema infos options root fuel' ti) := by
  induction fuel generalizing fuel' ti with
  | zero =>
    intro s r h
    cases h
  | succ fuel ih =>
    obtain ⟨fuel', rfl⟩ : ∃ k, fuel' = k + 1 := ⟨fuel' - 1, by omega⟩
    have hle' : fuel ≤ fuel' := Nat.le_of_succ_le_succ hle
    have hrec := fun ti => ih hle' ti
    unfold makeSchema
    split
    · exact (gives_unwrap hle').bind fun inner => (hrec inner).bind fun v => .refl _
    · exact (gives_unwrap hle').bind fun inner => (hrec inner).bind fun v => .refl _
    · exact (hrec _).bind fun v => .refl _
    · exact (hrec _).bind fun v => .refl _
    · exact (hrec _).bind fun v => .refl _
    · exact (gives_makeElements hrec _).bind fun vs => .refl _
    · exact gives_makeStructRef hrec ti _
    · exact (gives_makeAlternatives hrec hle' _ _ 0 _).bind fun vs => .refl _
    · exact .refl _

/-! ## Enough fuel -/

/-- With some fuel the emitter gives what is written. -/
def Judgement.GivenAt (infos : Infos I) (options : Options I) (root : I) (s s' : State I)
    (fuel : Nat) : Judgement I → Prop
  | .schema ti v => makeSchema infos options root fuel ti s = some (.ok (v, s'))
  | .props doc fields es =>
    makeProperties (makeSchema infos options root fuel) doc fields s = some (.ok (es, s'))
  | .elements tis vs =>
    makeElements (makeSchema infos options root fuel) tis s = some (.ok (vs, s'))
  | .alternatives vi tagging i tis vs =>
    makeAlternatives infos options fuel (makeSchema infos options root fuel) vi tagging i tis s =
      some (.ok (vs, s'))
  | .tagged ti tag v =>
    makeInternalTagged infos options fuel (makeSchema infos options root fuel) ti tag s =
      some (.ok (v, s'))

theorem eventually_succ {P : Nat → Prop} (h : ∀ᶠ k in atTop, P (k + 1)) : ∀ᶠ k in atTop, P k := by
  rw [← map_add_atTop_eq_nat 1]
  exact h

omit [DecidableEq I] in
theorem Unwraps.eventually {inner : I} (h : Unwraps infos ti inner) :
    ∀ᶠ k in atTop, unwrap infos k ti = some inner := by
  obtain ⟨fuel, hfuel⟩ := h
  filter_upwards [eventually_ge_atTop fuel] with k hk using unwrap_mono hk hfuel

/-- What is written is given with all fuel that is enough. -/
theorem Written.given (h : Written infos options root s j s') :
    ∀ᶠ fuel in atTop, j.GivenAt infos options root s s' fuel := by
  induction h with
  | leaf h =>
    refine eventually_succ (.of_forall fun k => ?_)
    exact makeSchema_leaf h
  | nullable h hu _ ih =>
    refine eventually_succ ?_
    filter_upwards [ih, hu.eventually] with k hk hinner
    change makeSchema infos options root (k + 1) _ _ = _
    rw [makeSchema_held h, hinner]
    exact bind_done.mpr ⟨_, _, rfl, bind_done.mpr ⟨_, _, hk, rfl⟩⟩
  | array h _ ih =>
    refine eventually_succ ?_
    filter_upwards [ih] with k hk
    change makeSchema infos options root (k + 1) _ _ = _
    rw [makeSchema_element h]
    exact bind_done.mpr ⟨_, _, hk, rfl⟩
  | map h _ ih =>
    refine eventually_succ ?_
    filter_upwards [ih] with k hk
    change makeSchema infos options root (k + 1) _ _ = _
    simp only [makeSchema, h]
    exact bind_done.mpr ⟨_, _, hk, rfl⟩
  | tuple h _ ih =>
    refine eventually_succ ?_
    filter_upwards [ih] with k hk
    change makeSchema infos options root (k + 1) _ _ = _
    simp only [makeSchema, h]
    exact bind_done.mpr ⟨_, _, hk, rfl⟩
  | root h =>
    refine eventually_succ (.of_forall fun k => ?_)
    change makeSchema infos options root (k + 1) _ _ = _
    rw [makeSchema_structure h, makeStructRef_root rfl]
  | known h hroot hname =>
    refine eventually_succ (.of_forall fun k => ?_)
    change makeSchema infos options root (k + 1) _ _ = _
    rw [makeSchema_structure h, makeStructRef_known hroot hname]
  | named h hroot hnew hfresh _ ih =>
    refine eventually_succ ?_
    filter_upwards [ih] with k hk
    change makeSchema infos options root (k + 1) _ _ = _
    rw [makeSchema_structure h, makeStructRef_new hroot hnew hfresh]
    exact bind_done.mpr ⟨_, _, bind_done.mpr ⟨_, _, hk, rfl⟩, rfl⟩
  | variant h _ ih =>
    refine eventually_succ ?_
    filter_upwards [ih] with k hk
    change makeSchema infos options root (k + 1) _ _ = _
    rw [makeSchema_variant h]
    exact bind_done.mpr ⟨_, _, hk, rfl⟩
  | noProps => exact .of_forall fun _ => rfl
  | props hdefault _ hc _ ih ih' =>
    filter_upwards [ih, ih'] with k hv hrest
    refine bind_done.mpr ⟨_, _, ?_, bind_done.mpr ⟨_, _, hrest, rfl⟩⟩
    unfold makeField
    rw [if_neg hdefault]
    exact bind_done.mpr ⟨_, _, hv, bind_done.mpr ⟨_, _, ofExcept_done.mpr ⟨hc, rfl⟩, rfl⟩⟩
  | noElements => exact .of_forall fun _ => rfl
  | elements _ _ ih ih' =>
    filter_upwards [ih, ih'] with k hv hrest
    exact bind_done.mpr ⟨_, _, hv, bind_done.mpr ⟨_, _, hrest, rfl⟩⟩
  | noAlternatives => exact .of_forall fun _ => rfl
  | @wrapped _ _ _ _ tagging _ _ _ _ _ ht _ _ ih ih' =>
    filter_upwards [ih, ih'] with k hv hrest
    refine bind_done.mpr ⟨_, _, ?_, bind_done.mpr ⟨_, _, hrest, rfl⟩⟩
    cases tagging with
    | internal => exact absurd rfl ht
    | none => exact hv
    | external => exact bind_done.mpr ⟨_, _, hv, rfl⟩
    | adjacent => exact bind_done.mpr ⟨_, _, hv, rfl⟩
  | internal _ _ ih ih' =>
    filter_upwards [ih, ih'] with k hv hrest
    exact bind_done.mpr ⟨_, _, hv, bind_done.mpr ⟨_, _, hrest, rfl⟩⟩
  | taggedUnit hu h =>
    filter_upwards [hu.eventually] with k hinner
    refine bind_done.mpr ⟨_, _, ofFuel_done.mpr ⟨hinner, rfl⟩, ?_⟩
    rw [h]
    rfl
  | taggedStruct hu h _ ih =>
    filter_upwards [ih, hu.eventually] with k hk hinner
    refine bind_done.mpr ⟨_, _, ofFuel_done.mpr ⟨hinner, rfl⟩, ?_⟩
    rw [h]
    exact bind_done.mpr ⟨_, _, bind_done.mpr ⟨_, _, hk, rfl⟩, rfl⟩
  | @taggedSchema _ _ _ inner _ _ hu hnull hstruct _ ih =>
    filter_upwards [ih, hu.eventually] with k hk hinner
    refine bind_done.mpr ⟨_, _, ofFuel_done.mpr ⟨hinner, rfl⟩, ?_⟩
    cases hs : (infos inner).shape
    case null => exact absurd hs hnull
    all_goals first
      | exact absurd hs (hstruct _)
      | exact bind_done.mpr ⟨_, _, hk, rfl⟩

end Kotatsu.Codec.Json.Schema
