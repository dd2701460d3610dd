import Mathlib.Data.Fintype.EquivFin
import Mathlib.Data.Fintype.Order
import Mathlib.Data.Set.Card
import Mathlib.Logic.Relation
import Kotatsu.Codec.Json.Schema.Refs
import Kotatsu.Codec.Json.Schema.Repeats

/-!
# Cycles of infos

A struct is referred to, so a cycle through a reference ends at the second turn; what is
written in place is written again at each turn. On a finite graph the emitter comes to an
end just where its walk, followed in its order up to the first error, comes to no info that
is written in place within itself: a variant, a sequence, a map or a tuple that holds
itself, and an internally tagged alternative whose fields hold its variant, are walked for
ever, unless an error stops the walk before.
-/

namespace Kotatsu.Codec.Json.Schema

open Filter Kotatsu.Codec.Dyn

variable {I α β γ : Type}

/-! ## Loops -/

/-- A loop that takes one turn for each item of a list and puts together what they give. -/
structure Loop (run : Nat → List α → Emit I γ) (turn : Nat → α → Emit I β) : Prop where
  nil : ∀ i, ∃ c, run i [] = pure c
  cons : ∀ i x xs, ∃ g : β → γ → γ,
    run i (x :: xs) = turn i x >>= fun b => run (i + 1) xs >>= fun c => pure (g b c)

theorem ne_none_of_bind {x : Emit I α} {f : α → Emit I β} {s : State I}
    (h : (x >>= f) s ≠ none) : x s ≠ none := fun hx => h (bind_none hx)

theorem bind_ne_none {x : Emit I α} {f : α → Emit I β} {s : State I} (hx : x s ≠ none)
    (hf : ∀ a t, x s = some (.ok (a, t)) → f a t ≠ none) : (x >>= f) s ≠ none := by
  obtain ⟨r, hr⟩ := Option.ne_none_iff_exists'.mp hx
  cases r with
  | error e =>
    rw [bind_error hr]
    exact Option.some_ne_none _
  | ok p =>
    rw [bind_ok hr]
    exact hf _ _ hr

/-- What begins by unwrapping an info comes to an end only where that does. -/
theorem unwrapped_ends {infos : Infos I} {k : Nat} {ti inner : I} {s : State I} {f : I → Emit I α}
    (h : (ofFuel (unwrap infos k ti) >>= f) s ≠ none) (hu : Unwraps infos ti inner) :
    f inner s ≠ none := by
  obtain ⟨fuel, hfuel⟩ := hu
  cases hinner : unwrap infos k ti with
  | none =>
    rw [hinner] at h
    exact absurd (bind_none rfl) h
  | some inner' =>
    obtain rfl := unwrap_agree hfuel hinner
    rw [hinner] at h
    exact h

theorem unwraps_of_ends {infos : Infos I} {k : Nat} {ti : I} {s : State I} {f : I → Emit I α}
    (h : (ofFuel (unwrap infos k ti) >>= f) s ≠ none) : ∃ inner, Unwraps infos ti inner := by
  cases hinner : unwrap infos k ti with
  | none =>
    rw [hinner] at h
    exact absurd (bind_none rfl) h
  | some inner => exact ⟨inner, k, hinner⟩

theorem pure_ne_none (a : α) (s : State I) : (pure a : Emit I α) s ≠ none :=
  Option.some_ne_none _

section Loop

variable {run : Nat → List α → Emit I γ} {turn : Nat → α → Emit I β} {s s' : State I} {i : Nat}
  {c : γ}

/-- A loop that comes to an end comes to one over what it begins with. -/
theorem Loop.front_ends (hl : Loop run turn) {front back : List α}
    (h : run i (front ++ back) s ≠ none) : run i front s ≠ none := by
  induction front generalizing i s with
  | nil =>
    obtain ⟨c, hc⟩ := hl.nil i
    rw [hc]
    exact pure_ne_none c s
  | cons x front ih =>
    obtain ⟨g, hg⟩ := hl.cons i x (front ++ back)
    obtain ⟨g', hg'⟩ := hl.cons i x front
    rw [List.cons_append, hg] at h
    rw [hg']
    refine bind_ne_none (ne_none_of_bind h) fun b t hb => ?_
    rw [bind_ok hb] at h
    exact bind_ne_none (ih (ne_none_of_bind h)) fun c t' _ => pure_ne_none _ _

/-- So does the turn it comes to. -/
theorem Loop.turn_ends (hl : Loop run turn) {front back : List α} {x : α}
    (h : run i (front ++ x :: back) s ≠ none) (hfront : run i front s = some (.ok (c, s'))) :
    turn (i + front.length) x s' ≠ none := by
  induction front generalizing i s c with
  | nil =>
    obtain ⟨c', hc⟩ := hl.nil i
    rw [hc] at hfront
    obtain ⟨rfl, rfl⟩ := pure_done.mp hfront
    obtain ⟨g, hg⟩ := hl.cons i x back
    rw [List.nil_append, hg] at h
    exact ne_none_of_bind h
  | cons y front ih =>
    obtain ⟨g, hg⟩ := hl.cons i y (front ++ x :: back)
    obtain ⟨g', hg'⟩ := hl.cons i y front
    rw [List.cons_append, hg] at h
    rw [hg'] at hfront
    obtain ⟨b, t, hb, hrest⟩ := bind_done.mp hfront
    obtain ⟨c', t', hc, hpure⟩ := bind_done.mp hrest
    obtain ⟨-, rfl⟩ := pure_done.mp hpure
    rw [bind_ok hb] at h
    rw [List.length_cons, Nat.add_comm front.length, ← Nat.add_assoc]
    exact ih (ne_none_of_bind h) hc

/-- A loop ends when each turn does that it comes to. -/
theorem Loop.ends (hl : Loop run turn) {xs : List α}
    (h : ∀ front x back c s', xs = front ++ x :: back → run i front s = some (.ok (c, s')) →
      turn (i + front.length) x s' ≠ none) : run i xs s ≠ none := by
  induction xs generalizing i s with
  | nil =>
    obtain ⟨c, hc⟩ := hl.nil i
    rw [hc]
    exact pure_ne_none c s
  | cons x xs ih =>
    obtain ⟨g, hg⟩ := hl.cons i x xs
    obtain ⟨c0, hc0⟩ := hl.nil i
    rw [hg]
    refine bind_ne_none (h [] x xs c0 s rfl (by rw [hc0]; rfl)) fun b t hb => ?_
    refine bind_ne_none (ih fun front y back c s' hxs hfront => ?_) fun c t' _ => pure_ne_none _ _
    obtain ⟨g', hg'⟩ := hl.cons i x front
    have hlater := h (x :: front) y back (g' b c) s' (by rw [hxs, List.cons_append])
      (by rw [hg', bind_ok hb, bind_ok hfront]; rfl)
    rwa [List.length_cons, Nat.add_comm front.length, ← Nat.add_assoc] at hlater

end Loop

theorem loop_makeElements (m : I → Emit I Value) :
    Loop (fun _ => makeElements m) fun _ => m :=
  ⟨fun _ => ⟨[], rfl⟩, fun _ _ _ => ⟨List.cons, rfl⟩⟩

theorem loop_makeProperties (m : I → Emit I Value) (doc : Option Object) :
    Loop (fun _ => makeProperties m doc) fun _ => makeField m doc :=
  ⟨fun _ => ⟨[], rfl⟩, fun _ _ _ => ⟨List.append, rfl⟩⟩

theorem loop_makeAlternatives (infos : Infos I) (options : Options I) (fuel : Nat)
    (m : I → Emit I Value) (vi : VariantTypeInfo I) (tagging : TagMode) :
    Loop (makeAlternatives infos options fuel m vi tagging)
      (makeAlternative infos options fuel m vi tagging) :=
  ⟨fun _ => ⟨[], rfl⟩, fun _ _ _ => ⟨List.cons, rfl⟩⟩

/-- What is written is what a loop gives, with any fuel with which it comes to an end. -/
theorem given_of_ends (run : Nat → Emit I γ) {s s' : State I} {c : γ} {k : Nat}
    (hmore : ∀ k', k ≤ k' → Gives (run k) (run k')) (hends : run k s ≠ none)
    (hgiven : ∀ᶠ fuel in atTop, run fuel s = some (.ok (c, s'))) :
    run k s = some (.ok (c, s')) := by
  obtain ⟨r, hr⟩ := Option.ne_none_iff_exists'.mp hends
  obtain ⟨k', hk', hle⟩ := (hgiven.and (eventually_ge_atTop k)).exists
  rw [hmore k' hle s r hr] at hk'
  rw [hr, hk']

/-! ## What is written in place -/

/-- The infos whose schemas stand in the schema of a sequence, a map or a tuple. -/
def partsOf : Shape I → List I
  | .array element | .set element => [element]
  | .map _ value => [value]
  | .tuple elements => elements
  | _ => []

section Walk

variable [DecidableEq I] (infos : Infos I) (options : Options I) (root : I)

/-- The walk comes from an info to one of its parts: those before it are written without an
error. -/
def PartAt (ti : I) (s s' : State I) (part : I) : Prop :=
  ∃ front back vs, partsOf (infos ti).shape = front ++ part :: back ∧
    Written infos options root s (.elements front vs) s'

/-- The walk comes from a variant to one of its alternatives. -/
def AlternativeAt (vi : VariantTypeInfo I) (s s' : State I) (alternative : I) : Prop :=
  ∃ front back vs, vi.alternatives = front ++ alternative :: back ∧
    Written infos options root s (.alternatives vi (taggingOf options vi) 0 front vs) s'

/-- The walk comes from the body of a struct to the info of one of its fields. -/
def FieldAt (doc : Option Object) (si : StructTypeInfo I) (s s' : State I) (ti : I) : Prop :=
  ∃ f front back props, si.fields = front ++ f :: back ∧
    Written infos options root s (.props doc front props) s' ∧
    ¬(f.schemaDefault = false ∧ isRequired f) ∧ f.type = ti

/-- Writing the schema of an info from a state, the walk comes to write another one in place,
and from which state. -/
inductive Inlines : State I × I → State I × I → Prop where
  | held {s : State I} {ti held inner : I} (h : innerOf (infos ti).shape = some held)
    (hu : Unwraps infos ti inner) : Inlines (s, ti) (s, inner)
  | part {s s' : State I} {ti part : I} (h : PartAt infos options root ti s s' part) :
    Inlines (s, ti) (s', part)
  | alternative {s s' : State I} {ti alternative : I} {vi : VariantTypeInfo I}
    (h : (infos ti).shape = .variant vi) (htag : taggingOf options vi ≠ .internal)
    (ha : AlternativeAt infos options root vi s s' alternative) :
    Inlines (s, ti) (s', alternative)
  | tagged {s s' : State I} {ti alternative inner : I} {vi : VariantTypeInfo I}
    (h : (infos ti).shape = .variant vi) (htag : taggingOf options vi = .internal)
    (ha : AlternativeAt infos options root vi s s' alternative)
    (hu : Unwraps infos alternative inner) (hnull : (infos inner).shape ≠ .null)
    (hstruct : ∀ si, (infos inner).shape ≠ .structure si) : Inlines (s, ti) (s', inner)
  | field {s s' s'' : State I} {ti alternative inner ti' : I} {vi : VariantTypeInfo I}
    {si : StructTypeInfo I} (h : (infos ti).shape = .variant vi)
    (htag : taggingOf options vi = .internal)
    (ha : AlternativeAt infos options root vi s s' alternative)
    (hu : Unwraps infos alternative inner) (hs : (infos inner).shape = .structure si)
    (hf : FieldAt infos options root (options.freshDocument inner) si s' s'' ti') :
    Inlines (s, ti) (s'', ti')

/-- The infos whose schemas the walk comes to write, and from which states: in place, or for
the body of the root or of a struct that is named. -/
inductive Reaches : State I × I → Prop where
  | root (h : ∀ si, (infos root).shape ≠ .structure si) :
    Reaches (.start [], root)
  | rootField {si : StructTypeInfo I} {s : State I} {ti : I}
    (h : (infos root).shape = .structure si)
    (hf : FieldAt infos options root options.rootDocument si
      (.start [nameOf infos root]) s ti) : Reaches (s, ti)
  | inlines {c c' : State I × I} (h : Reaches c) (hi : Inlines infos options root c c') : Reaches c'
  | refers {s s' : State I} {ti ti' : I} {si : StructTypeInfo I} (h : Reaches (s, ti))
    (hs : (infos ti).shape = .structure si) (hroot : ti ≠ root)
    (hnew : s.defNames.lookup ti = none) (hfresh : nameOf infos ti ∉ s.usedNames)
    (hf : FieldAt infos options root (options.freshDocument ti) si
      (s.named ti (nameOf infos ti)) s' ti') : Reaches (s', ti')

/-- What the walk comes to is written in place within nothing that is the same, and the
optionals and pointers it unwraps end. -/
structure NoInlineCycle : Prop where
  acyclic : ∀ s ti s', Reaches infos options root (s, ti) →
    ¬Relation.TransGen (Inlines infos options root) (s, ti) (s', ti)
  unwraps : ∀ s ti, Reaches infos options root (s, ti) → ∃ inner, Unwraps infos ti inner
  tagged : ∀ s ti vi s' alternative, Reaches infos options root (s, ti) →
    (infos ti).shape = .variant vi → taggingOf options vi = .internal →
    AlternativeAt infos options root vi s s' alternative →
    ∃ inner, Unwraps infos alternative inner

end Walk

variable [DecidableEq I] {infos : Infos I} {options : Options I} {root : I} {doc : Option Object}
  {si : StructTypeInfo I} {vi : VariantTypeInfo I} {s s' : State I} {ti ti' : I} {k : Nat}
  {c c' : State I × I}

theorem PartAt.turn_ends (h : PartAt infos options root ti s s' ti')
    (hends : makeElements (makeSchema infos options root k) (partsOf (infos ti).shape) s ≠ none) :
    makeSchema infos options root k ti' s' ≠ none := by
  obtain ⟨front, back, vs, hparts, hw⟩ := h
  have hl := loop_makeElements (makeSchema infos options root k)
  rw [hparts] at hends
  have hfront := given_of_ends (fun k => makeElements (makeSchema infos options root k) front)
    (fun _ hle => gives_makeElements (gives_makeSchema hle) front)
    (hl.front_ends (i := 0) hends) hw.given
  exact hl.turn_ends (i := 0) hends hfront

theorem AlternativeAt.turn_ends (h : AlternativeAt infos options root vi s s' ti)
    (hends : makeAlternatives infos options k (makeSchema infos options root k) vi
      (taggingOf options vi) 0 vi.alternatives s ≠ none) :
    ∃ i, makeAlternative infos options k (makeSchema infos options root k) vi
      (taggingOf options vi) i ti s' ≠ none := by
  obtain ⟨front, back, vs, halternatives, hw⟩ := h
  have hl := loop_makeAlternatives infos options k (makeSchema infos options root k) vi
    (taggingOf options vi)
  rw [halternatives] at hends
  have hfront := given_of_ends (fun k => makeAlternatives infos options k
      (makeSchema infos options root k) vi (taggingOf options vi) 0 front)
    (fun _ hle => gives_makeAlternatives (gives_makeSchema hle) hle vi _ 0 front)
    (hl.front_ends hends) hw.given
  exact ⟨_, hl.turn_ends hends hfront⟩

theorem FieldAt.turn_ends (h : FieldAt infos options root doc si s s' ti)
    (hends : makeProperties (makeSchema infos options root k) doc si.fields s ≠ none) :
    makeSchema infos options root k ti s' ≠ none := by
  obtain ⟨f, front, back, props, hfields, hw, hdefault, rfl⟩ := h
  have hl := loop_makeProperties (makeSchema infos options root k) doc
  rw [hfields] at hends
  have hfront := given_of_ends (fun k => makeProperties (makeSchema infos options root k) doc front)
    (fun _ hle => gives_makeProperties (gives_makeSchema hle) doc front)
    (hl.front_ends (i := 0) hends) hw.given
  have hfield := hl.turn_ends (i := 0) hends hfront
  unfold makeField at hfield
  rw [if_neg hdefault] at hfield
  exact ne_none_of_bind hfield

theorem PartAt.again (h : PartAt infos options root ti s s' ti') :
    s'.Knows s ∧ ∀ u : State I, u.Knows s' → PartAt infos options root ti u u ti' := by
  obtain ⟨front, back, vs, hparts, hw⟩ := h
  exact ⟨hw.again.1, fun u hu => ⟨front, back, vs, hparts, hw.again.2 u hu⟩⟩

theorem AlternativeAt.again (h : AlternativeAt infos options root vi s s' ti) :
    s'.Knows s ∧ ∀ u : State I, u.Knows s' → AlternativeAt infos options root vi u u ti := by
  obtain ⟨front, back, vs, halternatives, hw⟩ := h
  exact ⟨hw.again.1, fun u hu => ⟨front, back, vs, halternatives, hw.again.2 u hu⟩⟩

theorem FieldAt.again (h : FieldAt infos options root doc si s s' ti) :
    s'.Knows s ∧ ∀ u : State I, u.Knows s' → FieldAt infos options root doc si u u ti := by
  obtain ⟨f, front, back, props, hfields, hw, hdefault, hti⟩ := h
  exact ⟨hw.again.1, fun u hu => ⟨f, front, back, props, hfields, hw.again.2 u hu, hdefault, hti⟩⟩

/-- What was written in place once is written in place again, from a later state. -/
theorem Inlines.again (h : Inlines infos options root c c') :
    c'.1.Knows c.1 ∧
      ∀ u : State I, u.Knows c'.1 → Inlines infos options root (u, c.2) (u, c'.2) := by
  cases h with
  | held h hu => exact ⟨.refl _, fun u _ => .held h hu⟩
  | part h => exact ⟨h.again.1, fun u hk => .part (h.again.2 u hk)⟩
  | alternative h htag ha => exact ⟨ha.again.1, fun u hk => .alternative h htag (ha.again.2 u hk)⟩
  | tagged h htag ha hu hnull hstruct =>
    exact ⟨ha.again.1, fun u hk => .tagged h htag (ha.again.2 u hk) hu hnull hstruct⟩
  | field h htag ha hu hs hf =>
    refine ⟨hf.again.1.trans ha.again.1, fun u hk => .field h htag ?_ hu hs (hf.again.2 u hk)⟩
    exact ha.again.2 u (State.Knows.trans hk hf.again.1)

/-- A cycle in place closes in the state it ends in. -/
theorem transGen_again {u : State I} (h : Relation.TransGen (Inlines infos options root) c c')
    (hu : u.Knows c'.1) : Relation.TransGen (Inlines infos options root) (u, c.2) (u, c'.2) := by
  induction h with
  | single h => exact .single (h.again.2 u hu)
  | tail _ h ih => exact (ih (hu.trans h.again.1)).tail (h.again.2 u hu)

/-! ## A walk that ends has no cycle -/

theorem parts_end (h : makeSchema infos options root (k + 1) ti s ≠ none) :
    makeElements (makeSchema infos options root k) (partsOf (infos ti).shape) s ≠ none := by
  unfold makeSchema at h
  cases hs : (infos ti).shape with
  | array element =>
    rw [hs] at h
    exact bind_ne_none (ne_none_of_bind h) fun _ _ _ => Option.some_ne_none _
  | set element =>
    rw [hs] at h
    exact bind_ne_none (ne_none_of_bind h) fun _ _ _ => Option.some_ne_none _
  | map key value =>
    rw [hs] at h
    exact bind_ne_none (ne_none_of_bind h) fun _ _ _ => Option.some_ne_none _
  | tuple elements =>
    rw [hs] at h
    exact ne_none_of_bind h
  | _ => exact pure_ne_none _ _

/-- The turn for an internally tagged alternative that the walk of a variant comes to. -/
theorem AlternativeAt.tagged_ends (h : AlternativeAt infos options root vi s s' ti')
    (hs : (infos ti).shape = .variant vi) (htag : taggingOf options vi = .internal)
    (hk : makeSchema infos options root (k + 1) ti s ≠ none) :
    ∃ tag, makeInternalTagged infos options k (makeSchema infos options root k) ti' tag s' ≠
      none := by
  rw [makeSchema_variant hs] at hk
  obtain ⟨i, hi⟩ := h.turn_ends (ne_none_of_bind hk)
  rw [htag] at hi
  exact ⟨_, hi⟩

/-- What the walk comes to in place takes less fuel. -/
theorem Inlines.ends (h : Inlines infos options root c c')
    (hk : makeSchema infos options root (k + 1) c.2 c.1 ≠ none) :
    makeSchema infos options root k c'.2 c'.1 ≠ none := by
  cases h with
  | held h hu =>
    rw [makeSchema_held h] at hk
    exact ne_none_of_bind (unwrapped_ends hk hu)
  | part h => exact h.turn_ends (parts_end hk)
  | @alternative s s' ti alternative vi h htag ha =>
    rw [makeSchema_variant h] at hk
    obtain ⟨i, hi⟩ := ha.turn_ends (ne_none_of_bind hk)
    unfold makeAlternative at hi
    cases ht : taggingOf options vi with
    | internal => exact absurd ht htag
    | none =>
      rw [ht] at hi
      exact hi
    | external =>
      rw [ht] at hi
      exact ne_none_of_bind hi
    | adjacent =>
      rw [ht] at hi
      exact ne_none_of_bind hi
  | @tagged _ _ _ _ inner _ h htag ha hu hnull hstruct =>
    obtain ⟨tag, ht⟩ := ha.tagged_ends h htag hk
    have hinner := unwrapped_ends ht hu
    cases hs : (infos inner).shape
    case null => exact absurd hs hnull
    all_goals first
      | exact absurd hs (hstruct _)
      | exact ne_none_of_bind (hs ▸ hinner)
  | @field _ _ _ _ _ _ _ _ si h htag ha hu hs hf =>
    obtain ⟨tag, ht⟩ := ha.tagged_ends h htag hk
    have hinner := unwrapped_ends ht hu
    rw [hs] at hinner
    exact hf.turn_ends (ne_none_of_bind (ne_none_of_bind hinner))

theorem exists_fuel (hk : makeSchema infos options root k ti s ≠ none) : ∃ j, k = j + 1 := by
  cases k with
  | zero => exact absurd rfl hk
  | succ j => exact ⟨j, rfl⟩

theorem transGen_ends (h : Relation.TransGen (Inlines infos options root) c c')
    (hk : makeSchema infos options root k c.2 c.1 ≠ none) :
    ∃ k' < k, makeSchema infos options root k' c'.2 c'.1 ≠ none := by
  induction h with
  | single h =>
    obtain ⟨j, rfl⟩ := exists_fuel hk
    exact ⟨j, Nat.lt_succ_self j, h.ends hk⟩
  | tail _ h ih =>
    obtain ⟨k', hlt, hk'⟩ := ih
    obtain ⟨j, rfl⟩ := exists_fuel hk'
    exact ⟨j, Nat.lt_of_succ_lt hlt, h.ends hk'⟩

/-- What is written in place within itself is never written to an end. -/
theorem not_ends_of_cycle (h : Relation.TransGen (Inlines infos options root) (s, ti) (s, ti))
    (k : Nat) : makeSchema infos options root k ti s = none := by
  by_contra hk
  induction k using Nat.strong_induction_on with
  | _ k ih =>
    obtain ⟨k', hlt, hk'⟩ := transGen_ends h hk
    exact ih k' hlt hk'

/-- What the walk comes to is written to an end where the root is. -/
theorem Reaches.ends {fuel : Nat} (hroot : emitRoot infos options fuel root (.start []) ≠ none)
    (h : Reaches infos options root c) : ∃ k, makeSchema infos options root k c.2 c.1 ≠ none := by
  induction h with
  | root hs =>
    rw [emitRoot_other hs] at hroot
    exact ⟨fuel, ne_none_of_bind hroot⟩
  | rootField hs hf =>
    rw [emitRoot_structure hs] at hroot
    have hbody : addStructBody options (makeSchema infos options root fuel) _ options.rootDocument
        none (.start [nameOf infos root]) ≠ none := hroot
    exact ⟨fuel, hf.turn_ends (ne_none_of_bind hbody)⟩
  | inlines _ hi ih =>
    obtain ⟨k, hk⟩ := ih
    obtain ⟨k', -, hk'⟩ := transGen_ends (.single hi) hk
    exact ⟨k', hk'⟩
  | refers _ hs hne hnew hfresh hf ih =>
    obtain ⟨_, hk⟩ := ih
    obtain ⟨k, rfl⟩ := exists_fuel hk
    rw [makeSchema_structure hs, makeStructRef_new hne hnew hfresh] at hk
    exact ⟨k, hf.turn_ends (ne_none_of_bind (ne_none_of_bind hk))⟩

/-- Where the emitter comes to an end, its walk comes to no cycle in place. -/
theorem noInlineCycle_of_ends {fuel : Nat}
    (hroot : emitRoot infos options fuel root (.start []) ≠ none) :
    NoInlineCycle infos options root where
  acyclic s ti s' h hcycle := by
    obtain ⟨k, hk⟩ := Reaches.ends hroot h
    obtain ⟨k', -, hk'⟩ := transGen_ends hcycle hk
    have hagain := transGen_again hcycle (.refl s')
    exact hk' (not_ends_of_cycle hagain k')
  unwraps s ti h := by
    obtain ⟨k, hk⟩ := Reaches.ends hroot h
    cases hinner : innerOf (infos ti).shape with
    | none => exact unwraps_self hinner
    | some held =>
      obtain ⟨k, rfl⟩ := exists_fuel hk
      rw [makeSchema_held hinner] at hk
      exact unwraps_of_ends hk
  tagged s ti vi s' alternative h hs htag ha := by
    obtain ⟨k, hk⟩ := Reaches.ends hroot h
    obtain ⟨k, rfl⟩ := exists_fuel hk
    obtain ⟨tag, ht⟩ := ha.tagged_ends hs htag hk
    exact unwraps_of_ends ht

/-! ## Without a cycle the walk ends -/

/-- The body of a struct ends when the schema of each field does that the walk comes to. -/
theorem addStructBody_ends (tag : Option InternalTag)
    (h : ∀ s' ti', FieldAt infos options root doc si s s' ti' →
      makeSchema infos options root k ti' s' ≠ none) :
    addStructBody options (makeSchema infos options root k) si doc tag s ≠ none := by
  refine bind_ne_none ?_ fun _ _ _ => pure_ne_none _ _
  refine (loop_makeProperties _ doc).ends (i := 0) fun front f back es s' hfields hfront => ?_
  unfold makeField
  split
  · exact Option.some_ne_none _
  · next hdefault =>
    have hw := makeProperties_written makeSchema_written hfront
    have hfield := h s' f.type ⟨f, front, back, es, hfields, hw, hdefault, rfl⟩
    refine bind_ne_none hfield fun v t _ => ?_
    exact bind_ne_none (Option.some_ne_none _) fun _ _ _ => pure_ne_none _ _

theorem FieldAt.not_unit (h : FieldAt infos options root doc unit s s' ti) : False := by
  obtain ⟨f, front, back, _, hfields, -⟩ := h
  cases front <;> cases hfields

/-- A variant ends when the alternatives do that the walk comes to. -/
theorem makeVariant_ends (hs : (infos ti).shape = .variant vi)
    (hcycle : NoInlineCycle infos options root) (h : Reaches infos options root (s, ti))
    (hunwrap : ∀ ti inner, Unwraps infos ti inner → unwrap infos k ti = some inner)
    (hin : ∀ c, Inlines infos options root (s, ti) c →
      makeSchema infos options root k c.2 c.1 ≠ none) :
    makeVariant infos options k (makeSchema infos options root k) vi s ≠ none := by
  refine bind_ne_none ?_ fun _ _ _ => pure_ne_none _ _
  refine (loop_makeAlternatives infos options k _ vi _).ends
    fun front alternative back vs s' halts hfront => ?_
  have hat : AlternativeAt infos options root vi s s' alternative :=
    ⟨front, back, vs, halts, makeAlternatives_written makeSchema_written hfront⟩
  have hplain (htag : taggingOf options vi ≠ .internal) :
      makeSchema infos options root k alternative s' ≠ none := hin _ (.alternative hs htag hat)
  unfold makeAlternative
  cases htag : taggingOf options vi with
  | none => exact hplain (by rw [htag]; decide)
  | external =>
    exact bind_ne_none (hplain (by rw [htag]; decide)) fun _ _ _ => pure_ne_none _ _
  | adjacent =>
    exact bind_ne_none (hplain (by rw [htag]; decide)) fun _ _ _ => pure_ne_none _ _
  | internal =>
    obtain ⟨inner, hu⟩ := hcycle.tagged s ti vi s' alternative h hs htag hat
    change (ofFuel (unwrap infos k alternative) >>= _) s' ≠ none
    rw [hunwrap alternative inner hu]
    refine bind_ne_none (Option.some_ne_none _) fun inner' t ht => ?_
    obtain ⟨hinner, rfl⟩ := ofFuel_done.mp ht
    cases hinner
    have hother (hnull : (infos inner).shape ≠ .null)
        (hstruct : ∀ si, (infos inner).shape ≠ .structure si) :
        makeSchema infos options root k inner t ≠ none :=
      hin _ (.tagged hs htag hat hu hnull hstruct)
    cases hsi : (infos inner).shape
    all_goals dsimp only
    case null =>
      exact bind_ne_none (addStructBody_ends _ fun _ _ h => absurd h FieldAt.not_unit)
        fun _ _ _ => pure_ne_none _ _
    all_goals first
      | exact bind_ne_none (addStructBody_ends _ fun s'' ti' hf =>
          hin _ (.field hs htag hat hu hsi hf)) fun _ _ _ => pure_ne_none _ _
      | exact bind_ne_none (hother (by rw [hsi]; exact nofun) (by rw [hsi]; exact nofun))
          fun _ _ _ => pure_ne_none _ _

/-- How many structs have no name yet. -/
noncomputable def remaining (s : State I) : Nat := Set.ncard {ti | s.defNames.lookup ti = none}

section Termination

variable [Finite I]

/-- To how many infos the walk comes in place. -/
noncomputable def rank (infos : Infos I) (options : Options I) (root : I) (c : State I × I) : Nat :=
  Set.ncard {ti | ∃ s, Relation.TransGen (Inlines infos options root) c (s, ti)}

theorem rank_le (infos : Infos I) (options : Options I) (root : I) (c : State I × I) :
    rank infos options root c ≤ Nat.card I :=
  Set.ncard_le_card _

theorem rank_lt (hcycle : NoInlineCycle infos options root) (h : Reaches infos options root c)
    (hi : Inlines infos options root c c') :
    rank infos options root c' < rank infos options root c := by
  obtain ⟨s', ti'⟩ := c'
  refine Set.ncard_lt_ncard ⟨fun ti ⟨s, hs⟩ => ⟨s, .head hi hs⟩, fun hsub => ?_⟩ (Set.toFinite _)
  obtain ⟨s'', hs⟩ : ∃ s, Relation.TransGen (Inlines infos options root) (s', ti') (s, ti') :=
    hsub ⟨s', .single hi⟩
  exact hcycle.acyclic s' ti' s'' (h.inlines hi) hs

theorem remaining_le (s : State I) : remaining s ≤ Nat.card I := Set.ncard_le_card _

theorem State.Knows.remaining_le (h : s'.Knows s) : remaining s' ≤ remaining s := by
  refine Set.ncard_le_ncard (fun ti hti => ?_) (Set.toFinite _)
  cases hname : s.defNames.lookup ti with
  | none => exact hname
  | some name =>
    have hnone : s'.defNames.lookup ti = none := hti
    rw [h ti name hname] at hnone
    cases hnone

theorem remaining_named_lt (h : s.defNames.lookup ti = none) (name : String) :
    remaining (s.named ti name) < remaining s := by
  refine Set.ncard_lt_ncard ⟨fun tj htj => ?_, fun hsub => ?_⟩ (Set.toFinite _)
  · cases hold : s.defNames.lookup tj with
    | none => exact hold
    | some old =>
      have hnone : (s.named ti name).defNames.lookup tj = none := htj
      rw [s.named_knows ti name tj old hold] at hnone
      cases hnone
  · have hnone : (s.named ti name).defNames.lookup ti = none := hsub h
    rw [State.lookup_named h] at hnone
    cases hnone

omit [DecidableEq I] in
/-- One fuel is enough for all the infos whose optionals and pointers end. -/
theorem exists_unwrap_bound (infos : Infos I) :
    ∃ bound, ∀ ti inner, Unwraps infos ti inner → unwrap infos bound ti = some inner := by
  have henough (ti : I) : ∃ fuel, ∀ inner, Unwraps infos ti inner →
      unwrap infos fuel ti = some inner := by
    by_cases h : ∃ inner, Unwraps infos ti inner
    · obtain ⟨inner, fuel, hfuel⟩ := h
      exact ⟨fuel, fun inner' ⟨_, hu⟩ => unwrap_agree hfuel hu ▸ hfuel⟩
    · exact ⟨0, fun inner hu => absurd ⟨inner, hu⟩ h⟩
  choose enough henough using henough
  obtain ⟨bound, hbound⟩ := Finite.exists_le enough
  exact ⟨bound, fun ti inner hu => unwrap_mono (hbound ti) (henough ti inner hu)⟩

/-- Without a cycle, fuel that grows with the rank and the structs without a name is
enough. -/
theorem makeSchema_ends (hcycle : NoInlineCycle infos options root) {bound : Nat}
    (hbound : ∀ ti inner, Unwraps infos ti inner → unwrap infos bound ti = some inner) (fuel : Nat)
    (h : Reaches infos options root (s, ti))
    (hfuel : bound + rank infos options root (s, ti) + remaining s * (Nat.card I + 1) < fuel) :
    makeSchema infos options root fuel ti s ≠ none := by
  induction fuel generalizing s ti with
  | zero => omega
  | succ fuel ih =>
    have hunwrap : ∀ ti inner, Unwraps infos ti inner → unwrap infos fuel ti = some inner :=
      fun ti inner hu => unwrap_mono (by omega) (hbound ti inner hu)
    have hin (s' : State I) (ti' : I) (hi : Inlines infos options root (s, ti) (s', ti')) :
        makeSchema infos options root fuel ti' s' ≠ none := by
      have hlt := rank_lt hcycle h hi
      have hknows : s'.Knows s := hi.again.1
      have hle := Nat.mul_le_mul_right (Nat.card I + 1) hknows.remaining_le
      exact ih (h.inlines hi) (by omega)
    have hheld (held : I) (hinner : innerOf (infos ti).shape = some held) :
        makeSchema infos options root (fuel + 1) ti s ≠ none := by
      obtain ⟨inner, hu⟩ := hcycle.unwraps s ti h
      rw [makeSchema_held hinner, hunwrap ti inner hu]
      exact bind_ne_none (Option.some_ne_none _) fun inner' t ht => by
        obtain ⟨heq, rfl⟩ := ofFuel_done.mp ht
        cases heq
        exact bind_ne_none (hin t inner (.held hinner hu)) fun _ _ _ => pure_ne_none _ _
    have hpart (part : I) (hparts : partsOf (infos ti).shape = [part]) :
        makeSchema infos options root fuel part s ≠ none :=
      hin s part (.part ⟨[], [], [], hparts, .noElements⟩)
    have hstruct (si : StructTypeInfo I) (hs : (infos ti).shape = .structure si) :
        makeSchema infos options root (fuel + 1) ti s ≠ none := by
      rw [makeSchema_structure hs]
      by_cases hroot : ti = root
      · exact makeStructRef_root hroot ▸ Option.some_ne_none _
      cases hname : s.defNames.lookup ti with
      | some name => exact makeStructRef_known hroot hname ▸ Option.some_ne_none _
      | none =>
        by_cases hused : nameOf infos ti ∈ s.usedNames
        · exact makeStructRef_taken hroot hname hused ▸ Option.some_ne_none _
        rw [makeStructRef_new hroot hname hused]
        refine bind_ne_none (addStructBody_ends _ fun s' ti' hf => ?_) fun _ _ _ =>
          Option.some_ne_none _
        have hrank := rank_le infos options root (s', ti')
        have hnamed := remaining_named_lt hname (nameOf infos ti)
        have hle := Nat.mul_le_mul_right (Nat.card I + 1)
          (Nat.lt_of_le_of_lt hf.again.1.remaining_le hnamed)
        rw [Nat.succ_mul] at hle
        exact ih (h.refers hs hroot hname hused hf) (by omega)
    cases hs : (infos ti).shape
    case optional held => exact hheld held (by rw [hs]; rfl)
    case pointer held => exact hheld held (by rw [hs]; rfl)
    case array element =>
      simp only [makeSchema, hs]
      exact bind_ne_none (hpart element (by rw [hs]; rfl)) fun _ _ _ => pure_ne_none _ _
    case set element =>
      simp only [makeSchema, hs]
      exact bind_ne_none (hpart element (by rw [hs]; rfl)) fun _ _ _ => pure_ne_none _ _
    case map key value =>
      simp only [makeSchema, hs]
      exact bind_ne_none (hpart value (by rw [hs]; rfl)) fun _ _ _ => pure_ne_none _ _
    case tuple elements =>
      simp only [makeSchema, hs]
      refine bind_ne_none ?_ fun _ _ _ => pure_ne_none _ _
      refine (loop_makeElements _).ends (i := 0) fun front part back c s' hparts hfront => ?_
      have hw := makeElements_written makeSchema_written hfront
      exact hin s' part (.part ⟨front, back, c, by rw [hs]; exact hparts, hw⟩)
    case variant vi =>
      rw [makeSchema_variant hs]
      exact makeVariant_ends hs hcycle h hunwrap fun c hi => hin c.1 c.2 hi
    all_goals first
      | exact hstruct _ hs
      | (simp only [makeSchema, hs]; exact Option.some_ne_none _)

end Termination

/-! ## Emission -/

/-- What the walk of an emission comes to is written in place within nothing that is the
same. -/
def CycleFree (infos : Infos I) (options : Options I) (ti : I) : Prop :=
  ∃ root, Unwraps infos ti root ∧ NoInlineCycle infos options root

theorem cycleFree_of_emit {fuel : Nat} {result : Except String Value}
    (h : emit infos options fuel ti = some result) : CycleFree infos options ti := by
  obtain ⟨root, hroot, h⟩ := Option.bind_eq_some_iff.mp h
  obtain ⟨r, hr, -⟩ := Option.bind_eq_some_iff.mp h
  exact ⟨root, ⟨fuel, hroot⟩, noInlineCycle_of_ends (Option.ne_none_iff_exists'.mpr ⟨r, hr⟩)⟩

theorem emitRoot_ends [Finite I] (hcycle : NoInlineCycle infos options root) {bound fuel : Nat}
    (hbound : ∀ ti inner, Unwraps infos ti inner → unwrap infos bound ti = some inner)
    (hfuel : bound + Nat.card I + Nat.card I * (Nat.card I + 1) < fuel) :
    emitRoot infos options fuel root (.start []) ≠ none := by
  have hends (s : State I) (ti : I) (h : Reaches infos options root (s, ti)) :
      makeSchema infos options root fuel ti s ≠ none := by
    have hrank := rank_le infos options root (s, ti)
    have hle := Nat.mul_le_mul_right (Nat.card I + 1) (remaining_le s)
    exact makeSchema_ends hcycle hbound fuel h (by omega)
  by_cases hs : ∃ si, (infos root).shape = .structure si
  · obtain ⟨si, hs⟩ := hs
    rw [emitRoot_structure hs]
    exact addStructBody_ends _ fun s' ti' hf => hends s' ti' (.rootField hs hf)
  · have hs := not_exists.mp hs
    rw [emitRoot_other hs]
    exact bind_ne_none (hends _ root (.root hs)) fun _ _ _ => pure_ne_none _ _

theorem emit_ends [Finite I] (h : CycleFree infos options ti) :
    ∃ fuel result, emit infos options fuel ti = some result := by
  obtain ⟨root, hu, hcycle⟩ := h
  obtain ⟨bound, hbound⟩ := exists_unwrap_bound infos
  let fuel := bound + Nat.card I + Nat.card I * (Nat.card I + 1) + 1
  have hroot : emitRoot infos options fuel root (.start []) ≠ none :=
    emitRoot_ends hcycle hbound (Nat.lt_succ_self _)
  obtain ⟨result, hresult⟩ := Option.ne_none_iff_exists'.mp hroot
  have hunwrap : unwrap infos fuel ti = some root :=
    unwrap_mono (Nat.le_add_right_of_le (Nat.le_add_right_of_le (Nat.le_add_right _ _)))
      (hbound ti root hu)
  refine ⟨fuel, ?_⟩
  unfold emit
  rw [State.start] at hresult
  rw [hunwrap, Option.bind_eq_bind, Option.bind_some, hresult, Option.bind_eq_bind,
    Option.bind_some]
  cases result with
  | error e => exact ⟨_, rfl⟩
  | ok p => exact ⟨_, rfl⟩

/-- On every finite graph the emitter comes to an end just where its walk, followed up to its
first error, comes to no info that is written in place within itself; every reference of a
schema it returns is to the root or names an entry of `$defs`, each written once. -/
theorem emit_terminates [Finite I] (infos : Infos I) (options : Options I) (ti : I) :
    ((∃ fuel result, emit infos options fuel ti = some result) ∧
      ∀ fuel schema, emit infos options fuel ti = some (.ok schema) → RefsResolve schema) ↔
      CycleFree infos options ti := by
  constructor
  · rintro ⟨⟨fuel, result, h⟩, -⟩
    exact cycleFree_of_emit h
  · intro h
    exact ⟨emit_ends h, fun _ _ h => emit_refsResolve h⟩

/-! ## A struct that holds itself -/

/-- Options without defaults. -/
def plainOptions {I : Type} : Options I :=
  { denyUnknownFields := false, humanReadable := true, rootDocument := none,
    freshDocument := fun _ => none }

/-- A field without annotations. -/
def plainField {I : Type} (name : String) (ti : I) : FieldInfo I :=
  { name := name, aliases := [], type := ti, presence := .required, description := "",
    schemaDefault := true, minimum := .unset, maximum := .unset, choices := [] }

/-- The infos of a struct with a label and a sequence of itself. -/
def recursiveStruct : Infos (Fin 4)
  | 0 => {
      typeName := "Tree"
      shape := .structure {
        denyUnknown := false, fields := [plainField "label" 2, plainField "children" 1]
        description := "" } }
  | 1 => { typeName := "std::vector<Tree>", shape := .array 0 }
  | 2 => {
      typeName := "Label"
      shape := .structure {
        denyUnknown := false, fields := [plainField "text" 3], description := "" } }
  | 3 => { typeName := "std::string", shape := .string }

/-- The schema of the struct. -/
def recursiveStructSchema : Value :=
  .object [
    dialect,
    ("type", .string "object"),
    ("properties", .object [
      ("label", refTo "#/$defs/Label"), ("children", arrayOf (refTo "#"))]),
    ("required", .array [.string "label", .string "children"]),
    ("$defs", .object [("Label", .object [
      ("type", .string "object"),
      ("properties", .object [("text", typed "string")]),
      ("required", .array [.string "text"])])])]

theorem emit_terminates_recursiveStruct :
    CycleFree recursiveStruct plainOptions 0 ∧ RefsResolve recursiveStructSchema := by
  have hemit : emit recursiveStruct plainOptions 4 0 = some (.ok recursiveStructSchema) := by rfl
  have hcycle : CycleFree recursiveStruct plainOptions 0 := cycleFree_of_emit hemit
  exact ⟨hcycle, ((emit_terminates recursiveStruct plainOptions 0).mpr hcycle).2 4 _ hemit⟩

/-! ## A variant that holds itself -/

/-- The infos of a class derived from a variant of an integer and a sequence of the class
itself. -/
def recursiveVariant : Infos (Fin 3)
  | 0 => {
      typeName := "std::variant<int, std::vector<Json>>"
      shape := .variant {
        alternatives := [1, 2], tagging := .none, tagField := "", contentField := "",
        altNames := [], denyUnknown := false } }
  | 1 => { typeName := "int", shape := .integer .int32 }
  | 2 => { typeName := "std::vector<Json>", shape := .array 0 }

/-- The emitter never comes to an end on it. -/
theorem emit_recursiveVariant :
    ¬∃ fuel result, emit recursiveVariant plainOptions fuel 0 = some result := by
  rintro ⟨fuel, result, h⟩
  obtain ⟨root, ⟨k, hroot⟩, hcycle⟩ := cycleFree_of_emit h
  obtain rfl : 0 = root := unwrap_agree (show unwrap recursiveVariant 1 0 = some 0 from rfl) hroot
  have hroot : Reaches recursiveVariant plainOptions 0 (.start [], 0) := .root nofun
  have hvector : Inlines recursiveVariant plainOptions 0 (.start [], 0) (.start [], 2) :=
    .alternative rfl (by decide) ⟨[1], [], _, rfl,
      .wrapped (by decide) (.leaf rfl) .noAlternatives⟩
  have hself : Inlines recursiveVariant plainOptions 0 (.start [], 2) (.start [], 0) :=
    .part ⟨[], [], [], rfl, .noElements⟩
  exact hcycle.acyclic _ 0 _ hroot (.tail (.single hvector) hself)

end Kotatsu.Codec.Json.Schema
