import Kotatsu.Codec.Json.Schema.Written

/-!
# References

The references of a schema are the `$ref` entries of its subschemas. What the emitter
writes refers to its root and to the names of its state, and constraining a field's schema
adds no reference; each name the schema ends with has one entry in `$defs`.
-/

namespace Kotatsu.Codec.Json.Schema

open Kotatsu.Codec.Dyn

/-- The keywords whose value is a schema. -/
def schemaKeys : List String := ["items", "additionalProperties", "propertyNames"]

/-- The keywords whose value is an array of schemas. -/
def arrayKeys : List String := ["anyOf", "oneOf", "allOf", "prefixItems"]

/-- The keywords whose value holds schemas by name. -/
def objectKeys : List String := ["properties", "$defs"]

/-- A subschema of the schema, or the schema itself, refers to `r`. -/
inductive HasRef (r : String) : Value → Prop where
  | ref {entries : Object} (h : ("$ref", .string r) ∈ entries) : HasRef r (.object entries)
  | schema {entries : Object} {key : String} {v : Value} (h : (key, v) ∈ entries)
    (hkey : key ∈ schemaKeys) (hv : HasRef r v) : HasRef r (.object entries)
  | array {entries : Object} {key : String} {vs : List Value} {v : Value}
    (h : (key, .array vs) ∈ entries) (hkey : key ∈ arrayKeys) (hmem : v ∈ vs)
    (hv : HasRef r v) : HasRef r (.object entries)
  | object {entries props : Object} {key name : String} {v : Value}
    (h : (key, .object props) ∈ entries) (hkey : key ∈ objectKeys) (hmem : (name, v) ∈ props)
    (hv : HasRef r v) : HasRef r (.object entries)

/-- Every reference of the schema is one of `R`. -/
def RefsIn (R : String → Prop) (v : Value) : Prop := ∀ r, HasRef r v → R r

/-- Every reference of an entry of a schema is one of `R`. -/
structure EntryRefsIn (R : String → Prop) (key : String) (v : Value) : Prop where
  ref : key = "$ref" → ∀ r, v = .string r → R r
  schema : key ∈ schemaKeys → RefsIn R v
  array : key ∈ arrayKeys → ∀ vs, v = .array vs → ∀ w ∈ vs, RefsIn R w
  object : key ∈ objectKeys → ∀ props, v = .object props → ∀ p ∈ props, RefsIn R p.2

variable {R : String → Prop} {key : String} {v : Value} {entries entries' : Object}

theorem refsIn_object :
    RefsIn R (.object entries) ↔ ∀ entry ∈ entries, EntryRefsIn R entry.1 entry.2 := by
  constructor
  · intro h entry hentry
    obtain ⟨key, v⟩ := entry
    refine ⟨?_, fun hkey r hr => h r (.schema hentry hkey hr), ?_, ?_⟩
    · rintro rfl r rfl
      exact h r (.ref hentry)
    · rintro hkey vs rfl w hw r hr
      exact h r (.array hentry hkey hw hr)
    · rintro hkey props rfl p hp r hr
      exact h r (.object hentry hkey hp hr)
  · intro h r hr
    cases hr with
    | ref hmem => exact (h _ hmem).ref rfl r rfl
    | schema hmem hkey hv => exact (h _ hmem).schema hkey r hv
    | array hmem hkey hw hv => exact (h _ hmem).array hkey _ rfl _ hw r hv
    | object hmem hkey hp hv => exact (h _ hmem).object hkey _ rfl _ hp r hv

/-- A value that is no object refers to nothing. -/
theorem refsIn_of_getObject (h : v.getObject = none) : RefsIn R v := by
  intro r hr
  cases hr with
  | ref => cases h
  | schema => cases h
  | array => cases h
  | object => cases h

/-- An entry of another keyword holds no schema. -/
theorem entryRefsIn_other (href : key ≠ "$ref") (hschema : key ∉ schemaKeys)
    (harray : key ∉ arrayKeys) (hobject : key ∉ objectKeys) : EntryRefsIn R key v :=
  ⟨fun h => absurd h href, fun h => absurd h hschema, fun h => absurd h harray,
    fun h => absurd h hobject⟩

theorem entryRefsIn_ref {r : String} (h : R r) : EntryRefsIn R "$ref" (.string r) := by
  refine ⟨fun _ r' heq => ?_, fun hkey => absurd hkey (by decide),
    fun hkey => absurd hkey (by decide), fun hkey => absurd hkey (by decide)⟩
  cases heq
  exact h

theorem entryRefsIn_schema (hkey : key ∈ schemaKeys) (h : RefsIn R v) :
    EntryRefsIn R key v := by
  have hother : key ≠ "$ref" ∧ key ∉ arrayKeys ∧ key ∉ objectKeys := by
    simp only [schemaKeys, List.mem_cons, List.not_mem_nil, or_false] at hkey
    obtain rfl | rfl | rfl := hkey <;> decide
  exact ⟨fun heq => absurd heq hother.1, fun _ => h, fun hmem => absurd hmem hother.2.1,
    fun hmem => absurd hmem hother.2.2⟩

/-- An array of schemas, or of anything under another keyword than a schema's. -/
theorem entryRefsIn_array {vs : List Value} (hkey : key ∉ schemaKeys)
    (h : ∀ w ∈ vs, RefsIn R w) : EntryRefsIn R key (.array vs) := by
  refine ⟨fun _ r heq => ?_, fun hmem => absurd hmem hkey, fun _ vs' heq => ?_,
    fun _ props heq => ?_⟩
  · cases heq
  · cases heq
    exact h
  · cases heq

theorem entryRefsIn_object {props : Object} (hkey : key ∉ schemaKeys)
    (h : ∀ p ∈ props, RefsIn R p.2) : EntryRefsIn R key (.object props) := by
  refine ⟨fun _ r heq => ?_, fun hmem => absurd hmem hkey, fun _ vs' heq => ?_,
    fun _ props' heq => ?_⟩
  · cases heq
  · cases heq
  · cases heq
    exact h

theorem refsIn_nil : RefsIn R (.object []) :=
  refsIn_object.mpr (List.forall_mem_nil _)

theorem refsIn_cons (h : EntryRefsIn R key v) (h' : RefsIn R (.object entries)) :
    RefsIn R (.object ((key, v) :: entries)) := by
  refine refsIn_object.mpr fun e he => ?_
  obtain rfl | he := List.mem_cons.mp he
  · exact h
  · exact refsIn_object.mp h' e he

theorem refsIn_append (h : RefsIn R (.object entries)) (h' : RefsIn R (.object entries')) :
    RefsIn R (.object (entries ++ entries')) := by
  refine refsIn_object.mpr fun e he => ?_
  obtain he | he := List.mem_append.mp he
  · exact refsIn_object.mp h e he
  · exact refsIn_object.mp h' e he

theorem refsIn_entryIf {wanted : Bool} (h : EntryRefsIn R key v) :
    RefsIn R (.object (entryIf wanted key v)) := by
  unfold entryIf
  split
  · exact refsIn_cons h refsIn_nil
  · exact refsIn_nil

/-! ## Constraining -/

private theorem replaceLast_mem {key : String} {v : Value} {entries : Object}
    {entry : String × Value} (h : entry ∈ replaceLast key v entries) :
    entry ∈ entries ∨ entry = (key, v) := by
  induction entries with
  | nil => exact Or.inl h
  | cons e rest ih =>
    obtain ⟨k, w⟩ := e
    rw [replaceLast] at h
    split at h
    · next hk =>
      obtain rfl | h := List.mem_cons.mp h
      · exact Or.inr (by rw [hk.1])
      · exact Or.inl (List.mem_cons_of_mem _ h)
    · obtain rfl | h := List.mem_cons.mp h
      · exact Or.inl List.mem_cons_self
      · obtain h | h := ih h
        · exact Or.inl (List.mem_cons_of_mem _ h)
        · exact Or.inr h

theorem bound_refs {branch branch' : Object} {name key : String} {number : SchemaNumber}
    {tighter : Ordering} (hkey : ∀ v, EntryRefsIn R key v)
    (h : bound branch name key number tighter = .ok branch')
    (hb : RefsIn R (.object branch)) : RefsIn R (.object branch') := by
  unfold bound at h
  split at h
  · cases h
    exact hb
  · split at h
    · cases h
    · split at h
      · split at h
        · cases h
          refine refsIn_object.mpr fun e he => ?_
          obtain he | rfl := replaceLast_mem he
          · exact refsIn_object.mp hb e he
          · exact hkey _
        · cases h
          exact hb
      · cases h
        exact refsIn_append hb (refsIn_cons (hkey _) refsIn_nil)

theorem except_bind_ok {ε α β : Type} {x : Except ε α} {f : α → Except ε β} {b : β}
    (h : x >>= f = .ok b) : ∃ a, x = .ok a ∧ f a = .ok b := by
  cases x with
  | error e => cases h
  | ok a => exact ⟨a, rfl, h⟩

section Update

variable {types : List String} {f : Object → Except String Object}

/-- A change of a branch that adds no reference. -/
def KeepsRefs (R : String → Prop) (f : Object → Except String Object) : Prop :=
  ∀ es es', f es = .ok es' → RefsIn R (.object es) → RefsIn R (.object es')

mutual

private theorem updateBranches_refs (hf : KeepsRefs R f) (v : Value) {v' : Value} {n : Nat}
    (h : updateBranches types f v = .ok (v', n)) (hv : RefsIn R v) : RefsIn R v' := by
  cases v with
  | object es =>
    have hany (h : (do
        let (es, n) ← updateAnyOf types f es
        .ok (.object es, n)) = Except.ok (v', n)) : RefsIn R v' := by
      obtain ⟨⟨es', m⟩, hes, heq⟩ := except_bind_ok h
      cases heq
      exact refsIn_object.mpr (updateAnyOf_refs hf es hes (refsIn_object.mp hv))
    rw [updateBranches] at h
    split at h
    · split at h
      · obtain ⟨es', hes, heq⟩ := except_bind_ok h
        cases heq
        exact hf es es' hes hv
      · exact hany h
    · exact hany h
  | _ =>
    cases h
    exact hv

private theorem updateAnyOf_refs (hf : KeepsRefs R f) (es : Object) {es' : Object} {n : Nat}
    (h : updateAnyOf types f es = .ok (es', n))
    (hes : ∀ e ∈ es, EntryRefsIn R e.1 e.2) : ∀ e ∈ es', EntryRefsIn R e.1 e.2 := by
  match es with
  | [] =>
    cases h
    exact hes
  | (k, v) :: rest =>
    rw [updateAnyOf] at h
    split at h
    · next hk =>
      obtain ⟨⟨v', m⟩, hv', heq⟩ := except_bind_ok h
      cases heq
      rw [hk.1] at hes ⊢
      rw [List.forall_mem_cons] at hes ⊢
      exact ⟨updateArray_refs hf v hv' hes.1, hes.2⟩
    · obtain ⟨⟨rest', m⟩, hrest, heq⟩ := except_bind_ok h
      cases heq
      rw [List.forall_mem_cons] at hes ⊢
      exact ⟨hes.1, updateAnyOf_refs hf rest hrest hes.2⟩

private theorem updateArray_refs (hf : KeepsRefs R f) (v : Value) {v' : Value} {n : Nat}
    (h : updateArray types f v = .ok (v', n)) (hv : EntryRefsIn R "anyOf" v) :
    EntryRefsIn R "anyOf" v' := by
  cases v with
  | array vs =>
    rw [updateArray] at h
    obtain ⟨⟨vs', m⟩, hvs, heq⟩ := except_bind_ok h
    cases heq
    exact entryRefsIn_array (by decide)
      (updateItems_refs hf vs hvs (hv.array (by decide) vs rfl))
  | _ =>
    cases h
    exact hv

private theorem updateItems_refs (hf : KeepsRefs R f) (vs : List Value) {vs' : List Value} {n : Nat}
    (h : updateItems types f vs = .ok (vs', n)) (hvs : ∀ w ∈ vs, RefsIn R w) :
    ∀ w ∈ vs', RefsIn R w := by
  match vs with
  | [] =>
    cases h
    exact hvs
  | v :: vs =>
    rw [updateItems] at h
    obtain ⟨⟨v', m⟩, hv, h⟩ := except_bind_ok h
    obtain ⟨⟨vs', m'⟩, hvs', heq⟩ := except_bind_ok h
    cases heq
    rw [List.forall_mem_cons] at hvs ⊢
    exact ⟨updateBranches_refs hf v hv hvs.1, updateItems_refs hf vs hvs' hvs.2⟩

end

end Update

variable {I : Type}

/-- An entry of a keyword that holds no schema. -/
private theorem entryRefsIn_plain {w : Value}
    (hkey : key ∉ "$ref" :: (schemaKeys ++ arrayKeys ++ objectKeys)) : EntryRefsIn R key w := by
  simp only [List.mem_cons, List.mem_append, not_or] at hkey
  exact entryRefsIn_other hkey.1 hkey.2.1.1 hkey.2.1.2 hkey.2.2

variable {f : FieldInfo I} {v' : Value}

private theorem constrainBounds_refs (h : constrainBounds v f = .ok v') (hv : RefsIn R v) :
    RefsIn R v' := by
  unfold constrainBounds at h
  split at h
  · obtain ⟨⟨w, n⟩, hupdate, h⟩ := except_bind_ok h
    dsimp only at h
    split at h
    · cases h
    · cases h
      refine updateBranches_refs (fun es es' hes hrefs => ?_) v hupdate hv
      obtain ⟨es1, hmin, hmax⟩ := except_bind_ok hes
      exact bound_refs (fun _ => entryRefsIn_plain (by decide)) hmax
        (bound_refs (fun _ => entryRefsIn_plain (by decide)) hmin hrefs)
  · cases h
    exact hv

private theorem constrainChoices_refs (h : constrainChoices v f = .ok v') (hv : RefsIn R v) :
    RefsIn R v' := by
  unfold constrainChoices at h
  split at h
  · obtain ⟨⟨w, n⟩, hupdate, h⟩ := except_bind_ok h
    dsimp only at h
    split at h
    · cases h
    · cases h
      refine updateBranches_refs (fun es es' hes hrefs => ?_) v hupdate hv
      cases hes
      exact refsIn_append hrefs (refsIn_cons (entryRefsIn_plain (by decide)) refsIn_nil)
  · cases h
    exact hv

/-- Constraining a schema adds no reference. -/
theorem constrain_refs (h : constrain v f = .ok v') (hv : RefsIn R v) : RefsIn R v' := by
  obtain ⟨w, hbounds, hchoices⟩ := except_bind_ok h
  exact constrainChoices_refs hchoices (constrainBounds_refs hbounds hv)

private theorem insertEntry_refs {w : Value} (hkey : EntryRefsIn R key w) (h : RefsIn R v) :
    RefsIn R (insertEntry v key w) := by
  cases v with
  | object es => exact refsIn_append h (refsIn_cons hkey refsIn_nil)
  | _ => exact h

private theorem fieldEntries_refs {doc : Option Object} (h : RefsIn R v) :
    ∀ p ∈ fieldEntries doc f v, RefsIn R p.2 := by
  have hdescribed : RefsIn R
      (if f.description ≠ "" then insertEntry v "description" (.string f.description)
        else v) := by
    split
    · exact insertEntry_refs (entryRefsIn_plain (by decide)) h
    · exact h
  intro p hp
  unfold fieldEntries at hp
  obtain rfl | hp := List.mem_cons.mp hp
  · dsimp only
    split
    · exact insertEntry_refs (entryRefsIn_plain (by decide)) hdescribed
    · exact hdescribed
  · obtain ⟨name, -, rfl⟩ := List.mem_map.mp hp
    exact h

/-! ## What is written -/

private theorem typed_refs (name : String) : RefsIn R (typed name) :=
  refsIn_cons (entryRefsIn_plain (by decide)) refsIn_nil

private theorem makeInteger_refs (a b : Int) : RefsIn R (makeInteger a b) :=
  refsIn_cons (entryRefsIn_plain (by decide)) (refsIn_cons (entryRefsIn_plain (by decide))
    (refsIn_cons (entryRefsIn_plain (by decide)) refsIn_nil))

private theorem makeIntegerKind_refs (kind : Option IntegerKind) :
    RefsIn R (makeIntegerKind kind) := by
  have hunsigned (n : Nat) : RefsIn R (makeUnsigned n) :=
    refsIn_cons (entryRefsIn_plain (by decide)) (refsIn_cons (entryRefsIn_plain (by decide))
      (refsIn_cons (entryRefsIn_plain (by decide)) refsIn_nil))
  cases kind with
  | none => exact typed_refs _
  | some kind => cases kind <;> first | exact makeInteger_refs _ _ | exact hunsigned _

private theorem makeEnum_refs (ei : EnumTypeInfo) : RefsIn R (makeEnum ei) := by
  unfold makeEnum
  split
  · exact refsIn_cons (entryRefsIn_plain (by decide)) refsIn_nil
  · exact makeIntegerKind_refs _

private theorem arrayOf_refs (h : RefsIn R v) : RefsIn R (arrayOf v) :=
  refsIn_cons (entryRefsIn_plain (by decide))
    (refsIn_cons (entryRefsIn_schema (by decide) h) refsIn_nil)

private theorem leafSchema_refs {shape : Shape I} (h : leafSchema shape = some v) :
    RefsIn R v := by
  cases shape <;> try cases h
  case null => exact typed_refs _
  case boolean => exact typed_refs _
  case integer kind => exact makeIntegerKind_refs _
  case floating => exact typed_refs _
  case character =>
    exact refsIn_cons (entryRefsIn_plain (by decide))
      (refsIn_cons (entryRefsIn_plain (by decide)) refsIn_nil)
  case string => exact typed_refs _
  case bytes => exact arrayOf_refs (makeInteger_refs _ _)
  case enumeration ei => exact makeEnum_refs ei
  case any => exact refsIn_nil

private theorem keyNames_refs {infos : Infos I} {key : I} {names : Value}
    (h : names ∈ (keyNames infos key).toList) : RefsIn R names := by
  have hpattern (kind : IntegerKind) : RefsIn R (integerKeyNames kind) := by
    cases kind <;> exact refsIn_cons (entryRefsIn_plain (by decide)) refsIn_nil
  rw [Option.mem_toList, keyNames] at h
  split at h
  · split at h
    · cases h
      exact makeEnum_refs _
    · obtain ⟨kind, -, rfl⟩ := Option.map_eq_some_iff.mp h
      exact hpattern kind
  · cases h
    exact hpattern _
  · cases h

private theorem requires_refs (name : String) : RefsIn R (requires name) :=
  refsIn_cons (entryRefsIn_plain (by decide)) refsIn_nil

private theorem namedOnce_refs (fields : List (FieldInfo I)) :
    ∀ w ∈ namedOnce fields, RefsIn R w := by
  intro w hw
  obtain ⟨f, -, rfl⟩ := List.mem_map.mp hw
  refine refsIn_cons (entryRefsIn_array (by decide) ?_) refsIn_nil
  rw [List.forall_mem_cons, List.forall_mem_map]
  exact ⟨requires_refs f.name, fun name _ => requires_refs name⟩

private theorem structEntries_refs (options : Options I) (si : StructTypeInfo I)
    (tag : Option InternalTag) {props : Object} (h : ∀ p ∈ props, RefsIn R p.2) :
    RefsIn R (.object (structEntries options si tag props)) := by
  have hconst (name : String) : RefsIn R (.object [("const", .string name)]) :=
    refsIn_cons (entryRefsIn_plain (by decide)) refsIn_nil
  have hprops : ∀ p ∈ props ++ tag.toList.map fun tag =>
      (tag.field, Value.object [("const", .string tag.altName)]), RefsIn R p.2 := by
    intro p hp
    obtain hp | hp := List.mem_append.mp hp
    · exact h p hp
    · obtain ⟨t, -, rfl⟩ := List.mem_map.mp hp
      exact hconst t.altName
  refine refsIn_append (refsIn_append (refsIn_append (refsIn_append (refsIn_append ?_ ?_) ?_)
    ?_) ?_) ?_
  · exact refsIn_cons (entryRefsIn_plain (by decide)) refsIn_nil
  · exact refsIn_entryIf (entryRefsIn_plain (by decide))
  · exact refsIn_cons (entryRefsIn_object (by decide) hprops) refsIn_nil
  · exact refsIn_entryIf (entryRefsIn_plain (by decide))
  · exact refsIn_entryIf (entryRefsIn_array (by decide) (namedOnce_refs si.fields))
  · exact refsIn_entryIf (entryRefsIn_schema (by decide) (refsIn_of_getObject rfl))

/-- Every reference written is one of `R`. -/
def Judgement.RefsIn (R : String → Prop) : Judgement I → Prop
  | .schema _ v | .tagged _ _ v => Schema.RefsIn R v
  | .props _ _ es => ∀ p ∈ es, Schema.RefsIn R p.2
  | .elements _ vs | .alternatives _ _ _ _ vs => ∀ v ∈ vs, Schema.RefsIn R v

variable [DecidableEq I] {infos : Infos I} {options : Options I} {root ti : I} {s s' : State I}

/-- What is written refers to the root and to the names of the state it ends in. -/
theorem Written.refs {j : Judgement I} (h : Written infos options root s j s')
    (hroot : R "#") (hnames : ∀ p ∈ s'.defNames, R ("#/$defs/" ++ p.2)) : j.RefsIn R := by
  induction h with
  | leaf h => exact leafSchema_refs h
  | nullable _ _ _ ih =>
    have ih := ih hnames
    refine refsIn_cons (entryRefsIn_array (by decide) ?_) refsIn_nil
    rw [List.forall_mem_cons, List.forall_mem_singleton]
    exact ⟨ih, typed_refs _⟩
  | array _ _ ih => exact arrayOf_refs (ih hnames)
  | map _ _ ih =>
    have ih := ih hnames
    refine refsIn_append (refsIn_cons (entryRefsIn_plain (by decide))
      (refsIn_cons (entryRefsIn_schema (by decide) ih) refsIn_nil)) ?_
    refine refsIn_object.mpr fun e he => ?_
    obtain ⟨w, hw, rfl⟩ := List.mem_map.mp he
    have hpropertyNames : EntryRefsIn R "propertyNames" w :=
      entryRefsIn_schema (by decide) (keyNames_refs hw)
    exact hpropertyNames
  | tuple _ _ ih =>
    exact refsIn_cons (entryRefsIn_plain (by decide)) (refsIn_cons
      (entryRefsIn_array (by decide) (ih hnames)) (refsIn_cons
        (entryRefsIn_schema (by decide) (refsIn_of_getObject rfl)) (refsIn_cons
          (entryRefsIn_plain (by decide)) (refsIn_cons (entryRefsIn_plain (by decide))
            refsIn_nil))))
  | root _ => exact refsIn_cons (entryRefsIn_ref hroot) refsIn_nil
  | @known s ti _ name _ _ hname =>
    obtain ⟨front, back, heq, -⟩ := List.lookup_eq_some_iff.mp hname
    have hmem : (ti, name) ∈ s.defNames := heq ▸ List.mem_append_right _ List.mem_cons_self
    exact refsIn_cons (entryRefsIn_ref (hnames _ hmem)) refsIn_nil
  | @named s s' ti _ _ _ _ _ _ hv =>
    have hmem : (ti, nameOf infos ti) ∈ s'.defNames :=
      hv.grew.names (List.mem_append_right _ List.mem_cons_self)
    exact refsIn_cons (entryRefsIn_ref (hnames _ hmem)) refsIn_nil
  | variant _ _ ih =>
    refine refsIn_cons (entryRefsIn_array ?_ (ih hnames)) refsIn_nil
    split <;> decide
  | noProps => exact List.forall_mem_nil _
  | props _ _ hc hrest ih ih' =>
    have ih := ih fun p hp => hnames p (hrest.grew.names hp)
    intro p hp
    obtain hp | hp := List.mem_append.mp hp
    · exact fieldEntries_refs (constrain_refs hc ih) p hp
    · exact ih' hnames p hp
  | noElements => exact List.forall_mem_nil _
  | elements _ hrest ih ih' =>
    exact List.forall_mem_cons.mpr ⟨ih fun p hp => hnames p (hrest.grew.names hp), ih' hnames⟩
  | noAlternatives => exact List.forall_mem_nil _
  | @wrapped _ _ _ vi tagging _ _ _ _ _ _ _ hrest ih ih' =>
    have ih := ih fun p hp => hnames p (hrest.grew.names hp)
    have hconst (name : String) : Schema.RefsIn R (.object [("const", .string name)]) :=
      refsIn_cons (entryRefsIn_plain (by decide)) refsIn_nil
    refine List.forall_mem_cons.mpr ⟨?_, ih' hnames⟩
    cases tagging with
    | none => exact ih
    | internal => exact ih
    | external =>
      refine refsIn_cons (entryRefsIn_plain (by decide)) (refsIn_cons
        (entryRefsIn_object (by decide) ?_) (refsIn_cons (entryRefsIn_plain (by decide))
          (refsIn_cons (entryRefsIn_schema (by decide) (refsIn_of_getObject rfl)) refsIn_nil)))
      exact List.forall_mem_singleton.mpr ih
    | adjacent =>
      refine refsIn_append (refsIn_cons (entryRefsIn_plain (by decide)) (refsIn_cons
        (entryRefsIn_object (by decide) ?_) (refsIn_cons (entryRefsIn_plain (by decide))
          refsIn_nil))) (refsIn_entryIf (entryRefsIn_schema (by decide)
            (refsIn_of_getObject rfl)))
      exact List.forall_mem_cons.mpr ⟨hconst _, List.forall_mem_singleton.mpr ih⟩
  | internal _ hrest ih ih' =>
    exact List.forall_mem_cons.mpr ⟨ih fun p hp => hnames p (hrest.grew.names hp), ih' hnames⟩
  | taggedUnit _ _ => exact structEntries_refs _ _ _ (List.forall_mem_nil _)
  | taggedStruct _ _ _ ih => exact structEntries_refs _ _ _ (ih hnames)
  | taggedSchema _ _ _ _ ih =>
    refine refsIn_cons (entryRefsIn_array (by decide) ?_) refsIn_nil
    refine List.forall_mem_cons.mpr ⟨ih hnames, List.forall_mem_singleton.mpr ?_⟩
    refine refsIn_cons (entryRefsIn_object (by decide) ?_)
      (refsIn_cons (entryRefsIn_plain (by decide)) refsIn_nil)
    exact List.forall_mem_singleton.mpr
      (refsIn_cons (entryRefsIn_plain (by decide)) refsIn_nil)

/-! ## The whole schema -/

/-- The entries of `$defs` are named once each, and every reference of the schema is to
the schema itself or to one of them. -/
def RefsResolve (schema : Value) : Prop :=
  ∃ entries defs : Object, schema = .object entries ∧
    (find entries "$defs" = some (.object defs) ∨ find entries "$defs" = none ∧ defs = []) ∧
    (defs.map Prod.fst).Nodup ∧
    ∀ r, HasRef r schema → r = "#" ∨ ∃ entry ∈ defs, r = "#/$defs/" ++ entry.1

/-- The object of a schema, where it is one. -/
theorem refsIn_getObject (h : RefsIn R v) : RefsIn R (.object (v.getObject.getD [])) := by
  cases v with
  | object es => exact h
  | _ => exact refsIn_nil

theorem find_append (entries entries' : Object) (key : String) :
    find (entries ++ entries') key = (find entries' key).or (find entries key) := by
  induction entries with
  | nil =>
    rw [List.nil_append]
    cases find entries' key <;> rfl
  | cons entry rest ih =>
    obtain ⟨k, v⟩ := entry
    rw [List.cons_append, find, ih, find]
    cases find entries' key with
    | some w => rfl
    | none =>
      rw [Option.none_or]
      cases find rest key <;> rfl

theorem find_eq_none {entries : Object} {key : String} (h : ∀ e ∈ entries, e.1 ≠ key) :
    find entries key = none := by
  cases hfind : find entries key with
  | none => rfl
  | some v => exact absurd rfl (h _ (mem_of_find hfind))

private theorem keys_entryIf {wanted : Bool} {key : String} {v : Value} (hkey : key ≠ "$defs") :
    ∀ e ∈ entryIf wanted key v, e.1 ≠ "$defs" := by
  intro e he
  unfold entryIf at he
  split at he
  · obtain rfl := List.mem_singleton.mp he
    exact hkey
  · cases he

omit [DecidableEq I] in
private theorem keys_structEntries (options : Options I) (si : StructTypeInfo I)
    (tag : Option InternalTag) (props : Object) :
    ∀ e ∈ structEntries options si tag props, e.1 ≠ "$defs" := by
  intro e he
  simp only [structEntries, List.mem_append, List.mem_singleton] at he
  obtain ((((he | he) | he) | he) | he) | he := he
  · rw [he]
    decide
  · exact keys_entryIf (by decide) e he
  · rw [he]
    exact (by decide : "properties" ≠ "$defs")
  · exact keys_entryIf (by decide) e he
  · exact keys_entryIf (by decide) e he
  · exact keys_entryIf (by decide) e he

private theorem keys_integerKind (kind : Option IntegerKind) :
    ∀ e ∈ (makeIntegerKind kind).getObject.getD [], e.1 ≠ "$defs" := by
  cases kind with
  | none => simp [makeIntegerKind, typed, Value.getObject]
  | some kind =>
    cases kind <;> simp [makeIntegerKind, makeInteger, makeUnsigned, Value.getObject]

omit [DecidableEq I] in
private theorem keys_leaf {shape : Shape I} (h : leafSchema shape = some v) :
    ∀ e ∈ v.getObject.getD [], e.1 ≠ "$defs" := by
  cases shape <;> try cases h
  case integer kind => exact keys_integerKind (some kind)
  case enumeration ei =>
    unfold makeEnum
    split
    · simp [Value.getObject]
    · exact keys_integerKind _
  all_goals simp [typed, arrayOf, Value.getObject]

/-- No schema but the whole one has `$defs`. -/
private theorem keys_written (h : Written infos options root s (.schema ti v) s') :
    ∀ e ∈ v.getObject.getD [], e.1 ≠ "$defs" := by
  cases h with
  | leaf h => exact keys_leaf h
  | nullable => simp [nullable, Value.getObject]
  | array => simp [arrayOf, Value.getObject]
  | map =>
    intro e he
    simp only [mapOf, Value.getObject, Option.getD_some, List.mem_append, List.mem_cons,
      List.not_mem_nil, or_false, List.mem_map] at he
    obtain (rfl | rfl) | ⟨w, -, rfl⟩ := he <;> simp
  | tuple => simp [tupleOf, Value.getObject]
  | root => simp [refTo, Value.getObject]
  | known => simp [refTo, Value.getObject]
  | named => simp [refTo, Value.getObject]
  | variant =>
    simp only [variantOf, Value.getObject, Option.getD_some, List.forall_mem_singleton]
    split <;> decide

theorem grew_of_rootWritten {body : Object} (h : RootWritten infos options root body s) :
    ∃ used, Grew infos options root (.start used) s := by
  obtain ⟨si, props, -, hw, -⟩ | ⟨-, v, hw, -⟩ := h
  · exact ⟨_, hw.grew⟩
  · exact ⟨_, hw.grew⟩

/-- Every reference of a schema the emitter returns is the root or names an entry of
`$defs`, each written once. -/
theorem emit_refsResolve {fuel : Nat} {schema : Value}
    (h : emit infos options fuel ti = some (.ok schema)) : RefsResolve schema := by
  obtain ⟨root, body, s, -, hwritten, rfl⟩ := emit_ok h
  obtain ⟨used, hgrew⟩ := grew_of_rootWritten hwritten
  have hnames : ∀ p ∈ s.defNames,
      (fun r => r = "#" ∨ ∃ entry ∈ s.defs, r = "#/$defs/" ++ entry.1) ("#/$defs/" ++ p.2) := by
    intro p hp
    obtain hp | hp := hgrew.named p hp
    · cases hp
    · obtain ⟨entry, hentry, heq⟩ := List.mem_map.mp hp
      exact Or.inr ⟨entry, hentry, by rw [heq]⟩
  have hbody : RefsIn (fun r => r = "#" ∨ ∃ entry ∈ s.defs, r = "#/$defs/" ++ entry.1)
        (.object body) ∧ ∀ e ∈ body, e.1 ≠ "$defs" := by
    obtain ⟨si, props, -, hw, rfl⟩ | ⟨-, v, hw, rfl⟩ := hwritten
    · exact ⟨structEntries_refs options si none (hw.refs (Or.inl rfl) hnames),
        keys_structEntries options si none props⟩
    · exact ⟨refsIn_getObject (hw.refs (Or.inl rfl) hnames), keys_written hw⟩
  have hdefs : ∀ d ∈ s.defs,
      RefsIn (fun r => r = "#" ∨ ∃ entry ∈ s.defs, r = "#/$defs/" ++ entry.1) d.2 := by
    intro d hd
    obtain hd | ⟨-, ti, si, props, t, t', hsub, hw, heq⟩ := hgrew.bodies d hd
    · cases hd
    · rw [heq]
      exact structEntries_refs options si none
        (hw.refs (Or.inl rfl) fun p hp => hnames p (hsub hp))
  refine ⟨_, s.defs, rfl, ?_, (hgrew.valid (State.valid_start used)).once, ?_⟩
  · have hfront : find ([dialect] ++ body) "$defs" = none := by
      refine find_eq_none fun e he => ?_
      obtain he | he := List.mem_append.mp he
      · obtain rfl := List.mem_singleton.mp he
        decide
      · exact hbody.2 e he
    rw [find_append, hfront, Option.or_none]
    cases s.defs with
    | nil => exact Or.inr ⟨rfl, rfl⟩
    | cons d defs => exact Or.inl rfl
  · refine refsIn_append (refsIn_append ?_ hbody.1) ?_
    · exact refsIn_cons (entryRefsIn_plain (by decide)) refsIn_nil
    · exact refsIn_entryIf (entryRefsIn_object (by decide) hdefs)

end Kotatsu.Codec.Json.Schema
