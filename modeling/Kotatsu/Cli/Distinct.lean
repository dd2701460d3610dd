import Kotatsu.Cli.Answers

/-!
# The names of an accepted declaration

A command is built by the rules its declaration is checked by. So the names of an accepted
one are those of the check: each is well formed, and no two are the same.
-/

namespace Kotatsu.Cli

open Kotatsu.Core Kotatsu.Cli.Table

/-- The forms of the names an argument is registered under. -/
def formsOf (field : FieldInfo) : List NameForm :=
  let use := useOf field
  if use.spec.rest || use.spec.positional then [] else nameForms use field.declaredName

/-- The texts of those of the forms that are names of their own. -/
def ownTexts (forms : List NameForm) : List Bytes :=
  (forms.filter (·.role = .own)).map (·.name.text)

/-- Those of the forms that are named last. -/
def equalsOf (forms : List NameForm) : List NameForm := forms.filter (·.role ≠ .own)

theorem ownTexts_append (forms forms' : List NameForm) :
    ownTexts (forms ++ forms') = ownTexts forms ++ ownTexts forms' := by
  rw [ownTexts, List.filter_append, List.map_append]
  rfl

theorem equalsOf_append (forms forms' : List NameForm) :
    equalsOf (forms ++ forms') = equalsOf forms ++ equalsOf forms' := List.filter_append _ _

theorem ownTexts_cons (form : NameForm) (forms : List NameForm) :
    ownTexts (form :: forms) = if form.role = .own then form.name.text :: ownTexts forms
      else ownTexts forms := by
  unfold ownTexts
  split
  · next h => rw [List.filter_cons_of_pos (by simpa using h), List.map_cons]
  · next h => rw [List.filter_cons_of_neg (by simpa using h)]

theorem equalsOf_cons (form : NameForm) (forms : List NameForm) :
    equalsOf (form :: forms) = if form.role = .own then equalsOf forms
      else form :: equalsOf forms := by
  unfold equalsOf
  split
  · next h => rw [List.filter_cons_of_neg (by simpa using h)]
  · next h => rw [List.filter_cons_of_pos (by simpa using h)]

/-- An argument registers names. -/
def IsOption (field : FieldInfo) : Prop :=
  (useOf field).spec.rest = false ∧ (useOf field).spec.positional = false

instance (field : FieldInfo) : Decidable (IsOption field) := inferInstanceAs (Decidable (_ ∧ _))

variable {field : FieldInfo} {c c' : DeclarationCheck}

theorem formsOf_option (h : IsOption field) :
    formsOf field = nameForms (useOf field) field.declaredName := by
  rw [formsOf, h.1, h.2, Bool.or_false, if_neg Bool.false_ne_true]

theorem formsOf_other (h : ¬ IsOption field) : formsOf field = [] := by
  rw [formsOf, if_pos]
  rw [Bool.or_eq_true]
  by_contra hnot
  rw [not_or, Bool.not_eq_true, Bool.not_eq_true] at hnot
  exact h hnot

/-- An argument is an alias, under names. -/
def IsAlias (field : FieldInfo) : Prop := IsOption field ∧ (useOf field).shape = .alias

instance (field : FieldInfo) : Decidable (IsAlias field) := inferInstanceAs (Decidable (_ ∧ _))

/-- The names of an argument that is an alias. -/
def aliasTexts (field : FieldInfo) : List Bytes :=
  if IsAlias field then (formsOf field).map (·.name.text) else []

/-- What an argument that is an alias stands for. -/
def forwardsOf (field : FieldInfo) : List Bytes :=
  if IsAlias field then (useOf field).spec.forward else []

theorem aliasTexts_option (h : IsOption field) :
    aliasTexts field = if (useOf field).shape = .alias then (formsOf field).map (·.name.text)
      else [] := by
  simp only [aliasTexts, IsAlias, h, true_and]

theorem forwardsOf_option (h : IsOption field) :
    forwardsOf field = if (useOf field).shape = .alias then (useOf field).spec.forward
      else [] := by
  simp only [forwardsOf, IsAlias, h, true_and]

namespace DeclarationCheck

/-- Two checks that have noted the same of names. -/
structure Same (c d : DeclarationCheck) : Prop where
  names : d.names = c.names
  equalsForms : d.equalsForms = c.equalsForms
  aliasNames : d.aliasNames = c.aliasNames
  forwards : d.forwards = c.forwards

/-- The check has gone on over these arguments. -/
structure Grows (c c' : DeclarationCheck) (infos : List FieldInfo) : Prop where
  names : c'.names = c.names ++ ownTexts (infos.flatMap formsOf)
  equalsForms : c'.equalsForms = c.equalsForms ++ equalsOf (infos.flatMap formsOf)
  aliasNames : c'.aliasNames = c.aliasNames ++ infos.flatMap aliasTexts
  forwards : c'.forwards = c.forwards ++ infos.flatMap forwardsOf
  checked : ∀ form ∈ infos.flatMap formsOf, checkName form.name.text = .ok ()

theorem Grows.nil (h : Same c c') : Grows c c' [] :=
  ⟨h.names.trans (List.append_nil _).symm, h.equalsForms.trans (List.append_nil _).symm,
    h.aliasNames.trans (List.append_nil _).symm, h.forwards.trans (List.append_nil _).symm,
    List.forall_mem_nil _⟩

theorem Grows.append {c c' c'' : DeclarationCheck} {infos infos' : List FieldInfo}
    (h : Grows c c' infos) (h' : Grows c' c'' infos') : Grows c c'' (infos ++ infos') := by
  refine ⟨?_, ?_, ?_, ?_, fun form hform => ?_⟩
  · rw [h'.names, h.names, List.flatMap_append, ownTexts_append, List.append_assoc]
  · rw [h'.equalsForms, h.equalsForms, List.flatMap_append, equalsOf_append, List.append_assoc]
  · rw [h'.aliasNames, h.aliasNames, List.flatMap_append, List.append_assoc]
  · rw [h'.forwards, h.forwards, List.flatMap_append, List.append_assoc]
  · rw [List.flatMap_append] at hform
    exact (List.mem_append.mp hform).elim (h.checked form) (h'.checked form)

/-- What else the check notes changes nothing of it. -/
theorem Grows.of_same {c c' d d' : DeclarationCheck} {infos : List FieldInfo}
    (h : Grows c c' infos) (hc : Same c d) (hc' : Same c' d') : Grows d d' infos :=
  ⟨by rw [hc'.names, h.names, hc.names], by rw [hc'.equalsForms, h.equalsForms, hc.equalsForms],
    by rw [hc'.aliasNames, h.aliasNames, hc.aliasNames],
    by rw [hc'.forwards, h.forwards, hc.forwards], h.checked⟩

theorem bind_ok {α β : Type} {x : Except String α} {f : α → Except String β} {b : β}
    (h : x >>= f = .ok b) : ∃ a, x = .ok a ∧ f a = .ok b := by
  cases x with
  | error => cases h
  | ok a => exact ⟨a, rfl, h⟩

/-- The check has gone on over the forms of an argument. -/
structure Adds (use : FieldUse) (c c' : DeclarationCheck) (forms : List NameForm) : Prop where
  names : c'.names = c.names ++ ownTexts forms
  equalsForms : c'.equalsForms = c.equalsForms ++ equalsOf forms
  aliasNames : c'.aliasNames = c.aliasNames ++
    if use.shape = .alias then forms.map (·.name.text) else []
  forwards : c'.forwards = c.forwards
  checked : ∀ form ∈ forms, checkName form.name.text = .ok ()

theorem addForms_adds {use : FieldUse} {forms : List NameForm} (h : addForms use c forms = .ok c') :
    Adds use c c' forms := by
  induction forms generalizing c with
  | nil =>
    rw [addForms, Except.ok.injEq] at h
    subst h
    exact ⟨(List.append_nil _).symm, (List.append_nil _).symm,
      by rw [List.map_nil, ite_self, List.append_nil], rfl, List.forall_mem_nil _⟩
  | cons form forms ih =>
    rw [addForms] at h
    obtain ⟨u, hname, h⟩ := bind_ok h
    simp only at h
    have hchecked : (∀ f ∈ forms, checkName f.name.text = .ok ()) →
        ∀ form' ∈ form :: forms, checkName form'.name.text = .ok () := by
      intro hrest form' hform
      obtain rfl | hform := List.mem_cons.mp hform
      · exact hname
      · exact hrest form' hform
    split at h
    · next hrole =>
      have hadds := ih h
      refine ⟨?_, ?_, ?_, ?_, hchecked hadds.checked⟩
      · rw [hadds.names, ownTexts_cons, if_pos hrole]
        split <;> rw [List.append_assoc, List.singleton_append]
      · rw [hadds.equalsForms, equalsOf_cons, if_pos hrole]
        split <;> rfl
      · rw [hadds.aliasNames]
        split
        · rw [List.map_cons, List.append_assoc, List.singleton_append]
        · rfl
      · rw [hadds.forwards]
        split <;> rfl
    · next hrole =>
      have hadds := ih h
      refine ⟨?_, ?_, ?_, ?_, hchecked hadds.checked⟩
      · rw [hadds.names, ownTexts_cons, if_neg hrole]
        split <;> rfl
      · rw [hadds.equalsForms, equalsOf_cons, if_neg hrole]
        split <;> rw [List.append_assoc, List.singleton_append]
      · rw [hadds.aliasNames]
        split
        · rw [List.map_cons, List.append_assoc, List.singleton_append]
        · rfl
      · rw [hadds.forwards]
        split <;> rfl

theorem checkArg_grows (h : checkArg c field = .ok c') : Grows c c' [field] := by
  have hother : ¬ IsOption field → Same c c' → Grows c c' [field] := by
    intro hnot hsame
    have halias : ¬ IsAlias field := fun halias => hnot halias.1
    refine ⟨?_, ?_, ?_, ?_, ?_⟩ <;> rw [List.flatMap_singleton]
    · exact (formsOf_other hnot).symm ▸ hsame.names.trans (List.append_nil _).symm
    · exact (formsOf_other hnot).symm ▸ hsame.equalsForms.trans (List.append_nil _).symm
    · rw [aliasTexts, if_neg halias, List.append_nil]
      exact hsame.aliasNames
    · rw [forwardsOf, if_neg halias, List.append_nil]
      exact hsame.forwards
    · rw [formsOf_other hnot]
      exact List.forall_mem_nil _
  rw [checkArg] at h
  split at h
  · next hrest =>
    have hnot : ¬ IsOption field := fun hoption => absurd (hrest.symm.trans hoption.1)
      Bool.false_ne_true.symm
    split at h
    · cases h
    · split at h
      · cases h
      · cases h
        exact hother hnot ⟨rfl, rfl, rfl, rfl⟩
  · next hrest =>
    split at h
    · next hpositional =>
      have hnot : ¬ IsOption field := fun hoption => absurd (hpositional.symm.trans hoption.2)
        Bool.false_ne_true.symm
      cases h
      exact hother hnot ⟨rfl, rfl, rfl, rfl⟩
    · next hpositional =>
      have hoption : IsOption field :=
        ⟨Bool.eq_false_iff.mpr hrest, Bool.eq_false_iff.mpr hpositional⟩
      split at h
      · cases h
      · obtain ⟨d, hforms, h⟩ := bind_ok h
        rw [← formsOf_option hoption] at hforms
        have hadds := addForms_adds hforms
        cases h
        refine ⟨?_, ?_, ?_, ?_, ?_⟩ <;> rw [List.flatMap_singleton]
        · split <;> exact hadds.names
        · split <;> exact hadds.equalsForms
        · rw [aliasTexts_option hoption, ← hadds.aliasNames]
          split <;> rfl
        · rw [forwardsOf_option hoption, ← hadds.forwards]
          split
          · rfl
          · exact (List.append_nil _).symm
        · exact hadds.checked

theorem claimSubcommands_same (h : c.claimSubcommands = .ok c') : Same c c' := by
  unfold claimSubcommands at h
  split at h
  · cases h
  · cases h
    exact ⟨rfl, rfl, rfl, rfl⟩

mutual

/-- The check goes on over all the arguments of a struct. -/
theorem addStruct_grows (global conditional : Bool) : ∀ (fields : List Field)
    {c c' : DeclarationCheck}, addStruct c global conditional fields = .ok c' →
    Grows c c' (Builder.argsOf fields)
  | [], c, c', h => by
    rw [addStruct, Except.ok.injEq] at h
    subst h
    rw [Builder.argsOf]
    exact .nil ⟨rfl, rfl, rfl, rfl⟩
  | field :: fields, c, c', h => by
    rw [addStruct] at h
    obtain ⟨d, hfield, h⟩ := bind_ok h
    rw [Builder.argsOf]
    exact (addField_grows global conditional field hfield).append
      (addStruct_grows global conditional fields h)

theorem addField_grows (global conditional : Bool) : ∀ (field : Field) {c c' : DeclarationCheck},
    addField c global conditional field = .ok c' →
    Grows c c' (Builder.argsOfField field)
  | .arg info, c, c', h => by
    rw [addField] at h
    rw [Builder.argsOfField]
    split at h
    · cases h
    · obtain ⟨d, hd, h⟩ := bind_ok h
      cases h
      exact (checkArg_grows hd).of_same ⟨rfl, rfl, rfl, rfl⟩ ⟨rfl, rfl, rfl, rfl⟩
  | .group spec optional fields, c, c', h => by
    rw [addField] at h
    rw [Builder.argsOfField]
    split at h
    · cases h
    · exact addStruct_grows _ _ fields h
  | .exclusive spec required tagging alternatives, c, c', h => by
    rw [addField] at h
    rw [Builder.argsOfField]
    split at h
    · cases h
    · split at h
      · cases h
      · obtain ⟨⟨d, positional⟩, hd, h⟩ := bind_ok h
        have hgrows := checkExclusive_grows _ alternatives hd
        simp only at h
        split at h
        · cases h
        · cases h
          exact hgrows.of_same ⟨rfl, rfl, rfl, rfl⟩ ⟨rfl, rfl, rfl, rfl⟩
  | .subcommands spec optional tagging alternatives, c, c', h => by
    rw [addField] at h
    rw [Builder.argsOfField]
    split at h
    · cases h
    · obtain ⟨d, hclaim, h⟩ := bind_ok h
      have hd := claimSubcommands_same hclaim
      split at h
      · cases h
      · obtain ⟨words, -, h⟩ := bind_ok h
        split at h
        · cases h
        · split at h
          · cases h
          · cases h
            exact .nil ⟨hd.names, hd.equalsForms, hd.aliasNames, hd.forwards⟩
  | .commands spec required entries, c, c', h => by
    rw [addField] at h
    rw [Builder.argsOfField]
    split at h
    · cases h
    · split at h
      · cases h
      · obtain ⟨d, hclaim, h⟩ := bind_ok h
        have hd := claimSubcommands_same hclaim
        cases h
        exact .nil ⟨hd.names, hd.equalsForms, hd.aliasNames, hd.forwards⟩

theorem checkExclusive_grows (global : Bool) : ∀ (alternatives : List (List Field))
    {c : DeclarationCheck} {positional : Nat} {r : DeclarationCheck × Nat},
    checkExclusive c global positional alternatives = .ok r →
    Grows c r.1 (Builder.argsOfEach alternatives)
  | [], c, positional, r, h => by
    rw [checkExclusive, Except.ok.injEq] at h
    subst h
    rw [Builder.argsOfEach]
    exact .nil ⟨rfl, rfl, rfl, rfl⟩
  | alternative :: alternatives, c, positional, r, h => by
    rw [checkExclusive] at h
    obtain ⟨d, hd, h⟩ := bind_ok h
    rw [Builder.argsOfEach]
    have hgrows : Grows c d (Builder.argsOf alternative) :=
      (addStruct_grows global true alternative hd).of_same ⟨rfl, rfl, rfl, rfl⟩ ⟨rfl, rfl, rfl, rfl⟩
    exact hgrows.append (checkExclusive_grows global alternatives h)

end

/-- An '=' form is named when nothing else is, and the names stay different. -/
theorem mem_addEquals {forms : List NameForm} {names names' : List Bytes}
    (h : addEquals names forms = .ok names') {name : Bytes} (hname : name ∈ names') :
    name ∈ names ∨ ∃ form ∈ forms, name = form.name.text := by
  induction forms generalizing names with
  | nil =>
    rw [addEquals, Except.ok.injEq] at h
    exact .inl (h ▸ hname)
  | cons form forms ih =>
    have hlift : (∃ f ∈ forms, name = f.name.text) → ∃ f ∈ form :: forms, name = f.name.text :=
      fun ⟨f, hf, heq⟩ => ⟨f, List.mem_cons_of_mem _ hf, heq⟩
    rw [addEquals] at h
    split at h
    · split at h
      · cases h
      · exact (ih h).imp_right hlift
    · obtain hmem | hforms := ih h
      · obtain hmem | hmem := List.mem_append.mp hmem
        · exact .inl hmem
        · exact .inr ⟨form, List.mem_cons_self, List.mem_singleton.mp hmem⟩
      · exact .inr (hlift hforms)

theorem nodup_of_repeats {values : List Bytes} (h : repeats values = false) : values.Nodup := by
  induction values with
  | nil => exact List.nodup_nil
  | cons value values ih =>
    rw [repeats, Bool.or_eq_false_iff] at h
    refine List.nodup_cons.mpr ⟨fun hmem => ?_, ih h.2⟩
    rw [List.contains_iff_mem.mpr hmem] at h
    exact absurd h.1.symm Bool.false_ne_true

/-- The names an accepted declaration ends up with; no alias stands for one of an alias. -/
theorem of_checkDeclaration {fields : List Field} (h : checkDeclaration fields = .ok ()) :
    ∃ names, addEquals (ownTexts ((Builder.argsOf fields).flatMap formsOf))
        (equalsOf ((Builder.argsOf fields).flatMap formsOf)) = .ok names ∧ names.Nodup ∧
      (∀ form ∈ (Builder.argsOf fields).flatMap formsOf, checkName form.name.text = .ok ()) ∧
      ∀ token ∈ (Builder.argsOf fields).flatMap forwardsOf,
        token ∉ (Builder.argsOf fields).flatMap aliasTexts := by
  rw [checkDeclaration, check] at h
  obtain ⟨c, hstruct, h⟩ := bind_ok h
  have hgrows := addStruct_grows _ _ fields hstruct
  rw [finish] at h
  split at h
  · cases h
  · obtain ⟨names, hnames, h⟩ := bind_ok h
    rw [hgrows.names, hgrows.equalsForms] at hnames
    refine ⟨names, hnames, ?_⟩
    split at h
    · cases h
    · next hforwards =>
      split at h
      · cases h
      · next hrepeats =>
        refine ⟨nodup_of_repeats (Bool.eq_false_iff.mpr hrepeats), hgrows.checked,
          fun token htoken halias => hforwards ?_⟩
        rw [hgrows.forwards, hgrows.aliasNames]
        exact List.any_eq_true.mpr ⟨token, htoken, List.contains_iff_mem.mpr halias⟩

end DeclarationCheck

/-! ## The names of the command -/

namespace Builder

theorem names_addOption (b : Builder) (name : Bytes) (form : NameForm) (target : Target)
    (tupleSize : Nat) : (b.addOption name form target tupleSize).names = b.names ++ [name] :=
  List.map_append

/-- An argument adds its own names, and leaves its '=' forms for last. -/
theorem name_spec (index tupleSize : Nat) (forms : List NameForm) (b : Builder) :
    (b.name index tupleSize forms).names = b.names ++ ownTexts forms ∧
      (b.name index tupleSize forms).equalsForms =
        b.equalsForms ++ (equalsOf forms).map fun form => (form, index) := by
  induction forms generalizing b with
  | nil => exact ⟨(List.append_nil _).symm, (List.append_nil _).symm⟩
  | cons form forms ih =>
    rw [name, ownTexts_cons, equalsOf_cons]
    split
    · obtain ⟨hnames, hequals⟩ := ih (b.addOption form.name.text form (.arg index) tupleSize)
      exact ⟨by rw [hnames, names_addOption, List.append_assoc, List.singleton_append], hequals⟩
    · obtain ⟨hnames, hequals⟩ := ih { b with equalsForms := b.equalsForms ++ [(form, index)] }
      exact ⟨hnames, by rw [hequals, List.map_cons, List.append_assoc, List.singleton_append]⟩

theorem addArg_spec (b : Builder) (field : FieldInfo) :
    (b.addArg field).names = b.names ++ ownTexts (formsOf field) ∧
      (b.addArg field).equalsForms.map Prod.fst =
        b.equalsForms.map Prod.fst ++ equalsOf (formsOf field) := by
  rw [addArg, formsOf]
  simp only
  split
  · next hrest =>
    rw [hrest, Bool.true_or, if_pos rfl]
    exact ⟨(List.append_nil _).symm, (List.append_nil _).symm⟩
  · next hrest =>
    split
    · next hpositional =>
      rw [hpositional, Bool.or_true, if_pos rfl]
      exact ⟨(List.append_nil _).symm, (List.append_nil _).symm⟩
    · next hpositional =>
      rw [Bool.eq_false_iff.mpr hrest, Bool.eq_false_iff.mpr hpositional, Bool.or_false,
        if_neg Bool.false_ne_true]
      obtain ⟨hnames, hequals⟩ := name_spec b.args.length (useOf field).tupleSize
        (nameForms (useOf field) field.declaredName) { b with args := b.args ++ [field] }
      refine ⟨hnames, ?_⟩
      rw [hequals, List.map_append, List.map_map]
      exact congrArg _ (List.map_id _)

theorem foldl_addArg_spec (infos : List FieldInfo) (b : Builder) :
    (infos.foldl addArg b).names = b.names ++ ownTexts (infos.flatMap formsOf) ∧
      (infos.foldl addArg b).equalsForms.map Prod.fst =
        b.equalsForms.map Prod.fst ++ equalsOf (infos.flatMap formsOf) := by
  induction infos generalizing b with
  | nil => exact ⟨(List.append_nil _).symm, (List.append_nil _).symm⟩
  | cons info infos ih =>
    obtain ⟨hnames, hequals⟩ := ih (b.addArg info)
    obtain ⟨hnames', hequals'⟩ := b.addArg_spec info
    rw [List.foldl_cons, List.flatMap_cons, ownTexts_append, equalsOf_append, hnames, hnames',
      hequals, hequals', List.append_assoc, List.append_assoc]
    exact ⟨rfl, rfl⟩

/-- The '=' forms are named as the check has them. -/
theorem names_nameEqualsForms {forms : List (NameForm × Nat)} {b : Builder} {names : List Bytes}
    (h : DeclarationCheck.addEquals b.names (forms.map Prod.fst) = .ok names) :
    (b.nameEqualsForms forms).names = names := by
  induction forms generalizing b with
  | nil =>
    rw [List.map_nil, DeclarationCheck.addEquals, Except.ok.injEq] at h
    exact h
  | cons form forms ih =>
    obtain ⟨form, index⟩ := form
    rw [List.map_cons, DeclarationCheck.addEquals] at h
    rw [nameEqualsForms]
    split at h
    · next hmem =>
      rw [if_pos (List.contains_iff_mem.mpr hmem)]
      split at h
      · cases h
      · exact ih h
    · next hmem =>
      rw [if_neg (mt List.contains_iff_mem.mp hmem)]
      exact ih (by rw [names_addOption]; exact h)

/-- A name for help is one that no option has. -/
theorem addHelp_spec {helpNames : List Bytes} {b : Builder} (hnodup : b.names.Nodup)
    (hchecked : ∀ name ∈ b.names, DeclarationCheck.checkName name = .ok ())
    (hhelp : ∀ name ∈ helpNames, takes name name = true ∧
      DeclarationCheck.checkName name = .ok ()) :
    (b.addHelp helpNames).names.Nodup ∧
      ∀ name ∈ (b.addHelp helpNames).names, DeclarationCheck.checkName name = .ok () := by
  induction helpNames generalizing b with
  | nil => exact ⟨hnodup, hchecked⟩
  | cons name helpNames ih =>
    have hrest := fun n hn => hhelp n (List.mem_cons_of_mem _ hn)
    obtain ⟨htakes, hname⟩ := hhelp name List.mem_cons_self
    rw [addHelp]
    split
    · exact ih hnodup hchecked hrest
    · next hnone =>
      refine ih ?_ ?_ hrest
      · rw [names_addOption, List.nodup_append]
        refine ⟨hnodup, List.nodup_singleton _, fun n hn m hm heq => hnone ?_⟩
        obtain rfl := List.mem_singleton.mp hm
        obtain ⟨o, ho, rfl⟩ := List.mem_map.mp hn
        refine List.any_eq_true.mpr ⟨o, ho, ?_⟩
        rw [heq]
        exact htakes
      · rw [names_addOption]
        intro n hn
        obtain hn | hn := List.mem_append.mp hn
        · exact hchecked n hn
        · rw [List.mem_singleton.mp hn]
          exact hname

/-- The options of an accepted declaration have well-formed names, no two the same. -/
theorem build_names {fields : List Field} (h : checkDeclaration fields = .ok ()) :
    (build fields).names.Nodup ∧ ∀ o ∈ (build fields).named, o.Checked := by
  obtain ⟨names, hequals, hnodup, hforms, -⟩ := DeclarationCheck.of_checkDeclaration h
  obtain ⟨hown, hlast⟩ := foldl_addArg_spec (argsOf fields) {}
  have hnames : (((argsOf fields).foldl addArg {}).nameEqualsForms
      ((argsOf fields).foldl addArg {}).equalsForms).names = names := by
    refine names_nameEqualsForms ?_
    rw [hown, hlast]
    exact hequals
  have hspec := @addHelp_spec helpNames (((argsOf fields).foldl addArg {}).nameEqualsForms
    ((argsOf fields).foldl addArg {}).equalsForms) (hnames ▸ hnodup) ?_ (by decide)
  · exact ⟨hspec.1, fun o ho => hspec.2 o.name (List.mem_map.mpr ⟨o, ho, rfl⟩)⟩
  · rw [hnames]
    intro name hname
    obtain hmem | ⟨form, hform, rfl⟩ := DeclarationCheck.mem_addEquals hequals hname
    · obtain ⟨form, hform, rfl⟩ := List.mem_map.mp hmem
      exact hforms form (List.mem_filter.mp hform).1
    · exact hforms form (List.mem_filter.mp hform).1

end Builder

end Kotatsu.Cli
