import Kotatsu.Cli.Names
import Kotatsu.Cli.Reader
import Kotatsu.Cli.Table.Coverage

/-!
# Elements that are aliases

A command's parse goes from one argument to the next, and always on. An alias is a flag: an
element that the parse reads as one is all of its name.
-/

namespace Kotatsu.Cli

open Kotatsu.Core Kotatsu.Cli.Table

namespace Builder

variable {b : Builder} {it : ParseIter}

/-- An iterator of a command's table, which never is in a group of short options. -/
structure Plain (b : Builder) (it : ParseIter) : Prop where
  table : it.table = b.table
  options : it.options = b.parseOptions
  live : it.done = false
  group : it.groupBuf = []
  within : it.index ≤ it.args.length

/-- What an advance of such an iterator can do. -/
inductive Advanced (b : Builder) (it it' : ParseIter) : Prop
  | done (done : it'.done = true)
  | error {e : Error} (live : it'.done = false) (current : it'.current = .error e)
  | read {r : ParsedArg} (live : it'.done = false) (current : it'.current = .ok r)
      (le : it.index ≤ r.index) (lt : r.index < r.nextIndex) (index : it'.index = r.nextIndex)
      (plain : b.Plain it') (args : it'.args = it.args)

theorem Plain.ready (h : b.Plain it) (hsmall : it.args.length + 256 ≤ 2 ^ 32) : it.Ready :=
  ⟨hsmall, h.live, ParseIter.grouped_of_nil h.group⟩

/-- An advance that skips nothing. -/
theorem Plain.advanced_of_noskip (h : b.Plain it) (hsmall : it.args.length + 256 ≤ 2 ^ 32)
    (hskip : it.atDashDash = true → it.options.dashDashPacking = true) :
    b.Advanced it it.advance := by
  obtain hend | hindex := Nat.eq_or_lt_of_le h.within
  · exact .done (by rw [ParseIter.advance_end h.live hend.ge])
  · have hkept := ParseIter.advance_kept h.live hindex hskip
    cases ParseIter.advance_outcome (h.ready hsmall) hindex hskip with
    | whole current at_index lt le values index group past =>
      have hplain : b.Plain it.advance :=
        ⟨hkept.table_eq.trans h.table, hkept.options_eq.trans h.options, hkept.live, group,
          by rw [index, hkept.args_eq]; exact le⟩
      exact .read hkept.live current at_index.ge (by rw [at_index]; exact lt) index hplain
        hkept.args_eq
    | letter current at_index stays values index past group grouped less =>
      have hgrouped := (grouped group).2.2.1
      rw [hkept.options_eq, h.options] at hgrouped
      exact absurd hgrouped Bool.false_ne_true
    | missing current => exact .error hkept.live current

/-- An advance ends the parse, or reads elements from where it is on. -/
theorem Plain.advanced (h : b.Plain it) (hsmall : it.args.length + 256 ≤ 2 ^ 32) :
    b.Advanced it it.advance := by
  obtain hend | hindex := Nat.eq_or_lt_of_le h.within
  · exact .done (by rw [ParseIter.advance_end h.live hend.ge])
  by_cases hdash : it.atDashDash = true
  · cases hpack : it.options.dashDashPacking with
    | true => exact h.advanced_of_noskip hsmall fun _ => hpack
    | false =>
      have hnext : it.skipped.index = it.index + 1 := u32_of_lt (by omega)
      have hplain : b.Plain it.skipped :=
        ⟨h.table, h.options, h.live, h.group, by rw [hnext]; exact hindex⟩
      rw [ParseIter.advance_skipped h.live hindex hdash hpack]
      cases hplain.advanced_of_noskip hsmall fun hd => absurd hd Bool.false_ne_true with
      | done done => exact .done done
      | error live current => exact .error live current
      | read live current le lt index plain args =>
        exact .read live current (by omega) lt index plain args
  · exact h.advanced_of_noskip hsmall fun hd => absurd hd hdash

/-- The name of option `i` takes all of an element, and something. -/
def takesAll (b : Builder) (i : Nat) (e : Bytes) : Bool :=
  b.named[i]?.any fun o => decide (e ≠ []) && matchOpt (o.toOption i) e false = e.length

variable {index i : Nat} {o : NamedOption} {r : ParsedArg}

/-- A scan that gives a flag has matched all of the element, and nothing else. -/
theorem scan_flag {args : Args}
    (hscan : (scanAndAccept b.table args index b.parseOptions false).result = .matched)
    (hid : (scanAndAccept b.table args index b.parseOptions false).out.id = i + 3)
    (ho : b.named[i]? = some o) (hkind : o.kind = .flag) :
    (scanAndAccept b.table args index b.parseOptions false).newIndex = u32 (index + 1) ∧
      b.takesAll i (args.at' index).text = true ∧
      (scanAndAccept b.table args index b.parseOptions false).out.index = index := by
  obtain ⟨info, hinfo, n, t, hacc, hout, hnew⟩ :=
    @exists_accepts b.table args index b.parseOptions b.options
      { bestIndex := index, missingIndex := index } rfl AcceptResult.noConfusion hscan
  have hout : (scanAndAccept b.table args index b.parseOptions false).out = t.out := hout
  have hnew : (scanAndAccept b.table args index b.parseOptions false).newIndex = t.index := hnew
  obtain ⟨j, hj⟩ := List.getElem?_of_mem hinfo
  obtain ⟨i', p, -, hp, rfl⟩ := named_of_accepts hj hacc
  obtain ⟨hpos, hn, -, ht⟩ := tryOption_some hacc.1
  have hle : n ≤ (args.at' index).text.length := hn ▸ matchOpt_le _ _ _
  have hmatched := hacc.2
  rw [hout] at hid ⊢
  rw [hnew]
  rw [ht] at hid hmatched ⊢
  rw [NamedOption.accept_id hmatched] at hid
  obtain rfl : i' = i := by omega
  obtain rfl := Option.some.inj (hp.symm.trans ho)
  have hlength : ((args.at' index).text.take n).length = n := by
    rw [List.length_take, min_eq_left hle]
  rw [NamedOption.accept_flag i' hkind, hlength] at hmatched ⊢
  by_cases hwhole : n = (args.at' index).text.length
  · have hne : (args.at' index).text ≠ [] := List.length_pos_iff.mp (hwhole ▸ hpos)
    have hmatch : matchOpt (p.toOption i') (args.at' index).text false =
        (args.at' index).text.length := hn.symm.trans hwhole
    rw [if_pos hwhole]
    refine ⟨rfl, ?_, rfl⟩
    rw [takesAll, hp, Option.any_some, hmatch, decide_eq_true hne, decide_eq_true rfl]
    rfl
  · rw [if_neg hwhole] at hmatched
    cases hmatched

theorem inputOptionId_table (b : Builder) : b.table.inputOptionId = 2 := b.gather_options.2

theorem unknownOptionId_table (b : Builder) : b.table.unknownOptionId = 1 := b.gather_options.1

/-- A step that gives a flag takes one element, all of which is the flag's name. -/
theorem parseStep_flag {args : Args}
    (hid : (parseStep b.table args index b.parseOptions).out.id = i + 3) (ho : b.named[i]? = some o)
    (hkind : o.kind = .flag)
    (hresult : (parseStep b.table args index b.parseOptions).result ≠ .missingValue) :
    (parseStep b.table args index b.parseOptions).index = u32 (index + 1) ∧
      b.takesAll i (args.at' index).text = true ∧
      (parseStep b.table args index b.parseOptions).out.index = index := by
  have hinput : ∀ {id : Nat}, (wholeArg args index b.table.inputOptionId).id = id → id = 2 :=
    fun h => h.symm.trans b.inputOptionId_table
  have hmode : b.table.tablegenMode = false := rfl
  unfold parseStep at hid hresult ⊢
  simp only [hmode] at hid hresult ⊢
  split at hid
  · exact absurd (hinput hid) (by omega)
  · next hnot =>
    rw [if_neg hnot] at hresult ⊢
    cases hscan : (scanAndAccept b.table args index b.parseOptions false).result with
    | matched =>
      simp only [hscan] at hid ⊢
      exact scan_flag hscan hid ho hkind
    | missingValue =>
      simp only [hscan] at hresult
      exact absurd rfl hresult
    | noMatch =>
      simp only [hscan] at hid
      split at hid
      · exact absurd (hinput hid) (by omega)
      · have hunknown : b.table.unknownOptionId = i + 3 := hid
        rw [unknownOptionId_table] at hunknown
        omega

theorem positional_id (htable : it.table = b.table) (hlive : it.positional.done = false)
    (hcurrent : it.positional.current = .ok r) : r.id = 2 := by
  rw [ParseIter.positional] at hlive hcurrent
  split at hcurrent
  · obtain rfl := Except.ok.inj hcurrent
    show it.table.inputOptionId = 2
    rw [htable, inputOptionId_table]
  · next hend =>
    rw [if_neg hend] at hlive
    cases hlive

/-- An argument that is a flag is the element the iterator is at, all of it. -/
theorem Plain.advance_flag (h : b.Plain it) (hsmall : it.args.length + 256 ≤ 2 ^ 32)
    (hlive : it.advance.done = false) (hcurrent : it.advance.current = .ok r) (hid : r.id = i + 3)
    (ho : b.named[i]? = some o) (hkind : o.kind = .flag) :
    r.index = it.index ∧ r.nextIndex = it.index + 1 ∧
      b.takesAll i (it.args.getD it.index []) = true := by
  obtain hend | hindex := Nat.eq_or_lt_of_le h.within
  · rw [ParseIter.advance_end h.live hend.ge] at hlive
    cases hlive
  rw [ParseIter.advance_at h.live hindex] at hlive hcurrent
  split at hcurrent
  · next hdash =>
    rw [if_pos hdash] at hlive
    split at hcurrent
    · obtain rfl := Except.ok.inj hcurrent
      have hid : it.table.inputOptionId = i + 3 := hid
      rw [h.table, inputOptionId_table] at hid
      omega
    · next hpack =>
      rw [if_neg hpack] at hlive
      have := @positional_id b it.skipped _ h.table hlive hcurrent
      omega
  · next hdash =>
    rw [if_neg hdash] at hlive
    split at hcurrent
    · next hpast =>
      rw [if_pos hpast] at hlive
      have := positional_id h.table hlive hcurrent
      omega
    · have hgrouped : it.options.groupedShortOptions = false := by rw [h.options]; rfl
      rw [ParseIter.option, hgrouped, if_neg Bool.false_ne_true, h.table, h.options,
        ParseIter.deliver] at hcurrent
      simp only at hcurrent
      split at hcurrent
      · cases hcurrent
      · next hresult =>
        obtain rfl := Except.ok.inj hcurrent
        obtain ⟨hnext, htakes, hat⟩ := parseStep_flag hid ho hkind hresult
        have htext : (({ list := it.args } : Args).at' it.index).text =
            it.args.getD it.index [] := by
          have hne : it.index ≠ 2 ^ 32 - 1 := by omega
          rw [Args.at', if_neg hne]
        refine ⟨hat, ?_, htext ▸ htakes⟩
        show (parseStep _ _ _ _).index = _
        rw [hnext, u32_of_lt (by omega)]

/-! ## Aliases are flags -/

/-- A name and a kind are those of a form of an argument. -/
def NamesArg (b : Builder) (name : Bytes) (kind : OptionKind) (index : Nat) : Prop :=
  ∃ info, b.args[index]? = some info ∧
    ∃ form ∈ formsOf info, form.name.text = name ∧ form.kind = kind

/-- Every option of a command being built, and every '=' form, is a form of its argument. -/
structure FromForms (b : Builder) : Prop where
  named : ∀ o ∈ b.named, ∀ index, o.target = .arg index → b.NamesArg o.name o.kind index
  equals : ∀ p ∈ b.equalsForms, b.NamesArg p.1.name.text p.1.kind p.2

theorem FromForms.addOption (h : b.FromForms) {name : Bytes} {form : NameForm} {target : Target}
    {tupleSize : Nat}
    (htarget : ∀ index, target = .arg index → b.NamesArg name form.kind index) :
    (b.addOption name form target tupleSize).FromForms := by
  refine ⟨fun o ho index hindex => ?_, h.equals⟩
  obtain ho | ho := List.mem_append.mp ho
  · exact h.named o ho index hindex
  · obtain rfl := List.mem_singleton.mp ho
    exact htarget index hindex

theorem FromForms.name {index tupleSize : Nat} {forms : List NameForm} (h : b.FromForms)
    (hforms : ∀ form ∈ forms, b.NamesArg form.name.text form.kind index) :
    (b.name index tupleSize forms).FromForms := by
  induction forms generalizing b with
  | nil => exact h
  | cons form forms ih =>
    have hform := hforms form List.mem_cons_self
    have hrest := fun f hf => hforms f (List.mem_cons_of_mem _ hf)
    rw [Builder.name]
    split
    · refine ih (h.addOption ?_) hrest
      rintro _ ⟨⟩
      exact hform
    · refine ih ⟨h.named, fun p hp => ?_⟩ hrest
      obtain hp | hp := List.mem_append.mp hp
      · exact h.equals p hp
      · obtain rfl := List.mem_singleton.mp hp
        exact hform

/-- An argument more changes nothing for those there are. -/
theorem FromForms.append (h : b.FromForms) (field : FieldInfo) :
    ({ b with args := b.args ++ [field] } : Builder).FromForms := by
  have hlift : ∀ {name : Bytes} {kind : OptionKind} {index : Nat}, b.NamesArg name kind index →
      ({ b with args := b.args ++ [field] } : Builder).NamesArg name kind index := by
    rintro name kind index ⟨info, hinfo, hform⟩
    obtain ⟨hlt, -⟩ := List.getElem?_eq_some_iff.mp hinfo
    exact ⟨info, (List.getElem?_append_left hlt).trans hinfo, hform⟩
  exact ⟨fun o ho index hindex => hlift (h.named o ho index hindex),
    fun p hp => hlift (h.equals p hp)⟩

theorem FromForms.addArg (h : b.FromForms) (field : FieldInfo) : (b.addArg field).FromForms := by
  have hmore := h.append field
  rw [Builder.addArg]
  simp only
  split
  · exact ⟨hmore.named, hmore.equals⟩
  · next hrest =>
    split
    · exact ⟨hmore.named, hmore.equals⟩
    · next hpositional =>
      have hforms : formsOf field = nameForms (useOf field) field.declaredName := by
        rw [formsOf, Bool.eq_false_iff.mpr hrest, Bool.eq_false_iff.mpr hpositional,
          Bool.or_false, if_neg Bool.false_ne_true]
      have hat : (b.args ++ [field])[b.args.length]? = some field := by
        rw [List.getElem?_append_right le_rfl, Nat.sub_self]
        rfl
      exact hmore.name fun form hform => ⟨field, hat, form, hforms ▸ hform, rfl, rfl⟩

theorem FromForms.nameEqualsForms {forms : List (NameForm × Nat)} (h : b.FromForms)
    (hforms : ∀ p ∈ forms, b.NamesArg p.1.name.text p.1.kind p.2) :
    (b.nameEqualsForms forms).FromForms := by
  induction forms generalizing b with
  | nil => exact h
  | cons p forms ih =>
    have hform := hforms p List.mem_cons_self
    have hrest := fun q hq => hforms q (List.mem_cons_of_mem _ hq)
    obtain ⟨form, index⟩ := p
    rw [Builder.nameEqualsForms]
    split
    · exact ih h hrest
    · refine ih (h.addOption ?_) hrest
      rintro _ ⟨⟩
      exact hform

theorem FromForms.addHelp {names : List Bytes} (h : b.FromForms) :
    (b.addHelp names).FromForms := by
  induction names generalizing b with
  | nil => exact h
  | cons name names ih =>
    rw [Builder.addHelp]
    split
    · exact ih h
    · refine ih (h.addOption ?_)
      rintro _ ⟨⟩

theorem build_fromForms (fields : List Field) : (build fields).FromForms := by
  have hfold : ∀ (infos : List FieldInfo) {b : Builder}, b.FromForms →
      (infos.foldl Builder.addArg b).FromForms := by
    intro infos
    induction infos with
    | nil => exact fun h => h
    | cons info infos ih => exact fun h => ih (h.addArg info)
  have h : ((argsOf fields).foldl Builder.addArg {}).FromForms :=
    hfold _ ⟨List.forall_mem_nil _, List.forall_mem_nil _⟩
  exact (h.nameEqualsForms h.equals).addHelp

/-- The forms of an alias are flags. -/
theorem kind_of_formsOf {info : FieldInfo} (halias : (useOf info).shape = .alias)
    {form : NameForm} (hform : form ∈ formsOf info) : form.kind = .flag := by
  unfold formsOf nameForms at hform
  simp only [halias] at hform
  split at hform
  · exact absurd hform List.not_mem_nil
  · obtain ⟨name, -, rfl⟩ := List.mem_map.mp hform
    rfl

/-- An option's number reads into an alias. -/
def isAlias (b : Builder) (id : Nat) : Bool :=
  match b.argOf id with
  | .arg _ field => (useOf field).shape = .alias
  | _ => false

/-- An element is all of a name of an alias, whatever reads it. -/
def namesAlias (b : Builder) (e : Bytes) : Bool :=
  (List.range b.named.length).any fun i => b.isAlias (i + 3) && b.takesAll i e

theorem of_argOf {id index : Nat} {field : FieldInfo} (h : b.argOf id = .arg index field) :
    ∃ i o, id = i + 3 ∧ b.named[i]? = some o ∧ o.target = .arg index ∧
      b.args[index]? = some field := by
  unfold argOf at h
  split at h
  · cases h
  · next hid =>
    split at h
    · cases h
    · next o ho =>
      split at h
      · cases h
      · next index' htarget =>
        split at h
        · cases h
        · next field' hfield =>
          cases h
          exact ⟨id - 3, o, by omega, ho, htarget, hfield⟩

/-- An argument that is an alias is one element, all of it a name of an alias. -/
theorem Plain.advance_alias {fields : List Field} (h : (build fields).Plain it)
    (hsmall : it.args.length + 256 ≤ 2 ^ 32) (hlive : it.advance.done = false)
    (hcurrent : it.advance.current = .ok r) {field : FieldInfo}
    (harg : (build fields).argOf r.id = .arg index field) (halias : (useOf field).shape = .alias) :
    r.index = it.index ∧ r.nextIndex = it.index + 1 ∧
      (build fields).namesAlias (it.args.getD it.index []) = true := by
  obtain ⟨i, o, hid, ho, htarget, hfield⟩ := of_argOf harg
  have hkind : o.kind = .flag := by
    obtain ⟨info, hinfo, form, hform, -, hkind⟩ :=
      (build_fromForms fields).named o (List.mem_of_getElem? ho) index htarget
    obtain rfl := Option.some.inj (hinfo.symm.trans hfield)
    exact hkind ▸ kind_of_formsOf halias hform
  obtain ⟨hat, hnext, htakes⟩ := h.advance_flag hsmall hlive hcurrent hid ho hkind
  obtain ⟨hlt, -⟩ := List.getElem?_eq_some_iff.mp ho
  refine ⟨hat, hnext, List.any_eq_true.mpr ⟨i, List.mem_range.mpr hlt, ?_⟩⟩
  rw [htakes, Bool.and_true, isAlias, ← hid, harg]
  exact decide_eq_true halias

end Builder

end Kotatsu.Cli
