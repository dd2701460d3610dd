import Kotatsu.Cli.Command
import Kotatsu.Cli.Table.Longest

/-!
# What an option makes of an element

A named option answers to its name behind each of the prefixes it accepts, and what it
answers to is as long as its name. It takes the elements behind it that its kind says.
-/

namespace Kotatsu.Cli

open Kotatsu.Core Kotatsu.Cli.Table

namespace NamedOption

/-- What follows the prefix of the name. -/
def stem (o : NamedOption) : Bytes := o.name.drop (if dashDash.isPrefixOf o.name then 2 else 1)

/-- An element begins with the option's name, behind one of the prefixes it accepts. -/
def Answers (o : NamedOption) (e : Bytes) : Prop :=
  ∃ lead ∈ Builder.prefixesOf o.name, lead ++ o.stem <+: e

instance (o : NamedOption) (e : Bytes) : Decidable (o.Answers e) :=
  inferInstanceAs (Decidable (∃ lead ∈ Builder.prefixesOf o.name, lead ++ o.stem <+: e))

/-- The kind reads an element of which the name is the beginning, or needs the name alone. -/
def Fits (o : NamedOption) (e : Bytes) : Prop :=
  o.kind.takesJoined = true ∨ o.name.length = e.length

instance (o : NamedOption) (e : Bytes) : Decidable (o.Fits e) :=
  inferInstanceAs (Decidable (_ ∨ _))

/-- How many elements behind its own the option takes. -/
def needs (o : NamedOption) : Nat :=
  match o.kind with
  | .separate => 1
  | .multiArg => o.numArgs.toNat
  | _ => 0

/-- The argument that the option of number `k` makes of an element. -/
def parsed (o : NamedOption) (index k : Nat) (e : Bytes) (values : List View) : ParsedArg :=
  { id := k + 3, index, spelling := e.take o.name.length, values }

/-- `check_name` of an option. -/
def Checked (o : NamedOption) : Prop := DeclarationCheck.checkName o.name = .ok ()

theorem needs_lt (o : NamedOption) : o.needs < 256 := by
  unfold needs
  split
  · decide
  · exact o.numArgs.toNat_lt
  · decide

variable {o : NamedOption}

theorem Checked.shape (h : o.Checked) :
    2 ≤ o.name.length ∧ (o.name.head? = some dashByte ∨ o.name.head? = some slashByte) := by
  unfold Checked DeclarationCheck.checkName at h
  split at h
  · cases h
  · next hshape =>
    rw [not_or, Nat.not_lt] at hshape
    refine ⟨hshape.1, ?_⟩
    by_contra hhead
    exact hshape.2 (not_or.mp hhead)

/-- What begins a checked name, and what its prefixes are then. -/
theorem Checked.cases (h : o.Checked) :
    (o.name = dashDash ++ o.stem ∧ Builder.prefixesOf o.name = [dashDash]) ∨
      (o.name = dashByte :: o.stem ∧ Builder.prefixesOf o.name = [[dashByte]]) ∨
      (o.name = slashByte :: o.stem ∧ Builder.prefixesOf o.name = [[slashByte], [dashByte]]) := by
  obtain ⟨hlength, hhead⟩ := h.shape
  unfold stem Builder.prefixesOf
  by_cases hdouble : dashDash.isPrefixOf o.name = true
  · obtain ⟨rest, hrest⟩ := List.isPrefixOf_iff_prefix.mp hdouble
    rw [if_pos hdouble, if_pos hdouble]
    refine .inl ⟨?_, rfl⟩
    rw [← hrest]
    rfl
  · rw [if_neg hdouble, if_neg hdouble]
    obtain ⟨c, rest, hname⟩ : ∃ c rest, o.name = c :: rest :=
      List.exists_cons_of_length_pos (by omega)
    rw [hname, List.head?_cons, Option.some.injEq, Option.some.injEq] at hhead
    rw [hname]
    obtain rfl | rfl := hhead
    · exact .inr (.inl ⟨rfl, rfl⟩)
    · exact .inr (.inr ⟨rfl, rfl⟩)

/-- All that an option answers to is as long as its name. -/
theorem Checked.length_lead (h : o.Checked) {lead : Bytes}
    (hlead : lead ∈ Builder.prefixesOf o.name) : lead.length + o.stem.length = o.name.length := by
  obtain ⟨hname, hprefixes⟩ | ⟨hname, hprefixes⟩ | ⟨hname, hprefixes⟩ := h.cases <;>
    rw [hprefixes] at hlead <;> have hlength := congrArg List.length hname
  · obtain rfl := List.mem_singleton.mp hlead
    rw [hlength, List.length_append]
  · obtain rfl := List.mem_singleton.mp hlead
    simp only [hlength, List.length_cons, List.length_nil]
    omega
  · simp only [List.mem_cons, List.not_mem_nil, or_false] at hlead
    obtain rfl | rfl := hlead <;>
      · simp only [hlength, List.length_cons, List.length_nil]
        omega

/-- An option answers to its own name, and one named with a slash also to a dash. -/
theorem Checked.answers_iff (h : o.Checked) {e : Bytes} :
    o.Answers e ↔ o.name <+: e ∨ ∃ x, o.name = slashByte :: x ∧ dashByte :: x <+: e := by
  unfold Answers
  obtain ⟨hname, hprefixes⟩ | ⟨hname, hprefixes⟩ | ⟨hname, hprefixes⟩ := h.cases <;>
    simp only [hprefixes, List.mem_cons, List.not_mem_nil, or_false, exists_eq_left,
      exists_eq_or_imp]
  · rw [← hname]
    refine ⟨.inl, fun hor => hor.resolve_right ?_⟩
    rintro ⟨x, hx, -⟩
    rw [hname] at hx
    exact absurd (List.head_eq_of_cons_eq hx) (by decide)
  · rw [List.singleton_append, ← hname]
    refine ⟨.inl, fun hor => hor.resolve_right ?_⟩
    rintro ⟨x, hx, -⟩
    rw [hname] at hx
    exact absurd (List.head_eq_of_cons_eq hx) (by decide)
  · rw [List.singleton_append, ← hname]
    refine or_congr_right ⟨fun hp => ⟨o.stem, hname, hp⟩, ?_⟩
    rintro ⟨x, hx, hp⟩
    obtain rfl := (List.cons.inj (hname.symm.trans hx)).2
    exact hp

/-- The name of the option in a table is the stem. -/
theorem Checked.name_toOption (h : o.Checked) (i : Nat) : (o.toOption i).name = o.stem := by
  unfold toOption OptionInfo.name
  simp only
  obtain ⟨hname, hprefixes⟩ | ⟨hname, hprefixes⟩ | ⟨hname, hprefixes⟩ := h.cases <;>
    simp only [hprefixes] <;> rw [hname]
  · rfl
  · rfl
  · rfl

/-- A prefix and a name one after the other. -/
theorem isPrefixOf_append_iff {lead stem e : Bytes} :
    (lead.isPrefixOf e && startsWithName false (e.drop lead.length) stem) = true ↔
      lead ++ stem <+: e := by
  rw [Bool.and_eq_true, List.isPrefixOf_iff_prefix, startsWithName, if_neg Bool.false_ne_true,
    List.isPrefixOf_iff_prefix]
  constructor
  · rintro ⟨⟨rest, rfl⟩, hstem⟩
    rw [List.drop_left] at hstem
    exact (List.prefix_append_right_inj lead).mpr hstem
  · rintro ⟨rest, rfl⟩
    rw [List.append_assoc]
    refine ⟨List.prefix_append _ _, ?_⟩
    rw [List.drop_left]
    exact List.prefix_append _ _

/-- `match_opt` gives the length of the name of an option that answers. -/
theorem Checked.matchOpt_eq {o : NamedOption} (h : o.Checked) (hshort : o.name.length < 2 ^ 32)
    (i : Nat) (e : Bytes) :
    matchOpt (o.toOption i) e false = if o.Answers e then o.name.length else 0 := by
  rw [matchOpt, h.name_toOption]
  show ((Builder.prefixesOf o.name).findSome? _).getD 0 = _
  split
  · next hanswers =>
    obtain ⟨lead, hlead, hpre⟩ := hanswers
    cases hfind : (Builder.prefixesOf o.name).findSome? _ with
    | none =>
      have hno := List.findSome?_eq_none_iff.mp hfind lead hlead
      rw [if_pos (isPrefixOf_append_iff.mpr hpre)] at hno
      cases hno
    | some n =>
      obtain ⟨lead', hlead', hn⟩ := List.exists_of_findSome?_eq_some hfind
      obtain ⟨-, hn⟩ := Option.ite_none_right_eq_some.mp hn
      rw [Option.getD_some, ← Option.some.inj hn, h.length_lead hlead', u32_of_lt hshort]
  · next hanswers =>
    rw [List.findSome?_eq_none_iff.mpr, Option.getD_none]
    intro lead hlead
    rw [if_neg]
    rw [isPrefixOf_append_iff]
    exact fun hpre => hanswers ⟨lead, hlead, hpre⟩

section

variable {table : OptTable} {args : Args} {index : Nat} {o : NamedOption} {spelling : Bytes}

/-- An option of a command is an alias of nothing in its table. -/
theorem resolve_toOption (table : OptTable) (i : Nat) (o : NamedOption) (out : ParsedArg) :
    table.resolve (o.toOption i) out = { out with id := i + 3 } := by
  have hself : table.unaliasedOption (o.toOption i) = o.toOption i := rfl
  rw [OptTable.resolve, hself, if_pos rfl]
  rfl

/-- An option of a command accepts what the table's accepts, under its number. -/
theorem acceptOpt_toOption (i : Nat) :
    acceptOpt table (o.toOption i) args spelling false index =
      let accepted := acceptInternal (o.toOption i) args spelling index
      if accepted.result ≠ .matched then accepted
      else { accepted with out := { accepted.out with id := i + 3 } } := by
  rw [acceptOpt, Bool.false_and, if_neg Bool.false_ne_true, resolve_toOption]

/-- What an option accepts has its number. -/
theorem accept_id {i : Nat}
    (h : (acceptOpt table (o.toOption i) args spelling false index).result = .matched) :
    (acceptOpt table (o.toOption i) args spelling false index).out.id = i + 3 := by
  rw [acceptOpt_toOption] at h ⊢
  dsimp only at h ⊢
  split
  · next hne =>
    rw [if_pos hne] at h
    exact absurd h hne
  · rfl

/-- A flag accepts an element that is all its name. -/
theorem accept_flag (i : Nat) (hkind : o.kind = .flag) :
    acceptOpt table (o.toOption i) args spelling false index =
      if spelling.length = (args.at' index).text.length
      then ⟨.matched, u32 (index + 1), { id := i + 3, index, spelling }⟩
      else ⟨.noMatch, index, { spelling }⟩ := by
  rw [acceptOpt_toOption, acceptInternal, show (o.toOption i).kind = .flag from hkind]
  by_cases hwhole : spelling.length = (args.at' index).text.length
  · simp only [hwhole, not_true, if_false, ne_eq, if_true]
  · simp only [hwhole, not_false_iff, if_true, if_false, ne_eq, reduceCtorEq]

/-- An option accepts an element that fits, when the elements it takes are there. -/
theorem accept_fits (i : Nat) (hsize : args.size + 256 ≤ 2 ^ 32)
    (hfits : o.kind.takesJoined = true ∨ spelling.length = (args.at' index).text.length)
    (hvalues : index + 1 + o.needs ≤ args.size) :
    ∃ values, acceptOpt table (o.toOption i) args spelling false index =
      ⟨.matched, index + 1 + o.needs, { id := i + 3, index, spelling, values }⟩ := by
  have hneeds := o.needs_lt
  suffices h : ∃ values, acceptInternal (o.toOption i) args spelling index =
      ⟨.matched, index + 1 + o.needs, { index, spelling, values }⟩ by
    obtain ⟨values, h⟩ := h
    refine ⟨values, ?_⟩
    rw [acceptOpt_toOption, h]
    rfl
  obtain ⟨name, kind, numArgs, target, proper⟩ := o
  unfold needs at hvalues hneeds
  unfold acceptInternal needs toOption
  cases proper with
  | flag =>
    have hfits := hfits.resolve_left Bool.false_ne_true
    simp only [hfits, not_true, if_false, Nat.add_zero] at hvalues ⊢
    exact ⟨[], by rw [u32_of_lt (by omega)]⟩
  | joined =>
    simp only [Nat.add_zero] at hvalues ⊢
    exact ⟨_, by rw [u32_of_lt (by omega)]⟩
  | commaJoined =>
    simp only [Nat.add_zero] at hvalues ⊢
    exact ⟨_, by rw [u32_of_lt (by omega)]⟩
  | separate =>
    have hfits := hfits.resolve_left Bool.false_ne_true
    have hnext : u32 (index + 2) = index + 1 + 1 := u32_of_lt (by omega)
    simp only [hfits, not_true, if_false, hnext, if_neg (Nat.not_lt.mpr hvalues)]
    exact ⟨_, rfl⟩
  | multiArg =>
    have hfits := hfits.resolve_left Bool.false_ne_true
    have hindex : index < args.size := by omega
    have hnext := (multiArg_next numArgs hsize hindex).1.trans (Nat.add_assoc ..).symm
    simp only [hfits, not_true, if_false, hnext, if_neg (Nat.not_lt.mpr hvalues)]
    exact ⟨_, rfl⟩

/-- It misses them when they are not. -/
theorem accept_misses (i : Nat) (hindex : index < args.size) (hsize : args.size + 256 ≤ 2 ^ 32)
    (hfits : o.kind.takesJoined = true ∨ spelling.length = (args.at' index).text.length)
    (hvalues : args.size < index + 1 + o.needs) :
    ∃ out, acceptOpt table (o.toOption i) args spelling false index =
      ⟨.missingValue, index + 1 + o.needs, out⟩ := by
  have hneeds := o.needs_lt
  suffices h : ∃ out, acceptInternal (o.toOption i) args spelling index =
      ⟨.missingValue, index + 1 + o.needs, out⟩ by
    obtain ⟨out, h⟩ := h
    refine ⟨out, ?_⟩
    rw [acceptOpt_toOption, h]
    rfl
  obtain ⟨name, kind, numArgs, target, proper⟩ := o
  unfold needs at hvalues hneeds
  unfold acceptInternal needs toOption
  cases proper with
  | flag | joined | commaJoined =>
    simp only at hvalues
    omega
  | separate =>
    have hfits := hfits.resolve_left Bool.false_ne_true
    have hnext : u32 (index + 2) = index + 1 + 1 := u32_of_lt (by omega)
    simp only [hfits, not_true, if_false, hnext, if_pos hvalues]
    exact ⟨_, rfl⟩
  | multiArg =>
    have hfits := hfits.resolve_left Bool.false_ne_true
    have hnext := (multiArg_next numArgs hsize hindex).1.trans (Nat.add_assoc ..).symm
    simp only [hfits, not_true, if_false, hnext, if_pos hvalues]
    exact ⟨_, rfl⟩

/-- An element that does not fit it leaves alone. -/
theorem accept_refuses (i : Nat)
    (hfits : ¬ (o.kind.takesJoined = true ∨ spelling.length = (args.at' index).text.length)) :
    ∃ out, acceptOpt table (o.toOption i) args spelling false index = ⟨.noMatch, index, out⟩ := by
  rw [not_or] at hfits
  suffices h : ∃ out, acceptInternal (o.toOption i) args spelling index =
      ⟨.noMatch, index, out⟩ by
    obtain ⟨out, h⟩ := h
    refine ⟨out, ?_⟩
    rw [acceptOpt_toOption, h]
    rfl
  obtain ⟨name, kind, numArgs, target, proper⟩ := o
  unfold acceptInternal toOption
  cases proper with
  | joined | commaJoined => exact absurd rfl hfits.1
  | flag | separate | multiArg =>
    simp only [hfits.2, not_false_iff, if_true]
    exact ⟨_, rfl⟩

end

end NamedOption

end Kotatsu.Cli
