import Kotatsu.Cli.Distinct

/-!
# Which option reads an element

The table of a command tries an element against every option it names. What an option
answers to, and takes, decides which of them reads it: the one of the longest name, and of
those as long the first. In an accepted declaration only a name that begins with a slash
can stand in the way of another, and one with fewer values of one that misses its own.
-/

namespace Kotatsu.Cli

open Kotatsu.Core Kotatsu.Cli.Table

namespace Builder

variable {b : Builder} {args : Args} {index : Nat}

theorem getElem?_options (b : Builder) (i : Nat) :
    b.options[i + 2]? = b.named[i]?.map (NamedOption.toOption i) := by
  show (b.named.mapIdx NamedOption.toOption)[i]? = _
  rw [List.getElem?_mapIdx]

/-- Every prefix of a name begins an option. -/
theorem mem_prefixesUnion {i : Nat} {o : NamedOption} (ho : b.named[i]? = some o) {lead : Bytes}
    (hlead : lead ∈ prefixesOf o.name) : lead ∈ b.table.prefixesUnion := by
  have hmem : lead ∈ (b.options.flatMap (·.prefixes)).foldl (fun set p => insertSorted p set)
      [[dashByte], dashDash] := by
    refine mem_foldl_insertSorted (.inl (List.mem_flatMap.mpr ⟨o.toOption i, ?_, hlead⟩))
    refine List.mem_of_getElem? (i := i + 2) ?_
    rw [getElem?_options, ho]
    rfl
  have hne : (b.options.flatMap (·.prefixes)).foldl (fun set p => insertSorted p set)
      [[dashByte], dashDash] ≠ [] := List.ne_nil_of_mem hmem
  show lead ∈ if _ = [] then _ else _
  rw [if_neg hne]
  exact hmem

/-- What an option answers to is no input. -/
theorem isInput_of_answers {i : Nat} {o : NamedOption} {e : Bytes} (ho : b.named[i]? = some o)
    (hchecked : o.Checked) (hanswers : o.Answers e) : b.table.isInput e = false := by
  obtain ⟨lead, hlead, hpre⟩ := hanswers
  have hany : b.table.prefixesUnion.any (·.isPrefixOf e) = true :=
    List.any_eq_true.mpr ⟨lead, mem_prefixesUnion ho hlead,
      List.isPrefixOf_iff_prefix.mpr ((List.prefix_append _ _).trans hpre)⟩
  have hlength := hpre.length_le
  rw [List.length_append, hchecked.length_lead hlead] at hlength
  have hne : e ≠ [dashByte] := by
    rintro rfl
    exact absurd (hchecked.shape.1.trans hlength) (by decide)
  rw [OptTable.isInput, hany, decide_eq_false hne]
  rfl

theorem excludes_toOption (b : Builder) (i : Nat) (o : NamedOption) :
    b.parseOptions.excludes (o.toOption i) = false := by
  have hvisible : (1 : UInt32) &&& 0xFFFFFFFF ≠ 0 := by decide
  simp [ParseOptions.excludes, parseOptions, NamedOption.toOption, hvisible]

/-- An option is tried on the elements it answers to. -/
theorem tryOption_toOption {o : NamedOption} (hchecked : o.Checked)
    (hshort : o.name.length < 2 ^ 32) (i : Nat) :
    tryOption b.table args index b.parseOptions (o.toOption i) =
      if o.Answers (args.at' index).text then
        some (o.name.length, acceptOpt b.table (o.toOption i) args
          ((args.at' index).text.take o.name.length) false index)
      else none := by
  have hmatch : matchOpt (o.toOption i) (args.at' index).text b.table.ignoreCase =
      if o.Answers (args.at' index).text then o.name.length else 0 :=
    hchecked.matchOpt_eq hshort i _
  unfold tryOption
  rw [hmatch]
  split
  · have hpos : o.name.length ≠ 0 := by
      have := hchecked.shape.1
      omega
    simp only [if_neg hpos, excludes_toOption, Bool.false_eq_true, if_false]
  · rfl

end Builder

namespace NamedOption

/-- An option reads an element that is followed by enough. -/
structure Takes (o : NamedOption) (args : Args) (index : Nat) : Prop where
  answers : o.Answers (args.at' index).text
  fits : o.Fits (args.at' index).text
  values : index + 1 + o.needs ≤ args.size

end NamedOption

namespace Builder

variable {b : Builder} {args : Args} {index : Nat}

theorem length_take_of_answers {o : NamedOption} {e : Bytes} (hchecked : o.Checked)
    (hanswers : o.Answers e) : (e.take o.name.length).length = o.name.length := by
  obtain ⟨lead, hlead, hpre⟩ := hanswers
  have hlength := hpre.length_le
  rw [List.length_append, hchecked.length_lead hlead] at hlength
  rw [List.length_take, min_eq_left hlength]

theorem accepts_of_takes {o : NamedOption} (hchecked : o.Checked)
    (hshort : o.name.length < 2 ^ 32) (hsize : args.size + 256 ≤ 2 ^ 32) (i : Nat)
    (h : o.Takes args index) :
    ∃ values, Accepts b.table args index b.parseOptions (o.toOption i) o.name.length
      ⟨.matched, index + 1 + o.needs, o.parsed index i (args.at' index).text values⟩ := by
  have hlength := length_take_of_answers hchecked h.answers
  obtain ⟨values, haccept⟩ := @NamedOption.accept_fits b.table args index o
    ((args.at' index).text.take o.name.length) i hsize (hlength.symm ▸ h.fits) h.values
  refine ⟨values, ?_, rfl⟩
  rw [tryOption_toOption hchecked hshort, if_pos h.answers, haccept]
  rfl

/-- What accepts an element is an option that takes it. -/
theorem takes_of_accepts {o : NamedOption} (hchecked : o.Checked)
    (hshort : o.name.length < 2 ^ 32) (hindex : index < args.size)
    (hsize : args.size + 256 ≤ 2 ^ 32) {i n : Nat} {tried : Accepted}
    (h : Accepts b.table args index b.parseOptions (o.toOption i) n tried) :
    o.Takes args index ∧ n = o.name.length ∧ tried.out.id = i + 3 := by
  obtain ⟨htry, hmatched⟩ := h
  rw [tryOption_toOption hchecked hshort] at htry
  obtain ⟨hanswers, htry⟩ := Option.ite_none_right_eq_some.mp htry
  simp only [Option.some.injEq, Prod.mk.injEq] at htry
  obtain ⟨rfl, rfl⟩ := htry
  have hlength := length_take_of_answers hchecked hanswers
  by_cases hfits : o.Fits (args.at' index).text
  · have hfits' : o.kind.takesJoined = true ∨
        ((args.at' index).text.take o.name.length).length = (args.at' index).text.length :=
      hlength.symm ▸ hfits
    by_cases hvalues : index + 1 + o.needs ≤ args.size
    · obtain ⟨values, haccept⟩ :=
        @NamedOption.accept_fits b.table args index o _ i hsize hfits' hvalues
      rw [haccept]
      exact ⟨⟨hanswers, hfits, hvalues⟩, rfl, rfl⟩
    · obtain ⟨out, haccept⟩ := @NamedOption.accept_misses b.table args index o _ i hindex hsize
        hfits' (Nat.lt_of_not_le hvalues)
      rw [haccept] at hmatched
      cases hmatched
  · obtain ⟨out, haccept⟩ := @NamedOption.accept_refuses b.table args index o _ i
      (by rw [hlength]; exact hfits)
    rw [haccept] at hmatched
    cases hmatched

theorem misses_of_fits {o : NamedOption} (hchecked : o.Checked)
    (hshort : o.name.length < 2 ^ 32) (hindex : index < args.size)
    (hsize : args.size + 256 ≤ 2 ^ 32) (i : Nat) (hanswers : o.Answers (args.at' index).text)
    (hfits : o.Fits (args.at' index).text) (hvalues : args.size < index + 1 + o.needs) :
    Misses b.table args index b.parseOptions (o.toOption i) := by
  have hlength := length_take_of_answers hchecked hanswers
  obtain ⟨out, haccept⟩ := @NamedOption.accept_misses b.table args index o
    ((args.at' index).text.take o.name.length) i hindex hsize (hlength.symm ▸ hfits) hvalues
  refine ⟨_, _, by rw [tryOption_toOption hchecked hshort, if_pos hanswers, haccept], ?_, ?_⟩
  · exact AcceptResult.noConfusion
  · show index + 1 + o.needs ≠ index
    omega

/-- Every option of a command has a well-formed name that can be counted. -/
def Sound (b : Builder) : Prop :=
  ∀ o ∈ b.named, o.Checked ∧ o.name.length < 2 ^ 32

/-- The option that reads an element: no other that takes it has a longer name, and none
with one as long comes first. -/
structure Best (b : Builder) (args : Args) (index k : Nat) (o : NamedOption) : Prop where
  named : b.named[k]? = some o
  takes : o.Takes args index
  best : ∀ j p, b.named[j]? = some p → j ≠ k → p.Takes args index →
    p.name.length < o.name.length ∨ p.name.length = o.name.length ∧ k < j

/-- What accepts an element is one of the named options. -/
theorem named_of_accepts {j n : Nat} {info : OptionInfo} {tried : Accepted}
    (hinfo : b.options[j]? = some info)
    (h : Accepts b.table args index b.parseOptions info n tried) :
    ∃ i p, j = i + 2 ∧ b.named[i]? = some p ∧ info = p.toOption i := by
  have hnot : ¬ info.kind.IsSentinel := by
    intro hkind
    obtain ⟨hpos, hn, -⟩ := tryOption_some h.1
    rw [b.table.matchOpt_sentinel (List.mem_of_getElem? hinfo) hkind] at hn
    omega
  obtain _ | _ | i := j
  · cases hinfo
    exact absurd (.inr (.inr rfl)) hnot
  · cases hinfo
    exact absurd (.inr (.inl rfl)) hnot
  · rw [getElem?_options] at hinfo
    obtain ⟨p, hp, rfl⟩ := Option.map_eq_some_iff.mp hinfo
    exact ⟨i, p, rfl, hp, rfl⟩

section

variable {k : Nat} {o : NamedOption}

/-- The scan gives the option that reads the element. -/
theorem Best.scan (h : b.Best args index k o) (hsound : b.Sound) (hindex : index < args.size)
    (hsize : args.size + 256 ≤ 2 ^ 32) :
    ∃ values, (scanAndAccept b.table args index b.parseOptions false).result = .matched ∧
      (scanAndAccept b.table args index b.parseOptions false).out =
        o.parsed index k (args.at' index).text values ∧
      (scanAndAccept b.table args index b.parseOptions false).newIndex =
        index + 1 + o.needs := by
  obtain ⟨hchecked, hshort⟩ := hsound o (List.mem_of_getElem? h.named)
  obtain ⟨values, haccepts⟩ := @accepts_of_takes b args index o hchecked hshort hsize k h.takes
  have hat : b.options[k + 2]? = some (o.toOption k) := by
    rw [getElem?_options, h.named]
    rfl
  obtain ⟨hlt, hget⟩ := List.getElem?_eq_some_iff.mp hat
  have hsplit : b.options = b.options.take (k + 2) ++ o.toOption k :: b.options.drop (k + 3) := by
    rw [← hget, List.cons_getElem_drop_succ, List.take_append_drop]
  have hother : ∀ j info n tried, b.options[j]? = some info → j ≠ k + 2 →
      Accepts b.table args index b.parseOptions info n tried →
      n < o.name.length ∨ n = o.name.length ∧ k + 2 < j := by
    intro j info n tried hinfo hne hacc
    obtain ⟨i, p, rfl, hp, rfl⟩ := named_of_accepts hinfo hacc
    obtain ⟨hchecked', hshort'⟩ := hsound p (List.mem_of_getElem? hp)
    obtain ⟨htakes, rfl, -⟩ := takes_of_accepts hchecked' hshort' hindex hsize hacc
    obtain hlt | ⟨heq, hlt⟩ := h.best i p hp (by omega) htakes
    · exact .inl hlt
    · exact .inr ⟨heq, by omega⟩
  have hwins : Wins b.table args index b.parseOptions (b.options.take (k + 2)) (o.toOption k)
      (b.options.drop (k + 3)) o.name.length 
        ⟨.matched, index + 1 + o.needs, o.parsed index k (args.at' index).text values⟩ := by
    refine ⟨haccepts, fun info hinfo n tried hacc => ?_, fun info hinfo n tried hacc => ?_⟩
    · obtain ⟨j, hj, hget⟩ := List.getElem_of_mem hinfo
      rw [List.length_take] at hj
      rw [List.getElem_take] at hget
      have := hother j info n tried (hget ▸ List.getElem?_eq_getElem _) (by omega) hacc
      omega
    · obtain ⟨j, hj, hget⟩ := List.getElem_of_mem hinfo
      rw [List.getElem_drop] at hget
      have := hother (k + 3 + j) info n tried (hget ▸ List.getElem?_eq_getElem _) (by omega) hacc
      omega
  have hscan := @scanLoop_wins b.table args index b.parseOptions _ _ _ _ _
    { bestIndex := index, missingIndex := index } hwins rfl
  rw [← hsplit] at hscan
  exact ⟨values, hscan⟩

end

/-- One of the options that take an element reads it. -/
theorem exists_best (hsound : b.Sound) (hindex : index < args.size)
    (hsize : args.size + 256 ≤ 2 ^ 32)
    (h : ∃ p ∈ b.named, p.Takes args index) :
    ∃ k o, b.Best args index k o := by
  have hexists : ∃ info ∈ b.options, ∃ n t,
      Accepts b.table args index b.parseOptions info n t := by
    obtain ⟨p, hmem, htakes⟩ := h
    obtain ⟨j, hp⟩ := List.getElem?_of_mem hmem
    obtain ⟨hchecked, hshort⟩ := hsound p hmem
    obtain ⟨values, haccepts⟩ := @accepts_of_takes b args index p hchecked hshort hsize j htakes
    refine ⟨p.toOption j, List.mem_of_getElem? (i := j + 2) ?_, _, _, haccepts⟩
    rw [getElem?_options, hp]
    rfl
  obtain ⟨front, info, back, n, t, hsplit, hwins⟩ := exists_wins hexists
  have hat : b.options[front.length]? = some info := by
    rw [hsplit, List.getElem?_append_right le_rfl, Nat.sub_self]
    rfl
  obtain ⟨k, o, hfront, ho, rfl⟩ := named_of_accepts hat hwins.accepts
  obtain ⟨hchecked, hshort⟩ := hsound o (List.mem_of_getElem? ho)
  obtain ⟨htakes, rfl, -⟩ := takes_of_accepts hchecked hshort hindex hsize hwins.accepts
  refine ⟨k, o, ho, htakes, fun j p hp hne hptakes => ?_⟩
  obtain ⟨hchecked', hshort'⟩ := hsound p (List.mem_of_getElem? hp)
  obtain ⟨values, haccepts⟩ :=
    @accepts_of_takes b args index p hchecked' hshort' hsize j hptakes
  have hj : b.options[j + 2]? = some (p.toOption j) := by
    rw [getElem?_options, hp]
    rfl
  rw [hsplit] at hj
  obtain hlt | hle := Nat.lt_or_ge (j + 2) front.length
  · rw [List.getElem?_append_left hlt] at hj
    exact .inl (hwins.before _ (List.mem_of_getElem? hj) _ _ haccepts)
  · obtain ⟨i, hi⟩ : ∃ i, j + 2 - front.length = i + 1 :=
      ⟨j + 1 - front.length, by omega⟩
    rw [List.getElem?_append_right hle, hi, List.getElem?_cons_succ] at hj
    have hlong := hwins.after _ (List.mem_of_getElem? hj) _ _ haccepts
    omega

/-- A step reads an element as the option that reads it. -/
theorem Best.parseStep {k : Nat} {o : NamedOption} (h : b.Best args index k o)
    (hsound : b.Sound) (hindex : index < args.size) (hsize : args.size + 256 ≤ 2 ^ 32) :
    ∃ values, parseStep b.table args index b.parseOptions =
      ⟨.matched, index + 1 + o.needs, o.parsed index k (args.at' index).text values⟩ := by
  obtain ⟨hchecked, -⟩ := hsound o (List.mem_of_getElem? h.named)
  obtain ⟨values, hresult, hout, hnew⟩ := h.scan hsound hindex hsize
  refine ⟨values, ?_⟩
  rw [Table.parseStep]
  simp only [isInput_of_answers h.named hchecked h.takes.answers, Bool.false_eq_true, if_false]
  rw [show b.table.tablegenMode = false from rfl]
  simp only [hresult, hout, hnew]

/-- A step says that values are missing when an option answers and none takes the element. -/
theorem parseStep_misses {k : Nat} {o : NamedOption} (hsound : b.Sound)
    (hindex : index < args.size) (hsize : args.size + 256 ≤ 2 ^ 32)
    (ho : b.named[k]? = some o) (hanswers : o.Answers (args.at' index).text)
    (hfits : o.Fits (args.at' index).text)
    (hnone : ∀ p ∈ b.named, ¬ p.Takes args index) :
    (parseStep b.table args index b.parseOptions).result = .missingValue := by
  obtain ⟨hchecked, hshort⟩ := hsound o (List.mem_of_getElem? ho)
  have hvalues : args.size < index + 1 + o.needs := Nat.lt_of_not_le fun hle =>
    hnone o (List.mem_of_getElem? ho) ⟨hanswers, hfits, hle⟩
  have hmember : o.toOption k ∈ b.options := by
    refine List.mem_of_getElem? (i := k + 2) ?_
    rw [getElem?_options, ho]
    rfl
  have hscan := @scanLoop_misses b.table args index b.parseOptions b.options
    { bestIndex := index, missingIndex := index } ?_ rfl
    (.inr ⟨_, hmember, misses_of_fits hchecked hshort hindex hsize k hanswers hfits hvalues⟩)
  · rw [parseStep]
    simp only [isInput_of_answers ho hchecked hanswers, Bool.false_eq_true, if_false]
    have hscan : (scanAndAccept b.table args index b.parseOptions
      b.table.tablegenMode).result = .missingValue := hscan
    simp only [hscan]
  · intro info hinfo n t hacc
    obtain ⟨j, hj⟩ := List.getElem?_of_mem hinfo
    obtain ⟨i, p, -, hp, rfl⟩ := named_of_accepts hj hacc
    obtain ⟨hchecked', hshort'⟩ := hsound p (List.mem_of_getElem? hp)
    exact hnone p (List.mem_of_getElem? hp)
      (takes_of_accepts hchecked' hshort' hindex hsize hacc).1

end Builder

end Kotatsu.Cli
