import Kotatsu.Cli.Table.Views

/-!
# Accepting one option

An option that is matched takes its values from its element and the ones after it, as its
kind says; one that finds too few elements leaves the index past their end. An alias that
is a flag takes the values of its own arguments.
-/

namespace Kotatsu.Cli.Table

open Kotatsu.Core

/-- A difference of 32-bit numbers. -/
def subU32 (a b : Nat) : Nat := u32 (a + 2 ^ 32 - b)

theorem subU32_of_le {a b : Nat} (hle : b ≤ a) (hlt : a < 2 ^ 32) : subU32 a b = a - b := by
  have heq : a + 2 ^ 32 - b = a - b + 2 ^ 32 := by omega
  rw [subU32, heq, u32, Nat.add_mod_right, Nat.mod_eq_of_lt (by omega)]

/-- `AcceptResult`. -/
inductive AcceptResult where
  | matched
  | noMatch
  | missingValue
deriving DecidableEq, Repr

/-- What `accept_internal` and `accept_opt` leave: their result, `index` and `out`. -/
structure Accepted where
  result : AcceptResult
  index : Nat
  out : ParsedArg
deriving DecidableEq, Repr

/-- `accept_internal`. -/
def acceptInternal (opt : OptionInfo) (args : Args) (spelling : Bytes) (index : Nat) : Accepted :=
  let element := args.at' index
  let out : ParsedArg := { spelling }
  let whole := spelling.length = element.text.length
  match opt.kind with
  | .flag =>
    if ¬ whole then ⟨.noMatch, index, out⟩
    else ⟨.matched, u32 (index + 1), { out with index }⟩
  | .joined =>
    ⟨.matched, u32 (index + 1), { out with index, values := [element.drop spelling.length] }⟩
  | .commaJoined =>
    let values := ((element.drop spelling.length).split commaByte).filter (·.text ≠ [])
    ⟨.matched, u32 (index + 1), { out with index, values }⟩
  | .separate =>
    let next := u32 (index + 2)
    if ¬ whole then ⟨.noMatch, index, out⟩
    else if args.size < next then ⟨.missingValue, next, { out with index }⟩
    else ⟨.matched, next, { out with index, values := [args.at' (subU32 next 1)] }⟩
  | .multiArg =>
    let next := u32 (index + (1 + opt.numArgs.toNat))
    if ¬ whole then ⟨.noMatch, index, out⟩
    else if args.size < next then ⟨.missingValue, next, { out with index }⟩
    else
      let values := (List.range opt.numArgs.toNat).map fun i =>
        args.at' (u32 (subU32 next opt.numArgs.toNat + i))
      ⟨.matched, next, { out with index, values }⟩
  | .joinedOrSeparate =>
    let next := u32 (index + 2)
    if ¬ whole then
      ⟨.matched, u32 (index + 1), { out with index, values := [element.drop spelling.length] }⟩
    else if args.size < next then ⟨.missingValue, next, { out with index }⟩
    else ⟨.matched, next, { out with index, values := [args.at' (subU32 next 1)] }⟩
  | .joinedAndSeparate =>
    let next := u32 (index + 2)
    if args.size < next then ⟨.missingValue, next, { out with index }⟩
    else
      let values := [(args.at' (subU32 next 2)).drop spelling.length, args.at' (subU32 next 1)]
      ⟨.matched, next, { out with index, values }⟩
  | .remainingArgs =>
    let next := u32 (index + 1)
    if ¬ whole then ⟨.noMatch, index, out⟩
    else ⟨.matched, max next args.size, { out with index, values := args.onward next }⟩
  | .remainingArgsJoined =>
    let next := u32 (index + 1)
    let joined := if ¬ whole then [element.drop spelling.length] else []
    ⟨.matched, max next args.size, { out with index, values := joined ++ args.onward next }⟩
  -- `std::unreachable()`: these entries have no prefix, so none is ever matched
  | .group | .input | .unknown => ⟨.noMatch, index, out⟩

/-- The values of an alias: its arguments up to an empty one. -/
def aliasValues (opt : OptionInfo) : List View :=
  match opt.aliasArgs with
  | none => []
  | some bytes =>
    (View.split 0 ⟨.aliasArgs opt.id, 0, bytes⟩).takeWhile (·.text ≠ [])

/-- What `accept_opt` does to the argument of a matched option: it is given the number and
the values its alias stands for. -/
def OptTable.resolve (table : OptTable) (opt : OptionInfo) (out : ParsedArg) : ParsedArg :=
  let unaliased := table.unaliasedOption opt
  if opt.id = unaliased.id then { out with id := opt.id }
  else if opt.kind ≠ .flag then { out with id := unaliased.id }
  else
    let empty : List View :=
      if unaliased.kind = .joined ∧ opt.aliasArgs = none then [⟨.literal, 0, []⟩] else []
    { out with id := unaliased.id, values := out.values ++ aliasValues opt ++ empty }

/-- `accept_opt`. -/
def acceptOpt (table : OptTable) (opt : OptionInfo) (args : Args) (spelling : Bytes)
    (groupedShortOption : Bool) (index : Nat) : Accepted :=
  let accepted : Accepted :=
    if groupedShortOption && opt.kind = .flag then ⟨.matched, index, { spelling, index }⟩
    else acceptInternal opt args spelling index
  if accepted.result ≠ .matched then accepted
  else { accepted with out := table.resolve opt accepted.out }

/-! ## Where values stand -/

/-- A view of the arguments of an alias of the table, or the empty value a flag gives the
joined option it is an alias of. -/
def OptTable.GivesValue (table : OptTable) (v : View) : Prop :=
  v = ⟨.literal, 0, []⟩ ∨ ∃ o ∈ table.optionInfos, ∃ bytes ∈ o.aliasArgs,
    v.buffer = .aliasArgs o.id ∧ v.Within bytes

/-- A value the elements from `low` to `high` can give. -/
def OptTable.Owns (table : OptTable) (args : Args) (low high : Nat) (v : View) : Prop :=
  args.Takes low high v ∨ table.GivesValue v

theorem givesValue_of_mem {table : OptTable} {opt : OptionInfo} (ho : opt ∈ table.optionInfos)
    {v : View} (hv : v ∈ aliasValues opt) : table.GivesValue v := by
  unfold aliasValues at hv
  split at hv
  · cases hv
  · next bytes hargs =>
    have hwhole : (⟨.aliasArgs opt.id, 0, bytes⟩ : View).Within bytes :=
      ⟨Nat.zero_le _, by rw [List.drop_zero]⟩
    obtain ⟨hbuffer, -, hwithin⟩ :=
      View.of_mem_parts hwhole ((List.takeWhile_sublist _).subset hv)
    exact .inr ⟨opt, ho, bytes, hargs, hbuffer, hwithin⟩

/-- What accepting an option at `index` can leave. -/
inductive Accepted.Sound (table : OptTable) (args : Args) (index : Nat) : Accepted → Prop
  | matched {next : Nat} {out : ParsedArg} (at_index : out.index = index) (lt : index < next)
      (le : next ≤ args.size) (owns : ∀ v ∈ out.values, table.Owns args index next v) :
      Sound table args index ⟨.matched, next, out⟩
  | noMatch {out : ParsedArg} : Sound table args index ⟨.noMatch, index, out⟩
  | missing {next : Nat} {out : ParsedArg} (lt : args.size < next) :
      Sound table args index ⟨.missingValue, next, out⟩

theorem mem_split_takes {args : Args} {index n : Nat} {v : View} (hn : 0 < n)
    (hle : n ≤ (args.at' index).text.length)
    (hv : v ∈ ((args.at' index).drop n).split commaByte) : args.Takes index (index + 1) v := by
  have hwithin := View.within_drop (args.start_at' index) hle
  obtain ⟨hbuffer, hstart, hin⟩ := View.of_mem_parts hwithin hv
  rw [Args.start_at'] at hstart
  exact ⟨index, le_rfl, by omega, hbuffer, hin, fun _ => by omega⟩

section

variable {table : OptTable} {opt : OptionInfo} {args : Args} {spelling : Bytes} {index : Nat}

/-- The elements a multi-argument option takes are counted without overflow. -/
theorem multiArg_next (num : UInt8) (hsize : args.size + 256 ≤ 2 ^ 32) (hindex : index < args.size) :
    u32 (index + (1 + num.toNat)) = index + (1 + num.toNat) ∧
      subU32 (index + (1 + num.toNat)) num.toNat = index + 1 := by
  have hnum := num.toNat_lt
  refine ⟨u32_of_lt (by omega), ?_⟩
  rw [subU32_of_le (by omega) (by omega)]
  omega

theorem acceptInternal_sound (hsize : args.size + 256 ≤ 2 ^ 32) (hindex : index < args.size)
    (hpos : 0 < spelling.length) (hle : spelling.length ≤ (args.at' index).text.length) :
    (acceptInternal opt args spelling index).Sound table args index := by
  have hone : u32 (index + 1) = index + 1 := u32_of_lt (by omega)
  have htwo : u32 (index + 2) = index + 2 := u32_of_lt (by omega)
  have hlast : subU32 (index + 2) 1 = index + 1 := subU32_of_le (by omega) (by omega)
  have hfirst : subU32 (index + 2) 2 = index := subU32_of_le (by omega) (by omega)
  have hjoined : ∀ {next}, index < next →
      table.Owns args index next ((args.at' index).drop spelling.length) :=
    fun h => .inl (Args.takes_drop h hpos hle)
  have hsecond : table.Owns args index (index + 2) (args.at' (index + 1)) :=
    .inl (Args.takes_at' (by omega) (by omega))
  have hrest : ∀ v ∈ args.onward (index + 1),
      table.Owns args index (max (index + 1) args.size) v :=
    fun v hv => .inl ((Args.takes_onward (by omega) hv).mono (by omega))
  unfold acceptInternal
  cases opt.kind with
  | flag =>
    simp only [hone]
    split
    · exact .noMatch
    · exact .matched rfl (by omega) hindex (List.forall_mem_nil _)
  | joined =>
    simp only [hone]
    exact .matched rfl (by omega) hindex (List.forall_mem_singleton.mpr (hjoined (by omega)))
  | commaJoined =>
    simp only [hone]
    exact .matched rfl (by omega) hindex
      fun v hv => .inl (mem_split_takes hpos hle (List.mem_filter.mp hv).1)
  | separate =>
    simp only [htwo, hlast]
    split
    · exact .noMatch
    · split
      · next hlt => exact .missing hlt
      · exact .matched rfl (by omega) (by omega) (List.forall_mem_singleton.mpr hsecond)
  | multiArg =>
    have hnum : opt.numArgs.toNat < 256 := opt.numArgs.toNat_lt
    obtain ⟨hnext, hbase⟩ := multiArg_next opt.numArgs hsize hindex
    simp only [hnext, hbase]
    split
    · exact .noMatch
    · split
      · next hlt => exact .missing hlt
      · refine .matched rfl (by omega) (by omega) fun v hv => ?_
        obtain ⟨i, hi, rfl⟩ := List.mem_map.mp hv
        rw [List.mem_range] at hi
        rw [u32_of_lt (by omega)]
        exact .inl (Args.takes_at' (by omega) (by omega))
  | joinedOrSeparate =>
    simp only [hone, htwo, hlast]
    split
    · exact .matched rfl (by omega) hindex (List.forall_mem_singleton.mpr (hjoined (by omega)))
    · split
      · next hlt => exact .missing hlt
      · exact .matched rfl (by omega) (by omega) (List.forall_mem_singleton.mpr hsecond)
  | joinedAndSeparate =>
    simp only [htwo, hlast, hfirst]
    split
    · next hlt => exact .missing hlt
    · refine .matched rfl (by omega) (by omega) fun v hv => ?_
      obtain rfl | hv := List.mem_cons.mp hv
      · exact hjoined (by omega)
      · obtain rfl := List.mem_singleton.mp hv
        exact hsecond
  | remainingArgs =>
    simp only [hone]
    split
    · exact .noMatch
    · exact .matched rfl (by omega) (by omega) hrest
  | remainingArgsJoined =>
    simp only [hone]
    refine .matched rfl (by omega) (by omega) fun v hv => ?_
    obtain hv | hv := List.mem_append.mp hv
    · split at hv
      · obtain rfl := List.mem_singleton.mp hv
        exact hjoined (by omega)
      · cases hv
    · exact hrest v hv
  | group => exact .noMatch
  | input => exact .noMatch
  | unknown => exact .noMatch

/-- The values an alias adds to its argument. -/
def OptTable.added (table : OptTable) (opt : OptionInfo) : List View :=
  if opt.id = (table.unaliasedOption opt).id ∨ opt.kind ≠ .flag then []
  else aliasValues opt ++
    if (table.unaliasedOption opt).kind = .joined ∧ opt.aliasArgs = none then [⟨.literal, 0, []⟩]
    else []

theorem resolve_eq (out : ParsedArg) :
    table.resolve opt out =
      { out with
        id := (table.unaliasedOption opt).id
        values := out.values ++ table.added opt } := by
  simp only [OptTable.resolve, OptTable.added]
  by_cases hid : opt.id = (table.unaliasedOption opt).id
  · rw [if_pos hid, if_pos (.inl hid), List.append_nil, ← hid]
  · by_cases hkind : opt.kind = .flag
    · have hnot : ¬ (opt.id = (table.unaliasedOption opt).id ∨ opt.kind ≠ .flag) :=
        not_or.mpr ⟨hid, not_not.mpr hkind⟩
      rw [if_neg hid, if_neg (not_not.mpr hkind), if_neg hnot, List.append_assoc]
    · rw [if_neg hid, if_pos hkind, if_pos (.inr hkind), List.append_nil]

theorem mem_added (ho : opt ∈ table.optionInfos) {v : View} (hv : v ∈ table.added opt) :
    table.GivesValue v := by
  unfold OptTable.added at hv
  split at hv
  · cases hv
  · obtain hv | hv := List.mem_append.mp hv
    · exact givesValue_of_mem ho hv
    · split at hv
      · exact .inl (List.mem_singleton.mp hv)
      · cases hv

/-- An option that is accepted takes what follows its name and what follows its element. -/
theorem acceptOpt_sound (ho : opt ∈ table.optionInfos) (hsize : args.size + 256 ≤ 2 ^ 32)
    (hindex : index < args.size) (hpos : 0 < spelling.length)
    (hle : spelling.length ≤ (args.at' index).text.length) :
    (acceptOpt table opt args spelling false index).Sound table args index := by
  have h : (acceptInternal opt args spelling index).Sound table args index :=
    acceptInternal_sound hsize hindex hpos hle
  simp only [acceptOpt, Bool.false_and, Bool.false_eq_true, ite_false]
  generalize acceptInternal opt args spelling index = accepted at h ⊢
  cases h with
  | matched hat hlt hle' howns =>
    rw [if_neg (not_not.mpr rfl), resolve_eq]
    refine .matched hat hlt hle' fun v hv => ?_
    exact (List.mem_append.mp hv).elim (howns v) fun hv => .inr (mem_added ho hv)
  | noMatch => exact .noMatch
  | missing hlt => exact .missing hlt

/-! ## What is seen of it -/

/-- Two outcomes that look the same. -/
structure Accepted.Same (a b : Accepted) : Prop where
  result_eq : a.result = b.result
  index_eq : a.index = b.index
  seen_eq : a.out.seen = b.out.seen

theorem seen_resolve {out out' : ParsedArg} (h : out.seen = out'.seen) :
    (table.resolve opt out).seen = (table.resolve opt out').seen := by
  simp only [ParsedArg.seen, Seen.mk.injEq] at h
  obtain ⟨-, hindex, hnext, hspelling, hvalues⟩ := h
  simp only [resolve_eq, ParsedArg.seen, List.map_append, hindex, hnext, hspelling, hvalues]

theorem seen_values {id index next : Nat} {spelling : Bytes} {vs ws : List View}
    (h : vs.map View.text = ws.map View.text) :
    (⟨id, index, next, spelling, vs⟩ : ParsedArg).seen =
      (⟨id, index, next, spelling, ws⟩ : ParsedArg).seen := by
  simp only [ParsedArg.seen, h]

theorem texts_filter_split (v w : View) (h : v.text = w.text) :
    ((v.split commaByte).filter (·.text ≠ [])).map View.text =
      ((w.split commaByte).filter (·.text ≠ [])).map View.text := by
  have htexts : ∀ u : View, ((u.split commaByte).filter (·.text ≠ [])).map View.text =
      (u.text.splitOn commaByte).filter (· ≠ []) := by
    intro u
    rw [← View.texts_split, List.filter_map]
    rfl
  rw [htexts, htexts, h]

variable {args' : Args}

theorem acceptInternal_same (hagree : args.Agree args' index) (hsize : args.size + 256 ≤ 2 ^ 32)
    (hindex : index < args.size) :
    (acceptInternal opt args spelling index).Same (acceptInternal opt args' spelling index) := by
  have hone : u32 (index + 1) = index + 1 := u32_of_lt (by omega)
  have htwo : u32 (index + 2) = index + 2 := u32_of_lt (by omega)
  have hlast : subU32 (index + 2) 1 = index + 1 := subU32_of_le (by omega) (by omega)
  have hfirst : subU32 (index + 2) 2 = index := subU32_of_le (by omega) (by omega)
  have htext := hagree.text_eq index le_rfl
  have hjoined : [(args.at' index).drop spelling.length].map View.text =
      [(args'.at' index).drop spelling.length].map View.text := by
    simp only [List.map_cons, List.map_nil, View.text_drop, htext]
  have hsecond : [args.at' (index + 1)].map View.text =
      [args'.at' (index + 1)].map View.text := by
    simp only [List.map_cons, List.map_nil, hagree.text_eq (index + 1) (by omega)]
  have hrest := (hagree.mono (Nat.le_succ index)).texts_onward
  unfold acceptInternal
  simp only [hone, htwo, hlast, hfirst, ← htext, ← hagree.size_eq]
  cases opt.kind with
  | flag => exact ⟨rfl, rfl, rfl⟩
  | joined => exact ⟨rfl, rfl, seen_values hjoined⟩
  | commaJoined =>
    refine ⟨rfl, rfl, seen_values (texts_filter_split _ _ ?_)⟩
    rw [View.text_drop, View.text_drop, htext]
  | separate =>
    simp only
    split
    · exact ⟨rfl, rfl, rfl⟩
    · split
      · exact ⟨rfl, rfl, rfl⟩
      · exact ⟨rfl, rfl, seen_values hsecond⟩
  | multiArg =>
    have hnum : opt.numArgs.toNat < 256 := opt.numArgs.toNat_lt
    obtain ⟨hnext, hbase⟩ := multiArg_next opt.numArgs hsize hindex
    simp only [hnext, hbase]
    split
    · exact ⟨rfl, rfl, rfl⟩
    · split
      · exact ⟨rfl, rfl, rfl⟩
      · refine ⟨rfl, rfl, seen_values ?_⟩
        rw [List.map_map, List.map_map]
        refine List.map_congr_left fun i hi => ?_
        rw [List.mem_range] at hi
        rw [Function.comp_apply, Function.comp_apply, u32_of_lt (by omega)]
        exact hagree.text_eq _ (by omega)
  | joinedOrSeparate =>
    simp only
    split
    · exact ⟨rfl, rfl, seen_values hjoined⟩
    · split
      · exact ⟨rfl, rfl, rfl⟩
      · exact ⟨rfl, rfl, seen_values hsecond⟩
  | joinedAndSeparate =>
    simp only
    split
    · exact ⟨rfl, rfl, rfl⟩
    · refine ⟨rfl, rfl, seen_values ?_⟩
      simp only [List.map_cons, List.map_nil, View.text_drop, htext,
        hagree.text_eq (index + 1) (by omega)]
  | remainingArgs =>
    simp only
    split
    · exact ⟨rfl, rfl, rfl⟩
    · exact ⟨rfl, rfl, seen_values hrest⟩
  | remainingArgsJoined =>
    refine ⟨rfl, rfl, seen_values ?_⟩
    rw [List.map_append, List.map_append, hrest]
    split
    · rw [hjoined]
    · rfl
  | group => exact ⟨rfl, rfl, rfl⟩
  | input => exact ⟨rfl, rfl, rfl⟩
  | unknown => exact ⟨rfl, rfl, rfl⟩

/-- What is accepted is seen the same in argvs that say the same from there on. -/
theorem acceptOpt_same {grouped : Bool} (hagree : args.Agree args' index)
    (hsize : args.size + 256 ≤ 2 ^ 32) (hindex : index < args.size) :
    (acceptOpt table opt args spelling grouped index).Same
      (acceptOpt table opt args' spelling grouped index) := by
  have h : (acceptInternal opt args spelling index).Same
      (acceptInternal opt args' spelling index) := acceptInternal_same hagree hsize hindex
  simp only [acceptOpt]
  by_cases hgrouped : (grouped && decide (opt.kind = .flag)) = true
  · rw [if_pos hgrouped, if_pos hgrouped]
    exact ⟨rfl, rfl, rfl⟩
  · rw [if_neg hgrouped, if_neg hgrouped]
    by_cases hmatched : (acceptInternal opt args spelling index).result = .matched
    · rw [if_neg (not_not.mpr hmatched), if_neg (not_not.mpr (h.result_eq ▸ hmatched))]
      exact ⟨h.result_eq, h.index_eq, seen_resolve h.seen_eq⟩
    · rw [if_pos hmatched, if_pos (h.result_eq ▸ hmatched)]
      exact h

end

end Kotatsu.Cli.Table
