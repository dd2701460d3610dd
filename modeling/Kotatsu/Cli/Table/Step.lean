import Kotatsu.Cli.Table.Scan

/-!
# One step of a parse

A step takes an input, the option that accepts the element, or the element as an unknown
option. With grouped short options it may take only a letter of the element and leave the
rest of it; the rest is then read through a buffer, behind a dash, and the values found
there are pointed at the same text in the element.
-/

namespace Kotatsu.Cli.Table

open Kotatsu.Core

/-- `"--"`. -/
def dashDash : Bytes := [dashByte, dashByte]

section

variable (table : OptTable) (args : Args) (index : Nat) (options : ParseOptions)

/-- The whole element as an argument of the option `id`. -/
def wholeArg (id : Nat) : ParsedArg := { id, index, spelling := (args.at' index).text }

/-- The end of `parse_step` and of `parse_step_grouped`: an unknown option, with what
follows it when unknown options are greedy. -/
def unknownStep : Accepted :=
  let out := wholeArg args index table.unknownOptionId
  let next := u32 (index + 1)
  if options.greedyUnknown && (args.at' index).text ≠ dashDash then
    let (stop, values) := consumeUnknownValues table args next options
    ⟨.matched, stop, { out with values }⟩
  else ⟨.matched, next, out⟩

/-- `parse_step`. -/
def parseStep : Accepted :=
  let str := (args.at' index).text
  let input : Accepted := ⟨.matched, u32 (index + 1), wholeArg args index table.inputOptionId⟩
  if table.isInput str then input
  else
    let scan := scanAndAccept table args index options table.tablegenMode
    match scan.result with
    | .matched => ⟨.matched, scan.newIndex, scan.out⟩
    | .missingValue => ⟨.missingValue, scan.newIndex, { index }⟩
    | .noMatch => if str.head? = some slashByte then input else unknownStep table args index options

/-- `GroupedStep`, with the `index` and the `out` of its step. -/
structure GroupedStep where
  accepted : Accepted
  rest : Bytes := []

/-- `parse_step_grouped`. -/
def parseStepGrouped : GroupedStep :=
  let str := (args.at' index).text
  if table.isInput str then
    ⟨⟨.matched, u32 (index + 1), wholeArg args index table.inputOptionId⟩, []⟩
  else
    let scan := scanAndAccept table args index options true
    match scan.result with
    | .matched => ⟨⟨.matched, scan.newIndex, scan.out⟩, []⟩
    | .missingValue => ⟨⟨.missingValue, scan.newIndex, { index }⟩, []⟩
    | .noMatch =>
      match scan.fallbackFlag with
      | some opt =>
        if str[2]? = some equalsByte then
          ⟨⟨.matched, u32 (index + 1), wholeArg args index table.unknownOptionId⟩, []⟩
        else
          ⟨{ acceptOpt table opt args (str.take 2) true index with result := .matched },
            str.drop 2⟩
      | none =>
        if 1 < str.length ∧ str[1]? ≠ some dashByte then
          let out : ParsedArg := { id := table.unknownOptionId, index, spelling := str.take 2 }
          if 2 < str.length then ⟨⟨.matched, index, out⟩, str.drop 2⟩
          else ⟨⟨.matched, u32 (index + 1), out⟩, []⟩
        else ⟨unknownStep table args index options, []⟩

end

/-- `rebase_group_values`. A view begins within the bounds of the group, its end included,
when the group is what it is part of. -/
def rebaseGroupValues (out : ParsedArg) (group : Bytes) (element : View) : ParsedArg :=
  { out with
    values := out.values.map fun value =>
      if value.buffer = .group ∧ value.start ≤ group.length then
        let at' := element.text.length - (group.length - value.start)
        ⟨element.buffer, element.start + at', (element.text.drop at').take value.text.length⟩
      else value }

section

variable {table : OptTable} {args : Args} {index : Nat} {options : ParseOptions}

/-! ## What a step takes -/

/-- What a step that takes all of its element leaves. -/
inductive Accepted.Taken (table : OptTable) (args : Args) (index : Nat) : Accepted → Prop
  | matched {next : Nat} {out : ParsedArg} (at_index : out.index = index) (lt : index < next)
      (le : next ≤ args.size) (owns : ∀ v ∈ out.values, table.Owns args index next v) :
      Taken table args index ⟨.matched, next, out⟩
  | missing {next : Nat} {out : ParsedArg} (at_index : out.index = index)
      (lt : args.size < next) : Taken table args index ⟨.missingValue, next, out⟩

/-- What a step with grouped short options leaves: it takes all of the element, or its
first letter. -/
inductive GroupedStep.Sound (table : OptTable) (args : Args) (index : Nat) : GroupedStep → Prop
  | whole {accepted : Accepted} (taken : accepted.Taken table args index) :
      Sound table args index ⟨accepted, []⟩
  | letter {out : ParsedArg} (at_index : out.index = index)
      (gives : ∀ v ∈ out.values, table.GivesValue v)
      (longer : 2 < (args.at' index).text.length) :
      Sound table args index ⟨⟨.matched, index, out⟩, (args.at' index).text.drop 2⟩

/-- An element alone, without values. -/
theorem taken_one {out : ParsedArg} (hsize : args.size + 256 ≤ 2 ^ 32)
    (hindex : index < args.size) (hat : out.index = index) (hvalues : out.values = []) :
    (⟨.matched, u32 (index + 1), out⟩ : Accepted).Taken table args index := by
  rw [u32_of_lt (by omega)]
  refine .matched hat (by omega) hindex fun v hv => ?_
  rw [hvalues] at hv
  cases hv

theorem unknownStep_taken (hsize : args.size + 256 ≤ 2 ^ 32) (hindex : index < args.size) :
    (unknownStep table args index options).Taken table args index := by
  rw [unknownStep, u32_of_lt (by omega)]
  simp only
  split
  · obtain ⟨hge, hle, htakes⟩ :=
      @consumeUnknownValues_spec table args (index + 1) options hindex index (by omega)
    exact .matched rfl (by omega) hle fun v hv => .inl (htakes v hv)
  · exact .matched rfl (by omega) hindex (List.forall_mem_nil _)

theorem parseStep_taken (hsize : args.size + 256 ≤ 2 ^ 32) (hindex : index < args.size) :
    (parseStep table args index options).Taken table args index := by
  have hscan : (scanAndAccept table args index options table.tablegenMode).Sound table args index
      options := scanAndAccept_sound hsize hindex
  unfold parseStep
  simp only
  split
  · exact taken_one hsize hindex rfl rfl
  · split
    · next hresult =>
      obtain ⟨hat, hlt, hle, howns⟩ := hscan.matched hresult
      exact .matched hat hlt hle howns
    · next hresult => exact .missing rfl (hscan.missing hresult)
    · split
      · exact taken_one hsize hindex rfl rfl
      · exact unknownStep_taken hsize hindex

/-- A flag of one letter in a group keeps the index. -/
theorem acceptOpt_letter {opt : OptionInfo} (hkind : opt.kind = .flag) (spelling : Bytes) :
    acceptOpt table opt args spelling true index =
      ⟨.matched, index, table.resolve opt { spelling, index }⟩ := by
  simp only [acceptOpt, hkind, decide_true, Bool.and_self, if_true, ne_eq, not_true, if_false]

theorem parseStepGrouped_sound (hsize : args.size + 256 ≤ 2 ^ 32) (hindex : index < args.size) :
    (parseStepGrouped table args index options).Sound table args index := by
  have hscan : (scanAndAccept table args index options true).Sound table args index options :=
    scanAndAccept_sound hsize hindex
  unfold parseStepGrouped
  simp only
  split
  · exact .whole (taken_one hsize hindex rfl rfl)
  · split
    · next hresult =>
      obtain ⟨hat, hlt, hle, howns⟩ := hscan.matched hresult
      exact .whole (.matched hat hlt hle howns)
    · next hresult => exact .whole (.missing rfl (hscan.missing hresult))
    · split
      · next opt hopt =>
        have hletter := hscan.fallback opt hopt
        split
        · exact .whole (taken_one hsize hindex rfl rfl)
        · rw [acceptOpt_letter hletter.kind, resolve_eq]
          refine .letter rfl (fun v hv => ?_) hletter.longer
          exact mem_added (OptTable.mem_of_mem_candidates hletter.candidate) hv
      · split
        · split
          · next hlonger => exact .letter rfl (List.forall_mem_nil _) hlonger
          · exact .whole (taken_one hsize hindex rfl rfl)
        · exact .whole (unknownStep_taken hsize hindex)

/-- An element no option accepts, behind whose dash a flag of one letter stands, gives the
flag and leaves the rest. -/
theorem parseStepGrouped_letter (hsize : args.size + 256 ≤ 2 ^ 32) (hindex : index < args.size)
    (hinput : table.isInput (args.at' index).text = false)
    (hrefuse : ∀ it ∈ table.candidates (args.at' index).text, Refuses table args index options it)
    {o : OptionInfo} (ho : IsLetter table args index options o)
    (hequals : (args.at' index).text[2]? ≠ some equalsByte) :
    ∃ flag, IsLetter table args index options flag ∧
      parseStepGrouped table args index options =
        ⟨⟨.matched, index,
          table.resolve flag { spelling := (args.at' index).text.take 2, index }⟩,
          (args.at' index).text.drop 2⟩ := by
  have hscan : (scanAndAccept table args index options true).Sound table args index options :=
    scanAndAccept_sound hsize hindex
  have hrefused : (scanAndAccept table args index options true).result = .noMatch ∧
      (scanAndAccept table args index options true).fallbackFlag.isSome :=
    scanAndAccept_refused hsize hindex hrefuse ho
  obtain ⟨flag, hflag⟩ := Option.isSome_iff_exists.mp hrefused.2
  have hletter := hscan.fallback flag hflag
  refine ⟨flag, hletter, ?_⟩
  simp only [parseStepGrouped, hinput, Bool.false_eq_true, if_false, hrefused.1, hflag, hequals,
    acceptOpt_letter hletter.kind]

/-! ## What is seen of a step -/

variable {args' : Args}

theorem wholeArg_eq (hagree : args.Agree args' index) (id : Nat) :
    wholeArg args index id = wholeArg args' index id := by
  rw [wholeArg, wholeArg, hagree.text_eq index le_rfl]

theorem unknownStep_same (hagree : args.Agree args' index) (hsize : args.size + 256 ≤ 2 ^ 32)
    (hindex : index < args.size) :
    (unknownStep table args index options).Same (unknownStep table args' index options) := by
  have hone : u32 (index + 1) = index + 1 := u32_of_lt (by omega)
  obtain ⟨hstop, hvalues⟩ :=
    @consumeUnknownValues_same table args (index + 1) options args' (hagree.mono (by omega))
  rw [unknownStep, unknownStep, hone, ← hagree.text_eq index le_rfl, wholeArg_eq hagree]
  simp only
  split
  · exact ⟨rfl, hstop, seen_values hvalues⟩
  · exact ⟨rfl, rfl, rfl⟩

theorem parseStepGrouped_same (hagree : args.Agree args' index)
    (hsize : args.size + 256 ≤ 2 ^ 32) (hindex : index < args.size) :
    (parseStepGrouped table args index options).accepted.Same
        (parseStepGrouped table args' index options).accepted ∧
      (parseStepGrouped table args index options).rest =
        (parseStepGrouped table args' index options).rest := by
  have hscan : (scanAndAccept table args index options true).Same
      (scanAndAccept table args' index options true) := scanAndAccept_same hagree hsize hindex
  simp only [parseStepGrouped, ← hagree.text_eq index le_rfl, ← wholeArg_eq hagree,
    ← hscan.result_eq, ← hscan.index_eq, ← hscan.flag_eq]
  split
  · exact ⟨⟨rfl, rfl, rfl⟩, rfl⟩
  · split
    · exact ⟨⟨rfl, rfl, hscan.seen_eq⟩, rfl⟩
    · exact ⟨⟨rfl, rfl, rfl⟩, rfl⟩
    · split
      · next opt _ =>
        split
        · exact ⟨⟨rfl, rfl, rfl⟩, rfl⟩
        · have hletter : (acceptOpt table opt args ((args.at' index).text.take 2) true index).Same
              (acceptOpt table opt args' ((args.at' index).text.take 2) true index) :=
            acceptOpt_same hagree hsize hindex
          exact ⟨⟨rfl, hletter.index_eq, hletter.seen_eq⟩, rfl⟩
      · split
        · split
          · exact ⟨⟨rfl, rfl, rfl⟩, rfl⟩
          · exact ⟨⟨rfl, rfl, rfl⟩, rfl⟩
        · exact ⟨unknownStep_same hagree hsize hindex, rfl⟩

/-! ## Pointing values at the element -/

/-- A value pointed at the element stands in it. -/
theorem mem_rebase {out : ParsedArg} {group : Bytes} {element v : View}
    (hstart : element.start = 0) (hv : v ∈ (rebaseGroupValues out group element).values) :
    (v.buffer = element.buffer ∧ v.Within element.text) ∨
      v ∈ out.values ∧ (v.buffer = .group → group.length < v.start) := by
  obtain ⟨value, hvalue, rfl⟩ := List.mem_map.mp hv
  simp only
  split
  · refine .inl ⟨rfl, ?_, ?_⟩
    · rw [hstart, Nat.zero_add]
      exact Nat.sub_le _ _
    · rw [hstart, Nat.zero_add]
      exact List.take_prefix _ _
  · next hnot => exact .inr ⟨hvalue, fun hbuffer => not_le.mp fun hle => hnot ⟨hbuffer, hle⟩⟩

/-- The text of a value in the rest of a group is the text it is pointed at. -/
theorem rebase_text {rest : Bytes} {element value : View} {k : Nat}
    (hrest : rest = element.text.drop k) (hk : k ≤ element.text.length) (hpos : 0 < value.start)
    (hwithin : value.Within (dashByte :: rest)) :
    (element.text.drop (element.text.length - ((dashByte :: rest).length - value.start))).take
      value.text.length = value.text := by
  obtain ⟨hstart, htext⟩ := hwithin
  obtain ⟨n, hn⟩ : ∃ n, value.start = n + 1 := ⟨value.start - 1, by omega⟩
  have hat : element.text.length - ((dashByte :: rest).length - value.start) = k + n := by
    rw [List.length_cons, hrest, List.length_drop] at hstart ⊢
    omega
  rw [hn, List.drop_succ_cons, hrest, List.drop_drop] at htext
  rw [hat]
  exact (List.prefix_iff_eq_take.mp htext).symm

/-- Pointing the values at the element changes nothing that is seen. -/
theorem seen_rebase {out : ParsedArg} {rest : Bytes} {element : View} {k : Nat}
    (hrest : rest = element.text.drop k) (hk : k ≤ element.text.length)
    (hvalues : ∀ v ∈ out.values, v.buffer = .group → 0 < v.start ∧ v.Within (dashByte :: rest)) :
    (rebaseGroupValues out (dashByte :: rest) element).seen = out.seen := by
  refine seen_values ?_
  rw [List.map_map]
  refine List.map_congr_left fun v hv => ?_
  rw [Function.comp_apply]
  split
  · next hgroup =>
    obtain ⟨hpos, hwithin⟩ := hvalues v hv hgroup.1
    exact rebase_text hrest hk hpos hwithin
  · rfl

end

end Kotatsu.Cli.Table
