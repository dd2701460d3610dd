import Kotatsu.Cli.Table.Groups

/-!
# What a parse gives

A parse of an argv ends, and its results take the elements one after another. The rest of
a group reads as an element of its own, at the same place.
-/

namespace Kotatsu.Cli.Table

open Kotatsu.Core

/-- Results that cover an argv: in order, each reading on or taking its element apart, and
every element taken once, but for a `"--"` that only ends the options. -/
structure Covers (table : OptTable) (argv : List Bytes) (options : ParseOptions)
    (seen : List Result) : Prop where
  ordered : (seen.map Result.index).Pairwise (· ≤ ·)
  progress : ∀ k r, seen[k]? = some (.ok r) → r.nextIndex ≤ argv.length ∧
    (r.index < r.nextIndex ∨
      r.nextIndex = r.index ∧ ∃ next, seen[k + 1]? = some next ∧ next.index = r.index)
  elements : ∃ skipped : Option Nat, (∀ t ∈ skipped, Terminator argv options t) ∧
    seen.flatMap Result.elements =
      (List.range (reach argv.length seen)).filter (some · ≠ skipped)
  error_last : ∀ k e, seen[k]? = some (.error e) → k + 1 = seen.length ∧
    e.kind = .missingValue ∧ e.first < argv.length ∧ e.past = e.first + 1
  last : ∀ r, seen.getLast? = some (.ok r) → r.nextIndex = argv.length ∨
    r.nextIndex + 1 = argv.length ∧ Terminator argv options r.nextIndex
  values : ∀ r, .ok r ∈ seen → ∀ v ∈ r.values,
    InArgv argv r.index r.nextIndex v ∨ table.GivesValue v

theorem Reads.covers {table : OptTable} {argv : List Bytes} {options : ParseOptions}
    {seen : List Result} (h : Reads table argv options 0 false seen) :
    Covers table argv options seen := by
  obtain ⟨skipped, hskipped, heq⟩ := h.elements
  rw [Nat.sub_zero, ← List.range_eq_range'] at heq
  exact
    { ordered := h.ordered
      progress := fun k r hk => h.progress hk
      elements := ⟨skipped, fun t ht => (hskipped t ht).2.2, heq⟩
      error_last := fun k e hk => h.error_last hk
      last := fun r hr => h.last hr
      values := fun r hr v hv => h.values hr hv }

/-- A parse ends with results that cover the argv; and with grouped short options an element
no option accepts, behind whose dash a flag of one letter stands, gives that flag and then
what the rest behind a dash gives at the same place. -/
theorem parse_spec (table : OptTable) (argv : List Bytes) (options : ParseOptions)
    (hsmall : argv.length + 256 ≤ 2 ^ 32) :
    (∃ seen, (table.parse argv options).Yields seen ∧ Covers table argv options seen) ∧
    ∀ (it : ParseIter) (f : UInt8) (rest : Bytes) (o : OptionInfo),
      it.table = table → it.args = argv → it.options = options → it.done = false →
      it.groupBuf = [] → it.pastDashDash = false → options.groupedShortOptions = true →
      argv[it.index]? = some (dashByte :: f :: rest) →
      table.isInput (dashByte :: f :: rest) = false →
      (∀ o ∈ table.candidates (dashByte :: f :: rest),
        Refuses table { list := argv } it.index options o) →
      IsLetter table { list := argv } it.index options o → rest.head? ≠ some equalsByte →
      (options.dashDashParsing = true → rest ≠ [dashByte]) →
      ∃ flag, IsLetter table { list := argv } it.index options flag ∧
        it.advance.done = false ∧
        it.advance.current = .ok
          { id := (table.unaliasedOption flag).id
            index := it.index
            nextIndex := it.index
            spelling := [dashByte, f]
            values := table.added flag } ∧
        ∀ n, it.advance.seenResults n =
          ({ it with args := argv.set it.index (dashByte :: rest) } : ParseIter).seenResults n := by
  constructor
  · obtain ⟨seen, hyields, hreads, -⟩ := (table.parse argv options).yields_reads
      ⟨hsmall, rfl, ParseIter.grouped_of_nil rfl⟩ (Nat.zero_le _)
    exact ⟨seen, hyields, hreads.covers⟩
  · rintro it f rest o rfl rfl rfl hlive hnil hpast hgrouped helement hinput hrefuse ho hequals
      hdash
    have hindex : it.index < it.args.length := (List.getElem?_eq_some_iff.mp helement).1
    have hready : it.Ready := ⟨hsmall, hlive, ParseIter.grouped_of_nil hnil⟩
    have hat : it.element = dashByte :: f :: rest := by
      rw [ParseIter.element, List.getD_eq_getElem?_getD, helement, Option.getD_some]
    obtain ⟨flag, hflag, hadvance, hrest⟩ := ParseIter.advance_letter hready hgrouped hnil hpast
      hindex hat hinput hrefuse ho hequals
    refine ⟨flag, hflag, by rw [hadvance]; exact hlive, by rw [hadvance], fun n => ?_⟩
    have hskip : it.atDashDash = true → it.options.dashDashPacking = true := by
      intro h
      rw [ParseIter.atDashDash, hat, decide_eq_false ?_, Bool.and_false] at h
      · cases h
      · exact fun heq => hrest (List.cons.inj (List.cons.inj heq).2).2
    have hgroup := ((ParseIter.advance_outcome hready hindex hskip).moved hindex).1
    rw [hadvance] at hgroup ⊢
    exact (ParseIter.alike_rest hready hgrouped hnil hpast hindex hgroup hdash).seenResults n

/-! ## Where a parse does less -/

/-- Over `2 ^ 32` inputs the 32-bit index starts again. -/
theorem ParseIter.results_endless {it : ParseIter} (hlive : it.done = false)
    (hsize : it.args.length = 2 ^ 32) (hgrouped : it.options.groupedShortOptions = false)
    (hdash : it.options.dashDashParsing = false) (hpast : it.pastDashDash = false)
    (hinput : ∀ i, it.table.isInput (({ list := it.args } : Args).at' i).text = true)
    (hindex : it.index < 2 ^ 32) (n : Nat) : results n it = none := by
  induction n generalizing it with
  | zero => rfl
  | succ n ih =>
    have hat : it.atDashDash = false := by rw [atDashDash, hdash, Bool.and_false, Bool.false_and]
    have hstep : parseStep it.table { list := it.args } it.index it.options =
        ⟨.matched, u32 (it.index + 1),
          wholeArg { list := it.args } it.index it.table.inputOptionId⟩ := by
      simp only [parseStep, hinput, if_true]
    have hadvance : it.advance = it.deliver ⟨.matched, u32 (it.index + 1),
        wholeArg { list := it.args } it.index it.table.inputOptionId⟩ := by
      rw [advance_at hlive (hsize ▸ hindex), if_neg (by rw [hat]; exact Bool.false_ne_true),
        if_neg (by rw [hpast]; exact Bool.false_ne_true), ParseIter.option,
        if_neg (by rw [hgrouped]; exact Bool.false_ne_true), hstep]
    have hlive' : it.advance.done = false := by rw [hadvance]; exact hlive
    have hrest : results n it.advance = none := by
      rw [hadvance]
      exact ih hlive hsize hgrouped hdash hpast hinput (Nat.mod_lt _ (by decide))
    rw [results, if_neg (by rw [hlive']; exact Bool.false_ne_true), hrest]
    rfl

/-- An input, an unknown option, the flags `-a` and `-b`, the joined option `-j`, `-e`, a
flag that stands for it, and `-ax`, which takes two values. -/
def sampleInfos : List OptionInfo :=
  let flag : OptionInfo :=
    { prefixes := [ascii "-"], prefixedName := ascii "-a", id := 3, kind := .flag }
  [{ prefixes := [], prefixedName := ascii "<input>", id := 1, kind := .input },
    { prefixes := [], prefixedName := ascii "<unknown>", id := 2, kind := .unknown },
    flag,
    { flag with prefixedName := ascii "-b", id := 4 },
    { flag with prefixedName := ascii "-j", id := 5, kind := .joined },
    { flag with prefixedName := ascii "-e", id := 6, aliasId := 5 },
    { flag with prefixedName := ascii "-ax", id := 7, kind := .joinedAndSeparate, numArgs := 2 }]

def sampleTable : OptTable :=
  OptTable.new sampleInfos [] (by decide) (by decide) (by decide)

/-- The same options, of which the table is told another prefix. -/
def doubleTable : OptTable :=
  OptTable.new sampleInfos [dashDash] (by decide) (by decide) (by decide)

/-- A `"--"` that ends the options is no argument; a value may be a literal; in a group
`"--"` ends nothing; what begins a group may miss a value, or be an input; and over too many
elements a parse does not end. -/
theorem parse_sample_fails :
    (sampleTable.parse [dashDash] { dashDashParsing := true }).Yields [] ∧
    (∃ r v, (sampleTable.parse [ascii "-e"] {}).Yields [.ok r] ∧ v ∈ r.values ∧
      v.buffer = .literal) ∧
    (∃ it : ParseIter, it = sampleTable.parse [ascii "-a-"]
        { groupedShortOptions := true, dashDashParsing := true } ∧
      it.advance.seenResults 2 ≠ ({ it with args := [dashDash] } : ParseIter).seenResults 2) ∧
    (∃ e, (sampleTable.parse [ascii "-axb"] { groupedShortOptions := true }).Yields
      [.error e]) ∧
    (∃ r, (doubleTable.parse [ascii "-ab"] { groupedShortOptions := true }).Yields [.ok r] ∧
      r.id = doubleTable.inputOptionId) ∧
    ∀ n, ParseIter.results n (sampleTable.parse (List.replicate (2 ^ 32) (ascii "a")) {}) =
      none := by
  have hone : ∀ {it : ParseIter}, it.advance.done = false → it.advance.advance.done = true →
      it.Yields [it.advance.current] :=
    fun hlive hdone => ParseIter.yields_cons hlive rfl (ParseIter.yields_nil hdone)
  refine ⟨ParseIter.yields_nil (by decide), ?_, ?_, ?_, ?_, ?_⟩
  · exact ⟨_, ⟨.literal, 0, []⟩, hone (by decide) (by decide), by decide, rfl⟩
  · exact ⟨_, rfl, by decide⟩
  · exact ⟨_, hone (by decide) (by decide)⟩
  · exact ⟨_, hone (by decide) (by decide), by decide⟩
  · have hinput : ∀ i, sampleTable.isInput
        (({ list := List.replicate (2 ^ 32) (ascii "a") } : Args).at' i).text = true := by
      intro i
      have htext : ∀ o : Option Bytes, o = none ∨ o = some (ascii "a") →
          sampleTable.isInput (o.getD []) = true := by
        rintro o (rfl | rfl) <;> decide
      rw [Args.at']
      split
      · exact htext none (.inl rfl)
      · rw [List.getD_eq_getElem?_getD, List.getElem?_replicate]
        refine htext _ ?_
        split
        · exact .inr rfl
        · exact .inl rfl
    exact ParseIter.results_endless rfl List.length_replicate rfl rfl rfl hinput (by decide)

/-- The argv `-ab x` gives both flags and the input, and what `-b x` gives after the first. -/
theorem parse_spec_sample :
    (∃ seen, (sampleTable.parse [ascii "-ab", ascii "x"] { groupedShortOptions := true }).Yields
        seen ∧ Covers sampleTable [ascii "-ab", ascii "x"] { groupedShortOptions := true } seen) ∧
    ∀ n, (sampleTable.parse [ascii "-ab", ascii "x"]
        { groupedShortOptions := true }).advance.seenResults n =
      (sampleTable.parse [ascii "-b", ascii "x"]
        { groupedShortOptions := true }).seenResults n := by
  have hspec := parse_spec sampleTable [ascii "-ab", ascii "x"] { groupedShortOptions := true }
    (by decide)
  refine ⟨hspec.1, ?_⟩
  have hletter : IsLetter sampleTable { list := [ascii "-ab", ascii "x"] } 0
      { groupedShortOptions := true }
      { prefixes := [ascii "-"], prefixedName := ascii "-a", id := 3, kind := .flag } :=
    ⟨by decide, rfl, by decide, by decide, by decide⟩
  obtain ⟨flag, -, -, -, hsame⟩ := hspec.2 (sampleTable.parse _ _) 97 [98] _ rfl rfl rfl rfl rfl
    rfl rfl rfl (by decide) (by decide) hletter (by decide) (by decide)
  exact hsame

end Kotatsu.Cli.Table
