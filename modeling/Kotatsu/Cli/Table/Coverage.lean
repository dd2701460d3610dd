import Kotatsu.Cli.Table.Iter

/-!
# What a parse covers

One advance reads all of its element or a letter of it, or ends the parse with a missing
value. A letter leaves less of the element and all else leaves fewer elements, so the
results end; by then they have read the argv.
-/

namespace Kotatsu.Cli.Table

open Kotatsu.Core

namespace ParseIter

/-- What a step of an iterator reads: its element, or the rest of a group. -/
def shown (it : ParseIter) : Bytes := if it.groupBuf = [] then it.element else it.groupBuf

/-- The buffer of an iterator inside a group holds the rest of its element. -/
def Grouped (it : ParseIter) : Prop :=
  it.groupBuf ≠ [] → it.index < it.args.length ∧ it.pastDashDash = false ∧
    it.options.groupedShortOptions = true ∧ ∃ k, 2 ≤ k ∧ k < it.element.length ∧
      it.groupBuf = dashByte :: it.element.drop k

/-- An iterator that can go on, over an argv that 32-bit indices count. -/
structure Ready (it : ParseIter) : Prop where
  small : it.args.length + 256 ≤ 2 ^ 32
  live : it.done = false
  grouped : it.Grouped

/-- What no advance changes. -/
structure Kept (it it' : ParseIter) : Prop where
  table_eq : it'.table = it.table
  args_eq : it'.args = it.args
  options_eq : it'.options = it.options
  live : it'.done = false

/-- What an advance at an element can do. -/
inductive Outcome (it it' : ParseIter) : Prop
  | whole {r : ParsedArg} (current : it'.current = .ok r) (at_index : r.index = it.index)
      (lt : it.index < r.nextIndex) (le : r.nextIndex ≤ it.args.length)
      (values : ∀ v ∈ r.values,
        InArgv it.args it.index r.nextIndex v ∨ it.table.GivesValue v)
      (index : it'.index = r.nextIndex) (group : it'.groupBuf = [])
      (past : it.pastDashDash = true → it'.pastDashDash = true)
  | letter {r : ParsedArg} (current : it'.current = .ok r) (at_index : r.index = it.index)
      (stays : r.nextIndex = it.index) (values : ∀ v ∈ r.values, it.table.GivesValue v)
      (index : it'.index = it.index) (past : it'.pastDashDash = it.pastDashDash)
      (group : it'.groupBuf ≠ []) (grouped : it'.Grouped)
      (less : it'.groupBuf.length < it.shown.length)
  | missing {e : Error} (current : it'.current = .error e) (kind : e.kind = .missingValue)
      (first : e.first = it.index) (span : e.past = it.index + 1)
      (beyond : it.args.length < it'.index) (group : it'.groupBuf = [])

variable {list : List Bytes} {v : View} {out : ParsedArg}

section

variable {it : ParseIter}

/-! ## The argv as a step reads it -/

theorem at'_list {j : Nat} (hsmall : j + 256 ≤ 2 ^ 32) :
    ({ list } : Args).at' j = ⟨.element j, 0, list.getD j []⟩ := by
  have hne : j ≠ 2 ^ 32 - 1 := by omega
  rw [Args.at', if_neg hne]

theorem size_list (hsmall : list.length + 256 ≤ 2 ^ 32) : ({ list } : Args).size = list.length :=
  u32_of_lt (by omega : list.length < 2 ^ 32)

theorem view_group (h : it.groupBuf ≠ []) :
    it.view = { list := it.args, overlayIndex := it.index, overlay := it.groupBuf } := if_neg h

theorem size_view (hsmall : it.args.length + 256 ≤ 2 ^ 32) : it.view.size = it.args.length := by
  unfold view
  split <;> exact size_list hsmall

theorem at'_view (hindex : it.index + 256 ≤ 2 ^ 32) : (it.view.at' it.index).text = it.shown := by
  unfold view shown
  split
  · rw [at'_list hindex]
    rfl
  · rw [Args.at', if_pos rfl]

theorem at'_view_of_ne {j : Nat} (hsmall : j + 256 ≤ 2 ^ 32) (hne : j ≠ it.index) :
    it.view.at' j = ⟨.element j, 0, it.args.getD j []⟩ := by
  unfold view
  split
  · exact at'_list hsmall
  · rw [Args.at', if_neg hne]

/-- What a step takes from the argv itself stands in it. -/
theorem inArgv_of_takes {low high : Nat} (hsmall : high + 256 ≤ 2 ^ 32)
    (h : ({ list } : Args).Takes low high v) : InArgv list low high v := by
  obtain ⟨j, hlow, hhigh, hbuffer, hwithin, -⟩ := h
  rw [at'_list (by omega)] at hbuffer hwithin
  exact ⟨j, hlow, hhigh, hbuffer, hwithin⟩

/-- What a step takes through the buffer stands in the argv once it is pointed at it. -/
theorem inArgv_of_rebased {next : Nat} (hsmall : it.args.length + 256 ≤ 2 ^ 32)
    (hgroup : it.groupBuf ≠ []) (hlt : it.index < next) (hle : next ≤ it.args.length)
    (howns : ∀ v ∈ out.values, it.table.Owns it.view it.index next v)
    (hv : v ∈ (rebaseGroupValues out it.groupBuf ⟨.element it.index, 0, it.element⟩).values) :
    InArgv it.args it.index next v ∨ it.table.GivesValue v := by
  obtain ⟨hbuffer, hwithin⟩ | ⟨hmem, hout⟩ := mem_rebase rfl hv
  · exact .inl ⟨it.index, le_rfl, hlt, hbuffer, hwithin⟩
  · obtain ⟨j, hlow, hhigh, hbuffer, hwithin, -⟩ | hgives := howns v hmem
    · by_cases hj : j = it.index
      · subst hj
        have hview : it.view.at' it.index = ⟨.group, 0, it.groupBuf⟩ := by
          rw [view_group hgroup, Args.at', if_pos rfl]
        rw [hview] at hbuffer hwithin
        exact absurd (hout hbuffer) (not_lt.mpr hwithin.1)
      · rw [at'_view_of_ne (by omega) hj] at hbuffer hwithin
        exact .inl ⟨j, hlow, hhigh, hbuffer, hwithin⟩
    · exact .inr hgives

/-! ## One advance -/

/-- A step that takes all of its element, delivered with its values where they stand. -/
theorem deliver_taken {args : Args} {step : Accepted} {out' : ParsedArg}
    (hsmall : it.args.length + 256 ≤ 2 ^ 32) (hindex : it.index < it.args.length)
    (hsize : args.size = it.args.length) (htaken : step.Taken it.table args it.index)
    (hat' : out'.index = step.out.index)
    (hvalues : ∀ next, it.index < next → next ≤ it.args.length →
      (∀ v ∈ step.out.values, it.table.Owns args it.index next v) →
      ∀ v ∈ out'.values, InArgv it.args it.index next v ∨ it.table.GivesValue v) :
    Outcome it (deliver { it with groupBuf := [] } { step with out := out' }) := by
  cases htaken with
  | @matched next out hat hlt hle howns =>
    rw [hsize] at hle
    exact .whole rfl (hat'.trans hat) hlt hle (hvalues next hlt hle howns) rfl rfl id
  | @missing next out hat hlt =>
    rw [hsize] at hlt
    have hfirst : out'.index = it.index := hat'.trans hat
    refine .missing rfl rfl hfirst ?_ hlt rfl
    show u32 (out'.index + 1) = it.index + 1
    rw [hfirst, u32_of_lt (by omega)]

theorem taken_index {args : Args} {step : Accepted} (h : step.Taken it.table args it.index) :
    step.out.index = it.index := by
  cases h with
  | matched hat => exact hat
  | missing hat => exact hat

theorem rebase_index (out : ParsedArg) : (it.rebase out).index = out.index := by
  unfold rebase
  split <;> rfl

/-- What the table gives is no part of a group. -/
theorem not_group_of_gives {table : OptTable} (h : table.GivesValue v) : v.buffer ≠ .group := by
  intro hgroup
  obtain rfl | ⟨o, -, bytes, -, hbuffer, -⟩ := h
  · cases hgroup
  · rw [hbuffer] at hgroup
    cases hgroup

theorem rebase_gives (h : ∀ v ∈ out.values, it.table.GivesValue v) : it.rebase out = out := by
  unfold rebase
  split
  · rfl
  · rw [rebaseGroupValues]
    refine congrArg (fun values => { out with values }) ?_
    exact (List.map_congr_left fun v hv =>
      if_neg fun hgroup => not_group_of_gives (h v hv) hgroup.1).trans (List.map_id _)

/-- What a letter leaves is less than there was. -/
theorem drop_shown (h : it.Grouped) (hlonger : 2 < it.shown.length) :
    ∃ k, 2 ≤ k ∧ k < it.element.length ∧ it.shown.drop 2 = it.element.drop k := by
  unfold shown at hlonger ⊢
  split at hlonger
  · next hgroup => exact ⟨2, le_rfl, hlonger, by rw [if_pos hgroup]⟩
  · next hgroup =>
    obtain ⟨-, -, -, k, hk, -, hbuf⟩ := h hgroup
    rw [hbuf, List.length_cons, List.length_drop] at hlonger
    refine ⟨k + 1, by omega, by omega, ?_⟩
    rw [if_neg hgroup, hbuf, List.drop_succ_cons, List.drop_drop]

theorem bufferOf_of_ne {rest : Bytes} (h : rest ≠ []) : bufferOf rest = dashByte :: rest :=
  if_neg h

/-- A letter of a group, delivered with the rest of the group. -/
theorem deliver_letter (h : it.Ready) (hindex : it.index < it.args.length)
    (hpast : it.pastDashDash = false) (hgrouped : it.options.groupedShortOptions = true)
    (hat : out.index = it.index) (hgives : ∀ v ∈ out.values, it.table.GivesValue v)
    (hlonger : 2 < it.shown.length) :
    Outcome it (deliver { it with groupBuf := bufferOf (it.shown.drop 2) }
      ⟨.matched, it.index, out⟩) := by
  obtain ⟨k, hk, hlt, hrest⟩ := drop_shown h.grouped hlonger
  have hlength : (it.shown.drop 2).length = it.shown.length - 2 := List.length_drop
  have hne : it.shown.drop 2 ≠ [] := List.ne_nil_of_length_pos (by omega)
  rw [bufferOf_of_ne hne]
  refine .letter rfl hat rfl hgives rfl rfl (List.cons_ne_nil _ _) (fun _ => ?_) ?_
  · exact ⟨hindex, hpast, hgrouped, k, hk, hlt, congrArg _ hrest⟩
  · show (it.shown.drop 2).length + 1 < it.shown.length
    omega

/-- An advance at an element that may be an option. -/
theorem option_outcome (h : it.Ready) (hindex : it.index < it.args.length)
    (hpast : it.pastDashDash = false) : Outcome it it.option := by
  have hsmall := h.small
  unfold option
  split
  · next hgrouped =>
    have hstep : (parseStepGrouped it.table it.view it.index it.options).Sound it.table it.view
        it.index := parseStepGrouped_sound (by rw [size_view hsmall]; exact hsmall)
          (by rw [size_view hsmall]; exact hindex)
    have htext : (it.view.at' it.index).text = it.shown := at'_view (by omega)
    simp only
    generalize parseStepGrouped it.table it.view it.index it.options = step at hstep ⊢
    cases hstep with
    | @whole step htaken =>
      refine deliver_taken hsmall hindex (size_view hsmall) htaken (rebase_index _) ?_
      intro next hlt hle howns v hv
      unfold rebase at hv
      split at hv
      · next hgroup =>
        refine (howns v hv).imp_left fun htakes => ?_
        rw [view, if_pos hgroup] at htakes
        exact inArgv_of_takes (by omega) htakes
      · next hgroup =>
        rw [taken_index htaken] at hv
        exact inArgv_of_rebased hsmall hgroup hlt hle howns hv
    | @letter out hat hgives hlonger =>
      rw [rebase_gives hgives]
      rw [htext] at hlonger ⊢
      exact deliver_letter h hindex hpast hgrouped hat hgives hlonger
  · next hgrouped =>
    have hgroup : it.groupBuf = [] := by
      by_contra hne
      exact hgrouped (h.grouped hne).2.2.1
    have hit : it = { it with groupBuf := [] } := by rw [← hgroup]
    have htaken : (parseStep it.table { list := it.args } it.index it.options).Taken it.table
        { list := it.args } it.index :=
      parseStep_taken (by rw [size_list hsmall]; exact hsmall)
        (by rw [size_list hsmall]; exact hindex)
    have houtcome := deliver_taken hsmall hindex (size_list hsmall) htaken rfl
      fun next hlt hle howns v hv =>
        (howns v hv).imp_left fun htakes => inArgv_of_takes (by omega) htakes
    rw [← hit] at houtcome
    exact houtcome

/-- Past `"--"` there is no group. -/
theorem groupBuf_of_past (h : it.Grouped) (hpast : it.pastDashDash = true) :
    it.groupBuf = [] := by
  by_contra hne
  rw [(h hne).2.1] at hpast
  cases hpast

/-- An advance past `"--"`. -/
theorem positional_outcome (h : it.Ready) (hindex : it.index < it.args.length)
    (hpast : it.pastDashDash = true) : Outcome it it.positional := by
  have hsmall := h.small
  have hgroup := groupBuf_of_past h.grouped hpast
  rw [positional, if_pos hindex, u32_of_lt (by omega)]
  exact .whole rfl rfl (Nat.lt_succ_self _) hindex (List.forall_mem_nil _) rfl
    hgroup fun _ => hpast

/-- An advance at a `"--"` that packs the elements after it. -/
theorem packed_outcome (h : it.Ready) (hindex : it.index < it.args.length)
    (hgroup : it.groupBuf = []) : Outcome it it.packed := by
  have hsmall := h.small
  rw [packed, u32_of_lt (by omega)]
  refine .whole rfl rfl hindex le_rfl (fun v hv => .inl ?_) rfl hgroup fun _ => rfl
  obtain ⟨j, hj, rfl⟩ := List.mem_map.mp hv
  rw [List.mem_range'_1] at hj
  have hhigh : j < it.args.length := by omega
  exact ⟨j, by omega, hhigh, rfl, Nat.zero_le _, List.prefix_rfl⟩

/-- An element a group is in is not `"--"`. -/
theorem not_atDashDash (h : it.Ready) (hgroup : it.groupBuf ≠ []) : it.atDashDash = false := by
  obtain ⟨-, -, -, k, hk, hlt, -⟩ := h.grouped hgroup
  have hne : it.element ≠ dashDash := by
    intro heq
    rw [heq] at hlt
    exact absurd hlt (not_lt.mpr hk)
  rw [atDashDash, decide_eq_false hne, Bool.and_false]

theorem groupBuf_of_dash (h : it.Ready) (hdash : it.atDashDash = true) : it.groupBuf = [] := by
  by_contra hne
  rw [not_atDashDash h hne] at hdash
  cases hdash

/-- An advance at an element. -/
theorem advance_at (hlive : it.done = false) (hindex : it.index < it.args.length) :
    it.advance = if it.atDashDash then
        if it.options.dashDashPacking then it.packed else it.skipped.positional
      else if it.pastDashDash then it.positional
      else it.option := by
  rw [advance, if_neg (by rw [hlive]; exact Bool.false_ne_true), if_pos hindex]

/-- An advance that is not at the `"--"` it skips. -/
theorem advance_outcome (h : it.Ready) (hindex : it.index < it.args.length)
    (hskip : it.atDashDash = true → it.options.dashDashPacking = true) :
    Outcome it it.advance := by
  rw [advance_at h.live hindex]
  split
  · next hdash =>
    rw [if_pos (hskip hdash)]
    exact packed_outcome h hindex (groupBuf_of_dash h hdash)
  · split
    · next hpast => exact positional_outcome h hindex hpast
    · next hpast => exact option_outcome h hindex (Bool.eq_false_iff.mpr hpast)

theorem positional_kept (hlive : it.done = false) (hindex : it.index < it.args.length) :
    Kept it it.positional := by
  rw [positional, if_pos hindex]
  exact ⟨rfl, rfl, rfl, hlive⟩

theorem advance_kept (hlive : it.done = false) (hindex : it.index < it.args.length)
    (hskip : it.atDashDash = true → it.options.dashDashPacking = true) :
    Kept it it.advance := by
  rw [advance_at hlive hindex]
  split
  · next hdash =>
    rw [if_pos (hskip hdash)]
    exact ⟨rfl, rfl, rfl, hlive⟩
  · split
    · exact positional_kept hlive hindex
    · unfold option
      split
      · exact ⟨rfl, rfl, rfl, hlive⟩
      · exact ⟨rfl, rfl, rfl, hlive⟩

/-- Nothing is left to read. -/
theorem advance_end (hlive : it.done = false) (hindex : it.args.length ≤ it.index) :
    it.advance = { it with done := true } := by
  rw [advance, if_neg (by rw [hlive]; exact Bool.false_ne_true), if_neg (by omega)]

/-- An advance at the `"--"` that ends the options is one behind it. -/
theorem advance_skipped (hlive : it.done = false) (hindex : it.index < it.args.length)
    (hdash : it.atDashDash = true) (hpack : it.options.dashDashPacking = false) :
    it.advance = it.skipped.advance := by
  have hpast : it.skipped.atDashDash = false := rfl
  have hlive' : it.skipped.done = false := hlive
  rw [advance_at hlive hindex, if_pos hdash, if_neg (by rw [hpack]; exact Bool.false_ne_true),
    advance, if_neg (by rw [hlive']; exact Bool.false_ne_true)]
  split
  · rw [if_neg (by rw [hpast]; exact Bool.false_ne_true)]
    rfl
  · next hend => rw [positional, if_neg hend]

/-! ## A whole parse -/

/-- From enough advances on, a loop over the iterator sees these results. -/
def Yields (it : ParseIter) (seen : List Result) : Prop :=
  ∃ fuel, ∀ n, fuel ≤ n → results n it = some seen

theorem yields_nil (hdone : it.advance.done = true) : it.Yields [] := by
  refine ⟨1, fun n hn => ?_⟩
  obtain ⟨m, rfl⟩ := Nat.exists_eq_add_of_le' hn
  rw [results, if_pos hdone]

theorem yields_cons {seen : List Result} {r : Result} (hlive : it.advance.done = false)
    (hcurrent : it.advance.current = r) (h : it.advance.Yields seen) : it.Yields (r :: seen) := by
  obtain ⟨fuel, hfuel⟩ := h
  refine ⟨fuel + 1, fun n hn => ?_⟩
  obtain ⟨m, rfl⟩ : ∃ m, n = m + 1 := ⟨n - 1, by omega⟩
  rw [results, if_neg (by rw [hlive]; exact Bool.false_ne_true), hfuel m (by omega), hcurrent]
  rfl

theorem results_eq {it' : ParseIter} (h : it.advance = it'.advance) (n : Nat) :
    results n it = results n it' := by
  cases n with
  | zero => rfl
  | succ n => rw [results, results, h]

theorem grouped_of_nil (h : it.groupBuf = []) : it.Grouped := fun hne => absurd h hne

theorem dashDash_terminator (hindex : it.index < it.args.length) (hdash : it.atDashDash = true)
    (hpack : it.options.dashDashPacking = false) :
    it.pastDashDash = false ∧ Terminator it.args it.options it.index := by
  rw [atDashDash, Bool.and_eq_true, Bool.and_eq_true, Bool.not_eq_true', decide_eq_true_eq] at hdash
  obtain ⟨⟨hpast, hparsing⟩, helement⟩ := hdash
  refine ⟨hpast, hparsing, hpack, ?_⟩
  rw [element, List.getD_eq_getElem?_getD, List.getElem?_eq_getElem hindex,
    Option.getD_some] at helement
  rw [List.getElem?_eq_getElem hindex, helement]

/-- A parse ends, and its results read the argv from where it is. -/
theorem yields_reads (it : ParseIter) (h : it.Ready) (hindex : it.index ≤ it.args.length) :
    ∃ seen, it.Yields seen ∧ Reads it.table it.args it.options it.index it.pastDashDash seen ∧
      (it.groupBuf ≠ [] → ∃ next rest, seen = next :: rest ∧ next.index = it.index) := by
  obtain hend | hlt := Nat.eq_or_lt_of_le hindex
  · have hdone : it.advance.done = true := by rw [advance_end h.live hend.ge]
    refine ⟨[], yields_nil hdone, hend ▸ .done, fun hne => ?_⟩
    exact absurd (h.grouped hne).1 (by omega)
  · by_cases hskip : it.atDashDash = true → it.options.dashDashPacking = true
    · obtain ⟨htable, hargs, hoptions, hlive⟩ := advance_kept h.live hlt hskip
      have hsmall : it.advance.args.length + 256 ≤ 2 ^ 32 := by rw [hargs]; exact h.small
      cases advance_outcome h hlt hskip with
      | @whole r hcurrent hat hlt' hle hvalues hnext hgroup hpast =>
        obtain ⟨seen, hyields, hreads, -⟩ := yields_reads it.advance
          ⟨hsmall, hlive, grouped_of_nil hgroup⟩ (by rw [hnext, hargs]; exact hle)
        rw [htable, hargs, hoptions, hnext] at hreads
        exact ⟨.ok r :: seen, yields_cons hlive hcurrent hyields,
          .whole hat hlt' hle hvalues hpast hreads, fun _ => ⟨_, _, rfl, hat⟩⟩
      | @letter r hcurrent hat hstays hvalues hnext hpast hgroup hgrouped hless =>
        have hshown : it.advance.shown.length < it.shown.length := by
          rw [shown, if_neg hgroup]
          exact hless
        obtain ⟨seen, hyields, hreads, hagain⟩ := yields_reads it.advance
          ⟨hsmall, hlive, hgrouped⟩ (by rw [hnext, hargs]; exact hindex)
        obtain ⟨next, rest, rfl, hsame⟩ := hagain hgroup
        rw [htable, hargs, hoptions, hnext, hpast] at hreads
        rw [hnext] at hsame
        exact ⟨.ok r :: next :: rest, yields_cons hlive hcurrent hyields,
          .letter hlt hat hstays hvalues hsame hreads, fun _ => ⟨_, _, rfl, hat⟩⟩
      | @missing e hcurrent hkind hfirst hspan hbeyond hgroup =>
        have hdone : it.advance.advance.done = true := by
          rw [advance_end hlive (by rw [hargs]; exact hbeyond.le)]
        exact ⟨[.error e], yields_cons hlive hcurrent (yields_nil hdone),
          .missing hlt hkind hfirst hspan, fun _ => ⟨_, _, rfl, hfirst⟩⟩
    · obtain ⟨hdash, hpack⟩ := Classical.not_imp.mp hskip
      have hpack := Bool.eq_false_iff.mpr hpack
      have hgroup := groupBuf_of_dash h hdash
      obtain ⟨hpast, hterminator⟩ := dashDash_terminator hlt hdash hpack
      have hnext : it.skipped.index = it.index + 1 := u32_of_lt (by have := h.small; omega)
      obtain ⟨seen, ⟨fuel, hfuel⟩, hreads, -⟩ := yields_reads it.skipped
        ⟨h.small, h.live, grouped_of_nil hgroup⟩ (by rw [hnext]; exact hlt)
      have hsame := results_eq (advance_skipped h.live hlt hdash hpack)
      refine ⟨seen, ⟨fuel, fun n hn => (hsame n).trans (hfuel n hn)⟩, ?_, fun hne => ?_⟩
      · rw [hpast]
        rw [hnext] at hreads
        exact .skip hterminator hreads
      · exact absurd hgroup hne
termination_by (it.args.length - it.index, it.shown.length)
decreasing_by
  · rw [hargs, hnext]
    exact Prod.Lex.left _ _ (by omega)
  · rw [hargs, hnext]
    exact Prod.Lex.right _ hshown
  · have hsame : it.skipped.args = it.args := rfl
    rw [hsame, hnext]
    exact Prod.Lex.left _ _ (by omega)

end

end ParseIter

namespace Reads

variable {table : OptTable} {argv : List Bytes} {options : ParseOptions} {i : Nat} {past : Bool}
  {seen : List Result}

/-- Results do not begin before where they are read from. -/
theorem le_index (h : Reads table argv options i past seen) : ∀ r ∈ seen, i ≤ r.index := by
  induction h with
  | done => exact List.forall_mem_nil _
  | skip terminator rest ih => exact fun r hr => (Nat.le_succ _).trans (ih r hr)
  | whole at_index lt le values past_mono rest ih =>
    intro r hr
    obtain rfl | hr := List.mem_cons.mp hr
    · exact at_index.ge
    · exact lt.le.trans (ih r hr)
  | letter lt at_index stays values again rest ih =>
    intro r hr
    obtain rfl | hr := List.mem_cons.mp hr
    · exact at_index.ge
    · exact ih r hr
  | missing lt kind first span =>
    intro r hr
    obtain rfl := List.mem_singleton.mp hr
    exact first.ge

/-- Results begin in order. -/
theorem ordered (h : Reads table argv options i past seen) :
    (seen.map Result.index).Pairwise (· ≤ ·) := by
  induction h with
  | done => exact List.Pairwise.nil
  | skip terminator rest ih => exact ih
  | whole at_index lt le values past_mono rest ih =>
    refine List.Pairwise.cons (fun j hj => ?_) ih
    obtain ⟨r, hr, rfl⟩ := List.mem_map.mp hj
    exact at_index.le.trans (lt.le.trans (rest.le_index r hr))
  | letter lt at_index stays values again rest ih =>
    refine List.Pairwise.cons (fun j hj => ?_) ih
    obtain ⟨r, hr, rfl⟩ := List.mem_map.mp hj
    exact at_index.le.trans (rest.le_index r hr)
  | missing => exact List.pairwise_singleton _ _

/-- A result reads elements, or its element is still being taken apart. -/
theorem progress (h : Reads table argv options i past seen) {k : Nat} {r : ParsedArg}
    (hk : seen[k]? = some (.ok r)) : r.nextIndex ≤ argv.length ∧ (r.index < r.nextIndex ∨
      r.nextIndex = r.index ∧ ∃ next, seen[k + 1]? = some next ∧ next.index = r.index) := by
  induction h generalizing k with
  | done => cases hk
  | skip terminator rest ih => exact ih hk
  | whole at_index lt le values past_mono rest ih =>
    cases k with
    | zero =>
      cases hk
      exact ⟨le, .inl (at_index.trans_lt lt)⟩
    | succ k => exact ih hk
  | letter lt at_index stays values again rest ih =>
    cases k with
    | zero =>
      cases hk
      exact ⟨stays ▸ lt.le, .inr ⟨stays.trans at_index.symm, _, rfl, again.trans at_index.symm⟩⟩
    | succ k => exact ih hk
  | missing =>
    cases k with
    | zero => cases hk
    | succ k => cases hk

/-- An error is the last result, a missing value at its element. -/
theorem error_last (h : Reads table argv options i past seen) {k : Nat} {e : Error}
    (hk : seen[k]? = some (.error e)) :
    k + 1 = seen.length ∧ e.kind = .missingValue ∧ e.first < argv.length ∧
      e.past = e.first + 1 := by
  induction h generalizing k with
  | done => cases hk
  | skip terminator rest ih => exact ih hk
  | whole at_index lt le values past_mono rest ih =>
    cases k with
    | zero => cases hk
    | succ k => exact ⟨congrArg (· + 1) (ih hk).1, (ih hk).2⟩
  | letter lt at_index stays values again rest ih =>
    cases k with
    | zero => cases hk
    | succ k => exact ⟨congrArg (· + 1) (ih hk).1, (ih hk).2⟩
  | missing lt kind first span =>
    cases k with
    | zero =>
      cases hk
      exact ⟨rfl, kind, first ▸ lt, first ▸ span⟩
    | succ k => cases hk

theorem le_reach (h : Reads table argv options i past seen) : i ≤ reach argv.length seen := by
  induction h with
  | done => exact le_rfl
  | skip terminator rest ih => exact (Nat.le_succ _).trans ih
  | whole at_index lt le values past_mono rest ih => exact lt.le.trans ih
  | letter lt at_index stays values again rest ih => exact ih
  | missing lt kind first => exact first.ge

/-- The results take the elements one after another, but for a `"--"` that is skipped. -/
theorem elements (h : Reads table argv options i past seen) :
    ∃ skipped : Option Nat,
      (∀ t ∈ skipped, i ≤ t ∧ past = false ∧ Terminator argv options t) ∧
      seen.flatMap Result.elements =
        (List.range' i (reach argv.length seen - i)).filter (some · ≠ skipped) := by
  induction h with
  | done => exact ⟨none, fun t ht => absurd ht (Option.not_mem_none t), by simp [reach]⟩
  | @skip i seen terminator rest ih =>
    obtain ⟨skipped, hskipped, heq⟩ := ih
    have hnone : skipped = none := by
      refine Option.eq_none_iff_forall_not_mem.mpr fun t ht => ?_
      exact absurd (hskipped t ht).2.1.symm Bool.false_ne_true
    subst hnone
    have hle := rest.le_reach
    refine ⟨some i, fun t ht => ?_, ?_⟩
    · cases ht
      exact ⟨le_rfl, rfl, terminator⟩
    · obtain ⟨n, hn⟩ := Nat.exists_eq_add_of_le' hle
      have hlength : reach argv.length seen - i = n + 1 := by omega
      have hlength' : reach argv.length seen - (i + 1) = n := by omega
      rw [heq, hlength, hlength', List.range'_succ, List.filter_cons_of_neg (by simp)]
      refine List.filter_congr fun j hj => ?_
      rw [List.mem_range'_1] at hj
      simp only [ne_eq, reduceCtorEq, not_false_eq_true, decide_true, Option.some.injEq]
      rw [decide_eq_true (by omega)]
  | @whole i past past' r seen at_index lt le values past_mono rest ih =>
    obtain ⟨skipped, hskipped, heq⟩ := ih
    have hle := rest.le_reach
    refine ⟨skipped, fun t ht => ?_, ?_⟩
    · obtain ⟨hge, hpast, hterminator⟩ := hskipped t ht
      refine ⟨by omega, ?_, hterminator⟩
      by_contra hne
      rw [past_mono (Bool.eq_true_of_not_eq_false hne)] at hpast
      cases hpast
    · have hsplit : List.range' i (reach argv.length seen - i) =
          List.range' i (r.nextIndex - i) ++
            List.range' r.nextIndex (reach argv.length seen - r.nextIndex) := by
        obtain ⟨n, hn⟩ := Nat.exists_eq_add_of_le lt.le
        rw [hn, Nat.add_sub_cancel_left, List.range'_append_1]
        congr 1
        omega
      have hkeep : (List.range' i (r.nextIndex - i)).filter (some · ≠ skipped) =
          List.range' i (r.nextIndex - i) := by
        refine List.filter_eq_self.mpr fun j hj => decide_eq_true ?_
        rintro rfl
        rw [List.mem_range'_1] at hj
        have := (hskipped j rfl).1
        omega
      rw [List.flatMap_cons, heq, reach, hsplit, List.filter_append, hkeep, Result.elements,
        at_index]
  | @letter i past r next seen lt at_index stays values again rest ih =>
    obtain ⟨skipped, hskipped, heq⟩ := ih
    refine ⟨skipped, hskipped, ?_⟩
    rw [List.flatMap_cons, heq, reach, Result.elements, stays, at_index, Nat.sub_self]
    rfl
  | missing lt kind first =>
    exact ⟨none, fun t ht => absurd ht (Option.not_mem_none t), by
      simp [reach, first, Result.elements]⟩

/-- What is left when there is nothing more to see. -/
theorem of_nil (h : Reads table argv options i past []) : i = argv.length ∨
    i + 1 = argv.length ∧ Terminator argv options i := by
  have hdone : ∀ {j}, Reads table argv options j true [] → j = argv.length := by
    intro j h
    cases h
    rfl
  cases h with
  | done => exact .inl rfl
  | skip terminator rest => exact .inr ⟨hdone rest, terminator⟩

/-- The last argument reads up to the end, or up to a `"--"` there. -/
theorem last (h : Reads table argv options i past seen) {r : ParsedArg}
    (hlast : seen.getLast? = some (.ok r)) : r.nextIndex = argv.length ∨
      r.nextIndex + 1 = argv.length ∧ Terminator argv options r.nextIndex := by
  induction h with
  | done => cases hlast
  | skip terminator rest ih => exact ih hlast
  | @whole i past past' r' seen at_index lt le values past_mono rest ih =>
    cases seen with
    | nil =>
      cases hlast
      exact rest.of_nil
    | cons next seen => exact ih (by rwa [List.getLast?_cons_cons] at hlast)
  | letter lt at_index stays values again rest ih =>
    exact ih (by rwa [List.getLast?_cons_cons] at hlast)
  | missing => cases hlast

/-- Values stand in the elements of their result, or are what the table gives. -/
theorem values (h : Reads table argv options i past seen) {r : ParsedArg}
    (hr : .ok r ∈ seen) {v : View} (hv : v ∈ r.values) :
    InArgv argv r.index r.nextIndex v ∨ table.GivesValue v := by
  induction h with
  | done => cases hr
  | skip terminator rest ih => exact ih hr
  | whole at_index lt le values past_mono rest ih =>
    obtain heq | hr := List.mem_cons.mp hr
    · cases heq
      exact at_index ▸ values v hv
    · exact ih hr
  | letter lt at_index stays values again rest ih =>
    obtain heq | hr := List.mem_cons.mp hr
    · cases heq
      exact .inr (values v hv)
    · exact ih hr
  | missing =>
    cases List.mem_singleton.mp hr

end Reads

end Kotatsu.Cli.Table
