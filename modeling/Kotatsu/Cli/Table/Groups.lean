import Kotatsu.Cli.Table.Coverage

/-!
# Groups of short options

The rest of a group is read as an element of its own would be. Two iterators that are at
the same text, one inside a group and one at an element, see the same results: a step goes
by the texts from its element on, and pointing values at the argv changes none.
-/

namespace Kotatsu.Cli.Table

open Kotatsu.Core

/-- What there is to see of a result: not where values stand, nor the argv of an error. -/
def Result.seen : Result → Except Error Seen
  | .ok r => .ok r.seen
  | .error e => .error { e with argv := [] }

namespace ParseIter

/-- Iterators that have the same ahead of them. -/
structure Alike (a b : ParseIter) : Prop where
  ready : a.Ready
  ready' : b.Ready
  table_eq : a.table = b.table
  options_eq : a.options = b.options
  grouped : a.options.groupedShortOptions = true
  index_eq : a.index = b.index
  past_eq : a.pastDashDash = b.pastDashDash
  size_eq : a.args.length = b.args.length
  beyond : ∀ j, a.index < j → a.args.getD j [] = b.args.getD j []
  shown_eq : a.shown = b.shown
  dash_eq : a.atDashDash = b.atDashDash

section

variable {it a b : ParseIter}

/-- What an element other than its own says to an iterator. -/
theorem text_view {j : Nat} (hsmall : it.args.length + 256 ≤ 2 ^ 32) (hne : j ≠ it.index) :
    (it.view.at' j).text = it.args.getD j [] := by
  by_cases hj : j + 256 ≤ 2 ^ 32
  · rw [at'_view_of_ne hj hne]
  · have hend : it.args.getD j [] = [] := by
      rw [List.getD_eq_getElem?_getD, List.getElem?_eq_none (by omega), Option.getD_none]
    rw [hend]
    unfold view
    split
    · rw [Args.at']
      split
      · rfl
      · exact hend
    · rw [Args.at', if_neg hne]
      exact hend

theorem Alike.agree (h : Alike a b) (hindex : a.index < a.args.length) :
    a.view.Agree b.view a.index := by
  have hsmall := h.ready.small
  have hsmall' := h.ready'.small
  refine ⟨?_, fun j hj => ?_⟩
  · rw [size_view hsmall, size_view hsmall', h.size_eq]
  · obtain rfl | hlt := Nat.eq_or_lt_of_le hj
    · rw [at'_view (by omega), h.shown_eq]
      rw [h.index_eq] at hindex ⊢
      exact (at'_view (by omega)).symm
    · have := h.index_eq
      rw [text_view hsmall (by omega), text_view hsmall' (by omega), h.beyond j hlt]

/-- A value found in the rest of a group stands in it, behind the dash. -/
theorem rebase_seen {step : GroupedStep} (h : it.Ready) (hindex : it.index < it.args.length)
    (hstep : step.Sound it.table it.view it.index)
    (hresult : step.accepted.result ≠ .missingValue) :
    (it.rebase step.accepted.out).seen = step.accepted.out.seen := by
  unfold rebase
  split
  · rfl
  · next hgroup =>
    obtain ⟨-, -, -, k, hk, hlt, hbuf⟩ := h.grouped hgroup
    have hview : it.view.at' it.index = ⟨.group, 0, it.groupBuf⟩ := by
      rw [view_group hgroup, Args.at', if_pos rfl]
    cases hstep with
    | whole htaken =>
      cases htaken with
      | @matched next out hat hlt' hle howns =>
        rw [hbuf, hat]
        refine seen_rebase rfl hlt.le fun v hv hbuffer => ?_
        obtain ⟨j, hlow, hhigh, hv', hwithin, hfirst⟩ | hgives := howns v hv
        · have hj : j = it.index := by
            by_contra hne
            rw [size_view h.small] at hle
            rw [at'_view_of_ne (by have := h.small; omega) hne, hbuffer] at hv'
            cases hv'
          subst hj
          rw [hview] at hwithin
          exact ⟨hfirst rfl, hbuf ▸ hwithin⟩
        · exact absurd hbuffer (not_group_of_gives hgives)
      | missing => exact absurd rfl hresult
    | @letter out hat hgives =>
      have hrebase := rebase_gives hgives
      rw [rebase, if_neg hgroup] at hrebase
      exact congrArg ParsedArg.seen hrebase

theorem seen_next {out out' : ParsedArg} (h : out.seen = out'.seen) (nextIndex : Nat) :
    ({ out with nextIndex } : ParsedArg).seen = ({ out' with nextIndex } : ParsedArg).seen := by
  simp only [ParsedArg.seen, Seen.mk.injEq] at h
  simp only [ParsedArg.seen, h]

theorem seen_deliver {s t : Accepted} (hresult : s.result = t.result) (hindex : s.index = t.index)
    (hfirst : s.out.index = t.out.index)
    (hseen : s.result ≠ .missingValue → s.out.seen = t.out.seen) :
    (a.deliver s).current.seen = (b.deliver t).current.seen := by
  unfold deliver
  simp only [← hresult, ← hindex, ← hfirst]
  split
  · rfl
  · next hne =>
    have hnext := seen_next (hseen hne) s.index
    rw [← hfirst] at hnext
    exact congrArg Except.ok hnext

/-- The step of two alike iterators. -/
theorem Alike.option (h : Alike a b) (hindex : a.index < a.args.length) :
    a.option.current.seen = b.option.current.seen ∧ a.option.index = b.option.index ∧
      a.option.groupBuf = b.option.groupBuf ∧ a.option.pastDashDash = b.option.pastDashDash := by
  have hsize : a.view.size + 256 ≤ 2 ^ 32 := by rw [size_view h.ready.small]; exact h.ready.small
  have hlt : a.index < a.view.size := by rw [size_view h.ready.small]; exact hindex
  have hindex' : b.index < b.args.length := by rw [← h.index_eq, ← h.size_eq]; exact hindex
  have hsize' : b.view.size + 256 ≤ 2 ^ 32 := by
    rw [size_view h.ready'.small]
    exact h.ready'.small
  have hlt' : b.index < b.view.size := by rw [size_view h.ready'.small]; exact hindex'
  have hsound := @parseStepGrouped_sound a.table a.view a.index a.options hsize hlt
  have hsound' := @parseStepGrouped_sound b.table b.view b.index b.options hsize' hlt'
  obtain ⟨hsame, hrest⟩ :=
    @parseStepGrouped_same a.table a.view a.index a.options b.view (h.agree hindex) hsize hlt
  rw [h.table_eq, h.options_eq, h.index_eq] at hsame hrest hsound
  have hgrouped' : b.options.groupedShortOptions = true := h.options_eq ▸ h.grouped
  simp only [ParseIter.option, hgrouped', if_true, h.table_eq, h.options_eq, h.index_eq]
  refine ⟨seen_deliver hsame.result_eq hsame.index_eq ?_ fun hne => ?_, hsame.index_eq, ?_,
    h.past_eq⟩
  · rw [rebase_index, rebase_index]
    exact congrArg Seen.index hsame.seen_eq
  · rw [rebase_seen h.ready hindex (by rw [h.table_eq, h.index_eq]; exact hsound) hne,
      rebase_seen h.ready' hindex' hsound' (hsame.result_eq ▸ hne)]
    exact hsame.seen_eq
  · exact congrArg bufferOf hrest

/-- An advance leaves less of its element behind, or goes to another. -/
theorem Outcome.moved {it' : ParseIter} (h : Outcome it it') (hindex : it.index < it.args.length) :
    it'.Grouped ∧ (it'.index = it.index ∧ it'.groupBuf ≠ [] ∨
      it.index < it'.index ∧ it'.groupBuf = []) := by
  cases h with
  | whole current at_index lt le values index group past =>
    exact ⟨grouped_of_nil group, .inr ⟨index ▸ lt, group⟩⟩
  | letter current at_index stays values index past group grouped less =>
    exact ⟨grouped, .inl ⟨index, group⟩⟩
  | missing current kind first span beyond group =>
    exact ⟨grouped_of_nil group, .inr ⟨hindex.trans beyond, group⟩⟩

/-- Alike iterators stay so over advances that do the same. -/
theorem Alike.next {a' b' : ParseIter} (h : Alike a b) (hlt : a.index < a.args.length)
    (hout : Outcome a a') (hout' : Outcome b b') (hkept : Kept a a') (hkept' : Kept b b')
    (hindex : a'.index = b'.index) (hgroup : a'.groupBuf = b'.groupBuf)
    (hpast : a'.pastDashDash = b'.pastDashDash) : Alike a' b' := by
  have hlt' : b.index < b.args.length := by rw [← h.index_eq, ← h.size_eq]; exact hlt
  obtain ⟨hgrouped, hmoved⟩ := hout.moved hlt
  have hready : a'.Ready := ⟨hkept.args_eq ▸ h.ready.small, hkept.live, hgrouped⟩
  have hready' : b'.Ready := ⟨hkept'.args_eq ▸ h.ready'.small, hkept'.live, (hout'.moved hlt').1⟩
  have hoptions : a'.options = b'.options := by
    rw [hkept.options_eq, hkept'.options_eq, h.options_eq]
  have hbeyond : ∀ j, a.index < j → a'.args.getD j [] = b'.args.getD j [] := by
    intro j hj
    rw [hkept.args_eq, hkept'.args_eq, h.beyond j hj]
  have hshown : a'.shown = b'.shown ∧ a'.atDashDash = b'.atDashDash := by
    obtain ⟨-, hne⟩ | ⟨hmore, hnil⟩ := hmoved
    · have hne' : b'.groupBuf ≠ [] := hgroup ▸ hne
      rw [shown, shown, if_neg hne, if_neg hne', not_atDashDash hready hne,
        not_atDashDash hready' hne']
      exact ⟨hgroup, rfl⟩
    · have hnil' : b'.groupBuf = [] := hgroup ▸ hnil
      have helement : a'.element = b'.element := by
        rw [element, element, ← hindex]
        exact hbeyond _ hmore
      rw [shown, shown, if_pos hnil, if_pos hnil', atDashDash, atDashDash, hpast, hoptions,
        helement]
      exact ⟨rfl, rfl⟩
  refine ⟨hready, hready', ?_, hoptions, ?_, hindex, hpast, ?_, fun j hj => hbeyond j ?_,
    hshown.1, hshown.2⟩
  · rw [hkept.table_eq, hkept'.table_eq, h.table_eq]
  · rw [hkept.options_eq]
    exact h.grouped
  · rw [hkept.args_eq, hkept'.args_eq, h.size_eq]
  · obtain ⟨heq, -⟩ | ⟨hmore, -⟩ := hmoved <;> omega

theorem element_eq_shown (h : it.Grouped) (hpast : it.pastDashDash = true) :
    it.element = it.shown := by
  rw [shown, if_pos (groupBuf_of_past h hpast)]

theorem Alike.positional (h : Alike a b) (hpast : a.pastDashDash = true)
    (hindex : a.index < a.args.length) :
    a.positional.current.seen = b.positional.current.seen ∧
      a.positional.index = b.positional.index ∧
      a.positional.groupBuf = b.positional.groupBuf ∧
      a.positional.pastDashDash = b.positional.pastDashDash := by
  have hindex' : b.index < b.args.length := by rw [← h.index_eq, ← h.size_eq]; exact hindex
  have hpast' : b.pastDashDash = true := h.past_eq ▸ hpast
  have helement : a.element = b.element := by
    rw [element_eq_shown h.ready.grouped hpast, element_eq_shown h.ready'.grouped hpast',
      h.shown_eq]
  rw [ParseIter.positional, ParseIter.positional, if_pos hindex, if_pos hindex', h.table_eq,
    h.index_eq, helement]
  refine ⟨rfl, rfl, ?_, h.past_eq⟩
  show a.groupBuf = b.groupBuf
  rw [groupBuf_of_past h.ready.grouped hpast, groupBuf_of_past h.ready'.grouped hpast']

theorem Alike.packed (h : Alike a b) (hdash : a.atDashDash = true) :
    a.packed.current.seen = b.packed.current.seen ∧ a.packed.index = b.packed.index ∧
      a.packed.groupBuf = b.packed.groupBuf ∧ a.packed.pastDashDash = b.packed.pastDashDash := by
  rw [ParseIter.packed, ParseIter.packed, h.table_eq, h.size_eq, h.index_eq]
  refine ⟨congrArg Except.ok (seen_values ?_), rfl, ?_, rfl⟩
  · rw [List.map_map, List.map_map]
    refine List.map_congr_left fun j hj => ?_
    rw [List.mem_range'_1] at hj
    exact h.beyond j (by have := h.index_eq; omega)
  · show a.groupBuf = b.groupBuf
    rw [groupBuf_of_dash h.ready hdash, groupBuf_of_dash h.ready' (h.dash_eq ▸ hdash)]

theorem Alike.atDashDash_packing (h : Alike a b)
    (hskip : a.atDashDash = true → a.options.dashDashPacking = true) :
    b.atDashDash = true → b.options.dashDashPacking = true := by
  rw [← h.dash_eq, ← h.options_eq]
  exact hskip

/-- An advance of alike iterators, but for the `"--"` that is skipped. -/
theorem Alike.advance (h : Alike a b) (hindex : a.index < a.args.length)
    (hskip : a.atDashDash = true → a.options.dashDashPacking = true) :
    a.advance.current.seen = b.advance.current.seen ∧ Alike a.advance b.advance := by
  have hindex' : b.index < b.args.length := by rw [← h.index_eq, ← h.size_eq]; exact hindex
  have hskip' := h.atDashDash_packing hskip
  have hboth : a.advance.current.seen = b.advance.current.seen ∧
      a.advance.index = b.advance.index ∧ a.advance.groupBuf = b.advance.groupBuf ∧
      a.advance.pastDashDash = b.advance.pastDashDash := by
    rw [advance_at h.ready.live hindex, advance_at h.ready'.live hindex', ← h.dash_eq,
      ← h.past_eq]
    split
    · next hdash =>
      rw [if_pos (hskip hdash), if_pos (hskip' (h.dash_eq ▸ hdash))]
      exact h.packed hdash
    · split
      · next hpast => exact h.positional hpast hindex
      · exact h.option hindex
  obtain ⟨hseen, hnext, hgroup, hpast⟩ := hboth
  exact ⟨hseen, h.next hindex (advance_outcome h.ready hindex hskip)
    (advance_outcome h.ready' hindex' hskip') (advance_kept h.ready.live hindex hskip)
    (advance_kept h.ready'.live hindex' hskip') hnext hgroup hpast⟩

/-- Alike iterators behind the `"--"` they skip are alike. -/
theorem Alike.skipped (h : Alike a b) (hindex : a.index < a.args.length)
    (hdash : a.atDashDash = true) : Alike a.skipped b.skipped := by
  have hgroup : a.skipped.groupBuf = [] := (groupBuf_of_dash h.ready hdash : a.groupBuf = [])
  have hdash' : b.atDashDash = true := h.dash_eq ▸ hdash
  have hgroup' : b.skipped.groupBuf = [] := (groupBuf_of_dash h.ready' hdash' : b.groupBuf = [])
  have hnext : a.skipped.index = a.index + 1 := u32_of_lt (by have := h.ready.small; omega)
  have hnext' : a.skipped.index = b.skipped.index := congrArg (fun i => u32 (i + 1)) h.index_eq
  have hbeyond : ∀ j, a.index < j → a.skipped.args.getD j [] = b.skipped.args.getD j [] := h.beyond
  refine ⟨⟨h.ready.small, h.ready.live, grouped_of_nil hgroup⟩,
    ⟨h.ready'.small, h.ready'.live, grouped_of_nil hgroup'⟩, h.table_eq, h.options_eq, h.grouped,
    hnext', rfl, h.size_eq, fun j hj => hbeyond j (by omega), ?_, rfl⟩
  rw [shown, shown, if_pos hgroup, if_pos hgroup', element, element, ← hnext']
  exact hbeyond _ (by omega)

/-- What is seen when a loop over an iterator ends within `n` advances. -/
def seenResults (n : Nat) (it : ParseIter) : Option (List (Except Error Seen)) :=
  (results n it).map (List.map Result.seen)

theorem seenResults_succ (hlive : it.advance.done = false) (n : Nat) :
    seenResults (n + 1) it =
      (seenResults n it.advance).map (it.advance.current.seen :: ·) := by
  rw [seenResults, results, if_neg (by rw [hlive]; exact Bool.false_ne_true), seenResults,
    Option.map_map, Option.map_map]
  rfl

theorem seenResults_end (hdone : it.advance.done = true) (n : Nat) :
    seenResults (n + 1) it = some [] := by
  rw [seenResults, results, if_pos hdone]
  rfl

/-- Alike iterators see the same results. -/
theorem Alike.seenResults (h : Alike a b) (n : Nat) :
    a.seenResults n = b.seenResults n := by
  induction n generalizing a b with
  | zero => rfl
  | succ n ih =>
    have hunskipped : ∀ {a b : ParseIter}, Alike a b →
        (a.index < a.args.length → a.atDashDash = true → a.options.dashDashPacking = true) →
        a.seenResults (n + 1) = b.seenResults (n + 1) := by
      intro a b h hskip
      obtain hlt | hend := Nat.lt_or_ge a.index a.args.length
      · obtain ⟨hseen, hnext⟩ := h.advance hlt (hskip hlt)
        rw [seenResults_succ hnext.ready.live, seenResults_succ hnext.ready'.live, hseen, ih hnext]
      · have hend' : b.args.length ≤ b.index := by rw [← h.index_eq, ← h.size_eq]; exact hend
        rw [seenResults_end (by rw [advance_end h.ready.live hend]),
          seenResults_end (by rw [advance_end h.ready'.live hend'])]
    by_cases hskip : a.index < a.args.length → a.atDashDash = true →
        a.options.dashDashPacking = true
    · exact hunskipped h hskip
    · obtain ⟨hlt, hskip⟩ := Classical.not_imp.mp hskip
      obtain ⟨hdash, hpack⟩ := Classical.not_imp.mp hskip
      have hpack := Bool.eq_false_iff.mpr hpack
      have hlt' : b.index < b.args.length := by rw [← h.index_eq, ← h.size_eq]; exact hlt
      have hskipped := advance_skipped h.ready.live hlt hdash hpack
      have hskipped' := advance_skipped h.ready'.live hlt' (h.dash_eq ▸ hdash)
        (h.options_eq ▸ hpack)
      rw [ParseIter.seenResults, ParseIter.seenResults, results_eq hskipped, results_eq hskipped']
      exact hunskipped (h.skipped hlt hdash) fun _ hdash' => absurd hdash' Bool.false_ne_true

/-- An advance at a group of short options gives the flag of its first letter, and stays
there with the rest of it behind a dash. -/
theorem advance_letter {f : UInt8} {rest : Bytes} {o : OptionInfo}
    (h : it.Ready) (hgrouped : it.options.groupedShortOptions = true) (hnil : it.groupBuf = [])
    (hpast : it.pastDashDash = false) (hindex : it.index < it.args.length)
    (helement : it.element = dashByte :: f :: rest)
    (hinput : it.table.isInput (dashByte :: f :: rest) = false)
    (hrefuse : ∀ o ∈ it.table.candidates (dashByte :: f :: rest),
      Refuses it.table { list := it.args } it.index it.options o)
    (ho : IsLetter it.table { list := it.args } it.index it.options o)
    (hequals : rest.head? ≠ some equalsByte) :
    ∃ flag, IsLetter it.table { list := it.args } it.index it.options flag ∧
      it.advance = { it with
        current := .ok
          { id := (it.table.unaliasedOption flag).id
            index := it.index
            nextIndex := it.index
            spelling := [dashByte, f]
            values := it.table.added flag }
        groupBuf := dashByte :: rest } ∧ rest ≠ [] := by
  have hsmall := h.small
  have hview : it.view = { list := it.args } := if_pos hnil
  have htext : (({ list := it.args } : Args).at' it.index).text = dashByte :: f :: rest := by
    rw [at'_list (by omega)]
    exact helement
  have hlonger := ho.longer
  rw [htext, List.length_cons, List.length_cons] at hlonger
  have hrest : rest ≠ [] := List.ne_nil_of_length_pos (by omega)
  obtain ⟨flag, hflag, hstep⟩ := parseStepGrouped_letter (by rw [size_list hsmall]; exact hsmall)
    (by rw [size_list hsmall]; exact hindex) (htext ▸ hinput) (htext ▸ hrefuse) ho (by
      rw [htext, List.getElem?_cons_succ, List.getElem?_cons_succ, ← List.head?_eq_getElem?]
      exact hequals)
  have hdash : it.atDashDash = false := by
    have hne : it.element ≠ dashDash := by
      rw [helement]
      rintro heq
      exact hrest (List.cons.inj (List.cons.inj heq).2).2
    rw [atDashDash, decide_eq_false hne, Bool.and_false]
  refine ⟨flag, hflag, ?_, hrest⟩
  rw [advance_at h.live hindex, if_neg (by rw [hdash]; exact Bool.false_ne_true),
    if_neg (by rw [hpast]; exact Bool.false_ne_true), ParseIter.option, if_pos hgrouped, hview,
    hstep, htext, resolve_eq]
  simp only [rebase, hnil, if_true]
  rw [List.drop_succ_cons, List.drop_succ_cons, List.drop_zero, bufferOf_of_ne hrest]
  rfl

/-- An iterator inside a group is alike one at an element that says the rest of it. -/
theorem alike_rest {rest : Bytes} {current : Result} (h : it.Ready)
    (hgrouped : it.options.groupedShortOptions = true) (hnil : it.groupBuf = [])
    (hpast : it.pastDashDash = false) (hindex : it.index < it.args.length)
    (hgroup : ({ it with current, groupBuf := dashByte :: rest } : ParseIter).Grouped)
    (hdash : it.options.dashDashParsing = true → rest ≠ [dashByte]) :
    Alike { it with current, groupBuf := dashByte :: rest }
      { it with args := it.args.set it.index (dashByte :: rest) } := by
  have hready : ({ it with current, groupBuf := dashByte :: rest } : ParseIter).Ready :=
    ⟨h.small, h.live, hgroup⟩
  have helement : (it.args.set it.index (dashByte :: rest)).getD it.index [] =
      dashByte :: rest := by
    rw [List.getD_eq_getElem?_getD, List.getElem?_set_self hindex, Option.getD_some]
  have hlength : (it.args.set it.index (dashByte :: rest)).length = it.args.length :=
    List.length_set
  refine ⟨hready, ⟨hlength.symm ▸ h.small, h.live, grouped_of_nil hnil⟩, rfl, rfl, hgrouped, rfl,
    rfl, hlength.symm, fun j hj => ?_, ?_, ?_⟩
  · have hne : it.index ≠ j := Nat.ne_of_lt hj
    simp only [List.getD_eq_getElem?_getD, List.getElem?_set_ne hne]
  · have hshown : ({ it with args := it.args.set it.index (dashByte :: rest) } : ParseIter).shown =
        dashByte :: rest := by rw [shown, if_pos hnil, element, helement]
    rw [hshown]
    rfl
  · rw [not_atDashDash hready (List.cons_ne_nil _ _), atDashDash, element, helement, hpast]
    cases hparsing : it.options.dashDashParsing with
    | false => rfl
    | true =>
      have hne : dashByte :: rest ≠ dashDash := fun heq => hdash hparsing (List.cons.inj heq).2
      rw [decide_eq_false hne, Bool.and_false]

end

end ParseIter

end Kotatsu.Cli.Table
