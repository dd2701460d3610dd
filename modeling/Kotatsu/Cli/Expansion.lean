import Mathlib.Order.WellFounded
import Kotatsu.Cli.Aliases

/-!
# Expanding aliases

A reader replaces an alias by what it stands for and goes on from there. The elements keep
their origins and an error its place in the argv through all of it. It comes to an end when
what an alias stands for names no alias of the command: then each alias is expanded once.
The check of a declaration sees to that, except for a name that begins with a slash, which
the table also reads behind a dash.
-/

namespace Kotatsu.Cli

open Kotatsu.Core Kotatsu.Cli.Table

variable {m m' : Machine State} {parsed : ParsedArg} {index high k n : Nat} {error : ReadError}

section

variable {State : Type} {fx : Effects State} {argv : List Bytes}

/-- The span of an error is one of the argv. -/
theorem errorFrom_span {reading : Reading}
    (hlengths : reading.active.length = reading.origin.length)
    (hbelow : ∀ i ∈ reading.origin, i < argv.length) (failure : Failure) :
    (errorFrom reading argv failure).first ≤ (errorFrom reading argv failure).past ∧
      (errorFrom reading argv failure).past ≤ argv.length := by
  have hargc : u32 argv.length ≤ argv.length := u32_le _
  have hsize : u32 reading.active.length ≤ reading.origin.length := hlengths ▸ u32_le _
  have hat : ∀ {i : Nat}, i < u32 reading.active.length →
      reading.origin.getD i 0 < argv.length := by
    intro i hi
    rw [List.getD_eq_getElem?_getD, List.getElem?_eq_getElem (hi.trans_le hsize), Option.getD_some]
    exact hbelow _ (List.getElem_mem _)
  have hfirst : (if u32 reading.active.length ≤ failure.low then u32 argv.length
      else reading.origin.getD failure.low 0) ≤ argv.length := by
    split
    · exact hargc
    · next hlow => exact (hat (Nat.lt_of_not_le hlow)).le
  refine ⟨le_max_left _ _, max_le hfirst ?_⟩
  split
  · exact hfirst
  · split
    · exact hargc
    · next hhigh hpast =>
      have hlt := hat (i := failure.high - 1) (by omega)
      exact (u32_le _).trans hlt

namespace Machine

variable {m m' : Machine State}

/-- The alias a turn of the loop expands. -/
def expanding (m : Machine State) : Option FieldInfo :=
  if m.frame.it.advance.done then none
  else
    match m.frame.it.advance.current with
    | .error _ => none
    | .ok parsed =>
      if parsed.id < 3 then none
      else
        match m.frame.command.builder.argOf parsed.id with
        | .arg _ field => if (useOf field).shape = .alias then some field else none
        | _ => none

/-- What a turn of the loop needs: elements that 32 bits count, and of an alias that it
expands, that it stands for no alias of the command. -/
structure Meets (m : Machine State) : Prop where
  small : m.reading.active.length + 256 ≤ 2 ^ 32
  apart : ∀ field ∈ m.expanding, ∀ token ∈ field.spec.forward,
    m.frame.command.builder.namesAlias token = false

/-- The elements of a reader and their origins. -/
structure Sound (argv : List Bytes) (m : Machine State) : Prop where
  lengths : m.reading.active.length = m.reading.origin.length
  sorted : m.reading.origin.Pairwise (· ≤ ·)
  below : ∀ i ∈ m.reading.origin, i < argv.length

/-- The parse a reader is in is of its elements from the base on. -/
structure Parses (m : Machine State) : Prop where
  base : m.frame.base ≤ m.reading.active.length
  plain : m.frame.command.builder.Plain m.frame.it
  args : m.frame.it.args = m.reading.active.drop m.frame.base

/-- What a turn that does not end the reader can do, with the argument that it reads. -/
inductive Turn (fx : Effects State) (m m' : Machine State) (parsed : ParsedArg) : Prop
  | stored (cursor : Nat) (state : State)
      (same : m' = { m with
        frame := { m.frame with it := m.frame.it.advance, cursor }, state })
      (none : m.expanding = none)
  | expanded {index : Nat} {field : FieldInfo}
      (arg : m.frame.command.builder.argOf parsed.id = .arg index field)
      (shape : (useOf field).shape = .alias)
      (expanding : m.expanding = some field)
      (same : m' = { m with frame := { m.frame with it := m.frame.it.advance } }.expand field
        (u32 (m.frame.base + parsed.index)) (u32 (m.frame.base + parsed.nextIndex)))
  | entered {sub : Command} {word : Bytes} {subcommands : List (Bytes × Command)}
      {index : Nat} {state : State}
      (some : m.frame.command.subcommands = some subcommands) (mem : (word, sub) ∈ subcommands)
      (none : m.expanding = none)
      (same : m' =
        { reading := { m.reading with subcommandWords := m.reading.subcommandWords ++ [index] }
          frame := .start sub m.reading.active (u32 (m.frame.base + parsed.nextIndex))
          outer := { m.frame with it := m.frame.it.advance, cursor := index } :: m.outer
          state })

theorem Turn.of_store {parsed p : ParsedArg} {arg low high : Nat} {stop : Bool}
    (hnone : m.expanding = none)
    (h : ({ m with frame := { m.frame with it := m.frame.it.advance } } : Machine State).store
      fx argv arg p low high stop = .inl m') : Turn fx m m' parsed := by
  unfold store at h
  split at h
  · cases h
  · next state hstore =>
    split at h
    · cases h
    · cases h
      exact .stored high state rfl hnone

theorem Turn.of_storeInput (hnone : m.expanding = none)
    (h : ({ m with frame := { m.frame with it := m.frame.it.advance } } : Machine State).storeInput
      fx argv index high = .inl m') : Turn fx m m' parsed := by
  unfold storeInput at h
  split at h
  · cases h
  · next state hstore =>
    cases h
    exact .stored high state rfl hnone

theorem Turn.of_input (hnone : m.expanding = none)
    (h : ({ m with frame := { m.frame with it := m.frame.it.advance } } : Machine State).input
      fx argv parsed index (u32 (m.frame.base + parsed.nextIndex)) high = .inl m') :
    Turn fx m m' parsed := by
  unfold input at h
  simp only at h
  split at h
  · exact .of_store hnone h
  · split at h
    · exact .of_storeInput hnone h
    · next subcommands hsome =>
      split at h
      · next word sub hfind =>
        unfold enter at h
        split at h
        · cases h
        · cases h
          exact .entered hsome (List.mem_of_find?_eq_some hfind) hnone rfl
      · split at h
        · cases h
        · exact .of_storeInput hnone h

theorem expanding_of_current (hlive : m.frame.it.advance.done = false)
    (hcurrent : m.frame.it.advance.current = .ok parsed) :
    m.expanding = if parsed.id < 3 then none
      else
        match m.frame.command.builder.argOf parsed.id with
        | .arg _ field => if (useOf field).shape = .alias then some field else none
        | _ => none := by
  rw [expanding, hlive, if_neg Bool.false_ne_true, hcurrent]

/-- A turn that goes on reads an argument. -/
theorem turn_of_step (h : m.step fx argv = .inl m') :
    ∃ parsed, m.frame.it.advance.done = false ∧ m.frame.it.advance.current = .ok parsed ∧
      Turn fx m m' parsed := by
  unfold step at h
  simp only at h
  split at h
  · cases h
  · next hdone =>
    have hlive := Bool.eq_false_iff.mpr hdone
    split at h
    · cases h
    · next parsed hcurrent =>
      have hexpanding := expanding_of_current hlive hcurrent
      refine ⟨parsed, hlive, hcurrent, ?_⟩
      unfold take at h
      simp only at h
      split at h
      · cases h
      · next hunknown =>
        rw [Builder.unknownOptionId_table] at hunknown
        split at h
        · next hinput =>
          rw [Builder.inputOptionId_table] at hinput
          rw [if_pos (by omega)] at hexpanding
          exact .of_input hexpanding h
        · next hinput =>
          rw [Builder.inputOptionId_table] at hinput
          unfold option at h
          split at h
          · cases h
          · cases h
          · next index field harg =>
            have hid : ¬ parsed.id < 3 := by
              obtain ⟨i, o, hid, -⟩ := Builder.of_argOf harg
              omega
            rw [if_neg hid] at hexpanding
            simp only at harg
            rw [harg] at hexpanding
            split at h
            · next halias =>
              simp only [halias, if_true] at hexpanding
              cases h
              exact .expanded harg halias hexpanding rfl
            · next halias =>
              simp only [halias, if_false] at hexpanding
              exact .of_store hexpanding h

/-- An error at elements of a reader. -/
def Reports (argv : List Bytes) (m : Machine State) (error : ReadError) : Prop :=
  ∃ failure, error = errorFrom m.reading argv failure

theorem reports_fail {failure : Failure}
    (h : (.inr (m.fail argv failure) : Machine State ⊕ Outcome) = .inr (.error error)) :
    m.Reports argv error := by
  cases h
  exact ⟨failure, rfl⟩

theorem reports_store {arg low high : Nat} {stop : Bool}
    (h : m.store fx argv arg parsed low high stop = .inr (.error error)) :
    m.Reports argv error := by
  unfold store at h
  split at h
  · exact reports_fail h
  · split at h
    · cases h
    · cases h

theorem reports_storeInput (h : m.storeInput fx argv index high = .inr (.error error)) :
    m.Reports argv error := by
  unfold storeInput at h
  split at h
  · exact reports_fail h
  · cases h

theorem reports_input {index next high : Nat}
    (h : m.input fx argv parsed index next high = .inr (.error error)) : m.Reports argv error := by
  unfold input at h
  simp only at h
  split at h
  · exact reports_store h
  · split at h
    · exact reports_storeInput h
    · split at h
      · unfold enter at h
        split at h
        · exact reports_fail h
        · cases h
      · split at h
        · exact reports_fail h
        · exact reports_storeInput h

theorem reports_option {index next high : Nat}
    (h : m.option fx argv parsed index next high = .inr (.error error)) : m.Reports argv error := by
  unfold option at h
  split at h
  · cases h
  · cases h
  · split at h
    · cases h
    · exact reports_store h

theorem reports_close (h : m.close fx argv = .error error) : m.Reports argv error := by
  unfold close at h
  split at h
  · next failure _ =>
    cases h
    exact ⟨failure, rfl⟩
  · cases h

/-- A turn that ends the reader with an error says where in its elements that is. -/
theorem reports_step (h : m.step fx argv = .inr (.error error)) : m.Reports argv error := by
  suffices hsuffices : ({ m with frame := { m.frame with it := m.frame.it.advance } } :
      Machine State).Reports argv error from hsuffices
  unfold step at h
  simp only at h
  split at h
  · exact reports_close (Sum.inr.inj h)
  · split at h
    · exact reports_fail h
    · unfold take at h
      simp only at h
      split at h
      · exact reports_fail h
      · split at h
        · exact reports_input h
        · exact reports_option h

/-! ## One turn -/

theorem parses_start (command : Command) (reading : Reading) {base : Nat} (outer : List Frame)
    (state : State) (hbase : base ≤ reading.active.length) :
    ({ reading, frame := .start command reading.active base, outer, state } :
      Machine State).Parses :=
  ⟨hbase, ⟨rfl, rfl, rfl, rfl, Nat.zero_le _⟩, rfl⟩

/-- What an argument says of the elements it is read from. -/
structure Spans (m : Machine State) (parsed : ParsedArg) : Prop where
  index_le : m.frame.it.index ≤ parsed.index
  lt : parsed.index < parsed.nextIndex
  next : m.frame.it.advance.index = parsed.nextIndex
  plain : m.frame.command.builder.Plain m.frame.it.advance
  args : m.frame.it.advance.args = m.frame.it.args
  within : m.frame.base + parsed.nextIndex ≤ m.reading.active.length
  at_index : u32 (m.frame.base + parsed.index) = m.frame.base + parsed.index
  at_next : u32 (m.frame.base + parsed.nextIndex) = m.frame.base + parsed.nextIndex

theorem Parses.length_args (h : m.Parses) :
    m.frame.base + m.frame.it.args.length = m.reading.active.length := by
  have hbase := h.base
  rw [h.args, List.length_drop]
  omega

theorem Parses.spans (h : m.Parses) (hsmall : m.reading.active.length + 256 ≤ 2 ^ 32)
    (hlive : m.frame.it.advance.done = false) (hcurrent : m.frame.it.advance.current = .ok parsed) :
    m.Spans parsed := by
  have hlength := h.length_args
  cases h.plain.advanced (by omega) with
  | done done =>
    rw [hlive] at done
    cases done
  | error live current =>
    rw [hcurrent] at current
    cases current
  | read live current le lt index plain args =>
    rw [hcurrent] at current
    cases current
    have hwithin : parsed.nextIndex ≤ m.frame.it.args.length := by
      rw [← index, ← args]
      exact plain.within
    exact ⟨le, lt, index, plain, args, by omega, u32_of_lt (by omega), u32_of_lt (by omega)⟩

/-- An alias that is expanded is the element the parse is at. -/
structure AtAlias (m : Machine State) (parsed : ParsedArg) (k : Nat) : Prop where
  base_le : m.frame.base ≤ k
  index : u32 (m.frame.base + parsed.index) = k
  next : u32 (m.frame.base + parsed.nextIndex) = k + 1
  lt : k < m.reading.active.length
  alias_name : ∀ e, m.reading.active[k]? = some e → m.frame.command.builder.namesAlias e = true

theorem Parses.atAlias (h : m.Parses) (hsmall : m.reading.active.length + 256 ≤ 2 ^ 32)
    (hlive : m.frame.it.advance.done = false) (hcurrent : m.frame.it.advance.current = .ok parsed)
    {field : FieldInfo} (harg : m.frame.command.builder.argOf parsed.id = .arg index field)
    (halias : (useOf field).shape = .alias) :
    m.AtAlias parsed (m.frame.base + m.frame.it.index) := by
  have hlength := h.length_args
  have hspans := h.spans hsmall hlive hcurrent
  obtain ⟨hat, hnext, hnames⟩ := h.plain.advance_alias (by omega) hlive hcurrent harg halias
  have hwithin := hspans.within
  rw [hnext] at hwithin
  refine ⟨Nat.le_add_right _ _, ?_, ?_, by omega, fun e he => ?_⟩
  · rw [hspans.at_index, hat]
  · rw [hspans.at_next, hnext, Nat.add_assoc]
  · rw [List.getD_eq_getElem?_getD, h.args, List.getElem?_drop, he, Option.getD_some] at hnames
    exact hnames

/-- The elements before an alias stay, and what it stands for follows. -/
theorem expand_active {k : Nat} (field : FieldInfo) (next : Nat)
    (hk : k ≤ m.reading.active.length) :
    (m.expand field k next).reading.active.take k = m.reading.active.take k ∧
      (m.expand field k next).reading.active.drop k =
        field.spec.forward ++ m.reading.active.drop next := by
  have hlength : (m.reading.active.take k).length = k := by
    rw [List.length_take, min_eq_left hk]
  have hactive : (m.expand field k next).reading.active = m.reading.active.take k ++
      (field.spec.forward ++ m.reading.active.drop next) := List.append_assoc _ _ _
  rw [hactive]
  exact ⟨List.take_left' hlength, List.drop_left' hlength⟩

theorem expand_origin (field : FieldInfo) (next : Nat) (hk : k ≤ m.reading.origin.length) :
    (m.expand field k next).reading.origin.take k = m.reading.origin.take k := by
  have hlength : (m.reading.origin.take k).length = k := by
    rw [List.length_take, min_eq_left hk]
  have horigin : (m.expand field k next).reading.origin = m.reading.origin.take k ++
      (field.spec.forward.map (fun _ => m.reading.origin.getD k 0) ++
        m.reading.origin.drop next) := List.append_assoc _ _ _
  rw [horigin]
  exact List.take_left' hlength

/-- A number among sorted ones stands for itself any number of times. -/
theorem pairwise_replace {before after : List Nat} {x : Nat} {xs : List Nat}
    (h : (before ++ x :: after).Pairwise (· ≤ ·)) (hxs : ∀ y ∈ xs, y = x) :
    (before ++ xs ++ after).Pairwise (· ≤ ·) := by
  rw [List.pairwise_append, List.pairwise_cons] at h
  obtain ⟨hbefore, ⟨hx, hafter⟩, hcross⟩ := h
  have hself : xs.Pairwise (· ≤ ·) :=
    List.pairwise_of_forall_mem_list fun a ha b hb => by rw [hxs a ha, hxs b hb]
  rw [List.append_assoc, List.pairwise_append, List.pairwise_append]
  refine ⟨hbefore, ⟨hself, hafter, fun a ha b hb => hxs a ha ▸ hx b hb⟩, fun a ha b hb => ?_⟩
  obtain hb | hb := List.mem_append.mp hb
  · exact hxs b hb ▸ hcross a ha x List.mem_cons_self
  · exact hcross a ha b (List.mem_cons_of_mem _ hb)

/-- An expansion keeps the elements and their origins in step. -/
theorem Sound.expand (h : m.Sound argv) (hk : k < m.reading.active.length) (field : FieldInfo) :
    (m.expand field k (k + 1)).Sound argv := by
  have hk' : k < m.reading.origin.length := h.lengths ▸ hk
  have hx : m.reading.origin.getD k 0 = m.reading.origin[k] := by
    rw [List.getD_eq_getElem?_getD, List.getElem?_eq_getElem hk', Option.getD_some]
  have horigin : m.reading.origin =
      m.reading.origin.take k ++ m.reading.origin[k] :: m.reading.origin.drop (k + 1) := by
    rw [List.cons_getElem_drop_succ, List.take_append_drop]
  have hconst : ∀ y ∈ field.spec.forward.map (fun _ => m.reading.origin.getD k 0),
      y = m.reading.origin[k] := by
    intro y hy
    obtain ⟨-, -, rfl⟩ := List.mem_map.mp hy
    exact hx
  refine ⟨?_, ?_, fun i hi => ?_⟩
  · show (m.reading.active.take k ++ field.spec.forward ++ m.reading.active.drop (k + 1)).length =
      (m.reading.origin.take k ++ field.spec.forward.map (fun _ => m.reading.origin.getD k 0) ++
        m.reading.origin.drop (k + 1)).length
    simp only [List.length_append, List.length_take, List.length_drop, List.length_map, h.lengths]
  · exact pairwise_replace (horigin ▸ h.sorted) hconst
  · obtain hi | hi := List.mem_append.mp hi
    · obtain hi | hi := List.mem_append.mp hi
      · exact h.below i ((List.take_sublist _ _).subset hi)
      · rw [hconst i hi]
        exact h.below _ (List.getElem_mem _)
    · exact h.below i ((List.drop_sublist _ _).subset hi)

/-- How many of the elements ahead name an alias of the command. -/
def pending (m : Machine State) : Nat :=
  (m.reading.active.drop m.frame.base).countP m.frame.command.builder.namesAlias

/-- What a turn keeps: the elements before the base it leaves, and their origins. -/
structure Keeps (m m' : Machine State) : Prop where
  active : m'.reading.active.take m'.frame.base = m.reading.active.take m'.frame.base
  origin : m'.reading.origin.take m'.frame.base = m.reading.origin.take m'.frame.base

/-- What a turn leaves less of: commands below, aliases ahead, or elements ahead. -/
inductive Less (m m' : Machine State) : Prop
  | command (lt : sizeOf m'.frame.command < sizeOf m.frame.command)
      (outer : m'.outer.length = m.outer.length + 1) (none : m.expanding = none)
  | aliases (command : m'.frame.command = m.frame.command) (outer : m'.outer = m.outer)
      (lt : m'.pending < m.pending)
  | elements (command : m'.frame.command = m.frame.command) (outer : m'.outer = m.outer)
      (pending : m'.pending = m.pending) (none : m.expanding = none)
      (lt : m'.frame.it.args.length - m'.frame.it.index <
        m.frame.it.args.length - m.frame.it.index)

/-- The aliases ahead of an alias, which stands for none. -/
theorem pending_expand (hat : m.AtAlias parsed k) {field : FieldInfo}
    (hapart : ∀ token ∈ field.spec.forward, m.frame.command.builder.namesAlias token = false) :
    (m.expand field k (k + 1)).pending < m.pending := by
  have hlt := hat.lt
  have hactive : m.reading.active.drop k =
      m.reading.active[k] :: m.reading.active.drop (k + 1) := (List.cons_getElem_drop_succ).symm
  have hnames := hat.alias_name _ (List.getElem?_eq_getElem hlt)
  have htokens : field.spec.forward.countP m.frame.command.builder.namesAlias = 0 :=
    List.countP_eq_zero.mpr fun token htoken => by
      rw [hapart token htoken]
      exact Bool.false_ne_true
  have hsuffix : (m.reading.active.drop k).Sublist (m.reading.active.drop m.frame.base) := by
    have hdrop : m.reading.active.drop k =
        (m.reading.active.drop m.frame.base).drop (k - m.frame.base) := by
      rw [List.drop_drop, Nat.add_sub_cancel' hat.base_le]
    rw [hdrop]
    exact List.drop_sublist _ _
  have hle := hsuffix.countP_le (p := m.frame.command.builder.namesAlias)
  rw [hactive, List.countP_cons_of_pos hnames] at hle
  have hafter : (m.expand field k (k + 1)).pending =
      (m.reading.active.drop (k + 1)).countP m.frame.command.builder.namesAlias := by
    show ((m.expand field k (k + 1)).reading.active.drop k).countP _ = _
    rw [(expand_active field (k + 1) hat.lt.le).2, List.countP_append]
    show field.spec.forward.countP m.frame.command.builder.namesAlias + _ = _
    rw [htokens, Nat.zero_add]
    rfl
  have hpending : m.pending =
      (m.reading.active.drop m.frame.base).countP m.frame.command.builder.namesAlias := rfl
  omega

/-- A turn whose state meets what it needs. -/
theorem Turn.spec (argv : List Bytes) (h : Turn fx m m' parsed) (hmeets : m.Meets)
    (hparses : m.Parses) (hlive : m.frame.it.advance.done = false)
    (hcurrent : m.frame.it.advance.current = .ok parsed) :
    m'.Parses ∧ (m.Sound argv → m'.Sound argv) ∧ (m.Sound argv → Keeps m m') ∧ Less m m' := by
  have hspans := hparses.spans hmeets.small hlive hcurrent
  cases h with
  | stored cursor state same none =>
    subst same
    refine ⟨⟨hparses.base, hspans.plain, hspans.args.trans hparses.args⟩,
      fun h => ⟨h.lengths, h.sorted, h.below⟩, fun _ => ⟨rfl, rfl⟩, .elements rfl rfl rfl none ?_⟩
    have hwithin : m.frame.it.advance.index ≤ m.frame.it.advance.args.length :=
      hspans.plain.within
    have hle := hspans.index_le
    have hlt := hspans.lt
    rw [hspans.next, hspans.args] at hwithin
    show m.frame.it.advance.args.length - m.frame.it.advance.index < _
    rw [hspans.next, hspans.args]
    omega
  | @expanded index field arg shape expanding same =>
    have hat := hparses.atAlias hmeets.small hlive hcurrent arg shape
    have hapart := hmeets.apart field (Option.mem_def.mpr expanding)
    rw [hat.index, hat.next] at same
    generalize m.frame.base + m.frame.it.index = k at hat same
    subst same
    have hk := hat.lt.le
    obtain ⟨htake, hdrop⟩ := @expand_active State m k field (k + 1) hk
    refine ⟨?_, fun h => ?_, fun h => ⟨htake, expand_origin field _ (h.lengths ▸ hk)⟩,
      .aliases rfl rfl (pending_expand hat hapart)⟩
    · have hlength := congrArg List.length htake
      rw [List.length_take, List.length_take, min_eq_left hk] at hlength
      have hbase : k ≤ (m.expand field k (k + 1)).reading.active.length := by omega
      exact ⟨hbase, ⟨rfl, rfl, rfl, rfl, Nat.zero_le _⟩, rfl⟩
    · exact ⟨(h.expand hat.lt field).lengths, (h.expand hat.lt field).sorted,
        (h.expand hat.lt field).below⟩
  | @entered sub word subcommands index state some mem none same =>
    subst same
    refine ⟨?_, fun h => ⟨h.lengths, h.sorted, h.below⟩, fun _ => ⟨rfl, rfl⟩,
      .command (Command.sizeOf_subcommand some mem) rfl none⟩
    rw [hspans.at_next]
    exact parses_start sub { m.reading with subcommandWords := _ } _ state hspans.within

/-! ## A whole run -/

/-- Turns that each meet what they need, with how many of them expand an alias. -/
inductive Steps (fx : Effects State) (argv : List Bytes) :
    Machine State → Nat → Machine State → Prop
  | refl (m : Machine State) : Steps fx argv m 0 m
  | turn {m m' m'' : Machine State} {n : Nat} (run : Steps fx argv m n m') (meets : m'.Meets)
      (step : m'.step fx argv = .inl m'') :
      Steps fx argv m (if m'.expanding.isSome then n + 1 else n) m''

theorem parses_of_start (command : Command) (state : State) :
    (start fx argv command state).Parses :=
  parses_start command _ [] _ (Nat.zero_le _)

theorem sound_of_start (command : Command) (state : State) :
    (start fx argv command state).Sound argv :=
  ⟨List.length_range.symm, List.pairwise_le_range, fun _ h => List.mem_range.mp h⟩

theorem Steps.parses (h : Steps fx argv m n m') (hparses : m.Parses) : m'.Parses := by
  induction h with
  | refl => exact hparses
  | turn run meets step ih =>
    obtain ⟨parsed, hlive, hcurrent, hturn⟩ := turn_of_step step
    exact (hturn.spec argv meets ih hlive hcurrent).1

theorem Steps.sound (h : Steps fx argv m n m') (hparses : m.Parses) (hsound : m.Sound argv) :
    m'.Sound argv := by
  induction h with
  | refl => exact hsound
  | turn run meets step ih =>
    obtain ⟨parsed, hlive, hcurrent, hturn⟩ := turn_of_step step
    exact (hturn.spec argv meets (run.parses hparses) hlive hcurrent).2.1 ih

/-- A command expands no more aliases than it is given. -/
theorem Steps.expansions (h : Steps fx argv m n m') (hparses : m.Parses) :
    m.outer.length ≤ m'.outer.length ∧
      (m'.outer.length = m.outer.length → n + m'.pending ≤ m.pending) := by
  induction h with
  | refl => exact ⟨le_rfl, fun _ => (Nat.zero_add _).le⟩
  | turn run meets step ih =>
    obtain ⟨parsed, hlive, hcurrent, hturn⟩ := turn_of_step step
    cases (hturn.spec argv meets (run.parses hparses) hlive hcurrent).2.2.2 with
    | command lt outer none =>
      exact ⟨by omega, fun heq => by omega⟩
    | aliases command outer lt =>
      rw [outer]
      refine ⟨ih.1, fun heq => ?_⟩
      have hle := ih.2 heq
      split <;> omega
    | elements command outer pending none lt =>
      rw [outer, none, pending]
      exact ih

/-- Turns leave less only so often. -/
theorem wellFounded_less : WellFounded fun m' m : Machine State => Less m m' := by
  have hlex : WellFounded (Prod.Lex (· < ·) (Prod.Lex (· < ·) (· < ·)) :
      Nat × Nat × Nat → Nat × Nat × Nat → Prop) :=
    wellFounded_lt.prod_lex (wellFounded_lt.prod_lex wellFounded_lt)
  refine Subrelation.wf (fun {m' m} h => ?_) (InvImage.wf (fun m : Machine State =>
    (sizeOf m.frame.command, m.pending, m.frame.it.args.length - m.frame.it.index)) hlex)
  cases h with
  | command lt => exact .left _ _ lt
  | aliases command outer lt =>
    rw [InvImage, command]
    exact .right _ (.left _ _ lt)
  | elements command outer pending none lt =>
    rw [InvImage, command, pending]
    exact .right _ (.right _ lt)

/-- A run does not go on for ever while its turns meet what they need. -/
theorem exists_not_meets {run : Nat → Machine State} (hparses : (run 0).Parses)
    (hstep : ∀ n, (run n).step fx argv = .inl (run (n + 1))) : ∃ n, ¬ (run n).Meets := by
  by_contra hall
  have hmeets : ∀ n, (run n).Meets := fun n => by_contra fun h => hall ⟨n, h⟩
  have hparses : ∀ n, (run n).Parses := by
    intro n
    induction n with
    | zero => exact hparses
    | succ n ih =>
      obtain ⟨parsed, hlive, hcurrent, hturn⟩ := turn_of_step (hstep n)
      exact (hturn.spec argv (hmeets n) ih hlive hcurrent).1
  refine (wellFounded_iff_isEmpty_descending_chain.mp wellFounded_less).false ⟨run, fun n => ?_⟩
  obtain ⟨parsed, hlive, hcurrent, hturn⟩ := turn_of_step (hstep n)
  exact (hturn.spec argv (hmeets n) (hparses n) hlive hcurrent).2.2.2

/-- What holds of a reader in every state a run comes to, and of what its turn there does. -/
structure Holds (fx : Effects State) (argv : List Bytes) (m : Machine State) : Prop where
  sound : m.Sound argv
  span : ∀ error, m.step fx argv = .inr (.error error) →
    error.first ≤ error.past ∧ error.past ≤ argv.length
  keeps : m.Meets → ∀ m', m.step fx argv = .inl m' → Keeps m m'
  once : ∀ n m', Steps fx argv m n m' → m'.outer.length = m.outer.length → n ≤ m.pending

end Machine

/-- While what aliases stand for names no alias, a reader holds what it says of its elements
in every state, expands no more aliases than a command is given, and comes to an end. -/
theorem argvReader_spec (fx : Effects State) (command : Command) (argv : List Bytes) (state : State) :
    (∀ n m, Machine.Steps fx argv (.start fx argv command state) n m → m.Holds fx argv) ∧
    ∀ run : Nat → Machine State, run 0 = .start fx argv command state →
      (∀ n, (run n).step fx argv = .inl (run (n + 1))) → ∃ n, ¬ (run n).Meets := by
  refine ⟨fun n m hsteps => ?_, fun run hstart hstep => ?_⟩
  · have hparses := hsteps.parses (Machine.parses_of_start command state)
    have hsound := hsteps.sound (Machine.parses_of_start command state)
      (Machine.sound_of_start command state)
    refine ⟨hsound, fun error herror => ?_, fun hmeets m' hstep => ?_, fun k m' hrun houter => ?_⟩
    · obtain ⟨failure, rfl⟩ := Machine.reports_step herror
      exact errorFrom_span hsound.lengths hsound.below failure
    · obtain ⟨parsed, hlive, hcurrent, hturn⟩ := Machine.turn_of_step hstep
      exact (hturn.spec argv hmeets hparses hlive hcurrent).2.2.1 hsound
    · have := (hrun.expansions hparses).2 houter
      omega
  · refine Machine.exists_not_meets ?_ hstep
    rw [hstart]
    exact Machine.parses_of_start command state

end

/-- An alias `/x` that stands for `-x`. -/
def loopFields : List Field :=
  [.arg { declaredName := ascii "x", spec := { names := [ascii "/x"], forward := [ascii "-x"] } }]

/-- The declaration of an alias `/x` for `-x` is accepted, and a reader of `-x` goes on for
ever. -/
theorem loopFields_endless : checkDeclaration loopFields = .ok () ∧
    ∀ fx : Effects Unit, ∃ run : Nat → Machine Unit,
      run 0 = .start fx [ascii "-x"] (Command.make loopFields) () ∧
      ∀ n, (run n).step fx [ascii "-x"] = .inl (run (n + 1)) := by
  refine ⟨by decide, fun fx => ⟨fun _ => .start fx [ascii "-x"] (Command.make loopFields) (), rfl,
    fun _ => ?_⟩⟩
  have hlive : ((Command.make loopFields).parse [ascii "-x"] 0).advance.done = false := rfl
  have hcurrent : ((Command.make loopFields).parse [ascii "-x"] 0).advance.current =
      .ok { id := 3, index := 0, nextIndex := 1, spelling := ascii "-x" } := rfl
  unfold Machine.step
  simp only [Machine.start, Frame.start, hlive, hcurrent]
  rfl

/-- An alias `-q` that stands for the flag `--quiet`. -/
def quietFields : List Field :=
  [.arg { declaredName := ascii "q", spec := { forward := [ascii "--quiet"] } },
    .arg { declaredName := ascii "quiet", value := .boolean }]

/-- Effects that keep nothing. -/
def noEffects : Effects Unit where
  enter _ _ := ()
  store _ _ _ _ _ _ _ := .ok ()
  storeInput _ _ _ _ := .ok ()
  subcommand _ _ _ _ _ := .ok ()
  check _ _ _ _ _ _ := none
  closest _ _ _ := []

/-- A reader of `-q` expands it and holds what it says; one of an alias `/x` for `-x` does
not meet what it needs. -/
theorem argvReader_spec_quiet :
    (∃ m : Machine Unit, m.reading.active = [ascii "--quiet"] ∧
      Machine.Steps noEffects [ascii "-q"]
        (.start noEffects [ascii "-q"] (Command.make quietFields) ()) 1 m ∧
      m.Holds noEffects [ascii "-q"]) ∧
    ¬ (Machine.start noEffects [ascii "-x"] (Command.make loopFields) ()).Meets := by
  refine ⟨?_, ?_⟩
  · have hexpanding : (Machine.start noEffects [ascii "-q"] (Command.make quietFields) ()).expanding
        = some { declaredName := ascii "q", spec := { forward := [ascii "--quiet"] } } := rfl
    have hmeets : (Machine.start noEffects [ascii "-q"] (Command.make quietFields) ()).Meets := by
      refine ⟨by decide, fun field hfield token htoken => ?_⟩
      obtain rfl := Option.some.inj (hexpanding.symm.trans hfield)
      obtain rfl := List.mem_singleton.mp htoken
      rfl
    have hsteps := Machine.Steps.turn (.refl _) hmeets
      (show Machine.step noEffects [ascii "-q"] _ = .inl _ from rfl)
    exact ⟨_, rfl, hsteps, (argvReader_spec noEffects (Command.make quietFields) [ascii "-q"] ()).1
      _ _ hsteps⟩
  · obtain ⟨n, hn⟩ := (argvReader_spec noEffects (Command.make loopFields) [ascii "-x"] ()).2
      (fun _ => .start noEffects [ascii "-x"] (Command.make loopFields) ()) rfl fun _ => rfl
    exact hn

end Kotatsu.Cli
