import Kotatsu.Sys.Cmd.Join

/-!
# Command lines of batch files

Quotes are doubled in an argument for a batch file, so that a count of them tells what
stands outside quotes, whatever the argument is. The same text is read back by the C
runtime's rules, each `%` as it is spelled for cmd.
-/

namespace Kotatsu.Sys

open Kotatsu.Core Cmd

namespace Batch

/-- `append_batch_char`: what it appends. -/
def batchChar (c : UInt8) : Bytes :=
  if c = percentByte then ascii "%%cd:~," ++ [c] else [c]

/-- The ASCII characters that need no quotes. -/
def asciiPlain (c : UInt8) : Bool :=
  (48 ≤ c.toNat && c.toNat ≤ 57) || (65 ≤ c.toNat && c.toNat ≤ 90) ||
    (97 ≤ c.toNat && c.toNat ≤ 122) || c ∈ ascii "#$*+-./:?@\\_"

/-- The first loop of `append_batch_argument`. -/
def scanQuote (quote : Bool) : Bytes → Bool
  | [] => quote
  | c :: rest =>
    let control := c == 0xC2 && rest.head?.any fun next => decide (next.toNat < 0xA0)
    scanQuote (quote || (decide (c.toNat < 0x80) && !asciiPlain c) || control) rest

/-- `quote`. -/
def needsQuote (argument : Bytes) : Bool :=
  scanQuote (argument.isEmpty || argument.getLast? == some backslashByte) argument

/-- The second loop of `append_batch_argument` and what follows it, with the backslashes
it has just written. -/
def batchText (quote : Bool) (backslashes : Nat) : Bytes → Bytes
  | [] => if quote then List.replicate backslashes backslashByte ++ [quoteByte] else []
  | c :: rest =>
    if c = backslashByte then batchChar c ++ batchText quote (backslashes + 1) rest
    else
      (if c = quoteByte then List.replicate backslashes backslashByte ++ [quoteByte] else []) ++
        batchChar c ++ batchText quote 0 rest

/-- `append_batch_argument`: what it appends. -/
def batchArgument (argument : Bytes) : Bytes :=
  let quote := needsQuote argument
  (if quote then [quoteByte] else []) ++ batchText quote 0 argument

/-- The loop of `batch_command_line` over the arguments; none is `invalid_argument`. -/
def appendArguments (out : Bytes) : List Bytes → Option Bytes
  | [] => some out
  | argument :: arguments =>
    if argument.any (· ∈ [returnByte, newlineByte]) then none
    else appendArguments (out ++ [blankByte] ++ batchArgument argument) arguments

/-- The line up to the outer quote. -/
def opening : Bytes := ascii "cmd.exe /e:ON /v:OFF /d /c \""

/-- `batch_command_line`. -/
def batchCommandLine (script : Bytes) (arguments : List Bytes) : Option Bytes :=
  (appendArguments (opening ++ [quoteByte] ++ script.flatMap batchChar ++ [quoteByte])
    arguments).map (· ++ [quoteByte])

/-- What stands in the outer quotes. -/
def inner (script : Bytes) (arguments : List Bytes) : Bytes :=
  quoteByte :: script.flatMap batchChar ++ quoteByte ::
    arguments.flatMap fun argument => blankByte :: batchArgument argument

/-! ## Counting quotes -/

/-- Whether the text behind this one is in quotes, counting quotes. -/
def quotesAfter (inQuotes : Bool) : Bytes → Bool
  | [] => inQuotes
  | c :: rest => quotesAfter (if c = quoteByte then !inQuotes else inQuotes) rest

/-- The characters that stand outside quotes, counting quotes. -/
def outside (inQuotes : Bool) : Bytes → Bytes
  | [] => []
  | c :: rest =>
    if c = quoteByte then outside (!inQuotes) rest
    else if inQuotes then outside inQuotes rest
    else c :: outside inQuotes rest

variable {inQuotes : Bool} {text rest argument script : Bytes} {arguments : List Bytes}

theorem quotesAfter_append (inQuotes : Bool) (text rest : Bytes) :
    quotesAfter inQuotes (text ++ rest) = quotesAfter (quotesAfter inQuotes text) rest := by
  induction text generalizing inQuotes with
  | nil => rfl
  | cons c text ih => exact ih _

theorem outside_append (inQuotes : Bool) (text rest : Bytes) :
    outside inQuotes (text ++ rest) =
      outside inQuotes text ++ outside (quotesAfter inQuotes text) rest := by
  induction text generalizing inQuotes with
  | nil => rfl
  | cons c text ih =>
    rw [List.cons_append, outside, outside, quotesAfter]
    split
    · exact ih _
    · split
      · exact ih _
      · rw [ih, List.cons_append]

/-- Text without quotes opens and closes none. -/
theorem quotesAfter_of_notMem (h : quoteByte ∉ text) : quotesAfter inQuotes text = inQuotes := by
  induction text with
  | nil => rfl
  | cons c text ih =>
    rw [List.mem_cons, not_or] at h
    rw [quotesAfter, if_neg (Ne.symm h.1), ih h.2]

theorem outside_of_notMem (h : quoteByte ∉ text) :
    outside inQuotes text = if inQuotes then [] else text := by
  induction text with
  | nil => exact (ite_self _).symm
  | cons c text ih =>
    rw [List.mem_cons, not_or] at h
    rw [outside, if_neg (Ne.symm h.1), ih h.2]
    cases inQuotes <;> rfl

theorem notMem_batchChar {c : UInt8} (hc : c ≠ quoteByte) : quoteByte ∉ batchChar c := by
  unfold batchChar
  split
  · next h =>
    rw [h]
    decide
  · exact fun h => hc (List.mem_singleton.mp h).symm

theorem notMem_flatMap (h : quoteByte ∉ text) : quoteByte ∉ text.flatMap batchChar := by
  rw [List.mem_flatMap]
  rintro ⟨c, hc, hquote⟩
  exact notMem_batchChar (fun heq => h (heq ▸ hc)) hquote

theorem notMem_replicate (k : Nat) : quoteByte ∉ List.replicate k backslashByte :=
  fun h => absurd (List.eq_of_mem_replicate h) (by decide)

/-- In quotes, the rest of an argument stands in them, and closes them. -/
theorem batchText_quotes (argument : Bytes) (k : Nat) :
    quotesAfter true (batchText true k argument) = false ∧
      outside true (batchText true k argument) = [] := by
  induction argument generalizing k with
  | nil =>
    rw [batchText, if_pos rfl, quotesAfter_append, outside_append,
      quotesAfter_of_notMem (notMem_replicate k), outside_of_notMem (notMem_replicate k)]
    exact ⟨rfl, rfl⟩
  | cons c argument ih =>
    by_cases hquote : c = quoteByte
    · -- the two quotes leave the count as it was
      have hpair : batchText true k (c :: argument) =
          List.replicate k backslashByte ++
            ([quoteByte, quoteByte] ++ batchText true 0 argument) := by
        rw [hquote, batchText, if_neg (by decide), if_pos rfl, List.append_assoc,
          List.append_assoc]
        rfl
      rw [hpair, quotesAfter_append, outside_append, quotesAfter_of_notMem (notMem_replicate k),
        outside_of_notMem (notMem_replicate k), quotesAfter_append, outside_append]
      exact ih 0
    · have hchar : ∃ k', batchText true k (c :: argument) =
          batchChar c ++ batchText true k' argument := by
        rw [batchText]
        split
        · exact ⟨k + 1, rfl⟩
        · exact ⟨0, by rw [List.nil_append]⟩
      obtain ⟨k', hchar⟩ := hchar
      rw [hchar, quotesAfter_append, outside_append,
        quotesAfter_of_notMem (notMem_batchChar hquote),
        outside_of_notMem (notMem_batchChar hquote)]
      exact ih k'

/-! ## What is written in quotes -/

/-- Text outside quotes is plain or past ASCII. -/
theorem plain_of_scanQuote {quote : Bool} (h : scanQuote quote text = false) :
    quote = false ∧ ∀ c ∈ text, asciiPlain c = true ∨ 0x80 ≤ c.toNat := by
  induction text generalizing quote with
  | nil => exact ⟨h, nofun⟩
  | cons c text ih =>
    rw [scanQuote] at h
    obtain ⟨hnone, hrest⟩ := ih h
    rw [Bool.or_eq_false_iff, Bool.or_eq_false_iff] at hnone
    obtain ⟨⟨hquote, hplain⟩, -⟩ := hnone
    refine ⟨hquote, List.forall_mem_cons.mpr ⟨?_, hrest⟩⟩
    rw [Bool.and_eq_false_iff, decide_eq_false_iff_not, Bool.not_eq_false'] at hplain
    exact hplain.symm.imp_right Nat.le_of_not_lt

theorem plain_ne {c d : UInt8} (hc : asciiPlain c = true ∨ 0x80 ≤ c.toNat)
    (hd : (asciiPlain d || decide (0x80 ≤ d.toNat)) = false) : c ≠ d := by
  rintro rfl
  rw [Bool.or_eq_false_iff, decide_eq_false_iff_not] at hd
  obtain hc | hc := hc
  · rw [hd.1] at hc
    exact Bool.false_ne_true hc
  · exact hd.2 hc

/-- Plain text is written as it is. -/
theorem batchText_plain (h : ∀ c ∈ text, asciiPlain c = true ∨ 0x80 ≤ c.toNat) (k : Nat) :
    batchText false k text = text := by
  induction text generalizing k with
  | nil => rfl
  | cons c text ih =>
    obtain ⟨hc, hrest⟩ := List.forall_mem_cons.mp h
    have hchar : batchChar c = [c] := if_neg (plain_ne hc (by decide))
    have hquote : c ≠ quoteByte := plain_ne hc (by decide)
    rw [batchText, hchar, if_neg hquote, ih hrest, ih hrest, List.nil_append,
      List.singleton_append, ite_self]

theorem batchArgument_plain (h : needsQuote argument = false) :
    batchArgument argument = argument ∧ argument ≠ [] ∧
      ∀ c ∈ argument, asciiPlain c = true ∨ 0x80 ≤ c.toNat := by
  obtain ⟨hstart, hplain⟩ := plain_of_scanQuote h
  refine ⟨?_, ?_, hplain⟩
  · rw [batchArgument, h, if_neg Bool.false_ne_true, List.nil_append, batchText_plain hplain]
  · rintro rfl
    exact Bool.false_ne_true hstart.symm

theorem batchArgument_quoted (h : needsQuote argument = true) :
    batchArgument argument = quoteByte :: batchText true 0 argument := by
  rw [batchArgument, h, if_pos rfl, List.singleton_append]

/-- An argument leaves no quote open, and what stands outside them is plain. -/
theorem batchArgument_quotes (argument : Bytes) :
    quotesAfter false (batchArgument argument) = false ∧
      ∀ c ∈ outside false (batchArgument argument),
        asciiPlain c = true ∨ 0x80 ≤ c.toNat := by
  cases h : needsQuote argument with
  | false =>
    obtain ⟨htext, -, hplain⟩ := batchArgument_plain h
    have hquote : quoteByte ∉ argument := fun hmem => plain_ne (hplain _ hmem) (by decide) rfl
    rw [htext, quotesAfter_of_notMem hquote, outside_of_notMem hquote]
    exact ⟨rfl, hplain⟩
  | true =>
    obtain ⟨hafter, houtside⟩ := batchText_quotes argument 0
    rw [batchArgument_quoted h, quotesAfter, if_pos rfl, outside, if_pos rfl]
    rw [Bool.not_false, hafter, houtside]
    exact ⟨rfl, nofun⟩

theorem quotesAfter_inner (hscript : quoteByte ∉ script) (arguments : List Bytes) :
    quotesAfter false (inner script arguments) = false := by
  have harguments : quotesAfter false (arguments.flatMap fun argument =>
      blankByte :: batchArgument argument) = false := by
    induction arguments with
    | nil => rfl
    | cons argument arguments ih =>
      rw [List.flatMap_cons, quotesAfter_append]
      have hargument : quotesAfter false (blankByte :: batchArgument argument) = false :=
        (batchArgument_quotes argument).1
      rw [hargument, ih]
  rw [inner, List.cons_append, quotesAfter, if_pos rfl, quotesAfter_append,
    quotesAfter_of_notMem (notMem_flatMap hscript), quotesAfter, if_pos rfl]
  exact harguments

/-! ## Reading the line back -/

/-- Text without quotes and backslashes is kept in quotes. -/
theorem unquoteWindows_text {program : Bool} (htext : quoteByte ∉ text)
    (hback : program = true ∨ backslashByte ∉ text) (unquoted rest : Bytes) :
    unquoteWindows .windows program true unquoted (text ++ rest) =
      unquoteWindows .windows program true (unquoted ++ text) rest := by
  induction text generalizing unquoted with
  | nil => rw [List.nil_append, List.append_nil]
  | cons c text ih =>
    rw [List.mem_cons, not_or] at htext
    have hslash : program = true ∨ c ≠ backslashByte ∧ backslashByte ∉ text :=
      hback.imp_right fun h => by
        rw [List.mem_cons, not_or] at h
        exact ⟨Ne.symm h.1, h.2⟩
    rw [List.cons_append, unquoteWindows_keep _ _ (.inl rfl) (hslash.imp_right And.left)
      (Ne.symm htext.1), ih htext.2 (hslash.imp_right And.right), List.append_assoc,
      List.singleton_append]

/-- Two quotes in quotes are one. -/
theorem unquoteWindows_doubled (unquoted rest : Bytes) :
    unquoteWindows .windows false true unquoted (quoteByte :: quoteByte :: rest) =
      unquoteWindows .windows false true (unquoted ++ [quoteByte]) rest := by
  rw [unquoteWindows, if_neg (fun h => Bool.false_ne_true h.1.symm),
    if_neg (fun h => absurd h.1 (by decide)), if_neg (fun h => h rfl),
    if_pos ⟨rfl, rfl, rfl⟩, List.tail_cons]

/-- The rest of an argument in quotes is read back, with the backslashes before it. -/
theorem batchText_read (argument unquoted : Bytes) (k : Nat) {tail : Bytes}
    (htail : tail.head? ≠ some quoteByte) :
    unquoteWindows .windows false true unquoted
        (List.replicate k backslashByte ++ (batchText true k argument ++ tail)) =
      unquoteWindows .windows false false
        (unquoted ++ List.replicate k backslashByte ++ argument.flatMap batchChar) tail := by
  induction argument generalizing unquoted k with
  | nil =>
    have hclose : List.replicate k backslashByte ++ (batchText true k [] ++ tail) =
        List.replicate (k * 2) backslashByte ++ quoteByte :: tail := by
      rw [batchText, if_pos rfl, Nat.mul_two, List.replicate_add, List.append_assoc,
        List.append_assoc, List.singleton_append]
    rw [hclose, unquoteWindows_even, unquoteWindows_close _ _ htail, List.flatMap_nil,
      List.append_nil]
  | cons c argument ih =>
    rw [List.flatMap_cons]
    by_cases hslash : c = backslashByte
    · have hchar : batchChar c = [backslashByte] := by
        rw [hslash]
        rfl
      have hmore : List.replicate k backslashByte ++
          (batchText true k (c :: argument) ++ tail) =
          List.replicate (k + 1) backslashByte ++ (batchText true (k + 1) argument ++ tail) := by
        rw [batchText, if_pos hslash, hchar, List.replicate_succ', List.append_assoc,
          List.append_assoc]
      rw [hmore, ih, hchar, List.replicate_succ', ← List.append_assoc unquoted,
        List.append_assoc _ [backslashByte]]
    · by_cases hquote : c = quoteByte
      · have hchar : batchChar c = [quoteByte] := by
          rw [hquote]
          rfl
        have hpair : List.replicate k backslashByte ++
            (batchText true k (c :: argument) ++ tail) =
            List.replicate (k * 2) backslashByte ++
              quoteByte :: quoteByte :: (batchText true 0 argument ++ tail) := by
          rw [batchText, if_neg hslash, if_pos hquote, hchar, Nat.mul_two, List.replicate_add]
          simp only [List.append_assoc, List.cons_append, List.nil_append]
        have hread := ih (unquoted ++ List.replicate k backslashByte ++ [quoteByte]) 0
        rw [List.replicate_zero, List.nil_append, List.append_nil] at hread
        rw [hpair, unquoteWindows_even, unquoteWindows_doubled, hread, hchar,
          List.append_assoc _ [quoteByte]]
      · have hplain : backslashByte ∉ batchChar c ∧ (batchChar c).head? ≠ some backslashByte ∧
            (batchChar c).head? ≠ some quoteByte ∧ batchChar c ≠ [] := by
          unfold batchChar
          split
          · next h =>
            rw [h]
            decide
          · refine ⟨fun h => hslash (List.mem_singleton.mp h).symm, ?_, ?_, List.cons_ne_nil _ _⟩
            · rwa [List.head?_cons, ne_eq, Option.some.injEq]
            · rwa [List.head?_cons, ne_eq, Option.some.injEq]
        obtain ⟨hmem, hback, hfirst, hne⟩ := hplain
        have htext : List.replicate k backslashByte ++
            (batchText true k (c :: argument) ++ tail) =
            List.replicate k backslashByte ++
              (batchChar c ++ (batchText true 0 argument ++ tail)) := by
          rw [batchText, if_neg hslash, if_neg hquote, List.nil_append, List.append_assoc]
        have hread := ih (unquoted ++ List.replicate k backslashByte ++ batchChar c) 0
        rw [List.replicate_zero, List.nil_append, List.append_nil] at hread
        rw [htext, unquoteWindows_literal _ _ _ (by rwa [List.head?_append_of_ne_nil _ hne])
          (by rwa [List.head?_append_of_ne_nil _ hne]),
          unquoteWindows_text (notMem_batchChar hquote) (.inr hmem), hread, List.append_assoc]

theorem flatMap_batchChar (h : percentByte ∉ text) : text.flatMap batchChar = text := by
  induction text with
  | nil => rfl
  | cons c text ih =>
    rw [List.mem_cons, not_or] at h
    have hchar : batchChar c = [c] := if_neg (Ne.symm h.1)
    rw [List.flatMap_cons, hchar, ih h.2, List.singleton_append]

/-- An argument is read back with each `%` as it is spelled. -/
theorem batchArgument_read (argument : Bytes) {tail : Bytes}
    (htail : tail.head?.all (· = blankByte) = true) :
    unquote .windows false [] (batchArgument argument ++ tail) =
      (argument.flatMap batchChar, tail) := by
  have hhead : ∀ c, c ≠ blankByte → tail.head? ≠ some c := by
    intro c hc h
    rw [h, Option.all_some, decide_eq_true_eq] at htail
    exact hc htail
  have hstop (unquoted : Bytes) :
      unquoteWindows .windows false false unquoted tail = (unquoted, tail) :=
    unquote_stop .windows false (separates_of_blank htail)
  change unquoteWindows .windows false false [] _ = _
  cases h : needsQuote argument with
  | false =>
    obtain ⟨htext, -, hplain⟩ := batchArgument_plain h
    have hpercent : percentByte ∉ argument := fun hmem => plain_ne (hplain _ hmem) (by decide) rfl
    have hchars : ∀ c ∈ argument, Reading.windows.separates c = false ∧ c ≠ quoteByte := by
      intro c hc
      have hblank : c ≠ blankByte := plain_ne (hplain c hc) (by decide)
      have htab : c ≠ tabByte := plain_ne (hplain c hc) (by decide)
      refine ⟨?_, plain_ne (hplain c hc) (by decide)⟩
      rw [Reading.separates, beq_false_of_ne hblank, beq_false_of_ne htab, Bool.or_self]
    have hread := windowsPlain_read argument [] 0 hchars (hhead _ (by decide))
      (hhead _ (by decide))
    rw [List.replicate_zero, List.nil_append, List.append_nil, List.nil_append] at hread
    rw [htext, hread, hstop, flatMap_batchChar hpercent]
  | true =>
    have hread := batchText_read argument [] 0 (hhead _ (by decide))
    rw [List.replicate_zero, List.nil_append, List.append_nil, List.nil_append] at hread
    rw [batchArgument_quoted h, List.cons_append, unquoteWindows_open, hread, hstop]

theorem batchArgument_ne_nil (argument : Bytes) : batchArgument argument ≠ [] := by
  cases h : needsQuote argument with
  | false =>
    obtain ⟨htext, hne, -⟩ := batchArgument_plain h
    rwa [htext]
  | true =>
    rw [batchArgument_quoted h]
    exact List.cons_ne_nil _ _

/-- What stands in the outer quotes is read back, each `%` as it is spelled. -/
theorem split_inner (hscript : quoteByte ∉ script) (arguments : List Bytes) :
    split (inner script arguments) .windows =
      script.flatMap batchChar :: arguments.map (·.flatMap batchChar) := by
  have hline : inner script arguments = (quoteByte :: script.flatMap batchChar ++ [quoteByte]) ++
      arguments.flatMap fun argument => blankByte :: batchArgument argument := by
    rw [inner, List.append_assoc, List.singleton_append]
  have hne : quoteByte :: script.flatMap batchChar ++ [quoteByte] ≠ [] := List.cons_ne_nil _ _
  rw [hline]
  refine split_of_program hne
    (fun argument {_} => batchArgument_read argument) batchArgument_ne_nil arguments
    fun tail htail => ?_
  have hhead : tail.head? ≠ some quoteByte := by
    intro h
    rw [h] at htail
    exact absurd htail (by decide)
  have hstop (unquoted : Bytes) :
      unquoteWindows .windows true false unquoted tail = (unquoted, tail) :=
    unquote_stop .windows true (separates_of_blank htail)
  change unquoteWindows .windows true false [] _ = _
  have htext : quoteByte :: script.flatMap batchChar ++ [quoteByte] ++ tail =
      quoteByte :: (script.flatMap batchChar ++ quoteByte :: tail) := by
    rw [List.append_assoc, List.singleton_append, List.cons_append]
  rw [htext, unquoteWindows_open, unquoteWindows_text (notMem_flatMap hscript) (.inl rfl),
    unquoteWindows_close _ _ hhead, List.nil_append, hstop]

/-! ## The whole line -/

/-- A line is refused for an argument with a carriage return or a newline, and no other. -/
theorem appendArguments_eq (out : Bytes) (arguments : List Bytes) :
    appendArguments out arguments =
      if ∀ argument ∈ arguments, returnByte ∉ argument ∧ newlineByte ∉ argument then
        some (out ++ arguments.flatMap fun argument => blankByte :: batchArgument argument)
      else none := by
  induction arguments generalizing out with
  | nil =>
    rw [appendArguments, if_pos nofun, List.flatMap_nil, List.append_nil]
  | cons argument arguments ih =>
    have hends : argument.any (· ∈ [returnByte, newlineByte]) = true ↔
        ¬(returnByte ∉ argument ∧ newlineByte ∉ argument) := by
      simp only [List.any_eq_true, List.mem_cons, List.not_mem_nil, or_false, decide_eq_true_eq]
      constructor
      · rintro ⟨c, hc, rfl | rfl⟩ ⟨hreturn, hnewline⟩
        · exact hreturn hc
        · exact hnewline hc
      · intro h
        by_cases hreturn : returnByte ∈ argument
        · exact ⟨_, hreturn, .inl rfl⟩
        · exact ⟨_, by_contra fun hnewline => h ⟨hreturn, hnewline⟩, .inr rfl⟩
    have hall : (∀ other ∈ argument :: arguments, returnByte ∉ other ∧ newlineByte ∉ other) ↔
        (returnByte ∉ argument ∧ newlineByte ∉ argument) ∧
          ∀ other ∈ arguments, returnByte ∉ other ∧ newlineByte ∉ other := List.forall_mem_cons
    rw [appendArguments, ih]
    by_cases hfirst : returnByte ∉ argument ∧ newlineByte ∉ argument
    · rw [if_neg (fun h => hends.mp h hfirst)]
      by_cases hrest : ∀ argument ∈ arguments, returnByte ∉ argument ∧ newlineByte ∉ argument
      · rw [if_pos hrest, if_pos (hall.mpr ⟨hfirst, hrest⟩), List.flatMap_cons]
        simp only [List.append_assoc, List.cons_append, List.nil_append]
      · rw [if_neg hrest, if_neg fun h => hrest (hall.mp h).2]
    · rw [if_pos (hends.mpr hfirst), if_neg fun h => hfirst (hall.mp h).1]

theorem batchCommandLine_eq (script : Bytes) (arguments : List Bytes) :
    batchCommandLine script arguments =
      if ∀ argument ∈ arguments, returnByte ∉ argument ∧ newlineByte ∉ argument then
        some (opening ++ inner script arguments ++ [quoteByte])
      else none := by
  rw [batchCommandLine, appendArguments_eq]
  split
  · rw [Option.map_some, inner]
    simp only [List.append_assoc, List.cons_append, List.nil_append]
  · rfl

theorem inner_append (script : Bytes) (before : List Bytes) (argument : Bytes)
    (after : List Bytes) :
    inner script (before ++ argument :: after) =
      inner script before ++ [blankByte] ++ batchArgument argument ++
        after.flatMap fun argument => blankByte :: batchArgument argument := by
  rw [inner, inner, List.flatMap_append, List.flatMap_cons]
  simp only [List.append_assoc, List.cons_append, List.nil_append]

/-- Each line accepted is one without line ends in its arguments. Behind its outer quote, an
argument begins and ends outside quotes, counting quotes, and is plain or past ASCII outside
them; and the C runtime reads an argument without `%` back, in quotes or not, also from the
line that cmd takes the outer quotes from. -/
theorem batch_spec {line : Bytes} (hscript : quoteByte ∉ script)
    (hline : batchCommandLine script arguments = some line) :
    (∀ argument ∈ arguments, returnByte ∉ argument ∧ newlineByte ∉ argument) ∧
      (∀ before argument after, arguments = before ++ argument :: after → ∃ rest,
        line = opening ++ (inner script before ++ [blankByte] ++ batchArgument argument ++ rest) ∧
        quotesAfter false (inner script before ++ [blankByte]) = false ∧
        quotesAfter false (inner script before ++ [blankByte] ++ batchArgument argument) = false ∧
        ∀ c ∈ outside false (batchArgument argument), asciiPlain c = true ∨ 0x80 ≤ c.toNat) ∧
      (∀ argument ∈ arguments, percentByte ∉ argument → ∀ tail : Bytes,
        tail.head?.all (· = blankByte) = true →
        unquote .windows false [] (batchArgument argument ++ tail) = (argument, tail)) ∧
      line = opening ++ inner script arguments ++ [quoteByte] ∧
      split (inner script arguments) .windows =
        script.flatMap batchChar :: arguments.map (·.flatMap batchChar) := by
  rw [batchCommandLine_eq] at hline
  split at hline
  · next hends =>
    cases hline
    refine ⟨hends, fun before argument after hsplit => ?_, fun argument _ hpercent tail htail => ?_,
      rfl, split_inner hscript arguments⟩
    · obtain ⟨hafter, hplain⟩ := batchArgument_quotes argument
      have hbefore : quotesAfter false (inner script before ++ [blankByte]) = false := by
        rw [quotesAfter_append, quotesAfter_inner hscript]
        rfl
      refine ⟨(after.flatMap fun argument => blankByte :: batchArgument argument) ++ [quoteByte],
        ?_, hbefore, ?_, hplain⟩
      · rw [hsplit, inner_append]
        simp only [List.append_assoc]
      · rw [quotesAfter_append, hbefore, hafter]
    · rw [batchArgument_read argument htail, flatMap_batchChar hpercent]
  · exact nomatch hline

/-- An argument with a quote behind a backslash, and one with a blank and a `%`. -/
theorem batch_spec_probe :
    split (inner (ascii "a.cmd") [[backslashByte, quoteByte], ascii " %"]) .windows =
      [ascii "a.cmd", [backslashByte, quoteByte], ascii " %%cd:~,%"] := by
  have hline : batchCommandLine (ascii "a.cmd") [[backslashByte, quoteByte], ascii " %"] =
      some (opening ++ inner (ascii "a.cmd") [[backslashByte, quoteByte], ascii " %"] ++
        [quoteByte]) := by
    rw [batchCommandLine_eq, if_pos (by decide)]
  exact (batch_spec (by decide) hline).2.2.2.2

end Batch

end Kotatsu.Sys
