import Kotatsu.Sys.Cmd.Split

/-!
# Joining arguments

`join` quotes arguments for `split` to read them back. Each way of quoting is undone by
reading the argument from its start, with the blank or the end of the line after it; the
line is then read back an argument at a time.
-/

namespace Kotatsu.Sys.Cmd

open Kotatsu.Core

/-- What `append_windows_program` appends. -/
def windowsProgram (program : Bytes) : Bytes :=
  let quote := if program = [] ∨ program.any (· ∈ [blankByte, tabByte]) then [quoteByte] else []
  quote ++ program ++ quote

/-- The loop of `append_windows`, with the backslashes it has held back. -/
def windowsQuoted (backslashes : Nat) : Bytes → Bytes
  | [] => List.replicate (backslashes * 2) backslashByte
  | c :: argument =>
    if c = backslashByte then windowsQuoted (backslashes + 1) argument
    else
      List.replicate (if c = quoteByte then backslashes * 2 + 1 else backslashes) backslashByte ++
        c :: windowsQuoted 0 argument

/-- What `append_windows` appends. -/
def windowsArgument (argument : Bytes) : Bytes :=
  if argument ≠ [] ∧
      argument.any (· ∈ [blankByte, tabByte, newlineByte, verticalTabByte, quoteByte]) = false then
    argument
  else quoteByte :: windowsQuoted 0 argument ++ [quoteByte]

/-- The characters `append_posix` writes as they are. -/
def isPlain (c : UInt8) : Bool :=
  0x80 ≤ c.toNat || (97 ≤ c.toNat && c.toNat ≤ 122) || (65 ≤ c.toNat && c.toNat ≤ 90) ||
    (48 ≤ c.toNat && c.toNat ≤ 57) || c ∈ ascii "@%+=:,./_-"

/-- What `append_posix` appends for a character. -/
def posixCharacter (c : UInt8) : Bytes :=
  if c = newlineByte then [singleQuoteByte, newlineByte, singleQuoteByte]
  else if isPlain c then [c] else [backslashByte, c]

/-- What `append_posix` appends. -/
def posixArgument (argument : Bytes) : Bytes :=
  if argument = [] then [singleQuoteByte, singleQuoteByte] else argument.flatMap posixCharacter

/-- What `join` appends for an argument. -/
def quoted (quoting : Quoting) (i : Nat) (argument : Bytes) : Bytes :=
  match quoting with
  | .posix => posixArgument argument
  | .windows => if i = 0 then windowsProgram argument else windowsArgument argument

/-- The loop of `join` from argument `i` on. -/
def joinFrom (quoting : Quoting) (i : Nat) : List Bytes → Bytes
  | [] => []
  | argument :: arguments =>
    (if i ≠ 0 then [blankByte] else []) ++ quoted quoting i argument ++
      joinFrom quoting (i + 1) arguments

/-- `join`. -/
def join (arguments : List Bytes) (quoting : Quoting) : Bytes := joinFrom quoting 0 arguments

/-! ## POSIX arguments -/

theorem posixCharacter_read (unquoted rest : Bytes) (c : UInt8) :
    unquotePosix .posix none unquoted (posixCharacter c ++ rest) =
      unquotePosix .posix none (unquoted ++ [c]) rest := by
  unfold posixCharacter
  split
  · next hc =>
    subst hc
    have hopen : unquotePosix .posix none unquoted
        (singleQuoteByte :: newlineByte :: singleQuoteByte :: rest) =
        unquotePosix .posix (some singleQuoteByte) unquoted
          (newlineByte :: singleQuoteByte :: rest) := by
      rw [unquotePosix]
      rfl
    have hkeep : unquotePosix .posix (some singleQuoteByte) unquoted
        (newlineByte :: singleQuoteByte :: rest) =
        unquotePosix .posix (some singleQuoteByte) (unquoted ++ [newlineByte])
          (singleQuoteByte :: rest) := by
      rw [unquotePosix]
      rfl
    have hclose : unquotePosix .posix (some singleQuoteByte) (unquoted ++ [newlineByte])
        (singleQuoteByte :: rest) = unquotePosix .posix none (unquoted ++ [newlineByte]) rest := by
      rw [unquotePosix]
      rfl
    exact hopen.trans (hkeep.trans hclose)
  · split
    · next hplain =>
      have hne : ∀ d, isPlain d = false → c ≠ d := by
        rintro d hd rfl
        rw [hd] at hplain
        cases hplain
      have hsep : Reading.posix.separates c = false := by
        simp only [Reading.separates, beq_false_of_ne (hne blankByte (by decide)),
          beq_false_of_ne (hne tabByte (by decide)), beq_false_of_ne (hne returnByte (by decide)),
          beq_false_of_ne (hne newlineByte (by decide)), Bool.or_self]
      have hkeep := unquote_keep .posix false unquoted rest hsep
        (hne quoteByte (by decide)) (fun _ => hne singleQuoteByte (by decide))
        (fun h => absurd h (hne backslashByte (by decide)))
      exact hkeep
    · rw [List.cons_append, List.singleton_append, unquotePosix, if_neg (by decide),
        if_neg (by decide), dif_pos ⟨rfl, List.cons_ne_nil _ _⟩]
      rfl

theorem posixArgument_read (argument tail : Bytes)
    (htail : tail.head?.all Reading.posix.separates = true) :
    unquote .posix false [] (posixArgument argument ++ tail) = (argument, tail) := by
  have hread (unquoted : Bytes) : unquotePosix .posix none unquoted
      (argument.flatMap posixCharacter ++ tail) = (unquoted ++ argument, tail) := by
    induction argument generalizing unquoted with
    | nil =>
      have hstop : unquotePosix .posix none unquoted tail = (unquoted, tail) :=
        unquote_stop .posix false htail
      rw [List.flatMap_nil, List.nil_append, List.append_nil, hstop]
    | cons c argument ih =>
      rw [List.flatMap_cons, List.append_assoc, posixCharacter_read, ih, List.append_assoc,
        List.singleton_append]
  unfold posixArgument
  split
  · next hnil =>
    subst hnil
    have hopen : unquotePosix .posix none [] (singleQuoteByte :: singleQuoteByte :: tail) =
        unquotePosix .posix (some singleQuoteByte) [] (singleQuoteByte :: tail) := by
      rw [unquotePosix]
      rfl
    have hclose : unquotePosix .posix (some singleQuoteByte) [] (singleQuoteByte :: tail) =
        unquotePosix .posix none [] tail := by
      rw [unquotePosix]
      rfl
    exact hopen.trans (hclose.trans (hread []))
  · exact hread []

/-! ## Windows arguments -/

variable {rest tail : Bytes}

theorem spanBackslashes_replicate (k : Nat) (h : rest.head? ≠ some backslashByte) :
    spanBackslashes (List.replicate k backslashByte ++ rest) =
      (List.replicate k backslashByte, rest) := by
  have hall : ∀ c ∈ List.replicate k backslashByte, (c == backslashByte) = true := by
    intro c hc
    rw [List.eq_of_mem_replicate hc, beq_self_eq_true]
  have hstop : rest.takeWhile (· == backslashByte) = [] ∧
      rest.dropWhile (· == backslashByte) = rest := by
    cases rest with
    | nil => exact ⟨rfl, rfl⟩
    | cons c rest =>
      have hc : ¬(c == backslashByte) = true := by
        rw [beq_iff_eq]
        exact fun hc => h (congrArg some hc)
      exact ⟨List.takeWhile_cons_of_neg hc, List.dropWhile_cons_of_neg hc⟩
  rw [spanBackslashes, List.takeWhile_append_of_pos hall, List.dropWhile_append_of_pos hall,
    hstop.1, hstop.2, List.append_nil]

/-- Backslashes of an argument are read together. -/
theorem unquoteWindows_backslashes (inQuotes : Bool) (unquoted : Bytes) (k : Nat)
    (rest : Bytes) :
    unquoteWindows .windows false inQuotes unquoted
        (List.replicate (k + 1) backslashByte ++ rest) =
      unquoteWindows .windows false inQuotes
        (unquoted ++ (readBackslashes (List.replicate (k + 1) backslashByte ++ rest)).1)
        (readBackslashes (List.replicate (k + 1) backslashByte ++ rest)).2 := by
  rw [List.replicate_succ, List.cons_append, unquoteWindows,
    if_neg (show ¬(inQuotes = false ∧ Reading.windows.separates backslashByte = true) from
      fun hsep => absurd hsep.2 (by decide)), if_pos ⟨rfl, rfl⟩]

/-- Backslashes before no quote are as they are. -/
theorem unquoteWindows_literal (inQuotes : Bool) (unquoted : Bytes) (k : Nat)
    (h : rest.head? ≠ some backslashByte) (hquote : rest.head? ≠ some quoteByte) :
    unquoteWindows .windows false inQuotes unquoted (List.replicate k backslashByte ++ rest) =
      unquoteWindows .windows false inQuotes (unquoted ++ List.replicate k backslashByte) rest := by
  cases k with
  | zero => rw [List.replicate_zero, List.nil_append, List.append_nil]
  | succ k =>
    have hspan := spanBackslashes_replicate (k + 1) h
    rw [unquoteWindows_backslashes inQuotes unquoted k, readBackslashes_of_head, hspan]
    rwa [hspan]

/-- Twice as many backslashes before a quote leave it to be read. -/
theorem unquoteWindows_even (inQuotes : Bool) (unquoted : Bytes) (k : Nat) (rest : Bytes) :
    unquoteWindows .windows false inQuotes unquoted
        (List.replicate (k * 2) backslashByte ++ quoteByte :: rest) =
      unquoteWindows .windows false inQuotes (unquoted ++ List.replicate k backslashByte)
        (quoteByte :: rest) := by
  cases k with
  | zero => rw [Nat.zero_mul, List.replicate_zero, List.nil_append, List.append_nil]
  | succ k =>
    have h : (quoteByte :: rest).head? ≠ some backslashByte := by
      rw [List.head?_cons]
      decide
    have hread : readBackslashes (List.replicate (k * 2 + 1 + 1) backslashByte ++
        quoteByte :: rest) = (List.replicate (k + 1) backslashByte, quoteByte :: rest) := by
      have hmod : (k * 2 + 1 + 1) % 2 = 0 := by omega
      have hdiv : (k * 2 + 1 + 1) / 2 = k + 1 := by omega
      simp only [readBackslashes, spanBackslashes_replicate _ h, ne_eq, not_true_eq_false,
        if_false, List.length_replicate, hmod, hdiv, if_true]
    rw [Nat.succ_mul, unquoteWindows_backslashes inQuotes unquoted (k * 2 + 1), hread]

/-- With one more, they escape it. -/
theorem unquoteWindows_odd (inQuotes : Bool) (unquoted : Bytes) (k : Nat) (rest : Bytes) :
    unquoteWindows .windows false inQuotes unquoted
        (List.replicate (k * 2 + 1) backslashByte ++ quoteByte :: rest) =
      unquoteWindows .windows false inQuotes
        (unquoted ++ List.replicate k backslashByte ++ [quoteByte]) rest := by
  have h : (quoteByte :: rest).head? ≠ some backslashByte := by
    rw [List.head?_cons]
    decide
  have hread : readBackslashes (List.replicate (k * 2 + 1) backslashByte ++
      quoteByte :: rest) = (List.replicate k backslashByte ++ [quoteByte], rest) := by
    have hmod : (k * 2 + 1) % 2 = 1 := by omega
    have hdiv : (k * 2 + 1) / 2 = k := by omega
    simp only [readBackslashes, spanBackslashes_replicate _ h, ne_eq, not_true_eq_false,
      if_false, List.length_replicate, hmod, hdiv, Nat.one_ne_zero]
  rw [unquoteWindows_backslashes inQuotes unquoted (k * 2), hread, List.append_assoc]

/-- A character that is neither a backslash nor a quote is kept. -/
theorem unquoteWindows_keep {program inQuotes : Bool} {c : UInt8} (unquoted rest : Bytes)
    (hsep : inQuotes = true ∨ Reading.windows.separates c = false)
    (hback : program = true ∨ c ≠ backslashByte) (hquote : c ≠ quoteByte) :
    unquoteWindows .windows program inQuotes unquoted (c :: rest) =
      unquoteWindows .windows program inQuotes (unquoted ++ [c]) rest := by
  have hstop : ¬(inQuotes = false ∧ Reading.windows.separates c = true) := by
    rintro ⟨h1, h2⟩
    rw [h1, h2] at hsep
    simp at hsep
  have hslash : ¬(c = backslashByte ∧ program = false) := by
    rintro ⟨h1, h2⟩
    rw [h2] at hback
    exact (hback.resolve_left Bool.false_ne_true) h1
  rw [unquoteWindows, if_neg hstop, if_neg hslash, if_pos hquote]

/-- A quote outside quotes opens them. -/
theorem unquoteWindows_open (program : Bool) (unquoted rest : Bytes) :
    unquoteWindows .windows program false unquoted (quoteByte :: rest) =
      unquoteWindows .windows program true unquoted rest := by
  rw [unquoteWindows, if_neg (fun h => absurd h.2 (by decide)),
    if_neg (fun h => absurd h.1 (by decide)), if_neg (fun h => h rfl),
    if_neg (fun h => Bool.false_ne_true h.1)]
  rfl

/-- One in quotes closes them, unless another follows. -/
theorem unquoteWindows_close (program : Bool) (unquoted : Bytes) (h : rest.head? ≠ some quoteByte) :
    unquoteWindows .windows program true unquoted (quoteByte :: rest) =
      unquoteWindows .windows program false unquoted rest := by
  rw [unquoteWindows, if_neg (fun h => Bool.false_ne_true h.1.symm),
    if_neg (fun h => absurd h.1 (by decide)), if_neg (fun h => h rfl), if_neg (fun hq => h hq.2.2)]
  rfl

/-- The text in quotes is read back, with the backslashes held back before it. -/
theorem windowsQuoted_read (argument unquoted : Bytes) (k : Nat)
    (htail : tail.head? ≠ some quoteByte) :
    unquoteWindows .windows false true unquoted
        (windowsQuoted k argument ++ quoteByte :: tail) =
      unquoteWindows .windows false false
        (unquoted ++ List.replicate k backslashByte ++ argument) tail := by
  induction argument generalizing unquoted k with
  | nil =>
    rw [windowsQuoted, unquoteWindows_even, unquoteWindows_close _ _ htail, List.append_nil]
  | cons c argument ih =>
    rw [windowsQuoted]
    split
    · next hc =>
      rw [ih, hc, List.replicate_succ', ← List.append_assoc, List.append_assoc _ [_]]
      rfl
    · next hc =>
      rw [List.append_assoc, List.cons_append]
      split
      · next hquote =>
        rw [hquote, unquoteWindows_odd, ih, List.replicate_zero, List.append_nil,
          List.append_assoc _ [_]]
        rfl
      · next hquote =>
        have hhead : (c :: (windowsQuoted 0 argument ++ quoteByte :: tail)).head? = some c := rfl
        rw [unquoteWindows_literal _ _ _ (by rwa [hhead, ne_eq, Option.some.injEq])
          (by rwa [hhead, ne_eq, Option.some.injEq]),
          unquoteWindows_keep _ _ (Or.inl rfl) (Or.inr hc) hquote, ih, List.replicate_zero,
          List.append_nil, List.append_assoc _ [_]]
        rfl

/-- Text without a blank or a quote is read back as it is. -/
theorem windowsPlain_read (argument unquoted : Bytes) (k : Nat)
    (hplain : ∀ c ∈ argument, Reading.windows.separates c = false ∧ c ≠ quoteByte)
    (hback : tail.head? ≠ some backslashByte) (hquote : tail.head? ≠ some quoteByte) :
    unquoteWindows .windows false false unquoted
        (List.replicate k backslashByte ++ argument ++ tail) =
      unquoteWindows .windows false false
        (unquoted ++ List.replicate k backslashByte ++ argument) tail := by
  induction argument generalizing unquoted k with
  | nil => rw [List.append_nil, List.append_nil, unquoteWindows_literal _ _ _ hback hquote]
  | cons c argument ih =>
    obtain ⟨hsep, hc⟩ := hplain c List.mem_cons_self
    have hrest : ∀ d ∈ argument, Reading.windows.separates d = false ∧ d ≠ quoteByte :=
      fun d hd => hplain d (List.mem_cons_of_mem _ hd)
    by_cases hslash : c = backslashByte
    · have hread := ih unquoted (k + 1) hrest
      rw [List.replicate_succ', ← hslash] at hread
      simpa only [hslash, List.append_assoc, List.singleton_append] using hread
    · have hhead : (c :: (argument ++ tail)).head? = some c := rfl
      have hread := ih (unquoted ++ List.replicate k backslashByte ++ [c]) 0 hrest
      rw [List.append_assoc, List.cons_append, unquoteWindows_literal _ _ _
        (by rwa [hhead, ne_eq, Option.some.injEq]) (by rwa [hhead, ne_eq, Option.some.injEq]),
        unquoteWindows_keep _ _ (Or.inr hsep) (Or.inr hslash) hc]
      simpa only [List.replicate_zero, List.nil_append, List.append_nil, List.append_assoc,
        List.singleton_append] using hread

/-- A blank or the end of the line ends an argument. -/
theorem separates_of_blank (htail : tail.head?.all (· = blankByte) = true) :
    tail.head?.all Reading.windows.separates = true := by
  cases htl : tail.head? with
  | none => rfl
  | some c =>
    rw [htl, Option.all_some, decide_eq_true_eq] at htail
    rw [htail]
    rfl

theorem windowsArgument_read (argument : Bytes) (htail : tail.head?.all (· = blankByte) = true) :
    unquote .windows false [] (windowsArgument argument ++ tail) = (argument, tail) := by
  have hhead : ∀ c, c ≠ blankByte → tail.head? ≠ some c := by
    intro c hc h
    rw [h, Option.all_some, decide_eq_true_eq] at htail
    exact hc htail
  have hstop : unquoteWindows .windows false false argument tail = (argument, tail) :=
    unquote_stop .windows false (separates_of_blank htail)
  change unquoteWindows .windows false false [] _ = _
  unfold windowsArgument
  split
  · next h =>
    have hread := windowsPlain_read argument [] 0 (fun c hc => ?_) (hhead _ (by decide))
      (hhead _ (by decide))
    · rw [List.replicate_zero, List.nil_append, List.append_nil, List.nil_append] at hread
      rw [hread, hstop]
    · have hfree := List.any_eq_false.mp h.2 c hc
      simp only [List.mem_cons, List.not_mem_nil, or_false, decide_eq_true_eq, not_or] at hfree
      obtain ⟨hblank, htab, -, -, hquote⟩ := hfree
      refine ⟨?_, hquote⟩
      rw [Reading.separates, beq_false_of_ne hblank, beq_false_of_ne htab, Bool.or_self]
  · rw [List.cons_append, List.cons_append, List.append_assoc, List.singleton_append,
      unquoteWindows_open,
      windowsQuoted_read _ _ _ (hhead _ (by decide)), List.replicate_zero, List.nil_append,
      List.nil_append, hstop]

/-- A program is read back as it is, in quotes or not. -/
theorem windowsProgram_read {argument : Bytes} (hquote : quoteByte ∉ argument)
    (htail : tail.head?.all (· = blankByte) = true) :
    unquote .windows true [] (windowsProgram argument ++ tail) = (argument, tail) := by
  have hstop : unquoteWindows .windows true false argument tail = (argument, tail) :=
    unquote_stop .windows true (separates_of_blank htail)
  have hkeep (inQuotes : Bool) (rest : Bytes) (hsep : inQuotes = true ∨
      ∀ c ∈ argument, Reading.windows.separates c = false) (unquoted : Bytes) :
      unquoteWindows .windows true inQuotes unquoted (argument ++ rest) =
        unquoteWindows .windows true inQuotes (unquoted ++ argument) rest := by
    clear hstop
    induction argument generalizing unquoted with
    | nil => rw [List.nil_append, List.append_nil]
    | cons c argument ih =>
      have hc : c ≠ quoteByte := fun hc => hquote (hc ▸ List.mem_cons_self)
      rw [List.cons_append, unquoteWindows_keep _ _
        (hsep.imp_right fun hsep => hsep c List.mem_cons_self) (Or.inl rfl) hc,
        ih (fun h => hquote (List.mem_cons_of_mem _ h))
          (hsep.imp_right fun hsep d hd => hsep d (List.mem_cons_of_mem _ hd)),
        List.append_assoc, List.singleton_append]
  change unquoteWindows .windows true false [] _ = _
  unfold windowsProgram
  dsimp only
  split
  · have hhead : tail.head? ≠ some quoteByte := by
      intro h
      rw [h] at htail
      exact absurd htail (by decide)
    rw [List.append_assoc, List.append_assoc, List.singleton_append, unquoteWindows_open,
      hkeep true _ (Or.inl rfl), List.singleton_append, unquoteWindows_close _ _ hhead,
      List.nil_append, hstop]
  · next h =>
    have hsep : ∀ c ∈ argument, Reading.windows.separates c = false := by
      intro c hc
      rw [not_or, Bool.not_eq_true] at h
      have hfree := List.any_eq_false.mp h.2 c hc
      simp only [List.mem_cons, List.not_mem_nil, or_false, decide_eq_true_eq, not_or] at hfree
      rw [Reading.separates, beq_false_of_ne hfree.1, beq_false_of_ne hfree.2, Bool.or_self]
    rw [List.nil_append, List.append_nil, hkeep false _ (Or.inr hsep), List.nil_append, hstop]

/-! ## The whole line -/

theorem Iterator.next_arguments_nil (it : Iterator) (h : it.skipped = []) :
    it.next.arguments = [] := by
  have hdone : it.next.done = true := by rw [next, if_pos h]
  rw [arguments, if_pos hdone]

theorem Iterator.next_arguments_cons (it : Iterator) (hdone : it.done = false)
    (h : it.skipped ≠ []) :
    it.next.arguments =
      (unquote it.reading it.program [] it.skipped).1 :: it.next.next.arguments := by
  obtain ⟨hvalue, -, -, hnext⟩ := it.next_spec h
  rw [arguments, if_neg (by rw [hnext, hdone]; exact Bool.false_ne_true), ← hvalue]

theorem windowsProgram_ne_nil (program : Bytes) : windowsProgram program ≠ [] := by
  unfold windowsProgram
  dsimp only
  split
  · exact List.cons_ne_nil _ _
  · next h =>
    rw [List.nil_append, List.append_nil]
    exact fun hnil => h (Or.inl hnil)

theorem posixArgument_ne_nil (argument : Bytes) : posixArgument argument ≠ [] := by
  unfold posixArgument
  split
  · exact List.cons_ne_nil _ _
  · cases argument with
    | nil => contradiction
    | cons c argument =>
      have hc : posixCharacter c ≠ [] := by
        unfold posixCharacter
        split
        · exact List.cons_ne_nil _ _
        · split <;> exact List.cons_ne_nil _ _
      rw [List.flatMap_cons]
      exact List.append_ne_nil_of_left_ne_nil hc _

theorem windowsArgument_ne_nil (argument : Bytes) : windowsArgument argument ≠ [] := by
  unfold windowsArgument
  split
  · next h => exact h.1
  · exact List.cons_ne_nil _ _

/-- Each argument after the first is quoted to be read back, and begins with no blank. -/
theorem quoted_read (quoting : Quoting) (i : Nat) (argument : Bytes)
    (htail : tail.head?.all (· = blankByte) = true) :
    unquote quoting.reading false [] (quoted quoting (i + 1) argument ++ tail) =
      (argument, tail) := by
  cases quoting with
  | posix =>
    refine posixArgument_read argument tail ?_
    cases htl : tail.head? with
    | none => rfl
    | some c =>
      rw [htl, Option.all_some, decide_eq_true_eq] at htail
      rw [htail]
      rfl
  | windows => exact windowsArgument_read argument htail

theorem quoted_ne_nil (quoting : Quoting) (i : Nat) (argument : Bytes) :
    quoted quoting (i + 1) argument ≠ [] := by
  cases quoting with
  | posix => exact posixArgument_ne_nil argument
  | windows => exact windowsArgument_ne_nil argument

/-- Text that is read as an argument begins with no separator. -/
theorem dropWhile_of_read {reading : Reading} {program : Bool} {text tail argument : Bytes}
    (h : unquote reading program [] (text ++ tail) = (argument, tail)) (htext : text ≠ []) :
    (text ++ tail).dropWhile reading.separates = text ++ tail := by
  cases text with
  | nil => exact absurd rfl htext
  | cons c text =>
    refine List.dropWhile_cons_of_neg fun hc => ?_
    have hstop : unquote reading program [] (c :: text ++ tail) = ([], c :: text ++ tail) :=
      unquote_stop reading program hc
    rw [hstop, Prod.mk.injEq] at h
    have hlength := congrArg List.length h.2
    rw [List.cons_append, List.length_cons, List.length_append] at hlength
    omega

/-- Arguments behind blanks are read as each of them is. -/
theorem arguments_of_blanks {reading : Reading} {write read : Bytes → Bytes}
    (hblank : reading.separates blankByte = true)
    (hread : ∀ (argument : Bytes) {tail : Bytes}, tail.head?.all (· = blankByte) = true →
      unquote reading false [] (write argument ++ tail) = (read argument, tail))
    (hwrite : ∀ argument, write argument ≠ []) (arguments : List Bytes) {it : Iterator}
    (hdone : it.done = false) (hprogram : it.program = false) (hreading : it.reading = reading)
    (hskipped : it.skipped =
      (arguments.flatMap fun argument => blankByte :: write argument).dropWhile
        reading.separates) :
    it.next.arguments = arguments.map read := by
  induction arguments generalizing it with
  | nil => exact it.next_arguments_nil hskipped
  | cons argument arguments ih =>
    have htail : (arguments.flatMap fun argument => blankByte :: write argument).head?.all
        (· = blankByte) = true := by
      cases arguments <;> rfl
    have hfirst := hread argument htail
    have hdrop : (write argument ++ arguments.flatMap fun argument =>
        blankByte :: write argument).dropWhile reading.separates = _ :=
      dropWhile_of_read hfirst (hwrite argument)
    rw [List.flatMap_cons, List.cons_append, List.dropWhile_cons_of_pos hblank, hdrop] at hskipped
    have hne : it.skipped ≠ [] := by
      rw [hskipped]
      exact List.append_ne_nil_of_left_ne_nil (hwrite argument) _
    obtain ⟨hvalue, hreading', hprogram', hdone'⟩ := it.next_spec hne
    rw [it.next_arguments_cons hdone hne]
    rw [hreading, hprogram, hskipped, hfirst] at hvalue ⊢
    rw [ih (hdone'.trans hdone) hprogram' (hreading'.trans hreading), List.map_cons]
    rw [Iterator.skipped, hprogram', if_neg Bool.false_ne_true, hreading', hreading]
    exact congrArg _ (congrArg Prod.snd hvalue)

/-- Only the first argument is quoted in its own way. -/
theorem joinFrom_eq_flatMap (quoting : Quoting) (i : Nat) (arguments : List Bytes) :
    joinFrom quoting (i + 1) arguments =
      arguments.flatMap fun argument => blankByte :: quoted quoting 1 argument := by
  induction arguments generalizing i with
  | nil => rfl
  | cons argument arguments ih =>
    rw [joinFrom, if_pos (Nat.succ_ne_zero i), ih (i + 1), List.flatMap_cons]
    cases quoting <;> rfl

/-- Arguments behind blanks are read back. -/
theorem arguments_of_joinFrom (quoting : Quoting) (arguments : List Bytes) (i : Nat)
    {it : Iterator} (hdone : it.done = false) (hprogram : it.program = false)
    (hreading : it.reading = quoting.reading)
    (hskipped : it.skipped =
      (joinFrom quoting (i + 1) arguments).dropWhile quoting.reading.separates) :
    it.next.arguments = arguments := by
  rw [joinFrom_eq_flatMap] at hskipped
  have hblank : quoting.reading.separates blankByte = true := by
    cases quoting <;> rfl
  have hread := arguments_of_blanks hblank (fun argument {_} => quoted_read quoting 0 argument)
    (quoted_ne_nil quoting 0) arguments hdone hprogram hreading hskipped
  rw [hread]
  exact List.map_id arguments

theorem split_join_posix (arguments : List Bytes) :
    split (join arguments .posix) .posix = arguments := by
  refine arguments_of_joinFrom .posix arguments 0 rfl rfl rfl ?_
  change (joinFrom .posix 0 arguments).dropWhile Reading.posix.separates = _
  cases arguments with
  | nil => rfl
  | cons argument arguments =>
    have hblank : Quoting.posix.reading.separates blankByte = true := rfl
    rw [joinFrom, joinFrom, joinFrom_eq_flatMap .posix 1, joinFrom_eq_flatMap .posix 0,
      if_neg (fun h => h rfl), if_pos Nat.one_ne_zero, List.append_assoc [blankByte],
      List.singleton_append,
      List.dropWhile_cons_of_pos hblank]
    rfl

/-- A program and the arguments behind it are read as each of them is. -/
theorem split_of_program {write read : Bytes → Bytes} {text program : Bytes}
    (htext : text ≠ []) (hread : ∀ (argument : Bytes) {tail : Bytes},
      tail.head?.all (· = blankByte) = true →
      unquote .windows false [] (write argument ++ tail) = (read argument, tail))
    (hwrite : ∀ argument, write argument ≠ []) (arguments : List Bytes)
    (hprogram : ∀ tail : Bytes, tail.head?.all (· = blankByte) = true →
      unquote .windows true [] (text ++ tail) = (program, tail)) :
    split (text ++ arguments.flatMap fun argument => blankByte :: write argument) .windows =
      program :: arguments.map read := by
  obtain ⟨tail, htail⟩ : ∃ tail, tail = arguments.flatMap fun argument =>
    blankByte :: write argument := ⟨_, rfl⟩
  have hhead : tail.head?.all (· = blankByte) = true := by
    rw [htail]
    cases arguments <;> rfl
  rw [← htail]
  obtain ⟨it, hit⟩ : ∃ it : Iterator, it =
      { rest := text ++ tail, argument := [], unquoted := [], reading := .windows,
        program := true, borrowed := true, done := false } := ⟨_, rfl⟩
  have hstart : split (text ++ tail) .windows = it.next.arguments := by
    rw [hit]
    rfl
  have hskipped : it.skipped = text ++ tail := by
    rw [hit]
    rfl
  have hne : it.skipped ≠ [] := by
    rw [hskipped]
    exact List.append_ne_nil_of_left_ne_nil htext _
  obtain ⟨hdone, hits, hreading⟩ :
      it.done = false ∧ it.program = true ∧ it.reading = .windows := by
    rw [hit]
    exact ⟨rfl, rfl, rfl⟩
  obtain ⟨hvalue, hreading', hprogram', hdone'⟩ := it.next_spec hne
  rw [hstart, it.next_arguments_cons hdone hne]
  rw [hreading, hits, hskipped, hprogram tail hhead] at hvalue ⊢
  have hblank : Reading.windows.separates blankByte = true := rfl
  rw [arguments_of_blanks hblank hread hwrite arguments (hdone'.trans hdone) hprogram'
    (hreading'.trans hreading)]
  rw [Iterator.skipped, hprogram', if_neg Bool.false_ne_true, hreading', hreading, ← htail]
  exact congrArg _ (congrArg Prod.snd hvalue)

theorem split_join_windows {arguments : List Bytes}
    (h : ∀ program, arguments.head? = some program → quoteByte ∉ program) :
    split (join arguments .windows) .windows = arguments := by
  cases arguments with
  | nil => exact Iterator.next_arguments_nil _ rfl
  | cons program arguments =>
    have hline : join (program :: arguments) .windows = windowsProgram program ++
        arguments.flatMap fun argument => blankByte :: quoted .windows 1 argument := by
      rw [join, joinFrom, joinFrom_eq_flatMap]
      rfl
    have hsplit := split_of_program (windowsProgram_ne_nil program)
      (fun argument {_} => quoted_read .windows 0 argument) (quoted_ne_nil .windows 0) arguments
      fun tail htail => windowsProgram_read (h program rfl) htail
    rw [hline, hsplit]
    exact congrArg _ (List.map_id arguments)

/-- POSIX quoting, and Windows quoting behind a program without a quote, are read back;
and an argument of any line that is a view of it is what unquoting it from its start
gives, and ends where that ends. -/
theorem split_join :
    (∀ arguments : List Bytes, split (join arguments .posix) .posix = arguments) ∧
    (∀ arguments : List Bytes, (∀ program, arguments.head? = some program →
      quoteByte ∉ program) → split (join arguments .windows) .windows = arguments) ∧
    ∀ it : Iterator, it.next.done = false → it.next.borrowed = true →
      (it.next.argument, it.next.rest) = unquote it.reading it.program [] it.skipped := by
  refine ⟨split_join_posix, fun _ => split_join_windows, fun it hdone hborrowed => ?_⟩
  have hne : it.skipped ≠ [] := by
    intro hnil
    rw [Iterator.next, if_pos hnil] at hdone
    cases hdone
  obtain ⟨hvalue, -⟩ := it.next_spec hne
  rw [← hvalue, Iterator.value, hborrowed, if_pos rfl]

/-- A program with a blank, and an argument that ends in a backslash behind a quote. -/
theorem split_join_probe :
    split (join [ascii "a b", [], [quoteByte, backslashByte]] .windows) .windows =
      [ascii "a b", [], [quoteByte, backslashByte]] := by
  refine split_join.2.1 _ fun program h => ?_
  rw [List.head?_cons, Option.some.injEq] at h
  rw [← h]
  decide

end Kotatsu.Sys.Cmd
