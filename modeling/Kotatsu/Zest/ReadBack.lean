import Kotatsu.Zest.Snapshot

/-!
# Reading a snapshot back

The first separator behind the header's is the one that ends it, unless a line of the header
ends in three dashes; the first date is the header's, unless the source's name holds one.
-/

namespace Kotatsu.Zest

open Kotatsu.Core

/-- A line that ends so reads as a separator with its newline. -/
def dashes : Bytes := ascii "---"

/-- The lines of a text, each with its newline. -/
def linesText (lines : List Bytes) : Bytes := lines.flatMap (· ++ [0x0A])

/-- The lines of the header that `formatSnap` writes, as they are read. -/
def headerLines (source inputFile date : Bytes) : List Bytes :=
  [ascii "source: " ++ normalizeNewlines source, ascii "created_at: " ++ date] ++
    if inputFile ≠ [] then [ascii "input_file: " ++ normalizeNewlines inputFile] else []

/-- What the names and the date must be for a snapshot to be read as it was written: none
ends in three dashes, and no other date comes before the one that is recorded. -/
structure ReadsBack (source inputFile date : Bytes) : Prop where
  name : ¬dashes <:+ normalizeNewlines source
  recorded : ¬dashes <:+ date
  input : ¬dashes <:+ normalizeNewlines inputFile
  first : ∀ i ∈ find caPrefix (normalizeNewlines source),
    (normalizeNewlines source).drop (i + caPrefix.length) = date

variable {line rest needle before after value text content file source inputFile date : Bytes}
  {lines : List Bytes}

/-! ## Searching lines -/

/-- What holds no newline and begins a text is in its first line. -/
theorem prefix_line (h : needle <+: line ++ 0x0A :: rest) (hneedle : 0x0A ∉ needle) :
    needle <+: line := by
  obtain hle | hlt := Nat.lt_or_ge line.length needle.length
  · have hline : line ++ [0x0A] <+: line ++ 0x0A :: rest :=
      (List.prefix_append_right_inj line).mpr ⟨rest, rfl⟩
    have hshort : (line ++ [0x0A]).length ≤ needle.length := by
      rw [List.length_append, List.length_singleton]
      omega
    have hin := List.prefix_of_prefix_length_le hline h hshort
    exact absurd (hin.subset (List.mem_append_right _ List.mem_cons_self)) hneedle
  · exact List.prefix_of_prefix_length_le h (List.prefix_append _ _) hlt

/-- A line that begins a separator with its newline is three dashes. -/
theorem eq_dashes (h : separator <+: line ++ 0x0A :: rest) (hline : 0x0A ∉ line) :
    line = dashes := by
  have hdashes : dashes <+: line ++ 0x0A :: rest :=
    List.IsPrefix.trans ⟨[0x0A], rfl⟩ h
  obtain ⟨more, rfl⟩ := prefix_line hdashes (by decide)
  cases more with
  | nil => rw [List.append_nil]
  | cons y more =>
    rw [List.append_assoc] at h
    have hnewline : [0x0A] <+: y :: (more ++ 0x0A :: rest) :=
      (List.prefix_append_right_inj dashes).mp h
    have hy : (0x0A : UInt8) = y := (List.cons_prefix_cons.mp hnewline).1
    exact absurd (List.mem_append_right _ (hy ▸ List.mem_cons_self)) hline

/-- The first separator, where a line comes first. -/
theorem find_separator_line (hline : 0x0A ∉ line) :
    find separator (line ++ 0x0A :: rest) =
      if dashes <:+ line then some (line.length - 3)
      else (find separator rest).map (· + (line.length + 1)) := by
  induction line with
  | nil =>
    have hno : ¬dashes <:+ [] := by decide
    rw [if_neg hno]
    rfl
  | cons x line ih =>
    have hrest := ih fun h => hline (List.mem_cons_of_mem _ h)
    rw [List.cons_append, find]
    by_cases hfirst : separator <+: x :: (line ++ 0x0A :: rest)
    · have hall : x :: line = dashes := eq_dashes hfirst hline
      rw [if_pos (List.isPrefixOf_iff_prefix.mpr hfirst), hall, if_pos (List.suffix_refl _)]
      rfl
    · rw [if_neg fun h => hfirst (List.isPrefixOf_iff_prefix.mp h), hrest]
      by_cases hends : dashes <:+ line
      · have hlength : 3 ≤ line.length := hends.length_le
        rw [if_pos hends, if_pos (hends.trans (List.suffix_cons x line)), Option.map_some,
          List.length_cons]
        congr 1
        omega
      · have hnot : ¬dashes <:+ x :: line := by
          intro h
          obtain heq | h := List.suffix_cons_iff.mp h
          · refine hfirst ⟨rest, ?_⟩
            rw [← List.cons_append, ← heq]
            rfl
          · exact hends h
        rw [if_neg hends, if_neg hnot, Option.map_map]
        rfl

/-- The separator that ends a header is the first one, or a line ends like one. -/
theorem find_separator_lines (hlines : ∀ line ∈ lines, 0x0A ∉ line) (rest : Bytes) :
    ((∀ line ∈ lines, ¬dashes <:+ line) →
        find separator (linesText lines ++ (separator ++ rest)) =
          some (linesText lines).length) ∧
      ((∃ line ∈ lines, dashes <:+ line) →
        ∃ i < (linesText lines).length,
          find separator (linesText lines ++ (separator ++ rest)) = some i) := by
  induction lines with
  | nil =>
    refine ⟨fun _ => ?_, fun ⟨line, hline, _⟩ => absurd hline List.not_mem_nil⟩
    exact if_pos (List.isPrefixOf_iff_prefix.mpr (List.prefix_append _ _))
  | cons line lines ih =>
    obtain ⟨hnone, hsome⟩ := ih fun l hl => hlines l (List.mem_cons_of_mem _ hl)
    have htext : linesText (line :: lines) ++ (separator ++ rest) =
        line ++ 0x0A :: (linesText lines ++ (separator ++ rest)) := by
      rw [linesText, List.flatMap_cons, List.append_assoc, List.append_assoc,
        List.singleton_append]
      rfl
    have hlength : (linesText (line :: lines)).length =
        line.length + 1 + (linesText lines).length := by
      rw [linesText, List.flatMap_cons, List.length_append, List.length_append,
        List.length_singleton]
      rfl
    rw [htext, find_separator_line (hlines line List.mem_cons_self), hlength]
    refine ⟨fun hall => ?_, fun hex => ?_⟩
    · rw [if_neg (hall line List.mem_cons_self),
        hnone fun l hl => hall l (List.mem_cons_of_mem _ hl), Option.map_some, Nat.add_comm]
    · by_cases hends : dashes <:+ line
      · rw [if_pos hends]
        exact ⟨_, by omega, rfl⟩
      · obtain ⟨l, hl, hdashes⟩ := hex
        obtain rfl | hl := List.mem_cons.mp hl
        · exact absurd hdashes hends
        · obtain ⟨i, hi, hfind⟩ := hsome ⟨l, hl, hdashes⟩
          rw [if_neg hends, hfind, Option.map_some]
          exact ⟨_, by omega, rfl⟩

/-- What holds no newline is found in the first line, or behind it. -/
theorem find_line (hneedle : 0x0A ∉ needle) (hne : needle ≠ []) :
    find needle (line ++ 0x0A :: rest) =
      (find needle line).or ((find needle rest).map (· + (line.length + 1))) := by
  induction line with
  | nil =>
    have hfirst : ¬needle.isPrefixOf (0x0A :: rest) = true := by
      intro h
      have hnil : needle <+: [] := prefix_line (List.isPrefixOf_iff_prefix.mp h) hneedle
      exact hne (List.prefix_nil.mp hnil)
    have hnil : find needle [] = none := if_neg hne
    rw [List.nil_append, hnil, Option.none_or, find, if_neg hfirst]
    rfl
  | cons x line ih =>
    rw [List.cons_append, find, find]
    by_cases hfirst : needle <+: x :: line
    · have hlong : needle <+: x :: (line ++ 0x0A :: rest) :=
        hfirst.trans (List.prefix_append (x :: line) _)
      rw [if_pos (List.isPrefixOf_iff_prefix.mpr hlong),
        if_pos (List.isPrefixOf_iff_prefix.mpr hfirst), Option.some_or]
    · have hlong : ¬needle <+: x :: (line ++ 0x0A :: rest) := fun h =>
        hfirst (prefix_line h hneedle)
      rw [if_neg fun h => hlong (List.isPrefixOf_iff_prefix.mp h),
        if_neg fun h => hfirst (List.isPrefixOf_iff_prefix.mp h), ih]
      cases find needle line with
      | some i => rfl
      | none =>
        rw [Option.none_or, Option.map_none, Option.none_or, Option.map_map]
        rfl

/-! ## Reading a header -/

/-- The first date of a frontmatter. -/
theorem dateIn_at
    (hfind : find caPrefix (before ++ (caPrefix ++ (value ++ 0x0A :: after))) =
      some before.length) (hvalue : 0x0A ∉ value) :
    dateIn (before ++ (caPrefix ++ (value ++ 0x0A :: after))) = value := by
  have hdrop : (before ++ (caPrefix ++ (value ++ 0x0A :: after))).drop
      (before.length + caPrefix.length) = value ++ 0x0A :: after := by
    rw [← List.append_assoc, ← List.length_append, List.drop_left]
  have hnewline : findFrom (ascii "\n") (before ++ (caPrefix ++ (value ++ 0x0A :: after)))
      (before.length + caPrefix.length) =
        some (before.length + caPrefix.length + value.length) := by
    have hbyte := find_byte_append after hvalue
    rw [findFrom, hdrop, show ascii "\n" = [0x0A] from rfl, hbyte]
    rfl
  rw [dateIn, hfind]
  dsimp only
  rw [hnewline]
  dsimp only
  rw [substr, hdrop, Nat.add_sub_cancel_left, List.take_left]

/-- No date begins in a label. -/
theorem find_caPrefix_source :
    find caPrefix (ascii "source: " ++ line) = (find caPrefix line).map (· + 8) := by
  have hskip (x y : UInt8) (t : Bytes) (h : ¬(x = 0x63 ∧ y = 0x72)) :
      find caPrefix (x :: y :: t) = (find caPrefix (y :: t)).map (· + 1) := by
    refine if_neg fun hin => h ?_
    have hboth := List.isPrefixOf_iff_prefix.mp hin
    obtain ⟨hx, hboth⟩ := List.cons_prefix_cons.mp hboth
    exact ⟨hx.symm, (List.cons_prefix_cons.mp hboth).1.symm⟩
  have hlast (x : UInt8) (t : Bytes) (h : x ≠ 0x63) :
      find caPrefix (x :: t) = (find caPrefix t).map (· + 1) := by
    refine if_neg fun hin => h ?_
    exact (List.cons_prefix_cons.mp (List.isPrefixOf_iff_prefix.mp hin)).1.symm
  rw [show ascii "source: " ++ line =
    0x73 :: 0x6F :: 0x75 :: 0x72 :: 0x63 :: 0x65 :: 0x3A :: 0x20 :: line from rfl,
    hskip _ _ _ (by decide), hskip _ _ _ (by decide), hskip _ _ _ (by decide),
    hskip _ _ _ (by decide), hskip _ _ _ (by decide), hskip _ _ _ (by decide),
    hskip _ _ _ (by decide), hlast _ _ (by decide)]
  cases find caPrefix line <;> rfl

/-- The date that is read from a header. -/
theorem dateIn_headerLines (inputFile : Bytes) (hsource : 0x0A ∉ normalizeNewlines source)
    (hdate : 0x0A ∉ date) :
    dateIn (linesText (headerLines source inputFile date)) = date ↔
      ∀ i ∈ find caPrefix (normalizeNewlines source),
        (normalizeNewlines source).drop (i + caPrefix.length) = date := by
  obtain ⟨tail, htail⟩ : ∃ tail, linesText (headerLines source inputFile date) =
      (ascii "source: " ++ normalizeNewlines source) ++
        0x0A :: (caPrefix ++ (date ++ 0x0A :: tail)) := by
    refine ⟨linesText (if inputFile ≠ [] then
      [ascii "input_file: " ++ normalizeNewlines inputFile] else []), ?_⟩
    simp only [headerLines, linesText, List.cons_append, List.nil_append, List.flatMap_cons,
      List.append_assoc]
    rfl
  obtain ⟨name, hname⟩ : ∃ name, normalizeNewlines source = name := ⟨_, rfl⟩
  rw [htail, hname]
  rw [hname] at hsource
  have hneedle : (0x0A : UInt8) ∉ caPrefix := by decide
  have hfind : find caPrefix ((ascii "source: " ++ name) ++
      0x0A :: (caPrefix ++ (date ++ 0x0A :: tail))) = _ := find_line hneedle (by decide)
  rw [find_caPrefix_source] at hfind
  cases hin : find caPrefix name with
  | some i =>
    obtain ⟨after, hafter⟩ := find_some hin
    have hi : i ≤ name.length := by
      by_contra hlt
      rw [List.drop_eq_nil_of_le (by omega)] at hafter
      exact absurd hafter (by simp [caPrefix, ascii])
    have hdrop : name.drop (i + caPrefix.length) = after := by
      rw [← List.drop_drop, ← hafter, List.drop_left]
    have hsplit : (ascii "source: " ++ name) ++ 0x0A :: (caPrefix ++ (date ++ 0x0A :: tail)) =
        (ascii "source: " ++ name.take i) ++
          (caPrefix ++ (after ++ 0x0A :: (caPrefix ++ (date ++ 0x0A :: tail)))) := by
      conv_lhs => rw [← List.take_append_drop i name, ← hafter]
      simp only [List.append_assoc]
    have hlength : (ascii "source: " ++ name.take i).length = i + 8 := by
      rw [List.length_append, List.length_take, Nat.min_eq_left hi, Nat.add_comm]
      rfl
    rw [hin, Option.map_some, Option.some_or, hsplit, ← hlength] at hfind
    have hnewline : (0x0A : UInt8) ∉ after := fun h =>
      hsource (List.mem_of_mem_drop (hdrop ▸ h))
    rw [hsplit, dateIn_at hfind hnewline]
    constructor
    · rintro rfl j hj
      cases hj
      exact hdrop
    · exact fun h => hdrop.symm.trans (h i rfl)
  | none =>
    have hfirst : find caPrefix (caPrefix ++ (date ++ 0x0A :: tail)) = some 0 :=
      if_pos (List.isPrefixOf_iff_prefix.mpr (List.prefix_append _ _))
    have hlength : (ascii "source: " ++ name ++ [0x0A]).length =
        0 + ((ascii "source: " ++ name).length + 1) := by
      rw [List.length_append, List.length_singleton, Nat.zero_add]
    have hsplit : (ascii "source: " ++ name) ++ 0x0A :: (caPrefix ++ (date ++ 0x0A :: tail)) =
        (ascii "source: " ++ name ++ [0x0A]) ++ (caPrefix ++ (date ++ 0x0A :: tail)) := by
      rw [List.append_assoc _ [0x0A], List.singleton_append]
    rw [hin, Option.map_none, Option.none_or, hfirst, Option.map_some, hsplit, ← hlength] at hfind
    rw [hsplit, dateIn_at hfind hdate]
    exact iff_of_true rfl fun i hi => absurd hi (by simp)

/-! ## Reading a file -/

theorem getLast_append_newline (text : Bytes) :
    (text ++ [0x0A]).getLast? = some 0x0A := List.getLast?_concat

/-- A file whose header has these lines is read up to the first separator. -/
theorem parseSnap_lines (hlines : ∀ line ∈ lines, 0x0A ∉ line)
    (hfile : normalizeNewlines file =
      separator ++ (linesText lines ++ (separator ++ (content ++ [0x0A])))) :
    ((∀ line ∈ lines, ¬dashes <:+ line) →
        parseSnap file = { body := content, createdAt := dateIn (linesText lines) }) ∧
      ((∃ line ∈ lines, dashes <:+ line) → content.length < (parseSnap file).body.length) := by
  obtain ⟨hnone, hsome⟩ := find_separator_lines hlines (content ++ [0x0A])
  have hstart : ¬separator.isPrefixOf (normalizeNewlines file) = false := by
    rw [hfile, List.isPrefixOf_iff_prefix.mpr (List.prefix_append _ _)]
    exact Bool.noConfusion
  have hdrop : (normalizeNewlines file).drop separator.length =
      linesText lines ++ (separator ++ (content ++ [0x0A])) := by
    rw [hfile, List.drop_left]
  refine ⟨fun hall => ?_, fun hex => ?_⟩
  · have hbody : (normalizeNewlines file).drop
        (separator.length + (linesText lines).length + separator.length) =
          content ++ [0x0A] := by
      rw [Nat.add_assoc, ← List.drop_drop, hdrop, ← List.length_append, ← List.append_assoc,
        List.drop_left]
    have hfront : substr (normalizeNewlines file) separator.length (linesText lines).length =
        linesText lines := by
      rw [substr, hdrop, List.take_left]
    rw [parseSnap, if_neg hstart, findFrom, hdrop, hnone hall, Option.map_some]
    dsimp only
    rw [hbody, if_pos (getLast_append_newline content), List.dropLast_concat,
      Nat.add_sub_cancel_left, hfront]
  · obtain ⟨i, hi, hfind⟩ := hsome hex
    rw [parseSnap, if_neg hstart, findFrom, hdrop, hfind, Option.map_some]
    dsimp only
    have hlength : ((normalizeNewlines file).drop
        (separator.length + i + separator.length)).length ≥ content.length + 2 := by
      rw [Nat.add_assoc, ← List.drop_drop, hdrop, List.length_drop, List.length_append,
        List.length_append, List.length_append, List.length_singleton]
      omega
    split
    · rw [List.length_dropLast]
      omega
    · omega

/-- A label and a name end in dashes when the name does. -/
theorem dashes_label {label : Bytes} (name : Bytes) (hlabel : label.getLast? = some 0x20) :
    dashes <:+ label ++ name ↔ dashes <:+ name := by
  refine ⟨fun h => ?_, fun h => h.trans (List.suffix_append _ _)⟩
  obtain hle | hlt := Nat.le_total dashes.length name.length
  · exact List.suffix_of_suffix_length_le h (List.suffix_append _ _) hle
  · obtain ⟨front, hfront⟩ := h
    have hshort : name <:+ dashes :=
      List.suffix_of_suffix_length_le (List.suffix_append label name) ⟨front, hfront⟩ hlt
    obtain ⟨more, hmore⟩ := hshort
    rw [← hmore, ← List.append_assoc] at hfront
    have hlabel' := List.append_cancel_right hfront
    cases hlast : more.getLast? with
    | none =>
      obtain rfl := List.getLast?_eq_none_iff.mp hlast
      rw [← hmore]
      exact List.suffix_refl _
    | some x =>
      have hx : x ∈ dashes := hmore ▸ List.mem_append_left _ (List.mem_of_getLast? hlast)
      rw [← hlabel', List.getLast?_append, hlast, Option.some_or] at hlabel
      cases hlabel
      exact absurd hx (by decide)

/-! ## Reading what was written -/

theorem normalizeNewlines_append (a b : Bytes) :
    normalizeNewlines (a ++ b) = normalizeNewlines a ++ normalizeNewlines b :=
  List.filter_append _ _

theorem normalizeNewlines_of_not_mem (h : 0x0D ∉ text) : normalizeNewlines text = text := by
  refine List.filter_eq_self.mpr fun b hb => decide_eq_true ?_
  rintro rfl
  exact h hb

theorem not_mem_normalizeNewlines (text : Bytes) : 0x0D ∉ normalizeNewlines text := by
  intro h
  exact absurd rfl (of_decide_eq_true (List.mem_filter.mp h).2)

variable {today : Date} {disk : Disk} {snapPath location : Bytes} {data : SnapData}

/-- The file that is written, as it is read. -/
theorem normalize_formatSnap (source inputFile : Bytes) {createdAt : Bytes}
    (hcontent : 0x0D ∉ content) (hdate : 0x0D ∉ dateStr createdAt today) :
    normalizeNewlines (formatSnap source inputFile content createdAt today) =
      separator ++ (linesText (headerLines source inputFile (dateStr createdAt today)) ++
        (separator ++ (content ++ [0x0A]))) := by
  have hsource : normalizeNewlines (ascii "source: ") = ascii "source: " := by decide
  have hcreated : normalizeNewlines (ascii "created_at: ") = ascii "created_at: " := by decide
  have hinput : normalizeNewlines (ascii "input_file: ") = ascii "input_file: " := by decide
  have hend : normalizeNewlines (ascii "\n") = [0x0A] := by decide
  have hseparator : normalizeNewlines (ascii "---\n") = separator := by decide
  by_cases hempty : inputFile ≠ []
  · simp only [formatSnap, headerLines, if_pos hempty, normalizeNewlines_append, hsource,
      hcreated, hinput, hend, hseparator, normalizeNewlines_of_not_mem hcontent,
      normalizeNewlines_of_not_mem hdate, linesText, List.cons_append, List.nil_append,
      List.flatMap_cons, List.flatMap_nil, List.append_assoc]
  · simp only [formatSnap, headerLines, if_neg hempty, normalizeNewlines_append, hsource,
      hcreated, hend, hseparator, normalizeNewlines_of_not_mem hcontent,
      normalizeNewlines_of_not_mem hdate, linesText, List.append_nil, List.cons_append,
      List.nil_append, List.flatMap_cons, List.flatMap_nil, List.append_assoc]

theorem mem_of_mem_normalizeNewlines {b : UInt8} (h : b ∈ normalizeNewlines text) : b ∈ text :=
  (List.mem_filter.mp h).1

/-- The lines of a header are lines. -/
theorem not_mem_headerLines (hsource : 0x0A ∉ source) (hinput : 0x0A ∉ inputFile)
    (hdate : 0x0A ∉ date) : ∀ line ∈ headerLines source inputFile date, 0x0A ∉ line := by
  have hlabel {label name : Bytes} (hl : 0x0A ∉ label) (hn : 0x0A ∉ name) :
      0x0A ∉ label ++ name := fun h => (List.mem_append.mp h).elim hl hn
  have hlast : ∀ line ∈ (if inputFile ≠ [] then
      [ascii "input_file: " ++ normalizeNewlines inputFile] else []), (0x0A : UInt8) ∉ line := by
    intro line hline
    split at hline
    · obtain rfl := List.mem_singleton.mp hline
      exact hlabel (by decide) fun h => hinput (mem_of_mem_normalizeNewlines h)
    · exact absurd hline List.not_mem_nil
  intro line hline
  obtain hline | hline := List.mem_append.mp hline
  · obtain rfl | hline := List.mem_cons.mp hline
    · exact hlabel (by decide) fun h => hsource (mem_of_mem_normalizeNewlines h)
    · obtain rfl := List.mem_singleton.mp hline
      exact hlabel (by decide) hdate
  · exact hlast line hline

/-- No line of a header ends in dashes when no name does, and the date does not. -/
theorem headerLines_dashes :
    (∀ line ∈ headerLines source inputFile date, ¬dashes <:+ line) ↔
      ¬dashes <:+ normalizeNewlines source ∧ ¬dashes <:+ date ∧
        ¬dashes <:+ normalizeNewlines inputFile := by
  have hsource : dashes <:+ ascii "source: " ++ normalizeNewlines source ↔ _ :=
    dashes_label _ (by decide)
  have hcreated : dashes <:+ ascii "created_at: " ++ date ↔ _ := dashes_label _ (by decide)
  have hinput : dashes <:+ ascii "input_file: " ++ normalizeNewlines inputFile ↔ _ :=
    dashes_label _ (by decide)
  by_cases hempty : inputFile ≠ []
  · simp only [headerLines, if_pos hempty, List.cons_append, List.nil_append,
      List.forall_mem_cons, List.not_mem_nil, false_implies, implies_true, and_true, hsource,
      hcreated, hinput]
  · obtain rfl := not_not.mp hempty
    have hnone : ¬dashes <:+ normalizeNewlines [] := by decide
    simp only [headerLines, if_neg hempty, List.append_nil, List.forall_mem_cons,
      List.not_mem_nil, false_implies, implies_true, and_true, hsource, hcreated, hnone,
      not_false_eq_true]

/-- A file that is written is read back exactly when its names and its date let it be. -/
theorem parseSnap_formatSnap_iff {createdAt : Bytes} (hsource : 0x0A ∉ source)
    (hinput : 0x0A ∉ inputFile) (hcontent : 0x0D ∉ content)
    (hnewline : 0x0A ∉ dateStr createdAt today) (hreturn : 0x0D ∉ dateStr createdAt today) :
    parseSnap (formatSnap source inputFile content createdAt today) =
        { body := content, createdAt := dateStr createdAt today } ↔
      ReadsBack source inputFile (dateStr createdAt today) := by
  obtain ⟨hgood, hbad⟩ := parseSnap_lines (not_mem_headerLines hsource hinput hnewline)
    (normalize_formatSnap source inputFile hcontent hreturn)
  have hname : 0x0A ∉ normalizeNewlines source := fun h =>
    hsource (mem_of_mem_normalizeNewlines h)
  have hdate := dateIn_headerLines inputFile hname hnewline
  constructor
  · intro heq
    have hall : ∀ line ∈ headerLines source inputFile (dateStr createdAt today),
        ¬dashes <:+ line := by
      intro line hline hends
      have hlong := hbad ⟨line, hline, hends⟩
      rw [heq] at hlong
      exact absurd hlong (Nat.lt_irrefl _)
    rw [hgood hall] at heq
    obtain ⟨hn, hr, hi⟩ := headerLines_dashes.mp hall
    exact ⟨hn, hr, hi, hdate.mp (congrArg SnapData.createdAt heq)⟩
  · rintro ⟨hn, hr, hi, hf⟩
    rw [hgood (headerLines_dashes.mpr ⟨hn, hr, hi⟩), hdate.mpr hf]

/-! ## Dates -/

theorem dateIn_subset (frontmatter : Bytes) : dateIn frontmatter ⊆ frontmatter := by
  intro b hb
  rw [dateIn] at hb
  split at hb
  · exact absurd hb List.not_mem_nil
  · dsimp only at hb
    split at hb
    · exact List.mem_of_mem_drop hb
    · exact List.mem_of_mem_drop (List.mem_of_mem_take hb)

/-- A date that is read ends with its line. -/
theorem not_mem_dateIn (frontmatter : Bytes) : 0x0A ∉ dateIn frontmatter := by
  intro hb
  rw [dateIn] at hb
  split at hb
  · exact absurd hb List.not_mem_nil
  · next pos _ =>
    dsimp only at hb
    split at hb
    · next hnone =>
      rw [findFrom, Option.map_eq_none_iff] at hnone
      exact find_byte_none hnone hb
    · next valEnd hsome =>
      rw [findFrom] at hsome
      obtain ⟨n, hn, rfl⟩ := Option.map_eq_some_iff.mp hsome
      obtain ⟨before, after, htext, hbefore, rfl⟩ := find_byte_some hn
      rw [Nat.add_sub_cancel_left, substr, htext, List.take_left] at hb
      exact hbefore hb

/-- A date that is read is one line, without carriage returns. -/
theorem createdAt_line (file : Bytes) :
    0x0A ∉ (parseSnap file).createdAt ∧ 0x0D ∉ (parseSnap file).createdAt := by
  rw [parseSnap]
  dsimp only
  split
  · exact ⟨List.not_mem_nil, List.not_mem_nil⟩
  · split
    · exact ⟨List.not_mem_nil, List.not_mem_nil⟩
    · refine ⟨not_mem_dateIn _, fun h => not_mem_normalizeNewlines file ?_⟩
      exact List.mem_of_mem_drop (List.mem_of_mem_take (dateIn_subset _ h))

theorem isDigit_padded {width n : Nat} {b : UInt8} (h : b ∈ padded width n) :
    isDigit b = true := by
  obtain h | h := List.mem_append.mp h
  · rw [List.eq_of_mem_replicate h]
    rfl
  · exact isDigit_decimal n b h

/-- The date of a day is one line, without carriage returns. -/
theorem date_line (date : Date) : 0x0A ∉ date.text ∧ 0x0D ∉ date.text := by
  have hnone (b : UInt8) (hdigit : isDigit b = false) (hdash : b ∉ ascii "-") :
      b ∉ date.text := by
    intro h
    have hpad {width n : Nat} : b ∉ padded width n := fun h =>
      absurd ((isDigit_padded h).symm.trans hdigit) Bool.noConfusion
    simp only [Date.text, List.mem_append, hpad, hdash, or_self] at h
  exact ⟨hnone 0x0A (by decide) (by decide), hnone 0x0D (by decide) (by decide)⟩

/-! ## Checks -/

/-- The date that a check of a snapshot writes it with. -/
def writtenDate (disk : Disk) (snapPath : Bytes) (today : Date) : Bytes :=
  dateStr (((readSnap (migrateSnapExtension disk snapPath).2 snapPath).map
    SnapData.createdAt).getD []) today

/-- A check writes the file of the snapshot. -/
def Checked.Wrote (c : Checked) (snapPath : Bytes) : Prop :=
  .created snapPath ∈ c.events ∨ .updated snapPath ∈ c.events

/-- A check holds: the file has the value. -/
def Checked.Holds (c : Checked) : Prop := c.report = none ∧ c.events = []

theorem writtenDate_line (disk : Disk) (snapPath : Bytes) (today : Date) :
    0x0A ∉ writtenDate disk snapPath today ∧ 0x0D ∉ writtenDate disk snapPath today := by
  rw [writtenDate, dateStr]
  split
  · exact date_line today
  · rw [readSnap]
    cases (migrateSnapExtension disk snapPath).2.file snapPath with
    | none => exact ⟨List.not_mem_nil, List.not_mem_nil⟩
    | some file => exact createdAt_line file

theorem migrate_events {target : Bytes} {event : Event}
    (h : event ∈ (migrateSnapExtension disk target).1) : ∃ old new, event = .migrated old new := by
  rw [migrateSnapExtension] at h
  split at h
  · exact absurd h List.not_mem_nil
  · split at h
    · exact absurd h List.not_mem_nil
    · split at h
      · exact ⟨_, _, List.mem_singleton.mp h⟩
      · exact absurd h List.not_mem_nil

/-- What is written is in the file. -/
theorem file_writeSnap {disk disk' : Disk} {path : Bytes}
    (h : writeSnap disk path content = (true, disk')) : disk'.file path = some content := by
  rw [writeSnap] at h
  split at h
  · obtain rfl := (Prod.mk.inj h).2
    exact Function.update_self path (some content) disk.file
  · exact absurd (Prod.mk.inj h).1 Bool.false_ne_true

/-- A snapshot that is written holds the value, and the date is kept. -/
theorem file_of_wrote {update : Bool}
    (h : (checkImpl disk snapPath value inputFile location today update).Wrote snapPath) :
    ∃ createdAt, (checkImpl disk snapPath value inputFile location today update).disk.file
        snapPath = some (formatSnap (fileName location) inputFile (normalizeNewlines value)
          createdAt today) ∧ dateStr createdAt today = writtenDate disk snapPath today := by
  have hmigrated : ¬(.created snapPath ∈ (migrateSnapExtension disk snapPath).1 ∨
      .updated snapPath ∈ (migrateSnapExtension disk snapPath).1) := by
    rintro (h | h)
    · obtain ⟨_, _, heq⟩ := migrate_events h
      exact Event.noConfusion heq
    · obtain ⟨_, _, heq⟩ := migrate_events h
      exact Event.noConfusion heq
  rw [Checked.Wrote] at h
  rw [checkImpl] at h ⊢
  rw [writtenDate]
  obtain ⟨⟨events, files⟩, heq⟩ : ∃ m, migrateSnapExtension disk snapPath = m := ⟨_, rfl⟩
  rw [heq] at hmigrated h ⊢
  dsimp only at hmigrated h ⊢
  cases hread : readSnap files snapPath with
  | none =>
    rw [hread] at h
    dsimp only at h ⊢
    split at h
    · next hwritten => exact ⟨[], file_writeSnap hwritten, rfl⟩
    · exact absurd h hmigrated
  | some existing =>
    rw [hread] at h
    dsimp only at h ⊢
    split at h
    · exact absurd h hmigrated
    · next hbody =>
      split at h
      · next hupdate =>
        rw [if_neg hbody, if_pos hupdate]
        split at h
        · next hwritten => exact ⟨existing.createdAt, file_writeSnap hwritten, rfl⟩
        · exact absurd h hmigrated
      · split at h
        · exact absurd h hmigrated
        · exact absurd h hmigrated

/-- A file that is there is not migrated to. -/
theorem migrate_of_readSnap (hread : readSnap disk snapPath = some data) :
    migrateSnapExtension disk snapPath = ([], disk) := by
  obtain ⟨file, hfile, -⟩ := Option.map_eq_some_iff.mp hread
  exact if_pos (congrArg Option.isSome hfile)

/-- A check against a file that is there with the value holds. -/
theorem holds_of_body {update : Bool} (hread : readSnap disk snapPath = some data)
    (hbody : data.body = normalizeNewlines value) :
    (checkImpl disk snapPath value inputFile location today update).Holds := by
  rw [Checked.Holds, checkImpl, migrate_of_readSnap hread]
  dsimp only
  rw [hread]
  dsimp only
  rw [if_pos hbody]
  exact ⟨rfl, rfl⟩

/-- A check against a file with something else is reported, unless the file is updated. -/
theorem not_holds_of_body (hread : readSnap disk snapPath = some data)
    (hbody : data.body ≠ normalizeNewlines value) :
    ¬(checkImpl disk snapPath value inputFile location today false).Holds := by
  rintro ⟨hreport, -⟩
  rw [checkImpl, migrate_of_readSnap hread] at hreport
  dsimp only at hreport
  rw [hread] at hreport
  dsimp only at hreport
  rw [if_neg hbody, if_neg Bool.false_ne_true] at hreport
  split at hreport
  · exact Option.some_ne_none _ hreport
  · exact Option.some_ne_none _ hreport

/-- A snapshot that is written is read back, and its value checked again, exactly when its
names and its date let it be. -/
theorem readSnap_written_iff (disk : Disk) (snapPath value inputFile location : Bytes)
    (today : Date) (update : Bool) (hsource : 0x0A ∉ fileName location)
    (hinput : 0x0A ∉ inputFile)
    (hwrote : (checkImpl disk snapPath value inputFile location today update).Wrote snapPath) :
    (readSnap (checkImpl disk snapPath value inputFile location today update).disk snapPath =
          some ⟨normalizeNewlines value, writtenDate disk snapPath today⟩ ∧
        ∀ inputFile' location' today' update',
          (checkImpl (checkImpl disk snapPath value inputFile location today update).disk
            snapPath value inputFile' location' today' update').Holds) ↔
      ReadsBack (fileName location) inputFile (writtenDate disk snapPath today) := by
  obtain ⟨createdAt, hfile, hdate⟩ := file_of_wrote hwrote
  obtain ⟨hnewline, hreturn⟩ := writtenDate_line disk snapPath today
  rw [← hdate] at hnewline hreturn ⊢
  have hiff := parseSnap_formatSnap_iff hsource hinput (not_mem_normalizeNewlines value)
    hnewline hreturn
  have hread : readSnap (checkImpl disk snapPath value inputFile location today update).disk
      snapPath = some (parseSnap (formatSnap (fileName location) inputFile
        (normalizeNewlines value) createdAt today)) := by
    rw [readSnap, hfile, Option.map_some]
  rw [← hiff, hread]
  constructor
  · exact fun h => Option.some.inj h.1
  · intro heq
    refine ⟨congrArg some heq, fun _ _ _ _ => holds_of_body hread ?_⟩
    rw [heq]

/-- A snapshot of another day is updated with a value that looks like a header. -/
theorem readSnap_written_sample :
    let disk : Disk := ⟨fun path => if path = ascii "s/t.snap.yml" then
      some (ascii "---\nsource: a.cpp\ncreated_at: 2024-01-02\n---\nold\n") else none,
      fun _ => true, fun _ _ => true⟩
    readSnap (checkImpl disk (ascii "s/t.snap.yml") (ascii "---\r\nnew\n") []
        (ascii "tests/a.cpp") ⟨2025, 3, 4⟩ true).disk (ascii "s/t.snap.yml") =
      some ⟨ascii "---\nnew\n", ascii "2024-01-02"⟩ := by
  intro disk
  have hdate : writtenDate disk (ascii "s/t.snap.yml") ⟨2025, 3, 4⟩ = ascii "2024-01-02" := by
    decide
  have hwrote : (checkImpl disk (ascii "s/t.snap.yml") (ascii "---\r\nnew\n") []
      (ascii "tests/a.cpp") ⟨2025, 3, 4⟩ true).Wrote (ascii "s/t.snap.yml") :=
    .inr (by decide)
  have hreads : ReadsBack (fileName (ascii "tests/a.cpp")) [] (ascii "2024-01-02") :=
    ⟨by decide, by decide, by decide, by decide⟩
  have hiff := readSnap_written_iff disk (ascii "s/t.snap.yml") (ascii "---\r\nnew\n") []
    (ascii "tests/a.cpp") ⟨2025, 3, 4⟩ true (by decide) (by decide) hwrote
  rw [hdate] at hiff
  exact (hiff.mpr hreads).1

/-- The snapshot of a file whose name ends in three dashes is created, and is not read back:
the second check of its value fails. -/
theorem readSnap_created_fails :
    let disk : Disk := ⟨fun _ => none, fun _ => true, fun _ _ => true⟩
    let created := checkImpl disk (ascii "s/t/a---.snap.yml") (ascii "v") (ascii "a---")
      (ascii "tests/a.cpp") ⟨2024, 1, 2⟩ false
    created.Wrote (ascii "s/t/a---.snap.yml") ∧
      readSnap created.disk (ascii "s/t/a---.snap.yml") ≠
        some ⟨ascii "v", writtenDate disk (ascii "s/t/a---.snap.yml") ⟨2024, 1, 2⟩⟩ ∧
      ¬(checkImpl created.disk (ascii "s/t/a---.snap.yml") (ascii "v") (ascii "a---")
        (ascii "tests/a.cpp") ⟨2024, 1, 2⟩ false).Holds := by
  intro disk created
  have hwrote : created.Wrote (ascii "s/t/a---.snap.yml") := .inl (by decide)
  obtain ⟨createdAt, hfile, hdate⟩ := file_of_wrote hwrote
  obtain ⟨hnewline, hreturn⟩ := writtenDate_line disk (ascii "s/t/a---.snap.yml") ⟨2024, 1, 2⟩
  rw [← hdate] at hnewline hreturn
  have hlong := (parseSnap_lines (not_mem_headerLines (by decide) (by decide) hnewline)
    (normalize_formatSnap (fileName (ascii "tests/a.cpp")) (ascii "a---")
      (not_mem_normalizeNewlines (ascii "v")) hreturn)).2
    ⟨ascii "input_file: a---", .tail _ (.tail _ (.head _)), by decide⟩
  have hread : readSnap created.disk (ascii "s/t/a---.snap.yml") = some (parseSnap
      (formatSnap (fileName (ascii "tests/a.cpp")) (ascii "a---")
        (normalizeNewlines (ascii "v")) createdAt ⟨2024, 1, 2⟩)) := by
    rw [readSnap, hfile, Option.map_some]
  refine ⟨hwrote, fun heq => ?_, not_holds_of_body hread fun heq => ?_⟩
  · rw [hread] at heq
    rw [Option.some.inj heq] at hlong
    exact absurd hlong (by decide)
  · rw [heq] at hlong
    exact absurd hlong (Nat.lt_irrefl _)

end Kotatsu.Zest
