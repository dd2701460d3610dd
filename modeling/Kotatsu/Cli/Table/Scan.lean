import Kotatsu.Cli.Table.Accept

/-!
# Scanning a table for an option

An element is tried against the entries of the table one after another. The scan keeps
the longest entry that accepts it, or stops at the first; it also remembers an entry that
misses a value, and the last flag of one letter that begins the element.
-/

namespace Kotatsu.Cli.Table

open Kotatsu.Core

/-- `ltrim_all_of`. -/
def ltrimAllOf (str : Bytes) (prefixes : List UInt8) : Bytes := str.dropWhile (· ∈ prefixes)

/-- `compare_insensitive`. -/
def compareInsensitive : Bytes → Bytes → Int
  | [], [] => 0
  | [], _ :: _ => -1
  | _ :: _, [] => 1
  | a :: as, b :: bs =>
    if safeTolower a = safeTolower b then compareInsensitive as bs
    else if (safeTolower a).toInt8 < (safeTolower b).toInt8 then -1
    else 1

/-- `str_cmp_opt_name`. -/
def strCmpOptName (a b : Bytes) (fallbackCaseSensitive : Bool) : Int :=
  let least := min a.length b.length
  let compared := compareInsensitive (a.take least) (b.take least)
  if compared ≠ 0 then compared
  else if a.length = b.length then
    if fallbackCaseSensitive then (if a < b then -1 else if b < a then 1 else 0) else 0
  else if a.length = least then 1
  else -1

/-- `OptNameLess`. -/
def optNameLess (i : OptionInfo) (name : Bytes) : Bool := strCmpOptName i.name name false < 0

/-- `search_range`. -/
def OptTable.searchRange (table : OptTable) : List OptionInfo :=
  table.optionInfos.drop (if table.searchIncludesInput then 0 else table.firstSearchableIndex)

/-- The entries a scan for `str` goes through: those `std::lower_bound` leaves of a sorted
table, all of another. -/
def OptTable.candidates (table : OptTable) (str : Bytes) : List OptionInfo :=
  if table.tablegenMode then
    table.searchRange.dropWhile (optNameLess · (ltrimAllOf str table.prefixChars))
  else table.searchRange

theorem OptTable.mem_of_mem_searchRange {table : OptTable} {o : OptionInfo}
    (h : o ∈ table.searchRange) : o ∈ table.optionInfos :=
  (List.drop_sublist _ _).subset h

theorem OptTable.mem_of_mem_candidates {table : OptTable} {str : Bytes} {o : OptionInfo}
    (h : o ∈ table.candidates str) : o ∈ table.optionInfos := by
  unfold candidates at h
  split at h
  · exact mem_of_mem_searchRange ((List.dropWhile_sublist _).subset h)
  · exact mem_of_mem_searchRange h

/-- `ScanResult`. -/
structure ScanResult where
  result : AcceptResult := .noMatch
  out : ParsedArg := {}
  newIndex : Nat := 0
  fallbackFlag : Option OptionInfo := none

/-- The variables of the loop of `scan_and_accept`. -/
structure ScanState where
  result : ScanResult := {}
  bestMatchSize : Nat := 0
  bestIndex : Nat
  missingMatchSize : Nat := 0
  missingIndex : Nat

section

variable (table : OptTable) (args : Args) (index : Nat) (options : ParseOptions)

/-- What an entry makes of the element, with how much of it is its name; nothing when the
entry is passed over. -/
def tryOption (it : OptionInfo) : Option (Nat × Accepted) :=
  let argSz := matchOpt it (args.at' index).text table.ignoreCase
  if argSz = 0 then none
  else if options.excludes it then none
  else some (argSz, acceptOpt table it args ((args.at' index).text.take argSz) false index)

/-- The end of `scan_and_accept`. -/
def ScanState.finish (s : ScanState) : ScanResult :=
  if 0 < s.bestMatchSize then { s.result with result := .matched, newIndex := s.bestIndex }
  else if s.missingMatchSize ≠ 0 then
    { s.result with
      result := .missingValue
      out := { s.result.out with index }
      newIndex := s.missingIndex }
  else s.result

/-- The loop of `scan_and_accept`. -/
def scanLoop (firstMatch : Bool) (s : ScanState) : List OptionInfo → ScanResult
  | [] => s.finish index
  | it :: rest =>
    match tryOption table args index options it with
    | none => scanLoop firstMatch s rest
    | some (argSz, tried) =>
      if tried.result = .matched then
        if firstMatch then
          { s.result with result := .matched, out := tried.out, newIndex := tried.index }
        else if s.bestMatchSize < argSz then
          scanLoop firstMatch { s with
            result := { s.result with out := tried.out }
            bestMatchSize := argSz
            bestIndex := tried.index } rest
        else scanLoop firstMatch s rest
      else
        let fallbackFlag :=
          if argSz = 2 ∧ it.kind = .flag then some it else s.result.fallbackFlag
        let s := { s with result := { s.result with fallbackFlag } }
        if tried.index ≠ index then
          if firstMatch then
            { s.result with
              result := .missingValue
              out := { s.result.out with index }
              newIndex := tried.index }
          else if s.missingMatchSize < argSz then
            scanLoop firstMatch
              { s with missingIndex := tried.index, missingMatchSize := argSz } rest
          else scanLoop firstMatch s rest
        else scanLoop firstMatch s rest

/-- `scan_and_accept`, over the whole search range. -/
def scanAndAccept (firstMatch : Bool) : ScanResult :=
  scanLoop table args index options firstMatch { bestIndex := index, missingIndex := index }
    (table.candidates (args.at' index).text)

/-- `is_known_option`'s switch: the kinds whose name is less than an element. -/
def OptionKind.takesJoined : OptionKind → Bool
  | .joined | .commaJoined | .joinedOrSeparate | .joinedAndSeparate | .remainingArgsJoined => true
  | _ => false

/-- `is_known_option`. -/
def isKnownOption (arg : Bytes) : Bool :=
  table.searchRange.any fun s =>
    let argSz := matchOpt s arg table.ignoreCase
    argSz ≠ 0 && (argSz = arg.length || s.kind.takesJoined) && !options.excludes s

/-- `is_input`. -/
def OptTable.isInput (arg : Bytes) : Bool :=
  arg = [dashByte] || !table.prefixesUnion.any (·.isPrefixOf arg)

/-- The loop of `consume_unknown_values` with `n` elements ahead: where it stops. -/
def consumeLoop : Nat → Nat → Nat
  | 0, index => index
  | n + 1, index =>
    let next := (args.at' index).text
    if next = [dashByte, dashByte] then index
    else if !table.isInput next && isKnownOption table options next then index
    else consumeLoop n (index + 1)

/-- `consume_unknown_values`: the new index and the values. -/
def consumeUnknownValues : Nat × List View :=
  let stop := consumeLoop table args options (args.size - index) index
  (stop, (List.range' index (stop - index)).map args.at')

end

section

variable {table : OptTable} {args : Args} {index : Nat} {options : ParseOptions}

/-! ## What a scan finds -/

/-- A flag whose name is the first two bytes of a longer element. -/
structure IsLetter (table : OptTable) (args : Args) (index : Nat) (options : ParseOptions)
    (o : OptionInfo) : Prop where
  candidate : o ∈ table.candidates (args.at' index).text
  kind : o.kind = .flag
  name : matchOpt o (args.at' index).text table.ignoreCase = 2
  included : options.excludes o = false
  longer : 2 < (args.at' index).text.length

theorem tryOption_some {it : OptionInfo} {argSz : Nat} {tried : Accepted}
    (h : tryOption table args index options it = some (argSz, tried)) :
    0 < argSz ∧ argSz = matchOpt it (args.at' index).text table.ignoreCase ∧
      options.excludes it = false ∧
      tried = acceptOpt table it args ((args.at' index).text.take argSz) false index := by
  unfold tryOption at h
  simp only at h
  split at h
  · cases h
  · next hne =>
    split at h
    · cases h
    · next hincluded =>
      simp only [Option.some.injEq, Prod.mk.injEq] at h
      obtain ⟨rfl, rfl⟩ := h
      exact ⟨Nat.pos_of_ne_zero hne, rfl, Bool.eq_false_iff.mpr hincluded, rfl⟩

theorem tryOption_sound {it : OptionInfo} {argSz : Nat} {tried : Accepted}
    (hsize : args.size + 256 ≤ 2 ^ 32) (hindex : index < args.size) (hit : it ∈ table.optionInfos)
    (h : tryOption table args index options it = some (argSz, tried)) :
    tried.Sound table args index := by
  obtain ⟨hpos, hargSz, -, rfl⟩ := tryOption_some h
  have hle : argSz ≤ (args.at' index).text.length := hargSz ▸ matchOpt_le _ _ _
  have hlength : ((args.at' index).text.take argSz).length = argSz := by
    rw [List.length_take, min_eq_left hle]
  exact acceptOpt_sound hit hsize hindex (by omega) (by omega)

/-- A flag that begins the element and does not accept it is shorter. -/
theorem longer_of_flag {it : OptionInfo} {argSz : Nat} {tried : Accepted}
    (h : tryOption table args index options it = some (argSz, tried)) (hkind : it.kind = .flag)
    (hne : tried.result ≠ .matched) : argSz < (args.at' index).text.length := by
  obtain ⟨-, hargSz, -, rfl⟩ := tryOption_some h
  have hle : argSz ≤ (args.at' index).text.length := hargSz ▸ matchOpt_le _ _ _
  refine lt_of_le_of_ne hle fun heq => hne ?_
  have hlength : ((args.at' index).text.take argSz).length = (args.at' index).text.length := by
    rw [List.length_take, min_eq_left hle, heq]
  simp only [acceptOpt, Bool.false_and, Bool.false_eq_true, if_false, acceptInternal, hkind,
    hlength, not_true, ne_eq]

/-- What a scan can find. -/
structure ScanResult.Sound (table : OptTable) (args : Args) (index : Nat)
    (options : ParseOptions) (r : ScanResult) : Prop where
  matched : r.result = .matched → r.out.index = index ∧ index < r.newIndex ∧
    r.newIndex ≤ args.size ∧ ∀ v ∈ r.out.values, table.Owns args index r.newIndex v
  missing : r.result = .missingValue → args.size < r.newIndex
  fallback : ∀ o ∈ r.fallbackFlag, IsLetter table args index options o

/-- What a scan has found when it looks at an entry. -/
structure ScanState.Inv (table : OptTable) (args : Args) (index : Nat) (options : ParseOptions)
    (s : ScanState) : Prop where
  undecided : s.result.result = .noMatch
  best : 0 < s.bestMatchSize → s.result.out.index = index ∧ index < s.bestIndex ∧
    s.bestIndex ≤ args.size ∧ ∀ v ∈ s.result.out.values, table.Owns args index s.bestIndex v
  missing : s.missingMatchSize ≠ 0 → args.size < s.missingIndex
  fallback : ∀ o ∈ s.result.fallbackFlag, IsLetter table args index options o

theorem ScanState.Inv.finish {s : ScanState} (h : s.Inv table args index options) :
    (s.finish index).Sound table args index options := by
  unfold ScanState.finish
  split
  · next hbest => exact ⟨fun _ => h.best hbest, fun hm => (by cases hm), h.fallback⟩
  · split
    · next hmissing => exact ⟨fun hm => (by cases hm), fun _ => h.missing hmissing, h.fallback⟩
    · refine ⟨fun hm => ?_, fun hm => ?_, h.fallback⟩
      · rw [h.undecided] at hm
        cases hm
      · rw [h.undecided] at hm
        cases hm

theorem scanLoop_sound {firstMatch : Bool} {s : ScanState} {its : List OptionInfo}
    (hsize : args.size + 256 ≤ 2 ^ 32) (hindex : index < args.size)
    (hits : ∀ it ∈ its, it ∈ table.candidates (args.at' index).text)
    (h : s.Inv table args index options) :
    (scanLoop table args index options firstMatch s its).Sound table args index options := by
  induction its generalizing s with
  | nil => exact h.finish
  | cons it its ih =>
    have hit := hits it List.mem_cons_self
    have ih : ∀ {s : ScanState}, s.Inv table args index options →
        (scanLoop table args index options firstMatch s its).Sound table args index options :=
      fun h => ih (fun o ho => hits o (List.mem_cons_of_mem _ ho)) h
    rw [scanLoop]
    cases htry : tryOption table args index options it with
    | none => exact ih h
    | some found =>
      obtain ⟨argSz, tried⟩ := found
      obtain ⟨hpos, hargSz, hincluded, -⟩ := tryOption_some htry
      have hsound := tryOption_sound hsize hindex (OptTable.mem_of_mem_candidates hit) htry
      have hfallback : tried.result ≠ .matched → ∀ o ∈ (if argSz = 2 ∧ it.kind = .flag then some it
          else s.result.fallbackFlag), IsLetter table args index options o := by
        intro hne o ho
        split at ho
        · next hletter =>
          cases ho
          have hlonger := longer_of_flag htry hletter.2 hne
          exact ⟨hit, hletter.2, hargSz ▸ hletter.1, hincluded, hletter.1 ▸ hlonger⟩
        · exact h.fallback o ho
      cases hsound with
      | @matched next out hat hlt hle howns =>
        have hfound : out.index = index ∧ index < next ∧ next ≤ args.size ∧
            ∀ v ∈ out.values, table.Owns args index next v := ⟨hat, hlt, hle, howns⟩
        simp only [if_true]
        split
        · exact ⟨fun _ => hfound, fun hm => (by cases hm), h.fallback⟩
        · split
          · exact ih ⟨h.undecided, fun _ => hfound, h.missing, h.fallback⟩
          · exact ih h
      | noMatch =>
        simp only [reduceCtorEq, ne_eq, not_true, if_false]
        exact ih ⟨h.undecided, h.best, h.missing, hfallback AcceptResult.noConfusion⟩
      | @missing next out hlt =>
        have hne : next ≠ index := by omega
        have hfallback := hfallback AcceptResult.noConfusion
        simp only [reduceCtorEq, if_false, ne_eq, hne, not_false_eq_true, if_true]
        split
        · exact ⟨fun hm => (by cases hm), fun _ => hlt, hfallback⟩
        · split
          · exact ih ⟨h.undecided, h.best, fun _ => hlt, hfallback⟩
          · exact ih ⟨h.undecided, h.best, h.missing, hfallback⟩

theorem scanAndAccept_sound {firstMatch : Bool} (hsize : args.size + 256 ≤ 2 ^ 32)
    (hindex : index < args.size) :
    (scanAndAccept table args index options firstMatch).Sound table args index options := by
  refine scanLoop_sound hsize hindex (fun _ h => h) ⟨rfl, fun h => ?_, fun h => ?_, fun o ho => ?_⟩
  · exact absurd h (Nat.lt_irrefl 0)
  · exact absurd rfl h
  · cases ho

/-! ## An element no option accepts -/

/-- An entry does not accept the element, nor miss a value in it. -/
def Refuses (table : OptTable) (args : Args) (index : Nat) (options : ParseOptions)
    (it : OptionInfo) : Prop :=
  ∀ argSz tried, tryOption table args index options it = some (argSz, tried) →
    tried.result = .noMatch

instance (it : OptionInfo) : Decidable (Refuses table args index options it) :=
  decidable_of_iff (∀ found ∈ tryOption table args index options it, found.2.result = .noMatch)
    ⟨fun h argSz tried hfound => h (argSz, tried) hfound,
      fun h found hfound => h found.1 found.2 hfound⟩

theorem scanLoop_refused {firstMatch : Bool} {s : ScanState} {its : List OptionInfo}
    (hsize : args.size + 256 ≤ 2 ^ 32) (hindex : index < args.size)
    (hits : ∀ it ∈ its, it ∈ table.candidates (args.at' index).text)
    (hrefuse : ∀ it ∈ its, Refuses table args index options it)
    (hresult : s.result.result = .noMatch) (hbest : s.bestMatchSize = 0)
    (hmissing : s.missingMatchSize = 0) :
    (scanLoop table args index options firstMatch s its).result = .noMatch ∧
      (s.result.fallbackFlag.isSome ∨ (∃ o ∈ its, IsLetter table args index options o) →
        (scanLoop table args index options firstMatch s its).fallbackFlag.isSome) := by
  induction its generalizing s with
  | nil =>
    have hfinish : s.finish index = s.result := by
      rw [ScanState.finish, if_neg (by omega), if_neg (not_not.mpr hmissing)]
    rw [scanLoop, hfinish]
    refine ⟨hresult, fun h => h.elim id ?_⟩
    rintro ⟨o, ho, -⟩
    exact absurd ho List.not_mem_nil
  | cons it its ih =>
    have hit := hits it List.mem_cons_self
    have ih : ∀ {s : ScanState}, s.result.result = .noMatch → s.bestMatchSize = 0 →
        s.missingMatchSize = 0 → _ := fun {s} => @ih s
      (fun o ho => hits o (List.mem_cons_of_mem _ ho))
      (fun o ho => hrefuse o (List.mem_cons_of_mem _ ho))
    rw [scanLoop]
    cases htry : tryOption table args index options it with
    | none =>
      obtain ⟨hno, hflag⟩ := ih hresult hbest hmissing
      refine ⟨hno, fun h => hflag (h.imp_right ?_)⟩
      rintro ⟨o, ho, hletter⟩
      obtain rfl | ho := List.mem_cons.mp ho
      · have hname := hletter.name
        simp only [tryOption, hname, hletter.included] at htry
        cases htry
      · exact ⟨o, ho, hletter⟩
    | some found =>
      obtain ⟨argSz, tried⟩ := found
      obtain ⟨-, hargSz, -, -⟩ := tryOption_some htry
      have hsound := tryOption_sound hsize hindex (OptTable.mem_of_mem_candidates hit) htry
      have hno := hrefuse it List.mem_cons_self argSz tried htry
      cases hsound with
      | matched => cases hno
      | missing => cases hno
      | noMatch =>
        simp only [reduceCtorEq, ne_eq, not_true, if_false]
        obtain ⟨hno, hflag⟩ := ih (s := { s with result := { s.result with
          fallbackFlag := if argSz = 2 ∧ it.kind = .flag then some it
            else s.result.fallbackFlag } }) hresult hbest hmissing
        refine ⟨hno, fun h => hflag ?_⟩
        by_cases hletter : argSz = 2 ∧ it.kind = .flag
        · exact .inl (by rw [if_pos hletter]; rfl)
        · rw [if_neg hletter]
          refine h.imp_right ?_
          rintro ⟨o, ho, hfirst⟩
          obtain rfl | ho := List.mem_cons.mp ho
          · exact absurd ⟨hargSz.trans hfirst.name, hfirst.kind⟩ hletter
          · exact ⟨o, ho, hfirst⟩

/-- With a flag of one letter that begins it, an element no option accepts is a group. -/
theorem scanAndAccept_refused {firstMatch : Bool} (hsize : args.size + 256 ≤ 2 ^ 32)
    (hindex : index < args.size)
    (hrefuse : ∀ it ∈ table.candidates (args.at' index).text,
      Refuses table args index options it)
    {o : OptionInfo} (ho : IsLetter table args index options o) :
    (scanAndAccept table args index options firstMatch).result = .noMatch ∧
      (scanAndAccept table args index options firstMatch).fallbackFlag.isSome := by
  have hscan : ∀ {s : ScanState}, s.result.result = .noMatch → s.bestMatchSize = 0 →
      s.missingMatchSize = 0 → _ :=
    fun {s} => @scanLoop_refused table args index options firstMatch s _ hsize hindex
      (fun _ h => h) hrefuse
  obtain ⟨hno, hflag⟩ := @hscan { bestIndex := index, missingIndex := index } rfl rfl rfl
  exact ⟨hno, hflag (.inr ⟨o, ho.candidate, ho⟩)⟩

/-! ## What is seen of a scan -/

/-- Two results that look the same. -/
structure ScanResult.Same (a b : ScanResult) : Prop where
  result_eq : a.result = b.result
  index_eq : a.newIndex = b.newIndex
  flag_eq : a.fallbackFlag = b.fallbackFlag
  seen_eq : a.out.seen = b.out.seen

/-- Two states of a scan that look the same. -/
structure ScanState.Same (s t : ScanState) : Prop where
  result_same : s.result.Same t.result
  bestSize_eq : s.bestMatchSize = t.bestMatchSize
  bestIndex_eq : s.bestIndex = t.bestIndex
  missingSize_eq : s.missingMatchSize = t.missingMatchSize
  missingIndex_eq : s.missingIndex = t.missingIndex

variable {args' : Args}

theorem seen_index {a b : ParsedArg} (h : a.seen = b.seen) (index : Nat) :
    ({ a with index } : ParsedArg).seen = ({ b with index } : ParsedArg).seen := by
  simp only [ParsedArg.seen, Seen.mk.injEq] at h
  simp only [ParsedArg.seen, h]

theorem ScanState.Same.finish {s t : ScanState} (h : s.Same t) :
    (s.finish index).Same (t.finish index) := by
  obtain ⟨⟨hresult, hindex, hflag, hseen⟩, hbest, hbestIndex, hmissing, hmissingIndex⟩ := h
  unfold ScanState.finish
  rw [hbest, hmissing]
  split
  · exact ⟨rfl, hbestIndex, hflag, hseen⟩
  · split
    · exact ⟨rfl, hmissingIndex, hflag, seen_index hseen index⟩
    · exact ⟨hresult, hindex, hflag, hseen⟩

/-- An entry that is passed over is so in both argvs, and one that is tried does the same. -/
theorem tryOption_same (hagree : args.Agree args' index) (hsize : args.size + 256 ≤ 2 ^ 32)
    (hindex : index < args.size) (it : OptionInfo) :
    (tryOption table args index options it = none ∧
        tryOption table args' index options it = none) ∨
      ∃ argSz tried tried', tryOption table args index options it = some (argSz, tried) ∧
        tryOption table args' index options it = some (argSz, tried') ∧ tried.Same tried' := by
  have htext := hagree.text_eq index le_rfl
  simp only [tryOption, ← htext]
  split
  · exact .inl ⟨rfl, rfl⟩
  · split
    · exact .inl ⟨rfl, rfl⟩
    · exact .inr ⟨_, _, _, rfl, rfl, acceptOpt_same hagree hsize hindex⟩

theorem scanLoop_same {firstMatch : Bool} {s t : ScanState} (its : List OptionInfo)
    (hagree : args.Agree args' index) (hsize : args.size + 256 ≤ 2 ^ 32)
    (hindex : index < args.size) (h : s.Same t) :
    (scanLoop table args index options firstMatch s its).Same
      (scanLoop table args' index options firstMatch t its) := by
  induction its generalizing s t with
  | nil => exact h.finish
  | cons it its ih =>
    have htry : (tryOption table args index options it = none ∧
        tryOption table args' index options it = none) ∨ _ :=
      tryOption_same hagree hsize hindex it
    obtain ⟨⟨result, out, newIndex, flag⟩, best, bestIndex, missing, missingIndex⟩ := s
    obtain ⟨⟨result', out', newIndex', flag'⟩, best', bestIndex', missing', missingIndex'⟩ := t
    obtain ⟨⟨rfl, rfl, rfl, hseen⟩, rfl, rfl, rfl, rfl⟩ := h
    have hkeep : ∀ flag best bestIndex missing missingIndex,
        (⟨⟨result, out, newIndex, flag⟩, best, bestIndex, missing, missingIndex⟩ : ScanState).Same
          ⟨⟨result, out', newIndex, flag⟩, best, bestIndex, missing, missingIndex⟩ :=
      fun _ _ _ _ _ => ⟨⟨rfl, rfl, rfl, hseen⟩, rfl, rfl, rfl, rfl⟩
    rw [scanLoop, scanLoop]
    obtain ⟨hnone, hnone'⟩ | ⟨argSz, tried, tried', hsome, hsome', hsame⟩ := htry
    · rw [hnone, hnone']
      exact ih (hkeep _ _ _ _ _)
    · rw [hsome, hsome']
      simp only [← hsame.result_eq, ← hsame.index_eq]
      split
      · split
        · exact ⟨rfl, rfl, rfl, hsame.seen_eq⟩
        · split
          · exact ih ⟨⟨rfl, rfl, rfl, hsame.seen_eq⟩, rfl, rfl, rfl, rfl⟩
          · exact ih (hkeep _ _ _ _ _)
      · split
        · split
          · exact ⟨rfl, rfl, rfl, seen_index hseen index⟩
          · split
            · exact ih (hkeep _ _ _ _ _)
            · exact ih (hkeep _ _ _ _ _)
        · exact ih (hkeep _ _ _ _ _)

theorem scanAndAccept_same {firstMatch : Bool} (hagree : args.Agree args' index)
    (hsize : args.size + 256 ≤ 2 ^ 32) (hindex : index < args.size) :
    (scanAndAccept table args index options firstMatch).Same
      (scanAndAccept table args' index options firstMatch) := by
  rw [scanAndAccept, scanAndAccept, ← hagree.text_eq index le_rfl]
  exact scanLoop_same _ hagree hsize hindex ⟨⟨rfl, rfl, rfl, rfl⟩, rfl, rfl, rfl, rfl⟩

/-! ## What an unknown option swallows -/

theorem consumeLoop_bounds (n index : Nat) :
    index ≤ consumeLoop table args options n index ∧
      consumeLoop table args options n index ≤ index + n := by
  induction n generalizing index with
  | zero => exact ⟨le_rfl, le_rfl⟩
  | succ n ih =>
    obtain ⟨hle, hge⟩ := ih (index + 1)
    rw [consumeLoop]
    split
    · omega
    · split <;> omega

theorem consumeUnknownValues_spec (hle : index ≤ args.size) {low : Nat} (hlow : low < index) :
    index ≤ (consumeUnknownValues table args index options).1 ∧
      (consumeUnknownValues table args index options).1 ≤ args.size ∧
      ∀ v ∈ (consumeUnknownValues table args index options).2,
        args.Takes low (consumeUnknownValues table args index options).1 v := by
  obtain ⟨hge, hstop⟩ := @consumeLoop_bounds table args options (args.size - index) index
  refine ⟨hge, ?_, fun v hv => ?_⟩
  · rw [consumeUnknownValues]
    omega
  · obtain ⟨j, hj, rfl⟩ := List.mem_map.mp hv
    rw [List.mem_range'_1] at hj
    rw [consumeUnknownValues]
    exact Args.takes_at' (by omega) (by omega)

theorem consumeLoop_same {n : Nat} (hagree : args.Agree args' index) :
    consumeLoop table args options n index = consumeLoop table args' options n index := by
  induction n generalizing index with
  | zero => rfl
  | succ n ih =>
    rw [consumeLoop, consumeLoop, ← hagree.text_eq index le_rfl, ih (hagree.mono (by omega))]

theorem consumeUnknownValues_same (hagree : args.Agree args' index) :
    (consumeUnknownValues table args index options).1 =
        (consumeUnknownValues table args' index options).1 ∧
      (consumeUnknownValues table args index options).2.map View.text =
        (consumeUnknownValues table args' index options).2.map View.text := by
  simp only [consumeUnknownValues, ← hagree.size_eq, ← consumeLoop_same hagree, true_and,
    List.map_map]
  refine List.map_congr_left fun j hj => ?_
  rw [List.mem_range'_1] at hj
  exact hagree.text_eq j hj.1

end

end Kotatsu.Cli.Table
