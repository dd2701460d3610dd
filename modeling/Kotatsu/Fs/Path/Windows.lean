import Kotatsu.Fs.Path.Join
import Kotatsu.Fs.Path.Ancestors

/-!
# Windows paths written again

`normalize` and `relative` write names where others stood before. A name that comes to the
front of a relative path may spell a drive, a name behind an incomplete prefix completes
it, and the separators of a device may become those of a verbatim prefix. These are the
only ways in which the root of a path changes.
-/

namespace Kotatsu.Fs.Path

open Kotatsu.Core

/-! ### What is to be kept -/

/-- The name of a root with its separators spelled one way. -/
def canonical (r : Root) : Bytes :=
  r.name.map fun c => if separates .windows r.kind c then backslash else c

/-- Two roots have the same prefix, up to separators, and both are rooted or neither is. -/
structure SameRoot (a b : Root) : Prop where
  kind : a.kind = b.kind
  name : canonical a = canonical b
  rooted : rooted a = rooted b

/-- `normalize` keeps the root of a path and, done again, changes nothing. -/
def NormalizeKeeps (p : Bytes) (mode : DotDot) : Prop :=
  ∃ q, normalize p mode .windows = some q ∧ SameRoot (root q .windows) (root p .windows) ∧
    normalize q mode .windows = some q

/-- What `relative` tells has no root, so that joining it keeps the base. -/
def RelativeKeeps (p base : Bytes) : Prop :=
  ∀ out, relative p base .windows = some out →
    (root out .windows).kind = .none ∧ (root out .windows).directory = [] ∧
      base <+: push base out .windows

/-- A prefix that a name behind it would become part of. -/
def incomplete (r : Root) : Bool :=
  match r.kind with
  | .unc => (r.name.drop 2).all (!isSep ·)
  | .device | .verbatim => r.name.length == 3
  | .verbatimUnc => (r.name.drop 8).all (!isBack ·)
  | _ => false

/-- The start of a device, whose separators are all written like its first one. -/
def spellsVerbatim (r : Root) : Bool :=
  r.kind == .device && r.name.take 1 == [backslash] && (r.name.drop 2).take 1 == [question]

/-- The names left of a path neither bring a drive to the front of a relative one nor stand
behind an incomplete prefix, and no device is written like a verbatim prefix. -/
structure RootStays (p : Bytes) (mode : DotDot) : Prop where
  drive : (root p .windows).text = [] →
    ∀ n ∈ (reading p mode .windows).head?, startsWithDrive n = false
  complete : incomplete (root p .windows) = true → reading p mode .windows = []
  device : spellsVerbatim (root p .windows) = false

/-- Where the base leads to a directory above the path, the next name of the path neither
starts with a drive nor with a slash. -/
def LeadsByName (p base : Bytes) : Prop :=
  sameRoot (root p .windows) (root base .windows) .windows = true →
    (∀ w ∈ (components base .windows).drop
      (commonLength (components p .windows) (components base .windows)), w = dot) →
    ∀ n ∈ ((components p .windows).drop
      (commonLength (components p .windows) (components base .windows))).head?,
      startsWithDrive n = false ∧ n.head? ≠ some slash

/-! ### The text behind a prefix -/

variable {p : Bytes} {mode : DotDot}

/-- What `normalize` writes behind the prefix. -/
def spelledRest (r : Root) (sep : UInt8) (names : List Bytes) : Bytes :=
  (if r.directory.isEmpty then [] else [sep]) ++ [sep].intercalate names

/-- The name of the prefix as `normalize` writes it. -/
def spelledName (r : Root) (sep : UInt8) : Bytes := r.name.map (respell r.kind .windows sep)

theorem spelled_windows (r : Root) (sep : UInt8) (names : List Bytes) :
    spelled r .windows sep names = spelledName r sep ++ spelledRest r sep names := by
  rw [spelled, rootText, spelledName, spelledRest, List.append_assoc]

/-- The names that a Windows path can have behind a prefix. -/
def NamesOf (kind : Prefix) (names : List Bytes) : Prop :=
  ∀ w ∈ names, IsName (separates .windows kind) w

theorem namesOf_reading (p : Bytes) (mode : DotDot) :
    NamesOf (root p .windows).kind (reading p mode .windows) := by
  intro w hw
  obtain ⟨hne, hsep⟩ := mem_components (mem_of_mem_lexical hw)
  exact ⟨hne, hsep⟩

/-- The separator that is written is one. -/
theorem separates_sepOf (p : Bytes) :
    separates .windows (root p .windows).kind (sepOf p .windows) = true := by
  rw [sepOf, separatorOf]
  cases hv : isVerbatim (root p .windows).kind with
  | true => rw [separates_verbatim hv]; rfl
  | false =>
    rw [separates_windows hv, if_neg Bool.false_ne_true]
    cases hfind : p.find? (isSeparator · .windows) with
    | none => rfl
    | some c =>
      have hc := List.find?_some hfind
      rw [← isSeparator_windows]
      exact hc

variable {sep c : UInt8} {r : Root} {names : List Bytes} {kind : Prefix} {n rest name : Bytes}

/-- A first name is followed by the end or by a separator. -/
theorem intercalate_cons_ends (look : UInt8 → Bool) (hsep : look sep = true) (names : List Bytes) :
    Ends look (names.flatMap (sep :: ·)) := by
  cases names with
  | nil => exact Ends.nil
  | cons w names =>
    rw [List.flatMap_cons]
    exact Ends.cons hsep

/-- Behind a prefix that ends with a separator or the path, the rest does so too. -/
theorem spelledRest_ends {look : UInt8 → Bool} (hsep : look sep = true)
    (h : r.directory = [] → names = []) : Ends look (spelledRest r sep names) := by
  rw [spelledRest]
  by_cases hdir : r.directory = []
  · rw [hdir, h hdir]
    exact Ends.nil
  · rw [if_neg (by simpa using hdir)]
    exact Ends.cons hsep

/-- The rest when no name is left. -/
theorem spelledRest_nil_drop (r : Root) (sep : UInt8) : (spelledRest r sep []).drop 1 = [] := by
  rw [spelledRest]
  cases r.directory.isEmpty <;> rfl

theorem respell_of_not_verbatim (kind : Prefix) (h : isVerbatim kind = false) (sep : UInt8) :
    respell kind .windows sep c = if isSep c then sep else c := by
  rw [respell, h, congrFun isSeparator_windows c]
  rfl

theorem respell_of_verbatim (h : isVerbatim kind = true) (sep c : UInt8) :
    respell kind .windows sep c = c := by
  rw [respell, h]
  rfl

theorem map_respell_name (kind : Prefix) (h : isVerbatim kind = false) (sep : UInt8) {w : Bytes}
    (hw : ∀ c ∈ w, isSep c = false) : w.map (respell kind .windows sep) = w := by
  conv_rhs => rw [← List.map_id w]
  refine List.map_congr_left fun c hc => ?_
  rw [respell_of_not_verbatim kind h, hw c hc]
  rfl

theorem map_respell_verbatim (kind : Prefix) (h : isVerbatim kind = true) (sep : UInt8)
    (w : Bytes) : w.map (respell kind .windows sep) = w := by
  conv_rhs => rw [← List.map_id w]
  exact List.map_congr_left fun c _ => respell_of_verbatim h sep c

theorem respell_sep (kind : Prefix) (h : isVerbatim kind = false) (sep : UInt8)
    (hc : isSep c = true) : respell kind .windows sep c = sep := by
  rw [respell_of_not_verbatim kind h, hc]
  rfl

theorem startsWithDrive_eq_true {text : Bytes} (h : startsWithDrive text = true) :
    ∃ letter tail, text = letter :: colon :: tail ∧ isAsciiLetter letter = true := by
  rcases text with _ | ⟨letter, _ | ⟨c, tail⟩⟩
  · cases h
  · cases h
  · rw [startsWithDrive, Bool.and_eq_true, beq_iff_eq] at h
    obtain ⟨hletter, rfl⟩ := h
    exact ⟨letter, tail, rfl, hletter⟩

/-- The text of a name and of what follows starts with a drive only if the name does. -/
theorem startsWithDrive_append {w rest : Bytes} (hne : w ≠ [])
    (hrest : ∀ c ∈ rest.head?, c ≠ colon) :
    startsWithDrive (w ++ rest) = startsWithDrive w := by
  match w, hne with
  | [c], _ =>
    cases rest with
    | nil => rfl
    | cons d rest =>
      have hd : (d == colon) = false := by simpa using hrest d rfl
      have hdef : startsWithDrive ([c] ++ d :: rest) = (isAsciiLetter c && d == colon) := rfl
      rw [hdef, hd, Bool.and_false]
      rfl
  | _ :: _ :: _, _ => rfl

theorem ne_colon_of_isSep (h : isSep c = true) : c ≠ colon := by
  rintro rfl
  cases h

theorem isSep_of_separates (h : separates .windows kind c = true) : isSep c = true := by
  cases hv : isVerbatim kind with
  | true =>
    rw [separates_verbatim hv] at h
    rw [isSep, Bool.or_eq_true]
    exact .inr h
  | false => rwa [separates_windows hv] at h

/-- Names joined at the front of a path spell a drive only if the first one does. -/
theorem startsWithDrive_intercalate (hsep : isSep sep = true) (hn : n ≠ []) (names : List Bytes) :
    startsWithDrive ([sep].intercalate (n :: names)) = startsWithDrive n := by
  rw [intercalate_cons]
  refine startsWithDrive_append hn fun c hc => ?_
  exact ne_colon_of_isSep (intercalate_cons_ends isSep hsep names c hc)

/-! ### Prefixes as they are written -/

theorem isSep_of_letter (h : isAsciiLetter c = true) : isSep c = false := by
  rw [Bool.eq_false_iff]
  intro hc
  rw [isSep, Bool.or_eq_true, beq_iff_eq, beq_iff_eq] at hc
  obtain rfl | rfl := hc
  · cases h
  · cases h

/-- A name, also behind a separator, starts no prefix but a drive. -/
theorem starts_plain {text : Bytes} (hsep : isSep sep = true)
    (htext : ∀ c ∈ text.head?, isSep c = false) :
    startsWithServer text = false ∧ startsWithServer (sep :: text) = false ∧
      startsWithDrive (sep :: text) = false := by
  have hletter : isAsciiLetter sep = false := Bool.eq_false_iff.mpr fun h =>
    absurd (hsep.symm.trans (isSep_of_letter h)) (by decide)
  rcases text with _ | ⟨c, _ | ⟨d, _ | ⟨e, text⟩⟩⟩
  · exact ⟨rfl, rfl, rfl⟩
  · exact ⟨rfl, rfl, by rw [startsWithDrive, hletter]; rfl⟩
  · refine ⟨rfl, ?_, by rw [startsWithDrive, hletter]; rfl⟩
    rw [startsWithServer, htext c rfl, Bool.and_false, Bool.false_and]
  · refine ⟨?_, ?_, by rw [startsWithDrive, hletter]; rfl⟩
    · rw [startsWithServer, htext c rfl, Bool.false_and, Bool.false_and]
    · rw [startsWithServer, htext c rfl, Bool.and_false, Bool.false_and]

theorem intercalate_head (h : ∀ w ∈ names, IsName isSep w) :
    ∀ c ∈ ([sep].intercalate names).head?, isSep c = false := by
  intro c hc
  cases names with
  | nil => cases hc
  | cons n names =>
    obtain ⟨hne, hn⟩ := h n List.mem_cons_self
    obtain ⟨d, n, rfl⟩ := List.exists_cons_of_ne_nil hne
    rw [intercalate_cons] at hc
    obtain rfl := Option.some.inj hc
    exact hn d List.mem_cons_self

section

variable {s t : UInt8} {directory : Bytes}

theorem spelledName_server (hs : isSep s = true) (ht : isSep t = true) (hname : IsName isSep name) :
    spelledName { kind := .unc, name := [s, t] ++ name, directory := directory } sep =
      [sep, sep] ++ name := by
  rw [spelledName]
  simp only [List.map_append, List.map_cons, List.map_nil, respell_sep .unc rfl sep hs,
    respell_sep .unc rfl sep ht, map_respell_name .unc rfl sep hname.noSep]

theorem spelledName_device (hs : isSep s = true) (ht : isSep t = true)
    (hc : isDeviceMark [c] = true) (tail : Bytes) :
    spelledName { kind := .device, name := s :: t :: c :: tail, directory := directory } sep =
      sep :: sep :: c :: tail.map (respell .device .windows sep) := by
  rw [spelledName]
  simp only [List.map_cons, respell_sep .device rfl sep hs, respell_sep .device rfl sep ht]
  rw [respell_of_not_verbatim .device rfl, isSep_of_mark hc]
  rfl

theorem ne_verbatimStart {tail : Bytes} (hfirst : [s] = [sep])
    (hdevice : spellsVerbatim
      { kind := .device, name := s :: t :: c :: tail, directory := directory } = false) :
    [sep, sep, c, sep] ≠ verbatimStart := by
  intro heq
  simp only [verbatimStart, List.cons.injEq, and_true] at heq hfirst
  obtain ⟨hb, -, hq, -⟩ := heq
  rw [hfirst, hb, hq] at hdevice
  cases hdevice

end

/-! ### Where the root stays -/

theorem any_first {sep : UInt8 → Bool} (h : Ends sep rest) (hdir : rest.takeWhile sep = []) :
    rest = [] := by
  cases rest with
  | nil => rfl
  | cons c rest =>
    rw [List.takeWhile_cons_of_pos h.of_cons] at hdir
    cases hdir

/-- The rest of an incomplete prefix, which has no names: it may stop at each of its first
places. -/
theorem Ends.spelledRest_drop (r : Root) (sep : UInt8) (look : UInt8 → Bool) (k : Nat) :
    Ends look ((spelledRest r sep []).drop (k + 1)) := by
  have hone := spelledRest_nil_drop r sep
  have hdrop : (spelledRest r sep []).drop (k + 1) = ((spelledRest r sep []).drop 1).drop k := by
    rw [List.drop_drop, Nat.add_comm]
  rw [hdrop, hone, List.drop_nil]
  exact Ends.nil

/-- A prefix that stays complete, or has no names behind it, is a prefix of its shape when
it is written again. -/
theorem Shape.respelled (h : Shape r.kind r.name rest)
    (hdir : r.directory = rest.takeWhile (separates .windows r.kind))
    (hsep : separates .windows r.kind sep = true) (hnames : NamesOf r.kind names)
    (hnone : rest = [] → names = [])
    (hdrive : r.text = [] → ∀ n ∈ names.head?, startsWithDrive n = false)
    (hcomplete : incomplete r = true → names = [])
    (hfirst : r.kind = .device → r.name.take 1 = [sep]) (hdevice : spellsVerbatim r = false) :
    Shape r.kind (spelledName r sep) (spelledRest r sep names) := by
  have hends : Ends (separates .windows r.kind) rest →
      Ends (separates .windows r.kind) (spelledRest r sep names) := fun hrest =>
    spelledRest_ends hsep fun hd => hnone (any_first hrest (hdir ▸ hd))
  obtain ⟨kind, name, directory⟩ := r
  dsimp only at h hdir hsep hnames hends hfirst
  cases h with
  | none hserver hno =>
    have hname : spelledName { kind := .none, name := [], directory := directory } sep = [] := rfl
    rw [hname]
    rw [separates_windows rfl] at hsep
    rw [NamesOf, separates_windows rfl] at hnames
    obtain ⟨hplain, hslash, hslash'⟩ := starts_plain hsep (intercalate_head hnames)
    rw [spelledRest]
    cases directory with
    | cons c directory => exact .none hslash hslash'
    | nil =>
      refine .none hplain ?_
      cases names with
      | nil => rfl
      | cons n names =>
        have hn := hdrive rfl n rfl
        rw [← startsWithDrive_intercalate hsep (hnames n List.mem_cons_self).ne_nil names] at hn
        exact hn
  | drive hletter =>
    rename_i letter
    have hname : spelledName { kind := .drive, name := [letter, colon], directory := directory } sep
        = [letter, colon] := by
      refine map_respell_name .drive rfl sep fun c hc => ?_
      have hc : c = letter ∨ c = colon := by simpa using hc
      obtain rfl | rfl := hc
      · exact isSep_of_letter hletter
      · rfl
    rw [hname]
    exact .drive hletter
  | share hs ht hu hserver hname hmark hrest =>
    rename_i s t u server name
    rw [separates_windows rfl] at hsep hends
    have hspell : spelledName
        { kind := .unc, name := [s, t] ++ server ++ [u] ++ name, directory := directory } sep =
        [sep, sep] ++ server ++ [sep] ++ name := by
      rw [spelledName]
      simp only [List.map_append, List.map_cons, List.map_nil, respell_sep .unc rfl sep hs,
        respell_sep .unc rfl sep ht, respell_sep .unc rfl sep hu,
        map_respell_name .unc rfl sep hserver.noSep, map_respell_name .unc rfl sep hname.noSep]
    rw [hspell]
    exact .share hsep hsep hsep hserver hname hmark (hends hrest)
  | server hs ht hname hmark hrest hnext =>
    rename_i s t name
    rw [separates_windows rfl] at hsep hends
    obtain rfl := hcomplete (by simpa [incomplete] using hname.noSep)
    rw [spelledName_server hs ht hname]
    refine .server hsep hsep hname (fun hm => ?_) (hends hrest) (Ends.spelledRest_drop _ _ _ 0)
    rw [hmark hm] at hdir
    rw [spelledRest, hdir]
    rfl
  | device hs ht hc hu hstart hname hrest =>
    rename_i s t c u name
    rw [separates_windows rfl] at hsep hends
    rw [List.cons_append, List.cons_append, List.cons_append, spelledName_device hs ht hc,
      List.cons_append, List.map_cons, respell_sep .device rfl sep hu, List.nil_append,
      map_respell_name .device rfl sep hname.noSep]
    exact .device hsep hsep hc hsep (ne_verbatimStart (hfirst rfl) hdevice) hname (hends hrest)
  | noDevice hs ht hc hu hstart hrest =>
    rename_i s t c u rest
    rw [separates_windows rfl] at hsep hdir
    obtain rfl := hcomplete rfl
    have hrest' : spelledRest { kind := .device, name := [s, t, c], directory := directory } sep []
        = [sep] := by
      rw [List.takeWhile_cons_of_pos hu] at hdir
      rw [spelledRest, hdir]
      rfl
    rw [spelledName_device hs ht hc, hrest']
    exact .noDevice hsep hsep hc hsep (ne_verbatimStart (hfirst rfl) hdevice) Ends.nil
  | verbatimDrive hletter hrest =>
    rw [spelledName, map_respell_verbatim .verbatimDrive rfl]
    rw [separates_verbatim rfl] at hends
    exact .verbatimDrive hletter (hends hrest)
  | verbatim hname hunc hno hrest =>
    rw [spelledName, map_respell_verbatim .verbatim rfl]
    rw [separates_verbatim rfl] at hends
    exact .verbatim hname hunc hno (hends hrest)
  | noVerbatim hrest =>
    rename_i rest
    have hback : sep = backslash := by
      rw [separates_verbatim rfl] at hsep
      simpa [isBack] using hsep
    obtain rfl := hcomplete rfl
    have hrest' : spelledRest
        { kind := .verbatim, name := [backslash, backslash, question], directory := directory }
        sep [] = [backslash] := by
      rw [separates_verbatim rfl, List.takeWhile_cons_of_pos rfl] at hdir
      rw [spelledRest, hdir, hback]
      rfl
    rw [spelledName, map_respell_verbatim .verbatim rfl, hrest']
    exact .noVerbatim Ends.nil
  | verbatimShare hword hserver hname hrest =>
    rw [spelledName, map_respell_verbatim .verbatimUnc rfl]
    rw [separates_verbatim rfl] at hends
    exact .verbatimShare hword hserver hname (hends hrest)
  | verbatimServer hword hname hrest hnext =>
    rename_i word name
    have hlen : (verbatimStart ++ word ++ [backslash]).length = 8 := by
      simp [verbatimStart, length_of_lower hword]
    obtain rfl := hcomplete (by
      rw [incomplete]
      dsimp only
      rw [← hlen, List.drop_left]
      simpa using hname.noSep)
    rw [spelledName, map_respell_verbatim .verbatimUnc rfl]
    rw [separates_verbatim rfl] at hends
    exact .verbatimServer hword hname (hends hrest) (Ends.spelledRest_drop _ _ _ 0)
  | noServer hword hrest hnext hthird =>
    rename_i word
    have hlen : (verbatimStart ++ word).length = 7 := by
      simp [verbatimStart, length_of_lower hword]
    obtain rfl := hcomplete (by
      rw [incomplete]
      dsimp only
      rw [List.drop_eq_nil_of_le (by omega)]
      rfl)
    rw [spelledName, map_respell_verbatim .verbatimUnc rfl]
    rw [separates_verbatim rfl] at hends
    exact .noServer hword (hends hrest) (Ends.spelledRest_drop _ _ _ 0)
      (Ends.spelledRest_drop _ _ _ 1)

/-! ### The root of the path that is written -/

theorem reading_eq_nil (h : components p .windows = []) : reading p mode .windows = [] := by
  refine List.eq_nil_iff_forall_not_mem.mpr fun w hw => ?_
  have hmem := mem_of_mem_lexical hw
  rw [h] at hmem
  cases hmem

/-- A device starts with the separator that is written. -/
theorem Shape.first_of_device (h : Shape .device name rest) :
    ∃ s tail, name = s :: tail ∧ isSep s = true := by
  cases h with
  | device hs ht hc hu hstart hname hrest => exact ⟨_, _, rfl, hs⟩
  | noDevice hs ht hc hu hstart hrest => exact ⟨_, _, rfl, hs⟩

theorem Shape.kind_of_nil (h : Shape kind name rest) (hnil : name = []) : kind = .none := by
  cases h with
  | none hserver hdrive => rfl
  | drive | share | server | device | noDevice | verbatimDrive | verbatim | noVerbatim
  | verbatimShare | verbatimServer | noServer => cases hnil

theorem Shape.name_of_none (h : Shape kind name rest) (hkind : kind = .none) : name = [] := by
  cases h with
  | none hserver hdrive => rfl
  | drive | share | server | device | noDevice | verbatimDrive | verbatim | noVerbatim
  | verbatimShare | verbatimServer | noServer => cases hkind

/-- The separator that is written in a device is its first character. -/
theorem sepOf_device (hkind : (root p .windows).kind = .device) :
    (root p .windows).name.take 1 = [sepOf p .windows] := by
  obtain ⟨rest, hp, hshape⟩ := shape_root p
  rw [hkind] at hshape
  obtain ⟨s, tail, hname, hs⟩ := hshape.first_of_device
  have hsep : sepOf p .windows = s := by
    rw [sepOf, separatorOf, hkind, if_neg (by simp [isVerbatim]), hp, hname, List.cons_append,
      List.find?_cons_of_pos (by rw [congrFun isSeparator_windows s]; exact hs)]
    rfl
  rw [hname, hsep]
  rfl

/-- The shape of what `normalize` writes of a root that stays. -/
theorem shape_spelled (hstay : RootStays p mode) :
    Shape (root p .windows).kind (spelledName (root p .windows) (sepOf p .windows))
      (spelledRest (root p .windows) (sepOf p .windows) (reading p mode .windows)) := by
  obtain ⟨rest, hp, hshape⟩ := shape_root p
  have hdrop : p.drop (root p .windows).name.length = rest := drop_of_append hp.symm
  have hdir : (root p .windows).directory =
      rest.takeWhile (separates .windows (root p .windows).kind) := by
    rw [directory_eq, hdrop]
  refine hshape.respelled hdir (separates_sepOf p) (namesOf_reading p mode) (fun hnil => ?_)
    hstay.drive hstay.complete (fun hkind => ?_) hstay.device
  · refine reading_eq_nil ?_
    rw [components_eq, rootEnd, List.drop_eq_nil_of_le, words_nil]
    have hlen := congrArg List.length hp
    rw [hnil, List.append_nil] at hlen
    omega
  · exact sepOf_device hkind

/-- Behind a prefix, names are not taken for separators. -/
theorem takeWhile_spelledRest (hsep : separates .windows kind sep = true)
    (hnames : NamesOf kind names) :
    (spelledRest r sep names).takeWhile (separates .windows kind) =
      if r.directory.isEmpty then [] else [sep] := by
  have hnone : ([sep].intercalate names).takeWhile (separates .windows kind) = [] := by
    cases names with
    | nil => rfl
    | cons n names =>
      obtain ⟨hne, hn⟩ := hnames n List.mem_cons_self
      obtain ⟨c, n, rfl⟩ := List.exists_cons_of_ne_nil hne
      rw [intercalate_cons]
      exact List.takeWhile_cons_of_neg (by simp [hn c List.mem_cons_self])
  rw [spelledRest]
  cases r.directory.isEmpty with
  | true => exact hnone
  | false =>
    have hcons := List.takeWhile_cons_of_pos (l := [sep].intercalate names) hsep
    rw [hnone] at hcons
    exact hcons

/-- What `normalize` writes, if it is anything. -/
def written (p : Bytes) (mode : DotDot) : Bytes :=
  spelledName (root p .windows) (sepOf p .windows) ++
    spelledRest (root p .windows) (sepOf p .windows) (reading p mode .windows)

theorem root_written (hstay : RootStays p mode) :
    root (written p mode) .windows =
      { kind := (root p .windows).kind
        name := spelledName (root p .windows) (sepOf p .windows)
        directory := if (root p .windows).directory.isEmpty then [] else [sepOf p .windows] } := by
  rw [written, (shape_spelled hstay).root,
    takeWhile_spelledRest (separates_sepOf p) (namesOf_reading p mode)]

theorem rooted_written (hstay : RootStays p mode) :
    rooted (root (written p mode) .windows) = rooted (root p .windows) := by
  rw [root_written hstay, rooted, rooted]
  cases hdir : (root p .windows).directory.isEmpty <;> simp

theorem components_written (hstay : RootStays p mode) :
    components (written p mode) .windows = reading p mode .windows := by
  have hdrop : (written p mode).drop (rootEnd (root (written p mode) .windows)) =
      [sepOf p .windows].intercalate (reading p mode .windows) := by
    rw [rootEnd_eq, root_written hstay]
    refine drop_of_append ?_
    rw [written, spelledRest, Root.text, List.append_assoc]
  rw [components_eq, hdrop, root_written hstay]
  exact words_intercalate (separates_sepOf p) fun w hw =>
    ⟨(namesOf_reading p mode w hw).ne_nil, (namesOf_reading p mode w hw).noSep⟩

theorem reading_written (hstay : RootStays p mode) :
    reading (written p mode) mode .windows = reading p mode .windows := by
  rw [reading, components_written hstay, rooted_written hstay]
  exact lexical_lexical mode _ _

theorem canonical_written (hstay : RootStays p mode) :
    canonical (root (written p mode) .windows) = canonical (root p .windows) := by
  rw [root_written hstay, canonical, canonical, spelledName, List.map_map]
  refine List.map_congr_left fun c _ => ?_
  rw [Function.comp_apply]
  cases hv : isVerbatim (root p .windows).kind with
  | true => rw [respell_of_verbatim hv]
  | false =>
    have hsep := separates_sepOf p
    rw [respell_of_not_verbatim _ hv]
    cases hc : isSep c with
    | true =>
      rw [if_pos rfl, if_pos hsep, separates_windows hv, if_pos hc]
    | false => rw [if_neg Bool.false_ne_true]

/-- A text of one name at most is the same with any separator. -/
theorem intercalate_of_notMem (h : sep ∉ [sep].intercalate names) (s : UInt8) :
    [s].intercalate names = [sep].intercalate names := by
  match names with
  | [] => rfl
  | [w] => rw [List.intercalate_singleton, List.intercalate_singleton]
  | w :: v :: names =>
    rw [List.intercalate_cons_cons] at h
    exact absurd (List.mem_append_left _ (List.mem_append_right _ (List.mem_singleton.mpr rfl))) h

/-- In a path that is written, the separators are all the same. -/
theorem eq_sep_of_mem_written (hv : isVerbatim (root p .windows).kind = false)
    (hc : c ∈ written p mode) (hsep : isSep c = true) : c = sepOf p .windows := by
  obtain hc | hc := List.mem_append.mp hc
  · obtain ⟨d, -, rfl⟩ := List.mem_map.mp hc
    rw [respell_of_not_verbatim _ hv] at hsep ⊢
    cases hd : isSep d with
    | true => rw [if_pos rfl]
    | false =>
      rw [hd, if_neg Bool.false_ne_true, hd] at hsep
      cases hsep
  · rw [spelledRest] at hc
    obtain hc | hc := List.mem_append.mp hc
    · cases hdir : (root p .windows).directory.isEmpty with
      | true => rw [hdir] at hc; cases hc
      | false =>
        rw [hdir] at hc
        exact List.mem_singleton.mp hc
    · have hnames : ∀ names : List Bytes, NamesOf (root p .windows).kind names →
          c ∈ [sepOf p .windows].intercalate names → c = sepOf p .windows := by
        intro names hnames hmem
        rw [NamesOf, separates_windows hv] at hnames
        cases names with
        | nil => cases hmem
        | cons n names =>
          rw [intercalate_cons, List.mem_append, List.mem_flatMap] at hmem
          rcases hmem with hmem | ⟨w, hw, hmem⟩
          · rw [(hnames n List.mem_cons_self).noSep c hmem] at hsep
            cases hsep
          · obtain heq | hmem := List.mem_cons.mp hmem
            · exact heq
            · rw [(hnames w (List.mem_cons_of_mem _ hw)).noSep c hmem] at hsep
              cases hsep
      exact hnames _ (namesOf_reading p mode) hc

/-- Written again, a path stays what it is. -/
theorem written_written (hstay : RootStays p mode) :
    written (written p mode) mode = written p mode := by
  have hkind : (root (written p mode) .windows).kind = (root p .windows).kind := by
    rw [root_written hstay]
  have hname : (root (written p mode) .windows).name =
      spelledName (root p .windows) (sepOf p .windows) := by
    rw [root_written hstay]
  have hdir : (root (written p mode) .windows).directory.isEmpty =
      (root p .windows).directory.isEmpty := by
    rw [root_written hstay]
    cases (root p .windows).directory.isEmpty <;> rfl
  have hrest : ∀ s, spelledRest (root (written p mode) .windows) s
      (reading (written p mode) mode .windows) =
        spelledRest (root p .windows) s (reading p mode .windows) := by
    intro s
    rw [spelledRest, spelledRest, hdir, reading_written hstay]
  rw [written, hrest, spelledName, hkind, hname]
  cases hv : isVerbatim (root p .windows).kind with
  | true =>
    have hsep : sepOf (written p mode) .windows = sepOf p .windows := by
      rw [sepOf, separatorOf, hkind, if_pos hv, sepOf, separatorOf, if_pos hv]
    rw [map_respell_verbatim _ hv, hsep]
    rfl
  | false =>
    have hagain : (spelledName (root p .windows) (sepOf p .windows)).map
        (respell (root p .windows).kind .windows (sepOf p .windows)) =
          spelledName (root p .windows) (sepOf p .windows) := by
      rw [spelledName, List.map_map]
      refine List.map_congr_left fun c _ => ?_
      rw [Function.comp_apply, respell_of_not_verbatim _ hv, respell_of_not_verbatim _ hv]
      cases hc : isSep c with
      | true => rw [if_pos rfl, ite_self]
      | false => rw [if_neg Bool.false_ne_true, hc, if_neg Bool.false_ne_true]
    have hfound : sepOf (written p mode) .windows =
        ((written p mode).find? (isSeparator · .windows)).getD slash := by
      rw [sepOf, separatorOf, hkind, if_neg (by rw [hv]; exact Bool.false_ne_true)]
    cases hfind : (written p mode).find? (isSeparator · .windows) with
    | some c =>
      have hc := List.find?_some hfind
      rw [congrFun isSeparator_windows c] at hc
      have heq := eq_sep_of_mem_written hv (List.mem_of_find?_eq_some hfind) hc
      rw [hfound, hfind, Option.getD_some, heq, hagain]
      rfl
    | none =>
      -- no separator is written, so it does not matter which one would be
      have hno : ∀ c ∈ written p mode, isSep c = false := by
        intro c hc
        have hnot := List.find?_eq_none.mp hfind c hc
        rw [congrFun isSeparator_windows c] at hnot
        simpa using hnot
      have hsep : isSep (sepOf p .windows) = true := isSep_of_separates (separates_sepOf p)
      have hnot : sepOf p .windows ∉ written p mode := fun hm => by
        rw [hno _ hm] at hsep
        cases hsep
      rw [map_respell_name _ hv _ fun c hc => hno c (List.mem_append_left _ hc)]
      refine congrArg (spelledName (root p .windows) (sepOf p .windows) ++ ·) ?_
      rw [written, spelledRest, List.mem_append, List.mem_append, not_or, not_or] at hnot
      rw [spelledRest, spelledRest, intercalate_of_notMem hnot.2.2]
      refine congrArg (· ++ [sepOf p .windows].intercalate (reading p mode .windows)) ?_
      cases hd : (root p .windows).directory.isEmpty with
      | true => rfl
      | false =>
        rw [hd] at hnot
        exact absurd (List.mem_singleton.mpr rfl) hnot.2.1

theorem normalize_windows (hp : p ≠ []) (mode : DotDot) :
    normalize p mode .windows = some (if written p mode = [] then dot else written p mode) := by
  rw [normalize_eq hp, spelled_windows]
  rfl

/-- The root stays where none of the three ways to change it is open. -/
theorem normalizeKeeps_of_rootStays (hstay : RootStays p mode) : NormalizeKeeps p mode := by
  by_cases hp : p = []
  · subst hp
    exact ⟨[], rfl, ⟨rfl, rfl, rfl⟩, rfl⟩
  · refine ⟨_, normalize_windows hp mode, ?_⟩
    by_cases hnil : written p mode = []
    · rw [if_pos hnil]
      obtain ⟨hname, hrest⟩ := List.append_eq_nil_iff.mp hnil
      have hname' : (root p .windows).name = [] := List.map_eq_nil_iff.mp hname
      obtain ⟨rest, -, hshape⟩ := shape_root p
      have hkind := hshape.kind_of_nil hname'
      have hdir : (root p .windows).directory.isEmpty = true := by
        rw [spelledRest, List.append_eq_nil_iff] at hrest
        cases hd : (root p .windows).directory.isEmpty with
        | true => rfl
        | false =>
          rw [hd] at hrest
          cases hrest.1
      refine ⟨⟨hkind.symm, ?_, ?_⟩, by cases mode <;> decide⟩
      · rw [canonical, canonical, hname']
        rfl
      · have hno : rooted (root p .windows) = false := by
          rw [rooted, hkind, hdir]
          rfl
        rw [hno]
        rfl
    · rw [if_neg hnil]
      refine ⟨⟨by rw [root_written hstay], canonical_written hstay, rooted_written hstay⟩, ?_⟩
      rw [normalize_windows hnil, written_written hstay, if_neg hnil]

/-! ### Where the root changes -/

/-- A root is kept only where the path that is written, if it is any, has it. -/
theorem NormalizeKeeps.sameRoot (h : NormalizeKeeps p mode) (hne : written p mode ≠ []) :
    SameRoot (root (written p mode) .windows) (root p .windows) := by
  obtain ⟨q, hq, hroot, -⟩ := h
  by_cases hp : p = []
  · subst hp
    exact absurd rfl (by cases mode <;> exact hne)
  · rw [normalize_windows hp, if_neg hne] at hq
    rwa [← Option.some.inj hq] at hroot

/-- Two roots of the same prefix have names of one length. -/
theorem SameRoot.length {a b : Root} (h : SameRoot a b) : a.name.length = b.name.length := by
  have hlen := congrArg List.length h.name
  rwa [canonical, canonical, List.length_map, List.length_map] at hlen

/-- A relative path whose first name spells a drive has one when it is written. -/
theorem drive_of_keeps (h : NormalizeKeeps p mode) (htext : (root p .windows).text = [])
    (hn : n ∈ (reading p mode .windows).head?) : startsWithDrive n = false := by
  rw [Bool.eq_false_iff]
  intro hdrive
  obtain ⟨hname, hdir⟩ := List.append_eq_nil_iff.mp htext
  obtain ⟨rest, -, hshape⟩ := shape_root p
  have hkind := hshape.kind_of_nil hname
  have hnames := namesOf_reading p mode
  obtain ⟨names, hread⟩ : ∃ names, reading p mode .windows = n :: names := by
    cases hread : reading p mode .windows with
    | nil => rw [hread] at hn; cases hn
    | cons m names =>
      rw [hread] at hn
      exact ⟨names, by rw [Option.some.inj hn]⟩
  have hsep : isSep (sepOf p .windows) = true := isSep_of_separates (separates_sepOf p)
  have hwritten : written p mode = [sepOf p .windows].intercalate (n :: names) := by
    rw [written, spelledName, hname, spelledRest, hdir, hread]
    rfl
  have hstart : startsWithDrive (written p mode) = true := by
    rw [hwritten, startsWithDrive_intercalate hsep (hnames n (by rw [hread]; simp)).ne_nil]
    exact hdrive
  match hw : written p mode, hstart with
  | letter :: c :: tail, hstart =>
    rw [startsWithDrive, Bool.and_eq_true, beq_iff_eq] at hstart
    obtain ⟨hletter, rfl⟩ := hstart
    have hshape' : Shape .drive [letter, colon] tail := .drive hletter
    have hsame := (h.sameRoot (by rw [hw]; simp)).kind
    have hroot : root (letter :: colon :: tail) .windows = _ := hshape'.root
    rw [hw, hroot, hkind] at hsame
    cases hsame

/-- A path that starts like a verbatim one has a verbatim prefix. -/
theorem kind_of_verbatimStart (rest : Bytes) :
    isVerbatim (root (verbatimStart ++ rest) .windows).kind = true := by
  have hspells : ∀ kind stop, isVerbatim kind = true → ∀ r,
      prefixOf (verbatimStart ++ rest) kind stop = some r → isVerbatim r.kind = true := by
    intro kind stop hkind r hr
    obtain ⟨n, -, rfl⟩ := Option.map_eq_some_iff.mp hr
    exact hkind
  obtain ⟨r, hr⟩ := Option.isSome_iff_exists.mp (windowsPrefix_isSome (verbatimStart ++ rest))
  have hkind : (root (verbatimStart ++ rest) .windows).kind = r.kind := by
    rw [root, hr]
    rfl
  rw [hkind]
  rw [windowsPrefix_verbatim, verbatimPrefix] at hr
  dsimp only at hr
  split at hr
  · exact hspells _ _ rfl r hr
  · split at hr
    · exact hspells _ _ rfl r hr
    · exact hspells _ _ rfl r hr

/-- A device whose separators become those of a verbatim prefix becomes verbatim. -/
theorem device_of_keeps (h : NormalizeKeeps p mode) : spellsVerbatim (root p .windows) = false := by
  rw [Bool.eq_false_iff]
  intro hspells
  rw [spellsVerbatim, Bool.and_eq_true, Bool.and_eq_true, beq_iff_eq, beq_iff_eq,
    beq_iff_eq] at hspells
  obtain ⟨⟨hkind, hback⟩, hquestion⟩ := hspells
  obtain ⟨rest, hp, hshape⟩ := shape_root p
  rw [hkind] at hshape
  have hsep : sepOf p .windows = backslash := by
    rw [sepOf_device hkind] at hback
    simpa using hback
  have hdrop : p.drop (root p .windows).name.length = rest := drop_of_append hp.symm
  have hdirEq := directory_eq p .windows
  rw [hdrop, hkind] at hdirEq
  -- the text that is written starts with `\\?\`, whichever of the two shapes it comes from
  have hstart : ∃ more, written p mode = verbatimStart ++ more := by
    rw [written, spelledName, hkind, hsep]
    generalize (root p .windows).name = name at hshape hquestion
    generalize hr : (root p .windows).directory = directory at hdirEq
    cases hshape with
    | device hs ht hc hu hstart hname hrest =>
      rename_i s t c u name
      have hq : c = question := by simpa using hquestion
      refine ⟨name.map (respell .device .windows backslash) ++
        spelledRest (root p .windows) backslash (reading p mode .windows), ?_⟩
      rw [List.map_append, List.map_cons, List.map_cons, List.map_cons, List.map_cons,
        List.map_nil, respell_sep .device rfl _ hs, respell_sep .device rfl _ ht,
        respell_sep .device rfl _ hu, hq, List.append_assoc]
      rfl
    | noDevice hs ht hc hu hstart hrest =>
      rename_i s t c u rest
      have hq : c = question := by simpa using hquestion
      rw [separates_windows rfl, List.takeWhile_cons_of_pos hu] at hdirEq
      refine ⟨[backslash].intercalate (reading p mode .windows), ?_⟩
      rw [List.map_cons, List.map_cons, List.map_cons, List.map_nil, respell_sep .device rfl _ hs,
        respell_sep .device rfl _ ht, hq, spelledRest, hr, hdirEq]
      rfl
  obtain ⟨more, hmore⟩ := hstart
  have hsame := (h.sameRoot (by rw [hmore]; simp [verbatimStart])).kind
  have hverb := kind_of_verbatimStart more
  rw [← hmore, hsame, hkind] at hverb
  cases hverb

/-- A path with a longer prefix does not have the same root. -/
theorem Shape.not_sameRoot {text : Bytes} (h : Shape kind name rest) (htext : text = name ++ rest)
    (hlen : kind = r.kind → r.name.length < name.length) :
    ¬ SameRoot (Path.root text .windows) r := by
  intro hsame
  rw [htext, h.root] at hsame
  have heq := hsame.length
  have hlt := hlen hsame.kind
  dsimp only at heq
  omega

/-- A verbatim prefix that goes on behind its root is another root. -/
theorem Shape.not_sameRoot_verbatim {more text : Bytes} (h : Shape kind name rest)
    (hverb : isVerbatim r.kind = true) (hname : name = r.name ++ backslash :: more)
    (htext : text = more ++ rest) :
    ¬ SameRoot (Path.root (spelledName r sep ++ backslash :: text) .windows) r := by
  refine h.not_sameRoot ?_ fun _ => ?_
  · rw [spelledName, map_respell_verbatim r.kind hverb, hname, htext, List.append_assoc]
    rfl
  · rw [hname, List.length_append, List.length_cons]
    omega

/-- A verbatim name behind `\\?` is its prefix, or part of another verbatim prefix. -/
theorem exists_shape_name {n tail : Bytes} (hn : IsName isBack n) (htail : Ends isBack tail) :
    ∃ kind name rest, verbatimStart ++ (n ++ tail) = name ++ rest ∧ Shape kind name rest ∧
      (kind = .verbatim → name = verbatimStart ++ n) := by
  by_cases hunc : n.map asciiLower = ascii "unc"
  · obtain ⟨name, rest, hcut, hshape⟩ := exists_shape_unc hunc htail
    exact ⟨_, name, rest, by rw [← List.append_assoc]; exact hcut, hshape, fun h => by cases h⟩
  · by_cases hdrive : startsWithDrive n = true ∧ n.length = 2
    · obtain ⟨hstart, hlen⟩ := hdrive
      match n, hlen with
      | [letter, c], _ =>
        rw [startsWithDrive, Bool.and_eq_true, beq_iff_eq] at hstart
        obtain ⟨hletter, rfl⟩ := hstart
        exact ⟨_, verbatimStart ++ [letter, colon], tail, rfl, .verbatimDrive hletter htail,
          fun h => by cases h⟩
    · refine ⟨_, verbatimStart ++ n, tail, by rw [List.append_assoc],
        .verbatim hn (fun h => hunc ?_) hdrive htail, fun _ => rfl⟩
      rw [← List.take_of_length_le (Nat.le_of_eq h.2)]
      exact startsWithUnc_iff.mp h.1

/-- A name written behind an incomplete prefix becomes part of it. -/
theorem Shape.grows (h : Shape r.kind r.name rest) (hinc : incomplete r = true) (hrest : rest ≠ [])
    (hsep : separates .windows r.kind sep = true) {n tail : Bytes}
    (hn : IsName (separates .windows r.kind) n) (htail : Ends (separates .windows r.kind) tail)
    (hfirst : r.kind = .device → r.name.take 1 = [sep]) (hdevice : spellsVerbatim r = false) :
    ¬ SameRoot (Path.root (spelledName r sep ++ sep :: (n ++ tail)) .windows) r := by
  have hpos := List.length_pos_iff.mpr hn.ne_nil
  obtain ⟨kind, name, directory⟩ := r
  dsimp only at h hsep hn htail hfirst
  cases h with
  | none | drive | verbatimDrive => cases hinc
  | share hs ht hu hserver hname hmark hrest' =>
    rename_i s t u server name
    rw [incomplete] at hinc
    have hall := List.all_eq_true.mp hinc u (by simp)
    rw [hu] at hall
    cases hall
  | device hs ht hc hu hstart hname hrest' =>
    rename_i s t c u name
    have hone := List.length_pos_iff.mpr hname.ne_nil
    have hlen : ([s, t, c, u] ++ name).length = 3 := by
      simpa only [incomplete, beq_iff_eq] using hinc
    simp only [List.length_append, List.length_cons, List.length_nil] at hlen
    omega
  | verbatim hname hunc hno hrest' =>
    rename_i name
    have hone := List.length_pos_iff.mpr hname.ne_nil
    have hlen : (verbatimStart ++ name).length = 3 := by
      simpa only [incomplete, beq_iff_eq] using hinc
    simp only [verbatimStart, List.length_append, List.length_cons, List.length_nil] at hlen
    omega
  | verbatimShare hword hserver hname hrest' =>
    rename_i word server name
    have hlen : (verbatimStart ++ word ++ [backslash]).length = 8 := by
      simp [verbatimStart, length_of_lower hword]
    rw [incomplete] at hinc
    dsimp only at hinc
    rw [List.append_assoc, List.append_assoc, ← hlen, List.drop_left] at hinc
    have hall := List.all_eq_true.mp hinc backslash (by simp)
    cases hall
  | server hs ht hname hmark hrest' hnext =>
    rename_i s t name
    rw [separates_windows rfl] at hsep hn htail
    have hno : isDeviceMark name = false := by
      cases hm : isDeviceMark name with
      | false => rfl
      | true => exact absurd (hmark hm) hrest
    have hshape := Shape.share hsep hsep hsep hname hn hno htail
    refine hshape.not_sameRoot ?_ fun _ => ?_
    · rw [spelledName_server hs ht hname]
      simp
    · simp only [List.length_append, List.length_cons, List.length_nil]
      omega
  | noDevice hs ht hc hu hstart hrest' =>
    rename_i s t c u rest
    rw [separates_windows rfl] at hsep hn htail
    have hne := ne_verbatimStart (hfirst rfl) hdevice
    have hshape := Shape.device hsep hsep hc hsep hne hn htail
    refine hshape.not_sameRoot ?_ fun _ => ?_
    · rw [spelledName_device hs ht hc]
      rfl
    · simp only [List.length_append, List.length_cons, List.length_nil]
      omega
  | noVerbatim hrest' =>
    rw [separates_verbatim rfl] at hsep hn htail
    have hback : sep = backslash := by simpa [isBack] using hsep
    obtain ⟨kind, name, rest', hcut, hshape, hname⟩ := exists_shape_name hn htail
    refine hshape.not_sameRoot ?_ fun hkind => ?_
    · rw [spelledName, map_respell_verbatim .verbatim rfl, hback, ← hcut]
      rfl
    · rw [hname hkind]
      simp only [verbatimStart, List.length_append, List.length_cons, List.length_nil]
      omega
  | verbatimServer hword hname hrest' hnext =>
    rw [separates_verbatim rfl] at hsep hn htail
    obtain rfl : sep = backslash := by simpa [isBack] using hsep
    have hshape := Shape.verbatimShare hword hname.noSep hn htail
    exact hshape.not_sameRoot_verbatim rfl (by simp) rfl
  | noServer hword hrest' hnext hthird =>
    rename_i word
    rw [separates_verbatim rfl] at hsep hn htail
    obtain rfl : sep = backslash := by simpa [isBack] using hsep
    cases tail with
    | nil =>
      have hshape := Shape.verbatimServer hword hn htail Ends.nil
      exact hshape.not_sameRoot_verbatim rfl (by simp) rfl
    | cons d tail =>
      obtain rfl := htail.exists_cons
      obtain ⟨m, after, rfl, hm, hafter⟩ := exists_cut isBack tail
      by_cases hnone : m = []
      · subst hnone
        have hshape := Shape.verbatimServer hword hn htail hafter
        exact hshape.not_sameRoot_verbatim rfl (by simp) rfl
      · have hshape := Shape.verbatimShare hword hn.noSep ⟨hnone, hm⟩ hafter
        have hname : verbatimStart ++ word ++ [backslash] ++ n ++ [backslash] ++ m =
            verbatimStart ++ word ++ backslash :: (n ++ backslash :: m) := by
          simp
        exact hshape.not_sameRoot_verbatim rfl hname (by simp)

/-- No name is left behind an incomplete prefix that is kept. -/
theorem reading_of_keeps (h : NormalizeKeeps p mode) (hinc : incomplete (root p .windows) = true) :
    reading p mode .windows = [] := by
  by_contra hne
  obtain ⟨n, names, hread⟩ := List.exists_cons_of_ne_nil hne
  obtain ⟨rest, hp, hshape⟩ := shape_root p
  have hdrop : p.drop (root p .windows).name.length = rest := drop_of_append hp.symm
  have hnames := namesOf_reading p mode
  have hrest : rest ≠ [] := by
    rintro rfl
    refine hne (reading_eq_nil ?_)
    rw [components_eq, rootEnd, List.drop_eq_nil_of_le, words_nil]
    have hlen := congrArg List.length hp
    rw [List.append_nil] at hlen
    omega
  have hsep := separates_sepOf p
  have hends : Ends (separates .windows (root p .windows).kind) rest := by
    generalize root p .windows = r at hshape hinc
    obtain ⟨kind, name, directory⟩ := r
    cases hshape with
    | none | drive | verbatimDrive => cases hinc
    | share hs ht hu hserver hname hmark hrest => rwa [separates_windows rfl]
    | server hs ht hname hmark hrest hnext => rwa [separates_windows rfl]
    | device hs ht hc hu hstart hname hrest => rwa [separates_windows rfl]
    | noDevice hs ht hc hu hstart hrest =>
      rw [separates_windows rfl]
      exact Ends.cons hu
    | verbatim hname hunc hno hrest => rwa [separates_verbatim rfl]
    | noVerbatim hrest =>
      rw [separates_verbatim rfl]
      exact Ends.cons rfl
    | verbatimShare hword hserver hname hrest => rwa [separates_verbatim rfl]
    | verbatimServer hword hname hrest hnext => rwa [separates_verbatim rfl]
    | noServer hword hrest hnext hthird => rwa [separates_verbatim rfl]
  have hdir : (root p .windows).directory.isEmpty = false := by
    rw [directory_eq, hdrop]
    cases rest with
    | nil => exact absurd rfl hrest
    | cons c rest =>
      rw [List.takeWhile_cons_of_pos hends.of_cons]
      rfl
  have hwritten : written p mode =
      spelledName (root p .windows) (sepOf p .windows) ++
        sepOf p .windows :: (n ++ names.flatMap (sepOf p .windows :: ·)) := by
    rw [written, spelledRest, hdir, hread, intercalate_cons]
    rfl
  have hfirst : (root p .windows).kind = .device →
      (root p .windows).name.take 1 = [sepOf p .windows] := fun hkind => sepOf_device hkind
  refine hshape.grows hinc hrest hsep (hnames n (by rw [hread]; exact List.mem_cons_self))
    (intercalate_cons_ends _ hsep names) hfirst (device_of_keeps h) ?_
  have hsame := h.sameRoot (by rw [hwritten]; simp)
  rwa [hwritten] at hsame

/-- `normalize` keeps the root exactly where the names that are left do not change it. -/
theorem normalizeKeeps_iff (p : Bytes) (mode : DotDot) : NormalizeKeeps p mode ↔ RootStays p mode :=
  ⟨fun h => ⟨fun htext _ hn => drive_of_keeps h htext hn, fun hinc => reading_of_keeps h hinc,
    device_of_keeps h⟩, normalizeKeeps_of_rootStays⟩

/-! ### What leads from a base to a path -/

theorem isSep_separatorOf (p : Bytes) (r : Root) {fallback : UInt8} (h : isSep fallback = true) :
    isSep (separatorOf p r .windows fallback) = true := by
  rw [separatorOf]
  split
  · rfl
  · cases hfind : p.find? (isSeparator · .windows) with
    | none => exact h
    | some c =>
      have hc := List.find?_some hfind
      rwa [congrFun isSeparator_windows c] at hc

/-- A path without a root is put behind a base that stays as it is. -/
theorem prefix_push {base out : Bytes} (hbase : base ≠ [])
    (hkind : (root out .windows).kind = .none) (hdir : (root out .windows).directory = []) :
    base <+: push base out .windows := by
  have habs : isAbsolute out .windows = false := by
    rw [isAbsolute, hkind, hdir]
    rfl
  have hempty : base.isEmpty = false := by simpa using hbase
  have hnone : (Prefix.none != Prefix.none) = false := rfl
  have hpush : base <+: pushBase base (out.drop (root out .windows).name.length)
      (root base .windows) (root out .windows) .windows := by
    have hjoin : ∀ (missing : Bool) (t : Bytes),
        base <+: if missing = true then base ++ t else base := by
      intro missing t
      cases missing with
      | true => exact List.prefix_append _ _
      | false => exact List.prefix_refl _
    rw [pushBase, hdir, List.isEmpty_nil, Bool.not_true, if_neg Bool.false_ne_true]
    exact hjoin _ _
  rw [push, hempty, habs, Bool.false_or, if_neg Bool.false_ne_true]
  dsimp only
  rw [hkind, hnone, Bool.false_and, if_neg Bool.false_ne_true]
  exact hpush.trans (List.prefix_append _ _)

/-- Names behind one that neither is a drive nor starts with a separator have no root. -/
theorem root_names (hsep : isSep sep = true) (hn : n ≠ []) (hhead : ∀ c ∈ n.head?, isSep c = false)
    (hdrive : startsWithDrive n = false) (names : List Bytes) :
    (root ([sep].intercalate (n :: names)) .windows).kind = .none ∧
      (root ([sep].intercalate (n :: names)) .windows).directory = [] := by
  rw [← startsWithDrive_intercalate hsep hn names] at hdrive
  obtain ⟨c, n, rfl⟩ := List.exists_cons_of_ne_nil hn
  have hc := hhead c rfl
  rw [intercalate_cons, List.cons_append] at hdrive ⊢
  generalize n ++ names.flatMap (sep :: ·) = tail at hdrive ⊢
  have hserver : startsWithServer (c :: tail) = false := by
    match tail with
    | [] | [_] => rfl
    | d :: e :: tail => rw [startsWithServer, hc, Bool.false_and, Bool.false_and]
  have hroot := (Shape.none hserver hdrive).root
  rw [List.nil_append] at hroot
  rw [hroot]
  refine ⟨rfl, List.takeWhile_cons_of_neg ?_⟩
  rw [separates_windows rfl, hc]
  exact Bool.false_ne_true

/-- A name of a path that does not start with a slash does not start with a separator. -/
theorem head_of_component (hn : n ∈ components p .windows) (hslash : n.head? ≠ some slash) :
    ∀ c ∈ n.head?, isSep c = false := by
  intro c hc
  have hno := (mem_components hn).2 c (List.mem_of_head? hc)
  cases hv : isVerbatim (root p .windows).kind with
  | false => rwa [separates_windows hv] at hno
  | true =>
    rw [separates_verbatim hv] at hno
    have hne : c ≠ slash := fun heq => hslash (heq ▸ hc)
    have hback : (c == backslash) = false := hno
    rw [isSep, hback, Bool.or_false]
    simpa using hne

theorem countClimbs_of_dots (h : ∀ w ∈ names, w = dot) : countClimbs names = some 0 := by
  cases hc : countClimbs names with
  | none =>
    have hmem := countClimbs_eq_none.mp hc
    exact absurd (h dotDot hmem).symm dot_ne_dotDot
  | some n =>
    obtain ⟨-, hn⟩ := countClimbs_eq_some hc
    rw [hn, List.filter_eq_nil_iff.mpr fun w hw => by simpa using h w hw]
    rfl

/-- What `relative` tells has no root exactly where it leads by a plain name. -/
theorem relativeKeeps_iff (p : Bytes) {base : Bytes} (hbase : base ≠ []) :
    RelativeKeeps p base ↔ LeadsByName p base := by
  have hdotdot : dotDot ≠ [] ∧ startsWithDrive dotDot = false := ⟨by decide, rfl⟩
  constructor
  · intro h hsame hdots n hn
    have hclimbs := countClimbs_of_dots hdots
    cases hrel : relative p base .windows with
    | none =>
      obtain hno | hmem := relative_eq_none.mp hrel
      · rw [hsame] at hno
        cases hno
      · exact absurd (hdots dotDot hmem).symm dot_ne_dotDot
    | some out =>
      obtain ⟨-, climbs, hclimbs', hout⟩ := relative_eq_some hrel
      obtain rfl : climbs = 0 := Option.some.inj (hclimbs'.symm.trans hclimbs)
      obtain ⟨hkind, hdir, -⟩ := h out hrel
      obtain ⟨names, hnames⟩ : ∃ names, (components p .windows).drop
          (commonLength (components p .windows) (components base .windows)) = n :: names := by
        cases hdrop : (components p .windows).drop
            (commonLength (components p .windows) (components base .windows)) with
        | nil => rw [hdrop] at hn; cases hn
        | cons m names =>
          rw [hdrop] at hn
          exact ⟨names, by rw [Option.some.inj hn]⟩
      have hrelNames : relativeNames (components p .windows) (components base .windows) 0 =
          n :: names := by
        rw [relativeNames, hnames]
        rfl
      rw [hrelNames] at hout
      obtain ⟨-, hnil⟩ | ⟨sep, rfl, hsep, -⟩ := hout
      · cases hnil
      · have hsep' : isSep sep = true := by
          rw [hsep]
          exact isSep_separatorOf _ _ (isSep_separatorOf _ _ rfl)
        have hne : n ≠ [] := (mem_components (List.mem_of_mem_drop
          (hnames ▸ List.mem_cons_self))).1
        constructor
        · rw [Bool.eq_false_iff]
          intro hdrive
          rw [← startsWithDrive_intercalate hsep' hne names] at hdrive
          obtain ⟨letter, tail, hw, hletter⟩ := startsWithDrive_eq_true hdrive
          have hshape : Shape .drive [letter, colon] tail := .drive hletter
          have hroot : root (letter :: colon :: tail) .windows = _ := hshape.root
          rw [hw, hroot] at hkind
          cases hkind
        · intro hslash
          obtain ⟨c, n, rfl⟩ := List.exists_cons_of_ne_nil hne
          cases hslash
          have hname : (root ([sep].intercalate ((slash :: n) :: names)) .windows).name = [] := by
            obtain ⟨rest, -, hshape⟩ := shape_root ([sep].intercalate ((slash :: n) :: names))
            exact hshape.name_of_none hkind
          rw [directory_eq, hkind, hname, intercalate_cons, List.cons_append] at hdir
          cases hdir
  · intro h out hrel
    obtain ⟨hsame, climbs, hclimbs, hout⟩ := relative_eq_some hrel
    have hroot : (root out .windows).kind = .none ∧ (root out .windows).directory = [] := by
      obtain ⟨rfl, -⟩ | ⟨sep, rfl, hsep, hne⟩ := hout
      · exact ⟨by decide, by decide⟩
      · have hsep' : isSep sep = true := by
          rw [hsep]
          exact isSep_separatorOf _ _ (isSep_separatorOf _ _ rfl)
        cases climbs with
        | succ climbs =>
          exact root_names hsep' hdotdot.1 (fun c hc => by cases hc; rfl) hdotdot.2 _
        | zero =>
          have hdots : ∀ w ∈ (components base .windows).drop
              (commonLength (components p .windows) (components base .windows)), w = dot := by
            intro w hw
            obtain ⟨-, hcount⟩ := countClimbs_eq_some hclimbs
            have hnone := List.length_eq_zero_iff.mp hcount.symm
            simpa using List.filter_eq_nil_iff.mp hnone w hw
          have hzero : relativeNames (components p .windows) (components base .windows) 0 =
              (components p .windows).drop
                (commonLength (components p .windows) (components base .windows)) := rfl
          rw [hzero] at hne ⊢
          obtain ⟨n, names, hnames⟩ := List.exists_cons_of_ne_nil hne
          have hmem : n ∈ components p .windows :=
            List.mem_of_mem_drop (hnames ▸ List.mem_cons_self)
          obtain ⟨hdrive, hslash⟩ := h hsame hdots n (by rw [hnames]; rfl)
          rw [hnames]
          exact root_names hsep' (mem_components hmem).1 (head_of_component hmem hslash) hdrive
            names
    exact ⟨hroot.1, hroot.2, prefix_push hbase hroot.1 hroot.2⟩

/-- On Windows a path keeps its root when it is normalized, and what leads to it from a base
has none, exactly where no name left at the front of a relative path spells a drive, none
stands behind an incomplete prefix, no device is written like a verbatim prefix, and the name
that leads from the base neither spells a drive nor starts with a slash. -/
theorem windows_spec (p base : Bytes) (mode : DotDot) (hbase : base ≠ []) :
    NormalizeKeeps p mode ∧ RelativeKeeps p base ↔ RootStays p mode ∧ LeadsByName p base :=
  and_congr (normalizeKeeps_iff p mode) (relativeKeeps_iff p hbase)

/-- `./C:x` names a file of the current directory, but is written `C:x`, one of a drive. -/
theorem not_keeps_drive : ¬ (NormalizeKeeps (ascii "./C:x") .keep ∧
    RelativeKeeps (ascii "./C:x") (ascii "a")) := by
  rintro ⟨⟨q, hq, hroot, -⟩, -⟩
  have hwritten : normalize (ascii "./C:x") .keep .windows = some (ascii "C:x") := by decide
  obtain rfl := Option.some.inj (hwritten.symm.trans hq)
  exact absurd hroot.kind (by decide)

/-- A path below a drive keeps its root, and leads from the base by its name. -/
theorem windows_spec_probe :
    NormalizeKeeps (ascii "C:/a/./b") .fold ∧
      RelativeKeeps (ascii "C:/a/./b") (ascii "C:/a") := by
  refine (windows_spec (ascii "C:/a/./b") (ascii "C:/a") .fold (by decide)).mpr
    ⟨⟨fun h => absurd h (by decide), fun h => absurd h (by decide), by decide⟩, fun _ _ => ?_⟩
  decide

end Kotatsu.Fs.Path
