import Kotatsu.Core.Bytes

/-!
# URIs

A URI is one text and the places its components have in it. `parse` cuts a text at its
delimiters, in the order in which they bind, and spells the components again behind a
scheme in lower case. What it accepts are the spellings of well-formed components, and it
gives each spelling the components it was spelled from.
-/

namespace Kotatsu.Ipc.Lsp

open Kotatsu.Core

/-! ## Bytes of a URI -/

/-- `'#'`. -/
def hashByte : UInt8 := 0x23

/-- `is_ascii_alpha`. -/
def isAsciiAlpha (value : UInt8) : Bool :=
  (65 ≤ value.toNat && value.toNat ≤ 90) || (97 ≤ value.toNat && value.toNat ≤ 122)

/-- `is_ascii_alnum`. -/
def isAsciiAlnum (value : UInt8) : Bool := isAsciiAlpha value || isDigit value

/-- `to_ascii_lower`. -/
def toAsciiLower (value : UInt8) : UInt8 :=
  if 65 ≤ value.toNat ∧ value.toNat ≤ 90 then value + 32 else value

/-- What may follow the first byte of a scheme: a letter, a digit, `'+'`, `'-'` or
`'.'`. -/
def isSchemeTail (value : UInt8) : Bool :=
  isAsciiAlnum value || value == 0x2B || value == 0x2D || value == 0x2E

/-- `is_valid_scheme`. -/
def isValidScheme : Bytes → Bool
  | [] => false
  | value :: tail => isAsciiAlpha value && tail.all isSchemeTail

/-- `lower_ascii_in_place`. -/
def lowerAscii (text : Bytes) : Bytes := text.map toAsciiLower

/-- `find_first_of`. -/
def findFirstOf (bytes : Bytes) (text : Bytes) : Option Nat := text.findIdx? (· ∈ bytes)

/-! ## The components -/

/-- `URI::Segment`; the offset of a missing one is none. -/
structure Segment where
  offset : Option Nat
  size : Nat
deriving DecidableEq, Repr

/-- `URI`. -/
structure URI where
  text : Bytes
  schemeSegment : Segment
  authoritySegment : Segment
  pathSegment : Segment
  querySegment : Segment
  fragmentSegment : Segment
deriving DecidableEq, Repr

namespace URI

/-- `view`. -/
def view (uri : URI) (segment : Segment) : Bytes :=
  match segment.offset with
  | none => []
  | some offset => substr uri.text offset segment.size

/-- `str`. -/
def str (uri : URI) : Bytes := uri.text

/-- `scheme`. -/
def scheme (uri : URI) : Bytes := uri.view uri.schemeSegment

/-- `has_authority`. -/
def hasAuthority (uri : URI) : Bool := uri.authoritySegment.offset.isSome

/-- `authority`. -/
def authority (uri : URI) : Bytes := uri.view uri.authoritySegment

/-- `path`. -/
def path (uri : URI) : Bytes := uri.view uri.pathSegment

/-- `has_query`. -/
def hasQuery (uri : URI) : Bool := uri.querySegment.offset.isSome

/-- `query`. -/
def query (uri : URI) : Bytes := uri.view uri.querySegment

/-- `has_fragment`. -/
def hasFragment (uri : URI) : Bool := uri.fragmentSegment.offset.isSome

/-- `fragment`. -/
def fragment (uri : URI) : Bytes := uri.view uri.fragmentSegment

end URI

/-! ## Parsing -/

/-- What stands before the first occurrence of a byte, and what stands after it. -/
def cut (byte : UInt8) (text : Bytes) : Bytes × Option Bytes :=
  match find [byte] text with
  | none => (text, none)
  | some pos => (substr text 0 pos, some (text.drop (pos + 1)))

/-- The authority and the path of the hierarchical part. -/
def cutHierarchical (hierarchical : Bytes) : Option Bytes × Bytes :=
  if [slashByte, slashByte].isPrefixOf hierarchical then
    let authorityAndPath := hierarchical.drop 2
    match find [slashByte] authorityAndPath with
    | none => (some authorityAndPath, [])
    | some pos => (some (substr authorityAndPath 0 pos), authorityAndPath.drop pos)
  else (none, hierarchical)

/-- `append_segment`. -/
def appendSegment (text part : Bytes) : Bytes × Segment :=
  (text ++ part, { offset := some text.length, size := part.length })

/-- A component with the delimiter before it, where it is present. -/
def appendPresent (text delimiter : Bytes) : Option Bytes → Bytes × Segment
  | none => (text, { offset := none, size := 0 })
  | some part => appendSegment (text ++ delimiter) part

/-- The URI of the components `parse` has cut. -/
def URI.assemble (schemeText : Bytes) (authorityText : Option Bytes) (pathText : Bytes)
    (queryText fragmentText : Option Bytes) : URI :=
  let scheme := appendSegment [] schemeText
  let authority :=
    appendPresent (scheme.1 ++ [colonByte]) [slashByte, slashByte] authorityText
  let path := appendSegment authority.1 pathText
  let query := appendPresent path.1 [questionByte] queryText
  let fragment := appendPresent query.1 [hashByte] fragmentText
  { text := fragment.1, schemeSegment := scheme.2, authoritySegment := authority.2,
    pathSegment := path.2, querySegment := query.2, fragmentSegment := fragment.2 }

/-- `URI::parse`. -/
def URI.parse (input : Bytes) : Except String URI :=
  if input = [] then .error "uri is empty"
  else
    match find [colonByte] input with
    | none => .error "uri is missing scheme delimiter ':'"
    | some schemeEnd =>
      if (findFirstOf [slashByte, questionByte, hashByte] input).any (· < schemeEnd) then
        .error "uri is missing scheme"
      else
        let rawScheme := substr input 0 schemeEnd
        if isValidScheme rawScheme = false then .error "uri scheme is invalid"
        else
          let remainder := input.drop (schemeEnd + 1)
          let (withoutFragment, fragmentText) := cut hashByte remainder
          let (hierarchical, queryText) := cut questionByte withoutFragment
          let (authorityText, pathText) := cutHierarchical hierarchical
          .ok (assemble (lowerAscii rawScheme) authorityText pathText queryText fragmentText)

/-! ## Schemes -/

theorem toAsciiLower_toNat (value : UInt8) :
    (toAsciiLower value).toNat =
      if 65 ≤ value.toNat ∧ value.toNat ≤ 90 then value.toNat + 32 else value.toNat := by
  unfold toAsciiLower
  split
  · rw [UInt8.toNat_add]
    change (value.toNat + 32) % 256 = _
    omega
  · rfl

theorem toAsciiLower_idem (value : UInt8) :
    toAsciiLower (toAsciiLower value) = toAsciiLower value := by
  have h := toAsciiLower_toNat value
  rw [toAsciiLower, if_neg]
  split at h <;> omega

@[simp] theorem lowerAscii_idem (text : Bytes) :
    lowerAscii (lowerAscii text) = lowerAscii text := by
  rw [lowerAscii, lowerAscii, List.map_map]
  exact List.map_congr_left fun value _ => toAsciiLower_idem value

theorem isAsciiAlpha_lower {value : UInt8} (h : isAsciiAlpha value = true) :
    isAsciiAlpha (toAsciiLower value) = true := by
  have hlower := toAsciiLower_toNat value
  simp only [isAsciiAlpha, Bool.or_eq_true, Bool.and_eq_true, decide_eq_true_eq] at h ⊢
  split at hlower <;> omega

theorem isSchemeTail_lower {value : UInt8} (h : isSchemeTail value = true) :
    isSchemeTail (toAsciiLower value) = true := by
  by_cases halpha : isAsciiAlpha value = true
  · simp only [isSchemeTail, isAsciiAlnum, isAsciiAlpha_lower halpha, Bool.true_or]
  · have hsame : toAsciiLower value = value := by
      rw [toAsciiLower, if_neg]
      simp only [isAsciiAlpha, Bool.or_eq_true, Bool.and_eq_true, decide_eq_true_eq] at halpha
      omega
    rwa [hsame]

/-- A scheme in lower case is valid as it was. -/
theorem isValidScheme_lower {scheme : Bytes} (h : isValidScheme scheme = true) :
    isValidScheme (lowerAscii scheme) = true := by
  cases scheme with
  | nil => cases h
  | cons value tail =>
    simp only [isValidScheme, lowerAscii, List.map_cons, Bool.and_eq_true, List.all_map,
      List.all_eq_true] at h ⊢
    exact ⟨isAsciiAlpha_lower h.1, fun v hv => isSchemeTail_lower (h.2 v hv)⟩

/-- No delimiter may stand in a scheme. -/
theorem not_mem_of_isValidScheme {scheme : Bytes} (h : isValidScheme scheme = true)
    {byte : UInt8} (hbyte : isSchemeTail byte = false) : byte ∉ scheme := by
  cases scheme with
  | nil => exact List.not_mem_nil
  | cons value tail =>
    rw [isValidScheme, Bool.and_eq_true, List.all_eq_true] at h
    intro hmem
    obtain rfl | hmem := List.mem_cons.mp hmem
    · simp only [isSchemeTail, isAsciiAlnum, h.1, Bool.true_or, Bool.true_eq_false] at hbyte
    · rw [h.2 byte hmem] at hbyte
      cases hbyte

/-! ## Cuts -/

/-- A component that may be missing, behind its delimiter. -/
def delimited (delimiter : Bytes) : Option Bytes → Bytes
  | none => []
  | some part => delimiter ++ part

/-- A cut is undone by putting the delimiter back, and none is left before it. -/
theorem cut_spec (byte : UInt8) (text : Bytes) :
    text = (cut byte text).1 ++ delimited [byte] (cut byte text).2 ∧ byte ∉ (cut byte text).1 := by
  unfold cut
  cases hfind : find [byte] text with
  | none => exact ⟨(List.append_nil text).symm, find_byte_none hfind⟩
  | some pos =>
    obtain ⟨before, after, rfl, hbefore, rfl⟩ := find_byte_some hfind
    simp only [substr, List.drop_zero, List.take_left', delimited, List.singleton_append,
      drop_succ_append]
    exact ⟨trivial, hbefore⟩

/-- A text without the delimiter and what follows it are cut apart. -/
theorem cut_append {byte : UInt8} {before : Bytes} (after : Option Bytes) (h : byte ∉ before) :
    cut byte (before ++ delimited [byte] after) = (before, after) := by
  cases after with
  | none =>
    rw [delimited, List.append_nil, cut, find_byte_absent h]
  | some after =>
    rw [delimited, List.singleton_append, cut, find_byte_append after h]
    simp only [substr, List.drop_zero, List.take_left', drop_succ_append]

/-! ## Well-formed components -/

/-- The components of a URI, those that may be missing as options. -/
structure Components where
  scheme : Bytes
  authority : Option Bytes
  path : Bytes
  query : Option Bytes
  fragment : Option Bytes

/-- The hierarchical part. -/
def Components.hierarchical (c : Components) : Bytes :=
  delimited [slashByte, slashByte] c.authority ++ c.path

/-- What follows the scheme and its colon. -/
def Components.rest (c : Components) : Bytes :=
  c.hierarchical ++ delimited [questionByte] c.query ++ delimited [hashByte] c.fragment

/-- The URI of the components. -/
def Components.uri (c : Components) : URI :=
  .assemble c.scheme c.authority c.path c.query c.fragment

/-- No component holds a delimiter that would cut it. -/
structure Components.WellFormed (c : Components) : Prop where
  scheme : isValidScheme c.scheme = true
  lower : lowerAscii c.scheme = c.scheme
  authority : ∀ a, c.authority = some a →
    slashByte ∉ a ∧ questionByte ∉ a ∧ hashByte ∉ a ∧
      (c.path = [] ∨ [slashByte] <+: c.path)
  relative : c.authority = none → ¬[slashByte, slashByte] <+: c.path
  path : questionByte ∉ c.path ∧ hashByte ∉ c.path
  query : ∀ q, c.query = some q → hashByte ∉ q

/-- Every hierarchical part is an authority and a path, in one way. -/
theorem cutHierarchical_spec (text : Bytes) :
    delimited [slashByte, slashByte] (cutHierarchical text).1 ++ (cutHierarchical text).2 = text ∧
      (∀ a, (cutHierarchical text).1 = some a → slashByte ∉ a ∧
        ((cutHierarchical text).2 = [] ∨ [slashByte] <+: (cutHierarchical text).2)) ∧
      ((cutHierarchical text).1 = none →
        ¬[slashByte, slashByte] <+: (cutHierarchical text).2) := by
  unfold cutHierarchical
  split
  · next hprefix =>
    obtain ⟨after, rfl⟩ := List.isPrefixOf_iff_prefix.mp hprefix
    have hdrop : ([slashByte, slashByte] ++ after).drop 2 = after := rfl
    rw [hdrop]
    dsimp only
    cases hfind : find [slashByte] after with
    | none =>
      refine ⟨List.append_nil _, fun a ha => ?_, fun h => by cases h⟩
      cases ha
      exact ⟨find_byte_none hfind, Or.inl rfl⟩
    | some pos =>
      obtain ⟨before, path, rfl, hbefore, rfl⟩ := find_byte_some hfind
      dsimp only
      rw [substr, List.drop_zero, List.take_left' rfl, List.drop_left' rfl]
      refine ⟨List.append_assoc _ _ _, fun a ha => ?_, fun h => by cases h⟩
      cases ha
      exact ⟨hbefore, Or.inr (List.cons_prefix_cons.mpr ⟨rfl, List.nil_prefix⟩)⟩
  · next hprefix =>
    rw [List.isPrefixOf_iff_prefix] at hprefix
    exact ⟨List.nil_append _, fun _ ha => absurd ha (Option.some_ne_none _).symm, fun _ => hprefix⟩

theorem cutHierarchical_append {c : Components} (h : c.WellFormed) :
    cutHierarchical c.hierarchical = (c.authority, c.path) := by
  unfold cutHierarchical Components.hierarchical
  cases hauthority : c.authority with
  | none =>
    have hrelative := h.relative hauthority
    rw [delimited, List.nil_append, if_neg]
    rwa [List.isPrefixOf_iff_prefix]
  | some a =>
    obtain ⟨hslash, -, -, hpath⟩ := h.authority a hauthority
    rw [delimited, List.append_assoc, if_pos (List.isPrefixOf_iff_prefix.mpr ⟨_, rfl⟩)]
    have hdrop : ([slashByte, slashByte] ++ (a ++ c.path)).drop 2 = a ++ c.path := rfl
    rw [hdrop]
    dsimp only
    obtain hnil | ⟨after, hafter⟩ := hpath
    · rw [hnil, List.append_nil, find_byte_absent hslash]
    · rw [← hafter, List.singleton_append, find_byte_append after hslash]
      dsimp only
      rw [substr, List.drop_zero, List.take_left' rfl, List.drop_left' rfl]

/-! ## What is accepted -/

/-- The part before a query holds none of its delimiters. -/
theorem Components.WellFormed.hierarchical_free {c : Components} (h : c.WellFormed) :
    questionByte ∉ c.hierarchical ∧ hashByte ∉ c.hierarchical := by
  have hslash : questionByte ∉ [slashByte, slashByte] ∧ hashByte ∉ [slashByte, slashByte] := by
    decide
  unfold Components.hierarchical
  cases hauthority : c.authority with
  | none => exact h.path
  | some a =>
    obtain ⟨-, hquestion, hhash, -⟩ := h.authority a hauthority
    simp only [delimited, List.mem_append, not_or]
    exact ⟨⟨⟨hslash.1, hquestion⟩, h.path.1⟩, ⟨hslash.2, hhash⟩, h.path.2⟩

/-- What follows the colon is cut into well-formed components. -/
theorem exists_components (raw after : Bytes) :
    ∃ c : Components, after = c.rest ∧ c.scheme = lowerAscii raw ∧
      cut hashByte after = (c.hierarchical ++ delimited [questionByte] c.query, c.fragment) ∧
      cut questionByte (c.hierarchical ++ delimited [questionByte] c.query) =
        (c.hierarchical, c.query) ∧
      cutHierarchical c.hierarchical = (c.authority, c.path) ∧
      (isValidScheme raw = true → c.WellFormed) := by
  obtain ⟨hfragment, hhash⟩ := cut_spec hashByte after
  cases hcut : cut hashByte after with
  | mk withoutFragment fragment =>
  rw [hcut] at hfragment hhash
  dsimp only at hfragment hhash
  obtain ⟨hquery, hquestion⟩ := cut_spec questionByte withoutFragment
  cases hcut' : cut questionByte withoutFragment with
  | mk hierarchical query =>
  rw [hcut'] at hquery hquestion
  dsimp only at hquery hquestion
  obtain ⟨hhierarchical, hauthority, hrelative⟩ := cutHierarchical_spec hierarchical
  cases hcut'' : cutHierarchical hierarchical with
  | mk authority path =>
  rw [hcut''] at hhierarchical hauthority hrelative
  dsimp only at hhierarchical hauthority hrelative
  subst hhierarchical hquery hfragment
  simp only [List.mem_append, not_or] at hhash hquestion
  refine ⟨⟨lowerAscii raw, authority, path, query, fragment⟩, rfl, rfl, rfl, hcut', hcut'',
    fun hraw => ?_⟩
  refine ⟨isValidScheme_lower hraw, lowerAscii_idem raw, fun a ha => ?_, hrelative,
    ⟨hquestion.2, hhash.1.2⟩, fun q hq => ?_⟩
  · obtain ⟨hslash, hpath⟩ := hauthority a ha
    dsimp only at ha
    subst ha
    have h1 := hquestion.1
    have h2 := hhash.1.1
    simp only [delimited, List.mem_append, not_or] at h1 h2
    exact ⟨hslash, h1.2, h2.2, hpath⟩
  · dsimp only at hq
    subst hq
    have h1 := hhash.2
    simp only [delimited, List.mem_append, not_or] at h1
    exact h1.2

/-- A spelling of well-formed components, its scheme in any case, is parsed into them. -/
theorem URI.parse_rest {c : Components} (h : c.WellFormed) {raw : Bytes}
    (hraw : isValidScheme raw = true) (hlower : lowerAscii raw = c.scheme) :
    URI.parse (raw ++ colonByte :: c.rest) = .ok c.uri := by
  have hcolon : colonByte ∉ raw := not_mem_of_isValidScheme hraw (by decide)
  have hslash : slashByte ∉ raw := not_mem_of_isValidScheme hraw (by decide)
  have hquestion : questionByte ∉ raw := not_mem_of_isValidScheme hraw (by decide)
  have hhash : hashByte ∉ raw := not_mem_of_isValidScheme hraw (by decide)
  have hnonempty : raw ++ colonByte :: c.rest ≠ [] := by
    intro hnil
    cases List.append_eq_nil_iff.mp hnil |>.2
  have hdelimiter : ¬(findFirstOf [slashByte, questionByte, hashByte]
      (raw ++ colonByte :: c.rest)).any (· < raw.length) = true := by
    intro hany
    obtain ⟨i, hi, hlt⟩ := (Option.any_eq_true _ _).mp hany
    rw [decide_eq_true_eq] at hlt
    obtain ⟨hlength, hmem, -⟩ := List.findIdx?_eq_some_iff_getElem.mp hi
    rw [List.getElem_append_left hlt, decide_eq_true_eq] at hmem
    have hin := List.getElem_mem hlt
    simp only [List.mem_cons, List.not_mem_nil, or_false] at hmem
    obtain heq | heq | heq := hmem
    · exact hslash (heq ▸ hin)
    · exact hquestion (heq ▸ hin)
    · exact hhash (heq ▸ hin)
  have hfree := h.hierarchical_free
  have hquery : hashByte ∉ c.hierarchical ++ delimited [questionByte] c.query := by
    rw [List.mem_append, not_or]
    refine ⟨hfree.2, ?_⟩
    cases hq : c.query with
    | none => exact List.not_mem_nil
    | some q =>
      rw [delimited, List.singleton_append]
      exact List.not_mem_cons_of_ne_of_not_mem (by decide) (h.query q hq)
  rw [URI.parse, if_neg hnonempty, find_byte_append c.rest hcolon]
  dsimp only
  rw [if_neg hdelimiter, substr, List.drop_zero, List.take_left' rfl, if_neg (by rw [hraw]; decide),
    drop_succ_append, Components.rest, cut_append c.fragment hquery]
  dsimp only
  rw [cut_append c.query hfree.1]
  dsimp only
  rw [cutHierarchical_append h, hlower, Components.uri]

/-- What is accepted is a spelling of well-formed components. -/
theorem URI.parse_ok {input : Bytes} {uri : URI} (h : URI.parse input = .ok uri) :
    ∃ (raw : Bytes) (c : Components), input = raw ++ colonByte :: c.rest ∧ c.WellFormed ∧
      isValidScheme raw = true ∧ lowerAscii raw = c.scheme ∧ uri = c.uri := by
  unfold URI.parse at h
  split at h
  · cases h
  · split at h
    · cases h
    · next schemeEnd hfind =>
      obtain ⟨raw, after, rfl, hcolon, rfl⟩ := find_byte_some hfind
      split at h
      · cases h
      · rw [substr, List.drop_zero, List.take_left' rfl, drop_succ_append] at h
        dsimp only at h
        split at h
        · cases h
        · next hraw =>
          obtain ⟨c, hrest, hscheme, hfragment, hquery, hhierarchical, hwell⟩ :=
            exists_components raw after
          rw [Bool.not_eq_false] at hraw
          refine ⟨raw, c, by rw [hrest], hwell hraw, hraw, hscheme.symm, ?_⟩
          rw [hfragment] at h
          dsimp only at h
          rw [hquery] at h
          dsimp only at h
          rw [hhierarchical, ← hscheme] at h
          exact (Except.ok.inj h).symm

/-! ## What is kept -/

/-- A text spells a component where its segment says, if the component is present. -/
def Spells (text : Bytes) (segment : Segment) (part : Option Bytes) : Prop :=
  match part with
  | none => segment.offset = none
  | some part => ∃ before after, text = before ++ part ++ after ∧
      segment = { offset := some before.length, size := part.length }

theorem Spells.append {text text' more : Bytes} {segment : Segment} {part : Option Bytes}
    (h : Spells text segment part) (htext : text' = text ++ more) :
    Spells text' segment part := by
  subst htext
  cases part with
  | none => exact h
  | some part =>
    obtain ⟨before, after, rfl, hsegment⟩ := h
    exact ⟨before, after ++ more, List.append_assoc _ _ _, hsegment⟩

theorem appendPresent_spells (text delimiter : Bytes) (part : Option Bytes) :
    (appendPresent text delimiter part).1 = text ++ delimited delimiter part ∧
      Spells (appendPresent text delimiter part).1 (appendPresent text delimiter part).2 part := by
  cases part with
  | none => exact ⟨(List.append_nil text).symm, rfl⟩
  | some part =>
    exact ⟨List.append_assoc _ _ _, text ++ delimiter, [], (List.append_nil _).symm, rfl⟩

theorem appendSegment_spells (text part : Bytes) :
    (appendSegment text part).1 = text ++ part ∧
      Spells (appendSegment text part).1 (appendSegment text part).2 (some part) :=
  ⟨rfl, text, [], (List.append_nil _).symm, rfl⟩

/-- The URI of components spells them, and each of them where its segment says. -/
theorem Components.uri_spells (c : Components) :
    c.uri.text = c.scheme ++ colonByte :: c.rest ∧
      Spells c.uri.text c.uri.schemeSegment (some c.scheme) ∧
      Spells c.uri.text c.uri.authoritySegment c.authority ∧
      Spells c.uri.text c.uri.pathSegment (some c.path) ∧
      Spells c.uri.text c.uri.querySegment c.query ∧
      Spells c.uri.text c.uri.fragmentSegment c.fragment := by
  unfold Components.uri URI.assemble
  dsimp only
  obtain ⟨hscheme, hschemeAt⟩ := appendSegment_spells [] c.scheme
  generalize appendSegment [] c.scheme = scheme at *
  obtain ⟨hauthority, hauthorityAt⟩ :=
    appendPresent_spells (scheme.1 ++ [colonByte]) [slashByte, slashByte] c.authority
  generalize appendPresent (scheme.1 ++ [colonByte]) _ c.authority = authority at *
  obtain ⟨hpath, hpathAt⟩ := appendSegment_spells authority.1 c.path
  generalize appendSegment authority.1 c.path = path at *
  obtain ⟨hquery, hqueryAt⟩ := appendPresent_spells path.1 [questionByte] c.query
  generalize appendPresent path.1 _ c.query = query at *
  obtain ⟨hfragment, hfragmentAt⟩ := appendPresent_spells query.1 [hashByte] c.fragment
  generalize appendPresent query.1 _ c.fragment = fragment at *
  have htext : fragment.1 = c.scheme ++ colonByte :: c.rest := by
    rw [hfragment, hquery, hpath, hauthority, hscheme, Components.rest,
      Components.hierarchical]
    simp only [List.nil_append, List.append_assoc, List.cons_append]
  have hscheme' : fragment.1 = scheme.1 ++ colonByte :: c.rest := by
    rw [htext, hscheme, List.nil_append]
  exact ⟨htext, hschemeAt.append hscheme', ((hauthorityAt.append hpath).append hquery).append hfragment,
    (hpathAt.append hquery).append hfragment, hqueryAt.append hfragment, hfragmentAt⟩

theorem URI.view_of_spells {uri : URI} {segment : Segment} {part : Option Bytes}
    (h : Spells uri.text segment part) :
    uri.view segment = part.getD [] ∧ segment.offset.isSome = part.isSome := by
  cases part with
  | none =>
    have hoffset : segment.offset = none := h
    rw [URI.view, hoffset]
    exact ⟨rfl, rfl⟩
  | some part =>
    obtain ⟨before, after, htext, rfl⟩ := h
    refine ⟨?_, rfl⟩
    rw [URI.view, htext]
    dsimp only
    rw [substr, List.append_assoc, List.drop_left' rfl, List.take_left' rfl, Option.getD_some]

/-- The components of the URI of components are those. -/
theorem Components.uri_views (c : Components) :
    c.uri.scheme = c.scheme ∧ c.uri.path = c.path ∧
      (c.uri.authority = c.authority.getD [] ∧ c.uri.hasAuthority = c.authority.isSome) ∧
      (c.uri.query = c.query.getD [] ∧ c.uri.hasQuery = c.query.isSome) ∧
      c.uri.fragment = c.fragment.getD [] ∧ c.uri.hasFragment = c.fragment.isSome := by
  obtain ⟨-, hscheme, hauthority, hpath, hquery, hfragment⟩ := c.uri_spells
  exact ⟨(URI.view_of_spells hscheme).1, (URI.view_of_spells hpath).1,
    URI.view_of_spells hauthority, URI.view_of_spells hquery, URI.view_of_spells hfragment⟩

theorem delimited_getD (delimiter : Bytes) (part : Option Bytes) :
    delimited delimiter part = if part.isSome then delimiter ++ part.getD [] else [] := by
  cases part <;> rfl

/-- A URI that is parsed is the input with its scheme in lower case; its components,
behind their delimiters, spell it; none holds a delimiter that would cut it; and what it
is spelled as is parsed into it again. -/
theorem URI.parse_spelling (input : Bytes) (uri : URI) (h : URI.parse input = .ok uri) :
    (∃ scheme rest, input = scheme ++ colonByte :: rest ∧ colonByte ∉ scheme ∧
      uri.scheme = lowerAscii scheme ∧ uri.str = lowerAscii scheme ++ colonByte :: rest) ∧
    uri.str = uri.scheme ++ [colonByte] ++
      (if uri.hasAuthority then [slashByte, slashByte] ++ uri.authority else []) ++ uri.path ++
      (if uri.hasQuery then [questionByte] ++ uri.query else []) ++
      (if uri.hasFragment then [hashByte] ++ uri.fragment else []) ∧
    (uri.hasAuthority = false → ¬[slashByte, slashByte] <+: uri.path) ∧
    hashByte ∉ uri.query ∧
    (questionByte ∉ uri.path ∧ hashByte ∉ uri.path) ∧
    (slashByte ∉ uri.authority ∧ questionByte ∉ uri.authority ∧ hashByte ∉ uri.authority) ∧
    URI.parse uri.str = .ok uri := by
  obtain ⟨raw, c, rfl, hwell, hraw, hlower, rfl⟩ := URI.parse_ok h
  obtain ⟨hscheme, hpath, ⟨hauthority, hhasAuthority⟩, ⟨hquery, hhasQuery⟩, hfragment,
    hhasFragment⟩ := c.uri_views
  obtain ⟨htext, -⟩ := c.uri_spells
  rw [URI.str, htext, hscheme, hpath, hauthority, hhasAuthority, hquery, hhasQuery, hfragment,
    hhasFragment]
  refine ⟨⟨raw, c.rest, rfl, not_mem_of_isValidScheme hraw (by decide), hlower.symm,
    by rw [hlower]⟩, ?_, fun hnone => ?_, ?_, hwell.path, ?_, ?_⟩
  · rw [← delimited_getD, ← delimited_getD, ← delimited_getD, Components.rest,
      Components.hierarchical]
    simp only [List.nil_append, List.append_assoc, List.cons_append]
  · exact hwell.relative (Option.isSome_eq_false_iff.mp hnone |> Option.isNone_iff_eq_none.mp)
  · cases hq : c.query with
    | none => exact List.not_mem_nil
    | some q => exact hwell.query q hq
  · cases ha : c.authority with
    | none => exact ⟨List.not_mem_nil, List.not_mem_nil, List.not_mem_nil⟩
    | some a =>
      obtain ⟨hslash, hquestion, hhash, -⟩ := hwell.authority a ha
      exact ⟨hslash, hquestion, hhash⟩
  · exact URI.parse_rest hwell hwell.scheme hwell.lower

/-- A query that looks like an authority, behind an empty one. -/
theorem URI.parse_spelling_probe :
    ∃ uri, URI.parse (ascii "File:///?//#") = .ok uri ∧ URI.parse uri.str = .ok uri := by
  refine ⟨_, rfl, ?_⟩
  obtain ⟨-, -, -, -, -, -, hagain⟩ := URI.parse_spelling (ascii "File:///?//#") _ rfl
  exact hagain

end Kotatsu.Ipc.Lsp
