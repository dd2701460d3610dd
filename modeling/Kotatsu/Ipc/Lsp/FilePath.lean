import Kotatsu.Ipc.Lsp.PercentCoding

/-!
# File paths of URIs

An absolute path becomes a `file` URI: a UNC path one whose authority is the server, any
other one whose authority is empty. The components are well-formed, so the text is parsed
into them again, and they are decoded into the path they were made of. A server named
`localhost` is the exception: on the way back it is the local machine and is left out.
-/

namespace Kotatsu.Ipc.Lsp

open Kotatsu.Core

/-- `'['`. -/
def openBracket : UInt8 := 0x5B

/-- `']'`. -/
def closeBracket : UInt8 := 0x5D

/-- `is_ascii_iequal`. -/
def isAsciiIequal (left right : Bytes) : Bool :=
  if left.length ≠ right.length then false
  else (left.zip right).all fun pair => toAsciiLower pair.1 == toAsciiLower pair.2

/-- `is_windows_drive_prefix`. -/
def isWindowsDrivePrefix : Bytes → Bool
  | letter :: colon :: _ => isAsciiAlpha letter && colon == colonByte
  | _ => false

/-- `is_windows_drive_absolute`. -/
def isWindowsDriveAbsolute (path : Bytes) : Bool :=
  decide (path.length ≥ 3) && isWindowsDrivePrefix path && path[2]? == some slashByte

/-- `is_absolute_fs_path`. -/
def isAbsoluteFsPath (path : Bytes) : Bool :=
  [slashByte].isPrefixOf path || [slashByte, slashByte].isPrefixOf path ||
    isWindowsDriveAbsolute path

/-! ## To a URI -/

/-- `encode_authority_host`: the brackets of an IPv6 literal are kept. -/
def encodeAuthorityHost (host : Bytes) : Bytes :=
  if host.length ≥ 2 ∧ host.head? = some openBracket ∧ host.getLast? = some closeBracket then
    [openBracket] ++ percentEncodeWithPolicy (substr host 1 (host.length - 2)) true ++
      [closeBracket]
  else percentEncodeWithPolicy host true

/-- The segment of a component that is missing. -/
def Segment.missing : Segment := { offset := none, size := 0 }

/-- What `from_file_path` makes of a UNC path. -/
def URI.fromUnc (unc : Bytes) : Except String URI :=
  let scheme := appendSegment [] (ascii "file")
  let start := scheme.1 ++ [colonByte] ++ [slashByte, slashByte]
  let hostAndRest := unc.drop 2
  match find [slashByte] hostAndRest with
  | none => .error "unc path must include server and share"
  | some firstSlash =>
    if firstSlash = 0 then .error "unc path must include server and share"
    else
      let shareStart := firstSlash + 1
      if shareStart ≥ hostAndRest.length ∨ hostAndRest[shareStart]? = some slashByte then
        .error "unc path must include non-empty share"
      else
        let host := substr hostAndRest 0 firstSlash
        let shareAndPath := hostAndRest.drop firstSlash
        let authority := appendSegment start (encodeAuthorityHost host)
        let path := appendSegment authority.1 (URI.percentEncode shareAndPath false)
        .ok { text := path.1, schemeSegment := scheme.2, authoritySegment := authority.2,
              pathSegment := path.2, querySegment := .missing, fragmentSegment := .missing }

/-- What `from_file_path` makes of any other path. -/
def URI.fromLocal (normalizedPath : Bytes) : URI :=
  let scheme := appendSegment [] (ascii "file")
  let start := scheme.1 ++ [colonByte] ++ [slashByte, slashByte]
  let normalizedPath :=
    if isWindowsDriveAbsolute normalizedPath then slashByte :: normalizedPath else normalizedPath
  let authority : Segment := { offset := some start.length, size := 0 }
  let path := appendSegment start (URI.percentEncode normalizedPath false)
  { text := path.1, schemeSegment := scheme.2, authoritySegment := authority,
    pathSegment := path.2, querySegment := .missing, fragmentSegment := .missing }

/-- `URI::from_file_path`. -/
def URI.fromFilePath (path : Bytes) : Except String URI :=
  if path = [] then .error "path is empty"
  else
    let normalizedPath :=
      if path.contains backslashByte then
        path.map fun value => if value = backslashByte then slashByte else value
      else path
    if isWindowsDrivePrefix normalizedPath && !isWindowsDriveAbsolute normalizedPath then
      .error "windows drive path must be absolute"
    else if isAbsoluteFsPath normalizedPath = false then .error "path must be absolute"
    else if [slashByte, slashByte].isPrefixOf normalizedPath then URI.fromUnc normalizedPath
    else .ok (URI.fromLocal normalizedPath)

/-! ## And back -/

/-- `URI::is_file`. -/
def URI.isFile (uri : URI) : Bool := uri.scheme == ascii "file"

/-- `URI::file_path`, where paths are not Windows paths. -/
def URI.filePath (uri : URI) : Except String Bytes :=
  if uri.isFile = false then .error "uri scheme is not file"
  else
    match URI.percentDecode uri.path with
    | .error e => .error e
    | .ok decodedPath =>
      if uri.hasAuthority ∧ uri.authority ≠ [] ∧
          isAsciiIequal uri.authority (ascii "localhost") = false then
        match URI.percentDecode uri.authority with
        | .error e => .error e
        | .ok decodedAuthority =>
          if decodedAuthority.any fun value => value == slashByte || value == backslashByte then
            .error "file uri authority contains path separator"
          else .ok ([slashByte, slashByte] ++ decodedAuthority ++ decodedPath)
      else if decodedPath = [] ∨ decodedPath[0]? ≠ some slashByte then
        .error "file uri local path must be absolute"
      else .ok decodedPath

/-! ## Hosts -/

theorem isAsciiIequal_iff {left right : Bytes} :
    isAsciiIequal left right = true ↔ lowerAscii left = lowerAscii right := by
  unfold isAsciiIequal lowerAscii
  induction left generalizing right with
  | nil => cases right <;> simp
  | cons x left ih =>
    cases right with
    | nil => simp
    | cons y right =>
      have hrest := @ih right
      by_cases hlength : left.length = right.length
      · rw [if_neg (not_not_intro hlength)] at hrest
        rw [if_neg (by simp only [List.length_cons, hlength, ne_eq, not_true_eq_false,
          not_false_eq_true]), List.zip_cons_cons, List.all_cons, Bool.and_eq_true, hrest,
          beq_iff_eq, List.map_cons, List.map_cons, List.cons.injEq]
      · have hne : ¬(x :: left).map toAsciiLower = (y :: right).map toAsciiLower := by
          intro heq
          have hlengths := congrArg List.length heq
          simp only [List.length_map, List.length_cons, Nat.add_right_cancel_iff] at hlengths
          exact hlength hlengths
        have hlengths : (x :: left).length ≠ (y :: right).length := by
          simpa only [List.length_cons, ne_eq, Nat.add_right_cancel_iff] using hlength
        rw [if_pos hlengths]
        exact ⟨fun h => absurd h Bool.false_ne_true, fun h => absurd h hne⟩

/-- A host in brackets is its inside between them. -/
theorem bracketed_host {host : Bytes} (hlength : host.length ≥ 2)
    (hopen : host.head? = some openBracket) (hclose : host.getLast? = some closeBracket) :
    host = openBracket :: (substr host 1 (host.length - 2) ++ [closeBracket]) := by
  cases host with
  | nil => cases hopen
  | cons first rest =>
    obtain rfl : first = openBracket := Option.some.inj hopen
    have hrest : rest ≠ [] := by
      rintro rfl
      exact absurd hlength (by decide)
    have hlast : rest.getLast? = some closeBracket := by
      rwa [List.getLast?_cons_of_ne_nil hrest] at hclose
    have hinside : substr (openBracket :: rest) 1 ((openBracket :: rest).length - 2) =
        rest.dropLast := by
      rw [substr, List.drop_succ_cons, List.drop_zero, List.dropLast_eq_take, List.length_cons]
      rfl
    rw [hinside, List.dropLast_append_getLast? _ hlast]

/-- A host is decoded as it was before it was encoded. -/
theorem percentDecode_authorityHost (host : Bytes) :
    URI.percentDecode (encodeAuthorityHost host) = .ok host := by
  unfold encodeAuthorityHost
  split
  · next hbracket =>
    have hhost := bracketed_host hbracket.1 hbracket.2.1 hbracket.2.2
    generalize substr host 1 (host.length - 2) = inside at hhost
    rw [hhost, List.append_assoc, List.singleton_append,
      URI.percentDecode_cons _ (by decide), URI.percentDecode_append,
      URI.percentDecode_plain (by decide)]
    rfl
  · exact URI.percentDecode_encodeWithPolicy host true

/-- No byte that would cut an authority stands in an encoded host. -/
theorem not_mem_authorityHost {byte : UInt8} (host : Bytes)
    (hencoded : shouldEncode byte true = true)
    (hbyte : byte ∉ [percentByte, openBracket, closeBracket]) :
    byte ∉ encodeAuthorityHost host := by
  simp only [List.mem_cons, List.not_mem_nil, or_false, not_or] at hbyte
  unfold encodeAuthorityHost
  split
  · simp only [List.mem_append, List.mem_singleton, not_or]
    exact ⟨⟨hbyte.2.1, not_mem_percentEncode _ hencoded hbyte.1⟩, hbyte.2.2⟩
  · exact not_mem_percentEncode _ hencoded hbyte.1

theorem encodeAuthorityHost_ne_nil {host : Bytes} (h : host ≠ []) :
    encodeAuthorityHost host ≠ [] := by
  intro hnil
  have hdecoded := percentDecode_authorityHost host
  rw [hnil, URI.percentDecode] at hdecoded
  exact h (Except.ok.inj hdecoded).symm

/-- The bytes of `localhost` in either case are kept, and no bracket is among them. -/
theorem kept_of_localhost {value : UInt8} (h : toAsciiLower value ∈ ascii "localhost") :
    shouldEncode value true = false ∧ value ≠ openBracket := by
  have hkept : ∀ n < 256, let v := UInt8.ofNat n
      toAsciiLower v ∈ ascii "localhost" → shouldEncode v true = false ∧ v ≠ openBracket := by
    decide +kernel
  have hvalue := hkept value.toNat value.toNat_lt
  rw [UInt8.ofNat_toNat] at hvalue
  exact hvalue h

/-- An encoded host is `localhost` in some case only when the host is. -/
theorem authorityHost_localhost (host : Bytes) :
    isAsciiIequal (encodeAuthorityHost host) (ascii "localhost") = true ↔
      lowerAscii host = ascii "localhost" := by
  have hlower : lowerAscii (ascii "localhost") = ascii "localhost" := by decide
  rw [isAsciiIequal_iff, hlower]
  constructor
  · intro h
    have hplain : percentByte ∉ encodeAuthorityHost host := by
      intro hmem
      have hin : toAsciiLower percentByte ∈ lowerAscii (encodeAuthorityHost host) :=
        List.mem_map_of_mem hmem
      rw [h] at hin
      exact absurd hin (by decide)
    have hsame := percentDecode_authorityHost host
    rw [URI.percentDecode_plain hplain] at hsame
    rwa [Except.ok.inj hsame] at h
  · intro h
    have hkept : ∀ value ∈ host, shouldEncode value true = false ∧ value ≠ openBracket := by
      intro value hvalue
      refine kept_of_localhost ?_
      rw [← h]
      exact List.mem_map_of_mem hvalue
    have hopen : ¬(host.length ≥ 2 ∧ host.head? = some openBracket ∧
        host.getLast? = some closeBracket) := by
      intro hbracket
      exact (hkept _ (List.mem_of_head? hbracket.2.1)).2 rfl
    rw [encodeAuthorityHost, if_neg hopen, percentEncode_kept fun v hv => (hkept v hv).1, h]

/-! ## The components -/

/-- The components of a `file` URI. -/
def fileComponents (authority path : Bytes) : Components :=
  { scheme := ascii "file", authority := some authority, path := path, query := none,
    fragment := none }

/-- A path `//server/share`, the share with whatever follows it. -/
structure IsUnc (path server share : Bytes) : Prop where
  spelled : path = [slashByte, slashByte] ++ server ++ [slashByte] ++ share
  server : server ≠ [] ∧ slashByte ∉ server
  share : share ≠ [] ∧ ¬[slashByte] <+: share

/-- Whatever the host and the path are, encoding makes well-formed components of them. -/
theorem fileComponents_wellFormed {authority : Bytes} (path : Bytes)
    (hauthority : slashByte ∉ authority ∧ questionByte ∉ authority ∧ hashByte ∉ authority) :
    (fileComponents authority (URI.percentEncode (slashByte :: path) false)).WellFormed := by
  have hpath : [slashByte] <+: URI.percentEncode (slashByte :: path) false := by
    rw [URI.percentEncode, percentEncodeWithPolicy_cons]
    exact List.prefix_append [slashByte] _
  have hscheme : isValidScheme (ascii "file") = true := by decide
  have hlower : lowerAscii (ascii "file") = ascii "file" := by decide
  refine ⟨hscheme, hlower, fun a ha => ?_, nofun, ⟨?_, ?_⟩, nofun⟩
  · obtain rfl : authority = a := Option.some.inj ha
    exact ⟨hauthority.1, hauthority.2.1, hauthority.2.2, Or.inr hpath⟩
  · exact not_mem_percentEncode _ (by decide) (by decide)
  · exact not_mem_percentEncode _ (by decide) (by decide)

/-- The URI of well-formed components is parsed from its text. -/
theorem Components.WellFormed.parse_text {c : Components} (h : c.WellFormed) :
    URI.parse c.uri.text = .ok c.uri := by
  rw [c.uri_spells.1]
  exact URI.parse_rest h h.scheme h.lower

/-- The authority of a server, or none, holds no byte that would cut it. -/
theorem authority_free (host : Bytes) :
    slashByte ∉ encodeAuthorityHost host ∧ questionByte ∉ encodeAuthorityHost host ∧
      hashByte ∉ encodeAuthorityHost host :=
  ⟨not_mem_authorityHost host (by decide) (by decide),
    not_mem_authorityHost host (by decide) (by decide),
    not_mem_authorityHost host (by decide) (by decide)⟩

/-- A path with a server and a share becomes their URI. -/
theorem URI.fromUnc_eq {path server share : Bytes} (h : IsUnc path server share) :
    URI.fromUnc path = .ok (fileComponents (encodeAuthorityHost server)
      (URI.percentEncode (slashByte :: share) false)).uri := by
  have hdrop : path.drop 2 = server ++ slashByte :: share := by
    rw [h.spelled, List.append_assoc, List.append_assoc, List.singleton_append]
    rfl
  have hserver : server.length ≠ 0 := List.length_eq_zero_iff.not.mpr h.server.1
  have hshare : ¬(server.length + 1 ≥ (server ++ slashByte :: share).length ∨
      (server ++ slashByte :: share)[server.length + 1]? = some slashByte) := by
    have hlength : share.length ≠ 0 := List.length_eq_zero_iff.not.mpr h.share.1
    rw [← List.head?_drop, drop_succ_append, List.length_append, List.length_cons]
    rintro (hle | hhead)
    · omega
    · exact h.share.2 (List.head?_eq_some_iff.mp hhead |>.imp fun _ heq => heq.symm)
  rw [URI.fromUnc, hdrop]
  dsimp only
  rw [find_byte_append share h.server.2]
  dsimp only
  rw [if_neg hserver, if_neg hshare, substr, List.drop_zero, List.take_left' rfl,
    List.drop_left' rfl]
  rfl

/-- A path without a server or a share is refused. -/
theorem URI.fromUnc_error {path : Bytes} (hunc : [slashByte, slashByte] <+: path)
    (h : ¬∃ server share, IsUnc path server share) : ∃ e, URI.fromUnc path = .error e := by
  obtain ⟨hostAndRest, rfl⟩ := hunc
  have hdrop : ([slashByte, slashByte] ++ hostAndRest).drop 2 = hostAndRest := rfl
  rw [URI.fromUnc, hdrop]
  dsimp only
  cases hfind : find [slashByte] hostAndRest with
  | none => exact ⟨_, rfl⟩
  | some firstSlash =>
    dsimp only
    split
    · exact ⟨_, rfl⟩
    · next hfirst =>
      split
      · exact ⟨_, rfl⟩
      · next hshare =>
        obtain ⟨server, share, rfl, hserver, rfl⟩ := find_byte_some hfind
        rw [← List.head?_drop, drop_succ_append, List.length_append, List.length_cons,
          not_or] at hshare
        refine absurd ⟨server, share, ?_, ⟨?_, hserver⟩, ?_, ?_⟩ h
        · rw [List.append_assoc, List.append_assoc, List.singleton_append]
        · rintro rfl
          exact hfirst rfl
        · rintro rfl
          exact hshare.1 (Nat.le_refl _)
        · rintro ⟨rest, rfl⟩
          exact hshare.2 rfl

/-- A path that begins with a slash and holds no backslash is taken as it is. -/
theorem URI.fromFilePath_absolute {path : Bytes} (hslash : [slashByte] <+: path)
    (hback : backslashByte ∉ path) :
    URI.fromFilePath path =
      if [slashByte, slashByte].isPrefixOf path then URI.fromUnc path
      else .ok (fileComponents [] (URI.percentEncode path false)).uri := by
  obtain ⟨rest, rfl⟩ := hslash
  have hcontains : ¬([slashByte] ++ rest).contains backslashByte = true := by
    rwa [List.contains_iff_mem]
  have hdrive : isWindowsDrivePrefix ([slashByte] ++ rest) = false := by
    cases rest <;> rfl
  have hdriveAbsolute : isWindowsDriveAbsolute ([slashByte] ++ rest) = false := by
    rw [isWindowsDriveAbsolute, hdrive, Bool.and_false, Bool.false_and]
  have habsolute : ¬isAbsoluteFsPath ([slashByte] ++ rest) = false := by
    rw [isAbsoluteFsPath, List.isPrefixOf_iff_prefix.mpr (List.prefix_append _ _), Bool.true_or,
      Bool.true_or]
    decide
  have hnil : ¬[slashByte] ++ rest = [] := List.cons_ne_nil _ _
  rw [URI.fromFilePath, if_neg hnil]
  dsimp only
  rw [if_neg hcontains, hdrive, Bool.false_and, if_neg Bool.false_ne_true, if_neg habsolute,
    URI.fromLocal, hdriveAbsolute, if_neg Bool.false_ne_true]
  rfl

/-! ## The way back -/

/-- What a `file` URI is read as. -/
theorem fileComponents_views (authority path : Bytes) :
    (fileComponents authority path).uri.isFile = true ∧
      (fileComponents authority path).uri.path = path ∧
      (fileComponents authority path).uri.authority = authority ∧
      (fileComponents authority path).uri.hasAuthority = true := by
  obtain ⟨hscheme, hpath, ⟨hauthority, hhasAuthority⟩, -⟩ :=
    (fileComponents authority path).uri_views
  refine ⟨?_, hpath, hauthority, hhasAuthority⟩
  rw [URI.isFile, hscheme]
  exact beq_self_eq_true _

/-- A path on a server is decoded behind the server, unless that is the local machine. -/
theorem URI.filePath_server {authority server : Bytes} (path : Bytes) (hnil : authority ≠ [])
    (hlocal : isAsciiIequal authority (ascii "localhost") = false)
    (hdecoded : URI.percentDecode authority = .ok server)
    (hserver : slashByte ∉ server ∧ backslashByte ∉ server) :
    (fileComponents authority (URI.percentEncode path false)).uri.filePath =
      .ok ([slashByte, slashByte] ++ server ++ path) := by
  obtain ⟨hfile, hpath, hauthority, hhasAuthority⟩ :=
    fileComponents_views authority (URI.percentEncode path false)
  have hseparator :
      ¬(server.any fun value => value == slashByte || value == backslashByte) = true := by
    rw [List.any_eq_true]
    rintro ⟨value, hmem, hvalue⟩
    rw [Bool.or_eq_true, beq_iff_eq, beq_iff_eq] at hvalue
    obtain rfl | rfl := hvalue
    · exact hserver.1 hmem
    · exact hserver.2 hmem
  rw [URI.filePath, hfile, if_neg (by decide), hpath, hauthority, hhasAuthority,
    URI.percentEncode, URI.percentDecode_encodeWithPolicy]
  dsimp only
  rw [if_pos ⟨rfl, hnil, hlocal⟩, hdecoded]
  dsimp only
  rw [if_neg hseparator]

/-- A path on the local machine is decoded alone. -/
theorem URI.filePath_local {authority : Bytes} (path : Bytes)
    (hlocal : authority = [] ∨ isAsciiIequal authority (ascii "localhost") = true) :
    (fileComponents authority (URI.percentEncode (slashByte :: path) false)).uri.filePath =
      .ok (slashByte :: path) := by
  obtain ⟨hfile, hpath, hauthority, hhasAuthority⟩ :=
    fileComponents_views authority (URI.percentEncode (slashByte :: path) false)
  have hserver : ¬(true = true ∧ authority ≠ [] ∧
      isAsciiIequal authority (ascii "localhost") = false) := by
    rintro ⟨-, hnil, hnot⟩
    obtain hnone | hsome := hlocal
    · exact hnil hnone
    · rw [hsome] at hnot
      cases hnot
  have habsolute : ¬(slashByte :: path = [] ∨ (slashByte :: path)[0]? ≠ some slashByte) := by
    rintro (hnil | hfirst)
    · cases hnil
    · exact hfirst rfl
  rw [URI.filePath, hfile, if_neg (by decide), hpath, hauthority, hhasAuthority,
    URI.percentEncode, URI.percentDecode_encodeWithPolicy]
  dsimp only
  rw [if_neg hserver, if_neg habsolute]

/-- The URI of a path that begins with a slash is parsed from its text and gives the path
back, a server `localhost` left out; only a path that begins with two slashes and lacks a
server or a share has none. -/
theorem URI.filePath_spec (path : Bytes) (hslash : [slashByte] <+: path)
    (hback : backslashByte ∉ path) :
    (∀ uri, URI.fromFilePath path = .ok uri →
      URI.parse uri.text = .ok uri ∧
      ((¬∃ server share, IsUnc path server share ∧ lowerAscii server = ascii "localhost") →
        uri.filePath = .ok path) ∧
      ∀ server share, IsUnc path server share → lowerAscii server = ascii "localhost" →
        uri.filePath = .ok (slashByte :: share)) ∧
    ((∃ e, URI.fromFilePath path = .error e) ↔
      [slashByte, slashByte] <+: path ∧ ¬∃ server share, IsUnc path server share) ∧
    ∀ bytes encodeSlash,
      URI.percentDecode (URI.percentEncode bytes encodeSlash) = .ok bytes := by
  rw [URI.fromFilePath_absolute hslash hback]
  refine ⟨?_, ?_, URI.percentDecode_encodeWithPolicy⟩
  · intro uri huri
    split at huri
    · next hunc =>
      rw [List.isPrefixOf_iff_prefix] at hunc
      obtain ⟨server, share, h⟩ : ∃ server share, IsUnc path server share := by
        by_contra hnone
        obtain ⟨e, he⟩ := URI.fromUnc_error hunc hnone
        rw [he] at huri
        cases huri
      rw [URI.fromUnc_eq h] at huri
      obtain rfl := Except.ok.inj huri
      have hwell := fileComponents_wellFormed share (authority_free server)
      refine ⟨hwell.parse_text, fun hnot => ?_, fun server' share' h' hlocal => ?_⟩
      · have hlocal : isAsciiIequal (encodeAuthorityHost server) (ascii "localhost") = false := by
          rw [Bool.eq_false_iff, ne_eq, authorityHost_localhost]
          exact fun hlower => hnot ⟨server, share, h, hlower⟩
        have hserver : backslashByte ∉ server := by
          intro hmem
          rw [h.spelled] at hback
          simp only [List.mem_append, not_or] at hback
          exact hback.1.1.2 hmem
        rw [URI.filePath_server (slashByte :: share) (encodeAuthorityHost_ne_nil h.server.1)
          hlocal (percentDecode_authorityHost server) ⟨h.server.2, hserver⟩, h.spelled,
          List.append_assoc _ [slashByte], List.singleton_append]
      · rw [Except.ok.inj ((URI.fromUnc_eq h).symm.trans (URI.fromUnc_eq h')),
          URI.filePath_local share' (Or.inr ((authorityHost_localhost server').mpr hlocal))]
    · next hunc =>
      rw [List.isPrefixOf_iff_prefix] at hunc
      obtain ⟨rest, rfl⟩ := hslash
      obtain rfl := Except.ok.inj huri
      have hnone : ¬∃ server share, IsUnc ([slashByte] ++ rest) server share := by
        rintro ⟨server, share, h⟩
        refine hunc ?_
        rw [h.spelled, List.append_assoc, List.append_assoc]
        exact List.prefix_append _ _
      have hfree : slashByte ∉ ([] : Bytes) ∧ questionByte ∉ ([] : Bytes) ∧
          hashByte ∉ ([] : Bytes) := by decide
      exact ⟨(fileComponents_wellFormed rest hfree).parse_text,
        fun _ => URI.filePath_local rest (Or.inl rfl),
        fun server share h _ => absurd ⟨server, share, h⟩ hnone⟩
  · split
    · next hunc =>
      rw [List.isPrefixOf_iff_prefix] at hunc
      refine ⟨fun ⟨e, he⟩ => ⟨hunc, ?_⟩, fun h => URI.fromUnc_error hunc h.2⟩
      rintro ⟨server, share, h⟩
      rw [URI.fromUnc_eq h] at he
      cases he
    · next hunc =>
      rw [List.isPrefixOf_iff_prefix] at hunc
      refine ⟨fun ⟨e, he⟩ => ?_, fun h => absurd h.1 hunc⟩
      cases he

/-- A path on a server whose name is escaped. -/
theorem URI.filePath_spec_probe :
    ∃ uri, URI.fromFilePath (ascii "//a?/#") = .ok uri ∧ URI.parse uri.text = .ok uri := by
  obtain ⟨hok, hfails, -⟩ := URI.filePath_spec (ascii "//a?/#") (by decide) (by decide)
  cases huri : URI.fromFilePath (ascii "//a?/#") with
  | error e =>
    have h : IsUnc (ascii "//a?/#") (ascii "a?") (ascii "#") :=
      ⟨by decide, by decide, by decide⟩
    exact absurd ⟨_, _, h⟩ (hfails.mp ⟨e, huri⟩).2
  | ok uri => exact ⟨uri, rfl, (hok uri huri).1⟩

/-- A path on a server `localhost` does not come back with the server. -/
theorem URI.not_filePath_fromFilePath :
    ¬∀ path uri, [slashByte] <+: path → backslashByte ∉ path →
      URI.fromFilePath path = .ok uri → uri.filePath = .ok path := by
  intro h
  have hunc : IsUnc (ascii "//localhost/a") (ascii "localhost") (ascii "a") :=
    ⟨by decide, by decide, by decide⟩
  have hslash : [slashByte] <+: ascii "//localhost/a" := by decide
  have hback : backslashByte ∉ ascii "//localhost/a" := by decide
  have huri := URI.fromUnc_eq hunc
  have hlocal := (authorityHost_localhost (ascii "localhost")).mpr (by decide)
  have hpath := h _ _ hslash hback (by
    rw [URI.fromFilePath_absolute hslash hback, if_pos (by decide), huri])
  rw [URI.filePath_local _ (Or.inr hlocal)] at hpath
  exact absurd (Except.ok.inj hpath) (by decide)

end Kotatsu.Ipc.Lsp
