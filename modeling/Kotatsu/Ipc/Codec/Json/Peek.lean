import Kotatsu.Codec.Bincode.RoundTrip
import Kotatsu.Codec.Json.Encode
import Kotatsu.Ipc.Codec.Json.Head
import Kotatsu.Ipc.Codec.Message

/-!
# What the front of a message tells of it

`peek` reads the members at the front of an object until the text ends, noting a member
that says what kind of message it is at its key and the id at its value. A writer puts
the id before the method, the result and the error, so what a prefix of its message
tells of it is true of the message.
-/

namespace Kotatsu.Ipc.Codec.JsonCodec

open Kotatsu.Core Kotatsu.Core.Json Kotatsu.Codec.Json
open Kotatsu.Codec.Bincode (SignedInt UnsignedInt Dyn Width)

/-- What the codec uses of simdjson: also `from_string` of an integer, and how a double is
written. -/
structure Library extends Simdjson where
  readInteger : Bytes → Option (SignedInt .w64)
  formatDouble : UnsignedInt .w64 → Bytes

/-! ## Reading a head -/

/-- `read_id`. -/
def readId (lib : Library) (raw : Bytes) : Option RequestId :=
  match lib.readInteger raw with
  | some n => some (.number n)
  | none => (lib.readString raw).map .text

/-- `HeadMembers`. -/
structure HeadMembers where
  id : Option RequestId := none
  hasId : Bool := false
  hasMethod : Bool := false
  methodIsString : Bool := false
  answers : Bool := false

namespace HeadMembers

/-- `head`. -/
def head (m : HeadMembers) : MessageHead :=
  if m.hasMethod then { kind := if m.hasId then .request else .notification, id := m.id }
  else { kind := if m.answers && m.hasId then .response else .unknown, id := m.id }

/-- The members with a key that was read. -/
def noted (m : HeadMembers) (name : Bytes) : HeadMembers :=
  { m with
    hasMethod := m.hasMethod || name = ascii "method"
    answers := m.answers || (name = ascii "result" || name = ascii "error")
    hasId := m.hasId || name = ascii "id" }

/-- The members with the value of a key. -/
def held (lib : Library) (m : HeadMembers) (name value : Bytes) : HeadMembers :=
  if name = ascii "id" then { m with id := readId lib value }
  else if name = ascii "method" then { m with methodIsString := value.head? = some 0x22 }
  else m

end HeadMembers

/-- A turn of `read_head`: the members read, and the reader at the next key if there is one. -/
def readMember (lib : Library) (m : HeadMembers) (r : PrefixReader) :
    Except Stop (HeadMembers × Option PrefixReader) := do
  match ← r.string with
  | none => return (m, none)
  | some (key, r) =>
    match ← r.take 0x3A with
    | none => return (m, none)
    | some r =>
      let name := keyName lib.toSimdjson key
      let m := m.noted name
      match ← r.value with
      | none => return (m, none)
      | some (value, r) => return (m.held lib name value, ← r.take 0x2C)

/-- What a turn of `read_head` makes of what is left. -/
def memberOf (lib : Library) (m : HeadMembers) (s : Bytes) : HeadMembers × Option Bytes :=
  match readString s with
  | none => (m, none)
  | some (key, s) =>
    match readByte 0x3A s with
    | none => (m, none)
    | some s =>
      let name := keyName lib.toSimdjson key
      match readValue s with
      | none => (m.noted name, none)
      | some (value, s) => ((m.noted name).held lib name value, readByte 0x2C s)

theorem readByte_suffix {c : UInt8} {s t : Bytes} (h : readByte c s = some t) :
    t <:+ s ∧ t.length < s.length := by
  have hspace : skipSpace s <:+ s := List.dropWhile_suffix _
  rw [readByte] at h
  split at h
  case h_1 => cases h
  case h_2 b u hu =>
    split at h
    case isTrue =>
      cases h
      rw [hu] at hspace
      exact ⟨(List.suffix_cons b t).trans hspace, hspace.length_le⟩
    case isFalse => cases h

theorem readValue_suffix {s t v : Bytes} (h : readValue s = some (v, t)) : t <:+ s := by
  have hspace : skipSpace s <:+ s := List.dropWhile_suffix _
  rw [readValue] at h
  split at h
  case h_1 => cases h
  case h_2 c u hu =>
    rw [hu] at hspace
    split at h
    case isTrue => exact (PrefixReader.readString_suffix h).1.trans hspace
    case isFalse =>
      split at h
      case isTrue =>
        obtain ⟨t', ht', h⟩ := Option.map_eq_some_iff.mp h
        cases h
        exact (PrefixReader.afterBrackets_suffix ht').trans hspace
      case isFalse =>
        split at h
        case isTrue => cases h
        case isFalse =>
          cases h
          exact (List.dropWhile_suffix _).trans hspace

theorem readMember_eq (lib : Library) (m : HeadMembers) (r : PrefixReader) :
    readMember lib m r =
      .ok ((memberOf lib m r.rest).1, (memberOf lib m r.rest).2.map r.upto) := by
  have hsuffix : r.rest <:+ r.text := PrefixReader.rest_suffix
  rw [readMember, memberOf, r.string_eq]
  simp only [bind, Except.bind, pure, Except.pure]
  cases hkey : readString r.rest with
  | none => rfl
  | some pair =>
    obtain ⟨key, s⟩ := pair
    have hs := (PrefixReader.readString_suffix hkey).1.trans hsuffix
    simp only [Option.map_some, PrefixReader.take_eq, PrefixReader.upto_rest hs]
    cases hcolon : readByte 0x3A s with
    | none => rfl
    | some u =>
      have hu : u <:+ (r.upto s).text := (readByte_suffix hcolon).1.trans hs
      simp only [Option.map_some, PrefixReader.value_eq, PrefixReader.upto_rest hu]
      cases hvalue : readValue u with
      | none => rfl
      | some pair =>
        obtain ⟨value, t⟩ := pair
        have ht : t <:+ ((r.upto s).upto u).text := (readValue_suffix hvalue).trans hu
        simp only [Option.map_some, PrefixReader.upto_rest ht]
        rfl

theorem memberOf_suffix {lib : Library} {m : HeadMembers} {s t : Bytes}
    (h : (memberOf lib m s).2 = some t) : t <:+ s ∧ t.length < s.length := by
  rw [memberOf] at h
  split at h
  case h_1 => cases h
  case h_2 key u hu =>
    obtain ⟨hsuffix, hlt⟩ := PrefixReader.readString_suffix hu
    split at h
    case h_1 => cases h
    case h_2 v hv =>
      have hsuffix' := (readByte_suffix hv).1.trans hsuffix
      dsimp only at h
      split at h
      case h_1 => cases h
      case h_2 value w hw =>
        have hsuffix'' := (readByte_suffix h).1.trans ((readValue_suffix hw).trans
          (readByte_suffix hv).1)
        exact ⟨hsuffix''.trans hsuffix, hsuffix''.length_le.trans_lt hlt⟩

theorem readMember_position {lib : Library} {m m' : HeadMembers} {r r' : PrefixReader}
    (h : readMember lib m r = .ok (m', some r')) :
    r'.text.length - r'.position < r.text.length - r.position := by
  rw [readMember_eq, Except.ok.injEq, Prod.mk.injEq] at h
  obtain ⟨t, ht, rfl⟩ := Option.map_eq_some_iff.mp h.2
  obtain ⟨-, hlt⟩ := memberOf_suffix ht
  have hlen : r.rest.length = r.text.length - r.position := List.length_drop
  simp only [PrefixReader.upto]
  omega

/-- The loop of `read_head`. -/
def readMembers (lib : Library) (m : HeadMembers) (r : PrefixReader) : Except Stop HeadMembers :=
  match _hmember : readMember lib m r with
  | .error e => .error e
  | .ok (m, none) => .ok m
  | .ok (m, some r) => readMembers lib m r
termination_by r.text.length - r.position
decreasing_by exact readMember_position _hmember

/-- `read_head`. -/
def readHead (lib : Library) (text : Bytes) : Except Stop HeadMembers := do
  match ← PrefixReader.take 0x7B { text } with
  | none => return {}
  | some r => readMembers lib {} r

/-- `peek`. -/
def peek (lib : Library) (text : Bytes) : Except Stop MessageHead := do
  return (← readHead lib text).head

/-! ## Writing a message -/

/-- An id as the codec writes it. -/
def idVisit : RequestId → Visit
  | .number n => .int n
  | .text s => .str (.held s)

mutual

/-- A `dyn::Value` as the codec writes it. -/
def dynVisit : Dyn → Visit
  | .null => .null
  | .boolean b => .bool b
  | .signedInt v => .int v
  | .unsignedInt v => .uint v
  | .floating bits => .float bits
  | .string s => .str (.held s)
  | .array items => .seq (dynItems items)
  | .object entries => .object (dynEntries entries)

def dynItems : List Dyn → List Visit
  | [] => []
  | v :: vs => dynVisit v :: dynItems vs

def dynEntries : List (Bytes × Dyn) → List (Key × Visit)
  | [] => []
  | (key, v) :: es => (.name (.held key), dynVisit v) :: dynEntries es

end

/-- A 32-bit integer as the writer takes it. -/
def widen (n : SignedInt .w32) : SignedInt .w64 :=
  ⟨n.val, (by decide : (-2 ^ (Width.w64.bits - 1) : Int) ≤ -2 ^ (Width.w32.bits - 1)).trans n.2.1,
    n.2.2.trans_le (by decide)⟩

/-- A member named by the program. -/
def field (name : String) (v : Visit) : Key × Visit := (.name (.declared (ascii name)), v)

/-- A `protocol::Error` as the codec writes it. -/
def errorVisit (error : Error) : Visit :=
  .object ([field "code" (.int (widen error.code)), field "message" (.str (.held error.message))] ++
    error.data.elim [] fun data => [field "data" (dynVisit data)])

section Encode

variable (lib : Library)

/-- `encode_request`. -/
def encodeRequest (id : RequestId) (method : Bytes) (params : Option Visit) : Option Bytes := do
  let front := ascii "\x7b\"jsonrpc\":\"2.0\",\"id\":" ++ (← (idVisit id).write lib.formatDouble) ++
    ascii ",\"method\":" ++ (← (Spelling.held method).write)
  match params with
  | none => return front ++ ascii "\x7d"
  | some params =>
    return front ++ ascii ",\"params\":" ++ (← params.write lib.formatDouble) ++ ascii "\x7d"

/-- `encode_notification`. -/
def encodeNotification (method : Bytes) (params : Option Visit) : Option Bytes := do
  let front := ascii "\x7b\"jsonrpc\":\"2.0\",\"method\":" ++ (← (Spelling.held method).write)
  match params with
  | none => return front ++ ascii "\x7d"
  | some params =>
    return front ++ ascii ",\"params\":" ++ (← params.write lib.formatDouble) ++ ascii "\x7d"

/-- `encode_success_response`. -/
def encodeSuccessResponse (id : RequestId) (result : Visit) : Option Bytes := do
  return ascii "\x7b\"jsonrpc\":\"2.0\",\"id\":" ++ (← (idVisit id).write lib.formatDouble) ++
    ascii ",\"result\":" ++ (← result.write lib.formatDouble) ++ ascii "\x7d"

/-- `encode_error_response`. -/
def encodeErrorResponse (id : Option RequestId) (error : Error) : Option Bytes :=
  (Visit.object [field "jsonrpc" (.str (.held (ascii "2.0"))),
    field "id" (id.elim .null idVisit), field "error" (errorVisit error)]).write lib.formatDouble

end Encode

/-- What a peer sends. -/
inductive Message where
  | request (id : RequestId) (method : Bytes) (params : Option Visit)
  | notification (method : Bytes) (params : Option Visit)
  | success (id : RequestId) (result : Visit)
  | failure (id : Option RequestId) (error : Error)

namespace Message

def encode (lib : Library) : Message → Option Bytes
  | .request id method params => encodeRequest lib id method params
  | .notification method params => encodeNotification lib method params
  | .success id result => encodeSuccessResponse lib id result
  | .failure id error => encodeErrorResponse lib id error

def kind : Message → MessageKind
  | .request .. => .request
  | .notification .. => .notification
  | .success .. | .failure .. => .response

def id : Message → Option RequestId
  | .request id .. | .success id .. => some id
  | .notification .. => none
  | .failure id .. => id

end Message

/-! ## Objects, a member at a time -/

/-- A member of an object that is written: its name, the text of its value, and the value that
is read of it. -/
structure MemberText where
  name : Bytes
  text : Bytes
  value : Bytes

namespace MemberText

/-- The member as it is written. -/
def line (m : MemberText) : Bytes := 0x22 :: (m.name ++ 0x22 :: 0x3A :: m.text)

/-- The members after a bracket or a comma, and the bracket that closes them. -/
def lines (m : MemberText) : List MemberText → Bytes
  | [] => m.line ++ [0x7D]
  | n :: ms => m.line ++ 0x2C :: n.lines ms

/-- A name that is not escaped, and a text that is read as its value. -/
structure Valid (m : MemberText) : Prop where
  name : ∀ b ∈ m.name, IsPlain b.toNat
  reads : ∀ (c : UInt8) (u : Bytes), c = 0x2C ∨ c = 0x7D →
    ∃ t, readValue (m.text ++ c :: u) = some (m.value, t) ∧ skipSpace t = c :: u

variable {name text : Bytes} {d : Nat} {ms : List (Member UInt8)}

/-- A JSON text is read as the value in it. -/
theorem valid_of_text (hname : ∀ b ∈ name, IsPlain b.toNat) (h : Text UInt8.toNat text d ms) :
    ∃ value, Valid ⟨name, text, value⟩ := by
  obtain ⟨a, b, ha, hreads, hb⟩ := h
  refine ⟨taken a b, hname, fun c u hc => ⟨b ++ c :: u, ?_, ?_⟩⟩
  · obtain ⟨ms', hreads'⟩ := hreads.append (c :: u)
    have ha' := Local.space.append ha (c :: u)
    have hdelimiter : ∃ c' u', b ++ c :: u = c' :: u' ∧ PrefixReader.isDelimiter c' = true := by
      cases hb using Relation.ReflTransGen.head_induction_on with
      | refl =>
        refine ⟨c, u, rfl, ?_⟩
        rcases hc with rfl | rfl
        · decide
        · decide
      | head hstep _ =>
        obtain ⟨hspace⟩ := hstep
        refine ⟨_, _, List.cons_append, ?_⟩
        have hbytes : ascii ",\x7d] \t\r\n" = [0x2C, 0x7D, 0x5D, 0x20, 0x09, 0x0D, 0x0A] := by
          decide
        unfold IsSpace at hspace
        simp only [PrefixReader.isDelimiter, hbytes, List.mem_cons, List.not_mem_nil, or_false,
          decide_eq_true_eq, ← UInt8.toNat_inj, UInt8.reduceToNat]
        omega
    obtain ⟨c', u', hcons, hdelimiter⟩ := hdelimiter
    rw [readValue_reads ha' hreads' hcons hdelimiter, taken_append hreads.placed.1]
  · have hb' := Local.space.append hb (c :: u)
    refine Checker.skipSpace_cons hb' ?_
    rcases hc with rfl | rfl
    · rfl
    · rfl

/-- A value is read as it is. -/
theorem valid_of_reads (hname : ∀ b ∈ name, IsPlain b.toNat)
    (h : Reads UInt8.toNat .value text [] d ms) : Valid ⟨name, text, text⟩ := by
  obtain ⟨value, hvalid⟩ := valid_of_text hname ⟨text, [], .refl, h, .refl⟩
  obtain ⟨ms', hreads'⟩ := h.append [0x2C]
  have hread := readValue_reads .refl hreads' (c := 0x2C) (u := []) rfl (by decide)
  obtain ⟨t, ht, -⟩ := hvalid.reads 0x2C [] (.inl rfl)
  rw [hread] at ht
  have htaken : taken (text ++ [0x2C]) ([] ++ [0x2C]) = text := by
    rw [taken_append (List.nil_suffix), taken]
    simp only [List.length_nil, Nat.sub_zero, List.take_length]
  rw [htaken, Option.some.injEq, Prod.mk.injEq] at ht
  obtain ⟨hvalue, -⟩ := ht
  subst hvalue
  exact hvalid

end MemberText

/-- What the members read of an object may be where its text is cut: after some of them, with
the next key or without it. -/
inductive Stage (lib : Library) : List MemberText → HeadMembers → HeadMembers → Prop where
  | stop (ms : List MemberText) (h : HeadMembers) : Stage lib ms h h
  | key (m : MemberText) (ms : List MemberText) (h : HeadMembers) :
      Stage lib (m :: ms) h (h.noted m.name)
  | member {m : MemberText} {ms : List MemberText} {h h' : HeadMembers}
      (hrest : Stage lib ms ((h.noted m.name).held lib m.name m.value) h') :
      Stage lib (m :: ms) h h'

section Prefix

variable {lib : Library}

theorem keyName_plain {name : Bytes} (h : ∀ b ∈ name, IsPlain b.toNat) :
    keyName lib.toSimdjson (0x22 :: (name ++ [0x22])) = name := by
  have hslash : ¬(0x5C : UInt8) ∈ 0x22 :: (name ++ [0x22]) := by
    intro hmem
    rcases List.mem_cons.mp hmem with heq | hmem
    · exact absurd heq (by decide)
    · rcases List.mem_append.mp hmem with hmem | hmem
      · exact (h _ hmem).2.2 rfl
      · exact absurd (List.mem_singleton.mp hmem) (by decide)
  rw [keyName, if_neg hslash, substr, List.drop_one, List.tail_cons, List.length_cons,
    List.length_append, List.length_singleton]
  exact List.take_left

/-- What is read of the next member where the text is cut. -/
theorem memberOf_prefix {m : MemberText} (hm : m.Valid) (h : HeadMembers) {c : UInt8}
    {u s x : Bytes} (hc : c = 0x2C ∨ c = 0x7D) (hs : s ++ x = m.line ++ c :: u) :
    memberOf lib h s = (h, none) ∨ memberOf lib h s = (h.noted m.name, none) ∨
    ∃ next, memberOf lib h s = ((h.noted m.name).held lib m.name m.value, next) ∧
      ∀ t, next = some t → c = 0x2C ∧ t ++ x = u := by
  have hkey : readString (s ++ x) =
      some (0x22 :: (m.name ++ [0x22]), 0x3A :: (m.text ++ c :: u)) := by
    have hstr : Str UInt8.toNat (s ++ x) (0x3A :: (m.text ++ c :: u)) := by
      rw [hs, MemberText.line]
      simp only [List.cons_append, List.append_assoc]
      exact ⟨_, .intro rfl, _, Chars.plain _ hm.name, .intro rfl⟩
    rw [readString_str .refl hstr, taken, hs, MemberText.line]
    simp only [List.cons_append, List.append_assoc]
    have hsplit : (0x22 :: (m.name ++ 0x22 :: 0x3A :: (m.text ++ c :: u)) : Bytes) =
        (0x22 :: (m.name ++ [0x22])) ++ 0x3A :: (m.text ++ c :: u) := by
      simp only [List.cons_append, List.append_assoc, List.nil_append]
    rw [hsplit, List.length_append, Nat.add_sub_cancel, List.take_left]
  obtain ⟨rest, hvalue, hrest⟩ := hm.reads c u hc
  rw [memberOf]
  cases hstring : readString s with
  | none => exact .inl rfl
  | some pair =>
    obtain ⟨key, s₁⟩ := pair
    have happend := readString_append hstring x
    rw [hkey, Option.some.injEq, Prod.mk.injEq] at happend
    obtain ⟨rfl, hs₁⟩ := happend
    dsimp only
    cases hcolon : readByte 0x3A s₁ with
    | none => exact .inl rfl
    | some s₂ =>
      have happend := readByte_append hcolon x
      rw [← hs₁, readByte, skipSpace, List.dropWhile_cons_of_neg (by decide)] at happend
      dsimp only at happend
      rw [if_pos rfl, Option.some.injEq] at happend
      dsimp only
      rw [keyName_plain hm.name]
      cases hread : readValue s₂ with
      | none => exact .inr (.inl rfl)
      | some pair =>
        obtain ⟨value, s₃⟩ := pair
        have happend' := readValue_append hread x
        rw [← happend, hvalue, Option.some.injEq, Prod.mk.injEq] at happend'
        obtain ⟨rfl, hs₃⟩ := happend'
        refine .inr (.inr ⟨_, rfl, fun t ht => ?_⟩)
        have happend'' := readByte_append ht x
        rw [← hs₃, readByte, hrest] at happend''
        dsimp only at happend''
        split at happend''
        case isTrue hcomma =>
          rw [Option.some.injEq] at happend''
          exact ⟨hcomma, happend''.symm⟩
        case isFalse => cases happend''

/-- A cut object is read as far as some of its members. -/
theorem readMembers_prefix (ms : List MemberText) : ∀ (m : MemberText), m.Valid →
    (∀ n ∈ ms, n.Valid) → ∀ (h : HeadMembers) (r : PrefixReader), r.rest <+: m.lines ms →
    ∃ h', readMembers lib h r = .ok h' ∧ Stage lib (m :: ms) h h' := by
  induction ms with
  | nil =>
    rintro m hm - h r ⟨x, hx⟩
    rw [readMembers, readMember_eq]
    rcases memberOf_prefix hm h (.inr rfl) hx with heq | heq | ⟨next, heq, hnext⟩
    · rw [heq]
      exact ⟨_, rfl, .stop _ _⟩
    · rw [heq]
      exact ⟨_, rfl, .key _ _ _⟩
    · rw [heq]
      cases next with
      | none => exact ⟨_, rfl, .member (.stop _ _)⟩
      | some t => exact absurd (hnext t rfl).1 (by decide)
  | cons n ms ih =>
    rintro m hm hall h r ⟨x, hx⟩
    obtain ⟨hn, hms⟩ := List.forall_mem_cons.mp hall
    rw [readMembers, readMember_eq]
    rcases memberOf_prefix hm h (.inl rfl) hx with heq | heq | ⟨next, heq, hnext⟩
    · rw [heq]
      exact ⟨_, rfl, .stop _ _⟩
    · rw [heq]
      exact ⟨_, rfl, .key _ _ _⟩
    · have hsuffix : ∀ t, next = some t → t <:+ r.text := fun t ht =>
        (memberOf_suffix (by rw [heq]; exact ht)).1.trans PrefixReader.rest_suffix
      rw [heq]
      cases next with
      | none => exact ⟨_, rfl, .member (.stop _ _)⟩
      | some t =>
        obtain ⟨h', hh', hstage⟩ := ih n hn hms _ (r.upto t) (by
          rw [PrefixReader.upto_rest (hsuffix t rfl)]
          exact ⟨x, (hnext t rfl).2⟩)
        exact ⟨h', hh', .member hstage⟩

/-- A cut object is read as far as some of its members. -/
theorem readHead_prefix {m : MemberText} {ms : List MemberText} (hall : ∀ n ∈ m :: ms, n.Valid)
    {text : Bytes} (h : text <+: 0x7B :: m.lines ms) :
    ∃ h', readHead lib text = .ok h' ∧ Stage lib (m :: ms) {} h' := by
  rw [readHead, PrefixReader.take_eq]
  obtain ⟨x, hx⟩ := h
  cases text with
  | nil => exact ⟨_, rfl, .stop _ _⟩
  | cons c text =>
    rw [List.cons_append, List.cons.injEq] at hx
    obtain ⟨rfl, hx⟩ := hx
    have hrest : (⟨0x7B :: text, 0⟩ : PrefixReader).rest = 0x7B :: text := rfl
    have hbyte : readByte 0x7B (0x7B :: text) = some text := rfl
    rw [hrest, hbyte]
    obtain ⟨hm, hms⟩ := List.forall_mem_cons.mp hall
    refine readMembers_prefix ms m hm hms {} _ ?_
    rw [PrefixReader.upto_rest (List.suffix_cons _ _)]
    exact ⟨x, hx⟩

/-- Nothing past the text is read, whatever it is. -/
theorem readHead_ok (lib : Library) (text : Bytes) : ∃ h, readHead lib text = .ok h := by
  have hmembers : ∀ (r : PrefixReader) (h : HeadMembers), ∃ h', readMembers lib h r = .ok h' := by
    intro r
    induction hn : r.rest.length using Nat.strong_induction_on generalizing r with
    | _ n ih =>
      subst hn
      intro h
      rw [readMembers, readMember_eq]
      cases hnext : (memberOf lib h r.rest).2 with
      | none => exact ⟨_, rfl⟩
      | some t =>
        obtain ⟨hsuffix, hlt⟩ := memberOf_suffix hnext
        refine ih _ ?_ (r.upto t) rfl _
        rw [PrefixReader.upto_rest (hsuffix.trans PrefixReader.rest_suffix)]
        exact hlt
  rw [readHead, PrefixReader.take_eq]
  cases readByte 0x7B (⟨text, 0⟩ : PrefixReader).rest with
  | none => exact ⟨_, rfl⟩
  | some t => exact hmembers _ _

end Prefix

/-! ## What a message's front tells -/

/-- What is relied on: integers and strings are read back, a null is neither, and a double that is
finite is written as a number. -/
structure Library.Lawful (lib : Library) : Prop extends lib.toSimdjson.Lawful where
  readInteger : ∀ n : SignedInt .w64, lib.readInteger (Kotatsu.Codec.Json.integer n.val) = some n
  readInteger_string : ∀ s, Str UInt8.toNat s [] → lib.readInteger s = none
  readInteger_null : lib.readInteger (ascii "null") = none
  readString_null : lib.readString (ascii "null") = none
  formatDouble : FormatsDoubles lib.formatDouble

section Peek

variable {lib : Library}

private theorem str_reads (value : Bytes) :
    Reads UInt8.toNat .value (appendString value) [] 0 [] := by
  have hstr := appendString_str value []
  rw [List.append_nil] at hstr
  exact .scalar (.inr (.inr hstr))

/-- An id is a value, and is read back. -/
theorem readId_idVisit (hlib : lib.Lawful) {id : RequestId} {text : Bytes}
    (h : (idVisit id).write lib.formatDouble = some text) :
    Reads UInt8.toNat .value text [] 0 [] ∧ readId lib text = some id := by
  cases id with
  | number n =>
    cases h
    have hnumber := integer_number n.val []
    rw [List.append_nil] at hnumber
    refine ⟨.scalar (.inr (.inl hnumber)), ?_⟩
    rw [readId, hlib.readInteger]
  | text s =>
    simp only [idVisit, Visit.write, Spelling.write] at h
    split at h
    case isFalse => cases h
    case isTrue hutf8 =>
      cases h
      refine ⟨str_reads s, ?_⟩
      obtain ⟨chars, rfl⟩ := Support.isUtf8_utf8 hutf8
      obtain ⟨key, hkey, hname⟩ := appendString_utf8 chars
      have hstr := appendString_str (utf8 chars) []
      rw [List.append_nil] at hstr
      have hnone := hlib.readInteger_string _ hstr
      rw [hkey] at hstr hnone ⊢
      obtain ⟨t, ht, hchars⟩ := (Carries.str utf8_transparent).lower hstr
      have hnil : t = [] := by
        cases t with
        | nil => rfl
        | cons c t => exact absurd (List.append_eq_nil_iff.mp ht.symm).1 (utf8EncodeChar_ne_nil c)
      rw [hnil] at hchars
      rw [readId, hnone, hlib.readString key hchars, hname]
      rfl

theorem readId_null (hlib : lib.Lawful) : readId lib (ascii "null") = none := by
  rw [readId, hlib.readInteger_null, hlib.readString_null]
  rfl

theorem plain_of_all {name : Bytes} (h : (name.all fun b => decide (IsPlain b.toNat)) = true) :
    ∀ b ∈ name, IsPlain b.toNat := fun b hb =>
  of_decide_eq_true (List.all_eq_true.mp h b hb)

/-- The member that says which version a message is of. -/
private def version : MemberText :=
  ⟨ascii "jsonrpc", appendString (ascii "2.0"), appendString (ascii "2.0")⟩

private theorem version_valid : version.Valid :=
  MemberText.valid_of_reads (plain_of_all (by decide)) (str_reads _)

namespace HeadMembers

variable (h : HeadMembers) (value : Bytes)

private theorem noted_version : h.noted version.name = h := by
  simp [noted, version, ascii]

private theorem noted_id : h.noted (ascii "id") = { h with hasId := true } := by
  simp [noted, ascii]

private theorem noted_method : h.noted (ascii "method") = { h with hasMethod := true } := by
  simp [noted, ascii]

private theorem noted_params : h.noted (ascii "params") = h := by
  simp [noted, ascii]

private theorem noted_result : h.noted (ascii "result") = { h with answers := true } := by
  simp [noted, ascii]

private theorem noted_error : h.noted (ascii "error") = { h with answers := true } := by
  simp [noted, ascii]

private theorem held_id : h.held lib (ascii "id") value = { h with id := readId lib value } := by
  simp [held, ascii]

private theorem held_method :
    h.held lib (ascii "method") value = { h with methodIsString := value.head? = some 0x22 } := by
  simp [held, ascii]

private theorem held_other {name : Bytes} (hid : name ≠ ascii "id")
    (hmethod : name ≠ ascii "method") : h.held lib name value = h := by
  rw [held, if_neg hid, if_neg hmethod]

end HeadMembers

private theorem Stage.version {ms : List MemberText} {h h' : HeadMembers}
    (hs : Stage lib (version :: ms) h h') : Stage lib ms h h' := by
  cases hs with
  | stop => exact .stop _ _
  | key =>
    rw [HeadMembers.noted_version]
    exact .stop _ _
  | member hrest =>
    rwa [HeadMembers.noted_version, HeadMembers.held_other _ _ (by decide) (by decide)] at hrest

private theorem Stage.id {ms : List MemberText} {text : Bytes} {h : HeadMembers}
    (hs : Stage lib (⟨ascii "id", text, text⟩ :: ms) {} h) :
    h.head.kind = .unknown ∨ Stage lib ms { id := readId lib text, hasId := true } h := by
  cases hs with
  | stop => exact .inl rfl
  | key =>
    rw [HeadMembers.noted_id]
    exact .inl rfl
  | member hrest =>
    rw [HeadMembers.noted_id, HeadMembers.held_id] at hrest
    exact .inr hrest

private theorem Stage.method {ms : List MemberText} {text value : Bytes} {h h' : HeadMembers}
    (hms : ∀ m ∈ ms, m.name = ascii "params")
    (hs : Stage lib (⟨ascii "method", text, value⟩ :: ms) h h') :
    h' = h ∨ h'.hasMethod = true ∧ h'.hasId = h.hasId ∧ h'.id = h.id := by
  have hparams : ∀ {ms : List MemberText} {h h' : HeadMembers},
      (∀ m ∈ ms, m.name = ascii "params") → Stage lib ms h h' → h' = h := by
    intro ms h h' hms hs
    induction hs with
    | stop => rfl
    | key m ms h =>
      rw [hms m List.mem_cons_self, HeadMembers.noted_params]
    | @member m ms h h' _ ih =>
      obtain ⟨hm, hms⟩ := List.forall_mem_cons.mp hms
      rw [ih hms, hm, HeadMembers.noted_params,
        HeadMembers.held_other _ _ (by decide) (by decide)]
  cases hs with
  | stop => exact .inl rfl
  | key =>
    rw [HeadMembers.noted_method]
    exact .inr ⟨rfl, rfl, rfl⟩
  | member hrest =>
    rw [HeadMembers.noted_method, HeadMembers.held_method] at hrest
    rw [hparams hms hrest]
    exact .inr ⟨rfl, rfl, rfl⟩

private theorem Stage.answer {m : MemberText} {h h' : HeadMembers}
    (hm : m.name = ascii "result" ∨ m.name = ascii "error") (hs : Stage lib [m] h h') :
    h' = h ∨ h' = { h with answers := true } := by
  have hnoted : h.noted m.name = { h with answers := true } := by
    rcases hm with hm | hm
    · rw [hm, HeadMembers.noted_result]
    · rw [hm, HeadMembers.noted_error]
  have hother : m.name ≠ ascii "id" ∧ m.name ≠ ascii "method" := by
    rcases hm with hm | hm
    · rw [hm]
      decide
    · rw [hm]
      decide
  cases hs with
  | stop => exact .inl rfl
  | key => exact .inr hnoted
  | member hrest =>
    rw [hnoted, HeadMembers.held_other _ _ hother.1 hother.2] at hrest
    cases hrest
    exact .inr rfl

/-! ## The members of each message -/

private theorem front_id : ascii "\x7b\"jsonrpc\":\"2.0\",\"id\":" =
    0x7B :: (version.line ++ 0x2C :: 0x22 :: (ascii "id" ++ [0x22, 0x3A])) := by decide +kernel

private theorem front_method : ascii "\x7b\"jsonrpc\":\"2.0\",\"method\":" =
    0x7B :: (version.line ++ 0x2C :: 0x22 :: (ascii "method" ++ [0x22, 0x3A])) := by
  decide +kernel

private theorem next_method : ascii ",\"method\":" =
    0x2C :: 0x22 :: (ascii "method" ++ [0x22, 0x3A]) := by decide

private theorem next_params : ascii ",\"params\":" =
    0x2C :: 0x22 :: (ascii "params" ++ [0x22, 0x3A]) := by decide

private theorem next_result : ascii ",\"result\":" =
    0x2C :: 0x22 :: (ascii "result" ++ [0x22, 0x3A]) := by decide

private theorem close_object : ascii "\x7d" = [0x7D] := by decide

private theorem method_valid {method text : Bytes} (h : (Spelling.held method).write = some text) :
    MemberText.Valid ⟨ascii "method", text, text⟩ := by
  obtain ⟨value, rfl⟩ := Spelling.write_str h
  exact MemberText.valid_of_reads (plain_of_all (by decide)) (str_reads value)

private theorem visit_valid (hlib : lib.Lawful) (name : Bytes) {text : Bytes} {v : Visit}
    (hname : (name.all fun b => decide (IsPlain b.toNat)) = true)
    (h : v.write lib.formatDouble = some text) : ∃ value, MemberText.Valid ⟨name, text, value⟩ := by
  obtain ⟨d, ms, htext⟩ := Visit.write_text hlib.formatDouble h
  exact MemberText.valid_of_text (plain_of_all hname) htext

private theorem id_valid (hlib : lib.Lawful) {id : RequestId} {text : Bytes}
    (h : (idVisit id).write lib.formatDouble = some text) :
    MemberText.Valid ⟨ascii "id", text, text⟩ :=
  MemberText.valid_of_reads (plain_of_all (by decide)) (readId_idVisit hlib h).1

theorem encodeRequest_lines (hlib : lib.Lawful) {id : RequestId} {method text : Bytes}
    {params : Option Visit} (h : encodeRequest lib id method params = some text) :
    ∃ (idText value : Bytes) (ms : List MemberText), readId lib idText = some id ∧
      (∀ m ∈ ms, m.name = ascii "params") ∧
      (∀ n ∈ version :: ⟨ascii "id", idText, idText⟩ :: ⟨ascii "method", value, value⟩ :: ms,
        n.Valid) ∧
      text = 0x7B :: version.lines
        (⟨ascii "id", idText, idText⟩ :: ⟨ascii "method", value, value⟩ :: ms) := by
  rw [encodeRequest] at h
  obtain ⟨idText, hid, h⟩ := Option.bind_eq_some_iff.mp h
  obtain ⟨value, hmethod, h⟩ := Option.bind_eq_some_iff.mp h
  refine ⟨idText, value, ?_⟩
  cases params with
  | none =>
    cases h
    refine ⟨[], (readId_idVisit hlib hid).2, List.forall_mem_nil _, ?_, ?_⟩
    · simp only [List.forall_mem_cons]
      exact ⟨version_valid, id_valid hlib hid, method_valid hmethod, List.forall_mem_nil _⟩
    · simp only [front_id, next_method, close_object, MemberText.lines, MemberText.line,
        List.cons_append, List.append_assoc, List.nil_append]
  | some params =>
    obtain ⟨paramsText, hparams, h⟩ := Option.bind_eq_some_iff.mp h
    cases h
    obtain ⟨paramsValue, hvalid⟩ := visit_valid hlib (ascii "params") (by decide) hparams
    refine ⟨[⟨ascii "params", paramsText, paramsValue⟩], (readId_idVisit hlib hid).2, ?_, ?_, ?_⟩
    · exact List.forall_mem_singleton.mpr rfl
    · simp only [List.forall_mem_cons]
      exact ⟨version_valid, id_valid hlib hid, method_valid hmethod, hvalid, List.forall_mem_nil _⟩
    · simp only [front_id, next_method, next_params, close_object, MemberText.lines,
        MemberText.line, List.cons_append, List.append_assoc, List.nil_append]

theorem encodeNotification_lines (hlib : lib.Lawful) {method text : Bytes}
    {params : Option Visit} (h : encodeNotification lib method params = some text) :
    ∃ (value : Bytes) (ms : List MemberText), (∀ m ∈ ms, m.name = ascii "params") ∧
      (∀ n ∈ version :: ⟨ascii "method", value, value⟩ :: ms, n.Valid) ∧
      text = 0x7B :: version.lines (⟨ascii "method", value, value⟩ :: ms) := by
  rw [encodeNotification] at h
  obtain ⟨value, hmethod, h⟩ := Option.bind_eq_some_iff.mp h
  refine ⟨value, ?_⟩
  cases params with
  | none =>
    cases h
    refine ⟨[], List.forall_mem_nil _, ?_, ?_⟩
    · simp only [List.forall_mem_cons]
      exact ⟨version_valid, method_valid hmethod, List.forall_mem_nil _⟩
    · simp only [front_method, close_object, MemberText.lines, MemberText.line,
        List.cons_append, List.append_assoc, List.nil_append]
  | some params =>
    obtain ⟨paramsText, hparams, h⟩ := Option.bind_eq_some_iff.mp h
    cases h
    obtain ⟨paramsValue, hvalid⟩ := visit_valid hlib (ascii "params") (by decide) hparams
    refine ⟨[⟨ascii "params", paramsText, paramsValue⟩], ?_, ?_, ?_⟩
    · exact List.forall_mem_singleton.mpr rfl
    · simp only [List.forall_mem_cons]
      exact ⟨version_valid, method_valid hmethod, hvalid, List.forall_mem_nil _⟩
    · simp only [front_method, next_params, close_object, MemberText.lines,
        MemberText.line, List.cons_append, List.append_assoc, List.nil_append]

theorem encodeSuccessResponse_lines (hlib : lib.Lawful) {id : RequestId} {text : Bytes}
    {result : Visit} (h : encodeSuccessResponse lib id result = some text) :
    ∃ (idText resultText value : Bytes), readId lib idText = some id ∧
      (∀ n ∈ [version, ⟨ascii "id", idText, idText⟩, ⟨ascii "result", resultText, value⟩],
        n.Valid) ∧
      text = 0x7B :: version.lines
        [⟨ascii "id", idText, idText⟩, ⟨ascii "result", resultText, value⟩] := by
  rw [encodeSuccessResponse] at h
  obtain ⟨idText, hid, h⟩ := Option.bind_eq_some_iff.mp h
  obtain ⟨resultText, hresult, h⟩ := Option.bind_eq_some_iff.mp h
  cases h
  obtain ⟨value, hvalid⟩ := visit_valid hlib (ascii "result") (by decide) hresult
  refine ⟨idText, resultText, value, (readId_idVisit hlib hid).2, ?_, ?_⟩
  · simp only [List.forall_mem_cons]
    exact ⟨version_valid, id_valid hlib hid, hvalid, List.forall_mem_nil _⟩
  · simp only [front_id, next_result, close_object, MemberText.lines, MemberText.line,
      List.cons_append, List.append_assoc, List.nil_append]

theorem encodeErrorResponse_lines (hlib : lib.Lawful) {id : Option RequestId} {text : Bytes}
    {error : Error} (h : encodeErrorResponse lib id error = some text) :
    ∃ (idText errorText value : Bytes), readId lib idText = id ∧
      (∀ n ∈ [version, ⟨ascii "id", idText, idText⟩, ⟨ascii "error", errorText, value⟩],
        n.Valid) ∧
      text = 0x7B :: version.lines
        [⟨ascii "id", idText, idText⟩, ⟨ascii "error", errorText, value⟩] := by
  have hutf8 : Support.isUtf8 (ascii "2.0") = true := by decide +kernel
  have hnames : appendString (ascii "jsonrpc") = 0x22 :: (ascii "jsonrpc" ++ [0x22]) ∧
      appendString (ascii "id") = 0x22 :: (ascii "id" ++ [0x22]) ∧
      appendString (ascii "error") = 0x22 :: (ascii "error" ++ [0x22]) := by decide +kernel
  rw [encodeErrorResponse, Visit.write] at h
  obtain ⟨body, hbody, h⟩ := Option.bind_eq_some_iff.mp h
  cases h
  simp only [writeMembers, field, Key.write, Spelling.write, Visit.write, hutf8, if_true,
    Option.bind_eq_bind, Option.bind_some, Option.pure_def, hnames, separator, Bool.false_eq_true,
    if_false] at hbody
  obtain ⟨tail, htail, hbody⟩ := Option.bind_eq_some_iff.mp hbody
  obtain ⟨idText, hid, htail⟩ := Option.bind_eq_some_iff.mp htail
  obtain ⟨last, hlast, htail⟩ := Option.bind_eq_some_iff.mp htail
  obtain ⟨errorText, herror, hlast⟩ := Option.bind_eq_some_iff.mp hlast
  cases hlast
  cases htail
  cases hbody
  obtain ⟨value, hvalid⟩ := visit_valid hlib (ascii "error") (by decide) herror
  have hread : Reads UInt8.toNat .value idText [] 0 [] ∧ readId lib idText = id := by
    cases id with
    | some id => exact readId_idVisit hlib hid
    | none =>
      cases hid
      have hnull : Literal UInt8.toNat (ascii "null") [] :=
        .inr (.inr ⟨_, .intro rfl, _, .intro rfl, _, .intro rfl, _, .intro rfl, rfl⟩)
      exact ⟨.scalar (.inl hnull), readId_null hlib⟩
  refine ⟨idText, errorText, value, hread.2, ?_, ?_⟩
  · simp only [List.forall_mem_cons]
    exact ⟨version_valid, MemberText.valid_of_reads (plain_of_all (by decide)) hread.1, hvalid,
      List.forall_mem_nil _⟩
  · simp only [MemberText.lines, MemberText.line, version, List.cons_append, List.append_assoc,
      List.nil_append, List.append_nil]

/-- Integers and strings as JSON defines them; of doubles, zero. -/
def standardLibrary : Library where
  validateUtf8 := standard.validateUtf8
  readString quoted := if quoted.head? = some 0x22 then standard.readString quoted else none
  readInteger text :=
    if text.head? = some 0x2D then
      (fromChars 64 text.tail).bind fun n => Codec.Bincode.narrowSigned .w64 (-n)
    else (fromChars 64 text).bind fun n => Codec.Bincode.narrowSigned .w64 n
  formatDouble _ := ascii "0.0"

private theorem fromChars_none {b : UInt8} {bs : Bytes} (h : Core.isDigit b = false) :
    fromChars 64 (b :: bs) = none := by
  simp only [fromChars, List.all_cons, h, Bool.false_and, Bool.false_eq_true, false_and, and_false,
    if_false]

theorem standardLibrary_readString (key : List Char) (h : Str Char.toNat key []) :
    standardLibrary.readString (utf8 key) = (Json.keyName key).map utf8 := by
  obtain ⟨content, rfl⟩ := str_quotes h
  have hhead : (utf8 ('"' :: (content ++ ['"']))).head? = some 0x22 := rfl
  simp only [standardLibrary, hhead, if_true]
  exact standard_lawful.readString _ h

theorem standardLibrary_readInteger (n : SignedInt .w64) :
    standardLibrary.readInteger (Kotatsu.Codec.Json.integer n.val) = some n := by
  obtain ⟨hlow, hhigh⟩ := n.property
  have hpow : (2 : Int) ^ (Width.w64.bits - 1) ≤ 2 ^ 63 := by decide
  have hdecimal : fromChars 64 (decimal n.val.natAbs) = some n.val.natAbs :=
    fromChars_decimal (by omega)
  simp only [standardLibrary, Kotatsu.Codec.Json.integer]
  by_cases hneg : n.val < 0
  · simp only [hneg, if_true, List.head?_cons, List.tail_cons, hdecimal, Option.bind_some]
    have hval : -(n.val.natAbs : Int) = n.val := by omega
    rw [hval, Codec.Bincode.narrowSigned_val]
  · have hhead : (decimal n.val.natAbs).head? ≠ some 0x2D := by
      intro hhead
      have hdigit := isDigit_decimal n.val.natAbs 0x2D (List.mem_of_mem_head? hhead)
      exact absurd hdigit (by decide)
    have hval : (n.val.natAbs : Int) = n.val := Int.natAbs_of_nonneg (Int.not_lt.mp hneg)
    rw [if_neg hneg, if_neg hhead, hdecimal, Option.bind_some, hval]
    exact Codec.Bincode.narrowSigned_val n

theorem standardLibrary_lawful : standardLibrary.Lawful where
  validateUtf8 := standard_lawful.validateUtf8
  readString := standardLibrary_readString
  readInteger := standardLibrary_readInteger
  readInteger_string s h := by
    obtain ⟨u, hquote, -⟩ := h
    obtain rfl := (one_iff (c := 0x22)).mp hquote
    have hhead : ¬(0x22 :: u).head? = some (0x2D : UInt8) := by
      simp only [List.head?_cons, Option.some.injEq]
      decide
    simp only [standardLibrary, hhead, if_false, fromChars_none (b := 0x22) rfl, Option.bind_none]
  readInteger_null := by
    have hnull : ascii "null" = 0x6E :: ascii "ull" := by decide
    have hhead : ¬(0x6E :: ascii "ull").head? = some (0x2D : UInt8) := by
      simp only [List.head?_cons, Option.some.injEq]
      decide
    simp only [standardLibrary, hnull, hhead, if_false, fromChars_none (b := 0x6E) rfl,
      Option.bind_none]
  readString_null := by
    have hhead : ¬(ascii "null").head? = some 0x22 := by decide
    simp only [standardLibrary, hhead, if_false]
  formatDouble _ _ := by
    refine ⟨_, .refl, _, .inl (.intro rfl), _, .single ⟨_, .intro rfl, .single (.intro ?_)⟩, .refl⟩
    exact ⟨by decide, by decide⟩

/-- What `peek` finds of the front of a message is true of it: nothing, or its kind, with its id if
it is a request or a response. Nothing past a front is read, whatever its bytes are. -/
theorem peek_front (hlib : lib.Lawful) :
    (∀ (m : Message) (text front : Bytes), m.encode lib = some text → front <+: text →
      ∃ head, peek lib front = .ok head ∧ (head.kind = .unknown ∨ head.kind = m.kind) ∧
        (head.kind = .request ∨ head.kind = .response → head.id = m.id)) ∧
    ∀ front, ∃ head, peek lib front = .ok head := by
  constructor
  · intro m text front hencode hfront
    cases m with
    | request id method params =>
      obtain ⟨idText, value, ms, hid, hparams, hvalid, rfl⟩ := encodeRequest_lines hlib hencode
      obtain ⟨h, hread, hstage⟩ := readHead_prefix hvalid hfront
      refine ⟨h.head, by rw [peek, hread]; rfl, ?_⟩
      rcases hstage.version.id with hunknown | hstage
      · exact ⟨.inl hunknown, fun hkind => by simp [hunknown] at hkind⟩
      · rw [hid] at hstage
        rcases hstage.method hparams with rfl | ⟨hmethod, hhas, hid⟩
        · exact ⟨.inl rfl, fun _ => rfl⟩
        · simp only [HeadMembers.head, hmethod, hhas, hid, if_true]
          exact ⟨.inr rfl, fun _ => rfl⟩
    | notification method params =>
      obtain ⟨value, ms, hparams, hvalid, rfl⟩ := encodeNotification_lines hlib hencode
      obtain ⟨h, hread, hstage⟩ := readHead_prefix hvalid hfront
      refine ⟨h.head, by rw [peek, hread]; rfl, ?_⟩
      rcases hstage.version.method hparams with rfl | ⟨hmethod, hhas, hid⟩
      · exact ⟨.inl rfl, fun _ => rfl⟩
      · simp only [HeadMembers.head, hmethod, hhas, hid, if_true]
        exact ⟨.inr rfl, fun _ => rfl⟩
    | success id result =>
      obtain ⟨idText, resultText, value, hid, hvalid, rfl⟩ :=
        encodeSuccessResponse_lines hlib hencode
      obtain ⟨h, hread, hstage⟩ := readHead_prefix hvalid hfront
      refine ⟨h.head, by rw [peek, hread]; rfl, ?_⟩
      rcases hstage.version.id with hunknown | hstage
      · exact ⟨.inl hunknown, fun hkind => by simp [hunknown] at hkind⟩
      · rw [hid] at hstage
        rcases hstage.answer (.inl rfl) with rfl | rfl
        · exact ⟨.inl rfl, fun _ => rfl⟩
        · exact ⟨.inr rfl, fun _ => rfl⟩
    | failure id error =>
      obtain ⟨idText, errorText, value, hid, hvalid, rfl⟩ :=
        encodeErrorResponse_lines hlib hencode
      obtain ⟨h, hread, hstage⟩ := readHead_prefix hvalid hfront
      refine ⟨h.head, by rw [peek, hread]; rfl, ?_⟩
      rcases hstage.version.id with hunknown | hstage
      · exact ⟨.inl hunknown, fun hkind => by simp [hunknown] at hkind⟩
      · rw [hid] at hstage
        rcases hstage.answer (.inr rfl) with rfl | rfl
        · exact ⟨.inl rfl, fun _ => rfl⟩
        · exact ⟨.inr rfl, fun _ => rfl⟩
  · intro front
    obtain ⟨h, hread⟩ := readHead_ok lib front
    exact ⟨h.head, by rw [peek, hread]; rfl⟩

end Peek

theorem peek_front_cutId : ∃ head, peek standardLibrary
      (ascii "\x7b\"jsonrpc\":\"2.0\",\"id\":1") = .ok head ∧
    (head.kind = .unknown ∨ head.kind = .request) ∧
    (head.kind = .request ∨ head.kind = .response →
      head.id = some (.number ⟨12, by decide⟩)) :=
  (peek_front standardLibrary_lawful).1 (.request (.number ⟨12, by decide⟩) (ascii "m") none)
    (ascii "\x7b\"jsonrpc\":\"2.0\",\"id\":12,\"method\":\"m\"\x7d") _
    (by decide +kernel) (by decide)

end Kotatsu.Ipc.Codec.JsonCodec
