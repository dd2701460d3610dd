import Kotatsu.Codec.Bincode.Value
import Kotatsu.Codec.Json.Escape
import Kotatsu.Support.IsUtf8

/-!
# Values as JSON writes them

A value reaches the JSON writer as a tree of visits: scalars, texts, sequences, objects,
and text that is JSON already. What the writer makes of a tree is a value of the
grammar, in whatever it is put.
-/

namespace Kotatsu.Codec.Json

open Relation
open Kotatsu.Core Kotatsu.Core.Json Kotatsu.Support
open Kotatsu.Codec.Bincode (SignedInt UnsignedInt)

/-- A text as a visitor takes it: a name the program declares, or text that a value holds. -/
inductive Spelling where
  | declared (s : Bytes)
  | held (s : Bytes)

/-- What a member is named by: a field's name or a key of a map. -/
inductive Key where
  | name (s : Spelling)
  | signed (n : SignedInt .w64)
  | unsigned (n : UnsignedInt .w64)

/-- `raw_value`: empty, or a JSON text kept as it is. -/
structure RawValue where
  data : Bytes
  json : data ≠ [] → ∃ d ms, Text UInt8.toNat data d ms

/-- What `encode_value` shows a `ValueWriter` of a value; a double is its 64 bits. -/
inductive Visit where
  | null
  | bool (v : Bool)
  | int (v : SignedInt .w64)
  | uint (v : UnsignedInt .w64)
  | float (bits : UnsignedInt .w64)
  | str (s : Spelling)
  | bytes (v : Bytes)
  | seq (items : List Visit)
  | object (members : List (Key × Visit))
  | raw (v : RawValue)

/-! ## Writing -/

/-- `append_number` of an integer. -/
def integer (n : Int) : Bytes :=
  if n < 0 then 0x2D :: decimal n.natAbs else decimal n.natAbs

/-- `std::isfinite` of a double's bits. -/
def isFinite (bits : Nat) : Bool := bits / 2 ^ 52 % 2 ^ 11 ≠ 0x7FF

/-- `encode_text`, or `visit_str` of a declared name. -/
def Spelling.write : Spelling → Option Bytes
  | .declared s => some (appendString s)
  | .held s => if isUtf8 s then some (appendString s) else none

/-- What a `MapKeyWriter` or `visit_field` writes. -/
def Key.write : Key → Option Bytes
  | .name s => s.write
  | .signed n => some (appendString (integer n.val))
  | .unsigned n => some (appendString (decimal n.val))

/-- The comma of an element or a member that is not the first. -/
def separator (first : Bool) : Bytes := if first then [] else [0x2C]

/-- The rest of `visit_bytes`, from an octet on. -/
def octets (first : Bool) : Bytes → Bytes
  | [] => []
  | b :: bs => separator first ++ decimal b.toNat ++ octets false bs

section Write

variable (formatDouble : UnsignedInt .w64 → Bytes)

mutual

/-- What a `ValueWriter` appends, where the encode does not fail. -/
def Visit.write : Visit → Option Bytes
  | .null => some (ascii "null")
  | .bool v => some (if v then ascii "true" else ascii "false")
  | .int v => some (integer v.val)
  | .uint v => some (decimal v.val)
  | .float bits => if isFinite bits.val then some (formatDouble bits) else none
  | .str s => s.write
  | .bytes v => some (0x5B :: (octets true v ++ [0x5D]))
  | .seq items => do return 0x5B :: ((← writeItems true items) ++ [0x5D])
  | .object members => do return 0x7B :: ((← writeMembers true members) ++ [0x7D])
  | .raw v => some (if v.data = [] then ascii "null" else v.data)

/-- The elements a `SeqWriter` appends. -/
def writeItems (first : Bool) : List Visit → Option Bytes
  | [] => some []
  | v :: vs => do return separator first ++ (← v.write) ++ (← writeItems false vs)

/-- The members a `StructWriter` or a `MapWriter` appends. -/
def writeMembers (first : Bool) : List (Key × Visit) → Option Bytes
  | [] => some []
  | (key, v) :: rest => do
    return separator first ++ (← key.write) ++ [0x3A] ++ (← v.write) ++ (← writeMembers false rest)

end

end Write

/-! ## Numbers -/

theorem decimal_int (n : Nat) (rest : Bytes) : Json.Int UInt8.toNat (decimal n ++ rest) rest := by
  have hdigits : ∀ bs : Bytes, (∀ b ∈ bs, Core.isDigit b = true) →
      ReflTransGen (One UInt8.toNat IsDigit) (bs ++ rest) rest := by
    intro bs hbs
    induction bs with
    | nil => exact .refl
    | cons b bs ih =>
      obtain ⟨hb, hbs⟩ := List.forall_mem_cons.mp hbs
      refine .head (.intro ?_) (ih hbs)
      simpa only [IsDigit, Core.isDigit, Bool.and_eq_true, decide_eq_true_eq] using hb
  have hlead : ∀ n, 0 < n → ∃ b bs, decimal n = b :: bs ∧ IsLeading b.toNat := by
    intro n
    induction n using Nat.strong_induction_on with
    | _ n ih =>
      intro hn
      rw [decimal]
      split
      · refine ⟨_, [], rfl, ?_⟩
        rw [IsLeading, UInt8.toNat_ofNat']
        omega
      · obtain ⟨b, bs, hb, hleading⟩ := ih (n / 10) (by omega) (by omega)
        exact ⟨b, bs ++ [_], by rw [hb, List.cons_append], hleading⟩
  rcases Nat.eq_zero_or_pos n with rfl | hn
  · rw [decimal]
    exact .inl (.intro rfl)
  · obtain ⟨b, bs, hb, hleading⟩ := hlead n hn
    have hall := isDigit_decimal n
    rw [hb] at hall ⊢
    exact .inr ⟨_, .intro hleading, hdigits bs (List.forall_mem_cons.mp hall).2⟩

theorem decimal_number (n : Nat) (rest : Bytes) : Number UInt8.toNat (decimal n ++ rest) rest :=
  ⟨_, .refl, _, decimal_int n rest, _, .refl, .refl⟩

theorem integer_number (n : Int) (rest : Bytes) : Number UInt8.toNat (integer n ++ rest) rest := by
  unfold integer
  split
  · exact ⟨_, .single (.intro rfl), _, decimal_int _ rest, _, .refl, .refl⟩
  · exact decimal_number _ rest

/-! ## What is written is JSON -/

theorem Spelling.write_str {s : Spelling} {text : Bytes} (h : s.write = some text) :
    ∃ value, text = appendString value := by
  cases s with
  | declared value => exact ⟨value, (Option.some.inj h).symm⟩
  | held value =>
    rw [Spelling.write] at h
    split at h
    case isTrue => exact ⟨value, (Option.some.inj h).symm⟩
    case isFalse => cases h

theorem Key.write_str {key : Key} {text : Bytes} (h : key.write = some text) :
    ∃ value, text = appendString value := by
  cases key with
  | name s => exact Spelling.write_str h
  | signed n => exact ⟨_, (Option.some.inj h).symm⟩
  | unsigned n => exact ⟨_, (Option.some.inj h).symm⟩

private theorem number_text {text : Bytes} (h : ∀ rest, Number UInt8.toNat (text ++ rest) rest) :
    ∃ d ms, Text UInt8.toNat text d ms := by
  have := h []
  rw [List.append_nil] at this
  exact ⟨_, _, .scalar (.inr (.inl this))⟩

private theorem word_text {text : Bytes} (h : Literal UInt8.toNat text []) :
    ∃ d ms, Text UInt8.toNat text d ms := ⟨_, _, .scalar (.inl h)⟩

private theorem null_text : ∃ d ms, Text UInt8.toNat (ascii "null") d ms :=
  word_text (.inr (.inr ⟨_, .intro rfl, _, .intro rfl, _, .intro rfl, _, .intro rfl, rfl⟩))

/-- The octets of a sequence, from its first. -/
private theorem octets_elements (b : UInt8) (bs : Bytes) (rest : Bytes) :
    ∃ d ms, Reads UInt8.toNat .elements (octets true (b :: bs) ++ rest) rest d ms := by
  have hone : ∀ (b : UInt8) (t : Bytes),
      Reads UInt8.toNat .value (decimal b.toNat ++ t) t 0 [] := fun b t =>
    .scalar (.inr (.inl (decimal_number _ t)))
  induction bs generalizing b with
  | nil =>
    have hvalue : Reads UInt8.toNat .value (octets true [b] ++ rest) rest 0 [] := by
      simpa only [octets, separator, if_true, List.nil_append, List.append_nil] using hone b rest
    exact ⟨0, [], .element .refl hvalue .refl⟩
  | cons c bs ih =>
    obtain ⟨d, ms, ih⟩ := ih c
    have hstep : octets true (b :: c :: bs) ++ rest =
        decimal b.toNat ++ 0x2C :: (octets true (c :: bs) ++ rest) := by
      simp only [octets, separator, if_true, Bool.false_eq_true, if_false, List.nil_append,
        List.append_assoc, List.cons_append]
    rw [hstep]
    exact ⟨_, _, .elements .refl (hone b _) .refl (.intro rfl) ih⟩

section Write

variable {formatDouble : UnsignedInt .w64 → Bytes}

/-- What is relied on: a double that is finite is written as a number. -/
def FormatsDoubles (formatDouble : UnsignedInt .w64 → Bytes) : Prop :=
  ∀ bits, isFinite bits.val = true → Number UInt8.toNat (formatDouble bits) []

mutual

/-- What the writer makes of a value is a JSON text. -/
theorem Visit.write_text (hdouble : FormatsDoubles formatDouble) :
    ∀ {v : Visit} {text : Bytes}, v.write formatDouble = some text →
      ∃ d ms, Text UInt8.toNat text d ms
  | .null, _, h => by
    cases h
    exact null_text
  | .bool true, _, h => by
    cases h
    exact word_text (.inl ⟨_, .intro rfl, _, .intro rfl, _, .intro rfl, _, .intro rfl, rfl⟩)
  | .bool false, _, h => by
    cases h
    exact word_text (.inr (.inl ⟨_, .intro rfl, _, .intro rfl, _, .intro rfl, _, .intro rfl, _,
      .intro rfl, rfl⟩))
  | .int v, _, h => by
    cases h
    exact number_text (integer_number _)
  | .uint v, _, h => by
    cases h
    exact number_text (decimal_number _)
  | .float bits, _, h => by
    rw [Visit.write] at h
    split at h
    case isTrue hfinite =>
      cases h
      exact ⟨_, _, .scalar (.inr (.inl (hdouble bits hfinite)))⟩
    case isFalse => cases h
  | .str s, _, h => by
    obtain ⟨value, rfl⟩ := Spelling.write_str h
    have hstr := appendString_str value []
    rw [List.append_nil] at hstr
    exact ⟨_, _, .scalar (.inr (.inr hstr))⟩
  | .bytes [], _, h => by
    cases h
    exact ⟨_, _, _, [], .refl, .emptyArray ⟨_, .intro rfl, _, .refl, .intro rfl⟩, .refl⟩
  | .bytes (b :: bs), _, h => by
    cases h
    obtain ⟨d, ms, helements⟩ := octets_elements b bs [0x5D]
    exact ⟨_, _, _, [], .refl, .array (.intro rfl) helements (.intro rfl), .refl⟩
  | .seq items, _, h => by
    rw [Visit.write] at h
    obtain ⟨body, hbody, h⟩ := Option.bind_eq_some_iff.mp h
    cases h
    rcases writeItems_elements hdouble hbody with ⟨-, rfl⟩ | ⟨-, core, rfl, hcore⟩
    · exact ⟨_, _, _, [], .refl, .emptyArray ⟨_, .intro rfl, _, .refl, .intro rfl⟩, .refl⟩
    · obtain ⟨d, ms, helements⟩ := hcore [0x5D]
      exact ⟨_, _, _, [], .refl, .array (.intro rfl) helements (.intro rfl), .refl⟩
  | .object members, _, h => by
    rw [Visit.write] at h
    obtain ⟨body, hbody, h⟩ := Option.bind_eq_some_iff.mp h
    cases h
    rcases writeMembers_members hdouble hbody with ⟨-, rfl⟩ | ⟨-, core, rfl, hcore⟩
    · exact ⟨_, _, _, [], .refl, .emptyObject ⟨_, .intro rfl, _, .refl, .intro rfl⟩, .refl⟩
    · obtain ⟨d, ms, hmembers⟩ := hcore [0x7D]
      exact ⟨_, _, _, [], .refl, .object (.intro rfl) hmembers (.intro rfl), .refl⟩
  | .raw v, _, h => by
    rw [Visit.write] at h
    cases h
    split
    case isTrue => exact null_text
    case isFalse hne => exact v.json hne

/-- The elements are those of an array, after the comma. -/
theorem writeItems_elements (hdouble : FormatsDoubles formatDouble) :
    ∀ {first : Bool} {items : List Visit} {body : Bytes},
      writeItems formatDouble first items = some body →
      (items = [] ∧ body = []) ∨ items ≠ [] ∧ ∃ core, body = separator first ++ core ∧
        ∀ rest, ∃ d ms, Reads UInt8.toNat .elements (core ++ rest) rest d ms
  | _, [], _, h => by
    cases h
    exact .inl ⟨rfl, rfl⟩
  | _, v :: vs, _, h => by
    rw [writeItems] at h
    obtain ⟨text, htext, h⟩ := Option.bind_eq_some_iff.mp h
    obtain ⟨more, hmore, h⟩ := Option.bind_eq_some_iff.mp h
    cases h
    obtain ⟨d, ms, hvalue⟩ := Visit.write_text hdouble htext
    refine .inr ⟨List.cons_ne_nil _ _, text ++ more, List.append_assoc _ _ _, fun rest => ?_⟩
    rcases writeItems_elements hdouble hmore with ⟨-, rfl⟩ | ⟨-, core, rfl, hcore⟩
    · rw [List.append_nil]
      obtain ⟨a, b, ms', ha, hreads, hb⟩ := Json.Text.append hvalue rest
      exact ⟨_, _, .element ha hreads hb⟩
    · obtain ⟨e, ns, helements⟩ := hcore rest
      obtain ⟨a, b, ms', ha, hreads, hb⟩ := Json.Text.append hvalue (0x2C :: (core ++ rest))
      rw [List.append_assoc]
      exact ⟨_, _, .elements ha hreads hb (.intro rfl) helements⟩

/-- The members are those of an object, after the comma. -/
theorem writeMembers_members (hdouble : FormatsDoubles formatDouble) :
    ∀ {first : Bool} {members : List (Key × Visit)} {body : Bytes},
      writeMembers formatDouble first members = some body →
      (members = [] ∧ body = []) ∨ members ≠ [] ∧ ∃ core, body = separator first ++ core ∧
        ∀ after, ∃ d ms, Reads UInt8.toNat .members (core ++ after) after d ms
  | _, [], _, h => by
    cases h
    exact .inl ⟨rfl, rfl⟩
  | _, (key, v) :: rest, _, h => by
    rw [writeMembers] at h
    obtain ⟨name, hname, h⟩ := Option.bind_eq_some_iff.mp h
    obtain ⟨text, htext, h⟩ := Option.bind_eq_some_iff.mp h
    obtain ⟨more, hmore, h⟩ := Option.bind_eq_some_iff.mp h
    cases h
    obtain ⟨value, rfl⟩ := Key.write_str hname
    obtain ⟨d, ms, hvalue⟩ := Visit.write_text hdouble htext
    refine .inr ⟨List.cons_ne_nil _ _, appendString value ++ ([0x3A] ++ (text ++ more)),
      by simp only [List.append_assoc], fun after => ?_⟩
    rw [List.append_assoc, List.append_assoc, List.append_assoc]
    have hkey := appendString_str value
    rcases writeMembers_members hdouble hmore with ⟨-, rfl⟩ | ⟨-, core, rfl, hcore⟩
    · obtain ⟨a, b, ms', ha, hreads, hb⟩ := Json.Text.append hvalue after
      exact ⟨_, _, .member .refl (hkey _) .refl (.intro rfl) ha hreads hb⟩
    · obtain ⟨e, ns, hmembers⟩ := hcore after
      obtain ⟨a, b, ms', ha, hreads, hb⟩ := Json.Text.append hvalue (0x2C :: (core ++ after))
      exact ⟨_, _, .members .refl (hkey _) .refl (.intro rfl) ha hreads hb (.intro rfl) hmembers⟩

end

end Write

end Kotatsu.Codec.Json
