import Kotatsu.Ipc.Lsp.Uri

/-!
# Percent encoding

A byte outside the kept ones is written as `%` and two hexadecimal digits. Decoding reads
an escape wherever a `%` stands, so it undoes an encoding under either policy for slashes,
with anything behind it. An encoding holds only bytes that are kept, `%` and digits, which
is why no delimiter of a URI stands in one.
-/

namespace Kotatsu.Ipc.Lsp

open Kotatsu.Core

/-- `should_encode`. -/
def shouldEncode (value : UInt8) (encodeSlash : Bool) : Bool :=
  let isUnreserved := isAsciiAlnum value || (ascii "-._~").contains value
  if isUnreserved then false
  else if !encodeSlash && value == slashByte then false
  else !(ascii ":@!$&'()*+,;=").contains value

/-- A digit of `hex`. -/
def hexOf (digit : UInt8) : UInt8 := (ascii "0123456789ABCDEF").getD digit.toNat 0

/-- `hex_value`; what is no digit has none. -/
def hexValue (value : UInt8) : Option Nat :=
  if 48 ≤ value.toNat ∧ value.toNat ≤ 57 then some (value.toNat - 48)
  else if 97 ≤ value.toNat ∧ value.toNat ≤ 102 then some (value.toNat - 97 + 10)
  else if 65 ≤ value.toNat ∧ value.toNat ≤ 70 then some (value.toNat - 65 + 10)
  else none

/-- What is written for a byte. -/
def percentEncodeByte (encodeSlash : Bool) (value : UInt8) : Bytes :=
  if shouldEncode value encodeSlash then
    [percentByte, hexOf ((value >>> 4) &&& 0x0F), hexOf (value &&& 0x0F)]
  else [value]

/-- `percent_encode_with_policy`. -/
def percentEncodeWithPolicy (input : Bytes) (encodeSlash : Bool) : Bytes :=
  input.flatMap (percentEncodeByte encodeSlash)

/-- `URI::percent_encode`. -/
def URI.percentEncode (input : Bytes) (encodeSlash : Bool) : Bytes :=
  percentEncodeWithPolicy input encodeSlash

/-- `URI::percent_decode`. -/
def URI.percentDecode : Bytes → Except String Bytes
  | [] => .ok []
  | value :: rest =>
    if value ≠ percentByte then (URI.percentDecode rest).map (value :: ·)
    else
      match rest with
      | first :: second :: rest =>
        match hexValue first, hexValue second with
        | some high, some low =>
          (URI.percentDecode rest).map (UInt8.ofNat (high <<< 4 ||| low) :: ·)
        | _, _ => .error "invalid percent-encoding: non-hex digit"
      | _ => .error "invalid percent-encoding: truncated escape"

/-! ## One byte -/

/-- The two digits of a byte are read back as the byte. -/
theorem hexValue_hexOf (value : UInt8) :
    ∃ high low, hexValue (hexOf ((value >>> 4) &&& 0x0F)) = some high ∧
      hexValue (hexOf (value &&& 0x0F)) = some low ∧ UInt8.ofNat (high <<< 4 ||| low) = value := by
  have hdigits : ∀ n < 256, let v := UInt8.ofNat n
      hexValue (hexOf ((v >>> 4) &&& 0x0F)) = some (n / 16) ∧
        hexValue (hexOf (v &&& 0x0F)) = some (n % 16) ∧
        UInt8.ofNat ((n / 16) <<< 4 ||| n % 16) = v := by decide +kernel
  have hvalue := hdigits value.toNat value.toNat_lt
  rw [UInt8.ofNat_toNat] at hvalue
  exact ⟨_, _, hvalue⟩

/-- A digit is no byte that is encoded. -/
theorem shouldEncode_hexOf (value : UInt8) :
    shouldEncode (hexOf ((value >>> 4) &&& 0x0F)) true = false ∧
      shouldEncode (hexOf (value &&& 0x0F)) true = false := by
  have hdigits : ∀ n < 256, let v := UInt8.ofNat n
      shouldEncode (hexOf ((v >>> 4) &&& 0x0F)) true = false ∧
        shouldEncode (hexOf (v &&& 0x0F)) true = false := by decide +kernel
  have hvalue := hdigits value.toNat value.toNat_lt
  rwa [UInt8.ofNat_toNat] at hvalue

@[simp] theorem shouldEncode_percentByte (encodeSlash : Bool) :
    shouldEncode percentByte encodeSlash = true := by
  cases encodeSlash <;> decide

/-- Keeping slashes encodes no more than encoding them. -/
theorem shouldEncode_mono {value : UInt8} {encodeSlash : Bool}
    (h : shouldEncode value true = false) : shouldEncode value encodeSlash = false := by
  cases encodeSlash with
  | true => exact h
  | false =>
    unfold shouldEncode at h ⊢
    dsimp only at h ⊢
    split
    · rfl
    · next hreserved =>
      rw [if_neg hreserved, Bool.not_true, Bool.false_and, if_neg Bool.false_ne_true] at h
      rw [h, ite_self]

theorem URI.percentDecode_cons {value : UInt8} (rest : Bytes) (h : value ≠ percentByte) :
    URI.percentDecode (value :: rest) = (URI.percentDecode rest).map (value :: ·) := by
  rw [URI.percentDecode.eq_def]
  exact if_pos h

/-- What is written for a byte is read as the byte, and what follows it as before. -/
theorem URI.percentDecode_encodeByte (encodeSlash : Bool) (value : UInt8) (rest : Bytes) :
    URI.percentDecode (percentEncodeByte encodeSlash value ++ rest) =
      (URI.percentDecode rest).map (value :: ·) := by
  unfold percentEncodeByte
  split
  · obtain ⟨high, low, hhigh, hlow, hvalue⟩ := hexValue_hexOf value
    rw [List.cons_append, List.cons_append, List.cons_append, List.nil_append,
      URI.percentDecode, if_neg (not_not_intro rfl)]
    rw [hhigh, hlow, ← hvalue]
  · next hkept =>
    refine URI.percentDecode_cons rest fun heq => hkept ?_
    rw [heq, shouldEncode_percentByte]

/-! ## Texts -/

theorem percentEncodeWithPolicy_cons (value : UInt8) (input : Bytes) (encodeSlash : Bool) :
    percentEncodeWithPolicy (value :: input) encodeSlash =
      percentEncodeByte encodeSlash value ++ percentEncodeWithPolicy input encodeSlash :=
  List.flatMap_cons

/-- An encoding is decoded, whatever stands behind it. -/
theorem URI.percentDecode_append (input : Bytes) (encodeSlash : Bool) (rest : Bytes) :
    URI.percentDecode (percentEncodeWithPolicy input encodeSlash ++ rest) =
      (URI.percentDecode rest).map (input ++ ·) := by
  induction input with
  | nil =>
    rw [percentEncodeWithPolicy, List.flatMap_nil, List.nil_append]
    cases URI.percentDecode rest <;> rfl
  | cons value input ih =>
    rw [percentEncodeWithPolicy_cons, List.append_assoc, URI.percentDecode_encodeByte, ih]
    cases URI.percentDecode rest <;> rfl

/-- Decoding undoes encoding. -/
theorem URI.percentDecode_encodeWithPolicy (input : Bytes) (encodeSlash : Bool) :
    URI.percentDecode (percentEncodeWithPolicy input encodeSlash) = .ok input := by
  have h := URI.percentDecode_append input encodeSlash []
  rw [List.append_nil] at h
  rw [h, URI.percentDecode, Except.map, List.append_nil]

/-- A text without escapes is decoded as it is. -/
theorem URI.percentDecode_plain {input : Bytes} (h : percentByte ∉ input) :
    URI.percentDecode input = .ok input := by
  induction input with
  | nil => rfl
  | cons value input ih =>
    rw [List.mem_cons, not_or] at h
    rw [URI.percentDecode_cons _ (Ne.symm h.1), ih h.2, Except.map]

/-- An encoding holds no byte that is encoded, `%` apart. -/
theorem not_mem_percentEncode {byte : UInt8} {encodeSlash : Bool} (input : Bytes)
    (hencoded : shouldEncode byte encodeSlash = true) (hbyte : byte ≠ percentByte) :
    byte ∉ percentEncodeWithPolicy input encodeSlash := by
  intro hmem
  obtain ⟨value, -, hvalue⟩ := List.mem_flatMap.mp hmem
  unfold percentEncodeByte at hvalue
  split at hvalue
  · obtain ⟨hhigh, hlow⟩ := shouldEncode_hexOf value
    simp only [List.mem_cons, List.not_mem_nil, or_false] at hvalue
    obtain rfl | rfl | rfl := hvalue
    · exact hbyte rfl
    · rw [shouldEncode_mono hhigh] at hencoded
      cases hencoded
    · rw [shouldEncode_mono hlow] at hencoded
      cases hencoded
  · next hkept =>
    rw [List.mem_singleton.mp hvalue] at hencoded
    exact hkept hencoded

/-- A text of kept bytes is its own encoding. -/
theorem percentEncode_kept {input : Bytes} {encodeSlash : Bool}
    (h : ∀ value ∈ input, shouldEncode value encodeSlash = false) :
    percentEncodeWithPolicy input encodeSlash = input := by
  induction input with
  | nil => rfl
  | cons value input ih =>
    have hkept : ¬shouldEncode value encodeSlash = true := by
      rw [h value List.mem_cons_self]
      decide
    rw [percentEncodeWithPolicy_cons, percentEncodeByte, if_neg hkept,
      ih fun v hv => h v (List.mem_cons_of_mem _ hv), List.singleton_append]

end Kotatsu.Ipc.Lsp
