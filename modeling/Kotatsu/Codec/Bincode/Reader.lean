import Kotatsu.Core.Reader
import Kotatsu.Codec.Bincode.Writer

/-!
# Reading bincode

The mirror of the writer. Every read first checks that its bytes are there and
fails with a message of its own when they are not, when a tag or a marker is
none the writer writes, or when an integer does not fit the type it is read
into. An error carries the path of fields and indices down to it.
-/

namespace Kotatsu.Codec.Bincode

open Kotatsu.Core

/-! ## Errors -/

/-- A step of an error's path. -/
inductive PathSegment where
  | field (name : Bytes)
  | index (i : Nat)
deriving DecidableEq, Repr

/-- What a failed decode reports. -/
structure RichError where
  message : Bytes := []
  path : List PathSegment := []
deriving DecidableEq, Repr

def unexpectedEof : Bytes := ascii "unexpected eof"
def typeMismatch : Bytes := ascii "type mismatch"
def numberOutOfRange : Bytes := ascii "number out of range"
def trailingBytes : Bytes := ascii "trailing bytes"
def invalidLength : Bytes := ascii "invalid length"

/-- The error of an index that no alternative has. -/
def invalidVariantIndex (index : Nat) : Bytes := ascii "invalid variant index " ++ decimal index

/-- A read of a bincode buffer. -/
abbrev Decode (α : Type) := ReadM RichError α

/-- `Reader::fail`. -/
def fail {α : Type} (message : Bytes) : Decode α := ReadM.fail { message := message }

/-- Prepends where a failed step was to the error's path. -/
def tracePath {α : Type} (at' : PathSegment) (d : Decode α) : Decode α :=
  ReadM.mapError (fun e => { e with path := at' :: e.path }) d

/-! ## Visits -/

def checkRemaining (n : Nat) : Decode Unit := fun c =>
  if n > c.data.length - c.pos then fail unexpectedEof c else .ok ((), c)

def readU8 : Decode UInt8 := fun c =>
  match c.data[c.pos]? with
  | some byte => .ok (byte, { c with pos := c.pos + 1 })
  | none => .error .outOfBounds

def readLe (n : Nat) : Decode Nat := do
  let bytes ← ReadM.slice n
  pure (leValue bytes)

def readWide (n : Nat) : Decode Nat := do
  checkRemaining n
  readLe n

/-- A length or an element count. -/
def readLength : Decode Nat := do
  checkRemaining 1
  let marker ← readU8
  if marker < LengthMarker.u16.toUnderlying then pure marker.toNat
  else if marker = LengthMarker.u16.toUnderlying then readWide 2
  else if marker = LengthMarker.u32.toUnderlying then readWide 4
  else if marker = LengthMarker.u64.toUnderlying then readWide 8
  else fail invalidLength

def visitBool : Decode Bool := do
  checkRemaining 1
  let byte ← readU8
  if byte > 1 then fail typeMismatch else pure (byte == 1)

/-- `narrow_int` between signed types. -/
def narrowSigned (w : Width) (value : Int) : Option (SignedInt w) :=
  if h : -2 ^ (w.bits - 1) ≤ value ∧ value < 2 ^ (w.bits - 1) then some ⟨value, h⟩ else none

/-- `narrow_int` between unsigned types. -/
def narrowUnsigned (w : Width) (value : Nat) : Option (UnsignedInt w) :=
  if h : value < 2 ^ w.bits then some ⟨value, h⟩ else none

/-- `narrow_int` into a bool. -/
def narrowBool (value : Nat) : Option Bool :=
  if value = 0 ∨ value = 1 then some (value != 0) else none

/-- A read of eight bytes whose number must be one of the type's. -/
def visitNarrow {α : Type} (narrow : Nat → Option α) : Decode α := do
  checkRemaining 8
  let raw ← readLe 8
  match narrow raw with
  | some out => pure out
  | none => fail numberOutOfRange

def visitInt (w : Width) : Decode (SignedInt w) :=
  visitNarrow fun raw => narrowSigned w (BitVec.ofNat 64 raw).toInt

def visitUint (w : Width) : Decode (UnsignedInt w) := visitNarrow (narrowUnsigned w)

def visitBlob : Decode Bytes := do
  let length ← readLength
  checkRemaining length
  ReadM.slice length

def visitStr : Decode Bytes := visitBlob

def visitBytes : Decode Bytes := visitBlob

def visitChar : Decode UInt8 := do
  checkRemaining 1
  readU8

def visitNull : Decode Unit := do
  checkRemaining 1
  let byte ← readU8
  if byte != 0x00 then fail typeMismatch else pure ()

def visitOption {α : Type} (body : Decode α) : Decode (Option α) := do
  checkRemaining 1
  let byte ← readU8
  if byte == 0x00 then pure none
  else if byte != 0x01 then fail typeMismatch
  else do
    let v ← body
    pure (some v)

/-- `while(sv.has_element())`: reads what is left of `count` elements, `idx` being read. -/
def visitElements {α γ : Type} (element : Decode α) (append : γ → α → γ) :
    (left idx : Nat) → γ → Decode γ
  | 0, _, out => pure out
  | left + 1, idx, out => do
    let item ← tracePath (.index idx) element
    visitElements element append left (idx + 1) (append out item)

def visitSeq {α γ : Type} (element : Decode α) (append : γ → α → γ) (empty : γ) : Decode γ := do
  let count ← readLength
  visitElements element append count 0 empty

/-- An entry of a map: its key, then its value. -/
def visitEntry {α β : Type} (key : Decode α) (value : Decode β) : Decode (α × β) := do
  let k ← key
  let v ← value
  pure (k, v)

def visitMap {α β γ : Type} (key : Decode α) (value : Decode β) (insert : γ → α × β → γ)
    (empty : γ) : Decode γ := do
  let count ← readLength
  visitElements (visitEntry key value) insert count 0 empty

def visitVariant {α : Type} (body : Nat → Decode α) : Decode α := do
  checkRemaining 4
  let index ← readLe 4
  body index

/-! ## Values -/

def appendSequenceElement {α : Type} (container : List α) (element : α) : List α :=
  container ++ [element]

/-- `append_sequence_element` into a set. -/
def insertSetElement {α : Type} [DecidableEq α] (container : Finset α) (element : α) : Finset α :=
  insert element container

/-- `insert_map_entry`, whose entry takes the place of an earlier one with its key. -/
def insertMapEntry {α β : Type} [DecidableEq α] (map : Finmap fun _ : α => β) (e : α × β) :
    Finmap fun _ : α => β :=
  map.insert e.1 e.2

/-- An enumeration is read as its underlying integer. -/
def Underlying.decode : (u : Underlying) → Decode u.Val
  | .signed w => visitInt w
  | .unsigned w => visitUint w
  | .bool => visitNarrow narrowBool

mutual

/-- `decode_plain`. -/
def decode : (t : Ty) → Decode t.Val
  | .boolean => visitBool
  | .int w => visitInt w
  | .uint w => visitUint w
  | .character => visitChar
  | .string => visitStr
  | .bytes => visitBytes
  | .null => visitNull
  | .monostate => pure ()
  | .optional t => visitOption (decode t)
  | .enumeration u => u.decode
  | .array t => visitSeq (decode t) appendSequenceElement []
  | .set t => visitSeq (decode t) insertSetElement (∅ : Finset t.Val)
  | .tuple ts => decodeTuple 0 ts
  | .map k v => visitMap (decode k) (decode v) insertMapEntry (∅ : Finmap fun _ : k.Val => v.Val)
  | .struct fs => decodeStructFields fs
  | .variant ts => visitVariant fun index =>
    if ts.size ≤ index then fail (invalidVariantIndex index) else decodeAlternative ts index

/-- The elements of a tuple from index `i` on. -/
def decodeTuple (i : Nat) : (ts : Tys) → Decode ts.Vals
  | .nil => pure ()
  | .cons t ts => do
    let v ← tracePath (.index i) (decode t)
    let vs ← decodeTuple (i + 1) ts
    pure (v, vs)

/-- `with_index`: the alternative at an index, and the bare failure of an index of none. -/
def decodeAlternative : (ts : Tys) → Nat → Decode ts.Alt
  | .nil, _ => ReadM.fail {}
  | .cons t _, 0 => do
    let v ← decode t
    pure (.inl v)
  | .cons _ ts, index + 1 => do
    let a ← decodeAlternative ts index
    pure (.inr a)

/-- `decode_struct_fields`. -/
def decodeStructFields : (fs : Fields) → Decode fs.Vals
  | .nil => pure ()
  | .cons name t fs => do
    let v ← tracePath (.field name) (decode t)
    let vs ← decodeStructFields fs
    pure (v, vs)

end

/-- `from_bytes`: the whole buffer must be read. -/
def fromBytes (t : Ty) (data : Bytes) : Except (Fault RichError) t.Val :=
  match decode t ⟨data, 0⟩ with
  | .error e => .error e
  | .ok (value, r) =>
    if r.pos ≠ data.length then .error (.error { message := trailingBytes }) else .ok value

end Kotatsu.Codec.Bincode
