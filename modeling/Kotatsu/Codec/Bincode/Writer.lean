import Kotatsu.Core.Reader
import Kotatsu.Codec.Bincode.Value

/-!
# Writing bincode

`Writer` holds a buffer that grows ahead of what is written. Every visit claims
room at the end of what is written and fills it, so that a run of visits
appends: `encode` adds exactly the bytes `Ty.layout` gives for the value, which
is where the reading side meets the writing one.
-/

namespace Kotatsu.Codec.Bincode

open Kotatsu.Core

/-- The byte before a length or count that does not fit in one. -/
inductive LengthMarker where
  | u16
  | u32
  | u64
deriving DecidableEq, Repr

/-- The byte of a marker. -/
def LengthMarker.toUnderlying : LengthMarker → UInt8
  | .u16 => 251
  | .u32 => 252
  | .u64 => 253

/-! ## The buffer -/

/-- `std::vector::resize`, whose new elements are zero. -/
def resize (buf : Bytes) (n : Nat) : Bytes := buf.take n ++ List.replicate (n - buf.length) 0

@[simp] theorem length_resize (buf : Bytes) (n : Nat) : (resize buf n).length = n := by
  simp only [resize, List.length_append, List.length_take, List.length_replicate]
  omega

theorem take_resize {buf : Bytes} {n k : Nat} (hk : k ≤ buf.length) (hn : k ≤ n) :
    (resize buf n).take k = buf.take k := by
  rw [resize, List.take_append_of_le_length (by rw [List.length_take]; omega), List.take_take,
    Nat.min_eq_left hn]

/-- Bytes written over a part of the buffer. -/
def overwrite (buf : Bytes) (at' : Nat) (bs : Bytes) : Bytes :=
  buf.take at' ++ bs ++ buf.drop (at' + bs.length)

theorem length_le_overwrite (buf : Bytes) (at' : Nat) (bs : Bytes) :
    buf.length ≤ (overwrite buf at' bs).length := by
  simp only [overwrite, List.length_append, List.length_take, List.length_drop]
  omega

/-- The buffer, and the end of what is written in it. -/
structure Writer where
  buf : Bytes
  size : Nat
  size_le : size ≤ buf.length

namespace Writer

/-- `Writer{buf}` for a new buffer. -/
def new : Writer := ⟨[], 0, Nat.le_refl 0⟩

/-- What is written so far. -/
def written (w : Writer) : Bytes := w.buf.take w.size

/-- Makes room for `n` more bytes at least. -/
def grow (w : Writer) (n : Nat) : Writer where
  buf := resize w.buf (max (max (w.buf.length * 2) (w.size + n)) 64)
  size := w.size
  size_le := by
    rw [length_resize]
    omega

theorem written_grow (w : Writer) (n : Nat) : (w.grow n).written = w.written := by
  have hroom : w.size ≤ max (max (w.buf.length * 2) (w.size + n)) 64 := by omega
  exact take_resize w.size_le hroom

/-- Where the next `n` bytes go. -/
def claim (w : Writer) (n : Nat) : Nat × Writer :=
  let grown := if w.buf.length - w.size < n then w.grow n else w
  (grown.size,
    { buf := grown.buf
      size := grown.size + n
      size_le := by
        have hle := w.size_le
        dsimp only [grown]
        split
        · simp only [grow, length_resize]
          omega
        · omega })

/-- Fills room that was claimed. -/
def store (w : Writer) (at' : Nat) (bs : Bytes) : Writer where
  buf := overwrite w.buf at' bs
  size := w.size
  size_le := w.size_le.trans (length_le_overwrite w.buf at' bs)

/-- Claims room for bytes and fills it. -/
def put (w : Writer) (bs : Bytes) : Writer :=
  let (at', claimed) := w.claim bs.length
  claimed.store at' bs

private theorem take_overwrite {buf : Bytes} {at' : Nat} (bs : Bytes) (h : at' ≤ buf.length) :
    (overwrite buf at' bs).take (at' + bs.length) = buf.take at' ++ bs := by
  have hlen : (buf.take at' ++ bs).length = at' + bs.length := by
    rw [List.length_append, List.length_take, Nat.min_eq_left h]
  rw [overwrite, ← hlen, List.take_left]

/-- Claimed and filled room is what comes after what was written. -/
theorem written_put (w : Writer) (bs : Bytes) : (w.put bs).written = w.written ++ bs := by
  have hle := w.size_le
  simp only [put, claim, store, written]
  split
  · have hgrow := w.written_grow bs.length
    have hin : (w.grow bs.length).size ≤ (w.grow bs.length).buf.length :=
      (w.grow bs.length).size_le
    rw [take_overwrite bs hin]
    simp only [written] at hgrow
    rw [hgrow]
  · rw [take_overwrite bs hle]

/-! ## Visits -/

def writeLe (w : Writer) (n raw : Nat) : Writer := w.put (leBytes n raw)

def writeU8 (w : Writer) (value : UInt8) : Writer := w.put [value]

/-- A length or an element count, in as few bytes as its marker lets it. -/
def writeLength (w : Writer) (length : Nat) : Writer :=
  if length < LengthMarker.u16.toUnderlying.toNat then
    w.writeU8 (UInt8.ofNat length)
  else if length ≤ 2 ^ 16 - 1 then
    (w.writeU8 LengthMarker.u16.toUnderlying).writeLe 2 length
  else if length ≤ 2 ^ 32 - 1 then
    (w.writeU8 LengthMarker.u32.toUnderlying).writeLe 4 length
  else
    (w.writeU8 LengthMarker.u64.toUnderlying).writeLe 8 length

/-- A string or byte sequence: its length, then the bytes. -/
def writeBlob (w : Writer) (bytes : Bytes) : Writer :=
  let w := w.writeLength bytes.length
  if bytes ≠ [] then w.put bytes else w

def visitBool (w : Writer) (v : Bool) : Writer := w.writeU8 (bif v then 1 else 0)

/-- An integer widened to an `int64_t`, as the `uint64_t` with its bits. -/
def visitInt (w : Writer) (v : Int) : Writer := w.writeLe 8 (BitVec.ofInt 64 v).toNat

def visitUint (w : Writer) (v : Nat) : Writer := w.writeLe 8 v

def visitChar (w : Writer) (v : UInt8) : Writer := w.writeU8 v

def visitStr (w : Writer) (v : Bytes) : Writer := w.writeBlob v

def visitBytes (w : Writer) (v : Bytes) : Writer := w.writeBlob v

def visitNull (w : Writer) : Writer := w.writeU8 0x00

def visitSome (w : Writer) (body : Writer → Writer) : Writer := body (w.writeU8 0x01)

def visitSeq (w : Writer) (size : Nat) (body : Writer → Writer) : Writer :=
  body (w.writeLength size)

def visitMap (w : Writer) (size : Nat) (body : Writer → Writer) : Writer :=
  body (w.writeLength size)

def visitVariant (w : Writer) (index : Nat) (body : Writer → Writer) : Writer :=
  body (w.writeLe 4 (index % 2 ^ 32))

end Writer

/-! ## Values -/

/-- An enumeration is written as its underlying integer. -/
def Underlying.encode : (u : Underlying) → Writer → u.Val → Writer
  | .signed _, w, v => w.visitInt v.val
  | .unsigned _, w, v => w.visitUint v.val
  | .bool, w, v => w.visitUint (Bool.toNat v)

/-- The element count of a sequence or set, then its elements. -/
def encodeElements {α : Type} (element : Writer → α → Writer) (w : Writer) (vs : List α) :
    Writer :=
  w.visitSeq vs.length fun w => vs.foldl element w

/-- The entry count of a map, then each key and its value. -/
def encodeEntries {α β : Type} (key : Writer → α → Writer) (value : Writer → β → Writer)
    (w : Writer) (es : List (α × β)) : Writer :=
  w.visitMap es.length fun w => es.foldl (fun w e => value (key w e.1) e.2) w

mutual

/-- `encode_plain`. -/
def encode (it : Iteration) : (t : Ty) → Writer → t.Val → Writer
  | .boolean, w, v => w.visitBool v
  | .int _, w, v => w.visitInt v.val
  | .uint _, w, v => w.visitUint v.val
  | .character, w, v => w.visitChar v
  | .string, w, v => w.visitStr v
  | .bytes, w, v => w.visitBytes v
  | .null, w, _ => w.visitNull
  | .monostate, w, _ => w
  | .optional t, w, some v => w.visitSome fun w => encode it t w v
  | .optional _, w, none => w.visitNull
  | .enumeration u, w, v => u.encode w v
  | .array t, w, vs => encodeElements (encode it t) w vs
  | .set t, w, s => encodeElements (encode it t) w (it.elements t s)
  | .tuple ts, w, vs => encodeTuple it ts w vs
  | .map k v, w, m => encodeEntries (encode it k) (encode it v) w (it.entries k v m)
  | .struct fs, w, vs => encodeStructFields it fs w vs
  | .variant ts, w, a => w.visitVariant (Tys.Alt.index a) fun w => encodeAlternative it ts w a

/-- The elements of a tuple, in order. -/
def encodeTuple (it : Iteration) : (ts : Tys) → Writer → ts.Vals → Writer
  | .nil, w, _ => w
  | .cons t ts, w, (v, vs) => encodeTuple it ts (encode it t w v) vs

/-- What a variant holds. -/
def encodeAlternative (it : Iteration) : (ts : Tys) → Writer → ts.Alt → Writer
  | .cons t _, w, .inl v => encode it t w v
  | .cons _ ts, w, .inr a => encodeAlternative it ts w a

/-- The fields of a struct, in order. -/
def encodeStructFields (it : Iteration) : (fs : Fields) → Writer → fs.Vals → Writer
  | .nil, w, _ => w
  | .cons _ t fs, w, (v, vs) => encodeStructFields it fs (encode it t w v) vs

end

/-- `to_bytes`. -/
def toBytes (it : Iteration) (t : Ty) (v : t.Val) : Bytes :=
  let vis := encode it t Writer.new v
  resize vis.buf vis.size

/-! ## The bytes of a value -/

/-- The bytes of a length or an element count. -/
def lengthBytes (length : Nat) : Bytes :=
  if length < 251 then [UInt8.ofNat length]
  else if length ≤ 2 ^ 16 - 1 then 251 :: leBytes 2 length
  else if length ≤ 2 ^ 32 - 1 then 252 :: leBytes 4 length
  else 253 :: leBytes 8 length

/-- The bytes of a string. -/
def blobBytes (bytes : Bytes) : Bytes := lengthBytes bytes.length ++ bytes

/-- The bytes of a signed integer. -/
def intBytes (v : Int) : Bytes := leBytes 8 (BitVec.ofInt 64 v).toNat

/-- The bytes of an enumerator. -/
def Underlying.layout : (u : Underlying) → u.Val → Bytes
  | .signed _, v => intBytes v.val
  | .unsigned _, v => leBytes 8 v.val
  | .bool, v => leBytes 8 (Bool.toNat v)

/-- The bytes of a sequence. -/
def elementsBytes {α : Type} (element : α → Bytes) (vs : List α) : Bytes :=
  lengthBytes vs.length ++ vs.flatMap element

/-- The bytes of a map's entries. -/
def entriesBytes {α β : Type} (key : α → Bytes) (value : β → Bytes) (es : List (α × β)) : Bytes :=
  lengthBytes es.length ++ es.flatMap fun e => key e.1 ++ value e.2

mutual

/-- The bytes of a value. -/
def Ty.layout (it : Iteration) : (t : Ty) → t.Val → Bytes
  | .boolean, v => [bif v then 1 else 0]
  | .int _, v => intBytes v.val
  | .uint _, v => leBytes 8 v.val
  | .character, v => [v]
  | .string, v => blobBytes v
  | .bytes, v => blobBytes v
  | .null, _ => [0]
  | .monostate, _ => []
  | .optional t, some v => 1 :: t.layout it v
  | .optional _, none => [0]
  | .enumeration u, v => u.layout v
  | .array t, vs => elementsBytes (t.layout it) vs
  | .set t, s => elementsBytes (t.layout it) (it.elements t s)
  | .tuple ts, vs => ts.layoutAll it vs
  | .map k v, m => entriesBytes (k.layout it) (v.layout it) (it.entries k v m)
  | .struct fs, vs => fs.layoutAll it vs
  | .variant ts, a => leBytes 4 (Tys.Alt.index a % 2 ^ 32) ++ ts.layoutAlt it a

/-- The bytes of a tuple's elements. -/
def Tys.layoutAll (it : Iteration) : (ts : Tys) → ts.Vals → Bytes
  | .nil, _ => []
  | .cons t ts, (v, vs) => t.layout it v ++ ts.layoutAll it vs

/-- The bytes of what a variant holds. -/
def Tys.layoutAlt (it : Iteration) : (ts : Tys) → ts.Alt → Bytes
  | .cons t _, .inl v => t.layout it v
  | .cons _ ts, .inr a => ts.layoutAlt it a

/-- The bytes of a struct's fields. -/
def Fields.layoutAll (it : Iteration) : (fs : Fields) → fs.Vals → Bytes
  | .nil, _ => []
  | .cons _ t fs, (v, vs) => t.layout it v ++ fs.layoutAll it vs

end

namespace Writer

@[simp] theorem written_writeLe (w : Writer) (n raw : Nat) :
    (w.writeLe n raw).written = w.written ++ leBytes n raw := w.written_put _

@[simp] theorem written_writeU8 (w : Writer) (b : UInt8) :
    (w.writeU8 b).written = w.written ++ [b] := w.written_put _

@[simp] theorem written_writeLength (w : Writer) (length : Nat) :
    (w.writeLength length).written = w.written ++ lengthBytes length := by
  have hmark : LengthMarker.u16.toUnderlying.toNat = 251 := rfl
  rw [writeLength, lengthBytes, hmark]
  split
  · rw [written_writeU8]
  · split
    · simp only [written_writeLe, written_writeU8, LengthMarker.toUnderlying, List.append_assoc,
        List.singleton_append]
    · split <;> simp only [written_writeLe, written_writeU8, LengthMarker.toUnderlying,
        List.append_assoc, List.singleton_append]

@[simp] theorem written_writeBlob (w : Writer) (bytes : Bytes) :
    (w.writeBlob bytes).written = w.written ++ blobBytes bytes := by
  rw [writeBlob, blobBytes]
  split
  · rw [written_put, written_writeLength, List.append_assoc]
  · next h => rw [written_writeLength, not_not.mp h, List.append_nil]

/-- Visits in a row append what each of them appends. -/
theorem written_foldl {α : Type} {f : Writer → α → Writer} {g : α → Bytes}
    (h : ∀ w a, (f w a).written = w.written ++ g a) (w : Writer) (l : List α) :
    (l.foldl f w).written = w.written ++ l.flatMap g := by
  induction l generalizing w with
  | nil => rw [List.foldl_nil, List.flatMap_nil, List.append_nil]
  | cons a l ih => rw [List.foldl_cons, ih, h, List.flatMap_cons, List.append_assoc]

theorem written_visitSome {w : Writer} {body : Writer → Writer} {bs : Bytes}
    (h : ∀ w, (body w).written = w.written ++ bs) :
    (w.visitSome body).written = w.written ++ 1 :: bs := by
  rw [visitSome, h, written_writeU8, List.append_assoc, List.singleton_append]

theorem written_visitVariant {w : Writer} {index : Nat} {body : Writer → Writer} {bs : Bytes}
    (h : ∀ w, (body w).written = w.written ++ bs) :
    (w.visitVariant index body).written = w.written ++ (leBytes 4 (index % 2 ^ 32) ++ bs) := by
  rw [visitVariant, h, written_writeLe, List.append_assoc]

end Writer

theorem written_encodeElements {α : Type} {f : Writer → α → Writer} {g : α → Bytes}
    (h : ∀ w a, (f w a).written = w.written ++ g a) (w : Writer) (vs : List α) :
    (encodeElements f w vs).written = w.written ++ elementsBytes g vs := by
  rw [encodeElements, Writer.visitSeq, Writer.written_foldl h, Writer.written_writeLength,
    List.append_assoc, elementsBytes]

theorem written_encodeEntries {α β : Type} {fk : Writer → α → Writer} {fv : Writer → β → Writer}
    {gk : α → Bytes} {gv : β → Bytes} (hk : ∀ w a, (fk w a).written = w.written ++ gk a)
    (hv : ∀ w b, (fv w b).written = w.written ++ gv b) (w : Writer) (es : List (α × β)) :
    (encodeEntries fk fv w es).written = w.written ++ entriesBytes gk gv es := by
  have hentry : ∀ (w : Writer) (e : α × β),
      (fv (fk w e.1) e.2).written = w.written ++ (gk e.1 ++ gv e.2) := by
    intro w e
    rw [hv, hk, List.append_assoc]
  rw [encodeEntries, Writer.visitMap, Writer.written_foldl hentry, Writer.written_writeLength,
    List.append_assoc, entriesBytes]

theorem Underlying.written_encode (u : Underlying) (w : Writer) (v : u.Val) :
    (u.encode w v).written = w.written ++ u.layout v := by
  cases u <;> exact w.written_writeLe _ _

mutual

/-- Encoding a value appends its bytes. -/
theorem written_encode (it : Iteration) : (t : Ty) → (w : Writer) → (v : t.Val) →
    (encode it t w v).written = w.written ++ t.layout it v
  | .boolean, w, _ => w.written_writeU8 _
  | .int _, w, _ => w.written_writeLe _ _
  | .uint _, w, _ => w.written_writeLe _ _
  | .character, w, _ => w.written_writeU8 _
  | .string, w, _ => w.written_writeBlob _
  | .bytes, w, _ => w.written_writeBlob _
  | .null, w, _ => w.written_writeU8 _
  | .monostate, _, _ => (List.append_nil _).symm
  | .optional t, _, some v => Writer.written_visitSome fun w => written_encode it t w v
  | .optional _, w, none => w.written_writeU8 _
  | .enumeration u, w, v => u.written_encode w v
  | .array t, w, vs => written_encodeElements (written_encode it t) w vs
  | .set t, w, s => written_encodeElements (written_encode it t) w (it.elements t s)
  | .tuple ts, w, vs => written_encodeTuple it ts w vs
  | .map k v, w, m =>
    written_encodeEntries (written_encode it k) (written_encode it v) w (it.entries k v m)
  | .struct fs, w, vs => written_encodeStructFields it fs w vs
  | .variant ts, _, a =>
    Writer.written_visitVariant fun w => written_encodeAlternative it ts w a

theorem written_encodeTuple (it : Iteration) : (ts : Tys) → (w : Writer) → (vs : ts.Vals) →
    (encodeTuple it ts w vs).written = w.written ++ ts.layoutAll it vs
  | .nil, _, _ => (List.append_nil _).symm
  | .cons t ts, w, (v, vs) => by
    rw [encodeTuple, written_encodeTuple it ts, written_encode it t, List.append_assoc]
    rfl

theorem written_encodeAlternative (it : Iteration) : (ts : Tys) → (w : Writer) →
    (a : ts.Alt) → (encodeAlternative it ts w a).written = w.written ++ ts.layoutAlt it a
  | .cons t _, w, .inl v => written_encode it t w v
  | .cons _ ts, w, .inr a => written_encodeAlternative it ts w a

theorem written_encodeStructFields (it : Iteration) : (fs : Fields) → (w : Writer) →
    (vs : fs.Vals) → (encodeStructFields it fs w vs).written = w.written ++ fs.layoutAll it vs
  | .nil, _, _ => (List.append_nil _).symm
  | .cons _ t fs, w, (v, vs) => by
    rw [encodeStructFields, written_encodeStructFields it fs, written_encode it t,
      List.append_assoc]
    rfl

end

/-- The buffer cut back to what is written. -/
theorem Writer.resize_size (w : Writer) : resize w.buf w.size = w.written := by
  rw [resize, Nat.sub_eq_zero_of_le w.size_le, List.replicate_zero, List.append_nil]
  rfl

/-- The bytes of a document are those of its value. -/
theorem toBytes_eq (it : Iteration) (t : Ty) (v : t.Val) : toBytes it t v = t.layout it v := by
  have hwritten := written_encode it t Writer.new v
  exact (encode it t Writer.new v).resize_size.trans hwritten

end Kotatsu.Codec.Bincode
