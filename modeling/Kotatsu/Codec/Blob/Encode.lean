import Kotatsu.Codec.Blob.Checker
import Kotatsu.Core.Overwrite

/-!
# Writing and copying out

The values of a view type, in their writer form: a scalar other than a bool is its
bits, a sequence is as long as a container of its elements can be. `to_bytes` lays a
value out at the end of a buffer that grows zeroed, and `from_bytes` copies the value
of accepted bytes out of them.
-/

namespace Kotatsu.Codec.Blob

open Kotatsu.Core

/-! ## Values -/

/-- The values of an arithmetic type: a bool, or the bits of a number. -/
def Arithmetic.Val : Arithmetic → Type
  | .bool => Bool
  | .char => BitVec 8
  | .signed w => BitVec (8 * bytesOf w)
  | .unsigned w => BitVec (8 * bytesOf w)
  | .float => BitVec 32
  | .double => BitVec 64

/-- The bytes of a scalar in memory. -/
def Arithmetic.image : (a : Arithmetic) → a.Val → Bytes
  | .bool, v => [bif v then 1 else 0]
  | .char, v => leBytes 1 (BitVec.toNat (w := 8) v)
  | .signed w, v => leBytes (bytesOf w) (BitVec.toNat (w := 8 * bytesOf w) v)
  | .unsigned w, v => leBytes (bytesOf w) (BitVec.toNat (w := 8 * bytesOf w) v)
  | .float, v => leBytes 4 (BitVec.toNat (w := 32) v)
  | .double, v => leBytes 8 (BitVec.toNat (w := 64) v)

/-- The scalar whose bytes in memory these are. -/
def Arithmetic.load : (a : Arithmetic) → Bytes → a.Val
  | .bool, bs => bs != [0]
  | .char, bs => BitVec.ofNat 8 (leValue bs)
  | .signed w, bs => BitVec.ofNat (8 * bytesOf w) (leValue bs)
  | .unsigned w, bs => BitVec.ofNat (8 * bytesOf w) (leValue bs)
  | .float, bs => BitVec.ofNat 32 (leValue bs)
  | .double, bs => BitVec.ofNat 64 (leValue bs)

mutual

/-- The values of a type. A container holds no more elements than `max_size`, and those of its
writer form are no smaller than those of the view. -/
def Ty.Val : Ty → Type
  | .scalar s => s.arithmeticT.Val
  | .vec e => { l : List e.Val // l.length * e.size < 2 ^ 63 }
  | .record _ _ fs => fs.Vals

/-- One value for each field. -/
def Fields.Vals : Fields → Type
  | .nil => Unit
  | .cons _ _ t fs => t.Val × fs.Vals

end

mutual

/-- The bytes of a packed value in memory. -/
def Ty.object : (t : Ty) → t.Val → Bytes
  | .scalar s, v => s.arithmeticT.image v
  | .vec _, _ => []
  | .record _ _ fs, vs => fs.objects vs

/-- Those of its fields. -/
def Fields.objects : (fs : Fields) → fs.Vals → Bytes
  | .nil, _ => []
  | .cons _ _ t fs, (v, vs) => t.object v ++ fs.objects vs

end

/-! ## The writer -/

/-- `Writer`. -/
structure Writer where
  bytes : Bytes
  oversized : Bool

/-- A step of the writer. -/
abbrev Write (α : Type) := StateT Writer (Except Stop) α

namespace Writer

/-- `Writer::append`. -/
def append (size align : Nat) : Write (Option Nat) := do
  let w ← get
  let at' ← alignUp .machine w.bytes.length align
  let past ← Arithmetic64.machine.add at' size
  if past > 2 ^ 32 - 1 then
    set { w with oversized := true }
    pure none
  else
    set { w with bytes := growTo w.bytes past }
    pure (some at')

/-- `Writer::write`, a copy that must fit the bytes. -/
def write (at' : Nat) (data : Bytes) : Write Unit := fun w =>
  if at' + data.length ≤ w.bytes.length then
    .ok ((), { w with bytes := overwrite w.bytes at' data })
  else .error .outside

/-- A loop that stores one element behind the other from `at'` on. -/
def storeEach {α : Type} (store : Nat → α → Write Unit) (step : Nat) : Nat → List α → Write Unit
  | _, [] => pure ()
  | at', v :: vs => do
    store at' v
    let next ← Arithmetic64.machine.add at' step
    storeEach store step next vs

end Writer

/-- Whether a container of the elements is copied in one piece: a packed element that is its own
view, but for the bools that `std::vector<bool>` does not hold. -/
def Ty.isBulk (e : Ty) : Bool :=
  e.isPacked && e.isOwnView && match e with
    | .scalar (.arithmetic .bool) => false
    | _ => true

mutual

/-- `Writer::store`. -/
def Ty.store : (t : Ty) → Nat → t.Val → Write Unit
  | .scalar s, at', v => Writer.write at' (s.arithmeticT.image v)
  | .record _ _ fs, at', vs => fs.store 0 at' vs
  | .vec e, at', ⟨l, _⟩ =>
    if l.length = 0 then pure ()
    else do
      let extent ← Arithmetic64.machine.mul l.length e.size
      match ← Writer.append extent (partAlignment e) with
      | none => pure ()
      | some data =>
        let offset ← Arithmetic64.machine.sub data at'
        Writer.write at' (leBytes 4 offset ++ leBytes 4 l.length)
        if e.isBulk then Writer.write data (l.flatMap e.object)
        else Writer.storeEach (fun next v => e.store next v) e.size data l

/-- The store of the fields of the record at `at'`, of which `pos` bytes precede them. -/
def Fields.store : (fs : Fields) → (pos at' : Nat) → fs.Vals → Write Unit
  | .nil, _, _, _ => pure ()
  | .cons _ a t fs, pos, at', (v, vs) => do
    let field ← Arithmetic64.machine.add at' (fieldOffset pos a t)
    t.store field v
    fs.store (fieldOffset pos a t + t.size) at' vs

end

/-- The header of a blob of `root`. -/
def header (root : Record) : Bytes := leBytes 4 magic ++ leBytes 4 root.ty.fingerprintV.toNat

/-- `to_bytes`. -/
def toBytes (root : Record) (value : root.ty.Val) : Except Stop Bytes := do
  let written : Write Unit := do
    let _ ← Writer.append (8 + root.ty.size) 8
    Writer.write 0 (header root)
    root.ty.store 8 value
  let ((), w) ← written ⟨[], false⟩
  if w.oversized then .error (.refused { message := ascii "a blob holds less than 4 GiB" })
  else .ok w.bytes

/-! ## Copying out -/

section Decode

variable (bytes : Bytes)

/-- A read of `count` bytes. -/
def readAt (at' count : Nat) : Except Stop Bytes :=
  if at' + count ≤ bytes.length then .ok (substr bytes at' count) else .error .outside

/-- A loop that reads `count` elements one behind the other. -/
def readEach {α : Type} (read : Nat → Except Stop α) (step : Nat) :
    (at' count : Nat) → Except Stop (List α)
  | _, 0 => .ok []
  | at', count + 1 => do
    let v ← read at'
    let vs ← readEach read step (at' + step) count
    .ok (v :: vs)

mutual

/-- `decode`. A copy of a view that is its own writer form is a copy of each of its scalars. -/
def Ty.decode : (t : Ty) → Nat → Except Stop t.Val
  | .scalar s, at' => do
    let image ← readAt bytes at' (bytesOf s.width)
    .ok (s.arithmeticT.load image)
  | .record _ _ fs, at' => fs.decode 0 at'
  | .vec e, at' => do
    let _ ← readAt bytes at' 8
    let l ← readEach e.decode e.size (Vec.first bytes at') (Vec.size bytes at')
    if h : l.length * e.size < 2 ^ 63 then .ok ⟨l, h⟩ else .error .lengthError

/-- The values of the fields of the record at `at'`. -/
def Fields.decode : (fs : Fields) → (pos at' : Nat) → Except Stop fs.Vals
  | .nil, _, _ => .ok ()
  | .cons _ a t fs, pos, at' => do
    let v ← t.decode (at' + fieldOffset pos a t)
    let vs ← fs.decode (fieldOffset pos a t + t.size) at'
    .ok (v, vs)

end

/-- `from_bytes`. -/
def fromBytes (root : Record) (base : Nat) : Except Stop root.ty.Val := do
  let at' ← view .machine bytes root base
  root.ty.decode bytes at'

end Decode

end Kotatsu.Codec.Blob
