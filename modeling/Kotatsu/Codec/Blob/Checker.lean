import Kotatsu.Codec.Blob.Type

/-!
# Checking a blob

The checker walks a view type over the bytes with a cursor where the next part
begins. Its sums and products are those of an `Arithmetic64`, the machine's, which
wraps, or one that stops where the machine's would wrap; a read outside the bytes
stops it too. Once it has accepted, everything is read with no check at all, by the
offset and the length each `Vec` holds.
-/

namespace Kotatsu.Codec.Blob

open Kotatsu.Core
open Kotatsu.Codec.Bincode (RichError PathSegment)

/-! ## Steps -/

/-- What ends a walk of a blob: the error it reports, a result of 64 bits that wraps, an access
outside the bytes, or a sequence longer than a container can be. -/
inductive Stop where
  | refused (e : RichError)
  | wraps
  | outside
  | lengthError
deriving DecidableEq, Repr

/-- A step of the checker, from its cursor to the next. -/
abbrev Check (α : Type) := StateT Nat (Except Stop) α

/-- A step that ends the check. -/
def Check.stop {α : Type} (s : Stop) : Check α := fun _ => .error s

/-- `Checker::fail`. -/
def fail {α : Type} (message : Bytes) : Check α := Check.stop (.refused { message := message })

/-- Prepends where a failed step was to the error's path. -/
def prepend {α : Type} (at' : PathSegment) (step : Check α) : Check α := fun cursor =>
  match step cursor with
  | .error (.refused e) => .error (.refused { e with path := at' :: e.path })
  | r => r

/-- How sums, differences and products of 64-bit numbers come out. -/
structure Arithmetic64 where
  add : Nat → Nat → Except Stop Nat
  sub : Nat → Nat → Except Stop Nat
  mul : Nat → Nat → Except Stop Nat

/-- The machine's, modulo 2^64. -/
def Arithmetic64.machine : Arithmetic64 where
  add a b := .ok ((a + b) % 2 ^ 64)
  sub a b := .ok ((a + 2 ^ 64 - b) % 2 ^ 64)
  mul a b := .ok (a * b % 2 ^ 64)

/-- One that stops where the machine's would wrap. -/
def Arithmetic64.exact : Arithmetic64 where
  add a b := if a + b < 2 ^ 64 then .ok (a + b) else .error .wraps
  sub a b := if b ≤ a then .ok (a - b) else .error .wraps
  mul a b := if a * b < 2 ^ 64 then .ok (a * b) else .error .wraps

/-- `align_up`. -/
def alignUp (ar : Arithmetic64) (at' align : Nat) : Except Stop Nat := do
  let past ← ar.add at' align
  let last ← ar.sub past 1
  ar.mul (last / align) align

/-! ## Reading a `Vec` -/

/-- The offset of the `Vec` at a position. -/
def Vec.offset (bytes : Bytes) (at' : Nat) : Nat := leValue (substr bytes at' 4)

/-- `Vec::size`. -/
def Vec.size (bytes : Bytes) (at' : Nat) : Nat := leValue (substr bytes (at' + 4) 4)

/-- `Vec::first`, as a position in the bytes. -/
def Vec.first (bytes : Bytes) (at' : Nat) : Nat := at' + Vec.offset bytes at'

/-- `Vec::data`, null when empty. -/
def Vec.data (bytes : Bytes) (at' : Nat) : Option Nat :=
  if Vec.size bytes at' = 0 then none else some (Vec.first bytes at')

/-- `Vec::operator[]`. -/
def Vec.index (bytes : Bytes) (element : Ty) (at' i : Nat) : Nat :=
  Vec.first bytes at' + i * element.size

/-- `Vec::begin`. -/
def Vec.begin (bytes : Bytes) (at' : Nat) : Option Nat := Vec.data bytes at'

/-- `Vec::end`. -/
def Vec.finish (bytes : Bytes) (element : Ty) (at' : Nat) : Option Nat :=
  (Vec.data bytes at').map (· + Vec.size bytes at' * element.size)

/-! ## The checker -/

section Checker

variable (ar : Arithmetic64) (bytes : Bytes)

/-- `bytes[at]`. -/
def byteAt (at' : Nat) : Check UInt8 :=
  match bytes[at']? with
  | some b => pure b
  | none => Check.stop .outside

/-- The offset and the length that are copied out of the bytes. -/
def pairAt (at' : Nat) : Check (Nat × Nat) :=
  if at' + 8 ≤ bytes.length then pure (Vec.offset bytes at', Vec.size bytes at')
  else Check.stop .outside

/-- A part that is where the writer puts it. -/
structure Placed where
  at' : Nat
  length : Nat

/-- `Checker::place`. -/
def place (at' element align : Nat) : Check Placed := do
  let (offset, length) ← pairAt bytes at'
  if length = 0 then
    if offset ≠ 0 then fail (ascii "an empty part has an offset") else pure ⟨0, 0⟩
  else
    let cursor ← get
    let expected ← alignUp ar cursor align
    let pointed ← ar.add at' offset
    if pointed ≠ expected then fail (ascii "a part is not where the layout puts it")
    else
      let extent ← ar.mul length element
      let past ← ar.add expected extent
      if past > bytes.length then fail (ascii "a part runs past the end of the bytes")
      else
        set past
        pure ⟨expected, length⟩

/-- A loop over `count` indices from `i` on, which stops where the body does. -/
def eachIndex (body : Nat → Check Unit) : (i count : Nat) → Check Unit
  | _, 0 => pure ()
  | i, count + 1 => do
    body i
    eachIndex body (i + 1) count

mutual

/-- `Checker::check`. -/
def Ty.check : Ty → Nat → Check Unit
  | .scalar s, at' =>
    if s.arithmeticT = .bool then do
      let b ← byteAt bytes at'
      if b > 1 then fail (ascii "a bool is neither 0 nor 1") else pure ()
    else pure ()
  | .record _ _ fs, at' => if fs.needsCheck then fs.check 0 at' else pure ()
  | .vec e, at' => do
    let placed ← place ar bytes at' e.size (partAlignment e)
    if e.needsCheck then
      eachIndex (fun i => prepend (.index i) do
        let skipped ← ar.mul i e.size
        let next ← ar.add placed.at' skipped
        e.check next) 0 placed.length
    else pure ()

/-- The check of the fields of a record at `at'`, of which `pos` bytes precede them. -/
def Fields.check : Fields → Nat → Nat → Check Unit
  | .nil, _, _ => pure ()
  | .cons name a t fs, pos, at' => do
    prepend (.field name) do
      let field ← ar.add at' (fieldOffset pos a t)
      t.check field
    fs.check (fieldOffset pos a t + t.size) at'

end

/-- The magic number of a blob. -/
def magic : Nat := 0x424F4C42

/-- `view`, of bytes that start at the address `base`: where the root is. -/
def view (root : Record) (base : Nat) : Except Stop Nat := do
  let refuse (message : Bytes) : Except Stop Nat := .error (.refused { message := message })
  if base % 8 ≠ 0 then refuse (ascii "the bytes do not start at an 8-byte boundary")
  else if bytes.length < 8 + root.ty.size ∨ bytes.length > 2 ^ 32 - 1 then
    refuse (ascii "the bytes cannot hold a blob of this type")
  else if leValue (substr bytes 0 4) ≠ magic then refuse (ascii "not a blob")
  else if leValue (substr bytes 4 4) ≠ root.ty.fingerprintV.toNat then
    refuse (ascii "a blob of another layout")
  else
    let (_, cursor) ← root.ty.check ar bytes 8 (8 + root.ty.size)
    if cursor ≠ bytes.length then refuse (ascii "bytes past the blob's last part")
    else .ok 8

end Checker

end Kotatsu.Codec.Blob
