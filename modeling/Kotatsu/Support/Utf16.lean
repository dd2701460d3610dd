import Kotatsu.Core.Room
import Kotatsu.Support.WellFormed

/-!
# UTF-16

What `from_utf16` spells: UTF-8, with each lone surrogate in three bytes. `to_utf16`
reads it back. Both write into room that is reserved for the longest result.
-/

namespace Kotatsu.Support

open Kotatsu.Core

/-- A unit that begins a pair. -/
def isHighSurrogate (unit : UInt16) : Bool := 0xD800 ≤ unit.toNat && unit.toNat ≤ 0xDBFF

/-- A unit that ends one. -/
def isLowSurrogate (unit : UInt16) : Bool := 0xDC00 ≤ unit.toNat && unit.toNat ≤ 0xDFFF

/-- The code point of a pair. -/
def pairCodePoint (unit next : UInt16) : Nat :=
  0x10000 + ((unit.toNat - 0xD800) <<< 10) + (next.toNat - 0xDC00)

/-- What `from_utf16` puts for a code point. -/
def putCodePoint (codePoint : Nat) : Bytes :=
  if codePoint < 0x80 then [UInt8.ofNat codePoint]
  else if codePoint < 0x800 then
    [UInt8.ofNat (0xC0 ||| (codePoint >>> 6)), UInt8.ofNat (0x80 ||| (codePoint &&& 0x3F))]
  else if codePoint < 0x10000 then
    [UInt8.ofNat (0xE0 ||| (codePoint >>> 12)),
      UInt8.ofNat (0x80 ||| ((codePoint >>> 6) &&& 0x3F)),
      UInt8.ofNat (0x80 ||| (codePoint &&& 0x3F))]
  else
    [UInt8.ofNat (0xF0 ||| (codePoint >>> 18)),
      UInt8.ofNat (0x80 ||| ((codePoint >>> 12) &&& 0x3F)),
      UInt8.ofNat (0x80 ||| ((codePoint >>> 6) &&& 0x3F)),
      UInt8.ofNat (0x80 ||| (codePoint &&& 0x3F))]

/-- `from_utf16`. -/
def fromUtf16 : List UInt16 → Bytes
  | [] => []
  | [unit] => putCodePoint unit.toNat
  | unit :: next :: text =>
    if isHighSurrogate unit && isLowSurrogate next then
      putCodePoint (pairCodePoint unit next) ++ fromUtf16 text
    else putCodePoint unit.toNat ++ fromUtf16 (next :: text)

/-- The loop of `from_utf16`, into the room it reserves. -/
def fromUtf16Into (out : Room UInt8) : List UInt16 → Option (Room UInt8)
  | [] => some out
  | [unit] => out.putAll (putCodePoint unit.toNat)
  | unit :: next :: text =>
    if isHighSurrogate unit && isLowSurrogate next then
      (out.putAll (putCodePoint (pairCodePoint unit next))).bind fun out => fromUtf16Into out text
    else (out.putAll (putCodePoint unit.toNat)).bind fun out => fromUtf16Into out (next :: text)

/-- `from_utf16`, with three bytes reserved for a unit. -/
def writeUtf16 (text : List UInt16) : Option Bytes :=
  (fromUtf16Into { size := text.length * 3 } text).map Room.written

/-- The units of a code point. -/
def codeUnits (codePoint : Nat) : List UInt16 :=
  if codePoint < 0x10000 then [UInt16.ofNat codePoint]
  else
    [UInt16.ofNat (0xD800 + ((codePoint - 0x10000) >>> 10)),
      UInt16.ofNat (0xDC00 + ((codePoint - 0x10000) &&& 0x3FF))]

/-- The two bytes that `to_utf16` takes for a low surrogate. -/
def beginsLow : Bytes → Bool
  | a :: b :: _ => a = 0xED && b &&& 0xF0 = 0xB0
  | _ => false

/-- The loop of `to_utf16`, into the room it reserves: the units, and whether there is no
error. -/
def toUtf16Into (out : Room UInt16) (text : Bytes) : Option (Room UInt16 × Bool) :=
  if _h : text = [] then some (out, true)
  else
    let sequence := decodeSequence text true
    if sequence.valid then
      let rest := text.drop sequence.length
      if 0xD800 ≤ sequence.codePoint && sequence.codePoint ≤ 0xDBFF && beginsLow rest then
        some (out, false)
      else (out.putAll (codeUnits sequence.codePoint)).bind fun out => toUtf16Into out rest
    else some (out, false)
termination_by text.length
decreasing_by
  have := decodeSequence_length true _h
  rw [List.length_drop]
  change text.length - (decodeSequence text true).length < text.length
  omega

/-- `to_utf16`, with a unit reserved for a byte. -/
def toUtf16 (text : Bytes) : Option (List UInt16 × Bool) :=
  (toUtf16Into { size := text.length } text).map fun result => (result.1.written, result.2)

end Kotatsu.Support
