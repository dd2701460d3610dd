import Kotatsu.Support.Swar

/-!
# The content of a JSON string

What a string holds as it is and what it holds escaped, a byte at a time and as the
mask of a word.
-/

namespace Kotatsu.Codec.Json

open Kotatsu.Core Kotatsu.Support

/-- `is_control`. -/
def isControl (c : UInt8) : Bool := c.toNat < 0x20

/-- A quote, a backslash or a control character. -/
def isEscaped (c : UInt8) : Bool := isControl c || (c = 0x22 || c = 0x5C)

/-- `escaped_bytes`. -/
def escapedBytes (word : UInt64) : UInt64 :=
  bytesBelow word 0x20 ||| bytesEqual word 0x22 ||| bytesEqual word 0x5C

/-- The mask of a word is exact up to the first byte that is escaped. -/
theorem escapedBytes_shows {bs : Bytes} (h : bs.length = 8) :
    Shows isEscaped bs (escapedBytes (UInt64.ofNat (leValue bs))).toNat := by
  have hbelow := bytesBelow_shows h (n := 0x20) (by decide)
  have hor := (hbelow.or (bytesEqual_shows h 0x22)).or (bytesEqual_shows h 0x5C)
  rw [escapedBytes, UInt64.toNat_or, UInt64.toNat_or]
  have heq : isEscaped = fun b : UInt8 => decide (b.toNat < (0x20 : UInt8).toNat) ||
      decide (b = 0x22) || decide (b = 0x5C) := by
    funext b
    rw [Bool.or_assoc]
    rfl
  rw [heq]
  exact hor

end Kotatsu.Codec.Json
