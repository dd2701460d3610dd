import Kotatsu.Codec.Json.Encode
import Kotatsu.Core.Overwrite

/-!
# The builder of a JSON text

The text is written into a buffer that grows fourfold. Every append makes room for what
it writes first, so no write passes the capacity, and what was written before stays in
front of it. A string takes one of two paths, which write the same text.
-/

namespace Kotatsu.Codec.Json

open Relation
open Kotatsu.Core Kotatsu.Core.Json

/-! ## Writes -/

/-- `escaped_size`. -/
def escapedSize (text : Bytes) : Nat :=
  text.foldl (fun size c => size + if shortEscape c ≠ 0 then 2 else if isControl c then 6 else 1) 0

/-- Bytes put one after another, and where they end. -/
def putBytes (buffer : Bytes) (at' : Nat) : Bytes → Option (Bytes × Nat)
  | [] => some (buffer, at')
  | b :: bs => (writeAt buffer at' [b]).bind fun buffer => putBytes buffer (at' + 1) bs

/-- `escape_to`, into a buffer. -/
def escapeInto (buffer : Bytes) (at' : Nat) : Bytes → Option (Bytes × Nat)
  | [] => some (buffer, at')
  | c :: text => (putBytes buffer at' (escapeByte c)).bind fun (buffer, at') =>
    escapeInto buffer at' text

/-- `copy_bytes`. -/
def copyBytes (buffer : Bytes) (at' : Nat) (source : Bytes) : Option Bytes :=
  let size := source.length
  if size > 16 then writeAt buffer at' source
  else if size ≥ 8 then
    (writeAt buffer at' (source.take 8)).bind fun buffer =>
      writeAt buffer (at' + size - 8) (source.drop (size - 8))
  else if size ≥ 4 then
    (writeAt buffer at' (source.take 4)).bind fun buffer =>
      writeAt buffer (at' + size - 4) (source.drop (size - 4))
  else if size > 0 then
    (writeAt buffer at' [source.getD 0 0]).bind fun buffer =>
      (writeAt buffer (at' + size / 2) [source.getD (size / 2) 0]).bind fun buffer =>
        writeAt buffer (at' + size - 1) [source.getD (size - 1) 0]
  else some buffer

/-- `copy_bytes`, and where the copy ends. -/
def copyInto (buffer : Bytes) (at' : Nat) (source : Bytes) : Option (Bytes × Nat) :=
  (copyBytes buffer at' source).map fun buffer => (buffer, at' + source.length)

/-! ## The builder -/

/-- `StringBuilder`. -/
structure StringBuilder where
  buffer : Bytes
  size : Nat := 0
  capacity : Nat

namespace StringBuilder

/-- A builder with a buffer of the initial capacity, whatever is in it. -/
def create (buffer : Bytes) : StringBuilder where
  buffer := buffer
  capacity := buffer.length

/-- `grow`. -/
def grow (b : StringBuilder) (n : Nat) : StringBuilder :=
  let grown := max (b.capacity * 4) (b.size + n)
  { b with
    buffer := overwrite (List.replicate grown 0) 0 (b.buffer.take b.size)
    capacity := grown }

/-- `room`. -/
def room (b : StringBuilder) (n : Nat) : StringBuilder :=
  if b.capacity - b.size < n then b.grow n else b

/-- The text that ends at the position a write reached. -/
def endAt (b : StringBuilder) (written : Bytes × Nat) : StringBuilder :=
  { b with buffer := written.1, size := written.2 }

/-- `append_raw`. -/
def appendRaw (b : StringBuilder) (raw : Bytes) : Option StringBuilder :=
  let b := b.room raw.length
  (copyBytes b.buffer b.size raw).map fun buffer => b.endAt (buffer, b.size + raw.length)

/-- `append_raw` of a size known at compile time. -/
def appendFixed (b : StringBuilder) (raw : Bytes) : Option StringBuilder :=
  let b := b.room raw.length
  (writeAt b.buffer b.size raw).map fun buffer => b.endAt (buffer, b.size + raw.length)

/-- `append_number`, of a number whose text takes no more than `longest` bytes. -/
def appendNumber (b : StringBuilder) (longest : Nat) (text : Bytes) : Option StringBuilder :=
  let b := b.room longest
  (writeAt b.buffer b.size text).map fun buffer => b.endAt (buffer, b.size + text.length)

/-- `append_string`. -/
def appendStr (b : StringBuilder) (value : Bytes) : Option StringBuilder :=
  if needsEscape value then
    let b := b.room (escapedSize value + 2)
    (putBytes b.buffer b.size [0x22]).bind fun (buffer, at') =>
      (escapeInto buffer at' value).bind fun (buffer, at') =>
        (putBytes buffer at' [0x22]).map b.endAt
  else
    let b := b.room (value.length + 2)
    (putBytes b.buffer b.size [0x22]).bind fun (buffer, at') =>
      (copyInto buffer at' value).bind fun (buffer, at') =>
        (putBytes buffer at' [0x22]).map b.endAt

/-- `take`. -/
def take (b : StringBuilder) : Bytes := b.buffer.take b.size

end StringBuilder

/-- What is appended; a double is one of `δ`. -/
inductive Append (δ : Type) where
  | put (c : UInt8)
  | raw (text : Bytes)
  | fixed (text : Bytes)
  | null
  | bool (value : Bool)
  | signed (value : Int64)
  | unsigned (value : UInt64)
  | double (value : δ)
  | string (value : Bytes)

section

variable {δ : Type} (formatDouble : δ → Bytes)

/-- The text of an append. -/
def Append.text : Append δ → Bytes
  | .put c => [c]
  | .raw text | .fixed text => text
  | .null => ascii "null"
  | .bool value => if value then ascii "true" else ascii "false"
  | .signed value => integer value.toInt
  | .unsigned value => decimal value.toNat
  | .double value => formatDouble value
  | .string value => appendString value

/-- An append to a builder; none where a write would pass the capacity. -/
def StringBuilder.append (b : StringBuilder) : Append δ → Option StringBuilder
  | .put c => b.appendFixed [c]
  | .raw text => b.appendRaw text
  | .fixed text => b.appendFixed text
  | .null => b.appendFixed (ascii "null")
  | .bool value => b.appendFixed (if value then ascii "true" else ascii "false")
  | .signed value => b.appendNumber 20 (integer value.toInt)
  | .unsigned value => b.appendNumber 20 (decimal value.toNat)
  | .double value => b.appendNumber 24 (formatDouble value)
  | .string value => b.appendStr value

/-- Appends one after another. -/
def StringBuilder.appendAll (b : StringBuilder) : List (Append δ) → Option StringBuilder
  | [] => some b
  | a :: appends => (b.append formatDouble a).bind fun b => b.appendAll appends

end

/-! ## Writes behind a text -/

variable {buffer text data : Bytes}

/-- Data is written behind a text that a buffer holds. -/
theorem exists_writeAt (h : text <+: buffer) (hlen : text.length + data.length ≤ buffer.length) :
    ∃ buffer', writeAt buffer text.length data = some buffer' ∧
      buffer'.length = buffer.length ∧ text ++ data <+: buffer' :=
  ⟨_, writeAt_of_le hlen, length_overwrite hlen, prefix_overwrite h hlen⟩

theorem exists_putBytes (h : text <+: buffer) (hlen : text.length + data.length ≤ buffer.length) :
    ∃ buffer', putBytes buffer text.length data = some (buffer', text.length + data.length) ∧
      buffer'.length = buffer.length ∧ text ++ data <+: buffer' := by
  induction data generalizing buffer text with
  | nil => exact ⟨buffer, rfl, rfl, by rwa [List.append_nil]⟩
  | cons b data ih =>
    rw [List.length_cons] at hlen
    obtain ⟨buffer₁, hwrite, hsame, hpre⟩ :=
      exists_writeAt h (show text.length + [b].length ≤ buffer.length by
        rw [List.length_singleton]; omega)
    have hnext : (text ++ [b]).length = text.length + 1 := by
      rw [List.length_append, List.length_singleton]
    obtain ⟨buffer₂, hput, hsame', hpre'⟩ := ih hpre (by rw [hnext]; omega)
    rw [hnext] at hput
    refine ⟨buffer₂, ?_, hsame'.trans hsame, ?_⟩
    · rw [putBytes, hwrite, Option.bind_some, hput, List.length_cons]
      congr 2
      omega
    · rwa [List.append_assoc, List.singleton_append] at hpre'

theorem bind_writeAt {at' : Nat} (h : at' + data.length ≤ buffer.length)
    (f : Bytes → Option Bytes) :
    (writeAt buffer at' data).bind f = f (overwrite buffer at' data) := by
  rw [writeAt_of_le h, Option.bind_some]

/-- Both ends of a source are copied. -/
theorem writeAt_ends {at' k : Nat} {source : Bytes} (h : at' + source.length ≤ buffer.length)
    (hk : k ≤ source.length) (hends : source.length ≤ k + k) :
    ((writeAt buffer at' (source.take k)).bind fun buffer =>
      writeAt buffer (at' + source.length - k) (source.drop (source.length - k))) =
        some (overwrite buffer at' source) := by
  have hfront : at' + (source.take k).length ≤ buffer.length := by
    rw [List.length_take]
    omega
  rw [bind_writeAt hfront, writeAt_of_le, overwrite_ends h hk hends]
  rw [length_overwrite hfront, List.length_drop]
  omega

/-- `copy_bytes` is a copy, whatever it copies twice. -/
theorem copyBytes_eq {at' : Nat} {source : Bytes} (h : at' + source.length ≤ buffer.length) :
    copyBytes buffer at' source = some (overwrite buffer at' source) := by
  have hlen {buffer : Bytes} {i : Nat} {b : UInt8} (hi : i < buffer.length) :
      (overwrite buffer i [b]).length = buffer.length := length_overwrite hi
  match source, h with
  | [], _ => exact congrArg some overwrite_nil.symm
  | [a], h =>
    have hcopy : copyBytes buffer at' [a] = (writeAt buffer at' [a]).bind fun buffer =>
        (writeAt buffer at' [a]).bind fun buffer => writeAt buffer at' [a] := by
      simp [copyBytes]
    have ha : at' < buffer.length := h
    have hagain : at' < (overwrite buffer at' [a]).length := by rwa [hlen ha]
    rw [hcopy, bind_writeAt ha, bind_writeAt hagain, overwrite_twice ha, writeAt_of_le hagain,
      overwrite_twice ha]
  | [a, b], h =>
    have hcopy : copyBytes buffer at' [a, b] = (writeAt buffer at' [a]).bind fun buffer =>
        (writeAt buffer (at' + 1) [b]).bind fun buffer => writeAt buffer (at' + 1) [b] := by
      simp [copyBytes]
    have hb : at' + 1 < buffer.length := h
    have ha : at' < buffer.length := Nat.lt_of_succ_lt hb
    have hnext : at' + 1 < (overwrite buffer at' [a]).length := by rwa [hlen ha]
    have hagain : at' + 1 < (overwrite (overwrite buffer at' [a]) (at' + 1) [b]).length := by
      rwa [hlen hnext]
    have hpair : overwrite (overwrite buffer at' [a]) (at' + 1) [b] = overwrite buffer at' [a, b] :=
      overwrite_append h
    rw [hcopy, bind_writeAt ha, bind_writeAt hnext, writeAt_of_le hagain, overwrite_twice hnext,
      hpair]
  | [a, b, c], h =>
    have hcopy : copyBytes buffer at' [a, b, c] = (writeAt buffer at' [a]).bind fun buffer =>
        (writeAt buffer (at' + 1) [b]).bind fun buffer => writeAt buffer (at' + 2) [c] := by
      simp [copyBytes]
    have hc : at' + 2 < buffer.length := h
    have hb : at' + 1 < buffer.length := Nat.lt_of_succ_lt hc
    have ha : at' < buffer.length := Nat.lt_of_succ_lt hb
    have hnext : at' + 1 < (overwrite buffer at' [a]).length := by rwa [hlen ha]
    have hlast : at' + 2 < (overwrite (overwrite buffer at' [a]) (at' + 1) [b]).length := by
      rwa [hlen hnext, hlen ha]
    have hpair : overwrite (overwrite buffer at' [a]) (at' + 1) [b] = overwrite buffer at' [a, b] :=
      overwrite_append hb
    have htriple : overwrite (overwrite buffer at' [a, b]) (at' + 2) [c] =
        overwrite buffer at' [a, b, c] := overwrite_append h
    rw [hcopy, bind_writeAt ha, bind_writeAt hnext, writeAt_of_le hlast, hpair, htriple]
  | a :: b :: c :: d :: source, h =>
    generalize hs : a :: b :: c :: d :: source = long at h ⊢
    have hfour : 4 ≤ long.length := by
      rw [← hs]
      exact Nat.le_add_left 4 source.length
    rw [copyBytes]
    split
    · exact writeAt_of_le h
    split
    · exact writeAt_ends h (by omega) (by omega)
    · exact writeAt_ends h hfour (by omega)

theorem exists_copyBytes (h : text <+: buffer)
    (hlen : text.length + data.length ≤ buffer.length) :
    ∃ buffer', copyBytes buffer text.length data = some buffer' ∧
      buffer'.length = buffer.length ∧ text ++ data <+: buffer' :=
  ⟨_, copyBytes_eq hlen, length_overwrite hlen, prefix_overwrite h hlen⟩

theorem length_escapeByte (c : UInt8) :
    (escapeByte c).length = if shortEscape c ≠ 0 then 2 else if isControl c then 6 else 1 := by
  rw [escapeByte]
  split
  · rfl
  · split <;> rfl

/-- `escaped_size` is the size of what `escape_to` writes. -/
theorem escapedSize_eq (text : Bytes) : escapedSize text = (escapeTo text).length := by
  have hfold (size : Nat) : text.foldl (fun size c => size +
      if shortEscape c ≠ 0 then 2 else if isControl c then 6 else 1) size =
        size + (escapeTo text).length := by
    induction text generalizing size with
    | nil => rfl
    | cons c text ih =>
      have hcons : escapeTo (c :: text) = escapeByte c ++ escapeTo text := List.flatMap_cons
      rw [List.foldl_cons, ih, hcons, List.length_append, length_escapeByte]
      exact Nat.add_assoc _ _ _
  rw [escapedSize, hfold, Nat.zero_add]

theorem exists_escapeInto {value : Bytes} (h : text <+: buffer)
    (hlen : text.length + escapedSize value ≤ buffer.length) :
    ∃ buffer', escapeInto buffer text.length value =
        some (buffer', text.length + escapedSize value) ∧
      buffer'.length = buffer.length ∧ text ++ escapeTo value <+: buffer' := by
  rw [escapedSize_eq] at hlen ⊢
  induction value generalizing buffer text with
  | nil => exact ⟨buffer, rfl, rfl, by rwa [escapeTo, List.flatMap_nil, List.append_nil]⟩
  | cons c value ih =>
    have hcons : escapeTo (c :: value) = escapeByte c ++ escapeTo value := List.flatMap_cons
    rw [hcons, List.length_append] at hlen ⊢
    obtain ⟨buffer₁, hput, hsame, hpre⟩ := exists_putBytes h
      (show text.length + (escapeByte c).length ≤ buffer.length by omega)
    have hnext : (text ++ escapeByte c).length = text.length + (escapeByte c).length :=
      List.length_append
    obtain ⟨buffer₂, hrest, hsame', hpre'⟩ := ih hpre (by rw [hnext]; omega)
    rw [hnext, Nat.add_assoc] at hrest
    refine ⟨buffer₂, ?_, hsame'.trans hsame, ?_⟩
    · rw [escapeInto, hput, Option.bind_some]
      exact hrest
    · rwa [List.append_assoc] at hpre'

/-! ## Appends -/

namespace StringBuilder

/-- The buffer is as large as the capacity, and the text in it. -/
structure Sound (b : StringBuilder) : Prop where
  capacity : b.buffer.length = b.capacity
  size : b.size ≤ b.capacity

variable {b : StringBuilder}

theorem Sound.length_take (h : b.Sound) : b.take.length = b.size := by
  rw [take, List.length_take, h.capacity]
  exact Nat.min_eq_left h.size

/-- A builder that holds a text at the start of its buffer. -/
theorem endAt_spec {buffer text : Bytes} {capacity : Nat} (hlen : buffer.length = capacity)
    (hpre : text <+: buffer) {b : StringBuilder} (hb : b.capacity = capacity) :
    (b.endAt (buffer, text.length)).Sound ∧ (b.endAt (buffer, text.length)).take = text := by
  refine ⟨⟨hlen.trans hb.symm, ?_⟩, (List.prefix_iff_eq_take.mp hpre).symm⟩
  change text.length ≤ b.capacity
  rw [hb, ← hlen]
  exact hpre.length_le

/-- After `room`, the text is as before and has room behind it. -/
theorem room_spec (h : b.Sound) (n : Nat) :
    (b.room n).Sound ∧ (b.room n).size = b.size ∧ b.take <+: (b.room n).buffer ∧
      b.take.length + n ≤ (b.room n).buffer.length := by
  have htake := h.length_take
  have hsize := h.size
  rw [room]
  split
  · have hzeros : (List.replicate (max (b.capacity * 4) (b.size + n)) (0 : UInt8)).length =
        max (b.capacity * 4) (b.size + n) := List.length_replicate
    have hfits : 0 + b.take.length ≤
        (List.replicate (max (b.capacity * 4) (b.size + n)) (0 : UInt8)).length := by
      rw [hzeros, htake]
      omega
    have hlen : (b.grow n).buffer.length = max (b.capacity * 4) (b.size + n) :=
      (length_overwrite hfits).trans hzeros
    refine ⟨⟨hlen, ?_⟩, rfl, prefix_overwrite List.nil_prefix hfits, ?_⟩
    · change b.size ≤ max (b.capacity * 4) (b.size + n)
      omega
    · rw [htake, hlen]
      omega
  · next hroom =>
    refine ⟨h, rfl, List.take_prefix _ _, ?_⟩
    rw [htake, h.capacity]
    omega

/-- What an append does that makes room and writes a text behind the one before. -/
def Appends (b : StringBuilder) (result : Option StringBuilder) (text : Bytes) : Prop :=
  ∃ b', result = some b' ∧ b'.Sound ∧ b'.take = b.take ++ text

/-- A write into the room that is made for it appends. -/
theorem appends_write (h : b.Sound) {write : Bytes → Nat → Bytes → Option Bytes} {n : Nat}
    {text : Bytes} (hn : text.length ≤ n)
    (hwrite : ∀ {buffer front : Bytes}, front <+: buffer →
      front.length + text.length ≤ buffer.length →
      ∃ buffer', write buffer front.length text = some buffer' ∧
        buffer'.length = buffer.length ∧ front ++ text <+: buffer') :
    Appends b ((write (b.room n).buffer (b.room n).size text).map fun buffer =>
      (b.room n).endAt (buffer, (b.room n).size + text.length)) text := by
  obtain ⟨hsound, hsize, hpre, hroom⟩ := room_spec h n
  obtain ⟨buffer, hbuffer, hlen, hpre'⟩ :=
    hwrite hpre ((Nat.add_le_add_left hn _).trans hroom)
  have hend := endAt_spec hlen hpre' hsound.capacity.symm
  rw [List.length_append, h.length_take] at hend
  rw [h.length_take] at hbuffer
  rw [hsize, hbuffer]
  exact ⟨_, rfl, hend.1, hend.2⟩

theorem appendFixed_spec (h : b.Sound) (raw : Bytes) : Appends b (b.appendFixed raw) raw :=
  appends_write h (Nat.le_refl _) exists_writeAt

theorem appendRaw_spec (h : b.Sound) (raw : Bytes) : Appends b (b.appendRaw raw) raw :=
  appends_write h (Nat.le_refl _) exists_copyBytes

theorem appendNumber_spec (h : b.Sound) {longest : Nat} {text : Bytes}
    (hlongest : text.length ≤ longest) : Appends b (b.appendNumber longest text) text :=
  appends_write h hlongest exists_writeAt

/-- A content between quotes is written into the room that is made for it. -/
theorem appends_quoted (content : Bytes → Nat → Option (Bytes × Nat)) {inner : Bytes}
    (h : b.Sound) {n : Nat} (hn : inner.length + 2 = n)
    (hcontent : ∀ {buffer front : Bytes}, front <+: buffer →
      front.length + inner.length ≤ buffer.length →
      ∃ buffer', content buffer front.length = some (buffer', front.length + inner.length) ∧
        buffer'.length = buffer.length ∧ front ++ inner <+: buffer') :
    Appends b ((putBytes (b.room n).buffer (b.room n).size [0x22]).bind fun (buffer, at') =>
      (content buffer at').bind fun (buffer, at') => (putBytes buffer at' [0x22]).map
        (b.room n).endAt) (0x22 :: (inner ++ [0x22])) := by
  obtain ⟨hsound, hsize, hpre, hroom⟩ := room_spec h n
  have hquote : [(0x22 : UInt8)].length = 1 := rfl
  have htake := h.length_take
  obtain ⟨buffer₁, hopen, hlen₁, hpre₁⟩ :=
    exists_putBytes hpre (show b.take.length + [(0x22 : UInt8)].length ≤ _ by omega)
  have hfront₁ : (b.take ++ [0x22]).length = b.size + 1 := by
    rw [List.length_append, htake, hquote]
  obtain ⟨buffer₂, hinner, hlen₂, hpre₂⟩ := hcontent hpre₁ (by omega)
  have hfront₂ : (b.take ++ [0x22] ++ inner).length = b.size + 1 + inner.length := by
    rw [List.length_append, hfront₁]
  obtain ⟨buffer₃, hclose, hlen₃, hpre₃⟩ :=
    exists_putBytes hpre₂
      (show (b.take ++ [0x22] ++ inner).length + [(0x22 : UInt8)].length ≤ _ by omega)
  have hend := endAt_spec (hlen₃.trans (hlen₂.trans hlen₁)) hpre₃ hsound.capacity.symm
  rw [htake, hquote] at hopen
  rw [hfront₁] at hinner
  rw [hfront₂, hquote] at hclose
  rw [List.length_append, hfront₂, hquote] at hend
  rw [hsize, hopen, Option.bind_some]
  dsimp only
  rw [hinner, Option.bind_some, hclose]
  refine ⟨_, rfl, hend.1, hend.2.trans ?_⟩
  simp only [List.append_assoc, List.nil_append, List.cons_append]

/-- A string appends its text on either path. -/
theorem appendStr_spec (h : b.Sound) (value : Bytes) :
    Appends b (b.appendStr value) (appendString value) := by
  rw [appendStr, appendString]
  split
  · have hn : (escapeTo value).length + 2 = escapedSize value + 2 := by rw [escapedSize_eq]
    refine appends_quoted (fun buffer at' => escapeInto buffer at' value) h hn
      fun hpre hlen => ?_
    rw [← escapedSize_eq] at hlen ⊢
    exact exists_escapeInto hpre hlen
  · refine appends_quoted (fun buffer at' => copyInto buffer at' value) h rfl fun hpre hlen => ?_
    obtain ⟨buffer', hwrite, hsame, hpre'⟩ := exists_copyBytes hpre hlen
    exact ⟨buffer', by rw [copyInto, hwrite]; rfl, hsame, hpre'⟩

end StringBuilder

/-! ## What a string stands for -/

/-- The code unit that four bytes spell as hexadecimal digits. -/
def unitOf (a b c d : UInt8) : Option Nat := codeUnit (charOf a) (charOf b) (charOf c) (charOf d)

/-- The bytes that what is between quotes stands for: a surrogate only does as half of a pair,
and a quote or a control character only does escaped. -/
def unescapeBytes : Bytes → Option Bytes
  | [] => some []
  | b :: rest =>
    if b = 0x22 ∨ isControl b then none
    else if b ≠ 0x5C then (unescapeBytes rest).map (b :: ·)
    else
      match rest with
      | [] => none
      | letter :: rest =>
        if letter ≠ 0x75 then
          (escapedChar (charOf letter)).bind fun c => (unescapeBytes rest).map (utf8 [c] ++ ·)
        else
          match rest with
          | a :: b :: c :: d :: rest =>
            (unitOf a b c d).bind fun u =>
              if u < 0xD800 ∨ 0xE000 ≤ u then
                (unescapeBytes rest).map (utf8 [Char.ofNat u] ++ ·)
              else
                match rest with
                | backslash :: letter :: a :: b :: c :: d :: rest =>
                  (unitOf a b c d).bind fun v =>
                    if backslash = 0x5C ∧ letter = 0x75 ∧ u < 0xDC00 ∧ 0xDC00 ≤ v ∧ v < 0xE000 then
                      (unescapeBytes rest).map (utf8 [Char.ofNat
                        (0x10000 + 0x400 * (u - 0xD800) + (v - 0xDC00))] ++ ·)
                    else none
                | _ => none
          | _ => none

/-- A byte is what it is written as stands for. -/
theorem unescapeBytes_escapeByte (c : UInt8) (rest : Bytes) :
    unescapeBytes (escapeByte c ++ rest) = (unescapeBytes rest).map (c :: ·) := by
  have hback : ¬((0x5C : UInt8) = 0x22 ∨ isControl 0x5C = true) := by decide
  obtain ⟨hc, hplain⟩ | ⟨l, hc, hlow, -, -, hletter⟩ | ⟨h, l, hc, hsmall, -, -, hunit⟩ :=
    escapeByte_cases c
  · obtain ⟨hge, hquote, hslash⟩ := hplain
    have hraw : ¬(c = 0x22 ∨ isControl c = true) := by
      rintro (rfl | hcontrol)
      · exact hquote rfl
      · exact absurd (of_decide_eq_true hcontrol) (Nat.not_lt_of_le hge)
    rw [hc, List.singleton_append, unescapeBytes.eq_def]
    dsimp only
    rw [if_neg hraw, if_pos]
    rintro rfl
    exact hslash rfl
  · have hu : l ≠ 0x75 := by
      rintro rfl
      have hnone : escapedChar (charOf 0x75) = none := by decide
      rw [hnone] at hletter
      cases hletter
    rw [hc, List.cons_append, List.singleton_append, unescapeBytes.eq_def]
    dsimp only
    rw [if_neg hback, if_neg (not_not.mpr rfl), if_pos hu, hletter, Option.bind_some,
      utf8_charOf hlow]
    rfl
  · have hword : unitOf 0x30 0x30 h l = some c.toNat := hunit
    have hchar : utf8 [Char.ofNat c.toNat] = [c] := utf8_charOf (by omega)
    rw [hc]
    simp only [List.cons_append, List.nil_append]
    rw [unescapeBytes.eq_def]
    dsimp only
    rw [if_neg hback, if_neg (not_not.mpr rfl), if_neg (not_not.mpr rfl), hword, Option.bind_some,
      if_pos (.inl (by omega)), hchar]
    rfl

theorem unescapeBytes_escapeTo (text : Bytes) : unescapeBytes (escapeTo text) = some text := by
  induction text with
  | nil => rw [escapeTo, List.flatMap_nil, unescapeBytes]
  | cons c text ih =>
    have hcons : escapeTo (c :: text) = escapeByte c ++ escapeTo text := List.flatMap_cons
    rw [hcons, unescapeBytes_escapeByte, ih, Option.map_some]

/-- No control character is written raw. -/
theorem isControl_escapeTo (text : Bytes) : ∀ b ∈ escapeTo text, isControl b = false := by
  have hall : ∀ n < 256, (escapeByte (UInt8.ofNat n)).all (fun b => !isControl b) = true := by
    decide +kernel
  intro b hb
  obtain ⟨c, -, hc⟩ := List.mem_flatMap.mp hb
  have h := hall c.toNat c.toNat_lt
  rw [UInt8.ofNat_toNat, List.all_eq_true] at h
  exact (Bool.not_eq_true' _).mp (h b hc)

/-! ## What is built -/

section

open StringBuilder

variable {δ : Type} {formatDouble : δ → Bytes}

theorem length_integer_le (value : Int64) : (integer value.toInt).length ≤ 20 := by
  have hlow := value.le_toInt
  have hhigh := value.toInt_lt
  have hdecimal : (decimal value.toInt.natAbs).length ≤ 19 :=
    length_decimal_le (by decide) (by omega)
  rw [integer]
  split
  · exact Nat.succ_le_succ hdecimal
  · exact Nat.le_succ_of_le hdecimal

theorem length_decimal_le_20 (value : UInt64) : (decimal value.toNat).length ≤ 20 := by
  have := value.toNat_lt
  exact length_decimal_le (by decide) (by omega)

/-- An append adds its text. -/
theorem append_spec (hdouble : ∀ value, (formatDouble value).length ≤ 24) {b : StringBuilder}
    (h : b.Sound) (a : Append δ) : Appends b (b.append formatDouble a) (a.text formatDouble) := by
  cases a with
  | put c => exact appendFixed_spec h [c]
  | raw text => exact appendRaw_spec h text
  | fixed text => exact appendFixed_spec h text
  | null => exact appendFixed_spec h _
  | bool value => exact appendFixed_spec h _
  | signed value => exact appendNumber_spec h (length_integer_le value)
  | unsigned value => exact appendNumber_spec h (length_decimal_le_20 value)
  | double value => exact appendNumber_spec h (hdouble value)
  | string value => exact appendStr_spec h value

theorem appendAll_spec (hdouble : ∀ value, (formatDouble value).length ≤ 24) {b : StringBuilder}
    (h : b.Sound) (appends : List (Append δ)) :
    Appends b (b.appendAll formatDouble appends) (appends.flatMap (Append.text formatDouble)) := by
  induction appends generalizing b with
  | nil => exact ⟨b, rfl, h, (List.append_nil _).symm⟩
  | cons a appends ih =>
    obtain ⟨b₁, happend, hsound, htake⟩ := append_spec hdouble h a
    obtain ⟨b₂, hrest, hsound', htake'⟩ := ih hsound
    refine ⟨b₂, ?_, hsound', ?_⟩
    · rw [appendAll, happend]
      exact hrest
    · rw [htake', htake, List.flatMap_cons, List.append_assoc]

/-- What is escaped, how much room it takes, and what a builder builds. -/
theorem builder_spec (formatDouble : δ → Bytes)
    (hdouble : ∀ value, (formatDouble value).length ≤ 24) :
    (∀ text : Bytes, needsEscape text = true ↔ ∃ b ∈ text, b = 0x22 ∨ b = 0x5C ∨ b < 0x20) ∧
    (∀ buffer front text : Bytes, front <+: buffer →
      front.length + escapedSize text ≤ buffer.length →
      ∃ buffer', escapeInto buffer front.length text =
          some (buffer', front.length + escapedSize text) ∧
        buffer'.length = buffer.length ∧ front ++ escapeTo text <+: buffer') ∧
    (∀ value : Bytes, ∃ body, (Append.string value).text formatDouble = 0x22 :: (body ++ [0x22]) ∧
      (needsEscape value = true → body = escapeTo value) ∧
      (needsEscape value = false → body = value ∧ escapeTo value = value) ∧
      Chars UInt8.toNat body [] ∧ (∀ b ∈ body, isControl b = false) ∧
      unescapeBytes body = some value) ∧
    ∀ (buffer : Bytes) (appends : List (Append δ)), ∃ b,
      (create buffer).appendAll formatDouble appends = some b ∧
      b.take = appends.flatMap (Append.text formatDouble) ∧
      ∀ a : Append δ, ∃ b', b.append formatDouble a = some b' ∧
        b'.take = b.take ++ a.text formatDouble := by
  refine ⟨fun text => ?_, fun buffer front text => exists_escapeInto, fun value => ?_,
    fun buffer appends => ?_⟩
  · rw [needsEscape_eq, List.any_eq_true]
    refine exists_congr fun b => and_congr_right fun _ => ?_
    rw [isEscaped, isControl, Bool.or_eq_true, Bool.or_eq_true, decide_eq_true_eq,
      decide_eq_true_eq, decide_eq_true_eq, UInt8.lt_iff_toNat_lt]
    exact or_comm.trans or_assoc
  · have hchars := escapeTo_chars value []
    rw [List.append_nil] at hchars
    refine ⟨escapeTo value, appendString_eq value, fun _ => rfl, fun hnone => ?_, hchars,
      isControl_escapeTo value, unescapeBytes_escapeTo value⟩
    have htext := appendString_eq value
    rw [appendString, if_neg (Bool.eq_false_iff.mp hnone), List.cons.injEq] at htext
    have hsame := List.append_cancel_right htext.2
    exact ⟨hsame.symm, hsame.symm⟩
  · have hsound : (create buffer).Sound := ⟨rfl, Nat.zero_le _⟩
    obtain ⟨b, hrun, hsound', htake⟩ := appendAll_spec hdouble hsound appends
    refine ⟨b, hrun, htake, fun a => ?_⟩
    obtain ⟨b', happend, -, htake'⟩ := append_spec hdouble hsound' a
    exact ⟨b', happend, htake'⟩

theorem builder_spec_zero :
    (∀ value : Unit, ((fun _ => ascii "0.0") value).length ≤ 24) ∧
      ∀ (buffer : Bytes) (appends : List (Append Unit)), ∃ b,
        (create buffer).appendAll (fun _ => ascii "0.0") appends = some b ∧
        b.take = appends.flatMap (Append.text fun _ => ascii "0.0") ∧
        ∀ a : Append Unit, ∃ b', b.append (fun _ => ascii "0.0") a = some b' ∧
          b'.take = b.take ++ a.text fun _ => ascii "0.0" :=
  have hshort : (ascii "0.0").length ≤ 24 := by decide
  ⟨fun _ => hshort, (builder_spec (fun _ => ascii "0.0") fun _ => hshort).2.2.2⟩

end

end Kotatsu.Codec.Json
