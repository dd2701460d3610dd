import Kotatsu.Codec.Bincode.RoundTrip

/-!
# Reading bytes nobody wrote

Whatever bytes it is given, the reader stays inside them, and what it accepts is
a spelling of the value it gives: the bytes of each integer, tag and string in
place, with the one freedom that a length may stand behind a wider marker than it
needs. `Ty.Spelt` states that for every type and any choice of markers. Where a
type has no map and no set, whose entries may repeat and come in any order, writing
the value again gives the bytes back with every length behind its narrowest marker.
`Ty.rooms` lists the room each container makes for its elements before it reads them.
-/

namespace Kotatsu.Codec.Bincode

open Kotatsu.Core

/-! ## Spellings -/

/-- The bytes of a length behind some marker that holds it. -/
def LengthSpelt (n : Nat) (bs : Bytes) : Prop :=
  (n < 251 ∧ bs = [UInt8.ofNat n]) ∨ (n < 2 ^ 16 ∧ bs = 251 :: leBytes 2 n) ∨
    (n < 2 ^ 32 ∧ bs = 252 :: leBytes 4 n) ∨ (n < 2 ^ 64 ∧ bs = 253 :: leBytes 8 n)

/-- The bytes of a length behind the narrowest marker that holds it. -/
def LengthMinimal (n : Nat) (bs : Bytes) : Prop := bs = lengthBytes n

section Spellings

variable (L : Nat → Bytes → Prop)

/-- A string or byte string: a length and as many bytes. -/
def BlobSpelt (v bs : Bytes) : Prop := ∃ l, L v.length l ∧ bs = l ++ v

/-- A count and as many elements. -/
def ElementsSpelt {α : Type} (element : α → Bytes → Prop) (vs : List α) (bs : Bytes) : Prop :=
  ∃ l parts, L vs.length l ∧ bs = l ++ parts.flatten ∧ List.Forall₂ element vs parts

/-- A key and its value. -/
def EntrySpelt {α β : Type} (key : α → Bytes → Prop) (value : β → Bytes → Prop) (e : α × β)
    (bs : Bytes) : Prop := ∃ xs ys, bs = xs ++ ys ∧ key e.1 xs ∧ value e.2 ys

mutual

/-- The bytes are those of the value, with every length as `L` allows; the elements of a set and
the entries of a map may repeat, and a later entry replaces an earlier one of its key. -/
def Ty.Spelt : (t : Ty) → t.Val → Bytes → Prop
  | .boolean, v, bs => bs = [bif v then 1 else 0]
  | .int _, v, bs => bs = intBytes v.val
  | .uint _, v, bs => bs = leBytes 8 v.val
  | .character, v, bs => bs = [v]
  | .string, v, bs => BlobSpelt L v bs
  | .bytes, v, bs => BlobSpelt L v bs
  | .null, _, bs => bs = [0]
  | .monostate, _, bs => bs = []
  | .optional t, some v, bs => ∃ rest, bs = 1 :: rest ∧ t.Spelt v rest
  | .optional _, none, bs => bs = [0]
  | .enumeration u, v, bs => bs = u.layout v
  | .array t, vs, bs => ElementsSpelt L t.Spelt (show List t.Val from vs) bs
  | .set t, s, bs => ∃ vs : List t.Val, vs.foldl insertSetElement ∅ = s ∧
      ElementsSpelt L t.Spelt vs bs
  | .tuple ts, vs, bs => ts.SpeltAll vs bs
  | .map k v, m, bs => ∃ es : List (k.Val × v.Val), es.foldl insertMapEntry ∅ = m ∧
      ElementsSpelt L (EntrySpelt k.Spelt v.Spelt) es bs
  | .struct fs, vs, bs => fs.SpeltAll vs bs
  | .variant ts, a, bs => ∃ rest, Tys.Alt.index a < 2 ^ 32 ∧
      bs = leBytes 4 (Tys.Alt.index a) ++ rest ∧ ts.SpeltAlt a rest

/-- The elements of a tuple one after the other. -/
def Tys.SpeltAll : (ts : Tys) → ts.Vals → Bytes → Prop
  | .nil, _, bs => bs = []
  | .cons t ts, (v, vs), bs => ∃ xs ys, bs = xs ++ ys ∧ t.Spelt v xs ∧ ts.SpeltAll vs ys

/-- What a variant holds. -/
def Tys.SpeltAlt : (ts : Tys) → ts.Alt → Bytes → Prop
  | .cons t _, .inl v, bs => t.Spelt v bs
  | .cons _ ts, .inr a, bs => ts.SpeltAlt a bs

/-- The fields of a struct one after the other. -/
def Fields.SpeltAll : (fs : Fields) → fs.Vals → Bytes → Prop
  | .nil, _, bs => bs = []
  | .cons _ t fs, (v, vs), bs => ∃ xs ys, bs = xs ++ ys ∧ t.Spelt v xs ∧ fs.SpeltAll vs ys

end

end Spellings

/-! ## Visits -/

variable {α γ : Type} {P : Bytes → α → Prop} {element : Decode α} {t : Ty} {vs : List α}
  {bs l rest : Bytes} {n : Nat} {c c' : Cursor}

/-- A check for `n` bytes lets through only where they are there. -/
theorem Yields.check {n m : Nat} {d : Decode α} (h : Yields n d P) :
    Yields m (checkRemaining n >>= fun _ => d) P := by
  intro c hc
  by_cases hn : n > c.data.length - c.pos
  · have hcheck : (checkRemaining n >>= fun _ => d) c =
        .error (.error { message := unexpectedEof }) := by
      change (checkRemaining n c >>= fun p => d p.2) = _
      rw [checkRemaining, if_pos hn]
      rfl
    rw [hcheck]
    intro hbound
    cases hbound
  · have hcheck : checkRemaining n c = .ok ((), c) := by rw [checkRemaining, if_neg hn]
    rw [ReadM.bind_of_ok hcheck]
    exact h c (by omega)

theorem yields_readU8 : Yields 1 readU8 fun bs b => bs = [b] := by
  intro c hc
  have hin : c.pos < c.data.length := hc
  simp only [readU8, List.getElem?_eq_getElem hin]
  refine ⟨rfl, hc, [c.data[c.pos]], ?_, rfl, rfl⟩
  rw [List.singleton_append, ← List.drop_eq_getElem_cons hin]

theorem yields_readLe (n : Nat) :
    Yields n (readLe n) fun bs raw => bs = leBytes n raw ∧ raw < 2 ^ (8 * n) := by
  refine (Yields.bind (Yields.slice n) fun bytes => Yields.pure (leValue bytes)).mono
    (Nat.le_refl n) ?_
  rintro bs raw ⟨xs, ys, a, rfl, ⟨rfl, hlen⟩, rfl, rfl⟩
  rw [List.append_nil, ← hlen]
  exact ⟨(leBytes_leValue a).1.symm, (leBytes_leValue a).2⟩

/-- One byte, and what is made of it. -/
theorem yields_byte {f : UInt8 → Decode α} {Q : UInt8 → Bytes → α → Prop}
    (h : ∀ b, Yields 0 (f b) (Q b)) :
    Yields 0 (checkRemaining 1 >>= fun _ => readU8 >>= f) fun bs a =>
      ∃ b rest, bs = b :: rest ∧ Q b rest a := by
  refine Yields.check ((Yields.bind yields_readU8 h).mono (Nat.le_refl 1) ?_)
  rintro bs a ⟨xs, ys, b, rfl, rfl, hQ⟩
  exact ⟨b, ys, rfl, hQ⟩

theorem yields_readWide (n : Nat) :
    Yields 0 (readWide n) fun bs raw => bs = leBytes n raw ∧ raw < 2 ^ (8 * n) :=
  Yields.check (yields_readLe n)

/-- A length comes with a marker that holds it; no other byte begins one. -/
theorem yields_readLength : Yields 0 readLength fun bs n => LengthSpelt n bs := by
  refine (yields_byte (Q := fun b rest n => LengthSpelt n (b :: rest)) fun b => ?_).mono
    (Nat.le_refl 0) ?_
  · by_cases h16 : b < LengthMarker.u16.toUnderlying
    · rw [if_pos h16]
      refine (Yields.pure b.toNat).mono (Nat.le_refl 0) ?_
      rintro bs n ⟨rfl, rfl⟩
      have hlt : b.toNat < 251 := UInt8.lt_iff_toNat_lt.mp h16
      exact .inl ⟨hlt, by rw [UInt8.ofNat_toNat]⟩
    rw [if_neg h16]
    by_cases h16' : b = LengthMarker.u16.toUnderlying
    · rw [if_pos h16']
      refine (yields_readWide 2).mono (Nat.le_refl 0) ?_
      rintro bs n ⟨rfl, hn⟩
      exact .inr (.inl ⟨hn, by rw [h16']; rfl⟩)
    rw [if_neg h16']
    by_cases h32 : b = LengthMarker.u32.toUnderlying
    · rw [if_pos h32]
      refine (yields_readWide 4).mono (Nat.le_refl 0) ?_
      rintro bs n ⟨rfl, hn⟩
      exact .inr (.inr (.inl ⟨hn, by rw [h32]; rfl⟩))
    rw [if_neg h32]
    by_cases h64 : b = LengthMarker.u64.toUnderlying
    · rw [if_pos h64]
      refine (yields_readWide 8).mono (Nat.le_refl 0) ?_
      rintro bs n ⟨rfl, hn⟩
      exact .inr (.inr (.inr ⟨hn, by rw [h64]; rfl⟩))
    rw [if_neg h64]
    exact Yields.fail _ _
  · rintro bs n ⟨b, rest, rfl, h⟩
    exact h

theorem yields_visitBool : Yields 0 visitBool fun bs v => bs = [bif v then 1 else 0] := by
  refine (yields_byte (Q := fun b rest v => rest = [] ∧ b = bif v then 1 else 0)
    fun b => ?_).mono (Nat.le_refl 0) ?_
  · by_cases hb : b > 1
    · rw [if_pos hb]
      exact Yields.fail _ _
    · rw [if_neg hb]
      refine (Yields.pure (b == 1)).mono (Nat.le_refl 0) ?_
      rintro bs v ⟨rfl, rfl⟩
      refine ⟨rfl, ?_⟩
      have hle : b.toNat ≤ 1 := UInt8.le_iff_toNat_le.mp (UInt8.not_lt.mp hb)
      apply UInt8.toNat_inj.mp
      by_cases h1 : b = 1
      · simp [h1]
      · have hne : b.toNat ≠ 1 := fun heq => h1 (UInt8.toNat_inj.mp heq)
        rw [beq_eq_false_iff_ne.mpr h1]
        change b.toNat = 0
        omega
  · rintro bs v ⟨b, rest, rfl, rfl, rfl⟩
    rfl

/-- Eight bytes are a number of the type, or the read fails. -/
theorem yields_visitNarrow {narrow : Nat → Option α}
    (h : ∀ raw a, raw < 2 ^ 64 → narrow raw = some a → P (leBytes 8 raw) a) :
    Yields 0 (visitNarrow narrow) P := by
  refine Yields.check ((Yields.bind (Q := fun raw bs a => bs = [] ∧ narrow raw = some a)
    (yields_readLe 8) fun raw => ?_).mono (Nat.le_refl 8) ?_)
  · cases hn : narrow raw with
    | none => exact Yields.fail _ _
    | some out =>
      refine (Yields.pure out).mono (Nat.le_refl 0) ?_
      rintro bs a ⟨rfl, rfl⟩
      exact ⟨rfl, rfl⟩
  · rintro bs a ⟨xs, ys, raw, rfl, ⟨rfl, hraw⟩, rfl, hn⟩
    rw [List.append_nil]
    exact h raw a hraw hn

theorem yields_visitInt (w : Width) :
    Yields 0 (visitInt w) fun bs v => bs = intBytes v.val := by
  apply yields_visitNarrow
  intro raw v hraw hn
  have hv : v.val = (BitVec.ofNat 64 raw).toInt := by
    unfold narrowSigned at hn
    split at hn
    · rw [← Option.some.inj hn]
    · exact nomatch hn
  rw [intBytes, hv, BitVec.ofInt_toInt, BitVec.toNat_ofNat, Nat.mod_eq_of_lt hraw]

theorem yields_visitUint (w : Width) :
    Yields 0 (visitUint w) fun bs v => bs = leBytes 8 v.val := by
  apply yields_visitNarrow
  intro raw v _ hn
  unfold narrowUnsigned at hn
  split at hn
  · rw [← Option.some.inj hn]
  · exact nomatch hn

theorem yields_visitBlob : Yields 0 visitBlob fun bs v => BlobSpelt LengthSpelt v bs := by
  refine (Yields.bind yields_readLength fun n => Yields.check (Yields.slice n)).mono
    (Nat.le_refl 0) ?_
  rintro bs v ⟨l, ys, n, rfl, hl, rfl, rfl⟩
  exact ⟨l, hl, rfl⟩

theorem yields_visitChar : Yields 0 visitChar fun bs v => bs = [v] := Yields.check yields_readU8

theorem yields_visitNull : Yields 0 visitNull fun bs _ => bs = [0] := by
  refine (yields_byte (Q := fun b rest _ => rest = [] ∧ b = 0) fun b => ?_).mono (Nat.le_refl 0) ?_
  · by_cases hb : b = 0
    · rw [if_neg (by simp [hb])]
      refine (Yields.pure ()).mono (Nat.le_refl 0) ?_
      rintro bs v ⟨rfl, -⟩
      exact ⟨rfl, hb⟩
    · rw [if_pos (by simp [hb])]
      exact Yields.fail _ _
  · rintro bs v ⟨b, rest, rfl, rfl, rfl⟩
    rfl

theorem yields_visitOption {body : Decode α} (h : Yields 0 body P) :
    Yields 0 (visitOption body) fun bs v =>
      (v = none ∧ bs = [0]) ∨ ∃ x rest, v = some x ∧ bs = 1 :: rest ∧ P rest x := by
  refine (yields_byte (Q := fun b rest v => (v = none ∧ b = 0 ∧ rest = []) ∨
    ∃ x, v = some x ∧ b = 1 ∧ P rest x) fun b => ?_).mono (Nat.le_refl 0) ?_
  · by_cases h0 : b = 0
    · rw [if_pos (by simp [h0])]
      refine (Yields.pure none).mono (Nat.le_refl 0) ?_
      rintro bs v ⟨rfl, rfl⟩
      exact .inl ⟨rfl, h0, rfl⟩
    · rw [if_neg (by simp [h0])]
      by_cases h1 : b = 1
      · rw [if_neg (by simp [h1])]
        refine (Yields.bind h fun x => Yields.pure (some x)).mono (Nat.le_refl 0) ?_
        rintro bs v ⟨xs, ys, x, rfl, hx, rfl, rfl⟩
        exact .inr ⟨x, rfl, h1, by rwa [List.append_nil]⟩
      · rw [if_pos (by simp [h1])]
        exact Yields.fail _ _
  · rintro bs v ⟨b, rest, rfl, ⟨rfl, rfl, rfl⟩ | ⟨x, rfl, rfl, hx⟩⟩
    · exact .inl ⟨rfl, rfl⟩
    · exact .inr ⟨x, rest, rfl, rfl, hx⟩

/-- The loop over a container reads as many elements as are left. -/
theorem yields_visitElements (append : γ → α → γ) {P : α → Bytes → Prop}
    (h : Yields 0 element fun bs a => P a bs) (left idx : Nat) (out : γ) :
    Yields 0 (visitElements element append left idx out) fun bs v =>
      ∃ (vs : List α) (parts : List Bytes), vs.length = left ∧ v = vs.foldl append out ∧
        bs = parts.flatten ∧ List.Forall₂ P vs parts := by
  induction left generalizing idx out with
  | zero =>
    refine (Yields.pure out).mono (Nat.le_refl 0) ?_
    rintro bs v ⟨rfl, rfl⟩
    exact ⟨[], [], rfl, rfl, rfl, .nil⟩
  | succ left ih =>
    refine (Yields.bind h.mapError fun a => ih (idx + 1) (append out a)).mono (Nat.le_refl 0) ?_
    rintro bs v ⟨xs, ys, a, rfl, ha, vs, parts, rfl, rfl, rfl, hall⟩
    exact ⟨a :: vs, xs :: parts, rfl, rfl, rfl, .cons ha hall⟩

theorem yields_visitSeq {append : γ → α → γ} {empty : γ} {P : α → Bytes → Prop}
    (h : Yields 0 element fun bs a => P a bs) :
    Yields 0 (visitSeq element append empty) fun bs v =>
      ∃ vs : List α, vs.foldl append empty = v ∧ ElementsSpelt LengthSpelt P vs bs := by
  refine (Yields.bind yields_readLength fun n =>
    yields_visitElements append h n 0 empty).mono (Nat.le_refl 0) ?_
  rintro bs v ⟨l, ys, n, rfl, hl, vs, parts, rfl, rfl, rfl, hall⟩
  exact ⟨vs, rfl, l, parts, hl, rfl, hall⟩

theorem yields_visitMap {α β γ : Type} {key : Decode α} {value : Decode β}
    {insert : γ → α × β → γ} {empty : γ} {P : α → Bytes → Prop} {Q : β → Bytes → Prop}
    (hk : Yields 0 key fun bs a => P a bs) (hv : Yields 0 value fun bs b => Q b bs) :
    Yields 0 (visitMap key value insert empty) fun bs m =>
      ∃ es : List (α × β), es.foldl insert empty = m ∧
        ElementsSpelt LengthSpelt (EntrySpelt P Q) es bs := by
  have hentry : Yields 0 (visitEntry key value) fun bs e => EntrySpelt P Q e bs := by
    refine (Yields.bind hk fun a => Yields.bind hv fun b => Yields.pure (a, b)).mono
      (Nat.le_refl 0) ?_
    rintro bs e ⟨xs, _, a, rfl, ha, ys, _, b, rfl, hb, rfl, rfl⟩
    exact ⟨xs, ys, by rw [List.append_nil], ha, hb⟩
  exact yields_visitSeq hentry

theorem yields_visitVariant {body : Nat → Decode α} {P : Nat → Bytes → α → Prop}
    (h : ∀ index, Yields 0 (body index) (P index)) :
    Yields 0 (visitVariant body) fun bs a => ∃ index rest, index < 2 ^ 32 ∧
      bs = leBytes 4 index ++ rest ∧ P index rest a := by
  refine Yields.check ((Yields.bind (yields_readLe 4) h).mono (Nat.le_refl 4) ?_)
  rintro bs a ⟨xs, ys, index, rfl, ⟨rfl, hlt⟩, hP⟩
  exact ⟨index, ys, hlt, rfl, hP⟩

/-! ## Values -/

theorem Underlying.yields_decode : (u : Underlying) →
    Yields 0 u.decode fun bs v => bs = u.layout v
  | .signed w => yields_visitInt w
  | .unsigned w => yields_visitUint w
  | .bool => by
    apply yields_visitNarrow
    intro raw v _ hn
    unfold narrowBool at hn
    split at hn
    · next hraw =>
      rw [← Option.some.inj hn]
      rcases hraw with rfl | rfl <;> rfl
    · exact nomatch hn

private theorem yields_array (h : Yields 0 (decode t) fun bs v => t.Spelt LengthSpelt v bs) :
    Yields 0 (visitSeq (decode t) appendSequenceElement []) fun bs vs =>
      ElementsSpelt LengthSpelt (t.Spelt LengthSpelt) vs bs := by
  refine (yields_visitSeq h).mono (Nat.le_refl 0) ?_
  rintro bs vs ⟨vs', rfl, hspelt⟩
  rwa [foldl_appendSequenceElement, List.nil_append]

private theorem yields_variant {ts : Tys}
    (h : ∀ index, Yields 0 (decodeAlternative ts index) fun bs a =>
      Tys.Alt.index a = index ∧ ts.SpeltAlt LengthSpelt a bs) :
    Yields 0 (visitVariant fun index =>
        if ts.size ≤ index then fail (invalidVariantIndex index) else decodeAlternative ts index)
      fun bs a => ∃ rest, Tys.Alt.index a < 2 ^ 32 ∧
        bs = leBytes 4 (Tys.Alt.index a) ++ rest ∧ ts.SpeltAlt LengthSpelt a rest := by
  refine (yields_visitVariant (P := fun index rest a => Tys.Alt.index a = index ∧
    ts.SpeltAlt LengthSpelt a rest) fun index => ?_).mono (Nat.le_refl 0) ?_
  · by_cases hi : ts.size ≤ index
    · rw [if_pos hi]
      exact Yields.fail _ _
    · rw [if_neg hi]
      exact h index
  · rintro bs a ⟨index, rest, hlt, rfl, rfl, ha⟩
    exact ⟨rest, hlt, rfl, ha⟩

mutual

/-- Whatever the bytes, a decode stays inside them, and the bytes it has read spell the value it
gives. -/
theorem yields_decode : (t : Ty) → Yields 0 (decode t) fun bs v => t.Spelt LengthSpelt v bs
  | .boolean => yields_visitBool
  | .int w => yields_visitInt w
  | .uint w => yields_visitUint w
  | .character => yields_visitChar
  | .string => yields_visitBlob
  | .bytes => yields_visitBlob
  | .null => yields_visitNull
  | .monostate => by
    refine (Yields.pure ()).mono (Nat.le_refl 0) ?_
    rintro bs v ⟨rfl, -⟩
    rfl
  | .optional t => by
    refine (yields_visitOption (yields_decode t)).mono (Nat.le_refl 0) ?_
    rintro bs v (⟨rfl, rfl⟩ | ⟨x, rest, rfl, rfl, hx⟩)
    · rfl
    · exact ⟨rest, rfl, hx⟩
  | .enumeration u => u.yields_decode
  | .array t => yields_array (yields_decode t)
  | .set t => yields_visitSeq (yields_decode t)
  | .tuple ts => yields_decodeTuple 0 ts
  | .map k v => yields_visitMap (yields_decode k) (yields_decode v)
  | .struct fs => yields_decodeStructFields fs
  | .variant ts => yields_variant fun index => yields_decodeAlternative ts index

theorem yields_decodeTuple : (i : Nat) → (ts : Tys) →
    Yields 0 (decodeTuple i ts) fun bs vs => ts.SpeltAll LengthSpelt vs bs
  | _, .nil => by
    refine (Yields.pure ()).mono (Nat.le_refl 0) ?_
    rintro bs v ⟨rfl, -⟩
    rfl
  | i, .cons t ts => by
    refine (Yields.bind (yields_decode t).mapError fun v =>
      Yields.bind (yields_decodeTuple (i + 1) ts) fun vs => Yields.pure (v, vs)).mono
      (Nat.le_refl 0) ?_
    rintro bs _ ⟨xs, _, v, rfl, hv, ys, _, vs, rfl, hvs, rfl, rfl⟩
    exact ⟨xs, ys, by rw [List.append_nil], hv, hvs⟩

theorem yields_decodeAlternative : (ts : Tys) → (index : Nat) →
    Yields 0 (decodeAlternative ts index) fun bs a =>
      Tys.Alt.index a = index ∧ ts.SpeltAlt LengthSpelt a bs
  | .nil, _ => Yields.fail _ _
  | .cons t _, 0 => by
    refine (Yields.bind (yields_decode t) fun v => Yields.pure _).mono (Nat.le_refl 0) ?_
    rintro bs _ ⟨xs, _, v, rfl, hv, rfl, rfl⟩
    rw [List.append_nil]
    exact ⟨rfl, hv⟩
  | .cons _ ts, index + 1 => by
    refine (Yields.bind (yields_decodeAlternative ts index) fun a => Yields.pure _).mono
      (Nat.le_refl 0) ?_
    rintro bs _ ⟨xs, _, a, rfl, ⟨hi, ha⟩, rfl, rfl⟩
    rw [List.append_nil]
    exact ⟨congrArg (· + 1) hi, ha⟩

theorem yields_decodeStructFields : (fs : Fields) →
    Yields 0 (decodeStructFields fs) fun bs vs => fs.SpeltAll LengthSpelt vs bs
  | .nil => by
    refine (Yields.pure ()).mono (Nat.le_refl 0) ?_
    rintro bs v ⟨rfl, -⟩
    rfl
  | .cons _ t fs => by
    refine (Yields.bind (yields_decode t).mapError fun v =>
      Yields.bind (yields_decodeStructFields fs) fun vs => Yields.pure (v, vs)).mono
      (Nat.le_refl 0) ?_
    rintro bs _ ⟨xs, _, v, rfl, hv, ys, _, vs, rfl, hvs, rfl, rfl⟩
    exact ⟨xs, ys, by rw [List.append_nil], hv, hvs⟩

end

/-! ## Writing the value again -/

mutual

/-- The type has no set and no map, so its values keep the order they were read in. -/
def Ty.Ordered : Ty → Prop
  | .boolean => True
  | .int _ => True
  | .uint _ => True
  | .character => True
  | .string => True
  | .bytes => True
  | .null => True
  | .monostate => True
  | .optional t => t.Ordered
  | .enumeration _ => True
  | .array t => t.Ordered
  | .set _ => False
  | .tuple ts => ts.Ordered
  | .map _ _ => False
  | .struct fs => fs.Ordered
  | .variant ts => ts.Ordered

/-- None of the types has a set or a map. -/
def Tys.Ordered : Tys → Prop
  | .nil => True
  | .cons t ts => t.Ordered ∧ ts.Ordered

/-- None of the fields has a set or a map. -/
def Fields.Ordered : Fields → Prop
  | .nil => True
  | .cons _ t fs => t.Ordered ∧ fs.Ordered

end

section Again

variable {L : Nat → Bytes → Prop}

theorem blobSpelt_blobBytes (v : Bytes) : BlobSpelt LengthMinimal v (blobBytes v) :=
  ⟨lengthBytes v.length, rfl, rfl⟩

theorem BlobSpelt.eq_bytes {v bs : Bytes} (h : BlobSpelt LengthMinimal v bs) :
    bs = blobBytes v := by
  obtain ⟨l, rfl, rfl⟩ := h
  rfl

theorem ElementsSpelt.minimal {P Q : α → Bytes → Prop} {f : α → Bytes} (h : ElementsSpelt L P vs bs)
    (hP : ∀ v bs, P v bs → Q v (f v)) : ElementsSpelt LengthMinimal Q vs (elementsBytes f vs) := by
  obtain ⟨-, parts, -, -, hall⟩ := h
  refine ⟨lengthBytes vs.length, vs.map f, rfl, ?_, ?_⟩
  · rw [elementsBytes, List.flatMap_def]
  · induction hall with
    | nil => exact .nil
    | cons hv _ ih => exact .cons (hP _ _ hv) ih

theorem ElementsSpelt.eq_bytes {Q : α → Bytes → Prop} {f : α → Bytes}
    (h : ElementsSpelt LengthMinimal Q vs bs) (hQ : ∀ v bs, Q v bs → bs = f v) :
    bs = elementsBytes f vs := by
  obtain ⟨l, parts, rfl, rfl, hall⟩ := h
  have hparts : parts = vs.map f := by
    induction hall with
    | nil => rfl
    | cons hv _ ih => rw [List.map_cons, ← ih, hQ _ _ hv]
  rw [elementsBytes, List.flatMap_def, hparts]

variable (it : Iteration)

mutual

/-- A value with a spelling is spelt with the narrowest markers by its own bytes. -/
theorem Ty.Spelt.minimal : (t : Ty) → t.Ordered → (v : t.Val) → (bs : Bytes) → t.Spelt L v bs →
    t.Spelt LengthMinimal v (t.layout it v)
  | .boolean, _, _, _, _ => rfl
  | .int _, _, _, _, _ => rfl
  | .uint _, _, _, _, _ => rfl
  | .character, _, _, _, _ => rfl
  | .string, _, v, _, _ => blobSpelt_blobBytes v
  | .bytes, _, v, _, _ => blobSpelt_blobBytes v
  | .null, _, _, _, _ => rfl
  | .monostate, _, _, _, _ => rfl
  | .optional t, ho, some v, _, ⟨rest, _, h⟩ => ⟨_, rfl, Ty.Spelt.minimal t ho v rest h⟩
  | .optional _, _, none, _, _ => rfl
  | .enumeration _, _, _, _, _ => rfl
  | .array t, ho, _, _, h => ElementsSpelt.minimal h (Ty.Spelt.minimal t ho)
  | .tuple ts, ho, vs, bs, h => Tys.SpeltAll.minimal ts ho vs bs h
  | .struct fs, ho, vs, bs, h => Fields.SpeltAll.minimal fs ho vs bs h
  | .variant ts, ho, a, _, ⟨rest, hlt, _, h⟩ =>
    ⟨_, hlt, congrArg (leBytes 4 · ++ _) (Nat.mod_eq_of_lt hlt),
      Tys.SpeltAlt.minimal ts ho a rest h⟩

theorem Tys.SpeltAll.minimal : (ts : Tys) → ts.Ordered → (vs : ts.Vals) → (bs : Bytes) →
    ts.SpeltAll L vs bs → ts.SpeltAll LengthMinimal vs (ts.layoutAll it vs)
  | .nil, _, _, _, _ => rfl
  | .cons t ts, ho, (v, vs), _, ⟨xs, ys, _, hv, hvs⟩ =>
    ⟨_, _, rfl, Ty.Spelt.minimal t ho.1 v xs hv, Tys.SpeltAll.minimal ts ho.2 vs ys hvs⟩

theorem Tys.SpeltAlt.minimal : (ts : Tys) → ts.Ordered → (a : ts.Alt) → (bs : Bytes) →
    ts.SpeltAlt L a bs → ts.SpeltAlt LengthMinimal a (ts.layoutAlt it a)
  | .cons t _, ho, .inl v, bs, h => Ty.Spelt.minimal t ho.1 v bs h
  | .cons _ ts, ho, .inr a, bs, h => Tys.SpeltAlt.minimal ts ho.2 a bs h

theorem Fields.SpeltAll.minimal : (fs : Fields) → fs.Ordered → (vs : fs.Vals) → (bs : Bytes) →
    fs.SpeltAll L vs bs → fs.SpeltAll LengthMinimal vs (fs.layoutAll it vs)
  | .nil, _, _, _, _ => rfl
  | .cons _ t fs, ho, (v, vs), _, ⟨xs, ys, _, hv, hvs⟩ =>
    ⟨_, _, rfl, Ty.Spelt.minimal t ho.1 v xs hv, Fields.SpeltAll.minimal fs ho.2 vs ys hvs⟩

end

mutual

/-- No other bytes spell a value with the narrowest markers. -/
theorem Ty.Spelt.eq_layout : (t : Ty) → t.Ordered → (v : t.Val) → (bs : Bytes) →
    t.Spelt LengthMinimal v bs → bs = t.layout it v
  | .boolean, _, _, _, h => h
  | .int _, _, _, _, h => h
  | .uint _, _, _, _, h => h
  | .character, _, _, _, h => h
  | .string, _, _, _, h => BlobSpelt.eq_bytes h
  | .bytes, _, _, _, h => BlobSpelt.eq_bytes h
  | .null, _, _, _, h => h
  | .monostate, _, _, _, h => h
  | .optional t, ho, some v, _, ⟨rest, hbs, h⟩ =>
    hbs.trans (congrArg (1 :: ·) (Ty.Spelt.eq_layout t ho v rest h))
  | .optional _, _, none, _, h => h
  | .enumeration _, _, _, _, h => h
  | .array t, ho, _, _, h => ElementsSpelt.eq_bytes h (Ty.Spelt.eq_layout t ho)
  | .tuple ts, ho, vs, bs, h => Tys.SpeltAll.eq_layout ts ho vs bs h
  | .struct fs, ho, vs, bs, h => Fields.SpeltAll.eq_layout fs ho vs bs h
  | .variant ts, ho, a, _, ⟨rest, hlt, hbs, h⟩ => by
    rw [hbs, Tys.SpeltAlt.eq_layout ts ho a rest h, Ty.layout, Nat.mod_eq_of_lt hlt]

theorem Tys.SpeltAll.eq_layout : (ts : Tys) → ts.Ordered → (vs : ts.Vals) → (bs : Bytes) →
    ts.SpeltAll LengthMinimal vs bs → bs = ts.layoutAll it vs
  | .nil, _, _, _, h => h
  | .cons t ts, ho, (v, vs), _, ⟨xs, ys, hbs, hv, hvs⟩ => by
    rw [hbs, Ty.Spelt.eq_layout t ho.1 v xs hv, Tys.SpeltAll.eq_layout ts ho.2 vs ys hvs,
      Tys.layoutAll]

theorem Tys.SpeltAlt.eq_layout : (ts : Tys) → ts.Ordered → (a : ts.Alt) → (bs : Bytes) →
    ts.SpeltAlt LengthMinimal a bs → bs = ts.layoutAlt it a
  | .cons t _, ho, .inl v, bs, h => Ty.Spelt.eq_layout t ho.1 v bs h
  | .cons _ ts, ho, .inr a, bs, h => Tys.SpeltAlt.eq_layout ts ho.2 a bs h

theorem Fields.SpeltAll.eq_layout : (fs : Fields) → fs.Ordered → (vs : fs.Vals) →
    (bs : Bytes) → fs.SpeltAll LengthMinimal vs bs → bs = fs.layoutAll it vs
  | .nil, _, _, _, h => h
  | .cons _ t fs, ho, (v, vs), _, ⟨xs, ys, hbs, hv, hvs⟩ => by
    rw [hbs, Ty.Spelt.eq_layout t ho.1 v xs hv, Fields.SpeltAll.eq_layout fs ho.2 vs ys hvs,
      Fields.layoutAll]

end

end Again

/-! ## Bytes no value has -/

/-- The bytes begin with a tag, a marker or an index that no value of the type begins with. -/
def Ty.IllegalHead : Ty → Bytes → Prop
  | .boolean, bs => ∃ b, bs.head? = some b ∧ 1 < b
  | .null, bs => ∃ b, bs.head? = some b ∧ b ≠ 0
  | .optional _, bs => ∃ b, bs.head? = some b ∧ 1 < b
  | .string, bs => ∃ b, bs.head? = some b ∧ LengthMarker.u64.toUnderlying < b
  | .bytes, bs => ∃ b, bs.head? = some b ∧ LengthMarker.u64.toUnderlying < b
  | .array _, bs => ∃ b, bs.head? = some b ∧ LengthMarker.u64.toUnderlying < b
  | .set _, bs => ∃ b, bs.head? = some b ∧ LengthMarker.u64.toUnderlying < b
  | .map _ _, bs => ∃ b, bs.head? = some b ∧ LengthMarker.u64.toUnderlying < b
  | .variant ts, bs => 4 ≤ bs.length ∧ ts.size ≤ leValue (bs.take 4)
  | _, _ => False

theorem LengthSpelt.head_le (h : LengthSpelt n l) :
    ∃ b, l.head? = some b ∧ ¬LengthMarker.u64.toUnderlying < b := by
  rcases h with ⟨hn, rfl⟩ | ⟨-, rfl⟩ | ⟨-, rfl⟩ | ⟨-, rfl⟩
  · refine ⟨_, rfl, ?_⟩
    have hmark : LengthMarker.u64.toUnderlying.toNat = 253 := rfl
    rw [UInt8.lt_iff_toNat_lt, UInt8.toNat_ofNat', hmark]
    omega
  · exact ⟨251, rfl, by decide⟩
  · exact ⟨252, rfl, by decide⟩
  · exact ⟨253, rfl, by decide⟩

private theorem head?_append_of_some {b : UInt8} (h : l.head? = some b) (r : Bytes) :
    (l ++ r).head? = some b := by
  rw [List.head?_append, h]
  rfl

/-- Bytes that begin with a length do not begin with a byte that begins none. -/
private theorem LengthSpelt.not_illegal (h : LengthSpelt n l) :
    ¬∃ b, (l ++ rest).head? = some b ∧ LengthMarker.u64.toUnderlying < b := by
  rintro ⟨b, hb, hlt⟩
  obtain ⟨b', hb', hle⟩ := h.head_le
  rw [head?_append_of_some hb' rest] at hb
  rw [Option.some.inj hb] at hle
  exact hle hlt

private theorem BlobSpelt.not_illegal {v bs rest : Bytes} (h : BlobSpelt LengthSpelt v bs) :
    ¬∃ b, (bs ++ rest).head? = some b ∧ LengthMarker.u64.toUnderlying < b := by
  obtain ⟨l, hl, rfl⟩ := h
  rw [List.append_assoc]
  exact hl.not_illegal

private theorem ElementsSpelt.not_illegal {P : α → Bytes → Prop}
    (h : ElementsSpelt LengthSpelt P vs bs) :
    ¬∃ b, (bs ++ rest).head? = some b ∧ LengthMarker.u64.toUnderlying < b := by
  obtain ⟨l, parts, hl, rfl, -⟩ := h
  rw [List.append_assoc]
  exact hl.not_illegal

/-- What spells a value begins with nothing illegal. -/
theorem Ty.Spelt.not_illegalHead : (t : Ty) → (v : t.Val) → (bs rest : Bytes) →
    t.Spelt LengthSpelt v bs → ¬t.IllegalHead (bs ++ rest)
  | .boolean, v, _, _, h => by
    cases h
    rintro ⟨b, hb, hlt⟩
    cases Option.some.inj hb
    cases v <;> exact absurd hlt (by decide)
  | .null, _, _, _, h => by
    cases h
    rintro ⟨b, hb, hne⟩
    exact hne (Option.some.inj hb).symm
  | .optional _, some _, _, _, h => by
    obtain ⟨_, rfl, -⟩ := h
    rintro ⟨b, hb, hlt⟩
    cases Option.some.inj hb
    exact absurd hlt (by decide)
  | .optional _, none, _, _, h => by
    cases h
    rintro ⟨b, hb, hlt⟩
    cases Option.some.inj hb
    exact absurd hlt (by decide)
  | .string, _, _, _, h => BlobSpelt.not_illegal h
  | .bytes, _, _, _, h => BlobSpelt.not_illegal h
  | .array _, _, _, _, h => ElementsSpelt.not_illegal h
  | .set _, _, _, _, ⟨_, _, h⟩ => ElementsSpelt.not_illegal h
  | .map _ _, _, _, _, ⟨_, _, h⟩ => ElementsSpelt.not_illegal h
  | .variant _, a, _, _, ⟨rest', hlt, hbs, _⟩ => by
    rintro ⟨-, hsize⟩
    rw [hbs, List.append_assoc, List.take_left' (length_leBytes 4 _),
      leValue_leBytes_of_lt hlt] at hsize
    exact absurd (Tys.Alt.index_lt a) (Nat.not_lt.mpr hsize)
  | .int _, _, _, _, _ => id
  | .uint _, _, _, _, _ => id
  | .character, _, _, _, _ => id
  | .monostate, _, _, _, _ => id
  | .enumeration _, _, _, _, _ => id
  | .tuple _, _, _, _, _ => id
  | .struct _, _, _, _, _ => id

/-! ## Room for elements -/

/-- `size_hint`: no more than the bytes left. -/
def sizeHint (c : Cursor) (count : Nat) : Nat := min count (c.data.length - c.pos)

/-- `reserve_for`: what the hint says, and no more than a mebibyte of elements. -/
def reserveFor (elementSize : Nat) (c : Cursor) (count : Nat) : Nat :=
  min (sizeHint c count) (2 ^ 20 / elementSize)

/-- A container that makes room for elements where its reader stands. -/
structure Room where
  at' : Cursor
  made : Nat

/-- The rooms made after a step, of which there are none where it fails. -/
def roomsAfter {α : Type} (d : Decode α) (k : α → Cursor → List Room) (c : Cursor) : List Room :=
  match d c with
  | .ok (a, c') => k a c'
  | .error _ => []

/-- The rooms made while the elements of a container are read. -/
def elementRooms {α : Type} (element : Decode α) (rooms : Cursor → List Room) :
    (left : Nat) → Cursor → List Room
  | 0, _ => []
  | left + 1, c => rooms c ++ roomsAfter element (fun _ => elementRooms element rooms left) c

/-- The room a container makes for its elements, and those made inside them. -/
def containerRooms {α : Type} (elementSize : Nat) (element : Decode α)
    (rooms : Cursor → List Room) : Cursor → List Room :=
  roomsAfter readLength fun count c =>
    ⟨c, reserveFor elementSize c count⟩ :: elementRooms element rooms count c

section Rooms

variable (elementSize : Ty → Nat)

mutual

/-- The rooms the containers of a type make while it is decoded, in their order, an element
having the size `elementSize` says. -/
def Ty.rooms : Ty → Cursor → List Room
  | .optional t => roomsAfter (checkRemaining 1 >>= fun _ => readU8) fun byte c =>
    if byte == 0x01 then t.rooms c else []
  | .array t => containerRooms (elementSize t) (decode t) t.rooms
  | .set t => containerRooms (elementSize t) (decode t) t.rooms
  | .tuple ts => ts.roomsAll
  | .map k v => containerRooms (elementSize (.tuple (.cons k (.cons v .nil))))
    (visitEntry (decode k) (decode v)) fun c =>
      k.rooms c ++ roomsAfter (decode k) (fun _ => v.rooms) c
  | .struct fs => fs.roomsAll
  | .variant ts => roomsAfter (checkRemaining 4 >>= fun _ => readLe 4) ts.roomsAlt
  | _ => fun _ => []

/-- The rooms made while the elements of a tuple are decoded. -/
def Tys.roomsAll : Tys → Cursor → List Room
  | .nil, _ => []
  | .cons t ts, c => t.rooms c ++ roomsAfter (decode t) (fun _ => ts.roomsAll) c

/-- The rooms made while the alternative at an index is decoded. -/
def Tys.roomsAlt : Tys → Nat → Cursor → List Room
  | .nil, _, _ => []
  | .cons t _, 0, c => t.rooms c
  | .cons _ ts, index + 1, c => ts.roomsAlt index c

/-- The rooms made while the fields of a struct are decoded. -/
def Fields.roomsAll : Fields → Cursor → List Room
  | .nil, _ => []
  | .cons _ t fs, c => t.rooms c ++ roomsAfter (decode t) (fun _ => fs.roomsAll) c

end

end Rooms

/-- Every room is made inside the bytes and is for no more elements than bytes are left. -/
def Modest (rooms : Cursor → List Room) : Prop :=
  ∀ c : Cursor, c.pos ≤ c.data.length → ∀ room ∈ rooms c, room.at'.data = c.data ∧
    room.at'.pos ≤ c.data.length ∧ room.made ≤ c.data.length - room.at'.pos

theorem Modest.none : Modest fun _ => [] := fun _ _ _ h => nomatch h

theorem Modest.append {r r' : Cursor → List Room} (h : Modest r) (h' : Modest r') :
    Modest fun c => r c ++ r' c := by
  intro c hc room hroom
  rcases List.mem_append.mp hroom with hroom | hroom
  · exact h c hc room hroom
  · exact h' c hc room hroom

theorem Modest.after {d : Decode α} {k : α → Cursor → List Room} (hd : Yields 0 d P)
    (hk : ∀ a, Modest (k a)) : Modest (roomsAfter d k) := by
  intro c hc room hroom
  unfold roomsAfter at hroom
  split at hroom
  · next a c' hdc =>
    obtain ⟨hdata, hpos, -⟩ := hd.of_ok hc hdc
    have hmade := hk a c' (hdata ▸ hpos) room hroom
    rwa [hdata] at hmade
  · exact nomatch hroom

theorem Modest.elements {rooms : Cursor → List Room} (he : Yields 0 element P) (h : Modest rooms)
    (left : Nat) : Modest (elementRooms element rooms left) := by
  induction left with
  | zero => exact Modest.none
  | succ left ih => exact h.append (Modest.after he fun _ => ih)

theorem Modest.container {rooms : Cursor → List Room} (elementSize : Nat) (he : Yields 0 element P)
    (h : Modest rooms) : Modest (containerRooms elementSize element rooms) := by
  refine Modest.after yields_readLength fun count => ?_
  intro c hc room hroom
  rcases List.mem_cons.mp hroom with rfl | hroom
  · refine ⟨rfl, hc, ?_⟩
    exact (Nat.min_le_left _ _).trans (Nat.min_le_right _ _)
  · exact Modest.elements he h count c hc room hroom

section Rooms

variable (elementSize : Ty → Nat)

mutual

/-- Whatever counts the bytes claim, no container makes room for more elements than bytes are
left. -/
theorem Ty.rooms_modest : (t : Ty) → Modest (t.rooms elementSize)
  | .boolean => Modest.none
  | .int _ => Modest.none
  | .uint _ => Modest.none
  | .character => Modest.none
  | .string => Modest.none
  | .bytes => Modest.none
  | .null => Modest.none
  | .monostate => Modest.none
  | .optional t => by
    refine Modest.after (Yields.check yields_readU8) fun byte => ?_
    by_cases hb : (byte == 0x01) = true
    · simp only [hb, ite_true]
      exact Ty.rooms_modest t
    · simp only [hb, Bool.false_eq_true, ite_false]
      exact Modest.none
  | .enumeration _ => Modest.none
  | .array t => Modest.container _ (yields_decode t) (Ty.rooms_modest t)
  | .set t => Modest.container _ (yields_decode t) (Ty.rooms_modest t)
  | .tuple ts => Tys.roomsAll_modest ts
  | .map k v => by
    have hentry : Yields 0 (visitEntry (decode k) (decode v)) fun _ _ => True := by
      refine (Yields.bind (yields_decode k) fun a => Yields.bind (yields_decode v) fun b =>
        Yields.pure (a, b)).mono (Nat.le_refl 0) fun _ _ _ => trivial
    exact Modest.container _ hentry ((Ty.rooms_modest k).append
      (Modest.after (yields_decode k) fun _ => Ty.rooms_modest v))
  | .struct fs => Fields.roomsAll_modest fs
  | .variant ts => Modest.after (Yields.check (yields_readLe 4)) (Tys.roomsAlt_modest ts)

theorem Tys.roomsAll_modest : (ts : Tys) → Modest (ts.roomsAll elementSize)
  | .nil => Modest.none
  | .cons t ts => (Ty.rooms_modest t).append
    (Modest.after (yields_decode t) fun _ => Tys.roomsAll_modest ts)

theorem Tys.roomsAlt_modest : (ts : Tys) → (index : Nat) → Modest (ts.roomsAlt elementSize index)
  | .nil, _ => Modest.none
  | .cons t _, 0 => Ty.rooms_modest t
  | .cons _ ts, index + 1 => Tys.roomsAlt_modest ts index

theorem Fields.roomsAll_modest : (fs : Fields) → Modest (fs.roomsAll elementSize)
  | .nil => Modest.none
  | .cons _ t fs => (Ty.rooms_modest t).append
    (Modest.after (yields_decode t) fun _ => Fields.roomsAll_modest fs)

end

end Rooms

/-! ## Any bytes -/

theorem decode_ne_outOfBounds (t : Ty) (hc : c.pos ≤ c.data.length) :
    decode t c ≠ .error .outOfBounds := by
  intro hd
  have hstays := yields_decode t c hc
  rw [hd] at hstays
  exact hstays rfl

/-- What a decode has read is the part of the bytes between its two positions. -/
theorem decode_spelt {v : t.Val} (hc : c.pos ≤ c.data.length) (hd : decode t c = .ok (v, c')) :
    c'.data = c.data ∧ c.pos ≤ c'.pos ∧
      c'.pos ≤ c.data.length ∧
      t.Spelt LengthSpelt v (substr c.data c.pos (c'.pos - c.pos)) := by
  obtain ⟨hdata, hpos, bs, hcut, hlen, hspelt⟩ := (yields_decode t).of_ok hc hd
  have hsub : substr c.data c.pos (c'.pos - c.pos) = bs := by
    rw [substr, hcut, hlen, Nat.add_sub_cancel_left, List.take_left]
  refine ⟨hdata, ?_, hpos, hsub ▸ hspelt⟩
  rw [hlen]
  exact Nat.le_add_right _ _

theorem decode_illegalHead (hc : c.pos ≤ c.data.length) (h : t.IllegalHead (c.data.drop c.pos)) :
    ∃ e, decode t c = .error (.error e) := by
  cases hd : decode t c with
  | ok r =>
    obtain ⟨v, c'⟩ := r
    obtain ⟨-, -, bs, hcut, -, hspelt⟩ := (yields_decode t).of_ok hc hd
    rw [hcut] at h
    exact absurd h (Ty.Spelt.not_illegalHead t v bs _ hspelt)
  | error e =>
    cases e with
    | outOfBounds => exact absurd hd (decode_ne_outOfBounds t hc)
    | error e => exact ⟨e, rfl⟩

theorem decode_int_exact {w : Width} {v : SignedInt w} (hc : c.pos ≤ c.data.length)
    (hd : decode (.int w) c = .ok (v, c')) :
    v.val = (BitVec.ofNat 64 (leValue (substr c.data c.pos 8))).toInt := by
  obtain ⟨-, -, bs, hcut, -, hspelt⟩ := (yields_decode (.int w)).of_ok hc hd
  have hsub : substr c.data c.pos 8 = intBytes v.val := by
    rw [substr, hcut, hspelt]
    exact List.take_left' (length_leBytes 8 _)
  rw [hsub, intBytes, leValue_leBytes_of_lt (BitVec.isLt _), toInt_ofInt_val]

theorem decode_uint_exact {w : Width} {v : UnsignedInt w} (hc : c.pos ≤ c.data.length)
    (hd : decode (.uint w) c = .ok (v, c')) : v.val = leValue (substr c.data c.pos 8) := by
  obtain ⟨-, -, bs, hcut, -, hspelt⟩ := (yields_decode (.uint w)).of_ok hc hd
  have hsub : substr c.data c.pos 8 = leBytes 8 v.val := by
    rw [substr, hcut, hspelt]
    exact List.take_left' (length_leBytes 8 _)
  rw [hsub, leValue_leBytes_of_lt v.lt_two_pow]

/-- A document is accepted only where its value ends with it. -/
theorem fromBytes_eq_ok {data : Bytes} {v : t.Val} (h : fromBytes t data = .ok v) :
    decode t ⟨data, 0⟩ = .ok (v, ⟨data, data.length⟩) := by
  unfold fromBytes at h
  split at h
  · exact nomatch h
  · next value r hd =>
    split at h
    · exact nomatch h
    · next hpos =>
      cases Except.ok.inj h
      obtain ⟨hdata, -⟩ := decode_spelt (Nat.zero_le _) hd
      obtain ⟨data', pos⟩ := r
      cases hdata
      cases not_not.mp hpos
      exact hd

/-- Whatever the bytes and the type: a decode touches no byte outside them and stops inside them;
its value is spelt by the bytes it has read, an integer being the very number in its eight bytes;
a tag, marker or index that no value has is an error; no container makes room for more elements
than bytes are left; and a document is accepted only when all of it was read, in which case the
bytes of its value, if it has no set or map, are its only spelling with minimal markers. -/
theorem decode_safe (it : Iteration) (elementSize : Ty → Nat) (t : Ty) (c : Cursor)
    (hc : c.pos ≤ c.data.length) :
    decode t c ≠ .error .outOfBounds ∧
    (∀ v c', decode t c = .ok (v, c') → c'.data = c.data ∧ c.pos ≤ c'.pos ∧
      c'.pos ≤ c.data.length ∧
      t.Spelt LengthSpelt v (substr c.data c.pos (c'.pos - c.pos))) ∧
    (∀ w v c', decode (.int w) c = .ok (v, c') →
      v.val = (BitVec.ofNat 64 (leValue (substr c.data c.pos 8))).toInt) ∧
    (∀ w v c', decode (.uint w) c = .ok (v, c') → v.val = leValue (substr c.data c.pos 8)) ∧
    (t.IllegalHead (c.data.drop c.pos) → ∃ e, decode t c = .error (.error e)) ∧
    (∀ room ∈ t.rooms elementSize c, room.at'.data = c.data ∧ room.at'.pos ≤ c.data.length ∧
      room.made ≤ c.data.length - room.at'.pos) ∧
    (∀ v, fromBytes t c.data = .ok v →
      decode t ⟨c.data, 0⟩ = .ok (v, ⟨c.data, c.data.length⟩) ∧
      (t.Ordered → t.Spelt LengthSpelt v c.data ∧
        ∀ bs, t.Spelt LengthMinimal v bs ↔ bs = toBytes it t v)) := by
  refine ⟨decode_ne_outOfBounds t hc, fun _ _ => decode_spelt hc,
    fun _ _ _ => decode_int_exact hc, fun _ _ _ => decode_uint_exact hc, decode_illegalHead hc,
    Ty.rooms_modest elementSize t c hc, ?_⟩
  intro v hv
  have hd := fromBytes_eq_ok hv
  refine ⟨hd, fun ho => ?_⟩
  obtain ⟨-, -, -, hspelt⟩ := decode_spelt (Nat.zero_le _) hd
  have hwhole : substr c.data 0 (c.data.length - 0) = c.data := List.take_length
  rw [hwhole] at hspelt
  refine ⟨hspelt, fun bs => ?_⟩
  rw [toBytes_eq]
  constructor
  · exact Ty.Spelt.eq_layout it t ho v bs
  · rintro rfl
    exact Ty.Spelt.minimal it t ho v c.data hspelt

/-- A count of one behind the widest marker: the value is read, and written with its own. -/
theorem decode_safe_wideMarker :
    fromBytes (.array .boolean) [253, 1, 0, 0, 0, 0, 0, 0, 0, 1] = .ok [true] ∧
    ∀ bs, (Ty.array .boolean).Spelt LengthMinimal [true] bs ↔ bs = [1, 1] := by
  have hread : fromBytes (.array .boolean) [253, 1, 0, 0, 0, 0, 0, 0, 0, 1] = .ok [true] := rfl
  refine ⟨hread, fun bs => ?_⟩
  have hagain := ((decode_safe default (fun _ => 1) (.array .boolean)
    ⟨[253, 1, 0, 0, 0, 0, 0, 0, 0, 1], 0⟩ (by decide)).2.2.2.2.2.2 [true] hread).2 trivial
  have hbytes : toBytes default (.array .boolean) [true] = [1, 1] :=
    toBytes_eq default (.array .boolean) [true]
  exact (hagain.2 bs).trans (iff_of_eq (congrArg (bs = ·) hbytes))

end Kotatsu.Codec.Bincode
