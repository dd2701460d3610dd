import Kotatsu.Codec.Bincode.Reader

/-!
# What is written is read back

Each visit of the reader reads exactly the bytes the writer's visit of the same
name appends, and the two visitors go through a value in the same order, so by
induction on the type the reader gives back any value from its bytes, wherever
they stand and whatever follows them.
-/

namespace Kotatsu.Codec.Bincode

open Kotatsu.Core

/-! ## Visits -/

variable {α γ : Type} {bs : Bytes} {a : α} {n raw : Nat} {w : Width} {t : Ty}

/-- A check for bytes that are about to be read passes. -/
theorem Reads.check {d : Decode α} (h : Reads d bs a) (hn : n ≤ bs.length) :
    Reads (checkRemaining n >>= fun _ => d) bs a := by
  intro before after
  have henough : ¬n > (before ++ bs ++ after).length - before.length := by
    simp only [List.length_append]
    omega
  have hcheck : checkRemaining n ⟨before ++ bs ++ after, before.length⟩ =
      .ok ((), ⟨before ++ bs ++ after, before.length⟩) := by
    simp only [checkRemaining, henough, ite_false]
  rw [ReadM.bind_of_ok hcheck, h before after]

theorem reads_readU8 (b : UInt8) : Reads readU8 [b] b := by
  intro before after
  have hat : (before ++ [b] ++ after)[before.length]? = some b := by
    rw [List.append_assoc, List.getElem?_append_right (Nat.le_refl _), Nat.sub_self]
    rfl
  simp only [readU8, hat, List.length_singleton]

theorem reads_readLe (h : raw < 2 ^ (8 * n)) : Reads (readLe n) (leBytes n raw) raw := by
  have hslice : Reads (ReadM.slice (leBytes n raw).length : Decode Bytes) (leBytes n raw)
      (leBytes n raw) := Reads.slice (leBytes n raw)
  rw [length_leBytes] at hslice
  have hread := Reads.bind_pure (g := leValue) hslice
  rwa [leValue_leBytes_of_lt h] at hread

theorem reads_readWide (h : raw < 2 ^ (8 * n)) : Reads (readWide n) (leBytes n raw) raw :=
  Reads.check (reads_readLe h) (by rw [length_leBytes])

/-- Reading one byte and going on with it. -/
theorem reads_byte {f : UInt8 → Decode α} {b : UInt8} (h : Reads (f b) bs a) :
    Reads (checkRemaining 1 >>= fun _ => readU8 >>= f) (b :: bs) a :=
  Reads.check (d := readU8 >>= f) (Reads.bind (reads_readU8 b) h)
    (by rw [List.length_cons]; omega)

/-- Lengths of every width are read back. -/
theorem reads_readLength (h : n < 2 ^ 64) : Reads readLength (lengthBytes n) n := by
  unfold lengthBytes readLength
  split
  · next hn =>
    apply reads_byte
    have hval : (UInt8.ofNat n).toNat = n := by
      rw [UInt8.toNat_ofNat']
      omega
    have hlt : UInt8.ofNat n < LengthMarker.u16.toUnderlying := by
      rw [UInt8.lt_iff_toNat_lt, hval]
      exact hn
    rw [ite_cond_eq_true _ _ (eq_true hlt), hval]
    exact Reads.pure n
  · split
    · next hn => exact reads_byte (reads_readWide (n := 2) (by omega))
    · split
      · next hn => exact reads_byte (reads_readWide (n := 4) (by omega))
      · exact reads_byte (reads_readWide (n := 8) h)

theorem reads_visitBool (v : Bool) : Reads visitBool [bif v then 1 else 0] v := by
  cases v <;> exact reads_byte (Reads.pure _)

theorem reads_visitNarrow {α : Type} {narrow : Nat → Option α} {raw : Nat} {a : α}
    (hraw : raw < 2 ^ 64) (h : narrow raw = some a) :
    Reads (visitNarrow narrow) (leBytes 8 raw) a := by
  refine Reads.check ?_ (by rw [length_leBytes])
  rw [← List.append_nil (leBytes 8 raw)]
  apply Reads.bind (reads_readLe hraw)
  rw [h]
  exact Reads.pure a

theorem narrowSigned_val (v : SignedInt w) : narrowSigned w v.val = some v := by
  rw [narrowSigned, dite_cond_eq_true (eq_true v.property)]
  rfl

theorem narrowUnsigned_val (v : UnsignedInt w) : narrowUnsigned w v.val = some v := by
  rw [narrowUnsigned, dite_cond_eq_true (eq_true v.property)]
  rfl

/-- An integer of any width survives its widening to 64 bits. -/
theorem toInt_ofInt_val (v : SignedInt w) :
    (BitVec.ofNat 64 (BitVec.ofInt 64 v.val).toNat).toInt = v.val := by
  have hpow : (2 : Int) ^ (w.bits - 1) ≤ 2 ^ 63 := by
    cases w <;> decide
  obtain ⟨hlo, hhi⟩ := v.property
  rw [BitVec.ofNat_toNat, BitVec.setWidth_eq, BitVec.toInt_ofInt]
  apply Int.bmod_eq_of_le <;> omega

theorem reads_visitInt (v : SignedInt w) : Reads (visitInt w) (intBytes v.val) v := by
  apply reads_visitNarrow (BitVec.isLt _)
  rw [toInt_ofInt_val, narrowSigned_val]

theorem UnsignedInt.lt_two_pow (v : UnsignedInt w) : v.val < 2 ^ 64 :=
  v.property.trans_le (Nat.pow_le_pow_right (by decide) w.bits_le)

theorem reads_visitUint (v : UnsignedInt w) : Reads (visitUint w) (leBytes 8 v.val) v :=
  reads_visitNarrow v.lt_two_pow (narrowUnsigned_val v)

theorem reads_visitBlob {bytes : Bytes} (h : bytes.length < 2 ^ 64) :
    Reads visitBlob (blobBytes bytes) bytes :=
  Reads.bind (reads_readLength h) (Reads.check (Reads.slice bytes) (Nat.le_refl _))

theorem reads_visitChar (v : UInt8) : Reads visitChar [v] v :=
  Reads.check (reads_readU8 v) (Nat.le_refl _)

theorem reads_visitNull : Reads visitNull [0] () := reads_byte (Reads.pure ())

theorem reads_visitOption_none (body : Decode α) :
    Reads (visitOption body) [0] none := reads_byte (Reads.pure none)

theorem reads_visitOption_some {body : Decode α} {v : α} (h : Reads body bs v) :
    Reads (visitOption body) (1 :: bs) (some v) :=
  reads_byte (Reads.bind_pure h)

/-- The loop over a container reads its elements one after the other. -/
theorem reads_visitElements {element : Decode α} {append : γ → α → γ} {g : α → Bytes} {vs : List α}
    (h : ∀ v ∈ vs, Reads element (g v) v) (idx : Nat) (out : γ) :
    Reads (visitElements element append vs.length idx out) (vs.flatMap g)
      (vs.foldl append out) := by
  induction vs generalizing idx out with
  | nil => exact Reads.pure out
  | cons v vs ih =>
    have hfirst := (h v (List.mem_cons_self ..)).mapError
      (f := fun e => { e with path := PathSegment.index idx :: e.path })
    exact Reads.bind hfirst (ih (fun x hx => h x (List.mem_cons_of_mem _ hx)) (idx + 1) _)

theorem reads_visitSeq {element : Decode α} {g : α → Bytes} {vs : List α} (append : γ → α → γ)
    (empty : γ) (hlen : vs.length < 2 ^ 64) (h : ∀ v ∈ vs, Reads element (g v) v) :
    Reads (visitSeq element append empty) (elementsBytes g vs) (vs.foldl append empty) :=
  Reads.bind (reads_readLength hlen) (reads_visitElements h 0 empty)

theorem reads_visitMap {α β γ : Type} {key : Decode α} {value : Decode β} {gk : α → Bytes}
    {gv : β → Bytes} {es : List (α × β)} (insert : γ → α × β → γ) (empty : γ)
    (hlen : es.length < 2 ^ 64)
    (h : ∀ e ∈ es, Reads key (gk e.1) e.1 ∧ Reads value (gv e.2) e.2) :
    Reads (visitMap key value insert empty) (entriesBytes gk gv es) (es.foldl insert empty) := by
  have hentry : ∀ e ∈ es, Reads (visitEntry key value) (gk e.1 ++ gv e.2) e := by
    intro e he
    exact Reads.bind (h e he).1 (Reads.bind_pure (h e he).2)
  exact Reads.bind (reads_readLength hlen) (reads_visitElements hentry 0 empty)

theorem foldl_appendSequenceElement (vs out : List α) :
    vs.foldl appendSequenceElement out = out ++ vs := by
  induction vs generalizing out with
  | nil => rw [List.foldl_nil, List.append_nil]
  | cons v vs ih =>
    rw [List.foldl_cons, ih, appendSequenceElement, List.append_assoc, List.singleton_append]

theorem reads_visitVariant {index : Nat} (body : Nat → Decode α) (hi : index < 2 ^ 32)
    (h : Reads (body index) bs a) :
    Reads (visitVariant body) (leBytes 4 (index % 2 ^ 32) ++ bs) a := by
  rw [Nat.mod_eq_of_lt hi]
  apply Reads.check (Reads.bind (reads_readLe hi) h)
  rw [List.length_append, length_leBytes]
  omega

/-! ## Values -/

theorem Tys.Alt.index_lt : {ts : Tys} → (a : ts.Alt) → a.index < ts.size
  | .cons _ ts, .inl _ => Nat.succ_pos ts.size
  | .cons _ _, .inr a => Nat.succ_lt_succ (Tys.Alt.index_lt a)

theorem Underlying.reads_decode : (u : Underlying) → (v : u.Val) → Reads u.decode (u.layout v) v
  | .signed _, v => reads_visitInt v
  | .unsigned _, v => reads_visitUint v
  | .bool, v => by
    apply reads_visitNarrow
    · cases v <;> decide
    · cases v <;> rfl

section Containers

variable (it : Iteration)

private theorem reads_array {vs : List t.Val} (hlen : vs.length < 2 ^ 64)
    (h : ∀ v ∈ vs, Reads (decode t) (t.layout it v) v) :
    Reads (visitSeq (decode t) appendSequenceElement []) (elementsBytes (t.layout it) vs) vs := by
  have hread := reads_visitSeq appendSequenceElement [] hlen h
  rwa [foldl_appendSequenceElement, List.nil_append] at hread

private theorem reads_set {s : Finset t.Val} (hcard : s.card < 2 ^ 64)
    (h : ∀ v ∈ s, Reads (decode t) (t.layout it v) v) :
    Reads (visitSeq (decode t) insertSetElement ∅)
      (elementsBytes (t.layout it) (it.elements t s)) s := by
  have hread := reads_visitSeq insertSetElement ∅
    (by rwa [it.length_elements]) fun v hv => h v ((it.mem_elements t s v).mp hv)
  rwa [show (it.elements t s).foldl insertSetElement ∅ = s from it.foldl_insert_elements s]
    at hread

private theorem reads_map {k v : Ty} {m : Finmap fun _ : k.Val => v.Val}
    (hcard : m.keys.card < 2 ^ 64)
    (h : ∀ a b, m.lookup a = some b →
      Reads (decode k) (k.layout it a) a ∧ Reads (decode v) (v.layout it b) b) :
    Reads (visitMap (decode k) (decode v) insertMapEntry ∅)
      (entriesBytes (k.layout it) (v.layout it) (it.entries k v m)) m := by
  have hread := reads_visitMap insertMapEntry ∅ (by rwa [it.length_entries])
    fun e he => h e.1 e.2 ((it.mem_entries k v m e.1 e.2).mp he)
  rwa [show (it.entries k v m).foldl insertMapEntry ∅ = m from it.foldl_insert_entries m] at hread

end Containers

mutual

/-- The reader gives back a value from its bytes. -/
theorem reads_decode (it : Iteration) : (t : Ty) → (v : t.Val) → t.Fits v →
    Reads (decode t) (t.layout it v) v
  | .boolean, v, _ => reads_visitBool v
  | .int _, v, _ => reads_visitInt v
  | .uint _, v, _ => reads_visitUint v
  | .character, v, _ => reads_visitChar v
  | .string, _, h => reads_visitBlob h
  | .bytes, _, h => reads_visitBlob h
  | .null, _, _ => reads_visitNull
  | .monostate, _, _ => Reads.pure ()
  | .optional t, some v, h => reads_visitOption_some (reads_decode it t v (h v rfl))
  | .optional t, none, _ => reads_visitOption_none (decode t)
  | .enumeration u, v, _ => u.reads_decode v
  | .array t, _, ⟨hlen, h⟩ => reads_array it hlen fun v hv => reads_decode it t v (h v hv)
  | .set t, _, ⟨hcard, h⟩ => reads_set it hcard fun v hv => reads_decode it t v (h v hv)
  | .tuple ts, vs, h => reads_decodeTuple it 0 ts vs h
  | .map k v, _, ⟨hcard, h⟩ => reads_map it hcard fun a b hab =>
      ⟨reads_decode it k a (h a b hab).1, reads_decode it v b (h a b hab).2⟩
  | .struct fs, vs, h => reads_decodeStructFields it fs vs h
  | .variant ts, a, ⟨hi, h⟩ => by
    refine reads_visitVariant (fun index =>
      if ts.size ≤ index then fail (invalidVariantIndex index) else decodeAlternative ts index)
      hi ?_
    have hlt : ¬ts.size ≤ Tys.Alt.index a := Nat.not_le_of_lt (Tys.Alt.index_lt a)
    rw [ite_cond_eq_false _ _ (eq_false hlt)]
    exact reads_decodeAlternative it ts a h

theorem reads_decodeTuple (it : Iteration) : (i : Nat) → (ts : Tys) → (vs : ts.Vals) →
    ts.FitsAll vs → Reads (decodeTuple i ts) (ts.layoutAll it vs) vs
  | _, .nil, _, _ => Reads.pure ()
  | i, .cons t ts, (v, vs), ⟨hv, hvs⟩ =>
    Reads.bind (reads_decode it t v hv).mapError
      (Reads.bind_pure (reads_decodeTuple it (i + 1) ts vs hvs))

theorem reads_decodeAlternative (it : Iteration) : (ts : Tys) → (a : ts.Alt) → ts.FitsAlt a →
    Reads (decodeAlternative ts a.index) (ts.layoutAlt it a) a
  | .cons t _, .inl v, h => Reads.bind_pure (reads_decode it t v h)
  | .cons _ ts, .inr a, h => Reads.bind_pure (reads_decodeAlternative it ts a h)

theorem reads_decodeStructFields (it : Iteration) : (fs : Fields) → (vs : fs.Vals) →
    fs.FitsAll vs → Reads (decodeStructFields fs) (fs.layoutAll it vs) vs
  | .nil, _, _ => Reads.pure ()
  | .cons _ t fs, (v, vs), ⟨hv, hvs⟩ =>
    Reads.bind (reads_decode it t v hv).mapError
      (Reads.bind_pure (reads_decodeStructFields it fs vs hvs))

end

theorem Value.reads_toBytes (it : Iteration) (v : Value t) :
    Reads (decode t) (toBytes it t v.val) v.val := by
  rw [toBytes_eq]
  exact reads_decode it t v.val v.property

/-- A document is read back whole as the value it was written from. -/
theorem Value.fromBytes_toBytes (it : Iteration) (v : Value t) :
    fromBytes t (toBytes it t v.val) = .ok v.val := by
  have hread := v.reads_toBytes it [] []
  simp only [List.nil_append, List.append_nil, List.length_nil, Nat.zero_add] at hread
  rw [fromBytes, hread]
  simp only [ne_eq, not_true_eq_false, ite_false]

/-- Decoding what was encoded yields the value and leaves exactly what follows,
so a document round-trips, and no document of a type is a proper beginning of
another one, whatever orders their containers give their elements in. -/
theorem decode_toBytes_append (it : Iteration) (t : Ty) (v : Value t) :
    (∀ rest : Bytes, ∃ r, decode t ⟨toBytes it t v.val ++ rest, 0⟩ = .ok (v.val, r) ∧
      r.data = toBytes it t v.val ++ rest ∧ r.data.drop r.pos = rest) ∧
    fromBytes t (toBytes it t v.val) = .ok v.val ∧
    ∀ (it' : Iteration) (v' : Value t), toBytes it t v.val <+: toBytes it' t v'.val →
      toBytes it t v.val = toBytes it' t v'.val := by
  refine ⟨fun rest => (v.reads_toBytes it).drop_eq rest, v.fromBytes_toBytes it, ?_⟩
  intro it' v' hp
  exact ((v.reads_toBytes it).prefix_free (v'.reads_toBytes it') hp).1

end Kotatsu.Codec.Bincode
