import Kotatsu.Codec.Blob.Encode
import Kotatsu.Codec.Blob.Safety

/-!
# The bytes that hold a value

`Ty.Holds` is the layout with the value in it: the same chain of parts as `Ty.Laid`,
each scalar the image of its value and each sequence as long as its value. Bytes that
hold a value are laid out and are copied out as that value, and bytes that are laid out
hold the one they are copied out as. What a value leaves open is the padding of its
records and the gaps between its parts.
-/

namespace Kotatsu.Codec.Blob

open Kotatsu.Core
open Kotatsu.Codec.Bincode (Width)

/-! ## Scalars -/

theorem Arithmetic.length_image (a : Arithmetic) (v : a.Val) :
    (a.image v).length = bytesOf a.width := by
  cases a with
  | bool => rfl
  | char => exact length_leBytes _ _
  | signed w => exact length_leBytes _ _
  | unsigned w => exact length_leBytes _ _
  | float => exact length_leBytes _ _
  | double => exact length_leBytes _ _

private theorem ofNat_leValue {n : Nat} (v : BitVec (8 * n)) :
    BitVec.ofNat (8 * n) (leValue (leBytes n v.toNat)) = v := by
  rw [leValue_leBytes_of_lt v.isLt, BitVec.ofNat_toNat, BitVec.setWidth_eq]

private theorem leBytes_ofNat {n : Nat} {bs : Bytes} (h : bs.length = n) :
    leBytes n (BitVec.ofNat (8 * n) (leValue bs)).toNat = bs := by
  subst h
  rw [BitVec.toNat_ofNat, Nat.mod_eq_of_lt (leBytes_leValue bs).2]
  exact (leBytes_leValue bs).1

theorem Arithmetic.load_image (a : Arithmetic) (v : a.Val) : a.load (a.image v) = v := by
  cases a with
  | bool => cases v <;> rfl
  | char => exact ofNat_leValue (n := 1) v
  | signed w => exact ofNat_leValue v
  | unsigned w => exact ofNat_leValue v
  | float => exact ofNat_leValue (n := 4) v
  | double => exact ofNat_leValue (n := 8) v

theorem Arithmetic.image_bool {a : Arithmetic} (h : a = .bool) (v : a.Val) :
    a.image v = [0] ∨ a.image v = [1] := by
  subst h
  cases (show Bool from v)
  · exact .inl rfl
  · exact .inr rfl

/-- The bytes of a scalar are the image of what they are loaded as, if a bool is 0 or 1. -/
theorem Arithmetic.image_load (a : Arithmetic) {bs : Bytes} (h : bs.length = bytesOf a.width)
    (hbool : a = .bool → bs = [0] ∨ bs = [1]) : a.image (a.load bs) = bs := by
  cases a with
  | bool =>
    obtain rfl | rfl := hbool rfl
    · rfl
    · rfl
  | char => exact leBytes_ofNat (n := 1) h
  | signed w => exact leBytes_ofNat h
  | unsigned w => exact leBytes_ofNat h
  | float => exact leBytes_ofNat (n := 4) h
  | double => exact leBytes_ofNat (n := 8) h

/-! ## Values in place -/

/-- The values of a row of views, `step` bytes apart, each with its parts before those of the
next one. -/
def RowHolds {α : Type} (P : α → Nat → Nat → Nat → Prop) (step : Nat) :
    List α → (at' c c' : Nat) → Prop
  | [], _, c, c' => c' = c
  | v :: vs, at', c, c' => ∃ m, P v at' c m ∧ RowHolds P step vs (at' + step) m c'

mutual

/-- The bytes hold the value at `at'`, with its parts from the cursor `c` to the cursor `c'`. -/
def Ty.Holds (bytes : Bytes) : (t : Ty) → t.Val → (at' c c' : Nat) → Prop
  | .scalar s, v, at', c, c' =>
    at' + bytesOf s.width ≤ bytes.length ∧
      substr bytes at' (bytesOf s.width) = s.arithmeticT.image v ∧ c' = c
  | .record _ _ fs, vs, at', c, c' => fs.Holds bytes vs 0 at' c c'
  | .vec e, ⟨l, _⟩, at', c, c' =>
    at' + 8 ≤ bytes.length ∧ Vec.size bytes at' = l.length ∧
      ((l = [] ∧ Vec.offset bytes at' = 0 ∧ c' = c) ∨
        (l ≠ [] ∧ Vec.first bytes at' = roundUp c (partAlignment e) ∧
          Vec.first bytes at' + l.length * e.size ≤ bytes.length ∧
          RowHolds (e.Holds bytes) e.size l (Vec.first bytes at')
            (Vec.first bytes at' + l.length * e.size) c'))

/-- The same of the fields of the record at `at'`, of which `pos` bytes precede them. -/
def Fields.Holds (bytes : Bytes) : (fs : Fields) → fs.Vals → (pos at' c c' : Nat) → Prop
  | .nil, _, _, _, c, c' => c' = c
  | .cons _ a t fs, (v, vs), pos, at', c, c' =>
    ∃ m, t.Holds bytes v (at' + fieldOffset pos a t) c m ∧
      fs.Holds bytes vs (fieldOffset pos a t + t.size) at' m c'

end

section Equations

variable {bytes : Bytes} {at' c c' : Nat}

theorem Ty.holds_scalar {s : Scalar} {v : (Ty.scalar s).Val} :
    (Ty.scalar s).Holds bytes v at' c c' ↔ at' + bytesOf s.width ≤ bytes.length ∧
      substr bytes at' (bytesOf s.width) = s.arithmeticT.image v ∧ c' = c := by
  rw [Ty.Holds]

theorem Ty.holds_record {own : Bool} {a : Width} {fs : Fields} {vs : (Ty.record own a fs).Val} :
    (Ty.record own a fs).Holds bytes vs at' c c' ↔ fs.Holds bytes vs 0 at' c c' := by
  rw [Ty.Holds]

theorem Fields.holds_nil {vs : Fields.nil.Vals} {pos : Nat} :
    Fields.nil.Holds bytes vs pos at' c c' ↔ c' = c := by
  rw [Fields.Holds]

theorem Fields.holds_cons {name : Bytes} {a : Width} {t : Ty} {fs : Fields} {v : t.Val}
    {vs : fs.Vals} {pos : Nat} :
    (Fields.cons name a t fs).Holds bytes (v, vs) pos at' c c' ↔
      ∃ m, t.Holds bytes v (at' + fieldOffset pos a t) c m ∧
        fs.Holds bytes vs (fieldOffset pos a t + t.size) at' m c' := by
  rw [Fields.Holds]

end Equations

/-- Where the parts of a row of values end. -/
def rowStop {α : Type} (stop : α → Nat → Nat) : List α → Nat → Nat
  | [], c => c
  | v :: vs, c => rowStop stop vs (stop v c)

mutual

/-- Where the parts of a value end that begin at the cursor `c`. -/
def Ty.stop : (t : Ty) → t.Val → Nat → Nat
  | .scalar _, _, c => c
  | .record _ _ fs, vs, c => fs.stop vs c
  | .vec e, ⟨l, _⟩, c =>
    if l = [] then c
    else rowStop e.stop l (roundUp c (partAlignment e) + l.length * e.size)

/-- Where those of the fields end. -/
def Fields.stop : (fs : Fields) → fs.Vals → Nat → Nat
  | .nil, _, c => c
  | .cons _ _ t fs, (v, vs), c => fs.stop vs (t.stop v c)

end

variable {α : Type} {step : Nat} {l : List α}

theorem RowHolds.stop_eq (P : α → Nat → Nat → Nat → Prop) (stop : α → Nat → Nat)
    (hP : ∀ v at' c c', P v at' c c' → c' = stop v c) :
    ∀ {at' c c'}, RowHolds P step l at' c c' → c' = rowStop stop l c := by
  induction l with
  | nil => exact fun h => h
  | cons v vs ih =>
    rintro at' c c' ⟨m, hm, hrest⟩
    rw [ih hrest, hP v at' c m hm, rowStop]

mutual

/-- Where the parts end depends on the value and on where they begin alone. -/
theorem Ty.Holds.stop_eq {bytes : Bytes} : ∀ (t : Ty) {v : t.Val} {at' c c' : Nat},
    t.Holds bytes v at' c c' → c' = t.stop v c
  | .scalar s, v, at', c, c', h => by
    rw [Ty.Holds] at h
    rw [Ty.stop]
    exact h.2.2
  | .record own a fs, vs, at', c, c', h => by
    rw [Ty.Holds] at h
    rw [Ty.stop]
    exact Fields.Holds.stop_eq fs h
  | .vec e, ⟨l, hl⟩, at', c, c', h => by
    rw [Ty.Holds] at h
    rw [Ty.stop]
    obtain ⟨hnil, -, rfl⟩ | ⟨hne, hfirst, -, hrow⟩ := h.2.2
    · rw [if_pos hnil]
    · rw [if_neg hne, ← hfirst]
      exact RowHolds.stop_eq (e.Holds bytes) e.stop (fun _ _ _ _ => Ty.Holds.stop_eq e) hrow

theorem Fields.Holds.stop_eq {bytes : Bytes} : ∀ (fs : Fields) {vs : fs.Vals}
    {pos at' c c' : Nat}, fs.Holds bytes vs pos at' c c' → c' = fs.stop vs c
  | .nil, _, pos, at', c, c', h => by
    rw [Fields.Holds] at h
    rw [Fields.stop]
    exact h
  | .cons name a t fs, (v, vs), pos, at', c, c', h => by
    rw [Fields.Holds] at h
    rw [Fields.stop]
    obtain ⟨m, hm, hrest⟩ := h
    rw [← Ty.Holds.stop_eq t hm]
    exact Fields.Holds.stop_eq fs hrest

end

/-! ## Bytes that hold a value are laid out -/

theorem RowHolds.threads (P : α → Nat → Nat → Nat → Prop) (Q : Nat → Nat → Nat → Prop)
    (hP : ∀ v at' c c', P v at' c c' → Q at' c c') :
    ∀ {at' c c'}, RowHolds P step l at' c c' → Threads Q step at' l.length c c' := by
  induction l with
  | nil => exact fun h => h
  | cons v vs ih => exact fun ⟨m, hm, hrest⟩ => ⟨m, hP v _ _ m hm, ih hrest⟩

private theorem getElem?_of_substr {bytes : Bytes} {at' : Nat} {b : UInt8}
    (h : substr bytes at' 1 = [b]) : bytes[at']? = some b := by
  have hget : (substr bytes at' 1)[0]? = bytes[at' + 0]? := getElem?_substr Nat.one_pos
  rw [h] at hget
  exact hget.symm

mutual

theorem Ty.Holds.laid {bytes : Bytes} : ∀ (t : Ty) {v : t.Val} {at' c c' : Nat},
    t.Holds bytes v at' c c' → t.Laid bytes at' c c'
  | .scalar s, v, at', c, c', h => by
    rw [Ty.Holds] at h
    rw [Ty.Laid]
    refine ⟨fun hbool => ?_, h.2.2⟩
    have hwidth : bytesOf s.width = 1 := by
      rw [Scalar.width, hbool]
      rfl
    have himage := h.2.1
    rw [hwidth] at himage
    obtain hzero | hone := Arithmetic.image_bool hbool v
    · exact ⟨0, getElem?_of_substr (himage.trans hzero), by decide⟩
    · exact ⟨1, getElem?_of_substr (himage.trans hone), by decide⟩
  | .record own a fs, vs, at', c, c', h => by
    rw [Ty.Holds] at h
    rw [Ty.Laid]
    exact Fields.Holds.laid fs h
  | .vec e, ⟨l, hl⟩, at', c, c', h => by
    rw [Ty.Holds] at h
    rw [Ty.Laid]
    obtain ⟨-, hsize, ⟨hnil, hoffset, hc⟩ | ⟨hne, hfirst, hend, hrow⟩⟩ := h
    · exact .inl ⟨by rw [hsize, hnil, List.length_nil], hoffset, hc⟩
    · rw [hsize]
      exact .inr ⟨List.length_pos_iff.mpr hne, hfirst, hend,
        RowHolds.threads (e.Holds bytes) (e.Laid bytes) (fun _ _ _ _ => Ty.Holds.laid e) hrow⟩

theorem Fields.Holds.laid {bytes : Bytes} : ∀ (fs : Fields) {vs : fs.Vals} {pos at' c c' : Nat},
    fs.Holds bytes vs pos at' c c' → fs.Laid bytes pos at' c c'
  | .nil, _, pos, at', c, c', h => by
    rw [Fields.Holds] at h
    rw [Fields.Laid]
    exact h
  | .cons name a t fs, (v, vs), pos, at', c, c', h => by
    rw [Fields.Holds] at h
    rw [Fields.Laid]
    obtain ⟨m, hm, hrest⟩ := h
    exact ⟨m, Ty.Holds.laid t hm, Fields.Holds.laid fs hrest⟩

end

/-! ## Copying a value out -/

theorem readAt_eq {bytes : Bytes} {at' count : Nat} (h : at' + count ≤ bytes.length) :
    readAt bytes at' count = .ok (substr bytes at' count) := if_pos h

theorem RowHolds.readEach_eq (P : α → Nat → Nat → Nat → Prop) (read : Nat → Except Stop α)
    (hP : ∀ v at' c c', P v at' c c' → read at' = .ok v) :
    ∀ {at' c c'}, RowHolds P step l at' c c' → readEach read step at' l.length = .ok l := by
  induction l with
  | nil => exact fun _ => rfl
  | cons v vs ih =>
    rintro at' c c' ⟨m, hm, hrest⟩
    rw [List.length_cons, readEach, hP v at' c m hm, ih hrest]
    rfl

mutual

/-- Bytes that hold a value are copied out as it. -/
theorem Ty.Holds.decode_eq {bytes : Bytes} : ∀ (t : Ty) {v : t.Val} {at' c c' : Nat},
    t.Holds bytes v at' c c' → t.decode bytes at' = .ok v
  | .scalar s, v, at', c, c', h => by
    rw [Ty.Holds] at h
    rw [Ty.decode, readAt_eq h.1, h.2.1]
    exact congrArg Except.ok (Arithmetic.load_image _ v)
  | .record own a fs, vs, at', c, c', h => by
    rw [Ty.Holds] at h
    rw [Ty.decode]
    exact Fields.Holds.decode_eq fs h
  | .vec e, ⟨l, hl⟩, at', c, c', h => by
    rw [Ty.Holds] at h
    obtain ⟨hin, hsize, hrest⟩ := h
    have hread : readEach (e.decode bytes) e.size (Vec.first bytes at') l.length = .ok l := by
      obtain ⟨rfl, -⟩ | ⟨-, -, -, hrow⟩ := hrest
      · rfl
      · exact RowHolds.readEach_eq (e.Holds bytes) (e.decode bytes)
          (fun _ _ _ _ => Ty.Holds.decode_eq e) hrow
    rw [Ty.decode, readAt_eq hin, hsize, hread]
    exact dif_pos hl

theorem Fields.Holds.decode_eq {bytes : Bytes} : ∀ (fs : Fields) {vs : fs.Vals}
    {pos at' c c' : Nat}, fs.Holds bytes vs pos at' c c' → fs.decode bytes pos at' = .ok vs
  | .nil, _, pos, at', c, c', h => by rw [Fields.decode]; rfl
  | .cons name a t fs, (v, vs), pos, at', c, c', h => by
    rw [Fields.Holds] at h
    obtain ⟨m, hm, hrest⟩ := h
    rw [Fields.decode, Ty.Holds.decode_eq t hm, Fields.Holds.decode_eq fs hrest]
    rfl

end

theorem Threads.holds (P : Nat → Nat → Nat → Prop) (Q : α → Nat → Nat → Nat → Prop)
    (read : Nat → Except Stop α) {step limit : Nat}
    (hP : ∀ p c c', p + step ≤ limit → P p c c' → ∃ v, read p = .ok v ∧ Q v p c c') {count : Nat} :
    ∀ {at' c c'}, Threads P step at' count c c' → at' + count * step ≤ limit →
      ∃ l, readEach read step at' count = .ok l ∧ l.length = count ∧
        RowHolds Q step l at' c c' := by
  induction count with
  | zero => exact fun h _ => ⟨[], rfl, rfl, h⟩
  | succ count ih =>
    rintro at' c c' ⟨m, hm, hrest⟩ hle
    rw [Nat.succ_mul] at hle
    obtain ⟨v, hv, hQ⟩ := hP at' c m (by omega) hm
    obtain ⟨vs, hvs, hlen, hrow⟩ := ih hrest (by omega)
    refine ⟨v :: vs, ?_, by rw [List.length_cons, hlen], m, hQ, hrow⟩
    rw [readEach, hv, hvs]
    rfl

mutual

/-- Bytes that are laid out hold the value they are copied out as. -/
theorem Ty.Laid.holds {bytes : Bytes} (hlen : bytes.length < 2 ^ 32) : ∀ (t : Ty)
    {at' c c' : Nat}, t.Laid bytes at' c c' → at' + t.size ≤ bytes.length →
      ∃ v, t.decode bytes at' = .ok v ∧ t.Holds bytes v at' c c'
  | .scalar s, at', c, c', h, hat => by
    rw [Ty.Laid] at h
    rw [Ty.size] at hat
    have hcut : (substr bytes at' (bytesOf s.width)).length = bytesOf s.width := by
      rw [length_substr]
      omega
    have himage : s.arithmeticT.image (s.arithmeticT.load (substr bytes at' (bytesOf s.width))) =
        substr bytes at' (bytesOf s.width) := by
      refine Arithmetic.image_load _ hcut fun hbool => ?_
      obtain ⟨b, hb, hle⟩ := h.1 hbool
      have hwidth : bytesOf s.width = 1 := by
        rw [Scalar.width, hbool]
        rfl
      have hone : substr bytes at' 1 = [b] := by
        apply List.ext_getElem?
        intro i
        cases i with
        | zero => rw [getElem?_substr Nat.one_pos]; exact hb
        | succ i =>
          rw [List.getElem?_eq_none (by rw [length_substr]; omega)]
          rfl
      rw [hwidth, hone]
      obtain rfl | rfl := le_one_iff.mp hle
      · exact .inl rfl
      · exact .inr rfl
    refine ⟨s.arithmeticT.load (substr bytes at' (bytesOf s.width)), ?_, ?_⟩
    · rw [Ty.decode, readAt_eq hat]
      rfl
    · exact Ty.holds_scalar.mpr ⟨hat, himage.symm, h.2⟩
  | .record own a fs, at', c, c', h, hat => by
    rw [Ty.Laid] at h
    have hend := le_roundUp (max 1 (fs.endFrom 0)) (bytesOf_pos (maxWidth a fs.align))
    have hfields : at' + fs.endFrom 0 ≤ bytes.length := by
      rw [Ty.size] at hat
      omega
    obtain ⟨vs, hvs, hholds⟩ := Fields.Laid.holds hlen fs h hfields
    refine ⟨vs, ?_, ?_⟩
    · rw [Ty.decode]
      exact hvs
    · exact Ty.holds_record.mpr hholds
  | .vec e, at', c, c', h, hat => by
    rw [Ty.Laid] at h
    rw [Ty.size] at hat
    obtain ⟨hzero, hoffset, hc⟩ | ⟨hpos, hfirst, hend, hthreads⟩ := h
    · refine ⟨⟨[], by rw [List.length_nil, Nat.zero_mul]; decide⟩, ?_, ?_⟩
      · rw [Ty.decode, readAt_eq hat, hzero]
        exact dif_pos (by rw [List.length_nil, Nat.zero_mul]; decide)
      · rw [Ty.Holds]
        exact ⟨hat, hzero, .inl ⟨rfl, hoffset, hc⟩⟩
    · obtain ⟨l, hl, hlength, hrow⟩ := Threads.holds (e.Laid bytes) (e.Holds bytes)
        (e.decode bytes) (fun p c c' hp hp' => Ty.Laid.holds hlen e hp' hp) hthreads hend
      have hfit : l.length * e.size < 2 ^ 63 := by
        rw [hlength]
        omega
      refine ⟨⟨l, hfit⟩, ?_, ?_⟩
      · rw [Ty.decode, readAt_eq hat, hl]
        exact dif_pos hfit
      · have hne : l ≠ [] := List.length_pos_iff.mp (by omega)
        rw [Ty.Holds, hlength]
        exact ⟨hat, rfl, .inr ⟨hne, hfirst, hend, hrow⟩⟩

theorem Fields.Laid.holds {bytes : Bytes} (hlen : bytes.length < 2 ^ 32) : ∀ (fs : Fields)
    {pos at' c c' : Nat}, fs.Laid bytes pos at' c c' → at' + fs.endFrom pos ≤ bytes.length →
      ∃ vs, fs.decode bytes pos at' = .ok vs ∧ fs.Holds bytes vs pos at' c c'
  | .nil, pos, at', c, c', h, hat => by
    rw [Fields.Laid] at h
    exact ⟨(), by rw [Fields.decode], Fields.holds_nil.mpr h⟩
  | .cons name a t fs, pos, at', c, c', h, hat => by
    rw [Fields.Laid] at h
    obtain ⟨m, hm, hrest⟩ := h
    have hle := le_endFrom fs (fieldOffset pos a t + t.size)
    rw [Fields.endFrom] at hat
    obtain ⟨v, hv, hholds⟩ := Ty.Laid.holds hlen t hm (by omega)
    obtain ⟨vs, hvs, hholds'⟩ := Fields.Laid.holds hlen fs hrest hat
    refine ⟨(v, vs), ?_, ?_⟩
    · rw [Fields.decode, hv, hvs]
      rfl
    · exact Fields.holds_cons.mpr ⟨m, hholds, hholds'⟩

end

end Kotatsu.Codec.Blob
