import Kotatsu.Codec.Bincode.Safety

/-!
# Reading the beginning of a document

A visit fails where its bytes are not all there, and looks at none after them, so
whatever is decoded from the beginning of some bytes is decoded from all of them.
-/

namespace Kotatsu.Codec.Bincode

open Kotatsu.Core

/-! ## Visits -/

theorem extends_checkRemaining (n : Nat) : Extends (checkRemaining n) := by
  intro c c' a h
  unfold checkRemaining at h
  split at h
  · cases h
  · next hn =>
    cases h
    refine ⟨rfl, fun more => ?_⟩
    have hn' : ¬n > (c.data ++ more).length - c.pos := by
      rw [List.length_append]
      omega
    rw [checkRemaining, if_neg hn']

theorem extends_readU8 : Extends readU8 := by
  intro c c' a h
  unfold readU8 at h
  split at h
  · next byte hbyte =>
    obtain ⟨rfl, rfl⟩ := Prod.mk.inj (Except.ok.inj h)
    refine ⟨rfl, fun more => ?_⟩
    have hlt : c.pos < c.data.length := (List.getElem?_eq_some_iff.mp hbyte).1
    have hbyte' : (c.data ++ more)[c.pos]? = some byte := by
      rw [List.getElem?_append_left hlt, hbyte]
    simp only [readU8, hbyte']
  · cases h

theorem extends_readLe (n : Nat) : Extends (readLe n) :=
  Extends.bind (Extends.slice n) fun _ => Extends.pure _

theorem extends_readWide (n : Nat) : Extends (readWide n) :=
  Extends.bind (extends_checkRemaining n) fun _ => extends_readLe n

variable {α γ : Type}

/-- One byte, and what is made of it. -/
theorem extends_byte {f : UInt8 → Decode α} (h : ∀ b, Extends (f b)) :
    Extends (checkRemaining 1 >>= fun _ => readU8 >>= f) :=
  Extends.bind (extends_checkRemaining 1) fun _ => Extends.bind extends_readU8 h

theorem extends_readLength : Extends readLength :=
  extends_byte fun _ => Extends.ite (Extends.pure _) <| Extends.ite (extends_readWide 2) <|
    Extends.ite (extends_readWide 4) <| Extends.ite (extends_readWide 8) (Extends.fail _)

theorem extends_visitBool : Extends visitBool :=
  extends_byte fun _ => Extends.ite (Extends.fail _) (Extends.pure _)

theorem extends_visitNarrow (narrow : Nat → Option α) : Extends (visitNarrow narrow) := by
  refine Extends.bind (extends_checkRemaining 8) fun _ =>
    Extends.bind (extends_readLe 8) fun raw => ?_
  cases narrow raw with
  | some out => exact Extends.pure out
  | none => exact Extends.fail _

theorem extends_visitBlob : Extends visitBlob :=
  Extends.bind extends_readLength fun n =>
    Extends.bind (extends_checkRemaining n) fun _ => Extends.slice n

theorem extends_visitChar : Extends visitChar :=
  Extends.bind (extends_checkRemaining 1) fun _ => extends_readU8

theorem extends_visitNull : Extends visitNull :=
  extends_byte fun _ => Extends.ite (Extends.fail _) (Extends.pure ())

theorem extends_visitOption {body : Decode α} (h : Extends body) : Extends (visitOption body) :=
  extends_byte fun _ => Extends.ite (Extends.pure none) <| Extends.ite (Extends.fail _) <|
    Extends.bind h fun _ => Extends.pure _

theorem extends_visitElements {element : Decode α} (append : γ → α → γ) (h : Extends element)
    (left idx : Nat) (out : γ) : Extends (visitElements element append left idx out) := by
  induction left generalizing idx out with
  | zero => exact Extends.pure out
  | succ left ih => exact Extends.bind h.mapError fun item => ih (idx + 1) (append out item)

theorem extends_visitSeq {element : Decode α} (append : γ → α → γ) (empty : γ)
    (h : Extends element) : Extends (visitSeq element append empty) :=
  Extends.bind extends_readLength fun count => extends_visitElements append h count 0 empty

theorem extends_visitMap {α β γ : Type} {key : Decode α} {value : Decode β}
    (insert : γ → α × β → γ) (empty : γ) (hk : Extends key) (hv : Extends value) :
    Extends (visitMap key value insert empty) :=
  extends_visitSeq insert empty
    (Extends.bind hk fun _ => Extends.bind hv fun _ => Extends.pure _)

theorem extends_visitVariant {body : Nat → Decode α} (h : ∀ index, Extends (body index)) :
    Extends (visitVariant body) :=
  Extends.bind (extends_checkRemaining 4) fun _ => Extends.bind (extends_readLe 4) h

/-! ## Values -/

theorem Underlying.extends_decode : (u : Underlying) → Extends u.decode
  | .signed _ => extends_visitNarrow _
  | .unsigned _ => extends_visitNarrow _
  | .bool => extends_visitNarrow _

mutual

/-- What is decoded from the beginning of some bytes is decoded from all of them. -/
theorem extends_decode : (t : Ty) → Extends (decode t)
  | .boolean => extends_visitBool
  | .int _ => extends_visitNarrow _
  | .uint _ => extends_visitNarrow _
  | .character => extends_visitChar
  | .string => extends_visitBlob
  | .bytes => extends_visitBlob
  | .null => extends_visitNull
  | .monostate => Extends.pure ()
  | .optional t => extends_visitOption (extends_decode t)
  | .enumeration u => u.extends_decode
  | .array t => extends_visitSeq _ _ (extends_decode t)
  | .set t => extends_visitSeq _ _ (extends_decode t)
  | .tuple ts => extends_decodeTuple 0 ts
  | .map k v => extends_visitMap _ _ (extends_decode k) (extends_decode v)
  | .struct fs => extends_decodeStructFields fs
  | .variant ts => extends_visitVariant fun index =>
    Extends.ite (Extends.fail _) (extends_decodeAlternative ts index)

theorem extends_decodeTuple : (i : Nat) → (ts : Tys) → Extends (decodeTuple i ts)
  | _, .nil => Extends.pure ()
  | i, .cons t ts => Extends.bind (extends_decode t).mapError fun _ =>
    Extends.bind (extends_decodeTuple (i + 1) ts) fun _ => Extends.pure _

theorem extends_decodeAlternative : (ts : Tys) → (index : Nat) →
    Extends (decodeAlternative ts index)
  | .nil, _ => Extends.fail _
  | .cons t _, 0 => Extends.bind (extends_decode t) fun _ => Extends.pure _
  | .cons _ ts, index + 1 =>
    Extends.bind (extends_decodeAlternative ts index) fun _ => Extends.pure _

theorem extends_decodeStructFields : (fs : Fields) → Extends (decodeStructFields fs)
  | .nil => Extends.pure ()
  | .cons _ t fs => Extends.bind (extends_decode t).mapError fun _ =>
    Extends.bind (extends_decodeStructFields fs) fun _ => Extends.pure _

end

/-! ## Documents that are cut short -/

/-- Cut inside a value, bytes that begin with it have none. -/
theorem decode_take {t : Ty} {c c' : Cursor} {v : t.Val} (hc : c.pos ≤ c.data.length)
    (hd : decode t c = .ok (v, c')) {k : Nat} (hstart : c.pos ≤ k) (hk : k < c'.pos) :
    ∃ e, decode t ⟨c.data.take k, c.pos⟩ = .error (.error e) := by
  have hin : c.pos ≤ (c.data.take k).length := by
    rw [List.length_take]
    exact le_min hstart hc
  cases hcut : decode t ⟨c.data.take k, c.pos⟩ with
  | error fault =>
    cases fault with
    | outOfBounds => exact absurd hcut (decode_ne_outOfBounds t hin)
    | error e => exact ⟨e, rfl⟩
  | ok read =>
    obtain ⟨w, d⟩ := read
    obtain ⟨-, hmore⟩ := extends_decode t _ _ _ hcut
    have hwhole := hmore (c.data.drop k)
    rw [List.take_append_drop, hd] at hwhole
    obtain ⟨-, rfl⟩ := Prod.mk.inj (Except.ok.inj hwhole)
    obtain ⟨-, -, hle, -⟩ := decode_spelt hin hcut
    exact absurd (hle.trans (List.length_take_le k _)) (Nat.not_le.mpr hk)

/-- A value is read with any bytes after it, and from no proper part of its own; a document that
is accepted, whoever wrote it, is the beginning of no other. -/
theorem decode_beginning (t : Ty) (c : Cursor) (hc : c.pos ≤ c.data.length) :
    (∀ v c', decode t c = .ok (v, c') →
      (∀ more, decode t ⟨c.data ++ more, c.pos⟩ = .ok (v, ⟨c.data ++ more, c'.pos⟩)) ∧
      ∀ k, c.pos ≤ k → k < c'.pos → ∃ e, decode t ⟨c.data.take k, c.pos⟩ = .error (.error e)) ∧
    ∀ more v w, fromBytes t c.data = .ok v → fromBytes t (c.data ++ more) = .ok w → more = [] := by
  refine ⟨fun v c' hd => ⟨(extends_decode t _ _ _ hd).2, fun k => decode_take hc hd⟩, ?_⟩
  intro more v w hv hw
  have hread := (extends_decode t _ _ _ (fromBytes_eq_ok hv)).2 more
  rw [fromBytes_eq_ok hw] at hread
  have hend : (c.data ++ more).length = c.data.length :=
    congrArg Cursor.pos (Prod.mk.inj (Except.ok.inj hread)).2
  rw [List.length_append, Nat.add_eq_left] at hend
  exact List.eq_nil_of_length_eq_zero hend

/-- A count of two behind a wider marker than it needs, cut inside the second element. -/
theorem decode_beginning_cut : ∃ e,
    decode (.array .boolean) ⟨[251, 2, 0, 1], 0⟩ = .error (.error e) :=
  ((decode_beginning (.array .boolean) ⟨[251, 2, 0, 1, 0], 0⟩ (by decide)).1 [true, false]
    ⟨[251, 2, 0, 1, 0], 5⟩ rfl).2 4 (by decide) (by decide)

end Kotatsu.Codec.Bincode
