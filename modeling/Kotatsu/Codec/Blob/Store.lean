import Kotatsu.Codec.Blob.Holds

/-!
# What the writer does

Every step of the writer says what it changed: the view it stores and what it appends,
and nothing else. What it has stored holds its value in all bytes that are the same
there, whether elements are copied in one piece or stored one by one. Where a part has
no room the flag stays set to the end.
-/

namespace Kotatsu.Codec.Blob

open Kotatsu.Core
open Kotatsu.Codec.Bincode (Width)

/-! ## Layouts end past their start -/

theorem le_rowStop {α : Type} {stop : α → Nat → Nat} (h : ∀ v c, c ≤ stop v c) {l : List α} :
    ∀ {c}, c ≤ rowStop stop l c := by
  induction l with
  | nil => exact fun {c} => Nat.le_refl c
  | cons v vs ih => exact fun {c} => (h v c).trans ih

mutual

theorem Ty.le_stop : ∀ (t : Ty) (v : t.Val) (c : Nat), c ≤ t.stop v c
  | .scalar s, v, c => by rw [Ty.stop]
  | .record own a fs, vs, c => by
    rw [Ty.stop]
    exact Fields.le_stop fs vs c
  | .vec e, ⟨l, _⟩, c => by
    rw [Ty.stop]
    split
    · exact Nat.le_refl c
    · have hround := le_roundUp c (partAlignment_pos e)
      have hrow : ∀ c, c ≤ rowStop e.stop l c := fun c => le_rowStop (Ty.le_stop e)
      exact (hround.trans (Nat.le_add_right _ _)).trans (hrow _)

theorem Fields.le_stop : ∀ (fs : Fields) (vs : fs.Vals) (c : Nat), c ≤ fs.stop vs c
  | .nil, _, c => by rw [Fields.stop]
  | .cons name a t fs, (v, vs), c => by
    rw [Fields.stop]
    exact (Ty.le_stop t v c).trans (Fields.le_stop fs vs _)

end

/-! ## What a store does -/

/-- The most bytes a blob has. -/
def limit : Nat := 2 ^ 32 - 1

/-- A store of a view of `size` bytes at `at'` that took the writer's bytes from `W` to `W'`, its
flag from `o` to `o'`, where the parts of the value end at `stop`. It changes no byte outside the
view and runs into no limit before its parts do; then `P` holds of all bytes that have the view
and the parts as it leaves them. -/
structure Stored (W W' : Bytes) (o o' : Bool) (at' size stop : Nat) (P : Bytes → Prop) : Prop where
  grows : W.length ≤ W'.length
  bounded : W'.length ≤ limit
  sticky : o = true → o' = true
  frame : ∀ i < W.length, i < at' ∨ at' + size ≤ i → W'[i]? = W[i]?
  fits : stop ≤ limit → o' = o ∧ W'.length = stop ∧
    ((∀ i, at' ≤ i → i < at' + size → W[i]? = some 0) → ∀ B : Bytes, W'.length ≤ B.length →
      AgreeOn B W' at' (at' + size) → AgreeOn B W' W.length W'.length → P B)
  spills : limit < stop → o' = true

/-- A store behind another one. -/
theorem Stored.seq {W W₁ W₂ : Bytes} {o o₁ o₂ : Bool} {a₁ s₁ a₂ s₂ a s stop₁ stop₂ stop : Nat}
    {P₁ P₂ P : Bytes → Prop} (h₁ : Stored W W₁ o o₁ a₁ s₁ stop₁ P₁)
    (h₂ : Stored W₁ W₂ o₁ o₂ a₂ s₂ stop₂ P₂) (ha : a ≤ a₁) (hbetween : a₁ + s₁ ≤ a₂)
    (hs : a₂ + s₂ ≤ a + s) (hin : a₂ + s₂ ≤ W.length) (hle : stop₁ ≤ stop)
    (hstop : W₁.length = stop₁ → stop₂ = stop)
    (hP : W₁.length = stop₁ → ∀ B, P₁ B → P₂ B → P B) : Stored W W₂ o o₂ a s stop P where
  grows := h₁.grows.trans h₂.grows
  bounded := h₂.bounded
  sticky ho := h₂.sticky (h₁.sticky ho)
  frame i hi hout := by
    have := h₁.grows
    rw [h₂.frame i (by omega) (by omega), h₁.frame i hi (by omega)]
  fits hstop' := by
    obtain ⟨ho₁, hlen₁, hP₁⟩ := h₁.fits (hle.trans hstop')
    obtain ⟨ho₂, hlen₂, hP₂⟩ := h₂.fits (hstop hlen₁ ▸ hstop')
    refine ⟨ho₂.trans ho₁, hlen₂.trans (hstop hlen₁), fun hzero B hB hview hparts => ?_⟩
    have hgrows₁ := h₁.grows
    have hgrows₂ := h₂.grows
    refine hP hlen₁ B (hP₁ (fun i hi hlt => hzero i (by omega) (by omega)) B (by omega) ?_ ?_)
      (hP₂ (fun i hi hlt => ?_) B hB ?_ ?_)
    · exact fun i hi hlt => (hview i (by omega) (by omega)).trans
        (h₂.frame i (by omega) (by omega))
    · exact fun i hi hlt => (hparts i hi (by omega)).trans (h₂.frame i hlt (by omega))
    · rw [h₁.frame i (by omega) (by omega)]
      exact hzero i (by omega) (by omega)
    · exact hview.mono (by omega) (by omega)
    · exact hparts.mono hgrows₁ (Nat.le_refl _)
  spills hstop' := by
    by_cases hfirst : limit < stop₁
    · exact h₂.sticky (h₁.spills hfirst)
    · have hlen₁ := (h₁.fits (Nat.not_lt.mp hfirst)).2.1
      exact h₂.spills (hstop hlen₁ ▸ hstop')

/-- A store of a part of a view is one of the view. -/
theorem Stored.widen {W W' : Bytes} {o o' : Bool} {a₁ s₁ a s stop : Nat} {P₁ P : Bytes → Prop}
    (h : Stored W W' o o' a₁ s₁ stop P₁) (ha : a ≤ a₁) (hs : a₁ + s₁ ≤ a + s)
    (hP : ∀ B, P₁ B → P B) : Stored W W' o o' a s stop P where
  grows := h.grows
  bounded := h.bounded
  sticky := h.sticky
  frame i hi hout := h.frame i hi (by omega)
  fits hstop := by
    obtain ⟨ho, hlen, hB⟩ := h.fits hstop
    refine ⟨ho, hlen, fun hzero B hle hview hparts =>
      hP B (hB (fun i hi hlt => ?_) B hle ?_ hparts)⟩
    · exact hzero i (by omega) (by omega)
    · exact hview.mono ha hs
  spills := h.spills

variable {W bytes : Bytes} {o : Bool} {at' : Nat} {P : Bytes → Prop} {e : Ty} {l : List e.Val}

/-- A store of nothing. -/
theorem Stored.refl (hW : W.length ≤ limit) (hP : ∀ B, P B) : Stored W W o o at' 0 W.length P where
  grows := Nat.le_refl _
  bounded := hW
  sticky ho := ho
  frame _ _ _ := rfl
  fits _ := ⟨rfl, rfl, fun _ B _ _ _ => hP B⟩
  spills hlt := absurd hW (by omega)

/-! ## Steps of the writer -/

theorem Writer.write_eq {data : Bytes} (h : at' + data.length ≤ W.length) :
    Writer.write at' data ⟨W, o⟩ = .ok ((), ⟨overwrite W at' data, o⟩) := if_pos h

/-- What `append` comes to for a part of less than 2^63 bytes. -/
theorem Writer.append_eq (W : Bytes) (o : Bool) (size align : Nat) (hW : W.length ≤ limit)
    (hsize : size < 2 ^ 63) (hpos : 0 < align) (halign : align ≤ 8) :
    Writer.append size align ⟨W, o⟩ =
      if roundUp W.length align + size > limit then .ok (none, ⟨W, true⟩)
      else .ok (some (roundUp W.length align), ⟨growTo W (roundUp W.length align + size), o⟩) := by
  have hlim : limit = 2 ^ 32 - 1 := rfl
  have hround := roundUp_lt W.length hpos
  have hget : (get : Write Writer) ⟨W, o⟩ = .ok (⟨W, o⟩, ⟨W, o⟩) := rfl
  have halignUp : alignUp .machine W.length align = .ok (roundUp W.length align) :=
    alignUp_eq Arithmetic64.machine_sound hpos (by omega)
  rw [Writer.append, Step.bind_of_ok hget, Step.lift_bind halignUp,
    Step.lift_bind (Arithmetic64.machine_sound.add (by omega)), ← hlim]
  split
  · rfl
  · rfl

/-- A write of all bytes of a view. -/
theorem Stored.write {data : Bytes} (hW : W.length ≤ limit) (hin : at' + data.length ≤ W.length)
    (hP : ∀ B : Bytes, W.length ≤ B.length → substr B at' data.length = data → P B) :
    Stored W (overwrite W at' data) o o at' data.length W.length P where
  grows := Nat.le_of_eq (length_overwrite hin).symm
  bounded := by rwa [length_overwrite hin]
  sticky ho := ho
  frame i _ hout := overwrite_outside hin hout
  fits _ := by
    refine ⟨rfl, length_overwrite hin, fun _ B hB hview _ => hP B ?_ ?_⟩
    · rwa [length_overwrite hin] at hB
    · rw [hview.substr_eq (Nat.le_refl _) (Nat.le_refl _), substr_overwrite hin]
  spills hlt := absurd hW (by omega)

/-- The stores of a row are one store of the row. -/
theorem Stored.row {α : Type} (store : Nat → α → Write Unit)
    (P : Bytes → α → Nat → Nat → Nat → Prop) (stop : α → Nat → Nat) {step : Nat}
    (hle : ∀ v c, c ≤ stop v c)
    (hstore : ∀ v at' W o, at' + step ≤ W.length → W.length ≤ limit →
      ∃ W' o', store at' v ⟨W, o⟩ = .ok ((), ⟨W', o'⟩) ∧
        Stored W W' o o' at' step (stop v W.length) fun B => P B v at' W.length (stop v W.length))
    {l : List α} : ∀ at' W o, at' + l.length * step ≤ W.length → W.length ≤ limit →
      ∃ W' o', Writer.storeEach store step at' l ⟨W, o⟩ = .ok ((), ⟨W', o'⟩) ∧
        Stored W W' o o' at' (l.length * step) (rowStop stop l W.length) fun B =>
          RowHolds (P B) step l at' W.length (rowStop stop l W.length) := by
  induction l with
  | nil =>
    intro at' W o _ hW
    refine ⟨W, o, rfl, ?_⟩
    rw [List.length_nil, Nat.zero_mul]
    exact Stored.refl hW fun B => rfl
  | cons v vs ih =>
    intro at' W o hin hW
    have hlim : limit = 2 ^ 32 - 1 := rfl
    rw [List.length_cons, Nat.succ_mul] at hin ⊢
    obtain ⟨W₁, o₁, heq₁, h₁⟩ := hstore v at' W o (by omega) hW
    have hgrows := h₁.grows
    obtain ⟨W₂, o₂, heq₂, h₂⟩ := ih (at' + step) W₁ o₁ (by omega) h₁.bounded
    refine ⟨W₂, o₂, ?_, h₁.seq h₂ (Nat.le_refl _) (Nat.le_refl _) (by omega) (by omega)
      (le_rowStop hle) (fun hlen => by rw [hlen, rowStop]) fun hlen B hv hrow => ?_⟩
    · rw [Writer.storeEach, Step.bind_of_ok heq₁,
        Step.lift_bind (Arithmetic64.machine_sound.add (by omega)), heq₂]
    · rw [hlen] at hrow
      exact ⟨_, hv, hrow⟩

/-! ## Packed elements -/

mutual

/-- The store of a packed value is a copy of its bytes in memory. -/
theorem Ty.packed_store : ∀ (t : Ty), t.isPacked = true → ∀ (v : t.Val) (at' : Nat) (W : Bytes)
    (o : Bool), at' + t.size ≤ W.length → W.length ≤ limit →
      t.store at' v ⟨W, o⟩ = .ok ((), ⟨overwrite W at' (t.object v), o⟩) ∧
        (t.object v).length = t.size
  | .scalar s, _, v, at', W, o, hin, _ => by
    have hlen : (s.arithmeticT.image v).length = bytesOf s.width := Arithmetic.length_image _ v
    rw [Ty.size] at hin
    rw [Ty.store, Ty.object, Ty.size]
    exact ⟨Writer.write_eq (by omega), hlen⟩
  | .vec e, h, v, at', W, o, hin, _ => by
    rw [Ty.isPacked] at h
    cases h
  | .record own a fs, h, vs, at', W, o, hin, hW => by
    rw [Ty.isPacked, Bool.and_eq_true, Bool.and_eq_true, beq_iff_eq] at h
    have hend := le_roundUp (max 1 (fs.endFrom 0)) (bytesOf_pos (maxWidth a fs.align))
    have hsizes := sizes_le fs 0
    have hsize := h.2
    rw [Ty.size] at hsize
    have hfields := Fields.packed_store fs h.1.2 vs 0 at' W o (by omega)
      (by rw [Ty.size] at hin; omega) hW
    rw [Ty.store, Ty.object, ← h.2]
    rwa [Nat.add_zero] at hfields

theorem Fields.packed_store : ∀ (fs : Fields), fs.isPacked = true → ∀ (vs : fs.Vals)
    (pos at' : Nat) (W : Bytes) (o : Bool), pos + fs.sizes = fs.endFrom pos →
      at' + fs.endFrom pos ≤ W.length → W.length ≤ limit →
      fs.store pos at' vs ⟨W, o⟩ = .ok ((), ⟨overwrite W (at' + pos) (fs.objects vs), o⟩) ∧
        (fs.objects vs).length = fs.sizes
  | .nil, _, _, pos, at', W, o, _, _, _ => by
    rw [Fields.store, Fields.objects, overwrite_nil]
    exact ⟨rfl, rfl⟩
  | .cons name a t fs, h, (v, vs), pos, at', W, o, hsum, hin, hW => by
    have hlim : limit = 2 ^ 32 - 1 := rfl
    rw [Fields.isPacked, Bool.and_eq_true] at h
    rw [Fields.endFrom, Fields.sizes] at hsum
    rw [Fields.endFrom] at hin
    have hfield : pos ≤ fieldOffset pos a t :=
      le_roundUp pos (bytesOf_pos (maxWidth a t.align))
    have hrest := sizes_le fs (fieldOffset pos a t + t.size)
    have hpos : fieldOffset pos a t = pos := by omega
    rw [hpos] at hsum hin hrest
    obtain ⟨hstore, hlen⟩ := Ty.packed_store t h.1 v (at' + pos) W o (by omega) hW
    have hlength : (overwrite W (at' + pos) (t.object v)).length = W.length :=
      length_overwrite (by omega)
    obtain ⟨hstore', hlen'⟩ := Fields.packed_store fs h.2 vs (pos + t.size) at'
      (overwrite W (at' + pos) (t.object v)) o (by omega) (by omega) (by omega)
    rw [Fields.store, Fields.objects, Fields.sizes, hpos,
      Step.lift_bind (Arithmetic64.machine_sound.add (by omega)), Step.bind_of_ok hstore, hstore',
      List.length_append, hlen, hlen', ← overwrite_append (by omega), hlen, Nat.add_assoc]
    exact ⟨rfl, rfl⟩

end

/-- A row of packed elements stored one by one is a copy of their bytes. -/
theorem packed_row (h : e.isPacked = true) :
    ∀ (at' : Nat) (W : Bytes) (o : Bool), at' + l.length * e.size ≤ W.length → W.length ≤ limit →
      Writer.storeEach (fun next v => e.store next v) e.size at' l ⟨W, o⟩ =
          .ok ((), ⟨overwrite W at' (l.flatMap e.object), o⟩) ∧
        (l.flatMap e.object).length = l.length * e.size := by
  induction l with
  | nil =>
    intro at' W o _ _
    rw [List.flatMap_nil, overwrite_nil]
    exact ⟨rfl, (Nat.zero_mul _).symm⟩
  | cons v vs ih =>
    intro at' W o hin hW
    have hlim : limit = 2 ^ 32 - 1 := rfl
    rw [List.length_cons, Nat.succ_mul] at hin
    obtain ⟨hstore, hlen⟩ := Ty.packed_store e h v at' W o (by omega) hW
    have hlength : (overwrite W at' (e.object v)).length = W.length := length_overwrite (by omega)
    obtain ⟨hstore', hlen'⟩ := ih (at' + e.size) (overwrite W at' (e.object v)) o (by omega)
      (by omega)
    rw [Writer.storeEach, Step.bind_of_ok hstore,
      Step.lift_bind (Arithmetic64.machine_sound.add (by omega)), hstore', List.flatMap_cons,
      List.length_append, hlen, hlen', ← overwrite_append (by omega), hlen, List.length_cons,
      Nat.succ_mul, Nat.add_comm e.size]
    exact ⟨rfl, rfl⟩

/-! ## The stores of a value -/

private theorem substr_left {bytes xs ys : Bytes}
    (h : substr bytes at' (xs.length + ys.length) = xs ++ ys) :
    substr bytes at' xs.length = xs := by
  have htake : (substr bytes at' (xs.length + ys.length)).take xs.length =
      substr bytes at' xs.length := by
    rw [substr, List.take_take, Nat.min_eq_left (Nat.le_add_right _ _), substr]
  rw [← htake, h, List.take_left]

private theorem substr_right {bytes xs ys : Bytes}
    (h : substr bytes at' (xs.length + ys.length) = xs ++ ys) :
    substr bytes (at' + xs.length) ys.length = ys := by
  have hdrop : (substr bytes at' (xs.length + ys.length)).drop xs.length =
      substr bytes (at' + xs.length) ys.length := by
    rw [substr, List.drop_take, List.drop_drop, Nat.add_sub_cancel_left, substr]
  rw [← hdrop, h, List.drop_left]

/-- The `Vec` whose two numbers these bytes are. -/
theorem vec_of_pair {at' offset count : Nat} (ho : offset < 2 ^ 32) (hc : count < 2 ^ 32)
    (h : substr bytes at' 8 = leBytes 4 offset ++ leBytes 4 count) :
    Vec.offset bytes at' = offset ∧ Vec.size bytes at' = count := by
  have hl : (leBytes 4 offset).length = 4 := length_leBytes _ _
  have hr : (leBytes 4 count).length = 4 := length_leBytes _ _
  have hpair : substr bytes at' ((leBytes 4 offset).length + (leBytes 4 count).length) =
      leBytes 4 offset ++ leBytes 4 count := by rw [hl, hr]; exact h
  have hleft := substr_left hpair
  have hright := substr_right hpair
  rw [hl] at hleft hright
  rw [hr] at hright
  rw [Vec.offset, Vec.size, hleft, hright]
  exact ⟨leValue_leBytes_of_lt ho, leValue_leBytes_of_lt hc⟩

private theorem vec_of_zero (h : ∀ i, at' ≤ i → i < at' + 8 → bytes[i]? = some 0) :
    Vec.offset bytes at' = 0 ∧ Vec.size bytes at' = 0 := by
  refine vec_of_pair (by decide) (by decide) (List.ext_getElem? fun i => ?_)
  have hzero : leBytes 4 0 ++ leBytes 4 0 = List.replicate 8 0 := rfl
  rw [hzero]
  by_cases hi : i < 8
  · rw [getElem?_substr hi, h _ (Nat.le_add_right _ _) (by omega), List.getElem?_replicate,
      if_pos hi]
  · rw [List.getElem?_eq_none (by rw [length_substr]; omega),
      List.getElem?_eq_none (by rw [List.length_replicate]; omega)]

/-- The store of an empty sequence, whose `Vec` stays zero. -/
theorem Stored.empty {hl : ([] : List e.Val).length * e.size < 2 ^ 63} (hin : at' + 8 ≤ W.length)
    (hW : W.length ≤ limit) :
    Stored W W o o at' 8 W.length fun B => (Ty.vec e).Holds B ⟨[], hl⟩ at' W.length W.length where
  grows := Nat.le_refl _
  bounded := hW
  sticky ho := ho
  frame _ _ _ := rfl
  fits _ := by
    refine ⟨rfl, rfl, fun hzero B hB hview _ => ?_⟩
    obtain ⟨hoffset, hsize⟩ := vec_of_zero fun i hi hlt => (hview i hi hlt).trans (hzero i hi hlt)
    rw [Ty.Holds]
    exact ⟨by omega, hsize, .inl ⟨rfl, hoffset, rfl⟩⟩
  spills hlt := absurd hW (by omega)

/-- The store of a sequence: its part appended zeroed, its `Vec` written, and its elements. -/
theorem Stored.part {hl : l.length * e.size < 2 ^ 63} {at' start : Nat} {W W₃ : Bytes} {o o₃ : Bool}
    (hin : at' + 8 ≤ W.length) (hnil : l ≠ []) (hstart : start = roundUp W.length (partAlignment e))
    (hpast : start + l.length * e.size ≤ limit)
    (hrow : Stored (overwrite (growTo W (start + l.length * e.size)) at'
        (leBytes 4 (start - at') ++ leBytes 4 l.length)) W₃ o o₃ start (l.length * e.size)
      (rowStop e.stop l (start + l.length * e.size)) fun B => RowHolds (e.Holds B) e.size l start
        (start + l.length * e.size) (rowStop e.stop l (start + l.length * e.size))) :
    Stored W W₃ o o₃ at' 8 (rowStop e.stop l (start + l.length * e.size)) fun B =>
      (Ty.vec e).Holds B ⟨l, hl⟩ at' W.length
        (rowStop e.stop l (start + l.length * e.size)) := by
  have hlim : limit = 2 ^ 32 - 1 := rfl
  have hround := le_roundUp W.length (partAlignment_pos e)
  rw [← hstart] at hround
  have hcount : l.length ≤ l.length * e.size := Nat.le_mul_of_pos_right _ e.size_pos
  have hpair : (leBytes 4 (start - at') ++ leBytes 4 l.length).length = 8 := by
    rw [List.length_append, length_leBytes, length_leBytes]
  have hgrown : (growTo W (start + l.length * e.size)).length = start + l.length * e.size :=
    length_growTo (by omega)
  have hfits : at' + (leBytes 4 (start - at') ++ leBytes 4 l.length).length ≤
      (growTo W (start + l.length * e.size)).length := by omega
  have hlen₂ : (overwrite (growTo W (start + l.length * e.size)) at'
      (leBytes 4 (start - at') ++ leBytes 4 l.length)).length = start + l.length * e.size :=
    (length_overwrite hfits).trans hgrown
  have hgrows := hrow.grows
  rw [hlen₂] at hgrows
  refine ⟨by omega, hrow.bounded, hrow.sticky, fun i hi hout => ?_, fun hstop => ?_, hrow.spills⟩
  · rw [hrow.frame i (by omega) (.inl (by omega)), overwrite_outside hfits (by omega),
      growTo_inside (by omega) hi]
  obtain ⟨ho, hlen₃, hP⟩ := hrow.fits hstop
  refine ⟨ho, hlen₃, fun _ B hB hview hparts => ?_⟩
  have hzero : ∀ i, start ≤ i → i < start + l.length * e.size →
      (overwrite (growTo W (start + l.length * e.size)) at'
        (leBytes 4 (start - at') ++ leBytes 4 l.length))[i]? = some 0 := fun i hi hlt => by
    rw [overwrite_outside hfits (by omega), growTo_outside (by omega) (by omega) hlt]
  have helements := hP hzero B hB (hparts.mono hround (by omega)) (hparts.mono (by omega)
    (Nat.le_refl _))
  have hvec : substr B at' 8 = leBytes 4 (start - at') ++ leBytes 4 l.length := by
    have hframe : AgreeOn B (overwrite (growTo W (start + l.length * e.size)) at'
        (leBytes 4 (start - at') ++ leBytes 4 l.length)) at' (at' + 8) := fun i hi hlt =>
      (hview i hi hlt).trans (hrow.frame i (by omega) (.inl (by omega)))
    have hcut := substr_overwrite hfits
    rw [hpair] at hcut
    rw [hframe.substr_eq (Nat.le_refl _) (Nat.le_refl _), hcut]
  obtain ⟨hoffset, hsize⟩ := vec_of_pair (by omega) (by omega) hvec
  have hfirst : Vec.first B at' = start := by
    rw [Vec.first, hoffset]
    omega
  rw [Ty.Holds, hfirst]
  exact ⟨by omega, hsize, .inr ⟨hnil, hstart, by omega, helements⟩⟩

/-- Whether the elements are copied in one piece or stored one by one, the bytes are the same. -/
theorem storeEach_of_bulk (hin : at' + l.length * e.size ≤ W.length) (hW : W.length ≤ limit) :
    (if e.isBulk then Writer.write at' (l.flatMap e.object)
      else Writer.storeEach (fun next v => e.store next v) e.size at' l) ⟨W, o⟩ =
      Writer.storeEach (fun next v => e.store next v) e.size at' l ⟨W, o⟩ := by
  split
  case isTrue hbulk =>
    unfold Ty.isBulk at hbulk
    rw [Bool.and_eq_true, Bool.and_eq_true] at hbulk
    obtain ⟨hstore, hlen⟩ := packed_row hbulk.1.1 (l := l) at' W o hin hW
    rw [hstore]
    exact Writer.write_eq (by omega)
  case isFalse => rfl

mutual

/-- What the store of a value does. -/
theorem Ty.store_stored : ∀ (t : Ty) (v : t.Val) (at' : Nat) (W : Bytes) (o : Bool),
    at' + t.size ≤ W.length → W.length ≤ limit →
      ∃ W' o', t.store at' v ⟨W, o⟩ = .ok ((), ⟨W', o'⟩) ∧
        Stored W W' o o' at' t.size (t.stop v W.length) fun B =>
          t.Holds B v at' W.length (t.stop v W.length)
  | .scalar s, v, at', W, o, hin, hW => by
    have hlen : (s.arithmeticT.image v).length = bytesOf s.width := Arithmetic.length_image _ v
    rw [Ty.size, ← hlen] at hin
    refine ⟨overwrite W at' (s.arithmeticT.image v), o, ?_, ?_⟩
    · rw [Ty.store]
      exact Writer.write_eq hin
    · rw [Ty.size, ← hlen, Ty.stop]
      refine Stored.write hW hin fun B hB hcut => Ty.holds_scalar.mpr ⟨by omega, ?_, rfl⟩
      rwa [hlen] at hcut
  | .record own a fs, vs, at', W, o, hin, hW => by
    have hend := le_roundUp (max 1 (fs.endFrom 0)) (bytesOf_pos (maxWidth a fs.align))
    have hfields : at' + fs.endFrom 0 ≤ W.length := by
      rw [Ty.size] at hin
      omega
    obtain ⟨W', o', hstore, h⟩ := Fields.store_stored fs vs 0 at' W o hfields hW
    refine ⟨W', o', by rw [Ty.store]; exact hstore, ?_⟩
    rw [Ty.stop]
    refine h.widen (Nat.le_refl _) ?_ fun B => Ty.holds_record.mpr
    rw [Ty.size]
    omega
  | .vec e, ⟨l, hl⟩, at', W, o, hin, hW => by
    have hlim : limit = 2 ^ 32 - 1 := rfl
    have hpos := partAlignment_pos e
    have hround := le_roundUp W.length hpos
    rw [Ty.size] at hin
    by_cases hnil : l = []
    · refine ⟨W, o, ?_, ?_⟩
      · rw [Ty.store, if_pos (by rw [hnil]; rfl)]
        rfl
      · subst hnil
        rw [Ty.stop, if_pos rfl]
        exact Stored.empty hin hW
    have hcount : l.length ≠ 0 := fun h => hnil (List.length_eq_zero_iff.mp h)
    have hextent : l.length ≤ l.length * e.size := Nat.le_mul_of_pos_right _ e.size_pos
    have hstop : roundUp W.length (partAlignment e) + l.length * e.size ≤
        rowStop e.stop l (roundUp W.length (partAlignment e) + l.length * e.size) :=
      le_rowStop (Ty.le_stop e)
    have happend := Writer.append_eq W o _ _ hW hl hpos (partAlignment_le e)
    rw [Ty.store, if_neg hcount, Step.lift_bind (Arithmetic64.machine_sound.mul (by omega))]
    by_cases hpast : roundUp W.length (partAlignment e) + l.length * e.size > limit
    · rw [if_pos hpast] at happend
      refine ⟨W, true, by rw [Step.bind_of_ok happend]; rfl, ?_⟩
      rw [Ty.stop, if_neg hnil]
      exact ⟨Nat.le_refl _, hW, fun _ => rfl, fun _ _ _ => rfl, fun h => by omega, fun _ => rfl⟩
    rw [if_neg hpast] at happend
    generalize hstart : roundUp W.length (partAlignment e) = start at *
    have hgrown : (growTo W (start + l.length * e.size)).length = start + l.length * e.size :=
      length_growTo (by omega)
    have hpair : at' + (leBytes 4 (start - at') ++ leBytes 4 l.length).length ≤
        (growTo W (start + l.length * e.size)).length := by
      rw [List.length_append, length_leBytes, length_leBytes]
      omega
    have hlen₂ : (overwrite (growTo W (start + l.length * e.size)) at'
        (leBytes 4 (start - at') ++ leBytes 4 l.length)).length = start + l.length * e.size :=
      (length_overwrite hpair).trans hgrown
    obtain ⟨W₃, o₃, heq, hrow⟩ := Stored.row (fun next v => e.store next v)
      (fun B v at' c c' => e.Holds B v at' c c') e.stop (Ty.le_stop e)
      (fun v at' W o hin hW => Ty.store_stored e v at' W o hin hW) (l := l) start _ o
      (Nat.le_of_eq hlen₂.symm) (by omega)
    refine ⟨W₃, o₃, ?_, ?_⟩
    · rw [Step.bind_of_ok happend]
      dsimp only
      rw [Step.lift_bind (Arithmetic64.machine_sound.sub (by omega) (by omega)),
        Step.bind_of_ok (Writer.write_eq hpair),
        storeEach_of_bulk (Nat.le_of_eq hlen₂.symm) (by omega)]
      exact heq
    · rw [hlen₂] at hrow
      rw [Ty.stop, if_neg hnil, hstart]
      exact hrow.part hin hnil hstart.symm (by omega)

theorem Fields.store_stored : ∀ (fs : Fields) (vs : fs.Vals) (pos at' : Nat) (W : Bytes)
    (o : Bool), at' + fs.endFrom pos ≤ W.length → W.length ≤ limit →
      ∃ W' o', fs.store pos at' vs ⟨W, o⟩ = .ok ((), ⟨W', o'⟩) ∧
        Stored W W' o o' (at' + pos) (fs.endFrom pos - pos) (fs.stop vs W.length) fun B =>
          fs.Holds B vs pos at' W.length (fs.stop vs W.length)
  | .nil, vs, pos, at', W, o, hin, hW => by
    refine ⟨W, o, by rw [Fields.store]; rfl, ?_⟩
    rw [Fields.endFrom, Nat.sub_self, Fields.stop]
    exact Stored.refl hW fun B => Fields.holds_nil.mpr rfl
  | .cons name a t fs, (v, vs), pos, at', W, o, hin, hW => by
    have hlim : limit = 2 ^ 32 - 1 := rfl
    rw [Fields.endFrom] at hin ⊢
    have hfield : pos ≤ fieldOffset pos a t := le_roundUp pos (bytesOf_pos (maxWidth a t.align))
    have hend := le_endFrom fs (fieldOffset pos a t + t.size)
    obtain ⟨W₁, o₁, heq₁, h₁⟩ := Ty.store_stored t v (at' + fieldOffset pos a t) W o
      (by omega) hW
    have hgrows := h₁.grows
    obtain ⟨W₂, o₂, heq₂, h₂⟩ := Fields.store_stored fs vs (fieldOffset pos a t + t.size) at' W₁ o₁
      (by omega) h₁.bounded
    refine ⟨W₂, o₂, ?_, h₁.seq h₂ (by omega) (by omega) (by omega) (by omega) ?_ ?_ ?_⟩
    · rw [Fields.store, Step.lift_bind (Arithmetic64.machine_sound.add (by omega)),
        Step.bind_of_ok heq₁, heq₂]
    · rw [Fields.stop]
      exact Fields.le_stop fs vs _
    · intro hlen
      rw [hlen, Fields.stop]
    · intro hlen B hv hvs
      rw [hlen] at hvs
      rw [Fields.stop]
      exact Fields.holds_cons.mpr ⟨_, hv, hvs⟩

end

end Kotatsu.Codec.Blob
