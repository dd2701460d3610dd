import Kotatsu.Codec.Blob.Store

/-!
# Blobs and their values

A blob is what a value is copied out of, and the value decides it but for the padding:
what holds a value is read alike wherever it is held.
-/

namespace Kotatsu.Codec.Blob

open Kotatsu.Core

/-! ## One value, one blob -/

theorem RowHolds.get {α : Type} (P Q : α → Nat → Nat → Nat → Prop) (stop : α → Nat → Nat)
    {step : Nat} (hP : ∀ v at' c c', P v at' c c' → c' = stop v c)
    (hQ : ∀ v at' c c', Q v at' c c' → c' = stop v c) {l : List α} :
    ∀ {at' c c₁ c₂}, RowHolds P step l at' c c₁ → RowHolds Q step l at' c c₂ → ∀ i < l.length,
      ∃ v m m₁ m₂, P v (at' + i * step) m m₁ ∧ Q v (at' + i * step) m m₂ := by
  induction l with
  | nil => exact fun _ _ i hi => absurd hi (Nat.not_lt_zero i)
  | cons v vs ih =>
    rintro at' c c₁ c₂ ⟨m₁, hm₁, hrest₁⟩ ⟨m₂, hm₂, hrest₂⟩ i hi
    cases i with
    | zero =>
      rw [Nat.zero_mul, Nat.add_zero]
      exact ⟨v, c, m₁, m₂, hm₁, hm₂⟩
    | succ i =>
      obtain rfl : m₁ = m₂ := (hP v at' c m₁ hm₁).trans (hQ v at' c m₂ hm₂).symm
      rw [Nat.succ_mul, Nat.add_comm (i * step), ← Nat.add_assoc]
      exact ih hrest₁ hrest₂ i (Nat.lt_of_succ_lt_succ hi)

variable {B₁ B₂ bytes : Bytes} {t u : Ty} {at' q count i base : Nat} {root : Record}
  {v : root.ty.Val}

theorem Fields.At.holds {fs : Fields} {pos : Nat} {off : Nat} (h : fs.At pos t off) :
    ∀ {vs : fs.Vals} {at' c c₁ c₂ : Nat}, fs.Holds B₁ vs pos at' c c₁ →
      fs.Holds B₂ vs pos at' c c₂ → ∃ v m m₁ m₂, t.Holds B₁ v (at' + off) m m₁ ∧
        t.Holds B₂ v (at' + off) m m₂ := by
  induction h with
  | @head name a t fs pos =>
    rintro ⟨v, vs⟩ at' c c₁ c₂ h₁ h₂
    obtain ⟨m₁, hm₁, -⟩ := Fields.holds_cons.mp h₁
    obtain ⟨m₂, hm₂, -⟩ := Fields.holds_cons.mp h₂
    exact ⟨v, c, m₁, m₂, hm₁, hm₂⟩
  | @tail name a t fs pos u off _ ih =>
    rintro ⟨v, vs⟩ at' c c₁ c₂ h₁ h₂
    obtain ⟨m₁, hm₁, hrest₁⟩ := Fields.holds_cons.mp h₁
    obtain ⟨m₂, hm₂, hrest₂⟩ := Fields.holds_cons.mp h₂
    obtain rfl : m₁ = m₂ := (hm₁.stop_eq t).trans (hm₂.stop_eq t).symm
    exact ih hrest₁ hrest₂

/-- What can be read from bytes that hold a value can be read from any others that hold it, and
is the same value there. -/
theorem Reaches.holds (h : Reaches B₁ t at' u q) :
    ∀ {v : t.Val} {c c₁ c₂ : Nat}, t.Holds B₁ v at' c c₁ → t.Holds B₂ v at' c c₂ →
      Reaches B₂ t at' u q ∧ ∃ w m m₁ m₂, u.Holds B₁ w q m m₁ ∧ u.Holds B₂ w q m m₂ := by
  induction h with
  | here => exact fun h₁ h₂ => ⟨.here, _, _, _, _, h₁, h₂⟩
  | field hat _ ih =>
    intro v c c₁ c₂ h₁ h₂
    obtain ⟨w, m, m₁, m₂, hm₁, hm₂⟩ := hat.holds (Ty.holds_record.mp h₁) (Ty.holds_record.mp h₂)
    obtain ⟨hr, hw⟩ := ih hm₁ hm₂
    exact ⟨.field hat hr, hw⟩
  | @element e at' p u q hel _ ih =>
    rintro ⟨l, hl⟩ c c₁ c₂ h₁ h₂
    rw [Ty.Holds] at h₁ h₂
    obtain ⟨-, hsize₁, hrest₁⟩ := h₁
    obtain ⟨-, hsize₂, hrest₂⟩ := h₂
    obtain ⟨i, hi, rfl⟩ := Vec.element_iff.mp hel
    rw [hsize₁] at hi
    obtain ⟨rfl, -⟩ | ⟨hne, hfirst₁, -, hrow₁⟩ := hrest₁
    · exact absurd hi (Nat.not_lt_zero i)
    obtain ⟨rfl, -⟩ | ⟨-, hfirst₂, -, hrow₂⟩ := hrest₂
    · exact absurd rfl hne
    have hfirst : Vec.first B₁ at' = Vec.first B₂ at' := hfirst₁.trans hfirst₂.symm
    rw [← hfirst] at hrow₂
    obtain ⟨w, m, m₁, m₂, hm₁, hm₂⟩ := RowHolds.get (e.Holds B₁) (e.Holds B₂) e.stop
      (fun _ _ _ _ => Ty.Holds.stop_eq e) (fun _ _ _ _ => Ty.Holds.stop_eq e) hrow₁ hrow₂ i hi
    obtain ⟨hr, hw⟩ := ih hm₁ hm₂
    refine ⟨.element (Vec.element_iff.mpr ⟨i, ?_, ?_⟩) hr, hw⟩
    · rwa [hsize₂]
    · rw [hfirst]

/-- A view with bytes of its own: a scalar, or the two numbers of a `Vec`. -/
def Ty.IsLeaf : Ty → Prop
  | .scalar _ => True
  | .vec _ => True
  | .record _ _ _ => False

/-- A byte of the header, of a scalar, or of the two numbers of a `Vec`. The others are the padding
of records and the gaps between parts. -/
def IsData (bytes : Bytes) (root : Record) (i : Nat) : Prop :=
  i < 8 ∨ ∃ u q, Reaches bytes root.ty 8 u q ∧ u.IsLeaf ∧ q ≤ i ∧ i < q + u.size

theorem agree_of_substr (h : substr B₁ at' count = substr B₂ at' count) (hi : at' ≤ i)
    (hlt : i < at' + count) : B₁[i]? = B₂[i]? := by
  have hget := congrArg (fun bs : Bytes => bs[i - at']?) h
  simp only [getElem?_substr (show i - at' < count by omega)] at hget
  rwa [Nat.add_sub_cancel' hi] at hget

private theorem substr_eq_of_leValue (h₁ : at' + count ≤ B₁.length) (h₂ : at' + count ≤ B₂.length)
    (h : leValue (substr B₁ at' count) = leValue (substr B₂ at' count)) :
    substr B₁ at' count = substr B₂ at' count := by
  have hlen₁ : (substr B₁ at' count).length = count := by rw [length_substr]; omega
  have hlen₂ : (substr B₂ at' count).length = count := by rw [length_substr]; omega
  rw [← (leBytes_leValue (substr B₁ at' count)).1, ← (leBytes_leValue (substr B₂ at' count)).1,
    hlen₁, hlen₂, h]

/-- Two views that hold the same value have the same bytes. -/
theorem Ty.Holds.agree {w : u.Val} {q c c₁ c₂ i : Nat} (h₁ : u.Holds B₁ w q c c₁)
    (h₂ : u.Holds B₂ w q c c₂) (hleaf : u.IsLeaf) (hi : q ≤ i) (hlt : i < q + u.size) :
    B₁[i]? = B₂[i]? := by
  cases u with
  | record own a fs => exact hleaf.elim
  | scalar s =>
    have heq : substr B₁ q (bytesOf s.width) = substr B₂ q (bytesOf s.width) :=
      (Ty.holds_scalar.mp h₁).2.1.trans (Ty.holds_scalar.mp h₂).2.1.symm
    rw [Ty.size] at hlt
    exact agree_of_substr heq hi hlt
  | vec e =>
    obtain ⟨l, hl⟩ := w
    rw [Ty.size] at hlt
    rw [Ty.Holds] at h₁ h₂
    obtain ⟨hin₁, hsize₁, hrest₁⟩ := h₁
    obtain ⟨hin₂, hsize₂, hrest₂⟩ := h₂
    have hoffset : Vec.offset B₁ q = Vec.offset B₂ q := by
      obtain ⟨rfl, hzero₁, -⟩ | ⟨hne, hfirst₁, -⟩ := hrest₁
      · obtain ⟨-, hzero₂, -⟩ | ⟨hne, -⟩ := hrest₂
        · rw [hzero₁, hzero₂]
        · exact absurd rfl hne
      · obtain ⟨rfl, -⟩ | ⟨-, hfirst₂, -⟩ := hrest₂
        · exact absurd rfl hne
        · have hfirst := hfirst₁.trans hfirst₂.symm
          rw [Vec.first, Vec.first] at hfirst
          omega
    by_cases hhalf : i < q + 4
    · exact agree_of_substr (substr_eq_of_leValue (by omega) (by omega) hoffset) hi hhalf
    · exact agree_of_substr (substr_eq_of_leValue (by omega) (by omega)
        (hsize₁.trans hsize₂.symm)) (Nat.not_lt.mp hhalf) (by omega)

/-! ## Blobs -/

/-- The error of a value that needs more than a blob holds. -/
def tooBig : Stop := .refused { message := ascii "a blob holds less than 4 GiB" }

/-- Where the layout of a value ends: behind the header, the root and the parts. -/
def layoutEnd (root : Record) (v : root.ty.Val) : Nat := root.ty.stop v (8 + root.ty.size)

/-- `to_bytes` of a record that fits a blob: a value whose layout ends past 4 GiB fails, and of any
other come the bytes that hold it. -/
theorem toBytes_eq (hroot : 8 + root.ty.size ≤ limit) (v : root.ty.Val) :
    (limit < layoutEnd root v ∧ toBytes root v = .error tooBig) ∨
      layoutEnd root v ≤ limit ∧ ∃ bytes, toBytes root v = .ok bytes ∧
        bytes.length = layoutEnd root v ∧ substr bytes 0 8 = header root ∧
        root.ty.Holds bytes v 8 (8 + root.ty.size) bytes.length := by
  have hlim : limit = 2 ^ 32 - 1 := rfl
  have hheader : (header root).length = 8 := by
    rw [header, List.length_append, length_leBytes, length_leBytes]
  have hzero : roundUp ([] : Bytes).length 8 = 0 := rfl
  have happend := Writer.append_eq [] false (8 + root.ty.size) 8
    (Nat.zero_le _) (by omega) (by decide) (Nat.le_refl _)
  rw [hzero, Nat.zero_add, if_neg (by omega)] at happend
  have hgrown : (growTo [] (8 + root.ty.size)).length = 8 + root.ty.size :=
    length_growTo (Nat.zero_le _)
  have hwrite : 0 + (header root).length ≤ (growTo [] (8 + root.ty.size)).length := by omega
  have hlen : (overwrite (growTo [] (8 + root.ty.size)) 0 (header root)).length =
      8 + root.ty.size := (length_overwrite hwrite).trans hgrown
  obtain ⟨W, o, hstore, hstored⟩ := Ty.store_stored root.ty v 8
    (overwrite (growTo [] (8 + root.ty.size)) 0 (header root)) false (Nat.le_of_eq hlen.symm)
    (by omega)
  have hbytes : toBytes root v = if o then .error tooBig else .ok W := by
    rw [toBytes]
    dsimp only
    rw [Step.bind_of_ok happend, Step.bind_of_ok (Writer.write_eq hwrite), hstore]
    cases o <;> rfl
  have hspills := hstored.spills
  have hfits := hstored.fits
  rw [hlen] at hspills hfits
  by_cases hend : limit < layoutEnd root v
  · exact .inl ⟨hend, by rw [hbytes, hspills hend]; rfl⟩
  right
  obtain ⟨rfl, hW, hP⟩ := hfits (Nat.not_lt.mp hend)
  refine ⟨Nat.not_lt.mp hend, W, hbytes, hW, ?_, ?_⟩
  · have hframe : AgreeOn W (overwrite (growTo [] (8 + root.ty.size)) 0 (header root)) 0 8 :=
      fun i _ hlt => hstored.frame i (by omega) (.inl hlt)
    have hcut := substr_overwrite hwrite
    rw [hheader] at hcut
    rw [hframe.substr_eq (Nat.le_refl _) (Nat.le_refl _), hcut]
  · rw [hW]
    refine hP (fun i hi hlt => ?_) W (Nat.le_refl _) (fun _ _ _ => rfl) fun _ _ _ => rfl
    rw [overwrite_outside hwrite (by omega), growTo_outside (Nat.zero_le _) (Nat.zero_le _)
      (by omega)]

/-- The root of a larger record has no room, and its header is written outside the bytes. -/
theorem toBytes_of_large (hroot : limit < 8 + root.ty.size) (hsize : 8 + root.ty.size < 2 ^ 63)
    (v : root.ty.Val) : toBytes root v = .error .outside := by
  have hheader : (header root).length = 8 := by
    rw [header, List.length_append, length_leBytes, length_leBytes]
  have hzero : roundUp ([] : Bytes).length 8 = 0 := rfl
  have happend := Writer.append_eq [] false (8 + root.ty.size) 8 (Nat.zero_le _) hsize
    (by decide) (Nat.le_refl _)
  rw [hzero, Nat.zero_add, if_pos hroot] at happend
  have hwrite : Writer.write 0 (header root) ⟨[], true⟩ = .error .outside :=
    if_neg (by rw [hheader]; decide)
  rw [toBytes]
  dsimp only
  rw [Step.bind_of_ok happend, Step.bind_of_error hwrite]
  rfl

/-- The bytes of a value are accepted. -/
theorem Ty.Holds.accepts (hbase : base % 8 = 0) (hlen : bytes.length ≤ limit)
    (hheader : substr bytes 0 8 = header root)
    (h : root.ty.Holds bytes v 8 (8 + root.ty.size) bytes.length) : Accepts root base bytes := by
  have hlim : limit = 2 ^ 32 - 1 := rfl
  have hfp : root.ty.fingerprintV.toNat < 2 ^ 32 := root.ty.fingerprintV.toNat_lt
  obtain ⟨hmagic, hprint⟩ := vec_of_pair (show magic < 2 ^ 32 by decide) hfp hheader
  have hstop := Ty.le_stop root.ty v (8 + root.ty.size)
  rw [← h.stop_eq root.ty] at hstop
  exact ⟨hbase, hstop, by omega, hmagic, hprint, h.laid root.ty⟩

/-- What is laid out holds no `Vec` that spans more than the bytes. -/
theorem Accepts.fits (h : Accepts root base bytes) : Fits bytes root.ty 8 := by
  intro e p hr
  obtain ⟨-, -, m, m', hl⟩ := hr.laid h.laid h.holds h.holds (bytesOf_dvd _)
  have hlen := h.length_lt
  rw [Ty.Laid] at hl
  obtain ⟨hzero, -⟩ | ⟨-, -, hend, -⟩ := hl
  · rw [hzero, Nat.zero_mul]
    decide
  · omega

theorem Accepts.view_eq (h : Accepts root base bytes) : view .machine bytes root base = .ok 8 := by
  obtain ⟨r, hr, hp⟩ := view_decides h.fits base
  obtain rfl : r = .ok 8 := (hp 8).mpr ⟨rfl, h⟩
  exact hr _ Arithmetic64.machine_sound

theorem accepts_of_view {base p : Nat} (h : view .machine bytes root base = .ok p)
    (hfits : Fits bytes root.ty 8) : p = 8 ∧ Accepts root base bytes := by
  obtain ⟨r, hr, hp⟩ := view_decides hfits base
  rw [hr _ Arithmetic64.machine_sound] at h
  cases r with
  | error e => cases h
  | ok q =>
    obtain rfl : q = p := Except.ok.inj h
    exact (hp q).mp rfl

theorem readEach_ok {α : Type} {read : Nat → Except Stop α} {step : Nat} :
    ∀ {at' l}, readEach read step at' count = .ok l → l.length = count ∧
      ∀ i < count, ∃ v, read (at' + i * step) = .ok v := by
  induction count with
  | zero =>
    intro at' l h
    obtain rfl : [] = l := Except.ok.inj h
    exact ⟨rfl, fun i hi => absurd hi (Nat.not_lt_zero i)⟩
  | succ count ih =>
    intro at' l h
    rw [readEach] at h
    cases hv : read at' with
    | error s => rw [hv] at h; cases h
    | ok v =>
      cases hvs : readEach read step (at' + step) count with
      | error s => rw [hv, hvs] at h; cases h
      | ok vs =>
        rw [hv, hvs] at h
        obtain rfl : v :: vs = l := Except.ok.inj h
        obtain ⟨hlen, hget⟩ := ih hvs
        refine ⟨by rw [List.length_cons, hlen], fun i hi => ?_⟩
        cases i with
        | zero => exact ⟨v, by rwa [Nat.zero_mul, Nat.add_zero]⟩
        | succ i =>
          rw [Nat.succ_mul, Nat.add_comm (i * step), ← Nat.add_assoc]
          exact hget i (Nat.lt_of_succ_lt_succ hi)

theorem Fields.At.decoded {fs : Fields} {pos : Nat} {off : Nat} (h : fs.At pos t off) :
    ∀ {at' vs}, fs.decode bytes pos at' = .ok vs → ∃ v, t.decode bytes (at' + off) = .ok v := by
  induction h with
  | @head name a t fs pos =>
    intro at' vs h
    rw [Fields.decode] at h
    cases hv : t.decode bytes (at' + fieldOffset pos a t) with
    | error s => rw [hv] at h; cases h
    | ok v => exact ⟨v, rfl⟩
  | @tail name a t fs pos u off _ ih =>
    intro at' vs h
    rw [Fields.decode] at h
    cases hv : t.decode bytes (at' + fieldOffset pos a t) with
    | error s => rw [hv] at h; cases h
    | ok v =>
      cases hvs : fs.decode bytes (fieldOffset pos a t + t.size) at' with
      | error s => rw [hv, hvs] at h; cases h
      | ok vs => exact ih hvs

theorem Ty.decode_vec {e : Ty} {v : (Ty.vec e).Val} (h : (Ty.vec e).decode bytes at' = .ok v) :
    ∃ l, readEach (e.decode bytes) e.size (Vec.first bytes at') (Vec.size bytes at') = .ok l ∧
      l.length * e.size < 2 ^ 63 := by
  rw [Ty.decode] at h
  cases hin : readAt bytes at' 8 with
  | error s => rw [hin] at h; cases h
  | ok _ =>
    cases hl : readEach (e.decode bytes) e.size (Vec.first bytes at') (Vec.size bytes at') with
    | error s => rw [hin, hl] at h; cases h
    | ok l =>
      refine ⟨l, rfl, ?_⟩
      by_contra hlong
      rw [hin, hl] at h
      change (if h : _ then _ else _) = _ at h
      rw [dif_neg hlong] at h
      cases h

/-- What can be read from a view that is copied out is copied out with it. -/
theorem Reaches.decoded (h : Reaches bytes t at' u q) :
    ∀ {v}, t.decode bytes at' = .ok v → ∃ w, u.decode bytes q = .ok w := by
  induction h with
  | here => exact fun h => ⟨_, h⟩
  | field hat _ ih =>
    intro v h
    rw [Ty.decode] at h
    obtain ⟨w, hw⟩ := hat.decoded h
    exact ih hw
  | @element e at' p u q hel _ ih =>
    intro v h
    obtain ⟨i, hi, rfl⟩ := Vec.element_iff.mp hel
    obtain ⟨l, hl, -⟩ := Ty.decode_vec h
    obtain ⟨w, hw⟩ := (readEach_ok hl).2 i hi
    exact ih hw

/-- A value that is copied out has no sequence longer than a container can be. -/
theorem fits_of_decode {v : t.Val} (h : t.decode bytes at' = .ok v) : Fits bytes t at' := by
  intro e p hr
  obtain ⟨w, hw⟩ := hr.decoded h
  obtain ⟨l, hl, hshort⟩ := Ty.decode_vec hw
  rw [(readEach_ok hl).1] at hshort
  omega

theorem fromBytes_eq (h : Accepts root base bytes) :
    fromBytes bytes root base = root.ty.decode bytes 8 := by
  rw [fromBytes, h.view_eq]
  rfl

/-- Bytes whose value is copied out are accepted and hold it. -/
theorem holds_of_fromBytes (h : fromBytes bytes root base = .ok v) : Accepts root base bytes ∧
      root.ty.Holds bytes v 8 (8 + root.ty.size) bytes.length := by
  rw [fromBytes] at h
  cases hview : view .machine bytes root base with
  | error s => rw [hview] at h; cases h
  | ok p =>
    rw [hview] at h
    change root.ty.decode bytes p = .ok v at h
    obtain rfl := view_root hview
    obtain ⟨-, haccepts⟩ := accepts_of_view hview (fits_of_decode h)
    obtain ⟨w, hw, hholds⟩ := Ty.Laid.holds haccepts.length_lt root.ty haccepts.laid haccepts.holds
    obtain rfl : w = v := Except.ok.inj (hw.symm.trans h)
    exact ⟨haccepts, hholds⟩

/-- Two blobs of one value have the same data. -/
theorem agree_of_holds {base₁ base₂ : Nat} (ha₁ : Accepts root base₁ B₁)
    (ha₂ : Accepts root base₂ B₂) (h₁ : root.ty.Holds B₁ v 8 (8 + root.ty.size) B₁.length)
    (h₂ : root.ty.Holds B₂ v 8 (8 + root.ty.size) B₂.length) (hi : IsData B₁ root i) :
    IsData B₂ root i ∧ B₁[i]? = B₂[i]? := by
  obtain hi | ⟨u, q, hr, hleaf, hq, hlt⟩ := hi
  · have hin₁ := ha₁.holds
    have hin₂ := ha₂.holds
    refine ⟨.inl hi, ?_⟩
    by_cases hhalf : i < 0 + 4
    · exact agree_of_substr (substr_eq_of_leValue (by omega) (by omega)
        (ha₁.magic.trans ha₂.magic.symm)) (Nat.zero_le i) hhalf
    · exact agree_of_substr (substr_eq_of_leValue (by omega) (by omega)
        (ha₁.fingerprint.trans ha₂.fingerprint.symm)) (by omega) (by omega)
  · obtain ⟨hr', w, m, m₁, m₂, hw₁, hw₂⟩ := hr.holds h₁ h₂
    exact ⟨.inr ⟨u, q, hr', hleaf, hq, hlt⟩, hw₁.agree hw₂ hleaf hq hlt⟩

/-- Every byte that is not data is zero. -/
def ZeroPadded (bytes : Bytes) (root : Record) : Prop :=
  ∀ i < bytes.length, ¬ IsData bytes root i → bytes[i]? = some 0

/-- A value that a blob can hold is copied out of the bytes it is laid out in, and it can be held
exactly where its layout ends before 4 GiB. Accepted bytes hold the value that is copied out of
them, and lay it out again but for the padding, exactly where no `Vec` spans 2^64 - 2^32 bytes; and
with zeroed padding the value is all there is to them. Records of 4 GiB and more have no blob, and
their header is written where no byte is. -/
theorem blob_round_trip (root : Record) :
    (8 + root.ty.size < 2 ^ 32 →
      (∀ v bytes base, toBytes root v = .ok bytes → base % 8 = 0 →
        view .machine bytes root base = .ok 8 ∧ fromBytes bytes root base = .ok v) ∧
      ∀ v, (toBytes root v = .error tooBig ↔ 2 ^ 32 - 1 < layoutEnd root v) ∧
        (layoutEnd root v ≤ 2 ^ 32 - 1 → ∃ bytes, toBytes root v = .ok bytes)) ∧
    (2 ^ 32 ≤ 8 + root.ty.size → 8 + root.ty.size < 2 ^ 63 →
      ∀ v, toBytes root v = .error .outside) ∧
    (∀ bytes base p, view .machine bytes root base = .ok p →
      ((∃ v again, fromBytes bytes root base = .ok v ∧ toBytes root v = .ok again ∧
        again.length = bytes.length ∧ ∀ i, IsData bytes root i → again[i]? = bytes[i]?) ↔
          Fits bytes root.ty 8)) ∧
    (∀ bytes₁ bytes₂ base₁ base₂ v₁ v₂, fromBytes bytes₁ root base₁ = .ok v₁ →
      fromBytes bytes₂ root base₂ = .ok v₂ → ZeroPadded bytes₁ root → ZeroPadded bytes₂ root →
        (bytes₁ = bytes₂ ↔ v₁ = v₂)) ∧
    (root.ty.Small → ∀ bytes, Fits bytes root.ty 8) := by
  have hlim : limit = 2 ^ 32 - 1 := rfl
  refine ⟨fun hroot => ⟨fun v bytes base hbytes hbase => ?_, fun v => ?_⟩,
    fun hlarge hsize v => toBytes_of_large (by omega) hsize v, fun bytes base p hview => ?_,
    fun B₁ B₂ base₁ base₂ v₁ v₂ h₁ h₂ hz₁ hz₂ => ?_, fun hsmall bytes => hsmall.fits bytes 8⟩
  · obtain ⟨-, herror⟩ | ⟨hend, b, hb, hlen, hheader, hholds⟩ := toBytes_eq (by omega) v
    · rw [herror] at hbytes
      cases hbytes
    · obtain rfl : b = bytes := Except.ok.inj (hb.symm.trans hbytes)
      have haccepts := hholds.accepts hbase (by omega) hheader
      exact ⟨haccepts.view_eq, (fromBytes_eq haccepts).trans (hholds.decode_eq root.ty)⟩
  · obtain ⟨hend, herror⟩ | ⟨hend, b, hb, -⟩ := toBytes_eq (by omega) v
    · exact ⟨⟨fun _ => hend, fun _ => herror⟩, fun h => by omega⟩
    · refine ⟨⟨fun h => ?_, fun h => by omega⟩, fun _ => ⟨b, hb⟩⟩
      rw [hb] at h
      cases h
  · constructor
    · rintro ⟨v, -, hv, -⟩
      exact (holds_of_fromBytes hv).1.fits
    · intro hfits
      obtain ⟨rfl, haccepts⟩ := accepts_of_view hview hfits
      have hlength := haccepts.length_lt
      have hin := haccepts.holds
      obtain ⟨v, hv, hholds⟩ := Ty.Laid.holds hlength root.ty haccepts.laid hin
      have hend : layoutEnd root v = bytes.length := (hholds.stop_eq root.ty).symm
      obtain ⟨hover, -⟩ | ⟨-, b, hb, hlen, hheader, hb'⟩ := toBytes_eq (by omega) v
      · omega
      have hagain := hb'.accepts haccepts.base (by omega) hheader
      exact ⟨v, b, (fromBytes_eq haccepts).trans hv, hb, hlen.trans hend,
        fun i hi => (agree_of_holds haccepts hagain hholds hb' hi).2.symm⟩
  · constructor
    · rintro rfl
      have hv := (holds_of_fromBytes h₁).2.decode_eq root.ty
      have hv' := (holds_of_fromBytes h₂).2.decode_eq root.ty
      exact Except.ok.inj (hv.symm.trans hv')
    · rintro rfl
      obtain ⟨ha₁, hh₁⟩ := holds_of_fromBytes h₁
      obtain ⟨ha₂, hh₂⟩ := holds_of_fromBytes h₂
      have hlen : B₁.length = B₂.length :=
        (hh₁.stop_eq root.ty).trans (hh₂.stop_eq root.ty).symm
      apply List.ext_getElem?
      intro i
      by_cases hi : i < B₁.length
      · by_cases hdata : IsData B₁ root i
        · exact (agree_of_holds ha₁ ha₂ hh₁ hh₂ hdata).2
        · have hdata' : ¬ IsData B₂ root i := fun h =>
            hdata (agree_of_holds ha₂ ha₁ hh₂ hh₁ h).1
          rw [hz₁ i hi hdata, hz₂ i (hlen ▸ hi) hdata']
      · rw [List.getElem?_eq_none (by omega), List.getElem?_eq_none (by omega)]

/-- The value of the probe's bytes, and the bytes again. -/
theorem blob_round_trip_probe :
    ∃ v again, fromBytes probeBytes probe 0 = .ok v ∧ toBytes probe v = .ok again ∧
      again.length = probeBytes.length ∧
      ∀ i, IsData probeBytes probe i → again[i]? = probeBytes[i]? := by
  have hsmall : probe.ty.Small := by
    simp only [Record.ty, probe, Ty.char, Ty.Small, Fields.Small, and_true, true_and]
    decide
  obtain ⟨-, -, hagain, -, hfits⟩ := blob_round_trip probe
  exact (hagain probeBytes 0 8 (by decide +kernel)).mpr (hfits hsmall probeBytes)

/-- Bytes are accepted whose value has more elements than there is memory for. -/
theorem fromBytes_wide : view .machine wideBytes wide 0 = .ok 8 ∧
    ¬ ∃ v, fromBytes wideBytes wide 0 = .ok v := by
  obtain ⟨-, hsize, -⟩ := twice_layout 30
  refine ⟨wide_accepted, fun ⟨v, hv⟩ => ?_⟩
  have hspan := (holds_of_fromBytes hv).1.fits (twice 30) 8 wide_reaches
  rw [wide_vec.2, hsize] at hspan
  exact absurd hspan (by decide)

end Kotatsu.Codec.Blob
