import Kotatsu.Codec.Blob.Layout

/-!
# What the bytes that pass are

Everything read through the root of accepted bytes is inside them, aligned and, where
it is a bool, 0 or 1. The parts stand one after the other behind the root, each at the
next place its alignment allows, up to the end of the bytes. All of it rests on no
`Vec` spanning 2^64 - 2^32 bytes, which holds wherever an element is smaller than
4 GiB; a record of 8 GiB is the smallest element whose product can wrap to zero.
-/

namespace Kotatsu.Codec.Blob

open Kotatsu.Core
open Kotatsu.Codec.Bincode (Width)

/-! ## Fields -/

variable {fs : Fields} {pos off count at' q step base p : Nat} {t u : Ty} {bytes : Bytes}
  {root : Record}

theorem Fields.At.offset_le (h : fs.At pos t off) : pos ≤ off ∧ off + t.size ≤ fs.endFrom pos := by
  induction h with
  | @head name a t fs pos =>
    have hle := le_endFrom fs (fieldOffset pos a t + t.size)
    have hfield := le_roundUp pos (bytesOf_pos (maxWidth a t.align))
    rw [Fields.endFrom]
    exact ⟨hfield, hle⟩
  | @tail name a t fs pos u off _ ih =>
    have hfield := le_roundUp pos (bytesOf_pos (maxWidth a t.align))
    rw [Fields.endFrom]
    exact ⟨(hfield.trans (Nat.le_add_right _ _)).trans ih.1, ih.2⟩

theorem Fields.At.size_le {own : Bool} {a : Width} (h : fs.At 0 t off) :
    off + t.size ≤ (Ty.record own a fs).size := by
  have hround := le_roundUp (max 1 (fs.endFrom 0)) (bytesOf_pos (maxWidth a fs.align))
  have hle := h.offset_le.2
  rw [Ty.size]
  omega

/-- A field is aligned wherever its record is. -/
theorem Fields.At.aligned (h : fs.At pos t off) :
    bytesOf t.align ∣ off ∧ bytesOf t.align ∣ bytesOf fs.align := by
  induction h with
  | @head name a t fs pos =>
    have ha := bytesOf_dvd_right a t.align
    rw [Fields.align]
    exact ⟨ha.trans (dvd_roundUp _ _), ha.trans (bytesOf_dvd_left _ _)⟩
  | @tail name a t fs pos u off _ ih =>
    rw [Fields.align]
    exact ⟨ih.1, ih.2.trans (bytesOf_dvd_right _ _)⟩

theorem Fields.At.laid (h : fs.At pos t off) {at' c c' : Nat} (hl : fs.Laid bytes pos at' c c')
    (hc : c ≤ bytes.length) : ∃ m m', t.Laid bytes (at' + off) m m' ∧ m ≤ bytes.length := by
  induction h generalizing c with
  | head =>
    rw [Fields.Laid] at hl
    obtain ⟨m, hm, -⟩ := hl
    exact ⟨c, m, hm, hc⟩
  | tail _ ih =>
    rw [Fields.Laid] at hl
    obtain ⟨m, hm, hrest⟩ := hl
    exact ih hrest (Ty.Laid.le _ hm hc).2

/-- An element of a row, and its cursor. -/
theorem Threads.get {P : Nat → Nat → Nat → Prop} {step limit : Nat}
    (hP : ∀ at' c c', P at' c c' → c ≤ limit → c ≤ c' ∧ c' ≤ limit) :
    ∀ {at' c c'}, Threads P step at' count c c' → c ≤ limit → ∀ i < count,
      ∃ m m', P (at' + i * step) m m' ∧ m ≤ limit := by
  induction count with
  | zero => exact fun _ _ i hi => absurd hi (Nat.not_lt_zero i)
  | succ count ih =>
    rintro at' c c' ⟨m, hm, hrest⟩ hc i hi
    cases i with
    | zero => exact ⟨c, m, by rwa [Nat.zero_mul, Nat.add_zero], hc⟩
    | succ i =>
      obtain ⟨n, n', hn, hle⟩ := ih hrest (hP at' c m hm hc).2 i (by omega)
      refine ⟨n, n', ?_, hle⟩
      rwa [Nat.add_mul, Nat.one_mul, Nat.add_comm (i * step), ← Nat.add_assoc]

/-! ## Elements -/

/-- Where the elements of a `Vec` that is laid out are. -/
theorem Vec.Element.inside {e : Ty} {at' c c' p : Nat} (h : Vec.Element bytes e at' p)
    (hl : (Ty.vec e).Laid bytes at' c c') :
    p + e.size ≤ bytes.length ∧ bytesOf e.align ∣ p ∧
      ∃ m m', e.Laid bytes p m m' ∧ m ≤ bytes.length := by
  obtain ⟨i, hi, rfl⟩ := Vec.element_iff.mp h
  rw [Ty.Laid] at hl
  obtain ⟨hzero, -⟩ | ⟨-, hfirst, hend, hthreads⟩ := hl
  · omega
  · have hmul := Nat.mul_le_mul_right e.size (show i + 1 ≤ Vec.size bytes at' from hi)
    rw [Nat.add_mul, Nat.one_mul] at hmul
    refine ⟨by omega, ?_, Threads.get (fun _ _ _ => Ty.Laid.le e) hthreads hend i hi⟩
    refine Nat.dvd_add ?_ (e.align_dvd_size.mul_left i)
    rw [hfirst]
    exact (align_dvd_partAlignment e).trans (dvd_roundUp _ _)

theorem Reaches.trans {t u v : Ty} {at' q r : Nat} (h : Reaches bytes t at' u q)
    (h' : Reaches bytes u q v r) : Reaches bytes t at' v r := by
  induction h with
  | here => exact h'
  | field hat _ ih => exact .field hat (ih h')
  | element hel _ ih => exact .element hel (ih h')

/-- What is read from a view that is laid out is inside the bytes, aligned, and laid out. -/
theorem Reaches.laid (h : Reaches bytes t at' u q) :
    ∀ {c c'}, t.Laid bytes at' c c' → c ≤ bytes.length → at' + t.size ≤ bytes.length →
      bytesOf t.align ∣ at' → q + u.size ≤ bytes.length ∧ bytesOf u.align ∣ q ∧
        ∃ m m', u.Laid bytes q m m' := by
  induction h with
  | here => exact fun hl _ hin hdvd => ⟨hin, hdvd, _, _, hl⟩
  | @field own a fs at' t off u q hat _ ih =>
    intro c c' hl hc hin hdvd
    rw [Ty.Laid] at hl
    obtain ⟨m, m', hm, hle⟩ := hat.laid hl hc
    have hsize : off + t.size ≤ (Ty.record own a fs).size := hat.size_le
    rw [Ty.align] at hdvd
    refine ih hm hle (by omega) ?_
    exact Nat.dvd_add ((hat.aligned.2.trans (bytesOf_dvd_right _ _)).trans hdvd) hat.aligned.1
  | element hel _ ih =>
    intro c c' hl hc hin hdvd
    obtain ⟨hp, halign, m, m', hm, hle⟩ := hel.inside hl
    exact ih hm hle hp halign

/-! ## Parts -/

/-- A part: the `Vec` that points to it, where it starts, and its elements. -/
structure Part where
  vec : Nat
  start : Nat
  length : Nat
  element : Ty

/-- Where a part ends. -/
def Part.stop (p : Part) : Nat := p.start + p.length * p.element.size

/-- One of two parts ends before the other starts. -/
def Part.Apart (p q : Part) : Prop := p.stop ≤ q.start ∨ q.stop ≤ p.start

instance : Std.Symm Part.Apart := ⟨fun _ _ => Or.symm⟩

/-- The parts of `count` views in a row. -/
def rowParts (parts : Nat → List Part) (step : Nat) : (at' count : Nat) → List Part
  | _, 0 => []
  | at', count + 1 => parts at' ++ rowParts parts step (at' + step) count

mutual

/-- The parts that are read from a view, in pre-order. -/
def Ty.parts (bytes : Bytes) : Ty → Nat → List Part
  | .scalar _, _ => []
  | .record _ _ fs, at' => fs.parts bytes 0 at'
  | .vec e, at' =>
    if Vec.size bytes at' = 0 then []
    else ⟨at', Vec.first bytes at', Vec.size bytes at', e⟩ ::
      rowParts (e.parts bytes) e.size (Vec.first bytes at') (Vec.size bytes at')

/-- The parts of the fields of a record. -/
def Fields.parts (bytes : Bytes) : Fields → (pos at' : Nat) → List Part
  | .nil, _, _ => []
  | .cons _ a t fs, pos, at' =>
    t.parts bytes (at' + fieldOffset pos a t) ++
      fs.parts bytes (fieldOffset pos a t + t.size) at'

end

/-- Parts that follow each other from `c` to `c'`, each where its alignment allows. -/
def Chained : (c : Nat) → List Part → (c' : Nat) → Prop
  | c, [], c' => c' = c
  | c, p :: ps, c' => p.start = roundUp c (partAlignment p.element) ∧ Chained p.stop ps c'

theorem Chained.append {ps qs : List Part} {m c' : Nat} (hq : Chained m qs c') :
    ∀ {c}, Chained c ps m → Chained c (ps ++ qs) c' := by
  induction ps with
  | nil =>
    intro c hp
    obtain rfl : m = c := hp
    exact hq
  | cons p ps ih => exact fun ⟨hstart, hrest⟩ => ⟨hstart, ih hrest⟩

theorem Threads.chained (P : Nat → Nat → Nat → Prop) (parts : Nat → List Part)
    (hP : ∀ at' c c', P at' c c' → Chained c (parts at') c') :
    ∀ {at' c c'}, Threads P step at' count c c' → Chained c (rowParts parts step at' count) c' := by
  induction count with
  | zero => exact fun h => h
  | succ count ih =>
    rintro at' c c' ⟨m, hm, hrest⟩
    exact (ih hrest).append (hP at' c m hm)

mutual

/-- The parts of a view that is laid out follow each other. -/
theorem Ty.Laid.chained {bytes : Bytes} : ∀ (t : Ty) {at' c c' : Nat}, t.Laid bytes at' c c' →
    Chained c (t.parts bytes at') c'
  | .scalar s, at', c, c', h => by
    rw [Ty.Laid] at h
    rw [Ty.parts]
    exact h.2
  | .record own a fs, at', c, c', h => by
    rw [Ty.Laid] at h
    rw [Ty.parts]
    exact Fields.Laid.chained fs h
  | .vec e, at', c, c', h => by
    rw [Ty.Laid] at h
    rw [Ty.parts]
    obtain ⟨hzero, -, rfl⟩ | ⟨hpos, hfirst, hend, hthreads⟩ := h
    · rw [if_pos hzero]
      rfl
    · have hrow : Chained (Vec.first bytes at' + Vec.size bytes at' * e.size)
          (rowParts (e.parts bytes) e.size (Vec.first bytes at') (Vec.size bytes at')) c' :=
        Threads.chained (e.Laid bytes) (e.parts bytes) (fun _ _ _ => Ty.Laid.chained e) hthreads
      rw [if_neg (Nat.ne_of_gt hpos)]
      exact ⟨hfirst, hrow⟩

theorem Fields.Laid.chained {bytes : Bytes} : ∀ (fs : Fields) {pos at' c c' : Nat},
    fs.Laid bytes pos at' c c' → Chained c (fs.parts bytes pos at') c'
  | .nil, pos, at', c, c', h => by
    rw [Fields.Laid] at h
    rw [Fields.parts]
    exact h
  | .cons name a t fs, pos, at', c, c', h => by
    rw [Fields.Laid] at h
    rw [Fields.parts]
    obtain ⟨m, hm, hrest⟩ := h
    exact (Fields.Laid.chained fs hrest).append (Ty.Laid.chained t hm)

end

variable {ps : List Part}

/-- No part of a chain starts before it. -/
theorem Chained.le_start : ∀ {c c'}, Chained c ps c' → ∀ p ∈ ps, c ≤ p.start := by
  induction ps with
  | nil => exact fun _ p hp => absurd hp List.not_mem_nil
  | cons q ps ih =>
    rintro c c' ⟨hstart, hrest⟩ p hp
    have hround := le_roundUp c (partAlignment_pos q.element)
    obtain rfl | hp := List.mem_cons.mp hp
    · omega
    · have hle := ih hrest p hp
      rw [Part.stop] at hle
      omega

/-- Of two parts of a chain one ends before the other starts. -/
theorem Chained.pairwise : ∀ {c c'}, Chained c ps c' → ps.Pairwise fun p q => p.stop ≤ q.start := by
  induction ps with
  | nil => exact fun _ => .nil
  | cons p ps ih => exact fun ⟨_, hrest⟩ => .cons (fun q hq => hrest.le_start q hq) (ih hrest)

/-- What a chain does not cover lies before a part, where the one before has ended. -/
theorem Chained.cover : ∀ {c c'}, Chained c ps c' → ∀ i, c ≤ i → i < c' →
    (∃ p ∈ ps, p.start ≤ i ∧ i < p.stop) ∨
      ∃ p ∈ ps, ∃ m, p.start = roundUp m (partAlignment p.element) ∧ m ≤ i ∧ i < p.start ∧
        (m = c ∨ ∃ q ∈ ps, m = q.stop) := by
  induction ps with
  | nil =>
    intro c c' h i hi hlt
    obtain rfl : c' = c := h
    omega
  | cons p ps ih =>
    rintro c c' ⟨hstart, hrest⟩ i hi hlt
    by_cases hbefore : i < p.start
    · exact .inr ⟨p, List.mem_cons_self, c, hstart, hi, hbefore, .inl rfl⟩
    by_cases hin : i < p.stop
    · exact .inl ⟨p, List.mem_cons_self, Nat.not_lt.mp hbefore, hin⟩
    obtain ⟨q, hq, h⟩ | ⟨q, hq, m, hround, hle, hgap, hm⟩ := ih hrest i (Nat.not_lt.mp hin) hlt
    · exact .inl ⟨q, List.mem_cons_of_mem p hq, h⟩
    · refine .inr ⟨q, List.mem_cons_of_mem p hq, m, hround, hle, hgap, .inr ?_⟩
      obtain rfl | ⟨r, hr, rfl⟩ := hm
      · exact ⟨p, List.mem_cons_self, rfl⟩
      · exact ⟨r, List.mem_cons_of_mem p hr, rfl⟩

theorem mem_rowParts {parts : Nat → List Part} {p : Part} :
    ∀ {at'}, p ∈ rowParts parts step at' count ↔ ∃ i < count, p ∈ parts (at' + i * step) := by
  induction count with
  | zero =>
    exact fun {at'} => ⟨fun h => absurd h List.not_mem_nil, fun ⟨i, hi, _⟩ => absurd hi (by omega)⟩
  | succ count ih =>
    intro at'
    have hnext : ∀ i, at' + step + i * step = at' + (i + 1) * step := fun i => by
      rw [Nat.add_mul, Nat.one_mul, Nat.add_comm (i * step), Nat.add_assoc]
    rw [rowParts, List.mem_append, ih]
    constructor
    · rintro (h | ⟨i, hi, h⟩)
      · exact ⟨0, Nat.succ_pos count, by rwa [Nat.zero_mul, Nat.add_zero]⟩
      · exact ⟨i + 1, by omega, hnext i ▸ h⟩
    · rintro ⟨i, hi, h⟩
      cases i with
      | zero => exact .inl (by rwa [Nat.zero_mul, Nat.add_zero] at h)
      | succ i => exact .inr ⟨i, by omega, (hnext i).symm ▸ h⟩

/-- The part of the `Vec` at a position. -/
def partOf (bytes : Bytes) (e : Ty) (p : Nat) : Part :=
  ⟨p, Vec.first bytes p, Vec.size bytes p, e⟩

theorem Fields.At.mem_parts (h : fs.At pos t off) {p : Part} (hp : p ∈ t.parts bytes (at' + off)) :
    p ∈ fs.parts bytes pos at' := by
  induction h with
  | head =>
    rw [Fields.parts]
    exact List.mem_append_left _ hp
  | tail _ ih =>
    rw [Fields.parts]
    exact List.mem_append_right _ (ih hp)

/-- The part of a `Vec` that can be read is among the parts. -/
theorem Reaches.mem_parts (h : Reaches bytes t at' u q) : ∀ {e}, u = .vec e → Vec.size bytes q ≠ 0 →
      partOf bytes e q ∈ t.parts bytes at' := by
  induction h with
  | here =>
    rintro e rfl hsize
    rw [Ty.parts, if_neg hsize]
    exact List.mem_cons_self
  | field hat _ ih =>
    intro e hu hsize
    rw [Ty.parts]
    exact hat.mem_parts (ih hu hsize)
  | @element e' at' p u q hel _ ih =>
    intro e hu hsize
    obtain ⟨i, hi, rfl⟩ := Vec.element_iff.mp hel
    rw [Ty.parts, if_neg (by omega)]
    exact List.mem_cons_of_mem _ (mem_rowParts.mpr ⟨i, hi, ih hu hsize⟩)

mutual

/-- Every part is that of a `Vec` that can be read. -/
theorem Ty.reaches_of_mem {bytes : Bytes} : ∀ (t : Ty) {at' : Nat} {p : Part},
    p ∈ t.parts bytes at' → Reaches bytes t at' (.vec p.element) p.vec ∧
      p = partOf bytes p.element p.vec ∧ Vec.size bytes p.vec ≠ 0
  | .scalar s, at', p, h => by
    rw [Ty.parts] at h
    exact absurd h List.not_mem_nil
  | .record own a fs, at', p, h => by
    rw [Ty.parts] at h
    obtain ⟨t, off, hat, hr, hp⟩ := Fields.reaches_of_mem fs h
    exact ⟨.field hat hr, hp⟩
  | .vec e, at', p, h => by
    rw [Ty.parts] at h
    split at h
    case isTrue => exact absurd h List.not_mem_nil
    case isFalse hsize =>
      obtain rfl | h := List.mem_cons.mp h
      · exact ⟨.here, rfl, hsize⟩
      · obtain ⟨i, hi, h⟩ := mem_rowParts.mp h
        obtain ⟨hr, hp⟩ := Ty.reaches_of_mem e h
        exact ⟨.element (Vec.element_iff.mpr ⟨i, hi, rfl⟩) hr, hp⟩

theorem Fields.reaches_of_mem {bytes : Bytes} : ∀ (fs : Fields) {pos at' : Nat} {p : Part},
    p ∈ fs.parts bytes pos at' → ∃ t off, fs.At pos t off ∧
      Reaches bytes t (at' + off) (.vec p.element) p.vec ∧
      p = partOf bytes p.element p.vec ∧ Vec.size bytes p.vec ≠ 0
  | .nil, pos, at', p, h => by
    rw [Fields.parts] at h
    exact absurd h List.not_mem_nil
  | .cons name a t fs, pos, at', p, h => by
    rw [Fields.parts] at h
    obtain h | h := List.mem_append.mp h
    · exact ⟨t, _, .head, Ty.reaches_of_mem t h⟩
    · obtain ⟨u, off, hat, hr⟩ := Fields.reaches_of_mem fs h
      exact ⟨u, off, .tail hat, hr⟩

end

/-! ## Accepted bytes -/

/-- What the root of accepted bytes promises: what is read through it is inside the bytes, aligned
at its address, and a bool where it is one; the parts are apart from the header and the root and
from each other, and with the gaps their alignment asks for they cover the bytes; the checker
wraps nowhere, and places a part where its `Vec` points. -/
structure Safe (root : Record) (base : Nat) (bytes : Bytes) : Prop where
  inside : ∀ u q, Reaches bytes root.ty 8 u q → q + u.size ≤ bytes.length
  aligned : ∀ u q, Reaches bytes root.ty 8 u q → bytesOf u.align ∣ base + q
  bools : ∀ s q, s.arithmeticT = .bool → Reaches bytes root.ty 8 (.scalar s) q →
    ∃ b, bytes[q]? = some b ∧ (b = 0 ∨ b = 1)
  apart : ∀ e p, Reaches bytes root.ty 8 (.vec e) p → Vec.size bytes p ≠ 0 →
    8 + root.ty.size ≤ (partOf bytes e p).start
  disjoint : ∀ e p e' p', Reaches bytes root.ty 8 (.vec e) p → Vec.size bytes p ≠ 0 →
    Reaches bytes root.ty 8 (.vec e') p' → Vec.size bytes p' ≠ 0 →
      (e = e' ∧ p = p') ∨ (partOf bytes e p).Apart (partOf bytes e' p')
  covered : ∀ i < bytes.length, i < 8 + root.ty.size ∨
    (∃ e p, Reaches bytes root.ty 8 (.vec e) p ∧ Vec.size bytes p ≠ 0 ∧
      (partOf bytes e p).start ≤ i ∧ i < (partOf bytes e p).stop) ∨
    ∃ e p m, Reaches bytes root.ty 8 (.vec e) p ∧ Vec.size bytes p ≠ 0 ∧
      (partOf bytes e p).start = roundUp m (partAlignment e) ∧
      m ≤ i ∧ i < (partOf bytes e p).start ∧ (m = 8 + root.ty.size ∨
        ∃ e' p', Reaches bytes root.ty 8 (.vec e') p' ∧ Vec.size bytes p' ≠ 0 ∧
          m = (partOf bytes e' p').stop)
  exact : view .exact bytes root base = .ok 8
  placed : ∀ e p c c' r, Reaches bytes root.ty 8 (.vec e) p → c ≤ bytes.length →
    place .machine bytes p e.size (partAlignment e) c = .ok (r, c') → r.length ≠ 0 →
    r.at' = Vec.first bytes p ∧ r.length = Vec.size bytes p

/-- The header of a blob of `root`, and its root laid out up to the end of the bytes. -/
structure Accepts (root : Record) (base : Nat) (bytes : Bytes) : Prop where
  base : base % 8 = 0
  holds : 8 + root.ty.size ≤ bytes.length
  length_lt : bytes.length < 2 ^ 32
  magic : leValue (substr bytes 0 4) = magic
  fingerprint : leValue (substr bytes 4 4) = root.ty.fingerprintV.toNat
  laid : root.ty.Laid bytes 8 (8 + root.ty.size) bytes.length

/-- What `view` comes to: an error, or the root. -/
def viewed : Except Bincode.RichError Nat → Except Stop Nat
  | .ok p => .ok p
  | .error e => .error (.refused e)

/-- Past the checks of the header, `view` is what the checker makes of the root. -/
theorem view_eq {ar : Arithmetic64} {root : Record} {base : Nat} {bytes : Bytes}
    (hbase : base % 8 = 0) (hholds : 8 + root.ty.size ≤ bytes.length)
    (hlen : bytes.length < 2 ^ 32) (hmagic : leValue (substr bytes 0 4) = magic)
    (hprint : leValue (substr bytes 4 4) = root.ty.fingerprintV.toNat) :
    view ar bytes root base = (root.ty.check ar bytes 8 (8 + root.ty.size) >>= fun r =>
      if r.2 ≠ bytes.length then
        .error (.refused { message := ascii "bytes past the blob's last part" })
      else .ok 8) := by
  have hsize : ¬ (bytes.length < 8 + root.ty.size ∨ bytes.length > 2 ^ 32 - 1) := by omega
  rw [view]
  exact (if_neg (not_not.mpr hbase)).trans ((if_neg hsize).trans
    ((if_neg (not_not.mpr hmagic)).trans (if_neg (not_not.mpr hprint))))

/-- Where nothing wraps, `view` comes out the same with any sound arithmetic, and gives the root
of exactly the bytes laid out as a blob. -/
theorem view_decides (hfits : Fits bytes root.ty 8) (base : Nat) :
    ∃ r, (∀ ar : Arithmetic64, ar.Sound → view ar bytes root base = viewed r) ∧
      ∀ p, r = .ok p ↔ p = 8 ∧ Accepts root base bytes := by
  have hrefuse : ∀ message, (¬ Accepts root base bytes) →
      (∀ ar : Arithmetic64, ar.Sound →
        view ar bytes root base = .error (.refused { message := message })) →
      ∃ r, (∀ ar : Arithmetic64, ar.Sound → view ar bytes root base = viewed r) ∧
        ∀ p, r = .ok p ↔ p = 8 ∧ Accepts root base bytes := fun message hnot heq =>
    ⟨.error { message := message }, heq, fun p => ⟨fun h => (by cases h), fun h => (hnot h.2).elim⟩⟩
  by_cases hbase : base % 8 ≠ 0
  · exact hrefuse _ (fun h => hbase h.base) fun ar _ => by rw [view]; exact if_pos hbase
  by_cases hsize : bytes.length < 8 + root.ty.size ∨ bytes.length > 2 ^ 32 - 1
  · refine hrefuse _ (fun h => ?_) fun ar _ => by
      rw [view]; exact (if_neg hbase).trans (if_pos hsize)
    have := h.holds
    have := h.length_lt
    omega
  by_cases hmagic : leValue (substr bytes 0 4) ≠ magic
  · exact hrefuse _ (fun h => hmagic h.magic) fun ar _ => by
      rw [view]; exact (if_neg hbase).trans ((if_neg hsize).trans (if_pos hmagic))
  by_cases hprint : leValue (substr bytes 4 4) ≠ root.ty.fingerprintV.toNat
  · exact hrefuse _ (fun h => hprint h.fingerprint) fun ar _ => by
      rw [view]
      exact (if_neg hbase).trans ((if_neg hsize).trans ((if_neg hmagic).trans (if_pos hprint)))
  have hlen : bytes.length < 2 ^ 32 := by omega
  have hin : 8 + root.ty.size ≤ bytes.length := by omega
  have hview := fun ar : Arithmetic64 => @view_eq ar root base bytes (not_not.mp hbase) hin hlen
    (not_not.mp hmagic) (not_not.mp hprint)
  obtain ⟨r, hr, hlaid⟩ := Ty.check_decides hlen root.ty hin hin hfits
  replace hr : ∀ ar : Arithmetic64, ar.Sound →
      root.ty.check ar bytes 8 (8 + root.ty.size) = outcome r := hr
  cases r with
  | error e =>
    refine ⟨.error e, fun ar har => ?_, fun p => ⟨fun h => (by cases h), fun h => ?_⟩⟩
    · rw [hview, hr ar har]
      rfl
    · cases (hlaid _).mpr h.2.laid
  | ok c =>
    by_cases hend : c ≠ bytes.length
    · refine hrefuse (ascii "bytes past the blob's last part") (fun h => ?_) fun ar har => ?_
      · exact hend (Except.ok.inj ((hlaid _).mpr h.laid))
      · rw [hview, hr ar har]
        exact if_pos hend
    · obtain rfl : c = bytes.length := not_not.mp hend
      refine ⟨.ok 8, fun ar har => ?_, fun p => ⟨fun h => ?_, fun h => by rw [h.1]⟩⟩
      · rw [hview, hr ar har]
        exact if_neg hend
      · exact ⟨(Except.ok.inj h).symm, not_not.mp hbase, hin, hlen, not_not.mp hmagic,
          not_not.mp hprint, (hlaid _).mp rfl⟩

theorem le_one_iff {b : UInt8} : b ≤ 1 ↔ b = 0 ∨ b = 1 := by
  rw [UInt8.le_iff_toNat_le, ← UInt8.toNat_inj, ← UInt8.toNat_inj]
  change b.toNat ≤ 1 ↔ b.toNat = 0 ∨ b.toNat = 1
  omega

/-- Bytes laid out as a blob keep what the root promises. -/
theorem Accepts.safe (h : Accepts root base bytes) (hfits : Fits bytes root.ty 8) :
    Safe root base bytes := by
  have hroot : bytesOf root.ty.align ∣ 8 := bytesOf_dvd _
  have hreach : ∀ {u q}, Reaches bytes root.ty 8 u q → q + u.size ≤ bytes.length ∧
      bytesOf u.align ∣ q ∧ ∃ m m', u.Laid bytes q m m' := fun hr =>
    hr.laid h.laid h.holds h.holds hroot
  have hchain := Ty.Laid.chained root.ty h.laid
  have hmem : ∀ {e p}, Reaches bytes root.ty 8 (.vec e) p → Vec.size bytes p ≠ 0 →
      partOf bytes e p ∈ root.ty.parts bytes 8 := fun hr hsize => hr.mem_parts rfl hsize
  refine ⟨fun u q hr => (hreach hr).1, fun u q hr => ?_, fun s q hbool hr => ?_,
    fun e p hr hsize => hchain.le_start _ (hmem hr hsize), fun e p e' p' hr hsize hr' hsize' => ?_,
    fun i hi => ?_, ?_, ?_⟩
  · exact Nat.dvd_add ((bytesOf_dvd _).trans (Nat.dvd_of_mod_eq_zero h.base)) (hreach hr).2.1
  · obtain ⟨m, m', hl⟩ := (hreach hr).2.2
    rw [Ty.Laid] at hl
    obtain ⟨b, hb, hle⟩ := hl.1 hbool
    exact ⟨b, hb, le_one_iff.mp hle⟩
  · by_cases heq : partOf bytes e p = partOf bytes e' p'
    · exact .inl ⟨congrArg Part.element heq, congrArg Part.vec heq⟩
    · right
      have hpair : (root.ty.parts bytes 8).Pairwise Part.Apart :=
        hchain.pairwise.imp fun hle => .inl hle
      exact hpair.forall (hmem hr hsize) (hmem hr' hsize') heq
  · by_cases hbefore : i < 8 + root.ty.size
    · exact .inl hbefore
    right
    obtain ⟨x, hx, hin⟩ | ⟨x, hx, m, hround, hle, hlt, hm⟩ :=
      hchain.cover i (Nat.not_lt.mp hbefore) hi
    · obtain ⟨hr, heq, hsize⟩ := Ty.reaches_of_mem root.ty hx
      exact .inl ⟨x.element, x.vec, hr, hsize, heq ▸ hin⟩
    · obtain ⟨hr, heq, hsize⟩ := Ty.reaches_of_mem root.ty hx
      refine .inr ⟨x.element, x.vec, m, hr, hsize, heq ▸ hround, hle, heq ▸ hlt, ?_⟩
      obtain hm | ⟨y, hy, hm⟩ := hm
      · exact .inl hm
      · obtain ⟨hr', heq', hsize'⟩ := Ty.reaches_of_mem root.ty hy
        exact .inr ⟨y.element, y.vec, hr', hsize', hm.trans (congrArg Part.stop heq')⟩
  · obtain ⟨r, hr, hp⟩ := view_decides hfits base
    obtain rfl : r = .ok 8 := (hp 8).mpr ⟨rfl, h⟩
    exact hr _ Arithmetic64.exact_sound
  · intro e p c c' r hr hc hplace hlength
    have hin := (hreach hr).1
    rw [Ty.size] at hin
    rw [place_eq Arithmetic64.machine_sound h.length_lt hin hc (hfits e p hr)] at hplace
    split at hplace
    case isTrue =>
      split at hplace
      · cases hplace
      · cases hplace
        exact absurd rfl hlength
    case isFalse =>
      split at hplace
      · cases hplace
      split at hplace
      · cases hplace
      · cases hplace
        exact ⟨rfl, rfl⟩

/-- Bytes whose elements all lie inside them hold no `Vec` that spans more than they do. -/
theorem Safe.fits (h : Safe root base bytes) (hlen : bytes.length < 2 ^ 32) :
    Fits bytes root.ty 8 := by
  intro e p hr
  by_cases hsize : Vec.size bytes p = 0
  · rw [hsize, Nat.zero_mul]
    decide
  obtain ⟨n, hn⟩ := Nat.exists_eq_succ_of_ne_zero hsize
  have hlast : Reaches bytes root.ty 8 e (Vec.first bytes p + n * e.size) :=
    hr.trans (.element (Vec.element_iff.mpr ⟨n, by omega, rfl⟩) .here)
  have hin := h.inside e _ hlast
  rw [hn, Nat.succ_mul]
  omega

mutual

/-- Every element of a sequence is smaller than 4 GiB. -/
def Ty.Small : Ty → Prop
  | .scalar _ => True
  | .vec e => e.size < 2 ^ 32 ∧ e.Small
  | .record _ _ fs => fs.Small

/-- The same in every field. -/
def Fields.Small : Fields → Prop
  | .nil => True
  | .cons _ _ t fs => t.Small ∧ fs.Small

end

theorem Fields.At.small (h : fs.At pos t off) (hs : fs.Small) : t.Small := by
  induction h with
  | head =>
    rw [Fields.Small] at hs
    exact hs.1
  | tail _ ih =>
    rw [Fields.Small] at hs
    exact ih hs.2

theorem Reaches.small (h : Reaches bytes t at' u q) (hs : t.Small) : u.Small := by
  induction h with
  | here => exact hs
  | field hat _ ih =>
    rw [Ty.Small] at hs
    exact ih (hat.small hs)
  | element _ _ ih =>
    rw [Ty.Small] at hs
    exact ih hs.2

/-- Elements smaller than 4 GiB span too little to wrap, however many there are. -/
theorem Ty.Small.fits (h : t.Small) (bytes : Bytes) (at' : Nat) : Fits bytes t at' := by
  intro e p hr
  have hsmall := hr.small h
  rw [Ty.Small] at hsmall
  have hsize : Vec.size bytes p < 2 ^ 32 := by
    refine (leBytes_leValue _).2.trans_le (Nat.pow_le_pow_right (by decide) ?_)
    rw [length_substr]
    omega
  calc Vec.size bytes p * e.size ≤ (2 ^ 32 - 1) * (2 ^ 32 - 1) :=
        Nat.mul_le_mul (by omega) (by omega)
    _ < 2 ^ 64 - 2 ^ 32 := by decide

theorem view_length {ar : Arithmetic64} (h : view ar bytes root base = .ok p) :
    bytes.length < 2 ^ 32 := by
  by_contra hlen
  have hsize : bytes.length < 8 + root.ty.size ∨ bytes.length > 2 ^ 32 - 1 := .inr (by omega)
  rw [view] at h
  dsimp only at h
  split at h
  · cases h
  · cases h

theorem view_root {ar : Arithmetic64} (h : view ar bytes root base = .ok p) : p = 8 := by
  rw [view] at h
  dsimp only at h
  split at h
  · cases h
  split at h
  · cases h
  split at h
  · cases h
  split at h
  · cases h
  cases hcheck : root.ty.check ar bytes 8 (8 + root.ty.size) with
  | error s => rw [hcheck] at h; cases h
  | ok r =>
    rw [hcheck] at h
    change (if r.2 ≠ bytes.length then _ else _) = _ at h
    split at h
    · cases h
    · exact (Except.ok.inj h).symm

/-- What `view` accepts is safe to read exactly where no `Vec` spans 2^64 - 2^32 bytes. Over a type
whose elements are all smaller than 4 GiB none does, and then the check of any bytes, accepted or
not, ends with no sum, difference or product that wraps and no read outside the bytes. -/
theorem view_safe_iff (root : Record) :
    (∀ bytes base p, view .machine bytes root base = .ok p →
      (Safe root base bytes ↔ Fits bytes root.ty 8)) ∧
    (root.ty.Small → ∀ bytes, Fits bytes root.ty 8 ∧ ∀ base,
      view .exact bytes root base = view .machine bytes root base ∧
        ∀ s, view .exact bytes root base = .error s → ∃ e, s = .refused e) := by
  constructor
  · intro bytes base p hview
    refine ⟨fun h => h.fits (view_length hview), fun hfits => ?_⟩
    obtain ⟨r, hr, hp⟩ := view_decides hfits base
    rw [hr _ Arithmetic64.machine_sound] at hview
    cases r with
    | error e => cases hview
    | ok q => exact ((hp q).mp rfl).2.safe hfits
  · intro hsmall bytes
    refine ⟨hsmall.fits bytes 8, fun base => ?_⟩
    obtain ⟨r, hr, -⟩ := view_decides (hsmall.fits bytes 8) base
    rw [hr _ Arithmetic64.exact_sound, hr _ Arithmetic64.machine_sound]
    refine ⟨rfl, fun s hs => ?_⟩
    cases r with
    | error e => exact ⟨e, (Except.error.inj hs).symm⟩
    | ok q => cases hs

/-- A bool and a string. -/
def probe : Record :=
  ⟨false, .w8, .cons (ascii "flag") .w8 (.scalar (.arithmetic .bool))
    (.cons (ascii "text") .w8 (.vec .char) .nil)⟩

/-- The bytes of a probe that is true and says abc. -/
def probeBytes : Bytes :=
  leBytes 4 magic ++ leBytes 4 probe.ty.fingerprintV.toNat ++ [1, 0, 0, 0] ++ leBytes 4 8 ++
    leBytes 4 3 ++ ascii "abc"

theorem view_safe_probe : Safe probe 0 probeBytes := by
  have hsmall : probe.ty.Small := by
    simp only [Record.ty, probe, Ty.char, Ty.Small, Fields.Small, and_true, true_and]
    decide
  exact ((view_safe_iff probe).1 probeBytes 0 8 (by decide +kernel)).mpr
    ((view_safe_iff probe).2 hsmall probeBytes).1

/-! ## A record of 8 GiB -/

/-- Records of two records of two records, down to numbers of 64 bits. -/
def twice : Nat → Ty
  | 0 => .scalar (.arithmetic (.unsigned .w64))
  | n + 1 =>
    .record true .w8 (.cons (ascii "a") .w8 (twice n) (.cons (ascii "b") .w8 (twice n) .nil))

theorem twice_layout (n : Nat) :
    (twice n).align = .w64 ∧ (twice n).size = 2 ^ (n + 3) ∧ (twice n).needsCheck = false := by
  induction n with
  | zero => exact ⟨rfl, rfl, rfl⟩
  | succ n ih =>
    obtain ⟨halign, hsize, hcheck⟩ := ih
    have hdvd : 8 ∣ 2 ^ (n + 3) := ⟨2 ^ n, by rw [Nat.pow_add, Nat.mul_comm]⟩
    have hpos : 0 < 2 ^ (n + 3) := Nat.two_pow_pos _
    have hw : bytesOf (maxWidth .w8 .w64) = 8 := rfl
    have hzero : roundUp 0 8 = 0 := rfl
    have hdouble : 2 ^ (n + 3) + 2 ^ (n + 3) = 2 ^ (n + 1 + 3) := by
      rw [show n + 1 + 3 = n + 3 + 1 from rfl, Nat.pow_succ 2 (n + 3)]
      omega
    have hround : roundUp (2 ^ (n + 3)) 8 = 2 ^ (n + 3) := roundUp_of_dvd (by decide) hdvd
    refine ⟨?_, ?_, ?_⟩
    · simp only [twice, Ty.align, Fields.align, halign]
      decide
    · have hw' : bytesOf (maxWidth .w8 (maxWidth (maxWidth .w8 .w64)
          (maxWidth (maxWidth .w8 .w64) .w8))) = 8 := rfl
      simp only [twice, Ty.size, Fields.endFrom, fieldOffset, Fields.align, halign, hsize, hw, hw',
        hzero, Nat.zero_add, hround, hdouble]
      rw [Nat.max_eq_right (by omega)]
      exact roundUp_of_dvd (by decide) (hdvd.trans (Nat.pow_dvd_pow 2 (by omega)))
    · simp only [twice, Ty.needsCheck, Fields.needsCheck, hcheck, Bool.or_self]

/-- A record with one sequence, of records of 8 GiB. -/
def wide : Record := ⟨false, .w8, .cons (ascii "elements") .w8 (.vec (twice 30)) .nil⟩

/-- A header and a root whose sequence has 2^31 elements, and no byte more. -/
def wideBytes : Bytes :=
  leBytes 4 magic ++ leBytes 4 wide.ty.fingerprintV.toNat ++ leBytes 4 8 ++ leBytes 4 (2 ^ 31)

private theorem wide_header (fp : Nat) :
    leValue (substr (leBytes 4 magic ++ leBytes 4 fp ++ leBytes 4 8 ++ leBytes 4 (2 ^ 31)) 0 4) =
        magic ∧
      substr (leBytes 4 magic ++ leBytes 4 fp ++ leBytes 4 8 ++ leBytes 4 (2 ^ 31)) 4 4 =
        leBytes 4 fp ∧
      Vec.offset (leBytes 4 magic ++ leBytes 4 fp ++ leBytes 4 8 ++ leBytes 4 (2 ^ 31)) 8 = 8 ∧
      Vec.size (leBytes 4 magic ++ leBytes 4 fp ++ leBytes 4 8 ++ leBytes 4 (2 ^ 31)) 8 = 2 ^ 31 :=
  ⟨rfl, rfl, rfl, rfl⟩

theorem length_wideBytes : wideBytes.length = 16 := by
  simp only [wideBytes, List.length_append, length_leBytes]

theorem wide_vec : Vec.offset wideBytes 8 = 8 ∧ Vec.size wideBytes 8 = 2 ^ 31 :=
  (wide_header _).2.2

theorem wide_reaches : Reaches wideBytes wide.ty 8 (.vec (twice 30)) 8 := .field .head .here

/-- The product of 2^31 and 2^33 wraps to zero, and the bytes are accepted. -/
theorem wide_accepted : view .machine wideBytes wide 0 = .ok 8 := by
  obtain ⟨-, hsize, hcheck⟩ := twice_layout 30
  obtain ⟨hoffset, hcount⟩ := wide_vec
  have hlength := length_wideBytes
  have hplace : place .machine wideBytes 8 (twice 30).size (partAlignment (twice 30)) 16 =
      .ok (⟨16, 2 ^ 31⟩, 16) := by
    have halign : partAlignment (twice 30) = 8 := rfl
    rw [hsize, halign, place, pairAt, hlength, hoffset, hcount]
    rfl
  have hsequence : (Ty.vec (twice 30)).check .machine wideBytes 8 16 = .ok ((), 16) := by
    rw [Ty.check, Step.bind_of_ok hplace, hcheck]
    rfl
  have hfield : prepend (.field (ascii "elements"))
      ((Ty.vec (twice 30)).check .machine wideBytes 8) 16 = .ok ((), 16) := by
    rw [prepend, hsequence]
  have hroot : wide.ty.check .machine wideBytes 8 16 = .ok ((), 16) := by
    have hneeds : (Ty.vec (twice 30)).needsCheck = true := by rw [Ty.needsCheck]
    have hoff : fieldOffset 0 .w8 (.vec (twice 30)) = 0 := by
      rw [fieldOffset, Ty.align]
      rfl
    have hadd : Arithmetic64.machine.add 8 0 = .ok 8 := rfl
    rw [wide, Record.ty, Ty.check, Fields.needsCheck, hneeds, Bool.true_or, if_pos rfl,
      Fields.check, hoff, Step.lift_bind hadd, Step.bind_of_ok hfield, Fields.check]
    rfl
  have hfp : wide.ty.fingerprintV.toNat < 2 ^ (8 * 4) := wide.ty.fingerprintV.toNat_lt
  obtain ⟨hmagic, hprint, -⟩ := wide_header wide.ty.fingerprintV.toNat
  have hnamed : leValue (substr wideBytes 4 4) = wide.ty.fingerprintV.toNat :=
    (congrArg leValue hprint).trans (leValue_leBytes_of_lt hfp)
  have hsmall : wideBytes.length < 2 ^ 32 := by
    rw [hlength]
    decide
  have hholds : 8 + wide.ty.size ≤ wideBytes.length := Nat.le_of_eq hlength.symm
  rw [view_eq rfl hholds hsmall hmagic hnamed]
  change (wide.ty.check .machine wideBytes 8 16 >>= _) = _
  rw [hroot, hlength]
  rfl

/-- Bytes are accepted that do not hold the elements their root has. -/
theorem view_wide : view .machine wideBytes wide 0 = .ok 8 ∧ ¬ Safe wide 0 wideBytes := by
  obtain ⟨-, hsize, -⟩ := twice_layout 30
  obtain ⟨hoffset, hcount⟩ := wide_vec
  refine ⟨wide_accepted, fun hsafe => ?_⟩
  have helement : Vec.Element wideBytes (twice 30) 8 (Vec.first wideBytes 8 + 0 * _) :=
    Vec.element_iff.mpr ⟨0, by rw [hcount]; decide, rfl⟩
  have hin := hsafe.inside _ _ (wide_reaches.trans (.element helement .here))
  rw [hsize, length_wideBytes] at hin
  omega

end Kotatsu.Codec.Blob
