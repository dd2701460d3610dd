import Kotatsu.Codec.Blob.Checker

/-!
# What the checker decides

`Ty.Laid` is the layout a blob documents, read off the bytes: each part stands at the
next place its alignment allows after the part before it, elements follow each other,
and a bool is 0 or 1. As long as no `Vec` spans 2^64 - 2^32 bytes, whose end a 64-bit
sum could miss, the checker accepts exactly what is laid out so, wraps nowhere, and
reads no byte that is not there.
-/

namespace Kotatsu.Codec.Blob

open Kotatsu.Core
open Kotatsu.Codec.Bincode (RichError PathSegment)

/-! ## What can be read -/

/-- Where an element of the `Vec` at `p` is, through its index, its data or its iterators. -/
def Vec.Element (bytes : Bytes) (e : Ty) (p q : Nat) : Prop :=
  (∃ i < Vec.size bytes p, q = Vec.index bytes e p i) ∨
    (∃ d, Vec.data bytes p = some d ∧ ∃ i < Vec.size bytes p, q = d + i * e.size) ∨
    ∃ b l, Vec.begin bytes p = some b ∧ Vec.finish bytes e p = some l ∧
      ∃ i, q = b + i * e.size ∧ q < l

variable {bytes : Bytes} {e : Ty} {at' : Nat}

theorem Vec.element_iff {p q : Nat} :
    Vec.Element bytes e p q ↔
      ∃ i < Vec.size bytes p, q = Vec.first bytes p + i * e.size := by
  constructor
  · rintro (h | ⟨d, hd, i, hi, rfl⟩ | ⟨b, l, hb, hl, i, rfl, hlt⟩)
    · exact h
    · obtain ⟨-, rfl⟩ := by simpa [Vec.data] using hd
      exact ⟨i, hi, rfl⟩
    · have hb' : Vec.data bytes p = some b := hb
      obtain ⟨-, rfl⟩ := by simpa [Vec.data] using hb'
      rw [Vec.finish, hb', Option.map_some, Option.some.injEq] at hl
      subst hl
      refine ⟨i, Nat.lt_of_mul_lt_mul_right (a := e.size) ?_, rfl⟩
      omega
  · exact fun h => .inl h

/-- A field of a record, `pos` bytes of which precede the fields, and its offset. -/
inductive Fields.At : Fields → Nat → Ty → Nat → Prop where
  | head {name a t fs pos} : Fields.At (.cons name a t fs) pos t (fieldOffset pos a t)
  | tail {name a t fs pos u off} : Fields.At fs (fieldOffset pos a t + t.size) u off →
      Fields.At (.cons name a t fs) pos u off

/-- What is read from a view in place by its fields and its elements, and where. -/
inductive Reaches (bytes : Bytes) : Ty → Nat → Ty → Nat → Prop where
  | here {t at'} : Reaches bytes t at' t at'
  | field {own a fs at' t off u q} : Fields.At fs 0 t off → Reaches bytes t (at' + off) u q →
      Reaches bytes (.record own a fs) at' u q
  | element {e at' p u q} : Vec.Element bytes e at' p → Reaches bytes e p u q →
      Reaches bytes (.vec e) at' u q

/-- No `Vec` that is read spans 2^64 - 2^32 bytes. -/
def Fits (bytes : Bytes) (t : Ty) (at' : Nat) : Prop :=
  ∀ e p, Reaches bytes t at' (.vec e) p → Vec.size bytes p * e.size < 2 ^ 64 - 2 ^ 32

theorem Fits.field {own : Bool} {a : Bincode.Width} {fs : Fields}
    (h : Fits bytes (.record own a fs) at') {t : Ty} {off : Nat} (hat : fs.At 0 t off) :
    Fits bytes t (at' + off) := fun e p hr => h e p (.field hat hr)

theorem Fits.element {at' i : Nat} (h : Fits bytes (.vec e) at') (hi : i < Vec.size bytes at') :
    Fits bytes e (Vec.first bytes at' + i * e.size) :=
  fun u p hr => h u p (.element (Vec.element_iff.mpr ⟨i, hi, rfl⟩) hr)

/-! ## The layout -/

/-- `count` views in a row, `step` bytes apart from `at'` on, each with its parts before those
of the next one. -/
def Threads (P : Nat → Nat → Nat → Prop) (step : Nat) : (at' count c c' : Nat) → Prop
  | _, 0, c, c' => c' = c
  | at', count + 1, c, c' => ∃ m, P at' c m ∧ Threads P step (at' + step) count m c'

mutual

/-- The bytes hold the view at `at'`, with its parts from the cursor `c` to the cursor `c'`. -/
def Ty.Laid (bytes : Bytes) : Ty → (at' c c' : Nat) → Prop
  | .scalar s, at', c, c' =>
    (s.arithmeticT = .bool → ∃ b, bytes[at']? = some b ∧ b ≤ 1) ∧ c' = c
  | .record _ _ fs, at', c, c' => fs.Laid bytes 0 at' c c'
  | .vec e, at', c, c' =>
    (Vec.size bytes at' = 0 ∧ Vec.offset bytes at' = 0 ∧ c' = c) ∨
      (0 < Vec.size bytes at' ∧ Vec.first bytes at' = roundUp c (partAlignment e) ∧
        Vec.first bytes at' + Vec.size bytes at' * e.size ≤ bytes.length ∧
        Threads (e.Laid bytes) e.size (Vec.first bytes at') (Vec.size bytes at')
          (Vec.first bytes at' + Vec.size bytes at' * e.size) c')

/-- The same of the fields of the record at `at'`, of which `pos` bytes precede them. -/
def Fields.Laid (bytes : Bytes) : Fields → (pos at' c c' : Nat) → Prop
  | .nil, _, _, c, c' => c' = c
  | .cons _ a t fs, pos, at', c, c' =>
    ∃ m, t.Laid bytes (at' + fieldOffset pos a t) c m ∧
      fs.Laid bytes (fieldOffset pos a t + t.size) at' m c'

end

/-- A cursor never goes back along a row whose views never take it back. -/
theorem Threads.le {P : Nat → Nat → Nat → Prop} {step limit : Nat}
    (hP : ∀ at' c c', P at' c c' → c ≤ limit → c ≤ c' ∧ c' ≤ limit) {count : Nat} :
    ∀ {at' c c'}, Threads P step at' count c c' → c ≤ limit → c ≤ c' ∧ c' ≤ limit := by
  induction count with
  | zero =>
    intro at' c c' h hc
    obtain rfl : c' = c := h
    exact ⟨Nat.le_refl c', hc⟩
  | succ count ih =>
    rintro at' c c' ⟨m, hm, hrest⟩ hc
    obtain ⟨hle, hm'⟩ := hP at' c m hm hc
    obtain ⟨hle', hc'⟩ := ih hrest hm'
    exact ⟨hle.trans hle', hc'⟩

mutual

/-- The parts of a view lie from its cursor on, inside the bytes. -/
theorem Ty.Laid.le {bytes : Bytes} : ∀ (t : Ty) {at' c c' : Nat}, t.Laid bytes at' c c' →
    c ≤ bytes.length → c ≤ c' ∧ c' ≤ bytes.length
  | .scalar s, at', c, c', h, hc => by
    rw [Ty.Laid] at h
    obtain ⟨-, rfl⟩ := h
    exact ⟨Nat.le_refl c', hc⟩
  | .record own a fs, at', c, c', h, hc => by
    rw [Ty.Laid] at h
    exact Fields.Laid.le fs h hc
  | .vec e, at', c, c', h, hc => by
    rw [Ty.Laid] at h
    obtain ⟨-, -, rfl⟩ | ⟨hpos, hfirst, hend, hthreads⟩ := h
    · exact ⟨Nat.le_refl c', hc⟩
    · have hle := le_roundUp c (partAlignment_pos e)
      obtain ⟨hge, hc'⟩ := Threads.le (fun _ _ _ => Ty.Laid.le e) hthreads hend
      exact ⟨by omega, hc'⟩

theorem Fields.Laid.le {bytes : Bytes} : ∀ (fs : Fields) {pos at' c c' : Nat},
    fs.Laid bytes pos at' c c' → c ≤ bytes.length → c ≤ c' ∧ c' ≤ bytes.length
  | .nil, pos, at', c, c', h, hc => by
    rw [Fields.Laid] at h
    subst h
    exact ⟨Nat.le_refl c', hc⟩
  | .cons name a t fs, pos, at', c, c', h, hc => by
    rw [Fields.Laid] at h
    obtain ⟨m, hm, hrest⟩ := h
    obtain ⟨hle, hm'⟩ := Ty.Laid.le t hm hc
    obtain ⟨hle', hc'⟩ := Fields.Laid.le fs hrest hm'
    exact ⟨hle.trans hle', hc'⟩

end

mutual

/-- A view that needs no check is laid out wherever it stands, and has no parts. -/
theorem Ty.laid_iff_of_plain {bytes : Bytes} : ∀ (t : Ty) {at' c c' : Nat},
    t.needsCheck = false → (t.Laid bytes at' c c' ↔ c' = c)
  | .scalar s, at', c, c', h => by
    rw [Ty.needsCheck, beq_eq_false_iff_ne] at h
    rw [Ty.Laid]
    exact ⟨fun hl => hl.2, fun hc => ⟨fun hbool => absurd hbool h, hc⟩⟩
  | .record own a fs, at', c, c', h => by
    rw [Ty.needsCheck] at h
    rw [Ty.Laid]
    exact Fields.laid_iff_of_plain fs h
  | .vec e, at', c, c', h => by
    rw [Ty.needsCheck] at h
    cases h

theorem Fields.laid_iff_of_plain {bytes : Bytes} : ∀ (fs : Fields) {pos at' c c' : Nat},
    fs.needsCheck = false → (fs.Laid bytes pos at' c c' ↔ c' = c)
  | .nil, pos, at', c, c', _ => by rw [Fields.Laid]
  | .cons name a t fs, pos, at', c, c', h => by
    rw [Fields.needsCheck, Bool.or_eq_false_iff] at h
    rw [Fields.Laid]
    constructor
    · rintro ⟨m, hm, hrest⟩
      rw [(Fields.laid_iff_of_plain fs h.2).mp hrest, (Ty.laid_iff_of_plain t h.1).mp hm]
    · rintro rfl
      exact ⟨c', (Ty.laid_iff_of_plain t h.1).mpr rfl, (Fields.laid_iff_of_plain fs h.2).mpr rfl⟩

end

theorem Threads.iff_of_plain {P : Nat → Nat → Nat → Prop} {step : Nat}
    (hP : ∀ at' c c', P at' c c' ↔ c' = c) {count : Nat} :
    ∀ {at' c c'}, Threads P step at' count c c' ↔ c' = c := by
  induction count with
  | zero => exact fun {at' c c'} => Iff.rfl
  | succ count ih =>
    intro at' c c'
    rw [Threads]
    constructor
    · rintro ⟨m, hm, hrest⟩
      rw [ih.mp hrest, (hP at' c m).mp hm]
    · rintro rfl
      exact ⟨c', (hP at' c' c').mpr rfl, ih.mpr rfl⟩

/-! ## Steps of the checker -/

/-- Sums, differences and products that fit in 64 bits come out as they are. -/
structure Arithmetic64.Sound (ar : Arithmetic64) : Prop where
  add : ∀ {a b}, a + b < 2 ^ 64 → ar.add a b = .ok (a + b)
  sub : ∀ {a b}, b ≤ a → a < 2 ^ 64 → ar.sub a b = .ok (a - b)
  mul : ∀ {a b}, a * b < 2 ^ 64 → ar.mul a b = .ok (a * b)

theorem Arithmetic64.machine_sound : Arithmetic64.machine.Sound where
  add h := congrArg Except.ok (Nat.mod_eq_of_lt h)
  sub {a b} hle ha := congrArg Except.ok (by
    rw [show a + 2 ^ 64 - b = a - b + 2 ^ 64 by omega, Nat.add_mod_right,
      Nat.mod_eq_of_lt (by omega)])
  mul h := congrArg Except.ok (Nat.mod_eq_of_lt h)

theorem Arithmetic64.exact_sound : Arithmetic64.exact.Sound where
  add h := if_pos h
  sub hle _ := if_pos hle
  mul h := if_pos h

section Steps

variable {σ α β : Type}

theorem Step.bind_of_ok {x : StateT σ (Except Stop) α} {f : α → StateT σ (Except Stop) β}
    {c c' : σ} {a : α} (h : x c = .ok (a, c')) : (x >>= f) c = f a c' := by
  change (x c >>= fun p => f p.1 p.2) = _
  rw [h]
  rfl

theorem Step.bind_of_error {x : StateT σ (Except Stop) α} {f : α → StateT σ (Except Stop) β}
    {c : σ} {s : Stop} (h : x c = .error s) : (x >>= f) c = .error s := by
  change (x c >>= fun p => f p.1 p.2) = _
  rw [h]
  rfl

theorem Step.pure_bind (a : α) (f : α → StateT σ (Except Stop) β) : (pure a >>= f) = f a := rfl

theorem Step.lift_bind {x : Except Stop α} {a : α} (h : x = .ok a)
    (f : α → StateT σ (Except Stop) β) :
    ((liftM x : StateT σ (Except Stop) α) >>= f) = f a := by
  rw [h]
  rfl

end Steps

/-- What a step comes to: an error, or the next cursor. -/
def outcome : Except RichError Nat → Except Stop (Unit × Nat)
  | .ok c => .ok ((), c)
  | .error e => .error (.refused e)

/-- With any sound arithmetic a step from `c` comes to the same: a cursor that `P` allows, where
it allows one, and an error otherwise. -/
def Decides (step : Arithmetic64 → Check Unit) (c : Nat) (P : Nat → Prop) : Prop :=
  ∃ r, (∀ ar : Arithmetic64, ar.Sound → step ar c = outcome r) ∧ ∀ c', r = .ok c' ↔ P c'

namespace Decides

variable {step rest : Arithmetic64 → Check Unit} {c : Nat} {P : Nat → Prop}

theorem pure (hP : ∀ c', P c' ↔ c' = c) : Decides (fun _ => Pure.pure ()) c P :=
  ⟨.ok c, fun _ _ => rfl, fun c' => by rw [hP, Except.ok.injEq, eq_comm]⟩

theorem fail {message : Bytes} (hP : ∀ c', ¬ P c') : Decides (fun _ => Blob.fail message) c P :=
  ⟨.error _, fun _ _ => rfl, fun c' => ⟨fun h => (by cases h), fun h => absurd h (hP c')⟩⟩

/-- A step that comes to what another comes to from its own cursor. -/
theorem congr {m : Nat} (h : Decides rest m P)
    (heq : ∀ ar : Arithmetic64, ar.Sound → step ar c = rest ar m) : Decides step c P := by
  obtain ⟨r, hr, hP⟩ := h
  exact ⟨r, fun ar har => (heq ar har).trans (hr ar har), hP⟩

theorem mono {Q : Nat → Prop} (h : Decides step c P) (hPQ : ∀ c', P c' ↔ Q c') :
    Decides step c Q := by
  obtain ⟨r, hr, hP⟩ := h
  exact ⟨r, hr, fun c' => (hP c').trans (hPQ c')⟩

/-- A step whose end another step goes on from. -/
theorem bind {Q : Nat → Nat → Prop} (h : Decides step c P)
    (hrest : ∀ m, P m → Decides rest m (Q m)) :
    Decides (fun ar => step ar >>= fun _ => rest ar) c fun c' => ∃ m, P m ∧ Q m c' := by
  obtain ⟨r, hr, hP⟩ := h
  cases r with
  | error e =>
    refine ⟨.error e, fun ar har => Step.bind_of_error (hr ar har), fun c' => ?_⟩
    refine ⟨fun h => (by cases h), ?_⟩
    rintro ⟨m, hm, -⟩
    cases (hP m).mpr hm
  | ok m =>
    obtain ⟨r', hr', hQ⟩ := hrest m ((hP m).mp rfl)
    refine ⟨r', fun ar har => (Step.bind_of_ok (hr ar har)).trans (hr' ar har), fun c' => ?_⟩
    rw [hQ]
    refine ⟨fun h => ⟨m, (hP m).mp rfl, h⟩, ?_⟩
    rintro ⟨m', hm', h⟩
    obtain rfl : m = m' := Except.ok.inj ((hP m').mpr hm')
    exact h

theorem prepend {at' : PathSegment} (h : Decides step c P) :
    Decides (fun ar => Blob.prepend at' (step ar)) c P := by
  obtain ⟨r, hr, hP⟩ := h
  cases r with
  | error e =>
    refine ⟨.error { e with path := at' :: e.path }, fun ar har => ?_, fun c' => ?_⟩
    · simp only [Blob.prepend, hr ar har, outcome]
    · exact ⟨fun h => (by cases h), fun h => (by cases (hP c').mpr h)⟩
  | ok m =>
    refine ⟨.ok m, fun ar har => ?_, hP⟩
    simp only [Blob.prepend, hr ar har, outcome]

/-- A loop whose body, at every index, goes on a row of views. -/
theorem eachIndex (body : Arithmetic64 → Nat → Check Unit) (P : Nat → Nat → Nat → Prop)
    (at' step limit count : Nat) :
    ∀ i {c}, (∀ j m, i ≤ j → j < i + count → m ≤ limit →
        Decides (fun ar => body ar j) m (P (at' + j * step) m)) →
      (∀ j m m', P (at' + j * step) m m' → m ≤ limit → m' ≤ limit) → c ≤ limit →
      Decides (fun ar => Blob.eachIndex (body ar) i count) c
        (Threads P step (at' + i * step) count c) := by
  induction count with
  | zero => exact fun _ _ _ _ _ => pure fun c' => Iff.rfl
  | succ count ih =>
    intro i c hbody hlimit hc
    have hnext : at' + i * step + step = at' + (i + 1) * step := by
      rw [Nat.add_mul, Nat.one_mul, Nat.add_assoc]
    have hfirst := hbody i c (Nat.le_refl i) (by omega) hc
    refine (hfirst.bind fun m hm => ?_).mono fun c' => Iff.rfl
    rw [hnext]
    exact ih (i + 1) (fun j m hj hlt => hbody j m (by omega) (by omega)) hlimit (hlimit i c m hm hc)

end Decides

/-! ## The decision -/

theorem alignUp_eq {ar : Arithmetic64} (har : ar.Sound) {at' align : Nat} (hpos : 0 < align)
    (h : at' + align < 2 ^ 64) : alignUp ar at' align = .ok (roundUp at' align) := by
  have hle := Nat.div_mul_le_self (at' + align - 1) align
  have hsub : ar.sub (at' + align) 1 = .ok (at' + align - 1) := har.sub (by omega) h
  rw [alignUp, har.add h]
  change (ar.sub (at' + align) 1 >>= fun last => ar.mul (last / align) align) = _
  rw [hsub]
  exact har.mul (by omega)

/-- What `place` comes to at a `Vec` inside the bytes that spans too little to wrap. -/
theorem place_eq {ar : Arithmetic64} (har : ar.Sound) {at' c : Nat} (hlen : bytes.length < 2 ^ 32)
    (hat : at' + 8 ≤ bytes.length) (hc : c ≤ bytes.length)
    (hfits : Vec.size bytes at' * e.size < 2 ^ 64 - 2 ^ 32) :
    place ar bytes at' e.size (partAlignment e) c =
      if Vec.size bytes at' = 0 then
        if Vec.offset bytes at' ≠ 0 then
          .error (.refused { message := ascii "an empty part has an offset" })
        else .ok (⟨0, 0⟩, c)
      else if Vec.first bytes at' ≠ roundUp c (partAlignment e) then
        .error (.refused { message := ascii "a part is not where the layout puts it" })
      else if Vec.first bytes at' + Vec.size bytes at' * e.size > bytes.length then
        .error (.refused { message := ascii "a part runs past the end of the bytes" })
      else .ok (⟨Vec.first bytes at', Vec.size bytes at'⟩,
        Vec.first bytes at' + Vec.size bytes at' * e.size) := by
  have hoffset : Vec.offset bytes at' < 2 ^ 32 := by
    refine (leBytes_leValue _).2.trans_le (Nat.pow_le_pow_right (by decide) ?_)
    rw [length_substr]
    omega
  have halign := partAlignment_le e
  have hround : roundUp c (partAlignment e) ≤ 2 ^ 32 :=
    roundUp_le (partAlignment_pos e) (partAlignment_dvd e) (by omega)
  rw [place, pairAt, if_pos hat, Step.pure_bind]
  dsimp only
  by_cases hsize : Vec.size bytes at' = 0
  · rw [if_pos hsize, if_pos hsize]
    by_cases hzero : Vec.offset bytes at' ≠ 0
    · rw [if_pos hzero, if_pos hzero]
      rfl
    · rw [if_neg hzero, if_neg hzero]
      rfl
  · rw [if_neg hsize, if_neg hsize]
    have hget : (get : Check Nat) c = .ok (c, c) := rfl
    rw [Step.bind_of_ok hget, Step.lift_bind (alignUp_eq har (partAlignment_pos e) (by omega)),
      Step.lift_bind (har.add (by omega))]
    change (if Vec.first bytes at' ≠ _ then _ else _ : Check Placed) c = _
    by_cases hfirst : Vec.first bytes at' ≠ roundUp c (partAlignment e)
    · rw [if_pos hfirst, if_pos hfirst]
      rfl
    · have hend : roundUp c (partAlignment e) + Vec.size bytes at' * e.size < 2 ^ 64 := by omega
      rw [if_neg hfirst, if_neg hfirst, Step.lift_bind (har.mul (by omega)),
        Step.lift_bind (har.add hend)]
      rw [← not_not.mp hfirst]
      by_cases hend : Vec.first bytes at' + Vec.size bytes at' * e.size > bytes.length
      · rw [if_pos hend, if_pos hend]
        rfl
      · rw [if_neg hend, if_neg hend]
        rfl

mutual

/-- The checker decides whether a view is laid out. -/
theorem Ty.check_decides {bytes : Bytes} (hlen : bytes.length < 2 ^ 32) : ∀ (t : Ty) {at' c : Nat},
    at' + t.size ≤ bytes.length → c ≤ bytes.length → Fits bytes t at' →
    Decides (fun ar => t.check ar bytes at') c (t.Laid bytes at' c)
  | .scalar s, at', c, hat, hc, hfits => by
    have hpos : 0 < (Ty.scalar s).size := Ty.size_pos _
    simp only [Ty.check, Ty.Laid]
    split
    case isFalse hbool =>
      exact Decides.pure fun c' => ⟨fun h => h.2, fun h => ⟨fun hb => absurd hb hbool, h⟩⟩
    case isTrue hbool =>
      have hget : bytes[at']? = some bytes[at'] := List.getElem?_eq_getElem (by omega)
      simp only [byteAt, hget, Step.pure_bind]
      split
      case isTrue hgt =>
        refine Decides.fail fun c' h => ?_
        obtain ⟨b, hb, hle⟩ := h.1 hbool
        cases hb
        exact absurd hgt (UInt8.not_lt.mpr hle)
      case isFalse hle =>
        exact Decides.pure fun c' =>
          ⟨fun h => h.2, fun h => ⟨fun _ => ⟨_, rfl, UInt8.not_lt.mp hle⟩, h⟩⟩
  | .record own a fs, at', c, hat, hc, hfits => by
    simp only [Ty.check]
    split
    case isTrue => 
      have hend := le_roundUp (max 1 (fs.endFrom 0)) (bytesOf_pos (maxWidth a fs.align))
      have hfields : at' + fs.endFrom 0 ≤ bytes.length := by
        rw [Ty.size] at hat
        omega
      exact (Fields.check_decides hlen fs hfields hc fun t off h => hfits.field h).mono
        fun c' => by rw [Ty.Laid]
    case isFalse h =>
      exact Decides.pure fun c' => Ty.laid_iff_of_plain _ (Bool.not_eq_true _ ▸ h)
  | .vec e, at', c, hat, hc, hfits => by
    have hsize : Vec.size bytes at' * e.size < 2 ^ 64 - 2 ^ 32 := hfits e at' .here
    have hplace := fun ar (har : Arithmetic64.Sound ar) =>
      place_eq har (e := e) hlen hat hc hsize
    have he := e.size_pos
    simp only [Ty.check]
    by_cases hzero : Vec.size bytes at' = 0
    · simp only [if_pos hzero] at hplace
      by_cases hoffset : Vec.offset bytes at' ≠ 0
      · simp only [if_pos hoffset] at hplace
        refine (Decides.fail (c := c) fun c' h => ?_).congr
          fun ar har => Step.bind_of_error (hplace ar har)
        rw [Ty.Laid] at h
        omega
      · simp only [if_neg hoffset] at hplace
        refine (Decides.pure (c := c) fun c' => ?_).congr fun ar har => ?_
        · rw [Ty.Laid]
          omega
        · rw [Step.bind_of_ok (hplace ar har)]
          split
          · rfl
          · rfl
    · simp only [if_neg hzero] at hplace
      by_cases hfirst : Vec.first bytes at' ≠ roundUp c (partAlignment e)
      · simp only [if_pos hfirst] at hplace
        refine (Decides.fail (c := c) fun c' h => ?_).congr
          fun ar har => Step.bind_of_error (hplace ar har)
        rw [Ty.Laid] at h
        omega
      · simp only [if_neg hfirst] at hplace
        by_cases hend : Vec.first bytes at' + Vec.size bytes at' * e.size > bytes.length
        · simp only [if_pos hend] at hplace
          refine (Decides.fail (c := c) fun c' h => ?_).congr
            fun ar har => Step.bind_of_error (hplace ar har)
          rw [Ty.Laid] at h
          omega
        · simp only [if_neg hend] at hplace
          have hloop : Decides (fun ar => if e.needsCheck then
                Blob.eachIndex (fun i => Blob.prepend (.index i) (do
                  let skipped ← ar.mul i e.size
                  let next ← ar.add (Vec.first bytes at') skipped
                  e.check ar bytes next)) 0 (Vec.size bytes at')
              else Pure.pure ()) (Vec.first bytes at' + Vec.size bytes at' * e.size)
              (Threads (e.Laid bytes) e.size (Vec.first bytes at') (Vec.size bytes at')
                (Vec.first bytes at' + Vec.size bytes at' * e.size)) := by
            by_cases hplain : e.needsCheck = true
            · simp only [if_pos hplain]
              have hrow := Decides.eachIndex (fun ar i => Blob.prepend (.index i) (do
                  let skipped ← ar.mul i e.size
                  let next ← ar.add (Vec.first bytes at') skipped
                  e.check ar bytes next)) (e.Laid bytes) (Vec.first bytes at') e.size
                bytes.length (Vec.size bytes at') 0 (fun i m _ hi hm => ?_)
                (fun i m m' h hm => (Ty.Laid.le e h hm).2) (Nat.not_lt.mp hend)
              · rwa [Nat.zero_mul, Nat.add_zero] at hrow
              · have hmul := Nat.mul_le_mul_right e.size (show i + 1 ≤ Vec.size bytes at' by omega)
                rw [Nat.add_mul, Nat.one_mul] at hmul
                refine Decides.prepend (Decides.congr (Ty.check_decides hlen e (by omega) hm
                  (hfits.element (i := i) (by omega))) fun ar har => ?_)
                rw [Step.lift_bind (har.mul (by omega)), Step.lift_bind (har.add (by omega))]
            · simp only [if_neg hplain]
              exact Decides.pure fun c' => Threads.iff_of_plain fun _ _ _ =>
                Ty.laid_iff_of_plain e (Bool.not_eq_true _ ▸ hplain)
          refine Decides.mono (Decides.congr hloop fun ar har => ?_) fun c' => ?_
          · exact Step.bind_of_ok (hplace ar har)
          rw [Ty.Laid]
          constructor
          · exact fun h => .inr ⟨Nat.pos_of_ne_zero hzero, not_not.mp hfirst, by omega, h⟩
          · rintro (⟨h, -⟩ | ⟨-, -, -, h⟩)
            · exact absurd h hzero
            · exact h

theorem Fields.check_decides {bytes : Bytes} (hlen : bytes.length < 2 ^ 32) :
    ∀ (fs : Fields) {pos at' c : Nat}, at' + fs.endFrom pos ≤ bytes.length → c ≤ bytes.length →
    (∀ t off, fs.At pos t off → Fits bytes t (at' + off)) →
    Decides (fun ar => fs.check ar bytes pos at') c (fs.Laid bytes pos at' c)
  | .nil, pos, at', c, hat, hc, hfits => by
    simp only [Fields.check, Fields.Laid]
    exact Decides.pure fun c' => Iff.rfl
  | .cons name a t fs, pos, at', c, hat, hc, hfits => by
    have hle := le_endFrom fs (fieldOffset pos a t + t.size)
    rw [Fields.endFrom] at hat
    simp only [Fields.check, Fields.Laid]
    have hfield : Decides (fun ar => Blob.prepend (.field name) (do
        let field ← ar.add at' (fieldOffset pos a t)
        t.check ar bytes field)) c (t.Laid bytes (at' + fieldOffset pos a t) c) := by
      refine Decides.prepend (Decides.congr
        (Ty.check_decides hlen t (by omega) hc (hfits t _ .head)) fun ar har => ?_)
      rw [Step.lift_bind (har.add (by omega))]
    refine hfield.bind fun m hm => ?_
    exact Fields.check_decides hlen fs hat (Ty.Laid.le t hm hc).2
      fun u off h => hfits u off (.tail h)

end

end Kotatsu.Codec.Blob
