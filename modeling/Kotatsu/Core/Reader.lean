import Kotatsu.Core.Bytes

/-!
# Reading a byte string front to back

A reader holds the bytes and a position in them. Its steps fail with an error
or, where the machine would touch a byte that is not there, with a fault of
their own, so that the absence of such a fault is a statement about a reader.
`Reads d bs a` is the contract a decoder keeps with an encoder: wherever `bs`
stands in a byte string, `d` reads it to its end and gives `a`. It is closed
under sequencing, and no two byte strings that one decoder reads this way are
proper beginnings of one another; `Leads` is the same for a reader that goes on
after the bytes as another one. `Yields n d P` is what a decoder does on any
bytes, with `n` of them left: it touches none that is not there, and what it
gives is as `P` says of the bytes it has read. A decoder that `Extends` takes the
beginning of some bytes for nothing they are not.
-/

namespace Kotatsu.Core

/-- A byte string and how much of it has been read. -/
structure Cursor where
  data : Bytes
  pos : Nat
deriving DecidableEq, Repr

/-- What ends a read: an access outside the bytes, or an error it reports. -/
inductive Fault (ε : Type) where
  | outOfBounds
  | error (e : ε)
deriving DecidableEq, Repr

/-- A computation that reads from a cursor. -/
abbrev ReadM (ε : Type) (α : Type) := StateT Cursor (Except (Fault ε)) α

variable {ε α β : Type}

namespace ReadM

/-- A computation that reports `e`. -/
def fail (e : ε) : ReadM ε α := fun _ => .error (.error e)

/-- The next `n` bytes, all of which must be there. -/
def slice (n : Nat) : ReadM ε Bytes := fun c =>
  if c.pos + n ≤ c.data.length then
    .ok (substr c.data c.pos n, { c with pos := c.pos + n })
  else .error .outOfBounds

/-- A computation whose reported errors are passed through `f`. -/
def mapError (f : ε → ε) (d : ReadM ε α) : ReadM ε α := fun c =>
  match d c with
  | .ok r => .ok r
  | .error .outOfBounds => .error .outOfBounds
  | .error (.error e) => .error (.error (f e))

theorem bind_of_ok {d : ReadM ε α} {f : α → ReadM ε β} {c c' : Cursor} {a : α}
    (h : d c = .ok (a, c')) : (d >>= f) c = f a c' := by
  change (d c >>= fun p => f p.1 p.2) = _
  rw [h]
  rfl

end ReadM

namespace ReadM

/-- What a computation gives and where it stops, or nothing where it fails. -/
def outcome (d : ReadM ε α) (c : Cursor) : Option (α × Cursor) := (d c).toOption

theorem outcome_bind (d : ReadM ε α) (f : α → ReadM ε β) (c : Cursor) :
    outcome (d >>= f) c = (outcome d c).bind fun r => outcome (f r.1) r.2 := by
  unfold outcome
  change ((d c >>= fun p => f p.1 p.2).toOption) = _
  cases d c <;> rfl

theorem outcome_mapError (f : ε → ε) (d : ReadM ε α) : outcome (mapError f d) = outcome d := by
  funext c
  unfold outcome mapError
  cases d c with
  | ok r => rfl
  | error e => cases e <;> rfl

end ReadM

/-- Wherever `bs` stands in the bytes, `d` reads exactly it and gives `a`. -/
def Reads (d : ReadM ε α) (bs : Bytes) (a : α) : Prop :=
  ∀ before after : Bytes, d ⟨before ++ bs ++ after, before.length⟩ =
    .ok (a, ⟨before ++ bs ++ after, before.length + bs.length⟩)

namespace Reads

theorem pure (a : α) : Reads (Pure.pure a : ReadM ε α) [] a := fun _ _ => rfl

variable {xs ys bs : Bytes} {f : ε → ε} {n : Nat} {c : Cursor}

/-- Reading one byte string and then another reads them one after the other. -/
theorem bind {d : ReadM ε α} {f : α → ReadM ε β} {a : α} {b : β} (hd : Reads d xs a)
    (hf : Reads (f a) ys b) : Reads (d >>= f) (xs ++ ys) b := by
  intro before after
  have hfirst := hd before (ys ++ after)
  have hsecond := hf (before ++ xs) after
  simp only [List.append_assoc, List.length_append] at hfirst hsecond ⊢
  rw [ReadM.bind_of_ok hfirst, hsecond, Nat.add_assoc]

/-- A step that reads nothing may follow any reading. -/
theorem bind_pure {d : ReadM ε α} {g : α → β} {a : α} (hd : Reads d xs a) :
    Reads (d >>= fun x => Pure.pure (g x)) xs (g a) := by
  have h := Reads.bind (f := fun x => (Pure.pure (g x) : ReadM ε β)) hd (Reads.pure (g a))
  simpa only [List.append_nil] using h

theorem mapError {d : ReadM ε α} {a : α} (h : Reads d bs a) : Reads (ReadM.mapError f d) bs a := by
  intro before after
  rw [ReadM.mapError, h before after]

theorem slice (bs : Bytes) : Reads (ReadM.slice bs.length : ReadM ε Bytes) bs bs := by
  intro before after
  have hin : before.length + bs.length ≤ (before ++ bs ++ after).length := by
    simp only [List.length_append]
    omega
  have hsub : substr (before ++ bs ++ after) before.length bs.length = bs := by
    rw [substr, List.append_assoc, List.drop_left, List.take_left]
  simp only [ReadM.slice, hin, ite_true, hsub]

/-- Read from the front, a byte string leaves exactly what follows it. -/
theorem drop_eq {d : ReadM ε α} {a : α} (h : Reads d bs a) (rest : Bytes) :
    ∃ c, d ⟨bs ++ rest, 0⟩ = .ok (a, c) ∧ c.data = bs ++ rest ∧ c.data.drop c.pos = rest := by
  refine ⟨⟨bs ++ rest, bs.length⟩, ?_, rfl, List.drop_left⟩
  simpa only [List.nil_append, List.length_nil, Nat.zero_add] using h [] rest

/-- What one decoder reads is never a proper beginning of something else it reads. -/
theorem prefix_free {d : ReadM ε α} {a b : α} (hx : Reads d xs a) (hy : Reads d ys b)
    (h : xs <+: ys) : xs = ys ∧ a = b := by
  obtain ⟨zs, rfl⟩ := h
  have hfirst := hx [] zs
  have hwhole := hy [] []
  simp only [List.nil_append, List.append_nil, List.length_nil, Nat.zero_add] at hfirst hwhole
  rw [hfirst] at hwhole
  obtain ⟨rfl, hc⟩ := Prod.mk.inj (Except.ok.inj hwhole)
  have hlen : xs.length = (xs ++ zs).length := (Cursor.mk.inj hc).2
  have hz : zs = [] := by
    simpa only [List.length_append, Nat.left_eq_add, List.length_eq_zero_iff] using hlen
  exact ⟨by rw [hz, List.append_nil], rfl⟩

end Reads

/-! ## Readings that go on -/

/-- Wherever `bs` stands in the bytes, running `d` before it is running `d'` after it. -/
def Leads (d : ReadM ε α) (bs : Bytes) (d' : ReadM ε α) : Prop :=
  ∀ before after : Bytes, d ⟨before ++ bs ++ after, before.length⟩ =
    d' ⟨before ++ bs ++ after, before.length + bs.length⟩

theorem Reads.leads {d : ReadM ε α} {a : α} (h : Reads d bs a) (f : α → ReadM ε β) :
    Leads (d >>= f) bs (f a) := fun before after => ReadM.bind_of_ok (h before after)

namespace Leads

theorem refl (d : ReadM ε α) : Leads d [] d := fun _ _ => rfl

theorem trans {d d' d'' : ReadM ε α} (h : Leads d xs d') (h' : Leads d' ys d'') :
    Leads d (xs ++ ys) d'' := by
  intro before after
  have hfirst := h before (ys ++ after)
  have hsecond := h' (before ++ xs) after
  simp only [List.append_assoc, List.length_append] at hfirst hsecond ⊢
  rw [hfirst, hsecond, Nat.add_assoc]

end Leads

/-! ## Any bytes -/

/-- A read from `c` stayed inside the bytes, and reported an error or gave a value that is as `P`
says of the bytes it read. -/
def Stays (c : Cursor) (P : Bytes → α → Prop) : Except (Fault ε) (α × Cursor) → Prop
  | .ok (a, c') => c'.data = c.data ∧ c'.pos ≤ c.data.length ∧
      ∃ bs, c.data.drop c.pos = bs ++ c.data.drop c'.pos ∧ c'.pos = c.pos + bs.length ∧ P bs a
  | .error e => e ≠ .outOfBounds

/-- With `n` bytes left, `d` stays inside the bytes. -/
def Yields (n : Nat) (d : ReadM ε α) (P : Bytes → α → Prop) : Prop :=
  ∀ c : Cursor, c.pos + n ≤ c.data.length → Stays c P (d c)

namespace Yields

theorem mono {n m : Nat} {d : ReadM ε α} {P Q : Bytes → α → Prop} (h : Yields n d P)
    (hnm : n ≤ m) (hPQ : ∀ bs a, P bs a → Q bs a) : Yields m d Q := by
  intro c hc
  have hd := h c (by omega)
  revert hd
  cases d c with
  | ok r =>
    rintro ⟨hdata, hpos, bs, hcut, hlen, hP⟩
    exact ⟨hdata, hpos, bs, hcut, hlen, hPQ bs r.1 hP⟩
  | error e => exact fun he => he

theorem pure (a : α) : Yields 0 (Pure.pure a : ReadM ε α) fun bs b => bs = [] ∧ b = a :=
  fun _ hc => ⟨rfl, hc, [], rfl, rfl, rfl, rfl⟩

theorem fail (e : ε) (P : Bytes → α → Prop) : Yields 0 (ReadM.fail e) P := fun _ _ => nofun

theorem mapError {d : ReadM ε α} {P : Bytes → α → Prop} (h : Yields n d P) :
    Yields n (ReadM.mapError f d) P := by
  intro c hc
  have hd := h c hc
  unfold ReadM.mapError
  revert hd
  cases d c with
  | ok r => exact fun hr => hr
  | error e =>
    cases e with
    | outOfBounds => exact fun he => he
    | error e => exact fun _ => nofun

/-- One step and then another: what the two have read stands one after the other. -/
theorem bind {d : ReadM ε α} {f : α → ReadM ε β} {P : Bytes → α → Prop} {Q : α → Bytes → β → Prop}
    (hd : Yields n d P) (hf : ∀ a, Yields 0 (f a) (Q a)) :
    Yields n (d >>= f) fun bs b => ∃ xs ys a, bs = xs ++ ys ∧ P xs a ∧ Q a ys b := by
  intro c hc
  have hfirst := hd c hc
  cases hdc : d c with
  | error e =>
    have heq : (d >>= f) c = .error e := by
      change (d c >>= fun p => f p.1 p.2) = _
      rw [hdc]
      rfl
    rw [heq]
    rw [hdc] at hfirst
    exact hfirst
  | ok r =>
    obtain ⟨a, c'⟩ := r
    rw [hdc] at hfirst
    obtain ⟨hdata, hpos, xs, hcut, hlen, hP⟩ := hfirst
    have hsecond := hf a c' (by rw [hdata]; exact hpos)
    rw [ReadM.bind_of_ok hdc]
    revert hsecond
    cases f a c' with
    | error e => exact fun he => he
    | ok r' =>
      obtain ⟨b, c''⟩ := r'
      rintro ⟨hdata', hpos', ys, hcut', hlen', hQ⟩
      rw [hdata] at hdata' hpos' hcut'
      refine ⟨hdata', hpos', xs ++ ys, ?_, ?_, xs, ys, a, rfl, hP, hQ⟩
      · rw [hcut, hcut', List.append_assoc]
      · rw [hlen', hlen, List.length_append, Nat.add_assoc]

theorem ite {p : Prop} [Decidable p] {d d' : ReadM ε α} {P : Bytes → α → Prop} (h : Yields n d P)
    (h' : Yields n d' P) : Yields n (if p then d else d') P := by
  split
  · exact h
  · exact h'

/-- The bytes of a slice that are there. -/
theorem slice (n : Nat) :
    Yields n (ReadM.slice n : ReadM ε Bytes) fun bs b => b = bs ∧ bs.length = n := by
  intro c hc
  have hlen : (substr c.data c.pos n).length = n := by
    rw [length_substr]
    omega
  simp only [ReadM.slice, if_pos hc]
  refine ⟨rfl, hc, substr c.data c.pos n, ?_, by rw [hlen], rfl, hlen⟩
  change c.data.drop c.pos = (c.data.drop c.pos).take n ++ c.data.drop (c.pos + n)
  rw [← List.drop_drop, List.take_append_drop]

/-- From the front of a byte string, the bytes read and what is left make up the whole. -/
theorem of_ok {d : ReadM ε α} {P : Bytes → α → Prop} (h : Yields 0 d P) {c c' : Cursor} {a : α}
    (hc : c.pos ≤ c.data.length) (hd : d c = .ok (a, c')) : Stays (ε := ε) c P (.ok (a, c')) :=
  hd ▸ h c hc

end Yields

/-! ## Bytes that are cut short -/

/-- What `d` gives, it gives with any bytes after those it was given too. -/
def Extends (d : ReadM ε α) : Prop :=
  ∀ (c c' : Cursor) (a : α), d c = .ok (a, c') →
    c'.data = c.data ∧ ∀ more : Bytes, d ⟨c.data ++ more, c.pos⟩ = .ok (a, ⟨c.data ++ more, c'.pos⟩)

namespace Extends

theorem pure (a : α) : Extends (Pure.pure a : ReadM ε α) := by
  intro c c' b h
  cases h
  exact ⟨rfl, fun _ => rfl⟩

theorem fail (e : ε) : Extends (ReadM.fail e : ReadM ε α) := by
  intro c c' b h
  cases h

theorem mapError {d : ReadM ε α} (h : Extends d) : Extends (ReadM.mapError f d) := by
  intro c c' a hd
  cases hc : d c with
  | error e =>
    cases e <;> simp only [ReadM.mapError, hc, reduceCtorEq] at hd
  | ok r =>
    simp only [ReadM.mapError, hc] at hd
    cases hd
    obtain ⟨hdata, hmore⟩ := h c c' a hc
    refine ⟨hdata, fun more => ?_⟩
    rw [ReadM.mapError, hmore more]

theorem bind {d : ReadM ε α} {f : α → ReadM ε β} (hd : Extends d) (hf : ∀ a, Extends (f a)) :
    Extends (d >>= f) := by
  intro c c'' b h
  cases hc : d c with
  | error e =>
    have herror : (d >>= f) c = .error e := by
      change (d c >>= fun p => f p.1 p.2) = _
      rw [hc]
      rfl
    rw [herror] at h
    cases h
  | ok r =>
    obtain ⟨a, c'⟩ := r
    rw [ReadM.bind_of_ok hc] at h
    obtain ⟨hdata, hmore⟩ := hd c c' a hc
    obtain ⟨hdata', hmore'⟩ := hf a c' c'' b h
    refine ⟨hdata'.trans hdata, fun more => ?_⟩
    rw [ReadM.bind_of_ok (hmore more)]
    rw [hdata] at hmore'
    exact hmore' more

theorem slice (n : Nat) : Extends (ReadM.slice n : ReadM ε Bytes) := by
  intro c c' a h
  simp only [ReadM.slice] at h
  split at h
  · next hin =>
    cases h
    refine ⟨rfl, fun more => ?_⟩
    have hin' : c.pos + n ≤ (c.data ++ more).length := by
      rw [List.length_append]
      omega
    have hsub : substr (c.data ++ more) c.pos n = substr c.data c.pos n := by
      rw [substr, substr, List.drop_append_of_le_length (by omega),
        List.take_append_of_le_length (by rw [List.length_drop]; omega)]
    rw [ReadM.slice, if_pos hin', hsub]
  · cases h

theorem ite {p : Prop} [Decidable p] {d d' : ReadM ε α} (h : Extends d) (h' : Extends d') :
    Extends (if p then d else d') := by
  split
  · exact h
  · exact h'

/-- A read of the beginning of some bytes and one of all of them give the same. -/
theorem eq_of_reads {d : ReadM ε α} (h : Extends d) {bs rest p : Bytes} {a b : α}
    (hread : Reads d bs a) (hp : p <+: bs ++ rest) (hd : d ⟨p, 0⟩ = .ok (b, c)) : b = a := by
  obtain ⟨more, hmore⟩ := hp
  have hlong := (h _ _ _ hd).2 more
  have hwhole := hread [] rest
  simp only [List.nil_append, List.length_nil, Nat.zero_add] at hwhole
  rw [hmore, hwhole] at hlong
  exact (Prod.mk.inj (Except.ok.inj hlong)).1.symm

end Extends

/-! ## Little-endian numbers -/

/-- The lowest `n` bytes of a number, the lowest first. -/
def leBytes (n raw : Nat) : Bytes := (List.range n).map fun i => UInt8.ofNat (raw >>> (8 * i))

@[simp] theorem length_leBytes (n raw : Nat) : (leBytes n raw).length = n := by
  simp only [leBytes, List.length_map, List.length_range]

/-- The number whose byte `i` is the `i`th of the bytes, read into `raw` from byte `at'` on. -/
def leValueFrom (at' raw : Nat) : Bytes → Nat
  | [] => raw
  | b :: bs => leValueFrom (at' + 1) (raw ||| (b.toNat <<< (8 * at'))) bs

/-- The number the bytes spell, the lowest first. -/
def leValue (bs : Bytes) : Nat := leValueFrom 0 0 bs

theorem leValueFrom_append (xs ys : Bytes) (at' raw : Nat) :
    leValueFrom at' raw (xs ++ ys) = leValueFrom (at' + xs.length) (leValueFrom at' raw xs) ys := by
  induction xs generalizing at' raw with
  | nil => rfl
  | cons x xs ih =>
    rw [List.cons_append, leValueFrom, leValueFrom, ih, List.length_cons, Nat.add_assoc,
      Nat.add_comm 1]

private theorem mod_or_shiftLeft (raw k : Nat) :
    raw % 2 ^ k ||| ((raw >>> k) % 256) <<< k = raw % 2 ^ (k + 8) := by
  have hlt : raw % 2 ^ k < 2 ^ k := Nat.mod_lt _ (Nat.two_pow_pos k)
  have hsplit : raw % 2 ^ (k + 8) = raw % 2 ^ k + 2 ^ k * (raw / 2 ^ k % 256) := by
    rw [Nat.pow_add, Nat.mod_mul]
  rw [Nat.or_comm, ← Nat.shiftLeft_add_eq_or_of_lt hlt, hsplit, Nat.shiftRight_eq_div_pow,
    Nat.shiftLeft_eq, Nat.add_comm, Nat.mul_comm]

/-- Reading the lowest bytes of a number gives the number modulo what they hold. -/
theorem leValue_leBytes (n raw : Nat) : leValue (leBytes n raw) = raw % 2 ^ (8 * n) := by
  induction n with
  | zero => simp [leValue, leBytes, leValueFrom, Nat.mod_one]
  | succ n ih =>
    have hbytes : leBytes (n + 1) raw = leBytes n raw ++ [UInt8.ofNat (raw >>> (8 * n))] := by
      simp only [leBytes, List.range_succ, List.map_append, List.map_singleton]
    have hprev : leValueFrom 0 0 (leBytes n raw) = raw % 2 ^ (8 * n) := ih
    rw [leValue, hbytes, leValueFrom_append, hprev, length_leBytes, Nat.zero_add, leValueFrom,
      leValueFrom, UInt8.toNat_ofNat', mod_or_shiftLeft, Nat.mul_succ]

private theorem ofNat_shiftRight_or (raw k : Nat) (b : UInt8) (h : raw < 2 ^ (8 * k)) :
    UInt8.ofNat ((raw ||| b.toNat <<< (8 * k)) >>> (8 * k)) = b := by
  have hzero : raw >>> (8 * k) = 0 := by
    rw [Nat.shiftRight_eq_div_pow]
    exact Nat.div_eq_of_lt h
  rw [Nat.shiftRight_or_distrib, hzero, Nat.zero_or, Nat.shiftLeft_shiftRight, UInt8.ofNat_toNat]

private theorem ofNat_shiftRight_or_of_lt (raw : Nat) {i k : Nat} (b : UInt8) (h : i < k) :
    UInt8.ofNat ((raw ||| b.toNat <<< (8 * k)) >>> (8 * i)) = UInt8.ofNat (raw >>> (8 * i)) := by
  have hsplit : 8 * k = 8 + (8 * (k - i - 1) + 8 * i) := by omega
  have hshift : b.toNat <<< (8 * k) >>> (8 * i) = 2 ^ 8 * (b.toNat * 2 ^ (8 * (k - i - 1))) := by
    rw [Nat.shiftLeft_eq, Nat.shiftRight_eq_div_pow, hsplit, Nat.pow_add, Nat.pow_add,
      ← Nat.mul_assoc, ← Nat.mul_assoc, Nat.mul_div_cancel _ (Nat.two_pow_pos _),
      Nat.mul_comm b.toNat, Nat.mul_assoc]
  apply UInt8.toNat_inj.mp
  rw [UInt8.toNat_ofNat', UInt8.toNat_ofNat', Nat.shiftRight_or_distrib, Nat.or_mod_two_pow,
    hshift, Nat.mul_mod_right, Nat.or_zero]

/-- The bytes of the number that bytes spell are those bytes. -/
theorem leBytes_leValue (bs : Bytes) :
    leBytes bs.length (leValue bs) = bs ∧ leValue bs < 2 ^ (8 * bs.length) := by
  induction bs using List.reverseRecOn with
  | nil => exact ⟨rfl, by simp [leValue, leValueFrom]⟩
  | append_singleton bs b ih =>
    obtain ⟨hbytes, hlt⟩ := ih
    have hval : leValue (bs ++ [b]) = leValue bs ||| b.toNat <<< (8 * bs.length) := by
      rw [leValue, leValueFrom_append, Nat.zero_add]
      rfl
    rw [hval, List.length_append, List.length_singleton]
    constructor
    · have hlast := ofNat_shiftRight_or (leValue bs) bs.length b hlt
      have hfirst : (List.range bs.length).map (fun i => UInt8.ofNat
          ((leValue bs ||| b.toNat <<< (8 * bs.length)) >>> (8 * i))) =
          leBytes bs.length (leValue bs) := by
        apply List.map_congr_left
        intro i hi
        exact ofNat_shiftRight_or_of_lt (leValue bs) b (List.mem_range.mp hi)
      rw [leBytes, List.range_succ, List.map_append, hfirst, hbytes, List.map_singleton, hlast]
    · rw [Nat.mul_succ]
      apply Nat.or_lt_two_pow
      · exact hlt.trans_le (Nat.pow_le_pow_right (by decide) (Nat.le_add_right _ _))
      · rw [Nat.shiftLeft_eq, Nat.pow_add, Nat.mul_comm]
        exact Nat.mul_lt_mul_of_pos_left b.toNat_lt (Nat.two_pow_pos _)

theorem leValue_leBytes_of_lt {n raw : Nat} (h : raw < 2 ^ (8 * n)) :
    leValue (leBytes n raw) = raw := by
  rw [leValue_leBytes, Nat.mod_eq_of_lt h]

end Kotatsu.Core
