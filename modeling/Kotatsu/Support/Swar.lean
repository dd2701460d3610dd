import Mathlib.Data.Nat.Bitwise
import Mathlib.Tactic.Ring
import Kotatsu.Core.Reader

/-!
# Eight bytes at a time

The masks that find a byte in a word of eight, and the proof that they are exact up
to the first byte they show. A mask is read a byte at a time from the lowest:
before the first byte below the bound no borrow has come from the bytes under it,
so each shows nothing, and that byte shows its top bit. What lies past it is not
specified, as a borrow may have come from it.
-/

namespace Kotatsu.Support

open Kotatsu.Core

/-! ## Words -/

/-- `byte_ones`. -/
def byteOnes : UInt64 := 0x0101010101010101

/-- `bytes_below`. -/
def bytesBelow (word : UInt64) (n : UInt8) : UInt64 :=
  (word - byteOnes * n.toUInt64) &&& ~~~word &&& byteOnes * 0x80

/-- `bytes_equal`. -/
def bytesEqual (word : UInt64) (c : UInt8) : UInt64 :=
  bytesBelow (word ^^^ byteOnes * c.toUInt64) 1

/-- `load_word`, where eight bytes are there to read. -/
def loadWord (bytes : Bytes) : Option UInt64 :=
  if 8 ≤ bytes.length then some (UInt64.ofNat (leValue (bytes.take 8))) else none

/-- `has_non_ascii`, as the mask it tests. -/
def nonAscii (word : UInt64) : UInt64 := word &&& byteOnes * 0x80

/-- `std::countr_zero`. -/
def countrZero (word : UInt64) : Nat :=
  ((List.range 64).find? fun i => word.toNat.testBit i).getD 64

/-- `first_byte_index`. -/
def firstByteIndex (mask : UInt64) : Nat := countrZero mask / 8

/-! ## Masks of any width -/

/-- A byte of 1, `k` times. -/
private def ones : Nat → Nat
  | 0 => 0
  | k + 1 => 1 + 256 * ones k

/-- `bytes_below` of `k` bytes. -/
private def below (k n word : Nat) : Nat :=
  (2 ^ (8 * k) - n * ones k + word) % 2 ^ (8 * k) &&& (2 ^ (8 * k) - 1 - word) &&& 128 * ones k

/-- A mask that is exact up to the first byte of which `p` holds. -/
def Shows (p : UInt8 → Bool) : Bytes → Nat → Prop
  | [], mask => mask = 0
  | b :: bs, mask =>
    if p b then mask % 256 = 128 else mask % 256 = 0 ∧ Shows p bs (mask / 256)

section

variable {p q : UInt8 → Bool} {bs : Bytes} {x y : Nat}

/-- Two masks show what one of them does. -/
theorem Shows.or (hx : Shows p bs x) (hy : Shows q bs y) :
    Shows (fun b => p b || q b) bs (x ||| y) := by
  induction bs generalizing x y with
  | nil =>
    simp only [Shows] at hx hy ⊢
    rw [hx, hy]
    rfl
  | cons b bs ih =>
    have hmod : (x ||| y) % 256 = x % 256 ||| y % 256 := Nat.or_mod_two_pow (n := 8)
    have hdiv : (x ||| y) / 256 = x / 256 ||| y / 256 := Nat.or_div_two_pow (n := 8)
    simp only [Shows, hmod, hdiv] at hx hy ⊢
    cases hp : p b <;> cases hq : q b <;>
      simp only [hp, hq, Bool.false_eq_true, if_true, if_false] at hx hy
    · simp only [Bool.or_self, Bool.false_eq_true, if_false, hx.1, hy.1]
      exact ⟨by decide, ih hx.2 hy.2⟩
    · simp only [Bool.or_true, if_true, hx.1, hy]
      decide
    · simp only [Bool.or_false, if_true, hx, hy.1]
      decide
    · simp only [Bool.or_true, if_true, hx, hy]
      decide

/-- The lowest bit of a mask is the top bit of the first byte it shows. -/
theorem Shows.lowest (h : Shows p bs x) :
    (x = 0 ∧ ∀ b ∈ bs, p b = false) ∨
    ∃ front b back, bs = front ++ b :: back ∧ (∀ a ∈ front, p a = false) ∧ p b = true ∧
      x.testBit (8 * front.length + 7) = true ∧
      ∀ i < 8 * front.length + 7, x.testBit i = false := by
  induction bs generalizing x with
  | nil => exact .inl ⟨h, List.forall_mem_nil _⟩
  | cons b bs ih =>
    cases hp : p b with
    | true =>
      simp only [Shows, hp, if_true] at h
      have hlow : ∀ i < 8, x.testBit i = (2 ^ 7).testBit i := by
        intro i hi
        rw [show 2 ^ 7 = x % 2 ^ 8 from h.symm, Nat.testBit_mod_two_pow]
        simp only [hi, decide_true, Bool.true_and]
      refine .inr ⟨[], b, bs, rfl, List.forall_mem_nil _, hp, ?_, fun i hi => ?_⟩
      · exact (hlow 7 (by decide)).trans Nat.testBit_two_pow_self
      · have hi' : i < 7 := hi
        rw [hlow i (by omega)]
        exact Nat.testBit_two_pow_of_ne (by omega)
    | false =>
      simp only [Shows, hp, Bool.false_eq_true, if_false] at h
      obtain ⟨hzero, hrest⟩ := h
      have hshift : ∀ i, x.testBit (i + 8) = (x / 256).testBit i := fun i =>
        (Nat.testBit_div_two_pow x i (n := 8)).symm
      have hlow : ∀ i < 8, x.testBit i = false := by
        intro i hi
        have hbit := Nat.testBit_mod_two_pow x 8 i
        rw [show (2 : Nat) ^ 8 = 256 from rfl, hzero, Nat.zero_testBit] at hbit
        simpa only [hi, decide_true, Bool.true_and] using hbit.symm
      rcases ih hrest with ⟨hx, hnone⟩ | ⟨front, a, back, rfl, hfront, ha, htop, hunder⟩
      · exact .inl ⟨by omega, List.forall_mem_cons.mpr ⟨hp, hnone⟩⟩
      · refine .inr ⟨b :: front, a, back, rfl, List.forall_mem_cons.mpr ⟨hp, hfront⟩, ha, ?_,
          fun i hi => ?_⟩
        · rw [List.length_cons, show 8 * (front.length + 1) + 7 = 8 * front.length + 7 + 8 by ring,
            hshift]
          exact htop
        · rcases Nat.lt_or_ge i 8 with hlt | hge
          · exact hlow i hlt
          · obtain ⟨j, rfl⟩ := Nat.exists_eq_add_of_le' hge
            rw [hshift]
            refine hunder j ?_
            rw [List.length_cons] at hi
            omega

end

/-! ## What the masks show -/

private theorem leValueFrom_eq (bs : Bytes) {k raw : Nat} (h : raw < 2 ^ (8 * k)) :
    leValueFrom k raw bs = raw + 2 ^ (8 * k) * leValue bs ∧ leValue bs < 2 ^ (8 * bs.length) := by
  refine ⟨?_, (leBytes_leValue bs).2⟩
  induction bs generalizing k raw with
  | nil => simp [leValueFrom, leValue]
  | cons b bs ih =>
    have hbyte : b.toNat < 2 ^ (8 * 1) := b.toNat_lt
    have hor : raw ||| b.toNat <<< (8 * k) = raw + 2 ^ (8 * k) * b.toNat := by
      rw [Nat.or_comm, ← Nat.shiftLeft_add_eq_or_of_lt h, Nat.shiftLeft_eq, Nat.add_comm,
        Nat.mul_comm]
    have hlt : raw + 2 ^ (8 * k) * b.toNat < 2 ^ (8 * (k + 1)) := by
      have hle : 2 ^ (8 * k) * (b.toNat + 1) ≤ 2 ^ (8 * k) * 2 ^ 8 :=
        Nat.mul_le_mul_left _ hbyte
      rw [Nat.mul_succ 8 k, Nat.pow_add]
      rw [Nat.mul_succ] at hle
      omega
    have hfirst : leValue (b :: bs) = b.toNat + 2 ^ (8 * 1) * leValue bs := by
      rw [leValue, leValueFrom, Nat.zero_or]
      exact ih hbyte
    rw [leValueFrom, hor, ih hlt, hfirst, Nat.mul_succ 8 k, Nat.pow_add]
    ring

/-- The lowest byte of what bytes spell is the first. -/
theorem leValue_cons (b : UInt8) (bs : Bytes) :
    leValue (b :: bs) = b.toNat + 256 * leValue bs := by
  rw [leValue, leValueFrom, Nat.zero_or]
  exact (leValueFrom_eq bs (k := 1) b.toNat_lt).1

private theorem and_128 : ∀ x < 256, x &&& 128 = if 128 ≤ x then 128 else 0 := by decide +kernel

/-- The top bit of a byte. -/
private theorem and_and_128 {x y : Nat} (hx : x < 256) (hy : y < 256) :
    x &&& y &&& 128 = if 128 ≤ x ∧ 128 ≤ y then 128 else 0 := by
  have hsplit : x &&& y &&& 128 = (x &&& 128) &&& (y &&& 128) := by
    rw [Nat.and_assoc, Nat.and_assoc, Nat.and_left_comm 128, Nat.and_self]
  rw [hsplit, and_128 x hx, and_128 y hy]
  split_ifs <;> first | rfl | omega

private theorem ones_mul (k : Nat) : 255 * ones k + 1 = 2 ^ (8 * k) := by
  induction k with
  | zero => rfl
  | succ k ih =>
    rw [Nat.mul_succ, Nat.pow_add, ← ih, ones]
    ring

theorem below_shows {n : Nat} (hn : n ≤ 128) (bs : Bytes) :
    Shows (fun b => decide (b.toNat < n)) bs (below bs.length n (leValue bs)) := by
  induction bs with
  | nil => simp [Shows, below, ones]
  | cons b bs ih =>
    obtain ⟨-, hlt⟩ := leBytes_leValue bs
    have hbyte : b.toNat < 256 := b.toNat_lt
    have hones := ones_mul bs.length
    have hborrow : n * ones bs.length < 2 ^ (8 * bs.length) := by
      have hle : n * ones bs.length ≤ 128 * ones bs.length := Nat.mul_le_mul_right _ hn
      omega
    rw [List.length_cons, leValue_cons]
    unfold below at ih ⊢
    generalize hB : 2 ^ (8 * bs.length) = B at *
    generalize hw : leValue bs = w at *
    have hpow : 2 ^ (8 * (bs.length + 1)) = 256 * B := by
      rw [Nat.mul_succ, Nat.pow_add, hB]
      ring
    have hmul : n * ones (bs.length + 1) = n + 256 * (n * ones bs.length) := by
      rw [ones]
      ring
    have htop : 128 * ones (bs.length + 1) = 128 + 256 * (128 * ones bs.length) := by
      rw [ones]
      ring
    rw [hpow, hmul, htop]
    generalize n * ones bs.length = m at *
    generalize 128 * ones bs.length = z at *
    have hnot : 256 * B - 1 - (b.toNat + 256 * w) = (255 - b.toNat) + 256 * (B - 1 - w) := by
      omega
    rw [hnot]
    have hmod : ∀ x y z : Nat, (x &&& y &&& z) % 256 = x % 256 &&& y % 256 &&& z % 256 := by
      intro x y z
      rw [show 256 = 2 ^ 8 from rfl, Nat.and_mod_two_pow, Nat.and_mod_two_pow]
    have hdiv : ∀ x y z : Nat, (x &&& y &&& z) / 256 = x / 256 &&& y / 256 &&& z / 256 := by
      intro x y z
      rw [show 256 = 2 ^ 8 from rfl, Nat.and_div_two_pow, Nat.and_div_two_pow]
    have hy : (255 - b.toNat + 256 * (B - 1 - w)) % 256 = 255 - b.toNat := by omega
    have hz : (128 + 256 * z) % 256 = 128 := by omega
    simp only [Shows, decide_eq_true_eq]
    split
    case isTrue hb =>
      have hx : (256 * B - (n + 256 * m) + (b.toNat + 256 * w)) % (256 * B) % 256 =
          256 + b.toNat - n := by
        rw [Nat.mod_mul_right_mod]
        omega
      rw [hmod, hx, hy, hz, and_and_128 (by omega) (by omega), if_pos (by omega)]
    case isFalse hb =>
      have hx : 256 * B - (n + 256 * m) + (b.toNat + 256 * w) =
          (b.toNat - n) + 256 * (B - m + w) := by omega
      have hxm : ((b.toNat - n) + 256 * (B - m + w)) % (256 * B) =
          (b.toNat - n) + 256 * ((B - m + w) % B) := by
        rw [Nat.mod_mul, Nat.add_mul_mod_self_left, Nat.mod_eq_of_lt (by omega : b.toNat - n < 256),
          Nat.add_mul_div_left _ _ (by decide), Nat.div_eq_of_lt (by omega : b.toNat - n < 256),
          Nat.zero_add]
      rw [hx, hxm, hmod, hdiv, hy, hz]
      refine ⟨?_, ?_⟩
      · rw [Nat.add_mul_mod_self_left, Nat.mod_eq_of_lt (by omega : b.toNat - n < 256),
          and_and_128 (by omega) (by omega), if_neg (by omega)]
      · have hdx : (b.toNat - n + 256 * ((B - m + w) % B)) / 256 = (B - m + w) % B := by omega
        have hdy : (255 - b.toNat + 256 * (B - 1 - w)) / 256 = B - 1 - w := by omega
        have hdz : (128 + 256 * z) / 256 = z := by omega
        rw [hdx, hdy, hdz]
        exact ih

variable {bs : Bytes}

theorem toNat_ofNat_leValue (h : bs.length = 8) :
    (UInt64.ofNat (leValue bs)).toNat = leValue bs := by
  have hlt := (leBytes_leValue bs).2
  rw [h] at hlt
  rw [UInt64.toNat_ofNat']
  exact Nat.mod_eq_of_lt hlt

private theorem toNat_byteOnes_mul (n : UInt8) :
    (byteOnes * n.toUInt64).toNat = n.toNat * ones 8 := by
  have hbyte : n.toNat < 256 := n.toNat_lt
  rw [UInt64.toNat_mul, UInt8.toNat_toUInt64, Nat.mul_comm]
  refine Nat.mod_eq_of_lt ?_
  calc n.toNat * ones 8 ≤ 255 * ones 8 := Nat.mul_le_mul_right _ (by omega)
    _ < 2 ^ 64 := by decide

/-- The mask of the bytes below `n` is exact up to the first. -/
theorem bytesBelow_shows (h : bs.length = 8) {n : UInt8} (hn : n.toNat ≤ 128) :
    Shows (fun b => decide (b.toNat < n.toNat)) bs
      (bytesBelow (UInt64.ofNat (leValue bs)) n).toNat := by
  have hbelow : (bytesBelow (UInt64.ofNat (leValue bs)) n).toNat =
      below bs.length n.toNat (leValue bs) := by
    rw [bytesBelow, below, UInt64.toNat_and, UInt64.toNat_and, UInt64.toNat_sub, UInt64.toNat_not,
      toNat_ofNat_leValue h, toNat_byteOnes_mul, h]
    rfl
  rw [hbelow]
  exact below_shows hn bs

private theorem leValue_xor (c : UInt8) (bs : Bytes) :
    leValue (bs.map (· ^^^ c)) = leValue bs ^^^ c.toNat * ones bs.length := by
  induction bs with
  | nil => simp [leValue, leValueFrom, ones]
  | cons b bs ih =>
    have hb : b.toNat < 256 := b.toNat_lt
    have hc : c.toNat < 256 := c.toNat_lt
    have hones : c.toNat * ones (bs.length + 1) = c.toNat + 256 * (c.toNat * ones bs.length) := by
      rw [ones]
      ring
    rw [List.map_cons, leValue_cons, leValue_cons, List.length_cons, hones, ih, UInt8.toNat_xor]
    generalize c.toNat * ones bs.length = z
    generalize leValue bs = w
    have hmod : (b.toNat + 256 * w ^^^ c.toNat + 256 * z) % 256 = b.toNat ^^^ c.toNat := by
      have hw : (b.toNat + 256 * w) % 256 = b.toNat := by omega
      have hz : (c.toNat + 256 * z) % 256 = c.toNat := by omega
      rw [show 256 = 2 ^ 8 from rfl, Nat.xor_mod_two_pow]
      rw [show 2 ^ 8 = 256 from rfl, hw, hz]
    have hdiv : (b.toNat + 256 * w ^^^ c.toNat + 256 * z) / 256 = w ^^^ z := by
      have hw : (b.toNat + 256 * w) / 256 = w := by omega
      have hz : (c.toNat + 256 * z) / 256 = z := by omega
      rw [show 256 = 2 ^ 8 from rfl, Nat.xor_div_two_pow]
      rw [show 2 ^ 8 = 256 from rfl, hw, hz]
    rw [← hmod, ← hdiv]
    exact Nat.mod_add_div _ _

/-- What a mask shows of bytes that are mapped. -/
private theorem Shows.of_map {p : UInt8 → Bool} {f : UInt8 → UInt8} {x : Nat}
    (h : Shows p (bs.map f) x) : Shows (fun b => p (f b)) bs x := by
  induction bs generalizing x with
  | nil => exact h
  | cons b bs ih =>
    simp only [List.map_cons, Shows] at h ⊢
    split
    case isTrue hp => rwa [if_pos hp] at h
    case isFalse hp =>
      rw [if_neg hp] at h
      exact ⟨h.1, ih h.2⟩

/-- The mask of the bytes that are `c` is exact up to the first. -/
theorem bytesEqual_shows (h : bs.length = 8) (c : UInt8) :
    Shows (fun b => decide (b = c)) bs (bytesEqual (UInt64.ofNat (leValue bs)) c).toNat := by
  have hlen : (bs.map (· ^^^ c)).length = 8 := by rw [List.length_map, h]
  have hword : UInt64.ofNat (leValue bs) ^^^ byteOnes * c.toUInt64 =
      UInt64.ofNat (leValue (bs.map (· ^^^ c))) := by
    apply UInt64.toNat_inj.mp
    rw [UInt64.toNat_xor, toNat_ofNat_leValue h, toNat_ofNat_leValue hlen, toNat_byteOnes_mul,
      leValue_xor, h]
  have hshows := (bytesBelow_shows hlen (n := 1) (by decide)).of_map
  have heq : (fun b : UInt8 => decide ((b ^^^ c).toNat < (1 : UInt8).toNat)) =
      fun b => decide (b = c) := by
    funext b
    have hone : (1 : UInt8).toNat = 1 := rfl
    rw [hone, decide_eq_decide, Nat.lt_one_iff]
    constructor
    · intro hzero
      exact UInt8.xor_eq_zero_iff.mp (UInt8.toNat_inj.mp hzero)
    · rintro rfl
      rw [UInt8.xor_self]
      rfl
  rw [bytesEqual, hword, ← heq]
  exact hshows

private theorem leValue_and_shows (bs : Bytes) :
    Shows (fun b => decide (0x80 ≤ b.toNat)) bs (leValue bs &&& 128 * ones bs.length) := by
  induction bs with
  | nil => simp [Shows, ones]
  | cons b bs ih =>
    have hb : b.toNat < 256 := b.toNat_lt
    have hones : 128 * ones (bs.length + 1) = 128 + 256 * (128 * ones bs.length) := by
      rw [ones]
      ring
    rw [leValue_cons, List.length_cons, hones]
    generalize 128 * ones bs.length = z at ih ⊢
    generalize leValue bs = w at ih ⊢
    have hmod : (b.toNat + 256 * w &&& 128 + 256 * z) % 256 = b.toNat &&& 128 := by
      have hw : (b.toNat + 256 * w) % 256 = b.toNat := by omega
      have hz : (128 + 256 * z) % 256 = 128 := by omega
      rw [show 256 = 2 ^ 8 from rfl, Nat.and_mod_two_pow]
      rw [show 2 ^ 8 = 256 from rfl, hw, hz]
    have hdiv : (b.toNat + 256 * w &&& 128 + 256 * z) / 256 = w &&& z := by
      have hw : (b.toNat + 256 * w) / 256 = w := by omega
      have hz : (128 + 256 * z) / 256 = z := by omega
      rw [show 256 = 2 ^ 8 from rfl, Nat.and_div_two_pow]
      rw [show 2 ^ 8 = 256 from rfl, hw, hz]
    rw [Shows, hmod, hdiv, and_128 _ hb]
    by_cases hge : 128 ≤ b.toNat
    · simp only [hge, decide_true, if_true]
    · simp only [hge, decide_false, Bool.false_eq_true, if_false]
      exact ⟨trivial, ih⟩

/-- The mask of the bytes past ASCII is exact up to the first. -/
theorem nonAscii_shows (h : bs.length = 8) :
    Shows (fun b => decide (0x80 ≤ b.toNat)) bs (nonAscii (UInt64.ofNat (leValue bs))).toNat := by
  have hmask : (byteOnes * 0x80).toNat = 128 * ones 8 := toNat_byteOnes_mul 0x80
  rw [nonAscii, UInt64.toNat_and, toNat_ofNat_leValue h, hmask, ← h]
  exact leValue_and_shows bs

/-! ## The first byte shown -/

/-- A mask that is not zero leads to the first byte it shows. -/
theorem Shows.firstByteIndex {p : UInt8 → Bool} {mask : UInt64} (h : Shows p bs mask.toNat)
    (hlen : bs.length = 8) :
    (mask = 0 ∧ ∀ b ∈ bs, p b = false) ∨
    (mask ≠ 0 ∧ ∃ front b back, bs = front ++ b :: back ∧ (∀ a ∈ front, p a = false) ∧
      p b = true ∧ Support.firstByteIndex mask = front.length) := by
  rcases h.lowest with ⟨hzero, hnone⟩ | ⟨front, b, back, rfl, hfront, hb, htop, hunder⟩
  · exact .inl ⟨UInt64.toNat_inj.mp hzero, hnone⟩
  · refine .inr ⟨?_, front, b, back, rfl, hfront, hb, ?_⟩
    · rintro rfl
      rw [UInt64.toNat_zero, Nat.zero_testBit] at htop
      cases htop
    · rw [List.length_append, List.length_cons] at hlen
      have hfind : (List.range 64).find? (fun i => mask.toNat.testBit i) =
          some (8 * front.length + 7) := by
        rw [List.find?_range_eq_some]
        refine ⟨htop, List.mem_range.mpr (by omega), fun i hi => ?_⟩
        rw [hunder i hi]
        rfl
      rw [Support.firstByteIndex, countrZero, hfind, Option.getD_some]
      omega

end Kotatsu.Support
