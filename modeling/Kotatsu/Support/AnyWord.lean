import Kotatsu.Support.Swar

/-!
# Texts read by the word

A test of eight bytes that holds when it holds of one of them, run along a text. The
last word overlaps the one before it, and the bytes of a short text are put into one
word, some of them twice, so the text passes when one of its bytes does.
-/

namespace Kotatsu.Support

open Kotatsu.Core

/-- Eight bytes as a word. -/
def wordOf (bs : Bytes) : UInt64 := UInt64.ofNat (leValue bs)

/-- The loop of `any_word`, from `rest` on. -/
def anyWordFrom (text rest : Bytes) (test : UInt64 → Bool) : Bool :=
  if 8 ≤ rest.length then
    test (wordOf (rest.take 8)) || anyWordFrom text (rest.drop 8) test
  else if rest = [] then false
  else test (wordOf (text.drop (text.length - 8)))
termination_by rest.length
decreasing_by
  rw [List.length_drop]
  omega

/-- `any_word`. -/
def anyWord (text : Bytes) (filler : UInt64) (test : UInt64 → Bool) : Bool :=
  let size := text.length
  if 8 ≤ size then anyWordFrom text text test
  else if 4 ≤ size then
    test (wordOf (text.take 4) ||| wordOf (text.drop (size - 4)) <<< 32)
  else if size = 0 then false
  else
    let byte := fun i => wordOf [text.getD i 0]
    test (filler &&& ~~~(0xFFFFFF : UInt64) ||| byte 0 ||| byte (size / 2) <<< 8 |||
      byte (size - 1) <<< 16)

/-- A test of a word that looks for one byte of it. -/
def Bytewise (p : UInt8 → Bool) (test : UInt64 → Bool) : Prop :=
  ∀ bs : Bytes, bs.length = 8 → test (wordOf bs) = bs.any p

variable {p : UInt8 → Bool}

/-- A mask tells whether it shows a byte. -/
theorem Bytewise.of_shows {mask : UInt64 → UInt64}
    (h : ∀ bs : Bytes, bs.length = 8 → Shows p bs (mask (wordOf bs)).toNat) :
    Bytewise p fun word => mask word ≠ 0 := by
  intro bs hlen
  rcases (h bs hlen).firstByteIndex hlen with ⟨hzero, hnone⟩ | ⟨hne, front, b, back, rfl, -, hb, -⟩
  · simp only [hzero, ne_eq, not_true, decide_false]
    exact (List.any_eq_false.mpr fun b hb => by simp only [hnone b hb, Bool.false_eq_true,
      not_false_eq_true]).symm
  · simp only [hne, ne_eq, not_false_eq_true, decide_true]
    exact (List.any_eq_true.mpr ⟨b, List.mem_append_right _ List.mem_cons_self, hb⟩).symm

theorem leValue_append (xs ys : Bytes) :
    leValue (xs ++ ys) = leValue xs + 2 ^ (8 * xs.length) * leValue ys := by
  induction xs with
  | nil => simp [leValue, leValueFrom]
  | cons x xs ih =>
    rw [List.cons_append, leValue_cons, leValue_cons, ih, List.length_cons, Nat.mul_succ,
      Nat.pow_add]
    ring

theorem leValue_lt (bs : Bytes) : leValue bs < 2 ^ (8 * bs.length) := (leBytes_leValue bs).2

/-- A word with the bytes of another above its own. -/
private theorem wordOf_or_shift {xs ys : Bytes} {n : UInt64} (hn : n.toNat = 8 * xs.length)
    (h : xs.length + ys.length ≤ 8) (hys : ys ≠ []) :
    wordOf xs ||| wordOf ys <<< n = wordOf (xs ++ ys) := by
  have hpos : 0 < ys.length := List.length_pos_iff.mpr hys
  have hx := leValue_lt xs
  have hy := leValue_lt ys
  have hfits : ∀ {bs : Bytes}, bs.length ≤ 8 → leValue bs < 2 ^ 64 := fun {bs} hle =>
    (leValue_lt bs).trans_le (Nat.pow_le_pow_right (by decide) (by omega))
  have hshift : leValue ys * 2 ^ (8 * xs.length) < 2 ^ 64 := by
    calc leValue ys * 2 ^ (8 * xs.length) < 2 ^ (8 * ys.length) * 2 ^ (8 * xs.length) :=
          Nat.mul_lt_mul_of_pos_right hy (Nat.two_pow_pos _)
      _ = 2 ^ (8 * ys.length + 8 * xs.length) := (Nat.pow_add _ _ _).symm
      _ ≤ 2 ^ 64 := Nat.pow_le_pow_right (by decide) (by omega)
  apply UInt64.toNat_inj.mp
  rw [UInt64.toNat_or, UInt64.toNat_shiftLeft, hn, Nat.mod_eq_of_lt (by omega : 8 * xs.length < 64)]
  simp only [wordOf, UInt64.toNat_ofNat']
  rw [Nat.mod_eq_of_lt (hfits (by omega : xs.length ≤ 8)),
    Nat.mod_eq_of_lt (hfits (by omega : ys.length ≤ 8)),
    Nat.mod_eq_of_lt (hfits (by rw [List.length_append]; exact h)), Nat.shiftLeft_eq,
    Nat.mod_eq_of_lt hshift, leValue_append, Nat.mul_comm, ← Nat.mul_comm (leValue ys),
    Nat.or_comm, ← Nat.shiftLeft_eq, ← Nat.shiftLeft_add_eq_or_of_lt hx, Nat.add_comm]

theorem anyWordFrom_eq {test : UInt64 → Bool} (h : Bytewise p test) {text rest : Bytes}
    (hsize : 8 ≤ text.length) (hrest : rest <:+ text) :
    (anyWordFrom text rest test = true → text.any p = true) ∧
    (rest.any p = true → anyWordFrom text rest test = true) := by
  induction hn : rest.length using Nat.strong_induction_on generalizing rest with
  | _ n ih =>
    subst hn
    have hword : ∀ {bs : Bytes}, bs.length = 8 → (∀ b ∈ bs, b ∈ text) →
        test (wordOf bs) = true → text.any p = true := by
      intro bs hlen hmem htest
      rw [h bs hlen] at htest
      obtain ⟨b, hb, hp⟩ := List.any_eq_true.mp htest
      exact List.any_eq_true.mpr ⟨b, hmem b hb, hp⟩
    unfold anyWordFrom
    split
    case isTrue hlen =>
      have htake : (rest.take 8).length = 8 := by
        rw [List.length_take]
        exact Nat.min_eq_left hlen
      have hdrop : (rest.drop 8).length < rest.length := by
        rw [List.length_drop]
        omega
      obtain ⟨hsound, hcomplete⟩ := ih _ hdrop ((List.drop_suffix 8 rest).trans hrest) rfl
      rw [Bool.or_eq_true]
      constructor
      · rintro (htest | hany)
        · exact hword htake (fun b hb => hrest.subset (List.mem_of_mem_take hb)) htest
        · exact hsound hany
      · intro hany
        rw [← List.take_append_drop 8 rest, List.any_append, Bool.or_eq_true] at hany
        rcases hany with hany | hany
        · exact .inl ((h _ htake).trans hany)
        · exact .inr (hcomplete hany)
    case isFalse hlen =>
      split
      case isTrue hnil =>
        subst hnil
        exact ⟨fun hfalse => absurd hfalse Bool.false_ne_true, fun hany => by cases hany⟩
      case isFalse =>
        have hlast : (text.drop (text.length - 8)).length = 8 := by
          rw [List.length_drop]
          omega
        refine ⟨hword hlast fun b hb => List.mem_of_mem_drop hb, fun hany => ?_⟩
        rw [h _ hlast]
        obtain ⟨b, hb, hp⟩ := List.any_eq_true.mp hany
        have hsuffix : rest <:+ text.drop (text.length - 8) :=
          List.suffix_of_suffix_length_le hrest (List.drop_suffix _ _) (by omega)
        exact List.any_eq_true.mpr ⟨b, hsuffix.subset hb, hp⟩

/-- Every byte of a short text is one of its first, its middle and its last. -/
private theorem any_short {text : Bytes} (h : text ≠ []) (hlt : text.length < 4) :
    [text.getD 0 0, text.getD (text.length / 2) 0, text.getD (text.length - 1) 0].any p =
      text.any p := by
  match text, h, hlt with
  | [a], _, _ => simp [List.getD]
  | [a, b], _, _ => simp [List.getD]
  | [a, b, c], _, _ => simp [List.getD]

/-- A word without its three lowest bytes. -/
private theorem wordOf_and_not {low high : Bytes} (hlow : low.length = 3)
    (hhigh : high.length = 5) :
    wordOf (low ++ high) &&& ~~~(0xFFFFFF : UInt64) = wordOf high <<< 24 := by
  have hl := leValue_lt low
  have hh := leValue_lt high
  rw [hlow] at hl
  rw [hhigh] at hh
  have hvalue : leValue (low ++ high) = 2 ^ 24 * leValue high + leValue low := by
    rw [leValue_append, hlow, Nat.add_comm]
  apply UInt64.toNat_inj.mp
  rw [UInt64.toNat_and, UInt64.toNat_not, UInt64.toNat_shiftLeft, Nat.shiftLeft_eq]
  simp only [wordOf, UInt64.toNat_ofNat']
  rw [hvalue, Nat.mod_eq_of_lt (by omega : 2 ^ 24 * leValue high + leValue low < 2 ^ 64),
    Nat.mod_eq_of_lt (by omega : leValue high < 2 ^ 64)]
  have hmask : UInt64.size - 1 - (0xFFFFFF : UInt64).toNat = 2 ^ 64 - (0xFFFFFF + 1) := rfl
  have hshift : (24 : UInt64).toNat % 64 = 24 := rfl
  rw [hmask, hshift, Nat.mod_eq_of_lt (by omega : leValue high * 2 ^ 24 < 2 ^ 64),
    Nat.mul_comm (leValue high)]
  refine Nat.eq_of_testBit_eq fun i => ?_
  rw [Nat.testBit_and, Nat.testBit_two_pow_mul_add _ hl, Nat.testBit_two_pow_mul,
    Nat.testBit_two_pow_sub_succ (by decide), show 0xFFFFFF = 2 ^ 24 - 1 from rfl,
    Nat.testBit_two_pow_sub_one]
  rcases Nat.lt_or_ge i 24 with hlt | hge
  · simp [hlt, Nat.not_le_of_gt hlt]
  · rcases Nat.lt_or_ge i 64 with hlt' | hge'
    · simp [hge, hlt', Nat.not_lt_of_ge hge]
    · have hbit : (leValue high).testBit (i - 24) = false :=
        Nat.testBit_eq_false_of_lt (hh.trans_le (Nat.pow_le_pow_right (by decide) (by omega)))
      simp [Nat.not_lt_of_ge hge, Nat.not_lt_of_ge hge', hbit]

/-- `any_word` finds the bytes that its test looks for. -/
theorem anyWord_eq {test : UInt64 → Bool} (h : Bytewise p test) (fill : Bytes)
    (hfill : fill.length = 8) (hnone : ∀ b ∈ fill, p b = false) (text : Bytes) :
    anyWord text (wordOf fill) test = text.any p := by
  unfold anyWord
  dsimp only
  split
  case isTrue hsize =>
    rw [Bool.eq_iff_iff]
    have hboth := anyWordFrom_eq h hsize List.suffix_rfl
    exact ⟨hboth.1, hboth.2⟩
  case isFalse hsize =>
    split
    case isTrue hfour =>
      have htake : (text.take 4).length = 4 := by
        rw [List.length_take]
        omega
      have hdrop : (text.drop (text.length - 4)).length = 4 := by
        rw [List.length_drop]
        omega
      rw [wordOf_or_shift (by rw [htake]; rfl) (by omega)
        (List.ne_nil_of_length_pos (by omega)), h _ (by rw [List.length_append]; omega),
        Bool.eq_iff_iff, List.any_eq_true, List.any_eq_true]
      constructor
      · rintro ⟨b, hb, hp⟩
        rcases List.mem_append.mp hb with hb | hb
        · exact ⟨b, List.mem_of_mem_take hb, hp⟩
        · exact ⟨b, List.mem_of_mem_drop hb, hp⟩
      · rintro ⟨b, hb, hp⟩
        refine ⟨b, List.mem_append.mpr ?_, hp⟩
        rw [← List.take_append_drop 4 text, List.mem_append] at hb
        refine hb.imp_right fun hb => ?_
        have hsuffix : text.drop 4 <:+ text.drop (text.length - 4) :=
          List.suffix_of_suffix_length_le (List.drop_suffix _ _) (List.drop_suffix _ _)
            (by rw [List.length_drop, List.length_drop]; omega)
        exact hsuffix.subset hb
    case isFalse hfour =>
      split
      case isTrue hzero => rw [List.length_eq_zero_iff.mp hzero, List.any_nil]
      case isFalse hzero =>
        have hne : text ≠ [] := fun hnil => hzero (congrArg List.length hnil)
        obtain ⟨low, high, rfl, hlow, hhigh⟩ : ∃ low high, fill = low ++ high ∧
            low.length = 3 ∧ high.length = 5 :=
          ⟨fill.take 3, fill.drop 3, (List.take_append_drop 3 fill).symm,
            by rw [List.length_take]; omega, by rw [List.length_drop]; omega⟩
        have hhigh' : high ≠ [] := List.ne_nil_of_length_pos (by omega)
        rw [wordOf_and_not hlow hhigh, UInt64.or_assoc, UInt64.or_assoc, UInt64.or_comm,
          ← UInt64.or_assoc, wordOf_or_shift rfl (by simp) (List.cons_ne_nil _ _),
          wordOf_or_shift rfl (by simp) (List.cons_ne_nil _ _),
          wordOf_or_shift rfl (by simp [hhigh]) hhigh',
          h _ (by rw [List.length_append, hhigh]; rfl), List.any_append]
        have hhighNone : high.any p = false := List.any_eq_false.mpr fun b hb => by
          rw [hnone b (List.mem_append_right _ hb)]
          exact Bool.false_ne_true
        rw [hhighNone, Bool.or_false]
        exact any_short hne (by omega)

end Kotatsu.Support
