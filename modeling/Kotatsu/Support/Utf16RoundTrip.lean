import Kotatsu.Support.Surrogates

/-!
# UTF-16 and back

`to_utf16` reads what `from_utf16` writes, and nothing but well-formed WTF-8. Where it
fails it has written the units of what is well-formed before the sequence at fault;
except that a high surrogate right before the first two bytes of a low one is not
written, though no low one follows it.
-/

namespace Kotatsu.Support

open Kotatsu.Core

variable {text rest : Bytes} {cp : Nat} {cps : List Nat} {out : Room UInt16}

/-! ## WTF-8 -/

/-- A high surrogate in three bytes. -/
def IsHighSequence (seq : Bytes) : Prop := ∃ b c, seq = [0xED, b, c] ∧ 0xA0 ≤ b ∧ b ≤ 0xAF

/-- A low surrogate in three bytes. -/
def IsLowSequence (seq : Bytes) : Prop := ∃ b c, seq = [0xED, b, c] ∧ 0xB0 ≤ b ∧ b ≤ 0xBF

/-- Well-formed WTF-8: UTF-8 with surrogates in three bytes, no high one right before a low
one. -/
def Wtf8 (text : Bytes) : Prop :=
  ∃ seqs : List Bytes, (∀ seq ∈ seqs, WellFormedSequence true seq) ∧
    seqs.IsChain (fun a b => ¬(IsHighSequence a ∧ IsLowSequence b)) ∧ text = seqs.flatten

/-- No well-formed sequence is at the start of a text. -/
def BeginsNone (text : Bytes) : Prop := ∀ seq, seq <+: text → ¬WellFormedSequence true seq

/-- The sequence at the start is at fault: there is none that is well-formed, or it is a high
surrogate and a low one. -/
def Offends (rest : Bytes) : Prop :=
  (rest ≠ [] ∧ BeginsNone rest) ∨
    ∃ high low more, WellFormedSequence true high ∧ WellFormedSequence true low ∧
      IsHighSequence high ∧ IsLowSequence low ∧ rest = high ++ (low ++ more)

/-- A high surrogate is right before the first two bytes of a low one, whose third byte is
missing. -/
def CutLow (text : Bytes) : Prop :=
  ∃ front high rest, text = front ++ (high ++ rest) ∧ Wtf8 front ∧
    WellFormedSequence true high ∧ IsHighSequence high ∧ beginsLow rest = true ∧ BeginsNone rest

/-! ## Sequences and code points -/

theorem put_surrogate (h : 0xD800 ≤ cp ∧ cp ≤ 0xDFFF) :
    ∃ b c : UInt8, putCodePoint cp = [0xED, b, c] ∧ b.toNat = 0x80 + cp / 64 % 64 := by
  have hlead : UInt8.ofNat (0xE0 + cp / 4096) = 0xED := by
    rw [show 0xE0 + cp / 4096 = 0xED by omega]
    rfl
  rw [putCodePoint_eq (by omega), if_neg (by omega), if_neg (by omega), if_pos (by omega), hlead]
  refine ⟨_, _, rfl, ?_⟩
  rw [UInt8.toNat_ofNat']
  omega

theorem surrogate_of_put {b c : UInt8} (hcp : cp < 0x110000)
    (h : putCodePoint cp = [0xED, b, c]) :
    0xD000 ≤ cp ∧ cp ≤ 0xDFFF ∧ b.toNat = 0x80 + cp / 64 % 64 := by
  rw [putCodePoint_eq hcp] at h
  have hlen := congrArg List.length h
  split at h
  · next hlt =>
    rw [if_pos hlt] at hlen
    cases hlen
  split at h
  · next hge hlt =>
    rw [if_neg hge, if_pos hlt] at hlen
    cases hlen
  split at h
  · simp only [List.cons.injEq, and_true] at h
    have ha := congrArg UInt8.toNat h.1
    have hb := congrArg UInt8.toNat h.2.1
    rw [UInt8.toNat_ofNat'] at ha hb
    simp only [UInt8.reduceToNat] at ha
    omega
  · next hge hge' hge'' =>
    rw [if_neg hge, if_neg hge', if_neg hge''] at hlen
    cases hlen

/-- A code point is put as a surrogate whose second byte is in a range where its bits are. -/
theorem surrogate_put_iff {low high : UInt8} (h : cp < 0x110000)
    (hrange : 0xA0 ≤ low.toNat ∧ high.toNat ≤ 0xBF) :
    (∃ b c, putCodePoint cp = [0xED, b, c] ∧ low ≤ b ∧ b ≤ high) ↔
      0xD000 + (low.toNat - 0x80) * 64 ≤ cp ∧ cp ≤ 0xD03F + (high.toNat - 0x80) * 64 := by
  constructor
  · rintro ⟨b, c, hput, hlow, hhigh⟩
    have hb := surrogate_of_put h hput
    rw [UInt8.le_iff_toNat_le] at hlow hhigh
    omega
  · intro hcp
    obtain ⟨b, c, hput, hb⟩ := put_surrogate (show 0xD800 ≤ cp ∧ cp ≤ 0xDFFF by omega)
    refine ⟨b, c, hput, ?_⟩
    rw [UInt8.le_iff_toNat_le, UInt8.le_iff_toNat_le]
    omega

theorem isHighSequence_put (h : cp < 0x110000) : IsHighSequence (putCodePoint cp) ↔ IsHigh cp :=
  surrogate_put_iff h (by decide)

theorem isLowSequence_put (h : cp < 0x110000) : IsLowSequence (putCodePoint cp) ↔ IsLow cp :=
  surrogate_put_iff h (by decide)

/-- The first two bytes of a low surrogate. -/
theorem beginsLow_iff : beginsLow text = true ↔
    ∃ b more, text = 0xED :: b :: more ∧ 0xB0 ≤ b ∧ b ≤ 0xBF := by
  have hall : ∀ n : Fin 256, UInt8.ofNat n.val &&& 0xF0 = 0xB0 ↔
      0xB0 ≤ UInt8.ofNat n.val ∧ UInt8.ofNat n.val ≤ 0xBF := by decide +kernel
  have hmask (b : UInt8) : b &&& 0xF0 = 0xB0 ↔ 0xB0 ≤ b ∧ b ≤ 0xBF := by
    have h := hall ⟨b.toNat, b.toNat_lt⟩
    rwa [UInt8.ofNat_toNat] at h
  match text with
  | [] | [_] => simp [beginsLow]
  | a :: b :: more =>
    rw [beginsLow, Bool.and_eq_true, decide_eq_true_eq, decide_eq_true_eq, hmask]
    constructor
    · rintro ⟨rfl, hb⟩
      exact ⟨b, more, rfl, hb⟩
    · rintro ⟨b', more', heq, hb⟩
      cases heq
      exact ⟨rfl, hb⟩

/-- A sequence that is put begins as a low surrogate only if it is one. -/
theorem beginsLow_put (h : cp < 0x110000) (rest : Bytes) :
    beginsLow (putCodePoint cp ++ rest) = true ↔ IsLow cp := by
  rw [beginsLow_iff, ← isLowSequence_put h]
  constructor
  · rintro ⟨b, more, heq, hb⟩
    obtain ⟨a, tail, hput⟩ :=
      List.exists_cons_of_ne_nil (wellFormed_ne_nil (wellFormed_putCodePoint h).1)
    have hwell := (wellFormed_putCodePoint h).1
    rw [hput, List.cons_append, List.cons.injEq] at heq
    obtain ⟨rfl, heq⟩ := heq
    rw [hput, wellFormed_cons, tails_eq, if_neg (by decide)] at hwell
    obtain ⟨row, hrow, hfollows⟩ := hwell
    have hrow' : row = [(0x80, 0xBF), trailing] := List.mem_singleton.mp hrow
    subst hrow'
    obtain ⟨x, tail, rfl, -, -, hfollows⟩ := follows_cons hfollows
    obtain ⟨c, tail, rfl, -, -, hfollows⟩ := follows_cons hfollows
    obtain rfl := follows_nil hfollows
    rw [List.cons_append, List.cons.injEq] at heq
    exact ⟨x, c, hput, heq.1 ▸ hb⟩
  · rintro ⟨b, c, hput, hb⟩
    exact ⟨b, c :: rest, by rw [hput]; rfl, hb⟩

/-- Well-formed WTF-8 spells code points that are apart. -/
theorem wtf8_iff : Wtf8 text ↔ ∃ cps, Unpaired cps ∧ text = spell cps := by
  constructor
  · rintro ⟨seqs, hall, hchain, rfl⟩
    refine ⟨seqs.map sequenceValue, ⟨List.forall_mem_map.mpr fun seq hm =>
      (putCodePoint_value (hall seq hm)).1, ?_⟩, ?_⟩
    · rw [List.isChain_map]
      refine List.IsChain.imp_of_mem_imp ?_ hchain
      rintro a b ha hb hapart ⟨hhigh, hlow⟩
      obtain ⟨hlta, hputa⟩ := putCodePoint_value (hall a ha)
      obtain ⟨hltb, hputb⟩ := putCodePoint_value (hall b hb)
      rw [← isHighSequence_put hlta, hputa] at hhigh
      rw [← isLowSequence_put hltb, hputb] at hlow
      exact hapart ⟨hhigh, hlow⟩
    · have hmap : seqs.map (fun seq => putCodePoint (sequenceValue seq)) = seqs :=
        (List.map_congr_left fun seq hm => (putCodePoint_value (hall seq hm)).2).trans
          (List.map_id' seqs)
      rw [spell, List.flatMap_map, List.flatMap_def, hmap]
  · rintro ⟨cps, ⟨hscalar, hapart⟩, rfl⟩
    refine ⟨cps.map putCodePoint, List.forall_mem_map.mpr fun cp hm =>
      (wellFormed_putCodePoint (hscalar cp hm)).1, ?_, List.flatMap_def ..⟩
    rw [List.isChain_map]
    refine List.IsChain.imp_of_mem_imp ?_ hapart
    rintro a b ha hb hne ⟨hhigh, hlow⟩
    exact hne ⟨(isHighSequence_put (hscalar a ha)).mp hhigh,
      (isLowSequence_put (hscalar b hb)).mp hlow⟩

/-! ## Reading -/

/-- A code point is read from its bytes. -/
theorem decodeSequence_put (h : cp < 0x110000) (rest : Bytes) :
    decodeSequence (putCodePoint cp ++ rest) true = ⟨cp, (putCodePoint cp).length, true⟩ := by
  obtain ⟨hwell, hvalue⟩ := wellFormed_putCodePoint h
  obtain ⟨hvalid, hlen⟩ := decodeSequence_of_wellFormed hwell rest
  have hcp := codePoint_of_valid hvalid
  rw [hlen, List.take_left, hvalue] at hcp
  cases hdecode : decodeSequence (putCodePoint cp ++ rest) true with
  | mk codePoint length valid =>
    rw [hdecode] at hvalid hlen hcp
    dsimp only at hvalid hlen hcp
    rw [hvalid, hlen, hcp]

/-- What does not decode has no sequence at its start, and the other way. -/
theorem beginsNone_iff : BeginsNone text ↔ (decodeSequence text true).valid = false := by
  rw [Bool.eq_false_iff]
  constructor
  · exact fun hnone hvalid => hnone _ (List.take_prefix _ _) (wellFormed_of_valid hvalid)
  · rintro hinvalid seq ⟨rest, rfl⟩ hwell
    exact hinvalid (decodeSequence_of_wellFormed hwell rest).1

theorem toUtf16Into_nil (out : Room UInt16) : toUtf16Into out [] = some (out, true) := by
  rw [toUtf16Into, dif_pos rfl]

theorem toUtf16Into_none (hne : rest ≠ []) (h : BeginsNone rest) (out : Room UInt16) :
    toUtf16Into out rest = some (out, false) := by
  rw [toUtf16Into, dif_neg hne]
  dsimp only
  rw [beginsNone_iff.mp h]
  rfl

theorem toUtf16Into_put (h : cp < 0x110000) (rest : Bytes) (out : Room UInt16) :
    toUtf16Into out (putCodePoint cp ++ rest) =
      if 0xD800 ≤ cp && cp ≤ 0xDBFF && beginsLow rest then some (out, false)
      else (out.putAll (codeUnits cp)).bind fun out => toUtf16Into out rest := by
  have hne : putCodePoint cp ++ rest ≠ [] :=
    List.append_ne_nil_of_left_ne_nil (wellFormed_ne_nil (wellFormed_putCodePoint h).1) rest
  rw [toUtf16Into, dif_neg hne, decodeSequence_put h]
  dsimp only
  rw [if_pos rfl, List.drop_left]

/-- No high surrogate of the code points is before two bytes of a low one. -/
def NoPair : List Nat → Bytes → Prop
  | [], _ => True
  | cp :: cps, rest => ¬(IsHigh cp ∧ beginsLow (spell cps ++ rest) = true) ∧ NoPair cps rest

theorem length_codeUnits_le (h : cp < 0x110000) :
    (codeUnits cp).length ≤ (putCodePoint cp).length := by
  have hpos := List.length_pos_of_ne_nil (wellFormed_ne_nil (wellFormed_putCodePoint h).1)
  rw [codeUnits]
  split
  · exact hpos
  · next hge =>
    rw [putCodePoint, if_neg (by omega), if_neg (by omega), if_neg hge]
    exact (by decide : 2 ≤ 4)

/-- Code points that no pair is spelled by are read one by one. -/
theorem toUtf16Into_spell (hscalar : ∀ cp ∈ cps, cp < 0x110000) (h : NoPair cps rest)
    (hroom : out.written.length + (spell cps).length ≤ out.size) :
    toUtf16Into out (spell cps ++ rest) =
      toUtf16Into { out with written := out.written ++ unitsOfAll cps } rest := by
  induction cps generalizing out with
  | nil => rw [unitsOfAll_nil, List.append_nil]; rfl
  | cons cp cps ih =>
    rw [List.forall_mem_cons] at hscalar
    have hlen := length_codeUnits_le hscalar.1
    have hpair : (0xD800 ≤ cp && cp ≤ 0xDBFF && beginsLow (spell cps ++ rest)) = false := by
      rw [Bool.eq_false_iff]
      intro hp
      rw [Bool.and_eq_true, Bool.and_eq_true, decide_eq_true_eq, decide_eq_true_eq] at hp
      exact h.1 hp
    rw [spell_cons, List.length_append] at hroom
    rw [spell_cons, List.append_assoc, toUtf16Into_put hscalar.1, hpair, if_neg Bool.false_ne_true,
      Room.putAll_eq (by omega), Option.bind_some, ih hscalar.2 h.2, unitsOfAll_cons,
      List.append_assoc]
    change (out.written ++ codeUnits cp).length + (spell cps).length ≤ out.size
    rw [List.length_append]
    omega

/-- A text begins with no sequence, or with that of a code point. -/
theorem beginsNone_or_put (text : Bytes) :
    BeginsNone text ∨ ∃ cp more, cp < 0x110000 ∧ text = putCodePoint cp ++ more := by
  by_cases hnone : BeginsNone text
  · exact .inl hnone
  · rw [beginsNone_iff, Bool.not_eq_false] at hnone
    obtain ⟨hlt, hput⟩ := putCodePoint_value (wellFormed_of_valid hnone)
    refine .inr ⟨_, text.drop (decodeSequence text true).length, hlt, ?_⟩
    rw [hput, List.take_append_drop]

/-- A text is code points that no pair is spelled by, and nothing more or a sequence that
stops the reading. -/
theorem exists_spell (text : Bytes) :
    ∃ cps rest, text = spell cps ++ rest ∧ (∀ cp ∈ cps, cp < 0x110000) ∧ NoPair cps rest ∧
      (rest = [] ∨ (rest ≠ [] ∧ BeginsNone rest) ∨
        ∃ cp more, rest = putCodePoint cp ++ more ∧ cp < 0x110000 ∧ IsHigh cp ∧
          beginsLow more = true) := by
  induction hn : text.length using Nat.strong_induction_on generalizing text with
  | _ n ih =>
    subst hn
    by_cases hne : text = []
    · exact ⟨[], [], hne, by simp, trivial, .inl rfl⟩
    obtain hnone | ⟨cp, more, hlt, rfl⟩ := beginsNone_or_put text
    · exact ⟨[], text, rfl, by simp, trivial, .inr (.inl ⟨hne, hnone⟩)⟩
    by_cases hpair : IsHigh cp ∧ beginsLow more = true
    · exact ⟨[], _, rfl, by simp, trivial, .inr (.inr ⟨cp, more, rfl, hlt, hpair⟩)⟩
    · have hpos := List.length_pos_of_ne_nil (wellFormed_ne_nil (wellFormed_putCodePoint hlt).1)
      obtain ⟨cps, rest, rfl, hscalar, hno, hrest⟩ :=
        ih more.length (by rw [List.length_append]; omega) more rfl
      refine ⟨cp :: cps, rest, ?_, List.forall_mem_cons.mpr ⟨hlt, hscalar⟩, ⟨hpair, hno⟩, hrest⟩
      rw [spell_cons, List.append_assoc]

/-- What `to_utf16` gives, read off the code points. -/
theorem toUtf16_spell (hscalar : ∀ cp ∈ cps, cp < 0x110000) (h : NoPair cps rest) :
    (rest = [] → toUtf16 (spell cps ++ rest) = some (unitsOfAll cps, true)) ∧
      (rest ≠ [] → BeginsNone rest → toUtf16 (spell cps ++ rest) = some (unitsOfAll cps, false)) ∧
      ∀ cp more, rest = putCodePoint cp ++ more → cp < 0x110000 → IsHigh cp →
        beginsLow more = true → toUtf16 (spell cps ++ rest) = some (unitsOfAll cps, false) := by
  have hread : toUtf16Into { size := (spell cps ++ rest).length } (spell cps ++ rest) =
      toUtf16Into { size := (spell cps ++ rest).length, written := unitsOfAll cps } rest :=
    toUtf16Into_spell hscalar h (by
      change 0 + (spell cps).length ≤ (spell cps ++ rest).length
      rw [List.length_append]
      omega)
  rw [toUtf16, hread]
  refine ⟨?_, ?_, ?_⟩
  · rintro rfl
    rw [toUtf16Into_nil]
    rfl
  · intro hne hnone
    rw [toUtf16Into_none hne hnone]
    rfl
  · rintro cp more rfl hlt hhigh hlow
    rw [toUtf16Into_put hlt, if_pos]
    · rfl
    · rw [Bool.and_eq_true, Bool.and_eq_true, decide_eq_true_eq, decide_eq_true_eq]
      exact ⟨hhigh, hlow⟩

/-- Code points that are apart spell no pair, except with what is after them. -/
theorem Unpaired.noPair (h : Unpaired cps)
    (hrest : ∀ cp ∈ cps.getLast?, ¬(IsHigh cp ∧ beginsLow rest = true)) : NoPair cps rest := by
  induction cps with
  | nil => trivial
  | cons cp cps ih =>
    cases cps with
    | nil => exact ⟨hrest cp rfl, trivial⟩
    | cons other cps =>
      refine ⟨?_, ih h.tail fun last hlast => hrest last ?_⟩
      · rintro ⟨hhigh, hlow⟩
        rw [spell_cons, List.append_assoc, beginsLow_put h.tail.head] at hlow
        exact (List.isChain_cons_cons.mp h.apart).1 ⟨hhigh, hlow⟩
      · rwa [List.getLast?_cons_cons]

theorem unpaired_of_noPair (hscalar : ∀ cp ∈ cps, cp < 0x110000) (h : NoPair cps rest) :
    Unpaired cps := by
  refine ⟨hscalar, ?_⟩
  induction cps with
  | nil => exact .nil
  | cons cp cps ih =>
    rw [List.forall_mem_cons] at hscalar
    refine List.isChain_cons.mpr ⟨?_, ih hscalar.2 h.2⟩
    rintro other hother ⟨hhigh, hlow⟩
    cases cps with
    | nil => cases hother
    | cons head cps =>
      cases hother
      refine h.1 ⟨hhigh, ?_⟩
      rw [spell_cons, List.append_assoc, beginsLow_put (hscalar.2 other List.mem_cons_self)]
      exact hlow

/-- What is spelled by code points that are apart is read as their units. -/
theorem toUtf16_unpaired (h : Unpaired cps) :
    toUtf16 (spell cps) = some (unitsOfAll cps, true) := by
  have hno : NoPair cps [] := h.noPair fun cp _ hlow => Bool.false_ne_true hlow.2
  have hread := (toUtf16_spell h.scalar hno).1 rfl
  rwa [List.append_nil] at hread

/-- What is read whole is well-formed, and spelled by the units. -/
theorem of_toUtf16 {units : List UInt16} (h : toUtf16 text = some (units, true)) :
    ∃ cps, Unpaired cps ∧ text = spell cps ∧ units = unitsOfAll cps := by
  obtain ⟨cps, rest, rfl, hscalar, hno, hrest⟩ := exists_spell text
  obtain ⟨hwhole, hnone, hpair⟩ := toUtf16_spell hscalar hno
  obtain rfl | ⟨hne, hbegins⟩ | ⟨cp, more, hmore, hlt, hhigh, hlow⟩ := hrest
  · rw [hwhole rfl, Option.some.injEq, Prod.mk.injEq] at h
    exact ⟨cps, unpaired_of_noPair hscalar hno, List.append_nil _, h.1.symm⟩
  · rw [hnone hne hbegins, Option.some.injEq, Prod.mk.injEq] at h
    exact absurd h.2 Bool.false_ne_true
  · rw [hpair cp more hmore hlt hhigh hlow, Option.some.injEq, Prod.mk.injEq] at h
    exact absurd h.2 Bool.false_ne_true

/-! ## Round trips -/

theorem length_putCodePoint_le (cp : Nat) :
    (putCodePoint cp).length ≤ 4 ∧ (cp < 0x10000 → (putCodePoint cp).length ≤ 3) := by
  rw [putCodePoint]
  split
  · exact ⟨Nat.succ_le_succ (Nat.zero_le _), fun _ => Nat.succ_le_succ (Nat.zero_le _)⟩
  split
  · exact ⟨Nat.le_add_left 2 2, fun _ => Nat.le_succ 2⟩
  split
  · exact ⟨Nat.le_succ 3, fun _ => Nat.le_refl 3⟩
  · next hge => exact ⟨Nat.le_refl 4, fun hlt => absurd hlt hge⟩

/-- What `from_utf16` spells fits into three bytes for a unit. -/
theorem fromUtf16Into_eq (out : Room UInt8) (text : List UInt16)
    (h : out.written.length + text.length * 3 ≤ out.size) :
    fromUtf16Into out text = some { out with written := out.written ++ fromUtf16 text } := by
  induction hn : text.length using Nat.strong_induction_on generalizing out text with
  | _ n ih =>
    subst hn
    have hunit (unit : UInt16) : (putCodePoint unit.toNat).length ≤ 3 :=
      (length_putCodePoint_le _).2 unit.toNat_lt
    match text with
    | [] => rw [fromUtf16Into, fromUtf16, List.append_nil]
    | [unit] =>
      have hlen := hunit unit
      rw [List.length_singleton] at h
      rw [fromUtf16Into, fromUtf16, Room.putAll_eq (by omega)]
    | unit :: next :: text =>
      rw [List.length_cons, List.length_cons] at h
      rw [fromUtf16Into, fromUtf16]
      split
      · have hlen := (length_putCodePoint_le (pairCodePoint unit next)).1
        rw [Room.putAll_eq (by omega), Option.bind_some,
          ih text.length (by rw [List.length_cons, List.length_cons]; omega) _ text ?_ rfl,
          List.append_assoc]
        change (out.written ++ putCodePoint (pairCodePoint unit next)).length + text.length * 3 ≤
          out.size
        rw [List.length_append]
        omega
      · have hlen := hunit unit
        rw [Room.putAll_eq (by omega), Option.bind_some,
          ih (next :: text).length (by simp) _ (next :: text) ?_ rfl, List.append_assoc]
        change (out.written ++ putCodePoint unit.toNat).length + (next :: text).length * 3 ≤
          out.size
        rw [List.length_append, List.length_cons]
        omega

/-- `from_utf16` writes what it spells into the room it reserves. -/
theorem writeUtf16_eq (text : List UInt16) : writeUtf16 text = some (fromUtf16 text) := by
  rw [writeUtf16, fromUtf16Into_eq _ _ (Nat.zero_add _).le]
  rfl

/-- What is asked of reading a text: it succeeds where the text is well-formed, the units
spell the text again, and those before a sequence at fault are written. -/
structure ReadsWtf8 (text : Bytes) : Prop where
  inRoom : (toUtf16 text).isSome = true
  succeeds : (∃ units, toUtf16 text = some (units, true)) ↔ Wtf8 text
  spells : ∀ units, toUtf16 text = some (units, true) → fromUtf16 units = text
  fails : ∀ front rest units, text = front ++ rest → Wtf8 front → Offends rest →
    toUtf16 front = some (units, true) → toUtf16 text = some (units, false)

theorem toUtf16_isSome (text : Bytes) : (toUtf16 text).isSome = true := by
  obtain ⟨cps, rest, rfl, hscalar, hno, hrest⟩ := exists_spell text
  obtain ⟨hwhole, hnone, hpair⟩ := toUtf16_spell hscalar hno
  obtain rfl | ⟨hne, hbegins⟩ | ⟨cp, more, hmore, hlt, hhigh, hlow⟩ := hrest
  · rw [hwhole rfl]
    rfl
  · rw [hnone hne hbegins]
    rfl
  · rw [hpair cp more hmore hlt hhigh hlow]
    rfl

theorem toUtf16_succeeds (text : Bytes) :
    (∃ units, toUtf16 text = some (units, true)) ↔ Wtf8 text := by
  rw [wtf8_iff]
  constructor
  · rintro ⟨units, h⟩
    obtain ⟨cps, hcps, rfl, -⟩ := of_toUtf16 h
    exact ⟨cps, hcps, rfl⟩
  · rintro ⟨cps, hcps, rfl⟩
    exact ⟨_, toUtf16_unpaired hcps⟩

theorem toUtf16_spells {units : List UInt16} (h : toUtf16 text = some (units, true)) :
    fromUtf16 units = text := by
  obtain ⟨cps, hcps, rfl, rfl⟩ := of_toUtf16 h
  rw [fromUtf16_eq, codePoints_unitsOfAll hcps]

/-- Code points in front of a sequence at fault are read as their units, unless the last one
is a high surrogate before two bytes of a low one. -/
theorem toUtf16_offends (h : Unpaired cps) (hoffends : Offends rest)
    (hlast : ∀ cp ∈ cps.getLast?, ¬(IsHigh cp ∧ beginsLow rest = true)) :
    toUtf16 (spell cps ++ rest) = some (unitsOfAll cps, false) := by
  obtain ⟨-, hnone, hpair⟩ := toUtf16_spell h.scalar (h.noPair hlast)
  obtain ⟨hne, hbegins⟩ | ⟨high, low, more, hwell, hwell', hhigh, hlow, hrest⟩ := hoffends
  · exact hnone hne hbegins
  · obtain ⟨hlt, hput⟩ := putCodePoint_value hwell
    obtain ⟨hlt', hput'⟩ := putCodePoint_value hwell'
    rw [← hput, isHighSequence_put hlt] at hhigh
    rw [← hput', isLowSequence_put hlt'] at hlow
    rw [← hput, ← hput'] at hrest
    exact hpair _ _ hrest hlt hhigh ((beginsLow_put hlt' more).mpr hlow)

/-- A text that is not well-formed has a sequence at fault, and before it is well-formed. -/
theorem exists_offends (h : ¬Wtf8 text) :
    ∃ front rest, text = front ++ rest ∧ Wtf8 front ∧ Offends rest := by
  obtain ⟨cps, rest, rfl, hscalar, hno, hrest⟩ := exists_spell text
  have hcps := unpaired_of_noPair hscalar hno
  obtain rfl | hrest | ⟨cp, more, rfl, hlt, hhigh, hlow⟩ := hrest
  · rw [List.append_nil] at h
    exact absurd (wtf8_iff.mpr ⟨cps, hcps, rfl⟩) h
  · exact ⟨_, rest, rfl, wtf8_iff.mpr ⟨cps, hcps, rfl⟩, .inl hrest⟩
  -- A low surrogate is whole, and pairs with the high one, or begins no sequence.
  obtain hnone | ⟨low, more, hlt', rfl⟩ := beginsNone_or_put more
  · refine ⟨_, more, ?_, wtf8_iff.mpr ⟨_, hcps.concat hlt hhigh, rfl⟩, .inl ⟨?_, hnone⟩⟩
    · rw [spell_concat, List.append_assoc]
    · rintro rfl
      cases hlow
  · refine ⟨_, _, rfl, wtf8_iff.mpr ⟨cps, hcps, rfl⟩, .inr ⟨_, _, more,
      (wellFormed_putCodePoint hlt).1, (wellFormed_putCodePoint hlt').1,
      (isHighSequence_put hlt).mpr hhigh, (isLowSequence_put hlt').mpr ?_, rfl⟩⟩
    exact (beginsLow_put hlt' more).mp hlow

/-- A cut low surrogate takes the high one before it from the units. -/
theorem not_readsWtf8_of_cutLow (h : CutLow text) : ¬ReadsWtf8 text := by
  obtain ⟨front, high, rest, rfl, hfront, hwell, hhigh, hlow, hnone⟩ := h
  intro hreads
  obtain ⟨cps, hcps, rfl⟩ := wtf8_iff.mp hfront
  obtain ⟨hlt, hput⟩ := putCodePoint_value hwell
  rw [← hput] at hreads hhigh
  generalize sequenceValue high = cp at hlt hreads hhigh
  rw [isHighSequence_put hlt] at hhigh
  have hboth := hcps.concat hlt hhigh
  have hne : rest ≠ [] := by
    rintro rfl
    cases hlow
  have hexpected := hreads.fails (spell (cps ++ [cp])) rest (unitsOfAll (cps ++ [cp]))
    (by rw [spell_concat, List.append_assoc]) (wtf8_iff.mpr ⟨_, hboth, rfl⟩) (.inl ⟨hne, hnone⟩)
    (toUtf16_unpaired hboth)
  have hno : NoPair cps (putCodePoint cp ++ rest) := hcps.noPair fun last _ hpair => by
    have hlow' := (beginsLow_put hlt rest).mp hpair.2
    rw [IsHigh] at hhigh
    rw [IsLow] at hlow'
    omega
  have hactual := (toUtf16_spell hcps.scalar hno).2.2 cp rest rfl hlt hhigh hlow
  rw [hactual, Option.some.injEq, Prod.mk.injEq] at hexpected
  have hlen := congrArg List.length hexpected.1
  have hpos : 0 < (codeUnits cp).length := by
    rw [codeUnits]
    split <;> simp
  simp only [unitsOfAll, List.flatMap_append, List.length_append, List.flatMap_cons,
    List.flatMap_nil, List.append_nil] at hlen
  omega

/-- A high surrogate and the first two bytes of a low one. -/
theorem not_readsWtf8_cut : ¬ReadsWtf8 [0xED, 0xA0, 0x80, 0xED, 0xB0] := by
  refine not_readsWtf8_of_cutLow ⟨[], [0xED, 0xA0, 0x80], [0xED, 0xB0], rfl,
    ⟨[], by simp, .nil, rfl⟩, ⟨[(0xED, 0xED), (0x80, 0xBF), trailing], by decide, ?_⟩,
    ⟨0xA0, 0x80, rfl, by decide, by decide⟩, by decide, beginsNone_iff.mpr (by decide)⟩
  exact .cons (by decide) (.cons (by decide) (.cons (by decide) .nil))

/-- UTF-16 comes back from its spelling, and a text is read as it should be exactly where no
low surrogate is cut behind a high one. -/
theorem utf16_spec (units : List UInt16) (text : Bytes) :
    (writeUtf16 units = some (fromUtf16 units) ∧ toUtf16 (fromUtf16 units) = some (units, true)) ∧
      (ReadsWtf8 text ↔ ¬CutLow text) := by
  refine ⟨⟨writeUtf16_eq units, ?_⟩,
    fun hreads hcut => not_readsWtf8_of_cutLow hcut hreads, fun hcut =>
      ⟨toUtf16_isSome text, toUtf16_succeeds text, fun units => toUtf16_spells, ?_⟩⟩
  · rw [fromUtf16_eq, toUtf16_unpaired (unpaired_codePoints units), unitsOfAll_codePoints]
  · rintro front rest units rfl hfront hoffends hunits
    obtain ⟨cps, hcps, rfl⟩ := wtf8_iff.mp hfront
    rw [toUtf16_unpaired hcps, Option.some.injEq, Prod.mk.injEq] at hunits
    rw [← hunits.1]
    refine toUtf16_offends hcps hoffends ?_
    rintro cp hlast ⟨hhigh, hlow⟩
    obtain ⟨before, rfl⟩ := List.getLast?_eq_some_iff.mp hlast
    have hlt := hcps.scalar cp (List.mem_append_right _ List.mem_cons_self)
    have hbefore : Unpaired before :=
      ⟨fun other hm => hcps.scalar other (List.mem_append_left _ hm), hcps.apart.left_of_append⟩
    refine hcut ⟨spell before, putCodePoint cp, rest, ?_, wtf8_iff.mpr ⟨_, hbefore, rfl⟩,
      (wellFormed_putCodePoint hlt).1, (isHighSequence_put hlt).mpr hhigh, hlow, ?_⟩
    · rw [spell_concat, List.append_assoc]
    · obtain ⟨-, hnone⟩ | ⟨high, low, more, hwell, -, hhigh', -, rfl⟩ := hoffends
      · exact hnone
      · obtain ⟨hlt', hput⟩ := putCodePoint_value hwell
        rw [← hput, isHighSequence_put hlt'] at hhigh'
        rw [← hput, beginsLow_put hlt'] at hlow
        rw [IsHigh] at hhigh'
        rw [IsLow] at hlow
        omega

end Kotatsu.Support
