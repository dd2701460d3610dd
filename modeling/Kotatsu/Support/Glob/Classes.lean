import Kotatsu.Support.Glob.Items
import Kotatsu.Support.Glob.Spans

/-!
# Classes

The ranges of a bracket expression are sorted and coalesced, and the first that reaches
a code point is asked. They hold the code points of the ranges as they are written, and
none of an atom that does not decode.
-/

namespace Kotatsu.Support.Glob

open Kotatsu.Core

variable {ranges merged : List (Nat × Nat)} {range : Nat × Nat} {cp : Nat}

/-! ## Members -/

/-- A range in order, of Unicode code points. -/
def InOrder (range : Nat × Nat) : Prop := range.1 ≤ range.2 ∧ range.2 < invalidAtomBase

theorem valid_atom {x : Bytes} (h : ValidUtf8 x) (hne : x ≠ []) :
    (decodeUtf8Atom x).cp < invalidAtomBase ∧ ValidUtf8 (x.drop (decodeUtf8Atom x).len) := by
  obtain ⟨hv, hrest⟩ := h.drop hne
  rw [decodeUtf8Atom_of_valid hv]
  exact ⟨decodeUtf8_codePoint_lt hv, hrest⟩

variable {s body : Bytes}

/-- A member of valid text is a code point, and what follows is valid. -/
theorem nextMember_valid (h : ValidUtf8 s) (hp : Paired s) (hne : s ≠ []) :
    (nextMember s).cp < invalidAtomBase ∧ ValidUtf8 (s.drop (nextMember s).len) := by
  cases hp with
  | nil => exact absurd rfl hne
  | @byte b rest hb _ =>
    have hplain : nextMember (b :: rest) = decodeUtf8Atom (b :: rest) := by
      simp [nextMember, hb]
    rw [hplain]
    exact valid_atom h hne
  | @escape c rest _ =>
    have hescaped : nextMember (backslash :: c :: rest) =
        ⟨(decodeUtf8Atom (c :: rest)).cp, 1 + (decodeUtf8Atom (c :: rest)).len⟩ := by
      simp [nextMember]
    rw [hescaped, Nat.add_comm, List.drop_succ_cons]
    exact valid_atom (h.tail (by decide)) (List.cons_ne_nil c rest)

/-- The ranges of valid text are in order. -/
theorem parseMembers_inOrder {it : Nat} {pending : Option (Nat × Nat)} {out : List (Nat × Nat)}
    (hv : ValidUtf8 s) (hp : Paired s) (hpending : ∀ p ∈ pending, p.1 < invalidAtomBase)
    (hranges : ∀ range ∈ ranges, InOrder range) (h : parseMembers it s pending ranges = .ok out) :
    ∀ range ∈ out, InOrder range := by
  have hheld : ∀ pending : Option (Nat × Nat), (∀ p ∈ pending, p.1 < invalidAtomBase) →
      ∀ range ∈ (pending.map fun p => (p.1, p.1)).toList, InOrder range := by
    intro pending hpending range hm
    obtain ⟨p, hp, rfl⟩ := Option.map_eq_some_iff.mp (Option.mem_toList.mp hm)
    exact ⟨Nat.le_refl _, hpending p hp⟩
  fun_induction parseMembers it s pending ranges with
  | case1 =>
    cases h
    exact List.forall_mem_append.mpr ⟨hranges, hheld _ hpending⟩
  | case2 => cases h
  | case3 it s pending ranges hne hdash held hi hle ih =>
    obtain ⟨rest, rfl, hrest⟩ := exists_dash hdash.1 hp
    obtain ⟨first, rfl⟩ := Option.isSome_iff_exists.mp hdash.2.1
    have hne' : rest ≠ [] := by
      rintro rfl
      exact hdash.2.2 rfl
    obtain ⟨hcp, hrest'⟩ := nextMember_valid (hv.tail (by decide)) hrest hne'
    have hdrop : (dash :: rest).drop (1 + hi.len) = rest.drop (nextMember rest).len := by
      rw [Nat.add_comm]
      rfl
    rw [hdrop] at h ih
    refine ih hrest' (nextMember_paired hrest hne').2.1 (fun p hp => by cases hp) ?_ h
    refine List.forall_mem_append.mpr ⟨hranges, fun range hm => ?_⟩
    rw [List.mem_singleton.mp hm]
    exact ⟨Nat.le_of_not_lt hle, hcp⟩
  | case4 it s pending ranges hne hdash member ih =>
    obtain ⟨hcp, hrest⟩ := nextMember_valid hv hp hne
    refine ih hrest (nextMember_paired hp hne).2.1 (fun p hp => ?_) ?_ h
    · cases hp
      exact hcp
    · exact List.forall_mem_append.mpr ⟨hranges, hheld _ hpending⟩

/-! ## Coalescing -/

/-- Ranges that follow one another. -/
structure Coalesced (merged : List (Nat × Nat)) : Prop where
  apart : merged.Pairwise fun a b => a.2 < b.1
  inOrder : ∀ range ∈ merged, InOrder range

/-- Some range holds the code point. -/
def Holds (ranges : List (Nat × Nat)) (cp : Nat) : Prop :=
  ∃ range ∈ ranges, range.1 ≤ cp ∧ cp ≤ range.2

theorem holds_append {others : List (Nat × Nat)} :
    Holds (ranges ++ others) cp ↔ Holds ranges cp ∨ Holds others cp := by
  simp only [Holds, List.mem_append, or_and_right, exists_or]

theorem holds_singleton : Holds [range] cp ↔ range.1 ≤ cp ∧ cp ≤ range.2 := by
  simp only [Holds, List.mem_singleton, exists_eq_left]

/-- One more range, from where the others begin on, is put behind them or joined to the
last one. -/
theorem mergeRange_spec (h : Coalesced merged) (hr : InOrder range)
    (hle : ∀ m ∈ merged, m.1 ≤ range.1) :
    Coalesced (mergeRange merged range) ∧ (∀ m ∈ mergeRange merged range, m.1 ≤ range.1) ∧
      ∀ cp, Holds (mergeRange merged range) cp ↔ Holds merged cp ∨ Holds [range] cp := by
  rcases List.eq_nil_or_concat merged with rfl | ⟨init, last, rfl⟩
  · have hone : mergeRange [] range = [range] := rfl
    rw [hone]
    refine ⟨⟨List.pairwise_singleton _ _, List.forall_mem_singleton.mpr hr⟩,
      List.forall_mem_singleton.mpr (Nat.le_refl _), fun cp => ?_⟩
    exact (or_iff_right fun ⟨_, hm, _⟩ => List.not_mem_nil hm).symm
  · rw [List.concat_eq_append] at h hle ⊢
    obtain ⟨hapart, hinOrder⟩ := h
    rw [List.forall_mem_append, List.forall_mem_singleton] at hle hinOrder
    obtain ⟨hinit, hlast⟩ := hinOrder
    rw [List.pairwise_append] at hapart
    obtain ⟨happ, -, hcross⟩ := hapart
    rw [mergeRange, List.getLast?_concat]
    dsimp only
    split
    · next hjoin =>
      rw [List.dropLast_concat]
      refine ⟨⟨List.pairwise_append.mpr ⟨happ, List.pairwise_singleton _ _, ?_⟩, ?_⟩, ?_,
        fun cp => ?_⟩
      · intro a ha b hb
        rw [List.mem_singleton.mp hb]
        exact hcross a ha last List.mem_cons_self
      · rw [List.forall_mem_append, List.forall_mem_singleton]
        exact ⟨hinit, hlast.1.trans (Nat.le_max_left _ _), Nat.max_lt.mpr ⟨hlast.2, hr.2⟩⟩
      · rw [List.forall_mem_append, List.forall_mem_singleton]
        exact hle
      · rw [holds_append, holds_append, or_assoc, holds_singleton, holds_singleton,
          holds_singleton]
        have h1 := hlast.1
        have h2 := hr.1
        have h3 := hle.2
        refine or_congr_right ?_
        dsimp only
        omega
    · next hapart' =>
      refine ⟨⟨List.pairwise_append.mpr ⟨List.pairwise_append.mpr
        ⟨happ, List.pairwise_singleton _ _, hcross⟩, List.pairwise_singleton _ _, ?_⟩, ?_⟩, ?_,
        fun cp => holds_append⟩
      · rw [List.forall_mem_append, List.forall_mem_singleton]
        simp only [List.mem_singleton, forall_eq]
        refine ⟨fun a ha => ?_, by omega⟩
        have h1 := hcross a ha last List.mem_cons_self
        have h2 := hle.2
        omega
      · rw [List.forall_mem_append, List.forall_mem_append, List.forall_mem_singleton,
          List.forall_mem_singleton]
        exact ⟨⟨hinit, hlast⟩, hr⟩
      · rw [List.forall_mem_append, List.forall_mem_append, List.forall_mem_singleton,
          List.forall_mem_singleton]
        exact ⟨hle, Nat.le_refl _⟩

/-- Sorted ranges are coalesced to ranges that hold the same. -/
theorem foldl_mergeRange (h : Coalesced merged) (hranges : ∀ range ∈ ranges, InOrder range)
    (hsorted : ranges.Pairwise fun a b => a.1 ≤ b.1)
    (hle : ∀ m ∈ merged, ∀ range ∈ ranges, m.1 ≤ range.1) :
    Coalesced (ranges.foldl mergeRange merged) ∧
      ∀ cp, Holds (ranges.foldl mergeRange merged) cp ↔ Holds (merged ++ ranges) cp := by
  induction ranges generalizing merged with
  | nil =>
    rw [List.append_nil]
    exact ⟨h, fun cp => Iff.rfl⟩
  | cons range ranges ih =>
    rw [List.forall_mem_cons] at hranges
    rw [List.pairwise_cons] at hsorted
    obtain ⟨hstep, hbound, hholds⟩ :=
      mergeRange_spec h hranges.1 fun m hm => hle m hm range List.mem_cons_self
    obtain ⟨hall, hsame⟩ := ih hstep hranges.2 hsorted.2 fun m hm other hother =>
      (hbound m hm).trans (hsorted.1 other hother)
    refine ⟨hall, fun cp => (hsame cp).trans ?_⟩
    refine holds_append.trans ?_
    rw [hholds, or_assoc]
    exact (or_congr_right holds_append.symm).trans holds_append.symm

theorem pairLe_iff {a b : Nat × Nat} : pairLe a b = true ↔ a.1 < b.1 ∨ a.1 = b.1 ∧ a.2 ≤ b.2 := by
  simp only [pairLe, Bool.or_eq_true, decide_eq_true_eq, Bool.and_eq_true]

theorem pairLe_trans (a b c : Nat × Nat) (hab : pairLe a b = true) (hbc : pairLe b c = true) :
    pairLe a c = true := by
  rw [pairLe_iff] at *
  omega

theorem pairLe_total (a b : Nat × Nat) : (pairLe a b || pairLe b a) = true := by
  rw [Bool.or_eq_true, pairLe_iff, pairLe_iff]
  omega

/-- The ranges of a class hold what is written. -/
theorem parseBracketCharset_spec {written : List (Nat × Nat)} (hv : ValidUtf8 s) (hp : Paired s)
    (hwritten : parseMembers 0 s none [] = .ok written) (h : parseBracketCharset s = .ok ranges) :
    Coalesced ranges ∧ (∀ cp, Holds ranges cp ↔ Holds written cp) := by
  have hinOrder := parseMembers_inOrder hv hp (fun p hp => by cases hp)
    (fun range hm => by cases hm) hwritten
  rw [parseBracketCharset, hwritten] at h
  cases h
  have hnil : Coalesced [] := ⟨.nil, fun range hm => by cases hm⟩
  have hsorted := List.pairwise_mergeSort pairLe_trans pairLe_total written
  have hranges : ∀ range ∈ written.mergeSort pairLe, InOrder range :=
    fun range hm => hinOrder range (List.mem_mergeSort.mp hm)
  obtain ⟨hall, hsame⟩ := foldl_mergeRange hnil hranges
    (hsorted.imp fun hle => by
      rw [pairLe_iff] at hle
      omega)
    (fun m hm => by cases hm)
  refine ⟨hall, fun cp => (hsame cp).trans ?_⟩
  simp only [List.nil_append, Holds, List.mem_mergeSort]

/-! ## Classes -/

/-- The first range that reaches a code point is the only one that can hold it. -/
theorem find_coalesced (h : Coalesced ranges) :
    ((ranges.find? fun range => cp ≤ range.2).map fun range => decide (range.1 ≤ cp)).getD false =
      true ↔ Holds ranges cp := by
  induction ranges with
  | nil => exact iff_of_false Bool.false_ne_true fun ⟨_, hm, _⟩ => List.not_mem_nil hm
  | cons range ranges ih =>
    obtain ⟨hapart, hinOrder⟩ := h
    rw [List.pairwise_cons] at hapart
    rw [List.forall_mem_cons] at hinOrder
    rw [← List.singleton_append, holds_append, holds_singleton, List.singleton_append]
    by_cases hreach : cp ≤ range.2
    · rw [List.find?_cons_of_pos (by simpa using hreach), Option.map_some, Option.getD_some,
        decide_eq_true_eq, or_iff_left]
      · exact (and_iff_left hreach).symm
      · rintro ⟨other, hm, hlo, -⟩
        have := hapart.1 other hm
        omega
    · rw [List.find?_cons_of_neg (by simpa using hreach), ih ⟨hapart.2, hinOrder.2⟩,
        or_iff_right fun hin => hreach hin.2]

/-- What closes has its escapes paired. -/
theorem Closes.paired (h : Closes body) : Paired body := by
  obtain ⟨inner, more, hsplit, hlen, -, hp, -⟩ := scanBracket_ok (h 0 [])
  have hsame : body = inner := List.append_inj_left hsplit (by omega)
  rwa [hsame]

theorem paired_membersOf (h : Paired body) : Paired (membersOf body) := by
  have hdrop := h.drop_negation
  rw [negationLength] at hdrop
  rw [membersOf]
  split
  · next hneg => rwa [if_pos hneg] at hdrop
  · next hneg => rwa [if_neg hneg, List.drop_zero] at hdrop

theorem valid_membersOf (h : ValidUtf8 body) : ValidUtf8 (membersOf body) := by
  rw [membersOf]
  split
  · next hneg =>
    obtain _ | ⟨b, rest⟩ := body
    · cases hneg
    · refine h.tail ?_
      obtain rfl | rfl := isNegation_iff.mp hneg
      · decide
      · decide
  · exact h

theorem contains_iff {c : CharClass} :
    c.contains cp = true ↔ (c.negated = false ↔
      ((c.ranges.find? fun range => cp ≤ range.2).map fun range =>
        decide (range.1 ≤ cp)).getD false = true) := by
  rw [CharClass.contains]
  generalize ((c.ranges.find? fun range => cp ≤ range.2).map fun range =>
    decide (range.1 ≤ cp)).getD false = hit
  cases c.negated <;> cases hit <;> decide

/-- A compiled class holds the atoms that the bracket expression says. -/
theorem classOf_spec (hcloses : Closes body) (hv : ValidUtf8 body)
    (hplain : (Item.bracket body).Plain) :
    ∃ negated ranges, bracketTok body = .cls negated ranges ∧
      ∀ x, (classOf body).contains (decodeUtf8Atom x).cp = true ↔ InClass negated ranges x := by
  obtain ⟨ranges, hranges⟩ := hplain
  obtain ⟨written, hwritten⟩ : ∃ written, parseMembers 0 (membersOf body) none [] = .ok written := by
    rw [parseBracketCharset] at hranges
    cases hparse : parseMembers 0 (membersOf body) none [] with
    | error e =>
      rw [hparse] at hranges
      cases hranges
    | ok written => exact ⟨written, rfl⟩
  obtain ⟨hcoalesced, hsame⟩ := parseBracketCharset_spec (valid_membersOf hv)
    (paired_membersOf hcloses.paired) hwritten hranges
  refine ⟨isNegation body, written, ?_, fun x => ?_⟩
  · have hmembers : parseMembers 0 (if isNegation body then body.drop 1 else body) none [] =
        .ok written := hwritten
    rw [bracketTok, hmembers]
  · have hclass : classOf body = ⟨isNegation body, ranges⟩ := by
      rw [classOf, hranges]
    rw [contains_iff, hclass, find_coalesced hcoalesced, InClass]
    refine iff_congr Iff.rfl ?_
    by_cases hvalid : (decodeUtf8 x).valid = true
    · rw [decodeUtf8Atom_of_valid hvalid, hsame, and_iff_right hvalid]
      rfl
    · refine iff_of_false ?_ fun h => hvalid h.1
      rintro ⟨range, hm, -, hhi⟩
      have hlt := (hcoalesced.inOrder range hm).2
      have hatom : (decodeUtf8Atom x).cp = invalidAtomBase + (x.headD 0).toNat := by
        rw [decodeUtf8Atom, if_neg hvalid]
      omega

end Kotatsu.Support.Glob
