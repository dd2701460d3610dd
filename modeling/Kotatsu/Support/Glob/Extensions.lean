import Kotatsu.Support.Glob.Classes
import Kotatsu.Support.Glob.Words

/-!
# Sets of extensions

`match_extension_set` looks up what follows the last dot of the input among literals that
are sorted by their length and then by their word. The input's word is masked anew for each
literal it is compared with; where the lengths differ, they decide, and where they do not,
it is the same word.
-/

namespace Kotatsu.Support.Glob

open Kotatsu.Core

variable {arms : List Arm} {str text : Bytes}

/-! ## Extensions -/

/-- What begins with the last dot, from behind it on. -/
theorem rtakeWhile_dot (hdot : dot ∉ text) (front : Bytes) :
    (front ++ dot :: text).rtakeWhile (· ≠ dot) = text := by
  have hkeep : ∀ b ∈ text.reverse, decide (b ≠ dot) = true := by
    intro b hb
    rw [decide_eq_true_eq]
    rintro rfl
    exact hdot (List.mem_reverse.mp hb)
  rw [List.rtakeWhile, List.reverse_append, List.reverse_cons, List.append_assoc,
    List.singleton_append, List.takeWhile_append_of_pos hkeep,
    List.takeWhile_cons_of_neg (by simp), List.append_nil, List.reverse_reverse]

theorem length_rtakeWhile_dot (h : dot ∈ str) : (str.rtakeWhile (· ≠ dot)).length < str.length := by
  refine Nat.lt_of_le_of_ne (List.rtakeWhile_suffix _ _).length_le fun hlen => ?_
  have hself := (List.rtakeWhile_suffix (fun b : UInt8 => decide (b ≠ dot)) str).eq_of_length hlen
  rw [← hself] at h
  exact absurd (List.mem_rtakeWhile_imp h) (by decide)

/-- A text that `match_extension_set` can look up. -/
theorem isExtension_iff : isExtension text = true ↔
    text.length ≤ 8 ∧ ∃ tail, text = dot :: tail ∧ dot ∉ tail := by
  rw [isExtension, Bool.and_eq_true, Bool.and_eq_true, decide_eq_true_eq, decide_eq_true_eq,
    Bool.not_eq_true', and_assoc]
  refine and_congr_right fun _ => ?_
  cases text with
  | nil => simp
  | cons b tail => simp [and_comm, eq_comm]

/-- The last eight bytes of the input, with zeros in front of a short one. -/
def lastBytes (str : Bytes) : Bytes :=
  if str.length ≥ 8 then str.drop (str.length - 8) else List.replicate (8 - str.length) 0 ++ str

theorem length_lastBytes (str : Bytes) : (lastBytes str).length = 8 := by
  rw [lastBytes]
  split
  · rw [List.length_drop]
    omega
  · rw [List.length_append, List.length_replicate]
    omega

theorem suffix_lastBytes (hlen : text.length ≤ 8) (hle : text.length ≤ str.length) :
    text <:+ lastBytes str ↔ text <:+ str := by
  have hsame : str <:+ lastBytes str ∨ lastBytes str <:+ str := by
    rw [lastBytes]
    split
    · exact .inr (List.drop_suffix _ _)
    · exact .inl (List.suffix_append _ _)
  have hlast := length_lastBytes str
  constructor
  · intro hs
    obtain h | h := hsame
    · exact List.suffix_of_suffix_length_le hs h hle
    · exact hs.trans h
  · intro hs
    obtain h | h := hsame
    · exact hs.trans h
    · exact List.suffix_of_suffix_length_le hs h (by omega)

/-- The word of the input, masked for a literal, is the literal's where the input ends so. -/
theorem word_lastBytes (hlen : text.length ≤ 8) (hle : text.length ≤ str.length) :
    loadWord (lastBytes str) &&& (packLiteral text).mask = (packLiteral text).word ↔
      text <:+ str := by
  have hlast := length_lastBytes str
  have hword := lastWord_iff hlen hlast.ge
  rw [hlast, Nat.sub_self, List.drop_zero, suffix_lastBytes hlen hle] at hword
  exact hword

/-! ## The search -/

/-- What the literals of an arm are sorted by. -/
def Arm.key (arm : Arm) : Nat × Nat := (arm.literal.text.length, arm.literal.word)

/-- What the search compares an arm with. -/
def candidate (length word : Nat) (arm : Arm) : Nat × Nat := (length, word &&& arm.literal.mask)

theorem searchExtension_cons (length word : Nat) {first last : Nat} (h : first < last)
    (hlast : last ≤ arms.length) :
    ∃ m, first ≤ m ∧ m < last ∧ ∃ arm, arms[m]? = some arm ∧
      searchExtension arms length word first last =
        if candidate length word arm = arm.key then true
        else if pairLe (candidate length word arm) arm.key then
          searchExtension arms length word first m
        else searchExtension arms length word (m + 1) last := by
  refine ⟨first + (last - first) / 2, Nat.le_add_right _ _, by omega, ?_⟩
  have hm : first + (last - first) / 2 < arms.length := by omega
  refine ⟨arms[first + (last - first) / 2], List.getElem?_eq_getElem hm, ?_⟩
  rw [searchExtension, dif_pos h]
  dsimp only
  rw [List.getElem?_eq_getElem hm]
  rfl

/-- What the search finds is an arm that it compares equal. -/
theorem searchExtension_sound {length word first last : Nat} (hlast : last ≤ arms.length)
    (h : searchExtension arms length word first last = true) :
    ∃ arm ∈ arms, candidate length word arm = arm.key := by
  induction hn : last - first using Nat.strong_induction_on generalizing first last with
  | _ n ih =>
    subst hn
    by_cases hlt : first < last
    · obtain ⟨m, hfirst, hm, arm, harm, hstep⟩ := searchExtension_cons length word hlt hlast
      rw [hstep] at h
      split at h
      · next heq => exact ⟨arm, List.mem_of_getElem? harm, heq⟩
      split at h
      · exact ih (m - first) (by omega) (by omega) h rfl
      · exact ih (last - (m + 1)) (by omega) hlast h rfl
    · rw [searchExtension, dif_neg hlt] at h
      cases h

theorem pairLe_antisymm {a b : Nat × Nat} (h : pairLe a b = true) (h' : pairLe b a = true) :
    a = b := by
  rw [pairLe_iff] at h h'
  exact Prod.ext (by omega) (by omega)

/-- An arm whose comparisons the candidates make is found in sorted arms. -/
theorem searchExtension_complete {length word first last j : Nat} {arm : Arm}
    (hsorted : arms.Pairwise fun a b => pairLe a.key b.key = true)
    (hkey : ∀ other ∈ arms, (candidate length word other = other.key ↔ arm.key = other.key) ∧
      pairLe (candidate length word other) other.key = pairLe arm.key other.key)
    (hlast : last ≤ arms.length) (hj : arms[j]? = some arm) (hfirst : first ≤ j)
    (hjlast : j < last) : searchExtension arms length word first last = true := by
  induction hn : last - first using Nat.strong_induction_on generalizing first last with
  | _ n ih =>
    subst hn
    obtain ⟨m, hfirst', hm, other, hother, hstep⟩ :=
      searchExtension_cons length word (Nat.lt_of_le_of_lt hfirst hjlast) hlast
    obtain ⟨heq, hle⟩ := hkey other (List.mem_of_getElem? hother)
    rw [hstep]
    split
    · rfl
    · next hne =>
      rw [heq] at hne
      have hsort {k l : Nat} {a b : Arm} (ha : arms[k]? = some a) (hb : arms[l]? = some b)
          (hkl : k < l) : pairLe a.key b.key = true := by
        obtain ⟨hk, rfl⟩ := List.getElem?_eq_some_iff.mp ha
        obtain ⟨hl, rfl⟩ := List.getElem?_eq_some_iff.mp hb
        exact List.pairwise_iff_getElem.mp hsorted k l hk hl hkl
      have hm' : m ≠ j := by
        rintro rfl
        rw [hj, Option.some.injEq] at hother
        exact hne (by rw [hother])
      rw [hle]
      split
      · next hbefore =>
        refine ih (m - first) (by omega) (by omega) hfirst ?_ rfl
        by_contra hge
        have hafter := hsort hother hj (by omega)
        exact hne (pairLe_antisymm hbefore hafter)
      · next hnot =>
        refine ih (last - (m + 1)) (by omega) hlast ?_ hjlast rfl
        by_contra hlt
        exact hnot (hsort hj hother (by omega))

/-! ## The set -/

/-- A mask says how long the literal is, and no more. -/
theorem mask_packLiteral {text' : Bytes} (h : text.length = text'.length) :
    (packLiteral text).mask = (packLiteral text').mask := by
  rw [packLiteral, packLiteral, h]
  split <;> rfl

/-- For a literal that the input ends with, every comparison is made as with the literal. -/
theorem candidate_spec {arm other : Arm} {text' : Bytes} {word : Nat}
    (harm : arm.literal = packLiteral text) (hother : other.literal = packLiteral text')
    (hword : word &&& (packLiteral text).mask = (packLiteral text).word) :
    (candidate text.length word other = other.key ↔ arm.key = other.key) ∧
      pairLe (candidate text.length word other) other.key = pairLe arm.key other.key := by
  have hkey : arm.key = (text.length, (packLiteral text).word) := by
    rw [Arm.key, harm, text_packLiteral]
  have hkey' : other.key = (text'.length, (packLiteral text').word) := by
    rw [Arm.key, hother, text_packLiteral]
  by_cases hlen : text.length = text'.length
  · have hsame : candidate text.length word other = arm.key := by
      rw [candidate, hother, ← mask_packLiteral hlen, hword, hkey]
    rw [hsame]
    exact ⟨Iff.rfl, rfl⟩
  · rw [hkey, hkey', candidate]
    refine ⟨iff_of_false (fun h => hlen (congrArg Prod.fst h))
      fun h => hlen (congrArg Prod.fst h), ?_⟩
    simp [pairLe, hlen]

/-- `match_extension_set` says whether the input ends with one of the literals. -/
theorem matchExtensionSet_iff
    (hliteral : ∀ arm ∈ arms, ∃ text, arm.literal = packLiteral text ∧ isExtension text = true)
    (hsorted : arms.Pairwise fun a b => extensionLe a b = true) :
    matchExtensionSet arms str = true ↔ ∃ arm ∈ arms, arm.literal.matches str = true := by
  have hends {arm : Arm} (hm : arm ∈ arms) (hmatch : arm.literal.matches str = true) :
      ∃ text, arm.literal = packLiteral text ∧ text.length ≤ 8 ∧ text <:+ str ∧ dot ∈ str ∧
        (str.rtakeWhile (· ≠ dot)).length + 1 = text.length := by
    obtain ⟨text, htext, hext⟩ := hliteral arm hm
    obtain ⟨hlen, tail, rfl, hdot⟩ := isExtension_iff.mp hext
    rw [htext, matches_packLiteral] at hmatch
    obtain ⟨front, rfl⟩ := hmatch
    refine ⟨_, htext, hlen, List.suffix_append _ _,
      List.mem_append_right _ List.mem_cons_self, ?_⟩
    rw [rtakeWhile_dot hdot, List.length_cons]
  by_cases hdot : dot ∈ str
  swap
  · rw [matchExtensionSet, if_pos (by simp [hdot])]
    refine iff_of_false Bool.false_ne_true ?_
    rintro ⟨arm, hm, hmatch⟩
    obtain ⟨-, -, -, -, hmem, -⟩ := hends hm hmatch
    exact hdot hmem
  by_cases hlong : (str.rtakeWhile (· ≠ dot)).length + 1 > 8
  · rw [matchExtensionSet, if_pos (by rw [Bool.or_eq_true, decide_eq_true_eq]; exact .inr hlong)]
    refine iff_of_false Bool.false_ne_true ?_
    rintro ⟨arm, hm, hmatch⟩
    obtain ⟨text, -, hlen, -, -, heq⟩ := hends hm hmatch
    omega
  have hset : matchExtensionSet arms str = searchExtension arms
      ((str.rtakeWhile (· ≠ dot)).length + 1) (loadWord (lastBytes str)) 0 arms.length := by
    have hfound : ¬(!str.contains dot || (str.rtakeWhile (· ≠ dot)).length + 1 > 8) = true := by
      rw [Bool.or_eq_true, decide_eq_true_eq, not_or]
      exact ⟨by simpa using hdot, hlong⟩
    rw [matchExtensionSet, if_neg hfound, lastBytes, apply_ite loadWord]
  have hshort := length_rtakeWhile_dot hdot
  rw [hset]
  constructor
  · intro h
    obtain ⟨arm, hm, heq⟩ := searchExtension_sound (Nat.le_refl _) h
    obtain ⟨text, htext, hext⟩ := hliteral arm hm
    rw [candidate, Arm.key, htext, text_packLiteral, Prod.mk.injEq] at heq
    refine ⟨arm, hm, ?_⟩
    rw [htext, matches_packLiteral, ← word_lastBytes (isExtension_iff.mp hext).1 (by omega)]
    exact heq.2
  · rintro ⟨arm, hm, hmatch⟩
    obtain ⟨text, htext, hlen, hs, -, heq⟩ := hends hm hmatch
    obtain ⟨j, hj⟩ := List.mem_iff_getElem?.mp hm
    rw [heq]
    refine searchExtension_complete hsorted (fun other hother => ?_) (Nat.le_refl _) hj
      (Nat.zero_le j) (List.getElem?_eq_some_iff.mp hj).1
    obtain ⟨text', htext', -⟩ := hliteral other hother
    exact candidate_spec htext htext' ((word_lastBytes hlen hs.length_le).mpr hs)

end Kotatsu.Support.Glob
