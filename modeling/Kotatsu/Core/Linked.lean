import Mathlib.Data.List.Nodup

/-!
# Intrusive doubly linked lists

The nodes of such a list carry its links themselves: each names its two
neighbours, and the owner names the two ends. `Spells` says which list the links
are; linking at the tail and unlinking a node change the list as they should,
whatever else the nodes are for.
-/

namespace Kotatsu.Core

/-- The two ends of a list and the links its nodes carry. -/
structure Links (ι : Type) where
  head : Option ι := none
  tail : Option ι := none
  prev : ι → Option ι := fun _ => none
  next : ι → Option ι := fun _ => none

namespace Links

variable {ι : Type} [DecidableEq ι]

/-- `(p ? p->next : head) = v`. -/
def setNext (L : Links ι) (p v : Option ι) : Links ι :=
  match p with
  | some p => { L with next := Function.update L.next p v }
  | none => { L with head := v }

/-- `(n ? n->prev : tail) = v`. -/
def setPrev (L : Links ι) (n v : Option ι) : Links ι :=
  match n with
  | some n => { L with prev := Function.update L.prev n v }
  | none => { L with tail := v }

/-- Puts a node at the tail. -/
def link (L : Links ι) (x : ι) : Links ι :=
  let L₁ := { L with
    prev := Function.update L.prev x L.tail, next := Function.update L.next x none }
  { L₁.setNext L₁.tail (some x) with tail := some x }

/-- Takes a node off. -/
def unlink (L : Links ι) (x : ι) : Links ι :=
  let L₁ := L.setNext (L.prev x) (L.next x)
  let L₂ := L₁.setPrev (L₁.next x) (L₁.prev x)
  { L₂ with prev := Function.update L₂.prev x none, next := Function.update L₂.next x none }

/-- The links are those of a list: its ends, and the neighbours of each of its nodes. -/
structure Spells (L : Links ι) (l : List ι) : Prop where
  nodup : l.Nodup
  head : L.head = l.head?
  tail : L.tail = l.getLast?
  links : ∀ front x back, l = front ++ x :: back →
    L.prev x = front.getLast? ∧ L.next x = back.head?

omit [DecidableEq ι] in
theorem spells_nil : ({} : Links ι).Spells [] where
  nodup := List.nodup_nil
  head := rfl
  tail := rfl
  links front x back h := by simp at h

@[simp] theorem setNext_prev (L : Links ι) (p v : Option ι) : (L.setNext p v).prev = L.prev := by
  cases p <;> rfl

@[simp] theorem setNext_tail (L : Links ι) (p v : Option ι) : (L.setNext p v).tail = L.tail := by
  cases p <;> rfl

theorem setNext_next (L : Links ι) (p v : Option ι) (y : ι) :
    (L.setNext p v).next y = if p = some y then v else L.next y := by
  cases p with
  | none => rfl
  | some p =>
    simp only [setNext, Function.update_apply, Option.some.injEq]
    by_cases h : y = p
    · rw [if_pos h, if_pos h.symm]
    · rw [if_neg h, if_neg (Ne.symm h)]

theorem setNext_head (L : Links ι) (p v : Option ι) :
    (L.setNext p v).head = if p = none then v else L.head := by
  cases p <;> rfl

@[simp] theorem setPrev_next (L : Links ι) (n v : Option ι) : (L.setPrev n v).next = L.next := by
  cases n <;> rfl

@[simp] theorem setPrev_head (L : Links ι) (n v : Option ι) : (L.setPrev n v).head = L.head := by
  cases n <;> rfl

theorem setPrev_prev (L : Links ι) (n v : Option ι) (y : ι) :
    (L.setPrev n v).prev y = if n = some y then v else L.prev y := by
  cases n with
  | none => rfl
  | some n =>
    simp only [setPrev, Function.update_apply, Option.some.injEq]
    by_cases h : y = n
    · rw [if_pos h, if_pos h.symm]
    · rw [if_neg h, if_neg (Ne.symm h)]

theorem setPrev_tail (L : Links ι) (n v : Option ι) :
    (L.setPrev n v).tail = if n = none then v else L.tail := by
  cases n <;> rfl

/-! ## Linking -/

theorem link_next (L : Links ι) (x y : ι) :
    (L.link x).next y = if L.tail = some y then some x else if y = x then none else L.next y := by
  simp only [link, setNext_next, Function.update_apply]

theorem link_prev (L : Links ι) (x y : ι) :
    (L.link x).prev y = if y = x then L.tail else L.prev y := by
  simp only [link, setNext_prev, Function.update_apply]

variable {L : Links ι} {l : List ι} {x : ι}

theorem Spells.link (h : L.Spells l) (hx : x ∉ l) : (L.link x).Spells (l ++ [x]) where
  nodup := List.nodup_append_comm.mp (List.nodup_cons.mpr ⟨hx, h.nodup⟩)
  head := by
    simp only [Links.link, setNext_head, h.tail, h.head, List.getLast?_eq_none_iff,
      List.head?_append, List.head?_cons]
    by_cases hl : l = []
    · simp [hl]
    · simp [hl, List.head?_eq_some_head hl]
  tail := by simp [Links.link]
  links front y back heq := by
    rcases List.eq_nil_or_concat' back with rfl | ⟨back', z, rfl⟩
    · obtain ⟨rfl, hxy⟩ := List.append_inj' heq rfl
      obtain rfl : x = y := List.head_eq_of_cons_eq hxy
      have htail : ¬L.tail = some x := by
        rw [h.tail]
        exact fun hlast => hx (List.mem_of_getLast? hlast)
      rw [link_prev, link_next, if_pos rfl, if_neg htail, if_pos rfl, h.tail]
      exact ⟨rfl, rfl⟩
    · rw [← List.cons_append, ← List.append_assoc] at heq
      obtain ⟨hl, hxz⟩ := List.append_inj' heq rfl
      obtain rfl : x = z := List.head_eq_of_cons_eq hxz
      have hyx : y ≠ x := by
        rintro rfl
        exact hx (hl ▸ by simp)
      obtain ⟨hprev, hnext⟩ := h.links front y back' hl
      refine ⟨by rw [link_prev, if_neg hyx, hprev], ?_⟩
      rw [link_next, h.tail, if_neg hyx, hnext]
      rcases List.eq_nil_or_concat' back' with rfl | ⟨back'', w, rfl⟩
      · rw [hl]
        simp
      · have hne : ¬l.getLast? = some y := by
          have hnodup := h.nodup
          rw [hl] at hnodup ⊢
          rw [← List.cons_append, ← List.append_assoc, List.getLast?_concat]
          rintro hwy
          cases hwy
          simp [List.nodup_append] at hnodup
        rw [if_neg hne]
        cases back'' <;> simp
/-! ## Unlinking -/

theorem unlink_next (L : Links ι) (x y : ι) :
    (L.unlink x).next y =
      if y = x then none else if L.prev x = some y then L.next x else L.next y := by
  simp only [unlink, setPrev_next, Function.update_apply, setNext_next]

theorem unlink_prev (L : Links ι) (hx : L.prev x ≠ some x) (y : ι) :
    (L.unlink x).prev y =
      if y = x then none else if L.next x = some y then L.prev x else L.prev y := by
  simp only [unlink, setPrev_prev, Function.update_apply, setNext_next, setNext_prev, if_neg hx]

theorem Spells.unlink {front back : List ι} (h : L.Spells (front ++ x :: back)) :
    (L.unlink x).Spells (front ++ back) := by
  obtain ⟨hprev, hnext⟩ := h.links front x back rfl
  have hnodup := h.nodup
  rw [List.nodup_append, List.nodup_cons] at hnodup
  obtain ⟨hfront, ⟨hxback, hback⟩, hdisj⟩ := hnodup
  have hxfront : x ∉ front := fun hm => hdisj x hm x (by simp) rfl
  have hself : L.prev x ≠ some x := by
    rw [hprev]
    exact fun hlast => hxfront (List.mem_of_getLast? hlast)
  have hsub : ∀ y, y ∈ front ++ back → y ≠ x := by
    rintro y hy rfl
    exact (List.mem_append.mp hy).elim hxfront hxback
  refine ⟨?_, ?_, ?_, ?_⟩
  · exact List.nodup_append.mpr
      ⟨hfront, hback, fun a ha b hb => hdisj a ha b (List.mem_cons_of_mem _ hb)⟩
  · simp only [Links.unlink, setPrev_head, setNext_head, hprev, hnext, h.head]
    cases front <;> simp
  · simp only [Links.unlink, setPrev_tail, setNext_next, setNext_prev, setNext_tail, hprev,
      hnext, h.tail]
    cases back <;> simp
  · intro f y b heq
    have hyx : y ≠ x := hsub y (heq ▸ by simp)
    rw [unlink_prev L hself, unlink_next, if_neg hyx, if_neg hyx, hprev, hnext]
    rcases List.append_eq_append_iff.mp heq with ⟨mid, rfl, rfl⟩ | ⟨mid, rfl, hb⟩
    · have hyfront : ¬front.getLast? = some y := fun hlast =>
        hdisj y (List.mem_of_getLast? hlast) y (by simp) rfl
      obtain ⟨hp, hn⟩ := h.links (front ++ x :: mid) y b (by simp)
      rw [if_neg hyfront, hp, hn]
      refine ⟨?_, rfl⟩
      cases mid with
      | nil => simp
      | cons m ms =>
        have hmy : m ≠ y := by
          rintro rfl
          simp [List.nodup_cons] at hback
        simp [hmy]
    · cases mid with
      | nil =>
        subst hb
        obtain ⟨-, hn⟩ := h.links (f ++ [] ++ [x]) y b (by simp)
        have hyfront : ¬(f ++ []).getLast? = some y := fun hlast =>
          hdisj y (List.mem_of_getLast? hlast) y (by simp) rfl
        rw [if_neg hyfront, hn]
        simp
      | cons m mid =>
        obtain ⟨rfl, rfl⟩ := List.cons.inj hb
        have hyback : ¬back.head? = some y := fun hhead =>
          hdisj y (by simp) y (List.mem_cons_of_mem _ (List.mem_of_head? hhead)) rfl
        obtain ⟨hp, hn⟩ := h.links f y (mid ++ x :: back) (by simp)
        rw [if_neg hyback, hp, hn]
        refine ⟨rfl, ?_⟩
        rcases List.eq_nil_or_concat' mid with rfl | ⟨ms, m, rfl⟩
        · simp
        · have hmy : m ≠ y := by
            rintro rfl
            simp [List.nodup_append] at hfront
          rw [← List.cons_append, ← List.append_assoc, List.getLast?_concat,
            if_neg (by simpa using hmy)]
          cases ms <;> simp

theorem Spells.unlink_erase (h : L.Spells l) (hx : x ∈ l) : (L.unlink x).Spells (l.erase x) := by
  obtain ⟨front, back, rfl⟩ := List.append_of_mem hx
  have hnotin : x ∉ front := fun hm =>
    (List.nodup_append.mp h.nodup).2.2 x hm x (by simp) rfl
  rw [List.erase_append_right _ hnotin, List.erase_cons_head]
  exact h.unlink

/-- A node that is not on the list may use its links for something else. -/
theorem Spells.setNext_of_notMem (h : L.Spells l) (hx : x ∉ l) (v : Option ι) :
    (L.setNext (some x) v).Spells l where
  nodup := h.nodup
  head := h.head
  tail := h.tail
  links front y back heq := by
    have hyx : x ≠ y := by
      rintro rfl
      exact hx (heq ▸ by simp)
    rw [setNext_prev, setNext_next, if_neg (by simpa using hyx)]
    exact h.links front y back heq

end Links

end Kotatsu.Core
