import Mathlib.Data.List.Induction

/-!
# Entries in order, the last of a key first

A list of keys and values in which a key may stand more than once. The last entry of a
key is the one that counts: it is the one that is found, and the one that an assignment
changes. No operation changes the order of the entries of the other keys.
-/

namespace Kotatsu.Core

variable {K V : Type} [DecidableEq K]

/-- The position of the last entry with a key. -/
def lastEntry (entries : List (K × V)) (key : K) : Option Nat :=
  match entries with
  | [] => none
  | (k, _) :: rest =>
    match lastEntry rest key with
    | some i => some (i + 1)
    | none => if k = key then some 0 else none

/-- The value of the last entry with a key. -/
def lastValue (entries : List (K × V)) (key : K) : Option V :=
  (entries.filter (·.1 = key)).getLast?.map Prod.snd

/-- The value of the last entry with a key is replaced, or an entry is added behind all. -/
def assignLast (entries : List (K × V)) (key : K) (value : V) : List (K × V) :=
  match lastEntry entries key with
  | some i => entries.set i (key, value)
  | none => entries ++ [(key, value)]

/-- The entries of the other keys. -/
def without (entries : List (K × V)) (key : K) : List (K × V) :=
  entries.filter (·.1 ≠ key)

theorem lastEntry_cons (k : K) (v : V) (rest : List (K × V)) (key : K) :
    lastEntry ((k, v) :: rest) key =
      match lastEntry rest key with
      | some i => some (i + 1)
      | none => if k = key then some 0 else none := rfl

variable {entries : List (K × V)} {key : K} {i : Nat}

theorem lastEntry_eq_none : lastEntry entries key = none ↔ ∀ e ∈ entries, e.1 ≠ key := by
  induction entries with
  | nil => exact iff_of_true rfl (List.forall_mem_nil _)
  | cons e rest ih =>
    obtain ⟨k, v⟩ := e
    rw [lastEntry_cons, List.forall_mem_cons, ← ih]
    cases lastEntry rest key with
    | some i => simp
    | none =>
      by_cases hk : k = key
      · simp [hk]
      · simp [hk]

/-- The position is that of an entry with the key, and every later entry has another. -/
theorem lastEntry_eq_some :
    lastEntry entries key = some i ↔
      (∃ v, entries[i]? = some (key, v)) ∧ ∀ j e, i < j → entries[j]? = some e → e.1 ≠ key := by
  induction entries generalizing i with
  | nil => simp [lastEntry]
  | cons e rest ih =>
    obtain ⟨k, v⟩ := e
    rw [lastEntry_cons]
    cases hrest : lastEntry rest key with
    | some n =>
      obtain ⟨⟨w, hw⟩, hlater⟩ := ih.mp hrest
      refine ⟨fun h => ?_, fun ⟨⟨w', hw'⟩, hlater'⟩ => ?_⟩
      · cases h
        refine ⟨⟨w, hw⟩, fun j e hj he => ?_⟩
        obtain ⟨j, rfl⟩ : ∃ m, j = m + 1 := ⟨j - 1, by omega⟩
        exact hlater j e (by omega) he
      · -- the entry behind the head is an entry with the key, so `i` is not before it
        have hi : n + 1 ≤ i := by
          by_contra hlt
          exact hlater' (n + 1) (key, w) (by omega) hw rfl
        obtain ⟨i, rfl⟩ : ∃ m, i = m + 1 := ⟨i - 1, by omega⟩
        have hn : ¬ n < i := fun hlt => hlater i (key, w') hlt hw' rfl
        exact congrArg some (by omega)
    | none =>
      have hno := lastEntry_eq_none.mp hrest
      have hbehind : ∀ j e, 0 < j → ((k, v) :: rest)[j]? = some e → e.1 ≠ key := by
        intro j e hj he
        obtain ⟨j, rfl⟩ : ∃ m, j = m + 1 := ⟨j - 1, by omega⟩
        exact hno e (List.mem_of_getElem? he)
      by_cases hk : k = key
      · subst hk
        rw [if_pos rfl]
        refine ⟨fun h => ?_, fun ⟨⟨w', hw'⟩, _⟩ => ?_⟩
        · cases h
          exact ⟨⟨v, rfl⟩, hbehind⟩
        · cases i with
          | zero => rfl
          | succ i => exact absurd rfl (hbehind (i + 1) (k, w') (Nat.succ_pos i) hw')
      · rw [if_neg hk]
        refine ⟨fun h => absurd h (by simp), fun ⟨⟨w', hw'⟩, _⟩ => ?_⟩
        cases i with
        | zero => exact absurd (congrArg Prod.fst (Option.some.inj hw')) hk
        | succ i => exact absurd rfl (hbehind (i + 1) (key, w') (Nat.succ_pos i) hw')

theorem getElem?_of_lastEntry (h : lastEntry entries key = some i) :
    ∃ v, entries[i]? = some (key, v) :=
  (lastEntry_eq_some.mp h).1

theorem lastEntry_append_singleton (entries : List (K × V)) (k : K) (v : V) (key : K) :
    lastEntry (entries ++ [(k, v)]) key =
      if k = key then some entries.length else lastEntry entries key := by
  induction entries with
  | nil => rfl
  | cons e rest ih =>
    obtain ⟨k', w⟩ := e
    rw [List.cons_append, lastEntry_cons, ih, List.length_cons, lastEntry_cons]
    by_cases hk : k = key
    · simp only [if_pos hk]
    · simp only [if_neg hk]

end Kotatsu.Core
