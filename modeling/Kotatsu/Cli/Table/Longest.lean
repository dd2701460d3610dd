import Kotatsu.Cli.Table.Scan

/-!
# The option a scan keeps

A scan of all entries keeps the entry that takes the most of the element as its name, the
first of those when there are several. When none accepts the element, one that only
misses its values makes the scan say so.
-/

namespace Kotatsu.Cli.Table

open Kotatsu.Core

section

variable (table : OptTable) (args : Args) (index : Nat) (options : ParseOptions)

/-- An entry accepts the element, with `argSz` bytes of it as its name. -/
def Accepts (it : OptionInfo) (argSz : Nat) (tried : Accepted) : Prop :=
  tryOption table args index options it = some (argSz, tried) ∧ tried.result = .matched

/-- An entry misses the values it takes from the elements behind it. -/
def Misses (it : OptionInfo) : Prop :=
  ∃ argSz tried, tryOption table args index options it = some (argSz, tried) ∧
    tried.result ≠ .matched ∧ tried.index ≠ index

/-- An entry accepts the element with the longest name, and is the first that does. -/
structure Wins (front : List OptionInfo) (it : OptionInfo) (back : List OptionInfo) (argSz : Nat)
    (tried : Accepted) : Prop where
  accepts : Accepts table args index options it argSz tried
  before : ∀ o ∈ front, ∀ n t, Accepts table args index options o n t → n < argSz
  after : ∀ o ∈ back, ∀ n t, Accepts table args index options o n t → n ≤ argSz

end

section

variable {table : OptTable} {args : Args} {index : Nat} {options : ParseOptions}

/-- Entries with shorter names leave the scan to the entries after them. -/
theorem scanLoop_front {front rest : List OptionInfo} {s : ScanState} {size : Nat}
    (hfront : ∀ o ∈ front, ∀ n t, Accepts table args index options o n t → n < size)
    (hbest : s.bestMatchSize < size) :
    ∃ s' : ScanState, s'.bestMatchSize < size ∧
      scanLoop table args index options false s (front ++ rest) =
        scanLoop table args index options false s' rest := by
  induction front generalizing s with
  | nil => exact ⟨s, hbest, rfl⟩
  | cons o front ih =>
    have ih := fun {s : ScanState} (hbest : s.bestMatchSize < size) =>
      ih (s := s) (fun p hp => hfront p (List.mem_cons_of_mem _ hp)) hbest
    rw [List.cons_append, scanLoop]
    cases htry : tryOption table args index options o with
    | none => exact ih hbest
    | some found =>
      obtain ⟨argSz, tried⟩ := found
      simp only [Bool.false_eq_true, if_false]
      split
      · next hmatched =>
        have hlt := hfront o List.mem_cons_self argSz tried ⟨htry, hmatched⟩
        split
        · exact ih hlt
        · exact ih hbest
      · split
        · split
          · exact ih hbest
          · exact ih hbest
        · exact ih hbest

/-- What a scan has found stays when no entry after it has a longer name. -/
theorem scanLoop_back {back : List OptionInfo} {s : ScanState}
    (hback : ∀ o ∈ back, ∀ n t, Accepts table args index options o n t → n ≤ s.bestMatchSize)
    (hpos : 0 < s.bestMatchSize) :
    (scanLoop table args index options false s back).result = .matched ∧
      (scanLoop table args index options false s back).out = s.result.out ∧
      (scanLoop table args index options false s back).newIndex = s.bestIndex := by
  induction back generalizing s with
  | nil =>
    rw [scanLoop, ScanState.finish, if_pos hpos]
    exact ⟨rfl, rfl, rfl⟩
  | cons o back ih =>
    have hrest := fun p hp => hback p (List.mem_cons_of_mem _ hp)
    rw [scanLoop]
    cases htry : tryOption table args index options o with
    | none => exact ih hrest hpos
    | some found =>
      obtain ⟨argSz, tried⟩ := found
      simp only [Bool.false_eq_true, if_false]
      split
      · next hmatched =>
        have hle := hback o List.mem_cons_self argSz tried ⟨htry, hmatched⟩
        rw [if_neg (Nat.not_lt.mpr hle)]
        exact ih hrest hpos
      · split
        · split
          · exact ih hrest hpos
          · exact ih hrest hpos
        · exact ih hrest hpos

/-- A scan gives what the winning entry makes of the element. -/
theorem scanLoop_wins {front back : List OptionInfo} {it : OptionInfo} {argSz : Nat}
    {tried : Accepted} {s : ScanState}
    (h : Wins table args index options front it back argSz tried) (hbest : s.bestMatchSize = 0) :
    (scanLoop table args index options false s (front ++ it :: back)).result = .matched ∧
      (scanLoop table args index options false s (front ++ it :: back)).out = tried.out ∧
      (scanLoop table args index options false s (front ++ it :: back)).newIndex =
        tried.index := by
  have hpos : 0 < argSz := (tryOption_some h.accepts.1).1
  obtain ⟨s', hlt, heq⟩ := @scanLoop_front _ _ _ _ front (it :: back) s argSz h.before (by omega)
  rw [heq, scanLoop, h.accepts.1]
  simp only [h.accepts.2, Bool.false_eq_true, if_true, if_false, if_pos hlt]
  exact scanLoop_back h.after hpos

/-- One of the entries that accept an element wins. -/
theorem exists_wins {its : List OptionInfo}
    (h : ∃ o ∈ its, ∃ n t, Accepts table args index options o n t) :
    ∃ front it back n t, its = front ++ it :: back ∧
      Wins table args index options front it back n t := by
  induction its with
  | nil =>
    obtain ⟨o, ho, -⟩ := h
    exact absurd ho List.not_mem_nil
  | cons o its ih =>
    by_cases hits : ∃ p ∈ its, ∃ n t, Accepts table args index options p n t
    · obtain ⟨front, it, back, n, t, rfl, hwins⟩ := ih hits
      by_cases ho : ∃ m u, Accepts table args index options o m u ∧ n ≤ m
      · obtain ⟨m, u, hacc, hle⟩ := ho
        refine ⟨[], o, front ++ it :: back, m, u, rfl, hacc,
          List.forall_mem_nil _, ?_⟩
        intro p hp k v hk
        rw [List.mem_append, List.mem_cons] at hp
        obtain hp | rfl | hp := hp
        · exact (hwins.before p hp k v hk).le.trans hle
        · have heq := hk.1.symm.trans hwins.accepts.1
          simp only [Option.some.injEq, Prod.mk.injEq] at heq
          omega
        · exact (hwins.after p hp k v hk).trans hle
      · refine ⟨o :: front, it, back, n, t, rfl, hwins.accepts, ?_, hwins.after⟩
        intro p hp k v hk
        obtain rfl | hp := List.mem_cons.mp hp
        · exact Nat.lt_of_not_le fun hle => ho ⟨k, v, hk, hle⟩
        · exact hwins.before p hp k v hk
    · obtain ⟨p, hp, n, t, hacc⟩ := h
      have hp : p = o := (List.mem_cons.mp hp).resolve_right fun hp => hits ⟨p, hp, n, t, hacc⟩
      subst hp
      exact ⟨[], p, its, n, t, rfl, hacc, List.forall_mem_nil _,
        fun q hq k v hk => absurd ⟨q, hq, k, v, hk⟩ hits⟩

/-- A scan that no entry accepts finds none. -/
theorem scanLoop_none {its : List OptionInfo} {s : ScanState}
    (hnone : ∀ o ∈ its, ∀ n t, ¬ Accepts table args index options o n t)
    (hbest : s.bestMatchSize = 0) (hresult : s.result.result ≠ .matched) :
    (scanLoop table args index options false s its).result ≠ .matched := by
  induction its generalizing s with
  | nil =>
    rw [scanLoop, ScanState.finish, hbest, if_neg (lt_irrefl 0)]
    split
    · exact AcceptResult.noConfusion
    · exact hresult
  | cons o its ih =>
    have hrest := fun p hp => hnone p (List.mem_cons_of_mem _ hp)
    rw [scanLoop]
    cases htry : tryOption table args index options o with
    | none => exact ih hrest hbest hresult
    | some found =>
      obtain ⟨argSz, tried⟩ := found
      have hne : tried.result ≠ .matched := fun hm =>
        hnone o List.mem_cons_self argSz tried ⟨htry, hm⟩
      simp only [if_neg hne, Bool.false_eq_true, if_false]
      split
      · split
        · exact ih hrest hbest hresult
        · exact ih hrest hbest hresult
      · exact ih hrest hbest hresult

/-- What a scan finds is what some entry accepts. -/
theorem exists_accepts {its : List OptionInfo} {s : ScanState} (hbest : s.bestMatchSize = 0)
    (hresult : s.result.result ≠ .matched)
    (h : (scanLoop table args index options false s its).result = .matched) :
    ∃ o ∈ its, ∃ n t, Accepts table args index options o n t ∧
      (scanLoop table args index options false s its).out = t.out ∧
      (scanLoop table args index options false s its).newIndex = t.index := by
  by_cases hexists : ∃ o ∈ its, ∃ n t, Accepts table args index options o n t
  · obtain ⟨front, it, back, n, t, rfl, hwins⟩ := exists_wins hexists
    obtain ⟨-, hout, hnew⟩ := scanLoop_wins hwins hbest
    refine ⟨it, ?_, n, t, hwins.accepts, hout, hnew⟩
    exact List.mem_append_right _ List.mem_cons_self
  · refine absurd h (scanLoop_none (fun o ho n t hacc => hexists ⟨o, ho, n, t, hacc⟩) hbest hresult)

/-- A scan that no entry accepts, and one misses its values, says that they are missing. -/
theorem scanLoop_misses {its : List OptionInfo} {s : ScanState}
    (hnone : ∀ o ∈ its, ∀ n t, ¬ Accepts table args index options o n t)
    (hbest : s.bestMatchSize = 0)
    (hmiss : s.missingMatchSize ≠ 0 ∨ ∃ o ∈ its, Misses table args index options o) :
    (scanLoop table args index options false s its).result = .missingValue := by
  induction its generalizing s with
  | nil =>
    have hmiss : s.missingMatchSize ≠ 0 := by
      refine hmiss.resolve_right ?_
      rintro ⟨o, ho, -⟩
      exact absurd ho List.not_mem_nil
    rw [scanLoop, ScanState.finish, hbest, if_neg (lt_irrefl 0), if_pos hmiss]
  | cons o its ih =>
    have hrest := fun p hp => hnone p (List.mem_cons_of_mem _ hp)
    have htail : ¬ Misses table args index options o →
        s.missingMatchSize ≠ 0 ∨ ∃ p ∈ its, Misses table args index options p := by
      intro ho
      refine hmiss.imp_right ?_
      rintro ⟨p, hp, hm⟩
      refine ⟨p, (List.mem_cons.mp hp).resolve_left ?_, hm⟩
      rintro rfl
      exact ho hm
    rw [scanLoop]
    cases htry : tryOption table args index options o with
    | none =>
      refine ih hrest hbest (htail ?_)
      rintro ⟨n, t, ht, -⟩
      rw [htry] at ht
      cases ht
    | some found =>
      obtain ⟨argSz, tried⟩ := found
      have hne : tried.result ≠ .matched := fun hm =>
        hnone o List.mem_cons_self argSz tried ⟨htry, hm⟩
      have hpos := (tryOption_some htry).1
      simp only [if_neg hne, Bool.false_eq_true, if_false]
      split
      · split
        · exact ih hrest hbest (.inl hpos.ne')
        · refine ih hrest hbest (.inl ?_)
          show s.missingMatchSize ≠ 0
          omega
      · next hstay =>
        refine ih hrest hbest (htail ?_)
        rintro ⟨n, t, ht, -, hmoved⟩
        rw [htry] at ht
        simp only [Option.some.injEq, Prod.mk.injEq] at ht
        obtain ⟨-, rfl⟩ := ht
        exact hstay hmoved

end

end Kotatsu.Cli.Table
