import Mathlib.Data.List.Basic

/-!
# Incremental readers

An incremental reader takes elements from the front of each piece it is handed
and may report one result a call. The driver hands it a piece, drops what it
took and goes on with the rest, until a result ends the stream. A reader that
obeys `Incremental` behaves as if it had been handed the elements one at a
time, so driving it over the pieces of a stream depends on the stream alone.
-/

namespace Kotatsu.Core

universe u v w

/-- What one call of a reader did: how much it took, what it reported, and the reader after. -/
structure Feed (σ : Type u) (ρ : Type v) where
  /-- How many elements of the piece were taken. -/
  consumed : Nat
  /-- The result the call finished, if it finished one. -/
  frame : Option ρ
  /-- The reader after the call. -/
  next : σ

/-- What driving a reader gave: each result with the number of elements taken by
then, the number taken in all, the reader at the end, and whether a result ended it. -/
structure Trace (σ : Type u) (ρ : Type v) where
  /-- The results in order, each with the elements taken when it was reported. -/
  results : List (Nat × ρ)
  /-- The elements taken in all. -/
  consumed : Nat
  /-- The reader at the end. -/
  state : σ
  /-- A result ended the stream before its elements did. -/
  stopped : Bool

variable {σ : Type u} {ρ : Type v} {α : Type w}

/-- The call that took one more element before this one. -/
def Feed.after (f : Feed σ ρ) : Feed σ ρ := ⟨f.consumed + 1, f.frame, f.next⟩

/-- The trace with an earlier result in front. -/
def Trace.report (at' : Nat) (r : ρ) (t : Trace σ ρ) : Trace σ ρ :=
  { t with results := (at', r) :: t.results }

/-- One piece handed to the reader until nothing of it is left. There is no trace
when a call fails or takes nothing of a piece without ending the stream. -/
def drivePiece (feed : σ → List α → Option (Feed σ ρ)) (final : ρ → Bool) (s : σ)
    (total : Nat) (rest : List α) : Option (Trace σ ρ) :=
  if rest = [] then some ⟨[], total, s, false⟩
  else
    match feed s rest with
    | none => none
    | some ⟨n, none, t⟩ =>
      if _h : 0 < n ∧ rest ≠ [] then drivePiece feed final t (total + n) (rest.drop n) else none
    | some ⟨n, some r, t⟩ =>
      if final r then some ⟨[(total + n, r)], total + n, t, true⟩
      else if _h : 0 < n ∧ rest ≠ [] then
        (drivePiece feed final t (total + n) (rest.drop n)).map (Trace.report (total + n) r)
      else none
termination_by rest.length
decreasing_by
  all_goals
    have := List.length_pos_iff.mpr _h.2
    simp only [List.length_drop]
    omega

/-- The pieces of a stream driven in order, until a result ends it. -/
def drive (feed : σ → List α → Option (Feed σ ρ)) (final : ρ → Bool) (s : σ)
    (total : Nat) : List (List α) → Option (Trace σ ρ)
  | [] => some ⟨[], total, s, false⟩
  | piece :: pieces =>
    match drivePiece feed final s total piece with
    | none => none
    | some t =>
      if t.stopped then some t
      else (drive feed final t.state t.consumed pieces).map fun u =>
        { u with results := t.results ++ u.results }

/-- The laws of a reader that carries everything it needs from one element to the
next: with a result it leaves the rest of the piece alone, and without one it
reads the rest as the reader it has become would. -/
structure Incremental (feed : σ → List α → Option (Feed σ ρ)) (final : ρ → Bool)
    (Inv : σ → Prop) : Prop where
  /-- Nothing happens on an empty piece. -/
  nil : ∀ s, Inv s → feed s [] = some ⟨0, none, s⟩
  /-- A single element is taken, and decides the call if it completes a result. -/
  cons : ∀ s x, Inv s → ∃ f, feed s [x] = some f ∧ f.consumed = 1 ∧
    (f.frame = none → Inv f.next ∧ ∀ xs, feed s (x :: xs) = (feed f.next xs).map Feed.after) ∧
    ∀ r, f.frame = some r →
      (final r = false → Inv f.next) ∧ ∀ xs, feed s (x :: xs) = some f

/-- The stream read one element at a time. -/
def scan (feed : σ → List α → Option (Feed σ ρ)) (final : ρ → Bool) :
    σ → Nat → List α → Option (Trace σ ρ)
  | s, total, [] => some ⟨[], total, s, false⟩
  | s, total, x :: xs =>
    match feed s [x] with
    | none => none
    | some ⟨_, none, t⟩ => scan feed final t (total + 1) xs
    | some ⟨_, some r, t⟩ =>
      if final r then some ⟨[(total + 1, r)], total + 1, t, true⟩
      else (scan feed final t (total + 1) xs).map (Trace.report (total + 1) r)

section Laws

variable {feed : σ → List α → Option (Feed σ ρ)} {final : ρ → Bool} {Inv : σ → Prop}

/-- A call on a piece takes at least one element and no more than the piece
holds, and agrees with the scan up to the point where it stops. -/
theorem Incremental.feed_spec (h : Incremental feed final Inv) {s : σ} (hs : Inv s) {xs : List α}
    (hx : xs ≠ []) : ∃ f, feed s xs = some f ∧ 0 < f.consumed ∧ f.consumed ≤ xs.length ∧
      (f.frame = none → f.consumed = xs.length ∧ Inv f.next ∧
        ∀ total, scan feed final s total xs = some ⟨[], total + f.consumed, f.next, false⟩) ∧
      ∀ r, f.frame = some r → (final r = false → Inv f.next) ∧
        ∀ total, scan feed final s total xs =
          if final r then some ⟨[(total + f.consumed, r)], total + f.consumed, f.next, true⟩
          else (scan feed final f.next (total + f.consumed) (xs.drop f.consumed)).map
            (Trace.report (total + f.consumed) r) := by
  induction xs generalizing s with
  | nil => exact absurd rfl hx
  | cons x xs ih =>
    obtain ⟨f, hf, hone, hnone, hsome⟩ := h.cons s x hs
    obtain ⟨n, frame, t⟩ := f
    dsimp only at hone
    subst hone
    cases frame with
    | some r =>
      obtain ⟨hinv, hrest⟩ := hsome r rfl
      refine ⟨⟨1, some r, t⟩, hrest xs, Nat.one_pos, by simp, ?_, ?_⟩
      · intro hc
        cases hc
      · rintro r' hr'
        cases hr'
        refine ⟨hinv, fun total => ?_⟩
        simp only [scan, hf, List.drop_succ_cons, List.drop_zero]
    | none =>
      obtain ⟨hinv, hrest⟩ := hnone rfl
      by_cases he : xs = []
      · subst he
        refine ⟨⟨1, none, t⟩, hf, Nat.one_pos, by simp, fun _ => ⟨rfl, hinv, ?_⟩, ?_⟩
        · intro total
          simp only [scan, hf]
        · rintro r' hr'
          cases hr'
      · obtain ⟨g, hg, hpos, hle, hgn, hgs⟩ := ih hinv he
        refine ⟨g.after, by rw [hrest, hg]; rfl, Nat.succ_pos _, ?_, ?_, ?_⟩
        · simpa only [Feed.after, List.length_cons, Nat.add_le_add_iff_right] using hle
        · intro hr
          obtain ⟨hlen, hgi, hscan⟩ := hgn hr
          refine ⟨by simp only [Feed.after, hlen, List.length_cons], hgi, fun total => ?_⟩
          simp only [scan, hf, hscan, Feed.after, Nat.add_assoc, Nat.add_comm 1]
        · intro r hr
          obtain ⟨hgi, hscan⟩ := hgs r hr
          refine ⟨hgi, fun total => ?_⟩
          simp only [scan, hf, hscan, Feed.after, Nat.add_assoc, Nat.add_comm 1,
            List.drop_succ_cons]

/-- Driving one piece reads it as the scan does. -/
theorem Incremental.drivePiece_eq_scan (h : Incremental feed final Inv) (n : Nat) :
    ∀ {s : σ}, Inv s → ∀ (total : Nat) {xs : List α}, xs.length ≤ n →
      drivePiece feed final s total xs = scan feed final s total xs := by
  induction n with
  | zero =>
    intro s _ total xs hn
    have he : xs = [] := List.length_eq_zero_iff.mp (by omega)
    subst he
    rw [drivePiece]
    simp only [ite_true, scan]
  | succ n ih =>
    intro s hs total xs hn
    by_cases he : xs = []
    · subst he
      rw [drivePiece]
      simp only [ite_true, scan]
    · obtain ⟨⟨k, frame, t⟩, hf, hpos, hle, hnone, hsome⟩ := h.feed_spec hs he
      rw [drivePiece]
      simp only [he, ite_false, hf]
      dsimp only at hpos hle
      have hdrop : (xs.drop k).length ≤ n := by
        simp only [List.length_drop]
        omega
      cases frame with
      | none =>
        obtain ⟨hlen, hinv, hscan⟩ := hnone rfl
        dsimp only at hlen hinv hscan
        have hk : xs.drop k = [] := List.drop_eq_nil_of_le (by omega)
        simp only [hpos, ne_eq, he, not_false_eq_true, and_self, dite_true]
        rw [ih hinv _ hdrop, hscan, hk]
        simp only [scan]
      | some r =>
        obtain ⟨hinv, hscan⟩ := hsome r rfl
        dsimp only at hinv hscan
        rw [hscan]
        cases hr : final r with
        | true => simp only [hr, ite_true]
        | false =>
          simp only [hr, Bool.false_eq_true, ite_false, hpos, ne_eq, he, not_false_eq_true,
            and_self, dite_true]
          rw [ih (hinv hr) _ hdrop]

/-- Every stream has a scan, in which no element is lost or read twice, and which
leaves a reader that can go on unless a result ended it. -/
theorem Incremental.scan_spec (h : Incremental feed final Inv) (xs : List α) :
    ∀ {s : σ}, Inv s → ∀ total : Nat, ∃ t, scan feed final s total xs = some t ∧
      (t.stopped = false → Inv t.state ∧ t.consumed = total + xs.length) := by
  induction xs with
  | nil =>
    intro s hs total
    exact ⟨_, rfl, fun _ => ⟨hs, rfl⟩⟩
  | cons x xs ih =>
    intro s hs total
    obtain ⟨⟨k, frame, t⟩, hf, hone, hnone, hsome⟩ := h.cons s x hs
    cases frame with
    | none =>
      obtain ⟨u, hu, hspec⟩ := ih (hnone rfl).1 (total + 1)
      refine ⟨u, by simp only [scan, hf, hu], fun hstop => ?_⟩
      obtain ⟨hinv, hc⟩ := hspec hstop
      exact ⟨hinv, by simp only [hc, List.length_cons]; omega⟩
    | some r =>
      cases hr : final r with
      | true => exact ⟨⟨[(total + 1, r)], total + 1, t, true⟩, by simp only [scan, hf, hr, ite_true],
          fun hstop => by cases hstop⟩
      | false =>
        obtain ⟨u, hu, hspec⟩ := ih ((hsome r rfl).1 hr) (total + 1)
        refine ⟨u.report (total + 1) r, by
          simp only [scan, hf, hr, hu, Bool.false_eq_true, ite_false, Option.map_some], ?_⟩
        intro hstop
        obtain ⟨hinv, hc⟩ := hspec hstop
        exact ⟨hinv, by simp only [Trace.report, hc, List.length_cons]; omega⟩

/-- A scan of two streams in a row is the scan of the first and, unless that ended
the stream, the scan of the second from there. -/
theorem scan_append (xs ys : List α) (s : σ) (total : Nat) :
    scan feed final s total (xs ++ ys) =
      match scan feed final s total xs with
      | none => none
      | some t =>
        if t.stopped then some t
        else (scan feed final t.state t.consumed ys).map fun u =>
          { u with results := t.results ++ u.results } := by
  induction xs generalizing s total with
  | nil =>
    simp only [List.nil_append, scan, Bool.false_eq_true, ite_false]
    cases scan feed final s total ys <;> rfl
  | cons x xs ih =>
    simp only [List.cons_append, scan]
    rcases feed s [x] with _ | ⟨k, _ | r, t⟩
    · rfl
    · exact ih t (total + 1)
    · dsimp only
      cases hr : final r with
      | true => simp only [ite_true]
      | false =>
        simp only [Bool.false_eq_true, ite_false, ih]
        rcases scan feed final t (total + 1) xs with _ | u
        · rfl
        · simp only [Option.map_some, Trace.report]
          cases hu : u.stopped with
          | true => simp only [ite_true, Option.map_some, Trace.report, hu]
          | false =>
            simp only [Bool.false_eq_true, ite_false, Option.map_map]
            cases scan feed final u.state u.consumed ys <;> rfl

/-- Driving the pieces of a stream is the scan of the stream, wherever it was cut. -/
theorem Incremental.drive_eq_scan (h : Incremental feed final Inv) (pieces : List (List α)) :
    ∀ {s : σ}, Inv s → ∀ total : Nat,
      drive feed final s total pieces = scan feed final s total pieces.flatten := by
  induction pieces with
  | nil =>
    intro s _ total
    rfl
  | cons piece pieces ih =>
    intro s hs total
    rw [List.flatten_cons, scan_append, drive,
      h.drivePiece_eq_scan piece.length hs total (Nat.le_refl _)]
    obtain ⟨t, ht, hspec⟩ := h.scan_spec piece hs total
    simp only [ht]
    cases hstop : t.stopped with
    | true => rfl
    | false =>
      simp only [Bool.false_eq_true, ite_false]
      rw [ih (hspec hstop).1]

end Laws

end Kotatsu.Core
