import Kotatsu.Support.Glob.Pattern

/-!
# The pieces of an arm

An arm is put together from pieces of the pattern, in their order there. The cuts never
fall inside a bracket expression or between a backslash and the byte it escapes: `Whole` is
a text that is read to its end so, and only the last piece of an arm need not be one. So
what `compile_arm` takes as one unit comes from one piece, and an offset into the arm is
mapped to a byte of the pattern that is the same, later offsets to later bytes.
-/

namespace Kotatsu.Support.Glob

open Kotatsu.Core

/-! ## Bracket expressions -/

/-- No backslash is left without the byte it escapes. -/
inductive Paired : Bytes → Prop where
  | nil : Paired []
  | byte {b : UInt8} {rest : Bytes} (hb : b ≠ backslash) (h : Paired rest) : Paired (b :: rest)
  | escape {c : UInt8} {rest : Bytes} (h : Paired rest) : Paired (backslash :: c :: rest)

/-- The `]` after a body is the one that closes it, whatever follows. -/
def Closes (body : Bytes) : Prop :=
  ∀ (i : Nat) (more : Bytes),
    scanBracket i (body ++ closeBracket :: more) = .ok (i + 1 + body.length)

theorem scanClose_close (opened j : Nat) (rest : Bytes) :
    scanClose opened j (closeBracket :: rest) = .ok j := by
  cases rest with
  | nil => rfl
  | cons c rest => rw [scanClose, if_pos rfl]

theorem scanClose_escape (opened j : Nat) (c : UInt8) (rest : Bytes) :
    scanClose opened j (backslash :: c :: rest) = scanClose opened (j + 2) rest := by
  rw [scanClose, if_neg (by decide), if_pos rfl]

variable {b : UInt8} {x rest : Bytes} {i close k j : Nat}

theorem scanClose_byte (hclose : b ≠ closeBracket) (hback : b ≠ backslash) (opened j : Nat)
    (rest : Bytes) : scanClose opened j (b :: rest) = scanClose opened (j + 1) rest := by
  cases rest with
  | nil => simp only [scanClose, hclose, hback, if_false]
  | cons c rest => rw [scanClose, if_neg hclose, if_neg hback]

/-- A bracket expression that closes: what comes before its `]`, whatever comes after. -/
theorem scanClose_ok {opened j close : Nat} (h : scanClose opened j x = .ok close) :
    ∃ body more, x = body ++ closeBracket :: more ∧ close = j + body.length ∧ Paired body ∧
      ∀ opened' j' more', scanClose opened' j' (body ++ closeBracket :: more') =
        .ok (j' + body.length) := by
  fun_induction scanClose opened j x with
  | case1 => cases h
  | case2 j rest =>
    cases h
    exact ⟨[], rest, rfl, rfl, .nil, fun opened' j' more' => scanClose_close opened' j' more'⟩
  | case3 => cases h
  | case4 j c rest _ ih =>
    obtain ⟨body, more, rfl, rfl, hpaired, hall⟩ := ih h
    refine ⟨backslash :: c :: body, more, rfl, by simp only [List.length_cons]; omega,
      .escape hpaired, fun opened' j' more' => ?_⟩
    rw [List.cons_append, List.cons_append, scanClose_escape, hall, List.length_cons,
      List.length_cons]
    congr 1
    omega
  | case5 j b rest hclose hback ih =>
    obtain ⟨body, more, rfl, rfl, hpaired, hall⟩ := ih h
    refine ⟨b :: body, more, rfl, by simp only [List.length_cons]; omega,
      .byte hback hpaired, fun opened' j' more' => ?_⟩
    rw [List.cons_append, scanClose_byte hclose hback, hall, List.length_cons]
    congr 1
    omega

/-- A bracket expression that does not: the `[`, or the backslash that ends the text. -/
theorem scanClose_error {opened j : Nat} {e : GlobError} (h : scanClose opened j x = .error e) :
    (e.kind = .unmatchedBracket ∧ e.begin = opened ∧ e.stop = opened + 1) ∨
      (e.kind = .strayBackslash ∧ j ≤ e.begin ∧ e.stop = e.begin + 1 ∧
        x[e.begin - j]? = some backslash) := by
  fun_induction scanClose opened j x with
  | case1 =>
    cases h
    exact .inl ⟨rfl, rfl, rfl⟩
  | case2 => cases h
  | case3 j =>
    cases h
    exact .inr ⟨rfl, Nat.le_refl j, rfl, by simp⟩
  | case4 j c rest _ ih =>
    refine (ih h).imp_right fun ⟨hkind, hle, hstop, hbyte⟩ => ⟨hkind, by omega, hstop, ?_⟩
    rw [show e.begin - j = e.begin - (j + 2) + 2 by omega]
    exact hbyte
  | case5 j b rest _ _ ih =>
    refine (ih h).imp_right fun ⟨hkind, hle, hstop, hbyte⟩ => ⟨hkind, by omega, hstop, ?_⟩
    rw [show e.begin - j = e.begin - (j + 1) + 1 by omega]
    exact hbyte

/-- How many bytes the negation of a bracket expression takes. -/
def negationLength (body : Bytes) : Nat := if isNegation body then 1 else 0

theorem scanLead_append {body : Bytes} (h : negationLength body < body.length) (more : Bytes) :
    scanLead (body ++ more) = scanLead body := by
  obtain ⟨b, rest, rfl⟩ := List.exists_cons_of_length_pos (Nat.zero_lt_of_lt h)
  have hneg : isNegation (b :: rest ++ more) = isNegation (b :: rest) := rfl
  have hhead : ((b :: rest ++ more).drop (negationLength (b :: rest))).head? =
      ((b :: rest).drop (negationLength (b :: rest))).head? := by
    rw [List.drop_append_of_le_length h.le, List.head?_append_of_ne_nil]
    exact List.ne_nil_of_length_pos (by rw [List.length_drop]; omega)
  unfold scanLead
  dsimp only
  rw [hneg]
  unfold negationLength at hhead
  rw [hhead]

theorem isNegation_iff : isNegation (b :: rest) = true ↔ b = bang ∨ b = caret := by
  simp only [isNegation, List.head?_cons, Option.some.injEq, Bool.or_eq_true, decide_eq_true_eq]

/-- What comes before the loop is the negation and a `]`, and what closes comes after it. -/
private theorem scanLead_take (rest : Bytes) :
    (∀ b ∈ rest.take (scanLead rest), b ≠ backslash) ∧
      ∀ body more, rest = body ++ closeBracket :: more → scanLead rest ≤ body.length →
        negationLength body < body.length := by
  obtain _ | ⟨b, rest⟩ := rest
  · exact ⟨fun b hb => by simp at hb, fun body more h => by simp at h⟩
  cases hneg : isNegation (b :: rest) with
  | false =>
    have hlead : scanLead (b :: rest) = if b = closeBracket then 1 else 0 := by
      simp [scanLead, hneg]
    rw [hlead]
    refine ⟨fun c hc => ?_, fun body more heq hle => ?_⟩
    · split at hc
      · next hb =>
        rw [List.take_succ_cons, List.take_zero, List.mem_singleton] at hc
        rw [hc, hb]
        decide
      · simp at hc
    · cases body with
      | nil =>
        rw [List.nil_append, List.cons.injEq] at heq
        rw [if_pos heq.1] at hle
        exact absurd hle (by simp)
      | cons c body =>
        rw [List.cons_append, List.cons.injEq] at heq
        have hnegc : isNegation (c :: body) = false := by
          rw [← hneg, isNegation, isNegation, List.head?_cons, List.head?_cons, heq.1]
        rw [negationLength, hnegc, List.length_cons]
        exact Nat.succ_pos _
  | true =>
    have hb : b ≠ backslash := by
      rintro rfl
      exact absurd (isNegation_iff.mp hneg) (by decide)
    have hlead : scanLead (b :: rest) = 1 + if rest.head? = some closeBracket then 1 else 0 := by
      simp [scanLead, hneg]
    rw [hlead]
    refine ⟨fun c hc => ?_, fun body more heq hle => ?_⟩
    · rw [Nat.add_comm, List.take_succ_cons, List.mem_cons] at hc
      obtain rfl | hc := hc
      · exact hb
      · split at hc
        · next hhead =>
          obtain ⟨d, rest, rfl⟩ : ∃ d tail, rest = d :: tail := by
            cases rest with
            | nil => cases hhead
            | cons d tail => exact ⟨d, tail, rfl⟩
          rw [List.take_succ_cons, List.take_zero, List.mem_singleton] at hc
          rw [List.head?_cons, Option.some.injEq] at hhead
          rw [hc, hhead]
          decide
        · simp at hc
    · have hlen : negationLength body ≤ 1 := by
        unfold negationLength
        split <;> omega
      match body, heq, hle, hlen with
      | [], _, hle, _ =>
        rw [List.length_nil] at hle
        omega
      | [c], heq, hle, _ =>
        rw [List.singleton_append, List.cons.injEq] at heq
        rw [heq.2, List.head?_cons, if_pos rfl] at hle
        exact absurd hle (by simp)
      | c :: d :: body, _, _, hlen =>
        rw [List.length_cons, List.length_cons]
        omega

theorem Paired.append_of_ne {xs ys : Bytes} (hxs : ∀ b ∈ xs, b ≠ backslash) (hys : Paired ys) :
    Paired (xs ++ ys) := by
  induction xs with
  | nil => exact hys
  | cons x xs ih =>
    exact .byte (hxs x (List.mem_cons_self ..))
      (ih fun b hb => hxs b (List.mem_cons_of_mem x hb))

/-- A bracket expression that closes does so with whatever comes after it. -/
theorem scanBracket_ok (h : scanBracket i rest = .ok close) :
    ∃ body more, rest = body ++ closeBracket :: more ∧ close = i + 1 + body.length ∧
      Closes body ∧ Paired body ∧ negationLength body < body.length := by
  obtain ⟨tail, more, hdrop, rfl, hpaired, hall⟩ := scanClose_ok h
  obtain ⟨hlead, hlong⟩ := scanLead_take rest
  have hrest : rest = rest.take (scanLead rest) ++ tail ++ closeBracket :: more := by
    rw [List.append_assoc, ← hdrop, List.take_append_drop]
  have hin : scanLead rest < rest.length := by
    have hlen := congrArg List.length hdrop
    rw [List.length_drop, List.length_append, List.length_cons] at hlen
    omega
  have htake : (rest.take (scanLead rest)).length = scanLead rest := by
    rw [List.length_take]
    omega
  have hneg := hlong _ more hrest (by rw [List.length_append, htake]; omega)
  have hscan (more' : Bytes) :
      scanLead (rest.take (scanLead rest) ++ tail ++ closeBracket :: more') = scanLead rest := by
    rw [scanLead_append hneg]
    conv_rhs => rw [hrest, scanLead_append hneg]
  refine ⟨_, more, hrest, by rw [List.length_append, htake]; omega, fun i' more' => ?_,
    Paired.append_of_ne hlead hpaired, hneg⟩
  rw [scanBracket, hscan, List.append_assoc, List.drop_append_of_le_length htake.ge,
    List.drop_of_length_le htake.le, List.nil_append, hall, List.length_append, htake]
  congr 1
  omega

theorem scanBracket_error {e : GlobError} (h : scanBracket i rest = .error e) :
    (e.kind = .unmatchedBracket ∧ e.begin = i ∧ e.stop = i + 1) ∨
      (e.kind = .strayBackslash ∧ i + 1 ≤ e.begin ∧ e.stop = e.begin + 1 ∧
        rest[e.begin - (i + 1)]? = some backslash) := by
  refine (scanClose_error h).imp_right fun ⟨hkind, hle, hstop, hbyte⟩ =>
    ⟨hkind, by omega, hstop, ?_⟩
  rw [List.getElem?_drop] at hbyte
  rw [← hbyte]
  congr 1
  omega

/-! ## Texts that are read whole -/

/-- A text that ends neither inside a bracket expression nor after a backslash. -/
inductive Whole : Bytes → Prop where
  | nil : Whole []
  | byte {b : UInt8} {rest : Bytes} (hb : b ≠ openBracket) (hb' : b ≠ backslash)
    (h : Whole rest) : Whole (b :: rest)
  | escape {c : UInt8} {rest : Bytes} (h : Whole rest) : Whole (backslash :: c :: rest)
  | bracket {body rest : Bytes} (hbody : Closes body) (h : Whole rest) :
    Whole (openBracket :: (body ++ closeBracket :: rest))

theorem Whole.append {xs ys : Bytes} (hxs : Whole xs) (hys : Whole ys) : Whole (xs ++ ys) := by
  induction hxs with
  | nil => exact hys
  | byte hb hb' _ ih => exact .byte hb hb' ih
  | escape _ ih => exact .escape ih
  | bracket hbody _ ih =>
    rw [List.cons_append, List.append_assoc]
    exact .bracket hbody ih

/-! ## Pieces in their order -/

/-- Pieces that follow one another in the pattern from `lo` on; only the last need not be whole,
and a piece without text may be anywhere. -/
inductive Ordered (pattern : Bytes) : Nat → List View → Prop where
  | last {lo : Nat} {v : View} (hlo : lo ≤ v.start) (ht : v.text <+: pattern.drop v.start) :
    Ordered pattern lo [v]
  | skip {lo : Nat} {v : View} {vs : List View} (ht : v.text = [])
    (hvs : Ordered pattern lo vs) : Ordered pattern lo (v :: vs)
  | cons {lo : Nat} {v : View} {vs : List View} (hlo : lo ≤ v.start)
    (ht : v.text <+: pattern.drop v.start) (hw : Whole v.text)
    (hvs : Ordered pattern (v.start + v.text.length) vs) : Ordered pattern lo (v :: vs)

variable {pattern : Bytes} {lo : Nat} {v : View} {vs vs' : List View}

theorem Ordered.mono {lo' : Nat} (h : Ordered pattern lo vs) (hlo : lo' ≤ lo) :
    Ordered pattern lo' vs := by
  induction h with
  | last hv ht => exact .last (hlo.trans hv) ht
  | skip ht _ ih => exact .skip ht (ih hlo)
  | cons hv ht hw hvs _ => exact .cons (hlo.trans hv) ht hw hvs

@[simp] theorem piecesText_cons (v : View) (vs : List View) :
    piecesText (v :: vs) = v.text ++ piecesText vs := List.flatMap_cons

theorem origin_of_lt (h : k < v.text.length) : origin (v :: vs) k = v.start + k :=
  if_pos h

theorem origin_add (k : Nat) : origin (v :: vs) (v.text.length + k) = origin vs k := by
  rw [origin, if_neg (by omega), Nat.add_sub_cancel_left]

theorem origin_skip (h : v.text = []) (k : Nat) : origin (v :: vs) k = origin vs k := by
  have hadd : origin (v :: vs) (v.text.length + k) = origin vs k := origin_add k
  rwa [h, List.length_nil, Nat.zero_add] at hadd

/-- A byte of a piece is a byte of the pattern. -/
private theorem getElem?_of_prefix {start k : Nat} (h : x <+: pattern.drop start)
    (hk : k < x.length) : pattern[start + k]? = x[k]? := by
  obtain ⟨more, hmore⟩ := h
  rw [← List.getElem?_drop, ← hmore, List.getElem?_append_left hk]

/-- An offset into an arm is mapped to the same byte of the pattern, past where it may begin. -/
theorem Ordered.origin_get (h : Ordered pattern lo vs) (hk : k < (piecesText vs).length) :
    lo ≤ origin vs k ∧ pattern[origin vs k]? = (piecesText vs)[k]? := by
  induction h generalizing k with
  | @last lo v hlo ht =>
    have htext : piecesText [v] = v.text := by
      rw [piecesText_cons]
      exact List.append_nil _
    rw [htext] at hk ⊢
    rw [origin_of_lt hk]
    exact ⟨by omega, getElem?_of_prefix ht hk⟩
  | @skip lo v vs ht hvs ih =>
    rw [piecesText_cons, ht, List.nil_append] at hk ⊢
    rw [origin_skip ht]
    exact ih hk
  | @cons lo v vs hlo ht hw hvs ih =>
    rw [piecesText_cons] at hk ⊢
    by_cases hin : k < v.text.length
    · rw [origin_of_lt hin, List.getElem?_append_left hin]
      exact ⟨by omega, getElem?_of_prefix ht hin⟩
    · obtain ⟨k, rfl⟩ := Nat.exists_eq_add_of_le (Nat.le_of_not_lt hin)
      rw [List.length_append] at hk
      obtain ⟨hle, hget⟩ := ih (k := k) (by omega)
      rw [origin_add, List.getElem?_append_right (by omega), Nat.add_sub_cancel_left]
      exact ⟨by omega, hget⟩

/-- A later offset is mapped to a later byte. -/
theorem Ordered.origin_lt (h : Ordered pattern lo vs) (hjk : j < k)
    (hk : k < (piecesText vs).length) : origin vs j < origin vs k := by
  induction h generalizing j k with
  | @last lo v hlo ht =>
    rw [piecesText_cons, List.length_append] at hk
    have hv : k < v.text.length := by simpa [piecesText] using hk
    rw [origin_of_lt hv, origin_of_lt (by omega)]
    omega
  | @skip lo v vs ht hvs ih =>
    rw [piecesText_cons, ht, List.nil_append] at hk
    rw [origin_skip ht, origin_skip ht]
    exact ih hjk hk
  | @cons lo v vs hlo ht hw hvs ih =>
    rw [piecesText_cons, List.length_append] at hk
    by_cases hin : k < v.text.length
    · rw [origin_of_lt hin, origin_of_lt (by omega)]
      omega
    · obtain ⟨k, rfl⟩ := Nat.exists_eq_add_of_le (Nat.le_of_not_lt hin)
      have hk' : k < (piecesText vs).length := by omega
      rw [origin_add]
      by_cases hj : j < v.text.length
      · rw [origin_of_lt hj]
        have hle := (hvs.origin_get hk').1
        omega
      · obtain ⟨j, rfl⟩ := Nat.exists_eq_add_of_le (Nat.le_of_not_lt hj)
        rw [origin_add]
        exact ih (by omega) hk'

/-- The first piece that has text. -/
theorem Ordered.front (h : Ordered pattern lo vs) (hne : piecesText vs ≠ []) :
    ∃ v vs', v.text ≠ [] ∧ (∀ k, origin vs k = origin (v :: vs') k) ∧
      piecesText vs = v.text ++ piecesText vs' ∧ v.text <+: pattern.drop v.start ∧
      (vs' = [] ∨ Whole v.text ∧ Ordered pattern (v.start + v.text.length) vs') := by
  induction h with
  | @last lo v hlo ht =>
    refine ⟨v, [], fun hnil => hne ?_, fun _ => rfl, piecesText_cons v [], ht, .inl rfl⟩
    rw [piecesText_cons, hnil]
    rfl
  | @skip lo v vs ht hvs ih =>
    rw [piecesText_cons, ht, List.nil_append] at hne ⊢
    obtain ⟨u, vs', hu, horigin, htext, hfrom, hrest⟩ := ih hne
    exact ⟨u, vs', hu, fun k => (origin_skip ht k).trans (horigin k), htext, hfrom, hrest⟩
  | @cons lo v vs hlo ht hw hvs ih =>
    by_cases hnil : v.text = []
    · rw [piecesText_cons, hnil, List.nil_append] at hne ⊢
      obtain ⟨u, vs', hu, horigin, htext, hfrom, hrest⟩ := ih hne
      exact ⟨u, vs', hu, fun k => (origin_skip hnil k).trans (horigin k), htext, hfrom, hrest⟩
    · exact ⟨v, vs, hnil, fun _ => rfl, piecesText_cons v vs, ht, .inr ⟨hw, hvs⟩⟩

/-! ## Reading on in an arm -/

/-- `vs'` is what is left of an arm after its first `n` bytes. -/
structure Advance (pattern : Bytes) (vs : List View) (n : Nat) (vs' : List View) : Prop where
  le : n ≤ (piecesText vs).length
  text : piecesText vs' = (piecesText vs).drop n
  ordered : ∃ lo, Ordered pattern lo vs'
  after : ∀ k, origin vs (n + k) = origin vs' k

/-- The first `n` bytes of an arm follow one another in the pattern. -/
def Joined (vs : List View) (n : Nat) : Prop := ∀ k < n, origin vs k = origin vs 0 + k

theorem Advance.trans {n n' : Nat} {vs'' : List View} (h : Advance pattern vs n vs')
    (h' : Advance pattern vs' n' vs'') : Advance pattern vs (n + n') vs'' where
  le := by
    have hle := h'.le
    rw [h.text, List.length_drop] at hle
    have := h.le
    omega
  text := by rw [h'.text, h.text, List.drop_drop]
  ordered := h'.ordered
  after k := by rw [Nat.add_assoc, h.after, h'.after]

/-- A beginning of the first piece that has text is read on from. -/
private theorem advance_front {w : View} {ws : List View} {u p : Bytes} (hu : u ≠ [])
    (hw : w.text = u ++ p) (horigin : ∀ k, origin vs k = origin (w :: ws) k)
    (htext : piecesText vs = w.text ++ piecesText ws) (hfrom : w.text <+: pattern.drop w.start)
    (hrest : ws = [] ∨ Whole p ∧ Ordered pattern (w.start + w.text.length) ws) :
    ∃ vs', Advance pattern vs u.length vs' ∧ Joined vs u.length := by
  have hfrom' : p <+: pattern.drop (w.start + u.length) := by
    obtain ⟨more, hmore⟩ := hfrom
    refine ⟨more, ?_⟩
    rw [← List.drop_drop, ← hmore, hw, List.append_assoc, List.drop_left]
  have hpos := List.length_pos_of_ne_nil hu
  have hlen : w.text.length = u.length + p.length := by rw [hw, List.length_append]
  refine ⟨⟨w.start + u.length, p⟩ :: ws, ⟨?_, ?_, ⟨w.start + u.length, ?_⟩, fun k => ?_⟩, ?_⟩
  · rw [htext, List.length_append]
    omega
  · rw [htext, hw, piecesText_cons, List.append_assoc, List.drop_left]
  · obtain rfl | ⟨hwhole, hws⟩ := hrest
    · exact .last (Nat.le_refl _) hfrom'
    · refine .cons (Nat.le_refl _) hfrom' hwhole ?_
      rwa [hlen, ← Nat.add_assoc] at hws
  · rw [horigin]
    by_cases hk : k < p.length
    · rw [origin_of_lt (by omega), origin_of_lt (by exact hk)]
      exact (Nat.add_assoc _ _ _).symm
    · obtain ⟨k, rfl⟩ := Nat.exists_eq_add_of_le (Nat.le_of_not_lt hk)
      rw [← Nat.add_assoc, ← hlen, origin_add]
      exact (origin_add (v := ⟨w.start + u.length, p⟩) k).symm
  · intro k hk
    rw [horigin, horigin, origin_of_lt (by omega), origin_of_lt (by omega), Nat.add_zero]

/-- A byte that begins neither a bracket expression nor an escape is read on its own. -/
theorem Ordered.advance_byte (h : Ordered pattern lo vs) (hb : b ≠ openBracket)
    (hb' : b ≠ backslash) (htext : piecesText vs = b :: rest) :
    ∃ vs', Advance pattern vs 1 vs' ∧ piecesText vs' = rest := by
  obtain ⟨w, ws, hne, horigin, hsplit, hfrom, hrest⟩ :=
    h.front (by rw [htext]; exact List.cons_ne_nil _ _)
  obtain ⟨c, p, hw⟩ := List.exists_cons_of_ne_nil hne
  have hc : c = b := by
    rw [htext, hw, List.cons_append, List.cons.injEq] at hsplit
    exact hsplit.1.symm
  subst hc
  have hrest' : ws = [] ∨ Whole p ∧ Ordered pattern (w.start + w.text.length) ws := by
    refine hrest.imp_right fun ⟨hwhole, hws⟩ => ⟨?_, hws⟩
    rw [hw] at hwhole
    cases hwhole with
    | byte _ _ hp => exact hp
    | escape => exact absurd rfl hb'
    | bracket => exact absurd rfl hb
  obtain ⟨vs', hadv, -⟩ :=
    advance_front (u := [c]) (List.cons_ne_nil _ _) hw horigin hsplit hfrom hrest'
  exact ⟨vs', hadv, by rw [hadv.text, htext]; rfl⟩

/-- A backslash and the byte it escapes come from one piece. -/
theorem Ordered.advance_escape (h : Ordered pattern lo vs) {c : UInt8}
    (htext : piecesText vs = backslash :: c :: rest) :
    ∃ vs', Advance pattern vs 2 vs' ∧ piecesText vs' = rest := by
  obtain ⟨w, ws, hne, horigin, hsplit, hfrom, hrest⟩ :=
    h.front (by rw [htext]; exact List.cons_ne_nil _ _)
  have hunit : ∃ p, w.text = backslash :: c :: p ∧
      (ws = [] ∨ Whole p ∧ Ordered pattern (w.start + w.text.length) ws) := by
    rw [htext] at hsplit
    obtain rfl | ⟨hwhole, hws⟩ := hrest
    · exact ⟨rest, by simpa [piecesText] using hsplit.symm, .inl rfl⟩
    · cases hwhole' : w.text with
      | nil => exact absurd hwhole' hne
      | cons b p =>
        rw [hwhole', List.cons_append, List.cons.injEq] at hsplit
        rw [hwhole', ← hsplit.1] at hwhole
        cases hwhole with
        | byte _ hb' => exact absurd rfl hb'
        | @escape d q hq =>
          rw [List.cons_append, List.cons.injEq] at hsplit
          refine ⟨q, by rw [← hsplit.1, hsplit.2.1], .inr ⟨hq, ?_⟩⟩
          rw [hwhole'] at hws
          exact hws
  obtain ⟨p, hw, hrest'⟩ := hunit
  obtain ⟨vs', hadv, -⟩ :=
    advance_front (u := [backslash, c]) (List.cons_ne_nil _ _) hw horigin hsplit hfrom hrest'
  exact ⟨vs', hadv, by rw [hadv.text, htext]; rfl⟩

/-- A bracket expression comes from one piece. -/
theorem Ordered.advance_bracket (h : Ordered pattern lo vs)
    (htext : piecesText vs = openBracket :: rest) (hscan : scanBracket i rest = .ok close) :
    ∃ vs', Advance pattern vs (close - i + 1) vs' ∧ Joined vs (close - i + 1) ∧
      piecesText vs' = rest.drop (close - i) := by
  obtain ⟨w, ws, hne, horigin, hsplit, hfrom, hrest⟩ :=
    h.front (by rw [htext]; exact List.cons_ne_nil _ _)
  obtain ⟨body, more, hbody, rfl, -, -, -⟩ := scanBracket_ok hscan
  have hunit : ∃ p, w.text = openBracket :: (body ++ closeBracket :: p) ∧
      (ws = [] ∨ Whole p ∧ Ordered pattern (w.start + w.text.length) ws) := by
    rw [htext] at hsplit
    obtain rfl | ⟨hwhole, hws⟩ := hrest
    · exact ⟨more, by rw [← hbody]; simpa [piecesText] using hsplit.symm, .inl rfl⟩
    · cases hwhole' : w.text with
      | nil => exact absurd hwhole' hne
      | cons b p =>
        rw [hwhole', List.cons_append, List.cons.injEq] at hsplit
        rw [hwhole', ← hsplit.1] at hwhole
        cases hwhole with
        | byte hb => exact absurd rfl hb
        | @bracket body' q hcloses hq =>
          have hrest' := hsplit.2
          rw [List.append_assoc, List.cons_append] at hrest'
          rw [hrest', hcloses, Except.ok.injEq] at hscan
          have hsame : body' = body := by
            rw [hrest'] at hbody
            exact List.append_inj_left hbody (by omega)
          refine ⟨q, by rw [← hsplit.1, hsame], .inr ⟨hq, ?_⟩⟩
          rw [hwhole'] at hws
          exact hws
  obtain ⟨p, hw, hrest'⟩ := hunit
  have hw' : w.text = (openBracket :: (body ++ [closeBracket])) ++ p := by
    rw [hw, List.cons_append, List.append_assoc, List.singleton_append]
  obtain ⟨vs', hadv, hjoined⟩ := advance_front (u := openBracket :: (body ++ [closeBracket]))
    (List.cons_ne_nil _ _) hw' horigin hsplit hfrom hrest'
  have hlen : (openBracket :: (body ++ [closeBracket])).length = i + 1 + body.length - i + 1 := by
    rw [List.length_cons, List.length_append, List.length_singleton]
    omega
  rw [hlen] at hadv hjoined
  refine ⟨vs', hadv, hjoined, ?_⟩
  rw [hadv.text, htext, List.drop_succ_cons]

end Kotatsu.Support.Glob
