import Kotatsu.Ipc.Framing.Parser

/-!
# The frame parser one byte at a time

A call on a chunk does what calls on its bytes do one after the other. The
blank line is found at the same byte wherever the header was cut, the limit on
a header is passed at the same byte, and the two body phases only count. The
invariant below is what keeps every difference of sizes at or above zero.
-/

namespace Kotatsu.Ipc

open Kotatsu.Core

/-! ## The end of a header -/

/-- `n` bytes of `next` complete a blank line after the header read so far. -/
def Completes (header next : Bytes) (n : Nat) : Prop :=
  0 < n ∧ n ≤ next.length ∧ blankLine <:+ header ++ next.take n

private theorem suffix_append_split {w a b : Bytes} (h : w <:+ a ++ b) (hl : b.length ≤ w.length) :
    w.take (w.length - b.length) <:+ a ∧ w.drop (w.length - b.length) = b := by
  obtain ⟨t, ht⟩ := h
  have hlen : t.length + w.length = a.length + b.length := by
    simpa only [List.length_append] using congrArg List.length ht
  have hta : t ++ w.take (w.length - b.length) = a := by
    have := congrArg (List.take a.length) ht
    rw [List.take_left, List.take_append, List.take_of_length_le (by omega)] at this
    rwa [show w.length - b.length = a.length - t.length by omega]
  have hwb : w.drop (w.length - b.length) = b := by
    have := congrArg (List.drop a.length) ht
    rw [List.drop_left, List.drop_append, List.drop_eq_nil_of_le (by omega),
      List.nil_append] at this
    rwa [show w.length - b.length = a.length - t.length by omega]
  exact ⟨⟨t, hta⟩, hwb⟩

variable {header next : Bytes}

private theorem straddle_some {k n : Nat} (hk : k ≤ 3) (h : straddle header next k = some n) :
    n ≤ 3 ∧ Completes header next n := by
  induction k with
  | zero => cases h
  | succ k ih =>
    simp only [straddle] at h
    split at h
    · next hc =>
      obtain ⟨hs, hp⟩ := Bool.and_eq_true_iff.mp hc
      obtain ⟨t, ht⟩ := List.isSuffixOf_iff_suffix.mp hs
      obtain ⟨u, hu⟩ := List.isPrefixOf_iff_prefix.mp hp
      have hlen : blankLine.length = 4 := rfl
      cases h
      refine ⟨by omega, by omega, ?_, ?_⟩
      · have hd : (blankLine.drop (k + 1)).length = 4 - (k + 1) := by
          rw [List.length_drop, hlen]
        have := congrArg List.length hu
        rw [List.length_append] at this
        omega
      · have htake : next.take (blankLine.length - (k + 1)) = blankLine.drop (k + 1) := by
          rw [← hu, ← List.length_drop, List.take_left]
        rw [htake, ← ht, List.append_assoc, List.take_append_drop]
        exact List.suffix_append ..
    · exact ih (by omega) h

private theorem straddle_le {k b : Nat} (hbk : b ≤ k) (hb : 0 < b) (hk : k ≤ 3)
    (hs : blankLine.take b <:+ header) (hp : blankLine.drop b <+: next) :
    ∃ n, straddle header next k = some n ∧ n ≤ 4 - b := by
  induction k with
  | zero => omega
  | succ k ih =>
    simp only [straddle]
    split
    · exact ⟨_, rfl, by simp only [show blankLine.length = 4 from rfl]; omega⟩
    · next hc =>
      rcases Nat.lt_or_ge b (k + 1) with hlt | hge
      · exact ih (by omega) (by omega)
      · have he : b = k + 1 := by omega
        subst he
        exact absurd (Bool.and_eq_true_iff.mpr ⟨List.isSuffixOf_iff_suffix.mpr hs,
          List.isPrefixOf_iff_prefix.mpr hp⟩) hc

/-- A reported end completes a blank line. -/
theorem headerEnd_completes {n : Nat} (h : headerEnd header next = some n) :
    Completes header next n := by
  unfold headerEnd at h
  split at h
  · next hs =>
    cases h
    exact (straddle_some (Nat.min_le_left _ _) hs).2
  · obtain ⟨i, hi, rfl⟩ := Option.map_eq_some_iff.mp h
    obtain ⟨t, ht⟩ := find_some hi
    have hlen : (next.drop i).length = 4 + t.length := by
      rw [← ht, List.length_append]
      rfl
    rw [List.length_drop] at hlen
    have htake : next.take (i + blankLine.length) = next.take i ++ blankLine := by
      rw [List.take_add, ← ht, List.take_left]
    refine ⟨Nat.succ_pos _, by simp only [show blankLine.length = 4 from rfl]; omega, ?_⟩
    rw [htake, ← List.append_assoc]
    exact List.suffix_append ..

/-- No blank line is completed before the reported end. -/
theorem headerEnd_le {m : Nat} (h : Completes header next m) :
    ∃ n, headerEnd header next = some n ∧ n ≤ m := by
  obtain ⟨hpos, hlen, hsuf⟩ := h
  have htl : (next.take m).length = m := List.length_take_of_le hlen
  unfold headerEnd
  rcases Nat.lt_or_ge m 4 with hm | hm
  · obtain ⟨hs, hd⟩ := suffix_append_split hsuf (by rw [htl]; exact Nat.le_of_lt hm)
    rw [htl] at hs hd
    have hbl : blankLine.length - m = 4 - m := rfl
    rw [hbl] at hs hd
    have hhl : 4 - m ≤ header.length := by
      have := hs.length_le
      rw [List.length_take, show blankLine.length = 4 from rfl] at this
      omega
    have hbk : 4 - m ≤ min 3 header.length := by omega
    obtain ⟨n, hn, hle⟩ := straddle_le hbk (by omega) (Nat.min_le_left _ _) hs
      (hd ▸ List.take_prefix m next)
    rw [hn]
    exact ⟨n, rfl, by omega⟩
  · split
    · next n hn => exact ⟨n, rfl, by have := (straddle_some (Nat.min_le_left _ _) hn).1; omega⟩
    · have hin : blankLine <+: next.drop (m - 4) := by
        have hsplit : header ++ next.take m =
            (header ++ next.take (m - 4)) ++ (next.drop (m - 4)).take 4 := by
          rw [List.append_assoc, ← List.take_add, Nat.sub_add_cancel hm]
        rw [hsplit] at hsuf
        have hl4 : ((next.drop (m - 4)).take 4).length = 4 := by
          rw [List.length_take, List.length_drop]
          omega
        have := (suffix_append_split hsuf (by rw [hl4]; exact Nat.le_refl _)).2
        rw [hl4, show blankLine.length - 4 = 0 from rfl, List.drop_zero] at this
        rw [this]
        exact List.take_prefix 4 _
      obtain ⟨i, hi, hle⟩ := find_le hin (by omega)
      exact ⟨i + 4, by rw [hi]; rfl, by omega⟩

theorem headerEnd_nil (header : Bytes) : headerEnd header [] = none := by
  cases h : headerEnd header [] with
  | none => rfl
  | some n =>
    obtain ⟨hpos, hle, _⟩ := headerEnd_completes h
    simp only [List.length_nil] at hle
    omega

/-- The end is the first byte, or is found behind it as if it had been read before. -/
theorem headerEnd_cons (header : Bytes) (x : UInt8) (xs : Bytes) :
    headerEnd header (x :: xs) =
      if blankLine <:+ header ++ [x] then some 1
      else (headerEnd (header ++ [x]) xs).map (· + 1) := by
  split
  · next hx =>
    have hone : Completes header (x :: xs) 1 := ⟨Nat.one_pos, by simp, by simpa using hx⟩
    obtain ⟨n, hn, hle⟩ := headerEnd_le hone
    have hpos := (headerEnd_completes hn).1
    rw [hn, show n = 1 by omega]
  · next hx =>
    have hback : ∀ n, Completes header (x :: xs) (n + 1) → 0 < n ∧ Completes (header ++ [x]) xs n := by
      rintro n ⟨_, hlen, hsuf⟩
      have hn : 0 < n := by
        rcases Nat.eq_zero_or_pos n with rfl | hp
        · exact absurd (by simpa using hsuf) hx
        · exact hp
      refine ⟨hn, hn, by simpa using hlen, ?_⟩
      simpa only [List.take_succ_cons, List.append_assoc, List.singleton_append] using hsuf
    have hforth : ∀ n, Completes (header ++ [x]) xs n → Completes header (x :: xs) (n + 1) := by
      rintro n ⟨hn, hlen, hsuf⟩
      refine ⟨Nat.succ_pos n, by simpa using hlen, ?_⟩
      simpa only [List.take_succ_cons, List.append_assoc, List.singleton_append] using hsuf
    cases h : headerEnd (header ++ [x]) xs with
    | some n =>
      obtain ⟨m, hm, hle⟩ := headerEnd_le (hforth n (headerEnd_completes h))
      have hc := headerEnd_completes hm
      obtain ⟨k, rfl⟩ : ∃ k, m = k + 1 := ⟨m - 1, by have := hc.1; omega⟩
      obtain ⟨n', hn', hle'⟩ := headerEnd_le (hback k hc).2
      rw [h] at hn'
      cases hn'
      rw [hm, Option.map_some, show k = n by omega]
    | none =>
      rw [Option.map_none]
      cases h' : headerEnd header (x :: xs) with
      | none => rfl
      | some m =>
        have hc := headerEnd_completes h'
        obtain ⟨k, rfl⟩ : ∃ k, m = k + 1 := ⟨m - 1, by have := hc.1; omega⟩
        obtain ⟨n', hn', _⟩ := headerEnd_le (hback k hc).2
        rw [h] at hn'
        cases hn'

/-! ## One call as many -/

/-- What holds of a parser between calls, unless the input is broken. -/
def FrameParser.Sound (p : FrameParser) : Prop :=
  match p.phase with
  | .header => p.header.length ≤ maxHeaderSize
  | .payload => p.header = [] ∧ 0 < p.remaining
  | .skip => p.header = [] ∧ 0 < p.remaining ∧ p.skippedPrefix.length ≤ skippedPrefixSize
  | .broken => False

theorem FrameParser.sound_new (maxPayload : Nat) : (FrameParser.new maxPayload).Sound :=
  Nat.zero_le _

private theorem checkedSub_succ (a b : Nat) : checkedSub (a + 1) (b + 1) = checkedSub a b := by
  simp only [checkedSub, Nat.add_le_add_iff_right, Nat.add_sub_add_right]

/-- The payload phase counts from where it starts. -/
theorem FrameParser.feedPayload_cons (p : FrameParser) (x : UInt8) (xs : Bytes) (n : Nat) :
    p.feedPayload (x :: xs) (n + 1) = (p.feedPayload xs n).map Feed.after := by
  simp only [FrameParser.feedPayload, List.length_cons, checkedSub_succ]
  rcases checkedSub xs.length n with _ | left
  · rfl
  · rcases hr : checkedSub p.remaining (min p.remaining left) with _ | remaining
    · simp [hr]
    · by_cases h : remaining = 0 <;>
        simp [hr, h, Feed.after, substr, Nat.add_right_comm]

/-- The skip phase counts from where it starts. -/
theorem FrameParser.feedSkip_cons (p : FrameParser) (x : UInt8) (xs : Bytes) (n : Nat) :
    p.feedSkip (x :: xs) (n + 1) = (p.feedSkip xs n).map Feed.after := by
  simp only [FrameParser.feedSkip, List.length_cons, checkedSub_succ]
  rcases checkedSub xs.length n with _ | left
  · rfl
  · rcases checkedSub skippedPrefixSize p.skippedPrefix.length with _ | room
    · simp
    · rcases hr : checkedSub p.remaining (min p.remaining left) with _ | remaining
      · simp [hr]
      · by_cases h : remaining = 0 <;>
          simp [hr, h, Feed.after, substr, Nat.add_right_comm]

theorem FrameParser.enterBody_cons (p : FrameParser) (x : UInt8) (xs : Bytes) (n : Nat) :
    p.enterBody (x :: xs) (n + 1) = (p.enterBody xs n).map Feed.after := by
  simp only [FrameParser.enterBody]
  split
  · rfl
  · split
    · rfl
    · split
      · exact FrameParser.feedSkip_cons ..
      · exact FrameParser.feedPayload_cons ..

/-- With its sizes in order, the payload phase takes what is there. -/
theorem FrameParser.feedPayload_eq (p : FrameParser) {input : Bytes} {n : Nat}
    (hn : n ≤ input.length) :
    p.feedPayload input n =
      let take := min p.remaining (input.length - n)
      let payload := p.payload ++ substr input n take
      let remaining := p.remaining - take
      some (if remaining ≠ 0 then ⟨n + take, none, { p with payload, remaining }⟩
        else ⟨n + take, some (.payload payload),
          { p with phase := .header, payload := [], remaining }⟩) := by
  simp only [FrameParser.feedPayload, checkedSub_of_le hn, checkedSub_of_le (Nat.min_le_left ..),
    Option.pure_def, Option.bind_eq_bind, Option.bind_some]
  split <;> rfl

/-- With its sizes in order, the skip phase takes what is there and keeps what has room. -/
theorem FrameParser.feedSkip_eq (p : FrameParser) {input : Bytes} {n : Nat}
    (hn : n ≤ input.length) (hk : p.skippedPrefix.length ≤ skippedPrefixSize) :
    p.feedSkip input n =
      let take := min p.remaining (input.length - n)
      let keep := min take (skippedPrefixSize - p.skippedPrefix.length)
      let skippedPrefix := p.skippedPrefix ++ substr input n keep
      let remaining := p.remaining - take
      some (if remaining ≠ 0 then ⟨n + take, none, { p with skippedPrefix, remaining }⟩
        else ⟨n + take, some (oversized p.skippedSize p.maxPayload skippedPrefix),
          { p with phase := .header, skippedPrefix := [], remaining }⟩) := by
  simp only [FrameParser.feedSkip, checkedSub_of_le hn, checkedSub_of_le hk,
    checkedSub_of_le (Nat.min_le_left ..), Option.pure_def, Option.bind_eq_bind, Option.bind_some]
  split <;> rfl

/-- With its sizes in order, the header phase reads up to a blank line or the limit. -/
theorem FrameParser.feedHeader_eq (p : FrameParser) (input : Bytes)
    (hl : p.header.length ≤ maxHeaderSize + 1) :
    p.feedHeader input =
      let window := input.take (maxHeaderSize + 1 - p.header.length)
      match headerEnd p.header window with
      | none =>
        let q := { p with header := p.header ++ window }
        if q.header.length > maxHeaderSize then some (q.breakWith window.length headerTooLong)
        else some ⟨window.length, none, q⟩
      | some n => FrameParser.enterBody { p with header := p.header ++ window.take n } input n := by
  simp only [FrameParser.feedHeader, checkedSub_of_le hl, Option.bind_eq_bind, Option.bind_some]
  cases headerEnd p.header (input.take (maxHeaderSize + 1 - p.header.length)) with
  | none => dsimp only; split <;> rfl
  | some n => rfl

/-- What the laws ask of the call on one byte. -/
private def Stepwise (p : FrameParser) (x : UInt8) : Prop :=
  ∃ f, p.feed [x] = some f ∧ f.consumed = 1 ∧
    (f.frame = none → f.next.Sound ∧
      ∀ xs, p.feed (x :: xs) = (f.next.feed xs).map Feed.after) ∧
    ∀ r, f.frame = some r →
      (r.isMalformed = false → f.next.Sound) ∧ ∀ xs, p.feed (x :: xs) = some f

private theorem stepwise_payload (p : FrameParser) (x : UInt8) (hp : p.phase = .payload)
    (hh : p.header = []) (hr : 0 < p.remaining) : Stepwise p x := by
  have hfeed : ∀ input, p.feed input = p.feedPayload input 0 := by
    intro input
    simp only [FrameParser.feed, hp]
  by_cases h1 : p.remaining = 1
  · refine ⟨⟨1, some (.payload (p.payload ++ [x])),
      { p with phase := .header, payload := [], remaining := 0 }⟩, ?_, rfl, ?_, ?_⟩
    · rw [hfeed, p.feedPayload_eq (Nat.zero_le _)]
      simp [h1, substr]
    · intro hc
      cases hc
    · rintro r hr'
      cases hr'
      refine ⟨fun _ => by simp only [FrameParser.Sound, hh]; exact Nat.zero_le _, fun xs => ?_⟩
      rw [hfeed, p.feedPayload_eq (Nat.zero_le _)]
      have hmin : min 1 ((x :: xs).length - 0) = 1 := by
        rw [List.length_cons]
        omega
      simp only [h1, hmin, Nat.zero_add, Nat.sub_self, substr, List.drop_zero,
        List.take_succ_cons, List.take_zero, ne_eq, not_true_eq_false, ite_false]
  · refine ⟨⟨1, none, { p with payload := p.payload ++ [x], remaining := p.remaining - 1 }⟩,
      ?_, rfl, fun _ => ⟨?_, fun xs => ?_⟩, ?_⟩
    · rw [hfeed, p.feedPayload_eq (Nat.zero_le _)]
      have hmin : min p.remaining ([x].length - 0) = 1 := by
        rw [List.length_singleton]
        omega
      have hne : p.remaining - 1 ≠ 0 := by omega
      simp only [hmin, hne, substr, List.drop_zero, List.take_succ_cons, List.take_nil, ne_eq,
        not_false_eq_true, ite_true]
    · simp only [FrameParser.Sound, hp]
      exact ⟨hh, by omega⟩
    · rw [hfeed, p.feedPayload_eq (Nat.zero_le _)]
      simp only [FrameParser.feed, hp]
      rw [FrameParser.feedPayload_eq _ (Nat.zero_le _)]
      have hmin : min p.remaining ((x :: xs).length - 0) =
          min (p.remaining - 1) (xs.length - 0) + 1 := by
        rw [List.length_cons]
        omega
      have hrem : p.remaining - (min (p.remaining - 1) (xs.length - 0) + 1) =
          p.remaining - 1 - min (p.remaining - 1) (xs.length - 0) := by omega
      simp only [hmin, hrem, substr, List.drop_zero, List.take_succ_cons, List.append_assoc,
        List.singleton_append, Option.map_some]
      split <;> simp only [Feed.after, Nat.zero_add]
    · intro r hc
      cases hc

private theorem stepwise_skip (p : FrameParser) (x : UInt8) (hp : p.phase = .skip)
    (hh : p.header = []) (hr : 0 < p.remaining)
    (hk : p.skippedPrefix.length ≤ skippedPrefixSize) : Stepwise p x := by
  have hfeed : ∀ input, p.feed input = p.feedSkip input 0 := by
    intro input
    simp only [FrameParser.feed, hp]
  let keep := min 1 (skippedPrefixSize - p.skippedPrefix.length)
  have hkept : (p.skippedPrefix ++ [x].take keep).length ≤ skippedPrefixSize := by
    rw [List.length_append, List.length_take, List.length_singleton]
    omega
  have hcons : ∀ (k : Nat) (xs : Bytes),
      (x :: xs).take (min (k + 1) (skippedPrefixSize - p.skippedPrefix.length)) =
        [x].take keep ++
          xs.take (min k (skippedPrefixSize - (p.skippedPrefix ++ [x].take keep).length)) := by
    intro k xs
    rw [List.length_append, List.length_take, List.length_singleton]
    rcases Nat.eq_zero_or_pos (skippedPrefixSize - p.skippedPrefix.length) with h0 | hpos
    · have hkeep : keep = 0 := by omega
      rw [h0, hkeep, Nat.min_zero, show skippedPrefixSize - (p.skippedPrefix.length + min 0 1) = 0
        by omega, Nat.min_zero]
      rfl
    · have hkeep : keep = 1 := by omega
      rw [hkeep, show min (k + 1) (skippedPrefixSize - p.skippedPrefix.length) =
        min k (skippedPrefixSize - (p.skippedPrefix.length + min 1 1)) + 1 by omega]
      rfl
  by_cases h1 : p.remaining = 1
  · refine ⟨⟨1, some (oversized p.skippedSize p.maxPayload (p.skippedPrefix ++ [x].take keep)),
      { p with phase := .header, skippedPrefix := [], remaining := 0 }⟩, ?_, rfl, ?_, ?_⟩
    · rw [hfeed, p.feedSkip_eq (Nat.zero_le _) hk]
      simp [h1, substr, keep]
    · intro hc
      cases hc
    · rintro r hr'
      cases hr'
      refine ⟨fun _ => by simp only [FrameParser.Sound, hh]; exact Nat.zero_le _, fun xs => ?_⟩
      rw [hfeed, p.feedSkip_eq (Nat.zero_le _) hk]
      have hmin : min 1 ((x :: xs).length - 0) = 1 := by
        rw [List.length_cons]
        omega
      have htake := hcons 0 xs
      simp only [Nat.zero_min, List.take_zero, List.append_nil, Nat.zero_add] at htake
      simp only [h1, hmin, Nat.zero_add, Nat.sub_self, substr, List.drop_zero, htake, ne_eq,
        not_true_eq_false, ite_false]
  · let kept := p.skippedPrefix ++ [x].take keep
    refine ⟨⟨1, none, { p with skippedPrefix := kept, remaining := p.remaining - 1 }⟩,
      ?_, rfl, fun _ => ⟨?_, fun xs => ?_⟩, ?_⟩
    · rw [hfeed, p.feedSkip_eq (Nat.zero_le _) hk]
      have hmin : min p.remaining ([x].length - 0) = 1 := by
        rw [List.length_singleton]
        omega
      have hne : p.remaining - 1 ≠ 0 := by omega
      simp only [hmin, hne, substr, List.drop_zero, ne_eq, not_false_eq_true, ite_true, kept, keep]
    · simp only [FrameParser.Sound, hp]
      exact ⟨hh, by omega, hkept⟩
    · rw [hfeed, p.feedSkip_eq (Nat.zero_le _) hk]
      simp only [FrameParser.feed, hp]
      rw [FrameParser.feedSkip_eq _ (Nat.zero_le _) hkept]
      have hmin : min p.remaining ((x :: xs).length - 0) =
          min (p.remaining - 1) (xs.length - 0) + 1 := by
        rw [List.length_cons]
        omega
      have hrem : p.remaining - (min (p.remaining - 1) (xs.length - 0) + 1) =
          p.remaining - 1 - min (p.remaining - 1) (xs.length - 0) := by omega
      simp only [hmin, hrem, substr, List.drop_zero, hcons, kept, List.append_assoc,
        Option.map_some]
      split <;> simp only [Feed.after, Nat.zero_add]
    · intro r hc
      cases hc

/-- The parser that has just left a header is at the start of a body. -/
private theorem enterBody_singleton (p : FrameParser) (x : UInt8) :
    ∃ f, p.enterBody [x] 1 = some f ∧ f.consumed = 1 ∧
      (f.frame = none → f.next.Sound ∧
        ∀ xs, p.enterBody (x :: xs) 1 = (f.next.feed xs).map Feed.after) ∧
      ∀ r, f.frame = some r →
        (r.isMalformed = false → f.next.Sound) ∧ ∀ xs, p.enterBody (x :: xs) 1 = some f := by
  have hbroken : ∀ reason, ∃ f, some (p.breakWith 1 reason) = some f ∧ f.consumed = 1 ∧
      (f.frame = none → f.next.Sound ∧
        ∀ xs : Bytes, some (p.breakWith 1 reason) = (f.next.feed xs).map Feed.after) ∧
      ∀ r, f.frame = some r → (r.isMalformed = false → f.next.Sound) ∧
        ∀ _xs : Bytes, some (p.breakWith 1 reason) = some f := by
    intro reason
    refine ⟨_, rfl, rfl, ?_, ?_⟩
    · intro hc
      cases hc
    · intro r hr
      refine ⟨fun hm => ?_, fun _ => rfl⟩
      cases hr
      cases hm
  unfold FrameParser.enterBody
  split
  · exact hbroken headerTooLong
  · split
    · exact hbroken _
    · next length hlength =>
      split
      · next hover =>
        dsimp only
        have hin : 1 ≤ [x].length := Nat.le_refl 1
        rw [FrameParser.feedSkip_eq _ hin (Nat.zero_le _)]
        have hpos : length ≠ 0 := by omega
        refine ⟨_, rfl, ?_, ?_, ?_⟩
        · simp [hpos]
        · intro _
          simp only [List.length_singleton, Nat.sub_self, Nat.min_zero, Nat.sub_zero, hpos, ne_eq,
            not_false_eq_true, ite_true, substr, Nat.zero_min, List.take_zero, List.append_nil]
          refine ⟨⟨rfl, Nat.pos_of_ne_zero hpos, Nat.zero_le _⟩, fun xs => ?_⟩
          rw [FrameParser.feedSkip_cons]
          rfl
        · intro r hr
          simp [hpos] at hr
      · next hover =>
        dsimp only
        have hin : 1 ≤ [x].length := Nat.le_refl 1
        rw [FrameParser.feedPayload_eq _ hin]
        by_cases hz : length = 0
        · subst hz
          refine ⟨_, rfl, rfl, ?_, ?_⟩
          · intro hc
            simp at hc
          · intro r hr
            refine ⟨fun _ => Nat.zero_le _, fun xs => ?_⟩
            rw [FrameParser.feedPayload_cons, FrameParser.feedPayload_eq _ (Nat.zero_le _)]
            simp [Feed.after, substr]
        · refine ⟨_, rfl, ?_, ?_, ?_⟩
          · simp [hz]
          · intro _
            simp only [List.length_singleton, Nat.sub_self, Nat.min_zero, Nat.sub_zero, hz, ne_eq,
              not_false_eq_true, ite_true, substr, List.take_zero, List.append_nil]
            refine ⟨⟨rfl, Nat.pos_of_ne_zero hz⟩, fun xs => ?_⟩
            rw [FrameParser.feedPayload_cons]
            rfl
          · intro r hr
            simp [hz] at hr

private theorem stepwise_header (p : FrameParser) (x : UInt8) (hp : p.phase = .header)
    (hh : p.header.length ≤ maxHeaderSize) : Stepwise p x := by
  have hfeed : ∀ (q : FrameParser) (input : Bytes), q.phase = .header →
      q.feed input = q.feedHeader input := by
    intro q input hq
    simp only [FrameParser.feed, hq]
  have hroom : maxHeaderSize + 1 - p.header.length =
      maxHeaderSize - p.header.length + 1 := by omega
  have hwindow : ∀ xs : Bytes, (x :: xs).take (maxHeaderSize + 1 - p.header.length) =
      x :: xs.take (maxHeaderSize - p.header.length) := by
    intro xs
    rw [hroom, List.take_succ_cons]
  by_cases hb : blankLine <:+ p.header ++ [x]
  · have hend : ∀ xs : Bytes, p.feed (x :: xs) =
        FrameParser.enterBody { p with header := p.header ++ [x] } (x :: xs) 1 := by
      intro xs
      rw [hfeed p _ hp, p.feedHeader_eq _ (by omega)]
      simp only [hwindow, headerEnd_cons, hb, ite_true, List.take_succ_cons, List.take_zero]
    obtain ⟨f, hf, hone, hnone, hsome⟩ :=
      enterBody_singleton { p with header := p.header ++ [x] } x
    refine ⟨f, (hend []).trans hf, hone, fun hn => ?_, fun r hr => ?_⟩
    · exact ⟨(hnone hn).1, fun xs => (hend xs).trans ((hnone hn).2 xs)⟩
    · exact ⟨(hsome r hr).1, fun xs => (hend xs).trans ((hsome r hr).2 xs)⟩
  · have hone : p.feed [x] =
        if (p.header ++ [x]).length > maxHeaderSize then
          some (FrameParser.breakWith { p with header := p.header ++ [x] } 1 headerTooLong)
        else some ⟨1, none, { p with header := p.header ++ [x] }⟩ := by
      rw [hfeed p _ hp, p.feedHeader_eq _ (by omega)]
      simp only [hwindow, List.take_nil, headerEnd_cons, hb, ite_false, headerEnd_nil,
        Option.map_none, List.length_singleton]
    by_cases hl : (p.header ++ [x]).length > maxHeaderSize
    · refine ⟨_, hone.trans (ite_cond_eq_true _ _ (eq_true hl)), rfl, ?_, ?_⟩
      · intro hc
        cases hc
      intro r hr
      cases hr
      refine ⟨fun hm => (by cases hm), fun xs => ?_⟩
      have hfull : maxHeaderSize - p.header.length = 0 := by
        rw [List.length_append, List.length_singleton] at hl
        omega
      rw [hfeed p _ hp, p.feedHeader_eq _ (by omega)]
      simp only [hwindow, hfull, List.take_zero, headerEnd_cons, hb, ite_false, headerEnd_nil,
        Option.map_none, List.length_singleton, hl, ite_true]
    · refine ⟨_, hone.trans (ite_cond_eq_false _ _ (eq_false hl)), rfl, fun _ => ⟨?_, ?_⟩, ?_⟩
      · simp only [FrameParser.Sound, hp]
        omega
      · intro xs
        have hl' : (p.header ++ [x]).length ≤ maxHeaderSize := by omega
        rw [hfeed p _ hp, p.feedHeader_eq _ (by omega),
          hfeed { p with header := p.header ++ [x] } xs hp,
          FrameParser.feedHeader_eq { p with header := p.header ++ [x] } xs
            (Nat.le_succ_of_le hl')]
        have hrest : maxHeaderSize + 1 - (p.header ++ [x]).length =
            maxHeaderSize - p.header.length := by
          rw [List.length_append, List.length_singleton]
          omega
        simp only [hwindow, headerEnd_cons, hb, ite_false, hrest]
        cases headerEnd (p.header ++ [x]) (xs.take (maxHeaderSize - p.header.length)) with
        | none =>
          simp only [Option.map_none, List.append_assoc, List.singleton_append, List.length_cons]
          split <;> rfl
        | some n =>
          simp only [Option.map_some, List.take_succ_cons, FrameParser.enterBody_cons,
            List.append_assoc, List.singleton_append]
      · intro r hc
        cases hc

/-- The parser reads any stream as it reads its bytes one at a time. -/
theorem FrameParser.incremental :
    Incremental FrameParser.feed Frame.isMalformed FrameParser.Sound where
  nil := by
    intro p hp
    unfold FrameParser.Sound at hp
    unfold FrameParser.feed
    split at hp
    · next h =>
      rw [h]
      dsimp only
      rw [p.feedHeader_eq _ (Nat.le_succ_of_le hp)]
      simp only [List.take_nil, headerEnd_nil, List.append_nil, List.length_nil]
      exact ite_cond_eq_false _ _ (eq_false (Nat.not_lt.mpr hp))
    · next h =>
      rw [h]
      dsimp only
      rw [p.feedPayload_eq (Nat.zero_le _)]
      have hne : p.remaining ≠ 0 := Nat.pos_iff_ne_zero.mp hp.2
      simp [substr, hne]
    · next h =>
      rw [h]
      dsimp only
      rw [p.feedSkip_eq (Nat.zero_le _) hp.2.2]
      have hne : p.remaining ≠ 0 := Nat.pos_iff_ne_zero.mp hp.2.1
      simp [substr, hne]
    · exact absurd hp id
  cons := by
    intro p x hp
    unfold FrameParser.Sound at hp
    split at hp
    · next h => exact stepwise_header p x h hp
    · next h => exact stepwise_payload p x h hp.1 hp.2
    · next h => exact stepwise_skip p x h hp.1 hp.2.1 hp.2.2
    · exact absurd hp id

end Kotatsu.Ipc
