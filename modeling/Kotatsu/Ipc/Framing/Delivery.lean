import Kotatsu.Ipc.Framing.ByteStep

/-!
# What the frame parser delivers

Any stream gives the same frames at the same bytes however it is cut, every
call gets on, and no difference of sizes goes below zero. A stream of written
frames gives back exactly their payloads, the ones over the limit as their size
and first bytes, and leaves the parser where it began.
-/

namespace Kotatsu.Ipc

open Kotatsu.Core

/-! ## Reachable parsers -/

/-- The parsers calls can lead to from a new one, broken ones included. -/
inductive FrameParser.Reachable (maxPayload : Nat) : FrameParser → Prop where
  | new : Reachable maxPayload (FrameParser.new maxPayload)
  | feed {p : FrameParser} {input : Bytes} {f : Feed FrameParser Frame} :
      Reachable maxPayload p → p.feed input = some f → Reachable maxPayload f.next

variable {p : FrameParser} {size : Nat}

/-- Only a broken parser reports a malformed frame. -/
theorem FrameParser.feed_malformed {input : Bytes} {f : Feed FrameParser Frame} (hp : p.Sound)
    (h : p.feed input = some f) {r : Frame} (hr : f.frame = some r) (hm : r.isMalformed = true) :
    f.next.phase = .broken := by
  have hbody : ∀ (q : FrameParser) (n : Nat), n ≤ input.length →
      q.feedPayload input n = some f → False := by
    intro q n hn hq
    rw [q.feedPayload_eq hn] at hq
    cases hq
    split at hr <;> cases hr
    cases hm
  have hskip : ∀ (q : FrameParser) (n : Nat), n ≤ input.length →
      q.skippedPrefix.length ≤ skippedPrefixSize → q.feedSkip input n = some f → False := by
    intro q n hn hk hq
    rw [q.feedSkip_eq hn hk] at hq
    cases hq
    split at hr <;> cases hr
    cases hm
  unfold FrameParser.Sound at hp
  unfold FrameParser.feed at h
  split at hp
  · next hph =>
    rw [hph] at h
    dsimp only at h
    rw [p.feedHeader_eq _ (Nat.le_succ_of_le hp)] at h
    dsimp only at h
    split at h
    · split at h
      · cases h
        rfl
      · cases h
        cases hr
    · next n hn =>
      have hle : n ≤ input.length := (headerEnd_completes hn).2.1.trans (List.length_take_le' ..)
      unfold FrameParser.enterBody at h
      split at h
      · cases h
        rfl
      · split at h
        · cases h
          rfl
        · dsimp only at h
          split at h
          · exact (hskip _ n hle (Nat.zero_le _) h).elim
          · exact (hbody _ n hle h).elim
  · next hph =>
    rw [hph] at h
    exact (hbody p 0 (Nat.zero_le _) h).elim
  · next hph =>
    rw [hph] at h
    exact (hskip p 0 (Nat.zero_le _) hp.2.2 h).elim
  · exact hp.elim

/-- Every reachable parser is in order, or has given up on its input. -/
theorem FrameParser.Reachable.sound {maxPayload : Nat} (h : FrameParser.Reachable maxPayload p) :
    p.Sound ∨ p.phase = .broken := by
  induction h with
  | new => exact Or.inl (FrameParser.sound_new maxPayload)
  | @feed p input f _ hf ih =>
    rcases ih with hs | hb
    · by_cases hi : input = []
      · subst hi
        rw [FrameParser.incremental.nil p hs] at hf
        cases hf
        exact Or.inl hs
      · obtain ⟨g, hg, _, _, hnone, hsome⟩ := FrameParser.incremental.feed_spec hs hi
        rw [hf] at hg
        cases hg
        cases hr : f.frame with
        | none => exact Or.inl (hnone hr).2.1
        | some r =>
          cases hm : r.isMalformed with
          | true => exact Or.inr (FrameParser.feed_malformed hs hf hr hm)
          | false => exact Or.inl ((hsome r hr).1 hm)
    · unfold FrameParser.feed at hf
      rw [hb] at hf
      cases hf
      exact Or.inr hb

/-- The result of a call that gives up: the input is broken and says so. -/
def ReportsBroken (f : Feed FrameParser Frame) : Prop :=
  f.next.phase = .broken ∧ ∃ r, f.frame = some r ∧ r.isMalformed = true

/-- Every call on a reachable parser has a result, so no difference of sizes in it
went below zero, and takes no more than it was given; on a chunk that is not
empty it takes a byte or reports the broken input. -/
theorem FrameParser.Reachable.feed_progress {maxPayload : Nat}
    (h : FrameParser.Reachable maxPayload p) (input : Bytes) :
    ∃ f, p.feed input = some f ∧ f.consumed ≤ input.length ∧
      (input ≠ [] → 0 < f.consumed ∨ ReportsBroken f) := by
  rcases h.sound with hs | hb
  · by_cases hi : input = []
    · subst hi
      exact ⟨_, FrameParser.incremental.nil p hs, Nat.zero_le _, fun hc => absurd rfl hc⟩
    · obtain ⟨f, hf, hpos, hle, _⟩ := FrameParser.incremental.feed_spec hs hi
      exact ⟨f, hf, hle, fun _ => Or.inl hpos⟩
  · refine ⟨p.malformed 0, ?_, Nat.zero_le _, fun _ => Or.inr ⟨hb, _, rfl, rfl⟩⟩
    unfold FrameParser.feed
    rw [hb]

/-- The frames of a stream, the bytes taken by each of them and in all, and the
parser at the end do not depend on how the stream is cut; every call on the way
gets on, takes no more than it is given and keeps its sizes at or above zero. -/
theorem FrameParser.feed_cut_independent (maxPayload : Nat) :
    (∀ a b : List Bytes, a.flatten = b.flatten →
      ∃ t, readChunks (.new maxPayload) a = some t ∧ readChunks (.new maxPayload) b = some t) ∧
    ∀ p, FrameParser.Reachable maxPayload p → ∀ input, ∃ f, p.feed input = some f ∧
      f.consumed ≤ input.length ∧ (input ≠ [] → 0 < f.consumed ∨ ReportsBroken f) := by
  refine ⟨?_, fun p hp input => hp.feed_progress input⟩
  intro a b hab
  have hs := FrameParser.sound_new maxPayload
  obtain ⟨t, ht, _⟩ := FrameParser.incremental.scan_spec a.flatten hs 0
  refine ⟨t, ?_, ?_⟩
  · rw [readChunks, FrameParser.incremental.drive_eq_scan a hs, ht]
  · rw [readChunks, FrameParser.incremental.drive_eq_scan b hs, ← hab, ht]

/-- A malformed header and a frame, each cut in two ways. -/
theorem FrameParser.feed_cut_independent_split :
    ∃ t, readChunks (.new 8) [ascii "A\r\n\r", ascii "\nxy"] = some t ∧
      readChunks (.new 8) [ascii "A\r\n\r\n", ascii "x", ascii "y"] = some t :=
  (FrameParser.feed_cut_independent 8).1 [ascii "A\r\n\r", ascii "\nxy"]
    [ascii "A\r\n\r\n", ascii "x", ascii "y"] (by decide)

/-- What a call shows of itself, and the state it leaves the parser in. -/
def Feed.view (f : Feed FrameParser Frame) : Nat × Option Frame × ParserState :=
  (f.consumed, f.frame, f.next.state)

/-- A parser's state, with its limit, decides everything a call does. -/
theorem FrameParser.feed_of_state_eq {p q : FrameParser} (hp : p.Sound) (hq : q.Sound)
    (hmax : p.maxPayload = q.maxPayload) (hs : p.state = q.state) (input : Bytes) :
    (p.feed input).map Feed.view = (q.feed input).map Feed.view := by
  obtain ⟨pmax, pphase, pheader, ppayload, pkept, pfailure, premaining, psize⟩ := p
  obtain ⟨qmax, qphase, qheader, qpayload, qkept, qfailure, qremaining, qsize⟩ := q
  dsimp only at hmax
  subst hmax
  cases pphase <;> cases qphase <;> cases hs
  case header.header.refl =>
    have hl : pheader.length ≤ maxHeaderSize + 1 := Nat.le_succ_of_le hp
    simp only [FrameParser.feed]
    rw [FrameParser.feedHeader_eq _ _ hl, FrameParser.feedHeader_eq _ _ hl]
    dsimp only
    split
    · split <;> rfl
    · next n hn =>
      have hle : n ≤ input.length := (headerEnd_completes hn).2.1.trans (List.length_take_le' ..)
      simp only [FrameParser.enterBody]
      split
      · rfl
      · split
        · rfl
        · split
          · rw [FrameParser.feedSkip_eq _ hle (Nat.zero_le _),
              FrameParser.feedSkip_eq _ hle (Nat.zero_le _)]
            dsimp only
            split <;> rfl
          · rw [FrameParser.feedPayload_eq _ hle, FrameParser.feedPayload_eq _ hle]
            dsimp only
            split <;> rfl
  case payload.payload.refl =>
    obtain ⟨rfl, _⟩ := hp
    obtain ⟨rfl, _⟩ := hq
    simp only [FrameParser.feed]
    rw [FrameParser.feedPayload_eq _ (Nat.zero_le _), FrameParser.feedPayload_eq _ (Nat.zero_le _)]
    dsimp only
    split <;> rfl
  case skip.skip.refl =>
    obtain ⟨rfl, _, hk⟩ := hp
    obtain ⟨rfl, _, hk'⟩ := hq
    simp only [FrameParser.feed]
    rw [FrameParser.feedSkip_eq _ (Nat.zero_le _) hk, FrameParser.feedSkip_eq _ (Nat.zero_le _) hk']
    dsimp only
    split <;> rfl
  case broken.broken.refl => exact hp.elim

/-! ## Written frames -/

/-- A payload whose size a `size_t` can hold. -/
structure Payload where
  bytes : Bytes
  size_lt : bytes.length < 2 ^ 64

/-- A payload as it is sent. -/
def Payload.frame (x : Payload) : Bytes := frameHeader x.bytes.length ++ x.bytes

/-- What the receiver of a payload gets. -/
def Payload.delivered (maxPayload : Nat) (x : Payload) : Frame :=
  if x.bytes.length ≤ maxPayload then .payload x.bytes
  else oversized x.bytes.length maxPayload
    (x.bytes.take (min x.bytes.length skippedPrefixSize))

/-- The parser stands between two frames. -/
def FrameParser.Idle (p : FrameParser) : Prop := p.phase = .header ∧ p.header = []

theorem FrameParser.Idle.sound (h : p.Idle) : p.Sound := by
  unfold FrameParser.Sound
  rw [h.1, h.2]
  exact Nat.zero_le _

/-- All parsers between two frames are in the state of a new one. -/
theorem FrameParser.Idle.state_eq (h : p.Idle) (maxPayload : Nat) :
    p.state = (FrameParser.new maxPayload).state := by
  unfold FrameParser.state
  rw [h.1, h.2]
  rfl

/-- The header's line without its line end. -/
private def headerLine (size : Nat) : Bytes := contentLengthName ++ 58 :: 32 :: decimal size

private theorem frameHeader_eq (size : Nat) : frameHeader size = headerLine size ++ blankLine := by
  have he : ascii "Content-Length: " = contentLengthName ++ [58, 32] := by decide
  rw [frameHeader, he, headerLine]
  simp only [List.append_assoc, List.cons_append, List.nil_append]

private theorem not_mem_headerLine (size : Nat) : (13 : UInt8) ∉ headerLine size := by
  intro hm
  rcases List.mem_append.mp hm with hm | hm
  · exact absurd hm (by decide)
  · rcases List.mem_cons.mp hm with hm | hm
    · exact absurd hm (by decide)
    · rcases List.mem_cons.mp hm with hm | hm
      · exact absurd hm (by decide)
      · exact absurd (isDigit_decimal size 13 hm) (by decide)

private theorem lineLength_headerLine (h : size < 2 ^ 64) :
    lineLength (headerLine size) = some (.ok size) := by
  have hcolon : (headerLine size).findIdx? (· == 58) = some 14 := by
    rw [headerLine, List.findIdx?_append]
    rfl
  have hname : (headerLine size).take 14 = contentLengthName :=
    List.take_left' (by decide)
  have hvalue : (headerLine size).drop (14 + 1) = 32 :: decimal size := rfl
  have htrim : trim (32 :: decimal size) = decimal size := by
    rw [trim, trimBy, List.dropWhile_cons_of_pos (by decide)]
    apply trimBy_of_forall
    intro b hb
    have hd := isDigit_decimal size b hb
    simp only [isDigit, Bool.and_eq_true, decide_eq_true_eq] at hd
    simp only [Bool.or_eq_false_iff, beq_eq_false_iff_ne]
    constructor <;> (rintro rfl; simp at hd)
  have hself : equalsIgnoringCase (trim contentLengthName) contentLengthName = true := by decide
  simp only [lineLength, hcolon, hname, hself, ite_true, hvalue, htrim, fromChars_decimal h]

/-- The size a written header names is the size it was written for. -/
theorem contentLength_frameHeader (h : size < 2 ^ 64) :
    contentLength (frameHeader size) = .ok size := by
  have hne : frameHeader size ≠ [] := by simp [frameHeader, blankLine]
  have hfind : find lineEnd (frameHeader size) = some (headerLine size).length := by
    rw [frameHeader_eq, show blankLine = lineEnd ++ lineEnd from rfl, ← List.append_assoc]
    exact find_append (x := 13) rfl (not_mem_headerLine size)
  have htake : (frameHeader size).take (headerLine size).length = headerLine size := by
    rw [frameHeader_eq, List.take_left]
  rw [contentLength]
  simp only [hne, dite_false, hfind, htake, lineLength_headerLine h]

theorem length_frameHeader_le (h : size < 2 ^ 64) : (frameHeader size).length ≤ maxHeaderSize := by
  have hd : (decimal size).length ≤ 20 :=
    length_decimal_le (by decide) (h.trans (by decide))
  rw [frameHeader, List.length_append, List.length_append,
    show (ascii "Content-Length: ").length = 16 by decide, show blankLine.length = 4 from rfl]
  unfold maxHeaderSize
  omega

/-- A written frame at the front of the input is taken whole and delivered, and
leaves the parser between two frames again. -/
theorem FrameParser.feed_frame (hp : p.Idle) (x : Payload) (rest : Bytes) :
    ∃ q : FrameParser, q.Idle ∧ q.maxPayload = p.maxPayload ∧
      p.feed (x.frame ++ rest) =
        some ⟨x.frame.length, some (x.delivered p.maxPayload), q⟩ := by
  let header := frameHeader x.bytes.length
  have hlen : header.length ≤ maxHeaderSize := length_frameHeader_le x.size_lt
  have hroom : maxHeaderSize + 1 = header.length + (maxHeaderSize + 1 - header.length) := by
    omega
  have hwindow : (x.frame ++ rest).take (maxHeaderSize + 1) =
      header ++ (x.bytes ++ rest).take (maxHeaderSize + 1 - header.length) := by
    rw [Payload.frame, List.append_assoc, hroom, List.take_length_add_append]
    simp only [Nat.add_sub_cancel_left]
  have hend : headerEnd [] (header ++ (x.bytes ++ rest).take (maxHeaderSize + 1 - header.length)) =
      some header.length := by
    have hf := fun after => @find_append blankLine _ after 13 _ rfl
      (not_mem_headerLine x.bytes.length)
    have hf := hf ((x.bytes ++ rest).take (maxHeaderSize + 1 - header.length))
    rw [← frameHeader_eq] at hf
    simp only [headerEnd, List.length_nil, Nat.min_zero, straddle]
    rw [hf, Option.map_some, ← List.length_append, ← frameHeader_eq]
  have hfeed : p.feed (x.frame ++ rest) =
      FrameParser.enterBody { p with header := header } (x.frame ++ rest) header.length := by
    have hphase : p.feed (x.frame ++ rest) = p.feedHeader (x.frame ++ rest) := by
      simp only [FrameParser.feed, hp.1]
    rw [hphase, p.feedHeader_eq _ (by rw [hp.2]; exact Nat.zero_le _)]
    simp only [hp.2, List.length_nil, Nat.sub_zero, hwindow, hend, List.nil_append, List.take_left]
  have hinput : header.length ≤ (x.frame ++ rest).length := by
    rw [Payload.frame, List.append_assoc, List.length_append]
    exact Nat.le_add_right ..
  have hleft : min x.bytes.length ((x.frame ++ rest).length - header.length) = x.bytes.length := by
    rw [Payload.frame, List.append_assoc, List.length_append, Nat.add_sub_cancel_left,
      List.length_append]
    exact Nat.min_eq_left (Nat.le_add_right ..)
  have hbody : ∀ k, k ≤ x.bytes.length →
      substr (x.frame ++ rest) header.length k = x.bytes.take k := by
    intro k hk
    rw [substr, Payload.frame, List.append_assoc, List.drop_left, List.take_append_of_le_length hk]
  have hnot : ¬ header.length > maxHeaderSize := Nat.not_lt.mpr hlen
  have hframe : x.frame.length = header.length + x.bytes.length := List.length_append
  rw [hfeed]
  unfold FrameParser.enterBody
  have hsize : contentLength header = .ok x.bytes.length := contentLength_frameHeader x.size_lt
  simp only [hnot, ite_false, hsize]
  by_cases hover : x.bytes.length > p.maxPayload
  · rw [ite_cond_eq_true _ _ (eq_true hover),
      FrameParser.feedSkip_eq _ hinput (Nat.zero_le _)]
    refine ⟨⟨p.maxPayload, .header, [], [], [], p.failure, 0, x.bytes.length⟩, ⟨rfl, rfl⟩, rfl,
      ?_⟩
    have hnle : ¬ x.bytes.length ≤ p.maxPayload := Nat.not_le.mpr hover
    simp only [hleft, hbody _ (Nat.min_le_left ..), Nat.sub_self, ne_eq, not_true_eq_false,
      ite_false, List.nil_append, List.length_nil, Nat.sub_zero, Payload.delivered, hnle, hframe]
  · rw [ite_cond_eq_false _ _ (eq_false hover), FrameParser.feedPayload_eq _ hinput]
    refine ⟨⟨p.maxPayload, .header, [], [], [], p.failure, 0, p.skippedSize⟩, ⟨rfl, rfl⟩, rfl,
      ?_⟩
    have hle : x.bytes.length ≤ p.maxPayload := Nat.not_lt.mp hover
    simp only [hleft, hbody _ (Nat.le_refl _), Nat.sub_self, ne_eq, not_true_eq_false, ite_false,
      List.nil_append, List.take_length, Payload.delivered, hle, ite_true, hframe]

private theorem delivered_not_malformed (maxPayload : Nat) (x : Payload) :
    (x.delivered maxPayload).isMalformed = false := by
  unfold Payload.delivered
  split <;> rfl

private theorem frame_ne_nil (x : Payload) (rest : Bytes) : x.frame ++ rest ≠ [] := by
  simp [Payload.frame, frameHeader, blankLine]

/-- Scanning written frames delivers them one by one. -/
theorem scan_frames (payloads : List Payload) : ∀ {p : FrameParser}, p.Idle → ∀ total,
    ∃ t, scan FrameParser.feed Frame.isMalformed p total (payloads.map Payload.frame).flatten =
        some t ∧
      t.results.map Prod.snd = payloads.map (Payload.delivered p.maxPayload) ∧
      t.state.Idle ∧ t.stopped = false := by
  induction payloads with
  | nil =>
    intro p hp total
    exact ⟨⟨[], total, p, false⟩, rfl, rfl, hp, rfl⟩
  | cons x payloads ih =>
    intro p hp total
    obtain ⟨q, hq, hmax, hfeed⟩ := FrameParser.feed_frame hp x (payloads.map Payload.frame).flatten
    obtain ⟨f, hf, _, _, _, hsome⟩ := FrameParser.incremental.feed_spec hp.sound
      (frame_ne_nil x (payloads.map Payload.frame).flatten)
    rw [hfeed] at hf
    cases hf
    have hscan := (hsome _ rfl).2 total
    dsimp only at hscan
    rw [delivered_not_malformed, List.drop_left] at hscan
    obtain ⟨t, ht, hres, hidle, hstop⟩ := ih hq (total + x.frame.length)
    refine ⟨t.report (total + x.frame.length) (x.delivered p.maxPayload), ?_, ?_, hidle, hstop⟩
    · rw [List.map_cons, List.flatten_cons, hscan, ht]
      rfl
    · simp only [Trace.report, List.map_cons, hres, hmax]

/-- Written frames, cut anywhere, come back as their payloads in order and once
each, those over the limit as their size and first bytes; every byte is taken and
the parser is back in the state it started in. -/
theorem readChunks_frames (maxPayload : Nat) (payloads : List Payload) (chunks : List Bytes)
    (hcut : chunks.flatten = (payloads.map Payload.frame).flatten) :
    ∃ t, readChunks (.new maxPayload) chunks = some t ∧
      t.results.map Prod.snd = payloads.map (Payload.delivered maxPayload) ∧
      t.consumed = chunks.flatten.length ∧
      t.state.state = (FrameParser.new maxPayload).state := by
  have hidle : (FrameParser.new maxPayload).Idle := ⟨rfl, rfl⟩
  obtain ⟨t, ht, hres, hend, hstop⟩ := scan_frames payloads hidle 0
  obtain ⟨u, hu, hspec⟩ := FrameParser.incremental.scan_spec chunks.flatten hidle.sound 0
  rw [hcut, ht] at hu
  cases hu
  refine ⟨t, ?_, hres, ?_, hend.state_eq maxPayload⟩
  · rw [readChunks, FrameParser.incremental.drive_eq_scan chunks hidle.sound, hcut, ht]
  · simpa only [Nat.zero_add] using (hspec hstop).2

/-- A frame within the limit and one over it, cut inside both. -/
theorem readChunks_frames_two :
    let a : Payload := ⟨[1, 2], by decide⟩
    let b : Payload := ⟨[3, 4, 5], by decide⟩
    ∃ t, readChunks (.new 2) [(a.frame ++ b.frame).take 7, (a.frame ++ b.frame).drop 7] = some t ∧
      t.results.map Prod.snd = [a, b].map (Payload.delivered 2) ∧
      t.consumed = [(a.frame ++ b.frame).take 7, (a.frame ++ b.frame).drop 7].flatten.length ∧
      t.state.state = (FrameParser.new 2).state :=
  readChunks_frames 2 [⟨[1, 2], by decide⟩, ⟨[3, 4, 5], by decide⟩] _
    (by simp only [List.flatten_cons, List.flatten_nil, List.append_nil, List.map_cons,
      List.map_nil, List.take_append_drop])

end Kotatsu.Ipc
