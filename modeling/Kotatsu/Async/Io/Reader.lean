import Kotatsu.Async.Io.Stream
import Kotatsu.Core.Loop
import Kotatsu.Core.SplitOn

/-!
# Reading a stream

The readers of a stream share its ring: each waits until there are bytes, takes some, and the
ones that read to the end of a line or of the stream wait again with what they have so far. A
byte that was sent is in the text of the reader under way, unread in the ring or still to
arrive, in this order; what the calls give is read off the bytes before it alone, so it does
not depend on how they arrived.
-/

namespace Kotatsu.Async.Io

open Kotatsu.Core

/-! ## Lines -/

/-- The end of a line, `'\n'`. -/
def lineFeed : UInt8 := 10

/-- `'\r'`. -/
def carriageReturn : UInt8 := 13

/-- A line without the `'\r'` right before its end. -/
def dropReturn (line : Bytes) : Bytes :=
  if line.getLast? = some carriageReturn then line.dropLast else line

/-- The lines of a text that ends: the texts between its line ends, and the text after the
last one, if there is any. -/
def lines (text : Bytes) : List Bytes :=
  let parts := text.splitOn lineFeed
  parts.dropLast.map dropReturn ++ parts.getLast?.toList.filter (· ≠ [])

/-- The first line of a text and what is behind it; none where the text is over. -/
def nextLine (text : Bytes) : Option (Bytes × Bytes) :=
  match find [lineFeed] text with
  | some i => some (dropReturn (text.take i), text.drop (i + 1))
  | none => if text = [] then none else some (text, [])

theorem nextLine_line {front : Bytes} (back : Bytes) (h : lineFeed ∉ front) :
    nextLine (front ++ lineFeed :: back) = some (dropReturn front, back) := by
  rw [nextLine, find_byte_append back h]
  dsimp only
  rw [List.take_left, drop_succ_append]

variable {text : Bytes} {s : Stream}

theorem nextLine_last (h : lineFeed ∉ text) (hne : text ≠ []) :
    nextLine text = some (text, []) := by
  rw [nextLine, find_byte_absent h]
  exact if_neg hne

theorem lines_nil : lines [] = [] := by
  rw [lines, List.splitOn_eq_singleton List.not_mem_nil]
  rfl

theorem lines_line {front : Bytes} (back : Bytes) (h : lineFeed ∉ front) :
    lines (front ++ lineFeed :: back) = dropReturn front :: lines back := by
  have hne := List.splitOn_ne_nil lineFeed back
  rw [lines, lines, List.splitOn_append_cons_self_of_not_mem h,
    List.dropLast_cons_of_ne_nil hne, List.getLast?_cons_of_ne_nil hne, List.map_cons,
    List.cons_append]

theorem lines_last (h : lineFeed ∉ text) (hne : text ≠ []) : lines text = [text] := by
  rw [lines, List.splitOn_eq_singleton h]
  simp [hne]

/-- The lines are what taking the next line again and again gives. -/
theorem lines_nextLine {text line rest : Bytes} (h : nextLine text = some (line, rest)) :
    lines text = line :: lines rest := by
  cases hfind : find [lineFeed] text with
  | some i =>
    obtain ⟨front, back, rfl, hfront, -⟩ := find_byte_some hfind
    rw [nextLine_line back hfront] at h
    obtain ⟨rfl, rfl⟩ := Prod.mk.inj (Option.some.inj h)
    exact lines_line back hfront
  | none =>
    have hnot := find_byte_none hfind
    by_cases hnil : text = []
    · rw [nextLine, hfind] at h
      dsimp only at h
      rw [if_pos hnil] at h
      cases h
    · rw [nextLine_last hnot hnil] at h
      obtain ⟨rfl, rfl⟩ := Prod.mk.inj (Option.some.inj h)
      rw [lines_last hnot hnil, lines_nil]

/-- A line takes some of the text. -/
theorem nextLine_lt {text line rest : Bytes} (h : nextLine text = some (line, rest)) :
    rest.length < text.length := by
  cases hfind : find [lineFeed] text with
  | some i =>
    obtain ⟨front, back, rfl, hfront, -⟩ := find_byte_some hfind
    rw [nextLine_line back hfront] at h
    obtain ⟨-, rfl⟩ := Prod.mk.inj (Option.some.inj h)
    rw [List.length_append, List.length_cons]
    omega
  | none =>
    rw [nextLine, hfind] at h
    dsimp only at h
    split at h
    · cases h
    · next hne =>
      obtain ⟨-, rfl⟩ := Prod.mk.inj (Option.some.inj h)
      exact List.length_pos_iff.mpr hne

/-! ## Calls -/

/-- The calls that read a stream, with how many bytes `read_some` has room for. -/
inductive Op where
  | read
  | readSome (size : Nat)
  | readChunk
  | readToEnd
  | readLine
deriving DecidableEq

/-- A call under way: what it has so far, and how its wait for bytes ended, once it did. -/
structure Call where
  op : Op
  text : Bytes := []
  woken : Option Error := none

/-- What a call gives: the bytes of `read`, of `read_some` and of `read_to_end`, the view
of `read_chunk`, the line of `read_line`, the error it fails with; and the bytes that `consume`
drops. -/
inductive Outcome where
  | bytes (out : Bytes)
  | atMost (size : Nat) (out : Bytes)
  | whole (out : Bytes)
  | chunk (view : Bytes)
  | line (line : Option Bytes)
  | failed (err : Reason)
  | dropped (out : Bytes)

/-- What a call says of the bytes before it and of those it leaves. -/
def Outcome.Spells : Outcome → Bytes → Bytes → Prop
  | .bytes out, before, after => before = out ++ after ∧ out ≠ []
  | .atMost size out, before, after => before = out ++ after ∧ out.length ≤ size ∧
    (out = [] → size = 0 ∨ before = [])
  | .whole out, before, after => out = before ∧ after = []
  | .chunk view, before, after => after = before ∧ view <+: before ∧ view ≠ []
  | .line none, before, after => before = [] ∧ after = []
  | .line (some text), before, after => nextLine before = some (text, after)
  | .failed err, before, after => after = before ∧
    (err = .resourceBusyOrLocked ∨ (err = .endOfFile ∧ before = []))
  | .dropped out, before, after => before = out ++ after

/-- The outcomes of a call. -/
def Outcome.Of (outcome : Outcome) : Op → Prop
  | .read => (∃ out, outcome = .bytes out) ∨ ∃ err, outcome = .failed err
  | .readSome size => ∃ out, outcome = .atMost size out
  | .readChunk => (∃ view, outcome = .chunk view) ∨ ∃ err, outcome = .failed err
  | .readToEnd => ∃ out, outcome = .whole out
  | .readLine => ∃ line, outcome = .line line

/-- A stream read by some calls, and what they leave of it. -/
inductive History (source : Bytes) : List Outcome → Bytes → Prop where
  | start : History source [] source
  | call {log : List Outcome} {before after : Bytes} {outcome : Outcome}
    (h : History source log before) (hspells : outcome.Spells before after) :
    History source (log ++ [outcome]) after

/-- A stream, what is still to arrive before it ends, the call under way and what the calls
have given. -/
structure Reader where
  stream : Stream := {}
  input : Bytes
  call : Option Call := none
  log : List Outcome := []

namespace Reader

/-- `co_await self->fill()`, where starting to read does not fail. -/
def await (r : Reader) (call : Call) : Reader :=
  match r.stream.fill none with
  | (stream, .ready err) => { r with stream, call := some { call with woken := some err } }
  | (stream, .wait) => { r with stream, call := some { call with woken := none } }

/-- The end of the call under way. -/
def give (r : Reader) (outcome : Outcome) : Reader :=
  { r with call := none, log := r.log ++ [outcome] }

/-- A call up to its first wait; while another one waits it fails; none where the reader
of another one has not gone on yet. -/
def start (r : Reader) (op : Op) : Option Reader :=
  if op = .readSome 0 then some { r with log := r.log ++ [.atMost 0 []] }
  else
    match r.call with
    | none => some (r.await { op })
    | some call =>
      if call.woken.isSome then none
      else
        match r.stream.fill none with
        | (_, .ready (some err)) => some { r with log := r.log ++ [.failed err] }
        | _ => none

/-- One turn of the loop of `read`; it ends with none where an assertion fails. -/
def drainTurn : Stream × Bytes → (Stream × Bytes) ⊕ Option (Stream × Bytes)
  | (stream, out) =>
    if stream.use.ring.empty then .inr (some (stream, out))
    else
      let chunk := stream.use.ring.readable
      match stream.consume chunk.length with
      | none => .inr none
      | some stream => .inl (stream, out ++ chunk)

/-- The loop of `read`: every unread byte. -/
def drain (stream : Stream) : Option (Stream × Bytes) :=
  (loop drainTurn (stream.use.ring.size + 1) (stream, [])).join

/-- A call whose wait for bytes has ended goes on; none where an assertion fails. -/
def resume (r : Reader) : Option Reader :=
  match r.call with
  | some { op, text, woken := some err } =>
    let chunk := r.stream.use.ring.readable
    match op, err with
    | .read, none =>
      (drain r.stream).map fun (stream, out) => { r with stream }.give (.bytes out)
    | .readSome size, none =>
      let count := min size chunk.length
      (r.stream.consume count).map fun stream =>
        { r with stream }.give (.atMost size (chunk.take count))
    | .readChunk, none => some (r.give (.chunk chunk))
    | .readToEnd, none =>
      (r.stream.consume chunk.length).map fun stream =>
        { r with stream }.await { op, text := text ++ chunk }
    | .readLine, none =>
      match find [lineFeed] chunk with
      | none =>
        (r.stream.consume chunk.length).map fun stream =>
          { r with stream }.await { op, text := text ++ chunk }
      | some stop =>
        (r.stream.consume (stop + 1)).map fun stream =>
          { r with stream }.give (.line (some (dropReturn (text ++ chunk.take stop))))
    | .readSome size, some .endOfFile => some (r.give (.atMost size []))
    | .readToEnd, some .endOfFile => some (r.give (.whole text))
    | .readLine, some .endOfFile => some (r.give (.line (if text = [] then none else some text)))
    | _, some err => some (r.give (.failed err))
  | _ => none

/-- The call that waits, given what it waited for. -/
def wake (r : Reader) : Stream × Option Error → Reader
  | (stream, none) => { r with stream }
  | (stream, some err) =>
    { r with stream, call := r.call.map fun call => { call with woken := some err } }

/-- What happens: a call, its reader going on, `consume` between calls, libuv asking for
room, putting the next bytes there and reporting some of them, or the end of the stream. -/
inductive Action where
  | start (op : Op)
  | resume
  | consume (n : Nat)
  | alloc
  | put (n : Nat)
  | land (n : Nat)
  | finish
deriving DecidableEq

/-- One step; none where an assertion fails, or where libuv does what it never does. -/
def step (r : Reader) : Action → Option Reader
  | .start op => r.start op
  | .resume => r.resume
  | .consume n =>
    if r.call.isNone then
      (r.stream.consume n).map fun stream =>
        { r with stream, log := r.log ++ [.dropped (r.stream.use.ring.unread.take n)] }
    else none
  | .alloc => (r.stream.step .alloc).map fun stream => { r with stream }
  | .put n => (r.stream.step (.put (r.input.take n))).map fun stream => { r with stream }
  | .land n =>
    (r.stream.onRead (.ok n)).map fun after => { r with input := r.input.drop n }.wake after
  | .finish =>
    if r.stream.reading ∧ r.input = [] then
      (r.stream.onRead (.error .endOfFile)).map r.wake
    else none


/-! ## Where the bytes are -/

/-- The bytes that no call has given yet: those of the call under way, the unread ones, and
those still to arrive. -/
def pending (r : Reader) : Bytes :=
  r.call.elim [] Call.text ++ (r.stream.use.ring.unread ++ r.input)

end Reader

/-- What holds of a call under way: its text ends no line; it waits on an empty ring, or was
woken by bytes, or by the end of the stream. -/
structure Call.Ok (call : Call) (stream : Stream) (input : Bytes) : Prop where
  line : call.op = .readLine → lineFeed ∉ call.text
  text : call.op ≠ .readLine → call.op ≠ .readToEnd → call.text = []
  waits : call.woken = none → stream.waiting = true ∧ stream.use.ring.unread = [] ∧
    stream.ended = none ∧ stream.reading = true
  bytes : call.woken = some none → stream.waiting = false ∧ stream.use.ring.unread ≠ []
  ends : ∀ err, call.woken = some (some err) → stream.waiting = false ∧ err = .endOfFile ∧
    stream.use.ring.unread = [] ∧ input = []

namespace Reader

/-- The calls so far have read the source up to the bytes that no call has given yet; what
was put into a room arrives next, and nothing does once the stream has ended. -/
structure Valid (source : Bytes) (r : Reader) : Prop where
  stream : r.stream.Valid
  history : History source r.log r.pending
  landing : r.stream.use.filled <+: r.input
  ended : ∀ err, r.stream.ended = some err → err = .endOfFile ∧ r.input = []
  free : r.call = none → r.stream.waiting = false
  call : ∀ call, r.call = some call → call.Ok r.stream r.input

theorem valid_start (source : Bytes) : Valid source { input := source } :=
  ⟨Stream.valid_start, .start, List.nil_prefix, nofun, fun _ => rfl, nofun⟩

theorem unread_eq_nil (h : s.Valid) : s.use.ring.unread = [] ↔ s.use.ring.empty = true := by
  rw [← List.length_eq_zero_iff, Ring.length_unread (Use.Valid.reach h.use).ring, Ring.empty,
    beq_iff_eq]

/-- What can be read at once is the front of the unread bytes, and some of them. -/
theorem readable_spec (h : s.Valid) :
    s.use.ring.readable <+: s.use.ring.unread ∧
      s.use.ring.readable.length ≤ s.use.ring.size ∧
      (s.use.ring.unread ≠ [] → s.use.ring.readable ≠ []) := by
  have hring := (Use.Valid.reach h.use).ring
  have hlength := Ring.length_unread hring
  have hhead := hring.head
  have hreadable := Ring.readable_eq hring
  refine ⟨hreadable ▸ List.take_prefix _ _, ?_, fun hne hnil => ?_⟩
  · rw [hreadable, List.length_take, hlength]
    exact Nat.min_le_right _ _
  · have hpos := List.length_pos_iff.mpr hne
    rw [hnil] at hreadable
    have hzero := congrArg List.length hreadable
    rw [List.length_take, hlength, List.length_nil] at hzero
    omega

theorem fill_cases (h : s.Valid) (hwaiting : s.waiting = false) :
    (s.use.ring.unread ≠ [] ∧ s.fill none = (s, .ready none)) ∨
    (s.use.ring.unread = [] ∧ ∃ err, s.ended = some err ∧ s.fill none = (s, .ready (some err))) ∨
    (s.use.ring.unread = [] ∧ s.ended = none ∧
      s.fill none = ({ s with reading := true, waiting := true }, .wait)) := by
  have hempty := unread_eq_nil h
  unfold Stream.fill
  cases hring : s.use.ring.empty with
  | false =>
    refine .inl ⟨fun hnil => ?_, if_pos rfl⟩
    rw [hempty.mp hnil] at hring
    cases hring
  | true =>
    rw [if_neg nofun]
    cases hended : s.ended with
    | some err => exact .inr (.inl ⟨hempty.mpr hring, err, rfl, if_pos rfl⟩)
    | none =>
      refine .inr (.inr ⟨hempty.mpr hring, rfl, ?_⟩)
      rw [if_neg nofun, if_neg (fun hboth => Bool.false_ne_true hboth.2)]
      dsimp only
      rw [hwaiting, if_neg Bool.false_ne_true]

variable {r r' : Reader} {call : Call} {action : Action} {source : Bytes} {op : Op} {err : Error}

/-- A call that needs bytes goes on at once, or waits. -/
theorem Valid.await (hstream : r.stream.Valid)
    (hhistory : History source r.log (call.text ++ (r.stream.use.ring.unread ++ r.input)))
    (hlanding : r.stream.use.filled <+: r.input)
    (hended : ∀ err, r.stream.ended = some err → err = .endOfFile ∧ r.input = [])
    (hwaiting : r.stream.waiting = false) (hline : call.op = .readLine → lineFeed ∉ call.text)
    (htext : call.op ≠ .readLine → call.op ≠ .readToEnd → call.text = []) :
    (r.await call).Valid source := by
  unfold Reader.await
  obtain ⟨hsome, hfill⟩ | ⟨hnil, err, herr, hfill⟩ | ⟨hnil, hopen, hfill⟩ :=
    fill_cases hstream hwaiting
  · rw [hfill]
    refine ⟨hstream, hhistory, hlanding, hended, nofun, fun c hc => ?_⟩
    cases hc
    exact ⟨hline, htext, nofun, fun _ => ⟨hwaiting, hsome⟩, nofun⟩
  · obtain ⟨rfl, hinput⟩ := hended err herr
    rw [hfill]
    refine ⟨hstream, hhistory, hlanding, hended, nofun, fun c hc => ?_⟩
    cases hc
    refine ⟨hline, htext, nofun, nofun, fun e he => ?_⟩
    obtain rfl := Option.some.inj (Option.some.inj he)
    exact ⟨hwaiting, rfl, hnil, hinput⟩
  · have hvalid : Stream.Valid { r.stream with reading := true, waiting := true } :=
      ⟨hstream.use, fun _ => Stream.not_full_of_empty ((unread_eq_nil hstream).mp hnil)⟩
    rw [hfill]
    refine ⟨hvalid, hhistory, hlanding, hended, nofun, fun c hc => ?_⟩
    cases hc
    exact ⟨hline, htext, fun _ => ⟨rfl, hnil, hopen, rfl⟩, nofun, nofun⟩

/-- The end of a call that took the front of the bytes before it. -/
theorem Valid.give {source before : Bytes} {outcome : Outcome} (hstream : r.stream.Valid)
    (hhistory : History source r.log before)
    (hspells : outcome.Spells before (r.stream.use.ring.unread ++ r.input))
    (hlanding : r.stream.use.filled <+: r.input)
    (hended : ∀ err, r.stream.ended = some err → err = .endOfFile ∧ r.input = [])
    (hwaiting : r.stream.waiting = false) : (r.give outcome).Valid source :=
  ⟨hstream, hhistory.call hspells, hlanding, hended, fun _ => hwaiting, nofun⟩

/-- The loop of `read` takes every unread byte. -/
theorem drain_spec (h : s.Valid) : ∃ use, drain s =
    some ({ s with use }, s.use.ring.unread) ∧ Stream.Valid { s with use } ∧
      use.ring.unread = [] ∧ use.filled = s.use.filled := by
  have hloop : ∃ result, loop drainTurn (s.use.ring.size + 1) (s, []) = some result ∧
      ∃ use, result = some ({ s with use }, s.use.ring.unread) ∧ Stream.Valid { s with use } ∧
        use.ring.unread = [] ∧ use.filled = s.use.filled := by
    refine loop_total (I := fun state => ∃ use, state.1 = { s with use } ∧ state.1.Valid ∧
      state.2 ++ use.ring.unread = s.use.ring.unread ∧ use.filled = s.use.filled)
      (μ := fun state => state.1.use.ring.size) ?_ ?_ ⟨s.use, rfl, h, rfl, rfl⟩
      (Nat.lt_succ_self _)
    · rintro ⟨_, out⟩ state' ⟨use, rfl, hvalid, hall, hfilled⟩ hturn
      dsimp only [drainTurn] at hturn
      split at hturn
      · cases hturn
      · next hempty =>
        obtain ⟨⟨rest, hrest⟩, hle, hsome⟩ := readable_spec hvalid
        obtain ⟨use', hconsume, hvalid', hunread, hfilled'⟩ := hvalid.consume hle
        rw [hconsume] at hturn
        obtain rfl := Sum.inl.inj hturn
        have hne := hsome fun hnil => hempty ((unread_eq_nil hvalid).mp hnil)
        refine ⟨⟨use', rfl, hvalid', ?_, hfilled'.trans hfilled⟩, ?_⟩
        · dsimp only at hrest hunread ⊢
          rw [hunread, ← hrest, List.drop_left, List.append_assoc, hrest, hall]
        · have hsize := congrArg List.length hunread
          rw [List.length_drop, Ring.length_unread (Use.Valid.reach hvalid'.use).ring,
            Ring.length_unread (Use.Valid.reach hvalid.use).ring] at hsize
          have hpos := List.length_pos_iff.mpr hne
          dsimp only at hsize hle hpos ⊢
          omega
    · rintro ⟨_, out⟩ result ⟨use, rfl, hvalid, hall, hfilled⟩ hturn
      dsimp only [drainTurn] at hturn
      split at hturn
      · next hempty =>
        have hnil := (unread_eq_nil hvalid).mpr hempty
        dsimp only at hnil
        rw [hnil, List.append_nil] at hall
        exact ⟨use, by rw [← Sum.inr.inj hturn, ← hall], hvalid, hnil, hfilled⟩
      · obtain ⟨-, hle, -⟩ := readable_spec hvalid
        obtain ⟨use', hconsume, -⟩ := hvalid.consume hle
        rw [hconsume] at hturn
        cases hturn
  obtain ⟨result, hresult, use, rfl, hrest⟩ := hloop
  exact ⟨use, by rw [drain, hresult]; rfl, hrest⟩

/-- Consuming the front of what can be read at once. -/
theorem take_chunk (h : s.Valid) {k : Nat} (hk : k ≤ s.use.ring.readable.length) :
    ∃ use, s.consume k = some { s with use } ∧ Stream.Valid { s with use } ∧
      s.use.ring.readable.take k ++ use.ring.unread = s.use.ring.unread ∧
      use.filled = s.use.filled := by
  obtain ⟨⟨rest, hrest⟩, hle, -⟩ := readable_spec h
  obtain ⟨use, hconsume, hvalid, hunread, hfilled⟩ := h.consume (hk.trans hle)
  refine ⟨use, hconsume, hvalid, ?_, hfilled⟩
  have htake : s.use.ring.readable.take k = s.use.ring.unread.take k := by
    rw [← hrest, List.take_append_of_le_length hk]
  rw [htake, hunread, List.take_append_drop]

/-- How much is left to happen before the call under way ends. -/
def weight (r : Reader) : Nat :=
  3 * r.input.length + 2 * r.stream.use.ring.unread.length + r.stream.waiting.toNat

theorem await_log (r : Reader) (call : Call) : (r.await call).log = r.log := by
  unfold Reader.await
  split <;> rfl

theorem await_weight (r : Reader) (call : Call) :
    (r.await call).weight ≤
      3 * r.input.length + 2 * r.stream.use.ring.unread.length + 1 := by
  have huse := Stream.fill_use r.stream none
  have hbool := Bool.toNat_le (r.await call).stream.waiting
  have hsame : (r.await call).stream.use = r.stream.use ∧ (r.await call).input = r.input := by
    unfold Reader.await
    split
    · next heq =>
      rw [heq] at huse
      exact ⟨huse, rfl⟩
    · next heq =>
      rw [heq] at huse
      exact ⟨huse, rfl⟩
  rw [weight, hsame.1, hsame.2]
  omega

/-- A call that goes on ends, having taken the front of what is pending, or has taken some
bytes and needs more. -/
def Advances (r r' : Reader) (op : Op) : Prop :=
  (r'.call = none ∧ ∃ outcome, r'.log = r.log ++ [outcome] ∧ outcome.Of op) ∨
    (r'.log = r.log ∧ r'.weight < r.weight ∧ ∃ call, r'.call = some call ∧ call.op = op)

theorem await_op (r : Reader) (call : Call) :
    ∃ call', (r.await call).call = some call' ∧ call'.op = call.op := by
  unfold Reader.await
  split <;> exact ⟨_, rfl, rfl⟩

/-- The loops wait again once they have taken the whole chunk. -/
theorem Valid.again (h : r.Valid source) (hcall : r.call = some ⟨op, text, some none⟩)
    (hop : op = .readToEnd ∨ op = .readLine ∧ lineFeed ∉ r.stream.use.ring.readable) :
    ∃ r', (r.stream.consume r.stream.use.ring.readable.length).map (fun stream =>
        { r with stream }.await { op, text := text ++ r.stream.use.ring.readable }) = some r' ∧
      r'.Valid source ∧ r.Advances r' op := by
  have hok := h.call _ hcall
  have hhistory := h.history
  rw [pending, hcall, Option.elim_some] at hhistory
  obtain ⟨hwaiting, hsome⟩ := hok.bytes rfl
  obtain ⟨-, -, hreadable⟩ := readable_spec h.stream
  have hchunk := List.length_pos_iff.mpr (hreadable hsome)
  obtain ⟨use, hconsume, hvalid, hsplit, hfilled⟩ := take_chunk h.stream (Nat.le_refl _)
  rw [List.take_length] at hsplit
  rw [hconsume, Option.map_some]
  refine ⟨_, rfl, Valid.await hvalid ?_ (hfilled ▸ h.landing) h.ended hwaiting ?_ ?_,
    .inr ⟨await_log _ _, ?_, await_op _ _⟩⟩
  · dsimp only
    rw [List.append_assoc, ← List.append_assoc _ use.ring.unread, hsplit]
    exact hhistory
  · rintro rfl
    obtain hop | ⟨-, hnot⟩ := hop
    · cases hop
    · exact fun hmem => (List.mem_append.mp hmem).elim (hok.line rfl) hnot
  · obtain rfl | ⟨rfl, -⟩ := hop
    · exact fun _ hne => absurd rfl hne
    · exact fun hne => absurd rfl hne
  · refine Nat.lt_of_le_of_lt (await_weight _ _) ?_
    dsimp only
    rw [weight, hwaiting, ← hsplit, List.length_append]
    simp only [Bool.toNat_false]
    omega

theorem Valid.resume_bytes (h : r.Valid source) (hcall : r.call = some ⟨op, text, some none⟩) :
    ∃ r', r.resume = some r' ∧ r'.Valid source ∧ r.Advances r' op := by
  have hok := h.call _ hcall
  have hhistory := h.history
  rw [pending, hcall, Option.elim_some] at hhistory
  obtain ⟨hwaiting, hsome⟩ := hok.bytes rfl
  obtain ⟨-, -, hreadable⟩ := readable_spec h.stream
  have hchunk := List.length_pos_iff.mpr (hreadable hsome)
  unfold Reader.resume
  rw [hcall]
  cases op with
  | read =>
    obtain ⟨use, hdrain, hvalid, hnil, hfilled⟩ := drain_spec h.stream
    dsimp only
    rw [hdrain, Option.map_some]
    refine ⟨_, rfl, Valid.give hvalid hhistory ?_ (hfilled ▸ h.landing) h.ended hwaiting,
      .inl ⟨rfl, _, rfl, .inl ⟨_, rfl⟩⟩⟩
    have htext : text = [] := hok.text nofun nofun
    dsimp only
    rw [htext, hnil]
    exact ⟨rfl, hsome⟩
  | readSome size =>
    obtain ⟨use, hconsume, hvalid, hsplit, hfilled⟩ :=
      take_chunk h.stream (Nat.min_le_right size r.stream.use.ring.readable.length)
    dsimp only
    rw [hconsume, Option.map_some]
    refine ⟨_, rfl, Valid.give hvalid hhistory ?_ (hfilled ▸ h.landing) h.ended hwaiting,
      .inl ⟨rfl, _, rfl, _, rfl⟩⟩
    have htext : text = [] := hok.text nofun nofun
    dsimp only
    rw [htext, List.nil_append, ← hsplit, List.append_assoc]
    refine ⟨rfl, ?_, fun htake => .inl ?_⟩
    · rw [List.length_take]
      omega
    · have hzero := congrArg List.length htake
      rw [List.length_take, List.length_nil] at hzero
      omega
  | readChunk =>
    refine ⟨_, rfl, Valid.give h.stream hhistory ?_ h.landing h.ended hwaiting,
      .inl ⟨rfl, _, rfl, .inl ⟨_, rfl⟩⟩⟩
    have htext : text = [] := hok.text nofun nofun
    obtain ⟨hfront, -, -⟩ := readable_spec h.stream
    rw [htext, List.nil_append]
    exact ⟨rfl, hfront.trans (List.prefix_append _ _), hreadable hsome⟩
  | readToEnd => exact h.again hcall (.inl rfl)
  | readLine =>
    dsimp only
    cases hfind : find [lineFeed] r.stream.use.ring.readable with
    | none => exact h.again hcall (.inr ⟨rfl, find_byte_none hfind⟩)
    | some stop =>
      obtain ⟨front, back, hchunk', hfront, rfl⟩ := find_byte_some hfind
      have hle : front.length + 1 ≤ r.stream.use.ring.readable.length := by
        rw [hchunk', List.length_append, List.length_cons]
        omega
      obtain ⟨use, hconsume, hvalid, hsplit, hfilled⟩ := take_chunk h.stream hle
      dsimp only
      rw [hconsume, Option.map_some]
      refine ⟨_, rfl, Valid.give hvalid hhistory ?_ (hfilled ▸ h.landing) h.ended hwaiting,
        .inl ⟨rfl, _, rfl, _, rfl⟩⟩
      have htake : r.stream.use.ring.readable.take (front.length + 1) = front ++ [lineFeed] := by
        rw [hchunk', List.take_length_add_append, List.take_succ_cons, List.take_zero]
      have hline : lineFeed ∉ text ++ front :=
        fun hmem => (List.mem_append.mp hmem).elim (hok.line rfl) hfront
      have hbefore : text ++ (r.stream.use.ring.unread ++ r.input) =
          (text ++ front) ++ lineFeed :: (use.ring.unread ++ r.input) := by
        rw [← hsplit, htake]
        simp only [List.append_assoc, List.cons_append, List.nil_append]
      dsimp only
      rw [hbefore, hchunk', List.take_left]
      exact nextLine_line _ hline

theorem Valid.resume_end {err : Reason} (h : r.Valid source)
    (hcall : r.call = some ⟨op, text, some (some err)⟩) :
    ∃ r', r.resume = some r' ∧ r'.Valid source ∧ r.Advances r' op := by
  have hok := h.call _ hcall
  have hhistory := h.history
  rw [pending, hcall, Option.elim_some] at hhistory
  unfold Reader.resume
  rw [hcall]
  obtain ⟨hwaiting, rfl, hnil, hinput⟩ := hok.ends err rfl
  have hrest : r.stream.use.ring.unread ++ r.input = [] := by rw [hnil, hinput]; rfl
  have hgive : ∀ outcome : Outcome, outcome.Spells text [] → outcome.Of op → ∃ r',
      some (r.give outcome) = some r' ∧ r'.Valid source ∧ r.Advances r' op := by
    intro outcome hspells hof
    refine ⟨_, rfl, Valid.give h.stream hhistory ?_ h.landing h.ended hwaiting,
      .inl ⟨rfl, _, rfl, hof⟩⟩
    rw [hrest, List.append_nil]
    exact hspells
  cases op with
  | read =>
    exact hgive _ ⟨(hok.text nofun nofun).symm, .inr ⟨rfl, hok.text nofun nofun⟩⟩
      (.inr ⟨_, rfl⟩)
  | readSome size =>
    have htext : text = [] := hok.text nofun nofun
    exact hgive _ ⟨htext, Nat.zero_le _, fun _ => .inr htext⟩ ⟨_, rfl⟩
  | readChunk =>
    exact hgive _ ⟨(hok.text nofun nofun).symm, .inr ⟨rfl, hok.text nofun nofun⟩⟩
      (.inr ⟨_, rfl⟩)
  | readToEnd => exact hgive _ ⟨rfl, rfl⟩ ⟨_, rfl⟩
  | readLine =>
    by_cases htext : text = []
    · refine hgive _ ?_ ⟨_, rfl⟩
      rw [if_pos htext]
      exact ⟨htext, rfl⟩
    · refine hgive _ ?_ ⟨_, rfl⟩
      rw [if_neg htext]
      exact nextLine_last (hok.line rfl) htext

theorem Valid.resume (h : r.Valid source) (hcall : r.call = some call)
    (hwoken : call.woken = some err) :
    ∃ r', r.resume = some r' ∧ r'.Valid source ∧ r.Advances r' call.op := by
  obtain ⟨op, text, woken⟩ := call
  obtain rfl : woken = some err := hwoken
  cases err with
  | none => exact h.resume_bytes hcall
  | some err => exact h.resume_end hcall

/-- A call that waits while the stream is told to read makes another one fail. -/
theorem fill_busy (h : s.Valid) (hwaiting : s.waiting = true) (hnil : s.use.ring.unread = [])
    (hended : s.ended = none) (hreading : s.reading = true) :
    s.fill none = (s, .ready (some .resourceBusyOrLocked)) := by
  have hempty := (unread_eq_nil h).mp hnil
  obtain ⟨use, reading, ended, waiting⟩ := s
  obtain rfl : waiting = true := hwaiting
  obtain rfl : reading = true := hreading
  obtain rfl : ended = none := hended
  unfold Stream.fill
  rw [hempty, if_neg nofun, if_neg nofun, if_neg (fun hboth => nomatch hboth.1)]
  rfl

/-- A call starts where the one before it has ended, or fails while it waits. -/
theorem Valid.start (h : r.Valid source) (hstart : r.start op = some r') :
    r'.Valid source := by
  unfold Reader.start at hstart
  split at hstart
  · rw [← Option.some.inj hstart]
    exact ⟨h.stream, h.history.call ⟨rfl, Nat.le_refl _, fun _ => .inl rfl⟩, h.landing, h.ended,
      h.free, h.call⟩
  · split at hstart
    · next hcall =>
      have hhistory := h.history
      rw [pending, hcall] at hhistory
      rw [← Option.some.inj hstart]
      exact Valid.await h.stream hhistory h.landing h.ended (h.free hcall)
        (fun _ => List.not_mem_nil) fun _ _ => rfl
    · next call hcall =>
      split at hstart
      · cases hstart
      · next hwoken =>
        have hnone : call.woken = none := by
          rwa [Bool.not_eq_true, Option.isSome_eq_false_iff, Option.isNone_iff_eq_none] at hwoken
        obtain ⟨hwaiting, hnil, hended, hreading⟩ := (h.call call hcall).waits hnone
        rw [fill_busy h.stream hwaiting hnil hended hreading] at hstart
        rw [← Option.some.inj hstart]
        exact ⟨h.stream, h.history.call ⟨rfl, .inl rfl⟩, h.landing, h.ended, h.free, h.call⟩

/-- What the ring does but a commit or `consume` leaves a call as it is. -/
theorem ok_of_unread {stream : Stream} {input : Bytes} {use : Use} (h : call.Ok stream input)
    (hunread : use.ring.unread = stream.use.ring.unread) : call.Ok { stream with use } input := by
  refine ⟨h.line, h.text, fun hw => ?_, fun hw => ?_, fun err hw => ?_⟩
  · dsimp only
    rw [hunread]
    exact h.waits hw
  · dsimp only
    rw [hunread]
    exact h.bytes hw
  · dsimp only
    rw [hunread]
    exact h.ends err hw

/-- A stream is waited on by the call under way. -/
theorem Valid.waiter (h : r.Valid source) (hwaiting : r.stream.waiting = true) :
    ∃ call, r.call = some call ∧ call.woken = none := by
  cases hcall : r.call with
  | none => cases (h.free hcall).symm.trans hwaiting
  | some call =>
    have hok := h.call call hcall
    refine ⟨call, rfl, ?_⟩
    cases hwoken : call.woken with
    | none => rfl
    | some err =>
      cases err with
      | none => cases (hok.bytes hwoken).1.symm.trans hwaiting
      | some err => cases (hok.ends err hwoken).1.symm.trans hwaiting

/-- Asking for room and filling it leaves the calls alone. -/
theorem Valid.arrive {stream : Stream} {action : Use.Action} (h : r.Valid source)
    (haction : action = .writable ∨ ∃ n, action = .put (r.input.take n))
    (hstep : (r.stream.use.step action).map (fun use => { r.stream with use }) = some stream) :
    Valid source { r with stream } := by
  obtain ⟨use, rfl, hvalid, hunread, hfilled⟩ :=
    h.stream.arrive (haction.imp_right fun ⟨n, hn⟩ => ⟨_, hn⟩) hstep
  refine ⟨hvalid, ?_, ?_, h.ended, h.free,
    fun call hcall => ok_of_unread (h.call call hcall) hunread⟩
  · have hhistory := h.history
    rw [pending] at hhistory ⊢
    dsimp only
    rwa [hunread]
  · obtain ⟨-, hnil⟩ | hput := hfilled
    · dsimp only
      rw [hnil]
      exact List.nil_prefix
    · obtain rfl | ⟨n, rfl⟩ := haction
      · cases hput
      · dsimp only
        rw [← Use.Action.put.inj hput]
        exact List.take_prefix _ _

/-- Bytes that arrive are unread bytes from then on, and wake the call that waits. -/
theorem Valid.land {n : Nat} {after : Stream × Option Error} (h : r.Valid source)
    (hread : r.stream.onRead (.ok n) = some after) :
    ({ r with input := r.input.drop n }.wake after).Valid source := by
  have hvalid := h.stream.onRead hread
  cases n with
  | zero =>
    cases hread
    exact h
  | succ n =>
    obtain ⟨use, reading, huse, rfl⟩ := Stream.onRead_succ hread
    obtain ⟨hunread, hfilled, hn⟩ := h.stream.commit huse
    -- what arrived is the front of the input
    obtain ⟨rest, hrest⟩ := h.landing
    have htake : r.stream.use.filled.take (n + 1) = r.input.take (n + 1) := by
      rw [← hrest, List.take_append_of_le_length hn]
    rw [htake] at hunread
    have hpending : use.ring.unread ++ r.input.drop (n + 1) =
        r.stream.use.ring.unread ++ r.input := by
      rw [hunread, List.append_assoc, List.take_append_drop]
    have hsome : use.ring.unread ≠ [] := by
      have hinput := congrArg List.length hrest
      rw [List.length_append] at hinput
      rw [hunread]
      refine List.ne_nil_of_length_pos ?_
      rw [List.length_append, List.length_take]
      omega
    have hended : ∀ err, r.stream.ended = some err → err = .endOfFile ∧
        r.input.drop (n + 1) = [] := by
      intro err herr
      obtain ⟨heq, hinput⟩ := h.ended err herr
      exact ⟨heq, by rw [hinput, List.drop_nil]⟩
    have hlanding : use.filled <+: r.input.drop (n + 1) := hfilled ▸ List.nil_prefix
    have hhistory := h.history
    rw [pending] at hhistory
    cases hwaiting : r.stream.waiting with
    | true =>
      obtain ⟨call, hcall, hwoken⟩ := h.waiter hwaiting
      obtain ⟨-, -, hopen, -⟩ := (h.call call hcall).waits hwoken
      rw [hwaiting] at hvalid
      rw [if_pos rfl]
      refine ⟨hvalid, ?_, hlanding, hended, fun _ => rfl, fun c hc => ?_⟩
      · rw [hcall] at hhistory
        rw [pending]
        dsimp only [Reader.wake]
        rwa [hcall, hpending]
      · rw [Reader.wake, hcall] at hc
        cases hc
        have hok := h.call call hcall
        refine ⟨hok.line, hok.text, nofun, fun _ => ⟨rfl, hsome⟩, fun err herr => ?_⟩
        cases hopen.symm.trans (Option.some.inj herr)
    | false =>
      rw [hwaiting] at hvalid
      rw [if_neg Bool.false_ne_true]
      refine ⟨hvalid, ?_, hlanding, hended, fun _ => rfl, fun c hc => ?_⟩
      · rw [pending]
        dsimp only [Reader.wake]
        rwa [hpending]
      · have hok := h.call c hc
        refine ⟨hok.line, hok.text, fun hw => ?_, fun _ => ⟨rfl, hsome⟩, fun err hw => ?_⟩
        · cases (hok.waits hw).1.symm.trans hwaiting
        · -- nothing arrives once the stream has ended
          obtain ⟨-, -, hnil, hinput⟩ := hok.ends err hw
          rw [hinput, hnil, List.drop_nil] at hpending
          exact absurd (List.append_eq_nil_iff.mp hpending).1 hsome

/-- The end of the stream wakes the call that waits. -/
theorem Valid.finish (h : r.Valid source) (hinput : r.input = [])
    {after : Stream × Option Error} (hread : r.stream.onRead (.error .endOfFile) = some after) :
    (r.wake after).Valid source := by
  have hvalid := h.stream.onRead hread
  have hafter : after =
      ({ r.stream with reading := false, ended := some .endOfFile, waiting := false },
        if r.stream.waiting then some (some .endOfFile) else none) :=
    (Option.some.inj hread).symm.trans (Prod.ext (Stream.wake_eq _) (Stream.wake_snd _))
  have hhistory := h.history
  rw [pending] at hhistory
  rw [hafter] at hvalid ⊢
  have hended : ∀ err, some Reason.endOfFile = some err → err = .endOfFile ∧ r.input = [] :=
    fun err herr => ⟨(Option.some.inj herr).symm, hinput⟩
  cases hwaiting : r.stream.waiting with
  | true =>
    obtain ⟨call, hcall, hwoken⟩ := h.waiter hwaiting
    obtain ⟨-, hnil, -, -⟩ := (h.call call hcall).waits hwoken
    rw [if_pos rfl]
    refine ⟨hvalid, ?_, h.landing, hended, fun _ => rfl, fun c hc => ?_⟩
    · rw [hcall] at hhistory
      rw [pending]
      dsimp only [Reader.wake]
      rwa [hcall]
    · rw [Reader.wake, hcall] at hc
      cases hc
      have hok := h.call call hcall
      refine ⟨hok.line, hok.text, nofun, nofun, fun err herr => ?_⟩
      exact ⟨rfl, (Option.some.inj (Option.some.inj herr)).symm, hnil, hinput⟩
  | false =>
    rw [if_neg Bool.false_ne_true]
    refine ⟨hvalid, hhistory, h.landing, hended, fun _ => rfl, fun c hc => ?_⟩
    have hok := h.call c hc
    refine ⟨hok.line, hok.text, fun hw => ?_, fun hw => ⟨rfl, (hok.bytes hw).2⟩,
      fun err hw => ⟨rfl, (hok.ends err hw).2⟩⟩
    cases (hok.waits hw).1.symm.trans hwaiting

/-- Every step keeps the bytes where they are to be. -/
theorem Valid.step (h : r.Valid source) (hstep : r.step action = some r') :
    r'.Valid source := by
  cases action with
  | start op => exact h.start hstep
  | resume =>
    cases hcall : r.call with
    | none =>
      rw [Reader.step, Reader.resume, hcall] at hstep
      cases hstep
    | some call =>
      cases hwoken : call.woken with
      | none =>
        obtain ⟨op, text, woken⟩ := call
        obtain rfl : woken = none := hwoken
        rw [Reader.step, Reader.resume, hcall] at hstep
        cases hstep
      | some err =>
        obtain ⟨t, ht, hvalid, -⟩ := h.resume hcall hwoken
        exact Option.some.inj (ht.symm.trans hstep) ▸ hvalid
  | consume n =>
    rw [Reader.step] at hstep
    split at hstep
    · next hnone =>
      have hcall := Option.isNone_iff_eq_none.mp hnone
      obtain ⟨stream, hstream, rfl⟩ := Option.map_eq_some_iff.mp hstep
      obtain ⟨use, huse, -⟩ := Option.map_eq_some_iff.mp hstream
      have hn : n ≤ r.stream.use.ring.size := Use.possible_of_step huse
      obtain ⟨use, hconsume, hvalid, hunread, hfilled⟩ := h.stream.consume hn
      obtain rfl := Option.some.inj (hstream.symm.trans hconsume)
      have hhistory := h.history
      rw [pending, hcall] at hhistory
      have hspells : (Outcome.dropped (r.stream.use.ring.unread.take n)).Spells
          (r.stream.use.ring.unread ++ r.input) (use.ring.unread ++ r.input) := by
        rw [Outcome.Spells, hunread, ← List.append_assoc, List.take_append_drop]
      refine ⟨hvalid, ?_, hfilled ▸ h.landing, h.ended, h.free, fun c hc => ?_⟩
      · rw [pending]
        dsimp only
        rw [hcall]
        exact hhistory.call hspells
      · cases hcall.symm.trans hc
    · cases hstep
  | alloc =>
    obtain ⟨stream, hstream, rfl⟩ := Option.map_eq_some_iff.mp hstep
    rw [Stream.step] at hstream
    split at hstream
    · exact h.arrive (.inl rfl) hstream
    · cases hstream
  | put n =>
    obtain ⟨stream, hstream, rfl⟩ := Option.map_eq_some_iff.mp hstep
    exact h.arrive (.inr ⟨n, rfl⟩) hstream
  | land n =>
    obtain ⟨after, hafter, rfl⟩ := Option.map_eq_some_iff.mp hstep
    exact h.land hafter
  | finish =>
    rw [Reader.step] at hstep
    split at hstep
    · next hall =>
      obtain ⟨after, hafter, rfl⟩ := Option.map_eq_some_iff.mp hstep
      exact h.finish hall.2 hafter
    · cases hstep

theorem Valid.reach (h : Reach Reader.step { input := source } r) :
    r.Valid source :=
  h.invariant (fun hr hstep => hr.step hstep) (valid_start source)

/-! ## Every call ends -/

/-- Asking for room and filling it moves no byte. -/
theorem Valid.same (h : r.Valid source)
    (haction : action = .alloc ∨ ∃ n, action = .put n) (hstep : r.step action = some r') :
    r'.log = r.log ∧ r'.call = r.call ∧ r'.weight = r.weight := by
  have hmoved : ∀ {use : Use.Action} {stream : Stream},
      use = .writable ∨ (∃ bytes, use = .put bytes) →
      (r.stream.use.step use).map (fun use => { r.stream with use }) = some stream →
      Reader.weight { r with stream } = r.weight := by
    intro use stream hmove hmap
    obtain ⟨use', rfl, -, hunread, -⟩ := h.stream.arrive hmove hmap
    rw [weight, weight]
    dsimp only
    rw [hunread]
  obtain rfl | ⟨n, rfl⟩ := haction
  · obtain ⟨stream, hstream, rfl⟩ := Option.map_eq_some_iff.mp hstep
    rw [Stream.step] at hstream
    split at hstream
    · exact ⟨rfl, rfl, hmoved (.inl rfl) hstream⟩
    · cases hstream
  · obtain ⟨stream, hstream, rfl⟩ := Option.map_eq_some_iff.mp hstep
    exact ⟨rfl, rfl, hmoved (.inr ⟨_, rfl⟩) hstream⟩

/-- Bytes that arrive bring the call under way nearer to its end. -/
theorem Valid.land_weight {n : Nat} (h : r.Valid source)
    (hcall : r.call = some call) (hstep : r.step (.land (n + 1)) = some r') :
    r'.log = r.log ∧ r'.weight < r.weight ∧ ∃ call', r'.call = some call' ∧ call'.op = call.op := by
  obtain ⟨after, hread, rfl⟩ := Option.map_eq_some_iff.mp hstep
  obtain ⟨use, reading, huse, rfl⟩ := Stream.onRead_succ hread
  obtain ⟨hunread, -, hn⟩ := h.stream.commit huse
  have hinput := List.IsPrefix.length_le h.landing
  have hweight : ∀ woken, Reader.weight ({ r with input := r.input.drop (n + 1) }.wake
      ({ r.stream with use, reading, waiting := false }, woken)) < r.weight := by
    intro woken
    have hsame : Reader.weight ({ r with input := r.input.drop (n + 1) }.wake
        ({ r.stream with use, reading, waiting := false }, woken)) =
        3 * (r.input.drop (n + 1)).length + 2 * use.ring.unread.length + 0 := by
      cases woken <;> rfl
    rw [hsame, weight, hunread, List.length_drop, List.length_append, List.length_take]
    omega
  refine ⟨?_, hweight _, ?_⟩
  · split <;> rfl
  · split
    · exact ⟨_, congrArg (Option.map _) hcall, rfl⟩
    · exact ⟨call, hcall, rfl⟩

/-- The end of the stream brings the call that waits nearer to its end. -/
theorem finish_weight (hcall : r.call = some call) (hwaiting : r.stream.waiting = true)
    (hstep : r.step .finish = some r') :
    r'.log = r.log ∧ r'.weight < r.weight ∧ ∃ call', r'.call = some call' ∧ call'.op = call.op := by
  rw [Reader.step] at hstep
  split at hstep
  · obtain ⟨after, hread, rfl⟩ := Option.map_eq_some_iff.mp hstep
    have hafter : after =
        ({ r.stream with reading := false, ended := some .endOfFile, waiting := false },
          some (some .endOfFile)) := by
      refine (Option.some.inj hread).symm.trans (Prod.ext (Stream.wake_eq _) ?_)
      rw [Stream.wake_snd]
      exact if_pos hwaiting
    rw [hafter]
    refine ⟨rfl, ?_, _, congrArg (Option.map _) hcall, rfl⟩
    rw [weight, weight, hwaiting]
    exact Nat.lt_succ_self _
  · cases hstep

/-- A call that waits is woken: by the next byte, or by the end of the stream. -/
theorem Valid.arrival (h : r.Valid source) (hcall : r.call = some call)
    (hwoken : call.woken = none) :
    ∃ r', Reach Reader.step r r' ∧ r'.Valid source ∧ r'.log = r.log ∧
      r'.weight < r.weight ∧ ∃ call', r'.call = some call' ∧ call'.op = call.op := by
  obtain ⟨hwaiting, -, -, hreading⟩ := (h.call call hcall).waits hwoken
  cases hinput : r.input with
  | nil =>
    have hstep : ∃ r', r.step .finish = some r' := by
      rw [Reader.step, if_pos ⟨hreading, hinput⟩]
      exact ⟨_, rfl⟩
    obtain ⟨r', hr'⟩ := hstep
    obtain ⟨hlog, hweight, hrest⟩ := finish_weight hcall hwaiting hr'
    exact ⟨r', (Reach.refl _ _).tail hr', h.step hr', hlog, hweight, hrest⟩
  | cons byte rest =>
    obtain ⟨asked, filled, landed, hasked, hfilled, hlanded⟩ :=
      (Use.Valid.reach h.stream.use).takes (h.stream.room hreading) byte
    have halloc : r.step .alloc = some { r with stream := { r.stream with use := asked } } := by
      rw [Reader.step, Stream.step, if_pos hreading, Stream.onAlloc, hasked]
      rfl
    have hput : Reader.step { r with stream := { r.stream with use := asked } } (.put 1) =
        some { r with stream := { r.stream with use := filled } } := by
      rw [Reader.step]
      dsimp only
      rw [hinput, List.take_succ_cons, List.take_zero, Stream.step, hfilled]
      rfl
    have hland : ∃ r', Reader.step { r with stream := { r.stream with use := filled } } (.land 1) =
        some r' := by
      obtain ⟨after, hread⟩ := Stream.onRead_some (s := { r.stream with use := filled }) hlanded
      exact ⟨_, congrArg (Option.map _) hread⟩
    obtain ⟨r', hr'⟩ := hland
    have hvalid := h.step halloc
    have hvalid' := hvalid.step hput
    obtain ⟨hlog, hcalls, hsame⟩ := h.same (.inl rfl) halloc
    obtain ⟨hlog', hcalls', hsame'⟩ := hvalid.same (.inr ⟨1, rfl⟩) hput
    obtain ⟨hlog'', hweight, hrest⟩ := hvalid'.land_weight (hcalls'.trans (hcalls.trans hcall)) hr'
    refine ⟨r', (((Reach.refl _ _).tail halloc).tail hput).tail hr', hvalid'.step hr',
      hlog''.trans (hlog'.trans hlog), ?_, hrest⟩
    exact hweight.trans_eq (hsame'.trans hsame)

/-- However far a call is, it can come to its end. -/
theorem Valid.ends (h : r.Valid source) (hcall : r.call = some call) :
    ∃ r' outcome, Reach Reader.step r r' ∧ r'.Valid source ∧ r'.call = none ∧
      r'.log = r.log ++ [outcome] ∧ outcome.Of call.op := by
  induction hweight : r.weight using Nat.strongRecOn generalizing r call with
  | ind n ih =>
    subst hweight
    cases hwoken : call.woken with
    | none =>
      obtain ⟨t, hreach, hvalid, hlog, hlt, call', hcall', hop⟩ := h.arrival hcall hwoken
      obtain ⟨u, outcome, hreach', hvalid', hnone, hlog', hof⟩ := ih _ hlt hvalid hcall' rfl
      exact ⟨u, outcome, hreach.trans hreach', hvalid', hnone, by rw [hlog', hlog], hop ▸ hof⟩
    | some err =>
      obtain ⟨t, ht, hvalid, hadvances⟩ := h.resume hcall hwoken
      have hreach : Reach Reader.step r t := (Reach.refl _ _).tail (a := .resume) ht
      obtain ⟨hnone, outcome, hlog, hof⟩ | ⟨hlog, hlt, call', hcall', hop⟩ := hadvances
      · exact ⟨t, outcome, hreach, hvalid, hnone, hlog, hof⟩
      · obtain ⟨u, outcome, hreach', hvalid', hnone, hlog', hof⟩ := ih _ hlt hvalid hcall' rfl
        exact ⟨u, outcome, hreach.trans hreach', hvalid', hnone, by rw [hlog', hlog], hop ▸ hof⟩

/-- While a call is under way nothing puts its end off: what a reader does and what arrives
brings it nearer. -/
theorem Valid.bounded (h : r.Valid source) (hcall : r.call = some call)
    (hstep : r.step action = some r') :
    r'.call = none ∨ (r'.weight ≤ r.weight ∧
      (action = .resume ∨ (∃ n, action = .land (n + 1)) → r'.weight < r.weight)) := by
  cases action with
  | start op =>
    rw [Reader.step, Reader.start] at hstep
    refine .inr ⟨?_, nofun⟩
    split at hstep
    · rw [← Option.some.inj hstep]
      exact Nat.le_refl _
    · rw [hcall] at hstep
      dsimp only at hstep
      split at hstep
      · cases hstep
      · split at hstep
        · rw [← Option.some.inj hstep]
          exact Nat.le_refl _
        · cases hstep
  | resume =>
    cases hwoken : call.woken with
    | none =>
      obtain ⟨op, text, woken⟩ := call
      obtain rfl : woken = none := hwoken
      rw [Reader.step, Reader.resume, hcall] at hstep
      cases hstep
    | some err =>
      obtain ⟨t, ht, -, hadvances⟩ := h.resume hcall hwoken
      obtain rfl := Option.some.inj (ht.symm.trans hstep)
      obtain ⟨hnone, -⟩ | ⟨-, hlt, -⟩ := hadvances
      · exact .inl hnone
      · exact .inr ⟨Nat.le_of_lt hlt, fun _ => hlt⟩
  | consume n =>
    rw [Reader.step, hcall] at hstep
    cases hstep
  | alloc =>
    obtain ⟨-, -, hsame⟩ := h.same (.inl rfl) hstep
    exact .inr ⟨Nat.le_of_eq hsame, nofun⟩
  | put n =>
    obtain ⟨-, -, hsame⟩ := h.same (.inr ⟨n, rfl⟩) hstep
    exact .inr ⟨Nat.le_of_eq hsame, nofun⟩
  | land n =>
    cases n with
    | zero =>
      cases hstep
      exact .inr ⟨Nat.le_refl _, nofun⟩
    | succ n =>
      obtain ⟨-, hlt, -⟩ := h.land_weight hcall hstep
      exact .inr ⟨Nat.le_of_lt hlt, fun _ => hlt⟩
  | finish =>
    refine .inr ⟨?_, nofun⟩
    rw [Reader.step] at hstep
    split at hstep
    · obtain ⟨after, hread, rfl⟩ := Option.map_eq_some_iff.mp hstep
      have hafter : after.1 =
          { r.stream with reading := false, ended := some .endOfFile, waiting := false } :=
        (congrArg Prod.fst (Option.some.inj hread)).symm.trans (Stream.wake_eq _)
      have hstream : (r.wake after).stream = after.1 ∧ (r.wake after).input = r.input := by
        obtain ⟨stream, _ | err⟩ := after <;> exact ⟨rfl, rfl⟩
      rw [weight, weight, hstream.1, hstream.2, hafter]
      exact Nat.le_add_right _ _
    · cases hstep

/-! ## What the calls give -/

theorem spells_unique {outcome : Outcome} {before after after' : Bytes}
    (h : outcome.Spells before after) (h' : outcome.Spells before after') : after = after' := by
  cases outcome with
  | bytes out => exact List.append_cancel_left (h.1.symm.trans h'.1)
  | atMost size out => exact List.append_cancel_left (h.1.symm.trans h'.1)
  | whole out => exact h.2.trans h'.2.symm
  | chunk view => exact h.1.trans h'.1.symm
  | line line =>
    cases line with
    | none => exact h.2.trans h'.2.symm
    | some line => exact (Prod.mk.inj (Option.some.inj (h.symm.trans h'))).2
  | failed err => exact h.1.trans h'.1.symm
  | dropped out => exact List.append_cancel_left (h.symm.trans h')

end Reader

namespace History

variable {source : Bytes} {log : List Outcome} {outcome : Outcome} {after after' : Bytes}

theorem concat (h : History source (log ++ [outcome]) after) :
    ∃ before, History source log before ∧ outcome.Spells before after := by
  generalize hall : log ++ [outcome] = all at h
  cases h with
  | start => exact absurd hall (List.concat_ne_nil _ _)
  | call hbefore hspells =>
    obtain ⟨rfl, hlast⟩ := List.append_inj' hall rfl
    obtain rfl := List.head_eq_of_cons_eq hlast
    exact ⟨_, hbefore, hspells⟩

/-- What some calls leave of a stream is what they have given. -/
theorem unique (h : History source log after) (h' : History source log after') :
    after = after' := by
  induction h generalizing after' with
  | start =>
    generalize hnil : ([] : List Outcome) = log at h'
    cases h' with
    | start => rfl
    | call _ _ => exact absurd hnil.symm (List.concat_ne_nil _ _)
  | call _ hspells ih =>
    obtain ⟨before, hbefore, hspells'⟩ := h'.concat
    obtain rfl := ih hbefore
    exact Reader.spells_unique hspells hspells'

/-- Calls that gave lines gave the first lines of the stream. -/
theorem lines_eq {texts : List Bytes}
    (h : History source (texts.map fun text => .line (some text)) after) :
    lines source = texts ++ lines after := by
  induction texts using List.reverseRecOn generalizing after with
  | nil =>
    have hsame : source = after := History.start.unique h
    rw [hsame, List.nil_append]
  | append_singleton texts text ih =>
    rw [List.map_append, List.map_singleton] at h
    obtain ⟨before, hbefore, hspells⟩ := h.concat
    rw [ih hbefore, lines_nextLine hspells, List.append_assoc, List.singleton_append]

end History

namespace Reader

/-- Calls of `read_line` until one gives nothing give the lines that are left. -/
theorem Valid.reads {source : Bytes} (h : r.Valid source) (hcall : r.call = none) :
    ∃ r', Reach Reader.step r r' ∧ r'.call = none ∧
      r'.log = r.log ++ (lines r.pending).map (fun text => .line (some text)) ++ [.line none] := by
  induction hlength : r.pending.length using Nat.strongRecOn generalizing r with
  | ind n ih =>
    subst hlength
    have hstart : r.step (.start .readLine) = some (r.await { op := .readLine }) := by
      rw [Reader.step, Reader.start, if_neg nofun, hcall]
    obtain ⟨call, hawaits, hop⟩ := await_op r { op := .readLine }
    obtain ⟨t, outcome, hreach, hvalid, hnone, hlog, hof⟩ := (h.step hstart).ends hawaits
    rw [hop] at hof
    rw [await_log] at hlog
    obtain ⟨line, rfl⟩ := hof
    have hreach' : Reach Reader.step r t := Reach.trans ((Reach.refl _ _).tail hstart) hreach
    have hhistory := hvalid.history
    rw [hlog] at hhistory
    obtain ⟨before, hbefore, hspells⟩ := hhistory.concat
    obtain rfl := hbefore.unique h.history
    cases line with
    | none =>
      refine ⟨t, hreach', hnone, ?_⟩
      rw [hlog, show r.pending = [] from hspells.1, lines_nil, List.map_nil, List.append_nil]
    | some text =>
      obtain ⟨u, hreach'', hnone', hlog'⟩ := ih _ (nextLine_lt hspells) hvalid hnone rfl
      refine ⟨u, hreach'.trans hreach'', hnone', ?_⟩
      rw [hlog', hlog, lines_nextLine hspells, List.map_cons, List.append_assoc r.log,
        List.singleton_append]

/-- However a stream arrives and is read: each call has given what the bytes it found pending
say, and left the rest in order; lines that end with nothing are the lines of the stream; a
call under way never fails an assertion, is brought to its end by its reader and by what
arrives, and can come to it; and calls of `read_line` then give the lines that are left. -/
theorem reader_spec {source : Bytes} {r : Reader}
    (h : Reach Reader.step { input := source } r) :
    History source r.log r.pending ∧
      (∀ texts : List Bytes,
        r.log = (texts.map fun text => .line (some text)) ++ [.line none] →
        texts = lines source) ∧
      (∀ call, r.call = some call →
        (call.woken ≠ none → ∃ r', r.step .resume = some r' ∧ r.Advances r' call.op) ∧
        (∀ action r', r.step action = some r' → r'.call = none ∨ (r'.weight ≤ r.weight ∧
          (action = .resume ∨ (∃ n, action = .land (n + 1)) → r'.weight < r.weight))) ∧
        ∃ r' outcome, Reach Reader.step r r' ∧ r'.call = none ∧ r'.log = r.log ++ [outcome] ∧
          outcome.Of call.op) ∧
      (r.call = none → ∃ r', Reach Reader.step r r' ∧ r'.call = none ∧
        r'.log = r.log ++ (lines r.pending).map (fun text => .line (some text)) ++
          [.line none]) := by
  have hvalid := Valid.reach h
  refine ⟨hvalid.history, fun texts hlog => ?_, fun call hcall => ⟨fun hwoken => ?_,
    fun action r' hstep => hvalid.bounded hcall hstep, ?_⟩, hvalid.reads⟩
  · have hhistory := hvalid.history
    rw [hlog] at hhistory
    obtain ⟨before, hbefore, hnil, -⟩ := hhistory.concat
    rw [hbefore.lines_eq, hnil, lines_nil, List.append_nil]
  · obtain ⟨err, hsome⟩ := Option.ne_none_iff_exists'.mp hwoken
    obtain ⟨t, ht, -, hadvances⟩ := hvalid.resume hcall hsome
    exact ⟨t, ht, hadvances⟩
  · obtain ⟨t, outcome, hreach, -, hnone, hlog, hof⟩ := hvalid.ends hcall
    exact ⟨t, outcome, hreach, hnone, hlog, hof⟩

/-- A line whose end is cut between two chunks, and the text after it. -/
def cutLine : List Action :=
  [.start .readLine, .alloc, .put 2, .land 2, .resume, .alloc, .put 2, .land 2, .resume,
    .start .readLine, .resume, .finish, .resume, .start .readLine, .resume]

theorem reader_spec_cutLine : ∃ r : Reader,
    run step { input := [97, carriageReturn, lineFeed, 98] } cutLine = some r ∧
      r.log = ([[97], [98]].map fun text => .line (some text)) ++ [.line none] ∧
      [[97], [98]] = lines [97, carriageReturn, lineFeed, 98] := by
  have hsome : (run Reader.step { input := [97, carriageReturn, lineFeed, 98] }
    cutLine).isSome = true := rfl
  have hlog : ((run Reader.step { input := [97, carriageReturn, lineFeed, 98] } cutLine).get
    hsome).log = ([[97], [98]].map fun text => .line (some text)) ++ [.line none] := rfl
  exact ⟨_, (Option.some_get hsome).symm, hlog,
    (reader_spec (Reach.of_isSome cutLine hsome)).2.1 _ hlog⟩

end Reader

end Kotatsu.Async.Io
