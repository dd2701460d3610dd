import Kotatsu.Ipc.Codec.Bincode
import Kotatsu.Ipc.Framing.Delivery

/-!
# Messages from one end of a connection to the other

What is encoded, framed, cut anywhere and put together again is read as what it was.
-/

namespace Kotatsu.Ipc

open Kotatsu.Core Kotatsu.Ipc.Codec.BincodeCodec

/-- What comes of a message sent as a payload: within the limit it is read, and over it its
size is told, and its beginning tells its kind and id or nothing. -/
def Arrives (maxPayload : Nat) (sent : Message × Payload) : Frame → Prop
  | .payload bytes => sent.2.bytes.length ≤ maxPayload ∧ bytes = sent.2.bytes ∧
    sent.1.ReadAs bytes (parseMessage bytes)
  | .error why => maxPayload < sent.2.bytes.length ∧ why.kind = .oversized ∧
    why.size = sent.2.bytes.length ∧ why.skippedPrefix = sent.2.bytes.take skippedPrefixSize ∧
    (peek why.skippedPrefix = {} ∨ peek why.skippedPrefix = sent.1.head)

theorem arrives_delivered {maxPayload : Nat} {m : Message} {x : Payload} (hf : m.Fits)
    (h : m.encode = .ok x.bytes) : Arrives maxPayload (m, x) (x.delivered maxPayload) := by
  have hread : m.ReadAs x.bytes (parseMessage x.bytes) ∧
      ∀ first, first <+: x.bytes → peek first = {} ∨ peek first = m.head := by
    cases m with
    | request id method params =>
      obtain ⟨hpeek, -, slice, hcovers, hparse⟩ := message_read (p := .request id method) hf h
      exact ⟨⟨slice, hparse, hcovers⟩, hpeek⟩
    | notification method params =>
      obtain ⟨hpeek, -, slice, hcovers, hparse⟩ := message_read (p := .notification method) hf h
      exact ⟨⟨slice, hparse, hcovers⟩, hpeek⟩
    | success id result =>
      obtain ⟨hpeek, -, slice, hcovers, hparse⟩ := message_read (p := .success id) hf h
      exact ⟨⟨slice, hparse, hcovers⟩, hpeek⟩
    | error id e =>
      refine ⟨parseMessage_error h hf, fun first hfirst => ?_⟩
      obtain ⟨hid, hbytes⟩ := encodeErrorResponse_ok h
      rw [hbytes, ← List.append_assoc] at hfirst
      exact peek_beginning (reads_errorHead hid) hfirst
  rw [Payload.delivered]
  split
  · next hle => exact ⟨hle, rfl, hread.1⟩
  · next hover =>
    have hprefix : x.bytes.take (min x.bytes.length skippedPrefixSize) =
        x.bytes.take skippedPrefixSize := by
      rw [Nat.min_comm, List.take_eq_take_min.symm]
    exact ⟨Nat.lt_of_not_le hover, rfl, rfl, hprefix, hread.2 _ (List.take_prefix _ _)⟩

/-- Messages sent one after another arrive in order and once each, however their bytes are cut:
those within the limit are read, and one that is over it, and no other, is told of instead. -/
theorem messages_arrive {maxPayload : Nat} {messages : List Message} {payloads : List Payload}
    {chunks : List Bytes}
    (hsent : List.Forall₂ (fun m x => m.Fits ∧ m.encode = .ok x.bytes) messages payloads)
    (hcut : chunks.flatten = (payloads.map Payload.frame).flatten) :
    ∃ t, readChunks (.new maxPayload) chunks = some t ∧
      List.Forall₂ (Arrives maxPayload) (messages.zip payloads) (t.results.map Prod.snd) := by
  have hidle : (FrameParser.new maxPayload).Idle := ⟨rfl, rfl⟩
  obtain ⟨t, ht, hres, -⟩ := scan_frames payloads hidle 0
  refine ⟨t, ?_, ?_⟩
  · rw [readChunks, FrameParser.incremental.drive_eq_scan chunks hidle.sound, hcut, ht]
  · rw [hres]
    clear hcut ht hres
    induction hsent with
    | nil => exact .nil
    | cons h _ ih => exact .cons (arrives_delivered h.1 h.2) ih

/-- A notification without params, encoded. -/
def notified : Payload := ⟨[1, 0, 0, 0, 1, 109], by decide⟩

/-- It arrives, cut inside its header. -/
theorem messages_arrive_cut : ∃ t,
    readChunks (.new 8) [ascii "Content-", ascii "Length: 6\r\n\r\n" ++ [1, 0, 0, 0, 1, 109]] =
      some t ∧ List.Forall₂ (Arrives 8) ([.notification (ascii "m") .none].zip [notified])
        (t.results.map Prod.snd) := by
  refine messages_arrive (.cons (b := notified) ⟨show 1 < 2 ^ 64 by decide, rfl⟩ .nil) ?_
  decide +kernel

end Kotatsu.Ipc
