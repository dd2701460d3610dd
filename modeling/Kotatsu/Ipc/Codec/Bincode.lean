import Kotatsu.Codec.Bincode.Beginning
import Kotatsu.Ipc.Codec.Message

/-!
# Messages in bincode

A message is the index of its kind, the kind's fields and, but for an error, its
params or result, which take the rest of the payload. The writer knows the three
kinds that have a rest, the reader all four with all their fields, and `peek` only
the fields that tell a kind and an id. An `Encoder` stands for what a program gives
as params or result.
-/

namespace Kotatsu.Ipc.Codec

open Kotatsu.Core
open Kotatsu.Codec.Bincode

namespace BincodeCodec

/-! ## Errors -/

/-- `rich_error::format_path`. -/
def formatPath (path : List PathSegment) : Bytes :=
  (path.zipIdx.map fun (segment, i) =>
    match segment with
    | .field name => (if i > 0 then ascii "." else []) ++ name
    | .index n => ascii "[" ++ decimal n ++ ascii "]").flatten

/-- `rich_error::to_string`. -/
def errorText (e : RichError) : Bytes :=
  if e.message = [] then []
  else e.message ++ if formatPath e.path = [] then [] else ascii " at " ++ formatPath e.path

/-- `codec_error`. -/
def codecError (code : SignedInt .w32) (e : RichError) : Error := ⟨code, errorText e, none⟩

/-- A field that cannot be written, by its name. -/
def encodeField (name : String) (r : Except RichError Writer) : Except RichError Writer :=
  r.mapError fun e => { e with path := .field (ascii name) :: e.path }

/-! ## Writing -/

/-- What writes a value: it fails, or adds bytes after those there are. -/
structure Encoder where
  run : Writer → Except RichError Writer
  appends : ∀ w w', run w = .ok w' → ∃ bs, w'.written = w.written ++ bs

/-- No params. -/
def Encoder.none : Encoder where
  run := .ok
  appends := fun w w' h => ⟨[], by rw [List.append_nil, Except.ok.inj h]⟩

/-- A `raw_value`, which is taken to be bincode already. -/
def Encoder.raw (data : Bytes) : Encoder where
  run := fun w => .ok (w.put data)
  appends := by
    intro w w' h
    cases h
    exact ⟨data, w.written_put data⟩

/-- A value of a type. -/
def Encoder.value (it : Iteration) (t : Ty) (v : t.Val) : Encoder where
  run := fun w => .ok (encode it t w v)
  appends := by
    intro w w' h
    cases h
    exact ⟨t.layout it v, written_encode it t w v⟩

/-- `serialize_visit<Writer, RequestID>`. -/
def encodeRequestId (w : Writer) : RequestId → Except RichError Writer
  | .number n => .ok (w.visitInt n.val)
  | .text _ => .error { message := ascii "bincode requires integer request ID" }

/-- `message_prefix`, a message's fields before its params or result. -/
inductive MessagePrefix where
  | request (id : RequestId) (method : Bytes)
  | notification (method : Bytes)
  | success (id : RequestId)

/-- The index of a kind and its fields. -/
def encodeMessagePrefix (w : Writer) : MessagePrefix → Except RichError Writer
  | .request id method => do
    let w ← encodeField "id" (encodeRequestId (w.visitVariant 0 fun w => w) id)
    pure (w.visitStr method)
  | .notification method => .ok (w.visitVariant 1 fun w => w.visitStr method)
  | .success id => encodeField "id" (encodeRequestId (w.visitVariant 2 fun w => w) id)

/-- `message`: the prefix, then the value written after it. -/
def message (p : MessagePrefix) (value : Encoder) : Except Error Bytes :=
  match encodeMessagePrefix Writer.new p >>= value.run with
  | .error e => .error (codecError internalError e)
  | .ok w => .ok w.written

def encodeRequest (id : RequestId) (method : Bytes) (params : Encoder) : Except Error Bytes :=
  message (.request id method) params

def encodeNotification (method : Bytes) (params : Encoder) : Except Error Bytes :=
  message (.notification method) params

def encodeSuccessResponse (id : RequestId) (result : Encoder) : Except Error Bytes :=
  message (.success id) result

/-- The id of an error, which may have none. -/
def encodeOptionalId (w : Writer) : Option RequestId → Except RichError Writer
  | some id => encodeRequestId (w.writeU8 0x01) id
  | none => .ok w.visitNull

/-- The data of an error, which may have none. -/
def encodeOptionalData (w : Writer) : Option Dyn → Writer
  | some data => w.visitSome (encodeDyn data)
  | none => w.visitNull

def encodeErrorResponse (id : Option RequestId) (error : Error) : Except Error Bytes :=
  match encodeField "id" (encodeOptionalId (Writer.new.visitVariant 3 fun w => w) id) with
  | .error e => .error (codecError internalError e)
  | .ok w =>
    let w := encodeOptionalData ((w.visitInt error.code.val).visitStr error.message) error.data
    .ok (resize w.buf w.size)

/-! ## Reading -/

/-- `deserialize_visit<Reader, RequestID>`. -/
def decodeRequestId : Decode RequestId := do
  let n ← visitInt .w64
  pure (.number n)

/-- A field, by its name where it cannot be read. -/
def decodeField {α : Type} (name : String) (d : Decode α) : Decode α :=
  tracePath (.field (ascii name)) d

/-- `message_envelope`. -/
inductive MessageEnvelope where
  | request (id : RequestId) (method : Bytes)
  | notification (method : Bytes)
  | success (id : RequestId)
  | error (id : Option RequestId) (code : SignedInt .w32) (message : Bytes) (data : Option Dyn)

/-- The fields of the kind at an index. -/
def decodeMessageEnvelope : Decode MessageEnvelope :=
  visitVariant fun index =>
    if index = 0 then do
      let id ← decodeField "id" decodeRequestId
      let method ← decodeField "method" visitStr
      pure (.request id method)
    else if index = 1 then do
      let method ← decodeField "method" visitStr
      pure (.notification method)
    else if index = 2 then do
      let id ← decodeField "id" decodeRequestId
      pure (.success id)
    else if index = 3 then do
      let id ← decodeField "id" (visitOption decodeRequestId)
      let code ← decodeField "code" (visitInt .w32)
      let message ← decodeField "message" visitStr
      let data ← decodeField "data" (visitOption visitDyn)
      pure (.error id code message data)
    else fail (invalidVariantIndex index)

/-- What a failed read reports; it never touches a byte outside the payload. -/
def readError : Fault RichError → RichError
  | .error e => e
  | .outOfBounds => {}

/-- `parse_message`. -/
def parseMessage (payload : Bytes) : IncomingMessage :=
  match decodeMessageEnvelope ⟨payload, 0⟩ with
  | .error e => .parseError none (codecError Codec.parseError (readError e)) false
  | .ok (envelope, reader) =>
    let rest : PayloadSlice := ⟨payload, reader.pos, payload.length - reader.pos⟩
    match envelope with
    | .request id method => .request id method rest
    | .notification method => .notification method rest
    | .success id => .response id rest
    | .error id code message data =>
      if reader.pos ≠ payload.length then
        .parseError none ⟨Codec.parseError, ascii "trailing bytes", none⟩ false
      else .errorResponse id ⟨code, message, data⟩ false

/-- `envelope_head`, the envelopes' first fields. -/
inductive EnvelopeHead where
  | request (id : RequestId)
  | notification
  | success (id : RequestId)
  | error (id : Option RequestId)

def decodeEnvelopeHead : Decode EnvelopeHead :=
  visitVariant fun index =>
    if index = 0 then do
      let id ← decodeField "id" decodeRequestId
      pure (.request id)
    else if index = 1 then pure .notification
    else if index = 2 then do
      let id ← decodeField "id" decodeRequestId
      pure (.success id)
    else if index = 3 then do
      let id ← decodeField "id" (visitOption decodeRequestId)
      pure (.error id)
    else fail (invalidVariantIndex index)

/-- What a head tells of its message. -/
def EnvelopeHead.messageHead : EnvelopeHead → MessageHead
  | .request id => { kind := .request, id := some id }
  | .notification => { kind := .notification }
  | .success id => { kind := .response, id := some id }
  | .error id => { kind := .response, id := id }

/-- `peek`. -/
def peek (first : Bytes) : MessageHead :=
  match decodeEnvelopeHead ⟨first, 0⟩ with
  | .error _ => {}
  | .ok (head, _) => head.messageHead

/-! ## The bytes of a message -/

/-- The bytes of an integer id. -/
def idBytes : RequestId → Bytes
  | .number n => intBytes n.val
  | .text _ => []

/-- The bytes of an error's id. -/
def optionalIdBytes : Option RequestId → Bytes
  | some id => 1 :: idBytes id
  | none => [0]

/-- The bytes of an error's data. -/
def optionalDataBytes : Option Dyn → Bytes
  | some data => 1 :: data.layout
  | none => [0]

/-- The bytes of a message before its params or result. -/
def MessagePrefix.layout : MessagePrefix → Bytes
  | .request id method => leBytes 4 0 ++ (idBytes id ++ blobBytes method)
  | .notification method => leBytes 4 1 ++ blobBytes method
  | .success id => leBytes 4 2 ++ idBytes id

theorem encodeRequestId_ok {w w' : Writer} {id : RequestId} (h : encodeRequestId w id = .ok w') :
    (∃ n, id = .number n) ∧ w'.written = w.written ++ idBytes id := by
  cases id with
  | number n =>
    cases h
    exact ⟨⟨n, rfl⟩, w.written_writeLe _ _⟩
  | text s => cases h

variable {w : Writer} {p : MessagePrefix} {payload : Bytes} {id : Option RequestId} {error : Error}

theorem encodeField_ok {name : String} {r : Except RichError Writer} :
    encodeField name r = .ok w ↔ r = .ok w := by
  cases r with
  | error e =>
    constructor <;> intro h <;> cases h
  | ok w' => exact Iff.rfl

/-- The ids are integers, and the method's size is one a `size_t` holds. -/
def MessagePrefix.Writable : MessagePrefix → Prop
  | .request id method => (∃ n, id = .number n) ∧ method.length < 2 ^ 64
  | .notification method => method.length < 2 ^ 64
  | .success id => ∃ n, id = .number n

/-- The method's size is one a `size_t` holds. -/
def MessagePrefix.Fits : MessagePrefix → Prop
  | .request _ method => method.length < 2 ^ 64
  | .notification method => method.length < 2 ^ 64
  | .success _ => True

theorem encodeMessagePrefix_ok {w w' : Writer} {p : MessagePrefix}
    (h : encodeMessagePrefix w p = .ok w') (hf : p.Fits) :
    p.Writable ∧ w'.written = w.written ++ p.layout := by
  cases p with
  | request id method =>
    cases hid : encodeField "id" (encodeRequestId (w.visitVariant 0 fun w => w) id) with
    | error e =>
      rw [encodeMessagePrefix, hid] at h
      cases h
    | ok w₁ =>
      rw [encodeMessagePrefix, hid] at h
      cases h
      obtain ⟨hn, hwritten⟩ := encodeRequestId_ok (encodeField_ok.mp hid)
      refine ⟨⟨hn, hf⟩, ?_⟩
      rw [Writer.visitStr, Writer.written_writeBlob, hwritten, Writer.visitVariant,
        Writer.written_writeLe, List.append_assoc, List.append_assoc]
      rfl
  | notification method =>
    cases h
    refine ⟨hf, ?_⟩
    rw [Writer.visitVariant, Writer.visitStr, Writer.written_writeBlob, Writer.written_writeLe,
      List.append_assoc]
    rfl
  | success id =>
    obtain ⟨hn, hwritten⟩ := encodeRequestId_ok (encodeField_ok.mp h)
    refine ⟨hn, ?_⟩
    rw [hwritten, Writer.visitVariant, Writer.written_writeLe, List.append_assoc]
    rfl

/-- A message is its prefix and what the encoder added. -/
theorem message_ok {value : Encoder} (h : message p value = .ok payload) (hf : p.Fits) :
    p.Writable ∧ ∃ w w' body, encodeMessagePrefix Writer.new p = .ok w ∧ value.run w = .ok w' ∧
      w.written = p.layout ∧ w'.written = w.written ++ body ∧ payload = p.layout ++ body := by
  unfold message at h
  cases hp : encodeMessagePrefix Writer.new p with
  | error e =>
    rw [hp] at h
    cases h
  | ok w =>
    cases hv : value.run w with
    | error e =>
      have hbind : encodeMessagePrefix Writer.new p >>= value.run = .error e := by
        rw [hp]
        exact hv
      rw [hbind] at h
      cases h
    | ok w' =>
      have hbind : encodeMessagePrefix Writer.new p >>= value.run = .ok w' := by
        rw [hp]
        exact hv
      rw [hbind] at h
      cases h
      obtain ⟨hw, hwritten⟩ := encodeMessagePrefix_ok hp hf
      obtain ⟨body, hbody⟩ := value.appends w w' hv
      have hlayout : w.written = p.layout := hwritten
      refine ⟨hw, w, w', body, rfl, hv, hlayout, hbody, ?_⟩
      rw [hbody, hlayout]

theorem encodeErrorResponse_ok (h : encodeErrorResponse id error = .ok payload) :
    (∀ i, id = some i → ∃ n, i = .number n) ∧
    payload = leBytes 4 3 ++ (optionalIdBytes id ++ (intBytes error.code.val ++
      (blobBytes error.message ++ optionalDataBytes error.data))) := by
  unfold encodeErrorResponse at h
  cases hid : encodeField "id" (encodeOptionalId (Writer.new.visitVariant 3 fun w => w) id) with
  | error e =>
    rw [hid] at h
    cases h
  | ok w =>
    rw [hid] at h
    have hw : (∀ i, id = some i → ∃ n, i = .number n) ∧
        w.written = leBytes 4 3 ++ optionalIdBytes id := by
      have hopt := encodeField_ok.mp hid
      cases id with
      | none =>
        cases hopt
        refine ⟨fun _ hi => absurd hi (Option.some_ne_none _).symm, ?_⟩
        rw [Writer.visitNull, Writer.written_writeU8, Writer.visitVariant, Writer.written_writeLe]
        rfl
      | some i =>
        obtain ⟨hn, hwritten⟩ := encodeRequestId_ok hopt
        refine ⟨fun j hj => Option.some.inj hj ▸ hn, ?_⟩
        rw [hwritten, Writer.written_writeU8, Writer.visitVariant, Writer.written_writeLe,
          List.append_assoc]
        rfl
    have hdata : ∀ (w : Writer) (data : Option Dyn),
        (encodeOptionalData w data).written = w.written ++ optionalDataBytes data := by
      intro w data
      cases data with
      | none => exact Writer.written_writeU8 _ _
      | some v => exact Writer.written_visitSome fun w => written_encodeDyn v w
    refine ⟨hw.1, ?_⟩
    rw [← Except.ok.inj h, Writer.resize_size, hdata, Writer.visitStr, Writer.written_writeBlob,
      Writer.visitInt, Writer.written_writeLe, hw.2]
    simp only [List.append_assoc, intBytes]

/-! ## What is written is read -/

theorem reads_decodeRequestId {id : RequestId} (h : ∃ n, id = .number n) :
    Reads decodeRequestId (idBytes id) id := by
  obtain ⟨n, rfl⟩ := h
  exact Reads.bind_pure (reads_visitInt n)

theorem reads_optionalId (h : ∀ i, id = some i → ∃ n, i = .number n) :
    Reads (visitOption decodeRequestId) (optionalIdBytes id) id := by
  cases id with
  | none => exact reads_visitOption_none _
  | some i => exact reads_visitOption_some (reads_decodeRequestId (h i rfl))

theorem reads_kind {α : Type} {body : Nat → Decode α} {bs : Bytes} {a : α} (index : Nat)
    (hi : index < 2 ^ 32) (h : Reads (body index) bs a) :
    Reads (visitVariant body) (leBytes 4 index ++ bs) a := by
  have hread := reads_visitVariant body hi h
  rwa [Nat.mod_eq_of_lt hi] at hread

/-- What the reader makes of a prefix. -/
def MessagePrefix.envelope : MessagePrefix → MessageEnvelope
  | .request id method => .request id method
  | .notification method => .notification method
  | .success id => .success id

/-- What `peek` makes of a prefix. -/
def MessagePrefix.head : MessagePrefix → EnvelopeHead
  | .request id _ => .request id
  | .notification _ => .notification
  | .success id => .success id

theorem reads_envelope (h : p.Writable) : Reads decodeMessageEnvelope p.layout p.envelope := by
  cases p with
  | request id method =>
    exact reads_kind 0 (by decide) (Reads.bind (reads_decodeRequestId h.1).mapError
      (Reads.bind_pure (reads_visitBlob h.2).mapError))
  | notification method =>
    exact reads_kind 1 (by decide) (Reads.bind_pure (reads_visitBlob h).mapError)
  | success id =>
    exact reads_kind 2 (by decide) (Reads.bind_pure (reads_decodeRequestId h).mapError)

/-- The first fields of a prefix stand at its beginning. -/
theorem reads_head (h : p.Writable) :
    ∃ first rest, p.layout = first ++ rest ∧ Reads decodeEnvelopeHead first p.head := by
  cases p with
  | request id method =>
    refine ⟨leBytes 4 0 ++ idBytes id, blobBytes method, (List.append_assoc ..).symm, ?_⟩
    exact reads_kind 0 (by decide) (Reads.bind_pure (reads_decodeRequestId h.1).mapError)
  | notification method =>
    refine ⟨leBytes 4 1 ++ [], blobBytes method, by rw [List.append_nil]; rfl, ?_⟩
    exact reads_kind 1 (by decide) (Reads.pure _)
  | success id =>
    refine ⟨leBytes 4 2 ++ idBytes id, [], (List.append_nil _).symm, ?_⟩
    exact reads_kind 2 (by decide) (Reads.bind_pure (reads_decodeRequestId h).mapError)

theorem extends_decodeEnvelopeHead : Extends decodeEnvelopeHead := by
  have hid : Extends decodeRequestId := Extends.bind (extends_visitNarrow _) fun _ => Extends.pure _
  refine extends_visitVariant fun index => ?_
  exact Extends.ite (Extends.bind hid.mapError fun _ => Extends.pure _) <|
    Extends.ite (Extends.pure _) <|
    Extends.ite (Extends.bind hid.mapError fun _ => Extends.pure _) <|
    Extends.ite (Extends.bind (extends_visitOption hid).mapError fun _ => Extends.pure _)
      (Extends.fail _)

/-- Whatever beginning of a message it is given, `peek` knows nothing or the head. -/
theorem peek_beginning {first rest p : Bytes} {head : EnvelopeHead}
    (hread : Reads decodeEnvelopeHead first head) (hp : p <+: first ++ rest) :
    peek p = {} ∨ peek p = head.messageHead := by
  cases hd : decodeEnvelopeHead ⟨p, 0⟩ with
  | error e => exact .inl (by rw [peek, hd])
  | ok r =>
    obtain ⟨head', c⟩ := r
    have heq := extends_decodeEnvelopeHead.eq_of_reads hread hp hd
    exact .inr (by rw [peek, hd, heq])

theorem peek_whole {first rest : Bytes} {head : EnvelopeHead}
    (hread : Reads decodeEnvelopeHead first head) : peek (first ++ rest) = head.messageHead := by
  obtain ⟨c, hd, -⟩ := hread.drop_eq rest
  rw [peek, hd]

/-- The message of a prefix and what comes after it. -/
def MessagePrefix.incoming : MessagePrefix → PayloadSlice → IncomingMessage
  | .request id method, rest => .request id method rest
  | .notification method, rest => .notification method rest
  | .success id, rest => .response id rest

theorem parseMessage_rest (h : p.Writable) (body : Bytes) :
    parseMessage (p.layout ++ body) =
      p.incoming ⟨p.layout ++ body, p.layout.length, body.length⟩ := by
  have hread := reads_envelope h [] body
  simp only [List.nil_append, List.length_nil, Nat.zero_add] at hread
  have hsize : (p.layout ++ body).length - p.layout.length = body.length := by
    rw [List.length_append, Nat.add_sub_cancel_left]
  rw [parseMessage, hread]
  dsimp only
  rw [hsize]
  cases p <;> rfl

/-- The size of an error's message is one a `size_t` holds, as are those in its data, which nests
below the decoder's limit. -/
def ErrorFits (error : Error) : Prop :=
  error.message.length < 2 ^ 64 ∧ ∀ data, error.data = some data → data.Fits ∧ data.depth < maxDepth

theorem reads_errorEnvelope (hid : ∀ i, id = some i → ∃ n, i = .number n) (hf : ErrorFits error) :
    Reads decodeMessageEnvelope (leBytes 4 3 ++ (optionalIdBytes id ++
      (intBytes error.code.val ++ (blobBytes error.message ++ optionalDataBytes error.data))))
      (.error id error.code error.message error.data) := by
  have hdata : Reads (visitOption visitDyn) (optionalDataBytes error.data) error.data := by
    cases hd : error.data with
    | none => exact reads_visitOption_none _
    | some data =>
      obtain ⟨hfits, hdepth⟩ := hf.2 data hd
      exact reads_visitOption_some (reads_visitDyn hfits hdepth)
  exact reads_kind 3 (by decide) (Reads.bind (reads_optionalId hid).mapError
    (Reads.bind (reads_visitInt error.code).mapError
      (Reads.bind (reads_visitBlob hf.1).mapError (Reads.bind_pure hdata.mapError))))

theorem reads_errorHead (hid : ∀ i, id = some i → ∃ n, i = .number n) :
    Reads decodeEnvelopeHead (leBytes 4 3 ++ optionalIdBytes id) (.error id) :=
  reads_kind 3 (by decide) (Reads.bind_pure (reads_optionalId hid).mapError)

theorem parseMessage_error (h : encodeErrorResponse id error = .ok payload) (hf : ErrorFits error) :
    parseMessage payload = .errorResponse id error false := by
  obtain ⟨hid, rfl⟩ := encodeErrorResponse_ok h
  have hread := reads_errorEnvelope hid hf [] []
  simp only [List.nil_append, List.append_nil, List.length_nil, Nat.zero_add] at hread
  rw [parseMessage, hread]
  dsimp only
  rw [if_neg (not_not.mpr rfl)]

/-! ## Messages -/

/-- What the encoders are given. -/
inductive Message where
  | request (id : RequestId) (method : Bytes) (params : Encoder)
  | notification (method : Bytes) (params : Encoder)
  | success (id : RequestId) (result : Encoder)
  | error (id : Option RequestId) (error : Error)

def Message.encode : Message → Except Error Bytes
  | .request id method params => encodeRequest id method params
  | .notification method params => encodeNotification method params
  | .success id result => encodeSuccessResponse id result
  | .error id e => encodeErrorResponse id e

/-- The message's kind and id. -/
def Message.head : Message → MessageHead
  | .request id _ _ => { kind := .request, id := some id }
  | .notification _ _ => { kind := .notification }
  | .success id _ => { kind := .response, id := some id }
  | .error id _ => { kind := .response, id := id }

/-- Every size is one a `size_t` holds, and an error's data nests below the decoder's limit. -/
def Message.Fits : Message → Prop
  | .request _ method _ => method.length < 2 ^ 64
  | .notification method _ => method.length < 2 ^ 64
  | .success _ _ => True
  | .error _ e => ErrorFits e

/-- A slice of the payload that is all the bytes the encoder added after the prefix. -/
def Covers (p : MessagePrefix) (value : Encoder) (payload : Bytes) (slice : PayloadSlice) : Prop :=
  ∃ w w', encodeMessagePrefix Writer.new p = .ok w ∧ value.run w = .ok w' ∧
    slice.payload = payload ∧ slice.offset = w.written.length ∧
    slice.offset + slice.size = payload.length ∧ w'.written = w.written ++ slice.text

/-- What is read of a message's payload is the message, with its params or result in place. -/
def Message.ReadAs : Message → Bytes → IncomingMessage → Prop
  | .request id method params, payload, incoming => ∃ slice,
    incoming = .request id method slice ∧ Covers (.request id method) params payload slice
  | .notification method params, payload, incoming => ∃ slice,
    incoming = .notification method slice ∧ Covers (.notification method) params payload slice
  | .success id result, payload, incoming => ∃ slice,
    incoming = .response id slice ∧ Covers (.success id) result payload slice
  | .error id e, _, incoming => incoming = .errorResponse id e false

/-- What the encoders write of a prefix and a value is read back and peeked at. -/
theorem message_read {value : Encoder} (hf : p.Fits) (h : message p value = .ok payload) :
    (∀ first, first <+: payload → peek first = {} ∨ peek first = p.head.messageHead) ∧
    peek payload = p.head.messageHead ∧
    ∃ slice, Covers p value payload slice ∧ parseMessage payload = p.incoming slice := by
  obtain ⟨hw, w, w', body, hp, hv, hlayout, hbody, rfl⟩ := message_ok h hf
  obtain ⟨first, rest, hfirst, hhead⟩ := reads_head hw
  refine ⟨fun q hq => ?_, ?_, ⟨p.layout ++ body, p.layout.length, body.length⟩, ?_,
    parseMessage_rest hw body⟩
  · rw [hfirst, List.append_assoc] at hq
    exact peek_beginning hhead hq
  · rw [hfirst, List.append_assoc]
    exact peek_whole hhead
  · have htext : substr (p.layout ++ body) p.layout.length body.length = body := by
      rw [substr, List.drop_left, List.take_length]
    refine ⟨w, w', hp, hv, rfl, by rw [hlayout], (List.length_append ..).symm, ?_⟩
    rw [hbody, PayloadSlice.text, htext]

/-- Every message an encoder wrote is read as itself, its params or result being exactly the
bytes written for them, and `peek` of any beginning of it knows nothing or its kind and id, which
it knows of the whole. -/
theorem Message.encode_read (m : Message) (payload : Bytes) (hf : m.Fits)
    (h : m.encode = .ok payload) :
    (∀ first, first <+: payload → (peek first).kind = .unknown ∨ peek first = m.head) ∧
    (peek payload).kind ≠ .unknown ∧ m.ReadAs payload (parseMessage payload) := by
  cases m with
  | request id method params =>
    obtain ⟨hcut, hwhole, slice, hcovers, hparse⟩ := message_read (p := .request id method) hf h
    refine ⟨fun first hp => (hcut first hp).imp (congrArg MessageHead.kind) (fun h => h), ?_,
      slice, hparse, hcovers⟩
    rw [hwhole]
    exact MessageKind.noConfusion
  | notification method params =>
    obtain ⟨hcut, hwhole, slice, hcovers, hparse⟩ := message_read (p := .notification method) hf h
    refine ⟨fun first hp => (hcut first hp).imp (congrArg MessageHead.kind) (fun h => h), ?_,
      slice, hparse, hcovers⟩
    rw [hwhole]
    exact MessageKind.noConfusion
  | success id result =>
    obtain ⟨hcut, hwhole, slice, hcovers, hparse⟩ := message_read (p := .success id) hf h
    refine ⟨fun first hp => (hcut first hp).imp (congrArg MessageHead.kind) (fun h => h), ?_,
      slice, hparse, hcovers⟩
    rw [hwhole]
    exact MessageKind.noConfusion
  | error id e =>
    have hparse := parseMessage_error h hf
    obtain ⟨hid, rfl⟩ := encodeErrorResponse_ok h
    have hhead := reads_errorHead hid
    rw [← List.append_assoc] at hparse ⊢
    refine ⟨fun first hp => (peek_beginning hhead hp).imp (congrArg MessageHead.kind)
      (fun h => h), ?_, hparse⟩
    rw [peek_whole hhead]
    exact MessageKind.noConfusion

/-- An error under the id 7 whose data is an array in an array. -/
theorem Message.encode_read_nested : ∃ payload,
    (Message.error (some (.number ⟨7, by decide⟩))
      ⟨internalError, ascii "no", some (.array [.array [.null]])⟩).encode = .ok payload ∧
    (peek payload).kind ≠ .unknown ∧
    parseMessage payload = .errorResponse (some (.number ⟨7, by decide⟩))
      ⟨internalError, ascii "no", some (.array [.array [.null]])⟩ false := by
  refine ⟨_, rfl, ?_⟩
  have hfits : ErrorFits ⟨internalError, ascii "no", some (.array [.array [.null]])⟩ := by
    refine ⟨by decide, fun data hdata => ?_⟩
    cases hdata
    exact ⟨⟨by decide, ⟨by decide, trivial, trivial⟩, trivial⟩, by decide⟩
  have hread := Message.encode_read (.error (some (.number ⟨7, by decide⟩))
    ⟨internalError, ascii "no", some (.array [.array [.null]])⟩) _ hfits rfl
  exact ⟨hread.2.1, hread.2.2⟩

end BincodeCodec

end Kotatsu.Ipc.Codec
