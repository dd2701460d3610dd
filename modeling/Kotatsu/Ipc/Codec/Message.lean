import Kotatsu.Codec.Bincode.Dyn

/-!
# Messages

What a codec reads and writes, whatever its format: the messages as they come in,
with the params or result as a part of the payload they came in, and what the
first bytes of a message tell of it.
-/

namespace Kotatsu.Ipc.Codec

open Kotatsu.Core
open Kotatsu.Codec.Bincode (SignedInt Dyn)

/-- `protocol::RequestID`. -/
inductive RequestId where
  | number (n : SignedInt .w64)
  | text (s : Bytes)
deriving DecidableEq

/-- `protocol::Error`. -/
structure Error where
  code : SignedInt .w32
  message : Bytes
  data : Option Dyn := none

/-- `ErrorCode::ParseError`. -/
def parseError : SignedInt .w32 := ⟨-32700, by decide⟩

/-- `ErrorCode::InternalError`. -/
def internalError : SignedInt .w32 := ⟨-32603, by decide⟩

/-- `PayloadSlice`, `size` bytes from `offset` in the payload. -/
structure PayloadSlice where
  payload : Bytes
  offset : Nat
  size : Nat

/-- The bytes of a slice. -/
def PayloadSlice.text (slice : PayloadSlice) : Bytes :=
  substr slice.payload slice.offset slice.size

/-- `IncomingMessage`. -/
inductive IncomingMessage where
  | request (id : RequestId) (method : Bytes) (params : PayloadSlice)
  | notification (method : Bytes) (params : PayloadSlice)
  | response (id : RequestId) (result : PayloadSlice)
  | errorResponse (id : Option RequestId) (error : Error) (unreadable : Bool)
  | parseError (id : Option RequestId) (error : Error) (notification : Bool)

/-- `MessageHead::Kind`. -/
inductive MessageKind where
  | unknown
  | request
  | notification
  | response
deriving DecidableEq, Repr

/-- `MessageHead`: what the first bytes of a message tell of it. -/
structure MessageHead where
  kind : MessageKind := .unknown
  id : Option RequestId := none
deriving DecidableEq

end Kotatsu.Ipc.Codec
