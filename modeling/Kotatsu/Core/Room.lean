import Mathlib.Data.List.Basic

/-!
# Room for a result

A result that is written piece by piece into room reserved for it before. A write past
the room is no result at all, so what is shown to be written was written inside of it.
-/

namespace Kotatsu.Core

/-- Room for `size` units, and those written so far. -/
structure Room (α : Type) where
  size : Nat
  written : List α := []
deriving DecidableEq, Repr

variable {α : Type}

/-- The next unit, where there is room for it. -/
def Room.put (room : Room α) (unit : α) : Option (Room α) :=
  if room.written.length < room.size then some { room with written := room.written ++ [unit] }
  else none

/-- Units one after another. -/
def Room.putAll (room : Room α) : List α → Option (Room α)
  | [] => some room
  | unit :: units => (room.put unit).bind fun room => room.putAll units

/-- What fits is written. -/
theorem Room.putAll_eq {room : Room α} {units : List α}
    (h : room.written.length + units.length ≤ room.size) :
    room.putAll units = some { room with written := room.written ++ units } := by
  induction units generalizing room with
  | nil => rw [Room.putAll, List.append_nil]
  | cons unit units ih =>
    rw [List.length_cons] at h
    rw [Room.putAll, Room.put, if_pos (by omega), Option.bind_some, ih]
    · rw [List.append_assoc]
      rfl
    · change (room.written ++ [unit]).length + units.length ≤ room.size
      rw [List.length_append, List.length_singleton]
      omega

end Kotatsu.Core
