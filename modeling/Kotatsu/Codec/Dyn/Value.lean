import Mathlib.Data.Rat.Defs

/-!
# Documents

A `dyn::Value`: what a schema is written as, and what a document is. An object is its
entries in order, and `find` gives the last one of a key.
-/

namespace Kotatsu.Codec.Dyn

/-- `dyn::Value`; a double is the number it stands for. -/
inductive Value where
  | null
  | boolean (b : Bool)
  | int (n : Int)
  | uint (n : Nat)
  | double (x : Rat)
  | string (s : String)
  | array (items : List Value)
  | object (entries : List (String × Value))

/-- `dyn::Object`. -/
abbrev Object := List (String × Value)

/-- `Object::find`. -/
def find (entries : Object) (key : String) : Option Value :=
  match entries with
  | [] => none
  | (k, v) :: rest =>
    match find rest key with
    | some found => some found
    | none => if k = key then some v else none

/-- `Value::get_object`. -/
def Value.getObject : Value → Option Object
  | .object entries => some entries
  | _ => none

/-- `Value::get_string`. -/
def Value.getString : Value → Option String
  | .string s => some s
  | _ => none

theorem mem_of_find {entries : Object} {key : String} {v : Value}
    (h : find entries key = some v) : (key, v) ∈ entries := by
  induction entries with
  | nil => cases h
  | cons entry rest ih =>
    obtain ⟨k, w⟩ := entry
    rw [find] at h
    cases hrest : find rest key with
    | some found =>
      rw [hrest] at h
      cases h
      exact List.mem_cons_of_mem _ (ih hrest)
    | none =>
      rw [hrest] at h
      dsimp only at h
      split at h
      · next hk =>
        cases h
        rw [hk]
        exact List.mem_cons_self
      · cases h

end Kotatsu.Codec.Dyn
