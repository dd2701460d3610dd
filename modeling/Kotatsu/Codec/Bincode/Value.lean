import Kotatsu.Core.Bytes
import Mathlib.Data.Finmap

/-!
# The types bincode writes

A type of the program is a code `Ty`, and `Ty.Val` are its values as the
program compares them: an integer with its range, a string as its bytes, a map
as the finite map it is. The standard containers do not agree on the order in
which they give their elements, so an `Iteration` stands for whatever order
the containers at hand have. `Ty.Fits` says that every size in a value is one a
`size_t` holds.
-/

namespace Kotatsu.Codec.Bincode

open Kotatsu.Core

/-! ## Types -/

/-- The width of an integer type. -/
inductive Width where
  | w8
  | w16
  | w32
  | w64
deriving DecidableEq, Repr

/-- The number of bits of an integer. -/
def Width.bits : Width → Nat
  | .w8 => 8
  | .w16 => 16
  | .w32 => 32
  | .w64 => 64

theorem Width.bits_le (w : Width) : w.bits ≤ 64 := by cases w <;> decide

/-- The integer type under an enumeration. -/
inductive Underlying where
  | signed (w : Width)
  | unsigned (w : Width)
  | bool
deriving DecidableEq, Repr

mutual

/-- A type, by its `meta::type_kind`. -/
inductive Ty where
  | boolean
  | int (w : Width)
  | uint (w : Width)
  | character
  | string
  | bytes
  | null
  | monostate
  | optional (t : Ty)
  | enumeration (u : Underlying)
  | array (t : Ty)
  | set (t : Ty)
  | tuple (ts : Tys)
  | map (k v : Ty)
  | struct (fs : Fields)
  | variant (ts : Tys)

/-- The elements of a tuple, or the alternatives of a variant. -/
inductive Tys where
  | nil
  | cons (t : Ty) (ts : Tys)

/-- The fields of a struct in the order of their declaration. -/
inductive Fields where
  | nil
  | cons (name : Bytes) (t : Ty) (fs : Fields)

end

/-- `sizeof...(Ts)`. -/
def Tys.size : Tys → Nat
  | .nil => 0
  | .cons _ ts => ts.size + 1

/-! ## Values -/

/-- A signed integer of the given width. -/
def SignedInt (w : Width) : Type := { z : Int // -2 ^ (w.bits - 1) ≤ z ∧ z < 2 ^ (w.bits - 1) }

/-- An unsigned integer of the given width. -/
def UnsignedInt (w : Width) : Type := { n : Nat // n < 2 ^ w.bits }

instance (w : Width) : DecidableEq (SignedInt w) := inferInstanceAs (DecidableEq (Subtype _))

instance (w : Width) : DecidableEq (UnsignedInt w) := inferInstanceAs (DecidableEq (Subtype _))

/-- The values of an enumeration are those of its underlying type. -/
def Underlying.Val : Underlying → Type
  | .signed w => SignedInt w
  | .unsigned w => UnsignedInt w
  | .bool => Bool

instance : (u : Underlying) → DecidableEq u.Val
  | .signed w => inferInstanceAs (DecidableEq (SignedInt w))
  | .unsigned w => inferInstanceAs (DecidableEq (UnsignedInt w))
  | .bool => inferInstanceAs (DecidableEq Bool)

mutual

/-- The values of a type. -/
def Ty.Val : Ty → Type
  | .boolean => Bool
  | .int w => SignedInt w
  | .uint w => UnsignedInt w
  | .character => UInt8
  | .string => Bytes
  | .bytes => Bytes
  | .null => Unit
  | .monostate => Unit
  | .optional t => Option t.Val
  | .enumeration u => u.Val
  | .array t => List t.Val
  | .set t => Finset t.Val
  | .tuple ts => ts.Vals
  | .map k v => Finmap fun _ : k.Val => v.Val
  | .struct fs => fs.Vals
  | .variant ts => ts.Alt

/-- One value for each element. -/
def Tys.Vals : Tys → Type
  | .nil => Unit
  | .cons t ts => t.Val × ts.Vals

/-- A value of one of the alternatives. -/
def Tys.Alt : Tys → Type
  | .nil => Empty
  | .cons t ts => t.Val ⊕ ts.Alt

/-- One value for each field. -/
def Fields.Vals : Fields → Type
  | .nil => Unit
  | .cons _ t fs => t.Val × fs.Vals

end

mutual

/-- Two values of a type can be compared. -/
def Ty.decEqVal : (t : Ty) → DecidableEq t.Val
  | .boolean => inferInstanceAs (DecidableEq Bool)
  | .int w => inferInstanceAs (DecidableEq (SignedInt w))
  | .uint w => inferInstanceAs (DecidableEq (UnsignedInt w))
  | .character => inferInstanceAs (DecidableEq UInt8)
  | .string => inferInstanceAs (DecidableEq Bytes)
  | .bytes => inferInstanceAs (DecidableEq Bytes)
  | .null => inferInstanceAs (DecidableEq Unit)
  | .monostate => inferInstanceAs (DecidableEq Unit)
  | .optional t => letI := t.decEqVal; inferInstanceAs (DecidableEq (Option t.Val))
  | .enumeration u => inferInstanceAs (DecidableEq u.Val)
  | .array t => letI := t.decEqVal; inferInstanceAs (DecidableEq (List t.Val))
  | .set t => letI := t.decEqVal; inferInstanceAs (DecidableEq (Finset t.Val))
  | .tuple ts => ts.decEqVals
  | .map k v =>
    letI := k.decEqVal
    letI := v.decEqVal
    inferInstanceAs (DecidableEq (Finmap fun _ : k.Val => v.Val))
  | .struct fs => fs.decEqVals
  | .variant ts => ts.decEqAlt

/-- Two tuples can be compared. -/
def Tys.decEqVals : (ts : Tys) → DecidableEq ts.Vals
  | .nil => inferInstanceAs (DecidableEq Unit)
  | .cons t ts => @instDecidableEqProd t.Val ts.Vals t.decEqVal ts.decEqVals

/-- Two variants can be compared. -/
def Tys.decEqAlt : (ts : Tys) → DecidableEq ts.Alt
  | .nil => inferInstanceAs (DecidableEq Empty)
  | .cons t ts => @instDecidableEqSum t.Val ts.Alt t.decEqVal ts.decEqAlt

/-- Two structs can be compared. -/
def Fields.decEqVals : (fs : Fields) → DecidableEq fs.Vals
  | .nil => inferInstanceAs (DecidableEq Unit)
  | .cons _ t fs => @instDecidableEqProd t.Val fs.Vals t.decEqVal fs.decEqVals

end

instance (t : Ty) : DecidableEq t.Val := t.decEqVal

/-- `variant::index`. -/
def Tys.Alt.index : {ts : Tys} → ts.Alt → Nat
  | .cons _ _, .inl _ => 0
  | .cons _ _, .inr a => Tys.Alt.index a + 1

/-! ## Containers -/

/-- The order in which the sets and maps of a program give what they hold. -/
structure Iteration where
  elements : (t : Ty) → Finset t.Val → List t.Val
  elements_nodup : ∀ t s, (elements t s).Nodup
  mem_elements : ∀ t s v, v ∈ elements t s ↔ v ∈ s
  entries : (k v : Ty) → (Finmap fun _ : k.Val => v.Val) → List (k.Val × v.Val)
  entries_nodup : ∀ k v m, ((entries k v m).map Prod.fst).Nodup
  mem_entries : ∀ k v m a b, (a, b) ∈ entries k v m ↔ m.lookup a = some b

private theorem nodup_map_fst {α β : Type} {l : List (Σ _ : α, β)} (h : l.NodupKeys) :
    ((l.map fun e => (e.1, e.2)).map Prod.fst).Nodup := by
  simpa only [List.map_map, List.NodupKeys, List.keys, Function.comp_def] using h

/-- Containers give what they hold in some order. -/
noncomputable instance : Inhabited Iteration where
  default :=
    { elements := fun _ s => s.toList
      elements_nodup := fun _ s => s.nodup_toList
      mem_elements := fun _ _ _ => Finset.mem_toList
      entries := fun _ _ m => m.entries.toList.map fun e => (e.1, e.2)
      entries_nodup := by
        intro k v m
        apply nodup_map_fst
        rw [← Multiset.coe_nodupKeys, Multiset.coe_toList]
        exact m.nodupKeys
      mem_entries := by
        intro k v m a b
        rw [← Option.mem_def, Finmap.mem_lookup_iff, ← Multiset.mem_toList, List.mem_map]
        constructor
        · rintro ⟨e, he, heq⟩
          obtain ⟨rfl, rfl⟩ := Prod.mk.inj heq
          exact he
        · exact fun h => ⟨_, h, rfl⟩ }

variable (it : Iteration)

theorem Iteration.length_elements {t : Ty} (s : Finset t.Val) :
    (it.elements t s).length = s.card := by
  have hset : (it.elements t s).toFinset = s := by
    ext v
    rw [List.mem_toFinset, it.mem_elements]
  rw [← List.toFinset_card_of_nodup (it.elements_nodup t s), hset]

theorem Iteration.length_entries {k v : Ty} (m : Finmap fun _ : k.Val => v.Val) :
    (it.entries k v m).length = m.keys.card := by
  have hset : ((it.entries k v m).map Prod.fst).toFinset = m.keys := by
    ext a
    rw [List.mem_toFinset, List.mem_map, Finmap.mem_keys, Finmap.mem_iff]
    constructor
    · rintro ⟨⟨a', b⟩, he, rfl⟩
      exact ⟨b, (it.mem_entries k v m a' b).mp he⟩
    · rintro ⟨b, hb⟩
      exact ⟨(a, b), (it.mem_entries k v m a b).mpr hb, rfl⟩
  rw [← hset, List.toFinset_card_of_nodup (it.entries_nodup k v m), List.length_map]

/-- Inserting the elements of a set one by one, in any order it gives them, makes the set. -/
theorem Iteration.foldl_insert_elements {t : Ty} (s : Finset t.Val) :
    (it.elements t s).foldl (fun acc v => insert v acc) ∅ = s := by
  have hgen : ∀ (l : List t.Val) (acc : Finset t.Val),
      l.foldl (fun acc v => insert v acc) acc = l.toFinset ∪ acc := by
    intro l
    induction l with
    | nil => simp
    | cons x xs ih =>
      intro acc
      rw [List.foldl_cons, ih, List.toFinset_cons, Finset.insert_union, Finset.union_insert]
  ext v
  rw [hgen, Finset.union_empty, List.mem_toFinset, it.mem_elements]

private theorem lookup_foldl_insert {α β : Type} [DecidableEq α] (l : List (α × β))
    (hl : (l.map Prod.fst).Nodup) (acc : Finmap fun _ : α => β) (a : α) :
    (∀ b, (a, b) ∈ l → (l.foldl (fun m e => m.insert e.1 e.2) acc).lookup a = some b) ∧
      ((∀ b, (a, b) ∉ l) →
        (l.foldl (fun m e => m.insert e.1 e.2) acc).lookup a = acc.lookup a) := by
  induction l generalizing acc with
  | nil => simp
  | cons e l ih =>
    obtain ⟨x, y⟩ := e
    rw [List.map_cons, List.nodup_cons] at hl
    obtain ⟨ihmem, ihnot⟩ := ih hl.2 (acc.insert x y)
    rw [List.foldl_cons]
    refine ⟨?_, ?_⟩
    · intro b hb
      rcases List.mem_cons.mp hb with heq | hb
      · obtain ⟨rfl, rfl⟩ := Prod.mk.inj heq
        have hout : ∀ c, (a, c) ∉ l := fun c hc => hl.1 (List.mem_map.mpr ⟨(a, c), hc, rfl⟩)
        rw [ihnot hout, Finmap.lookup_insert]
      · exact ihmem b hb
    · intro hnot
      have hne : a ≠ x := fun he => hnot y (he ▸ List.mem_cons_self ..)
      rw [ihnot fun b hb => hnot b (List.mem_cons_of_mem _ hb), Finmap.lookup_insert_of_ne _ hne]

/-- Inserting the entries of a map one by one, in any order it gives them, makes the map. -/
theorem Iteration.foldl_insert_entries {k v : Ty} (m : Finmap fun _ : k.Val => v.Val) :
    (it.entries k v m).foldl (fun acc e => acc.insert e.1 e.2) ∅ = m := by
  apply Finmap.ext_lookup
  intro a
  obtain ⟨hmem, hnot⟩ := lookup_foldl_insert (it.entries k v m) (it.entries_nodup k v m) ∅ a
  cases hm : m.lookup a with
  | some b => exact hmem b ((it.mem_entries k v m a b).mpr hm)
  | none =>
    rw [hnot, Finmap.lookup_empty]
    intro b hb
    rw [it.mem_entries, hm] at hb
    cases hb

/-! ## Sizes -/

mutual

/-- Every size in the value is one a `size_t` holds, and every alternative's
index one an `uint32_t` does. -/
def Ty.Fits : (t : Ty) → t.Val → Prop
  | .boolean, _ => True
  | .int _, _ => True
  | .uint _, _ => True
  | .character, _ => True
  | .string, v => List.length v < 2 ^ 64
  | .bytes, v => List.length v < 2 ^ 64
  | .null, _ => True
  | .monostate, _ => True
  | .optional t, v => ∀ x, v = some x → t.Fits x
  | .enumeration _, _ => True
  | .array t, vs => List.length vs < 2 ^ 64 ∧ ∀ v ∈ (show List t.Val from vs), t.Fits v
  | .set t, s => Finset.card s < 2 ^ 64 ∧ ∀ v ∈ (show Finset t.Val from s), t.Fits v
  | .tuple ts, vs => ts.FitsAll vs
  | .map k v, m => (Finmap.keys m).card < 2 ^ 64 ∧
      ∀ a b, Finmap.lookup a m = some b → k.Fits a ∧ v.Fits b
  | .struct fs, vs => fs.FitsAll vs
  | .variant ts, a => Tys.Alt.index a < 2 ^ 32 ∧ ts.FitsAlt a

/-- Every element fits. -/
def Tys.FitsAll : (ts : Tys) → ts.Vals → Prop
  | .nil, _ => True
  | .cons t ts, (v, vs) => t.Fits v ∧ ts.FitsAll vs

/-- The alternative held fits. -/
def Tys.FitsAlt : (ts : Tys) → ts.Alt → Prop
  | .cons t _, .inl v => t.Fits v
  | .cons _ ts, .inr a => ts.FitsAlt a

/-- Every field fits. -/
def Fields.FitsAll : (fs : Fields) → fs.Vals → Prop
  | .nil, _ => True
  | .cons _ t fs, (v, vs) => t.Fits v ∧ fs.FitsAll vs

end

/-- A value as a program can hold one. -/
def Value (t : Ty) : Type := { v : t.Val // t.Fits v }

end Kotatsu.Codec.Bincode
