import Kotatsu.Codec.Fbs.Builder
import Kotatsu.Codec.Fbs.Ordering
import Mathlib.Data.List.Sort

/-!
# Sorted maps and their views

`encodeSortedMap` writes a map as a vector of entry tables, sorted by the keys it has
captured on the way. `findEntry` searches such a vector for a key, which it reads from
the entries again. The keys read back are the ones captured, in strictly rising order,
so the search ends at the entry of the key that is asked for and nowhere else.
-/

namespace Kotatsu.Codec.Fbs

open Kotatsu.Core
open Kotatsu.Codec.Bincode (Width SignedInt UnsignedInt)

/-- A map of the program, in the order in which it gives its entries. -/
structure SourceMap (t : KeyTy) (V : Type) where
  entries : List (t.Val × V)
  nodup : (entries.map Prod.fst).Nodup

/-- The two passes over the value of an entry: what it needs is built, and then it
gives what goes into its slot, or nothing where the slot stays absent. -/
structure ValueWriter (fb : Flatbuffers) (V : Type) where
  alloc : fb.Builder → V → Option (fb.Builder × Option fb.Offset)
  write : V → Option fb.Offset → Option (Option (Slot fb.Offset))
  later : ∀ {b v b' stored}, alloc b v = some (b', stored) → fb.Later b b'

section Encode

variable (fb : Flatbuffers) {V : Type} (w : ValueWriter fb V) (t : KeyTy)
  (memory : t.Val → Nat → UInt8)

/-- `AllocFieldVisitor` on a key: a string is built ahead of its table. -/
def allocKey (b : fb.Builder) : (t : KeyTy) → t.Val → fb.Builder × Option fb.Offset
  | .inline _, _ => (b, none)
  | .string, text => ((fb.createString b text).1, some (fb.createString b text).2)

/-- `WriteFieldVisitor` on a key, which lies in `memory`. -/
def writeKey (Offset : Type) (memory : Nat → UInt8) :
    (t : KeyTy) → t.Val → Option Offset → Option (Slot Offset)
  | .inline (.scalar s), v, _ => some (.inline (s.bytes v))
  | .inline (.enumeration u), v, _ => some (.inline (u.bytes v))
  | .inline (.struct fs), vs, _ => some (.inline (structImage memory fs vs))
  | .string, _, stored => stored.map .offset

/-- The slots of an entry's table; an absent one is not written. -/
def entrySlots {Offset : Type} (key value : Option (Slot Offset)) : List (Nat × Slot Offset) :=
  key.toList.map (fieldSlot 0, ·) ++ value.toList.map (fieldSlot 1, ·)

/-- `two_pass` over an entry: its key and value are built, then its table. -/
def twoPass (b : fb.Builder) (key : t.Val) (value : V) : Option (fb.Builder × fb.Offset) :=
  let keyed := allocKey fb b t key
  match w.alloc keyed.1 value with
  | none => none
  | some (b', stored) =>
    match w.write value stored with
    | none => none
    | some slot =>
      some (fb.createTable b'
        (entrySlots (writeKey fb.Offset (memory key) t key keyed.2) slot))

/-- `MapEntryCollector` over the entries of a map, each with the key captured from it. -/
def collectEntries (b : fb.Builder) :
    List (t.Val × V) → Option (fb.Builder × List (t.Val × fb.Offset))
  | [] => some (b, [])
  | (key, value) :: rest =>
    match twoPass fb w t memory b key value with
    | none => none
    | some (b', table) =>
      match collectEntries b' rest with
      | none => none
      | some (b'', entries) => some (b'', (key, table) :: entries)

/-- The entries sorted by their captured keys. -/
def sortEntries {Offset : Type} (entries : List (t.Val × Offset)) : List (t.Val × Offset) :=
  entries.insertionSort fun x y => orderingLess t y.1 x.1 = false

/-- `encode_sorted_map`. -/
def encodeSortedMap (b : fb.Builder) (entries : List (t.Val × V)) :
    Option (fb.Builder × fb.Offset) :=
  match collectEntries fb w t memory b entries with
  | none => none
  | some (b', collected) =>
    some (fb.createVector b' ((sortEntries t collected).map Prod.snd))

end Encode

section View

variable (fb : Flatbuffers) (b : fb.Builder)

/-- `read_field` of a key; an absent slot reads as the zero of its type. -/
def readKey : (t : KeyTy) → fb.Offset → Nat → t.Val
  | .inline (.scalar s), table, slot =>
    match fb.getField b table slot with
    | some (.inline bytes) => s.ofBytes bytes
    | _ => s.ofBytes []
  | .inline (.enumeration u), table, slot =>
    match fb.getField b table slot with
    | some (.inline bytes) => u.ofBytes bytes
    | _ => u.ofBytes []
  | .inline (.struct fs), table, slot =>
    match fb.getField b table slot with
    | some (.inline image) => fs.loadUnaligned image 0
    | _ => fs.loadUnaligned [] 0
  | .string, table, slot =>
    match fb.getField b table slot with
    | some (.offset o) => fb.getString b o
    | _ => []

/-- The keys of a vector of entries, as a view reads them. -/
def readKeys (t : KeyTy) (vector : fb.Offset) : List t.Val :=
  (fb.getVector b vector).map fun table => readKey fb b t table (fieldSlot 0)

/-- What a view is asked for, by `map_lookup_key`: a key, or under a scalar key type a
scalar of any type. -/
inductive Lookup : KeyTy → Type where
  | key {t : KeyTy} (k : t.Val) : Lookup t
  | scalar {s : Scalar} (u : Scalar) (v : u.Val) : Lookup (.inline (.scalar s))

/-- `ordering_less` of an entry's key and what is looked for. -/
def Lookup.above : {t : KeyTy} → Lookup t → t.Val → Bool
  | t, .key k, entryKey => orderingLess t entryKey k
  | .inline (.scalar s), .scalar u v, entryKey =>
    cellLess (orderingCell s entryKey) (orderingCell u v)

/-- `ordering_equal` of an entry's key and what is looked for. -/
def Lookup.matches : {t : KeyTy} → Lookup t → t.Val → Bool
  | t, .key k, entryKey => orderingEqual t entryKey k
  | .inline (.scalar s), .scalar u v, entryKey =>
    cellEqual (orderingCell s entryKey) (orderingCell u v)

/-- The comparison `find_entry` makes at `mid`: that entry's key is below the one looked for. -/
def entryBelow {t : KeyTy} (tables : List fb.Offset) (key : Lookup t) (mid : Nat) : Bool :=
  match tables[mid]? with
  | none => false
  | some entry => key.above (readKey fb b t entry (fieldSlot 0))

/-- `map_view::find_entry`. -/
def findEntry {t : KeyTy} (vector : Option fb.Offset) (key : Lookup t) : Option fb.Offset :=
  match vector with
  | none => none
  | some vector =>
    let tables := fb.getVector b vector
    match tables[lowerBound (entryBelow fb b tables key) 0 tables.length]? with
    | none => none
    | some entry =>
      if key.matches (readKey fb b t entry (fieldSlot 0)) then some entry else none

end View

/-! ## What is looked for -/

/-- The keys that answer a lookup: the key itself, or the scalars of the same value. -/
def Lookup.Names : {t : KeyTy} → Lookup t → t.Val → Prop
  | _, .key k, entryKey => entryKey = k
  | .inline (.scalar s), .scalar u v, entryKey =>
    (orderingCell s entryKey).value = (orderingCell u v).value

theorem Lookup.matches_iff : {t : KeyTy} → (q : Lookup t) → (k : t.Val) →
    (q.matches k = true ↔ q.Names k)
  | t, .key k', k => orderingEqual_iff t k k'
  | .inline (.scalar _), .scalar _ _, _ => by
    rw [Lookup.matches, cellEqual_eq, decide_eq_true_eq]
    rfl

/-- What is below a key that is looked for is not it. -/
theorem Lookup.not_above_of_names : {t : KeyTy} → (q : Lookup t) → {k : t.Val} →
    q.Names k → q.above k = false
  | t, .key k', k, h => by
    have hk : k = k' := h
    subst hk
    exact (strictTotal_orderingLess t).not_less_self k
  | .inline (.scalar _), .scalar _ _, _, h => by
    rw [Lookup.above, cellLess_eq, decide_eq_false_iff_not, Int.not_lt]
    exact Int.le_of_eq (Eq.symm h)

/-- A key below another is below whatever that one is below. -/
theorem Lookup.above_of_less : {t : KeyTy} → (q : Lookup t) → {k k' : t.Val} →
    orderingLess t k k' = true → q.above k' = true → q.above k = true
  | t, .key _, _, _, hless, habove => (strictTotal_orderingLess t).less_trans hless habove
  | .inline (.scalar s), .scalar _ _, k, k', hless, habove => by
    have hcells : cellLess (orderingCell s k) (orderingCell s k') = true := hless
    rw [Lookup.above, cellLess_eq, decide_eq_true_eq] at habove ⊢
    rw [cellLess_eq, decide_eq_true_eq] at hcells
    exact Int.lt_trans hcells habove

/-- A key below one that is looked for is below what is looked for. -/
theorem Lookup.above_of_less_names : {t : KeyTy} → (q : Lookup t) → {k k' : t.Val} →
    orderingLess t k k' = true → q.Names k' → q.above k = true
  | t, .key k', k, k'', hless, hnames => by
    have hk : k'' = k' := hnames
    subst hk
    exact hless
  | .inline (.scalar s), .scalar _ _, k, k', hless, hnames => by
    have hcells : cellLess (orderingCell s k) (orderingCell s k') = true := hless
    rw [cellLess_eq, decide_eq_true_eq] at hcells
    rw [Lookup.above, cellLess_eq, decide_eq_true_eq]
    rwa [← hnames]

/-! ## What is written -/

section Written

variable {fb : Flatbuffers} {V : Type} {w : ValueWriter fb V} {t : KeyTy}
  {memory : t.Val → Nat → UInt8}

theorem later_allocKey (b : fb.Builder) : (t : KeyTy) → (key : t.Val) →
    fb.Later b (allocKey fb b t key).1
  | .inline _, _ => fb.later_refl b
  | .string, text => fb.later_createString b text

/-- A table holds an entry: its key slot reads as the key, and its value slot is what
the value was written as. -/
structure HoldsEntry (fb : Flatbuffers) (w : ValueWriter fb V) (t : KeyTy) (b : fb.Builder)
    (table : fb.Offset) (key : t.Val) (value : V) : Prop where
  key_eq : readKey fb b t table (fieldSlot 0) = key
  value_eq : ∃ before built stored slot, w.alloc before value = some (built, stored) ∧
    fb.Later built b ∧ w.write value stored = some slot ∧ fb.getField b table (fieldSlot 1) = slot

/-- A key that has been built is read from the slot it was written to. -/
theorem readKey_writeKey {b b' : fb.Builder} (memory : Nat → UInt8) {table : fb.Offset}
    {slot : Nat} : (t : KeyTy) → (key : t.Val) → fb.Later (allocKey fb b t key).1 b' →
    fb.getField b' table slot =
      writeKey fb.Offset memory t key (allocKey fb b t key).2 →
    readKey fb b' t table slot = key
  | .inline (.scalar s), v, _, h => by
    rw [readKey, h]
    exact s.ofBytes_bytes v
  | .inline (.enumeration u), v, _, h => by
    rw [readKey, h]
    exact u.ofBytes_bytes v
  | .inline (.struct fs), vs, _, h => by
    rw [readKey, h]
    exact loadUnaligned_structImage memory fs vs
  | .string, text, hl, h => by
    rw [readKey, h]
    exact fb.getString_later hl

theorem entrySlots_nodup {Offset : Type} (key value : Option (Slot Offset)) :
    ((entrySlots key value).map Prod.fst).Nodup := by
  cases key <;> cases value <;> simp [entrySlots, fieldSlot]

theorem lookup_entrySlots {Offset : Type} (key value : Option (Slot Offset)) :
    (entrySlots key value).lookup (fieldSlot 0) = key ∧
      (entrySlots key value).lookup (fieldSlot 1) = value := by
  cases key <;> cases value <;> exact ⟨rfl, rfl⟩

/-- What the two passes over an entry do when neither fails. -/
theorem twoPass_some {b b' : fb.Builder} {key : t.Val} {value : V} {table : fb.Offset}
    (h : twoPass fb w t memory b key value = some (b', table)) :
    ∃ built stored slot slots, w.alloc (allocKey fb b t key).1 value = some (built, stored) ∧
      w.write value stored = some slot ∧
      slots = entrySlots (writeKey fb.Offset (memory key) t key (allocKey fb b t key).2) slot ∧
      fb.createTable built slots = (b', table) := by
  rw [twoPass] at h
  split at h
  · cases h
  · next built stored halloc =>
    split at h
    · cases h
    · next slot hwrite => exact ⟨built, stored, slot, _, halloc, hwrite, rfl, Option.some.inj h⟩

theorem later_twoPass {b b' : fb.Builder} {key : t.Val} {value : V} {table : fb.Offset}
    (h : twoPass fb w t memory b key value = some (b', table)) : fb.Later b b' := by
  obtain ⟨built, stored, slot, slots, halloc, -, -, htable⟩ := twoPass_some h
  have hlast := fb.later_createTable built slots
  rw [htable] at hlast
  exact fb.later_trans (later_allocKey b t key) (fb.later_trans (w.later halloc) hlast)

/-- The table that is written for an entry holds it from then on. -/
theorem twoPass_holds {b b' b'' : fb.Builder} {key : t.Val} {value : V} {table : fb.Offset}
    (h : twoPass fb w t memory b key value = some (b', table)) (hl : fb.Later b' b'') :
    HoldsEntry fb w t b'' table key value := by
  obtain ⟨built, stored, slot, slots, halloc, hwrite, hslots, htable⟩ := twoPass_some h
  have hnodup : (slots.map Prod.fst).Nodup := hslots ▸ entrySlots_nodup _ slot
  have hlast := fb.later_createTable built slots
  have hfield : fb.Later (fb.createTable built slots).1 b'' →
      ∀ at', fb.getField b'' (fb.createTable built slots).2 at' = slots.lookup at' :=
    fb.getField_later hnodup
  rw [htable] at hlast hfield
  have hbuilt : fb.Later built b'' := fb.later_trans hlast hl
  obtain ⟨hkey, hvalue⟩ := lookup_entrySlots (writeKey fb.Offset (memory key) t key
    (allocKey fb b t key).2) slot
  rw [← hslots] at hkey hvalue
  refine ⟨?_, (allocKey fb b t key).1, built, stored, slot, halloc, hbuilt, hwrite, ?_⟩
  · refine readKey_writeKey (memory key) t key (fb.later_trans (w.later halloc) hbuilt) ?_
    exact (hfield hl (fieldSlot 0)).trans hkey
  · exact (hfield hl (fieldSlot 1)).trans hvalue

/-- The entries collected from a map are its own, in its order, each with a table that
holds it from then on. -/
theorem collectEntries_some {entries : List (t.Val × V)} : ∀ {b b' : fb.Builder}
    {collected : List (t.Val × fb.Offset)},
    collectEntries fb w t memory b entries = some (b', collected) →
    fb.Later b b' ∧ collected.map Prod.fst = entries.map Prod.fst ∧
      (∀ key table, (key, table) ∈ collected → ∃ value, (key, value) ∈ entries ∧
        ∀ b'', fb.Later b' b'' → HoldsEntry fb w t b'' table key value) := by
  induction entries with
  | nil =>
    intro b b' collected h
    obtain ⟨rfl, rfl⟩ := Prod.mk.inj (Option.some.inj h)
    exact ⟨fb.later_refl b, rfl, fun _ _ hm => absurd hm List.not_mem_nil⟩
  | cons entry rest ih =>
    intro b b' collected h
    obtain ⟨key, value⟩ := entry
    rw [collectEntries] at h
    split at h
    · cases h
    · next built table htwo =>
      split at h
      · cases h
      · next b'' others hrest =>
        obtain ⟨rfl, rfl⟩ := Prod.mk.inj (Option.some.inj h)
        obtain ⟨hlater, hkeys, hheld⟩ := ih hrest
        refine ⟨fb.later_trans (later_twoPass htwo) hlater, ?_, fun key' table' hm => ?_⟩
        · rw [List.map_cons, List.map_cons, hkeys]
        · rcases List.mem_cons.mp hm with heq | hm
          · obtain ⟨rfl, rfl⟩ := Prod.mk.inj heq
            exact ⟨value, List.mem_cons_self, fun b₁ hl =>
              twoPass_holds htwo (fb.later_trans hlater hl)⟩
          · obtain ⟨value', hmem, hholds⟩ := hheld key' table' hm
            exact ⟨value', List.mem_cons_of_mem _ hmem, hholds⟩

end Written

/-! ## The order of the entries -/

section Sorted

variable {t : KeyTy} {Offset : Type}

theorem sortEntries_perm (entries : List (t.Val × Offset)) :
    (sortEntries t entries).Perm entries := List.perm_insertionSort _ entries

/-- Entries of distinct keys are sorted strictly. -/
theorem sortEntries_pairwise {entries : List (t.Val × Offset)}
    (h : (entries.map Prod.fst).Nodup) :
    (sortEntries t entries).Pairwise fun x y => orderingLess t x.1 y.1 = true := by
  have horder := strictTotal_orderingLess t
  have : Std.Total fun x y : t.Val × Offset => orderingLess t y.1 x.1 = false := by
    refine ⟨fun x y => ?_⟩
    by_cases hless : orderingLess t y.1 x.1 = true
    · exact .inr (horder.not_less_of_less hless)
    · exact .inl (Bool.eq_false_iff.mpr hless)
  have : IsTrans (t.Val × Offset) fun x y => orderingLess t y.1 x.1 = false := by
    refine ⟨fun x y z hxy hyz => ?_⟩
    by_cases hless : orderingLess t x.1 y.1 = true
    · by_contra hne
      have hzx : orderingLess t z.1 x.1 = true := by simpa only [Bool.not_eq_false] using hne
      have hzy := horder.less_trans hzx hless
      rw [hyz] at hzy
      exact Bool.false_ne_true hzy
    · rw [horder.eq_of_ties (Bool.eq_false_iff.mpr hless) hxy]
      exact hyz
  have hsorted := List.pairwise_insertionSort
    (fun x y : t.Val × Offset => orderingLess t y.1 x.1 = false) entries
  have hdistinct : (sortEntries t entries).Pairwise fun x y => x.1 ≠ y.1 := by
    rw [← List.pairwise_map]
    exact ((sortEntries_perm entries).map Prod.fst).nodup_iff.mpr h
  refine (hsorted.and hdistinct).imp fun {x y} hxy => ?_
  by_contra hne
  exact hxy.2 (horder.eq_of_ties (Bool.eq_false_iff.mpr hne) hxy.1)

end Sorted

/-! ## What is found -/

section Found

variable {fb : Flatbuffers} {b : fb.Builder} {t : KeyTy} {vector : fb.Offset}
  {entries : List (t.Val × fb.Offset)}

/-- A vector holds entries: its tables are theirs, and read as their keys. -/
structure HoldsSorted (fb : Flatbuffers) (b : fb.Builder) (t : KeyTy) (vector : fb.Offset)
    (entries : List (t.Val × fb.Offset)) : Prop where
  tables_eq : fb.getVector b vector = entries.map Prod.snd
  keys_eq : ∀ entry ∈ entries, readKey fb b t entry.2 (fieldSlot 0) = entry.1
  sorted : entries.Pairwise fun x y => orderingLess t x.1 y.1 = true

/-- The test the halving loop makes at an index. -/
private def belowAt (q : Lookup t) (entries : List (t.Val × fb.Offset)) (i : Nat) : Bool :=
  match entries[i]? with
  | none => false
  | some entry => q.above entry.1

private theorem belowAt_mono (q : Lookup t)
    (hs : entries.Pairwise fun x y => orderingLess t x.1 y.1 = true) :
    ∀ i j, i < j → j < entries.length → belowAt q entries j = true →
      belowAt q entries i = true := by
  intro i j hij hj h
  have hi : i < entries.length := hij.trans hj
  simp only [belowAt, List.getElem?_eq_getElem hj] at h
  simp only [belowAt, List.getElem?_eq_getElem hi]
  exact q.above_of_less (List.pairwise_iff_getElem.mp hs i j hi hj hij) h

/-- The search, in terms of the entries a vector holds. -/
theorem HoldsSorted.findEntry_eq (h : HoldsSorted fb b t vector entries) (q : Lookup t) :
    findEntry fb b (some vector) q =
      match entries[lowerBound (belowAt q entries) 0 entries.length]? with
      | none => none
      | some entry => if q.matches entry.1 then some entry.2 else none := by
  have hat : ∀ i : Nat, (fb.getVector b vector)[i]? = entries[i]?.map Prod.snd := by
    intro i
    rw [h.tables_eq, List.getElem?_map]
  have hkey : ∀ {i : Nat} {entry : t.Val × fb.Offset}, entries[i]? = some entry →
      readKey fb b t entry.2 (fieldSlot 0) = entry.1 :=
    fun hi => h.keys_eq _ (List.mem_of_getElem? hi)
  have hbelow : entryBelow fb b (fb.getVector b vector) q = belowAt q entries := by
    funext mid
    rw [entryBelow, belowAt, hat]
    cases hmid : entries[mid]? with
    | none => rfl
    | some entry => simp only [Option.map_some, hkey hmid]
  have hlen : (fb.getVector b vector).length = entries.length := by
    rw [h.tables_eq, List.length_map]
  simp only [findEntry]
  rw [hbelow, hlen, hat]
  cases hlo : entries[lowerBound (belowAt q entries) 0 entries.length]? with
  | none => rfl
  | some entry => simp only [Option.map_some, hkey hlo]

/-- The entry whose key is looked for is found. -/
theorem HoldsSorted.findEntry_of_names (h : HoldsSorted fb b t vector entries) {q : Lookup t}
    {key : t.Val} {table : fb.Offset} (hm : (key, table) ∈ entries) (hn : q.Names key) :
    findEntry fb b (some vector) q = some table := by
  obtain ⟨i, hi, hget⟩ := List.mem_iff_getElem.mp hm
  have hfound : lowerBound (belowAt q entries) 0 entries.length = i := by
    refine lowerBound_eq (belowAt_mono q h.sorted) hi (fun j hj => ?_) ?_
    · have hless := List.pairwise_iff_getElem.mp h.sorted j i (hj.trans hi) hi hj
      rw [hget] at hless
      simp only [belowAt, List.getElem?_eq_getElem (hj.trans hi)]
      exact q.above_of_less_names hless hn
    · simp only [belowAt, List.getElem?_eq_getElem hi, hget]
      exact q.not_above_of_names hn
  rw [h.findEntry_eq, hfound, List.getElem?_eq_getElem hi, hget]
  simp only [(q.matches_iff key).mpr hn, ite_true]

/-- Where no key is looked for, nothing is found. -/
theorem HoldsSorted.findEntry_eq_none (h : HoldsSorted fb b t vector entries) {q : Lookup t}
    (hn : ∀ entry ∈ entries, ¬q.Names entry.1) : findEntry fb b (some vector) q = none := by
  rw [h.findEntry_eq]
  cases hlo : entries[lowerBound (belowAt q entries) 0 entries.length]? with
  | none => rfl
  | some entry =>
    have hno := hn entry (List.mem_of_getElem? hlo)
    rw [← q.matches_iff] at hno
    simp only [hno, Bool.false_eq_true, ite_false]

end Found

/-- A map that has been written holds its entries, sorted. -/
theorem encodeSortedMap_holds {fb : Flatbuffers} {V : Type} {w : ValueWriter fb V} {t : KeyTy}
    {memory : t.Val → Nat → UInt8} (m : SourceMap t V) {b b' b'' : fb.Builder}
    {vector : fb.Offset}
    (h : encodeSortedMap fb w t memory b m.entries = some (b', vector))
    (hl : fb.Later b' b'') :
    ∃ sorted, HoldsSorted fb b'' t vector sorted ∧
      (sorted.map Prod.fst).Perm (m.entries.map Prod.fst) ∧
      ∀ key table, (key, table) ∈ sorted → ∃ value, (key, value) ∈ m.entries ∧
        HoldsEntry fb w t b'' table key value := by
  rw [encodeSortedMap] at h
  split at h
  · cases h
  · next built collected hcollect =>
    have hvector := Option.some.inj h
    obtain ⟨-, hkeys, hheld⟩ := collectEntries_some hcollect
    have hwritten := fb.later_createVector built ((sortEntries t collected).map Prod.snd)
    have hread : fb.Later (fb.createVector built ((sortEntries t collected).map Prod.snd)).1 b'' →
        fb.getVector b'' (fb.createVector built ((sortEntries t collected).map Prod.snd)).2 =
          (sortEntries t collected).map Prod.snd := fb.getVector_later
    rw [hvector] at hwritten hread
    have hholds : ∀ key table, (key, table) ∈ sortEntries t collected →
        ∃ value, (key, value) ∈ m.entries ∧ HoldsEntry fb w t b'' table key value := by
      intro key table hm
      obtain ⟨value, hmem, hb⟩ := hheld key table ((sortEntries_perm collected).mem_iff.mp hm)
      exact ⟨value, hmem, hb b'' (fb.later_trans hwritten hl)⟩
    refine ⟨sortEntries t collected, ⟨hread hl, fun entry hm => ?_, ?_⟩, ?_, hholds⟩
    · obtain ⟨value, -, hb⟩ := hholds entry.1 entry.2 hm
      exact hb.key_eq
    · exact sortEntries_pairwise (hkeys ▸ m.nodup)
    · exact hkeys ▸ (sortEntries_perm collected).map Prod.fst

/-- A written map is searched rightly: the order is strict and total with its ties as
equality, the keys read back from the vector rise strictly, and a lookup gives the entry
whose key it names, or nothing where it names none. -/
theorem findEntry_encodeSortedMap {fb : Flatbuffers} {V : Type} {w : ValueWriter fb V}
    {t : KeyTy} {memory : t.Val → Nat → UInt8} (m : SourceMap t V) {b b' b'' : fb.Builder}
    {vector : fb.Offset}
    (h : encodeSortedMap fb w t memory b m.entries = some (b', vector))
    (hl : fb.Later b' b'') :
    StrictTotal (orderingLess t) ∧
    (∀ x y, (orderingEqual t x y = true ↔ x = y) ∧ (orderingEqual t x y = true ↔
      orderingLess t x y = false ∧ orderingLess t y x = false)) ∧
    ((readKeys fb b'' t vector).Perm (m.entries.map Prod.fst) ∧
      (readKeys fb b'' t vector).Pairwise fun x y => orderingLess t x y = true) ∧
    ∀ q : Lookup t,
      (∀ key value, (key, value) ∈ m.entries → q.Names key →
        ∃ table, findEntry fb b'' (some vector) q = some table ∧
          HoldsEntry fb w t b'' table key value) ∧
      ((∀ key ∈ m.entries.map Prod.fst, ¬q.Names key) →
        findEntry fb b'' (some vector) q = none) := by
  obtain ⟨sorted, hholds, hperm, hentries⟩ := encodeSortedMap_holds m h hl
  have horder := strictTotal_orderingLess t
  have hread : readKeys fb b'' t vector = sorted.map Prod.fst := by
    rw [readKeys, hholds.tables_eq, List.map_map]
    exact List.map_congr_left hholds.keys_eq
  refine ⟨horder, fun x y => ⟨orderingEqual_iff t x y, ?_⟩, ?_, fun q => ⟨?_, ?_⟩⟩
  · rw [orderingEqual_iff, horder.ties_iff]
  · rw [hread]
    exact ⟨hperm, List.pairwise_map.mpr hholds.sorted⟩
  · intro key value hm hn
    have hkey : key ∈ sorted.map Prod.fst :=
      hperm.mem_iff.mpr (List.mem_map.mpr ⟨(key, value), hm, rfl⟩)
    obtain ⟨⟨key', table⟩, hmem, rfl⟩ := List.mem_map.mp hkey
    obtain ⟨value', hm', hentry⟩ := hentries key' table hmem
    have hvalue : value' = value := by
      have hpair := List.inj_on_of_nodup_map m.nodup hm' hm rfl
      exact (Prod.mk.inj hpair).2
    exact ⟨table, hholds.findEntry_of_names hmem hn, hvalue ▸ hentry⟩
  · intro hn
    refine hholds.findEntry_eq_none fun entry hmem => hn entry.1 ?_
    exact hperm.mem_iff.mp (List.mem_map.mpr ⟨entry, hmem, rfl⟩)

/-- A writer of texts, each a string that its slot points to. -/
def textWriter : ValueWriter objects Bytes where
  alloc built text :=
    some ((objects.createString built text).1, some (objects.createString built text).2)
  write _ stored := some (stored.map .offset)
  later {b text _ _} h := by
    obtain ⟨rfl, -⟩ := Prod.mk.inj (Option.some.inj h)
    exact objects.later_createString b text

/-- The signed byte 3, and its negative. -/
def three : SignedInt .w8 := ⟨3, by decide⟩

@[inherit_doc three] def minusThree : SignedInt .w8 := ⟨-3, by decide⟩

/-- Two texts under signed bytes, the greater first. -/
def twoTexts : SourceMap (.inline (.scalar (.int .w8))) Bytes where
  entries := [(three, ascii "three"), (minusThree, ascii "minus three")]
  nodup := by
    have hne : three ≠ minusThree := by decide
    exact List.nodup_cons.mpr ⟨fun hm => hne (List.mem_singleton.mp hm), List.nodup_singleton _⟩

/-- A lookup of the unsigned 64-bit 3 under signed bytes. -/
def wideThree : Lookup (.inline (.scalar (.int .w8))) :=
  .scalar (.uint .w64) (⟨3, by decide⟩ : UnsignedInt .w64)

/-- An unsigned 64-bit 3 finds the text written under the signed byte 3. -/
theorem findEntry_encodeSortedMap_unsigned :
    ∃ built vector table,
      encodeSortedMap objects textWriter _ (fun _ _ => 0) [] twoTexts.entries =
        some (built, vector) ∧
      findEntry objects built (some vector) wideThree = some table ∧
      HoldsEntry objects textWriter (.inline (.scalar (.int .w8))) built table three
        (ascii "three") := by
  obtain ⟨⟨built, vector⟩, hwritten⟩ : ∃ written, encodeSortedMap objects textWriter _
      (fun _ _ => 0) [] twoTexts.entries = some written := ⟨_, rfl⟩
  have hlookup := (findEntry_encodeSortedMap twoTexts hwritten
    (objects.later_refl built)).2.2.2 wideThree
  have hnames : wideThree.Names three := rfl
  obtain ⟨table, hfound, hholds⟩ := hlookup.1 three _ List.mem_cons_self hnames
  exact ⟨built, vector, table, hwritten, hfound, hholds⟩

end Kotatsu.Codec.Fbs
