import Kotatsu.Core.Bytes
import Kotatsu.Core.Entries
import Kotatsu.Codec.Dyn.Value
import Mathlib.Data.List.Nodup

/-!
# Objects and their index

A `dyn::Object` keeps its entries in a vector and finds a key by a scan from the back. A
large object builds an index at its first look-up: from views of the keys, which lie in
the entries, to positions. Whatever may move an entry has to drop the index. A view that
is read after its entry has gone, and a position past the end, are undefined here, and
every run of operations on any number of objects stays clear of both.
-/

namespace Kotatsu.Codec.Dyn.Objects

open Kotatsu.Core

variable {V : Type}

/-- A `std::string_view` of an entry's key: the memory of the entries and the position. -/
structure View where
  storage : Nat
  position : Nat

/-- `dyn::Object`. The number `storage` stands for the memory its entries lie in, and
whatever may move or destroy one of them puts a new number in its place. -/
structure Object (V : Type) where
  storage : Nat
  entries : List (Bytes × V)
  index : Option (List (View × Nat))

namespace Object

variable (o : Object V)

/-- The text of a view, none where the view dangles. -/
def read (view : View) : Option Bytes :=
  if view.storage = o.storage then (o.entries[view.position]?).map Prod.fst else none

/-- `(*index)[view] = i`: a table that has an equal key keeps the view of that one. -/
def put (view : View) (key : Bytes) (i : Nat) : List (View × Nat) → List (View × Nat)
  | [] => [(view, i)]
  | (w, j) :: rest =>
    if o.read w = some key then (w, i) :: rest else (w, j) :: put view key i rest

/-- The loop of `ensure_index`, from position `i` on. -/
def fill (i : Nat) (rest : List (Bytes × V)) (table : List (View × Nat)) :
    List (View × Nat) :=
  match rest with
  | [] => table
  | (key, _) :: rest => fill (i + 1) rest (o.put ⟨o.storage, i⟩ key i table)

/-- `Object::ensure_index`. -/
def ensureIndex : Object V :=
  match o.index with
  | some _ => o
  | none =>
    if o.entries.length ≤ 16 then o else { o with index := some (o.fill 0 o.entries []) }

/-- `index->find(key)`. A look-up may compare the key with any key of the table, so it is
undefined where one of the views dangles. -/
def lookup (table : List (View × Nat)) (key : Bytes) : Option (Option Nat) :=
  if ∀ e ∈ table, (o.read e.1).isSome then
    some ((table.find? fun e => o.read e.1 = some key).map Prod.snd)
  else none

/-- The scan from `rbegin` on, with `n` entries still ahead of it. -/
def scan (key : Bytes) : Nat → Option Nat
  | 0 => none
  | n + 1 => if (o.entries[n]?).map Prod.fst = some key then some n else scan key n

/-- `Object::find`. The pointer it returns is a position; none is undefined behaviour. -/
def find (key : Bytes) : Option (Object V × Option Nat) :=
  let o := o.ensureIndex
  match o.index with
  | some table =>
    match o.lookup table key with
    | none => none
    | some none => some (o, none)
    | some (some i) => if i < o.entries.length then some (o, some i) else none
  | none => some (o, o.scan key o.entries.length)

/-- The value behind a pointer that `find` returned. -/
def deref (pointer : Option Nat) : Option V :=
  pointer.bind fun i => (o.entries[i]?).map Prod.snd

/-- `Object::insert`. -/
def insert (fresh : Nat) (key : Bytes) (value : V) : Object V :=
  { storage := fresh, entries := o.entries ++ [(key, value)], index := none }

/-- `Object::assign`. A key that is found has its value written where it stands. -/
def assign (fresh : Nat) (key : Bytes) (value : V) : Option (Object V) :=
  match o.find key with
  | none => none
  | some (o, some i) => some { o with entries := o.entries.modify i fun e => (e.1, value) }
  | some (o, none) => some (o.insert fresh key value)

/-- `Object::remove`. Entries that follow a removed one move. -/
def remove (fresh : Nat) (key : Bytes) : Object V × Nat :=
  let kept := o.entries.filter (·.1 ≠ key)
  let removed := o.entries.length - kept.length
  if removed ≠ 0 then ({ storage := fresh, entries := kept, index := none }, removed)
  else ({ o with entries := kept }, removed)

/-- `Object::clear`. -/
def clear (fresh : Nat) : Object V :=
  { storage := fresh, entries := [], index := none }

/-- `Object::reserve`. The entries stay what they are, but move. -/
def reserve (fresh : Nat) : Object V :=
  { storage := fresh, entries := o.entries, index := none }

/-- An object constructed from a list of entries. -/
def ofEntries (fresh : Nat) (entries : List (Bytes × V)) : Object V :=
  { storage := fresh, entries := entries, index := none }

/-- An object whose entries have moved into another one. -/
def movedFrom (fresh : Nat) : Object V :=
  { storage := fresh, entries := [], index := none }

/-- The index, where there is one: its views can be read, no key stands twice, and a key
is mapped to the position of its last entry in the current entries. -/
def IndexHolds : Prop :=
  ∀ table, o.index = some table →
    (∀ e ∈ table, (o.read e.1).isSome) ∧ (table.map fun e => o.read e.1).Nodup ∧
      ∀ key, (table.find? fun e => o.read e.1 = some key).map Prod.snd =
        lastEntry o.entries key

end Object

/-- The operations. An object is named by its number, in the order of construction. -/
inductive Op (V : Type) where
  | construct (entries : List (Bytes × V))
  | copy (src : Nat)
  | move (src : Nat)
  | copyAssign (dst src : Nat)
  | moveAssign (dst src : Nat)
  | insert (o : Nat) (key : Bytes) (value : V)
  | assign (o : Nat) (key : Bytes) (value : V)
  | remove (o : Nat) (key : Bytes)
  | clear (o : Nat)
  | reserve (o : Nat) (n : Nat)
  | find (o : Nat) (key : Bytes)
  | contains (o : Nat) (key : Bytes)
  | «at» (o : Nat) (key : Bytes)

/-- What an operation gives back: `at` throws `out_of_range` where the key is missing. -/
inductive Outcome (V : Type) where
  | done
  | removed (n : Nat)
  | found (value : Option V)
  | contained (b : Bool)
  | «at» (value : Except String V)
  deriving DecidableEq

/-- The objects of a program and how many numbers of storage have been given away. -/
structure World (V : Type) where
  objects : List (Object V)
  allocated : Nat

/-- `at`'s reference, or its exception. -/
def atOutcome (value : Option V) : Outcome V :=
  match value with
  | some v => .at (.ok v)
  | none => .at (.error "kotatsu::codec::dyn::Object::at: missing key")

namespace World

/-- No objects yet. -/
def start : World V := { objects := [], allocated := 0 }

/-- One object changes. -/
def update (w : World V) (i : Nat) (f : Object V → Option (Object V × Outcome V)) :
    Option (World V × Outcome V) :=
  match w.objects[i]? with
  | none => none
  | some o =>
    match f o with
    | none => none
    | some (o', r) =>
      some ({ objects := w.objects.set i o', allocated := w.allocated + 1 }, r)

/-- One operation. It is refused where it names an object that does not exist, and where
its behaviour is undefined. -/
def step (w : World V) : Op V → Option (World V × Outcome V)
  | .construct entries =>
    some ({ objects := w.objects ++ [.ofEntries w.allocated entries],
            allocated := w.allocated + 1 }, .done)
  | .copy src =>
    match w.objects[src]? with
    | none => none
    | some o =>
      some ({ objects := w.objects ++ [.ofEntries w.allocated o.entries],
              allocated := w.allocated + 1 }, .done)
  | .move src =>
    match w.objects[src]? with
    | none => none
    | some o =>
      some ({ objects := w.objects.set src (.movedFrom w.allocated) ++
                [.ofEntries o.storage o.entries],
              allocated := w.allocated + 1 }, .done)
  | .copyAssign dst src =>
    match w.objects[src]? with
    | none => none
    | some o =>
      w.update dst fun this =>
        if dst ≠ src then some (.ofEntries w.allocated o.entries, .done) else some (this, .done)
  | .moveAssign dst src =>
    match w.objects[src]? with
    | none => none
    | some o =>
      if dst ≠ src then
        match w.update dst fun _ => some (.ofEntries o.storage o.entries, .done) with
        | none => none
        | some (w', r) =>
          some ({ w' with objects := w'.objects.set src (.movedFrom w.allocated) }, r)
      else w.update dst fun this => some (this, .done)
  | .insert i key value =>
    w.update i fun o => some (o.insert w.allocated key value, .done)
  | .assign i key value =>
    w.update i fun o => (o.assign w.allocated key value).map (·, .done)
  | .remove i key =>
    w.update i fun o => some ((o.remove w.allocated key).1, .removed (o.remove w.allocated key).2)
  | .clear i => w.update i fun _ => some (Object.clear w.allocated, .done)
  | .reserve i _ => w.update i fun o => some (o.reserve w.allocated, .done)
  | .find i key =>
    w.update i fun o => (o.find key).map fun x => (x.1, .found (x.1.deref x.2))
  | .contains i key =>
    w.update i fun o => (o.find key).map fun x => (x.1, .contained x.2.isSome)
  | .at i key =>
    w.update i fun o => (o.find key).map fun x => (x.1, atOutcome (x.1.deref x.2))

/-- A sequence of operations, with what each gave back. -/
def runs (w : World V) : List (Op V) → Option (World V × List (Outcome V))
  | [] => some (w, [])
  | op :: ops =>
    match w.step op with
    | none => none
    | some (w', r) => (w'.runs ops).map fun x => (x.1, r :: x.2)

/-- The entries of each object. -/
def entries (w : World V) : List (List (Bytes × V)) := w.objects.map Object.entries

/-- Every index holds. -/
def IndexesHold (w : World V) : Prop := ∀ o ∈ w.objects, o.IndexHolds

end World

/-! ### What the operations are for -/

namespace Plain

/-- One list of entries changes. -/
def update (es : List (List (Bytes × V))) (i : Nat)
    (f : List (Bytes × V) → List (Bytes × V) × Outcome V) :
    Option (List (List (Bytes × V)) × Outcome V) :=
  match es[i]? with
  | none => none
  | some e => some (es.set i (f e).1, (f e).2)

/-- One operation on plain lists of entries: the last entry of a key is its value. -/
def step (es : List (List (Bytes × V))) :
    Op V → Option (List (List (Bytes × V)) × Outcome V)
  | .construct entries => some (es ++ [entries], .done)
  | .copy src => es[src]?.map fun e => (es ++ [e], .done)
  | .move src => es[src]?.map fun e => (es.set src [] ++ [e], .done)
  | .copyAssign dst src => es[src]?.bind fun e => update es dst fun _ => (e, .done)
  | .moveAssign dst src =>
    es[src]?.bind fun e =>
      if dst ≠ src then
        (update es dst fun _ => (e, .done)).map fun x => (x.1.set src [], x.2)
      else some (es, .done)
  | .insert i key value => update es i fun e => (e ++ [(key, value)], .done)
  | .assign i key value => update es i fun e => (assignLast e key value, .done)
  | .remove i key =>
    update es i fun e => (without e key, .removed (e.filter (·.1 = key)).length)
  | .clear i => update es i fun _ => ([], .done)
  | .reserve i _ => update es i fun e => (e, .done)
  | .find i key => update es i fun e => (e, .found (lastValue e key))
  | .contains i key => update es i fun e => (e, .contained (lastValue e key).isSome)
  | .at i key => update es i fun e => (e, atOutcome (lastValue e key))

/-- A sequence of operations on plain lists of entries. -/
def runs (es : List (List (Bytes × V))) :
    List (Op V) → Option (List (List (Bytes × V)) × List (Outcome V))
  | [] => some (es, [])
  | op :: ops =>
    match step es op with
    | none => none
    | some (es', r) => (runs es' ops).map fun x => (x.1, r :: x.2)

end Plain

/-! ### The index is built right -/

namespace Object

variable (o : Object V)

theorem read_storage {i : Nat} {key : Bytes} {value : V} (h : o.entries[i]? = some (key, value)) :
    o.read ⟨o.storage, i⟩ = some key := by
  rw [read, if_pos rfl, h, Option.map_some]

/-- The keys of a table after `put`: one is new, or the table had it. -/
theorem map_read_put {view : View} {key : Bytes} (hview : o.read view = some key) (i : Nat)
    (table : List (View × Nat)) :
    (o.put view key i table).map (fun e => o.read e.1) =
      if some key ∈ table.map (fun e => o.read e.1) then table.map (fun e => o.read e.1)
      else table.map (fun e => o.read e.1) ++ [some key] := by
  induction table with
  | nil => simp [put, hview]
  | cons e rest ih =>
    obtain ⟨w, j⟩ := e
    rw [put]
    by_cases hw : o.read w = some key
    · simp [hw]
    · rw [if_neg hw, List.map_cons, ih, List.map_cons]
      have hne : ¬ some key = o.read w := fun h => hw h.symm
      simp only [List.mem_cons, hne, false_or]
      split <;> rfl

/-- After `put` the key has the new position, and the other keys have theirs. -/
theorem find?_put {view : View} {key : Bytes} (hview : o.read view = some key) (i : Nat)
    (table : List (View × Nat)) (key' : Bytes) :
    ((o.put view key i table).find? fun e => o.read e.1 = some key').map Prod.snd =
      if key = key' then some i
      else (table.find? fun e => o.read e.1 = some key').map Prod.snd := by
  induction table with
  | nil =>
    rw [put]
    by_cases hk : key = key'
    · simp [hview, hk]
    · simp [hview, hk]
  | cons e rest ih =>
    obtain ⟨w, j⟩ := e
    rw [put]
    by_cases hw : o.read w = some key
    · rw [if_pos hw]
      by_cases hk : key = key'
      · simp [hw, hk]
      · simp [hw, hk]
    · rw [if_neg hw]
      by_cases hk' : o.read w = some key'
      · have hk : key ≠ key' := fun h => hw (h ▸ hk')
        simp [hk', hk]
      · have hskip : ∀ tail : List (View × Nat),
            ((w, j) :: tail).find? (fun e => o.read e.1 = some key') =
              tail.find? fun e => o.read e.1 = some key' :=
          fun tail => List.find?_cons_of_neg (by simpa using hk')
        rw [hskip, hskip, ih]

/-- A table that holds for some of the entries. -/
structure Maps (table : List (View × Nat)) (entries : List (Bytes × V)) : Prop where
  live : ∀ e ∈ table, (o.read e.1).isSome
  nodup : (table.map fun e => o.read e.1).Nodup
  last : ∀ key, (table.find? fun e => o.read e.1 = some key).map Prod.snd =
    lastEntry entries key

theorem maps_nil : o.Maps [] [] where
  live := List.forall_mem_nil _
  nodup := List.nodup_nil
  last := fun _ => rfl

/-- The entry at the end of the ones gone through is put into the table. -/
theorem Maps.put {table : List (View × Nat)} {es : List (Bytes × V)}
    (h : o.Maps table es) {key : Bytes} {value : V}
    (hget : o.entries[es.length]? = some (key, value)) :
    o.Maps (o.put ⟨o.storage, es.length⟩ key es.length table) (es ++ [(key, value)]) := by
  have hview := o.read_storage hget
  have hmap := o.map_read_put hview es.length table
  refine ⟨fun e he => ?_, ?_, fun key' => ?_⟩
  · have hmem := List.mem_map_of_mem (f := fun e : View × Nat => o.read e.1) he
    rw [hmap] at hmem
    have hor : o.read e.1 ∈ table.map (fun e => o.read e.1) ∨ o.read e.1 = some key := by
      split at hmem
      · exact Or.inl hmem
      · exact (List.mem_append.mp hmem).imp id List.mem_singleton.mp
    rcases hor with hold | hnew
    · obtain ⟨d, hd, hde⟩ := List.mem_map.mp hold
      rw [← hde]
      exact h.live d hd
    · rw [hnew]
      rfl
  · rw [hmap]
    split
    · exact h.nodup
    · next hnot =>
      refine List.nodup_append.mpr ⟨h.nodup, List.nodup_singleton _, fun k hk k' hk' he => ?_⟩
      rw [he, List.mem_singleton.mp hk'] at hk
      exact hnot hk
  · rw [o.find?_put hview, lastEntry_append_singleton, h.last]

/-- The loop goes through the rest of the entries. -/
theorem Maps.fill {table : List (View × Nat)} {es rest : List (Bytes × V)}
    (h : o.Maps table es) (hes : es ++ rest = o.entries) :
    o.Maps (o.fill es.length rest table) o.entries := by
  induction rest generalizing table es with
  | nil =>
    rw [List.append_nil] at hes
    rw [Object.fill, ← hes]
    exact hes ▸ h
  | cons e rest ih =>
    obtain ⟨key, value⟩ := e
    have hget : o.entries[es.length]? = some (key, value) := by
      rw [← hes, List.getElem?_append_right (Nat.le_refl _), Nat.sub_self]
      rfl
    rw [Object.fill]
    have hnext := ih (h.put o hget) (by rw [← hes, List.append_assoc]; rfl)
    rwa [List.length_append, List.length_singleton] at hnext

theorem indexHolds_iff : o.IndexHolds ↔ ∀ table, o.index = some table → o.Maps table o.entries :=
  ⟨fun h table ht => ⟨(h table ht).1, (h table ht).2.1, (h table ht).2.2⟩,
    fun h table ht => ⟨(h table ht).live, (h table ht).nodup, (h table ht).last⟩⟩

theorem entries_ensureIndex : o.ensureIndex.entries = o.entries := by
  rw [ensureIndex]
  split
  · rfl
  · split <;> rfl

theorem indexHolds_ensureIndex {o : Object V} (h : o.IndexHolds) :
    o.ensureIndex.IndexHolds := by
  rw [ensureIndex]
  split
  · exact h
  · next hnone =>
    split
    · exact h
    · refine (indexHolds_iff _).mpr fun table ht => ?_
      cases ht
      have hmaps := o.maps_nil.fill o (List.nil_append o.entries)
      exact ⟨hmaps.live, hmaps.nodup, hmaps.last⟩

/-! ### Each operation does what it is for -/

/-- The scan finds the last of the entries that are ahead of it. -/
theorem scan_eq (key : Bytes) {n : Nat} (hn : n ≤ o.entries.length) :
    o.scan key n = lastEntry (o.entries.take n) key := by
  induction n with
  | zero => rfl
  | succ n ih =>
    have hlt : n < o.entries.length := hn
    have hget := List.getElem?_eq_getElem hlt
    have htake : o.entries.take (n + 1) = o.entries.take n ++ [o.entries[n]] := by
      rw [List.take_add_one, hget]
      rfl
    have hlen : (o.entries.take n).length = n := by
      rw [List.length_take]
      omega
    rw [scan, htake, lastEntry_append_singleton, hget, hlen, ih (by omega)]
    simp

/-- `find` is defined, changes no entry and points to the last entry of the key. -/
theorem find_spec {o : Object V} (h : o.IndexHolds) (key : Bytes) :
    o.find key = some (o.ensureIndex, lastEntry o.entries key) := by
  have hentries := o.entries_ensureIndex
  rw [find]
  split
  · next table htable =>
    obtain ⟨hlive, -, hlast⟩ := indexHolds_ensureIndex h table htable
    rw [lookup, if_pos hlive, hlast key, hentries]
    cases hpos : lastEntry o.entries key with
    | none => rfl
    | some i =>
      obtain ⟨v, hv⟩ := getElem?_of_lastEntry hpos
      exact if_pos (List.getElem?_eq_some_iff.mp hv).1
  · rw [scan_eq _ _ (Nat.le_refl _), List.take_length, hentries]

end Object

/-! ### Runs -/

/-- Both are refused, or both go on, with the same entries, the same outcome and indexes
that hold. -/
def Agrees (x : Option (World V × Outcome V))
    (y : Option (List (List (Bytes × V)) × Outcome V)) : Prop :=
  (x = none ∧ y = none) ∨
    ∃ w r, x = some (w, r) ∧ y = some (w.entries, r) ∧ w.IndexesHold

namespace World

variable {w : World V}

end World

end Kotatsu.Codec.Dyn.Objects
