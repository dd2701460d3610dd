import Mathlib.Data.List.Induction

/-!
# Blocks of memory and the elements in them

Memory is a family of blocks whose places are uninitialized or hold an element. An element
is constructed in an uninitialized place, and assigned or destroyed where there is one; all
else is undefined. Moving an element leaves its `husk` behind. What the loops of a container
do comes down to `put`, which makes consecutive places hold a list.
-/

namespace Kotatsu.Core

/-- Blocks of memory: the number of their places, and the elements in these. -/
structure Slots (β α : Type) where
  room : β → Nat
  slot : β → Nat → Option α

/-- A place of a block. -/
structure Place (β : Type) where
  block : β
  index : Nat
deriving DecidableEq

/-- What an element is made from: a value, an element to copy, or one to move. -/
inductive Source (β α : Type) where
  | value (a : α)
  | copy (p : Place β)
  | move (p : Place β)

namespace Place

variable {β : Type}

/-- The place `n` after this one. -/
def plus (p : Place β) (n : Nat) : Place β := { p with index := p.index + n }

/-- The sources that move the elements of consecutive places. -/
def moves {α : Type} (p : Place β) : Nat → List (Source β α)
  | 0 => []
  | n + 1 => .move p :: (p.plus 1).moves n

/-- The sources that copy the elements of consecutive places. -/
def copies {α : Type} (p : Place β) : Nat → List (Source β α)
  | 0 => []
  | n + 1 => .copy p :: (p.plus 1).copies n

end Place

namespace Slots

section

variable {β α : Type} {m : Slots β α} {p q : Place β} {xs ys pre post : List α} {a : α} {b : β}
  {s : Source β α} {n : Nat}

theorem ext {m m' : Slots β α} (hroom : m.room = m'.room)
    (hslot : ∀ b j, m.slot b j = m'.slot b j) : m = m' := by
  obtain ⟨room, slot⟩ := m
  obtain ⟨room', slot'⟩ := m'
  obtain rfl : room = room' := hroom
  obtain rfl : slot = slot' := funext fun b => funext (hslot b)
  rfl

def get (m : Slots β α) (p : Place β) : Option α := m.slot p.block p.index

/-- The places from `p` on hold a list. -/
def Live (m : Slots β α) (p : Place β) (xs : List α) : Prop :=
  ∀ k < xs.length, m.slot p.block (p.index + k) = xs[k]?

/-- The `n` places from `p` on are there, and uninitialized. -/
def Raw (m : Slots β α) (p : Place β) (n : Nat) : Prop :=
  p.index + n ≤ m.room p.block ∧ ∀ k < n, m.slot p.block (p.index + k) = none

/-- The `n` elements from `p` on. -/
def readEach (m : Slots β α) (p : Place β) : Nat → Option (List α)
  | 0 => some []
  | n + 1 => (m.get p).bind fun a => (m.readEach (p.plus 1) n).map (a :: ·)

/-- A block holds a list and no other elements. -/
def Holds (m : Slots β α) (b : β) (xs : List α) : Prop := ∀ j, m.slot b j = xs[j]?

/-- What a source gives that moves nothing. -/
def look (m : Slots β α) : Source β α → Option α
  | .value a => some a
  | .copy p => m.get p
  | .move _ => none

theorem Live.head (h : m.Live p (a :: xs)) : m.get p = some a := h 0 (Nat.succ_pos _)

theorem Live.tail (h : m.Live p (a :: xs)) : m.Live (p.plus 1) xs := by
  intro k hk
  have := h (k + 1) (Nat.succ_lt_succ hk)
  rwa [List.getElem?_cons_succ, Nat.add_comm k 1, ← Nat.add_assoc] at this

theorem Raw.head (h : m.Raw p (n + 1)) : p.index < m.room p.block ∧ m.get p = none :=
  ⟨Nat.lt_of_lt_of_le (Nat.lt_add_of_pos_right (Nat.succ_pos n)) h.1, h.2 0 (Nat.succ_pos n)⟩

theorem Raw.tail (h : m.Raw p (n + 1)) : m.Raw (p.plus 1) n := by
  refine ⟨?_, fun k hk => ?_⟩
  · rw [Place.plus, Nat.add_assoc, Nat.add_comm 1 n]
    exact h.1
  · have := h.2 (k + 1) (Nat.succ_lt_succ hk)
    rwa [Nat.add_comm k 1, ← Nat.add_assoc] at this

theorem Live.readEach (h : m.Live p xs) : m.readEach p xs.length = some xs := by
  induction xs generalizing p with
  | nil => rfl
  | cons x xs ih =>
    rw [List.length_cons, Slots.readEach, h.head, Option.bind_some, ih h.tail, Option.map_some]

/-- No place is uninitialized and holds an element. -/
theorem Live.apart (h : m.Live p xs) (hraw : m.Raw q n) {i j : Nat} (hi : i < xs.length)
    (hj : j < n) (hblock : p.block = q.block) : p.index + i ≠ q.index + j := by
  intro heq
  have hlive := h i hi
  rw [hblock, heq, hraw.2 j hj, List.getElem?_eq_getElem hi] at hlive
  exact nomatch hlive

/-- Part of what a block holds. -/
theorem Holds.live (h : m.Holds b (pre ++ xs ++ post)) : m.Live ⟨b, pre.length⟩ xs := by
  intro k hk
  rw [h, List.append_assoc, List.getElem?_append_right (Nat.le_add_right _ _),
    Nat.add_sub_cancel_left, List.getElem?_append_left hk]

theorem Holds.raw (h : m.Holds b xs) (hroom : xs.length + n ≤ m.room b) :
    m.Raw ⟨b, xs.length⟩ n :=
  ⟨hroom, fun _ _ => (h _).trans (List.getElem?_eq_none (Nat.le_add_right _ _))⟩

end

section

variable {β α : Type} [DecidableEq β]

def write (m : Slots β α) (p : Place β) (x : Option α) : Slots β α :=
  { m with slot := fun b j => if b = p.block ∧ j = p.index then x else m.slot b j }

/-- An element is constructed in an uninitialized place. -/
def construct (m : Slots β α) (p : Place β) (a : α) : Option (Slots β α) :=
  if p.index < m.room p.block ∧ m.get p = none then some (m.write p (some a)) else none

/-- An element is assigned. -/
def assign (m : Slots β α) (p : Place β) (a : α) : Option (Slots β α) :=
  if (m.get p).isSome then some (m.write p (some a)) else none

/-- An element is destroyed. -/
def destroy (m : Slots β α) (p : Place β) : Option (Slots β α) :=
  if (m.get p).isSome then some (m.write p none) else none

/-- What a source gives. -/
def fetch (husk : α → α) (m : Slots β α) : Source β α → Option (α × Slots β α)
  | .value a => some (a, m)
  | .copy p => (m.get p).map fun a => (a, m)
  | .move p => (m.get p).map fun a => (a, m.write p (some (husk a)))

/-- Elements are constructed from each source, in order. -/
def constructEach (husk : α → α) (m : Slots β α) (p : Place β) :
    List (Source β α) → Option (Slots β α)
  | [] => some m
  | s :: ss => (m.fetch husk s).bind fun (a, m) =>
    (m.construct p a).bind fun m => m.constructEach husk (p.plus 1) ss

/-- Elements are assigned from each source, in order. -/
def assignEach (husk : α → α) (m : Slots β α) (p : Place β) :
    List (Source β α) → Option (Slots β α)
  | [] => some m
  | s :: ss => (m.fetch husk s).bind fun (a, m) =>
    (m.assign p a).bind fun m => m.assignEach husk (p.plus 1) ss

/-- The `n` elements from `p` on are moved to those from `q` on, the last first. -/
def moveBackward (husk : α → α) (m : Slots β α) (p q : Place β) : Nat → Option (Slots β α)
  | 0 => some m
  | n + 1 => (m.fetch husk (.move (p.plus n))).bind fun (a, m) =>
    (m.assign (q.plus n) a).bind fun m => m.moveBackward husk p q n

/-- The `n` elements from `p` on are swapped with those from `q` on. -/
def swapEach (m : Slots β α) (p q : Place β) : Nat → Option (Slots β α)
  | 0 => some m
  | n + 1 => (m.get p).bind fun a => (m.get q).bind fun b =>
    ((m.write p (some b)).write q (some a)).swapEach (p.plus 1) (q.plus 1) n

/-- The `n` elements from `p` on are destroyed. -/
def destroyEach (m : Slots β α) (p : Place β) : Nat → Option (Slots β α)
  | 0 => some m
  | n + 1 => (m.destroy p).bind fun m => m.destroyEach (p.plus 1) n

/-- The places from `p` on hold a list, and the others what they held. -/
def put (m : Slots β α) (p : Place β) (xs : List α) : Slots β α :=
  { m with
    slot := fun b j =>
      if b = p.block ∧ p.index ≤ j ∧ j < p.index + xs.length then xs[j - p.index]?
      else m.slot b j }

/-- The `n` elements from `p` on are rotated, so that the `k`-th is the first. -/
def rotate (m : Slots β α) (p : Place β) (k n : Nat) : Option (Slots β α) :=
  (m.readEach p n).map fun xs => m.put p (xs.drop k ++ xs.take k)

/-- The `n` places from `p` on hold no elements. -/
def clear (m : Slots β α) (p : Place β) (n : Nat) : Slots β α :=
  { m with
    slot := fun b j =>
      if b = p.block ∧ p.index ≤ j ∧ j < p.index + n then none else m.slot b j }

variable {f : α → α} {m : Slots β α} {p q : Place β} {xs ys pre post : List α} {a : α}
  {b : β} {s : Source β α} {ss : List (Source β α)} {n : Nat} {x : Option α}

@[simp] theorem room_put : (m.put p xs).room = m.room := rfl

@[simp] theorem room_clear : (m.clear p n).room = m.room := rfl

@[simp] theorem put_nil : m.put p [] = m := by
  refine ext rfl fun b j => if_neg ?_
  rintro ⟨-, hle, hlt⟩
  exact absurd hlt (Nat.not_lt.mpr hle)

theorem put_cons : m.put p (a :: xs) = (m.write p (some a)).put (p.plus 1) xs := by
  refine ext rfl fun b j => ?_
  simp only [put, write, Place.plus, List.length_cons]
  grind

theorem clear_succ : m.clear p (n + 1) = (m.write p none).clear (p.plus 1) n := by
  refine ext rfl fun b j => ?_
  simp only [clear, write, Place.plus]
  grind

/-- A write elsewhere may come before. -/
theorem put_write (hp : ∀ k < xs.length, ¬(q.block = p.block ∧ q.index + k = p.index)) :
    (m.write p x).put q xs = (m.put q xs).write p x := by
  refine ext rfl fun b j => ?_
  simp only [put, write]
  by_cases hj : b = p.block ∧ j = p.index
  · have hout : ¬(b = q.block ∧ q.index ≤ j ∧ j < q.index + xs.length) := by
      rintro ⟨hblock, hle, hlt⟩
      exact hp (j - q.index) (by omega) ⟨hblock.symm.trans hj.1, by omega⟩
    rw [if_neg hout, if_pos hj, if_pos hj]
  · rw [if_neg hj, if_neg hj]

/-- Where there is an element, there is one after a write of one. -/
theorem isSome_write (h : (m.get q).isSome = true) :
    ((m.write p (some a)).get q).isSome = true := by
  by_cases hq : q.block = p.block ∧ q.index = p.index
  · exact congrArg Option.isSome (if_pos hq)
  · exact (congrArg Option.isSome (if_neg hq)).trans h

/-- A write elsewhere leaves what the places from `p` on hold. -/
theorem Live.write (h : m.Live p xs)
    (hq : ∀ k < xs.length, ¬(p.block = q.block ∧ p.index + k = q.index)) :
    (m.write q x).Live p xs :=
  fun k hk => (if_neg (hq k hk)).trans (h k hk)

theorem Raw.write (h : m.Raw p n) (hq : ∀ k < n, ¬(p.block = q.block ∧ p.index + k = q.index)) :
    (m.write q x).Raw p n :=
  ⟨h.1, fun k hk => (if_neg (hq k hk)).trans (h.2 k hk)⟩

/-- A source is read as it was after a write elsewhere. -/
theorem look_write (hs : s ≠ .copy p) : (m.write p x).look s = m.look s := by
  cases s with
  | value a => rfl
  | copy q =>
    refine if_neg ?_
    rintro ⟨hblock, hindex⟩
    obtain ⟨b, i⟩ := q
    obtain rfl : b = p.block := hblock
    obtain rfl : i = p.index := hindex
    exact hs rfl
  | move q => rfl

theorem fetch_look (h : m.look s = some a) : m.fetch f s = some (a, m) := by
  cases s with
  | value c =>
    cases h
    rfl
  | copy q =>
    rw [fetch, show m.get q = some a from h]
    rfl
  | move q => exact nomatch h

/-! ## What the loops do -/

/-- Constructing from sources that move nothing. -/
theorem constructEach_look (hlook : ss.map m.look = xs.map some) (hraw : m.Raw p xs.length) :
    m.constructEach f p ss = some (m.put p xs) := by
  induction ss generalizing m p xs with
  | nil =>
    obtain rfl : xs = [] := List.map_eq_nil_iff.mp hlook.symm
    rw [constructEach, put_nil]
  | cons s ss ih =>
    cases xs with
    | nil => exact nomatch hlook
    | cons x xs =>
      obtain ⟨hfirst, hrest⟩ := List.cons.inj hlook
      obtain ⟨hroom, hnone⟩ := hraw.head
      have hnext : ss.map (m.write p (some x)).look = xs.map some := by
        rw [← hrest]
        refine List.map_congr_left fun s hs => look_write ?_
        rintro rfl
        have hsome : m.look (.copy p) ∈ xs.map some := hrest ▸ List.mem_map_of_mem hs
        obtain ⟨y, -, hy⟩ := List.mem_map.mp hsome
        exact nomatch hy.trans hnone
      rw [constructEach, fetch_look hfirst, Option.bind_some]
      dsimp only
      rw [construct, if_pos ⟨hroom, hnone⟩, Option.bind_some, ih hnext, ← put_cons]
      refine hraw.tail.write fun k _ => ?_
      simp only [Place.plus]
      omega

/-- Assigning from sources that move nothing and are not assigned. -/
theorem assignEach_look (hlook : ss.map m.look = xs.map some) (hlive : m.Live p ys)
    (hlength : ys.length = xs.length)
    (hapart : ∀ q, .copy q ∈ ss →
      ¬(q.block = p.block ∧ p.index ≤ q.index ∧ q.index < p.index + xs.length)) :
    m.assignEach f p ss = some (m.put p xs) := by
  induction ss generalizing m p xs ys with
  | nil =>
    obtain rfl : xs = [] := List.map_eq_nil_iff.mp hlook.symm
    rw [assignEach, put_nil]
  | cons s ss ih =>
    cases xs with
    | nil => exact nomatch hlook
    | cons x xs =>
      obtain ⟨hfirst, hrest⟩ := List.cons.inj hlook
      cases ys with
      | nil => exact nomatch hlength
      | cons y ys =>
        have hnext : ss.map (m.write p (some x)).look = xs.map some := by
          rw [← hrest]
          refine List.map_congr_left fun s hs => look_write ?_
          rintro rfl
          refine hapart p (List.mem_cons_of_mem _ hs) ⟨rfl, Nat.le_refl _, ?_⟩
          rw [List.length_cons]
          omega
        have hleft : (m.write p (some x)).Live (p.plus 1) ys := hlive.tail.write fun k _ => by
          simp only [Place.plus]
          omega
        rw [assignEach, fetch_look hfirst, Option.bind_some]
        dsimp only
        rw [assign, if_pos (by rw [hlive.head]; rfl), Option.bind_some,
          ih hnext hleft (Nat.succ.inj hlength), ← put_cons]
        rintro q hq ⟨hblock, hle, hlt⟩
        simp only [Place.plus] at hblock hle hlt
        refine hapart q (List.mem_cons_of_mem _ hq) ⟨hblock, by omega, ?_⟩
        rw [List.length_cons]
        omega

/-- Assigning one value, which may be that of an element that is assigned. -/
theorem assignEach_replicate (hlook : m.look s = some a) (hlive : m.Live p ys) :
    m.assignEach f p (List.replicate ys.length s) =
      some (m.put p (List.replicate ys.length a)) := by
  induction ys generalizing m p with
  | nil => rw [List.length_nil, List.replicate_zero, List.replicate_zero, assignEach, put_nil]
  | cons y ys ih =>
    have hnext : (m.write p (some a)).look s = some a := by
      by_cases hs : s = .copy p
      · rw [hs]
        exact if_pos ⟨rfl, rfl⟩
      · rw [look_write hs, hlook]
    have hleft : (m.write p (some a)).Live (p.plus 1) ys := hlive.tail.write fun k _ => by
      simp only [Place.plus]
      omega
    rw [List.length_cons, List.replicate_succ, List.replicate_succ, assignEach, fetch_look hlook,
      Option.bind_some]
    dsimp only
    rw [assign, if_pos (by rw [hlive.head]; rfl), Option.bind_some, ih hnext hleft, ← put_cons]

theorem fetch_move (h : m.get p = some a) :
    m.fetch f (.move p) = some (a, m.write p (some (f a))) := by
  rw [fetch, h]
  rfl

/-- Elements are moved into uninitialized places. -/
theorem constructEach_moves (hlive : m.Live q xs) (hraw : m.Raw p xs.length) :
    m.constructEach f p (q.moves xs.length) =
      some ((m.put q (xs.map f)).put p xs) := by
  induction xs generalizing m p q with
  | nil => rw [List.map_nil, put_nil, put_nil]; rfl
  | cons x xs ih =>
    obtain ⟨hroom, hnone⟩ := hraw.head
    have hne : ∀ k < xs.length, ¬(q.block = p.block ∧ q.index + (k + 1) = p.index) :=
      fun k hk h => hlive.apart hraw (Nat.succ_lt_succ hk) (Nat.succ_pos _) h.1 h.2
    have hne' : ∀ k < xs.length, ¬(p.block = q.block ∧ p.index + (k + 1) = q.index) :=
      fun k hk h => hlive.apart hraw (Nat.succ_pos _) (Nat.succ_lt_succ hk) h.1.symm h.2.symm
    have hdiff : ¬(p.block = q.block ∧ p.index = q.index) := fun h =>
      hlive.apart hraw (Nat.succ_pos _) (Nat.succ_pos _) h.1.symm h.2.symm
    have hleft : ((m.write q (some (f x))).write p (some x)).Live (q.plus 1) xs := by
      refine (hlive.tail.write fun k _ => ?_).write fun k hk h => hne k hk ?_
      · simp only [Place.plus]
        omega
      · simp only [Place.plus] at h
        exact ⟨h.1, by omega⟩
    have hleft' : ((m.write q (some (f x))).write p (some x)).Raw (p.plus 1) xs.length := by
      refine (hraw.tail.write fun k hk h => hne' k hk ?_).write fun k _ => ?_
      · simp only [Place.plus] at h
        exact ⟨h.1, by omega⟩
      · simp only [Place.plus]
        omega
    rw [List.length_cons, Place.moves, constructEach, fetch_move hlive.head, Option.bind_some]
    dsimp only
    rw [construct, if_pos ⟨hroom, (if_neg hdiff).trans hnone⟩, Option.bind_some, ih hleft hleft']
    rw [List.map_cons, put_cons, put_cons, put_write fun k hk h => ?_]
    rw [List.length_map] at hk
    simp only [Place.plus] at h
    exact hne k hk ⟨h.1, by omega⟩

/-- Elements are moved forward, or to another block, over elements. -/
theorem assignEach_moves (hlive : m.Live q xs) (hover : ∀ k < xs.length,
      (m.get (p.plus k)).isSome = true) (horder : p.block = q.block → p.index ≤ q.index) :
    m.assignEach f p (q.moves xs.length) =
      some ((m.put q (xs.map f)).put p xs) := by
  induction xs generalizing m p q with
  | nil => rw [List.map_nil, put_nil, put_nil]; rfl
  | cons x xs ih =>
    have hsome : ((m.write q (some (f x))).get p).isSome = true :=
      isSome_write (hover 0 (Nat.succ_pos _))
    have hleft : ((m.write q (some (f x))).write p (some x)).Live (q.plus 1) xs := by
      refine (hlive.tail.write fun k _ => ?_).write fun k _ h => ?_
      · simp only [Place.plus]
        omega
      · simp only [Place.plus] at h
        have := horder h.1.symm
        omega
    have hover' : ∀ k < xs.length, (((m.write q (some (f x))).write p (some x)).get
        ((p.plus 1).plus k)).isSome = true := by
      intro k hk
      have hnext := hover (k + 1) (Nat.succ_lt_succ hk)
      rw [Place.plus, Nat.add_comm k 1, ← Nat.add_assoc] at hnext
      exact isSome_write (isSome_write hnext)
    rw [List.length_cons, Place.moves, assignEach, fetch_move hlive.head, Option.bind_some]
    dsimp only
    rw [assign, if_pos hsome, Option.bind_some,
      ih hleft hover' fun h => Nat.succ_le_succ (horder h)]
    rw [List.map_cons, put_cons, put_cons, put_write fun k _ h => ?_]
    simp only [Place.plus] at h
    have := horder h.1.symm
    omega

theorem put_concat : m.put p (xs ++ [a]) = (m.write (p.plus xs.length) (some a)).put p xs := by
  refine ext rfl fun b j => ?_
  simp only [put, write, Place.plus, List.length_append, List.length_singleton]
  grind

/-- Elements are moved towards the end of a block, over elements. -/
theorem moveBackward_eq (hlive : m.Live p xs) (hover : ∀ k < xs.length,
      (m.get (q.plus k)).isSome = true) (horder : p.index ≤ q.index) :
    m.moveBackward f p q xs.length = some ((m.put p (xs.map f)).put q xs) := by
  induction xs using List.reverseRecOn generalizing m with
  | nil => rw [List.map_nil, put_nil, put_nil]; rfl
  | append_singleton xs x ih =>
    have hlast : m.get (p.plus xs.length) = some x := by
      have := hlive xs.length (by rw [List.length_append]; exact Nat.lt_succ_self _)
      rw [List.getElem?_concat_length] at this
      exact this
    have hsome : ((m.write (p.plus xs.length) (some (f x))).get (q.plus xs.length)).isSome =
        true :=
      isSome_write (hover xs.length (by rw [List.length_append]; exact Nat.lt_succ_self _))
    have hleft : ((m.write (p.plus xs.length) (some (f x))).write (q.plus xs.length)
        (some x)).Live p xs := by
      have hfront : m.Live p xs := fun k hk => by
        rw [hlive k (by rw [List.length_append]; omega), List.getElem?_append_left hk]
      refine (hfront.write fun k hk => ?_).write fun k hk => ?_
      · simp only [Place.plus]
        omega
      · simp only [Place.plus]
        omega
    have hover' : ∀ k < xs.length, (((m.write (p.plus xs.length) (some (f x))).write
        (q.plus xs.length) (some x)).get (q.plus k)).isSome = true := fun k hk =>
      isSome_write (isSome_write (hover k (by rw [List.length_append]; omega)))
    rw [List.length_append, List.length_singleton, moveBackward, fetch_move hlast,
      Option.bind_some]
    dsimp only
    rw [assign, if_pos hsome, Option.bind_some, ih hleft hover', List.map_append,
      List.map_singleton, put_concat, put_concat, List.length_map, put_write fun k hk h => ?_]
    rw [List.length_map] at hk
    simp only [Place.plus] at h
    omega

/-- Elements of two blocks are swapped. -/
theorem swapEach_eq (hlive : m.Live p xs) (hother : m.Live q ys) (hlength : xs.length = ys.length)
    (hblock : p.block ≠ q.block) :
    m.swapEach p q xs.length = some ((m.put p ys).put q xs) := by
  induction xs generalizing m p q ys with
  | nil =>
    obtain rfl : ys = [] := List.length_eq_zero_iff.mp hlength.symm
    rw [put_nil, put_nil]
    rfl
  | cons x xs ih =>
    cases ys with
    | nil => exact nomatch hlength
    | cons y ys =>
      have hleft : ((m.write p (some y)).write q (some x)).Live (p.plus 1) xs := by
        refine (hlive.tail.write fun k _ => ?_).write fun k _ h => hblock h.1
        simp only [Place.plus]
        omega
      have hright : ((m.write p (some y)).write q (some x)).Live (q.plus 1) ys := by
        refine (hother.tail.write fun k _ h => hblock h.1.symm).write fun k _ => ?_
        simp only [Place.plus]
        omega
      rw [List.length_cons, swapEach, hlive.head, Option.bind_some, hother.head, Option.bind_some,
        ih hleft hright (Nat.succ.inj hlength) hblock, put_cons, put_cons]
      have happart : ∀ k < ys.length,
          ¬((p.plus 1).block = q.block ∧ (p.plus 1).index + k = q.index) :=
        fun k _ h => hblock h.1
      rw [put_write happart]

/-- Elements are destroyed. -/
theorem destroyEach_eq (hlive : m.Live p xs) :
    m.destroyEach p xs.length = some (m.clear p xs.length) := by
  induction xs generalizing m p with
  | nil =>
    refine congrArg some (ext rfl fun b j => (if_neg ?_).symm)
    rintro ⟨-, hle, hlt⟩
    exact absurd hlt (Nat.not_lt.mpr hle)
  | cons x xs ih =>
    have hleft : (m.write p none).Live (p.plus 1) xs := hlive.tail.write fun k _ => by
      simp only [Place.plus]
      omega
    rw [List.length_cons, destroyEach, destroy, if_pos (by rw [hlive.head]; rfl),
      Option.bind_some, ih hleft, clear_succ]

theorem rotate_eq (hlive : m.Live p xs) (k : Nat) :
    m.rotate p k xs.length = some (m.put p (xs.drop k ++ xs.take k)) := by
  rw [rotate, hlive.readEach, Option.map_some]

/-! ## Lists that blocks hold -/

theorem Holds.put_other (h : m.Holds b ys) (hb : b ≠ p.block) : (m.put p xs).Holds b ys :=
  fun j => (if_neg fun hj => hb hj.1).trans (h j)

/-- A list is put in the place of part of another one. -/
theorem Holds.put_part (h : m.Holds b (pre ++ ys ++ post)) (xs : List α)
    (hlength : ys.length = xs.length) :
    (m.put ⟨b, pre.length⟩ xs).Holds b (pre ++ xs ++ post) := by
  intro j
  simp only [put]
  split
  · next hj =>
    rw [List.append_assoc, List.getElem?_append_right hj.2.1, List.getElem?_append_left (by omega)]
  · next hj =>
    rw [h j, List.append_assoc, List.append_assoc]
    by_cases hlt : j < pre.length
    · rw [List.getElem?_append_left hlt, List.getElem?_append_left hlt]
    · have hge : pre.length + xs.length ≤ j := by
        by_contra hnot
        exact hj ⟨trivial, by omega, by omega⟩
      rw [List.getElem?_append_right (by omega), List.getElem?_append_right (by omega),
        List.getElem?_append_right (by omega), List.getElem?_append_right (by omega), hlength]

/-- A list is put behind another one. -/
theorem Holds.put_end (h : m.Holds b ys) (xs : List α) :
    (m.put ⟨b, ys.length⟩ xs).Holds b (ys ++ xs) := by
  intro j
  simp only [put]
  split
  · next hj => rw [List.getElem?_append_right hj.2.1]
  · next hj =>
    rw [h j]
    by_cases hlt : j < ys.length
    · rw [List.getElem?_append_left hlt]
    · have hge : ys.length + xs.length ≤ j := by
        by_contra hnot
        exact hj ⟨trivial, by omega, by omega⟩
      rw [List.getElem?_append_right (by omega), List.getElem?_eq_none (by omega),
        List.getElem?_eq_none (by omega)]

/-- The end of a list is cleared. -/
theorem Holds.clear_end (h : m.Holds b (ys ++ xs)) :
    (m.clear ⟨b, ys.length⟩ xs.length).Holds b ys := by
  intro j
  simp only [clear]
  split
  · next hj => rw [List.getElem?_eq_none hj.2.1]
  · next hj =>
    rw [h j]
    by_cases hlt : j < ys.length
    · rw [List.getElem?_append_left hlt]
    · have hge : ys.length + xs.length ≤ j := by
        by_contra hnot
        exact hj ⟨trivial, by omega, by omega⟩
      rw [List.getElem?_append_right (by omega), List.getElem?_eq_none (by omega),
        List.getElem?_eq_none (by omega)]

/-- A list is put in an empty block behind another one, which follows. -/
theorem Holds.put_front (h : m.Holds b []) {m' : Slots β α}
    (hslot : m'.slot b = (m.put ⟨b, ys.length⟩ xs).slot b) :
    (m'.put ⟨b, 0⟩ ys).Holds b (ys ++ xs) := by
  intro j
  simp only [put, hslot]
  by_cases hlt : j < ys.length
  · rw [if_pos ⟨trivial, Nat.zero_le _, by omega⟩, List.getElem?_append_left hlt, Nat.sub_zero]
  · rw [if_neg (fun hj => hlt (by omega)), List.getElem?_append_right (by omega)]
    split
    · rfl
    · next hj =>
      have hge : ys.length + xs.length ≤ j := by
        by_contra hnot
        exact hj ⟨trivial, by omega, by omega⟩
      rw [h j, List.getElem?_nil, List.getElem?_eq_none (by omega)]

end

end Slots

end Kotatsu.Core
