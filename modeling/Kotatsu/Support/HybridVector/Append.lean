import Mathlib.Algebra.Order.Group.Nat
import Mathlib.Tactic.Common
import Kotatsu.Core.Sources
import Kotatsu.Support.HybridVector.Effect

/-!
# Appending to a hybrid_vector

A vector keeps a list when its buffer holds it and the header tells its size and room, which
is at most `max_size`. Appending in place and into a new allocation come to the same list.
-/

namespace Kotatsu.Support.HybridVector

open Kotatsu.Core Kotatsu.Core.Slots

/-! ## Sizes -/

namespace Sizes

variable {z : Sizes} {base extra minCapacity : Nat}

theorem maxSize_lt (z : Sizes) : z.maxSize < z.word := by
  have hle : z.maxSize ≤ (z.word - 1) / z.bytes := Nat.min_le_right _ _
  have hdiv := Nat.div_le_self (z.word - 1) z.bytes
  have := z.word_pos
  omega

theorem maxSize_le (z : Sizes) : z.maxSize ≤ z.compact := Nat.min_le_left _ _

theorem add_eq (h : base + extra ≤ z.maxSize) : z.add base extra = some (base + extra) :=
  if_pos (Nat.lt_of_le_of_lt h z.maxSize_lt)

theorem toCompact_eq (h : base ≤ z.maxSize) : z.toCompact base = some base :=
  if_pos (Nat.le_trans h z.maxSize_le)

theorem checkedSize_eq (h : base ≤ z.maxSize) :
    z.checkedSize base extra = some (if base + extra ≤ z.maxSize then .ok (base + extra)
      else .error .capacityOverflow) := by
  rw [checkedSize, checkedSub_of_le h, Option.bind_some]
  by_cases hfits : base + extra ≤ z.maxSize
  · rw [if_neg (by omega), if_pos hfits, add_eq hfits, Option.map_some]
  · rw [if_pos (by omega), if_neg hfits]

/-- A capacity that a vector grows to is enough, and at most `max_size`. -/
theorem nextCapacity_eq (room : Nat) (hmin : minCapacity ≤ z.maxSize) (hpos : 0 < minCapacity) :
    ∃ n, z.nextCapacity room minCapacity = some (.ok n) ∧ minCapacity ≤ n ∧ n ≤ z.maxSize := by
  rw [nextCapacity, if_neg (Nat.not_lt.mpr hmin)]
  by_cases hroom : z.maxSize / 2 < room
  · rw [if_pos hroom]
    exact ⟨_, rfl, Nat.le_max_right _ _, Nat.max_le.mpr ⟨Nat.le_refl _, hmin⟩⟩
  · have hdouble : room + room ≤ z.maxSize := by omega
    rw [if_neg hroom, add_eq hdouble]
    exact ⟨_, rfl, Nat.le_max_right _ _, by omega⟩

theorem nextCapacity_error (room : Nat) (hmin : z.maxSize < minCapacity) :
    z.nextCapacity room minCapacity = some (.error .capacityOverflow) := if_pos hmin

end Sizes

/-! ## What a vector keeps -/

section

variable {α : Type}

/-- A header and a block of memory are a vector of a list. -/
structure Keeps (z : Sizes) (h : Header) (m : Memory α) (b : Block) (l : List α) : Prop where
  holds : m.Holds b l
  used : h.used = l.length
  room : h.room = m.room b
  le_room : l.length ≤ h.room
  le_max : h.room ≤ z.maxSize

abbrev Stores (z : Sizes) (s : State α) (l : List α) : Prop :=
  Keeps z s.header s.memory .own l

/-- An operation comes to what it means: both return, or both throw. -/
inductive Outcome.Rel {σ τ : Type} (R : σ → τ → Prop) : Outcome σ → Outcome τ → Prop
  | done {s : σ} {t : τ} (h : R s t) : Outcome.Rel R (.done s) (.done t)
  | threw {s : σ} {t : τ} (h : R s t) : Outcome.Rel R (.threw s) (.threw t)

/-- An operation is defined, and does to the vector what is meant to happen to the list. -/
def Does (z : Sizes) (op : Option (Outcome (State α))) (result : Outcome (List α)) : Prop :=
  ∃ out, op = some out ∧ out.Rel (Stores z) result

/-- Blocks that an operation does not use are as they were. -/
def Same (m m' : Memory α) (b : Block) : Prop := m'.room b = m.room b ∧ m'.slot b = m.slot b

end

section

variable {α : Type} {f : α → α} {z : Sizes} {g : Allocator} {s : State α}
  {m : Memory α} {h : Header} {b : Block} {l l' xs : List α}
  {sources : List (Source Block α)} {left : Option (Place Block)} {count capacity data : Nat}

theorem Header.setSize_eq (hroom : count ≤ h.room) (hmax : h.room ≤ z.maxSize) :
    h.setSize z count = some { h with used := count } := by
  rw [setSize, if_pos hroom, Sizes.toCompact_eq (Nat.le_trans hroom hmax), Option.map_some]

theorem Keeps.live (hk : Keeps z h m b l) : m.Live ⟨b, 0⟩ l := by
  have hholds : m.Holds b ([] ++ l ++ []) := by
    rw [List.nil_append, List.append_nil]
    exact hk.holds
  exact hholds.live

theorem Keeps.le (hk : Keeps z h m b l) : l.length ≤ z.maxSize :=
  Nat.le_trans hk.le_room hk.le_max

/-- The elements of a buffer, whatever was left of them, are destroyed. -/
theorem destroyElements_eq (hused : s.header.used = l.length) (hlive : s.memory.Live ⟨.own, 0⟩ l) :
    s.destroyElements = some ⟨{ s.header with used := 0 }, s.memory.clear ⟨.own, 0⟩ l.length⟩ := by
  rw [State.destroyElements, hused, destroyEach_eq hlive, Option.map_some]

/-- A block that holds a list becomes the buffer. -/
theorem adoptAllocation_spec (data : Nat) (hb : b ≠ .own) (hused : s.header.used = l.length)
    (hlive : s.memory.Live ⟨.own, 0⟩ l) (hholds : s.memory.Holds b l')
    (hroom : s.memory.room b = capacity) (hle : l'.length ≤ capacity)
    (hmax : capacity ≤ z.maxSize) :
    ∃ s', s.adoptAllocation z b data l'.length capacity = some s' ∧ Stores z s' l' ∧
      s'.header.room = capacity ∧ ∀ c, c ≠ .own → c ≠ b → Same s.memory s'.memory c := by
  rw [State.adoptAllocation, if_pos hle, destroyElements_eq hused hlive, Option.bind_some,
    Sizes.toCompact_eq (Nat.le_trans hle hmax), Option.bind_some, Sizes.toCompact_eq hmax,
    Option.map_some]
  refine ⟨_, rfl, ⟨fun j => ?_, rfl, hroom.symm, hle, hmax⟩, rfl, fun c hown hc => ⟨?_, ?_⟩⟩
  · exact (congrFun (slot_clear_other hb) j).trans (hholds j)
  · exact (if_neg hown).trans (if_neg hc)
  · exact ((if_neg hown).trans (if_neg hc)).trans (slot_clear_other hown)

theorem slot_openBlock {c : Block} (hc : c ≠ b) (m : Memory α) (n : Nat) :
    (openBlock m b n).slot c = m.slot c := if_neg hc

theorem room_openBlock {c : Block} (hc : c ≠ b) (m : Memory α) (n : Nat) :
    (openBlock m b n).room c = m.room c := if_neg hc

theorem room_openBlock_self (b : Block) (m : Memory α) (n : Nat) :
    (openBlock m b n).room b = n := if_pos (Eq.refl b)

theorem holds_openBlock (b : Block) (m : Memory α) (n : Nat) : (openBlock m b n).Holds b [] :=
  fun j => congrFun (if_pos rfl) j

/-- Sources deliver the same when an allocation is there. -/
theorem feeds_openBlock (hfeeds : m.Feeds sources xs left) (hfresh : Avoids sources .fresh)
    (n : Nat) : (openBlock m .fresh n).Feeds sources xs left :=
  hfeeds.of_slot fun s hs _ hb =>
    slot_openBlock (fun h => hfresh s hs (hb.trans (congrArg some h))) m n

/-- A new allocation is filled with what sources deliver. -/
theorem construct_fresh (capacity : Nat) (hfeeds : m.Feeds sources xs left)
    (hfresh : Avoids sources .fresh) {n : Nat} (hle : n + xs.length ≤ capacity) :
    ∃ m', (openBlock m .fresh capacity).constructEach f ⟨.fresh, n⟩ sources = some m' ∧
      m'.slot .fresh = ((openBlock m .fresh capacity).put ⟨.fresh, n⟩ xs).slot .fresh ∧
      m'.room .fresh = capacity ∧
      ∀ c, c ≠ .fresh → Same (m.drain f xs left) m' c := by
  have hopen := feeds_openBlock hfeeds hfresh capacity
  have hraw : (openBlock m .fresh capacity).Raw ⟨.fresh, n⟩ xs.length := ⟨hle, fun _ _ => rfl⟩
  refine ⟨_, hopen.construct hraw, ?_, ?_, fun c hc => ⟨?_, ?_⟩⟩
  · funext j
    simp only [put, hopen.slot_drain hfresh]
  · rw [room_put, room_drain]
    rfl
  · rw [room_put, room_drain, room_drain, room_openBlock hc]
  · exact (slot_put_other hc).trans (slot_drain (slot_openBlock hc _ _))

theorem Same.trans {m₁ m₂ m₃ : Memory α} (h : Same m₁ m₂ b) (h' : Same m₂ m₃ b) : Same m₁ m₃ b :=
  ⟨h'.1.trans h.1, h'.2.trans h.2⟩

theorem live_of_holds (hm : m.Holds b l) : m.Live ⟨b, 0⟩ l := by
  have hparts : m.Holds b ([] ++ l ++ []) := by
    rw [List.nil_append, List.append_nil]
    exact hm
  exact hparts.live

/-- A new allocation is filled with what sources deliver, and becomes the buffer. -/
theorem rebuild_spec (hs : Stores z s l) (hfeeds : s.memory.Feeds sources xs left)
    (hfresh : Avoids sources .fresh) (hown : (s.memory.drain f xs left).Holds .own l')
    (hlength : l'.length = l.length) (hle : xs.length ≤ capacity) (hmax : capacity ≤ z.maxSize) :
    ∃ s', (s.rebuild z g capacity xs.length fun memory first =>
        memory.constructEach f first sources) = some s' ∧ Stores z s' xs ∧
      s'.header.room = capacity ∧
      ∀ c, c ≠ .own → c ≠ .fresh → Same (s.memory.drain f xs left) s'.memory c := by
  obtain ⟨m', hm', hslot, hroom, hsame⟩ :=
    construct_fresh (f := f) (n := 0) capacity hfeeds hfresh (by omega)
  have hholds : m'.Holds .fresh xs := by
    have hput := (holds_openBlock .fresh s.memory capacity).put_end xs
    exact hput.of_slot hslot
  have hlive : m'.Live ⟨.own, 0⟩ l' := live_of_holds (hown.of_slot (hsame .own (by decide)).2)
  obtain ⟨s', heq, hs', hnew, hrest⟩ := adoptAllocation_spec (z := z) (s := { s with memory := m' })
    (b := .fresh) (s.header.allocate g capacity) (by decide)
    (hs.used.trans hlength.symm) hlive hholds hroom hle hmax
  rw [State.rebuild, hm', Option.bind_some]
  exact ⟨s', heq, hs', hnew, fun c hc hc' => (hsame c hc').trans (hrest c hc hc')⟩

/-- A vector is given room. -/
theorem reserve_spec (hs : Stores z s l) (hmax : capacity ≤ z.maxSize) :
    ∃ s', s.reserve f z g capacity = some (.done s') ∧ Stores z s' l ∧
      capacity ≤ s'.header.room ∧ ∀ c, c ≠ .own → c ≠ .fresh → Same s.memory s'.memory c := by
  by_cases hroom : s.header.room < capacity
  · obtain ⟨n, hn, hle, hmax'⟩ :=
      Sizes.nextCapacity_eq s.header.room hmax (Nat.zero_lt_of_lt hroom)
    have hfeeds : s.memory.Feeds (Place.moves ⟨.own, 0⟩ l.length) l (some ⟨.own, 0⟩) :=
      ⟨rfl, hs.live⟩
    have hparts : s.memory.Holds .own ([] ++ l ++ []) := by
      rw [List.nil_append, List.append_nil]
      exact hs.holds
    have hleft := hparts.put_part (l.map f) (List.length_map _).symm
    rw [List.nil_append, List.append_nil] at hleft
    obtain ⟨s', heq, hs', hnew, hsame⟩ := rebuild_spec (g := g) (f := f) hs hfeeds
      (avoids_moves (by decide)) hleft (List.length_map _)
      (Nat.le_trans hs.le_room (Nat.le_of_lt (Nat.lt_of_lt_of_le hroom hle))) hmax'
    rw [State.reserve, if_pos hroom, hn, Option.bind_some]
    dsimp only
    rw [hs.used, heq, Option.map_some]
    refine ⟨s', rfl, hs', hnew ▸ hle, fun c hc hc' => ?_⟩
    have hmoved : Same s.memory (s.memory.drain f l (some ⟨.own, 0⟩)) c :=
      ⟨rfl, slot_put_other hc⟩
    exact hmoved.trans (hsame c hc hc')
  · rw [State.reserve, if_neg hroom]
    exact ⟨s, rfl, hs, Nat.not_lt.mp hroom, fun _ _ _ => ⟨rfl, rfl⟩⟩

/-- Appending what sources deliver, in place or in a new allocation. -/
theorem appendSources_spec (hs : Stores z s l) (hfeeds : s.memory.Feeds sources xs left)
    (hfresh : Avoids sources .fresh) (hown : (s.memory.drain f xs left).Holds .own l')
    (hlength : l'.length = l.length) (hfits : l.length + xs.length ≤ z.maxSize) :
    ∃ s', s.appendSources f z g sources = some (.done s') ∧ Stores z s' (l' ++ xs) ∧
      (l.length + xs.length ≤ s.header.room → s'.header.room = s.header.room) ∧
      ∀ c, c ≠ .own → c ≠ .fresh → Same (s.memory.drain f xs left) s'.memory c := by
  rw [State.appendSources, State.appendWith, hfeeds.length, hs.used, Sizes.checkedSize_eq hs.le,
    if_pos hfits, Option.bind_some]
  dsimp only
  by_cases hroom : l.length + xs.length ≤ s.header.room
  · have hraw : s.memory.Raw ⟨.own, l.length⟩ xs.length :=
      hs.holds.raw (Nat.le_trans hroom (Nat.le_of_eq hs.room))
    rw [if_pos hroom, hfeeds.construct hraw, Option.bind_some,
      Header.setSize_eq hroom hs.le_max, Option.map_some]
    refine ⟨_, rfl, ⟨?_, ?_, ?_, ?_, hs.le_max⟩, fun _ => rfl, fun c hc _ => ⟨rfl, ?_⟩⟩
    · rw [← hlength]
      exact hown.put_end xs
    · rw [List.length_append, hlength]
    · rw [room_put, room_drain]
      exact hs.room
    · rw [List.length_append, hlength]
      exact hroom
    · exact slot_put_other hc
  · have hpos : 0 < l.length + xs.length := by omega
    obtain ⟨n, hn, hle, hmax⟩ := Sizes.nextCapacity_eq s.header.room hfits hpos
    rw [if_neg hroom, hn, Option.bind_some]
    dsimp only
    obtain ⟨m', hm', hslot, hroom', hsame⟩ :=
      construct_fresh (f := f) (n := l.length) n hfeeds hfresh hle
    have hlive : m'.Live ⟨.own, 0⟩ l' := live_of_holds (hown.of_slot (hsame .own (by decide)).2)
    have hraw : m'.Raw ⟨.fresh, 0⟩ l'.length := by
      refine ⟨?_, fun k hk => ?_⟩
      · rw [Nat.zero_add, hroom', hlength]
        omega
      · rw [hslot, Nat.zero_add]
        refine if_neg ?_
        rintro ⟨-, hge, -⟩
        exact absurd hge (by dsimp only; omega)
    have hhusks : ((m'.put ⟨.own, 0⟩ (l'.map f)).put ⟨.fresh, 0⟩ l').Live ⟨.own, 0⟩
        (l'.map f) := live_put.of_slot (slot_put_other (by decide))
    have hholds : ((m'.put ⟨.own, 0⟩ (l'.map f)).put ⟨.fresh, 0⟩ l').Holds .fresh
        (l' ++ xs) := by
      refine (holds_openBlock .fresh s.memory n).put_front ?_
      rw [slot_put_other (by decide), hslot, hlength]
    have hrooms : ((m'.put ⟨.own, 0⟩ (l'.map f)).put ⟨.fresh, 0⟩ l').room .fresh = n := by
      rw [room_put, room_put, hroom']
    obtain ⟨s', heq, hs', -, hrest⟩ := adoptAllocation_spec (z := z)
      (s := { s with memory := (m'.put ⟨.own, 0⟩ (l'.map f)).put ⟨.fresh, 0⟩ l' })
      (b := .fresh) (s.header.allocate g n) (by decide)
      (by rw [List.length_map, hlength, hs.used]) hhusks hholds hrooms
      (by rw [List.length_append, hlength]; exact hle) hmax
    rw [hm', Option.bind_some, ← hlength, constructEach_moves hlive hraw, Option.bind_some,
      ← List.length_append, heq, Option.map_some]
    refine ⟨s', rfl, hs', fun h => absurd h (by rwa [List.length_append, hlength]), ?_⟩
    intro c hc hc'
    have hmoved : Same m' ((m'.put ⟨.own, 0⟩ (l'.map f)).put ⟨.fresh, 0⟩ l') c :=
      ⟨rfl, (slot_put_other hc').trans (slot_put_other hc)⟩
    exact ((hsame c hc').trans hmoved).trans (hrest c hc hc')

/-- Appending more than a vector may hold. -/
theorem appendSources_threw (hs : Stores z s l)
    (hfits : z.maxSize < l.length + sources.length) :
    s.appendSources f z g sources = some (.threw s) := by
  rw [State.appendSources, State.appendWith, hs.used, Sizes.checkedSize_eq hs.le,
    if_neg (Nat.not_le.mpr hfits), Option.bind_some]

theorem emplaceBack_eq (source : Source Block α) :
    s.emplaceBack f z g source = s.appendSources f z g [source] := rfl

theorem appendFill_eq (count : Nat) (source : Source Block α) :
    s.appendFill f z g count source =
      s.appendSources f z g (List.replicate count source) := by
  rw [State.appendFill, State.appendSources, List.length_replicate]

theorem does_bounded {op : Option (Outcome (State α))} {result otherwise : List α}
    (hfits : result.length ≤ z.maxSize → ∃ s', op = some (.done s') ∧ Stores z s' result)
    (hlong : z.maxSize < result.length → ∃ s', op = some (.threw s') ∧ Stores z s' otherwise) :
    Does z op (bounded z result otherwise) := by
  by_cases hlength : result.length ≤ z.maxSize
  · obtain ⟨s', heq, hs'⟩ := hfits hlength
    rw [bounded, if_pos hlength]
    exact ⟨_, heq, .done hs'⟩
  · obtain ⟨s', heq, hs'⟩ := hlong (Nat.not_le.mp hlength)
    rw [bounded, if_neg hlength]
    exact ⟨_, heq, .threw hs'⟩

/-- Appending what sources deliver does so to the list. -/
theorem appendSources_does (hs : Stores z s l) (hfeeds : s.memory.Feeds sources xs left)
    (hfresh : Avoids sources .fresh) (hown : (s.memory.drain f xs left).Holds .own l')
    (hlength : l'.length = l.length) :
    Does z (s.appendSources f z g sources) (bounded z (l' ++ xs) l) := by
  refine does_bounded (fun hfits => ?_) fun hlong => ?_
  · rw [List.length_append, hlength] at hfits
    obtain ⟨s', heq, hs', -⟩ := appendSources_spec hs hfeeds hfresh hown hlength hfits
    exact ⟨s', heq, hs'⟩
  · rw [List.length_append, hlength, ← hfeeds.length] at hlong
    exact ⟨s, appendSources_threw hs hlong, hs⟩

/-! ## Arguments -/

theorem look_source (hm : m.Holds .own l) (item : Item α) :
    m.look item.source = item.resolve l := by
  cases item with
  | value a => rfl
  | element i => exact hm i

theorem map_of_resolveEach {items : List (Item α)} (h : resolveEach l items = some xs) :
    items.map (·.resolve l) = xs.map some := by
  induction items generalizing xs with
  | nil =>
    cases h
    rfl
  | cons item items ih =>
    obtain ⟨a, ha, h⟩ := Option.bind_eq_some_iff.mp h
    obtain ⟨rest, hrest, rfl⟩ := Option.map_eq_some_iff.mp h
    rw [List.map_cons, ha, ih hrest, List.map_cons]

theorem length_of_resolveEach {items : List (Item α)} (h : resolveEach l items = some xs) :
    items.length = xs.length := by
  have hmap := congrArg List.length (map_of_resolveEach h)
  rwa [List.length_map, List.length_map] at hmap

theorem resolve_item {items : List (Item α)} {item : Item α} {k : Nat}
    (h : resolveEach l items = some xs) (hk : items[k]? = some item) :
    item.resolve l = xs[k]? := by
  have hmap := congrArg (·[k]?) (map_of_resolveEach h)
  rw [List.getElem?_map, List.getElem?_map, hk, Option.map_some] at hmap
  obtain ⟨a, ha, heq⟩ := Option.map_eq_some_iff.mp hmap.symm
  rw [ha, ← heq]

theorem feeds_items {items : List (Item α)} (hm : m.Holds .own l)
    (h : resolveEach l items = some xs) : m.Feeds (items.map Item.source) xs none := by
  rw [Feeds, List.map_map, ← map_of_resolveEach h]
  exact List.map_congr_left fun item _ => look_source hm item

theorem block_source {item : Item α} (hb : item.source.block? = some b) : b = .own := by
  cases item with
  | value a => exact absurd hb (by simp [Item.source, Source.block?])
  | element i => exact (Option.some.inj hb).symm

theorem avoids_items (items : List (Item α)) (hb : b ≠ .own) :
    Avoids (items.map Item.source) b := by
  intro source hsource hblock
  obtain ⟨item, -, rfl⟩ := List.mem_map.mp hsource
  exact hb (block_source hblock)

/-- An argument delivers its value, and is left as it is meant to be. -/
theorem feeds_arg {arg : Arg α} {a : α} (hm : m.Holds .own l)
    (h : arg.resolve f l = some (a, l')) :
    ∃ left, m.Feeds [arg.source] [a] left ∧ (m.drain f [a] left).Holds .own l' ∧
      l'.length = l.length := by
  cases arg with
  | item x =>
    obtain ⟨c, hc, heq⟩ := Option.map_eq_some_iff.mp h
    obtain ⟨rfl, rfl⟩ := Prod.mk.inj heq
    refine ⟨none, ?_, hm, rfl⟩
    rw [Feeds, List.map_singleton, Arg.source, look_source hm, hc, List.map_singleton]
  | moved i =>
    obtain ⟨c, hc, heq⟩ := Option.map_eq_some_iff.mp h
    obtain ⟨rfl, rfl⟩ := Prod.mk.inj heq
    have hi := (List.getElem?_eq_some_iff.mp hc).1
    refine ⟨some ⟨.own, i⟩, ⟨rfl, fun k hk => ?_⟩, ?_, List.length_set⟩
    · obtain rfl : k = 0 := Nat.lt_one_iff.mp hk
      exact (hm i).trans hc
    · exact hm.put_set hi

theorem avoids_arg (arg : Arg α) (hb : b ≠ .own) : Avoids [arg.source] b := by
  intro source hsource hblock
  obtain rfl := List.mem_singleton.mp hsource
  cases arg with
  | item x => exact hb (block_source hblock)
  | moved i => exact hb (Option.some.inj hblock).symm

/-! ## The operations that append -/

theorem emplaceBack_does {arg : Arg α} {a : α} (hs : Stores z s l)
    (h : arg.resolve f l = some (a, l')) :
    Does z (s.emplaceBack f z g arg.source) (bounded z (l' ++ [a]) l) := by
  obtain ⟨left, hfeeds, hown, hlength⟩ := feeds_arg hs.holds h
  exact appendSources_does hs hfeeds (avoids_arg arg (by decide)) hown hlength

theorem feeds_replicate {item : Item α} {a : α} (hm : m.Holds .own l)
    (h : item.resolve l = some a) (n : Nat) :
    m.Feeds (List.replicate n item.source) (List.replicate n a) none := by
  rw [Feeds, List.map_replicate, look_source hm, h, List.map_replicate]

theorem avoids_replicate (item : Item α) (hb : b ≠ .own) (n : Nat) :
    Avoids (List.replicate n item.source) b := by
  intro source hsource hblock
  obtain rfl := List.eq_of_mem_replicate hsource
  exact hb (block_source hblock)

theorem appendFill_does {item : Item α} {a : α} (hs : Stores z s l)
    (h : item.resolve l = some a) :
    Does z (s.appendFill f z g count item.source)
      (bounded z (l ++ List.replicate count a) l) := by
  rw [appendFill_eq]
  exact appendSources_does hs (feeds_replicate hs.holds h count)
    (avoids_replicate item (by decide) count) hs.holds rfl

/-- A single-pass range is appended when its references to elements are read before the
vector grows; what comes before the one that does not fit stays, and none is read after it. -/
theorem appendEach_spec {items : List (Item α)} {start : Nat} {l₀ : List α}
    (hs : Stores z s l) (hfront : l₀ <+: l) (hlength : items.length = xs.length)
    (hitems : ∀ k item, items[k]? = some item → l.length + k < z.maxSize →
      item.resolve l₀ = xs[k]?)
    (hroom : s.header.room = start ∨ start < l.length)
    (hread : ∀ k i, items[k]? = some (.element i) →
      l.length + k ≤ start ∨ z.maxSize ≤ l.length + k) :
    Does z (s.appendEach f z g start items)
      (bounded z (l ++ xs) ((l ++ xs).take z.maxSize)) := by
  induction items generalizing s l xs with
  | nil =>
    obtain rfl : xs = [] := List.length_eq_zero_iff.mp hlength.symm
    rw [List.append_nil, bounded, if_pos hs.le]
    exact ⟨_, rfl, .done hs⟩
  | cons item items ih =>
    obtain ⟨a, rest, rfl⟩ := List.exists_cons_of_length_eq_add_one hlength.symm
    have hmax := hs.le
    have hsound :
        ¬(item.isElement = true ∧ s.header.room ≠ start ∧ s.header.used < z.maxSize) := by
      rintro ⟨helement, hmoved, hlt⟩
      rw [hs.used] at hlt
      cases item with
      | value a => exact absurd helement Bool.false_ne_true
      | element i =>
        obtain hfirst | hfirst := hread 0 i rfl <;> omega
    rw [State.appendEach, if_neg hsound, emplaceBack_eq]
    by_cases hfits : l.length + 1 ≤ z.maxSize
    · have ha : item.resolve l₀ = some a := hitems 0 item rfl hfits
      have hvalue : item.resolve l = some a := by
        cases item with
        | value c => exact ha
        | element i =>
          obtain ⟨tail, rfl⟩ := hfront
          exact (List.getElem?_append_left (List.getElem?_eq_some_iff.mp ha).1).trans ha
      have hfeeds : s.memory.Feeds [item.source] [a] none := feeds_replicate hs.holds hvalue 1
      have hfresh : Avoids [item.source] .fresh := avoids_replicate item (by decide) 1
      obtain ⟨s', heq, hs', hsame, -⟩ :=
        appendSources_spec (g := g) (f := f) hs hfeeds hfresh hs.holds rfl hfits
      rw [heq, Option.bind_some, show l ++ a :: rest = (l ++ [a]) ++ rest by
        rw [List.append_assoc, List.singleton_append]]
      refine ih hs' (hfront.trans (List.prefix_append _ _)) (Nat.succ.inj hlength)
        (fun k item hk hle => hitems (k + 1) item hk ?_) ?_ fun k i hk => ?_
      · rw [List.length_append, List.length_singleton] at hle
        omega
      · rw [List.length_append, List.length_singleton]
        have := hsame
        rw [List.length_singleton] at this
        omega
      · have := hread (k + 1) i hk
        rw [List.length_append, List.length_singleton]
        omega
    · have htake : (l ++ a :: rest).take z.maxSize = l := by
        rw [show z.maxSize = l.length by omega, List.take_left]
      have hlong : ¬(l ++ a :: rest).length ≤ z.maxSize := by
        rw [List.length_append, List.length_cons]
        omega
      have hlong' : z.maxSize < l.length + [item.source].length := Nat.not_le.mp hfits
      rw [appendSources_threw hs hlong', bounded, if_neg hlong, htake]
      exact ⟨_, rfl, .threw hs⟩

theorem appendRange_does {range : Range α} (hs : Stores z s l)
    (h : resolveEach l range.items = some xs)
    (hread : range.category = .single → ∀ k i, range.items[k]? = some (.element i) →
      l.length + k ≤ s.header.room ∨ z.maxSize ≤ l.length + k) :
    Does z (s.appendRange f z g range)
      (bounded z (l ++ xs) (if range.category = .single then (l ++ xs).take z.maxSize else l)) := by
  rw [State.appendRange]
  by_cases hsingle : range.category = .single
  · rw [if_pos hsingle, if_pos hsingle]
    exact appendEach_spec hs (List.prefix_refl l) (length_of_resolveEach h)
      (fun _ _ hk _ => resolve_item h hk) (.inl rfl) (hread hsingle)
  · rw [if_neg hsingle, if_neg hsingle]
    exact appendSources_does hs (feeds_items hs.holds h) (avoids_items _ (by decide)) hs.holds rfl

/-- A view of all the elements gives the list. -/
theorem resolveEach_view (xs ys : List α) :
    resolveEach (xs ++ ys) (Range.view xs.length ys.length).items = some ys := by
  induction ys generalizing xs with
  | nil => rfl
  | cons y ys ih =>
    have hhead : (Item.element xs.length).resolve (xs ++ y :: ys) = some y := by
      rw [Item.resolve, List.getElem?_append_right (Nat.le_refl _), Nat.sub_self]
      rfl
    have htail := ih (xs ++ [y])
    rw [List.append_assoc, List.singleton_append, List.length_append,
      List.length_singleton] at htail
    rw [Range.items] at htail ⊢
    rw [List.length_cons, List.range'_succ, List.map_cons, resolveEach, hhead, Option.bind_some,
      htail, Option.map_some]

end

end Kotatsu.Support.HybridVector
