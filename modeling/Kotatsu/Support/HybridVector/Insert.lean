import Kotatsu.Support.HybridVector.Assign

/-!
# Inserting into a hybrid_vector

A list grows in the middle: in a new allocation, in place where more elements follow the gap
than come into it, or in place where fewer do. All three come to the same list.
-/

namespace Kotatsu.Support.HybridVector

open Kotatsu.Core Kotatsu.Core.Slots

variable {α : Type} {f : α → α} {z : Sizes} {g : Allocator} {s : State α}
  {m : Memory α} {l l' xs a b : List α} {sources : List (Source Block α)}
  {left : Option (Place Block)} {index count : Nat}

/-- An insertion depends on how the elements are made only where it makes them. -/
theorem insertItems_congr
    {construct construct' assign assign' : Memory α → Place Block → Nat → Option (Memory α)}
    (hconstruct : ∀ m p n, n ≤ count → construct m p n = construct' m p n)
    (hassign : ∀ m p n, n ≤ count → assign m p n = assign' m p n) :
    s.insertItems f z g index count construct assign =
      s.insertItems f z g index count construct' assign' := by
  have hall : ∀ m p, assign m p count = assign' m p count := fun m p =>
    hassign m p count (Nat.le_refl _)
  have hzero : ∀ m p, construct m p 0 = construct' m p 0 := fun m p =>
    hconstruct m p 0 (Nat.zero_le _)
  rw [State.insertItems, State.insertItems]
  refine ite_congr rfl (fun _ => rfl) fun _ => ?_
  refine congrArg (Option.bind _) (funext fun size => ?_)
  cases size with
  | error e => rfl
  | ok newSize =>
    refine congrArg (Option.bind _) (funext fun after => ?_)
    refine ite_congr rfl (fun _ => ?_) fun _ => ite_congr rfl (fun _ => ?_) fun hafter => ?_
    · simp only [hzero]
    · simp only [hall]
    · simp only [hconstruct _ _ after (Nat.not_lt.mp hafter),
        hassign _ _ after (Nat.not_lt.mp hafter)]

/-- Inserting what sources deliver into a new allocation. -/
theorem insertFrom_grow (hs : Stores z s (a ++ b)) (hfeeds : s.memory.Feeds sources xs left)
    (hfresh : Avoids sources .fresh) (hown : Avoids sources .own) {n : Nat}
    (hle : (a ++ b).length + xs.length ≤ n) (hmax : n ≤ z.maxSize) (data : Nat) :
    ∃ s', ((openBlock s.memory .fresh n).constructEach f ⟨.fresh, 0⟩
        (Place.moves ⟨.own, 0⟩ a.length)).bind (fun m =>
          (m.constructEach f ⟨.fresh, a.length⟩ sources).bind fun m =>
            (m.constructEach f ⟨.fresh, a.length + xs.length⟩
              (Place.moves ⟨.own, a.length⟩ b.length)).bind fun memory =>
              (State.adoptAllocation z { s with memory } .fresh data
                ((a ++ b).length + xs.length) n).map Outcome.done) =
                  some (Outcome.done s') ∧
      Stores z s' (a ++ xs ++ b) := by
  rw [List.length_append] at hle
  have hroom : (openBlock s.memory .fresh n).room .fresh = n :=
    room_openBlock_self .fresh s.memory n
  have hfirst : (openBlock s.memory .fresh n).Holds .own ([] ++ a ++ b) :=
    hs.holds.of_slot (slot_openBlock (by decide) _ _)
  obtain ⟨m₁, h₁, hown₁, hfresh₁, hroom₁, hsame₁⟩ := hfirst.move_other (f := f)
    (holds_openBlock .fresh s.memory n) (by decide) (by
      rw [hroom, List.length_nil]
      omega)
  have hfeeds₁ : m₁.Feeds sources xs left := hfeeds.of_slot fun source hsource c hc => by
    have hcown : c ≠ .own := fun h => hown source hsource (hc.trans (congrArg some h))
    have hcfresh : c ≠ .fresh := fun h => hfresh source hsource (hc.trans (congrArg some h))
    rw [hsame₁ c hcown hcfresh, slot_openBlock hcfresh]
  obtain ⟨m₂, h₂, hfresh₂, hroom₂, hsame₂⟩ := hfresh₁.construct_end (f := f) hfeeds₁ hfresh
    (by
      rw [hroom₁, hroom, List.nil_append]
      omega)
  have hown₂ : m₂.Holds .own (a.map f ++ b ++ []) := by
    rw [List.append_nil]
    refine hown₁.of_slot ?_
    rw [hsame₂ .own (by decide), hfeeds₁.slot_drain hown]
  obtain ⟨m₃, h₃, hown₃, hfresh₃, hroom₃, -⟩ := hown₂.move_other (f := f) hfresh₂
    (by decide) (by
      rw [hroom₂, hroom₁, hroom, List.nil_append, List.length_append]
      omega)
  have hlive : m₃.Live ⟨.own, 0⟩ (a.map f ++ b.map f ++ []) := live_of_holds hown₃
  obtain ⟨s', heq, hs', -⟩ := adoptAllocation_spec (z := z) (s := { s with memory := m₃ })
    (b := .fresh) data (by decide) (by
      rw [hs.used, List.append_nil, List.length_append, List.length_append, List.length_map,
        List.length_map]) hlive hfresh₃ (by rw [hroom₃, hroom₂, hroom₁, hroom]) (by
      rw [List.nil_append, List.length_append, List.length_append]
      omega) hmax
  have hsize : ([] ++ a ++ xs ++ b).length = (a ++ b).length + xs.length := by
    rw [List.nil_append, List.length_append, List.length_append, List.length_append]
    omega
  rw [List.length_append, List.length_map, List.nil_append] at h₃
  rw [List.length_nil] at h₁
  rw [List.nil_append] at h₂ hs'
  rw [hsize] at heq
  rw [h₁, Option.bind_some, h₂, Option.bind_some, h₃, Option.bind_some, heq]
  exact ⟨s', rfl, hs'⟩

/-- Inserting what sources deliver where more elements follow: the last of them are moved
behind the end, the others back, and the new ones are assigned. -/
theorem insertFrom_shift {c : List α} (hs : Stores z s (a ++ b ++ c))
    (hfeeds : s.memory.Feeds sources xs left) (hown : Avoids sources .own)
    (hlength : c.length = xs.length) (hroom : (a ++ b ++ c).length + xs.length ≤ s.header.room) :
    ∃ m₁, s.memory.constructEach f ⟨.own, (a ++ b ++ c).length⟩
        (Place.moves ⟨.own, (a ++ b).length⟩ c.length) = some m₁ ∧
      ∃ m₂, m₁.moveBackward f ⟨.own, a.length⟩ ⟨.own, a.length + c.length⟩ b.length =
          some m₂ ∧
        ∃ m₃, m₂.assignEach f ⟨.own, a.length⟩ sources = some m₃ ∧
          m₃.Holds .own (a ++ xs ++ b ++ c) ∧ m₃.room = s.memory.room := by
  have hparts : s.memory.Holds .own (a ++ b ++ c ++ []) := by
    rw [List.append_nil]
    exact hs.holds
  obtain ⟨m₁, h₁, hown₁, hroom₁, hsame₁⟩ := hparts.move_end (f := f) (by
    rw [List.append_nil, ← hs.room, hlength]
    exact hroom)
  rw [List.append_nil] at h₁ hown₁
  obtain ⟨m₂, h₂, hown₂, hroom₂, hsame₂⟩ := hown₁.move_back (f := f)
  rw [List.length_map] at h₂ hown₂
  have hgap : ((b.map f ++ c.map f).take c.length).length = xs.length := by
    rw [List.length_take, List.length_append, List.length_map, List.length_map]
    omega
  have hfeeds₂ : m₂.Feeds sources xs left := hfeeds.of_slot fun source hsource d hd => by
    have hdown : d ≠ .own := fun h => hown source hsource (hd.trans (congrArg some h))
    rw [hsame₂ d hdown, hsame₁ d hdown]
  have hgapped : m₂.Holds .own
      (a ++ (b.map f ++ c.map f).take c.length ++ (b ++ c)) := by
    rw [← List.append_assoc]
    exact hown₂
  obtain ⟨m₃, h₃, hown₃, hroom₃, -⟩ := hgapped.assign_part (f := f) hfeeds₂ hown hgap
  refine ⟨m₁, h₁, m₂, h₂, m₃, h₃, ?_, by rw [hroom₃, hroom₂, hroom₁]⟩
  rw [List.append_assoc (a ++ xs)]
  exact hown₃

/-- Inserting what sources deliver where fewer elements follow: the last of the new ones are
constructed behind the end, those that follow are moved there, and the others assigned. -/
theorem insertFrom_spread (hs : Stores z s (a ++ b)) (hfeeds : s.memory.Feeds sources xs left)
    (hown : Avoids sources .own) (hlength : b.length ≤ xs.length)
    (hroom : (a ++ b).length + xs.length ≤ s.header.room) :
    ∃ m₁, s.memory.constructEach f ⟨.own, (a ++ b).length⟩ (sources.drop b.length) =
        some m₁ ∧
      ∃ m₂, m₁.constructEach f ⟨.own, a.length + xs.length⟩
          (Place.moves ⟨.own, a.length⟩ b.length) = some m₂ ∧
        ∃ m₃, m₂.assignEach f ⟨.own, a.length⟩ (sources.take b.length) = some m₃ ∧
          m₃.Holds .own (a ++ xs ++ b) ∧ m₃.room = s.memory.room := by
  have hdrop : Avoids (sources.drop b.length) .own := fun s hs =>
    hown s (List.mem_of_mem_drop hs)
  have htake : Avoids (sources.take b.length) .own := fun s hs =>
    hown s (List.mem_of_mem_take hs)
  have hrest := hfeeds.rest hlength
  obtain ⟨m₁, h₁, hown₁, hroom₁, hsame₁⟩ := hs.holds.construct_end (f := f) hrest hdrop (by
    rw [List.length_drop, ← hs.room]
    omega)
  obtain ⟨m₂, h₂, hown₂, hroom₂, hsame₂⟩ := hown₁.move_end (f := f) (by
    rw [hroom₁, ← hs.room, List.length_append, List.length_drop]
    omega)
  have hbehind : (a ++ b ++ xs.drop b.length).length = a.length + xs.length := by
    rw [List.length_append, List.length_append, List.length_drop]
    omega
  rw [hbehind] at h₂
  have hfeeds₂ : m₂.Feeds (sources.take b.length) (xs.take b.length) left :=
    (hfeeds.take_drained hlength).of_slot fun source hsource d hd => by
      have hdown : d ≠ .own := fun h => htake source hsource (hd.trans (congrArg some h))
      rw [hsame₂ d hdown, hsame₁ d hdown]
  have hgapped : m₂.Holds .own (a ++ b.map f ++ (xs.drop b.length ++ b)) := by
    rw [← List.append_assoc]
    exact hown₂
  obtain ⟨m₃, h₃, hown₃, hroom₃, -⟩ := hgapped.assign_part (f := f) hfeeds₂ htake (by
    rw [List.length_map, List.length_take, Nat.min_eq_left hlength])
  refine ⟨m₁, h₁, m₂, h₂, m₃, h₃, ?_, by rw [hroom₃, hroom₂, hroom₁]⟩
  have hjoin : a ++ xs.take b.length ++ (xs.drop b.length ++ b) = a ++ xs ++ b := by
    rw [← List.append_assoc, List.append_assoc a, List.take_append_drop]
  rw [← hjoin]
  exact hown₃

/-- Inserting what sources elsewhere deliver. -/
theorem insertFrom_does (hs : Stores z s l) (hindex : index ≤ l.length)
    (hfeeds : s.memory.Feeds sources xs left) (hfresh : Avoids sources .fresh)
    (hown : Avoids sources .own) :
    Does z (s.insertFrom f z g index sources) (bounded z (spliced l index xs) l) := by
  obtain ⟨a, b, rfl, rfl⟩ : ∃ a b, l = a ++ b ∧ a.length = index :=
    ⟨l.take index, l.drop index, (List.take_append_drop index l).symm, by
      rw [List.length_take, Nat.min_eq_left hindex]⟩
  have hspliced : spliced (a ++ b) a.length xs = a ++ xs ++ b := by
    rw [spliced, List.take_left, List.drop_left]
  have hsize : (spliced (a ++ b) a.length xs).length = (a ++ b).length + xs.length := by
    rw [hspliced, List.length_append, List.length_append, List.length_append]
    omega
  rw [State.insertFrom, State.insertItems, hfeeds.length]
  by_cases hzero : xs.length = 0
  · obtain rfl := List.length_eq_zero_iff.mp hzero
    rw [if_pos hzero, hspliced, List.append_nil, bounded, if_pos hs.le]
    exact ⟨_, rfl, .done hs⟩
  rw [if_neg hzero, hs.used, Sizes.checkedSize_eq hs.le, Option.bind_some]
  refine does_bounded (fun hfits => ?_) fun hlong => ?_
  · rw [hsize] at hfits
    have hafter : checkedSub (a ++ b).length a.length = some b.length := by
      rw [List.length_append, checkedSub_of_le (Nat.le_add_right _ _), Nat.add_sub_cancel_left]
    rw [if_pos hfits, hspliced]
    dsimp only
    rw [hafter, Option.bind_some]
    by_cases hroom : s.header.room < (a ++ b).length + xs.length
    · obtain ⟨n, hn, hle, hmax⟩ :=
        Sizes.nextCapacity_eq s.header.room hfits (Nat.zero_lt_of_lt hroom)
      obtain ⟨s', heq, hs'⟩ := insertFrom_grow (f := f) hs hfeeds hfresh hown hle hmax
        (s.header.allocate g n)
      have hall : (sources.drop 0).take xs.length = sources := by
        rw [List.drop_zero, ← hfeeds.length, List.take_length]
      rw [if_pos hroom, hn, Option.bind_some]
      dsimp only
      rw [checkedSub_of_le (Nat.zero_le _), Nat.sub_zero]
      simp only [Option.bind_some]
      rw [hall]
      exact ⟨s', heq, hs'⟩
    · have hin : (a ++ b).length + xs.length ≤ s.header.room := Nat.not_lt.mp hroom
      have hdone : ∀ m' : Memory α, m'.Holds .own (a ++ xs ++ b) → m'.room = s.memory.room →
          Stores z ⟨{ s.header with used := (a ++ b).length + xs.length }, m'⟩ (a ++ xs ++ b) := by
        intro m' hholds hm'
        refine ⟨hholds, ?_, hs.room.trans (congrFun hm' .own).symm, ?_, hs.le_max⟩
        · rw [← hspliced, hsize]
        · rw [← hspliced, hsize]
          exact hin
      rw [if_neg hroom]
      by_cases hshift : xs.length < b.length
      · obtain ⟨b', c, rfl, hc⟩ : ∃ b' c, b = b' ++ c ∧ c.length = xs.length :=
          ⟨b.take (b.length - xs.length), b.drop (b.length - xs.length),
            (List.take_append_drop _ _).symm, by
              rw [List.length_drop]
              omega⟩
        rw [← List.append_assoc] at hs hin
        obtain ⟨m₁, h₁, m₂, h₂, m₃, h₃, hholds, hm₃⟩ :=
          insertFrom_shift (f := f) hs hfeeds hown hc hin
        have hall : sources.take xs.length = sources := by
          rw [← hfeeds.length, List.take_length]
        have hback : (a ++ b' ++ c).length - xs.length = (a ++ b').length := by
          rw [List.length_append, hc, Nat.add_sub_cancel]
        have hkept : (b' ++ c).length - xs.length = b'.length := by
          rw [List.length_append, hc, Nat.add_sub_cancel]
        rw [hc] at h₁ h₂
        rw [← List.append_assoc a b' c, ← List.append_assoc (a ++ xs)] at hdone ⊢
        rw [if_pos hshift, hback, h₁, Option.bind_some, Header.setSize_eq hin hs.le_max,
          Option.bind_some, hkept, h₂, Option.bind_some, hall, h₃, Option.map_some]
        exact ⟨_, rfl, hdone m₃ hholds hm₃⟩
      · obtain ⟨m₁, h₁, m₂, h₂, m₃, h₃, hholds, hm₃⟩ := insertFrom_spread (f := f) hs hfeeds
          hown (Nat.not_lt.mp hshift) hin
        have hrest : (sources.drop b.length).take (xs.length - b.length) =
            sources.drop b.length := by
          rw [← hfeeds.length, ← List.length_drop, List.take_length]
        have hset : ∀ n, ({ s.header with used := n } : Header).setSize z
            ((a ++ b).length + xs.length) =
              some { s.header with used := (a ++ b).length + xs.length } :=
          fun _ => Header.setSize_eq hin hs.le_max
        rw [if_neg hshift, checkedSub_of_le (Nat.not_lt.mp hshift), Option.bind_some, hrest, h₁,
          Option.bind_some, Sizes.add_eq hfits, Option.bind_some,
          Header.setSize_eq (by omega) hs.le_max, Option.bind_some, h₂, Option.bind_some, hset,
          Option.bind_some, h₃, Option.map_some]
        exact ⟨_, rfl, hdone m₃ hholds hm₃⟩
  · rw [hsize] at hlong
    rw [if_neg (Nat.not_le.mpr hlong)]
    exact ⟨s, rfl, hs⟩

/-! ## The operations that insert -/

theorem insertOne_eq (source : Source Block α) :
    s.insertOne f z g index source = s.insertFrom f z g index [source] := by
  refine insertItems_congr (fun m p n hn => ?_) fun m p n hn => ?_
  · obtain rfl | rfl := Nat.le_one_iff_eq_zero_or_eq_one.mp hn <;> rfl
  · obtain rfl | rfl := Nat.le_one_iff_eq_zero_or_eq_one.mp hn <;> rfl

theorem avoids_value (a : α) (n : Nat) (c : Block) :
    Avoids (List.replicate n (.value a)) c := by
  intro source hsource hblock
  obtain rfl := List.eq_of_mem_replicate hsource
  exact absurd hblock (Option.some_ne_none c).symm

/-- A value elsewhere is inserted. -/
theorem insertValue_does (hs : Stores z s l) (hindex : index ≤ l.length) (x : α) :
    Does z (s.insertOne f z g index (.value x)) (bounded z (spliced l index [x]) l) := by
  have hfeeds : s.memory.Feeds [.value x] [x] none := rfl
  rw [insertOne_eq]
  exact insertFrom_does hs hindex hfeeds (avoids_value x 1 .fresh) (avoids_value x 1 .own)

theorem emplace_does {arg : Arg α} {x : α} (hs : Stores z s l) (hindex : index ≤ l.length)
    (h : arg.resolve f l = some (x, l')) :
    Does z (s.emplace f z g index arg.source)
      (bounded z (spliced l' index [x]) l') := by
  obtain ⟨left, hfeeds, hown, hlength⟩ := feeds_arg hs.holds h
  have hstores : Stores z { s with memory := s.memory.drain f [x] left } l' :=
    ⟨hown, hs.used.trans hlength.symm, hs.room.trans (congrFun room_drain Block.own).symm,
      hlength ▸ hs.le_room, hs.le_max⟩
  rw [State.emplace, hfeeds.fetch, Option.bind_some]
  exact insertValue_does hstores (hlength ▸ hindex) x

theorem insertRvalue_does {item : Item α} {x : α} (hs : Stores z s l) (hindex : index ≤ l.length)
    (h : item.resolveMoved f l = some (x, l')) :
    Does z (s.insertRvalue f z g index item) (bounded z (spliced l' index [x]) l') := by
  cases item with
  | value c =>
    obtain ⟨rfl, rfl⟩ := Prod.mk.inj (Option.some.inj h)
    exact insertValue_does hs hindex c
  | element i =>
    obtain ⟨c, hc, -⟩ := Option.map_eq_some_iff.mp h
    have hi : (Item.element (α := α) i).references s.header.used = true := by
      rw [hs.used]
      exact decide_eq_true (List.getElem?_eq_some_iff.mp hc).1
    rw [State.insertRvalue, if_pos hi]
    have harg : (Arg.moved i).resolve f l = some (x, l') := h
    exact emplace_does hs hindex harg

theorem insertFill_does {item : Item α} {x : α} (hs : Stores z s l) (hindex : index ≤ l.length)
    (h : item.resolve l = some x) :
    Does z (s.insertFill f z g index count item.source)
      (bounded z (spliced l index (List.replicate count x)) l) := by
  by_cases hzero : count = 0
  · obtain rfl := hzero
    have hsame : spliced l index (List.replicate 0 x) = l := by
      rw [spliced, List.replicate_zero, List.append_nil, List.take_append_drop]
    rw [State.insertFill, if_pos rfl, hsame, bounded, if_pos hs.le]
    exact ⟨_, rfl, .done hs⟩
  · have hfetch : s.memory.fetch f item.source = some (x, s.memory) :=
      fetch_look ((look_source hs.holds item).trans h)
    have hfeeds : s.memory.Feeds (List.replicate count (.value x)) (List.replicate count x)
        none := by
      rw [Feeds, List.map_replicate, List.map_replicate]
      rfl
    have hfrom := insertFrom_does (f := f) (g := g) hs hindex hfeeds
      (avoids_value x count .fresh) (avoids_value x count .own)
    rw [State.insertFill, if_neg hzero, hfetch, Option.bind_some]
    rw [State.insertFrom, List.length_replicate] at hfrom
    dsimp only
    rw [insertItems_congr (fun m p n hn => ?_) fun m p n hn => ?_]
    · exact hfrom
    · rw [checkedSub_of_le hn, Option.bind_some, Option.bind_some, List.drop_replicate,
        List.take_replicate, Nat.min_self]
    · rw [List.take_replicate, Nat.min_eq_left hn]

theorem avoids_values {items : List (Item α)} (hvalues : ∀ item ∈ items, item.isElement = false)
    (c : Block) : Avoids (items.map Item.source) c := by
  intro source hsource hblock
  obtain ⟨item, hitem, rfl⟩ := List.mem_map.mp hsource
  cases item with
  | value x => exact absurd hblock (Option.some_ne_none c).symm
  | element i => exact absurd (hvalues _ hitem).symm Bool.false_ne_true

/-- A single-pass range is appended, and rotated into place. -/
theorem insertSingle_does {items : List (Item α)} (hs : Stores z s l) (hindex : index ≤ l.length)
    (h : resolveEach l items = some xs)
    (hread : ∀ k i, items[k]? = some (.element i) →
      l.length + k ≤ s.header.room ∨ z.maxSize ≤ l.length + k) :
    Does z (s.insertRange f z g index (.single items))
      (bounded z (spliced l index xs) l) := by
  have hsize : (spliced l index xs).length = (l ++ xs).length := by
    rw [spliced, List.length_append, List.length_append, List.length_append, List.length_take,
      List.length_drop]
    omega
  obtain ⟨out, hout, hrel⟩ := appendEach_spec (f := f) (g := g) hs
    (List.prefix_refl l) (length_of_resolveEach h) (fun _ _ hk _ => resolve_item h hk)
    (.inl rfl) hread
  have hsingle : (Range.single items).category = .single := rfl
  rw [State.insertRange, if_pos hsingle, show (Range.single items).items = items from rfl, hout,
    Option.bind_some]
  rw [bounded] at hrel
  rw [bounded, hsize]
  by_cases hfits : (l ++ xs).length ≤ z.maxSize
  · rw [if_pos hfits] at hrel ⊢
    cases hrel with
    | done ht =>
      next t =>
      have hsub : checkedSub t.header.used index = some (l.drop index ++ xs).length := by
        rw [ht.used, checkedSub_of_le (by rw [List.length_append]; omega), List.length_append,
          List.length_append, List.length_drop]
        congr 1
        omega
      have hfront : (l.take index).length = index := by
        rw [List.length_take, Nat.min_eq_left hindex]
      have hparts : t.memory.Holds .own (l.take index ++ (l.drop index ++ xs) ++ []) := by
        rw [List.append_nil, ← List.append_assoc, List.take_append_drop]
        exact ht.holds
      have hlive := hparts.live
      rw [hfront] at hlive
      have hmiddle : s.header.used - index = (l.drop index).length := by
        rw [hs.used, List.length_drop]
      have hput := hparts.put_part (xs ++ l.drop index) (by
        rw [List.length_append, List.length_append, Nat.add_comm])
      rw [hfront, List.append_nil, ← List.append_assoc] at hput
      dsimp only
      rw [hsub, Option.bind_some, rotate_eq hlive, hmiddle, List.drop_left, List.take_left,
        Option.map_some]
      refine ⟨_, rfl, .done ⟨hput, ?_, ht.room, ?_, ht.le_max⟩⟩
      · rw [ht.used, ← hsize]
      · have hle := ht.le_room
        rw [← hsize] at hle
        exact hle
  · rw [if_neg hfits] at hrel ⊢
    cases hrel with
    | threw ht =>
      next t =>
      have htake : (l ++ xs).take z.maxSize = l ++ xs.take (z.maxSize - l.length) := by
        rw [List.take_append, List.take_of_length_le hs.le]
      rw [htake] at ht
      obtain ⟨t', heq, ht', -⟩ := truncate_spec ht
      dsimp only
      rw [hs.used, heq]
      exact ⟨_, rfl, .threw ht'⟩

theorem insertRange_does {range : Range α} (hs : Stores z s l) (hindex : index ≤ l.length)
    (h : resolveEach l range.items = some xs)
    (hread : range.category = .single →
      ∀ k i, range.items[k]? = some (.element i) →
        l.length + k ≤ s.header.room ∨ z.maxSize ≤ l.length + k) :
    Does z (s.insertRange f z g index range) (bounded z (spliced l index xs) l) := by
  by_cases hsingle : range.category = .single
  · cases range with
    | single items => exact insertSingle_does hs hindex h (hread rfl)
    | forward items => cases hsingle
    | contiguous values => cases hsingle
    | view first count => cases hsingle
  · rw [State.insertRange, if_neg hsingle, hs.used]
    by_cases href : range.references l.length = true
    · obtain ⟨m', hm', hs', hlive⟩ := copies_spec (f := f) hs h
      have hfeeds : m'.Feeds (Place.moves ⟨.copies, 0⟩ range.items.length) xs
          (some ⟨.copies, 0⟩) := by
        rw [length_of_resolveEach h]
        exact ⟨rfl, hlive⟩
      rw [if_pos href, hm', Option.bind_some]
      exact insertFrom_does hs' hindex hfeeds (avoids_moves (by decide)) (avoids_moves (by decide))
    · have hvalues := values_of_references h hsingle (Bool.eq_false_iff.mpr href)
      rw [if_neg href]
      exact insertFrom_does hs hindex (feeds_items hs.holds h) (avoids_values hvalues .fresh)
        (avoids_values hvalues .own)

end Kotatsu.Support.HybridVector
