import Kotatsu.Support.HybridVector.Append

/-!
# Assigning to a hybrid_vector

What was in the vector is overwritten, destroyed, or left behind with its buffer: the list
is then the one that is assigned. Erasing moves what follows over the gap.
-/

namespace Kotatsu.Support.HybridVector

open Kotatsu.Core Kotatsu.Core.Slots

variable {α : Type} {f : α → α} {z : Sizes} {g : Allocator} {s : State α}
  {m : Memory α} {l xs ys : List α} {sources : List (Source Block α)}
  {left : Option (Place Block)} {count : Nat}

/-- A list that a vector keeps, in two parts. -/
theorem Keeps.parts {h : Header} {b : Block} (hk : Keeps z h m b (xs ++ ys)) :
    m.Live ⟨b, xs.length⟩ ys := by
  have hholds : m.Holds b (xs ++ ys ++ []) := by
    rw [List.append_nil]
    exact hk.holds
  exact hholds.live

theorem truncate_spec (hs : Stores z s (xs ++ ys)) :
    ∃ s', s.truncate z xs.length = some s' ∧ Stores z s' xs ∧ s'.header.room = s.header.room ∧
      ∀ c, c ≠ .own → Same s.memory s'.memory c := by
  have hle := hs.le_room
  have hlength : (xs ++ ys).length - xs.length = ys.length := by
    rw [List.length_append, Nat.add_sub_cancel_left]
  rw [List.length_append] at hle
  have hsub : checkedSub s.header.used xs.length = some ys.length := by
    rw [checkedSub_of_le (by rw [hs.used, List.length_append]; omega), hs.used, hlength]
  rw [State.truncate, hsub, Option.bind_some, destroyEach_eq hs.parts, Option.bind_some,
    Header.setSize_eq (by omega) hs.le_max, Option.map_some]
  refine ⟨_, rfl, ⟨hs.holds.clear_end, rfl, hs.room, ?_, hs.le_max⟩, rfl, fun c hc => ?_⟩
  · exact Nat.le_trans (Nat.le_add_right _ _) hle
  · exact ⟨rfl, slot_clear_other hc⟩

theorem destroyElements_spec (hs : Stores z s l) :
    ∃ s', s.destroyElements = some s' ∧ Stores z s' [] ∧ s'.header.room = s.header.room ∧
      ∀ c, c ≠ .own → Same s.memory s'.memory c := by
  rw [destroyElements_eq hs.used hs.live]
  refine ⟨_, rfl, ⟨?_, rfl, hs.room, Nat.zero_le _, hs.le_max⟩, rfl, fun c hc => ?_⟩
  · have hall : s.memory.Holds .own ([] ++ l) := hs.holds
    exact hall.clear_end
  · exact ⟨rfl, slot_clear_other hc⟩

/-- Assigning what sources elsewhere deliver. -/
theorem assignItems_spec (hs : Stores z s l) (hfeeds : s.memory.Feeds sources xs left)
    (hfresh : Avoids sources .fresh) (hown : Avoids sources .own) (hmax : xs.length ≤ z.maxSize) :
    ∃ s', s.assignItems f z g sources = some (.done s') ∧ Stores z s' xs ∧
      ∀ c, c ≠ .own → c ≠ .fresh → Same (s.memory.drain f xs left) s'.memory c := by
  rw [State.assignItems, hfeeds.length]
  by_cases hroom : s.header.room < xs.length
  · obtain ⟨n, hn, hle, hmax'⟩ :=
      Sizes.nextCapacity_eq s.header.room hmax (Nat.zero_lt_of_lt hroom)
    have hholds : (s.memory.drain f xs left).Holds .own l :=
      hs.holds.of_slot (hfeeds.slot_drain hown)
    obtain ⟨s', heq, hs', -, hsame⟩ := rebuild_spec (g := g) hs hfeeds hfresh hholds rfl
      hle hmax'
    rw [if_pos hroom, hn, Option.bind_some]
    dsimp only
    rw [heq, Option.map_some]
    exact ⟨s', rfl, hs', hsame⟩
  · rw [if_neg hroom]
    dsimp only
    obtain ⟨k, hk⟩ : ∃ k, k = min xs.length l.length := ⟨_, rfl⟩
    have hkx : k ≤ xs.length := by omega
    have hfirst := hfeeds.take hkx
    have hlive : s.memory.Live ⟨.own, 0⟩ (l.take k) := by
      have hparts : s.memory.Holds .own ([] ++ l.take k ++ l.drop k) := by
        rw [List.nil_append, List.take_append_drop]
        exact hs.holds
      exact hparts.live
    have hlength : (l.take k).length = (xs.take k).length := by
      rw [List.length_take, List.length_take]
      omega
    have havoid : Avoids (sources.take k) .own := fun s hs => hown s (List.mem_of_mem_take hs)
    have hassigned := hfirst.assign (f := f) hlive hlength havoid
    have hrest := hfeeds.drop (f := f) (p := ⟨.own, 0⟩) (t := xs.take k) hkx hown
    have hmid : ((s.memory.drain f (xs.take k) left).put ⟨.own, 0⟩ (xs.take k)).Holds .own
        (xs.take k ++ l.drop k) := by
      have hparts : (s.memory.drain f (xs.take k) left).Holds .own
          ([] ++ l.take k ++ l.drop k) := by
        rw [List.nil_append, List.take_append_drop]
        exact hs.holds.of_slot (hfirst.slot_drain havoid)
      exact hparts.put_part (xs.take k) hlength
    rw [hs.used, ← hk, hassigned, Option.bind_some]
    by_cases hlong : l.length < xs.length
    · obtain rfl : k = l.length := by omega
      rw [List.drop_length, List.append_nil] at hmid
      have hfront : (xs.take l.length).length = l.length := by
        rw [List.length_take, Nat.min_eq_left hkx]
      have hraw := hmid.raw (n := (xs.drop l.length).length) (by
        rw [hfront, List.length_drop, room_put, room_drain, ← hs.room]
        omega)
      have hfull := (hmid.of_slot (hrest.slot_drain (f := f) fun s hs =>
        hown s (List.mem_of_mem_drop hs))).put_end (xs.drop l.length)
      rw [hfront] at hraw hfull
      rw [List.take_append_drop] at hfull
      rw [if_pos hlong, hrest.construct hraw, Option.bind_some,
        Header.setSize_eq (Nat.not_lt.mp hroom) hs.le_max, Option.map_some]
      refine ⟨_, rfl, ⟨hfull, rfl, ?_, Nat.not_lt.mp hroom, hs.le_max⟩, fun c hc _ => ⟨?_, ?_⟩⟩
      · rw [room_put, room_drain, room_put, room_drain]
        exact hs.room
      · rw [room_put, room_drain, room_put, room_drain, room_drain]
      · exact (slot_put_other hc).trans (drain_drop hkx hc)
    · obtain rfl : k = xs.length := by omega
      rw [List.take_length] at hmid ⊢
      have hlive' : ((s.memory.drain f xs left).put ⟨.own, 0⟩ xs).Live ⟨.own, xs.length⟩
          (l.drop xs.length) := by
        have hparts := hmid
        rw [← List.append_nil (xs ++ l.drop xs.length)] at hparts
        exact hparts.live
      rw [if_neg hlong, ← List.length_drop, destroyEach_eq hlive', Option.bind_some,
        Header.setSize_eq (Nat.not_lt.mp hroom) hs.le_max, Option.map_some]
      refine ⟨_, rfl, ⟨hmid.clear_end, rfl, ?_, Nat.not_lt.mp hroom, hs.le_max⟩,
        fun c hc _ => ⟨?_, ?_⟩⟩
      · rw [room_clear, room_put, room_drain]
        exact hs.room
      · rw [room_clear, room_put]
      · exact (slot_clear_other hc).trans (slot_put_other hc)

/-! ## One value -/

/-- An item keeps its value where the front of the list is filled with it. -/
theorem resolve_filled {item : Item α} {a : α} {k : Nat} (h : item.resolve l = some a) :
    item.resolve (List.replicate k a ++ l.drop k) = some a := by
  cases item with
  | value c => exact h
  | element i =>
    rw [Item.resolve] at h ⊢
    by_cases hi : i < k
    · rw [List.getElem?_append_left (by rwa [List.length_replicate]), List.getElem?_replicate,
        if_pos hi]
    · rw [List.getElem?_append_right (by rw [List.length_replicate]; omega),
        List.length_replicate, List.getElem?_drop, ← h]
      congr 1
      omega

theorem assignFill_does {item : Item α} {a : α} (hs : Stores z s l)
    (h : item.resolve l = some a) :
    Does z (s.assignFill f z g count item.source)
      (bounded z (List.replicate count a) l) := by
  refine does_bounded (fun hfits => ?_) fun hlong => ?_
  · rw [List.length_replicate] at hfits
    by_cases hroom : s.header.room < count
    · obtain ⟨n, hn, hle, hmax⟩ :=
        Sizes.nextCapacity_eq s.header.room hfits (Nat.zero_lt_of_lt hroom)
      obtain ⟨s', heq, hs', -⟩ := rebuild_spec (g := g) (f := f) hs
        (feeds_replicate hs.holds h count) (avoids_replicate item (by decide) count) hs.holds rfl
        (by rwa [List.length_replicate]) hmax
      rw [List.length_replicate] at heq
      rw [State.assignFill, if_pos hroom, hn, Option.bind_some]
      dsimp only
      rw [heq]
      exact ⟨s', rfl, hs'⟩
    · obtain ⟨k, hk⟩ : ∃ k, k = min count l.length := ⟨_, rfl⟩
      have hlength : (l.take k).length = k := by
        rw [List.length_take]
        omega
      have hparts : s.memory.Holds .own ([] ++ l.take k ++ l.drop k) := by
        rw [List.nil_append, List.take_append_drop]
        exact hs.holds
      have hfilled := assignEach_replicate (f := f)
        ((look_source hs.holds item).trans h) hparts.live
      have hmid := hparts.put_part (List.replicate k a) (by
        rw [hlength, List.length_replicate])
      rw [hlength, List.length_nil] at hfilled
      rw [List.nil_append, List.length_nil] at hmid
      have hagain := resolve_filled (k := k) h
      rw [State.assignFill, if_neg hroom, hs.used, ← hk, hfilled, Option.bind_some]
      by_cases hgrow : l.length < count
      · obtain rfl : k = l.length := by omega
        rw [List.drop_length, List.append_nil] at hmid hagain
        have hraw := hmid.raw (n := (List.replicate (count - l.length) a).length) (by
          rw [List.length_replicate, List.length_replicate, room_put, ← hs.room]
          omega)
        have hfull := hmid.put_end (List.replicate (count - l.length) a)
        rw [List.length_replicate] at hraw hfull
        rw [List.replicate_append_replicate, Nat.add_sub_cancel' (Nat.le_of_lt hgrow)] at hfull
        rw [if_pos hgrow, (feeds_replicate hmid hagain _).construct hraw, Option.bind_some,
          Header.setSize_eq (Nat.not_lt.mp hroom) hs.le_max, Option.map_some]
        refine ⟨_, rfl, hfull, ?_, hs.room, ?_, hs.le_max⟩
        · rw [List.length_replicate]
        · rw [List.length_replicate]
          exact Nat.not_lt.mp hroom
      · obtain rfl : k = count := by omega
        have hlive : (s.memory.put ⟨.own, 0⟩ (List.replicate k a)).Live
            ⟨.own, (List.replicate k a).length⟩ (l.drop k) := by
          have hend := hmid
          rw [← List.append_nil (List.replicate k a ++ l.drop k)] at hend
          exact hend.live
        have hcut := hmid.clear_end
        rw [List.length_replicate] at hlive hcut
        rw [if_neg hgrow, ← List.length_drop, destroyEach_eq hlive, Option.bind_some,
          Header.setSize_eq (Nat.not_lt.mp hroom) hs.le_max, Option.map_some]
        refine ⟨_, rfl, hcut, ?_, hs.room, ?_, hs.le_max⟩
        · rw [List.length_replicate]
        · rw [List.length_replicate]
          exact Nat.not_lt.mp hroom
  · rw [List.length_replicate] at hlong
    have hroom : s.header.room < count := Nat.lt_of_le_of_lt hs.le_max hlong
    rw [State.assignFill, if_pos hroom, Sizes.nextCapacity_error _ hlong, Option.bind_some]
    exact ⟨s, rfl, hs⟩

/-! ## Ranges -/

/-- What a range of values elsewhere gives does not depend on the list. -/
theorem resolveEach_values {items : List (Item α)} (h : resolveEach l items = some xs)
    (hvalues : ∀ item ∈ items, item.isElement = false) (l' : List α) :
    resolveEach l' items = some xs := by
  induction items generalizing xs with
  | nil => exact h
  | cons item items ih =>
    obtain ⟨a, ha, h⟩ := Option.bind_eq_some_iff.mp h
    obtain ⟨rest, hrest, rfl⟩ := Option.map_eq_some_iff.mp h
    have hitem : item.resolve l' = some a := by
      cases item with
      | value c => exact ha
      | element i => exact absurd (hvalues _ List.mem_cons_self).symm Bool.false_ne_true
    rw [resolveEach, hitem, Option.bind_some,
      ih hrest fun item hi => hvalues item (List.mem_cons_of_mem _ hi), Option.map_some]

/-- An item of a range refers to something. -/
theorem lt_of_resolveEach {items : List (Item α)} {i : Nat} (h : resolveEach l items = some xs)
    (hi : Item.element i ∈ items) : i < l.length := by
  have hmem := List.mem_map_of_mem (f := (·.resolve l)) hi
  rw [map_of_resolveEach h] at hmem
  obtain ⟨a, -, ha⟩ := List.mem_map.mp hmem
  exact (List.getElem?_eq_some_iff.mp ha.symm).1

/-- A forward range of which no reference is found to an element has none. -/
theorem values_of_references {range : Range α} (h : resolveEach l range.items = some xs)
    (hcategory : range.category ≠ .single) (hnone : range.references l.length = false) :
    ∀ item ∈ range.items, item.isElement = false := by
  intro item hitem
  cases item with
  | value a => rfl
  | element i =>
    have hi := lt_of_resolveEach h hitem
    have href : (Item.element (α := α) i).references l.length = true := decide_eq_true hi
    cases range with
    | single items => exact absurd rfl hcategory
    | forward items =>
      have hany : items.any (·.references l.length) = true :=
        List.any_eq_true.mpr ⟨_, hitem, href⟩
      exact absurd (hany.symm.trans hnone) (by decide)
    | contiguous values =>
      obtain ⟨a, -, ha⟩ := List.mem_map.mp hitem
      exact absurd ha (by simp)
    | view first count =>
      cases count with
      | zero => exact absurd hitem List.not_mem_nil
      | succ n =>
        have hfirst := lt_of_resolveEach h (i := first) List.mem_cons_self
        have htrue : (Range.view (α := α) first (n + 1)).references l.length = true := by
          rw [Range.references]
          exact Bool.or_eq_true_iff.mpr (.inl (decide_eq_true hfirst))
        exact absurd (htrue.symm.trans hnone) (by decide)

/-- The items of a range are copied out. -/
theorem copies_spec {items : List (Item α)} (hs : Stores z s l)
    (h : resolveEach l items = some xs) :
    ∃ m', (openBlock s.memory .copies items.length).constructEach f ⟨.copies, 0⟩
        (items.map Item.source) = some m' ∧
      Stores z { s with memory := m' } l ∧ m'.Live ⟨.copies, 0⟩ xs := by
  have hlength := length_of_resolveEach h
  have hown : (openBlock s.memory .copies items.length).Holds .own l :=
    hs.holds.of_slot (slot_openBlock (by decide) _ _)
  have hraw : (openBlock s.memory .copies items.length).Raw ⟨.copies, 0⟩ xs.length :=
    ⟨by
      rw [Nat.zero_add, ← hlength]
      exact Nat.le_refl _, fun _ _ => rfl⟩
  refine ⟨_, (feeds_items hown h).construct hraw, ⟨?_, hs.used, hs.room, hs.le_room, hs.le_max⟩,
    live_put⟩
  exact hown.of_slot (slot_put_other (by decide))

theorem assignRange_does {range : Range α} (hs : Stores z s l)
    (h : resolveEach l range.items = some xs)
    (hread : range.category = .single →
      ∀ k i, range.items[k]? = some (.element i) → z.maxSize ≤ k) :
    Does z (s.assignRange f z g range)
      (bounded z xs (if range.category = .single then xs.take z.maxSize else [])) := by
  rw [State.assignRange, hs.used]
  by_cases hcopies : range.category ≠ .single ∧ range.references l.length = true
  · obtain ⟨m', hm', hs', hlive⟩ := copies_spec (f := f) hs h
    obtain ⟨t, ht, hts, -, hsame⟩ := destroyElements_spec hs'
    have hfeeds : t.memory.Feeds (Place.moves ⟨.copies, 0⟩ range.items.length) xs
        (some ⟨.copies, 0⟩) := by
      rw [length_of_resolveEach h]
      exact ⟨rfl, hlive.of_slot (hsame .copies (by decide)).2⟩
    have hown : (t.memory.drain f xs (some ⟨.copies, 0⟩)).Holds .own [] :=
      hts.holds.of_slot (hfeeds.slot_drain (avoids_moves (by decide)))
    rw [if_pos hcopies, hm', Option.bind_some, ht, Option.bind_some, if_neg hcopies.1]
    exact appendSources_does hts hfeeds (avoids_moves (by decide)) hown rfl
  · obtain ⟨t, ht, hts, -⟩ := destroyElements_spec hs
    rw [if_neg hcopies, ht, Option.bind_some, State.appendRange]
    by_cases hsingle : range.category = .single
    · rw [if_pos hsingle, if_pos hsingle]
      refine appendEach_spec hts (List.prefix_refl []) (length_of_resolveEach h)
        (fun k item hk hle => ?_) (.inl rfl) fun k i hk => ?_
      · rw [List.length_nil, Nat.zero_add] at hle
        cases item with
        | value a =>
          have hvalue : (Item.value a).resolve l = xs[k]? := resolve_item h hk
          exact hvalue
        | element i => exact absurd (hread hsingle k i hk) (Nat.not_le.mpr hle)
      · rw [List.length_nil, Nat.zero_add]
        exact .inr (hread hsingle k i hk)
    · have hvalues : ∀ item ∈ range.items, item.isElement = false :=
        values_of_references h hsingle
          (Bool.eq_false_iff.mpr fun href => hcopies ⟨hsingle, href⟩)
      have hitems := resolveEach_values h hvalues []
      rw [if_neg hsingle, if_neg hsingle]
      exact appendSources_does hts (feeds_items hts.holds hitems)
        (avoids_items _ (by decide)) hts.holds rfl

/-! ## Erasing -/

theorem erase_parts {a b c : List α} (hs : Stores z s (a ++ b ++ c)) :
    ∃ s', s.erase f z a.length (a.length + b.length) = some s' ∧ Stores z s' (a ++ c) := by
  cases b with
  | nil =>
    rw [List.append_nil] at hs
    exact ⟨s, if_pos rfl, hs⟩
  | cons x b =>
    have hne : a.length ≠ a.length + (x :: b).length := by
      rw [List.length_cons]
      omega
    have hsub : checkedSub s.header.used (a.length + (x :: b).length) = some c.length := by
      rw [hs.used, List.length_append, List.length_append,
        checkedSub_of_le (Nat.le_add_right _ _), Nat.add_sub_cancel_left]
    have hlive : s.memory.Live ⟨.own, a.length + (x :: b).length⟩ c := by
      rw [← List.length_append]
      exact hs.parts
    have hover : ∀ k < c.length,
        (s.memory.get ((⟨.own, a.length⟩ : Place Block).plus k)).isSome = true := by
      intro k hk
      refine hs.holds.isSome (i := a.length + k) ?_
      rw [List.length_append, List.length_append]
      omega
    have hmoved := assignEach_moves (f := f) hlive hover fun _ => Nat.le_add_right _ _
    have hleft := (show s.memory.Holds .own (a ++ (x :: b) ++ c ++ []) by
      rw [List.append_nil]
      exact hs.holds).put_part (c.map f) (List.length_map _).symm
    obtain ⟨rest, hrest⟩ : ∃ rest, rest = (x :: b) ++ c.map f := ⟨_, rfl⟩
    have hsplit : a ++ (x :: b) ++ c.map f ++ [] =
        a ++ rest.take c.length ++ rest.drop c.length := by
      rw [List.append_nil, List.append_assoc, ← hrest, List.append_assoc, List.take_append_drop]
    rw [hsplit] at hleft
    have hfront := hleft.put_part c (by
      rw [List.length_take, hrest, List.length_append, List.length_map]
      omega)
    rw [List.length_append] at hfront
    have hsize : (a ++ (x :: b) ++ c).length = (a ++ c ++ rest.drop c.length).length := by
      rw [List.length_append, List.length_append, List.length_append, List.length_append,
        List.length_drop, hrest, List.length_append, List.length_map]
      omega
    have hstores : Stores z { s with memory := (s.memory.put
        ⟨.own, a.length + (x :: b).length⟩ (c.map f)).put ⟨.own, a.length⟩ c }
        (a ++ c ++ rest.drop c.length) :=
      ⟨hfront, hs.used.trans hsize, hs.room, hsize ▸ hs.le_room, hs.le_max⟩
    obtain ⟨s', heq, hs', -⟩ := truncate_spec hstores
    rw [List.length_append] at heq
    rw [State.erase, if_neg hne, hsub, Option.bind_some, hmoved, Option.bind_some, heq]
    exact ⟨s', rfl, hs'⟩

/-- Erasing from a list. -/
theorem erase_does {first last : Nat} (hs : Stores z s l) (hfirst : first ≤ last)
    (hlast : last ≤ l.length) :
    ∃ s', s.erase f z first last = some s' ∧ Stores z s' (l.take first ++ l.drop last) := by
  have hmiddle : l.take first ++ (l.take last).drop first = l.take last := by
    rw [← Nat.min_eq_left hfirst, ← List.take_take, Nat.min_eq_left hfirst,
      List.take_append_drop]
  have hparts : Stores z s (l.take first ++ (l.take last).drop first ++ l.drop last) := by
    rw [hmiddle, List.take_append_drop]
    exact hs
  have hlength : (l.take first).length = first := by
    rw [List.length_take]
    omega
  have hend : first + ((l.take last).drop first).length = last := by
    rw [List.length_drop, List.length_take]
    omega
  have herase := erase_parts (f := f) hparts
  rw [hlength, hend] at herase
  exact herase

end Kotatsu.Support.HybridVector
