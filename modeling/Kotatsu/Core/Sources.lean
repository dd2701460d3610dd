import Kotatsu.Core.Slots

/-!
# What the sources of a loop deliver

Sources give a list when they only look at elements, or when they move consecutive ones. The
place the elements are moved from, if any, says what is left of the memory: constructing and
assigning from sources is then one law for both.
-/

namespace Kotatsu.Core

/-- The block of the element that a source refers to. -/
def Source.block? {β α : Type} : Source β α → Option β
  | .value _ => none
  | .copy p => some p.block
  | .move p => some p.block

namespace Place

variable {β α : Type} {p : Place β} {s : Source β α} {n : Nat}

theorem plus_plus (p : Place β) (k n : Nat) : (p.plus k).plus n = p.plus (k + n) := by
  rw [plus, plus, plus, Nat.add_assoc]

@[simp] theorem length_moves (p : Place β) (n : Nat) :
    (p.moves n : List (Source β α)).length = n := by
  induction n generalizing p with
  | zero => rfl
  | succ n ih => rw [moves, List.length_cons, ih]

@[simp] theorem length_copies (p : Place β) (n : Nat) :
    (p.copies n : List (Source β α)).length = n := by
  induction n generalizing p with
  | zero => rfl
  | succ n ih => rw [copies, List.length_cons, ih]

theorem block_moves (hs : s ∈ (p.moves n : List (Source β α))) : s.block? = some p.block := by
  induction n generalizing p with
  | zero => exact absurd hs List.not_mem_nil
  | succ n ih =>
    obtain rfl | hs := List.mem_cons.mp hs
    · rfl
    · exact ih (p := p.plus 1) hs

theorem block_copies (hs : s ∈ (p.copies n : List (Source β α))) :
    s.block? = some p.block := by
  induction n generalizing p with
  | zero => exact absurd hs List.not_mem_nil
  | succ n ih =>
    obtain rfl | hs := List.mem_cons.mp hs
    · rfl
    · exact ih (p := p.plus 1) hs

theorem take_moves (p : Place β) (k n : Nat) :
    (p.moves (k + n) : List (Source β α)).take k = p.moves k := by
  induction k generalizing p with
  | zero => rfl
  | succ k ih => rw [Nat.succ_add, moves, List.take_succ_cons, ih, moves]

theorem drop_moves (p : Place β) (k n : Nat) :
    (p.moves (k + n) : List (Source β α)).drop k = (p.plus k).moves n := by
  induction k generalizing p with
  | zero => rw [Nat.zero_add]; rfl
  | succ k ih => rw [Nat.succ_add, moves, List.drop_succ_cons, ih, plus_plus, Nat.add_comm 1]

end Place

namespace Slots

section

variable {β α : Type} {m M : Slots β α} {p : Place β} {xs : List α}
  {sources : List (Source β α)} {left : Option (Place β)} {b : β} {k : Nat}

/-- Sources deliver a list: `left` is the place it is moved from, if any. -/
def Feeds (m : Slots β α) (sources : List (Source β α)) (xs : List α) :
    Option (Place β) → Prop
  | none => sources.map m.look = xs.map some
  | some q => sources = q.moves xs.length ∧ m.Live q xs

/-- No source refers to an element of a block. -/
def Avoids (sources : List (Source β α)) (b : β) : Prop := ∀ s ∈ sources, s.block? ≠ some b

theorem avoids_moves {n : Nat} (hb : b ≠ p.block) :
    Avoids (p.moves n : List (Source β α)) b := fun _ hs hblock =>
  hb (Option.some.inj (hblock.symm.trans (Place.block_moves hs)))

theorem avoids_copies {n : Nat} (hb : b ≠ p.block) :
    Avoids (p.copies n : List (Source β α)) b := fun _ hs hblock =>
  hb (Option.some.inj (hblock.symm.trans (Place.block_copies hs)))

/-- The elements of consecutive places are looked at. -/
theorem Live.feeds_copies (h : m.Live p xs) : m.Feeds (p.copies xs.length) xs none := by
  induction xs generalizing p with
  | nil => rfl
  | cons x xs ih =>
    rw [Feeds, List.length_cons, Place.copies, List.map_cons, List.map_cons]
    exact congrArg₂ List.cons h.head (ih h.tail)

theorem Holds.isSome {i : Nat} (h : m.Holds b xs) (hi : i < xs.length) :
    (m.get ⟨b, i⟩).isSome = true := by
  have hget := h i
  rw [List.getElem?_eq_getElem hi] at hget
  exact congrArg Option.isSome hget

theorem Holds.of_slot (h : m.Holds b xs) (hslot : M.slot b = m.slot b) : M.Holds b xs :=
  fun j => (congrFun hslot j).trans (h j)

theorem Live.of_slot (h : m.Live p xs) (hslot : M.slot p.block = m.slot p.block) : M.Live p xs :=
  fun k hk => (congrFun hslot _).trans (h k hk)

theorem Feeds.length (h : m.Feeds sources xs left) : sources.length = xs.length := by
  cases left with
  | none => rw [← List.length_map m.look, h, List.length_map]
  | some q => rw [h.1, Place.length_moves]

/-- Sources deliver what they do wherever the blocks they refer to are the same. -/
theorem Feeds.of_slot (h : m.Feeds sources xs left)
    (hslot : ∀ s ∈ sources, ∀ b, s.block? = some b → M.slot b = m.slot b) :
    M.Feeds sources xs left := by
  cases left with
  | none =>
    refine Eq.trans (List.map_congr_left fun s hs => ?_) h
    cases s with
    | value a => rfl
    | copy p => exact congrFun (hslot _ hs _ rfl) _
    | move p => rfl
  | some q =>
    obtain ⟨rfl, hlive⟩ := h
    refine ⟨rfl, ?_⟩
    cases xs with
    | nil => exact fun k hk => absurd hk (Nat.not_lt_zero k)
    | cons x xs => exact hlive.of_slot (hslot (.move q) List.mem_cons_self _ rfl)

/-- The first of the sources deliver the first elements. -/
theorem Feeds.take (h : m.Feeds sources xs left) (hk : k ≤ xs.length) :
    m.Feeds (sources.take k) (xs.take k) left := by
  cases left with
  | none => exact (List.map_take.trans (congrArg _ h)).trans List.map_take.symm
  | some q =>
    obtain ⟨rfl, hlive⟩ := h
    have hsplit : k + (xs.length - k) = xs.length := by omega
    refine ⟨?_, fun j hj => ?_⟩
    · rw [List.length_take, Nat.min_eq_left hk, ← Place.take_moves q k (xs.length - k), hsplit]
    · rw [List.length_take, Nat.min_eq_left hk] at hj
      rw [hlive j (by omega), List.getElem?_take_of_lt hj]

/-- The others deliver theirs first. -/
theorem Feeds.rest (h : m.Feeds sources xs left) (hk : k ≤ xs.length) :
    m.Feeds (sources.drop k) (xs.drop k) (left.map (·.plus k)) := by
  cases left with
  | none => exact (List.map_drop.trans (congrArg _ h)).trans List.map_drop.symm
  | some q =>
    obtain ⟨rfl, hlive⟩ := h
    have hsplit : k + (xs.length - k) = xs.length := by omega
    refine ⟨?_, fun j hj => ?_⟩
    · rw [List.length_drop, ← Place.drop_moves, hsplit]
    · rw [List.length_drop] at hj
      rw [List.getElem?_drop]
      have := hlive (k + j) (by omega)
      rwa [← Nat.add_assoc] at this

end

section

variable {β α : Type} [DecidableEq β] {f : α → α} {m M : Slots β α} {p q : Place β}
  {xs ys t : List α} {sources : List (Source β α)} {left : Option (Place β)} {b : β} {k : Nat}

/-- Memory after a list was moved from a place. -/
def drain (f : α → α) (m : Slots β α) (xs : List α) : Option (Place β) → Slots β α
  | none => m
  | some q => m.put q (xs.map f)

@[simp] theorem room_drain : (m.drain f xs left).room = m.room := by
  cases left <;> rfl

theorem slot_drain (h : M.slot b = m.slot b) :
    (M.drain f xs left).slot b = (m.drain f xs left).slot b := by
  cases left with
  | none => exact h
  | some q =>
    funext j
    simp only [drain, put, h]

theorem slot_put_other (hb : b ≠ p.block) : (m.put p xs).slot b = m.slot b :=
  funext fun _ => if_neg fun hj => hb hj.1

theorem slot_clear_other {n : Nat} (hb : b ≠ p.block) : (m.clear p n).slot b = m.slot b :=
  funext fun _ => if_neg fun hj => hb hj.1

theorem live_put : (m.put p xs).Live p xs := by
  intro k hk
  refine (if_pos ⟨rfl, Nat.le_add_right _ _, Nat.add_lt_add_left hk _⟩).trans ?_
  rw [Nat.add_sub_cancel_left]

/-- One element of a list is replaced. -/
theorem Holds.put_set {i : Nat} {a : α} (h : m.Holds b xs) (hi : i < xs.length) :
    (m.put ⟨b, i⟩ [a]).Holds b (xs.set i a) := by
  intro j
  rw [put_cons, put_nil, List.getElem?_set]
  by_cases hj : i = j
  · obtain rfl := hj
    rw [if_pos rfl, if_pos hi]
    exact if_pos ⟨rfl, rfl⟩
  · rw [if_neg hj, ← h j]
    exact if_neg fun hw => hj hw.2.symm

/-- What sources deliver leaves the blocks they do not refer to. -/
theorem Feeds.slot_drain (h : m.Feeds sources xs left) (havoid : Avoids sources b) :
    (m.drain f xs left).slot b = m.slot b := by
  cases left with
  | none => rfl
  | some q =>
    obtain ⟨rfl, -⟩ := h
    cases xs with
    | nil => rw [drain, List.map_nil, put_nil]
    | cons x xs =>
      refine slot_put_other ?_
      rintro rfl
      exact havoid _ List.mem_cons_self rfl

/-- Elements are constructed from what sources deliver. -/
theorem Feeds.construct (h : m.Feeds sources xs left) (hraw : m.Raw p xs.length) :
    m.constructEach f p sources = some ((m.drain f xs left).put p xs) := by
  cases left with
  | none => exact constructEach_look h hraw
  | some q =>
    obtain ⟨rfl, hlive⟩ := h
    exact constructEach_moves hlive hraw

/-- The one element that a source delivers. -/
theorem Feeds.fetch {source : Source β α} {a : α} (h : m.Feeds [source] [a] left) :
    m.fetch f source = some (a, m.drain f [a] left) := by
  cases left with
  | none => exact fetch_look (List.cons.inj h).1
  | some q =>
    obtain ⟨hsource, hlive⟩ := h
    obtain rfl := (List.cons.inj hsource).1
    rw [fetch_move hlive.head, drain, List.map_singleton, put_cons, put_nil]

/-- Elements are assigned from what sources elsewhere deliver. -/
theorem Feeds.assign (h : m.Feeds sources xs left) (hlive : m.Live p ys)
    (hlength : ys.length = xs.length) (havoid : Avoids sources p.block) :
    m.assignEach f p sources = some ((m.drain f xs left).put p xs) := by
  cases left with
  | none =>
    exact assignEach_look h hlive hlength fun q hq hin =>
      havoid _ hq (congrArg some hin.1)
  | some q =>
    obtain ⟨rfl, hfrom⟩ := h
    cases xs with
    | nil => exact congrArg some (by rw [drain, List.map_nil, put_nil, put_nil])
    | cons x xs =>
      refine assignEach_moves hfrom (fun k hk => ?_) fun hblock => ?_
      · have hsome := hlive k (hlength ▸ hk)
        rw [List.getElem?_eq_getElem (hlength ▸ hk)] at hsome
        exact congrArg Option.isSome hsome
      · exact absurd (congrArg some hblock.symm) (havoid _ List.mem_cons_self)

/-- The others deliver the other elements, after the first are put elsewhere. -/
theorem Feeds.drop (h : m.Feeds sources xs left) (hk : k ≤ xs.length)
    (havoid : Avoids sources p.block) :
    ((m.drain f (xs.take k) left).put p t).Feeds (sources.drop k) (xs.drop k)
      (left.map (·.plus k)) := by
  cases left with
  | none =>
    have hrest : m.Feeds (sources.drop k) (xs.drop k) none :=
      (List.map_drop.trans (congrArg _ h)).trans List.map_drop.symm
    refine hrest.of_slot fun s hs b hb => slot_put_other ?_
    rintro rfl
    exact havoid s (List.mem_of_mem_drop hs) hb
  | some q =>
    obtain ⟨rfl, hlive⟩ := h
    have hsplit : k + (xs.length - k) = xs.length := by omega
    refine ⟨?_, fun j hj => ?_⟩
    · rw [List.length_drop, ← Place.drop_moves, hsplit]
    · rw [List.length_drop] at hj
      have hblock : q.block ≠ p.block := by
        intro hblock
        rw [show xs.length = (xs.length - 1) + 1 by omega, Place.moves] at havoid
        exact havoid _ List.mem_cons_self (congrArg some hblock)
      rw [show (q.plus k).block = q.block from rfl, slot_put_other hblock]
      refine (if_neg ?_).trans ?_
      · rintro ⟨-, -, hlt⟩
        rw [List.length_map, List.length_take, Nat.min_eq_left hk] at hlt
        simp only [Place.plus] at hlt
        omega
      · rw [List.getElem?_drop]
        have := hlive (k + j) (by omega)
        rwa [← Nat.add_assoc] at this

theorem put_append (xs ys : List α) :
    (m.put q xs).put (q.plus xs.length) ys = m.put q (xs ++ ys) := by
  refine ext rfl fun b j => ?_
  simp only [put, Place.plus, List.length_append]
  grind

/-- What is left where the first elements are delivered, and then the others. -/
theorem drain_drop (hk : k ≤ xs.length) (hb : b ≠ p.block) :
    (((m.drain f (xs.take k) left).put p t).drain f (xs.drop k)
      (left.map (·.plus k))).slot b = (m.drain f xs left).slot b := by
  have hput : ((m.drain f (xs.take k) left).put p t).slot b =
      (m.drain f (xs.take k) left).slot b := slot_put_other hb
  rw [slot_drain hput]
  cases left with
  | none => rfl
  | some q =>
    have hlength : ((xs.take k).map f).length = k := by
      rw [List.length_map, List.length_take, Nat.min_eq_left hk]
    have hjoin := put_append (m := m) (q := q) ((xs.take k).map f) ((xs.drop k).map f)
    rw [hlength, ← List.map_append, List.take_append_drop] at hjoin
    exact congrFun (congrArg slot hjoin) b

/-- The first deliver theirs after the others. -/
theorem Feeds.take_drained (h : m.Feeds sources xs left) (hk : k ≤ xs.length) :
    (m.drain f (xs.drop k) (left.map (·.plus k))).Feeds (sources.take k) (xs.take k) left := by
  cases left with
  | none => exact h.take hk
  | some q =>
    obtain ⟨hsources, hlive⟩ := h.take hk
    refine ⟨hsources, fun j hj => ?_⟩
    rw [← hlive j hj]
    refine if_neg ?_
    rintro ⟨-, hle, -⟩
    rw [List.length_take] at hj
    simp only [Place.plus] at hle
    omega

/-! ## Lists that blocks hold while elements are moved -/

/-- What sources deliver is constructed behind a list. -/
theorem Holds.construct_end (hm : m.Holds b ys) (h : m.Feeds sources xs left)
    (havoid : Avoids sources b) (hroom : ys.length + xs.length ≤ m.room b) :
    ∃ m', m.constructEach f ⟨b, ys.length⟩ sources = some m' ∧ m'.Holds b (ys ++ xs) ∧
      m'.room = m.room ∧ ∀ c, c ≠ b → m'.slot c = (m.drain f xs left).slot c := by
  refine ⟨_, h.construct (hm.raw hroom), ?_, by rw [room_put, room_drain],
    fun c hc => slot_put_other hc⟩
  exact (hm.of_slot (h.slot_drain havoid)).put_end xs

/-- What sources deliver is assigned to part of a list. -/
theorem Holds.assign_part {pre post : List α} (hm : m.Holds b (pre ++ ys ++ post))
    (h : m.Feeds sources xs left) (havoid : Avoids sources b)
    (hlength : ys.length = xs.length) :
    ∃ m', m.assignEach f ⟨b, pre.length⟩ sources = some m' ∧
      m'.Holds b (pre ++ xs ++ post) ∧ m'.room = m.room ∧
      ∀ c, c ≠ b → m'.slot c = (m.drain f xs left).slot c := by
  refine ⟨_, h.assign hm.live hlength havoid, ?_, by rw [room_put, room_drain],
    fun c hc => slot_put_other hc⟩
  exact (hm.of_slot (h.slot_drain havoid)).put_part xs hlength

/-- Part of a list is moved behind it. -/
theorem Holds.move_end {pre post : List α} (hm : m.Holds b (pre ++ xs ++ post))
    (hroom : (pre ++ xs ++ post).length + xs.length ≤ m.room b) :
    ∃ m', m.constructEach f ⟨b, (pre ++ xs ++ post).length⟩
        (Place.moves ⟨b, pre.length⟩ xs.length) = some m' ∧
      m'.Holds b (pre ++ xs.map f ++ post ++ xs) ∧ m'.room = m.room ∧
      ∀ c, c ≠ b → m'.slot c = m.slot c := by
  refine ⟨_, constructEach_moves hm.live (hm.raw hroom), ?_, rfl,
    fun c hc => (slot_put_other hc).trans (slot_put_other hc)⟩
  have hleft := hm.put_part (xs.map f) (List.length_map _).symm
  have hend := hleft.put_end xs
  rwa [List.length_append, List.length_append, List.length_map, ← List.length_append,
    ← List.length_append] at hend

/-- Part of a list is moved behind another block's. -/
theorem Holds.move_other {pre post : List α} {d : β} (hm : m.Holds b (pre ++ xs ++ post))
    (hd : m.Holds d ys) (hdb : d ≠ b) (hroom : ys.length + xs.length ≤ m.room d) :
    ∃ m', m.constructEach f ⟨d, ys.length⟩ (Place.moves ⟨b, pre.length⟩ xs.length) = some m' ∧
      m'.Holds b (pre ++ xs.map f ++ post) ∧ m'.Holds d (ys ++ xs) ∧ m'.room = m.room ∧
      ∀ c, c ≠ b → c ≠ d → m'.slot c = m.slot c := by
  refine ⟨_, constructEach_moves hm.live (hd.raw hroom), ?_, ?_, rfl,
    fun c hc hc' => (slot_put_other hc').trans (slot_put_other hc)⟩
  · have hleft := hm.put_part (xs.map f) (List.length_map _).symm
    exact hleft.of_slot (slot_put_other hdb.symm)
  · exact (hd.of_slot (slot_put_other hdb)).put_end xs

/-- Part of a list is moved back over what follows it. -/
theorem Holds.move_back {pre mid post : List α} (hm : m.Holds b (pre ++ xs ++ mid ++ post)) :
    ∃ m', m.moveBackward f ⟨b, pre.length⟩ ⟨b, pre.length + mid.length⟩ xs.length = some m' ∧
      m'.Holds b (pre ++ (xs.map f ++ mid).take mid.length ++ xs ++ post) ∧
      m'.room = m.room ∧ ∀ c, c ≠ b → m'.slot c = m.slot c := by
  have hparts : m.Holds b (pre ++ xs ++ (mid ++ post)) := by
    rw [← List.append_assoc]
    exact hm
  have hover : ∀ k < xs.length,
      (m.get ((⟨b, pre.length + mid.length⟩ : Place β).plus k)).isSome = true := by
    intro k hk
    refine hm.isSome (i := pre.length + mid.length + k) ?_
    rw [List.length_append, List.length_append, List.length_append]
    omega
  refine ⟨_, moveBackward_eq hparts.live hover (Nat.le_add_right _ _), ?_, rfl,
    fun c hc => (slot_put_other hc).trans (slot_put_other hc)⟩
  obtain ⟨gap, hgap⟩ : ∃ gap, gap = xs.map f ++ mid := ⟨_, rfl⟩
  have hleft := hparts.put_part (xs.map f) (List.length_map _).symm
  have hsplit : pre ++ xs.map f ++ (mid ++ post) =
      pre ++ gap.take mid.length ++ gap.drop mid.length ++ post := by
    rw [List.append_assoc pre (gap.take mid.length), List.take_append_drop, hgap]
    simp only [List.append_assoc]
  have hfront : (pre ++ gap.take mid.length).length = pre.length + mid.length := by
    rw [List.length_append, List.length_take, hgap, List.length_append]
    omega
  have hback : (gap.drop mid.length).length = xs.length := by
    rw [List.length_drop, hgap, List.length_append, List.length_map]
    omega
  rw [hsplit] at hleft
  have hmoved := hleft.put_part xs hback
  rw [hfront] at hmoved
  rwa [← hgap]

end

end Slots

end Kotatsu.Core
