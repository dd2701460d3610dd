import Kotatsu.Support.HybridVector.Insert
import Kotatsu.Support.HybridVector.Pair

/-!
# Programs with hybrid_vectors

A program operates on its vectors, one or two at a time. On vectors that keep lists, each
operation of a run has its effect on the lists, as long as a single-pass range is read while
the elements it refers to are in place.
-/

namespace Kotatsu.Support.HybridVector

open Kotatsu.Core Kotatsu.Core.Slots

/-- The inline capacity of a type: any `unsigned int` whose elements fit into memory. -/
structure InlineCapacity (z : Sizes) where
  val : Nat
  uint : val ≤ 2 ^ 32 - 1
  fits : val * z.bytes < z.word

/-- A vector between operations: its fields, and its buffer. -/
structure SmallVector (z : Sizes) (α : Type) where
  inlineCapacity : InlineCapacity z
  header : Header
  room : Nat
  slot : Nat → Option α

/-- The vectors of a program. -/
abbrev Vectors (z : Sizes) (α : Type) := Nat → SmallVector z α

theorem InlineCapacity.le_maxSize {z : Sizes} (cap : InlineCapacity z) : cap.val ≤ z.maxSize := by
  have hbytes : cap.val ≤ (z.word - 1) / z.bytes :=
    (Nat.le_div_iff_mul_le z.bytes_pos).mpr (Nat.le_sub_one_of_lt cap.fits)
  exact Nat.le_min.mpr ⟨Nat.le_trans cap.uint z.uint_le, hbytes⟩

namespace SmallVector

variable {α : Type} {z : Sizes}

/-- A vector that is constructed at a place. -/
def empty (cap : InlineCapacity z) (inline : Nat) : SmallVector z α where
  inlineCapacity := cap
  header := { head := inline, inline, used := 0, room := cap.val }
  room := cap.val
  slot := fun _ => none

/-- The vector that an operation is called on. -/
def state (v : SmallVector z α) : State α where
  header := v.header
  memory := {
    room := fun b => if b = .own then v.room else 0
    slot := fun b => if b = .own then v.slot else fun _ => none }

/-- A vector and the other of an operation. -/
def pair (v w : SmallVector z α) : Pair α where
  self := v.header
  peer := w.header
  memory := {
    room := fun b => if b = .own then v.room else if b = .other then w.room else 0
    slot := fun b => if b = .own then v.slot else if b = .other then w.slot else fun _ => none }

/-- A vector after an operation, of which it is the block `b`. -/
def after (v : SmallVector z α) (header : Header) (memory : Memory α) (b : Block) :
    SmallVector z α :=
  { v with header, room := memory.room b, slot := memory.slot b }

end SmallVector

section

variable {α : Type} (husk : α → α) (z : Sizes) (choose : Allocator)

def Call.run (s : State α) : Call α → Option (Outcome (State α))
  | .emplaceBack arg => s.emplaceBack husk z choose arg.source
  | .appendFill count item => s.appendFill husk z choose count item.source
  | .appendRange range => s.appendRange husk z choose range
  | .assignFill count item => s.assignFill husk z choose count item.source
  | .assignRange range => s.assignRange husk z choose range
  | .emplace index arg => s.emplace husk z choose index arg.source
  | .insertRvalue index item => s.insertRvalue husk z choose index item
  | .insertFill index count item => s.insertFill husk z choose index count item.source
  | .insertRange index range => s.insertRange husk z choose index range
  | .erase first last => (s.erase husk z first last).map .done

/-- An operation on a vector and itself. -/
def Pairing.runSelf (s : State α) : Pairing → Option (Outcome (State α))
  | .appendCopy => s.appendRange husk z choose (.view 0 s.header.used)
  | .appendMove | .copyAssign | .moveAssign _ | .swap => some (.done s)
  | .copyConstruct | .moveConstruct _ => none

variable {z}

/-- An operation of a program. -/
def Op.step (vectors : Vectors z α) : Op α → Option (Outcome (Vectors z α))
  | .one v call => (call.run husk z choose (vectors v).state).map (·.map fun s =>
      Function.update vectors v ((vectors v).after s.header s.memory .own))
  | .two v w pairing =>
    if v = w then
      (pairing.runSelf husk z choose (vectors v).state).map (·.map fun s =>
        Function.update vectors v ((vectors v).after s.header s.memory .own))
    else
      (pairing.run husk z choose (vectors v).inlineCapacity.val (vectors w).inlineCapacity.val
        ((vectors v).pair (vectors w))).map (·.map fun p =>
          Function.update (Function.update vectors v ((vectors v).after p.self p.memory .own)) w
            ((vectors w).after p.peer p.memory .other))

/-- What each operation of a run comes to. An operation that throws is followed by the next
one. -/
def trace (vectors : Vectors z α) : List (Op α × Allocator) → Option (List (Outcome (Vectors z α)))
  | [] => some []
  | (op, choose) :: ops => (op.step husk choose vectors).bind fun out =>
    (trace out.state ops).map (out :: ·)

variable (z)

/-- The effect of each operation on the lists. -/
def effects (lists : Lists α) : List (Op α) → Option (List (Outcome (Lists α)))
  | [] => some []
  | op :: ops => (op.effect husk z lists).bind fun out =>
    (effects out.state ops).map (out :: ·)

end

/-! ## What a program may pass -/

section

variable {α : Type}

/-- Each element that a single-pass range refers to is read while it is in place: before the
vector grows, unless the range is too long to be read so far. -/
def Range.InPlace (z : Sizes) (header : Header) (range : Range α) : Prop :=
  range.category = .single → ∀ k i, range.items[k]? = some (.element i) →
    header.used + k ≤ header.room ∨ z.maxSize ≤ header.used + k

/-- A single-pass range refers to no element, unless it is too long to be read so far. -/
def Range.Elsewhere (z : Sizes) (range : Range α) : Prop :=
  range.category = .single → ∀ k i, range.items[k]? = some (.element i) → z.maxSize ≤ k

def Call.Readable (z : Sizes) (header : Header) : Call α → Prop
  | .appendRange range | .insertRange _ range => range.InPlace z header
  | .assignRange range => range.Elsewhere z
  | _ => True

def Op.Readable {z : Sizes} (vectors : Vectors z α) : Op α → Prop
  | .one v call => call.Readable z (vectors v).header
  | .two _ _ _ => True

/-- Every operation of a run reads what it refers to. -/
def Readable (husk : α → α) {z : Sizes} (vectors : Vectors z α) : List (Op α × Allocator) → Prop
  | [] => True
  | (op, choose) :: ops => op.Readable vectors ∧
    ∀ out, op.step husk choose vectors = some out → Readable husk out.state ops

end

/-! ## One operation -/

section

variable {α : Type} {f : α → α} {z : Sizes} {g : Allocator} {s : State α} {l : List α}
  {result : Outcome (List α)}

/-- An operation on a vector has its effect on the list. -/
theorem Call.run_does (call : Call α) (hs : Stores z s l)
    (heffect : call.effect f z l = some result) (hread : call.Readable z s.header) :
    Does z (call.run f z g s) result := by
  cases call with
  | emplaceBack arg =>
    obtain ⟨⟨a, l'⟩, ha, rfl⟩ := Option.map_eq_some_iff.mp heffect
    exact emplaceBack_does hs ha
  | appendFill count item =>
    obtain ⟨a, ha, rfl⟩ := Option.map_eq_some_iff.mp heffect
    exact appendFill_does hs ha
  | appendRange range =>
    obtain ⟨xs, hxs, rfl⟩ := Option.map_eq_some_iff.mp heffect
    exact appendRange_does hs hxs (hs.used ▸ hread)
  | assignFill count item =>
    obtain ⟨a, ha, rfl⟩ := Option.map_eq_some_iff.mp heffect
    exact assignFill_does hs ha
  | assignRange range =>
    obtain ⟨xs, hxs, rfl⟩ := Option.map_eq_some_iff.mp heffect
    exact assignRange_does hs hxs hread
  | emplace index arg =>
    obtain ⟨hindex, heffect⟩ := Option.ite_none_right_eq_some.mp heffect
    obtain ⟨⟨a, l'⟩, ha, rfl⟩ := Option.map_eq_some_iff.mp heffect
    exact emplace_does hs hindex ha
  | insertRvalue index item =>
    obtain ⟨hindex, heffect⟩ := Option.ite_none_right_eq_some.mp heffect
    obtain ⟨⟨a, l'⟩, ha, rfl⟩ := Option.map_eq_some_iff.mp heffect
    exact insertRvalue_does hs hindex ha
  | insertFill index count item =>
    obtain ⟨hindex, heffect⟩ := Option.ite_none_right_eq_some.mp heffect
    obtain ⟨a, ha, rfl⟩ := Option.map_eq_some_iff.mp heffect
    exact insertFill_does hs hindex ha
  | insertRange index range =>
    obtain ⟨hindex, heffect⟩ := Option.ite_none_right_eq_some.mp heffect
    obtain ⟨xs, hxs, rfl⟩ := Option.map_eq_some_iff.mp heffect
    exact insertRange_does hs hindex hxs (hs.used ▸ hread)
  | erase first last =>
    obtain ⟨hrange, heffect⟩ := Option.ite_none_right_eq_some.mp heffect
    cases heffect
    obtain ⟨s', heq, hs'⟩ := erase_does (f := f) hs hrange.1 hrange.2
    rw [Call.run, heq]
    exact ⟨_, rfl, .done hs'⟩

/-- An operation on a vector and itself has its effect on the list. -/
theorem Pairing.runSelf_does (pairing : Pairing) (hs : Stores z s l)
    (heffect : pairing.effectSelf z l = some result) :
    Does z (pairing.runSelf f z g s) result := by
  cases pairing with
  | appendCopy =>
    cases heffect
    have hview : resolveEach l (Range.view 0 s.header.used).items = some l := by
      rw [hs.used]
      exact resolveEach_view [] l
    exact appendRange_does hs hview fun hsingle => Category.noConfusion hsingle
  | appendMove | copyAssign | moveAssign small | swap =>
    cases heffect
    exact ⟨_, rfl, .done hs⟩
  | copyConstruct | moveConstruct small => exact absurd heffect (Option.some_ne_none _).symm

end

/-! ## Runs -/

section

variable {α : Type} {f : α → α} {z : Sizes} {g : Allocator} {vectors : Vectors z α}
  {lists : Lists α} {l l' : List α}

/-- A vector keeps a list: its size is the list's and its capacity its buffer's, the size is at
most the capacity, and the capacity at most `max_size`. -/
def SmallVector.Stores (v : SmallVector z α) (l : List α) : Prop :=
  HybridVector.Stores z v.state l

/-- Every vector of a program keeps its list. -/
def StoreAll (vectors : Vectors z α) (lists : Lists α) : Prop := ∀ v, (vectors v).Stores (lists v)

theorem SmallVector.stores_empty (cap : InlineCapacity z) (inline : Nat) :
    (SmallVector.empty (α := α) cap inline).Stores [] :=
  ⟨fun _ => rfl, rfl, rfl, Nat.zero_le _, cap.le_maxSize⟩

theorem SmallVector.stores_after (v : SmallVector z α) {h : Header} {m : Memory α} {b : Block}
    (hk : Keeps z h m b l) : (v.after h m b).Stores l :=
  ⟨hk.holds, hk.used, hk.room, hk.le_room, hk.le_max⟩

theorem SmallVector.stores_pair {v w : SmallVector z α} (hv : v.Stores l) (hw : w.Stores l') :
    (v.pair w).Stores z l l' := by
  refine ⟨⟨hv.holds, hv.used, hv.room, hv.le_room, hv.le_max⟩, ?_⟩
  exact ⟨hw.holds, hw.used, hw.room, hw.le_room, hw.le_max⟩

theorem StoreAll.update (hall : StoreAll vectors lists) {x : SmallVector z α} (hx : x.Stores l)
    (v : Nat) : StoreAll (Function.update vectors v x) (Function.update lists v l) := by
  intro u
  by_cases hu : u = v
  · obtain rfl := hu
    rw [Function.update_self, Function.update_self]
    exact hx
  · rw [Function.update_of_ne hu, Function.update_of_ne hu]
    exact hall u

theorem Outcome.Rel.map {σ τ σ' τ' : Type} {R : σ → τ → Prop} {R' : σ' → τ' → Prop} {a : Outcome σ}
    {b : Outcome τ} {i : σ → σ'} {j : τ → τ'} (h : a.Rel R b)
    (hmap : ∀ s t, R s t → R' (i s) (j t)) : (a.map i).Rel R' (b.map j) := by
  cases h with
  | done h => exact .done (hmap _ _ h)
  | threw h => exact .threw (hmap _ _ h)

theorem Outcome.Rel.state {σ τ : Type} {R : σ → τ → Prop} {a : Outcome σ} {b : Outcome τ}
    (h : a.Rel R b) : R a.state b.state := by
  cases h with
  | done h => exact h
  | threw h => exact h

/-- An operation has its effect on the lists that the vectors keep. -/
theorem Op.step_does (op : Op α) (hall : StoreAll vectors lists) {result : Outcome (Lists α)}
    (heffect : op.effect f z lists = some result) (hread : op.Readable vectors) :
    ∃ out, op.step f g vectors = some out ∧ out.Rel StoreAll result := by
  cases op with
  | one v call =>
    obtain ⟨effect, hcall, rfl⟩ := Option.map_eq_some_iff.mp heffect
    obtain ⟨out, hout, hrel⟩ := call.run_does (f := f) (g := g) (hall v) hcall hread
    rw [Op.step, hout, Option.map_some]
    exact ⟨_, rfl, hrel.map fun s l' hs => hall.update ((vectors v).stores_after hs) v⟩
  | two v w pairing =>
    by_cases hsame : v = w
    · obtain rfl := hsame
      rw [Op.effect, if_pos rfl] at heffect
      obtain ⟨effect, hself, rfl⟩ := Option.map_eq_some_iff.mp heffect
      obtain ⟨out, hout, hrel⟩ := pairing.runSelf_does (f := f) (g := g) (hall v) hself
      rw [Op.step, if_pos rfl, hout, Option.map_some]
      exact ⟨_, rfl, hrel.map fun s l' hs => hall.update ((vectors v).stores_after hs) v⟩
    · rw [Op.effect, if_neg hsame] at heffect
      cases heffect
      obtain ⟨out, hout, hrel⟩ := pairing.run_does (f := f) (g := g)
        (SmallVector.stores_pair (hall v) (hall w)) (vectors v).inlineCapacity.le_maxSize
        (vectors w).inlineCapacity.le_maxSize
      rw [Op.step, if_neg hsame, hout, Option.map_some]
      refine ⟨_, rfl, hrel.map fun p lists' hp => ?_⟩
      exact (hall.update ((vectors v).stores_after hp.own) v).update
        ((vectors w).stores_after hp.other) w

/-- Every operation of a run has its effect on the lists that the vectors keep. -/
theorem trace_does {ops : List (Op α × Allocator)} (hall : StoreAll vectors lists)
    {results : List (Outcome (Lists α))}
    (heffects : effects f z lists (ops.map Prod.fst) = some results)
    (hread : Readable f vectors ops) :
    ∃ outs, trace f vectors ops = some outs ∧
      List.Forall₂ (Outcome.Rel StoreAll) outs results := by
  induction ops generalizing vectors lists results with
  | nil =>
    cases heffects
    exact ⟨[], rfl, .nil⟩
  | cons step ops ih =>
    obtain ⟨op, g⟩ := step
    obtain ⟨result, hresult, heffects⟩ := Option.bind_eq_some_iff.mp heffects
    obtain ⟨rest, hrest, rfl⟩ := Option.map_eq_some_iff.mp heffects
    obtain ⟨out, hout, hrel⟩ := op.step_does (f := f) (g := g) hall hresult hread.1
    obtain ⟨outs, houts, hall'⟩ := ih hrel.state hrest (hread.2 out hout)
    rw [trace, hout, Option.bind_some, houts, Option.map_some]
    exact ⟨_, rfl, .cons hrel hall'⟩

/-- The vectors of a program when it begins. -/
def constructed (caps : Nat → InlineCapacity z) (inlines : Nat → Nat) : Vectors z α :=
  fun v => .empty (caps v) (inlines v)

theorem storeAll_constructed (caps : Nat → InlineCapacity z) (inlines : Nat → Nat) :
    StoreAll (constructed caps inlines : Vectors z α) fun _ => [] :=
  fun v => SmallVector.stores_empty (caps v) (inlines v)

/-- In what an operation of a run leaves, each vector's size is at most its capacity, and that at
most `max_size`. -/
theorem bounds_of_rel {outs : List (Outcome (Vectors z α))} {results : List (Outcome (Lists α))}
    (h : List.Forall₂ (Outcome.Rel StoreAll) outs results) :
    ∀ out ∈ outs, ∀ v, (out.state v).header.used ≤ (out.state v).header.room ∧
      (out.state v).header.room ≤ z.maxSize := by
  induction h with
  | nil => exact List.forall_mem_nil _
  | cons hrel _ ih =>
    intro out hout v
    obtain rfl | hout := List.mem_cons.mp hout
    · have hs := hrel.state v
      exact ⟨hs.used ▸ hs.le_room, hs.le_max⟩
    · exact ih out hout v

/-- From when its vectors are constructed, a program whose operations read what they refer to
does to them what they mean for the lists, wherever its allocations are. -/
theorem run_spec (caps : Nat → InlineCapacity z) (inlines : Nat → Nat)
    (ops : List (Op α × Allocator)) {results : List (Outcome (Lists α))}
    (heffects : effects f z (fun _ => []) (ops.map Prod.fst) = some results)
    (hread : Readable f (constructed caps inlines) ops) :
    ∃ outs, trace f (constructed caps inlines) ops = some outs ∧
      List.Forall₂ (Outcome.Rel StoreAll) outs results ∧
      ∀ out ∈ outs, ∀ v, (out.state v).header.used ≤ (out.state v).header.room ∧
        (out.state v).header.room ≤ z.maxSize := by
  obtain ⟨outs, houts, hrel⟩ := trace_does (storeAll_constructed caps inlines) heffects hread
  exact ⟨outs, houts, hrel, bounds_of_rel hrel⟩

end

/-! ## Samples -/

/-- The integers of a vector of four-byte elements. -/
def wordSizes : Sizes where
  word := 2 ^ 64
  compact := 2 ^ 32 - 1
  bytes := 4
  word_pos := by decide
  uint_le := by decide
  bytes_pos := by decide

def pairOfElements : InlineCapacity wordSizes := ⟨2, by decide, by decide⟩

/-- Vectors with room for two elements, at different places. -/
def samples : Vectors wordSizes Nat := constructed (fun _ => pairOfElements) fun v => 100 * v

def sampleAllocator : Allocator := fun h room => (h.inline + room, h.inline + room + 1)

def pushSeven : Op Nat := .one 0 (.emplaceBack (.item (.value 7)))

/-- An element is appended, then put before itself by a single-pass range; both are appended
again, and all of them moved. -/
def sampleOps : List (Op Nat × Allocator) :=
  [(pushSeven, sampleAllocator),
    (.one 0 (.insertRange 0 (.single [.element 0])), sampleAllocator),
    (.one 0 (.appendRange (.view 0 2)), sampleAllocator),
    (.two 1 0 (.moveAssign true), sampleAllocator)]

theorem run_spec_sample :
    ∃ outs, trace id samples sampleOps = some outs ∧
      ∃ results, effects id wordSizes (fun _ => []) (sampleOps.map Prod.fst) = some results ∧
        List.Forall₂ (Outcome.Rel StoreAll) outs results := by
  have hinsert : (Range.single [Item.element 0] : Range Nat).InPlace wordSizes
      { head := 0, inline := 0, used := 1, room := 2 } := by
    intro _ k i hk
    obtain ⟨hlt, -⟩ := List.getElem?_eq_some_iff.mp hk
    obtain rfl : k = 0 := Nat.lt_one_iff.mp hlt
    exact .inl (by decide)
  have hpush : ∀ out, Op.step id sampleAllocator samples pushSeven = some out →
      (out.state 0).header = { head := 0, inline := 0, used := 1, room := 2 } := by
    intro out hout
    obtain ⟨out', heq, hheader⟩ : ∃ out', Op.step id sampleAllocator samples pushSeven = some out' ∧
        (out'.state 0).header = { head := 0, inline := 0, used := 1, room := 2 } :=
      ⟨_, rfl, rfl⟩
    obtain rfl := Option.some.inj (heq.symm.trans hout)
    exact hheader
  have hsecond : ∀ out, Op.step id sampleAllocator samples pushSeven = some out →
      Op.Readable out.state (.one 0 (.insertRange 0 (.single [.element 0]))) := by
    intro out hout
    rw [Op.Readable, Call.Readable, hpush out hout]
    exact hinsert
  have hread : Readable id samples sampleOps :=
    ⟨trivial, fun out hout => ⟨hsecond out hout, fun _ _ =>
      ⟨fun hsingle => Category.noConfusion hsingle, fun _ _ => ⟨trivial, fun _ _ => trivial⟩⟩⟩⟩
  obtain ⟨outs, houts, hrel, -⟩ := run_spec (f := id) (fun _ => pairOfElements)
    (fun v => 100 * v) sampleOps rfl hread
  exact ⟨outs, houts, _, rfl, hrel⟩

/-- An element is appended, then assigned by a single-pass range: it is destroyed before it is
read. -/
theorem run_single_fails :
    ¬∀ (ops : List (Op Nat × Allocator)) (results : List (Outcome (Lists Nat))),
      effects id wordSizes (fun _ => []) (ops.map Prod.fst) = some results →
      ∃ outs, trace id samples ops = some outs ∧
        List.Forall₂ (Outcome.Rel StoreAll) outs results := by
  intro h
  obtain ⟨outs, houts, -⟩ := h
    [(pushSeven, sampleAllocator),
      (.one 0 (.assignRange (.single [.element 0])), sampleAllocator)] _ rfl
  have hnone : trace id samples
      [(pushSeven, sampleAllocator),
        (.one 0 (.assignRange (.single [.element 0])), sampleAllocator)] = none := rfl
  exact absurd (hnone.symm.trans houts) (Option.some_ne_none outs).symm

end Kotatsu.Support.HybridVector
