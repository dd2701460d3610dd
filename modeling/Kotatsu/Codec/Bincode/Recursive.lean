import Kotatsu.Codec.Bincode.Dyn
import Kotatsu.Codec.Bincode.Safety

/-!
# The explicit stack and the recursion it stands for

A `dyn::Value` may be read by recursion: its kind's byte and then what it holds, element by
element, with one container fewer to open around each. The reader's stack holds what such a
recursion has still to do, so both accept the same bytes, give the same tree and stop at the
same byte. Every turn of the reader takes a byte, so it never runs out of turns.

`visitInto` keeps the target in view as well: the tree being filled stands in it all along,
and a failed read leaves null there.
-/

namespace Kotatsu.Codec.Bincode

open Kotatsu.Core ReadM

/-! ## The recursive decoder -/

/-- A value inside containers that leave room for `levels` more of them, read by recursion. -/
def decodeValue : (levels : Nat) → Decode Dyn
  | 0 => fail (ascii "dyn::Value nested deeper than 1024 levels")
  | levels + 1 => do
    checkRemaining 1
    let kind ← readU8
    if kind = 0 then pure .null
    else if kind = 1 then do
      let held ← visitBool
      pure (.boolean held)
    else if kind = 2 then do
      let held ← visitInt .w64
      pure (.signedInt held)
    else if kind = 3 then do
      let held ← visitUint .w64
      pure (.unsignedInt held)
    else if kind = 4 then do
      let held ← visitUint .w64
      pure (.floating held)
    else if kind = 5 then do
      let held ← visitStr
      pure (.string held)
    else if kind = 6 then do
      let items ← visitSeq (decodeValue levels) appendSequenceElement []
      pure (.array items)
    else if kind = 7 then do
      let entries ← visitMap visitStr (decodeValue levels) appendSequenceElement []
      pure (.object entries)
    else fail (ascii "invalid dyn::Value kind " ++ decimal kind.toNat)

/-! ## The target of a read -/

/-- What the root holds while the slot below the open containers holds `slot`. -/
def enclose (slot : Dyn) : List Open → Dyn
  | [] => slot
  | o :: opened => enclose (o.node.push o.key slot) opened

/-- `fill` with what the slot being filled holds, and with what the root holds at the end. -/
def fillInto : Nat → Dyn → List Open → Cursor → Except (Fault RichError) Cursor × Dyn
  | 0, target, opened, _ => (.error .outOfBounds, enclose target opened)
  | turns + 1, target, opened, c =>
    if opened.length = maxDepth then
      let failed := failInside opened
        (fail (α := Unit) (ascii "dyn::Value nested deeper than 1024 levels"))
      ((failed c).map Prod.snd, enclose target opened)
    else
      match failInside opened readNode c with
      | .error e => (.error e, enclose target opened)
      | .ok ((out, children), c) =>
        match placeNode out children opened with
        | .inl root => (.ok c, root)
        | .inr (parent, opened) =>
          match nextSlot parent opened c with
          | .error e => (.error e, enclose parent.node opened)
          | .ok (opened, c) => fillInto turns .null opened c

/-- What a node passes on to the nodes still to be destroyed. -/
def Dyn.children : Dyn → List Dyn
  | .array items => items
  | .object entries => entries.map Prod.snd
  | _ => []

theorem nodesItems_append (xs ys : List Dyn) :
    nodesItems (xs ++ ys) = nodesItems xs + nodesItems ys := by
  induction xs with
  | nil => rw [List.nil_append, nodesItems, Nat.zero_add]
  | cons x xs ih => rw [List.cons_append, nodesItems, nodesItems, ih, Nat.add_assoc]

theorem nodesItems_reverse (xs : List Dyn) : nodesItems xs.reverse = nodesItems xs := by
  induction xs with
  | nil => rfl
  | cons x xs ih =>
    rw [List.reverse_cons, nodesItems_append, ih, nodesItems, nodesItems, nodesItems, Nat.add_zero,
      Nat.add_comm]

theorem nodesItems_values (es : List (Bytes × Dyn)) :
    nodesItems (es.map Prod.snd) = nodesEntries es := by
  induction es with
  | nil => rfl
  | cons e es ih => rw [List.map_cons, nodesItems, ih, nodesEntries]

theorem Dyn.nodes_children (v : Dyn) : v.nodes = nodesItems v.children + 1 := by
  cases v with
  | object entries => rw [Dyn.children, nodesItems_values, Dyn.nodes]
  | _ => rfl

/-- The loop of `release`: the last pending node is destroyed and its children become pending.
Gives how many nodes it has destroyed. -/
def drain : (pending : List Dyn) → Nat
  | [] => 0
  | node :: pending => drain (node.children.reverse ++ pending) + 1
termination_by pending => nodesItems pending
decreasing_by
  rw [nodesItems_append, nodesItems_reverse, nodesItems, node.nodes_children]
  omega

/-- `release`: what the root holds afterwards, and how many nodes were destroyed. -/
def release (root : Dyn) : Dyn × Nat := (.null, drain [root])

/-- `visit`: where the reader stops or what it reports, and what the target then holds. -/
def visitInto (target : Dyn) (c : Cursor) : Except (Fault RichError) Cursor × Dyn :=
  match fillInto (c.data.length - c.pos + 1) target [] c with
  | (.ok c', root) => (.ok c', root)
  | (.error e, root) => (.error e, (release root).1)

/-! ## One turn -/

variable {α β : Type} {d : Decode α} {c c' : Cursor} {e : Fault RichError} {opened : List Open}
  {o : Open} {levels : Nat}

/-- Two steps that fail alike fail alike inside the open containers. -/
private theorem failInside_error (opened : List Open) {g : Decode β} (h : d c = .error e)
    (h' : g c = .error e) :
    ∃ e', failInside opened d c = .error e' ∧ failInside opened g c = .error e' := by
  induction opened generalizing d g e with
  | nil => exact ⟨e, h, h'⟩
  | cons o opened ih =>
    cases e with
    | outOfBounds =>
      refine ih (e := .outOfBounds) ?_ ?_
      · simp only [tracePath, mapError, h]
      · simp only [tracePath, mapError, h']
    | error e =>
      refine ih (e := .error { e with path := .index (o.index - 1) :: e.path }) ?_ ?_
      · simp only [tracePath, mapError, h]
      · simp only [tracePath, mapError, h']

theorem outcome_failInside (opened : List Open) (d : Decode α) :
    outcome (failInside opened d) = outcome d := by
  induction opened generalizing d with
  | nil => rfl
  | cons o opened ih => exact (ih _).trans (outcome_mapError _ d)

theorem fill_deep (turns : Nat) (h : opened.length = maxDepth) :
    fill (turns + 1) opened =
      failInside opened (fail (ascii "dyn::Value nested deeper than 1024 levels")) := by
  rw [fill, if_pos h]

theorem fill_succ_of_ne (turns : Nat) (h : opened.length ≠ maxDepth) :
    fill (turns + 1) opened =
      (failInside opened readNode >>= fun p => goOn turns (placeNode p.1 p.2 opened)) := by
  rw [fill, if_neg h]
  rfl

private theorem bind_of_error {f : α → Decode β} (h : d c = .error e) : (d >>= f) c = .error e := by
  change (d c >>= fun p => f p.1 p.2) = _
  rw [h]
  rfl

/-- What stands in the target while it is filled has no say in what is read. -/
theorem fillInto_eq (turns : Nat) (target : Dyn) (opened : List Open) (c : Cursor) :
    (∀ v c', fill turns opened c = .ok (v, c') → fillInto turns target opened c = (.ok c', v)) ∧
    ∀ e, fill turns opened c = .error e → (fillInto turns target opened c).1 = .error e := by
  induction turns generalizing target opened c with
  | zero => exact ⟨nofun, fun e h => by cases h; rfl⟩
  | succ turns ih =>
    by_cases hdeep : opened.length = maxDepth
    · rw [fill_deep turns hdeep, fillInto, if_pos hdeep]
      obtain ⟨e', hfill, hinto⟩ := failInside_error opened (c := c)
        (d := fail (α := Dyn) (ascii "dyn::Value nested deeper than 1024 levels"))
        (g := fail (α := Unit) (ascii "dyn::Value nested deeper than 1024 levels")) rfl rfl
      rw [hfill]
      refine ⟨nofun, fun e h => ?_⟩
      cases h
      simp only [hinto, Except.map]
    · rw [fill_succ_of_ne turns hdeep, fillInto, if_neg hdeep]
      cases hnode : failInside opened readNode c with
      | error e =>
        rw [bind_of_error hnode]
        exact ⟨nofun, fun e' h => by cases h; rfl⟩
      | ok r =>
        obtain ⟨⟨out, children⟩, c₁⟩ := r
        rw [bind_of_ok hnode]
        dsimp only
        cases hplace : placeNode out children opened with
        | inl root => exact ⟨fun v c' h => by cases h; rfl, nofun⟩
        | inr p =>
          obtain ⟨parent, opened'⟩ := p
          dsimp only [goOn]
          cases hslot : nextSlot parent opened' c₁ with
          | error e =>
            rw [bind_of_error hslot]
            exact ⟨nofun, fun e' h => by cases h; rfl⟩
          | ok r =>
            obtain ⟨opened₂, c₂⟩ := r
            rw [bind_of_ok hslot]
            exact ih .null opened₂ c₂

/-! ## A turn takes a byte -/

theorem Yields.failInside {n : Nat} {P : Bytes → α → Prop} (opened : List Open) (h : Yields n d P) :
    Yields n (failInside opened d) P := by
  induction opened generalizing d with
  | nil => exact h
  | cons o opened ih => exact ih h.mapError

private theorem yields_held {P : Bytes → α → Prop} (h : Yields 0 d P) (g : α → β) :
    Yields 0 (d >>= fun held => pure (g held)) fun _ _ => True :=
  (Yields.bind h fun held => Yields.pure (g held)).mono (Nat.le_refl 0) fun _ _ _ => trivial

theorem yields_readNode : Yields 0 readNode fun bs _ => bs ≠ [] := by
  refine (yields_byte (Q := fun _ _ _ => True) fun kind => ?_).mono (Nat.le_refl 0) ?_
  · refine Yields.ite ((Yields.pure _).mono (Nat.le_refl 0) fun _ _ _ => trivial) ?_
    refine Yields.ite (yields_held yields_visitBool _) ?_
    refine Yields.ite (yields_held (yields_visitInt .w64) _) ?_
    refine Yields.ite (yields_held (yields_visitUint .w64) _) ?_
    refine Yields.ite (yields_held (yields_visitUint .w64) _) ?_
    refine Yields.ite (yields_held yields_visitBlob _) ?_
    refine Yields.ite (yields_held yields_readLength _) ?_
    exact Yields.ite (yields_held yields_readLength _) (Yields.fail _ _)
  · rintro bs a ⟨b, rest, rfl, -⟩
    exact List.cons_ne_nil b rest

theorem yields_nextSlot (o : Open) (opened : List Open) :
    Yields 0 (nextSlot o opened) fun _ _ => True := by
  unfold nextSlot
  dsimp only
  split
  · exact yields_held (Yields.failInside _ yields_visitBlob) _
  · exact (Yields.pure _).mono (Nat.le_refl 0) fun _ _ _ => trivial

theorem readNode_lt {p : Dyn × Nat} (h : failInside opened readNode c = .ok (p, c')) :
    c'.pos ≤ c'.data.length ∧ c'.data.length - c'.pos < c.data.length - c.pos := by
  have hin : c.pos ≤ c.data.length := by
    by_contra hout
    have hread : outcome (failInside opened readNode) c = none := by
      rw [outcome_failInside, readNode, outcome_bind]
      have hnone : outcome (checkRemaining 1) c = none := by
        rw [outcome, checkRemaining, if_pos (by omega)]
        rfl
      rw [hnone]
      rfl
    rw [outcome, h] at hread
    cases hread
  obtain ⟨hdata, hpos, bs, -, hlen, hne⟩ :=
    Yields.of_ok (Yields.failInside opened yields_readNode) hin h
  have hbs := List.length_pos_of_ne_nil hne
  rw [hdata]
  omega

theorem nextSlot_le {opened opened' : List Open} (hc : c.pos ≤ c.data.length)
    (h : nextSlot o opened c = .ok (opened', c')) :
    c'.data.length - c'.pos ≤ c.data.length - c.pos := by
  obtain ⟨hdata, hpos, bs, -, hlen, -⟩ := Yields.of_ok (yields_nextSlot o opened) hc h
  rw [hdata]
  omega

/-- A turn goes on with fewer bytes left. -/
theorem turn_congr {f g : Dyn ⊕ Open × List Open → Decode Dyn} {f' g' : List Open → Decode Dyn}
    (hroot : ∀ root, f (.inl root) = g (.inl root))
    (hf : ∀ o opened, f (.inr (o, opened)) = nextSlot o opened >>= f')
    (hg : ∀ o opened, g (.inr (o, opened)) = nextSlot o opened >>= g')
    (h : ∀ opened' c', c'.data.length - c'.pos < c.data.length - c.pos →
      f' opened' c' = g' opened' c') :
    (failInside opened readNode >>= fun p => f (placeNode p.1 p.2 opened)) c =
      (failInside opened readNode >>= fun p => g (placeNode p.1 p.2 opened)) c := by
  cases hnode : failInside opened readNode c with
  | error e => rw [bind_of_error hnode, bind_of_error hnode]
  | ok r =>
    obtain ⟨p, c₁⟩ := r
    obtain ⟨hin, hlt⟩ := readNode_lt hnode
    rw [bind_of_ok hnode, bind_of_ok hnode]
    cases placeNode p.1 p.2 opened with
    | inl root => rw [hroot]
    | inr q =>
      obtain ⟨parent, opened'⟩ := q
      rw [hf, hg]
      cases hslot : nextSlot parent opened' c₁ with
      | error e => rw [bind_of_error hslot, bind_of_error hslot]
      | ok r =>
        obtain ⟨opened₂, c₂⟩ := r
        have hle := nextSlot_le hin hslot
        rw [bind_of_ok hslot, bind_of_ok hslot]
        exact h _ _ (by omega)

/-- Turns that no byte is left for are not missed. -/
theorem fill_enough {turns turns' : Nat} (h : c.data.length - c.pos < turns)
    (h' : c.data.length - c.pos < turns') : fill turns opened c = fill turns' opened c := by
  induction turns generalizing turns' opened c with
  | zero => omega
  | succ turns ih =>
    obtain _ | turns' := turns'
    · omega
    by_cases hdeep : opened.length = maxDepth
    · rw [fill_deep turns hdeep, fill_deep turns' hdeep]
    rw [fill_succ_of_ne turns hdeep, fill_succ_of_ne turns' hdeep]
    exact turn_congr (fun _ => rfl) (fun _ _ => rfl) (fun _ _ => rfl) fun _ _ _ =>
      ih (by omega) (by omega)

/-! ## The stack is what the recursion has still to do -/

/-- `fill` with turns enough for the bytes that are left. -/
def run (opened : List Open) : Decode Dyn := fun c => fill (c.data.length - c.pos + 1) opened c

/-- How a run goes on after a turn. -/
def resume : Dyn ⊕ Open × List Open → Decode Dyn
  | .inl root => pure root
  | .inr (parent, opened) => nextSlot parent opened >>= run

theorem outcome_run_deep (h : opened.length = maxDepth) (c : Cursor) :
    outcome (run opened) c = none := by
  have hfail : outcome (run opened) c = outcome (failInside opened
      (fail (ascii "dyn::Value nested deeper than 1024 levels"))) c := by
    rw [outcome, run, fill_deep _ h]
    rfl
  rw [hfail, outcome_failInside]
  rfl

/-- A run reads a node, puts it in its place and goes on. -/
theorem outcome_run (h : opened.length ≠ maxDepth) (c : Cursor) :
    outcome (run opened) c =
      (outcome readNode c).bind fun r => outcome (resume (placeNode r.1.1 r.1.2 opened)) r.2 := by
  have hstep : outcome (run opened) c =
      outcome (failInside opened readNode >>= fun p => resume (placeNode p.1 p.2 opened)) c := by
    rw [outcome, outcome, run, fill_succ_of_ne _ h]
    refine congrArg _ (turn_congr (fun _ => rfl) (fun _ _ => rfl) (fun _ _ => rfl) fun _ c' _ => ?_)
    rw [run, fill_enough (by omega) (Nat.lt_succ_self _)]
  rw [hstep, outcome_bind, outcome_failInside]

theorem resume_array {done : List Dyn} (h : o.node = .array done) (opened : List Open) :
    resume (.inr (o, opened)) =
      run ({ o with index := o.index + 1, remaining := o.remaining - 1 } :: opened) := by
  rw [resume, nextSlot_array h]
  rfl

theorem outcome_resume_object {done : List (Bytes × Dyn)} (h : o.node = .object done)
    (opened : List Open) (c : Cursor) :
    outcome (resume (.inr (o, opened))) c = (outcome visitStr c).bind fun r => outcome
      (run ({ o with key := r.1, index := o.index + 1, remaining := o.remaining - 1 } :: opened))
      r.2 := by
  have hslot : outcome (nextSlot o opened) c = (outcome visitStr c).map fun r =>
      ({ o with key := r.1, index := o.index + 1, remaining := o.remaining - 1 } :: opened,
        r.2) := by
    unfold nextSlot
    dsimp only
    rw [h]
    dsimp only
    rw [outcome_bind, outcome_failInside]
    cases outcome visitStr c <;> rfl
  rw [resume, outcome_bind, hslot]
  cases outcome visitStr c <;> rfl

/-- Inside containers that leave room for `levels` more, a run is the recursion and then what the
stack has still to do. -/
def Agrees (levels : Nat) : Prop :=
  ∀ (opened : List Open) (c : Cursor), opened.length + levels = maxDepth →
    outcome (run opened) c = (outcome (decodeValue levels) c).bind fun r =>
      outcome (resume (closeWhole r.1 opened)) r.2

/-- The next item of an array, and then the stack with it in its place. -/
theorem outcome_item (h : Agrees levels) (hroom : opened.length + (levels + 1) = maxDepth)
    {done : List Dyn} (hnode : o.node = .array done) (idx : Nat) (c : Cursor) :
    outcome (resume (.inr (o, opened))) c =
      (outcome (tracePath (.index idx) (decodeValue levels)) c).bind fun r =>
        outcome (resume (closeWhole r.1
          ({ o with index := o.index + 1, remaining := o.remaining - 1 } :: opened))) r.2 := by
  rw [resume_array hnode, h _ c (by rw [List.length_cons]; omega), tracePath, outcome_mapError]

/-- The next entry of an object, and then the stack with its value in its place. -/
theorem outcome_entry (h : Agrees levels) (hroom : opened.length + (levels + 1) = maxDepth)
    {done : List (Bytes × Dyn)} (hnode : o.node = .object done) (idx : Nat) (c : Cursor) :
    outcome (resume (.inr (o, opened))) c =
      (outcome (tracePath (.index idx) (visitEntry visitStr (decodeValue levels))) c).bind fun r =>
        outcome (resume (closeWhole r.1.2 ({ o with
          key := r.1.1, index := o.index + 1, remaining := o.remaining - 1 } :: opened))) r.2 := by
  have hvalue (key : Bytes) (c' : Cursor) := h
    ({ o with key := key, index := o.index + 1, remaining := o.remaining - 1 } :: opened) c'
    (by rw [List.length_cons]; omega)
  rw [outcome_resume_object hnode, tracePath, outcome_mapError, visitEntry, outcome_bind,
    Option.bind_assoc]
  congr 1
  funext key
  rw [hvalue, outcome_bind, Option.bind_assoc]
  rfl

/-- The rest of an array: the item that a run reads next, and those after it. -/
theorem outcome_items {levels : Nat} (h : Agrees levels) {opened : List Open}
    (hroom : opened.length + (levels + 1) = maxDepth) (left idx : Nat) (done : List Dyn) (o : Open)
    (c : Cursor) (hnode : o.node = .array done) (hrem : o.remaining = left + 1) :
    outcome (resume (.inr (o, opened))) c =
      (outcome (visitElements (decodeValue levels) appendSequenceElement (left + 1) idx done)
        c).bind fun r => outcome (resume (closeWhole (.array r.1) opened)) r.2 := by
  have hleft : o.remaining - 1 = left := by omega
  rw [outcome_item h hroom hnode idx, visitElements, outcome_bind, Option.bind_assoc, hleft]
  congr 1
  funext r
  cases left with
  | zero =>
    rw [closeWhole, if_pos rfl, hnode]
    rfl
  | succ left =>
    rw [closeWhole, if_neg (Nat.succ_ne_zero left), hnode]
    exact outcome_items h hroom left (idx + 1) (done ++ [r.1]) _ r.2 rfl rfl

/-- The rest of an object: the entry that a run reads next, and those after it. -/
theorem outcome_entries {levels : Nat} (h : Agrees levels) {opened : List Open}
    (hroom : opened.length + (levels + 1) = maxDepth) (left idx : Nat) (done : List (Bytes × Dyn))
    (o : Open) (c : Cursor) (hnode : o.node = .object done) (hrem : o.remaining = left + 1) :
    outcome (resume (.inr (o, opened))) c =
      (outcome (visitElements (visitEntry visitStr (decodeValue levels)) appendSequenceElement
        (left + 1) idx done) c).bind fun r =>
          outcome (resume (closeWhole (.object r.1) opened)) r.2 := by
  have hleft : o.remaining - 1 = left := by omega
  rw [outcome_entry h hroom hnode idx, visitElements, outcome_bind, Option.bind_assoc, hleft]
  congr 1
  funext r
  cases left with
  | zero =>
    rw [closeWhole, if_pos rfl, hnode]
    rfl
  | succ left =>
    rw [closeWhole, if_neg (Nat.succ_ne_zero left), hnode]
    exact outcome_entries h hroom left (idx + 1) (done ++ [r.1]) _ r.2 rfl rfl

/-- A scalar is whole at once. -/
private theorem outcome_scalar (d : Decode α) (g : α → Dyn) (opened : List Open) (c : Cursor) :
    ((outcome (d >>= fun held => pure (g held, 0)) c).bind fun r =>
      outcome (resume (placeNode r.1.1 r.1.2 opened)) r.2) =
    (outcome (d >>= fun held => pure (g held)) c).bind fun r =>
      outcome (resume (closeWhole r.1 opened)) r.2 := by
  rw [outcome_bind, outcome_bind, Option.bind_assoc, Option.bind_assoc]
  rfl

/-- An array is whole at once where it is empty, and opened where it is not. -/
private theorem outcome_array (h : Agrees levels) (hroom : opened.length + (levels + 1) = maxDepth)
    (c : Cursor) :
    ((outcome (readLength >>= fun children => pure (Dyn.array [], children)) c).bind fun r =>
      outcome (resume (placeNode r.1.1 r.1.2 opened)) r.2) =
    (outcome (visitSeq (decodeValue levels) appendSequenceElement [] >>= fun items =>
      pure (Dyn.array items)) c).bind fun r => outcome (resume (closeWhole r.1 opened)) r.2 := by
  rw [visitSeq, outcome_bind, outcome_bind, outcome_bind, Option.bind_assoc, Option.bind_assoc,
    Option.bind_assoc]
  congr 1
  funext ⟨children, c'⟩
  cases children with
  | zero => rfl
  | succ left =>
    have hitems := outcome_items h hroom left 0 [] ⟨.array [], [], 0, left + 1⟩ c' rfl rfl
    exact hitems.trans (congrArg _ (funext fun r => rfl))

/-- An object is whole at once where it is empty, and opened where it is not. -/
private theorem outcome_object (h : Agrees levels) (hroom : opened.length + (levels + 1) = maxDepth)
    (c : Cursor) :
    ((outcome (readLength >>= fun children => pure (Dyn.object [], children)) c).bind fun r =>
      outcome (resume (placeNode r.1.1 r.1.2 opened)) r.2) =
    (outcome (visitMap visitStr (decodeValue levels) appendSequenceElement [] >>= fun entries =>
      pure (Dyn.object entries)) c).bind fun r =>
        outcome (resume (closeWhole r.1 opened)) r.2 := by
  rw [visitMap, outcome_bind, outcome_bind, outcome_bind, Option.bind_assoc, Option.bind_assoc,
    Option.bind_assoc]
  congr 1
  funext ⟨children, c'⟩
  cases children with
  | zero => rfl
  | succ left =>
    have hentries := outcome_entries h hroom left 0 [] ⟨.object [], [], 0, left + 1⟩ c' rfl rfl
    exact hentries.trans (congrArg _ (funext fun r => rfl))

/-- One level more: a node and, where it is a container, what is in it. -/
theorem agrees_succ (h : Agrees levels) : Agrees (levels + 1) := by
  intro opened c hroom
  rw [outcome_run (by omega), readNode, decodeValue, outcome_bind, outcome_bind,
    Option.bind_assoc, Option.bind_assoc]
  congr 1
  funext r
  rw [outcome_bind, outcome_bind, Option.bind_assoc, Option.bind_assoc]
  congr 1
  funext ⟨kind, c'⟩
  dsimp only
  split
  · rfl
  split
  · exact outcome_scalar _ _ opened c'
  split
  · exact outcome_scalar _ _ opened c'
  split
  · exact outcome_scalar _ _ opened c'
  split
  · exact outcome_scalar _ _ opened c'
  split
  · exact outcome_scalar _ _ opened c'
  split
  · exact outcome_array h hroom c'
  split
  · exact outcome_object h hroom c'
  · rfl

theorem agrees (levels : Nat) : Agrees levels := by
  induction levels with
  | zero =>
    intro opened c hroom
    rw [outcome_run_deep hroom]
    rfl
  | succ levels ih => exact agrees_succ ih

/-- The stack reads what the recursion reads. -/
theorem outcome_visitDyn (c : Cursor) :
    outcome visitDyn c = outcome (decodeValue maxDepth) c := by
  have hrun := agrees maxDepth [] c (Nat.zero_add maxDepth)
  refine hrun.trans ?_
  cases outcome (decodeValue maxDepth) c <;> rfl

/-! ## The target afterwards -/

theorem visitInto_of_ok {target v : Dyn} (h : visitDyn c = .ok (v, c')) :
    visitInto target c = (.ok c', v) := by
  rw [visitInto, (fillInto_eq _ target [] c).1 v c' h]

theorem visitInto_of_error {target : Dyn} (h : visitDyn c = .error e) :
    visitInto target c = (.error e, .null) := by
  have hinto := (fillInto_eq _ target [] c).2 e h
  unfold visitInto
  revert hinto
  obtain ⟨r, root⟩ := fillInto (c.data.length - c.pos + 1) target [] c
  rintro rfl
  rfl

/-- A value whose sizes are ones a `size_t` holds. -/
structure DynValue where
  root : Dyn
  fits : root.Fits

/-- The explicit stack reads from any bytes what the recursive decoder reads; it gives a value
that nests below the limit back from its own bytes, entry by entry; and where it fails the target
is null. -/
theorem visitInto_recursion :
    (∀ (target : Dyn) (c : Cursor),
      (visitInto target c).1.toOption.map (fun c' => ((visitInto target c).2, c')) =
        outcome (decodeValue maxDepth) c) ∧
    (∀ (target : Dyn) (v : DynValue), v.root.depth < maxDepth → ∀ before after : Bytes,
      let bytes := (encodeDyn v.root Writer.new).written
      visitInto target ⟨before ++ bytes ++ after, before.length⟩ =
        (.ok ⟨before ++ bytes ++ after, before.length + bytes.length⟩, v.root)) ∧
    ∀ (target : Dyn) (c : Cursor) (e : Fault RichError),
      (visitInto target c).1 = .error e → (visitInto target c).2 = .null := by
  refine ⟨fun target c => ?_, fun target v hd before after => ?_, fun target c e h => ?_⟩
  · rw [← outcome_visitDyn]
    unfold outcome
    cases hvisit : visitDyn c with
    | ok r =>
      rw [visitInto_of_ok hvisit]
      rfl
    | error e =>
      rw [visitInto_of_error hvisit]
      rfl
  · have hbytes : (encodeDyn v.root Writer.new).written = v.root.layout :=
      written_encodeDyn v.root Writer.new
    rw [hbytes]
    exact visitInto_of_ok (reads_visitDyn v.fits hd before after)
  · cases hvisit : visitDyn c with
    | ok r =>
      rw [visitInto_of_ok hvisit] at h
      cases h
    | error e' => rw [visitInto_of_error hvisit]

/-- An object that has a key twice. -/
def repeated : DynValue where
  root := .object [([97], .array [.null]), ([97], .boolean true)]
  fits := by simp [Dyn.Fits, FitsEntries, FitsItems]

theorem visitInto_recursion_repeated :
    repeated.root.depth < maxDepth ∧
      visitInto (.string [98]) ⟨[9, 7, 2, 1, 97, 6, 1, 0, 1, 97, 1, 1, 9], 1⟩ =
        (.ok ⟨[9, 7, 2, 1, 97, 6, 1, 0, 1, 97, 1, 1, 9], 12⟩, repeated.root) := by
  have hbytes : (encodeDyn repeated.root Writer.new).written =
      [7, 2, 1, 97, 6, 1, 0, 1, 97, 1, 1] := (written_encodeDyn _ _).trans (by decide)
  have hdepth : repeated.root.depth < maxDepth := by decide
  have hread := visitInto_recursion.2.1 (.string [98]) repeated hdepth [9] [9]
  dsimp only at hread
  rw [hbytes] at hread
  exact ⟨hdepth, hread⟩

end Kotatsu.Codec.Bincode
