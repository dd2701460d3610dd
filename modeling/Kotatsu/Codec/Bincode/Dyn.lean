import Kotatsu.Codec.Bincode.RoundTrip

/-!
# Values that say what they are

A `dyn::Value` is a tree of scalars, strings, arrays and objects, written as the
byte of its kind and then what it holds. The reader fills arrays and objects from
a stack of its own, one node a turn, and gives up where the stack would become
deeper than `maxDepth`. `Open` is a container still being filled, with its
children so far; the slot the reader fills next is the child that comes after
them. A tree that nests below the limit is read back from its bytes.
-/

namespace Kotatsu.Codec.Bincode

open Kotatsu.Core

/-! ## Values -/

/-- `dyn::Value`; a double is its 64 bits. -/
inductive Dyn where
  | null
  | boolean (b : Bool)
  | signedInt (v : SignedInt .w64)
  | unsignedInt (v : UnsignedInt .w64)
  | floating (bits : UnsignedInt .w64)
  | string (s : Bytes)
  | array (items : List Dyn)
  | object (entries : List (Bytes × Dyn))

/-- `dyn::Value::kind`. -/
def Dyn.kind : Dyn → UInt8
  | .null => 0
  | .boolean _ => 1
  | .signedInt _ => 2
  | .unsignedInt _ => 3
  | .floating _ => 4
  | .string _ => 5
  | .array _ => 6
  | .object _ => 7

mutual

/-- How many containers are around the deepest value in a tree. -/
def Dyn.depth : Dyn → Nat
  | .array items => depthItems items
  | .object entries => depthEntries entries
  | _ => 0

def depthItems : List Dyn → Nat
  | [] => 0
  | v :: vs => max (v.depth + 1) (depthItems vs)

def depthEntries : List (Bytes × Dyn) → Nat
  | [] => 0
  | (_, v) :: es => max (v.depth + 1) (depthEntries es)

end

mutual

/-- Every size in the tree is one a `size_t` holds. -/
def Dyn.Fits : Dyn → Prop
  | .string s => s.length < 2 ^ 64
  | .array items => items.length < 2 ^ 64 ∧ FitsItems items
  | .object entries => entries.length < 2 ^ 64 ∧ FitsEntries entries
  | _ => True

def FitsItems : List Dyn → Prop
  | [] => True
  | v :: vs => v.Fits ∧ FitsItems vs

def FitsEntries : List (Bytes × Dyn) → Prop
  | [] => True
  | (key, v) :: es => key.length < 2 ^ 64 ∧ v.Fits ∧ FitsEntries es

end

/-! ## Writing -/

mutual

/-- The kind's byte and what the value holds. -/
def encodeDyn : Dyn → Writer → Writer
  | .null, w => w.writeU8 Dyn.null.kind
  | .boolean b, w => (w.writeU8 (Dyn.boolean b).kind).visitBool b
  | .signedInt v, w => (w.writeU8 (Dyn.signedInt v).kind).visitInt v.val
  | .unsignedInt v, w => (w.writeU8 (Dyn.unsignedInt v).kind).visitUint v.val
  | .floating bits, w => (w.writeU8 (Dyn.floating bits).kind).visitUint bits.val
  | .string s, w => (w.writeU8 (Dyn.string s).kind).visitStr s
  | .array items, w =>
    (w.writeU8 (Dyn.array items).kind).visitSeq items.length (encodeItems items)
  | .object entries, w =>
    (w.writeU8 (Dyn.object entries).kind).visitMap entries.length (encodeObject entries)

/-- The items of an array, in order. -/
def encodeItems : List Dyn → Writer → Writer
  | [], w => w
  | v :: vs, w => encodeItems vs (encodeDyn v w)

/-- The entries of an object, each its key and its value. -/
def encodeObject : List (Bytes × Dyn) → Writer → Writer
  | [], w => w
  | (key, v) :: es, w => encodeObject es (encodeDyn v (w.visitStr key))

end

mutual

/-- The bytes of a value. -/
def Dyn.layout : Dyn → Bytes
  | .null => [0]
  | .boolean b => [1, bif b then 1 else 0]
  | .signedInt v => 2 :: intBytes v.val
  | .unsignedInt v => 3 :: leBytes 8 v.val
  | .floating bits => 4 :: leBytes 8 bits.val
  | .string s => 5 :: blobBytes s
  | .array items => 6 :: (lengthBytes items.length ++ layoutItems items)
  | .object entries => 7 :: (lengthBytes entries.length ++ layoutEntries entries)

def layoutItems : List Dyn → Bytes
  | [] => []
  | v :: vs => v.layout ++ layoutItems vs

def layoutEntries : List (Bytes × Dyn) → Bytes
  | [] => []
  | (key, v) :: es => blobBytes key ++ (v.layout ++ layoutEntries es)

end

mutual

/-- Encoding a value appends its bytes. -/
theorem written_encodeDyn : (v : Dyn) → (w : Writer) →
    (encodeDyn v w).written = w.written ++ v.layout
  | .null, w => w.written_writeU8 _
  | .boolean b, w => by
    rw [encodeDyn, Writer.visitBool, Writer.written_writeU8, Writer.written_writeU8,
      List.append_assoc]
    rfl
  | .signedInt v, w => by
    rw [encodeDyn, Writer.visitInt, Writer.written_writeLe, Writer.written_writeU8,
      List.append_assoc]
    rfl
  | .unsignedInt v, w => by
    rw [encodeDyn, Writer.visitUint, Writer.written_writeLe, Writer.written_writeU8,
      List.append_assoc]
    rfl
  | .floating v, w => by
    rw [encodeDyn, Writer.visitUint, Writer.written_writeLe, Writer.written_writeU8,
      List.append_assoc]
    rfl
  | .string s, w => by
    rw [encodeDyn, Writer.visitStr, Writer.written_writeBlob, Writer.written_writeU8,
      List.append_assoc]
    rfl
  | .array items, w => by
    rw [encodeDyn, Writer.visitSeq, written_encodeItems items, Writer.written_writeLength,
      Writer.written_writeU8, List.append_assoc, List.append_assoc]
    rfl
  | .object entries, w => by
    rw [encodeDyn, Writer.visitMap, written_encodeObject entries, Writer.written_writeLength,
      Writer.written_writeU8, List.append_assoc, List.append_assoc]
    rfl

theorem written_encodeItems : (vs : List Dyn) → (w : Writer) →
    (encodeItems vs w).written = w.written ++ layoutItems vs
  | [], _ => (List.append_nil _).symm
  | v :: vs, w => by
    rw [encodeItems, written_encodeItems vs, written_encodeDyn v, List.append_assoc, layoutItems]

theorem written_encodeObject : (es : List (Bytes × Dyn)) → (w : Writer) →
    (encodeObject es w).written = w.written ++ layoutEntries es
  | [], _ => (List.append_nil _).symm
  | (key, v) :: es, w => by
    rw [encodeObject, written_encodeObject es, written_encodeDyn v, Writer.visitStr,
      Writer.written_writeBlob, List.append_assoc, List.append_assoc, layoutEntries]

end

/-! ## Reading -/

/-- `max_depth`. -/
def maxDepth : Nat := 1024

/-- A container still being filled: its children so far, the key of the child being filled, that
child's index plus one, and how many children come after it. -/
structure Open where
  node : Dyn
  key : Bytes := []
  index : Nat := 0
  remaining : Nat

/-- `fail_inside`: a failed step with the index of each open container's current child. -/
def failInside {α : Type} (opened : List Open) (d : Decode α) : Decode α :=
  opened.foldl (fun d o => tracePath (.index (o.index - 1)) d) d

/-- `read_node`: a scalar or string whole, an array or object as an empty one and its count. -/
def readNode : Decode (Dyn × Nat) := do
  checkRemaining 1
  let kind ← readU8
  if kind = 0 then pure (.null, 0)
  else if kind = 1 then do
    let held ← visitBool
    pure (.boolean held, 0)
  else if kind = 2 then do
    let held ← visitInt .w64
    pure (.signedInt held, 0)
  else if kind = 3 then do
    let held ← visitUint .w64
    pure (.unsignedInt held, 0)
  else if kind = 4 then do
    let held ← visitUint .w64
    pure (.floating held, 0)
  else if kind = 5 then do
    let held ← visitStr
    pure (.string held, 0)
  else if kind = 6 then do
    let children ← readLength
    pure (.array [], children)
  else if kind = 7 then do
    let children ← readLength
    pure (.object [], children)
  else fail (ascii "invalid dyn::Value kind " ++ decimal kind.toNat)

/-- A container with one more child. -/
def Dyn.push (node : Dyn) (key : Bytes) (child : Dyn) : Dyn :=
  match node with
  | .array items => .array (items ++ [child])
  | .object entries => .object (entries ++ [(key, child)])
  | _ => node

/-- Puts a value that is whole into its slot, and closes the containers that are whole with it:
the root, or the innermost container that has children left and those around it. -/
def closeWhole (v : Dyn) : List Open → Dyn ⊕ Open × List Open
  | [] => .inl v
  | o :: opened =>
    if o.remaining = 0 then closeWhole (o.node.push o.key v) opened
    else .inr ({ o with node := o.node.push o.key v }, opened)

/-- Opens the slot of a container's next child, whose key comes first where it is an object. -/
def nextSlot (o : Open) (opened : List Open) : Decode (List Open) :=
  let parent := { o with index := o.index + 1, remaining := o.remaining - 1 }
  match parent.node with
  | .object _ => do
    let key ← failInside (parent :: opened) visitStr
    pure ({ parent with key := key } :: opened)
  | _ => pure (parent :: opened)

/-- What a turn of `fill` makes of the node it has read: a container with children is opened. -/
def placeNode (out : Dyn) (children : Nat) (opened : List Open) : Dyn ⊕ Open × List Open :=
  if children ≠ 0 then .inr (⟨out, [], 0, children⟩, opened) else closeWhole out opened

/-- `fill`: one node a turn, for as many turns as there are bytes. -/
def fill : Nat → List Open → Decode Dyn
  | 0, _ => fun _ => .error .outOfBounds
  | turns + 1, opened =>
    if opened.length = maxDepth then
      failInside opened (fail (ascii "dyn::Value nested deeper than 1024 levels"))
    else do
      let (out, children) ← failInside opened readNode
      match placeNode out children opened with
      | .inl root => pure root
      | .inr (parent, opened) => do
        let opened ← nextSlot parent opened
        fill turns opened

/-- `deserialize_visit<Reader, dyn::Value>::visit`. -/
def visitDyn : Decode Dyn := fun c => fill (c.data.length - c.pos + 1) [] c

/-! ## What is written is read back -/

mutual

/-- The turns it takes to read a tree. -/
def Dyn.nodes : Dyn → Nat
  | .array items => nodesItems items + 1
  | .object entries => nodesEntries entries + 1
  | _ => 1

def nodesItems : List Dyn → Nat
  | [] => 0
  | v :: vs => v.nodes + nodesItems vs

def nodesEntries : List (Bytes × Dyn) → Nat
  | [] => 0
  | (_, v) :: es => v.nodes + nodesEntries es

end

mutual

/-- Every node takes a byte at least. -/
theorem Dyn.nodes_le : (v : Dyn) → v.nodes ≤ v.layout.length
  | .null => Nat.le_refl 1
  | .boolean _ => Nat.le_add_left 1 _
  | .signedInt _ => Nat.le_add_left 1 _
  | .unsignedInt _ => Nat.le_add_left 1 _
  | .floating _ => Nat.le_add_left 1 _
  | .string _ => Nat.le_add_left 1 _
  | .array items => by
    have hitems := nodesItems_le items
    rw [Dyn.nodes, Dyn.layout, List.length_cons, List.length_append]
    omega
  | .object entries => by
    have hentries := nodesEntries_le entries
    rw [Dyn.nodes, Dyn.layout, List.length_cons, List.length_append]
    omega

theorem nodesItems_le : (vs : List Dyn) → nodesItems vs ≤ (layoutItems vs).length
  | [] => Nat.le_refl 0
  | v :: vs => by
    have hv := v.nodes_le
    have hvs := nodesItems_le vs
    rw [nodesItems, layoutItems, List.length_append]
    omega

theorem nodesEntries_le : (es : List (Bytes × Dyn)) → nodesEntries es ≤ (layoutEntries es).length
  | [] => Nat.le_refl 0
  | (_, v) :: es => by
    have hv := v.nodes_le
    have hes := nodesEntries_le es
    rw [nodesEntries, layoutEntries, List.length_append, List.length_append]
    omega

end

theorem Reads.failInside {α : Type} {d : Decode α} {bs : Bytes} {a : α} (opened : List Open)
    (h : Reads d bs a) : Reads (failInside opened d) bs a := by
  induction opened generalizing d with
  | nil => exact h
  | cons o opened ih => exact ih h.mapError

theorem reads_readNode_array {n : Nat} (h : n < 2 ^ 64) :
    Reads readNode (6 :: lengthBytes n) (.array [], n) :=
  reads_byte (Reads.bind_pure (reads_readLength h))

theorem reads_readNode_object {n : Nat} (h : n < 2 ^ 64) :
    Reads readNode (7 :: lengthBytes n) (.object [], n) :=
  reads_byte (Reads.bind_pure (reads_readLength h))

/-- How `fill` goes on after a turn. -/
def goOn (turns : Nat) : Dyn ⊕ Open × List Open → Decode Dyn
  | .inl root => pure root
  | .inr (parent, opened) => nextSlot parent opened >>= fill turns

theorem fill_succ (turns : Nat) {opened : List Open} (h : opened.length < maxDepth) :
    fill (turns + 1) opened =
      (failInside opened readNode >>= fun p => goOn turns (placeNode p.1 p.2 opened)) := by
  rw [fill, if_neg (Nat.ne_of_lt h)]
  rfl

/-- A node is read and put in its place. -/
theorem fill_node (turns : Nat) {opened : List Open} {bs : Bytes} {out : Dyn} {children : Nat}
    (h : opened.length < maxDepth) (hnode : Reads readNode bs (out, children)) :
    Leads (fill (turns + 1) opened) bs (goOn turns (placeNode out children opened)) := by
  rw [fill_succ turns h]
  exact (Reads.failInside opened hnode).leads _

theorem fill_scalar {v : Dyn} {turns : Nat} {opened : List Open} (hnodes : v.nodes = 1)
    (hnode : Reads readNode v.layout (v, 0)) (hd : opened.length + v.depth < maxDepth) :
    Leads (fill (v.nodes + turns) opened) v.layout (goOn turns (closeWhole v opened)) := by
  rw [hnodes, Nat.add_comm]
  exact fill_node turns (Nat.lt_of_le_of_lt (Nat.le_add_right _ _) hd) hnode

/-- The slot of an array's next item is there at once. -/
theorem nextSlot_array {o : Open} {done : List Dyn} (h : o.node = .array done)
    (opened : List Open) : nextSlot o opened =
      pure ({ o with index := o.index + 1, remaining := o.remaining - 1 } :: opened) := by
  unfold nextSlot
  dsimp only
  rw [h]

theorem goOn_array {o : Open} {done : List Dyn} (h : o.node = .array done) (turns : Nat)
    (opened : List Open) : goOn turns (.inr (o, opened)) =
      fill turns ({ o with index := o.index + 1, remaining := o.remaining - 1 } :: opened) := by
  rw [goOn, nextSlot_array h]
  rfl

/-- The slot of an object's next value is there after its key. -/
theorem goOn_object {o : Open} {done : List (Bytes × Dyn)} (h : o.node = .object done)
    {key : Bytes} (hkey : key.length < 2 ^ 64) (turns : Nat) (opened : List Open) :
    Leads (goOn turns (.inr (o, opened))) (blobBytes key) (fill turns
      ({ o with key := key, index := o.index + 1, remaining := o.remaining - 1 } :: opened)) := by
  have hslot : Reads (nextSlot o opened) (blobBytes key)
      ({ o with key := key, index := o.index + 1, remaining := o.remaining - 1 } :: opened) := by
    unfold nextSlot
    dsimp only
    rw [h]
    exact Reads.bind_pure (Reads.failInside _ (reads_visitBlob hkey))
  exact hslot.leads (fill turns)

mutual

/-- A tree is read and put in its place. -/
theorem fill_value : (v : Dyn) → v.Fits → (turns : Nat) → (opened : List Open) →
    opened.length + v.depth < maxDepth →
    Leads (fill (v.nodes + turns) opened) v.layout (goOn turns (closeWhole v opened))
  | .null, _, _, _, hd => fill_scalar rfl (reads_byte (Reads.pure (Dyn.null, 0))) hd
  | .boolean b, _, _, _, hd =>
    fill_scalar rfl (reads_byte (Reads.bind_pure (reads_visitBool b))) hd
  | .signedInt v, _, _, _, hd =>
    fill_scalar rfl (reads_byte (Reads.bind_pure (reads_visitInt v))) hd
  | .unsignedInt v, _, _, _, hd =>
    fill_scalar rfl (reads_byte (Reads.bind_pure (reads_visitUint v))) hd
  | .floating v, _, _, _, hd =>
    fill_scalar rfl (reads_byte (Reads.bind_pure (reads_visitUint v))) hd
  | .string _, hf, _, _, hd =>
    fill_scalar rfl (reads_byte (Reads.bind_pure (reads_visitBlob hf))) hd
  | .array items, hf, turns, opened, hd => by
    have hlt : opened.length < maxDepth := Nat.lt_of_le_of_lt (Nat.le_add_right _ _) hd
    have hnode := fill_node (nodesItems items + turns) hlt (reads_readNode_array hf.1)
    rw [Dyn.nodes, Nat.add_right_comm, Dyn.layout, ← List.cons_append]
    refine hnode.trans ?_
    by_cases hnil : items = []
    · subst hnil
      rw [nodesItems, Nat.zero_add]
      exact Leads.refl _
    · have hlen : items.length ≠ 0 := fun h => hnil (List.length_eq_zero_iff.mp h)
      rw [placeNode, if_pos hlen]
      exact fill_items items hf.2 turns opened hd hnil ⟨.array [], [], 0, items.length⟩ [] rfl rfl
  | .object entries, hf, turns, opened, hd => by
    have hlt : opened.length < maxDepth := Nat.lt_of_le_of_lt (Nat.le_add_right _ _) hd
    have hnode := fill_node (nodesEntries entries + turns) hlt (reads_readNode_object hf.1)
    rw [Dyn.nodes, Nat.add_right_comm, Dyn.layout, ← List.cons_append]
    refine hnode.trans ?_
    by_cases hnil : entries = []
    · subst hnil
      rw [nodesEntries, Nat.zero_add]
      exact Leads.refl _
    · have hlen : entries.length ≠ 0 := fun h => hnil (List.length_eq_zero_iff.mp h)
      rw [placeNode, if_pos hlen]
      exact fill_entries entries hf.2 turns opened hd hnil ⟨.object [], [], 0, entries.length⟩ []
        rfl rfl

/-- The items left of an array are read into it. -/
theorem fill_items : (vs : List Dyn) → FitsItems vs → (turns : Nat) → (opened : List Open) →
    opened.length + depthItems vs < maxDepth → vs ≠ [] → (o : Open) → (done : List Dyn) →
    o.node = .array done → o.remaining = vs.length →
    Leads (goOn (nodesItems vs + turns) (.inr (o, opened))) (layoutItems vs)
      (goOn turns (closeWhole (.array (done ++ vs)) opened))
  | [], _, _, _, _, hne, _, _, _, _ => absurd rfl hne
  | v :: vs, hf, turns, opened, hd, _, o, done, hnode, hrem => by
    have hdepth : v.depth + 1 ≤ depthItems (v :: vs) := Nat.le_max_left _ _
    have hdepth' : depthItems vs ≤ depthItems (v :: vs) := Nat.le_max_right _ _
    rw [goOn_array hnode, hrem, List.length_cons, Nat.add_sub_cancel, nodesItems, Nat.add_assoc,
      layoutItems]
    refine (fill_value v hf.1 (nodesItems vs + turns) _ ?_).trans ?_
    · rw [List.length_cons]
      omega
    · by_cases hnil : vs = []
      · subst hnil
        rw [closeWhole, if_pos List.length_nil, nodesItems, Nat.zero_add, hnode]
        exact Leads.refl _
      · have hlen : vs.length ≠ 0 := fun h => hnil (List.length_eq_zero_iff.mp h)
        rw [closeWhole, if_neg hlen, hnode]
        have hrest := fill_items vs hf.2 turns opened (by omega) hnil
          ⟨.array (done ++ [v]), o.key, o.index + 1, vs.length⟩ (done ++ [v]) rfl rfl
        rwa [List.append_assoc, List.singleton_append] at hrest

/-- The entries left of an object are read into it. -/
theorem fill_entries : (es : List (Bytes × Dyn)) → FitsEntries es → (turns : Nat) →
    (opened : List Open) → opened.length + depthEntries es < maxDepth → es ≠ [] → (o : Open) →
    (done : List (Bytes × Dyn)) → o.node = .object done → o.remaining = es.length →
    Leads (goOn (nodesEntries es + turns) (.inr (o, opened))) (layoutEntries es)
      (goOn turns (closeWhole (.object (done ++ es)) opened))
  | [], _, _, _, _, hne, _, _, _, _ => absurd rfl hne
  | (key, v) :: es, hf, turns, opened, hd, _, o, done, hnode, hrem => by
    have hdepth : v.depth + 1 ≤ depthEntries ((key, v) :: es) := Nat.le_max_left _ _
    have hdepth' : depthEntries es ≤ depthEntries ((key, v) :: es) := Nat.le_max_right _ _
    rw [layoutEntries]
    refine (goOn_object hnode hf.1 _ opened).trans ?_
    rw [hrem, List.length_cons, Nat.add_sub_cancel, nodesEntries, Nat.add_assoc]
    refine (fill_value v hf.2.1 (nodesEntries es + turns) _ ?_).trans ?_
    · rw [List.length_cons]
      omega
    · by_cases hnil : es = []
      · subst hnil
        rw [closeWhole, if_pos List.length_nil, nodesEntries, Nat.zero_add, hnode]
        exact Leads.refl _
      · have hlen : es.length ≠ 0 := fun h => hnil (List.length_eq_zero_iff.mp h)
        rw [closeWhole, if_neg hlen, hnode]
        have hrest := fill_entries es hf.2.2 turns opened (by omega) hnil
          ⟨.object (done ++ [(key, v)]), key, o.index + 1, es.length⟩ (done ++ [(key, v)]) rfl rfl
        rwa [List.append_assoc, List.singleton_append] at hrest

end

/-- A tree that nests below the limit is read back from its bytes. -/
theorem reads_visitDyn {v : Dyn} (hf : v.Fits) (hd : v.depth < maxDepth) :
    Reads visitDyn v.layout v := by
  intro before after
  have hnodes := v.nodes_le
  have hturns : (before ++ v.layout ++ after).length - before.length + 1 =
      v.nodes + (v.layout.length - v.nodes + after.length + 1) := by
    simp only [List.length_append]
    omega
  have hfill := fill_value v hf (v.layout.length - v.nodes + after.length + 1) []
    (by rwa [List.length_nil, Nat.zero_add]) before after
  rw [visitDyn, hturns, hfill]
  rfl

end Kotatsu.Codec.Bincode
