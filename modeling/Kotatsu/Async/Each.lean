import Kotatsu.Core.Fairness

/-!
# Iterations of the event loop

`each()` runs the roots scheduled before it and completes the ops the previous call
promoted; what its callbacks schedule and stage is left to later calls. A callback is what
happens between two steps of the call, so that tasks are scheduled and ops staged at any
moment. libuv calls `each()` once in an iteration while the idle handle is active. The
history numbers what happens by the calls begun so far.
-/

namespace Kotatsu.Async.Each

open Kotatsu.Core

variable {Root Op : Type}

/-- Where the loop's thread is: not in `each()`, or in it, with the roots to run and the ops
to complete that are left. -/
inductive Phase (Root Op : Type) where
  | outside
  | running (all : List Root) (completing : List Op)
deriving DecidableEq

/-- The roots of `each()` that are left. -/
def Phase.all : Phase Root Op → List Root
  | .outside => []
  | .running all _ => all

/-- The ops of `each()` that are left. -/
def Phase.completing : Phase Root Op → List Op
  | .outside => []
  | .running _ completing => completing

/-- What happens to roots, ops and the idle handle. -/
inductive Event (Root Op : Type) where
  | schedule (root : Root)
  | stage (op : Op)
  | run (root : Root)
  | complete (op : Op)
  | stop

/-- `event_loop::Self`, with the calls of `each()` begun so far and the history. -/
structure State (Root Op : Type) where
  idle : Bool := false
  tasks : List Root := []
  staged : List Op := []
  ready : List Op := []
  phase : Phase Root Op := .outside
  calls : Nat := 0
  history : List (Nat × Event Root Op) := []

namespace State

/-- An event of the call begun last. -/
def record (s : State Root Op) (event : Event Root Op) : State Root Op :=
  { s with history := s.history ++ [(s.calls, event)] }

/-- `ensure_idle`. -/
def ensureIdle (s : State Root Op) : State Root Op := { s with idle := true }

/-- `schedule`. -/
def schedule (s : State Root Op) (root : Root) : State Root Op :=
  let s := s.ensureIdle
  { s.record (.schedule root) with tasks := s.tasks ++ [root] }

/-- `complete_later`. -/
def completeLater (s : State Root Op) (op : Op) : State Root Op :=
  { s.record (.stage op) with staged := s.staged ++ [op] }.ensureIdle

/-- `each()`, up to its loops. -/
def each (s : State Root Op) : State Root Op :=
  let s := { s with calls := s.calls + 1 }
  if s.tasks = [] ∧ s.staged = [] ∧ s.ready = [] then { s.record .stop with idle := false }
  else
    let completing := s.ready
    let s := { s with ready := s.staged, staged := [] }
    let all := s.tasks
    { s with tasks := [], phase := .running all completing }

end State

/-- What happens next. -/
inductive Action (Root Op : Type) where
  /-- `event_loop::schedule`, from any callback. -/
  | schedule (root : Root)
  /-- `uv::complete_later`, from any callback. -/
  | completeLater (op : Op)
  /-- libuv calls `each()`. -/
  | each
  /-- `each()` runs its next root. -/
  | runRoot
  /-- `each()` completes its next op. -/
  | complete
  /-- `each()` returns. -/
  | return'

/-- One step; `none` where it is not possible. -/
def step (s : State Root Op) : Action Root Op → Option (State Root Op)
  | .schedule root => some (s.schedule root)
  | .completeLater op => some (s.completeLater op)
  | .each =>
    match s.phase with
    | .outside => if s.idle then some s.each else none
    | .running _ _ => none
  | .runRoot =>
    match s.phase with
    | .running (root :: all) completing =>
      some { s.record (.run root) with phase := .running all completing }
    | _ => none
  | .complete =>
    match s.phase with
    | .running [] (op :: completing) =>
      some { s.record (.complete op) with phase := .running [] completing }
    | _ => none
  | .return' =>
    match s.phase with
    | .running [] [] => some { s with phase := .outside }
    | _ => none

/-- What each action does, where it is possible. -/
inductive Stepped (s : State Root Op) : Action Root Op → State Root Op → Prop
  | schedule (root : Root) : Stepped s (.schedule root) (s.schedule root)
  | completeLater (op : Op) : Stepped s (.completeLater op) (s.completeLater op)
  | each (hphase : s.phase = .outside) (hidle : s.idle = true) : Stepped s .each s.each
  | runRoot (root : Root) (all : List Root) (completing : List Op)
    (hphase : s.phase = .running (root :: all) completing) :
    Stepped s .runRoot { s.record (.run root) with phase := .running all completing }
  | complete (op : Op) (completing : List Op)
    (hphase : s.phase = .running [] (op :: completing)) :
    Stepped s .complete { s.record (.complete op) with phase := .running [] completing }
  | return' (hphase : s.phase = .running [] []) :
    Stepped s .return' { s with phase := .outside }

variable {s s' : State Root Op} {a : Action Root Op} {p : Op × Nat}

theorem step_stepped (hs : step s a = some s') : Stepped s a s' := by
  cases a with
  | schedule root =>
    cases hs
    exact .schedule root
  | completeLater op =>
    cases hs
    exact .completeLater op
  | each =>
    cases hphase : s.phase with
    | running all completing => simp only [step, hphase, reduceCtorEq] at hs
    | outside =>
      simp only [step, hphase] at hs
      split at hs
      · next hidle =>
        cases hs
        exact .each hphase hidle
      · cases hs
  | runRoot =>
    simp only [step] at hs
    split at hs
    · next hphase =>
      cases hs
      exact .runRoot _ _ _ hphase
    · cases hs
  | complete =>
    simp only [step] at hs
    split at hs
    · next hphase =>
      cases hs
      exact .complete _ _ hphase
    · cases hs
  | return' =>
    simp only [step] at hs
    split at hs
    · next hphase =>
      cases hs
      exact .return' hphase
    · cases hs

/-- What a run from a new loop leads to. -/
def Reachable (s : State Root Op) : Prop := Reach step {} s

/-! ## Histories -/

namespace State

/-- The roots scheduled, each with the calls begun before. -/
def scheduled (s : State Root Op) : List (Root × Nat) :=
  s.history.filterMap fun
    | (n, .schedule root) => some (root, n)
    | _ => none

/-- The ops staged, each with the calls begun before. -/
def stagings (s : State Root Op) : List (Op × Nat) :=
  s.history.filterMap fun
    | (n, .stage op) => some (op, n)
    | _ => none

/-- The roots run, each with the call that ran it. -/
def ran (s : State Root Op) : List (Root × Nat) :=
  s.history.filterMap fun
    | (n, .run root) => some (root, n)
    | _ => none

/-- The ops completed, each with the call that completed it. -/
def completed (s : State Root Op) : List (Op × Nat) :=
  s.history.filterMap fun
    | (n, .complete op) => some (op, n)
    | _ => none

/-- Entries of a queue, all due in one call. -/
def dueIn {α : Type} (n : Nat) (entries : List α) : List (α × Nat) :=
  entries.map fun a => (a, n)

@[simp] theorem dueIn_nil {α : Type} (n : Nat) : dueIn n ([] : List α) = [] := rfl

/-- An entry is due so many calls after it is queued. -/
def after {α : Type} (n : Nat) (entries : List (α × Nat)) : List (α × Nat) :=
  entries.map fun p => (p.1, p.2 + n)

end State

open State

/-! ## The invariant -/

/-- What holds between the steps: roots are due in the call after the last one begun when
they are scheduled, ops in the one after that; what is due in no later call has been run
and completed, but for what the call under way has left; and the idle handle is active
while anything is queued. -/
structure Invariant (s : State Root Op) : Prop where
  roots : s.ran ++ dueIn s.calls s.phase.all ++ dueIn (s.calls + 1) s.tasks =
    after 1 s.scheduled
  ops : s.completed ++ dueIn s.calls s.phase.completing ++ dueIn (s.calls + 1) s.ready ++
    dueIn (s.calls + 2) s.staged = after 2 s.stagings
  ranBy : ∀ p ∈ s.ran, p.2 ≤ s.calls
  completedBy : ∀ p ∈ s.completed, p.2 ≤ s.calls
  idle : s.idle = false → s.tasks = [] ∧ s.staged = [] ∧ s.ready = [] ∧ s.phase = .outside
  numbered : ∀ e ∈ s.history, e.1 ≤ s.calls
  rootsFirst : s.phase.all ≠ [] → ∀ op, (s.calls, .complete op) ∉ s.history
  ordered : s.history.Pairwise fun e f => ∀ n op root,
    ¬(e = (n, .complete op) ∧ f = (n, .run root))

theorem invariant_init : Invariant ({} : State Root Op) where
  roots := rfl
  ops := rfl
  ranBy := List.forall_mem_nil _
  completedBy := List.forall_mem_nil _
  idle := fun _ => ⟨rfl, rfl, rfl, rfl⟩
  numbered := List.forall_mem_nil _
  rootsFirst := fun h => absurd rfl h
  ordered := List.Pairwise.nil

/-- How an event changes the histories. -/
theorem record_histories (s : State Root Op) (event : Event Root Op) :
    (s.record event).scheduled = s.scheduled ++
        (match event with | .schedule root => [(root, s.calls)] | _ => []) ∧
      (s.record event).stagings = s.stagings ++
        (match event with | .stage op => [(op, s.calls)] | _ => []) ∧
      (s.record event).ran = s.ran ++
        (match event with | .run root => [(root, s.calls)] | _ => []) ∧
      (s.record event).completed = s.completed ++
        (match event with | .complete op => [(op, s.calls)] | _ => []) := by
  simp only [record, scheduled, stagings, ran, completed, List.filterMap_append]
  cases event <;> exact ⟨rfl, rfl, rfl, rfl⟩

/-- An event that is no run keeps the order. -/
theorem Invariant.ordered_record (h : Invariant s) {event : Event Root Op}
    (hrun : ∀ root, event = .run root → ∀ op, (s.calls, .complete op) ∉ s.history) :
    (s.record event).history.Pairwise fun e f => ∀ n op root,
      ¬(e = (n, .complete op) ∧ f = (n, .run root)) := by
  rw [record, List.pairwise_append]
  refine ⟨h.ordered, List.pairwise_singleton _ _, fun e he f hf n op root => ?_⟩
  rintro ⟨rfl, hfn⟩
  rw [List.mem_singleton.mp hf, Prod.mk.injEq] at hfn
  obtain ⟨rfl, hevent⟩ := hfn
  exact hrun root hevent op he

theorem Invariant.numbered_record (h : Invariant s) (event : Event Root Op) :
    ∀ e ∈ (s.record event).history, e.1 ≤ s.calls := by
  intro e he
  obtain he | he := List.mem_append.mp he
  · exact h.numbered e he
  · rw [List.mem_singleton.mp he]

theorem Invariant.schedule (h : Invariant s) (root : Root) : Invariant (s.schedule root) := by
  obtain ⟨hscheduled, hstagings, hran, hcompleted⟩ := record_histories s (.schedule root)
  simp only [List.append_nil] at hscheduled hstagings hran hcompleted
  refine ⟨?_, ?_, ?_, ?_, fun hidle => absurd hidle Bool.false_ne_true.symm,
    h.numbered_record _, fun hall op hmem => ?_, h.ordered_record fun _ hrun => ?_⟩
  · change (s.record _).ran ++ dueIn s.calls s.phase.all ++
      dueIn (s.calls + 1) (s.tasks ++ [root]) = after 1 (s.record _).scheduled
    rw [hran, hscheduled, after, List.map_append, ← after, ← h.roots, dueIn, dueIn, dueIn,
      List.map_append, List.append_assoc, List.append_assoc, List.append_assoc]
    rfl
  · change (s.record _).completed ++ _ ++ _ ++ _ = after 2 (s.record _).stagings
    rw [hcompleted, hstagings]
    exact h.ops
  · exact hran ▸ h.ranBy
  · exact hcompleted ▸ h.completedBy
  · obtain hmem | hmem := List.mem_append.mp hmem
    · exact h.rootsFirst hall op hmem
    · cases List.mem_singleton.mp hmem
  · cases hrun

theorem Invariant.completeLater (h : Invariant s) (op : Op) : Invariant (s.completeLater op) := by
  obtain ⟨hscheduled, hstagings, hran, hcompleted⟩ := record_histories s (.stage op)
  simp only [List.append_nil] at hscheduled hstagings hran hcompleted
  refine ⟨?_, ?_, ?_, ?_, fun hidle => absurd hidle Bool.false_ne_true.symm,
    h.numbered_record _, fun hall op' hmem => ?_, h.ordered_record fun _ hrun => ?_⟩
  · change (s.record _).ran ++ _ ++ _ = after 1 (s.record _).scheduled
    rw [hran, hscheduled]
    exact h.roots
  · change (s.record _).completed ++ dueIn s.calls s.phase.completing ++
      dueIn (s.calls + 1) s.ready ++ dueIn (s.calls + 2) (s.staged ++ [op]) =
        after 2 (s.record _).stagings
    rw [hcompleted, hstagings, after, List.map_append, ← after, ← h.ops,
      dueIn.eq_def (s.calls + 2) (s.staged ++ [op]), List.map_append, ← List.append_assoc]
    rfl
  · exact hran ▸ h.ranBy
  · exact hcompleted ▸ h.completedBy
  · obtain hmem | hmem := List.mem_append.mp hmem
    · exact h.rootsFirst hall op' hmem
    · cases List.mem_singleton.mp hmem
  · cases hrun

/-- With nothing to do, a call stops the idle handle. -/
theorem Invariant.stop (h : Invariant s) (htasks : s.tasks = []) (hstaged : s.staged = [])
    (hready : s.ready = []) (hphase : s.phase = .outside) :
    Invariant { s.record .stop with idle := false } := by
  obtain ⟨hscheduled, hstagings, hran, hcompleted⟩ := record_histories s .stop
  simp only [List.append_nil] at hscheduled hstagings hran hcompleted
  refine ⟨?_, ?_, ?_, ?_, fun _ => ⟨htasks, hstaged, hready, hphase⟩, h.numbered_record _,
    fun hall => absurd (congrArg Phase.all hphase) hall, h.ordered_record fun _ hrun => ?_⟩
  · change (s.record _).ran ++ _ ++ _ = after 1 (s.record _).scheduled
    rw [hran, hscheduled]
    exact h.roots
  · change (s.record _).completed ++ _ ++ _ ++ _ = after 2 (s.record _).stagings
    rw [hcompleted, hstagings]
    exact h.ops
  · exact hran ▸ h.ranBy
  · exact hcompleted ▸ h.completedBy
  · cases hrun

/-- A call takes what is due in it. -/
theorem Invariant.each (h : Invariant s) (hphase : s.phase = .outside) (hidle : s.idle = true) :
    Invariant s.each := by
  have hroots : s.ran ++ dueIn (s.calls + 1) s.tasks = after 1 s.scheduled := by
    rw [← h.roots, hphase, Phase.all, dueIn_nil, List.append_nil]
  have hops : s.completed ++ dueIn (s.calls + 1) s.ready ++ dueIn (s.calls + 2) s.staged =
      after 2 s.stagings := by
    rw [← h.ops, hphase, Phase.completing, dueIn_nil, List.append_nil]
  have hran : ∀ p ∈ s.ran, p.2 ≤ s.calls + 1 := fun p hp => Nat.le_succ_of_le (h.ranBy p hp)
  have hcompleted : ∀ p ∈ s.completed, p.2 ≤ s.calls + 1 :=
    fun p hp => Nat.le_succ_of_le (h.completedBy p hp)
  have hnumbered : ∀ e ∈ s.history, e.1 ≤ s.calls + 1 :=
    fun e he => Nat.le_succ_of_le (h.numbered e he)
  have hactive : s.idle = false → ∀ {P : Prop}, P := fun hfalse => by
    rw [hidle] at hfalse
    cases hfalse
  unfold State.each
  dsimp only
  split
  · next hempty =>
    obtain ⟨htasks, hstaged, hready⟩ := hempty
    refine Invariant.stop (s := { s with calls := s.calls + 1 }) ⟨?_, ?_, hran, hcompleted,
      fun hfalse => hactive hfalse, hnumbered, fun hall => absurd (congrArg Phase.all hphase) hall,
      h.ordered⟩ htasks hstaged hready hphase
    · change s.ran ++ dueIn (s.calls + 1) s.phase.all ++ dueIn (s.calls + 2) s.tasks =
        after 1 s.scheduled
      rw [htasks] at hroots ⊢
      rw [hphase, Phase.all, dueIn_nil, dueIn_nil, List.append_nil]
      exact hroots
    · change s.completed ++ dueIn (s.calls + 1) s.phase.completing ++
        dueIn (s.calls + 2) s.ready ++ dueIn (s.calls + 3) s.staged = after 2 s.stagings
      rw [hready, hstaged] at hops ⊢
      rw [hphase, Phase.completing, dueIn_nil, dueIn_nil, dueIn_nil, List.append_nil]
      exact hops
  · refine ⟨?_, ?_, hran, hcompleted, fun hfalse => hactive hfalse, hnumbered,
      fun _ op hmem => ?_, h.ordered⟩
    · change s.ran ++ dueIn (s.calls + 1) s.tasks ++ [] = _
      rw [List.append_nil]
      exact hroots
    · change s.completed ++ dueIn (s.calls + 1) s.ready ++ dueIn (s.calls + 2) s.staged ++ [] = _
      rw [List.append_nil]
      exact hops
    · exact Nat.not_succ_le_self _ (h.numbered _ hmem)

theorem Invariant.runRoot (h : Invariant s) {root : Root} {all : List Root} {completing : List Op}
    (hphase : s.phase = .running (root :: all) completing) :
    Invariant { s.record (.run root) with phase := .running all completing } := by
  obtain ⟨hscheduled, hstagings, hran, hcompleted⟩ := record_histories s (.run root)
  simp only [List.append_nil] at hscheduled hstagings hran hcompleted
  have hroots := h.roots
  have hops := h.ops
  have hfirst : ∀ op, (s.calls, .complete op) ∉ s.history :=
    h.rootsFirst (by rw [hphase]; exact List.cons_ne_nil _ _)
  rw [hphase] at hroots hops
  refine ⟨?_, ?_, ?_, ?_, fun hidle => ?_, h.numbered_record _, fun _ op hmem => ?_,
    h.ordered_record fun _ _ => hfirst⟩
  · change (s.record _).ran ++ dueIn s.calls all ++ _ = after 1 (s.record _).scheduled
    rw [hran, hscheduled, ← hroots, List.append_assoc s.ran]
    rfl
  · change (s.record _).completed ++ _ ++ _ ++ _ = after 2 (s.record _).stagings
    rw [hcompleted, hstagings]
    exact hops
  · change ∀ p ∈ (s.record _).ran, _
    rw [hran]
    intro p hp
    obtain hp | hp := List.mem_append.mp hp
    · exact h.ranBy p hp
    · rw [List.mem_singleton.mp hp]
      exact le_refl _
  · exact hcompleted ▸ h.completedBy
  · rw [(h.idle hidle).2.2.2] at hphase
    cases hphase
  · obtain hmem | hmem := List.mem_append.mp hmem
    · exact hfirst op hmem
    · cases List.mem_singleton.mp hmem

theorem Invariant.complete (h : Invariant s) {op : Op} {completing : List Op}
    (hphase : s.phase = .running [] (op :: completing)) :
    Invariant { s.record (.complete op) with phase := .running [] completing } := by
  obtain ⟨hscheduled, hstagings, hran, hcompleted⟩ := record_histories s (.complete op)
  simp only [List.append_nil] at hscheduled hstagings hran hcompleted
  have hroots := h.roots
  have hops := h.ops
  rw [hphase] at hroots hops
  refine ⟨?_, ?_, ?_, ?_, fun hidle => ?_, h.numbered_record _, fun hall => absurd rfl hall,
    h.ordered_record fun _ hrun => ?_⟩
  · change (s.record _).ran ++ _ ++ _ = after 1 (s.record _).scheduled
    rw [hran, hscheduled]
    exact hroots
  · change (s.record _).completed ++ dueIn s.calls completing ++ _ ++ _ =
      after 2 (s.record _).stagings
    rw [hcompleted, hstagings, ← hops, List.append_assoc s.completed]
    rfl
  · exact hran ▸ h.ranBy
  · change ∀ p ∈ (s.record _).completed, _
    rw [hcompleted]
    intro p hp
    obtain hp | hp := List.mem_append.mp hp
    · exact h.completedBy p hp
    · rw [List.mem_singleton.mp hp]
      exact le_refl _
  · rw [(h.idle hidle).2.2.2] at hphase
    cases hphase
  · cases hrun

theorem Invariant.return' (h : Invariant s) (hphase : s.phase = .running [] []) :
    Invariant { s with phase := .outside } := by
  have hroots := h.roots
  have hops := h.ops
  rw [hphase] at hroots hops
  refine ⟨hroots, hops, h.ranBy, h.completedBy, fun hidle => ?_, h.numbered,
    fun hall => absurd rfl hall, h.ordered⟩
  rw [(h.idle hidle).2.2.2] at hphase
  cases hphase

theorem Invariant.step (h : Invariant s) (hs : step s a = some s') : Invariant s' := by
  cases step_stepped hs with
  | schedule root => exact h.schedule root
  | completeLater op => exact h.completeLater op
  | each hphase hidle => exact h.each hphase hidle
  | runRoot root all completing hphase => exact h.runRoot hphase
  | complete op completing hphase => exact h.complete hphase
  | return' hphase => exact h.return' hphase

theorem Reachable.invariant (h : Reachable s) : Invariant s :=
  Reach.invariant (fun hi hs => hi.step hs) invariant_init h

/-! ## What the calls so far have done -/

private theorem filter_dueIn {α : Type} {n m : Nat} (entries : List α) :
    (dueIn n entries).filter (·.2 ≤ m) = if n ≤ m then dueIn n entries else [] := by
  split
  · next hle =>
    refine List.filter_eq_self.mpr fun p hp => ?_
    obtain ⟨a, -, rfl⟩ := List.mem_map.mp hp
    exact decide_eq_true hle
  · next hgt =>
    refine List.filter_eq_nil_iff.mpr fun p hp => ?_
    obtain ⟨a, -, rfl⟩ := List.mem_map.mp hp
    rw [decide_eq_true_eq]
    exact hgt

/-- The roots run, and those the call under way has left, are those due in no later
call. -/
theorem Invariant.ran_eq (h : Invariant s) :
    s.ran ++ dueIn s.calls s.phase.all = (after 1 s.scheduled).filter (·.2 ≤ s.calls) := by
  have hran : s.ran.filter (·.2 ≤ s.calls) = s.ran :=
    List.filter_eq_self.mpr fun p hp => decide_eq_true (h.ranBy p hp)
  rw [← h.roots, List.filter_append, List.filter_append, hran, filter_dueIn, filter_dueIn,
    if_pos (le_refl _), if_neg (Nat.not_succ_le_self _), List.append_nil]

/-- And so it is with the ops. -/
theorem Invariant.completed_eq (h : Invariant s) :
    s.completed ++ dueIn s.calls s.phase.completing =
      (after 2 s.stagings).filter (·.2 ≤ s.calls) := by
  have hcompleted : s.completed.filter (·.2 ≤ s.calls) = s.completed :=
    List.filter_eq_self.mpr fun p hp => decide_eq_true (h.completedBy p hp)
  rw [← h.ops, List.filter_append, List.filter_append, List.filter_append, hcompleted,
    filter_dueIn, filter_dueIn, filter_dueIn, if_pos (le_refl _),
    if_neg (Nat.not_succ_le_self _), if_neg (by omega), List.append_nil, List.append_nil]

/-- Only a call with nothing queued stops the idle handle. -/
theorem step_stops (hs : step s a = some s') (hidle : s.idle = true) (hstopped : s'.idle = false) :
    s.tasks = [] ∧ s.staged = [] ∧ s.ready = [] := by
  have hsame : s'.idle ≠ s.idle := by
    rw [hidle, hstopped]
    exact Bool.false_ne_true
  cases step_stepped hs with
  | schedule root => cases hstopped
  | completeLater op => cases hstopped
  | each hphase _ =>
    unfold State.each at hsame
    dsimp only at hsame
    split at hsame
    · next hempty => exact hempty
    · exact absurd rfl hsame
  | runRoot root all completing hphase => exact absurd rfl hsame
  | complete op completing hphase => exact absurd rfl hsame
  | return' hphase => exact absurd rfl hsame

/-! ## Endless runs -/

/-- An endless run of the loop: while the idle handle is active libuv calls `each()` again
and again, and every callback of a call returns. -/
structure Iterates (r : EndlessRun step ({} : State Root Op)) : Prop where
  calls : ∀ i, (r.state i).phase = .outside → (r.state i).idle = true →
    ∃ j, i ≤ j ∧ r.op j = some .each
  returns : ∀ i, (r.state i).phase ≠ .outside → ∃ j, i ≤ j ∧
    (r.op j = some .runRoot ∨ r.op j = some .complete ∨ r.op j = some .return')

/-- The steps the call under way has left. -/
def State.left (s : State Root Op) : Nat :=
  match s.phase with
  | .outside => 0
  | .running all completing => all.length + completing.length + 1

theorem each_calls (s : State Root Op) : s.each.calls = s.calls + 1 := by
  unfold State.each
  dsimp only
  split <;> rfl

theorem step_calls_le (hs : step s a = some s') : s.calls ≤ s'.calls := by
  cases step_stepped hs with
  | schedule root => exact le_refl _
  | completeLater op => exact le_refl _
  | each hphase hidle =>
    rw [each_calls]
    exact Nat.le_succ _
  | runRoot root all completing hphase => exact le_refl _
  | complete op completing hphase => exact le_refl _
  | return' hphase => exact le_refl _

theorem step_each (hs : step s .each = some s') : s'.calls = s.calls + 1 := by
  cases step_stepped hs with
  | each hphase hidle => exact each_calls s

/-- The history only grows. -/
theorem step_history (hs : step s a = some s') : s.history <+: s'.history := by
  cases step_stepped hs with
  | schedule root => exact List.prefix_append _ _
  | completeLater op => exact List.prefix_append _ _
  | each hphase hidle =>
    unfold State.each
    dsimp only
    split
    · exact List.prefix_append _ _
    · exact List.prefix_refl _
  | runRoot root all completing hphase => exact List.prefix_append _ _
  | complete op completing hphase => exact List.prefix_append _ _
  | return' hphase => exact List.prefix_refl _

/-- Within a call, only its own steps change what it has left. -/
theorem step_left (hs : step s a = some s') (hrunning : s.phase ≠ .outside) :
    s'.left ≤ s.left ∧
      (a = .runRoot ∨ a = .complete ∨ a = .return' → s'.left < s.left) := by
  cases step_stepped hs with
  | schedule root => exact ⟨le_refl _, by simp⟩
  | completeLater op => exact ⟨le_refl _, by simp⟩
  | each hphase hidle => exact absurd hphase hrunning
  | runRoot root all completing hphase =>
    have hlt : all.length + completing.length + 1 < s.left := by
      rw [State.left, hphase]
      simp only [List.length_cons]
      omega
    exact ⟨hlt.le, fun _ => hlt⟩
  | complete op completing hphase =>
    have hlt : ([] : List Root).length + completing.length + 1 < s.left := by
      rw [State.left, hphase]
      simp only [List.length_cons]
      omega
    exact ⟨hlt.le, fun _ => hlt⟩
  | return' hphase =>
    have hlt : 0 < s.left := by
      rw [State.left, hphase]
      exact Nat.succ_pos _
    exact ⟨hlt.le, fun _ => hlt⟩

section Endless

variable {r : EndlessRun step ({} : State Root Op)} {i : Nat}

private theorem calls_mono {j : Nat} (hij : i ≤ j) :
    (r.state i).calls ≤ (r.state j).calls :=
  r.keeps (fun s => (r.state i).calls ≤ s.calls)
    (fun h hs => Nat.le_trans h (step_calls_le hs)) hij (le_refl _)

private theorem stagings_mono {j : Nat} (hij : i ≤ j) (hp : p ∈ (r.state i).stagings) :
    p ∈ (r.state j).stagings := by
  refine r.keeps (fun s => p ∈ s.stagings) (fun h hs => ?_) hij hp
  exact ((step_history hs).sublist.filterMap _).subset h

/-- Every call of `each()` returns. -/
private theorem Iterates.returned (h : Iterates r) (i : Nat) :
    ∃ j, i ≤ j ∧ (r.state j).phase = .outside := by
  refine r.eventually (fun s => s.phase = .outside) State.left (fun j _ hj => ?_)
    fun j hj hnever => ?_
  · cases hop : r.op j with
    | none => rw [r.next_of_none hop]
    | some a => exact (step_left (r.next_of_some hop) hj).1
  · obtain ⟨m, hm, hop⟩ := h.returns j (hnever j hj)
    refine ⟨m, hm, ?_⟩
    obtain hop | hop | hop := hop
    · exact (step_left (r.next_of_some hop) (hnever m (hj.trans hm))).2 (Or.inl rfl)
    · exact (step_left (r.next_of_some hop) (hnever m (hj.trans hm))).2 (Or.inr (Or.inl rfl))
    · exact (step_left (r.next_of_some hop) (hnever m (hj.trans hm))).2 (Or.inr (Or.inr rfl))

/-- While an op is pending, libuv calls `each()` again. -/
private theorem Iterates.called (h : Iterates r) (hp : p ∈ (r.state i).stagings)
    (hphase : (r.state i).phase = .outside) (hpending : (r.state i).calls < p.2 + 2) :
    ∃ j, i ≤ j ∧ (r.state i).calls < (r.state j).calls := by
  have hinvariant : Invariant (r.state i) := Reachable.invariant (r.reach i)
  have hidle : (r.state i).idle = true := by
    by_contra hstopped
    obtain ⟨-, hstaged, hready, -⟩ := hinvariant.idle (Bool.not_eq_true _ ▸ hstopped)
    have hops := hinvariant.ops
    rw [hstaged, hready, hphase, Phase.completing, dueIn_nil, dueIn_nil, dueIn_nil,
      List.append_nil, List.append_nil, List.append_nil] at hops
    have hdue : (p.1, p.2 + 2) ∈ (r.state i).completed := by
      rw [hops]
      exact List.mem_map.mpr ⟨p, hp, rfl⟩
    have := hinvariant.completedBy _ hdue
    omega
  obtain ⟨j, hij, hop⟩ := h.calls i hphase hidle
  refine ⟨j + 1, hij.trans (Nat.le_succ j), ?_⟩
  have hmono : (r.state i).calls ≤ (r.state j).calls := calls_mono hij
  rw [step_each (r.next_of_some hop)]
  omega

/-- An op is completed in the second call to begin after it is staged. -/
private theorem Iterates.completes (h : Iterates r) (hp : p ∈ (r.state i).stagings) :
    ∃ j, i ≤ j ∧ (p.1, p.2 + 2) ∈ (r.state j).completed := by
  obtain ⟨d, hd⟩ : ∃ d, p.2 + 2 ≤ (r.state i).calls + d := ⟨p.2 + 2, Nat.le_add_left _ _⟩
  induction d generalizing i with
  | zero =>
    obtain ⟨j, hij, hphase⟩ := h.returned i
    have hcalls : (r.state i).calls ≤ (r.state j).calls := calls_mono hij
    have hinvariant : Invariant (r.state j) := Reachable.invariant (r.reach j)
    have hcompleted := hinvariant.completed_eq
    rw [hphase, Phase.completing, dueIn_nil, List.append_nil] at hcompleted
    refine ⟨j, hij, ?_⟩
    rw [hcompleted, List.mem_filter]
    exact ⟨List.mem_map.mpr ⟨p, stagings_mono hij hp, rfl⟩, decide_eq_true (by omega)⟩
  | succ d ih =>
    obtain hdue | hpending := Nat.lt_or_ge (p.2 + 2) ((r.state i).calls + d + 1)
    · exact ih hp (by omega)
    · obtain ⟨j, hij, hphase⟩ := h.returned i
      have hcalls : (r.state i).calls ≤ (r.state j).calls := calls_mono hij
      have hpj := stagings_mono hij hp
      obtain ⟨m, hjm, hlt⟩ : ∃ m, j ≤ m ∧ (r.state i).calls < (r.state m).calls := by
        obtain hearly | hlate := Nat.lt_or_ge (r.state i).calls (r.state j).calls
        · exact ⟨j, le_refl _, hearly⟩
        · obtain ⟨m, hjm, hlt⟩ := h.called hpj hphase (by omega)
          exact ⟨m, hjm, by omega⟩
      obtain ⟨n, hmn, hn⟩ := ih (stagings_mono hjm hpj) (by omega)
      exact ⟨n, hij.trans (hjm.trans hmn), hn⟩

end Endless

/-- In every run: the roots the calls so far have run, and those the call under way has
left, are those scheduled before the last call began, each in the first call to begin
after it, in order; the ops completed, and those left to complete, are those staged before
the last call but one began, each in the second call to begin after it, in order, and so
never in a call it is staged in; a call runs its roots before it completes an op; and only
a call with nothing queued stops the idle handle. While calls go on and return, every op
staged is completed. -/
theorem each_order :
    (∀ s : State Root Op, Reachable s →
      s.ran ++ dueIn s.calls s.phase.all = (after 1 s.scheduled).filter (·.2 ≤ s.calls) ∧
      s.completed ++ dueIn s.calls s.phase.completing =
        (after 2 s.stagings).filter (·.2 ≤ s.calls) ∧
      (s.history.Pairwise fun e f => ∀ n op root,
        ¬(e = (n, .complete op) ∧ f = (n, .run root))) ∧
      ∀ a s', step s a = some s' → s.idle = true → s'.idle = false →
        s.tasks = [] ∧ s.staged = [] ∧ s.ready = []) ∧
    ∀ r : EndlessRun step ({} : State Root Op), Iterates r → ∀ (i : Nat) (p : Op × Nat),
      p ∈ (r.state i).stagings → ∃ j, i ≤ j ∧ (p.1, p.2 + 2) ∈ (r.state j).completed := by
  refine ⟨fun s hs => ?_, fun r hr i p => hr.completes⟩
  have h := hs.invariant
  exact ⟨h.ran_eq, h.completed_eq, h.ordered, fun a s' => step_stops⟩

/-- An op is staged, and the loop runs until it stops. -/
private def oneOp : List (Action Nat Nat) :=
  [.completeLater 7, .each, .return', .each, .complete, .return', .each]

private def oneOpTrace : EndlessRun step ({} : State Nat Nat) := EndlessRun.ofRun oneOp rfl

private theorem oneOpTrace_after {i : Nat} (hi : 7 ≤ i) :
    oneOpTrace.state i = oneOpTrace.state 7 := by
  change (run step {} (oneOp.take i)).getD {} = (run step {} (oneOp.take 7)).getD {}
  rw [List.take_of_length_le (show oneOp.length ≤ i from hi),
    List.take_of_length_le (show oneOp.length ≤ 7 from le_refl _)]

private theorem oneOpTrace_iterates : Iterates oneOpTrace where
  calls i hphase hidle := by
    have houtside : ∀ i < 7, (oneOpTrace.state i).phase = .outside →
        (oneOpTrace.state i).idle = true → i = 1 ∨ i = 3 ∨ i = 6 := by decide
    obtain hlt | hge := Nat.lt_or_ge i 7
    · obtain rfl | rfl | rfl := houtside i hlt hphase hidle
      · exact ⟨1, le_refl _, rfl⟩
      · exact ⟨3, le_refl _, rfl⟩
      · exact ⟨6, le_refl _, rfl⟩
    · rw [oneOpTrace_after hge] at hidle
      cases hidle
  returns i hphase := by
    have hrunning : ∀ i < 7, (oneOpTrace.state i).phase ≠ .outside →
        i = 2 ∨ i = 4 ∨ i = 5 := by decide
    obtain hlt | hge := Nat.lt_or_ge i 7
    · obtain rfl | rfl | rfl := hrunning i hlt hphase
      · exact ⟨2, le_refl _, Or.inr (Or.inr rfl)⟩
      · exact ⟨4, le_refl _, Or.inr (Or.inl rfl)⟩
      · exact ⟨5, le_refl _, Or.inr (Or.inr rfl)⟩
    · rw [oneOpTrace_after hge] at hphase
      exact absurd rfl hphase

theorem each_order_oneOp :
    ((oneOpTrace.state 6).tasks = [] ∧ (oneOpTrace.state 6).staged = [] ∧
      (oneOpTrace.state 6).ready = []) ∧
    ∃ j, 1 ≤ j ∧ (7, 2) ∈ (oneOpTrace.state j).completed :=
  ⟨(each_order.1 _ (oneOpTrace.reach 6)).2.2.2 .each _ (oneOpTrace.moves 6) rfl rfl,
    each_order.2 oneOpTrace oneOpTrace_iterates 1 (7, 0) List.mem_cons_self⟩

end Kotatsu.Async.Each
