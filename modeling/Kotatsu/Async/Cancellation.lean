import Kotatsu.Core.Linked
import Kotatsu.Core.Transition

/-!
# Callbacks of a cancellation source

A `cancellation_source` runs the callbacks registered with its tokens when it
cancels. A callback runs any code: it may register others, destroy any
registration, cancel again or destroy the source, so that calls nest. The stack
says what is under way, from the innermost call out: a callback, or the loop of
`cancel()` between two callbacks. Where neither runs, or a callback does, any
operation may come next. `history` records what has happened and is read by no
step.
-/

namespace Kotatsu.Async.Cancellation

open Kotatsu.Core

/-! ## State -/

/-- What a `cancellation_callback` holds: nothing, the node of a callback, or the object is
gone. -/
inductive Registration where
  | gone
  | empty
  | holds (callback : Nat)
deriving DecidableEq, Repr

/-- A call under way: a callback that runs inside `on_cancel` or inside `cancel`, or the loop of
`cancel`. -/
inductive Frame where
  | insideOnCancel
  | insideCancel
  | cancelLoop
deriving DecidableEq, Repr

/-- What has happened to a callback and its registration, and to the source. -/
inductive Event where
  | registered (callback : Nat)
  | ran (callback : Nat)
  | destroyed (callback : Nat)
  | cancelled
deriving DecidableEq, Repr

/-- `CancellationState` with its nodes, whose `state` is non-null where they are `attached`, the
`cancellation_callback` objects made so far, and the calls under way. -/
structure State where
  fired : Bool := false
  links : Links Nat := {}
  attached : Nat → Bool := fun _ => false
  callbacks : Nat := 0
  registrations : Nat → Registration := fun _ => .gone
  registrationsMade : Nat := 0
  sourceAlive : Bool := true
  stack : List Frame := []
  history : List Event := []

namespace State

def record (s : State) (events : List Event) : State :=
  { s with history := s.history ++ events }

def setRegistration (s : State) (i : Nat) (r : Registration) : State :=
  { s with registrations := Function.update s.registrations i r }

/-- A new `cancellation_callback`. -/
def addRegistration (s : State) (r : Registration) : State :=
  { s.setRegistration s.registrationsMade r with registrationsMade := s.registrationsMade + 1 }

/-- `CancellationState::link`, of a new node. -/
def link (s : State) (k : Nat) : State :=
  { s with links := s.links.link k, attached := Function.update s.attached k true }

/-- `CancellationState::unlink`. -/
def unlink (s : State) (k : Nat) : State :=
  { s with links := s.links.unlink k, attached := Function.update s.attached k false }

/-- `cancellation_callback::~cancellation_callback`, of an object with this node. -/
def deregister (s : State) (r : Registration) : State :=
  match r with
  | .holds k => (if s.attached k then s.unlink k else s).record [.destroyed k]
  | _ => s

/-- `cancellation_token::on_cancel`, of a token with a source. -/
def onCancel (s : State) : State :=
  let k := s.callbacks
  let s := { s with callbacks := k + 1 }
  if s.fired then { s with stack := .insideOnCancel :: s.stack }.record [.registered k, .ran k]
  else ((s.link k).addRegistration (.holds k)).record [.registered k]

/-- `cancellation_source::cancel`, up to its loop. -/
def cancel (s : State) : State :=
  if s.fired then s
  else { s with fired := true, stack := .cancelLoop :: s.stack }.record [.cancelled]

end State

/-! ## Steps -/

/-- What can come next. -/
inductive Op where
  /-- `cancellation_token::on_cancel`, of a token with or without a source. -/
  | onCancel (hasSource : Bool)
  /-- `cancellation_callback::cancellation_callback()`. -/
  | construct
  /-- `cancellation_callback::cancellation_callback(cancellation_callback&&)`. -/
  | moveConstruct (other : Nat)
  /-- `cancellation_callback::operator=`, of a moved `other`. -/
  | assign (this other : Nat)
  /-- `cancellation_callback::~cancellation_callback`. -/
  | destroy (i : Nat)
  /-- `cancellation_source::cancel`. -/
  | cancel
  /-- `cancellation_source::~cancellation_source`. -/
  | destroySource
  /-- The callback that runs returns. -/
  | ret
  /-- One turn of the loop of `cancel`. -/
  | turn
deriving DecidableEq, Repr

/-- An operation of the code that runs. -/
def call (s : State) : Op → Option State
  | .onCancel hasSource => some (if hasSource then s.onCancel else s.addRegistration .empty)
  | .construct => some (s.addRegistration .empty)
  | .moveConstruct other =>
    if s.registrations other = .gone then none
    else some ((s.setRegistration other .empty).addRegistration (s.registrations other))
  | .assign this other =>
    if s.registrations this = .gone ∨ s.registrations other = .gone then none
    else
      let moved := s.setRegistration other .empty
      let swapped := moved.setRegistration this (s.registrations other)
      some (swapped.deregister (moved.registrations this))
  | .destroy i =>
    if s.registrations i = .gone then none
    else some ((s.setRegistration i .gone).deregister (s.registrations i))
  | .cancel => if s.sourceAlive then some s.cancel else none
  | .destroySource => if s.sourceAlive then some { s with sourceAlive := false }.cancel else none
  | _ => none

/-- One step; `none` where it is not possible. -/
def step (s : State) (op : Op) : Option State :=
  match s.stack, op with
  | .cancelLoop :: rest, .turn =>
    match s.links.head with
    | none => some { s with stack := rest }
    | some k => some ({ s.unlink k with stack := .insideCancel :: s.stack }.record [.ran k])
  | .cancelLoop :: _, _ => none
  | .insideCancel :: rest, .ret => some { s with stack := rest }
  | .insideOnCancel :: rest, .ret => some ({ s with stack := rest }.addRegistration .empty)
  | _, op => call s op

/-- What a run from a new source leads to. -/
def Reachable (s : State) : Prop := Reach step {} s

/-! ## Histories -/

/-- The callbacks registered, in order. -/
def registered (h : List Event) : List Nat :=
  h.filterMap fun
    | .registered k => some k
    | _ => none

/-- The callbacks registered that have not run and whose registration is there, in order. -/
def waiting (h : List Event) : List Nat :=
  (registered h).filter fun k => Event.ran k ∉ h ∧ Event.destroyed k ∉ h

/-- One event comes before another. -/
def Precedes (e e' : Event) (h : List Event) : Prop :=
  ∃ before between after, h = before ++ e :: between ++ e' :: after

/-- The registration of a callback was destroyed before its turn. -/
def DestroyedFirst (k : Nat) (h : List Event) : Prop :=
  ∃ before after, h = before ++ .destroyed k :: after ∧ Event.ran k ∉ before

@[simp] theorem registered_append (h h' : List Event) :
    registered (h ++ h') = registered h ++ registered h' := List.filterMap_append

@[simp] theorem registered_nil : registered [] = [] := rfl

@[simp] theorem registered_cons_registered (k : Nat) (h : List Event) :
    registered (.registered k :: h) = k :: registered h := rfl

@[simp] theorem registered_cons_ran (k : Nat) (h : List Event) :
    registered (.ran k :: h) = registered h := rfl

@[simp] theorem registered_cons_destroyed (k : Nat) (h : List Event) :
    registered (.destroyed k :: h) = registered h := rfl

@[simp] theorem registered_cons_cancelled (h : List Event) :
    registered (.cancelled :: h) = registered h := rfl

variable {k : Nat} {before after : List Event} {s s' : State} {r : Registration} {op : Op}

theorem mem_registered {h : List Event} : k ∈ registered h ↔ Event.registered k ∈ h := by
  simp only [registered, List.mem_filterMap]
  constructor
  · rintro ⟨e, he, hk⟩
    cases e with
    | registered j =>
      cases hk
      exact he
    | ran | destroyed | cancelled => exact nomatch hk
  · exact fun hk => ⟨_, hk, rfl⟩

theorem mem_waiting {h : List Event} :
    k ∈ waiting h ↔ k ∈ registered h ∧ Event.ran k ∉ h ∧ Event.destroyed k ∉ h := by
  simp only [waiting, List.mem_filter, decide_eq_true_eq]

theorem waiting_sublist (h : List Event) : (waiting h).Sublist (registered h) :=
  List.filter_sublist

theorem waiting_registered {h : List Event} (hran : Event.ran k ∉ h)
    (hdestroyed : Event.destroyed k ∉ h) : waiting (h ++ [.registered k]) = waiting h ++ [k] := by
  simp [waiting, List.filter_append, hran, hdestroyed]

theorem waiting_cancelled (h : List Event) : waiting (h ++ [.cancelled]) = waiting h := by
  simp [waiting]

/-- Nothing waits for an event of its own after it ran. -/
theorem waiting_ran (k : Nat) (h : List Event) :
    waiting (h ++ [.ran k]) = (waiting h).filter (· ≠ k) := by
  simp only [waiting, registered_append, registered_cons_ran, registered_nil, List.append_nil,
    List.filter_filter]
  apply List.filter_congr
  intro j _
  by_cases hjk : j = k <;> simp [hjk]

theorem waiting_destroyed (k : Nat) (h : List Event) :
    waiting (h ++ [.destroyed k]) = (waiting h).filter (· ≠ k) := by
  simp only [waiting, registered_append, registered_cons_destroyed, registered_nil,
    List.append_nil, List.filter_filter]
  apply List.filter_congr
  intro j _
  by_cases hjk : j = k <;> simp [hjk]

/-- A callback that runs inside `on_cancel` never waits. -/
theorem waiting_atOnce (k : Nat) {h : List Event} (hk : k ∉ registered h) :
    waiting (h ++ [.registered k, .ran k]) = waiting h := by
  have hfilter : (registered h ++ [k]).filter (fun j => Event.ran j ∉
      h ++ [.registered k, .ran k] ∧ Event.destroyed j ∉ h ++ [.registered k, .ran k]) =
      (registered h).filter (fun j => Event.ran j ∉
        h ++ [.registered k, .ran k] ∧ Event.destroyed j ∉ h ++ [.registered k, .ran k]) := by
    rw [List.filter_append]
    simp
  simp only [waiting, registered_append, registered_cons_registered, registered_cons_ran,
    registered_nil, hfilter]
  apply List.filter_congr
  intro j hj
  have hjk : j ≠ k := fun heq => hk (heq ▸ hj)
  simp [hjk]

/-- What may happen after a history: a callback runs as the first that waits once the source
has cancelled, or right when it is registered after that. -/
def Allowed (h : List Event) : Event → Prop
  | .registered k => registered h = List.range k
  | .ran k => .cancelled ∈ h ∧ k ∈ registered h ∧ .ran k ∉ h ∧ .destroyed k ∉ h ∧
      ((waiting h).head? = some k ∨ ∃ before, h = before ++ [.registered k] ∧ .cancelled ∈ before)
  | .destroyed _ => True
  | .cancelled => .cancelled ∉ h

/-- A history of allowed events, in which a callback registered after the cancel runs at once. -/
structure Log (h : List Event) : Prop where
  allowed : ∀ before e after, h = before ++ e :: after → Allowed before e
  atOnce : ∀ before k after, h = before ++ .registered k :: after → .cancelled ∈ before →
    ∃ after', after = .ran k :: after'

theorem log_nil : Log [] where
  allowed before e after h := by simp at h
  atOnce before k after h := by simp at h

/-- An event that does not register a callback extends a log. -/
theorem Log.concat {h : List Event} {e : Event} (hl : Log h) (he : Allowed h e)
    (hne : ∀ k, e = .registered k → .cancelled ∉ h) : Log (h ++ [e]) where
  allowed before e' after heq := by
    obtain ⟨rfl, rfl, -⟩ | ⟨after', -, rfl⟩ := concat_eq_append_cons heq
    · exact he
    · exact hl.allowed before e' after' rfl
  atOnce before k after heq hc := by
    obtain ⟨rfl, rfl, -⟩ | ⟨after', rfl, rfl⟩ := concat_eq_append_cons heq
    · exact absurd hc (hne k rfl)
    · obtain ⟨after'', rfl⟩ := hl.atOnce before k after' rfl hc
      exact ⟨after'' ++ [e], rfl⟩

/-- A callback registered after the cancel runs before anything else happens. -/
theorem Log.atOnce_append {h : List Event} (hl : Log h) (hreg : registered h = List.range k)
    (hran : Event.ran k ∉ h) (hdestroyed : Event.destroyed k ∉ h) (hc : .cancelled ∈ h) :
    Log (h ++ [.registered k, .ran k]) where
  allowed before e after heq := by
    rw [List.append_cons] at heq
    obtain ⟨rfl, rfl, -⟩ | ⟨after', -, heq'⟩ := concat_eq_append_cons heq
    · exact ⟨by simp [hc], by simp, by simp [hran], by simp [hdestroyed], .inr ⟨h, rfl, hc⟩⟩
    · obtain ⟨rfl, rfl, -⟩ | ⟨after'', -, rfl⟩ := concat_eq_append_cons heq'
      · exact hreg
      · exact hl.allowed before e after'' rfl
  atOnce before j after heq hcb := by
    rw [List.append_cons] at heq
    obtain ⟨-, hne, -⟩ | ⟨after', rfl, heq'⟩ := concat_eq_append_cons heq
    · exact nomatch hne
    · obtain ⟨rfl, hj, rfl⟩ | ⟨after'', rfl, rfl⟩ := concat_eq_append_cons heq'
      · obtain rfl := Event.registered.inj hj
        exact ⟨[], rfl⟩
      · obtain ⟨rest, rfl⟩ := hl.atOnce before j after'' rfl hcb
        exact ⟨rest ++ [.registered k] ++ [.ran k], rfl⟩

/-- An event that happens once is in one place. -/
private theorem cut_unique {α : Type} {a a' c c' : List α} {x : α}
    (h : a ++ x :: c = a' ++ x :: c') (ha : x ∉ a) (ha' : x ∉ a') : a = a' := by
  rcases List.append_eq_append_iff.mp h with ⟨m, rfl, hm⟩ | ⟨m, rfl, hm⟩
  · cases m with
    | nil => simp
    | cons y m =>
      obtain rfl : x = y := List.head_eq_of_cons_eq hm
      exact absurd (by simp) ha'
  · cases m with
    | nil => simp
    | cons y m =>
      obtain rfl : x = y := List.head_eq_of_cons_eq hm
      exact absurd (by simp) ha

/-- Two different events of a history: the one comes first or the other. -/
private theorem cut_cases {α : Type} {a a' c c' : List α} {x y : α} (hxy : x ≠ y)
    (h : a ++ x :: c = a' ++ y :: c') : x ∈ a' ∨ y ∈ a := by
  rcases List.append_eq_append_iff.mp h with ⟨m, rfl, hm⟩ | ⟨m, rfl, hm⟩
  · cases m with
    | nil => exact absurd (List.head_eq_of_cons_eq hm) hxy
    | cons z m =>
      obtain rfl : x = z := List.head_eq_of_cons_eq hm
      exact .inl (by simp)
  · cases m with
    | nil => exact absurd (List.head_eq_of_cons_eq hm).symm hxy
    | cons z m =>
      obtain rfl : y = z := List.head_eq_of_cons_eq hm
      exact .inr (by simp)

namespace Log

variable {h : List Event} (hl : Log h)

include hl

theorem registered_notMem (heq : h = before ++ .registered k :: after) :
    Event.registered k ∉ before := by
  have hk : registered before = List.range k := hl.allowed _ _ _ heq
  rw [← mem_registered, hk]
  simp

theorem cancelled_notMem (heq : h = before ++ .cancelled :: after) : Event.cancelled ∉ before :=
  hl.allowed _ _ _ heq

/-- Registered before the cancel, a callback is known once the source has cancelled. -/
theorem early_mem {e : Event} (heq : h = before ++ e :: after) (hc : .cancelled ∈ before)
    (hk : Precedes (.registered k) .cancelled h) : k ∈ registered before := by
  obtain ⟨b₁, b₂, a, hcut⟩ := hk
  obtain ⟨c₁, c₂, rfl⟩ := List.append_of_mem hc
  have hsame := hcut.symm.trans heq
  rw [List.append_assoc c₁, List.cons_append] at hsame heq
  have := cut_unique hsame (hl.cancelled_notMem hcut) (hl.cancelled_notMem heq)
  rw [mem_registered, ← this]
  simp

/-- Registered before the cancel, a callback runs only as the first that waits. -/
theorem head_of_early (heq : h = before ++ .ran k :: after)
    (hk : Precedes (.registered k) .cancelled h) : (waiting before).head? = some k := by
  obtain ⟨-, -, -, -, hfirst | ⟨b, rfl, hc⟩⟩ := hl.allowed _ _ _ heq
  · exact hfirst
  · obtain ⟨b₁, b₂, a, hcut⟩ := hk
    rw [List.append_assoc, List.cons_append] at hcut
    rw [List.append_assoc, List.singleton_append] at heq
    have hsame : b₁ = b := cut_unique (hcut.symm.trans heq) (hl.registered_notMem hcut)
      (hl.registered_notMem heq)
    rw [← List.cons_append, ← List.append_assoc] at hcut
    exact absurd (by simp [hsame, hc]) (hl.cancelled_notMem hcut)

/-- The numbers of callbacks are in the order of their registration. -/
theorem precedes_of_lt {j k : Nat} (hjk : j < k) (hk : Event.registered k ∈ h) :
    Precedes (.registered j) (.registered k) h := by
  obtain ⟨before, after, heq⟩ := List.append_of_mem hk
  have hreg : registered before = List.range k := hl.allowed _ _ _ heq
  have hj : Event.registered j ∈ before := by
    rw [← mem_registered, hreg]
    simpa using hjk
  obtain ⟨b₁, b₂, rfl⟩ := List.append_of_mem hj
  exact ⟨b₁, b₂, after, heq⟩

/-- At any time the callbacks registered so far are numbered from zero on. -/
theorem registered_range (heq : h = before ++ after) : ∃ n, registered before = List.range n := by
  induction before using List.reverseRecOn generalizing after with
  | nil => exact ⟨0, rfl⟩
  | append_singleton before e ih =>
    rw [List.append_assoc] at heq
    cases e with
    | registered k =>
      have hk : registered before = List.range k := hl.allowed _ _ _ heq
      refine ⟨k + 1, ?_⟩
      rw [registered_append, hk, List.range_succ]
      rfl
    | ran | destroyed | cancelled =>
      obtain ⟨n, hn⟩ := ih heq
      refine ⟨n, ?_⟩
      rw [registered_append, hn]
      exact List.append_nil _

/-- Callbacks registered before the cancel run in the order in which they were registered. -/
theorem order {j k : Nat} (hj : Precedes (.registered j) .cancelled h)
    (hk : Precedes (.registered k) .cancelled h) (hran : Precedes (.ran j) (.ran k) h) :
    Precedes (.registered j) (.registered k) h := by
  obtain ⟨before, between, after, heq⟩ := hran
  obtain ⟨-, -, hlater, hlive, -⟩ := hl.allowed _ _ _ heq
  rw [List.append_assoc, List.cons_append] at heq
  obtain ⟨hc, -⟩ := hl.allowed _ _ _ heq
  simp only [List.mem_append, List.mem_cons, not_or] at hlater hlive
  have hwaits : k ∈ waiting before :=
    mem_waiting.mpr ⟨hl.early_mem heq hc hk, hlater.1, hlive.1⟩
  have hfirst := hl.head_of_early heq hj
  have hne : j ≠ k := fun hjk => hlater.2.1 (congrArg Event.ran hjk.symm)
  obtain ⟨n, hn⟩ := hl.registered_range heq
  have hsorted : (waiting before).Pairwise (· < ·) := by
    refine List.Pairwise.sublist (waiting_sublist before) ?_
    rw [hn]
    exact List.pairwise_lt_range
  obtain ⟨rest, hrest⟩ := List.head?_eq_some_iff.mp hfirst
  rw [hrest] at hwaits hsorted
  have hlt : j < k := by
    rcases List.mem_cons.mp hwaits with hkj | hmem
    · exact absurd hkj.symm hne
    · exact (List.pairwise_cons.mp hsorted).1 k hmem
  obtain ⟨b₁, b₂, a, hcut⟩ := hk
  exact hl.precedes_of_lt hlt (by rw [hcut]; simp)

/-- A callback whose registration went before its turn never runs. -/
theorem not_ran_of_destroyedFirst (hd : DestroyedFirst k h) : Event.ran k ∉ h := by
  intro hran
  obtain ⟨before, after, heq, hnot⟩ := hd
  obtain ⟨before', after', heq'⟩ := List.append_of_mem hran
  obtain ⟨-, -, -, hlive, -⟩ := hl.allowed _ _ _ heq'
  rcases cut_cases (by nofun) (heq.symm.trans heq') with hmem | hmem
  · exact hlive hmem
  · exact hnot hmem

/-- A callback runs at most once. -/
theorem ran_once (k : Nat) : h.count (.ran k) ≤ 1 := by
  by_contra hmany
  have hmem : Event.ran k ∈ h := List.count_pos_iff.mp (by omega)
  obtain ⟨before, after, heq⟩ := List.append_of_mem hmem
  obtain ⟨-, -, hnot, -⟩ := hl.allowed _ _ _ heq
  have hafter : Event.ran k ∈ after := by
    apply List.count_pos_iff.mp
    rw [heq, List.count_append, List.count_cons_self, List.count_eq_zero.mpr hnot] at hmany
    omega
  obtain ⟨between, after', rfl⟩ := List.append_of_mem hafter
  rw [← List.cons_append, ← List.append_assoc] at heq
  obtain ⟨-, -, hnot', -⟩ := hl.allowed _ _ _ heq
  exact hnot' (by simp)

end Log

/-! ## The invariant -/

/-- What holds between the steps: the list is that of the callbacks that wait, once the source
has cancelled they wait for a loop under way, and the history is a log. -/
structure Invariant (s : State) : Prop where
  spells : s.links.Spells (waiting s.history)
  attached : ∀ k, s.attached k = true ↔ k ∈ waiting s.history
  registered : registered s.history = List.range s.callbacks
  ran : ∀ k, .ran k ∈ s.history → k < s.callbacks
  destroyed : ∀ k, .destroyed k ∈ s.history → k < s.callbacks
  holds : ∀ i k, s.registrations i = .holds k → k < s.callbacks
  fired : s.fired = true ↔ .cancelled ∈ s.history
  loop : s.fired = true → waiting s.history ≠ [] → .cancelLoop ∈ s.stack
  stack : .cancelLoop ∈ s.stack → s.fired = true
  log : Log s.history

private theorem invariant_init : Invariant {} where
  spells := Links.spells_nil
  attached := by simp [waiting]
  registered := rfl
  ran := by simp
  destroyed := by simp
  holds := nofun
  fired := by simp
  loop := nofun
  stack := nofun
  log := log_nil

/-- A change of the objects alone, with nodes that there are. -/
private theorem Invariant.of_registrations (hi : Invariant s)
    (hh : ∀ i k, s'.registrations i = .holds k → k < s.callbacks) (heq : s' = { s with
      registrations := s'.registrations, registrationsMade := s'.registrationsMade }) :
    Invariant s' := by
  have hh' := hh
  rw [heq] at hh' ⊢
  exact { hi with holds := hh' }

private theorem Invariant.setRegistration (hi : Invariant s) (i : Nat)
    (hr : ∀ k, r = .holds k → k < s.callbacks) : Invariant (s.setRegistration i r) := by
  refine hi.of_registrations ?_ rfl
  intro j k hj
  simp only [State.setRegistration, Function.update_apply] at hj
  split at hj
  · exact hr k hj
  · exact hi.holds j k hj

private theorem Invariant.addRegistration (hi : Invariant s)
    (hr : ∀ k, r = .holds k → k < s.callbacks) : Invariant (s.addRegistration r) :=
  (hi.setRegistration s.registrationsMade hr).of_registrations
    (hi.setRegistration s.registrationsMade hr).holds rfl

private theorem filter_ne_of_notMem {l : List Nat} (h : k ∉ l) : l.filter (· ≠ k) = l := by
  apply List.filter_eq_self.mpr
  intro j hj
  have hjk : j ≠ k := fun heq => h (heq ▸ hj)
  simpa using hjk

/-- The list without a callback on it. -/
private theorem filter_ne_of_nodup {front back : List Nat} {k : Nat}
    (h : (front ++ k :: back).Nodup) :
    (front ++ k :: back).filter (· ≠ k) = front ++ back := by
  rw [List.nodup_append, List.nodup_cons] at h
  obtain ⟨-, ⟨hback, -⟩, hdisj⟩ := h
  have hfront : k ∉ front := fun hm => hdisj k hm k (by simp) rfl
  rw [List.filter_append, List.filter_cons_of_neg (by simp), filter_ne_of_notMem hfront,
    filter_ne_of_notMem hback]

/-- A callback leaves the list when it runs or its registration goes. -/
private theorem Invariant.spells_unlink (hi : Invariant s) (hk : k ∈ waiting s.history) :
    (s.links.unlink k).Spells ((waiting s.history).filter (· ≠ k)) := by
  obtain ⟨front, back, heq⟩ := List.append_of_mem hk
  have hspells := hi.spells
  rw [heq] at hspells ⊢
  rw [filter_ne_of_nodup hspells.nodup]
  exact hspells.unlink

private theorem Invariant.attached_unlink (hi : Invariant s) (k j : Nat) :
    Function.update s.attached k false j = true ↔ j ∈ (waiting s.history).filter (· ≠ k) := by
  rw [List.mem_filter, ← hi.attached, Function.update_apply]
  by_cases hjk : j = k
  · simp [hjk]
  · simp [hjk]

private theorem Invariant.filter_nil (hi : Invariant s) (hf : s.fired = true)
    (hne : (waiting s.history).filter (· ≠ k) ≠ []) : .cancelLoop ∈ s.stack :=
  hi.loop hf fun hnil => hne (by rw [hnil]; rfl)

/-- A registration goes: its callback leaves the list if it is on it. -/
private theorem Invariant.destroy (hi : Invariant s) (hk : k < s.callbacks) :
    Invariant (s.deregister (.holds k)) := by
  have hlog : Log (s.history ++ [.destroyed k]) := hi.log.concat trivial nofun
  have hregistered : Cancellation.registered (s.history ++ [.destroyed k]) =
      List.range s.callbacks := by
    rw [registered_append, hi.registered]
    exact List.append_nil _
  have hran : ∀ j, .ran j ∈ s.history ++ [.destroyed k] → j < s.callbacks := by
    intro j hj
    exact hi.ran j (by simpa using hj)
  have hdestroyed : ∀ j, .destroyed j ∈ s.history ++ [.destroyed k] → j < s.callbacks := by
    intro j hj
    simp only [List.mem_append, List.mem_singleton, Event.destroyed.injEq] at hj
    rcases hj with hj | rfl
    · exact hi.destroyed j hj
    · exact hk
  have hfired : s.fired = true ↔ .cancelled ∈ s.history ++ [.destroyed k] := by
    simpa using hi.fired
  have hloop : s.fired = true → waiting (s.history ++ [.destroyed k]) ≠ [] →
      .cancelLoop ∈ s.stack := by
    rw [waiting_destroyed]
    exact fun hf hne => hi.filter_nil hf hne
  cases hatt : s.attached k with
  | false =>
    have hnot : k ∉ waiting s.history := by
      rw [← hi.attached, hatt]
      nofun
    have hsame : waiting (s.history ++ [.destroyed k]) = waiting s.history := by
      rw [waiting_destroyed, filter_ne_of_notMem hnot]
    have heq : s.deregister (.holds k) = s.record [.destroyed k] := by
      simp [State.deregister, hatt]
    rw [heq]
    refine ⟨?_, ?_, hregistered, hran, hdestroyed, hi.holds, hfired, hloop, hi.stack, hlog⟩
    · exact hsame ▸ hi.spells
    · exact hsame ▸ hi.attached
  | true =>
    have hmem : k ∈ waiting s.history := (hi.attached k).mp hatt
    have heq : s.deregister (.holds k) = (s.unlink k).record [.destroyed k] := by
      simp [State.deregister, hatt]
    rw [heq]
    refine ⟨?_, ?_, hregistered, hran, hdestroyed, hi.holds, hfired, hloop, hi.stack, hlog⟩
    · exact (waiting_destroyed k s.history).symm ▸ hi.spells_unlink hmem
    · exact (waiting_destroyed k s.history).symm ▸ hi.attached_unlink k

private theorem Invariant.deregister (hi : Invariant s) (hr : ∀ k, r = .holds k → k < s.callbacks) :
    Invariant (s.deregister r) := by
  cases r with
  | gone | empty => exact hi
  | holds k => exact hi.destroy (hr k rfl)

/-- A callback that has no number yet. -/
private theorem Invariant.new (hi : Invariant s) :
    .ran s.callbacks ∉ s.history ∧ .destroyed s.callbacks ∉ s.history :=
  ⟨fun h => Nat.lt_irrefl _ (hi.ran _ h), fun h => Nat.lt_irrefl _ (hi.destroyed _ h)⟩

/-- Before the cancel, a callback goes to the end of the list. -/
private theorem Invariant.register (hi : Invariant s) (hf : s.fired = false) :
    Invariant ((({ s with callbacks := s.callbacks + 1 }.link s.callbacks).addRegistration
      (.holds s.callbacks)).record [.registered s.callbacks]) := by
  obtain ⟨hran, hdestroyed⟩ := hi.new
  have hnc : .cancelled ∉ s.history := by
    rw [← hi.fired, hf]
    nofun
  have hnew : s.callbacks ∉ waiting s.history := by
    rw [mem_waiting, hi.registered]
    simp
  have hwaiting := waiting_registered hran hdestroyed
  refine ⟨?_, ?_, ?_, ?_, ?_, ?_, ?_, ?_, ?_, ?_⟩
  · exact hwaiting.symm ▸ hi.spells.link hnew
  · intro j
    change Function.update s.attached s.callbacks true j = true ↔
      j ∈ waiting (s.history ++ [.registered s.callbacks])
    rw [hwaiting, List.mem_append, ← hi.attached, Function.update_apply]
    by_cases hj : j = s.callbacks
    · simp [hj]
    · simp [hj]
  · change Cancellation.registered (s.history ++ [.registered s.callbacks]) =
      List.range (s.callbacks + 1)
    rw [registered_append, hi.registered, List.range_succ]
    rfl
  · intro j hj
    change .ran j ∈ s.history ++ [.registered s.callbacks] at hj
    have hj' : .ran j ∈ s.history := by simpa using hj
    exact Nat.lt_succ_of_lt (hi.ran j hj')
  · intro j hj
    change .destroyed j ∈ s.history ++ [.registered s.callbacks] at hj
    have hj' : .destroyed j ∈ s.history := by simpa using hj
    exact Nat.lt_succ_of_lt (hi.destroyed j hj')
  · intro i k hk
    change Function.update s.registrations s.registrationsMade (.holds s.callbacks) i = _ at hk
    rw [Function.update_apply] at hk
    split at hk
    · obtain rfl := Registration.holds.inj hk
      exact Nat.lt_succ_self _
    · exact Nat.lt_succ_of_lt (hi.holds i k hk)
  · change s.fired = true ↔ .cancelled ∈ s.history ++ [.registered s.callbacks]
    simpa using hi.fired
  · intro hfired
    exact nomatch hf.symm.trans hfired
  · exact hi.stack
  · exact hi.log.concat hi.registered fun _ _ => hnc

/-- After the cancel, a callback runs inside `on_cancel`. -/
private theorem Invariant.registerAtOnce (hi : Invariant s) (hf : s.fired = true) :
    Invariant ({ s with
      callbacks := s.callbacks + 1
      stack := .insideOnCancel :: s.stack }.record
        [.registered s.callbacks, .ran s.callbacks]) := by
  obtain ⟨hran, hdestroyed⟩ := hi.new
  have hc : .cancelled ∈ s.history := hi.fired.mp hf
  have hnew : s.callbacks ∉ Cancellation.registered s.history := by
    rw [hi.registered]
    simp
  have hwaiting := waiting_atOnce s.callbacks hnew
  refine ⟨?_, ?_, ?_, ?_, ?_, ?_, ?_, ?_, ?_, ?_⟩
  · exact hwaiting.symm ▸ hi.spells
  · exact hwaiting.symm ▸ hi.attached
  · change Cancellation.registered (s.history ++ [.registered s.callbacks, .ran s.callbacks]) =
      List.range (s.callbacks + 1)
    rw [registered_append, hi.registered, List.range_succ]
    rfl
  · intro j hj
    have hj' : .ran j ∈ s.history ∨ j = s.callbacks := by simpa [State.record] using hj
    rcases hj' with hj' | rfl
    · exact Nat.lt_succ_of_lt (hi.ran j hj')
    · exact Nat.lt_succ_self _
  · intro j hj
    have hj' : .destroyed j ∈ s.history := by simpa [State.record] using hj
    exact Nat.lt_succ_of_lt (hi.destroyed j hj')
  · exact fun i k hk => Nat.lt_succ_of_lt (hi.holds i k hk)
  · exact ⟨fun _ => List.mem_append_left _ hc, fun _ => hf⟩
  · intro _ hne
    exact List.mem_cons_of_mem _ (hi.loop hf (hwaiting ▸ hne))
  · exact fun _ => hf
  · exact hi.log.atOnce_append hi.registered hran hdestroyed hc

private theorem Invariant.onCancel (hi : Invariant s) : Invariant s.onCancel := by
  cases hf : s.fired with
  | false => simpa only [State.onCancel, hf, Bool.false_eq_true, if_false] using hi.register hf
  | true => simpa only [State.onCancel, hf, if_true] using hi.registerAtOnce hf

private theorem Invariant.cancel (hi : Invariant s) : Invariant s.cancel := by
  cases hf : s.fired with
  | true => simpa only [State.cancel, hf, if_true] using hi
  | false =>
    have hnc : .cancelled ∉ s.history := by
      rw [← hi.fired, hf]
      nofun
    have hwaiting := waiting_cancelled s.history
    have hset : Invariant ({ s with fired := true, stack := .cancelLoop :: s.stack }.record
        [.cancelled]) := by
      refine ⟨?_, ?_, ?_, ?_, ?_, hi.holds, ?_, ?_, ?_, ?_⟩
      · exact hwaiting.symm ▸ hi.spells
      · exact hwaiting.symm ▸ hi.attached
      · refine Eq.trans ?_ hi.registered
        exact (registered_append _ _).trans (List.append_nil _)
      · exact fun j hj => hi.ran j (by simpa [State.record] using hj)
      · exact fun j hj => hi.destroyed j (by simpa [State.record] using hj)
      · exact ⟨fun _ => List.mem_append_right _ (by simp), fun _ => rfl⟩
      · exact fun _ _ => List.mem_cons_self
      · exact fun _ => rfl
      · exact hi.log.concat hnc nofun
    simpa only [State.cancel, hf, Bool.false_eq_true, if_false] using hset

/-! ## What a step does -/

/-- The step of the innermost call: a turn of the loop of `cancel`, the end of a callback, or an
operation of the code that runs. -/
theorem step_cases (h : step s op = some s') :
    (∃ rest, s.stack = .cancelLoop :: rest ∧ op = .turn ∧
      ((s.links.head = none ∧ s' = { s with stack := rest }) ∨
        ∃ k, s.links.head = some k ∧
          s' = { s.unlink k with stack := .insideCancel :: s.stack }.record [.ran k])) ∨
    (∃ rest, s.stack = .insideCancel :: rest ∧ op = .ret ∧ s' = { s with stack := rest }) ∨
    (∃ rest, s.stack = .insideOnCancel :: rest ∧ op = .ret ∧
      s' = { s with stack := rest }.addRegistration .empty) ∨
    (s.stack.head? ≠ some .cancelLoop ∧ call s op = some s') := by
  unfold step at h
  split at h
  · rename_i rest hstack
    refine .inl ⟨rest, hstack, rfl, ?_⟩
    split at h
    · rename_i hhead
      exact .inl ⟨hhead, (Option.some.inj h).symm⟩
    · rename_i k hhead
      exact .inr ⟨k, hhead, (Option.some.inj h).symm⟩
  · cases h
  · rename_i rest hstack
    exact .inr (.inl ⟨rest, hstack, rfl, (Option.some.inj h).symm⟩)
  · rename_i rest hstack
    exact .inr (.inr (.inl ⟨rest, hstack, rfl, (Option.some.inj h).symm⟩))
  · rename_i hloop _ _ _
    refine .inr (.inr (.inr ⟨?_, h⟩))
    intro hhead
    obtain ⟨rest, hrest⟩ := List.head?_eq_some_iff.mp hhead
    exact hloop rest hrest

private theorem Invariant.call (hi : Invariant s) (h : Cancellation.call s op = some s') :
    Invariant s' := by
  cases op with
  | onCancel hasSource =>
    cases h
    cases hasSource with
    | true => exact hi.onCancel
    | false => exact hi.addRegistration nofun
  | construct =>
    cases h
    exact hi.addRegistration nofun
  | moveConstruct other =>
    obtain ⟨-, heq⟩ := Option.ite_none_left_eq_some.mp h
    cases heq
    have hmoved : Invariant (s.setRegistration other .empty) := hi.setRegistration other nofun
    exact hmoved.addRegistration (hi.holds other)
  | assign this other =>
    obtain ⟨-, heq⟩ := Option.ite_none_left_eq_some.mp h
    cases heq
    have hmoved : Invariant (s.setRegistration other .empty) := hi.setRegistration other nofun
    exact (hmoved.setRegistration this (hi.holds other)).deregister (hmoved.holds this)
  | destroy i =>
    obtain ⟨-, heq⟩ := Option.ite_none_left_eq_some.mp h
    cases heq
    have hgone : Invariant (s.setRegistration i .gone) := hi.setRegistration i nofun
    exact hgone.deregister (hi.holds i)
  | cancel =>
    obtain ⟨-, heq⟩ := Option.ite_none_right_eq_some.mp h
    cases heq
    exact hi.cancel
  | destroySource =>
    obtain ⟨-, heq⟩ := Option.ite_none_right_eq_some.mp h
    cases heq
    have hgone : Invariant { s with sourceAlive := false } := { hi with }
    exact hgone.cancel
  | ret | turn => exact nomatch h

/-- The loop runs the first callback on the list. -/
private theorem Invariant.turn (hi : Invariant s) (hloop : .cancelLoop ∈ s.stack)
    (hf : s.fired = true) (hk : s.links.head = some k) :
    Invariant ({ s.unlink k with stack := .insideCancel :: s.stack }.record [.ran k]) := by
  have hfirst : (waiting s.history).head? = some k := hi.spells.head.symm.trans hk
  have hmem : k ∈ waiting s.history := List.mem_of_head? hfirst
  obtain ⟨hreg, hran, hlive⟩ := mem_waiting.mp hmem
  have hlt : k < s.callbacks := by
    rw [hi.registered] at hreg
    exact List.mem_range.mp hreg
  have hc : .cancelled ∈ s.history := hi.fired.mp hf
  refine ⟨?_, ?_, ?_, ?_, ?_, hi.holds, ?_, ?_, ?_, ?_⟩
  · exact (waiting_ran k s.history).symm ▸ hi.spells_unlink hmem
  · exact (waiting_ran k s.history).symm ▸ hi.attached_unlink k
  · refine Eq.trans ?_ hi.registered
    exact (registered_append _ _).trans (List.append_nil _)
  · intro j hj
    change .ran j ∈ s.history ++ [.ran k] at hj
    simp only [List.mem_append, List.mem_singleton, Event.ran.injEq] at hj
    rcases hj with hj | rfl
    · exact hi.ran j hj
    · exact hlt
  · intro j hj
    change .destroyed j ∈ s.history ++ [.ran k] at hj
    exact hi.destroyed j (by simpa using hj)
  · exact ⟨fun _ => List.mem_append_left _ hc, fun _ => hf⟩
  · exact fun _ _ => List.mem_cons_of_mem _ hloop
  · exact fun _ => hf
  · exact hi.log.concat ⟨hc, hreg, hran, hlive, .inl hfirst⟩ nofun

/-- A call ends, and no loop with callbacks left does. -/
private theorem Invariant.pop (hi : Invariant s) {f : Frame} {rest : List Frame}
    (hstack : s.stack = f :: rest) (hf : f = .cancelLoop → waiting s.history = []) :
    Invariant { s with stack := rest } := by
  have hloop := hi.loop
  have hrest := hi.stack
  rw [hstack] at hloop hrest
  refine { hi with
    loop := fun hfired hne => ?_
    stack := fun hmem => hrest (List.mem_cons_of_mem _ hmem) }
  rcases List.mem_cons.mp (hloop hfired hne) with rfl | hmem
  · exact absurd (hf rfl) hne
  · exact hmem

private theorem Invariant.step (hi : Invariant s) (h : Cancellation.step s op = some s') :
    Invariant s' := by
  rcases step_cases h with ⟨rest, hstack, -, ⟨hhead, rfl⟩ | ⟨k, hhead, rfl⟩⟩ |
    ⟨rest, hstack, -, rfl⟩ | ⟨rest, hstack, -, rfl⟩ | ⟨-, hcall⟩
  · refine hi.pop hstack fun _ => ?_
    exact List.head?_eq_none_iff.mp (hi.spells.head.symm.trans hhead)
  · have hloop : .cancelLoop ∈ s.stack := hstack ▸ List.mem_cons_self
    exact hi.turn hloop (hi.stack hloop) hhead
  · exact hi.pop hstack nofun
  · exact (hi.pop hstack nofun).addRegistration nofun
  · exact hi.call hcall

theorem Reachable.invariant (h : Reachable s) : Invariant s :=
  Reach.invariant Invariant.step invariant_init h

/-! ## Results -/

/-- Where no `cancel()` is under way, the callbacks that have run are those of a source that has
cancelled whose registration did not go before their turn. -/
theorem Invariant.ran_iff (hi : Invariant s) (hidle : .cancelLoop ∉ s.stack) (k : Nat) :
    .ran k ∈ s.history ↔ .registered k ∈ s.history ∧ .cancelled ∈ s.history ∧
      ¬DestroyedFirst k s.history := by
  constructor
  · intro hran
    obtain ⟨before, after, heq⟩ := List.append_of_mem hran
    obtain ⟨hc, hreg, -⟩ := hi.log.allowed _ _ _ heq
    refine ⟨?_, ?_, fun hd => hi.log.not_ran_of_destroyedFirst hd hran⟩
    · rw [heq]
      exact List.mem_append_left _ (mem_registered.mp hreg)
    · rw [heq]
      exact List.mem_append_left _ hc
  · rintro ⟨hreg, hc, hnot⟩
    have hempty : waiting s.history = [] :=
      by_contra fun hne => hidle (hi.loop (hi.fired.mpr hc) hne)
    by_contra hran
    have hlive : .destroyed k ∉ s.history := by
      intro hd
      obtain ⟨before, after, heq⟩ := List.append_of_mem hd
      refine hnot ⟨before, after, heq, fun hmem => hran ?_⟩
      rw [heq]
      exact List.mem_append_left _ hmem
    have hwaits : k ∈ waiting s.history := mem_waiting.mpr ⟨mem_registered.mpr hreg, hran, hlive⟩
    rw [hempty] at hwaits
    exact nomatch hwaits

private theorem deregister_waiting (s : State) (r : Registration) :
    (waiting (s.deregister r).history).Sublist (waiting s.history) := by
  cases r with
  | gone | empty => exact List.Sublist.refl _
  | holds k =>
    have heq : (s.deregister (.holds k)).history = s.history ++ [.destroyed k] := by
      simp only [State.deregister]
      split <;> rfl
    rw [heq, waiting_destroyed]
    exact List.filter_sublist

/-- Once the source has cancelled, nothing joins its list. -/
theorem Invariant.waiting_step (hi : Invariant s) (hf : s.fired = true)
    (h : Cancellation.step s op = some s') : (waiting s'.history).Sublist (waiting s.history) := by
  rcases step_cases h with ⟨rest, hstack, -, ⟨hhead, rfl⟩ | ⟨k, hhead, rfl⟩⟩ |
    ⟨rest, hstack, -, rfl⟩ | ⟨rest, hstack, -, rfl⟩ | ⟨-, hcall⟩
  · exact List.Sublist.refl _
  · change (waiting (s.history ++ [.ran k])).Sublist _
    rw [waiting_ran]
    exact List.filter_sublist
  · exact List.Sublist.refl _
  · exact List.Sublist.refl _
  · cases op with
    | onCancel hasSource =>
      cases hcall
      cases hasSource with
      | false => exact List.Sublist.refl _
      | true =>
        have heq : s.onCancel.history =
            s.history ++ [.registered s.callbacks, .ran s.callbacks] := by
          simp only [State.onCancel, hf, if_true]
          rfl
        have hnew : s.callbacks ∉ Cancellation.registered s.history := by
          rw [hi.registered]
          simp
        simp only [if_true, heq, waiting_atOnce _ hnew, List.Sublist.refl]
    | construct =>
      cases hcall
      exact List.Sublist.refl _
    | moveConstruct other =>
      obtain ⟨-, heq⟩ := Option.ite_none_left_eq_some.mp hcall
      cases heq
      exact List.Sublist.refl _
    | assign this other =>
      obtain ⟨-, heq⟩ := Option.ite_none_left_eq_some.mp hcall
      cases heq
      exact deregister_waiting _ _
    | destroy i =>
      obtain ⟨-, heq⟩ := Option.ite_none_left_eq_some.mp hcall
      cases heq
      exact deregister_waiting _ _
    | cancel =>
      obtain ⟨-, heq⟩ := Option.ite_none_right_eq_some.mp hcall
      cases heq
      simp only [State.cancel, hf, if_true, List.Sublist.refl]
    | destroySource =>
      obtain ⟨-, heq⟩ := Option.ite_none_right_eq_some.mp hcall
      cases heq
      simp only [State.cancel, hf, if_true, List.Sublist.refl]
    | ret | turn => exact nomatch hcall

/-- The loop of `cancel()` goes on to the first callback that waits, and ends when none does. -/
theorem Invariant.turn_possible (hi : Invariant s) {rest : List Frame}
    (hstack : s.stack = .cancelLoop :: rest) :
    ∃ s', Cancellation.step s .turn = some s' ∧
      ((waiting s.history = [] ∧ s'.stack = rest) ∨
        ∃ k later, waiting s.history = k :: later ∧ waiting s'.history = later ∧
          s'.history = s.history ++ [.ran k]) := by
  cases hw : waiting s.history with
  | nil =>
    have hhead : s.links.head = none := hi.spells.head.trans (by rw [hw]; rfl)
    exact ⟨{ s with stack := rest }, by simp only [Cancellation.step, hstack, hhead],
      .inl ⟨rfl, rfl⟩⟩
  | cons k later =>
    have hhead : s.links.head = some k := hi.spells.head.trans (by rw [hw]; rfl)
    refine ⟨{ s.unlink k with stack := .insideCancel :: s.stack }.record [.ran k],
      by simp only [Cancellation.step, hstack, hhead], .inr ⟨k, later, rfl, ?_, rfl⟩⟩
    have hnodup := hi.spells.nodup
    change waiting (s.history ++ [.ran k]) = later
    rw [hw] at hnodup
    rw [waiting_ran, hw]
    exact @filter_ne_of_nodup [] later k hnodup

/-- Each callback runs at most once, never before it is registered and the source cancels, and
never once its registration went before its turn. One registered after the cancel runs at once,
inside `on_cancel`; those registered before it run in the order of their registration. Where no
`cancel()` is under way, a callback has run exactly if the source has cancelled and its
registration did not go first; a `cancel()` under way goes on to the first callback that waits
until none does, and none joins them. The list is that of the callbacks that wait. -/
theorem Reachable.callbacks {s : State} (h : Reachable s) :
    (∀ k, s.history.count (.ran k) ≤ 1) ∧
    (.cancelLoop ∉ s.stack → ∀ k, .ran k ∈ s.history ↔
      .registered k ∈ s.history ∧ .cancelled ∈ s.history ∧ ¬DestroyedFirst k s.history) ∧
    (∀ k, .ran k ∈ s.history → Precedes (.registered k) (.ran k) s.history ∧
      Precedes .cancelled (.ran k) s.history) ∧
    (∀ k, Precedes .cancelled (.registered k) s.history →
      ∃ before after, s.history = before ++ .registered k :: .ran k :: after) ∧
    (∀ k, DestroyedFirst k s.history → .ran k ∉ s.history) ∧
    (∀ j k, Precedes (.registered j) .cancelled s.history →
      Precedes (.registered k) .cancelled s.history → Precedes (.ran j) (.ran k) s.history →
      Precedes (.registered j) (.registered k) s.history) ∧
    (∀ rest, s.stack = .cancelLoop :: rest → ∃ s', step s .turn = some s' ∧
      ((waiting s.history = [] ∧ s'.stack = rest) ∨
        ∃ k later, waiting s.history = k :: later ∧ waiting s'.history = later ∧
          s'.history = s.history ++ [.ran k])) ∧
    (.cancelled ∈ s.history → ∀ op s', step s op = some s' →
      (waiting s'.history).Sublist (waiting s.history)) ∧
    s.links.Spells (waiting s.history) := by
  have hi := h.invariant
  refine ⟨hi.log.ran_once, hi.ran_iff, ?_, ?_, fun k => hi.log.not_ran_of_destroyedFirst,
    fun j k => hi.log.order, fun rest => hi.turn_possible,
    fun hc op s' => hi.waiting_step (hi.fired.mpr hc), hi.spells⟩
  · intro k hran
    obtain ⟨before, after, heq⟩ := List.append_of_mem hran
    obtain ⟨hc, hreg, -⟩ := hi.log.allowed _ _ _ heq
    obtain ⟨b₁, b₂, hcut⟩ := List.append_of_mem (mem_registered.mp hreg)
    obtain ⟨c₁, c₂, hcut'⟩ := List.append_of_mem hc
    exact ⟨⟨b₁, b₂, after, hcut ▸ heq⟩, ⟨c₁, c₂, after, hcut' ▸ heq⟩⟩
  · rintro k ⟨before, between, after, heq⟩
    obtain ⟨after', rfl⟩ := hi.log.atOnce _ k after heq (by simp)
    exact ⟨_, after', heq⟩

/-- The first of three callbacks destroys the registration of the third and registers a fourth
one, which runs at once. -/
private def destroysThird : List Op :=
  [.onCancel true, .onCancel true, .onCancel true, .cancel, .turn, .destroy 2, .onCancel true,
    .ret, .ret, .turn, .ret, .turn]

theorem Reachable.callbacks_destroysThird :
    let s := (run step {} destroysThird).get rfl
    .ran 1 ∈ s.history ∧ .ran 2 ∉ s.history ∧ s.links.Spells [] := by
  have hr : Reachable ((run step {} destroysThird).get rfl) := Reach.of_isSome destroysThird rfl
  have hc := hr.callbacks
  refine ⟨(hc.2.1 (by decide) 1).mpr ⟨by decide, by decide, ?_⟩, ?_, hc.2.2.2.2.2.2.2.2⟩
  · rintro ⟨before, after, heq, -⟩
    have hmem : Event.destroyed 1 ∈ ((run step {} destroysThird).get rfl).history := by
      rw [heq]
      simp
    exact absurd hmem (by decide)
  · exact hc.2.2.2.2.1 2 ⟨[.registered 0, .registered 1, .registered 2, .cancelled, .ran 0],
      [.registered 3, .ran 3, .ran 1], by decide, by decide⟩

end Kotatsu.Async.Cancellation
