import Kotatsu.Core.Fairness

/-!
# Relays into an event loop

A relay lets any thread hand a callback to the loop's thread. What the threads
share is the queue, the number of relays, the reference the async handle has on
the loop and the wakeup that libuv remembers. A step is one section under the
mutex, one access of the count, or one call of libuv. `uv_run` returns only when
nothing is referenced and calls `on_relay` for a wakeup; these are the guards of
its steps. The last two fields of `State` record the callbacks in the order in
which sends took the mutex and in the order in which they ran.
-/

namespace Kotatsu.Async.Relay

open Kotatsu.Core

variable {α : Type}

/-- What a `relay` object holds: its `self`, null or not, until it is destroyed. -/
inductive Handle where
  | inert
  | held
  | gone
deriving DecidableEq, Repr

/-- Where the loop's thread is in `on_relay`: libuv has called it, and it goes on to take its
batch; it runs what is left of the batch, up to its final check. -/
inductive Phase (α : Type) where
  | idle
  | called
  | draining (rest : List α)
deriving DecidableEq, Repr

/-- The callbacks taken from the queue and not run yet. -/
def Phase.rest : Phase α → List α
  | .draining rest => rest
  | _ => []

/-- `relay::Self`, the relays made so far, and what libuv and the loop's thread remember:
`creating` is the result of `fetch_add` within `create_relay`. -/
structure State (α : Type) where
  referenced : Bool := false
  wakeup : Bool := false
  queue : List α := []
  count : Int := 0
  phase : Phase α := .idle
  creating : Option Int := none
  running : Bool := false
  otherHandles : Bool := false
  made : Nat := 0
  relays : Nat → Handle := fun _ => .gone
  sent : List α := []
  ran : List α := []

namespace State

/-- `relay::Self::release`. -/
def release (s : State α) : State α := { s with count := s.count - 1, wakeup := true }

def setRelay (s : State α) (i : Nat) (h : Handle) : State α :=
  { s with relays := Function.update s.relays i h }

/-- A new `relay` object. -/
def addRelay (s : State α) (h : Handle) : State α :=
  { s.setRelay s.made h with made := s.made + 1 }

/-- A relay is alive: it holds the loop. -/
def Alive (s : State α) : Prop := ∃ i, s.relays i = .held

/-- A wakeup is pending: sent, and not answered yet by an `on_relay` that takes the queue. -/
def WakeupPending (s : State α) : Prop := s.wakeup = true ∨ s.phase = .called

/-- `on_relay` is between taking its batch and its final check. -/
def Draining (s : State α) : Prop := ∃ rest, s.phase = .draining rest

end State

/-- What the threads can do next. -/
inductive Op (α : Type) where
  /-- `relay::relay()`. -/
  | construct
  /-- `count.fetch_add` of `event_loop::create_relay`, on the loop's thread. -/
  | createRelay
  /-- The rest of `event_loop::create_relay`. -/
  | createRelayReturn
  /-- `relay::relay(relay&&)`. -/
  | moveConstruct (other : Nat)
  /-- `relay::operator=(relay&&)`. -/
  | moveAssign (this other : Nat)
  /-- `relay::~relay`. -/
  | destroy (i : Nat)
  /-- `relay::send`. -/
  | send (i : Nat) (callback : α)
  /-- `uv_run` begins. -/
  | runLoop
  /-- `uv_run` returns for lack of work. -/
  | runReturn
  /-- Some other handle is referenced from now on, or none is. -/
  | setOtherHandles (referenced : Bool)
  /-- libuv calls `on_relay` for the wakeup. -/
  | call
  /-- `on_relay` takes its batch. -/
  | take
  /-- `on_relay` runs the next callback of its batch. -/
  | runNext
  /-- The final check of `on_relay`. -/
  | finish

/-- One step; `none` where it is not possible. -/
def step (s : State α) : Op α → Option (State α)
  | .construct => some (s.addRelay .inert)
  | .createRelay =>
    match s.phase with
    | .called => none
    | _ =>
      if s.creating = none then some { s with creating := some s.count, count := s.count + 1 }
      else none
  | .createRelayReturn =>
    match s.creating with
    | none => none
    | some before =>
      some ({ s with
        creating := none
        referenced := if before = 0 then true else s.referenced }.addRelay .held)
  | .moveConstruct other =>
    match s.relays other with
    | .gone => none
    | h => some ((s.setRelay other .inert).addRelay h)
  | .moveAssign this other =>
    if s.relays this = .gone ∨ s.relays other = .gone then none
    else if this = other then some s
    else
      let s' := (s.setRelay this (s.relays other)).setRelay other .inert
      some (if s.relays this = .held then s'.release else s')
  | .destroy i =>
    match s.relays i with
    | .gone => none
    | .inert => some (s.setRelay i .gone)
    | .held => some (s.setRelay i .gone).release
  | .send i callback =>
    match s.relays i with
    | .gone => none
    | .inert => some s
    | .held =>
      some { s with
        queue := s.queue ++ [callback], wakeup := true, sent := s.sent ++ [callback] }
  | .runLoop => if s.running ∨ s.creating ≠ none then none else some { s with running := true }
  | .runReturn =>
    match s.phase with
    | .idle =>
      if s.running ∧ s.creating = none ∧ s.referenced = false ∧ s.otherHandles = false then
        some { s with running := false }
      else none
    | _ => none
  | .setOtherHandles b => some { s with otherHandles := b }
  | .call =>
    match s.phase with
    | .idle =>
      if s.running ∧ s.creating = none ∧ s.wakeup then
        some { s with wakeup := false, phase := .called }
      else none
    | _ => none
  | .take =>
    match s.phase with
    | .called => some { s with phase := .draining s.queue, queue := [] }
    | _ => none
  | .runNext =>
    match s.phase with
    | .draining (cb :: rest) =>
      if s.creating = none then some { s with phase := .draining rest, ran := s.ran ++ [cb] }
      else none
    | _ => none
  | .finish =>
    match s.phase with
    | .draining [] =>
      if s.creating = none then
        some { s with
          phase := .idle
          referenced := if s.count = 0 ∧ s.queue.isEmpty then false else s.referenced }
      else none
    | _ => none

/-- What a run from a new loop leads to. -/
def Reachable (s : State α) : Prop := Reach step {} s

/-! ## Relays counted -/

/-- A relay's share in the number of those that hold the loop. -/
def share (h : Handle) : Int := if h = .held then 1 else 0

/-- The number of relays that hold the loop. -/
def State.held (s : State α) : Int := tally share s.relays s.made

private theorem share_nonneg (h : Handle) : 0 ≤ share h := by
  unfold share
  split <;> omega

@[simp] private theorem share_inert : share .inert = 0 := rfl

@[simp] private theorem share_gone : share .gone = 0 := rfl

@[simp] private theorem share_held : share .held = 1 := rfl

private theorem State.held_nonneg (s : State α) : 0 ≤ s.held :=
  tally_nonneg s.relays s.made share_nonneg

variable {i other k : Nat} {s s' : State α} {op : Op α}

private theorem State.held_setRelay (s : State α) (hi : i < s.made) (h : Handle) :
    (s.setRelay i h).held = s.held - share (s.relays i) + share h :=
  tally_update share s.relays hi h

private theorem State.held_addRelay (s : State α) (h : Handle) :
    (s.addRelay h).held = s.held + share h := by
  have hnew := tally_succ share (Function.update s.relays s.made h) s.made
  rw [tally_update_of_le share s.relays (le_refl _) h, Function.update_self] at hnew
  exact hnew

/-- The relays beyond those made are not there. -/
def State.Fresh (s : State α) : Prop := ∀ i, s.made ≤ i → s.relays i = .gone

private theorem State.Fresh.lt_made (hf : s.Fresh) (hi : s.relays i ≠ .gone) : i < s.made :=
  Nat.lt_of_not_le fun hle => hi (hf i hle)

private theorem State.Fresh.setRelay (hf : s.Fresh) (hi : i < s.made) (h : Handle) :
    (s.setRelay i h).Fresh := by
  intro j hj
  change s.made ≤ j at hj
  have hne : j ≠ i := by omega
  exact (Function.update_of_ne hne h s.relays).trans (hf j hj)

private theorem State.Fresh.addRelay (hf : s.Fresh) (h : Handle) : (s.addRelay h).Fresh := by
  intro j hj
  change s.made + 1 ≤ j at hj
  have hne : j ≠ s.made := by omega
  exact (Function.update_of_ne hne h s.relays).trans (hf j (by omega))

private theorem State.Alive.held_pos (hf : s.Fresh) (ha : s.Alive) : 0 < s.held := by
  obtain ⟨i, hi⟩ := ha
  have hlt : i < s.made := hf.lt_made (by simp [hi])
  have hsub := s.held_setRelay hlt .inert
  have hnonneg := (s.setRelay i .inert).held_nonneg
  rw [hi, share_held, share_inert] at hsub
  omega

/-! ## The invariant -/

/-- What holds between the steps: the count is that of the relays and of the one being
created, and the reference, the wakeup and the histories follow the queue. -/
structure Invariant (s : State α) : Prop where
  fresh : s.Fresh
  count : s.count = s.held + if s.creating.isSome then 1 else 0
  creating : ∀ before, s.creating = some before → before ≠ 0 → s.referenced = true
  held : 0 < s.held → s.referenced = true
  queue : s.queue ≠ [] → s.referenced = true
  rest : s.phase.rest ≠ [] → s.referenced = true
  wakeup : s.queue ≠ [] → s.WakeupPending
  sent : s.sent = s.ran ++ s.phase.rest ++ s.queue

private theorem invariant_init : Invariant ({} : State α) where
  fresh _ _ := rfl
  count := rfl
  creating := nofun
  held := nofun
  queue := fun h => absurd rfl h
  rest := fun h => absurd rfl h
  wakeup := fun h => absurd rfl h
  sent := rfl

/-- What is sent while the batch is drained wakes the loop again. -/
private theorem Invariant.wakeup_of_draining (hi : Invariant s) {rest : List α}
    (hp : s.phase = .draining rest) (hq : s.queue ≠ []) : s.wakeup = true := by
  rcases hi.wakeup hq with hw | hcalled
  · exact hw
  · exact nomatch hp.symm.trans hcalled

/-- A change of the relays alone, after which no more of them hold the loop. -/
private theorem Invariant.of_relays (hi : Invariant s) (hf : s'.Fresh) (hh : s'.held = s.held)
    (heq : s' = { s with relays := s'.relays, made := s'.made }) : Invariant s' := by
  have hheld := hi.held
  have hcount := hi.count
  rw [← hh] at hheld hcount
  rw [heq] at hf hheld hcount ⊢
  exact ⟨hf, hcount, hi.creating, hheld, hi.queue, hi.rest, hi.wakeup, hi.sent⟩

/-- A relay that held the loop lets go of it. -/
private theorem Invariant.of_release (hi : Invariant s) (hf : s'.Fresh) (hh : s'.held = s.held - 1)
    (heq : s' = { s with relays := s'.relays, made := s'.made }) : Invariant s'.release := by
  have hheld : 0 < s'.held → s.referenced = true := fun hpos => hi.held (by omega)
  have hcount : s'.count - 1 = s'.held + if s.creating.isSome then 1 else 0 := by
    rw [hh, heq, hi.count]
    omega
  rw [heq] at hf hheld hcount ⊢
  exact ⟨hf, hcount, hi.creating, hheld, hi.queue, hi.rest, fun _ => .inl rfl, hi.sent⟩

/-- `create_relay` counts the relay first: where others were there, the handle is referenced. -/
private theorem Invariant.createRelay (hi : Invariant s) (hc : s.creating = none) :
    Invariant { s with creating := some s.count, count := s.count + 1 } := by
  have hcount := hi.count
  rw [hc] at hcount
  refine { hi with count := ?_, creating := ?_ }
  · change s.count + 1 = s.held + 1
    rw [hcount]
    simp
  · rintro before heq hne
    cases heq
    have hnonneg := s.held_nonneg
    apply hi.held
    simp only [Option.isSome_none, Bool.false_eq_true, if_false] at hcount
    omega

private theorem Invariant.createRelayReturn (hi : Invariant s) {before : Int}
    (hc : s.creating = some before) :
    Invariant ({ s with
      creating := none
      referenced := if before = 0 then true else s.referenced }.addRelay .held) := by
  have hcount := hi.count
  rw [hc] at hcount
  have href : (if before = 0 then true else s.referenced) = true := by
    by_cases hz : before = 0
    · exact if_pos hz
    · exact (if_neg hz).trans (hi.creating before hc hz)
  have hheld : ({ s with
      creating := none
      referenced := if before = 0 then true else s.referenced }.addRelay .held).held =
      s.held + 1 := s.held_addRelay .held
  refine ⟨hi.fresh.addRelay .held, ?_, nofun, fun _ => href, fun _ => href, fun _ => href,
    hi.wakeup, hi.sent⟩
  rw [hheld]
  change s.count = s.held + 1 + 0
  rw [hcount, Int.add_zero]
  rfl

/-- A send goes to the end of the queue and wakes the loop. -/
private theorem Invariant.send (hi : Invariant s) (hheld : s.relays i = .held) (callback : α) :
    Invariant { s with
      queue := s.queue ++ [callback], wakeup := true, sent := s.sent ++ [callback] } := by
  have href : s.referenced = true := hi.held (State.Alive.held_pos hi.fresh ⟨i, hheld⟩)
  refine { hi with queue := fun _ => href, wakeup := fun _ => .inl rfl, sent := ?_ }
  change s.sent ++ [callback] = s.ran ++ s.phase.rest ++ (s.queue ++ [callback])
  rw [hi.sent, List.append_assoc]

private theorem Invariant.call (hi : Invariant s) (hp : s.phase = .idle) :
    Invariant { s with wakeup := false, phase := .called } := by
  have hsent := hi.sent
  rw [hp] at hsent
  exact { hi with
    rest := fun h => absurd rfl h
    wakeup := fun _ => .inr rfl
    sent := hsent }

private theorem Invariant.take (hi : Invariant s) (hp : s.phase = .called) :
    Invariant { s with phase := .draining s.queue, queue := [] } := by
  have hsent := hi.sent
  rw [hp] at hsent
  refine { hi with
    queue := fun h => absurd rfl h
    rest := hi.queue
    wakeup := fun h => absurd rfl h
    sent := ?_ }
  simpa [Phase.rest] using hsent

private theorem Invariant.runNext (hi : Invariant s) {cb : α} {rest : List α}
    (hp : s.phase = .draining (cb :: rest)) :
    Invariant { s with phase := .draining rest, ran := s.ran ++ [cb] } := by
  have hsent := hi.sent
  have href : s.referenced = true := hi.rest (by simp [hp, Phase.rest])
  rw [hp] at hsent
  refine { hi with
    rest := fun _ => href
    wakeup := fun hq => .inl (hi.wakeup_of_draining hp hq)
    sent := ?_ }
  simpa [Phase.rest] using hsent

/-- The final check lets go of the loop only where no relay is left and the queue is empty. -/
private theorem Invariant.finish (hi : Invariant s) (hp : s.phase = .draining [])
    (hc : s.creating = none) :
    Invariant { s with
      phase := .idle
      referenced := if s.count = 0 ∧ s.queue.isEmpty then false else s.referenced } := by
  have hsent := hi.sent
  have hcount := hi.count
  rw [hp] at hsent
  rw [hc] at hcount
  simp only [Option.isSome_none, Bool.false_eq_true, if_false, Int.add_zero] at hcount
  refine { hi with
    creating := fun before heq => nomatch hc.symm.trans heq
    held := fun hpos => (if_neg ?_).trans (hi.held hpos)
    queue := fun hq => (if_neg ?_).trans (hi.queue hq)
    rest := fun h => absurd rfl h
    wakeup := fun hq => .inl (hi.wakeup_of_draining hp hq)
    sent := hsent }
  · rintro ⟨hzero, -⟩
    have hpos : 0 < s.held := hpos
    omega
  · rintro ⟨-, hempty⟩
    exact hq (List.isEmpty_iff.mp hempty)

/-! ## What a step does -/

theorem step_createRelay (h : step s .createRelay = some s') :
    s.creating = none ∧ s' = { s with creating := some s.count, count := s.count + 1 } := by
  simp only [step] at h
  split at h
  · exact nomatch h
  · obtain ⟨hc, heq⟩ := Option.ite_none_right_eq_some.mp h
    exact ⟨hc, (Option.some.inj heq).symm⟩

theorem step_createRelayReturn (h : step s .createRelayReturn = some s') :
    ∃ before, s.creating = some before ∧ s' = { s with
      creating := none
      referenced := if before = 0 then true else s.referenced }.addRelay .held := by
  simp only [step] at h
  split at h
  · exact nomatch h
  · rename_i before hc
    exact ⟨before, hc, (Option.some.inj h).symm⟩

theorem step_moveConstruct (h : step s (.moveConstruct other) = some s') :
    s.relays other ≠ .gone ∧ s' = (s.setRelay other .inert).addRelay (s.relays other) := by
  simp only [step] at h
  split at h
  · exact nomatch h
  · rename_i hne
    exact ⟨hne, (Option.some.inj h).symm⟩

theorem step_moveAssign {this other : Nat} (h : step s (.moveAssign this other) = some s') :
    s.relays this ≠ .gone ∧ s.relays other ≠ .gone ∧ (this = other ∧ s' = s ∨ this ≠ other ∧
      s' = if s.relays this = .held then
          ((s.setRelay this (s.relays other)).setRelay other .inert).release
        else (s.setRelay this (s.relays other)).setRelay other .inert) := by
  obtain ⟨hne, h⟩ := Option.ite_none_left_eq_some.mp h
  rw [not_or] at hne
  refine ⟨hne.1, hne.2, ?_⟩
  split at h
  · rename_i heq
    exact .inl ⟨heq, (Option.some.inj h).symm⟩
  · rename_i heq
    exact .inr ⟨heq, (Option.some.inj h).symm⟩

theorem step_destroy (h : step s (.destroy i) = some s') :
    (s.relays i = .inert ∧ s' = s.setRelay i .gone) ∨
      (s.relays i = .held ∧ s' = (s.setRelay i .gone).release) := by
  simp only [step] at h
  split at h
  · exact nomatch h
  · rename_i hget
    exact .inl ⟨hget, (Option.some.inj h).symm⟩
  · rename_i hget
    exact .inr ⟨hget, (Option.some.inj h).symm⟩

theorem step_send {callback : α} (h : step s (.send i callback) = some s') :
    (s.relays i = .inert ∧ s' = s) ∨
      (s.relays i = .held ∧ s' = { s with
        queue := s.queue ++ [callback], wakeup := true, sent := s.sent ++ [callback] }) := by
  simp only [step] at h
  split at h
  · exact nomatch h
  · rename_i hget
    exact .inl ⟨hget, (Option.some.inj h).symm⟩
  · rename_i hget
    exact .inr ⟨hget, (Option.some.inj h).symm⟩

theorem step_runReturn (h : step s .runReturn = some s') :
    s.phase = .idle ∧ s.referenced = false ∧ s.otherHandles = false ∧
      s' = { s with running := false } := by
  simp only [step] at h
  split at h
  · rename_i hp
    obtain ⟨⟨-, -, hr, ho⟩, heq⟩ := Option.ite_none_right_eq_some.mp h
    exact ⟨hp, hr, ho, (Option.some.inj heq).symm⟩
  · exact nomatch h

theorem step_call (h : step s .call = some s') :
    s.phase = .idle ∧ s' = { s with wakeup := false, phase := .called } := by
  simp only [step] at h
  split at h
  · rename_i hp
    obtain ⟨-, heq⟩ := Option.ite_none_right_eq_some.mp h
    exact ⟨hp, (Option.some.inj heq).symm⟩
  · exact nomatch h

theorem step_take (h : step s .take = some s') :
    s.phase = .called ∧ s' = { s with phase := .draining s.queue, queue := [] } := by
  simp only [step] at h
  split at h
  · rename_i hp
    exact ⟨hp, (Option.some.inj h).symm⟩
  · exact nomatch h

theorem step_runNext (h : step s .runNext = some s') :
    ∃ cb rest, s.phase = .draining (cb :: rest) ∧
      s' = { s with phase := .draining rest, ran := s.ran ++ [cb] } := by
  simp only [step] at h
  split at h
  · rename_i cb rest hp
    obtain ⟨-, heq⟩ := Option.ite_none_right_eq_some.mp h
    exact ⟨cb, rest, hp, (Option.some.inj heq).symm⟩
  · exact nomatch h

theorem step_finish (h : step s .finish = some s') :
    s.phase = .draining [] ∧ s.creating = none ∧
      s' = { s with
        phase := .idle
        referenced := if s.count = 0 ∧ s.queue.isEmpty then false else s.referenced } := by
  simp only [step] at h
  split at h
  · rename_i hp
    obtain ⟨hc, heq⟩ := Option.ite_none_right_eq_some.mp h
    exact ⟨hp, hc, (Option.some.inj heq).symm⟩
  · exact nomatch h

/-! ## Moves -/

private theorem Invariant.moveConstruct (hi : Invariant s) (hne : s.relays other ≠ .gone) :
    Invariant ((s.setRelay other .inert).addRelay (s.relays other)) := by
  have hlt : other < s.made := hi.fresh.lt_made hne
  refine hi.of_relays ((hi.fresh.setRelay hlt _).addRelay _) ?_ rfl
  rw [State.held_addRelay, s.held_setRelay hlt, share_inert]
  omega

private theorem Invariant.moveAssign (hi : Invariant s) {this other : Nat}
    (hthis : s.relays this ≠ .gone) (hother : s.relays other ≠ .gone) (hne : this ≠ other) :
    Invariant (if s.relays this = .held then
        ((s.setRelay this (s.relays other)).setRelay other .inert).release
      else (s.setRelay this (s.relays other)).setRelay other .inert) := by
  have hthis' : this < s.made := hi.fresh.lt_made hthis
  have hother' : other < s.made := hi.fresh.lt_made hother
  have hfresh := (hi.fresh.setRelay hthis' (s.relays other)).setRelay hother' .inert
  have hget : (s.setRelay this (s.relays other)).relays other = s.relays other :=
    Function.update_of_ne hne.symm _ _
  have hheld : ((s.setRelay this (s.relays other)).setRelay other .inert).held =
      s.held - share (s.relays this) := by
    rw [(s.setRelay this (s.relays other)).held_setRelay hother', hget, s.held_setRelay hthis', share_inert]
    omega
  by_cases hh : s.relays this = .held
  · rw [if_pos hh]
    rw [hh, share_held] at hheld
    exact hi.of_release hfresh hheld rfl
  · rw [if_neg hh]
    refine hi.of_relays hfresh ?_ rfl
    rw [hheld, share, if_neg hh, Int.sub_zero]

private theorem Invariant.step (hi : Invariant s) (h : Relay.step s op = some s') :
    Invariant s' := by
  cases op with
  | construct =>
    cases h
    exact hi.of_relays (hi.fresh.addRelay _) (by rw [s.held_addRelay, share_inert, Int.add_zero]) rfl
  | createRelay =>
    obtain ⟨hc, rfl⟩ := step_createRelay h
    exact hi.createRelay hc
  | createRelayReturn =>
    obtain ⟨before, hc, rfl⟩ := step_createRelayReturn h
    exact hi.createRelayReturn hc
  | moveConstruct other =>
    obtain ⟨hne, rfl⟩ := step_moveConstruct h
    exact hi.moveConstruct hne
  | moveAssign this other =>
    obtain ⟨hthis, hother, ⟨-, rfl⟩ | ⟨hne, rfl⟩⟩ := step_moveAssign h
    · exact hi
    · exact hi.moveAssign hthis hother hne
  | destroy i =>
    obtain ⟨hget, rfl⟩ | ⟨hget, rfl⟩ := step_destroy h
    · have hlt : i < s.made := hi.fresh.lt_made (by simp [hget])
      refine hi.of_relays (hi.fresh.setRelay hlt _) ?_ rfl
      rw [s.held_setRelay hlt, hget, share_inert, share_gone]
      omega
    · have hlt : i < s.made := hi.fresh.lt_made (by simp [hget])
      refine hi.of_release (hi.fresh.setRelay hlt _) ?_ rfl
      rw [s.held_setRelay hlt, hget, share_held, share_gone]
      omega
  | send i callback =>
    obtain ⟨-, rfl⟩ | ⟨hheld, rfl⟩ := step_send h
    · exact hi
    · exact hi.send hheld callback
  | runLoop =>
    obtain ⟨-, heq⟩ := Option.ite_none_left_eq_some.mp h
    cases heq
    exact { hi with }
  | runReturn =>
    obtain ⟨-, -, -, rfl⟩ := step_runReturn h
    exact { hi with }
  | setOtherHandles b =>
    cases h
    exact { hi with }
  | call =>
    obtain ⟨hp, rfl⟩ := step_call h
    exact hi.call hp
  | take =>
    obtain ⟨hp, rfl⟩ := step_take h
    exact hi.take hp
  | runNext =>
    obtain ⟨cb, rest, hp, rfl⟩ := step_runNext h
    exact hi.runNext hp
  | finish =>
    obtain ⟨hp, hc, rfl⟩ := step_finish h
    exact hi.finish hp hc

theorem Reachable.invariant (h : Reachable s) : Invariant s :=
  Reach.invariant Invariant.step invariant_init h

/-! ## Delivery -/

/-- The steps of the loop's thread through `on_relay`. -/
def Op.ofLoop : Op α → Bool
  | .call | .take | .runNext | .finish => true
  | _ => false

/-- Sends are never taken back, `uv_run` goes on until it returns, and no other step touches
the batch or runs a callback. -/
theorem step_frame (h : step s op = some s') :
    s.sent <+: s'.sent ∧ (op ≠ .runReturn → s.running = true → s'.running = true) ∧
      (op.ofLoop = false → s'.phase = s.phase ∧ s'.ran = s.ran) := by
  cases op with
  | call =>
    obtain ⟨-, rfl⟩ := step_call h
    exact ⟨List.prefix_refl _, fun _ hr => hr, nofun⟩
  | take =>
    obtain ⟨-, rfl⟩ := step_take h
    exact ⟨List.prefix_refl _, fun _ hr => hr, nofun⟩
  | runNext =>
    obtain ⟨cb, rest, -, rfl⟩ := step_runNext h
    exact ⟨List.prefix_refl _, fun _ hr => hr, nofun⟩
  | finish =>
    obtain ⟨-, -, rfl⟩ := step_finish h
    exact ⟨List.prefix_refl _, fun _ hr => hr, nofun⟩
  | construct | setOtherHandles =>
    cases h
    exact ⟨List.prefix_refl _, fun _ hr => hr, fun _ => ⟨rfl, rfl⟩⟩
  | createRelay =>
    obtain ⟨-, rfl⟩ := step_createRelay h
    exact ⟨List.prefix_refl _, fun _ hr => hr, fun _ => ⟨rfl, rfl⟩⟩
  | createRelayReturn =>
    obtain ⟨before, -, rfl⟩ := step_createRelayReturn h
    exact ⟨List.prefix_refl _, fun _ hr => hr, fun _ => ⟨rfl, rfl⟩⟩
  | moveConstruct other =>
    obtain ⟨-, rfl⟩ := step_moveConstruct h
    exact ⟨List.prefix_refl _, fun _ hr => hr, fun _ => ⟨rfl, rfl⟩⟩
  | moveAssign this other =>
    obtain ⟨-, -, ⟨-, rfl⟩ | ⟨-, rfl⟩⟩ := step_moveAssign h
    · exact ⟨List.prefix_refl _, fun _ hr => hr, fun _ => ⟨rfl, rfl⟩⟩
    · split <;> exact ⟨List.prefix_refl _, fun _ hr => hr, fun _ => ⟨rfl, rfl⟩⟩
  | destroy i =>
    obtain ⟨-, rfl⟩ | ⟨-, rfl⟩ := step_destroy h
    all_goals exact ⟨List.prefix_refl _, fun _ hr => hr, fun _ => ⟨rfl, rfl⟩⟩
  | send i callback =>
    obtain ⟨-, rfl⟩ | ⟨-, rfl⟩ := step_send h
    · exact ⟨List.prefix_refl _, fun _ hr => hr, fun _ => ⟨rfl, rfl⟩⟩
    · exact ⟨List.prefix_append _ _, fun _ hr => hr, fun _ => ⟨rfl, rfl⟩⟩
  | runLoop =>
    obtain ⟨-, heq⟩ := Option.ite_none_left_eq_some.mp h
    cases heq
    exact ⟨List.prefix_refl _, fun _ _ => rfl, fun _ => ⟨rfl, rfl⟩⟩
  | runReturn =>
    obtain ⟨-, -, -, rfl⟩ := step_runReturn h
    exact ⟨List.prefix_refl _, fun hne => absurd rfl hne, fun _ => ⟨rfl, rfl⟩⟩

/-- The callback sent as number `k` has not run. -/
def State.Waits (s : State α) (k : Nat) : Prop := s.ran.length ≤ k ∧ k < s.sent.length

/-- The steps through `on_relay` until the callback sent as number `k` has run. -/
def State.ahead (s : State α) (k : Nat) : Nat :=
  k + 1 - s.ran.length +
    match s.phase with
    | .idle => 2
    | .called => 1
    | .draining rest => if k < s.ran.length + rest.length then 0 else 3

theorem ahead_of_not_ofLoop (hop : op.ofLoop = false) (h : step s op = some s') (k : Nat) :
    s'.ahead k = s.ahead k := by
  obtain ⟨hp, hr⟩ := (step_frame h).2.2 hop
  simp only [State.ahead, hp, hr]

/-- Each step of `on_relay` brings a callback that waits nearer to its turn. -/
theorem Invariant.ahead_lt (hi : Invariant s) (hk : s.Waits k) (hop : op.ofLoop = true)
    (h : Relay.step s op = some s') : s'.ahead k < s.ahead k := by
  have hsent := congrArg List.length hi.sent
  simp only [List.length_append] at hsent
  obtain ⟨hran, hlen⟩ := hk
  cases op with
  | call =>
    obtain ⟨hp, rfl⟩ := step_call h
    simp only [State.ahead, hp]
    omega
  | take =>
    obtain ⟨hp, rfl⟩ := step_take h
    rw [hp] at hsent
    have hbatch : k < s.ran.length + s.queue.length := by
      simp only [Phase.rest, List.length_nil] at hsent
      omega
    simp only [State.ahead, hp, if_pos hbatch]
    omega
  | runNext =>
    obtain ⟨cb, rest, hp, rfl⟩ := step_runNext h
    have hbatch : (k < s.ran.length + 1 + rest.length) =
        (k < s.ran.length + (rest.length + 1)) := by
      rw [Nat.add_assoc, Nat.add_comm 1]
    simp only [State.ahead, hp, List.length_append, List.length_cons, List.length_nil,
      Nat.zero_add, hbatch]
    omega
  | finish =>
    obtain ⟨hp, -, rfl⟩ := step_finish h
    have hbatch : ¬k < s.ran.length + ([] : List α).length := by
      rw [List.length_nil]
      omega
    simp only [State.ahead, hp, if_neg hbatch]
    omega
  | _ => exact absurd hop Bool.false_ne_true

/-- While a callback waits, the handle is referenced. -/
theorem Invariant.referenced_of_waits (hi : Invariant s) (hk : s.Waits k) :
    s.referenced = true := by
  have hsent := congrArg List.length hi.sent
  simp only [List.length_append] at hsent
  obtain ⟨hran, hlen⟩ := hk
  by_cases hq : s.queue = []
  · apply hi.rest
    rintro hr
    rw [hq, hr] at hsent
    simp only [List.length_nil] at hsent
    omega
  · exact hi.queue hq

/-- Where nothing is drained, a callback that waits is in the queue, and the loop is woken. -/
theorem Invariant.wakeup_of_waits (hi : Invariant s) (hk : s.Waits k) (hp : s.phase = .idle) :
    s.wakeup = true := by
  have hsent := congrArg List.length hi.sent
  obtain ⟨hran, hlen⟩ := hk
  have hq : s.queue ≠ [] := by
    rintro hq
    rw [hq, hp] at hsent
    simp only [Phase.rest, List.append_nil] at hsent
    omega
  rcases hi.wakeup hq with hw | hcalled
  · exact hw
  · exact nomatch hp.symm.trans hcalled

/-- What libuv and the callbacks are relied on for: a wakeup makes libuv call `on_relay` as
long as something keeps the loop alive, and an `on_relay` called goes on to its end. -/
structure Fair (r : EndlessRun step ({} : State α)) : Prop where
  wakes : ∀ i, (r.state i).wakeup = true → (r.state i).running = true →
    (∀ j, i ≤ j → (r.state j).referenced = true ∨ (r.state j).otherHandles = true) →
    ∃ j, i ≤ j ∧ r.op j = some .call
  advances : ∀ i, (r.state i).phase ≠ .idle →
    ∃ j op, i ≤ j ∧ r.op j = some op ∧ op ∈ [Op.take, .runNext, .finish]

section Delivery

variable (r : EndlessRun step ({} : State α)) {i k : Nat}

/-- What was sent stays sent. -/
private theorem sent_length_mono {j : Nat} (hij : i ≤ j) (hk : k < (r.state i).sent.length) :
    k < (r.state j).sent.length := by
  refine r.keeps (fun s => k < s.sent.length) ?_ hij hk
  intro s s' op hs h
  exact hs.trans_le (step_frame h).1.length_le

/-- A loop that runs goes on while a callback waits. -/
private theorem running_next (hw : (r.state i).Waits k) (hr : (r.state i).running = true) :
    (r.state (i + 1)).running = true := by
  have hi : Invariant (r.state i) := Reachable.invariant (r.reach i)
  cases hop : r.op i with
  | none =>
    rw [r.next_of_none hop]
    exact hr
  | some op =>
    have hstep := r.next_of_some hop
    refine (step_frame hstep).2.1 ?_ hr
    rintro rfl
    obtain ⟨-, href, -⟩ := step_runReturn hstep
    exact Bool.false_ne_true (href.symm.trans (hi.referenced_of_waits hw))

private theorem ahead_next_le (hw : (r.state i).Waits k) :
    (r.state (i + 1)).ahead k ≤ (r.state i).ahead k := by
  cases hop : r.op i with
  | none => rw [r.next_of_none hop]
  | some op =>
    have hstep := r.next_of_some hop
    cases hl : op.ofLoop with
    | false => exact (ahead_of_not_ofLoop hl hstep k).le
    | true => exact (Reachable.invariant (r.reach i)).ahead_lt hw hl hstep |>.le

private theorem running_until {j : Nat} (hij : i ≤ j) (hr : (r.state i).running = true)
    (hw : ∀ m, i ≤ m → m < j → (r.state m).Waits k) : (r.state j).running = true := by
  induction j, hij using Nat.le_induction with
  | base => exact hr
  | succ j hj ih =>
    have hrun := ih fun m hm hlt => hw m hm (by omega)
    exact running_next r (hw j hj (by omega)) hrun

/-- On a fair run, a callback sent to a loop that runs gets its turn. -/
private theorem Fair.delivers {r : EndlessRun step ({} : State α)} (hf : Fair r)
    (hk : k < (r.state i).sent.length) (hr : (r.state i).running = true) :
    ∃ j, i ≤ j ∧ k < (r.state j).ran.length := by
  have hwaits : ∀ m, i ≤ m → ¬k < (r.state m).ran.length → (r.state m).Waits k :=
    fun m hm hran => ⟨Nat.le_of_not_lt hran, sent_length_mono r hm hk⟩
  refine r.eventually (fun s => k < s.ran.length) (fun s => s.ahead k)
    (fun j hj hg => ahead_next_le r (hwaits j hj hg)) ?_
  intro j hj hnever
  have hw : ∀ m, i ≤ m → (r.state m).Waits k := fun m hm => hwaits m hm (hnever m hm)
  have hinv : ∀ m, Invariant (r.state m) := fun m => Reachable.invariant (r.reach m)
  obtain ⟨m, op, hm, hop, hl⟩ : ∃ m op, j ≤ m ∧ r.op m = some op ∧ op.ofLoop = true := by
    by_cases hp : (r.state j).phase = .idle
    · have hrun : (r.state j).running = true := running_until r hj hr fun m hm _ => hw m hm
      obtain ⟨m, hm, hop⟩ := hf.wakes j ((hinv j).wakeup_of_waits (hw j hj) hp) hrun
        fun m hm => .inl ((hinv m).referenced_of_waits (hw m (hj.trans hm)))
      exact ⟨m, .call, hm, hop, rfl⟩
    · obtain ⟨m, op, hm, hop, hmem⟩ := hf.advances j hp
      refine ⟨m, op, hm, hop, ?_⟩
      simp only [List.mem_cons, List.not_mem_nil, or_false] at hmem
      rcases hmem with rfl | rfl | rfl <;> rfl
  exact ⟨m, hm, (hinv m).ahead_lt (hw m (hj.trans hm)) hl (r.next_of_some hop)⟩

end Delivery

/-- While a relay is alive or a callback queued, the handle is referenced, and what is queued
has a wakeup pending or an `on_relay` under way. The callbacks run in the order in which their
sends took the mutex, each once; `uv_run` cannot return before all of them have; and on every
fair run each callback sent to a running loop runs before the loop returns. -/
theorem relay_delivers :
    (∀ s : State α, Reachable s →
      (s.Alive ∨ s.queue ≠ [] → s.referenced = true) ∧
      (s.queue ≠ [] → s.WakeupPending ∨ s.Draining) ∧
      s.sent = s.ran ++ s.phase.rest ++ s.queue ∧
      ∀ s', step s .runReturn = some s' → ¬s.Alive ∧ s.ran = s.sent) ∧
    ∀ r : EndlessRun step ({} : State α), Fair r → ∀ (i k : Nat) (cb : α), (r.state i).running = true →
      (r.state i).sent[k]? = some cb →
      ∃ j, i ≤ j ∧ (r.state j).ran[k]? = some cb ∧
        ∀ m, i ≤ m → m ≤ j → (r.state m).running = true := by
  constructor
  · intro s hs
    have hi := hs.invariant
    have halive : s.Alive → s.referenced = true := fun ha => hi.held (ha.held_pos hi.fresh)
    refine ⟨fun h => h.elim halive hi.queue, fun hq => .inl (hi.wakeup hq), hi.sent, ?_⟩
    intro s' hret
    obtain ⟨hp, href, -⟩ := step_runReturn hret
    have hfree : ¬s.referenced = true := by simp [href]
    have hq : s.queue = [] := by_contra fun hq => hfree (hi.queue hq)
    refine ⟨fun ha => hfree (halive ha), ?_⟩
    rw [hi.sent, hq, hp]
    simp [Phase.rest]
  · intro r hf i k cb hrun hcb
    obtain ⟨hk, hget⟩ := List.getElem?_eq_some_iff.mp hcb
    have hex := hf.delivers hk hrun
    classical
    obtain ⟨hij, hran⟩ := Nat.find_spec hex
    have hwait : ∀ m, i ≤ m → m < Nat.find hex → (r.state m).Waits k := by
      intro m hm hlt
      have hnot := Nat.find_min hex hlt
      rw [not_and] at hnot
      exact ⟨Nat.le_of_not_lt (hnot hm), sent_length_mono r hm hk⟩
    refine ⟨Nat.find hex, hij, ?_, fun m hm hle =>
      running_until r hm hrun fun l hl hlt => hwait l hl (hlt.trans_le hle)⟩
    have hsent := (Reachable.invariant (r.reach (Nat.find hex))).sent
    obtain ⟨later, hlater⟩ : (r.state i).sent <+: (r.state (Nat.find hex)).sent :=
      r.keeps (fun s => (r.state i).sent <+: s.sent)
        (fun hs h => hs.trans (step_frame h).1) hij (List.prefix_refl _)
    have hsame := congrArg (fun l : List α => l[k]?) (hlater.trans hsent)
    simp only [List.append_assoc, List.getElem?_append_left hk,
      List.getElem?_append_left hran] at hsame
    exact hsame.symm.trans hcb

/-- A relay sends one callback and goes, before the loop runs. -/
private def oneShot : List (Op Nat) :=
  [.createRelay, .createRelayReturn, .send 0 7, .destroy 0, .runLoop, .call, .take, .runNext,
    .finish, .runReturn]

private def oneShotTrace : EndlessRun step ({} : State Nat) := EndlessRun.ofRun oneShot rfl

private theorem oneShotTrace_after (hi : 10 ≤ i) :
    oneShotTrace.state i = oneShotTrace.state 10 := by
  change (run step {} (oneShot.take i)).getD {} = (run step {} (oneShot.take 10)).getD {}
  rw [List.take_of_length_le (show oneShot.length ≤ i from hi),
    List.take_of_length_le (show oneShot.length ≤ 10 from le_refl _)]

private theorem oneShotTrace_fair : Fair oneShotTrace where
  wakes i hw hr _ := by
    have hwoken : ∀ i < 10, (oneShotTrace.state i).wakeup = true →
        (oneShotTrace.state i).running = true → i = 5 := by decide
    rcases Nat.lt_or_ge i 10 with hlt | hge
    · obtain rfl := hwoken i hlt hw hr
      exact ⟨5, le_refl _, rfl⟩
    · rw [oneShotTrace_after hge] at hr
      exact nomatch hr
  advances i hp := by
    have hbusy : ∀ i < 10, (oneShotTrace.state i).phase ≠ .idle → i = 6 ∨ i = 7 ∨ i = 8 := by
      decide
    rcases Nat.lt_or_ge i 10 with hlt | hge
    · rcases hbusy i hlt hp with rfl | rfl | rfl
      · exact ⟨6, .take, le_refl _, rfl, by simp⟩
      · exact ⟨7, .runNext, le_refl _, rfl, by simp⟩
      · exact ⟨8, .finish, le_refl _, rfl, by simp⟩
    · rw [oneShotTrace_after hge] at hp
      exact absurd rfl hp

theorem relay_delivers_oneShot :
    (oneShotTrace.state 4).referenced = true ∧
      ∃ j, 5 ≤ j ∧ (oneShotTrace.state j).ran[0]? = some 7 ∧
        ∀ m, 5 ≤ m → m ≤ j → (oneShotTrace.state m).running = true :=
  ⟨(relay_delivers.1 _ (oneShotTrace.reach 4)).1 (.inr nofun),
    relay_delivers.2 oneShotTrace oneShotTrace_fair 5 0 7 rfl rfl⟩

end Kotatsu.Async.Relay
