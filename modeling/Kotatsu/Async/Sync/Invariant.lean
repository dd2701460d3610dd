import Kotatsu.Async.Sync.Model

/-!
# The invariant of waits and primitives

`Inv` says that every link agrees with the fields of the wait it belongs to,
that every counter of a primitive counts what it is for, and that nothing waits
for what is free. It is stated with the wait a call has in its hand, which is in
no queue yet, and with the units a call has taken out of the books and not put
back, so that it holds at every point inside a call.
-/

namespace Kotatsu.Async.Sync

open Kotatsu.Core

/-! ## What the primitive operations change -/

namespace State

@[simp] theorem modifyPrim_prims (s : State) (p q : PrimId) (f : Primitive → Primitive) :
    (s.modifyPrim p f).prims q = if q = p then f (s.prims q) else s.prims q := by
  simp only [modifyPrim, Function.update_apply]
  split <;> simp_all

@[simp] theorem modifyPrim_waits (s : State) (p : PrimId) (f : Primitive → Primitive) :
    (s.modifyPrim p f).waits = s.waits := rfl

@[simp] theorem modifyPrim_loops (s : State) (p : PrimId) (f : Primitive → Primitive) :
    (s.modifyPrim p f).loops = s.loops := rfl

@[simp] theorem modifyPrim_history (s : State) (p : PrimId) (f : Primitive → Primitive) :
    (s.modifyPrim p f).history = s.history := rfl

@[simp] theorem modifyWait_prims (s : State) (w : WaitId) (f : Wait → Wait) :
    (s.modifyWait w f).prims = s.prims := rfl

@[simp] theorem modifyWait_waits (s : State) (w v : WaitId) (f : Wait → Wait) :
    (s.modifyWait w f).waits v = if v = w then f (s.waits v) else s.waits v := by
  simp only [modifyWait, Function.update_apply]
  split <;> simp_all

@[simp] theorem modifyWait_loops (s : State) (w : WaitId) (f : Wait → Wait) :
    (s.modifyWait w f).loops = s.loops := rfl

@[simp] theorem modifyWait_fresh (s : State) (w : WaitId) (f : Wait → Wait) :
    (s.modifyWait w f).fresh = s.fresh := rfl

@[simp] theorem modifyWait_history (s : State) (w : WaitId) (f : Wait → Wait) :
    (s.modifyWait w f).history = s.history := rfl

@[simp] theorem modifyLoop_prims (s : State) (l : LoopId) (f : Loop → Loop) :
    (s.modifyLoop l f).prims = s.prims := rfl

@[simp] theorem modifyLoop_waits (s : State) (l : LoopId) (f : Loop → Loop) :
    (s.modifyLoop l f).waits = s.waits := rfl

@[simp] theorem modifyLoop_loops (s : State) (l k : LoopId) (f : Loop → Loop) :
    (s.modifyLoop l f).loops k = if k = l then f (s.loops k) else s.loops k := by
  simp only [modifyLoop, Function.update_apply]
  split <;> simp_all

@[simp] theorem modifyLoop_fresh (s : State) (l : LoopId) (f : Loop → Loop) :
    (s.modifyLoop l f).fresh = s.fresh := rfl

@[simp] theorem modifyLoop_history (s : State) (l : LoopId) (f : Loop → Loop) :
    (s.modifyLoop l f).history = s.history := rfl

@[simp] theorem modifyHistory_prims (s : State) (p : PrimId) (f : History → History) :
    (s.modifyHistory p f).prims = s.prims := rfl

@[simp] theorem modifyHistory_waits (s : State) (p : PrimId) (f : History → History) :
    (s.modifyHistory p f).waits = s.waits := rfl

@[simp] theorem modifyHistory_loops (s : State) (p : PrimId) (f : History → History) :
    (s.modifyHistory p f).loops = s.loops := rfl

@[simp] theorem modifyHistory_fresh (s : State) (p : PrimId) (f : History → History) :
    (s.modifyHistory p f).fresh = s.fresh := rfl

@[simp] theorem modifyHistory_history (s : State) (p q : PrimId) (f : History → History) :
    (s.modifyHistory p f).history q = if q = p then f (s.history q) else s.history q := by
  simp only [modifyHistory, Function.update_apply]
  split <;> simp_all

/-! ## Shares -/

end State

/-- The wait was granted by its owner and neither resumed, cancelled nor abandoned since. -/
def Wait.Outstanding (p : PrimId) (x : Wait) : Prop :=
  x.owner = p ∧ x.granted = true ∧ x.cancelRequested = false ∧
    (x.place = .atMutex ∨ x.place = .inHand ∨ x.place = .deferred)

/-- The wait holds the mutex until its task resumes. -/
def Wait.Owns (m : PrimId) (x : Wait) : Prop :=
  x.place = .deferred ∧
    (x.relock = some m ∨ x.relock = none ∧ x.owner = m ∧ x.cancelRequested = false)

instance (p : PrimId) (x : Wait) : Decidable (x.Outstanding p) :=
  inferInstanceAs (Decidable (_ ∧ _))

instance (m : PrimId) (x : Wait) : Decidable (x.Owns m) := inferInstanceAs (Decidable (_ ∧ _))

/-- What a wait counts for in the `woken` of a primitive. -/
def outstandingShare (p : PrimId) (x : Wait) : Int := if x.Outstanding p then 1 else 0

/-- What a wait counts for among the owners of a mutex. -/
def ownsShare (m : PrimId) (x : Wait) : Int := if x.Owns m then 1 else 0

namespace State

/-- The number of waits of a primitive that are outstanding. -/
def outstanding (s : State) (p : PrimId) : Int := tally (outstandingShare p) s.waits s.fresh

/-- Whether a loop is there. -/
def alive (s : State) (l : LoopId) : Bool := (s.loops l).alive

/-- The number of waits that own a mutex. -/
def waitingOwners (s : State) (m : PrimId) : Int := tally (ownsShare m) s.waits s.fresh

variable {w : WaitId} {base s : State} {f : Primitive → Primitive} {l : LoopId} {p : PrimId}

theorem tally_modifyWait (s : State) (hw : w < s.fresh) (f : Wait → Int) (g : Wait → Wait) :
    tally f (s.modifyWait w g).waits s.fresh =
      tally f s.waits s.fresh - f (s.waits w) + f (g (s.waits w)) := tally_update f s.waits hw _

end State

/-! ## The invariant -/

/-- What the fields of a wait say of one another, in each place. -/
structure Wait.Ok (cfg : Config) (alive : LoopId → Bool) (x : Wait) : Prop where
  kinds : ∀ m, x.relock = some m →
    cfg.kind x.owner = .conditionVariable ∧ cfg.kind m = .mutex
  relocks : x.place ≠ .unused → cfg.kind x.owner = .conditionVariable → x.relock ≠ none
  queued : ∀ p, x.queue = some p →
    (p = x.owner ∧ x.place = .atOwner ∨ x.relock = some p ∧ x.place = .atMutex) ∧
      ∃ l, x.loop = some l ∧ alive l = true
  atOwner : x.place = .atOwner →
    x.queue = some x.owner ∧ x.cancelRequested = false ∧ x.granted = false
  atMutex : x.place = .atMutex → x.queue = x.relock ∧ x.relock ≠ none
  inHand : x.place = .inHand → ∃ l, x.loop = some l ∧ alive l = true
  deferred : x.place = .deferred → ∃ l, x.loop = some l
  abandoned : x.place = .abandoned → x.loop = none
  granted : x.place = .atMutex ∨ x.place = .deferred → x.cancelRequested = false →
    x.granted = true
  unused : x.place = .unused → x.granted = false
  resumed : x.place = .resumed → x.granted = true ∧ x.cancelRequested = false
  cancelled : x.place = .cancelled → x.cancelRequested = true
  handedOn : x.handedOn = true → x.cancelRequested = true

/-- The loop that was to resume the wait is not there any more. -/
def State.Gone (s : State) (w : WaitId) : Prop :=
  ∀ l, (s.waits w).loop = some l → s.alive l = false

/-- What calls cannot undo since an earlier state. -/
structure Evolves (base s : State) : Prop where
  fresh : base.fresh ≤ s.fresh
  owner : ∀ w, w < base.fresh → (s.waits w).owner = (base.waits w).owner
  granted : ∀ w, w < base.fresh → (base.waits w).granted = true → (s.waits w).granted = true
  cancelRequested : ∀ w, w < base.fresh → (base.waits w).cancelRequested = true →
    (s.waits w).cancelRequested = true
  resumed : ∀ w, w < base.fresh → (base.waits w).place = .resumed →
    (s.waits w).place = .resumed
  gone : ∀ w, w < base.fresh → base.Gone w →
    s.Gone w ∧ ((s.waits w).place = .resumed → (base.waits w).place = .resumed)

theorem Evolves.refl (s : State) : Evolves s s :=
  ⟨Nat.le_refl _, fun _ _ => rfl, fun _ _ h => h, fun _ _ h => h, fun _ _ h => h,
    fun _ _ h => ⟨h, fun hp => hp⟩⟩

/-- A change of one wait that is not over undoes nothing. -/
theorem Evolves.changeWait {base s s' : State} (h : Evolves base s) (w : WaitId) (f : Wait → Wait)
    (hwaits : ∀ v, s'.waits v = if v = w then f (s.waits v) else s.waits v)
    (hfresh : s.fresh ≤ s'.fresh) (halive : ∀ l, s.alive l = false → s'.alive l = false)
    (howner : (f (s.waits w)).owner = (s.waits w).owner)
    (hgranted : (s.waits w).granted = true → (f (s.waits w)).granted = true)
    (hcancel : (s.waits w).cancelRequested = true → (f (s.waits w)).cancelRequested = true)
    (hplace : (s.waits w).place = .resumed → (f (s.waits w)).place = .resumed)
    (hloop : (f (s.waits w)).loop = (s.waits w).loop ∨ (f (s.waits w)).loop = none)
    (hresumed : (f (s.waits w)).place = .resumed → (s.waits w).place = .resumed ∨
      ∃ l, (s.waits w).loop = some l ∧ s.alive l = true) : Evolves base s' where
  fresh := h.fresh.trans hfresh
  owner v hv := by
    rw [hwaits]
    have := h.owner v hv
    grind
  granted v hv hb := by
    rw [hwaits]
    have := h.granted v hv hb
    grind
  cancelRequested v hv hb := by
    rw [hwaits]
    have := h.cancelRequested v hv hb
    grind
  resumed v hv hb := by
    rw [hwaits]
    have := h.resumed v hv hb
    grind
  gone v hv hb := by
    obtain ⟨hg, hr⟩ := h.gone v hv hb
    unfold State.Gone at hg ⊢
    rw [hwaits]
    refine ⟨?_, ?_⟩
    · intro l hl
      apply halive
      grind
    · grind

/-- Every list agrees with the fields of the waits in it. -/
structure Linked (cfg : Config) (base : State) (hand : Option WaitId) (s : State) : Prop where
  kind : ∀ p, (s.prims p).kind = cfg.kind p
  unused : ∀ w, (s.waits w).place = .unused ↔ s.fresh ≤ w
  inHand : ∀ w, (s.waits w).place = .inHand ↔ hand = some w
  wait : ∀ w, (s.waits w).Ok cfg s.alive
  mem_queue : ∀ p w, w ∈ (s.prims p).queue ↔ (s.waits w).queue = some p
  nodup_queue : ∀ p, (s.prims p).queue.Nodup
  mem_tracked : ∀ l w, w ∈ (s.loops l).queuedWaits ↔
    (s.waits w).queue ≠ none ∧ (s.waits w).loop = some l
  nodup_tracked : ∀ l, (s.loops l).queuedWaits.Nodup
  mem_deferred : ∀ l w, w ∈ (s.loops l).deferred ↔
    (s.waits w).place = .deferred ∧ (s.waits w).loop = some l
  nodup_deferred : ∀ l, (s.loops l).deferred.Nodup
  since : Evolves base s

/-- Every counter counts what it is for. `debt` is what the call under way
holds of a mutex or a semaphore, `ahead` by how much `woken` is too high. -/
structure Counted (cfg : Config) (debt ahead : PrimId → Int) (s : State) : Prop where
  woken : ∀ p, (s.prims p).woken = if cfg.kind p = .event then 0 else s.outstanding p + ahead p
  mutex : ∀ m, cfg.kind m = .mutex → (if (s.prims m).locked then 1 else 0) =
    (s.history m).holders.length + s.waitingOwners m + debt m
  units : ∀ p, cfg.kind p = .semaphore → (s.prims p).count + s.outstanding p + debt p =
    cfg.initial p + (s.history p).released - (s.history p).taken

/-- Nothing waits for what is free, and each primitive grants in the order of arrival. -/
structure Ordered (cfg : Config) (s : State) : Prop where
  locked : ∀ m, cfg.kind m = .mutex → (s.prims m).locked = false → (s.prims m).queue = []
  count_nonneg : ∀ p, cfg.kind p = .semaphore → 0 ≤ (s.prims p).count
  count_pos : ∀ p, cfg.kind p = .semaphore → 0 < (s.prims p).count → (s.prims p).queue = []
  fifo : ∀ p, ((s.history p).grants ++ (s.prims p).queue).Sublist (s.history p).arrivals
  arrivals : ∀ p, cfg.kind p = .semaphore → (s.history p).arrivals.Pairwise (· < ·) ∧
    ∀ w ∈ (s.history p).arrivals, w < s.fresh

/-- The invariant inside a call. -/
structure Inv (cfg : Config) (base : State) (hand : Option WaitId) (debt ahead : PrimId → Int)
    (s : State) : Prop where
  linked : Linked cfg base hand s
  counted : Counted cfg debt ahead s
  ordered : Ordered cfg s

/-! ## Taking a wait off a queue -/

namespace State

@[simp] theorem remove_prims (s : State) (p q : PrimId) (w : WaitId) :
    (s.remove p w).prims q = if q = p then { s.prims q with queue := (s.prims q).queue.erase w }
      else s.prims q := by
  simp only [remove, untrack]
  split <;> simp only [modifyLoop_prims, modifyWait_prims, modifyPrim_prims]

@[simp] theorem remove_waits (s : State) (p : PrimId) (w v : WaitId) :
    (s.remove p w).waits v = if v = w then { s.waits v with queue := none, place := .inHand }
      else s.waits v := by
  simp only [remove, untrack]
  split <;> simp only [modifyLoop_waits, modifyWait_waits, modifyPrim_waits]

@[simp] theorem remove_loops (s : State) (p : PrimId) (w : WaitId) (l : LoopId) :
    (s.remove p w).loops l = if (s.waits w).loop = some l then
      { s.loops l with queuedWaits := (s.loops l).queuedWaits.erase w } else s.loops l := by
  simp only [remove, untrack, modifyWait_waits, modifyPrim_waits, ite_true]
  cases h : (s.waits w).loop with
  | none => simp only [modifyWait_loops, modifyPrim_loops, reduceCtorEq, ite_false]
  | some k =>
    simp only [modifyLoop_loops, modifyWait_loops, modifyPrim_loops, Option.some.injEq,
      eq_comm (a := l)]

@[simp] theorem remove_fresh (s : State) (p : PrimId) (w : WaitId) :
    (s.remove p w).fresh = s.fresh := by
  simp only [remove, untrack]
  split <;> rfl

@[simp] theorem remove_history (s : State) (p : PrimId) (w : WaitId) :
    (s.remove p w).history = s.history := by
  simp only [remove, untrack]
  split <;> rfl

@[simp] theorem remove_alive (s : State) (p : PrimId) (w : WaitId) :
    (s.remove p w).alive = s.alive := by
  funext l
  simp only [alive, remove_loops]
  split <;> rfl

theorem remove_waits_eq (s : State) (p : PrimId) (w : WaitId) :
    (s.remove p w).waits =
      (s.modifyWait w fun x => { x with queue := none, place := .inHand }).waits := by
  funext v
  rw [remove_waits, modifyWait_waits]

end State

theorem Linked.lt_fresh {cfg : Config} {hand : Option WaitId} (h : Linked cfg base hand s)
    (hw : (s.waits w).place ≠ .unused) : w < s.fresh :=
  Nat.lt_of_not_le fun hle => hw ((h.unused w).mpr hle)

theorem Linked.remove {cfg : Config} {base : State} {s : State} {p : PrimId} {w : WaitId}
    (h : Linked cfg base none s) (hw : (s.waits w).queue = some p) :
    Linked cfg base (some w) (s.remove p w) where
  kind q := by
    rw [State.remove_prims]
    split <;> exact h.kind q
  unused v := by
    have hold := h.unused v
    have hnew : s.fresh ≤ w → False := by
      intro hle
      have hp := (h.unused w).mpr hle
      rcases ((h.wait w).queued p hw).1 with hx | hx <;> simp [hx.2] at hp
    rw [State.remove_waits, State.remove_fresh]
    split
    · next he =>
      subst he
      simp only [reduceCtorEq, false_iff]
      exact hnew
    · exact hold
  inHand v := by
    have hold := h.inHand v
    rw [State.remove_waits]
    split
    · next he => simp [he]
    · next he =>
      rw [hold]
      simp only [reduceCtorEq, Option.some.injEq, false_iff]
      exact fun hc => he hc.symm
  wait v := by
    have hold := h.wait v
    have hq := (h.wait w).queued p hw
    rw [State.remove_waits, State.remove_alive]
    split
    · next he =>
      subst he
      constructor <;> grind [Wait.Ok]
    · exact hold
  mem_queue q v := by
    have hold := h.mem_queue q v
    have hn := h.nodup_queue q
    rw [State.remove_prims, State.remove_waits]
    grind [List.Nodup.mem_erase_iff]
  nodup_queue q := by
    rw [State.remove_prims]
    split
    · exact (h.nodup_queue q).erase w
    · exact h.nodup_queue q
  mem_tracked l v := by
    have hold := h.mem_tracked l v
    have hn := h.nodup_tracked l
    rw [State.remove_loops, State.remove_waits]
    grind [List.Nodup.mem_erase_iff]
  nodup_tracked l := by
    rw [State.remove_loops]
    split
    · exact (h.nodup_tracked l).erase w
    · exact h.nodup_tracked l
  mem_deferred l v := by
    have hold := h.mem_deferred l v
    have hq := (h.wait w).queued p hw
    rw [State.remove_loops, State.remove_waits]
    grind
  nodup_deferred l := by
    rw [State.remove_loops]
    split <;> exact h.nodup_deferred l
  since := by
    have hq := (h.wait w).queued p hw
    refine h.since.changeWait w (fun x => { x with queue := none, place := .inHand })
      (s.remove_waits p w) (by rw [State.remove_fresh])
      (fun l hl => by rw [State.remove_alive]; exact hl) rfl (fun hg => hg) (fun hc => hc) ?_
      (Or.inl rfl) nofun
    grind

/-! ## Putting a wait on a queue -/

namespace State

@[simp] theorem insert_prims (s : State) (p q : PrimId) (w : WaitId) :
    (s.insert p w).prims q = if q = p then { s.prims q with queue := (s.prims q).queue ++ [w] }
      else s.prims q := by
  simp only [insert, track]
  split <;> simp only [modifyLoop_prims, modifyHistory_prims, modifyWait_prims, modifyPrim_prims]

@[simp] theorem insert_waits (s : State) (p : PrimId) (w v : WaitId) :
    (s.insert p w).waits v = if v = w then
      { s.waits v with queue := some p, place := if p = (s.waits v).owner then .atOwner else .atMutex }
      else s.waits v := by
  simp only [insert, track]
  split <;> simp only [modifyLoop_waits, modifyHistory_waits, modifyWait_waits, modifyPrim_waits]

@[simp] theorem insert_loops (s : State) (p : PrimId) (w : WaitId) (l : LoopId) :
    (s.insert p w).loops l = if (s.waits w).loop = some l then
      { s.loops l with queuedWaits := w :: (s.loops l).queuedWaits } else s.loops l := by
  simp only [insert, track, modifyHistory_waits, modifyWait_waits, modifyPrim_waits, ite_true]
  cases h : (s.waits w).loop with
  | none =>
    simp only [modifyHistory_loops, modifyWait_loops, modifyPrim_loops, reduceCtorEq, ite_false]
  | some k =>
    simp only [modifyLoop_loops, modifyHistory_loops, modifyWait_loops, modifyPrim_loops,
      Option.some.injEq, eq_comm (a := l)]

@[simp] theorem insert_fresh (s : State) (p : PrimId) (w : WaitId) :
    (s.insert p w).fresh = s.fresh := by
  simp only [insert, track]
  split <;> rfl

@[simp] theorem insert_history (s : State) (p q : PrimId) (w : WaitId) :
    (s.insert p w).history q = if q = p then
      { s.history q with arrivals := (s.history q).arrivals ++ [w] } else s.history q := by
  simp only [insert, track]
  split <;> simp only [modifyLoop_history, modifyHistory_history, modifyWait_history,
    modifyPrim_history]

@[simp] theorem insert_alive (s : State) (p : PrimId) (w : WaitId) :
    (s.insert p w).alive = s.alive := by
  funext l
  simp only [alive, insert_loops]
  split <;> rfl

theorem insert_waits_eq (s : State) (p : PrimId) (w : WaitId) :
    (s.insert p w).waits = (s.modifyWait w fun x =>
      { x with queue := some p, place := if p = x.owner then .atOwner else .atMutex }).waits := by
  funext v
  rw [insert_waits, modifyWait_waits]

@[simp] theorem deferResume_prims (s : State) (w : WaitId) :
    (s.deferResume w).prims = s.prims := by
  simp only [deferResume]
  split <;> rfl

@[simp] theorem deferResume_waits (s : State) (w v : WaitId) :
    (s.deferResume w).waits v = if v = w then { s.waits v with place := .deferred }
      else s.waits v := by
  simp only [deferResume]
  split <;> simp only [modifyLoop_waits, modifyWait_waits]

@[simp] theorem deferResume_loops (s : State) (w : WaitId) (l : LoopId) :
    (s.deferResume w).loops l = if (s.waits w).loop = some l then
      { s.loops l with deferred := (s.loops l).deferred ++ [w] } else s.loops l := by
  simp only [deferResume, modifyWait_waits, ite_true]
  cases h : (s.waits w).loop with
  | none => simp only [modifyWait_loops, reduceCtorEq, ite_false]
  | some k =>
    simp only [modifyLoop_loops, modifyWait_loops, Option.some.injEq, eq_comm (a := l)]

@[simp] theorem deferResume_fresh (s : State) (w : WaitId) :
    (s.deferResume w).fresh = s.fresh := by
  simp only [deferResume]
  split <;> rfl

@[simp] theorem deferResume_history (s : State) (w : WaitId) :
    (s.deferResume w).history = s.history := by
  simp only [deferResume]
  split <;> rfl

@[simp] theorem deferResume_alive (s : State) (w : WaitId) :
    (s.deferResume w).alive = s.alive := by
  funext l
  simp only [alive, deferResume_loops]
  split <;> rfl

theorem deferResume_waits_eq (s : State) (w : WaitId) :
    (s.deferResume w).waits = (s.modifyWait w fun x => { x with place := .deferred }).waits := by
  funext v
  rw [deferResume_waits, modifyWait_waits]

@[simp] theorem modifyWait_alive (s : State) (w : WaitId) (f : Wait → Wait) :
    (s.modifyWait w f).alive = s.alive := rfl

@[simp] theorem modifyPrim_alive (s : State) (p : PrimId) (f : Primitive → Primitive) :
    (s.modifyPrim p f).alive = s.alive := rfl

@[simp] theorem modifyHistory_alive (s : State) (p : PrimId) (f : History → History) :
    (s.modifyHistory p f).alive = s.alive := rfl

end State

section Linked

variable {cfg : Config} {base : State} {hand : Option WaitId} {s : State} {p : PrimId} {w : WaitId}

theorem Linked.inHand_of_eq (h : Linked cfg base (some w) s) : (s.waits w).place = .inHand :=
  (h.inHand w).mpr rfl

theorem Linked.modifyPrim (h : Linked cfg base hand s) (hk : ∀ x, (f x).kind = x.kind)
    (hq : ∀ x, (f x).queue = x.queue) : Linked cfg base hand (s.modifyPrim p f) where
  kind q := by
    rw [State.modifyPrim_prims]
    split
    · rw [hk, h.kind]
    · exact h.kind q
  unused := h.unused
  inHand := h.inHand
  wait := h.wait
  mem_queue q v := by
    rw [State.modifyPrim_prims]
    split
    · rw [hq, h.mem_queue, State.modifyPrim_waits]
    · exact h.mem_queue q v
  nodup_queue q := by
    rw [State.modifyPrim_prims]
    split
    · rw [hq]
      exact h.nodup_queue q
    · exact h.nodup_queue q
  mem_tracked := h.mem_tracked
  nodup_tracked := h.nodup_tracked
  mem_deferred := h.mem_deferred
  nodup_deferred := h.nodup_deferred
  since := ⟨h.since.fresh, h.since.owner, h.since.granted, h.since.cancelRequested,
    h.since.resumed, h.since.gone⟩

theorem Linked.modifyHistory (h : Linked cfg base hand s) {f : History → History} :
    Linked cfg base hand (s.modifyHistory p f) :=
  ⟨h.kind, h.unused, h.inHand, h.wait, h.mem_queue, h.nodup_queue, h.mem_tracked,
    h.nodup_tracked, h.mem_deferred, h.nodup_deferred, ⟨h.since.fresh, h.since.owner,
    h.since.granted, h.since.cancelRequested, h.since.resumed, h.since.gone⟩⟩

/-- A wait may queue at its owner when nothing has happened to it, and at its
mutex once it was granted or cancelled. -/
def Wait.MayQueue (p : PrimId) (x : Wait) : Prop :=
  p = x.owner ∧ x.cancelRequested = false ∧ x.granted = false ∨
    x.relock = some p ∧ (x.cancelRequested = false → x.granted = true)

theorem Linked.insert (h : Linked cfg base (some w) s) (hm : (s.waits w).MayQueue p) :
    Linked cfg base none (s.insert p w) where
  kind q := by
    rw [State.insert_prims]
    split <;> exact h.kind q
  unused v := by
    have hold := h.unused v
    have hin := h.inHand_of_eq
    rw [State.insert_waits, State.insert_fresh]
    grind
  inHand v := by
    have hold := h.inHand v
    rw [State.insert_waits]
    grind
  wait v := by
    have hold := h.wait v
    have hin := h.inHand_of_eq
    rw [State.insert_waits, State.insert_alive]
    split
    · next he =>
      subst he
      have hne : ∀ m, (s.waits v).relock = some m → m ≠ (s.waits v).owner := by
        intro m hr he
        have hk := hold.kinds m hr
        rw [he, hk.1] at hk
        cases hk.2
      constructor <;> grind [Wait.Ok, Wait.MayQueue]
    · exact hold
  mem_queue q v := by
    have hold := h.mem_queue q v
    have hin := h.inHand_of_eq
    have hq := (h.wait w).queued
    rw [State.insert_prims, State.insert_waits]
    grind
  nodup_queue q := by
    have hold := h.nodup_queue q
    have hout : w ∉ (s.prims q).queue := by
      rw [h.mem_queue]
      intro hc
      have hin := h.inHand_of_eq
      rcases ((h.wait w).queued q hc).1 with hx | hx <;> simp [hx.2] at hin
    rw [State.insert_prims]
    split
    · exact List.nodup_append.mpr ⟨hold, List.nodup_singleton w, by grind⟩
    · exact hold
  mem_tracked l v := by
    have hold := h.mem_tracked l v
    rw [State.insert_loops, State.insert_waits]
    grind
  nodup_tracked l := by
    have hold := h.nodup_tracked l
    have hout : w ∉ (s.loops l).queuedWaits := by
      rw [h.mem_tracked]
      rintro ⟨hq, _⟩
      obtain ⟨q, hq⟩ := Option.ne_none_iff_exists'.mp hq
      have hin := h.inHand_of_eq
      rcases ((h.wait w).queued q hq).1 with hx | hx <;> simp [hx.2] at hin
    rw [State.insert_loops]
    split
    · exact List.nodup_cons.mpr ⟨hout, hold⟩
    · exact hold
  mem_deferred l v := by
    have hold := h.mem_deferred l v
    have hin := h.inHand_of_eq
    rw [State.insert_loops, State.insert_waits]
    grind
  nodup_deferred l := by
    rw [State.insert_loops]
    split <;> exact h.nodup_deferred l
  since := by
    have hin := h.inHand_of_eq
    refine h.since.changeWait w (fun x => { x with
        queue := some p, place := if p = x.owner then .atOwner else .atMutex })
      (s.insert_waits p w) (by rw [State.insert_fresh])
      (fun l hl => by rw [State.insert_alive]; exact hl) rfl (fun hg => hg) (fun hc => hc) ?_
      (Or.inl rfl) ?_
    · grind
    · grind

theorem Linked.deferResume (h : Linked cfg base (some w) s)
    (hg : (s.waits w).cancelRequested = false → (s.waits w).granted = true) :
    Linked cfg base none (s.deferResume w) where
  kind q := by
    rw [State.deferResume_prims]
    exact h.kind q
  unused v := by
    have hold := h.unused v
    have hin := h.inHand_of_eq
    rw [State.deferResume_waits, State.deferResume_fresh]
    grind
  inHand v := by
    have hold := h.inHand v
    rw [State.deferResume_waits]
    grind
  wait v := by
    have hold := h.wait v
    have hin := h.inHand_of_eq
    rw [State.deferResume_waits, State.deferResume_alive]
    split
    · next he =>
      subst he
      constructor <;> grind [Wait.Ok]
    · exact hold
  mem_queue q v := by
    have hold := h.mem_queue q v
    rw [State.deferResume_prims, State.deferResume_waits]
    grind
  nodup_queue q := by
    rw [State.deferResume_prims]
    exact h.nodup_queue q
  mem_tracked l v := by
    have hold := h.mem_tracked l v
    rw [State.deferResume_loops, State.deferResume_waits]
    grind
  nodup_tracked l := by
    rw [State.deferResume_loops]
    split <;> exact h.nodup_tracked l
  mem_deferred l v := by
    have hold := h.mem_deferred l v
    rw [State.deferResume_loops, State.deferResume_waits]
    grind
  nodup_deferred l := by
    have hold := h.nodup_deferred l
    have hout : w ∉ (s.loops l).deferred := by
      rw [h.mem_deferred, h.inHand_of_eq]
      simp
    rw [State.deferResume_loops]
    split
    · exact List.nodup_append.mpr ⟨hold, List.nodup_singleton w, by grind⟩
    · exact hold
  since := by
    have hin := h.inHand_of_eq
    refine h.since.changeWait w (fun x => { x with place := .deferred })
      (s.deferResume_waits w) (by rw [State.deferResume_fresh])
      (fun l hl => by rw [State.deferResume_alive]; exact hl) rfl (fun hg => hg) (fun hc => hc) ?_
      (Or.inl rfl) nofun
    grind

end Linked

section Linked

variable {cfg : Config} {base : State} {hand hand' : Option WaitId} {s : State} {p : PrimId} {w : WaitId}

/-- A change of one wait that leaves it in its lists. -/
theorem Linked.modifyWait (h : Linked cfg base hand s) {f : Wait → Wait}
    (hqueue : (f (s.waits w)).queue = (s.waits w).queue)
    (hloop : (f (s.waits w)).loop = (s.waits w).loop ∨
      (s.waits w).queue = none ∧ (s.waits w).place ≠ .deferred)
    (hdeferred : (f (s.waits w)).place = .deferred ↔ (s.waits w).place = .deferred)
    (hunused : (f (s.waits w)).place = .unused ↔ (s.waits w).place = .unused)
    (hhand : (f (s.waits w)).place = .inHand ↔ hand' = some w)
    (hothers : ∀ v, v ≠ w → (hand = some v ↔ hand' = some v))
    (hok : (f (s.waits w)).Ok cfg s.alive) (hsince : Evolves base (s.modifyWait w f)) :
    Linked cfg base hand' (s.modifyWait w f) where
  kind := h.kind
  unused v := by
    have hold := h.unused v
    rw [State.modifyWait_waits, State.modifyWait_fresh]
    grind
  inHand v := by
    have hold := h.inHand v
    have hother := hothers v
    rw [State.modifyWait_waits]
    grind
  wait v := by
    have hold := h.wait v
    rw [State.modifyWait_waits, State.modifyWait_alive]
    grind
  mem_queue q v := by
    have hold := h.mem_queue q v
    rw [State.modifyWait_waits, State.modifyWait_prims]
    grind
  nodup_queue := h.nodup_queue
  mem_tracked l v := by
    have hold := h.mem_tracked l v
    rw [State.modifyWait_waits, State.modifyWait_loops]
    grind
  nodup_tracked := h.nodup_tracked
  mem_deferred l v := by
    have hold := h.mem_deferred l v
    rw [State.modifyWait_waits, State.modifyWait_loops]
    grind
  nodup_deferred := h.nodup_deferred
  since := hsince

/-- A wait in hand is granted. -/
theorem Linked.setGranted (h : Linked cfg base (some w) s) :
    Linked cfg base (some w) (s.modifyWait w fun x => { x with granted := true }) := by
  have hok := h.wait w
  have hin := h.inHand_of_eq
  refine h.modifyWait rfl (Or.inl rfl) Iff.rfl Iff.rfl ?_ (fun _ _ => Iff.rfl) ?_ ?_
  · exact h.inHand w
  · constructor <;> grind [Wait.Ok]
  · exact h.since.changeWait w (fun x => { x with granted := true })
      (s.modifyWait_waits w · _) (Nat.le_refl _) (fun _ hl => hl) rfl
      (fun _ => rfl) (fun hc => hc) (fun hp => hp) (Or.inl rfl) Or.inl

/-- A wait that is not queued at its owner, nor over, is asked to cancel. -/
theorem Linked.setCancelRequested (h : Linked cfg base hand s)
    (hp : (s.waits w).place ≠ .atOwner ∧ (s.waits w).place ≠ .resumed) :
    Linked cfg base hand (s.modifyWait w fun x => { x with cancelRequested := true }) := by
  have hok := h.wait w
  refine h.modifyWait rfl (Or.inl rfl) Iff.rfl Iff.rfl ?_ (fun _ _ => Iff.rfl) ?_ ?_
  · exact h.inHand w
  · constructor <;> grind [Wait.Ok]
  · exact h.since.changeWait w (fun x => { x with cancelRequested := true })
      (s.modifyWait_waits w · _) (Nat.le_refl _) (fun _ hl => hl) rfl
      (fun hg => hg) (fun _ => rfl) (fun hp => hp) (Or.inl rfl) Or.inl

/-- A cancelled wait hands on what it was granted. -/
theorem Linked.setHandedOn (h : Linked cfg base hand s)
    (hc : (s.waits w).cancelRequested = true) :
    Linked cfg base hand (s.modifyWait w fun x => { x with handedOn := true }) := by
  have hok := h.wait w
  refine h.modifyWait rfl (Or.inl rfl) Iff.rfl Iff.rfl ?_ (fun _ _ => Iff.rfl) ?_ ?_
  · exact h.inHand w
  · constructor <;> grind [Wait.Ok]
  · exact h.since.changeWait w (fun x => { x with handedOn := true })
      (s.modifyWait_waits w · _) (Nat.le_refl _) (fun _ hl => hl) rfl
      (fun hg => hg) (fun hc => hc) (fun hp => hp) (Or.inl rfl) Or.inl

/-- A wait in hand, or an abandoned one, ends. -/
theorem Linked.setEnded (h : Linked cfg base hand s) {place : Place}
    (hw : hand = some w ∨ hand = none ∧ (s.waits w).place = .abandoned)
    (hplace : place = .resumed ∧ hand = some w ∧ (s.waits w).granted = true ∧
        (s.waits w).cancelRequested = false ∨
      place = .cancelled ∧ (s.waits w).cancelRequested = true) :
    Linked cfg base none (s.modifyWait w fun x => { x with place := place }) := by
  have hok := h.wait w
  have hin := h.inHand w
  refine h.modifyWait rfl (Or.inl rfl) ?_ ?_ ?_ ?_ ?_ ?_
  · grind
  · grind
  · grind
  · grind
  · constructor <;> grind [Wait.Ok]
  · refine h.since.changeWait w (fun x => { x with place := place })
      (s.modifyWait_waits w · _) (Nat.le_refl _) (fun _ hl => hl) rfl
      (fun hg => hg) (fun hc => hc) ?_ (Or.inl rfl) ?_
    · grind
    · have hlive := hok.inHand
      grind

/-- A wait in hand is left by its loop. -/
theorem Linked.setAbandoned (h : Linked cfg base (some w) s) :
    Linked cfg base none
      (s.modifyWait w fun x => { x with loop := none, place := .abandoned }) := by
  have hok := h.wait w
  have hin := h.inHand_of_eq
  have hq : (s.waits w).queue = none := by
    cases hc : (s.waits w).queue with
    | none => rfl
    | some q => rcases (hok.queued q hc).1 with hx | hx <;> simp [hx.2] at hin
  refine h.modifyWait rfl (Or.inr ⟨hq, by simp [hin]⟩) ?_ ?_ ?_ ?_ ?_ ?_
  · grind
  · grind
  · grind
  · grind
  · constructor <;> grind [Wait.Ok]
  · refine h.since.changeWait w (fun x => { x with loop := none, place := .abandoned })
      (s.modifyWait_waits w · _) (Nat.le_refl _) (fun _ hl => hl) rfl
      (fun hg => hg) (fun hc => hc) ?_ (Or.inr rfl) nofun
    grind

/-- The first wait to be resumed is taken off its loop's list. -/
theorem Linked.popDeferred (h : Linked cfg base none s) {rest : List WaitId}
    (hl : (s.loops l).deferred = w :: rest) (halive : s.alive l = true) :
    Linked cfg base (some w) (s.popDeferred l w) where
  kind := h.kind
  unused v := by
    have hold := h.unused v
    have hw := (h.mem_deferred l w).mp (by rw [hl]; exact List.mem_cons_self ..)
    simp only [State.popDeferred, State.modifyWait_waits, State.modifyLoop_waits,
      State.modifyWait_fresh, State.modifyLoop_fresh]
    grind
  inHand v := by
    have hold := h.inHand v
    simp only [State.popDeferred, State.modifyWait_waits, State.modifyLoop_waits]
    grind
  wait v := by
    have hold := h.wait v
    have hw := (h.mem_deferred l w).mp (by rw [hl]; exact List.mem_cons_self ..)
    have halives : (s.popDeferred l w).alive = s.alive := by
      funext k
      simp only [State.alive, State.popDeferred, State.modifyWait_loops, State.modifyLoop_loops]
      split <;> rfl
    rw [halives]
    simp only [State.popDeferred, State.modifyWait_waits, State.modifyLoop_waits]
    split
    · next he =>
      subst he
      constructor <;> grind [Wait.Ok]
    · exact hold
  mem_queue q v := by
    have hold := h.mem_queue q v
    simp only [State.popDeferred, State.modifyWait_waits, State.modifyLoop_waits,
      State.modifyWait_prims, State.modifyLoop_prims]
    grind
  nodup_queue := h.nodup_queue
  mem_tracked k v := by
    have hold := h.mem_tracked k v
    simp only [State.popDeferred, State.modifyWait_waits, State.modifyLoop_waits,
      State.modifyWait_loops, State.modifyLoop_loops]
    grind
  nodup_tracked k := by
    have hold := h.nodup_tracked k
    simp only [State.popDeferred, State.modifyWait_loops, State.modifyLoop_loops]
    split <;> exact hold
  mem_deferred k v := by
    have hold := h.mem_deferred k v
    have hn := h.nodup_deferred l
    have hw := (h.mem_deferred l w).mp (by rw [hl]; exact List.mem_cons_self ..)
    rw [hl, List.nodup_cons] at hn
    simp only [State.popDeferred, State.modifyWait_waits, State.modifyLoop_waits,
      State.modifyWait_loops, State.modifyLoop_loops]
    grind
  nodup_deferred k := by
    have hold := h.nodup_deferred k
    simp only [State.popDeferred, State.modifyWait_loops, State.modifyLoop_loops]
    split
    · exact hold.tail
    · exact hold
  since := by
    have hw := (h.mem_deferred l w).mp (by rw [hl]; exact List.mem_cons_self ..)
    have halives : ∀ k, (s.popDeferred l w).alive k = s.alive k := by
      intro k
      simp only [State.alive, State.popDeferred, State.modifyWait_loops, State.modifyLoop_loops]
      split <;> rfl
    refine h.since.changeWait w (fun x => { x with place := .inHand }) ?_
      (Nat.le_refl _) (fun k hk => by rw [halives]; exact hk) rfl (fun hg => hg) (fun hc => hc) ?_
      (Or.inl rfl) nofun
    · intro v
      simp only [State.popDeferred, State.modifyWait_waits, State.modifyLoop_waits]
    · grind

/-- A task begins a wait. -/
theorem Linked.begin (h : Linked cfg base none s) {t : TaskId} {owner : PrimId}
    {relock : Option PrimId} (halive : s.alive l = true)
    (hkinds : ∀ m, relock = some m → cfg.kind owner = .conditionVariable ∧ cfg.kind m = .mutex)
    (hrelock : cfg.kind owner = .conditionVariable → relock ≠ none) :
    Linked cfg base (some s.fresh) (s.begin t owner relock l) where
  kind := h.kind
  unused v := by
    have hold := h.unused v
    simp only [State.begin, Function.update_apply]
    grind
  inHand v := by
    have hold := h.inHand v
    simp only [State.begin, Function.update_apply]
    grind
  wait v := by
    have hold := h.wait v
    change (Function.update s.waits s.fresh _ v).Ok cfg s.alive
    rw [Function.update_apply]
    split
    · constructor <;> grind [Wait.Ok]
    · exact hold
  mem_queue q v := by
    have hold := h.mem_queue q v
    have hnew := (h.unused s.fresh).mpr (Nat.le_refl _)
    have hwq := (h.wait s.fresh).queued
    simp only [State.begin, Function.update_apply]
    grind
  nodup_queue := h.nodup_queue
  mem_tracked k v := by
    have hold := h.mem_tracked k v
    have hnew := (h.unused s.fresh).mpr (Nat.le_refl _)
    have hwq := (h.wait s.fresh).queued
    simp only [State.begin, Function.update_apply]
    cases hc : (s.waits s.fresh).queue <;> grind
  nodup_tracked := h.nodup_tracked
  mem_deferred k v := by
    have hold := h.mem_deferred k v
    have hnew := (h.unused s.fresh).mpr (Nat.le_refl _)
    simp only [State.begin, Function.update_apply]
    grind
  nodup_deferred := h.nodup_deferred
  since := by
    have hb := h.since
    have hne : ∀ v, v < base.fresh → (s.begin t owner relock l).waits v = s.waits v := by
      intro v hv
      simp only [State.begin]
      exact Function.update_of_ne (Nat.ne_of_lt (hv.trans_le hb.fresh)) _ _
    refine ⟨hb.fresh.trans (Nat.le_succ _), ?_, ?_, ?_, ?_, ?_⟩
    all_goals
      intro v hv
      try unfold State.Gone
      rw [hne v hv]
    · exact hb.owner v hv
    · exact hb.granted v hv
    · exact hb.cancelRequested v hv
    · exact hb.resumed v hv
    · exact hb.gone v hv

/-- A loop that tracks no wait goes. -/
theorem Linked.kill (h : Linked cfg base none s) (hl : (s.loops l).queuedWaits = []) :
    Linked cfg base none (s.modifyLoop l fun x => { x with alive := false }) where
  kind := h.kind
  unused := h.unused
  inHand := h.inHand
  wait v := by
    have hold := h.wait v
    have hv : (s.waits v).queue ≠ none → (s.waits v).loop ≠ some l := by
      intro hq hc
      have hm := (h.mem_tracked l v).mpr ⟨hq, hc⟩
      rw [hl] at hm
      cases hm
    have hin : (s.waits v).place ≠ .inHand := by
      intro hc
      have := (h.inHand v).mp hc
      cases this
    have halive : ∀ k, k ≠ l →
        (s.modifyLoop l fun x => { x with alive := false }).alive k = s.alive k := by
      intro k hk
      simp only [State.alive, State.modifyLoop_loops, hk, ite_false]
    rw [State.modifyLoop_waits]
    constructor <;> grind [Wait.Ok]
  mem_queue := h.mem_queue
  nodup_queue := h.nodup_queue
  mem_tracked k v := by
    have hold := h.mem_tracked k v
    simp only [State.modifyLoop_waits, State.modifyLoop_loops]
    grind
  nodup_tracked k := by
    have hold := h.nodup_tracked k
    simp only [State.modifyLoop_loops]
    split <;> exact hold
  mem_deferred k v := by
    have hold := h.mem_deferred k v
    simp only [State.modifyLoop_waits, State.modifyLoop_loops]
    grind
  nodup_deferred k := by
    have hold := h.nodup_deferred k
    simp only [State.modifyLoop_loops]
    split <;> exact hold
  since := by
    have hb := h.since
    refine ⟨hb.fresh, hb.owner, hb.granted, hb.cancelRequested, hb.resumed, ?_⟩
    intro v hv hg
    obtain ⟨hgone, hr⟩ := hb.gone v hv hg
    refine ⟨?_, hr⟩
    intro k hk
    simp only [State.alive, State.modifyLoop_loops]
    split
    · rfl
    · exact hgone k hk

end Linked

/-! ## Counters -/

/-- The share of a wait is at most one. -/
theorem outstandingShare_nonneg (p : PrimId) (x : Wait) : 0 ≤ outstandingShare p x := by
  unfold outstandingShare
  split <;> decide

theorem ownsShare_nonneg (m : PrimId) (x : Wait) : 0 ≤ ownsShare m x := by
  unfold ownsShare
  split <;> decide

section Counted

variable {cfg : Config} {debt debt' ahead ahead' : PrimId → Int} {s s' : State} {w : WaitId}

/-- A change of one wait moves the books by the wait's shares. -/
theorem Counted.changeWait (h : Counted cfg debt ahead s) {f : Wait → Wait} (hlt : w < s.fresh)
    (hwaits : s'.waits = (s.modifyWait w f).waits) (hfresh : s'.fresh = s.fresh)
    (hprims : ∀ p, (s'.prims p).woken = (s.prims p).woken ∧
      (s'.prims p).locked = (s.prims p).locked ∧ (s'.prims p).count = (s.prims p).count)
    (hhistory : ∀ p, (s'.history p).holders = (s.history p).holders ∧
      (s'.history p).released = (s.history p).released ∧
      (s'.history p).taken = (s.history p).taken)
    (hover : ∀ p, cfg.kind p ≠ .event → ahead' p = ahead p +
      outstandingShare p (s.waits w) - outstandingShare p (f (s.waits w)))
    (hmutex : ∀ m, cfg.kind m = .mutex → debt' m = debt m +
      ownsShare m (s.waits w) - ownsShare m (f (s.waits w)))
    (hunits : ∀ p, cfg.kind p = .semaphore → debt' p = debt p +
      outstandingShare p (s.waits w) - outstandingShare p (f (s.waits w))) :
    Counted cfg debt' ahead' s' := by
  have hout : ∀ p, s'.outstanding p = s.outstanding p - outstandingShare p (s.waits w) +
      outstandingShare p (f (s.waits w)) := by
    intro p
    rw [State.outstanding, hwaits, hfresh, s.tally_modifyWait hlt]
    rfl
  have howns : ∀ m, s'.waitingOwners m = s.waitingOwners m - ownsShare m (s.waits w) +
      ownsShare m (f (s.waits w)) := by
    intro m
    rw [State.waitingOwners, hwaits, hfresh, s.tally_modifyWait hlt]
    rfl
  refine ⟨fun p => ?_, fun m hm => ?_, fun p hp => ?_⟩
  · have hold := h.woken p
    rw [(hprims p).1, hold, hout]
    split
    · rfl
    · next hk =>
      rw [hover p hk]
      omega
  · have hold := h.mutex m hm
    rw [(hprims m).2.1, hold, (hhistory m).1, howns, hmutex m hm]
    omega
  · have hold := h.units p hp
    rw [(hprims p).2.2, hout, hunits p hp, (hhistory p).2.1, (hhistory p).2.2]
    omega

/-- A change of one primitive's counters moves the books by as much. -/
theorem Counted.changePrim (h : Counted cfg debt ahead s)
    (hover : cfg.kind p ≠ .event → ∀ q, ahead' q = ahead q +
      if q = p then (f (s.prims p)).woken - (s.prims p).woken else 0)
    (hevent : cfg.kind p = .event → (f (s.prims p)).woken = (s.prims p).woken ∧
      ∀ q, ahead' q = ahead q) (hmutex : ∀ m, cfg.kind m = .mutex → debt' m = debt m +
      if m = p then (if (f (s.prims p)).locked then 1 else 0) - (if (s.prims p).locked then 1 else 0)
      else 0) (hunits : ∀ q, cfg.kind q = .semaphore → debt' q = debt q -
      if q = p then (f (s.prims p)).count - (s.prims p).count else 0) :
    Counted cfg debt' ahead' (s.modifyPrim p f) := by
  refine ⟨fun q => ?_, fun m hm => ?_, fun q hq => ?_⟩
  · have hold := h.woken q
    rw [State.modifyPrim_prims]
    change _ = if cfg.kind q = .event then 0 else s.outstanding q + ahead' q
    by_cases hk : cfg.kind p = .event
    · obtain ⟨hw, ho⟩ := hevent hk
      rw [ho q]
      split
      · next he => rw [he, hw, ← he, hold]
      · exact hold
    · rw [hover hk q]
      split
      · next he =>
        subst he
        simp only [hk, ite_false] at hold ⊢
        omega
      · rw [hold]
        simp only [Int.add_zero]
  · have hold := h.mutex m hm
    have hd := hmutex m hm
    rw [State.modifyPrim_prims]
    change _ = (s.history m).holders.length + s.waitingOwners m + debt' m
    grind
  · have hold := h.units q hq
    have hd := hunits q hq
    rw [State.modifyPrim_prims]
    change _ + s.outstanding q + debt' q = cfg.initial q + (s.history q).released -
      (s.history q).taken
    grind

/-- A change of what is recorded moves the books by as much. -/
theorem Counted.changeHistory (h : Counted cfg debt ahead s) {f : History → History}
    (hmutex : ∀ m, cfg.kind m = .mutex → debt' m = debt m -
      if m = p then ((f (s.history p)).holders.length - (s.history p).holders.length : Int) else 0)
    (hunits : ∀ q, cfg.kind q = .semaphore → debt' q = debt q +
      if q = p then (f (s.history p)).released - (s.history p).released -
        ((f (s.history p)).taken - (s.history p).taken) else 0) :
    Counted cfg debt' ahead (s.modifyHistory p f) := by
  refine ⟨h.woken, fun m hm => ?_, fun q hq => ?_⟩
  · have hold := h.mutex m hm
    have hd := hmutex m hm
    rw [State.modifyHistory_history, State.modifyHistory_prims]
    change _ = _ + s.waitingOwners m + debt' m
    grind
  · have hold := h.units q hq
    have hd := hunits q hq
    rw [State.modifyHistory_history, State.modifyHistory_prims]
    change _ + s.outstanding q + debt' q = _
    grind

theorem Counted.congr (h : Counted cfg debt ahead s) (hdebt : ∀ p, debt' p = debt p)
    (hover : ∀ p, ahead' p = ahead p) : Counted cfg debt' ahead' s := by
  rw [funext hdebt, funext hover]
  exact h

end Counted

/-! ## Order -/

section Ordered

variable {cfg : Config} {s s' : State} {p : PrimId} {w : WaitId}

/-- Changes of what no order depends on. -/
theorem Ordered.frame (h : Ordered cfg s)
    (hprims : ∀ p, (s'.prims p).queue = (s.prims p).queue ∧
      (s'.prims p).locked = (s.prims p).locked ∧ (s'.prims p).count = (s.prims p).count)
    (hhistory : ∀ p, (s'.history p).arrivals = (s.history p).arrivals ∧
      (s'.history p).grants = (s.history p).grants)
    (hfresh : s.fresh ≤ s'.fresh) : Ordered cfg s' where
  locked m hm := by
    rw [(hprims m).1, (hprims m).2.1]
    exact h.locked m hm
  count_nonneg q hq := by
    rw [(hprims q).2.2]
    exact h.count_nonneg q hq
  count_pos q hq := by
    rw [(hprims q).1, (hprims q).2.2]
    exact h.count_pos q hq
  fifo q := by
    rw [(hprims q).1, (hhistory q).1, (hhistory q).2]
    exact h.fifo q
  arrivals q hq := by
    rw [(hhistory q).1]
    exact ⟨(h.arrivals q hq).1, fun v hv => ((h.arrivals q hq).2 v hv).trans_le hfresh⟩

theorem Ordered.remove (h : Ordered cfg s) : Ordered cfg (s.remove p w) where
  locked m hm := by
    have hold := h.locked m hm
    rw [State.remove_prims]
    grind
  count_nonneg q hq := by
    have hold := h.count_nonneg q hq
    rw [State.remove_prims]
    grind
  count_pos q hq := by
    have hold := h.count_pos q hq
    rw [State.remove_prims]
    grind
  fifo q := by
    have hold := h.fifo q
    rw [State.remove_prims, State.remove_history]
    split
    · exact ((List.erase_sublist).append_left _).trans hold
    · exact hold
  arrivals q hq := by
    rw [State.remove_history, State.remove_fresh]
    exact h.arrivals q hq

/-- The first wait of a queue is taken off it and granted. -/
theorem Ordered.pop (h : Ordered cfg s) {rest : List WaitId} (hq : (s.prims p).queue = w :: rest) :
    Ordered cfg ((s.remove p w).modifyHistory p fun h => { h with grants := h.grants ++ [w] }) where
  locked := (h.remove (p := p) (w := w)).locked
  count_nonneg := (h.remove (p := p) (w := w)).count_nonneg
  count_pos := (h.remove (p := p) (w := w)).count_pos
  fifo q := by
    have hold := h.fifo q
    rw [State.modifyHistory_prims, State.remove_prims, State.modifyHistory_history,
      State.remove_history]
    split
    · next he =>
      subst he
      rw [hq] at hold ⊢
      simpa only [List.erase_cons_head, List.append_assoc, List.singleton_append] using hold
    · exact hold
  arrivals q hq := by
    have hold := h.arrivals q hq
    rw [State.modifyHistory_history, State.remove_history, State.modifyHistory_fresh,
      State.remove_fresh]
    split <;> exact hold

theorem Ordered.insert (h : Ordered cfg s)
    (hmutex : cfg.kind p = .mutex → (s.prims p).locked = true)
    (hsem : cfg.kind p = .semaphore → (s.prims p).count ≤ 0 ∧ w < s.fresh ∧
      ∀ v ∈ (s.history p).arrivals, v < w) : Ordered cfg (s.insert p w) where
  locked m hm := by
    have hold := h.locked m hm
    rw [State.insert_prims]
    grind
  count_nonneg q hq := by
    have hold := h.count_nonneg q hq
    rw [State.insert_prims]
    grind
  count_pos q hq := by
    have hold := h.count_pos q hq
    rw [State.insert_prims]
    grind
  fifo q := by
    have hold := h.fifo q
    rw [State.insert_prims, State.insert_history]
    split
    · rw [← List.append_assoc]
      exact hold.append (List.Sublist.refl [w])
    · exact hold
  arrivals q hq := by
    obtain ⟨hpair, hlt⟩ := h.arrivals q hq
    rw [State.insert_history, State.insert_fresh]
    split
    · next he =>
      subst he
      obtain ⟨_, hw, hall⟩ := hsem hq
      refine ⟨List.pairwise_append.mpr ⟨hpair, List.pairwise_singleton _ w, ?_⟩, ?_⟩
      · intro v hv x hx
        rw [List.mem_singleton.mp hx]
        exact hall v hv
      · intro v hv
        rcases List.mem_append.mp hv with hv | hv
        · exact hlt v hv
        · rwa [List.mem_singleton.mp hv]
    · exact ⟨hpair, hlt⟩

/-- A change of one primitive's state that frees it only when nothing waits. -/
theorem Ordered.modifyPrim (h : Ordered cfg s) (hqueue : (f (s.prims p)).queue = (s.prims p).queue)
    (hmutex : cfg.kind p = .mutex → (f (s.prims p)).locked = false → (s.prims p).queue = [])
    (hsem : cfg.kind p = .semaphore → 0 ≤ (f (s.prims p)).count ∧
      (0 < (f (s.prims p)).count → (s.prims p).queue = [])) : Ordered cfg (s.modifyPrim p f) where
  locked m hm := by
    have hold := h.locked m hm
    rw [State.modifyPrim_prims]
    grind
  count_nonneg q hq := by
    have hold := h.count_nonneg q hq
    rw [State.modifyPrim_prims]
    grind
  count_pos q hq := by
    have hold := h.count_pos q hq
    rw [State.modifyPrim_prims]
    grind
  fifo q := by
    have hold := h.fifo q
    rw [State.modifyPrim_prims]
    split
    · next he =>
      subst he
      rw [hqueue]
      exact hold
    · exact hold
  arrivals := h.arrivals

end Ordered

end Kotatsu.Async.Sync
