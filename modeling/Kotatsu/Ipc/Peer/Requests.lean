import Kotatsu.Ipc.Peer.Model

/-!
# Every request settles once

The table of pending requests and the deadlines hold exactly the requests nobody
has settled. Each request is settled at most once, whatever ends race for it, and
once no answer can come none is left. The remote is told at most once that a
request is not awaited any more.
-/

namespace Kotatsu.Ipc.Peer

open Kotatsu.Core

variable {s s' : State} {k j : PendingId} {wire : Wire}

/-- A request that was made, is not settled, and whose sender is there. -/
def State.Live (s : State) (k : PendingId) : Prop :=
  k < s.made ∧ (s.requests k).response = none ∧ (s.requests k).unwound = false

/-- No answer can come any more. -/
def State.Ended (s : State) : Prop := s.inputOpen = false ∨ s.closed = true ∨ s.destroyed = true

/-- The tables and the records agree with the requests. -/
structure Tables (s : State) : Prop where
  id : ∀ k, k < s.made → ∃ n, (s.requests k).id = .number n ∧ n < s.nextRequestId
  id_inj : ∀ k j, k < s.made → j < s.made → (s.requests k).id = (s.requests j).id → k = j
  pending : ∀ id k, (id, k) ∈ s.pendingRequests ↔ s.Live k ∧ (s.requests k).id = id
  nodup_pending : s.pendingRequests.Nodup
  deadlines : ∀ time k, (time, k) ∈ s.deadlines ↔ s.Live k ∧ (s.requests k).deadline = some time
  nodup_deadlines : s.deadlines.Nodup
  sorted : s.deadlines.Pairwise fun a b => a.1 ≤ b.1
  settled : ∀ k, s.settlements.count k =
    if k < s.made ∧ (s.requests k).response.isSome = true then 1 else 0
  cancels : ∀ k, k < s.made →
    s.cancelsSent.count (s.requests k).id ≤ if (s.requests k).cancelSent = true then 1 else 0
  cancels_id : ∀ id ∈ s.cancelsSent, ∃ k, k < s.made ∧ (s.requests k).id = id

/-- What holds between two calls. -/
structure Inv (s : State) : Prop extends Tables s where
  ended : s.Ended → s.pendingRequests = []

/-! ## What a step leaves as it is -/

/-- The tables, the requests and the records are the same. -/
structure Same (s s' : State) : Prop where
  nextRequestId : s'.nextRequestId = s.nextRequestId
  pendingRequests : s'.pendingRequests = s.pendingRequests
  deadlines : s'.deadlines = s.deadlines
  requests : s'.requests = s.requests
  made : s'.made = s.made
  settlements : s'.settlements = s.settlements
  cancelsSent : s'.cancelsSent = s.cancelsSent

/-- Nothing but the output has changed. -/
structure Still (s s' : State) : Prop extends Same s s' where
  ends : s'.Ended ↔ s.Ended

theorem Still.refl (s : State) : Still s s := ⟨⟨rfl, rfl, rfl, rfl, rfl, rfl, rfl⟩, Iff.rfl⟩

theorem Tables.same (h : Tables s) (hs : Same s s') : Tables s' := by
  obtain ⟨h₁, h₂, h₃, h₄, h₅, h₆, h₇⟩ := hs
  have hlive : ∀ k, s'.Live k ↔ s.Live k := by
    intro k
    rw [State.Live, State.Live, h₄, h₅]
  constructor
  · rw [h₁, h₄, h₅]
    exact h.id
  · rw [h₄, h₅]
    exact h.id_inj
  · intro id k
    rw [h₂, h₄, hlive]
    exact h.pending id k
  · rw [h₂]
    exact h.nodup_pending
  · intro time k
    rw [h₃, h₄, hlive]
    exact h.deadlines time k
  · rw [h₃]
    exact h.nodup_deadlines
  · rw [h₃]
    exact h.sorted
  · rw [h₄, h₅, h₆]
    exact h.settled
  · rw [h₄, h₅, h₇]
    exact h.cancels
  · rw [h₄, h₅, h₇]
    exact h.cancels_id

namespace State

theorem enqueueOutgoing_still (s : State) (payload : Bytes) :
    Still s (s.enqueueOutgoing payload) := by
  unfold enqueueOutgoing
  split
  · exact Still.refl s
  · exact ⟨⟨rfl, rfl, rfl, rfl, rfl, rfl, rfl⟩, Iff.rfl⟩

theorem sendAnswer_still (s : State) (wire : Wire) (id : Option RequestId) (response : Bytes) :
    Still s (s.sendAnswer wire id response) := by
  unfold sendAnswer
  split
  · exact s.enqueueOutgoing_still response
  · split
    · split
      · exact s.enqueueOutgoing_still _
      · exact Still.refl s
    · exact Still.refl s

theorem sendError_still (s : State) (wire : Wire) (id : Option RequestId) (error : Error) :
    Still s (s.sendError wire id error) := by
  unfold sendError
  split
  · exact s.sendAnswer_still wire id _
  · exact Still.refl s

theorem sendNotification_still {encoded : Except Error Bytes}
    (h : s.sendNotification wire encoded = .ok s') : Still s s' := by
  unfold sendNotification at h
  split at h
  · cases h
  · split at h
    · cases h
    · split at h
      · obtain rfl := Except.ok.inj h
        exact s.enqueueOutgoing_still _
      · cases h

/-- `send_cancel_request` queues at most the one message. -/
theorem sendCancelRequest_cases (s : State) (wire : Wire) (id : RequestId) :
    s.sendCancelRequest wire id = (false, s) ∨
      ∃ t, Still s t ∧ s.sendCancelRequest wire id =
        (true, { t with cancelsSent := t.cancelsSent ++ [id] }) := by
  unfold sendCancelRequest
  split
  · next t heq => exact Or.inr ⟨t, sendNotification_still heq, rfl⟩
  · exact Or.inl rfl

@[simp] theorem modifyRequest_requests (s : State) (k j : PendingId)
    (f : PendingRequest → PendingRequest) :
    (s.modifyRequest k f).requests j = if j = k then f (s.requests j) else s.requests j := by
  simp only [modifyRequest, Function.update_apply]
  split <;> simp_all

end State

/-! ## Settling -/

/-- A live request is taken off the tables, being settled or left. -/
theorem Tables.retire (h : Tables s) (hk : s.Live k) {f : PendingRequest → PendingRequest}
    (hsame : (f (s.requests k)).id = (s.requests k).id ∧
      (f (s.requests k)).deadline = (s.requests k).deadline ∧
      (f (s.requests k)).cancelSent = (s.requests k).cancelSent)
    (hover : (f (s.requests k)).response ≠ none ∨ (f (s.requests k)).unwound = true)
    {settlements : List PendingId} (hsettled : ∀ j, settlements.count j =
      if j < s.made ∧ (((s.forget k).modifyRequest k f).requests j).response.isSome = true then 1
      else 0) :
    Tables { (s.forget k).modifyRequest k f with settlements := settlements } := by
  have hreq : ∀ j, ((s.forget k).modifyRequest k f).requests j =
      if j = k then f (s.requests j) else s.requests j := fun j =>
    State.modifyRequest_requests (s.forget k) k j f
  have hid : ∀ j, (((s.forget k).modifyRequest k f).requests j).id = (s.requests j).id := by
    intro j
    rw [hreq]
    grind
  have hlive : ∀ j, State.Live { (s.forget k).modifyRequest k f with settlements := settlements } j ↔
      s.Live j ∧ j ≠ k := by
    intro j
    change j < s.made ∧ (((s.forget k).modifyRequest k f).requests j).response = none ∧
      (((s.forget k).modifyRequest k f).requests j).unwound = false ↔ _
    rw [hreq]
    unfold State.Live
    grind
  have hinj := h.id_inj
  constructor
  · intro j hj
    dsimp only
    rw [hid]
    exact h.id j hj
  · intro i j hi hj
    dsimp only
    rw [hid, hid]
    exact h.id_inj i j hi hj
  · intro id j
    rw [hlive]
    dsimp only
    rw [hid]
    change (id, j) ∈ s.pendingRequests.filter (·.1 ≠ (s.requests k).id) ↔ _
    rw [List.mem_filter, h.pending]
    have := hinj j k
    unfold State.Live at hk ⊢
    grind
  · exact h.nodup_pending.filter _
  · intro time j
    rw [hlive]
    dsimp only
    rw [hreq]
    change (time, j) ∈ (if (s.requests k).deadline.isSome then s.deadlines.filter (·.2 ≠ k)
      else s.deadlines) ↔ _
    have := h.deadlines time j
    split
    · rw [List.mem_filter]
      grind
    · grind
  · change (if (s.requests k).deadline.isSome then s.deadlines.filter (·.2 ≠ k)
      else s.deadlines).Nodup
    split
    · exact h.nodup_deadlines.filter _
    · exact h.nodup_deadlines
  · change (if (s.requests k).deadline.isSome then s.deadlines.filter (·.2 ≠ k)
      else s.deadlines).Pairwise _
    split
    · exact h.sorted.filter _
    · exact h.sorted
  · exact hsettled
  · intro j hj
    have := h.cancels j hj
    dsimp only
    rw [hid, hreq]
    change s.cancelsSent.count _ ≤ _
    grind
  · intro id hm
    obtain ⟨j, hj, he⟩ := h.cancels_id id hm
    refine ⟨j, hj, ?_⟩
    dsimp only
    rw [hid, he]

/-- Settling a live request keeps the tables in step. -/
theorem Tables.settle (h : Tables s) (hk : s.Live k) (response : Except Error Bytes) :
    Tables (s.settle k response) := by
  refine h.retire hk (f := fun x => { x with response := some response }) ⟨rfl, rfl, rfl⟩
    (Or.inl nofun) ?_
  intro j
  have hold := h.settled j
  rw [State.modifyRequest_requests]
  change (s.settlements ++ [k]).count j =
    if j < s.made ∧ (if j = k then { s.requests j with response := some response }
      else s.requests j).response.isSome = true then 1 else 0
  unfold State.Live at hk
  rw [List.count_append, hold, List.count_singleton]
  grind

/-- What a call does that sends no request and ends nothing. -/
structure After (s s' : State) : Prop where
  tables : Tables s'
  live : ∀ k, s'.Live k → s.Live k
  made : s'.made = s.made
  responses : ∀ k r, k < s.made → (s.requests k).response = some r →
    (s'.requests k).response = some r
  ends : s'.Ended ↔ s.Ended

theorem Tables.refl (h : Tables s) : After s s :=
  ⟨h, fun _ hk => hk, rfl, fun _ _ _ hr => hr, Iff.rfl⟩

theorem After.trans {s'' : State} (h : After s s') (h' : After s' s'') : After s s'' :=
  ⟨h'.tables, fun k hk => h.live k (h'.live k hk), h'.made.trans h.made,
    fun k r hk hr => h'.responses k r (h.made ▸ hk) (h.responses k r hk hr), h'.ends.trans h.ends⟩

theorem Tables.still (h : Tables s) (hs : Still s s') : After s s' := by
  refine ⟨h.same hs.toSame, ?_, hs.made, ?_, hs.ends⟩
  · intro k hk
    rwa [State.Live, hs.requests, hs.made] at hk
  · intro k r _ hr
    rwa [hs.requests]

/-- What is live is in the table, so a table of nothing live is empty. -/
theorem Tables.pending_nil (h : Tables s) (hl : ∀ k, ¬s.Live k) : s.pendingRequests = [] := by
  apply List.eq_nil_iff_forall_not_mem.mpr
  rintro ⟨id, k⟩ hm
  exact hl k ((h.pending id k).mp hm).1

theorem Tables.not_live (h : Tables s) (hn : s.pendingRequests = []) (k : PendingId) :
    ¬s.Live k := by
  intro hk
  have hm := (h.pending _ k).mpr ⟨hk, rfl⟩
  rw [hn] at hm
  cases hm

theorem After.inv (h : After s s') (hi : Inv s) : Inv s' := by
  refine ⟨h.tables, fun he => h.tables.pending_nil fun k hk => ?_⟩
  exact hi.toTables.not_live (hi.ended (h.ends.mp he)) k (h.live k hk)

theorem State.settle_requests (s : State) (k j : PendingId) (response : Except Error Bytes) :
    (s.settle k response).requests j =
      if j = k then { s.requests j with response := some response } else s.requests j :=
  State.modifyRequest_requests (s.forget k) k j fun x => { x with response := some response }

theorem State.settle_live (s : State) (k j : PendingId) (response : Except Error Bytes) :
    (s.settle k response).Live j ↔ s.Live j ∧ j ≠ k := by
  change j < s.made ∧ ((s.settle k response).requests j).response = none ∧
    ((s.settle k response).requests j).unwound = false ↔ _
  rw [State.settle_requests]
  unfold State.Live
  grind

theorem Tables.settle_after (h : Tables s) (hk : s.Live k) (response : Except Error Bytes) :
    After s (s.settle k response) := by
  refine ⟨h.settle hk response, fun j hj => ((s.settle_live k j response).mp hj).1, rfl, ?_,
    Iff.rfl⟩
  intro j r _ hr
  rw [State.settle_requests]
  have := hk.2.1
  grind

/-- Settling live requests one after the other. -/
theorem Tables.settleAll (e : Error) (ks : List PendingId) (h : Tables s) (hn : ks.Nodup)
    (hl : ∀ k ∈ ks, s.Live k) :
    After s (ks.foldl (fun s k => s.settle k (.error e)) s) ∧
      ∀ j, (ks.foldl (fun s k => s.settle k (.error e)) s).Live j → j ∉ ks := by
  induction ks generalizing s with
  | nil => exact ⟨h.refl, fun _ _ => List.not_mem_nil⟩
  | cons k ks ih =>
    obtain ⟨hk, hn⟩ := List.nodup_cons.mp hn
    have hone := h.settle_after (hl k (List.mem_cons_self ..)) (.error e)
    have hrest : ∀ j ∈ ks, (s.settle k (.error e)).Live j := by
      intro j hj
      rw [State.settle_live]
      exact ⟨hl j (List.mem_cons_of_mem _ hj), fun he => hk (he ▸ hj)⟩
    obtain ⟨hafter, hnone⟩ := ih hone.tables hn hrest
    refine ⟨hone.trans hafter, ?_⟩
    intro j hj
    rw [List.mem_cons, not_or]
    exact ⟨((s.settle_live k j _).mp (hafter.live j hj)).2, hnone j hj⟩

/-- Failing what is pending leaves nothing pending. -/
theorem Tables.failPendingRequests (h : Tables s) (e : Error) :
    After s (s.failPendingRequests e) ∧ (s.failPendingRequests e).pendingRequests = [] := by
  have hlive : ∀ k ∈ s.pendingRequests.map (·.2), s.Live k := by
    intro k hk
    obtain ⟨⟨id, j⟩, hm, rfl⟩ := List.mem_map.mp hk
    exact ((h.pending id j).mp hm).1
  have hnodup : (s.pendingRequests.map (·.2)).Nodup := by
    apply h.nodup_pending.map_on
    rintro ⟨i, k⟩ hi ⟨j, k'⟩ hj rfl
    rw [h.pending] at hi hj
    rw [← hi.2, ← hj.2]
  obtain ⟨hafter, hnone⟩ := h.settleAll e _ hnodup hlive
  refine ⟨hafter, hafter.tables.pending_nil fun k hk => hnone k hk ?_⟩
  exact List.mem_map.mpr ⟨_, (h.pending _ k).mpr ⟨hafter.live k hk, rfl⟩, rfl⟩

theorem State.failPendingRequests_ended (s : State) (e : Error) :
    (s.failPendingRequests e).Ended ↔ s.Ended := by
  unfold State.failPendingRequests
  generalize s.pendingRequests.map (·.2) = ks
  induction ks generalizing s with
  | nil => exact Iff.rfl
  | cons k ks ih => exact ih (s.settle k (.error e))

theorem Tables.completePendingRequest (h : Tables s) (id : RequestId)
    (response : Except Error Bytes) : After s (s.completePendingRequest id response) := by
  unfold State.completePendingRequest
  split
  · exact h.refl
  · next k hk =>
    obtain ⟨before, after, he, _⟩ := List.lookup_eq_some_iff.mp hk
    have hm : (id, k) ∈ s.pendingRequests := by
      rw [he]
      exact List.mem_append_right _ (List.mem_cons_self ..)
    exact h.settle_after ((h.pending id k).mp hm).1 response

/-! ## Cancels and timeouts -/

/-- A request is marked as told of, once, and the remote is told or not. -/
private theorem Tables.told (h : Tables s) (hk : k < s.made)
    (hc : (s.requests k).cancelSent = false) {cancels : List RequestId}
    (hcancels : cancels = s.cancelsSent ∨ cancels = s.cancelsSent ++ [(s.requests k).id]) :
    After s { s.modifyRequest k fun x => { x with cancelSent := true } with
      cancelsSent := cancels } ∧
      ∀ j, State.Live { s.modifyRequest k fun x => { x with cancelSent := true } with
        cancelsSent := cancels } j ↔ s.Live j := by
  have hreq : ∀ j, (s.modifyRequest k fun x => { x with cancelSent := true }).requests j =
      if j = k then { s.requests j with cancelSent := true } else s.requests j := fun j =>
    s.modifyRequest_requests k j _
  have hid : ∀ j, ((s.modifyRequest k fun x => { x with cancelSent := true }).requests j).id =
      (s.requests j).id := by
    intro j
    rw [hreq]
    split <;> rfl
  have hlive : ∀ j, State.Live { s.modifyRequest k fun x => { x with cancelSent := true } with
        cancelsSent := cancels } j ↔ s.Live j := by
    intro j
    unfold State.Live
    dsimp only
    rw [hreq]
    split <;> rfl
  refine ⟨⟨?_, fun j hj => (hlive j).mp hj, rfl, ?_, Iff.rfl⟩, hlive⟩
  · constructor
    · intro j hj
      dsimp only
      rw [hid]
      exact h.id j hj
    · intro i j hi hj
      dsimp only
      rw [hid, hid]
      exact h.id_inj i j hi hj
    · intro id j
      rw [hlive]
      dsimp only
      rw [hid]
      exact h.pending id j
    · exact h.nodup_pending
    · intro time j
      rw [hlive]
      dsimp only
      rw [hreq]
      have := h.deadlines time j
      split <;> exact this
    · exact h.nodup_deadlines
    · exact h.sorted
    · intro j
      dsimp only
      rw [hreq]
      have := h.settled j
      split <;> exact this
    · intro j hj
      dsimp only
      rw [hid, hreq]
      have hj' := h.cancels j hj
      have hk' := h.cancels k hk
      have hinj := h.id_inj j k hj hk
      rcases hcancels with rfl | rfl
      · grind
      · rw [List.count_append, List.count_singleton]
        grind
    · intro id hm
      dsimp only at hm
      have hold : id ∈ s.cancelsSent ∨ id = (s.requests k).id := by
        rcases hcancels with rfl | rfl
        · exact Or.inl hm
        · rwa [List.mem_append, List.mem_singleton] at hm
      rcases hold with hold | rfl
      · obtain ⟨j, hj, he⟩ := h.cancels_id id hold
        exact ⟨j, hj, (hid j).trans he⟩
      · exact ⟨k, hk, hid k⟩
  · intro j r _ hr
    dsimp only
    rw [hreq]
    split <;> exact hr

/-- The remote is told, at most once, that a request is not awaited any more. -/
theorem Tables.tell (h : Tables s) (hk : k < s.made) (hc : (s.requests k).cancelSent = false)
    (wire : Wire) :
    After s ((s.modifyRequest k fun x => { x with cancelSent := true }).sendCancelRequest wire
      (s.requests k).id).2 ∧
      ∀ j, ((s.modifyRequest k fun x => { x with cancelSent := true }).sendCancelRequest wire
        (s.requests k).id).2.Live j ↔ s.Live j := by
  rcases State.sendCancelRequest_cases (s.modifyRequest k fun x => { x with cancelSent := true })
    wire (s.requests k).id with he | ⟨t, ht, he⟩ <;> rw [he]
  · exact h.told hk hc (Or.inl rfl)
  · obtain ⟨htold, hlive⟩ := h.told hk hc (Or.inr rfl)
    have hstill : Still { s.modifyRequest k fun x => { x with cancelSent := true } with
        cancelsSent := s.cancelsSent ++ [(s.requests k).id] }
        { t with cancelsSent := t.cancelsSent ++ [(s.requests k).id] } := by
      refine ⟨⟨ht.nextRequestId, ht.pendingRequests, ht.deadlines, ht.requests, ht.made,
        ht.settlements, ?_⟩, ht.ends⟩
      dsimp only
      rw [ht.cancelsSent]
      rfl
    refine ⟨htold.trans (htold.tables.still hstill), ?_⟩
    intro j
    rw [← hlive j, State.Live, State.Live, hstill.requests, hstill.made]

/-- A cancel of a request tells the remote, or settles it where that cannot be. -/
theorem Tables.cancelRemote (h : Tables s) (hk : k < s.made)
    (hu : (s.requests k).unwound = false) (wire : Wire) : After s (s.cancelRemote wire k) := by
  unfold State.cancelRemote
  dsimp only
  split
  · exact h.refl
  · next hx =>
    simp only [Bool.or_eq_true, not_or, Bool.not_eq_true, Option.isSome_eq_false_iff,
      Option.isNone_iff_eq_none] at hx
    obtain ⟨htold, hlive⟩ := h.tell hk hx.2 wire
    split
    · next heq =>
      rw [heq] at htold
      exact htold
    · next heq =>
      rw [heq] at htold hlive
      exact htold.trans (htold.tables.settle_after ((hlive k).mpr ⟨hk, hx.1, hu⟩) _)

/-- A timeout tells the remote, unless a cancel has, and settles the request. -/
theorem Tables.expire (h : Tables s) (hk : s.Live k) (wire : Wire) :
    After s (s.expire wire k) := by
  unfold State.expire
  dsimp only
  split
  · exact h.settle_after hk _
  · next hc =>
    obtain ⟨htold, hlive⟩ := h.tell hk.1 (Bool.eq_false_iff.mpr hc) wire
    exact htold.trans (htold.tables.settle_after ((hlive k).mpr hk) _)

theorem Tables.expireTimes (wire : Wire) (now : Int) (n : Nat) (h : Tables s) :
    After s (State.expireTimes wire now n s) := by
  induction n generalizing s with
  | zero => exact h.refl
  | succ n ih =>
    unfold State.expireTimes
    split
    · exact h.refl
    · next time k rest hd =>
      split
      · have hk := ((h.deadlines time k).mp (by rw [hd]; exact List.mem_cons_self ..)).1
        have hone := h.expire hk wire
        exact hone.trans (ih hone.tables)
      · exact h.refl

/-! ## New requests -/

theorem pairwise_insertDeadline {time : Int} {entries : List (Int × PendingId)}
    (h : entries.Pairwise fun a b => a.1 ≤ b.1) :
    (State.insertDeadline time k entries).Pairwise fun a b => a.1 ≤ b.1 := by
  unfold State.insertDeadline
  induction entries with
  | nil => exact List.pairwise_singleton _ _
  | cons entry entries ih =>
    obtain ⟨hentry, hrest⟩ := List.pairwise_cons.mp h
    rw [List.orderedInsert_cons]
    split
    · next hlt =>
      refine List.pairwise_cons.mpr ⟨?_, h⟩
      intro b hb
      rcases List.mem_cons.mp hb with rfl | hb
      · exact hlt.le
      · exact hlt.le.trans (hentry b hb)
    · next hle =>
      refine List.pairwise_cons.mpr ⟨?_, ih hrest⟩
      intro b hb
      rcases (List.mem_orderedInsert _).mp hb with rfl | hb
      · exact not_lt.mp hle
      · exact hentry b hb

/-- Filing the deadline of a live request that has none. -/
theorem Tables.fileDeadline (h : Tables s) (hk : s.Live k) (hd : (s.requests k).deadline = none)
    (now timeout : Int) : Tables (s.fileDeadline k now timeout) := by
  have hreq : ∀ j, (s.fileDeadline k now timeout).requests j = if j = k then
      { s.requests j with deadline := some (State.deadlineAt now timeout) }
      else s.requests j := fun j =>
    State.modifyRequest_requests _ k j
      fun x => { x with deadline := some (State.deadlineAt now timeout) }
  have hid : ∀ j, ((s.fileDeadline k now timeout).requests j).id = (s.requests j).id := by
    intro j
    rw [hreq]
    split <;> rfl
  have hlive : ∀ j, (s.fileDeadline k now timeout).Live j ↔ s.Live j := by
    intro j
    change j < s.made ∧ ((s.fileDeadline k now timeout).requests j).response = none ∧
      ((s.fileDeadline k now timeout).requests j).unwound = false ↔ _
    rw [hreq]
    split <;> rfl
  have hmem : ∀ entry, entry ∈ (s.fileDeadline k now timeout).deadlines ↔
      entry = (State.deadlineAt now timeout, k) ∨ entry ∈ s.deadlines := fun entry =>
    List.mem_orderedInsert _
  constructor
  · intro j hj
    rw [hid]
    exact h.id j hj
  · intro i j hi hj
    rw [hid, hid]
    exact h.id_inj i j hi hj
  · intro id j
    rw [hlive, hid]
    exact h.pending id j
  · exact h.nodup_pending
  · intro time j
    rw [hmem, hlive, hreq, Prod.mk.injEq]
    have := h.deadlines time j
    grind
  · apply (List.perm_orderedInsert _ _ _).nodup_iff.mpr
    refine List.nodup_cons.mpr ⟨?_, h.nodup_deadlines⟩
    intro hm
    have := ((h.deadlines _ k).mp hm).2
    rw [hd] at this
    cases this
  · exact pairwise_insertDeadline h.sorted
  · intro j
    rw [hreq]
    have := h.settled j
    split <;> exact this
  · intro j hj
    rw [hid, hreq]
    have := h.cancels j hj
    split <;> exact this
  · intro id hm
    obtain ⟨j, hj, he⟩ := h.cancels_id id hm
    exact ⟨j, hj, (hid j).trans he⟩

/-- A request with an id of its own is put in the table. -/
theorem Tables.register (h : Tables s) {n : Int} (hn : n < s.nextRequestId)
    (hnew : ∀ k, k < s.made → (s.requests k).id ≠ .number n)
    (hmade : s'.made = s.made + 1)
    (hreq : ∀ j, s'.requests j = if j = s.made then { id := .number n } else s.requests j)
    (hpending : s'.pendingRequests = s.pendingRequests ++ [(.number n, s.made)])
    (hnext : s'.nextRequestId = s.nextRequestId) (hdeadlines : s'.deadlines = s.deadlines)
    (hsettlements : s'.settlements = s.settlements) (hcancels : s'.cancelsSent = s.cancelsSent) :
    Tables s' ∧ ∀ j, s'.Live j ↔ s.Live j ∨ j = s.made := by
  have hlive : ∀ j, s'.Live j ↔ s.Live j ∨ j = s.made := by
    intro j
    rw [State.Live, State.Live, hmade, hreq]
    grind
  have hlt : ∀ {j}, j < s'.made → j ≠ s.made → j < s.made := by
    intro j hj hne
    rw [hmade] at hj
    exact Nat.lt_of_le_of_ne (Nat.lt_succ_iff.mp hj) hne
  refine ⟨?_, hlive⟩
  constructor
  · intro j hj
    rw [hreq, hnext]
    split
    · exact ⟨n, rfl, hn⟩
    · next hne => exact h.id j (hlt hj hne)
  · intro i j hi hj
    rw [hreq, hreq]
    have := h.id_inj i j
    have hi' := hnew i
    have hj' := hnew j
    grind
  · intro id j
    rw [hlive, hreq, hpending, List.mem_append, List.mem_singleton, h.pending id j, Prod.mk.injEq]
    unfold State.Live
    grind
  · rw [hpending]
    refine List.nodup_append.mpr ⟨h.nodup_pending, List.nodup_singleton _, ?_⟩
    rintro ⟨id, j⟩ hm _ he
    rw [List.mem_singleton] at he
    subst he
    intro heq
    obtain ⟨rfl, rfl⟩ := Prod.mk.inj heq
    exact absurd ((h.pending _ _).mp hm).1.1 (Nat.lt_irrefl _)
  · intro time j
    rw [hlive, hreq, hdeadlines, h.deadlines time j]
    unfold State.Live
    grind
  · rw [hdeadlines]
    exact h.nodup_deadlines
  · rw [hdeadlines]
    exact h.sorted
  · intro j
    rw [hsettlements, h.settled j, hreq, hmade]
    grind
  · intro j hj
    rw [hreq, hcancels]
    split
    · have hzero : s.cancelsSent.count (.number n) = 0 := by
        apply List.count_eq_zero_of_not_mem
        intro hm
        obtain ⟨k, hk, he⟩ := h.cancels_id _ hm
        exact hnew k hk he
      rw [hzero]
      exact Nat.zero_le _
    · next hne => exact h.cancels j (hlt hj hne)
  · intro id hm
    rw [hcancels] at hm
    obtain ⟨k, hk, he⟩ := h.cancels_id id hm
    refine ⟨k, by rw [hmade]; exact Nat.lt_succ_of_lt hk, ?_⟩
    rw [hreq]
    grind

/-! ## Steps -/

/-- What every call does. -/
structure Onward (s s' : State) : Prop where
  inv : Inv s'
  made : s.made ≤ s'.made
  responses : ∀ k r, k < s.made → (s.requests k).response = some r →
    (s'.requests k).response = some r
  ended : s.Ended → s'.Ended ∧ s'.made = s.made

theorem After.onward (h : After s s') (hi : Inv s) : Onward s s' :=
  ⟨h.inv hi, h.made.ge, h.responses, fun he => ⟨h.ends.mpr he, h.made⟩⟩

/-- A call that ends the conversation fails what is pending. -/
theorem Inv.end (h : Inv s) {t : State} (hs : Same s t) (e : Error)
    (hs' : Same (t.failPendingRequests e) s') (hended : s'.Ended) : Onward s s' := by
  obtain ⟨hafter, hnil⟩ := (h.toTables.same hs).failPendingRequests e
  refine ⟨⟨hafter.tables.same hs', fun _ => hs'.pendingRequests.trans hnil⟩, ?_, ?_, ?_⟩
  · rw [hs'.made, hafter.made, hs.made]
  · intro k r hk hr
    rw [hs'.requests]
    exact hafter.responses k r (hs.made ▸ hk) (by rwa [hs.requests])
  · exact fun _ => ⟨hended, by rw [hs'.made, hafter.made, hs.made]⟩

/-- A request is accepted only while an answer can come. -/
theorem State.refuseRequest_none {opts : RequestOptions} (h : s.refuseRequest opts = none) :
    s.closed = false ∧ s.inputOpen = true := by
  unfold State.refuseRequest at h
  split at h
  · cases h
  · split at h
    · cases h
    · next hu =>
      unfold State.unsendable at hu
      grind

/-- Registering a request, with its deadline if it has one. -/
theorem Inv.sendRequestImpl (h : Inv s) {n : Int} (hn : n < s.nextRequestId)
    (hnew : ∀ k, k < s.made → (s.requests k).id ≠ .number n) (hopen : ¬s.Ended) (wire : Wire)
    (request : Bytes) (timeout : Option Int) (now : Int) :
    Onward s (s.sendRequestImpl wire (.number n) request timeout now) := by
  have hrefl : Onward s s := h.toTables.refl.onward h
  unfold State.sendRequestImpl
  split
  · have hfresh : s.pendingRequests.any (·.1 = .number n) = false := by
      apply List.any_eq_false.mpr
      rintro ⟨id, k⟩ hm
      obtain ⟨hl, he⟩ := (h.pending id k).mp hm
      simpa [← he] using hnew k hl.1
    simp only [hfresh, Bool.false_eq_true, ite_false]
    generalize ht : ({ s with
      made := s.made + 1
      requests := Function.update s.requests s.made { id := .number n }
      pendingRequests := s.pendingRequests ++ [(.number n, s.made)] } : State) = t
    have hreq : ∀ j, t.requests j =
        if j = s.made then { id := .number n } else s.requests j := by
      intro j
      rw [← ht]
      exact Function.update_apply _ _ _ _
    have hmade : t.made = s.made + 1 := by rw [← ht]
    have hends : t.Ended ↔ s.Ended := by rw [← ht]; rfl
    obtain ⟨htables, hlive⟩ := h.toTables.register hn hnew hmade hreq (by rw [← ht]) (by rw [← ht])
      (by rw [← ht]) (by rw [← ht]) (by rw [← ht])
    have hdone : ∀ u, Tables u → u.made = t.made → (u.Ended ↔ t.Ended) →
        (∀ j, (u.requests j).response = (t.requests j).response) →
        Onward s (u.enqueueOutgoing request) := by
      intro u hu hum hue hur
      have hstill := u.enqueueOutgoing_still request
      refine ⟨⟨hu.same hstill.toSame, ?_⟩, ?_, ?_, fun he => absurd he hopen⟩
      · intro he
        exact absurd (hends.mp (hue.mp (hstill.ends.mp he))) hopen
      · rw [hstill.made, hum, hmade]
        exact Nat.le_succ _
      · intro k r hk hr
        rw [hstill.requests, hur, hreq]
        have hne : k ≠ s.made := Nat.ne_of_lt hk
        simpa only [hne, ite_false] using hr
    cases timeout with
    | none => exact hdone t htables rfl Iff.rfl (fun _ => rfl)
    | some timeout =>
      refine hdone _ (htables.fileDeadline ((hlive s.made).mpr (Or.inr rfl)) ?_ now timeout) rfl
        Iff.rfl ?_
      · rw [hreq]
        simp
      · intro j
        unfold State.fileDeadline
        dsimp only
        rw [State.modifyRequest_requests]
        split <;> rfl
  · exact hrefl

/-- A request that is made has the deadline of the timeout it was sent with. -/
theorem State.sendRequest_deadline {opts : RequestOptions} {now : Int}
    (hs : s.sendRequest wire opts now = some s') (hmade : s.made < s'.made) :
    (s'.requests s.made).deadline = opts.timeout.map (State.deadlineAt now) := by
  unfold State.sendRequest at hs
  split at hs
  · cases hs
    exact absurd hmade (Nat.lt_irrefl _)
  · split at hs
    · dsimp only at hs
      split at hs
      · cases hs
        exact absurd hmade (Nat.lt_irrefl _)
      · cases hs
        unfold State.sendRequestImpl at hmade ⊢
        split
        · rw [(State.enqueueOutgoing_still _ _).requests]
          cases opts.timeout <;> simp [State.fileDeadline, State.modifyRequest]
        · next hfits =>
          rw [if_neg hfits] at hmade
          exact absurd hmade (Nat.lt_irrefl _)
    · cases hs

theorem Inv.sendRequest (h : Inv s) (hd : s.destroyed = false) {opts : RequestOptions} {now : Int}
    (hs : s.sendRequest wire opts now = some s') : Onward s s' := by
  have hrefl : Onward s s := h.toTables.refl.onward h
  unfold State.sendRequest at hs
  split at hs
  · cases hs
    exact hrefl
  · next hr =>
    obtain ⟨hc, hi⟩ := State.refuseRequest_none hr
    have hopen : ¬s.Ended := by
      unfold State.Ended
      simp [hc, hi, hd]
    split at hs
    · have hcount : Inv { s with nextRequestId := s.nextRequestId + 1 } := by
        refine ⟨?_, h.ended⟩
        have ht := h.toTables
        refine ⟨?_, ht.id_inj, ht.pending, ht.nodup_pending, ht.deadlines, ht.nodup_deadlines,
          ht.sorted, ht.settled, ht.cancels, ht.cancels_id⟩
        intro k hk
        obtain ⟨n, hid, hn⟩ := ht.id k hk
        exact ⟨n, hid, hn.trans (Int.lt_succ _)⟩
      dsimp only at hs
      split at hs
      · cases hs
        exact ⟨hcount, Nat.le_refl _, fun _ _ _ hr => hr, fun he => absurd he hopen⟩
      · next request _ =>
        cases hs
        have hsent := hcount.sendRequestImpl (n := s.nextRequestId) (Int.lt_succ _) (by
          intro k hk he
          obtain ⟨n, hid, hn⟩ := h.id k hk
          rw [hid] at he
          exact absurd (RequestId.number.inj he) hn.ne) hopen wire request opts.timeout now
        exact ⟨hsent.inv, hsent.made, hsent.responses, fun he => absurd he hopen⟩
    · cases hs

theorem Inv.endInput (h : Inv s) (why : ConversationEnd) : Onward s (s.endInput why) := by
  unfold State.endInput
  dsimp only
  refine h.end (t := State.noteEnding { s with inputOpen := false } why)
    ⟨rfl, rfl, rfl, rfl, rfl, rfl, rfl⟩ _ ⟨rfl, rfl, rfl, rfl, rfl, rfl, rfl⟩ ?_
  exact (State.failPendingRequests_ended _ _).mpr (Or.inl rfl)

theorem Inv.failOutput (h : Inv s) (message : String) : Onward s (s.failOutput message) := by
  unfold State.failOutput
  split
  · exact h.toTables.refl.onward h
  · dsimp only
    refine h.end (t := State.noteEnding { s with
      outputOpen := false, closingOutput := false, outgoingQueue := [] } ⟨.writeFailed, message⟩)
      ⟨rfl, rfl, rfl, rfl, rfl, rfl, rfl⟩ ⟨connectionClosed, message⟩
      ⟨rfl, rfl, rfl, rfl, rfl, rfl, rfl⟩ ?_
    exact Or.inr (Or.inl rfl)

theorem Inv.close (h : Inv s) : Onward s s.close := by
  unfold State.close
  split
  · exact h.toTables.refl.onward h
  · dsimp only
    refine h.end (t := State.noteEnding { s with
      closed := true, inputOpen := false, outputOpen := false, closingOutput := false }
      ⟨.shutDown, "peer closed"⟩) ⟨rfl, rfl, rfl, rfl, rfl, rfl, rfl⟩
      ⟨connectionClosed, "peer closed"⟩ ⟨rfl, rfl, rfl, rfl, rfl, rfl, rfl⟩ ?_
    exact (State.failPendingRequests_ended _ _).mpr (Or.inl rfl)

theorem Inv.destroy (h : Inv s) : Onward s s.destroy :=
  h.end (t := s) ⟨rfl, rfl, rfl, rfl, rfl, rfl, rfl⟩ ⟨connectionClosed, "peer destroyed"⟩
    ⟨rfl, rfl, rfl, rfl, rfl, rfl, rfl⟩ (Or.inr (Or.inr rfl))

/-- Reading a message settles the request it answers, or ends the input. -/
theorem Inv.readMessage (h : Inv s) (wire : Wire) (message : Incoming) :
    Onward s (s.readMessage wire message) := by
  have hdispatch : After s (s.dispatchIncomingMessage wire message).2 := by
    unfold State.dispatchIncomingMessage
    cases message with
    | response id result => exact h.completePendingRequest id _
    | errorResponse id error unreadable =>
      cases id with
      | none => exact h.toTables.refl
      | some id => exact h.completePendingRequest id _
    | parseError id error notification =>
      cases notification with
      | true => exact h.toTables.refl
      | false => exact h.toTables.still (s.sendError_still wire id error)
  have honward := hdispatch.onward h
  unfold State.readMessage
  split
  · next violation t heq =>
    rw [heq] at honward
    split
    · have hend := honward.inv.endInput ⟨.malformed, violation⟩
      refine ⟨hend.inv, honward.made.trans hend.made, ?_, ?_⟩
      · intro k r hk hr
        exact hend.responses k r (hk.trans_le honward.made) (honward.responses k r hk hr)
      · intro he
        obtain ⟨he', hm⟩ := honward.ended he
        exact ⟨(hend.ended he').1, (hend.ended he').2.trans hm⟩
    · exact honward
  · next heq => rwa [heq] at honward

theorem Inv.skipOversized (h : Inv s) (wire : Wire) (message : String) (head : MessageHead) :
    Onward s (s.skipOversized wire message head) := by
  have hrefl : Onward s s := h.toTables.refl.onward h
  unfold State.skipOversized
  cases head with
  | unknown => exact (h.failPendingRequests _).1.onward h
  | request id => exact (h.toTables.still (s.sendError_still wire id _)).onward h
  | notification => exact hrefl
  | response id =>
    cases id with
    | none => exact hrefl
    | some id => exact (h.completePendingRequest id _).onward h

/-- A sender that an exception unwound takes its request off the tables. -/
theorem Tables.unwind (h : Tables s) (hk : s.Live k) :
    After s ((s.forget k).modifyRequest k fun x => { x with unwound := true }) := by
  have hreq : ∀ j, ((s.forget k).modifyRequest k fun x => { x with unwound := true }).requests j =
      if j = k then { s.requests j with unwound := true } else s.requests j := fun j =>
    State.modifyRequest_requests (s.forget k) k j fun x => { x with unwound := true }
  refine ⟨?_, ?_, rfl, ?_, Iff.rfl⟩
  · refine h.retire hk (f := fun x => { x with unwound := true }) ⟨rfl, rfl, rfl⟩ (Or.inr rfl) ?_
    intro j
    rw [hreq]
    have := h.settled j
    split <;> exact this
  · intro j hj
    rw [State.Live, hreq] at hj
    unfold State.Live
    change j < s.made ∧ _ at hj
    grind
  · intro j r _ hr
    rw [hreq]
    split <;> exact hr

/-- Every call keeps the tables in step with the requests. -/
theorem Inv.step (h : Inv s) {op : Op} (hs : Peer.step s (op, wire) = some s') : Onward s s' := by
  have hstill : ∀ {t}, Still s t → Onward s t := fun ht => (h.toTables.still ht).onward h
  cases op with
  | cancel k =>
    obtain ⟨⟨hk, hu⟩, ⟨⟩⟩ := Option.ite_none_right_eq_some.mp hs
    exact (h.cancelRemote hk hu wire).onward h
  | unwind k =>
    obtain ⟨⟨hk, hu⟩, hs⟩ := Option.ite_none_right_eq_some.mp hs
    split at hs
    · cases hs
      exact hstill (Still.refl s)
    · next hr =>
      cases hs
      rw [Bool.not_eq_true, Option.isSome_eq_false_iff, Option.isNone_iff_eq_none] at hr
      exact (h.unwind ⟨hk, hr, hu⟩).onward h
  | sendRequest opts now =>
    obtain ⟨hd, hs⟩ := Option.ite_none_left_eq_some.mp hs
    exact h.sendRequest (Bool.eq_false_iff.mpr hd) hs
  | sendNotification encoded =>
    obtain ⟨-, hs⟩ := Option.ite_none_left_eq_some.mp hs
    split at hs
    · next heq =>
      cases hs
      exact hstill (State.sendNotification_still heq)
    · cases hs
      exact hstill (Still.refl s)
  | sendAnswer id response =>
    obtain ⟨-, ⟨⟩⟩ := Option.ite_none_left_eq_some.mp hs
    exact hstill (s.sendAnswer_still wire (some id) response)
  | expireDue now =>
    obtain ⟨-, hs⟩ := Option.ite_none_left_eq_some.mp hs
    obtain ⟨-, ⟨⟩⟩ := Option.ite_none_right_eq_some.mp hs
    exact (h.expireTimes wire now _).onward h
  | receive message =>
    obtain ⟨-, ⟨⟩⟩ := Option.ite_none_left_eq_some.mp hs
    exact h.readMessage wire message
  | oversized message head =>
    obtain ⟨-, ⟨⟩⟩ := Option.ite_none_left_eq_some.mp hs
    exact h.skipOversized wire message head
  | endInput why =>
    obtain ⟨-, ⟨⟩⟩ := Option.ite_none_left_eq_some.mp hs
    exact h.endInput why
  | answersDone =>
    obtain ⟨-, hs⟩ := Option.ite_none_left_eq_some.mp hs
    obtain ⟨-, ⟨⟩⟩ := Option.ite_none_left_eq_some.mp hs
    exact hstill ⟨⟨rfl, rfl, rfl, rfl, rfl, rfl, rfl⟩, Iff.rfl⟩
  | takeBatch =>
    obtain ⟨-, hs⟩ := Option.ite_none_left_eq_some.mp hs
    obtain ⟨-, ⟨⟩⟩ := Option.ite_none_right_eq_some.mp hs
    exact hstill ⟨⟨rfl, rfl, rfl, rfl, rfl, rfl, rfl⟩, Iff.rfl⟩
  | finishOutput =>
    obtain ⟨-, hs⟩ := Option.ite_none_left_eq_some.mp hs
    obtain ⟨-, ⟨⟩⟩ := Option.ite_none_right_eq_some.mp hs
    exact hstill ⟨⟨rfl, rfl, rfl, rfl, rfl, rfl, rfl⟩, Iff.rfl⟩
  | failOutput message =>
    obtain ⟨-, ⟨⟩⟩ := Option.ite_none_left_eq_some.mp hs
    exact h.failOutput message
  | closeOutput =>
    obtain ⟨-, ⟨⟩⟩ := Option.ite_none_left_eq_some.mp hs
    unfold State.closeOutput
    split
    · exact hstill ⟨⟨rfl, rfl, rfl, rfl, rfl, rfl, rfl⟩, Iff.rfl⟩
    · exact hstill (Still.refl s)
  | close =>
    obtain ⟨-, ⟨⟩⟩ := Option.ite_none_left_eq_some.mp hs
    exact h.close
  | destroy =>
    obtain ⟨-, ⟨⟩⟩ := Option.ite_none_left_eq_some.mp hs
    exact h.destroy

theorem inv_start (policy : ViolationPolicy) : Inv (start policy) := by
  constructor
  · constructor <;> simp [start, State.Live]
  · simp [start]

theorem Reachable.inv {policy : ViolationPolicy} (h : Reachable policy s) : Inv s :=
  Reach.invariant (fun hi hs => (hi.step hs).inv) (inv_start policy) h

/-- The conversation does not begin again, and no request is accepted once it is over. -/
theorem Inv.reach_ended (h : Inv s) (he : s.Ended) (hr : Reach Peer.step s s') :
    s'.Ended ∧ s'.made = s.made :=
  (Reach.invariant (I := fun t => Inv t ∧ t.Ended ∧ t.made = s.made)
    (fun hi hs => by
      have hon := hi.1.step hs
      obtain ⟨he', hm⟩ := hon.ended hi.2.1
      exact ⟨hon.inv, he', hm.trans hi.2.2⟩) ⟨h, he, rfl⟩ hr).2

/-- The end of the input, a failed write, `close()` and the peer's destruction. -/
def Op.Ends : Op → Prop
  | .endInput _ => True
  | .failOutput _ => True
  | .close => True
  | .destroy => True
  | _ => False

theorem step_ends {op : Op} (ho : op.Ends) (hs : step s (op, wire) = some s') : s'.Ended := by
  cases op with
  | endInput why =>
    obtain ⟨-, ⟨⟩⟩ := Option.ite_none_left_eq_some.mp hs
    exact (State.failPendingRequests_ended _ _).mpr (Or.inl rfl)
  | failOutput message =>
    obtain ⟨-, ⟨⟩⟩ := Option.ite_none_left_eq_some.mp hs
    unfold State.failOutput
    split
    · next hc => exact Or.inr (Or.inl hc)
    · exact Or.inr (Or.inl rfl)
  | close =>
    obtain ⟨-, ⟨⟩⟩ := Option.ite_none_left_eq_some.mp hs
    unfold State.close
    split
    · next hc => exact Or.inr (Or.inl hc)
    · exact (State.failPendingRequests_ended _ _).mpr (Or.inl rfl)
  | destroy =>
    obtain ⟨-, ⟨⟩⟩ := Option.ite_none_left_eq_some.mp hs
    exact Or.inr (Or.inr rfl)
  | _ => exact ho.elim

/-- A peer that is closed, or whose input has ended, refuses every request. -/
theorem State.refuseRequest_isSome (h : s.inputOpen = false ∨ s.closed = true)
    (opts : RequestOptions) : (s.refuseRequest opts).isSome = true := by
  by_contra hn
  rw [Bool.not_eq_true, Option.isSome_eq_false_iff, Option.isNone_iff_eq_none] at hn
  obtain ⟨hc, hi⟩ := State.refuseRequest_none hn
  simp [hc, hi] at h

/-- After every run each request was settled at most once and keeps its answer;
the table and the deadlines hold exactly the requests nobody has settled; once
the input has ended, a write has failed or the peer is closed or gone, all are
settled and no request is accepted again; and the remote is told at most once
that a request is not awaited. -/
theorem Reachable.requests {policy : ViolationPolicy} (h : Reachable policy s) :
    (∀ k, k < s.made →
        s.settlements.count k = if (s.requests k).response.isSome then 1 else 0) ∧
      (∀ k r op wire s', k < s.made → (s.requests k).response = some r →
        step s (op, wire) = some s' → (s'.requests k).response = some r) ∧
      (∀ id k, (id, k) ∈ s.pendingRequests ↔ s.Live k ∧ (s.requests k).id = id) ∧
      (s.pendingRequests.map (·.1)).Nodup ∧
      (∀ time k, (time, k) ∈ s.deadlines ↔ s.Live k ∧ (s.requests k).deadline = some time) ∧
      (s.deadlines.map (·.2)).Nodup ∧
      (∀ op wire s', op.Ends → step s (op, wire) = some s' → s'.Ended) ∧
      (s.Ended → s.pendingRequests = [] ∧ s.deadlines = [] ∧
        (∀ k, k < s.made → (s.requests k).unwound = false → s.settlements.count k = 1) ∧
        (∀ s', Reach step s s' → s'.Ended ∧ s'.made = s.made) ∧
        (s.destroyed = false → ∀ opts, (s.refuseRequest opts).isSome = true)) ∧
      ∀ id, s.cancelsSent.count id ≤ 1 := by
  have hi := h.inv
  have hsettled : ∀ k, k < s.made →
      s.settlements.count k = if (s.requests k).response.isSome then 1 else 0 := by
    intro k hk
    rw [hi.settled k]
    simp only [hk, true_and]
  refine ⟨hsettled, ?_, hi.pending, ?_, hi.deadlines, ?_, fun _ _ _ ho hs => step_ends ho hs, ?_, ?_⟩
  · exact fun k r op wire s' hk hr hs => (hi.step hs).responses k r hk hr
  · apply hi.nodup_pending.map_on
    rintro ⟨i, k⟩ hk ⟨_, j⟩ hj rfl
    rw [hi.pending] at hk hj
    rw [hi.id_inj k j hk.1.1 hj.1.1 (hk.2.trans hj.2.symm)]
  · apply hi.nodup_deadlines.map_on
    rintro ⟨t, k⟩ hk ⟨t', _⟩ hj rfl
    rw [hi.deadlines] at hk hj
    rw [Option.some.inj (hk.2.symm.trans hj.2)]
  · intro he
    have hnil := hi.ended he
    have hnone := hi.toTables.not_live hnil
    refine ⟨hnil, ?_, ?_, fun s' hr => hi.reach_ended he hr, ?_⟩
    · apply List.eq_nil_iff_forall_not_mem.mpr
      rintro ⟨time, k⟩ hm
      exact hnone k ((hi.deadlines time k).mp hm).1
    · intro k hk hu
      rw [hsettled k hk]
      have hr : (s.requests k).response ≠ none := fun hr => hnone k ⟨hk, hr, hu⟩
      simp [Option.isSome_iff_ne_none, hr]
    · intro hd
      apply State.refuseRequest_isSome
      rcases he with he | he | he
      · exact Or.inl he
      · exact Or.inr he
      · rw [hd] at he
        cases he
  · intro id
    by_cases hm : id ∈ s.cancelsSent
    · obtain ⟨k, hk, rfl⟩ := hi.cancels_id id hm
      exact (hi.cancels k hk).trans (by split <;> decide)
    · rw [List.count_eq_zero_of_not_mem hm]
      decide

/-- A codec that writes nothing. -/
private def silent : Wire where
  encodeRequest _ := .ok []
  encodeCancelRequest _ := .ok []
  encodeErrorResponse _ _ := .ok []
  remoteMaxPayload := 0

/-- Two requests, the first with a timeout that passes after a cancel; then the input ends. -/
private def timedOut : List (Op × Wire) :=
  [(.sendRequest { timeout := some 1 } 0, silent), (.sendRequest {} 0, silent),
    (.cancel 0, silent), (.expireDue 1000000, silent),
    (.receive (.response (.number 1) []), silent), (.endInput ⟨.inputEnded, "end"⟩, silent)]

theorem Reachable.requests_timedOut :
    let s := (run step (start .tolerate) timedOut).get rfl
    s.made = 2 ∧ s.settlements = [0, 1] ∧ s.cancelsSent = [.number 1] ∧ s.pendingRequests = [] := by
  have hr : Reachable .tolerate _ := Reach.of_isSome timedOut rfl
  have hended : State.Ended ((run step (start .tolerate) timedOut).get rfl) := Or.inl rfl
  exact ⟨rfl, rfl, rfl, (hr.requests.2.2.2.2.2.2.2.1 hended).1⟩

end Kotatsu.Ipc.Peer
