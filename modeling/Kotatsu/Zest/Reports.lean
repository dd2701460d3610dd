import Kotatsu.Zest.Drive

/-!
# What a run of the tests comes to

Every test is counted once: reported, on its way with one driver, lost to a worker that did
not start, or still to be taken. Every worker is counted once too: it has ended, or one driver
has it. A driver's step moves its own share of both counts and nothing else.
-/

namespace Kotatsu.Zest

open Kotatsu.Core

variable {Outcome Failure : Type}

namespace Driver

/-- The test a driver has taken and not reported. -/
def pending (d : Driver Outcome) : List Entry :=
  match d.phase with
  | .starting e | .running e | .finishing e _ => [e]
  | _ => []

/-- The workers a driver has. -/
def held (d : Driver Outcome) : List Nat := d.worker.toList ++ d.own.toList

/-- A driver past its loop. -/
def Past (d : Driver Outcome) : Prop :=
  match d.phase with
  | .closing | .done => True
  | _ => False

/-- What a driver has of workers in each phase. -/
def Fits (d : Driver Outcome) : Prop :=
  match d.phase with
  | .fetching | .closing => d.own = none
  | .starting e => d.own = none ∧ (e.crashes = false → d.worker = none)
  | .running e => e.crashes = false → d.own = none
  | .finishing _ _ => True
  | .done => d.own = none ∧ d.worker = none

end Driver

namespace Pool

variable {s s' : Pool Outcome Failure} {tests : List Entry} {i : Nat} {d : Driver Outcome}

/-- What holds of a driver: its workers fit its phase, its test is of the list, which is taken
once it is past its loop, and the worker it keeps was sent no test that should crash. -/
structure Holds (s : Pool Outcome Failure) (d : Driver Outcome) : Prop where
  fits : d.Fits
  taken : ∀ e ∈ d.pending, e ∈ s.tests
  past : d.Past → s.broken = none → s.tests.length ≤ s.next
  keeps : ∀ w, d.worker = some w → w < s.spawned ∧ ∀ e ∈ s.sent w, e.crashes = false

/-- The accounts of a run. -/
structure Accounted (tests : List Entry) (s : Pool Outcome Failure) : Prop where
  entries : ∀ e, ((s.reported.map Prod.fst).count e : Int) +
    tally (fun d => (d.pending.count e : Int)) s.drivers s.count + s.lost.count e +
    (s.tests.drop s.next).count e + (s.serial.getD []).count e = tests.count e
  workers : ∀ w, (s.ended.count w : Int) +
    tally (fun d => (d.held.count w : Int)) s.drivers s.count = (List.range s.spawned).count w
  whole : s.broken = none → s.lost = []
  few : s.count = 0 → s.tests = []
  order : (s.serial.isSome = true ∧ ∀ e ∈ s.tests, e.serial = false) ∨
    (s.serial = none ∧ s.count = 1)
  alone : ∀ w, ∀ e ∈ s.sent w, e.crashes = true → s.sent w = [e]
  unborn : ∀ w, s.spawned ≤ w → s.sent w = []
  holds : ∀ i < s.count, s.Holds (s.drivers i)

/-! ## One driver's step -/

variable {α : Type} {entry : Entry} {event : Event Outcome Failure}

theorem tally_cast_nonneg (f : α → Nat) (g : Nat → α) (n : Nat) :
    0 ≤ tally (fun x => (f x : Int)) g n := tally_nonneg g n fun _ => Int.natCast_nonneg _

theorem tally_zero {f : α → Int} {g : Nat → α} {n : Nat} (h : ∀ j < n, f (g j) = 0) :
    tally f g n = 0 :=
  Finset.sum_eq_zero fun j hj => h j (Finset.mem_range.mp hj)

/-- What some parties share is at most the tally. -/
theorem sum_le_tally (f : α → Nat) (g : Nat → α) (n : Nat) (js : Finset Nat)
    (h : js ⊆ Finset.range n) : ∑ j ∈ js, (f (g j) : Int) ≤ tally (fun x => (f x : Int)) g n :=
  Finset.sum_le_sum_of_subset_of_nonneg h fun _ _ _ => Int.natCast_nonneg _

/-- What a step sends: nothing, or a test to a worker that was sent none that should crash, or
has just started. -/
def Sends (s s' : Pool Outcome Failure) : Prop :=
  s'.sent = s.sent ∧ s'.spawned = s.spawned ∨
    ∃ w e, s'.sent = Function.update s.sent w (s.sent w ++ [e]) ∧ s.spawned ≤ s'.spawned ∧
      w < s'.spawned ∧ (∀ f ∈ s.sent w, f.crashes = false) ∧ (e.crashes = true → s.spawned ≤ w)

theorem Accounted.alone_sends (h : s.Accounted tests) (hs : s.Sends s') :
    ∀ w, ∀ e ∈ s'.sent w, e.crashes = true → s'.sent w = [e] := by
  obtain ⟨hsent, -⟩ | ⟨w, e, hsent, -, -, hcalm, hcrash⟩ := hs
  · exact hsent ▸ h.alone
  · intro v f hf hfc
    rw [hsent] at hf ⊢
    by_cases hvw : v = w
    · subst hvw
      rw [Function.update_self] at hf ⊢
      rcases List.mem_append.mp hf with hf | hf
      · rw [hcalm f hf] at hfc
        cases hfc
      · obtain rfl := List.mem_singleton.mp hf
        rw [h.unborn v (hcrash hfc), List.nil_append]
    · rw [Function.update_of_ne hvw] at hf ⊢
      exact h.alone v f hf hfc

theorem Accounted.unborn_sends (h : s.Accounted tests) (hs : s.Sends s') :
    ∀ w, s'.spawned ≤ w → s'.sent w = [] := by
  obtain ⟨hsent, hspawned⟩ | ⟨w, e, hsent, hspawned, hw, -, -⟩ := hs
  · exact hsent ▸ hspawned ▸ h.unborn
  · intro v hv
    rw [hsent, Function.update_of_ne (by omega)]
    exact h.unborn v (hspawned.trans hv)

theorem Sends.keeps (hs : s.Sends s')
    (h : ∀ w, d.worker = some w → w < s.spawned ∧ ∀ e ∈ s.sent w, e.crashes = false) :
    ∀ w, d.worker = some w → w < s'.spawned ∧ ∀ e ∈ s'.sent w, e.crashes = false := by
  obtain ⟨hsent, hspawned⟩ | ⟨w, e, hsent, hspawned, -, -, hcrash⟩ := hs
  · rwa [hsent, hspawned]
  · intro v hv
    obtain ⟨hlt, hcalm⟩ := h v hv
    refine ⟨hlt.trans_le hspawned, fun f hf => ?_⟩
    rw [hsent] at hf
    by_cases hvw : v = w
    · subst hvw
      rw [Function.update_self] at hf
      rcases List.mem_append.mp hf with hf | hf
      · exact hcalm f hf
      · obtain rfl := List.mem_singleton.mp hf
        exact Bool.eq_false_iff.mpr fun hc => absurd hlt (Nat.not_lt.mpr (hcrash hc))
    · rw [Function.update_of_ne hvw] at hf
      exact hcalm f hf

/-- A driver's step keeps the accounts if it keeps the driver's share of them. -/
theorem Accounted.move (h : s.Accounted tests) (hi : i < s.count)
    (hdrivers : s'.drivers = Function.update s.drivers i d)
    (hsame : s'.count = s.count ∧ s'.tests = s.tests ∧ s'.serial = s.serial)
    (hentries : ∀ e, (s'.reported.map Prod.fst).count e + d.pending.count e + s'.lost.count e +
      (s.tests.drop s'.next).count e = (s.reported.map Prod.fst).count e +
        (s.drivers i).pending.count e + s.lost.count e + (s.tests.drop s.next).count e)
    (hworkers : ∀ w, s'.ended.count w + d.held.count w + (List.range s.spawned).count w =
      s.ended.count w + (s.drivers i).held.count w + (List.range s'.spawned).count w)
    (hnext : s.next ≤ s'.next) (hwhole : s'.broken = none → s.broken = none ∧ s'.lost = s.lost)
    (hsends : s.Sends s') (hd : s'.Holds d) : s'.Accounted tests := by
  obtain ⟨hcount, htests, hserial⟩ := hsame
  refine ⟨fun e => ?_, fun w => ?_, fun hb => (hwhole hb).2.trans (h.whole (hwhole hb).1), ?_, ?_,
    h.alone_sends hsends, h.unborn_sends hsends, ?_⟩
  · have hold := h.entries e
    have hshare := hentries e
    rw [hdrivers, hcount, tally_update _ _ hi, htests, hserial]
    omega
  · have hold := h.workers w
    have hshare := hworkers w
    rw [hdrivers, hcount, tally_update _ _ hi]
    omega
  · rw [hcount, htests]
    exact h.few
  · rw [hcount, htests, hserial]
    exact h.order
  · rw [hcount, hdrivers]
    refine (Function.forall_update_iff _ fun j d => j < s.count → s'.Holds d).mpr
      ⟨fun _ => hd, fun j _ hj => ?_⟩
    obtain ⟨hfits, htaken, hpast, hkeeps⟩ := h.holds j hj
    refine ⟨hfits, htests ▸ htaken, fun hp hb => ?_, hsends.keeps hkeeps⟩
    exact htests ▸ (hpast hp (hwhole hb).1).trans hnext

/-! ## Each step -/

/-- A driver that leaves its loop loses the test it has. -/
theorem Accounted.leave (h : s.Accounted tests) (hi : i < s.count) {broken : Option Failure}
    {lost : List Entry} (hown : (s.drivers i).own = none)
    (hlost : ∀ e, lost.count e = s.lost.count e + (s.drivers i).pending.count e)
    (hbroken : broken = none → s.broken = none ∧ lost = s.lost ∧ s.tests.length ≤ s.next) :
    ({ s with broken, lost }.leave i).Accounted tests := by
  let d : Driver Outcome := { s.drivers i with
    phase := if (s.drivers i).worker.isSome then .closing else .done }
  have hd : d.pending = [] ∧ d.Fits := by
    cases hw : (s.drivers i).worker with
    | none => simp [d, hw, Driver.pending, Driver.Fits, hown]
    | some w => simp [d, hw, Driver.pending, Driver.Fits, hown]
  refine h.move (d := d) hi rfl ⟨rfl, rfl, rfl⟩ (fun e => ?_) (fun _ => rfl) (Nat.le_refl _)
    (fun hb => ⟨(hbroken hb).1, (hbroken hb).2.1⟩) (.inl ⟨rfl, rfl⟩)
    ⟨hd.2, fun e he => ?_, fun _ hb => (hbroken hb).2.2, (h.holds i hi).keeps⟩
  · have hshare := hlost e
    rw [hd.1, List.count_nil]
    simp only [Pool.leave, setDriver]
    omega
  · rw [hd.1] at he
    cases he

theorem Accounted.fetch (h : s.Accounted tests) (hi : i < s.count)
    (hphase : (s.drivers i).phase = .fetching) : (s.fetch i).Accounted tests := by
  have hown : (s.drivers i).own = none := by
    have hfits := (h.holds i hi).fits
    rwa [Driver.Fits, hphase] at hfits
  have hpending : (s.drivers i).pending = [] := by rw [Driver.pending, hphase]
  rw [Pool.fetch]
  split
  · next entry hentry hbroken =>
    obtain ⟨hlt, hget⟩ := List.getElem?_eq_some_iff.mp hentry
    have hmem : entry ∈ s.tests := hget ▸ List.getElem_mem hlt
    have hdrop : s.tests.drop s.next = entry :: s.tests.drop (s.next + 1) := by
      rw [List.drop_eq_getElem_cons hlt, hget]
    have hshare : ∀ e, (s.reported.map Prod.fst).count e + [entry].count e + s.lost.count e +
        (s.tests.drop (s.next + 1)).count e = (s.reported.map Prod.fst).count e +
          (s.drivers i).pending.count e + s.lost.count e + (s.tests.drop s.next).count e := by
      intro e
      rw [hdrop, hpending, List.count_cons, List.count_cons, List.count_nil]
      omega
    have htaken : ∀ e ∈ [entry], e ∈ s.tests := fun e he => List.mem_singleton.mp he ▸ hmem
    split
    · next w hw =>
      obtain ⟨hcrashes, hw⟩ : entry.crashes = false ∧ (s.drivers i).worker = some w := by
        cases hc : entry.crashes with
        | true => simp [hc] at hw
        | false => exact ⟨rfl, by simpa [hc] using hw⟩
      have hkeeps := (h.holds i hi).keeps
      obtain ⟨hlt, hcalm⟩ := hkeeps w hw
      have hsends : s.Sends ({ s with next := s.next + 1 }.send i (s.drivers i) entry w) :=
        .inr ⟨w, entry, rfl, Nat.le_refl _, hlt, hcalm, fun hc => by simp [hcrashes] at hc⟩
      exact h.move (d := { s.drivers i with phase := .running entry }) hi rfl ⟨rfl, rfl, rfl⟩
        hshare (fun _ => rfl) (Nat.le_succ _) (fun hb => ⟨hb, rfl⟩) hsends
        ⟨fun _ => hown, htaken, False.elim, hsends.keeps hkeeps⟩
    · next hw =>
      refine h.move (d := { s.drivers i with phase := .starting entry }) hi rfl ⟨rfl, rfl, rfl⟩
        hshare (fun _ => rfl) (Nat.le_succ _) (fun hb => ⟨hb, rfl⟩) (.inl ⟨rfl, rfl⟩)
        ⟨⟨hown, fun hc => ?_⟩, htaken, False.elim, (h.holds i hi).keeps⟩
      simpa [hc] using hw
  · next hnot =>
    refine h.leave hi hown (fun e => by rw [hpending]; rfl) fun hb => ⟨hb, rfl, ?_⟩
    cases hat : s.tests[s.next]? with
    | none => exact List.getElem?_eq_none_iff.mp hat
    | some entry => exact (hnot entry hat hb).elim

theorem Accounted.started (h : s.Accounted tests) (hi : i < s.count)
    (hphase : (s.drivers i).phase = .starting entry) (failure : Option Failure) :
    (s.started i entry failure).Accounted tests := by
  obtain ⟨hown, hnone⟩ : (s.drivers i).own = none ∧
      (entry.crashes = false → (s.drivers i).worker = none) := by
    have hfits := (h.holds i hi).fits
    rwa [Driver.Fits, hphase] at hfits
  have hpending : (s.drivers i).pending = [entry] := by rw [Driver.pending, hphase]
  have htaken : ∀ e ∈ [entry], e ∈ s.tests := hpending ▸ (h.holds i hi).taken
  cases failure with
  | some failure =>
    refine h.leave hi hown (fun e => ?_) fun hb => ?_
    · rw [hpending, List.count_append]
    · cases hb
  | none =>
    let d := if entry.crashes then { s.drivers i with own := some s.spawned }
      else { s.drivers i with worker := some s.spawned }
    have hheld : ∀ w, d.held.count w =
        (s.drivers i).held.count w + if s.spawned = w then 1 else 0 := by
      intro w
      cases hc : entry.crashes with
      | true => simp [d, hc, Driver.held, hown, List.count_cons]
      | false => simp [d, hc, Driver.held, hown, hnone hc, List.count_cons]
    have hempty := h.unborn s.spawned (Nat.le_refl _)
    have hsends : s.Sends (s.started i entry none) := .inr ⟨s.spawned, entry, rfl,
      Nat.le_succ _, Nat.lt_succ_self _, by simp [hempty], fun _ => Nat.le_refl _⟩
    refine h.move (d := { d with phase := .running entry }) hi rfl ⟨rfl, rfl, rfl⟩ (fun e => ?_)
      (fun w => ?_) (Nat.le_refl _) (fun hb => ⟨hb, rfl⟩) hsends
      ⟨fun hc => ?_, htaken, False.elim, ?_⟩
    · rw [hpending]
      rfl
    · change _ + d.held.count w + _ = _
      rw [hheld]
      simp only [Pool.started, send, setDriver, List.range_succ, List.count_append,
        List.count_singleton, beq_iff_eq]
      omega
    · simp only [d, hc, Bool.false_eq_true, if_false]
      exact hown
    · cases hc : entry.crashes with
      | true => simpa [d, hc] using hsends.keeps (h.holds i hi).keeps
      | false => simp [d, hc, Pool.started, send, setDriver, hempty]

/-- A driver that reports its test may have its worker no more. -/
theorem Accounted.reports (h : s.Accounted tests) (hi : i < s.count) (outcome : Outcome)
    (failures : List Failure) {worker own : Option Nat} (ended : List Nat)
    (hpending : (s.drivers i).pending = [entry]) (hown : own = none)
    (hworker : worker = none ∨ worker = (s.drivers i).worker)
    (hheld : ∀ w, ended.count w + worker.toList.count w = (s.drivers i).held.count w) :
    ({ s with failures, ended := s.ended ++ ended }.report entry outcome |>.setDriver i
      { worker, own, phase := .fetching }).Accounted tests := by
  subst hown
  refine h.move (d := { worker, own := none, phase := .fetching }) hi rfl ⟨rfl, rfl, rfl⟩
    (fun e => ?_) (fun w => ?_) (Nat.le_refl _) (fun hb => ⟨hb, rfl⟩) (.inl ⟨rfl, rfl⟩)
    ⟨rfl, List.forall_mem_nil _, False.elim, ?_⟩
  · rw [hpending]
    simp only [report, setDriver, List.map_append, List.map_cons, List.map_nil, List.count_append,
      Driver.pending, List.count_nil]
    omega
  · have hshare := hheld w
    simp only [report, setDriver, List.count_append, Driver.held, Option.toList_none,
      List.count_nil] at hshare ⊢
    omega
  · rcases hworker with rfl | rfl
    · exact fun w hw => by cases hw
    · exact (h.holds i hi).keeps

theorem Accounted.ran (h : s.Accounted tests) (hi : i < s.count)
    (hphase : (s.drivers i).phase = .running entry) (outcome : Outcome) (stays : Bool) :
    (s.ran i entry outcome stays).Accounted tests := by
  have hfits : entry.crashes = false → (s.drivers i).own = none := by
    have hfits := (h.holds i hi).fits
    rwa [Driver.Fits, hphase] at hfits
  have hpending : (s.drivers i).pending = [entry] := by rw [Driver.pending, hphase]
  have htaken : ∀ e ∈ [entry], e ∈ s.tests := hpending ▸ (h.holds i hi).taken
  have hheld : ∀ w, (s.drivers i).held.count w =
      (s.drivers i).worker.toList.count w + (s.drivers i).own.toList.count w := fun _ =>
    List.count_append
  rw [Pool.ran]
  cases hc : entry.crashes with
  | true =>
    rw [if_pos rfl]
    split
    · refine h.move (d := { s.drivers i with phase := .finishing entry outcome }) hi rfl
        ⟨rfl, rfl, rfl⟩ (fun e => ?_) (fun _ => rfl) (Nat.le_refl _) (fun hb => ⟨hb, rfl⟩)
        (.inl ⟨rfl, rfl⟩) ⟨trivial, htaken, False.elim, (h.holds i hi).keeps⟩
      rw [hpending]
      rfl
    · exact h.reports hi _ _ _ hpending rfl (.inr rfl) fun w => by rw [hheld]; omega
  | false =>
    rw [if_neg Bool.false_ne_true]
    split
    · have hstays := h.reports hi outcome s.failures [] hpending (hfits hc) (.inr rfl) fun w => by
        rw [hheld, hfits hc]
        simp
      rwa [List.append_nil] at hstays
    · exact h.reports hi _ _ _ hpending (hfits hc) (.inl rfl) fun w => by rw [hheld, hfits hc]

theorem Accounted.finished (h : s.Accounted tests) (hi : i < s.count) {failure : Option Failure}
    (hstep : s.finished i failure = some s') : s'.Accounted tests := by
  have hfits := (h.holds i hi).fits
  rw [Pool.finished] at hstep
  split at hstep
  · next entry outcome hphase =>
    cases hstep
    refine h.reports hi _ _ _ (by rw [Driver.pending, hphase]) rfl (.inr rfl) fun w => ?_
    rw [Driver.held, List.count_append, Nat.add_comm]
  · next hphase =>
    cases hstep
    rw [Driver.Fits, hphase] at hfits
    have hpending : (s.drivers i).pending = [] := by rw [Driver.pending, hphase]
    refine h.move (d := { s.drivers i with worker := none, phase := .done }) hi rfl
      ⟨rfl, rfl, rfl⟩ (fun e => ?_) (fun w => ?_) (Nat.le_refl _) (fun hb => ⟨hb, rfl⟩)
      (.inl ⟨rfl, rfl⟩) ⟨⟨hfits, rfl⟩, List.forall_mem_nil _,
        fun _ => (h.holds i hi).past (by rw [Driver.Past, hphase]; trivial),
        fun w hw => by cases hw⟩
    · rw [hpending]
      rfl
    · simp only [setDriver, Driver.held, List.count_append, Option.toList_none, List.count_nil]
      omega
  · cases hstep

/-- The drivers that are done have no test, and no worker. -/
theorem Accounted.idle (h : s.Accounted tests) (hidle : s.idle = true) : ∀ i < s.count,
    (s.drivers i).pending = [] ∧ (s.drivers i).held = [] ∧ (s.drivers i).Past := by
  intro i hi
  have hdone := List.all_eq_true.mp hidle i (List.mem_range.mpr hi)
  have hfits := (h.holds i hi).fits
  unfold Phase.isDone at hdone
  split at hdone
  · next hphase =>
    rw [Driver.Fits, hphase] at hfits
    rw [Driver.pending, Driver.held, Driver.Past, hphase, hfits.1, hfits.2]
    exact ⟨rfl, rfl, trivial⟩
  · cases hdone

/-- A list is taken whole, unless a worker could not start. -/
theorem Accounted.drop_eq_nil (h : s.Accounted tests) (hidle : s.idle = true)
    (hb : s.broken = none) : s.tests.drop s.next = [] := by
  by_cases hcount : s.count = 0
  · rw [h.few hcount, List.drop_nil]
  · have hpos := Nat.pos_of_ne_zero hcount
    exact List.drop_eq_nil_of_le ((h.holds 0 hpos).past (h.idle hidle 0 hpos).2.2 hb)

theorem tally_new {f : Driver Outcome → Int} (hf : f {} = 0) (n : Nat) :
    tally f (fun _ => {}) n = 0 := tally_zero fun _ _ => hf

theorem holds_new : s.Holds ({} : Driver Outcome) :=
  ⟨rfl, List.forall_mem_nil _, False.elim, fun _ hw => by cases hw⟩

theorem Accounted.startSerial (h : s.Accounted tests) {serial : List Entry}
    (hserial : s.serial = some serial) (hidle : s.idle = true) :
    (s.startSerial serial).Accounted tests := by
  have hall := h.idle hidle
  refine ⟨fun e => ?_, fun w => ?_, fun hb => ?_, fun hc => ?_, .inr ⟨rfl, rfl⟩, h.alone, h.unborn,
    fun _ _ => holds_new⟩
  · have hold := h.entries e
    rw [tally_zero fun j hj => by rw [(hall j hj).1]; rfl, hserial] at hold
    simp only [Pool.startSerial, List.drop_zero, List.count_append, Option.getD_none,
      List.count_nil]
    rw [tally_new rfl]
    simp only [Option.getD_some] at hold
    omega
  · have hold := h.workers w
    rw [tally_zero fun j hj => by rw [(hall j hj).2.1]; rfl] at hold
    simp only [Pool.startSerial]
    rw [tally_new rfl]
    exact hold
  · rw [Pool.startSerial]
    simp only [h.whole hb, h.drop_eq_nil hidle hb, List.append_nil]
  · cases hc

/-- What a step does, with what makes it possible. -/
theorem step_cases (h : s.step event = some s') :
    (∃ i < s.count, (s.drivers i).phase = .fetching ∧ s' = s.fetch i) ∨
      (∃ i < s.count, ∃ entry failure, (s.drivers i).phase = .starting entry ∧
        s' = s.started i entry failure) ∨
      (∃ i < s.count, ∃ entry outcome stays, (s.drivers i).phase = .running entry ∧
        s' = s.ran i entry outcome stays) ∨
      (∃ i < s.count, ∃ failure, s.finished i failure = some s') ∨
      ∃ serial, s.serial = some serial ∧ s.idle = true ∧ s' = s.startSerial serial := by
  cases event with
  | fetch i =>
    rw [Pool.step] at h
    split at h
    · next hphase =>
      obtain ⟨hi, ⟨⟩⟩ := Option.ite_none_right_eq_some.mp h
      exact .inl ⟨i, hi, hphase, rfl⟩
    · cases h
  | started i failure =>
    rw [Pool.step] at h
    split at h
    · next entry hphase =>
      obtain ⟨hi, ⟨⟩⟩ := Option.ite_none_right_eq_some.mp h
      exact .inr (.inl ⟨i, hi, entry, failure, hphase, rfl⟩)
    · cases h
  | ran i outcome stays =>
    rw [Pool.step] at h
    split at h
    · next entry hphase =>
      obtain ⟨hi, ⟨⟩⟩ := Option.ite_none_right_eq_some.mp h
      exact .inr (.inr (.inl ⟨i, hi, entry, outcome, stays, hphase, rfl⟩))
    · cases h
  | finished i failure =>
    obtain ⟨hi, h⟩ := Option.ite_none_right_eq_some.mp h
    exact .inr (.inr (.inr (.inl ⟨i, hi, failure, h⟩)))
  | serial =>
    obtain ⟨serial, hserial, h⟩ := Option.bind_eq_some_iff.mp h
    obtain ⟨hidle, ⟨⟩⟩ := Option.ite_none_right_eq_some.mp h
    exact .inr (.inr (.inr (.inr ⟨serial, hserial, hidle, rfl⟩)))

theorem Accounted.step (h : s.Accounted tests) (hstep : s.step event = some s') :
    s'.Accounted tests := by
  obtain ⟨i, hi, hphase, rfl⟩ | ⟨i, hi, entry, failure, hphase, rfl⟩ |
    ⟨i, hi, entry, outcome, stays, hphase, rfl⟩ | ⟨i, hi, failure, hstep⟩ |
    ⟨serial, hserial, hidle, rfl⟩ := step_cases hstep
  · exact h.fetch hi hphase
  · exact h.started hi hphase failure
  · exact h.ran hi hphase outcome stays
  · exact h.finished hi hstep
  · exact h.startSerial hserial hidle

/-! ## A whole run -/

variable {jobs : Nat}

theorem accounted_initial (hjobs : 0 < jobs) (tests : List Entry) :
    (initial jobs tests : Pool Outcome Failure).Accounted tests := by
  refine ⟨fun e => ?_, fun w => ?_, fun _ => rfl, fun hc => ?_, .inl ⟨rfl, fun e he => ?_⟩,
    fun _ _ he => absurd he List.not_mem_nil, fun _ _ => rfl, fun _ _ => holds_new⟩
  · have hsplit := (List.filter_append_perm Entry.serial tests).count_eq e
    rw [List.count_append] at hsplit
    simp only [initial, List.map_nil, List.count_nil, List.drop_zero, Option.getD_some]
    rw [tally_new rfl]
    omega
  · simp only [initial]
    rw [tally_new rfl]
    rfl
  · simp only [initial] at hc ⊢
    exact List.eq_nil_of_length_eq_zero (by omega)
  · simpa using (List.mem_filter.mp he).2

theorem accounted (hjobs : 0 < jobs)
    (h : Reach Pool.step (initial jobs tests : Pool Outcome Failure) s) : s.Accounted tests :=
  h.invariant (fun hs => hs.step) (accounted_initial hjobs tests)

/-- A worker has ended or one driver has it. -/
theorem Accounted.once (h : s.Accounted tests) (w : Nat) : (s.ended.count w : Int) +
    tally (fun d => (d.held.count w : Int)) s.drivers s.count ≤ 1 := by
  have hone : (List.range s.spawned).count w ≤ 1 :=
    List.nodup_iff_count_le_one.mp List.nodup_range w
  have hcount := h.workers w
  omega

/-- Two tests, the second of which runs alone and should crash. -/
def pairOfTests : List Entry :=
  [{ name := ascii "pool.passes" },
    { name := ascii "pool.aborts", serial := true, crashes := true }]

/-- A run of the two tests by one driver. -/
def pairRun : List (Event Bool Bytes) :=
  [.fetch 0, .started 0 none, .ran 0 true true, .fetch 0, .finished 0 none, .serial, .fetch 0,
    .started 0 none, .ran 0 true true, .finished 0 none, .fetch 0]

theorem isSome_pairRun : (run Pool.step (initial 1 pairOfTests) pairRun).isSome = true := by
  decide +kernel

/-- The state the run comes to. -/
def pairEnd : Pool Bool Bytes := (run Pool.step (initial 1 pairOfTests) pairRun).get isSome_pairRun

/-- No test is reported twice, and a run that is over has reported every test, unless a worker
could not start. -/
theorem reports_once (hjobs : 0 < jobs)
    (h : Reach Pool.step (initial jobs tests : Pool Outcome Failure) s) :
    (s.reported.map Prod.fst).Subperm tests ∧
      (s.isOver = true → s.broken = none → (s.reported.map Prod.fst).Perm tests) := by
  have hs := accounted hjobs h
  refine ⟨List.subperm_ext_iff.mpr fun e _ => ?_,
    fun hover hb => List.perm_iff_count.mpr fun e => ?_⟩
  · have hcount := hs.entries e
    have hpos := tally_cast_nonneg (fun d => d.pending.count e) s.drivers s.count
    omega
  · obtain ⟨hserial, hidle⟩ := Bool.and_eq_true_iff.mp hover
    have hall := hs.idle hidle
    have hcount := hs.entries e
    rw [tally_zero fun j hj => by rw [(hall j hj).1]; rfl, hs.whole hb, hs.drop_eq_nil hidle hb,
      Option.isNone_iff_eq_none.mp hserial] at hcount
    simp only [Option.getD_none, List.count_nil] at hcount
    omega

theorem reports_once_pair : (pairEnd.reported.map Prod.fst).Perm pairOfTests :=
  (reports_once Nat.one_pos (Reach.of_isSome pairRun isSome_pairRun)).2 (by decide +kernel)
    (by decide +kernel)

/-- Each worker is waited for to its end once: while a driver has one it has not ended, and once
the run is over all have. -/
theorem workers_end (hjobs : 0 < jobs)
    (h : Reach Pool.step (initial jobs tests : Pool Outcome Failure) s) :
    s.ended.Nodup ∧ (∀ i < s.count, ∀ w ∈ (s.drivers i).held, w ∉ s.ended) ∧
      (s.isOver = true → s.ended.Perm (List.range s.spawned)) := by
  have hs := accounted hjobs h
  refine ⟨List.nodup_iff_count_le_one.mpr fun w => ?_, fun i hi w hw hended => ?_, fun hover => ?_⟩
  · have hone := hs.once w
    have hpos := tally_cast_nonneg (fun d => d.held.count w) s.drivers s.count
    omega
  · have hone := hs.once w
    have hle := sum_le_tally (fun d => d.held.count w) s.drivers s.count {i} (by simpa using hi)
    rw [Finset.sum_singleton] at hle
    have hheld := List.count_pos_iff.mpr hw
    have hend := List.count_pos_iff.mpr hended
    omega
  · have hall := hs.idle (Bool.and_eq_true_iff.mp hover).2
    refine List.perm_iff_count.mpr fun w => ?_
    have hcount := hs.workers w
    rw [tally_zero fun j hj => by rw [(hall j hj).2.1]; rfl] at hcount
    omega

theorem workers_end_pair : pairEnd.ended.Perm (List.range 2) :=
  (workers_end Nat.one_pos (Reach.of_isSome pairRun isSome_pairRun)).2.2 (by decide +kernel)

/-- A test that should crash is all its worker is sent, no two drivers have one worker, and
while a driver has a serial test no other driver has a test. -/
theorem isolated (hjobs : 0 < jobs)
    (h : Reach Pool.step (initial jobs tests : Pool Outcome Failure) s) :
    (∀ w, ∀ e ∈ s.sent w, e.crashes = true → s.sent w = [e]) ∧
      (∀ i < s.count, ∀ j < s.count, ∀ w, w ∈ (s.drivers i).held → w ∈ (s.drivers j).held → i = j) ∧
      ∀ i < s.count, ∀ e ∈ (s.drivers i).pending, e.serial = true →
        ∀ j < s.count, (s.drivers j).pending ≠ [] → j = i := by
  have hs := accounted hjobs h
  refine ⟨hs.alone, fun i hi j hj w hwi hwj => ?_, fun i hi e he hserial j hj _ => ?_⟩
  · by_contra hne
    have hone := hs.once w
    have hle := sum_le_tally (fun d => d.held.count w) s.drivers s.count {i, j}
      (by simp [Finset.insert_subset_iff, hi, hj])
    rw [Finset.sum_pair hne] at hle
    have hposi := List.count_pos_iff.mpr hwi
    have hposj := List.count_pos_iff.mpr hwj
    omega
  · obtain ⟨-, hconcurrent⟩ | ⟨-, hcount⟩ := hs.order
    · rw [hconcurrent e ((hs.holds i hi).taken e he)] at hserial
      cases hserial
    · omega

theorem isolated_pair : pairEnd.sent 1 =
    [{ name := ascii "pool.aborts", serial := true, crashes := true }] :=
  (isolated Nat.one_pos (Reach.of_isSome pairRun isSome_pairRun)).1 1 _ (by decide +kernel) rfl

/-! ## The end of a run -/

/-- How many steps a driver takes at most that takes no more tests. -/
def stepsOf : Phase Outcome → Nat
  | .done => 0
  | .closing => 1
  | .fetching => 2
  | .finishing _ _ => 3
  | .running _ => 4
  | .starting _ => 5

/-- How many steps a run takes at most. -/
def steps (s : Pool Outcome Failure) : Int :=
  5 * (s.tests.drop s.next).length + (s.serial.elim 0 fun tests => 5 * tests.length + 3 : Nat) +
    tally (fun d => (stepsOf d.phase : Int)) s.drivers s.count

/-- A driver's step leaves it fewer, or takes a test. -/
theorem steps_lt (hi : i < s.count) (hdrivers : s'.drivers = Function.update s.drivers i d)
    (hsame : s'.count = s.count ∧ s'.tests = s.tests ∧ s'.serial = s.serial)
    (hless : s'.next = s.next ∧ stepsOf d.phase < stepsOf (s.drivers i).phase ∨
      s'.next = s.next + 1 ∧ s.next < s.tests.length ∧
        stepsOf d.phase < stepsOf (s.drivers i).phase + 5) : s'.steps < s.steps := by
  simp only [steps, hdrivers, hsame, List.length_drop]
  rw [tally_update (fun d : Driver Outcome => (stepsOf d.phase : Int)) _ hi]
  omega

theorem stepsOf_leave (d : Driver Outcome) {phase : Phase Outcome} (h : 1 < stepsOf phase) :
    stepsOf (if d.worker.isSome then Phase.closing else .done : Phase Outcome) < stepsOf phase := by
  split
  · exact h
  · exact Nat.zero_lt_of_lt h

/-- A step leaves fewer steps to take. -/
theorem steps_step (h : s.step event = some s') : s'.steps < s.steps := by
  obtain ⟨i, hi, hphase, rfl⟩ | ⟨i, hi, entry, failure, hphase, rfl⟩ |
    ⟨i, hi, entry, outcome, stays, hphase, rfl⟩ | ⟨i, hi, failure, h⟩ |
    ⟨serial, hserial, -, rfl⟩ := step_cases h
  · rw [Pool.fetch]
    split
    · next entry hentry _ =>
      obtain ⟨hlt, -⟩ := List.getElem?_eq_some_iff.mp hentry
      split <;>
        exact steps_lt hi rfl ⟨rfl, rfl, rfl⟩ (.inr ⟨rfl, hlt, by simp [hphase, stepsOf]⟩)
    · exact steps_lt hi rfl ⟨rfl, rfl, rfl⟩
        (.inl ⟨rfl, stepsOf_leave _ (by simp [hphase, stepsOf])⟩)
  · cases failure with
    | some failure =>
      exact steps_lt hi rfl ⟨rfl, rfl, rfl⟩
        (.inl ⟨rfl, stepsOf_leave _ (by simp [hphase, stepsOf])⟩)
    | none => exact steps_lt hi rfl ⟨rfl, rfl, rfl⟩ (.inl ⟨rfl, by simp [hphase, stepsOf]⟩)
  · rw [Pool.ran]
    split <;> split <;>
      exact steps_lt hi rfl ⟨rfl, rfl, rfl⟩ (.inl ⟨rfl, by simp [hphase, stepsOf]⟩)
  · rw [Pool.finished] at h
    split at h
    · next hphase =>
      cases h
      exact steps_lt hi rfl ⟨rfl, rfl, rfl⟩ (.inl ⟨rfl, by simp [hphase, stepsOf]⟩)
    · next hphase =>
      cases h
      exact steps_lt hi rfl ⟨rfl, rfl, rfl⟩ (.inl ⟨rfl, by simp [hphase, stepsOf]⟩)
    · cases h
  · have hpos := tally_cast_nonneg (fun d => stepsOf d.phase) s.drivers s.count
    simp only [steps, Pool.startSerial, hserial, Option.elim_some, Option.elim_none,
      List.drop_zero, tally, Finset.sum_range_one, stepsOf] at hpos ⊢
    omega

theorem length_le_steps {events : List (Event Outcome Failure)} :
    ∀ {s : Pool Outcome Failure}, run Pool.step s events = some s' →
      events.length + s'.steps ≤ s.steps := by
  induction events with
  | nil =>
    intro s h
    cases h
    simp
  | cons event events ih =>
    intro s h
    obtain ⟨t, ht, h⟩ := Option.bind_eq_some_iff.mp h
    have hless := steps_step ht
    have hrest := ih h
    rw [List.length_cons]
    omega

/-- A run is over after so many steps at most, and until then it can go on. -/
theorem run_ends (outcome : Outcome) {events : List (Event Outcome Failure)}
    (h : run Pool.step (initial jobs tests : Pool Outcome Failure) events = some s) :
    events.length ≤ 7 * tests.length + 3 ∧
      (s.isOver = false → ∃ event, (s.step event).isSome = true) := by
  constructor
  · have hsteps := length_le_steps h
    have hleft : 0 ≤ s.steps := by
      have hpos := tally_cast_nonneg (fun d => stepsOf d.phase) s.drivers s.count
      rw [steps]
      omega
    have hsplit := (List.filter_append_perm Entry.serial tests).length_eq
    rw [List.length_append] at hsplit
    have hfirst : (initial jobs tests : Pool Outcome Failure).steps ≤ 7 * tests.length + 3 := by
      simp only [steps, initial, List.drop_zero, Option.elim_some, tally, stepsOf,
        Finset.sum_const, Finset.card_range, nsmul_eq_mul]
      omega
    omega
  · intro hover
    by_cases hidle : s.idle = true
    · cases hserial : s.serial with
      | none =>
        rw [isOver, hserial, hidle] at hover
        cases hover
      | some serial => exact ⟨.serial, by simp [Pool.step, hserial, hidle]⟩
    · obtain ⟨i, hi, hnot⟩ := List.all_eq_false.mp (Bool.eq_false_iff.mpr hidle)
      rw [List.mem_range] at hi
      cases hphase : (s.drivers i).phase with
      | fetching => exact ⟨.fetch i, by simp [Pool.step, hphase, hi]⟩
      | starting entry => exact ⟨.started i none, by simp [Pool.step, hphase, hi]⟩
      | running entry => exact ⟨.ran i outcome true, by simp [Pool.step, hphase, hi]⟩
      | finishing entry outcome =>
        exact ⟨.finished i none, by simp [Pool.step, Pool.finished, hphase, hi]⟩
      | closing => exact ⟨.finished i none, by simp [Pool.step, Pool.finished, hphase, hi]⟩
      | done =>
        rw [hphase] at hnot
        exact absurd rfl hnot

theorem run_ends_pair : pairRun.length ≤ 17 :=
  (run_ends true (Option.some_get isSome_pairRun).symm).1

end Pool

end Kotatsu.Zest
