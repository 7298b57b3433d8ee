import WebhookRecovery.BoundedWork
import WebhookRecovery.IdleProgress
import WebhookRecovery.RetirementRace
import WebhookRecovery.SimulationFrames

/-! A backlog that has rested. Whatever a delivery waits for by the clock, a backoff, a lease or the
window of the rates, it waits no longer than a set time after it last changed. Once all of that is
over, a pass or else a claim finds something to do. -/
namespace RestedBacklog

open KeyedTables RecoverySchema InterleavedPrograms CheckedPrograms DeliveryPolicy MetricsSeries
open DeliveryAdmission WorkerClaim LeaseReaper EventIngest ConductorPass DeliveryPipeline
open AdmissionOutcome SimulationSlices PassIsolation PassGuarantee DeliveryFile PipelineInvariant
open BoundedWork AttemptOutcomes SimulationFrames

def outstanding (cfg : Settings) (σ : SimulationId) (db : Db) : ℕ :=
  ((slice σ db).deliveries.map (changesLeft cfg)).sum

/-- An attempt counts for its lease, and for the window of the rates. -/
def attemptSpan (cfg : Settings) : ℚ := max cfg.leaseDurationVirtualS cfg.fairnessWindowVirtualS

def patience (cfg : Settings) : ℚ := max cfg.retryBackoffCapVirtualS (attemptSpan cfg)

structure Rested (cfg : Settings) (σ : SimulationId) (h : ℚ) (db : Db) : Prop where
  due : ∀ d ∈ db.deliveries.rows, d.simulationId = σ → d.state = .pending →
    dueAt h d.nextAttemptAt
  lapsed : ∀ a ∈ db.attempts.rows, a.simulationId = σ → a.startedAt + attemptSpan cfg ≤ h

def handles (σ : SimulationId) (s : State) (w : WorkerId) : Bool :=
  ((s.batches w).getD []).any fun c => c.request.simulationId == σ

/-- What is done to the simulation is done at instants that the clock has reached. -/
def Timely (σ : SimulationId) (clock : ℚ) (s : State) : Action → Prop
  | .ingest i now specs => i = σ → ∀ x ∈ specs, x.occurredAt.getD now ≤ clock
  | .claim _ i now _ _ => i = σ → now ≤ clock
  | .complete w _ now => handles σ s w → now ≤ clock
  | .beginPass i => i.simulationId = σ → i.now ≤ clock
  | _ => True

instance (σ : SimulationId) (clock : ℚ) (s : State) : DecidablePred (Timely σ clock s)
  | .ingest i now specs =>
    inferInstanceAs (Decidable (i = σ → ∀ x ∈ specs, x.occurredAt.getD now ≤ clock))
  | .claim _ i now _ _ => inferInstanceAs (Decidable (i = σ → now ≤ clock))
  | .complete w _ now => inferInstanceAs (Decidable (handles σ s w = true → now ≤ clock))
  | .beginPass i => inferInstanceAs (Decidable (i.simulationId = σ → i.now ≤ clock))
  | .abandon _ | .statement | .endPass => inferInstanceAs (Decidable True)

def Still (σ : SimulationId) (s t : Db) : Prop :=
  (slice σ t).deliveries = (slice σ s).deliveries ∧ (slice σ t).attempts = (slice σ s).attempts

section Rows

variable {cfg : Settings} {σ : SimulationId} {s t u : Db} {h h' : ℚ} {d : Delivery} {a : Attempt}

theorem mem_slice_deliveries :
    d ∈ (slice σ s).deliveries ↔ d ∈ s.deliveries.rows ∧ d.simulationId = σ := by
  simp only [slice, List.mem_filter, beq_iff_eq]

theorem mem_slice_attempts :
    a ∈ (slice σ s).attempts ↔ a ∈ s.attempts.rows ∧ a.simulationId = σ := by
  simp only [slice, List.mem_filter, beq_iff_eq]

theorem still_of_slice (h : slice σ t = slice σ s) : Still σ s t :=
  ⟨congrArg Slice.deliveries h, congrArg Slice.attempts h⟩

theorem Still.delivery (h : Still σ s t) (hσ : d.simulationId = σ) :
    d ∈ t.deliveries.rows ↔ d ∈ s.deliveries.rows := by
  have hmem := congrArg (d ∈ ·) h.1
  simpa only [mem_slice_deliveries, hσ, and_true, eq_iff_iff] using hmem

theorem Still.attempt (h : Still σ s t) (hσ : a.simulationId = σ) :
    a ∈ t.attempts.rows ↔ a ∈ s.attempts.rows := by
  have hmem := congrArg (a ∈ ·) h.2
  simpa only [mem_slice_attempts, hσ, and_true, eq_iff_iff] using hmem

theorem Still.outstanding (h : Still σ s t) :
    RestedBacklog.outstanding cfg σ t = RestedBacklog.outstanding cfg σ s := by
  rw [RestedBacklog.outstanding, h.1, RestedBacklog.outstanding]

theorem Still.rested (hst : Still σ s t) (hr : Rested cfg σ h s) : Rested cfg σ h t where
  due d hd hσ hp := hr.due d ((hst.delivery hσ).mp hd) hσ hp
  lapsed a ha hσ := hr.lapsed a ((hst.attempt hσ).mp ha) hσ

theorem dueAt_later {x : Option ℚ} (hx : dueAt h x) (hle : h ≤ h') : dueAt h' x := by
  cases x with
  | none => cases hx
  | some t =>
    simp only [dueAt, decide_eq_true_eq] at hx ⊢
    exact hx.trans hle

theorem Rested.later (hr : Rested cfg σ h s) (hle : h ≤ h') : Rested cfg σ h' s where
  due d hd hσ hp := dueAt_later (hr.due d hd hσ hp) hle
  lapsed a ha hσ := (hr.lapsed a ha hσ).trans hle

theorem outstanding_pos (hi : ∀ d ∈ s.deliveries.rows, Sound cfg (file s d)) :
    0 < outstanding cfg σ s ↔
      ∃ d ∈ s.deliveries.rows, d.simulationId = σ ∧ d.state.active := by
  have hterm : ∀ d ∈ s.deliveries.rows, 0 < changesLeft cfg d ↔ d.state.active := by
    intro d hd
    cases ha : d.state.active with
    | false => simp [changesLeft_terminal ha]
    | true =>
      have hleft := (hi d hd).retryable
      simp only [file] at hleft
      refine iff_of_true ?_ rfl
      unfold changesLeft attemptCap
      cases hs : d.state <;> simp_all [DeliveryState.active]
      omega
  rw [outstanding, Nat.pos_iff_ne_zero, Ne, List.sum_eq_zero_iff]
  push Not
  constructor
  · rintro ⟨n, hn, hne⟩
    obtain ⟨d, hd, rfl⟩ := List.mem_map.mp hn
    obtain ⟨hrow, hσ⟩ := mem_slice_deliveries.mp hd
    exact ⟨d, hrow, hσ, (hterm d hrow).mp (Nat.pos_of_ne_zero hne)⟩
  · rintro ⟨d, hrow, hσ, ha⟩
    exact ⟨_, List.mem_map_of_mem (mem_slice_deliveries.mpr ⟨hrow, hσ⟩),
      ((hterm d hrow).mpr ha).ne'⟩

end Rows

section Waits

variable {cfg : Settings} {σ : SimulationId} {clock h : ℚ} {s t : State} {e : Action}

theorem span_le_patience : attemptSpan cfg ≤ patience cfg := le_max_right _ _

theorem dueAt_backoff {now : ℚ} (hnow : now ≤ clock) (n : ℕ) :
    dueAt (clock + patience cfg) (some (now + backoffS cfg n)) := by
  have hcap : backoffS cfg n ≤ patience cfg := (min_le_right _ _).trans (le_max_left _ _)
  simpa only [dueAt, decide_eq_true_eq] using add_le_add hnow hcap

theorem settlement_due {now : ℚ} (hnow : now ≤ clock) {c : Completion} {d : Delivery}
    (hp : (settleRow now (settlement cfg now c) d).state = .pending) :
    dueAt (clock + patience cfg) (settleRow now (settlement cfg now c) d).nextAttemptAt := by
  by_cases hok : c.result.outcome = .ok
  · rw [settlement_ok hok] at hp
    cases hp
  · simp only [settlement, if_neg hok] at hp ⊢
    split at hp
    · cases hp
    · rename_i hlt
      rw [if_neg hlt]
      exact dueAt_backoff hnow _

theorem reclaim_due {now : ℚ} (hnow : now ≤ clock) {d : Delivery}
    (hp : (releaseLease (settleRow now (reclaimSettlement cfg now d) d)).state = .pending) :
    dueAt (clock + patience cfg)
      (releaseLease (settleRow now (reclaimSettlement cfg now d) d)).nextAttemptAt := by
  simp only [reclaimSettlement] at hp ⊢
  split at hp
  · cases hp
  · rename_i hlt
    rw [if_neg hlt]
    exact dueAt_backoff hnow _

theorem handles_of_asked (hf : Framed cfg s) {w : WorkerId} {l : List Claimed}
    (hl : s.batches w = some l) {c : Claimed} (hc : c ∈ l) {d : Delivery}
    (hd : d ∈ s.db.deliveries.rows) (hid : c.request.deliveryId = d.id)
    (hσ : d.simulationId = σ) : handles σ s w := by
  obtain ⟨e, he, k, -, -, hreq⟩ := hf.asked w l hl c hc
  have hce : c.request.deliveryId = e.id := by rw [hreq]; rfl
  obtain rfl : d = e := s.db.deliveries.row_unique hd he (hid.symm.trans hce)
  have hsim : c.request.simulationId = σ := by rw [hreq]; exact hσ
  rw [handles, hl, Option.getD_some, List.any_eq_true]
  exact ⟨c, hc, beq_iff_eq.mpr hsim⟩

/-- A delivery that a step leaves waiting was waiting as it is, or waits from the clock on. -/
theorem step_due (hf : Framed cfg s) (hs : Step cfg s e t) (ht : Timely σ clock s e)
    (hpass : ∀ i p, s.conductor = some (i, p) → i.simulationId = σ → i.now ≤ clock)
    (hpos : 0 ≤ patience cfg) {d : Delivery} (hd : d ∈ t.db.deliveries.rows)
    (hσ : d.simulationId = σ) (hp : d.state = .pending) :
    d ∈ s.db.deliveries.rows ∨ dueAt (clock + patience cfg) d.nextAttemptAt := by
  cases step_written hf.invariant hs hd with
  | kept h => exact Or.inl h
  | ingested x hx id eventId c =>
    have hle : x.occurredAt.getD _ ≤ clock := ht hσ x hx
    exact Or.inr (decide_eq_true (hle.trans (le_add_of_nonneg_right hpos)))
  | leased d => cases hp
  | expired d reason => cases hp
  | @settled w results now l d c hl hc hrow hid =>
    have hsim : d.simulationId = σ := by
      revert hσ
      cases settlement cfg now c <;> exact id
    exact Or.inr (settlement_due (ht (handles_of_asked hf hl hc hrow hid hsim)) hp)
  | @conducted i p d d' hc hrow hw =>
    cases hw with
    | same => exact Or.inl hrow
    | reclaimed hm =>
      have hsim : d.simulationId = σ := by
        revert hσ
        cases reclaimSettlement cfg i.now d <;> exact id
      have hnow := hpass i _ hc ((mem_expiredLeases hm).2.1.symm.trans hsim)
      exact Or.inr (reclaim_due hnow hp)
    | dropped x _ hx =>
      have hp : x.state = .pending := hp
      rcases hx with hx | hx <;> rw [hx] at hp <;> cases hp
    | admitted => cases hp

theorem step_rested (hf : Framed cfg s) (hs : Step cfg s e t) (ht : Timely σ clock s e)
    (hpass : ∀ i p, s.conductor = some (i, p) → i.simulationId = σ → i.now ≤ clock)
    (hpos : 0 ≤ patience cfg) (hr : Rested cfg σ h s.db) :
    Rested cfg σ (max h (clock + patience cfg)) t.db := by
  constructor
  · intro d hd hσ hp
    rcases step_due hf hs ht hpass hpos hd hσ hp with hd | hdue
    · exact dueAt_later (hr.due d hd hσ hp) (le_max_left _ _)
    · exact dueAt_later hdue (le_max_right _ _)
  · intro a ha hσ
    obtain ⟨g, more, hg, hkept, hmore⟩ := (step_effect hf.invariant hs).attempts
    rw [hg] at ha
    rcases List.mem_append.mp ha with ha | ha
    · obtain ⟨b, hb, rfl⟩ := List.mem_map.mp ha
      rw [(hkept b).started]
      exact (hr.lapsed b hb ((hkept b).simulation.symm.trans hσ)).trans (le_max_left _ _)
    · obtain ⟨hstart, -⟩ := hmore a ha
      have hnow : a.startedAt ≤ clock := by
        cases e with
        | claim w i now locked scan =>
          obtain ⟨rfl, rfl⟩ := Prod.mk.inj (Option.some.inj hstart)
          exact ht hσ
        | ingest | complete | abandon | beginPass | statement | endPass => cases hstart
      exact (add_le_add hnow span_le_patience).trans (le_max_right _ _)

end Waits

section Changes

variable {cfg : Settings} {σ : SimulationId} {actor : Option WorkerId} {f g : File}
variable {s t : State} {e : Action}

theorem move_still (h : Move cfg actor f g) (hd : g.delivery = f.delivery) : g = f := by
  have hs := congrArg Delivery.state hd
  cases h with
  | stay => rfl
  | admitted now h => simp [readyRow, h] at hs
  | drop now x h hx => rcases hx with hx | hx <;> simp [dropRow, h, hx] at hs
  | expire now reason h => simp [expireRow, h] at hs
  | claim w now a hw h => simp [leaseRow, h] at hs
  | settle now c h => exact absurd (hs.trans h) (settleRow_settled _ _ _).2
  | reclaim now h => exact absurd (hs.trans h) (settleRow_settled _ _ _).2

theorem still_of_files {u v : Db} (hu : Consistent u) {φ : Delivery → Delivery}
    {γ : Attempt → Attempt} {more : List Attempt}
    (hd : v.deliveries.rows = u.deliveries.rows.map φ)
    (hsim : ∀ d ∈ u.deliveries.rows, (φ d).simulationId = d.simulationId)
    (ha : v.attempts.rows = u.attempts.rows.map γ ++ more) (hγ : ∀ a, Kept a (γ a))
    (hmore : ∀ a ∈ more, ∃ d ∈ u.deliveries.rows, d.id = a.deliveryId ∧
      d.simulationId = a.simulationId)
    (hfile : ∀ d ∈ u.deliveries.rows, d.simulationId = σ → file v (φ d) = file u d) :
    Still σ u v := by
  have hsame : ∀ d ∈ u.deliveries.rows, d.simulationId = σ →
      (u.attemptsOf d.id).map γ = u.attemptsOf d.id ∧
        more.filter (fun a => a.deliveryId == d.id) = [] := by
    intro d hm hσ
    have hf := hfile d hm hσ
    have hrow : φ d = d := congrArg File.delivery hf
    have hatt : v.attemptsOf (φ d).id = u.attemptsOf d.id := congrArg File.attempts hf
    rw [hrow, attemptsOf_append ha (fun a => (hγ a).delivery)] at hatt
    have hlen := congrArg List.length hatt
    rw [List.length_append, List.length_map] at hlen
    have hnil : more.filter (fun a => a.deliveryId == d.id) = [] :=
      List.eq_nil_of_length_eq_zero (by omega)
    rw [hnil, List.append_nil] at hatt
    exact ⟨hatt, hnil⟩
  constructor
  · simp only [slice, hd]
    apply filter_map_aside (g := Delivery.simulationId)
    intro d hm
    by_cases hσ : d.simulationId = σ
    · exact Or.inl (congrArg File.delivery (hfile d hm hσ))
    · exact Or.inr ⟨hσ, (hsim d hm).symm ▸ hσ⟩
  · have hnone : more.filter (fun a => a.simulationId == σ) = [] := by
      rw [List.filter_eq_nil_iff]
      intro a hm hσ
      obtain ⟨d, hrow, hid, hds⟩ := hmore a hm
      have hnil := (hsame d hrow (hds.trans (beq_iff_eq.mp hσ))).2
      exact List.filter_eq_nil_iff.mp hnil a hm (beq_iff_eq.mpr hid.symm)
    simp only [slice, ha, List.filter_append, hnone, List.append_nil]
    apply filter_map_aside (g := Attempt.simulationId)
    intro a hm
    by_cases hσ : a.simulationId = σ
    · left
      obtain ⟨d, hrow, hid, hds⟩ := hu.attempts a hm
      have hmap := (hsame d hrow (hds.trans hσ)).1
      have hin : a ∈ u.attemptsOf d.id := mem_attemptsOf.mpr ⟨hm, hid.symm⟩
      exact List.map_inj_left.mp (hmap.trans (List.map_id _).symm) a hin
    · exact Or.inr ⟨hσ, (hγ a).simulation.symm ▸ hσ⟩

/-- Deliveries that all move, and one of the simulation that does not stay, use up some of what
is outstanding. -/
theorem outstanding_lt {u v : Db} {φ : Delivery → Delivery}
    (hi : ∀ d ∈ u.deliveries.rows, Sound cfg (file u d))
    (hrows : v.deliveries.rows = u.deliveries.rows.map φ)
    (hmove : ∀ d ∈ u.deliveries.rows, Move cfg actor (file u d) (file v (φ d)))
    (hne : ∃ d ∈ u.deliveries.rows, d.simulationId = σ ∧ φ d ≠ d) :
    outstanding cfg σ v < outstanding cfg σ u := by
  obtain ⟨d, hd, hσ, hne⟩ := hne
  have hslice : (slice σ v).deliveries = (slice σ u).deliveries.map φ := by
    simp only [slice, hrows, List.filter_map]
    congr 1
    refine List.filter_congr fun x hx => ?_
    have hsim : (φ x).simulationId = x.simulationId := (hmove x hx).identity.2.1
    rw [Function.comp_apply, hsim]
  have hle : ∀ x ∈ (slice σ u).deliveries, changesLeft cfg (φ x) ≤ changesLeft cfg x := by
    intro x hx
    obtain ⟨hrow, -⟩ := mem_slice_deliveries.mp hx
    by_cases hsame : φ x = x
    · rw [hsame]
    · have hpay : changesLeft cfg (φ x) + 1 ≤ changesLeft cfg x :=
        move_changesLeft (hmove x hrow) (hi x hrow) hsame
      omega
  have hlt : changesLeft cfg (φ d) < changesLeft cfg d := by
    have hpay : changesLeft cfg (φ d) + 1 ≤ changesLeft cfg d :=
      move_changesLeft (hmove d hd) (hi d hd) hne
    omega
  rw [outstanding, hslice, List.map_map]
  exact List.sum_lt_sum _ _ hle ⟨d, mem_slice_deliveries.mpr ⟨hd, hσ⟩, hlt⟩

/-- A step that adds no delivery of the simulation uses up some of what is outstanding, or leaves
the simulation as it was. -/
theorem step_spends (hf : Framed cfg s) (hs : Step cfg s e t)
    (hq : ∀ i now specs, e = .ingest i now specs → i ≠ σ) :
    outstanding cfg σ t.db < outstanding cfg σ s.db ∨ Still σ s.db t.db := by
  by_cases hacts : ActsOn σ s e
  · have hi := hf.invariant
    have hnot : ∀ i now specs, e ≠ .ingest i now specs := by
      rintro i now specs rfl
      exact hq i now specs rfl hacts
    obtain ⟨φ, hrows, hmove⟩ := step_deliveries hi hs hnot
    have hsim : ∀ d ∈ s.db.deliveries.rows, (φ d).simulationId = d.simulationId :=
      fun d hd => (hmove d hd).identity.2.1
    by_cases hall : ∀ d ∈ s.db.deliveries.rows, d.simulationId = σ → φ d = d
    · right
      obtain ⟨γ, more, hγ, hkept, hmore⟩ := (step_effect hi hs).attempts
      apply still_of_files hf.kept.rows hrows hsim hγ hkept
      · intro a ha
        have hin : a ∈ t.db.attempts.rows := hγ ▸ List.mem_append_right _ ha
        obtain ⟨d', hd', hid, hds⟩ := (step_framed hf hs).kept.rows.attempts a hin
        rw [hrows] at hd'
        obtain ⟨d, hd, rfl⟩ := List.mem_map.mp hd'
        exact ⟨d, hd, (hmove d hd).identity.1.symm.trans hid, (hsim d hd).symm.trans hds⟩
      · exact fun d hd hσ => move_still (hmove d hd) (hall d hd hσ)
    · left
      push Not at hall
      exact outstanding_lt hi.files hrows hmove hall
  · exact Or.inr (still_of_slice (step_aside hf hs hacts))

end Changes

section Claims

variable {cfg : Settings} {scan : ScanOrder} {locked : ℕ → Bool} {σ : SimulationId}
variable {w : WorkerId} {now : ℚ} {limit : ℕ} {db : Db}

theorem claimed_row_gone {r : ClaimRow} (hr : r ∈ claimRows scan locked σ limit db) :
    r.delivery ∉ (claimBatch cfg scan locked σ w now limit db).1.deliveries.rows := by
  intro hin
  obtain ⟨-, -, hready⟩ := mem_claimRows hr
  obtain ⟨f, hf, htaken⟩ := claimBatch_taken cfg scan locked σ w now limit db
  rw [hf] at hin
  obtain ⟨d, hd, hdr⟩ := List.mem_map.mp hin
  have ht := htaken d hd
  rw [hdr] at ht
  generalize hre : r.delivery = e at ht hready
  cases ht with
  | kept h => exact h r hr hre
  | leased | expired => cases hready

theorem claim_moves (hc : Consistent db) (hlimit : 0 < limit) {d : Delivery}
    (hd : d ∈ db.deliveries.rows) (hσ : d.simulationId = σ) (hready : d.state = .ready)
    (hfree : locked d.id = false) :
    ¬ Still σ db (claimBatch cfg scan locked σ w now limit db).1 := by
  intro hstill
  obtain ⟨c, hcons, hid, -⟩ := hc.deliveries d hd
  obtain ⟨k, hk⟩ := Option.isSome_iff_exists.mp (List.find?_isSome.mpr
    ⟨c, hcons, beq_iff_eq.mpr hid⟩ : (db.cast.consumers.find? fun c => c.id == d.consumerId).isSome)
  have hfound : ∃ x, claimRow db d = some x := ⟨_, by rw [claimRow, hk]; rfl⟩
  obtain ⟨x, hx⟩ := hfound
  have hfetch : x ∈ (scan.sortBy Delivery.readyAt (db.deliveries.rows.filter fun d =>
      d.simulationId == σ && d.state == .ready && !locked d.id)).filterMap (claimRow db) := by
    refine List.mem_filterMap.mpr ⟨d, (scan.sortBy_perm _ _).mem_iff.mpr ?_, hx⟩
    simp [hd, hσ, hready, hfree]
  have hne : claimRows scan locked σ limit db ≠ [] := by
    rw [claimRows, Ne, List.take_eq_nil_iff]
    rintro (h0 | h0)
    · omega
    · rw [h0] at hfetch
      cases hfetch
  obtain ⟨r, hr⟩ := List.exists_mem_of_ne_nil _ hne
  obtain ⟨hrow, hsim, -⟩ := mem_claimRows hr
  exact claimed_row_gone hr ((hstill.delivery hsim).mpr hrow)

end Claims

/-- Settings with which a pass and a claim may take something at all. -/
structure Workable (cfg : Settings) : Prop where
  depth : 0 < cfg.readyBufferDepthMultiplier
  overfetch : 0 < cfg.admissionOverfetch
  batch : 0 < cfg.workerBatchSize
  window : 0 ≤ cfg.fairnessWindowVirtualS

theorem Workable.patience_nonneg {cfg : Settings} (h : Workable cfg) : 0 ≤ patience cfg :=
  h.window.trans ((le_max_right _ _).trans (le_max_right _ _))

/-- Each consumer of the simulation may be attempted once in a window at least. -/
def Served (cfg : Settings) (σ : SimulationId) (cast : Cast) : Prop :=
  ∀ c ∈ cast.consumers, c.simulationId = σ → 1 ≤ c.maxAttemptsPerS * cfg.fairnessWindowVirtualS

/-- A pass over a run that goes on, neither in its outage nor at the backstop, with a slot a
window. -/
structure Flowing (cfg : Settings) (i : PassInput) : Prop where
  running : i.elapsed < SCENARIO_MAX_VIRTUAL_S
  clear : isOutage i.elapsed i.outageOverride = false
  rate : 1 ≤ i.globalAttemptsPerS * cfg.fairnessWindowVirtualS

instance (cfg : Settings) (i : PassInput) : Decidable (Flowing cfg i) :=
  decidable_of_iff (i.elapsed < SCENARIO_MAX_VIRTUAL_S ∧
    isOutage i.elapsed i.outageOverride = false ∧
      1 ≤ i.globalAttemptsPerS * cfg.fairnessWindowVirtualS)
    ⟨fun h => ⟨h.1, h.2.1, h.2.2⟩, fun h => ⟨h.running, h.clear, h.rate⟩⟩

section Passes

variable {cfg : Settings} {i : PassInput} {h : ℚ} {db : Db} {d : Delivery}

theorem reclaim_moves (hc : Consistent db) (hi : ∀ d ∈ db.deliveries.rows, Sound cfg (file db d))
    (hr : Rested cfg i.simulationId h db) (hlt : h < i.now) (hd : d ∈ db.deliveries.rows)
    (hσ : d.simulationId = i.simulationId) (hflight : d.state = .inFlight)
    (hfree : i.locked d.id = false) : ¬ Still i.simulationId db
      (reclaimExpiredLeases cfg i.simulationId i.now i.locked db) := by
  intro hstill
  obtain ⟨a, ha, hopen⟩ := (hi d hd).story.in_flight hflight
  obtain ⟨-, -, -, hlease, -⟩ := (hi d hd).story.open_attempt ha hopen
  have hlease : d.leaseExpiresAt = some (a.startedAt + cfg.leaseDurationVirtualS) := hlease
  obtain ⟨harow, had⟩ := mem_attemptsOf.mp ha
  obtain ⟨e, he, hid, hsim⟩ := hc.attempts a harow
  obtain rfl : e = d := db.deliveries.row_unique he hd (hid.trans had)
  have hspan : a.startedAt + cfg.leaseDurationVirtualS ≤ h :=
    (add_le_add le_rfl (le_max_left _ _)).trans (hr.lapsed a harow (hsim.symm.trans hσ))
  have hexpired : e ∈ expiredLeases i.simulationId i.now i.locked db := by
    refine List.mem_filter.mpr ⟨hd, ?_⟩
    simp only [hσ, hflight, hfree, leaseExpired, hlease, beq_self_eq_true, Bool.not_false,
      Bool.and_true, Bool.true_and]
    exact decide_eq_true (hspan.trans_lt hlt)
  obtain ⟨f, hf, hrow⟩ := reclaim_rows cfg i.simulationId i.now i.locked db
  have hin := (hstill.delivery hσ).mpr hd
  rw [hf] at hin
  obtain ⟨x, hx, hxe⟩ := List.mem_map.mp hin
  rcases hrow x hx with ⟨-, hfx⟩ | ⟨hnot, hfx⟩
  · have hs := congrArg Delivery.state (hfx.symm.trans hxe)
    exact (settleRow_settled i.now (reclaimSettlement cfg i.now x) x).2 (hs.trans hflight)
  · obtain rfl : x = e := hfx.symm.trans hxe
    exact hnot hexpired

theorem idle_of_rested (hr : Rested cfg i.simulationId h db) (hlt : h < i.now)
    (hactive : ∃ d ∈ db.deliveries.rows, d.simulationId = i.simulationId ∧ d.state.active)
    (hqueued : ∀ d ∈ db.deliveries.rows, d.simulationId = i.simulationId →
      d.state ≠ .ready ∧ d.state ≠ .inFlight) : IdlePass.Idle cfg i db where
  due := by
    obtain ⟨d, hd, hσ, ha⟩ := hactive
    obtain ⟨hready, hflight⟩ := hqueued d hd hσ
    have hp : d.state = .pending := by
      cases hs : d.state <;> simp_all [DeliveryState.active]
    exact ⟨d, hd, isDue_iff.mpr ⟨hσ, hp, dueAt_later (hr.due d hd hσ hp) hlt.le⟩⟩
  queued := hqueued
  quiet a ha hσ := by
    have hspan : a.startedAt + cfg.fairnessWindowVirtualS ≤ h :=
      (add_le_add le_rfl (le_max_right _ _)).trans (hr.lapsed a ha hσ)
    linarith

theorem open_of_active (ha : Flowing cfg i)
    (hactive : ∃ d ∈ db.deliveries.rows, d.simulationId = i.simulationId ∧ d.state.active) :
    IdlePass.Open i db := by
  refine ⟨?_, ha.clear⟩
  have hbacklog : totalBacklog (readGauges i.simulationId db) ≠ 0 := by
    intro h0
    obtain ⟨d, hd, hσ, hon⟩ := hactive
    have hterm := RetirementRace.ended_of_backlog h0 d hd hσ
    rw [DeliveryState.terminal, hon] at hterm
    cases hterm
  rw [isFinished, if_neg (not_le.mpr ha.running), beq_eq_false_iff_ne.mpr hbacklog, Bool.and_false]

/-- An idle pass with enough of every rate drops or admits something. -/
theorem idle_moves (hw : Workable cfg) (hc : Consistent db) (hidle : IdlePass.Idle cfg i db)
    (ho : IdlePass.Open i db) (ha : Flowing cfg i) (hs : Served cfg i.simulationId db.cast) :
    IdlePass.Moves cfg i db := by
  have hslots := (IdleProgress.slots_pos hc hidle hw.depth).mpr ha.rate
  obtain ⟨d, hd, hdue⟩ := hidle.due
  have hserved : ∀ d ∈ dueQueue i.scan i.simulationId i.now db,
      IdleProgress.Attemptable cfg db d := by
    intro e he
    obtain ⟨hrow, hdue⟩ := mem_dueQueue.mp he
    obtain ⟨c, hcons, hid, hsim⟩ := hc.deliveries e hrow
    exact ⟨c, hcons, hid, hs c hcons (hsim.trans (isDue_iff.mp hdue).1)⟩
  have hqueue : d ∈ dueQueue i.scan i.simulationId i.now db := mem_dueQueue.mpr ⟨hd, hdue⟩
  obtain ⟨c, hc'⟩ := (IdleProgress.allowance_iff hc hidle hslots).mpr ⟨d, hqueue, hserved d hqueue⟩
  rw [IdlePass.moves_iff_selects hidle ho]
  refine ⟨hslots, ⟨c, hc'⟩, ?_⟩
  cases hfair : i.fairDrainEnabled with
  | true =>
    rw [hfair] at hc'
    obtain ⟨e, he, hpos⟩ := IdleProgress.fair_fetch hc hidle hw.overfetch _ hc'
    exact ⟨e, he, Or.inr hpos⟩
  | false =>
    have hreach : 0 < (IdlePass.idleBudget cfg i db).slots.toNat * cfg.admissionOverfetch :=
      Nat.mul_pos (Int.lt_toNat.mpr hslots) hw.overfetch
    have htake : (dueQueue i.scan i.simulationId i.now db).take
        ((IdlePass.idleBudget cfg i db).slots.toNat * cfg.admissionOverfetch) ≠ [] := by
      rw [Ne, List.take_eq_nil_iff]
      rintro (h0 | h0)
      · omega
      · rw [h0] at hqueue
        cases hqueue
    obtain ⟨e, he⟩ := List.exists_mem_of_ne_nil _ htake
    have hin := List.mem_of_mem_take he
    exact ⟨e, he, Or.inr ((IdleProgress.pool_allowance hc hidle hslots hin).mpr (hserved e hin))⟩

theorem moved_slice (hc : Consistent db) (hm : IdlePass.Moves cfg i db) :
    (slice i.simulationId ((pass cfg i).run db).2).deliveries ≠
      (slice i.simulationId db).deliveries := by
  intro hsame
  obtain ⟨d, hd, hp, e, he, hid, hs⟩ := hm
  have honly : Only i.simulationId db ((pass cfg i).run db).2 := pass_only hc
  have hin : e ∈ db.deliveries.rows := by
    by_cases hσ : e.simulationId = i.simulationId
    · exact (mem_slice_deliveries.mp (hsame ▸ mem_slice_deliveries.mpr ⟨he, hσ⟩)).1
    · have hother := congrArg Slice.deliveries (honly e.simulationId hσ)
      exact (mem_slice_deliveries.mp (hother ▸ mem_slice_deliveries.mpr ⟨he, rfl⟩)).1
  obtain rfl : e = d := db.deliveries.row_unique hin hd hid
  rw [hp] at hs
  rcases hs with hs | hs | hs <;> cases hs

end Passes

end RestedBacklog
