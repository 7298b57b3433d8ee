import WebhookRecovery.SimulationSlices
import WebhookRecovery.PassFaults

/-! A pass and the rows of its simulation. What it does to them, and whether it raises, depends on
them alone, and it changes no others. -/
namespace PassIsolation

open KeyedTables RecoverySchema InterleavedPrograms CheckedPrograms WorkerClaim LeaseReaper
open DeliveryPolicy DeliveryAdmission MetricsSeries ConductorPass PassGuarantee PassStages
open PassFaults SimulationSlices

structure Alike (σ : SimulationId) (s t : Db) : Prop where
  rows : slice σ s = slice σ t
  left : Consistent s
  right : Consistent t

theorem Alike.trans {σ : SimulationId} {s t u : Db} (h : Alike σ s t) (k : Alike σ t u) :
    Alike σ s u := ⟨h.rows.trans k.rows, h.left, k.right⟩

def owner (d : Delivery) : ℕ × SimulationId × ConsumerId := (d.id, d.simulationId, d.consumerId)

def pace (x : Simulation) : SimulationId × ℚ := (x.id, x.speedMultiplier)

def parent (a : Attempt) : ℕ × SimulationId := (a.deliveryId, a.simulationId)

section Consistency

variable {cfg : Settings} {i : PassInput} {s t : Db}

theorem Consistent.kept (h : Consistent s) (hc : t.cast = s.cast)
    (hs : t.simulations.map pace = s.simulations.map pace)
    (hd : t.deliveries.rows.map owner = s.deliveries.rows.map owner)
    (ha : t.attempts.rows.map parent = s.attempts.rows.map parent) : Consistent t := by
  have hids : t.simulations.map Simulation.id = s.simulations.map Simulation.id := by
    have h := congrArg (List.map Prod.fst) hs
    rwa [List.map_map, List.map_map] at h
  refine ⟨hids ▸ h.simulations, fun x hm => ?_, fun d hm => ?_, fun a hm => ?_⟩
  · have hm := List.mem_map_of_mem (f := pace) hm
    rw [hs] at hm
    obtain ⟨x₀, hm, heq⟩ := List.mem_map.mp hm
    rw [← (Prod.mk.inj heq).2]
    exact h.speeds x₀ hm
  · have hm := List.mem_map_of_mem (f := owner) hm
    rw [hd] at hm
    obtain ⟨d₀, hm, heq⟩ := List.mem_map.mp hm
    simp only [owner, Prod.mk.injEq] at heq
    rw [hc, ← heq.2.1, ← heq.2.2]
    exact h.deliveries d₀ hm
  · have hm := List.mem_map_of_mem (f := parent) hm
    rw [ha] at hm
    obtain ⟨a₀, hm, heq⟩ := List.mem_map.mp hm
    obtain ⟨hdel, hsim⟩ := Prod.mk.inj heq
    obtain ⟨d₀, hm, hid, hds⟩ := h.attempts a₀ hm
    have hm := List.mem_map_of_mem (f := owner) hm
    rw [← hd] at hm
    obtain ⟨d, hm, heq⟩ := List.mem_map.mp hm
    simp only [owner, Prod.mk.injEq] at heq
    exact ⟨d, hm, heq.1.trans (hid.trans hdel), heq.2.1.trans (hds.trans hsim)⟩

theorem columns_map {α γ : Type} {f : α → α} {g : α → γ} {l : List α} (h : ∀ x, g (f x) = g x) :
    (l.map f).map g = l.map g := by
  rw [List.map_map]
  exact List.map_congr_left fun x _ => h x

theorem PassWrite.consistent (hw : PassWrite cfg i s t) (h : Consistent s) : Consistent t := by
  cases hw with
  | reclaim =>
    have hd : (reclaimExpiredLeases cfg i.simulationId i.now i.locked s).deliveries.rows = _ :=
      Table.executemany_rows _ _ _ _ _
    have ha := reclaim_attempts cfg i.simulationId i.now i.locked s
    refine Consistent.kept h rfl rfl ?_ ?_
    · rw [hd]
      refine columns_map (applyAll_field (g := owner) (fun x d => ?_) _)
      cases x.2 <;> rfl
    · rw [ha]
      refine columns_map fun a => ?_
      split <;> rfl
  | chart h' => cases h' <;> exact Consistent.kept h rfl rfl rfl rfl
  | retire =>
    refine Consistent.kept h rfl (columns_map fun x => ?_) rfl rfl
    split <;> rfl
  | admits h' =>
    cases h' with
    | read => exact h
    | drop drops =>
      have hd : (applyDrops drops i.now s).deliveries.rows = s.deliveries.rows.map
          (applyAll (fun x d => d.id == x.deliveryId) (dropRow i.now) (byState drops)) :=
        Table.executemany_rows _ _ _ _ _
      refine Consistent.kept h rfl rfl ?_ rfl
      rw [hd]
      exact columns_map (applyAll_field (f := dropRow i.now) (g := owner) (fun _ _ => rfl) _)
    | ready ids =>
      refine Consistent.kept h rfl rfl ?_ rfl
      rw [markReady_rows]
      refine columns_map fun d => ?_
      split <;> rfl

theorem pass_consistent (h : Consistent s) : Consistent ((pass cfg i).run s).2 :=
  run_of_writes (W := fun s t => Consistent s → Consistent t) (fun _ h => h)
    (fun _ _ _ h k hs => k (h hs))
    ((pass_writes cfg i).mono fun _ _ hw => PassWrite.consistent hw) h

end Consistency

section Locality

variable {cfg : Settings} {i : PassInput} {s t : Db}

theorem alike_of_slices {σ : SimulationId} (cfg : Settings) {s' t' : Db} (h : Alike σ s t)
    (hs : PassWrite cfg i s s') (ht : PassWrite cfg i t t') (hrows : slice σ s' = slice σ t') :
    Alike σ s' t' := ⟨hrows, PassWrite.consistent hs h.left, PassWrite.consistent ht h.right⟩

theorem reclaim_local : Local (Alike i.simulationId)
    (Program.write (reclaimExpiredLeases cfg i.simulationId i.now i.locked)) := by
  refine Local.write fun s t h => alike_of_slices cfg h (.reclaim s) (.reclaim t) ?_
  rw [slice_reclaim, slice_reclaim, expiredLeases_congr h.rows, h.rows]

theorem metrics_local (gauges : Gauges) : Local (Alike i.simulationId)
    (MetricsSeries.write cfg i.simulationId i.now gauges i.lastWritten) := by
  have buckets : ∀ last, Local (Alike i.simulationId)
      (writeBuckets cfg i.simulationId i.now gauges i.lastWritten last) := by
    intro last
    rw [writeBuckets]
    dsimp only
    split
    · exact Local.pure _
    refine Local.bind (Local.read fun _ _ h => consumerIds_congr h.rows) fun consumers => ?_
    split
    · exact Local.pure _
    refine Local.bind (Local.read fun _ _ h => attemptsByBucket_congr h.rows _ _ _)
      fun attempts => ?_
    refine Local.bind (Local.read fun _ _ h => terminalsByBucket_congr h.rows _ _ _)
      fun terminals => ?_
    refine Local.bind (Local.write fun s t h => ?_) fun _ => Local.pure _
    refine alike_of_slices (i := i) cfg h (.chart (.upsert _ (fun _ => mem_snapshotRows) s))
      (.chart (.upsert _ (fun _ => mem_snapshotRows) t)) ?_
    rw [slice_upsert _ fun _ => mem_snapshotRows, slice_upsert _ fun _ => mem_snapshotRows, h.rows]
  refine Local.bind ?_ buckets
  unfold cursor
  split
  · exact Local.pure _
  · exact Local.read fun _ _ h => recoverCursor_slice h.rows

theorem budget_local (cfg : Settings) (i : PassInput) : Local (Alike i.simulationId)
    (computeBudget cfg i.simulationId i.globalAttemptsPerS i.now) := by
  rw [computeBudget]
  refine Local.bind (Local.read fun _ _ h => totalCap_congr h.rows) fun _ => ?_
  refine Local.bind (Local.read fun _ _ h => readyCount_congr h.rows) fun _ => ?_
  exact Local.bind (Local.read fun _ _ h => attemptsInWindow_congr h.rows) fun _ =>
    Local.pure _

theorem selection_local (budget : Budget) (gauges : Gauges) (policies : PolicyMap) :
    Local (Alike i.simulationId) (selectCandidates cfg i.scan i.simulationId i.now budget gauges
      policies i.fairDrainEnabled) := by
  have states : Local (Alike i.simulationId)
      (readConsumerStates cfg i.simulationId i.now gauges) := by
    rw [readConsumerStates]
    refine Local.bind (Local.read fun _ _ h =>
      consumerDemand_congr h.rows h.left h.right) fun _ => ?_
    exact Local.bind (Local.read fun _ _ h => windowUsage_congr h.rows) fun _ =>
      Local.pure _
  rw [selectCandidates]
  split
  · exact Local.pure _
  refine Local.bind states fun _ => ?_
  dsimp only
  split
  · exact Local.pure _
  refine Local.bind (Local.read fun _ _ h => fetchCandidates_congr h.rows _ _ _ _ _)
    fun _ => ?_
  exact Local.bind (Local.read fun _ _ h => evaluate_congr h.rows _ _) fun _ =>
    Local.pure _

theorem conclude_local (gauges : Gauges) :
    Local (Alike i.simulationId) (conclude cfg i gauges) := by
  rw [conclude]
  split
  · refine Local.write fun s t h => alike_of_slices cfg h (.retire s) (.retire t) ?_
    rw [slice_retire, slice_retire, h.rows]
  rw [admission]
  split
  · exact Local.pure _
  refine Local.bind (budget_local cfg i) fun budget => ?_
  split
  · exact Local.pure _
  refine Local.bind (Local.read fun _ _ h => loadPolicies_congr h.rows) fun policies => ?_
  refine Local.bind (selection_local budget gauges policies) fun sel => ?_
  refine Local.bind (Local.write fun s t h => ?_) fun _ => Local.write fun s t h => ?_
  · refine alike_of_slices cfg h (.admits (.drop sel.drops s)) (.admits (.drop sel.drops t)) ?_
    rw [slice_applyDrops, slice_applyDrops, h.rows]
  · refine alike_of_slices cfg h (.admits (.ready sel.admitted s))
      (.admits (.ready sel.admitted t)) ?_
    rw [slice_markReady, slice_markReady, h.rows]

/-- What a pass does to its simulation depends on the simulation's own rows. -/
theorem pass_local (cfg : Settings) (i : PassInput) :
    Local (Alike i.simulationId) (pass cfg i) := by
  rw [pass_stages]
  refine Local.bind reclaim_local fun _ => ?_
  refine Local.bind (Local.read fun _ _ h => readGauges_congr h.rows) fun gauges => ?_
  exact Local.bind (metrics_local gauges) fun _ => conclude_local gauges

theorem pass_lockstep (cfg : Settings) (i : PassInput) :
    Lockstep (Alike i.simulationId) (pass cfg i) := (pass_local cfg i).lockstep

end Locality

def Only (τ : SimulationId) (s t : Db) : Prop := ∀ σ, σ ≠ τ → slice σ t = slice σ s

def Names (τ : SimulationId) (ids : List ℕ) (db : Db) : Prop :=
  ∀ d ∈ db.deliveries.rows, d.id ∈ ids → d.simulationId = τ

section Frames

variable {cfg : Settings} {i : PassInput} {τ : SimulationId} {now : ℚ} {s t u : Db}

theorem Only.refl (τ : SimulationId) (s : Db) : Only τ s s := fun _ _ => rfl

theorem Only.trans (h : Only τ s t) (k : Only τ t u) : Only τ s u :=
  fun σ hσ => (k σ hσ).trans (h σ hσ)

theorem reclaim_only (h : Consistent s) (locked : ℕ → Bool) :
    Only τ s (reclaimExpiredLeases cfg τ now locked s) := by
  intro σ hσ
  have expired : ∀ q ∈ expiredLeases τ now locked s, ∀ d ∈ s.deliveries.rows, q.id = d.id →
      d.simulationId = τ := by
    intro q hq d hd hid
    obtain ⟨hrow, hsim, -⟩ := mem_expiredLeases hq
    rwa [← s.deliveries.row_unique hrow hd hid]
  have hdeliveries : (slice σ s).deliveries.map (applyAll (fun x d => d.id == x.1)
      (fun x d => releaseLease (settleRow now x.2 d))
      (reclaimParams cfg now (expiredLeases τ now locked s))) = (slice σ s).deliveries := by
    refine (List.map_congr_left fun d hd => ?_).trans (List.map_id _)
    obtain ⟨hd, hdσ⟩ := List.mem_filter.mp hd
    refine applyAll_of_notMem (k := Prod.fst) (fun x r hx => (beq_iff_eq.mp hx).symm) ?_
    intro x hx hid
    obtain ⟨q, hq, rfl⟩ := List.mem_map.mp ((reclaimParams_perm cfg now _).subset hx)
    exact hσ ((beq_iff_eq.mp hdσ).symm.trans (expired q hq d hd hid))
  have hattempts : ((slice σ s).attempts.map fun a =>
      if a.deliveryId ∈ (expiredLeases τ now locked s).map Delivery.id ∧ a.isOpen then
        expireAttempt now a else a) = (slice σ s).attempts := by
    refine (List.map_congr_left fun a ha => ?_).trans (List.map_id _)
    obtain ⟨ha, haσ⟩ := List.mem_filter.mp ha
    refine if_neg fun hin => ?_
    obtain ⟨q, hq, hid⟩ := List.mem_map.mp hin.1
    obtain ⟨d, hd, hda, hds⟩ := h.attempts a ha
    have hτ := expired q hq d hd (hid.trans hda.symm)
    exact hσ ((beq_iff_eq.mp haσ).symm.trans (hds.symm.trans hτ))
  rw [slice_reclaim, hdeliveries, hattempts]

theorem charts_only (h : Charts τ s t) : Only τ s t := by
  intro σ hσ
  cases h with
  | read => rfl
  | upsert rows own => rw [slice_upsert rows own, if_neg (Ne.symm hσ)]

theorem retire_only : Only τ s (retire τ now s) := by
  intro σ hσ
  have hrows : ((slice σ s).simulations.map fun x => if x.id = τ then retireRow now x else x) =
      (slice σ s).simulations := by
    refine (List.map_congr_left fun x hx => ?_).trans (List.map_id _)
    have hx := beq_iff_eq.mp (List.mem_filter.mp hx).2
    exact if_neg fun hτ => hσ (hx.symm.trans hτ)
  rw [slice_retire, hrows]

theorem drops_only {drops : List Drop} (h : Names τ (drops.map Drop.deliveryId) s) :
    Only τ s (applyDrops drops now s) := by
  intro σ hσ
  have hrows : (slice σ s).deliveries.map (applyAll (fun x d => d.id == x.deliveryId) (dropRow now)
      (byState drops)) = (slice σ s).deliveries := by
    refine (List.map_congr_left fun d hd => ?_).trans (List.map_id _)
    obtain ⟨hd, hdσ⟩ := List.mem_filter.mp hd
    refine applyAll_of_notMem (k := Drop.deliveryId) (fun x r hx => (beq_iff_eq.mp hx).symm) ?_
    intro x hx hid
    have hτ := h d hd (List.mem_map.mpr ⟨x, mem_byState.mp hx, hid⟩)
    exact hσ ((beq_iff_eq.mp hdσ).symm.trans hτ)
  rw [slice_applyDrops, hrows]

theorem ready_only {ids : List ℕ} (h : Names τ ids s) : Only τ s (markReady ids now s) := by
  intro σ hσ
  have hrows : ((slice σ s).deliveries.map fun d => if d.id ∈ ids then readyRow now d else d) =
      (slice σ s).deliveries := by
    refine (List.map_congr_left fun d hd => ?_).trans (List.map_id _)
    obtain ⟨hd, hdσ⟩ := List.mem_filter.mp hd
    exact if_neg fun hin => hσ ((beq_iff_eq.mp hdσ).symm.trans (h d hd hin))
  rw [slice_markReady, hrows]

theorem names_nil : Names τ [] s := fun _ _ h => nomatch h

theorem Names.applyDrops {ids : List ℕ} {drops : List Drop} (h : Names τ ids s) :
    Names τ ids (applyDrops drops now s) := by
  intro d hd hid
  have hcolumns : (DeliveryPolicy.applyDrops drops now s).deliveries.rows.map owner =
      s.deliveries.rows.map owner := by
    have hrows : (DeliveryPolicy.applyDrops drops now s).deliveries.rows = s.deliveries.rows.map
        (applyAll (fun x d => d.id == x.deliveryId) (dropRow now) (byState drops)) :=
      Table.executemany_rows _ _ _ _ _
    rw [hrows]
    exact columns_map (applyAll_field (f := dropRow now) (g := owner) (fun _ _ => rfl) _)
  have hd := List.mem_map_of_mem (f := owner) hd
  rw [hcolumns] at hd
  obtain ⟨d₀, hd₀, heq⟩ := List.mem_map.mp hd
  simp only [owner, Prod.mk.injEq] at heq
  rw [← heq.2.1]
  exact h d₀ hd₀ (heq.1 ▸ hid)

theorem reads_run {α : Type} {p : Program Db α} (h : p.Writes Unchanged) : (p.run s).2 = s :=
  run_of_writes (W := Unchanged) .refl (fun _ _ _ h k => k.trans h) h

theorem selected_names (cfg : Settings) (i : PassInput) (s : Db) (budget : Budget)
    (gauges : Gauges) (policies : PolicyMap) :
    Names i.simulationId ((selectCandidates cfg i.scan i.simulationId i.now budget gauges policies
      i.fairDrainEnabled).run s).1.admitted s ∧
    Names i.simulationId (((selectCandidates cfg i.scan i.simulationId i.now budget gauges policies
      i.fairDrainEnabled).run s).1.drops.map Drop.deliveryId) s := by
  have hstates : ((readConsumerStates cfg i.simulationId i.now gauges).run s).2 = s := by
    simp only [readConsumerStates, run_bind, run_read, run_pure]
  rw [selectCandidates]
  split
  · exact ⟨names_nil, names_nil⟩
  rw [run_bind, hstates]
  dsimp only
  split
  · exact ⟨names_nil, names_nil⟩
  simp only [run_bind, run_read, run_pure]
  set candidates := fetchCandidates cfg i.scan i.simulationId i.now _ _ _ _ s with hcandidates
  have mine : ∀ x ∈ candidates, ∀ d ∈ s.deliveries.rows, d.id = x.id →
      d.simulationId = i.simulationId := by
    intro x hx d hd hid
    obtain ⟨e, he, hdue, rfl⟩ := mem_fetchCandidates hx
    simp only [isDue, Bool.and_eq_true, beq_iff_eq] at hdue
    rw [s.deliveries.row_unique hd he hid]
    exact hdue.1.1
  constructor
  · obtain ⟨chosen, hsub, heq, -, -⟩ := ration_chosen budget.slots _
      (evaluate i.simulationId candidates policies i.now s).admitted
    intro d hd hid
    rw [heq] at hid
    obtain ⟨x, hx, hxd⟩ := List.mem_map.mp hid
    exact mine x ((admit_sublist _ _ _ _ _).subset (hsub.subset hx)) d hd hxd.symm
  · intro d hd hid
    obtain ⟨x, hx, hxd⟩ := List.mem_map.mp hid
    obtain ⟨-, c, hc, hxc, -⟩ := mem_drops hx
    exact mine c hc d hd (hxd.symm.trans hxc)

theorem conclude_only (gauges : Gauges) :
    Only i.simulationId s ((conclude cfg i gauges).run s).2 := by
  rw [conclude]
  split
  · exact retire_only
  rw [admission]
  split
  · exact .refl _ _
  rw [run_bind, reads_run (computeBudget_reads _ _ _ _)]
  split
  · exact .refl _ _
  rw [run_bind, run_read, run_bind, reads_run (selectCandidates_reads _ _ _ _ _ _), run_bind,
    run_write, run_write]
  obtain ⟨hadmitted, hdrops⟩ := selected_names cfg i s
    ((computeBudget cfg i.simulationId i.globalAttemptsPerS i.now).run s).1 gauges
    (loadPolicies i.simulationId s)
  exact (drops_only hdrops).trans (ready_only hadmitted.applyDrops)

/-- A pass changes no rows of another simulation. -/
theorem pass_only (h : Consistent s) : Only i.simulationId s ((pass cfg i).run s).2 := by
  have hcharts : ∀ gauges u, Only i.simulationId u ((MetricsSeries.write cfg i.simulationId i.now
      gauges i.lastWritten).run u).2 := fun gauges u =>
    run_of_writes (.refl _) (fun _ _ _ h k => h.trans k)
      ((chart_writes _ _ _ _ _).mono fun _ _ => charts_only)
  rw [pass_stages, run_bind, run_write, PassStages.measure, run_bind, run_read, measured, run_bind]
  exact ((reclaim_only h i.locked).trans (hcharts _ _)).trans (conclude_only _)

end Frames

section Ranges

variable {cfg : Settings} {i : PassInput} {s t : Db}

theorem inRange_of_alike (h : Alike i.simulationId s t) (hs : InRange cfg i s) :
    InRange cfg i t := by
  have hreclaimed : Alike i.simulationId (reclaimed cfg i s) (reclaimed cfg i t) :=
    (reclaim_local.lockstep s t h).2
  have hgauges := readGauges_congr hreclaimed.rows
  have hcursor : usedCursor i.simulationId i.lastWritten (reclaimed cfg i s) =
      usedCursor i.simulationId i.lastWritten (reclaimed cfg i t) := by
    rw [usedCursor, recoverCursor_slice hreclaimed.rows, usedCursor]
  have hwrites : Writes cfg i.simulationId i.now i.lastWritten (reclaimed cfg i s) ↔
      Writes cfg i.simulationId i.now i.lastWritten (reclaimed cfg i t) := by
    rw [Writes, hcursor, consumerIds_congr hreclaimed.rows, Writes]
  have hfirst : firstBucket cfg i (reclaimed cfg i s) = firstBucket cfg i (reclaimed cfg i t) := by
    rw [firstBucket, hcursor, firstBucket]
  obtain ⟨hnow, helapsed, hrequeues, ⟨hwidth, hindex, hwindow, hbuckets⟩, hadm⟩ := hs
  refine ⟨hnow, helapsed, ?_, ⟨hwidth, hindex, ?_, ?_⟩, fun hfin hout => ?_⟩
  · rwa [RequeuesFit, ← expiredLeases_congr h.rows]
  · rwa [WindowFits, ← hwrites, ← hfirst]
  · rwa [BucketsFit, ← hwrites, ← hfirst]
  · rw [← hgauges] at hfin ⊢
    obtain ⟨hbudget, hshares⟩ := hadm hfin hout
    refine ⟨?_, fun hslots => ?_⟩
    · rwa [BudgetFits, ← totalCap_congr hreclaimed.rows]
    · rw [← ((budget_local cfg i).lockstep _ _ hreclaimed).1] at hslots
      intro c hc hsim
      have hmem : c ∈ (slice i.simulationId (reclaimed cfg i t)).consumers :=
        List.mem_filter.mpr ⟨hc, by simpa using hsim⟩
      rw [← hreclaimed.rows] at hmem
      exact hshares hslots c (List.mem_filter.mp hmem).1 hsim

end Ranges

end PassIsolation
