import WebhookRecovery.FifoScan
import WebhookRecovery.PassIsolation

/-! A pass over an idle pipeline: with nothing queued ahead of it and nothing attempted lately it
reclaims nothing, writes its chart, and then drops and admits what it selects. -/
namespace IdlePass

open KeyedTables RecoverySchema InterleavedPrograms CheckedPrograms DeliveryPolicy MetricsSeries
open DeliveryAdmission LeaseReaper ConductorPass PassStages PassGuarantee SimulationSlices
open PassIsolation WeightedAllocation AdmissionOutcome PolicyVerdicts AdmittedRows
open WorkConservation FifoScan QueueUsage

/-- Due work, and nothing of the simulation queued, under way or attempted in the window. -/
structure Idle (cfg : Settings) (i : PassInput) (db : Db) : Prop where
  due : ∃ d ∈ db.deliveries.rows, isDue i.simulationId i.now d = true
  queued : ∀ d ∈ db.deliveries.rows, d.simulationId = i.simulationId →
    d.state ≠ .ready ∧ d.state ≠ .inFlight
  quiet : ∀ a ∈ db.attempts.rows, a.simulationId = i.simulationId →
    a.startedAt < i.now - cfg.fairnessWindowVirtualS

def Open (i : PassInput) (db : Db) : Prop :=
  isFinished i.elapsed (totalBacklog (readGauges i.simulationId db)) = false ∧
    isOutage i.elapsed i.outageOverride = false

def Moves (cfg : Settings) (i : PassInput) (db : Db) : Prop :=
  ∃ d ∈ db.deliveries.rows, d.state = .pending ∧
    ∃ e ∈ ((pass cfg i).run db).2.deliveries.rows, e.id = d.id ∧
      (e.state = .ready ∨ e.state = .expired ∨ e.state = .superseded)

section Stages

variable {cfg : Settings} {i : PassInput} {db : Db}

theorem updateWhere_none {α : Type} [Keyed α] (t : Table α) (p : α → Bool) (f : α → α) (hf)
    (h : ∀ r ∈ t.rows, p r = false) : t.updateWhere p f hf = t := by
  have hrows : (t.updateWhere p f hf).rows = t.rows := by
    rw [Table.updateWhere_rows]
    refine (List.map_congr_left fun r hr => ?_).trans (List.map_id _)
    rw [h r hr]
    rfl
  cases t
  simp only [Table.updateWhere, Table.mk.injEq, and_true] at hrows ⊢
  exact hrows

theorem reclaim_idle (h : Idle cfg i db) :
    reclaimExpiredLeases cfg i.simulationId i.now i.locked db = db := by
  have hnone : expiredLeases i.simulationId i.now i.locked db = [] := by
    rw [List.eq_nil_iff_forall_not_mem]
    intro d hd
    obtain ⟨hrow, hsim, hstate, -⟩ := mem_expiredLeases hd
    exact (h.queued d hrow hsim).2 hstate
  have hdeliveries : (reclaimExpiredLeases cfg i.simulationId i.now i.locked db).deliveries =
      db.deliveries := by
    rw [reclaimExpiredLeases, hnone]
    rfl
  have hattempts : (reclaimExpiredLeases cfg i.simulationId i.now i.locked db).attempts =
      db.attempts := by
    rw [reclaimExpiredLeases, hnone]
    exact updateWhere_none db.attempts _ _ (fun _ => rfl) fun _ _ => rfl
  calc reclaimExpiredLeases cfg i.simulationId i.now i.locked db
      = { db with
          deliveries := (reclaimExpiredLeases cfg i.simulationId i.now i.locked db).deliveries
          attempts := (reclaimExpiredLeases cfg i.simulationId i.now i.locked db).attempts } := rfl
    _ = db := by rw [hdeliveries, hattempts]

theorem metrics_run (cfg : Settings) (i : PassInput) (gauges : Gauges) (db : Db) :
    ∃ m, ((MetricsSeries.write cfg i.simulationId i.now gauges i.lastWritten).run db).2 =
      { db with metrics := m } := by
  by_cases h : Writes cfg i.simulationId i.now i.lastWritten db
  · rw [write_run_of_writes h]
    exact ⟨_, rfl⟩
  · rw [write_run_of_idle h]
    exact ⟨db.metrics, rfl⟩

def idleBudget (cfg : Settings) (i : PassInput) (db : Db) : Budget :=
  ⟨bufferTarget cfg (totalCap i.simulationId db),
    pyInt (i.globalAttemptsPerS * cfg.fairnessWindowVirtualS)⟩

def idleSelection (cfg : Settings) (i : PassInput) (db : Db) : Selection :=
  selectionOf cfg i.scan i.simulationId i.now (idleBudget cfg i db)
    (readGauges i.simulationId db) (loadPolicies i.simulationId db) i.fairDrainEnabled db

theorem computeBudget_idle (h : Idle cfg i db) :
    (computeBudget cfg i.simulationId i.globalAttemptsPerS i.now).run db =
      (idleBudget cfg i db, db) := by
  have hready : readyCount i.simulationId db = 0 := by
    refine List.countP_eq_zero.mpr fun d hd hr => ?_
    simp only [Bool.and_eq_true, beq_iff_eq] at hr
    exact (h.queued d hd hr.1).1 hr.2
  have hattempts : attemptsInWindow cfg i.simulationId i.now db = 0 := by
    refine List.countP_eq_zero.mpr fun a ha hw => ?_
    simp only [inWindow, Bool.and_eq_true, beq_iff_eq, decide_eq_true_eq] at hw
    exact absurd hw.2 (not_le.mpr (h.quiet a ha hw.1))
  simp only [computeBudget, run_bind, run_read, run_pure, hready, hattempts, Nat.cast_zero,
    sub_zero]
  rfl

theorem idle_metrics (h : Idle cfg i db) (m : List MetricsSnapshot) :
    Idle cfg i { db with metrics := m } := ⟨h.due, h.queued, h.quiet⟩

/-- An idle pass writes its chart, and then what it selects. -/
theorem pass_idle (h : Idle cfg i db) (ho : Open i db) :
    ∃ m, ((pass cfg i).run db).2 =
      if (idleBudget cfg i db).slots ≤ 0 then { db with metrics := m }
      else markReady (idleSelection cfg i { db with metrics := m }).admitted i.now
        (applyDrops (idleSelection cfg i { db with metrics := m }).drops i.now
          { db with metrics := m }) := by
  obtain ⟨m, hm⟩ := metrics_run cfg i (readGauges i.simulationId db) db
  refine ⟨m, ?_⟩
  rw [pass_stages, run_bind, run_write, PassStages.measure, run_bind, run_read]
  dsimp only
  rw [reclaim_idle h, measured, run_bind, hm, conclude, ho.1]
  simp only [Bool.false_eq_true, if_false]
  rw [admission, ho.2]
  simp only [Bool.false_eq_true, if_false]
  have hbudget : idleBudget cfg i { db with metrics := m } = idleBudget cfg i db := rfl
  rw [run_bind, computeBudget_idle (idle_metrics h m)]
  dsimp only
  by_cases hs : (idleBudget cfg i db).slots ≤ 0
  · rw [hbudget, if_pos hs, if_pos hs]
    rfl
  · rw [hbudget, if_neg hs, if_neg hs, run_bind, run_read, run_bind,
      reads_run (selectCandidates_reads _ _ _ _ _ _), run_bind, run_write, run_write]
    rfl

end Stages

section Selection

variable {cfg : Settings} {scan : ScanOrder} {simulationId : SimulationId} {now : ℚ}
variable {budget : Budget} {gauges : Gauges} {policies : PolicyMap} {fairDrain : Bool} {db : Db}

theorem evaluate_drops_nonempty {rows : List Delivery} :
    (evaluate simulationId (rows.map candidateOf) policies now db).drops ≠ [] ↔
      ∃ d ∈ rows, admissible simulationId policies now db d = false := by
  have hnil : (evaluate simulationId (rows.map candidateOf) policies now db).drops = [] ↔
      ∀ d ∈ rows, admissible simulationId policies now db d = true := by
    rw [← List.length_eq_zero_iff, evaluate_drops.length_eq, List.length_eq_zero_iff,
      List.filterMap_eq_nil_iff, List.forall_mem_map]
    refine forall₂_congr fun d _ => ?_
    rw [dropOf_eq_none, admissible, decide_eq_true_eq]
  rw [Ne, hnil]
  push Not
  exact exists_congr fun d => and_congr_right fun _ => (Bool.not_eq_true _).to_iff

theorem chosen_nonempty {slots : ℤ} {allowances : ConsumerId → ℤ} {rows chosen : List Delivery}
    (h : Admitted slots allowances rows chosen) (hs : 0 < slots) :
    chosen ≠ [] ↔ ∃ d ∈ rows, 0 < allowances d.consumerId := by
  constructor
  · intro hne
    obtain ⟨d, hd⟩ := List.exists_mem_of_ne_nil _ hne
    have hpos : 0 < held d.consumerId chosen :=
      List.countP_pos_iff.mpr ⟨d, hd, beq_self_eq_true _⟩
    have hshare := h.share d.consumerId
    exact ⟨d, h.sublist.subset hd, by omega⟩
  · rintro ⟨d, hd, hpos⟩ rfl
    have hheld := h.greedy.resolve_left (not_le.mpr hs) d.consumerId
    have hrow : 0 < held d.consumerId rows := List.countP_pos_iff.mpr ⟨d, hd, beq_self_eq_true _⟩
    have hnone : held d.consumerId [] = 0 := rfl
    omega

theorem selection_nonempty (hs : 0 < budget.slots) :
    ((selectionOf cfg scan simulationId now budget gauges policies fairDrain db).admitted ≠ [] ∨
        (selectionOf cfg scan simulationId now budget gauges policies fairDrain db).drops ≠ []) ↔
      (∃ c, allowancesAt cfg simulationId now budget gauges fairDrain db c ≠ 0) ∧
        ∃ d ∈ fetchedRows cfg scan simulationId now budget gauges fairDrain db,
          admissible simulationId policies now db d = false ∨
            0 < allowancesAt cfg simulationId now budget gauges fairDrain db d.consumerId := by
  by_cases hany : ∃ c, allowancesAt cfg simulationId now budget gauges fairDrain db c ≠ 0
  · obtain ⟨chosen, h, heq⟩ := selection_rows cfg scan simulationId now budget gauges policies
      fairDrain db
    have hdrops : (selectionOf cfg scan simulationId now budget gauges policies fairDrain
        db).drops =
        (evaluate simulationId ((fetchedRows cfg scan simulationId now budget gauges fairDrain
          db).map candidateOf) policies now db).drops := by
      rw [selectionOf_eq hs hany, fetchedAt_rows]
    rw [heq, hdrops, evaluate_drops_nonempty, Ne, List.map_eq_nil_iff, ← Ne, chosen_nonempty h hs]
    constructor
    · rintro (⟨d, hd, hpos⟩ | ⟨d, hd, hdrop⟩)
      · exact ⟨hany, d, List.mem_of_mem_filter hd, Or.inr hpos⟩
      · exact ⟨hany, d, hd, Or.inl hdrop⟩
    · rintro ⟨-, d, hd, hdrop⟩
      cases hadm : admissible simulationId policies now db d with
      | false => exact Or.inr ⟨d, hd, hadm⟩
      | true =>
        have hpos := hdrop.resolve_left (by rw [hadm]; exact Bool.noConfusion)
        exact Or.inl ⟨d, List.mem_filter.mpr ⟨hd, hadm⟩, hpos⟩
  · have hnone := hany
    push Not at hnone
    rw [selectionOf_nothing hnone]
    exact iff_of_false (by simp) fun h => hany h.1

theorem selected_pending (cfg : Settings) (scan : ScanOrder) (simulationId : SimulationId) (now : ℚ)
    (budget : Budget) (gauges : Gauges) (policies : PolicyMap) (fairDrain : Bool) (db : Db) :
    (∀ n ∈ (selectionOf cfg scan simulationId now budget gauges policies fairDrain db).admitted,
      ∃ d ∈ db.deliveries.rows, d.id = n ∧ d.state = .pending) ∧
    ∀ x ∈ (selectionOf cfg scan simulationId now budget gauges policies fairDrain db).drops,
      (x.state = .expired ∨ x.state = .superseded) ∧
        ∃ d ∈ db.deliveries.rows, d.id = x.deliveryId ∧ d.state = .pending := by
  have hrow : ∀ d ∈ fetchedRows cfg scan simulationId now budget gauges fairDrain db,
      d ∈ db.deliveries.rows ∧ d.state = .pending := fun d hd =>
    ⟨(mem_fetchedRows hd).1, (isDue_iff.mp (mem_fetchedRows hd).2).2.1⟩
  constructor
  · intro n hn
    obtain ⟨chosen, h, heq⟩ := selection_rows cfg scan simulationId now budget gauges policies
      fairDrain db
    rw [heq] at hn
    obtain ⟨d, hd, rfl⟩ := List.mem_map.mp hn
    obtain ⟨hmem, hstate⟩ := hrow d (List.mem_of_mem_filter (h.sublist.subset hd))
    exact ⟨d, hmem, rfl, hstate⟩
  · intro x hx
    by_cases hany : 0 < budget.slots ∧
        ∃ c, allowancesAt cfg simulationId now budget gauges fairDrain db c ≠ 0
    · rw [selectionOf_eq hany.1 hany.2, fetchedAt_rows] at hx
      obtain ⟨hstate, c, hc, hid, -⟩ := mem_drops hx
      obtain ⟨d, hd, rfl⟩ := List.mem_map.mp hc
      obtain ⟨hmem, hpending⟩ := hrow d hd
      exact ⟨hstate, d, hmem, hid.symm, hpending⟩
    · have hnone : (selectionOf cfg scan simulationId now budget gauges policies fairDrain
          db).drops = [] := by
        by_cases hs : 0 < budget.slots
        · apply congrArg Selection.drops (selectionOf_nothing fun c => ?_)
          by_contra hc
          exact hany ⟨hs, c, hc⟩
        · rw [selectionOf, selectCandidates, if_pos (not_lt.mp hs)]
          rfl
      rw [hnone] at hx
      cases hx

end Selection

section Movement

variable {cfg : Settings} {i : PassInput} {db : Db} {selection : Selection} {now : ℚ}

theorem written_rows (selection : Selection) (now : ℚ) (db : Db) :
    ∃ f : Delivery → Delivery, (∀ d, (f d).id = d.id) ∧
      (markReady selection.admitted now (applyDrops selection.drops now db)).deliveries.rows =
        db.deliveries.rows.map (fun d =>
          if d.id ∈ selection.admitted then readyRow now (f d) else f d) ∧
      ∀ d, ((∀ x ∈ selection.drops, x.deliveryId ≠ d.id) ∧ f d = d) ∨
        ∃ x ∈ selection.drops, x.deliveryId = d.id ∧ f d = dropRow now x d := by
  obtain ⟨f, hrows, hf⟩ := applyDrops_rows selection.drops now db
  have hid : ∀ d, (f d).id = d.id := by
    intro d
    rcases hf d with ⟨-, h⟩ | ⟨x, -, -, h⟩ <;> rw [h]
    rfl
  refine ⟨f, hid, ?_, hf⟩
  rw [markReady_rows, hrows, List.map_map]
  refine List.map_congr_left fun d _ => ?_
  rw [Function.comp_apply, hid]

/-- Writing a selection moves something exactly when there is something in it. -/
theorem written_moves
    (hadmitted : ∀ n ∈ selection.admitted, ∃ d ∈ db.deliveries.rows, d.id = n ∧ d.state = .pending)
    (hdrops : ∀ x ∈ selection.drops, (x.state = .expired ∨ x.state = .superseded) ∧
      ∃ d ∈ db.deliveries.rows, d.id = x.deliveryId ∧ d.state = .pending) :
    (∃ d ∈ db.deliveries.rows, d.state = .pending ∧
      ∃ e ∈ (markReady selection.admitted now (applyDrops selection.drops now db)).deliveries.rows,
        e.id = d.id ∧ (e.state = .ready ∨ e.state = .expired ∨ e.state = .superseded)) ↔
      (selection.admitted ≠ [] ∨ selection.drops ≠ []) := by
  obtain ⟨f, hid, hrows, hf⟩ := written_rows selection now db
  rw [hrows]
  constructor
  · rintro ⟨d, hd, hstate, e, he, heq, hmoved⟩
    by_contra hnone
    push Not at hnone
    obtain ⟨d', hd', rfl⟩ := List.mem_map.mp he
    have hsame : f d' = d' := by
      rcases hf d' with ⟨-, h⟩ | ⟨x, hx, -⟩
      · exact h
      · rw [hnone.2] at hx
        cases hx
    simp only [hsame, hnone.1, List.not_mem_nil, if_false] at heq hmoved
    obtain rfl := db.deliveries.row_unique hd' hd heq
    rw [hstate] at hmoved
    simp at hmoved
  · rintro (hne | hne)
    · obtain ⟨n, hn⟩ := List.exists_mem_of_ne_nil _ hne
      obtain ⟨d, hd, rfl, hstate⟩ := hadmitted n hn
      refine ⟨d, hd, hstate, _, List.mem_map_of_mem hd, ?_⟩
      rw [if_pos hn]
      exact ⟨hid d, Or.inl rfl⟩
    · obtain ⟨x, hx⟩ := List.exists_mem_of_ne_nil _ hne
      obtain ⟨-, d, hd, hxd, hstate⟩ := hdrops x hx
      refine ⟨d, hd, hstate, _, List.mem_map_of_mem hd, ?_⟩
      split
      · exact ⟨hid d, Or.inl rfl⟩
      · rcases hf d with ⟨hnot, -⟩ | ⟨y, hy, -, h⟩
        · exact absurd hxd.symm (hnot x hx)
        · refine ⟨hid d, Or.inr ?_⟩
          rw [h]
          exact (hdrops y hy).1

/-- Somebody has an allowance, and the fetch meets a row that can go. -/
def Selects (cfg : Settings) (i : PassInput) (db : Db) : Prop :=
  let budget := idleBudget cfg i db
  let gauges := readGauges i.simulationId db
  (∃ c, allowancesAt cfg i.simulationId i.now budget gauges i.fairDrainEnabled db c ≠ 0) ∧
    ∃ d ∈ fetchedRows cfg i.scan i.simulationId i.now budget gauges i.fairDrainEnabled db,
      admissible i.simulationId (loadPolicies i.simulationId db) i.now db d = false ∨
        0 < allowancesAt cfg i.simulationId i.now budget gauges i.fairDrainEnabled db d.consumerId

theorem selects_metrics (m : List MetricsSnapshot) :
    Selects cfg i { db with metrics := m } ↔ Selects cfg i db := by
  have hstates : ∀ gauges, statesOf cfg i.simulationId i.now gauges { db with metrics := m } =
      statesOf cfg i.simulationId i.now gauges db := fun _ => rfl
  have hallowances : ∀ budget gauges, allowancesAt cfg i.simulationId i.now budget gauges
      i.fairDrainEnabled { db with metrics := m } =
        allowancesAt cfg i.simulationId i.now budget gauges i.fairDrainEnabled db := fun _ _ => rfl
  have hfetched : ∀ budget gauges, fetchedRows cfg i.scan i.simulationId i.now budget gauges
      i.fairDrainEnabled { db with metrics := m } =
        fetchedRows cfg i.scan i.simulationId i.now budget gauges i.fairDrainEnabled db := by
    intro budget gauges
    simp only [fetchedRows, hstates, hallowances]
    rfl
  have hbudget : idleBudget cfg i { db with metrics := m } = idleBudget cfg i db := rfl
  have hgauges : readGauges i.simulationId { db with metrics := m } =
      readGauges i.simulationId db := rfl
  have hadmissible : admissible i.simulationId
      (loadPolicies i.simulationId { db with metrics := m }) i.now { db with metrics := m } =
        admissible i.simulationId (loadPolicies i.simulationId db) i.now db := rfl
  simp only [Selects, hallowances, hfetched, hbudget, hgauges, hadmissible]

theorem moves_iff_selects (h : Idle cfg i db) (ho : Open i db) :
    Moves cfg i db ↔ 0 < (idleBudget cfg i db).slots ∧ Selects cfg i db := by
  obtain ⟨m, hm⟩ := pass_idle h ho
  rw [Moves, hm]
  by_cases hs : (idleBudget cfg i db).slots ≤ 0
  · rw [if_pos hs]
    refine iff_of_false ?_ fun hmoves => absurd hmoves.1 (not_lt.mpr hs)
    rintro ⟨d, hd, hstate, e, he, hid, hmoved⟩
    obtain rfl := db.deliveries.row_unique he hd hid
    rw [hstate] at hmoved
    simp at hmoved
  · rw [if_neg hs, and_iff_right (not_le.mp hs), ← selects_metrics m]
    have hpending := selected_pending cfg i.scan i.simulationId i.now
      (idleBudget cfg i { db with metrics := m })
      (readGauges i.simulationId { db with metrics := m })
      (loadPolicies i.simulationId { db with metrics := m }) i.fairDrainEnabled
      { db with metrics := m }
    exact (written_moves hpending.1 hpending.2).trans (selection_nonempty (not_le.mp hs))

end Movement

end IdlePass
