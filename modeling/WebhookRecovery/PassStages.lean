import WebhookRecovery.PassGuarantee

/-! The stages of a pass: it reclaims, measures and writes the chart, and then concludes, by
retiring the run or by admitting from its backlog. Only a retirement touches a simulation's row. -/
namespace PassStages

open RecoverySchema InterleavedPrograms DeliveryPolicy DeliveryAdmission MetricsSeries LeaseReaper
open ConductorPass PassGuarantee

def admission (cfg : Settings) (i : PassInput) (gauges : Gauges) : Program Db Unit := do
  if isOutage i.elapsed i.outageOverride then
    return
  let budget ← computeBudget cfg i.simulationId i.globalAttemptsPerS i.now
  if budget.slots ≤ 0 then
    return
  let policies ← Program.read (loadPolicies i.simulationId)
  let selection ← selectCandidates cfg i.scan i.simulationId i.now budget gauges policies
    i.fairDrainEnabled
  Program.write (applyDrops selection.drops i.now)
  Program.write (markReady selection.admitted i.now)

def conclude (cfg : Settings) (i : PassInput) (gauges : Gauges) : Program Db Unit :=
  if isFinished i.elapsed (totalBacklog gauges) then Program.write (retire i.simulationId i.now)
  else admission cfg i gauges

def measured (cfg : Settings) (i : PassInput) (gauges : Gauges) : Program Db Unit := do
  let _ ← MetricsSeries.write cfg i.simulationId i.now gauges i.lastWritten
  conclude cfg i gauges

def measure (cfg : Settings) (i : PassInput) : Program Db Unit := do
  let gauges ← Program.read (readGauges i.simulationId)
  measured cfg i gauges

theorem pass_stages (cfg : Settings) (i : PassInput) : pass cfg i =
    (Program.write (reclaimExpiredLeases cfg i.simulationId i.now i.locked) >>= fun _ =>
      measure cfg i) := rfl

section Writes

variable {cfg : Settings} {i : PassInput} {gauges : Gauges} {s t : Db}

inductive Admits (i : PassInput) : Db → Db → Prop where
  | read (s : Db) : Admits i s s
  | drop (drops : List Drop) (s : Db) : Admits i s (applyDrops drops i.now s)
  | ready (ids : List ℕ) (s : Db) : Admits i s (markReady ids i.now s)

theorem Admits.simulations (h : Admits i s t) : t.simulations = s.simulations := by
  cases h <;> rfl

theorem Admits.metrics (h : Admits i s t) : t.metrics = s.metrics := by
  cases h <;> rfl

theorem Unchanged.admits (h : Unchanged s t) : Admits i s t := by
  obtain rfl : t = s := h
  exact .read _

theorem selectCandidates_reads (scan : ScanOrder) (simulationId : SimulationId) (now : ℚ)
    (budget : Budget) (policies : PolicyMap) (fairDrain : Bool) :
    (selectCandidates cfg scan simulationId now budget gauges policies fairDrain).Writes
      Unchanged := by
  rw [selectCandidates]
  split
  · exact Program.Writes.pure _
  refine Program.Writes.bind (readConsumerStates_reads _ _ _ _) fun _ => ?_
  dsimp only
  split
  · exact Program.Writes.pure _
  refine Program.Writes.bind (Program.Writes.read .refl _) fun _ => ?_
  exact Program.Writes.bind (Program.Writes.read .refl _) fun _ => Program.Writes.pure _

theorem admission_writes (cfg : Settings) : (admission cfg i gauges).Writes (Admits i) := by
  rw [admission]
  split
  · exact Program.Writes.pure _
  refine Program.Writes.bind ((computeBudget_reads _ _ _ _).mono fun _ _ => Unchanged.admits)
    fun _ => ?_
  split
  · exact Program.Writes.pure _
  refine Program.Writes.bind (Program.Writes.read .read _) fun _ => ?_
  refine Program.Writes.bind ((selectCandidates_reads _ _ _ _ _ _).mono fun _ _ =>
    Unchanged.admits) fun sel => ?_
  exact Program.Writes.bind (Program.Writes.write (.drop sel.drops)) fun _ =>
    Program.Writes.write (.ready sel.admitted)

/-- Whatever it finds, a pass makes no other writes than these. -/
inductive PassWrite (cfg : Settings) (i : PassInput) : Db → Db → Prop where
  | reclaim (s : Db) : PassWrite cfg i s (reclaimExpiredLeases cfg i.simulationId i.now i.locked s)
  | chart {s t : Db} (h : Charts i.simulationId s t) : PassWrite cfg i s t
  | retire (s : Db) : PassWrite cfg i s (retire i.simulationId i.now s)
  | admits {s t : Db} (h : Admits i s t) : PassWrite cfg i s t

theorem measured_simulations (h : isFinished i.elapsed (totalBacklog gauges) = false) :
    (measured cfg i gauges).Writes fun s t => t.simulations = s.simulations := by
  refine Program.Writes.bind ((metrics_frame _ _ _ _ _).mono fun _ _ => Frame.simulations)
    fun _ => ?_
  rw [conclude, h]
  exact (admission_writes cfg).mono fun _ _ => Admits.simulations

theorem pass_writes (cfg : Settings) (i : PassInput) : (pass cfg i).Writes (PassWrite cfg i) := by
  rw [pass_stages]
  refine Program.Writes.bind (Program.Writes.write .reclaim) fun _ => ?_
  refine Program.Writes.bind (Program.Writes.read (fun s => .admits (.read s)) _) fun gauges => ?_
  refine Program.Writes.bind ((chart_writes _ _ _ _ _).mono fun _ _ => .chart) fun _ => ?_
  rw [conclude]
  split
  · exact Program.Writes.write .retire
  · exact (admission_writes cfg).mono fun _ _ => .admits

end Writes

end PassStages
