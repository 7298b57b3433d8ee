import WebhookRecovery.DeliveryAdmission
import WebhookRecovery.LeaseReaper

/-! One conductor pass: lead, measure, admit. -/
namespace ConductorPass

open RecoverySchema InterleavedPrograms DeliveryPolicy DeliveryAdmission MetricsSeries LeaseReaper

def OUTAGE_STARTS_AT_S : ℚ := 120
def OUTAGE_ENDS_AT_S : ℚ := 420
def SCENARIO_ENDS_AT_S : ℚ := 900
def SCENARIO_MAX_VIRTUAL_S : ℚ := 1800

def isProducing (virtualS : ℚ) : Bool := decide (virtualS < SCENARIO_ENDS_AT_S)

def isFinished (virtualS : ℚ) (backlog : ℕ) : Bool :=
  if SCENARIO_MAX_VIRTUAL_S ≤ virtualS then true
  else !isProducing virtualS && backlog == 0

def isOutage (virtualS : ℚ) (outageOverride : Option Bool) : Bool :=
  match outageOverride with
  | some o => o
  | none => decide (OUTAGE_STARTS_AT_S ≤ virtualS) && decide (virtualS < OUTAGE_ENDS_AT_S)

/-- What one pass over one simulation starts from: the columns read of its row, the two clock
readings, the cached metrics cursor, and the choices the database makes. -/
structure PassInput where
  simulationId : SimulationId
  now : ℚ
  elapsed : ℚ
  fairDrainEnabled : Bool
  globalAttemptsPerS : ℚ
  outageOverride : Option Bool
  lastWritten : Option ℤ
  locked : ℕ → Bool
  scan : ScanOrder

/-- Mark a drained run done and freeze its clock. -/
def retireRow (now : ℚ) (sim : Simulation) : Simulation :=
  { sim with status := .done, pausedAtVirtual := some now }

def retire (simulationId : SimulationId) (now : ℚ) (db : Db) : Db :=
  { db with
    simulations := db.simulations.map fun s => if s.id = simulationId then retireRow now s else s }

/-- Reclaim, measure, and unless the run is over or in an outage, drop and admit. -/
def pass (cfg : Settings) (i : PassInput) : Program Db Unit := do
  Program.write (reclaimExpiredLeases cfg i.simulationId i.now i.locked)
  let gauges ← Program.read (readGauges i.simulationId)
  let _ ← MetricsSeries.write cfg i.simulationId i.now gauges i.lastWritten
  if isFinished i.elapsed (totalBacklog gauges) then
    Program.write (retire i.simulationId i.now)
    return
  if isOutage i.elapsed i.outageOverride then
    return
  let budget ← computeBudget cfg i.simulationId i.globalAttemptsPerS i.now
  if budget.slots ≤ 0 then
    return
  let policies ← Program.read (loadPolicies i.simulationId)
  let selection ← selectCandidates cfg i.scan i.simulationId i.now budget gauges policies
    i.fairDrainEnabled
  -- drops before admissions: a superseded delivery is never about to be sent
  Program.write (applyDrops selection.drops i.now)
  Program.write (markReady selection.admitted i.now)

end ConductorPass
