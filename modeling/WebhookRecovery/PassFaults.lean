import WebhookRecovery.CheckedPrograms
import WebhookRecovery.PassStages

/-! The arithmetic of a pass that can leave its type: instants that no datetime holds, products
that no float holds, bucket numbers that the column does not hold. Each raises, and what raises
ends the transaction. -/
namespace PassFaults

open KeyedTables RecoverySchema InterleavedPrograms CheckedPrograms WorkerClaim LeaseReaper
open DeliveryPolicy DeliveryAdmission MetricsSeries ConductorPass PassGuarantee PassStages

/-- OverflowError, ZeroDivisionError, and the column's DataError. -/
inductive Fault where
  | overflow | zeroDivision | outOfRange
  deriving DecidableEq, Repr

/-- The first instant of the year 1, from VIRTUAL_EPOCH_ZERO on. -/
def DATETIME_MIN : ℚ := -738885 * 86400

def DATETIME_END : ℚ := 2913174 * 86400

def IsDatetime (v : ℚ) : Prop := DATETIME_MIN ≤ v ∧ v < DATETIME_END

/-- What does not round to infinity. -/
def IsFloat (x : ℚ) : Prop := |x| < 2 ^ 1024 - 2 ^ 970

def IsInt32 (b : ℤ) : Prop := -2 ^ 31 ≤ b ∧ b < 2 ^ 31

instance (v : ℚ) : Decidable (IsDatetime v) := inferInstanceAs (Decidable (_ ∧ _))
instance (x : ℚ) : Decidable (IsFloat x) := inferInstanceAs (Decidable (_ < _))
instance (b : ℤ) : Decidable (IsInt32 b) := inferInstanceAs (Decidable (_ ∧ _))

section Checks

variable (cfg : Settings) (i : PassInput)

/-- `2 ** (n - 1)` as a float, and the instant of the next attempt. -/
def RequeuesFit (db : Db) : Prop :=
  ∀ d ∈ expiredLeases i.simulationId i.now i.locked db, d.attemptCount < cfg.maxAttempts →
    d.attemptCount ≤ 1024 ∧ IsDatetime (i.now + backoffS cfg d.attemptCount)

def firstBucket (db : Db) : ℤ :=
  firstWritten cfg i.now (usedCursor i.simulationId i.lastWritten db)

def WindowFits (db : Db) : Prop :=
  Writes cfg i.simulationId i.now i.lastWritten db →
    IsDatetime (firstBucket cfg i db * cfg.metricsBucketVirtualS) ∧
      IsDatetime ((lastComplete cfg i.now + 1) * cfg.metricsBucketVirtualS)

/-- The buckets of the rows that a call inserts, if it has any to insert. -/
def BucketsFit (db : Db) : Prop :=
  Writes cfg i.simulationId i.now i.lastWritten db →
    firstBucket cfg i db ≤ lastComplete cfg i.now →
      IsInt32 (firstBucket cfg i db) ∧ IsInt32 (lastComplete cfg i.now)

def BudgetFits (db : Db) : Prop :=
  IsDatetime (i.now - cfg.fairnessWindowVirtualS) ∧
    IsFloat (cfg.readyBufferDepthMultiplier * totalCap i.simulationId db) ∧
    IsFloat (i.globalAttemptsPerS * cfg.fairnessWindowVirtualS)

/-- The rate term of each consumer that its concurrency does not gate. -/
def SharesFit (gauges : Gauges) (db : Db) : Prop :=
  ∀ c ∈ db.cast.consumers, c.simulationId = i.simulationId →
    ¬ (i.fairDrainEnabled ∧ c.concurrencyCap ≤ countOf gauges (c.id, .inFlight)) →
      IsFloat (c.maxAttemptsPerS * cfg.fairnessWindowVirtualS)

instance : DecidablePred (RequeuesFit cfg i) := fun _ => inferInstanceAs (Decidable (∀ _ ∈ _, _))
instance : DecidablePred (WindowFits cfg i) := fun _ => inferInstanceAs (Decidable (_ → _))
instance : DecidablePred (BucketsFit cfg i) := fun _ => inferInstanceAs (Decidable (_ → _))
instance : DecidablePred (BudgetFits cfg i) := fun _ => inferInstanceAs (Decidable (_ ∧ _))
instance (gauges : Gauges) : DecidablePred (SharesFit cfg i gauges) := fun _ =>
  inferInstanceAs (Decidable (∀ _ ∈ _, _))

def checkedAdmission (gauges : Gauges) : Transaction Fault Db Unit :=
  if isOutage i.elapsed i.outageOverride then pure ()
  else do
    check (BudgetFits cfg i) .overflow
    let budget ← execute (computeBudget cfg i.simulationId i.globalAttemptsPerS i.now)
    if budget.slots ≤ 0 then pure ()
    else
      let policies ← execute (Program.read (loadPolicies i.simulationId))
      check (SharesFit cfg i gauges) .overflow
      let selection ← execute (selectCandidates cfg i.scan i.simulationId i.now budget gauges
        policies i.fairDrainEnabled)
      execute (Program.write (applyDrops selection.drops i.now))
      execute (Program.write (markReady selection.admitted i.now))

/-- The pass as it runs in its transaction. -/
def checkedPass : Transaction Fault Db Unit := do
  check (fun _ => IsDatetime i.now ∧ IsDatetime i.elapsed) .overflow
  check (RequeuesFit cfg i) .overflow
  execute (Program.write (reclaimExpiredLeases cfg i.simulationId i.now i.locked))
  let gauges ← execute (Program.read (readGauges i.simulationId))
  check (fun _ => cfg.metricsBucketVirtualS ≠ 0) .zeroDivision
  check (fun _ => IsFloat (i.now / cfg.metricsBucketVirtualS)) .overflow
  check (WindowFits cfg i) .overflow
  check (BucketsFit cfg i) .outOfRange
  let _ ← execute (MetricsSeries.write cfg i.simulationId i.now gauges i.lastWritten)
  if isFinished i.elapsed (totalBacklog gauges) then
    execute (Program.write (retire i.simulationId i.now))
  else
    checkedAdmission cfg i gauges

structure ChartFits (db : Db) : Prop where
  width : cfg.metricsBucketVirtualS ≠ 0
  index : IsFloat (i.now / cfg.metricsBucketVirtualS)
  window : WindowFits cfg i db
  buckets : BucketsFit cfg i db

structure AdmissionFits (gauges : Gauges) (db : Db) : Prop where
  budget : BudgetFits cfg i db
  shares : 0 < ((computeBudget cfg i.simulationId i.globalAttemptsPerS i.now).run db).1.slots →
    SharesFit cfg i gauges db

def reclaimed (db : Db) : Db := reclaimExpiredLeases cfg i.simulationId i.now i.locked db

/-- Nothing that the pass computes leaves its type. -/
structure InRange (db : Db) : Prop where
  now : IsDatetime i.now
  elapsed : IsDatetime i.elapsed
  requeues : RequeuesFit cfg i db
  chart : ChartFits cfg i (reclaimed cfg i db)
  admission : isFinished i.elapsed
      (totalBacklog (readGauges i.simulationId (reclaimed cfg i db))) = false →
    isOutage i.elapsed i.outageOverride = false →
      AdmissionFits cfg i (readGauges i.simulationId (reclaimed cfg i db)) (reclaimed cfg i db)

end Checks

section Faults

variable {cfg : Settings} {i : PassInput} {gauges : Gauges} {s t : Db}

theorem AdmissionFits.frame (h : Frame s t) :
    AdmissionFits cfg i gauges t ↔ AdmissionFits cfg i gauges s := by
  have hcap : totalCap i.simulationId t = totalCap i.simulationId s := totalCap_of_cast h.cast
  have hbudget : BudgetFits cfg i t ↔ BudgetFits cfg i s := by
    rw [BudgetFits, hcap, BudgetFits]
  have hslots : ((computeBudget cfg i.simulationId i.globalAttemptsPerS i.now).run t).1 =
      ((computeBudget cfg i.simulationId i.globalAttemptsPerS i.now).run s).1 := by
    simp only [computeBudget, run_bind, run_read, run_pure, hcap, readyCount, attemptsInWindow,
      h.deliveries, h.attempts]
  have hshares : SharesFit cfg i gauges t ↔ SharesFit cfg i gauges s := by
    rw [SharesFit, h.cast, SharesFit]
  constructor
  · rintro ⟨hb, hs⟩
    exact ⟨hbudget.mp hb, fun h => hshares.mp (hs (hslots ▸ h))⟩
  · rintro ⟨hb, hs⟩
    exact ⟨hbudget.mpr hb, fun h => hshares.mpr (hs (hslots ▸ h))⟩

theorem checkedAdmission_checks : Checks
    (fun s => isOutage i.elapsed i.outageOverride = false → AdmissionFits cfg i gauges s)
    (checkedAdmission cfg i gauges) (admission cfg i gauges) := by
  have reads : ∀ s,
      ((computeBudget cfg i.simulationId i.globalAttemptsPerS i.now).run s).2 = s := by
    intro s
    simp only [computeBudget, run_bind, run_read, run_pure]
  refine Checks.congr (Checks.ite (Checks.pure ()) (Checks.check (Checks.bind (Checks.execute _)
    fun budget => Checks.ite (Checks.pure ()) (Checks.bind (Checks.execute _) fun policies =>
      Checks.check (Checks.bind (Checks.execute _) fun selection =>
        Checks.bind (Checks.execute _) fun _ => Checks.execute _))))) fun s => ?_
  split
  · rename_i hout
    exact iff_of_true (fun h => absurd hout (by simp [h])) trivial
  · rename_i hout
    rw [reads]
    constructor
    · intro h
      obtain ⟨hb, hs⟩ := h (by simpa using hout)
      refine ⟨hb, trivial, ?_⟩
      split
      · trivial
      · rename_i hslots
        exact ⟨trivial, hs (not_le.mp hslots), trivial, trivial, trivial⟩
    · rintro ⟨hb, -, hs⟩ -
      refine ⟨hb, fun hslots => ?_⟩
      rw [if_neg (not_le.mpr hslots)] at hs
      exact hs.2.1

/-- A pass whose arithmetic stays in range is the pass, and any other raises. -/
theorem checkedPass_checks (cfg : Settings) (i : PassInput) :
    Checks (InRange cfg i) (checkedPass cfg i) (pass cfg i) := by
  rw [pass_stages]
  refine Checks.congr (Checks.check (Checks.check (Checks.bind (Checks.execute _) fun _ =>
    Checks.bind (Checks.execute _) fun gauges => Checks.check (Checks.check (Checks.check
      (Checks.check (Checks.bind (Checks.execute _) fun _ =>
        Checks.ite (Checks.execute _) checkedAdmission_checks))))))) fun s => ?_
  -- the chart's statements leave what the admission reads
  have hframe : Frame (reclaimed cfg i s) ((MetricsSeries.write cfg i.simulationId i.now
      (readGauges i.simulationId (reclaimed cfg i s)) i.lastWritten).run (reclaimed cfg i s)).2 :=
    run_of_writes (fun _ => .refl) (fun _ _ _ h k => h.trans k) (metrics_frame _ _ _ _ _)
  constructor
  · rintro ⟨hnow, helapsed, hrequeues, hchart, hadm⟩
    refine ⟨⟨hnow, helapsed⟩, hrequeues, trivial, trivial, hchart.width, hchart.index,
      hchart.window, hchart.buckets, trivial, ?_⟩
    split
    · trivial
    · rename_i hfin
      exact fun hout => (AdmissionFits.frame hframe).mpr (hadm (Bool.eq_false_iff.mpr hfin) hout)
  · rintro ⟨⟨hnow, helapsed⟩, hrequeues, -, -, hwidth, hindex, hwindow, hbuckets, -, hadm⟩
    refine ⟨hnow, helapsed, hrequeues, ⟨hwidth, hindex, hwindow, hbuckets⟩, fun hfin hout => ?_⟩
    split at hadm
    · rename_i hdone
      exact absurd hdone (Bool.eq_false_iff.mp hfin)
    · exact (AdmissionFits.frame hframe).mp (hadm hout)

end Faults

end PassFaults
