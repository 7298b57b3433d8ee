import WebhookRecovery.PassIsolation
import WebhookRecovery.DeliveryPipeline
import WebhookRecovery.ClockControl

/-! The passes of one `run_once`. They do together what each would do by itself, unless one of them
raises: the rollback takes the work of all the others with it. -/
namespace SimulationIsolation

open KeyedTables RecoverySchema InterleavedPrograms CheckedPrograms MetricsSeries ConductorPass
open DeliveryPipeline LeaseReaper PassGuarantee PassStages PassFaults SimulationSlices PassIsolation
open VirtualClock

/-- What the process and its clocks bring to the passes of one `run_once`: two readings of the wall
clock and a cached cursor for each simulation, and the choices the database makes. -/
structure Readings where
  first : SimulationId → ℚ
  second : SimulationId → ℚ
  cached : SimulationId → Option ℤ
  locked : ℕ → Bool
  scan : ScanOrder

structure RowOrder where
  order : List Simulation → List Simulation
  perm : ∀ l, (order l).Perm l

def RowOrder.stored : RowOrder := ⟨id, fun _ => .refl _⟩

def inputOf (r : Readings) (sim : Simulation) : PassInput where
  simulationId := sim.id
  now := nowAt (fromRow sim) (r.first sim.id)
  elapsed := nowAt (fromRow sim) (r.second sim.id)
  fairDrainEnabled := sim.fairDrainEnabled
  globalAttemptsPerS := sim.globalAttemptsPerS
  outageOverride := sim.outageOverride
  lastWritten := r.cached sim.id
  locked := r.locked
  scan := r.scan

def runningSimulations (o : RowOrder) (db : Db) : List Simulation :=
  o.order (db.simulations.filter fun x => x.status == .running)

section Model

variable (cfg : Settings) (r : Readings)

def passes : List Simulation → Transaction Fault Db Unit
  | [] => pure ()
  | sim :: rest => checkedPass cfg (inputOf r sim) >>= fun _ => passes rest

def runOnce (o : RowOrder) (db : Db) : Db := commit (passes cfg r (runningSimulations o db)) db

def uncheckedPasses : List Simulation → Program Db Unit
  | [] => pure ()
  | sim :: rest => pass cfg (inputOf r sim) >>= fun _ => uncheckedPasses rest

def AllInRange : List Simulation → Db → Prop
  | [], _ => True
  | sim :: rest, s => InRange cfg (inputOf r sim) s ∧
    AllInRange rest ((pass cfg (inputOf r sim)).run s).2

end Model

section Passes

variable {cfg : Settings} {r : Readings} {s : Db} {σ : SimulationId} {l : List Simulation}
  {sim : Simulation}

theorem passes_checks (l : List Simulation) :
    Checks (AllInRange cfg r l) (passes cfg r l) (uncheckedPasses cfg r l) := by
  induction l with
  | nil => exact Checks.pure ()
  | cons sim rest ih => exact Checks.bind (checkedPass_checks cfg (inputOf r sim)) fun _ => ih

theorem uncheckedPasses_cons (rest : List Simulation) (s : Db) :
    ((uncheckedPasses cfg r (sim :: rest)).run s).2 =
      ((uncheckedPasses cfg r rest).run ((pass cfg (inputOf r sim)).run s).2).2 := by
  rw [uncheckedPasses, run_bind]

theorem slice_of_absent (hs : Consistent s) (h : σ ∉ l.map Simulation.id) :
    slice σ ((uncheckedPasses cfg r l).run s).2 = slice σ s := by
  induction l generalizing s with
  | nil => rfl
  | cons sim rest ih =>
    rw [List.map_cons, List.mem_cons, not_or] at h
    rw [uncheckedPasses_cons, ih (pass_consistent hs) h.2]
    exact pass_only hs σ h.1

theorem alike_of_pass (cfg : Settings) (r : Readings) (hs : Consistent s) (h : sim.id ≠ σ) :
    Alike σ ((pass cfg (inputOf r sim)).run s).2 s :=
  ⟨pass_only hs σ (Ne.symm h), pass_consistent hs, hs⟩

/-- Every running simulation comes to what its own pass alone would have done. -/
theorem slice_of_running (hs : Consistent s) (hn : (l.map Simulation.id).Nodup) (hm : sim ∈ l) :
    slice sim.id ((uncheckedPasses cfg r l).run s).2 =
      slice sim.id ((pass cfg (inputOf r sim)).run s).2 := by
  induction l generalizing s with
  | nil => cases hm
  | cons x rest ih =>
    rw [List.map_cons, List.nodup_cons] at hn
    rw [uncheckedPasses_cons]
    rcases List.mem_cons.mp hm with rfl | hm
    · exact slice_of_absent (pass_consistent hs) hn.1
    · have hx : x.id ≠ sim.id := fun he => hn.1 (he ▸ List.mem_map_of_mem hm)
      rw [ih (pass_consistent hs) hn.2 hm]
      exact (pass_lockstep cfg (inputOf r sim) _ _ (alike_of_pass cfg r hs hx)).2.rows

theorem allInRange_iff (hs : Consistent s) (hn : (l.map Simulation.id).Nodup) :
    AllInRange cfg r l s ↔ ∀ sim ∈ l, InRange cfg (inputOf r sim) s := by
  induction l generalizing s with
  | nil => exact iff_of_true trivial (fun _ h => nomatch h)
  | cons x rest ih =>
    rw [List.map_cons, List.nodup_cons] at hn
    have hother : ∀ sim ∈ rest, x.id ≠ sim.id := fun sim hm he =>
      hn.1 (he ▸ List.mem_map_of_mem hm)
    rw [AllInRange, ih (pass_consistent hs) hn.2, List.forall_mem_cons]
    refine and_congr_right fun _ => forall₂_congr fun sim hm => ?_
    have halike := alike_of_pass cfg r hs (hother sim hm)
    exact ⟨inRange_of_alike halike, inRange_of_alike ⟨halike.rows.symm, halike.right, halike.left⟩⟩

end Passes

def without (B : SimulationId) (db : Db) : Db := restrict (fun σ => σ != B) db

def Unaffected (cfg : Settings) (r : Readings) (B : SimulationId) (db : Db) : Prop :=
  ∀ (o o' : RowOrder) (σ : SimulationId), σ ≠ B →
    slice σ (runOnce cfg r o db) = slice σ (runOnce cfg r o' (without B db))

section Transactions

variable {cfg : Settings} {r : Readings} {o : RowOrder} {db : Db} {σ : SimulationId}
  {sim : Simulation}

theorem mem_running : sim ∈ runningSimulations o db ↔ sim ∈ db.simulations ∧
    sim.status = .running := by
  rw [runningSimulations, (o.perm _).mem_iff, List.mem_filter, beq_iff_eq]

theorem running_nodup (h : Consistent db) :
    ((runningSimulations o db).map Simulation.id).Nodup :=
  (((o.perm _).map Simulation.id).nodup_iff).mpr
    (h.simulations.sublist (List.filter_sublist.map _))

theorem allInRange_running (h : Consistent db) : AllInRange cfg r (runningSimulations o db) db ↔
    ∀ sim ∈ db.simulations, sim.status = .running → InRange cfg (inputOf r sim) db := by
  rw [allInRange_iff h (running_nodup h)]
  refine forall_congr' fun sim => ?_
  rw [mem_running, and_imp]

/-- One pass that raises takes all of them back. -/
theorem runOnce_of_raise (h : Consistent db) (hm : sim ∈ db.simulations)
    (hrun : sim.status = .running) (hr : ¬ InRange cfg (inputOf r sim) db) :
    runOnce cfg r o db = db :=
  (passes_checks _).commit_of_not fun hall => hr ((allInRange_running h).mp hall sim hm hrun)

theorem runOnce_of_inRange (h : Consistent db) (hall : ∀ sim ∈ db.simulations,
    sim.status = .running → InRange cfg (inputOf r sim) db) :
    runOnce cfg r o db = ((uncheckedPasses cfg r (runningSimulations o db)).run db).2 :=
  (passes_checks _).commit_of_ok ((allInRange_running h).mpr hall)

theorem slice_runOnce_running (h : Consistent db) (hall : ∀ sim ∈ db.simulations,
    sim.status = .running → InRange cfg (inputOf r sim) db) (hm : sim ∈ db.simulations)
    (hrun : sim.status = .running) :
    slice sim.id (runOnce cfg r o db) = slice sim.id ((pass cfg (inputOf r sim)).run db).2 := by
  rw [runOnce_of_inRange h hall]
  exact slice_of_running h (running_nodup h) (mem_running.mpr ⟨hm, hrun⟩)

theorem slice_runOnce_other (h : Consistent db) (hall : ∀ sim ∈ db.simulations,
    sim.status = .running → InRange cfg (inputOf r sim) db)
    (hσ : ∀ sim ∈ db.simulations, sim.status = .running → sim.id ≠ σ) :
    slice σ (runOnce cfg r o db) = slice σ db := by
  rw [runOnce_of_inRange h hall]
  refine slice_of_absent h fun hm => ?_
  obtain ⟨sim, hm, hid⟩ := List.mem_map.mp hm
  obtain ⟨hm, hrun⟩ := mem_running.mp hm
  exact hσ sim hm hrun hid

end Transactions

section Isolation

variable {cfg : Settings} {r : Readings} {db : Db} {sim : Simulation}

theorem slice_without {B σ : SimulationId} (h : σ ≠ B) : slice σ (without B db) = slice σ db :=
  slice_restrict (by simpa using h)

theorem mem_without {B : SimulationId} {x : Simulation} :
    x ∈ (without B db).simulations ↔ x ∈ db.simulations ∧ x.id ≠ B := by
  simp [without, restrict]

theorem alike_without {B σ : SimulationId} (h : Consistent db) (hσ : σ ≠ B) :
    Alike σ db (without B db) := ⟨(slice_without hσ).symm, h, h.restrict _⟩

theorem unaffected_of_inRange (h : Consistent db) (hm : sim ∈ db.simulations)
    (hr : InRange cfg (inputOf r sim) db) : Unaffected cfg r sim.id db := by
  intro o o' σ hσ
  have hw : Consistent (without sim.id db) := h.restrict _
  by_cases hall : ∀ x ∈ db.simulations, x.status = .running → InRange cfg (inputOf r x) db
  · have hall' : ∀ x ∈ (without sim.id db).simulations, x.status = .running →
        InRange cfg (inputOf r x) (without sim.id db) := by
      intro x hx hrun
      obtain ⟨hx, hne⟩ := mem_without.mp hx
      exact inRange_of_alike (alike_without h hne) (hall x hx hrun)
    by_cases hrunning : ∃ x ∈ db.simulations, x.status = .running ∧ x.id = σ
    · obtain ⟨x, hx, hrun, rfl⟩ := hrunning
      rw [slice_runOnce_running h hall hx hrun,
        slice_runOnce_running hw hall' (mem_without.mpr ⟨hx, hσ⟩) hrun]
      exact (pass_lockstep cfg (inputOf r x) _ _ (alike_without h hσ)).2.rows
    · push Not at hrunning
      rw [slice_runOnce_other h hall hrunning, slice_runOnce_other hw hall' fun x hx hrun =>
        hrunning x (mem_without.mp hx).1 hrun, slice_without hσ]
  · push Not at hall
    obtain ⟨x, hx, hrun, hraise⟩ := hall
    -- it is another pass that raises, and it raises without this one as well
    have hne : x.id ≠ sim.id := by
      intro he
      have hsame : x = sim := List.inj_on_of_nodup_map h.simulations hx hm he
      exact hraise (hsame ▸ hr)
    have halike := alike_without h hne
    have hraise' : ¬ InRange cfg (inputOf r x) (without sim.id db) := fun hin =>
      hraise (inRange_of_alike ⟨halike.rows.symm, halike.right, halike.left⟩ hin)
    rw [runOnce_of_raise h hx hrun hraise,
      runOnce_of_raise hw (mem_without.mpr ⟨hx, hne⟩) hrun hraise', slice_without hσ]

end Isolation

/-- A run past its cap, beside the rows of one simulation alone. -/
def companion (B : SimulationId) : Simulation where
  id := B + 1
  status := .running
  virtualEpoch := 0
  resumedAtWall := 0
  pausedAtVirtual := none
  speedMultiplier := 20
  fairDrainEnabled := true
  globalAttemptsPerS := 1
  outageOverride := none

def beside (B : SimulationId) (db : Db) : Db :=
  let own := restrict (fun σ => σ == B) db
  { own with simulations := own.simulations ++ [companion B] }

def Readings.beside (r : Readings) (B : SimulationId) : Readings where
  first σ := if σ = B + 1 then 0 else r.first σ
  second σ := if σ = B + 1 then 90 else r.second σ
  cached σ := if σ = B + 1 then none else r.cached σ
  locked := r.locked
  scan := r.scan

section Necessity

variable {cfg : Settings} {r : Readings} {i : PassInput} {o : RowOrder} {s db : Db}
  {sim : Simulation} {B : SimulationId}

theorem pass_retires (h : isFinished i.elapsed
    (totalBacklog (readGauges i.simulationId (reclaimed cfg i s))) = true) :
    ((pass cfg i).run s).2.simulations =
      s.simulations.map fun x => if x.id = i.simulationId then retireRow i.now x else x := by
  have hcharts : ∀ gauges u, ((MetricsSeries.write cfg i.simulationId i.now gauges
      i.lastWritten).run u).2.simulations = u.simulations := fun gauges u =>
    run_of_writes (W := fun s t : Db => t.simulations = s.simulations) (fun _ => rfl)
      (fun _ _ _ h k => k.trans h) ((metrics_frame _ _ _ _ _).mono fun _ _ => Frame.simulations)
  set gauges := readGauges i.simulationId (reclaimed cfg i s) with hgauges
  have hrun : (pass cfg i).run s = (conclude cfg i gauges).run ((MetricsSeries.write cfg
      i.simulationId i.now gauges i.lastWritten).run (reclaimed cfg i s)).2 := by
    rw [pass_stages, run_bind, PassStages.measure, run_bind, measured, run_bind]
    rfl
  rw [hrun, conclude, if_pos h, run_write]
  exact congrArg (List.map _) (hcharts _ _)

theorem slice_beside : slice B (beside B db) = slice B db := by
  have hown : slice B (restrict (fun σ => σ == B) db) = slice B db := slice_restrict (by simp)
  rw [← hown]
  unfold slice beside
  simp [companion]

theorem consistent_beside (h : Consistent db) : Consistent (beside B db) := by
  obtain ⟨hsims, hspeeds, hdeliveries, hattempts⟩ := h.restrict fun σ => σ == B
  refine ⟨?_, fun x hx => ?_, hdeliveries, hattempts⟩
  · rw [beside, List.map_append, List.nodup_append]
    refine ⟨hsims, List.nodup_singleton _, ?_⟩
    rintro a ha b hb rfl
    obtain ⟨x, hx, rfl⟩ := List.mem_map.mp ha
    have hx : x.id = B := beq_iff_eq.mp (List.mem_filter.mp hx).2
    have hb : x.id = B + 1 := List.mem_singleton.mp hb
    exact Nat.succ_ne_self B (hb.symm.trans hx)
  · rcases List.mem_append.mp hx with hx | hx
    · exact hspeeds x hx
    · obtain rfl := List.mem_singleton.mp hx
      norm_num [companion]

theorem inputOf_beside (h : sim.id = B) : inputOf (r.beside B) sim = inputOf r sim := by
  have hne : sim.id ≠ B + 1 := fun hb => Nat.succ_ne_self B (hb.symm.trans h)
  simp only [inputOf, Readings.beside, if_neg hne]

theorem without_beside (B : SimulationId) (db : Db) :
    (without B (beside B db)).simulations = [companion B] ∧
    (without B (beside B db)).cast.consumers = [] ∧
    (without B (beside B db)).deliveries.rows = [] := by
  have none_left : ∀ {α : Type} (g : α → SimulationId) (l : List α),
      (l.filter fun x => g x == B).filter (fun x => g x != B) = [] := by
    intro α g l
    rw [List.filter_filter, List.filter_eq_nil_iff]
    intro x _
    simp
  refine ⟨?_, none_left _ _, none_left _ _⟩
  change (List.filter _ (List.filter _ _ ++ _)) = _
  rw [List.filter_append, none_left Simulation.id]
  simp [companion]

theorem companion_inRange (r : Readings) (B : SimulationId) (db : Db)
    (hw : cfg.metricsBucketVirtualS ≠ 0) :
    InRange cfg (inputOf (r.beside B) (companion B)) (without B (beside B db)) := by
  obtain ⟨-, hconsumers, hdeliveries⟩ := without_beside B db
  have hnow : (inputOf (r.beside B) (companion B)).now = 0 := by
    simp [inputOf, Readings.beside, companion, nowAt, runningAt, fromRow]
  have helapsed : (inputOf (r.beside B) (companion B)).elapsed = 1800 := by
    norm_num [inputOf, Readings.beside, companion, nowAt, runningAt, fromRow]
  have hidle : ∀ t : Db, t.cast.consumers = [] → ¬ Writes cfg
      (inputOf (r.beside B) (companion B)).simulationId (inputOf (r.beside B) (companion B)).now
      (inputOf (r.beside B) (companion B)).lastWritten t := by
    rintro t ht ⟨-, hids⟩
    exact hids (by simp [consumerIds, ht])
  have hreclaimed : (reclaimed cfg (inputOf (r.beside B) (companion B))
      (without B (beside B db))).cast.consumers = [] := hconsumers
  refine ⟨?_, ?_, ?_, ⟨hw, ?_, fun h => absurd h (hidle _ hreclaimed),
    fun h => absurd h (hidle _ hreclaimed)⟩, fun h => ?_⟩
  · rw [hnow]
    decide +kernel
  · rw [helapsed]
    decide +kernel
  · intro d hd
    have hd := (mem_expiredLeases hd).1
    rw [hdeliveries] at hd
    cases hd
  · rw [hnow, zero_div]
    decide +kernel
  · rw [helapsed] at h
    cases h

theorem companion_stored : (slice (B + 1) (beside B db)).simulations = [companion B] := by
  change List.filter _ (List.filter _ _ ++ _) = _
  rw [List.filter_append, List.filter_filter, List.filter_eq_nil_iff.mpr]
  · simp [companion]
  · intro x _ hx
    obtain ⟨hx, hB⟩ := Bool.and_eq_true_iff.mp hx
    exact Nat.succ_ne_self B ((beq_iff_eq.mp hx).symm.trans (beq_iff_eq.mp hB))

theorem companion_retired (hw : cfg.metricsBucketVirtualS ≠ 0) (h : Consistent db) :
    (slice (B + 1) (runOnce cfg (r.beside B) o (without B (beside B db)))).simulations =
      [retireRow 0 (companion B)] := by
  obtain ⟨halone, -, -⟩ := without_beside B db
  have hin := companion_inRange r B db hw
  have hall : ∀ x ∈ (without B (beside B db)).simulations, x.status = .running →
      InRange cfg (inputOf (r.beside B) x) (without B (beside B db)) := by
    intro x hx _
    rw [halone] at hx
    obtain rfl := List.mem_singleton.mp hx
    exact hin
  have hmem : companion B ∈ (without B (beside B db)).simulations := by
    rw [halone]
    exact List.mem_singleton_self _
  have hother : Consistent (without B (beside B db)) := (consistent_beside h).restrict _
  have hpass := slice_runOnce_running (o := o) hother hall hmem rfl
  have hfinished : isFinished (inputOf (r.beside B) (companion B)).elapsed (totalBacklog
      (readGauges (B + 1) (reclaimed cfg (inputOf (r.beside B) (companion B))
        (without B (beside B db))))) = true := by
    refine if_pos ?_
    norm_num [inputOf, Readings.beside, companion, nowAt, runningAt, fromRow,
      SCENARIO_MAX_VIRTUAL_S]
  rw [show B + 1 = (companion B).id from rfl, hpass]
  change List.filter _ ((pass cfg _).run _).2.simulations = _
  rw [pass_retires hfinished, halone]
  simp [companion, inputOf, retireRow, Readings.beside, nowAt, runningAt, fromRow]

/-- The rollback takes the companion's retirement back. -/
theorem affected_beside (hw : cfg.metricsBucketVirtualS ≠ 0) (h : Consistent db)
    (hm : sim ∈ db.simulations) (hrun : sim.status = .running)
    (hr : ¬ InRange cfg (inputOf r sim) db) :
    ¬ Unaffected cfg (r.beside sim.id) sim.id (beside sim.id db) := by
  intro hun
  have hall : Consistent (beside sim.id db) := consistent_beside h
  have hm' : sim ∈ (beside sim.id db).simulations :=
    List.mem_append_left _ (List.mem_filter.mpr ⟨hm, beq_self_eq_true _⟩)
  have hraise : ¬ InRange cfg (inputOf (r.beside sim.id) sim) (beside sim.id db) := by
    rw [inputOf_beside rfl]
    exact fun hin => hr (inRange_of_alike ⟨slice_beside, hall, h⟩ hin)
  have hkept := congrArg Slice.simulations (hun .stored .stored (sim.id + 1) (Nat.succ_ne_self _))
  rw [runOnce_of_raise hall hm' hrun hraise, companion_stored, companion_retired hw h] at hkept
  exact absurd (List.cons.inj hkept).1 (by simp [companion, retireRow])

/-- With buckets of no width every pass raises. -/
theorem unaffected_of_zero_width (hw : cfg.metricsBucketVirtualS = 0) (h : Consistent db) :
    Unaffected cfg r B db := by
  have idle : ∀ (o : RowOrder) (u : Db), Consistent u → runOnce cfg r o u = u := by
    intro o u hu
    by_cases hany : ∃ x ∈ u.simulations, x.status = .running
    · obtain ⟨x, hx, hrun⟩ := hany
      exact runOnce_of_raise hu hx hrun fun hin => hin.chart.width hw
    · have hnone : runningSimulations o u = [] := by
        refine List.eq_nil_iff_forall_not_mem.mpr fun x hx => hany ?_
        exact ⟨x, mem_running.mp hx⟩
      rw [runOnce, hnone]
      rfl
  intro o o' σ hσ
  have hother : Consistent (without B db) := h.restrict _
  rw [idle o db h, idle o' _ hother, slice_without hσ]

/-- Whatever else runs, a simulation leaves it to itself, just when none of what its own pass
computes leaves its type. -/
theorem unaffected_iff_inRange (h : Consistent db) (hm : sim ∈ db.simulations)
    (hrun : sim.status = .running) :
    (∀ (r' : Readings) (db' : Db), inputOf r' sim = inputOf r sim → Consistent db' →
        slice sim.id db' = slice sim.id db → Unaffected cfg r' sim.id db') ↔
      (cfg.metricsBucketVirtualS ≠ 0 → InRange cfg (inputOf r sim) db) := by
  constructor
  · intro hall hw
    by_contra hr
    exact affected_beside hw h hm hrun hr
      (hall _ _ (inputOf_beside rfl) (consistent_beside h) slice_beside)
  · intro hin r' db' hinput h' hrows
    by_cases hw : cfg.metricsBucketVirtualS = 0
    · exact unaffected_of_zero_width hw h'
    have hm' : sim ∈ db'.simulations := by
      have hmem : sim ∈ (slice sim.id db).simulations :=
        List.mem_filter.mpr ⟨hm, beq_self_eq_true _⟩
      rw [← hrows] at hmem
      exact List.mem_of_mem_filter hmem
    refine unaffected_of_inRange h' hm' ?_
    rw [hinput]
    exact inRange_of_alike ⟨hrows.symm, h, h'⟩ (hin hw)

end Necessity

def runningRun (id : SimulationId) (resumedAtWall speedMultiplier : ℚ) : Simulation :=
  ⟨id, .running, VIRTUAL_EPOCH_ZERO, resumedAtWall, none, speedMultiplier, true, 30, none⟩

def twoRuns (speedMultiplier : ℚ) : Db :=
  .seeded soleConsumer [runningRun 1 89 speedMultiplier, runningRun 2 0 20]

def allAt (wall : ℚ) : Readings :=
  ⟨fun _ => wall, fun _ => wall, fun _ => none, fun _ => false, .physical⟩

theorem twoRuns_consistent {speedMultiplier : ℚ} (h : 0 < speedMultiplier) :
    Consistent (twoRuns speedMultiplier) where
  simulations := by simp [twoRuns, Db.seeded, runningRun]
  speeds := by simp [twoRuns, Db.seeded, runningRun, h]
  deliveries _ h := nomatch h
  attempts _ h := nomatch h

theorem twoRuns_inRange :
    InRange shipped (inputOf (allAt 90) (runningRun 1 89 20)) (twoRuns 20) where
  now := by decide +kernel
  elapsed := by decide +kernel
  requeues := by decide +kernel
  chart := ⟨by decide +kernel, by decide +kernel, by decide +kernel, by decide +kernel⟩
  admission _ _ := ⟨by decide +kernel, fun _ => by decide +kernel⟩

theorem unaffected_iff_inRange_twoRuns : Unaffected shipped (allAt 90) 1 (twoRuns 20) := by
  have hnewer : runningRun 1 89 20 ∈ (twoRuns 20).simulations := .head _
  have hc : Consistent (twoRuns 20) := twoRuns_consistent (by norm_num)
  exact (unaffected_iff_inRange hc hnewer rfl).mpr (fun _ => twoRuns_inRange) _ _ rfl hc rfl

/-- At a speed that takes it past the year 9999 within the second, it keeps the other from being
retired. -/
theorem fast_run_holds_up_others : ¬ ∀ (r : Readings) (db : Db), Consistent db →
    ∀ sim ∈ db.simulations, sim.status = .running → Unaffected shipped r sim.id db := by
  intro h
  have hslices := h (allAt 90) (twoRuns (10 ^ 12)) (twoRuns_consistent (by norm_num))
    (runningRun 1 89 (10 ^ 12)) (.head _) rfl .stored .stored 2 (by decide)
  have hstatus := congrArg (fun x => x.simulations.map Simulation.status) hslices
  revert hstatus
  decide +kernel

end SimulationIsolation
