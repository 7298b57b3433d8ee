import WebhookRecovery.ConductorPass
import WebhookRecovery.EventIngest

/-! The processes around one database: ingest, any number of workers and one conductor. The
transactions of ingest and of a worker are atomic. A pass runs a statement at a time and its
writes are seen at once; `locked` in a claim lets a worker pass over what it may not see yet. -/
namespace DeliveryPipeline

open RecoverySchema InterleavedPrograms WorkerClaim EventIngest ConductorPass

structure State where
  db : Db
  batches : WorkerId → Option (List Claimed)
  conductor : Option (PassInput × Program Db Unit)

def initial (cast : Cast) (simulations : List Simulation) : State :=
  ⟨.seeded cast simulations, fun _ => none, none⟩

/-- A worker that dies or fails between its two transactions abandons its batch. A pass may
end after any statement; one that is rolled back leaves nothing, as if it was not begun. -/
inductive Action where
  | ingest (simulationId : SimulationId) (now : ℚ) (specs : List EventSpec)
  | claim (worker : WorkerId) (simulationId : SimulationId) (now : ℚ) (locked : ℕ → Bool)
      (scan : ScanOrder)
  | complete (worker : WorkerId) (results : List AttemptResult) (now : ℚ)
  | abandon (worker : WorkerId)
  | beginPass (input : PassInput)
  | statement
  | endPass

/-- Each worker finishes or abandons a batch before it claims again. -/
def Enabled (s : State) : Action → Prop
  | .claim w _ _ _ _ => (s.batches w).isNone
  | .complete w results _ =>
    (s.batches w).any fun claimed => claimed.length == results.length
  | .beginPass _ => s.conductor.isNone
  | _ => True

instance (s : State) : DecidablePred (Enabled s)
  | .claim w _ _ _ _ => inferInstanceAs (Decidable ((s.batches w).isNone = true))
  | .complete w results _ => inferInstanceAs
    (Decidable (((s.batches w).any fun claimed => claimed.length == results.length) = true))
  | .beginPass _ => inferInstanceAs (Decidable (s.conductor.isNone = true))
  | .ingest .. | .abandon _ | .statement | .endPass => inferInstanceAs (Decidable True)

def batchOf (l : List Claimed) : Option (List Claimed) := if l.isEmpty then none else some l

def completions (batch : Option (List Claimed)) (results : List AttemptResult) :
    List Completion :=
  List.zipWith Completion.mk (batch.getD []) results

def next (cfg : Settings) (s : State) : Action → State
  | .ingest sim now specs => { s with db := ingestEvents sim now specs s.db }
  | .claim w sim now locked scan =>
    let r := claimBatch cfg scan locked sim w now cfg.workerBatchSize s.db
    { s with db := r.1, batches := Function.update s.batches w (batchOf r.2) }
  | .complete w results now =>
    { s with
      db := completeBatch cfg w (completions (s.batches w) results) now s.db
      batches := Function.update s.batches w none }
  | .abandon w => { s with batches := Function.update s.batches w none }
  | .beginPass i => { s with conductor := some (i, pass cfg i) }
  | .statement =>
    match s.conductor with
    | some (i, .stmt write k) => { s with db := write s.db, conductor := some (i, k s.db) }
    | _ => s
  | .endPass => { s with conductor := none }

def Step (cfg : Settings) (s : State) (e : Action) (t : State) : Prop :=
  Enabled s e ∧ t = next cfg s e

def Initial (s : State) : Prop := ∃ cast simulations, s = initial cast simulations

def system (cfg : Settings) : System State Action := .guarded Initial Enabled (next cfg)

def run (cfg : Settings) (s : State) (es : List Action) : Option State :=
  runList Enabled (next cfg) s es

theorem run_execution {cfg : Settings} {s t : State} {es : List Action}
    (h : run cfg s es = some t) : (system cfg).Execution s t := runList_execution Initial _ _ h

theorem run_reachable {cfg : Settings} {cast : Cast} {simulations : List Simulation} {t : State}
    {es : List Action} (h : run cfg (initial cast simulations) es = some t) :
    (system cfg).Reachable t :=
  ⟨_, ⟨cast, simulations, rfl⟩, run_execution h⟩

def soleConsumer : Cast where
  consumers := [{
    id := 1
    simulationId := 1
    weight := 1
    concurrencyCap := 4
    maxAttemptsPerS := 10 }]
  subscriptions := [⟨1, 1, "patient.updated"⟩]
  policies := [⟨1, 1, "patient.updated", none, .latestByKey⟩]
  consumer_key := by decide
  subscription_key := by decide
  policy_key := by decide
  knobs_positive := by simp
  staleness_positive := by simp

def passAt (now : ℚ) : PassInput :=
  ⟨1, now, now, true, 30, none, none, fun _ => false, .physical⟩

def wholePass (now : ℚ) : List Action :=
  .beginPass (passAt now) :: List.replicate 20 .statement ++ [.endPass]

def firstClaim : List Action :=
  .ingest 1 1 [⟨"patient.updated", "chart", none⟩] :: wholePass 2 ++
    [.claim 7 1 3 (fun _ => false) .physical]

theorem firstClaim_inFlight : ∃ s, run shipped (initial soleConsumer []) firstClaim = some s ∧
    ∃ d ∈ s.db.deliveries.rows, d.state = .inFlight := by
  have hstate : (run shipped (initial soleConsumer []) firstClaim).map
      (fun s => s.db.deliveries.rows.map Delivery.state) = some [.inFlight] := by decide +kernel
  obtain ⟨s, hs, hrows⟩ := Option.map_eq_some_iff.mp hstate
  have hin : DeliveryState.inFlight ∈ s.db.deliveries.rows.map Delivery.state := by
    rw [hrows]
    exact List.mem_singleton.mpr rfl
  exact ⟨s, hs, List.mem_map.mp hin⟩

end DeliveryPipeline
