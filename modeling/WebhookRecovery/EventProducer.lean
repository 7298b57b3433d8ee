import WebhookRecovery.Numerals
import WebhookRecovery.EventIngest
import WebhookRecovery.ConductorPass
import WebhookRecovery.VirtualClock

/-! The demo producer: it emits the event mix into every running simulation, a window of virtual
time per tick, and keeps a little state for each of them in memory. -/
namespace EventProducer

open RecoverySchema VirtualClock EventIngest

structure EventTypeSpec where
  eventType : String
  ratePerVirtualS : ℚ
  keyPrefix : String
  keyPool : Option ℕ
  deriving DecidableEq, Repr

def EVENT_MIX : List EventTypeSpec :=
  [⟨"payment_intent.succeeded", 11 / 10, "pi", none⟩,
    ⟨"customer.subscription.updated", 23 / 10, "sub", some 20⟩,
    ⟨"balance.available", 37 / 20, "acct", some 25⟩,
    ⟨"invoice.paid", 4 / 5, "in", none⟩]

def entityKey (spec : EventTypeSpec) (draw : ℕ) : String :=
  match spec.keyPool with
  | none => spec.keyPrefix ++ "_" ++ Numerals.padded 16 8 draw
  | some pool => spec.keyPrefix ++ "_" ++ Numerals.padded 10 3 (draw % pool)

/-- A generator of pseudo-random numbers, as a state that every draw replaces. -/
structure Random (ρ : Type) where
  seed : SimulationId → ρ
  random : ρ → ℚ × ρ
  randrange : ℕ → ρ → ℕ × ρ
  uniform : ℚ → ℚ → ρ → ℚ × ρ

/-- Per-simulation bookkeeping, held in memory. -/
structure SimulationState (ρ : Type) where
  rng : ρ
  lastEmitted : Option ℚ := none
  sequence : ℕ := 0

structure ProducerSettings where
  producerMaxCatchupVirtualS : ℚ := 5

variable {ρ : Type} (gen : Random ρ) (cfg : ProducerSettings)

def one (st : SimulationState ρ) (spec : EventTypeSpec) (since windowS : ℚ) :
    SimulationState ρ × EventSpec :=
  let sequence := st.sequence + 1
  let draw := match spec.keyPool with
    | some pool => gen.randrange pool st.rng
    | none => (sequence, st.rng)
  let offset := gen.uniform 0 windowS draw.2
  ({ st with rng := offset.2, sequence := sequence },
    { eventType := spec.eventType
      entityKey := entityKey spec draw.1
      occurredAt := some (since + offset.1) })

def several (st : SimulationState ρ) (spec : EventTypeSpec) (since windowS : ℚ) :
    ℕ → SimulationState ρ × List EventSpec
  | 0 => (st, [])
  | count + 1 =>
    let first := one gen st spec since windowS
    let rest := several first.1 spec since windowS count
    (rest.1, first.2 :: rest.2)

/-- How many events of a type fall into a window: a coin flip resolves the fraction. -/
def drawCount (st : SimulationState ρ) (spec : EventTypeSpec) (windowS : ℚ) :
    SimulationState ρ × ℕ :=
  let expected := spec.ratePerVirtualS * windowS
  let count := (pyInt expected).toNat
  let flip := gen.random st.rng
  ({ st with rng := flip.2 }, if flip.1 < expected - count then count + 1 else count)

def drawTypes (st : SimulationState ρ) (since windowS : ℚ) :
    List EventTypeSpec → SimulationState ρ × List EventSpec
  | [] => (st, [])
  | spec :: mix =>
    let counted := drawCount gen st spec windowS
    let mine := several gen counted.1 spec since windowS counted.2
    let rest := drawTypes mine.1 since windowS mix
    (rest.1, mine.2 ++ rest.2)

def draw (st : SimulationState ρ) (windowS since : ℚ) : SimulationState ρ × List EventSpec :=
  let drawn := drawTypes gen st since windowS EVENT_MIX
  (drawn.1, drawn.2.insertionSort fun a b => a.occurredAt.getD since ≤ b.occurredAt.getD since)

def lastEmitted (simulationId : SimulationId) (db : Db) : Option ℚ :=
  ((db.events.rows.filter fun e => e.simulationId == simulationId).map Event.occurredAt).max?

abbrev Memory (ρ : Type) := SimulationId → Option (SimulationState ρ)

/-- The producer works on a simulation whose clock runs and whose script is not over. -/
def emits (sim : Simulation) (atWall : ℚ) : Bool :=
  decide (sim.status = .running) && ConductorPass.isProducing (nowAt (fromRow sim) atWall)

/-- The state in memory, recovered from the ledger on first sight. -/
def stateOf (memory : Memory ρ) (simulationId : SimulationId) (db : Db) : SimulationState ρ :=
  (memory simulationId).getD
    { rng := gen.seed simulationId, lastEmitted := lastEmitted simulationId db }

/-- The window since the last emission, clamped, and where it starts. -/
def window (st : SimulationState ρ) (now : ℚ) : ℚ × ℚ :=
  let since := st.lastEmitted.getD VIRTUAL_EPOCH_ZERO
  if now - since > cfg.producerMaxCatchupVirtualS then
    (cfg.producerMaxCatchupVirtualS, now - cfg.producerMaxCatchupVirtualS)
  else (now - since, since)

def drawAt (st : SimulationState ρ) (now : ℚ) : Option (SimulationState ρ × List EventSpec) :=
  if now - st.lastEmitted.getD VIRTUAL_EPOCH_ZERO ≤ 0 then none
  else some (draw gen st (window cfg st now).1 (window cfg st now).2)

def draws (sim : Simulation) (atWall : ℚ) (st : SimulationState ρ) : Option (List EventSpec) :=
  if emits sim atWall then (drawAt gen cfg st (nowAt (fromRow sim) atWall)).map Prod.snd else none

/-- `_emit_for`: the memory, and the ledger as the tick's transaction sees it. -/
def emitFor (sim : Simulation) (atWall : ℚ) (p : Memory ρ × Db) : Memory ρ × Db :=
  if emits sim atWall then
    let now := nowAt (fromRow sim) atWall
    let st := stateOf gen p.1 sim.id p.2
    match drawAt gen cfg st now with
    | none => (Function.update p.1 sim.id (some st), p.2)
    | some (st, specs) =>
      (Function.update p.1 sim.id (some { st with lastEmitted := some now }),
        if specs.isEmpty then p.2 else ingestEvents sim.id now specs p.2)
  else p

/-- `_emit_for` when the ingest raises: the numbers that were drawn are used up. -/
def emitFailing (sim : Simulation) (atWall : ℚ) (p : Memory ρ × Db) : Memory ρ :=
  if emits sim atWall then
    let st := stateOf gen p.1 sim.id p.2
    match drawAt gen cfg st (nowAt (fromRow sim) atWall) with
    | none => Function.update p.1 sim.id (some st)
    | some (st, _) => Function.update p.1 sim.id (some st)
  else p.1

def runningSimulations (db : Db) : List Simulation :=
  db.simulations.filter fun sim => sim.status == .running

def emitAll (atWall : SimulationId → ℚ) (sims : List Simulation) (p : Memory ρ × Db) :
    Memory ρ × Db :=
  sims.foldl (fun p sim => emitFor gen cfg sim (atWall sim.id) p) p

/-- Simulations that ended or were deleted should not pin memory. -/
def forget (live : List SimulationId) (memory : Memory ρ) : Memory ρ := fun i =>
  if i ∈ live then memory i else none

def tick (atWall : SimulationId → ℚ) (p : Memory ρ × Db) : Memory ρ × Db :=
  let sims := runningSimulations p.2
  let emitted := emitAll gen cfg atWall sims p
  (forget (sims.map Simulation.id) emitted.1, emitted.2)

/-- A tick that raises after so many simulations, in the ingest of the next one or before it draws;
the transaction is rolled back, the memory is not, and nothing is forgotten. -/
def tickFailing (atWall : SimulationId → ℚ) (done : ℕ) (inIngest : Bool) (p : Memory ρ × Db) :
    Memory ρ × Db :=
  let sims := runningSimulations p.2
  let emitted := emitAll gen cfg atWall (sims.take done) p
  match inIngest, sims[done]? with
  | true, some sim => (emitFailing gen cfg sim (atWall sim.id) emitted, p.2)
  | _, _ => (emitted.1, p.2)

section Steps

variable (sim : Simulation) (atWall : ℚ) (p : Memory ρ × Db)

/-- `_emit_for` passes over a simulation, or finds no window and keeps the state that it has found
in memory, or draws. -/
theorem emitFor_spec :
    (emits sim atWall = false ∧ emitFor gen cfg sim atWall p = p) ∨
    emits sim atWall ∧
      ((drawAt gen cfg (stateOf gen p.1 sim.id p.2) (nowAt (fromRow sim) atWall) = none ∧
        emitFor gen cfg sim atWall p =
          (Function.update p.1 sim.id (some (stateOf gen p.1 sim.id p.2)), p.2)) ∨
      ∃ st specs,
        drawAt gen cfg (stateOf gen p.1 sim.id p.2) (nowAt (fromRow sim) atWall) =
          some (st, specs) ∧
        emitFor gen cfg sim atWall p =
          (Function.update p.1 sim.id
            (some { st with lastEmitted := some (nowAt (fromRow sim) atWall) }),
          if specs.isEmpty then p.2
            else ingestEvents sim.id (nowAt (fromRow sim) atWall) specs p.2)) := by
  rw [emitFor]
  split
  · rename_i he
    refine Or.inr ⟨he, ?_⟩
    cases hd : drawAt gen cfg (stateOf gen p.1 sim.id p.2) (nowAt (fromRow sim) atWall) with
    | none =>
      refine Or.inl ⟨rfl, ?_⟩
      simp only [hd]
    | some drawn =>
      refine Or.inr ⟨drawn.1, drawn.2, rfl, ?_⟩
      simp only [hd]
  · rename_i he
    exact Or.inl ⟨Bool.eq_false_iff.mpr he, rfl⟩

/-- A failing ingest leaves the state in memory, with the numbers used up that were drawn. -/
theorem emitFailing_spec :
    emitFailing gen cfg sim atWall p = p.1 ∨
    emits sim atWall ∧ ∃ st, emitFailing gen cfg sim atWall p =
        Function.update p.1 sim.id (some st) ∧
      (st = stateOf gen p.1 sim.id p.2 ∨ ∃ specs,
        drawAt gen cfg (stateOf gen p.1 sim.id p.2) (nowAt (fromRow sim) atWall) =
          some (st, specs)) := by
  rw [emitFailing]
  split
  · rename_i he
    refine Or.inr ⟨he, ?_⟩
    cases hd : drawAt gen cfg (stateOf gen p.1 sim.id p.2) (nowAt (fromRow sim) atWall) with
    | none =>
      refine ⟨_, ?_, Or.inl rfl⟩
      simp only [hd]
    | some drawn =>
      refine ⟨drawn.1, ?_, Or.inr ⟨drawn.2, rfl⟩⟩
      simp only [hd]
  · exact Or.inl rfl

variable {sim} {σ : SimulationId}

theorem emitFor_other (h : sim.id ≠ σ) : (emitFor gen cfg sim atWall p).1 σ = p.1 σ ∧
    (emitFor gen cfg sim atWall p).2.events.rows.filter (fun e => e.simulationId == σ) =
      p.2.events.rows.filter (fun e => e.simulationId == σ) := by
  rcases emitFor_spec gen cfg sim atWall p with ⟨-, hp⟩ | ⟨-, ⟨-, hp⟩ | ⟨st, specs, -, hp⟩⟩
  · rw [hp]
    exact ⟨rfl, rfl⟩
  · rw [hp]
    exact ⟨Function.update_of_ne h.symm .., rfl⟩
  · rw [hp]
    refine ⟨Function.update_of_ne h.symm .., ?_⟩
    dsimp only
    split
    · rfl
    · rw [ingestEvents_filter, if_neg h, List.append_nil]

theorem emitFailing_other (h : sim.id ≠ σ) : emitFailing gen cfg sim atWall p σ = p.1 σ := by
  rcases emitFailing_spec gen cfg sim atWall p with hp | ⟨-, st, hp, -⟩
  · rw [hp]
  · rw [hp]
    exact Function.update_of_ne h.symm ..

/-- A tick that fails leaves the memory as it has come to be, and the database as it was. -/
theorem tickFailing_spec (atWall : SimulationId → ℚ) (done : ℕ) (inIngest : Bool) :
    tickFailing gen cfg atWall done inIngest p =
      ((emitAll gen cfg atWall ((runningSimulations p.2).take done) p).1, p.2) ∨
    inIngest ∧ ∃ sim, (runningSimulations p.2)[done]? = some sim ∧
      tickFailing gen cfg atWall done inIngest p = (emitFailing gen cfg sim (atWall sim.id)
        (emitAll gen cfg atWall ((runningSimulations p.2).take done) p), p.2) := by
  unfold tickFailing
  dsimp only
  split
  · rename_i sim hsim
    exact Or.inr ⟨rfl, sim, hsim, rfl⟩
  · exact Or.inl rfl

theorem tickFailing_db (atWall : SimulationId → ℚ) (done : ℕ) (inIngest : Bool) :
    (tickFailing gen cfg atWall done inIngest p).2 = p.2 := by
  rcases tickFailing_spec gen cfg p atWall done inIngest with hp | ⟨-, sim, -, hp⟩
  · rw [hp]
  · rw [hp]

end Steps

theorem emitFor_ledger (sim : Simulation) (atWall : ℚ) (p : Memory ρ × Db) :
    (emitFor gen cfg sim atWall p).2 =
      match draws gen cfg sim atWall (stateOf gen p.1 sim.id p.2) with
      | none => p.2
      | some specs =>
        if specs.isEmpty then p.2
        else ingestEvents sim.id (nowAt (fromRow sim) atWall) specs p.2 := by
  rw [emitFor, draws]
  split
  · cases hd : drawAt gen cfg (stateOf gen p.1 sim.id p.2) (nowAt (fromRow sim) atWall) with
    | none => simp only [hd, Option.map_none]
    | some drawn => simp only [hd, Option.map_some]
  · rfl

end EventProducer
