import WebhookRecovery.EventProducer
import WebhookRecovery.PassStages
import WebhookRecovery.DeliveryLifecycle

/-! The end of a run. The producer stops by its clock, and a pass retires by its own; between them
a tick may have drawn its events and not committed them, and an empty backlog does not count
those. -/
namespace RetirementRace

open KeyedTables RecoverySchema InterleavedPrograms VirtualClock EventIngest EventProducer
open WorkerClaim MetricsSeries ConductorPass DeliveryPipeline PassStages DeliveryFile
open PipelineInvariant DeliveryLifecycle

/-- A tick's events for one simulation, drawn and not committed. -/
structure Tick where
  simulationId : SimulationId
  now : ℚ
  specs : List EventSpec

structure State where
  pipe : DeliveryPipeline.State
  wall : ℚ
  ticks : List Tick
  drained : Bool

/-- A tick reads its clock and draws from whatever it has in memory, and later commits or is rolled
back; everything else is a step of the pipeline. -/
inductive Event (ρ : Type) where
  | elapse (d : ℚ)
  | draw (sim : Simulation) (st : SimulationState ρ)
  | commit (k : ℕ)
  | rollback (k : ℕ)
  | pipeline (a : Action)

section Model

variable {ρ : Type} (gen : Random ρ) (pcfg : ProducerSettings) (cfg : Settings)
  (sims : List Simulation) (σ : SimulationId)

/-- Only the producer ingests into the simulation, and a pass reads the clock of a running row. -/
def Regular (s : State) : Action → Prop
  | .ingest i _ _ => i ≠ σ
  | .beginPass i => ∃ sim ∈ s.pipe.db.simulations, sim.id = i.simulationId ∧
    sim.status = .running ∧ i.elapsed = nowAt (fromRow sim) s.wall
  | _ => True

instance (s : State) : DecidablePred (Regular σ s)
  | .ingest i _ _ => inferInstanceAs (Decidable (i ≠ σ))
  | .beginPass i => inferInstanceAs (Decidable (∃ sim ∈ s.pipe.db.simulations,
    sim.id = i.simulationId ∧ sim.status = .running ∧ i.elapsed = nowAt (fromRow sim) s.wall))
  | .claim .. | .complete .. | .abandon _ | .statement | .endPass =>
    inferInstanceAs (Decidable True)

/-- A row that a tick reads is as it was before any retirement: what a pass has not committed is
not seen, and what it has is not running. -/
def Enabled (s : State) : Event ρ → Prop
  | .elapse d => 0 ≤ d
  | .draw sim _ => sim ∈ sims
  | .commit _ | .rollback _ => True
  | .pipeline a => DeliveryPipeline.Enabled s.pipe a ∧ Regular σ s a

instance (s : State) : DecidablePred (Enabled (ρ := ρ) sims σ s)
  | .elapse d => inferInstanceAs (Decidable (0 ≤ d))
  | .draw sim _ => inferInstanceAs (Decidable (sim ∈ sims))
  | .commit _ | .rollback _ => inferInstanceAs (Decidable True)
  | .pipeline a => inferInstanceAs (Decidable (DeliveryPipeline.Enabled s.pipe a ∧ Regular σ s a))

def retires (s : DeliveryPipeline.State) : Action → Bool
  | .statement =>
    match s.conductor with
    | some (i, _) => i.simulationId == σ && decide (i.elapsed < SCENARIO_MAX_VIRTUAL_S) &&
      (DeliveryPipeline.next cfg s .statement).db.simulations != s.db.simulations
    | none => false
  | _ => false

def next (s : State) : Event ρ → State
  | .elapse d => { s with wall := s.wall + d }
  | .draw sim st =>
    match draws gen pcfg sim s.wall st with
    | some specs => { s with ticks := s.ticks ++ [⟨sim.id, nowAt (fromRow sim) s.wall, specs⟩] }
    | none => s
  | .commit k =>
    match s.ticks[k]? with
    | some t =>
      { s with
        pipe := DeliveryPipeline.next cfg s.pipe (.ingest t.simulationId t.now t.specs)
        ticks := s.ticks.eraseIdx k }
    | none => s
  | .rollback k => { s with ticks := s.ticks.eraseIdx k }
  | .pipeline a =>
    { s with
      pipe := DeliveryPipeline.next cfg s.pipe a
      drained := s.drained || retires cfg σ s.pipe a }

def Initial (s : State) : Prop :=
  (∃ cast, s.pipe = DeliveryPipeline.initial cast sims) ∧ s.ticks = [] ∧ s.drained = false ∧
    (sims.map Simulation.id).Nodup ∧ ∀ sim ∈ sims, 0 < sim.speedMultiplier

def system : System State (Event ρ) :=
  .guarded (Initial sims) (Enabled sims σ) (next gen pcfg cfg σ)

def Owes (cast : Cast) (t : Tick) : Prop :=
  ∃ x ∈ t.specs,
    subscribersByType t.simulationId (t.specs.map EventSpec.eventType) cast x.eventType ≠ []

/-- A pass past the end of the script that reads an empty backlog does so while no tick of the run
has drawn deliveries that it has not committed. -/
def Settled (s : State) : Event ρ → Prop
  | .pipeline .statement => ∀ i, s.pipe.conductor = some (i, measure cfg i) → i.simulationId = σ →
    isProducing i.elapsed = false → totalBacklog (readGauges σ s.pipe.db) = 0 →
    ∀ t ∈ s.ticks, t.simulationId = σ → ¬ Owes s.pipe.db.cast t
  | _ => True

def settled : System State (Event ρ) := (system gen pcfg cfg sims σ).restrict (Settled cfg σ)

end Model

section Deliveries

variable {cfg : Settings} {s t : DeliveryPipeline.State} {a : Action} {σ : SimulationId}
  {d : Delivery} {db : Db}

theorem ingest_new {i : SimulationId} {now : ℚ} {specs : List EventSpec}
    (hd : d ∈ (ingestEvents i now specs db).deliveries.rows) :
    d ∈ db.deliveries.rows ∨ d.simulationId = i ∧ Owes db.cast ⟨i, now, specs⟩ := by
  rw [ingestEvents_deliveries] at hd
  rcases List.mem_append.mp hd with hd | hd
  · exact Or.inl hd
  · obtain ⟨x, hx, rfl⟩ := List.mem_map.mp hd
    have hpair := List.fst_mem_of_mem_zipIdx hx
    obtain ⟨e, he, hc⟩ := List.mem_flatMap.mp hpair
    obtain ⟨c, hc, hce⟩ := List.mem_map.mp hc
    obtain ⟨y, hy, rfl⟩ := List.mem_map.mp he
    refine Or.inr ⟨by rw [← hce]; rfl, y.1, List.fst_mem_of_mem_zipIdx hy, ?_⟩
    exact List.ne_nil_of_mem hc

def Ended (σ : SimulationId) (db : Db) : Prop :=
  ∀ d ∈ db.deliveries.rows, d.simulationId = σ → d.state.terminal

theorem Ended.ingest {i : SimulationId} {now : ℚ} {specs : List EventSpec} (h : Ended σ db)
    (hn : i = σ → ¬ Owes db.cast ⟨i, now, specs⟩) : Ended σ (ingestEvents i now specs db) := by
  intro d hd hσ
  rcases ingest_new hd with hd | ⟨hi, ho⟩
  · exact h d hd hσ
  · exact absurd ho (hn (hi.symm.trans hσ))

theorem Ended.step (h : Ended σ s.db) (hi : Invariant cfg s) (hs : Step cfg s a t)
    (ha : ∀ i now specs, a = .ingest i now specs → i ≠ σ) : Ended σ t.db := by
  by_cases hing : ∃ i now specs, a = .ingest i now specs
  · obtain ⟨i, now, specs, rfl⟩ := hing
    obtain ⟨-, rfl⟩ := hs
    exact h.ingest fun hiσ => absurd hiσ (ha i now specs rfl)
  · have hnot : ∀ i now specs, a ≠ .ingest i now specs := fun i now specs he =>
      hing ⟨i, now, specs, he⟩
    intro d hd hσ
    obtain ⟨d₀, hd₀, hmove⟩ := step_moved hi hs hnot hd
    have hsim : d.simulationId = d₀.simulationId := hmove.identity.2.1
    have ht := h d₀ hd₀ (hsim.symm.trans hσ)
    have hsame : d = d₀ := congrArg File.delivery (hmove.terminal_fixed ht)
    rw [hsame]
    exact ht

theorem ended_of_backlog (h : totalBacklog (readGauges σ db) = 0) : Ended σ db := by
  intro d hd hσ
  by_contra hactive
  have hon : d.state.active := by simpa [DeliveryState.terminal] using hactive
  have hempty := List.map_eq_nil_iff.mp (eq_nil_of_groupCount h)
  exact List.filter_eq_nil_iff.mp hempty d hd (by simp [hσ, hon])

theorem step_rows (hi : Invariant cfg s) (h : Step cfg s a t) : ∀ sim ∈ t.db.simulations,
    sim.status = .running → sim ∈ s.db.simulations := by
  obtain ⟨hen, rfl⟩ := h
  cases a with
  | statement =>
    rcases statement_cases cfg s with ⟨i, write, k, hc⟩ | hn
    · rw [next_statement hc]
      have hw := (statement_write hi.pass trivial hc).1
      dsimp only
      generalize write s.db = u at hw
      intro sim hsim hrun
      cases hw with
      | frame _ _ _ _ hsims =>
        rcases hsims with he | he
        · rwa [he] at hsim
        · rw [he] at hsim
          obtain ⟨x, hx, rfl⟩ := List.mem_map.mp hsim
          by_cases hid : x.id = i.simulationId
          · rw [if_pos hid] at hrun
            cases hrun
          · rwa [if_neg hid]
      | reclaim => exact hsim
      | drop => exact hsim
      | ready => exact hsim
    · rw [hn]
      exact fun _ h _ => h
  | ingest | claim | complete | abandon | beginPass | endPass => exact fun _ h _ => h

end Deliveries

section Runs

variable {ρ : Type} {gen : Random ρ} {pcfg : ProducerSettings} {cfg : Settings}
  {sims : List Simulation} {σ : SimulationId} {s t : State} {e : Event ρ}

structure Quiet (sims : List Simulation) (σ : SimulationId) (s : State) : Prop where
  ended : Ended σ s.pipe.db
  committed : ∀ t ∈ s.ticks, t.simulationId = σ → ¬ Owes s.pipe.db.cast t
  silent : ∀ sim ∈ sims, sim.id = σ → sim.status = .running →
    isProducing (nowAt (fromRow sim) s.wall) = false

/-- Where a pass over the simulation stands: before its gauges, or past them with a run that is
over, that goes on, or that is retired by the backstop. -/
inductive Stage (cfg : Settings) (sims : List Simulation) (σ : SimulationId) (s : State)
    (i : PassInput) (p : Program Db Unit) : Prop where
  | begun (h : p = pass cfg i)
  | measuring (h : p = measure cfg i)
  | quiet (h : Quiet sims σ s)
  | going (h : p.Writes fun u v => v.simulations = u.simulations)
  | backstop (h : SCENARIO_MAX_VIRTUAL_S ≤ i.elapsed)

structure Watched (cfg : Settings) (sims : List Simulation) (σ : SimulationId) (s : State) :
    Prop where
  pipe : (DeliveryPipeline.system cfg).Reachable s.pipe
  unique : (sims.map Simulation.id).Nodup
  speed : ∀ sim ∈ sims, 0 < sim.speedMultiplier
  rows : ∀ sim ∈ s.pipe.db.simulations, sim.status = .running → sim ∈ sims
  read : ∀ i p, s.pipe.conductor = some (i, p) → i.simulationId = σ → ∀ sim ∈ sims, sim.id = σ →
    i.elapsed ≤ nowAt (fromRow sim) s.wall
  stage : ∀ i p, s.pipe.conductor = some (i, p) → i.simulationId = σ → Stage cfg sims σ s i p
  drained : s.drained → Quiet sims σ s

theorem producing_anti {x y : ℚ} (h : x ≤ y) (hx : isProducing x = false) :
    isProducing y = false := by
  simp only [isProducing, decide_eq_false_iff_not, not_lt] at hx ⊢
  exact hx.trans h

theorem draws_producing {sim : Simulation} {wall : ℚ} {st : SimulationState ρ}
    {specs : List EventSpec} (h : draws gen pcfg sim wall st = some specs) :
    sim.status = .running ∧ isProducing (nowAt (fromRow sim) wall) = true := by
  unfold draws at h
  split at h
  · rename_i he
    simpa [emits] using he
  · cases h

theorem next_draw (gen : Random ρ) (pcfg : ProducerSettings) (cfg : Settings) (σ : SimulationId)
    (s : State) (sim : Simulation) (st : SimulationState ρ) :
    next gen pcfg cfg σ s (.draw sim st) = s ∨ ∃ specs,
      draws gen pcfg sim s.wall st = some specs ∧ next gen pcfg cfg σ s (.draw sim st) =
        { s with ticks := s.ticks ++ [⟨sim.id, nowAt (fromRow sim) s.wall, specs⟩] } := by
  cases hd : draws gen pcfg sim s.wall st with
  | none => exact Or.inl (by simp only [next, hd])
  | some specs => exact Or.inr ⟨specs, rfl, by simp only [next, hd]⟩

theorem next_commit (gen : Random ρ) (pcfg : ProducerSettings) (cfg : Settings)
    (σ : SimulationId) (s : State) (k : ℕ) :
    next gen pcfg cfg σ s (.commit k) = s ∨ ∃ tick ∈ s.ticks, next gen pcfg cfg σ s (.commit k) =
      { s with
        pipe := DeliveryPipeline.next cfg s.pipe (.ingest tick.simulationId tick.now tick.specs)
        ticks := s.ticks.eraseIdx k } := by
  cases hk : s.ticks[k]? with
  | none => exact Or.inl (by simp only [next, hk])
  | some tick => exact Or.inr ⟨tick, List.mem_of_getElem? hk, by simp only [next, hk]⟩

theorem pipe_cast (hr : (DeliveryPipeline.system cfg).Reachable s.pipe) {a : Action}
    (ha : DeliveryPipeline.Enabled s.pipe a) :
    (DeliveryPipeline.next cfg s.pipe a).db.cast = s.pipe.db.cast :=
  (step_effect (reachable_invariant hr) ⟨ha, rfl⟩).cast

theorem step_quiet (hw : Watched cfg sims σ s) (hq : Quiet sims σ s) (he : Enabled sims σ s e) :
    Quiet sims σ (next gen pcfg cfg σ s e) := by
  cases e with
  | elapse d =>
    refine ⟨hq.ended, hq.committed, fun sim hm hid hrun => ?_⟩
    refine producing_anti (nowAt_mono (c := fromRow sim) (hw.speed sim hm) ?_)
      (hq.silent sim hm hid hrun)
    exact le_add_of_nonneg_right he
  | draw sim st =>
    rcases next_draw gen pcfg cfg σ s sim st with hn | ⟨specs, hd, hn⟩
    · rw [hn]
      exact hq
    · rw [hn]
      obtain ⟨hrun, hprod⟩ := draws_producing hd
      refine ⟨hq.ended, fun tick ht hid => ?_, hq.silent⟩
      rcases List.mem_append.mp ht with ht | ht
      · exact hq.committed tick ht hid
      · rw [List.mem_singleton.mp ht] at hid
        rw [hq.silent sim he hid hrun] at hprod
        cases hprod
  | commit k =>
    rcases next_commit gen pcfg cfg σ s k with
      hn | ⟨tick, htick, hn⟩
    · rw [hn]
      exact hq
    · rw [hn]
      refine ⟨hq.ended.ingest fun hid => hq.committed tick htick hid, fun u hu hid => ?_, hq.silent⟩
      exact hq.committed u (List.mem_of_mem_eraseIdx hu) hid
  | rollback k =>
    exact ⟨hq.ended, fun u hu hid => hq.committed u (List.mem_of_mem_eraseIdx hu) hid, hq.silent⟩
  | pipeline a =>
    obtain ⟨ha, hreg⟩ := he
    have hi := reachable_invariant hw.pipe
    refine ⟨hq.ended.step hi ⟨ha, rfl⟩ ?_, fun u hu hid => ?_, hq.silent⟩
    · rintro i now specs rfl
      exact hreg
    · change ¬ Owes (DeliveryPipeline.next cfg s.pipe a).db.cast u
      rw [pipe_cast hw.pipe ha]
      exact hq.committed u hu hid

theorem Stage.keep {i : PassInput} {p : Program Db Unit} (h : Stage cfg sims σ s i p)
    (hq : Quiet sims σ s → Quiet sims σ t) : Stage cfg sims σ t i p := by
  cases h with
  | begun h => exact .begun h
  | measuring h => exact .measuring h
  | quiet h => exact .quiet (hq h)
  | going h => exact .going h
  | backstop h => exact .backstop h

/-- What the gauges tell decides between the stages past them. -/
theorem measured_stage {i : PassInput} {gauges : Gauges}
    (h : isProducing i.elapsed = false → totalBacklog gauges = 0 → Quiet sims σ s) :
    Stage cfg sims σ s i (measured cfg i gauges) := by
  cases hf : isFinished i.elapsed (totalBacklog gauges) with
  | false => exact .going (measured_simulations hf)
  | true =>
    unfold isFinished at hf
    split at hf
    · rename_i hmax
      exact .backstop hmax
    · rw [Bool.and_eq_true, Bool.not_eq_true', beq_iff_eq] at hf
      exact .quiet (h hf.1 hf.2)

/-- The pass's clock has read past the end, so no later tick reads before it. -/
theorem quiet_of_zero (hw : Watched cfg sims σ s) {i : PassInput} {p : Program Db Unit}
    (hc : s.pipe.conductor = some (i, p)) (hi : i.simulationId = σ)
    (hp : isProducing i.elapsed = false) (hz : totalBacklog (readGauges σ s.pipe.db) = 0)
    (ht : ∀ t ∈ s.ticks, t.simulationId = σ → ¬ Owes s.pipe.db.cast t) : Quiet sims σ s :=
  ⟨ended_of_backlog hz, ht, fun sim hm hid _ => producing_anti (hw.read i p hc hi sim hm hid) hp⟩

/-- One statement of a pass over the simulation: only a retirement touches the row, and it is of a
run that is over, or by the backstop. -/
theorem statement_stage (hw : Watched cfg sims σ s) (hs : Settled (ρ := ρ) cfg σ s
    (.pipeline .statement)) {i : PassInput} {p : Program Db Unit}
    (hc : s.pipe.conductor = some (i, p)) (hi : i.simulationId = σ)
    (ht : t = next gen pcfg cfg σ s (.pipeline .statement)) :
    ∃ p', t.pipe.conductor = some (i, p') ∧ Stage cfg sims σ t i p' ∧
      (t.pipe.db.simulations = s.pipe.db.simulations ∨ Quiet sims σ t ∨
        SCENARIO_MAX_VIRTUAL_S ≤ i.elapsed) := by
  have hquiet : Quiet sims σ s → Quiet sims σ t := by
    intro h
    rw [ht]
    exact step_quiet hw h ⟨trivial, trivial⟩
  have hpipe : t.pipe = DeliveryPipeline.next cfg s.pipe .statement := by rw [ht]; rfl
  cases hw.stage i p hc hi with
  | begun h =>
    subst h
    rw [hpipe, next_statement (k := fun _ => measure cfg i) hc]
    exact ⟨_, rfl, .measuring rfl, Or.inl rfl⟩
  | measuring h =>
    subst h
    rw [hpipe, next_statement (k := fun db => measured cfg i (readGauges i.simulationId db)) hc]
    refine ⟨_, rfl, measured_stage fun hp hz => hquiet ?_, Or.inl rfl⟩
    rw [hi] at hz
    exact quiet_of_zero hw hc hi hp hz (hs i hc hi hp hz)
  | quiet h =>
    rcases statement_cases cfg s.pipe with ⟨j, write, k, hj⟩ | hn
    · obtain ⟨rfl, rfl⟩ := Prod.mk.inj (Option.some.inj (hc.symm.trans hj))
      exact ⟨k s.pipe.db, by rw [hpipe, next_statement hj], .quiet (hquiet h),
        Or.inr (Or.inl (hquiet h))⟩
    · exact ⟨p, by rw [hpipe, hn, hc], .quiet (hquiet h), Or.inr (Or.inl (hquiet h))⟩
  | going h =>
    rcases statement_cases cfg s.pipe with ⟨j, write, k, hj⟩ | hn
    · obtain ⟨rfl, rfl⟩ := Prod.mk.inj (Option.some.inj (hc.symm.trans hj))
      rw [hpipe, next_statement hj]
      exact ⟨_, rfl, .going (h s.pipe.db).2, Or.inl (h s.pipe.db).1⟩
    · rw [hpipe, hn]
      exact ⟨p, hc, .going h, Or.inl rfl⟩
  | backstop h =>
    rcases statement_cases cfg s.pipe with ⟨j, write, k, hj⟩ | hn
    · obtain ⟨rfl, rfl⟩ := Prod.mk.inj (Option.some.inj (hc.symm.trans hj))
      exact ⟨k s.pipe.db, by rw [hpipe, next_statement hj], .backstop h, Or.inr (Or.inr h)⟩
    · exact ⟨p, by rw [hpipe, hn, hc], .backstop h, Or.inr (Or.inr h)⟩

theorem watched_of_kept (hw : Watched cfg sims σ s) (he : Enabled sims σ s e)
    (ht : t = next gen pcfg cfg σ s e) (hp : (DeliveryPipeline.system cfg).Reachable t.pipe)
    (hr : ∀ sim ∈ t.pipe.db.simulations, sim.status = .running → sim ∈ s.pipe.db.simulations)
    (hc : t.pipe.conductor = s.pipe.conductor) (hwall : s.wall ≤ t.wall)
    (hd : t.drained = s.drained) : Watched cfg sims σ t := by
  have hquiet : Quiet sims σ s → Quiet sims σ t := by
    intro h
    rw [ht]
    exact step_quiet hw h he
  refine ⟨hp, hw.unique, hw.speed, fun sim hm hrun => hw.rows sim (hr sim hm hrun) hrun, ?_, ?_, ?_⟩
  · intro i p hip hi sim hm hid
    exact (hw.read i p (hc ▸ hip) hi sim hm hid).trans (nowAt_mono (c := fromRow sim)
      (hw.speed sim hm) hwall)
  · intro i p hip hi
    exact (hw.stage i p (hc ▸ hip) hi).keep hquiet
  · intro h
    exact hquiet (hw.drained (hd ▸ h))

theorem statement_watched (hw : Watched cfg sims σ s)
    (hs : Settled (ρ := ρ) cfg σ s (.pipeline .statement)) :
    Watched cfg sims σ (next gen pcfg cfg σ s (.pipeline .statement)) := by
  have hstep : Step cfg s.pipe .statement (DeliveryPipeline.next cfg s.pipe .statement) :=
    ⟨trivial, rfl⟩
  have hrows := step_rows (reachable_invariant hw.pipe) hstep
  set t := next gen pcfg cfg σ s (.pipeline .statement) with ht
  -- the pass under way keeps its input
  have hinput : ∀ i p, t.pipe.conductor = some (i, p) → ∃ q, s.pipe.conductor = some (i, q) := by
    intro i p hip
    rcases statement_cases cfg s.pipe with ⟨j, write, k, hj⟩ | hn
    · have hpipe : t.pipe = DeliveryPipeline.next cfg s.pipe .statement := rfl
      rw [hpipe, next_statement hj] at hip
      obtain ⟨rfl, rfl⟩ := Prod.mk.inj (Option.some.inj hip)
      exact ⟨_, hj⟩
    · have hpipe : t.pipe = s.pipe := hn
      exact ⟨p, hpipe ▸ hip⟩
  refine ⟨hw.pipe.tail hstep, hw.unique, hw.speed,
    fun sim hm hrun => hw.rows sim (hrows sim hm hrun) hrun, ?_, ?_, ?_⟩
  · intro i p hip hi
    obtain ⟨q, hq⟩ := hinput i p hip
    exact hw.read i q hq hi
  · intro i p hip hi
    obtain ⟨q, hq⟩ := hinput i p hip
    obtain ⟨p', hp', hstage, -⟩ := statement_stage hw hs hq hi ht
    obtain ⟨-, rfl⟩ := Prod.mk.inj (Option.some.inj (hip.symm.trans hp'))
    exact hstage
  · intro hd
    have hd : (s.drained || retires cfg σ s.pipe .statement) = true := hd
    rcases Bool.or_eq_true_iff.mp hd with hd | hd
    · exact step_quiet hw (hw.drained hd) ⟨trivial, trivial⟩
    · unfold retires at hd
      cases hc : s.pipe.conductor with
      | none => simp [hc] at hd
      | some x =>
        obtain ⟨i, q⟩ := x
        simp only [hc, Bool.and_eq_true, beq_iff_eq, decide_eq_true_eq, bne_iff_ne] at hd
        obtain ⟨⟨hi, hmax⟩, hchanged⟩ := hd
        obtain ⟨-, -, -, hsame | hquiet | hback⟩ := statement_stage hw hs hc hi ht
        · exact absurd hsame hchanged
        · exact hquiet
        · exact absurd hmax (not_lt.mpr hback)

theorem begin_watched {i : PassInput} (hw : Watched cfg sims σ s)
    (he : Enabled (ρ := ρ) sims σ s (.pipeline (.beginPass i))) :
    Watched cfg sims σ (next gen pcfg cfg σ s (.pipeline (.beginPass i))) := by
  obtain ⟨hen, row, hrow, hid, hrun, hread⟩ := he
  have hquiet : Quiet sims σ s → Quiet sims σ (next gen pcfg cfg σ s (.pipeline (.beginPass i))) :=
    fun h => step_quiet hw h ⟨hen, row, hrow, hid, hrun, hread⟩
  refine ⟨hw.pipe.tail (e := .beginPass i) ⟨hen, rfl⟩, hw.unique, hw.speed, hw.rows, ?_, ?_, ?_⟩
  · intro j p hj hjσ sim hm hsim
    obtain ⟨rfl, -⟩ := Prod.mk.inj (Option.some.inj hj)
    -- there is one row of the simulation
    have hsame : sim = row := List.inj_on_of_nodup_map hw.unique hm (hw.rows row hrow hrun)
      (hsim.trans (hjσ.symm.trans hid.symm))
    rw [hsame, hread]
    exact le_rfl
  · intro j p hj _
    obtain ⟨rfl, rfl⟩ := Prod.mk.inj (Option.some.inj hj)
    exact .begun rfl
  · intro hd
    have hd : (s.drained || false) = true := hd
    rw [Bool.or_false] at hd
    exact hquiet (hw.drained hd)

theorem end_watched (hw : Watched cfg sims σ s) :
    Watched cfg sims σ (next gen pcfg cfg σ s (.pipeline .endPass)) := by
  refine ⟨hw.pipe.tail (e := .endPass) ⟨trivial, rfl⟩, hw.unique, hw.speed, hw.rows, ?_, ?_, ?_⟩
  · intro i p h
    cases h
  · intro i p h
    cases h
  · intro hd
    have hd : (s.drained || false) = true := hd
    rw [Bool.or_false] at hd
    exact step_quiet hw (hw.drained hd) ⟨trivial, trivial⟩

theorem step_watched (hw : Watched cfg sims σ s) (hs : Settled cfg σ s e)
    (he : Enabled sims σ s e) : Watched cfg sims σ (next gen pcfg cfg σ s e) := by
  cases e with
  | elapse d =>
    exact watched_of_kept hw he rfl hw.pipe (fun _ h _ => h) rfl (le_add_of_nonneg_right he) rfl
  | draw sim st =>
    rcases next_draw gen pcfg cfg σ s sim st with hn | ⟨specs, -, hn⟩
    · rw [hn]
      exact hw
    · exact watched_of_kept hw he rfl (hn ▸ hw.pipe) (hn ▸ fun _ h _ => h) (hn ▸ rfl)
        (hn ▸ le_rfl) (hn ▸ rfl)
  | commit k =>
    rcases next_commit gen pcfg cfg σ s k with
      hn | ⟨tick, -, hn⟩
    · rw [hn]
      exact hw
    · refine watched_of_kept hw he rfl ?_ (hn ▸ fun _ h _ => h) (hn ▸ rfl) (hn ▸ le_rfl) (hn ▸ rfl)
      rw [hn]
      exact hw.pipe.tail (e := .ingest tick.simulationId tick.now tick.specs) ⟨trivial, rfl⟩
  | rollback k => exact watched_of_kept hw he rfl hw.pipe (fun _ h _ => h) rfl le_rfl rfl
  | pipeline a =>
    have hp : (DeliveryPipeline.system cfg).Reachable (DeliveryPipeline.next cfg s.pipe a) :=
      hw.pipe.tail (e := a) ⟨he.1, rfl⟩
    cases a with
    | beginPass i => exact begin_watched hw he
    | statement => exact statement_watched hw hs
    | endPass => exact end_watched hw
    | ingest | claim | complete | abandon =>
      exact watched_of_kept hw he rfl hp (fun _ h _ => h) rfl le_rfl (Bool.or_false _)

theorem initial_watched (h : Initial sims s) : Watched cfg sims σ s := by
  obtain ⟨⟨cast, hp⟩, -, hd, hu, hspeed⟩ := h
  refine ⟨?_, hu, hspeed, ?_, ?_, ?_, ?_⟩
  · exact .initial ⟨cast, sims, hp⟩
  · intro sim hm _
    rw [hp] at hm
    exact hm
  · intro i p h
    rw [hp] at h
    cases h
  · intro i p h
    rw [hp] at h
    cases h
  · intro h
    rw [hd] at h
    cases h

theorem drained_kept (hd : s.drained) : (next gen pcfg cfg σ s e).drained := by
  cases e with
  | elapse d => exact hd
  | draw sim st =>
    rcases next_draw gen pcfg cfg σ s sim st with hn | ⟨specs, -, hn⟩ <;> · rw [hn]; exact hd
  | commit k =>
    rcases next_commit gen pcfg cfg σ s k with
      hn | ⟨tick, -, hn⟩ <;> · rw [hn]; exact hd
  | rollback k => exact hd
  | pipeline a => exact Bool.or_eq_true_iff.mpr (Or.inl hd)

theorem reachable_watched (h : (settled gen pcfg cfg sims σ).Reachable s) :
    Watched cfg sims σ s := by
  refine h.invariant (P := Watched cfg sims σ) (fun _ h => initial_watched h) ?_
  rintro s e t - hw ⟨hs, he, rfl⟩
  exact step_watched hw hs he

/-- Once a pass has retired the run on an empty backlog, every delivery of it is at an end in
every later state, if no tick had deliveries drawn and uncommitted when the zero was read. -/
theorem retired_run_ended (h : (settled gen pcfg cfg sims σ).Reachable s) (hd : s.drained) :
    ∀ t, (settled gen pcfg cfg sims σ).Execution s t →
      ∀ d ∈ t.pipe.db.deliveries.rows, d.simulationId = σ → d.state.terminal := by
  intro t ht
  have kept : t.drained := by
    induction ht with
    | refl => exact hd
    | tail _ hstep ih =>
      obtain ⟨e, -, -, rfl⟩ := hstep
      exact drained_kept ih
  exact ((reachable_watched (h.trans ht)).drained kept).ended

end Runs

section Ends

def payee : Cast where
  consumers := [{
    id := 1
    simulationId := 7
    weight := 1
    concurrencyCap := 4
    maxAttemptsPerS := 10 }]
  subscriptions := [⟨7, 1, "payment_intent.succeeded"⟩]
  policies := [⟨7, 1, "payment_intent.succeeded", none, .none⟩]
  consumer_key := List.nodup_singleton _
  subscription_key := List.nodup_singleton _
  policy_key := List.nodup_singleton _
  knobs_positive := by simp
  staleness_positive := by simp

def row : Simulation where
  id := 7
  status := .running
  virtualEpoch := 0
  resumedAtWall := 0
  pausedAtVirtual := none
  speedMultiplier := 20
  fairDrainEnabled := true
  globalAttemptsPerS := 30
  outageOverride := none

def halfway : Random Unit where
  seed _ := ()
  random _ := (1 / 2, ())
  randrange n _ := (n / 2, ())
  uniform a b _ := ((a + b) / 2, ())

def opening : State := ⟨DeliveryPipeline.initial payee [row], 0, [], false⟩

theorem opening_initial : Initial [row] opening :=
  ⟨⟨payee, rfl⟩, rfl, rfl, by decide, by simp [row]⟩

def tickAt (now : ℚ) : Event Unit := .draw row ⟨(), some (now - 1), 0⟩

def passWhole (now : ℚ) : List (Event Unit) :=
  .pipeline (.beginPass
    ⟨7, now, now, true, 30, none, some (⌊now⌋ - 3), fun _ => false, .physical⟩) ::
    List.replicate 20 (.pipeline .statement) ++ [.pipeline .endPass]

def drainedRun : List (Event Unit) :=
  [.elapse (85 / 2), tickAt 850, .commit 0] ++ passWhole 850 ++
    [.pipeline (.claim 3 7 850 (fun _ => false) .physical),
      .pipeline (.complete 3 [⟨.ok, some 200⟩] 850), .elapse (51 / 20)] ++ passWhole 901

def Idle (s : State) : Event Unit → Prop
  | .pipeline .statement => s.ticks.isEmpty
  | _ => True

instance (s : State) : DecidablePred (Idle s)
  | .pipeline .statement => inferInstanceAs (Decidable (s.ticks.isEmpty = true))
  | .elapse _ | .draw .. | .commit _ | .rollback _ | .pipeline (.ingest ..)
  | .pipeline (.claim ..) | .pipeline (.complete ..) | .pipeline (.abandon _)
  | .pipeline (.beginPass _) | .pipeline .endPass => inferInstanceAs (Decidable True)

theorem settled_of_idle {s : State} {e : Event Unit} (h : Idle s e) : Settled shipped 7 s e := by
  unfold Settled
  split
  · intro i _ _ _ _ t ht
    have hempty : s.ticks.isEmpty = true := h
    rw [List.isEmpty_iff.mp hempty] at ht
    cases ht
  · trivial

theorem retired_run_ended_drained : ∃ s, (settled halfway {} shipped [row] 7).Reachable s ∧
    s.drained ∧ (s.pipe.db.deliveries.rows.map Delivery.state) = [.delivered] ∧
    ∀ d ∈ s.pipe.db.deliveries.rows, d.simulationId = 7 → d.state.terminal := by
  have hstate : (runList (fun s e => Idle s e ∧ Enabled [row] 7 s e) (next halfway {} shipped 7)
      opening drainedRun).map (fun s => (s.drained, s.pipe.db.deliveries.rows.map Delivery.state)) =
        some (true, [.delivered]) := by decide +kernel
  obtain ⟨s, hs, hst⟩ := Option.map_eq_some_iff.mp hstate
  obtain ⟨hd, hrows⟩ := Prod.mk.inj hst
  have hr : (settled halfway {} shipped [row] 7).Reachable s :=
    System.Reachable.weaken ⟨opening, opening_initial, runList_restricted (Initial [row]) _ _ hs⟩
      fun _ _ => settled_of_idle
  exact ⟨s, hr, hd, hrows, retired_run_ended hr hd s .refl⟩

/-- The tick reads its clock before the end, and commits after the pass that reads it after. -/
def overtakenTick : List (Event Unit) :=
  [.elapse (1799 / 40), tickAt (1799 / 2), .elapse (1 / 20)] ++ passWhole (1801 / 2) ++ [.commit 0]

theorem overtaken_tick_strands : ¬ ∀ s, (system halfway {} shipped [row] 7).Reachable s →
    s.drained → ∀ d ∈ s.pipe.db.deliveries.rows, d.simulationId = 7 → d.state.terminal := by
  have hstate : (runList (Enabled [row] 7) (next halfway {} shipped 7) opening overtakenTick).map
      (fun s => (s.drained, s.pipe.db.deliveries.rows.map fun d => (d.simulationId, d.state))) =
        some (true, [(7, .pending)]) := by decide +kernel
  obtain ⟨s, hs, hst⟩ := Option.map_eq_some_iff.mp hstate
  obtain ⟨hd, hrows⟩ := Prod.mk.inj hst
  intro h
  have hmem : (7, DeliveryState.pending) ∈
      s.pipe.db.deliveries.rows.map fun d => (d.simulationId, d.state) := by
    rw [hrows]
    exact List.mem_singleton_self _
  obtain ⟨d, hm, hpair⟩ := List.mem_map.mp hmem
  obtain ⟨hsim, hpending⟩ := Prod.mk.inj hpair
  have hterminal := h s ⟨opening, opening_initial, runList_execution _ _ _ hs⟩ hd d hm hsim
  rw [hpending] at hterminal
  cases hterminal

end Ends

end RetirementRace
