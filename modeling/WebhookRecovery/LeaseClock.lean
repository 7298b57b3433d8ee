import WebhookRecovery.PipelineInvariant
import WebhookRecovery.ClockControl

/-! Leases and the clock they are stamped and judged by. A worker builds its clock from a row read
when its iteration began, the conductor from a row read when its iteration began, and requests
rewrite the row at any time. -/
namespace LeaseClock

open KeyedTables RecoverySchema InterleavedPrograms WorkerClaim LeaseReaper ConductorPass
open DeliveryPipeline (Action)
open DeliveryPolicy DeliveryAdmission QueueUsage PassGuarantee DeliveryFile VirtualClock
open ClockControl

/-- `ahead` are the rows that a worker has read and not drained yet, `passes` those that the
conductor has read and not passed over. What the row's clock read when an attempt started is
recorded on the side. -/
structure State where
  pipeline : DeliveryPipeline.State
  wall : ℚ
  ahead : WorkerId → List Simulation
  passes : List Simulation
  claimedAt : ℕ → Option ℚ

inductive Event where
  | tick (d : ℚ)
  | patch (id : SimulationId) (body : SimulationPatch)
  | ingest (id : SimulationId) (now : ℚ) (specs : List EventIngest.EventSpec)
  | readRows (w : WorkerId)
  | claim (w : WorkerId) (locked : ℕ → Bool) (scan : ScanOrder)
  | complete (w : WorkerId) (results : List AttemptResult)
  | abandon (w : WorkerId)
  | readPasses
  | beginPass (lastWritten : Option ℤ) (locked : ℕ → Bool) (scan : ScanOrder)
  | statement
  | endPass

def State.db (s : State) : Db := s.pipeline.db

def State.running (s : State) : List Simulation :=
  s.db.simulations.filter fun sim => sim.status = .running

def State.row (s : State) (id : SimulationId) : Option Simulation :=
  s.db.simulations.find? fun sim => sim.id == id

def State.reading (s : State) (id : SimulationId) : Option ℚ :=
  (s.row id).map fun sim => nowAt (fromRow sim) s.wall

def passInput (row : Simulation) (wall : ℚ) (lastWritten : Option ℤ) (locked : ℕ → Bool)
    (scan : ScanOrder) : PassInput where
  simulationId := row.id
  now := nowAt (fromRow row) wall
  elapsed := nowAt (fromRow row) wall - VIRTUAL_EPOCH_ZERO
  fairDrainEnabled := row.fairDrainEnabled
  globalAttemptsPerS := row.globalAttemptsPerS
  outageOverride := row.outageOverride
  lastWritten := lastWritten
  locked := locked
  scan := scan

def actionOf (s : State) : Event → Option Action
  | .ingest id now specs => some (.ingest id now specs)
  | .claim w locked scan => (s.ahead w).head?.map fun row =>
    .claim w row.id (nowAt (fromRow row) s.wall) locked scan
  | .complete w results => (s.ahead w).head?.map fun row =>
    .complete w results (nowAt (fromRow row) s.wall)
  | .abandon w => some (.abandon w)
  | .beginPass lastWritten locked scan => s.passes.head?.map fun row =>
    .beginPass (passInput row s.wall lastWritten locked scan)
  | .statement => some .statement
  | .endPass => some .endPass
  | .tick _ | .patch .. | .readRows _ | .readPasses => none

/-- Requests switch a simulation between running and paused, and change its speed. -/
def Enabled (s : State) : Event → Prop
  | .tick d => 0 ≤ d
  | .patch id body => body.status ≠ some .done ∧
    ∀ sim ∈ s.db.simulations, sim.id = id → sim.status ≠ .done
  | .readRows w => (s.pipeline.batches w).isNone
  | .readPasses => s.pipeline.conductor.isNone
  | e => ∃ a ∈ actionOf s e, DeliveryPipeline.Enabled s.pipeline a

instance (s : State) : DecidablePred (Enabled s)
  | .tick d => inferInstanceAs (Decidable (0 ≤ d))
  | .patch id body => inferInstanceAs (Decidable (body.status ≠ some .done ∧
    ∀ sim ∈ s.db.simulations, sim.id = id → sim.status ≠ .done))
  | .readRows w => inferInstanceAs (Decidable ((s.pipeline.batches w).isNone = true))
  | .readPasses => inferInstanceAs (Decidable (s.pipeline.conductor.isNone = true))
  | .ingest id now specs => acts (.ingest id now specs)
  | .claim w locked scan => acts (.claim w locked scan)
  | .complete w results => acts (.complete w results)
  | .abandon w => acts (.abandon w)
  | .beginPass last locked scan => acts (.beginPass last locked scan)
  | .statement => acts .statement
  | .endPass => acts .endPass
where
  acts (e : Event) : Decidable (∃ a ∈ actionOf s e, DeliveryPipeline.Enabled s.pipeline a) :=
    inferInstance

def patched (body : SimulationPatch) (wall : ℚ) (sim : Simulation) : Simulation :=
  match patchSimulation body wall sim with
  | .ok sim' => sim'
  | .error _ => sim

def patchRows (id : SimulationId) (body : SimulationPatch) (wall : ℚ) (db : Db) : Db :=
  let rewrite (sim : Simulation) := if sim.id = id then patched body wall sim else sim
  { db with simulations := db.simulations.map rewrite }

def State.act (cfg : Settings) (s : State) (e : Event) : DeliveryPipeline.State :=
  match actionOf s e with
  | some a => DeliveryPipeline.next cfg s.pipeline a
  | none => s.pipeline

/-- An iteration goes on to its next row when a batch is completed or there was none to claim. -/
def next (cfg : Settings) (s : State) : Event → State
  | .tick d => { s with wall := s.wall + d }
  | .patch id body =>
    { s with pipeline := { s.pipeline with db := patchRows id body s.wall s.db } }
  | .readRows w => { s with ahead := Function.update s.ahead w s.running }
  | .claim w locked scan =>
    let pipeline := s.act cfg (.claim w locked scan)
    let rest := if (pipeline.batches w).isSome then s.ahead w else (s.ahead w).tail
    { s with
      pipeline := pipeline
      ahead := Function.update s.ahead w rest
      claimedAt := fun i => if i < s.db.attempts.next then s.claimedAt i
        else (s.ahead w).head?.bind fun row => s.reading row.id }
  | .complete w results =>
    { s with
      pipeline := s.act cfg (.complete w results)
      ahead := Function.update s.ahead w (s.ahead w).tail }
  | .abandon w =>
    { s with pipeline := s.act cfg (.abandon w), ahead := Function.update s.ahead w [] }
  | .readPasses => { s with passes := s.running }
  | .beginPass lastWritten locked scan =>
    { s with
      pipeline := s.act cfg (.beginPass lastWritten locked scan)
      passes := s.passes.tail }
  | .ingest id now specs => { s with pipeline := s.act cfg (.ingest id now specs) }
  | .statement => { s with pipeline := s.act cfg .statement }
  | .endPass => { s with pipeline := s.act cfg .endPass }

def Initial (cfg : Settings) (s : State) : Prop :=
  ∃ cast simulations, s.pipeline = DeliveryPipeline.initial cast simulations ∧
    s.ahead = (fun _ => []) ∧ s.passes = [] ∧
    ∀ sim ∈ simulations, ∃ id body atWall, createSimulation cfg id body atWall = .ok sim

def system (cfg : Settings) : System State Event := .guarded (Initial cfg) Enabled (next cfg)

/-- At that instant a worker stamps leases by a clock that is not behind the row's; and one that the
pass under way would take to have run out already, only once the row's clock has come to the
instant of the pass. -/
def StampsTimely (cfg : Settings) (s : State) (σ : SimulationId) (now : ℚ) : Prop :=
  ∀ r ∈ s.reading σ, r ≤ now ∧ ∀ pass ∈ s.pipeline.conductor, pass.1.simulationId = σ →
    now + cfg.leaseDurationVirtualS < pass.1.now → pass.1.now ≤ r

/-- A claim that takes something stamps it in time, and a pass that finds a lease run out judges by
a clock that is not ahead of the row's. -/
def Timely (cfg : Settings) (s : State) : Event → Prop
  | .claim w locked scan => ∀ row ∈ (s.ahead w).head?,
    liveRows scan locked row.id (nowAt (fromRow row) s.wall) cfg.workerBatchSize s.db ≠ [] →
      StampsTimely cfg s row.id (nowAt (fromRow row) s.wall)
  | .beginPass _ locked _ => ∀ row ∈ s.passes.head?,
    expiredLeases row.id (nowAt (fromRow row) s.wall) locked s.db ≠ [] →
      ∀ r ∈ s.reading row.id, nowAt (fromRow row) s.wall ≤ r
  | _ => True

instance (cfg : Settings) (s : State) (σ : SimulationId) (now : ℚ) :
    Decidable (StampsTimely cfg s σ now) :=
  inferInstanceAs (Decidable (∀ r ∈ s.reading σ, r ≤ now ∧ ∀ pass ∈ s.pipeline.conductor,
    pass.1.simulationId = σ → now + cfg.leaseDurationVirtualS < pass.1.now → pass.1.now ≤ r))

instance (cfg : Settings) (s : State) : DecidablePred (Timely cfg s)
  | .claim w locked scan => inferInstanceAs (Decidable (∀ row ∈ (s.ahead w).head?,
    liveRows scan locked row.id (nowAt (fromRow row) s.wall) cfg.workerBatchSize s.db ≠ [] →
      StampsTimely cfg s row.id (nowAt (fromRow row) s.wall)))
  | .beginPass _ locked _ => inferInstanceAs (Decidable (∀ row ∈ s.passes.head?,
    expiredLeases row.id (nowAt (fromRow row) s.wall) locked s.db ≠ [] →
      ∀ r ∈ s.reading row.id, nowAt (fromRow row) s.wall ≤ r))
  | .tick _ | .patch .. | .ingest .. | .readRows _ | .complete .. | .abandon _ | .readPasses
  | .statement | .endPass => inferInstanceAs (Decidable True)

def timely (cfg : Settings) : System State Event := (system cfg).restrict (Timely cfg)

structure Invariant (cfg : Settings) (s : State) : Prop where
  pipeline : PipelineInvariant.Invariant cfg s.pipeline
  speeds : ∀ sim ∈ s.db.simulations, 0 < sim.speedMultiplier
  ahead : ∀ w, ∀ sim ∈ s.ahead w, (s.row sim.id).isSome
  passes : ∀ sim ∈ s.passes, (s.row sim.id).isSome

/-- What timely runs add: no attempt was stamped early, and the pass under way takes no lease to
have run out before the row's clock has come to its instant. -/
structure Lasting (s : State) : Prop where
  stamped : ∀ a ∈ s.db.attempts.rows, ∃ c, s.claimedAt a.id = some c ∧ c ≤ a.startedAt
  judged : ∀ i prog, s.pipeline.conductor = some (i, prog) →
    expiredLeases i.simulationId i.now i.locked s.db ≠ [] →
      ∃ r, s.reading i.simulationId = some r ∧ i.now ≤ r

/-- A step rewrites each row in its place, and moves its reading forward unless it is retired at
the instant of the pass. -/
structure Rewrites (s : State) (e : Event) (t : State) (f : Simulation → Simulation) : Prop where
  rows : t.db.simulations = s.db.simulations.map f
  id : ∀ sim, (f sim).id = sim.id
  speed : ∀ sim ∈ s.db.simulations, 0 < (f sim).speedMultiplier
  reading : ∀ sim ∈ s.db.simulations,
    nowAt (fromRow sim) s.wall ≤ nowAt (fromRow (f sim)) t.wall ∨
      ∃ i prog, s.pipeline.conductor = some (i, prog) ∧ e = .statement ∧
        nowAt (fromRow (f sim)) t.wall = i.now

section Rows

variable {body : SimulationPatch} {sim : Simulation} {u : ℚ}

theorem patched_id : (patched body u sim).id = sim.id := by
  unfold patched
  split
  · rename_i sim' h
    simp only [patchSimulation, bind, Except.bind] at h
    split at h
    · cases h
    · split at h
      · cases h
      · rw [← Except.ok.inj h]
        rfl
  · rfl

theorem patched_spec (h : 0 < sim.speedMultiplier) (hlive : sim.status ≠ .done) :
    0 < (patched body u sim).speedMultiplier ∧
      nowAt (fromRow (patched body u sim)) u = nowAt (fromRow sim) u := by
  obtain ⟨sim', hok, hpos, hiff⟩ := patch_spec h body u
  unfold patched
  rw [hok]
  exact ⟨hpos, hiff.mpr (not_jumps_of_live hlive)⟩

variable {s t : State} {f : Simulation → Simulation} {id : SimulationId}

theorem row_map (h : t.db.simulations = s.db.simulations.map f) (hid : ∀ sim, (f sim).id = sim.id) :
    t.row id = (s.row id).map f := by
  unfold State.row
  rw [h, List.find?_map]
  congr 2
  funext sim
  simp only [Function.comp_apply, hid]

theorem mem_row (h : s.row id = some sim) : sim ∈ s.db.simulations ∧ sim.id = id := by
  refine ⟨List.mem_of_find?_eq_some h, ?_⟩
  simpa using List.find?_some h

theorem row_isSome (h : sim ∈ s.db.simulations) : (s.row sim.id).isSome :=
  List.find?_isSome.mpr ⟨sim, h, beq_self_eq_true _⟩

end Rows

section Pipeline

variable {cfg : Settings} {p q : DeliveryPipeline.State} {a : Action}

theorem resimulated (h : PipelineInvariant.Invariant cfg p) (l : List Simulation) :
    PipelineInvariant.Invariant cfg { p with db := { p.db with simulations := l } } := by
  refine ⟨h.files, h.owned, ?_, ?_⟩
  · intro w batch hb
    obtain ⟨hd, ha, hr⟩ := h.batches w batch hb
    exact ⟨hd, ha, hr⟩
  · intro i prog hc
    have hsame : Rely (fun _ => True) p.db { p.db with simulations := l } :=
      ⟨⟨rfl, fun _ hd _ => hd, fun _ => le_rfl, fun _ _ => le_rfl⟩, trivial⟩
    exact Program.Guarantees.rely (fun _ _ _ h k => h.trans k) (fun _ _ _ _ _ => trivial)
      (h.pass i prog hc) hsame

/-- The only statement that touches a simulation row is the retirement of the pass's own. -/
theorem pipeline_simulations (h : PipelineInvariant.Invariant cfg p)
    (hs : DeliveryPipeline.Step cfg p a q) : q.db.simulations = p.db.simulations ∨
      ∃ i prog, p.conductor = some (i, prog) ∧ a = .statement ∧
        q.db.simulations = (retire i.simulationId i.now p.db).simulations := by
  obtain ⟨hen, rfl⟩ := hs
  cases a with
  | statement =>
    rcases PipelineInvariant.statement_cases cfg p with ⟨i, write, k, hc⟩ | hn
    · have hw := (PipelineInvariant.statement_write h.pass trivial hc).1
      rw [PipelineInvariant.next_statement hc]
      generalize write p.db = db at hw
      cases hw with
      | frame _ _ _ _ hsim =>
        rcases hsim with hsim | hsim
        · exact Or.inl hsim
        · exact Or.inr ⟨i, _, hc, rfl, hsim⟩
      | reclaim => exact Or.inl rfl
      | drop => exact Or.inl rfl
      | ready => exact Or.inl rfl
    · exact Or.inl (by rw [hn])
  | ingest => exact Or.inl rfl
  | claim => exact Or.inl rfl
  | complete => exact Or.inl rfl
  | abandon => exact Or.inl rfl
  | beginPass => exact Or.inl rfl
  | endPass => exact Or.inl rfl

theorem pipeline_attempts (h : PipelineInvariant.Invariant cfg p)
    (hs : DeliveryPipeline.Step cfg p a q) (ha : PipelineInvariant.startOf a = none) :
    ∀ x ∈ q.db.attempts.rows, ∃ y ∈ p.db.attempts.rows,
      y.id = x.id ∧ y.startedAt = x.startedAt := by
  obtain ⟨g, more, hg, hkept, hmore⟩ := (PipelineInvariant.step_effect h hs).attempts
  intro x hx
  rw [hg] at hx
  rcases List.mem_append.mp hx with hx | hx
  · obtain ⟨y, hy, rfl⟩ := List.mem_map.mp hx
    exact ⟨y, hy, (hkept y).id.symm, (hkept y).started.symm⟩
  · have hstart := (hmore x hx).1
    rw [ha] at hstart
    cases hstart

/-- Of the writes of a pass only the sweep ends a lease, and one that has run out. -/
theorem reclaimed_expired {F : Db → Prop} {i : PassInput} {u v : Db}
    (h : ConductorWrite cfg F i u v) {d : Delivery} (hd : d ∈ u.deliveries.rows)
    (hin : d.state = .inFlight) (hgone : d ∉ v.deliveries.rows) :
    d ∈ expiredLeases i.simulationId i.now i.locked u := by
  obtain ⟨f, hf, hrow⟩ := conductor_rows h
  have hmem : f d ∈ v.deliveries.rows := by
    rw [hf]
    exact List.mem_map_of_mem hd
  have hw := hrow d hd
  generalize f d = d' at hw hmem
  cases hw with
  | same => exact absurd hmem hgone
  | reclaimed hm => exact hm
  | dropped x hp _ =>
    rw [hp] at hin
    cases hin
  | admitted chosen _ _ hp =>
    rw [hp] at hin
    cases hin

/-- A lease that has run out by an instant had done so before the step, or a claim has just stamped
it. -/
theorem expired_before (h : PipelineInvariant.Invariant cfg p)
    (hs : DeliveryPipeline.Step cfg p a q) {σ : SimulationId} {now : ℚ} {locked : ℕ → Bool}
    {d : Delivery} (hd : d ∈ expiredLeases σ now locked q.db) :
    d ∈ expiredLeases σ now locked p.db ∨ ∃ w stamp taken scan, a = .claim w σ stamp taken scan ∧
      liveRows scan taken σ stamp cfg.workerBatchSize p.db ≠ [] ∧
        stamp + cfg.leaseDurationVirtualS < now := by
  obtain ⟨hrow, hkeep⟩ := List.mem_filter.mp hd
  obtain ⟨-, hsim, hin, hlease⟩ := mem_expiredLeases hd
  cases PipelineInvariant.step_written h hs hrow with
  | kept hold => exact Or.inl (List.mem_filter.mpr ⟨hold, hkeep⟩)
  | ingested => cases hin
  | expired => cases hin
  | settled => exact absurd hin (settleRow_settled _ _ _).2
  | @leased w i stamp taken scan d₀ hd₀ =>
    obtain ⟨x, hx, rfl⟩ := List.mem_map.mp hd₀
    obtain rfl : i = σ := (mem_claimRows (List.mem_of_mem_filter hx)).2.1.symm.trans hsim
    exact Or.inr ⟨w, stamp, taken, scan, rfl, List.ne_nil_of_mem hx, of_decide_eq_true hlease⟩
  | conducted _ hold hw =>
    cases hw with
    | same => exact Or.inl (List.mem_filter.mpr ⟨hold, hkeep⟩)
    | reclaimed => exact absurd hin (settleRow_settled _ _ _).2
    | dropped x _ hx =>
      have hdropped : x.state = .inFlight := hin
      rcases hx with hx | hx <;> cases hx.symm.trans hdropped
    | admitted => cases hin

end Pipeline

section Steps

variable {cfg : Settings} {s t : State} {e : Event} {a : Action}

theorem acts (hen : Enabled s e) (ha : actionOf s e = some a) :
    DeliveryPipeline.Step cfg s.pipeline a (next cfg s e).pipeline := by
  have hact : DeliveryPipeline.Enabled s.pipeline a →
      DeliveryPipeline.Step cfg s.pipeline a (s.act cfg e) := by
    intro h
    refine ⟨h, ?_⟩
    rw [State.act, ha]
  cases e with
  | tick => cases ha
  | patch => cases ha
  | readRows => cases ha
  | readPasses => cases ha
  | ingest | claim | complete | abandon | beginPass | statement | endPass =>
    obtain ⟨b, hb, h⟩ := hen
    rw [ha] at hb
    obtain rfl := Option.some.inj hb
    exact hact h

theorem acts_or (hen : Enabled s e) : (∃ a, actionOf s e = some a) ∨ (∃ d, e = .tick d) ∨
    (∃ id body, e = .patch id body) ∨ (∃ w, e = .readRows w) ∨ e = .readPasses := by
  cases e with
  | tick d => exact Or.inr (Or.inl ⟨d, rfl⟩)
  | patch id body => exact Or.inr (Or.inr (Or.inl ⟨id, body, rfl⟩))
  | readRows w => exact Or.inr (Or.inr (Or.inr (Or.inl ⟨w, rfl⟩)))
  | readPasses => exact Or.inr (Or.inr (Or.inr (Or.inr rfl)))
  | ingest | claim | complete | abandon | beginPass | statement | endPass =>
    obtain ⟨a, ha, -⟩ := hen
    exact Or.inl ⟨a, ha⟩

theorem wall_of_acts (cfg : Settings) (ha : actionOf s e = some a) :
    (next cfg s e).wall = s.wall := by
  cases e with
  | tick => cases ha
  | patch | readRows | readPasses | ingest | claim | complete | abandon | beginPass | statement
  | endPass => rfl

theorem statement_of_action (ha : actionOf s e = some .statement) : e = .statement := by
  cases e with
  | statement => rfl
  | claim | complete | beginPass =>
    obtain ⟨row, -, h⟩ := Option.map_eq_some_iff.mp ha
    cases h
  | tick | patch | readRows | readPasses | ingest | abandon | endPass => cases ha

theorem step_rewrites (hs : Invariant cfg s) (h : (system cfg).step s e t) :
    ∃ f, Rewrites s e t f := by
  obtain ⟨hen, rfl⟩ := h
  rcases acts_or hen with ⟨a, ha⟩ | ⟨d, rfl⟩ | ⟨id, body, rfl⟩ | ⟨w, rfl⟩ | rfl
  · have hwall := wall_of_acts cfg ha
    have hact : DeliveryPipeline.Step cfg s.pipeline a (next cfg s e).pipeline := acts hen ha
    rcases pipeline_simulations hs.pipeline hact with hsim | ⟨i, prog, hc, rfl, hsim⟩
    · refine ⟨fun sim => sim, ?_, fun _ => rfl, hs.speeds, ?_⟩
      · exact hsim.trans (List.map_id _).symm
      · intro sim _
        rw [hwall]
        exact Or.inl le_rfl
    · refine ⟨_, hsim, ?_, ?_, ?_⟩
      · intro sim
        split <;> rfl
      · intro sim hm
        split
        · exact hs.speeds sim hm
        · exact hs.speeds sim hm
      · intro sim _
        split
        · exact Or.inr ⟨i, prog, hc, statement_of_action ha, nowAt_retireRow _ _ _⟩
        · rw [hwall]
          exact Or.inl le_rfl
  · refine ⟨fun sim => sim, (List.map_id _).symm, fun _ => rfl, hs.speeds, ?_⟩
    intro sim hm
    apply Or.inl
    apply nowAt_mono (c := fromRow sim) (hs.speeds sim hm)
    exact le_add_of_nonneg_right hen
  · refine ⟨_, rfl, ?_, ?_, ?_⟩
    · intro sim
      split
      · exact patched_id
      · rfl
    · intro sim hm
      split
      · rename_i hid
        exact (patched_spec (hs.speeds sim hm) (hen.2 sim hm hid)).1
      · exact hs.speeds sim hm
    · intro sim hm
      split
      · rename_i hid
        exact Or.inl (patched_spec (hs.speeds sim hm) (hen.2 sim hm hid)).2.ge
      · exact Or.inl le_rfl
  · exact ⟨fun sim => sim, (List.map_id _).symm, fun _ => rfl, hs.speeds, fun _ _ => Or.inl le_rfl⟩
  · exact ⟨fun sim => sim, (List.map_id _).symm, fun _ => rfl, hs.speeds, fun _ _ => Or.inl le_rfl⟩

theorem step_in_hand (cfg : Settings) (s : State) (e : Event) :
    (∀ w, ∀ sim ∈ (next cfg s e).ahead w, sim ∈ s.ahead w ∨ sim ∈ s.db.simulations) ∧
      ∀ sim ∈ (next cfg s e).passes, sim ∈ s.passes ∨ sim ∈ s.db.simulations := by
  have hkept : ∀ w v (l : List Simulation), (∀ sim ∈ l, sim ∈ s.ahead v ∨ sim ∈ s.db.simulations) →
      ∀ sim ∈ Function.update s.ahead v l w, sim ∈ s.ahead w ∨ sim ∈ s.db.simulations := by
    intro w v l hl sim hm
    by_cases hv : w = v
    · subst hv
      rw [Function.update_self] at hm
      exact hl sim hm
    · rw [Function.update_of_ne hv] at hm
      exact Or.inl hm
  cases e with
  | readRows v =>
    refine ⟨fun w => hkept w v _ ?_, fun sim hm => Or.inl hm⟩
    exact fun sim hm => Or.inr (List.mem_of_mem_filter hm)
  | claim v locked scan =>
    refine ⟨fun w => hkept w v _ ?_, fun sim hm => Or.inl hm⟩
    intro sim hm
    split at hm
    · exact Or.inl hm
    · exact Or.inl (List.mem_of_mem_tail hm)
  | complete v results =>
    refine ⟨fun w => hkept w v _ ?_, fun sim hm => Or.inl hm⟩
    exact fun sim hm => Or.inl (List.mem_of_mem_tail hm)
  | abandon v =>
    refine ⟨fun w => hkept w v _ ?_, fun sim hm => Or.inl hm⟩
    intro sim hm
    cases hm
  | readPasses =>
    exact ⟨fun w sim hm => Or.inl hm, fun sim hm => Or.inr (List.mem_of_mem_filter hm)⟩
  | beginPass => exact ⟨fun w sim hm => Or.inl hm, fun sim hm => Or.inl (List.mem_of_mem_tail hm)⟩
  | tick | patch | ingest | statement | endPass =>
    exact ⟨fun w sim hm => Or.inl hm, fun sim hm => Or.inl hm⟩

theorem step_invariant (hs : Invariant cfg s) (h : (system cfg).step s e t) : Invariant cfg t := by
  obtain ⟨f, hf⟩ := step_rewrites hs h
  have hrow : ∀ id, (s.row id).isSome → (t.row id).isSome := by
    intro id hid
    rw [row_map hf.rows hf.id]
    simpa using hid
  have hin : ∀ sim, sim ∈ s.db.simulations → (t.row sim.id).isSome :=
    fun sim hm => hrow _ (row_isSome hm)
  have hand := step_in_hand cfg s e
  obtain ⟨hen, rfl⟩ := h
  constructor
  · rcases acts_or hen with ⟨a, ha⟩ | ⟨d, rfl⟩ | ⟨id, body, rfl⟩ | ⟨w, rfl⟩ | rfl
    · exact PipelineInvariant.step_invariant hs.pipeline (acts hen ha)
    · exact hs.pipeline
    · exact resimulated hs.pipeline _
    · exact hs.pipeline
    · exact hs.pipeline
  · intro sim hm
    rw [hf.rows] at hm
    obtain ⟨old, hold, rfl⟩ := List.mem_map.mp hm
    exact hf.speed old hold
  · intro w sim hm
    rcases hand.1 w sim hm with hm | hm
    · exact hrow _ (hs.ahead w sim hm)
    · exact hin sim hm
  · intro sim hm
    rcases hand.2 sim hm with hm | hm
    · exact hrow _ (hs.passes sim hm)
    · exact hin sim hm

theorem reading_after (hs : Invariant cfg s) (h : (system cfg).step s e t) {id : SimulationId}
    {r : ℚ} (hr : s.reading id = some r) : ∃ r', t.reading id = some r' ∧
      (r ≤ r' ∨ ∃ i prog, s.pipeline.conductor = some (i, prog) ∧ e = .statement ∧ r' = i.now) := by
  obtain ⟨f, hf⟩ := step_rewrites hs h
  obtain ⟨sim, hsim, rfl⟩ := Option.map_eq_some_iff.mp hr
  refine ⟨nowAt (fromRow (f sim)) t.wall, ?_, hf.reading sim (mem_row hsim).1⟩
  rw [State.reading, row_map hf.rows hf.id, hsim]
  rfl

theorem beginPass_of_action {i : PassInput} (ha : actionOf s e = some (.beginPass i)) :
    ∃ last locked scan row, e = .beginPass last locked scan ∧ s.passes.head? = some row ∧
      i = passInput row s.wall last locked scan := by
  cases e with
  | beginPass last locked scan =>
    obtain ⟨row, hrow, h⟩ := Option.map_eq_some_iff.mp ha
    cases h
    exact ⟨last, locked, scan, row, rfl, hrow, rfl⟩
  | claim | complete =>
    obtain ⟨row, -, h⟩ := Option.map_eq_some_iff.mp ha
    cases h
  | tick | patch | readRows | readPasses | ingest | abandon | statement | endPass => cases ha

theorem reading_of_row {sim : Simulation} (h : (s.row sim.id).isSome) :
    ∃ r, s.reading sim.id = some r := by
  obtain ⟨row, hrow⟩ := Option.isSome_iff_exists.mp h
  exact ⟨_, by rw [State.reading, hrow]; rfl⟩

theorem claim_of_action {σ : SimulationId} {w : WorkerId} {now : ℚ} {locked : ℕ → Bool}
    {scan : ScanOrder} (ha : actionOf s e = some (.claim w σ now locked scan)) :
    ∃ row, (s.ahead w).head? = some row ∧ row.id = σ ∧ now = nowAt (fromRow row) s.wall ∧
      e = .claim w locked scan := by
  cases e with
  | claim v locked scan =>
    obtain ⟨row, hrow, h⟩ := Option.map_eq_some_iff.mp ha
    cases h
    exact ⟨row, hrow, rfl, rfl, rfl⟩
  | complete | beginPass =>
    obtain ⟨row, -, h⟩ := Option.map_eq_some_iff.mp ha
    cases h
  | ingest | abandon | statement | endPass => cases Option.some.inj ha
  | tick | patch | readRows | readPasses => cases ha

/-- What the pass under way takes to have run out after a timely step, the row's clock had come to
its instant before the step. -/
theorem judged_before (hs : Invariant cfg s) (hl : Lasting s) (hc : Timely cfg s e)
    (h : (system cfg).step s e t) {i : PassInput} {prog : Program Db Unit}
    (hp : s.pipeline.conductor = some (i, prog))
    (hne : expiredLeases i.simulationId i.now i.locked t.db ≠ []) :
    ∃ r, s.reading i.simulationId = some r ∧ i.now ≤ r := by
  obtain ⟨hen, rfl⟩ := h
  rcases acts_or hen with ⟨a, ha⟩ | ⟨d, rfl⟩ | ⟨id, body, rfl⟩ | ⟨w, rfl⟩ | rfl
  · obtain ⟨d, hd⟩ := List.exists_mem_of_ne_nil _ hne
    rcases expired_before hs.pipeline (acts hen ha) hd with
      hold | ⟨w, stamp, taken, scan, rfl, hlive, hover⟩
    · exact hl.judged i prog hp (List.ne_nil_of_mem hold)
    · obtain ⟨row, hrow, hid, rfl, rfl⟩ := claim_of_action ha
      obtain ⟨r, hr⟩ := reading_of_row (hs.ahead w row (List.mem_of_mem_head? hrow))
      rw [← hid] at hlive ⊢
      exact ⟨r, hr, (hc row hrow hlive r hr).2 _ hp hid.symm hover⟩
  · exact hl.judged i prog hp hne
  · exact hl.judged i prog hp hne
  · exact hl.judged i prog hp hne
  · exact hl.judged i prog hp hne

theorem step_judged (hs : Invariant cfg s) (hl : Lasting s) (hc : Timely cfg s e)
    (h : (system cfg).step s e t) : ∀ i prog, t.pipeline.conductor = some (i, prog) →
      expiredLeases i.simulationId i.now i.locked t.db ≠ [] →
        ∃ r, t.reading i.simulationId = some r ∧ i.now ≤ r := by
  intro i prog ht hne
  have carried : (∃ prog', s.pipeline.conductor = some (i, prog')) →
      ∃ r, t.reading i.simulationId = some r ∧ i.now ≤ r := by
    rintro ⟨prog', hp⟩
    obtain ⟨r, hr, hle⟩ := judged_before hs hl hc h hp hne
    obtain ⟨r', hr', hcase⟩ := reading_after hs h hr
    refine ⟨r', hr', ?_⟩
    rcases hcase with hcase | ⟨j, q, hj, -, rfl⟩
    · exact hle.trans hcase
    · rw [hp] at hj
      obtain ⟨rfl, -⟩ := Prod.mk.inj (Option.some.inj hj)
      exact le_rfl
  have hstep := h
  obtain ⟨hen, rfl⟩ := hstep
  rcases acts_or hen with ⟨a, ha⟩ | ⟨d, rfl⟩ | ⟨id, body, rfl⟩ | ⟨w, rfl⟩ | rfl
  · rcases PipelineInvariant.step_conductor (acts hen ha) ht with hp | rfl
    · exact carried hp
    · obtain ⟨last, locked, scan, row, rfl, hrow, rfl⟩ := beginPass_of_action ha
      have hmem : row ∈ s.passes := List.mem_of_mem_head? hrow
      obtain ⟨r, hr⟩ := reading_of_row (hs.passes row hmem)
      obtain ⟨r', hr', hcase⟩ := reading_after hs h hr
      refine ⟨r', hr', ?_⟩
      rcases hcase with hcase | ⟨j, q, -, hno, -⟩
      · have hact : DeliveryPipeline.Step cfg s.pipeline _
          (next cfg s (.beginPass last locked scan)).pipeline := acts hen ha
        rw [State.db, hact.2] at hne
        exact (hc row hrow hne r hr).trans hcase
      · cases hno
  · exact carried ⟨prog, ht⟩
  · exact carried ⟨prog, ht⟩
  · exact carried ⟨prog, ht⟩
  · exact carried ⟨prog, ht⟩

theorem claimedAt_kept (hne : ∀ w locked scan, e ≠ .claim w locked scan) :
    (next cfg s e).claimedAt = s.claimedAt := by
  cases e with
  | claim w locked scan => exact absurd rfl (hne w locked scan)
  | tick | patch | readRows | readPasses | ingest | complete | abandon | beginPass | statement
  | endPass => rfl

theorem startOf_none (ha : actionOf s e = some a)
    (hne : ∀ w locked scan, e ≠ .claim w locked scan) : PipelineInvariant.startOf a = none := by
  cases e with
  | claim w locked scan => exact absurd rfl (hne w locked scan)
  | complete w results =>
    obtain ⟨row, -, rfl⟩ := Option.map_eq_some_iff.mp ha
    rfl
  | beginPass last locked scan =>
    obtain ⟨row, -, rfl⟩ := Option.map_eq_some_iff.mp ha
    rfl
  | ingest | abandon | statement | endPass =>
    obtain rfl := Option.some.inj ha
    rfl
  | tick | patch | readRows | readPasses => cases ha

/-- What is claimed is stamped with the worker's reading, and no number is used twice. -/
theorem claim_stamped (hs : Invariant cfg s) (hl : Lasting s) {w : WorkerId} {locked : ℕ → Bool}
    {scan : ScanOrder} (hc : Timely cfg s (.claim w locked scan))
    (hen : Enabled s (.claim w locked scan)) :
    ∀ x ∈ (next cfg s (.claim w locked scan)).db.attempts.rows,
      ∃ c, (next cfg s (.claim w locked scan)).claimedAt x.id = some c ∧ c ≤ x.startedAt := by
  obtain ⟨a, ha, -⟩ := hen
  obtain ⟨row, hrow, -⟩ := Option.map_eq_some_iff.mp ha
  obtain ⟨r, hr⟩ := reading_of_row (hs.ahead w row (List.mem_of_mem_head? hrow))
  have hdb : (next cfg s (.claim w locked scan)).db.attempts.rows =
      s.db.attempts.rows ++ ((liveRows scan locked row.id (nowAt (fromRow row) s.wall)
        cfg.workerBatchSize s.db).zipIdx s.db.attempts.next).map fun x =>
          attemptRow row.id w (nowAt (fromRow row) s.wall) x.2 x.1 := by
    simp only [next, State.db, State.act, actionOf, hrow, Option.map_some]
    exact claimBatch_attempts cfg scan locked row.id w _ _ _
  intro x hx
  rw [hdb] at hx
  simp only [next, hrow, Option.bind_some, hr]
  rcases List.mem_append.mp hx with hx | hx
  · have hold : x.id < s.db.attempts.next := s.db.attempts.bounded x hx
    rw [if_pos hold]
    exact hl.stamped x hx
  · obtain ⟨y, hy, rfl⟩ := List.mem_map.mp hx
    have hnew : s.db.attempts.next ≤ y.2 := List.le_snd_of_mem_zipIdx hy
    have hlive : liveRows scan locked row.id (nowAt (fromRow row) s.wall) cfg.workerBatchSize s.db ≠
        [] := List.ne_nil_of_mem (List.fst_mem_of_mem_zipIdx hy)
    exact ⟨r, if_neg (not_lt.mpr hnew), (hc row hrow hlive r hr).1⟩

theorem step_lasting (hs : Invariant cfg s) (hl : Lasting s) (hc : Timely cfg s e)
    (h : (system cfg).step s e t) : Lasting t := by
  refine ⟨?_, step_judged hs hl hc h⟩
  obtain ⟨hen, rfl⟩ := h
  by_cases hclaim : ∃ w locked scan, e = .claim w locked scan
  · obtain ⟨w, locked, scan, rfl⟩ := hclaim
    exact claim_stamped hs hl hc hen
  push Not at hclaim
  intro x hx
  rw [claimedAt_kept hclaim]
  rcases acts_or hen with ⟨a, ha⟩ | ⟨d, rfl⟩ | ⟨id, body, rfl⟩ | ⟨w, rfl⟩ | rfl
  · obtain ⟨y, hy, hid, hstart⟩ :=
      pipeline_attempts hs.pipeline (acts hen ha) (startOf_none ha hclaim) x hx
    rw [← hid, ← hstart]
    exact hl.stamped y hy
  · exact hl.stamped x hx
  · exact hl.stamped x hx
  · exact hl.stamped x hx
  · exact hl.stamped x hx

theorem initial_invariant (h : Initial cfg s) : Invariant cfg s ∧ Lasting s := by
  obtain ⟨cast, sims, hp, ha, hpass, hsims⟩ := h
  refine ⟨⟨?_, ?_, ?_, ?_⟩, ?_, ?_⟩
  · rw [hp]
    exact PipelineInvariant.initial_invariant cast sims
  · intro sim hm
    rw [State.db, hp] at hm
    obtain ⟨id, body, atWall, hok⟩ := hsims sim hm
    exact initial_speed (s := ⟨sim, atWall⟩) ⟨id, body, hok⟩
  · intro w sim hm
    rw [ha] at hm
    cases hm
  · intro sim hm
    rw [hpass] at hm
    cases hm
  · intro x hx
    rw [State.db, hp] at hx
    cases hx
  · intro i prog hc
    rw [hp] at hc
    cases hc

theorem reachable_lasting (h : (timely cfg).Reachable s) : Invariant cfg s ∧ Lasting s := by
  apply h.invariant (P := fun s => Invariant cfg s ∧ Lasting s)
  · exact fun _ => initial_invariant
  · intro s e t _ hs he
    exact ⟨step_invariant hs.1 he.2, step_lasting hs.1 hs.2 he.1 he.2⟩

def Reclaims (cfg : Settings) (s : State) (d : Delivery) : Prop :=
  d ∈ s.db.deliveries.rows ∧ d.state = .inFlight ∧
    ∀ d' ∈ (next cfg s .statement).db.deliveries.rows, d'.id = d.id → d'.state ≠ .inFlight

theorem reclaims_expired (hs : Invariant cfg s) {d : Delivery} (h : Reclaims cfg s d) :
    ∃ i prog, s.pipeline.conductor = some (i, prog) ∧
      d ∈ expiredLeases i.simulationId i.now i.locked s.db := by
  obtain ⟨hd, hin, hgone⟩ := h
  have hlost : d ∉ (DeliveryPipeline.next cfg s.pipeline .statement).db.deliveries.rows :=
    fun hm => hgone d hm rfl hin
  rcases PipelineInvariant.statement_cases cfg s.pipeline with ⟨i, write, k, hc⟩ | hn
  · rw [PipelineInvariant.next_statement hc] at hlost
    have hw := (PipelineInvariant.statement_write hs.pipeline.pass trivial hc).1
    exact ⟨i, _, hc, reclaimed_expired hw hd hin hlost⟩
  · rw [hn] at hlost
    exact absurd hd hlost

/-- In a timely run the attempt of a delivery that a pass reclaims started a full lease ago, by
the clock of its simulation's row. -/
theorem lease_lasts (cfg : Settings) (h : (timely cfg).Reachable s) {d : Delivery}
    (hr : Reclaims cfg s d) : ∃ a ∈ s.db.attemptsOf d.id, a.isOpen ∧
      ∃ c r, s.claimedAt a.id = some c ∧ s.reading d.simulationId = some r ∧
        cfg.leaseDurationVirtualS ≤ r - c := by
  obtain ⟨hs, hl⟩ := reachable_lasting h
  obtain ⟨i, prog, hc, hexp⟩ := reclaims_expired hs hr
  obtain ⟨hd, hsim, hin, hlease⟩ := mem_expiredLeases hexp
  have story : Story cfg d (s.db.attemptsOf d.id) := (hs.pipeline.files d hd).story
  obtain ⟨a, ha, hopen⟩ := story.in_flight hin
  obtain ⟨-, -, -, hends, -⟩ := story.open_attempt ha hopen
  obtain ⟨c, hclaimed, hstart⟩ := hl.stamped a (mem_attemptsOf.mp ha).1
  obtain ⟨r, hread, hnow⟩ := hl.judged i prog hc (List.ne_nil_of_mem hexp)
  refine ⟨a, ha, hopen, c, r, hclaimed, ?_, ?_⟩
  · rw [hsim]
    exact hread
  · have hpast : a.startedAt + cfg.leaseDurationVirtualS < i.now := by
      simpa [leaseExpired, hends] using hlease
    linarith

end Steps

section Snapshots

open DeliveryPipeline (soleConsumer)

def oneToOne : SimulationCreate := { speedMultiplier := some ⟨1, by norm_num⟩ }

def slowRow : Simulation where
  id := 1
  status := .running
  virtualEpoch := 0
  resumedAtWall := 0
  pausedAtVirtual := none
  speedMultiplier := 1
  fairDrainEnabled := true
  globalAttemptsPerS := 30
  outageOverride := none

def begun : State :=
  ⟨DeliveryPipeline.initial soleConsumer [slowRow], 0, fun _ => [], [], fun _ => none⟩

theorem begun_initial : Initial shipped begun := by
  refine ⟨soleConsumer, [slowRow], rfl, rfl, rfl, ?_⟩
  intro sim hm
  obtain rfl := List.mem_singleton.mp hm
  exact ⟨1, oneToOne, 0, by decide +kernel⟩

def beginPass : Event := .beginPass none (fun _ => false) .physical

def claim : Event := .claim 7 (fun _ => false) .physical

def admission : List Event :=
  [.ingest 1 1 [⟨"patient.updated", "chart", none⟩], .tick 2, .readPasses, beginPass] ++
    List.replicate 20 .statement ++ [.endPass]

structure Outcome where
  before : List (SimulationId × DeliveryState)
  after : List DeliveryState
  attempts : List ℕ
  claimedAt : Option ℚ
  reading : Option ℚ
  deriving DecidableEq

def outcome (s : State) : Outcome where
  before := s.db.deliveries.rows.map fun d => (d.simulationId, d.state)
  after := (next shipped s .statement).db.deliveries.rows.map Delivery.state
  attempts := s.db.attempts.rows.map Attempt.id
  claimedAt := s.claimedAt 1
  reading := s.reading 1

def deadWorker : List Event :=
  admission ++ [.readRows 7, claim, .tick 31, .readPasses, beginPass]

def busyWorker : List Event :=
  admission ++ [.readRows 7, .tick 8, .patch 1 { speedMultiplier := some ⟨20, by norm_num⟩ },
    .tick 10, claim, .readPasses, beginPass]

theorem reclaims_of_outcome {s : State} {l : List ℕ} {c r : Option ℚ}
    (h : outcome s = ⟨[(1, .inFlight)], [.pending], l, c, r⟩) :
    (∃ d, Reclaims shipped s d ∧ d.simulationId = 1) ∧ s.db.attempts.rows.map Attempt.id = l ∧
      s.claimedAt 1 = c ∧ s.reading 1 = r := by
  obtain ⟨hrows, hafter, hatt, hc, hr⟩ := Outcome.mk.inj h
  obtain ⟨d, hd, hdf⟩ := List.map_eq_singleton_iff.mp hrows
  obtain ⟨hsim, hstate⟩ := Prod.mk.inj hdf
  refine ⟨⟨d, ⟨?_, hstate, ?_⟩, hsim⟩, hatt, hc, hr⟩
  · rw [hd]
    exact List.mem_singleton.mpr rfl
  · intro d' hd' _ hin
    have hmem := List.mem_map_of_mem (f := Delivery.state) hd'
    rw [hafter, hin] at hmem
    cases List.mem_singleton.mp hmem

theorem lease_lasts_dead_worker : ∃ s d, (timely shipped).Reachable s ∧ Reclaims shipped s d ∧
    ∃ a ∈ s.db.attemptsOf d.id, a.isOpen ∧ ∃ c r, s.claimedAt a.id = some c ∧
      s.reading d.simulationId = some r ∧ shipped.leaseDurationVirtualS ≤ r - c := by
  have hrun : (runList (fun s e => Timely shipped s e ∧ Enabled s e) (next shipped) begun
      deadWorker).map outcome = some ⟨[(1, .inFlight)], [.pending], [1], some 2, some 33⟩ := by
    decide +kernel
  obtain ⟨s, hs, ho⟩ := Option.map_eq_some_iff.mp hrun
  obtain ⟨⟨d, hd, -⟩, -⟩ := reclaims_of_outcome ho
  have hr : (timely shipped).Reachable s := ⟨begun, begun_initial, runList_restricted _ _ _ hs⟩
  exact ⟨s, d, hr, hd, lease_lasts shipped hr hd⟩

/-- The claim is stamped at 20 by a clock that the row has left behind at 210, and the next pass
reclaims it with no time gone by. -/
theorem stale_claim_reclaimed : ¬ ∀ s, (system shipped).Reachable s → ∀ d, Reclaims shipped s d →
    ∃ a ∈ s.db.attemptsOf d.id, a.isOpen ∧ ∃ c r, s.claimedAt a.id = some c ∧
      s.reading d.simulationId = some r ∧ shipped.leaseDurationVirtualS ≤ r - c := by
  intro h
  have hrun : (runList Enabled (next shipped) begun busyWorker).map outcome =
      some ⟨[(1, .inFlight)], [.pending], [1], some 210, some 210⟩ := by decide +kernel
  obtain ⟨s, hs, ho⟩ := Option.map_eq_some_iff.mp hrun
  obtain ⟨⟨d, hd, hsim⟩, hatt, hclaimed, hread⟩ := reclaims_of_outcome ho
  obtain ⟨a, ha, -, c, r, hc, hr, hle⟩ :=
    h s ⟨begun, begun_initial, runList_execution _ _ _ hs⟩ d hd
  have hid : a.id = 1 := by
    have hmem := List.mem_map_of_mem (f := Attempt.id) (mem_attemptsOf.mp ha).1
    rw [hatt] at hmem
    exact List.mem_singleton.mp hmem
  rw [hid, hclaimed] at hc
  rw [hsim, hread] at hr
  obtain rfl := Option.some.inj hc
  obtain rfl := Option.some.inj hr
  revert hle
  decide +kernel

end Snapshots

end LeaseClock
