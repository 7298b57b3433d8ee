import WebhookRecovery.LeaseClock
import WebhookRecovery.SimulationFrames

/-! A run that is paused or done. The status is read once in an iteration, so it stops nobody who
has read the row already: each worker makes one more claim at most, and then nothing moves. -/
namespace PausedRuns

open KeyedTables InterleavedPrograms WorkerClaim ConductorPass QueueUsage VirtualClock LeaseClock
open SimulationSlices ConsistentRows SimulationFrames
open RecoverySchema hiding Event
open ClockControl (SimulationPatch patchSimulation restatus respeed overlay)

def Stopped (σ : SimulationId) (s : State) : Prop :=
  ∀ sim ∈ s.db.simulations, sim.id = σ → sim.status ≠ .running

/-- The rows that a worker has yet to claim on; it is through with the one of its batch. -/
def todo (s : State) (w : WorkerId) : List Simulation :=
  if (s.pipeline.batches w).isSome then (s.ahead w).tail else s.ahead w

def visits (σ : SimulationId) (s : State) (w : WorkerId) : ℕ :=
  (todo s w).countP fun sim => sim.id == σ

def Seeded (cfg : Settings) (s : State) : Prop :=
  LeaseClock.Initial cfg s ∧ (s.db.simulations.map Simulation.id).Nodup ∧
    OwnSubscriptions s.db.cast

/-- Requests are taken as they come, one that revives a run that is done included. -/
def Allowed (s : State) : Event → Prop
  | .patch _ _ => True
  | e => Enabled s e

instance (s : State) : DecidablePred (Allowed s)
  | .patch _ _ => inferInstanceAs (Decidable True)
  | .tick d => inferInstanceAs (Decidable (Enabled s (.tick d)))
  | .ingest id now specs => inferInstanceAs (Decidable (Enabled s (.ingest id now specs)))
  | .readRows w => inferInstanceAs (Decidable (Enabled s (.readRows w)))
  | .claim w locked scan => inferInstanceAs (Decidable (Enabled s (.claim w locked scan)))
  | .complete w results => inferInstanceAs (Decidable (Enabled s (.complete w results)))
  | .abandon w => inferInstanceAs (Decidable (Enabled s (.abandon w)))
  | .readPasses => inferInstanceAs (Decidable (Enabled s .readPasses))
  | .beginPass last locked scan =>
    inferInstanceAs (Decidable (Enabled s (.beginPass last locked scan)))
  | .statement => inferInstanceAs (Decidable (Enabled s .statement))
  | .endPass => inferInstanceAs (Decidable (Enabled s .endPass))

def seeded (cfg : Settings) : System State Event := .guarded (Seeded cfg) Allowed (next cfg)

/-- Nobody touches rows of two simulations at once, or holds two rows of one. -/
structure Sorted (cfg : Settings) (s : State) : Prop where
  framed : Framed cfg s.pipeline
  distinct : ∀ w, ((s.ahead w).map Simulation.id).Nodup

section Reachability

variable {cfg : Settings} {σ : SimulationId} {s t : State} {e : Event}

theorem framed_resimulated {p : DeliveryPipeline.State} (h : Framed cfg p) {l : List Simulation}
    (hids : l.map Simulation.id = p.db.simulations.map Simulation.id)
    (hspeed : ∀ x ∈ l, 0 < x.speedMultiplier) :
    Framed cfg { p with db := { p.db with simulations := l } } where
  invariant := resimulated h.invariant l
  kept := ⟨⟨hids ▸ h.kept.rows.simulations, hspeed, h.kept.rows.deliveries,
    h.kept.rows.attempts⟩, h.kept.subscriptions, h.kept.pass⟩
  asked := h.asked
  spared := by
    intro i prog hc
    have hsame : Evolves p.db { p.db with simulations := l } :=
      ⟨rfl, fun _ hd _ => hd, fun _ => le_rfl, fun _ _ => le_rfl⟩
    exact Program.Guarantees.rely (fun _ _ _ h k => h.trans k) (fun _ _ _ _ _ => trivial)
      (h.spared i prog hc) hsame

theorem step_ahead (cfg : Settings) (s : State) (e : Event) (w : WorkerId) :
    (next cfg s e).ahead w <:+ s.ahead w ∨
      e = .readRows w ∧ (next cfg s e).ahead w = s.running := by
  have hkept : ∀ v (l : List Simulation), l <:+ s.ahead v →
      Function.update s.ahead v l w <:+ s.ahead w := by
    intro v l hl
    by_cases hv : w = v
    · subst hv
      rwa [Function.update_self]
    · have hsame : Function.update s.ahead v l w = s.ahead w := Function.update_of_ne hv _ _
      exact hsame ▸ List.suffix_rfl
  cases e with
  | readRows v =>
    by_cases hv : w = v
    · subst hv
      exact Or.inr ⟨rfl, Function.update_self _ _ _⟩
    · left
      simp only [next, Function.update_of_ne hv]
      exact List.suffix_rfl
  | claim v locked scan =>
    apply Or.inl (hkept v _ _)
    split
    · exact List.suffix_rfl
    · exact List.tail_suffix _
  | complete v results => exact Or.inl (hkept v _ (List.tail_suffix _))
  | abandon v => exact Or.inl (hkept v _ List.nil_suffix)
  | tick | patch | ingest | readPasses | beginPass | statement | endPass =>
    exact Or.inl List.suffix_rfl

theorem step_cases (hs : (seeded cfg).step s e t) :
    (∃ a, actionOf s e = some a ∧ DeliveryPipeline.Step cfg s.pipeline a t.pipeline) ∨
    (∃ id body, e = .patch id body ∧
      t.pipeline = { s.pipeline with db := patchRows id body s.wall s.db }) ∨
    t.pipeline = s.pipeline := by
  obtain ⟨hen, rfl⟩ := hs
  cases e with
  | patch id body => exact Or.inr (Or.inl ⟨id, body, rfl, rfl⟩)
  | tick | readRows | readPasses => exact Or.inr (Or.inr rfl)
  | ingest | claim | complete | abandon | beginPass | statement | endPass =>
    obtain ⟨a, ha, -⟩ := id hen
    exact Or.inl ⟨a, ha, acts hen ha⟩

theorem patched_rows {id : SimulationId} {body : SimulationPatch} {wall : ℚ} {db : Db}
    {sim : Simulation} (hm : sim ∈ (patchRows id body wall db).simulations) :
    ∃ x ∈ db.simulations, x.id = sim.id ∧ (sim = x ∨ x.id = id ∧ sim = patched body wall x) := by
  obtain ⟨x, hx, rfl⟩ := List.mem_map.mp hm
  by_cases hid : x.id = id
  · rw [if_pos hid]
    exact ⟨x, hx, patched_id.symm, Or.inr ⟨hid, rfl⟩⟩
  · rw [if_neg hid]
    exact ⟨x, hx, rfl, Or.inl rfl⟩

theorem patched_speed {body : SimulationPatch} {wall : ℚ} {sim : Simulation}
    (h : 0 < sim.speedMultiplier) : 0 < (patched body wall sim).speedMultiplier := by
  obtain ⟨sim', hok, hpos, -⟩ := ClockControl.patch_spec h body wall
  rw [patched, hok]
  exact hpos

theorem step_sorted (h : Sorted cfg s) (hs : (seeded cfg).step s e t) : Sorted cfg t := by
  refine ⟨?_, fun w => ?_⟩
  · rcases step_cases hs with ⟨a, -, hact⟩ | ⟨id, body, -, hp⟩ | hp
    · exact step_framed h.framed hact
    · rw [hp]
      refine framed_resimulated h.framed ?_ fun sim hm => ?_
      · rw [State.db, List.map_map]
        refine List.map_congr_left fun x _ => ?_
        simp only [Function.comp_apply]
        split
        · exact patched_id
        · rfl
      · obtain ⟨x, hx, -, rfl | ⟨-, rfl⟩⟩ := patched_rows hm
        · exact h.framed.kept.rows.speeds _ hx
        · exact patched_speed (h.framed.kept.rows.speeds x hx)
    · rw [hp]
      exact h.framed
  · obtain ⟨-, rfl⟩ := hs
    rcases step_ahead cfg s e w with hsuf | ⟨-, hrun⟩
    · exact (h.distinct w).sublist (hsuf.sublist.map _)
    · rw [hrun]
      exact h.framed.kept.rows.simulations.sublist (List.filter_sublist.map _)

theorem reachable_sorted (h : (seeded cfg).Reachable s) : Sorted cfg s := by
  apply h.invariant (P := Sorted cfg)
  · rintro s ⟨hinit, hids, hsub⟩
    have hspeeds : ∀ x ∈ s.pipeline.db.simulations, 0 < x.speedMultiplier :=
      (LeaseClock.initial_invariant hinit).1.speeds
    obtain ⟨cast, sims, hp, ha, -, -⟩ := hinit
    refine ⟨?_, fun w => ?_⟩
    · rw [State.db, hp] at hids hsub
      rw [hp] at hspeeds ⊢
      exact initial_framed hsub hids hspeeds
    · rw [ha]
      exact .nil
  · exact fun _ _ _ _ hs he => step_sorted hs he

end Reachability

section Settling

variable {cfg : Settings} {σ : SimulationId} {s t : State} {e : Event}

def Unresumed (σ : SimulationId) : Event → Prop
  | .patch id body => id = σ → body.status ≠ some .running
  | _ => True

instance (σ : SimulationId) : DecidablePred (Unresumed σ)
  | .patch id body => inferInstanceAs (Decidable (id = σ → body.status ≠ some .running))
  | .tick _ | .ingest .. | .readRows _ | .claim .. | .complete .. | .abandon _ | .readPasses
  | .beginPass .. | .statement | .endPass => inferInstanceAs (Decidable True)

theorem patched_stopped {body : SimulationPatch} {wall : ℚ} {sim : Simulation}
    (hb : body.status ≠ some .running) (hs : sim.status ≠ .running) :
    (patched body wall sim).status ≠ .running := by
  unfold patched
  split
  · rename_i sim' h
    simp only [patchSimulation, bind, Except.bind] at h
    split at h
    · cases h
    · rename_i config hconfig
      split at h
      · cases h
      · obtain rfl := Except.ok.inj h
        simp only [overlay]
        cases hbody : body.status with
        | none =>
          rw [Option.getD_none, ClockControl.respeed_status hconfig, restatus, hbody]
          exact hs
        | some st =>
          rw [Option.getD_some]
          exact fun hst => hb (hst ▸ hbody)
  · exact hs

theorem step_stopped (hsort : Sorted cfg s) (h : Stopped σ s) (hc : Unresumed σ e)
    (hs : (seeded cfg).step s e t) : Stopped σ t := by
  intro sim hm hid
  rw [State.db] at hm
  rcases step_cases hs with ⟨a, -, hact⟩ | ⟨id, body, rfl, hp⟩ | hp
  · rcases pipeline_simulations hsort.framed.invariant hact with hsim | ⟨i, prog, -, -, hsim⟩
    · rw [hsim] at hm
      exact h sim hm hid
    · rw [hsim] at hm
      obtain ⟨x, hx, rfl⟩ := List.mem_map.mp hm
      by_cases hx' : x.id = i.simulationId
      · rw [if_pos hx']
        intro hrun
        cases hrun
      · rw [if_neg hx'] at hid ⊢
        exact h x hx hid
  · rw [hp] at hm
    obtain ⟨x, hx, hxid, rfl | ⟨hx', rfl⟩⟩ := patched_rows hm
    · exact h sim hx hid
    · exact patched_stopped (hc (hx'.symm.trans (hxid.trans hid))) (h x hx (hxid.trans hid))
  · rw [hp] at hm
    exact h sim hm hid

def holder : Event → Option WorkerId
  | .readRows w | .claim w _ _ | .complete w _ | .abandon w => some w
  | _ => none

theorem todo_kept (hs : (seeded cfg).step s e t) {w : WorkerId} (hw : holder e ≠ some w) :
    todo t w = todo s w := by
  have hstep := hs
  obtain ⟨-, rfl⟩ := hstep
  have hahead : (next cfg s e).ahead w = s.ahead w := by
    cases e with
    | readRows v | claim v _ _ | complete v _ | abandon v =>
      exact Function.update_of_ne (fun hv => hw (congrArg some hv.symm)) _ _
    | tick | patch | ingest | readPasses | beginPass | statement | endPass => rfl
  have hbatches : (next cfg s e).pipeline.batches w = s.pipeline.batches w := by
    rcases step_cases hs with ⟨a, ha, hact⟩ | ⟨id, body, rfl, -⟩ | hp
    · apply PipelineInvariant.batch_kept hact
      · intro hactor
        cases e with
        | claim | complete =>
          obtain ⟨row, -, rfl⟩ := Option.map_eq_some_iff.mp ha
          exact hw hactor
        | beginPass last locked scan =>
          obtain ⟨row, -, rfl⟩ := Option.map_eq_some_iff.mp ha
          cases hactor
        | ingest | abandon | statement | endPass =>
          obtain rfl := Option.some.inj ha
          cases hactor
        | tick | patch | readRows | readPasses => cases ha
      · rintro rfl
        cases e with
        | abandon v =>
          obtain rfl := DeliveryPipeline.Action.abandon.inj (Option.some.inj ha)
          exact hw rfl
        | claim | complete | beginPass =>
          obtain ⟨row, -, h⟩ := Option.map_eq_some_iff.mp ha
          cases h
        | ingest | statement | endPass => cases Option.some.inj ha
        | tick | patch | readRows | readPasses => cases ha
    · rfl
    · rw [hp]
  rw [todo, hahead, hbatches, todo]

theorem claim_todo {w : WorkerId} {locked : ℕ → Bool} {scan : ScanOrder}
    (hs : (seeded cfg).step s (.claim w locked scan) t) :
    todo s w = s.ahead w ∧ todo t w = (s.ahead w).tail := by
  obtain ⟨⟨a, ha, hbatch⟩, rfl⟩ := hs
  obtain ⟨row, hrow, rfl⟩ := Option.map_eq_some_iff.mp ha
  have hahead : (next cfg s (.claim w locked scan)).ahead w =
      if ((next cfg s (.claim w locked scan)).pipeline.batches w).isSome then s.ahead w
      else (s.ahead w).tail := Function.update_self _ _ _
  constructor
  · rw [todo, Option.isNone_iff_eq_none.mp hbatch]
    rfl
  · rw [todo, hahead]
    split
    · rfl
    · rfl

/-- What a worker has yet to claim on gets shorter from the front, or is read anew. -/
theorem step_todo (hs : (seeded cfg).step s e t) (w : WorkerId) :
    todo t w <:+ todo s w ∨ todo t w = s.running := by
  by_cases hw : holder e = some w
  · cases e with
    | readRows v =>
      obtain rfl := Option.some.inj hw
      obtain ⟨hen, rfl⟩ := hs
      have hahead : (next cfg s (.readRows v)).ahead v = s.running := Function.update_self _ _ _
      have hbatches : (next cfg s (.readRows v)).pipeline.batches v = none :=
        Option.isNone_iff_eq_none.mp hen
      right
      rw [todo, hbatches, hahead]
      rfl
    | claim v locked scan =>
      obtain rfl := Option.some.inj hw
      obtain ⟨hold, hnew⟩ := claim_todo hs
      rw [hold, hnew]
      exact Or.inl (List.tail_suffix _)
    | complete v results =>
      obtain rfl := Option.some.inj hw
      obtain ⟨hen, rfl⟩ := hs
      obtain ⟨a, ha, hbatch⟩ := id hen
      have hact : DeliveryPipeline.Step cfg s.pipeline a
        (next cfg s (.complete v results)).pipeline := acts hen ha
      obtain ⟨row, hrow, rfl⟩ := Option.map_eq_some_iff.mp ha
      obtain ⟨l, hl, -⟩ := (Option.any_eq_true _ _).mp hbatch
      have hahead : (next cfg s (.complete v results)).ahead v = (s.ahead v).tail :=
        Function.update_self _ _ _
      have hnone : (next cfg s (.complete v results)).pipeline.batches v = none := by
        rw [hact.2]
        exact Function.update_self _ _ _
      left
      rw [todo, hahead, hnone, todo, hl]
      exact List.suffix_rfl
    | abandon v =>
      obtain rfl := Option.some.inj hw
      obtain ⟨-, rfl⟩ := hs
      have hahead : (next cfg s (.abandon v)).ahead v = [] := Function.update_self _ _ _
      left
      rw [todo, hahead, List.tail_nil, ite_self]
      exact List.nil_suffix
    | tick | patch | ingest | readPasses | beginPass | statement | endPass => cases hw
  · rw [todo_kept hs hw]
    exact Or.inl List.suffix_rfl

theorem step_visits (h : Stopped σ s) (hs : (seeded cfg).step s e t) (w : WorkerId) :
    visits σ t w ≤ visits σ s w := by
  rcases step_todo hs w with hsuf | hrun
  · exact hsuf.sublist.countP_le
  · have hnone : visits σ t w = 0 := by
      rw [visits, hrun, List.countP_eq_zero]
      intro sim hm hid
      obtain ⟨hm, hst⟩ := List.mem_filter.mp hm
      exact h sim hm (beq_iff_eq.mp hid) (of_decide_eq_true hst)
    rw [hnone]
    exact Nat.zero_le _

theorem step_spent (hsort : Sorted cfg s) (h : Stopped σ s)
    (hs : (seeded cfg).step s e t) (w : WorkerId) :
    attemptsBy σ w t.db + cfg.workerBatchSize * visits σ t w ≤
      attemptsBy σ w s.db + cfg.workerBatchSize * visits σ s w := by
  have hvisits := Nat.mul_le_mul_left cfg.workerBatchSize (step_visits h hs w)
  rcases step_cases hs with ⟨a, ha, hact⟩ | ⟨id, body, -, hp⟩ | hp
  · rcases step_attempts (σ := σ) hsort.framed.invariant hact w with
      hle | ⟨now, locked, scan, rfl, hle⟩
    · exact Nat.add_le_add hle hvisits
    · obtain ⟨row, hrow, rfl, -, rfl⟩ := claim_of_action ha
      obtain ⟨hold, hnew⟩ := claim_todo hs
      have hone : visits row.id s w = visits row.id t w + 1 := by
        obtain ⟨rest, hrest⟩ := List.head?_eq_some_iff.mp hrow
        rw [visits, visits, hold, hnew, hrest, List.countP_cons, List.tail_cons,
          if_pos (beq_self_eq_true _)]
      rw [hone, Nat.mul_add, Nat.mul_one]
      calc _ ≤ attemptsBy row.id w s.db + cfg.workerBatchSize +
            cfg.workerBatchSize * visits row.id t w := Nat.add_le_add_right hle _
        _ = _ := by rw [Nat.add_right_comm, Nat.add_assoc]
  · have hsame : attemptsBy σ w t.db = attemptsBy σ w s.db := by
      rw [State.db, hp]
      rfl
    rw [hsame]
    exact Nat.add_le_add_left hvisits _
  · have hsame : attemptsBy σ w t.db = attemptsBy σ w s.db := by
      rw [State.db, hp]
      rfl
    rw [hsame]
    exact Nat.add_le_add_left hvisits _

theorem visits_le_one (h : Sorted cfg s) (w : WorkerId) : visits σ s w ≤ 1 := by
  have hsub : List.Sublist (todo s w) (s.ahead w) := by
    rw [todo]
    split
    · exact List.tail_sublist _
    · exact .refl _
  have hids : ((todo s w).map Simulation.id).Nodup := (h.distinct w).sublist (hsub.map _)
  have hcount := List.nodup_iff_count_le_one.mp hids σ
  rwa [List.count, List.countP_map] at hcount

/-- From a state on in which a simulation is paused or done, and until a request sets it running: a
worker makes one more claim on it at most, and none if it did not read the row while it ran. -/
theorem pause_settles (cfg : Settings) (σ : SimulationId) (hs : (seeded cfg).Reachable s)
    (hstop : Stopped σ s) (hx : ((seeded cfg).restrict fun _ e => Unresumed σ e).Execution s t) :
    Stopped σ t ∧ ∀ w, visits σ t w ≤ visits σ s w ∧ visits σ s w ≤ 1 ∧
      attemptsBy σ w t.db ≤ attemptsBy σ w s.db + cfg.workerBatchSize * visits σ s w := by
  have hrun : (seeded cfg).Reachable t ∧ Stopped σ t ∧ ∀ w, visits σ t w ≤ visits σ s w ∧
      attemptsBy σ w t.db + cfg.workerBatchSize * visits σ t w ≤
        attemptsBy σ w s.db + cfg.workerBatchSize * visits σ s w := by
    induction hx with
    | refl => exact ⟨hs, hstop, fun w => ⟨le_rfl, le_rfl⟩⟩
    | tail _ he ih =>
      obtain ⟨e, hc, he⟩ := he
      obtain ⟨hr, hstop, hall⟩ := ih
      have hsort := reachable_sorted hr
      refine ⟨hr.tail he, step_stopped hsort hstop hc he, fun w => ?_⟩
      obtain ⟨hv, hsum⟩ := hall w
      exact ⟨(step_visits hstop he w).trans hv, (step_spent hsort hstop he w).trans hsum⟩
  obtain ⟨-, hstop', hall⟩ := hrun
  refine ⟨hstop', fun w => ?_⟩
  obtain ⟨hv, hsum⟩ := hall w
  exact ⟨hv, visits_le_one (reachable_sorted hs) w, (Nat.le_add_right _ _).trans hsum⟩

end Settling

section Freezing

variable {cfg : Settings} {σ : SimulationId} {s t : State} {e : Event}

/-- No request is about the simulation, and nothing is ingested into it. The producer starts on what
it reads as running, so on none that is stopped. -/
def Calm (σ : SimulationId) : Event → Prop
  | .patch id _ => id ≠ σ
  | .ingest id _ _ => id ≠ σ
  | _ => True

instance (σ : SimulationId) : DecidablePred (Calm σ)
  | .patch id _ => inferInstanceAs (Decidable (id ≠ σ))
  | .ingest id _ _ => inferInstanceAs (Decidable (id ≠ σ))
  | .tick _ | .readRows _ | .claim .. | .complete .. | .abandon _ | .readPasses
  | .beginPass .. | .statement | .endPass => inferInstanceAs (Decidable True)

/-- The simulation does not run, and nobody has a row, a batch or a pass of it in hand. -/
structure Still (σ : SimulationId) (s : State) : Prop where
  stopped : Stopped σ s
  visits : ∀ w, visits σ s w = 0
  passes : ∀ sim ∈ s.passes, sim.id ≠ σ
  idle : Idle σ s.pipeline

theorem Calm.unresumed (h : Calm σ e) : Unresumed σ e := by
  cases e with
  | patch id body => exact fun hid => absurd hid h
  | tick | ingest | readRows | claim | complete | abandon | readPasses | beginPass | statement
  | endPass => trivial

theorem Still.no_claim (h : Still σ s) {w : WorkerId} {row : Simulation}
    (hrow : (s.ahead w).head? = some row) (hnone : todo s w = s.ahead w) : row.id ≠ σ := by
  have hv := h.visits w
  rw [PausedRuns.visits, hnone, List.countP_eq_zero] at hv
  intro hid
  exact hv row (List.mem_of_mem_head? hrow) (beq_iff_eq.mpr hid)

/-- What is done while nobody is on the simulation is done elsewhere. -/
theorem Still.aside (h : Still σ s) (hc : Calm σ e) (hs : (seeded cfg).step s e t)
    {a : DeliveryPipeline.Action} (ha : actionOf s e = some a) : ¬ ActsOn σ s.pipeline a := by
  intro hon
  rcases h.idle.acts hon with ⟨now, specs, rfl⟩ | ⟨w, now, locked, scan, rfl⟩
  · cases e with
    | ingest id now specs =>
      obtain rfl := (DeliveryPipeline.Action.ingest.inj (Option.some.inj ha)).1
      exact hc rfl
    | claim | complete | beginPass =>
      obtain ⟨row, -, h⟩ := Option.map_eq_some_iff.mp ha
      cases h
    | abandon | statement | endPass => cases Option.some.inj ha
    | tick | patch | readRows | readPasses => cases ha
  · obtain ⟨row, hrow, hid, -, rfl⟩ := claim_of_action ha
    exact h.no_claim hrow (claim_todo hs).1 hid

theorem slice_patchRows {id : SimulationId} (hne : id ≠ σ) (body : SimulationPatch) (wall : ℚ)
    (db : Db) : slice σ (patchRows id body wall db) = slice σ db := by
  have hrows : (patchRows id body wall db).simulations.filter (fun x => x.id == σ) =
      db.simulations.filter fun x => x.id == σ := by
    apply filter_map_aside (g := Simulation.id)
    intro x _
    by_cases hx : x.id = id
    · rw [if_pos hx, patched_id]
      exact Or.inr ⟨fun hσ => hne (hx.symm.trans hσ), fun hσ => hne (hx.symm.trans hσ)⟩
    · exact Or.inl (if_neg hx)
  exact congrArg (fun l => { slice σ db with simulations := l }) hrows

theorem step_slice (hsort : Sorted cfg s) (h : Still σ s) (hc : Calm σ e)
    (hs : (seeded cfg).step s e t) : slice σ t.db = slice σ s.db := by
  rw [State.db]
  rcases step_cases hs with ⟨a, ha, hact⟩ | ⟨id, body, rfl, hp⟩ | hp
  · exact step_aside hsort.framed hact (h.aside hc hs ha)
  · rw [hp]
    exact slice_patchRows hc body s.wall s.db
  · rw [hp]
    rfl

theorem step_still (hsort : Sorted cfg s) (h : Still σ s) (hc : Calm σ e)
    (hs : (seeded cfg).step s e t) : Still σ t := by
  refine ⟨step_stopped hsort h.stopped hc.unresumed hs, fun w => ?_, ?_, ?_⟩
  · exact Nat.le_zero.mp ((step_visits h.stopped hs w).trans (h.visits w).le)
  · obtain ⟨-, rfl⟩ := hs
    cases e with
    | readPasses =>
      intro sim hm hid
      obtain ⟨hm, hst⟩ := List.mem_filter.mp hm
      exact h.stopped sim hm hid (of_decide_eq_true hst)
    | beginPass => exact fun sim hm => h.passes sim (List.mem_of_mem_tail hm)
    | tick | patch | ingest | readRows | claim | complete | abandon | statement | endPass =>
      exact h.passes
  · rcases step_cases hs with ⟨a, ha, hact⟩ | ⟨id, body, -, hp⟩ | hp
    · refine step_idle hact h.idle (h.aside hc hs ha) fun i hi => ?_
      subst hi
      obtain ⟨last, locked, scan, row, -, hrow, rfl⟩ := beginPass_of_action ha
      exact h.passes row (List.mem_of_mem_head? hrow)
    · rw [hp]
      exact ⟨h.idle.batches, h.idle.pass⟩
    · rw [hp]
      exact h.idle

theorem row_slice (σ : SimulationId) (s : State) :
    s.row σ = (slice σ s.db).simulations.head? := by
  rw [State.row, slice, List.head?_filter]

theorem reading_stopped (h : Stopped σ s) :
    s.reading σ = (s.row σ).map fun sim => frozenAt (fromRow sim) := by
  rw [State.reading]
  apply Option.map_congr
  intro sim hm
  obtain ⟨hm, hid⟩ := mem_row hm
  exact nowAt_frozen (h sim hm hid)

/-- Once nobody has anything of it in hand, a simulation that is paused or done stays exactly as it
is, its clock included, while everything else goes on, until a request is about it. -/
theorem paused_frozen (cfg : Settings) (σ : SimulationId) (hs : (seeded cfg).Reachable s)
    (h : Still σ s) (hx : ((seeded cfg).restrict fun _ e => Calm σ e).Execution s t) :
    slice σ t.db = slice σ s.db ∧ t.reading σ = s.reading σ ∧ Still σ t := by
  have hrun : (seeded cfg).Reachable t ∧ slice σ t.db = slice σ s.db ∧ Still σ t := by
    induction hx with
    | refl => exact ⟨hs, rfl, h⟩
    | tail _ he ih =>
      obtain ⟨e, hc, he⟩ := he
      obtain ⟨hr, hslice, hstill⟩ := ih
      have hsort := reachable_sorted hr
      exact ⟨hr.tail he, (step_slice hsort hstill hc he).trans hslice,
        step_still hsort hstill hc he⟩
  obtain ⟨-, hslice, hstill⟩ := hrun
  refine ⟨hslice, ?_, hstill⟩
  rw [reading_stopped hstill.stopped, reading_stopped h.stopped, row_slice, row_slice, hslice]

end Freezing

section Once

open DeliveryPipeline (soleConsumer)

theorem begun_seeded : Seeded shipped begun := by
  refine ⟨begun_initial, by decide, ?_⟩
  intro x hx
  obtain rfl := List.mem_singleton.mp hx
  exact ⟨_, List.mem_singleton.mpr rfl, rfl, rfl⟩

def pauseIt : Event := .patch 1 { status := some .paused }

def pausedAhead : List Event := admission ++ [.readRows 7, pauseIt]

def settling : List Event :=
  [claim, .complete 7 [⟨.ok, some 200⟩], .readRows 7, .readPasses, .tick 100]

structure Standing where
  statuses : List (SimulationId × SimStatus)
  visits : ℕ
  attempts : ℕ
  deriving DecidableEq

def standing (s : State) : Standing where
  statuses := s.db.simulations.map fun sim => (sim.id, sim.status)
  visits := visits 1 s 7
  attempts := attemptsBy 1 7 s.db

theorem stopped_of_standing {s : State} {v a : ℕ} (h : standing s = ⟨[(1, .paused)], v, a⟩) :
    Stopped 1 s ∧ visits 1 s 7 = v ∧ attemptsBy 1 7 s.db = a := by
  obtain ⟨hrows, hv, ha⟩ := Standing.mk.inj h
  refine ⟨fun sim hm _ => ?_, hv, ha⟩
  have hmem := List.mem_map_of_mem (f := fun sim : Simulation => (sim.id, sim.status)) hm
  rw [hrows] at hmem
  obtain ⟨-, hst⟩ := Prod.mk.inj (List.mem_singleton.mp hmem)
  rw [hst]
  exact fun h => nomatch h

/-- The attempt that is made after the pause is the one that was in hand. -/
theorem pause_settles_late : ∃ s t, (seeded shipped).Reachable s ∧ Stopped 1 s ∧
    ((seeded shipped).restrict fun _ e => Unresumed 1 e).Execution s t ∧
    attemptsBy 1 7 s.db = 0 ∧ attemptsBy 1 7 t.db = 1 ∧
    attemptsBy 1 7 t.db ≤ 0 + shipped.workerBatchSize * 1 := by
  have hpaused : (runList Allowed (next shipped) begun pausedAhead).map standing =
      some ⟨[(1, .paused)], 1, 0⟩ := by decide +kernel
  obtain ⟨s, hs, hst⟩ := Option.map_eq_some_iff.mp hpaused
  obtain ⟨hstop, hv, ha⟩ := stopped_of_standing hst
  have hlate : ((runList Allowed (next shipped) begun pausedAhead).bind fun s =>
      runList (fun s e => Unresumed 1 e ∧ Allowed s e) (next shipped) s settling).map standing =
        some ⟨[(1, .paused)], 0, 1⟩ := by decide +kernel
  obtain ⟨t, ht, htt⟩ := Option.map_eq_some_iff.mp hlate
  rw [hs, Option.bind_some] at ht
  obtain ⟨-, -, hat⟩ := stopped_of_standing htt
  have hr : (seeded shipped).Reachable s := ⟨begun, begun_seeded, runList_execution _ _ _ hs⟩
  have hx : ((seeded shipped).restrict fun _ e => Unresumed 1 e).Execution s t :=
    runList_restricted _ _ _ ht
  obtain ⟨-, hall⟩ := pause_settles shipped 1 hr hstop hx
  obtain ⟨-, -, hle⟩ := hall 7
  rw [ha, hv] at hle
  exact ⟨s, t, hr, hstop, hx, ha, hat, hle⟩

def pair : State :=
  ⟨DeliveryPipeline.initial soleConsumer [slowRow, { slowRow with id := 2 }], 0, fun _ => [], [],
    fun _ => none⟩

theorem pair_seeded : Seeded shipped pair := by
  refine ⟨⟨soleConsumer, _, rfl, rfl, rfl, fun sim hm => ?_⟩, by decide, fun x hx => ?_⟩
  · rcases List.mem_pair.mp hm with rfl | rfl
    · exact ⟨1, oneToOne, 0, by decide +kernel⟩
    · exact ⟨2, oneToOne, 0, by decide +kernel⟩
  · obtain rfl := List.mem_singleton.mp hx
    exact ⟨_, List.mem_singleton.mpr rfl, rfl, rfl⟩

def pausedPair : State := next shipped pair pauseIt

theorem pausedPair_still : Still 1 pausedPair := by
  refine ⟨?_, fun w => rfl, fun _ h => (nomatch h), ⟨fun _ _ h => (nomatch h),
    fun _ _ h => nomatch h⟩⟩
  show ∀ sim ∈ pausedPair.pipeline.db.simulations, sim.id = 1 → sim.status ≠ .running
  decide +kernel

def elsewhere : List Event :=
  [.ingest 2 0 [⟨"patient.updated", "chart", none⟩], .tick 100, .readRows 7, claim, .readPasses,
    beginPass] ++ List.replicate 20 .statement ++ [.endPass]

theorem paused_frozen_pair : ∃ t,
    ((seeded shipped).restrict fun _ e => Calm 1 e).Execution pausedPair t ∧
    t.reading 2 = some 100 ∧ t.reading 1 = some 0 := by
  have hrun : (runList (fun s e => Calm 1 e ∧ Allowed s e) (next shipped) pausedPair
      elsewhere).map (fun t => t.reading 2) = some (some 100) := by decide +kernel
  obtain ⟨t, ht, hread⟩ := Option.map_eq_some_iff.mp hrun
  have hr : (seeded shipped).Reachable pausedPair :=
    (System.Reachable.initial pair_seeded).tail (e := pauseIt) ⟨by decide +kernel, rfl⟩
  have hx : ((seeded shipped).restrict fun _ e => Calm 1 e).Execution pausedPair t :=
    runList_restricted _ _ _ ht
  obtain ⟨-, hsame, -⟩ := paused_frozen shipped 1 hr pausedPair_still hx
  exact ⟨t, hx, hread, hsame.trans (by decide +kernel)⟩

end Once

end PausedRuns
