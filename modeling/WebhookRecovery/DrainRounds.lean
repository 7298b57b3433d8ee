import WebhookRecovery.BoundedResponse
import WebhookRecovery.ReadPlane
import WebhookRecovery.RestedBacklog

/-! Nothing waits for ever. Ingest, workers and passes interleave as they like; workers die, passes
are rolled back, clocks are read early and used late. As long as a whole pass over a simulation and
a claim of its deliveries go through now and then, its backlog drains, within a time that is known
beforehand. -/
namespace DrainRounds

open KeyedTables RecoverySchema InterleavedPrograms CheckedPrograms MetricsSeries WorkerClaim
open LeaseReaper ConductorPass DeliveryPipeline PassStages SimulationSlices PassIsolation
open ConsistentRows DeliveryFile PipelineInvariant BoundedWork SimulationFrames RestedBacklog
open BoundedResponse

/-- The pipeline beside the virtual clock of one simulation. A round is over when it has seen a
pass begin and come to its end, and a claim. -/
structure State where
  pipe : DeliveryPipeline.State
  clock : ℚ
  round : ℚ
  walking : Bool
  passed : Bool
  claimed : Bool

inductive Event where
  | elapse (d : ℚ)
  | act (a : Action)
  | turn

section Model

variable (cfg : Settings) (σ : SimulationId) (span : ℚ)

def Unlocked (locked : ℕ → Bool) (db : Db) : Prop :=
  ∀ d ∈ db.deliveries.rows, d.simulationId = σ → locked d.id = false

instance (locked : ℕ → Bool) (db : Db) : Decidable (Unlocked σ locked db) :=
  inferInstanceAs (Decidable (∀ d ∈ db.deliveries.rows, d.simulationId = σ → locked d.id = false))

def Counts (s : State) (i : PassInput) : Prop :=
  i.simulationId = σ ∧ s.round ≤ i.now ∧ Flowing cfg i ∧ Unlocked σ i.locked s.pipe.db

instance (s : State) (i : PassInput) : Decidable (Counts cfg σ s i) :=
  inferInstanceAs (Decidable (i.simulationId = σ ∧ s.round ≤ i.now ∧ Flowing cfg i ∧
    Unlocked σ i.locked s.pipe.db))

def atEnd (s : DeliveryPipeline.State) : Bool :=
  match s.conductor with
  | some (_, .ret _) => true
  | _ => false

def walkingAfter (s : State) : Action → Bool
  | .beginPass i => decide (Counts cfg σ s i)
  | .endPass => false
  | _ => s.walking

def passedAfter (s : State) : Action → Bool
  | .endPass => s.passed || s.walking && atEnd s.pipe
  | _ => s.passed

def claimedAfter (s : State) : Action → Bool
  | .claim _ i _ locked _ => s.claimed || decide (i = σ ∧ Unlocked σ locked s.pipe.db)
  | _ => s.claimed

def Enabled (s : State) : Event → Prop
  | .elapse d => 0 ≤ d
  | .act a => DeliveryPipeline.Enabled s.pipe a ∧ Timely σ s.clock s.pipe a
  | .turn => s.passed ∧ s.claimed

instance (s : State) : DecidablePred (Enabled σ s)
  | .elapse d => inferInstanceAs (Decidable (0 ≤ d))
  | .act a => inferInstanceAs
    (Decidable (DeliveryPipeline.Enabled s.pipe a ∧ Timely σ s.clock s.pipe a))
  | .turn => inferInstanceAs (Decidable (s.passed = true ∧ s.claimed = true))

def next (s : State) : Event → State
  | .elapse d => { s with clock := s.clock + d }
  | .act a =>
    { s with
      pipe := DeliveryPipeline.next cfg s.pipe a
      walking := walkingAfter cfg σ s a
      passed := passedAfter s a
      claimed := claimedAfter σ s a }
  | .turn => { s with round := s.clock, walking := false, passed := false, claimed := false }

def initial (cast : Cast) (simulations : List Simulation) (clock : ℚ) : State :=
  ⟨DeliveryPipeline.initial cast simulations, clock, clock, false, false, false⟩

def Initial (s : State) : Prop :=
  ∃ cast simulations clock, s = initial cast simulations clock ∧ OwnSubscriptions cast ∧
    (simulations.map Simulation.id).Nodup ∧ ∀ x ∈ simulations, 0 < x.speedMultiplier

def system : System State Event := .guarded Initial (Enabled σ) (next cfg σ)

/-- The producer has stopped, and no round lasts longer than its span. -/
def Punctual (s : State) : Event → Prop
  | .elapse d => s.clock + d ≤ s.round + span
  | .act (.ingest i _ _) => i ≠ σ
  | _ => True

instance (s : State) : DecidablePred (Punctual σ span s)
  | .elapse d => inferInstanceAs (Decidable (s.clock + d ≤ s.round + span))
  | .act (.ingest i _ _) => inferInstanceAs (Decidable (i ≠ σ))
  | .act (.claim ..) | .act (.complete ..) | .act (.abandon _) | .act (.beginPass _)
  | .act .statement | .act .endPass | .turn => inferInstanceAs (Decidable True)

def draining : System State Event := (system cfg σ).restrict (Punctual σ span)

end Model

/-- What is left of an idle pass, amid steps that leave its simulation alone, leads where the pass
alone would have led: it has moved something by its end. -/
def Halfway (cfg : Settings) (i : PassInput) (p : Program Db Unit) (db : Db) : Prop :=
  Local (Alike i.simulationId) p ∧ ∃ u v, Alike i.simulationId u db ∧ p.run u = (pass cfg i).run v ∧
    Consistent v ∧ IdlePass.Moves cfg i v ∧ (slice i.simulationId v).deliveries =
      (slice i.simulationId db).deliveries

section Walks

variable {cfg : Settings} {i : PassInput} {p : Program Db Unit} {db db' : Db}

theorem halfway_begin (hc : Consistent db) (hm : IdlePass.Moves cfg i db) :
    Halfway cfg i (pass cfg i) db :=
  ⟨pass_local cfg i, db, db, ⟨rfl, hc, hc⟩, rfl, hc, hm, rfl⟩

theorem Halfway.env (h : Halfway cfg i p db) (ha : Alike i.simulationId db db') :
    Halfway cfg i p db' := by
  obtain ⟨hp, u, v, hu, hrun, hv, hm, hrows⟩ := h
  exact ⟨hp, u, v, hu.trans ha, hrun, hv, hm,
    hrows.trans (congrArg Slice.deliveries ha.rows)⟩

theorem Halfway.statement {w : Db → Db} {k : Db → Program Db Unit}
    (h : Halfway cfg i (.stmt w k) db) (hs : Still i.simulationId db (w db)) :
    Halfway cfg i (k db) (w db) := by
  obtain ⟨hp, u, v, hu, hrun, hv, hm, hrows⟩ := h
  obtain ⟨hw, hk, hrest⟩ := hp u db hu
  refine ⟨hk ▸ hrest, w u, v, hw, ?_, hv, hm, hrows.trans hs.1.symm⟩
  rw [← hk]
  exact hrun

theorem Halfway.ends {a : Unit} (h : Halfway cfg i (.ret a) db) : False := by
  obtain ⟨-, u, v, hu, hrun, hv, hm, hrows⟩ := h
  have hend : u = ((pass cfg i).run v).2 := congrArg Prod.snd hrun
  apply moved_slice hv hm
  rw [← hend, hrows]
  exact congrArg Slice.deliveries hu.rows

theorem pass_first {w : Db → Db} {k : Db → Program Db Unit} (h : .stmt w k = pass cfg i) :
    w = reclaimExpiredLeases cfg i.simulationId i.now i.locked := by
  rw [pass_stages] at h
  exact (Program.stmt.inj h).1

end Walks

/-- A pass that counts is at its beginning, or has found nothing to reclaim and is on its way. -/
structure Walk (cfg : Settings) (σ : SimulationId) (h : ℚ) (i : PassInput) (p : Program Db Unit)
    (db : Db) : Prop where
  own : i.simulationId = σ
  late : h < i.now
  flowing : Flowing cfg i
  unlocked : Unlocked σ i.locked db
  stage : p = pass cfg i ∨ Halfway cfg i p db

def NoneReady (σ : SimulationId) (db : Db) : Prop :=
  ∀ d ∈ db.deliveries.rows, d.simulationId = σ → d.state ≠ .ready

/-- What a round has shown that began with every wait over, if nothing has been done in it: after
a claim nothing was ready, and after a pass something was. -/
structure Shown (cfg : Settings) (σ : SimulationId) (h : ℚ) (s : State) : Prop where
  claimed : s.claimed → NoneReady σ s.pipe.db
  passed : s.passed → ¬ NoneReady σ s.pipe.db
  walking : s.walking → NoneReady σ s.pipe.db →
    ∃ i p, s.pipe.conductor = some (i, p) ∧ Walk cfg σ h i p s.pipe.db

structure Good (cfg : Settings) (σ : SimulationId) (h : ℚ) (s : State) : Prop where
  framed : Framed cfg s.pipe
  served : Served cfg σ s.pipe.db.cast
  ordered : s.round ≤ s.clock
  reached : ∀ i p, s.pipe.conductor = some (i, p) → i.simulationId = σ → i.now ≤ s.clock
  rested : Rested cfg σ h s.pipe.db
  shown : h < s.round → 0 < outstanding cfg σ s.pipe.db → Shown cfg σ h s

section Steps

variable {cfg : Settings} {σ : SimulationId} {span h : ℚ} {s t : State} {e : Event} {a : Action}
variable {u v : DeliveryPipeline.State}

theorem shown_nothing (hw : s.walking = false) (hp : s.passed = false) (hc : s.claimed = false) :
    Shown cfg σ h s := by
  constructor
  · intro hf
    rw [hc] at hf
    cases hf
  · intro hf
    rw [hp] at hf
    cases hf
  · intro hf
    rw [hw] at hf
    cases hf

theorem still_unlocked {x y : Db} {locked : ℕ → Bool} (hs : Still σ x y)
    (hu : Unlocked σ locked x) : Unlocked σ locked y :=
  fun d hd hσ => hu d ((hs.delivery hσ).mp hd) hσ

theorem still_noneReady {x y : Db} (hs : Still σ x y) : NoneReady σ y ↔ NoneReady σ x :=
  forall_congr' fun _ => ⟨fun h hd hσ => h ((hs.delivery hσ).mpr hd) hσ,
    fun h hd hσ => h ((hs.delivery hσ).mp hd) hσ⟩

theorem env_alike (hf : Framed cfg u) (hs : Step cfg u a v) (he : a ≠ .statement)
    (hq : ∀ i now specs, a = .ingest i now specs → i ≠ σ) (hstill : Still σ u.db v.db) :
    Alike σ u.db v.db := by
  refine ⟨?_, hf.kept.rows, (step_framed hf hs).kept.rows⟩
  obtain ⟨-, rfl⟩ := hs
  cases a with
  | ingest i now specs => exact (ingest_aside (hq i now specs rfl) specs).symm
  | claim | complete =>
    apply Eq.symm
    exact slice_of_parts rfl rfl rfl rfl hstill.1 hstill.2
  | statement => exact absurd rfl he
  | abandon | beginPass | endPass => rfl

/-- In a rested simulation with work left, a pass that counts goes on, or does something. -/
theorem walk_statement (hw : Workable cfg) (hf : Framed cfg u) (hr : Rested cfg σ h u.db)
    (hs : Served cfg σ u.db.cast) (hwork : 0 < outstanding cfg σ u.db) (hn : NoneReady σ u.db)
    {i : PassInput} {w : Db → Db} {k : Db → Program Db Unit}
    (hwalk : Walk cfg σ h i (.stmt w k) u.db) (hstill : Still σ u.db (w u.db)) :
    Walk cfg σ h i (k u.db) (w u.db) := by
  obtain ⟨rfl, hlate, hflow, hfree, hstage⟩ := hwalk
  have hc := hf.kept.rows
  have hhalf : Halfway cfg i (.stmt w k) u.db := by
    rcases hstage with hfirst | hhalf
    · obtain rfl := pass_first hfirst
      have hactive := (outstanding_pos hf.invariant.files).mp hwork
      have hqueued : ∀ d ∈ u.db.deliveries.rows, d.simulationId = i.simulationId →
          d.state ≠ .ready ∧ d.state ≠ .inFlight := fun d hd hσ => ⟨hn d hd hσ, fun hflight =>
        reclaim_moves hc hf.invariant.files hr hlate hd hσ hflight (hfree d hd hσ) hstill⟩
      have hidle := idle_of_rested hr hlate hactive hqueued
      rw [hfirst]
      exact halfway_begin hc (idle_moves hw hc hidle (open_of_active hflow hactive) hflow hs)
    · exact hhalf
  exact ⟨rfl, hlate, hflow, still_unlocked hstill hfree, Or.inr (hhalf.statement hstill)⟩

theorem step_walk (hw : Workable cfg) (hf : Framed cfg u) (hr : Rested cfg σ h u.db)
    (hserved : Served cfg σ u.db.cast) (hwork : 0 < outstanding cfg σ u.db)
    (hn : NoneReady σ u.db) (hs : Step cfg u a v)
    (hq : ∀ i now specs, a = .ingest i now specs → i ≠ σ) (hstill : Still σ u.db v.db)
    (hwalk : ∃ i p, u.conductor = some (i, p) ∧ Walk cfg σ h i p u.db)
    (hbegin : ∀ i, a ≠ .beginPass i) (hend : a ≠ .endPass) :
    ∃ i p, v.conductor = some (i, p) ∧ Walk cfg σ h i p v.db := by
  obtain ⟨i, p, hc, hwalk⟩ := hwalk
  by_cases he : a = .statement
  · subst he
    obtain ⟨-, rfl⟩ := hs
    cases p with
    | ret x =>
      have hnext : DeliveryPipeline.next cfg u .statement = u := by
        simp only [DeliveryPipeline.next, hc]
      rw [hnext]
      exact ⟨i, _, hc, hwalk⟩
    | stmt w k =>
      rw [next_statement hc] at hstill ⊢
      exact ⟨i, _, rfl, walk_statement hw hf hr hserved hwork hn hwalk hstill⟩
  · have halike := env_alike hf hs he hq hstill
    have hkept : v.conductor = u.conductor := by
      obtain ⟨-, rfl⟩ := hs
      cases a with
      | beginPass j => exact absurd rfl (hbegin j)
      | endPass => exact absurd rfl hend
      | statement => exact absurd rfl he
      | ingest | claim | complete | abandon => rfl
    refine ⟨i, p, hkept.trans hc, hwalk.own, hwalk.late, hwalk.flowing,
      still_unlocked hstill hwalk.unlocked, hwalk.stage.imp_right fun hhalf => hhalf.env ?_⟩
    rw [hwalk.own]
    exact halike

/-- What a late round has shown stays so while nothing is done. -/
theorem step_shown (hw : Workable cfg) (hg : Good cfg σ h s) (hlate : h < s.round)
    (hwork : 0 < outstanding cfg σ s.pipe.db) (hs : Step cfg s.pipe a (next cfg σ s (.act a)).pipe)
    (hq : ∀ i now specs, a = .ingest i now specs → i ≠ σ)
    (hstill : Still σ s.pipe.db (next cfg σ s (.act a)).pipe.db) :
    Shown cfg σ h (next cfg σ s (.act a)) := by
  obtain ⟨hclaimed, hpassed, hwalking⟩ := hg.shown hlate hwork
  have hready := still_noneReady hstill
  constructor
  · intro hflag
    rw [hready]
    have hflag : claimedAfter σ s a = true := hflag
    cases a with
    | claim w i now locked scan =>
      simp only [claimedAfter, Bool.or_eq_true, decide_eq_true_eq] at hflag
      rcases hflag with hflag | ⟨rfl, hfree⟩
      · exact hclaimed hflag
      · intro d hd hσ hst
        exact claim_moves hg.framed.kept.rows hw.batch hd hσ hst (hfree d hd hσ) hstill
    | ingest | complete | abandon | beginPass | statement | endPass => exact hclaimed hflag
  · intro hflag
    rw [hready]
    have hflag : passedAfter s a = true := hflag
    cases a with
    | endPass =>
      simp only [passedAfter, Bool.or_eq_true, Bool.and_eq_true] at hflag
      rcases hflag with hflag | ⟨hwalk, hend⟩
      · exact hpassed hflag
      · intro hn
        obtain ⟨i, p, hc, hwalk⟩ := hwalking hwalk hn
        rw [atEnd, hc] at hend
        cases p with
        | ret x =>
          rcases hwalk.stage with hfirst | hhalf
          · rw [pass_stages] at hfirst
            cases hfirst
          · exact hhalf.ends
        | stmt w k => cases hend
    | ingest | claim | complete | abandon | beginPass | statement => exact hpassed hflag
  · intro hflag hn
    rw [hready] at hn
    have hflag : walkingAfter cfg σ s a = true := hflag
    cases a with
    | beginPass i =>
      simp only [walkingAfter, decide_eq_true_eq] at hflag
      obtain ⟨hσ, hnow, hflow, hfree⟩ := hflag
      exact ⟨i, _, rfl, hσ, hlate.trans_le hnow, hflow, hfree, Or.inl rfl⟩
    | endPass => cases hflag
    | ingest | claim | complete | abandon | statement =>
      exact step_walk hw hg.framed hg.rested hg.served hwork hn hs hq hstill
        (hwalking hflag hn) (by simp) (by simp)

theorem step_served (hi : Invariant cfg u) (hs : Step cfg u a v) (h : Served cfg σ u.db.cast) :
    Served cfg σ v.db.cast := by
  rw [(step_effect hi hs).cast]
  exact h

theorem step_reached {clock : ℚ} (hs : Step cfg u a v) (ht : Timely σ clock u a)
    (h : ∀ i p, u.conductor = some (i, p) → i.simulationId = σ → i.now ≤ clock) :
    ∀ i p, v.conductor = some (i, p) → i.simulationId = σ → i.now ≤ clock := by
  intro i p hc hσ
  rcases step_conductor hs hc with ⟨q, hq⟩ | rfl
  · exact h i q hq hσ
  · exact ht hσ

def gauge (cfg : Settings) (σ : SimulationId) : Gauge State :=
  ⟨State.clock, State.round, fun s => outstanding cfg σ s.pipe.db⟩

/-- A step of the pipeline uses up some of what is outstanding, and the waits begin anew, or it
leaves the simulation as it was. -/
theorem act_good (hw : Workable cfg) (hg : Good cfg σ h s)
    (hs : Step cfg s.pipe a (next cfg σ s (.act a)).pipe) (ht : Timely σ s.clock s.pipe a)
    (hq : ∀ i now specs, a = .ingest i now specs → i ≠ σ) :
    ∃ h', Good cfg σ h' (next cfg σ s (.act a)) ∧
      Progress (gauge cfg σ) span (patience cfg) h s (next cfg σ s (.act a)) h' := by
  have hframed := step_framed hg.framed hs
  have hserved := step_served hg.framed.invariant hs hg.served
  have hreached := step_reached hs ht hg.reached
  rcases step_spends hg.framed hs hq with hless | hstill
  · have hrested := step_rested hg.framed hs ht hg.reached hw.patience_nonneg hg.rested
    refine ⟨_, ⟨hframed, hserved, hg.ordered, hreached, hrested, fun hlate => ?_⟩,
      .spend hless rfl rfl⟩
    -- the round under way began before the waits that begin now are over
    have hle : s.round ≤ s.clock + patience cfg :=
      hg.ordered.trans (le_add_of_nonneg_right hw.patience_nonneg)
    exact absurd hlate (not_lt.mpr (hle.trans (le_max_right _ _)))
  · have hsame : outstanding cfg σ (next cfg σ s (.act a)).pipe.db =
        outstanding cfg σ s.pipe.db := hstill.outstanding
    refine ⟨h, ⟨hframed, hserved, hg.ordered, hreached, hstill.rested hg.rested,
      fun hlate hwork => ?_⟩, .stay hsame rfl le_rfl (le_max_left _ _)⟩
    exact step_shown hw hg hlate (hsame ▸ hwork) hs hq hstill

theorem draining_good (hw : Workable cfg) (hg : Good cfg σ h s)
    (hs : (draining cfg σ span).step s e t) :
    ∃ h', Good cfg σ h' t ∧ Progress (gauge cfg σ) span (patience cfg) h s t h' := by
  obtain ⟨hpunctual, hen, rfl⟩ := hs
  cases e with
  | elapse d =>
    have hd : 0 ≤ d := hen
    have hle : s.clock ≤ s.clock + d := le_add_of_nonneg_right hd
    refine ⟨h, ⟨hg.framed, hg.served, hg.ordered.trans hle,
      fun i p hc hσ => (hg.reached i p hc hσ).trans hle, hg.rested, fun hlate hwork => ?_⟩,
      .stay rfl rfl hle (le_max_of_le_right hpunctual)⟩
    obtain ⟨hclaimed, hpassed, hwalking⟩ := hg.shown hlate hwork
    exact ⟨hclaimed, hpassed, hwalking⟩
  | act a =>
    refine act_good hw hg ⟨hen.1, rfl⟩ hen.2 fun i now specs ha => ?_
    subst ha
    exact hpunctual
  | turn =>
    refine ⟨h, ⟨hg.framed, hg.served, le_rfl, hg.reached, hg.rested,
      fun _ _ => shown_nothing rfl rfl rfl⟩, .turn rfl rfl rfl fun hlate => ?_⟩
    by_contra hwork
    have hshown := hg.shown hlate (Nat.pos_of_ne_zero hwork)
    exact hshown.passed hen.1 (hshown.claimed hen.2)

structure Timed (cfg : Settings) (σ : SimulationId) (s : State) : Prop where
  framed : Framed cfg s.pipe
  ordered : s.round ≤ s.clock
  reached : ∀ i p, s.pipe.conductor = some (i, p) → i.simulationId = σ → i.now ≤ s.clock
  rested : Rested cfg σ (s.clock + patience cfg) s.pipe.db

theorem reachable_timed (hw : Workable cfg) (h : (system cfg σ).Reachable s) : Timed cfg σ s := by
  apply h.invariant (P := Timed cfg σ)
  · rintro s ⟨cast, sims, clock, rfl, hsub, hsims, hspeed⟩
    refine ⟨initial_framed hsub hsims hspeed, le_rfl, fun i p hc => ?_, fun d hd => ?_,
      fun a ha => ?_⟩
    · cases hc
    · cases hd
    · cases ha
  · rintro s e t - hs ⟨hen, rfl⟩
    cases e with
    | elapse d =>
      have hd : 0 ≤ d := hen
      have hle : s.clock ≤ s.clock + d := le_add_of_nonneg_right hd
      exact ⟨hs.framed, hs.ordered.trans hle, fun i p hc hσ => (hs.reached i p hc hσ).trans hle,
        hs.rested.later (add_le_add hle le_rfl)⟩
    | act a =>
      have hstep : Step cfg s.pipe a (next cfg σ s (.act a)).pipe := ⟨hen.1, rfl⟩
      have hrested := step_rested hs.framed hstep hen.2 hs.reached hw.patience_nonneg hs.rested
      rw [max_self] at hrested
      exact ⟨step_framed hs.framed hstep, hs.ordered, step_reached hstep hen.2 hs.reached, hrested⟩
    | turn => exact ⟨hs.framed, le_rfl, hs.reached, hs.rested⟩

end Steps

section Runs

variable {cfg : Settings} {σ : SimulationId} {span : ℚ} {s t : State}

theorem outstanding_le {db : Db} (h : ∀ d ∈ db.deliveries.rows, Sound cfg (file db d)) :
    outstanding cfg σ db ≤ 3 * max 1 cfg.maxAttempts * totalBacklog (readGauges σ db) := by
  have hle : outstanding cfg σ db ≤ ((slice σ db).deliveries.map fun d =>
      if d.state.active then 3 * attemptCap cfg else 0).sum :=
    List.sum_le_sum fun d hd => changesLeft_le_active (h d (mem_slice_deliveries.mp hd).1)
  rw [TalliedRuns.sum_ite_const fun _ _ _ => rfl] at hle
  rw [ReadPlane.totalBacklog_eq]
  refine hle.trans (Nat.mul_le_mul_left _ (le_of_eq ?_))
  simp only [slice, List.countP_filter]
  exact List.countP_congr fun d _ => by rw [Bool.and_comm]

theorem ended_of_nothing {db : Db} (h : ∀ d ∈ db.deliveries.rows, Sound cfg (file db d))
    (hwork : outstanding cfg σ db = 0) : RetirementRace.Ended σ db := by
  intro d hd hσ
  by_contra hterm
  have hactive : d.state.active := by simpa [DeliveryState.terminal] using hterm
  have hpos := (outstanding_pos h).mpr ⟨d, hd, hσ, hactive⟩
  omega

/-- Once the producer has stopped, and while a pass that admits and a claim go through in each
span, the backlog of a simulation keeps draining: all of it has come to an end, or each change
that was made took no longer than the longest wait and two rounds. So it has all come to an end
after so much time for each attempt that its deliveries may still need, whatever else the fleet
does in between. -/
theorem backlog_drains (hw : Workable cfg) (hspan : 0 ≤ span) (hr : (system cfg σ).Reachable s)
    (hserved : Served cfg σ s.pipe.db.cast) (hx : (draining cfg σ span).Execution s t) :
    (RetirementRace.Ended σ t.pipe.db ∨ t.clock ≤ s.clock +
      ((outstanding cfg σ s.pipe.db : ℚ) - outstanding cfg σ t.pipe.db + 1) *
        (patience cfg + 2 * span)) ∧
    (s.clock + (3 * max 1 cfg.maxAttempts * totalBacklog (readGauges σ s.pipe.db) + 1 : ℕ) *
      (patience cfg + 2 * span) < t.clock → RetirementRace.Ended σ t.pipe.db) := by
  have hs := reachable_timed hw hr
  have ht := reachable_timed hw (hr.trans (System.restrict_execution hx))
  have hpos := hw.patience_nonneg
  have hle : s.clock ≤ s.clock + patience cfg := le_add_of_nonneg_right hpos
  have hgood : Good cfg σ (s.clock + patience cfg) s :=
    ⟨hs.framed, hserved, hs.ordered, hs.reached, hs.rested,
      fun hlate => absurd hlate (not_lt.mpr (hs.ordered.trans hle))⟩
  have hrun := response (m := gauge cfg σ) hspan hpos (fun _ _ hg => hg.ordered)
    (fun _ _ _ _ hg he => draining_good hw hg he) hgood hle hx
  have hdrain : RetirementRace.Ended σ t.pipe.db ∨ t.clock ≤ s.clock +
      ((outstanding cfg σ s.pipe.db : ℚ) - outstanding cfg σ t.pipe.db + 1) *
        (patience cfg + 2 * span) := by
    refine hrun.imp (ended_of_nothing ht.framed.invariant.files) fun hclock => ?_
    simp only [gauge] at hclock
    linarith
  refine ⟨hdrain, fun hlate => hdrain.resolve_right fun hclock => ?_⟩
  have hbound : (outstanding cfg σ s.pipe.db : ℚ) - outstanding cfg σ t.pipe.db + 1 ≤
      (3 * max 1 cfg.maxAttempts * totalBacklog (readGauges σ s.pipe.db) + 1 : ℕ) := by
    have hcast : (outstanding cfg σ s.pipe.db : ℚ) ≤
        (3 * max 1 cfg.maxAttempts * totalBacklog (readGauges σ s.pipe.db) : ℕ) := by
      exact_mod_cast outstanding_le hs.framed.invariant.files
    have hnn : (0 : ℚ) ≤ outstanding cfg σ t.pipe.db := Nat.cast_nonneg _
    push_cast at hcast ⊢
    linarith
  have hmul := mul_le_mul_of_nonneg_right hbound
    (show 0 ≤ patience cfg + 2 * span by linarith)
  linarith

end Runs

section Minutes

def singleTry : Settings := { maxAttempts := 1, metricsBucketVirtualS := 60 }

def posted : State := next singleTry 1 (initial soleConsumer [] 1)
  (.act (.ingest 1 1 [⟨"patient.updated", "chart", none⟩]))

def minute (now : ℚ) (answers : List Action) : List Event :=
  let walk : List Action := .beginPass { passAt now with outageOverride := some false } ::
    List.replicate 20 .statement ++ [.endPass, .claim 7 1 now (fun _ => false) .physical]
  .elapse 60 :: (walk ++ answers).map .act ++ [.turn]

def minutes : List Event := minute 61 [.complete 7 [⟨.ok, none⟩] 61] ++
  (List.range 12).flatMap fun k => minute (121 + 60 * k) []

theorem backlog_drains_in_minutes : ∃ s t, (system singleTry 1).Reachable s ∧
    (draining singleTry 1 60).Execution s t ∧ totalBacklog (readGauges 1 s.pipe.db) = 1 ∧
    s.clock + (3 * max 1 singleTry.maxAttempts * totalBacklog (readGauges 1 s.pipe.db) + 1 : ℕ) *
      (patience singleTry + 2 * 60) < t.clock ∧ RetirementRace.Ended 1 t.pipe.db := by
  have hs : (system singleTry 1).Reachable posted := by
    refine System.Reachable.tail (.initial ⟨soleConsumer, [], 1, rfl, ?_, .nil, ?_⟩)
      (e := .act (.ingest 1 1 [⟨"patient.updated", "chart", none⟩])) ⟨by decide, rfl⟩
    · unfold OwnSubscriptions
      decide
    · intro x hx
      cases hx
  have hrun : (runList (fun s e => Punctual 1 60 s e ∧ Enabled 1 s e) (next singleTry 1) posted
      minutes).map State.clock = some 781 := by decide +kernel
  obtain ⟨t, ht, hclock⟩ := Option.map_eq_some_iff.mp hrun
  have hx : (draining singleTry 1 60).Execution posted t := runList_restricted Initial _ _ ht
  have hone : totalBacklog (readGauges 1 posted.pipe.db) = 1 := by decide +kernel
  have hwork : Workable singleTry := by
    constructor <;> norm_num [singleTry]
  have hserved : Served singleTry 1 posted.pipe.db.cast := by
    unfold Served
    decide +kernel
  have hlate : posted.clock + (3 * max 1 singleTry.maxAttempts *
      totalBacklog (readGauges 1 posted.pipe.db) + 1 : ℕ) *
        (patience singleTry + 2 * 60) < t.clock := by
    rw [hone, hclock]
    decide +kernel
  exact ⟨posted, t, hs, hx, hone, hlate,
    (backlog_drains hwork (by norm_num) hs hserved hx).2 hlate⟩

end Minutes

end DrainRounds
