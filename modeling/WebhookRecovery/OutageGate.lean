import WebhookRecovery.PassWalk
import WebhookRecovery.PipelineInvariant

/-! The outage gate. While its passes find it in an outage a simulation is sent what is ready at
the start and no more, however long the outage and whoever ingests, claims, dies and reclaims. -/
namespace OutageGate

open KeyedTables RecoverySchema InterleavedPrograms DeliveryPolicy DeliveryAdmission WorkerClaim
open LeaseReaper ConductorPass DeliveryPipeline QueueUsage PassGuarantee PassWalk
open PipelineInvariant

def Within (σ : SimulationId) (q : Scope) : Prop := ∀ i c, q i c = true → i = σ

structure Shut (σ : SimulationId) (s t : Db) : Prop where
  pending : ∀ d ∈ s.deliveries.rows, d.simulationId = σ → d.state = .pending →
    d ∈ t.deliveries.rows
  ready : ∀ q, Within σ q → readyIn q t ≤ readyIn q s
  usage : ∀ q since, Within σ q → usage q since t ≤ usage q since s

def InOutage (σ : SimulationId) (i : PassInput) : Prop :=
  i.simulationId = σ → isOutage i.elapsed i.outageOverride = true

section Passes

variable {cfg : Settings} {σ : SimulationId} {i : PassInput} {s t u : Db}

theorem Shut.refl : Shut σ s s := ⟨fun _ h _ _ => h, fun _ _ => le_rfl, fun _ _ _ => le_rfl⟩

theorem shut_retire {τ : SimulationId} {now : ℚ} : Shut σ s (retire τ now s) :=
  ⟨fun _ h _ _ => h, fun _ _ => le_rfl, fun _ _ _ => le_rfl⟩

theorem Shut.trans (h : Shut σ s t) (k : Shut σ t u) : Shut σ s u where
  pending d hd hs hp := k.pending d (h.pending d hd hs hp) hs hp
  ready q hq := (k.ready q hq).trans (h.ready q hq)
  usage q since hq := (k.usage q since hq).trans (h.usage q since hq)

theorem shut_of_evolves (h : Evolves s t) : Shut σ s t :=
  ⟨fun d hd _ hp => h.pending d hd hp, fun q _ => h.ready q, fun q since _ => h.usage q since⟩

theorem shut_of_others {f : Delivery → Delivery} (ha : t.attempts = s.attempts)
    (hf : t.deliveries.rows = s.deliveries.rows.map f)
    (h : ∀ d ∈ s.deliveries.rows,
      f d = d ∨ d.simulationId ≠ σ ∧ (f d).simulationId = d.simulationId) : Shut σ s t := by
  have hready : ∀ q, Within σ q → readyIn q t ≤ readyIn q s := by
    intro q hq
    rw [readyIn, hf, List.countP_map]
    refine List.countP_mono_left fun d hd hp => ?_
    rcases h d hd with he | ⟨hne, hsim⟩
    · simpa only [Function.comp_apply, he] using hp
    · simp only [Function.comp_apply, Bool.and_eq_true] at hp
      exact absurd (hsim ▸ hq _ _ hp.1) hne
  refine ⟨fun d hd hs _ => ?_, hready, fun q since hq => ?_⟩
  · rw [hf]
    exact List.mem_map.mpr ⟨d, hd, (h d hd).resolve_right fun hx => hx.1 hs⟩
  · refine Nat.add_le_add (le_of_eq ?_) (hready q hq)
    rw [startedIn, startedIn, ha]

/-- A pass that finds the outage reclaims and measures, and that is all. -/
theorem outage_walk (ho : isOutage i.elapsed i.outageOverride = true) (s : Db) :
    (pass cfg i).Guarantees Evolves (Shut σ) (fun _ _ => True) s := by
  have hcalm : Calm Evolves := ⟨fun _ _ _ h k => h.trans k, fun _ _ h => h.evolves,
    fun _ _ h => h.cast⟩
  have hframe : ∀ s t, Frame s t → Shut σ s t := fun _ _ h => shut_of_evolves h.evolves
  rw [ConductorPass.pass]
  refine Program.Guarantees.bind (Program.Guarantees.write fun t _ =>
    ⟨shut_of_evolves (reclaim_evolves _ _ _ _ _), ?_⟩)
  refine Program.Guarantees.bind (walk_read hframe fun u _ => ?_)
  refine Program.Guarantees.bind (walk_frame hcalm hframe (metrics_frame _ _ _ _ _)
    fun _ v _ => ?_)
  split
  · exact Program.Guarantees.bind (Program.Guarantees.write fun w _ => ⟨shut_retire, trivial⟩)
  · exact Program.Guarantees.pure trivial

theorem pass_shut (h : InOutage σ i) (s : Db) :
    (pass cfg i).Guarantees Evolves (Shut σ) (fun _ _ => True) s := by
  by_cases hσ : i.simulationId = σ
  · exact outage_walk (h hσ) s
  have hcalm : Calm Evolves := ⟨fun _ _ _ h k => h.trans k, fun _ _ h => h.evolves,
    fun _ _ h => h.cast⟩
  refine pass_walk hcalm (fun _ _ h => shut_of_evolves h.evolves)
    (fun s => shut_of_evolves (reclaim_evolves _ _ _ _ _)) (fun s => shut_retire)
    (fun sel v z hsel hz => ⟨?_, fun a ha => ?_⟩) s
  · obtain ⟨f, hf, hrow⟩ := applyDrops_rows sel.drops i.now z
    refine shut_of_others rfl hf fun d hd => ?_
    rcases hrow d with ⟨-, he⟩ | ⟨x, hx, hid, he⟩
    · exact Or.inl he
    · obtain ⟨e, hdue, hex⟩ := hsel.dropped_due (fun _ _ h => h) hz hx
      obtain rfl : e = d := z.deliveries.row_unique hdue.1 hd (hex.trans hid)
      refine Or.inr ⟨?_, by rw [he]; rfl⟩
      rw [hdue.2.2.1]
      exact hσ
  · refine shut_of_others rfl (markReady_rows _ _ _) fun d hd => ?_
    by_cases hm : d.id ∈ sel.admitted
    · obtain ⟨e, hdue, hid⟩ := hsel.admitted_due (fun _ _ h => h) hz ha hm
      obtain rfl : e = d := a.deliveries.row_unique hdue.1 hd hid
      refine Or.inr ⟨?_, by rw [if_pos hm]; rfl⟩
      rw [hdue.2.2.1]
      exact hσ
    · exact Or.inl (if_neg hm)

end Passes

section Runs

variable {cfg : Settings} {σ : SimulationId} {s t : State} {e : Action}

/-- Every pass of the simulation that a run begins finds the outage. -/
def OutageOnly (σ : SimulationId) : Action → Prop
  | .beginPass i => InOutage σ i
  | _ => True

instance (σ : SimulationId) : DecidablePred (OutageOnly σ) := fun e => by
  cases e <;> unfold OutageOnly InOutage <;> infer_instance

def Gated (σ : SimulationId) (s : State) : Prop :=
  UnderWay Evolves (fun i u v => InOutage σ i → Shut σ u v) s

theorem step_gated (hi : Invariant cfg s) (h : Step cfg s e t) (hg : Gated σ s) : Gated σ t := by
  refine step_under_way (fun _ _ _ h k => h.trans k) (fun i _ => ?_) h
    (fun _ he => step_evolves hi h he) (.refl _) hg
  by_cases ho : InOutage σ i
  · exact (pass_shut ho s.db).weaken (fun _ _ h => h) fun _ _ h _ => h
  · exact (pass_guarantees cfg (fun _ => True) i s.db).weaken (fun _ _ h => ⟨h, trivial⟩)
      fun _ _ _ h => absurd h ho

theorem reachable_gated (h : (system cfg).Reachable s) : Gated σ s := by
  apply h.invariant (P := Gated σ)
  · rintro _ ⟨cast, simulations, rfl⟩ i p hp
    cases hp
  · exact fun _ _ _ hr hs he => step_gated (reachable_invariant hr) he hs

def Closed (σ : SimulationId) (s : State) : Prop := ∀ i p, s.conductor = some (i, p) → InOutage σ i

theorem step_shut (hr : (system cfg).Reachable s) (h : Step cfg s e t) (he : OutageOnly σ e)
    (hs : Closed σ s) : Shut σ s.db t.db ∧ Closed σ t := by
  refine ⟨?_, fun i p hp => ?_⟩
  · by_cases hst : e = .statement
    · subst hst
      obtain ⟨-, rfl⟩ := h
      rcases statement_cases cfg s with ⟨i, write, k, hc⟩ | hn
      · rw [next_statement hc]
        exact (reachable_gated hr i _ hc s.db (.refl _)).1 (hs i _ hc)
      · rw [hn]
        exact .refl
    · exact shut_of_evolves (step_evolves (reachable_invariant hr) h hst)
  · rcases step_conductor h hp with ⟨q, hq⟩ | rfl
    · exact hs i q hq
    · exact he

/-- From any reachable state on, in a run whose passes over a simulation all find the outage: what
is pending stays as it is, the ready buffer of each consumer only drains, and no more attempts are
started than were ready. -/
theorem outage_shuts (cfg : Settings) (σ : SimulationId) (hs : (system cfg).Reachable s)
    (hc : Closed σ s) (hx : ((system cfg).restrict fun _ e => OutageOnly σ e).Execution s t) :
    (∀ d ∈ s.db.deliveries.rows, d.simulationId = σ → d.state = .pending →
      d ∈ t.db.deliveries.rows) ∧
    (∀ c, readyIn (ofConsumer σ c) t.db ≤ readyIn (ofConsumer σ c) s.db) ∧
    (∀ since, startedIn (ofSimulation σ) since t.db ≤
      startedIn (ofSimulation σ) since s.db + readyIn (ofSimulation σ) s.db) ∧
    ∀ c since, startedIn (ofConsumer σ c) since t.db ≤
      startedIn (ofConsumer σ c) since s.db + readyIn (ofConsumer σ c) s.db := by
  have hsim : Within σ (ofSimulation σ) := fun i _ h => by simpa [ofSimulation] using h
  have hcon : ∀ c, Within σ (ofConsumer σ c) := fun c i k h => by
    simp only [ofConsumer, Bool.and_eq_true, beq_iff_eq] at h
    exact h.1
  have hshut : Shut σ s.db t.db ∧ Closed σ t ∧ (system cfg).Reachable t := by
    induction hx with
    | refl => exact ⟨.refl, hc, hs⟩
    | tail _ he ih =>
      obtain ⟨e, ho, he⟩ := he
      obtain ⟨hshut, hclosed, hr⟩ := ih
      obtain ⟨h, h'⟩ := step_shut hr he ho hclosed
      exact ⟨hshut.trans h, h', hr.tail he⟩
  obtain ⟨⟨hpend, hready, husage⟩, -, -⟩ := hshut
  refine ⟨hpend, fun c => hready _ (hcon c), fun since => ?_, fun c since => ?_⟩
  · exact (Nat.le_add_right _ _).trans (husage _ since hsim)
  · exact (Nat.le_add_right _ _).trans (husage _ since (hcon c))

end Runs

section Once

def downtime : List Action :=
  .ingest 1 130 [⟨"patient.updated", "chart", none⟩] ::
    .beginPass { passAt 130 with elapsed := 130 } :: List.replicate 20 .statement ++
    [.endPass, .claim 7 1 132 (fun _ => false) .physical]

theorem outage_shuts_once : ∃ t,
    ((system shipped).restrict fun _ e => OutageOnly 1 e).Execution (initial soleConsumer []) t ∧
    t.db.events.rows.length = 1 ∧ startedIn (ofSimulation 1) 0 t.db = 0 := by
  have hrun : (runList (fun s e => OutageOnly 1 e ∧ Enabled s e) (next shipped)
      (initial soleConsumer []) downtime).map (fun t => t.db.events.rows.length) = some 1 := by
    decide +kernel
  obtain ⟨t, ht, hev⟩ := Option.map_eq_some_iff.mp hrun
  have hx : ((system shipped).restrict fun _ e => OutageOnly 1 e).Execution
      (initial soleConsumer []) t := runList_restricted _ _ _ ht
  have hr : (system shipped).Reachable (initial soleConsumer []) := .initial ⟨_, _, rfl⟩
  have hclosed : Closed 1 (initial soleConsumer []) := fun i p hp => by cases hp
  obtain ⟨-, -, hstarted, -⟩ := outage_shuts shipped 1 hr hclosed hx
  exact ⟨t, hx, hev, Nat.le_zero.mp (hstarted 0)⟩

end Once

end OutageGate
