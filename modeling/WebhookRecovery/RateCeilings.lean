import WebhookRecovery.PipelineInvariant

/-! The rate ceilings over whole runs. The claims and passes of one simulation use instants
that never decrease; the latest of them is carried along as a ghost clock. What started in
the window that ends at the clock, together with what is ready, stays within each limit. -/
namespace RateCeilings

open KeyedTables RecoverySchema InterleavedPrograms DeliveryPolicy DeliveryAdmission WorkerClaim
open LeaseReaper ConductorPass DeliveryPipeline QueueUsage PassGuarantee PipelineInvariant

structure Timed where
  state : State
  clock : ℚ

def nowOf (σ : SimulationId) : Action → Option ℚ
  | .claim _ simulationId now _ _ => if simulationId = σ then some now else none
  | .beginPass i => if i.simulationId = σ then some i.now else none
  | _ => none

def rateOf (σ : SimulationId) : Action → Option ℚ
  | .beginPass i => if i.simulationId = σ then some i.globalAttemptsPerS else none
  | _ => none

def EnabledTimed (σ : SimulationId) (g : ℚ) (s : Timed) (e : Action) : Prop :=
  Enabled s.state e ∧ (∀ now ∈ nowOf σ e, s.clock ≤ now) ∧ ∀ r ∈ rateOf σ e, r = g

instance (σ : SimulationId) (g : ℚ) (s : Timed) : DecidablePred (EnabledTimed σ g s) :=
  fun _ => inferInstanceAs (Decidable (_ ∧ _ ∧ _))

def nextTimed (cfg : Settings) (σ : SimulationId) (s : Timed) (e : Action) : Timed :=
  ⟨next cfg s.state e, (nowOf σ e).getD s.clock⟩

/-- Runs in which the simulation's global rate is `g`; the arm may differ from pass to pass. -/
def timedSystem (cfg : Settings) (σ : SimulationId) (g : ℚ) : System Timed Action :=
  .guarded (fun s => Initial s.state) (EnabledTimed σ g) (nextTimed cfg σ)

theorem timed_step {cfg : Settings} {σ : SimulationId} {g : ℚ} {s t : Timed} {e : Action}
    (h : (timedSystem cfg σ g).step s e t) : Step cfg s.state e t.state := by
  obtain ⟨⟨he, _⟩, rfl⟩ := h
  exact ⟨he, rfl⟩

/-- Attempts that started in the closed window of length `w` from `x`. -/
def startedWithin (q : Scope) (x w : ℚ) (db : Db) : ℕ :=
  db.attempts.rows.countP fun a =>
    q a.simulationId a.consumerId && decide (x ≤ a.startedAt) && decide (a.startedAt ≤ x + w)

section Counting

variable {cfg : Settings} {F : Db → Prop} {i : PassInput} {s t : Db} {q : Scope}

theorem startedWithin_le (x w : ℚ) (db : Db) : startedWithin q x w db ≤ startedIn q x db := by
  refine List.countP_mono_left fun a _ ha => ?_
  simp only [Bool.and_eq_true] at ha ⊢
  exact ha.1

theorem markReady_ready {chosen : List Candidate} (hq : ∀ x ∈ chosen, Queued i.simulationId x s) :
    readyIn q (markReady (chosen.map Candidate.id) i.now s) ≤
      readyIn q s + chosen.countP fun x => q i.simulationId x.consumerId := by
  set ids := chosen.map Candidate.id with hids
  have hsplit : readyIn q (markReady ids i.now s) ≤ readyIn q s +
      s.deliveries.rows.countP fun d => q d.simulationId d.consumerId && decide (d.id ∈ ids) := by
    rw [readyIn, markReady_rows, List.countP_map, countP_split _ (fun d => decide (d.id ∈ ids)),
      Nat.add_comm]
    refine Nat.add_le_add ?_ ?_
    · refine List.countP_mono_left fun d _ hd => ?_
      simp only [Function.comp_apply, Bool.and_eq_true, Bool.not_eq_true',
        decide_eq_false_iff_not] at hd ⊢
      rw [if_neg hd.2] at hd
      exact hd.1
    · refine List.countP_mono_left fun d _ hd => ?_
      simp only [Function.comp_apply, Bool.and_eq_true, decide_eq_true_eq] at hd ⊢
      rw [if_pos hd.2] at hd
      exact ⟨hd.1.1, hd.2⟩
  refine hsplit.trans (Nat.add_le_add_left ?_ _)
  -- the rows that become ready are the chosen candidates, each once
  rw [List.countP_eq_length_filter, List.countP_eq_length_filter]
  set rows := s.deliveries.rows.filter fun d => q d.simulationId d.consumerId && decide (d.id ∈ ids)
  have hn : (rows.map candidateOf).Nodup := by
    refine List.Nodup.of_map Candidate.id ?_
    rw [List.map_map]
    exact (List.filter_sublist.map key).nodup s.deliveries.nodup_keys
  rw [← List.length_map candidateOf]
  refine (List.subperm_of_subset hn fun x hx => ?_).length_le
  obtain ⟨d, hd, rfl⟩ := List.mem_map.mp hx
  obtain ⟨hd, hp⟩ := List.mem_filter.mp hd
  simp only [Bool.and_eq_true, decide_eq_true_eq] at hp
  obtain ⟨y, hy, hyd⟩ := List.mem_map.mp hp.2
  obtain ⟨e, he, _, hsim, rfl⟩ := hq y hy
  have hed : e = d := s.deliveries.row_unique he hd hyd
  subst hed
  exact List.mem_filter.mpr ⟨hy, hsim ▸ hp.1⟩

theorem conductor_usage (h : ConductorWrite cfg F i s t) :
    (∀ q, readyIn q t ≤ readyIn q s ∧ ∀ since, usage q since t ≤ usage q since s) ∨
      ∃ chosen, Admission cfg F i chosen s ∧ t = markReady (chosen.map Candidate.id) i.now s := by
  cases h with
  | frame _ _ hd ha _ =>
    refine Or.inl fun q => ⟨?_, fun since => ?_⟩
    · rw [readyIn, hd, readyIn]
    · rw [usage, usage, startedIn, startedIn, readyIn, readyIn, hd, ha]
  | reclaim =>
    have he := reclaim_evolves cfg i.simulationId i.now i.locked s
    exact Or.inl fun q => ⟨he.ready q, he.usage q⟩
  | drop admitted drops hdrops =>
    have hready : ∀ q, readyIn q (applyDrops drops i.now s) ≤ readyIn q s :=
      applyDrops_ready (fun x hx => (hdrops x hx).1) i.now
    exact Or.inl fun q => ⟨hready q, fun since => Nat.add_le_add_left (hready q) _⟩
  | ready chosen hadm => exact Or.inr ⟨chosen, hadm, rfl⟩

end Counting

structure Within (cfg : Settings) (q : Scope) (limit : ℤ) (s : Timed) : Prop where
  usage : (usage q (s.clock - cfg.fairnessWindowVirtualS) s.state.db : ℤ) ≤ limit
  windows : ∀ x, (startedWithin q x cfg.fairnessWindowVirtualS s.state.db : ℤ) ≤ limit

section Step

variable {cfg : Settings} {σ : SimulationId} {g : ℚ} {s t : Timed} {e : Action}

theorem clock_le (h : (timedSystem cfg σ g).step s e t) : s.clock ≤ t.clock := by
  obtain ⟨⟨_, hnow, _⟩, rfl⟩ := h
  simp only [nextTimed]
  cases hn : nowOf σ e with
  | none => exact le_rfl
  | some now => exact hnow now hn

/-- A window gains attempts only from a claim at an instant in it, and then what it holds
started no earlier than the window that ends at that instant. -/
theorem step_windows {q : Scope} {limit : ℤ} (hq : ∀ s c, q s c → s = σ)
    (hi : Invariant cfg s.state) (h : (timedSystem cfg σ g).step s e t) (hw : Within cfg q limit s)
    (x : ℚ) : (startedWithin q x cfg.fairnessWindowVirtualS t.state.db : ℤ) ≤ limit := by
  obtain ⟨a, more, hg, hkept, hmore⟩ := (step_effect hi (timed_step h)).attempts
  have hold : ∀ p : SimulationId → ConsumerId → ℚ → Bool,
      ((s.state.db.attempts.rows.map a).countP fun b => p b.simulationId b.consumerId b.startedAt) =
        s.state.db.attempts.rows.countP fun b => p b.simulationId b.consumerId b.startedAt := by
    intro p
    rw [List.countP_map]
    refine List.countP_congr fun b _ => ?_
    have hk := hkept b
    simp only [Function.comp_apply, hk.simulation, hk.consumer, hk.started]
  have hcount := hold fun s c y =>
    q s c && decide (x ≤ y) && decide (y ≤ x + cfg.fairnessWindowVirtualS)
  by_cases hnew : ∃ b ∈ more, q b.simulationId b.consumerId ∧ x ≤ b.startedAt ∧
      b.startedAt ≤ x + cfg.fairnessWindowVirtualS
  · obtain ⟨b, hb, hqb, hxb, hbx⟩ := hnew
    have hstart := (hmore b hb).1
    have hsim := hq _ _ hqb
    cases e with
    | claim w sim now locked scan =>
      obtain ⟨rfl, rfl⟩ := Prod.mk.inj (Option.some.inj hstart)
      have hnow : nowOf σ (.claim w b.simulationId b.startedAt locked scan) = some b.startedAt :=
        if_pos hsim
      have hge : s.clock ≤ b.startedAt := h.1.2.1 _ hnow
      have hev := step_evolves hi (timed_step h) (by simp)
      have h₁ : startedWithin q x cfg.fairnessWindowVirtualS t.state.db ≤
          startedIn q (b.startedAt - cfg.fairnessWindowVirtualS) t.state.db :=
        (startedWithin_le x _ _).trans (startedIn_anti q (by linarith) _)
      have h₂ := hev.usage q (b.startedAt - cfg.fairnessWindowVirtualS)
      have h₃ : QueueUsage.usage q (b.startedAt - cfg.fairnessWindowVirtualS) s.state.db ≤
          QueueUsage.usage q (s.clock - cfg.fairnessWindowVirtualS) s.state.db :=
        usage_anti q (by linarith) _
      have h₄ := hw.usage
      unfold QueueUsage.usage at h₂ h₃ h₄
      omega
    | _ => cases hstart
  · have hzero : (more.countP fun b => q b.simulationId b.consumerId && decide (x ≤ b.startedAt) &&
        decide (b.startedAt ≤ x + cfg.fairnessWindowVirtualS)) = 0 := by
      refine List.countP_eq_zero.mpr fun b hb hp => hnew ⟨b, hb, ?_⟩
      simp only [Bool.and_eq_true, decide_eq_true_eq] at hp
      exact ⟨hp.1.1, hp.1.2, hp.2⟩
    have hwin := hw.windows x
    rw [startedWithin, hg, List.countP_append, hcount, hzero]
    exact hwin

/-- A step uses up nothing in any scope, or admits what a pass has chosen. -/
theorem timed_usage (hi : Invariant cfg s.state) (h : (timedSystem cfg σ g).step s e t) :
    (∀ q, readyIn q t.state.db ≤ readyIn q s.state.db ∧
      ∀ since, QueueUsage.usage q since t.state.db ≤ QueueUsage.usage q since s.state.db) ∨
    ∃ i p chosen, s.state.conductor = some (i, p) ∧
      Admission cfg (fun _ => True) i chosen s.state.db ∧
      t.state.db = markReady (chosen.map Candidate.id) i.now s.state.db := by
  by_cases he : e = .statement
  · subst he
    obtain ⟨hen, hnext⟩ := timed_step h
    rcases statement_cases cfg s.state with ⟨i, write, k, hc⟩ | hn
    · have hdb : t.state.db = write s.state.db := by rw [hnext, next_statement hc]
      rw [hdb]
      rcases conductor_usage (statement_write hi.pass trivial hc).1 with hfall | ⟨chosen, ha, hmark⟩
      · exact Or.inl hfall
      · exact Or.inr ⟨i, _, chosen, hc, ha, hmark⟩
    · rw [hnext, hn]
      exact Or.inl fun q => ⟨le_rfl, fun _ => le_rfl⟩
  · have hevolves := step_evolves hi (timed_step h) he
    exact Or.inl fun q => ⟨hevolves.ready q, hevolves.usage q⟩

/-- The step lemma. An admission of the simulation leaves room for the whole of `q`. -/
theorem step_within {q : Scope} {limit : ℤ} (hq : ∀ s c, q s c → s = σ)
    (hi : Invariant cfg s.state) (h : (timedSystem cfg σ g).step s e t)
    (hadm : ∀ i chosen, (∃ p, s.state.conductor = some (i, p)) → i.simulationId = σ →
      Admission cfg (fun _ => True) i chosen s.state.db → i.now ≤ s.clock ∧
        (chosen.countP fun x => q i.simulationId x.consumerId : ℤ) ≤ max 0 (limit -
          QueueUsage.usage q (i.now - cfg.fairnessWindowVirtualS) s.state.db))
    (hw : Within cfg q limit s) : Within cfg q limit t := by
  refine ⟨?_, step_windows hq hi h hw⟩
  have hclock := clock_le h
  have hbefore := hw.usage
  have hanti : QueueUsage.usage q (t.clock - cfg.fairnessWindowVirtualS) s.state.db ≤
      QueueUsage.usage q (s.clock - cfg.fairnessWindowVirtualS) s.state.db :=
    usage_anti q (by linarith) _
  rcases timed_usage hi h with hfall | ⟨i, p, chosen, hc, ha, hmark⟩
  · have := (hfall q).2 (t.clock - cfg.fairnessWindowVirtualS)
    omega
  · rw [hmark]
    have hmarked := markReady_ready (q := q) ha.queued
    have hsame : startedIn q (t.clock - cfg.fairnessWindowVirtualS)
        (markReady (chosen.map Candidate.id) i.now s.state.db) =
          startedIn q (t.clock - cfg.fairnessWindowVirtualS) s.state.db := rfl
    by_cases hs : i.simulationId = σ
    · obtain ⟨hnow, hroom⟩ := hadm i chosen ⟨_, hc⟩ hs ha
      have hpast : QueueUsage.usage q (s.clock - cfg.fairnessWindowVirtualS) s.state.db ≤
          QueueUsage.usage q (i.now - cfg.fairnessWindowVirtualS) s.state.db :=
        usage_anti q (by linarith) _
      unfold QueueUsage.usage at hbefore hanti hpast hroom ⊢
      omega
    · have hzero : (chosen.countP fun x => q i.simulationId x.consumerId) = 0 :=
        List.countP_eq_zero.mpr fun x _ hx => hs (hq _ _ hx)
      unfold QueueUsage.usage at hbefore hanti ⊢
      omega

end Step

/-- The invariant: every consumer of the simulation, and the simulation, within its limit. -/
structure Paced (cfg : Settings) (σ : SimulationId) (g : ℚ) (s : Timed) : Prop where
  pipeline : Invariant cfg s.state
  pass : ∀ i p, s.state.conductor = some (i, p) → i.simulationId = σ →
    i.now ≤ s.clock ∧ i.globalAttemptsPerS = g
  simulation : Within cfg (ofSimulation σ) (max 0 (pyInt (g * cfg.fairnessWindowVirtualS))) s
  consumers : ∀ c ∈ s.state.db.cast.consumers, c.simulationId = σ →
    Within cfg (ofConsumer σ c.id)
      (max 0 (pyInt (c.maxAttemptsPerS * cfg.fairnessWindowVirtualS))) s
  buffer : (readyIn (ofSimulation σ) s.state.db : ℤ) ≤
    max 0 (bufferTarget cfg (totalCap σ s.state.db))

section Run

variable {cfg : Settings} {σ : SimulationId} {g : ℚ} {s t : Timed} {e : Action}

theorem step_pass (h : (timedSystem cfg σ g).step s e t) (hp : Paced cfg σ g s) :
    ∀ i p, t.state.conductor = some (i, p) → i.simulationId = σ →
      i.now ≤ t.clock ∧ i.globalAttemptsPerS = g := by
  have hclock := clock_le h
  intro i p hc hσ
  rcases step_conductor (timed_step h) hc with ⟨q, hq⟩ | rfl
  · obtain ⟨hnow, hg⟩ := hp.pass i q hq hσ
    exact ⟨hnow.trans hclock, hg⟩
  · obtain ⟨⟨-, -, hrate⟩, rfl⟩ := h
    have hn : nowOf σ (.beginPass i) = some i.now := if_pos hσ
    refine ⟨?_, hrate _ (if_pos hσ)⟩
    rw [nextTimed, hn, Option.getD_some]

theorem step_buffer (h : (timedSystem cfg σ g).step s e t) (hp : Paced cfg σ g s) :
    (readyIn (ofSimulation σ) t.state.db : ℤ) ≤
      max 0 (bufferTarget cfg (totalCap σ t.state.db)) := by
  have hi := hp.pipeline
  have hcap : totalCap σ t.state.db = totalCap σ s.state.db :=
    totalCap_of_cast (step_effect hi (timed_step h)).cast
  have hbefore := hp.buffer
  rw [hcap]
  rcases timed_usage hi h with hfall | ⟨i, p, chosen, hc, ha, hmark⟩
  · have := (hfall (ofSimulation σ)).1
    omega
  · rw [hmark]
    have hmarked := markReady_ready (q := ofSimulation σ) ha.queued
    have hlen := List.countP_le_length (p := fun x : Candidate =>
      ofSimulation σ i.simulationId x.consumerId) (l := chosen)
    by_cases hs : i.simulationId = σ
    · have hroom := ha.buffer
      rw [hs] at hroom
      omega
    · have hzero : (chosen.countP fun x => ofSimulation σ i.simulationId x.consumerId) = 0 :=
        List.countP_eq_zero.mpr fun x _ hx => hs (by simpa [ofSimulation] using hx)
      omega

theorem step_paced (h : (timedSystem cfg σ g).step s e t) (hp : Paced cfg σ g s) :
    Paced cfg σ g t := by
  have hi := hp.pipeline
  refine ⟨step_invariant hi (timed_step h), step_pass h hp, ?_, fun c hc hs => ?_, step_buffer h hp⟩
  · refine step_within (fun s c hq => by simpa [ofSimulation] using hq) hi h
      (fun i chosen ⟨p, hc⟩ hσ ha => ?_) hp.simulation
    obtain ⟨hnow, hg⟩ := hp.pass i p hc hσ
    refine ⟨hnow, ?_⟩
    have hroom := ha.rate
    have hlen := List.countP_le_length (p := fun x : Candidate =>
      ofSimulation σ i.simulationId x.consumerId) (l := chosen)
    rw [hσ, hg] at hroom
    omega
  · have hcs : c ∈ s.state.db.cast.consumers := (step_effect hi (timed_step h)).cast ▸ hc
    refine step_within (fun s k hq => ?_) hi h
      (fun i chosen ⟨p, hcon⟩ hσ ha => ?_) (hp.consumers c hcs hs)
    · simp only [ofConsumer, Bool.and_eq_true, beq_iff_eq] at hq
      exact hq.1
    · refine ⟨(hp.pass i p hcon hσ).1, ?_⟩
      have hroom := ha.share c hcs (hs.trans hσ.symm)
      have hscope : (chosen.countP fun x => ofConsumer σ c.id i.simulationId x.consumerId) =
          chosen.countP fun x => x.consumerId == c.id := by
        refine List.countP_congr fun x _ => ?_
        simp [ofConsumer, hσ]
      rw [hσ] at hroom
      rw [hscope]
      omega

theorem initial_paced (cast : Cast) (simulations : List Simulation) (clock : ℚ) :
    Paced cfg σ g ⟨initial cast simulations, clock⟩ where
  pipeline := initial_invariant cast simulations
  pass := by intro i p hc; cases hc
  simulation := ⟨le_max_left _ _, fun _ => le_max_left _ _⟩
  consumers := fun _ _ _ => ⟨le_max_left _ _, fun _ => le_max_left _ _⟩
  buffer := le_max_left _ _

theorem reachable_paced (h : (timedSystem cfg σ g).Reachable s) : Paced cfg σ g s :=
  h.invariant (P := Paced cfg σ g)
    (by rintro ⟨_, clock⟩ ⟨cast, sims, rfl⟩; exact initial_paced cast sims clock)
    fun _ _ _ _ hp hs => step_paced hs hp

end Run

/-- Attempts per consumer and per simulation in any closed window, and the ready buffer. -/
theorem rate_ceilings (cfg : Settings) (σ : SimulationId) (g : ℚ) {s : Timed}
    (h : (timedSystem cfg σ g).Reachable s) :
    (∀ c ∈ s.state.db.cast.consumers, c.simulationId = σ → ∀ x,
      (startedWithin (ofConsumer σ c.id) x cfg.fairnessWindowVirtualS s.state.db : ℤ) ≤
        max 0 (pyInt (c.maxAttemptsPerS * cfg.fairnessWindowVirtualS))) ∧
    (∀ x, (startedWithin (ofSimulation σ) x cfg.fairnessWindowVirtualS s.state.db : ℤ) ≤
      max 0 (pyInt (g * cfg.fairnessWindowVirtualS))) ∧
    (readyCount σ s.state.db : ℤ) ≤
      max 0 ⌈cfg.readyBufferDepthMultiplier * totalCap σ s.state.db⌉ := by
  have hp := reachable_paced h
  exact ⟨fun c hc hs x => (hp.consumers c hc hs).windows x, hp.simulation.windows, hp.buffer⟩

/-- The ceilings after the first claim. -/
theorem rate_ceilings_first_claim :
    ∃ s, runList (EnabledTimed 1 30) (nextTimed shipped 1) ⟨initial soleConsumer [], 0⟩ firstClaim =
      some s ∧ startedWithin (ofSimulation 1) 0 5 s.state.db = 1 ∧
      ∀ x, (startedWithin (ofSimulation 1) x 5 s.state.db : ℤ) ≤ max 0 (pyInt (30 * 5)) := by
  have hcount : (runList (EnabledTimed 1 30) (nextTimed shipped 1) ⟨initial soleConsumer [], 0⟩
      firstClaim).map (fun s => startedWithin (ofSimulation 1) 0 5 s.state.db) = some 1 := by
    decide +kernel
  obtain ⟨s, hs, hone⟩ := Option.map_eq_some_iff.mp hcount
  have hr : (timedSystem shipped 1 30).Reachable s :=
    ⟨_, ⟨soleConsumer, [], rfl⟩, runList_execution _ _ _ hs⟩
  exact ⟨s, hs, hone, (rate_ceilings shipped 1 30 hr).2.1⟩

end RateCeilings
