import WebhookRecovery.ChartCompleteness

/-! The chart of a run that has been retired. The pass that retires it writes the buckets up to the
second before the current one, and a run that is done is not visited again, so what came to pass in
the last two buckets is on no chart. -/
namespace RetiredChart

open KeyedTables RecoverySchema InterleavedPrograms MetricsSeries ConductorPass DeliveryPipeline
open PassStages ChartTallies ChartCompleteness DeliveryFile PipelineInvariant SeriesContiguity

structure State where
  pipe : DeliveryPipeline.State
  clock : ℚ

inductive Event where
  | elapse (d : ℚ)
  | pipeline (a : Action)

section Model

variable (cfg : Settings) (σ : SimulationId)

/-- A pass over the simulation reads the clock of a running row. Under one leader, none of whose
passes is rolled back, the cached cursor is that of the table; no more is outstanding than one call
may write. -/
def Reads (s : State) : Action → Prop
  | .beginPass i => i.simulationId = σ → i.now = s.clock ∧
    (∀ sim ∈ s.pipe.db.simulations, sim.id = σ → sim.status = .running) ∧
    (∀ b ∈ i.lastWritten, recoverCursor σ s.pipe.db = some b) ∧
    outstanding cfg σ i.now s.pipe.db ≤ cfg.metricsMaxBackfillBuckets
  | _ => True

instance (s : State) : DecidablePred (Reads cfg σ s)
  | .beginPass i => inferInstanceAs (Decidable (i.simulationId = σ → i.now = s.clock ∧
    (∀ sim ∈ s.pipe.db.simulations, sim.id = σ → sim.status = .running) ∧
    (∀ b ∈ i.lastWritten, recoverCursor σ s.pipe.db = some b) ∧
    outstanding cfg σ i.now s.pipe.db ≤ cfg.metricsMaxBackfillBuckets))
  | .ingest .. | .claim .. | .complete .. | .abandon _ | .statement | .endPass =>
    inferInstanceAs (Decidable True)

def Enabled (s : State) : Event → Prop
  | .elapse d => 0 ≤ d
  | .pipeline a => DeliveryPipeline.Enabled s.pipe a ∧ Reads cfg σ s a ∧
    Visible cfg.metricsBucketVirtualS σ s.clock s.pipe.db (DeliveryPipeline.next cfg s.pipe a).db

instance (s : State) : DecidablePred (Enabled cfg σ s)
  | .elapse d => inferInstanceAs (Decidable (0 ≤ d))
  | .pipeline a => inferInstanceAs (Decidable (DeliveryPipeline.Enabled s.pipe a ∧
    Reads cfg σ s a ∧ Visible cfg.metricsBucketVirtualS σ s.clock s.pipe.db
      (DeliveryPipeline.next cfg s.pipe a).db))

def next (s : State) : Event → State
  | .elapse d => { s with clock := s.clock + d }
  | .pipeline a => { s with pipe := DeliveryPipeline.next cfg s.pipe a }

def Initial (s : State) : Prop := ∃ cast sims, s.pipe = DeliveryPipeline.initial cast sims ∧
  ∀ sim ∈ sims, sim.id = σ → sim.status ≠ .done

def system : System State Event := .guarded (Initial σ) (Enabled cfg σ) (next cfg)

end Model

/-- A pass over the simulation, which began at or after every bucket on its chart was complete. -/
structure Passing (cfg : Settings) (s : State) (i : PassInput) (p : Program Db Unit) : Prop where
  keeps : p.Guarantees (Meanwhile cfg i) (ChartWrite cfg i) (fun _ _ => True) s.pipe.db
  begun : i.now ≤ s.clock
  ahead : ∀ b ∈ recoverCursor i.simulationId s.pipe.db, b ≤ lastComplete cfg i.now

structure Closed (cfg : Settings) (σ : SimulationId) (s : State) (now : ℚ) : Prop where
  covered : consumerIds σ s.pipe.db ≠ [] →
    lastComplete cfg now < firstMissing (recoverCursor σ s.pipe.db)
  ahead : ∀ b ∈ recoverCursor σ s.pipe.db, b ≤ lastComplete cfg now
  last : ∀ i p, s.pipe.conductor = some (i, p) → i.simulationId = σ → i.now = now

structure Tracked (cfg : Settings) (σ : SimulationId) (s : State) : Prop where
  pipe : (DeliveryPipeline.system cfg).Reachable s.pipe
  chart : Charted cfg σ s.clock s.pipe.db
  writes : ∀ i p, s.pipe.conductor = some (i, p) → p.Writes (PassWrite cfg i)
  passing : ∀ i p, s.pipe.conductor = some (i, p) → i.simulationId = σ → Passing cfg s i p
  retired : ∀ sim ∈ s.pipe.db.simulations, sim.id = σ → sim.status = .done →
    ∃ now, sim.pausedAtVirtual = some now ∧ Closed cfg σ s now

section Runs

variable {cfg : Settings} {σ : SimulationId} {s t : State} {e : Event} {i : PassInput}

theorem tracked_of_aside (ht : Tracked cfg σ s) (ha : Aside σ s.pipe.db t.pipe.db)
    (hr : (DeliveryPipeline.system cfg).Reachable t.pipe) (hl : s.clock ≤ t.clock)
    (hsame : ∀ b : ℤ, (b + 2) * cfg.metricsBucketVirtualS ≤ s.clock →
      SameTo cfg.metricsBucketVirtualS σ b s.pipe.db t.pipe.db)
    (hwrites : ∀ i p, t.pipe.conductor = some (i, p) → p.Writes (PassWrite cfg i))
    (hpassing : ∀ i p, t.pipe.conductor = some (i, p) → i.simulationId = σ → Passing cfg t i p)
    (hlast : ∀ i p, t.pipe.conductor = some (i, p) → i.simulationId = σ →
      (∃ q, s.pipe.conductor = some (i, q)) ∨
        ∀ sim ∈ s.pipe.db.simulations, sim.id = σ → sim.status ≠ .done) :
    Tracked cfg σ t := by
  refine ⟨hr, ht.chart.untouched ha.untouched hl hsame, hwrites, hpassing, fun sim hm hid hd => ?_⟩
  have hold := ha.simulations sim hm hid
  obtain ⟨now, hp, hc⟩ := ht.retired sim hold hid hd
  refine ⟨now, hp, ?_, ?_, fun i p hip hi => ?_⟩
  · rw [ha.untouched.consumers, ha.untouched.cursor]
    exact hc.covered
  · rw [ha.untouched.cursor]
    exact hc.ahead
  · rcases hlast i p hip hi with ⟨q, hq⟩ | hnone
    · exact hc.last i q hq hi
    · exact absurd hd (hnone sim hold hid)

theorem Passing.aside {p : Program Db Unit} (hw : 0 < cfg.metricsBucketVirtualS)
    (h : Passing cfg s i p) (ha : Aside i.simulationId s.pipe.db t.pipe.db)
    (hm : t.pipe.db.metrics = s.pipe.db.metrics) (hl : s.clock ≤ t.clock)
    (hsame : ∀ b : ℤ, (b + 2) * cfg.metricsBucketVirtualS ≤ s.clock →
      SameTo cfg.metricsBucketVirtualS i.simulationId b s.pipe.db t.pipe.db) :
    Passing cfg t i p := by
  have hmeanwhile : Meanwhile cfg i s.pipe.db t.pipe.db :=
    ⟨ha.cast, hm, hsame _ (((le_lastComplete hw).mp le_rfl).trans h.begun)⟩
  refine ⟨h.keeps.rely (fun _ _ _ h k => h.trans k) (fun _ _ _ _ _ => trivial) hmeanwhile,
    h.begun.trans hl, ?_⟩
  rw [ha.untouched.cursor]
  exact h.ahead

/-- A statement of a pass over the simulation. One that retires the run follows upon a chart that
lacks nothing, and nothing is written to the chart after it. -/
theorem own_tracked {p q : Program Db Unit} {u : Db} (hw : 0 < cfg.metricsBucketVirtualS)
    (ht : Tracked cfg i.simulationId s) (hc : s.pipe.conductor = some (i, p))
    (hu : ChartWrite cfg i s.pipe.db u)
    (hq : q.Guarantees (Meanwhile cfg i) (ChartWrite cfg i) (fun _ _ => True) u)
    (hwrites : q.Writes (PassWrite cfg i))
    (hr : (DeliveryPipeline.system cfg).Reachable { s.pipe with db := u, conductor := some (i, q) })
    (hsame : ∀ b : ℤ, (b + 2) * cfg.metricsBucketVirtualS ≤ s.clock →
      SameTo cfg.metricsBucketVirtualS i.simulationId b s.pipe.db u) :
    Tracked cfg i.simulationId
      { s with pipe := { s.pipe with db := u, conductor := some (i, q) } } := by
  have hp := ht.passing i p hc rfl
  have same : ∀ {j : PassInput} {r : Program Db Unit}, some (i, q) = some (j, r) → i = j ∧ q = r :=
    fun h => Prod.mk.inj (Option.some.inj h)
  cases hu with
  | keep cast metrics simulations =>
    have ha : Aside i.simulationId s.pipe.db u := aside_of_eq cast metrics simulations
    refine tracked_of_aside ht ha hr le_rfl hsame ?_ ?_ ?_
    · intro j r hj
      obtain ⟨rfl, rfl⟩ := same hj
      exact hwrites
    · intro j r hj _
      obtain ⟨rfl, rfl⟩ := same hj
      refine ⟨hq, hp.begun, ?_⟩
      rw [ha.untouched.cursor]
      exact hp.ahead
    · intro j r hj _
      obtain ⟨rfl, rfl⟩ := same hj
      exact Or.inl ⟨p, hc⟩
  | chart rows h =>
    refine ⟨hr, ht.chart.upsert hw h.adds hp.begun, ?_, ?_, ?_⟩
    · intro j r hj
      obtain ⟨rfl, rfl⟩ := same hj
      exact hwrites
    · intro j r hj _
      obtain ⟨rfl, rfl⟩ := same hj
      refine ⟨hq, hp.begun, fun b hb => ?_⟩
      rw [h.adds.cursor] at hb
      exact (Option.some.inj hb).ge
    · -- a run that is done already lacked no bucket that the pass could write
      intro sim hm hid hd
      obtain ⟨now, -, hclosed⟩ := ht.retired sim hm hid hd
      have hnow : i.now = now := hclosed.last i p hc rfl
      exact absurd h.missing (not_le.mpr (hnow ▸ hclosed.covered h.someone))
  | retire h =>
    refine ⟨hr, ?_, ?_, ?_, ?_⟩
    · exact ⟨ht.chart.keys, ht.chart.contiguous, fun m hm hs =>
        ⟨(ht.chart.exact m hm hs).attempts, (ht.chart.exact m hm hs).terminals⟩, ht.chart.past⟩
    · intro j r hj
      obtain ⟨rfl, rfl⟩ := same hj
      exact hwrites
    · intro j r hj _
      obtain ⟨rfl, rfl⟩ := same hj
      exact ⟨hq, hp.begun, hp.ahead⟩
    · intro sim hm hid _
      obtain ⟨x, -, rfl⟩ := List.mem_map.mp hm
      by_cases hx : x.id = i.simulationId
      · rw [if_pos hx]
        refine ⟨i.now, rfl, h, hp.ahead, fun j r hj _ => ?_⟩
        rw [(same hj).1]
      · rw [if_neg hx] at hid
        exact absurd hid hx

theorem other_tracked {q : Program Db Unit} {u : Db} (hi : i.simulationId ≠ σ)
    (ht : Tracked cfg σ s) (hu : PassWrite cfg i s.pipe.db u) (hcast : u.cast = s.pipe.db.cast)
    (hwrites : q.Writes (PassWrite cfg i))
    (hr : (DeliveryPipeline.system cfg).Reachable { s.pipe with db := u, conductor := some (i, q) })
    (hsame : ∀ b : ℤ, (b + 2) * cfg.metricsBucketVirtualS ≤ s.clock →
      SameTo cfg.metricsBucketVirtualS σ b s.pipe.db u) :
    Tracked cfg σ { s with pipe := { s.pipe with db := u, conductor := some (i, q) } } := by
  have other : ∀ {j : PassInput} {r : Program Db Unit}, some (i, q) = some (j, r) →
      j.simulationId ≠ σ := by
    intro j r h
    obtain ⟨rfl, -⟩ := Prod.mk.inj (Option.some.inj h)
    exact hi
  refine tracked_of_aside ht (aside_of_other hu hi hcast) hr le_rfl hsame ?_
    (fun j r hj hjσ => absurd hjσ (other hj)) fun j r hj hjσ => absurd hjσ (other hj)
  intro j r hj
  obtain ⟨rfl, rfl⟩ := Prod.mk.inj (Option.some.inj hj)
  exact hwrites

theorem statement_tracked (hw : 0 < cfg.metricsBucketVirtualS) (ht : Tracked cfg σ s)
    (he : Enabled cfg σ s (.pipeline .statement)) :
    Tracked cfg σ (next cfg s (.pipeline .statement)) := by
  obtain ⟨hen, -, hv⟩ := he
  have hi := reachable_invariant ht.pipe
  have hstep : Step cfg s.pipe .statement (DeliveryPipeline.next cfg s.pipe .statement) :=
    ⟨hen, rfl⟩
  have heff := step_effect hi hstep
  have hsame := fun b => effect_same b hw heff hi.files hv
  have hr := ht.pipe.tail hstep
  rcases statement_cases cfg s.pipe with ⟨i, write, k, hc⟩ | hn
  · have hnext : next cfg s (.pipeline .statement) = { s with pipe :=
        { s.pipe with db := write s.pipe.db, conductor := some (i, k s.pipe.db) } } := by
      rw [next, next_statement hc]
    rw [next_statement hc] at hr heff hsame
    obtain ⟨hpw, hkw⟩ := ht.writes i _ hc s.pipe.db
    rw [hnext]
    by_cases hσ : i.simulationId = σ
    · subst hσ
      obtain ⟨hwrite, hrest⟩ := (ht.passing i _ hc rfl).keeps s.pipe.db (.refl _)
      exact own_tracked hw ht hc hwrite hrest hkw hr hsame
    · exact other_tracked hσ ht hpw heff.cast hkw hr hsame
  · rw [next, hn]
    exact ht

theorem begin_tracked (hw : 0 < cfg.metricsBucketVirtualS) (ht : Tracked cfg σ s)
    (he : Enabled cfg σ s (.pipeline (.beginPass i))) :
    Tracked cfg σ (next cfg s (.pipeline (.beginPass i))) := by
  obtain ⟨hen, hreads, -⟩ := he
  have begun : ∀ {j : PassInput} {r : Program Db Unit},
      (next cfg s (.pipeline (.beginPass i))).pipe.conductor = some (j, r) →
        i = j ∧ pass cfg i = r :=
    fun h => Prod.mk.inj (Option.some.inj h)
  refine tracked_of_aside ht (aside_of_eq rfl rfl rfl) (ht.pipe.tail (e := .beginPass i) ⟨hen, rfl⟩)
    le_rfl (fun _ _ => .refl _ _ _ _) ?_ ?_ ?_
  · intro j r hj
    obtain ⟨rfl, rfl⟩ := begun hj
    exact pass_writes cfg i
  · intro j r hj hσ
    obtain ⟨rfl, rfl⟩ := begun hj
    obtain ⟨hnow, -, hcached, hwithin⟩ := hreads hσ
    subst hσ
    refine ⟨pass_chart hw ⟨hcached, hwithin⟩, hnow.le, fun b hb => ?_⟩
    rw [le_lastComplete hw, hnow]
    exact (ht.chart.past b hb).2
  · intro j r hj hσ
    obtain ⟨rfl, rfl⟩ := begun hj
    refine Or.inr fun sim hm hid hd => ?_
    have hrun := (hreads hσ).2.1 sim hm hid
    rw [hd] at hrun
    cases hrun

theorem end_tracked (ht : Tracked cfg σ s) : Tracked cfg σ (next cfg s (.pipeline .endPass)) := by
  have none : ∀ {j : PassInput} {r : Program Db Unit},
      (next cfg s (.pipeline .endPass)).pipe.conductor ≠ some (j, r) := nofun
  exact tracked_of_aside ht (aside_of_eq rfl rfl rfl) (ht.pipe.tail (e := .endPass) ⟨trivial, rfl⟩)
    le_rfl (fun _ _ => .refl _ _ _ _) (fun _ _ h => absurd h none) (fun _ _ h => absurd h none)
    fun _ _ h => absurd h none

theorem step_tracked (hw : 0 < cfg.metricsBucketVirtualS) (ht : Tracked cfg σ s)
    (he : Enabled cfg σ s e) : Tracked cfg σ (next cfg s e) := by
  have kept : ∀ {t : State}, (DeliveryPipeline.system cfg).Reachable t.pipe →
      t.pipe.db.cast = s.pipe.db.cast → t.pipe.db.metrics = s.pipe.db.metrics →
      t.pipe.db.simulations = s.pipe.db.simulations → t.pipe.conductor = s.pipe.conductor →
      s.clock ≤ t.clock → (∀ b : ℤ, (b + 2) * cfg.metricsBucketVirtualS ≤ s.clock →
        SameTo cfg.metricsBucketVirtualS σ b s.pipe.db t.pipe.db) → Tracked cfg σ t := by
    intro t hr hcast hm hsims hc hl hsame
    have ha : Aside σ s.pipe.db t.pipe.db := aside_of_eq hcast hm hsims
    refine tracked_of_aside ht ha hr hl hsame (fun i p hp => ht.writes i p (hc ▸ hp)) ?_
      fun i p hp _ => Or.inl ⟨p, hc ▸ hp⟩
    intro i p hp hi
    subst hi
    exact (ht.passing i p (hc ▸ hp) rfl).aside hw ha hm hl hsame
  cases e with
  | elapse d =>
    exact kept ht.pipe rfl rfl rfl rfl (le_add_of_nonneg_right he) fun _ _ => .refl _ _ _ _
  | pipeline a =>
    have hi := reachable_invariant ht.pipe
    have hstep : Step cfg s.pipe a (DeliveryPipeline.next cfg s.pipe a) := ⟨he.1, rfl⟩
    have heff := step_effect hi hstep
    have hsame := fun b => effect_same b hw heff hi.files he.2.2
    cases a with
    | beginPass i => exact begin_tracked hw ht he
    | statement => exact statement_tracked hw ht he
    | endPass => exact end_tracked ht
    | ingest | claim | complete | abandon =>
      exact kept (ht.pipe.tail hstep) heff.cast rfl rfl rfl le_rfl hsame

theorem initial_tracked (h : Initial σ s) : Tracked cfg σ s := by
  obtain ⟨cast, sims, hp, hd⟩ := h
  have hdb : s.pipe.db = .seeded cast sims := by
    rw [hp]
    rfl
  have hnone : s.pipe.conductor = none := by
    rw [hp]
    rfl
  have hempty : recoverCursor σ s.pipe.db = none := by
    rw [hdb]
    rfl
  refine ⟨.initial ⟨cast, sims, hp⟩, ⟨?_, fun c _ b => ?_, ?_, ?_⟩, ?_, ?_, ?_⟩
  · rw [hdb]
    exact List.nodup_nil
  · rw [hempty, firstMissing]
    exact iff_of_false (recoverCursor_eq_none.mp hempty c b) fun h => absurd h.1 (not_le.mpr h.2)
  · rw [hdb]
    exact fun _ h => absurd h List.not_mem_nil
  · rw [hempty]
    exact fun _ h => absurd h (by simp)
  · rw [hnone]
    exact fun _ _ h => absurd h (by simp)
  · rw [hnone]
    exact fun _ _ h => absurd h (by simp)
  · intro sim hm hid hdone
    rw [hdb] at hm
    exact absurd hdone (hd sim hm hid)

theorem reachable_tracked (hw : 0 < cfg.metricsBucketVirtualS)
    (h : (system cfg σ).Reachable s) : Tracked cfg σ s := by
  refine h.invariant (P := Tracked cfg σ) (fun _ h => initial_tracked h) ?_
  rintro s e t - ht ⟨he, rfl⟩
  exact step_tracked hw ht he

/-- The chart of a retired run has the buckets that were complete at its end, and no other. -/
theorem Closed.present {now : ℚ} {c : ConsumerId} (ht : Tracked cfg σ s) (hc : Closed cfg σ s now)
    (hm : c ∈ consumerIds σ s.pipe.db) (b : ℤ) :
    Present σ c b s.pipe.db.metrics ↔ 0 ≤ b ∧ b ≤ lastComplete cfg now := by
  have hcovered := hc.covered (List.ne_nil_of_mem hm)
  rw [ht.chart.contiguous c hm b]
  cases hr : recoverCursor σ s.pipe.db with
  | none =>
    rw [hr] at hcovered
    simp only [firstMissing] at hcovered ⊢
    omega
  | some top =>
    have htop := hc.ahead top hr
    rw [hr] at hcovered
    simp only [firstMissing] at hcovered ⊢
    omega

/-- The chart of a retired run accounts for all of a consumer's deliveries and attempts exactly
when none of them lies in the last two buckets before the end, or later. -/
theorem retired_chart_accounts (hw : 0 < cfg.metricsBucketVirtualS)
    (h : (system cfg σ).Reachable s) {sim : Simulation} (hm : sim ∈ s.pipe.db.simulations)
    (hid : sim.id = σ) (hd : sim.status = .done) :
    ∃ now, sim.pausedAtVirtual = some now ∧ ∀ c ∈ consumerIds σ s.pipe.db,
      (Accounted σ c s.pipe.db ↔
        InTime cfg.metricsBucketVirtualS (lastComplete cfg now) σ c s.pipe.db) := by
  have ht := reachable_tracked hw h
  obtain ⟨now, hp, hc⟩ := ht.retired sim hm hid hd
  refine ⟨now, hp, fun c hmem => ?_⟩
  exact accounted_iff ht.chart.keys (hc.present ht hmem) ht.chart.exact fun d hd =>
    ((reachable_invariant ht.pipe).files d hd).completed

end Runs

section Ends

def minutely : Settings := { metricsBucketVirtualS := 60 }

def started : Simulation where
  id := 1
  status := .running
  virtualEpoch := 0
  resumedAtWall := 0
  pausedAtVirtual := none
  speedMultiplier := 20
  fairDrainEnabled := true
  globalAttemptsPerS := 30
  outageOverride := none

def opening : State := ⟨DeliveryPipeline.initial soleConsumer [started], 0⟩

theorem opening_initial : Initial 1 opening := by
  refine ⟨soleConsumer, [started], rfl, fun sim hm _ => ?_⟩
  rw [List.mem_singleton.mp hm]
  decide

def delivering (posted completed : ℚ) : List Event :=
  [.elapse posted, .pipeline (.ingest 1 posted [⟨"patient.updated", "chart", none⟩])] ++
    (wholePass posted).map .pipeline ++
    [.pipeline (.claim 3 1 posted (fun _ => false) .physical), .elapse (completed - posted),
      .pipeline (.complete 3 [⟨.ok, some 200⟩] completed), .elapse (1801 / 2 - completed)] ++
    (wholePass (1801 / 2)).map .pipeline

theorem delivering_reachable {posted completed : ℚ} {s : State}
    (h : runList (Enabled minutely 1) (next minutely) opening (delivering posted completed) =
      some s) : (system minutely 1).Reachable s :=
  ⟨opening, opening_initial, runList_execution (Initial 1) _ _ h⟩

/-- What comes to pass three minutes before the end is on the chart. -/
theorem retired_chart_accounts_early : ∃ s, (system minutely 1).Reachable s ∧
    s.pipe.db.simulations = [retireRow (1801 / 2) started] ∧ 1 ∈ consumerIds 1 s.pipe.db ∧
    Accounted 1 1 s.pipe.db := by
  have hstate : (runList (Enabled minutely 1) (next minutely) opening (delivering 600 700)).map
      (fun s => (s.pipe.db.simulations, consumerIds 1 s.pipe.db,
        s.pipe.db.deliveries.rows.map Delivery.completedAt,
        s.pipe.db.attempts.rows.map Attempt.startedAt)) =
      some ([retireRow (1801 / 2) started], [1], [some 700], [600]) := by decide +kernel
  obtain ⟨s, hs, hst⟩ := Option.map_eq_some_iff.mp hstate
  simp only [Prod.mk.injEq] at hst
  obtain ⟨hsims, hids, hcompleted, hstarted⟩ := hst
  have hr := delivering_reachable hs
  have hm : retireRow (1801 / 2) started ∈ s.pipe.db.simulations := by
    rw [hsims]
    exact List.mem_singleton_self _
  have hc : 1 ∈ consumerIds 1 s.pipe.db := by
    rw [hids]
    exact List.mem_singleton_self _
  refine ⟨s, hr, hsims, hc, ?_⟩
  obtain ⟨now, hnow, hiff⟩ := retired_chart_accounts (by decide) hr hm rfl rfl
  obtain rfl : 1801 / 2 = now := Option.some.inj hnow
  refine (hiff 1 hc).mpr ⟨fun d hd _ _ x hx => ?_, fun a ha _ _ => ?_⟩
  · have hmem := List.mem_map_of_mem (f := Delivery.completedAt) hd
    rw [hcompleted, List.mem_singleton, hx] at hmem
    rw [Option.some.inj hmem]
    decide +kernel
  · have hmem := List.mem_map_of_mem (f := Attempt.startedAt) ha
    rw [hstarted, List.mem_singleton] at hmem
    rw [hmem]
    decide +kernel

/-- The delivery comes to its end half a second before the pass that retires the run. -/
theorem late_delivery_missing : ¬ ∀ s, (system minutely 1).Reachable s →
    ∀ sim ∈ s.pipe.db.simulations, sim.id = 1 → sim.status = .done →
      ∀ c ∈ consumerIds 1 s.pipe.db, Accounted 1 c s.pipe.db := by
  have hstate : (runList (Enabled minutely 1) (next minutely) opening (delivering 899 900)).map
      (fun s => (s.pipe.db.simulations, consumerIds 1 s.pipe.db,
        chartSum 1 1 (counter .delivered) s.pipe.db.metrics,
        settledOf 1 1 .delivered s.pipe.db)) =
      some ([retireRow (1801 / 2) started], [1], 0, 1) := by decide +kernel
  obtain ⟨s, hs, hst⟩ := Option.map_eq_some_iff.mp hstate
  simp only [Prod.mk.injEq] at hst
  obtain ⟨hsims, hids, hchart, htable⟩ := hst
  intro h
  have hsum := (h s (delivering_reachable hs) (retireRow (1801 / 2) started)
    (by rw [hsims]; exact List.mem_singleton_self _) rfl rfl 1
    (by rw [hids]; exact List.mem_singleton_self _)).terminals .delivered rfl
  rw [hchart, htable] at hsum
  cases hsum

end Ends

end RetiredChart
