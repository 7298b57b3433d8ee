import WebhookRecovery.ChartCompleteness

/-! The counters of a simulation's series over the committed calls of one writer after another,
among attempts and decisions that become visible up to one bucket late. A call stops two buckets
behind its instant, and what becomes visible after that is stamped later than its buckets. -/
namespace CounterExactness

open RecoverySchema InterleavedPrograms MetricsSeries ChartTallies SeriesContiguity SeriesCalls
open ChartCompleteness

/-- `_bucket_of`: the same arithmetic as `bucket_index`, evaluated in Postgres. -/
def bucketOf (column bucketS : ℚ) : ℤ := (column / bucketS).floor

def Within (bucketS : ℚ) (b : ℤ) (x : ℚ) : Prop := b * bucketS ≤ x ∧ x < (b + 1) * bucketS

instance (bucketS : ℚ) (b : ℤ) (x : ℚ) : Decidable (Within bucketS b x) :=
  inferInstanceAs (Decidable (_ ∧ _))

section Specification

variable (bucketS : ℚ) (σ : SimulationId)

/-- The index, the key and the window of the query put an instant into the same buckets. -/
structure Agree : Prop where
  index : ∀ x b, bucketIndex x bucketS = b ↔ Within bucketS b x
  key : ∀ x, bucketOf x bucketS = bucketIndex x bucketS
  window : ∀ (x : ℚ) (start stop : ℤ), (start * bucketS ≤ x ∧ x < (stop + 1) * bucketS) ↔
    start ≤ bucketOf x bucketS ∧ bucketOf x bucketS ≤ stop

def attemptsWithin (c : ConsumerId) (b : ℤ) (db : Db) : ℕ :=
  db.attempts.rows.countP fun a =>
    decide (a.simulationId = σ ∧ a.consumerId = c ∧ Within bucketS b a.startedAt)

def decisionsWithin (c : ConsumerId) (st : DeliveryState) (b : ℤ) (db : Db) : ℕ :=
  db.deliveries.rows.countP fun d =>
    decide (d.simulationId = σ ∧ d.consumerId = c ∧ d.state = st) &&
      d.completedAt.any fun x => decide (Within bucketS b x)

def CountedOnce (c : ConsumerId) (x : ℚ) (db : Db) : Prop :=
  ∃! m, m ∈ db.metrics ∧ m.simulationId = σ ∧ m.consumerId = c ∧ Within bucketS m.bucketVirtualS x

/-- Each stored bucket holds its own attempts and decisions, and each of these that the series has
come to is held by one bucket. -/
structure CountersExact (db : Db) : Prop where
  agree : Agree bucketS
  attempts : ∀ m ∈ db.metrics, m.simulationId = σ →
    m.attempts = attemptsWithin bucketS σ m.consumerId m.bucketVirtualS db
  decisions : ∀ m ∈ db.metrics, m.simulationId = σ → ∀ st : DeliveryState, st.terminal →
    counter st m = decisionsWithin bucketS σ m.consumerId st m.bucketVirtualS db
  attempt_once : ∀ a ∈ db.attempts.rows, a.simulationId = σ → a.consumerId ∈ consumerIds σ db →
    ∀ newest ∈ recoverCursor σ db, a.startedAt < (newest + 1) * bucketS →
      CountedOnce bucketS σ a.consumerId a.startedAt db
  decision_once : ∀ d ∈ db.deliveries.rows, d.simulationId = σ → d.consumerId ∈ consumerIds σ db →
    ∀ x ∈ d.completedAt, ∀ newest ∈ recoverCursor σ db, x < (newest + 1) * bucketS →
      CountedOnce bucketS σ d.consumerId x db

end Specification

structure State where
  db : Db
  clock : ℚ
  lastWritten : Option ℤ
  call : Option (ℚ × Program Db (Option ℤ))

inductive Event where
  | elapse (d : ℚ)
  | other (db : Db)
  | failover
  | call (now : ℚ) (gauges : Gauges)
  | statement

section Model

variable (cfg : Settings) (σ : SimulationId)

def SinceEpoch (db : Db) : Prop :=
  (∀ a ∈ db.attempts.rows, a.simulationId = σ → 0 ≤ a.startedAt) ∧
  ∀ d ∈ db.deliveries.rows, d.simulationId = σ → ∀ x ∈ d.completedAt, 0 ≤ x

instance (db : Db) : Decidable (SinceEpoch σ db) := inferInstanceAs (Decidable (_ ∧ _))

/-- One call at a time, at an instant that the clock has come to, with no more outstanding than it
may write; what others commit is at most one bucket late. -/
def Enabled (s : State) : Event → Prop
  | .elapse d => 0 ≤ d
  | .other db => Untouched σ s.db db ∧ SinceEpoch σ db ∧
    Stamped cfg.metricsBucketVirtualS σ s.clock s.db db
  | .failover => s.call = none
  | .call now _ => s.call = none ∧ now ≤ s.clock ∧
    outstanding cfg σ now s.db ≤ cfg.metricsMaxBackfillBuckets
  | .statement => True

def next (s : State) : Event → State
  | .elapse d => { s with clock := s.clock + d }
  | .other db => { s with db := db }
  | .failover => { s with lastWritten := none }
  | .call now gauges =>
    { s with call := some (now, MetricsSeries.write cfg σ now gauges s.lastWritten) }
  | .statement =>
    match s.call with
    | some (now, .stmt write k) => { s with db := write s.db, call := some (now, k s.db) }
    | some (_, .ret last) => { s with lastWritten := last, call := none }
    | none => s

def Initial (s : State) : Prop :=
  recoverCursor σ s.db = none ∧ (s.db.metrics.map MetricsSnapshot.key).Nodup ∧
    SinceEpoch σ s.db ∧ s.lastWritten = none ∧ s.call = none

def system : System State Event := .guarded (Initial σ) (Enabled cfg σ) (next cfg σ)

end Model

structure Calling (cfg : Settings) (σ : SimulationId) (s : State) (now : ℚ)
    (p : Program Db (Option ℤ)) : Prop where
  begun : now ≤ s.clock
  keeps : p.Guarantees (Undisturbed cfg σ now) (SeriesWrite cfg σ now) (Left cfg σ now) s.db

structure Tracked (cfg : Settings) (σ : SimulationId) (s : State) : Prop where
  chart : Charted cfg σ s.clock s.db
  epoch : SinceEpoch σ s.db
  cached : s.call = none → ∀ b ∈ s.lastWritten, recoverCursor σ s.db = some b
  calling : ∀ now p, s.call = some (now, p) → Calling cfg σ s now p

section Buckets

variable {cfg : Settings} {σ : SimulationId} {bucketS x clock : ℚ} {c : ConsumerId} {b : ℤ}
  {db : Db} {st : DeliveryState}

theorem agree (hw : 0 < bucketS) : Agree bucketS := by
  refine ⟨fun x b => bucketIndex_eq hw, fun _ => rfl, fun x start stop => ?_⟩
  change _ ↔ start ≤ ⌊x / bucketS⌋ ∧ ⌊x / bucketS⌋ ≤ stop
  rw [Int.le_floor, le_div_iff₀ hw, ← Int.lt_add_one_iff, Int.floor_lt, div_lt_iff₀ hw]
  push_cast
  rfl

theorem attemptsIn_within (hw : 0 < bucketS) :
    attemptsIn bucketS σ c b db = attemptsWithin bucketS σ c b db := by
  refine List.countP_congr fun a _ => ?_
  simp only [Bool.and_eq_true, beq_iff_eq, decide_eq_true_eq, and_assoc]
  rw [(agree hw).index]

theorem settledIn_within (hw : 0 < bucketS) :
    settledIn bucketS σ c st b db = decisionsWithin bucketS σ c st b db := by
  refine List.countP_congr fun d _ => ?_
  cases hx : d.completedAt with
  | none => simp
  | some x =>
    simp only [Option.map_some, Option.any_some, Option.some.injEq, Bool.and_eq_true, beq_iff_eq,
      decide_eq_true_eq, and_assoc]
    rw [(agree hw).index]

theorem counted_once (hw : 0 < cfg.metricsBucketVirtualS) (h : Charted cfg σ clock db)
    (hc : c ∈ consumerIds σ db) (h0 : 0 ≤ x) {newest : ℤ} (hn : newest ∈ recoverCursor σ db)
    (hx : x < (newest + 1) * cfg.metricsBucketVirtualS) :
    CountedOnce cfg.metricsBucketVirtualS σ c x db := by
  have hrange : 0 ≤ bucketIndex x cfg.metricsBucketVirtualS ∧
      bucketIndex x cfg.metricsBucketVirtualS ≤ newest := by
    apply ((agree hw).window x 0 newest).mp
    refine ⟨?_, hx⟩
    rw [Int.cast_zero, zero_mul]
    exact h0
  have hpresent : Present σ c (bucketIndex x cfg.metricsBucketVirtualS) db.metrics := by
    apply (h.contiguous c hc _).mpr
    rw [Option.mem_def.mp hn]
    exact ⟨hrange.1, Int.lt_add_one_iff.mpr hrange.2⟩
  obtain ⟨m, hm, hkey⟩ := List.mem_map.mp hpresent
  simp only [MetricsSnapshot.key, Prod.mk.injEq] at hkey
  refine ⟨m, ⟨hm, hkey.1, hkey.2.1, ((agree hw).index x _).mp hkey.2.2.symm⟩, ?_⟩
  rintro n ⟨hn, hσ, hcn, hin⟩
  refine List.inj_on_of_nodup_map h.keys hn hm ?_
  have hb : bucketIndex x cfg.metricsBucketVirtualS = n.bucketVirtualS :=
    ((agree hw).index x _).mpr hin
  rw [MetricsSnapshot.key, MetricsSnapshot.key, hσ, hcn, ← hb, hkey.1, hkey.2.1, hkey.2.2]

theorem charted_exact (hw : 0 < cfg.metricsBucketVirtualS) (h : Charted cfg σ clock db)
    (he : SinceEpoch σ db) : CountersExact cfg.metricsBucketVirtualS σ db where
  agree := agree hw
  attempts m hm hs := by
    rw [← attemptsIn_within hw, (h.exact m hm hs).attempts, hs]
  decisions m hm hs st hst := by
    rw [← settledIn_within hw, (h.exact m hm hs).terminals st hst, hs]
  attempt_once a ha hs hc _ hn hx := counted_once hw h hc (he.1 a ha hs) hn hx
  decision_once d hd hs hc x hx _ hn hlt := counted_once hw h hc (he.2 d hd hs x hx) hn hlt

end Buckets

section Runs

variable {cfg : Settings} {σ : SimulationId} {s t : State} {e : Event} {now : ℚ}
  {p : Program Db (Option ℤ)}

theorem Calling.undisturbed (h : Calling cfg σ s now p)
    (hu : Undisturbed cfg σ now s.db t.db) (hl : s.clock ≤ t.clock) : Calling cfg σ t now p :=
  ⟨h.begun.trans hl, h.keeps.rely (fun _ _ _ h k => h.trans k)
    (fun _ _ _ hu hleft => hleft.undisturbed hu) hu⟩

/-- What others commit, and the passing of time, leave the series and its buckets alone. -/
theorem others_tracked (hw : 0 < cfg.metricsBucketVirtualS) (ht : Tracked cfg σ s)
    (ha : Untouched σ s.db t.db) (he : SinceEpoch σ t.db) (hl : s.clock ≤ t.clock)
    (hs : Stamped cfg.metricsBucketVirtualS σ s.clock s.db t.db) (hc : t.call = s.call)
    (hlast : t.lastWritten = s.lastWritten) : Tracked cfg σ t := by
  refine ⟨ht.chart.untouched ha hl (hs.same hw), he, fun hnone b hb => ?_, fun now p hp => ?_⟩
  · rw [ha.cursor]
    exact ht.cached (hc ▸ hnone) b (hlast ▸ hb)
  · have hcalling := ht.calling now p (hc ▸ hp)
    refine hcalling.undisturbed ⟨ha.cursor, ha.consumers, hs.same hw _ ?_⟩ hl
    exact ((le_lastComplete hw).mp le_rfl).trans hcalling.begun

/-- A statement of a call reads, or adds rows for buckets that are complete. -/
theorem write_tracked {db : Db} (hw : 0 < cfg.metricsBucketVirtualS) (ht : Tracked cfg σ s)
    (hn : now ≤ s.clock) (h : SeriesWrite cfg σ now s.db db) :
    Charted cfg σ s.clock db ∧ SinceEpoch σ db := by
  cases h with
  | read => exact ⟨ht.chart, ht.epoch⟩
  | add rows h => exact ⟨ht.chart.upsert hw h hn, ht.epoch⟩

theorem statement_tracked (hw : 0 < cfg.metricsBucketVirtualS) (ht : Tracked cfg σ s) :
    Tracked cfg σ (next cfg σ s .statement) := by
  unfold next
  dsimp only
  split
  · rename_i now write k hcall
    have hcalling := ht.calling now _ hcall
    obtain ⟨hwrite, hrest⟩ := hcalling.keeps s.db (.refl _)
    obtain ⟨hchart, hepoch⟩ := write_tracked hw ht hcalling.begun hwrite
    refine ⟨hchart, hepoch, fun hnone => (by cases hnone), fun n p hp => ?_⟩
    obtain ⟨rfl, rfl⟩ := Prod.mk.inj (Option.some.inj hp)
    exact ⟨hcalling.begun, hrest⟩
  · rename_i now last hcall
    have hleft : Left cfg σ now last s.db := (ht.calling now _ hcall).keeps
    exact ⟨ht.chart, ht.epoch, fun _ => hleft.cached, fun n p hp => (by cases hp)⟩
  · exact ht

theorem step_tracked (hw : 0 < cfg.metricsBucketVirtualS) (ht : Tracked cfg σ s)
    (he : Enabled cfg σ s e) : Tracked cfg σ (next cfg σ s e) := by
  cases e with
  | elapse d =>
    exact others_tracked hw ht (.refl _) ht.epoch (le_add_of_nonneg_right he) (.refl ..) rfl rfl
  | other db =>
    obtain ⟨ha, hepoch, hs⟩ := he
    exact others_tracked hw ht ha hepoch le_rfl hs rfl rfl
  | failover =>
    refine ⟨ht.chart, ht.epoch, fun _ b hb => (by cases hb), fun now p hp => ?_⟩
    exact ⟨(ht.calling now p hp).begun, (ht.calling now p hp).keeps⟩
  | call now gauges =>
    obtain ⟨hnone, hn, hwithin⟩ := he
    refine ⟨ht.chart, ht.epoch, fun h => (by cases h), fun n p hp => ?_⟩
    obtain ⟨rfl, rfl⟩ := Prod.mk.inj (Option.some.inj hp)
    exact ⟨hn, write_guarantee hw (ht.cached hnone) hwithin fun _ _ h => h⟩
  | statement => exact statement_tracked hw ht

theorem initial_tracked (h : Initial σ s) : Tracked cfg σ s := by
  obtain ⟨hempty, hkeys, hepoch, hlast, hcall⟩ := h
  have hnone := recoverCursor_eq_none.mp hempty
  refine ⟨⟨hkeys, fun c _ b => ?_, fun m hm hs => ?_, ?_⟩, hepoch, ?_, ?_⟩
  · rw [hempty, firstMissing]
    exact iff_of_false (hnone c b) fun h => absurd h.1 (not_le.mpr h.2)
  · exact absurd (List.mem_map.mpr ⟨m, hm, by rw [MetricsSnapshot.key, hs]⟩) (hnone _ _)
  · rw [hempty]
    exact fun _ h => by cases h
  · rw [hlast]
    exact fun _ _ h => by cases h
  · rw [hcall]
    exact fun _ _ h => by cases h

theorem reachable_tracked (hw : 0 < cfg.metricsBucketVirtualS)
    (h : (system cfg σ).Reachable s) : Tracked cfg σ s := by
  refine h.invariant (P := Tracked cfg σ) (fun _ h => initial_tracked h) ?_
  rintro s e t - ht ⟨he, rfl⟩
  exact step_tracked hw ht he

/-- The counters are exact, whatever is committed between the calls and between the statements of
a call, as long as it is at most one bucket late. -/
theorem counters_exact (hw : 0 < cfg.metricsBucketVirtualS) (h : (system cfg σ).Reachable s) :
    CountersExact cfg.metricsBucketVirtualS σ s.db :=
  charted_exact hw (reachable_tracked hw h).chart (reachable_tracked hw h).epoch

theorem pipeline_stamped {u v : DeliveryPipeline.State} {a : DeliveryPipeline.Action} {clock : ℚ}
    (h : (DeliveryPipeline.system cfg).Reachable u) (hs : DeliveryPipeline.Step cfg u a v)
    (hv : Visible cfg.metricsBucketVirtualS σ clock u.db v.db) :
    Stamped cfg.metricsBucketVirtualS σ clock u.db v.db :=
  effect_stamped (PipelineInvariant.step_effect (PipelineInvariant.reachable_invariant h) hs)
    (PipelineInvariant.reachable_invariant h).files hv

end Runs

section LateDecision

open DeliveryPipeline (soleConsumer wholePass)

def claims : List DeliveryPipeline.Action :=
  .ingest 1 1 [⟨"patient.updated", "chart", none⟩] :: wholePass 1 ++
    [.claim 7 1 (3 / 2) (fun _ => false) .physical]

def claimed : DeliveryPipeline.State :=
  (DeliveryPipeline.run shipped (DeliveryPipeline.initial soleConsumer []) claims).getD
    (DeliveryPipeline.initial soleConsumer [])

def completed : DeliveryPipeline.State :=
  DeliveryPipeline.next shipped claimed (.complete 7 [⟨.ok, some 200⟩] 2)

def opening : State := ⟨claimed.db, 3 / 2, none, none⟩

def calling : State :=
  [.elapse 1, .other completed.db, .elapse (3 / 2), .call 4 []].foldl (next shipped 1) opening

theorem claimed_reachable : (DeliveryPipeline.system shipped).Reachable claimed := by
  have hrun : (DeliveryPipeline.run shipped
      (DeliveryPipeline.initial soleConsumer []) claims).isSome := by
    decide +kernel
  obtain ⟨s, hs⟩ := Option.isSome_iff_exists.mp hrun
  have hclaimed : claimed = s := by
    rw [claimed, hs]
    rfl
  rw [hclaimed]
  exact ⟨_, ⟨soleConsumer, [], rfl⟩, DeliveryPipeline.run_execution hs⟩

theorem calling_reachable : (system shipped 1).Reachable calling := by
  have step : ∀ {s} e, (system shipped 1).Reachable s → Enabled shipped 1 s e →
      (system shipped 1).Reachable (next shipped 1 s e) := fun e h he => h.tail ⟨he, rfl⟩
  have h₀ : (system shipped 1).Reachable opening := by
    refine .initial ⟨?_, ?_, ?_, rfl, rfl⟩
    · decide +kernel
    · decide +kernel
    · decide +kernel
  have hstep : DeliveryPipeline.Step shipped claimed (.complete 7 [⟨.ok, some 200⟩] 2) completed :=
    ⟨by decide +kernel, rfl⟩
  have huntouched : Untouched 1 claimed.db completed.db :=
    ⟨(PipelineInvariant.step_effect (PipelineInvariant.reachable_invariant claimed_reachable)
      hstep).cast, id, fun _ _ => Iff.rfl⟩
  have hstamped : Stamped shipped.metricsBucketVirtualS 1 (3 / 2 + 1) claimed.db completed.db :=
    pipeline_stamped claimed_reachable hstep (by decide +kernel)
  have h₁ := step (.elapse 1) h₀ (show (0 : ℚ) ≤ 1 by decide +kernel)
  have h₂ := step (.other completed.db) h₁ ⟨huntouched, by decide +kernel, hstamped⟩
  have h₃ := step (.elapse (3 / 2)) h₂ (show (0 : ℚ) ≤ 3 / 2 by decide +kernel)
  exact step (.call 4 []) h₃ ⟨rfl, by decide +kernel, by decide +kernel⟩

/-- The attempt counts in bucket 1 and the decision in bucket 2, when all statements are done. -/
theorem counters_exact_late_decision :
    CountersExact 1 1 ((fun s => next shipped 1 s .statement)^[6] calling).db ∧
      ((fun s => next shipped 1 s .statement)^[6] calling).db.metrics.map
        (fun m => (m.bucketVirtualS, m.attempts, m.delivered)) =
          [(0, 0, 0), (1, 1, 0), (2, 0, 1)] := by
  have statements : ∀ n, (system shipped 1).Reachable
      ((fun s => next shipped 1 s .statement)^[n] calling) := by
    intro n
    induction n with
    | zero => exact calling_reachable
    | succ n ih =>
      rw [Function.iterate_succ_apply']
      exact ih.tail (e := .statement) ⟨trivial, rfl⟩
  exact ⟨counters_exact (by decide +kernel) (statements 6), by decide +kernel⟩

end LateDecision

end CounterExactness
