import WebhookRecovery.PassStages
import WebhookRecovery.SeriesCalls
import WebhookRecovery.DeliveryLifecycle

/-! The chart that the passes over a simulation build up. A pass writes all that is missing up to
the second bucket before the current one, and by then those buckets are complete. -/
namespace ChartCompleteness

open KeyedTables RecoverySchema InterleavedPrograms MetricsSeries ConductorPass DeliveryPipeline
open PassGuarantee PassStages ChartTallies DeliveryFile PipelineInvariant LeaseReaper
open SeriesContiguity SeriesCalls

section Passes

/-- What a pass relies on: nobody else writes the chart, and its buckets are complete. -/
structure Meanwhile (cfg : Settings) (i : PassInput) (s t : Db) : Prop where
  cast : t.cast = s.cast
  metrics : t.metrics = s.metrics
  same : SameTo cfg.metricsBucketVirtualS i.simulationId (lastComplete cfg i.now) s t

def Covered (cfg : Settings) (i : PassInput) (s : Db) : Prop :=
  consumerIds i.simulationId s ≠ [] →
    lastComplete cfg i.now < firstMissing (recoverCursor i.simulationId s)

/-- The rows are the missing ones, one for each consumer and bucket, and they count all. -/
structure Completes (cfg : Settings) (i : PassInput) (rows : List MetricsSnapshot) (s : Db) :
    Prop where
  missing : firstMissing (recoverCursor i.simulationId s) ≤ lastComplete cfg i.now
  someone : consumerIds i.simulationId s ≠ []
  own : ∀ m ∈ rows, m.simulationId = i.simulationId
  exact : ∀ m ∈ rows, Exact cfg.metricsBucketVirtualS s m
  present : ∀ c b, Present i.simulationId c b rows ↔ c ∈ consumerIds i.simulationId s ∧
    firstMissing (recoverCursor i.simulationId s) ≤ b ∧ b ≤ lastComplete cfg i.now

inductive ChartWrite (cfg : Settings) (i : PassInput) (s : Db) : Db → Prop where
  | keep {t : Db} (cast : t.cast = s.cast) (metrics : t.metrics = s.metrics)
      (simulations : t.simulations = s.simulations) : ChartWrite cfg i s t
  | chart (rows : List MetricsSnapshot) (h : Completes cfg i rows s) :
      ChartWrite cfg i s (upsert rows s)
  | retire (h : Covered cfg i s) : ChartWrite cfg i s (retire i.simulationId i.now s)

variable {cfg : Settings} {i : PassInput} {s t u : Db} {gauges : Gauges}

theorem Meanwhile.refl (s : Db) : Meanwhile cfg i s s := ⟨rfl, rfl, .refl _ _ _ _⟩

theorem Meanwhile.trans (h : Meanwhile cfg i s t) (k : Meanwhile cfg i t u) : Meanwhile cfg i s u :=
  ⟨k.cast.trans h.cast, k.metrics.trans h.metrics, h.same.trans k.same⟩

theorem Meanwhile.cursor (h : Meanwhile cfg i s t) :
    recoverCursor i.simulationId t = recoverCursor i.simulationId s := by
  rw [recoverCursor, h.metrics, recoverCursor]

theorem Meanwhile.consumers (h : Meanwhile cfg i s t) :
    consumerIds i.simulationId t = consumerIds i.simulationId s := by
  rw [consumerIds, h.cast, consumerIds]

theorem Covered.meanwhile (h : Covered cfg i s) (hm : Meanwhile cfg i s t) : Covered cfg i t := by
  rw [Covered]
  rw [hm.cursor, hm.consumers]
  exact h

theorem keep_self (s : Db) : ChartWrite cfg i s s := .keep rfl rfl rfl

theorem Completes.adds {rows : List MetricsSnapshot} (h : Completes cfg i rows s) :
    Adds cfg i.simulationId i.now rows s :=
  ⟨h.missing, h.someone, h.own, h.exact, h.present⟩

theorem Completes.of_adds {rows : List MetricsSnapshot}
    (h : Adds cfg i.simulationId i.now rows s) : Completes cfg i rows s :=
  ⟨h.missing, h.someone, h.own, h.exact, h.present⟩

structure Ready (cfg : Settings) (i : PassInput) (s : Db) : Prop where
  cached : ∀ b ∈ i.lastWritten, recoverCursor i.simulationId s = some b
  within : outstanding cfg i.simulationId i.now s ≤ cfg.metricsMaxBackfillBuckets

theorem Ready.meanwhile (h : Ready cfg i s) (hm : Meanwhile cfg i s t) : Ready cfg i t := by
  refine ⟨fun b hb => hm.cursor.trans (h.cached b hb), ?_⟩
  rw [outstanding, hm.cursor]
  exact h.within

/-- A call of the writer as the part of a pass that it is. -/
theorem write_chart (hw : 0 < cfg.metricsBucketVirtualS) (hr : Ready cfg i s)
    {Q : Option ℤ → Db → Prop} (hq : ∀ r t, Covered cfg i t → Q r t) :
    (MetricsSeries.write cfg i.simulationId i.now gauges i.lastWritten).Guarantees (Meanwhile cfg i)
      (ChartWrite cfg i) Q s := by
  refine (write_guarantee hw hr.cached hr.within fun r t h => hq r t h.covered).weaken
    (fun s t h => ⟨h.cursor, h.consumers, h.same⟩) fun s t h => ?_
  cases h with
  | read => exact keep_self s
  | add rows h => exact .chart rows (.of_adds h)

/-- A pass adds to the chart what is missing, all of it, before it retires the run. -/
theorem pass_chart (hw : 0 < cfg.metricsBucketVirtualS) (hr : Ready cfg i s) :
    (pass cfg i).Guarantees (Meanwhile cfg i) (ChartWrite cfg i) (fun _ _ => True) s := by
  rw [pass_stages]
  refine Program.Guarantees.bind (Program.Guarantees.write fun t ht => ⟨.keep rfl rfl rfl, ?_⟩)
  refine Program.Guarantees.bind (Program.Guarantees.read fun u hu => ⟨keep_self u, ?_⟩)
  have hready : Ready cfg i u := by
    have ht := hr.meanwhile ht
    refine ⟨fun b hb => ?_, ?_⟩
    · rw [hu.cursor]
      exact ht.cached b hb
    · rw [outstanding, hu.cursor]
      exact ht.within
  refine Program.Guarantees.bind (write_chart hw hready fun _ v hv => ?_)
  rw [conclude]
  split
  · exact Program.Guarantees.write fun x hx => ⟨.retire (hv.meanwhile hx), trivial⟩
  · refine (admission_writes cfg).guarantees (S := fun _ _ => True) (fun _ => trivial)
      (fun _ _ _ _ _ => trivial) (fun _ _ _ => trivial) (fun _ _ _ => trivial) ?_
      fun _ _ _ => trivial
    intro x y h
    cases h with
    | read => exact keep_self x
    | drop drops => exact .keep rfl rfl rfl
    | ready ids => exact .keep rfl rfl rfl

end Passes

/-- What becomes visible at an instant is stamped one bucket width before it at the earliest. -/
def Visible (bucketS : ℚ) (σ : SimulationId) (clock : ℚ) (s t : Db) : Prop :=
  (∀ d ∈ t.deliveries.rows, d.simulationId = σ → d ∉ s.deliveries.rows →
    ∀ x ∈ d.completedAt, clock ≤ x + bucketS) ∧
  ∀ a ∈ t.attempts.rows, a.simulationId = σ → a.id ∉ s.attempts.rows.map Attempt.id →
    clock ≤ a.startedAt + bucketS

instance (bucketS : ℚ) (σ : SimulationId) (clock : ℚ) (s t : Db) :
    Decidable (Visible bucketS σ clock s t) := inferInstanceAs (Decidable (_ ∧ _))

/-- What a commit at an instant adds to what is counted: attempts start and deliveries come to an
end, each stamped one bucket width before the instant at the earliest. -/
structure Stamped (bucketS : ℚ) (σ : SimulationId) (clock : ℚ) (s t : Db) : Prop where
  attempts : ∃ (g : Attempt → Attempt) (more : List Attempt),
    t.attempts.rows = s.attempts.rows.map g ++ more ∧
    (∀ a, (g a).simulationId = a.simulationId ∧ (g a).consumerId = a.consumerId ∧
      (g a).startedAt = a.startedAt) ∧
    ∀ a ∈ more, a.simulationId = σ → clock ≤ a.startedAt + bucketS
  deliveries : ∃ (f : Delivery → Delivery) (new : List Delivery),
    t.deliveries.rows = s.deliveries.rows.map f ++ new ∧
    (∀ d ∈ s.deliveries.rows, d.completedAt.isSome → f d = d) ∧
    (∀ d ∈ s.deliveries.rows, d.completedAt = none → (f d).simulationId = σ →
      ∀ x ∈ (f d).completedAt, clock ≤ x + bucketS) ∧
    ∀ d ∈ new, d.simulationId = σ → ∀ x ∈ d.completedAt, clock ≤ x + bucketS

section Effects

variable {cfg : Settings} {σ : SimulationId} {bucketS clock x : ℚ} {bound : ℤ} {s t : Db}

theorem late_stamp {b : ℤ} (hw : 0 < bucketS) (hb : (bound + 2) * bucketS ≤ clock)
    (hx : clock ≤ x + bucketS) (hle : b ≤ bound) : bucketIndex x bucketS ≠ b := by
  have hlt : bound < bucketIndex x bucketS := by
    rw [lt_bucketIndex hw]
    linarith
  exact (hle.trans_lt hlt).ne'

theorem Stamped.refl (bucketS : ℚ) (σ : SimulationId) (clock : ℚ) (s : Db) :
    Stamped bucketS σ clock s s := by
  constructor
  · exact ⟨id, [], by simp, fun _ => ⟨rfl, rfl, rfl⟩, by simp⟩
  · exact ⟨id, [], by simp, fun _ _ _ => rfl, fun d _ hd _ x hx => by simp [hd] at hx, by simp⟩

theorem Stamped.attemptsIn (hw : 0 < bucketS) (h : Stamped bucketS σ clock s t)
    (hb : (bound + 2) * bucketS ≤ clock) (c : ConsumerId) {b : ℤ} (hle : b ≤ bound) :
    attemptsIn bucketS σ c b t = attemptsIn bucketS σ c b s := by
  obtain ⟨g, more, hrows, hkept, hlate⟩ := h.attempts
  have hnew : more.countP (fun a => (a.simulationId == σ && a.consumerId == c) &&
      decide (bucketIndex a.startedAt bucketS = b)) = 0 := by
    refine List.countP_eq_zero.mpr fun a ha hin => ?_
    simp only [Bool.and_eq_true, beq_iff_eq, decide_eq_true_eq] at hin
    exact late_stamp hw hb (hlate a ha hin.1.1) hle hin.2
  rw [ChartTallies.attemptsIn, hrows, List.countP_append, hnew, Nat.add_zero, List.countP_map,
    ChartTallies.attemptsIn]
  refine List.countP_congr fun a _ => ?_
  obtain ⟨hs, hc, hx⟩ := hkept a
  rw [Function.comp_apply, hs, hc, hx]

theorem Stamped.settledIn (hw : 0 < bucketS) (h : Stamped bucketS σ clock s t)
    (hb : (bound + 2) * bucketS ≤ clock) (c : ConsumerId) (st : DeliveryState) {b : ℤ}
    (hle : b ≤ bound) : settledIn bucketS σ c st b t = settledIn bucketS σ c st b s := by
  obtain ⟨f, new, hrows, hkept, hmoved, hlate⟩ := h.deliveries
  have hnew : new.countP (fun d => (d.simulationId == σ && d.consumerId == c && d.state == st) &&
      decide (d.completedAt.map (fun x => bucketIndex x bucketS) = some b)) = 0 := by
    refine List.countP_eq_zero.mpr fun d hd hin => ?_
    simp only [Bool.and_eq_true, beq_iff_eq, decide_eq_true_eq, Option.map_eq_some_iff] at hin
    obtain ⟨⟨⟨hσ, -⟩, -⟩, y, hy, hyb⟩ := hin
    exact late_stamp hw hb (hlate d hd hσ y hy) hle hyb
  rw [ChartTallies.settledIn, hrows, List.countP_append, hnew, Nat.add_zero, List.countP_map,
    ChartTallies.settledIn]
  refine List.countP_congr fun d hd => ?_
  rw [Function.comp_apply]
  cases hx : d.completedAt with
  | some x => rw [hkept d hd (Option.isSome_of_eq_some hx), hx]
  | none =>
    -- it is completed by this very commit, or not at all
    refine iff_of_false (fun hin => ?_) (by simp)
    simp only [Bool.and_eq_true, beq_iff_eq, decide_eq_true_eq, Option.map_eq_some_iff] at hin
    obtain ⟨⟨⟨hσ, -⟩, -⟩, y, hy, hyb⟩ := hin
    exact late_stamp hw hb (hmoved d hd hx hσ y hy) hle hyb

/-- What is two buckets behind is complete. -/
theorem Stamped.same (hw : 0 < bucketS) (h : Stamped bucketS σ clock s t) (bound : ℤ)
    (hb : (bound + 2) * bucketS ≤ clock) : SameTo bucketS σ bound s t :=
  ⟨fun c _ hle => h.attemptsIn hw hb c hle, fun c st _ hle => h.settledIn hw hb c st hle⟩

variable {actor : Option WorkerId} {start : Option (SimulationId × ℚ)}

theorem effect_stamped (h : Effect cfg actor start s t)
    (hsound : ∀ d ∈ s.deliveries.rows, Sound cfg (file s d)) (hv : Visible bucketS σ clock s t) :
    Stamped bucketS σ clock s t := by
  constructor
  · obtain ⟨g, more, hrows, hkept, -⟩ := h.attempts
    refine ⟨g, more, hrows, fun a => ⟨(hkept a).simulation, (hkept a).consumer, (hkept a).started⟩,
      fun a ha hσ => hv.2 a (hrows ▸ List.mem_append_right _ ha) hσ fun hid => ?_⟩
    obtain ⟨o, ho, hoa⟩ := List.mem_map.mp hid
    have hordered := t.attempts.ordered
    rw [hrows, List.pairwise_append] at hordered
    have hlt : (g o).id < a.id := hordered.2.2 _ (List.mem_map_of_mem ho) a ha
    rw [(hkept o).id, hoa] at hlt
    exact lt_irrefl _ hlt
  · obtain ⟨f, new, posted, hrows, hmove, hfresh, -⟩ := h.deliveries
    refine ⟨f, new, hrows, fun d hd hx => ?_, fun d hd hx hσ y hy => ?_, fun d hd _ x hx => ?_⟩
    · have hterm : d.state.terminal := (hsound d hd).completed.mp hx
      exact congrArg File.delivery ((hmove d hd).terminal_fixed hterm)
    · have hmem : f d ∈ t.deliveries.rows := by
        rw [hrows]
        exact List.mem_append_left _ (List.mem_map_of_mem hd)
      refine hv.1 _ hmem hσ (fun hf => ?_) y hy
      have hsame : f d = d := s.deliveries.row_unique hf hd (hmove d hd).identity.1
      rw [hsame, hx] at hy
      cases hy
    · have hnone : d.completedAt = none := (hfresh d hd).2.2.2.2
      rw [hnone] at hx
      cases hx

theorem effect_same (bound : ℤ) (hw : 0 < bucketS) (h : Effect cfg actor start s t)
    (hsound : ∀ d ∈ s.deliveries.rows, Sound cfg (file s d)) (hv : Visible bucketS σ clock s t)
    (hb : (bound + 2) * bucketS ≤ clock) : SameTo bucketS σ bound s t :=
  (effect_stamped h hsound hv).same hw bound hb

end Effects

/-- The chart of a simulation at an instant: one exact row for each consumer and bucket up to a
newest one, which lies two behind. -/
structure Charted (cfg : Settings) (σ : SimulationId) (clock : ℚ) (db : Db) : Prop where
  keys : (db.metrics.map MetricsSnapshot.key).Nodup
  contiguous : Contiguous σ db
  exact : ∀ m ∈ db.metrics, m.simulationId = σ → Exact cfg.metricsBucketVirtualS db m
  past : ∀ b ∈ recoverCursor σ db, 0 ≤ b ∧ (b + 2) * cfg.metricsBucketVirtualS ≤ clock

structure Aside (σ : SimulationId) (s t : Db) : Prop where
  cast : t.cast = s.cast
  keys : (s.metrics.map MetricsSnapshot.key).Nodup → (t.metrics.map MetricsSnapshot.key).Nodup
  metrics : ∀ m, m.simulationId = σ → (m ∈ t.metrics ↔ m ∈ s.metrics)
  simulations : ∀ sim ∈ t.simulations, sim.id = σ → sim ∈ s.simulations

structure Untouched (σ : SimulationId) (s t : Db) : Prop where
  cast : t.cast = s.cast
  keys : (s.metrics.map MetricsSnapshot.key).Nodup → (t.metrics.map MetricsSnapshot.key).Nodup
  metrics : ∀ m, m.simulationId = σ → (m ∈ t.metrics ↔ m ∈ s.metrics)

section Charts

variable {cfg : Settings} {σ : SimulationId} {i : PassInput} {clock later : ℚ} {s t : Db}

theorem le_lastComplete {now : ℚ} {b : ℤ} (hw : 0 < cfg.metricsBucketVirtualS) :
    b ≤ lastComplete cfg now ↔ (b + 2) * cfg.metricsBucketVirtualS ≤ now := by
  rw [lastComplete, le_sub_iff_add_le, COMPLETE_BUCKET_LAG, bucketIndex, Int.le_floor,
    le_div_iff₀ hw]
  push_cast
  rfl

theorem aside_of_eq (hc : t.cast = s.cast) (hm : t.metrics = s.metrics)
    (hs : t.simulations = s.simulations) : Aside σ s t := by
  refine ⟨hc, ?_, fun m _ => by rw [hm], fun sim h _ => hs ▸ h⟩
  rw [hm]
  exact id

theorem Aside.untouched (h : Aside σ s t) : Untouched σ s t := ⟨h.cast, h.keys, h.metrics⟩

theorem Untouched.refl (s : Db) : Untouched σ s s := ⟨rfl, id, fun _ _ => Iff.rfl⟩

theorem Untouched.present (h : Untouched σ s t) (c : ConsumerId) (b : ℤ) :
    Present σ c b t.metrics ↔ Present σ c b s.metrics := by
  simp only [Present, List.mem_map]
  constructor
  · rintro ⟨m, hm, hk⟩
    exact ⟨m, (h.metrics m (Prod.mk.inj hk).1).mp hm, hk⟩
  · rintro ⟨m, hm, hk⟩
    exact ⟨m, (h.metrics m (Prod.mk.inj hk).1).mpr hm, hk⟩

theorem Untouched.cursor (h : Untouched σ s t) : recoverCursor σ t = recoverCursor σ s :=
  recoverCursor_congr h.present

theorem Untouched.consumers (h : Untouched σ s t) : consumerIds σ t = consumerIds σ s := by
  rw [consumerIds, h.cast, consumerIds]

/-- Only what is two buckets behind is on the chart, and that stays as it is. -/
theorem Charted.untouched (h : Charted cfg σ clock s) (ha : Untouched σ s t) (hl : clock ≤ later)
    (hsame : ∀ b : ℤ, (b + 2) * cfg.metricsBucketVirtualS ≤ clock →
      SameTo cfg.metricsBucketVirtualS σ b s t) : Charted cfg σ later t := by
  refine ⟨ha.keys h.keys, contiguous_congr s ha.cast ha.present h.contiguous, fun m hm hs => ?_,
    fun b hb => ?_⟩
  · have hold := (ha.metrics m hs).mp hm
    have hp : Present σ m.consumerId m.bucketVirtualS s.metrics :=
      List.mem_map.mpr ⟨m, hold, by rw [MetricsSnapshot.key, hs]⟩
    cases hr : recoverCursor σ s with
    | none => exact absurd hp (recoverCursor_eq_none.mp hr _ _)
    | some top =>
      exact (h.exact m hold hs).same (hsame top (h.past top hr).2) hs
        ((recoverCursor_eq_some.mp hr).2 _ _ hp)
  · rw [ha.cursor] at hb
    obtain ⟨h0, hpast⟩ := h.past b hb
    exact ⟨h0, hpast.trans hl⟩

theorem Charted.upsert {rows : List MetricsSnapshot} {now : ℚ}
    (hw : 0 < cfg.metricsBucketVirtualS) (h : Charted cfg σ clock s)
    (ha : Adds cfg σ now rows s) (hn : now ≤ clock) : Charted cfg σ clock (upsert rows s) := by
  have hstart : 0 ≤ firstMissing (recoverCursor σ s) := by
    cases hr : recoverCursor σ s with
    | none => exact le_rfl
    | some b => exact (h.past b hr).1.trans (Int.lt_succ b).le
  refine ⟨upsert_nodup h.keys, fun c hmem b => ?_, fun m hm hs => ?_, fun b hb => ?_⟩
  · have hold := h.contiguous c hmem b
    have hm := ha.missing
    rw [ha.cursor, present_upsert, hold, ha.present, firstMissing]
    constructor
    · rintro (⟨h0, hlt⟩ | ⟨-, hlo, hhi⟩)
      · exact ⟨h0, by omega⟩
      · exact ⟨by omega, by omega⟩
    · rintro ⟨h0, hlt⟩
      by_cases hb : b < firstMissing (recoverCursor σ s)
      · exact Or.inl ⟨h0, hb⟩
      · exact Or.inr ⟨hmem, by omega, by omega⟩
  · have exact_rows : ∀ {m}, Exact cfg.metricsBucketVirtualS s m →
        Exact cfg.metricsBucketVirtualS (MetricsSeries.upsert rows s) m := fun hx =>
      ⟨hx.attempts, hx.terminals⟩
    rcases mem_of_upsert hm with hm | hm
    · exact exact_rows (ha.exact m hm)
    · exact exact_rows (h.exact m hm hs)
  · rw [ha.cursor] at hb
    obtain rfl := Option.some.inj hb
    exact ⟨hstart.trans ha.missing, ((le_lastComplete hw).mp le_rfl).trans hn⟩

theorem aside_of_other (h : PassWrite cfg i s t) (hi : i.simulationId ≠ σ)
    (hc : t.cast = s.cast) : Aside σ s t := by
  cases h with
  | reclaim => exact aside_of_eq rfl rfl rfl
  | chart h =>
    cases h with
    | read => exact aside_of_eq rfl rfl rfl
    | upsert rows own =>
      refine ⟨rfl, upsert_nodup, fun m hm => ⟨fun h => ?_, fun h => ?_⟩, fun _ h _ => h⟩
      · rcases mem_of_upsert h with h | h
        · exact absurd ((own m h).symm.trans hm) hi
        · exact h
      · refine mem_upsert_of_fresh h fun hk => ?_
        obtain ⟨r, hr, hkey⟩ := List.mem_map.mp hk
        exact hi ((own r hr).symm.trans ((Prod.mk.inj hkey).1.trans hm))
  | retire =>
    refine ⟨rfl, id, fun _ _ => Iff.rfl, fun sim hsim hid => ?_⟩
    obtain ⟨x, hx, rfl⟩ := List.mem_map.mp hsim
    by_cases hxi : x.id = i.simulationId
    · rw [if_pos hxi] at hid
      exact absurd (hxi.symm.trans hid) hi
    · rwa [if_neg hxi]
  | admits h => exact aside_of_eq hc h.metrics h.simulations

end Charts

end ChartCompleteness
