import WebhookRecovery.ChartTallies
import WebhookRecovery.SeriesContiguity

/-! A call of the writer, statement by statement, and what others commit between its statements. It
adds all that is missing, and if others leave its buckets alone each row counts all of its own. -/
namespace SeriesCalls

open RecoverySchema InterleavedPrograms MetricsSeries ChartTallies SeriesContiguity

/-- What a call relies on: nobody else writes the series, and its buckets are complete. -/
structure Undisturbed (cfg : Settings) (σ : SimulationId) (now : ℚ) (s t : Db) : Prop where
  cursor : recoverCursor σ t = recoverCursor σ s
  consumers : consumerIds σ t = consumerIds σ s
  same : SameTo cfg.metricsBucketVirtualS σ (lastComplete cfg now) s t

structure Adds (cfg : Settings) (σ : SimulationId) (now : ℚ) (rows : List MetricsSnapshot)
    (s : Db) : Prop where
  missing : firstMissing (recoverCursor σ s) ≤ lastComplete cfg now
  someone : consumerIds σ s ≠ []
  own : ∀ m ∈ rows, m.simulationId = σ
  exact : ∀ m ∈ rows, Exact cfg.metricsBucketVirtualS s m
  present : ∀ c b, Present σ c b rows ↔ c ∈ consumerIds σ s ∧
    firstMissing (recoverCursor σ s) ≤ b ∧ b ≤ lastComplete cfg now

inductive SeriesWrite (cfg : Settings) (σ : SimulationId) (now : ℚ) (s : Db) : Db → Prop where
  | read : SeriesWrite cfg σ now s s
  | add (rows : List MetricsSnapshot) (h : Adds cfg σ now rows s) :
    SeriesWrite cfg σ now s (upsert rows s)

variable {cfg : Settings} {σ : SimulationId} {now : ℚ} {s t u : Db} {gauges : Gauges}

theorem Undisturbed.refl (s : Db) : Undisturbed cfg σ now s s := ⟨rfl, rfl, .refl _ _ _ _⟩

theorem Undisturbed.trans (h : Undisturbed cfg σ now s t) (k : Undisturbed cfg σ now t u) :
    Undisturbed cfg σ now s u :=
  ⟨k.cursor.trans h.cursor, k.consumers.trans h.consumers, h.same.trans k.same⟩

theorem Adds.cursor {rows : List MetricsSnapshot} (h : Adds cfg σ now rows s) :
    recoverCursor σ (upsert rows s) = some (lastComplete cfg now) := by
  obtain ⟨c, hc⟩ := List.exists_mem_of_ne_nil _ h.someone
  apply recoverCursor_eq_some.mpr
  constructor
  · exact ⟨c, present_upsert.mpr (Or.inr ((h.present c _).mpr ⟨hc, h.missing, le_rfl⟩))⟩
  · intro c x hx
    rcases present_upsert.mp hx with hx | hx
    · have hlt := hx.lt_firstMissing
      have hm := h.missing
      omega
    · exact ((h.present c x).mp hx).2.2

/-- What a call leaves: the series lacks nothing that it could write, and its cursor, if it has
one, is that of the table. -/
structure Left (cfg : Settings) (σ : SimulationId) (now : ℚ) (r : Option ℤ) (s : Db) : Prop where
  covered : consumerIds σ s ≠ [] → lastComplete cfg now < firstMissing (recoverCursor σ s)
  cached : ∀ b ∈ r, recoverCursor σ s = some b

theorem Adds.left {rows : List MetricsSnapshot} (h : Adds cfg σ now rows s) :
    Left cfg σ now (some (lastComplete cfg now)) (upsert rows s) := by
  refine ⟨fun _ => ?_, fun b hb => h.cursor.trans hb⟩
  rw [h.cursor]
  exact Int.lt_succ _

theorem Left.undisturbed {r : Option ℤ} (h : Left cfg σ now r s) (k : Undisturbed cfg σ now s t) :
    Left cfg σ now r t := by
  refine ⟨?_, fun b hb => k.cursor.trans (h.cached b hb)⟩
  rw [k.cursor, k.consumers]
  exact h.covered

theorem buckets_guarantee (hw : 0 < cfg.metricsBucketVirtualS) {lastWritten last : Option ℤ}
    (hlast : last = recoverCursor σ s) (hcached : ∀ b ∈ lastWritten, recoverCursor σ s = some b)
    (hwithin : outstanding cfg σ now s ≤ cfg.metricsMaxBackfillBuckets)
    {Q : Option ℤ → Db → Prop} (hq : ∀ r t, Left cfg σ now r t → Q r t) :
    (writeBuckets cfg σ now gauges lastWritten last).Guarantees (Undisturbed cfg σ now)
      (SeriesWrite cfg σ now) Q s := by
  rw [writeBuckets]
  dsimp only
  split
  · rename_i hgt
    exact Program.Guarantees.pure (hq _ s ⟨fun _ => hlast ▸ hgt, hcached⟩)
  rename_i hle
  rw [not_lt] at hle
  refine Program.Guarantees.bind (Program.Guarantees.read fun t ht => ⟨.read, ?_⟩)
  split
  · rename_i hnone
    refine Program.Guarantees.pure (hq _ t ⟨fun hc => absurd (List.isEmpty_iff.mp hnone) hc, ?_⟩)
    exact fun b hb => ht.cursor.trans (hcached b hb)
  rename_i hsome
  refine Program.Guarantees.bind (Program.Guarantees.read fun u hu => ⟨.read, ?_⟩)
  refine Program.Guarantees.bind (Program.Guarantees.read fun v hv => ⟨.read, ?_⟩)
  refine Program.Guarantees.bind (Program.Guarantees.write fun x hx => ?_)
  have hall := ((ht.trans hu).trans hv).trans hx
  -- all that is outstanding fits into the call
  have hstart : max (firstMissing last)
      (lastComplete cfg now - cfg.metricsMaxBackfillBuckets + 1) = firstMissing last := by
    rw [outstanding, ← hlast] at hwithin
    omega
  rw [hstart, hlast, ← hall.cursor]
  have hadds : Adds cfg σ now (snapshotRows σ gauges
      (attemptsByBucket σ cfg.metricsBucketVirtualS
        (firstMissing (recoverCursor σ x) * cfg.metricsBucketVirtualS)
        ((lastComplete cfg now + 1) * cfg.metricsBucketVirtualS) u)
      (terminalsByBucket σ cfg.metricsBucketVirtualS
        (firstMissing (recoverCursor σ x) * cfg.metricsBucketVirtualS)
        ((lastComplete cfg now + 1) * cfg.metricsBucketVirtualS) v)
      (consumerIds σ t) (firstMissing (recoverCursor σ x)) (lastComplete cfg now)) x := by
    have hconsumers := ((hu.trans hv).trans hx).consumers
    refine ⟨?_, ?_, fun _ => mem_snapshotRows,
      fun m hm => snapshot_exact hw (hv.trans hx).same hx.same hm, fun c b => ?_⟩
    · rw [hall.cursor, ← hlast]
      exact hle
    · rw [hconsumers]
      exact fun he => hsome (List.isEmpty_iff.mpr he)
    · rw [mem_keys_snapshotRows, hconsumers]
      exact ⟨And.right, fun h => ⟨rfl, h⟩⟩
  exact ⟨.add _ hadds, Program.Guarantees.pure (hq _ _ hadds.left)⟩

/-- A call whose cached cursor, if it has one, is that of the table, and that may write all that
is outstanding. -/
theorem write_guarantee (hw : 0 < cfg.metricsBucketVirtualS) {lastWritten : Option ℤ}
    (hcached : ∀ b ∈ lastWritten, recoverCursor σ s = some b)
    (hwithin : outstanding cfg σ now s ≤ cfg.metricsMaxBackfillBuckets)
    {Q : Option ℤ → Db → Prop} (hq : ∀ r t, Left cfg σ now r t → Q r t) :
    (MetricsSeries.write cfg σ now gauges lastWritten).Guarantees (Undisturbed cfg σ now)
      (SeriesWrite cfg σ now) Q s := by
  refine Program.Guarantees.bind ?_
  unfold cursor
  cases lastWritten with
  | some b =>
    have hb := hcached b rfl
    exact Program.Guarantees.pure (buckets_guarantee hw hb.symm hcached hwithin hq)
  | none =>
    refine Program.Guarantees.read fun t ht => ⟨.read, ?_⟩
    refine buckets_guarantee hw rfl (fun _ hb => ?_) ?_ hq
    · cases hb
    · rw [outstanding, ht.cursor]
      exact hwithin

end SeriesCalls
