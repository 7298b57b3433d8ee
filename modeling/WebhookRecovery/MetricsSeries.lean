import WebhookRecovery.RecoverySchema
import WebhookRecovery.InterleavedPrograms

/-! The chart series: one row per consumer per bucket. Counters are derived from the attempt
and delivery tables, only the three gauges are sampled. -/
namespace MetricsSeries

open KeyedTables RecoverySchema InterleavedPrograms

/-- How many buckets behind the current one to stop writing at. -/
def COMPLETE_BUCKET_LAG : ℤ := 2

/-- Keyed off VIRTUAL_EPOCH_ZERO, so an instant is its own offset. -/
def bucketIndex (virtualTime bucketS : ℚ) : ℤ := ⌊virtualTime / bucketS⌋

/-- Per consumer and active state; an absent entry is zero. -/
abbrev Gauges := List ((ConsumerId × DeliveryState) × ℕ)

def readGauges (simulationId : SimulationId) (db : Db) : Gauges :=
  groupCount ((db.deliveries.rows.filter fun d =>
    d.simulationId == simulationId && d.state.active).map fun d => (d.consumerId, d.state))

def totalBacklog (gauges : Gauges) : ℕ := (gauges.map Prod.snd).sum

def recoverCursor (simulationId : SimulationId) (db : Db) : Option ℤ :=
  ((db.metrics.filter fun m => m.simulationId == simulationId).map
    MetricsSnapshot.bucketVirtualS).max?

def consumerIds (simulationId : SimulationId) (db : Db) : List ConsumerId :=
  ((db.cast.consumers.filter fun c => c.simulationId == simulationId).map
    Consumer.id).insertionSort (· ≤ ·)

def attemptsByBucket (simulationId : SimulationId) (bucketS windowFrom windowTo : ℚ) (db : Db) :
    List ((ConsumerId × ℤ) × ℕ) :=
  groupCount ((db.attempts.rows.filter fun a =>
    a.simulationId == simulationId && decide (windowFrom ≤ a.startedAt) &&
      decide (a.startedAt < windowTo)).map fun a => (a.consumerId, bucketIndex a.startedAt bucketS))

/-- Deliveries that settled in the window, by the bucket of `completed_at`; a NULL is in no
window. -/
def terminalsByBucket (simulationId : SimulationId) (bucketS windowFrom windowTo : ℚ) (db : Db) :
    List ((ConsumerId × ℤ × DeliveryState) × ℕ) :=
  groupCount (db.deliveries.rows.filterMap fun d =>
    match d.completedAt with
    | none => none
    | some at_ =>
      if d.simulationId = simulationId ∧ windowFrom ≤ at_ ∧ at_ < windowTo ∧ d.state.terminal then
        some (d.consumerId, bucketIndex at_ bucketS, d.state)
      else none)

def bucketRange (start stop : ℤ) : List ℤ :=
  (List.range (stop + 1 - start).toNat).map fun i : ℕ => start + (i : ℤ)

@[simp] theorem mem_bucketRange {start stop b : ℤ} :
    b ∈ bucketRange start stop ↔ start ≤ b ∧ b ≤ stop := by
  simp only [bucketRange, List.mem_map, List.mem_range]
  constructor
  · rintro ⟨i, hi, rfl⟩
    omega
  · rintro ⟨hl, hu⟩
    exact ⟨(b - start).toNat, by omega, by omega⟩

def MetricsSnapshot.key (m : MetricsSnapshot) : SimulationId × ConsumerId × ℤ :=
  (m.simulationId, m.consumerId, m.bucketVirtualS)

/-- `INSERT … ON CONFLICT (simulation, consumer, bucket) DO UPDATE` of every other column. -/
def upsertRow (table : List MetricsSnapshot) (m : MetricsSnapshot) : List MetricsSnapshot :=
  if table.any fun r => MetricsSnapshot.key r == MetricsSnapshot.key m then
    table.map fun r => if MetricsSnapshot.key r == MetricsSnapshot.key m then m else r
  else table ++ [m]

def upsert (rows : List MetricsSnapshot) (db : Db) : Db :=
  { db with metrics := rows.foldl upsertRow db.metrics }

/-- The consumer × bucket cross product; the gauges are the value now, carried across every
bucket of the call. -/
def snapshotRows (simulationId : SimulationId) (gauges : Gauges)
    (attempts : List ((ConsumerId × ℤ) × ℕ))
    (terminals : List ((ConsumerId × ℤ × DeliveryState) × ℕ))
    (consumers : List ConsumerId) (start stop : ℤ) : List MetricsSnapshot :=
  consumers.flatMap fun c => (bucketRange start stop).map fun b =>
    { simulationId := simulationId
      consumerId := c
      bucketVirtualS := b
      backlog := countOf gauges (c, .pending) + countOf gauges (c, .ready) +
        countOf gauges (c, .inFlight)
      ready := countOf gauges (c, .ready)
      inFlight := countOf gauges (c, .inFlight)
      attempts := countOf attempts (c, b)
      delivered := countOf terminals (c, b, .delivered)
      expired := countOf terminals (c, b, .expired)
      superseded := countOf terminals (c, b, .superseded)
      failed := countOf terminals (c, b, .failed) }

def lastComplete (cfg : Settings) (now : ℚ) : ℤ :=
  bucketIndex now cfg.metricsBucketVirtualS - COMPLETE_BUCKET_LAG

def firstMissing (last : Option ℤ) : ℤ :=
  match last with
  | some b => b + 1
  | none => 0

def cursor (simulationId : SimulationId) (lastWritten : Option ℤ) : Program Db (Option ℤ) :=
  match lastWritten with
  | some b => pure (some b)
  | none => Program.read (recoverCursor simulationId)

/-- The rest of the call, once `last` is known; the result is the process's new cursor. -/
def writeBuckets (cfg : Settings) (simulationId : SimulationId) (now : ℚ) (gauges : Gauges)
    (lastWritten last : Option ℤ) : Program Db (Option ℤ) := do
  let bucketS := cfg.metricsBucketVirtualS
  let stop := lastComplete cfg now
  if firstMissing last > stop then
    return lastWritten
  -- one pass's write is bounded here
  let start := max (firstMissing last) (stop - cfg.metricsMaxBackfillBuckets + 1)
  let consumers ← Program.read (consumerIds simulationId)
  if consumers.isEmpty then
    return lastWritten
  let windowFrom := start * bucketS
  let windowTo := (stop + 1) * bucketS
  let attempts ← Program.read (attemptsByBucket simulationId bucketS windowFrom windowTo)
  let terminals ← Program.read (terminalsByBucket simulationId bucketS windowFrom windowTo)
  Program.write (upsert (snapshotRows simulationId gauges attempts terminals consumers start stop))
  return some stop

/-- `MetricsWriter.write`, with the process's cached cursor for the simulation as an argument
and its new value as the result. -/
def write (cfg : Settings) (simulationId : SimulationId) (now : ℚ) (gauges : Gauges)
    (lastWritten : Option ℤ) : Program Db (Option ℤ) := do
  let last ← cursor simulationId lastWritten
  writeBuckets cfg simulationId now gauges lastWritten last

section Keys

def Present (simulationId : SimulationId) (c : ConsumerId) (b : ℤ)
    (table : List MetricsSnapshot) : Prop :=
  (simulationId, c, b) ∈ table.map MetricsSnapshot.key

variable {table rows : List MetricsSnapshot} {m : MetricsSnapshot}
  {k : SimulationId × ConsumerId × ℤ} {sim sim' : SimulationId} {c : ConsumerId} {b : ℤ}
  {db : Db}

theorem keys_replace : (table.map fun r => if MetricsSnapshot.key r == MetricsSnapshot.key m then m
    else r).map MetricsSnapshot.key = table.map MetricsSnapshot.key := by
  rw [List.map_map]
  refine List.map_congr_left fun r _ => ?_
  by_cases hr : MetricsSnapshot.key r = MetricsSnapshot.key m <;> simp [hr]

theorem mem_keys_upsertRow : k ∈ (upsertRow table m).map MetricsSnapshot.key ↔
    k ∈ table.map MetricsSnapshot.key ∨ k = MetricsSnapshot.key m := by
  unfold upsertRow
  split
  · rename_i hany
    have hm : MetricsSnapshot.key m ∈ table.map MetricsSnapshot.key := by
      obtain ⟨r, hr, hk⟩ := List.any_eq_true.mp hany
      exact List.mem_map.mpr ⟨r, hr, beq_iff_eq.mp hk⟩
    rw [keys_replace]
    constructor
    · exact Or.inl
    · rintro (h | rfl)
      · exact h
      · exact hm
  · simp

theorem mem_keys_upsert : k ∈ (rows.foldl upsertRow table).map MetricsSnapshot.key ↔
    k ∈ table.map MetricsSnapshot.key ∨ k ∈ rows.map MetricsSnapshot.key := by
  induction rows generalizing table with
  | nil => simp
  | cons m rows ih => rw [List.foldl_cons, ih, mem_keys_upsertRow, List.map_cons, List.mem_cons,
      or_assoc]

theorem mem_upsertRow {r : MetricsSnapshot} : r ∈ upsertRow table m ↔
    r = m ∨ r ∈ table ∧ MetricsSnapshot.key r ≠ MetricsSnapshot.key m := by
  unfold upsertRow
  split
  · rename_i hany
    obtain ⟨x, hx, hk⟩ := List.any_eq_true.mp hany
    rw [List.mem_map]
    constructor
    · rintro ⟨y, hy, rfl⟩
      by_cases hym : MetricsSnapshot.key y = MetricsSnapshot.key m
      · exact Or.inl (if_pos (beq_iff_eq.mpr hym))
      · rw [if_neg (by simpa using hym)]
        exact Or.inr ⟨hy, hym⟩
    · rintro (rfl | ⟨hr, hrm⟩)
      · exact ⟨x, hx, if_pos hk⟩
      · exact ⟨r, hr, if_neg (by simpa using hrm)⟩
  · rename_i hany
    have hfresh : ∀ x ∈ table, MetricsSnapshot.key x ≠ MetricsSnapshot.key m := fun x hx hk =>
      hany (List.any_eq_true.mpr ⟨x, hx, beq_iff_eq.mpr hk⟩)
    rw [List.mem_append, List.mem_singleton, or_comm]
    exact or_congr_right ⟨fun hr => ⟨hr, hfresh r hr⟩, And.left⟩

theorem upsertRow_nodup (h : (table.map MetricsSnapshot.key).Nodup) :
    ((upsertRow table m).map MetricsSnapshot.key).Nodup := by
  unfold upsertRow
  split
  · rwa [keys_replace]
  · rename_i hany
    rw [List.map_append, List.map_singleton]
    refine List.Nodup.append h (List.nodup_singleton _) ?_
    intro k hk hm
    obtain ⟨r, hr, rfl⟩ := List.mem_map.mp hk
    rw [List.mem_singleton] at hm
    exact hany (List.any_eq_true.mpr ⟨r, hr, beq_iff_eq.mpr hm⟩)

theorem upsert_nodup (h : (table.map MetricsSnapshot.key).Nodup) :
    ((rows.foldl upsertRow table).map MetricsSnapshot.key).Nodup := by
  induction rows generalizing table with
  | nil => exact h
  | cons m rows ih => exact ih (upsertRow_nodup h)

theorem mem_of_upsert (h : m ∈ rows.foldl upsertRow table) : m ∈ rows ∨ m ∈ table := by
  induction rows generalizing table with
  | nil => exact Or.inr h
  | cons r rows ih =>
    rcases ih h with h | h
    · exact Or.inl (List.mem_cons_of_mem _ h)
    · rcases mem_upsertRow.mp h with rfl | ⟨h, -⟩
      · exact Or.inl List.mem_cons_self
      · exact Or.inr h

theorem mem_upsert_of_fresh (hm : m ∈ table)
    (hk : MetricsSnapshot.key m ∉ rows.map MetricsSnapshot.key) :
    m ∈ rows.foldl upsertRow table := by
  induction rows generalizing table with
  | nil => exact hm
  | cons r rows ih =>
    rw [List.map_cons, List.mem_cons, not_or] at hk
    apply ih _ hk.2
    unfold upsertRow
    split
    · refine List.mem_map.mpr ⟨m, hm, ?_⟩
      rw [if_neg (by simpa using hk.1)]
    · exact List.mem_append_left _ hm

theorem mem_snapshotRows {gauges : Gauges}
    {attempts : List ((ConsumerId × ℤ) × ℕ)}
    {terminals : List ((ConsumerId × ℤ × DeliveryState) × ℕ)} {consumers : List ConsumerId}
    {start stop : ℤ}
    (h : m ∈ snapshotRows sim gauges attempts terminals consumers start stop) :
    m.simulationId = sim := by
  obtain ⟨c, -, hm⟩ := List.mem_flatMap.mp h
  obtain ⟨b, -, rfl⟩ := List.mem_map.mp hm
  rfl

theorem mem_keys_snapshotRows {gauges : Gauges} {attempts : List ((ConsumerId × ℤ) × ℕ)}
    {terminals : List ((ConsumerId × ℤ × DeliveryState) × ℕ)} {consumers : List ConsumerId}
    {start stop : ℤ} :
    Present sim c b (snapshotRows sim' gauges attempts terminals consumers start stop) ↔
      sim = sim' ∧ c ∈ consumers ∧ start ≤ b ∧ b ≤ stop := by
  simp only [Present, snapshotRows, List.mem_map, List.mem_flatMap, mem_bucketRange]
  constructor
  · rintro ⟨m, ⟨x, hx, y, hy, rfl⟩, hk⟩
    simp only [MetricsSnapshot.key, Prod.mk.injEq] at hk
    obtain ⟨rfl, rfl, rfl⟩ := hk
    exact ⟨rfl, hx, hy⟩
  · rintro ⟨rfl, hc, hb⟩
    exact ⟨_, ⟨c, hc, b, hb, rfl⟩, rfl⟩

theorem recoverCursor_eq_some : recoverCursor sim db = some b ↔
    (∃ c, Present sim c b db.metrics) ∧ ∀ c x, Present sim c x db.metrics → x ≤ b := by
  simp only [recoverCursor, List.max?_eq_some_iff, List.mem_map, List.mem_filter, beq_iff_eq,
    Present, MetricsSnapshot.key, Prod.mk.injEq]
  constructor
  · rintro ⟨⟨m, ⟨hm, hs⟩, hb⟩, hmax⟩
    refine ⟨⟨m.consumerId, m, hm, hs, rfl, hb⟩, ?_⟩
    rintro c x ⟨n, hn, hns, -, hx⟩
    exact hmax x ⟨n, ⟨hn, hns⟩, hx⟩
  · rintro ⟨⟨c, m, hm, hs, -, hb⟩, hmax⟩
    refine ⟨⟨m, ⟨hm, hs⟩, hb⟩, ?_⟩
    rintro x ⟨n, ⟨hn, hns⟩, hx⟩
    exact hmax n.consumerId x ⟨n, hn, hns, rfl, hx⟩

theorem recoverCursor_eq_none :
    recoverCursor sim db = none ↔ ∀ c x, ¬ Present sim c x db.metrics := by
  simp only [recoverCursor, List.max?_eq_none_iff, List.map_eq_nil_iff, List.filter_eq_nil_iff,
    beq_iff_eq, Present, MetricsSnapshot.key, List.mem_map, Prod.mk.injEq]
  constructor
  · rintro h c x ⟨m, hm, hs, -⟩
    exact h m hm hs
  · intro h m hm hs
    exact h m.consumerId m.bucketVirtualS ⟨m, hm, hs, rfl, rfl⟩

theorem recoverCursor_congr {db' : Db}
    (h : ∀ c b, Present sim c b db'.metrics ↔ Present sim c b db.metrics) :
    recoverCursor sim db' = recoverCursor sim db := by
  cases hr : recoverCursor sim db with
  | none =>
    apply recoverCursor_eq_none.mpr
    intro c x hx
    exact recoverCursor_eq_none.mp hr c x ((h c x).mp hx)
  | some top =>
    obtain ⟨⟨c, hc⟩, hmax⟩ := recoverCursor_eq_some.mp hr
    apply recoverCursor_eq_some.mpr
    exact ⟨⟨c, (h c top).mpr hc⟩, fun c x hx => hmax c x ((h c x).mp hx)⟩

theorem Present.lt_firstMissing (h : Present sim c b db.metrics) :
    b < firstMissing (recoverCursor sim db) := by
  cases hr : recoverCursor sim db with
  | none => exact absurd h (recoverCursor_eq_none.mp hr c b)
  | some top =>
    have hle := (recoverCursor_eq_some.mp hr).2 c b h
    simp only [firstMissing]
    omega

end Keys

section Call

variable (cfg : Settings) (sim : SimulationId) (now : ℚ) (gauges : Gauges)
  (lastWritten : Option ℤ) (db : Db)

def usedCursor : Option ℤ := lastWritten <|> recoverCursor sim db

def firstWritten (last : Option ℤ) : ℤ :=
  max (firstMissing last) (lastComplete cfg now - cfg.metricsMaxBackfillBuckets + 1)

def written (last : Option ℤ) : List MetricsSnapshot :=
  let bucketS := cfg.metricsBucketVirtualS
  let start := firstWritten cfg now last
  let stop := lastComplete cfg now
  snapshotRows sim gauges
    (attemptsByBucket sim bucketS (start * bucketS) ((stop + 1) * bucketS) db)
    (terminalsByBucket sim bucketS (start * bucketS) ((stop + 1) * bucketS) db)
    (consumerIds sim db) start stop

def Writes : Prop :=
  firstMissing (usedCursor sim lastWritten db) ≤ lastComplete cfg now ∧ consumerIds sim db ≠ []

instance : Decidable (Writes cfg sim now lastWritten db) := inferInstanceAs (Decidable (_ ∧ _))

theorem write_run_used : (write cfg sim now gauges lastWritten).run db =
    (writeBuckets cfg sim now gauges lastWritten (usedCursor sim lastWritten db)).run db := by
  cases lastWritten with
  | none => rfl
  | some b => rfl

variable {cfg sim now gauges lastWritten db}

theorem write_run_of_writes (h : Writes cfg sim now lastWritten db) :
    (write cfg sim now gauges lastWritten).run db =
      (some (lastComplete cfg now),
        upsert (written cfg sim now gauges db (usedCursor sim lastWritten db)) db) := by
  have hc : ¬ (consumerIds sim db).isEmpty = true := by simpa using h.2
  rw [write_run_used, writeBuckets, if_neg (not_lt.mpr h.1)]
  simp only [bind, Program.bind, Program.read, Program.run, id_eq, if_neg hc]
  rfl

theorem write_run_of_idle (h : ¬ Writes cfg sim now lastWritten db) :
    (write cfg sim now gauges lastWritten).run db = (lastWritten, db) := by
  rw [write_run_used, writeBuckets]
  by_cases hm : firstMissing (usedCursor sim lastWritten db) > lastComplete cfg now
  · rw [if_pos hm]
    rfl
  · have hc : (consumerIds sim db).isEmpty = true := by
      by_contra hc
      exact h ⟨not_lt.mp hm, by simpa using hc⟩
    rw [if_neg hm]
    simp only [bind, Program.bind, Program.read, Program.run, id_eq, if_pos hc]
    rfl

theorem present_written {last : Option ℤ} {s : SimulationId} {c : ConsumerId} {b : ℤ} :
    Present s c b (written cfg sim now gauges db last) ↔ s = sim ∧ c ∈ consumerIds sim db ∧
      firstWritten cfg now last ≤ b ∧ b ≤ lastComplete cfg now := mem_keys_snapshotRows

theorem present_upsert {rows : List MetricsSnapshot} {s : SimulationId} {c : ConsumerId} {b : ℤ} :
    Present s c b (upsert rows db).metrics ↔ Present s c b db.metrics ∨ Present s c b rows :=
  mem_keys_upsert

theorem used_recoverCursor : usedCursor sim (recoverCursor sim db) db = recoverCursor sim db := by
  simp [usedCursor]

theorem Writes.of_used (h : usedCursor sim lastWritten db = recoverCursor sim db)
    (hw : Writes cfg sim now lastWritten db) : Writes cfg sim now (recoverCursor sim db) db := by
  refine ⟨?_, hw.2⟩
  rw [used_recoverCursor, ← h]
  exact hw.1

theorem Writes.missing (h : Writes cfg sim now (recoverCursor sim db) db) :
    firstMissing (recoverCursor sim db) ≤ lastComplete cfg now := by
  have hm := h.1
  rwa [used_recoverCursor] at hm

/-- A call that goes by the table's own cursor, with room for one bucket at least, leaves the
cursor at the newest complete bucket. -/
theorem recoverCursor_written (gauges : Gauges) (hcap : cfg.metricsMaxBackfillBuckets ≠ 0)
    (h : Writes cfg sim now (recoverCursor sim db) db) :
    recoverCursor sim (upsert (written cfg sim now gauges db (recoverCursor sim db)) db) =
      some (lastComplete cfg now) := by
  have hm := h.missing
  obtain ⟨c, hc⟩ := List.exists_mem_of_ne_nil _ h.2
  apply recoverCursor_eq_some.mpr
  constructor
  · refine ⟨c, present_upsert.mpr (Or.inr (present_written.mpr ⟨rfl, hc, ?_, le_refl _⟩))⟩
    unfold firstWritten
    omega
  · intro c x hx
    rcases present_upsert.mp hx with hx | hx
    · have hlt := hx.lt_firstMissing
      omega
    · exact (present_written.mp hx).2.2.2

end Call

end MetricsSeries
