import WebhookRecovery.MetricsSeries
import Mathlib.Algebra.Order.Field.Basic
import Mathlib.Tactic.Linarith

/-! What a bucket of the chart should count, and what the whole chart adds up to if every row of it
counts that. -/
namespace ChartTallies

open KeyedTables RecoverySchema MetricsSeries

def attemptsIn (bucketS : ℚ) (σ : SimulationId) (c : ConsumerId) (b : ℤ) (db : Db) : ℕ :=
  db.attempts.rows.countP fun a =>
    (a.simulationId == σ && a.consumerId == c) && decide (bucketIndex a.startedAt bucketS = b)

def settledIn (bucketS : ℚ) (σ : SimulationId) (c : ConsumerId) (st : DeliveryState) (b : ℤ)
    (db : Db) : ℕ :=
  db.deliveries.rows.countP fun d => (d.simulationId == σ && d.consumerId == c && d.state == st) &&
    decide (d.completedAt.map (fun x => bucketIndex x bucketS) = some b)

section Windows

variable {bucketS x windowFrom windowTo : ℚ} {σ : SimulationId} {c : ConsumerId} {b start stop : ℤ}
  {db : Db} {st : DeliveryState}

theorem bucketIndex_eq (hw : 0 < bucketS) :
    bucketIndex x bucketS = b ↔ b * bucketS ≤ x ∧ x < (b + 1) * bucketS := by
  rw [bucketIndex, Int.floor_eq_iff, le_div_iff₀ hw, div_lt_iff₀ hw]

theorem lt_bucketIndex (hw : 0 < bucketS) :
    b < bucketIndex x bucketS ↔ (b + 1) * bucketS ≤ x := by
  rw [bucketIndex, ← Int.add_one_le_iff, Int.le_floor, le_div_iff₀ hw]
  push_cast
  rfl

theorem in_window (hw : 0 < bucketS) (hb : bucketIndex x bucketS = b) (hlo : start ≤ b)
    (hhi : b ≤ stop) : start * bucketS ≤ x ∧ x < (stop + 1) * bucketS := by
  obtain ⟨hl, hr⟩ := (bucketIndex_eq hw).mp hb
  have hlo : (start : ℚ) ≤ b := by exact_mod_cast hlo
  have hhi : (b : ℚ) + 1 ≤ stop + 1 := by exact_mod_cast Int.add_le_add_right hhi 1
  exact ⟨(mul_le_mul_of_nonneg_right hlo hw.le).trans hl,
    hr.trans_le (mul_le_mul_of_nonneg_right hhi hw.le)⟩

theorem countOf_attemptsByBucket (hw : 0 < bucketS) (hlo : start ≤ b) (hhi : b ≤ stop) :
    countOf (attemptsByBucket σ bucketS (start * bucketS) ((stop + 1) * bucketS) db) (c, b) =
      attemptsIn bucketS σ c b db := by
  rw [attemptsByBucket, countOf_groupCount_map, attemptsIn]
  refine List.countP_congr fun a _ => ?_
  simp only [Bool.and_eq_true, beq_iff_eq, decide_eq_true_eq, Prod.mk.injEq]
  constructor
  · rintro ⟨⟨⟨hs, -⟩, -⟩, hc, hb⟩
    exact ⟨⟨hs, hc⟩, hb⟩
  · rintro ⟨⟨hs, hc⟩, hb⟩
    obtain ⟨hl, hr⟩ := in_window hw hb hlo hhi
    exact ⟨⟨⟨hs, hl⟩, hr⟩, hc, hb⟩

theorem countOf_terminalsByBucket (σ : SimulationId) (c : ConsumerId) (db : Db)
    (hw : 0 < bucketS) (hlo : start ≤ b) (hhi : b ≤ stop) (ht : st.terminal) :
    countOf (terminalsByBucket σ bucketS (start * bucketS) ((stop + 1) * bucketS) db) (c, b, st) =
      settledIn bucketS σ c st b db := by
  rw [terminalsByBucket, countOf_groupCount_filterMap, settledIn]
  refine List.countP_congr fun d _ => ?_
  cases hx : d.completedAt with
  | none => simp
  | some x =>
    simp only [Option.map_some, Bool.and_eq_true, beq_iff_eq, decide_eq_true_eq,
      Option.some.injEq]
    constructor
    · intro h
      split at h
      · rename_i hin
        simp only [Option.some.injEq, Prod.mk.injEq] at h
        exact ⟨⟨⟨hin.1, h.1⟩, h.2.2⟩, h.2.1⟩
      · cases h
    · rintro ⟨⟨⟨hs, hc⟩, hst⟩, hb⟩
      obtain ⟨hl, hr⟩ := in_window hw hb hlo hhi
      rw [if_pos ⟨hs, hl, hr, by rwa [hst]⟩, hc, hb, hst]

end Windows

def counter (st : DeliveryState) (m : MetricsSnapshot) : ℕ :=
  match st with
  | .delivered => m.delivered
  | .expired => m.expired
  | .superseded => m.superseded
  | .failed => m.failed
  | .pending | .ready | .inFlight => 0

structure Exact (bucketS : ℚ) (db : Db) (m : MetricsSnapshot) : Prop where
  attempts : m.attempts = attemptsIn bucketS m.simulationId m.consumerId m.bucketVirtualS db
  terminals : ∀ st : DeliveryState, st.terminal →
    counter st m = settledIn bucketS m.simulationId m.consumerId st m.bucketVirtualS db

/-- Nothing is added to the buckets up to a bound, and nothing is lost from them. -/
structure SameTo (bucketS : ℚ) (σ : SimulationId) (bound : ℤ) (s t : Db) : Prop where
  attempts : ∀ c b, b ≤ bound → attemptsIn bucketS σ c b t = attemptsIn bucketS σ c b s
  terminals : ∀ c st b, b ≤ bound → settledIn bucketS σ c st b t = settledIn bucketS σ c st b s

section Rows

variable {bucketS : ℚ} {σ : SimulationId} {bound start stop : ℤ} {s t u : Db} {m : MetricsSnapshot}
  {gauges : Gauges} {consumers : List ConsumerId}

theorem SameTo.refl (bucketS : ℚ) (σ : SimulationId) (bound : ℤ) (s : Db) :
    SameTo bucketS σ bound s s := ⟨fun _ _ _ => rfl, fun _ _ _ _ => rfl⟩

theorem SameTo.trans (h : SameTo bucketS σ bound s t) (k : SameTo bucketS σ bound t u) :
    SameTo bucketS σ bound s u :=
  ⟨fun c b hb => (k.attempts c b hb).trans (h.attempts c b hb),
    fun c st b hb => (k.terminals c st b hb).trans (h.terminals c st b hb)⟩

theorem Exact.same (h : Exact bucketS s m) (hst : SameTo bucketS σ bound s t)
    (hs : m.simulationId = σ) (hb : m.bucketVirtualS ≤ bound) : Exact bucketS t m := by
  subst hs
  exact ⟨h.attempts.trans (hst.attempts _ _ hb).symm,
    fun st ht => (h.terminals st ht).trans (hst.terminals _ st _ hb).symm⟩

theorem snapshot_exact (hw : 0 < bucketS) (hu : SameTo bucketS σ stop s u)
    (ht : SameTo bucketS σ stop t u) (hm : m ∈ snapshotRows σ gauges
      (attemptsByBucket σ bucketS (start * bucketS) ((stop + 1) * bucketS) s)
      (terminalsByBucket σ bucketS (start * bucketS) ((stop + 1) * bucketS) t)
      consumers start stop) : Exact bucketS u m := by
  obtain ⟨c, -, hm⟩ := List.mem_flatMap.mp hm
  obtain ⟨b, hb, rfl⟩ := List.mem_map.mp hm
  obtain ⟨hlo, hhi⟩ := mem_bucketRange.mp hb
  constructor
  · exact (countOf_attemptsByBucket hw hlo hhi).trans (hu.attempts c b hhi).symm
  · intro st hst
    have hcount := (countOf_terminalsByBucket σ c t hw hlo hhi hst).trans
      (ht.terminals c st b hhi).symm
    cases st with
    | delivered | expired | superseded | failed => exact hcount
    | pending | ready | inFlight => cases hst

end Rows

section Sums

variable {bucketS : ℚ} {σ : SimulationId} {c : ConsumerId} {top : ℤ} {table : List MetricsSnapshot}
  {g : MetricsSnapshot → ℕ} {h : ℤ → ℕ} {db : Db} {st : DeliveryState}

def chartSum (σ : SimulationId) (c : ConsumerId) (g : MetricsSnapshot → ℕ)
    (table : List MetricsSnapshot) : ℕ :=
  ((table.filter fun m => m.simulationId == σ && m.consumerId == c).map g).sum

theorem bucketRange_nodup (start stop : ℤ) : (bucketRange start stop).Nodup := by
  refine List.Nodup.map (fun i j hij => ?_) List.nodup_range
  have hij : start + (i : ℤ) = start + (j : ℤ) := hij
  omega

theorem chartSum_eq (hk : (table.map MetricsSnapshot.key).Nodup)
    (hp : ∀ b, Present σ c b table ↔ 0 ≤ b ∧ b ≤ top)
    (hg : ∀ m ∈ table, m.simulationId = σ → m.consumerId = c → g m = h m.bucketVirtualS) :
    chartSum σ c g table = ((bucketRange 0 top).map h).sum := by
  set rows := table.filter fun m => m.simulationId == σ && m.consumerId == c with hrows
  have mem : ∀ {m}, m ∈ rows ↔ m ∈ table ∧ m.simulationId = σ ∧ m.consumerId = c := by
    intro m
    rw [hrows, List.mem_filter, Bool.and_eq_true, beq_iff_eq, beq_iff_eq]
  have hnodup : (rows.map MetricsSnapshot.bucketVirtualS).Nodup := by
    have hsub : (rows.map MetricsSnapshot.key).Nodup :=
      hk.sublist (List.filter_sublist.map _)
    rw [List.Nodup, List.pairwise_map] at hsub ⊢
    refine hsub.imp_of_mem fun {m n} hm hn hne hb => hne ?_
    obtain ⟨-, hms, hmc⟩ := mem.mp hm
    obtain ⟨-, hns, hnc⟩ := mem.mp hn
    rw [MetricsSnapshot.key, MetricsSnapshot.key, hms, hmc, hns, hnc, hb]
  have hperm : (rows.map MetricsSnapshot.bucketVirtualS).Perm (bucketRange 0 top) := by
    refine (List.perm_ext_iff_of_nodup hnodup (bucketRange_nodup 0 top)).mpr fun b => ?_
    rw [mem_bucketRange, ← hp b, Present, List.mem_map, List.mem_map]
    constructor
    · rintro ⟨m, hm, rfl⟩
      obtain ⟨hm, hs, hc⟩ := mem.mp hm
      exact ⟨m, hm, by rw [MetricsSnapshot.key, hs, hc]⟩
    · rintro ⟨m, hm, hkey⟩
      simp only [MetricsSnapshot.key, Prod.mk.injEq] at hkey
      exact ⟨m, mem.mpr ⟨hm, hkey.1, hkey.2.1⟩, hkey.2.2⟩
  have hcongr : rows.map g = (rows.map MetricsSnapshot.bucketVirtualS).map h := by
    rw [List.map_map]
    refine List.map_congr_left fun m hm => ?_
    obtain ⟨hm, hs, hc⟩ := mem.mp hm
    exact hg m hm hs hc
  rw [chartSum, ← hrows, hcongr]
  exact (hperm.map h).sum_eq

def attemptsOf (σ : SimulationId) (c : ConsumerId) (db : Db) : ℕ :=
  db.attempts.rows.countP fun a => a.simulationId == σ && a.consumerId == c

def settledOf (σ : SimulationId) (c : ConsumerId) (st : DeliveryState) (db : Db) : ℕ :=
  db.deliveries.rows.countP fun d => d.simulationId == σ && d.consumerId == c && d.state == st

theorem sum_attemptsIn : ((bucketRange 0 top).map fun b => attemptsIn bucketS σ c b db).sum =
    attemptsOf σ c db ↔ ∀ a ∈ db.attempts.rows, a.simulationId = σ → a.consumerId = c →
      0 ≤ bucketIndex a.startedAt bucketS ∧ bucketIndex a.startedAt bucketS ≤ top := by
  unfold attemptsIn attemptsOf
  rw [sum_countP_fibers _ _ _ (bucketRange_nodup 0 top), countP_and_eq_iff]
  refine forall₂_congr fun a _ => ?_
  rw [Bool.and_eq_true, beq_iff_eq, beq_iff_eq, and_imp, decide_eq_true_eq, mem_bucketRange]

theorem sum_settledIn :
    ((bucketRange 0 top).map fun b => settledIn bucketS σ c st b db).sum = settledOf σ c st db ↔
      ∀ d ∈ db.deliveries.rows, d.simulationId = σ → d.consumerId = c → d.state = st →
        ∃ x, d.completedAt = some x ∧ 0 ≤ bucketIndex x bucketS ∧ bucketIndex x bucketS ≤ top := by
  have hkeys : ((bucketRange 0 top).map some).Nodup :=
    (bucketRange_nodup 0 top).map (Option.some_injective _)
  have hsum := sum_countP_fibers db.deliveries.rows
    (fun d => d.simulationId == σ && d.consumerId == c && d.state == st)
    (fun d => d.completedAt.map fun x => bucketIndex x bucketS) hkeys
  rw [List.map_map] at hsum
  have hall : ∀ d : Delivery, (d.completedAt.map fun x => bucketIndex x bucketS) ∈
      (bucketRange 0 top).map some ↔ ∃ x, d.completedAt = some x ∧
        0 ≤ bucketIndex x bucketS ∧ bucketIndex x bucketS ≤ top := by
    intro d
    cases d.completedAt <;> simp
  refine (iff_of_eq (congrArg (· = settledOf σ c st db) hsum)).trans ?_
  rw [settledOf, countP_and_eq_iff]
  refine forall₂_congr fun d _ => ?_
  simp only [Bool.and_eq_true, beq_iff_eq, and_imp, decide_eq_true_eq, hall]

/-- Everything that a consumer's run has come to is on its chart. -/
structure Accounted (σ : SimulationId) (c : ConsumerId) (db : Db) : Prop where
  terminals : ∀ st : DeliveryState, st.terminal →
    chartSum σ c (counter st) db.metrics = settledOf σ c st db
  attempts : chartSum σ c MetricsSnapshot.attempts db.metrics = attemptsOf σ c db

structure InTime (bucketS : ℚ) (top : ℤ) (σ : SimulationId) (c : ConsumerId) (db : Db) : Prop where
  completed : ∀ d ∈ db.deliveries.rows, d.simulationId = σ → d.consumerId = c →
    ∀ x, d.completedAt = some x → 0 ≤ bucketIndex x bucketS ∧ bucketIndex x bucketS ≤ top
  started : ∀ a ∈ db.attempts.rows, a.simulationId = σ → a.consumerId = c →
    0 ≤ bucketIndex a.startedAt bucketS ∧ bucketIndex a.startedAt bucketS ≤ top

/-- A chart that is exact up to a last bucket accounts for what lies in its buckets, and for no
more. -/
theorem accounted_iff (hk : (db.metrics.map MetricsSnapshot.key).Nodup)
    (hp : ∀ b, Present σ c b db.metrics ↔ 0 ≤ b ∧ b ≤ top)
    (hx : ∀ m ∈ db.metrics, m.simulationId = σ → Exact bucketS db m)
    (hd : ∀ d ∈ db.deliveries.rows, d.completedAt.isSome ↔ d.state.terminal) :
    Accounted σ c db ↔ InTime bucketS top σ c db := by
  have hattempts : chartSum σ c MetricsSnapshot.attempts db.metrics =
      ((bucketRange 0 top).map fun b => attemptsIn bucketS σ c b db).sum := by
    refine chartSum_eq hk hp fun m hm hs hc => ?_
    rw [(hx m hm hs).attempts, hs, hc]
  have hterminals : ∀ st : DeliveryState, st.terminal → chartSum σ c (counter st) db.metrics =
      ((bucketRange 0 top).map fun b => settledIn bucketS σ c st b db).sum := by
    intro st hst
    refine chartSum_eq hk hp fun m hm hs hc => ?_
    rw [(hx m hm hs).terminals st hst, hs, hc]
  constructor
  · rintro ⟨hterm, hatt⟩
    refine ⟨fun d hdm hs hc x hdx => ?_, sum_attemptsIn.mp (hattempts.symm.trans hatt)⟩
    have hst : d.state.terminal := (hd d hdm).mp (by rw [hdx]; rfl)
    obtain ⟨y, hy, hin⟩ := sum_settledIn.mp ((hterminals d.state hst).symm.trans
      (hterm d.state hst)) d hdm hs hc rfl
    obtain rfl := Option.some.inj (hdx.symm.trans hy)
    exact hin
  · rintro ⟨hcompleted, hstarted⟩
    refine ⟨fun st hst => ?_, hattempts.trans (sum_attemptsIn.mpr hstarted)⟩
    refine (hterminals st hst).trans (sum_settledIn.mpr fun d hdm hs hc hds => ?_)
    obtain ⟨x, hdx⟩ := Option.isSome_iff_exists.mp ((hd d hdm).mpr (by rwa [hds]))
    exact ⟨x, hdx, hcompleted d hdm hs hc x hdx⟩

end Sums

end ChartTallies
