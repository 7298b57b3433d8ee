import WebhookRecovery.DeliveryPipeline

/-! The series of one simulation over the committed calls of one writer after another. What one
call may write is bounded from below, so a call that finds more outstanding than the bound leaves
the oldest of it out, and the cursor then moves past what was left out. -/
namespace SeriesContiguity

open RecoverySchema InterleavedPrograms MetricsSeries

structure State where
  db : Db
  lastWritten : Option ℤ

inductive Event where
  | call (now : ℚ) (gauges : Gauges)
  | failover
  | other (db : Db)

section Series

variable (cfg : Settings) (sim : SimulationId)

/-- Only the writer touches the series, and nobody changes the consumers. -/
def Enabled (s : State) : Event → Prop
  | .other db => db.cast = s.db.cast ∧
    ∀ c b, Present sim c b db.metrics ↔ Present sim c b s.db.metrics
  | _ => True

def next (s : State) : Event → State
  | .call now gauges =>
    let r := (MetricsSeries.write cfg sim now gauges s.lastWritten).run s.db
    ⟨r.2, r.1⟩
  | .failover => { s with lastWritten := none }
  | .other db => { s with db := db }

def Initial (s : State) : Prop := recoverCursor sim s.db = none ∧ s.lastWritten = none

def system : System State Event := .guarded (Initial sim) (Enabled sim) (next cfg sim)

/-- Every consumer has exactly the buckets from 0 to the newest one of the simulation. -/
def Contiguous (db : Db) : Prop :=
  ∀ c ∈ consumerIds sim db, ∀ b,
    Present sim c b db.metrics ↔ 0 ≤ b ∧ b < firstMissing (recoverCursor sim db)

def outstanding (now : ℚ) (db : Db) : ℤ :=
  lastComplete cfg now + 1 - firstMissing (recoverCursor sim db)

def WithinBackfill (now : ℚ) (db : Db) : Prop :=
  cfg.metricsMaxBackfillBuckets = 0 ∨ outstanding cfg sim now db ≤ cfg.metricsMaxBackfillBuckets

def Bounded (s : State) : Event → Prop
  | .call now _ => WithinBackfill cfg sim now s.db
  | _ => True

def bounded : System State Event := (system cfg sim).restrict (Bounded cfg sim)

structure Invariant (s : State) : Prop where
  contiguous : Contiguous sim s.db
  start : 0 ≤ firstMissing (recoverCursor sim s.db)
  cached : cfg.metricsMaxBackfillBuckets ≠ 0 →
    ∀ b ∈ s.lastWritten, recoverCursor sim s.db = some b
  unwritten : cfg.metricsMaxBackfillBuckets = 0 → recoverCursor sim s.db = none

end Series

section Calls

variable {cfg : Settings} {sim : SimulationId} {s t : State} {e : Event} {now : ℚ}
  {gauges : Gauges} {db : Db}

theorem contiguous_congr (db : Db) {db' : Db} (hcast : db'.cast = db.cast)
    (h : ∀ c b, Present sim c b db'.metrics ↔ Present sim c b db.metrics)
    (hc : Contiguous sim db) : Contiguous sim db' := by
  intro c hmem b
  rw [h, recoverCursor_congr h]
  apply hc c
  unfold consumerIds at hmem ⊢
  rwa [hcast] at hmem

theorem used_of_cached (h : ∀ b ∈ s.lastWritten, recoverCursor sim s.db = some b) :
    usedCursor sim s.lastWritten s.db = recoverCursor sim s.db := by
  cases hl : s.lastWritten with
  | none => rfl
  | some b => exact (h b (by simp [hl])).symm

theorem present_unbounded (hcap : cfg.metricsMaxBackfillBuckets = 0) (last : Option ℤ)
    (c : ConsumerId) (b : ℤ) :
    Present sim c b (upsert (written cfg sim now gauges db last) db).metrics ↔
      Present sim c b db.metrics := by
  rw [present_upsert]
  constructor
  · rintro (h | h)
    · exact h
    · obtain ⟨-, -, hlo, hhi⟩ := present_written.mp h
      unfold firstWritten at hlo
      omega
  · exact Or.inl

/-- A call that may write all that is outstanding leaves no hole; one that may not does. -/
theorem contiguous_written (hcap : cfg.metricsMaxBackfillBuckets ≠ 0)
    (hc : Contiguous sim db) (hstart : 0 ≤ firstMissing (recoverCursor sim db))
    (h : Writes cfg sim now (recoverCursor sim db) db) :
    Contiguous sim (upsert (written cfg sim now gauges db (recoverCursor sim db)) db) ↔
      outstanding cfg sim now db ≤ cfg.metricsMaxBackfillBuckets := by
  have hm := h.missing
  have hcur := recoverCursor_written gauges hcap h
  constructor
  · intro hcon
    by_contra hout
    obtain ⟨c, hmem⟩ := List.exists_mem_of_ne_nil _ h.2
    -- the first missing bucket is below what the call writes
    have hlt : firstMissing (recoverCursor sim db) < lastComplete cfg now + 1 := by omega
    have hp := (hcon c hmem (firstMissing (recoverCursor sim db))).mpr (by
      rw [hcur]
      exact ⟨hstart, hlt⟩)
    rcases present_upsert.mp hp with hp | hp
    · exact lt_irrefl _ hp.lt_firstMissing
    · obtain ⟨-, -, hlo, -⟩ := present_written.mp hp
      unfold firstWritten at hlo
      unfold outstanding at hout
      omega
  · intro hout c hmem b
    have hc := hc c hmem b
    rw [hcur, present_upsert, hc, present_written]
    unfold outstanding at hout
    unfold firstWritten
    constructor
    · rintro (h | h)
      · refine ⟨h.1, ?_⟩
        show b < lastComplete cfg now + 1
        omega
      · refine ⟨by omega, ?_⟩
        show b < lastComplete cfg now + 1
        omega
    · rintro ⟨hlo, hhi⟩
      have hhi : b < lastComplete cfg now + 1 := hhi
      by_cases hb : b < firstMissing (recoverCursor sim db)
      · exact Or.inl ⟨hlo, hb⟩
      · exact Or.inr ⟨rfl, hmem, by omega, by omega⟩

theorem next_call_of_writes (h : Writes cfg sim now s.lastWritten s.db) :
    next cfg sim s (.call now gauges) =
      ⟨upsert (written cfg sim now gauges s.db (usedCursor sim s.lastWritten s.db)) s.db,
        some (lastComplete cfg now)⟩ := by
  rw [next, write_run_of_writes h]

theorem next_call_of_idle (h : ¬ Writes cfg sim now s.lastWritten s.db) :
    next cfg sim s (.call now gauges) = s := by
  rw [next, write_run_of_idle h]

/-- One call keeps the series contiguous exactly when it is within the bound. -/
theorem call_contiguous_iff (now : ℚ) (gauges : Gauges) (hs : Invariant cfg sim s)
    (hc : consumerIds sim s.db ≠ []) :
    Contiguous sim (next cfg sim s (.call now gauges)).db ↔ WithinBackfill cfg sim now s.db := by
  by_cases hcap : cfg.metricsMaxBackfillBuckets = 0
  · apply iff_of_true _ (Or.inl hcap)
    by_cases hw : Writes cfg sim now s.lastWritten s.db
    · rw [next_call_of_writes hw]
      exact contiguous_congr s.db rfl (present_unbounded hcap _) hs.contiguous
    · rw [next_call_of_idle hw]
      exact hs.contiguous
  · have hused := used_of_cached (hs.cached hcap)
    by_cases hw : Writes cfg sim now s.lastWritten s.db
    · rw [next_call_of_writes hw, hused,
        contiguous_written hcap hs.contiguous hs.start (hw.of_used hused)]
      constructor
      · exact Or.inr
      · rintro (h | h)
        · exact absurd h hcap
        · exact h
    · -- nothing is outstanding
      rw [next_call_of_idle hw]
      apply iff_of_true hs.contiguous
      refine Or.inr ?_
      have hm : ¬ firstMissing (usedCursor sim s.lastWritten s.db) ≤ lastComplete cfg now :=
        fun hm => hw ⟨hm, hc⟩
      rw [hused] at hm
      unfold outstanding
      omega

theorem call_cursor (gauges : Gauges) (hs : Invariant cfg sim s)
    (hcap : cfg.metricsMaxBackfillBuckets ≠ 0) (hw : Writes cfg sim now s.lastWritten s.db) :
    recoverCursor sim (next cfg sim s (.call now gauges)).db = some (lastComplete cfg now) := by
  have hused := used_of_cached (hs.cached hcap)
  rw [next_call_of_writes hw, hused]
  exact recoverCursor_written gauges hcap (hw.of_used hused)

theorem call_invariant (hs : Invariant cfg sim s) (hc : WithinBackfill cfg sim now s.db) :
    Invariant cfg sim (next cfg sim s (.call now gauges)) := by
  by_cases hw : Writes cfg sim now s.lastWritten s.db
  · have hcon := (call_contiguous_iff now gauges hs hw.2).mpr hc
    by_cases hcap : cfg.metricsMaxBackfillBuckets = 0
    · have hcur : recoverCursor sim (next cfg sim s (.call now gauges)).db =
          recoverCursor sim s.db := by
        rw [next_call_of_writes hw]
        exact recoverCursor_congr (present_unbounded hcap _)
      exact ⟨hcon, hcur ▸ hs.start, fun h => absurd hcap h, fun _ => hcur.trans (hs.unwritten hcap)⟩
    · have hcur := call_cursor gauges hs hcap hw
      refine ⟨hcon, ?_, fun _ => ?_, fun h => absurd h hcap⟩
      · have hm := (hw.of_used (used_of_cached (hs.cached hcap))).missing
        have hstart := hs.start
        rw [hcur]
        show 0 ≤ lastComplete cfg now + 1
        omega
      · rw [hcur, next_call_of_writes hw]
        exact fun b hb => hb
  · rw [next_call_of_idle hw]
    exact hs

theorem initial_invariant (h : Initial sim s) : Invariant cfg sim s := by
  obtain ⟨hcur, hlast⟩ := h
  refine ⟨?_, ?_, ?_, fun _ => hcur⟩
  · intro c _ b
    rw [hcur]
    apply iff_of_false (recoverCursor_eq_none.mp hcur c b)
    simp only [firstMissing]
    omega
  · rw [hcur]
    exact le_refl _
  · intro _ b hb
    simp [hlast] at hb

theorem step_invariant (hs : Invariant cfg sim s) (h : (bounded cfg sim).step s e t) :
    Invariant cfg sim t := by
  obtain ⟨hc, he, rfl⟩ := h
  cases e with
  | call now gauges => exact call_invariant hs hc
  | failover => exact ⟨hs.contiguous, hs.start, fun _ b hb => by simp [next] at hb, hs.unwritten⟩
  | other db =>
    obtain ⟨hcast, hp⟩ := he
    have hcur := recoverCursor_congr hp
    exact ⟨contiguous_congr s.db hcast hp hs.contiguous, hcur ▸ hs.start,
      fun hcap b hb => hcur.trans (hs.cached hcap b hb), fun hcap => hcur.trans (hs.unwritten hcap)⟩

theorem bounded_invariant (h : (bounded cfg sim).Reachable s) : Invariant cfg sim s :=
  h.invariant (fun _ => initial_invariant) fun _ _ _ _ hs he => step_invariant hs he

/-- While every call finds no more outstanding than it may write the series has no hole, and
the first call that finds more leaves one. -/
theorem series_contiguous (h : (bounded cfg sim).Reachable s) : Contiguous sim s.db ∧
    (consumerIds sim s.db ≠ [] → ∀ now gauges,
      (Contiguous sim (next cfg sim s (.call now gauges)).db ↔ WithinBackfill cfg sim now s.db)) :=
  ⟨(bounded_invariant h).contiguous, fun hc now gauges =>
    call_contiguous_iff now gauges (bounded_invariant h) hc⟩

end Calls

section Gap

open DeliveryPipeline

def fresh : State := ⟨.seeded soleConsumer [], none⟩

theorem fresh_initial : Initial 1 fresh := ⟨rfl, rfl⟩

def opened : State := next shipped 1 fresh (.call 5 [])

def charted : State := next shipped 1 (next shipped 1 opened .failover) (.call 9 [])

theorem charted_reachable : (bounded shipped 1).Reachable charted := by
  have hfirst : (bounded shipped 1).step fresh (.call 5 []) opened :=
    ⟨.inr (by decide +kernel), trivial, rfl⟩
  have hfailover : (bounded shipped 1).step opened .failover (next shipped 1 opened .failover) :=
    ⟨trivial, trivial, rfl⟩
  have hsecond : (bounded shipped 1).step (next shipped 1 opened .failover) (.call 9 []) charted :=
    ⟨.inr (by decide +kernel), trivial, rfl⟩
  exact (((System.Reachable.initial fresh_initial).tail hfirst).tail hfailover).tail hsecond

theorem series_contiguous_charted : recoverCursor 1 charted.db = some 7 ∧
    Contiguous 1 charted.db ∧ ∀ now gauges,
      (Contiguous 1 (next shipped 1 charted (.call now gauges)).db ↔
        WithinBackfill shipped 1 now charted.db) := by
  obtain ⟨hc, hiff⟩ := series_contiguous charted_reachable
  exact ⟨by decide +kernel, hc, hiff (by decide +kernel)⟩

/-- The first call comes at virtual second 400 and writes the buckets 99 to 398 only. -/
theorem late_call_leaves_hole :
    ¬ ∀ s, (system shipped 1).Reachable s → Contiguous 1 s.db := by
  intro h
  have hstep : (system shipped 1).step fresh (.call 400 []) (next shipped 1 fresh (.call 400 [])) :=
    ⟨trivial, rfl⟩
  have hcon := h _ (System.Reachable.initial fresh_initial |>.tail hstep)
  rw [call_contiguous_iff 400 [] (initial_invariant fresh_initial) (by decide)] at hcon
  rcases hcon with hcap | hout
  · exact absurd hcap (by decide)
  · exact absurd hout (by decide +kernel)

end Gap

end SeriesContiguity
