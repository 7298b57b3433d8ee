import WebhookRecovery.DeliveryPipeline

/-! The metrics cursor that a conductor process keeps in memory, while leadership moves between
processes and passes over several simulations commit or are rolled back. A cached cursor is
stale once the pass that advanced it was rolled back, or once another process has committed
buckets of the simulation. -/
namespace CursorAgreement

open RecoverySchema InterleavedPrograms MetricsSeries

abbrev ProcessId := ℕ

/-- The leader's transaction: the table as it sees it, the simulations still ahead, and those
whose cursor it has advanced. -/
structure Pass where
  metrics : List MetricsSnapshot
  ahead : List SimulationId
  advanced : List SimulationId

structure State where
  db : Db
  cached : ProcessId → SimulationId → Option ℤ
  leader : Option ProcessId
  pass : Option Pass
  stale : ProcessId → SimulationId → Bool

/-- `release` is whatever ends the leader's session, in the middle of a pass or not; its
transaction is rolled back. A process that restarts has an empty cache. -/
inductive Event where
  | acquire (p : ProcessId)
  | beginPass (sims : List SimulationId)
  | write (now : ℚ) (gauges : Gauges)
  | commit
  | release
  | restart (p : ProcessId)
  | other (db : Db)

def Enabled (s : State) : Event → Prop
  | .acquire _ => s.leader = none
  | .beginPass sims => s.leader ≠ none ∧ s.pass.isNone ∧ sims.Nodup
  | .commit => s.pass.map Pass.ahead = some []
  | .restart p => s.leader ≠ some p
  | .other db => db.metrics = s.db.metrics
  | .write _ _ | .release => True

instance (s : State) : DecidablePred (Enabled s)
  | .acquire _ => inferInstanceAs (Decidable (s.leader = none))
  | .beginPass sims => inferInstanceAs
    (Decidable (s.leader ≠ none ∧ s.pass.isNone = true ∧ sims.Nodup))
  | .commit => inferInstanceAs (Decidable (s.pass.map Pass.ahead = some []))
  | .restart p => inferInstanceAs (Decidable (s.leader ≠ some p))
  | .other db => inferInstanceAs (Decidable (db.metrics = s.db.metrics))
  | .write _ _ | .release => inferInstanceAs (Decidable True)

def State.view (s : State) (pass : Pass) : Db := { s.db with metrics := pass.metrics }

/-- One simulation's call within a pass; the cache is advanced at once, in memory. -/
def writeNext (cfg : Settings) (now : ℚ) (gauges : Gauges) (s : State) (p : ProcessId)
    (pass : Pass) (sim : SimulationId) (rest : List SimulationId) : State :=
  let r := (MetricsSeries.write cfg sim now gauges (s.cached p sim)).run (s.view pass)
  { s with
    cached := Function.update s.cached p (Function.update (s.cached p) sim r.1)
    pass := some
      { metrics := r.2.metrics
        ahead := rest
        advanced := if Writes cfg sim now (s.cached p sim) (s.view pass) then sim :: pass.advanced
          else pass.advanced } }

/-- The caches of a set of processes go stale for the simulations a pass has advanced. -/
def State.spoil (s : State) (who : ProcessId → Bool) (pass : Pass) :
    ProcessId → SimulationId → Bool := fun q x =>
  s.stale q x || (who q && pass.advanced.contains x && (s.cached q x).isSome)

def next (cfg : Settings) (s : State) : Event → State
  | .acquire p => { s with leader := some p }
  | .beginPass sims => { s with pass := some ⟨s.db.metrics, sims, []⟩ }
  | .write now gauges =>
    match s.leader, s.pass with
    | some p, some ⟨metrics, sim :: rest, advanced⟩ =>
      writeNext cfg now gauges s p ⟨metrics, sim :: rest, advanced⟩ sim rest
    | _, _ => s
  | .commit =>
    match s.pass with
    | some pass =>
      { s with
        db := s.view pass
        pass := none
        stale := s.spoil (fun q => some q != s.leader) pass }
    | none => s
  | .release =>
    match s.pass with
    | some pass =>
      { s with
        leader := none
        pass := none
        stale := s.spoil (fun q => some q == s.leader) pass }
    | none => { s with leader := none }
  | .restart p =>
    { s with
      cached := Function.update s.cached p fun _ => none
      stale := Function.update s.stale p fun _ => false }
  | .other db => { s with db := db }

def Initial (s : State) : Prop :=
  s.cached = (fun _ _ => none) ∧ s.leader = none ∧ s.pass = none ∧ s.stale = fun _ _ => false

def system (cfg : Settings) : System State Event := .guarded Initial Enabled (next cfg)

def State.Uses (s : State) (p : ProcessId) (sim : SimulationId) (pass : Pass) : Prop :=
  s.leader = some p ∧ s.pass = some pass ∧ ∃ rest, pass.ahead = sim :: rest

def Current (s : State) : Event → Prop
  | .write _ _ => ∀ p sim pass, s.Uses p sim pass → s.stale p sim = false
  | _ => True

/-- The runs in which no call goes by a stale cache. -/
def current (cfg : Settings) : System State Event := (system cfg).restrict Current

structure Invariant (s : State) : Prop where
  led : s.pass.isSome → s.leader ≠ none
  cached : ∀ p x b, s.stale p x = false → s.cached p x = some b →
    (∀ pass ∈ s.pass, s.leader = some p → x ∉ pass.advanced) → recoverCursor x s.db = some b
  distinct : ∀ pass ∈ s.pass, pass.ahead.Nodup ∧ ∀ x ∈ pass.ahead, x ∉ pass.advanced
  untouched : ∀ pass ∈ s.pass, ∀ x, x ∉ pass.advanced → ∀ c b,
    Present x c b pass.metrics ↔ Present x c b s.db.metrics
  ahead_of_table : ∀ pass ∈ s.pass, ∀ p, s.leader = some p → ∀ x ∈ pass.advanced,
    ∃ b, s.cached p x = some b ∧ recoverCursor x (s.view pass) = some b
  kept : ∀ pass ∈ s.pass, ∀ m ∈ s.db.metrics, m ∈ pass.metrics

section Calls

variable {cfg : Settings} {s t : State} {e : Event} {p : ProcessId} {sim : SimulationId}
  {pass : Pass} {now : ℚ} {gauges : Gauges}

theorem view_cursor {x : SimulationId} (h : ∀ c b,
    Present x c b pass.metrics ↔ Present x c b s.db.metrics) :
    recoverCursor x (s.view pass) = recoverCursor x s.db := recoverCursor_congr h

theorem uses_cursor (hs : Invariant s) (hu : s.Uses p sim pass) (hc : s.stale p sim = false) :
    (∀ b ∈ s.cached p sim, recoverCursor sim s.db = some b) ∧
      recoverCursor sim (s.view pass) = recoverCursor sim s.db ∧
      usedCursor sim (s.cached p sim) (s.view pass) = recoverCursor sim s.db := by
  obtain ⟨hl, hp, rest, ha⟩ := hu
  have hfresh : sim ∉ pass.advanced := by
    apply (hs.distinct pass hp).2
    rw [ha]
    exact List.mem_cons_self
  have hview := view_cursor (hs.untouched pass hp sim hfresh)
  have hcached : ∀ b ∈ s.cached p sim, recoverCursor sim s.db = some b := by
    intro b hb
    apply hs.cached p sim b hc hb
    intro pass' hp' _
    rw [hp] at hp'
    obtain rfl := Option.some.inj hp'
    exact hfresh
  refine ⟨hcached, hview, ?_⟩
  cases hb : s.cached p sim with
  | none => exact hview
  | some b => exact (hcached b hb).symm

theorem written_fresh {db : Db} {c : ConsumerId} {b : ℤ}
    (h : Present sim c b (written cfg sim now gauges db (recoverCursor sim db))) :
    ¬ Present sim c b db.metrics := by
  intro hp
  obtain ⟨-, -, hlo, -⟩ := present_written.mp h
  have hlt := hp.lt_firstMissing
  unfold firstWritten at hlo
  omega

theorem written_keeps {db : Db} {m : MetricsSnapshot} (hm : m ∈ db.metrics) :
    m ∈ (upsert (written cfg sim now gauges db (recoverCursor sim db)) db).metrics := by
  apply mem_upsert_of_fresh hm
  intro hk
  have hs : m.simulationId = sim := (present_written.mp hk).1
  subst hs
  exact written_fresh hk (List.mem_map.mpr ⟨m, hm, rfl⟩)

theorem write_idle (rest : List SimulationId)
    (h : ¬ Writes cfg sim now (s.cached p sim) (s.view pass)) :
    writeNext cfg now gauges s p pass sim rest =
      { s with pass := some { pass with ahead := rest } } := by
  unfold writeNext
  rw [write_run_of_idle h, if_neg h]
  simp only [Function.update_eq_self]
  rfl

theorem write_busy (rest : List SimulationId)
    (h : Writes cfg sim now (s.cached p sim) (s.view pass))
    (hused : usedCursor sim (s.cached p sim) (s.view pass) = recoverCursor sim (s.view pass)) :
    writeNext cfg now gauges s p pass sim rest =
      { s with
        cached := Function.update s.cached p
          (Function.update (s.cached p) sim (some (lastComplete cfg now)))
        pass := some
          { metrics := (upsert (written cfg sim now gauges (s.view pass)
              (recoverCursor sim (s.view pass))) (s.view pass)).metrics
            ahead := rest
            advanced := sim :: pass.advanced } } := by
  unfold writeNext
  rw [write_run_of_writes h, if_pos h, hused]

theorem idle_invariant (hs : Invariant s) {rest : List SimulationId} (hp : s.pass = some pass)
    (ha : pass.ahead = sim :: rest) :
    Invariant { s with pass := some { pass with ahead := rest } } := by
  constructor
  · exact fun _ => hs.led (by simp [hp])
  · intro q x b hst hb hna
    apply hs.cached q x b hst hb
    intro pass' hp' hl
    rw [hp] at hp'
    obtain rfl := Option.some.inj hp'
    have hx := hna { pass with ahead := rest } rfl hl
    exact hx
  · rintro _ ⟨⟩
    obtain ⟨hn, hd⟩ := hs.distinct pass hp
    rw [ha] at hn hd
    exact ⟨(List.nodup_cons.mp hn).2, fun x hx => hd x (List.mem_cons_of_mem _ hx)⟩
  · rintro _ ⟨⟩
    exact hs.untouched pass hp
  · rintro _ ⟨⟩
    exact hs.ahead_of_table pass hp
  · rintro _ ⟨⟩
    exact hs.kept pass hp

theorem busy_invariant (hcap : cfg.metricsMaxBackfillBuckets ≠ 0) (hs : Invariant s)
    {rest : List SimulationId} (hl : s.leader = some p) (hp : s.pass = some pass)
    (ha : pass.ahead = sim :: rest)
    (hw : Writes cfg sim now (recoverCursor sim (s.view pass)) (s.view pass)) :
    Invariant { s with
      cached := Function.update s.cached p
        (Function.update (s.cached p) sim (some (lastComplete cfg now)))
      pass := some
        { metrics := (upsert (written cfg sim now gauges (s.view pass)
            (recoverCursor sim (s.view pass))) (s.view pass)).metrics
          ahead := rest
          advanced := sim :: pass.advanced } } := by
  -- the series of another simulation is not touched
  have hother : ∀ x, x ≠ sim → ∀ c b, Present x c b (upsert (written cfg sim now gauges
      (s.view pass) (recoverCursor sim (s.view pass))) (s.view pass)).metrics ↔
        Present x c b pass.metrics := by
    intro x hx c b
    rw [present_upsert]
    constructor
    · rintro (h | h)
      · exact h
      · exact absurd (present_written.mp h).1 hx
    · exact Or.inl
  constructor
  · intro _
    rw [hl]
    exact Option.some_ne_none p
  · intro q x b hst hb hna
    by_cases hq : q = p
    · subst hq
      have hx := hna _ rfl hl
      rw [List.mem_cons, not_or] at hx
      simp only [Function.update_self, Function.update_of_ne hx.1] at hb
      apply hs.cached q x b hst hb
      intro pass' hp' _
      rw [hp] at hp'
      obtain rfl := Option.some.inj hp'
      exact hx.2
    · simp only [Function.update_of_ne hq] at hb
      apply hs.cached q x b hst hb
      intro _ _ hlq
      exact absurd (Option.some.inj (hlq.symm.trans hl)) hq
  · rintro _ ⟨⟩
    obtain ⟨hn, hd⟩ := hs.distinct pass hp
    rw [ha] at hn hd
    obtain ⟨hsim, hn⟩ := List.nodup_cons.mp hn
    refine ⟨hn, ?_⟩
    intro x hx hmem
    rcases List.mem_cons.mp hmem with rfl | hmem
    · exact hsim hx
    · exact hd x (List.mem_cons_of_mem _ hx) hmem
  · rintro _ ⟨⟩ x hx c b
    rw [List.mem_cons, not_or] at hx
    exact (hother x hx.1 c b).trans (hs.untouched pass hp x hx.2 c b)
  · rintro _ ⟨⟩ q hlq x hx
    have hqp : q = p := Option.some.inj (hlq.symm.trans hl)
    subst hqp
    by_cases hxs : x = sim
    · subst hxs
      exact ⟨lastComplete cfg now, by simp, recoverCursor_written gauges hcap hw⟩
    · have hx := (List.mem_cons.mp hx).resolve_left hxs
      obtain ⟨b, hb, hcur⟩ := hs.ahead_of_table pass hp q hl x hx
      refine ⟨b, by simpa [hxs] using hb, ?_⟩
      rw [← hcur]
      exact recoverCursor_congr (hother x hxs)
  · rintro _ ⟨⟩ m hm
    exact written_keeps (hs.kept pass hp m hm)

theorem write_invariant (hcap : cfg.metricsMaxBackfillBuckets ≠ 0) (hs : Invariant s)
    (hu : s.Uses p sim pass) {rest : List SimulationId} (ha : pass.ahead = sim :: rest)
    (hc : s.stale p sim = false) : Invariant (writeNext cfg now gauges s p pass sim rest) := by
  obtain ⟨-, hview, hused⟩ := uses_cursor hs hu hc
  rw [← hview] at hused
  by_cases hw : Writes cfg sim now (s.cached p sim) (s.view pass)
  · rw [write_busy rest hw hused]
    exact busy_invariant hcap hs hu.1 hu.2.1 ha (hw.of_used hused)
  · rw [write_idle rest hw]
    exact idle_invariant hs hu.2.1 ha

/-- Between two passes only the caches matter. -/
theorem invariant_of_idle (hp : s.pass = none) (hc : ∀ q x b, s.stale q x = false →
    s.cached q x = some b → recoverCursor x s.db = some b) : Invariant s := by
  constructor
  · intro hsome
    simp [hp] at hsome
  · exact fun q x b hst hb _ => hc q x b hst hb
  all_goals
    intro _ h
    rw [hp] at h
    cases h

theorem Invariant.cached_idle (hs : Invariant s) (hp : s.pass = none) {q : ProcessId}
    {x : SimulationId} {b : ℤ} (hst : s.stale q x = false) (hb : s.cached q x = some b) :
    recoverCursor x s.db = some b := by
  apply hs.cached q x b hst hb
  intro pass hpass
  rw [hp] at hpass
  cases hpass

theorem commit_invariant (hs : Invariant s) (hp : s.pass = some pass) :
    Invariant (next cfg s .commit) := by
  simp only [next, hp]
  apply invariant_of_idle rfl
  intro q x b hst hb
  simp only [State.spoil, Bool.or_eq_false_iff] at hst
  obtain ⟨hst, hspoil⟩ := hst
  by_cases hx : x ∈ pass.advanced
  · by_cases hl : s.leader = some q
    · obtain ⟨b', hb', hcur⟩ := hs.ahead_of_table pass hp q hl x hx
      have he : b' = b := Option.some.inj (hb'.symm.trans hb)
      exact he ▸ hcur
    · -- another process committed buckets of the simulation
      have hq : (some q != s.leader) = true := by simpa using fun h => hl h.symm
      have hb : s.cached q x = some b := hb
      simp [hq, hx, hb] at hspoil
  · rw [view_cursor (hs.untouched pass hp x hx)]
    apply hs.cached q x b hst hb
    intro pass' hp' _
    rw [hp] at hp'
    obtain rfl := Option.some.inj hp'
    exact hx

theorem release_invariant (hs : Invariant s) : Invariant (next cfg s .release) := by
  cases hp : s.pass with
  | none =>
    simp only [next, hp]
    apply invariant_of_idle rfl
    exact fun q x b hst hb => hs.cached_idle hp hst hb
  | some pass =>
    simp only [next, hp]
    apply invariant_of_idle rfl
    intro q x b hst hb
    simp only [State.spoil, Bool.or_eq_false_iff] at hst
    obtain ⟨hst, hspoil⟩ := hst
    apply hs.cached q x b hst hb
    -- what the pass had advanced is stale from now on
    intro pass' hp' hl hx
    rw [hp] at hp'
    obtain rfl := Option.some.inj hp'
    have hb : s.cached q x = some b := hb
    simp [hl, hx, hb] at hspoil

theorem acquire_invariant (hs : Invariant s) (he : Enabled s (.acquire p)) :
    Invariant (next cfg s (.acquire p)) := by
  have hp : s.pass = none := by
    cases hp : s.pass with
    | none => rfl
    | some pass => exact absurd he (hs.led (by simp [hp]))
  exact invariant_of_idle (s := next cfg s (.acquire p)) hp fun q x b hst hb =>
    hs.cached_idle hp hst hb

theorem begin_invariant {sims : List SimulationId} (hs : Invariant s)
    (he : Enabled s (.beginPass sims)) : Invariant (next cfg s (.beginPass sims)) := by
  obtain ⟨hl, hp, hn⟩ := he
  have hp : s.pass = none := Option.isNone_iff_eq_none.mp hp
  constructor
  · exact fun _ => hl
  · exact fun q x b hst hb _ => hs.cached_idle hp hst hb
  · rintro _ ⟨⟩
    exact ⟨hn, fun x _ => List.not_mem_nil⟩
  · rintro _ ⟨⟩ x _ c b
    exact Iff.rfl
  · rintro _ ⟨⟩ q _ x hx
    cases hx
  · rintro _ ⟨⟩ m hm
    exact hm

theorem restart_invariant (hs : Invariant s) (he : Enabled s (.restart p)) :
    Invariant (next cfg s (.restart p)) := by
  constructor
  · exact hs.led
  · intro q x b hst hb hna
    by_cases hq : q = p
    · subst hq
      simp [next] at hb
    · simp only [next, Function.update_of_ne hq] at hst hb
      exact hs.cached q x b hst hb hna
  · exact hs.distinct
  · exact hs.untouched
  · intro pass hp q hl x hx
    have hq : q ≠ p := fun hqp => he (hqp ▸ hl)
    simp only [next, Function.update_of_ne hq]
    exact hs.ahead_of_table pass hp q hl x hx
  · exact hs.kept

theorem other_invariant {db : Db} (hs : Invariant s) (hm : db.metrics = s.db.metrics) :
    Invariant (next cfg s (.other db)) := by
  have hcur : ∀ x, recoverCursor x db = recoverCursor x s.db := by
    intro x
    unfold recoverCursor
    rw [hm]
  constructor
  · exact hs.led
  · intro q x b hst hb hna
    exact (hcur x).trans (hs.cached q x b hst hb hna)
  · exact hs.distinct
  · intro pass hp x hx c b
    simp only [next, hm]
    exact hs.untouched pass hp x hx c b
  · exact hs.ahead_of_table
  · intro pass hp m hmem
    simp only [next, hm] at hmem
    exact hs.kept pass hp m hmem

theorem step_invariant (hcap : cfg.metricsMaxBackfillBuckets ≠ 0) (hs : Invariant s)
    (h : (current cfg).step s e t) : Invariant t := by
  obtain ⟨hc, he, rfl⟩ := h
  cases e with
  | acquire p => exact acquire_invariant hs he
  | beginPass sims => exact begin_invariant hs he
  | write now gauges =>
    simp only [next]
    split
    · rename_i p metrics sim rest advanced hl hp
      have hu : s.Uses p sim ⟨metrics, sim :: rest, advanced⟩ := ⟨hl, hp, rest, rfl⟩
      exact write_invariant hcap hs hu rfl (hc p sim _ hu)
    · exact hs
  | commit =>
    obtain ⟨pass, hp, -⟩ := Option.map_eq_some_iff.mp he
    exact commit_invariant hs hp
  | release => exact release_invariant hs
  | restart p => exact restart_invariant hs he
  | other db => exact other_invariant hs he

theorem initial_invariant (h : Initial s) : Invariant s := by
  obtain ⟨hcache, -, hp, -⟩ := h
  apply invariant_of_idle hp
  intro q x b _ hb
  simp [hcache] at hb

theorem current_invariant (hcap : cfg.metricsMaxBackfillBuckets ≠ 0)
    (h : (current cfg).Reachable s) : Invariant s :=
  h.invariant (fun _ => initial_invariant) fun _ _ _ _ hs he => step_invariant hcap hs he

theorem step_keeps_rows (hs : Invariant s) (h : (current cfg).step s e t) :
    ∀ m ∈ s.db.metrics, m ∈ t.db.metrics := by
  obtain ⟨-, he, rfl⟩ := h
  intro m hm
  cases e with
  | commit =>
    obtain ⟨pass, hp, -⟩ := Option.map_eq_some_iff.mp he
    simp only [next, hp]
    exact hs.kept pass hp m hm
  | other db =>
    have hmetrics : db.metrics = s.db.metrics := he
    simp only [next, hmetrics]
    exact hm
  | write now gauges =>
    simp only [next]
    split
    · exact hm
    · exact hm
  | release =>
    simp only [next]
    split
    · exact hm
    · exact hm
  | acquire _ | beginPass _ | restart _ => exact hm

/-- In a run without stale calls the cached cursor is the newest committed bucket whenever it is
used, each call writes only what the table lacks, and no committed row is written again. -/
theorem cursor_agrees (hcap : cfg.metricsMaxBackfillBuckets ≠ 0)
    (h : (current cfg).Reachable s) :
    (∀ p sim pass, s.Uses p sim pass → s.stale p sim = false →
      (∀ b ∈ s.cached p sim, recoverCursor sim s.db = some b) ∧
      usedCursor sim (s.cached p sim) (s.view pass) = recoverCursor sim s.db ∧
      ∀ now gauges c b, Present sim c b (written cfg sim now gauges (s.view pass)
        (usedCursor sim (s.cached p sim) (s.view pass))) → ¬ Present sim c b s.db.metrics) ∧
    ∀ t, (current cfg).Execution s t → ∀ m ∈ s.db.metrics, m ∈ t.db.metrics := by
  have hs := current_invariant hcap h
  constructor
  · intro p sim pass hu hst
    obtain ⟨hcached, hview, hused⟩ := uses_cursor hs hu hst
    refine ⟨hcached, hused, ?_⟩
    intro now gauges c b hw hp
    rw [hused, ← hview] at hw
    obtain ⟨m, hm, hk⟩ := List.mem_map.mp hp
    apply written_fresh hw
    exact List.mem_map.mpr ⟨m, hs.kept pass hu.2.1 m hm, hk⟩
  · intro t ht
    exact System.Execution.relates (R := fun s t => ∀ m ∈ s.db.metrics, m ∈ t.db.metrics)
      (fun _ _ hm => hm) (fun _ _ _ hab hbc m hm => hbc m (hab m hm))
      (fun s e t hr he => step_keeps_rows (current_invariant hcap hr) he) h ht

end Calls

section Takeovers

open DeliveryPipeline

def fresh : State := ⟨.seeded soleConsumer [], fun _ _ => none, none, none, fun _ _ => false⟩

theorem fresh_initial : Initial fresh := ⟨rfl, rfl, rfl, rfl⟩

def secondPass : State :=
  [Event.acquire 0, .beginPass [1], .write 10 [], .commit, .beginPass [1]].foldl (next shipped)
    fresh

theorem secondPass_reachable : (current shipped).Reachable secondPass := by
  have hstart : (current shipped).Reachable fresh := .initial fresh_initial
  have hlead := hstart.tail (e := Event.acquire 0) ⟨trivial, by decide, rfl⟩
  have hbegin := hlead.tail (e := Event.beginPass [1]) ⟨trivial, by decide, rfl⟩
  have hwrite := hbegin.tail (e := Event.write 10 []) ⟨fun _ _ _ _ => rfl, trivial, rfl⟩
  have hcommit := hwrite.tail (e := Event.commit) ⟨trivial, by decide +kernel, rfl⟩
  exact hcommit.tail (e := Event.beginPass [1]) ⟨trivial, by decide +kernel, rfl⟩

theorem cursor_agrees_second_pass : recoverCursor 1 secondPass.db = some 8 ∧
    ∀ t, (current shipped).Execution secondPass t → ∀ m ∈ secondPass.db.metrics,
      m ∈ t.db.metrics := by
  obtain ⟨hcursor, hkept⟩ := cursor_agrees (by decide) secondPass_reachable
  have huse : secondPass.Uses 0 1 ⟨secondPass.db.metrics, [1], []⟩ := ⟨rfl, rfl, [], rfl⟩
  exact ⟨(hcursor 0 1 _ huse (by decide +kernel)).1 8 (by decide +kernel), hkept⟩

/-- A pass over two simulations fails in the second one, and its process leads again. -/
def retriedPass : List Event :=
  [.acquire 0, .beginPass [1, 2], .write 10 [], .release, .acquire 0, .beginPass [1, 2]]

theorem rolled_back_cursor_used : ¬ ∀ s, (system shipped).Reachable s → ∀ p sim pass,
    s.Uses p sim pass → ∀ b ∈ s.cached p sim, recoverCursor sim s.db = some b := by
  intro h
  have hend : (runList Enabled (next shipped) fresh retriedPass).map (fun s =>
      (s.leader, s.pass.map Pass.ahead, s.cached 0 1, recoverCursor 1 s.db)) =
        some (some 0, some [1, 2], some 8, none) := by decide +kernel
  obtain ⟨s, hrun, hs⟩ := Option.map_eq_some_iff.mp hend
  simp only [Prod.mk.injEq] at hs
  obtain ⟨hl, hahead, hcached, hcur⟩ := hs
  obtain ⟨pass, hp, ha⟩ := Option.map_eq_some_iff.mp hahead
  have hr : (system shipped).Reachable s :=
    ⟨fresh, fresh_initial, runList_execution Initial _ _ hrun⟩
  have hb := h s hr 0 1 pass ⟨hl, hp, [2], ha⟩ 8 hcached
  rw [hcur] at hb
  cases hb

end Takeovers

end CursorAgreement
