import WebhookRecovery.DeliveryPipeline

/-! What the rate ceilings count. An attempt that started in a window and a delivery that is
ready to be attempted are one unit each: a claim turns the second into the first, so nobody
but an admission increases their sum. -/
namespace QueueUsage

open KeyedTables RecoverySchema WorkerClaim LeaseReaper EventIngest MetricsSeries
open DeliveryAdmission

/-- The rows a count is over, by their simulation and consumer. -/
abbrev Scope := SimulationId → ConsumerId → Bool

def ofSimulation (simulationId : SimulationId) : Scope := fun s _ => s == simulationId

def ofConsumer (simulationId : SimulationId) (c : ConsumerId) : Scope :=
  fun s k => s == simulationId && k == c

def readyIn (q : Scope) (db : Db) : ℕ :=
  db.deliveries.rows.countP fun d => q d.simulationId d.consumerId && d.state == .ready

def startedIn (q : Scope) (since : ℚ) (db : Db) : ℕ :=
  db.attempts.rows.countP fun a => q a.simulationId a.consumerId && decide (since ≤ a.startedAt)

def usage (q : Scope) (since : ℚ) (db : Db) : ℕ := startedIn q since db + readyIn q db

theorem readyCount_eq (simulationId : SimulationId) (db : Db) :
    readyCount simulationId db = readyIn (ofSimulation simulationId) db := rfl

theorem attemptsInWindow_eq (cfg : Settings) (simulationId : SimulationId) (now : ℚ) (db : Db) :
    attemptsInWindow cfg simulationId now db =
      startedIn (ofSimulation simulationId) (now - cfg.fairnessWindowVirtualS) db := rfl

theorem countOf_windowUsage (cfg : Settings) (simulationId : SimulationId) (now : ℚ) (db : Db)
    (c : ConsumerId) : countOf (windowUsage cfg simulationId now db) c =
      startedIn (ofConsumer simulationId c) (now - cfg.fairnessWindowVirtualS) db := by
  rw [windowUsage, countOf_groupCount_map]
  refine List.countP_congr fun a _ => ?_
  simp only [inWindow, ofConsumer, Bool.and_eq_true, decide_eq_true_eq, beq_iff_eq]
  tauto

theorem countOf_gauge {st : DeliveryState} (ha : st.active) (simulationId : SimulationId) (db : Db)
    (c : ConsumerId) : countOf (readGauges simulationId db) (c, st) =
      db.deliveries.rows.countP fun d =>
        ofConsumer simulationId c d.simulationId d.consumerId && d.state == st := by
  rw [readGauges, countOf_groupCount_map]
  refine List.countP_congr fun d _ => ?_
  simp only [ofConsumer, Bool.and_eq_true, decide_eq_true_eq, beq_iff_eq, Prod.mk.injEq]
  constructor
  · rintro ⟨⟨hi, _⟩, hc, hs⟩
    exact ⟨⟨hi, hc⟩, hs⟩
  · rintro ⟨⟨hi, hc⟩, hs⟩
    exact ⟨⟨hi, hs ▸ ha⟩, hc, hs⟩

theorem countOf_readGauges (simulationId : SimulationId) (db : Db) (c : ConsumerId) :
    countOf (readGauges simulationId db) (c, .ready) = readyIn (ofConsumer simulationId c) db :=
  countOf_gauge rfl simulationId db c

theorem startedIn_anti (q : Scope) {since since' : ℚ} (h : since ≤ since') (db : Db) :
    startedIn q since' db ≤ startedIn q since db := by
  refine List.countP_mono_left fun a _ ha => ?_
  simp only [Bool.and_eq_true, decide_eq_true_eq] at ha ⊢
  exact ⟨ha.1, h.trans ha.2⟩

theorem usage_anti (q : Scope) {since since' : ℚ} (h : since ≤ since') (db : Db) :
    usage q since' db ≤ usage q since db :=
  Nat.add_le_add_right (startedIn_anti q h db) _

/-- What everything but a drop and an admission does to the queue. -/
structure Evolves (s t : Db) : Prop where
  cast : t.cast = s.cast
  pending : ∀ d ∈ s.deliveries.rows, d.state = .pending → d ∈ t.deliveries.rows
  ready : ∀ q, readyIn q t ≤ readyIn q s
  usage : ∀ q since, usage q since t ≤ usage q since s

theorem Evolves.refl (s : Db) : Evolves s s :=
  ⟨rfl, fun _ h _ => h, fun _ => le_rfl, fun _ _ => le_rfl⟩

theorem Evolves.trans {s t u : Db} (h : Evolves s t) (k : Evolves t u) : Evolves s u where
  cast := k.cast.trans h.cast
  pending d hd hp := k.pending d (h.pending d hd hp) hp
  ready q := (k.ready q).trans (h.ready q)
  usage q since := (k.usage q since).trans (h.usage q since)

theorem readyIn_map {s t : Db} {f : Delivery → Delivery} (q : Scope)
    (hf : t.deliveries.rows = s.deliveries.rows.map f)
    (h : ∀ d ∈ s.deliveries.rows, (f d).state = .ready →
      d.state = .ready ∧ (f d).simulationId = d.simulationId ∧ (f d).consumerId = d.consumerId) :
    readyIn q t ≤ readyIn q s := by
  rw [readyIn, hf, List.countP_map]
  refine List.countP_mono_left fun d hd hp => ?_
  simp only [Function.comp_apply, Bool.and_eq_true, beq_iff_eq] at hp ⊢
  obtain ⟨hs, hsim, hcon⟩ := h d hd hp.2
  rw [hsim, hcon] at hp
  exact ⟨hp.1, hs⟩

theorem startedIn_map {s t : Db} {f : Attempt → Attempt} (q : Scope) (since : ℚ)
    (hf : t.attempts.rows = s.attempts.rows.map f)
    (h : ∀ a, (f a).simulationId = a.simulationId ∧ (f a).consumerId = a.consumerId ∧
      (f a).startedAt = a.startedAt) : startedIn q since t = startedIn q since s := by
  rw [startedIn, hf, List.countP_map]
  refine List.countP_congr fun a _ => ?_
  obtain ⟨hsim, hcon, hat⟩ := h a
  simp only [Function.comp_apply, hsim, hcon, hat]

/-- The rule for updates: rows keep their owner, attempts their start, and nothing that was
not ready becomes ready. -/
theorem evolves_of_maps {s t : Db} {f : Delivery → Delivery} {g : Attempt → Attempt}
    (hc : t.cast = s.cast) (hf : t.deliveries.rows = s.deliveries.rows.map f)
    (hg : t.attempts.rows = s.attempts.rows.map g)
    (pending : ∀ d ∈ s.deliveries.rows, d.state = .pending → f d = d)
    (ready : ∀ d ∈ s.deliveries.rows, (f d).state = .ready →
      d.state = .ready ∧ (f d).simulationId = d.simulationId ∧ (f d).consumerId = d.consumerId)
    (started : ∀ a, (g a).simulationId = a.simulationId ∧ (g a).consumerId = a.consumerId ∧
      (g a).startedAt = a.startedAt) : Evolves s t where
  cast := hc
  pending d hd hp := by
    rw [hf]
    exact List.mem_map.mpr ⟨d, hd, pending d hd hp⟩
  ready q := readyIn_map q hf ready
  usage q since := Nat.add_le_add (startedIn_map q since hg started).le (readyIn_map q hf ready)

theorem ingest_evolves (simulationId : SimulationId) (now : ℚ) (specs : List EventSpec) (db : Db) :
    Evolves db (ingestEvents simulationId now specs db) := by
  have hready : ∀ q, readyIn q (ingestEvents simulationId now specs db) = readyIn q db := by
    intro q
    rw [readyIn, ingestEvents_deliveries, List.countP_append, readyIn]
    refine Nat.add_eq_left.mpr (List.countP_eq_zero.mpr fun d hd => ?_)
    obtain ⟨x, _, rfl⟩ := List.mem_map.mp hd
    simp [deliveryRow]
  exact ⟨rfl, fun d hd _ => List.mem_append_left _ hd, fun q => (hready q).le,
    fun q since => Nat.add_le_add_left (hready q).le _⟩

theorem live_le_ready (scan : ScanOrder) (locked : ℕ → Bool) (simulationId : SimulationId)
    (now : ℚ) (limit : ℕ) (db : Db) (q : Scope) :
    ((liveRows scan locked simulationId now limit db).countP fun r =>
        q simulationId r.delivery.consumerId) ≤
      db.deliveries.rows.countP fun d => (q d.simulationId d.consumerId && d.state == .ready) &&
        decide (d ∈ (liveRows scan locked simulationId now limit db).map ClaimRow.delivery) := by
  set live := liveRows scan locked simulationId now limit db with hlive
  set p : Delivery → Bool := fun d => q simulationId d.consumerId with hp
  have hcount : (live.countP fun r => q simulationId r.delivery.consumerId) =
      ((live.map ClaimRow.delivery).filter p).length := by
    rw [← List.countP_eq_length_filter, List.countP_map]
    rfl
  rw [hcount, List.countP_eq_length_filter]
  have hn : ((live.map ClaimRow.delivery).filter p).Nodup :=
    (liveRows_nodup scan locked simulationId now limit db).filter p
  refine (List.subperm_of_subset hn fun d hd => ?_).length_le
  obtain ⟨hd, hq⟩ := List.mem_filter.mp hd
  obtain ⟨r, hr, rfl⟩ := List.mem_map.mp hd
  obtain ⟨hrow, hsim, hstate⟩ := mem_liveRows hr
  refine List.mem_filter.mpr ⟨hrow, ?_⟩
  simp only [Bool.and_eq_true, beq_iff_eq, decide_eq_true_eq, hsim, hstate]
  exact ⟨⟨hq, trivial⟩, hd⟩

section Claim

variable (cfg : Settings) (scan : ScanOrder) (locked : ℕ → Bool) (simulationId : SimulationId)
  (workerId : WorkerId) (now : ℚ) (limit : ℕ) (db : Db)

theorem ready_after_claim (q : SimulationId → ConsumerId → Bool) :
    readyIn q (claimBatch cfg scan locked simulationId workerId now limit db).1 ≤
      db.deliveries.rows.countP fun d => (q d.simulationId d.consumerId && d.state == .ready) &&
        !decide (d ∈ (liveRows scan locked simulationId now limit db).map ClaimRow.delivery) := by
  obtain ⟨f, hf, hrow⟩ := claimBatch_rows cfg scan locked simulationId workerId now limit db
  rw [readyIn, hf, List.countP_map]
  refine List.countP_mono_left fun d hd hp => ?_
  simp only [Function.comp_apply, Bool.and_eq_true, beq_iff_eq] at hp
  rcases hrow d hd with ⟨_, he⟩ | ⟨hm, he | ⟨_, reason, he⟩⟩
  · rw [he] at hp
    cases hp.2
  · rw [he] at hp
    simp only [Bool.and_eq_true, beq_iff_eq, Bool.not_eq_true', decide_eq_false_iff_not]
    exact ⟨hp, hm⟩
  · rw [he] at hp
    cases hp.2

theorem started_after_claim (q : SimulationId → ConsumerId → Bool) (since : ℚ) :
    startedIn q since (claimBatch cfg scan locked simulationId workerId now limit db).1 ≤
      startedIn q since db + (liveRows scan locked simulationId now limit db).countP fun r =>
        q simulationId r.delivery.consumerId := by
  rw [startedIn, claimBatch_attempts, List.countP_append, List.countP_map]
  refine Nat.add_le_add_left ?_ _
  have hfst : ((liveRows scan locked simulationId now limit db).zipIdx db.attempts.next).map
      Prod.fst = liveRows scan locked simulationId now limit db := List.zipIdx_map_fst _ _
  conv_rhs => rw [← hfst, List.countP_map]
  refine List.countP_mono_left fun x _ hx => ?_
  simp only [Function.comp_apply, Bool.and_eq_true, attemptRow] at hx ⊢
  exact hx.1

theorem claim_evolves :
    Evolves db (claimBatch cfg scan locked simulationId workerId now limit db).1 := by
  obtain ⟨f, hf, hrow⟩ := claimBatch_rows cfg scan locked simulationId workerId now limit db
  have hready := ready_after_claim cfg scan locked simulationId workerId now limit db
  have hsplit : ∀ q, readyIn q db = _ := fun q => countP_split _
    (fun d => decide (d ∈ (liveRows scan locked simulationId now limit db).map ClaimRow.delivery))
    db.deliveries.rows
  refine ⟨rfl, fun d hd hp => ?_, fun q => ?_, fun q since => ?_⟩
  · rw [hf]
    refine List.mem_map.mpr ⟨d, hd, ?_⟩
    rcases hrow d hd with ⟨hm, _⟩ | ⟨_, he | ⟨hr, _⟩⟩
    · obtain ⟨r, hr, rfl⟩ := List.mem_map.mp hm
      rw [(mem_liveRows hr).2.2] at hp
      cases hp
    · exact he
    · rw [hr] at hp
      cases hp
  · have := hready q
    have := hsplit q
    omega
  · have h₁ := hready q
    have h₂ := started_after_claim cfg scan locked simulationId workerId now limit db q since
    have h₃ := hsplit q
    have h₄ := live_le_ready scan locked simulationId now limit db q
    unfold usage
    omega

end Claim

theorem complete_evolves {cfg : Settings} {workerId : WorkerId} {completions : List Completion}
    {now : ℚ} {db : Db} (hd : (completions.map fun c => c.claimed.request.deliveryId).Nodup)
    (ha : (completions.map fun c => c.claimed.attemptId).Nodup) :
    Evolves db (completeBatch cfg workerId completions now db) := by
  obtain ⟨f, hf, hrow⟩ := completeBatch_rows cfg workerId now db hd
  obtain ⟨g, hg, hatt⟩ := closeAttempts_rows now db.attempts ha
  have hcases : ∀ d, f d = d ∨ held workerId d ∧ ∃ s, f d = settleRow now s d := by
    intro d
    by_cases hm : ∃ c ∈ completions, c.claimed.request.deliveryId = d.id
    · obtain ⟨c, hc, hk⟩ := hm
      have h := (hrow d).2 c hc hk
      split at h
      · rename_i hheld
        exact Or.inr ⟨hheld, _, h⟩
      · exact Or.inl h
    · push Not at hm
      exact Or.inl ((hrow d).1 hm)
  refine evolves_of_maps rfl hf hg (fun d _ hp => ?_) (fun d _ hr => ?_) fun a => ?_
  · rcases hcases d with h | ⟨hheld, _⟩
    · exact h
    · simp [held, hp] at hheld
  · rcases hcases d with h | ⟨_, s, h⟩
    · rw [h] at hr ⊢
      exact ⟨hr, rfl, rfl⟩
    · rw [h] at hr
      exact absurd hr (settleRow_settled now s d).1
  · by_cases hm : ∃ c ∈ completions, c.claimed.attemptId = a.id
    · obtain ⟨c, hc, hk⟩ := hm
      rw [(hatt a).2 c hc hk]
      split <;> exact ⟨rfl, rfl, rfl⟩
    · push Not at hm
      rw [(hatt a).1 hm]
      exact ⟨rfl, rfl, rfl⟩

theorem reclaim_evolves (cfg : Settings) (simulationId : SimulationId) (now : ℚ)
    (locked : ℕ → Bool) (db : Db) :
    Evolves db (reclaimExpiredLeases cfg simulationId now locked db) := by
  obtain ⟨f, hf, hrow⟩ := reclaim_rows cfg simulationId now locked db
  refine evolves_of_maps rfl hf (reclaim_attempts cfg simulationId now locked db)
    (fun d hd hp => ?_) (fun d hd hr => ?_) fun a => ?_
  · rcases hrow d hd with ⟨hm, _⟩ | ⟨_, h⟩
    · rw [(mem_expiredLeases hm).2.2.1] at hp
      cases hp
    · exact h
  · rcases hrow d hd with ⟨_, h⟩ | ⟨_, h⟩
    · rw [h] at hr
      exact absurd hr (settleRow_settled now _ d).1
    · rw [h] at hr ⊢
      exact ⟨hr, rfl, rfl⟩
  · split <;> exact ⟨rfl, rfl, rfl⟩

end QueueUsage
