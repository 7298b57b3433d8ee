import WebhookRecovery.PassStages

/-! The rows of one simulation. Every query of a pass reads the rows of its own simulation only, and
every write changes no others, updates by a bare delivery id included. -/
namespace SimulationSlices

open KeyedTables RecoverySchema InterleavedPrograms WorkerClaim LeaseReaper DeliveryPolicy
open DeliveryAdmission MetricsSeries ConductorPass PassStages

structure Slice where
  simulations : List Simulation
  consumers : List Consumer
  subscriptions : List Subscription
  policies : List DeliveryPolicy
  events : List Event
  deliveries : List Delivery
  attempts : List Attempt
  metrics : List MetricsSnapshot

def slice (σ : SimulationId) (db : Db) : Slice where
  simulations := db.simulations.filter fun x => x.id == σ
  consumers := db.cast.consumers.filter fun x => x.simulationId == σ
  subscriptions := db.cast.subscriptions.filter fun x => x.simulationId == σ
  policies := db.cast.policies.filter fun x => x.simulationId == σ
  events := db.events.rows.filter fun x => x.simulationId == σ
  deliveries := db.deliveries.rows.filter fun x => x.simulationId == σ
  attempts := db.attempts.rows.filter fun x => x.simulationId == σ
  metrics := db.metrics.filter fun x => x.simulationId == σ

/-- One row for a simulation, at a positive speed; what belongs to a row belongs to its
simulation. -/
structure Consistent (db : Db) : Prop where
  simulations : (db.simulations.map Simulation.id).Nodup
  speeds : ∀ x ∈ db.simulations, 0 < x.speedMultiplier
  deliveries : ∀ d ∈ db.deliveries.rows,
    ∃ c ∈ db.cast.consumers, c.id = d.consumerId ∧ c.simulationId = d.simulationId
  attempts : ∀ a ∈ db.attempts.rows,
    ∃ d ∈ db.deliveries.rows, d.id = a.deliveryId ∧ d.simulationId = a.simulationId

def restrict (keep : SimulationId → Bool) (db : Db) : Db where
  cast :=
    { consumers := db.cast.consumers.filter fun x => keep x.simulationId
      subscriptions := db.cast.subscriptions.filter fun x => keep x.simulationId
      policies := db.cast.policies.filter fun x => keep x.simulationId
      consumer_key := db.cast.consumer_key.sublist (List.filter_sublist.map _)
      subscription_key := db.cast.subscription_key.sublist (List.filter_sublist.map _)
      policy_key := db.cast.policy_key.sublist (List.filter_sublist.map _)
      knobs_positive := fun c hc => db.cast.knobs_positive c (List.mem_of_mem_filter hc)
      staleness_positive := fun p hp => db.cast.staleness_positive p (List.mem_of_mem_filter hp) }
  simulations := db.simulations.filter fun x => keep x.id
  events := db.events.filter fun x => keep x.simulationId
  deliveries := db.deliveries.filter fun x => keep x.simulationId
  attempts := db.attempts.filter fun x => keep x.simulationId
  metrics := db.metrics.filter fun x => keep x.simulationId

section Lists

variable {α κ β : Type} [DecidableEq κ] {l m : List α} {p q : α → Bool} {g : α → κ} {k : κ}

theorem filter_and_congr (h : l.filter p = m.filter p) :
    (l.filter fun x => p x && q x) = m.filter fun x => p x && q x := by
  have nested : ∀ l : List α, (l.filter fun x => p x && q x) = (l.filter p).filter q := by
    intro l
    rw [List.filter_filter]
    exact List.filter_congr fun x _ => Bool.and_comm _ _
  rw [nested, nested, h]

theorem countP_congr_of_filter (h : l.filter p = m.filter p) : l.countP p = m.countP p := by
  rw [List.countP_eq_length_filter, List.countP_eq_length_filter, h]

theorem filterMap_congr_of_filter {f : α → Option β} (hf : ∀ x, p x = false → f x = none)
    (h : l.filter p = m.filter p) : l.filterMap f = m.filterMap f := by
  have kept : ∀ l : List α, (l.filter p).filterMap f = l.filterMap f := by
    intro l
    rw [List.filterMap_filter]
    refine List.filterMap_congr fun x _ => ?_
    split
    · rfl
    · rename_i hx
      exact (hf x (by simpa using hx)).symm
  rw [← kept l, ← kept m, h]

/-- An update that keeps the group of a row is an update of the group. -/
theorem filter_map_group {f : α → α} (hf : ∀ x, g (f x) = g x) :
    ((l.map f).filter fun x => g x == k) = (l.filter fun x => g x == k).map f := by
  rw [List.filter_map]
  congr 1
  exact List.filter_congr fun x _ => by rw [Function.comp_apply, hf]

theorem filter_map_aside {f : α → α} (hf : ∀ x ∈ l, f x = x ∨ g x ≠ k ∧ g (f x) ≠ k) :
    ((l.map f).filter fun x => g x == k) = l.filter fun x => g x == k := by
  induction l with
  | nil => rfl
  | cons x l ih =>
    have ih := ih fun y hy => hf y (List.mem_cons_of_mem _ hy)
    rw [List.map_cons, List.filter_cons, List.filter_cons, ih]
    rcases hf x List.mem_cons_self with hx | ⟨hx, hfx⟩
    · rw [hx]
    · rw [if_neg (by simpa using hfx), if_neg (by simpa using hx)]

theorem filter_keep {keep : κ → Bool} (hk : keep k) :
    ((l.filter fun x => keep (g x)).filter fun x => g x == k) = l.filter fun x => g x == k := by
  rw [List.filter_filter]
  refine List.filter_congr fun x _ => ?_
  by_cases hx : g x = k
  · simp [hx, hk]
  · simp [hx]

end Lists

section Restrictions

variable {keep : SimulationId → Bool} {σ : SimulationId} {db : Db}

theorem slice_restrict (h : keep σ) : slice σ (restrict keep db) = slice σ db := by
  simp only [slice, restrict, Table.filter, Slice.mk.injEq]
  exact ⟨filter_keep (g := Simulation.id) h, filter_keep (g := Consumer.simulationId) h,
    filter_keep (g := Subscription.simulationId) h,
    filter_keep (g := RecoverySchema.DeliveryPolicy.simulationId) h,
    filter_keep (g := Event.simulationId) h, filter_keep (g := Delivery.simulationId) h,
    filter_keep (g := Attempt.simulationId) h, filter_keep (g := MetricsSnapshot.simulationId) h⟩

theorem Consistent.restrict (h : Consistent db) (keep : SimulationId → Bool) :
    Consistent (restrict keep db) := by
  refine ⟨h.simulations.sublist (List.filter_sublist.map _),
    fun x hx => h.speeds x (List.mem_of_mem_filter hx), fun d hd => ?_, fun a ha => ?_⟩
  · obtain ⟨hd, hk⟩ := List.mem_filter.mp hd
    obtain ⟨c, hc, hid, hsim⟩ := h.deliveries d hd
    exact ⟨c, List.mem_filter.mpr ⟨hc, hsim ▸ hk⟩, hid, hsim⟩
  · obtain ⟨ha, hk⟩ := List.mem_filter.mp ha
    obtain ⟨d, hd, hid, hsim⟩ := h.attempts a ha
    exact ⟨d, List.mem_filter.mpr ⟨hd, hsim ▸ hk⟩, hid, hsim⟩

end Restrictions

section Queries

variable {cfg : Settings} {σ : SimulationId} {s t : Db} {now since : ℚ}

theorem expiredLeases_congr (h : slice σ s = slice σ t) (locked : ℕ → Bool) :
    expiredLeases σ now locked s = expiredLeases σ now locked t :=
  filter_and_congr (filter_and_congr (filter_and_congr (congrArg Slice.deliveries h)))

theorem readGauges_congr (h : slice σ s = slice σ t) : readGauges σ s = readGauges σ t := by
  rw [readGauges, filter_and_congr (congrArg Slice.deliveries h), readGauges]

theorem recoverCursor_slice (h : slice σ s = slice σ t) :
    recoverCursor σ s = recoverCursor σ t := by
  have hm : s.metrics.filter _ = t.metrics.filter _ := congrArg Slice.metrics h
  rw [recoverCursor, hm, recoverCursor]

theorem consumerIds_congr (h : slice σ s = slice σ t) : consumerIds σ s = consumerIds σ t := by
  have hc : s.cast.consumers.filter _ = t.cast.consumers.filter _ := congrArg Slice.consumers h
  rw [consumerIds, hc, consumerIds]

theorem attemptsByBucket_congr (h : slice σ s = slice σ t) (bucketS windowFrom windowTo : ℚ) :
    attemptsByBucket σ bucketS windowFrom windowTo s =
      attemptsByBucket σ bucketS windowFrom windowTo t := by
  rw [attemptsByBucket, filter_and_congr (filter_and_congr (congrArg Slice.attempts h)),
    attemptsByBucket]

theorem terminalsByBucket_congr (h : slice σ s = slice σ t) (bucketS windowFrom windowTo : ℚ) :
    terminalsByBucket σ bucketS windowFrom windowTo s =
      terminalsByBucket σ bucketS windowFrom windowTo t := by
  refine congrArg groupCount (filterMap_congr_of_filter (fun d hd => ?_)
    (congrArg Slice.deliveries h))
  have hd : d.simulationId ≠ σ := by simpa using hd
  cases d.completedAt with
  | none => rfl
  | some x => exact if_neg fun hin => hd hin.1

theorem totalCap_congr (h : slice σ s = slice σ t) : totalCap σ s = totalCap σ t := by
  have hc : s.cast.consumers.filter _ = t.cast.consumers.filter _ := congrArg Slice.consumers h
  rw [totalCap, hc, totalCap]

theorem readyCount_congr (h : slice σ s = slice σ t) : readyCount σ s = readyCount σ t :=
  countP_congr_of_filter (filter_and_congr (congrArg Slice.deliveries h))

theorem inWindow_congr (h : slice σ s = slice σ t) :
    s.attempts.rows.filter (inWindow σ since) = t.attempts.rows.filter (inWindow σ since) :=
  filter_and_congr (congrArg Slice.attempts h)

theorem attemptsInWindow_congr (h : slice σ s = slice σ t) :
    attemptsInWindow cfg σ now s = attemptsInWindow cfg σ now t :=
  countP_congr_of_filter (inWindow_congr h)

theorem windowUsage_congr (h : slice σ s = slice σ t) :
    windowUsage cfg σ now s = windowUsage cfg σ now t := by
  rw [windowUsage, inWindow_congr h, windowUsage]

theorem loadPolicies_congr (h : slice σ s = slice σ t) : loadPolicies σ s = loadPolicies σ t := by
  funext c y
  have hp := filter_and_congr (q := fun p => p.eventType == y) (filter_and_congr
    (q := fun p => p.consumerId == c) (congrArg Slice.policies h))
  rw [loadPolicies, ← List.head?_filter, hp, List.head?_filter, loadPolicies]

theorem consumerDemand_congr (h : slice σ s = slice σ t) (hs : Consistent s) (ht : Consistent t) :
    consumerDemand σ now s = consumerDemand σ now t := by
  have hconsumers : s.cast.consumers.filter _ = t.cast.consumers.filter _ :=
    congrArg Slice.consumers h
  have own : ∀ {u : Db}, Consistent u → ∀ c ∈ u.cast.consumers.filter (fun c =>
      c.simulationId == σ), u.deliveries.rows.countP (fun d =>
        d.consumerId == c.id && d.state == .pending && dueAt now d.nextAttemptAt) =
      u.deliveries.rows.countP (fun d => d.simulationId == σ &&
        (d.consumerId == c.id && d.state == .pending && dueAt now d.nextAttemptAt)) := by
    intro u hu c hc
    obtain ⟨hc, hcs⟩ := List.mem_filter.mp hc
    refine List.countP_congr fun d hd => ?_
    rw [Bool.and_eq_true (d.simulationId == σ)]
    refine ⟨fun hq => ⟨?_, hq⟩, And.right⟩
    obtain ⟨c', hc', hid, hsim⟩ := hu.deliveries d hd
    simp only [Bool.and_eq_true, beq_iff_eq] at hq hcs
    have hsame : c' = c := List.inj_on_of_nodup_map u.cast.consumer_key hc' hc
      (hid.trans hq.1.1)
    rw [beq_iff_eq, ← hsim, hsame, hcs]
  rw [consumerDemand, consumerDemand, ← hconsumers]
  refine List.map_congr_left fun c hc => ?_
  have hc := (List.perm_insertionSort _ _).subset hc
  rw [own hs c hc, own ht c (hconsumers ▸ hc)]
  exact congrArg (Prod.mk c)
    (countP_congr_of_filter (filter_and_congr (congrArg Slice.deliveries h)))

theorem isDue_congr (h : slice σ s = slice σ t) :
    s.deliveries.rows.filter (isDue σ now) = t.deliveries.rows.filter (isDue σ now) :=
  filter_and_congr (filter_and_congr (congrArg Slice.deliveries h))

theorem fetchCandidates_congr (h : slice σ s = slice σ t) (scan : ScanOrder)
    (states : List ConsumerState) (allowances : ConsumerId → ℤ) (slots : ℤ) (fairDrain : Bool) :
    fetchCandidates cfg scan σ now states allowances slots fairDrain s =
      fetchCandidates cfg scan σ now states allowances slots fairDrain t := by
  have hdue : s.deliveries.rows.filter (isDue σ now) = t.deliveries.rows.filter (isDue σ now) :=
    isDue_congr h
  unfold fetchCandidates fairCandidates fifoCandidates
  simp only [filter_and_congr hdue, hdue]

theorem evaluate_congr (h : slice σ s = slice σ t) (candidates : List Candidate)
    (policies : PolicyMap) :
    evaluate σ candidates policies now s = evaluate σ candidates policies now t := by
  have hqueued : ∀ k, queuedOfKey σ k s = queuedOfKey σ k t := by
    intro k
    rw [queuedOfKey, filter_and_congr (filter_and_congr (congrArg Slice.deliveries h)), queuedOfKey]
  have hnewest : ∀ l, newestByKey σ l s = newestByKey σ l t := by
    intro l
    funext k
    rw [newestByKey, hqueued, newestByKey]
  rw [evaluate, hnewest, evaluate]

end Queries

section Writes

variable {cfg : Settings} {σ τ : SimulationId} {s t : Db} {now : ℚ} {i : PassInput}

theorem slice_reclaim (locked : ℕ → Bool) : slice σ (reclaimExpiredLeases cfg τ now locked s) =
    { slice σ s with
      deliveries := (slice σ s).deliveries.map (applyAll (fun x d => d.id == x.1)
        (fun x d => releaseLease (settleRow now x.2 d))
        (reclaimParams cfg now (expiredLeases τ now locked s)))
      attempts := (slice σ s).attempts.map fun a =>
        if a.deliveryId ∈ (expiredLeases τ now locked s).map Delivery.id ∧ a.isOpen then
          expireAttempt now a else a } := by
  have hd : (reclaimExpiredLeases cfg τ now locked s).deliveries.rows = _ :=
    Table.executemany_rows _ _ _ _ _
  have ha := reclaim_attempts cfg τ now locked s
  rw [slice]
  rw [hd, ha, filter_map_group (g := Delivery.simulationId), filter_map_group
    (g := Attempt.simulationId)]
  · rfl
  · intro a
    split <;> rfl
  · intro d
    refine applyAll_field (g := Delivery.simulationId) (fun x d => ?_) _ d
    cases x.2 <;> rfl

theorem slice_applyDrops (drops : List Drop) : slice σ (applyDrops drops now s) =
    { slice σ s with
      deliveries := (slice σ s).deliveries.map (applyAll (fun x d => d.id == x.deliveryId)
        (dropRow now) (byState drops)) } := by
  have hd : (applyDrops drops now s).deliveries.rows = s.deliveries.rows.map
      (applyAll (fun x d => d.id == x.deliveryId) (dropRow now) (byState drops)) :=
    Table.executemany_rows _ _ _ _ _
  rw [slice]
  rw [hd, filter_map_group (g := Delivery.simulationId)]
  · rfl
  · exact applyAll_field (f := dropRow now) (fun _ _ => rfl) _

theorem slice_markReady (ids : List ℕ) : slice σ (markReady ids now s) =
    { slice σ s with
      deliveries := (slice σ s).deliveries.map fun d =>
        if d.id ∈ ids then readyRow now d else d } := by
  rw [slice]
  rw [markReady_rows, filter_map_group (g := Delivery.simulationId)]
  · rfl
  · intro d
    split <;> rfl

theorem slice_retire : slice σ (retire τ now s) =
    { slice σ s with
      simulations := (slice σ s).simulations.map fun x =>
        if x.id = τ then retireRow now x else x } := by
  have hrows : (retire τ now s).simulations =
      s.simulations.map fun x => if x.id = τ then retireRow now x else x := rfl
  rw [slice]
  rw [hrows, filter_map_group (g := Simulation.id)]
  · rfl
  · intro x
    split <;> rfl

theorem upsertRow_filter (table : List MetricsSnapshot) (m : MetricsSnapshot) :
    ((upsertRow table m).filter fun x => x.simulationId == σ) =
      if m.simulationId = σ then upsertRow (table.filter fun x => x.simulationId == σ) m
      else table.filter fun x => x.simulationId == σ := by
  have key_sim : ∀ r, MetricsSnapshot.key r = MetricsSnapshot.key m →
      r.simulationId = m.simulationId := fun r hr => (Prod.mk.inj hr).1
  by_cases hm : m.simulationId = σ
  · rw [if_pos hm]
    have hany : ((table.filter fun x => x.simulationId == σ).any fun r =>
        MetricsSnapshot.key r == MetricsSnapshot.key m) =
          table.any fun r => MetricsSnapshot.key r == MetricsSnapshot.key m := by
      rw [List.any_filter]
      congr 1
      funext r
      by_cases hr : MetricsSnapshot.key r = MetricsSnapshot.key m
      · simp [hr, key_sim r hr, hm]
      · simp [hr]
    unfold upsertRow
    rw [hany]
    split
    · refine filter_map_group (g := MetricsSnapshot.simulationId) fun r => ?_
      split
      · rename_i hr
        exact (key_sim r (beq_iff_eq.mp hr)).symm
      · rfl
    · rw [List.filter_append, List.filter_cons_of_pos (by simpa using hm), List.filter_nil]
  · rw [if_neg hm]
    rw [upsertRow]
    split
    · refine filter_map_aside (g := MetricsSnapshot.simulationId) fun r _ => ?_
      split
      · rename_i hr
        have hr := key_sim r (beq_iff_eq.mp hr)
        exact Or.inr ⟨fun h => hm (hr.symm.trans h), hm⟩
      · exact Or.inl rfl
    · rw [List.filter_append, List.filter_cons_of_neg (by simpa using hm), List.filter_nil,
        List.append_nil]

theorem slice_upsert (rows : List MetricsSnapshot) (hr : ∀ m ∈ rows, m.simulationId = τ) :
    slice σ (upsert rows s) =
      { slice σ s with
        metrics := if τ = σ then rows.foldl upsertRow (slice σ s).metrics
          else (slice σ s).metrics } := by
  have all : ∀ table : List MetricsSnapshot,
      ((rows.foldl upsertRow table).filter fun x => x.simulationId == σ) =
        if τ = σ then rows.foldl upsertRow (table.filter fun x => x.simulationId == σ)
        else table.filter fun x => x.simulationId == σ := by
    induction rows with
    | nil => intro table; simp
    | cons m rows ih =>
      intro table
      rw [List.foldl_cons, ih fun m hm => hr m (List.mem_cons_of_mem _ hm), upsertRow_filter,
        hr m List.mem_cons_self]
      split <;> rfl
  exact congrArg (fun l => { slice σ s with metrics := l }) (all s.metrics)

end Writes

end SimulationSlices
