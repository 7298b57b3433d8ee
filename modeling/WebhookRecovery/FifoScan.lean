import WebhookRecovery.WorkConservation

/-! The fetch limit of the FIFO arm. Rationing over the head of the queue equals rationing over
all of it when the slots run out in the head, or nobody behind it has an allowance left. -/
namespace FifoScan

open KeyedTables RecoverySchema DeliveryPolicy MetricsSeries DeliveryAdmission AdmissionOutcome
open WeightedAllocation PolicyVerdicts AdmittedRows WorkConservation

section Prefix

variable {slots : ℤ} {allowances : ConsumerId → ℤ} {r : Rationing} {x : Candidate}
variable {l m : List Candidate}

def Refused (slots : ℤ) (allowances : ConsumerId → ℤ) (r : Rationing) (c : ConsumerId) : Prop :=
  slots ≤ r.admitted.length ∨ allowances c ≤ r.taken c

theorem rationStep_refused (h : Refused slots allowances r x.consumerId) :
    rationStep slots allowances r x = r := by
  rw [rationStep]
  rcases h with h | h
  · rw [if_pos h]
  · rw [if_pos h, ite_self]

theorem rationStep_taken (h : ¬ Refused slots allowances r x.consumerId) :
    (rationStep slots allowances r x).admitted = r.admitted ++ [x.id] := by
  rw [Refused, not_or] at h
  rw [rationStep, if_neg h.1, if_neg h.2]

theorem rationStep_extends (r : Rationing) (x : Candidate) :
    r.admitted <+: (rationStep slots allowances r x).admitted := by
  by_cases h : Refused slots allowances r x.consumerId
  · rw [rationStep_refused h]
  · rw [rationStep_taken h]
    exact List.prefix_append _ _

theorem foldl_extends (slots : ℤ) (allowances : ConsumerId → ℤ) (r : Rationing)
    (l : List Candidate) : r.admitted <+: (l.foldl (rationStep slots allowances) r).admitted := by
  induction l generalizing r with
  | nil => exact List.prefix_rfl
  | cons x l ih => exact (rationStep_extends r x).trans (ih _)

/-- Going on adds nothing exactly when every candidate that comes is refused. -/
theorem foldl_admitted_iff :
    (l.foldl (rationStep slots allowances) r).admitted = r.admitted ↔
      ∀ x ∈ l, Refused slots allowances r x.consumerId := by
  induction l generalizing r with
  | nil => simp
  | cons x l ih =>
    rw [List.foldl_cons, List.forall_mem_cons]
    by_cases h : Refused slots allowances r x.consumerId
    · rw [rationStep_refused h, ih]
      exact (and_iff_right h).symm
    · refine iff_of_false (fun heq => ?_) fun hall => h hall.1
      have hle := (foldl_extends slots allowances (rationStep slots allowances r x) l).length_le
      rw [heq, rationStep_taken h, List.length_append, List.length_singleton] at hle
      omega

theorem ration_append_iff :
    ration slots allowances l = ration slots allowances (l ++ m) ↔
      ∀ x ∈ m, Refused slots allowances (l.foldl (rationStep slots allowances) {})
        x.consumerId := by
  rw [eq_comm, ration, ration, List.foldl_append, foldl_admitted_iff]

end Prefix

section Definitions

variable (cfg : Settings) (scan : ScanOrder) (simulationId : SimulationId) (now : ℚ)
variable (budget : Budget) (gauges : Gauges) (policies : PolicyMap) (db : Db)

/-- What a consumer may take of the shared pool. -/
def poolShare (c : ConsumerId) : ℕ :=
  (allowancesAt cfg simulationId now budget gauges false db c).toNat

def withinLimit (c : ConsumerId) : ℕ :=
  held c (((dueQueue scan simulationId now db).take
    (budget.slots.toNat * cfg.admissionOverfetch)).filter
      (admissible simulationId policies now db))

/-- Policy on a whole queue, and greedy admission within the pool shares. -/
def fullScan (queue : List Delivery) : List ℕ :=
  ration budget.slots (allowancesAt cfg simulationId now budget gauges false db)
    (evaluate simulationId (queue.map candidateOf) policies now db).admitted

/-- The queue of a moment in which no two deliveries are due at one instant. -/
def DistinctlyDue : Prop :=
  ((db.deliveries.rows.filter (isDue simulationId now)).map Delivery.nextAttemptAt).Nodup

def LimitHarmless : Prop :=
  ∀ queue : List Delivery, queue.Perm (db.deliveries.rows.filter (isDue simulationId now)) →
    (queue.Pairwise fun a b => nullsLast a.nextAttemptAt b.nextAttemptAt) →
    (selectionOf cfg scan simulationId now budget gauges policies false db).admitted =
      fullScan cfg simulationId now budget gauges policies db queue

/-- The rows within the limit use up the slots, or whoever has admissible rows behind it can
take its whole share within it. -/
def HeadSuffices : Prop :=
  let states := statesOf cfg simulationId now gauges db
  let share := poolShare cfg simulationId now budget gauges db
  let seen := withinLimit cfg scan simulationId now budget policies db
  budget.slots ≤ (states.map fun s => ((min (share s.id) (seen s.id) : ℕ) : ℤ)).sum ∨
    ∀ s ∈ states,
      seen s.id = admissibleDue scan simulationId now policies db s.id ∨ share s.id ≤ seen s.id

end Definitions

section Scan

variable {cfg : Settings} {scan : ScanOrder} {simulationId : SimulationId} {now : ℚ}
variable {budget : Budget} {gauges : Gauges} {policies : PolicyMap} {db : Db}
variable {c : ConsumerId} {slots : ℤ} {allowances : ConsumerId → ℤ} {rows behind : List Delivery}

theorem queue_unique (hd : DistinctlyDue simulationId now db) {queue : List Delivery}
    (hp : queue.Perm (db.deliveries.rows.filter (isDue simulationId now)))
    (hs : queue.Pairwise fun a b => nullsLast a.nextAttemptAt b.nextAttemptAt) :
    queue = dueQueue scan simulationId now db := by
  refine List.Perm.eq_of_pairwise (fun a b ha hb hab hba => ?_) hs (scan.sortBy_sorted _ _)
    (hp.trans (scan.sortBy_perm _ _).symm)
  exact List.inj_on_of_nodup_map hd (hp.mem_iff.mp ha) ((scan.sortBy_perm _ _).mem_iff.mp hb)
    (nullsLast_antisymm hab hba)

theorem admissibleDue_eq : admissibleDue scan simulationId now policies db c =
    held c ((dueQueue scan simulationId now db).filter
      (admissible simulationId policies now db)) := by
  rw [admissibleDue, queueOf, (scan.sortBy_perm _ _).countP_eq, List.countP_filter, held, dueQueue,
    List.countP_filter, (scan.sortBy_perm _ _).countP_eq, List.countP_filter]
  refine List.countP_congr fun d _ => ?_
  simp only [Bool.and_eq_true]
  tauto

theorem held_append (c : ConsumerId) (rows behind : List Delivery) :
    held c (rows ++ behind) = held c rows + held c behind := List.countP_append

theorem held_eq_zero : held c rows = 0 ↔ ∀ d ∈ rows, d.consumerId ≠ c := by
  rw [held, List.countP_eq_zero]
  simp only [beq_iff_eq]

theorem poolShare_unknown
    (h : c ∉ (statesOf cfg simulationId now gauges db).map ConsumerState.id) :
    poolShare cfg simulationId now budget gauges db c = 0 := by
  rw [poolShare, allowancesAt, allowancesOf_unknown h, Int.toNat_zero]

theorem chosen_known {chosen : List Delivery}
    (h : Admitted budget.slots (allowancesAt cfg simulationId now budget gauges false db) rows
      chosen) :
    ∀ d ∈ chosen, d.consumerId ∈ (statesOf cfg simulationId now gauges db).map
      ConsumerState.id := by
  intro d hd
  by_contra hn
  have hshare := h.share d.consumerId
  rw [allowancesAt, allowancesOf_unknown hn, max_self] at hshare
  exact held_eq_zero.mp (by omega) d hd rfl

theorem length_eq_sum_states {chosen : List Delivery}
    (h : Admitted budget.slots (allowancesAt cfg simulationId now budget gauges false db) rows
      chosen) :
    (chosen.length : ℤ) = ((statesOf cfg simulationId now gauges db).map fun s =>
      (held s.id chosen : ℤ)).sum := by
  have hid : ((statesOf cfg simulationId now gauges db).map ConsumerState.id).Nodup :=
    statesOf_nodup
  rw [length_eq_sum_held hid (chosen_known h), sum_ids hid]

theorem length_le_shares {chosen : List Delivery}
    (h : Admitted budget.slots (allowancesAt cfg simulationId now budget gauges false db) rows
      chosen) :
    (chosen.length : ℤ) ≤ ((statesOf cfg simulationId now gauges db).map fun s =>
      ((min (poolShare cfg simulationId now budget gauges db s.id) (held s.id rows) : ℕ) :
        ℤ)).sum := by
  rw [length_eq_sum_states h]
  refine List.sum_le_sum fun s _ => ?_
  have hshare := h.share s.id
  have hseen : held s.id chosen ≤ held s.id rows := h.sublist.countP_le
  rw [poolShare]
  omega

/-- Those that have had their share in the head have it all, whoever they are. -/
theorem share_le_of_covered {d : Delivery} (hd : d ∈ behind)
    (hcovered : ∀ s ∈ statesOf cfg simulationId now gauges db, held s.id behind = 0 ∨
      poolShare cfg simulationId now budget gauges db s.id ≤ held s.id rows) :
    poolShare cfg simulationId now budget gauges db d.consumerId ≤ held d.consumerId rows := by
  by_cases hk : d.consumerId ∈ (statesOf cfg simulationId now gauges db).map ConsumerState.id
  · obtain ⟨s, hs, hsd⟩ := List.mem_map.mp hk
    rw [← hsd]
    exact (hcovered s hs).resolve_left fun h0 => held_eq_zero.mp h0 d hd hsd.symm
  · rw [poolShare_unknown hk]
    exact Nat.zero_le _

/-- Whether the rows behind a head would be refused can be read off the counts in the head. -/
theorem refused_behind_iff :
    (∀ x ∈ behind.map candidateOf, Refused budget.slots
        (allowancesAt cfg simulationId now budget gauges false db)
        ((rows.map candidateOf).foldl (rationStep budget.slots
          (allowancesAt cfg simulationId now budget gauges false db)) {}) x.consumerId) ↔
      budget.slots ≤ ((statesOf cfg simulationId now gauges db).map fun s =>
        ((min (poolShare cfg simulationId now budget gauges db s.id) (held s.id rows) : ℕ) :
          ℤ)).sum ∨
      ∀ s ∈ statesOf cfg simulationId now gauges db, held s.id behind = 0 ∨
        poolShare cfg simulationId now budget gauges db s.id ≤ held s.id rows := by
  obtain ⟨chosen, h, heq, htaken⟩ := ration_rows budget.slots
    (allowancesAt cfg simulationId now budget gauges false db) rows
  rw [ration] at heq
  simp only [Refused, heq, List.length_map, htaken, List.forall_mem_map]
  by_cases hfull : budget.slots ≤ chosen.length
  · exact iff_of_true (fun _ _ => Or.inl hfull) (Or.inl (hfull.trans (length_le_shares h)))
  · have hgreedy := h.greedy.resolve_left hfull
    have hsum : (chosen.length : ℤ) = ((statesOf cfg simulationId now gauges db).map fun s =>
        ((min (poolShare cfg simulationId now budget gauges db s.id) (held s.id rows) : ℕ) :
          ℤ)).sum := by
      rw [length_eq_sum_states h]
      exact congrArg List.sum (List.map_congr_left fun s _ => by rw [hgreedy s.id]; rfl)
    rw [← hsum, or_iff_right hfull]
    simp only [or_iff_right hfull, candidateOf]
    constructor
    · intro hrefused s _
      rcases Nat.eq_zero_or_pos (held s.id behind) with h0 | hpos
      · exact Or.inl h0
      · obtain ⟨d, hd, hc⟩ := List.countP_pos_iff.mp hpos
        have hle := hrefused d hd
        rw [beq_iff_eq.mp hc, hgreedy] at hle
        rw [poolShare]
        omega
    · intro hcovered d hd
      have hle := share_le_of_covered hd hcovered
      rw [poolShare] at hle
      rw [hgreedy]
      omega

end Scan

/-- At distinct due instants the limit is harmless exactly when the head of the queue suffices. -/
theorem fetch_limit_iff (cfg : Settings) (scan : ScanOrder) (simulationId : SimulationId)
    (now : ℚ) (budget : Budget) (gauges : Gauges) (policies : PolicyMap) (db : Db)
    (hd : DistinctlyDue simulationId now db) :
    LimitHarmless cfg scan simulationId now budget gauges policies db ↔
      HeadSuffices cfg scan simulationId now budget gauges policies db := by
  have hone : LimitHarmless cfg scan simulationId now budget gauges policies db ↔
      (selectionOf cfg scan simulationId now budget gauges policies false db).admitted =
        fullScan cfg simulationId now budget gauges policies db
          (dueQueue scan simulationId now db) := by
    constructor
    · intro h
      exact h _ (scan.sortBy_perm _ _) (scan.sortBy_sorted _ _)
    · intro h queue hp hs
      rw [h, ← queue_unique hd hp hs]
  rw [hone, selectionOf_admitted, fetchedAt_rows, evaluate_rows, fullScan, evaluate_rows]
  have hsplit : (dueQueue scan simulationId now db).filter
      (admissible simulationId policies now db) =
      ((dueQueue scan simulationId now db).take
        (budget.slots.toNat * cfg.admissionOverfetch)).filter
          (admissible simulationId policies now db) ++
        ((dueQueue scan simulationId now db).drop
          (budget.slots.toNat * cfg.admissionOverfetch)).filter
            (admissible simulationId policies now db) := by
    rw [← List.filter_append, List.take_append_drop]
  rw [hsplit, List.map_append]
  refine ration_append_iff.trans (refused_behind_iff.trans (or_congr Iff.rfl ?_))
  refine forall₂_congr fun s _ => or_congr ?_ Iff.rfl
  rw [admissibleDue_eq, hsplit, held_append, withinLimit]
  omega

theorem fetch_limit_iff_oneStale : LimitHarmless shipped .physical 1 100 ⟨2, 2⟩
    (readGauges 1 oneStale) (loadPolicies 1 oneStale) oneStale :=
  (fetch_limit_iff shipped .physical 1 100 ⟨2, 2⟩ (readGauges 1 oneStale)
    (loadPolicies 1 oneStale) oneStale (by rw [DistinctlyDue]; decide +kernel)).mpr
      (Or.inl (by decide +kernel))

def oneCapped : Cast where
  consumers := [⟨1, 1, 1, 10, 1 / 5, 0, 0, 0, false⟩, ⟨2, 1, 1, 10, 10, 0, 0, 0, false⟩]
  subscriptions := [⟨1, 1, "usage"⟩, ⟨1, 2, "usage"⟩]
  policies := [⟨1, 2, "usage", none, .none⟩]
  consumer_key := by decide
  subscription_key := by decide
  policy_key := by decide
  knobs_positive := by decide +kernel
  staleness_positive := by decide +kernel

def usage (id : ℕ) (consumerId : ConsumerId) : Delivery where
  id := id
  simulationId := 1
  eventId := id
  consumerId := consumerId
  eventType := "usage"
  entityKey := "a"
  nextAttemptAt := some id
  createdAt := id

def cappedHead : Db :=
  { Db.seeded oneCapped [] with
    deliveries :=
      ⟨{ usage 1 1 with state := .delivered, completedAt := some 99 } ::
        ((List.range 8).map fun n => usage (n + 2) 1) ++ [usage 10 2], 11, by decide, by decide⟩
    attempts :=
      ⟨[{ id := 1, simulationId := 1, deliveryId := 1, consumerId := 1, workerId := 1,
          startedAt := 98, finishedAt := some 99, outcome := some .ok }], 2, by decide, by decide⟩ }

/-- The rows of a capped consumer keep the delivery of another out of the fetch. -/
theorem capped_head_blocks : ¬ ∀ (cfg : Settings) (scan : ScanOrder)
    (simulationId : SimulationId) (now : ℚ) (budget : Budget) (gauges : Gauges)
    (policies : PolicyMap) (db : Db), DistinctlyDue simulationId now db → 0 < budget.slots →
    LimitHarmless cfg scan simulationId now budget gauges policies db := by
  intro h
  have hd : DistinctlyDue 1 100 cappedHead := by
    rw [DistinctlyDue]
    decide +kernel
  have hall := h shipped .physical 1 100 ⟨1, 1⟩ (readGauges 1 cappedHead)
    (loadPolicies 1 cappedHead) cappedHead hd (by decide)
    (dueQueue .physical 1 100 cappedHead) (ScanOrder.sortBy_perm _ _ _)
    (ScanOrder.sortBy_sorted _ _ _)
  have hnone : (selectionOf shipped .physical 1 100 ⟨1, 1⟩ (readGauges 1 cappedHead)
      (loadPolicies 1 cappedHead) false cappedHead).admitted = [] := by decide +kernel
  have hten : fullScan shipped 1 100 ⟨1, 1⟩ (readGauges 1 cappedHead)
      (loadPolicies 1 cappedHead) cappedHead (dueQueue .physical 1 100 cappedHead) = [10] := by
    decide +kernel
  rw [hnone, hten] at hall
  cases hall

end FifoScan
