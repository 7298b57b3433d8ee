import WebhookRecovery.AdmittedRows

/-! Work conservation after policy. The fair arm fixes the allowances on demand counted before
policy and fetches each queue up to a bound; a slot that policy frees is used only if the rows
behind it were fetched and allowed. -/
namespace WorkConservation

open KeyedTables RecoverySchema DeliveryPolicy MetricsSeries DeliveryAdmission AdmissionOutcome
open WeightedAllocation PolicyVerdicts AdmittedRows

section Definitions

variable (cfg : Settings) (scan : ScanOrder) (simulationId : SimulationId) (now : ℚ)
variable (budget : Budget) (gauges : Gauges) (policies : PolicyMap) (db : Db)

def shareOf (c : ConsumerId) : ℕ :=
  (allowancesAt cfg simulationId now budget gauges true db c).toNat

def reach : ℕ :=
  ((statesOf cfg simulationId now gauges db).map fun s =>
    shareOf cfg simulationId now budget gauges db s.id).foldl max 0 * cfg.admissionOverfetch

def withinReach (c : ConsumerId) : ℕ :=
  ((queueOf scan simulationId now db c).take
    (reach cfg simulationId now budget gauges db)).countP
      (admissible simulationId policies now db)

def admissibleDue (c : ConsumerId) : ℕ :=
  (queueOf scan simulationId now db c).countP (admissible simulationId policies now db)

/-- A slot is left over only if no consumer could have used it. -/
def WorkConserving : Prop :=
  let selection := selectionOf cfg scan simulationId now budget gauges policies true db
  (selection.admitted.length : ℤ) < budget.slots →
    ∀ s ∈ statesOf cfg simulationId now gauges db,
      (∃ d ∈ dueQueue scan simulationId now db, d.consumerId = s.id ∧
        candidateOf d ∈ (evaluate simulationId
          ((dueQueue scan simulationId now db).map candidateOf) policies now db).admitted ∧
        d.id ∉ selection.admitted) →
      s.headroom cfg.fairnessWindowVirtualS false ≤ admittedTo selection db s.id

/-- What a consumer has turns for among the slots: each can take up to its headroom, and the next
turn is of whoever has least by weight, the lower id first. -/
def fairShare (c : ConsumerId) : ℕ :=
  let states := statesOf cfg simulationId now gauges db
  WeightedShares.share (weightOf states) (fun c => (headroomOf cfg states false c).toNat)
    (ids states) budget.slots.toNat c

/-- The deliveries that policy admits among the oldest of a consumer, so many times the largest
share as the over-fetch says. -/
def fairlySeen (c : ConsumerId) : ℕ :=
  ((queueOf scan simulationId now db c).take
    (((statesOf cfg simulationId now gauges db).map fun s =>
      fairShare cfg simulationId now budget gauges db s.id).foldl max 0 *
        cfg.admissionOverfetch)).countP (admissible simulationId policies now db)

def usable (s : ConsumerState) : ℤ :=
  min (s.headroom cfg.fairnessWindowVirtualS false)
    (admissibleDue scan simulationId now policies db s.id)

/-- There are turns for all slots and each consumer has rows for its own; or no consumer could use
more than its turns and the rows that are looked at. -/
def Covered : Prop :=
  let states := statesOf cfg simulationId now gauges db
  let turns := fairShare cfg simulationId now budget gauges db
  let seen := fairlySeen cfg scan simulationId now budget gauges policies db
  (budget.slots ≤ (states.map fun s => s.headroom cfg.fairnessWindowVirtualS false).sum ∧
      ∀ s ∈ states, turns s.id ≤ seen s.id) ∨
    ∀ s ∈ states, usable cfg scan simulationId now policies db s ≤ turns s.id ∧
      usable cfg scan simulationId now policies db s ≤ seen s.id

end Definitions

section Shares

variable {cfg : Settings} {scan : ScanOrder} {simulationId : SimulationId} {now : ℚ}
variable {budget : Budget} {gauges : Gauges} {policies : PolicyMap} {db : Db}
variable {s : ConsumerState} {chosen : List Delivery}

theorem headroom_nonneg (s : ConsumerState) (windowS : ℚ) (pooled : Bool) :
    0 ≤ s.headroom windowS pooled := by
  rw [ConsumerState.headroom]
  split
  · exact le_rfl
  · exact le_max_left _ _

theorem headroomOf_eq {pooled : Bool} (hs : s ∈ statesOf cfg simulationId now gauges db) :
    headroomOf cfg (statesOf cfg simulationId now gauges db) pooled s.id =
      s.headroom cfg.fairnessWindowVirtualS pooled := by
  rw [headroomOf, find_of_id statesOf_nodup hs]

theorem allowancesAt_known {fairDrain : Bool}
    (hs : s ∈ statesOf cfg simulationId now gauges db) :
    allowancesAt cfg simulationId now budget gauges fairDrain db s.id =
      if fairDrain then
        (allocate (statesOf cfg simulationId now gauges db)
          (headroomOf cfg (statesOf cfg simulationId now gauges db) false) budget.slots s.id : ℤ)
      else min (s.headroom cfg.fairnessWindowVirtualS true) budget.slots := by
  have hany : (statesOf cfg simulationId now gauges db).any (fun x => x.id == s.id) = true :=
    List.any_eq_true.mpr ⟨s, hs, beq_self_eq_true _⟩
  rw [allowancesAt, allowancesOf, if_pos hany]
  cases fairDrain with
  | true => rfl
  | false => rw [← headroomOf_eq hs]; rfl

theorem shareOf_eq (hs : s ∈ statesOf cfg simulationId now gauges db) :
    shareOf cfg simulationId now budget gauges db s.id =
      allocate (statesOf cfg simulationId now gauges db)
        (headroomOf cfg (statesOf cfg simulationId now gauges db) false) budget.slots s.id := by
  rw [shareOf, allowancesAt_known hs, if_pos rfl, Int.toNat_natCast]

theorem shareOf_le_headroom (hs : s ∈ statesOf cfg simulationId now gauges db) :
    (shareOf cfg simulationId now budget gauges db s.id : ℤ) ≤
      s.headroom cfg.fairnessWindowVirtualS false := by
  have hle := allocate_le_headroom (statesOf cfg simulationId now gauges db)
    (headroomOf cfg (statesOf cfg simulationId now gauges db) false) budget.slots s.id
  rwa [← shareOf_eq hs, headroomOf_eq hs, max_eq_right (headroom_nonneg _ _ _)] at hle

theorem fairShare_eq (hs : s ∈ statesOf cfg simulationId now gauges db) :
    fairShare cfg simulationId now budget gauges db s.id =
      shareOf cfg simulationId now budget gauges db s.id := by
  rw [shareOf_eq hs, fairShare]
  exact (allocate_eq_share statesOf_weight _
    (List.mem_toFinset.mpr (List.mem_map_of_mem hs))).symm

theorem fairlySeen_eq (c : ConsumerId) :
    fairlySeen cfg scan simulationId now budget gauges policies db c =
      withinReach cfg scan simulationId now budget gauges policies db c := by
  have hshares : ((statesOf cfg simulationId now gauges db).map fun s =>
      fairShare cfg simulationId now budget gauges db s.id) =
        (statesOf cfg simulationId now gauges db).map fun s =>
          shareOf cfg simulationId now budget gauges db s.id :=
    List.map_congr_left fun _ => fairShare_eq
  rw [fairlySeen, hshares, withinReach, reach]

theorem sum_shareOf :
    ∑ c ∈ ids (statesOf cfg simulationId now gauges db),
        (shareOf cfg simulationId now budget gauges db c : ℤ) =
      min budget.slots ((statesOf cfg simulationId now gauges db).map fun s =>
        s.headroom cfg.fairnessWindowVirtualS false).sum := by
  have hid : ((statesOf cfg simulationId now gauges db).map ConsumerState.id).Nodup :=
    statesOf_nodup
  have hw : ∀ s ∈ statesOf cfg simulationId now gauges db, 0 < s.weight := statesOf_weight
  have htotal := (allocate_progress hw
    (headroomOf cfg (statesOf cfg simulationId now gauges db) false) budget.slots.toNat).total
  have hslots : (budget.slots.toNat : ℤ) = budget.slots := Int.toNat_of_nonneg (le_max_left _ _)
  rw [sum_ids hid, sum_ids hid, hslots] at htotal
  rw [sum_ids hid]
  refine Eq.trans (congrArg List.sum (List.map_congr_left fun s hs => ?_)) (htotal.trans ?_)
  · rw [shareOf_eq hs]
    rfl
  · refine congrArg _ (congrArg List.sum (List.map_congr_left fun s hs => ?_))
    rw [headroomOf_eq hs, max_eq_right (headroom_nonneg _ _ _)]

end Shares

section Reach

variable {cfg : Settings} {scan : ScanOrder} {simulationId : SimulationId} {now : ℚ}
variable {budget : Budget} {gauges : Gauges} {policies : PolicyMap} {db : Db}
variable {c : ConsumerId} {d : Delivery} {chosen : List Delivery}

theorem held_flatMap {f : ConsumerId → List Delivery} (hf : ∀ k, ∀ d ∈ f k, d.consumerId = k)
    {keys : List ConsumerId} (hn : keys.Nodup) (hc : c ∈ keys) (p : Delivery → Bool) :
    held c ((keys.flatMap f).filter p) = (f c).countP p := by
  induction keys with
  | nil => cases hc
  | cons k keys ih =>
    obtain ⟨hk, hn⟩ := List.nodup_cons.mp hn
    rw [List.flatMap_cons, List.filter_append, held, List.countP_append, List.countP_filter]
    rcases List.mem_cons.mp hc with rfl | hc
    · have hown : (f c).countP (fun d => d.consumerId == c && p d) = (f c).countP p :=
        List.countP_congr fun d hd => by rw [hf c d hd, beq_self_eq_true, Bool.true_and]
      have hrest : ((keys.flatMap f).filter p).countP (fun d => d.consumerId == c) = 0 := by
        refine List.countP_eq_zero.mpr fun d hd he => hk ?_
        obtain ⟨k, hk, hdk⟩ := List.mem_flatMap.mp (List.mem_of_mem_filter hd)
        rwa [← beq_iff_eq.mp he, hf k d hdk]
      rw [hown, hrest, Nat.add_zero]
    · have hother : (f k).countP (fun d => d.consumerId == c && p d) = 0 := by
        refine List.countP_eq_zero.mpr fun d hd he => hk ?_
        rw [hf k d hd, Bool.and_eq_true, beq_iff_eq] at he
        exact he.1 ▸ hc
      rw [hother, Nat.zero_add]
      exact ih hn hc

theorem offered_consumer
    (h : d ∈ offered cfg scan simulationId now budget gauges policies true db) :
    d.consumerId ∈ (statesOf cfg simulationId now gauges db).map ConsumerState.id := by
  obtain ⟨c, hc, hd⟩ := List.mem_flatMap.mp (List.mem_of_mem_filter h)
  rw [(mem_queueOf.mp (List.mem_of_mem_take hd)).2.2]
  exact (List.mem_insertionSort _).mp hc

theorem held_offered (hc : c ∈ (statesOf cfg simulationId now gauges db).map ConsumerState.id) :
    held c (offered cfg scan simulationId now budget gauges policies true db) =
      withinReach cfg scan simulationId now budget gauges policies db c := by
  have hn : (((statesOf cfg simulationId now gauges db).map ConsumerState.id).insertionSort
      (· ≤ ·)).Nodup := (List.perm_insertionSort _ _).nodup_iff.mpr statesOf_nodup
  exact held_flatMap (fun k d hd => (mem_queueOf.mp (List.mem_of_mem_take hd)).2.2) hn
    ((List.mem_insertionSort _).mpr hc) _

end Reach

section Outcome

variable {cfg : Settings} {scan : ScanOrder} {simulationId : SimulationId} {now : ℚ}
variable {budget : Budget} {gauges : Gauges} {policies : PolicyMap} {db : Db}
variable {c : ConsumerId} {s : ConsumerState} {chosen : List Delivery}
variable (h : Admitted budget.slots (allowancesAt cfg simulationId now budget gauges true db)
  (offered cfg scan simulationId now budget gauges policies true db) chosen)

include h

theorem length_chosen : (chosen.length : ℤ) =
    ∑ c ∈ ids (statesOf cfg simulationId now gauges db), (held c chosen : ℤ) :=
  length_eq_sum_held statesOf_nodup fun _ hd => offered_consumer (h.sublist.subset hd)

theorem held_le (hc : c ∈ ids (statesOf cfg simulationId now gauges db)) :
    held c chosen ≤ min (shareOf cfg simulationId now budget gauges db c)
      (withinReach cfg scan simulationId now budget gauges policies db c) := by
  have hseen : held c chosen ≤ held c (offered cfg scan simulationId now budget gauges policies
      true db) := h.sublist.countP_le
  rw [held_offered (List.mem_toFinset.mp hc)] at hseen
  have hshare := h.share c
  rw [shareOf]
  omega

/-- The slots never run out before the shares do, so everybody takes what it can. -/
theorem held_chosen (hc : c ∈ ids (statesOf cfg simulationId now gauges db)) :
    held c chosen = min (shareOf cfg simulationId now budget gauges db c)
      (withinReach cfg scan simulationId now budget gauges policies db c) := by
  rcases h.greedy with hfull | htaken
  · have hle : ∀ k ∈ ids (statesOf cfg simulationId now gauges db), (held k chosen : ℤ) ≤
        shareOf cfg simulationId now budget gauges db k := fun k hk => by
      have := held_le h hk
      omega
    rw [length_chosen h] at hfull
    have hsum : ∑ k ∈ ids (statesOf cfg simulationId now gauges db), (held k chosen : ℤ) =
        ∑ k ∈ ids (statesOf cfg simulationId now gauges db),
          (shareOf cfg simulationId now budget gauges db k : ℤ) := by
      refine le_antisymm (Finset.sum_le_sum hle) (le_trans ?_ hfull)
      rw [sum_shareOf]
      exact min_le_left _ _
    have heq := (Finset.sum_eq_sum_iff_of_le hle).mp hsum c hc
    have := held_le h hc
    omega
  · rw [htaken c, held_offered (List.mem_toFinset.mp hc)]
    rfl

theorem unserved_iff :
    (∃ d ∈ dueQueue scan simulationId now db, d.consumerId = c ∧
        admissible simulationId policies now db d = true ∧ d ∉ chosen) ↔
      held c chosen < admissibleDue scan simulationId now policies db c := by
  have hmem : ∀ d, d ∈ (queueOf scan simulationId now db c).filter
      (admissible simulationId policies now db) ↔ d ∈ dueQueue scan simulationId now db ∧
        d.consumerId = c ∧ admissible simulationId policies now db d = true := by
    intro d
    rw [List.mem_filter, mem_queueOf, mem_dueQueue, and_assoc, and_assoc, and_assoc]
  have hsub : (chosen.filter fun d => d.consumerId == c) ⊆
      (queueOf scan simulationId now db c).filter (admissible simulationId policies now db) := by
    intro d hd
    obtain ⟨hd, hc⟩ := List.mem_filter.mp hd
    obtain ⟨hfetched, hadm⟩ := List.mem_filter.mp (h.sublist.subset hd)
    exact (hmem d).mpr ⟨mem_dueQueue.mpr (mem_fetchedRows hfetched), beq_iff_eq.mp hc, hadm⟩
  rw [held, List.countP_eq_length_filter, admissibleDue, List.countP_eq_length_filter]
  constructor
  · rintro ⟨d, hd, hc, hadm, hnot⟩
    have hnodup : (d :: chosen.filter fun d => d.consumerId == c).Nodup :=
      List.nodup_cons.mpr ⟨fun hd => hnot (List.mem_of_mem_filter hd), h.stored.2.filter _⟩
    exact (List.subperm_of_subset hnodup
      (List.cons_subset.mpr ⟨(hmem d).mpr ⟨hd, hc, hadm⟩, hsub⟩)).length_le
  · intro hlt
    by_contra hall
    push Not at hall
    refine absurd (List.subperm_of_subset ((queueOf_nodup c).filter _) fun d hd => ?_).length_le
      (not_le.mpr hlt)
    obtain ⟨hdue, hc, hadm⟩ := (hmem d).mp hd
    exact List.mem_filter.mpr ⟨hall d hdue hc hadm, beq_iff_eq.mpr hc⟩

/-- The slots are used up exactly when they are all shared out and every share is used. -/
theorem slots_used_iff : budget.slots ≤ chosen.length ↔
    budget.slots ≤ ((statesOf cfg simulationId now gauges db).map fun s =>
        s.headroom cfg.fairnessWindowVirtualS false).sum ∧
      ∀ s ∈ statesOf cfg simulationId now gauges db,
        shareOf cfg simulationId now budget gauges db s.id ≤
          withinReach cfg scan simulationId now budget gauges policies db s.id := by
  have hsum : ∑ c ∈ ids (statesOf cfg simulationId now gauges db),
      (shareOf cfg simulationId now budget gauges db c : ℤ) = _ := sum_shareOf
  have hle : ∀ k ∈ ids (statesOf cfg simulationId now gauges db), (held k chosen : ℤ) ≤
      shareOf cfg simulationId now budget gauges db k := fun k hk => by
    have := held_le h hk
    omega
  have hshares := Finset.sum_le_sum hle
  rw [length_chosen h]
  constructor
  · intro hfull
    have heq := (Finset.sum_eq_sum_iff_of_le hle).mp (by omega)
    refine ⟨by omega, fun s hs => ?_⟩
    have hc : s.id ∈ ids (statesOf cfg simulationId now gauges db) :=
      List.mem_toFinset.mpr (List.mem_map_of_mem hs)
    have := heq s.id hc
    have := held_le h hc
    omega
  · rintro ⟨hroom, hcover⟩
    have heq : ∀ k ∈ ids (statesOf cfg simulationId now gauges db), (held k chosen : ℤ) =
        shareOf cfg simulationId now budget gauges db k := by
      intro k hk
      obtain ⟨s, hs, rfl⟩ := List.mem_map.mp (List.mem_toFinset.mp hk)
      have := hcover s hs
      have := held_chosen h hk
      omega
    rw [Finset.sum_congr rfl heq, hsum]
    omega

end Outcome

/-- Exactly when policy leaves enough rows for every turn, or nobody could use more turns. -/
theorem work_conserving_iff (cfg : Settings) (scan : ScanOrder) (simulationId : SimulationId)
    (now : ℚ) (budget : Budget) (gauges : Gauges) (policies : PolicyMap) (db : Db) :
    WorkConserving cfg scan simulationId now budget gauges policies db ↔
      Covered cfg scan simulationId now budget gauges policies db := by
  obtain ⟨chosen, h, heq⟩ := selection_rows cfg scan simulationId now budget gauges policies true db
  have hunserved : ∀ s ∈ statesOf cfg simulationId now gauges db,
      (∃ d ∈ dueQueue scan simulationId now db, d.consumerId = s.id ∧
        candidateOf d ∈ (evaluate simulationId
          ((dueQueue scan simulationId now db).map candidateOf) policies now db).admitted ∧
        d.id ∉ chosen.map Delivery.id) ↔
      held s.id chosen < admissibleDue scan simulationId now policies db s.id := by
    intro s hs
    rw [← unserved_iff h]
    refine exists_congr fun d => and_congr_right fun hd => and_congr_right fun _ => ?_
    rw [mem_map_id h.stored.1 (mem_dueQueue.mp hd).1]
    refine and_congr_left fun _ => ?_
    rw [evaluate_admitted, List.mem_filter]
    exact and_iff_right (List.mem_map_of_mem hd)
  have hused : budget.slots ≤ chosen.length ↔ _ := slots_used_iff h
  have hcovered : Covered cfg scan simulationId now budget gauges policies db ↔
      budget.slots ≤ chosen.length ∨ ∀ s ∈ statesOf cfg simulationId now gauges db,
        usable cfg scan simulationId now policies db s ≤ held s.id chosen := by
    rw [hused, Covered]
    refine or_congr (and_congr_right fun _ => forall₂_congr fun s hs => ?_)
      (forall₂_congr fun s hs => ?_)
    · rw [fairShare_eq hs, fairlySeen_eq]
    · have hheld := held_chosen h (List.mem_toFinset.mpr (List.mem_map_of_mem hs))
      rw [fairShare_eq hs, fairlySeen_eq, hheld]
      omega
  rw [hcovered, ← not_lt, ← imp_iff_not_or]
  simp only [WorkConserving, heq, List.length_map]
  refine imp_congr_right fun _ => forall₂_congr fun s hs => ?_
  rw [hunserved s hs, admittedTo_eq h.stored.1 h.stored.2 heq, usable]
  omega

def twoConsumers : Cast where
  consumers := [⟨1, 1, 1, 10, 10, 0, 0, 0, false⟩, ⟨2, 1, 1, 10, 10, 0, 0, 0, false⟩]
  subscriptions := [⟨1, 1, "usage"⟩, ⟨1, 2, "invoice"⟩]
  policies := [⟨1, 1, "usage", some 60, .none⟩]
  consumer_key := by decide
  subscription_key := by decide
  policy_key := by decide
  knobs_positive := by decide +kernel
  staleness_positive := by decide +kernel

def oneStale : Db :=
  { Db.seeded twoConsumers [] with
    deliveries :=
      ⟨[{ id := 1, simulationId := 1, eventId := 1, consumerId := 1, eventType := "usage",
          entityKey := "a", nextAttemptAt := some 0, createdAt := 0 },
        { id := 2, simulationId := 1, eventId := 2, consumerId := 2, eventType := "invoice",
          entityKey := "b", nextAttemptAt := some 90, createdAt := 90 },
        { id := 3, simulationId := 1, eventId := 3, consumerId := 2, eventType := "invoice",
          entityKey := "c", nextAttemptAt := some 95, createdAt := 95 }],
        4, by decide, by decide⟩ }

/-- The slot that the stale delivery was counted for goes to nobody. -/
theorem freed_slot_unused : ¬ ∀ (cfg : Settings) (scan : ScanOrder) (simulationId : SimulationId)
    (now : ℚ) (budget : Budget) (gauges : Gauges) (policies : PolicyMap) (db : Db),
    WorkConserving cfg scan simulationId now budget gauges policies db := by
  intro h
  have hsel : (selectionOf shipped .physical 1 100 ⟨2, 2⟩ (readGauges 1 oneStale)
      (loadPolicies 1 oneStale) true oneStale).admitted = [2] := by decide +kernel
  have hone := h shipped .physical 1 100 ⟨2, 2⟩ (readGauges 1 oneStale) (loadPolicies 1 oneStale)
    oneStale (by rw [hsel]; decide) ⟨2, 1, 10, 10, 2, 0, 0, 0⟩ (by decide +kernel)
    ⟨{ id := 3, simulationId := 1, eventId := 3, consumerId := 2, eventType := "invoice",
       entityKey := "c", nextAttemptAt := some 95, createdAt := 95 },
      by decide +kernel, rfl, by decide +kernel, by rw [hsel]; decide⟩
  rw [admittedTo, hsel] at hone
  revert hone
  decide +kernel

end WorkConservation
