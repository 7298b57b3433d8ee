import WebhookRecovery.CheckedPrograms
import WebhookRecovery.WeightedAllocation

/-! What a selection with nobody in between returns, and what rationing leaves behind: either
the slots are gone, or each consumer took all it could of its candidates. -/
namespace AdmissionOutcome

open KeyedTables RecoverySchema InterleavedPrograms CheckedPrograms DeliveryPolicy MetricsSeries
open DeliveryAdmission WeightedAllocation

def statesOf (cfg : Settings) (simulationId : SimulationId) (now : ℚ) (gauges : Gauges)
    (db : Db) : List ConsumerState :=
  (consumerDemand simulationId now db).map
    (consumerState gauges (windowUsage cfg simulationId now db))

def selectionOf (cfg : Settings) (scan : ScanOrder) (simulationId : SimulationId) (now : ℚ)
    (budget : Budget) (gauges : Gauges) (policies : PolicyMap) (fairDrain : Bool) (db : Db) :
    Selection :=
  ((selectCandidates cfg scan simulationId now budget gauges policies fairDrain).run db).1

def headroomOf (cfg : Settings) (states : List ConsumerState) (pooled : Bool)
    (c : ConsumerId) : ℤ :=
  match states.find? fun s => s.id == c with
  | none => 0
  | some s => s.headroom cfg.fairnessWindowVirtualS pooled

def queueOf (scan : ScanOrder) (simulationId : SimulationId) (now : ℚ) (db : Db)
    (c : ConsumerId) : List Delivery :=
  scan.sortBy Delivery.nextAttemptAt
    (db.deliveries.rows.filter fun d => isDue simulationId now d && d.consumerId == c)

def allowancesAt (cfg : Settings) (simulationId : SimulationId) (now : ℚ) (budget : Budget)
    (gauges : Gauges) (fairDrain : Bool) (db : Db) : ConsumerId → ℤ :=
  allowancesOf cfg (statesOf cfg simulationId now gauges db) budget.slots fairDrain

def fetchedAt (cfg : Settings) (scan : ScanOrder) (simulationId : SimulationId) (now : ℚ)
    (budget : Budget) (gauges : Gauges) (fairDrain : Bool) (db : Db) : List Candidate :=
  fetchCandidates cfg scan simulationId now (statesOf cfg simulationId now gauges db)
    (allowancesAt cfg simulationId now budget gauges fairDrain db) budget.slots fairDrain db

def dueQueue (scan : ScanOrder) (simulationId : SimulationId) (now : ℚ) (db : Db) :
    List Delivery :=
  scan.sortBy Delivery.nextAttemptAt (db.deliveries.rows.filter (isDue simulationId now))

/-- The rows that a fetch returns: on the fair arm the head of each consumer's queue, on the
other the head of the common one. -/
def fetchedRows (cfg : Settings) (scan : ScanOrder) (simulationId : SimulationId) (now : ℚ)
    (budget : Budget) (gauges : Gauges) (fairDrain : Bool) (db : Db) : List Delivery :=
  let states := statesOf cfg simulationId now gauges db
  let allowances := allowancesAt cfg simulationId now budget gauges fairDrain db
  if fairDrain then
    let wanted := (states.map fun s => (allowances s.id).toNat).foldl max 0
    ((states.map ConsumerState.id).insertionSort (· ≤ ·)).flatMap fun c =>
      (queueOf scan simulationId now db c).take (wanted * cfg.admissionOverfetch)
  else (dueQueue scan simulationId now db).take (budget.slots.toNat * cfg.admissionOverfetch)

def ofConsumer (c : ConsumerId) (l : List Candidate) : ℕ := l.countP fun x => x.consumerId == c

section States

variable {cfg : Settings} {simulationId : SimulationId} {now : ℚ} {gauges : Gauges} {db : Db}
variable {scan : ScanOrder} {budget : Budget} {policies : PolicyMap} {fairDrain : Bool}

theorem readConsumerStates_run :
    (readConsumerStates cfg simulationId now gauges).run db =
      (statesOf cfg simulationId now gauges db, db) := by
  simp only [readConsumerStates, run_bind, run_read, run_pure]
  rfl

theorem statesOf_ids : (statesOf cfg simulationId now gauges db).map ConsumerState.id =
    ((db.cast.consumers.filter fun c => c.simulationId == simulationId).insertionSort
      fun a b => a.id ≤ b.id).map Consumer.id := by
  simp only [statesOf, consumerDemand, List.map_map]
  rfl

theorem statesOf_nodup :
    ((statesOf cfg simulationId now gauges db).map ConsumerState.id).Nodup := by
  rw [statesOf_ids, ((List.perm_insertionSort _ _).map Consumer.id).nodup_iff]
  exact db.cast.consumer_key.sublist (List.filter_sublist.map Consumer.id)

theorem mem_statesOf_ids {c : ConsumerId} :
    c ∈ (statesOf cfg simulationId now gauges db).map ConsumerState.id ↔
      ∃ x ∈ db.cast.consumers, x.simulationId = simulationId ∧ x.id = c := by
  rw [statesOf_ids, ((List.perm_insertionSort _ _).map Consumer.id).mem_iff]
  simp only [List.mem_map, List.mem_filter, beq_iff_eq, and_assoc]

theorem statesOf_weight : ∀ s ∈ statesOf cfg simulationId now gauges db, 0 < s.weight := by
  intro s hs
  obtain ⟨x, hx, rfl⟩ := List.mem_map.mp hs
  obtain ⟨c, hc, rfl⟩ := List.mem_map.mp hx
  have hmem := (List.perm_insertionSort _ _).subset hc
  exact (db.cast.knobs_positive c (List.mem_of_mem_filter hmem)).1

theorem mem_queueOf {c : ConsumerId} {d : Delivery} : d ∈ queueOf scan simulationId now db c ↔
    d ∈ db.deliveries.rows ∧ isDue simulationId now d = true ∧ d.consumerId = c := by
  rw [queueOf, (scan.sortBy_perm _ _).mem_iff, List.mem_filter, Bool.and_eq_true, beq_iff_eq]

theorem mem_dueQueue {d : Delivery} : d ∈ dueQueue scan simulationId now db ↔
    d ∈ db.deliveries.rows ∧ isDue simulationId now d = true := by
  rw [dueQueue, (scan.sortBy_perm _ _).mem_iff, List.mem_filter]

theorem queueOf_nodup (c : ConsumerId) : (queueOf scan simulationId now db c).Nodup :=
  (scan.sortBy_perm _ _).nodup_iff.mpr (db.deliveries.nodup.filter _)

theorem dueQueue_nodup : (dueQueue scan simulationId now db).Nodup :=
  (scan.sortBy_perm _ _).nodup_iff.mpr (db.deliveries.nodup.filter _)

theorem fetchedAt_rows : fetchedAt cfg scan simulationId now budget gauges fairDrain db =
    (fetchedRows cfg scan simulationId now budget gauges fairDrain db).map candidateOf := by
  rw [fetchedAt, fetchCandidates, fetchedRows]
  cases fairDrain with
  | true =>
    simp only [if_true, List.map_flatMap]
    rfl
  | false => rfl

theorem mem_fetchedRows {d : Delivery}
    (h : d ∈ fetchedRows cfg scan simulationId now budget gauges fairDrain db) :
    d ∈ db.deliveries.rows ∧ isDue simulationId now d = true := by
  rw [fetchedRows] at h
  cases fairDrain with
  | true =>
    obtain ⟨c, -, hd⟩ := List.mem_flatMap.mp h
    obtain ⟨hrow, hdue, -⟩ := mem_queueOf.mp (List.mem_of_mem_take hd)
    exact ⟨hrow, hdue⟩
  | false => exact mem_dueQueue.mp (List.mem_of_mem_take h)

theorem fetchedRows_nodup :
    (fetchedRows cfg scan simulationId now budget gauges fairDrain db).Nodup := by
  rw [fetchedRows]
  cases fairDrain with
  | true =>
    have hids : ((statesOf cfg simulationId now gauges db).map ConsumerState.id).Nodup :=
      statesOf_nodup
    refine List.nodup_flatMap.mpr ⟨fun c _ => (queueOf_nodup c).sublist (List.take_sublist _ _), ?_⟩
    refine ((List.perm_insertionSort _ _).nodup_iff.mpr hids).imp fun hne d hc hd => hne ?_
    rw [← (mem_queueOf.mp (List.mem_of_mem_take hc)).2.2]
    exact (mem_queueOf.mp (List.mem_of_mem_take hd)).2.2
  | false => exact dueQueue_nodup.sublist (List.take_sublist _ _)

theorem isDue_iff {d : Delivery} : isDue simulationId now d = true ↔
    d.simulationId = simulationId ∧ d.state = .pending ∧ dueAt now d.nextAttemptAt = true := by
  rw [isDue, Bool.and_eq_true, Bool.and_eq_true, beq_iff_eq, beq_iff_eq, and_assoc]

theorem ration_of_none {slots : ℤ} {allowances : ConsumerId → ℤ} (l : List Candidate)
    (h : ∀ c, allowances c ≤ 0) : ration slots allowances l = [] := by
  obtain ⟨chosen, -, heq, -, hshare⟩ := ration_chosen slots allowances l
  rw [heq, List.map_eq_nil_iff, List.eq_nil_iff_forall_not_mem]
  intro x hx
  have hpos : 0 < chosen.countP fun y => y.consumerId == x.consumerId :=
    List.countP_pos_iff.mpr ⟨x, hx, beq_self_eq_true _⟩
  have hle := hshare x.consumerId
  rw [max_eq_left (h x.consumerId)] at hle
  omega

theorem ration_of_no_slots {slots : ℤ} {allowances : ConsumerId → ℤ} (l : List Candidate)
    (h : slots ≤ 0) : ration slots allowances l = [] := by
  obtain ⟨chosen, -, heq, hlen, -⟩ := ration_chosen slots allowances l
  rw [max_eq_left h] at hlen
  rw [heq, List.map_eq_nil_iff, ← List.length_eq_zero_iff]
  omega

theorem allowancesOf_unknown {states : List ConsumerState} {slots : ℤ} {c : ConsumerId}
    (h : c ∉ states.map ConsumerState.id) : allowancesOf cfg states slots fairDrain c = 0 := by
  rw [allowancesOf, if_neg]
  intro hany
  obtain ⟨s, hs, hid⟩ := List.any_eq_true.mp hany
  exact h (List.mem_map.mpr ⟨s, hs, by simpa using hid⟩)

theorem selectionOf_eq (h : 0 < budget.slots)
    (hany : ∃ c, allowancesAt cfg simulationId now budget gauges fairDrain db c ≠ 0) :
    selectionOf cfg scan simulationId now budget gauges policies fairDrain db =
      ⟨ration budget.slots (allowancesAt cfg simulationId now budget gauges fairDrain db)
          (evaluate simulationId
            (fetchedAt cfg scan simulationId now budget gauges fairDrain db)
            policies now db).admitted,
        (evaluate simulationId
          (fetchedAt cfg scan simulationId now budget gauges fairDrain db)
          policies now db).drops⟩ := by
  obtain ⟨c, hc⟩ := hany
  rw [selectionOf, selectCandidates, if_neg (not_le.mpr h), run_bind, readConsumerStates_run]
  dsimp only
  rw [if_neg, run_bind, run_read, run_bind, run_read]
  · rfl
  · intro hall
    by_cases hmem : c ∈ (statesOf cfg simulationId now gauges db).map ConsumerState.id
    · obtain ⟨s, hs, rfl⟩ := List.mem_map.mp hmem
      exact hc (eq_of_beq (List.all_eq_true.mp hall s hs))
    · exact hc (allowancesOf_unknown hmem)

theorem selectionOf_nothing
    (h : ∀ c, allowancesAt cfg simulationId now budget gauges fairDrain db c = 0) :
    selectionOf cfg scan simulationId now budget gauges policies fairDrain db = ⟨[], []⟩ := by
  rw [selectionOf, selectCandidates]
  split
  · rfl
  · rw [run_bind, readConsumerStates_run]
    dsimp only
    rw [if_pos (List.all_eq_true.mpr fun s _ => beq_iff_eq.mpr (h s.id))]
    rfl

theorem selectionOf_admitted :
    (selectionOf cfg scan simulationId now budget gauges policies fairDrain db).admitted =
      ration budget.slots (allowancesAt cfg simulationId now budget gauges fairDrain db)
        (evaluate simulationId
          (fetchedAt cfg scan simulationId now budget gauges fairDrain db)
          policies now db).admitted := by
  by_cases h : 0 < budget.slots
  · by_cases hany : ∃ c, allowancesAt cfg simulationId now budget gauges fairDrain db c ≠ 0
    · rw [selectionOf_eq h hany]
    · push Not at hany
      rw [ration_of_none _ fun c => (hany c).le, selectionOf_nothing hany]
  · rw [ration_of_no_slots _ (not_lt.mp h), selectionOf, selectCandidates,
      if_pos (not_lt.mp h)]
    rfl

end States

/-- The slots are gone, or each consumer took what it could of the candidates seen. -/
def Greedy (slots : ℤ) (allowances : ConsumerId → ℤ) (seen : List Candidate) (r : Rationing) :
    Prop :=
  slots ≤ r.admitted.length ∨ ∀ c, r.taken c = min (allowances c).toNat (ofConsumer c seen)

section Rationing

variable {slots : ℤ} {allowances : ConsumerId → ℤ} {seen l m : List Candidate} {r : Rationing}

theorem ofConsumer_append (c : ConsumerId) (l m : List Candidate) :
    ofConsumer c (l ++ m) = ofConsumer c l + ofConsumer c m := List.countP_append

theorem ofConsumer_singleton (c : ConsumerId) (x : Candidate) :
    ofConsumer c [x] = if x.consumerId = c then 1 else 0 := by
  rw [ofConsumer, List.countP_singleton]
  simp only [beq_iff_eq]

theorem rationStep_greedy (h : Greedy slots allowances seen r) (x : Candidate) :
    Greedy slots allowances (seen ++ [x]) (rationStep slots allowances r x) := by
  rcases h with hfull | htaken
  · rw [rationStep, if_pos hfull]
    exact Or.inl hfull
  · rw [rationStep]
    split
    · exact Or.inl (by assumption)
    · refine Or.inr fun c => ?_
      have hx := htaken x.consumerId
      rw [ofConsumer_append, ofConsumer_singleton]
      split
      · rename_i hshare
        rw [htaken c]
        by_cases hc : x.consumerId = c
        · subst hc
          rw [if_pos rfl]
          omega
        · rw [if_neg hc, Nat.add_zero]
      · rename_i hshare
        by_cases hc : x.consumerId = c
        · subst hc
          simp only [Function.update_self, if_true]
          omega
        · simp only [Function.update_of_ne (Ne.symm hc), htaken c, if_neg hc, Nat.add_zero]

theorem foldl_greedy (h : Greedy slots allowances seen r) :
    Greedy slots allowances (seen ++ l) (l.foldl (rationStep slots allowances) r) := by
  induction l generalizing seen r with
  | nil => simpa using h
  | cons x l ih =>
    have hnext := ih (rationStep_greedy h x)
    rwa [List.append_assoc, List.singleton_append] at hnext

/-- Slots are left over only when nobody can take one. -/
theorem rationing_outcome (slots : ℤ) (allowances : ConsumerId → ℤ) (l : List Candidate) :
    ∃ chosen : List Candidate, chosen.Sublist l ∧
      Rationed slots allowances chosen (l.foldl (rationStep slots allowances) {}) ∧
      Greedy slots allowances l (l.foldl (rationStep slots allowances) {}) := by
  obtain ⟨chosen, hs, hr⟩ := foldl_rationed l (rationed_start slots allowances)
  have hstart : Greedy slots allowances [] {} := Or.inr fun c => by simp [ofConsumer]
  exact ⟨chosen, hs, hr, foldl_greedy hstart⟩

end Rationing

end AdmissionOutcome
