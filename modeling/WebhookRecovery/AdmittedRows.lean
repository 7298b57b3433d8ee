import WebhookRecovery.PolicyVerdicts

/-! The rows that a selection admits: of the fetched rows that policy lets through, in order, as
many as the slots and the allowances take. -/
namespace AdmittedRows

open KeyedTables RecoverySchema DeliveryPolicy MetricsSeries DeliveryAdmission AdmissionOutcome
open WeightedAllocation PolicyVerdicts

/-- Policy would let it through, whatever else is fetched. -/
def admissible (simulationId : SimulationId) (policies : PolicyMap) (now : ℚ) (db : Db)
    (d : Delivery) : Bool :=
  decide (fate simulationId policies now db (candidateOf d) = .admitted)

def held (c : ConsumerId) (rows : List Delivery) : ℕ := rows.countP fun d => d.consumerId == c

/-- A greedy choice of rows within the slots and the allowances. -/
structure Admitted (slots : ℤ) (allowances : ConsumerId → ℤ) (rows chosen : List Delivery) :
    Prop where
  sublist : chosen.Sublist rows
  budget : (chosen.length : ℤ) ≤ max 0 slots
  share : ∀ c, (held c chosen : ℤ) ≤ max 0 (allowances c)
  greedy : slots ≤ chosen.length ∨ ∀ c, held c chosen = min (allowances c).toNat (held c rows)

section Selection

variable {cfg : Settings} {simulationId : SimulationId} {now : ℚ} {gauges : Gauges} {db : Db}
variable {scan : ScanOrder} {budget : Budget} {policies : PolicyMap} {fairDrain : Bool}
variable {slots : ℤ} {allowances : ConsumerId → ℤ} {rows chosen : List Delivery}

theorem ofConsumer_map (c : ConsumerId) (rows : List Delivery) :
    ofConsumer c (rows.map candidateOf) = held c rows := List.countP_map

theorem evaluate_rows (rows : List Delivery) :
    (evaluate simulationId (rows.map candidateOf) policies now db).admitted =
      (rows.filter (admissible simulationId policies now db)).map candidateOf := by
  rw [evaluate_admitted, List.filter_map]
  rfl

theorem ration_rows (slots : ℤ) (allowances : ConsumerId → ℤ) (rows : List Delivery) :
    ∃ chosen, Admitted slots allowances rows chosen ∧
      ration slots allowances (rows.map candidateOf) = chosen.map Delivery.id ∧
      ∀ c, ((rows.map candidateOf).foldl (rationStep slots allowances) {}).taken c =
        held c chosen := by
  obtain ⟨taken, hs, hr, hg⟩ := rationing_outcome slots allowances (rows.map candidateOf)
  obtain ⟨chosen, hsub, rfl⟩ := List.sublist_map_iff.mp hs
  have htaken : ∀ c, ((rows.map candidateOf).foldl (rationStep slots allowances) {}).taken c =
      held c chosen := fun c => (hr.taken c).trans (ofConsumer_map c chosen)
  have hbudget := hr.budget
  rw [List.length_map] at hbudget
  refine ⟨chosen, ⟨hsub, hbudget, fun c => ?_, ?_⟩, ?_, htaken⟩
  · rw [← ofConsumer_map]
    exact hr.share c
  · rw [Greedy, hr.admitted, List.length_map, List.length_map] at hg
    simpa only [htaken, ofConsumer_map] using hg
  · rw [ration, hr.admitted, List.map_map]
    rfl

def offered (cfg : Settings) (scan : ScanOrder) (simulationId : SimulationId) (now : ℚ)
    (budget : Budget) (gauges : Gauges) (policies : PolicyMap) (fairDrain : Bool) (db : Db) :
    List Delivery :=
  (fetchedRows cfg scan simulationId now budget gauges fairDrain db).filter
    (admissible simulationId policies now db)

theorem selection_rows (cfg : Settings) (scan : ScanOrder) (simulationId : SimulationId) (now : ℚ)
    (budget : Budget) (gauges : Gauges) (policies : PolicyMap) (fairDrain : Bool) (db : Db) :
    ∃ chosen,
    Admitted budget.slots (allowancesAt cfg simulationId now budget gauges fairDrain db)
      (offered cfg scan simulationId now budget gauges policies fairDrain db) chosen ∧
    (selectionOf cfg scan simulationId now budget gauges policies fairDrain db).admitted =
      chosen.map Delivery.id := by
  rw [selectionOf_admitted, fetchedAt_rows, evaluate_rows]
  obtain ⟨chosen, h, heq, -⟩ := ration_rows budget.slots
    (allowancesAt cfg simulationId now budget gauges fairDrain db)
    (offered cfg scan simulationId now budget gauges policies fairDrain db)
  exact ⟨chosen, h, heq⟩

theorem length_eq_sum_held {states : List ConsumerState}
    (hid : (states.map ConsumerState.id).Nodup)
    (h : ∀ d ∈ rows, d.consumerId ∈ states.map ConsumerState.id) :
    (rows.length : ℤ) = ∑ c ∈ ids states, (held c rows : ℤ) := by
  have hall : rows.countP (fun d => true && decide (d.consumerId ∈ states.map ConsumerState.id)) =
      rows.length := List.countP_eq_length.mpr fun d hd => by simpa using h d hd
  have hsum := sum_countP_fibers rows (fun _ => true) Delivery.consumerId hid
  rw [hall, List.map_map] at hsum
  rw [sum_ids hid, ← hsum, Nat.cast_list_sum, List.map_map]
  rfl

def admittedTo (selection : Selection) (db : Db) (c : ConsumerId) : ℕ :=
  db.deliveries.rows.countP fun d => d.consumerId == c && decide (d.id ∈ selection.admitted)

theorem mem_map_id (hsub : ∀ d ∈ chosen, d ∈ db.deliveries.rows) {d : Delivery}
    (hd : d ∈ db.deliveries.rows) : d.id ∈ chosen.map Delivery.id ↔ d ∈ chosen := by
  constructor
  · intro h
    obtain ⟨e, he, hid⟩ := List.mem_map.mp h
    exact db.deliveries.row_unique (hsub e he) hd hid ▸ he
  · exact List.mem_map_of_mem

theorem admittedTo_eq {selection : Selection} (hsub : ∀ d ∈ chosen, d ∈ db.deliveries.rows)
    (hn : chosen.Nodup) (h : selection.admitted = chosen.map Delivery.id) (c : ConsumerId) :
    admittedTo selection db c = held c chosen := by
  have hperm : (db.deliveries.rows.filter fun d => decide (d ∈ chosen)).Perm chosen := by
    apply (List.perm_ext_iff_of_nodup (db.deliveries.nodup.filter _) hn).mpr
    intro d
    rw [List.mem_filter, decide_eq_true_eq]
    exact and_iff_right_of_imp (hsub d)
  rw [held, ← hperm.countP_eq, List.countP_filter, admittedTo]
  refine List.countP_congr fun d hd => ?_
  rw [Bool.and_eq_true, Bool.and_eq_true, decide_eq_true_eq, decide_eq_true_eq, h,
    mem_map_id hsub hd]

theorem Admitted.stored (h : Admitted slots allowances
      (offered cfg scan simulationId now budget gauges policies fairDrain db) chosen) :
    (∀ d ∈ chosen, d ∈ db.deliveries.rows) ∧ chosen.Nodup := by
  constructor
  · intro d hd
    exact (mem_fetchedRows (List.mem_of_mem_filter (h.sublist.subset hd))).1
  · exact (fetchedRows_nodup.filter _).sublist h.sublist

end Selection

end AdmittedRows
