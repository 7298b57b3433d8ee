import WebhookRecovery.WorkerClaim

/-! Lease reclamation: returning the work a dead worker was holding. -/
namespace LeaseReaper

open KeyedTables RecoverySchema WorkerClaim

def leaseExpired (now : ℚ) (d : Delivery) : Bool :=
  match d.leaseExpiresAt with
  | none => false
  | some t => decide (t < now)

/-- `FOR UPDATE SKIP LOCKED` over the in-flight rows whose lease has run out. -/
def expiredLeases (simulationId : SimulationId) (now : ℚ) (locked : ℕ → Bool) (db : Db) :
    List Delivery :=
  db.deliveries.rows.filter fun d =>
    d.simulationId == simulationId && d.state == .inFlight && leaseExpired now d && !locked d.id

/-- An expired lease is a failed attempt, charged against the retry budget like any other. -/
def reclaimSettlement (cfg : Settings) (now : ℚ) (d : Delivery) : Settlement :=
  let attemptNo := d.attemptCount
  let cap := cfg.maxAttempts
  if cfg.maxAttempts ≤ d.attemptCount then
    .failed s!"lease expired on attempt {attemptNo} of {cap}"
  else .retry (now + backoffS cfg d.attemptCount)

def releaseLease (d : Delivery) : Delivery := { d with leasedBy := none, leaseExpiresAt := none }

theorem releaseLease_id (now : ℚ) (s : Settlement) (d : Delivery) :
    (releaseLease (settleRow now s d)).id = d.id := settleRow_id now s d

def reclaimParams (cfg : Settings) (now : ℚ) (rows : List Delivery) : List (ℕ × Settlement) :=
  let all := rows.map fun d => (d.id, reclaimSettlement cfg now d)
  (all.filter fun x => x.2 matches .retry _) ++ (all.filter fun x => x.2 matches .failed _)

/-- Requeue or exhaust every row taken, clear its lease, and close the attempt it left open. -/
def reclaimExpiredLeases (cfg : Settings) (simulationId : SimulationId) (now : ℚ)
    (locked : ℕ → Bool) (db : Db) : Db :=
  let rows := expiredLeases simulationId now locked db
  { db with
    deliveries := db.deliveries.executemany (reclaimParams cfg now rows) (fun x d => d.id == x.1)
      (fun x d => releaseLease (settleRow now x.2 d)) (fun x d => releaseLease_id now x.2 d)
    attempts := db.attempts.updateWhere
      (fun a => decide (a.deliveryId ∈ rows.map Delivery.id) && a.isOpen)
      (fun a => { a with finishedAt := some now, outcome := some .leaseExpired }) (fun _ => rfl) }

theorem mem_expiredLeases {simulationId : SimulationId} {now : ℚ} {locked : ℕ → Bool} {db : Db}
    {d : Delivery} (h : d ∈ expiredLeases simulationId now locked db) :
    d ∈ db.deliveries.rows ∧ d.simulationId = simulationId ∧ d.state = .inFlight ∧
      leaseExpired now d := by
  have hrow := List.mem_filter.mp h
  simp only [Bool.and_eq_true, beq_iff_eq] at hrow
  exact ⟨hrow.1, hrow.2.1.1.1, hrow.2.1.1.2, hrow.2.1.2⟩

theorem not_locked_of_mem {simulationId : SimulationId} {now : ℚ} {locked : ℕ → Bool} {db : Db}
    {d : Delivery} (h : d ∈ expiredLeases simulationId now locked db) : locked d.id = false := by
  have hrow := List.mem_filter.mp h
  simp only [Bool.and_eq_true, Bool.not_eq_true'] at hrow
  exact hrow.2.2

theorem reclaimSettlement_retry_or_failed (cfg : Settings) (now : ℚ) (d : Delivery) :
    (∃ at_, reclaimSettlement cfg now d = .retry at_) ∨
      ∃ reason, reclaimSettlement cfg now d = .failed reason := by
  unfold reclaimSettlement
  simp only []
  split
  · exact Or.inr ⟨_, rfl⟩
  · exact Or.inl ⟨_, rfl⟩

theorem reclaimParams_perm (cfg : Settings) (now : ℚ) (rows : List Delivery) :
    (reclaimParams cfg now rows).Perm
    (rows.map fun d => (d.id, reclaimSettlement cfg now d)) := by
  unfold reclaimParams
  simp only []
  induction rows with
  | nil => exact .nil
  | cons d rows ih =>
    simp only [List.map_cons]
    rcases reclaimSettlement_retry_or_failed cfg now d with ⟨at_, h⟩ | ⟨reason, h⟩
    · rw [h]
      exact ih.cons _
    · rw [h]
      refine List.Perm.trans ?_ (ih.cons _)
      simp only [List.filter_cons, if_true, Bool.false_eq_true, if_false]
      exact List.perm_middle

/-- A sweep settles the rows whose lease it found expired, and no others. -/
theorem reclaim_rows (cfg : Settings) (simulationId : SimulationId) (now : ℚ)
    (locked : ℕ → Bool) (db : Db) : ∃ f : Delivery → Delivery,
    (reclaimExpiredLeases cfg simulationId now locked db).deliveries.rows =
      db.deliveries.rows.map f ∧
    ∀ d ∈ db.deliveries.rows,
      (d ∈ expiredLeases simulationId now locked db ∧
        f d = releaseLease (settleRow now (reclaimSettlement cfg now d) d)) ∨
      (d ∉ expiredLeases simulationId now locked db ∧ f d = d) := by
  set rows := expiredLeases simulationId now locked db
  have hp := reclaimParams_perm cfg now rows
  have hk : ∀ (x : ℕ × Settlement) (d : Delivery), (d.id == x.1) = true → x.1 = key d :=
    fun _ _ h => (beq_iff_eq.mp h).symm
  refine ⟨_, Table.executemany_rows _ _ _ _ _, fun d hd => ?_⟩
  by_cases hm : d ∈ rows
  · refine Or.inl ⟨hm, ?_⟩
    have hids : ((reclaimParams cfg now rows).map Prod.fst).Nodup := by
      refine ((hp.map Prod.fst).nodup_iff).mpr ?_
      rw [List.map_map]
      exact (List.filter_sublist.map key).nodup db.deliveries.nodup_keys
    have h := applyAll_of_mem (p := fun x d => d.id == x.1)
      (f := fun (x : ℕ × Settlement) d => releaseLease (settleRow now x.2 d)) hk
      (fun x d => settleRow_id now x.2 d) hids
      (hp.symm.subset (List.mem_map_of_mem hm)) (r := d) rfl
    exact h.trans (if_pos (beq_self_eq_true _))
  · refine Or.inr ⟨hm, applyAll_of_notMem hk fun x hx hkey => hm ?_⟩
    obtain ⟨q, hq, rfl⟩ := List.mem_map.mp (hp.subset hx)
    rwa [← db.deliveries.row_unique (mem_expiredLeases hq).1 hd hkey]

def expireAttempt (now : ℚ) (a : Attempt) : Attempt :=
  { a with finishedAt := some now, outcome := some .leaseExpired }

theorem reclaim_attempts (cfg : Settings) (simulationId : SimulationId) (now : ℚ)
    (locked : ℕ → Bool) (db : Db) :
    (reclaimExpiredLeases cfg simulationId now locked db).attempts.rows =
      db.attempts.rows.map fun a =>
        if a.deliveryId ∈ (expiredLeases simulationId now locked db).map Delivery.id ∧ a.isOpen
        then expireAttempt now a else a := by
  refine List.map_congr_left fun a _ => ?_
  simp only [Bool.and_eq_true, decide_eq_true_eq]
  rfl

end LeaseReaper
