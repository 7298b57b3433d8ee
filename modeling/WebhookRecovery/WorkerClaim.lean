import WebhookRecovery.DeliveryPolicy

/-! Claim, lease, complete: the two transactions a worker iteration is made of. -/
namespace WorkerClaim

open KeyedTables RecoverySchema DeliveryPolicy

structure ConsumerProfile where
  latencyS : ℚ
  jitterS : ℚ
  failureRate : ℚ
  down : Bool
  deriving DecidableEq, Repr

structure AttemptRequest where
  simulationId : SimulationId
  deliveryId : ℕ
  consumerId : ConsumerId
  attemptNo : ℕ
  eventType : String
  entityKey : String
  profile : ConsumerProfile
  deriving DecidableEq, Repr

structure AttemptResult where
  outcome : AttemptOutcome
  statusCode : Option ℕ := none
  deriving DecidableEq, Repr

structure Claimed where
  request : AttemptRequest
  attemptId : ℕ
  deriving DecidableEq, Repr

structure Completion where
  claimed : Claimed
  result : AttemptResult
  deriving DecidableEq, Repr

structure ClaimRow where
  delivery : Delivery
  consumer : Consumer
  maxStalenessS : Option ℚ

/-- Inner join on the consumer, outer join on the policy. -/
def claimRow (db : Db) (d : Delivery) : Option ClaimRow :=
  (db.cast.consumers.find? fun c => c.id == d.consumerId).map fun c =>
    ⟨d, c, (db.cast.policies.find? fun p =>
      p.consumerId == d.consumerId && p.eventType == d.eventType).bind
        DeliveryPolicy.maxStalenessS⟩

/-- `FOR UPDATE … SKIP LOCKED`: rows that another transaction has locked are passed over. -/
def claimRows (scan : ScanOrder) (locked : ℕ → Bool) (simulationId : SimulationId) (limit : ℕ)
    (db : Db) : List ClaimRow :=
  ((scan.sortBy Delivery.readyAt (db.deliveries.rows.filter fun d =>
    d.simulationId == simulationId && d.state == .ready && !locked d.id)).filterMap
      (claimRow db)).take limit

def ClaimRow.overage (now : ℚ) (r : ClaimRow) : Option ℚ :=
  staleBy now r.delivery.createdAt r.maxStalenessS

def splitStale (now : ℚ) (rows : List ClaimRow) : List ClaimRow × List (ℕ × String) :=
  (rows.filter fun r => (r.overage now).isNone,
    rows.filterMap fun r => (r.overage now).map fun o =>
      (r.delivery.id, staleReason o (r.maxStalenessS.getD 0)))

def expire (expired : List (ℕ × String)) (now : ℚ) (t : Table Delivery) : Table Delivery :=
  t.executemany expired (fun x d => d.id == x.1)
    (fun x d => { d with
      state := .expired
      completedAt := some now
      terminalReason := some x.2 }) (fun _ _ => rfl)

def leaseRow (cfg : Settings) (workerId : WorkerId) (now : ℚ) (d : Delivery) : Delivery :=
  { d with
    state := .inFlight
    leasedBy := some workerId
    leaseExpiresAt := some (now + cfg.leaseDurationVirtualS)
    attemptCount := d.attemptCount + 1 }

def attemptRow (simulationId : SimulationId) (workerId : WorkerId) (now : ℚ) (id : ℕ)
    (r : ClaimRow) : Attempt where
  id := id
  simulationId := simulationId
  deliveryId := r.delivery.id
  consumerId := r.delivery.consumerId
  workerId := workerId
  startedAt := now

def claimedRow (simulationId : SimulationId) (id : ℕ) (r : ClaimRow) : Claimed where
  request :=
    { simulationId := simulationId
      deliveryId := r.delivery.id
      consumerId := r.delivery.consumerId
      attemptNo := r.delivery.attemptCount + 1
      eventType := r.delivery.eventType
      entityKey := r.delivery.entityKey
      profile := ⟨r.consumer.simLatencyS, r.consumer.simJitterS, r.consumer.simFailureRate,
        r.consumer.simDown⟩ }
  attemptId := id

/-- Take up to `limit` ready deliveries, exclusively, and record that the attempts started.
With nothing left to send each statement below is a no-op. -/
def claimBatch (cfg : Settings) (scan : ScanOrder) (locked : ℕ → Bool)
    (simulationId : SimulationId) (workerId : WorkerId) (now : ℚ) (limit : ℕ) (db : Db) :
    Db × List Claimed :=
  let rows := claimRows scan locked simulationId limit db
  let live := (splitStale now rows).1
  let expired := (splitStale now rows).2
  let ids := live.map fun r => r.delivery.id
  ({ db with
      deliveries := (expire expired now db.deliveries).updateWhere (fun d => decide (d.id ∈ ids))
        (leaseRow cfg workerId now) (fun _ => rfl)
      attempts := db.attempts.insertAll live (attemptRow simulationId workerId now)
        (fun _ _ => rfl) },
    (live.zipIdx db.attempts.next).map fun x => claimedRow simulationId x.2 x.1)

def backoffS (cfg : Settings) (attemptNo : ℕ) : ℚ :=
  min (cfg.retryBackoffBaseVirtualS * 2 ^ ((attemptNo : ℤ) - 1)) cfg.retryBackoffCapVirtualS

/-- `finished_at IS NULL` is the fence in the attempt table. -/
def closeAttempts (completions : List Completion) (now : ℚ) (t : Table Attempt) :
    Table Attempt :=
  t.executemany completions (fun c a => a.id == c.claimed.attemptId && a.isOpen)
    (fun c a => { a with
      finishedAt := some now
      outcome := some c.result.outcome
      statusCode := c.result.statusCode }) (fun _ _ => rfl)

/-- The fence in the delivery table: the lease this worker still holds. -/
def held (workerId : WorkerId) (d : Delivery) : Bool :=
  d.state == .inFlight && d.leasedBy == some workerId

inductive Settlement where
  | delivered
  | failed (terminalReason : String)
  | retry (nextAttemptAt : ℚ)
  deriving DecidableEq, Repr

def settlement (cfg : Settings) (now : ℚ) (c : Completion) : Settlement :=
  let attemptNo := c.claimed.request.attemptNo
  if c.result.outcome = .ok then .delivered
  else if cfg.maxAttempts ≤ attemptNo then
    .failed s!"retry cap reached after {attemptNo} attempts"
  else .retry (now + backoffS cfg attemptNo)

def settleRow (now : ℚ) (s : Settlement) (d : Delivery) : Delivery :=
  match s with
  | .delivered => { d with state := .delivered, completedAt := some now }
  | .failed reason => { d with
      state := .failed
      completedAt := some now
      terminalReason := some reason }
  | .retry at_ => { d with state := .pending, nextAttemptAt := some at_ }

theorem settleRow_id (now : ℚ) (s : Settlement) (d : Delivery) : (settleRow now s d).id = d.id := by
  cases s <;> rfl

theorem settleRow_settled (now : ℚ) (s : Settlement) (d : Delivery) :
    (settleRow now s d).state ≠ .ready ∧ (settleRow now s d).state ≠ .inFlight := by
  cases s <;> simp [settleRow]

/-- The delivered rows in one statement, then the failed ones, then the retries. -/
def settlements (cfg : Settings) (now : ℚ) (completions : List Completion) :
    List (ℕ × Settlement) :=
  let all := completions.map fun c => (c.claimed.request.deliveryId, settlement cfg now c)
  (all.filter fun x => x.2 matches .delivered) ++ (all.filter fun x => x.2 matches .failed _) ++
    (all.filter fun x => x.2 matches .retry _)

/-- Record every outcome, in one transaction, each write fenced on the lease still held. -/
def completeBatch (cfg : Settings) (workerId : WorkerId) (completions : List Completion) (now : ℚ)
    (db : Db) : Db :=
  { db with
    attempts := closeAttempts completions now db.attempts
    deliveries := db.deliveries.executemany (settlements cfg now completions)
      (fun x d => d.id == x.1 && held workerId d) (fun x d => settleRow now x.2 d)
      (fun x d => settleRow_id now x.2 d) }

section Claiming

variable {scan : ScanOrder} {locked : ℕ → Bool} {simulationId : SimulationId} {now : ℚ}
variable {limit : ℕ} {db : Db}

theorem claimRow_delivery {d : Delivery} {r : ClaimRow} (h : claimRow db d = some r) :
    r.delivery = d := by
  obtain ⟨c, _, rfl⟩ := Option.map_eq_some_iff.mp h
  rfl

theorem filterMap_claimRow_sublist (l : List Delivery) :
    ((l.filterMap (claimRow db)).map ClaimRow.delivery).Sublist l := by
  induction l with
  | nil => exact .slnil
  | cons d l ih =>
    rw [List.filterMap_cons]
    cases h : claimRow db d with
    | none => exact ih.cons d
    | some r =>
      have hr := claimRow_delivery h
      subst hr
      exact ih.cons_cons _

theorem claimRows_nodup :
    ((claimRows scan locked simulationId limit db).map ClaimRow.delivery).Nodup := by
  have hsorted := ((scan.sortBy_perm Delivery.readyAt _).nodup_iff).mpr (db.deliveries.nodup.filter
    fun d => d.simulationId == simulationId && d.state == .ready && !locked d.id)
  exact (((List.take_sublist _ _).map _).trans (filterMap_claimRow_sublist _)).nodup hsorted

theorem mem_claimRows {r : ClaimRow} (h : r ∈ claimRows scan locked simulationId limit db) :
    r.delivery ∈ db.deliveries.rows ∧ r.delivery.simulationId = simulationId ∧
      r.delivery.state = .ready := by
  obtain ⟨d, hd, hr⟩ := List.mem_filterMap.mp (List.mem_of_mem_take h)
  rw [claimRow_delivery hr]
  have hrow := List.mem_filter.mp ((scan.sortBy_perm _ _).subset hd)
  simp only [Bool.and_eq_true, beq_iff_eq] at hrow
  exact ⟨hrow.1, hrow.2.1.1, hrow.2.1.2⟩

def liveRows (scan : ScanOrder) (locked : ℕ → Bool) (simulationId : SimulationId) (now : ℚ)
    (limit : ℕ) (db : Db) : List ClaimRow :=
  (splitStale now (claimRows scan locked simulationId limit db)).1

theorem mem_liveRows {r : ClaimRow} (h : r ∈ liveRows scan locked simulationId now limit db) :
    r.delivery ∈ db.deliveries.rows ∧ r.delivery.simulationId = simulationId ∧
      r.delivery.state = .ready :=
  mem_claimRows (List.mem_of_mem_filter h)

theorem liveRows_nodup (scan : ScanOrder) (locked : ℕ → Bool) (simulationId : SimulationId)
    (now : ℚ) (limit : ℕ) (db : Db) :
    ((liveRows scan locked simulationId now limit db).map ClaimRow.delivery).Nodup :=
  (List.filter_sublist.map _).nodup claimRows_nodup

theorem liveRows_nodup_ids (scan : ScanOrder) (locked : ℕ → Bool) (simulationId : SimulationId)
    (now : ℚ) (limit : ℕ) (db : Db) :
    ((liveRows scan locked simulationId now limit db).map fun r => r.delivery.id).Nodup := by
  have h := List.Nodup.map_on (f := key) (fun d hd e he hk => ?_)
    (liveRows_nodup scan locked simulationId now limit db)
  · rw [List.map_map] at h
    exact h
  · obtain ⟨r, hr, rfl⟩ := List.mem_map.mp hd
    obtain ⟨q, hq, rfl⟩ := List.mem_map.mp he
    exact db.deliveries.row_unique (mem_liveRows hr).1 (mem_liveRows hq).1 hk

def expireRow (now : ℚ) (reason : String) (d : Delivery) : Delivery :=
  { d with state := .expired, completedAt := some now, terminalReason := some reason }

theorem stale_not_live {r : ClaimRow} {overage : ℚ}
    (hr : r ∈ claimRows scan locked simulationId limit db) (stale : r.overage now = some overage) :
    r.delivery ∉ (liveRows scan locked simulationId now limit db).map ClaimRow.delivery := by
  intro hm
  obtain ⟨q, hq, hqr⟩ := List.mem_map.mp hm
  obtain ⟨hq, hlive⟩ := List.mem_filter.mp hq
  obtain rfl : q = r := List.inj_on_of_nodup_map claimRows_nodup hq hr hqr
  rw [stale] at hlive
  cases hlive

/-- What a claim makes of a row: it leases what it fetches, or expires that as stale, and leaves
every other row alone. -/
inductive Taken (cfg : Settings) (scan : ScanOrder) (locked : ℕ → Bool)
    (simulationId : SimulationId) (workerId : WorkerId) (now : ℚ) (limit : ℕ) (db : Db)
    (d : Delivery) : Delivery → Prop where
  | kept (h : ∀ r ∈ claimRows scan locked simulationId limit db, r.delivery ≠ d) :
      Taken cfg scan locked simulationId workerId now limit db d d
  | leased {r : ClaimRow} (hr : r ∈ claimRows scan locked simulationId limit db)
      (hrd : r.delivery = d) (live : r.overage now = none) :
      Taken cfg scan locked simulationId workerId now limit db d (leaseRow cfg workerId now d)
  | expired {r : ClaimRow} {overage : ℚ} (hr : r ∈ claimRows scan locked simulationId limit db)
      (hrd : r.delivery = d) (stale : r.overage now = some overage) :
      Taken cfg scan locked simulationId workerId now limit db d
        (expireRow now (staleReason overage (r.maxStalenessS.getD 0)) d)

def afterExpiry (expired : List (ℕ × String)) (now : ℚ) : Delivery → Delivery :=
  applyAll (fun x d => d.id == x.1) (fun x => expireRow now x.2) expired

/-- The expiry ends a row that was fetched and is stale, and no other. -/
theorem afterExpiry_cases (scan : ScanOrder) (locked : ℕ → Bool) (simulationId : SimulationId)
    (now : ℚ) (limit : ℕ) {d : Delivery} (hd : d ∈ db.deliveries.rows) :
    ((∀ r ∈ claimRows scan locked simulationId limit db, r.delivery = d → r.overage now = none) ∧
      afterExpiry (splitStale now (claimRows scan locked simulationId limit db)).2 now d = d) ∨
    ∃ r ∈ claimRows scan locked simulationId limit db, r.delivery = d ∧
      ∃ overage, r.overage now = some overage ∧
        afterExpiry (splitStale now (claimRows scan locked simulationId limit db)).2 now d =
          expireRow now (staleReason overage (r.maxStalenessS.getD 0)) d := by
  rcases applyAll_of_overwrite (k := Prod.fst) (p := fun x d => d.id == x.1)
    (f := fun x => expireRow now x.2) (fun _ _ => beq_iff_eq.trans eq_comm) (fun _ _ => rfl)
    (fun _ _ _ => rfl) (splitStale now (claimRows scan locked simulationId limit db)).2 d with
    ⟨hfresh, h⟩ | ⟨x, hx, hk, h⟩
  · refine Or.inl ⟨fun r hr hrd => ?_, h⟩
    rw [Option.eq_none_iff_forall_ne_some]
    intro o ho
    exact hfresh _ (List.mem_filterMap.mpr ⟨r, hr, by rw [ho]; rfl⟩) (congrArg Delivery.id hrd)
  · obtain ⟨r, hr, hrx⟩ := List.mem_filterMap.mp hx
    obtain ⟨o, ho, rfl⟩ := Option.map_eq_some_iff.mp hrx
    exact Or.inr ⟨r, hr, db.deliveries.row_unique (mem_claimRows hr).1 hd hk, o, ho, h⟩

theorem live_ids {d : Delivery} (hd : d ∈ db.deliveries.rows) :
    d.id ∈ (liveRows scan locked simulationId now limit db).map (fun r => r.delivery.id) ↔
      d ∈ (liveRows scan locked simulationId now limit db).map ClaimRow.delivery := by
  simp only [List.mem_map]
  constructor
  · rintro ⟨r, hr, hk⟩
    exact ⟨r, hr, db.deliveries.row_unique (mem_liveRows hr).1 hd hk⟩
  · rintro ⟨r, hr, rfl⟩
    exact ⟨r, hr, rfl⟩

theorem claimBatch_taken (cfg : Settings) (scan : ScanOrder) (locked : ℕ → Bool)
    (simulationId : SimulationId) (workerId : WorkerId) (now : ℚ) (limit : ℕ) (db : Db) :
    ∃ f : Delivery → Delivery,
    (claimBatch cfg scan locked simulationId workerId now limit db).1.deliveries.rows =
      db.deliveries.rows.map f ∧
    ∀ d ∈ db.deliveries.rows,
      Taken cfg scan locked simulationId workerId now limit db d (f d) := by
  set live := (liveRows scan locked simulationId now limit db).map fun r => r.delivery.id
  set expired := (splitStale now (claimRows scan locked simulationId limit db)).2
  refine ⟨fun d => if (afterExpiry expired now d).id ∈ live
    then leaseRow cfg workerId now (afterExpiry expired now d) else afterExpiry expired now d, ?_,
    fun d hd => ?_⟩
  · have hrows : (expire expired now db.deliveries).rows =
        db.deliveries.rows.map (afterExpiry expired now) := Table.executemany_rows _ _ _ _ _
    refine (Table.updateWhere_rows (expire expired now db.deliveries) _
      (leaseRow cfg workerId now) fun _ => rfl).trans ?_
    rw [hrows, List.map_map]
    refine List.map_congr_left fun d _ => ?_
    simp only [Function.comp_apply, decide_eq_true_eq]
    rfl
  have hids : d.id ∈ live ↔ _ := live_ids hd
  rcases afterExpiry_cases scan locked simulationId now limit hd with
    ⟨hfresh, h⟩ | ⟨r, hr, rfl, o, ho, h⟩
  · simp only [expired, h]
    split
    · rename_i hm
      obtain ⟨r, hr, rfl⟩ := List.mem_map.mp (hids.mp hm)
      obtain ⟨hr, hlive⟩ := List.mem_filter.mp hr
      exact .leased hr rfl (Option.isNone_iff_eq_none.mp hlive)
    · rename_i hm
      refine .kept fun r hr hrd => hm (hids.mpr (List.mem_map.mpr ⟨r, ?_, hrd⟩))
      exact List.mem_filter.mpr ⟨hr, Option.isNone_iff_eq_none.mpr (hfresh r hr hrd)⟩
  · have hid : (expireRow now (staleReason o (r.maxStalenessS.getD 0)) r.delivery).id ∉ live :=
      fun hm => stale_not_live hr ho (hids.mp hm)
    simp only [expired, h, if_neg hid]
    exact .expired hr rfl ho

/-- A claim leases the rows it attempts, expires ready rows that went stale, and leaves every
other row alone. -/
theorem claimBatch_rows (cfg : Settings) (scan : ScanOrder) (locked : ℕ → Bool)
    (simulationId : SimulationId) (workerId : WorkerId) (now : ℚ) (limit : ℕ) (db : Db) :
    ∃ f : Delivery → Delivery,
    (claimBatch cfg scan locked simulationId workerId now limit db).1.deliveries.rows =
      db.deliveries.rows.map f ∧
    ∀ d ∈ db.deliveries.rows,
      (d ∈ (liveRows scan locked simulationId now limit db).map ClaimRow.delivery ∧
        f d = leaseRow cfg workerId now d) ∨
      (d ∉ (liveRows scan locked simulationId now limit db).map ClaimRow.delivery ∧
        (f d = d ∨ d.state = .ready ∧ ∃ reason, f d = expireRow now reason d)) := by
  obtain ⟨f, hf, htaken⟩ := claimBatch_taken cfg scan locked simulationId workerId now limit db
  refine ⟨f, hf, fun d hd => ?_⟩
  have ht := htaken d hd
  generalize f d = e at ht
  cases ht with
  | kept h =>
    refine Or.inr ⟨fun hm => ?_, Or.inl rfl⟩
    obtain ⟨r, hr, hrd⟩ := List.mem_map.mp hm
    exact h r (List.mem_of_mem_filter hr) hrd
  | @leased r hr hrd live =>
    have hin : r ∈ liveRows scan locked simulationId now limit db :=
      List.mem_filter.mpr ⟨hr, by rw [live]; rfl⟩
    exact Or.inl ⟨List.mem_map.mpr ⟨r, hin, hrd⟩, rfl⟩
  | @expired r o hr hrd stale =>
    subst hrd
    exact Or.inr ⟨stale_not_live hr stale, Or.inr ⟨(mem_claimRows hr).2.2, _, rfl⟩⟩

theorem mem_leased (cfg : Settings) (workerId : WorkerId) {r : ClaimRow}
    (hr : r ∈ liveRows scan locked simulationId now limit db) :
    leaseRow cfg workerId now r.delivery ∈
      (claimBatch cfg scan locked simulationId workerId now limit db).1.deliveries.rows := by
  obtain ⟨f, hf, hrow⟩ := claimBatch_rows cfg scan locked simulationId workerId now limit db
  obtain ⟨hd, -⟩ := mem_liveRows hr
  have hfd : f r.delivery = leaseRow cfg workerId now r.delivery := by
    rcases hrow _ hd with ⟨-, he⟩ | ⟨hn, -⟩
    · exact he
    · exact absurd (List.mem_map_of_mem hr) hn
  rw [hf, ← hfd]
  exact List.mem_map_of_mem hd

theorem claimBatch_attempts (cfg : Settings) (scan : ScanOrder) (locked : ℕ → Bool)
    (simulationId : SimulationId) (workerId : WorkerId) (now : ℚ) (limit : ℕ) (db : Db) :
    (claimBatch cfg scan locked simulationId workerId now limit db).1.attempts.rows =
      db.attempts.rows ++ ((liveRows scan locked simulationId now limit db).zipIdx
        db.attempts.next).map fun x => attemptRow simulationId workerId now x.2 x.1 := rfl

theorem claimBatch_claimed (cfg : Settings) (scan : ScanOrder) (locked : ℕ → Bool)
    (simulationId : SimulationId) (workerId : WorkerId) (now : ℚ) (limit : ℕ) (db : Db) :
    (claimBatch cfg scan locked simulationId workerId now limit db).2 =
      ((liveRows scan locked simulationId now limit db).zipIdx db.attempts.next).map
        fun x => claimedRow simulationId x.2 x.1 := rfl

end Claiming

section Completing

variable {completions : List Completion}

def closeRow (now : ℚ) (result : AttemptResult) (a : Attempt) : Attempt :=
  { a with finishedAt := some now, outcome := some result.outcome, statusCode := result.statusCode }

/-- The attempt a completion names is closed if it is still open; no other row moves. -/
theorem closeAttempts_rows (now : ℚ) (t : Table Attempt)
    (hn : (completions.map fun c => c.claimed.attemptId).Nodup) : ∃ f : Attempt → Attempt,
    (closeAttempts completions now t).rows = t.rows.map f ∧
    ∀ a, ((∀ c ∈ completions, c.claimed.attemptId ≠ a.id) → f a = a) ∧
      ∀ c ∈ completions, c.claimed.attemptId = a.id →
        f a = if a.isOpen then closeRow now c.result a else a := by
  refine ⟨_, Table.executemany_rows _ _ _ _ _, fun a => ⟨fun h => ?_, fun c hc hk => ?_⟩⟩
  · refine applyAll_of_notMem (k := fun c : Completion => c.claimed.attemptId) ?_ h
    intro x r hx
    simp only [Bool.and_eq_true, beq_iff_eq] at hx
    exact hx.1.symm
  · have h := applyAll_of_mem (k := fun c : Completion => c.claimed.attemptId)
      (p := fun c a => a.id == c.claimed.attemptId && a.isOpen)
      (f := fun c => closeRow now c.result) (r := a) ?_ (fun _ _ => rfl) hn hc hk
    · refine h.trans ?_
      simp only [hk, beq_self_eq_true, Bool.true_and]
    · intro x r hx
      simp only [Bool.and_eq_true, beq_iff_eq] at hx
      exact hx.1.symm

theorem settlements_perm (cfg : Settings) (now : ℚ) (completions : List Completion) :
    (settlements cfg now completions).Perm
    (completions.map fun c => (c.claimed.request.deliveryId, settlement cfg now c)) := by
  unfold settlements
  simp only []
  set all := completions.map fun c => (c.claimed.request.deliveryId, settlement cfg now c)
  clear_value all
  induction all with
  | nil => exact .nil
  | cons x all ih =>
    obtain ⟨i, s⟩ := x
    cases s with
    | delivered => exact ih.cons _
    | failed reason =>
      refine List.Perm.trans ?_ (ih.cons _)
      simp only [List.filter_cons, if_true, List.append_assoc, Bool.false_eq_true, if_false,
        List.cons_append]
      exact List.perm_middle
    | retry at_ =>
      refine List.Perm.trans ?_ (ih.cons _)
      simp only [List.filter_cons, if_true, Bool.false_eq_true, if_false]
      exact List.perm_middle

/-- The delivery a completion names is settled if this worker still holds it. -/
theorem completeBatch_rows (cfg : Settings) (workerId : WorkerId) (now : ℚ) (db : Db)
    (hn : (completions.map fun c => c.claimed.request.deliveryId).Nodup) :
    ∃ f : Delivery → Delivery,
    (completeBatch cfg workerId completions now db).deliveries.rows = db.deliveries.rows.map f ∧
    ∀ d, ((∀ c ∈ completions, c.claimed.request.deliveryId ≠ d.id) → f d = d) ∧
      ∀ c ∈ completions, c.claimed.request.deliveryId = d.id →
        f d = if held workerId d then settleRow now (settlement cfg now c) d else d := by
  have hp := settlements_perm cfg now completions
  have hk : ∀ (x : ℕ × Settlement) (d : Delivery),
      (d.id == x.1 && held workerId d) = true → x.1 = key d := by
    intro x d hx
    simp only [Bool.and_eq_true, beq_iff_eq] at hx
    exact hx.1.symm
  refine ⟨_, Table.executemany_rows _ _ _ _ _, fun d => ⟨fun h => ?_, fun c hc hcd => ?_⟩⟩
  · refine applyAll_of_notMem hk fun x hx => ?_
    obtain ⟨c, hc, rfl⟩ := List.mem_map.mp (hp.subset hx)
    exact h c hc
  · have hids : ((settlements cfg now completions).map Prod.fst).Nodup := by
      refine ((hp.map Prod.fst).nodup_iff).mpr ?_
      rw [List.map_map]
      exact hn
    rw [applyAll_of_mem hk (fun x d => settleRow_id now x.2 d) hids
      (hp.symm.subset (List.mem_map_of_mem hc)) hcd]
    simp [hcd]

end Completing

end WorkerClaim
