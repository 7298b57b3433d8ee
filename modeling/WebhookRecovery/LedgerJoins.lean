import WebhookRecovery.TerminalReasons

/-! What the ledger and the queue say of each other. A delivery has copies of its event's columns,
so that nothing on the delivery path joins the two, and an event has one delivery for each of its
subscribers, in the order of the subscriptions. -/
namespace LedgerJoins

open KeyedTables RecoverySchema InterleavedPrograms DeliveryPolicy EventIngest DeliveryPipeline
open DeliveryFile PipelineInvariant DeliveryLifecycle TerminalReasons

/-- The columns that ingest copies off the event, which the queue's own then start from. -/
structure Mirrors (e : Event) (d : Delivery) : Prop where
  event : d.eventId = e.id
  simulation : d.simulationId = e.simulationId
  eventType : d.eventType = e.eventType
  entityKey : d.entityKey = e.entityKey
  createdAt : d.createdAt = e.occurredAt

def Mirrored (db : Db) : Prop := ∀ d ∈ db.deliveries.rows, ∃ e ∈ db.events.rows, Mirrors e d

section Runs

variable {cfg : Settings} {s t : State} {e : Action}

theorem step_mirrored (hi : Invariant cfg s) (hs : Mirrored s.db) (h : Step cfg s e t) :
    Mirrored t.db := by
  obtain ⟨-, -, posted, -, -, -, hevents, -⟩ := (step_effect hi h).deliveries
  intro d' hd'
  rcases step_inserts hi h hd' with ⟨d, hd, hmove⟩ | ⟨n, p, hp, rfl⟩
  · obtain ⟨-, hsim, hevent, -, hcand⟩ := hmove.identity
    simp only [candidateOf, Candidate.mk.injEq] at hcand
    obtain ⟨-, -, htype, hkey, hat⟩ := hcand
    obtain ⟨x, hx, hm⟩ := hs d hd
    refine ⟨x, ?_, ?_⟩
    · rw [hevents]
      exact List.mem_append_left _ hx
    · exact ⟨hevent.trans hm.event, hsim.trans hm.simulation, htype.trans hm.eventType,
        hkey.trans hm.entityKey, hat.trans hm.createdAt⟩
  · exact ⟨p.1, hp, rfl, rfl, rfl, rfl, rfl⟩

theorem reachable_mirrored (h : (system cfg).Reachable s) : Mirrored s.db := by
  apply h.invariant (P := fun s => Mirrored s.db)
  · rintro _ ⟨cast, sims, rfl⟩ d hd
    cases hd
  · exact fun _ _ _ hr hs he => step_mirrored (reachable_invariant hr) hs he

end Runs

section Fanout

variable {db : Db} {e : Event} {d : Delivery}

theorem deliveries_of_event (h : Conserved db) (he : e ∈ db.events.rows) :
    ((db.deliveries.rows.filter fun d => d.eventId == e.id).map Delivery.consumerId) =
      subscribersOf db.cast e := by
  have hkeys : (db.events.rows.map Event.id).Nodup := db.events.nodup_keys
  have hpairs : (pairsOf db.cast db.events.rows).filter (fun p => p.1 == e.id) =
      (subscribersOf db.cast e).map fun c => (e.id, c) := by
    refine flatMap_filter_of_mem (g := fun p : ℕ × ConsumerId => p.1) hkeys (fun x _ p hp => ?_) he
    obtain ⟨c, -, rfl⟩ := List.mem_map.mp hp
    rfl
  rw [← h, List.filter_map] at hpairs
  have hcon := congrArg (List.map Prod.snd) hpairs
  rw [List.map_map, List.map_map] at hcon
  exact hcon.trans (List.map_id' _)

theorem Mirrors.unique {e' : Event} (h : Mirrors e d) (he : e ∈ db.events.rows)
    (he' : e' ∈ db.events.rows) (hid : d.eventId = e'.id) : e' = e :=
  db.events.row_unique he' he (hid.symm.trans h.event)

theorem subscribed_of_mirrored (hc : Conserved db) (hm : Mirrored db)
    (hd : d ∈ db.deliveries.rows) :
    ⟨d.simulationId, d.consumerId, d.eventType⟩ ∈ db.cast.subscriptions := by
  obtain ⟨e, he, hmirror⟩ := hm d hd
  have hmem : Delivery.pair d ∈ pairsOf db.cast db.events.rows := by
    rw [← hc]
    exact List.mem_map_of_mem hd
  obtain ⟨e', he', hid, hsub⟩ := mem_pairsOf.mp hmem
  obtain rfl := hmirror.unique he he' hid.symm
  rw [hmirror.simulation, hmirror.eventType]
  exact hsub

/-- Of an event's deliveries, one goes to each subscriber, in the event's own simulation. -/
theorem countP_of_event (hc : Conserved db) (hm : Mirrored db) (he : e ∈ db.events.rows)
    (σ : SimulationId) (c : ConsumerId) :
    (db.deliveries.rows.countP fun d =>
        (d.simulationId == σ && decide (d.consumerId = c)) && decide (d.eventId = e.id)) =
      if e.simulationId == σ && decide (c ∈ subscribersOf db.cast e) then 1 else 0 := by
  have hsame : ∀ d ∈ db.deliveries.rows, d.eventId = e.id → d.simulationId = e.simulationId := by
    intro d hd hid
    obtain ⟨x, hx, hmirror⟩ := hm d hd
    obtain rfl := hmirror.unique hx he hid
    exact hmirror.simulation
  by_cases hσ : e.simulationId = σ
  · have hcount : (db.deliveries.rows.countP fun d =>
        (d.simulationId == σ && decide (d.consumerId = c)) && decide (d.eventId = e.id)) =
          (subscribersOf db.cast e).count c := by
      rw [← deliveries_of_event hc he, List.count, List.countP_map, List.countP_filter]
      refine List.countP_congr fun d hd => ?_
      by_cases hid : d.eventId = e.id
      · simp [hid, hsame d hd hid, hσ]
      · simp [hid]
    rw [hcount, (subscribersOf_nodup db.cast e).count]
    simp [hσ]
  · have hnone : (db.deliveries.rows.countP fun d =>
        (d.simulationId == σ && decide (d.consumerId = c)) && decide (d.eventId = e.id)) = 0 := by
      refine List.countP_eq_zero.mpr fun d hd hb => hσ ?_
      simp only [Bool.and_eq_true, beq_iff_eq, decide_eq_true_eq] at hb
      exact (hsame d hd hb.2).symm.trans hb.1.1
    rw [hnone]
    simp [hσ]

theorem countP_deliveries (hc : Conserved db) (hm : Mirrored db) (σ : SimulationId)
    (c : ConsumerId) :
    (db.deliveries.rows.countP fun d => d.simulationId == σ && decide (d.consumerId = c)) =
      db.events.rows.countP fun e =>
        e.simulationId == σ && decide (c ∈ subscribersOf db.cast e) := by
  have hkeys : (db.events.rows.map Event.id).Nodup := db.events.nodup_keys
  have hall : (db.deliveries.rows.countP fun d =>
        d.simulationId == σ && decide (d.consumerId = c)) =
      db.deliveries.rows.countP fun d => (d.simulationId == σ && decide (d.consumerId = c)) &&
        decide (d.eventId ∈ db.events.rows.map Event.id) := by
    refine (((countP_and_eq_iff _ _ _).mpr fun d hd _ => decide_eq_true ?_)).symm
    obtain ⟨x, hx, hmirror⟩ := hm d hd
    rw [hmirror.event]
    exact List.mem_map_of_mem hx
  rw [hall, ← sum_countP_fibers _ _ _ hkeys, List.map_map, countP_eq_sum _ db.events.rows]
  refine congrArg List.sum (List.map_congr_left fun x hx => ?_)
  exact countP_of_event hc hm hx σ c

end Fanout

end LedgerJoins
