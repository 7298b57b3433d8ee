import WebhookRecovery.RecoverySchema

/-! Ingest: the ledger write and the fan-out, in one transaction. -/
namespace EventIngest

open KeyedTables RecoverySchema

structure EventSpec where
  eventType : String
  entityKey : String
  occurredAt : Option ℚ := none
  deriving DecidableEq, Repr

def eventRow (simulationId : SimulationId) (now : ℚ) (id : ℕ) (s : EventSpec) : Event :=
  ⟨id, simulationId, s.eventType, s.entityKey, s.occurredAt.getD now⟩

/-- One subscription lookup for the whole batch, by the types it contains. -/
def subscribersByType (simulationId : SimulationId) (eventTypes : List String) (cast : Cast)
    (eventType : String) : List ConsumerId :=
  ((cast.subscriptions.filter fun s =>
    s.simulationId == simulationId && decide (s.eventType ∈ eventTypes)).filter fun s =>
      s.eventType == eventType).map Subscription.consumerId

/-- Both timestamps start at the event's own: a first attempt is due immediately. -/
def deliveryRow (id : ℕ) (p : Event × ConsumerId) : Delivery where
  id := id
  simulationId := p.1.simulationId
  eventId := p.1.id
  consumerId := p.2
  eventType := p.1.eventType
  entityKey := p.1.entityKey
  nextAttemptAt := some p.1.occurredAt
  createdAt := p.1.occurredAt

def newEvents (simulationId : SimulationId) (now : ℚ) (specs : List EventSpec) (t : Table Event) :
    List Event :=
  (specs.zipIdx t.next).map fun x => eventRow simulationId now x.2 x.1

def fanOut (simulationId : SimulationId) (specs : List EventSpec) (cast : Cast)
    (events : List Event) : List (Event × ConsumerId) :=
  events.flatMap fun e =>
    (subscribersByType simulationId (specs.map EventSpec.eventType) cast e.eventType).map
      fun c => (e, c)

/-- Ledger each event and fan it out to every subscribed consumer. -/
def ingestEvents (simulationId : SimulationId) (now : ℚ) (specs : List EventSpec) (db : Db) : Db :=
  let events := newEvents simulationId now specs db.events
  { db with
    events := db.events.insertAll specs (eventRow simulationId now) (fun _ _ => rfl)
    deliveries := db.deliveries.insertAll (fanOut simulationId specs db.cast events) deliveryRow
      (fun _ _ => rfl) }

theorem ingestEvents_events (simulationId : SimulationId) (now : ℚ) (specs : List EventSpec)
    (db : Db) : (ingestEvents simulationId now specs db).events.rows =
      db.events.rows ++ newEvents simulationId now specs db.events := rfl

theorem ingestEvents_deliveries (simulationId : SimulationId) (now : ℚ) (specs : List EventSpec)
    (db : Db) : (ingestEvents simulationId now specs db).deliveries.rows =
      db.deliveries.rows ++ ((fanOut simulationId specs db.cast
        (newEvents simulationId now specs db.events)).zipIdx db.deliveries.next).map
          fun x => deliveryRow x.2 x.1 := rfl

theorem ingestEvents_filter (i σ : SimulationId) (now : ℚ) (specs : List EventSpec) (db : Db) :
    (ingestEvents i now specs db).events.rows.filter (fun e => e.simulationId == σ) =
      db.events.rows.filter (fun e => e.simulationId == σ) ++
        if i = σ then newEvents i now specs db.events else [] := by
  have hsim : ∀ e ∈ newEvents i now specs db.events, e.simulationId = i := by
    intro e he
    obtain ⟨x, -, rfl⟩ := List.mem_map.mp he
    rfl
  rw [ingestEvents_events, List.filter_append]
  refine congrArg _ ?_
  split
  · rename_i hi
    exact List.filter_eq_self.mpr fun e he => beq_iff_eq.mpr ((hsim e he).trans hi)
  · rename_i hi
    apply List.filter_eq_nil_iff.mpr
    intro e he hσ
    exact hi ((hsim e he).symm.trans (beq_iff_eq.mp hσ))

def subscribersOf (cast : Cast) (e : Event) : List ConsumerId :=
  (cast.subscriptions.filter fun s =>
    s.simulationId == e.simulationId && s.eventType == e.eventType).map Subscription.consumerId

def pairsOf (cast : Cast) (events : List Event) : List (ℕ × ConsumerId) :=
  events.flatMap fun e => (subscribersOf cast e).map fun c => (e.id, c)

def Delivery.pair (d : Delivery) : ℕ × ConsumerId := (d.eventId, d.consumerId)

theorem subscribersByType_eq {simulationId : SimulationId} {specs : List EventSpec} {cast : Cast}
    {e : Event} (hs : e.simulationId = simulationId)
    (ht : e.eventType ∈ specs.map EventSpec.eventType) :
    subscribersByType simulationId (specs.map EventSpec.eventType) cast e.eventType =
      subscribersOf cast e := by
  rw [subscribersByType, subscribersOf, List.filter_filter]
  refine congrArg (List.map Subscription.consumerId) (List.filter_congr fun s _ => ?_)
  by_cases hk : s.eventType = e.eventType
  · simp [hk, ht, hs]
  · have hb : (s.eventType == e.eventType) = false := by simpa using hk
    simp [hb]

/-- The fan-out inserts exactly the pairs that the new events owe. -/
theorem fanOut_pairs (simulationId : SimulationId) (now : ℚ) (specs : List EventSpec) (db : Db) :
    (((fanOut simulationId specs db.cast (newEvents simulationId now specs db.events)).zipIdx
      db.deliveries.next).map fun x => deliveryRow x.2 x.1).map Delivery.pair =
      pairsOf db.cast (newEvents simulationId now specs db.events) := by
  have hfst : ∀ l : List (Event × ConsumerId), ((l.zipIdx db.deliveries.next).map
      fun x => deliveryRow x.2 x.1).map Delivery.pair = l.map fun p => (p.1.id, p.2) := by
    intro l
    conv_rhs => rw [← List.zipIdx_map_fst db.deliveries.next l]
    rw [List.map_map, List.map_map]
    rfl
  rw [hfst, fanOut, pairsOf, List.map_flatMap]
  refine List.flatMap_congr fun e he => ?_
  obtain ⟨x, hx, rfl⟩ := List.mem_map.mp he
  have hsub : subscribersByType simulationId (specs.map EventSpec.eventType) db.cast
      (eventRow simulationId now x.2 x.1).eventType = subscribersOf db.cast _ :=
    subscribersByType_eq rfl (List.mem_map.mpr ⟨x.1, List.fst_mem_of_mem_zipIdx hx, rfl⟩)
  rw [List.map_map, hsub]
  rfl

end EventIngest
