import WebhookRecovery.ScenarioDrops
import WebhookRecovery.OrderedMaps
import WebhookRecovery.ClockControl
import Mathlib.Algebra.BigOperators.Group.List.Lemmas

/-! What the api answers from the queue and the ledger while the pipeline runs: the receipt of an
event, the cards of the consumers and the feed of the newest decisions. -/
namespace ReadPlane

open KeyedTables OrderedMaps RecoverySchema InterleavedPrograms EventIngest ConductorPass
open MetricsSeries DeliveryPipeline DeliveryFile PipelineInvariant DeliveryLifecycle LedgerJoins
open VirtualClock ConsistentRows ScenarioSeed ScenarioDrops

/-- `occurred_at` is not a field: it is assigned from the simulation's clock. -/
structure EventCreate where
  eventType : String
  entityKey : String
  type_short : eventType.length ≤ 64
  key_short : entityKey.length ≤ 128

structure EventRead where
  id : ℕ
  simulationId : SimulationId
  eventType : String
  entityKey : String
  occurredAt : ℚ
  deliveryCount : ℕ
  deriving DecidableEq, Repr

structure ConsumerRead where
  id : ConsumerId
  name : String
  weight : ℚ
  concurrencyCap : ℕ
  maxAttemptsPerS : ℚ
  backlog : ℕ
  inFlight : ℕ
  delivered : ℕ
  expired : ℕ
  superseded : ℕ
  failed : ℕ
  caughtUpAfterS : Option ℚ := none
  deriving DecidableEq, Repr

structure DecisionRead where
  deliveryId : ℕ
  consumerId : ConsumerId
  consumerName : String
  eventType : String
  entityKey : String
  state : DeliveryState
  terminalReason : Option String
  attemptCount : ℕ
  occurredAt : ℚ
  completedAt : ℚ
  deriving DecidableEq, Repr

def DECISIONS_DEFAULT_LIMIT : ℕ := 50
def DECISIONS_MAX_LIMIT : ℕ := 200

abbrev Limit := {n : ℕ // 1 ≤ n ∧ n ≤ DECISIONS_MAX_LIMIT}

def defaultLimit : Limit := ⟨DECISIONS_DEFAULT_LIMIT, by decide⟩

def loadSimulation (simulationId : SimulationId) (db : Db) : Option Simulation :=
  db.simulations.find? fun sim => sim.id == simulationId

def createEvent (simulationId : SimulationId) (atWall : ℚ) (body : EventCreate) (db : Db) :
    Option (Db × EventRead) := do
  let sim ← loadSimulation simulationId db
  let now := nowAt (fromRow sim) atWall
  let specs := [⟨body.eventType, body.entityKey, none⟩]
  let event ← (newEvents sim.id now specs db.events).head?
  let posted := ingestEvents sim.id now specs db
  return (posted,
    { id := event.id
      simulationId := simulationId
      eventType := event.eventType
      entityKey := event.entityKey
      occurredAt := event.occurredAt
      deliveryCount := posted.deliveries.rows.countP fun d => d.eventId == event.id })

def stateCounts (simulationId : SimulationId) (db : Db) : List ((ConsumerId × DeliveryState) × ℕ) :=
  groupCount ((db.deliveries.rows.filter fun d => d.simulationId == simulationId).map
    fun d => (d.consumerId, d.state))

def backlogOf (counts : List ((ConsumerId × DeliveryState) × ℕ)) (c : ConsumerId) : ℕ :=
  countOf counts (c, .pending) + countOf counts (c, .ready) + countOf counts (c, .inFlight)

def toConsumerRead (counts : List ((ConsumerId × DeliveryState) × ℕ)) (c : ConsumerRow) :
    ConsumerRead where
  id := c.id
  name := c.name
  weight := c.weight
  concurrencyCap := c.concurrencyCap
  maxAttemptsPerS := c.maxAttemptsPerS
  backlog := backlogOf counts c.id
  inFlight := countOf counts (c.id, .inFlight)
  delivered := countOf counts (c.id, .delivered)
  expired := countOf counts (c.id, .expired)
  superseded := countOf counts (c.id, .superseded)
  failed := countOf counts (c.id, .failed)

/-- Rows are kept by primary key, which is the order of the cards. -/
def listConsumers (r : Registry) (simulationId : SimulationId) (db : Db) :
    Option (List ConsumerRead) := do
  let _ ← loadSimulation simulationId db
  let consumers := r.consumersOf simulationId
  if consumers.isEmpty then return []
  return consumers.map (toConsumerRead (stateCounts simulationId db))

def decisionOf (r : Registry) (db : Db) (d : Delivery) : Option DecisionRead := do
  let completedAt ← d.completedAt
  let c ← r.consumers.rows.find? fun c => c.id == d.consumerId
  let e ← db.events.rows.find? fun e => e.id == d.eventId
  return {
    deliveryId := d.id
    consumerId := d.consumerId
    consumerName := c.name
    eventType := d.eventType
    entityKey := d.entityKey
    state := d.state
    terminalReason := d.terminalReason
    attemptCount := d.attemptCount
    occurredAt := e.occurredAt
    completedAt := completedAt }

def decided (r : Registry) (simulationId : SimulationId) (db : Db) : List DecisionRead :=
  (db.deliveries.rows.filter fun d => d.simulationId == simulationId && d.state.terminal).filterMap
    (decisionOf r db)

def DecisionRead.place (x : DecisionRead) : (ℚ ×ₗ ℕ)ᵒᵈ :=
  OrderDual.toDual (toLex (x.completedAt, x.deliveryId))

def readDecisions (r : Registry) (simulationId : SimulationId) (limit : Limit) (db : Db) :
    Option (List DecisionRead) := do
  let _ ← loadSimulation simulationId db
  return (sortBy DecisionRead.place (decided r simulationId db)).take limit

section Receipts

variable {cfg : Settings} {σ : SimulationId} {atWall : ℚ} {body : EventCreate} {db db' : Db}
variable {read : EventRead}

theorem createEvent_spec (h : createEvent σ atWall body db = some (db', read)) :
    ∃ sim ∈ db.simulations, sim.id = σ ∧
      db' = ingestEvents σ (nowAt (fromRow sim) atWall)
        [⟨body.eventType, body.entityKey, none⟩] db ∧
      ∃ e ∈ db'.events.rows, e.id = db.events.next ∧ e.id = read.id ∧ e.simulationId = σ ∧
        e.eventType = body.eventType ∧ read.occurredAt = nowAt (fromRow sim) atWall ∧
        read.deliveryCount = db'.deliveries.rows.countP fun d => d.eventId == e.id := by
  simp only [createEvent, Option.bind_eq_bind, Option.bind_eq_some_iff] at h
  obtain ⟨sim, hsim, e, he, hres⟩ := h
  have hid : sim.id = σ := by simpa using List.find?_some hsim
  subst hid
  obtain rfl := Option.some.inj he
  obtain ⟨rfl, rfl⟩ := Prod.mk.inj (Option.some.inj hres)
  refine ⟨sim, List.mem_of_find?_eq_some hsim, rfl, rfl, _, ?_, rfl, rfl, rfl, rfl, rfl, rfl⟩
  rw [ingestEvents_events]
  exact List.mem_append_right _ List.mem_cons_self

end Receipts

/-- The receipt of an event is one ingest of the pipeline, at the instant that the simulation's
clock reads and under an identifier that is new, and the number of deliveries in it stays right:
whatever happens afterwards, so many are there for the event, one for each consumer of the
constants table that subscribes to its type. -/
theorem receipt_holds (cfg : Settings) (roster : Roster) (ids : List SimulationId) {s : State}
    (h : (system cfg).Reachable s) (hcast : s.db.cast = (seedAll roster ids .empty).cast)
    {σ : SimulationId} (hσ : σ ∈ ids) {atWall : ℚ} {body : EventCreate} {db' : Db}
    {read : EventRead} (hc : createEvent σ atWall body s.db = some (db', read)) :
    (∀ e ∈ s.db.events.rows, e.id ≠ read.id) ∧
    (∃ sim ∈ s.db.simulations, sim.id = σ ∧ read.occurredAt = nowAt (fromRow sim) atWall ∧
      Step cfg s (.ingest σ read.occurredAt [⟨body.eventType, body.entityKey, none⟩])
        { s with db := db' }) ∧
    ∀ t, (system cfg).Execution { s with db := db' } t →
      (t.db.deliveries.rows.countP fun d => d.eventId == read.id) = read.deliveryCount ∧
      read.deliveryCount =
        roster.specs.countP fun spec => decide (body.eventType ∈ spec.subscribesTo) := by
  obtain ⟨sim, hin, hσsim, hdb, e, he, hnext, hid, hsim, htype, hat, hcount⟩ := createEvent_spec hc
  have hstep : Step cfg s (.ingest σ read.occurredAt [⟨body.eventType, body.entityKey, none⟩])
      { s with db := db' } := by
    refine ⟨trivial, ?_⟩
    rw [hdb, hat]
    rfl
  have hr : (system cfg).Reachable { s with db := db' } := h.trans (.single ⟨_, hstep⟩)
  have hcast' : db'.cast = (seedAll roster ids .empty).cast := by
    rw [hdb]
    exact hcast
  -- what a run owes for the event, at any time
  have howed : ∀ t, (system cfg).Execution { s with db := db' } t →
      (t.db.deliveries.rows.countP fun d => d.eventId == e.id) =
        roster.specs.countP fun spec => decide (body.eventType ∈ spec.subscribesTo) := by
    intro t ht
    obtain ⟨htcast, htevents⟩ := execution_ledger hr ht
    have hsubs := deliveries_of_event (reachable_conserved (hr.trans ht)) (htevents e he)
    have htcast : t.db.cast = (seedAll roster ids .empty).cast := htcast.trans hcast'
    obtain ⟨placed, hplaced, hmem⟩ := seedAll_placed ids (empty_placed roster)
    obtain ⟨⟨i, n⟩, hx, rfl⟩ := List.mem_map.mp ((hmem σ).mpr (Or.inr hσ))
    have hlen := congrArg List.length hsubs
    rw [htcast, subscribersOf_seeded (hplaced.seeded hx) hsim, htype, List.length_map] at hlen
    rw [List.countP_eq_length_filter, hlen, subscribing, List.length_map,
      ← List.countP_eq_length_filter]
    conv_rhs => rw [← List.zipIdx_map_fst n roster.specs]
    rw [List.countP_map]
    rfl
  refine ⟨fun x hx hxe => ?_, ⟨sim, hin, hσsim, hat, hstep⟩, fun t ht => ?_⟩
  · have hlt : x.id < s.db.events.next := s.db.events.bounded x hx
    rw [hxe, ← hid, hnext] at hlt
    exact lt_irrefl _ hlt
  · have hnow := howed _ .refl
    rw [← hid, hcount]
    exact ⟨(howed t ht).trans hnow.symm, hnow⟩

section Cards

variable {σ : SimulationId} {db : Db} {c : ConsumerId} {st : DeliveryState}

theorem countOf_stateCounts : countOf (stateCounts σ db) (c, st) =
    db.deliveries.rows.countP fun d =>
      (d.simulationId == σ && decide (d.consumerId = c)) && decide (d.state = st) := by
  rw [stateCounts, countOf_groupCount_map]
  refine List.countP_congr fun d _ => ?_
  simp only [Prod.mk.injEq, Bool.decide_and, Bool.and_assoc]

theorem countOf_readGauges (h : st.active) :
    countOf (readGauges σ db) (c, st) = countOf (stateCounts σ db) (c, st) := by
  rw [readGauges, countOf_groupCount_map, stateCounts, countOf_groupCount_map]
  refine List.countP_congr fun d _ => ?_
  by_cases hs : (d.consumerId, d.state) = (c, st)
  · obtain ⟨-, rfl⟩ := Prod.mk.inj hs
    simp [hs, h]
  · simp [hs]

theorem sum_stateCounts (σ : SimulationId) (db : Db) (c : ConsumerId) {states : List DeliveryState}
    (hn : states.Nodup) :
    (states.map fun st => countOf (stateCounts σ db) (c, st)).sum =
      db.deliveries.rows.countP fun d =>
        (d.simulationId == σ && decide (d.consumerId = c)) && decide (d.state ∈ states) := by
  simp only [countOf_stateCounts]
  exact sum_countP_fibers _ _ _ hn

/-- A card accounts for each delivery of its consumer once. -/
theorem card_total : backlogOf (stateCounts σ db) c + countOf (stateCounts σ db) (c, .delivered) +
    countOf (stateCounts σ db) (c, .expired) + countOf (stateCounts σ db) (c, .superseded) +
    countOf (stateCounts σ db) (c, .failed) =
      db.deliveries.rows.countP fun d => d.simulationId == σ && decide (d.consumerId = c) := by
  have hnodup : [DeliveryState.pending, .ready, .inFlight, .delivered, .expired, .superseded,
    .failed].Nodup := by decide
  have hsum := sum_stateCounts σ db c hnodup
  have hevery : ∀ st : DeliveryState, st ∈ [DeliveryState.pending, .ready, .inFlight, .delivered,
      .expired, .superseded, .failed] := by
    intro st
    cases st <;> decide
  simp only [hevery, decide_true, Bool.and_true, List.map_cons, List.map_nil, List.sum_cons,
    List.sum_nil] at hsum
  rw [← hsum, backlogOf]
  omega

theorem backlogOf_eq : backlogOf (stateCounts σ db) c = db.deliveries.rows.countP fun d =>
    (d.simulationId == σ && d.state.active) && decide (d.consumerId = c) := by
  have hnodup : [DeliveryState.pending, .ready, .inFlight].Nodup := by decide
  have hsum := sum_stateCounts σ db c hnodup
  have hactive : ∀ st : DeliveryState,
      decide (st ∈ [DeliveryState.pending, .ready, .inFlight]) = st.active := by
    intro st
    cases st <;> decide
  simp only [hactive, List.map_cons, List.map_nil, List.sum_cons, List.sum_nil] at hsum
  rw [backlogOf, add_assoc]
  exact hsum.trans (List.countP_congr fun d _ => by rw [Bool.and_right_comm])

theorem totalBacklog_eq : totalBacklog (readGauges σ db) =
    db.deliveries.rows.countP fun d => d.simulationId == σ && d.state.active := by
  rw [totalBacklog, readGauges, groupCount, List.map_map]
  exact (List.sum_map_count_dedup_eq_length _).trans
    ((List.length_map _).trans List.countP_eq_length_filter.symm)

theorem listConsumers_spec {r : Registry} {cards : List ConsumerRead}
    (h : listConsumers r σ db = some cards) :
    cards = (r.consumersOf σ).map (toConsumerRead (stateCounts σ db)) := by
  simp only [listConsumers, Option.bind_eq_bind, Option.bind_eq_some_iff] at h
  obtain ⟨-, -, h⟩ := h
  split at h
  · rename_i hnil
    rw [List.isEmpty_iff.mp hnil]
    exact (Option.some.inj h).symm
  · exact (Option.some.inj h).symm

end Cards

/-- The cards of a simulation account for its ledger, whatever the pipeline is doing: of the events
that a consumer subscribes to, each is in one column of its card. Their backlogs add up to the one
that decides whether the run is over, and each is what the chart would sample. -/
theorem cards_balance (cfg : Settings) (roster : Roster) (ids : List SimulationId) {s : State}
    (h : (system cfg).Reachable s) (hcast : s.db.cast = (seedAll roster ids .empty).cast)
    {σ : SimulationId} {cards : List ConsumerRead}
    (hl : listConsumers (seedAll roster ids .empty) σ s.db = some cards) :
    (∀ k ∈ cards, k.backlog + k.delivered + k.expired + k.superseded + k.failed =
      s.db.events.rows.countP fun e =>
        e.simulationId == σ && decide (k.id ∈ subscribersOf s.db.cast e)) ∧
    (cards.map ConsumerRead.backlog).sum = totalBacklog (readGauges σ s.db) ∧
    ∀ attempts terminals consumers start stop, ∀ m ∈
      snapshotRows σ (readGauges σ s.db) attempts terminals consumers start stop,
        ∀ k ∈ cards, k.id = m.consumerId → m.backlog = k.backlog ∧ m.inFlight = k.inFlight := by
  obtain ⟨placed, hplaced, -⟩ := seedAll_placed ids (empty_placed roster)
  have hconserved := reachable_conserved h
  have hmirrored := reachable_mirrored h
  obtain rfl := listConsumers_spec hl
  refine ⟨fun k hk => ?_, ?_, fun attempts terminals consumers start stop m hm k hk hid => ?_⟩
  · obtain ⟨c, -, rfl⟩ := List.mem_map.mp hk
    exact card_total.trans (countP_deliveries hconserved hmirrored σ c.id)
  · set l := (seedAll roster ids .empty).consumersOf σ with hldef
    have hkeys : (l.map fun c => c.id).Nodup :=
      (List.filter_sublist.map _).nodup (seedAll roster ids .empty).consumers.nodup_keys
    have hsum := sum_countP_fibers s.db.deliveries.rows
      (fun d => d.simulationId == σ && d.state.active) Delivery.consumerId hkeys
    -- a simulation's deliveries are for its own consumers
    have hown : ∀ d ∈ s.db.deliveries.rows, (d.simulationId == σ && d.state.active) →
        decide (d.consumerId ∈ l.map fun c => c.id) := by
      intro d hd hb
      simp only [Bool.and_eq_true, beq_iff_eq] at hb
      have hsub := subscribed_of_mirrored hconserved hmirrored hd
      rw [hcast] at hsub
      obtain ⟨c, hc, hid, hsim, -⟩ := subscription_spec hplaced hsub
      refine decide_eq_true (List.mem_map.mpr ⟨c, List.mem_filter.mpr ⟨hc, ?_⟩, hid⟩)
      exact beq_iff_eq.mpr (hsim.trans hb.1)
    rw [totalBacklog_eq, ← (countP_and_eq_iff _ _ _).mpr hown, ← hsum, List.map_map, List.map_map]
    refine congrArg List.sum (List.map_congr_left fun c _ => ?_)
    exact backlogOf_eq
  · obtain ⟨c, -, rfl⟩ := List.mem_map.mp hk
    obtain ⟨i, -, hm⟩ := List.mem_flatMap.mp hm
    obtain ⟨b, -, rfl⟩ := List.mem_map.mp hm
    have hid : c.id = i := hid
    subst hid
    dsimp only [toConsumerRead, backlogOf]
    rw [countOf_readGauges rfl, countOf_readGauges rfl, countOf_readGauges rfl]
    exact ⟨rfl, rfl⟩

section Decisions

variable {cfg : Settings} {r : Registry} {σ : SimulationId} {s t : State} {limit : Limit}
variable {page : List DecisionRead} {d : Delivery} {x : DecisionRead} {db : Db}

theorem readDecisions_spec (h : readDecisions r σ limit db = some page) :
    page = (sortBy DecisionRead.place (decided r σ db)).take limit := by
  simp only [readDecisions, Option.bind_eq_bind, Option.bind_eq_some_iff] at h
  obtain ⟨-, -, h⟩ := h
  exact (Option.some.inj h).symm

theorem decisionOf_spec : decisionOf r db d = some x ↔ ∃ c ∈ r.consumers.rows, ∃ e ∈ db.events.rows,
    c.id = d.consumerId ∧ e.id = d.eventId ∧ d.completedAt = some x.completedAt ∧
      x = ⟨d.id, d.consumerId, c.name, d.eventType, d.entityKey, d.state, d.terminalReason,
        d.attemptCount, e.occurredAt, x.completedAt⟩ := by
  simp only [decisionOf, Option.bind_eq_bind, Option.bind_eq_some_iff]
  constructor
  · rintro ⟨at_, hat, c, hc, e, he, hx⟩
    obtain rfl := Option.some.inj hx
    exact ⟨c, List.mem_of_find?_eq_some hc, e, List.mem_of_find?_eq_some he,
      by simpa using List.find?_some hc, by simpa using List.find?_some he, hat, rfl⟩
  · rintro ⟨c, hc, e, he, hcd, hed, hat, hx⟩
    refine ⟨x.completedAt, hat, c, ?_, e, ?_, congrArg some hx.symm⟩
    · rw [← hcd]
      exact r.consumers.find?_key hc
    · rw [← hed]
      exact db.events.find?_key he

theorem mem_decided : x ∈ decided r σ db ↔ ∃ d ∈ db.deliveries.rows, d.simulationId = σ ∧
    d.state.terminal ∧ decisionOf r db d = some x := by
  simp only [decided, List.mem_filterMap, List.mem_filter, Bool.and_eq_true, beq_iff_eq, and_assoc]

theorem decided_places : ((decided r σ db).map DecisionRead.place).Nodup := by
  have hids : ∀ l : List Delivery, ((l.filterMap (decisionOf r db)).map
      DecisionRead.deliveryId).Sublist (l.map Delivery.id) := by
    intro l
    induction l with
    | nil => exact .slnil
    | cons d l ih =>
      rw [List.filterMap_cons]
      cases hx : decisionOf r db d with
      | none => exact ih.cons _
      | some x =>
        obtain ⟨c, -, e, -, -, -, -, hx⟩ := decisionOf_spec.mp hx
        rw [List.map_cons, List.map_cons, hx]
        exact ih.cons_cons _
  have hnodup : ((decided r σ db).map DecisionRead.deliveryId).Nodup :=
    ((hids _).trans (List.filter_sublist.map _)).nodup db.deliveries.nodup_keys
  rw [List.Nodup, List.pairwise_map] at hnodup ⊢
  exact hnodup.imp fun hne he => hne (Prod.mk.inj (OrderDual.toDual_inj.mp he)).2

/-- The joins find a consumer and an event for each delivery that has ended. -/
theorem ended_decision (h : (system cfg).Reachable s) (hcast : s.db.cast = r.cast)
    (hd : d ∈ s.db.deliveries.rows) (ht : d.state.terminal) :
    ∃ x, decisionOf r s.db d = some x ∧ x.deliveryId = d.id ∧ x.occurredAt = d.createdAt := by
  have hmirrored := reachable_mirrored h
  obtain ⟨at_, hat⟩ := Option.isSome_iff_exists.mp
    ((notStranded_of_sound ((reachable_invariant h).files d hd)).completed.mpr ht)
  have hsub := subscribed_of_mirrored (reachable_conserved h) hmirrored hd
  rw [hcast] at hsub
  obtain ⟨c, hc, hcd⟩ := r.subscription_consumer _ hsub
  obtain ⟨e, he, hm⟩ := hmirrored d hd
  refine ⟨⟨d.id, d.consumerId, c.name, d.eventType, d.entityKey, d.state, d.terminalReason,
    d.attemptCount, e.occurredAt, at_⟩, ?_, rfl, hm.createdAt.symm⟩
  exact decisionOf_spec.mpr ⟨c, hc, e, he, hcd, hm.event.symm, hat, rfl⟩

theorem decisionOf_later (h : (system cfg).Reachable s) (hx : (system cfg).Execution s t)
    (hdec : decisionOf r s.db d = some x) : decisionOf r t.db d = some x := by
  obtain ⟨c, hc, e, he, hrest⟩ := decisionOf_spec.mp hdec
  exact decisionOf_spec.mpr ⟨c, hc, e, (execution_ledger h hx).2 e he, hrest⟩

end Decisions

/-- The feed shows each decision of its simulation once and newest first, and the joins of the query
lose none. A decision that was made stays in it for good, as it is, until as many newer ones as the
page holds have taken its place. -/
theorem decision_feed (cfg : Settings) (r : Registry) {s : State} (h : (system cfg).Reachable s)
    (hcast : s.db.cast = r.cast) (σ : SimulationId) (limit : Limit) {d : Delivery}
    (hd : d ∈ s.db.deliveries.rows) (hσ : d.simulationId = σ) (ht : d.state.terminal) :
    ∃ x, decisionOf r s.db d = some x ∧ x.deliveryId = d.id ∧ x.occurredAt = d.createdAt ∧
    ∀ t, (system cfg).Execution s t → ∀ page, readDecisions r σ limit t.db = some page →
      page.Pairwise (fun y z => y.place < z.place) ∧
      (∀ y ∈ page, ∃ d ∈ t.db.deliveries.rows, d.simulationId = σ ∧ d.state.terminal ∧
        decisionOf r t.db d = some y) ∧
      (x ∈ page ∨ page.length = limit ∧ ∀ y ∈ page, y.place < x.place) := by
  obtain ⟨x, hx, hid, hat⟩ := ended_decision h hcast hd ht
  refine ⟨x, hx, hid, hat, fun t hst page hp => ?_⟩
  obtain rfl := readDecisions_spec hp
  have hplaces : ((decided r σ t.db).map DecisionRead.place).Nodup := decided_places
  have hsorted := sortBy_strict hplaces
  refine ⟨hsorted.sublist (List.take_sublist _ _), fun y hy => ?_, ?_⟩
  · exact mem_decided.mp (mem_sortBy.mp (List.mem_of_mem_take hy))
  · have hin : x ∈ sortBy DecisionRead.place (decided r σ t.db) := mem_sortBy.mpr
      (mem_decided.mpr ⟨d, execution_keeps_terminal h hst hd ht, hσ, ht, decisionOf_later h hst hx⟩)
    by_cases hm : x ∈ (sortBy DecisionRead.place (decided r σ t.db)).take limit
    · exact Or.inl hm
    · exact Or.inr (strict_of_notMem_take hsorted hin hm)

section Answers

def opened : State := initial (scenario [1]).cast [ClockControl.created]

def payment : EventCreate := ⟨"payment_intent.succeeded", "pi_00000001", by decide, by decide⟩

theorem receipt_holds_payment : ∃ db' read, createEvent 1 1 payment opened.db = some (db', read) ∧
    read.deliveryCount = 2 ∧ ∀ t, (system shipped).Execution { opened with db := db' } t →
      (t.db.deliveries.rows.countP fun d => d.eventId == read.id) = 2 := by
  have hr : (system shipped).Reachable opened := .initial ⟨_, _, rfl⟩
  have hread : (createEvent 1 1 payment opened.db).map (fun p => p.2.deliveryCount) = some 2 := by
    decide +kernel
  obtain ⟨⟨db', read⟩, hc, htwo⟩ := Option.map_eq_some_iff.mp hread
  have htwo : read.deliveryCount = 2 := htwo
  obtain ⟨-, -, hlater⟩ := receipt_holds shipped shippedRoster [1] hr rfl (by decide) hc
  exact ⟨db', read, hc, htwo, fun t ht => (hlater t ht).1.trans htwo⟩

theorem late_run : ∃ s, (system shipped).Reachable s ∧ s.db.cast = (scenario [1]).cast ∧
    s.db.simulations.map Simulation.id = [1] ∧
    s.db.deliveries.rows.map (fun d => (d.simulationId, d.state)) =
      [(1, .ready), (1, .expired)] := by
  have hrun : (run shipped opened lateBalance).map (fun s => (s.db.simulations.map Simulation.id,
      s.db.deliveries.rows.map fun d => (d.simulationId, d.state))) =
        some ([1], [(1, .ready), (1, .expired)]) := by decide +kernel
  obtain ⟨s, hs, hrows⟩ := Option.map_eq_some_iff.mp hrun
  obtain ⟨hsims, hrows⟩ := Prod.mk.inj hrows
  refine ⟨s, run_reachable hs, ?_, hsims, hrows⟩
  exact (execution_ledger (.initial ⟨_, _, rfl⟩) (run_execution hs)).1

theorem loadSimulation_exists {σ : SimulationId} {db : Db}
    (h : db.simulations.map Simulation.id = [σ]) : ∃ sim, loadSimulation σ db = some sim := by
  have hin : σ ∈ db.simulations.map Simulation.id := by simp [h]
  obtain ⟨sim, hsim, hid⟩ := List.mem_map.mp hin
  exact Option.isSome_iff_exists.mp
    (List.find?_isSome.mpr ⟨sim, hsim, beq_iff_eq.mpr hid⟩)

theorem cards_balance_late : ∃ s cards, (system shipped).Reachable s ∧
    listConsumers (scenario [1]) 1 s.db = some cards ∧
    (cards.map ConsumerRead.backlog).sum = totalBacklog (readGauges 1 s.db) := by
  obtain ⟨s, hr, hcast, hsims, -⟩ := late_run
  obtain ⟨sim, hsim⟩ := loadSimulation_exists hsims
  have hl : ∃ cards, listConsumers (scenario [1]) 1 s.db = some cards := by
    simp only [listConsumers, hsim, Option.bind_eq_bind, Option.bind_some]
    split
    · exact ⟨_, rfl⟩
    · exact ⟨_, rfl⟩
  obtain ⟨cards, hl⟩ := hl
  exact ⟨s, cards, hr, hl, (cards_balance shipped shippedRoster [1] hr hcast hl).2.1⟩

theorem decision_feed_late : ∃ s d x, (system shipped).Reachable s ∧ d ∈ s.db.deliveries.rows ∧
    d.state = .expired ∧ decisionOf (scenario [1]) s.db d = some x ∧
    ∀ page, readDecisions (scenario [1]) 1 defaultLimit s.db = some page →
      x ∈ page ∨ page.length = 50 := by
  obtain ⟨s, hr, hcast, -, hrows⟩ := late_run
  have hin : ((1, .expired) : SimulationId × DeliveryState) ∈
      s.db.deliveries.rows.map fun d => (d.simulationId, d.state) := by
    rw [hrows]
    simp
  obtain ⟨d, hd, he⟩ := List.mem_map.mp hin
  obtain ⟨hsim, hexp⟩ := Prod.mk.inj he
  obtain ⟨x, hx, -, -, hpage⟩ := decision_feed shipped (scenario [1]) hr hcast 1 defaultLimit hd
    hsim (by rw [hexp]; rfl)
  refine ⟨s, d, x, hr, hd, hexp, hx, fun page hp => ?_⟩
  exact (hpage s .refl page hp).2.2.imp id fun h => h.1

end Answers

end ReadPlane
