import WebhookRecovery.EventProducer
import WebhookRecovery.DeliveryLifecycle

/-! The cast of the canned scenario, a constants table, and the function that writes it into the
tables of a fresh simulation. -/
namespace ScenarioSeed

open KeyedTables RecoverySchema EventIngest EventProducer DeliveryLifecycle

structure PolicySpec where
  eventType : String
  maxStalenessS : Option ℚ := none
  coalesce : CoalesceMode := .none
  deriving DecidableEq, Repr

structure ConsumerSpec where
  name : String
  subscribesTo : List String
  policies : List PolicySpec := []
  weight : ℚ := 1
  concurrencyCap : ℕ := 8
  maxAttemptsPerS : ℚ := 20
  simLatencyS : ℚ := 1 / 5
  simJitterS : ℚ := 1 / 20
  simFailureRate : ℚ := 0
  simDown : Bool := false
  deriving DecidableEq, Repr

def ALL_EVENT_TYPES : List String := EVENT_MIX.map EventTypeSpec.eventType

/-- A baseline without policies, the one whose policies shrink its backlog, and a small one. -/
def CONSUMERS : List ConsumerSpec :=
  [{ name := "Acme Analytics", subscribesTo := ALL_EVENT_TYPES },
    { name := "Bolt Billing"
      subscribesTo := ALL_EVENT_TYPES
      policies :=
        [{ eventType := "customer.subscription.updated", coalesce := .latestByKey },
          { eventType := "balance.available", maxStalenessS := some 60 },
          -- the same as no row at all
          { eventType := "payment_intent.succeeded" }] },
    { name := "Clover CRM", subscribesTo := ["invoice.paid"] }]

/-- What the checks and the unique constraints ask of the rows that a spec is written as. -/
structure ConsumerSpec.Valid (spec : ConsumerSpec) : Prop where
  subscribes_once : spec.subscribesTo.Nodup
  policy_once : (spec.policies.map PolicySpec.eventType).Nodup
  knobs_positive : 0 < spec.weight ∧ 0 < spec.concurrencyCap ∧ 0 < spec.maxAttemptsPerS
  staleness_positive : ∀ p ∈ spec.policies, ∀ m ∈ p.maxStalenessS, 0 < m

structure Roster where
  specs : List ConsumerSpec
  nonempty : specs ≠ []
  name_once : (specs.map ConsumerSpec.name).Nodup
  valid : ∀ spec ∈ specs, spec.Valid

theorem consumers_valid : ∀ spec ∈ CONSUMERS, spec.Valid := by
  have hsub : ∀ spec ∈ CONSUMERS, spec.subscribesTo.Nodup := by decide
  have hpol : ∀ spec ∈ CONSUMERS, (spec.policies.map PolicySpec.eventType).Nodup := by decide
  have hknobs : ∀ spec ∈ CONSUMERS,
      0 < spec.weight ∧ 0 < spec.concurrencyCap ∧ 0 < spec.maxAttemptsPerS := by decide +kernel
  have hstale : ∀ spec ∈ CONSUMERS, ∀ p ∈ spec.policies, ∀ m ∈ p.maxStalenessS, 0 < m := by
    decide +kernel
  exact fun spec h => ⟨hsub spec h, hpol spec h, hknobs spec h, hstale spec h⟩

def shippedRoster : Roster := ⟨CONSUMERS, by decide, by decide, consumers_valid⟩

structure ConsumerRow extends Consumer where
  name : String
  deriving DecidableEq, Repr

instance : Keyed ConsumerRow := ⟨fun c => c.id⟩

/-- The three tables that seeding writes, with their keys, checks and references. -/
structure Registry where
  consumers : Table ConsumerRow
  subscriptions : List Subscription
  policies : List DeliveryPolicy
  name_key : (consumers.rows.map fun c => (c.simulationId, c.name)).Nodup
  subscription_key : (subscriptions.map fun s => (s.consumerId, s.eventType)).Nodup
  policy_key : (policies.map fun p => (p.consumerId, p.eventType)).Nodup
  subscription_consumer : ∀ s ∈ subscriptions, ∃ c ∈ consumers.rows, c.id = s.consumerId
  policy_consumer : ∀ p ∈ policies, ∃ c ∈ consumers.rows, c.id = p.consumerId
  knobs_positive : ∀ c ∈ consumers.rows,
    0 < c.weight ∧ 0 < c.concurrencyCap ∧ 0 < c.maxAttemptsPerS
  staleness_positive : ∀ p ∈ policies, ∀ m ∈ p.maxStalenessS, 0 < m

def Registry.cast (r : Registry) : Cast where
  consumers := r.consumers.rows.map ConsumerRow.toConsumer
  subscriptions := r.subscriptions
  policies := r.policies
  consumer_key := by
    rw [List.map_map]
    exact r.consumers.nodup_keys
  subscription_key := r.subscription_key
  policy_key := r.policy_key
  knobs_positive := by
    intro c hc
    obtain ⟨row, hrow, rfl⟩ := List.mem_map.mp hc
    exact r.knobs_positive row hrow
  staleness_positive := r.staleness_positive

theorem empty_subscription_key :
    (([] : List Subscription).map fun s => (s.consumerId, s.eventType)).Nodup := .nil

theorem empty_policy_key :
    (([] : List DeliveryPolicy).map fun p => (p.consumerId, p.eventType)).Nodup := .nil

theorem empty_staleness : ∀ p ∈ ([] : List DeliveryPolicy), ∀ m ∈ p.maxStalenessS, 0 < m := by
  intro p hp
  cases hp

def Registry.empty : Registry where
  consumers := .empty
  subscriptions := []
  policies := []
  name_key := .nil
  subscription_key := empty_subscription_key
  policy_key := empty_policy_key
  subscription_consumer _ h := by cases h
  policy_consumer _ h := by cases h
  knobs_positive _ h := by cases h
  staleness_positive := empty_staleness

def Registry.consumersOf (r : Registry) (simulationId : SimulationId) : List ConsumerRow :=
  r.consumers.rows.filter fun c => c.simulationId == simulationId

def consumerRow (simulationId : SimulationId) (id : ConsumerId) (spec : ConsumerSpec) :
    ConsumerRow where
  id := id
  simulationId := simulationId
  name := spec.name
  weight := spec.weight
  concurrencyCap := spec.concurrencyCap
  maxAttemptsPerS := spec.maxAttemptsPerS
  simLatencyS := spec.simLatencyS
  simJitterS := spec.simJitterS
  simFailureRate := spec.simFailureRate
  simDown := spec.simDown

def policyRow (simulationId : SimulationId) (id : ConsumerId) (p : PolicySpec) : DeliveryPolicy :=
  ⟨simulationId, id, p.eventType, p.maxStalenessS, p.coalesce⟩

def consumersFor (roster : Roster) (simulationId : SimulationId) (n : ℕ) : List ConsumerRow :=
  (roster.specs.zipIdx n).map fun x => consumerRow simulationId x.2 x.1

def subscriptionsFor (roster : Roster) (simulationId : SimulationId) (n : ℕ) :
    List Subscription :=
  (roster.specs.zipIdx n).flatMap fun x =>
    x.1.subscribesTo.map fun eventType => ⟨simulationId, x.2, eventType⟩

def policiesFor (roster : Roster) (simulationId : SimulationId) (n : ℕ) : List DeliveryPolicy :=
  (roster.specs.zipIdx n).flatMap fun x => x.1.policies.map (policyRow simulationId x.2)

section Rows

variable {roster : Roster} {simulationId : SimulationId} {n : ℕ}

theorem mem_consumersFor {c : ConsumerRow} : c ∈ consumersFor roster simulationId n ↔
    ∃ x ∈ roster.specs.zipIdx n, consumerRow simulationId x.2 x.1 = c := List.mem_map

theorem mem_subscriptionsFor {s : Subscription} : s ∈ subscriptionsFor roster simulationId n ↔
    ∃ x ∈ roster.specs.zipIdx n, ∃ t ∈ x.1.subscribesTo, ⟨simulationId, x.2, t⟩ = s := by
  simp [subscriptionsFor]

theorem mem_policiesFor {p : DeliveryPolicy} : p ∈ policiesFor roster simulationId n ↔
    ∃ x ∈ roster.specs.zipIdx n, ∃ q ∈ x.1.policies, policyRow simulationId x.2 q = p := by
  simp [policiesFor]

theorem numbered_nodup {f : ConsumerSpec → List String}
    (h : ∀ spec ∈ roster.specs, (f spec).Nodup) :
    ((roster.specs.zipIdx n).flatMap fun x => (f x.1).map fun t => (x.2, t)).Nodup := by
  refine List.nodup_flatMap.mpr ⟨fun x hx => ?_, ?_⟩
  · exact (h x.1 (List.fst_mem_of_mem_zipIdx hx)).map fun _ _ he => (Prod.mk.inj he).2
  · refine (zipIdx_ordered roster.specs n).imp fun {x y} hxy => ?_
    intro p hp hq
    obtain ⟨_, -, rfl⟩ := List.mem_map.mp hp
    obtain ⟨_, -, hq⟩ := List.mem_map.mp hq
    exact absurd (Prod.mk.inj hq).1.symm (Nat.ne_of_lt hxy)

theorem subscriptionsFor_key : ((subscriptionsFor roster simulationId n).map
    fun s => (s.consumerId, s.eventType)).Nodup := by
  rw [subscriptionsFor, List.map_flatMap]
  simp only [List.map_map]
  exact numbered_nodup fun spec h => (roster.valid spec h).subscribes_once

theorem policiesFor_key : ((policiesFor roster simulationId n).map
    fun p => (p.consumerId, p.eventType)).Nodup := by
  rw [policiesFor, List.map_flatMap]
  have hrows : ∀ x : ConsumerSpec × ℕ, (x.1.policies.map (policyRow simulationId x.2)).map
      (fun p => (p.consumerId, p.eventType)) =
        (x.1.policies.map PolicySpec.eventType).map fun t => (x.2, t) := by
    intro x
    rw [List.map_map, List.map_map]
    rfl
  simp only [hrows]
  exact numbered_nodup fun spec h => (roster.valid spec h).policy_once

end Rows

def Registry.add (roster : Roster) (simulationId : SimulationId) (r : Registry)
    (h : r.consumersOf simulationId = []) : Registry where
  consumers := r.consumers.insertAll roster.specs (consumerRow simulationId) fun _ _ => rfl
  subscriptions := r.subscriptions ++ subscriptionsFor roster simulationId r.consumers.next
  policies := r.policies ++ policiesFor roster simulationId r.consumers.next
  name_key := by
    have hfresh : ∀ c ∈ r.consumers.rows, c.simulationId ≠ simulationId := by
      intro c hc he
      exact List.filter_eq_nil_iff.mp h c hc (beq_iff_eq.mpr he)
    have hnew : ((consumersFor roster simulationId r.consumers.next).map
        fun c => (c.simulationId, c.name)).Nodup := by
      have hrow : ((consumersFor roster simulationId r.consumers.next).map
          fun c => (c.simulationId, c.name)) =
            (roster.specs.map ConsumerSpec.name).map (Prod.mk simulationId) := by
        conv_rhs => rw [← List.zipIdx_map_fst r.consumers.next roster.specs]
        simp only [consumersFor, List.map_map]
        rfl
      rw [hrow]
      exact roster.name_once.map (Prod.mk_right_injective simulationId)
    change ((r.consumers.rows ++ consumersFor roster simulationId r.consumers.next).map _).Nodup
    rw [List.map_append]
    refine r.name_key.append hnew fun k hk hk' => ?_
    obtain ⟨c, hc, rfl⟩ := List.mem_map.mp hk
    obtain ⟨c', hc', he⟩ := List.mem_map.mp hk'
    obtain ⟨x, -, rfl⟩ := mem_consumersFor.mp hc'
    exact hfresh c hc (Prod.mk.inj he).1.symm
  subscription_key := by
    rw [List.map_append]
    refine r.subscription_key.append subscriptionsFor_key fun k hk hk' => ?_
    obtain ⟨s, hs, rfl⟩ := List.mem_map.mp hk
    obtain ⟨s', hs', he⟩ := List.mem_map.mp hk'
    obtain ⟨x, hx, t, -, rfl⟩ := mem_subscriptionsFor.mp hs'
    obtain ⟨c, hc, hcs⟩ := r.subscription_consumer s hs
    have hle : r.consumers.next ≤ x.2 := List.le_snd_of_mem_zipIdx hx
    have hlt : s.consumerId < r.consumers.next := hcs ▸ r.consumers.bounded c hc
    have hid : x.2 = s.consumerId := (Prod.mk.inj he).1
    exact absurd (hid ▸ hle) (not_le.mpr hlt)
  policy_key := by
    rw [List.map_append]
    refine r.policy_key.append policiesFor_key fun k hk hk' => ?_
    obtain ⟨p, hp, rfl⟩ := List.mem_map.mp hk
    obtain ⟨p', hp', he⟩ := List.mem_map.mp hk'
    obtain ⟨x, hx, q, -, rfl⟩ := mem_policiesFor.mp hp'
    obtain ⟨c, hc, hcp⟩ := r.policy_consumer p hp
    have hle : r.consumers.next ≤ x.2 := List.le_snd_of_mem_zipIdx hx
    have hlt : p.consumerId < r.consumers.next := hcp ▸ r.consumers.bounded c hc
    have hid : x.2 = p.consumerId := (Prod.mk.inj he).1
    exact absurd (hid ▸ hle) (not_le.mpr hlt)
  subscription_consumer := by
    intro s hs
    rcases List.mem_append.mp hs with hs | hs
    · obtain ⟨c, hc, hcs⟩ := r.subscription_consumer s hs
      exact ⟨c, List.mem_append_left _ hc, hcs⟩
    · obtain ⟨x, hx, t, -, rfl⟩ := mem_subscriptionsFor.mp hs
      exact ⟨_, List.mem_append_right _ (List.mem_map_of_mem hx), rfl⟩
  policy_consumer := by
    intro p hp
    rcases List.mem_append.mp hp with hp | hp
    · obtain ⟨c, hc, hcp⟩ := r.policy_consumer p hp
      exact ⟨c, List.mem_append_left _ hc, hcp⟩
    · obtain ⟨x, hx, q, -, rfl⟩ := mem_policiesFor.mp hp
      exact ⟨_, List.mem_append_right _ (List.mem_map_of_mem hx), rfl⟩
  knobs_positive := by
    intro c hc
    rcases List.mem_append.mp hc with hc | hc
    · exact r.knobs_positive c hc
    · obtain ⟨x, hx, rfl⟩ := List.mem_map.mp hc
      exact (roster.valid x.1 (List.fst_mem_of_mem_zipIdx hx)).knobs_positive
  staleness_positive := by
    intro p hp
    rcases List.mem_append.mp hp with hp | hp
    · exact r.staleness_positive p hp
    · obtain ⟨x, hx, q, hq, rfl⟩ := mem_policiesFor.mp hp
      exact (roster.valid x.1 (List.fst_mem_of_mem_zipIdx hx)).staleness_positive q hq

/-- Write the cast for a fresh simulation. Idempotent per simulation. -/
def seedSimulation (roster : Roster) (simulationId : SimulationId) (r : Registry) :
    Registry × List ConsumerRow :=
  if h : r.consumersOf simulationId = [] then
    (r.add roster simulationId h, consumersFor roster simulationId r.consumers.next)
  else (r, r.consumersOf simulationId)

def seedAll (roster : Roster) (ids : List SimulationId) (r : Registry) : Registry :=
  ids.foldl (fun r simulationId => (seedSimulation roster simulationId r).1) r

structure SeededAs (roster : Roster) (simulationId : SimulationId) (r : Registry) (n : ℕ) :
    Prop where
  consumers : r.consumersOf simulationId = consumersFor roster simulationId n
  subscriptions : (r.subscriptions.filter fun s => s.simulationId == simulationId) =
    subscriptionsFor roster simulationId n
  policies : (r.policies.filter fun p => p.simulationId == simulationId) =
    policiesFor roster simulationId n

/-- The tables are a copy for each of the simulations that were seeded, and nothing else. -/
structure Placed (roster : Roster) (r : Registry) (placed : List (SimulationId × ℕ)) : Prop where
  once : (placed.map Prod.fst).Nodup
  consumers : r.consumers.rows = placed.flatMap fun x => consumersFor roster x.1 x.2
  subscriptions : r.subscriptions = placed.flatMap fun x => subscriptionsFor roster x.1 x.2
  policies : r.policies = placed.flatMap fun x => policiesFor roster x.1 x.2

section Seeding

variable {roster : Roster} {r : Registry} {placed : List (SimulationId × ℕ)}
variable {σ : SimulationId} {n : ℕ}

theorem Placed.seeded (h : Placed roster r placed) (hx : (σ, n) ∈ placed) :
    SeededAs roster σ r n := by
  refine ⟨?_, ?_, ?_⟩
  · rw [Registry.consumersOf, h.consumers]
    refine flatMap_filter_of_mem h.once (g := fun c : ConsumerRow => c.simulationId)
      (fun x _ c hc => ?_) hx
    obtain ⟨y, -, rfl⟩ := mem_consumersFor.mp hc
    rfl
  · rw [h.subscriptions]
    refine flatMap_filter_of_mem h.once (fun x _ s hs => ?_) hx
    obtain ⟨y, -, t, -, rfl⟩ := mem_subscriptionsFor.mp hs
    rfl
  · rw [h.policies]
    refine flatMap_filter_of_mem h.once (fun x _ p hp => ?_) hx
    obtain ⟨y, -, q, -, rfl⟩ := mem_policiesFor.mp hp
    rfl

theorem Placed.unseeded (h : Placed roster r placed) (hx : σ ∉ placed.map Prod.fst) :
    r.consumersOf σ = [] ∧ (∀ s ∈ r.subscriptions, s.simulationId ≠ σ) ∧
      ∀ p ∈ r.policies, p.simulationId ≠ σ := by
  have hne : ∀ x ∈ placed, x.1 ≠ σ := fun x hm he => hx (List.mem_map.mpr ⟨x, hm, he⟩)
  refine ⟨List.filter_eq_nil_iff.mpr fun c hc => ?_, fun s hs => ?_, fun p hp => ?_⟩
  · rw [h.consumers] at hc
    obtain ⟨x, hm, hc⟩ := List.mem_flatMap.mp hc
    obtain ⟨y, -, rfl⟩ := mem_consumersFor.mp hc
    exact fun he => hne x hm (beq_iff_eq.mp he)
  · rw [h.subscriptions] at hs
    obtain ⟨x, hm, hs⟩ := List.mem_flatMap.mp hs
    obtain ⟨y, -, t, -, rfl⟩ := mem_subscriptionsFor.mp hs
    exact hne x hm
  · rw [h.policies] at hp
    obtain ⟨x, hm, hp⟩ := List.mem_flatMap.mp hp
    obtain ⟨y, -, q, -, rfl⟩ := mem_policiesFor.mp hp
    exact hne x hm

theorem consumersFor_ne_nil : consumersFor roster σ n ≠ [] := by
  intro h
  have hlen := congrArg List.length h
  rw [consumersFor, List.length_map, List.length_zipIdx, List.length_nil] at hlen
  exact roster.nonempty (List.length_eq_zero_iff.mp hlen)

/-- A simulation that has its cast keeps it, and the same consumers are returned. -/
theorem seedSimulation_again (h : SeededAs roster σ r n) :
    seedSimulation roster σ r = (r, r.consumersOf σ) :=
  dif_neg (h.consumers ▸ consumersFor_ne_nil)

theorem seedSimulation_placed (h : Placed roster r placed) (σ : SimulationId) :
    ∃ new, Placed roster (seedSimulation roster σ r).1 (placed ++ new) ∧
      ∀ i, i ∈ (placed ++ new).map Prod.fst ↔ i ∈ placed.map Prod.fst ∨ i = σ := by
  by_cases hm : σ ∈ placed.map Prod.fst
  · obtain ⟨x, hx, rfl⟩ := List.mem_map.mp hm
    refine ⟨[], ?_, fun i => ?_⟩
    · rw [seedSimulation_again (h.seeded hx), List.append_nil]
      exact h
    · rw [List.append_nil]
      exact ⟨Or.inl, fun hi => hi.elim id fun he => he ▸ hm⟩
  · have hnone := (h.unseeded hm).1
    refine ⟨[(σ, r.consumers.next)], ?_, fun i => by simp⟩
    rw [seedSimulation, dif_pos hnone]
    refine ⟨?_, ?_, ?_, ?_⟩
    · rw [List.map_append]
      refine h.once.append (List.nodup_singleton σ) fun i hi hi' => hm ?_
      have he : i = σ := List.mem_singleton.mp hi'
      exact he ▸ hi
    · rw [List.flatMap_append, ← h.consumers, List.flatMap_singleton]
      rfl
    · rw [List.flatMap_append, ← h.subscriptions, List.flatMap_singleton]
      rfl
    · rw [List.flatMap_append, ← h.policies, List.flatMap_singleton]
      rfl

theorem seedAll_placed (ids : List SimulationId) (h : Placed roster r placed) :
    ∃ new, Placed roster (seedAll roster ids r) (placed ++ new) ∧
      ∀ i, i ∈ (placed ++ new).map Prod.fst ↔ i ∈ placed.map Prod.fst ∨ i ∈ ids := by
  induction ids generalizing r placed with
  | nil => exact ⟨[], by rwa [List.append_nil], by simp⟩
  | cons σ ids ih =>
    obtain ⟨first, hfirst, hmem⟩ := seedSimulation_placed h σ
    obtain ⟨rest, hrest, hmem'⟩ := ih hfirst
    refine ⟨first ++ rest, by rwa [← List.append_assoc], fun i => ?_⟩
    rw [← List.append_assoc, hmem', hmem, List.mem_cons, or_assoc]

theorem empty_placed (roster : Roster) : Placed roster .empty [] := ⟨.nil, rfl, rfl, rfl⟩

def subscribing (roster : Roster) (n : ℕ) (eventType : String) : List ConsumerId :=
  ((roster.specs.zipIdx n).filter fun x => decide (eventType ∈ x.1.subscribesTo)).map Prod.snd

theorem subscribersOf_seeded (h : SeededAs roster σ r n) {e : Event} (he : e.simulationId = σ) :
    subscribersOf r.cast e = subscribing roster n e.eventType := by
  have hsplit : (r.cast.subscriptions.filter fun s =>
      s.simulationId == e.simulationId && s.eventType == e.eventType) =
        (subscriptionsFor roster σ n).filter fun s => s.eventType == e.eventType := by
    rw [← h.subscriptions, List.filter_filter, he]
    exact List.filter_congr fun s _ => Bool.and_comm _ _
  -- a spec lists a type at most once
  have hone : ∀ x ∈ roster.specs.zipIdx n,
      ((x.1.subscribesTo.map fun t => (⟨σ, x.2, t⟩ : Subscription)).filter
        fun s => s.eventType == e.eventType).map Subscription.consumerId =
          if e.eventType ∈ x.1.subscribesTo then [x.2] else [] := by
    intro x hx
    have hnodup := (roster.valid x.1 (List.fst_mem_of_mem_zipIdx hx)).subscribes_once
    rw [List.filter_map, List.map_map]
    change (x.1.subscribesTo.filter fun t => t == e.eventType).map (fun _ => x.2) = _
    rw [List.map_const', ← List.countP_eq_length_filter]
    change List.replicate (x.1.subscribesTo.count e.eventType) x.2 = _
    rw [hnodup.count]
    split <;> rfl
  rw [subscribersOf, hsplit, subscriptionsFor, List.filter_flatMap, List.map_flatMap,
    List.flatMap_congr hone, subscribing]
  induction roster.specs.zipIdx n with
  | nil => rfl
  | cons x l ih =>
    rw [List.flatMap_cons, List.filter_cons, ih]
    by_cases hm : e.eventType ∈ x.1.subscribesTo
    · simp [hm]
    · simp [hm]

end Seeding

/-- Whatever is seeded, and however often, each simulation that was has one copy of the constants
table, keeps it, and fans an event out to those in it that subscribe to its type; a simulation that
was not has no row in any of the three tables. -/
theorem seeded_once (roster : Roster) (ids : List SimulationId) (σ : SimulationId) :
    (σ ∈ ids → ∃ n, ∀ more, SeededAs roster σ (seedAll roster (ids ++ more) .empty) n ∧
      seedSimulation roster σ (seedAll roster (ids ++ more) .empty) =
        (seedAll roster (ids ++ more) .empty, consumersFor roster σ n) ∧
      ∀ e, e.simulationId = σ →
        subscribersOf (seedAll roster (ids ++ more) .empty).cast e =
          subscribing roster n e.eventType) ∧
    (σ ∉ ids → (∀ c ∈ (seedAll roster ids .empty).consumers.rows, c.simulationId ≠ σ) ∧
      (∀ s ∈ (seedAll roster ids .empty).subscriptions, s.simulationId ≠ σ) ∧
      (∀ p ∈ (seedAll roster ids .empty).policies, p.simulationId ≠ σ) ∧
      ∀ e, e.simulationId = σ → subscribersOf (seedAll roster ids .empty).cast e = []) := by
  obtain ⟨placed, hplaced, hmem⟩ := seedAll_placed ids (empty_placed roster)
  rw [List.nil_append] at hplaced hmem
  refine ⟨fun hσ => ?_, fun hσ => ?_⟩
  · obtain ⟨⟨i, n⟩, hx, rfl⟩ := List.mem_map.mp ((hmem σ).mpr (Or.inr hσ))
    refine ⟨n, fun more => ?_⟩
    obtain ⟨new, hnew, -⟩ := seedAll_placed more hplaced
    have hall : seedAll roster (ids ++ more) .empty =
        seedAll roster more (seedAll roster ids .empty) := List.foldl_append
    rw [hall]
    have hseeded := hnew.seeded (List.mem_append_left new hx)
    refine ⟨hseeded, ?_, fun e he => subscribersOf_seeded hseeded he⟩
    rw [seedSimulation_again hseeded, hseeded.consumers]
  · have hnot : σ ∉ placed.map Prod.fst := fun hm => by
      rcases (hmem σ).mp hm with h | h
      · cases h
      · exact hσ h
    obtain ⟨hcon, hsub, hpol⟩ := hplaced.unseeded hnot
    have hrows : ∀ c ∈ (seedAll roster ids .empty).consumers.rows, c.simulationId ≠ σ :=
      fun c hc he => List.filter_eq_nil_iff.mp hcon c hc (beq_iff_eq.mpr he)
    refine ⟨hrows, hsub, hpol, fun e he =>
      List.map_eq_nil_iff.mpr (List.filter_eq_nil_iff.mpr ?_)⟩
    intro s hs hb
    simp only [Bool.and_eq_true, beq_iff_eq] at hb
    exact hsub s hs (hb.1.trans he)

end ScenarioSeed
