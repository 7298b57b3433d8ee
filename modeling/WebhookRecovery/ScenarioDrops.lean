import WebhookRecovery.ScenarioSeed
import WebhookRecovery.LedgerJoins
import WebhookRecovery.AttemptOutcomes
import WebhookRecovery.ConsistentRows

/-! What the canned scenario shows, over any run of it: each drop is due to one policy of one
consumer, and what has no policy lands. -/
namespace ScenarioDrops

open KeyedTables RecoverySchema InterleavedPrograms DeliveryPolicy DeliveryPipeline
open PipelineInvariant DeliveryLifecycle StalenessBound CoalesceOrder TerminalReasons LedgerJoins
open ConsumerTransport AttemptOutcomes ConsistentRows ScenarioSeed

def scenario (ids : List SimulationId) : Registry := seedAll shippedRoster ids .empty

section Lookups

variable {roster : Roster} {r : Registry} {placed : List (SimulationId × ℕ)} {c : ConsumerRow}

theorem consumer_spec (h : Placed roster r placed) (hc : c ∈ r.consumers.rows) :
    ∃ spec ∈ roster.specs, c = consumerRow c.simulationId c.id spec := by
  rw [h.consumers] at hc
  obtain ⟨x, -, hc⟩ := List.mem_flatMap.mp hc
  obtain ⟨y, hy, rfl⟩ := mem_consumersFor.mp hc
  exact ⟨y.1, List.fst_mem_of_mem_zipIdx hy, rfl⟩

theorem policy_spec (h : Placed roster r placed) (hc : c ∈ r.consumers.rows) {p : DeliveryPolicy}
    (hp : p ∈ r.policies) (hid : p.consumerId = c.id) :
    ∃ spec ∈ roster.specs, spec.name = c.name ∧ ∃ q ∈ spec.policies,
      p = policyRow c.simulationId c.id q := by
  rw [h.policies] at hp
  obtain ⟨x, hx, hp⟩ := List.mem_flatMap.mp hp
  obtain ⟨y, hy, q, hq, rfl⟩ := mem_policiesFor.mp hp
  have hrow : consumerRow x.1 y.2 y.1 ∈ r.consumers.rows := by
    rw [h.consumers]
    exact List.mem_flatMap.mpr ⟨x, hx, List.mem_map_of_mem hy⟩
  obtain rfl := r.consumers.row_unique hrow hc hid
  exact ⟨y.1, List.fst_mem_of_mem_zipIdx hy, rfl, q, hq, rfl⟩

theorem subscription_spec (h : Placed roster r placed) {s : Subscription}
    (hs : s ∈ r.subscriptions) : ∃ c ∈ r.consumers.rows, c.id = s.consumerId ∧
      c.simulationId = s.simulationId ∧ ∃ spec ∈ roster.specs, spec.name = c.name ∧
        s.eventType ∈ spec.subscribesTo := by
  rw [h.subscriptions] at hs
  obtain ⟨x, hx, hs⟩ := List.mem_flatMap.mp hs
  obtain ⟨y, hy, t, ht, rfl⟩ := mem_subscriptionsFor.mp hs
  refine ⟨consumerRow x.1 y.2 y.1, ?_, rfl, rfl, y.1, List.fst_mem_of_mem_zipIdx hy, rfl, ht⟩
  rw [h.consumers]
  exact List.mem_flatMap.mpr ⟨x, hx, List.mem_map_of_mem hy⟩

theorem scenario_placed (ids : List SimulationId) :
    ∃ placed, Placed shippedRoster (scenario ids) placed := by
  obtain ⟨placed, h, -⟩ := seedAll_placed ids (empty_placed shippedRoster)
  exact ⟨_, h⟩

end Lookups

section Policies

variable {cast : Cast} {db : Db} {d : Delivery}

theorem boundOf_policy {m : ℚ} (h : boundOf cast d = some m) : ∃ p ∈ cast.policies,
    p.consumerId = d.consumerId ∧ p.eventType = d.eventType ∧ p.maxStalenessS = some m := by
  obtain ⟨p, hp, hm⟩ := Option.bind_eq_some_iff.mp h
  have hkey := List.find?_some hp
  simp only [Bool.and_eq_true, beq_iff_eq] at hkey
  exact ⟨p, List.mem_of_find?_eq_some hp, hkey.1, hkey.2, hm⟩

theorem latest_policy {simulationId : SimulationId}
    (h : (policyOf (loadPolicies simulationId db) (candidateOf d)).coalesce = .latestByKey) :
    ∃ p ∈ db.cast.policies, p.consumerId = d.consumerId ∧ p.eventType = d.eventType ∧
      p.coalesce = .latestByKey := by
  rcases policyOf_cases simulationId db d with hnone | ⟨p, hp, hcon, htype, hpolicy⟩
  · rw [hnone] at h
    cases h
  · rw [hpolicy] at h
    exact ⟨p, hp, hcon, htype, h⟩

theorem bounded_spec : ∀ spec ∈ CONSUMERS, ∀ q ∈ spec.policies, ∀ m ∈ q.maxStalenessS,
    spec.name = "Bolt Billing" ∧ q.eventType = "balance.available" ∧ m = 60 := by
  decide +kernel

theorem latest_spec : ∀ spec ∈ CONSUMERS, ∀ q ∈ spec.policies, q.coalesce = .latestByKey →
    spec.name = "Bolt Billing" ∧ q.eventType = "customer.subscription.updated" := by
  decide

theorem healthy_spec : ∀ spec ∈ CONSUMERS, spec.simDown = false ∧ spec.simFailureRate ≤ 0 := by
  decide +kernel

end Policies

/-- The script of one delivery to one member of the cast. -/
structure Scripted (db : Db) (c : ConsumerRow) (d : Delivery) : Prop where
  subscribed : ∃ spec ∈ CONSUMERS, spec.name = c.name ∧ d.eventType ∈ spec.subscribesTo
  expired : d.state = .expired → c.name = "Bolt Billing" ∧ d.eventType = "balance.available" ∧
    ∃ t, d.completedAt = some t ∧ 60 < t - d.createdAt
  superseded : d.state = .superseded →
    c.name = "Bolt Billing" ∧ d.eventType = "customer.subscription.updated" ∧
      ∃ e ∈ db.deliveries.rows, Newer d e ∧ d.terminalReason = some (supersededReason e.id)
  failed : d.state = .failed → ∀ a ∈ db.attemptsOf d.id, a.outcome = some .leaseExpired
  /-- Every payment lands, and all that is not for the one consumer with policies. -/
  landed : c.name ≠ "Bolt Billing" ∨
      d.eventType = "payment_intent.succeeded" ∨ d.eventType = "invoice.paid" →
    d.state.terminal → d.state = .delivered ∨ d.state = .failed

section Script

variable {r : Registry} {placed : List (SimulationId × ℕ)} {c : ConsumerRow} {db : Db}
variable {d : Delivery}

/-- The policies that the cast has for a delivery are in the constants table. -/
theorem scripted_policy (h : Placed shippedRoster r placed) (hc : c ∈ r.consumers.rows)
    (hid : c.id = d.consumerId) {p : DeliveryPolicy} (hp : p ∈ r.policies)
    (hcon : p.consumerId = d.consumerId) (htype : p.eventType = d.eventType) :
    ∃ spec ∈ CONSUMERS, spec.name = c.name ∧ ∃ q ∈ spec.policies, q.eventType = d.eventType ∧
      q.maxStalenessS = p.maxStalenessS ∧ q.coalesce = p.coalesce := by
  obtain ⟨spec, hm, hname, q, hq, rfl⟩ := policy_spec h hc hp (hcon.trans hid.symm)
  exact ⟨spec, hm, hname, q, hq, htype, rfl, rfl⟩

theorem scripted_bound (h : Placed shippedRoster r placed) (hc : c ∈ r.consumers.rows)
    (hid : c.id = d.consumerId) {m : ℚ} (hm : boundOf r.cast d = some m) :
    c.name = "Bolt Billing" ∧ d.eventType = "balance.available" ∧ m = 60 := by
  obtain ⟨p, hp, hcon, htype, hpm⟩ := boundOf_policy hm
  obtain ⟨spec, hmem, hname, q, hq, hqt, hqm, -⟩ := scripted_policy h hc hid hp hcon htype
  obtain ⟨hbolt, hbal, hsixty⟩ := bounded_spec spec hmem q hq m (hqm.trans hpm)
  exact ⟨hname.symm.trans hbolt, hqt.symm.trans hbal, hsixty⟩

theorem scripted_latest (h : Placed shippedRoster r placed) (hc : c ∈ r.consumers.rows)
    (hid : c.id = d.consumerId) (hcast : db.cast = r.cast) {simulationId : SimulationId}
    (hl : (policyOf (loadPolicies simulationId db) (candidateOf d)).coalesce = .latestByKey) :
    c.name = "Bolt Billing" ∧ d.eventType = "customer.subscription.updated" := by
  obtain ⟨p, hp, hcon, htype, hpl⟩ := latest_policy hl
  rw [hcast] at hp
  obtain ⟨spec, hmem, hname, q, hq, hqt, -, hql⟩ := scripted_policy h hc hid hp hcon htype
  obtain ⟨hbolt, hcus⟩ := latest_spec spec hmem q hq (hql.trans hpl)
  exact ⟨hname.symm.trans hbolt, hqt.symm.trans hcus⟩

theorem scripted_healthy (h : Placed shippedRoster r placed) :
    ∀ k ∈ r.cast.consumers, k.simDown = false ∧ k.simFailureRate ≤ 0 := by
  intro k hk
  obtain ⟨row, hrow, rfl⟩ := List.mem_map.mp hk
  obtain ⟨spec, hmem, hrow⟩ := consumer_spec h hrow
  rw [hrow]
  exact healthy_spec spec hmem

/-- What is for another consumer, or a payment, is neither of the two types that are dropped. -/
theorem lands_of_free (hfree : c.name ≠ "Bolt Billing" ∨
      d.eventType = "payment_intent.succeeded" ∨ d.eventType = "invoice.paid")
    (hexpired : d.state = .expired → c.name = "Bolt Billing" ∧ d.eventType = "balance.available")
    (hsuperseded : d.state = .superseded →
      c.name = "Bolt Billing" ∧ d.eventType = "customer.subscription.updated")
    (ht : d.state.terminal) : d.state = .delivered ∨ d.state = .failed := by
  have hno : ¬ (c.name = "Bolt Billing" ∧ (d.eventType = "balance.available" ∨
      d.eventType = "customer.subscription.updated")) := by
    rintro ⟨hbolt, htype⟩
    rcases hfree with hne | hpay | hinv
    · exact hne hbolt
    · rw [hpay] at htype
      revert htype
      decide
    · rw [hinv] at htype
      revert htype
      decide
  cases hs : d.state with
  | delivered => exact Or.inl rfl
  | failed => exact Or.inr rfl
  | expired => exact absurd ((hexpired hs).imp_right Or.inl) hno
  | superseded => exact absurd ((hsuperseded hs).imp_right Or.inr) hno
  | pending | ready | inFlight =>
    rw [hs] at ht
    cases ht

end Script

/-- In every run of the scenario, with any number of simulations and whatever the processes do,
each drop is due to the one policy that it illustrates; and since the cast is healthy, what no
policy touches fails only if every one of its attempts is lost with its lease. -/
theorem scenario_drops (cfg : Settings) (random : Random) (ids : List SimulationId) {s : State}
    (h : (delivering cfg random).Reachable s) (hcast : s.db.cast = (scenario ids).cast)
    {d : Delivery} (hd : d ∈ s.db.deliveries.rows) :
    ∃ c ∈ (scenario ids).consumersOf d.simulationId, c.id = d.consumerId ∧ Scripted s.db c d := by
  obtain ⟨placed, hplaced⟩ := scenario_placed ids
  have hr := System.restrict_reachable h
  obtain ⟨hexpired, hover⟩ := (reachable_told hr).dropped d hd
  have hsub := subscribed_of_mirrored (reachable_conserved hr) (reachable_mirrored hr) hd
  rw [hcast] at hsub hexpired
  obtain ⟨c, hc, hid, hsim, hspec⟩ := subscription_spec hplaced hsub
  have hid : c.id = d.consumerId := hid
  have hstale : d.state = .expired → c.name = "Bolt Billing" ∧
      d.eventType = "balance.available" ∧ ∃ t, d.completedAt = some t ∧ 60 < t - d.createdAt := by
    intro hs
    obtain ⟨m, hm, t, ht, hlt, -⟩ := hexpired hs
    obtain ⟨hbolt, hbal, rfl⟩ := scripted_bound hplaced hc hid hm
    exact ⟨hbolt, hbal, t, ht, hlt⟩
  have hlatest : d.state = .superseded → c.name = "Bolt Billing" ∧
      d.eventType = "customer.subscription.updated" ∧ ∃ e ∈ s.db.deliveries.rows, Newer d e ∧
        d.terminalReason = some (supersededReason e.id) := by
    intro hs
    obtain ⟨hl, hnewer⟩ := hover hs
    obtain ⟨hbolt, hcus⟩ := scripted_latest hplaced hc hid hcast hl
    exact ⟨hbolt, hcus, hnewer⟩
  have hhealthy : ∀ k ∈ s.db.cast.consumers, k.simDown = false ∧ k.simFailureRate ≤ 0 :=
    hcast ▸ scripted_healthy hplaced
  have hin : c ∈ (scenario ids).consumersOf d.simulationId :=
    List.mem_filter.mpr ⟨hc, beq_iff_eq.mpr hsim⟩
  refine ⟨c, hin, hid, hspec, hstale, hlatest, fun hs a ha => ?_, fun hfree ht => ?_⟩
  · exact (reachable_honest h).failed_lost hd hs (fun k hk _ => hhealthy k hk) ha
  · exact lands_of_free hfree (fun hs => ⟨(hstale hs).1, (hstale hs).2.1⟩)
      (fun hs => ⟨(hlatest hs).1, (hlatest hs).2.1⟩) ht

section Stale

def lateBalance : List Action :=
  .ingest 1 1 [⟨"balance.available", "acct_001", none⟩] :: wholePass 62

theorem scenario_drops_balance : ∃ s d, (delivering shipped half).Reachable s ∧
    d ∈ s.db.deliveries.rows ∧ d.state = .expired ∧
    ∃ c ∈ (scenario [1]).consumersOf d.simulationId, c.name = "Bolt Billing" := by
  have hrun : (runList (fun s e => Delivers half s e ∧ Enabled s e) (next shipped)
      (initial (scenario [1]).cast []) lateBalance).map
        (fun s => s.db.deliveries.rows.map Delivery.state) = some [.ready, .expired] := by
    decide +kernel
  obtain ⟨s, hs, hrows⟩ := Option.map_eq_some_iff.mp hrun
  have hx := runList_restricted Initial Enabled (next shipped) hs
  have hinit : Initial (initial (scenario [1]).cast []) := ⟨_, [], rfl⟩
  have hr : (delivering shipped half).Reachable s := ⟨_, hinit, hx⟩
  have hcast : s.db.cast = (scenario [1]).cast :=
    (execution_ledger (.initial hinit) (System.restrict_execution hx)).1
  have hin : DeliveryState.expired ∈ s.db.deliveries.rows.map Delivery.state := by
    rw [hrows]
    simp
  obtain ⟨d, hd, hexp⟩ := List.mem_map.mp hin
  obtain ⟨c, hc, -, hscript⟩ := scenario_drops shipped half [1] hr hcast hd
  exact ⟨s, d, hr, hd, hexp, c, hc, (hscript.expired hexp).1⟩

end Stale

end ScenarioDrops
