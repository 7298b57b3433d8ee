import WebhookRecovery.PipelineInvariant

/-! The delivery lifecycle over whole runs: conservation, the edges, and no stranding. -/
namespace DeliveryLifecycle

open KeyedTables RecoverySchema InterleavedPrograms WorkerClaim EventIngest DeliveryPipeline
open DeliveryFile PipelineInvariant

def Subscribed (cast : Cast) (e : Event) (c : ConsumerId) : Prop :=
  ⟨e.simulationId, c, e.eventType⟩ ∈ cast.subscriptions

inductive Edge : DeliveryState → DeliveryState → Prop where
  | admitted : Edge .pending .ready
  | expired : Edge .pending .expired
  | superseded : Edge .pending .superseded
  | claimed : Edge .ready .inFlight
  | stale : Edge .ready .expired
  | delivered : Edge .inFlight .delivered
  | failed : Edge .inFlight .failed
  | requeued : Edge .inFlight .pending

section Edges

variable {cfg : Settings} {actor : Option WorkerId} {f g : File}

theorem settleRow_edge (now : ℚ) (s : Settlement) (d : Delivery) :
    Edge .inFlight (settleRow now s d).state := by
  cases s with
  | delivered => exact .delivered
  | failed reason => exact .failed
  | retry at_ => exact .requeued

theorem move_edge (h : Move cfg actor f g) :
    g.delivery = f.delivery ∨ Edge f.delivery.state g.delivery.state := by
  cases h with
  | stay => exact Or.inl rfl
  | admitted now h => exact Or.inr (h ▸ .admitted)
  | drop now x h hx =>
    refine Or.inr ?_
    rcases hx with hx | hx
    · simpa only [DeliveryPolicy.dropRow, h, hx] using Edge.expired
    · simpa only [DeliveryPolicy.dropRow, h, hx] using Edge.superseded
  | expire now reason h => exact Or.inr (h ▸ .stale)
  | claim w now a hw h => exact Or.inr (h ▸ .claimed)
  | settle now c h => exact Or.inr (h ▸ settleRow_edge _ _ _)
  | reclaim now h => exact Or.inr (h ▸ settleRow_edge _ _ _)

end Edges

section Conservation

theorem mem_subscribersOf {cast : Cast} {e : Event} {c : ConsumerId} :
    c ∈ subscribersOf cast e ↔ Subscribed cast e c := by
  simp only [subscribersOf, Subscribed, List.mem_map, List.mem_filter, Bool.and_eq_true,
    beq_iff_eq]
  constructor
  · rintro ⟨⟨s, k, y⟩, ⟨hm, rfl, rfl⟩, rfl⟩
    exact hm
  · intro hm
    exact ⟨_, ⟨hm, rfl, rfl⟩, rfl⟩

theorem mem_pairsOf {cast : Cast} {events : List Event} {i : ℕ} {c : ConsumerId} :
    (i, c) ∈ pairsOf cast events ↔ ∃ e ∈ events, e.id = i ∧ Subscribed cast e c := by
  simp only [pairsOf, List.mem_flatMap, List.mem_map, Prod.mk.injEq, mem_subscribersOf]
  constructor
  · rintro ⟨e, he, k, hk, hi, rfl⟩
    exact ⟨e, he, hi, hk⟩
  · rintro ⟨e, he, hi, hk⟩
    exact ⟨e, he, c, hk, hi, rfl⟩

theorem subscribersOf_nodup (cast : Cast) (e : Event) : (subscribersOf cast e).Nodup := by
  refine List.Nodup.map_on ?_ (cast.subscription_key.of_map.filter _)
  intro s hs t ht hk
  simp only [List.mem_filter, Bool.and_eq_true, beq_iff_eq] at hs ht
  exact List.inj_on_of_nodup_map cast.subscription_key hs.1 ht.1
    (Prod.ext hk (hs.2.2.trans ht.2.2.symm))

theorem pairsOf_nodup (cast : Cast) (t : Table Event) : (pairsOf cast t.rows).Nodup := by
  refine List.nodup_flatMap.mpr ⟨fun e _ => ?_, ?_⟩
  · exact (subscribersOf_nodup cast e).map fun _ _ h => (Prod.mk.inj h).2
  · refine t.ordered.imp fun {a b} hab => ?_
    intro p hp hq
    obtain ⟨_, _, rfl⟩ := List.mem_map.mp hp
    obtain ⟨_, _, hq⟩ := List.mem_map.mp hq
    have hid : b.id = a.id := (Prod.mk.inj hq).1
    exact absurd hid.symm (Nat.ne_of_lt hab)

def Conserved (db : Db) : Prop :=
  db.deliveries.rows.map Delivery.pair = pairsOf db.cast db.events.rows

theorem step_conserved {cfg : Settings} {s t : State} {e : Action} (hi : Invariant cfg s)
    (h : Step cfg s e t) (hc : Conserved s.db) : Conserved t.db := by
  have heff := step_effect hi h
  obtain ⟨f, new, posted, hrows, hmove, _, hevents, hnew⟩ := heff.deliveries
  have hold : (s.db.deliveries.rows.map f).map Delivery.pair =
      s.db.deliveries.rows.map Delivery.pair := by
    rw [List.map_map]
    refine List.map_congr_left fun d hd => ?_
    obtain ⟨_, _, he, hk, _⟩ := (hmove d hd).identity
    exact Prod.ext he hk
  calc t.db.deliveries.rows.map Delivery.pair
      = s.db.deliveries.rows.map Delivery.pair ++ pairsOf s.db.cast posted := by
        rw [hrows, List.map_append, hold, hnew]
    _ = pairsOf s.db.cast s.db.events.rows ++ pairsOf s.db.cast posted := by rw [hc]
    _ = pairsOf t.db.cast t.db.events.rows := by
        rw [heff.cast, hevents, pairsOf, pairsOf, pairsOf, List.flatMap_append]

theorem reachable_conserved {cfg : Settings} {s : State} (h : (system cfg).Reachable s) :
    Conserved s.db :=
  h.invariant (P := fun s => Conserved s.db) (by rintro _ ⟨cast, sims, rfl⟩; rfl)
    fun _ _ _ hr hc hs => step_conserved (reachable_invariant hr) hs hc

theorem conserved_unique {db : Db} (hc : Conserved db) {e : Event} (he : e ∈ db.events.rows)
    {c : ConsumerId} (hs : Subscribed db.cast e c) :
    ∃! d, d ∈ db.deliveries.rows ∧ d.eventId = e.id ∧ d.consumerId = c := by
  have hmem : (e.id, c) ∈ db.deliveries.rows.map Delivery.pair := by
    rw [hc]
    exact mem_pairsOf.mpr ⟨e, he, rfl, hs⟩
  obtain ⟨d, hd, hp⟩ := List.mem_map.mp hmem
  obtain ⟨hdi, hdc⟩ := Prod.mk.inj hp
  refine ⟨d, ⟨hd, hdi, hdc⟩, fun d' ⟨hd', hi', hc'⟩ => ?_⟩
  have hn : (db.deliveries.rows.map Delivery.pair).Nodup := by
    rw [hc]
    exact pairsOf_nodup db.cast db.events
  exact List.inj_on_of_nodup_map hn hd' hd (Prod.ext (hi'.trans hdi.symm) (hc'.trans hdc.symm))

/-- The cast stays and the ledger only grows. -/
theorem execution_ledger {cfg : Settings} {s t : State} (hs : (system cfg).Reachable s)
    (h : (system cfg).Execution s t) :
    t.db.cast = s.db.cast ∧ ∀ e ∈ s.db.events.rows, e ∈ t.db.events.rows :=
  h.relates (R := fun s t => t.db.cast = s.db.cast ∧ ∀ e ∈ s.db.events.rows, e ∈ t.db.events.rows)
    (fun _ => ⟨rfl, fun _ h => h⟩)
    (fun _ _ _ ⟨hc, he⟩ ⟨kc, ke⟩ => ⟨kc.trans hc, fun e hm => ke e (he e hm)⟩)
    (fun s _ t hr he => by
      have heff := step_effect (reachable_invariant hr) he
      obtain ⟨_, _, posted, _, _, _, hevents, _⟩ := heff.deliveries
      refine ⟨heff.cast, fun x hx => ?_⟩
      rw [hevents]
      exact List.mem_append_left _ hx) hs

end Conservation

theorem step_keeps_terminal {cfg : Settings} {s t : State} {e : Action} (hi : Invariant cfg s)
    (h : Step cfg s e t) {d : Delivery} (hd : d ∈ s.db.deliveries.rows)
    (ht : d.state.terminal) : d ∈ t.db.deliveries.rows := by
  obtain ⟨d', hd', _, hmove⟩ := (step_effect hi h).moved hd
  have hsame : d' = d := congrArg File.delivery (hmove.terminal_fixed ht)
  rwa [← hsame]

theorem execution_keeps_terminal {cfg : Settings} {s t : State} (hs : (system cfg).Reachable s)
    (h : (system cfg).Execution s t) {d : Delivery} (hd : d ∈ s.db.deliveries.rows)
    (ht : d.state.terminal) : d ∈ t.db.deliveries.rows :=
  h.relates (R := fun s t => d ∈ s.db.deliveries.rows → d ∈ t.db.deliveries.rows)
    (fun _ h => h) (fun _ _ _ h k m => k (h m))
    (fun _ _ _ hr he hm => step_keeps_terminal (reachable_invariant hr) he hm ht) hs hd

/-- One step of the rows: each moves along an edge or stays as it is; new ones are pending. -/
def Transition (s t : Db) : Prop :=
  (∀ d ∈ s.deliveries.rows, ∃ d' ∈ t.deliveries.rows, d'.id = d.id ∧ d'.eventId = d.eventId ∧
    d'.consumerId = d.consumerId ∧ (d' = d ∨ Edge d.state d'.state)) ∧
  ∀ d' ∈ t.deliveries.rows, (∀ d ∈ s.deliveries.rows, d.id ≠ d'.id) → d'.state = .pending

theorem step_transition {cfg : Settings} {s t : State} {e : Action} (hi : Invariant cfg s)
    (h : Step cfg s e t) : Transition s.db t.db := by
  have heff := step_effect hi h
  refine ⟨fun d hd => ?_, fun d' hd' hnew => ?_⟩
  · obtain ⟨d', hd', hid, hmove⟩ := heff.moved hd
    obtain ⟨_, _, he, hc, _⟩ := hmove.identity
    exact ⟨d', hd', hid, he, hc, move_edge hmove⟩
  · rcases heff.delivery hd' with ⟨d, hd, hmove⟩ | hfresh
    · exact absurd hmove.identity.1.symm (hnew d hd)
    · exact hfresh.2.1

/-- No row is in a state that the statements looking for work would not find it in. -/
structure NotStranded (d : Delivery) : Prop where
  completed : d.completedAt.isSome ↔ d.state.terminal
  due : d.state = .pending → d.nextAttemptAt.isSome
  leased : d.state = .inFlight → d.leasedBy.isSome ∧ d.leaseExpiresAt.isSome

theorem notStranded_of_sound {cfg : Settings} {db : Db} {d : Delivery}
    (h : Sound cfg (file db d)) : NotStranded d where
  completed := h.completed
  due := h.due
  leased hs := by
    obtain ⟨a, ha, ho⟩ := h.story.in_flight hs
    obtain ⟨_, _, hw, he, _⟩ := h.story.open_attempt ha ho
    exact ⟨by rw [show d.leasedBy = _ from hw]; rfl, by rw [show d.leaseExpiresAt = _ from he]; rfl⟩

/-- Conservation, the edges, the four ends, and no stranding, in every reachable state. -/
theorem delivery_lifecycle (cfg : Settings) {s : State} (h : (system cfg).Reachable s) :
    (∀ e ∈ s.db.events.rows, ∀ c, Subscribed s.db.cast e c →
      ∀ t, (system cfg).Execution s t →
        ∃! d, d ∈ t.db.deliveries.rows ∧ d.eventId = e.id ∧ d.consumerId = c) ∧
    (∀ d ∈ s.db.deliveries.rows,
      ∃ e ∈ s.db.events.rows, d.eventId = e.id ∧ Subscribed s.db.cast e d.consumerId) ∧
    (∀ e t, Step cfg s e t → Transition s.db t.db) ∧
    (∀ t, (system cfg).Execution s t →
      ∀ d ∈ s.db.deliveries.rows, d.state.terminal → d ∈ t.db.deliveries.rows) ∧
    ∀ d ∈ s.db.deliveries.rows, NotStranded d := by
  have hi := reachable_invariant h
  refine ⟨fun e he c hc t hx => ?_, fun d hd => ?_, fun e t hs => step_transition hi hs,
    fun t hx d hd ht => execution_keeps_terminal h hx hd ht,
    fun d hd => notStranded_of_sound (hi.files d hd)⟩
  · obtain ⟨hcast, hevents⟩ := execution_ledger h hx
    exact conserved_unique (reachable_conserved (h.trans hx)) (hevents e he) (hcast ▸ hc)
  · have hmem : Delivery.pair d ∈ pairsOf s.db.cast s.db.events.rows := by
      rw [← reachable_conserved h]
      exact List.mem_map_of_mem hd
    obtain ⟨e, he, hid, hc⟩ := mem_pairsOf.mp hmem
    exact ⟨e, he, hid.symm, hc⟩

/-- The law at work: one event, admitted and claimed. -/
theorem delivery_lifecycle_first_claim :
    ∃ s, run shipped (initial soleConsumer []) firstClaim = some s ∧
      ∃ d ∈ s.db.deliveries.rows, d.state = .inFlight ∧ NotStranded d := by
  obtain ⟨s, hs, d, hd, hin⟩ := firstClaim_inFlight
  exact ⟨s, hs, d, hd, hin, (delivery_lifecycle shipped (run_reachable hs)).2.2.2.2 d hd⟩

end DeliveryLifecycle
