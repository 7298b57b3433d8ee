import WebhookRecovery.PassIsolation
import WebhookRecovery.DeliveryPipeline

/-! The rows that ingest, the workers and the conductor write belong to whom they should: from a
cast in which a simulation subscribes its own consumers, at speeds that are positive, every state of
a run is consistent. -/
namespace ConsistentRows

open KeyedTables RecoverySchema InterleavedPrograms WorkerClaim EventIngest ConductorPass PassStages
open DeliveryPipeline SimulationSlices PassIsolation

def OwnSubscriptions (cast : Cast) : Prop :=
  ∀ x ∈ cast.subscriptions,
    ∃ c ∈ cast.consumers, c.id = x.consumerId ∧ c.simulationId = x.simulationId

section Transactions

variable {cfg : Settings} {s t : Db} {simulationId : SimulationId} {now : ℚ}

theorem fanOut_own (h : OwnSubscriptions s.cast) {specs : List EventSpec} {p : Event × ConsumerId}
    (hp : p ∈ fanOut simulationId specs s.cast (newEvents simulationId now specs s.events)) :
    ∃ c ∈ s.cast.consumers, c.id = p.2 ∧ c.simulationId = p.1.simulationId := by
  obtain ⟨e, he, hp⟩ := List.mem_flatMap.mp hp
  obtain ⟨c, hc, rfl⟩ := List.mem_map.mp hp
  obtain ⟨x, hx, rfl⟩ := List.mem_map.mp hc
  obtain ⟨hx, hsim⟩ := List.mem_filter.mp (List.mem_of_mem_filter hx)
  obtain ⟨k, hk, hid, hkx⟩ := h x hx
  obtain ⟨y, -, rfl⟩ := List.mem_map.mp he
  simp only [Bool.and_eq_true, beq_iff_eq] at hsim
  exact ⟨k, hk, hid, hkx.trans hsim.1⟩

theorem ingest_consistent (hs : OwnSubscriptions s.cast) (h : Consistent s)
    (specs : List EventSpec) : Consistent (ingestEvents simulationId now specs s) where
  simulations := h.simulations
  speeds := h.speeds
  deliveries := by
    intro d hd
    rw [ingestEvents_deliveries] at hd
    rcases List.mem_append.mp hd with hd | hd
    · exact h.deliveries d hd
    · obtain ⟨x, hx, rfl⟩ := List.mem_map.mp hd
      exact fanOut_own hs (List.fst_mem_of_mem_zipIdx hx)
  attempts := by
    intro a ha
    obtain ⟨d, hd, hid, hsim⟩ := h.attempts a ha
    refine ⟨d, ?_, hid, hsim⟩
    rw [ingestEvents_deliveries]
    exact List.mem_append_left _ hd

theorem claim_consistent (h : Consistent s) (scan : ScanOrder) (locked : ℕ → Bool) (w : WorkerId)
    (limit : ℕ) : Consistent (claimBatch cfg scan locked simulationId w now limit s).1 := by
  obtain ⟨f, hf, hrows⟩ := claimBatch_rows cfg scan locked simulationId w now limit s
  have hfields : ∀ d ∈ s.deliveries.rows, owner (f d) = owner d := by
    intro d hd
    rcases hrows d hd with ⟨-, hd⟩ | ⟨-, hd | ⟨-, reason, hd⟩⟩ <;> rw [hd] <;> rfl
  have hmoved : ∀ d ∈ s.deliveries.rows, ∃ e ∈
      (claimBatch cfg scan locked simulationId w now limit s).1.deliveries.rows,
      owner e = owner d := by
    intro d hd
    rw [hf]
    exact ⟨f d, List.mem_map_of_mem hd, hfields d hd⟩
  refine ⟨h.simulations, h.speeds, fun d hd => ?_, fun a ha => ?_⟩
  · rw [hf] at hd
    obtain ⟨e, he, rfl⟩ := List.mem_map.mp hd
    have heq := hfields e he
    simp only [owner, Prod.mk.injEq] at heq
    rw [heq.2.1, heq.2.2]
    exact h.deliveries e he
  · rw [claimBatch_attempts] at ha
    have hparent : ∃ d ∈ s.deliveries.rows, d.id = a.deliveryId ∧
        d.simulationId = a.simulationId := by
      rcases List.mem_append.mp ha with ha | ha
      · exact h.attempts a ha
      · obtain ⟨x, hx, rfl⟩ := List.mem_map.mp ha
        obtain ⟨hd, hsim, -⟩ := mem_liveRows (List.fst_mem_of_mem_zipIdx hx)
        exact ⟨_, hd, rfl, hsim⟩
    obtain ⟨d, hd, hid, hsim⟩ := hparent
    obtain ⟨e, he, heq⟩ := hmoved d hd
    simp only [owner, Prod.mk.injEq] at heq
    exact ⟨e, he, heq.1.trans hid, heq.2.1.trans hsim⟩

theorem complete_consistent (h : Consistent s) (w : WorkerId) (completions : List Completion) :
    Consistent (completeBatch cfg w completions now s) := by
  have hd : (completeBatch cfg w completions now s).deliveries.rows = _ :=
    Table.executemany_rows _ _ _ _ _
  have ha : (completeBatch cfg w completions now s).attempts.rows = _ :=
    Table.executemany_rows _ _ _ _ _
  refine Consistent.kept h rfl rfl ?_ ?_
  · rw [hd]
    refine columns_map (applyAll_field (g := owner) (fun x d => ?_) _)
    cases x.2 <;> rfl
  · rw [ha]
    exact columns_map (applyAll_field (f := fun c : Completion => closeRow now c.result)
      (g := parent) (fun _ _ => rfl) _)

theorem PassWrite.cast {i : PassInput} (h : PassWrite cfg i s t) : t.cast = s.cast := by
  cases h with
  | reclaim => rfl
  | chart h => cases h <;> rfl
  | retire => rfl
  | admits h => cases h <;> rfl

end Transactions

/-- The rows are consistent, and what is left of the pass under way keeps them so. -/
structure Kept (cfg : Settings) (s : State) : Prop where
  rows : Consistent s.db
  subscriptions : OwnSubscriptions s.db.cast
  pass : ∀ i p, s.conductor = some (i, p) → p.Writes (PassWrite cfg i)

section Runs

variable {cfg : Settings} {s t : State} {e : Action}

theorem step_kept (h : Kept cfg s) (hs : Step cfg s e t) : Kept cfg t := by
  obtain ⟨-, rfl⟩ := hs
  cases e with
  | ingest sim now specs => exact ⟨ingest_consistent h.subscriptions h.rows specs,
      h.subscriptions, h.pass⟩
  | claim w sim now locked scan =>
    exact ⟨claim_consistent h.rows scan locked w _, h.subscriptions, h.pass⟩
  | complete w results now => exact ⟨complete_consistent h.rows w _, h.subscriptions, h.pass⟩
  | abandon w => exact ⟨h.rows, h.subscriptions, h.pass⟩
  | beginPass i =>
    refine ⟨h.rows, h.subscriptions, fun j p hp => ?_⟩
    obtain ⟨rfl, rfl⟩ := Prod.mk.inj (Option.some.inj hp)
    exact pass_writes cfg i
  | statement =>
    rcases hc : s.conductor with _ | ⟨i, _ | ⟨write, k⟩⟩
    · simpa only [next, hc] using h
    · simpa only [next, hc] using h
    · obtain ⟨hw, hk⟩ := h.pass i _ hc s.db
      simp only [next, hc]
      refine ⟨PassWrite.consistent hw h.rows, ?_, fun j p hp => ?_⟩
      · exact (PassWrite.cast hw).symm ▸ h.subscriptions
      · obtain ⟨rfl, rfl⟩ := Prod.mk.inj (Option.some.inj hp)
        exact hk
  | endPass => exact ⟨h.rows, h.subscriptions, fun j p hp => nomatch hp⟩

/-- Every state of a run is consistent. -/
theorem execution_consistent {cast : Cast} {simulations : List Simulation}
    (hsub : OwnSubscriptions cast) (hsims : (simulations.map Simulation.id).Nodup)
    (hspeed : ∀ x ∈ simulations, 0 < x.speedMultiplier)
    (h : (system cfg).Execution (initial cast simulations) s) : Consistent s.db := by
  have hkept : Kept cfg s := by
    induction h with
    | refl =>
      have hrows : Consistent (Db.seeded cast simulations) :=
        ⟨hsims, hspeed, (fun _ h => nomatch h), (fun _ h => nomatch h)⟩
      exact ⟨hrows, hsub, fun _ _ h => nomatch h⟩
    | tail _ he ih =>
      obtain ⟨e, he⟩ := he
      exact step_kept ih he
  exact hkept.rows

end Runs

end ConsistentRows
