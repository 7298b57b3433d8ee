import WebhookRecovery.AttemptOutcomes
import WebhookRecovery.ConsistentRows
import WebhookRecovery.PassWalk

/-! Whose rows a step may touch. Ingest, workers and the passes interleave as they like, and the
rows of a simulation change in steps on that simulation alone. -/
namespace SimulationFrames

open KeyedTables RecoverySchema InterleavedPrograms DeliveryPolicy DeliveryAdmission WorkerClaim
open LeaseReaper EventIngest ConductorPass DeliveryPipeline QueueUsage PassGuarantee PassWalk
open PipelineInvariant PassStages SimulationSlices PassIsolation ConsistentRows AttemptOutcomes

def ActsOn (σ : SimulationId) (s : State) : Action → Prop
  | .ingest i _ _ => i = σ
  | .claim _ i _ _ _ => i = σ
  | .complete w _ _ => ∃ l, s.batches w = some l ∧ ∃ c ∈ l, c.request.simulationId = σ
  | .statement => ∃ i p, s.conductor = some (i, p) ∧ i.simulationId = σ
  | _ => False

def Spares (i : PassInput) (s t : Db) : Prop :=
  Consistent s → ∀ σ, σ ≠ i.simulationId → (slice σ t).deliveries = (slice σ s).deliveries

/-- Rows are where they belong, batches ask for deliveries that exist, and what is left of the pass
under way spares the others. -/
structure Framed (cfg : Settings) (s : State) : Prop where
  invariant : Invariant cfg s
  kept : Kept cfg s
  asked : ∀ w l, s.batches w = some l → Asked s.db l
  spared : UnderWay Evolves Spares s

section Passes

variable {cfg : Settings} {i : PassInput} {s t : Db}

theorem spares_of_only (h : Consistent s → Only i.simulationId s t) : Spares i s t :=
  fun hs σ hσ => congrArg Slice.deliveries (h hs σ hσ)

theorem spares_of_frame (h : Frame s t) : Spares i s t := by
  intro _ σ _
  simp only [slice, h.deliveries]

/-- What is dropped or admitted is due, and so it is of the simulation of the pass. -/
theorem pass_spares (s : Db) :
    (pass cfg i).Guarantees Evolves (Spares i) (fun _ _ => True) s := by
  have hcalm : Calm Evolves := ⟨fun _ _ _ h k => h.trans k, fun _ _ h => h.evolves,
    fun _ _ h => h.cast⟩
  have hnames : ∀ {ids : List ℕ} {v : Db}, (∀ n ∈ ids, ∃ d, Due i d v ∧ d.id = n) →
      Names i.simulationId ids v := by
    intro ids v h d hd hin
    obtain ⟨e, hdue, hid⟩ := h d.id hin
    obtain rfl : e = d := v.deliveries.row_unique hdue.1 hd hid
    exact hdue.2.2.1
  apply pass_walk hcalm (fun _ _ h => spares_of_frame h)
  · exact fun s => spares_of_only fun hs => reclaim_only hs i.locked
  · exact fun s => spares_of_only fun _ => retire_only
  · intro sel v z hsel hz
    refine ⟨spares_of_only fun _ => drops_only (hnames fun n hn => ?_), fun a ha => ?_⟩
    · obtain ⟨x, hx, rfl⟩ := List.mem_map.mp hn
      exact hsel.dropped_due (fun _ _ h => h) hz hx
    · refine spares_of_only fun _ => ready_only (hnames fun n hn => ?_)
      exact hsel.admitted_due (fun _ _ h => h) hz ha hn

theorem write_only (hs : Consistent s) (hw : PassWrite cfg i s t) (hspared : Spares i s t) :
    Only i.simulationId s t := by
  cases hw with
  | reclaim => exact reclaim_only hs i.locked
  | chart h => exact charts_only h
  | retire => exact retire_only
  | admits h =>
    intro σ hσ
    have hd := hspared hs σ hσ
    cases h with
    | read => rfl
    | drop drops =>
      rw [slice_applyDrops] at hd ⊢
      simp only at hd
      rw [hd]
    | ready ids =>
      rw [slice_markReady] at hd ⊢
      simp only at hd
      rw [hd]

end Passes

def Foreign (σ : SimulationId) (ids : List ℕ) (db : Db) : Prop :=
  ∀ d ∈ db.deliveries.rows, d.id ∈ ids → d.simulationId ≠ σ

section Transactions

variable {cfg : Settings} {σ τ : SimulationId} {now : ℚ} {s t : Db}

theorem slice_of_parts (hc : t.cast = s.cast) (hs : t.simulations = s.simulations)
    (hm : t.metrics = s.metrics) (he : (slice σ t).events = (slice σ s).events)
    (hd : (slice σ t).deliveries = (slice σ s).deliveries)
    (ha : (slice σ t).attempts = (slice σ s).attempts) : slice σ t = slice σ s := by
  simp only [slice, Slice.mk.injEq] at he hd ha ⊢
  rw [hc, hs, hm]
  exact ⟨rfl, rfl, rfl, rfl, he, hd, ha, rfl⟩

theorem foreign_update {ids : List ℕ} {f : Delivery → Delivery} (h : Foreign σ ids s)
    (hrows : t.deliveries.rows = s.deliveries.rows.map f)
    (hsim : ∀ d, (f d).simulationId = d.simulationId) (hout : ∀ d, d.id ∉ ids → f d = d) :
    (slice σ t).deliveries = (slice σ s).deliveries := by
  simp only [slice, hrows]
  apply filter_map_aside (g := Delivery.simulationId)
  intro d hd
  by_cases hin : d.id ∈ ids
  · have hne := h d hd hin
    exact Or.inr ⟨hne, (hsim d).symm ▸ hne⟩
  · exact Or.inl (hout d hin)

theorem ingest_aside (hne : τ ≠ σ) (specs : List EventSpec) :
    slice σ (ingestEvents τ now specs s) = slice σ s := by
  refine slice_of_parts rfl rfl rfl ?_ ?_ rfl
  · have he := ingestEvents_filter τ σ now specs s
    rwa [if_neg hne, List.append_nil] at he
  · have hnone : (((fanOut τ specs s.cast (newEvents τ now specs s.events)).zipIdx
        s.deliveries.next).map fun x => deliveryRow x.2 x.1).filter
          (fun d => d.simulationId == σ) = [] := by
      rw [List.filter_eq_nil_iff]
      intro d hd hσ
      obtain ⟨x, hx, rfl⟩ := List.mem_map.mp hd
      obtain ⟨e, he, hp⟩ := List.mem_flatMap.mp (List.fst_mem_of_mem_zipIdx hx)
      obtain ⟨c, -, hc⟩ := List.mem_map.mp hp
      obtain ⟨y, -, rfl⟩ := List.mem_map.mp he
      apply hne
      rw [beq_iff_eq, deliveryRow, ← hc] at hσ
      exact hσ
    simp only [slice, ingestEvents_deliveries, List.filter_append, hnone, List.append_nil]

/-- A claim touches rows of its own simulation only, the stale ones included. -/
theorem claim_aside (hne : τ ≠ σ) (scan : ScanOrder) (locked : ℕ → Bool) (w : WorkerId)
    (limit : ℕ) : slice σ (claimBatch cfg scan locked τ w now limit s).1 = slice σ s := by
  refine slice_of_parts rfl rfl rfl rfl ?_ ?_
  · obtain ⟨f, hf, htaken⟩ := claimBatch_taken cfg scan locked τ w now limit s
    simp only [slice, hf]
    apply filter_map_aside (g := Delivery.simulationId)
    intro d hd
    have ht := htaken d hd
    generalize f d = e at ht ⊢
    cases ht with
    | kept => exact Or.inl rfl
    | leased hr hrd | expired hr hrd =>
      have hsim : d.simulationId = τ := hrd ▸ (mem_claimRows hr).2.1
      have hout : d.simulationId ≠ σ := fun hσ => hne (hsim.symm.trans hσ)
      exact Or.inr ⟨hout, hout⟩
  · simp only [slice, claimBatch_attempts, List.filter_append, List.append_right_eq_self]
    rw [List.filter_eq_nil_iff]
    intro a ha hσ
    obtain ⟨x, -, rfl⟩ := List.mem_map.mp ha
    exact hne (beq_iff_eq.mp hσ)

theorem complete_aside (hs : Consistent s) {w : WorkerId} {l : List Claimed} (hb : Batch s w l)
    (ha : Asked s l) {completions : List Completion} (hc : ∀ c ∈ completions, c.claimed ∈ l)
    (hσ : ∀ x ∈ l, x.request.simulationId ≠ σ) :
    slice σ (completeBatch cfg w completions now s) = slice σ s := by
  have hdeliveries : (completeBatch cfg w completions now s).deliveries.rows = _ :=
    Table.executemany_rows _ _ _ _ _
  have hattempts : (completeBatch cfg w completions now s).attempts.rows = _ :=
    Table.executemany_rows _ _ _ _ _
  have hforeign : ∀ x ∈ l, ∀ d ∈ s.deliveries.rows, d.id = x.request.deliveryId →
      d.simulationId ≠ σ := by
    intro x hx d hd hid hsim
    obtain ⟨e, he, c, -, -, hreq⟩ := ha x hx
    have hxe : x.request.deliveryId = e.id := by rw [hreq]; rfl
    obtain rfl : d = e := s.deliveries.row_unique hd he (hid.trans hxe)
    apply hσ x hx
    rw [hreq]
    exact hsim
  refine slice_of_parts rfl rfl rfl rfl ?_ ?_
  · have hids : Foreign σ (completions.map fun c => c.claimed.request.deliveryId) s := by
      intro d hd hin
      obtain ⟨c, hm, hid⟩ := List.mem_map.mp hin
      exact hforeign _ (hc c hm) d hd hid.symm
    apply foreign_update hids hdeliveries
    · exact applyAll_field (g := Delivery.simulationId) (fun x d => by cases x.2 <;> rfl) _
    · intro d hout
      refine applyAll_of_notMem (k := Prod.fst) (fun x r hx => ?_) fun x hx hid => ?_
      · simp only [Bool.and_eq_true, beq_iff_eq] at hx
        exact hx.1.symm
      · obtain ⟨c, hm, rfl⟩ := List.mem_map.mp ((settlements_perm cfg now completions).subset hx)
        exact hout (List.mem_map.mpr ⟨c, hm, hid⟩)
  · simp only [slice, hattempts]
    apply filter_map_aside (g := Attempt.simulationId)
    intro a hrow
    by_cases hsim : a.simulationId = σ
    · left
      refine applyAll_of_notMem (k := fun c : Completion => c.claimed.attemptId)
        (fun x r hx => ?_) fun c hm hid => ?_
      · simp only [Bool.and_eq_true, beq_iff_eq] at hx
        exact hx.1.symm
      · obtain ⟨b, hbrow, hbid, hdel, -⟩ := hb.recorded _ (hc c hm)
        obtain rfl : b = a := s.attempts.row_unique hbrow hrow (hbid.trans hid)
        obtain ⟨d, hd, hda, hds⟩ := hs.attempts b hrow
        exact hforeign _ (hc c hm) d hd (hda.trans hdel) (hds.trans hsim)
    · right
      have hfield := applyAll_field (g := Attempt.simulationId)
        (p := fun (c : Completion) a => a.id == c.claimed.attemptId && a.isOpen)
        (f := fun c => closeRow now c.result) (fun _ _ => rfl) completions a
      exact ⟨hsim, fun hx => hsim (hfield.symm.trans hx)⟩

end Transactions

section Steps

variable {cfg : Settings} {σ : SimulationId} {s t : State} {e : Action}

theorem initial_framed {cast : Cast} {simulations : List Simulation}
    (hsub : OwnSubscriptions cast) (hsims : (simulations.map Simulation.id).Nodup)
    (hspeed : ∀ x ∈ simulations, 0 < x.speedMultiplier) :
    Framed cfg (initial cast simulations) where
  invariant := initial_invariant cast simulations
  kept := {
    rows := ⟨hsims, hspeed, (fun _ h => nomatch h), (fun _ h => nomatch h)⟩
    subscriptions := hsub
    pass := fun _ _ h => nomatch h }
  asked := fun _ _ h => nomatch h
  spared := fun _ _ h => nomatch h

theorem step_framed (h : Framed cfg s) (hs : Step cfg s e t) : Framed cfg t := by
  have hi := h.invariant
  refine ⟨step_invariant hi hs, step_kept h.kept hs, fun w l hl => ?_, ?_⟩
  · apply step_asked hi hs
    rcases step_batch hs hl with hl | ⟨sim, now, locked, scan, -, rfl⟩
    · exact h.asked w l hl
    · exact claim_asked
  · exact step_under_way (fun _ _ _ h k => h.trans k) (fun i _ => pass_spares s.db) hs
      (fun _ he => step_evolves hi hs he) (.refl _) h.spared

theorem step_aside (h : Framed cfg s) (hs : Step cfg s e t) (ha : ¬ ActsOn σ s e) :
    slice σ t.db = slice σ s.db := by
  obtain ⟨-, rfl⟩ := hs
  cases e with
  | ingest i now specs => exact ingest_aside ha specs
  | claim w i now locked scan => exact claim_aside ha scan locked w _
  | complete w results now =>
    cases hb : s.batches w with
    | none =>
      refine complete_aside (l := []) h.kept.rows ⟨.nil, .nil, fun _ h => nomatch h⟩
        (fun _ h => nomatch h) ?_ fun _ h => nomatch h
      intro c hc
      rw [completions, hb] at hc
      cases hc
    | some l =>
      refine complete_aside h.kept.rows (h.invariant.batches w l hb) (h.asked w l hb) ?_ ?_
      · intro c hc
        rw [completions, hb] at hc
        obtain ⟨k, hk, hget⟩ := List.mem_iff_getElem.mp hc
        rw [← hget, List.getElem_zipWith]
        exact List.getElem_mem _
      · exact fun c hc hσ => ha ⟨l, hb, c, hc, hσ⟩
  | statement =>
    rcases statement_cases cfg s with ⟨i, write, k, hc⟩ | hn
    · rw [next_statement hc]
      have hspared := (h.spared i _ hc s.db (.refl _)).1
      have hwrite := (h.kept.pass i _ hc s.db).1
      exact write_only h.kept.rows hwrite hspared σ fun hσ => ha ⟨i, _, hc, hσ.symm⟩
    · rw [hn]
  | abandon | beginPass | endPass => rfl

structure Idle (σ : SimulationId) (s : State) : Prop where
  batches : ∀ w l, s.batches w = some l → ∀ c ∈ l, c.request.simulationId ≠ σ
  pass : ∀ i p, s.conductor = some (i, p) → i.simulationId ≠ σ

theorem step_idle (hs : Step cfg s e t) (h : Idle σ s) (ha : ¬ ActsOn σ s e)
    (hb : ∀ i, e = .beginPass i → i.simulationId ≠ σ) : Idle σ t := by
  constructor
  · intro w l hl c hc
    rcases step_batch hs hl with hl | ⟨sim, now, locked, scan, rfl, rfl⟩
    · exact h.batches w l hl c hc
    · rw [claimBatch_claimed] at hc
      obtain ⟨x, -, rfl⟩ := List.mem_map.mp hc
      exact ha
  · intro i p hp
    rcases step_conductor hs hp with ⟨q, hq⟩ | rfl
    · exact h.pass i q hq
    · exact hb i rfl

theorem Idle.acts (h : Idle σ s) (ha : ActsOn σ s e) :
    (∃ now specs, e = .ingest σ now specs) ∨
      ∃ w now locked scan, e = .claim w σ now locked scan := by
  cases e with
  | ingest i now specs => exact Or.inl ⟨now, specs, by rw [show i = σ from ha]⟩
  | claim w i now locked scan =>
    exact Or.inr ⟨w, now, locked, scan, by rw [show i = σ from ha]⟩
  | complete w results now =>
    obtain ⟨l, hl, c, hc, hσ⟩ := ha
    exact absurd hσ (h.batches w l hl c hc)
  | statement =>
    obtain ⟨i, p, hp, hσ⟩ := ha
    exact absurd hσ (h.pass i p hp)
  | abandon | beginPass | endPass => exact ha.elim

def attemptsBy (σ : SimulationId) (w : WorkerId) (db : Db) : ℕ :=
  db.attempts.rows.countP fun a => a.simulationId == σ && a.workerId == w

theorem claim_attempts (scan : ScanOrder) (locked : ℕ → Bool) (τ : SimulationId) (v w : WorkerId)
    (now : ℚ) (limit : ℕ) (db : Db) :
    attemptsBy σ w (claimBatch cfg scan locked τ v now limit db).1 ≤
      attemptsBy σ w db + if v = w ∧ τ = σ then limit else 0 := by
  have hlive : (liveRows scan locked τ now limit db).length ≤ limit :=
    (List.length_filter_le _ _).trans (List.length_take_le _ _)
  simp only [attemptsBy, claimBatch_attempts, List.countP_append]
  apply Nat.add_le_add_left
  split
  · refine List.countP_le_length.trans ?_
    rwa [List.length_map, List.length_zipIdx]
  · rename_i hother
    rw [Nat.le_zero, List.countP_eq_zero]
    intro a ha hmine
    obtain ⟨x, -, rfl⟩ := List.mem_map.mp ha
    simp only [attemptRow, Bool.and_eq_true, beq_iff_eq] at hmine
    exact hother ⟨hmine.2, hmine.1⟩

theorem step_attempts (hi : Invariant cfg s) (hs : Step cfg s e t) (w : WorkerId) :
    attemptsBy σ w t.db ≤ attemptsBy σ w s.db ∨
      ∃ now locked scan, e = .claim w σ now locked scan ∧
        attemptsBy σ w t.db ≤ attemptsBy σ w s.db + cfg.workerBatchSize := by
  by_cases hclaim : ∃ v τ now locked scan, e = .claim v τ now locked scan
  · obtain ⟨v, τ, now, locked, scan, rfl⟩ := hclaim
    obtain ⟨-, rfl⟩ := hs
    have hle : attemptsBy σ w (next cfg s (.claim v τ now locked scan)).db ≤ _ :=
      claim_attempts scan locked τ v w now cfg.workerBatchSize s.db
    split at hle
    · rename_i hmine
      obtain ⟨rfl, rfl⟩ := hmine
      exact Or.inr ⟨now, locked, scan, rfl, hle⟩
    · exact Or.inl hle
  · obtain ⟨g, more, hg, hkept, hmore⟩ := (step_effect hi hs).attempts
    have hnone : more = [] := by
      refine List.eq_nil_iff_forall_not_mem.mpr fun a ha => ?_
      obtain ⟨hstart, -⟩ := hmore a ha
      cases e with
      | claim v τ now locked scan => exact hclaim ⟨v, τ, now, locked, scan, rfl⟩
      | ingest | complete | abandon | beginPass | statement | endPass => cases hstart
    left
    rw [attemptsBy, hg, hnone, List.append_nil, List.countP_map, attemptsBy]
    apply le_of_eq
    apply List.countP_congr
    intro a _
    simp only [Function.comp_apply, (hkept a).simulation, (hkept a).worker]

end Steps

end SimulationFrames
