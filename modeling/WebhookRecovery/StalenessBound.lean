import WebhookRecovery.DeliveryLifecycle

/-! The staleness bound on both planes. A worker looks at the bound when it attempts and a pass
when it drops, at different instants and with retries and reclaims in between. -/
namespace StalenessBound

open KeyedTables RecoverySchema InterleavedPrograms DeliveryPolicy DeliveryAdmission WorkerClaim
open LeaseReaper EventIngest ConductorPass DeliveryPipeline QueueUsage DeliveryFile
open PassGuarantee PipelineInvariant DeliveryLifecycle

def boundOf (cast : Cast) (d : Delivery) : Option ℚ :=
  (cast.policies.find? fun p =>
    p.consumerId == d.consumerId && p.eventType == d.eventType).bind DeliveryPolicy.maxStalenessS

def Overdue (cast : Cast) (now : ℚ) (d : Delivery) : Prop :=
  ∃ m ∈ boundOf cast d, m < now - d.createdAt

def ExpiredLate (cast : Cast) (d : Delivery) : Prop :=
  ∃ t, d.completedAt = some t ∧ Overdue cast t d

def Honest (s t : Db) : Prop :=
  t.cast = s.cast ∧ ∀ d ∈ t.deliveries.rows, d.state = .expired →
    d ∈ s.deliveries.rows ∨ ExpiredLate s.cast d

section Bounds

variable {cast : Cast} {now : ℚ} {d d' : Delivery}

theorem overdue_congr (h : candidateOf d' = candidateOf d) :
    Overdue cast now d' ↔ Overdue cast now d := by
  simp only [candidateOf, Candidate.mk.injEq] at h
  obtain ⟨-, hc, ht, -, hat⟩ := h
  simp only [Overdue, boundOf, hc, ht, hat]

theorem Overdue.later {now' : ℚ} (h : Overdue cast now d) (hn : now ≤ now') :
    Overdue cast now' d := by
  obtain ⟨m, hm, hlt⟩ := h
  exact ⟨m, hm, hlt.trans_le (sub_le_sub_right hn _)⟩

theorem claimRow_bound {db : Db} {r : ClaimRow} (h : claimRow db d = some r) :
    r.maxStalenessS = boundOf db.cast d := by
  obtain ⟨c, _, rfl⟩ := Option.map_eq_some_iff.mp h
  rfl

/-- The conductor looks the bound up by the simulation too, and finds the same one if any. -/
theorem policyOf_bound {simulationId : SimulationId} {db : Db} {m : ℚ}
    (h : (policyOf (loadPolicies simulationId db) (candidateOf d)).maxStalenessS = some m) :
    boundOf db.cast d = some m := by
  rcases policyOf_cases simulationId db d with hnone | ⟨p, hp, hcon, htype, hpolicy⟩
  · rw [hnone] at h
    cases h
  · rw [hpolicy] at h
    have hfind : db.cast.policies.find? (fun p =>
        p.consumerId == d.consumerId && p.eventType == d.eventType) = some p := by
      cases hq : db.cast.policies.find? fun p =>
          p.consumerId == d.consumerId && p.eventType == d.eventType with
      | none => simpa [hcon, htype] using List.find?_eq_none.mp hq p hp
      | some q =>
        have hqkey := List.find?_some hq
        simp only [Bool.and_eq_true, beq_iff_eq] at hqkey
        refine congrArg some (List.inj_on_of_nodup_map db.cast.policy_key
          (List.mem_of_find?_eq_some hq) hp ?_)
        rw [hqkey.1, hqkey.2, hcon, htype]
    rw [boundOf, hfind]
    exact h

end Bounds

section Passes

variable {cfg : Settings} {i : PassInput} {s t : Db} {d : Delivery}

def Late (i : PassInput) (x : Drop) (s : Db) : Prop :=
  x.state = .expired → ∃ d ∈ s.deliveries.rows, d.state = .pending ∧ d.id = x.deliveryId ∧
    Overdue s.cast i.now d

theorem Late.evolves {x : Drop} (h : Late i x s) (he : Evolves s t) : Late i x t := by
  intro hx
  obtain ⟨d, hd, hp, hid, hover⟩ := h hx
  exact ⟨d, he.pending d hd hp, hp, hid, by rwa [he.cast]⟩

theorem honest_of_frame (h : Frame s t) : Honest s t :=
  ⟨h.cast, fun d hd _ => Or.inl (by rwa [← h.deliveries])⟩

/-- The rule for updates: what expires is late, and every other row does not expire. -/
theorem honest_of_map {f : Delivery → Delivery} (hc : t.cast = s.cast)
    (hf : t.deliveries.rows = s.deliveries.rows.map f)
    (h : ∀ d ∈ s.deliveries.rows, (f d).state = .expired → f d = d ∨ ExpiredLate s.cast (f d)) :
    Honest s t := by
  refine ⟨hc, fun d' hd' hs => ?_⟩
  rw [hf] at hd'
  obtain ⟨d, hd, rfl⟩ := List.mem_map.mp hd'
  refine (h d hd hs).imp_left fun he => ?_
  rwa [he]

theorem reclaim_honest : Honest s (reclaimExpiredLeases cfg i.simulationId i.now i.locked s) := by
  obtain ⟨f, hf, hrow⟩ := reclaim_rows cfg i.simulationId i.now i.locked s
  refine honest_of_map rfl hf fun d hd hs => ?_
  rcases hrow d hd with ⟨-, he⟩ | ⟨-, he⟩
  · rw [he] at hs
    have hs' : (settleRow i.now (reclaimSettlement cfg i.now d) d).state = .expired := hs
    have hedge := settleRow_edge i.now (reclaimSettlement cfg i.now d) d
    rw [hs'] at hedge
    cases hedge
  · exact Or.inl he

theorem applyDrops_honest {drops : List Drop} (h : ∀ x ∈ drops, Late i x s) :
    Honest s (applyDrops drops i.now s) := by
  obtain ⟨f, hf, hrow⟩ := applyDrops_rows drops i.now s
  refine honest_of_map rfl hf fun d hd hs => ?_
  rcases hrow d with ⟨-, he⟩ | ⟨x, hx, hid, he⟩
  · exact Or.inl he
  · rw [he] at hs ⊢
    obtain ⟨e, hm, -, hex, hover⟩ := h x hx hs
    have hed : e = d := s.deliveries.row_unique hm hd (hex.trans hid)
    subst hed
    exact Or.inr ⟨i.now, rfl, (overdue_congr rfl).mpr hover⟩

theorem markReady_honest {ids : List ℕ} : Honest s (markReady ids i.now s) := by
  refine honest_of_map rfl (markReady_rows _ _ _) fun d _ hs => ?_
  by_cases hm : d.id ∈ ids
  · rw [if_pos hm] at hs
    cases hs
  · exact Or.inl (if_neg hm)

theorem staleDrop_late {candidates : List Candidate} {policies : PolicyMap} {now : ℚ} {x : Drop}
    {simulationId : SimulationId}
    (h : x ∈ (evaluate simulationId candidates policies now s).drops) (hx : x.state = .expired) :
    ∃ c ∈ candidates, x.deliveryId = c.id ∧
      ∃ m, (policyOf policies c).maxStalenessS = some m ∧ m < now - c.createdAt := by
  simp only [evaluate, List.mem_append, List.mem_filterMap] at h
  rcases h with ⟨c, hc, hd⟩ | ⟨c, -, hd⟩
  · have hsome : (staleBy now c.createdAt (policyOf policies c).maxStalenessS).isSome := by
      simp only [staleDrop, Option.map_eq_some_iff] at hd
      obtain ⟨o, ho, -⟩ := hd
      rw [ho]
      rfl
    exact ⟨c, hc, (staleDrop_fields hd).1, staleBy_isSome.mp hsome⟩
  · rw [(supersededDrop_fields hd).2] at hx
    cases hx

theorem frame_guarantees {α : Type} {p : Program Db α} (hp : p.Writes Frame) {Q : α → Db → Prop}
    (h : ∀ a t, Evolves s t → Q a t) : p.Guarantees Evolves Honest Q s :=
  hp.guarantees Evolves.refl (fun _ _ _ h k => h.trans k) (fun _ _ h => h)
    (fun _ _ h => h.evolves) (fun _ _ h => honest_of_frame h) h

theorem selectCandidates_late {budget : Budget} {gauges : MetricsSeries.Gauges}
    {policies : PolicyMap} {fairDrain : Bool} {Q : Selection → Db → Prop}
    (hp : policies = loadPolicies i.simulationId s)
    (h : ∀ sel t, Evolves s t → (∀ x ∈ sel.drops, Late i x t) → Q sel t) :
    (selectCandidates cfg i.scan i.simulationId i.now budget gauges policies fairDrain).Guarantees
      Evolves Honest Q s := by
  rw [selectCandidates]
  split
  · exact Program.Guarantees.pure (h _ s (.refl s) (by simp))
  refine Program.Guarantees.bind (frame_guarantees (readConsumerStates_frame _ _ _ _)
    fun states t ht => ?_)
  dsimp only
  split
  · exact Program.Guarantees.pure (h _ t ht (by simp))
  refine Program.Guarantees.bind (Program.Guarantees.read fun u hu => ⟨honest_of_frame .refl, ?_⟩)
  refine Program.Guarantees.bind (Program.Guarantees.read fun v hv => ⟨honest_of_frame .refl, ?_⟩)
  have hall := (ht.trans hu).trans hv
  refine Program.Guarantees.pure (h _ v hall fun x hx hs => ?_)
  obtain ⟨c, hc, hid, m, hm, hlt⟩ := staleDrop_late hx hs
  obtain ⟨d, hd, hdue, rfl⟩ := mem_fetchCandidates hc
  simp only [isDue, Bool.and_eq_true, beq_iff_eq] at hdue
  have hpol : policies = loadPolicies i.simulationId v := by
    rw [hp]
    exact (loadPolicies_of_cast hall.cast).symm
  rw [hpol] at hm
  exact ⟨d, hv.pending d hd hdue.1.2, hdue.1.2, hid.symm, m, policyOf_bound hm, hlt⟩

/-- Whatever happens between its statements, a pass expires only what is over its bound. -/
theorem pass_honest (cfg : Settings) (i : PassInput) (s : Db) :
    (pass cfg i).Guarantees Evolves Honest (fun _ _ => True) s := by
  rw [ConductorPass.pass]
  refine Program.Guarantees.bind (Program.Guarantees.write fun t _ => ⟨reclaim_honest, ?_⟩)
  refine Program.Guarantees.bind (Program.Guarantees.read fun u _ => ⟨honest_of_frame .refl, ?_⟩)
  refine Program.Guarantees.bind (frame_guarantees (metrics_frame _ _ _ _ _) fun _ v _ => ?_)
  split
  · refine Program.Guarantees.bind (Program.Guarantees.write fun w _ => ⟨?_, trivial⟩)
    exact ⟨rfl, fun d hd _ => Or.inl hd⟩
  split
  · exact Program.Guarantees.pure trivial
  refine Program.Guarantees.bind (frame_guarantees (computeBudget_frame _ _ _ _) fun b w _ => ?_)
  split
  · exact Program.Guarantees.pure trivial
  refine Program.Guarantees.bind (Program.Guarantees.read fun x _ => ⟨honest_of_frame .refl, ?_⟩)
  refine Program.Guarantees.bind (selectCandidates_late rfl fun sel y _ hlate => ?_)
  refine Program.Guarantees.bind (Program.Guarantees.write fun z hz => ?_)
  refine ⟨applyDrops_honest fun x hx => (hlate x hx).evolves hz, ?_⟩
  exact Program.Guarantees.write fun a _ => ⟨markReady_honest, trivial⟩

end Passes

section Workers

variable {cfg : Settings} {scan : ScanOrder} {locked : ℕ → Bool} {simulationId : SimulationId}
variable {w : WorkerId} {now : ℚ} {limit : ℕ} {s : Db}

theorem claimRows_overage {r : ClaimRow} (h : r ∈ claimRows scan locked simulationId limit s) :
    (r.overage now).isSome ↔ Overdue s.cast now r.delivery := by
  obtain ⟨d, _, hr⟩ := List.mem_filterMap.mp (List.mem_of_mem_take h)
  have hd := claimRow_delivery hr
  subst hd
  rw [ClaimRow.overage, claimRow_bound hr, staleBy_isSome]
  rfl

theorem live_in_time {r : ClaimRow} (h : r ∈ liveRows scan locked simulationId now limit s) :
    ¬ Overdue s.cast now r.delivery := by
  obtain ⟨hr, hnone⟩ := List.mem_filter.mp h
  rw [← claimRows_overage hr]
  simpa using hnone

theorem claim_honest : Honest s (claimBatch cfg scan locked simulationId w now limit s).1 := by
  obtain ⟨f, hf, htaken⟩ := claimBatch_taken cfg scan locked simulationId w now limit s
  refine honest_of_map rfl hf fun d hd hs => ?_
  have ht := htaken d hd
  generalize f d = e at ht hs ⊢
  cases ht with
  | kept => exact Or.inl rfl
  | leased => cases hs
  | expired hr hrd stale =>
    subst hrd
    have hover := (claimRows_overage hr).mp (by rw [stale]; rfl)
    exact Or.inr ⟨now, rfl, (overdue_congr rfl).mpr hover⟩

theorem complete_honest {completions : List Completion}
    (hn : (completions.map fun c => c.claimed.request.deliveryId).Nodup) :
    Honest s (completeBatch cfg w completions now s) := by
  obtain ⟨f, hf, hrow⟩ := completeBatch_rows cfg w now s hn
  refine honest_of_map rfl hf fun d _ hs => Or.inl ?_
  by_cases hm : ∃ c ∈ completions, c.claimed.request.deliveryId = d.id
  · obtain ⟨c, hc, hid⟩ := hm
    have he := (hrow d).2 c hc hid
    by_cases hheld : held w d
    · rw [if_pos hheld] at he
      have hedge := settleRow_edge now (settlement cfg now c) d
      rw [← he, hs] at hedge
      cases hedge
    · rw [he, if_neg hheld]
  · push Not at hm
    exact (hrow d).1 hm

theorem ingest_honest (specs : List EventSpec) :
    Honest s (ingestEvents simulationId now specs s) := by
  refine ⟨rfl, fun d hd hs => ?_⟩
  rw [ingestEvents_deliveries] at hd
  rcases List.mem_append.mp hd with hd | hd
  · exact Or.inl hd
  · obtain ⟨x, -, rfl⟩ := List.mem_map.mp hd
    cases hs

end Workers

section Steps

variable {cfg : Settings} {s t : State} {e : Action} {d d' : Delivery} {T : ℚ}
variable {simulationId : SimulationId}

theorem step_honest (hi : Invariant cfg s) (hp : UnderWay Evolves (fun _ => Honest) s)
    (h : Step cfg s e t) : Honest s.db t.db := by
  obtain ⟨hen, rfl⟩ := h
  cases e with
  | ingest sim now specs => exact ingest_honest specs
  | claim w sim now locked scan => exact claim_honest
  | complete w results now =>
    obtain ⟨l, hl, hc⟩ := enabled_complete hen
    have hn := (hi.batches w l hl).deliveries_nodup
    rw [← hc, List.map_map] at hn
    exact complete_honest hn
  | statement =>
    rcases statement_cases cfg s with ⟨i, write, k, hc⟩ | hn
    · rw [next_statement hc]
      exact (hp i _ hc s.db (.refl _)).1
    · rw [hn]
      exact honest_of_frame .refl
  | abandon w => exact honest_of_frame .refl
  | beginPass i => exact honest_of_frame .refl
  | endPass => exact honest_of_frame .refl

theorem step_attempts (hi : Invariant cfg s) (h : Step cfg s e t) {a : Attempt}
    (ha : a ∈ t.db.attempts.rows) : (∃ b ∈ s.db.attempts.rows, Kept b a) ∨
      startOf e = some (a.simulationId, a.startedAt) ∧ ∃ d ∈ t.db.deliveries.rows,
        d.id = a.deliveryId ∧ d.simulationId = a.simulationId ∧ d.state = .inFlight ∧
          ¬ Overdue t.db.cast a.startedAt d := by
  have others : startOf e = none → ∃ b ∈ s.db.attempts.rows, Kept b a := by
    intro he
    obtain ⟨g, more, hg, hkept, hmore⟩ := (step_effect hi h).attempts
    rw [hg] at ha
    rcases List.mem_append.mp ha with ha | ha
    · obtain ⟨b, hb, rfl⟩ := List.mem_map.mp ha
      exact ⟨b, hb, hkept b⟩
    · rw [he] at hmore
      cases (hmore a ha).1
  obtain ⟨hen, rfl⟩ := h
  cases e with
  | claim w sim now locked scan =>
    have ha : a ∈ (claimBatch cfg scan locked sim w now cfg.workerBatchSize s.db).1.attempts.rows :=
      ha
    rw [claimBatch_attempts] at ha
    rcases List.mem_append.mp ha with ha | ha
    · exact Or.inl ⟨a, ha, .refl a⟩
    · obtain ⟨x, hx, rfl⟩ := List.mem_map.mp ha
      have hr := List.fst_mem_of_mem_zipIdx hx
      obtain ⟨-, hsim, -⟩ := mem_liveRows hr
      exact Or.inr ⟨rfl, leaseRow cfg w now x.1.delivery, mem_leased cfg w hr, rfl, hsim, rfl,
        fun hover => live_in_time hr ((overdue_congr rfl).mp hover)⟩
  | ingest | complete | abandon | beginPass | statement | endPass => exact Or.inl (others rfl)

theorem dropped_attempts {actor : Option WorkerId} {f g : File} (h : Move cfg actor f g)
    (hs : g.delivery.state = .expired ∨ g.delivery.state = .superseded) :
    g.attempts = f.attempts := by
  cases h with
  | stay | admitted | drop | expire => rfl
  | claim => rcases hs with hs | hs <;> cases hs
  | @settle d l a now c h =>
    have hedge := settleRow_edge now (settlement cfg now c) d
    rcases hs with hs | hs <;> · rw [hs] at hedge; cases hedge
  | @reclaim d l a now h =>
    have hedge := settleRow_edge now (reclaimSettlement cfg now d) d
    have hs : (settleRow now (reclaimSettlement cfg now d) d).state = .expired ∨
        (settleRow now (reclaimSettlement cfg now d) d).state = .superseded := hs
    rcases hs with hs | hs <;> · rw [hs] at hedge; cases hedge

/-- Every attempt was within the bound when it started, and what has expired was not. -/
structure Honoured (s : State) : Prop where
  under_way : UnderWay Evolves (fun _ => Honest) s
  attempts : ∀ d ∈ s.db.deliveries.rows, ∀ a ∈ s.db.attemptsOf d.id,
    ¬ Overdue s.db.cast a.startedAt d
  expired : ∀ d ∈ s.db.deliveries.rows, d.state = .expired → ExpiredLate s.db.cast d

theorem step_honoured (hi : Invariant cfg s) (hs : Honoured s) (h : Step cfg s e t) :
    Honoured t := by
  have heff := step_effect hi h
  obtain ⟨hcast, hexpired⟩ := step_honest hi hs.under_way h
  constructor
  · exact step_under_way (fun _ _ _ h k => h.trans k) (fun i _ => pass_honest cfg i _) h
      (fun _ => step_evolves hi h) (.refl _) hs.under_way
  · intro d' hd' a ha
    obtain ⟨hrow, hid⟩ := mem_attemptsOf.mp ha
    rcases step_attempts hi h hrow with ⟨b, hb, hk⟩ | ⟨-, e, he, hea, -, -, hin⟩
    · rcases heff.delivery hd' with ⟨d, hd, hmove⟩ | hfresh
      · obtain ⟨hdid, -, -, -, hcand⟩ := hmove.identity
        have hbd : b ∈ s.db.attemptsOf d.id := by
          have hdd : d'.id = d.id := hdid
          exact mem_attemptsOf.mpr ⟨hb, hk.delivery.symm.trans (hid.trans hdd)⟩
        have hcand : candidateOf d' = candidateOf d := hcand
        rw [hcast, hk.started, overdue_congr hcand]
        exact hs.attempts d hd b hbd
      · have hnone : t.db.attemptsOf d'.id = [] := hfresh.1
        rw [hnone] at ha
        cases ha
    · have hed : e = d' := t.db.deliveries.row_unique he hd' (hea.trans hid)
      exact hed ▸ hin
  · intro d' hd' hx
    rw [hcast]
    rcases hexpired d' hd' hx with hold | hlate
    · exact hs.expired d' hold hx
    · exact hlate

theorem reachable_honoured (h : (system cfg).Reachable s) : Honoured s := by
  apply h.invariant (P := Honoured)
  · rintro _ ⟨cast, sims, rfl⟩
    refine ⟨?_, ?_, ?_⟩
    · intro i p hp
      cases hp
    · intro d hd
      cases hd
    · intro d hd
      cases hd
  · exact fun _ _ _ hr hs he => step_honoured (reachable_invariant hr) hs he

def From (simulationId : SimulationId) (T : ℚ) (_ : State) (e : Action) : Prop :=
  ∀ x ∈ startOf e, x.1 = simulationId → T ≤ x.2

theorem step_overdue (hr : (system cfg).Reachable s) (h : Step cfg s e t)
    (hf : From d.simulationId T s e) (hd : d ∈ s.db.deliveries.rows)
    (ho : Overdue s.db.cast T d) :
    (∃ d' ∈ t.db.deliveries.rows, d'.id = d.id ∧ d'.simulationId = d.simulationId ∧
      Overdue t.db.cast T d') ∧
    ∀ a ∈ t.db.attemptsOf d.id, ∃ b ∈ s.db.attemptsOf d.id, b.id = a.id := by
  have hi := reachable_invariant hr
  have heff := step_effect hi h
  obtain ⟨d', hd', hid, hmove⟩ := heff.moved hd
  obtain ⟨-, hsim, -, -, hcand⟩ := hmove.identity
  have hsim : d'.simulationId = d.simulationId := hsim
  have hcand : candidateOf d' = candidateOf d := hcand
  have ho' : Overdue t.db.cast T d' := by
    rwa [heff.cast, overdue_congr hcand]
  refine ⟨⟨d', hd', hid, hsim, ho'⟩, fun a ha => ?_⟩
  obtain ⟨hrow, had⟩ := mem_attemptsOf.mp ha
  rcases step_attempts hi h hrow with ⟨b, hb, hk⟩ | ⟨hstart, e, he, hea, hes, -, hin⟩
  · exact ⟨b, mem_attemptsOf.mpr ⟨hb, hk.delivery.symm.trans had⟩, hk.id.symm⟩
  · have hed : e = d' := t.db.deliveries.row_unique he hd' ((hea.trans had).trans hid.symm)
    subst hed
    have hT : T ≤ a.startedAt := hf _ hstart (hes.symm.trans hsim)
    exact absurd (ho'.later hT) hin

theorem execution_overdue (hs : (system cfg).Reachable s) (hd : d ∈ s.db.deliveries.rows)
    (ho : Overdue s.db.cast T d)
    (h : ((system cfg).restrict (From d.simulationId T)).Execution s t) :
    (∃ d' ∈ t.db.deliveries.rows, d'.id = d.id ∧ d'.simulationId = d.simulationId ∧
      Overdue t.db.cast T d') ∧
    ∀ a ∈ t.db.attemptsOf d.id, ∃ b ∈ s.db.attemptsOf d.id, b.id = a.id := by
  induction h with
  | refl => exact ⟨⟨d, hd, rfl, rfl, ho⟩, fun a ha => ⟨a, ha, rfl⟩⟩
  | @tail u v hx hstep ih =>
    obtain ⟨e, hf, he⟩ := hstep
    obtain ⟨⟨d', hd', hid, hsim, ho'⟩, hatt⟩ := ih
    rw [← hsim] at hf
    obtain ⟨⟨c, hc, hcid, hcsim, hco⟩, hnew⟩ :=
      step_overdue (hs.trans (System.restrict_execution hx)) he hf hd' ho'
    refine ⟨⟨c, hc, hcid.trans hid, hcsim.trans hsim, hco⟩, fun a ha => ?_⟩
    rw [hid] at hnew
    obtain ⟨b, hb, hba⟩ := hnew a ha
    obtain ⟨b', hb', hbb⟩ := hatt b hb
    exact ⟨b', hb', hbb.trans hba⟩

theorem step_drops (hi : Invariant cfg s) (h : Step cfg s e t) :
    (∀ d ∈ s.db.deliveries.rows, ∀ d' ∈ t.db.deliveries.rows, d'.id = d.id →
      d'.state = .expired ∨ d'.state = .superseded → t.db.attemptsOf d.id = s.db.attemptsOf d.id) ∧
    ∀ a ∈ t.db.attempts.rows, (∀ b ∈ s.db.attempts.rows, b.id ≠ a.id) →
      ∃ d ∈ t.db.deliveries.rows, d.id = a.deliveryId ∧ d.state = .inFlight := by
  refine ⟨fun d hd d' hd' hid hs => ?_, fun a ha hnew => ?_⟩
  · obtain ⟨c, hc, hcid, hmove⟩ := (step_effect hi h).moved hd
    have hcd : c = d' := t.db.deliveries.row_unique hc hd' (hcid.trans hid.symm)
    subst hcd
    have hatt : t.db.attemptsOf c.id = s.db.attemptsOf d.id := dropped_attempts hmove hs
    rwa [hid] at hatt
  · rcases step_attempts hi h ha with ⟨b, hb, hk⟩ | ⟨-, d, hd, hid, -, hs, -⟩
    · exact absurd hk.id.symm (hnew b hb)
    · exact ⟨d, hd, hid, hs⟩

end Steps

/-- No attempt starts over the bound, nothing expires within it, what was over it once is not
attempted from then on, and a drop leaves the attempts as they are. -/
theorem staleness_honoured (cfg : Settings) {s : State} (h : (system cfg).Reachable s) :
    (∀ d ∈ s.db.deliveries.rows, ∀ a ∈ s.db.attemptsOf d.id,
      ∀ m ∈ boundOf s.db.cast d, a.startedAt - d.createdAt ≤ m) ∧
    (∀ d ∈ s.db.deliveries.rows, d.state = .expired →
      ∃ m ∈ boundOf s.db.cast d, ∃ t, d.completedAt = some t ∧ m < t - d.createdAt) ∧
    (∀ d ∈ s.db.deliveries.rows, ∀ m ∈ boundOf s.db.cast d, ∀ T, m < T - d.createdAt →
      ∀ t, ((system cfg).restrict (From d.simulationId T)).Execution s t →
        ∀ a ∈ t.db.attemptsOf d.id, ∃ b ∈ s.db.attemptsOf d.id, b.id = a.id) ∧
    (∀ e t, Step cfg s e t →
      (∀ d ∈ s.db.deliveries.rows, ∀ d' ∈ t.db.deliveries.rows, d'.id = d.id →
        d'.state = .expired ∨ d'.state = .superseded →
          t.db.attemptsOf d.id = s.db.attemptsOf d.id) ∧
      ∀ a ∈ t.db.attempts.rows, (∀ b ∈ s.db.attempts.rows, b.id ≠ a.id) →
        ∃ d ∈ t.db.deliveries.rows, d.id = a.deliveryId ∧ d.state = .inFlight) ∧
    ∀ d ∈ s.db.deliveries.rows, boundOf s.db.cast d = none → d.state ≠ .expired := by
  have hs := reachable_honoured h
  refine ⟨fun d hd a ha m hm => ?_, fun d hd hx => ?_, fun d hd m hm T hT t hx => ?_,
    fun e t he => step_drops (reachable_invariant h) he, fun d hd hn hx => ?_⟩
  · by_contra hlt
    exact hs.attempts d hd a ha ⟨m, hm, not_le.mp hlt⟩
  · obtain ⟨t, ht, m, hm, hlt⟩ := hs.expired d hd hx
    exact ⟨m, hm, t, ht, hlt⟩
  · exact (execution_overdue h hd ⟨m, hm, hT⟩ hx).2
  · obtain ⟨t, ht, m, hm, hlt⟩ := hs.expired d hd hx
    rw [hn] at hm
    cases hm

section Late

def impatient : Cast := { soleConsumer with
  policies := [⟨1, 1, "patient.updated", some 2, .none⟩]
  policy_key := by decide
  staleness_positive := by simp }

def lateClaim : List Action :=
  .ingest 1 1 [⟨"patient.updated", "chart", none⟩] :: wholePass 2 ++
    [.claim 7 1 9 (fun _ => false) .physical]

theorem staleness_honoured_late_claim :
    ∃ s, run shipped (initial impatient []) lateClaim = some s ∧
      ∃ d ∈ s.db.deliveries.rows, d.state = .expired ∧ s.db.attemptsOf d.id = [] ∧
        ∃ m ∈ boundOf s.db.cast d, ∃ t, d.completedAt = some t ∧ m < t - d.createdAt := by
  have hrun : (run shipped (initial impatient []) lateClaim).map
      (fun s => (s.db.deliveries.rows.map Delivery.state, s.db.attempts.rows)) =
      some ([.expired], []) := by decide +kernel
  obtain ⟨s, hs, hrows⟩ := Option.map_eq_some_iff.mp hrun
  obtain ⟨hstates, hnone⟩ := Prod.mk.inj hrows
  have hin : DeliveryState.expired ∈ s.db.deliveries.rows.map Delivery.state := by
    rw [hstates]
    exact List.mem_singleton.mpr rfl
  obtain ⟨d, hd, hx⟩ := List.mem_map.mp hin
  have hlate := (staleness_honoured shipped (run_reachable hs)).2.1 d hd hx
  exact ⟨s, hs, d, hd, hx, by rw [Db.attemptsOf, hnone]; rfl, hlate⟩

end Late

end StalenessBound
