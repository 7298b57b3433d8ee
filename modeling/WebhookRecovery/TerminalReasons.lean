import WebhookRecovery.StalenessBound
import WebhookRecovery.CoalesceOrder
import WebhookRecovery.PassWalk

/-! Why a delivery ended. The reason that is written when a row is dropped, expired or failed is
read back later, when the rows that it was read off have moved on; it has to stay true of them. -/
namespace TerminalReasons

open KeyedTables RecoverySchema InterleavedPrograms DeliveryPolicy DeliveryAdmission WorkerClaim
open LeaseReaper EventIngest ConductorPass DeliveryPipeline QueueUsage DeliveryFile
open PassGuarantee PassWalk PipelineInvariant DeliveryLifecycle StalenessBound CoalesceOrder

def supersededReason (winnerId : ℕ) : String := s!"superseded by delivery {winnerId}"

def StaleEnd (cast : Cast) (d : Delivery) : Prop :=
  ∃ m ∈ boundOf cast d, ∃ t, d.completedAt = some t ∧ m < t - d.createdAt ∧
    d.terminalReason = some (staleReason (t - d.createdAt - m) m)

def OvertakenEnd (db : Db) (d : Delivery) : Prop :=
  (policyOf (loadPolicies d.simulationId db) (candidateOf d)).coalesce = .latestByKey ∧
    ∃ e ∈ db.deliveries.rows, Newer d e ∧ d.terminalReason = some (supersededReason e.id)

def Dropped (db : Db) (d : Delivery) : Prop :=
  (d.state = .expired → StaleEnd db.cast d) ∧ (d.state = .superseded → OvertakenEnd db d)

def Accounts (s t : Db) : Prop :=
  t.cast = s.cast ∧ ∀ d ∈ t.deliveries.rows, d.state = .expired ∨ d.state = .superseded →
    d ∈ s.deliveries.rows ∨ Dropped s d

def Stays (s t : Db) : Prop :=
  t.cast = s.cast ∧ ∀ d ∈ s.deliveries.rows, ∃ d' ∈ t.deliveries.rows, d'.id = d.id ∧
    d'.simulationId = d.simulationId ∧ candidateOf d' = candidateOf d

def Persists (s t : Db) : Prop := Evolves s t ∧ Stays s t

def retryCapReason (attemptNo : ℕ) : String := s!"retry cap reached after {attemptNo} attempts"

def leaseReason (attemptNo cap : ℕ) : String := s!"lease expired on attempt {attemptNo} of {cap}"

/-- The ends that a delivery and its attempts explain. -/
structure Recorded (cfg : Settings) (f : File) : Prop where
  untold : f.delivery.state.active ∨ f.delivery.state = .delivered →
    f.delivery.terminalReason = none
  delivered : f.delivery.state = .delivered → ∃ past a, f.attempts = past ++ [a] ∧
    a.outcome = some .ok ∧ a.finishedAt = f.delivery.completedAt
  failed : f.delivery.state = .failed → cfg.maxAttempts ≤ f.delivery.attemptCount ∧
    ∃ past a, f.attempts = past ++ [a] ∧ a.finishedAt = f.delivery.completedAt ∧
      (a.outcome = some .leaseExpired ∧ f.delivery.terminalReason =
          some (leaseReason f.delivery.attemptCount cfg.maxAttempts) ∨
        a.outcome ≠ some .ok ∧ f.delivery.terminalReason =
          some (retryCapReason f.delivery.attemptCount))

section Transport

variable {s t u : Db} {d e : Delivery}

theorem Persists.refl (s : Db) : Persists s s :=
  ⟨.refl s, rfl, fun d hd => ⟨d, hd, rfl, rfl, rfl⟩⟩

theorem Persists.trans (h : Persists s t) (k : Persists t u) : Persists s u := by
  refine ⟨h.1.trans k.1, k.2.1.trans h.2.1, fun d hd => ?_⟩
  obtain ⟨d', hd', hid, hsim, hcand⟩ := h.2.2 d hd
  obtain ⟨d'', hd'', hid', hsim', hcand'⟩ := k.2.2 d' hd'
  exact ⟨d'', hd'', hid'.trans hid, hsim'.trans hsim, hcand'.trans hcand⟩

theorem persists_of_frame (h : Frame s t) : Persists s t :=
  ⟨h.evolves, h.cast, fun d hd => ⟨d, by rwa [h.deliveries], rfl, rfl, rfl⟩⟩

theorem newer_congr {e' : Delivery} (hs : e'.simulationId = e.simulationId)
    (hc : candidateOf e' = candidateOf e) (h : Newer d e) : Newer d e' :=
  ⟨hs.trans h.simulation, by rw [hc]; exact h.key, by rw [hc]; exact h.age⟩

theorem OvertakenEnd.stays (h : OvertakenEnd s d) (hp : Stays s t) : OvertakenEnd t d := by
  obtain ⟨hl, e, he, hn, hr⟩ := h
  have hpol : loadPolicies d.simulationId t = loadPolicies d.simulationId s :=
    loadPolicies_of_cast hp.1
  obtain ⟨e', he', hid, hsim, hcand⟩ := hp.2 e he
  exact ⟨by rwa [hpol], e', he', newer_congr hsim hcand hn, by rw [hid]; exact hr⟩

theorem Dropped.stays (h : Dropped s d) (hp : Stays s t) : Dropped t d :=
  ⟨fun hx => hp.1 ▸ h.1 hx, fun hx => (h.2 hx).stays hp⟩

theorem accounts_of_frame (h : Frame s t) : Accounts s t :=
  ⟨h.cast, fun d hd _ => Or.inl (by rwa [← h.deliveries])⟩

/-- The rule for updates: a row is dropped for a reason, or is not dropped by this one. -/
theorem accounts_of_map {f : Delivery → Delivery} (hc : t.cast = s.cast)
    (hf : t.deliveries.rows = s.deliveries.rows.map f)
    (h : ∀ d ∈ s.deliveries.rows, f d = d ∨ Dropped s (f d) ∨
      (f d).state ≠ .expired ∧ (f d).state ≠ .superseded) : Accounts s t := by
  refine ⟨hc, fun d' hd' hs => ?_⟩
  rw [hf] at hd'
  obtain ⟨d, hd, rfl⟩ := List.mem_map.mp hd'
  rcases h d hd with hsame | hdrop | ⟨hx, hy⟩
  · rw [hsame]
    exact Or.inl hd
  · exact Or.inr hdrop
  · rcases hs with hs | hs
    · exact absurd hs hx
    · exact absurd hs hy

theorem settled_undropped (now : ℚ) (x : Settlement) (d : Delivery) :
    (settleRow now x d).state ≠ .expired ∧ (settleRow now x d).state ≠ .superseded := by
  cases x <;> simp [settleRow]

end Transport

section Verdicts

variable {simulationId : SimulationId} {candidates : List Candidate} {policies : PolicyMap}
variable {now : ℚ} {db : Db}

theorem staleBy_some {createdAt o : ℚ} {bound : Option ℚ}
    (h : staleBy now createdAt bound = some o) :
    ∃ m, bound = some m ∧ m < now - createdAt ∧ o = now - createdAt - m := by
  cases bound with
  | none => cases h
  | some m =>
    rw [staleBy] at h
    split at h
    · rename_i hpos
      exact ⟨m, rfl, sub_pos.mp hpos, (Option.some.inj h).symm⟩
    · cases h

/-- What a verdict drops, and why. -/
theorem verdict_reason {x : Drop}
    (h : x ∈ (evaluate simulationId candidates policies now db).drops) :
    ∃ c ∈ candidates, x.deliveryId = c.id ∧
      (x.state = .expired ∧ (∃ m, (policyOf policies c).maxStalenessS = some m ∧
          m < now - c.createdAt ∧ x.reason = staleReason (now - c.createdAt - m) m) ∨
        x.state = .superseded ∧ (policyOf policies c).coalesce = .latestByKey ∧
          ∃ y ∈ queuedOfKey simulationId c.key db, c.age < y.age ∧
            x.reason = supersededReason y.id) := by
  simp only [evaluate, List.mem_append, List.mem_filterMap] at h
  rcases h with ⟨c, hc, hx⟩ | ⟨c, hc, hx⟩
  · refine ⟨c, hc, (staleDrop_fields hx).1, Or.inl ⟨(staleDrop_fields hx).2, ?_⟩⟩
    simp only [staleDrop, Option.map_eq_some_iff] at hx
    obtain ⟨o, ho, rfl⟩ := hx
    obtain ⟨m, hm, hlt, rfl⟩ := staleBy_some ho
    refine ⟨m, hm, hlt, ?_⟩
    rw [hm]
    rfl
  · obtain ⟨hcand, -⟩ := List.mem_filter.mp hc
    refine ⟨c, hcand, (supersededDrop_fields hx).1, Or.inr ⟨(supersededDrop_fields hx).2, ?_⟩⟩
    simp only [supersededDrop] at hx
    split at hx
    · cases hx
    rename_i winner hw
    split at hx
    · rename_i hlt
      obtain rfl := Option.some.inj hx
      rw [newestByKey] at hw
      split at hw
      · rename_i hkey
        obtain ⟨b, hb, hbc⟩ := List.mem_map.mp hkey
        obtain ⟨y, hy, rfl⟩ := Option.map_eq_some_iff.mp hw
        refine ⟨?_, y, List.argmax_mem hy, hlt, rfl⟩
        rw [← policyOf_key hbc]
        simpa using (List.mem_filter.mp hb).2
      · cases hw
    · cases hx

end Verdicts

section Passes

variable {cfg : Settings} {i : PassInput} {s t : Db}

def Justified (i : PassInput) (x : Drop) (s : Db) : Prop :=
  ∃ d ∈ s.deliveries.rows, d.state = .pending ∧ d.id = x.deliveryId ∧
    Dropped s (dropRow i.now x d)

theorem Justified.persists {x : Drop} (h : Justified i x s) (hp : Persists s t) :
    Justified i x t := by
  obtain ⟨d, hd, hs, hid, hdrop⟩ := h
  exact ⟨d, hp.1.pending d hd hs, hs, hid, hdrop.stays hp.2⟩

theorem justified_of_verdict {candidates : List Candidate} {x : Drop}
    (hq : ∀ c ∈ candidates, Queued i.simulationId c s)
    (h : x ∈ (evaluate i.simulationId candidates (loadPolicies i.simulationId s) i.now s).drops) :
    Justified i x s := by
  obtain ⟨c, hc, hid, hwhy⟩ := verdict_reason h
  obtain ⟨d, hd, hp, hsim, rfl⟩ := hq c hc
  refine ⟨d, hd, hp, hid.symm, fun hs => ?_, fun hs => ?_⟩
  · have hs : x.state = .expired := hs
    rcases hwhy with ⟨-, m, hm, hlt, hr⟩ | ⟨hx, -⟩
    · exact ⟨m, policyOf_bound hm, i.now, rfl, hlt, congrArg some hr⟩
    · rw [hs] at hx
      cases hx
  · have hs : x.state = .superseded := hs
    rcases hwhy with ⟨hx, -⟩ | ⟨-, hl, y, hy, hage, hr⟩
    · rw [hs] at hx
      cases hx
    · obtain ⟨e, he, rfl⟩ := List.mem_map.mp hy
      obtain ⟨he, hwhere⟩ := List.mem_filter.mp he
      simp only [Bool.and_eq_true, beq_iff_eq] at hwhere
      refine ⟨?_, e, he, ⟨hwhere.1.1.trans hsim.symm, hwhere.2, hage⟩, congrArg some hr⟩
      rw [show (dropRow i.now x d).simulationId = i.simulationId from hsim]
      exact hl

theorem applyDrops_accounts {drops : List Drop} (h : ∀ x ∈ drops, Justified i x s) :
    Accounts s (applyDrops drops i.now s) := by
  obtain ⟨f, hf, hrow⟩ := applyDrops_rows drops i.now s
  refine accounts_of_map rfl hf fun d hd => ?_
  rcases hrow d with ⟨-, he⟩ | ⟨x, hx, hid, he⟩
  · exact Or.inl he
  · obtain ⟨e, hm, -, hex, hdrop⟩ := h x hx
    have hed : e = d := s.deliveries.row_unique hm hd (hex.trans hid)
    subst hed
    exact Or.inr (Or.inl (he ▸ hdrop))

theorem reclaim_accounts :
    Accounts s (reclaimExpiredLeases cfg i.simulationId i.now i.locked s) := by
  obtain ⟨f, hf, hrow⟩ := reclaim_rows cfg i.simulationId i.now i.locked s
  refine accounts_of_map rfl hf fun d hd => ?_
  rcases hrow d hd with ⟨-, he⟩ | ⟨-, he⟩
  · rw [he]
    exact Or.inr (Or.inr (settled_undropped i.now (reclaimSettlement cfg i.now d) d))
  · exact Or.inl he

theorem markReady_accounts {ids : List ℕ} : Accounts s (markReady ids i.now s) := by
  refine accounts_of_map rfl (markReady_rows _ _ _) fun d _ => ?_
  split
  · exact Or.inr (Or.inr ⟨by simp [readyRow], by simp [readyRow]⟩)
  · exact Or.inl rfl

theorem calm_persists : Calm Persists :=
  ⟨fun _ _ _ h k => h.trans k, fun _ _ h => persists_of_frame h, fun _ _ h => h.2.1⟩

/-- Whatever happens between its statements, a pass drops nothing without a reason. -/
theorem pass_accounts (cfg : Settings) (i : PassInput) (s : Db) :
    (pass cfg i).Guarantees Persists Accounts (fun _ _ => True) s := by
  refine pass_walk calm_persists (fun _ _ h => accounts_of_frame h) (fun s => reclaim_accounts)
    (fun s => ⟨rfl, fun d hd _ => Or.inl hd⟩) (fun sel v z hsel hz => ?_) s
  obtain ⟨candidates, hdue, hdrops⟩ := hsel.drops fun _ _ h => h.1
  have hqueued : ∀ c ∈ candidates, Queued i.simulationId c v := by
    intro c hc
    obtain ⟨d, hd, hdc⟩ := hdue c hc
    exact ⟨d, hd.1, hd.2.1, hd.2.2.1, hdc⟩
  refine ⟨applyDrops_accounts fun x hx => ?_, fun a _ => markReady_accounts⟩
  exact (justified_of_verdict hqueued (hdrops x hx)).persists hz

end Passes

section Files

variable {cfg : Settings} {actor : Option WorkerId} {f g : File}

theorem recorded_of_active (hs : f.delivery.state.active)
    (hr : f.delivery.terminalReason = none) : Recorded cfg f := by
  refine ⟨fun _ => hr, fun h => ?_, fun h => ?_⟩
  · rw [h] at hs
    cases hs
  · rw [h] at hs
    cases hs

theorem recorded_of_dropped (hs : f.delivery.state = .expired ∨ f.delivery.state = .superseded) :
    Recorded cfg f := by
  rcases hs with hs | hs <;>
    exact ⟨by simp [hs, DeliveryState.active], by simp [hs], by simp [hs]⟩

theorem move_recorded (h : Move cfg actor f g) (hf : Recorded cfg f) : Recorded cfg g := by
  cases h with
  | stay => exact hf
  | admitted now h => exact recorded_of_active rfl (hf.untold (Or.inl (by rw [h]; rfl)))
  | drop now x h hx => exact recorded_of_dropped hx
  | expire now reason h => exact recorded_of_dropped (Or.inl rfl)
  | claim w now a hw h => exact recorded_of_active rfl (hf.untold (Or.inl (by rw [h]; rfl)))
  | @settle d l a now c h count =>
    have hnone : d.terminalReason = none := hf.untold (Or.inl (by rw [h]; rfl))
    by_cases hok : c.result.outcome = .ok
    · rw [settlement_ok hok]
      refine ⟨fun _ => hnone, fun _ => ⟨l, _, rfl, ?_, rfl⟩, fun hs => ?_⟩
      · simp [closeRow, hok]
      · cases hs
    · simp only [settlement, if_neg hok, count]
      split
      · rename_i hle
        exact ⟨by simp [settleRow, DeliveryState.active], by simp [settleRow], fun _ =>
          ⟨hle, l, _, rfl, rfl, Or.inr ⟨by simpa [closeRow] using hok, rfl⟩⟩⟩
      · exact recorded_of_active rfl hnone
  | @reclaim d l a now h =>
    have hnone : d.terminalReason = none := hf.untold (Or.inl (by rw [h]; rfl))
    simp only [reclaimSettlement]
    split
    · rename_i hle
      exact ⟨by simp [settleRow, releaseLease, DeliveryState.active],
        by simp [settleRow, releaseLease], fun _ => ⟨hle, l, _, rfl, rfl, Or.inl ⟨rfl, rfl⟩⟩⟩
    · exact recorded_of_active rfl hnone

end Files

section Steps

variable {cfg : Settings} {s t : State} {e : Action} {d d' : Delivery}

theorem claim_accounts {scan : ScanOrder} {locked : ℕ → Bool} {simulationId : SimulationId}
    {w : WorkerId} {now : ℚ} {limit : ℕ} {db : Db} :
    Accounts db (claimBatch cfg scan locked simulationId w now limit db).1 := by
  obtain ⟨f, hf, htaken⟩ := claimBatch_taken cfg scan locked simulationId w now limit db
  refine accounts_of_map rfl hf fun d hd => ?_
  have ht := htaken d hd
  generalize f d = e at ht ⊢
  cases ht with
  | kept => exact Or.inl rfl
  | leased => exact Or.inr (Or.inr ⟨by simp [leaseRow], by simp [leaseRow]⟩)
  | expired hr hrd stale =>
    subst hrd
    obtain ⟨c, -, hcr⟩ := List.mem_filterMap.mp (List.mem_of_mem_take hr)
    have hc := claimRow_delivery hcr
    subst hc
    have hbound := claimRow_bound hcr
    obtain ⟨m, hm, hlt, rfl⟩ := staleBy_some stale
    refine Or.inr (Or.inl ⟨fun _ => ⟨m, ?_, now, rfl, hlt, ?_⟩, fun hs => by cases hs⟩)
    · rw [hbound] at hm
      exact hm
    · rw [hm]
      rfl

theorem step_stays (hi : Invariant cfg s) (h : Step cfg s e t) : Stays s.db t.db := by
  have heff := step_effect hi h
  refine ⟨heff.cast, fun d hd => ?_⟩
  obtain ⟨d', hd', hid, hmove⟩ := heff.moved hd
  obtain ⟨-, hsim, -, -, hcand⟩ := hmove.identity
  exact ⟨d', hd', hid, hsim, hcand⟩

theorem step_accounts (hi : Invariant cfg s) (hp : UnderWay Persists (fun _ => Accounts) s)
    (h : Step cfg s e t) : Accounts s.db t.db := by
  by_cases he : e = .statement
  · subst he
    obtain ⟨-, rfl⟩ := h
    rcases statement_cases cfg s with ⟨i, write, k, hc⟩ | hn
    · rw [next_statement hc]
      exact (hp i _ hc s.db (.refl _)).1
    · rw [hn]
      exact accounts_of_frame .refl
  · refine ⟨(step_effect hi h).cast, fun d hd hs => ?_⟩
    cases step_written hi h hd with
    | kept hd => exact Or.inl hd
    | @settled w results now l d c =>
      obtain ⟨hexpired, hsuperseded⟩ := settled_undropped now (settlement cfg now c) d
      exact (hs.elim hexpired hsuperseded).elim
    | conducted => exact absurd rfl he
    | expired =>
      obtain ⟨-, rfl⟩ := h
      exact claim_accounts.2 _ hd hs
    | ingested | leased => rcases hs with hs | hs <;> cases hs

theorem step_inserts (hi : Invariant cfg s) (h : Step cfg s e t)
    (hd' : d' ∈ t.db.deliveries.rows) :
    (∃ d ∈ s.db.deliveries.rows, Move cfg (actorOf e) (file s.db d) (file t.db d')) ∨
      ∃ n p, p.1 ∈ t.db.events.rows ∧ d' = deliveryRow n p := by
  by_cases hing : ∃ i now specs, e = .ingest i now specs
  · obtain ⟨sim, now, specs, rfl⟩ := hing
    have heff := step_effect hi h
    obtain ⟨-, rfl⟩ := h
    have hrow : d' ∈ (ingestEvents sim now specs s.db).deliveries.rows := hd'
    rw [ingestEvents_deliveries] at hrow
    rcases List.mem_append.mp hrow with hd | hd
    · obtain ⟨c, hc, hid, hmove⟩ := heff.moved hd
      obtain rfl : c = d' := Table.row_unique _ hc hd' hid
      exact Or.inl ⟨c, hd, hmove⟩
    · obtain ⟨x, hx, rfl⟩ := List.mem_map.mp hd
      obtain ⟨y, hy, hp⟩ := List.mem_flatMap.mp (List.fst_mem_of_mem_zipIdx hx)
      obtain ⟨c, -, hc⟩ := List.mem_map.mp hp
      refine Or.inr ⟨x.2, x.1, ?_, rfl⟩
      rw [← hc]
      exact List.mem_append_right _ hy
  · exact Or.inl (step_moved hi h (fun i now specs he => hing ⟨i, now, specs, he⟩) hd')

structure Told (cfg : Settings) (s : State) : Prop where
  under_way : UnderWay Persists (fun _ => Accounts) s
  recorded : ∀ d ∈ s.db.deliveries.rows, Recorded cfg (file s.db d)
  dropped : ∀ d ∈ s.db.deliveries.rows, Dropped s.db d

theorem step_told (hi : Invariant cfg s) (hs : Told cfg s) (h : Step cfg s e t) : Told cfg t := by
  have hstays := step_stays hi h
  obtain ⟨-, haccounts⟩ := step_accounts hi hs.under_way h
  constructor
  · exact step_under_way (fun _ _ _ h k => h.trans k) (fun i _ => pass_accounts cfg i _) h
      (fun _ he => ⟨step_evolves hi h he, hstays⟩) (.refl _) hs.under_way
  · intro d' hd'
    rcases step_inserts hi h hd' with ⟨d, hd, hmove⟩ | ⟨n, p, -, rfl⟩
    · exact move_recorded hmove (hs.recorded d hd)
    · exact recorded_of_active rfl rfl
  · intro d' hd'
    have hdrop : d'.state = .expired ∨ d'.state = .superseded → Dropped t.db d' := by
      intro hx
      rcases haccounts d' hd' hx with hold | hnew
      · exact (hs.dropped d' hold).stays hstays
      · exact hnew.stays hstays
    exact ⟨fun hx => (hdrop (Or.inl hx)).1 hx, fun hx => (hdrop (Or.inr hx)).2 hx⟩

theorem reachable_told (h : (system cfg).Reachable s) : Told cfg s := by
  apply h.invariant (P := Told cfg)
  · rintro _ ⟨cast, sims, rfl⟩
    refine ⟨?_, ?_, ?_⟩
    · intro i p hp
      cases hp
    · intro d hd
      cases hd
    · intro d hd
      cases hd
  · exact fun _ _ _ hr hs he => step_told (reachable_invariant hr) hs he

end Steps

section Siblings

variable {o d e : Delivery} {rows : List Delivery}

instance : Decidable (Newer o d) :=
  decidable_of_iff (d.simulationId = o.simulationId ∧ (candidateOf d).key = (candidateOf o).key ∧
    (candidateOf o).age < (candidateOf d).age)
    ⟨fun ⟨hs, hk, ha⟩ => ⟨hs, hk, ha⟩, fun ⟨hs, hk, ha⟩ => ⟨hs, hk, ha⟩⟩

theorem newer_trans (h : Newer o d) (k : Newer d e) : Newer o e :=
  ⟨k.simulation.trans h.simulation, k.key.trans h.key, h.age.trans k.age⟩

theorem newest_sibling (hd : d ∈ rows) (h : Newer o d) :
    ∃ e ∈ rows, Newer o e ∧ ∀ x ∈ rows, ¬ Newer e x := by
  set newer := rows.filter fun x => decide (Newer o x)
  have hmem : ∀ x, x ∈ newer ↔ x ∈ rows ∧ Newer o x := by simp [newer]
  cases hm : newer.argmax fun x => (candidateOf x).age with
  | none =>
    have hnone := List.argmax_eq_none.mp hm
    have hin := (hmem d).mpr ⟨hd, h⟩
    rw [hnone] at hin
    cases hin
  | some e =>
    obtain ⟨he, hoe⟩ := (hmem e).mp (List.argmax_mem hm)
    refine ⟨e, he, hoe, fun x hx hex => ?_⟩
    have hle := List.le_of_mem_argmax ((hmem x).mpr ⟨hx, newer_trans hoe hex⟩) hm
    exact absurd hex.age (not_lt.mpr hle)

end Siblings

/-- What was superseded was so for a consumer that wants the latest state only, by a newer
delivery of its key that the reason names; and one that is newer is not superseded, so the
newest of a key never is. -/
theorem superseded_by_newer (cfg : Settings) {s : State} (h : (system cfg).Reachable s)
    {o : Delivery} (ho : o ∈ s.db.deliveries.rows) (hs : o.state = .superseded) :
    (policyOf (loadPolicies o.simulationId s.db) (candidateOf o)).coalesce = .latestByKey ∧
    (∃ d ∈ s.db.deliveries.rows, Newer o d ∧
      o.terminalReason = some (supersededReason d.id)) ∧
    ∃ d ∈ s.db.deliveries.rows, Newer o d ∧ d.state ≠ .superseded := by
  have htold := reachable_told h
  obtain ⟨hl, d, hd, hn, hr⟩ := (htold.dropped o ho).2 hs
  refine ⟨hl, ⟨d, hd, hn, hr⟩, ?_⟩
  obtain ⟨e, he, hne, hnewest⟩ := newest_sibling hd hn
  refine ⟨e, he, hne, fun hx => ?_⟩
  obtain ⟨-, x, hx, hex, -⟩ := (htold.dropped e he).2 hx
  exact hnewest x hx hex

/-- How a delivery came to be in the state it is in, off the rows that there are. -/
structure EndTold (cfg : Settings) (db : Db) (d : Delivery) : Prop where
  untold : d.state.active ∨ d.state = .delivered → d.terminalReason = none
  delivered : d.state = .delivered → ∃ past a, db.attemptsOf d.id = past ++ [a] ∧
    a.outcome = some .ok ∧ a.finishedAt = d.completedAt
  failed : d.state = .failed → d.attemptCount = max 1 cfg.maxAttempts ∧
    (∀ a ∈ db.attemptsOf d.id, a.outcome ≠ some .ok) ∧
    ∃ past a, db.attemptsOf d.id = past ++ [a] ∧ a.finishedAt = d.completedAt ∧
      (a.outcome = some .leaseExpired ∧
          d.terminalReason = some (leaseReason d.attemptCount cfg.maxAttempts) ∨
        a.outcome ≠ some .ok ∧ d.terminalReason = some (retryCapReason d.attemptCount))
  expired : d.state = .expired → StaleEnd db.cast d
  superseded : d.state = .superseded → OvertakenEnd db d
  /-- Without a policy there is no end but success and the last of the attempts. -/
  unrestricted : boundOf db.cast d = none →
    (policyOf (loadPolicies d.simulationId db) (candidateOf d)).coalesce = .none →
    d.state.terminal → d.state = .delivered ∨ d.state = .failed

theorem ends_told (cfg : Settings) {s : State} (h : (system cfg).Reachable s) {d : Delivery}
    (hd : d ∈ s.db.deliveries.rows) : EndTold cfg s.db d := by
  have htold := reachable_told h
  have hsound := (reachable_invariant h).files d hd
  have hrec := htold.recorded d hd
  obtain ⟨hexpired, hover⟩ := htold.dropped d hd
  refine ⟨hrec.untold, hrec.delivered, fun hs => ?_, hexpired, hover, fun hb hc ht => ?_⟩
  · obtain ⟨hle, past, a, hl, hwhy⟩ := hrec.failed hs
    have hl : s.db.attemptsOf d.id = past ++ [a] := hl
    have hcount : (s.db.attemptsOf d.id).length = d.attemptCount := hsound.counted
    have hcap : d.attemptCount ≤ max 1 cfg.maxAttempts := hsound.capped
    have hle : cfg.maxAttempts ≤ d.attemptCount := hle
    refine ⟨?_, fun b hb hok => ?_, past, a, hl, hwhy⟩
    · rw [hl, List.length_append, List.length_singleton] at hcount
      omega
    · have hstate : d.state = .delivered := (hsound.story.ok_attempt hb hok).1
      rw [hs] at hstate
      cases hstate
  · cases hs : d.state with
    | delivered => exact Or.inl rfl
    | failed => exact Or.inr rfl
    | expired =>
      obtain ⟨m, hm, -⟩ := hexpired hs
      rw [hb] at hm
      cases hm
    | superseded =>
      have hl := (hover hs).1
      rw [hc] at hl
      cases hl
    | pending | ready | inFlight =>
      rw [hs] at ht
      cases ht

section Twice

def twoVersions : List Action :=
  .ingest 1 1 [⟨"patient.updated", "chart", none⟩, ⟨"patient.updated", "chart", none⟩] ::
    wholePass 2

theorem twoVersions_superseded : ∃ s, run shipped (initial soleConsumer []) twoVersions = some s ∧
    ∃ o ∈ s.db.deliveries.rows, o.state = .superseded := by
  have hrun : (run shipped (initial soleConsumer []) twoVersions).map
      (fun s => s.db.deliveries.rows.map Delivery.state) = some [.superseded, .ready] := by
    decide +kernel
  obtain ⟨s, hs, hrows⟩ := Option.map_eq_some_iff.mp hrun
  have hin : DeliveryState.superseded ∈ s.db.deliveries.rows.map Delivery.state := by
    rw [hrows]
    exact List.mem_cons_self
  exact ⟨s, hs, List.mem_map.mp hin⟩

theorem superseded_by_newer_two_versions :
    ∃ s, run shipped (initial soleConsumer []) twoVersions = some s ∧
      ∃ o ∈ s.db.deliveries.rows, ∃ d ∈ s.db.deliveries.rows, Newer o d ∧
        d.state ≠ .superseded := by
  obtain ⟨s, hs, o, ho, hx⟩ := twoVersions_superseded
  exact ⟨s, hs, o, ho, (superseded_by_newer shipped (run_reachable hs) ho hx).2.2⟩

theorem ends_told_two_versions :
    ∃ s, run shipped (initial soleConsumer []) twoVersions = some s ∧
      ∃ o ∈ s.db.deliveries.rows, o.state = .superseded ∧ EndTold shipped s.db o := by
  obtain ⟨s, hs, o, ho, hx⟩ := twoVersions_superseded
  exact ⟨s, hs, o, ho, hx, ends_told shipped (run_reachable hs) ho⟩

end Twice

end TerminalReasons
