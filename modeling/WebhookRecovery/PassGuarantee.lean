import WebhookRecovery.QueueUsage

/-! What each statement of a pass may do, whatever the workers and ingest do in between. The
rely relation is that of `QueueUsage`; `F` holds of every database the pass sees. -/
namespace PassGuarantee

open KeyedTables RecoverySchema InterleavedPrograms DeliveryPolicy DeliveryAdmission MetricsSeries
open WorkerClaim LeaseReaper ConductorPass QueueUsage

/-- What happens between two statements of a pass. -/
def Rely (F : Db → Prop) (s t : Db) : Prop := Evolves s t ∧ F t

def Queued (simulationId : SimulationId) (x : Candidate) (s : Db) : Prop :=
  ∃ d ∈ s.deliveries.rows, d.state = .pending ∧ d.simulationId = simulationId ∧ candidateOf d = x

theorem Queued.evolves {simulationId : SimulationId} {x : Candidate} {s t : Db}
    (h : Queued simulationId x s) (he : Evolves s t) : Queued simulationId x t := by
  obtain ⟨d, hd, hp, hs, hx⟩ := h
  exact ⟨d, he.pending d hd hp, hp, hs, hx⟩

/-- What an admission may rely on when it is written. -/
structure Admission (cfg : Settings) (F : Db → Prop) (i : PassInput) (chosen : List Candidate)
    (s : Db) : Prop where
  queued : ∀ x ∈ chosen, Queued i.simulationId x s
  buffer : (chosen.length : ℤ) ≤
    max 0 (bufferTarget cfg (totalCap i.simulationId s) - readyIn (ofSimulation i.simulationId) s)
  rate : (chosen.length : ℤ) ≤
    max 0 (pyInt (i.globalAttemptsPerS * cfg.fairnessWindowVirtualS) -
      usage (ofSimulation i.simulationId) (i.now - cfg.fairnessWindowVirtualS) s)
  share : ∀ c ∈ s.cast.consumers, c.simulationId = i.simulationId →
    (chosen.countP fun x => x.consumerId == c.id : ℤ) ≤
      max 0 (pyInt (c.maxAttemptsPerS * cfg.fairnessWindowVirtualS) -
        usage (ofConsumer i.simulationId c.id) (i.now - cfg.fairnessWindowVirtualS) s)
  newest : ∀ x ∈ chosen, (policyOf (loadPolicies i.simulationId s) x).coalesce = .latestByKey →
    ∃ u, F u ∧ Queued i.simulationId x u ∧
      ∀ y ∈ queuedOfKey i.simulationId x.key u, ¬ x.age < y.age

/-- A drop condemns a pending row that the same pass does not admit. -/
def Condemned (admitted : List ℕ) (x : Drop) (s : Db) : Prop :=
  (x.state = .expired ∨ x.state = .superseded) ∧
    ∃ d ∈ s.deliveries.rows, d.state = .pending ∧ d.id = x.deliveryId ∧ d.id ∉ admitted

def Selected (cfg : Settings) (F : Db → Prop) (i : PassInput) (sel : Selection) (s : Db) : Prop :=
  (∃ chosen : List Candidate, sel.admitted = chosen.map Candidate.id ∧ Admission cfg F i chosen s) ∧
    ∀ x ∈ sel.drops, Condemned sel.admitted x s

/-- The writes of a pass, each with what holds of the state it is made in. -/
inductive ConductorWrite (cfg : Settings) (F : Db → Prop) (i : PassInput) (s : Db) : Db → Prop where
  | frame {t : Db} (cast : t.cast = s.cast) (events : t.events = s.events)
      (deliveries : t.deliveries = s.deliveries) (attempts : t.attempts = s.attempts)
      (simulations : t.simulations = s.simulations ∨
        t.simulations = (retire i.simulationId i.now s).simulations) : ConductorWrite cfg F i s t
  | reclaim : ConductorWrite cfg F i s (reclaimExpiredLeases cfg i.simulationId i.now i.locked s)
  | drop (admitted : List ℕ) (drops : List Drop) (h : ∀ x ∈ drops, Condemned admitted x s) :
      ConductorWrite cfg F i s (applyDrops drops i.now s)
  | ready (chosen : List Candidate) (h : Admission cfg F i chosen s) :
      ConductorWrite cfg F i s (markReady (chosen.map Candidate.id) i.now s)

section Transport

variable {cfg : Settings} {F : Db → Prop} {i : PassInput} {s t : Db}

theorem Rely.trans {u : Db} (h : Rely F s t) (k : Rely F t u) : Rely F s u :=
  ⟨h.1.trans k.1, k.2⟩

theorem Admission.transport {chosen : List Candidate} (h : Admission cfg F i chosen s)
    (hc : t.cast = s.cast) (hr : ∀ q, readyIn q t ≤ readyIn q s)
    (hu : ∀ q since, usage q since t ≤ usage q since s)
    (hq : ∀ x ∈ chosen, Queued i.simulationId x t) : Admission cfg F i chosen t := by
  have hcap : totalCap i.simulationId t = totalCap i.simulationId s := totalCap_of_cast hc
  have hpol : loadPolicies i.simulationId t = loadPolicies i.simulationId s :=
    loadPolicies_of_cast hc
  refine ⟨hq, ?_, ?_, fun c hm hs => ?_, fun x hx hl => h.newest x hx (by rwa [hpol] at hl)⟩
  · have := h.buffer
    have := hr (ofSimulation i.simulationId)
    rw [hcap]
    omega
  · have := h.rate
    have := hu (ofSimulation i.simulationId) (i.now - cfg.fairnessWindowVirtualS)
    omega
  · have := h.share c (by rwa [hc] at hm) hs
    have := hu (ofConsumer i.simulationId c.id) (i.now - cfg.fairnessWindowVirtualS)
    omega

theorem Admission.evolves {chosen : List Candidate} (h : Admission cfg F i chosen s)
    (he : Evolves s t) : Admission cfg F i chosen t :=
  h.transport he.cast he.ready he.usage fun x hx => (h.queued x hx).evolves he

theorem Condemned.evolves {admitted : List ℕ} {x : Drop} (h : Condemned admitted x s)
    (he : Evolves s t) : Condemned admitted x t := by
  obtain ⟨hs, d, hd, hp, hid, hn⟩ := h
  exact ⟨hs, d, he.pending d hd hp, hp, hid, hn⟩

theorem Selected.evolves {sel : Selection} (h : Selected cfg F i sel s) (he : Evolves s t) :
    Selected cfg F i sel t := by
  obtain ⟨⟨chosen, hc, ha⟩, hd⟩ := h
  exact ⟨⟨chosen, hc, ha.evolves he⟩, fun x hx => (hd x hx).evolves he⟩

theorem applyDrops_ready {drops : List Drop}
    (h : ∀ x ∈ drops, x.state = .expired ∨ x.state = .superseded) (now : ℚ) (q : Scope) :
    readyIn q (applyDrops drops now s) ≤ readyIn q s := by
  obtain ⟨f, hf, hrow⟩ := applyDrops_rows drops now s
  refine readyIn_map q hf fun d _ hr => ?_
  rcases hrow d with ⟨_, he⟩ | ⟨x, hx, _, he⟩
  · rw [he] at hr ⊢
    exact ⟨hr, rfl, rfl⟩
  · have hs : x.state = .ready := by rwa [he] at hr
    rcases h x hx with h | h <;> rw [h] at hs <;> cases hs

theorem Selected.admission_after_drops {sel : Selection} (h : Selected cfg F i sel s) :
    ∃ chosen : List Candidate, sel.admitted = chosen.map Candidate.id ∧
      Admission cfg F i chosen (applyDrops sel.drops i.now s) := by
  obtain ⟨⟨chosen, hc, ha⟩, hd⟩ := h
  obtain ⟨f, hf, hrow⟩ := applyDrops_rows sel.drops i.now s
  have hready : ∀ q, readyIn q (applyDrops sel.drops i.now s) ≤ readyIn q s :=
    applyDrops_ready (fun x hx => (hd x hx).1) i.now
  refine ⟨chosen, hc, ha.transport rfl hready (fun q since => Nat.add_le_add_left (hready q) _)
    fun x hx => ?_⟩
  obtain ⟨d, hm, hp, hs, rfl⟩ := ha.queued x hx
  refine ⟨d, ?_, hp, hs, rfl⟩
  rw [hf]
  refine List.mem_map.mpr ⟨d, hm, ?_⟩
  rcases hrow d with ⟨_, h⟩ | ⟨y, hy, hid, _⟩
  · exact h
  · obtain ⟨_, e, _, _, he, hn⟩ := hd y hy
    refine absurd ?_ hn
    rw [hc, he, hid]
    exact List.mem_map_of_mem hx

end Transport

inductive RowWrite (cfg : Settings) (F : Db → Prop) (i : PassInput) (s : Db) (d : Delivery) :
    Delivery → Prop where
  | same : RowWrite cfg F i s d d
  | reclaimed (h : d ∈ expiredLeases i.simulationId i.now i.locked s) :
      RowWrite cfg F i s d (releaseLease (settleRow i.now (reclaimSettlement cfg i.now d) d))
  | dropped (x : Drop) (hp : d.state = .pending) (hx : x.state = .expired ∨ x.state = .superseded) :
      RowWrite cfg F i s d (dropRow i.now x d)
  | admitted (chosen : List Candidate) (h : Admission cfg F i chosen s)
      (hd : candidateOf d ∈ chosen) (hp : d.state = .pending) :
      RowWrite cfg F i s d (readyRow i.now d)

section Rows

variable {cfg : Settings} {F : Db → Prop} {i : PassInput} {s t : Db} {d d' : Delivery}

theorem RowWrite.id (h : RowWrite cfg F i s d d') : d'.id = d.id := by
  cases h with
  | reclaimed => exact releaseLease_id _ _ _
  | same | dropped | admitted => rfl

theorem conductor_rows (h : ConductorWrite cfg F i s t) : ∃ f : Delivery → Delivery,
    t.deliveries.rows = s.deliveries.rows.map f ∧
    ∀ d ∈ s.deliveries.rows, RowWrite cfg F i s d (f d) := by
  cases h with
  | frame _ _ hdel _ _ =>
    refine ⟨fun d => d, ?_, fun _ _ => .same⟩
    rw [hdel]
    exact (List.map_id _).symm
  | reclaim =>
    obtain ⟨f, hf, hrow⟩ := reclaim_rows cfg i.simulationId i.now i.locked s
    refine ⟨f, hf, fun d hd => ?_⟩
    rcases hrow d hd with ⟨hm, he⟩ | ⟨-, he⟩
    · rw [he]
      exact .reclaimed hm
    · rw [he]
      exact .same
  | drop admitted drops hdrops =>
    obtain ⟨f, hf, hrow⟩ := applyDrops_rows drops i.now s
    refine ⟨f, hf, fun d hd => ?_⟩
    rcases hrow d with ⟨-, he⟩ | ⟨x, hx, hid, he⟩
    · rw [he]
      exact .same
    · obtain ⟨hs, e, hm, hp, hex, -⟩ := hdrops x hx
      have hed : e = d := s.deliveries.row_unique hm hd (hex.trans hid)
      subst hed
      rw [he]
      exact .dropped x hp hs
  | ready chosen hadm =>
    refine ⟨_, markReady_rows _ _ _, fun d hd => ?_⟩
    split
    · rename_i hm
      obtain ⟨x, hx, hid⟩ := List.mem_map.mp hm
      obtain ⟨e, he, hp, -, rfl⟩ := hadm.queued x hx
      have hed : e = d := s.deliveries.row_unique he hd hid
      subst hed
      exact .admitted chosen hadm hx hp
    · exact .same

end Rows

/-- The rows of the pipeline are as they were; only the metrics may have changed. -/
structure Frame (s t : Db) : Prop where
  cast : t.cast = s.cast
  simulations : t.simulations = s.simulations
  events : t.events = s.events
  deliveries : t.deliveries = s.deliveries
  attempts : t.attempts = s.attempts

section Frames

variable {s t : Db}

theorem Frame.refl : Frame s s := ⟨rfl, rfl, rfl, rfl, rfl⟩

theorem Frame.trans {u : Db} (h : Frame s t) (k : Frame t u) : Frame s u :=
  ⟨k.cast.trans h.cast, k.simulations.trans h.simulations, k.events.trans h.events,
    k.deliveries.trans h.deliveries, k.attempts.trans h.attempts⟩

theorem Frame.evolves (h : Frame s t) : Evolves s t where
  cast := h.cast
  pending d hd _ := by rwa [h.deliveries]
  ready q := by rw [readyIn, readyIn, h.deliveries]
  usage q since := by
    rw [usage, usage, startedIn, startedIn, readyIn, readyIn, h.deliveries, h.attempts]

def Unchanged (s t : Db) : Prop := t = s

theorem Unchanged.refl (s : Db) : Unchanged s s := rfl

theorem Unchanged.frame (h : Unchanged s t) : Frame s t := by
  obtain rfl : t = s := h
  exact .refl

inductive Charts (simulationId : SimulationId) : Db → Db → Prop where
  | read (s : Db) : Charts simulationId s s
  | upsert (rows : List MetricsSnapshot) (own : ∀ m ∈ rows, m.simulationId = simulationId)
      (s : Db) : Charts simulationId s (upsert rows s)

theorem chart_writes (cfg : Settings) (simulationId : SimulationId) (now : ℚ) (gauges : Gauges)
    (lastWritten : Option ℤ) :
    (MetricsSeries.write cfg simulationId now gauges lastWritten).Writes
      (Charts simulationId) := by
  have buckets : ∀ last, (writeBuckets cfg simulationId now gauges lastWritten last).Writes
      (Charts simulationId) := by
    intro last
    rw [writeBuckets]
    dsimp only
    split
    · exact Program.Writes.pure _
    refine Program.Writes.bind (Program.Writes.read .read _) fun _ => ?_
    split
    · exact Program.Writes.pure _
    refine Program.Writes.bind (Program.Writes.read .read _) fun _ => ?_
    refine Program.Writes.bind (Program.Writes.read .read _) fun _ => ?_
    exact Program.Writes.bind (Program.Writes.write (.upsert _ fun _ => mem_snapshotRows)) fun _ =>
      Program.Writes.pure _
  unfold MetricsSeries.write cursor
  refine Program.Writes.bind ?_ fun _ => buckets _
  split
  · exact Program.Writes.pure _
  · exact Program.Writes.read .read _

theorem Charts.frame {simulationId : SimulationId} (h : Charts simulationId s t) : Frame s t := by
  cases h with
  | read => exact .refl
  | upsert => exact ⟨rfl, rfl, rfl, rfl, rfl⟩

theorem metrics_frame (cfg : Settings) (simulationId : SimulationId) (now : ℚ) (gauges : Gauges)
    (lastWritten : Option ℤ) :
    (MetricsSeries.write cfg simulationId now gauges lastWritten).Writes Frame :=
  (chart_writes _ _ _ _ _).mono fun _ _ => Charts.frame

theorem computeBudget_reads (cfg : Settings) (simulationId : SimulationId)
    (globalAttemptsPerS now : ℚ) :
    (computeBudget cfg simulationId globalAttemptsPerS now).Writes Unchanged := by
  rw [computeBudget]
  refine Program.Writes.bind (Program.Writes.read .refl _) fun _ => ?_
  refine Program.Writes.bind (Program.Writes.read .refl _) fun _ => ?_
  exact Program.Writes.bind (Program.Writes.read .refl _) fun _ => Program.Writes.pure _

theorem readConsumerStates_reads (cfg : Settings) (simulationId : SimulationId) (now : ℚ)
    (gauges : Gauges) : (readConsumerStates cfg simulationId now gauges).Writes Unchanged := by
  rw [readConsumerStates]
  refine Program.Writes.bind (Program.Writes.read .refl _) fun _ => ?_
  exact Program.Writes.bind (Program.Writes.read .refl _) fun _ => Program.Writes.pure _

theorem computeBudget_frame (cfg : Settings) (simulationId : SimulationId)
    (globalAttemptsPerS now : ℚ) :
    (computeBudget cfg simulationId globalAttemptsPerS now).Writes Frame :=
  (computeBudget_reads _ _ _ _).mono fun _ _ => Unchanged.frame

theorem readConsumerStates_frame (cfg : Settings) (simulationId : SimulationId) (now : ℚ)
    (gauges : Gauges) : (readConsumerStates cfg simulationId now gauges).Writes Frame :=
  (readConsumerStates_reads _ _ _ _).mono fun _ _ => Unchanged.frame

end Frames

section Programs

variable {cfg : Settings} {F : Db → Prop} {i : PassInput} {s : Db}

theorem frame_self (s : Db) : ConductorWrite cfg F i s s :=
  .frame rfl rfl rfl rfl (Or.inl rfl)

theorem read_guarantees {α : Type} {q : Db → α} {Q : α → Db → Prop}
    (h : ∀ t, Evolves s t → F t → Q (q t) t) :
    (Program.read q).Guarantees (Rely F) (ConductorWrite cfg F i) Q s :=
  Program.Guarantees.read fun t ht => ⟨frame_self t, h t ht.1 ht.2⟩

theorem metrics_guarantees {gauges : Gauges} {lastWritten : Option ℤ} {Q : Option ℤ → Db → Prop}
    (h : ∀ r t, Evolves s t → Q r t) :
    (MetricsSeries.write cfg i.simulationId i.now gauges lastWritten).Guarantees (Rely F)
      (ConductorWrite cfg F i) Q s := by
  have buckets : ∀ last t, Evolves s t →
      (writeBuckets cfg i.simulationId i.now gauges lastWritten last).Guarantees (Rely F)
        (ConductorWrite cfg F i) Q t := by
    intro last t ht
    rw [writeBuckets]
    dsimp only
    split
    · exact Program.Guarantees.pure (h _ t ht)
    refine Program.Guarantees.bind (read_guarantees fun u hu _ => ?_)
    split
    · exact Program.Guarantees.pure (h _ u (ht.trans hu))
    refine Program.Guarantees.bind (read_guarantees fun v hv _ => ?_)
    refine Program.Guarantees.bind (read_guarantees fun w hw _ => ?_)
    refine Program.Guarantees.bind (Program.Guarantees.write fun x hx => ?_)
    refine ⟨.frame rfl rfl rfl rfl (Or.inl rfl), Program.Guarantees.pure (h _ _ ?_)⟩
    have hall := (((ht.trans hu).trans hv).trans hw).trans hx.1
    exact ⟨hall.cast, hall.pending, hall.ready, hall.usage⟩
  refine Program.Guarantees.bind ?_
  cases lastWritten with
  | some b => exact Program.Guarantees.pure (buckets _ s (.refl s))
  | none => exact read_guarantees fun t ht _ => buckets _ t ht

theorem computeBudget_guarantees {Q : Budget → Db → Prop}
    (h : ∀ b t, Evolves s t →
      b.bufferSlots ≤ bufferTarget cfg (totalCap i.simulationId t) -
        readyIn (ofSimulation i.simulationId) t →
      b.rateSlots ≤ pyInt (i.globalAttemptsPerS * cfg.fairnessWindowVirtualS) -
        usage (ofSimulation i.simulationId) (i.now - cfg.fairnessWindowVirtualS) t → Q b t) :
    (computeBudget cfg i.simulationId i.globalAttemptsPerS i.now).Guarantees (Rely F)
      (ConductorWrite cfg F i) Q s := by
  rw [computeBudget]
  refine Program.Guarantees.bind (read_guarantees fun t ht _ => ?_)
  refine Program.Guarantees.bind (read_guarantees fun u hu _ => ?_)
  refine Program.Guarantees.bind (read_guarantees fun v hv _ => Program.Guarantees.pure ?_)
  -- `ready` was read before the attempts: a claim in between is counted twice, never not at all
  have hr := hv.ready (ofSimulation i.simulationId)
  have hcap : totalCap i.simulationId v = totalCap i.simulationId t :=
    totalCap_of_cast (hu.trans hv).cast
  refine h _ v ((ht.trans hu).trans hv) ?_ ?_
  · dsimp only
    rw [hcap, readyCount_eq]
    omega
  · dsimp only
    rw [readyCount_eq, attemptsInWindow_eq, usage]
    omega

/-- Each state read charges its consumer for at least what it uses from then on. -/
def Charged (cfg : Settings) (i : PassInput) (states : List ConsumerState) (t : Db) : Prop :=
  ∀ st ∈ states, ∃ c ∈ t.cast.consumers, c.simulationId = i.simulationId ∧ st.id = c.id ∧
    st.maxAttemptsPerS = c.maxAttemptsPerS ∧
    usage (ofConsumer i.simulationId c.id) (i.now - cfg.fairnessWindowVirtualS) t ≤
      st.attemptsInWindow + st.ready

theorem Charged.evolves {states : List ConsumerState} {t : Db} (h : Charged cfg i states s)
    (he : Evolves s t) : Charged cfg i states t := by
  intro st hst
  obtain ⟨c, hc, hs, hid, hrate, hu⟩ := h st hst
  exact ⟨c, he.cast ▸ hc, hs, hid, hrate, (he.usage _ _).trans hu⟩

theorem readConsumerStates_guarantees {gauges : Gauges} {Q : List ConsumerState → Db → Prop}
    (hg : ∀ c, readyIn (ofConsumer i.simulationId c) s ≤ countOf gauges (c, .ready))
    (h : ∀ states t, Evolves s t → Charged cfg i states t → Q states t) :
    (readConsumerStates cfg i.simulationId i.now gauges).Guarantees (Rely F)
      (ConductorWrite cfg F i) Q s := by
  rw [readConsumerStates]
  refine Program.Guarantees.bind (read_guarantees fun t ht _ => ?_)
  refine Program.Guarantees.bind (read_guarantees fun u hu _ => Program.Guarantees.pure ?_)
  refine h _ u (ht.trans hu) fun st hst => ?_
  obtain ⟨row, hrow, rfl⟩ := List.mem_map.mp hst
  obtain ⟨c, hc, rfl⟩ := List.mem_map.mp hrow
  obtain ⟨hc, hs⟩ := List.mem_filter.mp ((List.perm_insertionSort _ _).subset hc)
  refine ⟨c, hu.cast ▸ hc, by simpa using hs, rfl, rfl, ?_⟩
  have hready := ((ht.trans hu).ready (ofConsumer i.simulationId c.id)).trans (hg c.id)
  simp only [consumerState, countOf_windowUsage, usage]
  omega

theorem selected_nothing {t : Db} : Selected cfg F i ⟨[], []⟩ t :=
  ⟨⟨[], rfl, by simp, by simp, by simp, by simp, by simp⟩, by simp⟩

/-- Every candidate was a pending row when it was fetched, and still is. -/
theorem fetched_queued {states : List ConsumerState} {allowances : ConsumerId → ℤ} {slots : ℤ}
    {fairDrain : Bool} {u v : Db} {x : Candidate} (hv : Evolves u v)
    (hx : x ∈ fetchCandidates cfg i.scan i.simulationId i.now states allowances slots fairDrain u) :
    Queued i.simulationId x v := by
  obtain ⟨d, hd, hdue, rfl⟩ := mem_fetchCandidates hx
  simp only [isDue, Bool.and_eq_true, beq_iff_eq] at hdue
  exact ⟨d, hv.pending d hd hdue.1.2, hdue.1.2, hdue.1.1, rfl⟩

/-- No consumer is chosen for more than the rate leaves it. -/
theorem charged_allowance {states : List ConsumerState} {slots : ℤ} {fairDrain : Bool}
    (h : Charged cfg i states s) {c : Consumer} (hc : c ∈ s.cast.consumers) :
    allowancesOf cfg states slots fairDrain c.id ≤
      max 0 (pyInt (c.maxAttemptsPerS * cfg.fairnessWindowVirtualS) -
        usage (ofConsumer i.simulationId c.id) (i.now - cfg.fairnessWindowVirtualS) s) := by
  refine allowancesOf_le (le_max_left _ _) fun st hst hid => ?_
  obtain ⟨x, hx, -, hxid, hrate, huse⟩ := h st hst
  obtain rfl : x = c := List.inj_on_of_nodup_map s.cast.consumer_key hx hc (hxid.symm.trans hid)
  rw [hrate]
  omega

theorem drop_condemned {candidates chosen : List Candidate} {policies : PolicyMap} {x : Drop}
    (hqueued : ∀ y ∈ candidates, Queued i.simulationId y s)
    (hsub : chosen.Sublist (evaluate i.simulationId candidates policies i.now s).admitted)
    (hx : x ∈ (evaluate i.simulationId candidates policies i.now s).drops) :
    Condemned (chosen.map Candidate.id) x s := by
  obtain ⟨hstate, c, hc, hid, hn⟩ := mem_drops hx
  obtain ⟨d, hd, hpend, hsim, rfl⟩ := hqueued c hc
  refine ⟨hstate, d, hd, hpend, hid.symm, fun hm => hn ?_⟩
  obtain ⟨y, hy, hyd⟩ := List.mem_map.mp hm
  obtain ⟨e, he, -, -, rfl⟩ := hqueued y ((admit_sublist _ _ _ _ _).subset (hsub.subset hy))
  obtain rfl : e = d := s.deliveries.row_unique he hd hyd
  exact hsub.subset hy

theorem selectCandidates_guarantees {budget : Budget} {gauges : Gauges} {policies : PolicyMap}
    {fairDrain : Bool} {Q : Selection → Db → Prop}
    (hp : policies = loadPolicies i.simulationId s)
    (hb : budget.bufferSlots ≤ bufferTarget cfg (totalCap i.simulationId s) -
      readyIn (ofSimulation i.simulationId) s)
    (hr : budget.rateSlots ≤ pyInt (i.globalAttemptsPerS * cfg.fairnessWindowVirtualS) -
      usage (ofSimulation i.simulationId) (i.now - cfg.fairnessWindowVirtualS) s)
    (hg : ∀ c, readyIn (ofConsumer i.simulationId c) s ≤ countOf gauges (c, .ready))
    (h : ∀ sel t, Evolves s t → Selected cfg F i sel t → Q sel t) :
    (selectCandidates cfg i.scan i.simulationId i.now budget gauges policies fairDrain).Guarantees
      (Rely F) (ConductorWrite cfg F i) Q s := by
  rw [selectCandidates]
  split
  · exact Program.Guarantees.pure (h _ s (.refl s) selected_nothing)
  refine Program.Guarantees.bind (readConsumerStates_guarantees hg fun states t ht hcharged => ?_)
  dsimp only
  split
  · exact Program.Guarantees.pure (h _ t ht selected_nothing)
  refine Program.Guarantees.bind (read_guarantees fun u hu _ => ?_)
  refine Program.Guarantees.bind (read_guarantees fun v hv hF => Program.Guarantees.pure ?_)
  have hall := (ht.trans hu).trans hv
  refine h _ v hall ?_
  set allowances := allowancesOf cfg states budget.slots fairDrain
  set candidates := fetchCandidates cfg i.scan i.simulationId i.now states allowances
    budget.slots fairDrain u
  obtain ⟨chosen, hsub, heq, hlen, hshare⟩ := ration_chosen budget.slots allowances
    (evaluate i.simulationId candidates policies i.now v).admitted
  have hqueued : ∀ x ∈ candidates, Queued i.simulationId x v := fun x hx => fetched_queued hv hx
  have hchosen : ∀ x ∈ chosen, x ∈ candidates := fun x hx =>
    (admit_sublist _ _ _ _ _).subset (hsub.subset hx)
  refine ⟨⟨chosen, heq, fun x hx => hqueued x (hchosen x hx), ?_, ?_, fun c hc _ => ?_,
    fun x hx hl => ⟨v, hF, hqueued x (hchosen x hx), ?_⟩⟩, fun x hx => ?_⟩
  · have := hall.ready (ofSimulation i.simulationId)
    have hcap : totalCap i.simulationId v = totalCap i.simulationId s :=
      totalCap_of_cast hall.cast
    unfold Budget.slots at hlen
    rw [hcap]
    omega
  · have := hall.usage (ofSimulation i.simulationId) (i.now - cfg.fairnessWindowVirtualS)
    unfold Budget.slots at hlen
    omega
  · have hallow : allowances c.id ≤ _ := charged_allowance (hcharged.evolves (hu.trans hv)) hc
    exact (hshare c.id).trans (max_le (le_max_left _ _) hallow)
  · have hpol : loadPolicies i.simulationId v = policies := by
      rw [hp]
      exact loadPolicies_of_cast hall.cast
    exact admit_newest (hsub.subset hx) (by rwa [hpol] at hl)
  · rw [heq]
    exact drop_condemned hqueued hsub hx

/-- Whatever happens between its statements, a pass only makes conductor writes. -/
theorem pass_guarantees (cfg : Settings) (F : Db → Prop) (i : PassInput) (s : Db) :
    (pass cfg i).Guarantees (Rely F) (ConductorWrite cfg F i) (fun _ _ => True) s := by
  rw [ConductorPass.pass]
  refine Program.Guarantees.bind (Program.Guarantees.write fun t _ => ⟨.reclaim, ?_⟩)
  refine Program.Guarantees.bind (read_guarantees fun u _ _ => ?_)
  refine Program.Guarantees.bind (metrics_guarantees fun _ v hv => ?_)
  split
  · exact Program.Guarantees.bind (Program.Guarantees.write fun w _ =>
      ⟨.frame rfl rfl rfl rfl (Or.inr rfl), trivial⟩)
  split
  · exact Program.Guarantees.pure trivial
  refine Program.Guarantees.bind (computeBudget_guarantees fun b w hw hbuffer hrate => ?_)
  split
  · exact Program.Guarantees.pure trivial
  refine Program.Guarantees.bind (read_guarantees fun x hx _ => ?_)
  have hgauges : ∀ c, readyIn (ofConsumer i.simulationId c) x ≤
      countOf (readGauges i.simulationId u) (c, .ready) := by
    intro c
    rw [countOf_readGauges]
    exact ((hv.trans hw).trans hx).ready _
  have hcap : totalCap i.simulationId x = totalCap i.simulationId w := totalCap_of_cast hx.cast
  have hready := hx.ready (ofSimulation i.simulationId)
  have husage := hx.usage (ofSimulation i.simulationId) (i.now - cfg.fairnessWindowVirtualS)
  refine Program.Guarantees.bind (selectCandidates_guarantees rfl (by rw [hcap]; omega) (by omega)
    hgauges fun sel y _ hsel => ?_)
  refine Program.Guarantees.bind (Program.Guarantees.write fun z hz => ?_)
  have hselz := hsel.evolves hz.1
  refine ⟨.drop sel.admitted sel.drops hselz.2, Program.Guarantees.write fun a ha => ?_⟩
  obtain ⟨chosen, hc, hadm⟩ := hselz.admission_after_drops
  rw [hc]
  exact ⟨.ready chosen (hadm.evolves ha.1), trivial⟩

end Programs

end PassGuarantee
