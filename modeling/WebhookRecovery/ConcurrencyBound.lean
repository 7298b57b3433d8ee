import WebhookRecovery.RateCeilings

/-! The concurrency cap is a gate. A pass admits nothing of a consumer at its cap, but what it
admits of one below it is bounded by the ready buffer alone; passes are atomic here. -/
namespace ConcurrencyBound

open KeyedTables RecoverySchema InterleavedPrograms DeliveryPolicy DeliveryAdmission MetricsSeries
open WorkerClaim LeaseReaper ConductorPass DeliveryPipeline QueueUsage PassGuarantee DeliveryFile
open PipelineInvariant RateCeilings

def inFlightIn (q : Scope) (db : Db) : ℕ :=
  db.deliveries.rows.countP fun d => q d.simulationId d.consumerId && d.state == .inFlight

def occupied (q : Scope) (db : Db) : ℕ := inFlightIn q db + readyIn q db

def Occupies (d : Delivery) : Prop := d.state = .ready ∨ d.state = .inFlight

/-- Nobody acts while a pass is under way, and every pass drains fairly. -/
def Atomic (s : State) : Action → Prop
  | .beginPass i => i.fairDrainEnabled = true
  | .statement | .endPass => True
  | .ingest .. | .claim .. | .complete .. | .abandon _ => s.conductor = none

instance (s : State) : DecidablePred (Atomic s)
  | .beginPass i => inferInstanceAs (Decidable (i.fairDrainEnabled = true))
  | .statement | .endPass => inferInstanceAs (Decidable True)
  | .ingest .. | .claim .. | .complete .. | .abandon _ =>
    decidable_of_iff (s.conductor.isNone = true) Option.isNone_iff_eq_none

def Gated (s t : Db) : Prop :=
  ∀ d ∈ s.deliveries.rows, d.state = .pending →
    ∀ d' ∈ t.deliveries.rows, d'.id = d.id → d'.state = .ready →
      ∀ c ∈ s.cast.consumers, c.id = d.consumerId →
        inFlightIn (ofConsumer d.simulationId c.id) s < c.concurrencyCap

section Counting

variable {cfg : Settings} {F : Db → Prop} {i : PassInput} {s t : Db} {q : Scope}

theorem occupied_eq : occupied q s = s.deliveries.rows.countP fun d =>
    q d.simulationId d.consumerId && (d.state == .inFlight || d.state == .ready) := by
  rw [occupied, inFlightIn, readyIn]
  induction s.deliveries.rows with
  | nil => rfl
  | cons d l ih =>
    rw [List.countP_cons, List.countP_cons, List.countP_cons, ← ih]
    cases q d.simulationId d.consumerId <;> cases d.state <;> simp <;> omega

/-- The rule for updates and inserts that let nothing in. -/
theorem occupied_le {f : Delivery → Delivery} (new : List Delivery)
    (hf : t.deliveries.rows = s.deliveries.rows.map f ++ new)
    (h : ∀ d ∈ s.deliveries.rows, Occupies (f d) → Occupies d ∧
      (f d).simulationId = d.simulationId ∧ (f d).consumerId = d.consumerId)
    (hn : ∀ d ∈ new, ¬ Occupies d) : occupied q t ≤ occupied q s := by
  rw [occupied_eq, occupied_eq, hf, List.countP_append, List.countP_map]
  have hzero : new.countP (fun d =>
      q d.simulationId d.consumerId && (d.state == .inFlight || d.state == .ready)) = 0 := by
    refine List.countP_eq_zero.mpr fun d hd hx => hn d hd ?_
    simp only [Bool.and_eq_true, Bool.or_eq_true, beq_iff_eq] at hx
    exact hx.2.symm
  rw [hzero, Nat.add_zero]
  refine List.countP_mono_left fun d hd hx => ?_
  simp only [Function.comp_apply, Bool.and_eq_true, Bool.or_eq_true, beq_iff_eq] at hx ⊢
  obtain ⟨ho, hs, hc⟩ := h d hd hx.2.symm
  rw [hs, hc] at hx
  exact ⟨hx.1, ho.symm⟩

theorem settled_not_occupies (now : ℚ) (x : Settlement) (d : Delivery) :
    ¬ Occupies (settleRow now x d) := by
  obtain ⟨hr, hi⟩ := settleRow_settled now x d
  exact fun h => h.elim hr hi

theorem conductor_occupied (h : ConductorWrite cfg F i s t) :
    (∀ q, occupied q t ≤ occupied q s) ∨
      ∃ chosen, Admission cfg F i chosen s ∧ t = markReady (chosen.map Candidate.id) i.now s := by
  cases h with
  | ready chosen hadm => exact Or.inr ⟨chosen, hadm, rfl⟩
  | frame _ _ hd _ _ =>
    left
    intro q
    rw [occupied_eq, occupied_eq, hd]
  | reclaim =>
    left
    intro q
    obtain ⟨f, hf, hrow⟩ := reclaim_rows cfg i.simulationId i.now i.locked s
    refine occupied_le [] (by rw [hf, List.append_nil]) (fun d hd ho => ?_) (by simp)
    rcases hrow d hd with ⟨-, he⟩ | ⟨-, he⟩
    · rw [he] at ho
      exact absurd ho (settled_not_occupies _ _ _)
    · rw [he] at ho ⊢
      exact ⟨ho, rfl, rfl⟩
  | drop admitted drops hdrops =>
    left
    intro q
    obtain ⟨f, hf, hrow⟩ := applyDrops_rows drops i.now s
    refine occupied_le [] (by rw [hf, List.append_nil]) (fun d hd ho => ?_) (by simp)
    rcases hrow d with ⟨-, he⟩ | ⟨x, hx, -, he⟩
    · rw [he] at ho ⊢
      exact ⟨ho, rfl, rfl⟩
    · rw [he] at ho
      have hs : x.state = .ready ∨ x.state = .inFlight := ho
      rcases (hdrops x hx).1 with h | h <;> rw [h] at hs <;> simp at hs

theorem markReady_inFlight (ids : List ℕ) (now : ℚ) :
    inFlightIn q (markReady ids now s) ≤ inFlightIn q s := by
  rw [inFlightIn, markReady_rows, List.countP_map]
  refine List.countP_mono_left fun d _ hx => ?_
  simp only [Function.comp_apply, Bool.and_eq_true, beq_iff_eq] at hx ⊢
  by_cases hm : d.id ∈ ids
  · rw [if_pos hm] at hx
    cases hx.2
  · rwa [if_neg hm] at hx

end Counting

section Gate

variable {cfg : Settings} {i : PassInput} {s t : Db}

/-- The rule for writes that make nothing ready. -/
theorem gated_of_rows (h : ∀ d ∈ t.deliveries.rows, d.state = .ready → d ∈ s.deliveries.rows) :
    Gated s t := by
  intro d hd hp d' hd' hid hr
  have hdd : d' = d := s.deliveries.row_unique (h d' hd' hr) hd hid
  rw [hdd, hp] at hr
  cases hr

theorem gated_of_frame (h : Frame s t) : Gated s t :=
  gated_of_rows fun d hd _ => by rwa [← h.deliveries]

theorem reclaim_gated : Gated s (reclaimExpiredLeases cfg i.simulationId i.now i.locked s) := by
  obtain ⟨f, hf, hrow⟩ := reclaim_rows cfg i.simulationId i.now i.locked s
  refine gated_of_rows fun d' hd' hr => ?_
  rw [hf] at hd'
  obtain ⟨d, hd, rfl⟩ := List.mem_map.mp hd'
  rcases hrow d hd with ⟨-, he⟩ | ⟨-, he⟩
  · rw [he] at hr
    exact absurd hr (settleRow_settled _ _ _).1
  · rwa [he]

theorem applyDrops_gated {drops : List Drop}
    (h : ∀ x ∈ drops, x.state = .expired ∨ x.state = .superseded) (now : ℚ) :
    Gated s (applyDrops drops now s) := by
  obtain ⟨f, hf, hrow⟩ := applyDrops_rows drops now s
  refine gated_of_rows fun d' hd' hr => ?_
  rw [hf] at hd'
  obtain ⟨d, hd, rfl⟩ := List.mem_map.mp hd'
  rcases hrow d with ⟨-, he⟩ | ⟨x, hx, -, he⟩
  · rwa [he]
  · rw [he] at hr
    have hs : x.state = .ready := hr
    rcases h x hx with h | h <;> rw [h] at hs <;> cases hs

def BelowCap (i : PassInput) (id : ℕ) (s : Db) : Prop :=
  ∃ d ∈ s.deliveries.rows, d.id = id ∧ d.simulationId = i.simulationId ∧
    ∀ c ∈ s.cast.consumers, c.id = d.consumerId →
      inFlightIn (ofConsumer i.simulationId c.id) s < c.concurrencyCap

/-- Dropping frees nobody and blocks nobody. -/
theorem BelowCap.drops {id : ℕ} {drops : List Drop} {now : ℚ}
    (h : ∀ x ∈ drops, x.state = .expired ∨ x.state = .superseded) (hb : BelowCap i id s) :
    BelowCap i id (applyDrops drops now s) := by
  obtain ⟨f, hf, hrow⟩ := applyDrops_rows drops now s
  obtain ⟨d, hd, hid, hs, hcap⟩ := hb
  have kept : (f d).id = d.id ∧ (f d).simulationId = d.simulationId ∧
      (f d).consumerId = d.consumerId := by
    rcases hrow d with ⟨-, he⟩ | ⟨x, -, -, he⟩ <;> rw [he] <;> exact ⟨rfl, rfl, rfl⟩
  have hin : ∀ q, inFlightIn q (applyDrops drops now s) ≤ inFlightIn q s := by
    intro q
    rw [inFlightIn, hf, List.countP_map]
    refine List.countP_mono_left fun e _ hx => ?_
    rcases hrow e with ⟨-, he⟩ | ⟨x, hx', -, he⟩
    · rwa [Function.comp_apply, he] at hx
    · simp only [Function.comp_apply, he, dropRow, Bool.and_eq_true, beq_iff_eq] at hx
      rcases h x hx' with h | h <;> rw [h] at hx <;> cases hx.2
  refine ⟨f d, ?_, kept.1.trans hid, kept.2.1.trans hs, fun c hc hcd => ?_⟩
  · rw [hf]
    exact List.mem_map_of_mem hd
  · exact (hin _).trans_lt (hcap c hc (hcd.trans kept.2.2))

theorem markReady_gated {ids : List ℕ} (h : ∀ id ∈ ids, BelowCap i id s) :
    Gated s (markReady ids i.now s) := by
  intro d hd hp d' hd' hid hr c hc hcd
  rw [markReady_rows] at hd'
  obtain ⟨e, he, rfl⟩ := List.mem_map.mp hd'
  by_cases hm : e.id ∈ ids
  · rw [if_pos hm] at hid
    obtain ⟨b, hb, hbid, hs, hcap⟩ := h _ hm
    have hbd : b = d := s.deliveries.row_unique hb hd (hbid.trans hid)
    subst hbd
    rw [hs]
    exact hcap c hc hcd
  · rw [if_neg hm] at hid hr
    have hed : e = d := s.deliveries.row_unique he hd hid
    subst hed
    rw [hp] at hr
    cases hr

theorem allowance_below_cap {states : List ConsumerState} {slots : ℤ} {c : ConsumerId}
    (h : 0 < allowancesOf cfg states slots true c) :
    ∃ st ∈ states, st.id = c ∧ st.inFlight < st.concurrencyCap := by
  unfold allowancesOf at h
  split at h
  · rename_i hany
    obtain ⟨st, hst⟩ := Option.isSome_iff_exists.mp
      (List.find?_isSome.mpr (List.any_eq_true.mp hany))
    refine ⟨st, List.mem_of_find?_eq_some hst, by simpa using List.find?_some hst, ?_⟩
    simp only [if_true] at h
    have hroom := h.trans_le (allocate_le_headroom _ _ _ _)
    simp only [hst, Bool.not_true] at hroom
    by_contra hcap
    rw [ConsumerState.headroom, if_pos (by simpa using hcap)] at hroom
    simp at hroom
  · exact absurd h (lt_irrefl 0)

theorem readConsumerStates_gauged {gauges : Gauges} {Q : List ConsumerState → Db → Prop}
    (h : ∀ states, (∀ st ∈ states, ∃ c ∈ s.cast.consumers, st.id = c.id ∧
      st.concurrencyCap = c.concurrencyCap ∧ st.inFlight = countOf gauges (c.id, .inFlight)) →
      Q states s) :
    (readConsumerStates cfg i.simulationId i.now gauges).Guarantees (· = ·) Gated Q s := by
  refine Program.Guarantees.bind (Program.Guarantees.read ?_)
  rintro t rfl
  refine ⟨gated_of_frame .refl, Program.Guarantees.bind (Program.Guarantees.read ?_)⟩
  rintro t rfl
  refine ⟨gated_of_frame .refl, Program.Guarantees.pure (h _ fun st hst => ?_)⟩
  obtain ⟨row, hrow, rfl⟩ := List.mem_map.mp hst
  obtain ⟨c, hc, rfl⟩ := List.mem_map.mp hrow
  obtain ⟨hc, -⟩ := List.mem_filter.mp ((List.perm_insertionSort _ _).subset hc)
  exact ⟨c, hc, rfl, rfl, rfl⟩

theorem selectCandidates_below_cap {budget : Budget} {gauges : Gauges} {policies : PolicyMap}
    {Q : Selection → Db → Prop}
    (hg : ∀ c, countOf gauges (c, .inFlight) = inFlightIn (ofConsumer i.simulationId c) s)
    (h : ∀ sel, (∀ x ∈ sel.drops, x.state = .expired ∨ x.state = .superseded) →
      (∀ id ∈ sel.admitted, BelowCap i id s) → Q sel s) :
    (selectCandidates cfg i.scan i.simulationId i.now budget gauges policies true).Guarantees
      (· = ·) Gated Q s := by
  rw [selectCandidates]
  split
  · exact Program.Guarantees.pure (h _ (by simp) (by simp))
  refine Program.Guarantees.bind (readConsumerStates_gauged fun states hstates => ?_)
  dsimp only
  split
  · exact Program.Guarantees.pure (h _ (by simp) (by simp))
  refine Program.Guarantees.bind (Program.Guarantees.read ?_)
  rintro t rfl
  refine ⟨gated_of_frame .refl, Program.Guarantees.bind (Program.Guarantees.read ?_)⟩
  rintro t rfl
  refine ⟨gated_of_frame .refl, Program.Guarantees.pure (h _ (fun x hx => (mem_drops hx).1) ?_)⟩
  intro id hid
  obtain ⟨chosen, hsub, heq, -, hshare⟩ := ration_chosen budget.slots
    (allowancesOf cfg states budget.slots true) (evaluate i.simulationId
      (fetchCandidates cfg i.scan i.simulationId i.now states
        (allowancesOf cfg states budget.slots true) budget.slots true s) policies i.now s).admitted
  dsimp only at hid
  rw [heq] at hid
  obtain ⟨x, hx, rfl⟩ := List.mem_map.mp hid
  obtain ⟨d, hd, hdue, rfl⟩ := mem_fetchCandidates
    ((admit_sublist _ _ _ _ _).subset (hsub.subset hx))
  simp only [isDue, Bool.and_eq_true, beq_iff_eq] at hdue
  have hpos : 0 < allowancesOf cfg states budget.slots true (candidateOf d).consumerId := by
    have hone : 0 < chosen.countP fun x => x.consumerId == (candidateOf d).consumerId :=
      List.countP_pos_iff.mpr ⟨_, hx, by simp⟩
    have := hshare (candidateOf d).consumerId
    omega
  obtain ⟨st, hst, hid, hlt⟩ := allowance_below_cap hpos
  obtain ⟨c, hc, hstc, hcap, hin⟩ := hstates st hst
  refine ⟨d, hd, rfl, hdue.1.1, fun c' hc' hcd => ?_⟩
  have hkey : c.id = c'.id := hstc.symm.trans (hid.trans hcd.symm)
  have hcc : c = c' := List.inj_on_of_nodup_map s.cast.consumer_key hc hc' hkey
  subst hcc
  rwa [hin, hcap, hg] at hlt

theorem countOf_inFlight (simulationId : SimulationId) (db : Db) (c : ConsumerId) :
    countOf (readGauges simulationId db) (c, .inFlight) =
      inFlightIn (ofConsumer simulationId c) db := countOf_gauge rfl simulationId db c

theorem frame_gated {α : Type} {p : Program Db α} (hp : p.Writes Frame) {Q : α → Db → Prop}
    (h : ∀ a t, Frame s t → Q a t) : p.Guarantees (· = ·) Gated Q s :=
  hp.guarantees (fun _ => .refl) (fun _ _ _ h k => h.trans k) (fun _ _ h => h ▸ .refl)
    (fun _ _ h => h) (fun _ _ h => gated_of_frame h) h

/-- With nobody in between, a pass admits nothing of a consumer that is at its cap. -/
theorem pass_gated (hf : i.fairDrainEnabled = true) (s : Db) :
    (pass cfg i).Guarantees (· = ·) Gated (fun _ _ => True) s := by
  rw [ConductorPass.pass]
  refine Program.Guarantees.bind (Program.Guarantees.write ?_)
  rintro t rfl
  refine ⟨reclaim_gated, Program.Guarantees.bind (Program.Guarantees.read ?_)⟩
  rintro u rfl
  refine ⟨gated_of_frame .refl, ?_⟩
  set u := reclaimExpiredLeases cfg i.simulationId i.now i.locked s
  refine Program.Guarantees.bind (frame_gated (metrics_frame _ _ _ _ _) fun _ v hv => ?_)
  split
  · refine Program.Guarantees.bind (Program.Guarantees.write ?_)
    rintro w rfl
    exact ⟨gated_of_rows fun d hd _ => hd, trivial⟩
  split
  · exact Program.Guarantees.pure trivial
  refine Program.Guarantees.bind (frame_gated (computeBudget_frame _ _ _ _) fun b w hw => ?_)
  split
  · exact Program.Guarantees.pure trivial
  refine Program.Guarantees.bind (Program.Guarantees.read ?_)
  rintro x rfl
  refine ⟨gated_of_frame .refl, ?_⟩
  rw [hf]
  refine Program.Guarantees.bind (selectCandidates_below_cap (fun c => ?_) fun sel hd hb => ?_)
  · rw [countOf_inFlight, inFlightIn, inFlightIn, (hv.trans hw).deliveries]
  refine Program.Guarantees.bind (Program.Guarantees.write ?_)
  rintro y rfl
  refine ⟨applyDrops_gated hd _, Program.Guarantees.write ?_⟩
  rintro z rfl
  exact ⟨markReady_gated fun id hid => (hb id hid).drops hd, trivial⟩

end Gate

def atomic (cfg : Settings) : System State Action := (system cfg).restrict Atomic

/-- What a consumer may have in the worker plane: its cap but one, and the whole buffer. -/
def ceiling (cfg : Settings) (db : Db) (c : Consumer) : ℤ :=
  (c.concurrencyCap - 1) + max 0 (bufferTarget cfg (totalCap c.simulationId db))

structure Bounded (cfg : Settings) (s : State) : Prop where
  gate : UnderWay (· = ·) (fun _ => Gated) s
  bound : ∀ c ∈ s.db.cast.consumers,
    (occupied (ofConsumer c.simulationId c.id) s.db : ℤ) ≤ ceiling cfg s.db c

section Steps

variable {cfg : Settings} {s t : State} {e : Action}

theorem move_occupies {actor : Option WorkerId} {f g : File} (h : Move cfg actor f g)
    (hp : f.delivery.state ≠ .pending) (ho : Occupies g.delivery) : Occupies f.delivery := by
  cases h with
  | stay => exact ho
  | admitted now h => exact absurd h hp
  | drop now x h hx => exact absurd h hp
  | expire now reason h => exact Or.inl h
  | claim w now a hw h => exact Or.inl h
  | settle now c h => exact absurd ho (settled_not_occupies _ _ _)
  | reclaim now h => exact absurd ho (settled_not_occupies _ _ _)

theorem step_occupied (hi : Invariant cfg s) (h : Step cfg s e t) (he : e ≠ .statement)
    (q : Scope) : occupied q t.db ≤ occupied q s.db := by
  obtain ⟨f, new, _, hrows, hmove, hnew, _⟩ := (step_effect hi h).deliveries
  refine occupied_le _ hrows (fun d hd ho => ?_) fun d hd ho => ?_
  · obtain ⟨hid, hs, -, hc, -⟩ := (hmove d hd).identity
    refine ⟨?_, hs, hc⟩
    by_cases hp : d.state = .pending
    · -- a pending row stays as it is, so it is not the one that occupies
      have hold := (step_evolves hi h he).pending d hd hp
      have hfd : f d ∈ t.db.deliveries.rows := by
        rw [hrows]
        exact List.mem_append_left _ (List.mem_map_of_mem hd)
      rwa [t.db.deliveries.row_unique hfd hold hid] at ho
    · exact move_occupies (hmove d hd) hp ho
  · have hpend : d.state = .pending := (hnew d hd).2.1
    rcases ho with ho | ho <;> rw [hpend] at ho <;> cases ho

theorem step_gate (hs : Bounded cfg s) (h : (atomic cfg).step s e t) :
    UnderWay (· = ·) (fun _ => Gated) t := by
  obtain ⟨ha, hstep⟩ := h
  refine step_under_way (fun _ _ _ h k => h.trans k) ?_ hstep ?_ rfl hs.gate
  · rintro i rfl
    exact pass_gated ha s.db
  · intro hc he
    have busy : s.conductor ≠ none := by
      rw [Option.isSome_iff_ne_none] at hc
      exact hc
    obtain ⟨hen, rfl⟩ := hstep
    cases e with
    | ingest | claim | complete | abandon => exact absurd ha busy
    | statement => exact absurd rfl he
    | beginPass | endPass => rfl

theorem admission_bounded {F : Db → Prop} {i : PassInput} {db : Db} {chosen : List Candidate}
    (ha : Admission cfg F i chosen db)
    (hg : Gated db (markReady (chosen.map Candidate.id) i.now db)) {c : Consumer}
    (hc : c ∈ db.cast.consumers)
    (hb : (occupied (ofConsumer c.simulationId c.id) db : ℤ) ≤ ceiling cfg db c) :
    (occupied (ofConsumer c.simulationId c.id)
      (markReady (chosen.map Candidate.id) i.now db) : ℤ) ≤ ceiling cfg db c := by
  set t := markReady (chosen.map Candidate.id) i.now db with ht
  have hin : inFlightIn (ofConsumer c.simulationId c.id) t ≤
      inFlightIn (ofConsumer c.simulationId c.id) db := markReady_inFlight _ _
  have hready : readyIn (ofConsumer c.simulationId c.id) t ≤ _ := markReady_ready ha.queued
  unfold occupied at hb ⊢
  by_cases hx : ∃ x ∈ chosen, i.simulationId = c.simulationId ∧ x.consumerId = c.id
  · obtain ⟨x, hx, hsim, hcon⟩ := hx
    obtain ⟨d, hd, hp, hds, rfl⟩ := ha.queued x hx
    have hmem : readyRow i.now d ∈ t.deliveries.rows := by
      rw [ht, markReady_rows]
      refine List.mem_map.mpr ⟨d, hd, if_pos (List.mem_map.mpr ⟨_, hx, rfl⟩)⟩
    have hbelow := hg d hd hp _ hmem rfl rfl c hc hcon.symm
    rw [hds, hsim] at hbelow
    have hall : readyIn (ofConsumer c.simulationId c.id) t ≤
        readyIn (ofSimulation c.simulationId) t := by
      refine List.countP_mono_left fun e _ he => ?_
      simp only [ofConsumer, ofSimulation, Bool.and_eq_true] at he ⊢
      exact ⟨he.1.1, he.2⟩
    have hsum : readyIn (ofSimulation c.simulationId) t ≤ _ := markReady_ready ha.queued
    have hlen := List.countP_le_length (p := fun x : Candidate =>
      ofSimulation c.simulationId i.simulationId x.consumerId) (l := chosen)
    have hpos : 0 < chosen.length := List.length_pos_of_mem hx
    have hbuffer := ha.buffer
    rw [hsim] at hbuffer
    rw [ceiling]
    omega
  · have hzero : (chosen.countP fun x =>
        ofConsumer c.simulationId c.id i.simulationId x.consumerId) = 0 := by
      refine List.countP_eq_zero.mpr fun x hm hq => hx ⟨x, hm, ?_⟩
      simpa [ofConsumer] using hq
    omega

theorem step_bounded (hi : Invariant cfg s) (hs : Bounded cfg s) (h : (atomic cfg).step s e t) :
    Bounded cfg t := by
  refine ⟨step_gate hs h, fun c hc => ?_⟩
  have hcast := (step_effect hi h.2).cast
  rw [hcast] at hc
  have hceiling : ceiling cfg t.db c = ceiling cfg s.db c := by
    rw [ceiling, ceiling, totalCap, hcast]
    rfl
  rw [hceiling]
  have hbefore := hs.bound c hc
  by_cases he : e = .statement
  · subst he
    obtain ⟨-, hen, rfl⟩ := h
    rcases statement_cases cfg s with ⟨i, write, k, hcon⟩ | hn
    · rw [next_statement hcon]
      rcases conductor_occupied (statement_write hi.pass trivial hcon).1 with
        hfall | ⟨ch, ha, hmark⟩
      · have := hfall (ofConsumer c.simulationId c.id)
        dsimp only
        omega
      · have hgate : Gated s.db (write s.db) := (hs.gate i _ hcon s.db rfl).1
        dsimp only
        rw [hmark] at hgate ⊢
        exact admission_bounded ha hgate hc hbefore
    · rw [hn]
      exact hbefore
  · have := step_occupied hi h.2 he (ofConsumer c.simulationId c.id)
    omega

theorem initial_bounded (cast : Cast) (simulations : List Simulation) :
    Bounded cfg (initial cast simulations) := by
  refine ⟨?_, fun c hc => ?_⟩
  · intro i p hp
    cases hp
  · have hcap := (cast.knobs_positive c hc).2.1
    have hzero : occupied (ofConsumer c.simulationId c.id) (initial cast simulations).db = 0 := rfl
    rw [hzero, ceiling]
    omega

theorem reachable_bounded (h : (atomic cfg).Reachable s) : Bounded cfg s := by
  apply h.invariant (P := Bounded cfg)
  · rintro _ ⟨cast, sims, rfl⟩
    exact initial_bounded cast sims
  · intro s e t hr hs he
    exact step_bounded (reachable_invariant (System.restrict_reachable hr)) hs he

theorem step_gated (hi : Invariant cfg s) (hs : Bounded cfg s) (h : Step cfg s e t) :
    Gated s.db t.db := by
  by_cases he : e = .statement
  · subst he
    obtain ⟨hen, rfl⟩ := h
    rcases statement_cases cfg s with ⟨i, write, k, hcon⟩ | hn
    · rw [next_statement hcon]
      exact (hs.gate i _ hcon s.db rfl).1
    · rw [hn]
      exact gated_of_frame .refl
  · intro d hd hp d' hd' hid hr
    have hold := (step_evolves hi h he).pending d hd hp
    rw [t.db.deliveries.row_unique hd' hold hid, hp] at hr
    cases hr

end Steps

/-- With atomic passes a consumer never has more in the worker plane than its cap but one and the
whole ready buffer, and none that is at its cap is let in. -/
theorem concurrency_bounded (cfg : Settings) {s : State} (h : (atomic cfg).Reachable s) :
    (∀ c ∈ s.db.cast.consumers,
      (inFlightIn (ofConsumer c.simulationId c.id) s.db +
        readyIn (ofConsumer c.simulationId c.id) s.db : ℤ) ≤
      (c.concurrencyCap - 1) +
        max 0 ⌈cfg.readyBufferDepthMultiplier * totalCap c.simulationId s.db⌉) ∧
    ∀ e t, (atomic cfg).step s e t → ∀ d ∈ s.db.deliveries.rows, d.state = .pending →
      ∀ d' ∈ t.db.deliveries.rows, d'.id = d.id → d'.state = .ready →
        ∀ c ∈ s.db.cast.consumers, c.id = d.consumerId →
          inFlightIn (ofConsumer d.simulationId c.id) s.db < c.concurrencyCap := by
  have hs := reachable_bounded h
  have hi := reachable_invariant (System.restrict_reachable h)
  refine ⟨fun c hc => ?_, fun e t he => step_gated hi hs he.2⟩
  have hbound := hs.bound c hc
  rw [occupied, Nat.cast_add] at hbound
  exact hbound

/-- One delivery in flight of a consumer whose cap is four, in a buffer of six. -/
theorem concurrency_bounded_first_claim : ∃ s, (atomic shipped).Reachable s ∧
    inFlightIn (ofConsumer 1 1) s.db = 1 ∧
    (inFlightIn (ofConsumer 1 1) s.db + readyIn (ofConsumer 1 1) s.db : ℤ) ≤ 3 + 6 := by
  have hrun : (runList (fun s e => Atomic s e ∧ Enabled s e) (next shipped)
      (initial soleConsumer []) firstClaim).map
      (fun s => (inFlightIn (ofConsumer 1 1) s.db, s.db.cast.consumers,
        (bufferTarget shipped (totalCap 1 s.db) : ℤ))) =
      some (1, soleConsumer.consumers, 6) := by decide +kernel
  obtain ⟨s, hs, hrows⟩ := Option.map_eq_some_iff.mp hrun
  simp only [Prod.mk.injEq] at hrows
  obtain ⟨hone, hcast, hbuffer⟩ := hrows
  have hr : (atomic shipped).Reachable s :=
    ⟨_, ⟨soleConsumer, [], rfl⟩, runList_restricted _ _ _ hs⟩
  have hbound := (concurrency_bounded shipped hr).1 _
    (by rw [hcast]; exact List.mem_singleton.mpr rfl)
  have hceiling : ⌈shipped.readyBufferDepthMultiplier * totalCap 1 s.db⌉ = 6 := hbuffer
  refine ⟨s, hr, hone, hbound.trans ?_⟩
  simp only [hceiling]
  norm_num

end ConcurrencyBound
