import WebhookRecovery.IdlePass

/-! Progress of an idle pipeline. A pass moves something exactly when the truncated rates leave a
slot, and the fetch meets somebody that can take it, or something to drop. -/
namespace IdleProgress

open KeyedTables RecoverySchema InterleavedPrograms CheckedPrograms DeliveryPolicy MetricsSeries
open DeliveryAdmission LeaseReaper ConductorPass PassStages PassGuarantee SimulationSlices
open PassIsolation WeightedAllocation AdmissionOutcome PolicyVerdicts AdmittedRows
open WorkConservation FifoScan QueueUsage IdlePass

section Capacity

variable {cfg : Settings} {i : PassInput} {db : Db} {s : ConsumerState} {d : Delivery}

def Attemptable (cfg : Settings) (db : Db) (d : Delivery) : Prop :=
  ∃ c ∈ db.cast.consumers, c.id = d.consumerId ∧
    1 ≤ c.maxAttemptsPerS * cfg.fairnessWindowVirtualS

theorem pyInt_pos {x : ℚ} : 0 < pyInt x ↔ 1 ≤ x := by
  rw [pyInt]
  split
  · rw [Int.floor_pos]
  · rename_i h
    have hle : ⌈x⌉ ≤ 0 := Int.ceil_le.mpr (by push_cast; exact (not_le.mp h).le)
    exact iff_of_false (not_lt.mpr hle) fun h1 => h (zero_le_one.trans h1)

theorem idle_state (h : Idle cfg i db)
    (hs : s ∈ statesOf cfg i.simulationId i.now (readGauges i.simulationId db) db) :
    s.attemptsInWindow = 0 ∧ s.ready = 0 ∧ s.inFlight = 0 := by
  obtain ⟨row, hrow, rfl⟩ := List.mem_map.mp hs
  refine ⟨?_, ?_, ?_⟩
  · refine (countOf_windowUsage cfg i.simulationId i.now db row.1.id).trans ?_
    refine List.countP_eq_zero.mpr fun a ha hw => ?_
    simp only [QueueUsage.ofConsumer, Bool.and_eq_true, beq_iff_eq, decide_eq_true_eq] at hw
    exact absurd hw.2 (not_le.mpr (h.quiet a ha hw.1.1))
  · refine (countOf_gauge rfl i.simulationId db row.1.id).trans ?_
    refine List.countP_eq_zero.mpr fun d hd hw => ?_
    simp only [QueueUsage.ofConsumer, Bool.and_eq_true, beq_iff_eq] at hw
    exact (h.queued d hd hw.1.1).1 hw.2
  · refine (countOf_gauge rfl i.simulationId db row.1.id).trans ?_
    refine List.countP_eq_zero.mpr fun d hd hw => ?_
    simp only [QueueUsage.ofConsumer, Bool.and_eq_true, beq_iff_eq] at hw
    exact (h.queued d hd hw.1.1).2 hw.2

theorem state_of_consumer (hc : Consistent db)
    (hs : s ∈ statesOf cfg i.simulationId i.now (readGauges i.simulationId db) db) :
    (∃ c ∈ db.cast.consumers, c.simulationId = i.simulationId ∧ c.id = s.id ∧
      c.maxAttemptsPerS = s.maxAttemptsPerS ∧ c.concurrencyCap = s.concurrencyCap) ∧
    (0 < s.demand ↔ ∃ d ∈ dueQueue i.scan i.simulationId i.now db, d.consumerId = s.id) := by
  obtain ⟨row, hrow, rfl⟩ := List.mem_map.mp hs
  obtain ⟨c, hmem, rfl⟩ := List.mem_map.mp hrow
  obtain ⟨hcons, hsim⟩ := List.mem_filter.mp ((List.perm_insertionSort _ _).mem_iff.mp hmem)
  rw [beq_iff_eq] at hsim
  refine ⟨⟨c, hcons, hsim, rfl, rfl, rfl⟩, List.countP_pos_iff.trans ?_⟩
  simp only [Bool.and_eq_true, beq_iff_eq, mem_dueQueue, isDue_iff]
  constructor
  · rintro ⟨d, hd, ⟨hdc, hstate⟩, hdue⟩
    obtain ⟨c', hc', hid, hsim'⟩ := hc.deliveries d hd
    obtain rfl := List.inj_on_of_nodup_map db.cast.consumer_key hc' hcons (hid.trans hdc)
    exact ⟨d, ⟨hd, hsim'.symm.trans hsim, hstate, hdue⟩, hdc⟩
  · rintro ⟨d, ⟨hd, -, hstate, hdue⟩, hdc⟩
    exact ⟨d, hd, ⟨hdc, hstate⟩, hdue⟩

theorem headroom_pos (h : Idle cfg i db) (hc : Consistent db) (pooled : Bool)
    (hs : s ∈ statesOf cfg i.simulationId i.now (readGauges i.simulationId db) db) :
    0 < s.headroom cfg.fairnessWindowVirtualS pooled ↔
      (∃ d ∈ dueQueue i.scan i.simulationId i.now db, d.consumerId = s.id) ∧
        1 ≤ s.maxAttemptsPerS * cfg.fairnessWindowVirtualS := by
  obtain ⟨hused, hready, hflight⟩ := idle_state h hs
  obtain ⟨⟨c, hmem, -, -, -, hcap⟩, hdemand⟩ := state_of_consumer hc hs
  have hgate : (!pooled && decide (s.concurrencyCap ≤ s.inFlight)) = false := by
    rw [hflight, ← hcap, decide_eq_false (not_le.mpr (db.cast.knobs_positive c hmem).2.1),
      Bool.and_false]
  rw [ConsumerState.headroom, hgate, ← hdemand, ← pyInt_pos, hused, hready]
  simp only [Bool.false_eq_true, if_false]
  omega

theorem state_of_due (hc : Consistent db) (hd : d ∈ dueQueue i.scan i.simulationId i.now db) :
    ∃ s ∈ statesOf cfg i.simulationId i.now (readGauges i.simulationId db) db,
      s.id = d.consumerId ∧ (Attemptable cfg db d ↔
        1 ≤ s.maxAttemptsPerS * cfg.fairnessWindowVirtualS) := by
  obtain ⟨hrow, hdue⟩ := mem_dueQueue.mp hd
  obtain ⟨c, hcons, hid, hsim⟩ := hc.deliveries d hrow
  have hmem : d.consumerId ∈ (statesOf cfg i.simulationId i.now (readGauges i.simulationId db)
      db).map ConsumerState.id :=
    mem_statesOf_ids.mpr ⟨c, hcons, hsim.trans (isDue_iff.mp hdue).1, hid⟩
  obtain ⟨s, hs, hsd⟩ := List.mem_map.mp hmem
  obtain ⟨⟨c', hc', -, hid', hrate, -⟩, -⟩ := state_of_consumer hc hs
  obtain rfl := List.inj_on_of_nodup_map db.cast.consumer_key hc' hcons
    ((hid'.trans hsd).trans hid.symm)
  refine ⟨s, hs, hsd, fun ⟨x, hx, hxid, hxrate⟩ => ?_, fun hrate' => ⟨c', hcons, hid, ?_⟩⟩
  · obtain rfl := List.inj_on_of_nodup_map db.cast.consumer_key hx hcons (hxid.trans hid.symm)
    exact hrate ▸ hxrate
  · exact hrate ▸ hrate'

end Capacity

section Arms

variable {i : PassInput} {db : Db} {d : Delivery} {cfg : Settings}

theorem totalCap_pos (hc : Consistent db) (h : Idle cfg i db) :
    0 < totalCap i.simulationId db := by
  obtain ⟨d, hd, hdue⟩ := h.due
  obtain ⟨c, hcons, -, hsim⟩ := hc.deliveries d hd
  have hmem : c.concurrencyCap ∈ (db.cast.consumers.filter fun c =>
      c.simulationId == i.simulationId).map Consumer.concurrencyCap :=
    List.mem_map.mpr ⟨c, List.mem_filter.mpr
      ⟨hcons, beq_iff_eq.mpr (hsim.trans (isDue_iff.mp hdue).1)⟩, rfl⟩
  exact (db.cast.knobs_positive c hcons).2.1.trans_le (List.single_le_sum (fun _ _ => Nat.zero_le _)
    _ hmem)

/-- The buffer always leaves room, so the slots hang on the rate. -/
theorem slots_pos (hc : Consistent db) (h : Idle cfg i db)
    (hdepth : 0 < cfg.readyBufferDepthMultiplier) : 0 < (idleBudget cfg i db).slots ↔
      1 ≤ i.globalAttemptsPerS * cfg.fairnessWindowVirtualS := by
  have hbuffer : 0 < bufferTarget cfg (totalCap i.simulationId db) :=
    Int.ceil_pos.mpr (mul_pos hdepth (Nat.cast_pos.mpr (totalCap_pos hc h)))
  rw [← pyInt_pos, Budget.slots, idleBudget]
  dsimp only
  omega

theorem fair_allowance_nonneg {s : ConsumerState} {gauges : Gauges} (budget : Budget)
    (hs : s ∈ statesOf cfg i.simulationId i.now gauges db) :
    0 ≤ allowancesAt cfg i.simulationId i.now budget gauges true db s.id := by
  rw [allowancesAt_known hs, if_pos rfl]
  exact Int.natCast_nonneg _

theorem headroom_iff (hc : Consistent db) (h : Idle cfg i db) :
    (∃ s ∈ statesOf cfg i.simulationId i.now (readGauges i.simulationId db) db,
      0 < s.headroom cfg.fairnessWindowVirtualS (!i.fairDrainEnabled)) ↔
        ∃ d ∈ dueQueue i.scan i.simulationId i.now db, Attemptable cfg db d := by
  constructor
  · rintro ⟨s, hs, hroom⟩
    obtain ⟨⟨d, hd, hds⟩, hrate⟩ := (headroom_pos h hc _ hs).mp hroom
    obtain ⟨⟨c, hcons, -, hid, hrow, -⟩, -⟩ := state_of_consumer hc hs
    exact ⟨d, hd, c, hcons, hid.trans hds.symm, hrow ▸ hrate⟩
  · rintro ⟨d, hd, hrate⟩
    obtain ⟨s, hs, hsd, hiff⟩ := state_of_due hc hd
    exact ⟨s, hs, (headroom_pos h hc _ hs).mpr ⟨⟨d, hd, hsd.symm⟩, hiff.mp hrate⟩⟩

theorem state_of_allowance {budget : Budget} {fairDrain : Bool} {c : ConsumerId}
    (hne : allowancesAt cfg i.simulationId i.now budget (readGauges i.simulationId db) fairDrain
      db c ≠ 0) :
    ∃ s ∈ statesOf cfg i.simulationId i.now (readGauges i.simulationId db) db, s.id = c := by
  by_contra hn
  exact hne (allowancesOf_unknown fun hmem => hn (List.mem_map.mp hmem))

theorem headroom_of_allowance (hs : 0 < (idleBudget cfg i db).slots) {c : ConsumerId}
    (hne : allowancesAt cfg i.simulationId i.now (idleBudget cfg i db)
      (readGauges i.simulationId db) i.fairDrainEnabled db c ≠ 0) :
    ∃ s ∈ statesOf cfg i.simulationId i.now (readGauges i.simulationId db) db,
      0 < s.headroom cfg.fairnessWindowVirtualS (!i.fairDrainEnabled) := by
  obtain ⟨s, hst, rfl⟩ := state_of_allowance hne
  refine ⟨s, hst, ?_⟩
  have hnn := headroom_nonneg s cfg.fairnessWindowVirtualS (!i.fairDrainEnabled)
  cases hfair : i.fairDrainEnabled with
  | true =>
    rw [hfair] at hne hnn
    have hle : (shareOf cfg i.simulationId i.now (idleBudget cfg i db)
        (readGauges i.simulationId db) db s.id : ℤ) ≤ _ := shareOf_le_headroom hst
    rw [shareOf] at hle
    have hshare := fair_allowance_nonneg (idleBudget cfg i db) hst
    simp only [Bool.not_true] at hnn ⊢
    omega
  | false =>
    rw [hfair, allowancesAt_known hst] at hne
    rw [hfair] at hnn
    simp only [Bool.not_false, Bool.false_eq_true, if_false] at hne hnn ⊢
    omega

/-- Headroom gets an allowance: the shares of the slots add up, and the pool asks for no share. -/
theorem allowance_of_headroom (hs : 0 < (idleBudget cfg i db).slots) {s : ConsumerState}
    (hst : s ∈ statesOf cfg i.simulationId i.now (readGauges i.simulationId db) db)
    (hroom : 0 < s.headroom cfg.fairnessWindowVirtualS (!i.fairDrainEnabled)) :
    ∃ c, allowancesAt cfg i.simulationId i.now (idleBudget cfg i db)
      (readGauges i.simulationId db) i.fairDrainEnabled db c ≠ 0 := by
  cases hfair : i.fairDrainEnabled with
  | true =>
    rw [hfair] at hroom
    by_contra hnone
    push Not at hnone
    have hsum : ∑ c ∈ ids (statesOf cfg i.simulationId i.now (readGauges i.simulationId db) db),
        (shareOf cfg i.simulationId i.now (idleBudget cfg i db)
          (readGauges i.simulationId db) db c : ℤ) = _ := sum_shareOf
    have hzero : ∀ c, shareOf cfg i.simulationId i.now (idleBudget cfg i db)
        (readGauges i.simulationId db) db c = 0 := fun c => by rw [shareOf, hnone c]; rfl
    simp only [hzero, Nat.cast_zero, Finset.sum_const_zero] at hsum
    have hle := List.single_le_sum (l := (statesOf cfg i.simulationId i.now
      (readGauges i.simulationId db) db).map fun s => s.headroom cfg.fairnessWindowVirtualS false)
      (List.forall_mem_map.mpr fun s _ => headroom_nonneg s _ _) _ (List.mem_map_of_mem hst)
    simp only [Bool.not_true] at hroom
    omega
  | false =>
    rw [hfair] at hroom
    refine ⟨s.id, ?_⟩
    rw [allowancesAt_known hst]
    simp only [Bool.not_false, Bool.false_eq_true, if_false] at hroom ⊢
    omega

theorem allowance_iff (hc : Consistent db) (h : Idle cfg i db)
    (hs : 0 < (idleBudget cfg i db).slots) :
    (∃ c, allowancesAt cfg i.simulationId i.now (idleBudget cfg i db)
        (readGauges i.simulationId db) i.fairDrainEnabled db c ≠ 0) ↔
      ∃ d ∈ dueQueue i.scan i.simulationId i.now db, Attemptable cfg db d := by
  rw [← headroom_iff hc h]
  constructor
  · rintro ⟨c, hne⟩
    exact headroom_of_allowance hs hne
  · rintro ⟨s, hst, hroom⟩
    exact allowance_of_headroom hs hst hroom

theorem le_foldl_max {l : List ℕ} {a x : ℕ} (h : x ≤ a ∨ x ∈ l) : x ≤ l.foldl max a := by
  induction l generalizing a with
  | nil => exact h.resolve_right List.not_mem_nil
  | cons y l ih =>
    apply ih
    rcases h with h | h
    · exact Or.inl (h.trans (le_max_left _ _))
    · rcases List.mem_cons.mp h with rfl | h
      · exact Or.inl (le_max_right _ _)
      · exact Or.inr h

theorem fair_fetch (hc : Consistent db) (h : Idle cfg i db) (hover : 0 < cfg.admissionOverfetch)
    (budget : Budget) {c : ConsumerId}
    (hne : allowancesAt cfg i.simulationId i.now budget (readGauges i.simulationId db) true
      db c ≠ 0) :
    ∃ d ∈ fetchedRows cfg i.scan i.simulationId i.now budget (readGauges i.simulationId db) true db,
      0 < allowancesAt cfg i.simulationId i.now budget (readGauges i.simulationId db) true db
        d.consumerId := by
  obtain ⟨s, hst, rfl⟩ := state_of_allowance hne
  have hpos : 0 < allowancesAt cfg i.simulationId i.now budget (readGauges i.simulationId db)
      true db s.id := lt_of_le_of_ne (fair_allowance_nonneg budget hst) (Ne.symm hne)
  have hroom : 0 < s.headroom cfg.fairnessWindowVirtualS false := by
    have hle : (shareOf cfg i.simulationId i.now budget (readGauges i.simulationId db) db s.id : ℤ)
      ≤ _ := shareOf_le_headroom hst
    rw [shareOf] at hle
    omega
  obtain ⟨⟨e, he, hes⟩, -⟩ := (headroom_pos h hc _ hst).mp hroom
  have hqueue : e ∈ queueOf i.scan i.simulationId i.now db s.id :=
    mem_queueOf.mpr ⟨(mem_dueQueue.mp he).1, (mem_dueQueue.mp he).2, hes⟩
  have hreach : 0 < reach cfg i.simulationId i.now budget (readGauges i.simulationId db) db := by
    have hle : shareOf cfg i.simulationId i.now budget (readGauges i.simulationId db) db s.id ≤
        ((statesOf cfg i.simulationId i.now (readGauges i.simulationId db) db).map fun s =>
          shareOf cfg i.simulationId i.now budget (readGauges i.simulationId db) db s.id).foldl
            max 0 := le_foldl_max (Or.inr (List.mem_map_of_mem hst))
    refine Nat.mul_pos (lt_of_lt_of_le ?_ hle) hover
    rw [shareOf]
    omega
  have htake : (queueOf i.scan i.simulationId i.now db s.id).take (reach cfg i.simulationId i.now
      budget (readGauges i.simulationId db) db) ≠ [] := by
    rw [Ne, List.take_eq_nil_iff]
    rintro (h0 | h0)
    · omega
    · rw [h0] at hqueue
      cases hqueue
  obtain ⟨d, hd⟩ := List.exists_mem_of_ne_nil _ htake
  refine ⟨d, List.mem_flatMap.mpr ⟨s.id, ?_, hd⟩, ?_⟩
  · exact (List.mem_insertionSort _).mpr (List.mem_map_of_mem hst)
  · rw [(mem_queueOf.mp (List.mem_of_mem_take hd)).2.2]
    exact hpos

theorem pool_allowance (hc : Consistent db) (h : Idle cfg i db)
    (hs : 0 < (idleBudget cfg i db).slots) (hd : d ∈ dueQueue i.scan i.simulationId i.now db) :
    0 < allowancesAt cfg i.simulationId i.now (idleBudget cfg i db)
        (readGauges i.simulationId db) false db d.consumerId ↔ Attemptable cfg db d := by
  obtain ⟨s, hst, hsd, hiff⟩ := state_of_due hc hd
  have hroom : 0 < s.headroom cfg.fairnessWindowVirtualS true ↔ _ := headroom_pos h hc true hst
  have hdue : ∃ d ∈ dueQueue i.scan i.simulationId i.now db, d.consumerId = s.id :=
    ⟨d, hd, hsd.symm⟩
  rw [← hsd, allowancesAt_known hst, hiff, ← hroom.trans (and_iff_right hdue)]
  simp only [Bool.false_eq_true, if_false]
  omega

end Arms

/-- A slot a window, a due delivery that can be attempted, and on the FIFO arm one within the
fetch limit, unless policy drops something there. -/
def Feasible (i : PassInput) (db : Db) : Prop :=
  1 ≤ i.globalAttemptsPerS * shipped.fairnessWindowVirtualS ∧
    (∃ d ∈ dueQueue i.scan i.simulationId i.now db, Attemptable shipped db d) ∧
    (i.fairDrainEnabled = true ∨
      ∃ d ∈ (dueQueue i.scan i.simulationId i.now db).take
          ((idleBudget shipped i db).slots.toNat * shipped.admissionOverfetch),
        Attemptable shipped db d ∨
          admissible i.simulationId (loadPolicies i.simulationId db) i.now db d = false)

/-- An idle pipeline with due work moves exactly when the truncated rates and the fetch let it. -/
theorem idle_pass_moves_iff (i : PassInput) (db : Db) (hc : Consistent db)
    (h : Idle shipped i db) (ho : Open i db) : Moves shipped i db ↔ Feasible i db := by
  rw [moves_iff_selects h ho, Feasible, ← slots_pos hc h (by norm_num [shipped])]
  refine and_congr_right fun hs => ?_
  rw [Selects, allowance_iff hc h hs]
  refine and_congr_right fun hdue => ?_
  cases hfair : i.fairDrainEnabled with
  | true =>
    refine iff_of_true ?_ (Or.inl rfl)
    obtain ⟨c, hne⟩ := (allowance_iff hc h hs).mpr hdue
    rw [hfair] at hne
    obtain ⟨d, hd, hpos⟩ := fair_fetch hc h (by decide) _ hne
    exact ⟨d, hd, Or.inr hpos⟩
  | false =>
    simp only [Bool.false_eq_true, false_or]
    refine exists_congr fun d => and_congr_right fun hd => ?_
    rw [pool_allowance hc h hs (List.mem_of_mem_take hd), or_comm]

def passWith (globalAttemptsPerS : ℚ) : PassInput where
  simulationId := 1
  now := 100
  elapsed := 100
  fairDrainEnabled := true
  globalAttemptsPerS := globalAttemptsPerS
  outageOverride := none
  lastWritten := none
  locked := fun _ => false
  scan := .physical

theorem oneStale_consistent : Consistent oneStale := by
  constructor <;> decide +kernel

theorem oneStale_idle (g : ℚ) : Idle shipped (passWith g) oneStale := by
  have hdue : ∃ d ∈ oneStale.deliveries.rows, isDue 1 100 d = true := by decide +kernel
  have hqueued : ∀ d ∈ oneStale.deliveries.rows, d.simulationId = 1 →
      d.state ≠ .ready ∧ d.state ≠ .inFlight := by decide +kernel
  exact ⟨hdue, hqueued, fun _ ha => absurd ha List.not_mem_nil⟩

theorem oneStale_open (g : ℚ) : Open (passWith g) oneStale := by
  have hgoing : isFinished 100 (totalBacklog (readGauges 1 oneStale)) = false ∧
      isOutage 100 none = false := by decide +kernel
  exact hgoing

theorem idle_pass_moves_iff_oneStale : Moves shipped (passWith 2) oneStale :=
  (idle_pass_moves_iff (passWith 2) oneStale oneStale_consistent (oneStale_idle 2)
    (oneStale_open 2)).mpr
      ⟨by decide +kernel, ⟨_, mem_dueQueue.mpr ⟨List.mem_cons_self, rfl⟩,
        ⟨1, 1, 1, 10, 10, 0, 0, 0, false⟩, by decide +kernel, rfl, by decide +kernel⟩, Or.inl rfl⟩

/-- At one attempt in ten seconds no pass ever has a slot. -/
theorem slow_rate_stalls : ¬ ∀ (i : PassInput) (db : Db), Consistent db → Idle shipped i db →
    Open i db → 0 < i.globalAttemptsPerS → Moves shipped i db := by
  intro h
  have hmoves := h (passWith (1 / 10)) oneStale oneStale_consistent (oneStale_idle _)
    (oneStale_open _) (by decide +kernel)
  revert hmoves
  rw [Moves]
  decide +kernel

end IdleProgress
