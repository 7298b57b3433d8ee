import WebhookRecovery.PipelineInvariant

/-! The lease and attempt protocol, in every reachable state of the pipeline. -/
namespace LeaseProtocol

open RecoverySchema InterleavedPrograms WorkerClaim DeliveryPipeline DeliveryFile
open PipelineInvariant

/-- What the rows of one delivery say about each other. -/
structure LeaseLaw (cfg : Settings) (db : Db) (d : Delivery) : Prop where
  counted : (db.attemptsOf d.id).length = d.attemptCount
  capped : d.attemptCount ≤ max 1 cfg.maxAttempts
  open_iff : (∃ a ∈ db.attemptsOf d.id, a.finishedAt = none) ↔ d.state = .inFlight
  open_unique : ∀ a ∈ db.attemptsOf d.id, ∀ b ∈ db.attemptsOf d.id,
    a.finishedAt = none → b.finishedAt = none → a = b
  open_lease : ∀ a ∈ db.attemptsOf d.id, a.finishedAt = none →
    d.leasedBy = some a.workerId ∧
    d.leaseExpiresAt = some (a.startedAt + cfg.leaseDurationVirtualS)
  delivered_iff : d.state = .delivered ↔ ∃ a ∈ db.attemptsOf d.id, a.outcome = some .ok
  ok_last : ∀ a ∈ db.attemptsOf d.id, a.outcome = some .ok →
    (db.attemptsOf d.id).getLast? = some a

theorem isOpen_iff {a : Attempt} : a.isOpen = true ↔ a.finishedAt = none := by
  simp [Attempt.isOpen]

theorem leaseLaw_of_sound {cfg : Settings} {db : Db} {d : Delivery} (h : Sound cfg (file db d)) :
    LeaseLaw cfg db d := by
  have story : Story cfg d (db.attemptsOf d.id) := h.story
  refine ⟨h.counted, h.capped, ⟨?_, fun hs => ?_⟩, fun a ha b hb hao hbo => ?_,
    fun a ha ho => ?_, ⟨story.delivered, ?_⟩, fun a ha ho => (story.ok_attempt ha ho).2⟩
  · rintro ⟨a, ha, ho⟩
    exact (story.open_attempt ha (isOpen_iff.mpr ho)).1
  · obtain ⟨a, ha, ho⟩ := story.in_flight hs
    exact ⟨a, ha, isOpen_iff.mp ho⟩
  · obtain ⟨_, _, _, _, past, hpast, hl⟩ := story.open_attempt ha (isOpen_iff.mpr hao)
    rw [hl] at hb
    rcases List.mem_append.mp hb with hm | hm
    · have hclosed := (hpast b hm).1
      rw [isOpen_iff.mpr hbo] at hclosed
      cases hclosed
    · exact (List.mem_singleton.mp hm).symm
  · obtain ⟨_, _, hw, he, _⟩ := story.open_attempt ha (isOpen_iff.mpr ho)
    exact ⟨hw, he⟩
  · rintro ⟨a, ha, ho⟩
    exact (story.ok_attempt ha ho).1

theorem step_keeps_closed {cfg : Settings} {s t : State} {e : Action} (hi : Invariant cfg s)
    (h : Step cfg s e t) {a : Attempt} (ha : a ∈ s.db.attempts.rows)
    (hc : a.finishedAt ≠ none) : a ∈ t.db.attempts.rows := by
  obtain ⟨g, more, hg, hkept, _⟩ := (step_effect hi h).attempts
  have hclosed : a.isOpen = false := by
    simpa using fun ho => hc (isOpen_iff.mp ho)
  rw [hg]
  exact List.mem_append_left _ (List.mem_map.mpr ⟨a, ha, (hkept a).closed hclosed⟩)

theorem execution_keeps_closed {cfg : Settings} {s t : State} (hs : (system cfg).Reachable s)
    (h : (system cfg).Execution s t) {a : Attempt} (ha : a ∈ s.db.attempts.rows)
    (hc : a.finishedAt ≠ none) : a ∈ t.db.attempts.rows :=
  h.relates (R := fun s t => a ∈ s.db.attempts.rows → a ∈ t.db.attempts.rows) (fun _ h => h)
    (fun _ _ _ h k m => k (h m))
    (fun _ _ _ hr he hm => step_keeps_closed (reachable_invariant hr) he hm hc) hs ha

/-- A completion whose attempt was closed before it arrives does not touch the delivery. -/
theorem late_completion {cfg : Settings} {s t : State} {w : WorkerId} {l : List Claimed}
    {results : List AttemptResult} {now : ℚ} (hi : Invariant cfg s) (hl : s.batches w = some l)
    (h : Step cfg s (.complete w results now) t) {c : Claimed} (hc : c ∈ l)
    (hclosed : ∀ a ∈ s.db.attempts.rows, a.id = c.attemptId → a.finishedAt ≠ none)
    {d : Delivery} (hd : d ∈ s.db.deliveries.rows) (hid : d.id = c.request.deliveryId) :
    d ∈ t.db.deliveries.rows ∧ t.db.attemptsOf d.id = s.db.attemptsOf d.id := by
  obtain ⟨hen, rfl⟩ := h
  obtain ⟨l', hl', hcl⟩ := enabled_complete hen
  obtain rfl : l' = l := Option.some.inj (hl'.symm.trans hl)
  have hb := hi.batches w _ hl
  refine complete_lost now hi.files hb hcl hd fun hheld => ?_
  obtain ⟨a, ha, hak, _, _, hcur⟩ := hb.recorded c hc
  exact hclosed a ha hak (isOpen_iff.mp (hcur d hd hid hheld).1)

/-- Every delivery obeys the law; a closed attempt stays as it is; a late completion is void. -/
theorem lease_protocol (cfg : Settings) {s : State} (h : (system cfg).Reachable s) :
    (∀ d ∈ s.db.deliveries.rows, LeaseLaw cfg s.db d) ∧
    (∀ t, (system cfg).Execution s t → ∀ a ∈ s.db.attempts.rows, a.finishedAt ≠ none →
      a ∈ t.db.attempts.rows) ∧
    ∀ w l results now t, s.batches w = some l → Step cfg s (.complete w results now) t →
      ∀ c ∈ l, (∀ a ∈ s.db.attempts.rows, a.id = c.attemptId → a.finishedAt ≠ none) →
        ∀ d ∈ s.db.deliveries.rows, d.id = c.request.deliveryId →
          d ∈ t.db.deliveries.rows ∧ t.db.attemptsOf d.id = s.db.attemptsOf d.id := by
  have hi := reachable_invariant h
  refine ⟨fun d hd => leaseLaw_of_sound (hi.files d hd), ?_, ?_⟩
  · intro t hx a ha hc
    exact execution_keeps_closed h hx ha hc
  · intro w l results now t hl hs c hc hclosed d hd hid
    exact late_completion hi hl hs hc hclosed hd hid

/-- The law at work: one event, admitted and claimed. -/
theorem lease_protocol_first_claim :
    ∃ s, run shipped (initial soleConsumer []) firstClaim = some s ∧
      ∃ d ∈ s.db.deliveries.rows, d.state = .inFlight ∧ LeaseLaw shipped s.db d := by
  obtain ⟨s, hs, d, hd, hin⟩ := firstClaim_inFlight
  exact ⟨s, hs, d, hd, hin, (lease_protocol shipped (run_reachable hs)).1 d hd⟩

end LeaseProtocol
