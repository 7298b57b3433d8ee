import WebhookRecovery.ConsumerTransport
import WebhookRecovery.LeaseProtocol
import WebhookRecovery.DeliveryLifecycle

/-! What workers that deliver through the simulated transport record. The outcome of an attempt is
the one that its delivery, its number and its consumer's row determine, whichever worker makes it
and whatever the others do meanwhile; the reaper's verdict on a lost lease is the only other. -/
namespace AttemptOutcomes

open KeyedTables RecoverySchema InterleavedPrograms DeliveryPolicy WorkerClaim LeaseReaper
open EventIngest ConductorPass DeliveryPipeline PassGuarantee DeliveryFile PipelineInvariant
open LeaseProtocol ConsumerTransport

/-- Every completion is of the batch that was claimed, with what the transport returned. -/
def Delivers (random : Random) (s : State) : Action → Prop
  | .complete w results _ =>
    results = ((s.batches w).getD []).map fun c => (attempt random c.request).result
  | _ => True

instance (random : Random) (s : State) : DecidablePred (Delivers random s)
  | .complete w results _ => inferInstanceAs (Decidable (results =
    ((s.batches w).getD []).map fun c => (attempt random c.request).result))
  | .ingest .. | .claim .. | .abandon _ | .beginPass _ | .statement | .endPass =>
    inferInstanceAs (Decidable True)

def delivering (cfg : Settings) (random : Random) : System State Action :=
  (system cfg).restrict (Delivers random)

def requestFor (d : Delivery) (c : Consumer) (attemptNo : ℕ) : AttemptRequest where
  simulationId := d.simulationId
  deliveryId := d.id
  consumerId := d.consumerId
  attemptNo := attemptNo
  eventType := d.eventType
  entityKey := d.entityKey
  profile := ⟨c.simLatencyS, c.simJitterS, c.simFailureRate, c.simDown⟩

/-- The attempt answered as its number and the row of its consumer determine. -/
def Answers (random : Random) (cast : Cast) (d : Delivery) (attemptNo : ℕ) (a : Attempt) : Prop :=
  ∃ c ∈ cast.consumers, c.id = d.consumerId ∧
    a.outcome = some (attempt random (requestFor d c attemptNo)).result.outcome ∧
    a.statusCode = (attempt random (requestFor d c attemptNo)).result.statusCode

def Answered (random : Random) (cast : Cast) (d : Delivery) (l : List Attempt) : Prop :=
  ∀ k a, l[k]? = some a → a.isOpen = false →
    a.outcome = some .leaseExpired ∨ Answers random cast d (k + 1) a

def Asked (s : Db) (l : List Claimed) : Prop :=
  ∀ x ∈ l, ∃ d ∈ s.deliveries.rows, ∃ c ∈ s.cast.consumers, c.id = d.consumerId ∧
    x.request = requestFor d c x.request.attemptNo

section Requests

variable {cfg : Settings} {s t : State} {e : Action} {d d' : Delivery}

theorem requestFor_congr (hid : d'.id = d.id) (hs : d'.simulationId = d.simulationId)
    (hc : candidateOf d' = candidateOf d) : requestFor d' = requestFor d := by
  simp only [candidateOf, Candidate.mk.injEq] at hc
  obtain ⟨-, hcon, htype, hkey, -⟩ := hc
  funext c n
  simp only [requestFor, hid, hs, hcon, htype, hkey]

theorem step_asked (hi : Invariant cfg s) (h : Step cfg s e t) {l : List Claimed}
    (hl : Asked s.db l) : Asked t.db l := by
  have heff := step_effect hi h
  intro x hx
  obtain ⟨d, hd, c, hc, hcon, hreq⟩ := hl x hx
  obtain ⟨d', hd', hid, hmove⟩ := heff.moved hd
  obtain ⟨-, hsim, -, hcon', hcand⟩ := hmove.identity
  have hcon' : d'.consumerId = d.consumerId := hcon'
  refine ⟨d', hd', c, heff.cast ▸ hc, hcon.trans hcon'.symm, ?_⟩
  rw [requestFor_congr hid hsim hcand]
  exact hreq

theorem claim_asked {scan : ScanOrder} {locked : ℕ → Bool} {sim : SimulationId} {w : WorkerId}
    {now : ℚ} {limit : ℕ} {db : Db} :
    Asked db (claimBatch cfg scan locked sim w now limit db).2 := by
  intro x hx
  rw [claimBatch_claimed] at hx
  obtain ⟨y, hy, rfl⟩ := List.mem_map.mp hx
  have hr := List.fst_mem_of_mem_zipIdx hy
  obtain ⟨hd, hsim, -⟩ := mem_liveRows hr
  obtain ⟨d, -, hrow⟩ := List.mem_filterMap.mp (List.mem_of_mem_take (List.mem_of_mem_filter hr))
  obtain ⟨c, hc, hcr⟩ := Option.map_eq_some_iff.mp hrow
  have hcon := List.find?_some hc
  have hdel := claimRow_delivery hrow
  refine ⟨y.1.delivery, hd, c, List.mem_of_find?_eq_some hc, ?_, ?_⟩
  · rw [hdel]
    simpa using hcon
  · have hconsumer : y.1.consumer = c := by rw [← hcr]
    simp only [claimedRow, requestFor, hconsumer, hsim]

theorem step_batch (h : Step cfg s e t) {w : WorkerId} {l : List Claimed}
    (hl : t.batches w = some l) : s.batches w = some l ∨
      ∃ sim now locked scan, e = .claim w sim now locked scan ∧
        l = (claimBatch cfg scan locked sim w now cfg.workerBatchSize s.db).2 := by
  obtain ⟨hen, rfl⟩ := h
  cases e with
  | claim v sim now locked scan =>
    by_cases hv : v = w
    · subst hv
      simp only [next, Function.update_self, batchOf] at hl
      split at hl
      · cases hl
      · exact Or.inr ⟨sim, now, locked, scan, rfl, (Option.some.inj hl).symm⟩
    · simp only [next, Function.update_of_ne (Ne.symm hv)] at hl
      exact Or.inl hl
  | complete v results now =>
    by_cases hv : v = w
    · subst hv
      simp [next] at hl
    · simp only [next, Function.update_of_ne (Ne.symm hv)] at hl
      exact Or.inl hl
  | abandon v =>
    by_cases hv : v = w
    · subst hv
      simp [next] at hl
    · simp only [next, Function.update_of_ne (Ne.symm hv)] at hl
      exact Or.inl hl
  | statement =>
    rcases statement_cases cfg s with ⟨i, write, k, hc⟩ | hn
    · rw [next_statement hc] at hl
      exact Or.inl hl
    · rw [hn] at hl
      exact Or.inl hl
  | ingest | beginPass | endPass => exact Or.inl hl

end Requests

section Closing

variable {cfg : Settings} {s t : State} {e : Action}

theorem conductor_closes {F : Db → Prop} {j : PassInput} {u v : Db}
    (h : ConductorWrite cfg F j u v) {i k : ℕ} {b : Attempt} (hb : (v.attemptsOf i)[k]? = some b) :
    (u.attemptsOf i)[k]? = some b ∨ b.outcome = some .leaseExpired := by
  cases h with
  | frame _ _ _ hatt _ =>
    rw [Db.attemptsOf, hatt] at hb
    exact Or.inl hb
  | drop | ready => exact Or.inl hb
  | reclaim =>
    have hrows := reclaim_attempts cfg j.simulationId j.now j.locked u
    rw [attemptsOf_map hrows fun a => by split <;> rfl, List.getElem?_map] at hb
    obtain ⟨a, ha, rfl⟩ := Option.map_eq_some_iff.mp hb
    split
    · exact Or.inr rfl
    · exact Or.inl ha

theorem step_closes (hi : Invariant cfg s) (h : Step cfg s e t) {i k : ℕ} {b : Attempt}
    (hb : (t.db.attemptsOf i)[k]? = some b) (hclosed : b.isOpen = false) :
    (s.db.attemptsOf i)[k]? = some b ∨ b.outcome = some .leaseExpired ∨
      ∃ w results now, e = .complete w results now ∧
        ∃ c ∈ completions (s.batches w) results, ∃ a, (s.db.attemptsOf i)[k]? = some a ∧
          a.isOpen ∧ c.claimed.attemptId = a.id ∧ b = closeRow now c.result a := by
  have same : t.db.attempts = s.db.attempts → (s.db.attemptsOf i)[k]? = some b := by
    intro hatt
    rwa [Db.attemptsOf, hatt] at hb
  obtain ⟨hen, rfl⟩ := h
  cases e with
  | ingest | abandon | beginPass | endPass => exact Or.inl (same rfl)
  | claim w sim now locked scan =>
    refine Or.inl ?_
    have hrows : (next cfg s (.claim w sim now locked scan)).db.attempts.rows =
        s.db.attempts.rows.map id ++ ((liveRows scan locked sim now cfg.workerBatchSize s.db).zipIdx
          s.db.attempts.next).map fun x => attemptRow sim w now x.2 x.1 := by
      rw [List.map_id]
      exact claimBatch_attempts cfg scan locked sim w now cfg.workerBatchSize s.db
    rw [attemptsOf_append hrows fun _ => rfl, List.map_id, List.getElem?_append] at hb
    split at hb
    · exact hb
    · -- what a claim inserts is open
      obtain ⟨x, -, rfl⟩ := List.mem_map.mp (List.mem_of_mem_filter (List.mem_of_getElem? hb))
      cases hclosed
  | complete w results now =>
    obtain ⟨l, hl, hc⟩ := enabled_complete hen
    have han : ((completions (s.batches w) results).map fun c => c.claimed.attemptId).Nodup := by
      have h := (hi.batches w l hl).attempts_nodup
      rwa [← hc, List.map_map] at h
    obtain ⟨g, hg, hatt⟩ := closeAttempts_rows now s.db.attempts han
    have hof : (next cfg s (.complete w results now)).db.attemptsOf i = (s.db.attemptsOf i).map g :=
      attemptsOf_map hg (fun a => (closeAttempts_kept hatt a).delivery) i
    rw [hof, List.getElem?_map] at hb
    obtain ⟨a, ha, rfl⟩ := Option.map_eq_some_iff.mp hb
    by_cases hm : ∃ c ∈ completions (s.batches w) results, c.claimed.attemptId = a.id
    · obtain ⟨c, hcm, hca⟩ := hm
      have hga := (hatt a).2 c hcm hca
      cases ho : a.isOpen with
      | false =>
        rw [ho] at hga
        exact Or.inl (hga.symm ▸ ha)
      | true =>
        rw [ho] at hga
        exact Or.inr (Or.inr ⟨w, results, now, rfl, c, hcm, a, ha, ho, hca, hga⟩)
    · push Not at hm
      rw [(hatt a).1 hm]
      exact Or.inl ha
  | statement =>
    rcases statement_cases cfg s with ⟨j, write, p, hc⟩ | hn
    · rw [next_statement hc] at hb
      have hw := conductor_closes (statement_write hi.pass trivial hc).1 hb
      exact hw.imp_right Or.inl
    · rw [hn] at hb
      exact Or.inl hb

end Closing

section Runs

variable {cfg : Settings} {random : Random} {s t : State} {e : Action} {d d' : Delivery}

theorem mem_completions {l : List Claimed} {f : Claimed → AttemptResult} {c : Completion}
    (h : c ∈ completions (some l) (l.map f)) : c.claimed ∈ l ∧ c.result = f c.claimed := by
  rw [completions, Option.getD_some] at h
  induction l with
  | nil => cases h
  | cons x l ih =>
    rcases List.mem_cons.mp h with rfl | h
    · exact ⟨List.mem_cons_self, rfl⟩
    · exact ⟨List.mem_cons_of_mem _ (ih h).1, (ih h).2⟩

/-- The open attempt that a held batch names is the last of its delivery, with the number that the
batch has for it. -/
theorem batch_ordinal (hi : Invariant cfg s) {w : WorkerId} {l : List Claimed}
    (hl : s.batches w = some l) {x : Claimed} (hx : x ∈ l) {d : Delivery}
    (hd : d ∈ s.db.deliveries.rows) {k : ℕ} {a : Attempt}
    (ha : (s.db.attemptsOf d.id)[k]? = some a) (ho : a.isOpen) (hid : x.attemptId = a.id) :
    x.request.deliveryId = d.id ∧ x.request.attemptNo = k + 1 := by
  obtain ⟨b, hb, hbid, hbd, hbw, hcur⟩ := (hi.batches w l hl).recorded x hx
  obtain ⟨har, had⟩ := mem_attemptsOf.mp (List.mem_of_getElem? ha)
  obtain rfl : b = a := s.db.attempts.row_unique hb har (hbid.trans hid)
  have hsound := hi.files d hd
  have story : Story cfg d (s.db.attemptsOf d.id) := hsound.story
  obtain ⟨hstate, -, hlease, -, past, hpast, hlast⟩ :=
    story.open_attempt (List.mem_of_getElem? ha) ho
  have hheld : held w d := by simp [held, hstate, hlease, hbw]
  have hdid : x.request.deliveryId = d.id := hbd.symm.trans had
  obtain ⟨-, hno⟩ := hcur d hd hdid.symm hheld
  refine ⟨hdid, ?_⟩
  have hcount : (s.db.attemptsOf d.id).length = d.attemptCount := hsound.counted
  rw [hlast] at ha hcount
  rw [List.length_append, List.length_singleton] at hcount
  -- the attempts before the last are closed, so the open one is at the end
  rw [List.getElem?_append] at ha
  split at ha
  · have hclosed := (hpast b (List.mem_of_getElem? ha)).1
    rw [ho] at hclosed
    cases hclosed
  · obtain ⟨hlt, -⟩ := List.getElem?_eq_some_iff.mp ha
    rw [List.length_singleton] at hlt
    omega

/-- Every attempt that is over has been answered, and every batch holds its own requests. -/
structure Honest (cfg : Settings) (random : Random) (s : State) : Prop where
  pipeline : Invariant cfg s
  asked : ∀ w l, s.batches w = some l → Asked s.db l
  answered : ∀ d ∈ s.db.deliveries.rows, Answered random s.db.cast d (s.db.attemptsOf d.id)

theorem step_answered (hs : Honest cfg random s) (h : (delivering cfg random).step s e t) :
    ∀ d ∈ t.db.deliveries.rows, Answered random t.db.cast d (t.db.attemptsOf d.id) := by
  obtain ⟨hdelivers, hstep⟩ := h
  have hi := hs.pipeline
  have heff := step_effect hi hstep
  intro d' hd' k b hb hclosed
  rcases heff.delivery hd' with ⟨d, hd, hmove⟩ | ⟨hnone, -⟩
  · obtain ⟨hid, hsim, -, hcon, hcand⟩ := hmove.identity
    have hid : d'.id = d.id := hid
    have hcon : d'.consumerId = d.consumerId := hcon
    have hreq := requestFor_congr hid hsim hcand
    rw [hid] at hb
    have answers : ∀ {n}, Answers random s.db.cast d n b → Answers random t.db.cast d' n b := by
      rintro n ⟨c, hc, hcd, hout, hcode⟩
      refine ⟨c, heff.cast ▸ hc, hcd.trans hcon.symm, ?_, ?_⟩
      · rw [hreq]
        exact hout
      · rw [hreq]
        exact hcode
    rcases step_closes hi hstep hb hclosed with hold | hexp | ⟨w, results, now, rfl, c, hc, a, ha,
        ho, hca, rfl⟩
    · exact (hs.answered d hd k b hold hclosed).imp_right answers
    · exact Or.inl hexp
    · obtain ⟨l, hl, -⟩ := enabled_complete hstep.1
      have hres : results = l.map fun c => (attempt random c.request).result := by
        have h := hdelivers
        simp only [Delivers, hl, Option.getD_some] at h
        exact h
      rw [hl, hres] at hc
      obtain ⟨hcl, hresult⟩ := mem_completions hc
      obtain ⟨hdel, hno⟩ := batch_ordinal hi hl hcl hd ha ho hca
      obtain ⟨d₀, hd₀, c₀, hc₀, hcd, hasked⟩ := hs.asked w l hl c.claimed hcl
      have hdd : d₀ = d := by
        refine s.db.deliveries.row_unique hd₀ hd ?_
        have hid₀ : c.claimed.request.deliveryId = d₀.id := by rw [hasked]; rfl
        exact hid₀.symm.trans hdel
      subst hdd
      rw [hno] at hasked
      refine Or.inr (answers ⟨c₀, hc₀, hcd, ?_, ?_⟩)
      · simp only [closeRow, hresult, hasked]
      · simp only [closeRow, hresult, hasked]
  · have hnone : t.db.attemptsOf d'.id = [] := hnone
    rw [hnone] at hb
    cases hb

theorem step_honest (hs : Honest cfg random s) (h : (delivering cfg random).step s e t) :
    Honest cfg random t := by
  have hi := hs.pipeline
  refine ⟨step_invariant hi h.2, fun w l hl => ?_, step_answered hs h⟩
  rcases step_batch h.2 hl with hold | ⟨sim, now, locked, scan, -, rfl⟩
  · exact step_asked hi h.2 (hs.asked w l hold)
  · exact step_asked hi h.2 claim_asked

theorem reachable_honest (h : (delivering cfg random).Reachable s) : Honest cfg random s := by
  apply h.invariant (P := Honest cfg random)
  · rintro _ ⟨cast, sims, rfl⟩
    refine ⟨initial_invariant cast sims, ?_, ?_⟩
    · intro w l hl
      cases hl
    · intro d hd
      cases hd
  · exact fun _ _ _ _ hs he => step_honest hs he

theorem closed_of_spent {l : List Attempt} (h : Story cfg d l) {a : Attempt} (ha : a ∈ l)
    (hok : a.outcome = some .ok) : a.isOpen = false := by
  by_contra ho
  have hnone := (h.open_attempt ha (by simpa using ho)).2.1
  rw [hok] at hnone
  cases hnone

/-- A delivery to consumers that answer fails by nothing but leases that ran out. -/
theorem Honest.failed_lost (hs : Honest cfg random s) (hd : d ∈ s.db.deliveries.rows)
    (hfailed : d.state = .failed) (hhealthy : ∀ c ∈ s.db.cast.consumers, c.id = d.consumerId →
      c.simDown = false ∧ c.simFailureRate ≤ 0) {a : Attempt} (ha : a ∈ s.db.attemptsOf d.id) :
    a.outcome = some .leaseExpired := by
  have story : Story cfg d (s.db.attemptsOf d.id) := (hs.pipeline.files d hd).story
  obtain ⟨past, hpast, hl⟩ := story
  rw [hfailed] at hl
  have hl : s.db.attemptsOf d.id = past := hl
  obtain ⟨hclosed, hnot⟩ := hpast a (hl ▸ ha)
  obtain ⟨k, hk⟩ := List.mem_iff_getElem?.mp ha
  rcases hs.answered d hd k a hk hclosed with hexp | ⟨c, hc, hcd, hout, -⟩
  · exact hexp
  · obtain ⟨hdown, hrate⟩ := hhealthy c hc hcd
    rw [attempt_healthy hdown hrate] at hout
    exact absurd hout hnot

/-- An attempt that is over was lost with its lease, or its outcome is the one that its delivery,
its number and its consumer determine. So a delivery to a healthy consumer fails only by leases
that ran out, and one to a consumer that is down or always fails is never delivered. -/
theorem attempt_outcomes (cfg : Settings) (random : Random)
    (h : (delivering cfg random).Reachable s) (hd : d ∈ s.db.deliveries.rows) :
    (∀ k a, (s.db.attemptsOf d.id)[k]? = some a → a.isOpen = false →
      a.outcome = some .leaseExpired ∨ Answers random s.db.cast d (k + 1) a) ∧
    (d.state = .failed → (∀ c ∈ s.db.cast.consumers, c.id = d.consumerId →
      c.simDown = false ∧ c.simFailureRate ≤ 0) →
        ∀ a ∈ s.db.attemptsOf d.id, a.outcome = some .leaseExpired) ∧
    ((∀ c ∈ s.db.cast.consumers, c.id = d.consumerId → c.simDown = true ∨ 1 ≤ c.simFailureRate) →
      d.state ≠ .delivered) := by
  have hs := reachable_honest h
  have hans := hs.answered d hd
  have story : Story cfg d (s.db.attemptsOf d.id) := (hs.pipeline.files d hd).story
  refine ⟨hans, fun hfailed hhealthy a => hs.failed_lost hd hfailed hhealthy,
    fun hbroken hdel => ?_⟩
  obtain ⟨a, ha, hok⟩ := story.delivered hdel
  obtain ⟨k, hk⟩ := List.mem_iff_getElem?.mp ha
  rcases hans k a hk (closed_of_spent story ha hok) with hexp | ⟨c, hc, hcd, hout, -⟩
  · rw [hok] at hexp
    cases hexp
  · have hne : (attempt random (requestFor d c (k + 1))).result.outcome ≠ .ok :=
      attempt_never_ok (hbroken c hc hcd)
    rw [hok] at hout
    exact hne (Option.some.inj hout).symm

/-- Two runs over one cast agree on every attempt of a delivery that both finished and neither
lost, whoever made it in each, and whenever. -/
theorem attempts_agree (cfg : Settings) (random : Random) (h : (delivering cfg random).Reachable s)
    (ht : (delivering cfg random).Reachable t) (hcast : t.db.cast = s.db.cast)
    (hd : d ∈ s.db.deliveries.rows) (hd' : d' ∈ t.db.deliveries.rows) (hid : d'.id = d.id)
    (hsim : d'.simulationId = d.simulationId) (hcon : d'.consumerId = d.consumerId) {k : ℕ}
    {a b : Attempt} (ha : (s.db.attemptsOf d.id)[k]? = some a)
    (hb : (t.db.attemptsOf d'.id)[k]? = some b) (hac : a.isOpen = false) (hbc : b.isOpen = false)
    (hax : a.outcome ≠ some .leaseExpired) (hbx : b.outcome ≠ some .leaseExpired) :
    b.outcome = a.outcome ∧ b.statusCode = a.statusCode := by
  obtain ⟨c, hc, hcd, hout, hcode⟩ :=
    ((reachable_honest h).answered d hd k a ha hac).resolve_left hax
  obtain ⟨c', hc', hcd', hout', hcode'⟩ :=
    ((reachable_honest ht).answered d' hd' k b hb hbc).resolve_left hbx
  have hcc : c' = c := by
    rw [hcast] at hc'
    exact List.inj_on_of_nodup_map s.db.cast.consumer_key hc' hc ((hcd'.trans hcon).trans hcd.symm)
  subst hcc
  have hsame : attempt random (requestFor d' c' (k + 1)) =
      attempt random (requestFor d c' (k + 1)) := attempt_congr hsim hid rfl rfl
  rw [hout, hcode, hout', hcode', hsame]
  exact ⟨rfl, rfl⟩

end Runs

section Once

def answeredBy (w : WorkerId) : List Action :=
  .ingest 1 1 [⟨"patient.updated", "chart", none⟩] :: wholePass 2 ++
    [.claim w 1 3 (fun _ => false) .physical, .complete w [⟨.ok, some 200⟩] 4]

structure Record where
  delivery : ℕ × SimulationId × ConsumerId
  attempts : List (Bool × Option AttemptOutcome)
  deriving DecidableEq

def record (s : State) : List Record := s.db.deliveries.rows.map fun d =>
  ⟨(d.id, d.simulationId, d.consumerId),
    (s.db.attemptsOf d.id).map fun a => (a.isOpen, a.outcome)⟩

def runBy (w : WorkerId) : Option State :=
  runList (fun s e => Delivers half s e ∧ Enabled s e) (next shipped) (initial soleConsumer [])
    (answeredBy w)

theorem runBy_attempt {w : WorkerId} (h : (runBy w).map record =
    some [⟨(1, 1, 1), [(false, some .ok)]⟩]) : ∃ s d a, (delivering shipped half).Reachable s ∧
      s.db.cast = soleConsumer ∧ d ∈ s.db.deliveries.rows ∧ d.id = 1 ∧ d.simulationId = 1 ∧
      d.consumerId = 1 ∧ (s.db.attemptsOf d.id)[0]? = some a ∧ a.isOpen = false ∧
      a.outcome = some .ok := by
  obtain ⟨s, hs, hrows⟩ := Option.map_eq_some_iff.mp h
  have hx := runList_restricted Initial Enabled (next shipped) hs
  have hr : (delivering shipped half).Reachable s := ⟨_, ⟨soleConsumer, [], rfl⟩, hx⟩
  obtain ⟨d, hd, hdf⟩ := List.map_eq_singleton_iff.mp hrows
  obtain ⟨hkey, hatt⟩ := Record.mk.inj hdf
  obtain ⟨hid, hkey⟩ := Prod.mk.inj hkey
  obtain ⟨hsim, hcon⟩ := Prod.mk.inj hkey
  obtain ⟨a, ha, hout⟩ := List.map_eq_singleton_iff.mp hatt
  obtain ⟨hopen, hout⟩ := Prod.mk.inj hout
  refine ⟨s, d, a, hr, ?_, ?_, hid, hsim, hcon, by rw [ha]; rfl, hopen, hout⟩
  · exact (DeliveryLifecycle.execution_ledger (.initial ⟨soleConsumer, [], rfl⟩)
      (System.restrict_execution hx)).1
  · rw [hd]
    exact List.mem_singleton.mpr rfl

theorem attempt_outcomes_answered : ∃ s d a, (delivering shipped half).Reachable s ∧
    d ∈ s.db.deliveries.rows ∧ a.outcome = some .ok ∧
    (a.outcome = some .leaseExpired ∨ Answers half s.db.cast d 1 a) := by
  obtain ⟨s, d, a, hr, -, hd, -, -, -, ha, hopen, hout⟩ :=
    runBy_attempt (w := 7) (by decide +kernel)
  exact ⟨s, d, a, hr, hd, hout, (attempt_outcomes shipped half hr hd).1 0 a ha hopen⟩

/-- Two workers, in two runs. -/
theorem attempts_agree_two_workers : ∃ (s t : State) (d d' : Delivery) (a b : Attempt),
    (delivering shipped half).Reachable s ∧ (delivering shipped half).Reachable t ∧
    (s.db.attemptsOf d.id)[0]? = some a ∧
    (t.db.attemptsOf d'.id)[0]? = some b ∧ b.outcome = a.outcome ∧ b.statusCode = a.statusCode := by
  obtain ⟨s, d, a, hr, hcast, hd, hid, hsim, hcon, ha, hopen, hout⟩ :=
    runBy_attempt (w := 7) (by decide +kernel)
  obtain ⟨t, d', b, hr', hcast', hd', hid', hsim', hcon', hb, hopen', hout'⟩ :=
    runBy_attempt (w := 8) (by decide +kernel)
  refine ⟨s, t, d, d', a, b, hr, hr', ha, hb, attempts_agree shipped half hr hr'
    (hcast'.trans hcast.symm) hd hd' (hid'.trans hid.symm) (hsim'.trans hsim.symm)
    (hcon'.trans hcon.symm) ha hb hopen hopen' ?_ ?_⟩
  · rw [hout]
    simp
  · rw [hout']
    simp

end Once

end AttemptOutcomes
