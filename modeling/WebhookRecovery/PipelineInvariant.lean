import WebhookRecovery.PassGuarantee
import WebhookRecovery.DeliveryFile

/-! The invariant of the pipeline. Every step of every process is a move of each delivery's
file, and ties between the processes and the tables survive: a batch in a worker's hands
names the attempts it may close, a pass under way keeps its guarantee. -/
namespace PipelineInvariant

open KeyedTables RecoverySchema InterleavedPrograms WorkerClaim LeaseReaper EventIngest
open DeliveryPolicy DeliveryAdmission ConductorPass DeliveryPipeline QueueUsage PassGuarantee
open DeliveryFile

/-- An attempt keeps who, what and when, and is written only while it is open. -/
structure Kept (a b : Attempt) : Prop where
  id : b.id = a.id
  delivery : b.deliveryId = a.deliveryId
  worker : b.workerId = a.workerId
  simulation : b.simulationId = a.simulationId
  consumer : b.consumerId = a.consumerId
  started : b.startedAt = a.startedAt
  closed : a.isOpen = false → b = a

theorem Kept.refl (a : Attempt) : Kept a a := ⟨rfl, rfl, rfl, rfl, rfl, rfl, fun _ => rfl⟩

/-- What a step of one actor does to the tables; attempts that it starts, it starts in the
simulation and at the instant given. -/
structure Effect (cfg : Settings) (actor : Option WorkerId) (start : Option (SimulationId × ℚ))
    (s t : Db) : Prop where
  cast : t.cast = s.cast
  deliveries : ∃ (f : Delivery → Delivery) (new : List Delivery) (posted : List Event),
    t.deliveries.rows = s.deliveries.rows.map f ++ new ∧
    (∀ d ∈ s.deliveries.rows, Move cfg actor (file s d) (file t (f d))) ∧
    (∀ d ∈ new, Fresh (file t d)) ∧
    t.events.rows = s.events.rows ++ posted ∧ new.map Delivery.pair = pairsOf s.cast posted
  attempts : ∃ (g : Attempt → Attempt) (more : List Attempt),
    t.attempts.rows = s.attempts.rows.map g ++ more ∧
    (∀ a, Kept a (g a)) ∧ ∀ a ∈ more, start = some (a.simulationId, a.startedAt) ∧
      ∃ d ∈ s.deliveries.rows, d.id = a.deliveryId

/-- The claim a worker is working on: unless a lease was lost, its attempts are the open ones. -/
structure Batch (db : Db) (w : WorkerId) (l : List Claimed) : Prop where
  deliveries_nodup : (l.map fun c => c.request.deliveryId).Nodup
  attempts_nodup : (l.map Claimed.attemptId).Nodup
  recorded : ∀ c ∈ l, ∃ a ∈ db.attempts.rows, a.id = c.attemptId ∧
    a.deliveryId = c.request.deliveryId ∧ a.workerId = w ∧
    ∀ d ∈ db.deliveries.rows, d.id = c.request.deliveryId → held w d →
      a.isOpen ∧ c.request.attemptNo = d.attemptCount

def UnderWay (R : Db → Db → Prop) (G : PassInput → Db → Db → Prop) (s : State) : Prop :=
  ∀ i p, s.conductor = some (i, p) → p.Guarantees R (G i) (fun _ _ => True) s.db

def Guaranteed (cfg : Settings) (F : Db → Prop) (s : State) : Prop :=
  ∀ i p, s.conductor = some (i, p) →
    p.Guarantees (Rely F) (ConductorWrite cfg F i) (fun _ _ => True) s.db

structure Invariant (cfg : Settings) (s : State) : Prop where
  files : ∀ d ∈ s.db.deliveries.rows, Sound cfg (file s.db d)
  owned : ∀ a ∈ s.db.attempts.rows, ∃ d ∈ s.db.deliveries.rows, d.id = a.deliveryId
  batches : ∀ w l, s.batches w = some l → Batch s.db w l
  pass : Guaranteed cfg (fun _ => True) s

section Effects

variable {cfg : Settings} {s t : Db}

theorem attemptsOf_append {g : Attempt → Attempt} {more : List Attempt}
    (h : t.attempts.rows = s.attempts.rows.map g ++ more)
    (hg : ∀ a, (g a).deliveryId = a.deliveryId) (i : ℕ) :
    t.attemptsOf i = (s.attemptsOf i).map g ++ more.filter fun a => a.deliveryId == i := by
  rw [Db.attemptsOf, h, List.filter_append, List.filter_map, Db.attemptsOf]
  congr 3
  funext a
  simp only [Function.comp_apply, hg]

theorem attemptsOf_map {g : Attempt → Attempt} (h : t.attempts.rows = s.attempts.rows.map g)
    (hg : ∀ a, (g a).deliveryId = a.deliveryId) (i : ℕ) :
    t.attemptsOf i = (s.attemptsOf i).map g := by
  have happ : t.attempts.rows = s.attempts.rows.map g ++ [] := by rw [List.append_nil, h]
  rw [attemptsOf_append happ hg, List.filter_nil, List.append_nil]

theorem map_spent {g : Attempt → Attempt} (hg : ∀ a, Kept a (g a)) {past : List Attempt}
    (hp : ∀ a ∈ past, Spent a) : past.map g = past :=
  (List.map_congr_left fun a ha => (hg a).closed (hp a ha).1).trans (List.map_id _)

section Maps

variable {actor : Option WorkerId} {start : Option (SimulationId × ℚ)}

theorem effect_of_maps {f : Delivery → Delivery} {g : Attempt → Attempt} (hc : t.cast = s.cast)
    (he : t.events = s.events) (hf : t.deliveries.rows = s.deliveries.rows.map f)
    (hg : t.attempts.rows = s.attempts.rows.map g) (hkept : ∀ a, Kept a (g a))
    (hm : ∀ d ∈ s.deliveries.rows,
      Move cfg actor (file s d) ⟨f d, (s.attemptsOf d.id).map g⟩) : Effect cfg actor start s t where
  cast := hc
  deliveries := by
    refine ⟨f, [], [], by simpa using hf, fun d hd => ?_, by simp, by simp [he], rfl⟩
    have h := hm d hd
    have hid : (f d).id = d.id := h.identity.1
    have hof := attemptsOf_map hg (fun a => (hkept a).delivery) d.id
    have hfile : file t (f d) = ⟨f d, (s.attemptsOf d.id).map g⟩ := by rw [file, hid, hof]
    rwa [hfile]
  attempts := ⟨g, [], by simpa using hg, hkept, by simp⟩

theorem effect_of_rows {f : Delivery → Delivery} (hc : t.cast = s.cast) (he : t.events = s.events)
    (ha : t.attempts = s.attempts) (hf : t.deliveries.rows = s.deliveries.rows.map f)
    (hm : ∀ d ∈ s.deliveries.rows, ∀ l, Move cfg actor ⟨d, l⟩ ⟨f d, l⟩) :
    Effect cfg actor start s t := by
  refine effect_of_maps (g := id) hc he hf (by simp [ha]) Kept.refl fun d hd => ?_
  rw [List.map_id]
  exact hm d hd _

end Maps

theorem Effect.refl (actor : Option WorkerId) (start : Option (SimulationId × ℚ)) :
    Effect cfg actor start s s :=
  effect_of_rows rfl rfl rfl (List.map_id _).symm fun _ _ _ => .stay _

theorem ingest_effect (owned : ∀ a ∈ s.attempts.rows, ∃ d ∈ s.deliveries.rows, d.id = a.deliveryId)
    (simulationId : SimulationId) (now : ℚ) (specs : List EventSpec) :
    Effect cfg none none s (ingestEvents simulationId now specs s) where
  cast := rfl
  deliveries := by
    refine ⟨id, _, _, by rw [List.map_id]; rfl, fun d _ => .stay _, fun d hd => ?_,
      ingestEvents_events simulationId now specs s, fanOut_pairs simulationId now specs s⟩
    obtain ⟨x, hx, rfl⟩ := List.mem_map.mp hd
    refine ⟨?_, rfl, rfl, rfl, rfl⟩
    -- no attempt can name a delivery whose id was still to be handed out
    refine List.filter_eq_nil_iff.mpr fun a ha hid => ?_
    obtain ⟨d, hd, hda⟩ := owned a ha
    have hlt : d.id < s.deliveries.next := s.deliveries.bounded d hd
    have hle := List.le_snd_of_mem_zipIdx hx
    have heq : a.deliveryId = x.2 := by simpa [deliveryRow] using hid
    omega
  attempts := ⟨id, [], by rw [List.map_id, List.append_nil]; rfl,
    Kept.refl, by simp⟩

section Claim

variable {scan : ScanOrder} {locked : ℕ → Bool} {simulationId : SimulationId}
variable {w : WorkerId} {now : ℚ} {limit : ℕ}

theorem new_attempts_of_live {r : ClaimRow}
    (hr : r ∈ liveRows scan locked simulationId now limit s) :
    ∃ n, (((liveRows scan locked simulationId now limit s).zipIdx s.attempts.next).map fun x =>
        attemptRow simulationId w now x.2 x.1).filter (fun a => a.deliveryId == r.delivery.id) =
      [attemptRow simulationId w now n r] := by
  obtain ⟨n, hn⟩ := filter_zipIdx_of_mem
    (liveRows_nodup_ids scan locked simulationId now limit s) hr s.attempts.next
  refine ⟨n, ?_⟩
  rw [List.filter_map]
  exact congrArg (List.map _) hn

theorem new_attempts_of_other {d : Delivery} (hd : d ∈ s.deliveries.rows)
    (hm : d ∉ (liveRows scan locked simulationId now limit s).map ClaimRow.delivery) :
    (((liveRows scan locked simulationId now limit s).zipIdx s.attempts.next).map fun x =>
      attemptRow simulationId w now x.2 x.1).filter (fun a => a.deliveryId == d.id) = [] := by
  refine List.filter_eq_nil_iff.mpr fun a ha hid => hm ?_
  obtain ⟨x, hx, rfl⟩ := List.mem_map.mp ha
  have hr := List.fst_mem_of_mem_zipIdx hx
  exact List.mem_map.mpr
    ⟨x.1, hr, s.deliveries.row_unique (mem_liveRows hr).1 hd (beq_iff_eq.mp hid)⟩

theorem claim_effect : Effect cfg (some w) (some (simulationId, now)) s
    (claimBatch cfg scan locked simulationId w now limit s).1 := by
  obtain ⟨f, hf, hrow⟩ := claimBatch_rows cfg scan locked simulationId w now limit s
  have hatt := claimBatch_attempts cfg scan locked simulationId w now limit s
  refine ⟨rfl, ⟨f, [], [], by rw [List.append_nil, hf], fun d hd => ?_, by simp,
    (List.append_nil _).symm, rfl⟩,
    ⟨id, _, by rw [List.map_id]; exact hatt, Kept.refl, fun a ha => ?_⟩⟩
  · have hof : ∀ i, _ := attemptsOf_append (g := id) (by rw [List.map_id]; exact hatt)
      fun _ => rfl
    simp only [List.map_id] at hof
    rcases hrow d hd with ⟨hm, he⟩ | ⟨hm, he | ⟨hs, reason, he⟩⟩
    · obtain ⟨r, hr, rfl⟩ := List.mem_map.mp hm
      obtain ⟨n, hn⟩ := new_attempts_of_live (w := w) hr
      rw [he]
      simp only [file, leaseRow, hof, hn]
      have hready := (mem_liveRows hr).2.2
      exact .claim w now (attemptRow simulationId w now n r) rfl hready rfl rfl rfl rfl
    · rw [he]
      simp only [file, hof, new_attempts_of_other hd hm, List.append_nil]
      exact .stay _
    · rw [he]
      simp only [file, expireRow, hof, new_attempts_of_other hd hm, List.append_nil]
      exact .expire now reason hs
  · obtain ⟨x, hx, rfl⟩ := List.mem_map.mp ha
    exact ⟨rfl, x.1.delivery, (mem_liveRows (List.fst_mem_of_mem_zipIdx hx)).1, rfl⟩

theorem claim_batch : Batch (claimBatch cfg scan locked simulationId w now limit s).1 w
    (claimBatch cfg scan locked simulationId w now limit s).2 := by
  set live := liveRows scan locked simulationId now limit s with hlive
  have hfst : (live.zipIdx s.attempts.next).map Prod.fst = live := List.zipIdx_map_fst _ _
  rw [claimBatch_claimed, ← hlive]
  constructor
  · rw [List.map_map]
    have h := liveRows_nodup_ids scan locked simulationId now limit s
    rw [← hlive, ← hfst, List.map_map] at h
    exact h
  · rw [List.map_map]
    have h : ((live.zipIdx s.attempts.next).map Prod.snd).Nodup := by
      rw [List.Nodup, List.pairwise_map]
      exact (zipIdx_ordered live _).imp Nat.ne_of_lt
    exact h
  · intro c hc
    obtain ⟨x, hx, rfl⟩ := List.mem_map.mp hc
    have hr : x.1 ∈ live := List.fst_mem_of_mem_zipIdx hx
    refine ⟨attemptRow simulationId w now x.2 x.1, ?_, rfl, rfl, rfl,
      fun d hd hid hheld => ⟨rfl, ?_⟩⟩
    · rw [claimBatch_attempts]
      exact List.mem_append_right _ (List.mem_map_of_mem hx)
    · obtain ⟨f, hf, hrow⟩ := claimBatch_rows cfg scan locked simulationId w now limit s
      rw [hf] at hd
      obtain ⟨e, he, rfl⟩ := List.mem_map.mp hd
      rcases hrow e he with ⟨_, h⟩ | ⟨hm, h | ⟨_, reason, h⟩⟩
      · rw [h] at hid ⊢
        have her : x.1.delivery = e := s.deliveries.row_unique (mem_liveRows hr).1 he hid.symm
        rw [← her]
        rfl
      · rw [h] at hid
        exact absurd (List.mem_map.mpr
          ⟨x.1, hr, s.deliveries.row_unique (mem_liveRows hr).1 he hid.symm⟩) hm
      · rw [h] at hheld
        simp [held, expireRow] at hheld

end Claim

theorem closeAttempts_kept {completions : List Completion} {now : ℚ} {g : Attempt → Attempt}
    (hg : ∀ a, ((∀ c ∈ completions, c.claimed.attemptId ≠ a.id) → g a = a) ∧
      ∀ c ∈ completions, c.claimed.attemptId = a.id →
        g a = if a.isOpen then closeRow now c.result a else a) (a : Attempt) : Kept a (g a) := by
  by_cases hm : ∃ c ∈ completions, c.claimed.attemptId = a.id
  · obtain ⟨c, hc, hk⟩ := hm
    rw [(hg a).2 c hc hk]
    cases ho : a.isOpen
    · exact .refl a
    · exact ⟨rfl, rfl, rfl, rfl, rfl, rfl, by simp [ho]⟩
  · push Not at hm
    rw [(hg a).1 hm]
    exact .refl a

section Complete

variable {w : WorkerId} {l : List Claimed} {completions : List Completion}

def Recorded (s : Db) (w : WorkerId) (completions : List Completion) : Prop :=
  ∀ c ∈ completions, ∃ a ∈ s.attempts.rows, a.id = c.claimed.attemptId ∧
    a.deliveryId = c.claimed.request.deliveryId ∧ a.workerId = w ∧
    ∀ d ∈ s.deliveries.rows, d.id = c.claimed.request.deliveryId → held w d →
      a.isOpen ∧ c.claimed.request.attemptNo = d.attemptCount

/-- An attempt that a completion changes is the open one of a lease that is still held. -/
theorem held_of_changed {g : Attempt → Attempt} {d : Delivery} {a : Attempt}
    (hsound : Sound cfg (file s d)) (hrec : Recorded s w completions) (hkept : Kept a (g a))
    (hnamed : g a ≠ a → ∃ c ∈ completions, c.claimed.attemptId = a.id)
    (ha : a ∈ s.attemptsOf d.id) (hne : g a ≠ a) :
    held w d ∧ ∃ c ∈ completions, c.claimed.request.deliveryId = d.id := by
  obtain ⟨har, had⟩ := mem_attemptsOf.mp ha
  have hopen : a.isOpen = true := by
    by_contra ho
    exact hne (hkept.closed (by simpa using ho))
  obtain ⟨c, hm, hk⟩ := hnamed hne
  obtain ⟨b, hb, hbk, hbd, hbw, _⟩ := hrec c hm
  have hba : b = a := s.attempts.row_unique hb har (hbk.trans hk)
  subst hba
  obtain ⟨hstate, _, hlease, _⟩ := hsound.story.open_attempt ha hopen
  refine ⟨?_, c, hm, hbd.symm.trans had⟩
  have hlease' : d.leasedBy = some w := hbw ▸ hlease
  have hstate' : d.state = .inFlight := hstate
  simp [held, hlease', hstate']

/-- A completion settles what its worker still holds and closes the attempts of that. It does
nothing else: the attempts of a lost lease are closed already. -/
theorem complete_rows (now : ℚ) (files : ∀ d ∈ s.deliveries.rows, Sound cfg (file s d))
    (hb : Batch s w l) (hc : completions.map Completion.claimed = l) :
    ∃ (f : Delivery → Delivery) (g : Attempt → Attempt),
    (completeBatch cfg w completions now s).deliveries.rows = s.deliveries.rows.map f ∧
    (completeBatch cfg w completions now s).attempts.rows = s.attempts.rows.map g ∧
    (∀ a, Kept a (g a)) ∧
    ∀ d ∈ s.deliveries.rows,
      (held w d ∧ ∃ c ∈ completions, c.claimed.request.attemptNo = d.attemptCount ∧
        f d = settleRow now (settlement cfg now c) d ∧ ∃ past a, s.attemptsOf d.id = past ++ [a] ∧
          (s.attemptsOf d.id).map g = past ++ [closeRow now c.result a]) ∨
      (¬ (held w d ∧ ∃ c ∈ completions, c.claimed.request.deliveryId = d.id) ∧
        f d = d ∧ (s.attemptsOf d.id).map g = s.attemptsOf d.id) := by
  have hdn : (completions.map fun c => c.claimed.request.deliveryId).Nodup := by
    have h := hb.deliveries_nodup
    rwa [← hc, List.map_map] at h
  have han : (completions.map fun c => c.claimed.attemptId).Nodup := by
    have h := hb.attempts_nodup
    rwa [← hc, List.map_map] at h
  obtain ⟨f, hf, hrow⟩ := completeBatch_rows cfg w now s hdn
  obtain ⟨g, hg, hatt⟩ := closeAttempts_rows now s.attempts han
  have hrec : Recorded s w completions := fun c hm =>
    hb.recorded c.claimed (hc ▸ List.mem_map_of_mem hm)
  have hkept := closeAttempts_kept hatt
  refine ⟨f, g, hf, hg, hkept, fun d hd => ?_⟩
  have hsound := files d hd
  by_cases hcase : held w d ∧ ∃ c ∈ completions, c.claimed.request.deliveryId = d.id
  · obtain ⟨hheld, c, hm, hid⟩ := hcase
    obtain ⟨a, ha, hak, had, _, hcur⟩ := hrec c hm
    obtain ⟨hopen, hno⟩ := hcur d hd hid.symm hheld
    obtain ⟨_, _, _, _, past, hpast, hl⟩ := hsound.story.open_attempt
      (mem_attemptsOf.mpr ⟨ha, had.trans hid⟩) hopen
    have hl' : s.attemptsOf d.id = past ++ [a] := hl
    have hgp := map_spent hkept hpast
    have hfd : f d = settleRow now (settlement cfg now c) d := by
      rw [(hrow d).2 c hm hid, if_pos hheld]
    have hga : g a = closeRow now c.result a := by rw [(hatt a).2 c hm hak.symm, if_pos hopen]
    refine Or.inl ⟨hheld, c, hm, hno, hfd, past, a, hl', ?_⟩
    rw [hl', List.map_append, hgp, List.map_singleton, hga]
  · refine Or.inr ⟨hcase, ?_, (List.map_congr_left fun a ha => ?_).trans (List.map_id _)⟩
    · by_cases hm : ∃ c ∈ completions, c.claimed.request.deliveryId = d.id
      · obtain ⟨c, hm, hid⟩ := hm
        rw [(hrow d).2 c hm hid, if_neg fun hh => hcase ⟨hh, c, hm, hid⟩]
      · push Not at hm
        exact (hrow d).1 hm
    · by_contra hne
      refine hcase (held_of_changed hsound hrec (hkept a) (fun hne => ?_) ha hne)
      by_contra hm
      push Not at hm
      exact hne ((hatt a).1 hm)

theorem complete_effect (now : ℚ) (files : ∀ d ∈ s.deliveries.rows, Sound cfg (file s d))
    (hb : Batch s w l) (hc : completions.map Completion.claimed = l) :
    Effect cfg (some w) none s (completeBatch cfg w completions now s) := by
  obtain ⟨f, g, hf, hg, hkept, hrow⟩ := complete_rows now files hb hc
  refine effect_of_maps rfl rfl hf hg hkept fun d hd => ?_
  rcases hrow d hd with ⟨hheld, c, _, hno, hfd, past, a, hl, hmap⟩ | ⟨_, hfd, hmap⟩
  · have hstate : d.state = .inFlight := by
      simp only [held, Bool.and_eq_true, beq_iff_eq] at hheld
      exact hheld.1
    rw [hfd, hmap, file, hl]
    exact .settle now c hstate hno
  · rw [hfd, hmap]
    exact .stay _

/-- A delivery that the worker does not hold is left alone, with its attempts. -/
theorem complete_lost (now : ℚ) (files : ∀ d ∈ s.deliveries.rows, Sound cfg (file s d))
    (hb : Batch s w l) (hc : completions.map Completion.claimed = l) {d : Delivery}
    (hd : d ∈ s.deliveries.rows) (hheld : ¬ held w d) :
    d ∈ (completeBatch cfg w completions now s).deliveries.rows ∧
      (completeBatch cfg w completions now s).attemptsOf d.id = s.attemptsOf d.id := by
  obtain ⟨f, g, hf, hg, hkept, hrow⟩ := complete_rows now files hb hc
  rcases hrow d hd with ⟨h, _⟩ | ⟨_, hfd, hmap⟩
  · exact absurd h hheld
  · refine ⟨?_, by rw [attemptsOf_map hg fun a => (hkept a).delivery, hmap]⟩
    rw [hf]
    exact List.mem_map.mpr ⟨d, hd, hfd⟩

end Complete

theorem reclaim_effect (files : ∀ d ∈ s.deliveries.rows, Sound cfg (file s d))
    (simulationId : SimulationId) (now : ℚ) (locked : ℕ → Bool) :
    Effect cfg none none s (reclaimExpiredLeases cfg simulationId now locked s) := by
  obtain ⟨f, hf, hrow⟩ := reclaim_rows cfg simulationId now locked s
  have hatt := reclaim_attempts cfg simulationId now locked s
  set rows := expiredLeases simulationId now locked s
  set g : Attempt → Attempt := fun a =>
    if a.deliveryId ∈ rows.map Delivery.id ∧ a.isOpen then expireAttempt now a else a with hgdef
  have hkept : ∀ a, Kept a (g a) := by
    intro a
    by_cases h : a.deliveryId ∈ rows.map Delivery.id ∧ a.isOpen
    · have hga : g a = expireAttempt now a := if_pos h
      rw [hga]
      exact ⟨rfl, rfl, rfl, rfl, rfl, rfl, fun ho => by simp [h.2] at ho⟩
    · have hga : g a = a := if_neg h
      rw [hga]
      exact .refl a
  refine effect_of_maps rfl rfl hf hatt hkept fun d hd => ?_
  rcases hrow d hd with ⟨hm, hfd⟩ | ⟨hm, hfd⟩
  · have hstate := (mem_expiredLeases hm).2.2.1
    obtain ⟨past, hpast, hl⟩ := (files d hd).story
    have hstate' : (file s d).delivery.state = .inFlight := hstate
    rw [hstate'] at hl
    obtain ⟨a, hl, hopen, _⟩ := hl
    have hl' : s.attemptsOf d.id = past ++ [a] := hl
    have had : a.deliveryId = d.id := (mem_attemptsOf.mp (by rw [hl']; simp)).2
    have hga : g a = expireAttempt now a := by
      simp only [hgdef]
      rw [if_pos ⟨had ▸ List.mem_map_of_mem hm, hopen⟩]
    rw [hfd, file, hl', List.map_append, map_spent hkept hpast, List.map_singleton, hga]
    exact .reclaim now hstate
  · have hsame : (s.attemptsOf d.id).map g = s.attemptsOf d.id := by
      refine (List.map_congr_left fun a ha => ?_).trans (List.map_id _)
      simp only [hgdef]
      refine if_neg fun h => hm ?_
      obtain ⟨e, he, hed⟩ := List.mem_map.mp h.1
      have hde : e = d := s.deliveries.row_unique (mem_expiredLeases he).1 hd
        (hed.trans (mem_attemptsOf.mp ha).2)
      rwa [← hde]
    rw [hfd, hsame]
    exact .stay _

theorem conductor_effect {F : Db → Prop} {i : PassInput}
    (files : ∀ d ∈ s.deliveries.rows, Sound cfg (file s d)) (h : ConductorWrite cfg F i s t) :
    Effect cfg none none s t := by
  cases h with
  | frame hc he hd ha _ =>
    exact effect_of_rows hc he ha (by rw [hd]; exact (List.map_id _).symm) fun _ _ _ => .stay _
  | reclaim => exact reclaim_effect files _ _ _
  | drop admitted drops hdrops =>
    obtain ⟨f, hf, hrow⟩ := applyDrops_rows drops i.now s
    refine effect_of_rows rfl rfl rfl hf fun d hd l => ?_
    rcases hrow d with ⟨_, he⟩ | ⟨x, hx, hid, he⟩
    · rw [he]
      exact .stay _
    · obtain ⟨hs, e, he', hp, hex, _⟩ := hdrops x hx
      have hed : e = d := s.deliveries.row_unique he' hd (hex.trans hid)
      subst hed
      rw [he]
      exact .drop i.now x hp hs
  | ready chosen hadm =>
    refine effect_of_rows rfl rfl rfl (markReady_rows _ _ _) fun d hd l => ?_
    split
    · rename_i hm
      obtain ⟨x, hx, hid⟩ := List.mem_map.mp hm
      obtain ⟨e, he, hp, _, rfl⟩ := hadm.queued x hx
      have hed : e = d := s.deliveries.row_unique he hd hid
      subst hed
      exact .admitted i.now hp
    · exact .stay _

end Effects

section Steps

variable {cfg : Settings} {s t : State} {e : Action}

def actorOf : Action → Option WorkerId
  | .claim w _ _ _ _ => some w
  | .complete w _ _ => some w
  | _ => none

def startOf : Action → Option (SimulationId × ℚ)
  | .claim _ simulationId now _ _ => some (simulationId, now)
  | _ => none

theorem completions_claimed {l : List Claimed} {results : List AttemptResult}
    (h : l.length = results.length) :
    (completions (some l) results).map Completion.claimed = l := by
  rw [completions, Option.getD_some, List.map_zipWith]
  induction l generalizing results with
  | nil => rfl
  | cons c l ih =>
    cases results with
    | nil => simp at h
    | cons r results => simpa using ih (by simpa using h)

theorem enabled_complete {w : WorkerId} {results : List AttemptResult} {now : ℚ}
    (h : Enabled s (.complete w results now)) :
    ∃ l, s.batches w = some l ∧ (completions (s.batches w) results).map Completion.claimed = l := by
  cases hl : s.batches w with
  | none => simp [Enabled, hl] at h
  | some l =>
    refine ⟨l, rfl, completions_claimed ?_⟩
    simpa [Enabled, hl] using h

theorem step_evolves (hi : Invariant cfg s) (h : Step cfg s e t) (he : e ≠ .statement) :
    Evolves s.db t.db := by
  obtain ⟨hen, rfl⟩ := h
  cases e with
  | ingest sim now specs => exact ingest_evolves sim now specs s.db
  | claim w sim now locked scan => exact claim_evolves _ _ _ _ _ _ _ _
  | complete w results now =>
    obtain ⟨l, hl, hc⟩ := enabled_complete hen
    have hb := hi.batches w l hl
    refine complete_evolves ?_ ?_
    · have h := hb.deliveries_nodup
      rwa [← hc, List.map_map] at h
    · have h := hb.attempts_nodup
      rwa [← hc, List.map_map] at h
  | abandon w => exact .refl _
  | beginPass i => exact .refl _
  | statement => exact absurd rfl he
  | endPass => exact .refl _

theorem statement_write {F : Db → Prop} {i : PassInput} {write : Db → Db}
    {k : Db → Program Db Unit} (hg : Guaranteed cfg F s) (hF : F s.db)
    (hc : s.conductor = some (i, .stmt write k)) :
    ConductorWrite cfg F i s.db (write s.db) ∧
      (k s.db).Guarantees (Rely F) (ConductorWrite cfg F i) (fun _ _ => True) (write s.db) :=
  hg i _ hc s.db ⟨.refl _, hF⟩

theorem next_statement {i : PassInput} {write : Db → Db} {k : Db → Program Db Unit}
    (hc : s.conductor = some (i, .stmt write k)) : next cfg s .statement =
      { s with db := write s.db, conductor := some (i, k s.db) } := by
  simp only [next, hc]

/-- A statement either writes, or there is none left to execute. -/
theorem statement_cases (cfg : Settings) (s : State) :
    (∃ i write k, s.conductor = some (i, .stmt write k)) ∨ next cfg s .statement = s := by
  cases hc : s.conductor with
  | none => exact Or.inr (by simp only [next, hc])
  | some x =>
    obtain ⟨i, p⟩ := x
    cases p with
    | ret a => exact Or.inr (by simp only [next, hc])
    | stmt write k => exact Or.inl ⟨i, write, k, rfl⟩

theorem batch_kept {w : WorkerId} (h : Step cfg s e t) (ha : actorOf e ≠ some w)
    (hb : e ≠ .abandon w) : t.batches w = s.batches w := by
  obtain ⟨-, rfl⟩ := h
  cases e with
  | claim v sim now locked scan =>
    exact Function.update_of_ne (fun hv => ha (congrArg some hv.symm)) _ _
  | complete v results now =>
    exact Function.update_of_ne (fun hv => ha (congrArg some hv.symm)) _ _
  | abandon v => exact Function.update_of_ne (fun hv => hb (congrArg _ hv.symm)) _ _
  | statement =>
    rcases statement_cases cfg s with ⟨i, write, k, hc⟩ | hn
    · rw [next_statement hc]
    · rw [hn]
  | ingest | beginPass | endPass => rfl

theorem step_conductor (h : Step cfg s e t) {i : PassInput} {p : Program Db Unit}
    (hp : t.conductor = some (i, p)) :
    (∃ q, s.conductor = some (i, q)) ∨ e = .beginPass i := by
  obtain ⟨-, rfl⟩ := h
  cases e with
  | statement =>
    rcases statement_cases cfg s with ⟨j, write, k, hc⟩ | hn
    · rw [next_statement hc] at hp
      obtain ⟨rfl, -⟩ := Prod.mk.inj (Option.some.inj hp)
      exact Or.inl ⟨_, hc⟩
    · rw [hn] at hp
      exact Or.inl ⟨p, hp⟩
  | beginPass j =>
    obtain ⟨rfl, -⟩ := Prod.mk.inj (Option.some.inj hp)
    exact Or.inr rfl
  | endPass => cases hp
  | ingest | claim | complete | abandon => exact Or.inl ⟨p, hp⟩

/-- A guarantee that every pass begins with is kept by the pass under way, statement by
statement, if the rest of the pipeline stays meanwhile within what it relies on. -/
theorem step_under_way {R : Db → Db → Prop} {G : PassInput → Db → Db → Prop}
    (trans : ∀ u v w, R u v → R v w → R u w)
    (begins : ∀ i, e = .beginPass i → (pass cfg i).Guarantees R (G i) (fun _ _ => True) s.db)
    (h : Step cfg s e t) (rely : s.conductor.isSome → e ≠ .statement → R s.db t.db)
    (here : R s.db s.db) (hg : UnderWay R G s) : UnderWay R G t := by
  have kept : e ≠ .statement → t.conductor = s.conductor → UnderWay R G t := by
    intro he hc i p hp
    have hs : s.conductor = some (i, p) := hc.symm.trans hp
    exact Program.Guarantees.rely trans (fun _ _ _ _ _ => trivial) (hg i p hs)
      (rely (by rw [hs]; rfl) he)
  obtain ⟨hen, rfl⟩ := h
  cases e with
  | beginPass j =>
    intro i p hp
    obtain ⟨rfl, rfl⟩ := Prod.mk.inj (Option.some.inj hp)
    exact begins _ rfl
  | statement =>
    rcases statement_cases cfg s with ⟨i, write, k, hc⟩ | hn
    · intro j p hp
      rw [next_statement hc] at hp ⊢
      obtain ⟨rfl, rfl⟩ := Prod.mk.inj (Option.some.inj hp)
      exact (hg i _ hc s.db here).2
    · rw [hn]
      exact hg
  | endPass =>
    intro i p hp
    cases hp
  | ingest => exact kept (by simp) rfl
  | claim => exact kept (by simp) rfl
  | complete => exact kept (by simp) rfl
  | abandon => exact kept (by simp) rfl

theorem step_guaranteed {F : Db → Prop} (hi : Invariant cfg s) (h : Step cfg s e t)
    (hg : Guaranteed cfg F s) (hs : F s.db) (ht : F t.db) : Guaranteed cfg F t :=
  step_under_way (R := Rely F) (fun _ _ _ h k => h.trans k)
    (fun i _ => pass_guarantees cfg F i _) h (fun _ he => ⟨step_evolves hi h he, ht⟩)
    ⟨.refl _, hs⟩ hg

theorem step_effect (hi : Invariant cfg s) (h : Step cfg s e t) :
    Effect cfg (actorOf e) (startOf e) s.db t.db := by
  obtain ⟨hen, rfl⟩ := h
  cases e with
  | ingest sim now specs => exact ingest_effect hi.owned sim now specs
  | claim w sim now locked scan => exact claim_effect
  | complete w results now =>
    obtain ⟨l, hl, hc⟩ := enabled_complete hen
    exact complete_effect now hi.files (hi.batches w l hl) hc
  | statement =>
    rcases statement_cases cfg s with ⟨i, write, k, hc⟩ | hn
    · rw [next_statement hc]
      exact conductor_effect hi.files (statement_write hi.pass trivial hc).1
    · rw [hn]
      exact .refl _ _
  | abandon w => exact .refl _ _
  | beginPass i => exact .refl _ _
  | endPass => exact .refl _ _

theorem Effect.delivery {actor : Option WorkerId} {start : Option (SimulationId × ℚ)} {u v : Db}
    (h : Effect cfg actor start u v)
    {d' : Delivery} (hd : d' ∈ v.deliveries.rows) :
    (∃ d ∈ u.deliveries.rows, Move cfg actor (file u d) (file v d')) ∨ Fresh (file v d') := by
  obtain ⟨f, new, _, hrows, hmove, hnew, _⟩ := h.deliveries
  rw [hrows] at hd
  rcases List.mem_append.mp hd with hd | hd
  · obtain ⟨d, hm, rfl⟩ := List.mem_map.mp hd
    exact Or.inl ⟨d, hm, hmove d hm⟩
  · exact Or.inr (hnew d' hd)

theorem Effect.moved {actor : Option WorkerId} {start : Option (SimulationId × ℚ)} {u v : Db}
    (h : Effect cfg actor start u v)
    {d : Delivery} (hd : d ∈ u.deliveries.rows) :
    ∃ d' ∈ v.deliveries.rows, d'.id = d.id ∧ Move cfg actor (file u d) (file v d') := by
  obtain ⟨f, new, _, hrows, hmove, _⟩ := h.deliveries
  refine ⟨f d, ?_, (hmove d hd).identity.1, hmove d hd⟩
  rw [hrows]
  exact List.mem_append_left _ (List.mem_map_of_mem hd)

/-- What others do leaves a worker's batch as good as it was. -/
theorem Effect.batch {actor : Option WorkerId} {start : Option (SimulationId × ℚ)} {u v : Db}
    {w : WorkerId} {l : List Claimed} (h : Effect cfg actor start u v) (hw : actor ≠ some w)
    (hb : Batch u w l) : Batch v w l := by
  refine ⟨hb.deliveries_nodup, hb.attempts_nodup, fun c hc => ?_⟩
  obtain ⟨a, ha, hid, hdel, hown, hcur⟩ := hb.recorded c hc
  obtain ⟨g, more, hg, hkept, _⟩ := h.attempts
  have hmem : g a ∈ v.attempts.rows := by
    rw [hg]
    exact List.mem_append_left _ (List.mem_map_of_mem ha)
  have hk := hkept a
  refine ⟨g a, hmem, hk.id.trans hid, hk.delivery.trans hdel, hk.worker.trans hown,
    fun d' hd' hdid hheld => ?_⟩
  rcases h.delivery hd' with ⟨d, hd, hmove⟩ | ⟨_, hpend, _⟩
  · have hsame := hmove.held_stays hw hheld
    obtain ⟨rfl, hatt⟩ := File.mk.inj hsame
    obtain ⟨hopen, hno⟩ := hcur d' hd hdid hheld
    have hav : a ∈ v.attempts.rows := by
      have hin : a ∈ u.attemptsOf d'.id := mem_attemptsOf.mpr ⟨ha, hdel.trans hdid.symm⟩
      rw [← hatt] at hin
      exact (mem_attemptsOf.mp hin).1
    have hga : g a = a := v.attempts.row_unique hmem hav hk.id
    rw [hga]
    exact ⟨hopen, hno⟩
  · have hpend' : d'.state = .pending := hpend
    simp [held, hpend'] at hheld

theorem step_batches (hi : Invariant cfg s) (h : Step cfg s e t) (w : WorkerId) (l : List Claimed)
    (hl : t.batches w = some l) : Batch t.db w l := by
  have heff := step_effect hi h
  have kept : actorOf e ≠ some w → t.batches w = s.batches w → Batch t.db w l := by
    intro hw hb
    exact heff.batch hw (hi.batches w l (hb ▸ hl))
  obtain ⟨hen, rfl⟩ := h
  cases e with
  | claim v sim now locked scan =>
    by_cases hv : v = w
    · subst hv
      simp only [next, Function.update_self, batchOf] at hl
      split at hl
      · cases hl
      · obtain rfl := Option.some.inj hl
        exact claim_batch
    · exact kept (by simpa [actorOf] using hv) (Function.update_of_ne (Ne.symm hv) _ _)
  | complete v results now =>
    by_cases hv : v = w
    · subst hv
      simp [next] at hl
    · exact kept (by simpa [actorOf] using hv) (Function.update_of_ne (Ne.symm hv) _ _)
  | abandon v =>
    by_cases hv : v = w
    · subst hv
      simp [next] at hl
    · exact kept (by simp [actorOf]) (Function.update_of_ne (Ne.symm hv) _ _)
  | statement =>
    refine kept (by simp [actorOf]) ?_
    rcases statement_cases cfg s with ⟨i, write, k, hc⟩ | hn
    · rw [next_statement hc]
    · rw [hn]
  | ingest => exact kept (by simp [actorOf]) rfl
  | beginPass => exact kept (by simp [actorOf]) rfl
  | endPass => exact kept (by simp [actorOf]) rfl

theorem step_invariant (hi : Invariant cfg s) (h : Step cfg s e t) : Invariant cfg t where
  files := by
    intro d' hd'
    rcases (step_effect hi h).delivery hd' with ⟨d, hd, hmove⟩ | hfresh
    · exact hmove.sound (hi.files d hd)
    · exact hfresh.sound
  owned := by
    have heff := step_effect hi h
    obtain ⟨g, more, hg, hkept, hmore⟩ := heff.attempts
    intro a ha
    have hold : ∃ d ∈ s.db.deliveries.rows, d.id = a.deliveryId := by
      rw [hg] at ha
      rcases List.mem_append.mp ha with ha | ha
      · obtain ⟨b, hb, rfl⟩ := List.mem_map.mp ha
        rw [(hkept b).delivery]
        exact hi.owned b hb
      · exact (hmore a ha).2
    obtain ⟨d, hd, hid⟩ := hold
    obtain ⟨d', hd', hid', _⟩ := heff.moved hd
    exact ⟨d', hd', hid'.trans hid⟩
  batches := step_batches hi h
  pass := step_guaranteed hi h hi.pass trivial trivial

theorem initial_invariant (cast : Cast) (simulations : List Simulation) :
    Invariant cfg (initial cast simulations) where
  files := by intro d hd; cases hd
  owned := by intro a ha; cases ha
  batches := by intro w l hl; cases hl
  pass := by intro i p hp; cases hp

theorem reachable_invariant (h : (system cfg).Reachable s) : Invariant cfg s := by
  apply h.invariant (P := Invariant cfg)
  · rintro _ ⟨cast, sims, rfl⟩
    exact initial_invariant cast sims
  · exact fun _ _ _ _ hi hs => step_invariant hi hs

end Steps

/-- Where a row comes from that a step leaves: it was there, or the action wrote it, with values
of its own. -/
inductive Written (cfg : Settings) (s : State) : Action → Delivery → Prop where
  | kept {e : Action} {d : Delivery} (h : d ∈ s.db.deliveries.rows) : Written cfg s e d
  | ingested {i : SimulationId} {now : ℚ} {specs : List EventSpec} (x : EventSpec) (hx : x ∈ specs)
      (id eventId : ℕ) (c : ConsumerId) :
      Written cfg s (.ingest i now specs) (deliveryRow id (eventRow i now eventId x, c))
  | leased {w : WorkerId} {i : SimulationId} {now : ℚ} {locked : ℕ → Bool} {scan : ScanOrder}
      (d : Delivery)
      (hd : d ∈ (liveRows scan locked i now cfg.workerBatchSize s.db).map ClaimRow.delivery) :
      Written cfg s (.claim w i now locked scan) (leaseRow cfg w now d)
  | expired {w : WorkerId} {i : SimulationId} {now : ℚ} {locked : ℕ → Bool} {scan : ScanOrder}
      (d : Delivery) (reason : String) :
      Written cfg s (.claim w i now locked scan) (expireRow now reason d)
  | settled {w : WorkerId} {results : List AttemptResult} {now : ℚ} {l : List Claimed}
      {d : Delivery} {c : Completion} (hl : s.batches w = some l) (hc : c.claimed ∈ l)
      (hd : d ∈ s.db.deliveries.rows) (hid : c.claimed.request.deliveryId = d.id) :
      Written cfg s (.complete w results now) (settleRow now (settlement cfg now c) d)
  | conducted {i : PassInput} {p : Program Db Unit} {d d' : Delivery}
      (hc : s.conductor = some (i, p)) (hd : d ∈ s.db.deliveries.rows)
      (h : RowWrite cfg (fun _ => True) i s.db d d') : Written cfg s .statement d'

section Rows

variable {cfg : Settings} {s t : State} {e : Action} {d : Delivery}

theorem step_events (hi : Invariant cfg s) (h : Step cfg s e t)
    (hq : ∀ i now specs, e ≠ .ingest i now specs) : t.db.events = s.db.events := by
  obtain ⟨hen, rfl⟩ := h
  cases e with
  | ingest i now specs => exact absurd rfl (hq i now specs)
  | statement =>
    rcases statement_cases cfg s with ⟨i, write, k, hc⟩ | hn
    · rw [next_statement hc]
      have hw := (statement_write hi.pass trivial hc).1
      generalize write s.db = u at hw
      cases hw with
      | frame _ hsame => exact hsame
      | reclaim => rfl
      | drop => rfl
      | ready => rfl
    · rw [hn]
  | claim | complete | abandon | beginPass | endPass => rfl

theorem step_deliveries (hi : Invariant cfg s) (h : Step cfg s e t)
    (hq : ∀ i now specs, e ≠ .ingest i now specs) : ∃ f : Delivery → Delivery,
    t.db.deliveries.rows = s.db.deliveries.rows.map f ∧
    ∀ d ∈ s.db.deliveries.rows, Move cfg (actorOf e) (file s.db d) (file t.db (f d)) := by
  obtain ⟨f, new, posted, hrows, hmove, -, hposted, hpairs⟩ := (step_effect hi h).deliveries
  have hnone : posted = [] := by
    rw [step_events hi h hq] at hposted
    exact List.self_eq_append_right.mp hposted
  rw [hnone] at hpairs
  have hnew : new = [] := List.map_eq_nil_iff.mp hpairs
  rw [hnew, List.append_nil] at hrows
  exact ⟨f, hrows, hmove⟩

theorem step_moved (hi : Invariant cfg s) (h : Step cfg s e t)
    (hq : ∀ i now specs, e ≠ .ingest i now specs) (hd : d ∈ t.db.deliveries.rows) :
    ∃ d₀ ∈ s.db.deliveries.rows, Move cfg (actorOf e) (file s.db d₀) (file t.db d) := by
  obtain ⟨f, hrows, hmove⟩ := step_deliveries hi h hq
  rw [hrows] at hd
  obtain ⟨d₀, hd₀, rfl⟩ := List.mem_map.mp hd
  exact ⟨d₀, hd₀, hmove d₀ hd₀⟩

theorem complete_written (hi : Invariant cfg s) {w : WorkerId} {results : List AttemptResult}
    {now : ℚ} (he : Enabled s (.complete w results now))
    (hd : d ∈ (next cfg s (.complete w results now)).db.deliveries.rows) :
    Written cfg s (.complete w results now) d := by
  obtain ⟨l, hl, hc⟩ := enabled_complete he
  have hn := (hi.batches w l hl).deliveries_nodup
  rw [← hc, List.map_map] at hn
  obtain ⟨f, hf, hrow⟩ := completeBatch_rows cfg w now s.db hn
  have hd : d ∈ (completeBatch cfg w (completions (s.batches w) results) now
    s.db).deliveries.rows := hd
  rw [hf] at hd
  obtain ⟨c, hm, rfl⟩ := List.mem_map.mp hd
  by_cases hnamed : ∃ x ∈ completions (s.batches w) results, x.claimed.request.deliveryId = c.id
  · obtain ⟨x, hx, hid⟩ := hnamed
    have hin : x.claimed ∈ l := hc ▸ List.mem_map_of_mem hx
    rw [(hrow c).2 x hx hid]
    split
    · exact .settled hl hin hm hid
    · exact .kept hm
  · push Not at hnamed
    rw [(hrow c).1 hnamed]
    exact .kept hm

/-- One case for each action. -/
theorem step_written (hi : Invariant cfg s) (h : Step cfg s e t)
    (hd : d ∈ t.db.deliveries.rows) : Written cfg s e d := by
  obtain ⟨hen, rfl⟩ := h
  cases e with
  | ingest i now specs =>
    have hd : d ∈ (ingestEvents i now specs s.db).deliveries.rows := hd
    rw [ingestEvents_deliveries] at hd
    rcases List.mem_append.mp hd with hd | hd
    · exact .kept hd
    · obtain ⟨y, hy, rfl⟩ := List.mem_map.mp hd
      obtain ⟨ev, hev, hpair⟩ := List.mem_flatMap.mp (List.fst_mem_of_mem_zipIdx hy)
      obtain ⟨c, -, hc⟩ := List.mem_map.mp hpair
      obtain ⟨x, hx, rfl⟩ := List.mem_map.mp hev
      rw [← hc]
      exact .ingested x.1 (List.fst_mem_of_mem_zipIdx hx) _ _ _
  | claim w i now locked scan =>
    obtain ⟨f, hf, hrow⟩ := claimBatch_rows cfg scan locked i w now cfg.workerBatchSize s.db
    have hd : d ∈ (claimBatch cfg scan locked i w now cfg.workerBatchSize
      s.db).1.deliveries.rows := hd
    rw [hf] at hd
    obtain ⟨c, hm, rfl⟩ := List.mem_map.mp hd
    rcases hrow c hm with ⟨hlive, he⟩ | ⟨-, he | ⟨-, reason, he⟩⟩
    · exact he ▸ .leased c hlive
    · exact he.symm ▸ .kept hm
    · exact he ▸ .expired c reason
  | complete w results now => exact complete_written hi hen hd
  | statement =>
    rcases statement_cases cfg s with ⟨i, write, k, hc⟩ | hn
    · rw [next_statement hc] at hd
      obtain ⟨f, hf, hrow⟩ := conductor_rows (statement_write hi.pass trivial hc).1
      have hd : d ∈ (write s.db).deliveries.rows := hd
      rw [hf] at hd
      obtain ⟨c, hm, rfl⟩ := List.mem_map.mp hd
      exact .conducted hc hm (hrow c hm)
    · rw [hn] at hd
      exact .kept hd
  | abandon | beginPass | endPass => exact .kept hd

end Rows

end PipelineInvariant
