import WebhookRecovery.ProcessRunner

/-! What the drain comes to: a worker that drains leaves no lease behind, and one that is killed
leaves those of one batch. -/
namespace FleetDrain

open KeyedTables InterleavedPrograms WorkerClaim DeliveryPipeline PipelineInvariant DeliveryFile
open RecoverySchema hiding Event
open ProcessRegistry ProcessRunner

section Batches

variable {cfg : Settings} {s t : State} {a : Action} {w : WorkerId}

def InHand (s : State) (w : WorkerId) : Prop :=
  ∀ d ∈ s.db.deliveries.rows, held w d = true →
    ∃ l, s.batches w = some l ∧ ∃ c ∈ l, c.request.deliveryId = d.id

def Fits (cfg : Settings) (s : State) (w : WorkerId) : Prop :=
  ∀ l, s.batches w = some l → l.length ≤ cfg.workerBatchSize

theorem claimed_length {scan : ScanOrder} {locked : ℕ → Bool} {sim : SimulationId} {now : ℚ}
    {limit : ℕ} {db : Db} :
    (claimBatch cfg scan locked sim w now limit db).2.length ≤ limit := by
  rw [claimBatch_claimed, List.length_map, List.length_zipIdx]
  exact (List.length_filter_le _ _).trans (List.length_take_le _ _)

theorem step_fits (h : Step cfg s a t) (hs : Fits cfg s w) : Fits cfg t w := by
  by_cases hk : actorOf a ≠ some w ∧ a ≠ .abandon w
  · rw [Fits, batch_kept h hk.1 hk.2]
    exact hs
  intro l hl
  obtain ⟨-, rfl⟩ := h
  cases a with
  | claim v sim now locked scan =>
    obtain rfl : v = w := by simpa [actorOf] using hk
    simp only [next, Function.update_self, batchOf] at hl
    split at hl
    · cases hl
    · obtain rfl := Option.some.inj hl
      exact claimed_length
  | complete v results now =>
    obtain rfl : v = w := by simpa [actorOf] using hk
    simp [next] at hl
  | abandon v =>
    obtain rfl : v = w := by simpa [actorOf] using hk
    simp [next] at hl
  | ingest | beginPass | statement | endPass => simp [actorOf] at hk

/-- A claim takes into hand what it leases. -/
theorem claim_in_hand {sim : SimulationId} {now : ℚ} {locked : ℕ → Bool} {scan : ScanOrder}
    (hen : Enabled s (.claim w sim now locked scan)) (hs : InHand s w) :
    InHand (next cfg s (.claim w sim now locked scan)) w := by
  intro d hd hheld
  obtain ⟨f, hf, hrow⟩ :=
    claimBatch_rows cfg scan locked sim w now cfg.workerBatchSize s.db
  have hd : d ∈ s.db.deliveries.rows.map f := hf ▸ hd
  obtain ⟨e, he, rfl⟩ := List.mem_map.mp hd
  have hnone : s.batches w = none := by simpa [Enabled] using hen
  have hfree : held w e = true → False := by
    intro hh
    obtain ⟨l, hl, -⟩ := hs e he hh
    rw [hnone] at hl
    cases hl
  rcases hrow e he with ⟨hm, hfe⟩ | ⟨-, hfe | ⟨-, reason, hfe⟩⟩
  · obtain ⟨r, hr, rfl⟩ := List.mem_map.mp hm
    have hin : r ∈ ((liveRows scan locked sim now cfg.workerBatchSize s.db).zipIdx
        s.db.attempts.next).map Prod.fst := by rwa [List.zipIdx_map_fst]
    obtain ⟨x, hx, hxr⟩ := List.mem_map.mp hin
    have hc : claimedRow sim x.2 x.1 ∈
        (claimBatch cfg scan locked sim w now cfg.workerBatchSize s.db).2 := by
      rw [claimBatch_claimed]
      exact List.mem_map_of_mem hx
    refine ⟨_, ?_, claimedRow sim x.2 x.1, hc, ?_⟩
    · simp only [next, Function.update_self, batchOf]
      exact if_neg fun hemp => by
        rw [List.isEmpty_iff.mp hemp] at hc
        cases hc
    · rw [hfe, ← hxr]
      rfl
  · rw [hfe] at hheld
    exact (hfree hheld).elim
  · rw [hfe] at hheld
    simp [held, expireRow] at hheld

theorem complete_in_hand (hi : Invariant cfg s) {results : List AttemptResult} {now : ℚ}
    (hen : Enabled s (.complete w results now)) (hs : InHand s w) :
    InHand (next cfg s (.complete w results now)) w := by
  intro d hd hheld
  obtain ⟨l, hl, hc⟩ := enabled_complete hen
  obtain ⟨f, g, hf, -, -, hrow⟩ := complete_rows now hi.files (hi.batches w l hl) hc
  have hd : d ∈ s.db.deliveries.rows.map f := hf ▸ hd
  obtain ⟨e, he, rfl⟩ := List.mem_map.mp hd
  rcases hrow e he with ⟨-, c, -, -, hfe, -⟩ | ⟨hnot, hfe, -⟩
  · rw [hfe] at hheld
    have hstate := (settleRow_settled now (settlement cfg now c) e).2
    simp [held, hstate] at hheld
  · rw [hfe] at hheld
    obtain ⟨l', hl', c, hm, hid⟩ := hs e he hheld
    obtain rfl := Option.some.inj (hl.symm.trans hl')
    rw [← hc] at hm
    obtain ⟨x, hx, rfl⟩ := List.mem_map.mp hm
    exact absurd ⟨hheld, x, hx, hid⟩ hnot

theorem step_in_hand (hi : Invariant cfg s) (h : Step cfg s a t) (hb : a ≠ .abandon w)
    (hs : InHand s w) : InHand t w := by
  by_cases hk : actorOf a = some w
  · obtain ⟨hen, rfl⟩ := h
    cases a with
    | claim v sim now locked scan =>
      obtain rfl : v = w := by simpa [actorOf] using hk
      exact claim_in_hand hen hs
    | complete v results now =>
      obtain rfl : v = w := by simpa [actorOf] using hk
      exact complete_in_hand hi hen hs
    | ingest | abandon | beginPass | statement | endPass => simp [actorOf] at hk
  · intro d hd hheld
    rw [batch_kept h hk hb]
    rcases (step_effect hi h).delivery hd with ⟨d₀, hd₀, hmove⟩ | ⟨-, hpend, -⟩
    · obtain ⟨rfl, -⟩ := File.mk.inj (hmove.held_stays hk hheld)
      exact hs _ hd₀ hheld
    · have hpend : d.state = .pending := hpend
      simp [held, hpend] at hheld

theorem leaseCount_le (hs : InHand s w) {l : List Claimed} (hl : s.batches w = some l) :
    leaseCount s.db w ≤ l.length := by
  have hn : ((s.db.deliveries.rows.filter (held w)).map Delivery.id).Nodup :=
    (List.filter_sublist.map _).nodup s.db.deliveries.nodup_keys
  have hsub : (s.db.deliveries.rows.filter (held w)).map Delivery.id ⊆
      l.map fun c => c.request.deliveryId := by
    intro i hi
    obtain ⟨d, hd, rfl⟩ := List.mem_map.mp hi
    obtain ⟨hd, hheld⟩ := List.mem_filter.mp hd
    obtain ⟨l', hl', c, hc, hid⟩ := hs d hd hheld
    obtain rfl := Option.some.inj (hl.symm.trans hl')
    exact List.mem_map.mpr ⟨c, hc, hid⟩
  have hle := (List.subperm_of_subset hn hsub).length_le
  rw [List.length_map, List.length_map] at hle
  rwa [leaseCount, List.countP_eq_length_filter]

theorem leaseCount_none (hs : InHand s w) (hl : s.batches w = none) : leaseCount s.db w = 0 := by
  refine List.countP_eq_zero.mpr fun d hd hheld => ?_
  obtain ⟨l, hl', -⟩ := hs d hd hheld
  rw [hl] at hl'
  cases hl'

end Batches

section Drain

variable {cfg : Settings} {pcfg : ProcessSettings} {s t : Fleet} {e : Event} {p : WorkerId}

/-- A process that has a batch in hand is in the middle of an iteration, or died there. -/
def Busy (s : Fleet) (p : WorkerId) : Prop :=
  (s.pipe.batches p).isSome → (s.runners p).phase = .iterating ∨ (s.runners p).phase = .dead

theorem turn_iterating (pcfg : ProcessSettings) {r : Runner} {τ : Turn} (h : r.Ready τ = true)
    (hp : r.phase = .iterating) :
    (r.turn pcfg τ).phase = .iterating ∨ (r.turn pcfg τ).phase = .dead ∨
      ∃ mono, τ = .failed mono ∨ τ = .finished mono := by
  cases τ with
  | failed mono => exact Or.inr (Or.inr ⟨mono, Or.inl rfl⟩)
  | finished mono => exact Or.inr (Or.inr ⟨mono, Or.inr rfl⟩)
  | claimed b mono =>
    rcases claimed_cases pcfg r b mono with ⟨-, -, he⟩ | ⟨-, he | ⟨-, he⟩⟩
    · exact Or.inr (Or.inl (by rw [he]; rfl))
    · exact Or.inl (by rw [he]; exact hp)
    · exact Or.inl (by rw [he]; exact hp)
  | beat | landed | missed | signalled | marked | completed => exact Or.inl hp
  | start | registered | unregistered | began | drained | deregistered =>
    simp [Runner.Ready, hp, Phase.isWaiting] at h

theorem step_batch (h : (fleet cfg pcfg).step s e t) (p : WorkerId) :
    (∃ sim now locked scan mono, e = .claim p sim now locked scan mono) ∨
    t.pipe.batches p = none ∨
    t.pipe.batches p = s.pipe.batches p ∧ ∀ mono, e ≠ .fail p mono := by
  rcases step_pipe h with ⟨ha, hpipe⟩ | ⟨a, ha, hstep⟩
  · refine Or.inr (Or.inr ⟨by rw [hpipe], ?_⟩)
    rintro mono rfl
    cases ha
  by_cases hown : actorOf a ≠ some p ∧ a ≠ .abandon p
  · refine Or.inr (Or.inr ⟨batch_kept hstep hown.1 hown.2, ?_⟩)
    rintro mono rfl
    exact hown.2 (Option.some.inj ha).symm
  obtain ⟨⟨-, -, hguard⟩, -⟩ := h
  obtain ⟨-, hpipe⟩ := hstep
  cases e with
  | claim q sim now locked scan mono =>
    obtain rfl := Option.some.inj ha
    obtain rfl : q = p := by simpa [actorOf] using hown
    exact Or.inl ⟨sim, now, locked, scan, mono, rfl⟩
  | complete q results now =>
    obtain rfl := Option.some.inj ha
    obtain rfl : q = p := by simpa [actorOf] using hown
    exact Or.inr (Or.inl (by rw [hpipe]; exact Function.update_self ..))
  | fail q mono =>
    obtain rfl := Option.some.inj ha
    obtain rfl : q = p := by simpa [actorOf] using hown
    exact Or.inr (Or.inl (by rw [hpipe]; exact Function.update_self ..))
  | other b =>
    obtain rfl := Option.some.inj ha
    have hguard : isWorkers b = false := hguard
    cases b <;> simp [actorOf, isWorkers] at hown hguard
  | start | register | beat | land | miss | kill | signal | begin | markLeader | finish | drain
  | deregister => cases ha

/-- Which event is the end of an iteration, and what it needs. -/
theorem ending_event (h : EnabledFleet cfg pcfg s e) {mono : ℚ} :
    (turnOf cfg pcfg s e = some (p, .failed mono) → e = .fail p mono) ∧
    (turnOf cfg pcfg s e = some (p, .finished mono) → s.pipe.batches p = none) := by
  obtain ⟨-, -, hguard⟩ := h
  constructor
  · intro hx
    cases e <;> simp [turnOf] at hx ⊢
    · split at hx <;> simp at hx
    · exact hx
  · intro hx
    cases e <;> simp [turnOf] at hx
    · split at hx <;> simp at hx
    · obtain ⟨rfl, -⟩ := hx
      exact hguard

theorem step_busy (hr : (fleet cfg pcfg).Reachable s) (h : (fleet cfg pcfg).step s e t)
    (hs : Busy s p) : Busy t p := by
  intro hb
  rcases step_batch h p with ⟨sim, now, locked, scan, mono, rfl⟩ | hnone | ⟨hsame, hfail⟩
  · rcases step_runner h p with ⟨hx, -⟩ | ⟨τ, hx, hready, hturn⟩
    · exact absurd rfl (hx _)
    · obtain ⟨-, rfl⟩ := Prod.mk.inj (Option.some.inj hx)
      have hp : (s.runners p).phase = .iterating := by
        simp only [Runner.Ready, Bool.and_eq_true, beq_iff_eq] at hready
        exact hready.1
      rw [hturn]
      rcases turn_iterating pcfg hready hp with h | h | ⟨m, h | h⟩
      · exact Or.inl h
      · exact Or.inr h
      · cases h
      · cases h
  · rw [hnone] at hb
    cases hb
  · rw [hsame] at hb
    rcases step_runner h p with ⟨-, hrun⟩ | ⟨τ, hx, hready, hturn⟩
    · rw [hrun]
      exact hs hb
    · rcases hs hb with hp | hp
      · rw [hturn]
        rcases turn_iterating pcfg hready hp with hi | hd | ⟨m, rfl | rfl⟩
        · exact Or.inl hi
        · exact Or.inr hd
        · exact absurd ((ending_event h.1).1 hx) (hfail m)
        · rw [(ending_event h.1).2 hx] at hb
          cases hb
      · rcases ready_live (reachable_sound hr p) hready with hl | ⟨ha, -⟩
        · simp [hp, Phase.live] at hl
        · simp [hp] at ha

structure Tidy (cfg : Settings) (s : Fleet) (p : WorkerId) : Prop where
  busy : Busy s p
  inHand : InHand s.pipe p
  fits : Fits cfg s.pipe p

def Unfailed (p : WorkerId) (s : Fleet) : Event → Prop
  | .fail q _ => q = p → s.pipe.batches p = none
  | _ => True

instance (p : WorkerId) (s : Fleet) : DecidablePred (Unfailed p s)
  | .fail q _ => decidable_of_iff (q ≠ p ∨ (s.pipe.batches p).isNone = true) (by
    rw [Option.isNone_iff_eq_none]
    exact imp_iff_not_or.symm)
  | .start .. | .register .. | .beat _ | .land .. | .miss _ | .kill .. | .signal _ | .begin ..
  | .markLeader .. | .claim .. | .complete .. | .finish .. | .drain _ | .deregister .. | .other _ =>
    inferInstanceAs (Decidable True)

theorem abandoned_nothing (hc : Unfailed p s e) (h : (fleet cfg pcfg).step s e t)
    (ha : actionOf e = some (.abandon p)) : s.pipe.batches p = none := by
  obtain ⟨⟨-, -, hguard⟩, -⟩ := h
  cases e with
  | fail q mono =>
    obtain rfl : q = p := by simpa [actionOf] using ha
    exact hc rfl
  | other b =>
    obtain rfl := Option.some.inj ha
    cases hguard
  | claim | complete => cases Option.some.inj ha
  | start | register | beat | land | miss | kill | signal | begin | markLeader | finish | drain
  | deregister => cases ha

theorem reachable_tidy (h : ((fleet cfg pcfg).restrict (Unfailed p)).Reachable s) :
    Tidy cfg s p := by
  apply h.invariant (P := fun s => Tidy cfg s p)
  · rintro _ ⟨cast, simulations, rfl⟩
    refine ⟨?_, ?_, ?_⟩
    · intro hb
      cases hb
    · intro d hd
      cases hd
    · intro l hl
      cases hl
  · intro s e t hr hs he
    have hr := System.restrict_reachable hr
    obtain ⟨hc, he⟩ := he
    refine ⟨step_busy hr he hs.busy, ?_, ?_⟩
    · rcases step_pipe he with ⟨-, hpipe⟩ | ⟨a, ha, hstep⟩
      · rw [hpipe]
        exact hs.inHand
      · by_cases hb : a = .abandon p
        · subst hb
          have hnone := abandoned_nothing hc he ha
          obtain ⟨-, hpipe⟩ := hstep
          intro d hd hheld
          rw [hpipe] at hd
          obtain ⟨l, hl, -⟩ := hs.inHand d hd hheld
          rw [hnone] at hl
          cases hl
        · exact step_in_hand (reachable_invariant (reachable_pipe hr)) hstep hb hs.inHand
    · rcases step_pipe he with ⟨-, hpipe⟩ | ⟨a, ha, hstep⟩
      · rw [hpipe]
        exact hs.fits
      · exact step_fits hstep hs.fits

/-- In a run in which no iteration of a process fails with a batch in hand: it never holds more
leases than one batch has, each of them is of the batch in its hands, and it holds none unless it
is in the middle of an iteration, or was killed there. So a process that drained strands none. -/
theorem drain_strands_nothing (cfg : Settings) (pcfg : ProcessSettings)
    (h : ((fleet cfg pcfg).restrict (Unfailed p)).Reachable s) :
    leaseCount s.pipe.db p ≤ cfg.workerBatchSize ∧
    (∀ d ∈ s.pipe.db.deliveries.rows, held p d = true →
      ∃ l, s.pipe.batches p = some l ∧ ∃ c ∈ l, c.request.deliveryId = d.id) ∧
    ((s.runners p).phase ≠ .iterating → (s.runners p).phase ≠ .dead →
      leaseCount s.pipe.db p = 0) := by
  obtain ⟨hbusy, hin, hfits⟩ := reachable_tidy h
  refine ⟨?_, hin, fun hi hd => leaseCount_none hin ?_⟩
  · cases hl : s.pipe.batches p with
    | none => rw [leaseCount_none hin hl]; exact Nat.zero_le _
    | some l => exact (leaseCount_le hin hl).trans (hfits l hl)
  · by_contra hne
    rcases hbusy (Option.isSome_iff_ne_none.mpr hne) with hp | hp
    · exact hi hp
    · exact hd hp

end Drain

section Once

theorem drain_strands_nothing_stopped : ∃ s : Fleet, (s.runners 7).phase = .stopped ∧
    leaseCount s.pipe.db 7 = 0 := by
  have hrun : (runList (fun s e => Unfailed 7 s e ∧ EnabledFleet shipped pshipped s e)
      (nextFleet shipped pshipped) (initialFleet soleConsumer []) drained).map
      (fun s => (s.runners 7).phase) = some .stopped := by decide +kernel
  obtain ⟨s, hs, hp⟩ := Option.map_eq_some_iff.mp hrun
  have hr : ((fleet shipped pshipped).restrict (Unfailed 7)).Reachable s :=
    ⟨_, ⟨soleConsumer, [], rfl⟩, runList_restricted _ _ _ hs⟩
  obtain ⟨-, -, hfree⟩ := drain_strands_nothing shipped pshipped hr
  exact ⟨s, hp, hfree (by rw [hp]; simp) (by rw [hp]; simp)⟩

end Once

end FleetDrain
