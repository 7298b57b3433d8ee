import WebhookRecovery.FleetDrain

/-! The kill of a process, from the flag on its row to its death, and the list of those that live.
Nobody dies who was not asked to, and who was asked does no more work. -/
namespace KillProtocol

open KeyedTables InterleavedPrograms WorkerClaim DeliveryPipeline PipelineInvariant DeliveryFile
open RecoverySchema hiding Event
open ProcessRegistry ProcessRunner FleetDrain

section Kill

variable {cfg : Settings} {pcfg : ProcessSettings} {s t u v w : Fleet} {e : Event} {p : WorkerId}
variable {r : Runner} {τ : Turn}

/-- A turn that is not the end of a process: what it may change of what a kill depends on. -/
structure Survives (r r' : Runner) (τ : Turn) : Prop where
  boot : r'.boot = r.boot
  crash : r'.crash = r.crash ∨ τ = .landed true
  raised : r.crash = true → r'.crash = true
  phase : r'.phase = .dead → r.phase = .dead
  seen : r.crash = true → r.crashSeenAt.isSome → r'.crashSeenAt = r.crashSeenAt

theorem Survives.of_same {r' : Runner} (hb : r'.boot = r.boot) (hc : r'.crash = r.crash)
    (hs : r'.crashSeenAt = r.crashSeenAt) (hp : r'.phase = .dead → r.phase = .dead) :
    Survives r r' τ := ⟨hb, Or.inl hc, fun h => hc.trans h, hp, fun _ _ => hs⟩

/-- Only a request that has been seen is died of. -/
theorem turn_outcome (pcfg : ProcessSettings) (h : r.Ready τ = true) (hp : r.phase ≠ .absent) :
    r.crash = true ∧ r.turn pcfg τ = r.die ∨ Survives r (r.turn pcfg τ) τ := by
  cases τ with
  | start boot mono => exact absurd (by simpa [Runner.Ready] using h) hp
  | unregistered mono =>
    obtain ⟨hc, -, hs, hph⟩ := retry_cases r mono
    refine Or.inr (.of_same ?_ hc hs fun hx => ?_)
    · simp only [Runner.turn, Runner.retryRegister]
      split
      · split <;> rfl
      · rfl
    · have hx : (r.retryRegister mono).phase = .dead := hx
      rw [hx] at hph
      have hdead : Phase.dead = r.phase := by simpa using hph
      exact hdead.symm
  | landed crash =>
    refine Or.inr ⟨rfl, ?_, fun hc => by simp [Runner.turn, hc], id, fun _ _ => rfl⟩
    cases crash with
    | false => exact Or.inl (Bool.or_false _)
    | true => exact Or.inr rfl
  | began mono =>
    rcases began_cases pcfg r mono with ⟨-, hc, he⟩ | ⟨-, he⟩
    · exact Or.inl ⟨hc, he⟩
    · rw [he]
      exact Or.inr (.of_same rfl rfl rfl (by simp))
  | claimed b mono =>
    rcases claimed_cases pcfg r b mono with
      ⟨-, hc, he⟩ | ⟨-, he | ⟨hf, he⟩⟩
    · exact Or.inl ⟨hc, he⟩
    · rw [he]
      exact Or.inr (.of_same rfl rfl rfl id)
    · rw [he]
      exact Or.inr ⟨rfl, Or.inl rfl, id, id, fun hc => by rw [hc] at hf; cases hf⟩
  | finished mono =>
    have hi : r.phase = .iterating := by simpa [Runner.Ready] using h
    rcases finished_cases pcfg hi mono with ⟨w, seen, he, -, hs⟩ | ⟨-, hc, he⟩
    · rw [he]
      exact Or.inr ⟨rfl, Or.inl rfl, id, by simp, fun hc hsome => (hs hc hsome).symm⟩
    · exact Or.inl ⟨hc, he⟩
  | registered | failed | drained | deregistered =>
    exact Or.inr (.of_same rfl rfl rfl fun hd => by cases hd)
  | beat | missed | signalled | marked | completed => exact Or.inr (.of_same rfl rfl rfl id)

theorem asked_started (hs : r.Sound) (hc : r.crash = true) : r.phase ≠ .absent := by
  intro ha
  rw [hs.unstarted ha] at hc
  cases hc

theorem not_ready_dead (hs : r.Sound) (hd : r.phase = .dead) : r.Ready τ = false := by
  by_contra h
  rcases ready_live hs (by simpa using h) with hl | ⟨ha, -⟩
  · simp [hd, Phase.live] at hl
  · simp [hd] at ha

structure Asked (boot : Boot) (seen : Option ℚ) (r : Runner) : Prop where
  crash : r.crash = true
  boot : r.boot = boot
  seen : seen.isSome → r.phase = .dead ∨ r.crashSeenAt = seen

theorem step_asked (hr : (fleet cfg pcfg).Reachable s) (h : (fleet cfg pcfg).step s e t) {b : Boot}
    {seen : Option ℚ} (hs : Asked b seen (s.runners p)) : Asked b seen (t.runners p) := by
  have hsound := reachable_sound hr p
  rcases step_runner h p with ⟨-, hsame⟩ | ⟨τ, -, hready, hturn⟩
  · rwa [hsame]
  rw [hturn]
  rcases turn_outcome pcfg hready (asked_started hsound hs.crash) with ⟨-, hd⟩ | hsv
  · rw [hd]
    exact ⟨hs.crash, hs.boot, fun _ => Or.inl rfl⟩
  · refine ⟨hsv.raised hs.crash, hsv.boot.trans hs.boot, fun hsome => ?_⟩
    rcases hs.seen hsome with hd | hseen
    · rw [not_ready_dead hsound hd] at hready
      cases hready
    · exact Or.inr ((hsv.seen hs.crash (hseen ▸ hsome)).trans hseen)

def Idle (s : Fleet) (p : WorkerId) : Prop :=
  (s.runners p).crash = true ∧ (s.runners p).boot.kind = .conductor ∧
    (s.runners p).phase ≠ .iterating

theorem step_idle (hr : (fleet cfg pcfg).Reachable s) (h : (fleet cfg pcfg).step s e t)
    (hs : Idle s p) : Idle t p := by
  obtain ⟨hc, hk, hp⟩ := hs
  have hsound := reachable_sound hr p
  rcases step_runner h p with ⟨-, hsame⟩ | ⟨τ, -, hready, hturn⟩
  · rw [Idle, hsame]
    exact ⟨hc, hk, hp⟩
  have hasked := step_asked hr h (⟨hc, rfl, by simp⟩ : Asked _ none _)
  refine ⟨hasked.crash, by rw [hasked.boot, hk], ?_⟩
  rw [hturn]
  cases τ with
  | began mono =>
    rcases began_cases pcfg (s.runners p) mono with
      ⟨-, -, he⟩ | ⟨hf, -⟩
    · rw [he]
      simp [Runner.die]
    · rw [hf hk] at hc
      cases hc
  | unregistered mono =>
    intro hi
    have hi : ((s.runners p).retryRegister mono).phase = .iterating := hi
    have hcases := (retry_cases (s.runners p) mono).2.2.2
    rw [hi] at hcases
    have hsame : Phase.iterating = (s.runners p).phase := by simpa using hcases
    exact hp hsame.symm
  | claimed | completed | failed | finished | marked =>
    simp [Runner.Ready, hp] at hready
  | start | registered | drained | deregistered => simp [Runner.turn]
  | beat | landed | missed | signalled => exact hp

structure Unasked (s : Fleet) (p : WorkerId) : Prop where
  crash : (s.runners p).crash = false
  lives : (s.runners p).phase ≠ .dead
  rows : ∀ r ∈ s.registry.rows, r.id = p → r.crashRequested = false

theorem landed_flag (h : turnOf cfg pcfg s e = some (p, .landed true)) :
    ∃ r ∈ s.registry.rows, r.id = p ∧ r.crashRequested = true := by
  cases e with
  | land q wall =>
    obtain ⟨rfl, hflag⟩ := Prod.mk.inj (Option.some.inj h)
    exact heartbeat_flag.mp (Turn.landed.inj hflag)
  | register q wall mono reached =>
    simp only [turnOf, Option.some.injEq, Prod.mk.injEq] at h
    obtain ⟨-, h⟩ := h
    split at h <;> cases h
  | start | beat | miss | signal | begin | markLeader | claim | complete | fail | finish | drain
  | deregister => cases (Prod.mk.inj (Option.some.inj h)).2
  | kill | other => cases h

theorem step_unasked (hr : (fleet cfg pcfg).Reachable s) (h : (fleet cfg pcfg).step s e t)
    (he : ∀ wall, e ≠ .kill p wall) (hs : Unasked s p) : Unasked t p := by
  have hrows : ∀ r ∈ t.registry.rows, r.id = p → r.crashRequested = false := by
    intro r hr hid
    cases step_row h hr with
    | same hold => exact hs.rows r hold hid
    | registered wall mono _ hnew => rw [hnew]; rfl
    | killed r₀ h₀ wall hk hnew =>
      rw [hnew] at hid
      exact absurd (hid ▸ hk) (he wall)
    | stamped r₀ h₀ wall isLeader _ _ hnew =>
      rw [hnew] at hid ⊢
      exact hs.rows r₀ h₀ hid
    | aged r₀ h₀ wall _ hnew =>
      rw [hnew] at hid ⊢
      exact hs.rows r₀ h₀ hid
  rcases step_runner h p with ⟨-, hsame⟩ | ⟨τ, hx, hready, hturn⟩
  · exact ⟨by rw [hsame]; exact hs.crash, by rw [hsame]; exact hs.lives, hrows⟩
  rcases ready_live (reachable_sound hr p) hready with hl | ⟨-, boot, mono, rfl⟩
  · have hp : (s.runners p).phase ≠ .absent := by
      intro ha
      simp [ha, Phase.live] at hl
    rcases turn_outcome pcfg hready hp with ⟨hc, -⟩ | hsv
    · rw [hs.crash] at hc
      cases hc
    · refine ⟨?_, fun hd => hs.lives (hsv.phase (hturn ▸ hd)), hrows⟩
      rcases hsv.crash with hc | rfl
      · rw [hturn, hc, hs.crash]
      · obtain ⟨r, hrow, hid, hflag⟩ := landed_flag hx
        rw [hs.rows r hrow hid] at hflag
        cases hflag
  · exact ⟨by rw [hturn]; rfl, by rw [hturn]; simp [Runner.turn], hrows⟩

/-- A registration that finds the process silent for longer than rows are kept drops its row. -/
def Spared (pcfg : ProcessSettings) (p : WorkerId) (s : Fleet) (e : Event) : Prop :=
  ∀ q wall mono, e = .register q wall mono true → ∀ r ∈ s.registry.rows, r.id = p →
    wall - pcfg.processLivenessWindowS * PRUNE_WINDOW_MULTIPLE ≤ r.lastHeartbeatWall

def Flagged (s : Fleet) (p : WorkerId) : Prop :=
  ∃ r ∈ s.registry.rows, r.id = p ∧ r.crashRequested = true

theorem flagged_update {t : Registry} {id : WorkerId} {f : Process → Process}
    (hf : ∀ r, (f r).id = r.id) (hc : ∀ r, r.crashRequested = true → (f r).crashRequested = true)
    (h : ∃ r ∈ t.rows, r.id = p ∧ r.crashRequested = true) :
    ∃ r ∈ (t.update id f hf).rows, r.id = p ∧ r.crashRequested = true := by
  obtain ⟨r, hr, hid, hflag⟩ := h
  by_cases hi : r.id = id
  · exact ⟨f r, mem_update.mpr (Or.inr ⟨r, hr, hi, rfl⟩), (hf r).trans hid, hc r hflag⟩
  · exact ⟨r, mem_update.mpr (Or.inl ⟨hr, hi⟩), hid, hflag⟩

theorem step_flagged (h : (fleet cfg pcfg).step s e t) (he : Spared pcfg p s e) (hs : Flagged s p) :
    Flagged t p := by
  obtain ⟨-, rfl⟩ := h
  change ∃ r ∈ (nextRegistry pcfg s e).rows, r.id = p ∧ r.crashRequested = true
  cases e with
  | register q wall mono reached =>
    cases reached with
    | false => exact hs
    | true =>
      simp only [nextRegistry, if_true]
      cases hreg : registerProcess pcfg q (s.runners q).boot wall s.registry with
      | none => exact hs
      | some u =>
        obtain ⟨r, hr, hid, hflag⟩ := hs
        refine ⟨r, ((mem_registerProcess hreg).2 r).mpr (Or.inl ?_), hid, hflag⟩
        exact mem_pruneDead.mpr ⟨hr, he q wall mono rfl r hr hid⟩
  | land q wall =>
    simp only [nextRegistry, heartbeat]
    split
    · exact flagged_update (fun _ => by rfl) (fun _ h => by exact h) hs
    · exact hs
  | kill q wall =>
    simp only [nextRegistry]
    rcases killProcess_cases s.registry q wall s.pipe.db with
      ⟨⟨m, hm⟩, -⟩ | ⟨x, hx⟩
    · rw [hm]
      exact hs
    · rw [hx]
      exact flagged_update (fun _ => by rfl) (fun _ _ => by rfl) hs
  | deregister q wall reached =>
    cases reached with
    | false => exact hs
    | true =>
      simp only [nextRegistry, if_true, deregisterProcess]
      exact flagged_update (fun _ => by rfl) (fun _ h => by exact h) hs
  | start | beat | miss | signal | begin | markLeader | claim | complete | fail | finish | drain
  | other => exact hs

theorem run_flagged (hx : ((fleet cfg pcfg).restrict (Spared pcfg p)).Execution s t)
    (hs : Flagged s p) : Flagged t p := by
  induction hx with
  | refl => exact hs
  | tail _ he ih =>
    obtain ⟨e, he⟩ := he
    exact step_flagged he.2 he.1 ih

theorem kill_flags {wall : ℚ} (h : (fleet cfg pcfg).step s (.kill p wall) t) {r : Process}
    (hr : r ∈ s.registry.rows) (hid : r.id = p) : Flagged t p := by
  obtain ⟨-, rfl⟩ := h
  rcases killProcess_cases s.registry p wall s.pipe.db with
    ⟨-, hnone⟩ | ⟨x, hx⟩
  · exact absurd hid (hnone r hr)
  · refine ⟨{ r with crashRequested := true }, ?_, hid, rfl⟩
    change _ ∈ (nextRegistry pcfg s (.kill p wall)).rows
    simp only [nextRegistry, hx]
    exact mem_update.mpr (Or.inr ⟨r, hr, hid, rfl⟩)

theorem land_raises {wall : ℚ} (h : (fleet cfg pcfg).step s (.land p wall) t)
    (hf : Flagged s p) : (t.runners p).crash = true := by
  rcases step_runner h p with ⟨hx, -⟩ | ⟨τ, hx, -, hturn⟩
  · exact absurd rfl (hx _)
  · obtain ⟨-, rfl⟩ := Prod.mk.inj (Option.some.inj hx)
    rw [hturn]
    have hflag : (heartbeat p false wall s.registry).1 = true := heartbeat_flag.mpr hf
    simp [Runner.turn, hflag]

/-- In a run without a request for it no process dies. And a request for a process that has a row
is not lost, unless its row is dropped: the next heartbeat that lands brings it back, however many
processes register, beat and stop in between. -/
theorem kill_delivered (cfg : Settings) (pcfg : ProcessSettings) (p : WorkerId) :
    (∀ s, ((fleet cfg pcfg).restrict fun _ e => ∀ wall, e ≠ .kill p wall).Reachable s →
      (s.runners p).phase ≠ .dead ∧ (s.runners p).crash = false) ∧
    ∀ s t u v wall wall', (fleet cfg pcfg).step s (.kill p wall) t →
      (∃ r ∈ s.registry.rows, r.id = p) →
      ((fleet cfg pcfg).restrict (Spared pcfg p)).Execution t u →
      (fleet cfg pcfg).step u (.land p wall') v → (v.runners p).crash = true := by
  refine ⟨fun s h => ?_, fun s t u v wall wall' ht ⟨r, hr, hid⟩ hu hv => ?_⟩
  · have hun : Unasked s p := by
      apply h.invariant (P := fun s => Unasked s p)
      · rintro _ ⟨cast, simulations, rfl⟩
        exact ⟨rfl, by simp [initialFleet, Runner.absent], by simp [initialFleet, Registry.empty]⟩
      · intro s e t hr hs he
        exact step_unasked (System.restrict_reachable hr) he.2 he.1 hs
    exact ⟨hun.lives, hun.crash⟩
  · exact land_raises hv (run_flagged hu (kill_flags ht hr hid))

end Kill

section Listing

variable {cfg : Settings} {pcfg : ProcessSettings} {s t u : Fleet} {e : Event} {p : WorkerId}

def Gone (s : Fleet) (p : WorkerId) (last : ℚ) : Prop :=
  (s.runners p).phase = .stopped ∧
    ∀ r ∈ s.registry.rows, r.id = p → r.lastHeartbeatWall ≤ last

theorem not_ready_stopped {r : Runner} {τ : Turn} (hs : r.Sound) (hp : r.phase = .stopped) :
    r.Ready τ = false := by
  by_contra h
  rcases ready_live hs (by simpa using h) with hl | ⟨ha, -⟩
  · simp [hp, Phase.live] at hl
  · simp [hp] at ha

theorem step_gone (hr : (fleet cfg pcfg).Reachable s) (h : (fleet cfg pcfg).step s e t) {last : ℚ}
    (hs : Gone s p last) : Gone t p last := by
  obtain ⟨hp, hrows⟩ := hs
  have hquiet : ∀ τ, turnOf cfg pcfg s e ≠ some (p, τ) := by
    intro τ hx
    have hready := h.1.2.1 _ hx
    rw [not_ready_stopped (reachable_sound hr p) hp] at hready
    cases hready
  refine ⟨?_, fun r hrow hid => ?_⟩
  · rcases step_runner h p with ⟨-, hsame⟩ | ⟨τ, hx, -⟩
    · rw [hsame, hp]
    · exact absurd hx (hquiet τ)
  · cases step_row h hrow with
    | same hold => exact hrows r hold hid
    | registered wall mono he _ =>
      rw [hid] at he
      subst he
      exact absurd rfl (hquiet _)
    | killed r₀ h₀ wall _ hnew =>
      rw [hnew] at hid ⊢
      exact hrows r₀ h₀ hid
    | stamped r₀ h₀ wall isLeader he _ hnew =>
      rw [hnew] at hid
      have hid : r₀.id = p := hid
      rw [hid] at he
      subst he
      exact absurd rfl (hquiet _)
    | aged r₀ h₀ wall he hnew =>
      rw [hnew] at hid
      have hid : r₀.id = p := hid
      rw [hid] at he
      subst he
      exact absurd rfl (hquiet _)

theorem run_gone (hs : (fleet cfg pcfg).Reachable s) (hx : (fleet cfg pcfg).Execution s t)
    {last : ℚ} (h : Gone s p last) : Gone t p last :=
  hx.relates (R := fun s t => Gone s p last → Gone t p last) (fun _ h => h)
    (fun _ _ _ h k hs => k (h hs)) (fun _ _ _ hr he => step_gone hr he) hs h

/-- A process that stopped and could say so is not listed from then on, not even by a reader whose
clock is a liveness window behind; whoever is listed is so once, and was heard of within the
window. -/
theorem stopped_unlisted (cfg : Settings) (pcfg : ProcessSettings)
    (hs : (fleet cfg pcfg).Reachable s) {wall : ℚ}
    (ht : (fleet cfg pcfg).step s (.deregister p wall true) t)
    (hu : (fleet cfg pcfg).Execution t u) {now : ℚ}
    (hnow : wall - pcfg.processLivenessWindowS ≤ now) :
    ((listProcesses pcfg now u.pipe.db u.registry).map ProcessRead.id).Nodup ∧
    ∀ r ∈ listProcesses pcfg now u.pipe.db u.registry,
      r.id ≠ p ∧ r.heartbeatAgeS < pcfg.processLivenessWindowS := by
  have hgone : Gone t p (wall - pcfg.processLivenessWindowS * 2) := by
    refine ⟨?_, fun r hr hid => ?_⟩
    · rcases step_runner ht p with ⟨hx, -⟩ | ⟨τ, hx, -, hturn⟩
      · exact absurd rfl (hx _)
      · obtain ⟨-, rfl⟩ := Prod.mk.inj (Option.some.inj hx)
        rw [hturn]
        rfl
    · obtain ⟨-, rfl⟩ := ht
      have hr : r ∈ (deregisterProcess pcfg p wall s.registry).rows := hr
      rcases mem_update.mp hr with ⟨-, hne⟩ | ⟨r₀, -, -, rfl⟩
      · exact absurd hid hne
      · exact le_rfl
  have hlater := run_gone (hs.tail ht) hu hgone
  refine ⟨listProcesses_nodup, fun r hr => ?_⟩
  obtain ⟨q, hq, hlive, rfl⟩ := mem_listProcesses.mp hr
  refine ⟨fun hid => ?_, ?_⟩
  · have hle := hlater.2 q hq hid
    linarith
  · change now - q.lastHeartbeatWall < _
    linarith

end Listing

section Runs

/-- The next heartbeat after the request. -/
theorem kill_delivered_next : ∃ s t u v : Fleet,
    (fleet shipped pshipped).Reachable s ∧ (fleet shipped pshipped).step s (.kill 7 101) t ∧
    (fleet shipped pshipped).step t (.beat 7) u ∧ (fleet shipped pshipped).step u (.land 7 102) v ∧
    (v.runners 7).crash = true := by
  have hrun : (runFleet booted).map (fun s =>
      (s.registry.rows.map Process.id, (s.runners 7).beat, (s.runners 7).stop)) =
      some ([7], .resting, false) := by decide +kernel
  obtain ⟨s, hs, hp⟩ := Option.map_eq_some_iff.mp hrun
  simp only [Prod.mk.injEq] at hp
  obtain ⟨hids, hbeat, hstop⟩ := hp
  have hrow : ∃ r ∈ s.registry.rows, r.id = 7 :=
    List.mem_map.mp (hids ▸ List.mem_singleton.mpr rfl)
  obtain ⟨t, ht⟩ : ∃ t, t = nextFleet shipped pshipped s (.kill 7 101) := ⟨_, rfl⟩
  obtain ⟨u, hu⟩ : ∃ u, u = nextFleet shipped pshipped t (.beat 7) := ⟨_, rfl⟩
  have hsame : t.runners 7 = s.runners 7 := by rw [ht]; rfl
  have hsent : (u.runners 7).beat = .sent (t.runners 7).isLeader := by
    rw [hu]
    simp [nextFleet, nextRunners, turnOf, Runner.turn]
  have hkill : (fleet shipped pshipped).step s (.kill 7 101) t :=
    ⟨⟨by simp [actionOf], by simp [turnOf], trivial⟩, ht⟩
  have hbeats : (fleet shipped pshipped).step t (.beat 7) u :=
    ⟨⟨by simp [actionOf], by simp [turnOf, Runner.Ready, hsame, hbeat, hstop], trivial⟩, hu⟩
  have hland : (fleet shipped pshipped).step u (.land 7 102) _ :=
    ⟨⟨by simp [actionOf], by simp [turnOf, Runner.Ready, Beat.inFlight, hsent], trivial⟩, rfl⟩
  have hspared : Spared pshipped 7 t (.beat 7) := fun _ _ _ he => by cases he
  exact ⟨s, t, u, _, runFleet_reachable hs, hkill, hbeats, hland,
    (kill_delivered shipped pshipped 7).2 s t u _ 101 102 hkill hrow
      (.single ⟨_, hspared, hbeats⟩) hland⟩

/-- Once it has drained worker 7 is not in the list, and one that has booted in the meantime is. -/
theorem stopped_unlisted_drained : ∃ s : Fleet, (s.runners 7).phase = .stopped ∧
    (listProcesses pshipped 111 s.pipe.db s.registry).map ProcessRead.id = [8] ∧
    ∀ r ∈ listProcesses pshipped 111 s.pipe.db s.registry,
      r.id ≠ 7 ∧ r.heartbeatAgeS < pshipped.processLivenessWindowS := by
  have hrun : (runFleet (drained.dropLast ++ [.start 8 laptop 2, .register 8 108 2 true])).map
      (fun s =>
        let t := nextFleet shipped pshipped s (.deregister 7 110 true)
        ((s.runners 7).phase,
          (listProcesses pshipped 111 t.pipe.db t.registry).map ProcessRead.id)) =
      some (.draining, [8]) := by decide +kernel
  obtain ⟨s, hs, hp⟩ := Option.map_eq_some_iff.mp hrun
  obtain ⟨hp, hlist⟩ := Prod.mk.inj hp
  have hstop : (fleet shipped pshipped).step s (.deregister 7 110 true) _ :=
    ⟨⟨by simp [actionOf], by simp [turnOf, Runner.Ready, hp], trivial⟩, rfl⟩
  have hnow : (110 : ℚ) - pshipped.processLivenessWindowS ≤ 111 := by norm_num [pshipped]
  have hun := stopped_unlisted shipped pshipped (runFleet_reachable hs) hstop .refl hnow
  refine ⟨_, ?_, hlist, hun.2⟩
  simp [nextFleet, nextRunners, turnOf, Runner.turn]

end Runs

end KillProtocol
