import WebhookRecovery.VirtualClock
import WebhookRecovery.ConductorPass

/-! The control requests on one simulation row. The order in a PATCH matters: the speed change
is applied to the configuration after the status change, and the requested status is written
over what comes out. A retirement is at the instant its pass read the clock. -/
namespace ClockControl

open RecoverySchema InterleavedPrograms ConductorPass VirtualClock

abbrev Positive := {x : ℚ // 0 < x}

structure SimulationCreate where
  speedMultiplier : Option Positive := none
  fairDrainEnabled : Option Bool := none
  globalAttemptsPerS : Option Positive := none

/-- An omitted field means: leave alone. -/
structure SimulationPatch where
  status : Option SimStatus := none
  speedMultiplier : Option Positive := none
  fairDrainEnabled : Option Bool := none
  globalAttemptsPerS : Option Positive := none
  outageOverride : Option Bool := none

def createSimulation (cfg : Settings) (id : SimulationId) (body : SimulationCreate)
    (atWall : ℚ) : Except String Simulation := do
  let config := startConfig ((body.speedMultiplier.map Subtype.val).getD
    cfg.defaultSpeedMultiplier) atWall
  let sim : Simulation :=
    { id := id
      status := config.status
      virtualEpoch := config.virtualEpoch
      resumedAtWall := config.resumedAtWall
      pausedAtVirtual := config.pausedAtVirtual
      speedMultiplier := config.speedMultiplier
      fairDrainEnabled := body.fairDrainEnabled.getD true
      globalAttemptsPerS := (body.globalAttemptsPerS.map Subtype.val).getD 30
      outageOverride := none }
  -- the response is built from a clock over the new row
  let _ ← virtualClock (fromRow sim)
  return sim

def restatus (body : SimulationPatch) (atWall : ℚ) (sim : Simulation) : SimulationClockConfig :=
  match body.status with
  | none => fromRow sim
  | some status =>
    if status = sim.status then fromRow sim
    else
      match status with
      | .paused => pause (fromRow sim) atWall
      | .running => resume (fromRow sim) atWall
      | .done => pause (fromRow sim) atWall

def respeed (body : SimulationPatch) (atWall : ℚ) (config : SimulationClockConfig) :
    Except String SimulationClockConfig :=
  match body.speedMultiplier with
  | none => .ok config
  | some m => if m.val ≠ config.speedMultiplier then setSpeed config m atWall else .ok config

def overlay (body : SimulationPatch) (config : SimulationClockConfig) (sim : Simulation) :
    Simulation :=
  { sim with
    status := body.status.getD config.status
    virtualEpoch := config.virtualEpoch
    resumedAtWall := config.resumedAtWall
    pausedAtVirtual := config.pausedAtVirtual
    speedMultiplier := config.speedMultiplier
    fairDrainEnabled := body.fairDrainEnabled.getD sim.fairDrainEnabled
    globalAttemptsPerS := (body.globalAttemptsPerS.map Subtype.val).getD sim.globalAttemptsPerS
    outageOverride := body.outageOverride <|> sim.outageOverride }

def patchSimulation (body : SimulationPatch) (atWall : ℚ) (sim : Simulation) :
    Except String Simulation := do
  let config ← respeed body atWall (restatus body atWall sim)
  let patched := overlay body config sim
  let _ ← virtualClock (fromRow patched)
  return patched

structure State where
  sim : Simulation
  wall : ℚ
  deriving DecidableEq

def State.reading (s : State) : ℚ := nowAt (fromRow s.sim) s.wall

inductive Event where
  | tick (d : ℚ)
  | patch (body : SimulationPatch)
  | retire

/-- A pass covers the running simulations only. -/
def Enabled (s : State) : Event → Prop
  | .tick d => 0 ≤ d
  | .patch _ => True
  | .retire => s.sim.status = .running

instance (s : State) : DecidablePred (Enabled s)
  | .tick d => inferInstanceAs (Decidable (0 ≤ d))
  | .patch _ => inferInstanceAs (Decidable True)
  | .retire => inferInstanceAs (Decidable (s.sim.status = .running))

def next (s : State) : Event → State
  | .tick d => { s with wall := s.wall + d }
  | .patch body =>
    match patchSimulation body s.wall s.sim with
    | .ok sim => { s with sim := sim }
    | .error _ => s
  | .retire => { s with sim := retireRow s.reading s.sim }

def Initial (cfg : Settings) (s : State) : Prop :=
  ∃ id body, createSimulation cfg id body s.wall = .ok s.sim

def system (cfg : Settings) : System State Event := .guarded (Initial cfg) Enabled next

def Respeeds (body : SimulationPatch) (config : SimulationClockConfig) : Prop :=
  ∃ m ∈ body.speedMultiplier, m.val ≠ config.speedMultiplier

/-- A finished run is set running as it stands: resume does nothing to a clock that is not
paused, and no speed change rebases the epoch. -/
def Revives (body : SimulationPatch) (sim : Simulation) : Prop :=
  body.status = some .running ∧ sim.status = .done ∧ ¬ Respeeds body (fromRow sim)

/-- The old epoch then reads something else than the frozen clock did. -/
def Jumps (body : SimulationPatch) (sim : Simulation) (atWall : ℚ) : Prop :=
  Revives body sim ∧ frozenAt (fromRow sim) ≠ runningAt (fromRow sim) atWall

section Requests

variable {body : SimulationPatch} {sim : Simulation} {c d : SimulationClockConfig} {t : ℚ}

theorem virtualClock_ok (h : 0 < c.speedMultiplier) : virtualClock c = .ok c :=
  if_neg (not_le.mpr h)

theorem restatus_speed : (restatus body t sim).speedMultiplier = sim.speedMultiplier := by
  unfold restatus
  split
  · rfl
  · split
    · rfl
    · split
      · exact pause_speed
      · exact resume_speed
      · exact pause_speed

theorem respeed_cases (h : respeed body t c = .ok d) :
    ¬ Respeeds body c ∧ d = c ∨ Respeeds body c ∧ ∃ m, setSpeed c m t = .ok d := by
  unfold respeed at h
  split at h
  · rename_i hb
    refine Or.inl ⟨?_, (Except.ok.inj h).symm⟩
    rintro ⟨m, hm, -⟩
    simp [hb] at hm
  · rename_i m hb
    split at h
    · rename_i hne
      exact Or.inr ⟨⟨m, hb, hne⟩, m, h⟩
    · rename_i heq
      refine Or.inl ⟨?_, (Except.ok.inj h).symm⟩
      rintro ⟨n, hn, hne⟩
      rw [hb] at hn
      obtain rfl := Option.some.inj hn
      exact heq hne

theorem respeed_ok (hc : 0 < c.speedMultiplier) :
    ∃ d, respeed body t c = .ok d ∧ 0 < d.speedMultiplier := by
  unfold respeed
  split
  · exact ⟨c, rfl, hc⟩
  · rename_i m hb
    split
    · obtain ⟨d, hd⟩ := (setSpeed_ok (c := c) (t := t)).mpr m.property
      refine ⟨d, hd, ?_⟩
      rw [setSpeed_speed hd]
      exact m.property
    · exact ⟨c, rfl, hc⟩

theorem respeed_status (h : respeed body t c = .ok d) : d.status = c.status := by
  rcases respeed_cases h with ⟨-, rfl⟩ | ⟨-, m, hm⟩
  · rfl
  · exact setSpeed_status hm

theorem nowAt_respeed (h : respeed body t c = .ok d) : nowAt d t = nowAt c t := by
  rcases respeed_cases h with ⟨-, rfl⟩ | ⟨-, m, hm⟩
  · rfl
  · exact nowAt_setSpeed hm

theorem fromRow_overlay :
    fromRow (overlay body c sim) = { c with status := body.status.getD c.status } := rfl

theorem not_jumps_of_status (h : body.status ≠ some .running) : ¬ Jumps body sim t :=
  fun hj => h hj.1.1

theorem not_jumps_of_live (h : sim.status ≠ .done) : ¬ Jumps body sim t :=
  fun hj => h hj.1.2.1

theorem nowAt_overlay (h : respeed body t c = .ok d) {st : SimStatus} (hb : body.status = some st)
    (hst : st = .running ↔ c.status = .running) :
    nowAt (fromRow (overlay body d sim)) t = nowAt c t := by
  rw [fromRow_overlay, hb, Option.getD_some, nowAt_status st (by rwa [respeed_status h]),
    nowAt_respeed h]

theorem nowAt_stopped (h : respeed body t (restatus body t sim) = .ok d) {st : SimStatus}
    (hb : body.status = some st) (hs : st ≠ sim.status) (hst : st ≠ .running) :
    nowAt (fromRow (overlay body d sim)) t = nowAt (fromRow sim) t := by
  have hr : restatus body t sim = pause (fromRow sim) t := by
    simp only [restatus, hb, if_neg hs]
    cases st with
    | running => exact absurd rfl hst
    | paused => rfl
    | done => rfl
  rw [hr] at h
  rw [nowAt_overlay h hb (by simp [pause_status, hst]), nowAt_pause]

theorem nowAt_started (h : respeed body t (restatus body t sim) = .ok d)
    (hb : body.status = some .running) (hs : .running ≠ sim.status) :
    nowAt (fromRow (overlay body d sim)) t = nowAt (fromRow sim) t ↔ ¬ Jumps body sim t := by
  have hr : restatus body t sim = resume (fromRow sim) t := by
    rw [restatus, hb]
    exact if_neg hs
  rw [hr] at h
  by_cases hp : sim.status = .paused
  · refine iff_of_true ?_ (not_jumps_of_live (by simp [hp]))
    rw [nowAt_overlay h hb (by simp [resume_status (c := fromRow sim) hp]),
      nowAt_resume (c := fromRow sim) hp]
  -- a finished run: resume leaves it as it is
  have hdone : sim.status = .done := by
    cases hst : sim.status with
    | running => exact absurd hst.symm hs
    | paused => exact absurd hst hp
    | done => rfl
  rw [resume, if_pos (show (fromRow sim).status ≠ .paused from hp)] at h
  rw [fromRow_overlay, hb, Option.getD_some]
  rcases respeed_cases h with ⟨hn, rfl⟩ | ⟨hn, m, hm⟩
  · have hf : (fromRow sim).status ≠ .running := by simp [fromRow, hdone]
    rw [nowAt_frozen hf, nowAt_running rfl]
    constructor
    · rintro he ⟨-, hne⟩
      exact hne he.symm
    · intro hj
      by_contra hne
      exact hj ⟨⟨hb, hdone, hn⟩, fun he => hne he.symm⟩
  · exact iff_of_true (nowAt_setSpeed_rebased .running hm hp) fun hj => hj.1.2.2 hn

theorem nowAt_patched (h : respeed body t (restatus body t sim) = .ok d) :
    nowAt (fromRow (overlay body d sim)) t = nowAt (fromRow sim) t ↔ ¬ Jumps body sim t := by
  cases hb : body.status with
  | none =>
    have hr : restatus body t sim = fromRow sim := by rw [restatus, hb]
    rw [hr] at h
    refine iff_of_true ?_ (not_jumps_of_status (by simp [hb]))
    rw [fromRow_overlay, hb]
    exact nowAt_respeed h
  | some st =>
    by_cases hs : st = sim.status
    · have hr : restatus body t sim = fromRow sim := by rw [restatus, hb]; exact if_pos hs
      rw [hr] at h
      refine iff_of_true (nowAt_overlay h hb (by rw [hs]; rfl)) ?_
      rintro ⟨⟨hrun, hdone, -⟩, -⟩
      rw [hb, hs, hdone] at hrun
      cases hrun
    · by_cases hst : st = .running
      · subst hst
        exact nowAt_started h hb hs
      · have hnot : body.status ≠ some .running := by simpa [hb] using hst
        exact iff_of_true (nowAt_stopped h hb hs hst) (not_jumps_of_status hnot)

/-- A request never fails on a row of positive speed, keeps the speed positive, and leaves the
reading where it was exactly when it does not jump. -/
theorem patch_spec (hm : 0 < sim.speedMultiplier) (body : SimulationPatch) (t : ℚ) :
    ∃ sim', patchSimulation body t sim = .ok sim' ∧ 0 < sim'.speedMultiplier ∧
      (nowAt (fromRow sim') t = nowAt (fromRow sim) t ↔ ¬ Jumps body sim t) := by
  have hc : 0 < (restatus body t sim).speedMultiplier := by rwa [restatus_speed]
  have hok : ∃ d, respeed body t (restatus body t sim) = .ok d ∧ 0 < d.speedMultiplier :=
    respeed_ok hc
  obtain ⟨d, hd, hpos⟩ := hok
  refine ⟨overlay body d sim, ?_, hpos, nowAt_patched hd⟩
  have hv : virtualClock (fromRow (overlay body d sim)) = .ok (fromRow (overlay body d sim)) :=
    virtualClock_ok hpos
  simp only [patchSimulation, hd, bind, Except.bind, hv]
  rfl

end Requests

section Runs

variable {cfg : Settings} {s t : State} {e : Event}

theorem nowAt_retireRow (now u : ℚ) (sim : Simulation) :
    nowAt (fromRow (retireRow now sim)) u = now := by
  rw [nowAt_frozen (by simp [fromRow, retireRow])]
  rfl

theorem initial_speed (h : Initial cfg s) : 0 < s.sim.speedMultiplier := by
  obtain ⟨id, body, h⟩ := h
  simp only [createSimulation, virtualClock, bind, Except.bind] at h
  split at h
  · cases h
  · rename_i hv
    split at hv
    · cases hv
    · rename_i hpos
      obtain rfl := Except.ok.inj hv
      rw [← Except.ok.inj h]
      exact not_le.mp hpos

theorem step_speed (h : (system cfg).step s e t) (hs : 0 < s.sim.speedMultiplier) :
    0 < t.sim.speedMultiplier := by
  obtain ⟨-, rfl⟩ := h
  cases e with
  | tick d => exact hs
  | retire => exact hs
  | patch body =>
    obtain ⟨sim, hok, hpos, -⟩ := patch_spec hs body s.wall
    simp only [next, hok]
    exact hpos

theorem reachable_speed (h : (system cfg).Reachable s) : 0 < s.sim.speedMultiplier :=
  h.invariant (P := fun s => 0 < s.sim.speedMultiplier) (fun _ => initial_speed)
    fun _ _ _ _ hs he => step_speed he hs

def Continuous (s : State) : Event → Prop
  | .patch body => ¬ Jumps body s.sim s.wall
  | _ => True

/-- Only a tick of a running clock moves the reading, and it moves it forward. -/
theorem step_reading (h : (system cfg).step s e t) (hs : 0 < s.sim.speedMultiplier)
    (hc : Continuous s e) :
    s.reading ≤ t.reading ∧ (s.sim.status ≠ .running → t.reading = s.reading) := by
  obtain ⟨he, rfl⟩ := h
  cases e with
  | tick d =>
    constructor
    · apply nowAt_mono (c := fromRow s.sim) hs
      exact le_add_of_nonneg_right he
    · intro hf
      have hf : (fromRow s.sim).status ≠ .running := hf
      exact (nowAt_frozen hf).trans (nowAt_frozen hf).symm
  | retire =>
    have hr : (next s .retire).reading = s.reading := nowAt_retireRow _ _ _
    exact ⟨hr.ge, fun _ => hr⟩
  | patch body =>
    obtain ⟨sim, hok, -, hiff⟩ := patch_spec hs body s.wall
    have hr : (next s (.patch body)).reading = s.reading := by
      simp only [next, hok]
      exact hiff.mpr hc
    exact ⟨hr.ge, fun _ => hr⟩

def continuous (cfg : Settings) : System State Event := (system cfg).restrict Continuous

def frozen (cfg : Settings) : System State Event :=
  (continuous cfg).restrict fun s _ => s.sim.status ≠ .running

theorem execution_monotone (hs : (continuous cfg).Reachable s)
    (h : (continuous cfg).Execution s t) : s.reading ≤ t.reading := by
  refine System.Execution.relates (R := fun s t => s.reading ≤ t.reading) (fun _ => le_refl _)
    (fun _ _ _ => le_trans) ?_ hs h
  intro s e t hs he
  have hpos := reachable_speed (System.restrict_reachable hs)
  exact (step_reading he.2 hpos he.1).1

theorem execution_frozen (hs : 0 < s.sim.speedMultiplier) (h : (frozen cfg).Execution s t) :
    t.reading = s.reading := by
  have main : 0 < t.sim.speedMultiplier ∧ t.reading = s.reading := by
    induction h with
    | refl => exact ⟨hs, rfl⟩
    | tail hx he ih =>
      obtain ⟨e, hf, hc, hstep⟩ := he
      exact ⟨step_speed hstep ih.1, ((step_reading hstep ih.1 hc).2 hf).trans ih.2⟩
  exact main.2

/-- At every reachable row each request succeeds, and virtual time is continuous across it
exactly when it does not jump; between continuous requests readings never go back, and stand
still while the row is paused or done. -/
theorem virtual_time_continuous (hs : (system cfg).Reachable s) :
    (∀ body, ∃ sim, patchSimulation body s.wall s.sim = .ok sim ∧
      (nowAt (fromRow sim) s.wall = s.reading ↔ ¬ Jumps body s.sim s.wall)) ∧
    ((continuous cfg).Reachable s → ∀ t, (continuous cfg).Execution s t →
      s.reading ≤ t.reading) ∧
    ∀ t, (frozen cfg).Execution s t → t.reading = s.reading := by
  have hpos := reachable_speed hs
  refine ⟨?_, ?_, ?_⟩
  · intro body
    obtain ⟨sim, hok, -, hiff⟩ := patch_spec hpos body s.wall
    exact ⟨sim, hok, hiff⟩
  · intro hc t ht
    exact execution_monotone hc ht
  · intro t ht
    exact execution_frozen hpos ht

end Runs

section Revival

def created : Simulation := ⟨1, .running, 0, 0, none, 20, true, 30, none⟩

def finished : Simulation := { created with status := .done, pausedAtVirtual := some 200 }

theorem finished_continuous : (continuous shipped).Reachable ⟨finished, 110⟩ := by
  refine ⟨⟨created, 0⟩, ⟨1, {}, by decide +kernel⟩, ?_⟩
  have hrun : (continuous shipped).Execution ⟨created, 0⟩ ⟨created, 10⟩ :=
    .single ⟨.tick 10, trivial, by decide +kernel, by decide +kernel⟩
  have hdone : (continuous shipped).Execution ⟨created, 10⟩ ⟨finished, 10⟩ :=
    .single ⟨.patch { status := some .done }, not_jumps_of_live (by decide), trivial,
      by decide +kernel⟩
  have hrest : (continuous shipped).Execution ⟨finished, 10⟩ ⟨finished, 110⟩ :=
    .single ⟨.tick 100, trivial, by decide +kernel, by decide +kernel⟩
  exact (hrun.trans hdone).trans hrest

theorem virtual_time_continuous_finished :
    (∀ body, ∃ sim, patchSimulation body 110 finished = .ok sim ∧
      (nowAt (fromRow sim) 110 = 200 ↔ ¬ Jumps body finished 110)) ∧
    (∀ t, (continuous shipped).Execution ⟨finished, 110⟩ t → 200 ≤ t.reading) ∧
    ∀ t, (frozen shipped).Execution ⟨finished, 110⟩ t → t.reading = 200 := by
  obtain ⟨hpatch, hmono, hfrozen⟩ :=
    virtual_time_continuous (System.restrict_reachable finished_continuous)
  exact ⟨hpatch, hmono finished_continuous, hfrozen⟩

/-- Set running again, the run that froze at 200 reads 2200. -/
theorem revived_run_jumps : ¬ ∀ s, (system shipped).Reachable s → ∀ body sim,
    patchSimulation body s.wall s.sim = .ok sim →
      nowAt (fromRow sim) s.wall = s.reading := by
  intro h
  have hr := h ⟨finished, 110⟩ (System.restrict_reachable finished_continuous)
    { status := some .running } { finished with status := .running } (by decide +kernel)
  exact absurd hr (by decide +kernel)

end Revival

end ClockControl
