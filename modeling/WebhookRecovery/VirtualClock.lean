import WebhookRecovery.RecoverySchema

/-! Virtual time is derived, never stored: a function of wall time and of the epoch fields of
the simulation row. Pause, resume and speed change rewrite the epoch. -/
namespace VirtualClock

open RecoverySchema

def VIRTUAL_EPOCH_ZERO : ℚ := 0

structure SimulationClockConfig where
  status : SimStatus
  virtualEpoch : ℚ
  resumedAtWall : ℚ
  pausedAtVirtual : Option ℚ
  speedMultiplier : ℚ
  deriving DecidableEq, Repr

def fromRow (sim : Simulation) : SimulationClockConfig :=
  ⟨sim.status, sim.virtualEpoch, sim.resumedAtWall, sim.pausedAtVirtual, sim.speedMultiplier⟩

def frozenAt (config : SimulationClockConfig) : ℚ :=
  config.pausedAtVirtual.getD config.virtualEpoch

def runningAt (config : SimulationClockConfig) (atWall : ℚ) : ℚ :=
  config.virtualEpoch + (atWall - config.resumedAtWall) * config.speedMultiplier

/-- Paused and done are both not advancing. -/
def nowAt (config : SimulationClockConfig) (atWall : ℚ) : ℚ :=
  if config.status ≠ .running then frozenAt config else runningAt config atWall

def virtualClock (config : SimulationClockConfig) : Except String SimulationClockConfig :=
  if config.speedMultiplier ≤ 0 then .error "speed_multiplier must be positive" else .ok config

def startConfig (speedMultiplier atWall : ℚ) : SimulationClockConfig :=
  ⟨.running, VIRTUAL_EPOCH_ZERO, atWall, none, speedMultiplier⟩

def pause (config : SimulationClockConfig) (atWall : ℚ) : SimulationClockConfig :=
  if config.status = .paused then config
  else { config with status := .paused, pausedAtVirtual := some (nowAt config atWall) }

/-- The new epoch is the frozen reading, so the pause contributes nothing. -/
def resume (config : SimulationClockConfig) (atWall : ℚ) : SimulationClockConfig :=
  if config.status ≠ .paused then config
  else
    { config with
      status := .running
      virtualEpoch := frozenAt config
      resumedAtWall := atWall
      pausedAtVirtual := none }

def setSpeed (config : SimulationClockConfig) (speedMultiplier atWall : ℚ) :
    Except String SimulationClockConfig :=
  if speedMultiplier ≤ 0 then .error "speed_multiplier must be positive"
  else if config.status = .paused then .ok { config with speedMultiplier := speedMultiplier }
  else
    .ok
      { config with
        virtualEpoch := nowAt config atWall
        resumedAtWall := atWall
        pausedAtVirtual := none
        speedMultiplier := speedMultiplier }

section Readings

variable {c d : SimulationClockConfig} {m t u : ℚ}

theorem nowAt_running (h : c.status = .running) : nowAt c t = runningAt c t :=
  if_neg fun hn => hn h

theorem nowAt_frozen (h : c.status ≠ .running) : nowAt c t = frozenAt c := if_pos h

theorem nowAt_status (st : SimStatus) (h : st = .running ↔ c.status = .running) :
    nowAt { c with status := st } t = nowAt c t := by
  by_cases hr : c.status = .running
  · rw [nowAt_running hr, nowAt_running (h.mpr hr)]
    rfl
  · rw [nowAt_frozen hr, nowAt_frozen (fun hs => hr (h.mp hs))]
    rfl

theorem nowAt_mono (hm : 0 < c.speedMultiplier) (h : t ≤ u) : nowAt c t ≤ nowAt c u := by
  by_cases hr : c.status = .running
  · rw [nowAt_running hr, nowAt_running hr]
    have hmul := mul_le_mul_of_nonneg_right (sub_le_sub_right h c.resumedAtWall) hm.le
    exact add_le_add_right hmul _
  · rw [nowAt_frozen hr, nowAt_frozen hr]

theorem pause_status : (pause c t).status = .paused := by
  unfold pause
  split
  · assumption
  · rfl

@[simp] theorem pause_speed : (pause c t).speedMultiplier = c.speedMultiplier := by
  unfold pause
  split <;> rfl

theorem nowAt_pause : nowAt (pause c t) u = nowAt c t := by
  have hp : (pause c t).status ≠ .running := by
    rw [pause_status]
    decide
  rw [nowAt_frozen hp]
  by_cases h : c.status = .paused
  · have hc : c.status ≠ .running := by
      rw [h]
      decide
    rw [nowAt_frozen hc, pause, if_pos h]
  · rw [pause, if_neg h]
    rfl

theorem resume_status (h : c.status = .paused) : (resume c t).status = .running := by
  rw [resume, if_neg fun hn => hn h]

@[simp] theorem resume_speed : (resume c t).speedMultiplier = c.speedMultiplier := by
  unfold resume
  split <;> rfl

theorem nowAt_resume (h : c.status = .paused) : nowAt (resume c t) t = nowAt c t := by
  have hc : c.status ≠ .running := by
    rw [h]
    decide
  rw [nowAt_running (resume_status h), nowAt_frozen hc, resume, if_neg fun hn => hn h, runningAt,
    sub_self, zero_mul, add_zero]

/-- The only failure is the constructor's own, and it leaves no new configuration. -/
theorem setSpeed_ok : (∃ d, setSpeed c m t = .ok d) ↔ 0 < m := by
  unfold setSpeed
  constructor
  · rintro ⟨d, h⟩
    by_contra hm
    rw [if_pos (not_lt.mp hm)] at h
    cases h
  · intro hm
    rw [if_neg (not_le.mpr hm)]
    split
    · exact ⟨_, rfl⟩
    · exact ⟨_, rfl⟩

theorem setSpeed_cases (h : setSpeed c m t = .ok d) : 0 < m ∧
    (c.status = .paused ∧ d = { c with speedMultiplier := m } ∨
      c.status ≠ .paused ∧ d = ⟨c.status, nowAt c t, t, none, m⟩) := by
  have hm := setSpeed_ok.mp ⟨d, h⟩
  refine ⟨hm, ?_⟩
  rw [setSpeed, if_neg (not_le.mpr hm)] at h
  by_cases hp : c.status = .paused
  · rw [if_pos hp] at h
    exact Or.inl ⟨hp, (Except.ok.inj h).symm⟩
  · rw [if_neg hp] at h
    exact Or.inr ⟨hp, (Except.ok.inj h).symm⟩

theorem setSpeed_status (h : setSpeed c m t = .ok d) : d.status = c.status := by
  obtain ⟨-, ⟨-, rfl⟩ | ⟨-, rfl⟩⟩ := setSpeed_cases h <;> rfl

theorem setSpeed_speed (h : setSpeed c m t = .ok d) : d.speedMultiplier = m := by
  obtain ⟨-, ⟨-, rfl⟩ | ⟨-, rfl⟩⟩ := setSpeed_cases h <;> rfl

/-- The rebase is the whole trick: a clock that is not paused reads the same just after the
change whatever status it is given. -/
theorem nowAt_setSpeed_rebased (st : SimStatus) (h : setSpeed c m t = .ok d)
    (hp : c.status ≠ .paused) : nowAt { d with status := st } t = nowAt c t := by
  obtain ⟨-, ⟨hc, -⟩ | ⟨-, rfl⟩⟩ := setSpeed_cases h
  · exact absurd hc hp
  · by_cases hr : st = .running
    · rw [nowAt_running hr, runningAt, sub_self, zero_mul, add_zero]
    · rw [nowAt_frozen hr]
      rfl

theorem nowAt_setSpeed (h : setSpeed c m t = .ok d) : nowAt d t = nowAt c t := by
  by_cases hp : c.status = .paused
  · obtain ⟨-, ⟨-, rfl⟩ | ⟨hc, -⟩⟩ := setSpeed_cases h
    · have hr : c.status ≠ .running := by
        rw [hp]
        decide
      exact (if_pos hr).trans (nowAt_frozen hr).symm
    · exact absurd hp hc
  · exact nowAt_setSpeed_rebased d.status h hp

end Readings

end VirtualClock
