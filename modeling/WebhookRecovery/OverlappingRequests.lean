import WebhookRecovery.ClockControl

/-! Control requests that overlap. A request reads the row, computes from what it read, and writes
later; others write in between. What it writes are the columns that it changed. -/
namespace OverlappingRequests

open RecoverySchema InterleavedPrograms ConductorPass VirtualClock
open ClockControl hiding State Event Enabled next Initial system

/-- A retirement is computed from a row that was read before, like a request. -/
inductive Request where
  | patch (body : SimulationPatch)
  | retire

/-- `stamp` is the instant a request takes for now. How often the clock's columns had been written
when the row was read is recorded on the side. -/
structure Pending where
  request : Request
  loaded : Simulation
  stamp : Option ℚ
  seen : ℕ

/-- The session writes a column if the request changed it. -/
def merged {α : Type} [DecidableEq α] (loaded wanted row : α) : α :=
  if wanted = loaded then row else wanted

def flush (loaded wanted row : Simulation) : Simulation where
  id := row.id
  status := merged loaded.status wanted.status row.status
  virtualEpoch := merged loaded.virtualEpoch wanted.virtualEpoch row.virtualEpoch
  resumedAtWall := merged loaded.resumedAtWall wanted.resumedAtWall row.resumedAtWall
  pausedAtVirtual := merged loaded.pausedAtVirtual wanted.pausedAtVirtual row.pausedAtVirtual
  speedMultiplier := merged loaded.speedMultiplier wanted.speedMultiplier row.speedMultiplier
  fairDrainEnabled := merged loaded.fairDrainEnabled wanted.fairDrainEnabled row.fairDrainEnabled
  globalAttemptsPerS :=
    merged loaded.globalAttemptsPerS wanted.globalAttemptsPerS row.globalAttemptsPerS
  outageOverride := merged loaded.outageOverride wanted.outageOverride row.outageOverride

def Pending.write (p : Pending) (atWall : ℚ) (row : Simulation) : Simulation :=
  match p.request with
  | .patch body =>
    match patchSimulation body atWall p.loaded with
    | .ok wanted => flush p.loaded wanted row
    | .error _ => row
  | .retire => retireRow (nowAt (fromRow p.loaded) atWall) row

structure State where
  sim : Simulation
  wall : ℚ
  pending : ℕ → Option Pending
  writes : ℕ

def State.reading (s : State) : ℚ := nowAt (fromRow s.sim) s.wall

inductive Event where
  | tick (d : ℚ)
  | load (k : ℕ) (request : Request)
  | stamp (k : ℕ)
  | commit (k : ℕ)
  | abandon (k : ℕ)

def Enabled (s : State) : Event → Prop
  | .tick d => 0 ≤ d
  | .load k (.patch _) => (s.pending k).isNone
  | .load k .retire => (s.pending k).isNone ∧ s.sim.status = .running
  | .stamp k => (s.pending k).any fun p => p.stamp.isNone
  | .commit k => (s.pending k).any fun p => p.stamp.isSome
  | .abandon _ => True

instance (s : State) : DecidablePred (Enabled s)
  | .tick d => inferInstanceAs (Decidable (0 ≤ d))
  | .load k (.patch _) => inferInstanceAs (Decidable ((s.pending k).isNone = true))
  | .load k .retire =>
    inferInstanceAs (Decidable ((s.pending k).isNone = true ∧ s.sim.status = .running))
  | .stamp k => inferInstanceAs (Decidable (((s.pending k).any fun p => p.stamp.isNone) = true))
  | .commit k => inferInstanceAs (Decidable (((s.pending k).any fun p => p.stamp.isSome) = true))
  | .abandon _ => inferInstanceAs (Decidable True)

def State.put (s : State) (k : ℕ) (row : Simulation) : State where
  sim := row
  wall := s.wall
  pending := Function.update s.pending k none
  writes := if fromRow row = fromRow s.sim then s.writes else s.writes + 1

def next (s : State) : Event → State
  | .tick d => { s with wall := s.wall + d }
  | .load k request =>
    { s with pending := Function.update s.pending k (some ⟨request, s.sim, none, s.writes⟩) }
  | .stamp k =>
    let stamped := (s.pending k).map fun p => { p with stamp := some s.wall }
    { s with pending := Function.update s.pending k stamped }
  | .commit k =>
    match s.pending k with
    | none => s
    | some p =>
      match p.stamp with
      | none => s
      | some atWall => s.put k (p.write atWall s.sim)
  | .abandon k => { s with pending := Function.update s.pending k none }

def Initial (cfg : Settings) (s : State) : Prop :=
  (∃ id body, createSimulation cfg id body s.wall = .ok s.sim) ∧ s.pending = (fun _ => none)

def system (cfg : Settings) : System State Event := .guarded (Initial cfg) Enabled next

section Columns

variable {α : Type} [DecidableEq α] {l w r : α}

theorem merged_same (h : w = l) : merged l w r = r := if_pos h

theorem merged_changed (h : w ≠ l) : merged l w r = w := if_neg h

theorem merged_fresh (h : r = l) : merged l w r = w := by
  by_cases hw : w = l
  · rw [merged_same hw, h, hw]
  · exact merged_changed hw

/-- Over the row that was read, the write is all that the request wants of the clock. -/
theorem fromRow_flush_fresh {loaded wanted row : Simulation} (h : fromRow row = fromRow loaded) :
    fromRow (flush loaded wanted row) = fromRow wanted := by
  obtain ⟨hst, hep, hre, hpa, hsp⟩ := SimulationClockConfig.mk.inj h
  simp only [fromRow, flush, merged_fresh hst, merged_fresh hep, merged_fresh hre,
    merged_fresh hpa, merged_fresh hsp]

theorem fromRow_flush_same {loaded wanted row : Simulation} (h : fromRow wanted = fromRow loaded) :
    fromRow (flush loaded wanted row) = fromRow row := by
  obtain ⟨hst, hep, hre, hpa, hsp⟩ := SimulationClockConfig.mk.inj h
  simp only [fromRow, flush, merged_same hst, merged_same hep, merged_same hre,
    merged_same hpa, merged_same hsp]

end Columns

/-- A setting that a request may name: what it asks for, and what a retirement makes of it. -/
structure Setting (α : Type) [DecidableEq α] where
  get : Simulation → α
  asks : SimulationPatch → Option α
  retired : Option α
  get_flush : ∀ loaded wanted row,
    get (flush loaded wanted row) = merged (get loaded) (get wanted) (get row)
  get_patched : ∀ {body atWall loaded wanted}, patchSimulation body atWall loaded = .ok wanted →
    get wanted = (asks body).getD (get loaded)
  get_retired : ∀ now row, get (retireRow now row) = retired.getD (get row)

section Settings

variable {body : SimulationPatch} {atWall : ℚ} {loaded wanted : Simulation}

theorem patched_parts (h : patchSimulation body atWall loaded = .ok wanted) :
    ∃ config, respeed body atWall (restatus body atWall loaded) = .ok config ∧
      wanted = overlay body config loaded := by
  simp only [patchSimulation, bind, Except.bind] at h
  split at h
  · cases h
  · rename_i config hconfig
    split at h
    · cases h
    · exact ⟨config, hconfig, (Except.ok.inj h).symm⟩

theorem respeed_speed {c d : SimulationClockConfig} (h : respeed body atWall c = .ok d) :
    d.speedMultiplier = (body.speedMultiplier.map Subtype.val).getD c.speedMultiplier := by
  unfold respeed at h
  split at h
  · rename_i hb
    rw [← Except.ok.inj h, hb]
    rfl
  · rename_i m hb
    rw [hb]
    split at h
    · exact setSpeed_speed h
    · rename_i heq
      rw [← Except.ok.inj h]
      exact (not_not.mp heq).symm

def speedSetting : Setting ℚ where
  get := Simulation.speedMultiplier
  asks body := body.speedMultiplier.map Subtype.val
  retired := none
  get_flush _ _ _ := rfl
  get_patched h := by
    obtain ⟨config, hconfig, rfl⟩ := patched_parts h
    simp only [overlay]
    rw [respeed_speed hconfig, restatus_speed]
  get_retired _ _ := rfl

def fairDrainSetting : Setting Bool where
  get := Simulation.fairDrainEnabled
  asks := SimulationPatch.fairDrainEnabled
  retired := none
  get_flush _ _ _ := rfl
  get_patched h := by
    obtain ⟨config, -, rfl⟩ := patched_parts h
    rfl
  get_retired _ _ := rfl

def rateSetting : Setting ℚ where
  get := Simulation.globalAttemptsPerS
  asks body := body.globalAttemptsPerS.map Subtype.val
  retired := none
  get_flush _ _ _ := rfl
  get_patched h := by
    obtain ⟨config, -, rfl⟩ := patched_parts h
    rfl
  get_retired _ _ := rfl

def overrideSetting : Setting (Option Bool) where
  get := Simulation.outageOverride
  asks body := body.outageOverride.map some
  retired := none
  get_flush _ _ _ := rfl
  get_patched h := by
    rename_i body atWall loaded wanted
    obtain ⟨config, -, rfl⟩ := patched_parts h
    simp only [overlay]
    cases body.outageOverride with
    | none => rfl
    | some b => rfl
  get_retired _ _ := rfl

end Settings

section Runs

variable {cfg : Settings} {s t u : State} {e : Event} {k : ℕ} {p : Pending}

theorem enabled_commit (h : Enabled s (.commit k)) :
    ∃ p a, s.pending k = some p ∧ p.stamp = some a := by
  obtain ⟨p, hp, hst⟩ := (Option.any_eq_true _ _).mp h
  obtain ⟨a, ha⟩ := Option.isSome_iff_exists.mp hst
  exact ⟨p, a, hp, ha⟩

theorem next_commit {a : ℚ} (hp : s.pending k = some p) (ha : p.stamp = some a) :
    next s (.commit k) = s.put k (p.write a s.sim) := by
  simp only [next, hp, ha]

theorem step_pending (hs : (system cfg).step s e t) {j : ℕ} (hp : t.pending j = some p) :
    s.pending j = some p ∨
    (∃ q, s.pending j = some q ∧ e = .stamp j ∧ p = { q with stamp := some s.wall }) ∨
    ∃ request, e = .load j request ∧ p = ⟨request, s.sim, none, s.writes⟩ := by
  obtain ⟨hen, rfl⟩ := hs
  have kept : ∀ i, Function.update s.pending i none j = some p → s.pending j = some p := by
    intro i hi
    by_cases hj : j = i
    · subst hj
      rw [Function.update_self] at hi
      cases hi
    · rwa [Function.update_of_ne hj] at hi
  cases e with
  | tick d => exact Or.inl hp
  | load i request =>
    by_cases hj : j = i
    · subst hj
      simp only [next, Function.update_self] at hp
      exact Or.inr (Or.inr ⟨request, rfl, (Option.some.inj hp).symm⟩)
    · simp only [next, Function.update_of_ne hj] at hp
      exact Or.inl hp
  | stamp i =>
    by_cases hj : j = i
    · subst hj
      simp only [next, Function.update_self] at hp
      obtain ⟨q, hq, rfl⟩ := Option.map_eq_some_iff.mp hp
      exact Or.inr (Or.inl ⟨q, hq, rfl, rfl⟩)
    · simp only [next, Function.update_of_ne hj] at hp
      exact Or.inl hp
  | commit i =>
    obtain ⟨q, a, hq, ha⟩ := enabled_commit hen
    rw [next_commit hq ha] at hp
    exact Or.inl (kept i hp)
  | abandon i => exact Or.inl (kept i hp)

theorem step_sim (hs : (system cfg).step s e t) :
    (t.sim = s.sim ∧ t.writes = s.writes ∧ ∀ k, e ≠ .commit k) ∨
    ∃ k p a, e = .commit k ∧ s.pending k = some p ∧ p.stamp = some a ∧
      t = s.put k (p.write a s.sim) := by
  obtain ⟨hen, rfl⟩ := hs
  cases e with
  | commit k =>
    obtain ⟨p, a, hp, ha⟩ := enabled_commit hen
    exact Or.inr ⟨k, p, a, rfl, hp, ha, next_commit hp ha⟩
  | tick | load | stamp | abandon => exact Or.inl ⟨rfl, rfl, fun _ h => nomatch h⟩

theorem step_wall (hs : (system cfg).step s e t) : s.wall ≤ t.wall := by
  rcases step_sim hs with - | ⟨k, p, a, -, -, -, rfl⟩
  · obtain ⟨hen, rfl⟩ := hs
    cases e with
    | tick d => exact le_add_of_nonneg_right hen
    | commit k =>
      obtain ⟨p, a, hp, ha⟩ := enabled_commit hen
      rw [next_commit hp ha]
      exact le_rfl
    | load | stamp | abandon => exact le_rfl
  · exact le_rfl

/-- What a run keeps: speeds are positive, a request does not look ahead, and one that was read
since the clock was last written has read the clock as it is. -/
structure Sound (s : State) : Prop where
  speed : 0 < s.sim.speedMultiplier
  loaded : ∀ k p, s.pending k = some p → 0 < p.loaded.speedMultiplier
  stamped : ∀ k p a, s.pending k = some p → p.stamp = some a → a ≤ s.wall
  seen : ∀ k p, s.pending k = some p → p.seen ≤ s.writes
  fresh : ∀ k p, s.pending k = some p → p.seen = s.writes → fromRow p.loaded = fromRow s.sim

theorem write_speed {a : ℚ} (hp : 0 < p.loaded.speedMultiplier) {row : Simulation}
    (hr : 0 < row.speedMultiplier) : 0 < (p.write a row).speedMultiplier := by
  unfold Pending.write
  split
  · rename_i body _
    obtain ⟨wanted, hok, hpos, -⟩ := patch_spec hp body a
    rw [hok]
    simp only [flush, merged]
    split
    · exact hr
    · exact hpos
  · exact hr

theorem step_sound (h : Sound s) (hs : (system cfg).step s e t) : Sound t := by
  have hwall := step_wall hs
  have old : ∀ {j q}, t.pending j = some q → ∃ r, (s.pending j = some r ∨ r = ⟨q.request, s.sim,
      none, s.writes⟩) ∧ q.loaded = r.loaded ∧ q.seen = r.seen := by
    intro j q hq
    rcases step_pending hs hq with hq | ⟨r, hr, -, rfl⟩ | ⟨request, -, rfl⟩
    · exact ⟨q, Or.inl hq, rfl, rfl⟩
    · exact ⟨r, Or.inl hr, rfl, rfl⟩
    · exact ⟨_, Or.inr rfl, rfl, rfl⟩
  have hwrites : s.writes ≤ t.writes ∧ (t.writes = s.writes → fromRow t.sim = fromRow s.sim) := by
    rcases step_sim hs with ⟨hsim, hw, -⟩ | ⟨k, p, a, -, -, -, rfl⟩
    · rw [hsim, hw]
      exact ⟨le_rfl, fun _ => rfl⟩
    · by_cases hf : fromRow (p.write a s.sim) = fromRow s.sim
      · simp only [State.put, if_pos hf]
        exact ⟨le_rfl, fun _ => hf⟩
      · simp only [State.put, if_neg hf]
        exact ⟨Nat.le_succ _, fun hw => absurd hw (Nat.succ_ne_self _)⟩
  refine ⟨?_, fun j q hq => ?_, fun j q a hq ha => ?_, fun j q hq => ?_, fun j q hq hseen => ?_⟩
  · rcases step_sim hs with ⟨hsim, -, -⟩ | ⟨k, p, a, -, hp, -, rfl⟩
    · rw [hsim]
      exact h.speed
    · exact write_speed (h.loaded k p hp) h.speed
  · obtain ⟨r, hr | rfl, hl, -⟩ := old hq
    · exact hl ▸ h.loaded j r hr
    · exact hl ▸ h.speed
  · rcases step_pending hs hq with hq | ⟨r, hr, -, rfl⟩ | ⟨request, -, rfl⟩
    · exact (h.stamped j q a hq ha).trans hwall
    · obtain rfl := Option.some.inj ha
      exact hwall
    · cases ha
  · obtain ⟨r, hr | rfl, -, hseen⟩ := old hq
    · rw [hseen]
      exact (h.seen j r hr).trans hwrites.1
    · rw [hseen]
      exact hwrites.1
  · obtain ⟨r, hr | rfl, hl, hrs⟩ := old hq
    · have hle := h.seen j r hr
      rw [hrs] at hseen
      have hsame : t.writes = s.writes := le_antisymm (hseen ▸ hle) hwrites.1
      rw [hl, h.fresh j r hr (hseen.trans hsame), hwrites.2 hsame]
    · have hsame : t.writes = s.writes := hseen.symm.trans hrs
      rw [hl, hwrites.2 hsame]

theorem reachable_sound (h : (system cfg).Reachable s) : Sound s := by
  apply h.invariant (P := Sound)
  · rintro s ⟨hcreated, hnone⟩
    have hspeed : 0 < s.sim.speedMultiplier :=
      initial_speed (s := ⟨s.sim, s.wall⟩) hcreated
    refine ⟨hspeed, ?_, ?_, ?_, ?_⟩
    all_goals
      intro k p
      rw [hnone]
      intros
      contradiction
  · exact fun _ _ _ _ hs he => step_sound hs he

end Runs

section Settled

variable {α : Type} [DecidableEq α] {cfg : Settings} {f : Setting α} {s t u : State} {e : Event}
variable {k : ℕ} {p : Pending}

def Request.names (f : Setting α) : Request → Bool
  | .patch body => (f.asks body).isSome
  | .retire => f.retired.isSome

def Names (f : Setting α) (s : State) : Event → Prop
  | .commit k => ∃ p, s.pending k = some p ∧ p.request.names f = true
  | _ => False

end Settled

section Clock

variable {cfg : Settings} {s t : State} {e : Event} {k : ℕ} {p : Pending} {latency speed h : ℚ}

def Request.timed : Request → Bool
  | .patch body => body.status.isSome || body.speedMultiplier.isSome
  | .retire => true

/-- A commit that changes the clock: nobody else has since the request read the row, and the request
was stamped not long ago, at no high speed, and does not revive a finished run. -/
structure Prompt (latency speed : ℚ) (s : State) (p : Pending) : Prop where
  fresh : p.seen = s.writes
  soon : ∀ a ∈ p.stamp, s.wall - a ≤ latency
  slow : p.loaded.speedMultiplier ≤ speed
  live : ∀ body, p.request = .patch body → ∀ a ∈ p.stamp, ¬ Jumps body p.loaded a

def Orderly (latency speed : ℚ) (s : State) : Event → Prop
  | .commit k => ∀ p a, s.pending k = some p → p.stamp = some a →
    fromRow (p.write a s.sim) ≠ fromRow s.sim → Prompt latency speed s p
  | _ => True

theorem restatus_untouched {body : SimulationPatch} {a : ℚ} {sim : Simulation}
    (hb : body.status = none) : restatus body a sim = fromRow sim := by
  rw [restatus, hb]

/-- A request about other settings leaves the clock alone. -/
theorem write_untimed {a : ℚ} {row : Simulation} (ht : p.request.timed = false) :
    fromRow (p.write a row) = fromRow row := by
  unfold Pending.write
  split
  · rename_i body hreq
    rw [hreq] at ht
    simp only [Request.timed, Bool.or_eq_false_iff, Option.isSome_eq_false_iff,
      Option.isNone_iff_eq_none] at ht
    split
    · rename_i wanted hok
      obtain ⟨config, hconfig, rfl⟩ := patched_parts hok
      rw [restatus_untouched ht.1, respeed, ht.2] at hconfig
      obtain rfl := Except.ok.inj hconfig
      apply fromRow_flush_same
      rw [fromRow_overlay, ht.1]
      rfl
    · rfl
  · rename_i hreq
    rw [hreq] at ht
    cases ht

/-- So it is in order however late it comes, and whatever it has read. -/
theorem orderly_untimed (hp : s.pending k = some p) (ht : p.request.timed = false) :
    Orderly latency speed s (.commit k) := by
  intro q a hq _ hne
  rw [hp] at hq
  obtain rfl := Option.some.inj hq
  exact absurd (write_untimed ht) hne

theorem write_reading {a wall : ℚ} {row : Simulation} (hl : 0 < p.loaded.speedMultiplier)
    (hrow : fromRow p.loaded = fromRow row) (ha : a ≤ wall)
    (hj : ∀ body, p.request = .patch body → ¬ Jumps body p.loaded a) :
    nowAt (fromRow p.loaded) a ≤ nowAt (fromRow (p.write a row)) wall := by
  unfold Pending.write
  split
  · rename_i body hreq
    obtain ⟨wanted, hok, hpos, hiff⟩ := patch_spec hl body a
    rw [hok]
    simp only
    rw [fromRow_flush_fresh hrow.symm]
    calc nowAt (fromRow p.loaded) a = nowAt (fromRow wanted) a := (hiff.mpr (hj body hreq)).symm
      _ ≤ nowAt (fromRow wanted) wall := nowAt_mono (c := fromRow wanted) hpos ha
  · rw [nowAt_retireRow]

theorem nowAt_gain {c : SimulationClockConfig} {a wall : ℚ} (hc : 0 < c.speedMultiplier)
    (hs : c.speedMultiplier ≤ speed) (hl : wall - a ≤ latency) (ha : a ≤ wall)
    (h0 : 0 ≤ latency) : nowAt c wall ≤ nowAt c a + latency * speed := by
  have hgain : (wall - a) * c.speedMultiplier ≤ latency * speed :=
    mul_le_mul hl hs hc.le h0
  by_cases hr : c.status = .running
  · rw [nowAt_running hr, nowAt_running hr, runningAt, runningAt]
    linarith
  · rw [nowAt_frozen hr, nowAt_frozen hr]
    have : 0 ≤ (wall - a) * c.speedMultiplier := mul_nonneg (sub_nonneg.mpr ha) hc.le
    linarith

/-- How far back the clock may still be set: `h` was read once, and every request that has read the
clock as it is and is stamped was stamped with it, or the clock is past it by now. -/
structure Above (latency speed h : ℚ) (s : State) : Prop where
  reading : h ≤ s.reading + latency * speed
  stamped : ∀ k p a, s.pending k = some p → p.stamp = some a → p.seen = s.writes →
    h ≤ max (nowAt (fromRow p.loaded) a + latency * speed) s.reading

/-- A commit takes back no more than a request takes to get from its stamp to its commit. -/
theorem commit_above (hsound : Sound s) (h0 : 0 ≤ latency) (hab : Above latency speed h s) {a : ℚ}
    (hp : s.pending k = some p) (ha : p.stamp = some a) (hprompt : Prompt latency speed s p) :
    h ≤ nowAt (fromRow (p.write a s.sim)) s.wall + latency * speed := by
  have hread : fromRow p.loaded = fromRow s.sim := hsound.fresh k p hp hprompt.fresh
  have hpast := hsound.stamped k p a hp ha
  have hspeed := hsound.loaded k p hp
  have hgain : s.reading ≤ nowAt (fromRow p.loaded) a + latency * speed := by
    rw [State.reading, ← hread]
    exact nowAt_gain (c := fromRow p.loaded) hspeed hprompt.slow (hprompt.soon a ha) hpast h0
  have hkept : nowAt (fromRow p.loaded) a ≤ nowAt (fromRow (p.write a s.sim)) s.wall :=
    write_reading hspeed hread hpast fun body hb => hprompt.live body hb a ha
  calc h ≤ max (nowAt (fromRow p.loaded) a + latency * speed) s.reading :=
        hab.stamped k p a hp ha hprompt.fresh
    _ ≤ nowAt (fromRow p.loaded) a + latency * speed := max_le le_rfl hgain
    _ ≤ nowAt (fromRow (p.write a s.sim)) s.wall + latency * speed := by linarith

theorem step_above (hsound : Sound s) (h0 : 0 ≤ latency) (hc : Orderly latency speed s e)
    (hs : (system cfg).step s e t) (hab : Above latency speed h s) : Above latency speed h t := by
  rcases step_sim hs with ⟨hsim, hw, hno⟩ | ⟨k, p, a, rfl, hp, ha, rfl⟩
  · have hon : s.reading ≤ t.reading := by
      rw [State.reading, State.reading, hsim]
      exact nowAt_mono (c := fromRow s.sim) hsound.speed (step_wall hs)
    refine ⟨hab.reading.trans (by linarith), fun j q a hq ha hseen => ?_⟩
    rw [hw] at hseen
    rcases step_pending hs hq with hq | ⟨r, hr, -, rfl⟩ | ⟨request, -, rfl⟩
    · exact (hab.stamped j q a hq ha hseen).trans (max_le_max le_rfl hon)
    · obtain rfl := Option.some.inj ha
      have hread : fromRow r.loaded = fromRow s.sim := hsound.fresh j r hr hseen
      apply le_max_of_le_left
      rw [show nowAt (fromRow r.loaded) s.wall = s.reading by rw [hread]; rfl]
      exact hab.reading
    · cases ha
  have old : ∀ {j q}, (s.put k (p.write a s.sim)).pending j = some q → s.pending j = some q := by
    intro j q hq
    by_cases hj : j = k
    · subst hj
      simp [State.put] at hq
    · simpa only [State.put, Function.update_of_ne hj] using hq
  by_cases hf : fromRow (p.write a s.sim) = fromRow s.sim
  · have hsame : (s.put k (p.write a s.sim)).reading = s.reading := by
      simp only [State.reading, State.put, hf]
    have hwrites : (s.put k (p.write a s.sim)).writes = s.writes := if_pos hf
    refine ⟨hsame ▸ hab.reading, fun j q b hq hb hseen => ?_⟩
    rw [hsame]
    exact hab.stamped j q b (old hq) hb (hseen.trans hwrites)
  · have hwrites : (s.put k (p.write a s.sim)).writes = s.writes + 1 := if_neg hf
    refine ⟨commit_above hsound h0 hab hp ha (hc p a hp ha hf), fun j q b hq _ hseen => ?_⟩
    have hle := hsound.seen j q (old hq)
    rw [hseen, hwrites] at hle
    exact absurd hle (Nat.not_succ_le_self _)

/-- Requests overlap in any number. If those that write the clock do not write over each other, each
within the latency of its stamp, at no more than a speed, and none of them revives a finished run,
then the clock is never set back by more than one latency, taken at that speed, in the whole
run. -/
theorem clock_set_back (cfg : Settings) (hr : (system cfg).Reachable s) (h0 : 0 ≤ latency)
    (hspeed : 0 ≤ speed)
    (hx : ((system cfg).restrict (Orderly latency speed)).Execution s t) :
    s.reading ≤ t.reading + latency * speed := by
  have hnone : 0 ≤ latency * speed := mul_nonneg h0 hspeed
  have hsound := reachable_sound hr
  have hstart : Above latency speed s.reading s := by
    refine ⟨by linarith, fun k p a _ _ _ => le_max_right _ _⟩
  have hrun : (system cfg).Reachable t ∧ Above latency speed s.reading t := by
    induction hx with
    | refl => exact ⟨hr, hstart⟩
    | tail _ he ih =>
      obtain ⟨e, hc, he⟩ := he
      obtain ⟨hr, hab⟩ := ih
      exact ⟨hr.tail he, step_above (reachable_sound hr) h0 hc he hab⟩
  exact hrun.2.reading

end Clock

section Once

def fresh : State := ⟨created, 0, fun _ => none, 0⟩

theorem fresh_initial : Initial shipped fresh := ⟨⟨1, {}, by decide +kernel⟩, rfl⟩

def pauseIt : Request := .patch { status := some .paused }

def goFifo : Request := .patch { fairDrainEnabled := some false }

def both : State :=
  [.load 0 goFifo, .load 1 pauseIt, .stamp 0, .stamp 1].foldl next fresh

theorem both_reachable : (system shipped).Reachable both := by
  have hinit : (system shipped).Reachable fresh := .initial fresh_initial
  have hload : (system shipped).Reachable (next fresh (.load 0 goFifo)) :=
    hinit.tail (e := .load 0 goFifo) ⟨by decide +kernel, rfl⟩
  have hloads : (system shipped).Reachable
      (next (next fresh (.load 0 goFifo)) (.load 1 pauseIt)) :=
    hload.tail (e := .load 1 pauseIt) ⟨by decide +kernel, rfl⟩
  have hstamp : (system shipped).Reachable
      (next (next (next fresh (.load 0 goFifo)) (.load 1 pauseIt)) (.stamp 0)) :=
    hloads.tail (e := .stamp 0) ⟨by decide +kernel, rfl⟩
  exact hstamp.tail (e := .stamp 1) ⟨by decide +kernel, rfl⟩

def late : State := next both (.tick (1 / 10))

def toggled : State := next late (.commit 0)

/-- A pause that is stamped at 0 and committed when the clock reads 2, after the toggle. -/
theorem clock_set_back_once : late.reading = 2 ∧ (next toggled (.commit 1)).reading = 0 ∧
    late.reading ≤ (next toggled (.commit 1)).reading + 1 / 10 * 20 := by
  have hlate : (system shipped).Reachable late :=
    both_reachable.tail (e := .tick (1 / 10)) ⟨by decide +kernel, rfl⟩
  have htoggle : Orderly (1 / 10) 20 late (.commit 0) :=
    orderly_untimed (p := ⟨goFifo, created, some 0, 0⟩) rfl rfl
  have hpause : Orderly (1 / 10) 20 toggled (.commit 1) := by
    intro p a hp ha _
    have hp : some (⟨pauseIt, created, some 0, 0⟩ : Pending) = some p := hp
    obtain rfl := Option.some.inj hp
    refine ⟨by decide +kernel, fun a ha => ?_, by decide +kernel, fun body hb a _ => ?_⟩
    · obtain rfl := Option.some.inj ha
      decide +kernel
    · exact not_jumps_of_live (by decide)
  have hx : ((system shipped).restrict (Orderly (1 / 10) 20)).Execution late
      (next toggled (.commit 1)) :=
    (Relation.ReflTransGen.single ⟨.commit 0, htoggle, by decide +kernel, rfl⟩).tail
      ⟨.commit 1, hpause, by decide +kernel, rfl⟩
  exact ⟨by decide +kernel, by decide +kernel,
    clock_set_back shipped hlate (by norm_num) (by norm_num) hx⟩

end Once

end OverlappingRequests
