import WebhookRecovery.ProcessRegistry
import WebhookRecovery.PipelineInvariant

/-! The processes of a deployment around the pipeline. Each registers, heartbeats, runs its loop
body until it is told to stop, and drains. A kill is a flag on its row, which it reads back with a
heartbeat and acts on where its loop body says. -/
namespace ProcessRunner

open RecoverySchema InterleavedPrograms WorkerClaim DeliveryPipeline PipelineInvariant
open ProcessRegistry DeliveryFile

/-- For how long, and how often, a booting process tries to register. -/
def REGISTER_TIMEOUT_S : ℚ := 120
def REGISTER_RETRY_INITIAL_S : ℚ := 1 / 2
def REGISTER_RETRY_MAX_S : ℚ := 5

def ERROR_BACKOFF_S : ℚ := 1

/-- How long a worker that was asked to die holds out for a batch. -/
def CRASH_GRACE_S : ℚ := 5

/-- Where a process is in `run`. After the loop it is `draining`, until its row is aged out. -/
inductive Phase where
  | absent
  | registering (delay deadline wakeAt : ℚ)
  | waiting (wakeAt : ℚ)
  | iterating
  | draining
  | stopped
  | gaveUp
  | dead
  deriving DecidableEq, Repr

def Phase.isWaiting : Phase → Bool
  | .waiting _ => true
  | _ => false

def Phase.live : Phase → Bool
  | .registering .. | .waiting _ | .iterating | .draining => true
  | .absent | .stopped | .gaveUp | .dead => false

/-- `heartbeat_loop`: the leader flag that a write in flight carries was read when it was sent. -/
inductive Beat where
  | off
  | resting
  | sent (isLeader : Bool)
  deriving DecidableEq, Repr

def Beat.inFlight : Beat → Bool
  | .sent _ => true
  | _ => false

/-- The monotonic clock of the process is that of `wakeAt`, `deadline` and `crashSeenAt`. -/
structure Runner where
  boot : Boot
  phase : Phase
  beat : Beat := .off
  stop : Bool := false
  crash : Bool := false
  isLeader : Bool := false
  crashSeenAt : Option ℚ := none
  deriving DecidableEq, Repr

def defaultIntervalS (cfg : ProcessSettings) : ProcessKind → ℚ
  | .conductor => cfg.conductorLoopIntervalS
  | .worker => cfg.workerLoopIntervalS

def Runner.die (r : Runner) : Runner := { r with phase := .dead, beat := .off }

/-- A failed try: `raise` past the deadline or on a stop, else a longer wait. -/
def Runner.retryRegister (r : Runner) (mono : ℚ) : Runner :=
  match r.phase with
  | .registering delay deadline _ =>
    if deadline ≤ mono ∨ r.stop then { r with phase := .gaveUp }
    else { r with
      phase := .registering (min (delay * 2) REGISTER_RETRY_MAX_S) deadline (mono + delay) }
  | _ => r

def Runner.honourCrashRequest (r : Runner) (stranding : Bool) (mono : ℚ) : Runner :=
  if !r.crash then { r with crashSeenAt := none }
  else if stranding then r.die
  else match r.crashSeenAt with
    | none => { r with crashSeenAt := some mono }
    | some seen => if CRASH_GRACE_S ≤ mono - seen then r.die else r

/-- One step of one process. `claimed` says if there is a batch to strand, and `landed` what a
heartbeat brought back. -/
inductive Turn where
  | start (boot : Boot) (mono : ℚ)
  | registered (mono : ℚ)
  | unregistered (mono : ℚ)
  | beat
  | landed (crash : Bool)
  | missed
  | signalled
  | began (mono : ℚ)
  | marked (value : Bool)
  | claimed (stranding : Bool) (mono : ℚ)
  | completed
  | failed (mono : ℚ)
  | finished (mono : ℚ)
  | drained
  | deregistered
  deriving DecidableEq, Repr

/-- A wait ends when its time is up, or at once on a stop. -/
def Runner.Ready (r : Runner) : Turn → Bool
  | .start .. => r.phase == .absent
  | .registered mono | .unregistered mono =>
    match r.phase with
    | .registering _ _ wakeAt => decide (wakeAt ≤ mono) || r.stop
    | _ => false
  | .beat => r.beat == .resting && !r.stop
  | .landed _ | .missed => r.beat.inFlight
  | .signalled => r.phase.live
  | .began mono =>
    match r.phase with
    | .waiting wakeAt => decide (wakeAt ≤ mono) && !r.stop
    | _ => false
  | .marked _ => r.phase == .iterating && r.boot.kind == .conductor
  | .claimed .. | .completed => r.phase == .iterating && r.boot.kind == .worker
  | .failed _ | .finished _ => r.phase == .iterating
  | .drained => r.phase.isWaiting && r.stop
  | .deregistered => r.phase == .draining

def Runner.turn (cfg : ProcessSettings) (r : Runner) : Turn → Runner
  | .start boot mono =>
    { boot := boot
      phase := .registering REGISTER_RETRY_INITIAL_S (mono + REGISTER_TIMEOUT_S) mono }
  | .registered mono => { r with phase := .waiting mono, beat := .resting }
  | .unregistered mono => r.retryRegister mono
  | .beat => { r with beat := .sent r.isLeader }
  | .landed crash => { r with beat := .resting, crash := r.crash || crash }
  | .missed => { r with beat := .resting }
  | .signalled => { r with stop := true }
  | .began _ =>
    -- a conductor looks before its pass, a worker with a batch in hand
    if r.boot.kind == .conductor && r.crash then r.die else { r with phase := .iterating }
  | .marked value => { r with isLeader := value }
  | .claimed stranding mono => if stranding then r.honourCrashRequest true mono else r
  | .completed => r
  | .failed mono =>
    { r with phase := .waiting (mono + max (defaultIntervalS cfg r.boot.kind) ERROR_BACKOFF_S) }
  | .finished mono =>
    let r := if r.boot.kind == .worker then r.honourCrashRequest false mono else r
    if r.phase == .dead then r
    else { r with phase := .waiting (mono + defaultIntervalS cfg r.boot.kind) }
  | .drained => { r with phase := .draining, beat := .off }
  | .deregistered => { r with phase := .stopped }

structure Fleet where
  pipe : State
  registry : Registry
  runners : WorkerId → Runner

def Runner.absent : Runner := ⟨⟨.worker, "", 0⟩, .absent, .off, false, false, false, none⟩

def initialFleet (cast : Cast) (simulations : List Simulation) : Fleet :=
  ⟨initial cast simulations, .empty, fun _ => .absent⟩

/-- `reached` says if the database answered; `other` is what is none of a worker's doing. -/
inductive Event where
  | start (p : WorkerId) (boot : Boot) (mono : ℚ)
  | register (p : WorkerId) (wall mono : ℚ) (reached : Bool)
  | beat (p : WorkerId)
  | land (p : WorkerId) (wall : ℚ)
  | miss (p : WorkerId)
  | kill (p : WorkerId) (wall : ℚ)
  | signal (p : WorkerId)
  | begin (p : WorkerId) (mono : ℚ)
  | markLeader (p : WorkerId) (value : Bool)
  | claim (p : WorkerId) (simulationId : SimulationId) (now : ℚ) (locked : ℕ → Bool)
      (scan : ScanOrder) (mono : ℚ)
  | complete (p : WorkerId) (results : List AttemptResult) (now : ℚ)
  | fail (p : WorkerId) (mono : ℚ)
  | finish (p : WorkerId) (mono : ℚ)
  | drain (p : WorkerId)
  | deregister (p : WorkerId) (wall : ℚ) (reached : Bool)
  | other (a : Action)

def isWorkers : Action → Bool
  | .claim .. | .complete .. | .abandon _ => true
  | _ => false

def actionOf : Event → Option Action
  | .claim p sim now locked scan _ => some (.claim p sim now locked scan)
  | .complete p results now => some (.complete p results now)
  | .fail p _ => some (.abandon p)
  | .other a => some a
  | _ => none

def nextPipe (cfg : Settings) (s : Fleet) (e : Event) : State :=
  match actionOf e with
  | some a => next cfg s.pipe a
  | none => s.pipe

def nextRegistry (pcfg : ProcessSettings) (s : Fleet) : Event → Registry
  | .register p wall _ reached =>
    if reached then (registerProcess pcfg p (s.runners p).boot wall s.registry).getD s.registry
    else s.registry
  | .land p wall =>
    match (s.runners p).beat with
    | .sent isLeader => (heartbeat p isLeader wall s.registry).2
    | _ => s.registry
  | .kill p wall =>
    match killProcess p wall s.pipe.db s.registry with
    | .ok r => r.2
    | .error _ => s.registry
  | .deregister p wall reached =>
    if reached then deregisterProcess pcfg p wall s.registry else s.registry
  | _ => s.registry

def turnOf (cfg : Settings) (pcfg : ProcessSettings) (s : Fleet) : Event → Option (WorkerId × Turn)
  | .start p boot mono => some (p, .start boot mono)
  | .register p wall mono reached =>
    some (p, if reached ∧ (registerProcess pcfg p (s.runners p).boot wall s.registry).isSome then
      .registered mono else .unregistered mono)
  | .beat p => some (p, .beat)
  | .land p wall => some (p, .landed (heartbeat p false wall s.registry).1)
  | .miss p => some (p, .missed)
  | .signal p => some (p, .signalled)
  | .begin p mono => some (p, .began mono)
  | .markLeader p value => some (p, .marked value)
  | .claim p sim now locked scan mono =>
    some (p, .claimed ((next cfg s.pipe (.claim p sim now locked scan)).batches p).isSome mono)
  | .complete p _ _ => some (p, .completed)
  | .fail p mono => some (p, .failed mono)
  | .finish p mono => some (p, .finished mono)
  | .drain p => some (p, .drained)
  | .deregister p _ _ => some (p, .deregistered)
  | .kill .. | .other _ => none

def nextRunners (cfg : Settings) (pcfg : ProcessSettings) (s : Fleet) (e : Event) :
    WorkerId → Runner :=
  match turnOf cfg pcfg s e with
  | some (p, τ) => Function.update s.runners p ((s.runners p).turn pcfg τ)
  | none => s.runners

def nextFleet (cfg : Settings) (pcfg : ProcessSettings) (s : Fleet) (e : Event) : Fleet :=
  ⟨nextPipe cfg s e, nextRegistry pcfg s e, nextRunners cfg pcfg s e⟩

/-- An iteration ends with no batch in hand, unless it fails. -/
def EnabledFleet (cfg : Settings) (pcfg : ProcessSettings) (s : Fleet) (e : Event) : Prop :=
  (∀ a ∈ actionOf e, Enabled s.pipe a) ∧
  (∀ x ∈ turnOf cfg pcfg s e, (s.runners x.1).Ready x.2 = true) ∧
  match e with
  | .finish p _ => s.pipe.batches p = none
  | .other a => isWorkers a = false
  | _ => True

instance (cfg : Settings) (pcfg : ProcessSettings) (s : Fleet) :
    DecidablePred (EnabledFleet cfg pcfg s) := fun e => by
  have : Decidable (match e with
      | .finish p _ => s.pipe.batches p = none
      | .other a => isWorkers a = false
      | _ => True : Prop) := by
    cases e <;> infer_instance
  exact inferInstanceAs (Decidable (_ ∧ _ ∧ _))

def InitialFleet (s : Fleet) : Prop := ∃ cast simulations, s = initialFleet cast simulations

def fleet (cfg : Settings) (pcfg : ProcessSettings) : System Fleet Event :=
  .guarded InitialFleet (EnabledFleet cfg pcfg) (nextFleet cfg pcfg)

section Turns

variable {cfg : ProcessSettings} {r : Runner} {τ : Turn}

structure Runner.Sound (r : Runner) : Prop where
  beats : r.beat ≠ .off → r.phase.isWaiting = true ∨ r.phase = .iterating
  unstarted : r.phase = .absent → r.crash = false
  seen : r.crashSeenAt.isSome → r.crash = true

theorem honour_uncrashed {stranding : Bool} {mono : ℚ} (h : r.crash = false) :
    r.honourCrashRequest stranding mono = { r with crashSeenAt := none } := by
  simp [Runner.honourCrashRequest, h]

theorem honour_stranding {mono : ℚ} (h : r.crash = true) :
    r.honourCrashRequest true mono = r.die := by
  simp [Runner.honourCrashRequest, h]

theorem honour_idle (h : r.crash = true) (mono : ℚ) :
    r.crashSeenAt = none ∧ r.honourCrashRequest false mono = { r with crashSeenAt := some mono } ∨
    ∃ seen, r.crashSeenAt = some seen ∧
      (CRASH_GRACE_S ≤ mono - seen ∧ r.honourCrashRequest false mono = r.die ∨
        mono - seen < CRASH_GRACE_S ∧ r.honourCrashRequest false mono = r) := by
  cases hs : r.crashSeenAt with
  | none => exact Or.inl ⟨rfl, by simp [Runner.honourCrashRequest, h, hs]⟩
  | some seen =>
    refine Or.inr ⟨seen, rfl, ?_⟩
    by_cases hle : CRASH_GRACE_S ≤ mono - seen
    · exact Or.inl ⟨hle, by simp [Runner.honourCrashRequest, h, hs, hle]⟩
    · exact Or.inr ⟨not_le.mp hle, by simp [Runner.honourCrashRequest, h, hs, hle]⟩

/-- Whatever it finds, looking touches nothing but what it notes, and that only once. -/
theorem honour_cases (stranding : Bool) (mono : ℚ) :
    (∃ seen, r.honourCrashRequest stranding mono = { r with crashSeenAt := seen } ∧
      (seen.isSome → r.crash = true) ∧
      (r.crash = true → r.crashSeenAt.isSome → r.crashSeenAt = seen)) ∨
    r.crash = true ∧ r.honourCrashRequest stranding mono = r.die := by
  by_cases hc : r.crash = true
  · cases stranding with
    | true => exact Or.inr ⟨hc, honour_stranding hc⟩
    | false =>
      rcases honour_idle hc mono with ⟨hn, h⟩ | ⟨seen, hs, ⟨-, h⟩ | ⟨-, h⟩⟩
      · exact Or.inl ⟨_, h, fun _ => hc, fun _ hx => by rw [hn] at hx; cases hx⟩
      · exact Or.inr ⟨hc, h⟩
      · refine Or.inl ⟨some seen, ?_, fun _ => hc, fun _ _ => hs⟩
        rw [h, ← hs]
  · exact Or.inl ⟨none, honour_uncrashed (by simpa using hc), by simp, fun h => absurd h hc⟩

theorem retry_cases (r : Runner) (mono : ℚ) :
    (r.retryRegister mono).crash = r.crash ∧ (r.retryRegister mono).beat = r.beat ∧
    (r.retryRegister mono).crashSeenAt = r.crashSeenAt ∧
    ((r.retryRegister mono).phase = .gaveUp ∨
      (∃ d l w, (r.retryRegister mono).phase = .registering d l w) ∨
      (r.retryRegister mono).phase = r.phase) := by
  unfold Runner.retryRegister
  split
  · split
    · exact ⟨rfl, rfl, rfl, Or.inl rfl⟩
    · exact ⟨rfl, rfl, rfl, Or.inr (Or.inl ⟨_, _, _, rfl⟩)⟩
  · exact ⟨rfl, rfl, rfl, Or.inr (Or.inr rfl)⟩

theorem beats_of_inFlight (h : r.beat.inFlight = true) : r.beat ≠ .off := by
  intro hoff
  rw [hoff] at h
  cases h

theorem ready_live (hs : r.Sound) (h : r.Ready τ = true) :
    r.phase.live = true ∨ r.phase = .absent ∧ ∃ boot mono, τ = .start boot mono := by
  have hbeat : r.beat ≠ .off → r.phase.live = true := by
    intro hb
    rcases hs.beats hb with h | h
    · cases hp : r.phase <;> simp [hp, Phase.isWaiting, Phase.live] at h ⊢
    · rw [h]
      rfl
  cases τ with
  | start boot mono => exact Or.inr ⟨by simpa [Runner.Ready] using h, boot, mono, rfl⟩
  | beat =>
    refine Or.inl (hbeat ?_)
    simp only [Runner.Ready, Bool.and_eq_true, beq_iff_eq] at h
    simp [h.1]
  | landed | missed => exact Or.inl (hbeat (beats_of_inFlight h))
  | signalled => exact Or.inl h
  | registered | unregistered | began | marked | claimed | completed | failed | finished | drained
  | deregistered =>
    refine Or.inl ?_
    cases hp : r.phase <;> simp [Runner.Ready, hp, Phase.isWaiting, Phase.live] at h ⊢

/-- An iteration that ends is followed by a wait, unless a worker dies of a request; what a
worker that was asked has noted already stays. -/
theorem finished_cases (cfg : ProcessSettings) (hp : r.phase = .iterating) (mono : ℚ) :
    (∃ w seen, r.turn cfg (.finished mono) = { r with phase := .waiting w, crashSeenAt := seen } ∧
      (seen.isSome → r.crash = true ∨ r.crashSeenAt = seen) ∧
      (r.crash = true → r.crashSeenAt.isSome → r.crashSeenAt = seen)) ∨
    r.boot.kind = .worker ∧ r.crash = true ∧ r.turn cfg (.finished mono) = r.die := by
  simp only [Runner.turn]
  by_cases hk : r.boot.kind = .worker
  · rw [if_pos (beq_iff_eq.mpr hk)]
    rcases honour_cases (r := r) false mono with ⟨seen, h, hs, hn⟩ | ⟨hc, h⟩
    · refine Or.inl ⟨mono + defaultIntervalS cfg r.boot.kind, seen, ?_,
        fun hx => Or.inl (hs hx), hn⟩
      rw [h]
      simp [hp]
    · refine Or.inr ⟨hk, hc, ?_⟩
      rw [h]
      simp [Runner.die]
  · refine Or.inl ⟨mono + defaultIntervalS cfg r.boot.kind, r.crashSeenAt, ?_,
      fun _ => Or.inr rfl, fun _ _ => rfl⟩
    simp [hk, hp]

theorem began_cases (cfg : ProcessSettings) (r : Runner) (mono : ℚ) :
    r.boot.kind = .conductor ∧ r.crash = true ∧
      r.turn cfg (.began mono) = r.die ∨
    (r.boot.kind = .conductor → r.crash = false) ∧
      r.turn cfg (.began mono) = { r with phase := .iterating } := by
  simp only [Runner.turn]
  by_cases h : r.boot.kind = .conductor ∧ r.crash = true
  · exact Or.inl ⟨h.1, h.2, if_pos (by simp [h.1, h.2])⟩
  · refine Or.inr ⟨fun hk => by simpa [hk] using h, if_neg ?_⟩
    simpa using h

theorem claimed_cases (cfg : ProcessSettings) (r : Runner) (b : Bool) (mono : ℚ) :
    b = true ∧ r.crash = true ∧
      r.turn cfg (.claimed b mono) = r.die ∨
    (b = true → r.crash = false) ∧ (r.turn cfg (.claimed b mono) = r ∨
      r.crash = false ∧ r.turn cfg (.claimed b mono) = { r with crashSeenAt := none }) := by
  cases b with
  | false => exact Or.inr ⟨by simp, Or.inl rfl⟩
  | true =>
    by_cases hc : r.crash = true
    · exact Or.inl ⟨rfl, hc, honour_stranding hc⟩
    · have hc : r.crash = false := by simpa using hc
      exact Or.inr ⟨fun _ => hc, Or.inr ⟨hc, honour_uncrashed hc⟩⟩

theorem turn_sound (hs : r.Sound) (h : r.Ready τ = true) : (r.turn cfg τ).Sound := by
  obtain ⟨hb, hu, hseen⟩ := hs
  have hdie : r.crash = true → r.die.Sound := fun hc =>
    ⟨by simp [Runner.die], by simp [Runner.die], fun _ => hc⟩
  cases τ with
  | start boot mono => exact ⟨by simp [Runner.turn], by simp [Runner.turn], by simp [Runner.turn]⟩
  | registered mono => exact ⟨fun _ => Or.inl rfl, by simp [Runner.turn], hseen⟩
  | unregistered mono =>
    simp only [Runner.Ready] at h
    split at h
    · rename_i d l w hp
      obtain ⟨hc, hbeat, hsn, hph⟩ := retry_cases r mono
      refine ⟨fun hoff => ?_, fun hab => ?_, ?_⟩
      · rw [Runner.turn, hbeat] at hoff
        rcases hb hoff with hx | hx <;> simp [hp, Phase.isWaiting] at hx
      · rw [Runner.turn] at hab
        rw [hab, hp] at hph
        simp at hph
      · rw [Runner.turn, hc, hsn]
        exact hseen
    · cases h
  | beat =>
    simp only [Runner.Ready, Bool.and_eq_true, beq_iff_eq] at h
    exact ⟨fun _ => hb (by simp [h.1]), hu, hseen⟩
  | landed crash =>
    have hin : r.beat ≠ .off := beats_of_inFlight h
    refine ⟨fun _ => hb hin, fun hab => ?_, fun hx => ?_⟩
    · have hab : r.phase = .absent := hab
      rcases hb hin with hx | hx <;> simp [hab, Phase.isWaiting] at hx
    · simp [Runner.turn, hseen hx]
  | missed =>
    have hin : r.beat ≠ .off := beats_of_inFlight h
    exact ⟨fun _ => hb hin, hu, hseen⟩
  | signalled => exact ⟨hb, hu, hseen⟩
  | began mono =>
    rcases began_cases cfg r mono with ⟨-, hc, he⟩ | ⟨-, he⟩
    · rw [he]
      exact hdie hc
    · rw [he]
      exact ⟨fun _ => Or.inr rfl, by simp, hseen⟩
  | marked value => exact ⟨hb, hu, hseen⟩
  | claimed b mono =>
    rcases claimed_cases cfg r b mono with ⟨-, hc, he⟩ | ⟨-, he | ⟨-, he⟩⟩
    · rw [he]
      exact hdie hc
    · rw [he]
      exact ⟨hb, hu, hseen⟩
    · rw [he]
      exact ⟨hb, hu, by simp⟩
  | completed => exact ⟨hb, hu, hseen⟩
  | failed mono => exact ⟨fun _ => Or.inl rfl, by simp [Runner.turn], hseen⟩
  | finished mono =>
    have hp : r.phase = .iterating := by simpa [Runner.Ready] using h
    rcases finished_cases cfg hp mono with ⟨w, seen, he, hs, -⟩ | ⟨-, hc, he⟩
    · rw [he]
      refine ⟨fun _ => Or.inl rfl, by simp, fun hx => ?_⟩
      rcases hs hx with hc | rfl
      · exact hc
      · exact hseen hx
    · rw [he]
      exact hdie hc
  | drained => exact ⟨by simp [Runner.turn], by simp [Runner.turn], hseen⟩
  | deregistered =>
    have hp : r.phase = .draining := by simpa [Runner.Ready] using h
    refine ⟨fun hoff => ?_, by simp [Runner.turn], hseen⟩
    rcases hb hoff with hx | hx <;> simp [hp, Phase.isWaiting] at hx

end Turns

section Fleets

variable {cfg : Settings} {pcfg : ProcessSettings} {s t : Fleet} {e : Event} {p : WorkerId}

/-- A process is left alone, or it takes its turn. -/
theorem step_runner (h : (fleet cfg pcfg).step s e t) (p : WorkerId) :
    (∀ τ, turnOf cfg pcfg s e ≠ some (p, τ)) ∧ t.runners p = s.runners p ∨
    ∃ τ, turnOf cfg pcfg s e = some (p, τ) ∧ (s.runners p).Ready τ = true ∧
      t.runners p = (s.runners p).turn pcfg τ := by
  obtain ⟨⟨-, hready, -⟩, rfl⟩ := h
  simp only [nextFleet, nextRunners]
  cases hx : turnOf cfg pcfg s e with
  | none => exact Or.inl ⟨by simp, rfl⟩
  | some x =>
    obtain ⟨q, τ⟩ := x
    by_cases hq : q = p
    · subst hq
      exact Or.inr ⟨τ, rfl, hready _ hx, Function.update_self ..⟩
    · refine Or.inl ⟨fun τ' hτ => hq ?_, Function.update_of_ne (Ne.symm hq) ..⟩
      exact (Prod.mk.inj (Option.some.inj hτ)).1

theorem runner_invariant {P : Runner → Prop} (absent : P .absent)
    (turn : ∀ r τ, P r → r.Ready τ = true → P (r.turn pcfg τ))
    (h : (fleet cfg pcfg).Reachable s) (p : WorkerId) : P (s.runners p) := by
  apply h.invariant (P := fun s => P (s.runners p))
  · rintro _ ⟨cast, simulations, rfl⟩
    exact absent
  · intro s e t _ hs he
    rcases step_runner he p with ⟨-, hsame⟩ | ⟨τ, -, hready, hturn⟩
    · rwa [hsame]
    · rw [hturn]
      exact turn _ τ hs hready

theorem reachable_sound (h : (fleet cfg pcfg).Reachable s) (p : WorkerId) : (s.runners p).Sound :=
  runner_invariant (P := Runner.Sound) ⟨by simp [Runner.absent], by simp [Runner.absent],
    by simp [Runner.absent]⟩ (fun _ _ hs hr => turn_sound hs hr) h p

theorem step_pipe (h : (fleet cfg pcfg).step s e t) :
    actionOf e = none ∧ t.pipe = s.pipe ∨
      ∃ a, actionOf e = some a ∧ Step cfg s.pipe a t.pipe := by
  obtain ⟨⟨hen, -, -⟩, rfl⟩ := h
  simp only [nextFleet, nextPipe]
  cases ha : actionOf e with
  | none => exact Or.inl ⟨rfl, rfl⟩
  | some a => exact Or.inr ⟨a, rfl, hen a ha, rfl⟩

/-- The fleet runs the pipeline, so whatever holds in every run of it holds here. -/
theorem reachable_pipe (h : (fleet cfg pcfg).Reachable s) : (system cfg).Reachable s.pipe := by
  apply h.invariant (P := fun s => (system cfg).Reachable s.pipe)
  · rintro _ ⟨cast, simulations, rfl⟩
    exact .initial ⟨cast, simulations, rfl⟩
  · intro s e t _ hs he
    rcases step_pipe he with ⟨-, hsame⟩ | ⟨a, -, ha⟩
    · rwa [hsame]
    · exact hs.tail ha

inductive RowFrom (pcfg : ProcessSettings) (s : Fleet) (e : Event) (r : Process) : Prop where
  | same (h : r ∈ s.registry.rows)
  | registered (wall mono : ℚ) (he : e = .register r.id wall mono true)
      (hr : r = processRow r.id (s.runners r.id).boot wall)
  | killed (r₀ : Process) (h : r₀ ∈ s.registry.rows) (wall : ℚ) (he : e = .kill r₀.id wall)
      (hr : r = { r₀ with crashRequested := true })
  | stamped (r₀ : Process) (h : r₀ ∈ s.registry.rows) (wall : ℚ) (isLeader : Bool)
      (he : e = .land r₀.id wall) (hb : (s.runners r₀.id).beat = .sent isLeader)
      (hr : r = { r₀ with lastHeartbeatWall := wall, isLeader := isLeader })
  | aged (r₀ : Process) (h : r₀ ∈ s.registry.rows) (wall : ℚ)
      (he : e = .deregister r₀.id wall true)
      (hr : r = { r₀ with
        lastHeartbeatWall := wall - pcfg.processLivenessWindowS * 2
        isLeader := false })

theorem step_row (h : (fleet cfg pcfg).step s e t) {r : Process} (hr : r ∈ t.registry.rows) :
    RowFrom pcfg s e r := by
  obtain ⟨-, rfl⟩ := h
  change r ∈ (nextRegistry pcfg s e).rows at hr
  cases e with
  | register p wall mono reached =>
    cases reached with
    | false => exact .same hr
    | true =>
      simp only [nextRegistry, if_true] at hr
      cases hreg : registerProcess pcfg p (s.runners p).boot wall s.registry with
      | none =>
        rw [hreg] at hr
        exact .same hr
      | some u =>
        rw [hreg] at hr
        rcases ((mem_registerProcess hreg).2 r).mp hr with hold | rfl
        · exact .same (mem_pruneDead.mp hold).1
        · exact .registered wall mono rfl rfl
  | land p wall =>
    simp only [nextRegistry] at hr
    cases hb : (s.runners p).beat with
    | off | resting => exact .same (by simpa only [hb] using hr)
    | sent isLeader =>
      simp only [hb, heartbeat] at hr
      rcases mem_update.mp hr with ⟨hold, -⟩ | ⟨r₀, h₀, rfl, rfl⟩
      · exact .same hold
      · exact .stamped r₀ h₀ wall isLeader rfl hb rfl
  | kill p wall =>
    simp only [nextRegistry] at hr
    rcases killProcess_cases s.registry p wall s.pipe.db with
      ⟨⟨m, hm⟩, -⟩ | ⟨x, hx⟩
    · exact .same (by simpa only [hm] using hr)
    · simp only [hx] at hr
      rcases mem_update.mp hr with ⟨hold, -⟩ | ⟨r₀, h₀, rfl, rfl⟩
      · exact .same hold
      · exact .killed r₀ h₀ wall rfl rfl
  | deregister p wall reached =>
    cases reached with
    | false => exact .same hr
    | true =>
      simp only [nextRegistry, if_true, deregisterProcess] at hr
      rcases mem_update.mp hr with ⟨hold, -⟩ | ⟨r₀, h₀, rfl, rfl⟩
      · exact .same hold
      · exact .aged r₀ h₀ wall rfl rfl
  | start | beat | miss | signal | begin | markLeader | claim | complete | fail | finish | drain
  | other => exact .same hr

end Fleets

section Runs

variable {s : Fleet}

def pshipped : ProcessSettings := {}

def laptop : Boot := ⟨.worker, "laptop", 41⟩

def desktop : Boot := ⟨.conductor, "desktop", 42⟩

def booted : List Event :=
  [.start 7 laptop 0, .register 7 100 0 true,
    .other (.ingest 1 1 [⟨"patient.updated", "chart", none⟩])] ++
    (wholePass 2).map .other

def drained : List Event :=
  booted ++ [.begin 7 1, .claim 7 1 3 (fun _ => false) .physical 1, .signal 7,
    .complete 7 [⟨.ok, some 200⟩] 4, .finish 7 2, .drain 7, .deregister 7 110 true]

def asked : List Event :=
  booted ++ [.start 8 desktop 0, .register 8 100 0 true, .kill 7 101,
    .kill 8 101, .beat 7, .land 7 102, .beat 8, .land 8 102, .begin 7 1]

def runFleet (es : List Event) : Option Fleet :=
  runList (EnabledFleet shipped pshipped) (nextFleet shipped pshipped)
    (initialFleet soleConsumer []) es

theorem runFleet_reachable {es : List Event} (h : runFleet es = some s) :
    (fleet shipped pshipped).Reachable s :=
  ⟨_, ⟨soleConsumer, [], rfl⟩, runList_execution _ _ _ h⟩

end Runs

end ProcessRunner
