import WebhookRecovery.WorkerClaim
import WebhookRecovery.VirtualClock
import Mathlib.Tactic.Linarith

/-! The consumer transport seam, as simulated: latency, jitter, failures and outages off the
consumer row. It sleeps through the clock of the simulation, so that virtual latency is honest. -/
namespace ConsumerTransport

open RecoverySchema WorkerClaim VirtualClock

/-- How long a request to a consumer that is down hangs before timing out, in virtual seconds. -/
def TIMEOUT_VIRTUAL_S : ℚ := 5

/-- How long a paused clock's sleep blocks before returning, in real seconds. -/
def PAUSED_POLL_REAL_S : ℚ := 1 / 10

structure Random where
  draw : String → ℕ → ℚ
  unit : ∀ seed n, 0 ≤ draw seed n ∧ draw seed n < 1

def Random.uniform (random : Random) (seed : String) (n : ℕ) (a b : ℚ) : ℚ :=
  a + (b - a) * random.draw seed n

def seedOf (request : AttemptRequest) : String :=
  let simulationId := request.simulationId
  let deliveryId := request.deliveryId
  let attemptNo := request.attemptNo
  s!"{simulationId}:{deliveryId}:{attemptNo}"

structure Served where
  slept : ℚ
  result : AttemptResult
  deriving DecidableEq, Repr

/-- Deterministic per attempt: the generator is seeded here, not carried as transport state. -/
def attempt (random : Random) (request : AttemptRequest) : Served :=
  let profile := request.profile
  let seed := seedOf request
  if profile.down then ⟨TIMEOUT_VIRTUAL_S, ⟨.timeout, none⟩⟩
  else
    let latency := max 0
      (profile.latencyS + random.uniform seed 0 (-profile.jitterS) profile.jitterS)
    if random.draw seed 1 < profile.failureRate then ⟨latency, ⟨.serverError, some 503⟩⟩
    else ⟨latency, ⟨.ok, some 200⟩⟩

/-- The event loop a worker waits on, in real seconds: how long after the call it starts the k-th
task of a gather, how long that task's sleeps last, and how long after the last task the gather
returns. No sleep is cut short. -/
structure EventLoop where
  starts : ℕ → ℚ
  sleeps : ℕ → ℚ → ℚ
  returns : ℚ
  starts_nonneg : ∀ k, 0 ≤ starts k
  sleeps_least : ∀ k x, x ≤ sleeps k x
  returns_nonneg : 0 ≤ returns

/-- A gather of a single sleep is over at most so much later than the sleep asks for. -/
def EventLoop.Prompt (loop : EventLoop) (late : ℚ) : Prop :=
  ∀ k x, 0 ≤ x → loop.starts k + loop.sleeps k x + loop.returns ≤ x + late

def sleep (asyncioSleep : ℚ → ℚ) (config : SimulationClockConfig) (virtualSeconds : ℚ) : ℚ :=
  if virtualSeconds ≤ 0 then 0
  else if config.status = .paused then asyncioSleep PAUSED_POLL_REAL_S
  else asyncioSleep (virtualSeconds / config.speedMultiplier)

/-- The attempts of a batch run at once, so the call returns when the last of them has, and the
results come in the order of the batch. -/
def gather (random : Random) (loop : EventLoop) (config : SimulationClockConfig)
    (batch : List Claimed) : ℚ × List AttemptResult :=
  let served := batch.map fun c => attempt random c.request
  let ends := served.zipIdx.map fun x => loop.starts x.2 + sleep (loop.sleeps x.2) config x.1.slept
  (ends.foldl max 0 + loop.returns, served.map Served.result)

section Attempts

variable {random : Random} {request : AttemptRequest}

theorem attempt_congr {request' : AttemptRequest}
    (hs : request'.simulationId = request.simulationId)
    (hd : request'.deliveryId = request.deliveryId) (hn : request'.attemptNo = request.attemptNo)
    (hp : request'.profile = request.profile) :
    attempt random request' = attempt random request := by
  have hseed : seedOf request' = seedOf request := by
    rw [seedOf, seedOf, hs, hd, hn]
  unfold attempt
  rw [hseed, hp]

theorem uniform_bound (seed : String) (n : ℕ) (j : ℚ) :
    |random.uniform seed n (-j) j| ≤ |j| := by
  obtain ⟨h₀, h₁⟩ := random.unit seed n
  have hrw : random.uniform seed n (-j) j = j * (2 * random.draw seed n - 1) := by
    rw [Random.uniform]
    ring
  rw [hrw, abs_mul]
  refine mul_le_of_le_one_right (abs_nonneg j) (abs_le.mpr ⟨?_, ?_⟩)
  · linarith
  · linarith

theorem slept_nonneg : 0 ≤ (attempt random request).slept := by
  unfold attempt
  dsimp only
  split
  · exact (by norm_num : (0 : ℚ) ≤ 5)
  · split
    · exact le_max_left _ _
    · exact le_max_left _ _

/-- No attempt hangs for longer than the timeout or the slowest answer of its consumer. -/
theorem slept_le : (attempt random request).slept ≤
    max TIMEOUT_VIRTUAL_S (request.profile.latencyS + |request.profile.jitterS|) := by
  have hjitter : random.uniform (seedOf request) 0 (-request.profile.jitterS)
      request.profile.jitterS ≤ |request.profile.jitterS| :=
    (abs_le.mp (uniform_bound _ _ _)).2
  have hlatency : max 0 (request.profile.latencyS + random.uniform (seedOf request) 0
      (-request.profile.jitterS) request.profile.jitterS) ≤
      max TIMEOUT_VIRTUAL_S (request.profile.latencyS + |request.profile.jitterS|) := by
    refine max_le_max ?_ ?_
    · exact (by norm_num : (0 : ℚ) ≤ 5)
    · linarith
  unfold attempt
  dsimp only
  split
  · exact le_max_left _ _
  · split
    · exact hlatency
    · exact hlatency

theorem attempt_down (h : request.profile.down = true) :
    (attempt random request).result = ⟨.timeout, none⟩ := by
  simp [attempt, h]

theorem attempt_never_ok (h : request.profile.down = true ∨ 1 ≤ request.profile.failureRate) :
    (attempt random request).result.outcome ≠ .ok := by
  rcases h with h | h
  · rw [attempt_down h]
    simp
  · have hlt := (random.unit (seedOf request) 1).2.trans_le h
    unfold attempt
    dsimp only
    split
    · simp
    · simp

theorem attempt_healthy (hd : request.profile.down = false)
    (hf : request.profile.failureRate ≤ 0) :
    (attempt random request).result = ⟨.ok, some 200⟩ := by
  have hge := hf.trans (random.unit (seedOf request) 1).1
  simp [attempt, hd, not_lt.mpr hge]

end Attempts

def batchSpan (random : Random) (batch : List Claimed) : ℚ :=
  (batch.map fun c => (attempt random c.request).slept).foldl max 0

theorem foldl_max_spec (l : List ℚ) (v : ℚ) :
    l.foldl max v ∈ v :: l ∧ ∀ x ∈ v :: l, x ≤ l.foldl max v :=
  List.max?_eq_some_iff.mp List.max?_cons'

section Sleeping

variable (random : Random) (loop : EventLoop) (batch : List Claimed)
variable {config : SimulationClockConfig} {k : ℕ} {late v : ℚ}

theorem sleep_least (k : ℕ) (hr : config.status = .running) (hs : 0 < config.speedMultiplier) :
    v ≤ sleep (loop.sleeps k) config v * config.speedMultiplier := by
  have hp : config.status ≠ .paused := by
    rw [hr]
    decide
  rw [sleep, if_neg hp]
  split
  · rwa [zero_mul]
  · calc v = v / config.speedMultiplier * config.speedMultiplier := (div_mul_cancel₀ v hs.ne').symm
      _ ≤ loop.sleeps k (v / config.speedMultiplier) * config.speedMultiplier :=
        mul_le_mul_of_nonneg_right (loop.sleeps_least k _) hs.le

theorem sleep_late {loop : EventLoop} (hlate : loop.Prompt late) (hr : config.status = .running)
    (hs : 0 < config.speedMultiplier) (hv : 0 ≤ v) :
    loop.starts k + sleep (loop.sleeps k) config v + loop.returns ≤
      v / config.speedMultiplier + late := by
  have hp : config.status ≠ .paused := by
    rw [hr]
    decide
  rw [sleep, if_neg hp]
  split
  · rename_i hle
    have hzero := loop.sleeps_least k 0
    have hprompt := hlate k 0 le_rfl
    rw [le_antisymm hle hv, zero_div]
    linarith
  · exact hlate k _ (div_nonneg hv hs.le)

theorem batchSpan_spec : (∀ c ∈ batch, (attempt random c.request).slept ≤ batchSpan random batch) ∧
    0 ≤ batchSpan random batch ∧
    (batchSpan random batch = 0 ∨
      ∃ c ∈ batch, (attempt random c.request).slept = batchSpan random batch) := by
  obtain ⟨hmem, hle⟩ :=
    foldl_max_spec (batch.map fun c => (attempt random c.request).slept) 0
  refine ⟨fun c hc => ?_, hle 0 List.mem_cons_self, ?_⟩
  · exact hle _ (List.mem_cons_of_mem _ (List.mem_map_of_mem hc))
  · rcases List.mem_cons.mp hmem with h | h
    · exact .inl h
    · obtain ⟨c, hc, hspan⟩ := List.mem_map.mp h
      exact .inr ⟨c, hc, hspan⟩

theorem gather_spec (config : SimulationClockConfig) :
    loop.returns ≤ (gather random loop config batch).1 ∧
    (∀ c ∈ batch, ∃ k, loop.starts k +
      sleep (loop.sleeps k) config (attempt random c.request).slept + loop.returns ≤
        (gather random loop config batch).1) ∧
    ((gather random loop config batch).1 = loop.returns ∨
      ∃ c ∈ batch, ∃ k, (gather random loop config batch).1 = loop.starts k +
        sleep (loop.sleeps k) config (attempt random c.request).slept + loop.returns) := by
  obtain ⟨hmem, hle⟩ := foldl_max_spec
    ((batch.map fun c => attempt random c.request).zipIdx.map fun x =>
      loop.starts x.2 + sleep (loop.sleeps x.2) config x.1.slept) 0
  refine ⟨le_add_of_nonneg_left (hle 0 List.mem_cons_self), fun c hc => ?_, ?_⟩
  · have hserved := List.mem_map_of_mem (f := fun c => attempt random c.request) hc
    obtain ⟨k, hk⟩ := List.mem_iff_getElem?.mp hserved
    have htask := List.mk_mem_zipIdx_iff_getElem?.mpr hk
    refine ⟨k, add_le_add_left (hle _ (List.mem_cons_of_mem _ ?_)) loop.returns⟩
    exact List.mem_map_of_mem htask
  · rcases List.mem_cons.mp hmem with h | h
    · left
      exact (congrArg (· + loop.returns) h).trans (zero_add _)
    · obtain ⟨⟨served, k⟩, htask, hend⟩ := List.mem_map.mp h
      obtain ⟨c, hc, rfl⟩ := List.mem_map.mp (List.fst_mem_of_mem_zipIdx htask)
      exact .inr ⟨c, hc, k, congrArg (· + loop.returns) hend.symm⟩

/-- No sleep is cut short, so the gather lasts the slowest attempt at least. -/
theorem gather_least (hr : config.status = .running) (hs : 0 < config.speedMultiplier) :
    batchSpan random batch ≤ (gather random loop config batch).1 * config.speedMultiplier := by
  obtain ⟨hreturns, htask, -⟩ := gather_spec random loop batch config
  obtain ⟨-, -, hslowest⟩ := batchSpan_spec random batch
  rcases hslowest with h | ⟨c, hc, h⟩
  · rw [h]
    exact mul_nonneg (loop.returns_nonneg.trans hreturns) hs.le
  · obtain ⟨k, hk⟩ := htask c hc
    have hwithin := le_of_add_le_of_nonneg_left hk loop.returns_nonneg
    rw [← h]
    refine (sleep_least loop k hr hs).trans ?_
    refine mul_le_mul_of_nonneg_right ?_ hs.le
    exact le_of_add_le_of_nonneg_right hwithin (loop.starts_nonneg k)

theorem gather_late {loop : EventLoop} (hlate : loop.Prompt late) (hr : config.status = .running)
    (hs : 0 < config.speedMultiplier) :
    (gather random loop config batch).1 * config.speedMultiplier ≤
      batchSpan random batch + late * config.speedMultiplier := by
  obtain ⟨-, -, hlast⟩ := gather_spec random loop batch config
  obtain ⟨hslept, hspan, -⟩ := batchSpan_spec random batch
  have hend : (gather random loop config batch).1 ≤
      batchSpan random batch / config.speedMultiplier + late := by
    rcases hlast with h | ⟨c, hc, k, h⟩
    · have hempty := hlate 0 0 le_rfl
      have hstarts := loop.starts_nonneg 0
      have hsleeps := loop.sleeps_least 0 0
      have hquotient := div_nonneg hspan hs.le
      linarith
    · rw [h]
      refine (sleep_late hlate hr hs slept_nonneg).trans ?_
      exact add_le_add_left (div_le_div_of_nonneg_right (hslept c hc) hs.le) late
  have hmul := mul_le_mul_of_nonneg_right hend hs.le
  rwa [add_mul, div_mul_cancel₀ _ hs.ne'] at hmul

theorem batchSpan_lt {batch : List Claimed} {bound : ℚ} (h : TIMEOUT_VIRTUAL_S < bound)
    (hc : ∀ c ∈ batch, c.request.profile.latencyS + |c.request.profile.jitterS| < bound) :
    batchSpan random batch < bound := by
  have htimeout : 0 < TIMEOUT_VIRTUAL_S := by norm_num [TIMEOUT_VIRTUAL_S]
  obtain ⟨-, -, hslowest⟩ := batchSpan_spec random batch
  rcases hslowest with hspan | ⟨c, hmem, hspan⟩
  · rw [hspan]
    exact htimeout.trans h
  · rw [← hspan]
    exact slept_le.trans_lt (max_lt h (hc c hmem))

theorem nowAt_add (hr : config.status = .running) (t d : ℚ) :
    nowAt config (t + d) = nowAt config t + d * config.speedMultiplier := by
  rw [nowAt_running hr, nowAt_running hr, runningAt, runningAt]
  ring

end Sleeping

/-- At any speed the clock of a running simulation reads at least one batch span more when the
attempts of a batch are back, and no more than that by what a late event loop adds. Where no
consumer is slower than a lease, less what the clock runs between the instant that stamps the
lease and the gather, the attempts are back within the lease. -/
theorem batch_honest (random : Random) (loop : EventLoop) {config : SimulationClockConfig}
    (hr : config.status = .running) (hs : 0 < config.speedMultiplier) (batch : List Claimed)
    (stamp start : ℚ) :
    nowAt config start + batchSpan random batch ≤
      nowAt config (start + (gather random loop config batch).1) ∧
    ∀ late, loop.Prompt late →
      nowAt config (start + (gather random loop config batch).1) ≤
        nowAt config start + batchSpan random batch + late * config.speedMultiplier ∧
      ∀ lease, TIMEOUT_VIRTUAL_S + (start - stamp + late) * config.speedMultiplier < lease →
        (∀ c ∈ batch, c.request.profile.latencyS + |c.request.profile.jitterS| +
          (start - stamp + late) * config.speedMultiplier < lease) →
        nowAt config (start + (gather random loop config batch).1) <
          nowAt config stamp + lease := by
  have hleast := gather_least random loop batch hr hs
  refine ⟨?_, fun late hlate => ?_⟩
  · rw [nowAt_add hr]
    exact add_le_add_right hleast _
  · have hback := gather_late random batch hlate hr hs
    refine ⟨?_, fun lease hlease hlat => ?_⟩
    · rw [nowAt_add hr, add_assoc]
      exact add_le_add_right hback _
    · have hspan : batchSpan random batch <
          lease - (start - stamp + late) * config.speedMultiplier :=
        batchSpan_lt random (lt_sub_iff_add_lt.mpr hlease) fun c hc =>
          lt_sub_iff_add_lt.mpr (hlat c hc)
      have hstamp : start + (gather random loop config batch).1 =
          stamp + (start - stamp + (gather random loop config batch).1) := by ring
      rw [hstamp, nowAt_add hr]
      linarith

def half : Random := ⟨fun _ _ => 1 / 2, fun _ _ => ⟨by norm_num, by norm_num⟩⟩

def shippedRequest : Claimed := ⟨⟨1, 1, 1, 1, "invoice.paid", "in_1", ⟨1 / 5, 1 / 20, 0, false⟩⟩, 1⟩

def lateLoop : EventLoop :=
  ⟨fun _ => 1 / 1000, fun _ x => x + 1 / 1000, 1 / 1000, fun _ => by norm_num,
    fun _ x => by linarith, by norm_num⟩

theorem batch_honest_shipped :
    nowAt (startConfig 20 0) 3 + batchSpan half [shippedRequest] ≤
      nowAt (startConfig 20 0)
        (3 + (gather half lateLoop (startConfig 20 0) [shippedRequest]).1) ∧
    nowAt (startConfig 20 0) (3 + (gather half lateLoop (startConfig 20 0) [shippedRequest]).1) ≤
      nowAt (startConfig 20 0) 3 + batchSpan half [shippedRequest] + 3 / 1000 * 20 ∧
    nowAt (startConfig 20 0) (3 + (gather half lateLoop (startConfig 20 0) [shippedRequest]).1) <
      nowAt (startConfig 20 0) (29 / 10) + shipped.leaseDurationVirtualS := by
  have hrun : (startConfig 20 0).status = .running := rfl
  have hspeed : 0 < (startConfig 20 0).speedMultiplier := by decide +kernel
  obtain ⟨hleast, hlate⟩ :=
    batch_honest half lateLoop hrun hspeed [shippedRequest] (29 / 10) 3
  have hprompt : lateLoop.Prompt (3 / 1000) := by
    intro k x _
    simp only [lateLoop]
    linarith
  obtain ⟨hmost, hlease⟩ := hlate _ hprompt
  refine ⟨hleast, hmost, hlease _ (by decide +kernel) fun c hc => ?_⟩
  obtain rfl := List.mem_singleton.mp hc
  decide +kernel

end ConsumerTransport
