import WebhookRecovery.DeliveryAdmission
import WebhookRecovery.LeaseReaper

/-! One delivery with its attempts, and everything that may happen to it. Who may move a row
out of which state is in the constructors; what a file looks like at any time follows. -/
namespace DeliveryFile

open RecoverySchema DeliveryPolicy DeliveryAdmission WorkerClaim LeaseReaper

structure File where
  delivery : Delivery
  attempts : List Attempt

def file (db : Db) (d : Delivery) : File := ⟨d, db.attemptsOf d.id⟩

/-- Ready and in-flight rows are the workers', pending rows are the conductor's, and an
in-flight row comes back to the conductor when its lease runs out. -/
inductive Move (cfg : Settings) (actor : Option WorkerId) : File → File → Prop where
  | stay (f : File) : Move cfg actor f f
  | admitted {d : Delivery} {l : List Attempt} (now : ℚ) (h : d.state = .pending) :
      Move cfg actor ⟨d, l⟩ ⟨readyRow now d, l⟩
  | drop {d : Delivery} {l : List Attempt} (now : ℚ) (x : Drop) (h : d.state = .pending)
      (hx : x.state = .expired ∨ x.state = .superseded) :
      Move cfg actor ⟨d, l⟩ ⟨dropRow now x d, l⟩
  | expire {d : Delivery} {l : List Attempt} (now : ℚ) (reason : String) (h : d.state = .ready) :
      Move cfg actor ⟨d, l⟩ ⟨expireRow now reason d, l⟩
  | claim {d : Delivery} {l : List Attempt} (w : WorkerId) (now : ℚ) (a : Attempt)
      (hw : actor = some w) (h : d.state = .ready) (open_ : a.isOpen) (result : a.outcome = none)
      (owner : a.workerId = w) (start : a.startedAt = now) :
      Move cfg actor ⟨d, l⟩ ⟨leaseRow cfg w now d, l ++ [a]⟩
  | settle {d : Delivery} {l : List Attempt} {a : Attempt} (now : ℚ) (c : Completion)
      (h : d.state = .inFlight) (count : c.claimed.request.attemptNo = d.attemptCount) :
      Move cfg actor ⟨d, l ++ [a]⟩
        ⟨settleRow now (settlement cfg now c) d, l ++ [closeRow now c.result a]⟩
  | reclaim {d : Delivery} {l : List Attempt} {a : Attempt} (now : ℚ) (h : d.state = .inFlight) :
      Move cfg actor ⟨d, l ++ [a]⟩
        ⟨releaseLease (settleRow now (reclaimSettlement cfg now d) d), l ++ [expireAttempt now a]⟩

def Spent (a : Attempt) : Prop := a.isOpen = false ∧ a.outcome ≠ some .ok

/-- What the attempts of a delivery tell, given its state: all but the last are spent. -/
def Story (cfg : Settings) (d : Delivery) (l : List Attempt) : Prop :=
  ∃ past : List Attempt, (∀ a ∈ past, Spent a) ∧
    match d.state with
    | .inFlight => ∃ a, l = past ++ [a] ∧ a.isOpen ∧ a.outcome = none ∧
        d.leasedBy = some a.workerId ∧
        d.leaseExpiresAt = some (a.startedAt + cfg.leaseDurationVirtualS)
    | .delivered => ∃ a, l = past ++ [a] ∧ a.isOpen = false ∧ a.outcome = some .ok
    | _ => l = past

structure Sound (cfg : Settings) (f : File) : Prop where
  counted : f.attempts.length = f.delivery.attemptCount
  capped : f.delivery.attemptCount ≤ max 1 cfg.maxAttempts
  retryable : f.delivery.state = .pending ∨ f.delivery.state = .ready →
    f.delivery.attemptCount < max 1 cfg.maxAttempts
  story : Story cfg f.delivery f.attempts
  completed : f.delivery.completedAt.isSome ↔ f.delivery.state.terminal
  due : f.delivery.state = .pending → f.delivery.nextAttemptAt.isSome

theorem settlement_ok {cfg : Settings} {now : ℚ} {c : Completion} (h : c.result.outcome = .ok) :
    settlement cfg now c = .delivered := by
  simp [settlement, h]

theorem settlement_not_ok (cfg : Settings) (now : ℚ) {c : Completion} (h : c.result.outcome ≠ .ok) :
    (∃ reason, settlement cfg now c = .failed reason) ∨
      c.claimed.request.attemptNo < cfg.maxAttempts ∧ ∃ at_, settlement cfg now c = .retry at_ := by
  simp only [settlement, if_neg h]
  split
  · exact Or.inl ⟨_, rfl⟩
  · rename_i hlt
    exact Or.inr ⟨Nat.lt_of_not_le hlt, _, rfl⟩

theorem reclaimSettlement_cases (cfg : Settings) (now : ℚ) (d : Delivery) :
    (∃ reason, reclaimSettlement cfg now d = .failed reason) ∨
      d.attemptCount < cfg.maxAttempts ∧ ∃ at_, reclaimSettlement cfg now d = .retry at_ := by
  simp only [reclaimSettlement]
  split
  · exact Or.inl ⟨_, rfl⟩
  · rename_i hlt
    exact Or.inr ⟨Nat.lt_of_not_le hlt, _, rfl⟩

section Sound

variable {cfg : Settings} {actor : Option WorkerId} {f g : File}

def Fresh (f : File) : Prop :=
  f.attempts = [] ∧ f.delivery.state = .pending ∧ f.delivery.attemptCount = 0 ∧
    f.delivery.nextAttemptAt.isSome ∧ f.delivery.completedAt = none

theorem Fresh.sound (h : Fresh f) : Sound cfg f := by
  obtain ⟨ha, hs, hn, hd, hc⟩ := h
  refine ⟨by rw [ha, hn]; rfl, by omega, fun _ => by omega, ⟨[], by simp, ?_⟩, ?_, fun _ => hd⟩
  · rw [hs]
    exact ha
  · rw [hc, hs]
    simp [DeliveryState.terminal, DeliveryState.active]

theorem Story.last_attempt {d : Delivery} {l : List Attempt} {a : Attempt}
    (h : Story cfg d (l ++ [a])) (hs : d.state = .inFlight) :
    (∀ b ∈ l, Spent b) ∧ a.isOpen ∧ a.outcome = none ∧ d.leasedBy = some a.workerId ∧
      d.leaseExpiresAt = some (a.startedAt + cfg.leaseDurationVirtualS) := by
  obtain ⟨past, hp, h⟩ := h
  rw [hs] at h
  obtain ⟨b, he, hb⟩ := h
  obtain ⟨rfl, hab⟩ := List.append_inj' he rfl
  obtain rfl : a = b := by simpa using hab
  exact ⟨hp, hb⟩

/-- An open attempt is the last one of an in-flight delivery, and belongs to its lease. -/
theorem Story.open_attempt {d : Delivery} {l : List Attempt} {a : Attempt} (h : Story cfg d l)
    (ha : a ∈ l) (ho : a.isOpen) : d.state = .inFlight ∧ a.outcome = none ∧
      d.leasedBy = some a.workerId ∧
      d.leaseExpiresAt = some (a.startedAt + cfg.leaseDurationVirtualS) ∧
      ∃ past, (∀ b ∈ past, Spent b) ∧ l = past ++ [a] := by
  obtain ⟨past, hp, h⟩ := h
  have hlast : ∀ b ∈ past, a ≠ b := by
    rintro b hb rfl
    simp [(hp a hb).1] at ho
  cases hs : d.state with
  | inFlight =>
    rw [hs] at h
    obtain ⟨b, rfl, _, hr, hw, he⟩ := h
    rcases List.mem_append.mp ha with ha | ha
    · exact absurd rfl (hlast a ha)
    · obtain rfl := List.mem_singleton.mp ha
      exact ⟨rfl, hr, hw, he, past, hp, rfl⟩
  | delivered =>
    rw [hs] at h
    obtain ⟨b, rfl, hb, _⟩ := h
    rcases List.mem_append.mp ha with ha | ha
    · exact absurd rfl (hlast a ha)
    · obtain rfl := List.mem_singleton.mp ha
      simp [hb] at ho
  | _ =>
    rw [hs] at h
    subst h
    exact absurd rfl (hlast a ha)

theorem Story.ok_attempt {d : Delivery} {l : List Attempt} {a : Attempt} (h : Story cfg d l)
    (ha : a ∈ l) (ho : a.outcome = some .ok) : d.state = .delivered ∧ l.getLast? = some a := by
  obtain ⟨past, hp, h⟩ := h
  have hpast : a ∉ past := fun hm => (hp a hm).2 ho
  cases hs : d.state with
  | inFlight =>
    rw [hs] at h
    obtain ⟨b, rfl, _, hb, _⟩ := h
    rcases List.mem_append.mp ha with ha | ha
    · exact absurd ha hpast
    · obtain rfl := List.mem_singleton.mp ha
      rw [hb] at ho
      cases ho
  | delivered =>
    rw [hs] at h
    obtain ⟨b, rfl, _⟩ := h
    rcases List.mem_append.mp ha with ha | ha
    · exact absurd ha hpast
    · obtain rfl := List.mem_singleton.mp ha
      exact ⟨rfl, by simp⟩
  | _ =>
    rw [hs] at h
    subst h
    exact absurd ha hpast

theorem Story.in_flight {d : Delivery} {l : List Attempt} (h : Story cfg d l)
    (hs : d.state = .inFlight) : ∃ a ∈ l, a.isOpen := by
  obtain ⟨past, _, h⟩ := h
  rw [hs] at h
  obtain ⟨a, rfl, ho, _⟩ := h
  exact ⟨a, by simp, ho⟩

theorem Story.delivered {d : Delivery} {l : List Attempt} (h : Story cfg d l)
    (hs : d.state = .delivered) : ∃ a ∈ l, a.outcome = some .ok := by
  obtain ⟨past, _, h⟩ := h
  rw [hs] at h
  obtain ⟨a, rfl, _, ho⟩ := h
  exact ⟨a, by simp, ho⟩

theorem Sound.unsuccessful {d d' : Delivery} {l : List Attempt} {a a' : Attempt}
    (hf : Sound cfg ⟨d, l ++ [a]⟩) (h : d.state = .inFlight) (hs : Spent a')
    (hn : d'.attemptCount = d.attemptCount)
    (hd : d'.state = .failed ∧ d'.completedAt.isSome ∨ d.attemptCount < cfg.maxAttempts ∧
      d'.state = .pending ∧ d'.nextAttemptAt.isSome ∧ d'.completedAt = d.completedAt) :
    Sound cfg ⟨d', l ++ [a']⟩ := by
  obtain ⟨hp, _⟩ := hf.story.last_attempt h
  have hcount := hf.counted
  have hcap := hf.capped
  have hspent : ∀ b ∈ l ++ [a'], Spent b := by
    intro b hb
    rcases List.mem_append.mp hb with hb | hb
    · exact hp b hb
    · obtain rfl := List.mem_singleton.mp hb
      exact hs
  have hlen : (l ++ [a']).length = d'.attemptCount := by
    rw [hn]
    simpa using hcount
  rcases hd with ⟨hstate, hc⟩ | ⟨hlt, hstate, hdue, hc⟩
  · refine ⟨hlen, hn ▸ hcap, by simp [hstate], ⟨_, hspent, by simp [hstate]⟩, ?_, by simp [hstate]⟩
    simp [hstate, hc, DeliveryState.terminal, DeliveryState.active]
  · refine ⟨hlen, hn ▸ hcap, fun _ => ?_, ⟨_, hspent, by simp [hstate]⟩, ?_, fun _ => hdue⟩
    · simp only [hn]
      omega
    · have hcompleted := hf.completed
      simp only [h] at hcompleted
      simpa [hstate, hc, DeliveryState.terminal, DeliveryState.active] using hcompleted

/-- One case for each thing that may happen to a delivery. -/
theorem Move.sound (h : Move cfg actor f g) (hf : Sound cfg f) : Sound cfg g := by
  obtain ⟨hcount, hcap, hretry, hstory, hcompleted, hdue⟩ := id hf
  cases h with
  | stay => exact ⟨hcount, hcap, hretry, hstory, hcompleted, hdue⟩
  | admitted now h =>
    obtain ⟨past, hp, hl⟩ := hstory
    simp only [h] at hl hcompleted
    exact ⟨hcount, hcap, fun _ => hretry (Or.inl h), ⟨past, hp, hl⟩, hcompleted,
      by simp [readyRow]⟩
  | drop now x h hx =>
    obtain ⟨past, hp, hl⟩ := hstory
    simp only [h] at hl
    rcases hx with hx | hx <;>
      exact ⟨hcount, hcap, by simp [dropRow, hx], ⟨past, hp, by simpa [dropRow, hx] using hl⟩,
        by simp [dropRow, hx, DeliveryState.terminal, DeliveryState.active], by simp [dropRow, hx]⟩
  | expire now reason h =>
    obtain ⟨past, hp, hl⟩ := hstory
    simp only [h] at hl
    exact ⟨hcount, hcap, by simp [expireRow], ⟨past, hp, hl⟩,
      by simp [expireRow, DeliveryState.terminal, DeliveryState.active], by simp [expireRow]⟩
  | claim w now a hw h hopen hres howner hstart =>
    obtain ⟨past, hp, hl⟩ := hstory
    simp only [h] at hl hcompleted
    have hlt := hretry (Or.inr h)
    refine ⟨?_, ?_, by simp [leaseRow], ⟨past, hp, a, by rw [hl], hopen, hres, ?_, ?_⟩, ?_,
      by simp [leaseRow]⟩
    · simpa [leaseRow] using hcount
    · simp only [leaseRow] at hlt ⊢
      omega
    · simp [leaseRow, howner]
    · simp [leaseRow, hstart]
    · simpa [leaseRow, DeliveryState.terminal, DeliveryState.active] using hcompleted
  | @settle d l a now c h count =>
    by_cases hok : c.result.outcome = .ok
    · obtain ⟨hp, _⟩ := hstory.last_attempt h
      rw [settlement_ok hok]
      refine ⟨by simpa [settleRow] using hcount, hcap, by simp [settleRow],
        ⟨l, hp, _, rfl, rfl, ?_⟩, ?_, by simp [settleRow]⟩
      · simp [closeRow, hok]
      · simp [settleRow, DeliveryState.terminal, DeliveryState.active]
    · have hspent : Spent (closeRow now c.result a) := ⟨rfl, by simpa [closeRow] using hok⟩
      rcases settlement_not_ok cfg now hok with ⟨reason, hs⟩ | ⟨hlt, at_, hs⟩
      · rw [hs]
        exact hf.unsuccessful h hspent rfl (Or.inl ⟨rfl, rfl⟩)
      · rw [hs]
        exact hf.unsuccessful h hspent rfl (Or.inr ⟨count ▸ hlt, rfl, rfl, rfl⟩)
  | @reclaim d l a now h =>
    have hspent : Spent (expireAttempt now a) := ⟨rfl, by simp [expireAttempt]⟩
    rcases reclaimSettlement_cases cfg now d with ⟨reason, hs⟩ | ⟨hlt, at_, hs⟩
    · rw [hs]
      exact hf.unsuccessful h hspent rfl (Or.inl ⟨rfl, rfl⟩)
    · rw [hs]
      exact hf.unsuccessful h hspent rfl (Or.inr ⟨hlt, rfl, rfl, rfl⟩)

theorem Move.identity (h : Move cfg actor f g) :
    g.delivery.id = f.delivery.id ∧ g.delivery.simulationId = f.delivery.simulationId ∧
      g.delivery.eventId = f.delivery.eventId ∧ g.delivery.consumerId = f.delivery.consumerId ∧
      candidateOf g.delivery = candidateOf f.delivery := by
  cases h with
  | settle now c _ _ =>
    simp only [settleRow]
    split <;> exact ⟨rfl, rfl, rfl, rfl, rfl⟩
  | reclaim now _ =>
    simp only [settleRow]
    split <;> exact ⟨rfl, rfl, rfl, rfl, rfl⟩
  | _ => exact ⟨rfl, rfl, rfl, rfl, rfl⟩

/-- The four ends of the lifecycle are never left, and nothing in them changes. -/
theorem Move.terminal_fixed (h : Move cfg actor f g) (ht : f.delivery.state.terminal) : g = f := by
  cases h with
  | stay => rfl
  | admitted now h => simp [h, DeliveryState.terminal, DeliveryState.active] at ht
  | drop now x h hx => simp [h, DeliveryState.terminal, DeliveryState.active] at ht
  | expire now reason h => simp [h, DeliveryState.terminal, DeliveryState.active] at ht
  | claim w now a hw h => simp [h, DeliveryState.terminal, DeliveryState.active] at ht
  | settle now c h count => simp [h, DeliveryState.terminal, DeliveryState.active] at ht
  | reclaim now h => simp [h, DeliveryState.terminal, DeliveryState.active] at ht

/-- Only a claim by the worker itself gives it a delivery. -/
theorem Move.held_stays {w : WorkerId} (h : Move cfg actor f g) (hw : actor ≠ some w)
    (hg : held w g.delivery) : g = f := by
  simp only [held, Bool.and_eq_true, beq_iff_eq] at hg
  cases h with
  | stay => rfl
  | admitted => simp [readyRow] at hg
  | drop now x h hx => rcases hx with hx | hx <;> simp [dropRow, hx] at hg
  | expire => simp [expireRow] at hg
  | claim v now a hv =>
    have hvw : v = w := by simpa [leaseRow] using hg
    exact absurd (hvw ▸ hv) hw
  | settle now c => exact absurd hg.1 (settleRow_settled _ _ _).2
  | reclaim now => exact absurd hg.1 (settleRow_settled _ _ _).2

end Sound

end DeliveryFile
