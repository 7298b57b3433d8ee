import WebhookRecovery.DeliveryLifecycle
import WebhookRecovery.TalliedRuns

/-! How much work a delivery can be. Every change of a row brings it nearer to an end, whoever
makes it: an attempt takes an admission, a claim and a settlement, and there are so many
attempts. -/
namespace BoundedWork

open KeyedTables RecoverySchema InterleavedPrograms DeliveryPolicy DeliveryAdmission WorkerClaim
open LeaseReaper EventIngest DeliveryPipeline DeliveryFile PipelineInvariant DeliveryLifecycle
open TalliedRuns

def attemptCap (cfg : Settings) : ℕ := max 1 cfg.maxAttempts

/-- The changes that a row may still go through: three for each attempt that it has left. -/
def changesLeft (cfg : Settings) (d : Delivery) : ℕ :=
  match d.state with
  | .pending => 3 * (attemptCap cfg - d.attemptCount)
  | .ready => 3 * (attemptCap cfg - d.attemptCount) - 1
  | .inFlight => 3 * (attemptCap cfg - d.attemptCount) + 1
  | _ => 0

def changed (q : ℕ → Bool) (s t : State) : ℕ :=
  s.db.deliveries.rows.countP fun d => q d.id && decide (d ∉ t.db.deliveries.rows)

def known (q : ℕ → Bool) (s : State) : ℕ := s.db.deliveries.rows.countP fun d => q d.id

def live (q : ℕ → Bool) (s : State) : ℕ :=
  s.db.deliveries.rows.countP fun d => q d.id && d.state.active

def remaining (cfg : Settings) (q : ℕ → Bool) (s : State) : ℕ :=
  (s.db.deliveries.rows.map fun d => if q d.id then changesLeft cfg d else 0).sum

section Files

variable {cfg : Settings} {actor : Option WorkerId} {f g : File}

theorem changesLeft_terminal {d : Delivery} (h : d.state.active = false) :
    changesLeft cfg d = 0 := by
  unfold changesLeft
  cases hs : d.state <;> simp_all [DeliveryState.active]

theorem fresh_changesLeft (h : Fresh f) : changesLeft cfg f.delivery = 3 * attemptCap cfg := by
  obtain ⟨-, hs, hn, -⟩ := h
  rw [changesLeft, hs, hn]
  rfl

theorem changesLeft_le (h : Sound cfg f) : changesLeft cfg f.delivery ≤ 3 * attemptCap cfg := by
  have hcap : f.delivery.attemptCount ≤ attemptCap cfg := h.capped
  unfold changesLeft
  split
  · omega
  · omega
  · rename_i hs
    obtain ⟨a, ha, -⟩ := h.story.in_flight hs
    have hpos := List.length_pos_of_mem ha
    rw [h.counted] at hpos
    omega
  · omega

theorem changesLeft_le_active (h : Sound cfg f) :
    changesLeft cfg f.delivery ≤ if f.delivery.state.active then 3 * attemptCap cfg else 0 := by
  split
  · exact changesLeft_le h
  · rename_i ha
    exact (changesLeft_terminal (by simpa using ha)).le

/-- One case for each thing that may happen to a delivery: it uses up one change at least. -/
theorem move_changesLeft (h : Move cfg actor f g) (hf : Sound cfg f)
    (hne : g.delivery ≠ f.delivery) :
    changesLeft cfg g.delivery + 1 ≤ changesLeft cfg f.delivery := by
  have hcap : f.delivery.attemptCount ≤ attemptCap cfg := hf.capped
  have hleft : f.delivery.state = .pending ∨ f.delivery.state = .ready →
      f.delivery.attemptCount < attemptCap cfg := hf.retryable
  have settled : ∀ (d : Delivery) (now : ℚ) (x : Settlement), d.state = .inFlight →
      changesLeft cfg (settleRow now x d) + 1 ≤ changesLeft cfg d := by
    intro d now x hs
    cases x <;> simp [changesLeft, settleRow, hs]
  cases h with
  | stay => exact absurd rfl hne
  | admitted now h =>
    have := hleft (Or.inl h)
    simp only [changesLeft, readyRow, h] at *
    omega
  | @drop d l now x h hx =>
    have := hleft (Or.inl h)
    have hzero : changesLeft cfg (dropRow now x d) = 0 := by
      apply changesLeft_terminal
      rcases hx with hx | hx <;> simp [dropRow, hx, DeliveryState.active]
    rw [hzero]
    simp only [changesLeft, h] at *
    omega
  | expire now reason h =>
    have := hleft (Or.inr h)
    simp only [changesLeft, expireRow, h] at *
    omega
  | claim w now a hw h =>
    have := hleft (Or.inr h)
    simp only [changesLeft, leaseRow, h] at *
    omega
  | settle now c h => exact settled _ now _ h
  | reclaim now h => exact settled _ now _ h

end Files

section Steps

variable {cfg : Settings} {q : ℕ → Bool} {s t : State} {e : Action}

/-- Every step pays for what it changes, and only new rows raise what is left. -/
theorem step_pays (hi : Invariant cfg s) (h : Step cfg s e t) :
    3 * attemptCap cfg * known q s + changed q s t + remaining cfg q t ≤
      3 * attemptCap cfg * known q t + remaining cfg q s := by
  obtain ⟨f, new, -, hrows, hmove, hfresh, -⟩ := (step_effect hi h).deliveries
  have hid : ∀ d ∈ s.db.deliveries.rows, (f d).id = d.id := fun d hd => (hmove d hd).identity.1
  have hknown : known q t = known q s + new.countP fun d => q d.id := by
    rw [known, hrows, List.countP_append, List.countP_map, known]
    congr 1
    refine List.countP_congr fun d hd => ?_
    rw [Function.comp_apply, hid d hd]
  have hnew : (new.map fun d => if q d.id then changesLeft cfg d else 0).sum =
      3 * attemptCap cfg * new.countP fun d => q d.id :=
    sum_ite_const fun d hd _ => fresh_changesLeft (hfresh d hd)
  have hold : (s.db.deliveries.rows.map fun d =>
      if q (f d).id then changesLeft cfg (f d) else 0).sum + changed q s t ≤ remaining cfg q s := by
    refine sum_add_countP_le fun d hd => ?_
    rw [hid d hd]
    by_cases hq : q d.id
    · by_cases hgone : d ∈ t.db.deliveries.rows
      · have hsame : f d = d := t.db.deliveries.row_unique
          (hrows ▸ List.mem_append_left _ (List.mem_map_of_mem hd)) hgone (hid d hd)
        simp [hq, hgone, hsame]
      · have hne : f d ≠ d := by
          intro he
          refine hgone ?_
          rw [hrows]
          exact List.mem_append_left _ (List.mem_map.mpr ⟨d, hd, he⟩)
        have hpay : changesLeft cfg (f d) + 1 ≤ changesLeft cfg d :=
          move_changesLeft (hmove d hd) (hi.files d hd) hne
        simpa [hq, hgone] using hpay
    · simp [hq]
  have hsplit : remaining cfg q t = (s.db.deliveries.rows.map fun d =>
      if q (f d).id then changesLeft cfg (f d) else 0).sum +
        3 * attemptCap cfg * new.countP fun d => q d.id := by
    rw [remaining, hrows, List.map_append, List.sum_append, hnew, List.map_map]
    rfl
  rw [hknown, hsplit, Nat.mul_add]
  omega

theorem remaining_le (hi : Invariant cfg s) :
    remaining cfg q s ≤ 3 * attemptCap cfg * live q s := by
  have hle : remaining cfg q s ≤ (s.db.deliveries.rows.map fun d =>
      if q d.id && d.state.active then 3 * attemptCap cfg else 0).sum := by
    refine List.sum_le_sum fun d hd => ?_
    have hfile : changesLeft cfg d ≤ if d.state.active then 3 * attemptCap cfg else 0 :=
      changesLeft_le_active (hi.files d hd)
    by_cases hq : q d.id
    · simpa [hq] using hfile
    · simp [hq]
  rwa [sum_ite_const fun _ _ _ => rfl] at hle

theorem spent_le (hs : (system cfg).Reachable s) {n : ℕ}
    (h : (tallied (system cfg) (changed q)).Execution ⟨s, 0⟩ ⟨t, n⟩) :
    n ≤ 3 * attemptCap cfg * (live q s + (known q t - known q s)) := by
  let given := fun s => 3 * attemptCap cfg * known q s
  have hpay : ∀ s e t, (system cfg).Reachable s → (system cfg).step s e t →
      given s + changed q s t + remaining cfg q t ≤ given t + remaining cfg q s :=
    fun s e t hr he => step_pays (reachable_invariant hr) he
  have hspent : n + remaining cfg q t + 3 * attemptCap cfg * known q s ≤
      0 + remaining cfg q s + 3 * attemptCap cfg * known q t := spent_between hpay hs h
  have hle := remaining_le (q := q) (reachable_invariant hs)
  have hgrown : 3 * attemptCap cfg * known q t ≤
      3 * attemptCap cfg * known q s + 3 * attemptCap cfg * (known q t - known q s) := by
    rw [← Nat.mul_add]
    exact Nat.mul_le_mul_left _ le_add_tsub
  rw [Nat.mul_add]
  omega

theorem live_le_known : live q s ≤ known q s := by
  refine List.countP_mono_left fun d _ hd => ?_
  simp only [Bool.and_eq_true] at hd
  exact hd.1

theorem known_one (i : ℕ) (s : State) : known (fun j => j == i) s ≤ 1 := by
  have hn : (s.db.deliveries.rows.map Delivery.id).Nodup := s.db.deliveries.nodup_keys
  have hcount := List.nodup_iff_count_le_one.mp hn i
  rwa [List.count, List.countP_map] at hcount

/-- Over any run, from any reachable state on, the deliveries of a scope change at most three
times for each attempt allowed: those that were live at the start, and those that the run adds.
A single delivery does so at most that often in its life. -/
theorem changes_bounded (cfg : Settings) (hs : (system cfg).Reachable s) :
    (∀ q n, (tallied (system cfg) (changed q)).Execution ⟨s, 0⟩ ⟨t, n⟩ →
      n ≤ 3 * max 1 cfg.maxAttempts * (live q s + (known q t - known q s))) ∧
    ∀ i n, (tallied (system cfg) (changed fun j => j == i)).Execution ⟨s, 0⟩ ⟨t, n⟩ →
      n ≤ 3 * max 1 cfg.maxAttempts := by
  refine ⟨fun q n h => spent_le hs h, fun i n h => (spent_le hs h).trans ?_⟩
  have hlive := live_le_known (q := fun j => j == i) (s := s)
  have hs₁ := known_one i s
  have ht₁ := known_one i t
  calc 3 * attemptCap cfg * (live (fun j => j == i) s +
        (known (fun j => j == i) t - known (fun j => j == i) s))
      ≤ 3 * attemptCap cfg * 1 := Nat.mul_le_mul_left _ (by omega)
    _ = 3 * max 1 cfg.maxAttempts := Nat.mul_one _

end Steps

theorem changes_bounded_first_claim : ∃ s n,
    run shipped (initial soleConsumer []) firstClaim = some s ∧
    (tallied (system shipped) (changed fun j => j == 1)).Execution
      ⟨initial soleConsumer [], 0⟩ ⟨s, n⟩ ∧ n ≤ 3 * max 1 shipped.maxAttempts := by
  obtain ⟨s, hs, -⟩ := firstClaim_inFlight
  have hinit : (system shipped).Reachable (initial soleConsumer []) := .initial ⟨_, _, rfl⟩
  obtain ⟨n, hn⟩ : ∃ n, (tallied (system shipped) (changed fun j => j == 1)).Execution
      ⟨initial soleConsumer [], 0⟩ ⟨s, n⟩ := exists_tally (run_execution hs) 0
  exact ⟨s, n, hs, hn, (changes_bounded shipped hinit).2 1 n hn⟩

end BoundedWork
