import WebhookRecovery.DeliveryPolicy
import WebhookRecovery.MetricsSeries

/-! Admission control: which pending deliveries become ready, and how many. Deciding is kept
apart from writing; every SELECT is a statement of its own. -/
namespace DeliveryAdmission

open KeyedTables RecoverySchema InterleavedPrograms DeliveryPolicy MetricsSeries

structure Budget where
  bufferSlots : ℤ
  rateSlots : ℤ
  deriving DecidableEq, Repr

def Budget.slots (b : Budget) : ℤ := max 0 (min b.bufferSlots b.rateSlots)

structure Selection where
  admitted : List ℕ
  drops : List Drop

structure ConsumerState where
  id : ConsumerId
  weight : ℚ
  concurrencyCap : ℕ
  maxAttemptsPerS : ℚ
  demand : ℕ
  attemptsInWindow : ℕ
  inFlight : ℕ
  ready : ℕ
  deriving DecidableEq, Repr

/-- The rate term subtracts `ready` as well as attempts: admitted work has no attempt row yet.
Concurrency is a gate, not a quantity. -/
def ConsumerState.headroom (s : ConsumerState) (windowS : ℚ) (pooledConcurrency : Bool) : ℤ :=
  if !pooledConcurrency && decide (s.concurrencyCap ≤ s.inFlight) then 0
  else
    let used : ℤ := s.attemptsInWindow + s.ready
    max 0 (min s.demand (pyInt (s.maxAttemptsPerS * windowS) - used))

def totalCap (simulationId : SimulationId) (db : Db) : ℕ :=
  ((db.cast.consumers.filter fun c => c.simulationId == simulationId).map
    Consumer.concurrencyCap).sum

def readyCount (simulationId : SimulationId) (db : Db) : ℕ :=
  db.deliveries.rows.countP fun d => d.simulationId == simulationId && d.state == .ready

def inWindow (simulationId : SimulationId) (since : ℚ) (a : Attempt) : Bool :=
  a.simulationId == simulationId && decide (since ≤ a.startedAt)

def attemptsInWindow (cfg : Settings) (simulationId : SimulationId) (now : ℚ) (db : Db) : ℕ :=
  db.attempts.rows.countP (inWindow simulationId (now - cfg.fairnessWindowVirtualS))

def bufferTarget (cfg : Settings) (cap : ℕ) : ℤ := ⌈cfg.readyBufferDepthMultiplier * cap⌉

def computeBudget (cfg : Settings) (simulationId : SimulationId) (globalAttemptsPerS now : ℚ) :
    Program Db Budget := do
  let cap ← Program.read (totalCap simulationId)
  let ready ← Program.read (readyCount simulationId)
  let attempts ← Program.read (attemptsInWindow cfg simulationId now)
  let rateBudget := pyInt (globalAttemptsPerS * cfg.fairnessWindowVirtualS)
  return ⟨bufferTarget cfg cap - ready, rateBudget - attempts - ready⟩

/-- The consumer furthest behind: lowest `granted / weight`, ties broken on the id. -/
def furthestBehind (weights : ConsumerId → ℚ) (granted : ConsumerId → ℕ)
    (active : List ConsumerId) : Option ConsumerId :=
  active.argmin fun c => (toLex ((granted c : ℚ) / weights c, c) : ℚ ×ₗ ConsumerId)

structure Allocation where
  granted : ConsumerId → ℕ
  active : List ConsumerId

/-- One slot; nothing happens once nobody is active. -/
def grantSlot (weights : ConsumerId → ℚ) (headroom : ConsumerId → ℤ) (a : Allocation) :
    Allocation :=
  match furthestBehind weights a.granted a.active with
  | none => a
  | some winner =>
    let granted := Function.update a.granted winner (a.granted winner + 1)
    { granted := granted
      active := if headroom winner ≤ granted winner then a.active.erase winner else a.active }

def weightOf (states : List ConsumerState) (c : ConsumerId) : ℚ :=
  ((states.find? fun s => s.id == c).map ConsumerState.weight).getD 1

def allocateStart (states : List ConsumerState) (headroom : ConsumerId → ℤ) : Allocation where
  granted := fun _ => 0
  active := ((states.map ConsumerState.id).filter fun c => decide (0 < headroom c)).dedup

def allocate (states : List ConsumerState) (headroom : ConsumerId → ℤ) (budget : ℤ) :
    ConsumerId → ℕ :=
  ((grantSlot (weightOf states) headroom)^[budget.toNat] (allocateStart states headroom)).granted

def dueAt (now : ℚ) (nextAttemptAt : Option ℚ) : Bool :=
  match nextAttemptAt with
  | none => false
  | some t => decide (t ≤ now)

/-- Knobs and demand in one query: a consumer with nothing due counts zero. -/
def consumerDemand (simulationId : SimulationId) (now : ℚ) (db : Db) : List (Consumer × ℕ) :=
  ((db.cast.consumers.filter fun c => c.simulationId == simulationId).insertionSort
      fun a b => a.id ≤ b.id).map fun c =>
    (c, db.deliveries.rows.countP fun d =>
      d.consumerId == c.id && d.state == .pending && dueAt now d.nextAttemptAt)

def windowUsage (cfg : Settings) (simulationId : SimulationId) (now : ℚ) (db : Db) :
    List (ConsumerId × ℕ) :=
  groupCount ((db.attempts.rows.filter
    (inWindow simulationId (now - cfg.fairnessWindowVirtualS))).map Attempt.consumerId)

def consumerState (gauges : Gauges) (attempts : List (ConsumerId × ℕ)) (row : Consumer × ℕ) :
    ConsumerState where
  id := row.1.id
  weight := row.1.weight
  concurrencyCap := row.1.concurrencyCap
  maxAttemptsPerS := row.1.maxAttemptsPerS
  demand := row.2
  attemptsInWindow := countOf attempts row.1.id
  inFlight := countOf gauges (row.1.id, .inFlight)
  ready := countOf gauges (row.1.id, .ready)

def readConsumerStates (cfg : Settings) (simulationId : SimulationId) (now : ℚ)
    (gauges : Gauges) : Program Db (List ConsumerState) := do
  let consumers ← Program.read (consumerDemand simulationId now)
  let attempts ← Program.read (windowUsage cfg simulationId now)
  return consumers.map (consumerState gauges attempts)

def isDue (simulationId : SimulationId) (now : ℚ) (d : Delivery) : Bool :=
  d.simulationId == simulationId && d.state == .pending && dueAt now d.nextAttemptAt

def fifoCandidates (scan : ScanOrder) (simulationId : SimulationId) (now : ℚ) (limit : ℕ)
    (db : Db) : List Candidate :=
  ((scan.sortBy Delivery.nextAttemptAt
    (db.deliveries.rows.filter (isDue simulationId now))).take limit).map candidateOf

/-- The oldest due deliveries per consumer, `wanted * overfetch` of each. -/
def fairCandidates (scan : ScanOrder) (simulationId : SimulationId) (now : ℚ)
    (consumers : List ConsumerId) (wanted overfetch : ℕ) (db : Db) : List Candidate :=
  (consumers.insertionSort (· ≤ ·)).flatMap fun c =>
    ((scan.sortBy Delivery.nextAttemptAt
      (db.deliveries.rows.filter fun d => isDue simulationId now d && d.consumerId == c)).take
        (wanted * overfetch)).map candidateOf

structure Rationing where
  admitted : List ℕ := []
  taken : ConsumerId → ℕ := fun _ => 0

def rationStep (slots : ℤ) (allowances : ConsumerId → ℤ) (r : Rationing) (c : Candidate) :
    Rationing :=
  if slots ≤ r.admitted.length then r
  else if allowances c.consumerId ≤ r.taken c.consumerId then r
  else
    { admitted := r.admitted ++ [c.id]
      taken := Function.update r.taken c.consumerId (r.taken c.consumerId + 1) }

def ration (slots : ℤ) (allowances : ConsumerId → ℤ) (candidates : List Candidate) : List ℕ :=
  (candidates.foldl (rationStep slots allowances) {}).admitted

/-- The share of each consumer in this pass: weighted round-robin, or, on the naive arm, one
shared pool with the rate caps alone. -/
def allowancesOf (cfg : Settings) (states : List ConsumerState) (slots : ℤ) (fairDrain : Bool)
    (c : ConsumerId) : ℤ :=
  let headroom : ConsumerId → ℤ := fun c =>
    match states.find? fun s => s.id == c with
    | none => 0
    | some s => s.headroom cfg.fairnessWindowVirtualS (!fairDrain)
  if states.any fun s => s.id == c then
    if fairDrain then allocate states headroom slots c else min (headroom c) slots
  else 0

def fetchCandidates (cfg : Settings) (scan : ScanOrder) (simulationId : SimulationId) (now : ℚ)
    (states : List ConsumerState) (allowances : ConsumerId → ℤ) (slots : ℤ) (fairDrain : Bool)
    (db : Db) : List Candidate :=
  if fairDrain then
    let wanted := (states.map fun s => (allowances s.id).toNat).foldl max 0
    fairCandidates scan simulationId now (states.map ConsumerState.id) wanted
      cfg.admissionOverfetch db
  else fifoCandidates scan simulationId now (slots.toNat * cfg.admissionOverfetch) db

/-- What to admit, and what its owner's policy says to drop instead. -/
def selectCandidates (cfg : Settings) (scan : ScanOrder) (simulationId : SimulationId) (now : ℚ)
    (budget : Budget) (gauges : Gauges) (policies : PolicyMap) (fairDrain : Bool) :
    Program Db Selection := do
  if budget.slots ≤ 0 then
    return ⟨[], []⟩
  let states ← readConsumerStates cfg simulationId now gauges
  let allowances := allowancesOf cfg states budget.slots fairDrain
  if states.all fun s => allowances s.id == 0 then
    return ⟨[], []⟩
  let candidates ← Program.read
    (fetchCandidates cfg scan simulationId now states allowances budget.slots fairDrain)
  let verdict ← Program.read (evaluate simulationId candidates policies now)
  return ⟨ration budget.slots allowances verdict.admitted, verdict.drops⟩

/-- Admit. `ready_at` is the order workers will claim in. -/
def markReady (deliveryIds : List ℕ) (now : ℚ) (db : Db) : Db :=
  { db with
    deliveries := db.deliveries.updateWhere (fun d => decide (d.id ∈ deliveryIds))
      (fun d => { d with state := .ready, readyAt := some now }) (fun _ => rfl) }

def readyRow (now : ℚ) (d : Delivery) : Delivery := { d with state := .ready, readyAt := some now }

theorem markReady_rows (deliveryIds : List ℕ) (now : ℚ) (db : Db) :
    (markReady deliveryIds now db).deliveries.rows =
      db.deliveries.rows.map fun d => if d.id ∈ deliveryIds then readyRow now d else d := by
  refine List.map_congr_left fun d _ => ?_
  simp only [decide_eq_true_eq]
  rfl

theorem totalCap_of_cast {simulationId : SimulationId} {s t : Db} (h : t.cast = s.cast) :
    totalCap simulationId t = totalCap simulationId s := by
  rw [totalCap, h, totalCap]

theorem headroom_le (s : ConsumerState) (windowS : ℚ) (pooled : Bool) :
    s.headroom windowS pooled ≤
      max 0 (pyInt (s.maxAttemptsPerS * windowS) - (s.attemptsInWindow + s.ready)) := by
  unfold ConsumerState.headroom
  split
  · exact le_max_left _ _
  · simp only []
    omega

structure WithinHeadroom (headroom : ConsumerId → ℤ) (a : Allocation) : Prop where
  active_nodup : a.active.Nodup
  active_below : ∀ c ∈ a.active, (a.granted c : ℤ) < headroom c
  bounded : ∀ c, (a.granted c : ℤ) ≤ max 0 (headroom c)

theorem allocateStart_within (states : List ConsumerState) (headroom : ConsumerId → ℤ) :
    WithinHeadroom headroom (allocateStart states headroom) where
  active_nodup := List.nodup_dedup _
  active_below := by
    intro c hc
    have hpos := (List.mem_filter.mp (List.mem_dedup.mp hc)).2
    simpa [allocateStart] using hpos
  bounded := fun c => le_max_left _ _

theorem furthestBehind_mem {weights : ConsumerId → ℚ} {granted : ConsumerId → ℕ}
    {active : List ConsumerId} {c : ConsumerId}
    (h : furthestBehind weights granted active = some c) : c ∈ active :=
  List.argmin_mem (Option.mem_def.mpr h)

theorem grantSlot_within (weights : ConsumerId → ℚ) {headroom : ConsumerId → ℤ} {a : Allocation}
    (h : WithinHeadroom headroom a) : WithinHeadroom headroom (grantSlot weights headroom a) := by
  unfold grantSlot
  cases hw : furthestBehind weights a.granted a.active with
  | none => exact h
  | some w =>
    have hlt := h.active_below w (furthestBehind_mem hw)
    constructor
    · dsimp only
      split
      · exact h.active_nodup.erase w
      · exact h.active_nodup
    · intro c hc
      dsimp only at hc ⊢
      by_cases hcw : c = w
      · subst hcw
        rw [Function.update_self] at hc ⊢
        split at hc
        · exact absurd hc h.active_nodup.not_mem_erase
        · omega
      · rw [Function.update_of_ne hcw]
        refine h.active_below c ?_
        split at hc
        · exact List.mem_of_mem_erase hc
        · exact hc
    · intro c
      by_cases hcw : c = w
      · subst hcw
        simp only [Function.update_self]
        omega
      · simpa only [Function.update_of_ne hcw] using h.bounded c

theorem allocate_le_headroom (states : List ConsumerState) (headroom : ConsumerId → ℤ)
    (budget : ℤ) (c : ConsumerId) :
    (allocate states headroom budget c : ℤ) ≤ max 0 (headroom c) := by
  have h : ∀ n, WithinHeadroom headroom
      ((grantSlot (weightOf states) headroom)^[n] (allocateStart states headroom)) := by
    intro n
    induction n with
    | zero => exact allocateStart_within states headroom
    | succ n ih =>
      rw [Function.iterate_succ_apply']
      exact grantSlot_within _ ih
  exact (h budget.toNat).bounded c

/-- On either arm a consumer's allowance stays within what its rate leaves in the window. -/
theorem allowancesOf_le {cfg : Settings} {states : List ConsumerState} {slots : ℤ}
    {fairDrain : Bool} {c : ConsumerId} {n : ℤ} (hn : 0 ≤ n)
    (h : ∀ s ∈ states, s.id = c →
      pyInt (s.maxAttemptsPerS * cfg.fairnessWindowVirtualS) - (s.attemptsInWindow + s.ready) ≤ n) :
    allowancesOf cfg states slots fairDrain c ≤ n := by
  unfold allowancesOf
  split
  · rename_i hany
    obtain ⟨s, hs⟩ := Option.isSome_iff_exists.mp (List.find?_isSome.mpr (List.any_eq_true.mp hany))
    have hroom := headroom_le s cfg.fairnessWindowVirtualS (!fairDrain)
    have hleft := h s (List.mem_of_find?_eq_some hs) (by simpa using List.find?_some hs)
    have hmax : s.headroom cfg.fairnessWindowVirtualS (!fairDrain) ≤ n :=
      hroom.trans (max_le hn hleft)
    split
    · refine (allocate_le_headroom _ _ _ _).trans (max_le hn ?_)
      simpa only [hs] using hmax
    · refine (min_le_left _ _).trans ?_
      simpa only [hs] using hmax
  · exact hn

theorem mem_fetchCandidates {cfg : Settings} {scan : ScanOrder} {simulationId : SimulationId}
    {now : ℚ} {states : List ConsumerState} {allowances : ConsumerId → ℤ} {slots : ℤ}
    {fairDrain : Bool} {db : Db} {x : Candidate}
    (h : x ∈ fetchCandidates cfg scan simulationId now states allowances slots fairDrain db) :
    ∃ d ∈ db.deliveries.rows, isDue simulationId now d ∧ candidateOf d = x := by
  unfold fetchCandidates at h
  split at h
  · obtain ⟨c, _, hx⟩ := List.mem_flatMap.mp h
    obtain ⟨d, hd, rfl⟩ := List.mem_map.mp hx
    have hrow := List.mem_filter.mp ((scan.sortBy_perm _ _).subset (List.mem_of_mem_take hd))
    rw [Bool.and_eq_true] at hrow
    exact ⟨d, hrow.1, hrow.2.1, rfl⟩
  · obtain ⟨d, hd, rfl⟩ := List.mem_map.mp h
    have hrow := List.mem_filter.mp ((scan.sortBy_perm _ _).subset (List.mem_of_mem_take hd))
    exact ⟨d, hrow.1, hrow.2, rfl⟩

structure Rationed (slots : ℤ) (allowances : ConsumerId → ℤ) (chosen : List Candidate)
    (r : Rationing) : Prop where
  admitted : r.admitted = chosen.map Candidate.id
  taken : ∀ c, r.taken c = chosen.countP fun x => x.consumerId == c
  budget : (chosen.length : ℤ) ≤ max 0 slots
  share : ∀ c, (chosen.countP fun x => x.consumerId == c : ℤ) ≤ max 0 (allowances c)

theorem rationStep_rationed {slots : ℤ} {allowances : ConsumerId → ℤ} {chosen : List Candidate}
    {r : Rationing} (h : Rationed slots allowances chosen r) (x : Candidate) :
    Rationed slots allowances chosen (rationStep slots allowances r x) ∨
      Rationed slots allowances (chosen ++ [x]) (rationStep slots allowances r x) := by
  unfold rationStep
  split
  · exact Or.inl h
  · rename_i hslots
    split
    · exact Or.inl h
    · rename_i hshare
      rw [h.admitted, List.length_map] at hslots
      rw [h.taken] at hshare
      refine Or.inr ⟨by simp [h.admitted], fun c => ?_, ?_, fun c => ?_⟩
      · by_cases hc : c = x.consumerId
        · subst hc
          simp [h.taken, List.countP_append]
        · have hne : (x.consumerId == c) = false := by simpa using fun he => hc he.symm
          simp [Function.update_of_ne hc, h.taken, List.countP_append, hne]
      · rw [List.length_append, List.length_singleton]
        omega
      · rw [List.countP_append, List.countP_singleton]
        by_cases hc : x.consumerId = c
        · subst hc
          simp only [beq_self_eq_true, if_true]
          omega
        · simpa [hc] using h.share c

theorem rationed_start (slots : ℤ) (allowances : ConsumerId → ℤ) :
    Rationed slots allowances [] {} :=
  ⟨rfl, fun _ => rfl, by simp, fun _ => by simp⟩

theorem foldl_rationed {slots : ℤ} {allowances : ConsumerId → ℤ} (l : List Candidate)
    {chosen : List Candidate} {r : Rationing} (h : Rationed slots allowances chosen r) :
    ∃ more : List Candidate, more.Sublist l ∧
      Rationed slots allowances (chosen ++ more) (l.foldl (rationStep slots allowances) r) := by
  induction l generalizing chosen r with
  | nil => exact ⟨[], .slnil, by simpa using h⟩
  | cons x l ih =>
    rw [List.foldl_cons]
    rcases rationStep_rationed h x with hx | hx
    · obtain ⟨more, hm, hr⟩ := ih hx
      exact ⟨more, hm.cons x, hr⟩
    · obtain ⟨more, hm, hr⟩ := ih hx
      exact ⟨x :: more, hm.cons_cons x, by simpa using hr⟩

/-- Rationing keeps a sublist of the candidates, within the budget and within every share. -/
theorem ration_chosen (slots : ℤ) (allowances : ConsumerId → ℤ) (candidates : List Candidate) :
    ∃ chosen : List Candidate, chosen.Sublist candidates ∧
      ration slots allowances candidates = chosen.map Candidate.id ∧
      (chosen.length : ℤ) ≤ max 0 slots ∧
      ∀ c, (chosen.countP fun x => x.consumerId == c : ℤ) ≤ max 0 (allowances c) := by
  obtain ⟨chosen, hs, hr⟩ := foldl_rationed candidates (rationed_start slots allowances)
  exact ⟨chosen, hs, hr.admitted, hr.budget, hr.share⟩

end DeliveryAdmission
