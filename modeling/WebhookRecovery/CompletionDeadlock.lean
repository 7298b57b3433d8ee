import WebhookRecovery.PipelineInvariant
import WebhookRecovery.RowLocks

/-! Completions and a conductor's sweeps as transactions that lock one row after another. What a
transaction has written is seen when it commits, and it keeps its locks until it ends. -/
namespace CompletionDeadlock

open KeyedTables RecoverySchema InterleavedPrograms WorkerClaim LeaseReaper ConductorPass RowLocks

inductive Row where
  | attempt (id : ℕ)
  | delivery (id : ℕ)
  deriving DecidableEq, Repr

inductive Txn where
  | conductor
  | worker (w : WorkerId)
  deriving DecidableEq, Repr

structure Completing where
  results : List AttemptResult
  now : ℚ
  todo : List Row

structure Sweep where
  simulationId : SimulationId
  now : ℚ
  taken : List ℕ

/-- The conductor's transaction is the sweeps it has made and the attempts still to close. -/
structure State where
  db : Db
  batches : WorkerId → Option (List Claimed)
  locks : Locks Row Txn
  completing : WorkerId → Option Completing
  sweeps : List Sweep
  closing : List ℕ

def isDelivered (x : ℕ × Settlement) : Bool := x.2 matches .delivered

/-- Attempts first. The delivered rows are one statement, which visits them in any order; the
failed and the retried ones are a statement each. -/
def completionRows (cfg : Settings) (now : ℚ) (completions : List Completion)
    (delivered : List ℕ) : List Row :=
  completions.map (fun c => .attempt c.claimed.attemptId) ++ delivered.map .delivery ++
    ((settlements cfg now completions).filter fun x => !isDelivered x).map fun x => .delivery x.1

def todo (s : State) : Txn → List Row
  | .conductor => s.closing.map .attempt
  | .worker w => ((s.completing w).map Completing.todo).getD []

def openAttempts (db : Db) (taken : List ℕ) : List ℕ :=
  (db.attempts.rows.filter fun a => decide (a.deliveryId ∈ taken) && a.isOpen).map Attempt.id

def matchesRow (db : Db) (t : Txn) : Row → Bool
  | .attempt i => db.attempts.rows.any fun a => a.id == i && a.isOpen
  | .delivery i =>
    match t with
    | .conductor => false
    | .worker w => db.deliveries.rows.any fun d => d.id == i && held w d

def wanted (s : State) (t : Txn) : Option Row := (todo s t).head?.filter (matchesRow s.db t)

def lockedDelivery (s : State) (i : ℕ) : Bool := (s.locks (.delivery i)).isSome

/-- `FOR UPDATE SKIP LOCKED`. -/
def takenBy (s : State) (simulationId : SimulationId) (now : ℚ) : List ℕ :=
  (expiredLeases simulationId now (lockedDelivery s) s.db).map Delivery.id

/-- `touch` is one row of an update; `abort` is a failure or the victim of a deadlock check. -/
inductive Event where
  | begin (w : WorkerId) (results : List AttemptResult) (now : ℚ) (delivered : List ℕ)
  | scan (simulationId : SimulationId) (now : ℚ) (order : List ℕ)
  | touch (t : Txn)
  | commit (t : Txn)
  | abort (t : Txn)

def State.active (s : State) : Txn → Prop
  | .conductor => s.sweeps ≠ []
  | .worker w => (s.completing w).isSome

/-- A transaction that waits for a row does not go on; a sweep takes what is not locked. -/
def Enabled (cfg : Settings) (s : State) : Event → Prop
  | .begin w results now delivered =>
    (s.completing w).isNone ∧ ((s.batches w).any fun l => l.length == results.length) ∧
      delivered.Perm (((settlements cfg now (DeliveryPipeline.completions (s.batches w)
        results)).filter isDelivered).map Prod.fst)
  | .scan sim now order =>
    s.closing = [] ∧ order.Perm (openAttempts s.db (takenBy s sim now))
  | .touch t => todo s t ≠ [] ∧ ∀ r ∈ wanted s t, ∀ u ∈ s.locks r, u = t
  | .commit t => s.active t ∧ todo s t = []
  | .abort t => s.active t

instance (s : State) : DecidablePred s.active
  | .conductor => inferInstanceAs (Decidable (s.sweeps ≠ []))
  | .worker w => inferInstanceAs (Decidable ((s.completing w).isSome = true))

instance (cfg : Settings) (s : State) : DecidablePred (Enabled cfg s)
  | .begin w results now delivered => inferInstanceAs
    (Decidable ((s.completing w).isNone = true ∧
      ((s.batches w).any fun l => l.length == results.length) = true ∧
      delivered.Perm (((settlements cfg now (DeliveryPipeline.completions (s.batches w)
        results)).filter isDelivered).map Prod.fst)))
  | .scan sim now order => inferInstanceAs
    (Decidable (s.closing = [] ∧ order.Perm (openAttempts s.db (takenBy s sim now))))
  | .touch t => inferInstanceAs
    (Decidable (todo s t ≠ [] ∧ ∀ r ∈ wanted s t, ∀ u ∈ s.locks r, u = t))
  | .commit t => inferInstanceAs (Decidable (s.active t ∧ todo s t = []))
  | .abort t => inferInstanceAs (Decidable (s.active t))

def State.setTodo (s : State) : Txn → List Row → State
  | .conductor, _ => { s with closing := s.closing.tail }
  | .worker w, rest =>
    let completing := (s.completing w).map fun c => { c with todo := rest }
    { s with completing := Function.update s.completing w completing }

/-- A worker that fails to complete has lost its batch as well. -/
def State.ended (s : State) : Txn → State
  | .conductor =>
    { s with locks := release s.locks .conductor, sweeps := [], closing := [] }
  | .worker w =>
    { s with
      locks := release s.locks (.worker w)
      completing := Function.update s.completing w none
      batches := Function.update s.batches w none }

/-- The rows taken have been locked since, so they are what the sweep saw. -/
def reclaimTaken (cfg : Settings) (db : Db) (sweep : Sweep) : Db :=
  reclaimExpiredLeases cfg sweep.simulationId sweep.now (fun i => !sweep.taken.contains i) db

def written (cfg : Settings) (s : State) : Txn → Db
  | .conductor => s.sweeps.foldl (reclaimTaken cfg) s.db
  | .worker w =>
    match s.completing w with
    | some c =>
      completeBatch cfg w (DeliveryPipeline.completions (s.batches w) c.results) c.now s.db
    | none => s.db

def next (cfg : Settings) (s : State) : Event → State
  | .begin w results now delivered =>
    let completions := DeliveryPipeline.completions (s.batches w) results
    let completing := ⟨results, now, completionRows cfg now completions delivered⟩
    { s with completing := Function.update s.completing w (some completing) }
  | .scan sim now order =>
    let taken := takenBy s sim now
    { s with
      locks := acquireAll s.locks .conductor fun
        | .delivery i => taken.contains i
        | .attempt _ => false
      sweeps := s.sweeps ++ [⟨sim, now, taken⟩]
      closing := order }
  | .touch t =>
    let locks := match wanted s t with
      | some r => Function.update s.locks r (some t)
      | none => s.locks
    { s.setTodo t (todo s t).tail with locks := locks }
  | .commit t => { s.ended t with db := written cfg s t }
  | .abort t => s.ended t

def start (s : DeliveryPipeline.State) : State :=
  { db := s.db
    batches := s.batches
    locks := fun _ => none
    completing := fun _ => none
    sweeps := []
    closing := [] }

def Initial (cfg : Settings) (s : State) : Prop :=
  ∃ p, (DeliveryPipeline.system cfg).Reachable p ∧ s = start p

def system (cfg : Settings) : System State Event := .guarded (Initial cfg) (Enabled cfg) (next cfg)

def run (cfg : Settings) (s : State) (es : List Event) : Option State :=
  runList (Enabled cfg) (next cfg) s es

/-- The sweep takes no delivery whose attempt a worker has locked, and no worker locks an attempt
that a sweep has still to close. -/
def Orderly (s : State) : Event → Prop
  | .scan sim now _ => ∀ i ∈ openAttempts s.db (takenBy s sim now),
    ∀ u ∈ s.locks (.attempt i), u = .conductor
  | .touch (.worker w) => ∀ i ∈ s.closing, wanted s (.worker w) ≠ some (.attempt i)
  | .touch .conductor | .begin .. | .commit _ | .abort _ => True

instance (s : State) : DecidablePred (Orderly s)
  | .scan sim now _ => inferInstanceAs (Decidable (∀ i ∈ openAttempts s.db (takenBy s sim now),
    ∀ u ∈ s.locks (.attempt i), u = .conductor))
  | .touch (.worker w) => inferInstanceAs
    (Decidable (∀ i ∈ s.closing, wanted s (.worker w) ≠ some (.attempt i)))
  | .touch .conductor | .begin .. | .commit _ | .abort _ => inferInstanceAs (Decidable True)

def orderly (cfg : Settings) : System State Event := (system cfg).restrict Orderly

def Owns (db : Db) (w : WorkerId) (i : ℕ) : Prop :=
  ∃ a ∈ db.attempts.rows, a.id = i ∧ a.workerId = w

def Holds (db : Db) (w : WorkerId) (i : ℕ) : Prop :=
  ∃ d ∈ db.deliveries.rows, d.id = i ∧ held w d

structure Invariant (cfg : Settings) (s : State) : Prop where
  base : (DeliveryPipeline.system cfg).Reachable ⟨s.db, s.batches, none⟩
  begun : ∀ w c, s.completing w = some c →
    ((s.batches w).any fun l => l.length == c.results.length) ∧
      ∀ i, .attempt i ∈ c.todo → Owns s.db w i
  attempts : ∀ i w, s.locks (.attempt i) = some (.worker w) → Owns s.db w i
  deliveries : ∀ i w, s.locks (.delivery i) = some (.worker w) → Holds s.db w i
  taken : ∀ sweep ∈ s.sweeps, ∀ i ∈ sweep.taken, s.locks (.delivery i) = some .conductor

def Apart (s : State) : Prop := ∀ i ∈ s.closing, ∀ u ∈ s.locks (.attempt i), u = .conductor

section Ownership

variable {cfg : Settings} {db : Db} {v w : WorkerId} {i : ℕ}

theorem Owns.unique (h : Owns db v i) (k : Owns db w i) : v = w := by
  obtain ⟨a, ha, hai, hav⟩ := h
  obtain ⟨b, hb, hbi, hbw⟩ := k
  have hab : a = b := db.attempts.row_unique ha hb (hai.trans hbi.symm)
  subst hab
  exact hav.symm.trans hbw

theorem Holds.unique (h : Holds db v i) (k : Holds db w i) : v = w := by
  obtain ⟨d, hd, hdi, hdv⟩ := h
  obtain ⟨e, he, hei, hew⟩ := k
  have hde : d = e := db.deliveries.row_unique hd he (hdi.trans hei.symm)
  subst hde
  simp only [held, Bool.and_eq_true, beq_iff_eq] at hdv hew
  exact Option.some.inj (hdv.2.symm.trans hew.2)

theorem Owns.reclaim (h : Owns db w i) (sweep : Sweep) : Owns (reclaimTaken cfg db sweep) w i := by
  obtain ⟨a, ha, hai, haw⟩ := h
  unfold Owns reclaimTaken
  rw [reclaim_attempts]
  refine ⟨_, List.mem_map_of_mem ha, ?_⟩
  split
  · exact ⟨hai, haw⟩
  · exact ⟨hai, haw⟩

theorem Holds.reclaim {sweep : Sweep} (h : Holds db w i) (hi : i ∉ sweep.taken) :
    Holds (reclaimTaken cfg db sweep) w i := by
  obtain ⟨d, hd, hdi, hdw⟩ := h
  obtain ⟨f, hf, hrow⟩ := reclaim_rows cfg sweep.simulationId sweep.now
    (fun i => !sweep.taken.contains i) db
  rcases hrow d hd with ⟨hm, -⟩ | ⟨-, he⟩
  · have hfree := not_locked_of_mem hm
    rw [hdi] at hfree
    exact absurd (by simpa using hfree) hi
  · refine ⟨d, ?_, hdi, hdw⟩
    have hmem := List.mem_map_of_mem (f := f) hd
    rw [he] at hmem
    unfold reclaimTaken
    rwa [hf]

theorem Owns.sweeps {l : List Sweep} (h : Owns db w i) :
    Owns (l.foldl (reclaimTaken cfg) db) w i := by
  induction l generalizing db with
  | nil => exact h
  | cons sweep l ih => exact ih (h.reclaim sweep)

theorem Holds.sweeps {l : List Sweep} (h : Holds db w i) (hi : ∀ sweep ∈ l, i ∉ sweep.taken) :
    Holds (l.foldl (reclaimTaken cfg) db) w i := by
  induction l generalizing db with
  | nil => exact h
  | cons sweep l ih =>
    apply ih
    · exact h.reclaim (hi sweep List.mem_cons_self)
    · exact fun x hx => hi x (List.mem_cons_of_mem _ hx)

def sweepInput (sweep : Sweep) : PassInput where
  simulationId := sweep.simulationId
  now := sweep.now
  elapsed := sweep.now
  fairDrainEnabled := true
  globalAttemptsPerS := 30
  outageOverride := none
  lastWritten := none
  locked := fun i => !sweep.taken.contains i
  scan := .physical

theorem sweep_reachable {batches : WorkerId → Option (List Claimed)} (sweep : Sweep)
    (h : (DeliveryPipeline.system cfg).Reachable ⟨db, batches, none⟩) :
    (DeliveryPipeline.system cfg).Reachable ⟨reclaimTaken cfg db sweep, batches, none⟩ := by
  let begun : DeliveryPipeline.State :=
    ⟨db, batches, some (sweepInput sweep, pass cfg (sweepInput sweep))⟩
  have hbegin : DeliveryPipeline.Step cfg ⟨db, batches, none⟩ (.beginPass (sweepInput sweep))
      begun := ⟨rfl, rfl⟩
  have hstatement : DeliveryPipeline.Step cfg begun .statement
      (DeliveryPipeline.next cfg begun .statement) := ⟨trivial, rfl⟩
  have hend : DeliveryPipeline.Step cfg (DeliveryPipeline.next cfg begun .statement) .endPass
      ⟨reclaimTaken cfg db sweep, batches, none⟩ := ⟨trivial, rfl⟩
  exact ((h.tail hbegin).tail hstatement).tail hend

theorem sweeps_reachable {batches : WorkerId → Option (List Claimed)} (l : List Sweep)
    (h : (DeliveryPipeline.system cfg).Reachable ⟨db, batches, none⟩) :
    (DeliveryPipeline.system cfg).Reachable ⟨l.foldl (reclaimTaken cfg) db, batches, none⟩ := by
  induction l generalizing db with
  | nil => exact h
  | cons sweep l ih => exact ih (sweep_reachable sweep h)

end Ownership

section Transactions

variable {cfg : Settings} {s t : State} {e : Event} {x u : Txn} {r : Row} {v w : WorkerId} {i : ℕ}

theorem wanted_eq_some (h : wanted s x = some r) : r ∈ todo s x ∧ matchesRow s.db x r := by
  obtain ⟨hh, hm⟩ := Option.filter_eq_some_iff.mp h
  exact ⟨List.mem_of_mem_head? hh, hm⟩

theorem wanted_conductor (h : wanted s .conductor = some r) : ∃ i ∈ s.closing, r = .attempt i := by
  obtain ⟨i, hi, rfl⟩ := List.mem_map.mp (wanted_eq_some h).1
  exact ⟨i, hi, rfl⟩

theorem Invariant.wanted_attempt (hs : Invariant cfg s)
    (h : wanted s (.worker w) = some (.attempt i)) : Owns s.db w i := by
  have hm := (wanted_eq_some h).1
  simp only [todo] at hm
  cases hc : s.completing w with
  | none =>
    rw [hc] at hm
    cases hm
  | some c =>
    rw [hc] at hm
    exact (hs.begun w c hc).2 i hm

theorem wanted_delivery (h : wanted s (.worker w) = some (.delivery i)) : Holds s.db w i := by
  have hm := (wanted_eq_some h).2
  simp only [matchesRow, List.any_eq_true, Bool.and_eq_true, beq_iff_eq] at hm
  exact hm

/-- In any run a worker waits for nobody but the conductor. -/
theorem worker_waits_for_conductor (hs : Invariant cfg s)
    (h : Waits (wanted s) s.locks (.worker w) u) : u = .conductor := by
  obtain ⟨r, hr, hl, hne⟩ := h
  cases u with
  | conductor => rfl
  | worker v =>
    refine absurd ?_ hne
    cases r with
    | attempt i => rw [(hs.attempts i v hl).unique (hs.wanted_attempt hr)]
    | delivery i => rw [(hs.deliveries i v hl).unique (wanted_delivery hr)]

theorem conductor_never_waits (ha : Apart s) : ¬ Waits (wanted s) s.locks .conductor u := by
  rintro ⟨r, hr, hl, hne⟩
  obtain ⟨i, hi, rfl⟩ := wanted_conductor hr
  exact hne (ha i hi u hl)

theorem touch_acquires (h : (next cfg s (.touch x)).locks r = some u) :
    wanted s x = some r ∧ u = x ∨ s.locks r = some u := by
  simp only [next] at h
  split at h
  · rename_i q hq
    by_cases hqr : r = q
    · subst hqr
      rw [Function.update_self] at h
      exact Or.inl ⟨hq, (Option.some.inj h).symm⟩
    · rw [Function.update_of_ne hqr] at h
      exact Or.inr h
  · exact Or.inr h

theorem touch_keeps (hen : Enabled cfg s (.touch x)) (h : s.locks r = some u) :
    (next cfg s (.touch x)).locks r = some u := by
  simp only [next]
  split
  · rename_i q hq
    by_cases hqr : r = q
    · subst hqr
      rw [Function.update_self, hen.2 r hq u h]
    · rwa [Function.update_of_ne hqr]
  · exact h

theorem ended_locks : (s.ended x).locks r = some u ↔ s.locks r = some u ∧ u ≠ x := by
  cases x with
  | conductor => exact release_eq_some
  | worker w => exact release_eq_some

theorem mem_completionRows {now : ℚ} {l : List Completion} {delivered : List ℕ}
    (h : .attempt i ∈ completionRows cfg now l delivered) :
    ∃ c ∈ l, c.claimed.attemptId = i := by
  simpa [completionRows] using h

theorem begin_invariant {results : List AttemptResult} {now : ℚ} {delivered : List ℕ}
    (hs : Invariant cfg s) (hen : Enabled cfg s (.begin w results now delivered)) :
    Invariant cfg (next cfg s (.begin w results now delivered)) := by
  refine ⟨hs.base, ?_, hs.attempts, hs.deliveries, hs.taken⟩
  intro v c hc
  by_cases hv : v = w
  · subst hv
    simp only [next, Function.update_self] at hc
    obtain rfl := Option.some.inj hc
    refine ⟨hen.2.1, ?_⟩
    intro i hi
    obtain ⟨x, hx, rfl⟩ := mem_completionRows hi
    have hcomplete : DeliveryPipeline.Enabled ⟨s.db, s.batches, none⟩ (.complete v results now) :=
      hen.2.1
    obtain ⟨l, hl, hcl⟩ := PipelineInvariant.enabled_complete hcomplete
    have hmem : x.claimed ∈ l := by
      rw [← hcl]
      exact List.mem_map_of_mem hx
    obtain ⟨a, ha, hai, -, haw, -⟩ :=
      ((PipelineInvariant.reachable_invariant hs.base).batches v l hl).recorded _ hmem
    exact ⟨a, ha, hai, haw⟩
  · simp only [next, Function.update_of_ne hv] at hc
    exact hs.begun v c hc

theorem scan_invariant {sim : SimulationId} {now : ℚ} {order : List ℕ} (hs : Invariant cfg s) :
    Invariant cfg (next cfg s (.scan sim now order)) := by
  refine ⟨hs.base, hs.begun, ?_, ?_, ?_⟩
  · intro i w hl
    simp only [next] at hl
    rcases acquireAll_eq_some hl with ⟨hp, -⟩ | ⟨-, hl⟩
    · cases hp
    · exact hs.attempts i w hl
  · intro i w hl
    simp only [next] at hl
    rcases acquireAll_eq_some hl with ⟨-, hw⟩ | ⟨-, hl⟩
    · cases hw
    · exact hs.deliveries i w hl
  · intro sweep hm i hi
    simp only [next, acquireAll]
    split
    · rfl
    · rename_i hfree
      rcases List.mem_append.mp hm with hm | hm
      · exact hs.taken sweep hm i hi
      · obtain rfl := List.mem_singleton.mp hm
        exact absurd (by simpa using hi) hfree

theorem touch_invariant (hs : Invariant cfg s) (hen : Enabled cfg s (.touch x)) :
    Invariant cfg (next cfg s (.touch x)) := by
  have hbatches : (next cfg s (.touch x)).batches = s.batches := by cases x <;> rfl
  have hdb : (next cfg s (.touch x)).db = s.db := by cases x <;> rfl
  have hsweeps : (next cfg s (.touch x)).sweeps = s.sweeps := by cases x <;> rfl
  constructor
  · rw [hbatches, hdb]
    exact hs.base
  · intro v c hc
    rw [hbatches, hdb]
    cases x with
    | conductor => exact hs.begun v c hc
    | worker w =>
      by_cases hv : v = w
      · subst hv
        simp only [next, State.setTodo, Function.update_self] at hc
        obtain ⟨c, hold, rfl⟩ := Option.map_eq_some_iff.mp hc
        refine ⟨(hs.begun v c hold).1, ?_⟩
        intro i hi
        simp only [todo, hold] at hi
        exact (hs.begun v c hold).2 i (List.mem_of_mem_tail hi)
      · simp only [next, State.setTodo, Function.update_of_ne hv] at hc
        exact hs.begun v c hc
  · intro i w hl
    rw [hdb]
    rcases touch_acquires hl with ⟨hw, rfl⟩ | hl
    · exact hs.wanted_attempt hw
    · exact hs.attempts i w hl
  · intro i w hl
    rw [hdb]
    rcases touch_acquires hl with ⟨hw, rfl⟩ | hl
    · exact wanted_delivery hw
    · exact hs.deliveries i w hl
  · intro sweep hm i hi
    rw [hsweeps] at hm
    exact touch_keeps hen (hs.taken sweep hm i hi)

theorem ended_invariant {db : Db} (hs : Invariant cfg s)
    (hbase : (DeliveryPipeline.system cfg).Reachable ⟨db, (s.ended x).batches, none⟩)
    (howns : ∀ v i, Owns s.db v i → Owns db v i)
    (hholds : ∀ v i, .worker v ≠ x → s.locks (.delivery i) = some (.worker v) → Holds db v i) :
    Invariant cfg { s.ended x with db := db } := by
  constructor
  · exact hbase
  · intro v c hc
    have hold : s.completing v = some c ∧ (s.ended x).batches v = s.batches v := by
      cases x with
      | conductor => exact ⟨hc, rfl⟩
      | worker w =>
        by_cases hv : v = w
        · subst hv
          simp [State.ended] at hc
        · simp only [State.ended, Function.update_of_ne hv] at hc
          exact ⟨hc, Function.update_of_ne hv _ _⟩
    obtain ⟨hlen, hown⟩ := hs.begun v c hold.1
    refine ⟨?_, fun i hi => howns v i (hown i hi)⟩
    rw [← hold.2] at hlen
    exact hlen
  · intro i w hl
    exact howns w i (hs.attempts i w (ended_locks.mp hl).1)
  · intro i w hl
    obtain ⟨hl, hne⟩ := ended_locks.mp hl
    exact hholds w i hne hl
  · intro sweep hm i hi
    cases x with
    | conductor => cases hm
    | worker w =>
      have hkept : (s.ended (.worker w)).locks (.delivery i) = some .conductor := by
        apply ended_locks.mpr
        exact ⟨hs.taken sweep hm i hi, by simp⟩
      exact hkept

theorem Owns.effect {a b : Db} {actor : Option WorkerId} {from_ : Option (SimulationId × ℚ)}
    (h : Owns a w i) (k : PipelineInvariant.Effect cfg actor from_ a b) : Owns b w i := by
  obtain ⟨x, hx, hxi, hxw⟩ := h
  obtain ⟨g, more, hg, hkept, -⟩ := k.attempts
  refine ⟨g x, ?_, (hkept x).id.trans hxi, (hkept x).worker.trans hxw⟩
  rw [hg]
  exact List.mem_append_left _ (List.mem_map_of_mem hx)

theorem Holds.complete {l : List Completion} {db : Db} (h : Holds db v i) (now : ℚ) (hv : v ≠ w)
    (hn : (l.map fun c => c.claimed.request.deliveryId).Nodup) :
    Holds (completeBatch cfg w l now db) v i := by
  obtain ⟨d, hd, hdi, hdv⟩ := h
  obtain ⟨f, hf, hrow⟩ := completeBatch_rows cfg w now db hn
  have hother : held w d = false := by
    by_contra hw
    exact hv (Holds.unique ⟨d, hd, hdi, hdv⟩ ⟨d, hd, hdi, by simpa using hw⟩)
  have hsame : f d = d := by
    by_cases hnamed : ∃ c ∈ l, c.claimed.request.deliveryId = d.id
    · obtain ⟨c, hc, hcd⟩ := hnamed
      rw [(hrow d).2 c hc hcd, hother]
      exact if_neg (by simp)
    · push Not at hnamed
      exact (hrow d).1 hnamed
  refine ⟨d, ?_, hdi, hdv⟩
  rw [hf]
  exact List.mem_map.mpr ⟨d, hd, hsame⟩

theorem commit_invariant (hs : Invariant cfg s) (hen : Enabled cfg s (.commit x)) :
    Invariant cfg (next cfg s (.commit x)) := by
  cases x with
  | conductor =>
    apply ended_invariant hs
    · exact sweeps_reachable s.sweeps hs.base
    · exact fun v i h => h.sweeps
    · intro v i _ hl
      apply (hs.deliveries i v hl).sweeps
      intro sweep hm hi
      have htaken := hs.taken sweep hm i hi
      rw [hl] at htaken
      cases htaken
  | worker w =>
    obtain ⟨c, hc⟩ := Option.isSome_iff_exists.mp hen.1
    have hstep : DeliveryPipeline.Step cfg ⟨s.db, s.batches, none⟩ (.complete w c.results c.now)
        ⟨written cfg s (.worker w), (s.ended (.worker w)).batches, none⟩ := by
      refine ⟨(hs.begun w c hc).1, ?_⟩
      simp only [written, hc]
      rfl
    have hpipe := PipelineInvariant.reachable_invariant hs.base
    apply ended_invariant hs
    · exact hs.base.tail hstep
    · intro v i h
      exact h.effect (PipelineInvariant.step_effect hpipe hstep)
    · intro v i hne hl
      obtain ⟨l, hb, hcl⟩ := PipelineInvariant.enabled_complete hstep.1
      have hn := (hpipe.batches w l hb).deliveries_nodup
      rw [← hcl, List.map_map] at hn
      have hv : v ≠ w := fun hvw => hne (congrArg Txn.worker hvw)
      simp only [written, hc]
      exact (hs.deliveries i v hl).complete c.now hv hn

theorem abort_invariant (hs : Invariant cfg s) : Invariant cfg (next cfg s (.abort x)) := by
  have hdb : s.ended x = { s.ended x with db := s.db } := by cases x <;> rfl
  simp only [next]
  rw [hdb]
  apply ended_invariant hs
  · cases x with
    | conductor => exact hs.base
    | worker w =>
      have hstep : DeliveryPipeline.Step cfg ⟨s.db, s.batches, none⟩ (.abandon w)
          ⟨s.db, (s.ended (.worker w)).batches, none⟩ := ⟨trivial, rfl⟩
      exact hs.base.tail hstep
  · exact fun _ _ h => h
  · exact fun v i _ hl => hs.deliveries i v hl

theorem step_invariant (hs : Invariant cfg s) (h : (system cfg).step s e t) : Invariant cfg t := by
  obtain ⟨hen, rfl⟩ := h
  cases e with
  | begin w results now delivered => exact begin_invariant hs hen
  | scan sim now order => exact scan_invariant hs
  | touch x => exact touch_invariant hs hen
  | commit x => exact commit_invariant hs hen
  | abort x => exact abort_invariant hs

theorem initial_invariant (h : Initial cfg s) : Invariant cfg s := by
  obtain ⟨p, hp, rfl⟩ := h
  constructor
  · exact hp.tail (e := .endPass) ⟨trivial, rfl⟩
  · intro w c hc
    cases hc
  · intro i w hl
    cases hl
  · intro i w hl
    cases hl
  · intro sweep hm
    cases hm

theorem reachable_invariant (h : (system cfg).Reachable s) : Invariant cfg s :=
  h.invariant (P := Invariant cfg) (fun _ h₀ => initial_invariant h₀)
    fun _ _ _ _ hs he => step_invariant hs he

/-- An orderly step keeps the workers away from what the conductor has yet to close. -/
theorem step_apart (ha : Apart s) (ho : Orderly s e) (h : (system cfg).step s e t) : Apart t := by
  obtain ⟨hen, rfl⟩ := h
  intro i hi u hl
  cases e with
  | begin v results now delivered => exact ha i hi u hl
  | scan sim now order =>
    simp only [next] at hl
    rcases acquireAll_eq_some hl with ⟨hp, -⟩ | ⟨-, hl⟩
    · cases hp
    · exact ho i (hen.2.subset hi) u hl
  | touch x =>
    rcases touch_acquires hl with ⟨hw, rfl⟩ | hold
    · cases u with
      | conductor => rfl
      | worker v => exact absurd hw (ho i hi)
    · cases x with
      | conductor => exact ha i (List.mem_of_mem_tail hi) u hold
      | worker v => exact ha i hi u hold
  | commit x =>
    cases x with
    | conductor => cases hi
    | worker v => exact ha i hi u (ended_locks (x := .worker v).mp hl).1
  | abort x =>
    cases x with
    | conductor => cases hi
    | worker v => exact ha i hi u (ended_locks (x := .worker v).mp hl).1

theorem orderly_apart (h : (orderly cfg).Reachable s) : Apart s := by
  apply h.invariant (P := Apart)
  · rintro _ ⟨p, _, rfl⟩ i hi
    cases hi
  · intro s e t _ ha hs
    exact step_apart ha hs.1 hs.2

theorem orderly_never_deadlocks (h : (orderly cfg).Reachable s) :
    ¬ Deadlock (wanted s) s.locks ∧ ∀ u, ¬ Waits (wanted s) s.locks .conductor u := by
  have hs := reachable_invariant (System.restrict_reachable h)
  have hfree : ∀ u, ¬ Waits (wanted s) s.locks .conductor u := fun u =>
    conductor_never_waits (orderly_apart h)
  refine ⟨?_, hfree⟩
  apply not_deadlock_of_sink hfree
  intro t u ht
  cases t with
  | conductor => exact absurd ht (hfree u)
  | worker w => exact worker_waits_for_conductor hs ht

/-- An open attempt that a worker has locked is in the sweep's way sooner or later. -/
theorem closing_stalls (h : s.locks (.attempt i) = some u) (hu : u ≠ .conductor)
    (hi : i ∈ s.closing)
    (hopen : matchesRow s.db .conductor (.attempt i)) :
    ∃ v, (system cfg).Execution s v ∧ ∃ u, Waits (wanted v) v.locks .conductor u := by
  induction hc : s.closing generalizing s with
  | nil =>
    rw [hc] at hi
    cases hi
  | cons j rest ih =>
    have hhead : wanted s .conductor = (some (.attempt j)).filter (matchesRow s.db .conductor) := by
      simp only [wanted, todo, hc, List.map_cons, List.head?_cons]
    by_cases hfree : ∀ r ∈ wanted s .conductor, ∀ u ∈ s.locks r, u = .conductor
    · have hen : Enabled cfg s (.touch .conductor) := by
        refine ⟨?_, hfree⟩
        simp [todo, hc]
      have hne : i ≠ j := by
        rintro rfl
        rw [Option.filter_some, if_pos hopen] at hhead
        exact hu (hfree _ hhead _ h)
      have hrest : (next cfg s (.touch .conductor)).closing = rest := by
        simp [next, State.setTodo, hc]
      have hmem : i ∈ rest := by
        rw [hc] at hi
        exact (List.mem_cons.mp hi).resolve_left hne
      obtain ⟨v, hv, hw⟩ := ih (touch_keeps hen h) (by rwa [hrest]) hopen hrest
      exact ⟨v, hv.head ⟨_, hen, rfl⟩, hw⟩
    · push Not at hfree
      obtain ⟨r, hr, u, hu, hne⟩ := hfree
      exact ⟨s, .refl, u, r, hr, hu, hne⟩

theorem disorder_stalls (h : (system cfg).step s e t) (ho : ¬ Orderly s e) :
    ∃ v, (system cfg).Execution t v ∧ ∃ u, Waits (wanted v) v.locks .conductor u := by
  obtain ⟨hen, rfl⟩ := h
  cases e with
  | scan sim now order =>
    simp only [Orderly] at ho
    push Not at ho
    obtain ⟨i, hi, u, hl, hu⟩ := ho
    obtain ⟨a, ha, rfl⟩ := List.mem_map.mp hi
    obtain ⟨hrow, hopen⟩ := List.mem_filter.mp ha
    simp only [Bool.and_eq_true] at hopen
    apply closing_stalls (i := a.id)
    · exact hl
    · exact hu
    · exact hen.2.symm.subset hi
    · exact List.any_eq_true.mpr ⟨a, hrow, by simp [hopen.2]⟩
  | touch x =>
    cases x with
    | conductor => exact absurd trivial ho
    | worker w =>
      simp only [Orderly] at ho
      push Not at ho
      obtain ⟨i, hi, hw⟩ := ho
      apply closing_stalls (i := i) (u := .worker w)
      · simp only [next, hw, Function.update_self]
      · simp
      · exact hi
      · exact (wanted_eq_some hw).2
  | begin => exact absurd trivial ho
  | commit => exact absurd trivial ho
  | abort => exact absurd trivial ho

/-- While completions and sweeps keep in order, no transactions wait in a cycle and the conductor
does not wait at all; out of order it may come to wait for a worker. -/
theorem completion_never_deadlocks (cfg : Settings) :
    (∀ s, (orderly cfg).Reachable s →
      ¬ Deadlock (wanted s) s.locks ∧ ∀ u, ¬ Waits (wanted s) s.locks .conductor u) ∧
    ∀ s e t, (system cfg).step s e t → ¬ Orderly s e →
      ∃ v, (system cfg).Execution t v ∧ ∃ u, Waits (wanted v) v.locks .conductor u :=
  ⟨fun _ h => orderly_never_deadlocks h, fun _ _ _ h ho => disorder_stalls h ho⟩

end Transactions

section Slow

open DeliveryPipeline (soleConsumer firstClaim)

def claimed : Option DeliveryPipeline.State :=
  DeliveryPipeline.run shipped (DeliveryPipeline.initial soleConsumer []) firstClaim

theorem claimed_initial {p : DeliveryPipeline.State} (h : claimed = some p) :
    Initial shipped (start p) := ⟨p, DeliveryPipeline.run_reachable h, rfl⟩

/-- The sweep was first: it closes the attempt, and the completion waits for it. -/
def lateCompletion : List Event :=
  [.begin 7 [⟨.ok, none⟩] 40 [1], .scan 1 40 [1], .touch .conductor]

theorem completion_never_deadlocks_late : ∃ s, (orderly shipped).Reachable s ∧
    Waits (wanted s) s.locks (.worker 7) .conductor ∧ ¬ Deadlock (wanted s) s.locks := by
  have hrun : (claimed.bind fun p => runList (fun s e => Orderly s e ∧ Enabled shipped s e)
      (next shipped) (start p) lateCompletion).map
        (fun s => (wanted s (.worker 7), s.locks (.attempt 1))) =
      some (some (.attempt 1), some .conductor) := by decide +kernel
  obtain ⟨s, hs, hrows⟩ := Option.map_eq_some_iff.mp hrun
  obtain ⟨p, hp, hsp⟩ := Option.bind_eq_some_iff.mp hs
  obtain ⟨hw, hl⟩ := Prod.mk.inj hrows
  have hr : (orderly shipped).Reachable s :=
    ⟨start p, claimed_initial hp, runList_restricted _ _ _ hsp⟩
  exact ⟨s, hr, ⟨_, hw, hl, by simp⟩, ((completion_never_deadlocks shipped).1 s hr).1⟩

/-- The lease of worker 7 ran out while it was sending, and its completion was first. -/
def slowCompletion : List Event :=
  [.begin 7 [⟨.ok, none⟩] 40 [1], .touch (.worker 7), .scan 1 40 [1]]

/-- The completion has locked the attempt, the sweep takes the delivery, and each needs the
other's row. -/
theorem slow_completion_deadlocks :
    ∃ s, (system shipped).Reachable s ∧ Deadlock (wanted s) s.locks := by
  have hrun : (claimed.bind fun p => run shipped (start p) slowCompletion).map (fun s =>
        (wanted s .conductor, s.locks (.attempt 1), wanted s (.worker 7), s.locks (.delivery 1))) =
      some (some (.attempt 1), some (.worker 7), some (.delivery 1), some .conductor) := by
    decide +kernel
  obtain ⟨s, hs, hrows⟩ := Option.map_eq_some_iff.mp hrun
  obtain ⟨p, hp, hsp⟩ := Option.bind_eq_some_iff.mp hs
  simp only [Prod.mk.injEq] at hrows
  obtain ⟨hc, hca, hw, hwd⟩ := hrows
  refine ⟨s, ⟨start p, claimed_initial hp, runList_execution _ _ _ hsp⟩, ?_⟩
  apply deadlock_of_mutual (t := .conductor) (u := .worker 7)
  · exact ⟨_, hc, hca, by simp⟩
  · exact ⟨_, hw, hwd, by simp⟩

end Slow

end CompletionDeadlock
