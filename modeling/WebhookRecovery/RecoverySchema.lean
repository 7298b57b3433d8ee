import WebhookRecovery.KeyedTables
import Mathlib.Data.List.Sort
import Mathlib.Data.Rat.Floor

/-! The settings, the enumerations and the tables. Instants and spans are exact rationals, in
seconds; a virtual instant is counted from VIRTUAL_EPOCH_ZERO. Simulation, process and
delivery identifiers are numbers. Columns that no modelled statement reads are left out. -/
namespace RecoverySchema

open KeyedTables

abbrev SimulationId := ℕ
abbrev ConsumerId := ℕ
abbrev WorkerId := ℕ

inductive SimStatus where
  | running | paused | done
  deriving DecidableEq, Repr

inductive DeliveryState where
  | pending | ready | inFlight | delivered | expired | superseded | failed
  deriving DecidableEq, Repr

/-- Backlog: work that still has somewhere to go. -/
def DeliveryState.active : DeliveryState → Bool
  | .pending | .ready | .inFlight => true
  | _ => false

def DeliveryState.terminal (s : DeliveryState) : Bool := !s.active

inductive AttemptOutcome where
  | ok | serverError | timeout | leaseExpired
  deriving DecidableEq, Repr

inductive CoalesceMode where
  | none | latestByKey
  deriving DecidableEq, Repr

/-- The tunables the modelled code reads, at their shipped values. -/
structure Settings where
  readyBufferDepthMultiplier : ℚ := 3 / 2
  fairnessWindowVirtualS : ℚ := 5
  admissionOverfetch : ℕ := 8
  metricsBucketVirtualS : ℚ := 1
  metricsMaxBackfillBuckets : ℕ := 300
  workerBatchSize : ℕ := 16
  leaseDurationVirtualS : ℚ := 30
  retryBackoffBaseVirtualS : ℚ := 1
  retryBackoffCapVirtualS : ℚ := 60
  maxAttempts : ℕ := 5
  defaultSpeedMultiplier : ℚ := 20

def shipped : Settings := {}

structure Simulation where
  id : SimulationId
  status : SimStatus
  virtualEpoch : ℚ
  resumedAtWall : ℚ
  pausedAtVirtual : Option ℚ
  speedMultiplier : ℚ
  fairDrainEnabled : Bool
  globalAttemptsPerS : ℚ
  outageOverride : Option Bool
  deriving DecidableEq, Repr

structure Consumer where
  id : ConsumerId
  simulationId : SimulationId
  weight : ℚ
  concurrencyCap : ℕ
  maxAttemptsPerS : ℚ
  simLatencyS : ℚ := 1 / 5
  simJitterS : ℚ := 1 / 20
  simFailureRate : ℚ := 0
  simDown : Bool := false
  deriving DecidableEq, Repr

structure Subscription where
  simulationId : SimulationId
  consumerId : ConsumerId
  eventType : String
  deriving DecidableEq, Repr

structure DeliveryPolicy where
  simulationId : SimulationId
  consumerId : ConsumerId
  eventType : String
  maxStalenessS : Option ℚ
  coalesce : CoalesceMode
  deriving DecidableEq, Repr

/-- What seeding writes and nothing changes afterwards, with the keys and checks that the
schema puts on it. -/
structure Cast where
  consumers : List Consumer
  subscriptions : List Subscription
  policies : List DeliveryPolicy
  consumer_key : (consumers.map Consumer.id).Nodup
  subscription_key : (subscriptions.map fun s => (s.consumerId, s.eventType)).Nodup
  policy_key : (policies.map fun p => (p.consumerId, p.eventType)).Nodup
  knobs_positive : ∀ c ∈ consumers, 0 < c.weight ∧ 0 < c.concurrencyCap ∧ 0 < c.maxAttemptsPerS
  staleness_positive : ∀ p ∈ policies, ∀ m ∈ p.maxStalenessS, 0 < m

structure Event where
  id : ℕ
  simulationId : SimulationId
  eventType : String
  entityKey : String
  occurredAt : ℚ
  deriving DecidableEq, Repr

structure Delivery where
  id : ℕ
  simulationId : SimulationId
  eventId : ℕ
  consumerId : ConsumerId
  eventType : String
  entityKey : String
  state : DeliveryState := .pending
  attemptCount : ℕ := 0
  nextAttemptAt : Option ℚ
  readyAt : Option ℚ := none
  leasedBy : Option WorkerId := none
  leaseExpiresAt : Option ℚ := none
  terminalReason : Option String := none
  createdAt : ℚ
  completedAt : Option ℚ := none
  deriving DecidableEq, Repr

structure Attempt where
  id : ℕ
  simulationId : SimulationId
  deliveryId : ℕ
  consumerId : ConsumerId
  workerId : WorkerId
  startedAt : ℚ
  finishedAt : Option ℚ := none
  outcome : Option AttemptOutcome := none
  statusCode : Option ℕ := none
  deriving DecidableEq, Repr

structure MetricsSnapshot where
  simulationId : SimulationId
  consumerId : ConsumerId
  bucketVirtualS : ℤ
  backlog : ℕ
  ready : ℕ
  inFlight : ℕ
  attempts : ℕ
  delivered : ℕ
  expired : ℕ
  superseded : ℕ
  failed : ℕ
  deriving DecidableEq, Repr

instance : Keyed Event := ⟨Event.id⟩
instance : Keyed Delivery := ⟨Delivery.id⟩
instance : Keyed Attempt := ⟨Attempt.id⟩

structure Db where
  cast : Cast
  simulations : List Simulation
  events : Table Event
  deliveries : Table Delivery
  attempts : Table Attempt
  metrics : List MetricsSnapshot

def Db.seeded (cast : Cast) (simulations : List Simulation) : Db where
  cast := cast
  simulations := simulations
  events := .empty
  deliveries := .empty
  attempts := .empty
  metrics := []

def Db.attemptsOf (db : Db) (deliveryId : ℕ) : List Attempt :=
  db.attempts.rows.filter fun a => a.deliveryId == deliveryId

def Attempt.isOpen (a : Attempt) : Bool := a.finishedAt.isNone

@[simp] theorem mem_attemptsOf {db : Db} {i : ℕ} {a : Attempt} :
    a ∈ db.attemptsOf i ↔ a ∈ db.attempts.rows ∧ a.deliveryId = i := by
  simp [Db.attemptsOf]

/-- The order a query leaves open: physical row order, which may be any. -/
structure ScanOrder where
  order : List Delivery → List Delivery
  perm : ∀ l, (order l).Perm l

def ScanOrder.physical : ScanOrder := ⟨id, fun _ => .refl _⟩

/-- Ascending order on a nullable column puts NULL last. -/
def nullsLast : Option ℚ → Option ℚ → Prop
  | _, none => True
  | none, some _ => False
  | some x, some y => x ≤ y

instance : DecidableRel nullsLast
  | none, none => isTrue trivial
  | some _, none => isTrue trivial
  | none, some _ => isFalse id
  | some x, some y => inferInstanceAs (Decidable (x ≤ y))

def ScanOrder.sortBy (scan : ScanOrder) (f : Delivery → Option ℚ) (l : List Delivery) :
    List Delivery :=
  (scan.order l).insertionSort fun a b => nullsLast (f a) (f b)

theorem ScanOrder.sortBy_perm (scan : ScanOrder) (f : Delivery → Option ℚ) (l : List Delivery) :
    (scan.sortBy f l).Perm l :=
  (List.perm_insertionSort _ _).trans (scan.perm l)

theorem nullsLast_total : ∀ x y, nullsLast x y ∨ nullsLast y x
  | _, none => Or.inl trivial
  | none, some _ => Or.inr trivial
  | some x, some y => le_total x y

theorem nullsLast_trans : ∀ {x y z}, nullsLast x y → nullsLast y z → nullsLast x z
  | _, _, none, _, _ => trivial
  | some _, some _, some _, h, h' => le_trans h h'

theorem nullsLast_antisymm : ∀ {x y}, nullsLast x y → nullsLast y x → x = y
  | none, none, _, _ => rfl
  | some _, some _, h, h' => congrArg some (le_antisymm h h')

theorem ScanOrder.sortBy_sorted (scan : ScanOrder) (f : Delivery → Option ℚ) (l : List Delivery) :
    (scan.sortBy f l).Pairwise fun a b => nullsLast (f a) (f b) := by
  have : Std.Total fun a b : Delivery => nullsLast (f a) (f b) := ⟨fun _ _ => nullsLast_total _ _⟩
  have : IsTrans Delivery fun a b => nullsLast (f a) (f b) := ⟨fun _ _ _ => nullsLast_trans⟩
  exact List.pairwise_insertionSort _ _

/-- Python's `int()` truncates towards zero. -/
def pyInt (x : ℚ) : ℤ := if 0 ≤ x then ⌊x⌋ else ⌈x⌉

end RecoverySchema
