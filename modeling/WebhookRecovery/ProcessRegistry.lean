import WebhookRecovery.OrderedMaps
import WebhookRecovery.WorkerClaim
import Mathlib.Data.String.Basic

/-! The process table: registration, heartbeats, the kill flag, and liveness as a filter that is
applied when the table is read. Instants are readings of the wall clock. -/
namespace ProcessRegistry

open RecoverySchema OrderedMaps WorkerClaim

inductive ProcessKind where
  | conductor | worker
  deriving DecidableEq, Repr

def ProcessKind.value : ProcessKind → String
  | .conductor => "conductor"
  | .worker => "worker"

/-- The tunables of a process, at their shipped values. -/
structure ProcessSettings where
  heartbeatIntervalS : ℚ := 3
  processLivenessWindowS : ℚ := 15
  conductorLoopIntervalS : ℚ := 1 / 20
  workerLoopIntervalS : ℚ := 1 / 50

/-- In liveness windows. -/
def PRUNE_WINDOW_MULTIPLE : ℚ := 240

structure Process where
  id : WorkerId
  kind : ProcessKind
  hostname : String
  pid : ℕ
  startedAtWall : ℚ
  lastHeartbeatWall : ℚ
  isLeader : Bool := false
  crashRequested : Bool := false
  deriving DecidableEq, Repr

/-- The rows in the order that they were inserted in; the id is the primary key. -/
structure Registry where
  rows : List Process
  key : (rows.map Process.id).Nodup

def Registry.empty : Registry := ⟨[], .nil⟩

def Registry.has (t : Registry) (id : WorkerId) : Bool := t.rows.any fun p => p.id == id

def Registry.update (t : Registry) (id : WorkerId) (f : Process → Process)
    (hf : ∀ p, (f p).id = p.id) : Registry where
  rows := t.rows.map fun p => if p.id == id then f p else p
  key := by
    have hids : (t.rows.map fun p => if p.id == id then f p else p).map Process.id =
        t.rows.map Process.id := by
      rw [List.map_map]
      refine List.map_congr_left fun p _ => ?_
      by_cases hp : p.id = id <;> simp [hp, hf]
    rw [hids]
    exact t.key

def pruneDead (cfg : ProcessSettings) (now : ℚ) (t : Registry) : Registry where
  rows := t.rows.filter fun p =>
    !decide (p.lastHeartbeatWall < now - cfg.processLivenessWindowS * PRUNE_WINDOW_MULTIPLE)
  key := (List.filter_sublist.map _).nodup t.key

structure Boot where
  kind : ProcessKind
  hostname : String
  pid : ℕ
  deriving DecidableEq, Repr

def processRow (id : WorkerId) (boot : Boot) (now : ℚ) : Process :=
  { id := id, kind := boot.kind, hostname := boot.hostname, pid := boot.pid, startedAtWall := now,
    lastHeartbeatWall := now }

/-- One transaction: a duplicate id undoes the pruning too. -/
def registerProcess (cfg : ProcessSettings) (id : WorkerId) (boot : Boot) (now : ℚ)
    (t : Registry) : Option Registry :=
  if h : (pruneDead cfg now t).has id then none
  else some
    { rows := (pruneDead cfg now t).rows ++ [processRow id boot now]
      key := by
        rw [List.map_append, List.nodup_append]
        refine ⟨(pruneDead cfg now t).key, List.nodup_singleton _, ?_⟩
        rintro a ha b hb rfl
        obtain ⟨p, hp, hpa⟩ := List.mem_map.mp ha
        rw [List.mem_singleton.mp hb] at hpa
        exact h (List.any_eq_true.mpr ⟨p, hp, beq_iff_eq.mpr hpa⟩) }

/-- Stamps the row and returns its kill flag; without a row there is nothing to stamp. -/
def heartbeat (id : WorkerId) (isLeader : Bool) (now : ℚ) (t : Registry) : Bool × Registry :=
  ((t.rows.find? fun p => p.id == id).any Process.crashRequested,
    t.update id (fun p => { p with lastHeartbeatWall := now, isLeader := isLeader }) fun _ => rfl)

/-- Ages the row out at once. -/
def deregisterProcess (cfg : ProcessSettings) (id : WorkerId) (now : ℚ) (t : Registry) : Registry :=
  t.update id (fun p => { p with
    lastHeartbeatWall := now - cfg.processLivenessWindowS * 2
    isLeader := false }) fun _ => rfl

structure ProcessRead where
  id : WorkerId
  kind : ProcessKind
  hostname : String
  pid : ℕ
  startedAtWall : ℚ
  lastHeartbeatWall : ℚ
  isLeader : Bool
  heartbeatAgeS : ℚ
  inFlight : ℕ
  deriving DecidableEq, Repr

def toProcessRead (p : Process) (now : ℚ) (inFlight : ℕ) : ProcessRead :=
  ⟨p.id, p.kind, p.hostname, p.pid, p.startedAtWall, p.lastHeartbeatWall, p.isLeader,
    now - p.lastHeartbeatWall, inFlight⟩

def leaseCount (db : Db) (id : WorkerId) : ℕ := db.deliveries.rows.countP (held id)

def listProcesses (cfg : ProcessSettings) (now : ℚ) (db : Db) (t : Registry) : List ProcessRead :=
  (sortBy (fun p : Process => toLex (p.kind.value, p.startedAtWall))
    (t.rows.filter fun p =>
      decide (now - cfg.processLivenessWindowS < p.lastHeartbeatWall))).map fun p =>
    toProcessRead p now (leaseCount db p.id)

/-- `POST /process/{id}/kill`; there is no row to flag if it was pruned, or never was. -/
def killProcess (id : WorkerId) (now : ℚ) (db : Db) (t : Registry) :
    Except String (ProcessRead × Registry) :=
  match t.rows.find? fun p => p.id == id with
  | none => .error s!"No process {id}"
  | some p => .ok (toProcessRead p now (leaseCount db id),
      t.update id (fun p => { p with crashRequested := true }) fun _ => rfl)

section Rows

variable {cfg : ProcessSettings} {t u : Registry} {id : WorkerId} {now : ℚ} {p : Process}

theorem Registry.row_unique (hp : p ∈ t.rows) {q : Process} (hq : q ∈ t.rows) (h : p.id = q.id) :
    p = q := List.inj_on_of_nodup_map t.key hp hq h

theorem mem_update {f : Process → Process} {hf} :
    p ∈ (t.update id f hf).rows ↔
      p ∈ t.rows ∧ p.id ≠ id ∨ ∃ q ∈ t.rows, q.id = id ∧ p = f q := by
  simp only [Registry.update, List.mem_map]
  constructor
  · rintro ⟨q, hq, rfl⟩
    by_cases h : q.id = id
    · rw [if_pos (beq_iff_eq.mpr h)]
      exact Or.inr ⟨q, hq, h, rfl⟩
    · rw [if_neg (by simpa using h)]
      exact Or.inl ⟨hq, h⟩
  · rintro (⟨hp, hne⟩ | ⟨q, hq, h, rfl⟩)
    · exact ⟨p, hp, if_neg (by simpa using hne)⟩
    · exact ⟨q, hq, if_pos (beq_iff_eq.mpr h)⟩

theorem mem_pruneDead : p ∈ (pruneDead cfg now t).rows ↔ p ∈ t.rows ∧
    now - cfg.processLivenessWindowS * PRUNE_WINDOW_MULTIPLE ≤ p.lastHeartbeatWall := by
  simp [pruneDead]

theorem mem_registerProcess {boot : Boot} (h : registerProcess cfg id boot now t = some u) :
    (∀ q ∈ (pruneDead cfg now t).rows, q.id ≠ id) ∧
      ∀ p, p ∈ u.rows ↔ p ∈ (pruneDead cfg now t).rows ∨ p = processRow id boot now := by
  unfold registerProcess at h
  split at h
  · cases h
  · rename_i hfree
    obtain rfl := Option.some.inj h
    refine ⟨fun q hq hqi => hfree (List.any_eq_true.mpr ⟨q, hq, beq_iff_eq.mpr hqi⟩), fun p => ?_⟩
    rw [List.mem_append, List.mem_singleton]

theorem heartbeat_flag {leader : Bool} : (heartbeat id leader now t).1 = true ↔
    ∃ p ∈ t.rows, p.id = id ∧ p.crashRequested = true := by
  rw [heartbeat, Option.any_eq_true]
  constructor
  · rintro ⟨p, hp, hc⟩
    exact ⟨p, List.mem_of_find?_eq_some hp, by simpa using List.find?_some hp, hc⟩
  · rintro ⟨p, hp, hi, hc⟩
    obtain ⟨q, hq⟩ := Option.isSome_iff_exists.mp
      (List.find?_isSome (p := fun p : Process => p.id == id).mpr ⟨p, hp, beq_iff_eq.mpr hi⟩)
    have hqi : q.id = id := by simpa using List.find?_some hq
    have hqp : q = p := t.row_unique (List.mem_of_find?_eq_some hq) hp (hqi.trans hi.symm)
    exact ⟨q, hq, hqp ▸ hc⟩

variable (t id now) in
theorem killProcess_cases (db : Db) :
    (∃ e, killProcess id now db t = .error e) ∧ (∀ p ∈ t.rows, p.id ≠ id) ∨
    ∃ r, killProcess id now db t = .ok (r,
      t.update id (fun p => { p with crashRequested := true }) fun _ => rfl) := by
  unfold killProcess
  cases h : t.rows.find? fun p => p.id == id with
  | none =>
    refine Or.inl ⟨⟨_, rfl⟩, fun p hp hi => ?_⟩
    exact List.find?_eq_none.mp h p hp (beq_iff_eq.mpr hi)
  | some p => exact Or.inr ⟨_, rfl⟩

end Rows

section Listing

variable {cfg : ProcessSettings} {t : Registry} {now : ℚ} {db : Db}

theorem mem_listProcesses {r : ProcessRead} : r ∈ listProcesses cfg now db t ↔
    ∃ p ∈ t.rows, now - cfg.processLivenessWindowS < p.lastHeartbeatWall ∧
      r = toProcessRead p now (leaseCount db p.id) := by
  rw [listProcesses, List.mem_map]
  simp only [mem_sortBy, List.mem_filter, decide_eq_true_eq]
  constructor
  · rintro ⟨p, ⟨hp, hl⟩, rfl⟩
    exact ⟨p, hp, hl, rfl⟩
  · rintro ⟨p, hp, hl, rfl⟩
    exact ⟨p, ⟨hp, hl⟩, rfl⟩

theorem listProcesses_nodup : ((listProcesses cfg now db t).map ProcessRead.id).Nodup := by
  have hids : (listProcesses cfg now db t).map ProcessRead.id =
      (sortBy (fun p : Process => toLex (p.kind.value, p.startedAtWall)) (t.rows.filter fun p =>
        decide (now - cfg.processLivenessWindowS < p.lastHeartbeatWall))).map Process.id := by
    rw [listProcesses, List.map_map]
    rfl
  rw [hids]
  refine (((List.perm_insertionSort _ _).map _).nodup_iff).mpr ?_
  exact (List.filter_sublist.map _).nodup t.key

end Listing

end ProcessRegistry
