import WebhookRecovery.RecoverySchema
import WebhookRecovery.InterleavedPrograms
import Mathlib.Data.List.MinMax
import Mathlib.Data.Prod.Lex
import Mathlib.Algebra.Order.Ring.Rat

/-! Consumer-defined policy: which queued deliveries are still worth sending. -/
namespace DeliveryPolicy

open KeyedTables RecoverySchema InterleavedPrograms

structure Policy where
  maxStalenessS : Option ℚ := none
  coalesce : CoalesceMode := .none
  deriving DecidableEq, Repr

def DELIVER_EVERYTHING : Policy := {}

abbrev PolicyMap := ConsumerId → String → Option Policy

structure Candidate where
  id : ℕ
  consumerId : ConsumerId
  eventType : String
  entityKey : String
  createdAt : ℚ
  deriving DecidableEq, Repr

structure Drop where
  deliveryId : ℕ
  state : DeliveryState
  reason : String
  deriving DecidableEq, Repr

/-- `admitted` keeps candidate order, so callers can still ration. -/
structure Verdict where
  admitted : List Candidate
  drops : List Drop

def candidateOf (d : Delivery) : Candidate :=
  ⟨d.id, d.consumerId, d.eventType, d.entityKey, d.createdAt⟩

def loadPolicies (simulationId : SimulationId) (db : Db) : PolicyMap := fun c t =>
  (db.cast.policies.find? fun p =>
      p.simulationId == simulationId && p.consumerId == c && p.eventType == t).map
    fun p => ⟨p.maxStalenessS, p.coalesce⟩

def staleBy (now createdAt : ℚ) (maxStalenessS : Option ℚ) : Option ℚ :=
  match maxStalenessS with
  | none => none
  | some m =>
    let overage := now - createdAt - m
    if 0 < overage then some overage else none

/-- The `.0f` format: to the nearest integer, ties to even. -/
def roundHalfEven (x : ℚ) : ℤ :=
  let f := ⌊x⌋
  let r := x - f
  if r < 1 / 2 then f else if 1 / 2 < r then f + 1 else if f % 2 = 0 then f else f + 1

def staleReason (overage maxStalenessS : ℚ) : String :=
  let late := roundHalfEven overage
  let bound := roundHalfEven maxStalenessS
  s!"stale by {late}s (max {bound}s)"

/-- The coalescing order: never `created_at` alone. -/
def Candidate.age (c : Candidate) : ℚ ×ₗ ℕ := toLex (c.createdAt, c.id)

def policyOf (policies : PolicyMap) (c : Candidate) : Policy :=
  (policies c.consumerId c.eventType).getD DELIVER_EVERYTHING

abbrev CoalesceKey := ConsumerId × String × String

def Candidate.key (c : Candidate) : CoalesceKey := (c.consumerId, c.eventType, c.entityKey)

/-- The rows the coalesce lookup sees: queued, so pending or ready, and of the key. -/
def queuedOfKey (simulationId : SimulationId) (k : CoalesceKey) (db : Db) : List Candidate :=
  (db.deliveries.rows.filter fun d =>
      d.simulationId == simulationId && (d.state == .pending || d.state == .ready) &&
        (candidateOf d).key == k).map candidateOf

/-- The latest queued delivery per key, for the keys of the candidates only. -/
def newestByKey (simulationId : SimulationId) (candidates : List Candidate) (db : Db) :
    CoalesceKey → Option (ℚ ×ₗ ℕ) := fun k =>
  if k ∈ candidates.map Candidate.key then
    ((queuedOfKey simulationId k db).argmax Candidate.age).map Candidate.age
  else none

def staleDrop (policies : PolicyMap) (now : ℚ) (c : Candidate) : Option Drop :=
  let bound := (policyOf policies c).maxStalenessS
  (staleBy now c.createdAt bound).map fun overage =>
    ⟨c.id, .expired, staleReason overage (bound.getD 0)⟩

/-- Strict, and on the pair: a candidate that is itself the winner is admitted. -/
def supersededDrop (newest : CoalesceKey → Option (ℚ ×ₗ ℕ)) (c : Candidate) : Option Drop :=
  match newest c.key with
  | none => none
  | some winner =>
    if c.age < winner then
      let winnerId := (ofLex winner).2
      some ⟨c.id, .superseded, s!"superseded by delivery {winnerId}"⟩
    else none

def survivors (policies : PolicyMap) (now : ℚ) (candidates : List Candidate) : List Candidate :=
  candidates.filter fun c => (staleDrop policies now c).isNone

/-- Staleness first, because it is pure; coalescing over what survived. The lookup is the one
statement here, so `db` is what that statement sees. -/
def evaluate (simulationId : SimulationId) (candidates : List Candidate) (policies : PolicyMap)
    (now : ℚ) (db : Db) : Verdict :=
  let survived := survivors policies now candidates
  let coalescing := survived.filter fun c => (policyOf policies c).coalesce == .latestByKey
  let newest := newestByKey simulationId coalescing db
  { admitted := survived.filter fun c => (supersededDrop newest c).isNone
    drops := candidates.filterMap (staleDrop policies now) ++
      survived.filterMap (supersededDrop newest) }

/-- One prepared statement per terminal state, in order of first appearance. -/
def byState (drops : List Drop) : List Drop :=
  (drops.map Drop.state).eraseDups.flatMap fun s => drops.filter fun d => d.state == s

def applyDrops (drops : List Drop) (now : ℚ) (db : Db) : Db :=
  { db with
    deliveries := db.deliveries.executemany (byState drops)
      (fun x d => d.id == x.deliveryId)
      (fun x d => { d with
        state := x.state
        completedAt := some now
        terminalReason := some x.reason })
      (fun _ _ => rfl) }

theorem mem_byState {drops : List Drop} {x : Drop} : x ∈ byState drops ↔ x ∈ drops := by
  simp only [byState, List.mem_flatMap, List.mem_eraseDups, List.mem_map, List.mem_filter,
    beq_iff_eq]
  constructor
  · rintro ⟨_, _, hx, _⟩
    exact hx
  · intro hx
    exact ⟨x.state, ⟨x, hx, rfl⟩, hx, rfl⟩

theorem staleBy_isSome {now createdAt : ℚ} {bound : Option ℚ} :
    (staleBy now createdAt bound).isSome ↔ ∃ m ∈ bound, m < now - createdAt := by
  cases bound with
  | none => simp [staleBy]
  | some m =>
    simp only [staleBy, Option.mem_def, Option.some.injEq, exists_eq_left']
    split
    · rename_i h
      exact iff_of_true rfl (sub_pos.mp h)
    · rename_i h
      exact iff_of_false (by simp) fun hlt => h (sub_pos.mpr hlt)

theorem staleDrop_fields {policies : PolicyMap} {now : ℚ} {c : Candidate} {x : Drop}
    (h : staleDrop policies now c = some x) : x.deliveryId = c.id ∧ x.state = .expired := by
  simp only [staleDrop, Option.map_eq_some_iff] at h
  obtain ⟨o, _, rfl⟩ := h
  exact ⟨rfl, rfl⟩

theorem supersededDrop_fields {newest : CoalesceKey → Option (ℚ ×ₗ ℕ)} {c : Candidate} {x : Drop}
    (h : supersededDrop newest c = some x) : x.deliveryId = c.id ∧ x.state = .superseded := by
  simp only [supersededDrop] at h
  split at h
  · cases h
  · split at h
    · cases h
      exact ⟨rfl, rfl⟩
    · cases h

theorem loadPolicies_of_cast {simulationId : SimulationId} {s t : Db} (h : t.cast = s.cast) :
    loadPolicies simulationId t = loadPolicies simulationId s := by
  funext c y
  rw [loadPolicies, h, loadPolicies]

theorem policyOf_cases (simulationId : SimulationId) (db : Db) (d : Delivery) :
    policyOf (loadPolicies simulationId db) (candidateOf d) = DELIVER_EVERYTHING ∨
    ∃ p ∈ db.cast.policies, p.consumerId = d.consumerId ∧ p.eventType = d.eventType ∧
      policyOf (loadPolicies simulationId db) (candidateOf d) =
        ⟨p.maxStalenessS, p.coalesce⟩ := by
  simp only [policyOf, loadPolicies]
  cases hp : db.cast.policies.find? fun p => p.simulationId == simulationId &&
      p.consumerId == (candidateOf d).consumerId && p.eventType == (candidateOf d).eventType with
  | none => exact Or.inl rfl
  | some p =>
    have hkey := List.find?_some hp
    simp only [candidateOf, Bool.and_eq_true, beq_iff_eq] at hkey
    exact Or.inr ⟨p, List.mem_of_find?_eq_some hp, hkey.1.2, hkey.2, rfl⟩

theorem policyOf_key {policies : PolicyMap} {c d : Candidate} (h : c.key = d.key) :
    policyOf policies c = policyOf policies d := by
  obtain ⟨hc, ht⟩ := Prod.mk.inj h
  obtain ⟨ht, -⟩ := Prod.mk.inj ht
  rw [policyOf, policyOf, hc, ht]

theorem admit_sublist (simulationId : SimulationId) (candidates : List Candidate)
    (policies : PolicyMap) (now : ℚ) (db : Db) :
    (evaluate simulationId candidates policies now db).admitted.Sublist candidates :=
  List.filter_sublist.trans List.filter_sublist

theorem mem_drops {simulationId : SimulationId} {candidates : List Candidate}
    {policies : PolicyMap} {now : ℚ} {db : Db} {x : Drop}
    (h : x ∈ (evaluate simulationId candidates policies now db).drops) :
    (x.state = .expired ∨ x.state = .superseded) ∧ ∃ c ∈ candidates, x.deliveryId = c.id ∧
      c ∉ (evaluate simulationId candidates policies now db).admitted := by
  simp only [evaluate, List.mem_append, List.mem_filterMap] at h ⊢
  rcases h with ⟨c, hc, hx⟩ | ⟨c, hc, hx⟩
  · obtain ⟨hid, hs⟩ := staleDrop_fields hx
    refine ⟨Or.inl hs, c, hc, hid, fun hm => ?_⟩
    have hsurv := (List.mem_filter.mp (List.mem_filter.mp hm).1).2
    rw [hx] at hsurv
    cases hsurv
  · obtain ⟨hid, hs⟩ := supersededDrop_fields hx
    refine ⟨Or.inr hs, c, (List.mem_filter.mp hc).1, hid, fun hm => ?_⟩
    have hkept := (List.mem_filter.mp hm).2
    rw [hx] at hkept
    cases hkept

/-- What the lookup lets through is not older than anything queued under its key. -/
theorem admit_newest {simulationId : SimulationId} {candidates : List Candidate}
    {policies : PolicyMap} {now : ℚ} {db : Db} {c : Candidate}
    (h : c ∈ (evaluate simulationId candidates policies now db).admitted)
    (hl : (policyOf policies c).coalesce = .latestByKey) :
    ∀ y ∈ queuedOfKey simulationId c.key db, ¬ c.age < y.age := by
  simp only [evaluate, List.mem_filter] at h
  obtain ⟨hc, hn⟩ := h
  intro y hy hlt
  have hkey : c.key ∈ ((survivors policies now candidates).filter fun c =>
      (policyOf policies c).coalesce == .latestByKey).map Candidate.key :=
    List.mem_map.mpr ⟨c, List.mem_filter.mpr ⟨hc, by simpa using hl⟩, rfl⟩
  cases hm : (queuedOfKey simulationId c.key db).argmax Candidate.age with
  | none =>
    rw [List.argmax_eq_none.mp hm] at hy
    cases hy
  | some m =>
    have hle : y.age ≤ m.age := List.le_of_mem_argmax hy hm
    simp only [supersededDrop, newestByKey, if_pos hkey, hm, Option.map_some] at hn
    rw [if_pos (lt_of_lt_of_le hlt hle)] at hn
    cases hn

def dropRow (now : ℚ) (x : Drop) (d : Delivery) : Delivery :=
  { d with state := x.state, completedAt := some now, terminalReason := some x.reason }

theorem applyDrops_rows (drops : List Drop) (now : ℚ) (db : Db) :
    ∃ f : Delivery → Delivery,
      (applyDrops drops now db).deliveries.rows = db.deliveries.rows.map f ∧
      ∀ d, ((∀ x ∈ drops, x.deliveryId ≠ d.id) ∧ f d = d) ∨
        ∃ x ∈ drops, x.deliveryId = d.id ∧ f d = dropRow now x d := by
  refine ⟨_, Table.executemany_rows _ _ _ _ _, fun d => ?_⟩
  rcases applyAll_of_overwrite (k := Drop.deliveryId) (p := fun x d => d.id == x.deliveryId)
    (f := dropRow now) (fun _ _ => beq_iff_eq.trans eq_comm) (fun _ _ => rfl) (fun _ _ _ => rfl)
    (byState drops) d with ⟨hn, h⟩ | ⟨x, hx, hk, h⟩
  · exact Or.inl ⟨fun x hx => hn x (mem_byState.mpr hx), h⟩
  · exact Or.inr ⟨x, mem_byState.mp hx, hk, h⟩

end DeliveryPolicy
