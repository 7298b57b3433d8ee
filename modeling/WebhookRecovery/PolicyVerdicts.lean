import WebhookRecovery.AdmissionOutcome

/-! The verdict of policy, delivery by delivery. The code decides in two phases, with one lookup
for the keys of what survived the first; the specification asks about one candidate alone. -/
namespace PolicyVerdicts

open KeyedTables RecoverySchema InterleavedPrograms DeliveryPolicy MetricsSeries
open DeliveryAdmission AdmissionOutcome

inductive Fate where
  | admitted | expired | superseded
  deriving DecidableEq, Repr

def Fate.states : Fate → List DeliveryState
  | .admitted => []
  | .expired => [.expired]
  | .superseded => [.superseded]

/-- Distinct pending deliveries of one simulation, as they stand in the table. -/
structure Fetch (simulationId : SimulationId) (db : Db) where
  rows : List Delivery
  nodup : rows.Nodup
  stored : ∀ d ∈ rows, d ∈ db.deliveries.rows
  own : ∀ d ∈ rows, d.simulationId = simulationId
  pending : ∀ d ∈ rows, d.state = .pending

section Specification

variable (simulationId : SimulationId) (policies : PolicyMap) (now : ℚ) (db : Db)

def Fetch.candidates {simulationId : SimulationId} {db : Db} (f : Fetch simulationId db) :
    List Candidate := f.rows.map candidateOf

def Overdue (c : Candidate) : Prop :=
  ∃ m ∈ (policyOf policies c).maxStalenessS, m < now - c.createdAt

def Queued (d : Delivery) : Prop :=
  d.simulationId = simulationId ∧ (d.state = .pending ∨ d.state = .ready)

def SameKey (d : Delivery) (c : Candidate) : Prop :=
  d.consumerId = c.consumerId ∧ d.eventType = c.eventType ∧ d.entityKey = c.entityKey

def Later (d : Delivery) (c : Candidate) : Prop :=
  c.createdAt < d.createdAt ∨ c.createdAt = d.createdAt ∧ c.id < d.id

def Overtaken (c : Candidate) : Prop :=
  ∃ d ∈ db.deliveries.rows, Queued simulationId d ∧ SameKey d c ∧ Later d c

def Greatest (d : Delivery) : Prop :=
  ∀ e ∈ db.deliveries.rows, Queued simulationId e → SameKey e (candidateOf d) →
    ¬ Later e (candidateOf d)

instance (c : Candidate) : Decidable (Overdue policies now c) :=
  inferInstanceAs (Decidable (∃ m ∈ (policyOf policies c).maxStalenessS, m < now - c.createdAt))

instance (d : Delivery) : Decidable (Queued simulationId d) :=
  inferInstanceAs (Decidable (_ ∧ (_ ∨ _)))

instance (d : Delivery) (c : Candidate) : Decidable (SameKey d c) :=
  inferInstanceAs (Decidable (_ ∧ _ ∧ _))

instance (d : Delivery) (c : Candidate) : Decidable (Later d c) :=
  inferInstanceAs (Decidable (_ ∨ _ ∧ _))

instance (c : Candidate) : Decidable (Overtaken simulationId db c) :=
  inferInstanceAs (Decidable (∃ d ∈ db.deliveries.rows, Queued simulationId d ∧ SameKey d c ∧
    Later d c))

/-- What becomes of a candidate, by its own row, its policy, the instant and the table. -/
def fate (c : Candidate) : Fate :=
  if Overdue policies now c then .expired
  else if (policyOf policies c).coalesce = .latestByKey ∧ Overtaken simulationId db c then
    .superseded
  else .admitted

def SameVerdict (v w : Verdict) (c : Candidate) : Prop :=
  (c ∈ v.admitted ↔ c ∈ w.admitted) ∧
    (v.drops.filter fun x => x.deliveryId == c.id) = w.drops.filter fun x => x.deliveryId == c.id

def latest (k : CoalesceKey) : Option (ℚ ×ₗ ℕ) :=
  ((queuedOfKey simulationId k db).argmax Candidate.age).map Candidate.age

def dropOf (c : Candidate) : Option Drop :=
  match staleDrop policies now c with
  | some x => some x
  | none =>
    if (policyOf policies c).coalesce = .latestByKey then
      supersededDrop (latest simulationId db) c
    else none

end Specification

section Pointwise

variable {simulationId : SimulationId} {policies : PolicyMap} {now : ℚ} {db : Db}
variable {c : Candidate} {candidates : List Candidate} {x : Drop}

theorem staleDrop_isSome : (staleDrop policies now c).isSome ↔ Overdue policies now c := by
  rw [staleDrop, Option.isSome_map, staleBy_isSome]
  rfl

theorem later_iff {d : Delivery} : Later d c ↔ c.age < (candidateOf d).age := by
  rw [Candidate.age, Candidate.age, Prod.Lex.toLex_lt_toLex]
  rfl

theorem mem_queuedOfKey {y : Candidate} : y ∈ queuedOfKey simulationId c.key db ↔
    ∃ d ∈ db.deliveries.rows, (Queued simulationId d ∧ SameKey d c) ∧ candidateOf d = y := by
  simp only [queuedOfKey, List.mem_map, List.mem_filter, Bool.and_eq_true, Bool.or_eq_true,
    beq_iff_eq, Candidate.key, candidateOf, Prod.mk.injEq, Queued, SameKey, and_assoc]

theorem supersededDrop_isSome : (supersededDrop (latest simulationId db) c).isSome ↔
    Overtaken simulationId db c := by
  have hiff : Overtaken simulationId db c ↔
      ∃ y ∈ queuedOfKey simulationId c.key db, c.age < y.age := by
    constructor
    · rintro ⟨d, hd, hq, hk, hl⟩
      exact ⟨candidateOf d, mem_queuedOfKey.mpr ⟨d, hd, ⟨hq, hk⟩, rfl⟩, later_iff.mp hl⟩
    · rintro ⟨y, hy, hl⟩
      obtain ⟨d, hd, ⟨hq, hk⟩, rfl⟩ := mem_queuedOfKey.mp hy
      exact ⟨d, hd, hq, hk, later_iff.mpr hl⟩
  rw [hiff, supersededDrop, latest]
  cases hm : (queuedOfKey simulationId c.key db).argmax Candidate.age with
  | none =>
    rw [List.argmax_eq_none.mp hm]
    simp
  | some m =>
    dsimp only [Option.map_some]
    split
    · rename_i hlt
      exact iff_of_true rfl ⟨m, List.argmax_mem (Option.mem_def.mpr hm), hlt⟩
    · rename_i hlt
      apply iff_of_false (by simp)
      rintro ⟨y, hy, hy'⟩
      exact hlt (hy'.trans_le (List.le_of_mem_argmax hy (Option.mem_def.mpr hm)))

/-- The candidates of one key share one policy, so a key is looked up for all or for none. -/
theorem supersededDrop_newestByKey (hc : c ∈ candidates) :
    supersededDrop (newestByKey simulationId
        (candidates.filter fun c => (policyOf policies c).coalesce == .latestByKey) db) c =
      if (policyOf policies c).coalesce = .latestByKey then
        supersededDrop (latest simulationId db) c
      else none := by
  have hmem : c.key ∈ (candidates.filter fun c =>
      (policyOf policies c).coalesce == .latestByKey).map Candidate.key ↔
        (policyOf policies c).coalesce = .latestByKey := by
    constructor
    · intro h
      obtain ⟨b, hb, hkey⟩ := List.mem_map.mp h
      rw [← policyOf_key hkey]
      simpa using (List.mem_filter.mp hb).2
    · intro h
      exact List.mem_map.mpr ⟨c, List.mem_filter.mpr ⟨hc, by simpa using h⟩, rfl⟩
  split
  · rename_i h
    rw [supersededDrop, newestByKey, if_pos (hmem.mpr h)]
    rfl
  · rename_i h
    rw [supersededDrop, newestByKey, if_neg fun hk => h (hmem.mp hk)]

theorem dropOf_id (h : dropOf simulationId policies now db c = some x) : x.deliveryId = c.id := by
  rw [dropOf] at h
  split at h
  · rename_i hs
    rw [← Option.some.inj h]
    exact (staleDrop_fields hs).1
  · split at h
    · exact (supersededDrop_fields h).1
    · cases h

theorem dropOf_state : (dropOf simulationId policies now db c).toList.map Drop.state =
    (fate simulationId policies now db c).states := by
  cases hs : staleDrop policies now c with
  | some x =>
    have hover : Overdue policies now c := staleDrop_isSome.mp (by rw [hs]; rfl)
    rw [dropOf, hs, fate, if_pos hover]
    exact congrArg (fun s => [s]) (staleDrop_fields hs).2
  | none =>
    have hover : ¬ Overdue policies now c := fun ho => by
      simpa only [hs, Option.isSome_none, Bool.false_eq_true] using staleDrop_isSome.mpr ho
    simp only [dropOf, hs, fate, if_neg hover]
    by_cases hl : (policyOf policies c).coalesce = .latestByKey
    · simp only [hl, if_true, true_and]
      cases hd : supersededDrop (latest simulationId db) c with
      | some x =>
        have hlater : Overtaken simulationId db c := supersededDrop_isSome.mp (by rw [hd]; rfl)
        rw [if_pos hlater]
        exact congrArg (fun s => [s]) (supersededDrop_fields hd).2
      | none =>
        have hlater : ¬ Overtaken simulationId db c := fun ho => by
          simpa only [hd, Option.isSome_none, Bool.false_eq_true] using
            supersededDrop_isSome.mpr ho
        rw [if_neg hlater]
        rfl
    · simp only [hl, if_false, false_and]
      rfl

theorem fate_states {f : Fate} : f.states = [] ↔ f = .admitted := by
  cases f <;> simp [Fate.states]

theorem dropOf_eq_none : dropOf simulationId policies now db c = none ↔
    fate simulationId policies now db c = .admitted := by
  rw [← fate_states, ← dropOf_state, List.map_eq_nil_iff, Option.toList_eq_nil_iff]

theorem mem_survivors : c ∈ survivors policies now candidates ↔
    c ∈ candidates ∧ staleDrop policies now c = none := by
  rw [survivors, List.mem_filter, Option.isNone_iff_eq_none]

/-- The second phase decides for a survivor as if it stood alone. -/
theorem supersededDrop_survivor (hc : c ∈ survivors policies now candidates) :
    supersededDrop (newestByKey simulationId
        ((survivors policies now candidates).filter fun c =>
          (policyOf policies c).coalesce == .latestByKey) db) c =
      dropOf simulationId policies now db c := by
  rw [supersededDrop_newestByKey hc, dropOf, (mem_survivors.mp hc).2]

/-- The admitted are those that no drop of their own condemns, in order. -/
theorem evaluate_admitted : (evaluate simulationId candidates policies now db).admitted =
    candidates.filter fun c => fate simulationId policies now db c = .admitted := by
  have hphase : (evaluate simulationId candidates policies now db).admitted =
      (survivors policies now candidates).filter fun c =>
        (dropOf simulationId policies now db c).isNone :=
    List.filter_congr fun c hc => by rw [supersededDrop_survivor hc]
  rw [hphase, survivors, List.filter_filter]
  refine List.filter_congr fun c _ => ?_
  rw [Bool.eq_iff_iff, Bool.and_eq_true, Option.isNone_iff_eq_none, Option.isNone_iff_eq_none,
    decide_eq_true_eq, dropOf_eq_none]
  refine and_iff_left_of_imp fun h => ?_
  rw [← dropOf_eq_none, dropOf] at h
  cases hs : staleDrop policies now c with
  | none => rfl
  | some x => simp [hs] at h

theorem filterMap_phases {α β : Type} (f g : α → Option β) (l : List α) :
    (l.filterMap f ++ (l.filter fun a => (f a).isNone).filterMap g).Perm
      (l.filterMap fun a => (f a).or (g a)) := by
  induction l with
  | nil => exact .nil
  | cons a l ih =>
    cases hf : f a with
    | some b => simpa [hf] using ih
    | none =>
      cases hg : g a with
      | none => simpa [hf, hg] using ih
      | some b => simpa [hf, hg] using List.perm_middle.trans (ih.cons b)

theorem evaluate_drops : (evaluate simulationId candidates policies now db).drops.Perm
    (candidates.filterMap (dropOf simulationId policies now db)) := by
  have hphase : (evaluate simulationId candidates policies now db).drops =
      candidates.filterMap (staleDrop policies now) ++
        (survivors policies now candidates).filterMap (dropOf simulationId policies now db) :=
    congrArg _ (List.filterMap_congr fun c hc => supersededDrop_survivor hc)
  rw [hphase]
  refine (filterMap_phases _ _ _).trans (List.Perm.of_eq (List.filterMap_congr fun c _ => ?_))
  rw [dropOf]
  cases staleDrop policies now c <;> rfl

end Pointwise

section Keys

variable {α β : Type} {k : α → ℕ} {k' : β → ℕ} {f : α → Option β}

theorem filter_filterMap_of_key (hf : ∀ a b, f a = some b → k' b = k a) {l : List α}
    (hn : (l.map k).Nodup) {a : α} (ha : a ∈ l) :
    ((l.filterMap f).filter fun b => k' b == k a) = (f a).toList := by
  induction l with
  | nil => cases ha
  | cons x l ih =>
    rw [List.map_cons, List.nodup_cons] at hn
    rcases List.mem_cons.mp ha with rfl | ha
    · have hrest : ((l.filterMap f).filter fun b => k' b == k a) = [] := by
        rw [List.filter_eq_nil_iff]
        intro b hb hk
        obtain ⟨y, hy, hfy⟩ := List.mem_filterMap.mp hb
        rw [hf y b hfy, beq_iff_eq] at hk
        exact hn.1 (List.mem_map.mpr ⟨y, hy, hk⟩)
      cases hx : f a with
      | none => simpa [hx] using hrest
      | some b => simpa [hx, hf a b hx] using hrest
    · have hne : k x ≠ k a := fun he => hn.1 (List.mem_map.mpr ⟨a, ha, he.symm⟩)
      cases hx : f x with
      | none => simpa [hx] using ih hn.2 ha
      | some b => simpa [hx, hf x b hx, hne] using ih hn.2 ha

theorem map_filterMap_of_key (hf : ∀ a b, f a = some b → k' b = k a) (l : List α) :
    (l.filterMap f).map k' = (l.filter fun a => (f a).isSome).map k := by
  induction l with
  | nil => rfl
  | cons x l ih =>
    cases hx : f x with
    | none => simpa [hx] using ih
    | some b => simpa [hx, hf x b hx] using ih

theorem eq_of_perm_toList {o : Option β} {l : List β} (h : l.Perm o.toList) : l = o.toList := by
  cases o with
  | none => exact h.eq_nil
  | some b => exact List.perm_singleton.mp h

end Keys

section Verdicts

variable {simulationId : SimulationId} {policies : PolicyMap} {now : ℚ} {db : Db}
variable {c : Candidate} {x : Drop}

theorem Fetch.ids_nodup (f : Fetch simulationId db) : (f.candidates.map Candidate.id).Nodup := by
  have hmap : f.candidates.map Candidate.id = f.rows.map Delivery.id := by
    rw [Fetch.candidates, List.map_map]
    rfl
  rw [hmap]
  exact f.nodup.map_on fun d hd e he => db.deliveries.row_unique (f.stored d hd) (f.stored e he)

theorem drops_of_candidate (f : Fetch simulationId db) (hc : c ∈ f.candidates) :
    ((evaluate simulationId f.candidates policies now db).drops.filter fun x =>
      x.deliveryId == c.id) = (dropOf simulationId policies now db c).toList := by
  apply eq_of_perm_toList
  have hshare : ((f.candidates.filterMap (dropOf simulationId policies now db)).filter fun x =>
      x.deliveryId == c.id) = (dropOf simulationId policies now db c).toList :=
    filter_filterMap_of_key (fun _ _ h => dropOf_id h) f.ids_nodup hc
  exact hshare ▸ evaluate_drops.filter _

theorem evaluate_partition (f : Fetch simulationId db) :
    ((evaluate simulationId f.candidates policies now db).admitted.map Candidate.id ++
      (evaluate simulationId f.candidates policies now db).drops.map Drop.deliveryId).Perm
        (f.candidates.map Candidate.id) := by
  have hkept : (fun c => decide (fate simulationId policies now db c = .admitted)) =
      fun c => !(dropOf simulationId policies now db c).isSome := by
    funext c
    rw [Bool.eq_iff_iff, decide_eq_true_eq, ← dropOf_eq_none]
    cases dropOf simulationId policies now db c <;> simp
  rw [evaluate_admitted, hkept]
  refine ((evaluate_drops.map Drop.deliveryId).append_left _).trans ?_
  rw [map_filterMap_of_key (k := Candidate.id) (fun _ _ h => dropOf_id h), ← List.map_append]
  refine (List.perm_append_comm.trans ?_).map Candidate.id
  exact List.filter_append_perm _ _

theorem sameVerdict (f g : Fetch simulationId db) (hf : c ∈ f.candidates)
    (hg : c ∈ g.candidates) : SameVerdict (evaluate simulationId f.candidates policies now db)
      (evaluate simulationId g.candidates policies now db) c := by
  constructor
  · rw [evaluate_admitted, evaluate_admitted, List.mem_filter, List.mem_filter]
    exact and_congr_left' (iff_of_true hf hg)
  · rw [drops_of_candidate f hf, drops_of_candidate g hg]

theorem greatest_not_superseded (f : Fetch simulationId db) {d : Delivery}
    (hd : d ∈ db.deliveries.rows) (hg : Greatest simulationId db d)
    (hx : x ∈ (evaluate simulationId f.candidates policies now db).drops)
    (hid : x.deliveryId = d.id) : x.state ≠ .superseded := by
  intro hs
  obtain ⟨c, hc, hdrop⟩ := List.mem_filterMap.mp (evaluate_drops.subset hx)
  obtain ⟨e, he, rfl⟩ := List.mem_map.mp hc
  obtain rfl := db.deliveries.row_unique (f.stored e he) hd ((dropOf_id hdrop).symm.trans hid)
  have hstate : (dropOf simulationId policies now db (candidateOf e)).toList.map Drop.state = _ :=
    dropOf_state
  rw [hdrop, Option.toList_some, List.map_singleton, hs, fate] at hstate
  split at hstate
  · simp [Fate.states] at hstate
  · split at hstate
    · rename_i hover
      obtain ⟨b, hb, hq, hk, hl⟩ := hover.2
      exact hg b hb hq hk hl
    · simp [Fate.states] at hstate

end Verdicts

section Arms

variable (cfg : Settings) (scan : ScanOrder) (simulationId : SimulationId) (policies : PolicyMap)
variable (now : ℚ) (budget : Budget) (gauges : Gauges) (db : Db)

def armFetch (fairDrain : Bool) : Fetch simulationId db where
  rows := fetchedRows cfg scan simulationId now budget gauges fairDrain db
  nodup := fetchedRows_nodup
  stored _ hd := (mem_fetchedRows hd).1
  own _ hd := (isDue_iff.mp (mem_fetchedRows hd).2).1
  pending _ hd := (isDue_iff.mp (mem_fetchedRows hd).2).2.1

theorem armFetch_candidates (fairDrain : Bool) :
    (armFetch cfg scan simulationId now budget gauges db fairDrain).candidates =
      fetchedAt cfg scan simulationId now budget gauges fairDrain db :=
  fetchedAt_rows.symm

end Arms

/-- Policy is decided candidate by candidate, so the rest of the fetch has no part in it. -/
theorem evaluate_pointwise (simulationId : SimulationId) (policies : PolicyMap) (now : ℚ)
    (db : Db) (f : Fetch simulationId db) :
    let v := evaluate simulationId f.candidates policies now db
    v.admitted = (f.candidates.filter fun c => fate simulationId policies now db c = .admitted) ∧
    (v.admitted.map Candidate.id ++ v.drops.map Drop.deliveryId).Perm
      (f.candidates.map Candidate.id) ∧
    (∀ c ∈ f.candidates, (v.drops.filter fun x => x.deliveryId == c.id).map Drop.state =
      (fate simulationId policies now db c).states) ∧
    (∀ d ∈ db.deliveries.rows, Greatest simulationId db d →
      ∀ x ∈ v.drops, x.deliveryId = d.id → x.state ≠ .superseded) ∧
    (∀ g : Fetch simulationId db, ∀ c ∈ f.candidates, c ∈ g.candidates →
      SameVerdict v (evaluate simulationId g.candidates policies now db) c) ∧
    ∀ (cfg : Settings) (scan : ScanOrder) (budget : Budget) (gauges : Gauges),
      ∀ c ∈ fetchedAt cfg scan simulationId now budget gauges true db,
        c ∈ fetchedAt cfg scan simulationId now budget gauges false db →
        SameVerdict
          (evaluate simulationId (fetchedAt cfg scan simulationId now budget gauges true db)
            policies now db)
          (evaluate simulationId (fetchedAt cfg scan simulationId now budget gauges false db)
            policies now db) c := by
  refine ⟨evaluate_admitted, evaluate_partition f, fun c hc => ?_, fun d hd hg x hx hid => ?_,
    fun g c hc hg => sameVerdict f g hc hg, fun cfg scan budget gauges c hc hd => ?_⟩
  · rw [drops_of_candidate f hc, dropOf_state]
  · exact greatest_not_superseded f hd hg hx hid
  · rw [← armFetch_candidates] at hc hd ⊢
    rw [← armFetch_candidates]
    exact sameVerdict _ _ hc hd

section Mixed

def bothPolicies : Cast where
  consumers := [⟨1, 1, 1, 4, 10, 0, 0, 0, false⟩]
  subscriptions := [⟨1, 1, "usage"⟩, ⟨1, 1, "invoice"⟩]
  policies := [⟨1, 1, "usage", some 60, .none⟩, ⟨1, 1, "invoice", none, .latestByKey⟩]
  consumer_key := by decide
  subscription_key := by decide
  policy_key := by decide
  knobs_positive := by decide +kernel
  staleness_positive := by decide +kernel

def mixed : Db :=
  { Db.seeded bothPolicies [] with
    deliveries :=
      ⟨[{ id := 1, simulationId := 1, eventId := 1, consumerId := 1, eventType := "usage",
          entityKey := "a", nextAttemptAt := some 10, createdAt := 10 },
        { id := 2, simulationId := 1, eventId := 2, consumerId := 1, eventType := "invoice",
          entityKey := "b", nextAttemptAt := some 20, createdAt := 20 },
        { id := 3, simulationId := 1, eventId := 3, consumerId := 1, eventType := "invoice",
          entityKey := "b", nextAttemptAt := some 30, createdAt := 30 }],
        4, by decide, by decide⟩ }

def mixedFetch : Fetch 1 mixed :=
  ⟨mixed.deliveries.rows, mixed.deliveries.nodup, fun _ h => h, by decide, by decide⟩

theorem evaluate_pointwise_mixed :
    let v := evaluate 1 mixedFetch.candidates (loadPolicies 1 mixed) 100 mixed
    v.admitted.map Candidate.id = [3] ∧
      v.drops.map (fun x => (x.deliveryId, x.state)) = [(1, .expired), (2, .superseded)] ∧
      v.admitted = (mixedFetch.candidates.filter fun c =>
        fate 1 (loadPolicies 1 mixed) 100 mixed c = .admitted) ∧
      ∀ c ∈ mixedFetch.candidates, (v.drops.filter fun x => x.deliveryId == c.id).map Drop.state =
        (fate 1 (loadPolicies 1 mixed) 100 mixed c).states := by
  intro v
  obtain ⟨hadmitted, -, hdrops, -⟩ :=
    evaluate_pointwise 1 (loadPolicies 1 mixed) 100 mixed mixedFetch
  exact ⟨by decide +kernel, by decide +kernel, hadmitted, hdrops⟩

end Mixed

end PolicyVerdicts
