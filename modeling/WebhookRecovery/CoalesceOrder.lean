import WebhookRecovery.DeliveryLifecycle

/-! What latest_by_key promises over whole runs. A delivery is superseded by a newer one that
is queued, pending or ready; one that was delivered is not looked at, so a delivery that waits
for its retry may be sent after it. -/
namespace CoalesceOrder

open KeyedTables RecoverySchema InterleavedPrograms DeliveryPolicy DeliveryAdmission LeaseReaper
open ConductorPass DeliveryPipeline QueueUsage PassGuarantee DeliveryFile PipelineInvariant
open DeliveryLifecycle WorkerClaim

/-- A sibling of the same key that is strictly newer under (created_at, id). -/
structure Newer (o d : Delivery) : Prop where
  simulation : d.simulationId = o.simulationId
  key : (candidateOf d).key = (candidateOf o).key
  age : (candidateOf o).age < (candidateOf d).age

/-- A statement of a pass marks a pending delivery ready, of which its consumer wants the latest
state only. -/
structure Admits (s t : State) (o : Delivery) : Prop where
  row : o ∈ s.db.deliveries.rows
  pending : o.state = .pending
  ready : ∃ d ∈ t.db.deliveries.rows, d.id = o.id ∧ d.state = .ready
  latest : (policyOf (loadPolicies o.simulationId s.db) (candidateOf o)).coalesce = .latestByKey

section Writes

variable {cfg : Settings} {F : Db → Prop} {i : PassInput} {s t : Db}

theorem admission_of_ready (h : ConductorWrite cfg F i s t) {o d : Delivery}
    (ho : o ∈ s.deliveries.rows) (hp : o.state = .pending) (hd : d ∈ t.deliveries.rows)
    (hid : d.id = o.id) (hr : d.state = .ready) :
    ∃ chosen, Admission cfg F i chosen s ∧ candidateOf o ∈ chosen := by
  obtain ⟨f, hf, hrow⟩ := conductor_rows h
  rw [hf] at hd
  obtain ⟨e, he, rfl⟩ := List.mem_map.mp hd
  have heo : e = o := s.deliveries.row_unique he ho ((hrow e he).id.symm.trans hid)
  subst heo
  have hw := hrow e he
  generalize f e = d at hw hr
  cases hw with
  | same =>
    rw [hp] at hr
    cases hr
  | reclaimed hm =>
    have hin := (mem_expiredLeases hm).2.2.1
    rw [hp] at hin
    cases hin
  | dropped x _ hx =>
    have hstate : x.state = .ready := hr
    rcases hx with hx | hx
    · rw [hx] at hstate
      cases hstate
    · rw [hx] at hstate
      cases hstate
  | admitted chosen hadm hm _ => exact ⟨chosen, hadm, hm⟩

/-- At the lookup that let it through, an admitted row was pending and no newer one queued. -/
theorem admission_lookup {chosen : List Candidate} (hadm : Admission cfg F i chosen s)
    {o : Delivery} (ho : o ∈ s.deliveries.rows) (hm : candidateOf o ∈ chosen)
    (hl : (policyOf (loadPolicies o.simulationId s) (candidateOf o)).coalesce = .latestByKey) :
    ∃ u, F u ∧ (∃ d ∈ u.deliveries.rows, d.id = o.id ∧ d.state = .pending) ∧
      ∀ d ∈ u.deliveries.rows, Newer o d → d.state ≠ .pending ∧ d.state ≠ .ready := by
  obtain ⟨x, hx, _, hsim, hxo⟩ := hadm.queued (candidateOf o) hm
  have hxid : x = o := s.deliveries.row_unique hx ho (congrArg Candidate.id hxo)
  subst hxid
  rw [hsim] at hl
  obtain ⟨u, hF, ⟨d, hd, hp, _, hdx⟩, hnew⟩ := hadm.newest _ hm hl
  refine ⟨u, hF, ⟨d, hd, congrArg Candidate.id hdx, hp⟩, ?_⟩
  intro e he hne
  -- a newer sibling that was queued is one that the lookup returns
  have hqueued : e.state = .pending ∨ e.state = .ready → False := by
    intro hstate
    apply hnew (candidateOf e) _ hne.age
    apply List.mem_map_of_mem
    simp only [List.mem_filter, Bool.and_eq_true, Bool.or_eq_true, beq_iff_eq]
    exact ⟨he, ⟨hne.simulation.trans hsim, hstate⟩, hne.key⟩
  exact ⟨fun h => hqueued (Or.inl h), fun h => hqueued (Or.inr h)⟩

end Writes

section Runs

variable {cfg : Settings} {s₀ s₁ s t : State} {i : PassInput} {o : Delivery}

def During (cfg : Settings) (s₁ s : State) (db : Db) : Prop :=
  ∃ u : State, u.db = db ∧ (system cfg).Execution s₁ u ∧ (system cfg).Execution u s

/-- Whatever a pass guarantees, it guarantees by databases met since it began. -/
theorem guaranteed_during (h₁ : (system cfg).Reachable s₁)
    (hg : Guaranteed cfg (During cfg s₁ s) s₁) {u : State}
    (hu : (system cfg).Execution s₁ u) (hs : (system cfg).Execution u s) :
    Guaranteed cfg (During cfg s₁ s) u := by
  induction hu with
  | refl => exact hg
  | @tail v w hv he ih =>
    obtain ⟨e, he⟩ := he
    have hvs : (system cfg).Execution v s := .head ⟨e, he⟩ hs
    have hi := reachable_invariant (h₁.trans hv)
    have hw : (system cfg).Execution s₁ w := .tail hv ⟨e, he⟩
    exact step_guaranteed hi he (ih hvs) ⟨v, rfl, hv, hvs⟩ ⟨w, rfl, hw, hs⟩

theorem begun_guaranteed (F : Db → Prop) (hb : Step cfg s₀ (.beginPass i) s₁) :
    Guaranteed cfg F s₁ := by
  obtain ⟨_, rfl⟩ := hb
  intro j p hp
  obtain ⟨rfl, rfl⟩ := Prod.mk.inj (Option.some.inj hp)
  exact pass_guarantees cfg F _ _

theorem admitted_lookup (h₀ : (system cfg).Reachable s₀) (hb : Step cfg s₀ (.beginPass i) s₁)
    (hx : (system cfg).Execution s₁ s) (hs : Step cfg s .statement t) (ha : Admits s t o) :
    ∃ u, During cfg s₁ s u ∧ (∃ d ∈ u.deliveries.rows, d.id = o.id ∧ d.state = .pending) ∧
      ∀ d ∈ u.deliveries.rows, Newer o d → d.state ≠ .pending ∧ d.state ≠ .ready := by
  have h₁ : (system cfg).Reachable s₁ := h₀.tail hb
  have hg := guaranteed_during h₁ (begun_guaranteed (During cfg s₁ s) hb) hx .refl
  obtain ⟨d, hd, hid, hr⟩ := ha.ready
  obtain ⟨_, rfl⟩ := hs
  rcases statement_cases cfg s with ⟨j, write, k, hc⟩ | hn
  · have hwrite := (statement_write hg ⟨s, rfl, hx, .refl⟩ hc).1
    rw [next_statement hc] at hd
    obtain ⟨chosen, hadm, hm⟩ := admission_of_ready hwrite ha.row ha.pending hd hid hr
    exact admission_lookup hadm ha.row hm ha.latest
  · rw [hn] at hd
    have hdo : d = o := s.db.deliveries.row_unique hd ha.row hid
    rw [hdo, ha.pending] at hr
    cases hr

theorem pending_was_active {v : State} (hv : (system cfg).Reachable v)
    (hx : (system cfg).Execution v s) (ho : o ∈ s.db.deliveries.rows) (hp : o.state = .pending)
    {d : Delivery} (hd : d ∈ v.db.deliveries.rows) (hid : d.id = o.id) : d.state.active := by
  by_contra hact
  have hterm : d.state.terminal := by simpa [DeliveryState.terminal] using hact
  have hkept := execution_keeps_terminal hv hx hd hterm
  have hdo : d = o := s.db.deliveries.row_unique hkept ho hid
  rw [hdo, hp] at hterm
  cases hterm

/-- A pass admits a delivery of a latest_by_key policy only if, at a lookup since it began, the
delivery was pending and no newer one of its key was pending or ready; and the delivery was
live at every earlier time, so also when a newer one was delivered. -/
theorem superseded_within_queue (h₀ : (system cfg).Reachable s₀)
    (hb : Step cfg s₀ (.beginPass i) s₁) (hx : (system cfg).Execution s₁ s)
    (hs : Step cfg s .statement t) (ha : Admits s t o) :
    (∃ u : State, (system cfg).Execution s₁ u ∧ (system cfg).Execution u s ∧
      (∃ d ∈ u.db.deliveries.rows, d.id = o.id ∧ d.state = .pending) ∧
      ∀ d ∈ u.db.deliveries.rows, Newer o d → d.state ≠ .pending ∧ d.state ≠ .ready) ∧
    ∀ v, (system cfg).Reachable v → (system cfg).Execution v s →
      ∀ d ∈ v.db.deliveries.rows, d.id = o.id → d.state.active := by
  constructor
  · obtain ⟨db, ⟨u, hu, h₁u, hus⟩, hpend, hnewer⟩ := admitted_lookup h₀ hb hx hs ha
    subst hu
    exact ⟨u, h₁u, hus, hpend, hnewer⟩
  · intro v hv hvs d hd hid
    exact pending_was_active hv hvs ha.row ha.pending hd hid

end Runs

section Overtaken

/-- The older event of a chart times out and waits for its retry, while the newer one is
admitted, claimed and delivered. -/
def overtaking : List Action :=
  [.ingest 1 1 [⟨"patient.updated", "chart", none⟩]] ++ wholePass 2 ++
    [.claim 7 1 3 (fun _ => false) .physical, .complete 7 [⟨.timeout, none⟩] 4,
      .ingest 1 4 [⟨"patient.updated", "chart", none⟩]] ++ wholePass (9 / 2) ++
    [.claim 7 1 (9 / 2) (fun _ => false) .physical, .complete 7 [⟨.ok, some 200⟩] 5]

def overtaken : State :=
  (run shipped (initial soleConsumer []) overtaking).get (by decide +kernel)

theorem overtaken_reachable : (system shipped).Reachable overtaken :=
  run_reachable (Option.some_get _).symm

def begun : State := next shipped overtaken (.beginPass (passAt 10))

def admitting : State := (List.replicate 16 Action.statement).foldl (next shipped) begun

theorem run_statements (cfg : Settings) (s : State) (n : ℕ) :
    run cfg s (List.replicate n .statement) =
      some ((List.replicate n Action.statement).foldl (next cfg) s) := by
  induction n generalizing s with
  | zero => rfl
  | succ n ih => exact ih (next cfg s .statement)

theorem begun_step : Step shipped overtaken (.beginPass (passAt 10)) begun :=
  ⟨show overtaken.conductor.isNone = true by decide +kernel, rfl⟩

theorem begun_admitting : (system shipped).Execution begun admitting :=
  run_execution (run_statements shipped begun 16)

theorem admitting_older : ∃ o ∈ admitting.db.deliveries.rows, o.state = .pending ∧
    (∃ d ∈ (next shipped admitting .statement).db.deliveries.rows, d.id = o.id ∧ d.state = .ready) ∧
    (policyOf (loadPolicies o.simulationId admitting.db) (candidateOf o)).coalesce = .latestByKey ∧
    ∃ d ∈ overtaken.db.deliveries.rows, d.state = .delivered ∧ d.simulationId = o.simulationId ∧
      (candidateOf d).key = (candidateOf o).key ∧ (candidateOf o).age < (candidateOf d).age := by
  decide +kernel

theorem superseded_within_queue_overtaken : ∃ o ∈ admitting.db.deliveries.rows,
    (∃ u : State, (system shipped).Execution begun u ∧ (system shipped).Execution u admitting ∧
      (∃ d ∈ u.db.deliveries.rows, d.id = o.id ∧ d.state = .pending) ∧
      ∀ d ∈ u.db.deliveries.rows, Newer o d → d.state ≠ .pending ∧ d.state ≠ .ready) ∧
    ∀ d ∈ overtaken.db.deliveries.rows, d.id = o.id → d.state.active := by
  obtain ⟨o, ho, hp, hready, hlatest, _⟩ := admitting_older
  obtain ⟨hlookup, hlive⟩ := superseded_within_queue overtaken_reachable begun_step begun_admitting
    ⟨trivial, rfl⟩ ⟨ho, hp, hready, hlatest⟩
  have hrun : (system shipped).Execution overtaken admitting :=
    .head ⟨_, begun_step⟩ begun_admitting
  exact ⟨o, ho, hlookup, hlive overtaken overtaken_reachable hrun⟩

/-- Its retry due, the older delivery is admitted after the newer one was delivered. -/
theorem older_admitted_after_newer : ¬ ∀ v s t, (system shipped).Reachable v →
    (system shipped).Execution v s → Step shipped s .statement t →
      ∀ d ∈ v.db.deliveries.rows, d.state = .delivered → ∀ o, Admits s t o → ¬ Newer o d := by
  intro h
  obtain ⟨o, ho, hp, hready, hlatest, d, hd, hdel, hsim, hkey, hage⟩ := admitting_older
  exact h overtaken admitting _ overtaken_reachable (.head ⟨_, begun_step⟩ begun_admitting)
    ⟨trivial, rfl⟩ d hd hdel o ⟨ho, hp, hready, hlatest⟩ ⟨hsim, hkey, hage⟩

end Overtaken

end CoalesceOrder
