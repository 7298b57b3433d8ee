import WebhookRecovery.PassGuarantee

/-! A rule for what a pass guarantees. A relation that the reads and the chart keep has to be
looked at in four places only: the reclaim, the retirement, the drops and the admissions. What the
last two know is what the pass read when it selected. -/
namespace PassWalk

open KeyedTables RecoverySchema InterleavedPrograms DeliveryPolicy DeliveryAdmission WorkerClaim
open LeaseReaper ConductorPass QueueUsage PassGuarantee

/-- A selection is off candidates fetched at some time before, and a verdict of now. -/
def Looked (cfg : Settings) (i : PassInput) (R : Db → Db → Prop) (sel : Selection) (v : Db) :
    Prop :=
  sel = ⟨[], []⟩ ∨ ∃ u states allowances slots, R u v ∧
    sel.drops = (evaluate i.simulationId (fetchCandidates cfg i.scan i.simulationId i.now states
      allowances slots i.fairDrainEnabled u) (loadPolicies i.simulationId v) i.now v).drops ∧
    sel.admitted = ration slots allowances (evaluate i.simulationId (fetchCandidates cfg i.scan
      i.simulationId i.now states allowances slots i.fairDrainEnabled u)
        (loadPolicies i.simulationId v) i.now v).admitted

/-- An environment that leaves what is pending alone and knows the policies. -/
structure Calm (R : Db → Db → Prop) : Prop where
  trans : ∀ s t u, R s t → R t u → R s u
  frame : ∀ s t, Frame s t → R s t
  cast : ∀ s t, R s t → t.cast = s.cast

section Rule

variable {cfg : Settings} {i : PassInput} {R G : Db → Db → Prop} {s : Db}

theorem walk_frame (hR : Calm R) (hG : ∀ s t, Frame s t → G s t) {α : Type} {p : Program Db α}
    (hp : p.Writes Frame) {Q : α → Db → Prop} (h : ∀ a t, R s t → Q a t) :
    p.Guarantees R G Q s :=
  hp.guarantees (fun _ => hR.frame _ _ .refl) hR.trans (fun _ _ h => h) hR.frame hG h

theorem walk_read (hG : ∀ s t, Frame s t → G s t) {α : Type} {q : Db → α} {Q : α → Db → Prop}
    (h : ∀ t, R s t → Q (q t) t) : (Program.read q).Guarantees R G Q s :=
  Program.Guarantees.read fun t ht => ⟨hG t t .refl, h t ht⟩

theorem selectCandidates_looked (hR : Calm R) (hG : ∀ s t, Frame s t → G s t) {budget : Budget}
    {gauges : MetricsSeries.Gauges} {policies : PolicyMap} {Q : Selection → Db → Prop}
    (hp : policies = loadPolicies i.simulationId s)
    (h : ∀ sel t, Looked cfg i R sel t → Q sel t) :
    (selectCandidates cfg i.scan i.simulationId i.now budget gauges policies
      i.fairDrainEnabled).Guarantees R G Q s := by
  rw [selectCandidates]
  split
  · exact Program.Guarantees.pure (h _ s (Or.inl rfl))
  refine Program.Guarantees.bind (walk_frame hR hG (readConsumerStates_frame _ _ _ _)
    fun states t ht => ?_)
  dsimp only
  split
  · exact Program.Guarantees.pure (h _ t (Or.inl rfl))
  refine Program.Guarantees.bind (walk_read hG fun u hu => ?_)
  refine Program.Guarantees.bind (walk_read hG fun v hv => ?_)
  have hcast := hR.cast _ _ (hR.trans _ _ _ (hR.trans _ _ _ ht hu) hv)
  have hpol : policies = loadPolicies i.simulationId v := by
    rw [hp]
    exact (loadPolicies_of_cast hcast).symm
  rw [hpol]
  exact Program.Guarantees.pure (h _ v (Or.inr ⟨u, states, _, _, hv, rfl, rfl⟩))

/-- The rule. -/
theorem pass_walk (hR : Calm R) (hG : ∀ s t, Frame s t → G s t)
    (reclaim : ∀ s, G s (reclaimExpiredLeases cfg i.simulationId i.now i.locked s))
    (retired : ∀ s, G s (retire i.simulationId i.now s))
    (writes : ∀ sel v z, Looked cfg i R sel v → R v z →
      G z (applyDrops sel.drops i.now z) ∧
        ∀ a, R (applyDrops sel.drops i.now z) a → G a (markReady sel.admitted i.now a))
    (s : Db) : (pass cfg i).Guarantees R G (fun _ _ => True) s := by
  rw [ConductorPass.pass]
  refine Program.Guarantees.bind (Program.Guarantees.write fun t _ => ⟨reclaim t, ?_⟩)
  refine Program.Guarantees.bind (walk_read hG fun u _ => ?_)
  refine Program.Guarantees.bind (walk_frame hR hG (metrics_frame _ _ _ _ _) fun _ v _ => ?_)
  split
  · exact Program.Guarantees.bind (Program.Guarantees.write fun w _ => ⟨retired w, trivial⟩)
  split
  · exact Program.Guarantees.pure trivial
  refine Program.Guarantees.bind (walk_frame hR hG (computeBudget_frame _ _ _ _) fun b w _ => ?_)
  split
  · exact Program.Guarantees.pure trivial
  refine Program.Guarantees.bind (walk_read hG fun x _ => ?_)
  refine Program.Guarantees.bind (selectCandidates_looked hR hG rfl fun sel y hsel => ?_)
  refine Program.Guarantees.bind (Program.Guarantees.write fun z hz => ?_)
  obtain ⟨hdrops, hready⟩ := writes sel y z hsel hz
  exact ⟨hdrops, Program.Guarantees.write fun a ha => ⟨hready a ha, trivial⟩⟩

end Rule

section Looking

variable {cfg : Settings} {i : PassInput} {R : Db → Db → Prop} {sel : Selection} {v : Db}

def Due (i : PassInput) (d : Delivery) (v : Db) : Prop :=
  d ∈ v.deliveries.rows ∧ d.state = .pending ∧ d.simulationId = i.simulationId ∧
    dueAt i.now d.nextAttemptAt

theorem fetched_due {states : List ConsumerState} {allowances : ConsumerId → ℤ} {slots : ℤ}
    {fairDrain : Bool} {u : Db} {x : Candidate}
    (hx : x ∈ fetchCandidates cfg i.scan i.simulationId i.now states allowances slots fairDrain u) :
    ∃ d, Due i d u ∧ candidateOf d = x := by
  obtain ⟨d, hd, hdue, rfl⟩ := mem_fetchCandidates hx
  simp only [isDue, Bool.and_eq_true, beq_iff_eq] at hdue
  exact ⟨d, ⟨hd, hdue.1.2, hdue.1.1, hdue.2⟩, rfl⟩

theorem Due.evolves {d : Delivery} {s t : Db} (h : Due i d s) (he : Evolves s t) : Due i d t :=
  ⟨he.pending d h.1 h.2.1, h.2⟩

theorem Looked.drops (h : Looked cfg i R sel v) (hE : ∀ s t, R s t → Evolves s t) :
    ∃ candidates : List Candidate, (∀ c ∈ candidates, ∃ d, Due i d v ∧ candidateOf d = c) ∧
      ∀ x ∈ sel.drops, x ∈ (evaluate i.simulationId candidates
        (loadPolicies i.simulationId v) i.now v).drops := by
  rcases h with rfl | ⟨u, states, allowances, slots, hu, hdrops, -⟩
  · exact ⟨[], by simp, by simp⟩
  · refine ⟨_, fun c hc => ?_, fun x hx => hdrops ▸ hx⟩
    obtain ⟨d, hd, hdc⟩ := fetched_due hc
    exact ⟨d, hd.evolves (hE _ _ hu), hdc⟩

theorem Looked.admitted (h : Looked cfg i R sel v) (hE : ∀ s t, R s t → Evolves s t) {n : ℕ}
    (hn : n ∈ sel.admitted) :
    ∃ d, Due i d v ∧ d.id = n ∧ ∀ x ∈ sel.drops, x.deliveryId ≠ n := by
  rcases h with rfl | ⟨u, states, allowances, slots, hu, hdrops, hadm⟩
  · cases hn
  · rw [hadm] at hn
    obtain ⟨chosen, hsub, heq, -⟩ := ration_chosen slots allowances
      (evaluate i.simulationId (fetchCandidates cfg i.scan i.simulationId i.now states allowances
        slots i.fairDrainEnabled u) (loadPolicies i.simulationId v) i.now v).admitted
    rw [heq] at hn
    obtain ⟨x, hx, rfl⟩ := List.mem_map.mp hn
    have hin := hsub.subset hx
    obtain ⟨d, hd, rfl⟩ := fetched_due ((admit_sublist _ _ _ _ _).subset hin)
    refine ⟨d, hd.evolves (hE _ _ hu), rfl, fun y hy hid => ?_⟩
    rw [hdrops] at hy
    obtain ⟨-, c, hc, hyc, hout⟩ := mem_drops hy
    obtain ⟨e, he, rfl⟩ := fetched_due hc
    have hed : e = d := u.deliveries.row_unique he.1 hd.1 (hyc.symm.trans hid)
    exact hout (hed ▸ hin)

/-- What is admitted is due still when it is made ready: the drops of the pass and everybody else
have left it alone. -/
theorem Looked.admitted_due (h : Looked cfg i R sel v) (hE : ∀ s t, R s t → Evolves s t) {z a : Db}
    (hz : R v z) (ha : R (applyDrops sel.drops i.now z) a) {n : ℕ} (hn : n ∈ sel.admitted) :
    ∃ d, Due i d a ∧ d.id = n := by
  obtain ⟨d, hdue, hid, hkept⟩ := h.admitted hE hn
  have hz := hdue.evolves (hE _ _ hz)
  have hdropped : d ∈ (applyDrops sel.drops i.now z).deliveries.rows := by
    obtain ⟨f, hf, hrow⟩ := applyDrops_rows sel.drops i.now z
    rw [hf]
    refine List.mem_map.mpr ⟨d, hz.1, ?_⟩
    rcases hrow d with ⟨-, he⟩ | ⟨x, hx, hxd, -⟩
    · exact he
    · exact absurd (hxd.trans hid) (hkept x hx)
  have hlater : Due i d (applyDrops sel.drops i.now z) := ⟨hdropped, hz.2⟩
  exact ⟨d, hlater.evolves (hE _ _ ha), hid⟩

theorem Looked.dropped_due (h : Looked cfg i R sel v) (hE : ∀ s t, R s t → Evolves s t) {z : Db}
    (hz : R v z) {x : Drop} (hx : x ∈ sel.drops) : ∃ d, Due i d z ∧ d.id = x.deliveryId := by
  obtain ⟨candidates, hcand, hdrops⟩ := h.drops hE
  obtain ⟨-, c, hc, hxc, -⟩ := mem_drops (hdrops x hx)
  obtain ⟨d, hdue, rfl⟩ := hcand c hc
  exact ⟨d, hdue.evolves (hE _ _ hz), hxc.symm⟩

end Looking

end PassWalk
