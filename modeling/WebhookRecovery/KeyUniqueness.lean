import WebhookRecovery.EventProducer
import WebhookRecovery.ClockControl

/-! The keys of the un-pooled event types. They are numbered by a counter that lives in memory, so
they are unique for as long as the counter does; it is dropped by a restart, and by a tick that
does not find the simulation running. -/
namespace KeyUniqueness

open RecoverySchema InterleavedPrograms EventIngest EventProducer

def unpooled (eventType : String) : Bool :=
  EVENT_MIX.any fun k => k.eventType == eventType && k.keyPool.isNone

def Numbered (x : String × String) (n : ℕ) : Prop :=
  ∃ k ∈ EVENT_MIX, k.keyPool = none ∧ k.eventType = x.1 ∧ x.2 = entityKey k n

/-- The un-pooled keys of a list take different numbers from an interval. -/
structure Drawn (lo hi : ℕ) (l : List (String × String)) : Prop where
  le : lo ≤ hi
  numbered : ∀ x ∈ l, unpooled x.1 → ∃ n, lo < n ∧ n ≤ hi ∧ Numbered x n
  unique : ((l.filter fun x => unpooled x.1).map Prod.snd).Nodup

section Keys

variable {lo mid hi m n : ℕ} {l l' : List (String × String)} {x y : String × String}

/-- The prefixes are equally long, and the rest of the key is the number. -/
theorem Numbered.injective (hx : Numbered x m) (hy : Numbered y n) (h : x.2 = y.2) : m = n := by
  have prefixes : ∀ k ∈ EVENT_MIX, k.keyPool = none → k.keyPrefix.toList.length = 2 := by decide
  obtain ⟨j, hj, hjp, -, hjx⟩ := hx
  obtain ⟨k, hk, hkp, -, hky⟩ := hy
  rw [hjx, hky, entityKey, entityKey, hjp, hkp] at h
  have hlist := congrArg String.toList h
  simp only [String.toList_append, List.append_assoc] at hlist
  have hlen : j.keyPrefix.toList.length = k.keyPrefix.toList.length := by
    rw [prefixes j hj hjp, prefixes k hk hkp]
  obtain ⟨-, hrest⟩ := List.append_inj hlist hlen
  exact Numerals.padded_injective 8 (String.toList_inj.mp (List.append_cancel_left hrest))

theorem Drawn.nil : Drawn n n [] := ⟨le_rfl, by simp, by simp⟩

theorem Drawn.append (h : Drawn lo mid l) (h' : Drawn mid hi l') : Drawn lo hi (l ++ l') := by
  refine ⟨h.le.trans h'.le, fun x hx hu => ?_, ?_⟩
  · rcases List.mem_append.mp hx with hx | hx
    · obtain ⟨n, hlo, hhi, hn⟩ := h.numbered x hx hu
      exact ⟨n, hlo, hhi.trans h'.le, hn⟩
    · obtain ⟨n, hlo, hhi, hn⟩ := h'.numbered x hx hu
      exact ⟨n, lt_of_le_of_lt h.le hlo, hhi, hn⟩
  · rw [List.filter_append, List.map_append]
    refine List.Nodup.append h.unique h'.unique fun key hk hk' => ?_
    obtain ⟨x, hx, rfl⟩ := List.mem_map.mp hk
    obtain ⟨y, hy, hyx⟩ := List.mem_map.mp hk'
    obtain ⟨hx, hxu⟩ := List.mem_filter.mp hx
    obtain ⟨hy, hyu⟩ := List.mem_filter.mp hy
    obtain ⟨m, -, hm, hxm⟩ := h.numbered x hx hxu
    obtain ⟨n, hn, -, hyn⟩ := h'.numbered y hy hyu
    have hsame := hxm.injective hyn hyx.symm
    omega

theorem Drawn.perm (h : Drawn lo hi l) (hp : l.Perm l') : Drawn lo hi l' :=
  ⟨h.le, fun x hx => h.numbered x (hp.mem_iff.mpr hx),
    ((hp.filter _).map Prod.snd).nodup_iff.mp h.unique⟩

theorem Drawn.upTo (h : Drawn lo mid l) (hle : mid ≤ hi) : Drawn lo hi l :=
  ⟨h.le.trans hle, fun x hx hu =>
    let ⟨n, hlo, hhi, hn⟩ := h.numbered x hx hu
    ⟨n, hlo, hhi.trans hle, hn⟩, h.unique⟩

theorem Drawn.sublist (h : Drawn lo hi l) (hsub : l'.Sublist l) : Drawn lo hi l' :=
  ⟨h.le, fun x hx => h.numbered x (hsub.subset hx),
    h.unique.sublist ((hsub.filter _).map Prod.snd)⟩

theorem Drawn.bare (h : ∀ x ∈ l, ¬ unpooled x.1) : Drawn n n l := by
  refine ⟨le_rfl, fun x hx hu => absurd hu (h x hx), ?_⟩
  rw [List.filter_eq_nil_iff.mpr h]
  exact .nil

end Keys

section Draws

variable {ρ : Type} {gen : Random ρ} {st : SimulationState ρ} {spec : EventTypeSpec}
  {since windowS : ℚ}

def keyed (x : EventSpec) : String × String := (x.eventType, x.entityKey)

theorem one_drawn (hs : spec ∈ EVENT_MIX) :
    Drawn st.sequence (one gen st spec since windowS).1.sequence
      [keyed (one gen st spec since windowS).2] := by
  have listed : ∀ j ∈ EVENT_MIX, ∀ k ∈ EVENT_MIX, j.eventType = k.eventType →
      j.keyPool = k.keyPool := by decide
  refine ⟨Nat.le_succ _, fun x hx hu => ?_, List.Nodup.map_on ?_ (List.Nodup.filter _ (by simp))⟩
  · obtain rfl := List.mem_singleton.mp hx
    obtain ⟨k, hk, hu⟩ := List.any_eq_true.mp hu
    rw [Bool.and_eq_true, beq_iff_eq, Option.isNone_iff_eq_none] at hu
    have hpool : spec.keyPool = none := (listed k hk spec hs hu.1).symm.trans hu.2
    refine ⟨st.sequence + 1, Nat.lt_succ_self _, le_rfl, spec, hs, hpool, rfl, ?_⟩
    simp only [keyed, one, hpool]
  · intro x hx y hy _
    rw [List.mem_singleton.mp (List.mem_of_mem_filter hx),
      List.mem_singleton.mp (List.mem_of_mem_filter hy)]

theorem several_drawn (gen : Random ρ) (st : SimulationState ρ) (since windowS : ℚ)
    (hs : spec ∈ EVENT_MIX) (count : ℕ) :
    Drawn st.sequence (several gen st spec since windowS count).1.sequence
      ((several gen st spec since windowS count).2.map keyed) := by
  induction count generalizing st with
  | zero => exact Drawn.nil
  | succ count ih => exact (one_drawn hs).append (ih _)

theorem drawTypes_drawn {mix : List EventTypeSpec} (hm : ∀ k ∈ mix, k ∈ EVENT_MIX) :
    Drawn st.sequence (drawTypes gen st since windowS mix).1.sequence
      ((drawTypes gen st since windowS mix).2.map keyed) := by
  induction mix generalizing st with
  | nil => exact Drawn.nil
  | cons spec mix ih =>
    simp only [drawTypes, List.map_append]
    have hmine := several_drawn gen (drawCount gen st spec windowS).1 since windowS
      (hm spec List.mem_cons_self) (drawCount gen st spec windowS).2
    exact hmine.append (ih fun k hk => hm k (List.mem_cons_of_mem _ hk))

theorem draw_drawn : Drawn st.sequence (draw gen st windowS since).1.sequence
    ((draw gen st windowS since).2.map keyed) := by
  have hdrawn : Drawn st.sequence (drawTypes gen st since windowS EVENT_MIX).1.sequence
      ((drawTypes gen st since windowS EVENT_MIX).2.map keyed) := drawTypes_drawn fun _ hk => hk
  exact hdrawn.perm ((List.perm_insertionSort _ _).symm.map keyed)

end Draws

def ledger (σ : SimulationId) (db : Db) : List (String × String) :=
  (db.events.rows.filter fun e => e.simulationId == σ).map fun e => (e.eventType, e.entityKey)

def Bare (σ : SimulationId) (db : Db) : Prop := ∀ x ∈ ledger σ db, ¬ unpooled x.1

instance (σ : SimulationId) (db : Db) : Decidable (Bare σ db) :=
  inferInstanceAs (Decidable (∀ x ∈ ledger σ db, ¬ unpooled x.1))

def UniqueKeys (σ : SimulationId) (db : Db) : Prop :=
  ∀ e ∈ db.events.rows, ∀ f ∈ db.events.rows, e.simulationId = σ → f.simulationId = σ →
    unpooled e.eventType → unpooled f.eventType → e ≠ f → e.entityKey ≠ f.entityKey

instance (σ : SimulationId) (db : Db) : Decidable (UniqueKeys σ db) :=
  inferInstanceAs (Decidable (∀ e ∈ db.events.rows, ∀ f ∈ db.events.rows, e.simulationId = σ →
    f.simulationId = σ → unpooled e.eventType → unpooled f.eventType → e ≠ f →
    e.entityKey ≠ f.entityKey))

def DistinctKeys (σ : SimulationId) (db : Db) : Prop :=
  (((ledger σ db).filter fun x => unpooled x.1).map Prod.snd).Nodup

theorem DistinctKeys.uniqueKeys {σ : SimulationId} {db : Db} (h : DistinctKeys σ db) :
    UniqueKeys σ db := by
  intro e he f hf heσ hfσ heu hfu hne hkey
  rw [DistinctKeys, ledger, List.filter_map, List.map_map] at h
  refine hne (List.inj_on_of_nodup_map h (List.mem_filter.mpr ⟨?_, heu⟩)
    (List.mem_filter.mpr ⟨?_, hfu⟩) hkey)
  · exact List.mem_filter.mpr ⟨he, beq_iff_eq.mpr heσ⟩
  · exact List.mem_filter.mpr ⟨hf, beq_iff_eq.mpr hfσ⟩

theorem ledger_ingest (σ i : SimulationId) (now : ℚ) (specs : List EventSpec) (db : Db) :
    ledger σ (ingestEvents i now specs db) =
      ledger σ db ++ if i = σ then specs.map keyed else [] := by
  have hrows : (newEvents i now specs db.events).map (fun e => (e.eventType, e.entityKey)) =
      specs.map keyed := by
    conv_rhs => rw [← List.zipIdx_map_fst db.events.next specs]
    rw [newEvents, List.map_map, List.map_map]
    rfl
  rw [ledger, ingestEvents_filter, List.map_append]
  refine congrArg _ ?_
  split
  · exact hrows
  · rfl

section Emissions

variable {ρ : Type} {gen : Random ρ} {cfg : ProducerSettings} {σ : SimulationId}
  {sim : Simulation} {wall : ℚ} {p : Memory ρ × Db}

theorem drawAt_drawn {st st' : SimulationState ρ} {now : ℚ} {specs : List EventSpec}
    (h : drawAt gen cfg st now = some (st', specs)) :
    Drawn st.sequence st'.sequence (specs.map keyed) := by
  unfold drawAt at h
  split at h
  · cases h
  · obtain ⟨rfl, rfl⟩ := Prod.ext_iff.mp (Option.some.inj h)
    exact draw_drawn

theorem emitFor_cases (gen : Random ρ) (cfg : ProducerSettings) (σ : SimulationId)
    (sim : Simulation) (wall : ℚ) (p : Memory ρ × Db) :
    ((emitFor gen cfg sim wall p).1 σ = p.1 σ ∧
      ledger σ (emitFor gen cfg sim wall p).2 = ledger σ p.2) ∨
    ((sim.id = σ ∧ emits sim wall) ∧ ∃ st l, (emitFor gen cfg sim wall p).1 σ = some st ∧
      ledger σ (emitFor gen cfg sim wall p).2 = ledger σ p.2 ++ l ∧
      Drawn (stateOf gen p.1 σ p.2).sequence st.sequence l) := by
  by_cases hi : sim.id = σ
  · subst hi
    rcases emitFor_spec gen cfg sim wall p with ⟨-, hp⟩ | ⟨he, ⟨-, hp⟩ | ⟨st, specs, hd, hp⟩⟩
    · rw [hp]
      exact Or.inl ⟨rfl, rfl⟩
    · rw [hp]
      exact Or.inr ⟨⟨rfl, he⟩, _, [], Function.update_self .., (List.append_nil _).symm, Drawn.nil⟩
    · rw [hp]
      have hdrawn := drawAt_drawn hd
      refine Or.inr ⟨⟨rfl, he⟩, _, specs.map keyed, Function.update_self .., ?_, hdrawn⟩
      cases specs with
      | nil => exact (List.append_nil _).symm
      | cons x specs => exact (ledger_ingest ..).trans (by rw [if_pos rfl])
  · obtain ⟨hm, hevents⟩ := emitFor_other gen cfg wall p hi
    refine Or.inl ⟨hm, ?_⟩
    rw [ledger, hevents, ledger]

theorem emitFailing_cases (gen : Random ρ) (cfg : ProducerSettings) (σ : SimulationId)
    (sim : Simulation) (wall : ℚ) (p : Memory ρ × Db) :
    emitFailing gen cfg sim wall p σ = p.1 σ ∨
    ((sim.id = σ ∧ emits sim wall) ∧ ∃ st, emitFailing gen cfg sim wall p σ = some st ∧
      (stateOf gen p.1 σ p.2).sequence ≤ st.sequence) := by
  by_cases hi : sim.id = σ
  · subst hi
    rcases emitFailing_spec gen cfg sim wall p with hp | ⟨he, st, hp, hst⟩
    · rw [hp]
      exact Or.inl rfl
    · rw [hp]
      refine Or.inr ⟨⟨rfl, he⟩, st, Function.update_self .., ?_⟩
      rcases hst with rfl | ⟨specs, hd⟩
      · exact le_rfl
      · exact (drawAt_drawn hd).le
  · exact Or.inl (emitFailing_other gen cfg wall p hi)

/-- The counter of a simulation that is in memory has passed every number in its ledger. -/
structure Counted (σ : SimulationId) (p : Memory ρ × Db) : Prop where
  distinct : DistinctKeys σ p.2
  counted : ∀ st, p.1 σ = some st → Drawn 0 st.sequence (ledger σ p.2)

/-- A counter that starts anew finds an empty ledger. -/
theorem Counted.from (hs : Counted σ p) (hb : p.1 σ = none → Bare σ p.2) :
    Drawn 0 (stateOf gen p.1 σ p.2).sequence (ledger σ p.2) := by
  cases hp : p.1 σ with
  | none =>
    rw [stateOf, hp]
    exact Drawn.bare (hb hp)
  | some st =>
    rw [stateOf, hp]
    exact hs.counted st hp

theorem Counted.emitFor (hs : Counted σ p)
    (hk : sim.id = σ → emits sim wall → p.1 σ = none → Bare σ p.2) :
    Counted σ (emitFor gen cfg sim wall p) := by
  rcases emitFor_cases gen cfg σ sim wall p with
    ⟨hm, hl⟩ | ⟨⟨hi, he⟩, st, l, hm, hl, hd⟩
  · refine ⟨by rw [DistinctKeys, hl]; exact hs.distinct, fun st hst => ?_⟩
    rw [hl]
    exact hs.counted st (hm ▸ hst)
  · have hdrawn : Drawn 0 st.sequence (ledger σ p.2 ++ l) := (hs.from (hk hi he)).append hd
    rw [← hl] at hdrawn
    refine ⟨hdrawn.unique, fun st' hst => ?_⟩
    obtain rfl : st = st' := Option.some.inj (hm.symm.trans hst)
    exact hdrawn

theorem emitFor_none (h : (emitFor gen cfg sim wall p).1 σ = none) :
    p.1 σ = none ∧ ledger σ (emitFor gen cfg sim wall p).2 = ledger σ p.2 := by
  rcases emitFor_cases gen cfg σ sim wall p with
    ⟨hm, hl⟩ | ⟨-, st, l, hm, -⟩
  · exact ⟨hm ▸ h, hl⟩
  · rw [hm] at h
    cases h

/-- A simulation that a tick works on while it is not in memory has emitted nothing un-pooled. -/
def Fresh (σ : SimulationId) (atWall : SimulationId → ℚ) (sims : List Simulation)
    (p : Memory ρ × Db) : Prop :=
  ∀ sim ∈ sims, sim.id = σ → emits sim (atWall sim.id) → p.1 σ = none → Bare σ p.2

variable {atWall : SimulationId → ℚ} {sims : List Simulation}

theorem Fresh.emitFor (h : Fresh σ atWall sims p) :
    Fresh σ atWall sims (EventProducer.emitFor gen cfg sim wall p) := by
  intro x hx hi he hn
  obtain ⟨hp, hl⟩ := emitFor_none hn
  rw [Bare, hl]
  exact h x hx hi he hp

theorem Counted.emitAll (gen : Random ρ) (cfg : ProducerSettings) (hs : Counted σ p)
    (hf : Fresh σ atWall sims p) :
    Counted σ (emitAll gen cfg atWall sims p) := by
  induction sims generalizing p with
  | nil => exact hs
  | cons sim sims ih =>
    have hrest : Fresh σ atWall sims p := fun x hx => hf x (List.mem_cons_of_mem _ hx)
    exact ih (hs.emitFor (hf sim List.mem_cons_self)) hrest.emitFor

theorem Fresh.emitAll {rest : List Simulation} (h : Fresh σ atWall rest p) :
    Fresh σ atWall rest (emitAll gen cfg atWall sims p) := by
  induction sims generalizing p with
  | nil => exact h
  | cons sim sims ih => exact ih h.emitFor

theorem ledger_emitFor : (ledger σ p.2).Sublist (ledger σ (emitFor gen cfg sim wall p).2) := by
  rcases emitFor_cases gen cfg σ sim wall p with
    ⟨-, hl⟩ | ⟨-, st, l, -, hl, -⟩
  · rw [hl]
  · rw [hl]
    exact List.sublist_append_left _ _

theorem ledger_emitAll :
    (ledger σ p.2).Sublist (ledger σ (emitAll gen cfg atWall sims p).2) := by
  induction sims generalizing p with
  | nil => exact List.Sublist.refl _
  | cons sim sims ih => exact ledger_emitFor.trans ih

theorem tick_counted (hs : Counted σ p) (hf : Fresh σ atWall (runningSimulations p.2) p) :
    Counted σ (tick gen cfg atWall p) := by
  have hall := hs.emitAll gen cfg hf
  refine ⟨hall.distinct, fun st hst => hall.counted st ?_⟩
  change (if σ ∈ (runningSimulations p.2).map Simulation.id then
    (emitAll gen cfg atWall (runningSimulations p.2) p).1 σ else none) = some st at hst
  split at hst
  · exact hst
  · cases hst

theorem tickFailing_counted {done : ℕ} {inIngest : Bool} (hs : Counted σ p)
    (hf : Fresh σ atWall ((runningSimulations p.2).take (if inIngest then done + 1 else done)) p) :
    Counted σ (tickFailing gen cfg atWall done inIngest p) := by
  have hwhole : Fresh σ atWall ((runningSimulations p.2).take done) p := by
    intro x hx
    refine hf x (List.Sublist.subset ?_ hx)
    split
    · exact List.take_sublist_take_left (Nat.le_succ _)
    · exact List.Sublist.refl _
  have hall := hs.emitAll gen cfg hwhole
  have hback : ∀ {n}, Drawn 0 n (ledger σ (emitAll gen cfg atWall
      ((runningSimulations p.2).take done) p).2) → Drawn 0 n (ledger σ p.2) :=
    fun h => h.sublist ledger_emitAll
  rcases tickFailing_spec gen cfg p atWall done inIngest with hp | ⟨hin, sim, hsim, hp⟩
  · rw [hp]
    exact ⟨hs.distinct, fun st hst => hback (hall.counted st hst)⟩
  · have hlast : Fresh σ atWall [sim] p := by
      intro x hx
      refine hf x ?_
      rw [List.mem_singleton.mp hx, if_pos hin]
      exact List.mem_of_getElem? ((List.getElem?_take_of_lt (Nat.lt_succ_self done)).trans hsim)
    rw [hp]
    refine ⟨hs.distinct, fun st hst => hback ?_⟩
    rcases emitFailing_cases gen cfg σ sim (atWall sim.id)
        (emitAll gen cfg atWall ((runningSimulations p.2).take done) p) with
      hm | ⟨⟨hi, he⟩, st', hm, hle⟩
    · exact hall.counted st (hm ▸ hst)
    · obtain rfl : st' = st := Option.some.inj (hm.symm.trans hst)
      exact (hall.from (hlast.emitAll sim List.mem_cons_self hi he)).upTo hle

end Emissions

section Runs

variable {ρ : Type} (gen : Random ρ) (cfg : ProducerSettings) (σ : SimulationId)

abbrev State (ρ : Type) := Memory ρ × Db

/-- `other` is whatever anybody else commits: pauses, resumes, speed changes, retirements, and all
of the delivery. `restart` is the api process starting anew. -/
inductive Event where
  | tick (atWall : SimulationId → ℚ)
  | tickFailing (atWall : SimulationId → ℚ) (done : ℕ) (inIngest : Bool)
  | other (db : Db)
  | restart

def Enabled (s : State ρ) : Event → Prop
  | .other db => db.events.rows = s.2.events.rows
  | .tick _ | .tickFailing .. | .restart => True

def next (s : State ρ) : Event → State ρ
  | .tick atWall => tick gen cfg atWall s
  | .tickFailing atWall done inIngest => tickFailing gen cfg atWall done inIngest s
  | .other db => (s.1, db)
  | .restart => (fun _ => none, s.2)

def Initial (s : State ρ) : Prop := s.1 = (fun _ => none) ∧ ledger σ s.2 = []

def system : System (State ρ) Event := .guarded (Initial σ) Enabled (next gen cfg)

/-- A tick that works on the simulation has its counter in memory, unless no un-pooled event of it
has been emitted before. -/
def Kept (s : State ρ) : Event → Prop
  | .tick atWall => Fresh σ atWall (runningSimulations s.2) s
  | .tickFailing atWall done inIngest =>
    Fresh σ atWall ((runningSimulations s.2).take (if inIngest then done + 1 else done)) s
  | .other _ | .restart => True

def kept : System (State ρ) Event := (system gen cfg σ).restrict (Kept σ)

variable {gen cfg σ} {s t : State ρ} {e : Event}

theorem step_counted (hs : Counted σ s) (hk : Kept σ s e) (he : Enabled s e) :
    Counted σ (next gen cfg s e) := by
  cases e with
  | tick atWall => exact tick_counted hs hk
  | tickFailing atWall done inIngest => exact tickFailing_counted hs hk
  | other db =>
    have hledger : ledger σ db = ledger σ s.2 := by rw [ledger, he, ledger]
    refine ⟨by rw [DistinctKeys, next, hledger]; exact hs.distinct, fun st hst => ?_⟩
    rw [next, hledger]
    exact hs.counted st hst
  | restart => exact ⟨hs.distinct, fun st hst => by cases hst⟩

theorem reachable_counted (h : (kept gen cfg σ).Reachable s) : Counted σ s := by
  refine h.invariant ?_ ?_
  · rintro s ⟨hm, hl⟩
    refine ⟨by rw [DistinctKeys, hl]; exact .nil, fun st hst => ?_⟩
    rw [hm] at hst
    cases hst
  · rintro s e t - hs ⟨hk, he, rfl⟩
    exact step_counted hs hk he

/-- As long as the counter is not lost between two emissions, no key of an un-pooled type comes
twice, over any number of ticks, of failed ones too, and of changes to the simulation. -/
theorem unpooled_keys_unique (h : (kept gen cfg σ).Reachable s) : UniqueKeys σ s.2 :=
  (reachable_counted h).distinct.uniqueKeys

end Runs

section Pause

def middling : Random Unit where
  seed _ := ()
  random _ := (1 / 2, ())
  randrange n _ := (n / 2, ())
  uniform a b _ := ((a + b) / 2, ())

def nobody : Cast := ⟨[], [], [], by decide, by decide, by decide, by decide, by decide⟩

def fresh : Simulation where
  id := 7
  status := .running
  virtualEpoch := 0
  resumedAtWall := 0
  pausedAtVirtual := none
  speedMultiplier := 20
  fairDrainEnabled := true
  globalAttemptsPerS := 30
  outageOverride := none

def patched (status : SimStatus) (atWall : ℚ) (sim : Simulation) : Simulation :=
  (ClockControl.patchSimulation { status := some status } atWall sim).toOption.getD sim

def started : State Unit := (fun _ => none, .seeded nobody [fresh])

def ticked (atWall : ℚ) (s : State Unit) : State Unit := tick middling {} (fun _ => atWall) s

def pressed (status : SimStatus) (atWall : ℚ) (s : State Unit) : State Unit :=
  (s.1, { s.2 with simulations := s.2.simulations.map (patched status atWall) })

theorem started_initial : Initial 7 started := ⟨rfl, rfl⟩

def failedOnce : State Unit :=
  ticked (3 / 20) (tickFailing middling {} (fun _ => 1 / 10) 0 true (ticked (1 / 20) started))

theorem unpooled_keys_unique_failed_tick :
    UniqueKeys 7 failedOnce.2 ∧ "pi_0000000d" ∈ failedOnce.2.events.rows.map Event.entityKey := by
  have known₁ : ((ticked (1 / 20) started).1 7).isSome := by decide +kernel
  have known₂ : ((tickFailing middling {} (fun _ => 1 / 10) 0 true
      (ticked (1 / 20) started)).1 7).isSome := by decide +kernel
  have h₀ : (kept middling {} 7).Reachable started := .initial started_initial
  have h₁ : (kept middling {} 7).Reachable (ticked (1 / 20) started) :=
    h₀.tail (e := .tick fun _ => 1 / 20) ⟨fun _ _ _ _ _ => by decide, trivial, rfl⟩
  have h₂ : (kept middling {} 7).Reachable
      (tickFailing middling {} (fun _ => 1 / 10) 0 true (ticked (1 / 20) started)) :=
    h₁.tail (e := .tickFailing (fun _ => 1 / 10) 0 true)
      ⟨fun _ _ _ _ hn => absurd (hn ▸ known₁) (by decide), trivial, rfl⟩
  have h₃ : (kept middling {} 7).Reachable failedOnce :=
    h₂.tail (e := .tick fun _ => 3 / 20)
      ⟨fun _ _ _ _ hn => absurd (hn ▸ known₂) (by decide), trivial, rfl⟩
  exact ⟨unpooled_keys_unique h₃, by decide +kernel⟩

def pausedRun : State Unit :=
  ticked (3 / 10) (pressed .running (1 / 4) (ticked (1 / 5)
    (pressed .paused (1 / 10) (ticked (1 / 20) started))))

/-- The tick in the pause drops the counter, and the one after it numbers from one again. -/
theorem pause_repeats_keys :
    ¬ ∀ s, (system middling {} 7).Reachable s → UniqueKeys 7 s.2 := by
  have step : ∀ {s} e, (system middling {} 7).Reachable s → Enabled s e →
      (system middling {} 7).Reachable (next middling {} s e) := fun e h he => h.tail ⟨he, rfl⟩
  intro h
  have h₁ := step (.tick fun _ => 1 / 20) (.initial started_initial) trivial
  have h₂ := step (.other (pressed .paused (1 / 10) (ticked (1 / 20) started)).2) h₁ rfl
  have h₃ := step (.tick fun _ => 1 / 5) h₂ trivial
  have h₄ := step (.other (pressed .running (1 / 4) (ticked (1 / 5)
    (pressed .paused (1 / 10) (ticked (1 / 20) started)))).2) h₃ rfl
  have h₅ := step (.tick fun _ => 3 / 10) h₄ trivial
  have hrepeated : ¬ UniqueKeys 7 pausedRun.2 := by decide +kernel
  exact hrepeated (h pausedRun h₅)

end Pause

end KeyUniqueness
