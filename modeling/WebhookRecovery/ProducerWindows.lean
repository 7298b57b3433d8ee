import WebhookRecovery.HighWaterMarks
import WebhookRecovery.KeyUniqueness

/-! The windows that the ticks of one producer process emit. The mark that they start from is kept
in memory, which a rollback leaves as it is. -/
namespace ProducerWindows

open RecoverySchema InterleavedPrograms EventIngest EventProducer VirtualClock HighWaterMarks

structure Emission where
  simulationId : SimulationId
  window : Window ℚ
  deriving DecidableEq, Repr

section Emissions

variable {ρ : Type} (gen : Random ρ) (cfg : ProducerSettings)

def emission (sim : Simulation) (atWall : ℚ) (p : Memory ρ × Db) : Option Emission :=
  if emits sim atWall then
    let now := nowAt (fromRow sim) atWall
    let st := stateOf gen p.1 sim.id p.2
    (drawAt gen cfg st now).map fun _ => ⟨sim.id, (EventProducer.window cfg st now).2, now⟩
  else none

def emissions (atWall : SimulationId → ℚ) : List Simulation → Memory ρ × Db → List Emission
  | [], _ => []
  | sim :: sims, p => (emission gen cfg sim (atWall sim.id) p).toList ++
      emissions atWall sims (emitFor gen cfg sim (atWall sim.id) p)

def windowsOf (σ : SimulationId) (l : List Emission) : List (Window ℚ) :=
  (l.filter fun e => e.simulationId == σ).map Emission.window

theorem windowsOf_append {σ : SimulationId} {l m : List Emission} :
    windowsOf σ (l ++ m) = windowsOf σ l ++ windowsOf σ m := by
  rw [windowsOf, List.filter_append, List.map_append, windowsOf, windowsOf]

theorem windowsOf_single {σ : SimulationId} {e : Emission} :
    windowsOf σ [e] = if e.simulationId = σ then [e.window] else [] := by
  rw [windowsOf, List.filter_singleton]
  by_cases h : e.simulationId = σ
  · rw [if_pos h, h, beq_self_eq_true]
    rfl
  · rw [if_neg h, beq_false_of_ne h]
    rfl

def recovered (σ : SimulationId) (db : Db) : ℚ := (lastEmitted σ db).getD VIRTUAL_EPOCH_ZERO

def mark (σ : SimulationId) (p : Memory ρ × Db) : ℚ :=
  (stateOf gen p.1 σ p.2).lastEmitted.getD VIRTUAL_EPOCH_ZERO

variable {gen cfg} {σ : SimulationId} {sim : Simulation} {wall : ℚ} {p : Memory ρ × Db}

theorem mark_unseen (h : p.1 σ = none) : mark gen σ p = recovered σ p.2 := by
  rw [mark, stateOf, h]
  rfl

theorem mark_seen {st : SimulationState ρ} (h : p.1 σ = some st) :
    mark gen σ p = st.lastEmitted.getD VIRTUAL_EPOCH_ZERO := by
  rw [mark, stateOf, h]
  rfl

theorem mark_congr {q : Memory ρ × Db} (hm : q.1 σ = p.1 σ)
    (hl : lastEmitted σ q.2 = lastEmitted σ p.2) : mark gen σ q = mark gen σ p := by
  rw [mark, mark, stateOf, stateOf, hm, hl]

theorem emission_drawn (he : emits sim wall) {drawn : SimulationState ρ × List EventSpec}
    (hd : drawAt gen cfg (stateOf gen p.1 sim.id p.2) (nowAt (fromRow sim) wall) = some drawn) :
    windowsOf sim.id (emission gen cfg sim wall p).toList =
      [⟨(EventProducer.window cfg (stateOf gen p.1 sim.id p.2) (nowAt (fromRow sim) wall)).2,
        nowAt (fromRow sim) wall⟩] := by
  rw [emission, if_pos he]
  dsimp only
  rw [hd]
  exact windowsOf_single.trans (if_pos rfl)

theorem emission_other (h : sim.id ≠ σ) :
    windowsOf σ (emission gen cfg sim wall p).toList = [] := by
  cases he : emission gen cfg sim wall p with
  | none => rfl
  | some e =>
    rw [emission] at he
    split at he
    · obtain ⟨drawn, -, rfl⟩ := Option.map_eq_some_iff.mp he
      exact windowsOf_single.trans (if_neg h)
    · cases he

theorem several_lastEmitted (st : SimulationState ρ) (spec : EventTypeSpec) (since windowS : ℚ)
    (count : ℕ) : (several gen st spec since windowS count).1.lastEmitted = st.lastEmitted := by
  induction count generalizing st with
  | zero => rfl
  | succ count ih => exact ih _

theorem drawTypes_lastEmitted (st : SimulationState ρ) (since windowS : ℚ)
    (mix : List EventTypeSpec) :
    (drawTypes gen st since windowS mix).1.lastEmitted = st.lastEmitted := by
  induction mix generalizing st with
  | nil => rfl
  | cons spec mix ih => exact (ih _).trans (several_lastEmitted ..)

theorem drawAt_lastEmitted {st st' : SimulationState ρ} {now : ℚ} {specs : List EventSpec}
    (h : drawAt gen cfg st now = some (st', specs)) : st'.lastEmitted = st.lastEmitted := by
  unfold drawAt at h
  split at h
  · cases h
  · obtain ⟨rfl, -⟩ := Prod.ext_iff.mp (Option.some.inj h)
    exact drawTypes_lastEmitted ..

theorem window_eq_taken {st : SimulationState ρ} {now : ℚ} :
    (⟨(EventProducer.window cfg st now).2, now⟩ : Window ℚ) =
      taken cfg.producerMaxCatchupVirtualS (st.lastEmitted.getD VIRTUAL_EPOCH_ZERO) now := by
  rw [EventProducer.window, taken]
  split
  · rfl
  · rfl

theorem mark_lt_of_drawAt {st : SimulationState ρ} {now : ℚ}
    {drawn : SimulationState ρ × List EventSpec} (h : drawAt gen cfg st now = some drawn) :
    st.lastEmitted.getD VIRTUAL_EPOCH_ZERO < now := by
  unfold drawAt at h
  split at h
  · cases h
  · rename_i hpos
    exact sub_pos.mp (not_le.mp hpos)

structure Keeps (gen : Random ρ) (σ : SimulationId) (p q : Memory ρ × Db) : Prop where
  ledger : lastEmitted σ q.2 = lastEmitted σ p.2
  mark : mark gen σ q = mark gen σ p

structure Moves (gen : Random ρ) (cfg : ProducerSettings) (σ : SimulationId) (sim : Simulation)
    (wall : ℚ) (p q : Memory ρ × Db) (w : Window ℚ) : Prop where
  emits : sim.id = σ ∧ emits sim wall
  upTo : w.upTo = nowAt (fromRow sim) wall
  later : mark gen σ p < w.upTo
  taken : w = taken cfg.producerMaxCatchupVirtualS (mark gen σ p) w.upTo
  mark : mark gen σ q = w.upTo
  seen : (q.1 σ).isSome

theorem Keeps.refl (gen : Random ρ) (σ : SimulationId) (p : Memory ρ × Db) : Keeps gen σ p p :=
  ⟨rfl, rfl⟩

theorem Keeps.trans {q r : Memory ρ × Db} (h : Keeps gen σ p q) (h' : Keeps gen σ q r) :
    Keeps gen σ p r :=
  ⟨h'.ledger.trans h.ledger, h'.mark.trans h.mark⟩

/-- A rollback takes the ledger back and leaves the memory, and the mark. -/
theorem Keeps.rollback {q : Memory ρ × Db} (h : Keeps gen σ p q) : Keeps gen σ p (q.1, p.2) :=
  ⟨rfl, (mark_congr (q := (q.1, p.2)) (p := q) rfl h.ledger.symm).trans h.mark⟩

/-- The producer takes up one window of the simulation, or keeps its mark. -/
theorem emitFor_marks (gen : Random ρ) (cfg : ProducerSettings) (σ : SimulationId)
    (sim : Simulation) (wall : ℚ) (p : Memory ρ × Db) :
    (windowsOf σ (emission gen cfg sim wall p).toList = [] ∧
      Keeps gen σ p (emitFor gen cfg sim wall p)) ∨
    ∃ w, windowsOf σ (emission gen cfg sim wall p).toList = [w] ∧
      Moves gen cfg σ sim wall p (emitFor gen cfg sim wall p) w := by
  by_cases hi : sim.id = σ
  · subst hi
    rcases emitFor_spec gen cfg sim wall p with ⟨he, hp⟩ | ⟨he, ⟨hd, hp⟩ | ⟨st, specs, hd, hp⟩⟩
    · rw [hp, emission, if_neg (Bool.eq_false_iff.mp he)]
      exact Or.inl ⟨rfl, Keeps.refl gen sim.id p⟩
    · rw [hp, emission, if_pos he]
      dsimp only
      rw [hd]
      refine Or.inl ⟨rfl, rfl, ?_⟩
      rw [mark_seen (Function.update_self ..), mark]
    · rw [hp]
      refine Or.inr ⟨_, emission_drawn he hd, ⟨⟨rfl, he⟩, rfl, ?_, ?_, ?_, ?_⟩⟩
      · exact mark_lt_of_drawAt hd
      · exact window_eq_taken
      · rw [mark_seen (Function.update_self ..)]
        rfl
      · exact Option.isSome_iff_exists.mpr ⟨_, Function.update_self ..⟩
  · obtain ⟨hm, hevents⟩ := emitFor_other gen cfg wall p hi
    have hl : lastEmitted σ (emitFor gen cfg sim wall p).2 = lastEmitted σ p.2 := by
      rw [lastEmitted, hevents, lastEmitted]
    refine Or.inl ⟨emission_other hi, hl, mark_congr hm hl⟩

/-- An ingest that raises comes before the mark is moved. -/
theorem emitFailing_mark (gen : Random ρ) (cfg : ProducerSettings) (σ : SimulationId)
    (sim : Simulation) (wall : ℚ) (p : Memory ρ × Db) :
    mark gen σ (emitFailing gen cfg sim wall p, p.2) = mark gen σ p := by
  by_cases hi : sim.id = σ
  · subst hi
    rcases emitFailing_spec gen cfg sim wall p with hp | ⟨-, st, hp, hst⟩
    · rw [hp]
    · rw [hp, mark_seen (Function.update_self ..), mark]
      rcases hst with rfl | ⟨specs, hd⟩
      · rfl
      · rw [drawAt_lastEmitted hd]
  · exact mark_congr (emitFailing_other gen cfg wall p hi) rfl

variable {atWall : SimulationId → ℚ} {sims : List Simulation}

theorem emissions_cons : emissions gen cfg atWall (sim :: sims) p =
    (emission gen cfg sim (atWall sim.id) p).toList ++
      emissions gen cfg atWall sims (emitFor gen cfg sim (atWall sim.id) p) := rfl

theorem emitAll_cons : emitAll gen cfg atWall (sim :: sims) p =
    emitAll gen cfg atWall sims (emitFor gen cfg sim (atWall sim.id) p) := rfl

/-- The windows of a tick take up from the mark before it, to the mark after it. -/
theorem emissions_consecutive (gen : Random ρ) (cfg : ProducerSettings) (σ : SimulationId)
    (atWall : SimulationId → ℚ) (sims : List Simulation) (p : Memory ρ × Db) :
    Consecutive cfg.producerMaxCatchupVirtualS (mark gen σ p)
        (windowsOf σ (emissions gen cfg atWall sims p)) ∧
      markAfter (mark gen σ p) (windowsOf σ (emissions gen cfg atWall sims p)) =
        mark gen σ (emitAll gen cfg atWall sims p) := by
  induction sims generalizing p with
  | nil => exact ⟨trivial, rfl⟩
  | cons sim sims ih =>
    obtain ⟨hrest, hend⟩ := ih (emitFor gen cfg sim (atWall sim.id) p)
    rw [emissions_cons, emitAll_cons, windowsOf_append]
    rcases emitFor_marks gen cfg σ sim (atWall sim.id) p with ⟨hnone, hk⟩ | ⟨w, hw, hm⟩
    · rw [hnone, ← hk.mark]
      exact ⟨hrest, hend⟩
    · rw [hw]
      rw [hm.mark] at hrest hend
      exact ⟨⟨hm.later, hm.taken, hrest⟩, hend⟩

theorem emitAll_unseen (h : (emitAll gen cfg atWall sims p).1 σ = none) :
    p.1 σ = none ∧ windowsOf σ (emissions gen cfg atWall sims p) = [] := by
  induction sims generalizing p with
  | nil => exact ⟨h, rfl⟩
  | cons sim sims ih =>
    obtain ⟨hnone, hrest⟩ := ih h
    rw [emissions_cons, windowsOf_append, hrest, List.append_nil]
    refine ⟨(KeyUniqueness.emitFor_none hnone).1, ?_⟩
    rcases emitFor_marks gen cfg σ sim (atWall sim.id) p with ⟨hw, -⟩ | ⟨w, -, hm⟩
    · exact hw
    · have hseen := hm.seen
      rw [hnone] at hseen
      cases hseen

theorem emitAll_seen (h : ((emitAll gen cfg atWall sims p).1 σ).isSome) :
    (p.1 σ).isSome ∨ σ ∈ sims.map Simulation.id := by
  induction sims generalizing p with
  | nil => exact Or.inl h
  | cons sim sims ih =>
    rw [List.map_cons, List.mem_cons]
    rcases ih h with hsome | hin
    · rcases KeyUniqueness.emitFor_cases gen cfg σ sim (atWall sim.id) p with
        ⟨hm, -⟩ | ⟨⟨hi, -⟩, -⟩
      · exact Or.inl (hm ▸ hsome)
      · exact Or.inr (Or.inl hi.symm)
    · exact Or.inr (Or.inr hin)

theorem emitAll_simulations : (emitAll gen cfg atWall sims p).2.simulations = p.2.simulations := by
  induction sims generalizing p with
  | nil => rfl
  | cons sim sims ih =>
    rw [emitAll_cons, ih, emitFor_ledger]
    split
    · rfl
    · split
      · rfl
      · rfl

def Idle (gen : Random ρ) (σ : SimulationId) (atWall : SimulationId → ℚ) (sims : List Simulation)
    (p : Memory ρ × Db) : Prop :=
  ∀ sim ∈ sims, sim.id = σ → emits sim (atWall sim.id) →
    nowAt (fromRow sim) (atWall sim.id) ≤ mark gen σ p

theorem emitAll_keeps (h : Idle gen σ atWall sims p) :
    Keeps gen σ p (emitAll gen cfg atWall sims p) := by
  induction sims generalizing p with
  | nil => exact Keeps.refl gen σ p
  | cons sim sims ih =>
    rcases emitFor_marks gen cfg σ sim (atWall sim.id) p with ⟨-, hk⟩ | ⟨w, -, hm⟩
    · refine hk.trans (ih fun x hx hi he => ?_)
      rw [hk.mark]
      exact h x (List.mem_cons_of_mem _ hx) hi he
    · have hle := h sim List.mem_cons_self hm.emits.1 hm.emits.2
      exact absurd hm.later (not_lt.mpr (hm.upTo ▸ hle))

/-- Where an event of a draw may lie. -/
def Occurs (lo hi : ℚ) (x : EventSpec) : Prop := ∃ t, x.occurredAt = some t ∧ lo ≤ t ∧ t ≤ hi

/-- `uniform(a, b)` is between `a` and `b`. -/
def Uniform (gen : Random ρ) : Prop :=
  ∀ a b r, a ≤ b → a ≤ (gen.uniform a b r).1 ∧ (gen.uniform a b r).1 ≤ b

section Ledger

variable {since windowS : ℚ} {x : EventSpec} {e : Event}

theorem several_occurs (hu : Uniform gen) (hw : 0 ≤ windowS) {st : SimulationState ρ}
    {spec : EventTypeSpec} {count : ℕ} (hx : x ∈ (several gen st spec since windowS count).2) :
    Occurs since (since + windowS) x := by
  induction count generalizing st with
  | zero => cases hx
  | succ count ih =>
    rcases List.mem_cons.mp hx with rfl | hx
    · refine ⟨_, rfl, ?_⟩
      obtain ⟨hlo, hhi⟩ := hu 0 windowS _ hw
      exact ⟨le_add_of_nonneg_right hlo, add_le_add_right hhi since⟩
    · exact ih hx

theorem drawTypes_occurs (hu : Uniform gen) (hw : 0 ≤ windowS) {st : SimulationState ρ}
    {mix : List EventTypeSpec} (hx : x ∈ (drawTypes gen st since windowS mix).2) :
    Occurs since (since + windowS) x := by
  induction mix generalizing st with
  | nil => cases hx
  | cons spec mix ih =>
    rcases List.mem_append.mp hx with hx | hx
    · exact several_occurs hu hw hx
    · exact ih hx

theorem drawAt_occurs (hu : Uniform gen) (hreach : 0 ≤ cfg.producerMaxCatchupVirtualS)
    {st st' : SimulationState ρ} {now : ℚ} {specs : List EventSpec}
    (h : drawAt gen cfg st now = some (st', specs)) (hx : x ∈ specs) :
    Occurs (EventProducer.window cfg st now).2 now x := by
  have hlt := mark_lt_of_drawAt h
  have hwindow : 0 ≤ (EventProducer.window cfg st now).1 ∧
      (EventProducer.window cfg st now).2 + (EventProducer.window cfg st now).1 = now := by
    rw [EventProducer.window]
    split
    · exact ⟨hreach, sub_add_cancel _ _⟩
    · exact ⟨sub_nonneg.mpr hlt.le, add_sub_cancel _ _⟩
  unfold drawAt at h
  split at h
  · cases h
  · obtain ⟨-, rfl⟩ := Prod.ext_iff.mp (Option.some.inj h)
    have hoccurs := drawTypes_occurs hu hwindow.1 ((List.mem_insertionSort _).mp hx)
    rwa [hwindow.2] at hoccurs

theorem emitFor_within (hu : Uniform gen) (hreach : 0 ≤ cfg.producerMaxCatchupVirtualS)
    (he : e ∈ (emitFor gen cfg sim wall p).2.events.rows) : e ∈ p.2.events.rows ∨
      ∃ w ∈ windowsOf e.simulationId (emission gen cfg sim wall p).toList,
        w.since ≤ e.occurredAt ∧ e.occurredAt ≤ w.upTo := by
  rcases emitFor_spec gen cfg sim wall p with ⟨-, hp⟩ | ⟨hemits, ⟨-, hp⟩ | ⟨st, specs, hd, hp⟩⟩
  · rw [hp] at he
    exact Or.inl he
  · rw [hp] at he
    exact Or.inl he
  · rw [hp] at he
    dsimp only at he
    split at he
    · exact Or.inl he
    · rcases List.mem_append.mp (ingestEvents_events .. ▸ he) with he | he
      · exact Or.inl he
      · obtain ⟨⟨spec, id⟩, hspec, rfl⟩ := List.mem_map.mp he
        obtain ⟨t, ht, hlo, hhi⟩ := drawAt_occurs hu hreach hd (List.fst_mem_of_mem_zipIdx hspec)
        have hat : (eventRow sim.id (nowAt (fromRow sim) wall) id spec).occurredAt = t :=
          congrArg (Option.getD · _) ht
        have hmem : Window.mk (EventProducer.window cfg (stateOf gen p.1 sim.id p.2)
            (nowAt (fromRow sim) wall)).2 (nowAt (fromRow sim) wall) ∈
              windowsOf sim.id (emission gen cfg sim wall p).toList := by
          rw [emission_drawn hemits hd]
          exact List.mem_cons_self
        exact Or.inr ⟨_, hmem, hlo.trans hat.ge, hat.le.trans hhi⟩

/-- What a tick adds to the ledger lies in the windows that are recorded for it. -/
theorem tick_within (hu : Uniform gen) (hreach : 0 ≤ cfg.producerMaxCatchupVirtualS)
    (he : e ∈ (tick gen cfg atWall p).2.events.rows) : e ∈ p.2.events.rows ∨
      ∃ w ∈ windowsOf e.simulationId (emissions gen cfg atWall (runningSimulations p.2) p),
        w.since ≤ e.occurredAt ∧ e.occurredAt ≤ w.upTo := by
  have hall : ∀ sims (p : Memory ρ × Db), e ∈ (emitAll gen cfg atWall sims p).2.events.rows →
      e ∈ p.2.events.rows ∨ ∃ w ∈ windowsOf e.simulationId (emissions gen cfg atWall sims p),
        w.since ≤ e.occurredAt ∧ e.occurredAt ≤ w.upTo := by
    intro sims
    induction sims with
    | nil => exact fun _ => Or.inl
    | cons sim sims ih =>
      intro p he
      rw [emissions_cons, windowsOf_append]
      rcases ih _ he with he | ⟨w, hw, hin⟩
      · rcases emitFor_within hu hreach he with he | ⟨w, hw, hin⟩
        · exact Or.inl he
        · exact Or.inr ⟨w, List.mem_append_left _ hw, hin⟩
      · exact Or.inr ⟨w, List.mem_append_right _ hw, hin⟩
  exact hall _ p he

end Ledger

theorem tickFailing_mark {done : ℕ} {inIngest : Bool}
    (h : Idle gen σ atWall ((runningSimulations p.2).take done) p) :
    mark gen σ (tickFailing gen cfg atWall done inIngest p) = mark gen σ p := by
  have hkeeps : Keeps gen σ p (emitAll gen cfg atWall ((runningSimulations p.2).take done) p) :=
    emitAll_keeps h
  rcases tickFailing_spec gen cfg p atWall done inIngest with hp | ⟨-, sim, -, hp⟩
  · rw [hp]
    exact hkeeps.rollback.mark
  · have hfailing := emitFailing_mark gen cfg σ sim (atWall sim.id)
      (emitAll gen cfg atWall ((runningSimulations p.2).take done) p)
    rw [hp, ← hkeeps.mark, ← hfailing]
    exact mark_congr rfl hkeeps.ledger.symm

theorem tickFailing_unseen {done : ℕ} {inIngest : Bool}
    (h : (tickFailing gen cfg atWall done inIngest p).1 σ = none) : p.1 σ = none := by
  rcases tickFailing_spec gen cfg p atWall done inIngest with hp | ⟨-, sim, -, hp⟩
  · rw [hp] at h
    exact (emitAll_unseen h).1
  · rw [hp] at h
    rcases KeyUniqueness.emitFailing_cases gen cfg σ sim (atWall sim.id)
      (emitAll gen cfg atWall ((runningSimulations p.2).take done) p) with hm | ⟨-, st, hm, -⟩
    · exact (emitAll_unseen (hm.symm.trans h)).1
    · cases hm.symm.trans h

theorem tickFailing_seen {done : ℕ} {inIngest : Bool}
    (h : ((tickFailing gen cfg atWall done inIngest p).1 σ).isSome) :
    (p.1 σ).isSome ∨ σ ∈ (runningSimulations p.2).map Simulation.id := by
  have hall : ((emitAll gen cfg atWall ((runningSimulations p.2).take done) p).1 σ).isSome →
      (p.1 σ).isSome ∨ σ ∈ (runningSimulations p.2).map Simulation.id := by
    intro hsome
    rcases emitAll_seen hsome with hp | hin
    · exact Or.inl hp
    · exact Or.inr (((List.take_sublist done _).map Simulation.id).subset hin)
  rcases tickFailing_spec gen cfg p atWall done inIngest with hp | ⟨-, sim, hsim, hp⟩
  · rw [hp] at h
    exact hall h
  · rw [hp] at h
    rcases KeyUniqueness.emitFailing_cases gen cfg σ sim (atWall sim.id)
      (emitAll gen cfg atWall ((runningSimulations p.2).take done) p) with hm | ⟨⟨hi, -⟩, -⟩
    · exact hall (hm ▸ h)
    · exact Or.inr (List.mem_map.mpr ⟨sim, List.mem_of_getElem? hsim, hi⟩)

theorem tick_memory (h : (p.1 σ).isSome → σ ∈ (runningSimulations p.2).map Simulation.id) :
    (tick gen cfg atWall p).1 σ =
      (emitAll gen cfg atWall (runningSimulations p.2) p).1 σ := by
  change (if σ ∈ (runningSimulations p.2).map Simulation.id then _ else none) = _
  split
  · rfl
  · rename_i hout
    cases hm : (emitAll gen cfg atWall (runningSimulations p.2) p).1 σ with
    | none => rfl
    | some st =>
      have hseen : ((emitAll gen cfg atWall (runningSimulations p.2) p).1 σ).isSome :=
        Option.isSome_of_eq_some hm
      exact absurd ((emitAll_seen hseen).elim h id) hout

end Emissions

section Runs

variable {ρ : Type} (gen : Random ρ) (cfg : ProducerSettings) (σ : SimulationId)

/-- `origin` is where the ledger of a simulation ended when the process came to keep it in memory,
and `emitted` are the windows of the ticks that have committed. -/
structure State (ρ : Type) where
  process : Memory ρ × Db
  origin : SimulationId → ℚ
  emitted : List Emission

def State.beginning (s : State ρ) (σ : SimulationId) : ℚ :=
  if (s.process.1 σ).isSome then s.origin σ else recovered σ s.process.2

def State.windows (s : State ρ) (σ : SimulationId) : List (Window ℚ) := windowsOf σ s.emitted

inductive Event where
  | tick (atWall : SimulationId → ℚ)
  | tickFailing (atWall : SimulationId → ℚ) (done : ℕ) (inIngest : Bool)
  | other (db : Db)

def Enabled (s : State ρ) : Event → Prop
  | .other db => ∀ sim ∈ runningSimulations s.process.2,
    sim.id ∈ (runningSimulations db).map Simulation.id
  | .tick _ | .tickFailing .. => True

def next (s : State ρ) : Event → State ρ
  | .tick atWall =>
    { process := tick gen cfg atWall s.process
      origin := s.beginning
      emitted := s.emitted ++
        emissions gen cfg atWall (runningSimulations s.process.2) s.process }
  | .tickFailing atWall done inIngest =>
    { s with
      process := tickFailing gen cfg atWall done inIngest s.process
      origin := s.beginning }
  | .other db => { s with process := (s.process.1, db) }

def Initial (s : State ρ) : Prop := s.process.1 = (fun _ => none) ∧ s.emitted = []

def system : System (State ρ) Event := .guarded Initial Enabled (next gen cfg)

/-- A tick is rolled back before it has come to the simulation, or finds nothing to emit for it. -/
def Spared (s : State ρ) : Event → Prop
  | .tickFailing atWall done _ =>
    Idle gen σ atWall ((runningSimulations s.process.2).take done) s.process
  | .tick _ | .other _ => True

def spared : System (State ρ) Event := (system gen cfg).restrict (Spared gen σ)

/-- The windows lead up to the mark, and a simulation that has had one is kept in memory. -/
structure Marked (s : State ρ) : Prop where
  consecutive : Consecutive cfg.producerMaxCatchupVirtualS (s.beginning σ) (s.windows σ)
  mark : markAfter (s.beginning σ) (s.windows σ) = mark gen σ s.process
  unseen : s.process.1 σ = none → s.windows σ = []
  running : (s.process.1 σ).isSome → σ ∈ (runningSimulations s.process.2).map Simulation.id

variable {gen cfg σ} {s t : State ρ} {e : Event}

theorem beginning_seen (h : (s.process.1 σ).isSome) : s.beginning σ = s.origin σ := if_pos h

theorem beginning_unseen (h : s.process.1 σ = none) :
    s.beginning σ = recovered σ s.process.2 := by
  rw [State.beginning, h]
  rfl

theorem Marked.of_unseen (h : s.process.1 σ = none) (hw : s.windows σ = []) :
    Marked gen cfg σ s where
  consecutive := by
    rw [hw]
    exact trivial
  mark := by rw [hw, markAfter_nil, beginning_unseen h, mark_unseen h]
  unseen := fun _ => hw
  running := fun hsome => by rw [h] at hsome; cases hsome

theorem initial_marked (h : Initial s) : Marked gen cfg σ s := by
  apply Marked.of_unseen
  · rw [h.1]
  · rw [State.windows, h.2]
    rfl

theorem windows_tick (atWall : SimulationId → ℚ) :
    (next gen cfg s (.tick atWall)).windows σ = s.windows σ ++
      windowsOf σ (emissions gen cfg atWall (runningSimulations s.process.2) s.process) :=
  windowsOf_append

theorem tick_marked (hs : Marked gen cfg σ s) (atWall : SimulationId → ℚ) :
    Marked gen cfg σ (next gen cfg s (.tick atWall)) := by
  have hmemory : (next gen cfg s (.tick atWall)).process.1 σ =
      (emitAll gen cfg atWall (runningSimulations s.process.2) s.process).1 σ :=
    tick_memory hs.running
  obtain ⟨hnew, hend⟩ := emissions_consecutive gen cfg σ atWall
    (runningSimulations s.process.2) s.process
  cases hm : (next gen cfg s (.tick atWall)).process.1 σ with
  | none =>
    obtain ⟨hp, hw⟩ := emitAll_unseen (hmemory.symm.trans hm)
    exact .of_unseen hm (by rw [windows_tick, hw, hs.unseen hp]; rfl)
  | some st =>
    have hseen : ((next gen cfg s (.tick atWall)).process.1 σ).isSome := by rw [hm]; rfl
    have hbegin : (next gen cfg s (.tick atWall)).beginning σ = s.beginning σ :=
      beginning_seen hseen
    refine ⟨?_, ?_, fun hnone => ?_, fun _ => ?_⟩
    · rw [windows_tick, hbegin, consecutive_append, hs.mark]
      exact ⟨hs.consecutive, hnew⟩
    · rw [windows_tick, hbegin, markAfter_append, hs.mark, hend]
      exact mark_congr hmemory.symm rfl
    · rw [hm] at hnone
      cases hnone
    · have hin : σ ∈ (runningSimulations s.process.2).map Simulation.id :=
        (emitAll_seen (hmemory ▸ hseen)).elim hs.running id
      have hsims : (next gen cfg s (.tick atWall)).process.2.simulations =
          s.process.2.simulations := emitAll_simulations
      rw [runningSimulations, hsims]
      exact hin

theorem tickFailing_marked {atWall : SimulationId → ℚ} {done : ℕ} {inIngest : Bool}
    (hs : Marked gen cfg σ s) (hk : Spared gen σ s (.tickFailing atWall done inIngest)) :
    Marked gen cfg σ (next gen cfg s (.tickFailing atWall done inIngest)) := by
  have hmark : mark gen σ (next gen cfg s (.tickFailing atWall done inIngest)).process =
      mark gen σ s.process := tickFailing_mark hk
  cases hm : (next gen cfg s (.tickFailing atWall done inIngest)).process.1 σ with
  | none => exact .of_unseen hm (hs.unseen (tickFailing_unseen hm))
  | some st =>
    have hseen : ((next gen cfg s (.tickFailing atWall done inIngest)).process.1 σ).isSome :=
      Option.isSome_of_eq_some hm
    have hbegin : (next gen cfg s (.tickFailing atWall done inIngest)).beginning σ =
        s.beginning σ := beginning_seen hseen
    refine ⟨hbegin ▸ hs.consecutive, ?_, fun hnone => ?_, fun _ => ?_⟩
    · rw [hbegin, hmark]
      exact hs.mark
    · rw [hm] at hnone
      cases hnone
    · have hdb : (next gen cfg s (.tickFailing atWall done inIngest)).process.2 = s.process.2 :=
        tickFailing_db gen cfg s.process atWall done inIngest
      rw [hdb]
      exact (tickFailing_seen hseen).elim hs.running id

theorem other_marked {db : Db} (hs : Marked gen cfg σ s) (he : Enabled s (.other db)) :
    Marked gen cfg σ (next gen cfg s (.other db)) := by
  cases hm : s.process.1 σ with
  | none => exact .of_unseen hm (hs.unseen hm)
  | some st =>
    have hseen : (s.process.1 σ).isSome := by rw [hm]; rfl
    have hbegin : (next gen cfg s (.other db)).beginning σ = s.beginning σ :=
      (beginning_seen (s := next gen cfg s (.other db)) hseen).trans (beginning_seen hseen).symm
    refine ⟨hbegin ▸ hs.consecutive, ?_, hs.unseen, fun _ => ?_⟩
    · rw [hbegin]
      exact hs.mark.trans ((mark_seen hm).trans (mark_seen (p := (s.process.1, db)) hm).symm)
    · obtain ⟨sim, hsim, hi⟩ := List.mem_map.mp (hs.running hseen)
      exact hi ▸ he sim hsim

theorem reachable_marked (h : (spared gen cfg σ).Reachable s) : Marked gen cfg σ s := by
  refine h.invariant (fun s (hs : Initial s) => initial_marked hs) ?_
  rintro s e t - hs ⟨hk, he, rfl⟩
  cases e with
  | tick atWall => exact tick_marked hs atWall
  | tickFailing atWall done inIngest => exact tickFailing_marked hs hk
  | other db => exact other_marked hs he

/-- As long as no tick is rolled back after it has taken up a window of the simulation, the
windows that have been committed for it follow on each other. -/
theorem windows_tile (h : (spared gen cfg σ).Reachable s) :
    Tile cfg.producerMaxCatchupVirtualS (s.beginning σ) (s.windows σ) :=
  (reachable_marked h).consecutive.tile

def Posts (posted : Set RecoverySchema.Event) (s : State ρ) : Event → Prop
  | .other db => ∀ x ∈ db.events.rows, x ∈ s.process.2.events.rows ∨ x ∈ posted
  | .tick _ | .tickFailing .. => True

def Covered (s : State ρ) (x : RecoverySchema.Event) : Prop :=
  ∃ w ∈ s.windows x.simulationId, w.since ≤ x.occurredAt ∧ x.occurredAt ≤ w.upTo

theorem step_within (hu : Uniform gen) (hreach : 0 ≤ cfg.producerMaxCatchupVirtualS)
    {posted : Set RecoverySchema.Event} (hp : Posts posted s e) (h : (system gen cfg).step s e t)
    {x : RecoverySchema.Event} (hx : x ∈ t.process.2.events.rows) :
    x ∈ s.process.2.events.rows ∨ x ∈ posted ∨ Covered t x := by
  obtain ⟨-, rfl⟩ := h
  cases e with
  | tick atWall =>
    rcases tick_within hu hreach hx with hold | ⟨w, hw, hin⟩
    · exact Or.inl hold
    · refine Or.inr (Or.inr ⟨w, ?_, hin⟩)
      rw [windows_tick]
      exact List.mem_append_right _ hw
  | tickFailing atWall done inIngest =>
    have hdb : (next gen cfg s (.tickFailing atWall done inIngest)).process.2 = s.process.2 :=
      tickFailing_db gen cfg s.process atWall done inIngest
    exact Or.inl (hdb ▸ hx)
  | other db => exact (hp x hx).imp id Or.inl

theorem step_covered (h : (system gen cfg).step s e t) {x : RecoverySchema.Event}
    (hx : Covered s x) : Covered t x := by
  obtain ⟨-, rfl⟩ := h
  obtain ⟨w, hw, hin⟩ := hx
  refine ⟨w, ?_, hin⟩
  cases e with
  | tick atWall =>
    rw [windows_tick]
    exact List.mem_append_left _ hw
  | tickFailing | other => exact hw

/-- The producer adds no event outside the windows of the ticks that have committed, however many
others are rolled back. -/
theorem events_within_windows (hu : Uniform gen) (hreach : 0 ≤ cfg.producerMaxCatchupVirtualS)
    (posted : Set RecoverySchema.Event)
    (hx : ((system gen cfg).restrict (Posts posted)).Execution s t) {x : RecoverySchema.Event}
    (hmem : x ∈ t.process.2.events.rows) :
    x ∈ s.process.2.events.rows ∨ x ∈ posted ∨ Covered t x := by
  induction hx with
  | refl => exact Or.inl hmem
  | tail _ he ih =>
    obtain ⟨e, hp, he⟩ := he
    rcases step_within hu hreach hp he hmem with hold | hnew
    · exact (ih hold).imp id (Or.imp id (step_covered he))
    · exact Or.inr hnew

end Runs

section RolledBack

open KeyUniqueness (middling fresh started)

def begun : State Unit := ⟨started, fun _ => 0, []⟩

def failing (done : ℕ) (inIngest : Bool) : State Unit :=
  next middling {} (next middling {} (next middling {} begun (.tick fun _ => 1 / 20))
    (.tickFailing (fun _ => 1 / 10) done inIngest)) (.tick fun _ => 3 / 20)

theorem begun_initial : Initial begun := ⟨rfl, rfl⟩

/-- The ingest fails, and the next tick takes up both windows in one. -/
theorem windows_tile_failed_ingest :
    Tile (5 : ℚ) 0 [⟨0, 1⟩, ⟨1, 3⟩] ∧ (failing 0 true).windows 7 = [⟨0, 1⟩, ⟨1, 3⟩] := by
  have hwindows : (failing 0 true).windows 7 = [⟨0, 1⟩, ⟨1, 3⟩] := by decide +kernel
  have hbegin : (failing 0 true).beginning 7 = 0 := by decide +kernel
  have h₀ : (spared middling {} 7).Reachable begun := .initial begun_initial
  have h₁ : (spared middling {} 7).Reachable (next middling {} begun (.tick fun _ => 1 / 20)) :=
    h₀.tail (e := .tick fun _ => 1 / 20) ⟨trivial, trivial, rfl⟩
  have h₂ : (spared middling {} 7).Reachable (next middling {}
      (next middling {} begun (.tick fun _ => 1 / 20)) (.tickFailing (fun _ => 1 / 10) 0 true)) :=
    h₁.tail (e := .tickFailing (fun _ => 1 / 10) 0 true)
      ⟨fun _ hin => absurd hin List.not_mem_nil, trivial, rfl⟩
  have h₃ : (spared middling {} 7).Reachable (failing 0 true) :=
    h₂.tail (e := .tick fun _ => 3 / 20) ⟨trivial, trivial, rfl⟩
  have htile := windows_tile h₃
  rw [hwindows, hbegin] at htile
  exact ⟨htile, hwindows⟩

theorem middling_uniform : Uniform middling := by
  intro a b r h
  change a ≤ (a + b) / 2 ∧ (a + b) / 2 ≤ b
  constructor <;> linarith

/-- The events of the two ticks that commit. -/
theorem events_within_windows_failed_ingest :
    (failing 0 true).process.2.events.rows ≠ [] ∧
    ∀ x ∈ (failing 0 true).process.2.events.rows, Covered (failing 0 true) x := by
  have hx : ((system middling {}).restrict (Posts ∅)).Execution begun (failing 0 true) :=
    ((Relation.ReflTransGen.single ⟨.tick fun _ => 1 / 20, trivial, trivial, rfl⟩).tail
      ⟨.tickFailing (fun _ => 1 / 10) 0 true, trivial, trivial, rfl⟩).tail
      ⟨.tick fun _ => 3 / 20, trivial, trivial, rfl⟩
  refine ⟨by decide +kernel, fun x hmem => ?_⟩
  rcases events_within_windows middling_uniform (by decide +kernel) ∅ hx hmem with h | h | h
  · cases h
  · cases h
  · exact h

/-- The commit fails, and the window that had been taken up is lost. -/
theorem rolled_back_window_lost :
    ¬ ∀ (s : State Unit) (σ : SimulationId), (system middling {}).Reachable s →
      Tile ({} : ProducerSettings).producerMaxCatchupVirtualS (s.beginning σ) (s.windows σ) := by
  intro h
  have step : ∀ {s} e, (system middling {}).Reachable s → Enabled s e →
      (system middling {}).Reachable (next middling {} s e) := fun e h he => h.tail ⟨he, rfl⟩
  have h₁ := step (.tick fun _ => 1 / 20) (.initial begun_initial) trivial
  have h₂ := step (.tickFailing (fun _ => 1 / 10) 1 false) h₁ trivial
  have h₃ := step (.tick fun _ => 3 / 20) h₂ trivial
  have hwindows : (failing 1 false).windows 7 = [⟨0, 1⟩, ⟨2, 3⟩] := by decide +kernel
  have htile := (h (failing 1 false) 7 h₃).consecutive
  rw [hwindows] at htile
  obtain ⟨-, -, -, hw, -⟩ := htile
  exact absurd hw (by decide +kernel)

end RolledBack

end ProducerWindows
