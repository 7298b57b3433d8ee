import WebhookRecovery.PassWalk
import WebhookRecovery.RateCeilings
import WebhookRecovery.StalenessBound

/-! The backoff as the consumer sees it. A retry is due only after the backoff, but it is a pass
that finds it due and a worker that sends it, each by a reading of its own. In a run whose
readings for a simulation come in order, the attempts of a delivery lie at least so far apart. -/
namespace RetrySpacing

open KeyedTables RecoverySchema InterleavedPrograms DeliveryPolicy DeliveryAdmission WorkerClaim
open LeaseReaper EventIngest ConductorPass DeliveryPipeline QueueUsage DeliveryFile
open PassGuarantee PassWalk PipelineInvariant RateCeilings StalenessBound

/-- The claims and passes of the simulation use instants that never decrease. -/
def InOrder (σ : SimulationId) (s : Timed) (e : Action) : Prop :=
  Enabled s.state e ∧ ∀ now ∈ nowOf σ e, s.clock ≤ now

instance (σ : SimulationId) (s : Timed) : DecidablePred (InOrder σ s) :=
  fun _ => inferInstanceAs (Decidable (_ ∧ _))

def orderedSystem (cfg : Settings) (σ : SimulationId) : System Timed Action :=
  .guarded (fun s => Initial s.state) (InOrder σ) (nextTimed cfg σ)

def Spaced (cfg : Settings) (l : List Attempt) : Prop :=
  ∀ past a b rest, l = past ++ a :: b :: rest →
    ∃ f, a.finishedAt = some f ∧ f + backoffS cfg (past.length + 1) ≤ b.startedAt

def RestedBy (cfg : Settings) (l : List Attempt) (t : ℚ) : Prop :=
  ∀ past a, l = past ++ [a] → ∃ f, a.finishedAt = some f ∧ f + backoffS cfg l.length ≤ t

section Spacing

variable {cfg : Settings} {l : List Attempt} {a a' : Attempt} {t u : ℚ}

theorem spaced_concat : Spaced cfg (l ++ [a]) ↔ Spaced cfg l ∧ RestedBy cfg l a.startedAt := by
  constructor
  · refine fun h => ⟨fun past x y rest hl => h past x y (rest ++ [a]) (by simp [hl]), ?_⟩
    intro past x hl
    obtain ⟨f, hf, hle⟩ := h past x a [] (by simp [hl])
    refine ⟨f, hf, ?_⟩
    rwa [hl, List.length_append, List.length_singleton]
  · rintro ⟨hs, hr⟩ past x y rest hl
    rcases List.eq_nil_or_concat rest with rfl | ⟨rest, z, rfl⟩
    · have hlast : l ++ [a] = (past ++ [x]) ++ [y] := by simpa using hl
      obtain ⟨hpast, hay⟩ := List.append_inj' hlast rfl
      obtain rfl : a = y := by simpa using hay
      obtain ⟨f, hf, hle⟩ := hr past x hpast
      refine ⟨f, hf, ?_⟩
      rwa [hpast, List.length_append, List.length_singleton] at hle
    · have hl : l ++ [a] = (past ++ x :: y :: rest) ++ [z] := by simpa using hl
      exact hs past x y rest (List.append_inj' hl rfl).1

theorem spaced_close (h : Spaced cfg (l ++ [a])) (ha : a'.startedAt = a.startedAt) :
    Spaced cfg (l ++ [a']) := by
  obtain ⟨hs, hr⟩ := spaced_concat.mp h
  exact spaced_concat.mpr ⟨hs, by rwa [ha]⟩

theorem RestedBy.later (h : RestedBy cfg l t) (htu : t ≤ u) : RestedBy cfg l u := by
  intro past a hl
  obtain ⟨f, hf, hle⟩ := h past a hl
  exact ⟨f, hf, hle.trans htu⟩

theorem restedBy_close (ha : a'.finishedAt = some t) :
    RestedBy cfg (l ++ [a']) (t + backoffS cfg (l ++ [a']).length) := by
  intro past x hl
  obtain ⟨-, hx⟩ := List.append_inj' hl rfl
  obtain rfl : a' = x := by simpa using hx
  exact ⟨t, ha, le_rfl⟩

end Spacing

/-- Where a delivery is on its way to the next attempt: due no sooner than the backoff, and made
ready no sooner than due. -/
structure Resting (cfg : Settings) (clock : ℚ) (f : File) : Prop where
  spaced : Spaced cfg f.attempts
  pending : f.delivery.state = .pending →
    ∃ t, f.delivery.nextAttemptAt = some t ∧ RestedBy cfg f.attempts t
  ready : f.delivery.state = .ready →
    ∃ r, f.delivery.readyAt = some r ∧ r ≤ clock ∧ RestedBy cfg f.attempts r

section Files

variable {cfg : Settings} {actor : Option WorkerId} {f g : File} {clock clock' : ℚ}

theorem Resting.later (h : Resting cfg clock f) (hc : clock ≤ clock') : Resting cfg clock' f := by
  refine ⟨h.spaced, h.pending, fun hs => ?_⟩
  obtain ⟨r, hr, hle, hrest⟩ := h.ready hs
  exact ⟨r, hr, hle.trans hc, hrest⟩

theorem resting_of_fresh (h : Fresh f) : Resting cfg clock f := by
  obtain ⟨ha, hs, -, hd, -⟩ := h
  obtain ⟨t, ht⟩ := Option.isSome_iff_exists.mp hd
  refine ⟨?_, fun _ => ⟨t, ht, ?_⟩, fun hr => ?_⟩
  · intro past a b rest hl
    rw [ha] at hl
    simp at hl
  · intro past a hl
    rw [ha] at hl
    simp at hl
  · rw [hs] at hr
    cases hr

theorem resting_of_spaced (h : Spaced cfg f.attempts) (hp : f.delivery.state ≠ .pending)
    (hr : f.delivery.state ≠ .ready) : Resting cfg clock f :=
  ⟨h, fun hs => absurd hs hp, fun hs => absurd hs hr⟩

/-- An attempt that was open is closed at an instant, and the delivery is over or waits for its
backoff from then on. -/
theorem resting_of_settled {d d' : Delivery} {l : List Attempt} {a a' : Attempt} {now : ℚ}
    (h : Spaced cfg (l ++ [a])) (ha : a'.startedAt = a.startedAt) (hf : a'.finishedAt = some now)
    (hr : d'.state ≠ .ready) (hcount : (l ++ [a]).length = d.attemptCount)
    (hp : d'.state = .pending → d'.nextAttemptAt = some (now + backoffS cfg d.attemptCount)) :
    Resting cfg clock ⟨d', l ++ [a']⟩ := by
  refine ⟨spaced_close h ha, fun hs => ⟨_, hp hs, ?_⟩, fun hs => absurd hs hr⟩
  have hlen : d.attemptCount = (l ++ [a']).length := by
    rw [← hcount, List.length_append, List.length_append, List.length_singleton,
      List.length_singleton]
  rw [hlen]
  exact restedBy_close hf

theorem move_resting (h : Move cfg actor f g) (hsound : Sound cfg f) (hf : Resting cfg clock f)
    (hc : clock ≤ clock')
    (hready : f.delivery.state = .pending → g.delivery.state = .ready →
      ∃ now ≤ clock', dueAt now f.delivery.nextAttemptAt ∧ g.delivery = readyRow now f.delivery)
    (hclaim : ∀ a, g.attempts = f.attempts ++ [a] → clock ≤ a.startedAt) :
    Resting cfg clock' g := by
  cases h with
  | stay => exact hf.later hc
  | @admitted d l now h =>
    obtain ⟨r, hle, hdue, heq⟩ := hready h rfl
    obtain ⟨t, ht, hrest⟩ := hf.pending h
    have ht : d.nextAttemptAt = some t := ht
    have hat : (readyRow now d).readyAt = some r := by rw [show readyRow now d = _ from heq]; rfl
    refine ⟨hf.spaced, fun hs => ?_, fun _ => ⟨r, hat, hle, hrest.later ?_⟩⟩
    · cases hs
    · simpa [dueAt, ht] using hdue
  | drop now x h hx =>
    refine resting_of_spaced hf.spaced ?_ ?_
    · rcases hx with hx | hx <;> simp [dropRow, hx]
    · rcases hx with hx | hx <;> simp [dropRow, hx]
  | expire now reason h =>
    exact resting_of_spaced hf.spaced (by simp [expireRow]) (by simp [expireRow])
  | @claim d l w now a hw h hopen hres hown hstart =>
    obtain ⟨r, -, hle, hrest⟩ := hf.ready h
    refine resting_of_spaced (spaced_concat.mpr ⟨hf.spaced, ?_⟩) (by simp [leaseRow])
      (by simp [leaseRow])
    exact hrest.later (hle.trans (hclaim a rfl))
  | @settle d l a now c h count =>
    refine resting_of_settled (d := d) hf.spaced rfl rfl (settleRow_settled _ _ _).1 hsound.counted
      fun hs => ?_
    by_cases hok : c.result.outcome = .ok
    · rw [settlement_ok hok] at hs
      cases hs
    · simp only [settlement, if_neg hok, count] at hs ⊢
      split at hs
      · cases hs
      · rename_i hlt
        rw [if_neg hlt]
        rfl
  | @reclaim d l a now h =>
    refine resting_of_settled (d := d) hf.spaced rfl rfl (settleRow_settled _ _ _).1 hsound.counted
      fun hs => ?_
    simp only [reclaimSettlement] at hs ⊢
    split at hs
    · cases hs
    · rename_i hlt
      rw [if_neg hlt]
      rfl

end Files

section Admissions

variable {cfg : Settings} {i : PassInput} {s t : Db}

def AdmitsDue (i : PassInput) (s t : Db) : Prop :=
  ∀ d' ∈ t.deliveries.rows, d'.state = .ready → d' ∈ s.deliveries.rows ∨
    ∃ d ∈ s.deliveries.rows, d.simulationId = i.simulationId ∧ dueAt i.now d.nextAttemptAt ∧
      d' = readyRow i.now d

def AdmitsNothing (s t : Db) : Prop :=
  ∀ d ∈ t.deliveries.rows, d.state = .ready → d ∈ s.deliveries.rows

theorem AdmitsNothing.due (h : AdmitsNothing s t) : AdmitsDue i s t :=
  fun d hd hs => Or.inl (h d hd hs)

theorem admitsNothing_of_map {f : Delivery → Delivery}
    (hf : t.deliveries.rows = s.deliveries.rows.map f)
    (h : ∀ d ∈ s.deliveries.rows, f d = d ∨ (f d).state ≠ .ready) : AdmitsNothing s t := by
  intro d' hd' hs
  rw [hf] at hd'
  obtain ⟨d, hd, rfl⟩ := List.mem_map.mp hd'
  rcases h d hd with he | hn
  · rw [he]
    exact hd
  · exact absurd hs hn

theorem admitsNothing_of_rows (h : t.deliveries = s.deliveries) : AdmitsNothing s t :=
  fun d hd _ => by rwa [← h]

theorem pass_admitsDue (cfg : Settings) (i : PassInput) (s : Db) :
    (pass cfg i).Guarantees Evolves (AdmitsDue i) (fun _ _ => True) s := by
  have hcalm : Calm Evolves := ⟨fun _ _ _ h k => h.trans k, fun _ _ h => h.evolves,
    fun _ _ h => h.cast⟩
  refine pass_walk hcalm (fun _ _ h => (admitsNothing_of_rows h.deliveries).due) (fun s => ?_)
    (fun s => (admitsNothing_of_rows rfl).due) (fun sel v z hsel hz => ⟨?_, fun a ha => ?_⟩) s
  · obtain ⟨f, hf, hrow⟩ := reclaim_rows cfg i.simulationId i.now i.locked s
    refine (admitsNothing_of_map hf fun d hd => ?_).due
    rcases hrow d hd with ⟨-, he⟩ | ⟨-, he⟩
    · rw [he]
      exact Or.inr (settleRow_settled _ _ _).1
    · exact Or.inl he
  · obtain ⟨f, hf, hrow⟩ := applyDrops_rows sel.drops i.now z
    obtain ⟨candidates, -, hdrops⟩ := hsel.drops fun _ _ h => h
    refine (admitsNothing_of_map hf fun d _ => ?_).due
    rcases hrow d with ⟨-, he⟩ | ⟨x, hx, -, he⟩
    · exact Or.inl he
    · rw [he]
      refine Or.inr fun hr => ?_
      have hr : x.state = .ready := hr
      rcases (mem_drops (hdrops x hx)).1 with hs | hs <;> rw [hs] at hr <;> cases hr
  · intro d' hd' hs
    rw [markReady_rows] at hd'
    obtain ⟨d, hd, rfl⟩ := List.mem_map.mp hd'
    by_cases hm : d.id ∈ sel.admitted
    · rw [if_pos hm]
      obtain ⟨e, hdue, hid⟩ := hsel.admitted_due (fun _ _ h => h) hz ha hm
      obtain rfl : e = d := a.deliveries.row_unique hdue.1 hd hid
      exact Or.inr ⟨e, hd, hdue.2.2.1, hdue.2.2.2, rfl⟩
    · rw [if_neg hm]
      exact Or.inl hd

end Admissions

section Steps

variable {cfg : Settings} {σ : SimulationId} {s t : Timed} {e : Action}

theorem ordered_step (h : (orderedSystem cfg σ).step s e t) : Step cfg s.state e t.state := by
  obtain ⟨⟨he, -⟩, rfl⟩ := h
  exact ⟨he, rfl⟩

theorem ordered_clock (h : (orderedSystem cfg σ).step s e t) : s.clock ≤ t.clock := by
  obtain ⟨⟨-, hnow⟩, rfl⟩ := h
  simp only [nextTimed]
  cases hn : nowOf σ e with
  | none => exact le_rfl
  | some now => exact hnow now hn

theorem step_admitsNothing {s t : State} (hi : Invariant cfg s) (h : Step cfg s e t)
    (he : e ≠ .statement) : AdmitsNothing s.db t.db := by
  intro d hd hs
  cases step_written hi h hd with
  | kept hd => exact hd
  | settled => exact absurd hs (settleRow_settled _ _ _).1
  | conducted => exact absurd rfl he
  | ingested | leased | expired => cases hs

/-- What a step makes ready was due at the instant of the pass under way. -/
theorem step_ready {s t : State} (hp : UnderWay Evolves AdmitsDue s) (hi : Invariant cfg s)
    (h : Step cfg s e t) {d' : Delivery} (hd' : d' ∈ t.db.deliveries.rows)
    (hs : d'.state = .ready) : d' ∈ s.db.deliveries.rows ∨
      ∃ i p, s.conductor = some (i, p) ∧ ∃ d ∈ s.db.deliveries.rows,
        d.simulationId = i.simulationId ∧ dueAt i.now d.nextAttemptAt ∧ d' = readyRow i.now d := by
  by_cases he : e = .statement
  · subst he
    obtain ⟨-, rfl⟩ := h
    rcases statement_cases cfg s with ⟨i, write, k, hc⟩ | hn
    · rw [next_statement hc] at hd'
      exact ((hp i _ hc s.db (.refl _)).1 d' hd' hs).imp_right fun h => ⟨i, _, hc, h⟩
    · rw [hn] at hd'
      exact Or.inl hd'
  · exact Or.inl (step_admitsNothing hi h he d' hd' hs)

theorem gained_attempt {s t : State} (hi : Invariant cfg s) (h : Step cfg s e t) {d : Delivery}
    (hd : d ∈ t.db.deliveries.rows) {a : Attempt}
    (ha : t.db.attemptsOf d.id = s.db.attemptsOf d.id ++ [a]) :
    startOf e = some (d.simulationId, a.startedAt) := by
  have hmem : a ∈ t.db.attemptsOf d.id := by simp [ha]
  obtain ⟨hrow, hid⟩ := mem_attemptsOf.mp hmem
  rcases step_attempts hi h hrow with ⟨b, hb, hk⟩ | ⟨hstart, c, hc, hca, hsim, -⟩
  · -- it would have been among the attempts before
    have hbd : b ∈ s.db.attemptsOf d.id := mem_attemptsOf.mpr ⟨hb, hk.delivery.symm.trans hid⟩
    have hbt : b ∈ t.db.attemptsOf d.id := by
      rw [ha]
      exact List.mem_append_left _ hbd
    have hab : a = b := t.db.attempts.row_unique hrow (mem_attemptsOf.mp hbt).1 hk.id
    have hn : (t.db.attemptsOf d.id).Nodup := t.db.attempts.nodup.filter _
    rw [ha] at hn
    exact absurd (List.mem_singleton.mpr hab.symm)
      (List.disjoint_of_nodup_append hn hbd)
  · have hcd : c = d := t.db.deliveries.row_unique hc hd (hca.trans hid)
    rw [hstart, ← hsim, hcd]

structure Rested (cfg : Settings) (σ : SimulationId) (s : Timed) : Prop where
  pipeline : Invariant cfg s.state
  under_way : UnderWay Evolves AdmitsDue s.state
  pass : ∀ i p, s.state.conductor = some (i, p) → i.simulationId = σ → i.now ≤ s.clock
  files : ∀ d ∈ s.state.db.deliveries.rows, d.simulationId = σ →
    Resting cfg s.clock (file s.state.db d)

theorem step_judged (h : (orderedSystem cfg σ).step s e t) (hs : Rested cfg σ s) :
    ∀ i p, t.state.conductor = some (i, p) → i.simulationId = σ → i.now ≤ t.clock := by
  have hclock := ordered_clock h
  intro i p hc hσ
  rcases step_conductor (ordered_step h) hc with ⟨q, hq⟩ | rfl
  · exact (hs.pass i q hq hσ).trans hclock
  · obtain ⟨-, rfl⟩ := h
    have hn : nowOf σ (.beginPass i) = some i.now := if_pos hσ
    rw [nextTimed, hn, Option.getD_some]

theorem step_files (h : (orderedSystem cfg σ).step s e t) (hs : Rested cfg σ s) :
    ∀ d ∈ t.state.db.deliveries.rows, d.simulationId = σ →
      Resting cfg t.clock (file t.state.db d) := by
  have hstep := ordered_step h
  have hi := hs.pipeline
  intro d' hd' hσ
  rcases (step_effect hi hstep).delivery hd' with ⟨d, hd, hmove⟩ | hfresh
  · obtain ⟨hid, hsim, -⟩ := hmove.identity
    have hid : d'.id = d.id := hid
    have hsim : d'.simulationId = d.simulationId := hsim
    refine move_resting hmove (hi.files d hd) (hs.files d hd (hsim.symm.trans hσ))
      (ordered_clock h) (fun hp hr => ?_) fun a ha => ?_
    · rcases step_ready hs.under_way hi hstep hd' hr with hold | ⟨i, p, hc, c, hm, hci, hdue, heq⟩
      · have hdd : d' = d := s.state.db.deliveries.row_unique hold hd hid
        have hr : d'.state = .ready := hr
        have hp : d.state = .pending := hp
        rw [hdd, hp] at hr
        cases hr
      · have hcd : c = d := s.state.db.deliveries.row_unique hm hd (by rw [heq] at hid; exact hid)
        subst hcd
        refine ⟨i.now, ?_, hdue, heq⟩
        exact (hs.pass i p hc (hci.symm.trans (hsim.symm.trans hσ))).trans (ordered_clock h)
    · have ha : t.state.db.attemptsOf d'.id = s.state.db.attemptsOf d.id ++ [a] := ha
      rw [← hid] at ha
      have hstart := gained_attempt hi hstep hd' ha
      obtain ⟨⟨-, hnow⟩, -⟩ := h
      cases e with
      | claim w sim now locked scan =>
        obtain ⟨rfl, rfl⟩ := Prod.mk.inj (Option.some.inj hstart)
        exact hnow _ (if_pos hσ)
      | _ => cases hstart
  · exact resting_of_fresh hfresh

theorem step_rested (h : (orderedSystem cfg σ).step s e t) (hs : Rested cfg σ s) :
    Rested cfg σ t := by
  have hstep := ordered_step h
  have hi := hs.pipeline
  refine ⟨step_invariant hi hstep, ?_, step_judged h hs, step_files h hs⟩
  exact step_under_way (fun _ _ _ h k => h.trans k) (fun i _ => pass_admitsDue cfg i _) hstep
    (fun _ he => step_evolves hi hstep he) (.refl _) hs.under_way

theorem reachable_rested (h : (orderedSystem cfg σ).Reachable s) : Rested cfg σ s := by
  apply h.invariant (P := Rested cfg σ)
  · rintro s ⟨cast, sims, hs⟩
    refine ⟨hs ▸ initial_invariant cast sims, ?_, ?_, ?_⟩
    · intro i p hp
      rw [hs] at hp
      cases hp
    · intro i p hp
      rw [hs] at hp
      cases hp
    · intro d hd
      rw [hs] at hd
      cases hd
  · exact fun _ _ _ _ hs he => step_rested he hs

/-- In a run whose claims and passes for a simulation come in the order of their instants, the
next attempt of each of its deliveries starts no sooner than the backoff after the end of the
last, whichever workers made them and however they ended. -/
theorem retry_spacing (cfg : Settings) (h : (orderedSystem cfg σ).Reachable s) {d : Delivery}
    (hd : d ∈ s.state.db.deliveries.rows) (hσ : d.simulationId = σ) {past rest : List Attempt}
    {a b : Attempt} (hl : s.state.db.attemptsOf d.id = past ++ a :: b :: rest) :
    ∃ f, a.finishedAt = some f ∧ f + min (cfg.retryBackoffBaseVirtualS * 2 ^ past.length)
      cfg.retryBackoffCapVirtualS ≤ b.startedAt := by
  obtain ⟨f, hf, hle⟩ := ((reachable_rested h).files d hd hσ).spaced past a b rest hl
  refine ⟨f, hf, ?_⟩
  have hb : backoffS cfg (past.length + 1) = min (cfg.retryBackoffBaseVirtualS * 2 ^ past.length)
      cfg.retryBackoffCapVirtualS := by
    rw [backoffS]
    congr 2
    rw [Nat.cast_add, Nat.cast_one, add_sub_cancel_right, zpow_natCast]
  rwa [← hb]

end Steps

section Twice

def timedOut : List Action :=
  .ingest 1 1 [⟨"patient.updated", "chart", none⟩] :: wholePass 2 ++
    [.claim 7 1 3 (fun _ => false) .physical, .complete 7 [⟨.timeout, none⟩] 4] ++ wholePass 6 ++
    [.claim 8 1 7 (fun _ => false) .physical]

theorem retry_spacing_timed_out : ∃ s d a b, (orderedSystem shipped 1).Reachable s ∧
    d ∈ s.state.db.deliveries.rows ∧ s.state.db.attemptsOf d.id = [] ++ a :: b :: [] ∧
    ∃ f, a.finishedAt = some f ∧ f + min (shipped.retryBackoffBaseVirtualS * 2 ^ 0)
      shipped.retryBackoffCapVirtualS ≤ b.startedAt := by
  have hrun : (runList (InOrder 1) (nextTimed shipped 1) ⟨initial soleConsumer [], 0⟩ timedOut).map
      (fun s => s.state.db.deliveries.rows.map fun d =>
        (d.simulationId, (s.state.db.attemptsOf d.id).map Attempt.id)) =
      some [(1, [1, 2])] := by decide +kernel
  obtain ⟨s, hs, hrows⟩ := Option.map_eq_some_iff.mp hrun
  have hr : (orderedSystem shipped 1).Reachable s :=
    ⟨_, ⟨soleConsumer, [], rfl⟩, runList_execution _ _ _ hs⟩
  obtain ⟨d, hd, hdf⟩ := List.map_eq_singleton_iff.mp hrows
  obtain ⟨hsim, hatt⟩ := Prod.mk.inj hdf
  have hmem : d ∈ s.state.db.deliveries.rows := by
    rw [hd]
    exact List.mem_singleton.mpr rfl
  obtain ⟨a, l, hl, -, hrest⟩ := List.map_eq_cons_iff.mp hatt
  obtain ⟨b, hb, -⟩ := List.map_eq_singleton_iff.mp hrest
  rw [hb] at hl
  have hl : s.state.db.attemptsOf d.id = [] ++ a :: b :: [] := hl
  have hspaced := retry_spacing shipped hr hmem hsim hl
  exact ⟨s, d, a, b, hr, hmem, hl, hspaced⟩

end Twice

end RetrySpacing
