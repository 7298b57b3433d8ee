import WebhookRecovery.LeaderElection

/-! A released lock. The connection that is closed goes back to the pool with its session alive, so
giving the lock up is the unlock's doing, and in an aborted transaction the unlock fails. -/
namespace LockHandover

open InterleavedPrograms AdvisoryLocks LeaderElection

/-- A release on a session that is alive does not find the transaction aborted. -/
def Clean (s : State) : Event → Prop
  | .unlock _ c => s.alive c → s.txn c ≠ .aborted
  | _ => True

instance (s : State) : DecidablePred (Clean s)
  | .unlock _ c => inferInstanceAs (Decidable (s.alive c = true → s.txn c ≠ .aborted))
  | .connect .. | .tryLock .. | .tryLockError .. | .lead .. | .statement .. | .sqlError ..
  | .pythonError .. | .commit .. | .close .. | .shutdown _ | .exit _ | .endSession _ =>
    inferInstanceAs (Decidable True)

def clean : System State Event := system.restrict Clean

def GivenUp (s : State) (p : ProcessId) : Prop :=
  ∀ c, s.owner c = some p → holder s.lock ≠ some c

/-- The state in which `release` returns, with nobody in between. -/
def released (s : State) (p : ProcessId) (c : SessionId) : State :=
  next (next s (.unlock p c)) (.close p c)

/-- Whoever holds the lock leads with it or has crashed, and has taken it once. -/
structure Handed (s : State) : Prop where
  sessions : Sessions s
  once : ∀ c, holder s.lock = some c → count s.lock c = 1
  led : ∀ c, holder s.lock = some c → ∃ p, s.owner c = some p ∧
    ((s.phase p).leading = some c ∨ s.phase p = .gone)

section Steps

variable {s t : State} {e : Event} {p q : ProcessId} {c d : SessionId}

/-- A process that neither leads nor has crashed holds nothing. -/
theorem Handed.givenUp (hs : Handed s) (hl : (s.phase p).leading = none)
    (hg : s.phase p ≠ .gone) : GivenUp s p := by
  intro c hc hh
  obtain ⟨q, hq, hled⟩ := hs.led c hh
  obtain rfl : p = q := Option.some.inj (hc.symm.trans hq)
  rcases hled with h | h
  · rw [hl] at h
    cases h
  · exact hg h

theorem Handed.moved (hs : Handed s) {φ : Phase} (ht : Sessions t) (ho : t.owner = s.owner)
    (hp : t.phase = Function.update s.phase p φ)
    (keeps : holder t.lock = none ∨ t.lock = s.lock)
    (mine : ∀ d, holder s.lock = some d → t.lock = s.lock → s.owner d = some p →
      φ.leading = some d ∨ φ = .gone) : Handed t := by
  rcases keeps with hn | hl
  · constructor
    · exact ht
    · intro d hd
      rw [hn] at hd
      cases hd
    · intro d hd
      rw [hn] at hd
      cases hd
  · refine ⟨ht, by rw [hl]; exact hs.once, fun d hd => ?_⟩
    rw [hl] at hd
    obtain ⟨q, hq, hled⟩ := hs.led d hd
    refine ⟨q, by rw [ho]; exact hq, ?_⟩
    rw [hp]
    by_cases hqp : q = p
    · subst hqp
      rw [Function.update_self]
      exact mine d hd hl hq
    · rwa [Function.update_of_ne hqp]

theorem connect_handed (hs : Handed s) (he : Enabled s (.connect p c)) :
    Handed (effect s (.connect p c)) := by
  have hidle : GivenUp s p := hs.givenUp (by rw [he.1]; rfl) (by rw [he.1]; simp)
  refine ⟨effect_sessions hs.sessions he, hs.once, fun d hd => ?_⟩
  obtain ⟨q, hq, hled⟩ := hs.led d hd
  have hqp : q ≠ p := by
    rintro rfl
    exact hidle d hq hd
  have hdc : d ≠ c := by
    rintro rfl
    rcases he.2.2 with hn | ⟨hn, -⟩
    · rw [hn] at hq
      cases hq
    · exact hqp (Option.some.inj (hq.symm.trans hn))
  exact ⟨q, by simpa [effect, hdc] using hq, by simpa [effect, hqp] using hled⟩

theorem tryLock_handed (hs : Handed s) (he : Enabled s (.tryLock p c)) :
    Handed (effect s (.tryLock p c)) := by
  have ht := effect_sessions hs.sessions he
  have hown : s.owner c = some p := hs.sessions.owned p c (by rw [he.1]; rfl)
  have hidle : GivenUp s p := hs.givenUp (by rw [he.1]; rfl) (by rw [he.1]; simp)
  rcases tryLock_cases (l := s.lock) (s := c) with ⟨hr, hnow, -, hcount⟩ | ⟨hr, hl, -⟩
  · have hzero : count s.lock c = 0 := by
      have h := mt holder_iff_count.2 (hidle c hown)
      omega
    rw [hzero] at hcount
    refine ⟨ht, fun d hd => ?_, fun d hd => ?_⟩
    · obtain rfl : c = d := Option.some.inj (hnow.symm.trans hd)
      exact hcount
    · obtain rfl : c = d := Option.some.inj (hnow.symm.trans hd)
      exact ⟨p, hown, Or.inl (by simp [effect, hr, Phase.leading])⟩
  · exact hs.moved ht rfl rfl (Or.inr hl) fun d hd _ hd' => absurd hd (hidle d hd')

/-- With the transaction in order the unlock gives the lock up; on a session that is gone there is
nothing to give up. -/
theorem unlock_gives_up (hs : Handed s) (hc : Clean s (.unlock p c)) :
    holder (effect s (.unlock p c)).lock = none ∨
      (effect s (.unlock p c)).lock = s.lock ∧ holder s.lock ≠ some c := by
  by_cases ha : s.answers c
  · have hlock : (effect s (.unlock p c)).lock = AdvisoryLocks.unlock s.lock c := by
      rw [effect, if_pos ha]
    rw [hlock]
    by_cases hh : holder s.lock = some c
    · exact Or.inl (by rw [unlock_holder hh, if_pos (hs.once c hh)])
    · exact Or.inr ⟨unlock_other hh, hh⟩
  · have hdead : ¬ s.alive c = true := fun h => ha ⟨h, hc h⟩
    refine Or.inr ⟨?_, fun h => hdead (hs.sessions.holder c h).1⟩
    rw [effect, if_neg ha]
    rfl

theorem unlock_fails (hc : ¬ Clean s (.unlock p c)) :
    (effect s (.unlock p c)).lock = s.lock := by
  have ha : ¬ s.answers c := fun ha => hc fun _ => ha.2
  rw [effect, if_neg ha]
  rfl

theorem unlock_handed (hs : Handed s) (he : Enabled s (.unlock p c))
    (hc : Clean s (.unlock p c)) : Handed (effect s (.unlock p c)) := by
  have hp : s.phase p = .releasing c := he
  have ho : (effect s (.unlock p c)).owner = s.owner := by
    by_cases ha : s.answers c <;> simp [effect, State.setPhase, ha]
  have hφ : (effect s (.unlock p c)).phase = Function.update s.phase p (.closing c) := by
    by_cases ha : s.answers c <;> simp [effect, State.setPhase, ha]
  have hgives := unlock_gives_up hs hc
  refine hs.moved (effect_sessions hs.sessions he) ho hφ (hgives.imp_right And.left) ?_
  intro d hd hl hown
  -- what this process held, it led with
  obtain ⟨q, hq, hled⟩ := hs.led d hd
  obtain rfl : p = q := Option.some.inj (hown.symm.trans hq)
  rw [hp] at hled
  rcases hled with h | h
  · obtain rfl : c = d := Option.some.inj h
    rcases hgives with hn | ⟨-, hne⟩
    · rw [hl, hd] at hn
      cases hn
    · exact absurd hd hne
  · cases h

theorem endSession_handed (hs : Handed s) (c : SessionId) :
    Handed (effect s (.endSession c)) := by
  have ht := endSession_sessions hs.sessions c
  have hl : holder (AdvisoryLocks.endSession s.lock c) = none ∨
      AdvisoryLocks.endSession s.lock c = s.lock := by
    rw [AdvisoryLocks.endSession]
    split
    · exact Or.inl rfl
    · exact Or.inr rfl
  rcases hl with hn | hl
  · constructor
    · exact ht
    · intro d hd
      rw [effect, hn] at hd
      cases hd
    · intro d hd
      rw [effect, hn] at hd
      cases hd
  · constructor
    · exact ht
    · rw [effect, hl]
      exact hs.once
    · rw [effect, hl]
      exact hs.led

theorem effect_handed (hs : Handed s) (he : Enabled s e) (hc : Clean s e) :
    Handed (effect s e) := by
  have ht := effect_sessions hs.sessions he
  -- a step that neither takes nor drops the lock: its process leads as before
  have kept : ∀ {p : ProcessId} {φ : Phase}, (effect s e).owner = s.owner →
      (effect s e).lock = s.lock → (effect s e).phase = Function.update s.phase p φ →
      (φ = .gone ∨ φ.leading = (s.phase p).leading ∧ s.phase p ≠ .gone) →
      Handed (effect s e) := by
    intro p φ ho hl hφ hleading
    refine hs.moved ht ho hφ (Or.inr hl) fun d hd _ hown => ?_
    rcases hleading with hg | ⟨hleading, hg⟩
    · exact Or.inr hg
    · obtain ⟨q, hq, hled⟩ := hs.led d hd
      obtain rfl : p = q := Option.some.inj (hown.symm.trans hq)
      rw [hleading]
      exact Or.inl (hled.resolve_right hg)
  have passing : ∀ {p : ProcessId} {c : SessionId}, (s.phase p).passes = some c →
      some c = (s.phase p).leading ∧ s.phase p ≠ .gone := by
    intro p c hp
    refine ⟨(session_of_passes hp).2.symm, fun hg => ?_⟩
    rw [hg] at hp
    cases hp
  cases e with
  | connect p c => exact connect_handed hs he
  | tryLock p c => exact tryLock_handed hs he
  | tryLockError p c | close p c =>
    have hp : s.phase p = _ := he
    exact kept rfl rfl rfl (Or.inr (by rw [hp]; exact ⟨rfl, by simp⟩))
  | lead p c => exact kept rfl rfl rfl (Or.inr (by rw [he.1]; exact ⟨rfl, by simp⟩))
  | statement p c writes | commit p c => exact kept rfl rfl rfl (Or.inr (passing he.1))
  | sqlError p c | pythonError p c => exact kept rfl rfl rfl (Or.inr (passing he))
  | unlock p c => exact unlock_handed hs he hc
  | shutdown p =>
    have hp : (s.phase p).isWaiting = true := he
    cases hw : s.phase p with
    | waiting conn =>
      refine kept rfl rfl rfl (Or.inr ⟨?_, by simp [hw]⟩)
      cases conn <;> simp [hw, Phase.session, Phase.leading]
    | _ =>
      rw [hw] at hp
      cases hp
  | exit p => exact kept rfl rfl rfl (Or.inl rfl)
  | endSession c => exact endSession_handed hs c

theorem clean_handed (h : clean.Reachable s) : Handed s := by
  apply h.invariant (P := Handed)
  · rintro _ rfl
    exact ⟨initial_sessions, by simp [initial, holder], by simp [initial, holder]⟩
  · rintro s e t - hs ⟨hc, he, rfl⟩
    have ht := effect_handed hs he hc
    exact ⟨⟨ht.sessions.owned, ht.sessions.leads, ht.sessions.holder⟩, ht.once, ht.led⟩

theorem released_state (s : State) (p : ProcessId) (c : SessionId) :
    (released s p c).lock = (effect s (.unlock p c)).lock ∧
      (released s p c).owner = s.owner := by
  by_cases ha : s.answers c <;>
    simp [released, next, State.tick, effect, State.setPhase, ha]

/-- The standby is refused by nobody but a process that leads, or crashed and is not noticed. -/
theorem refused_by_leader (hs : Handed s) (hd : s.phase q = .trying d)
    (hr : (AdvisoryLocks.tryLock s.lock d).1 = false) : ∃ p c, p ≠ q ∧ s.owner c = some p ∧
      holder s.lock = some c ∧ ((s.phase p).leading = some c ∨ s.phase p = .gone) := by
  cases hh : holder s.lock with
  | none =>
    rw [tryLock_free hh] at hr
    cases hr
  | some c =>
    obtain ⟨p, hp, hled⟩ := hs.led c hh
    refine ⟨p, c, ?_, hp, rfl, hled⟩
    rintro rfl
    rw [hd] at hled
    rcases hled with h | h <;> cases h

/-- A release gives the lock up exactly when it is clean. -/
theorem release_gives_up (hs : Handed s) (he : Enabled s (.unlock p c)) :
    GivenUp (released s p c) p ↔ Clean s (.unlock p c) := by
  have hp : s.phase p = .releasing c := he
  have hown : s.owner c = some p := hs.sessions.owned p c (by rw [hp]; rfl)
  obtain ⟨hlock, howner⟩ := released_state s p c
  constructor
  · intro hg
    by_contra hc
    have ha : s.alive c = true := by
      by_contra ha
      exact hc fun h => absurd h ha
    refine hg c (by rw [howner]; exact hown) ?_
    rw [hlock, unlock_fails hc]
    exact hs.sessions.leads p c (by rw [hp]; rfl) ha
  · intro hc d hd
    rw [howner] at hd
    rw [hlock]
    rcases unlock_gives_up hs hc with hn | ⟨hl, hne⟩
    · rw [hn]
      simp
    · rw [hl]
      intro hh
      obtain ⟨q, hq, hled⟩ := hs.led d hh
      obtain rfl : p = q := Option.some.inj (hd.symm.trans hq)
      rw [hp] at hled
      rcases hled with h | h
      · exact hne (Option.some.inj h ▸ hh)
      · cases h

end Steps

/-- While every release is clean, a process that has released holds nothing and a standby is refused
by a leader only; a release that is not clean leaves the lock on a session of its process. -/
theorem lock_handed_over {s : State} (h : clean.Reachable s) :
    (∀ p, (s.phase p).leading = none → s.phase p ≠ .gone → GivenUp s p) ∧
      (∀ q d, s.phase q = .trying d → (AdvisoryLocks.tryLock s.lock d).1 = false →
        ∃ p c, p ≠ q ∧ s.owner c = some p ∧ holder s.lock = some c ∧
          ((s.phase p).leading = some c ∨ s.phase p = .gone)) ∧
      ∀ p c, Enabled s (.unlock p c) → (GivenUp (released s p c) p ↔ Clean s (.unlock p c)) := by
  refine ⟨fun p => (clean_handed h).givenUp, fun q d => ?_, fun p c => ?_⟩
  · exact refused_by_leader (clean_handed h)
  · exact release_gives_up (clean_handed h)

section Failures

/-- A pass fails with an error that the database knows nothing of, and the leader lets go. -/
def pythonFailure : List Event :=
  [.connect 0 10, .tryLock 0 10, .statement 0 10 true, .pythonError 0 10]

theorem lock_handed_over_python_failure : ∃ s, clean.Reachable s ∧ holder s.lock = some 10 ∧
    GivenUp (released s 0 10) 0 := by
  have hrun : (runList (fun s e => Clean s e ∧ Enabled s e) next initial pythonFailure).map
      (fun s => (s.phase 0, holder s.lock, s.txn 10)) =
      some (.releasing 10, some 10, .active [⟨10, 2⟩]) := by decide +kernel
  obtain ⟨s, hs, hrows⟩ := Option.map_eq_some_iff.mp hrun
  simp only [Prod.mk.injEq] at hrows
  obtain ⟨hphase, hholder, htxn⟩ := hrows
  have hr : clean.Reachable s := ⟨initial, rfl, runList_restricted _ _ _ hs⟩
  have hclean : Clean s (.unlock 0 10) := fun _ => by rw [htxn]; simp
  exact ⟨s, hr, hholder, ((lock_handed_over hr).2.2 0 10 hphase).mpr hclean⟩

def sqlFailure : List Event :=
  [.connect 0 10, .tryLock 0 10, .statement 0 10 true, .sqlError 0 10, .unlock 0 10, .close 0 10,
    .connect 1 20]

/-- The lock stays on the pooled session of the process that released it, and the standby is
refused. -/
theorem sql_failure_keeps_lock : ∃ s, system.Reachable s ∧ s.phase 0 = .waiting none ∧
    ¬ GivenUp s 0 ∧ s.phase 1 = .trying 20 ∧ (AdvisoryLocks.tryLock s.lock 20).1 = false := by
  have hrun : (runList Enabled next initial sqlFailure).map
      (fun s => (s.phase 0, s.owner 10, holder s.lock, s.phase 1,
        (AdvisoryLocks.tryLock s.lock 20).1)) =
      some (.waiting none, some 0, some 10, .trying 20, false) := by decide +kernel
  obtain ⟨s, hs, hrows⟩ := Option.map_eq_some_iff.mp hrun
  simp only [Prod.mk.injEq] at hrows
  obtain ⟨hphase, howner, hholder, hstandby, hrefused⟩ := hrows
  have hr : system.Reachable s := ⟨initial, rfl, runList_execution _ _ _ hs⟩
  exact ⟨s, hr, hphase, fun hg => hg 10 howner hholder, hstandby, hrefused⟩

end Failures

end LockHandover
