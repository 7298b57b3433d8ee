import WebhookRecovery.AdvisoryLocks
import WebhookRecovery.InterleavedPrograms
import Mathlib.Logic.Function.Basic

/-! Leader election: conductor processes, their database sessions and one advisory lock. The lock
is held on the session that a pass writes through. A connection that is closed goes back to the
pool of its process, rolled back and alive; a statement error aborts its transaction, and what is
asked of an aborted transaction fails. -/
namespace LeaderElection

open InterleavedPrograms AdvisoryLocks

abbrev ProcessId := ℕ
abbrev SessionId := ℕ

/-- A write is known by the session it was made on and by when. -/
structure Write where
  session : SessionId
  madeAt : ℕ
  deriving DecidableEq, Repr

inductive Txn where
  | idle
  | active (writes : List Write)
  | aborted
  deriving DecidableEq, Repr

/-- Where a process is in `run_once` and `release`. While it waits for its next iteration it keeps
the connection that it leads on, if it does; a pass knows when it read first. -/
inductive Phase where
  | waiting (conn : Option SessionId)
  | trying (c : SessionId)
  | passing (c : SessionId) (began : Option ℕ)
  | releasing (c : SessionId)
  | closing (c : SessionId)
  | gone
  deriving DecidableEq, Repr

def Phase.session : Phase → Option SessionId
  | .waiting conn => conn
  | .trying c | .passing c _ | .releasing c | .closing c => some c
  | .gone => none

def Phase.passes : Phase → Option SessionId
  | .passing c _ => some c
  | _ => none

def Phase.began : Phase → Option ℕ
  | .passing _ began => began
  | _ => none

def Phase.isWaiting : Phase → Bool
  | .waiting _ => true
  | _ => false

structure Pass where
  process : ProcessId
  session : SessionId
  began : ℕ
  committed : ℕ
  writes : List Write
  deriving DecidableEq, Repr

/-- `owner`, `alive` and `txn` are the database's sessions. Every step takes the clock one further,
and `holderAt` records who held the lock. -/
structure State where
  lock : Lock SessionId
  owner : SessionId → Option ProcessId
  alive : SessionId → Bool
  txn : SessionId → Txn
  phase : ProcessId → Phase
  stopping : ProcessId → Bool
  committed : List Pass
  clock : ℕ
  holderAt : ℕ → Option SessionId

/-- `exit` is a crash at any moment, or the end of a graceful stop; the server notices it, or ends
a session for reasons of its own, by `endSession`. -/
inductive Event where
  | connect (p : ProcessId) (c : SessionId)
  | tryLock (p : ProcessId) (c : SessionId)
  | tryLockError (p : ProcessId) (c : SessionId)
  | lead (p : ProcessId) (c : SessionId)
  | statement (p : ProcessId) (c : SessionId) (writes : Bool)
  | sqlError (p : ProcessId) (c : SessionId)
  | pythonError (p : ProcessId) (c : SessionId)
  | commit (p : ProcessId) (c : SessionId)
  | unlock (p : ProcessId) (c : SessionId)
  | close (p : ProcessId) (c : SessionId)
  | shutdown (p : ProcessId)
  | exit (p : ProcessId)
  | endSession (c : SessionId)
  deriving DecidableEq, Repr

/-- What is asked of a session that is alive and whose transaction is not aborted succeeds. -/
def State.answers (s : State) (c : SessionId) : Prop := s.alive c ∧ s.txn c ≠ .aborted

instance (s : State) (c : SessionId) : Decidable (s.answers c) :=
  inferInstanceAs (Decidable (_ ∧ _))

def Enabled (s : State) : Event → Prop
  | .connect p c => s.phase p = .waiting none ∧ s.stopping p = false ∧
    (s.owner c = none ∨ s.owner c = some p ∧ s.alive c)
  | .tryLock p c => s.phase p = .trying c ∧ s.alive c
  | .tryLockError p c => s.phase p = .trying c
  | .lead p c => s.phase p = .waiting (some c) ∧ s.stopping p = false
  | .statement p c _ => (s.phase p).passes = some c ∧ s.answers c
  | .sqlError p c | .pythonError p c => (s.phase p).passes = some c
  | .commit p c => (s.phase p).passes = some c ∧ s.answers c ∧ (s.phase p).began.isSome
  | .unlock p c => s.phase p = .releasing c
  | .close p c => s.phase p = .closing c
  | .shutdown p => (s.phase p).isWaiting
  | .exit _ | .endSession _ => True

instance (s : State) : DecidablePred (Enabled s)
  | .connect p c => inferInstanceAs (Decidable (s.phase p = .waiting none ∧ s.stopping p = false ∧
    (s.owner c = none ∨ s.owner c = some p ∧ s.alive c = true)))
  | .tryLock p c => inferInstanceAs (Decidable (s.phase p = .trying c ∧ s.alive c = true))
  | .tryLockError p c => inferInstanceAs (Decidable (s.phase p = .trying c))
  | .lead p c => inferInstanceAs
    (Decidable (s.phase p = .waiting (some c) ∧ s.stopping p = false))
  | .statement p c _ => inferInstanceAs (Decidable ((s.phase p).passes = some c ∧ s.answers c))
  | .sqlError p c | .pythonError p c => inferInstanceAs (Decidable ((s.phase p).passes = some c))
  | .commit p c => inferInstanceAs (Decidable ((s.phase p).passes = some c ∧ s.answers c ∧
    (s.phase p).began.isSome = true))
  | .unlock p c => inferInstanceAs (Decidable (s.phase p = .releasing c))
  | .close p c => inferInstanceAs (Decidable (s.phase p = .closing c))
  | .shutdown p => inferInstanceAs (Decidable ((s.phase p).isWaiting = true))
  | .exit _ | .endSession _ => inferInstanceAs (Decidable True)

def Txn.writes : Txn → List Write
  | .active writes => writes
  | .idle | .aborted => []

def Txn.statement (t : Txn) (w : List Write) : Txn := .active (t.writes ++ w)

def State.setPhase (s : State) (p : ProcessId) (phase : Phase) : State :=
  { s with phase := Function.update s.phase p phase }

/-- What each event does; `release` forgets the connection first, then unlocks and closes. -/
def effect (s : State) : Event → State
  | .connect p c =>
    { s with
      owner := Function.update s.owner c (some p)
      alive := Function.update s.alive c true
      txn := Function.update s.txn c .idle
      phase := Function.update s.phase p (.trying c) }
  | .tryLock p c =>
    let r := AdvisoryLocks.tryLock s.lock c
    { s with
      lock := r.2
      txn := Function.update s.txn c ((s.txn c).statement [])
      phase := Function.update s.phase p (if r.1 then .passing c none else .closing c) }
  | .tryLockError p c =>
    { s with
      txn := Function.update s.txn c .aborted
      phase := Function.update s.phase p (.closing c) }
  | .lead p c => s.setPhase p (.passing c none)
  | .statement p c writes =>
    { s with
      txn := Function.update s.txn c ((s.txn c).statement (if writes then [⟨c, s.clock⟩] else []))
      phase := Function.update s.phase p
        (.passing c (some ((s.phase p).began.getD s.clock))) }
  | .sqlError p c =>
    { s with
      txn := Function.update s.txn c .aborted
      phase := Function.update s.phase p (.releasing c) }
  | .pythonError p c => s.setPhase p (.releasing c)
  | .commit p c =>
    { s with
      txn := Function.update s.txn c .idle
      phase := Function.update s.phase p (.waiting (some c))
      committed := ⟨p, c, (s.phase p).began.getD s.clock, s.clock + 1, (s.txn c).writes⟩ ::
        s.committed }
  | .unlock p c =>
    -- any failure of the unlock is suppressed
    if s.answers c then
      { s with
        lock := AdvisoryLocks.unlock s.lock c
        txn := Function.update s.txn c ((s.txn c).statement [])
        phase := Function.update s.phase p (.closing c) }
    else s.setPhase p (.closing c)
  | .close p c =>
    { s with
      txn := Function.update s.txn c .idle
      phase := Function.update s.phase p (.waiting none) }
  | .shutdown p =>
    { s with
      stopping := Function.update s.stopping p true
      phase := Function.update s.phase p
        (match (s.phase p).session with
          | some c => .releasing c
          | none => .waiting none) }
  | .exit p => s.setPhase p .gone
  | .endSession c =>
    { s with
      lock := AdvisoryLocks.endSession s.lock c
      alive := Function.update s.alive c false
      txn := Function.update s.txn c .idle }

def State.tick (s : State) : State :=
  { s with
    clock := s.clock + 1
    holderAt := Function.update s.holderAt (s.clock + 1) (holder s.lock) }

def next (s : State) (e : Event) : State := (effect s e).tick

def initial : State where
  lock := none
  owner := fun _ => none
  alive := fun _ => false
  txn := fun _ => .idle
  phase := fun _ => .waiting none
  stopping := fun _ => false
  committed := []
  clock := 0
  holderAt := fun _ => none

def system : System State Event := .guarded (· = initial) Enabled next

/-- The process has the lock for all it knows: from the moment it was told so to its unlock. -/
def Phase.leading : Phase → Option SessionId
  | .waiting conn => conn
  | .passing c _ | .releasing c => some c
  | _ => none

/-- Whose sessions they are, and what leading means while the session is alive. -/
structure Sessions (s : State) : Prop where
  owned : ∀ p c, (s.phase p).session = some c → s.owner c = some p
  leads : ∀ p c, (s.phase p).leading = some c → s.alive c → holder s.lock = some c
  holder : ∀ c, holder s.lock = some c → s.alive c ∧ (s.owner c).isSome

section Steps

variable {s t : State} {e : Event} {p q : ProcessId} {c d : SessionId}

theorem session_of_leading {φ : Phase} (h : φ.leading = some c) : φ.session = some c := by
  cases φ <;> first | exact h | cases h

theorem session_of_passes {φ : Phase} (h : φ.passes = some c) : φ.session = some c ∧
    φ.leading = some c := by
  cases φ with
  | passing => exact ⟨h, h⟩
  | _ => cases h

theorem Sessions.apart (hs : Sessions s) (hq : (s.phase q).session = some d)
    (hc : s.owner c = some p) (hpq : q ≠ p) : d ≠ c := by
  rintro rfl
  exact hpq (Option.some.inj ((hs.owned q d hq).symm.trans hc))

theorem Sessions.moved (hs : Sessions s) {φ : Phase} (ho : t.owner = s.owner)
    (ha : t.alive = s.alive) (hl : t.lock = s.lock) (hp : t.phase = Function.update s.phase p φ)
    (session : ∀ c, φ.session = some c → s.owner c = some p)
    (leading : ∀ c, φ.leading = some c → s.alive c → AdvisoryLocks.holder s.lock = some c) :
    Sessions t := by
  constructor
  · intro q d hd
    rw [ho]
    rw [hp] at hd
    by_cases hq : q = p
    · subst hq
      rw [Function.update_self] at hd
      exact session d hd
    · rw [Function.update_of_ne hq] at hd
      exact hs.owned q d hd
  · intro q d hd hal
    rw [hl]
    rw [ha] at hal
    rw [hp] at hd
    by_cases hq : q = p
    · subst hq
      rw [Function.update_self] at hd
      exact leading d hd hal
    · rw [Function.update_of_ne hq] at hd
      exact hs.leads q d hd hal
  · intro d hd
    rw [hl] at hd
    rw [ha, ho]
    exact hs.holder d hd

theorem connect_sessions (hs : Sessions s) (he : Enabled s (.connect p c)) :
    Sessions (effect s (.connect p c)) := by
  obtain ⟨hw, -, hc⟩ := he
  have hmine : ∀ q, (s.phase q).session = some c → q = p := by
    intro q hq
    have hown := hs.owned q c hq
    rcases hc with hc | ⟨hc, -⟩
    · rw [hc] at hown
      cases hown
    · exact Option.some.inj (hown.symm.trans hc)
  constructor
  · intro q d hd
    by_cases hq : q = p
    · subst hq
      simp only [effect, Function.update_self, Phase.session, Option.some.injEq] at hd
      subst hd
      exact Function.update_self _ _ _
    · simp only [effect, Function.update_of_ne hq] at hd
      have hdc : d ≠ c := by
        rintro rfl
        exact hq (hmine q hd)
      simp only [effect, Function.update_of_ne hdc]
      exact hs.owned q d hd
  · intro q d hd hal
    by_cases hq : q = p
    · subst hq
      simp [effect, Phase.leading] at hd
    · simp only [effect, Function.update_of_ne hq] at hd
      have hdc : d ≠ c := by
        rintro rfl
        exact hq (hmine q (session_of_leading hd))
      simp only [effect, Function.update_of_ne hdc] at hal
      exact hs.leads q d hd hal
  · intro d hd
    by_cases hdc : d = c
    · subst hdc
      simp [effect]
    · simp only [effect, Function.update_of_ne hdc]
      exact hs.holder d hd

/-- Nobody is told that it leads while another session holds the lock. -/
theorem tryLock_sessions (hs : Sessions s) (he : Enabled s (.tryLock p c)) :
    Sessions (effect s (.tryLock p c)) := by
  obtain ⟨hp, hal⟩ := he
  have hown : s.owner c = some p := hs.owned p c (by rw [hp]; rfl)
  rcases tryLock_cases (l := s.lock) (s := c) with ⟨hr, hnow, hbefore, -⟩ | ⟨hr, hl, -⟩
  · constructor
    · intro q d hd
      by_cases hq : q = p
      · subst hq
        simp only [effect, Function.update_self, hr, if_true, Phase.session,
          Option.some.injEq] at hd
        exact hd ▸ hown
      · simp only [effect, Function.update_of_ne hq] at hd
        exact hs.owned q d hd
    · intro q d hd hald
      by_cases hq : q = p
      · subst hq
        simp only [effect, Function.update_self, hr, if_true, Phase.leading,
          Option.some.injEq] at hd
        exact hd ▸ hnow
      · simp only [effect, Function.update_of_ne hq] at hd
        have hholds := hs.leads q d hd hald
        have hdc := hs.apart (session_of_leading hd) hown hq
        rcases hbefore with hb | hb
        · rw [hb] at hholds
          cases hholds
        · exact absurd (Option.some.inj (hholds.symm.trans hb)) hdc
    · intro d hd
      have hdc : d = c := Option.some.inj (hd.symm.trans hnow)
      subst hdc
      exact ⟨hal, by simp [effect, hown]⟩
  · refine hs.moved (p := p) rfl rfl hl rfl ?_ ?_
    · intro d hd
      simp only [hr, Bool.false_eq_true, if_false, Phase.session, Option.some.injEq] at hd
      exact hd ▸ hown
    · intro d hd
      simp [hr, Phase.leading] at hd

theorem unlock_sessions (hs : Sessions s) (he : Enabled s (.unlock p c)) :
    Sessions (effect s (.unlock p c)) := by
  have hp : s.phase p = .releasing c := he
  have hown : s.owner c = some p := hs.owned p c (by rw [hp]; rfl)
  by_cases ha : s.answers c
  · rw [effect, if_pos ha]
    constructor
    · intro q d hd
      by_cases hq : q = p
      · subst hq
        simp only [Function.update_self, Phase.session, Option.some.injEq] at hd
        exact hd ▸ hown
      · simp only [Function.update_of_ne hq] at hd
        exact hs.owned q d hd
    · intro q d hd hald
      by_cases hq : q = p
      · subst hq
        simp [Phase.leading] at hd
      · simp only [Function.update_of_ne hq] at hd
        have hholds := hs.leads q d hd hald
        have hdc := hs.apart (session_of_leading hd) hown hq
        have hother : AdvisoryLocks.holder s.lock ≠ some c := by
          rw [hholds]
          simpa using hdc
        rwa [unlock_other hother]
    · exact fun d hd => hs.holder d (unlock_keeps hd)
  · rw [effect, if_neg ha]
    refine hs.moved (p := p) rfl rfl rfl rfl ?_ ?_
    · intro d hd
      simp only [Phase.session, Option.some.injEq] at hd
      exact hd ▸ hown
    · intro d hd
      cases hd

theorem endSession_sessions (hs : Sessions s) (c : SessionId) :
    Sessions (effect s (.endSession c)) := by
  constructor
  · exact hs.owned
  · intro q d hd hal
    have hdc : d ≠ c := by
      rintro rfl
      simp [effect] at hal
    simp only [effect, Function.update_of_ne hdc] at hal
    have hholds := hs.leads q d hd hal
    have hother : ¬ AdvisoryLocks.holder s.lock = some c := by
      rw [hholds]
      simpa using hdc
    rw [effect, endSession_holder, if_neg hother]
    exact hholds
  · intro d hd
    obtain ⟨hd, hdc⟩ := endSession_keeps hd
    simp only [effect, Function.update_of_ne hdc]
    exact hs.holder d hd

theorem Sessions.kept {t : State} {φ : Phase} (hs : Sessions s) (hp : (s.phase p).session = some c)
    (ho : t.owner = s.owner) (ha : t.alive = s.alive) (hl : t.lock = s.lock)
    (hφ : t.phase = Function.update s.phase p φ) (hsession : φ.session = some c ∨ φ.session = none)
    (hleading : φ.leading = some c → (s.phase p).leading = some c) : Sessions t := by
  refine hs.moved ho ha hl hφ ?_ ?_
  · intro d hd
    rcases hsession with h | h
    · rw [h] at hd
      exact Option.some.inj hd ▸ hs.owned p c hp
    · rw [h] at hd
      cases hd
  · intro d hd hal
    have hdc : d = c := by
      rcases hsession with h | h
      · exact Option.some.inj ((session_of_leading hd).symm.trans h)
      · rw [session_of_leading hd] at h
        cases h
    subst hdc
    exact hs.leads p d (hleading hd) hal

theorem effect_sessions (hs : Sessions s) (he : Enabled s e) : Sessions (effect s e) := by
  cases e with
  | connect p c => exact connect_sessions hs he
  | tryLock p c => exact tryLock_sessions hs he
  | tryLockError p c =>
    have hp : s.phase p = .trying c := he
    exact hs.kept (p := p) (c := c) (by rw [hp]; rfl) rfl rfl rfl rfl (Or.inl rfl)
      (by simp [Phase.leading])
  | lead p c =>
    obtain ⟨hp, -⟩ := he
    exact hs.kept (p := p) (c := c) (by rw [hp]; rfl) rfl rfl rfl rfl (Or.inl rfl)
      fun _ => by rw [hp]; rfl
  | statement p c writes =>
    obtain ⟨hp, -⟩ := he
    exact hs.kept (p := p) (session_of_passes hp).1 rfl rfl rfl rfl (Or.inl rfl)
      fun _ => (session_of_passes hp).2
  | sqlError p c | pythonError p c =>
    have hp : (s.phase p).passes = some c := he
    exact hs.kept (p := p) (session_of_passes hp).1 rfl rfl rfl rfl (Or.inl rfl)
      fun _ => (session_of_passes hp).2
  | commit p c =>
    obtain ⟨hp, -⟩ := he
    exact hs.kept (p := p) (session_of_passes hp).1 rfl rfl rfl rfl (Or.inl rfl)
      fun _ => (session_of_passes hp).2
  | unlock p c => exact unlock_sessions hs he
  | close p c =>
    have hp : s.phase p = .closing c := he
    exact hs.kept (p := p) (c := c) (by rw [hp]; rfl) rfl rfl rfl rfl (Or.inr rfl)
      (by simp [Phase.leading])
  | shutdown p =>
    have hp : (s.phase p).isWaiting = true := he
    cases hw : s.phase p with
    | waiting conn =>
      cases conn with
      | some c =>
        refine hs.kept (p := p) (c := c) (φ := .releasing c) (by rw [hw]; rfl) rfl rfl rfl ?_
          (Or.inl rfl) fun _ => by rw [hw]; rfl
        simp [effect, hw, Phase.session]
      | none =>
        refine hs.moved (p := p) (φ := .waiting none) rfl rfl rfl ?_ (by simp [Phase.session])
          (by simp [Phase.leading])
        simp [effect, hw, Phase.session]
    | _ =>
      rw [hw] at hp
      cases hp
  | exit p =>
    exact hs.moved (p := p) (φ := .gone) rfl rfl rfl rfl (by simp [Phase.session])
      (by simp [Phase.leading])
  | endSession c => exact endSession_sessions hs c

theorem step_sessions (hs : Sessions s) (h : system.step s e t) : Sessions t := by
  obtain ⟨he, rfl⟩ := h
  have ht := effect_sessions hs he
  exact ⟨ht.owned, ht.leads, ht.holder⟩

theorem initial_sessions : Sessions initial := by
  constructor <;> simp [initial, Phase.session, Phase.leading, AdvisoryLocks.holder]

end Steps

end LeaderElection
