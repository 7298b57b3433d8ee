import WebhookRecovery.LeaderElection

/-! Committed passes are serial. A pass that commits held the leader lock, on the session that it
wrote through, from its first read to its commit. -/
namespace SerialPasses

open InterleavedPrograms AdvisoryLocks LeaderElection

def HeldFrom (s : State) (c : SessionId) (first last : ℕ) : Prop :=
  ∀ n, first ≤ n → n ≤ last → s.holderAt n = some c

structure Fenced (s : State) (k : Pass) : Prop where
  owner : s.owner k.session = some k.process
  order : k.began ≤ k.committed
  past : k.committed ≤ s.clock
  held : HeldFrom s k.session k.began k.committed
  writes : ∀ w ∈ k.writes, w.session = k.session ∧ k.began ≤ w.madeAt ∧ w.madeAt ≤ k.committed

/-- What holds of a pass under way: its session has had the lock since the first read, or is gone,
and the transaction contains the writes of this pass and no others. -/
structure UnderWay (s : State) (c : SessionId) (began : Option ℕ) : Prop where
  past : ∀ b ∈ began, b ≤ s.clock
  held : ∀ b ∈ began, s.alive c → HeldFrom s c b s.clock
  writes : ∀ w ∈ (s.txn c).writes, w.session = c ∧ ∃ b ∈ began, b ≤ w.madeAt ∧ w.madeAt ≤ s.clock

@[simp] theorem writes_statement (x : Txn) (w : List Write) :
    (x.statement w).writes = x.writes ++ w := rfl

structure Invariant (s : State) : Prop where
  sessions : Sessions s
  current : s.holderAt s.clock = holder s.lock
  quiet : ∀ p c, s.phase p = .waiting (some c) ∨ s.phase p = .trying c → (s.txn c).writes = []
  passes : ∀ p c began, s.phase p = .passing c began → UnderWay s c began
  recorded : ∀ k ∈ s.committed, Fenced s k

section Steps

variable {s t : State} {e : Event} {p q : ProcessId} {c d : SessionId} {began : Option ℕ}

def actor : Event → Option ProcessId
  | .connect p _ | .tryLock p _ | .tryLockError p _ | .lead p _ | .statement p _ _ | .sqlError p _
  | .pythonError p _ | .commit p _ | .unlock p _ | .close p _ | .shutdown p | .exit p => some p
  | .endSession _ => none

def subject : Event → Option SessionId
  | .connect _ c | .tryLock _ c | .tryLockError _ c | .lead _ c | .statement _ c _ | .sqlError _ c
  | .pythonError _ c | .commit _ c | .unlock _ c | .close _ c => some c
  | .shutdown _ | .exit _ | .endSession _ => none

theorem effect_phase (ha : actor e ≠ some q) : (effect s e).phase q = s.phase q := by
  have apart : ∀ {p : ProcessId}, actor e = some p → q ≠ p := by
    rintro p hp rfl
    exact ha hp
  cases e with
  | endSession c => rfl
  | unlock p c =>
    by_cases hans : s.answers c <;> simp [effect, State.setPhase, hans, apart rfl]
  | connect p c | tryLock p c | tryLockError p c | lead p c | statement p c writes
  | sqlError p c | pythonError p c | commit p c | close p c | shutdown p | exit p =>
    simp [effect, State.setPhase, apart rfl]

/-- The session of an enabled event is its own process's, or is about to become so. -/
theorem apart_of_actor (hs : Sessions s) (he : Enabled s e) (ha : actor e ≠ some q)
    (hd : (s.phase q).session = some d) (hc : subject e = some d) : False := by
  have other : ∀ {p : ProcessId}, actor e = some p → (s.phase p).session = some d → False := by
    intro p hp hpd
    have hpq := (hs.owned p d hpd).symm.trans (hs.owned q d hd)
    exact ha (hp.trans hpq)
  cases e with
  | connect p c =>
    obtain rfl := Option.some.inj hc
    have hown := hs.owned q c hd
    rcases he.2.2 with hn | ⟨hp, -⟩
    · rw [hn] at hown
      cases hown
    · exact ha (hp.symm.trans hown)
  | tryLock p c | lead p c =>
    obtain rfl := Option.some.inj hc
    exact other rfl (by rw [he.1]; rfl)
  | tryLockError p c | unlock p c | close p c =>
    obtain rfl := Option.some.inj hc
    have hp : s.phase p = _ := he
    exact other rfl (by rw [hp]; rfl)
  | statement p c writes | commit p c =>
    obtain rfl := Option.some.inj hc
    exact other rfl (session_of_passes he.1).1
  | sqlError p c | pythonError p c =>
    obtain rfl := Option.some.inj hc
    exact other rfl (session_of_passes he).1
  | shutdown p | exit p | endSession c => cases hc

/-- A step of somebody else leaves the session of a process no less empty, and does not revive
it. -/
theorem effect_other (hs : Sessions s) (he : Enabled s e) (ha : actor e ≠ some q)
    (hd : (s.phase q).session = some d) :
    (∀ w ∈ ((effect s e).txn d).writes, w ∈ (s.txn d).writes) ∧
      ((effect s e).alive d = true → s.alive d = true) := by
  have hdc : ∀ {c : SessionId}, subject e = some c → d ≠ c := by
    rintro c hc rfl
    exact apart_of_actor hs he ha hd hc
  cases e with
  | unlock p c =>
    by_cases hans : s.answers c <;> simp [effect, State.setPhase, hans, hdc rfl]
  | endSession c =>
    by_cases h : d = c
    · subst h
      simp [effect, Txn.writes]
    · simp [effect, h]
  | connect p c | tryLock p c | tryLockError p c | statement p c writes
  | sqlError p c | commit p c | close p c =>
    simp [effect, hdc rfl]
  | lead p c | pythonError p c | shutdown p | exit p =>
    simp [effect, State.setPhase]

theorem effect_clock (s : State) (e : Event) :
    (effect s e).clock = s.clock ∧ (effect s e).holderAt = s.holderAt := by
  cases e with
  | unlock p c => by_cases ha : s.answers c <;> simp [effect, State.setPhase, ha]
  | _ => exact ⟨rfl, rfl⟩

theorem next_clock (s : State) (e : Event) : (next s e).clock = s.clock + 1 :=
  congrArg (· + 1) (effect_clock s e).1

theorem effect_owner (he : Enabled s e) (hc : s.owner c = some p) :
    (effect s e).owner c = some p := by
  cases e with
  | connect q d =>
    by_cases hcd : c = d
    · subst hcd
      rcases he.2.2 with hn | ⟨hq, -⟩
      · rw [hn] at hc
        cases hc
      · rw [hc] at hq
        simp [effect, ← hq]
    · simpa [effect, hcd] using hc
  | unlock q d => by_cases ha : s.answers d <;> simpa [effect, State.setPhase, ha] using hc
  | _ => exact hc

theorem next_held {first last : ℕ} (h : HeldFrom s c first last) (hl : last ≤ s.clock) :
    HeldFrom (next s e) c first last := by
  intro n hf hn
  have hne : n ≠ s.clock + 1 := by omega
  rw [next, State.tick]
  simp only [(effect_clock s e).1, (effect_clock s e).2, Function.update_of_ne hne]
  exact h n hf hn

theorem next_held_on {first : ℕ} (h : HeldFrom s c first s.clock)
    (hnow : holder (effect s e).lock = some c) : HeldFrom (next s e) c first (s.clock + 1) := by
  intro n hf hn
  rcases Nat.lt_or_ge s.clock n with hlt | hle
  · have hn : n = s.clock + 1 := by omega
    subst hn
    rw [next, State.tick]
    simp only [(effect_clock s e).1, Function.update_self]
    exact hnow
  · exact next_held h le_rfl n hf hle

theorem Fenced.next {k : Pass} (h : Fenced s k) (he : Enabled s e) : Fenced (next s e) k where
  owner := effect_owner he h.owner
  order := h.order
  past := by
    have := h.past
    rw [next_clock]
    omega
  held := next_held h.held h.past
  writes := h.writes

theorem under_way_next (hs : Sessions s) (he : Enabled s e)
    (hq : (effect s e).phase q = .passing d began) (past : ∀ b ∈ began, b ≤ s.clock)
    (held : ∀ b ∈ began, (effect s e).alive d → HeldFrom s d b s.clock)
    (writes : ∀ w ∈ ((effect s e).txn d).writes,
      w.session = d ∧ ∃ b ∈ began, b ≤ w.madeAt ∧ w.madeAt ≤ s.clock) :
    UnderWay (next s e) d began where
  past b hb := by
    have := past b hb
    rw [next_clock]
    omega
  held b hb ha := by
    rw [next_clock]
    refine next_held_on (held b hb ha) ((effect_sessions hs he).leads q d ?_ ha)
    rw [hq]
    rfl
  writes w hw := by
    obtain ⟨hwd, b, hb, hlo, hhi⟩ := writes w hw
    refine ⟨hwd, b, hb, hlo, ?_⟩
    rw [next_clock]
    omega

theorem passes_under_way (hs : Invariant s) (hp : (s.phase p).passes = some c) :
    UnderWay s c (s.phase p).began := by
  cases hφ : s.phase p with
  | passing d began =>
    rw [hφ] at hp
    obtain rfl := Option.some.inj hp
    exact hs.passes p d began hφ
  | _ =>
    rw [hφ] at hp
    cases hp

theorem statement_passing {writes : Bool} (hs : Invariant s)
    (he : Enabled s (.statement p c writes))
    (hq : (effect s (.statement p c writes)).phase p = .passing d began) :
    UnderWay (next s (.statement p c writes)) d began := by
  have hφ := hq
  simp only [effect, Function.update_self] at hφ
  obtain ⟨rfl, rfl⟩ := Phase.passing.inj hφ
  obtain ⟨hp, hans⟩ := he
  have hu := passes_under_way hs hp
  have hnow : HeldFrom s c s.clock s.clock := by
    intro n hf hn
    obtain rfl : n = s.clock := by omega
    rw [hs.current]
    exact hs.sessions.leads p c (session_of_passes hp).2 hans.1
  refine under_way_next hs.sessions ⟨hp, hans⟩ hq ?_ ?_ ?_
  · rintro b ⟨⟩
    cases hb : (s.phase p).began with
    | none => exact le_rfl
    | some b => exact hu.past b hb
  · rintro b ⟨⟩ -
    cases hb : (s.phase p).began with
    | none => exact hnow
    | some b => exact hu.held b hb hans.1
  · intro w hw
    simp only [effect, Function.update_self, writes_statement, List.mem_append] at hw
    rcases hw with hw | hw
    · obtain ⟨hwc, b, hb, hlo, hhi⟩ := hu.writes w hw
      rw [hb]
      exact ⟨hwc, b, rfl, hlo, hhi⟩
    · split at hw
      · obtain rfl := List.mem_singleton.mp hw
        refine ⟨rfl, _, rfl, ?_, le_rfl⟩
        cases hb : (s.phase p).began with
        | none => exact le_rfl
        | some b => exact hu.past b hb
      · cases hw

theorem effect_passing (hs : Invariant s) (he : Enabled s e) (ha : actor e = some q)
    (hq : (effect s e).phase q = .passing d began) : UnderWay (next s e) d began := by
  cases e with
  | tryLock p c =>
    obtain rfl := Option.some.inj ha
    have hφ := hq
    simp only [effect, Function.update_self] at hφ
    split at hφ
    · obtain ⟨rfl, rfl⟩ := Phase.passing.inj hφ
      refine under_way_next hs.sessions he hq (by simp) (by simp) fun w hw => ?_
      simp only [effect, Function.update_self, writes_statement, List.append_nil] at hw
      rw [hs.quiet p c (Or.inr he.1)] at hw
      cases hw
    · cases hφ
  | lead p c =>
    obtain rfl := Option.some.inj ha
    have hφ := hq
    simp only [effect, State.setPhase, Function.update_self] at hφ
    obtain ⟨rfl, rfl⟩ := Phase.passing.inj hφ
    refine under_way_next hs.sessions he hq (by simp) (by simp) fun w hw => ?_
    have hw : w ∈ (s.txn c).writes := hw
    rw [hs.quiet p c (Or.inl he.1)] at hw
    cases hw
  | statement p c writes =>
    obtain rfl := Option.some.inj ha
    exact statement_passing hs he hq
  | unlock p c =>
    obtain rfl := Option.some.inj ha
    by_cases hans : s.answers c <;> simp [effect, State.setPhase, hans] at hq
  | shutdown p =>
    obtain rfl := Option.some.inj ha
    simp only [effect, Function.update_self] at hq
    cases hφ : (s.phase p).session <;> simp [hφ] at hq
  | endSession c => cases ha
  | connect p c | tryLockError p c | sqlError p c | pythonError p c | commit p c | close p c
  | exit p =>
    obtain rfl := Option.some.inj ha
    simp [effect, State.setPhase] at hq

theorem step_quiet (hs : Invariant s) (he : Enabled s e)
    (hq : (effect s e).phase q = .waiting (some d) ∨ (effect s e).phase q = .trying d) :
    ((effect s e).txn d).writes = [] := by
  by_cases ha : actor e = some q
  · cases e with
    | connect p c =>
      obtain rfl := Option.some.inj ha
      simp only [effect, Function.update_self, reduceCtorEq, Phase.trying.injEq,
        false_or] at hq
      subst hq
      simp [effect, Txn.writes]
    | commit p c =>
      obtain rfl := Option.some.inj ha
      simp only [effect, Function.update_self, reduceCtorEq, Phase.waiting.injEq, or_false,
        Option.some.injEq] at hq
      subst hq
      simp [effect, Txn.writes]
    | tryLock p c =>
      obtain rfl := Option.some.inj ha
      simp only [effect, Function.update_self] at hq
      split at hq <;> simp at hq
    | unlock p c =>
      obtain rfl := Option.some.inj ha
      by_cases hans : s.answers c <;> simp [effect, State.setPhase, hans] at hq
    | shutdown p =>
      obtain rfl := Option.some.inj ha
      simp only [effect, Function.update_self] at hq
      cases hφ : (s.phase p).session <;> simp [hφ] at hq
    | endSession c => cases ha
    | tryLockError p c | lead p c | statement p c writes | sqlError p c | pythonError p c
    | close p c | exit p =>
      obtain rfl := Option.some.inj ha
      simp [effect, State.setPhase] at hq
  · rw [effect_phase ha] at hq
    have hd : (s.phase q).session = some d := by
      rcases hq with h | h <;> rw [h] <;> rfl
    obtain ⟨hw, -⟩ := effect_other hs.sessions he ha hd
    refine List.eq_nil_iff_forall_not_mem.2 fun w hm => ?_
    have hm := hw w hm
    rw [hs.quiet q d hq] at hm
    cases hm

/-- A pass goes on by steps of its own, and a step of another process does not touch it. -/
theorem step_passes (hs : Invariant s) (he : Enabled s e)
    (hq : (effect s e).phase q = .passing d began) : UnderWay (next s e) d began := by
  by_cases ha : actor e = some q
  · exact effect_passing hs he ha hq
  · have hφ : s.phase q = .passing d began := by
      rw [← effect_phase ha]
      exact hq
    have hu := hs.passes q d began hφ
    obtain ⟨hw, hal⟩ := effect_other (d := d) hs.sessions he ha (by rw [hφ]; rfl)
    exact under_way_next hs.sessions he hq hu.past (fun b hb h => hu.held b hb (hal h))
      fun w hm => hu.writes w (hw w hm)

/-- What a commit records: the pass is held to its commit, and its writes are its own. -/
theorem commit_fenced (hs : Invariant s) (he : Enabled s (.commit p c)) :
    Fenced (next s (.commit p c))
      ⟨p, c, (s.phase p).began.getD s.clock, s.clock + 1, (s.txn c).writes⟩ := by
  obtain ⟨hp, hans, hb⟩ := he
  obtain ⟨b, hb⟩ := Option.isSome_iff_exists.1 hb
  have hu := passes_under_way hs hp
  have hbs := hu.past b hb
  have hnow : holder (effect s (.commit p c)).lock = some c :=
    hs.sessions.leads p c (session_of_passes hp).2 hans.1
  rw [hb]
  constructor
  · exact hs.sessions.owned p c (session_of_passes hp).1
  · exact Nat.le_succ_of_le hbs
  · exact le_rfl
  · exact next_held_on (hu.held b hb hans.1) hnow
  · intro w hw
    obtain ⟨hwc, b', hb', hlo, hhi⟩ := hu.writes w hw
    obtain rfl : b = b' := Option.some.inj (hb.symm.trans hb')
    exact ⟨hwc, hlo, Nat.le_succ_of_le hhi⟩

theorem effect_committed (e : Event) : (effect s e).committed = s.committed ∨
    ∃ p c, e = .commit p c ∧ (effect s e).committed =
      ⟨p, c, (s.phase p).began.getD s.clock, s.clock + 1, (s.txn c).writes⟩ :: s.committed := by
  cases e with
  | commit p c => exact Or.inr ⟨p, c, rfl, rfl⟩
  | unlock p c =>
    left
    by_cases hans : s.answers c <;> simp [effect, State.setPhase, hans]
  | _ => exact Or.inl rfl

theorem step_invariant (hs : Invariant s) (h : system.step s e t) : Invariant t := by
  have hsessions := step_sessions hs.sessions h
  obtain ⟨he, rfl⟩ := h
  constructor
  · exact hsessions
  · rw [next_clock]
    simp [next, State.tick, (effect_clock s e).1]
  · exact fun p c => step_quiet hs he
  · exact fun p c began => step_passes hs he
  · intro k hk
    rcases effect_committed (s := s) e with hc | ⟨p, c, rfl, hc⟩
    · exact (hs.recorded k (hc ▸ hk)).next he
    · have hk : k ∈ (effect s (.commit p c)).committed := hk
      rw [hc, List.mem_cons] at hk
      rcases hk with rfl | hk
      · exact commit_fenced hs he
      · exact (hs.recorded k hk).next he

theorem reachable_invariant (h : system.Reachable s) : Invariant s := by
  apply h.invariant (P := Invariant)
  · rintro _ rfl
    constructor
    · exact initial_sessions
    · rfl
    · simp [initial]
    · simp [initial]
    · simp [initial]
  · exact fun _ _ _ _ hs he => step_invariant hs he

end Steps

/-- One lock is not held on two sessions at a time. -/
theorem fenced_apart {s : State} {k m : Pass} (hk : Fenced s k) (hm : Fenced s m)
    (hkm : k.process ≠ m.process) : k.committed < m.began ∨ m.committed < k.began := by
  by_contra hover
  rw [not_or, not_lt, not_lt] at hover
  obtain ⟨hmk, hkm'⟩ := hover
  let n := max k.began m.began
  have hk' : s.holderAt n = some k.session :=
    hk.held n (le_max_left _ _) (max_le hk.order hmk)
  have hm' : s.holderAt n = some m.session :=
    hm.held n (le_max_right _ _) (max_le hkm' hm.order)
  have hsession : k.session = m.session := Option.some.inj (hk'.symm.trans hm')
  exact hkm (Option.some.inj (hk.owner.symm.trans (hsession ▸ hm.owner)))

/-- Every committed pass held the lock on the session that it wrote through from its first read to
its commit, so it held it at each of its writes, and passes of different processes do not
overlap. -/
theorem committed_passes_are_serial (s : State) (h : system.Reachable s) :
    (∀ k ∈ s.committed, s.owner k.session = some k.process ∧
      HeldFrom s k.session k.began k.committed ∧
      ∀ w ∈ k.writes, w.session = k.session ∧ k.began ≤ w.madeAt ∧ w.madeAt ≤ k.committed ∧
        HeldFrom s w.session w.madeAt k.committed) ∧
    ∀ k ∈ s.committed, ∀ m ∈ s.committed, k.process ≠ m.process →
      k.committed < m.began ∨ m.committed < k.began := by
  have hs := reachable_invariant h
  refine ⟨fun k hk => ?_, fun k hk m hm => fenced_apart (hs.recorded k hk) (hs.recorded m hm)⟩
  have hf := hs.recorded k hk
  refine ⟨hf.owner, hf.held, fun w hw => ?_⟩
  obtain ⟨hwk, hlo, hhi⟩ := hf.writes w hw
  refine ⟨hwk, hlo, hhi, fun n hn => ?_⟩
  rw [hwk]
  exact hf.held n (Nat.le_trans hlo hn)

section Standby

def takeover : List Event :=
  [.connect 0 10, .tryLock 0 10, .connect 1 20, .tryLock 1 20, .close 1 20, .statement 0 10 true,
    .commit 0 10, .shutdown 0, .unlock 0 10, .close 0 10, .connect 1 20, .tryLock 1 20,
    .statement 1 20 true, .commit 1 20]

theorem committed_passes_are_serial_takeover : ∃ s, system.Reachable s ∧
    s.committed = [⟨1, 20, 12, 14, [⟨20, 12⟩]⟩, ⟨0, 10, 5, 7, [⟨10, 5⟩]⟩] ∧
    HeldFrom s 20 12 14 ∧ HeldFrom s 10 5 7 := by
  have hrun : (runList Enabled next initial takeover).map State.committed =
      some [⟨1, 20, 12, 14, [⟨20, 12⟩]⟩, ⟨0, 10, 5, 7, [⟨10, 5⟩]⟩] := by decide +kernel
  obtain ⟨s, hs, hk⟩ := Option.map_eq_some_iff.mp hrun
  have hr : system.Reachable s := ⟨initial, rfl, runList_execution _ _ _ hs⟩
  obtain ⟨hfenced, -⟩ := committed_passes_are_serial s hr
  rw [hk] at hfenced
  obtain ⟨-, hstandby, -⟩ := hfenced ⟨1, 20, 12, 14, [⟨20, 12⟩]⟩ (by simp)
  obtain ⟨-, hleader, -⟩ := hfenced ⟨0, 10, 5, 7, [⟨10, 5⟩]⟩ (by simp)
  exact ⟨s, hr, hk, hstandby, hleader⟩

end Standby

end SerialPasses
