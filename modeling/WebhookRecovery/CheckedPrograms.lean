import WebhookRecovery.InterleavedPrograms

/-! Programs that run with nobody in between, and what two runs from states that agree have in
common. A transaction is such a program with checks, and one that fails
a check leaves nothing behind. -/
namespace CheckedPrograms

open InterleavedPrograms

variable {σ ε α β : Type}

section Runs

variable {p : Program σ α} {f : α → Program σ β} {s : σ}

theorem run_bind (p : Program σ α) (f : α → Program σ β) (s : σ) :
    (p >>= f).run s = (f (p.run s).1).run (p.run s).2 := by
  induction p generalizing s with
  | ret a => rfl
  | stmt w n ih => exact ih s (w s)

@[simp] theorem run_pure (a : α) (s : σ) : (pure a : Program σ α).run s = (a, s) := rfl

@[simp] theorem run_read (q : σ → α) (s : σ) : (Program.read q).run s = (q s, s) := rfl

@[simp] theorem run_write (w : σ → σ) (s : σ) : (Program.write w).run s = ((), w s) := rfl

/-- Whatever writes the program makes lead from the state before it to the one after it. -/
theorem run_of_writes {W : σ → σ → Prop} (refl : ∀ s, W s s)
    (trans : ∀ s t u, W s t → W t u → W s u) (hp : p.Writes W) : W s (p.run s).2 := by
  induction p generalizing s with
  | ret a => exact refl s
  | stmt w n ih => exact trans _ _ _ (hp s).1 (ih s (hp s).2)

end Runs

/-- From states that agree a program returns the same result, in states that agree. -/
def Lockstep (R : σ → σ → Prop) (p : Program σ α) : Prop :=
  ∀ s t, R s t → (p.run s).1 = (p.run t).1 ∧ R (p.run s).2 (p.run t).2

/-- Statement by statement, from states that agree a program goes on alike, in states that
agree. -/
def Local (R : σ → σ → Prop) : Program σ α → Prop
  | .ret _ => True
  | .stmt w n => ∀ s t, R s t → R (w s) (w t) ∧ n s = n t ∧ Local R (n s)

section Lockstep

variable {R : σ → σ → Prop} {p : Program σ α} {f : α → Program σ β}

theorem Local.lockstep (h : Local R p) : Lockstep R p := by
  induction p with
  | ret a => exact fun _ _ hst => ⟨rfl, hst⟩
  | stmt w n ih =>
    intro s t hst
    obtain ⟨hwrite, hnext, hrest⟩ := h s t hst
    have hrun := ih s hrest _ _ hwrite
    rw [Program.run, Program.run, ← hnext]
    exact hrun

theorem Local.bind (hp : Local R p) (hf : ∀ a, Local R (f a)) : Local R (p >>= f) := by
  induction p with
  | ret a => exact hf a
  | stmt w n ih =>
    intro s t hst
    obtain ⟨hwrite, hnext, hrest⟩ := hp s t hst
    exact ⟨hwrite, congrArg (· >>= f) hnext, ih s hrest⟩

theorem Local.read {q : σ → α} (h : ∀ s t, R s t → q s = q t) : Local R (Program.read q) :=
  fun s t hst => ⟨hst, congrArg Program.ret (h s t hst), trivial⟩

theorem Local.write {w : σ → σ} (h : ∀ s t, R s t → R (w s) (w t)) :
    Local R (Program.write w) := fun s t hst => ⟨h s t hst, rfl, trivial⟩

theorem Local.pure (a : α) : Local R (Pure.pure a : Program σ α) := trivial

end Lockstep

abbrev Transaction (ε σ α : Type) := StateT σ (Except ε) α

def execute (p : Program σ α) : Transaction ε σ α := fun s => .ok (p.run s)

def check (ok : σ → Prop) [DecidablePred ok] (e : ε) : Transaction ε σ Unit := fun s =>
  if ok s then .ok ((), s) else .error e

def commit (m : Transaction ε σ α) (s : σ) : σ :=
  match m s with
  | .ok (_, t) => t
  | .error _ => s

/-- The transaction does what the program does where the condition holds, and raises elsewhere. -/
structure Checks (ok : σ → Prop) (m : Transaction ε σ α) (p : Program σ α) : Prop where
  succeeds : ∀ s, ok s → m s = .ok (p.run s)
  raises : ∀ s, ¬ ok s → ∃ e, m s = .error e

section Checks

variable {ok : σ → Prop} {m : Transaction ε σ α} {p : Program σ α} {s : σ}

theorem Checks.congr {ok' : σ → Prop} (h : Checks ok m p) (hok : ∀ s, ok' s ↔ ok s) :
    Checks ok' m p :=
  ⟨fun s hs => h.succeeds s ((hok s).mp hs), fun s hs => h.raises s (mt (hok s).mpr hs)⟩

theorem Checks.execute (p : Program σ α) :
    Checks (fun _ => True) (execute p : Transaction ε σ α) p :=
  ⟨fun _ _ => rfl, fun _ h => absurd trivial h⟩

theorem Checks.pure (a : α) :
    Checks (fun _ => True) (Pure.pure a : Transaction ε σ α) (Pure.pure a) :=
  ⟨fun _ _ => rfl, fun _ h => absurd trivial h⟩

theorem Checks.check {c : σ → Prop} [DecidablePred c] {e : ε} (h : Checks ok m p) :
    Checks (fun s => c s ∧ ok s) (check c e >>= fun _ => m) p := by
  have hbind : ∀ s, (CheckedPrograms.check c e >>= fun _ => m) s =
      if c s then m s else .error e := by
    intro s
    change Except.bind (if c s then Except.ok ((), s) else .error e) _ = _
    split <;> rfl
  constructor
  · rintro s ⟨hc, hok⟩
    rw [hbind, if_pos hc]
    exact h.succeeds s hok
  · intro s hs
    rw [hbind]
    by_cases hc : c s
    · rw [if_pos hc]
      exact h.raises s fun hok => hs ⟨hc, hok⟩
    · rw [if_neg hc]
      exact ⟨e, rfl⟩

theorem Checks.bind {okf : α → σ → Prop} {n : α → Transaction ε σ β} {f : α → Program σ β}
    (hm : Checks ok m p) (h : ∀ a, Checks (okf a) (n a) (f a)) :
    Checks (fun s => ok s ∧ okf (p.run s).1 (p.run s).2) (m >>= n) (p >>= f) := by
  have hbind : ∀ s, (m >>= n) s = Except.bind (m s) fun x => n x.1 x.2 := fun s => rfl
  constructor
  · rintro s ⟨hs, hok⟩
    rw [hbind, hm.succeeds s hs, run_bind]
    exact (h _).succeeds _ hok
  · intro s hs
    rw [hbind]
    by_cases hok : ok s
    · rw [hm.succeeds s hok]
      exact (h _).raises _ fun hf => hs ⟨hok, hf⟩
    · obtain ⟨e, he⟩ := hm.raises s hok
      rw [he]
      exact ⟨e, rfl⟩

theorem Checks.ite {c : Prop} [Decidable c] {ok' : σ → Prop} {m' : Transaction ε σ α}
    {p' : Program σ α} (h : Checks ok m p) (h' : Checks ok' m' p') :
    Checks (fun s => if c then ok s else ok' s) (if c then m else m') (if c then p else p') := by
  split
  · exact h
  · exact h'

theorem Checks.commit_of_ok (h : Checks ok m p) (hs : ok s) : commit m s = (p.run s).2 := by
  rw [commit, h.succeeds s hs]

theorem Checks.commit_of_not (h : Checks ok m p) (hs : ¬ ok s) : commit m s = s := by
  obtain ⟨e, he⟩ := h.raises s hs
  rw [commit, he]

end Checks

end CheckedPrograms
