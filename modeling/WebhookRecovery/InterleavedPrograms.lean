import Mathlib.Logic.Relation

/-! Labelled transition systems, and programs executed one statement at a time.
Between two statements the environment may act; a rely relation bounds what it does,
a guarantee relation records what each statement of the program does in return. -/
namespace InterleavedPrograms

structure System (σ ε : Type) where
  init : σ → Prop
  step : σ → ε → σ → Prop

variable {σ ε : Type}

def System.Execution (S : System σ ε) : σ → σ → Prop :=
  Relation.ReflTransGen fun s t => ∃ e, S.step s e t

def System.Reachable (S : System σ ε) (s : σ) : Prop :=
  ∃ s₀, S.init s₀ ∧ S.Execution s₀ s

def System.restrict (S : System σ ε) (C : σ → ε → Prop) : System σ ε where
  init := S.init
  step s e t := C s e ∧ S.step s e t

theorem System.Reachable.initial {S : System σ ε} {s : σ} (h : S.init s) : S.Reachable s :=
  ⟨s, h, .refl⟩

theorem System.Reachable.tail {S : System σ ε} {s t : σ} {e : ε} (h : S.Reachable s)
    (hs : S.step s e t) : S.Reachable t := by
  obtain ⟨s₀, h₀, hx⟩ := h
  exact ⟨s₀, h₀, hx.tail ⟨e, hs⟩⟩

theorem System.Reachable.trans {S : System σ ε} {s t : σ} (h : S.Reachable s)
    (hx : S.Execution s t) : S.Reachable t := by
  obtain ⟨s₀, h₀, h⟩ := h
  exact ⟨s₀, h₀, Relation.ReflTransGen.trans h hx⟩

/-- The invariant rule; the step case may use that the state before it is reachable. -/
theorem System.Reachable.invariant {S : System σ ε} {P : σ → Prop}
    (init : ∀ s, S.init s → P s)
    (step : ∀ s e t, S.Reachable s → P s → S.step s e t → P t)
    {s : σ} (h : S.Reachable s) : P s := by
  obtain ⟨s₀, h₀, hx⟩ := h
  induction hx with
  | refl => exact init _ h₀
  | tail hx hs ih =>
    obtain ⟨e, hs⟩ := hs
    exact step _ e _ ⟨s₀, h₀, hx⟩ ih hs

/-- A reflexive and transitive relation kept by every step relates the ends of a run. -/
theorem System.Execution.relates {S : System σ ε} {R : σ → σ → Prop}
    (rfl' : ∀ s, R s s) (trans : ∀ s t u, R s t → R t u → R s u)
    (step : ∀ s e t, S.Reachable s → S.step s e t → R s t)
    {s t : σ} (hs : S.Reachable s) (h : S.Execution s t) : R s t := by
  induction h with
  | refl => exact rfl' _
  | tail hx he ih =>
    obtain ⟨e, he⟩ := he
    exact trans _ _ _ ih (step _ e _ (hs.trans hx) he)

theorem System.restrict_execution {S : System σ ε} {C : σ → ε → Prop} {s t : σ}
    (h : (S.restrict C).Execution s t) : S.Execution s t :=
  Relation.ReflTransGen.mono (fun _ _ ⟨e, he⟩ => ⟨e, he.2⟩) _ _ h

theorem System.restrict_reachable {S : System σ ε} {C : σ → ε → Prop} {s : σ}
    (h : (S.restrict C).Reachable s) : S.Reachable s := by
  obtain ⟨s₀, h₀, hx⟩ := h
  exact ⟨s₀, h₀, restrict_execution hx⟩

theorem System.Reachable.weaken {S : System σ ε} {C C' : σ → ε → Prop} {s : σ}
    (h : (S.restrict C).Reachable s) (hC : ∀ s e, C s e → C' s e) :
    (S.restrict C').Reachable s := by
  obtain ⟨s₀, h₀, hx⟩ := h
  exact ⟨s₀, h₀, Relation.ReflTransGen.mono (fun _ _ ⟨e, he⟩ => ⟨e, hC _ _ he.1, he.2⟩) _ _ hx⟩

section Guarded

variable (init : σ → Prop) (enabled : σ → ε → Prop) (next : σ → ε → σ)

/-- A system whose steps are computed: a guard on each label, and the state it leads to. -/
def System.guarded : System σ ε where
  init := init
  step s e t := enabled s e ∧ t = next s e

variable [∀ s, DecidablePred (enabled s)]

def runList (s : σ) : List ε → Option σ
  | [] => some s
  | e :: es => if enabled s e then runList (next s e) es else none

theorem runList_execution {s t : σ} {es : List ε} (h : runList enabled next s es = some t) :
    (System.guarded init enabled next).Execution s t := by
  induction es generalizing s with
  | nil =>
    obtain rfl := Option.some.inj h
    exact .refl
  | cons e es ih =>
    rw [runList] at h
    split at h
    · rename_i he
      exact .head ⟨e, he, rfl⟩ (ih h)
    · cases h

theorem runList_restricted {C : σ → ε → Prop} [∀ s, DecidablePred (C s)] {s t : σ} {es : List ε}
    (h : runList (fun s e => C s e ∧ enabled s e) next s es = some t) :
    ((System.guarded init enabled next).restrict C).Execution s t :=
  Relation.ReflTransGen.mono (fun _ _ ⟨e, he⟩ => ⟨e, he.1.1, he.1.2, he.2⟩) _ _
    (runList_execution init (fun s e => C s e ∧ enabled s e) next h)

end Guarded

/-- Each statement writes the state and continues with what it read before writing. -/
inductive Program (σ : Type) (α : Type) : Type where
  | ret (a : α)
  | stmt (write : σ → σ) (next : σ → Program σ α)

namespace Program

variable {α β : Type}

def bind : Program σ α → (α → Program σ β) → Program σ β
  | .ret a, f => f a
  | .stmt w n, f => .stmt w fun s => (n s).bind f

instance : Monad (Program σ) where
  pure := .ret
  bind := bind

def read (q : σ → α) : Program σ α := .stmt id fun s => .ret (q s)

def write (f : σ → σ) : Program σ Unit := .stmt f fun _ => .ret ()

def run : Program σ α → σ → α × σ
  | .ret a, s => (a, s)
  | .stmt w n, s => (n s).run (w s)

/-- From `s` on, whatever the environment does within `R`, every statement stays within
`G`, and the result satisfies `Q` in the state it is returned in. -/
def Guarantees (R G : σ → σ → Prop) : Program σ α → (α → σ → Prop) → σ → Prop
  | .ret a, Q, s => Q a s
  | .stmt w n, Q, s => ∀ t, R s t → G t (w t) ∧ (n t).Guarantees R G Q (w t)

section Rules

variable {R G : σ → σ → Prop} {Q : α → σ → Prop}

/-- What is guaranteed now is guaranteed after any step of the environment. -/
theorem Guarantees.rely (trans : ∀ s t u, R s t → R t u → R s u)
    (stable : ∀ a s t, R s t → Q a s → Q a t) {p : Program σ α} {s t : σ}
    (h : p.Guarantees R G Q s) (hr : R s t) : p.Guarantees R G Q t := by
  cases p with
  | ret a => exact stable a s t hr h
  | stmt w n => exact fun u hu => h u (trans _ _ _ hr hu)

/-- An environment that does less is relied on, and what is promised of a statement is kept. -/
theorem Guarantees.weaken {R' G' : σ → σ → Prop} (hR : ∀ s t, R' s t → R s t)
    (hG : ∀ s t, G s t → G' s t) {p : Program σ α} {s : σ} (h : p.Guarantees R G Q s) :
    p.Guarantees R' G' Q s := by
  induction p generalizing s with
  | ret a => exact h
  | stmt w n ih =>
    intro t ht
    obtain ⟨hw, hn⟩ := h t (hR _ _ ht)
    exact ⟨hG _ _ hw, ih t hn⟩

theorem Guarantees.bind {p : Program σ α} {f : α → Program σ β} {Q : β → σ → Prop} {s : σ}
    (h : p.Guarantees R G (fun a t => (f a).Guarantees R G Q t) s) :
    (p >>= f).Guarantees R G Q s := by
  induction p generalizing s with
  | ret a => exact h
  | stmt w n ih => exact fun t ht => ⟨(h t ht).1, ih t (h t ht).2⟩

theorem Guarantees.read {q : σ → α} {s : σ} (h : ∀ t, R s t → G t t ∧ Q (q t) t) :
    (read q).Guarantees R G Q s := h

theorem Guarantees.write {f : σ → σ} {Q : Unit → σ → Prop} {s : σ}
    (h : ∀ t, R s t → G t (f t) ∧ Q () (f t)) : (write f).Guarantees R G Q s := h

theorem Guarantees.pure {a : α} {s : σ} (h : Q a s) :
    (Pure.pure a : Program σ α).Guarantees R G Q s := h

end Rules

/-- Whatever the state, each write of the program is a step of `W`. -/
def Writes (W : σ → σ → Prop) : Program σ α → Prop
  | .ret _ => True
  | .stmt w n => ∀ s, W s (w s) ∧ (n s).Writes W

section Writes

variable {W R G : σ → σ → Prop}

theorem Writes.mono {W' : σ → σ → Prop} (h : ∀ s t, W s t → W' s t) {p : Program σ α}
    (hp : p.Writes W) : p.Writes W' := by
  induction p with
  | ret a => exact trivial
  | stmt w n ih => exact fun s => ⟨h _ _ (hp s).1, ih s (hp s).2⟩

theorem Writes.bind {p : Program σ α} {f : α → Program σ β} (hp : p.Writes W)
    (hf : ∀ a, (f a).Writes W) : (p >>= f).Writes W := by
  induction p with
  | ret a => exact hf a
  | stmt w n ih => exact fun s => ⟨(hp s).1, ih s (hp s).2⟩

theorem Writes.read (refl : ∀ s, W s s) (q : σ → α) : (read q).Writes W :=
  fun s => ⟨refl s, trivial⟩

theorem Writes.write {f : σ → σ} (h : ∀ s, W s (f s)) : (write f).Writes W :=
  fun s => ⟨h s, trivial⟩

theorem Writes.pure (a : α) : (Pure.pure a : Program σ α).Writes W := trivial

/-- The result is returned in a state that the environment and such writes lead to. -/
theorem Writes.guarantees {S : σ → σ → Prop} (refl : ∀ s, S s s)
    (trans : ∀ s t u, S s t → S t u → S s u) (hR : ∀ s t, R s t → S s t)
    (hW : ∀ s t, W s t → S s t) (hG : ∀ s t, W s t → G s t) {p : Program σ α} (hp : p.Writes W)
    {Q : α → σ → Prop} {s : σ} (h : ∀ a t, S s t → Q a t) : p.Guarantees R G Q s := by
  induction p generalizing s with
  | ret a => exact h a s (refl s)
  | stmt w n ih =>
    intro t ht
    obtain ⟨hw, hn⟩ := hp t
    have hstep : S s (w t) := trans _ _ _ (hR _ _ ht) (hW _ _ hw)
    exact ⟨hG _ _ hw, ih t hn fun a u hu => h a u (trans _ _ _ hstep hu)⟩

end Writes

end Program

end InterleavedPrograms
