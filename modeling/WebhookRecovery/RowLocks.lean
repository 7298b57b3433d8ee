import Mathlib.Logic.Relation
import Mathlib.Logic.Function.Basic

/-! Row locks. A row has one holder at most, and a transaction that wants a row somebody else
holds waits for the holder. A cycle of transactions that wait is a deadlock. -/
namespace RowLocks

variable {τ ρ : Type}

/-- Who holds each row; holding is exclusive by construction. -/
abbrev Locks (ρ τ : Type) := ρ → Option τ

def Waits (wanted : τ → Option ρ) (locks : Locks ρ τ) (t u : τ) : Prop :=
  ∃ r, wanted t = some r ∧ locks r = some u ∧ u ≠ t

def Deadlock (wanted : τ → Option ρ) (locks : Locks ρ τ) : Prop :=
  ∃ t, Relation.TransGen (Waits wanted locks) t t

section Cycles

variable {wanted : τ → Option ρ} {locks : Locks ρ τ} {t u : τ}

theorem deadlock_of_mutual (h : Waits wanted locks t u) (k : Waits wanted locks u t) :
    Deadlock wanted locks := ⟨t, (Relation.TransGen.single h).tail k⟩

/-- Nobody is on a cycle when all who wait, wait for one that never waits. -/
theorem not_deadlock_of_sink {c : τ} (hc : ∀ u, ¬ Waits wanted locks c u)
    (h : ∀ t u, Waits wanted locks t u → u = c) : ¬ Deadlock wanted locks := by
  rintro ⟨t, ht⟩
  obtain ⟨u, _, hu⟩ := Relation.TransGen.tail'_iff.mp ht
  have htc := h u t hu
  subst htc
  obtain ⟨v, hv, _⟩ := Relation.TransGen.head'_iff.mp ht
  exact hc v hv

end Cycles

section Holding

variable {locks : Locks ρ τ} {t u : τ} {r : ρ}

def acquireAll (locks : Locks ρ τ) (t : τ) (p : ρ → Bool) : Locks ρ τ := fun r =>
  if p r then some t else locks r

theorem acquireAll_eq_some {p : ρ → Bool} (h : acquireAll locks t p r = some u) :
    p r ∧ u = t ∨ ¬ p r ∧ locks r = some u := by
  unfold acquireAll at h
  split at h
  · rename_i hp
    exact Or.inl ⟨hp, (Option.some.inj h).symm⟩
  · rename_i hp
    exact Or.inr ⟨hp, h⟩

variable [DecidableEq τ]

def release (locks : Locks ρ τ) (t : τ) : Locks ρ τ := fun r =>
  if locks r = some t then none else locks r

theorem release_eq_some : release locks t r = some u ↔ locks r = some u ∧ u ≠ t := by
  unfold release
  split
  · rename_i h
    rw [h]
    constructor
    · intro hn
      cases hn
    · rintro ⟨htu, hne⟩
      exact absurd (Option.some.inj htu).symm hne
  · rename_i h
    constructor
    · intro hu
      exact ⟨hu, fun hut => h (hut ▸ hu)⟩
    · exact fun hu => hu.1

end Holding

end RowLocks
