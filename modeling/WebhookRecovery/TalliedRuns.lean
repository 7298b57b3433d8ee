import WebhookRecovery.InterleavedPrograms
import Mathlib.Algebra.Order.BigOperators.Group.List
import Mathlib.Algebra.Ring.Nat

/-! Runs that keep a tally. Each step has a cost, and a potential pays for it: what a run spends
is bounded by what it had and what it was given on the way. -/
namespace TalliedRuns

open InterleavedPrograms

variable {σ ε : Type}

structure Tally (σ : Type) where
  state : σ
  spent : ℕ

def tallied (S : System σ ε) (cost : σ → σ → ℕ) : System (Tally σ) ε where
  init s := S.init s.state ∧ s.spent = 0
  step s e t := S.step s.state e t.state ∧ t.spent = s.spent + cost s.state t.state

section Runs

variable {S : System σ ε} {cost : σ → σ → ℕ}

theorem tallied_execution {x y : Tally σ} (h : (tallied S cost).Execution x y) :
    S.Execution x.state y.state := by
  induction h with
  | refl => exact .refl
  | tail _ he ih =>
    obtain ⟨e, he⟩ := he
    exact ih.tail ⟨e, he.1⟩

/-- The tally restricts nothing: every run has one. -/
theorem exists_tally {s t : σ} (h : S.Execution s t) (n : ℕ) :
    ∃ m, (tallied S cost).Execution ⟨s, n⟩ ⟨t, m⟩ := by
  induction h with
  | refl => exact ⟨n, .refl⟩
  | @tail u v _ he ih =>
    obtain ⟨e, he⟩ := he
    obtain ⟨m, hm⟩ := ih
    exact ⟨m + cost u v, hm.tail ⟨e, he, rfl⟩⟩

/-- The accounting rule. Each step pays its cost out of the potential `held`, and what raises the
potential is booked in `given`. -/
theorem spent_between {held given : σ → ℕ}
    (pay : ∀ s e t, S.Reachable s → S.step s e t →
      given s + cost s t + held t ≤ given t + held s)
    {x y : Tally σ} (hx : S.Reachable x.state) (h : (tallied S cost).Execution x y) :
    y.spent + held y.state + given x.state ≤ x.spent + held x.state + given y.state := by
  induction h with
  | refl => exact le_rfl
  | @tail u v hu he ih =>
    obtain ⟨e, he, hcost⟩ := he
    have hstep := pay _ _ _ (hx.trans (tallied_execution hu)) he
    rw [hcost]
    omega

end Runs

section Sums

variable {α : Type}

theorem sum_add_countP_le {l : List α} {f g : α → ℕ} {p : α → Bool}
    (h : ∀ x ∈ l, f x + (if p x then 1 else 0) ≤ g x) :
    (l.map f).sum + l.countP p ≤ (l.map g).sum := by
  induction l with
  | nil => exact le_rfl
  | cons x l ih =>
    have hx := h x List.mem_cons_self
    have hl := ih fun y hy => h y (List.mem_cons_of_mem _ hy)
    rw [List.map_cons, List.sum_cons, List.map_cons, List.sum_cons, List.countP_cons]
    omega

theorem sum_ite_const {l : List α} {p : α → Bool} {f : α → ℕ} {n : ℕ}
    (h : ∀ x ∈ l, p x → f x = n) :
    (l.map fun x => if p x then f x else 0).sum = n * l.countP p := by
  induction l with
  | nil => rfl
  | cons x l ih =>
    have hl := ih fun y hy => h y (List.mem_cons_of_mem _ hy)
    rw [List.map_cons, List.sum_cons, hl, List.countP_cons]
    by_cases hp : p x
    · rw [if_pos hp, if_pos hp, h x List.mem_cons_self hp, Nat.mul_add, Nat.mul_one, Nat.add_comm]
    · rw [if_neg hp, if_neg hp, Nat.zero_add, Nat.add_zero]

end Sums

end TalliedRuns
