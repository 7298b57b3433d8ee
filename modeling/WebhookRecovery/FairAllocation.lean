import WebhookRecovery.DeliveryAdmission
import WebhookRecovery.RoundRobin
import Mathlib.Algebra.Order.BigOperators.Group.List

/-! How even the grants of successive passes come out when every consumer of one weight has work
and room for the whole budget. Fairness is per pass, not a deficit carried across passes. -/
namespace FairAllocation

open RecoverySchema DeliveryAdmission RoundRobin

/-- One pass over these consumers, all of the same weight, in which each could take the whole
budget. -/
structure Contended (ids : Finset ConsumerId) where
  states : List ConsumerState
  headroom : ConsumerId → ℤ
  budget : ℤ
  weight : ℚ
  consumers : (states.map ConsumerState.id).toFinset = ids
  weight_pos : 0 < weight
  equal : ∀ s ∈ states, s.weight = weight
  budget_nonneg : 0 ≤ budget
  room : ∀ c ∈ ids, budget ≤ headroom c

variable {ids : Finset ConsumerId}

def Contended.grants (p : Contended ids) (c : ConsumerId) : ℕ :=
  allocate p.states p.headroom p.budget c

def cumulative (passes : List (Contended ids)) (c : ConsumerId) : ℕ :=
  (passes.map fun p => p.grants c).sum

def Contended.uneven (p : Contended ids) : Bool := p.budget.toNat % ids.card != 0

section Pass

variable (p : Contended ids) {c m : ConsumerId} {a : Allocation} {k : ℕ}

theorem weightOf_contended (hc : c ∈ ids) : weightOf p.states c = p.weight := by
  rw [← p.consumers, List.mem_toFinset] at hc
  obtain ⟨s, hs, hid⟩ := List.mem_map.mp hc
  have hsome : (p.states.find? fun s => s.id == c).isSome := by
    apply List.find?_isSome.mpr
    exact ⟨s, hs, beq_iff_eq.mpr hid⟩
  obtain ⟨r, hr⟩ := Option.isSome_iff_exists.mp hsome
  rw [weightOf, hr]
  exact p.equal r (List.mem_of_find?_eq_some hr)

theorem weighted_le {w : ℚ} (hw : 0 < w) {x y : ℕ} {d : ConsumerId}
    (h : (toLex (x, c) : ℕ ×ₗ ConsumerId) ≤ toLex (y, d)) :
    (toLex ((x : ℚ) / w, c) : ℚ ×ₗ ConsumerId) ≤ toLex ((y : ℚ) / w, d) := by
  rw [Prod.Lex.toLex_le_toLex] at h ⊢
  rcases h with h | ⟨h, hcd⟩
  · exact Or.inl (div_lt_div_of_pos_right (Nat.cast_lt.mpr h) hw)
  · have hxy : x = y := h
    exact Or.inr ⟨by rw [hxy], hcd⟩

theorem furthestBehind_eq {weights : ConsumerId → ℚ} {granted : ConsumerId → ℕ}
    {active : List ConsumerId} (hm : m ∈ active)
    (h : ∀ c ∈ active, (toLex ((granted m : ℚ) / weights m, m) : ℚ ×ₗ ConsumerId) ≤
      toLex ((granted c : ℚ) / weights c, c)) :
    furthestBehind weights granted active = some m := by
  cases hw : furthestBehind weights granted active with
  | none =>
    rw [furthestBehind, List.argmin_eq_none] at hw
    rw [hw] at hm
    cases hm
  | some w =>
    have hmem := furthestBehind_mem hw
    have heq := le_antisymm (List.le_of_mem_argmin hm hw) (h w hmem)
    exact congrArg some (congrArg Prod.snd (toLex.injective heq))

variable (ids) in
structure Even (k : ℕ) (a : Allocation) : Prop where
  active : ∀ c, c ∈ a.active ↔ c ∈ ids
  granted : ∀ c ∈ ids, a.granted c = share ids k c

theorem furthestBehind_even (h : Even ids k a) (hm : m ∈ ids)
    (hr : rank ids m = k % ids.card) :
    furthestBehind (weightOf p.states) a.granted a.active = some m := by
  apply furthestBehind_eq ((h.active m).mpr hm)
  intro c hc
  have hc := (h.active c).mp hc
  rw [weightOf_contended p hm, weightOf_contended p hc, h.granted m hm, h.granted c hc]
  exact weighted_le p.weight_pos (share_least hr hc)

theorem grantSlot_granted (h : Even ids k a) (hne : ids.Nonempty) :
    ∀ c ∈ ids, (grantSlot (weightOf p.states) p.headroom a).granted c = share ids (k + 1) c := by
  obtain ⟨m, hm, hr⟩ := exists_rank (Nat.mod_lt k hne.card_pos)
  intro c hc
  rw [grantSlot, furthestBehind_even p h hm hr, share_succ hm hr hc]
  by_cases hcm : c = m
  · subst hcm
    rw [if_pos rfl, ← h.granted c hc]
    exact Function.update_self _ _ _
  · rw [if_neg hcm, ← h.granted c hc]
    exact Function.update_of_ne hcm _ _

/-- A slot that is not the last one leaves everybody active. -/
theorem grantSlot_even (h : Even ids k a) (hne : ids.Nonempty)
    (hk : (k : ℤ) + 1 < p.budget) :
    Even ids (k + 1) (grantSlot (weightOf p.states) p.headroom a) := by
  refine ⟨?_, grantSlot_granted p h hne⟩
  obtain ⟨m, hm, hr⟩ := exists_rank (Nat.mod_lt k hne.card_pos)
  have hroom := p.room m hm
  have hshare := share_le (s := ids) (k := k) m
  have hdiv := Nat.div_le_self k ids.card
  have hbelow : ¬ p.headroom m ≤ ((a.granted m + 1 : ℕ) : ℤ) := by
    rw [h.granted m hm]
    have hm' : share ids k m = k / ids.card := by simp [share, hr]
    rw [hm']
    omega
  intro c
  rw [grantSlot, furthestBehind_even p h hm hr]
  simp only [Function.update_self]
  rw [if_neg hbelow]
  exact h.active c

theorem start_even (hb : 0 < p.budget) :
    Even ids 0 (allocateStart p.states p.headroom) := by
  constructor
  · intro c
    have hids : c ∈ p.states.map ConsumerState.id ↔ c ∈ ids := by
      rw [← List.mem_toFinset, p.consumers]
    simp only [allocateStart, List.mem_dedup, List.mem_filter, decide_eq_true_eq, hids]
    constructor
    · exact fun h => h.1
    · intro hc
      have hroom := p.room c hc
      exact ⟨hc, by omega⟩
  · intro c _
    exact (share_zero c).symm

theorem loop_even (hne : ids.Nonempty) (hk : (k : ℤ) < p.budget) :
    Even ids k ((grantSlot (weightOf p.states) p.headroom)^[k]
      (allocateStart p.states p.headroom)) := by
  induction k with
  | zero => exact start_even p (by simpa using hk)
  | succ k ih =>
    rw [Function.iterate_succ_apply']
    push_cast at hk
    exact grantSlot_even p (ih (by omega)) hne hk

/-- One pass shares its budget as evenly as it can, the first consumers by id being ahead. -/
theorem grants_share {c : ConsumerId} (hc : c ∈ ids) :
    p.grants c = share ids p.budget.toNat c := by
  have hb := p.budget_nonneg
  unfold Contended.grants allocate
  cases hn : p.budget.toNat with
  | zero => exact (share_zero c).symm
  | succ k =>
    rw [Function.iterate_succ_apply']
    exact grantSlot_granted p (loop_even p ⟨c, hc⟩ (by omega)) ⟨c, hc⟩ c hc

end Pass

section Passes

variable (passes : List (Contended ids)) {c d : ConsumerId}

theorem cumulative_share (hc : c ∈ ids) :
    cumulative passes c = (passes.map fun p => share ids p.budget.toNat c).sum := by
  unfold cumulative
  congr 1
  apply List.map_congr_left
  intro p _
  exact grants_share p hc

theorem cumulative_difference (hc : c ∈ ids) (hd : d ∈ ids) :
    cumulative passes c ≤ cumulative passes d + passes.countP Contended.uneven := by
  rw [cumulative_share passes hc, cumulative_share passes hd]
  induction passes with
  | nil => simp
  | cons p passes ih =>
    have hstep := share_le_share (s := ids) (k := p.budget.toNat) c d
    rw [List.map_cons, List.sum_cons, List.map_cons, List.sum_cons, List.countP_cons]
    by_cases hu : p.budget.toNat % ids.card = 0
    · have hf : p.uneven = false := by simp [Contended.uneven, hu]
      rw [if_pos hu] at hstep
      simp only [hf, Bool.false_eq_true, if_false]
      omega
    · have ht : p.uneven = true := by simp [Contended.uneven, hu]
      rw [if_neg hu] at hstep
      simp only [ht, if_true]
      omega

theorem le_cumulative (hc : c ∈ ids) :
    (passes.map fun p => p.budget.toNat / ids.card).sum ≤ cumulative passes c := by
  rw [cumulative_share passes hc]
  apply List.sum_le_sum
  intro p _
  exact le_share c

end Passes

/-- In a pass every consumer is granted its whole share of the budget, and the first ones by id
what is left over; over successive passes two consumers differ by at most the number of passes
whose budget does not come out even, and nobody gets less than its whole shares. -/
theorem fair_per_pass (passes : List (Contended ids)) {c d : ConsumerId} (hc : c ∈ ids)
    (hd : d ∈ ids) :
    (∀ p ∈ passes, p.grants c = p.budget.toNat / ids.card +
      if rank ids c < p.budget.toNat % ids.card then 1 else 0) ∧
    cumulative passes c ≤ cumulative passes d + passes.countP Contended.uneven ∧
    (passes.map fun p => p.budget.toNat / ids.card).sum ≤ cumulative passes c := by
  refine ⟨?_, cumulative_difference passes hc hd, le_cumulative passes hc⟩
  intro p _
  exact grants_share p hc

section SingleSlots

def singleSlot : Contended {1, 2} where
  states := [
    { id := 1, weight := 1, concurrencyCap := 4, maxAttemptsPerS := 10, demand := 9,
      attemptsInWindow := 0, inFlight := 0, ready := 0 },
    { id := 2, weight := 1, concurrencyCap := 4, maxAttemptsPerS := 10, demand := 9,
      attemptsInWindow := 0, inFlight := 0, ready := 0 }]
  headroom := fun _ => 9
  budget := 1
  weight := 1
  consumers := by decide
  weight_pos := by decide
  equal := by simp
  budget_nonneg := by decide
  room := by decide

theorem fair_per_pass_single_slots :
    cumulative [singleSlot, singleSlot, singleSlot] 1 ≤
      cumulative [singleSlot, singleSlot, singleSlot] 2 + 3 :=
  (fair_per_pass [singleSlot, singleSlot, singleSlot] (by decide) (by decide)).2.1

/-- Three passes of one slot give all three to the first consumer. -/
theorem single_slots_starve : ¬ ∀ (ids : Finset ConsumerId), 2 ≤ ids.card →
    ∀ (passes : List (Contended ids)), ∀ c ∈ ids, ∀ d ∈ ids,
      cumulative passes c ≤ cumulative passes d + ids.card := by
  intro h
  have hle := h {1, 2} (by decide) [singleSlot, singleSlot, singleSlot] 1 (by decide) 2 (by decide)
  exact absurd hle (by decide +kernel)

end SingleSlots

end FairAllocation
