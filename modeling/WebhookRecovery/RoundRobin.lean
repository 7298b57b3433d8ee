import Mathlib.Data.Finset.Card
import Mathlib.Data.Prod.Lex
import Mathlib.Tactic.Ring

/-! Round robin by counting: every slot goes to the member with the fewest slots so far, ties
broken on the member itself. After any number of slots the counts are as even as they can be,
and the members that are ahead are the first ones in order. -/
namespace RoundRobin

variable {κ : Type} [LinearOrder κ] {s : Finset κ} {c d m : κ} {k : ℕ}

def rank (s : Finset κ) (c : κ) : ℕ := (s.filter (· < c)).card

theorem rank_lt (hc : c ∈ s) (h : c < d) : rank s c < rank s d := by
  apply Finset.card_lt_card
  constructor
  · intro x hx
    obtain ⟨hxs, hxc⟩ := Finset.mem_filter.mp hx
    exact Finset.mem_filter.mpr ⟨hxs, hxc.trans h⟩
  · intro hsub
    have hcc := hsub (Finset.mem_filter.mpr ⟨hc, h⟩)
    exact lt_irrefl c (Finset.mem_filter.mp hcc).2

theorem rank_inj (hc : c ∈ s) (hd : d ∈ s) (h : rank s c = rank s d) : c = d := by
  rcases lt_trichotomy c d with hlt | heq | hlt
  · have := rank_lt hc hlt
    omega
  · exact heq
  · have := rank_lt hd hlt
    omega

theorem le_of_rank_le (hd : d ∈ s) (h : rank s c ≤ rank s d) : c ≤ d := by
  by_contra hlt
  have := rank_lt hd (not_le.mp hlt)
  omega

theorem rank_lt_card (hc : c ∈ s) : rank s c < s.card := by
  apply Finset.card_lt_card
  constructor
  · exact Finset.filter_subset _ _
  · intro hsub
    exact lt_irrefl c (Finset.mem_filter.mp (hsub hc)).2

theorem exists_rank {r : ℕ} (hr : r < s.card) : ∃ c ∈ s, rank s c = r := by
  have hsurj := Finset.surjOn_of_injOn_of_card_le (s := s) (t := Finset.range s.card) (rank s)
    (fun c hc => Finset.mem_coe.mpr (Finset.mem_range.mpr (rank_lt_card hc)))
    (fun c hc d hd h => rank_inj hc hd h) (by simp)
  obtain ⟨c, hc, h⟩ := hsurj (Finset.mem_coe.mpr (Finset.mem_range.mpr hr))
  exact ⟨c, hc, h⟩

def share (s : Finset κ) (k : ℕ) (c : κ) : ℕ :=
  k / s.card + if rank s c < k % s.card then 1 else 0

theorem share_zero (c : κ) : share s 0 c = 0 := by simp [share]

theorem share_even (h : k % s.card = 0) (c : κ) : share s k c = k / s.card := by
  simp [share, h]

theorem le_share (c : κ) : k / s.card ≤ share s k c := Nat.le_add_right _ _

theorem share_le (c : κ) : share s k c ≤ k / s.card + 1 := by
  unfold share
  split <;> omega

/-- Two members are a slot apart at most, and none apart when the slots come out even. -/
theorem share_le_share (c d : κ) :
    share s k c ≤ share s k d + if k % s.card = 0 then 0 else 1 := by
  split
  · rename_i h
    rw [share_even h, share_even h, Nat.add_zero]
  · exact (share_le c).trans (Nat.add_le_add_right (le_share d) 1)

/-- The next slot goes to the member whose rank the slots so far leave over. -/
theorem share_least (hr : rank s m = k % s.card) (hc : c ∈ s) :
    (toLex (share s k m, m) : ℕ ×ₗ κ) ≤ toLex (share s k c, c) := by
  have hm : share s k m = k / s.card := by simp [share, hr]
  rw [Prod.Lex.toLex_le_toLex, hm]
  by_cases hlt : rank s c < k % s.card
  · refine Or.inl ?_
    simp only [share, if_pos hlt]
    omega
  · have hce : share s k c = k / s.card := by simp [share, hlt]
    have hle : rank s m ≤ rank s c := by omega
    exact Or.inr ⟨hce.symm, le_of_rank_le hc hle⟩

theorem share_succ (hm : m ∈ s) (hr : rank s m = k % s.card) (hc : c ∈ s) :
    share s (k + 1) c = if c = m then share s k c + 1 else share s k c := by
  have hpos : 0 < s.card := Finset.card_pos.mpr ⟨m, hm⟩
  have hlt := Nat.mod_lt k hpos
  have hrank : c = m ↔ rank s c = k % s.card := by
    constructor
    · rintro rfl
      exact hr
    · intro h
      exact rank_inj hc hm (h.trans hr.symm)
  have hcard := rank_lt_card hc
  by_cases hlast : k % s.card + 1 = s.card
  · -- the round is complete
    have hdiv : (k + 1) / s.card = k / s.card + 1 ∧ (k + 1) % s.card = 0 := by
      apply (Nat.div_mod_unique hpos).mpr
      have := Nat.mod_add_div k s.card
      exact ⟨by rw [Nat.mul_add]; omega, hpos⟩
    unfold share
    rw [hdiv.1, hdiv.2]
    by_cases hcm : c = m
    · simp [hcm, hr]
    · have hne : rank s c ≠ k % s.card := fun h => hcm (hrank.mpr h)
      rw [if_neg hcm, if_neg (Nat.not_lt_zero _), if_pos (by omega)]
  · have hdiv : (k + 1) / s.card = k / s.card ∧ (k + 1) % s.card = k % s.card + 1 := by
      apply (Nat.div_mod_unique hpos).mpr
      have := Nat.mod_add_div k s.card
      exact ⟨by omega, by omega⟩
    unfold share
    rw [hdiv.1, hdiv.2]
    by_cases hcm : c = m
    · have := hrank.mp hcm
      rw [if_pos hcm, if_pos (by omega), if_neg (by omega)]
    · have hne : rank s c ≠ k % s.card := fun h => hcm (hrank.mpr h)
      rw [if_neg hcm]
      by_cases hb : rank s c < k % s.card
      · rw [if_pos hb, if_pos (by omega)]
      · rw [if_neg hb, if_neg (by omega)]

end RoundRobin
