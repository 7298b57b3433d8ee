import Mathlib.Algebra.Order.BigOperators.Ring.Finset
import Mathlib.Algebra.Order.Field.Basic
import Mathlib.Data.Prod.Lex
import Mathlib.Tactic.Ring
import Mathlib.Tactic.Linarith

/-! Weighted shares of indivisible slots. Everybody has a turn for each slot that it could take, the
later by weight the more it has; who takes slots in the order of the turns gets those that come
first, and that is fair: nobody who waits was passed over for somebody further ahead by weight. -/
namespace WeightedShares

variable {κ K : Type} [LinearOrder κ] [Field K] [LinearOrder K]

def turn (w : κ → K) (c : κ) (k : ℕ) : K ×ₗ κ := toLex ((k : K) / w c, c)

def turnsBefore (w : κ → K) (room : κ → ℕ) (S : Finset κ) (t : K ×ₗ κ) : ℕ :=
  ∑ c ∈ S, ((Finset.range (room c)).filter fun k => turn w c k < t).card

/-- The turns of one that are among the first `n`. -/
def share (w : κ → K) (room : κ → ℕ) (S : Finset κ) (n : ℕ) (c : κ) : ℕ :=
  ((Finset.range (room c)).filter fun k => turnsBefore w room S (turn w c k) < n).card

def InTurn (w : κ → K) (g : κ → ℕ) (waiting : κ → Prop) : Prop :=
  ∀ j, ∀ k < g j, ∀ i, waiting i → turn w j k < turn w i (g i)

def Fair (w : κ → K) (g : κ → ℕ) (waiting : κ → Prop) : Prop :=
  ∀ j, 0 < g j → ∀ i, waiting i → ((g j : K) - 1) / w j ≤ g i / w i

def addSlot (g : κ → ℕ) (m : κ) : κ → ℕ := Function.update g m (g m + 1)

variable {w : κ → K} {g room : κ → ℕ} {waiting waiting' : κ → Prop} {m i c : κ} {S : Finset κ}
variable {k l n : ℕ}

theorem sum_addSlot (hm : m ∈ S) : ∑ c ∈ S, addSlot g m c = ∑ c ∈ S, g c + 1 := by
  have hone : ∀ c, addSlot g m c = g c + if c = m then 1 else 0 := by
    intro c
    by_cases hc : c = m
    · subst hc
      simp [addSlot]
    · simp [addSlot, hc]
  simp only [hone, Finset.sum_add_distrib, Finset.sum_ite_eq', if_pos hm]

theorem inTurn_zero : InTurn w (fun _ => 0) waiting := fun _ _ h => absurd h (Nat.not_lt_zero _)

theorem InTurn.fewer (h : InTurn w g waiting) (hsub : ∀ i, waiting' i → waiting i) :
    InTurn w g waiting' := fun j k hk i hi => h j k hk i (hsub i hi)

theorem InTurn.fair (h : InTurn w g waiting) : Fair w g waiting := by
  intro j hj i hi
  have hlast : ((g j - 1 : ℕ) : K) = (g j : K) - 1 := Nat.cast_pred hj
  rcases Prod.Lex.toLex_lt_toLex.mp (h j (g j - 1) (Nat.sub_lt hj one_pos) i hi) with hlt | ⟨he, -⟩
  · exact hlast ▸ hlt.le
  · exact hlast ▸ he.le

variable [IsStrictOrderedRing K]

theorem turn_strictMono (hw : 0 < w c) : StrictMono (turn w c) := by
  intro k l hkl
  refine Prod.Lex.toLex_lt_toLex.mpr (Or.inl ?_)
  exact div_lt_div_of_pos_right (Nat.cast_lt.mpr hkl) hw

theorem InTurn.next (h : InTurn w g waiting) (hw : 0 < w m) (hm : waiting m)
    (hleast : ∀ i, waiting i → turn w m (g m) ≤ turn w i (g i)) :
    InTurn w (addSlot g m) waiting := by
  have later : ∀ i, waiting i → turn w i (g i) ≤ turn w i (addSlot g m i) := by
    intro i hi
    by_cases him : i = m
    · subst him
      simp only [addSlot, Function.update_self]
      exact (turn_strictMono hw (Nat.lt_succ_self _)).le
    · simp only [addSlot, Function.update_of_ne him, le_refl]
  intro j k hk i hi
  by_cases hjm : j = m
  · subst hjm
    simp only [addSlot, Function.update_self] at hk
    rcases Nat.lt_succ_iff_lt_or_eq.mp hk with hk | rfl
    · exact (h j k hk i hi).trans_le (later i hi)
    · by_cases hij : i = j
      · subst hij
        simp only [addSlot, Function.update_self]
        exact turn_strictMono hw (Nat.lt_succ_self _)
      · -- two of them never have the same turn
        refine lt_of_lt_of_le (lt_of_le_of_ne (hleast i hi) fun he => hij ?_) (later i hi)
        exact (congrArg Prod.snd (toLex_inj.mp he)).symm
  · simp only [addSlot, Function.update_of_ne hjm] at hk
    exact (h j k hk i hi).trans_le (later i hi)

section Shares

variable (h : InTurn w g fun i => i ∈ S ∧ g i < room i) (hw : ∀ i ∈ S, 0 < w i)
variable (hroom : ∀ i ∈ S, g i ≤ room i)

include h hw

theorem turnsBefore_lt (hc : c ∈ S) (hk : k < g c) :
    turnsBefore w room S (turn w c k) < ∑ i ∈ S, g i := by
  refine Finset.sum_lt_sum (fun i hi => ?_) ⟨c, hc, ?_⟩
  · have hsub : (Finset.range (room i)).filter (fun l => turn w i l < turn w c k) ⊆
        Finset.range (g i) := by
      intro l hl
      obtain ⟨hl, hlt⟩ := Finset.mem_filter.mp hl
      rw [Finset.mem_range] at hl ⊢
      by_contra hge
      have hge : g i ≤ l := not_lt.mp hge
      have hnext := h c k hk i ⟨hi, hge.trans_lt hl⟩
      have hmono := (turn_strictMono (hw i hi)).monotone hge
      exact lt_irrefl _ (hlt.trans (hnext.trans_le hmono))
    simpa using Finset.card_le_card hsub
  · have hsub : (Finset.range (room c)).filter (fun l => turn w c l < turn w c k) ⊆
        Finset.range k := by
      intro l hl
      rw [Finset.mem_range]
      exact (turn_strictMono (hw c hc)).lt_iff_lt.mp (Finset.mem_filter.mp hl).2
    have hcard := Finset.card_le_card hsub
    rw [Finset.card_range] at hcard
    exact hcard.trans_lt hk

include hroom

theorem le_turnsBefore (hc : c ∈ S) (hk : g c ≤ k) (hlt : k < room c) :
    ∑ i ∈ S, g i ≤ turnsBefore w room S (turn w c k) := by
  refine Finset.sum_le_sum fun i hi => ?_
  have hsub : Finset.range (g i) ⊆
      (Finset.range (room i)).filter (fun l => turn w i l < turn w c k) := by
    intro l hl
    have hl := Finset.mem_range.mp hl
    refine Finset.mem_filter.mpr ⟨Finset.mem_range.mpr (hl.trans_le (hroom i hi)), ?_⟩
    have hnext := h i l hl c ⟨hc, hk.trans_lt hlt⟩
    exact hnext.trans_le ((turn_strictMono (hw c hc)).monotone hk)
  simpa using Finset.card_le_card hsub

/-- Who divides `n` slots in turn, as far as there is room, gives everybody its share. -/
theorem InTurn.eq_share (htotal : ∑ i ∈ S, g i = min n (∑ i ∈ S, room i)) (hc : c ∈ S) :
    g c = share w room S n c := by
  have hfirst : (Finset.range (room c)).filter
      (fun k => turnsBefore w room S (turn w c k) < n) = Finset.range (g c) := by
    ext k
    rw [Finset.mem_filter, Finset.mem_range, Finset.mem_range]
    constructor
    · rintro ⟨hk, hlt⟩
      by_contra hge
      have hge := not_lt.mp hge
      have hall := le_turnsBefore h hw hroom hc hge hk
      have hless : ∑ i ∈ S, g i < ∑ i ∈ S, room i :=
        Finset.sum_lt_sum hroom ⟨c, hc, hge.trans_lt hk⟩
      omega
    · intro hk
      refine ⟨hk.trans_le (hroom c hc), (turnsBefore_lt h hw hc hk).trans_le ?_⟩
      exact htotal.trans_le (min_le_left _ _)
  rw [share, hfirst, Finset.card_range]

end Shares

/-- Whoever waits has at most one slot less than its share by weight for each of the others. -/
theorem Fair.share (h : Fair w g waiting) (hw : ∀ j ∈ S, 0 < w j) (hi : i ∈ S) (hb : waiting i) :
    w i * ((∑ j ∈ S, (g j : K)) - S.card + 1) / ∑ j ∈ S, w j ≤ g i := by
  have hwi := hw i hi
  have hW : 0 < ∑ j ∈ S, w j := Finset.sum_pos hw ⟨i, hi⟩
  -- each of the others has at most one slot more than its weight's worth of what `i` has
  have each : ∀ j ∈ S.erase i, (g j : K) ≤ 1 + w j * (g i / w i) := by
    intro j hj
    have hwj := hw j (Finset.mem_of_mem_erase hj)
    rcases Nat.eq_zero_or_pos (g j) with hz | hpos
    · rw [hz, Nat.cast_zero]
      have hnn : (0 : K) ≤ w j * (g i / w i) :=
        mul_nonneg hwj.le (div_nonneg (Nat.cast_nonneg _) hwi.le)
      linarith
    · have hle := (div_le_iff₀' hwj).mp (h j hpos i hb)
      linarith
  have hsum : ∑ j ∈ S, (g j : K) ≤ g i + ∑ j ∈ S.erase i, (1 + w j * (g i / w i)) := by
    rw [← Finset.add_sum_erase S (fun j => (g j : K)) hi]
    exact add_le_add_right (Finset.sum_le_sum each) _
  have hcard : ((S.erase i).card : K) = S.card - 1 := by
    rw [Finset.card_erase_of_mem hi, Nat.cast_sub (Finset.card_pos.mpr ⟨i, hi⟩), Nat.cast_one]
  have hrest : ∑ j ∈ S.erase i, (1 + w j * ((g i : K) / w i)) =
      (S.card - 1) + (∑ j ∈ S, w j - w i) * (g i / w i) := by
    rw [Finset.sum_add_distrib, Finset.sum_const, nsmul_eq_mul, mul_one, hcard,
      ← Finset.sum_mul, ← Finset.add_sum_erase S w hi, add_sub_cancel_left]
  rw [div_le_iff₀ hW]
  rw [hrest] at hsum
  have hcancel : w i * ((g i : K) / w i) = g i := mul_div_cancel₀ _ hwi.ne'
  calc w i * ((∑ j ∈ S, (g j : K)) - S.card + 1)
      ≤ w i * (g i + ((∑ j ∈ S, w j) - w i) * (g i / w i)) := by
        refine mul_le_mul_of_nonneg_left ?_ hwi.le
        linarith
    _ = g i * ∑ j ∈ S, w j := by
        have hexpand : w i * (g i + ((∑ j ∈ S, w j) - w i) * (g i / w i)) =
            w i * g i + ((∑ j ∈ S, w j) - w i) * (w i * (g i / w i)) := by ring
        rw [hexpand, hcancel]
        ring

end WeightedShares
