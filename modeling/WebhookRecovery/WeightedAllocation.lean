import WebhookRecovery.FairAllocation
import WebhookRecovery.WeightedShares

/-! The allocation of one pass is weighted fair, for any weights, headrooms and budget: the loop
shrinks the set of those that are still waiting, and stays fair to them slot by slot. -/
namespace WeightedAllocation

open RecoverySchema DeliveryAdmission WeightedShares

def withRoom (states : List ConsumerState) (headroom : ConsumerId → ℤ) : List ConsumerState :=
  states.filter fun s => decide (0 < headroom s.id)

def ids (states : List ConsumerState) : Finset ConsumerId :=
  (states.map ConsumerState.id).toFinset

/-- The loop after `k` slots were on offer. -/
structure Progress (states : List ConsumerState) (headroom : ConsumerId → ℤ) (k : ℕ)
    (a : Allocation) : Prop where
  within : WithinHeadroom headroom a
  known : ∀ c ∈ a.active, c ∈ ids states
  waiting : ∀ c ∈ ids states, (a.granted c : ℤ) < headroom c → c ∈ a.active
  inTurn : InTurn (weightOf states) a.granted (· ∈ a.active)
  total : (∑ c ∈ ids states, (a.granted c : ℤ)) =
    min (k : ℤ) (∑ c ∈ ids states, max 0 (headroom c))

section Loop

variable {states : List ConsumerState} {headroom : ConsumerId → ℤ} {a : Allocation} {k : ℕ}
variable {c m : ConsumerId}

theorem weightOf_pos (hw : ∀ s ∈ states, 0 < s.weight) (c : ConsumerId) :
    0 < weightOf states c := by
  rw [weightOf]
  cases hs : states.find? fun s => s.id == c with
  | none => exact one_pos
  | some s => exact hw s (List.mem_of_find?_eq_some hs)

theorem furthestBehind_least {weights : ConsumerId → ℚ} {granted : ConsumerId → ℕ}
    {active : List ConsumerId} (h : furthestBehind weights granted active = some m) :
    ∀ c ∈ active, turn weights m (granted m) ≤ turn weights c (granted c) :=
  fun _ hc => List.le_of_mem_argmin hc (Option.mem_def.mpr h)

theorem sum_le_room (states : List ConsumerState) (h : WithinHeadroom headroom a) :
    (∑ c ∈ ids states, (a.granted c : ℤ)) ≤ ∑ c ∈ ids states, max 0 (headroom c) :=
  Finset.sum_le_sum fun c _ => h.bounded c

theorem allocateStart_progress : Progress states headroom 0 (allocateStart states headroom) where
  within := allocateStart_within states headroom
  known c hc := by
    rw [ids, List.mem_toFinset]
    exact (List.mem_filter.mp (List.mem_dedup.mp hc)).1
  waiting c hc hlt := by
    rw [ids, List.mem_toFinset] at hc
    exact List.mem_dedup.mpr (List.mem_filter.mpr ⟨hc, by simpa [allocateStart] using hlt⟩)
  inTurn := inTurn_zero
  total := by
    have hnn : 0 ≤ ∑ c ∈ ids states, max 0 (headroom c) :=
      Finset.sum_nonneg fun c _ => le_max_left _ _
    simpa [allocateStart] using hnn

theorem full_of_nobody (h : Progress states headroom k a) (hempty : a.active = []) :
    ∑ c ∈ ids states, (a.granted c : ℤ) = ∑ c ∈ ids states, max 0 (headroom c) := by
  refine Finset.sum_congr rfl fun c hc => ?_
  have hbound := h.within.bounded c
  have hnot : ¬ (a.granted c : ℤ) < headroom c := by
    intro hlt
    have := h.waiting c hc hlt
    rw [hempty] at this
    cases this
  omega

section Slot

variable {weights : ConsumerId → ℚ}

theorem granted_grantSlot (hm : furthestBehind weights a.granted a.active = some m) :
    (grantSlot weights headroom a).granted = addSlot a.granted m := by
  rw [grantSlot, hm]
  rfl

theorem active_of_grantSlot (hm : furthestBehind weights a.granted a.active = some m)
    (hc : c ∈ (grantSlot weights headroom a).active) : c ∈ a.active := by
  rw [grantSlot, hm] at hc
  dsimp only at hc
  split at hc
  · exact List.mem_of_mem_erase hc
  · exact hc

theorem waits_on (hm : furthestBehind weights a.granted a.active = some m) (hc : c ∈ a.active)
    (hlt : (addSlot a.granted m c : ℤ) < headroom c) :
    c ∈ (grantSlot weights headroom a).active := by
  rw [grantSlot, hm]
  dsimp only
  by_cases hcm : c = m
  · subst hcm
    have hroom : ¬ headroom c ≤ Function.update a.granted c (a.granted c + 1) c := not_le.mpr hlt
    rw [if_neg hroom]
    exact hc
  · split
    · exact (List.mem_erase_of_ne hcm).mpr hc
    · exact hc

end Slot

theorem grantSlot_progress (hw : ∀ s ∈ states, 0 < s.weight) (h : Progress states headroom k a) :
    Progress states headroom (k + 1) (grantSlot (weightOf states) headroom a) := by
  have hwithin := grantSlot_within (weightOf states) h.within
  have htotal := h.total
  cases hm : furthestBehind (weightOf states) a.granted a.active with
  | none =>
    have hsame : grantSlot (weightOf states) headroom a = a := by
      rw [grantSlot, hm]
    have hfull := full_of_nobody h (List.argmin_eq_none.mp hm)
    rw [hsame]
    refine ⟨h.within, h.known, h.waiting, h.inTurn, ?_⟩
    push_cast
    omega
  | some m =>
    have hmem := furthestBehind_mem hm
    have hgrant : (grantSlot (weightOf states) headroom a).granted = _ := granted_grantSlot hm
    refine ⟨hwithin, fun c hc => h.known c (active_of_grantSlot hm hc), fun c hc hlt => ?_, ?_, ?_⟩
    · rw [hgrant] at hlt
      refine waits_on hm ?_ hlt
      by_cases hcm : c = m
      · exact hcm ▸ hmem
      · rw [addSlot, Function.update_of_ne hcm] at hlt
        exact h.waiting c hc hlt
    · rw [hgrant]
      exact (h.inTurn.next (weightOf_pos hw m) hmem (furthestBehind_least hm)).fewer
        fun c => active_of_grantSlot hm
    · have hsum := sum_addSlot (g := a.granted) (h.known m hmem)
      have hroom := sum_le_room states hwithin
      rw [hgrant] at hroom ⊢
      have hcast : (∑ c ∈ ids states, (addSlot a.granted m c : ℤ)) =
          ∑ c ∈ ids states, (a.granted c : ℤ) + 1 := by exact_mod_cast hsum
      rw [hcast] at hroom ⊢
      push_cast
      omega

theorem allocate_progress (hw : ∀ s ∈ states, 0 < s.weight) (headroom : ConsumerId → ℤ) (k : ℕ) :
    Progress states headroom k
      ((grantSlot (weightOf states) headroom)^[k] (allocateStart states headroom)) := by
  induction k with
  | zero => exact allocateStart_progress
  | succ k ih =>
    rw [Function.iterate_succ_apply']
    exact grantSlot_progress hw ih

end Loop

section Order

variable {states states' : List ConsumerState} {headroom : ConsumerId → ℤ} {a b : Allocation}
variable {st : ConsumerState}

theorem find_of_id (hid : (states.map ConsumerState.id).Nodup) (hs : st ∈ states) :
    (states.find? fun x => x.id == st.id) = some st := by
  cases hx : states.find? fun x => x.id == st.id with
  | none => simpa using List.find?_eq_none.mp hx st hs
  | some x =>
    have hkey : x.id = st.id := by simpa using List.find?_some hx
    exact congrArg some
      (List.inj_on_of_nodup_map hid (List.mem_of_find?_eq_some hx) hs hkey)

theorem weightOf_eq (hid : (states.map ConsumerState.id).Nodup) (hs : st ∈ states) :
    weightOf states st.id = st.weight := by
  rw [weightOf, find_of_id hid hs]
  rfl

theorem weightOf_perm (hid : (states.map ConsumerState.id).Nodup) (hp : states'.Perm states) :
    weightOf states' = weightOf states := by
  have hid' : (states'.map ConsumerState.id).Nodup := (hp.map _).nodup_iff.mpr hid
  funext c
  by_cases hc : ∃ st ∈ states, st.id = c
  · obtain ⟨st, hs, rfl⟩ := hc
    rw [weightOf_eq hid hs, weightOf_eq hid' (hp.mem_iff.mpr hs)]
  · have unknown : ∀ l : List ConsumerState, (∀ st ∈ l, st ∈ states) → weightOf l c = 1 := by
      intro l hl
      have hnone : (l.find? fun x => x.id == c) = none :=
        List.find?_eq_none.mpr fun x hx hxc => hc ⟨x, hl x hx, by simpa using hxc⟩
      rw [weightOf, hnone]
      rfl
    rw [unknown states fun _ h => h, unknown states' fun _ h => hp.mem_iff.mp h]

/-- Who is furthest behind does not depend on the order either: ties are broken on the id. -/
theorem furthestBehind_perm {weights : ConsumerId → ℚ} {granted : ConsumerId → ℕ}
    {l l' : List ConsumerId} (hp : l'.Perm l) :
    furthestBehind weights granted l' = furthestBehind weights granted l := by
  cases hm : furthestBehind weights granted l with
  | none =>
    have hl : l = [] := List.argmin_eq_none.mp hm
    rw [hl, List.perm_nil] at hp
    exact List.argmin_eq_none.mpr hp
  | some m =>
    refine FairAllocation.furthestBehind_eq (hp.mem_iff.mpr (furthestBehind_mem hm)) fun c hc => ?_
    exact List.le_of_mem_argmin (f := fun c =>
      (toLex ((granted c : ℚ) / weights c, c) : ℚ ×ₗ ConsumerId)) (hp.mem_iff.mp hc) hm

def Same (a b : Allocation) : Prop := a.granted = b.granted ∧ a.active.Perm b.active

theorem grantSlot_same {weights : ConsumerId → ℚ} (h : Same a b) :
    Same (grantSlot weights headroom a) (grantSlot weights headroom b) := by
  obtain ⟨hg, hp⟩ := h
  unfold grantSlot
  rw [hg, furthestBehind_perm hp]
  cases furthestBehind weights b.granted b.active with
  | none => exact ⟨hg, hp⟩
  | some m =>
    refine ⟨rfl, ?_⟩
    dsimp only
    split
    · exact hp.erase m
    · exact hp

theorem allocate_perm (hid : (states.map ConsumerState.id).Nodup) (hp : states'.Perm states)
    (headroom : ConsumerId → ℤ) (budget : ℤ) :
    allocate states' headroom budget = allocate states headroom budget := by
  have hsame : ∀ k, Same
      ((grantSlot (weightOf states) headroom)^[k] (allocateStart states' headroom))
      ((grantSlot (weightOf states) headroom)^[k] (allocateStart states headroom)) := by
    intro k
    induction k with
    | zero => exact ⟨rfl, ((hp.map _).filter _).dedup⟩
    | succ k ih =>
      rw [Function.iterate_succ_apply', Function.iterate_succ_apply']
      exact grantSlot_same ih
  rw [allocate]
  rw [weightOf_perm hid hp]
  exact (hsame budget.toNat).1

end Order

section Shares

variable {states : List ConsumerState} {headroom : ConsumerId → ℤ}

theorem sum_ids {M : Type} [AddCommMonoid M] (hid : (states.map ConsumerState.id).Nodup)
    (f : ConsumerId → M) : ∑ c ∈ ids states, f c = (states.map fun s => f s.id).sum := by
  rw [ids, List.sum_toFinset f hid, List.map_map]
  rfl

theorem withRoom_nodup (headroom : ConsumerId → ℤ)
    (hid : (states.map ConsumerState.id).Nodup) :
    ((withRoom states headroom).map ConsumerState.id).Nodup :=
  (List.filter_sublist.map _).nodup hid

theorem sum_withRoom {g : ConsumerId → ℕ}
    (hg : ∀ c, (g c : ℤ) ≤ max 0 (headroom c)) :
    ∑ c ∈ ids (withRoom states headroom), (g c : ℤ) = ∑ c ∈ ids states, (g c : ℤ) := by
  refine Finset.sum_subset (fun c hc => ?_) fun c hc hn => ?_
  · obtain ⟨s, hs, rfl⟩ := List.mem_map.mp (List.mem_toFinset.mp hc)
    exact List.mem_toFinset.mpr (List.mem_map_of_mem (List.mem_of_mem_filter hs))
  · obtain ⟨s, hs, rfl⟩ := List.mem_map.mp (List.mem_toFinset.mp hc)
    have hroom : ¬ 0 < headroom s.id := fun hpos =>
      hn (List.mem_toFinset.mpr (List.mem_map_of_mem
        (List.mem_filter.mpr ⟨hs, decide_eq_true hpos⟩)))
    have := hg s.id
    omega

/-- Whatever the others ask for, a consumer that is left waiting got its share of the budget, less
a slot for each of the others. -/
theorem allocate_share (hid : (states.map ConsumerState.id).Nodup)
    (hw : ∀ s ∈ states, 0 < s.weight) (budget : ℤ) {st : ConsumerState} (hs : st ∈ states)
    (hlt : (allocate states headroom budget st.id : ℤ) < headroom st.id) :
    st.weight * (budget - (withRoom states headroom).length + 1) /
        ((withRoom states headroom).map ConsumerState.weight).sum ≤
      allocate states headroom budget st.id := by
  have hprogress := allocate_progress hw headroom budget.toNat
  set g := allocate states headroom budget with hg
  have hwithin : ∀ c, (g c : ℤ) ≤ max 0 (headroom c) := hprogress.within.bounded
  have hfair : Fair (weightOf states) g _ := hprogress.inTurn.fair
  have hmem : st.id ∈ ids states := List.mem_toFinset.mpr (List.mem_map_of_mem hs)
  have hroom : st ∈ withRoom states headroom := by
    refine List.mem_filter.mpr ⟨hs, decide_eq_true ?_⟩
    omega
  have hopen : st.id ∈ ids (withRoom states headroom) :=
    List.mem_toFinset.mpr (List.mem_map_of_mem hroom)
  have hid' := withRoom_nodup headroom hid
  -- with room left over, the whole budget was given out
  have hspent : (budget : ℤ) ≤ ∑ c ∈ ids states, (g c : ℤ) := by
    have htotal : (∑ c ∈ ids states, (g c : ℤ)) =
        min (budget.toNat : ℤ) (∑ c ∈ ids states, max 0 (headroom c)) := hprogress.total
    have hless : (∑ c ∈ ids states, (g c : ℤ)) < ∑ c ∈ ids states, max 0 (headroom c) := by
      refine Finset.sum_lt_sum (fun c _ => hwithin c) ⟨st.id, hmem, ?_⟩
      exact hlt.trans_le (le_max_right _ _)
    omega
  rw [← sum_withRoom hwithin] at hspent
  have hspent' : (budget : ℚ) ≤ ∑ c ∈ ids (withRoom states headroom), (g c : ℚ) := by
    exact_mod_cast hspent
  have hcard : (ids (withRoom states headroom)).card = (withRoom states headroom).length := by
    rw [ids, List.toFinset_card_of_nodup hid', List.length_map]
  have hweights : ∑ c ∈ ids (withRoom states headroom), weightOf states c =
      ((withRoom states headroom).map ConsumerState.weight).sum := by
    rw [sum_ids hid']
    refine congrArg List.sum (List.map_congr_left fun s hs => ?_)
    exact weightOf_eq hid (List.mem_of_mem_filter hs)
  have hshare := hfair.share (S := ids (withRoom states headroom))
    (fun c _ => weightOf_pos hw c) hopen (hprogress.waiting st.id hmem hlt)
  rw [hweights, hcard, weightOf_eq hid hs] at hshare
  refine le_trans ?_ hshare
  have hwst := hw st hs
  have hnn : 0 ≤ ((withRoom states headroom).map ConsumerState.weight).sum := by
    rw [← hweights]
    exact Finset.sum_nonneg fun c _ => (weightOf_pos hw c).le
  refine div_le_div_of_nonneg_right (mul_le_mul_of_nonneg_left ?_ hwst.le) hnn
  linarith

/-- The loop hands out the slots in the order of the turns. -/
theorem allocate_eq_share (hw : ∀ s ∈ states, 0 < s.weight) (budget : ℤ) {c : ConsumerId}
    (hc : c ∈ ids states) : allocate states headroom budget c =
      share (weightOf states) (fun c => (headroom c).toNat) (ids states) budget.toNat c := by
  have hprogress := allocate_progress hw headroom budget.toNat
  have hturn : InTurn (weightOf states) (allocate states headroom budget) fun i =>
      i ∈ ids states ∧ allocate states headroom budget i < (headroom i).toNat :=
    hprogress.inTurn.fewer fun i hi => hprogress.waiting i hi.1 (Int.lt_toNat.mp hi.2)
  refine hturn.eq_share (fun i _ => weightOf_pos hw i) (fun i _ => ?_) ?_ hc
  · have hbound := hprogress.within.bounded i
    rw [allocate]
    omega
  · have htotal := hprogress.total
    simp only [← Int.toNat_eq_max, max_comm (0 : ℤ)] at htotal
    exact_mod_cast htotal

end Shares

/-- Within the headrooms, all that can be given, pairwise fair by weight, with a share for each
that is left waiting, and the same in any order. -/
theorem allocate_weighted_fair (states : List ConsumerState) (headroom : ConsumerId → ℤ)
    (budget : ℤ) (hid : (states.map ConsumerState.id).Nodup) (hw : ∀ s ∈ states, 0 < s.weight) :
    (∀ i ∈ states, (allocate states headroom budget i.id : ℤ) ≤ max 0 (headroom i.id)) ∧
    (states.map fun s => (allocate states headroom budget s.id : ℤ)).sum =
      min (max 0 budget) (states.map fun s => max 0 (headroom s.id)).sum ∧
    (∀ j ∈ states, 0 < allocate states headroom budget j.id →
      ∀ i ∈ states, (allocate states headroom budget i.id : ℤ) < headroom i.id →
        ((allocate states headroom budget j.id : ℚ) - 1) / j.weight ≤
          allocate states headroom budget i.id / i.weight) ∧
    (∀ i ∈ states, (allocate states headroom budget i.id : ℤ) < headroom i.id →
      i.weight * (budget - (withRoom states headroom).length + 1) /
          ((withRoom states headroom).map ConsumerState.weight).sum ≤
        allocate states headroom budget i.id) ∧
    ∀ states' : List ConsumerState, states'.Perm states →
      allocate states' headroom budget = allocate states headroom budget := by
  have hprogress := allocate_progress hw headroom budget.toNat
  refine ⟨fun i _ => allocate_le_headroom _ _ _ _, ?_, fun j hj hpos i hi hlt => ?_,
    fun i hi hlt => allocate_share hid hw budget hi hlt,
    fun states' hp => allocate_perm hid hp headroom budget⟩
  · rw [← sum_ids hid fun c => (allocate states headroom budget c : ℤ),
      ← sum_ids hid fun c => max 0 (headroom c)]
    refine hprogress.total.trans ?_
    rw [Int.toNat_eq_max, max_comm]
  · have hwaiting := hprogress.waiting i.id
      (List.mem_toFinset.mpr (List.mem_map_of_mem hi)) hlt
    have hfair := hprogress.inTurn.fair j.id hpos i.id hwaiting
    rwa [weightOf_eq hid hj, weightOf_eq hid hi] at hfair

section Split

def consumer (id : ConsumerId) (weight : ℚ) : ConsumerState := ⟨id, weight, 10, 10, 100, 0, 0, 0⟩

/-- Twice the weight is twice the slots, and a consumer at its headroom leaves the rotation. -/
theorem allocate_weighted_fair_split :
    ([1, 2, 3].map (allocate [consumer 1 2, consumer 2 1, consumer 3 1]
      (fun c => if c = 3 then 2 else 100) 11)) = [6, 3, 2] ∧
    allocate [consumer 3 1, consumer 1 2, consumer 2 1] (fun c => if c = 3 then 2 else 100) 11 =
      allocate [consumer 1 2, consumer 2 1, consumer 3 1]
        (fun c => if c = 3 then 2 else 100) 11 := by
  obtain ⟨-, -, -, -, hperm⟩ := allocate_weighted_fair
    [consumer 1 2, consumer 2 1, consumer 3 1] (fun c => if c = 3 then 2 else 100) 11
    (by decide) (by simp [consumer])
  exact ⟨by decide +kernel, hperm _ (by decide)⟩

end Split

end WeightedAllocation
