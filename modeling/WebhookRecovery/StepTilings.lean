import Mathlib.Algebra.BigOperators.Group.List.Basic
import Mathlib.Algebra.Order.Ring.Defs
import Mathlib.Data.List.Chain
import Mathlib.Tactic.Ring

/-! Functions that are constant on stretches of a line. A tiling lists the stretches from one
end to the other; joining it leaves the function and its integral as they are, and makes every
stretch as long as it can be. -/
namespace StepTilings

structure Segment (ρ K : Type) where
  value : ρ
  start : K
  stop : K
  deriving DecidableEq, Repr

variable {ρ K : Type}

section Order

variable [LinearOrder K]

/-- The segments lie end to end, from `a` to `b`. -/
def Tiles (a b : K) : List (Segment ρ K) → Prop
  | [] => a = b
  | s :: l => s.start = a ∧ s.start ≤ s.stop ∧ Tiles s.stop b l

/-- The value that a tiling has at a point; an end belongs to the segment it starts. -/
def At (l : List (Segment ρ K)) (u : K) (v : ρ) : Prop :=
  ∃ s ∈ l, s.start ≤ u ∧ u < s.stop ∧ s.value = v

variable {a b u : K} {v w : ρ} {s r : Segment ρ K} {l m : List (Segment ρ K)}

theorem Tiles.le (h : Tiles a b l) : a ≤ b := by
  induction l generalizing a with
  | nil => exact le_of_eq h
  | cons s l ih => exact h.1 ▸ h.2.1.trans (ih h.2.2)

theorem tiles_append : Tiles a b (l ++ m) ↔ ∃ c, Tiles a c l ∧ Tiles c b m := by
  induction l generalizing a with
  | nil => simp [Tiles]
  | cons s l ih =>
    rw [List.cons_append, Tiles, ih]
    constructor
    · rintro ⟨ha, hle, c, hl, hm⟩
      exact ⟨c, ⟨ha, hle, hl⟩, hm⟩
    · rintro ⟨c, ⟨ha, hle, hl⟩, hm⟩
      exact ⟨ha, hle, c, hl, hm⟩

theorem Tiles.within (h : Tiles a b l) (hs : s ∈ l) : a ≤ s.start ∧ s.stop ≤ b := by
  obtain ⟨l₁, l₂, rfl⟩ := List.append_of_mem hs
  obtain ⟨c, hl, hm⟩ := tiles_append.mp h
  exact ⟨hm.1 ▸ hl.le, hm.2.2.le⟩

theorem at_cons : At (s :: l) u v ↔ (s.start ≤ u ∧ u < s.stop ∧ s.value = v) ∨ At l u v := by
  simp only [At, List.mem_cons, exists_eq_or_imp]

theorem Tiles.total (h : Tiles a b l) (ha : a ≤ u) (hb : u < b) : ∃ v, At l u v := by
  induction l generalizing a with
  | nil => exact absurd (ha.trans_lt hb) (h ▸ lt_irrefl a)
  | cons s l ih =>
    rcases lt_or_ge u s.stop with hlt | hge
    · exact ⟨s.value, at_cons.mpr (Or.inl ⟨h.1 ▸ ha, hlt, rfl⟩)⟩
    · obtain ⟨v, hv⟩ := ih h.2.2 hge
      exact ⟨v, at_cons.mpr (Or.inr hv)⟩

theorem Tiles.apart (h : Tiles a b l) : l.Pairwise fun s r => s.stop ≤ r.start := by
  induction l generalizing a with
  | nil => exact .nil
  | cons s l ih => exact .cons (fun r hr => (h.2.2.within hr).1) (ih h.2.2)

section Joined

variable [DecidableEq ρ]

/-- Puts a segment in front: an empty one is left out, one of the same value is lengthened. -/
def join (s : Segment ρ K) : List (Segment ρ K) → List (Segment ρ K)
  | [] => if s.start = s.stop then [] else [s]
  | r :: l =>
    if s.start = s.stop then r :: l
    else if s.value = r.value then ⟨s.value, s.start, r.stop⟩ :: l
    else s :: r :: l

def joined (l : List (Segment ρ K)) : List (Segment ρ K) := l.foldr join []

structure Sharp (l : List (Segment ρ K)) : Prop where
  proper : ∀ s ∈ l, s.start < s.stop
  differ : l.IsChain fun s r => s.value ≠ r.value

theorem tiles_join (h : Tiles a b (s :: l)) : Tiles a b (join s l) := by
  obtain ⟨ha, hle, hl⟩ := h
  cases l with
  | nil =>
    rw [join]
    split
    · rename_i he
      exact (ha.symm.trans he).trans hl
    · exact ⟨ha, hle, hl⟩
  | cons r l =>
    rw [join]
    split
    · rename_i he
      rw [← ha, he]
      exact hl
    · split
      · exact ⟨ha, hle.trans (hl.1 ▸ hl.2.1), hl.2.2⟩
      · exact ⟨ha, hle, hl⟩

theorem at_join (h : Tiles a b (s :: l)) : At (join s l) u v ↔ At (s :: l) u v := by
  have hempty : s.start = s.stop → ¬ (s.start ≤ u ∧ u < s.stop ∧ s.value = v) :=
    fun he hu => absurd (hu.1.trans_lt hu.2.1) (he ▸ lt_irrefl _)
  cases l with
  | nil =>
    rw [join]
    split
    · rename_i he
      rw [at_cons, or_iff_right (hempty he)]
    · exact Iff.rfl
  | cons r l =>
    rw [join]
    split
    · rename_i he
      rw [at_cons (s := s), or_iff_right (hempty he)]
    · split
      · rename_i heq
        have hstop : s.stop = r.start := h.2.2.1.symm
        have hs := h.2.1
        have hr := h.2.2.2.1
        rw [at_cons, at_cons, at_cons, ← or_assoc, ← heq]
        refine or_congr ⟨fun ⟨h₁, h₂, h₃⟩ => ?_, fun hu => ?_⟩ Iff.rfl
        · rcases lt_or_ge u s.stop with hlt | hge
          · exact Or.inl ⟨h₁, hlt, h₃⟩
          · exact Or.inr ⟨hstop ▸ hge, h₂, h₃⟩
        · rcases hu with ⟨h₁, h₂, h₃⟩ | ⟨h₁, h₂, h₃⟩
          · exact ⟨h₁, h₂.trans_le (hstop ▸ hr), h₃⟩
          · exact ⟨hs.trans (hstop ▸ h₁), h₂, h₃⟩
      · exact Iff.rfl

theorem sharp_join (h : Tiles a b (s :: l)) (hl : Sharp l) : Sharp (join s l) := by
  have hproper : s.start ≠ s.stop → s.start < s.stop := lt_of_le_of_ne h.2.1
  cases l with
  | nil =>
    rw [join]
    split
    · exact hl
    · rename_i hne
      exact ⟨List.forall_mem_singleton.mpr (hproper hne), List.IsChain.singleton s⟩
  | cons r l =>
    have hr := hl.proper r List.mem_cons_self
    rw [join]
    split
    · exact hl
    · rename_i hne
      split
      · rename_i heq
        refine ⟨List.forall_mem_cons.mpr ⟨?_, fun x hx => hl.proper x (List.mem_cons_of_mem _ hx)⟩,
          ?_⟩
        · exact (hproper hne).trans (h.2.2.1 ▸ hr)
        · have hchain := hl.differ
          cases l with
          | nil => exact List.IsChain.singleton _
          | cons x l =>
            rw [List.isChain_cons_cons] at hchain ⊢
            exact ⟨heq ▸ hchain.1, hchain.2⟩
      · rename_i hdiff
        exact ⟨List.forall_mem_cons.mpr ⟨hproper hne, hl.proper⟩,
          List.isChain_cons_cons.mpr ⟨hdiff, hl.differ⟩⟩

theorem tiles_joined (h : Tiles a b l) : Tiles a b (joined l) := by
  induction l generalizing a with
  | nil => exact h
  | cons s l ih => exact tiles_join ⟨h.1, h.2.1, ih h.2.2⟩

theorem at_joined (h : Tiles a b l) : At (joined l) u v ↔ At l u v := by
  induction l generalizing a with
  | nil => exact Iff.rfl
  | cons s l ih =>
    refine (at_join ⟨h.1, h.2.1, tiles_joined h.2.2⟩).trans ?_
    exact at_cons.trans ((or_congr Iff.rfl (ih h.2.2)).trans at_cons.symm)

theorem sharp_joined (h : Tiles a b l) : Sharp (joined l) := by
  induction l generalizing a with
  | nil => exact ⟨fun _ hs => absurd hs List.not_mem_nil, List.IsChain.nil⟩
  | cons s l ih => exact sharp_join ⟨h.1, h.2.1, tiles_joined h.2.2⟩ (ih h.2.2)

end Joined

/-- A segment cannot be lengthened to the left: just before it the value is another. -/
theorem Sharp.changes_before (hl : Sharp l) (h : Tiles a b l) (hs : s ∈ l) (ha : a ≤ u)
    (hu : u < s.start) : ∃ x, u ≤ x ∧ x < s.start ∧ ∃ v, At l x v ∧ v ≠ s.value := by
  obtain ⟨l₁, l₂, rfl⟩ := List.append_of_mem hs
  obtain ⟨c, h₁, h₂⟩ := tiles_append.mp h
  rcases List.eq_nil_or_concat l₁ with rfl | ⟨l₀, p, rfl⟩
  · exact absurd (ha.trans_lt hu) ((Eq.trans h₁ h₂.1.symm) ▸ lt_irrefl s.start)
  · rw [List.concat_eq_append] at h₁ hl ⊢
    obtain ⟨d, -, hp⟩ := tiles_append.mp h₁
    have hstop : p.stop = s.start := hp.2.2.trans h₂.1.symm
    have hproper : p.start < p.stop := hl.proper p (by simp)
    have hdiffer : p.value ≠ s.value := by
      have hchain := hl.differ
      rw [List.append_assoc, List.singleton_append, List.isChain_append_cons_cons] at hchain
      exact hchain.2.1
    refine ⟨max u p.start, le_max_left _ _, max_lt hu (hstop ▸ hproper), p.value, ?_, hdiffer⟩
    exact ⟨p, by simp, le_max_right _ _, hstop ▸ max_lt hu (hstop ▸ hproper), rfl⟩

/-- Nor to the right: just after it the value is another. -/
theorem Sharp.changes_after (hl : Sharp l) (h : Tiles a b l) (hs : s ∈ l) (hu : s.stop < u)
    (hb : u ≤ b) : ∃ x, s.stop ≤ x ∧ x < u ∧ ∃ v, At l x v ∧ v ≠ s.value := by
  obtain ⟨l₁, l₂, rfl⟩ := List.append_of_mem hs
  obtain ⟨c, -, h₂⟩ := tiles_append.mp h
  cases l₂ with
  | nil => exact absurd (hu.trans_le hb) (h₂.2.2 ▸ lt_irrefl s.stop)
  | cons r l₂ =>
    have hstart : r.start = s.stop := h₂.2.2.1
    have hproper : r.start < r.stop := hl.proper r (by simp)
    have hdiffer : s.value ≠ r.value := (List.isChain_append_cons_cons.mp hl.differ).2.1
    refine ⟨s.stop, le_rfl, hu, r.value, ?_, hdiffer.symm⟩
    exact ⟨r, by simp, hstart.le, hstart ▸ hproper, rfl⟩

end Order

section Integral

variable [CommRing K] {a b : K} {s : Segment ρ K} {l : List (Segment ρ K)}

def integral (g : ρ → K) (l : List (Segment ρ K)) : K :=
  (l.map fun s => g s.value * (s.stop - s.start)).sum

@[simp] theorem integral_nil (g : ρ → K) : integral g [] = 0 := rfl

@[simp] theorem integral_cons (g : ρ → K) : integral g (s :: l) =
    g s.value * (s.stop - s.start) + integral g l := List.sum_cons

variable [LinearOrder K] [DecidableEq ρ]

theorem integral_join (g : ρ → K) (h : Tiles a b (s :: l)) :
    integral g (join s l) = integral g (s :: l) := by
  have hempty : s.start = s.stop → g s.value * (s.stop - s.start) = 0 :=
    fun he => by rw [he, sub_self, mul_zero]
  cases l with
  | nil =>
    rw [join]
    split
    · rename_i he
      rw [integral_cons, hempty he, zero_add]
    · rfl
  | cons r l =>
    rw [join]
    split
    · rename_i he
      rw [integral_cons g (s := s), hempty he, zero_add]
    · split
      · rename_i heq
        have hstart : r.start = s.stop := h.2.2.1
        rw [integral_cons, integral_cons, integral_cons, ← heq, hstart]
        ring
      · rfl

theorem integral_joined (g : ρ → K) (h : Tiles a b l) :
    integral g (joined l) = integral g l := by
  induction l generalizing a with
  | nil => rfl
  | cons s l ih =>
    have hjoin : integral g (joined (s :: l)) = integral g (s :: joined l) :=
      integral_join g ⟨h.1, h.2.1, tiles_joined h.2.2⟩
    rw [hjoin, integral_cons, ih h.2.2, integral_cons]

end Integral

end StepTilings
