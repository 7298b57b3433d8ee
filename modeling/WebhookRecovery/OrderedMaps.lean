import Mathlib.Data.List.Nodup
import Mathlib.Data.List.Sort
import Mathlib.Data.Prod.Lex

/-! Maps that remember in which order their keys were inserted: setting a key that is there keeps
its place. And lists sorted by a key of which there is one element each, so that their elements
determine them. -/
namespace OrderedMaps

variable {κ α : Type} [DecidableEq κ]

abbrev OrderedMap (κ α : Type) := List (κ × α)

def set (m : OrderedMap κ α) (k : κ) (v : α) : OrderedMap κ α :=
  if m.any fun e => e.1 == k then m.map fun e => if e.1 = k then (k, v) else e else m ++ [(k, v)]

def setAll (key : α → κ) (m : OrderedMap κ α) (l : List α) : OrderedMap κ α :=
  l.foldl (fun m x => set m (key x) x) m

def values (m : OrderedMap κ α) : List α := m.map Prod.snd

variable {key : α → κ} {m : OrderedMap κ α} {k : κ} {v : α} {e : κ × α} {l : List α}

theorem mem_set : e ∈ set m k v ↔ e = (k, v) ∨ e ∈ m ∧ e.1 ≠ k := by
  rw [set]
  split
  · rename_i hany
    obtain ⟨x, hx, hk⟩ := List.any_eq_true.mp hany
    rw [beq_iff_eq] at hk
    simp only [List.mem_map]
    constructor
    · rintro ⟨y, hy, rfl⟩
      by_cases hyk : y.1 = k
      · exact Or.inl (if_pos hyk)
      · rw [if_neg hyk]
        exact Or.inr ⟨hy, hyk⟩
    · rintro (rfl | ⟨he, hek⟩)
      · exact ⟨x, hx, if_pos hk⟩
      · exact ⟨e, he, if_neg hek⟩
  · rename_i hany
    have hfresh : ∀ x ∈ m, x.1 ≠ k := fun x hx hk =>
      hany (List.any_eq_true.mpr ⟨x, hx, beq_iff_eq.mpr hk⟩)
    rw [List.mem_append, List.mem_singleton]
    constructor
    · rintro (he | he)
      · exact Or.inr ⟨he, hfresh e he⟩
      · exact Or.inl he
    · rintro (he | ⟨he, -⟩)
      · exact Or.inr he
      · exact Or.inl he

theorem set_nodup (hn : (m.map Prod.fst).Nodup) : ((set m k v).map Prod.fst).Nodup := by
  rw [set]
  split
  · have hkeys : (m.map fun e => if e.1 = k then (k, v) else e).map Prod.fst = m.map Prod.fst := by
      rw [List.map_map]
      refine List.map_congr_left fun e _ => ?_
      by_cases he : e.1 = k <;> simp [he]
    rwa [hkeys]
  · rename_i hany
    rw [List.map_append, List.map_singleton]
    refine List.Nodup.append hn (List.nodup_singleton _) ?_
    intro x hx hk
    obtain ⟨e, he, rfl⟩ := List.mem_map.mp hx
    rw [List.mem_singleton] at hk
    exact hany (List.any_eq_true.mpr ⟨e, he, beq_iff_eq.mpr hk⟩)

theorem setAll_nodup (hn : (m.map Prod.fst).Nodup) : ((setAll key m l).map Prod.fst).Nodup := by
  induction l generalizing m with
  | nil => exact hn
  | cons x l ih => exact ih (set_nodup hn)

theorem mem_setAll (hl : (l.map key).Nodup) :
    e ∈ setAll key m l ↔ (e.2 ∈ l ∧ key e.2 = e.1) ∨ e ∈ m ∧ ∀ x ∈ l, key x ≠ e.1 := by
  induction l generalizing m with
  | nil => simp [setAll]
  | cons x l ih =>
    obtain ⟨hx, hl⟩ := List.nodup_cons.mp hl
    have hrest : e ∈ setAll key m (x :: l) ↔ e ∈ setAll key (set m (key x) x) l := Iff.rfl
    rw [hrest, ih hl, mem_set]
    constructor
    · rintro (⟨he, hk⟩ | ⟨rfl | ⟨he, hek⟩, hfresh⟩)
      · exact Or.inl ⟨List.mem_cons_of_mem _ he, hk⟩
      · exact Or.inl ⟨List.mem_cons_self, rfl⟩
      · refine Or.inr ⟨he, fun y hy => ?_⟩
        rcases List.mem_cons.mp hy with rfl | hy
        · exact hek.symm
        · exact hfresh y hy
    · rintro (⟨he, hk⟩ | ⟨he, hfresh⟩)
      · rcases List.mem_cons.mp he with hex | he
        · refine Or.inr ⟨Or.inl ?_, fun y hy hyk => hx ?_⟩
          · exact Prod.ext (hk.symm.trans (congrArg key hex)) hex
          · rw [← congrArg key hex, hk, ← hyk]
            exact List.mem_map_of_mem hy
        · exact Or.inl ⟨he, hk⟩
      · exact Or.inr ⟨Or.inr ⟨he, (hfresh x List.mem_cons_self).symm⟩,
          fun y hy => hfresh y (List.mem_cons_of_mem _ hy)⟩

theorem values_setAll_keys (hn : (m.map Prod.fst).Nodup) (hm : ∀ e ∈ m, key e.2 = e.1)
    (hl : (l.map key).Nodup) : ((values (setAll key m l)).map key).Nodup := by
  have hkeys : (values (setAll key m l)).map key = (setAll key m l).map Prod.fst := by
    rw [values, List.map_map]
    refine List.map_congr_left fun e he => ?_
    rcases (mem_setAll hl).mp he with ⟨-, hk⟩ | ⟨he, -⟩
    · exact hk
    · exact hm e he
  rw [hkeys]
  exact setAll_nodup hn

section Sorted

variable {β : Type} [LinearOrder β] {place : α → β} {x y : List α}

/-- `ORDER BY`, and a stable sort by the same comparison. -/
def sortBy (place : α → β) (l : List α) : List α := l.insertionSort fun a b => place a ≤ place b

theorem mem_sortBy {a : α} : a ∈ sortBy place x ↔ a ∈ x :=
  (List.perm_insertionSort _ _).mem_iff

theorem sortBy_strict (hn : (x.map place).Nodup) :
    (sortBy place x).Pairwise fun a b => place a < place b := by
  have hsorted : (sortBy place x).Pairwise fun a b => place a ≤ place b :=
    List.pairwise_insertionSort _ _
  have hnodup : ((sortBy place x).map place).Nodup :=
    (((List.perm_insertionSort _ _).map place).nodup_iff).mpr hn
  rw [List.Nodup, List.pairwise_map] at hnodup
  exact (hsorted.and hnodup).imp fun h => lt_of_le_of_ne h.1 h.2

/-- Two lists that are sorted strictly are the same if they have the same elements. -/
theorem eq_of_strict (hx : x.Pairwise fun a b => place a < place b)
    (hy : y.Pairwise fun a b => place a < place b) (h : ∀ a, a ∈ x ↔ a ∈ y) : x = y := by
  have nodup : ∀ {l : List α}, (l.Pairwise fun a b => place a < place b) → l.Nodup := by
    intro l hl
    refine hl.imp ?_
    rintro a _ hab rfl
    exact lt_irrefl _ hab
  refine List.Perm.eq_of_pairwise (fun a b _ _ hab hba => ?_) hx hy
    ((List.perm_ext_iff_of_nodup (nodup hx) (nodup hy)).mpr h)
  exact absurd hab (not_lt_of_gt hba)

theorem nodup_of_strict (hx : x.Pairwise fun a b => place a < place b) : (x.map place).Nodup := by
  rw [List.Nodup, List.pairwise_map]
  exact hx.imp fun h => h.ne

/-- What does not fit at the head of a list comes after all that does, and the head is full. -/
theorem strict_of_notMem_take {n : ℕ} {a : α} (hx : x.Pairwise fun a b => place a < place b)
    (ha : a ∈ x) (hn : a ∉ x.take n) :
    (x.take n).length = n ∧ ∀ b ∈ x.take n, place b < place a := by
  rw [← List.take_append_drop n x] at hx ha
  have hdrop : a ∈ x.drop n := (List.mem_append.mp ha).resolve_left hn
  have hlong : n < x.length := by
    by_contra hle
    rw [List.drop_eq_nil_of_le (not_lt.mp hle)] at hdrop
    cases hdrop
  refine ⟨List.length_take_of_le hlong.le, fun b hb => ?_⟩
  exact (List.pairwise_append.mp hx).2.2 b hb a hdrop

end Sorted

end OrderedMaps
