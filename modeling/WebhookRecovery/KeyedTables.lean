import Mathlib.Data.List.Dedup
import Mathlib.Data.List.Nodup
import Mathlib.Data.Nat.Basic
import Mathlib.Algebra.BigOperators.Group.List.Basic
import Mathlib.Algebra.Ring.Nat

/-! Tables with a serial primary key. A table carries the proof that its keys increase in
insertion order and stay below the sequence that hands them out, so a row is identified by
its key and every update keeps it where it was. Grouped counts are here too. -/
namespace KeyedTables

class Keyed (α : Type) where
  key : α → ℕ

export Keyed (key)

variable {α β π κ : Type}

section Rows

variable [Keyed α]

structure Table (α : Type) [Keyed α] where
  rows : List α
  next : ℕ
  ordered : rows.Pairwise fun a b => key a < key b
  bounded : ∀ r ∈ rows, key r < next

def Table.empty : Table α := ⟨[], 1, .nil, by simp⟩

theorem Table.nodup_keys (t : Table α) : (t.rows.map key).Nodup := by
  rw [List.Nodup, List.pairwise_map]
  exact t.ordered.imp fun h => Nat.ne_of_lt h

theorem Table.nodup (t : Table α) : t.rows.Nodup := t.nodup_keys.of_map

theorem Table.row_unique (t : Table α) {r s : α} (hr : r ∈ t.rows) (hs : s ∈ t.rows)
    (h : key r = key s) : r = s :=
  List.inj_on_of_nodup_map t.nodup_keys hr hs h

theorem Table.find?_key (t : Table α) {r : α} (hr : r ∈ t.rows) :
    t.rows.find? (fun s => key s == key r) = some r := by
  cases h : t.rows.find? fun s => key s == key r with
  | none => exact absurd (beq_iff_eq.mpr rfl) (List.find?_eq_none.mp h r hr)
  | some s =>
    have hkey : key s = key r := by simpa using List.find?_some h
    rw [t.row_unique (List.mem_of_find?_eq_some h) hr hkey]

/-- `UPDATE … SET f WHERE p`. -/
def Table.updateWhere (t : Table α) (p : α → Bool) (f : α → α)
    (hf : ∀ r, key (f r) = key r) : Table α where
  rows := t.rows.map fun r => if p r then f r else r
  next := t.next
  ordered := by
    rw [List.pairwise_map]
    refine t.ordered.imp fun {a b} h => ?_
    split <;> split <;> simpa only [hf] using h
  bounded := by
    intro r hr
    obtain ⟨s, hs, rfl⟩ := List.mem_map.mp hr
    split
    · simpa only [hf] using t.bounded s hs
    · exact t.bounded s hs

@[simp] theorem Table.updateWhere_rows (t : Table α) (p : α → Bool) (f : α → α) (hf) :
    (t.updateWhere p f hf).rows = t.rows.map fun r => if p r then f r else r := rfl

def Table.filter (t : Table α) (p : α → Bool) : Table α where
  rows := t.rows.filter p
  next := t.next
  ordered := t.ordered.filter p
  bounded := fun r hr => t.bounded r (List.mem_of_mem_filter hr)

/-- One row under a prepared update that is run once for each parameter set. -/
def applyAll (p : π → α → Bool) (f : π → α → α) (params : List π) (r : α) : α :=
  params.foldl (fun r x => if p x r then f x r else r) r

def Table.executemany (t : Table α) (params : List π) (p : π → α → Bool) (f : π → α → α)
    (hf : ∀ x r, key (f x r) = key r) : Table α :=
  params.foldl (fun t x => t.updateWhere (p x) (f x) (hf x)) t

theorem Table.executemany_rows (params : List π) (p : π → α → Bool) (f : π → α → α) (hf)
    (t : Table α) : (t.executemany params p f hf).rows = t.rows.map (applyAll p f params) := by
  unfold Table.executemany
  induction params generalizing t with
  | nil => exact (List.map_id _).symm
  | cons x params ih =>
    rw [List.foldl_cons, ih, updateWhere_rows, List.map_map]
    rfl

section ByKey

variable {p : π → α → Bool} {f : π → α → α} {k : π → ℕ}

theorem applyAll_of_notMem (hk : ∀ x r, p x r → k x = key r) {params : List π} {r : α}
    (h : ∀ x ∈ params, k x ≠ key r) : applyAll p f params r = r := by
  unfold applyAll
  induction params with
  | nil => rfl
  | cons x params ih =>
    have hx : p x r = false := by
      by_contra hp
      exact h x (by simp) (hk x r (by simpa using hp))
    rw [List.foldl_cons, hx]
    exact ih fun y hy => h y (List.mem_cons_of_mem _ hy)

/-- When keys are not repeated, the one parameter set with the row's key decides. -/
theorem applyAll_of_mem (hk : ∀ x r, p x r → k x = key r)
    (hf : ∀ x r, key (f x r) = key r) {params : List π} (hn : (params.map k).Nodup) {x : π}
    (hx : x ∈ params) {r : α} (h : k x = key r) :
    applyAll p f params r = if p x r then f x r else r := by
  unfold applyAll
  induction params with
  | nil => simp at hx
  | cons y params ih =>
    rw [List.map_cons, List.nodup_cons] at hn
    rw [List.foldl_cons]
    rcases List.mem_cons.mp hx with rfl | hx
    · -- the remaining parameter sets name other keys
      refine applyAll_of_notMem hk fun z hz he => hn.1 ?_
      refine List.mem_map.mpr ⟨z, hz, ?_⟩
      rw [he, h]
      split
      · exact hf x r
      · rfl
    · have hy : p y r = false := by
        by_contra hp
        have hyr := hk y r (by simpa using hp)
        exact hn.1 (List.mem_map.mpr ⟨x, hx, h.trans hyr.symm⟩)
      rw [hy]
      exact ih hn.2 hx

/-- Parameter sets of one key overwrite each other: the last one stands. -/
theorem applyAll_of_overwrite (hk : ∀ x r, p x r ↔ k x = key r)
    (hf : ∀ x r, key (f x r) = key r) (ho : ∀ x y r, f x (f y r) = f x r) (params : List π)
    (r : α) :
    ((∀ x ∈ params, k x ≠ key r) ∧ applyAll p f params r = r) ∨
      ∃ x ∈ params, k x = key r ∧ applyAll p f params r = f x r := by
  unfold applyAll
  induction params generalizing r with
  | nil => exact Or.inl ⟨by simp, rfl⟩
  | cons x params ih =>
    rw [List.foldl_cons]
    by_cases hx : p x r
    · rw [if_pos hx]
      refine Or.inr ?_
      rcases ih (f x r) with ⟨_, h⟩ | ⟨y, hy, hyk, h⟩
      · exact ⟨x, by simp, (hk x r).mp hx, h⟩
      · exact ⟨y, List.mem_cons_of_mem _ hy, by rwa [hf] at hyk, h.trans (ho y x r)⟩
    · rw [if_neg hx]
      rcases ih r with ⟨hn, h⟩ | ⟨y, hy, hyk, h⟩
      · refine Or.inl ⟨fun z hz => ?_, h⟩
        rcases List.mem_cons.mp hz with rfl | hz
        · exact fun hzk => hx ((hk z r).mpr hzk)
        · exact hn z hz
      · exact Or.inr ⟨y, List.mem_cons_of_mem _ hy, hyk, h⟩

end ByKey

theorem zipIdx_ordered (items : List β) (n : ℕ) :
    (items.zipIdx n).Pairwise fun a b => a.2 < b.2 := by
  induction items generalizing n with
  | nil => exact .nil
  | cons b items ih =>
    rw [List.zipIdx_cons]
    exact List.pairwise_cons.mpr ⟨fun _ hx => List.le_snd_of_mem_zipIdx hx, ih (n + 1)⟩

theorem filter_zipIdx_of_mem {k : β → ℕ} {l : List β} (hn : (l.map k).Nodup) {x : β}
    (hx : x ∈ l) (n : ℕ) : ∃ i, (l.zipIdx n).filter (fun y => k y.1 == k x) = [(x, i)] := by
  induction l generalizing n with
  | nil => simp at hx
  | cons b l ih =>
    rw [List.map_cons, List.nodup_cons] at hn
    rw [List.zipIdx_cons]
    rcases List.mem_cons.mp hx with rfl | hx
    · refine ⟨n, ?_⟩
      rw [List.filter_cons_of_pos (by simp), List.filter_eq_nil_iff.mpr]
      intro y hy hk
      exact hn.1 (List.mem_map.mpr ⟨y.1, List.fst_mem_of_mem_zipIdx hy, beq_iff_eq.mp hk⟩)
    · have hb : ¬ k b = k x := fun h => hn.1 (List.mem_map.mpr ⟨x, hx, h.symm⟩)
      obtain ⟨i, hi⟩ := ih hn.2 hx (n + 1)
      refine ⟨i, ?_⟩
      rw [List.filter_cons_of_neg (by simpa using hb)]
      exact hi

theorem flatMap_filter_of_mem {γ : Type} [DecidableEq κ] {k : β → κ} {f : β → List γ} {g : γ → κ}
    {l : List β} (hn : (l.map k).Nodup) (hf : ∀ x ∈ l, ∀ y ∈ f x, g y = k x) {x : β}
    (hx : x ∈ l) : (l.flatMap f).filter (fun y => g y == k x) = f x := by
  induction l with
  | nil => cases hx
  | cons b l ih =>
    have hrest : ∀ z ∈ l, ∀ y ∈ f z, g y = k z := fun z hz => hf z (List.mem_cons_of_mem _ hz)
    rw [List.map_cons, List.nodup_cons] at hn
    rw [List.flatMap_cons, List.filter_append]
    rcases List.mem_cons.mp hx with rfl | hx
    · have hself : (f x).filter (fun y => g y == k x) = f x :=
        List.filter_eq_self.mpr fun y hy => beq_iff_eq.mpr (hf x List.mem_cons_self y hy)
      have hnone : (l.flatMap f).filter (fun y => g y == k x) = [] := by
        refine List.filter_eq_nil_iff.mpr fun y hy he => hn.1 ?_
        obtain ⟨z, hz, hyz⟩ := List.mem_flatMap.mp hy
        exact List.mem_map.mpr ⟨z, hz, (hrest z hz y hyz).symm.trans (beq_iff_eq.mp he)⟩
      rw [hself, hnone, List.append_nil]
    · have hnone : (f b).filter (fun y => g y == k x) = [] := by
        refine List.filter_eq_nil_iff.mpr fun y hy he => hn.1 ?_
        have hbx : k b = k x := (hf b List.mem_cons_self y hy).symm.trans (beq_iff_eq.mp he)
        exact hbx ▸ List.mem_map_of_mem hx
      rw [hnone, List.nil_append]
      exact ih hn.2 hrest hx

/-- `INSERT … RETURNING`: every item gets the next value of the sequence. -/
def Table.insertAll (t : Table α) (items : List β) (mk : ℕ → β → α)
    (hmk : ∀ n b, key (mk n b) = n) : Table α where
  rows := t.rows ++ (items.zipIdx t.next).map fun x => mk x.2 x.1
  next := t.next + items.length
  ordered := by
    refine List.pairwise_append.mpr ⟨t.ordered, ?_, fun r hr s hs => ?_⟩
    · rw [List.pairwise_map]
      exact (zipIdx_ordered items t.next).imp fun h => by simpa only [hmk] using h
    · obtain ⟨x, hx, rfl⟩ := List.mem_map.mp hs
      rw [hmk]
      exact Nat.lt_of_lt_of_le (t.bounded r hr) (List.le_snd_of_mem_zipIdx hx)
  bounded := by
    intro r hr
    rcases List.mem_append.mp hr with hr | hr
    · exact Nat.lt_add_right _ (t.bounded r hr)
    · obtain ⟨x, hx, rfl⟩ := List.mem_map.mp hr
      rw [hmk]
      exact List.snd_lt_add_of_mem_zipIdx hx

end Rows

theorem applyAll_field {γ : Type} {p : π → α → Bool} {f : π → α → α} {g : α → γ}
    (hf : ∀ x r, g (f x r) = g r) (params : List π) (r : α) : g (applyAll p f params r) = g r := by
  unfold applyAll
  induction params generalizing r with
  | nil => rfl
  | cons x params ih =>
    rw [List.foldl_cons, ih]
    split
    · exact hf x r
    · rfl

/-- `SELECT k, COUNT(*) … GROUP BY k`. -/
def groupCount [DecidableEq κ] (l : List κ) : List (κ × ℕ) :=
  l.dedup.map fun k => (k, l.count k)

def countOf [DecidableEq κ] (g : List (κ × ℕ)) (k : κ) : ℕ := (g.lookup k).getD 0

@[simp] theorem countOf_groupCount [DecidableEq κ] (l : List κ) (k : κ) :
    countOf (groupCount l) k = l.count k := by
  have main : ∀ d : List κ, ((d.map fun k => (k, l.count k)).lookup k).getD 0 =
      if k ∈ d then l.count k else 0 := by
    intro d
    induction d with
    | nil => simp
    | cons x d ih =>
      by_cases hx : k = x
      · subst hx; simp
      · have hb : (k == x) = false := by simpa using hx
        simp [List.lookup_cons, hb, ih, hx]
  rw [countOf, groupCount, main]
  split
  · rfl
  · rename_i hk
    exact (List.count_eq_zero.mpr fun h => hk (List.mem_dedup.mpr h)).symm

theorem eq_nil_of_groupCount [DecidableEq κ] {l : List κ}
    (h : ((groupCount l).map Prod.snd).sum = 0) : l = [] := by
  refine List.eq_nil_iff_forall_not_mem.mpr fun k hk => ?_
  have hentry : l.count k ∈ (groupCount l).map Prod.snd := by
    rw [groupCount, List.map_map]
    exact List.mem_map_of_mem (f := fun k => l.count k) (List.mem_dedup.mpr hk)
  exact absurd hk (List.count_eq_zero.mp (List.sum_eq_zero_iff_forall_eq_nat.mp h _ hentry))

/-- `SELECT f, COUNT(*) … WHERE p GROUP BY f`. -/
theorem countOf_groupCount_map [DecidableEq κ] (l : List α) (p : α → Bool) (f : α → κ) (k : κ) :
    countOf (groupCount ((l.filter p).map f)) k = l.countP fun x => p x && decide (f x = k) := by
  rw [countOf_groupCount]
  induction l with
  | nil => rfl
  | cons x l ih =>
    cases hp : p x
    · simp [hp, ih]
    · by_cases hk : f x = k
      · simp [hp, hk, ih]
      · simp [hp, hk, ih]

theorem countOf_groupCount_filterMap [DecidableEq κ] (l : List α) (f : α → Option κ) (k : κ) :
    countOf (groupCount (l.filterMap f)) k = l.countP fun x => decide (f x = some k) := by
  rw [countOf_groupCount]
  induction l with
  | nil => rfl
  | cons x l ih =>
    cases hf : f x with
    | none => simp [hf, ih]
    | some y => simp [List.countP_cons, hf, ih, List.count_cons]

theorem countP_eq_sum (p : α → Bool) (l : List α) :
    l.countP p = (l.map fun x => if p x then 1 else 0).sum := by
  induction l with
  | nil => rfl
  | cons x l ih => rw [List.countP_cons, List.map_cons, List.sum_cons, ih, add_comm]

theorem countP_split (p m : α → Bool) (l : List α) :
    l.countP p = l.countP (fun x => p x && m x) + l.countP fun x => p x && !m x := by
  induction l with
  | nil => rfl
  | cons x l ih =>
    cases hp : p x <;> cases hm : m x <;> simp [hp, hm] <;> omega

theorem countP_and_eq_iff (p m : α → Bool) (l : List α) :
    (l.countP fun x => p x && m x) = l.countP p ↔ ∀ x ∈ l, p x → m x := by
  have hsplit := countP_split p m l
  have hnone : (l.countP fun x => p x && !m x) = 0 ↔ ∀ x ∈ l, p x → m x := by
    rw [List.countP_eq_zero]
    refine forall₂_congr fun x _ => ?_
    cases p x <;> cases m x <;> simp
  rw [← hnone]
  omega

/-- Groups of different keys do not overlap, so their counts add up. -/
theorem sum_countP_fibers [DecidableEq κ] (l : List α) (p : α → Bool) (f : α → κ) {keys : List κ}
    (hn : keys.Nodup) : (keys.map fun k => l.countP fun x => p x && decide (f x = k)).sum =
      l.countP fun x => p x && decide (f x ∈ keys) := by
  induction keys with
  | nil => simp
  | cons k keys ih =>
    obtain ⟨hk, hn⟩ := List.nodup_cons.mp hn
    rw [List.map_cons, List.sum_cons, ih hn,
      countP_split (fun x => p x && decide (f x ∈ k :: keys)) (fun x => decide (f x = k))]
    congr 1
    · refine List.countP_congr fun x _ => ?_
      by_cases hx : f x = k <;> simp [hx]
    · refine List.countP_congr fun x _ => ?_
      by_cases hx : f x = k
      · simp [hx, hk]
      · simp [hx]

end KeyedTables
