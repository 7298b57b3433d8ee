import WebhookRecovery.OrderedMaps
import Mathlib.Algebra.BigOperators.Group.List.Basic
import Mathlib.Tactic.Abel

/-! Folds into ordered maps. What a fold leaves under a key is the fold over the items of that key
alone, and a tally loses nothing of what it counts. -/
namespace MapFolds

open OrderedMaps

variable {κ α β : Type} [DecidableEq κ]

def get (m : OrderedMap κ α) (k : κ) : Option α := (m.find? fun e => e.1 == k).map Prod.snd

/-- Each item changes the entry of its key, which starts as `init`. -/
def foldInto (key : β → κ) (step : α → β → α) (init : α) (m : OrderedMap κ α) (l : List β) :
    OrderedMap κ α :=
  l.foldl (fun m b => set m (key b) (step ((get m (key b)).getD init) b)) m

def foldFrom (key : β → κ) (step : α → β → α) (init : κ → α) (m : OrderedMap κ α) (l : List β) :
    OrderedMap κ α :=
  l.foldl (fun m b => set m (key b) (step ((get m (key b)).getD (init (key b))) b)) m

section Entries

variable {m : OrderedMap κ α} {k k' : κ} {v : α}

theorem get_cons (e : κ × α) (m : OrderedMap κ α) (k : κ) :
    get (e :: m) k = if e.1 = k then some e.2 else get m k := by
  by_cases h : e.1 = k
  · rw [get, List.find?_cons_of_pos (by simpa using h), if_pos h]
    rfl
  · rw [get, List.find?_cons_of_neg (by simpa using h), if_neg h]
    rfl

theorem get_eq_none : get m k = none ↔ k ∉ m.map Prod.fst := by
  induction m with
  | nil => simp [get]
  | cons e m ih =>
    rw [get_cons, List.map_cons, List.mem_cons, not_or, ← ih]
    by_cases h : e.1 = k
    · simp [h]
    · simp [h, Ne.symm h]

theorem get_eq_some (hn : (m.map Prod.fst).Nodup) : get m k = some v ↔ (k, v) ∈ m := by
  induction m with
  | nil => simp [get]
  | cons e m ih =>
    obtain ⟨he, hn⟩ := List.nodup_cons.mp hn
    rw [get_cons, List.mem_cons]
    by_cases h : e.1 = k
    · subst h
      rw [if_pos rfl, Option.some.injEq]
      constructor
      · intro hv
        exact Or.inl (Prod.ext rfl hv.symm)
      · rintro (hv | hv)
        · exact (congrArg Prod.snd hv).symm
        · exact absurd (List.mem_map_of_mem hv) he
    · rw [if_neg h, ih hn]
      exact (or_iff_right fun hv => h (congrArg Prod.fst hv).symm).symm

theorem get_replace : get (m.map fun e => if e.1 = k then (k, v) else e) k' =
    if k = k' then (get m k).map fun _ => v else get m k' := by
  induction m with
  | nil => simp [get]
  | cons e m ih =>
    rw [List.map_cons, get_cons, ih, get_cons, get_cons]
    by_cases he : e.1 = k
    · subst he
      by_cases hk : e.1 = k'
      · simp [hk]
      · simp [hk]
    · by_cases hk : k = k'
      · subst hk
        simp [he]
      · simp [he, hk]

theorem get_append (h : k ∉ m.map Prod.fst) :
    get (m ++ [(k, v)]) k' = if k = k' then some v else get m k' := by
  induction m with
  | nil => simp [get]
  | cons e m ih =>
    rw [List.map_cons, List.mem_cons, not_or] at h
    rw [List.cons_append, get_cons, get_cons, ih h.2]
    by_cases hk : k = k'
    · subst hk
      simp [Ne.symm h.1]
    · simp [hk]

theorem get_set : get (set m k v) k' = if k = k' then some v else get m k' := by
  rw [OrderedMaps.set]
  split
  · rename_i hany
    obtain ⟨e, he, hk⟩ := List.any_eq_true.mp hany
    have hmem : k ∈ m.map Prod.fst := List.mem_map.mpr ⟨e, he, beq_iff_eq.mp hk⟩
    obtain ⟨w, hw⟩ := Option.ne_none_iff_exists'.mp (mt get_eq_none.mp (not_not.mpr hmem))
    rw [get_replace, hw]
    rfl
  · rename_i hany
    apply get_append
    intro hk
    obtain ⟨e, he, rfl⟩ := List.mem_map.mp hk
    exact hany (List.any_eq_true.mpr ⟨e, he, beq_self_eq_true _⟩)

end Entries

section Groups

variable {key : β → κ} {step : α → β → α} {init : κ → α} {m : OrderedMap κ α} {l : List β} {k : κ}
variable {start : α} {e : κ × α}

theorem foldFrom_cons {b : β} : foldFrom key step init m (b :: l) = foldFrom key step init
    (set m (key b) (step ((get m (key b)).getD (init (key b))) b)) l := rfl

theorem foldInto_eq : foldInto key step start m l = foldFrom key step (fun _ => start) m l := rfl

theorem foldFrom_nodup (hn : (m.map Prod.fst).Nodup) :
    ((foldFrom key step init m l).map Prod.fst).Nodup := by
  induction l generalizing m with
  | nil => exact hn
  | cons b l ih => exact ih (set_nodup hn)

theorem foldInto_nodup (hn : (m.map Prod.fst).Nodup) :
    ((foldInto key step start m l).map Prod.fst).Nodup := by
  rw [foldInto_eq]
  exact foldFrom_nodup hn

theorem getD_foldFrom : (get (foldFrom key step init m l) k).getD (init k) =
    (l.filter fun b => decide (key b = k)).foldl step ((get m k).getD (init k)) := by
  induction l generalizing m with
  | nil => rfl
  | cons b l ih =>
    rw [foldFrom_cons, ih, get_set]
    by_cases hk : key b = k
    · subst hk
      simp
    · simp [hk]

theorem getD_foldInto : (get (foldInto key step start m l) k).getD start =
    (l.filter fun b => decide (key b = k)).foldl step ((get m k).getD start) := by
  rw [foldInto_eq]
  exact getD_foldFrom

theorem get_foldFrom_isSome : (get (foldFrom key step init m l) k).isSome ↔
    (get m k).isSome ∨ ∃ b ∈ l, key b = k := by
  induction l generalizing m with
  | nil => simp [foldFrom]
  | cons b l ih =>
    rw [foldFrom_cons, ih, get_set]
    by_cases hk : key b = k <;> simp [hk]

theorem get_foldInto_isSome : (get (foldInto key step start m l) k).isSome ↔
    (get m k).isSome ∨ ∃ b ∈ l, key b = k := by
  rw [foldInto_eq]
  exact get_foldFrom_isSome

/-- What a fold into the empty map holds: one entry for each key of an item. -/
theorem mem_foldFrom : e ∈ foldFrom key step init [] l ↔ (∃ b ∈ l, key b = e.1) ∧
    e.2 = (l.filter fun b => decide (key b = e.1)).foldl step (init e.1) := by
  have hn : ((foldFrom key step init [] l).map Prod.fst).Nodup := foldFrom_nodup List.nodup_nil
  have hentry : (get (foldFrom key step init [] l) e.1).getD (init e.1) = _ := getD_foldFrom
  have hkey : (get (foldFrom key step init [] l) e.1).isSome ↔ _ := get_foldFrom_isSome
  rw [← Prod.mk.eta (p := e), ← get_eq_some hn]
  constructor
  · intro he
    rw [he] at hentry hkey
    exact ⟨(hkey.mp rfl).resolve_left Bool.false_ne_true, hentry⟩
  · rintro ⟨hmem, he⟩
    obtain ⟨v, hv⟩ := Option.isSome_iff_exists.mp (hkey.mpr (Or.inr hmem))
    rw [hv, Option.getD_some] at hentry
    rw [hv, he, hentry]
    rfl

end Groups

section Tallies

variable [AddCommGroup α] {m : OrderedMap κ α} {k : κ} {v : α}

theorem sum_values_set (hn : (m.map Prod.fst).Nodup) :
    (values (set m k v)).sum = (values m).sum - (get m k).getD 0 + v := by
  rw [OrderedMaps.set]
  split
  · rename_i hany
    induction m with
    | nil => cases hany
    | cons e m ih =>
      obtain ⟨he, hn⟩ := List.nodup_cons.mp hn
      rw [values, List.map_cons, List.map_cons, List.sum_cons, values, List.map_cons,
        List.sum_cons, get_cons]
      by_cases hk : e.1 = k
      · subst hk
        have hsame : (m.map fun x => if x.1 = e.1 then (e.1, v) else x) = m := by
          refine (List.map_congr_left fun x hx => ?_).trans (List.map_id m)
          exact if_neg fun hxe => he (List.mem_map.mpr ⟨x, hx, hxe⟩)
        rw [hsame, if_pos rfl, if_pos rfl, Option.getD_some]
        abel
      · have hany' : m.any (fun x => x.1 == k) = true := by
          rw [List.any_cons, Bool.or_eq_true, beq_iff_eq] at hany
          exact hany.resolve_left hk
        have hsum := ih hn hany'
        rw [values, values] at hsum
        rw [if_neg hk, if_neg hk, hsum]
        abel
  · rename_i hany
    have hfresh : get m k = none := by
      refine get_eq_none.mpr fun hk => hany ?_
      obtain ⟨e, he, rfl⟩ := List.mem_map.mp hk
      exact List.any_eq_true.mpr ⟨e, he, beq_self_eq_true _⟩
    rw [hfresh, Option.getD_none, sub_zero, values, List.map_append, List.sum_append,
      List.map_singleton, List.sum_singleton, values]

variable {key : β → κ} {weight : β → α} {l : List β}

theorem foldl_add (a : α) (l : List β) :
    l.foldl (fun a b => a + weight b) a = a + (l.map weight).sum := by
  induction l generalizing a with
  | nil => simp
  | cons b l ih => rw [List.foldl_cons, ih, List.map_cons, List.sum_cons, add_assoc]

/-- Groups of different keys do not overlap, so their sums add up. -/
theorem sum_fibers {keys : List κ} (hn : keys.Nodup) (l : List β) :
    (keys.map fun k => ((l.filter fun b => decide (key b = k)).map weight).sum).sum =
      ((l.filter fun b => decide (key b ∈ keys)).map weight).sum := by
  have split : ∀ (k : κ) (keys : List κ), k ∉ keys → ∀ l : List β,
      ((l.filter fun b => decide (key b ∈ k :: keys)).map weight).sum =
        ((l.filter fun b => decide (key b = k)).map weight).sum +
          ((l.filter fun b => decide (key b ∈ keys)).map weight).sum := by
    intro k keys hk l
    induction l with
    | nil => simp
    | cons b l ih =>
      by_cases hb : key b = k
      · have hnot : key b ∉ keys := hb ▸ hk
        simp only [List.filter_cons, hb, List.mem_cons, true_or, decide_true, if_true,
          List.map_cons, List.sum_cons] at ih ⊢
        rw [if_neg (by simpa [hb] using hnot), ih, add_assoc]
      · by_cases hmem : key b ∈ keys
        · simp only [List.filter_cons, hb, hmem, List.mem_cons, or_true, decide_true, decide_false,
            if_true, List.map_cons, List.sum_cons, Bool.false_eq_true, if_false] at ih ⊢
          rw [ih]
          abel
        · simp only [List.filter_cons, hb, hmem, List.mem_cons, or_self, decide_false,
            Bool.false_eq_true, if_false] at ih ⊢
          exact ih
  induction keys with
  | nil => simp
  | cons k keys ih =>
    obtain ⟨hk, hn⟩ := List.nodup_cons.mp hn
    rw [List.map_cons, List.sum_cons, ih hn, split k keys hk l]

theorem getD_tally : (get (foldInto key (fun a b => a + weight b) 0 m l) k).getD 0 =
    (get m k).getD 0 + ((l.filter fun b => decide (key b = k)).map weight).sum := by
  rw [getD_foldInto, foldl_add]

theorem sum_tally (hn : (m.map Prod.fst).Nodup) :
    (values (foldInto key (fun a b => a + weight b) 0 m l)).sum =
      (values m).sum + (l.map weight).sum := by
  induction l generalizing m with
  | nil => simp [foldInto]
  | cons b l ih =>
    have hrest : foldInto key (fun a b => a + weight b) 0 m (b :: l) =
        foldInto key (fun a b => a + weight b) 0
          (set m (key b) ((get m (key b)).getD 0 + weight b)) l := rfl
    rw [hrest, ih (set_nodup hn), sum_values_set hn, List.map_cons, List.sum_cons]
    abel

end Tallies

end MapFolds
