import Mathlib.Data.Nat.Basic

/-! An advisory lock of sessions: exclusive between them, counted within one, and gone with the
session that holds it. It knows nothing of transactions. -/
namespace AdvisoryLocks

variable {σ : Type}

structure Hold (σ : Type) where
  session : σ
  count : ℕ
  positive : 0 < count

abbrev Lock (σ : Type) := Option (Hold σ)

def holder (l : Lock σ) : Option σ := l.map Hold.session

variable [DecidableEq σ]

def count (l : Lock σ) (s : σ) : ℕ :=
  match l with
  | none => 0
  | some h => if h.session = s then h.count else 0

/-- Never blocks: the answer says whether the session holds the lock now. -/
def tryLock (l : Lock σ) (s : σ) : Bool × Lock σ :=
  match l with
  | none => (true, some ⟨s, 1, Nat.one_pos⟩)
  | some h => if h.session = s then (true, some ⟨s, h.count + 1, Nat.succ_pos _⟩) else (false, l)

/-- Undoes one acquisition, of the session that asks only. -/
def unlock (l : Lock σ) (s : σ) : Lock σ :=
  match l with
  | none => none
  | some h =>
    if h.session = s then
      if hc : 1 < h.count then some ⟨s, h.count - 1, Nat.sub_pos_of_lt hc⟩ else none
    else l

def endSession (l : Lock σ) (s : σ) : Lock σ := if holder l = some s then none else l

variable {l : Lock σ} {s u : σ}

theorem holder_iff_count : holder l = some s ↔ 0 < count l s := by
  cases l with
  | none => simp [holder, count]
  | some h =>
    by_cases hs : h.session = s
    · simp [holder, count, hs, h.positive]
    · simp [holder, count, hs]

theorem tryLock_cases : ((tryLock l s).1 = true ∧ holder (tryLock l s).2 = some s ∧
      (holder l = none ∨ holder l = some s) ∧ count (tryLock l s).2 s = count l s + 1) ∨
    ((tryLock l s).1 = false ∧ (tryLock l s).2 = l ∧ holder l ≠ some s) := by
  cases l with
  | none => exact Or.inl ⟨rfl, rfl, Or.inl rfl, by simp [tryLock, count]⟩
  | some h =>
    by_cases hs : h.session = s
    · refine Or.inl ⟨by simp [tryLock, hs], by simp [tryLock, hs, holder], Or.inr ?_, ?_⟩
      · simp [holder, hs]
      · simp [tryLock, count, hs]
    · exact Or.inr ⟨by simp [tryLock, hs], by simp [tryLock, hs], by simp [holder, hs]⟩

theorem tryLock_free (h : holder l = none) : (tryLock l s).1 = true := by
  cases l with
  | none => rfl
  | some k => cases h

theorem unlock_other (h : holder l ≠ some s) : unlock l s = l := by
  cases l with
  | none => rfl
  | some k =>
    have hs : k.session ≠ s := fun hs => h (by simp [holder, hs])
    simp [unlock, hs]

theorem unlock_holder (h : holder l = some s) : holder (unlock l s) =
    if count l s = 1 then none else some s := by
  cases l with
  | none => cases h
  | some k =>
    have hs : k.session = s := by simpa [holder] using h
    have hp := k.positive
    by_cases hc : 1 < k.count
    · have hne : k.count ≠ 1 := by omega
      simp [unlock, hs, hc, holder, count, hne]
    · have he : k.count = 1 := by omega
      simp [unlock, hs, holder, count, he]

theorem unlock_keeps (h : holder (unlock l s) = some u) : holder l = some u := by
  by_cases hs : holder l = some s
  · rw [unlock_holder hs] at h
    split at h
    · cases h
    · exact hs.trans h
  · rwa [unlock_other hs] at h

theorem endSession_holder : holder (endSession l s) =
    if holder l = some s then none else holder l := by
  rw [endSession]
  split
  · rfl
  · rfl

theorem endSession_keeps (h : holder (endSession l s) = some u) :
    holder l = some u ∧ u ≠ s := by
  rw [endSession_holder] at h
  split at h
  · cases h
  · rename_i hs
    refine ⟨h, ?_⟩
    rintro rfl
    exact hs h

end AdvisoryLocks
