import Mathlib.Algebra.Order.Group.Defs
import Mathlib.Algebra.Order.Sub.Basic
import Mathlib.Order.Interval.Set.Basic

/-! A line that is worked off from a mark, one window after the other. A window takes up all that
is past the mark, or the last part of it when it has come to more than is within reach. -/
namespace HighWaterMarks

/-- Open where it starts and closed where it ends. -/
structure Window (K : Type) where
  since : K
  upTo : K
  deriving DecidableEq, Repr

variable {K : Type}

def markAfter (mark : K) (l : List (Window K)) : K := l.foldl (fun _ w => w.upTo) mark

section Marks

variable {mark : K} {w : Window K} {l m : List (Window K)}

@[simp] theorem markAfter_nil : markAfter mark [] = mark := rfl

@[simp] theorem markAfter_cons : markAfter mark (w :: l) = markAfter w.upTo l := rfl

theorem markAfter_append : markAfter mark (l ++ m) = markAfter (markAfter mark l) m :=
  List.foldl_append

end Marks

variable [AddCommGroup K] [LinearOrder K]

def Window.points (w : Window K) : Set K := Set.Ioc w.since w.upTo

def taken (reach mark now : K) : Window K :=
  ⟨if reach < now - mark then now - reach else mark, now⟩

/-- Each window is taken up from where the one before ended, and ends later. -/
def Consecutive (reach : K) : K → List (Window K) → Prop
  | _, [] => True
  | mark, w :: l => mark < w.upTo ∧ w = taken reach mark w.upTo ∧ Consecutive reach w.upTo l

/-- Nothing is taken up twice, and nothing is left out but what was out of reach. -/
structure Tile (reach mark : K) (l : List (Window K)) : Prop where
  consecutive : Consecutive reach mark l
  disjoint : l.Pairwise fun v w => ∀ t ∈ v.points, t ∉ w.points
  covered : ∀ t, mark < t → t ≤ markAfter mark l → (∃ w ∈ l, t ∈ w.points) ∨
    ∃ before w after, l = before ++ w :: after ∧ markAfter mark before < t ∧ t ≤ w.since ∧
      reach < w.upTo - markAfter mark before

section Windows

variable {reach mark now t : K} {w : Window K} {l m : List (Window K)}

theorem consecutive_append : Consecutive reach mark (l ++ m) ↔
    Consecutive reach mark l ∧ Consecutive reach (markAfter mark l) m := by
  induction l generalizing mark with
  | nil => exact (and_iff_right trivial).symm
  | cons w l ih => rw [List.cons_append, Consecutive, Consecutive, ih, markAfter_cons, and_assoc,
      and_assoc]

/-- A point that the marks have passed lies in a window, or before one that did not reach it. -/
theorem Consecutive.covered (h : Consecutive reach mark l) (ht : mark < t)
    (hle : t ≤ markAfter mark l) : (∃ w ∈ l, t ∈ w.points) ∨
      ∃ before w after, l = before ++ w :: after ∧ markAfter mark before < t ∧ t ≤ w.since ∧
        reach < w.upTo - markAfter mark before := by
  induction l generalizing mark with
  | nil => exact absurd hle (not_le.mpr ht)
  | cons v l ih =>
    obtain ⟨-, hv, hl⟩ := h
    rcases lt_or_ge v.upTo t with hlt | hge
    · rcases ih hl hlt hle with ⟨w, hw, hin⟩ | ⟨before, w, after, rfl, hmark, hcut⟩
      · exact Or.inl ⟨w, List.mem_cons_of_mem _ hw, hin⟩
      · exact Or.inr ⟨v :: before, w, after, rfl, hmark, hcut⟩
    · rcases lt_or_ge v.since t with hin | hout
      · exact Or.inl ⟨v, List.mem_cons_self, hin, hge⟩
      · refine Or.inr ⟨[], v, l, rfl, ht, hout, ?_⟩
        by_contra hreach
        have hsince : v.since = mark := by
          rw [hv, taken]
          exact if_neg hreach
        exact absurd (hsince ▸ hout) (not_le.mpr ht)

variable [IsOrderedAddMonoid K]

theorem le_taken : mark ≤ (taken reach mark now).since := by
  rw [taken]
  split
  · rename_i h
    exact le_of_lt (lt_sub_comm.mp h)
  · exact le_rfl

theorem Consecutive.le (h : Consecutive reach mark l) (hw : w ∈ l) : mark ≤ w.since := by
  induction l generalizing mark with
  | nil => cases hw
  | cons v l ih =>
    obtain ⟨hlt, hv, hl⟩ := h
    rcases List.mem_cons.mp hw with rfl | hw
    · rw [hv]
      exact le_taken
    · exact hlt.le.trans (ih hl hw)

theorem Consecutive.disjoint (h : Consecutive reach mark l) :
    l.Pairwise fun v w => ∀ t ∈ v.points, t ∉ w.points := by
  induction l generalizing mark with
  | nil => exact .nil
  | cons v l ih =>
    obtain ⟨-, -, hl⟩ := h
    refine .cons (fun w hw => ?_) (ih hl)
    rintro t ⟨-, hv⟩ ⟨hw', -⟩
    exact absurd (hv.trans (hl.le hw)) (not_le.mpr hw')

theorem Consecutive.tile (h : Consecutive reach mark l) : Tile reach mark l :=
  ⟨h, h.disjoint, fun _ ht hle => h.covered ht hle⟩

end Windows

end HighWaterMarks
