import WebhookRecovery.InterleavedPrograms
import Mathlib.Algebra.Order.Ring.Rat
import Mathlib.Tactic.Linarith

/-! Systems that run by a clock, in rounds. A round that begins when every wait is over gets some
of the work done, or there is none. So the clock bounds what is left. -/
namespace BoundedResponse

open InterleavedPrograms

variable {σ ε : Type}

/-- What is read off a state: the clock, when the round under way began, and the work left. -/
structure Gauge (σ : Type) where
  clock : σ → ℚ
  round : σ → ℚ
  work : σ → ℕ

/-- What a step makes of a state in which every wait is over by an instant: time passes, though no
round lasts beyond its span; a round ends, and if it began later than that there was nothing to
do; or work is done, and the waits that begin with it are over within the longest wait. -/
inductive Progress (m : Gauge σ) (span wait h : ℚ) (s t : σ) : ℚ → Prop where
  | stay (work : m.work t = m.work s) (round : m.round t = m.round s)
      (later : m.clock s ≤ m.clock t) (within : m.clock t ≤ max (m.clock s) (m.round s + span)) :
      Progress m span wait h s t h
  | turn (work : m.work t = m.work s) (round : m.round t = m.clock s)
      (clock : m.clock t = m.clock s) (idle : h < m.round s → m.work s = 0) :
      Progress m span wait h s t h
  | spend (less : m.work t < m.work s) (round : m.round t = m.round s)
      (clock : m.clock t = m.clock s) :
      Progress m span wait h s t (max h (m.clock s + wait))

/-- Where a run stands that began with so much work, all waits over by an instant. -/
structure OnTime (m : Gauge σ) (span wait start : ℚ) (work : ℕ) (h : ℚ) (s : σ) : Prop where
  spent : m.work s ≤ work
  recent : m.round s ≤ h + span
  running : m.clock s ≤ max h (m.round s + span)
  charged : h ≤ start + ((work : ℚ) - m.work s) * (wait + 2 * span)

section Rule

variable {m : Gauge σ} {span wait start h h' : ℚ} {n : ℕ} {s t : σ}

theorem OnTime.clock_le (hs : OnTime m span wait start n h s) (hspan : 0 ≤ span) :
    m.clock s ≤ h + 2 * span := by
  have hrecent := hs.recent
  rcases le_max_iff.mp hs.running with hc | hc <;> linarith

theorem OnTime.step (hs : OnTime m span wait start n h s) (hspan : 0 ≤ span) (hwait : 0 ≤ wait)
    (hround : m.round s ≤ m.clock s) (hwork : m.work s ≠ 0)
    (hp : Progress m span wait h s t h') : OnTime m span wait start n h' t := by
  have hclock := hs.clock_le hspan
  cases hp with
  | stay work round later within =>
    refine ⟨work ▸ hs.spent, round ▸ hs.recent, ?_, work ▸ hs.charged⟩
    rw [round]
    exact within.trans (max_le hs.running (le_max_right _ _))
  | turn work round clock idle =>
    have hearly : m.round s ≤ h := not_lt.mp fun hlate => hwork (idle hlate)
    refine ⟨work ▸ hs.spent, ?_, ?_, work ▸ hs.charged⟩
    · rw [round]
      rcases le_max_iff.mp hs.running with hc | hc <;> linarith
    · rw [clock, round]
      exact le_max_of_le_right (by linarith)
  | spend less round clock =>
    refine ⟨less.le.trans hs.spent, ?_, ?_, ?_⟩
    · have hle : m.clock s + wait ≤ max h (m.clock s + wait) := le_max_right _ _
      rw [round]
      linarith
    · rw [clock]
      exact le_max_of_le_left (le_max_of_le_right (by linarith))
    · have hless : (m.work t : ℚ) + 1 ≤ m.work s := by exact_mod_cast less
      have hpay : 0 ≤ ((m.work s : ℚ) - m.work t - 1) * (wait + 2 * span) :=
        mul_nonneg (by linarith) (by linarith)
      have hcharged := hs.charged
      apply max_le
      · nlinarith
      · nlinarith

/-- The rule. From a state in which every wait is over by an instant that its clock has not passed,
the clock gets no further than the longest wait and two rounds for each piece of work that is
done, while any is left. -/
theorem response {S : System σ ε} {Good : ℚ → σ → Prop} (hspan : 0 ≤ span) (hwait : 0 ≤ wait)
    (ordered : ∀ h s, Good h s → m.round s ≤ m.clock s)
    (step : ∀ h s e t, Good h s → S.step s e t → ∃ h', Good h' t ∧ Progress m span wait h s t h')
    (hs : Good start s) (hc : m.clock s ≤ start) (hx : S.Execution s t) :
    m.work t = 0 ∨ m.clock t ≤
      start + 2 * span + ((m.work s : ℚ) - m.work t) * (wait + 2 * span) := by
  have hrun : ∃ h, Good h t ∧ (m.work t = 0 ∨ OnTime m span wait start (m.work s) h t) := by
    induction hx with
    | refl =>
      have hround := ordered start s hs
      refine ⟨start, hs, Or.inr ⟨le_rfl, by linarith, le_max_of_le_left hc, ?_⟩⟩
      rw [sub_self, zero_mul, add_zero]
    | @tail u v _ he ih =>
      obtain ⟨e, he⟩ := he
      obtain ⟨h, hu, hdone⟩ := ih
      obtain ⟨h', hv, hp⟩ := step h u e v hu he
      refine ⟨h', hv, ?_⟩
      by_cases hwork : m.work u = 0
      · left
        cases hp with
        | stay work => exact work.trans hwork
        | turn work => exact work.trans hwork
        | spend less => omega
      · exact Or.inr ((hdone.resolve_left hwork).step hspan hwait (ordered h u hu) hwork hp)
  obtain ⟨h, -, hdone⟩ := hrun
  refine hdone.imp_right fun hon => ?_
  have hclock := hon.clock_le hspan
  have hcharged := hon.charged
  linarith

end Rule

end BoundedResponse
