import WebhookRecovery.StepTilings
import WebhookRecovery.VirtualClock
import Mathlib.Algebra.Order.Ring.Rat
import Mathlib.Algebra.Order.Field.Basic

/-! The clock integrates its speed. What an operation does to the five columns is compared with
what the operations so far say: whether the clock runs, and at which speed. -/
namespace ClockAlgebra

open RecoverySchema VirtualClock StepTilings

inductive Operation where
  | pause
  | resume
  | setSpeed (speedMultiplier : {m : ℚ // 0 < m})

structure Timed where
  operation : Operation
  atWall : ℚ

def apply (config : SimulationClockConfig) (x : Timed) : Except String SimulationClockConfig :=
  match x.operation with
  | .pause => .ok (pause config x.atWall)
  | .resume => .ok (resume config x.atWall)
  | .setSpeed m => setSpeed config m x.atWall

def applyAll (config : SimulationClockConfig) (ops : List Timed) :
    Except String SimulationClockConfig := ops.foldlM apply config

def Operation.runs : Operation → Option Bool
  | .pause => some false
  | .resume => some true
  | .setSpeed _ => none

def Operation.speed : Operation → Option ℚ
  | .setSpeed m => some m
  | _ => none

/-- A clock runs from its start, and afterwards as the last pause or resume says. -/
def runningAfter (ops : List Timed) : Bool :=
  (ops.filterMap fun x => x.operation.runs).getLast?.getD true

/-- The speed in force is the last one that was set, paused or not. -/
def speedAfter (initial : ℚ) (ops : List Timed) : ℚ :=
  (ops.filterMap fun x => x.operation.speed).getLast?.getD initial

def rateAfter (initial : ℚ) (ops : List Timed) : Option ℚ :=
  if runningAfter ops then some (speedAfter initial ops) else none

def rateAt (initial : ℚ) (ops : List Timed) (u : ℚ) : Option ℚ :=
  rateAfter initial (ops.takeWhile fun x => decide (x.atWall ≤ u))

def gapsFrom (initial t : ℚ) (done : List Timed) (a : ℚ) :
    List Timed → List (Segment (Option ℚ) ℚ)
  | [] => [⟨rateAfter initial done, a, t⟩]
  | x :: ops =>
    ⟨rateAfter initial done, a, x.atWall⟩ :: gapsFrom initial t (done ++ [x]) x.atWall ops

def gaps (initial t₀ : ℚ) (ops : List Timed) (t : ℚ) : List (Segment (Option ℚ) ℚ) :=
  gapsFrom initial t [] t₀ ops

structure Stretch where
  speed : ℚ
  start : ℚ
  stop : ℚ
  deriving DecidableEq, Repr

def running (s : Segment (Option ℚ) ℚ) : Option Stretch :=
  s.value.map fun m => ⟨m, s.start, s.stop⟩

def stretches (initial t₀ : ℚ) (ops : List Timed) (t : ℚ) : List Stretch :=
  (joined (gaps initial t₀ ops t)).filterMap running

/-- These are the maximal stretches up to `t` on which the clock ran at a constant speed. -/
structure Maximal (initial t₀ : ℚ) (ops : List Timed) (t : ℚ) (l : List Stretch) : Prop where
  within : ∀ s ∈ l, t₀ ≤ s.start ∧ s.start < s.stop ∧ s.stop ≤ t
  constant : ∀ s ∈ l, ∀ u, s.start ≤ u → u < s.stop → rateAt initial ops u = some s.speed
  complete : ∀ u, t₀ ≤ u → u < t → ∀ m, rateAt initial ops u = some m →
    ∃ s ∈ l, s.speed = m ∧ s.start ≤ u ∧ u < s.stop
  apart : l.Pairwise fun r s => r.stop ≤ s.start
  maximal : ∀ s ∈ l, ∀ a b, t₀ ≤ a → a ≤ s.start → s.stop ≤ b → b ≤ t →
    (∀ u, a ≤ u → u < b → rateAt initial ops u = some s.speed) → a = s.start ∧ b = s.stop

section Columns

variable {initial a u : ℚ} {done : List Timed} {x : Timed} {c : SimulationClockConfig}

structure Agrees (initial : ℚ) (done : List Timed) (c : SimulationClockConfig) : Prop where
  status : c.status = if runningAfter done then .running else .paused
  speed : c.speedMultiplier = speedAfter initial done

theorem runningAfter_snoc : runningAfter (done ++ [x]) =
    x.operation.runs.getD (runningAfter done) := by
  rw [runningAfter, List.filterMap_append, runningAfter]
  cases h : x.operation.runs <;> simp [h]

theorem speedAfter_snoc : speedAfter initial (done ++ [x]) =
    x.operation.speed.getD (speedAfter initial done) := by
  rw [speedAfter, List.filterMap_append, speedAfter]
  cases h : x.operation.speed <;> simp [h]

theorem Agrees.start (initial t₀ : ℚ) : Agrees initial [] (startConfig initial t₀) := ⟨rfl, rfl⟩

theorem Agrees.paused (h : Agrees initial done c) :
    c.status = .paused ↔ runningAfter done = false := by
  rw [h.status]
  cases runningAfter done <;> simp

theorem Agrees.running (h : Agrees initial done c) :
    c.status = .running ↔ runningAfter done = true := by
  rw [h.status]
  cases runningAfter done <;> simp

theorem Agrees.advance (h : Agrees initial done c) (a u : ℚ) :
    nowAt c u = nowAt c a + (rateAfter initial done).getD 0 * (u - a) := by
  rw [rateAfter]
  cases hr : runningAfter done with
  | true =>
    have hs := h.running.mpr hr
    rw [nowAt_running hs, nowAt_running hs, runningAt, runningAt, h.speed]
    simp only [if_true, Option.getD_some]
    ring
  | false =>
    have hs : c.status ≠ .running := fun hs => by
      have := h.running.mp hs
      rw [hr] at this
      cases this
    rw [nowAt_frozen hs, nowAt_frozen hs]
    simp

/-- An operation succeeds, is recorded in the columns, and does not move the reading. -/
theorem Agrees.apply (h : Agrees initial done c) (x : Timed) :
    ∃ d, ClockAlgebra.apply c x = .ok d ∧ Agrees initial (done ++ [x]) d ∧
      nowAt d x.atWall = nowAt c x.atWall := by
  obtain ⟨op, w⟩ := x
  cases op with
  | pause =>
    refine ⟨_, rfl, ⟨?_, ?_⟩, nowAt_pause⟩
    · rw [runningAfter_snoc, pause_status]
      rfl
    · rw [speedAfter_snoc, pause_speed, h.speed]
      rfl
  | resume =>
    refine ⟨_, rfl, ⟨?_, ?_⟩, ?_⟩
    · rw [runningAfter_snoc]
      by_cases hp : c.status = .paused
      · exact resume_status hp
      · rw [resume, if_pos hp, h.status]
        have hr : runningAfter done = true := by
          rw [← Bool.not_eq_false]
          exact fun hr => hp (h.paused.mpr hr)
        rw [hr]
        rfl
    · rw [speedAfter_snoc, resume_speed, h.speed]
      rfl
    · by_cases hp : c.status = .paused
      · exact nowAt_resume hp
      · rw [resume, if_pos hp]
  | setSpeed m =>
    obtain ⟨d, hd⟩ := setSpeed_ok.mpr m.property
    refine ⟨d, hd, ⟨?_, ?_⟩, nowAt_setSpeed hd⟩
    · rw [runningAfter_snoc, setSpeed_status hd, h.status]
      rfl
    · rw [speedAfter_snoc, setSpeed_speed hd]
      rfl

/-- The run: the reading at the end is the one at `a` and the integral of the rate since. -/
theorem Agrees.applyAll (h : Agrees initial done c) (a t : ℚ) (ops : List Timed) :
    ∃ d, ClockAlgebra.applyAll c ops = .ok d ∧
      nowAt d t = nowAt c a + integral (Option.getD · 0) (gapsFrom initial t done a ops) := by
  induction ops generalizing done c a with
  | nil =>
    refine ⟨c, rfl, ?_⟩
    rw [gapsFrom, integral_cons, integral_nil, add_zero]
    exact h.advance a t
  | cons x ops ih =>
    obtain ⟨d, hd, hagrees, hnow⟩ := h.apply x
    obtain ⟨e, he, hend⟩ := ih hagrees x.atWall
    refine ⟨e, ?_, ?_⟩
    · rw [ClockAlgebra.applyAll, List.foldlM_cons, hd]
      exact he
    · rw [hend, hnow, h.advance a x.atWall, gapsFrom, integral_cons, add_assoc]

end Columns

def InOrder (a t : ℚ) : List Timed → Prop
  | [] => a ≤ t
  | x :: ops => a ≤ x.atWall ∧ InOrder x.atWall t ops

section Rates

variable {initial a t t₀ u : ℚ} {done ops : List Timed} {v : Option ℚ} {s : Stretch}

theorem tiles_gapsFrom (h : InOrder a t ops) : Tiles a t (gapsFrom initial t done a ops) := by
  induction ops generalizing done a with
  | nil => exact ⟨rfl, h, rfl⟩
  | cons x ops ih => exact ⟨rfl, h.1, ih h.2⟩

theorem takeWhile_done (hdone : ∀ x ∈ done, x.atWall ≤ u) (ops : List Timed) :
    ((done ++ ops).takeWhile fun x => decide (x.atWall ≤ u)) =
      done ++ ops.takeWhile fun x => decide (x.atWall ≤ u) :=
  List.takeWhile_append_of_pos fun x hx => decide_eq_true (hdone x hx)

theorem at_gapsFrom (h : InOrder a t ops) (hdone : ∀ x ∈ done, x.atWall ≤ a)
    (hv : At (gapsFrom initial t done a ops) u v) : v = rateAt initial (done ++ ops) u := by
  induction ops generalizing done a with
  | nil =>
    obtain ⟨g, hg, hle, -, rfl⟩ := hv
    obtain rfl := List.mem_singleton.mp hg
    rw [rateAt, takeWhile_done fun x hx => (hdone x hx).trans hle, List.takeWhile_nil,
      List.append_nil]
  | cons x ops ih =>
    rcases at_cons.mp hv with ⟨hle, hlt, rfl⟩ | hv
    · have hnone : ((x :: ops).takeWhile fun x => decide (x.atWall ≤ u)) = [] :=
        List.takeWhile_cons_of_neg (by simpa using hlt)
      rw [rateAt, takeWhile_done fun x hx => (hdone x hx).trans hle, hnone, List.append_nil]
    · rw [ih h.2 (fun y hy => ?_) hv, List.append_assoc, List.singleton_append]
      rcases List.mem_append.mp hy with hy | hy
      · exact (hdone y hy).trans h.1
      · rw [List.mem_singleton.mp hy]

theorem tiles_joined_gaps (h : InOrder t₀ t ops) :
    Tiles t₀ t (joined (gaps initial t₀ ops t)) := tiles_joined (tiles_gapsFrom h)

theorem at_joined_gaps (h : InOrder t₀ t ops) (hv : At (joined (gaps initial t₀ ops t)) u v) :
    v = rateAt initial ops u :=
  at_gapsFrom h (fun _ hx => absurd hx List.not_mem_nil)
    ((at_joined (tiles_gapsFrom h)).mp hv)

theorem mem_stretches : s ∈ stretches initial t₀ ops t ↔
    (⟨some s.speed, s.start, s.stop⟩ : Segment (Option ℚ) ℚ) ∈
      joined (gaps initial t₀ ops t) := by
  rw [stretches, List.mem_filterMap]
  constructor
  · rintro ⟨⟨value, start, stop⟩, hg, hs⟩
    cases value with
    | none => cases hs
    | some m =>
      obtain rfl := Option.some.inj hs
      exact hg
  · intro hg
    exact ⟨_, hg, rfl⟩

theorem stretches_maximal (h : InOrder t₀ t ops) :
    Maximal initial t₀ ops t (stretches initial t₀ ops t) := by
  have htiles : Tiles t₀ t (joined (gaps initial t₀ ops t)) := tiles_joined_gaps h
  have hsharp : Sharp (joined (gaps initial t₀ ops t)) := sharp_joined (tiles_gapsFrom h)
  have hconstant : ∀ s ∈ stretches initial t₀ ops t, ∀ u, s.start ≤ u → u < s.stop →
      rateAt initial ops u = some s.speed := fun s hs u hle hlt =>
    (at_joined_gaps h ⟨_, mem_stretches.mp hs, hle, hlt, rfl⟩).symm
  constructor
  · intro s hs
    have hmem := mem_stretches.mp hs
    exact ⟨(htiles.within hmem).1, hsharp.proper _ hmem, (htiles.within hmem).2⟩
  · exact hconstant
  · intro u hle hlt m hm
    obtain ⟨v, hv⟩ := htiles.total hle hlt
    have hrate := at_joined_gaps h hv
    obtain ⟨g, hg, hgle, hglt, hgv⟩ := hv
    refine ⟨⟨m, g.start, g.stop⟩, mem_stretches.mpr ?_, rfl, hgle, hglt⟩
    rw [← hm, ← hrate, ← hgv]
    exact hg
  · rw [stretches, List.pairwise_filterMap]
    refine htiles.apart.imp fun hle r hr s hs => ?_
    obtain ⟨m, -, rfl⟩ := Option.map_eq_some_iff.mp hr
    obtain ⟨n, -, rfl⟩ := Option.map_eq_some_iff.mp hs
    exact hle
  · intro s hs a b ha hsa hsb hb hall
    have hmem := mem_stretches.mp hs
    have hproper := hsharp.proper _ hmem
    constructor
    · by_contra hne
      obtain ⟨x, hax, hxs, v, hv, hother⟩ :=
        hsharp.changes_before htiles hmem ha (lt_of_le_of_ne hsa hne)
      exact hother ((at_joined_gaps h hv).trans
        (hall x hax ((hxs.trans hproper).trans_le hsb)))
    · by_contra hne
      obtain ⟨x, hsx, hxb, v, hv, hother⟩ :=
        hsharp.changes_after htiles hmem (lt_of_le_of_ne hsb (Ne.symm hne)) hb
      exact hother ((at_joined_gaps h hv).trans
        (hall x ((hsa.trans hproper.le).trans hsx) hxb))

theorem integral_running (l : List (Segment (Option ℚ) ℚ)) :
    integral (Option.getD · 0) l =
      ((l.filterMap running).map fun s => s.speed * (s.stop - s.start)).sum := by
  induction l with
  | nil => rfl
  | cons g l ih =>
    obtain ⟨value, start, stop⟩ := g
    rw [integral_cons, ih]
    cases value with
    | none =>
      rw [List.filterMap_cons_none rfl, Option.getD_none, zero_mul, zero_add]
    | some m =>
      have hrun : running ⟨some m, start, stop⟩ = some ⟨m, start, stop⟩ := rfl
      rw [List.filterMap_cons_some hrun, List.map_cons, List.sum_cons, Option.getD_some]

end Rates

theorem pause_pause (config : SimulationClockConfig) (w w' : ℚ) :
    pause (pause config w) w' = pause config w := by
  rw [pause, if_pos pause_status]

theorem resume_resume (config : SimulationClockConfig) (w w' : ℚ) :
    resume (resume config w) w' = resume config w := by
  have hs : (resume config w).status ≠ .paused := by
    by_cases hp : config.status = .paused
    · rw [resume_status hp]
      decide
    · rwa [resume, if_pos hp]
  rw [resume, if_pos hs]

/-- Whatever is done to a started clock, it reads the integral of its speed over the time it ran,
stretch by maximal stretch. -/
theorem clock_algebra (initial t₀ t : ℚ) (ops : List Timed) (h : InOrder t₀ t ops) :
    (∃ config, applyAll (startConfig initial t₀) ops = .ok config ∧
      nowAt config t - VIRTUAL_EPOCH_ZERO =
        ((stretches initial t₀ ops t).map fun s => s.speed * (s.stop - s.start)).sum) ∧
    Maximal initial t₀ ops t (stretches initial t₀ ops t) ∧
    ∀ (config : SimulationClockConfig) (w w' : ℚ),
      pause (pause config w) w' = pause config w ∧
        resume (resume config w) w' = resume config w := by
  refine ⟨?_, stretches_maximal h, fun config w w' => ⟨pause_pause config w w', ?_⟩⟩
  · obtain ⟨d, hd, hnow⟩ := (Agrees.start initial t₀).applyAll t₀ t ops
    refine ⟨d, hd, ?_⟩
    have hstart : nowAt (startConfig initial t₀) t₀ = VIRTUAL_EPOCH_ZERO := by
      rw [nowAt_running rfl, runningAt, startConfig]
      ring
    have hgaps : integral (Option.getD · 0) (gapsFrom initial t [] t₀ ops) =
        integral (Option.getD · 0) (joined (gaps initial t₀ ops t)) :=
      (integral_joined _ (tiles_gapsFrom h)).symm
    rw [hnow, hstart, hgaps, integral_running, add_sub_cancel_left]
    rfl
  · exact resume_resume config w w'

/-- Two seconds at ten, a pause in which the speed is doubled twice over, and three at forty. -/
theorem clock_algebra_paused_change :
    let ops : List Timed := [⟨.pause, 2⟩, ⟨.setSpeed ⟨20, by decide +kernel⟩, 50⟩,
      ⟨.setSpeed ⟨40, by decide +kernel⟩, 60⟩, ⟨.resume, 100⟩]
    (∃ config, applyAll (startConfig 10 0) ops = .ok config ∧ nowAt config 103 = 140) ∧
      Maximal 10 0 ops 103 [⟨10, 0, 2⟩, ⟨40, 100, 103⟩] := by
  intro ops
  have horder : InOrder 0 103 ops := by
    simp only [ops, InOrder]
    norm_num
  obtain ⟨⟨config, hconfig, hnow⟩, hmaximal, -⟩ := clock_algebra 10 0 103 ops horder
  have hstretches : stretches 10 0 ops 103 = [⟨10, 0, 2⟩, ⟨40, 100, 103⟩] := by decide +kernel
  rw [hstretches] at hnow hmaximal
  refine ⟨⟨config, hconfig, ?_⟩, hmaximal⟩
  rw [← sub_zero (nowAt config 103)]
  exact hnow.trans (by norm_num)

end ClockAlgebra
