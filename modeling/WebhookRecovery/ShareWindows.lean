import WebhookRecovery.MapFolds
import WebhookRecovery.MetricsFeed
import Mathlib.Algebra.Order.Ring.Rat
import Mathlib.Algebra.BigOperators.Ring.List
import Mathlib.Algebra.Order.BigOperators.Group.List
import Mathlib.Data.Rat.Floor
import Mathlib.Tactic.Linarith

/-! The attempts-share chart: attempts summed into fairness windows, and each consumer's share of
its window. Numbers are exact. -/
namespace ShareWindows

open RecoverySchema MetricsFeed OrderedMaps MapFolds

structure ConsumerRef where
  id : ConsumerId
  name : String
  deriving DecidableEq, Repr

structure ChartBucket where
  consumerId : ConsumerId
  bucketVirtualS : ℚ
  attempts : ℚ
  deriving DecidableEq, Repr

abbrev SharePoint := OrderedMap String (Option ℚ)

/-- `point[name] = v`. The accessor that every object has under `__proto__` keeps neither a
number nor null as a property. -/
def assign (point : SharePoint) (name : String) (v : Option ℚ) : SharePoint :=
  if name = "__proto__" then point else OrderedMaps.set point name v

def windowStart (windowS : ℚ) (b : ChartBucket) : ℚ := ⌊b.bucketVirtualS / windowS⌋ * windowS

def addAttempts (counts : OrderedMap ConsumerId ℚ) (b : ChartBucket) : OrderedMap ConsumerId ℚ :=
  OrderedMaps.set counts b.consumerId ((get counts b.consumerId).getD 0 + b.attempts)

def windowsOf (windowS : ℚ) (buckets : List ChartBucket) :
    OrderedMap ℚ (OrderedMap ConsumerId ℚ) :=
  foldInto (windowStart windowS) addAttempts [] [] buckets

def sharePoint (consumers : List ConsumerRef) (window : ℚ × OrderedMap ConsumerId ℚ) :
    SharePoint :=
  let total := (values window.2).foldl (· + ·) 0
  consumers.foldl
    (fun point c =>
      assign point c.name
        (if total = 0 then none else some ((get window.2 c.id).getD 0 / total)))
    [("t", some window.1), ("total", some total)]

def toShareWindows (buckets : List ChartBucket) (consumers : List ConsumerRef) (windowS : ℚ) :
    List SharePoint :=
  (sortBy Prod.fst (windowsOf windowS buckets)).map (sharePoint consumers)

section Specification

variable (windowS : ℚ) (buckets : List ChartBucket)

def InWindow (k : ℤ) (b : ChartBucket) : Prop :=
  k * windowS ≤ b.bucketVirtualS ∧ b.bucketVirtualS < (k + 1) * windowS

instance (k : ℤ) (b : ChartBucket) : Decidable (InWindow windowS k b) :=
  inferInstanceAs (Decidable (_ ∧ _))

def attemptsIn (k : ℤ) : ℚ :=
  ((buckets.filter fun b => decide (InWindow windowS k b)).map ChartBucket.attempts).sum

def attemptsOf (k : ℤ) (c : ConsumerId) : ℚ :=
  (((buckets.filter fun b => decide (InWindow windowS k b)).filter fun b =>
    decide (b.consumerId = c)).map ChartBucket.attempts).sum

/-- The number under a name, for summing; an absent share counts nothing. -/
def number (p : SharePoint) (name : String) : ℚ := ((get p name).getD none).getD 0

structure TruePoint (consumers : List ConsumerRef) (k : ℤ) (p : SharePoint) : Prop where
  start : get p "t" = some (some (k * windowS))
  total : get p "total" = some (some (attemptsIn windowS buckets k))
  gap : attemptsIn windowS buckets k = 0 → ∀ c ∈ consumers, get p c.name = some none
  share : attemptsIn windowS buckets k ≠ 0 → ∀ c ∈ consumers, ∃ x, get p c.name = some (some x) ∧
    0 ≤ x ∧ x ≤ 1 ∧ x = attemptsOf windowS buckets k c.id / attemptsIn windowS buckets k
  whole : attemptsIn windowS buckets k ≠ 0 →
    (consumers.map fun c => number p c.name).sum = 1

/-- The windows of some increasing numbers, with every bucket in exactly one of them. -/
def TrueShares (consumers : List ConsumerRef) : Prop :=
  let windows := toShareWindows buckets consumers windowS
  (windows.Pairwise fun p q => number p "t" < number q "t") ∧
    (windows.map fun p => number p "total").sum = (buckets.map ChartBucket.attempts).sum ∧
    ∃ ks : List ℤ, ks.Pairwise (· < ·) ∧
      List.Forall₂ (TruePoint windowS buckets consumers) ks windows ∧
      ∀ b ∈ buckets, ∃! k, k ∈ ks ∧ InWindow windowS k b

end Specification

section Points

variable {consumers : List ConsumerRef} {point : SharePoint} {f : ConsumerRef → Option ℚ}
variable {name : String} {c : ConsumerRef}

theorem get_assign {v : Option ℚ} {name' : String} (h : name ≠ "__proto__") :
    get (assign point name v) name' = if name = name' then some v else get point name' := by
  rw [assign, if_neg h, get_set]

section Assignments

variable {γ : Type} {l : List γ} {key : γ → String} {value : γ → Option ℚ} {v : Option ℚ}

theorem get_assigned_other (h : name ∉ l.map key) :
    get (l.foldl (fun point x => assign point (key x) (value x)) point) name =
      get point name := by
  induction l generalizing point with
  | nil => rfl
  | cons x l ih =>
    rw [List.map_cons, List.mem_cons, not_or] at h
    rw [List.foldl_cons, ih h.2, assign]
    split
    · rfl
    · rw [get_set, if_neg (Ne.symm h.1)]

theorem get_assigned_same (hv : ∀ x ∈ l, key x = name → value x = v) (hn : name ∈ l.map key)
    (hp : name ≠ "__proto__") :
    get (l.foldl (fun point x => assign point (key x) (value x)) point) name = some v := by
  induction l generalizing point with
  | nil => cases hn
  | cons x l ih =>
    rw [List.foldl_cons]
    by_cases hrest : name ∈ l.map key
    · exact ih (fun y hy => hv y (List.mem_cons_of_mem x hy)) hrest
    · obtain rfl : name = key x := (List.mem_cons.mp hn).resolve_right hrest
      rw [get_assigned_other hrest, get_assign hp, if_pos rfl, hv x List.mem_cons_self rfl]

end Assignments

theorem get_assigned (hn : (consumers.map ConsumerRef.name).Nodup) (hc : c ∈ consumers)
    (hp : c.name ≠ "__proto__") :
    get (consumers.foldl (fun point c => assign point c.name (f c)) point) c.name =
      some (f c) :=
  get_assigned_same (fun _ hx he => congrArg f (List.inj_on_of_nodup_map hn hx hc he))
    (List.mem_map_of_mem hc) hp

end Points

section Windows

variable {windowS : ℚ} {buckets : List ChartBucket} {e : ℚ × OrderedMap ConsumerId ℚ}
variable {b : ChartBucket} {k : ℤ} {consumers : List ConsumerRef} {c : ConsumerId}

theorem inWindow_iff (hw : 0 < windowS) :
    InWindow windowS k b ↔ ⌊b.bucketVirtualS / windowS⌋ = k := by
  rw [InWindow, Int.floor_eq_iff, le_div_iff₀ hw, div_lt_iff₀ hw]

theorem windowStart_eq_iff (hw : 0 < windowS) :
    windowStart windowS b = k * windowS ↔ InWindow windowS k b := by
  rw [inWindow_iff hw, windowStart, mul_left_inj' hw.ne', Int.cast_inj]

theorem windowsOf_nodup : ((windowsOf windowS buckets).map Prod.fst).Nodup :=
  foldInto_nodup List.nodup_nil

theorem counts_of_window (he : e ∈ windowsOf windowS buckets) :
    e.2 = foldInto ChartBucket.consumerId (fun a b => a + b.attempts) 0 []
      (buckets.filter fun b => decide (windowStart windowS b = e.1)) := by
  have hget : get (windowsOf windowS buckets) e.1 = some e.2 :=
    (get_eq_some windowsOf_nodup).mpr he
  have hfold : (get (windowsOf windowS buckets) e.1).getD [] = _ := getD_foldInto
  rw [hget, Option.getD_some] at hfold
  exact hfold

theorem window_number (hw : 0 < windowS) (he : e ∈ windowsOf windowS buckets) :
    e.1 = ⌊e.1 / windowS⌋ * windowS := by
  have hsome : (get (windowsOf windowS buckets) e.1).isSome := by
    rw [(get_eq_some windowsOf_nodup).mpr he]
    rfl
  obtain ⟨b, -, hb⟩ := (get_foldInto_isSome.mp hsome).resolve_left Bool.false_ne_true
  rw [← hb, windowStart, mul_div_cancel_right₀ _ hw.ne', Int.floor_intCast]

theorem mem_window_of_bucket (windowS : ℚ) (hb : b ∈ buckets) :
    ∃ e ∈ windowsOf windowS buckets, e.1 = windowStart windowS b := by
  have hsome : (get (windowsOf windowS buckets) (windowStart windowS b)).isSome :=
    get_foldInto_isSome.mpr (Or.inr ⟨b, hb, rfl⟩)
  obtain ⟨counts, hget⟩ := Option.isSome_iff_exists.mp hsome
  exact ⟨_, (get_eq_some windowsOf_nodup).mp hget, rfl⟩

theorem filter_window (hw : 0 < windowS) (he : e ∈ windowsOf windowS buckets) :
    (buckets.filter fun b => decide (windowStart windowS b = e.1)) =
      buckets.filter fun b => decide (InWindow windowS ⌊e.1 / windowS⌋ b) := by
  refine List.filter_congr fun b _ => decide_eq_decide.mpr ?_
  rw [← windowStart_eq_iff hw, ← window_number hw he]

theorem total_of_window (hw : 0 < windowS) (he : e ∈ windowsOf windowS buckets) :
    (values e.2).foldl (· + ·) 0 = attemptsIn windowS buckets ⌊e.1 / windowS⌋ := by
  have hn : (([] : OrderedMap ConsumerId ℚ).map Prod.fst).Nodup := List.nodup_nil
  rw [← List.sum_eq_foldl, counts_of_window he, sum_tally hn, filter_window hw he, attemptsIn]
  exact zero_add _

theorem count_of_window (hw : 0 < windowS) (he : e ∈ windowsOf windowS buckets)
    (c : ConsumerId) :
    (get e.2 c).getD 0 = attemptsOf windowS buckets ⌊e.1 / windowS⌋ c := by
  rw [counts_of_window he, getD_tally, filter_window hw he, attemptsOf]
  exact zero_add _

theorem sum_attemptsOf (windowS : ℚ) (hids : (consumers.map ConsumerRef.id).Nodup)
    (hcover : ∀ b ∈ buckets, ∃ c ∈ consumers, c.id = b.consumerId) (k : ℤ) :
    (consumers.map fun c => attemptsOf windowS buckets k c.id).sum =
      attemptsIn windowS buckets k := by
  have hsum : ((consumers.map ConsumerRef.id).map fun c =>
      attemptsOf windowS buckets k c).sum = _ :=
    sum_fibers hids (buckets.filter fun b => decide (InWindow windowS k b))
  rw [List.map_map] at hsum
  refine Eq.trans hsum ?_
  rw [attemptsIn, List.filter_eq_self.mpr]
  intro b hb
  obtain ⟨c, hc, hid⟩ := hcover b (List.mem_of_mem_filter hb)
  exact decide_eq_true (List.mem_map.mpr ⟨c, hc, hid⟩)

theorem sum_nonneg_of_filter {l : List ChartBucket} (h : ∀ b ∈ l, 0 ≤ b.attempts) :
    0 ≤ (l.map ChartBucket.attempts).sum :=
  List.sum_nonneg (List.forall_mem_map.mpr h)

theorem attemptsOf_nonneg (h : ∀ b ∈ buckets, 0 ≤ b.attempts) (k : ℤ) (c : ConsumerId) :
    0 ≤ attemptsOf windowS buckets k c :=
  sum_nonneg_of_filter fun b hb => h b (List.mem_of_mem_filter (List.mem_of_mem_filter hb))

end Windows

section Shares

variable {windowS : ℚ} {buckets : List ChartBucket} {consumers : List ConsumerRef}
variable {e : ℚ × OrderedMap ConsumerId ℚ} {c : ConsumerRef} {name : String}

theorem get_sharePoint (hw : 0 < windowS) (he : e ∈ windowsOf windowS buckets)
    (hnames : (consumers.map ConsumerRef.name).Nodup) (hc : c ∈ consumers)
    (hp : c.name ≠ "__proto__") :
    get (sharePoint consumers e) c.name =
      some (if attemptsIn windowS buckets ⌊e.1 / windowS⌋ = 0 then none
        else some (attemptsOf windowS buckets ⌊e.1 / windowS⌋ c.id /
          attemptsIn windowS buckets ⌊e.1 / windowS⌋)) := by
  rw [sharePoint, total_of_window hw he]
  rw [get_assigned hnames hc hp, count_of_window hw he]

theorem sharePoint_start (hw : 0 < windowS) (he : e ∈ windowsOf windowS buckets)
    (h : "t" ∉ consumers.map ConsumerRef.name) :
    get (sharePoint consumers e) "t" = some (some (⌊e.1 / windowS⌋ * windowS)) := by
  rw [sharePoint]
  rw [get_assigned_other h, ← window_number hw he]
  rfl

theorem sharePoint_total (hw : 0 < windowS) (he : e ∈ windowsOf windowS buckets)
    (h : "total" ∉ consumers.map ConsumerRef.name) :
    get (sharePoint consumers e) "total" =
      some (some (attemptsIn windowS buckets ⌊e.1 / windowS⌋)) := by
  rw [sharePoint]
  rw [get_assigned_other h, total_of_window hw he]
  rfl

/-- The chart's consumers: one entry each, under names that are free, and nobody is left out. -/
structure Fits (consumers : List ConsumerRef) (buckets : List ChartBucket) : Prop where
  ids : (consumers.map ConsumerRef.id).Nodup
  names : (consumers.map ConsumerRef.name).Nodup
  free : ∀ c ∈ consumers, c.name ≠ "t" ∧ c.name ≠ "total"
  cover : ∀ b ∈ buckets, ∃ c ∈ consumers, c.id = b.consumerId
  attempts : ∀ b ∈ buckets, 0 ≤ b.attempts

theorem truePoint (hw : 0 < windowS) (h : Fits consumers buckets)
    (hp : ∀ c ∈ consumers, c.name ≠ "__proto__") (he : e ∈ windowsOf windowS buckets) :
    TruePoint windowS buckets consumers ⌊e.1 / windowS⌋ (sharePoint consumers e) := by
  have hget : ∀ c ∈ consumers, get (sharePoint consumers e) c.name = some _ :=
    fun c hc => get_sharePoint hw he h.names hc (hp c hc)
  have hsum := sum_attemptsOf windowS h.ids h.cover ⌊e.1 / windowS⌋
  have hnonneg : ∀ c : ConsumerRef, 0 ≤ attemptsOf windowS buckets ⌊e.1 / windowS⌋ c.id :=
    fun c => attemptsOf_nonneg h.attempts _ _
  constructor
  · apply sharePoint_start hw he
    intro ht
    obtain ⟨c, hc, hn⟩ := List.mem_map.mp ht
    exact (h.free c hc).1 hn
  · apply sharePoint_total hw he
    intro ht
    obtain ⟨c, hc, hn⟩ := List.mem_map.mp ht
    exact (h.free c hc).2 hn
  · intro hzero c hc
    rw [hget c hc, if_pos hzero]
  · intro hne c hc
    have hle : attemptsOf windowS buckets ⌊e.1 / windowS⌋ c.id ≤
        attemptsIn windowS buckets ⌊e.1 / windowS⌋ := by
      rw [← hsum]
      exact List.single_le_sum (List.forall_mem_map.mpr fun c _ => hnonneg c) _
        (List.mem_map_of_mem hc)
    have hpos : 0 < attemptsIn windowS buckets ⌊e.1 / windowS⌋ :=
      lt_of_le_of_ne ((hnonneg c).trans hle) (Ne.symm hne)
    refine ⟨_, (hget c hc).trans (congrArg some (if_neg hne)), ?_, ?_, rfl⟩
    · exact div_nonneg (hnonneg c) hpos.le
    · exact (div_le_one hpos).mpr hle
  · intro hne
    have hnumbers : (consumers.map fun c => number (sharePoint consumers e) c.name) =
        consumers.map fun c => attemptsOf windowS buckets ⌊e.1 / windowS⌋ c.id *
          (attemptsIn windowS buckets ⌊e.1 / windowS⌋)⁻¹ := by
      refine List.map_congr_left fun c hc => ?_
      rw [number, hget c hc, if_neg hne, div_eq_mul_inv]
      rfl
    rw [hnumbers, List.sum_map_mul_right, hsum, mul_inv_cancel₀ hne]

theorem windows_sorted (buckets : List ChartBucket) (hw : 0 < windowS) :
    (sortBy Prod.fst (windowsOf windowS buckets)).Pairwise
      fun e f => ⌊e.1 / windowS⌋ < ⌊f.1 / windowS⌋ := by
  refine (sortBy_strict windowsOf_nodup).imp_of_mem fun {e f} he hf hlt => ?_
  rw [window_number hw (mem_sortBy.mp he), window_number hw (mem_sortBy.mp hf)] at hlt
  exact_mod_cast (mul_lt_mul_iff_left₀ hw).mp hlt

/-- Every bucket is in some window, so the windows' attempts are all of them. -/
theorem sum_windows (buckets : List ChartBucket) (hw : 0 < windowS) :
    ((sortBy Prod.fst (windowsOf windowS buckets)).map fun e =>
      attemptsIn windowS buckets ⌊e.1 / windowS⌋).sum = (buckets.map ChartBucket.attempts).sum := by
  have hkeys : ((sortBy Prod.fst (windowsOf windowS buckets)).map Prod.fst).Nodup :=
    nodup_of_strict (sortBy_strict windowsOf_nodup)
  have hfibers : ((sortBy Prod.fst (windowsOf windowS buckets)).map fun e =>
      attemptsIn windowS buckets ⌊e.1 / windowS⌋) =
      ((sortBy Prod.fst (windowsOf windowS buckets)).map Prod.fst).map fun s =>
        ((buckets.filter fun b => decide (windowStart windowS b = s)).map
          ChartBucket.attempts).sum := by
    rw [List.map_map]
    refine List.map_congr_left fun e he => ?_
    rw [Function.comp_apply, filter_window hw (mem_sortBy.mp he), attemptsIn]
  rw [hfibers, sum_fibers hkeys, List.filter_eq_self.mpr]
  intro b hb
  obtain ⟨e, he, hstart⟩ := mem_window_of_bucket windowS hb
  exact decide_eq_true (List.mem_map.mpr ⟨e, mem_sortBy.mpr he, hstart⟩)

theorem bucket_in_one_window (hw : 0 < windowS) {b : ChartBucket} (hb : b ∈ buckets) :
    ∃! k, k ∈ (sortBy Prod.fst (windowsOf windowS buckets)).map (fun e => ⌊e.1 / windowS⌋) ∧
      InWindow windowS k b := by
  obtain ⟨e, he, hstart⟩ := mem_window_of_bucket windowS hb
  have hin : InWindow windowS ⌊e.1 / windowS⌋ b :=
    (windowStart_eq_iff hw).mp (hstart.symm.trans (window_number hw he))
  refine ⟨⌊e.1 / windowS⌋, ⟨List.mem_map.mpr ⟨e, mem_sortBy.mpr he, rfl⟩, hin⟩, ?_⟩
  rintro k ⟨-, hk⟩
  rw [← (inWindow_iff hw).mp hk, (inWindow_iff hw).mp hin]

/-- Windows in order and all attempts in them, with the true shares, whatever the order of the
buckets and however often a key repeats. -/
theorem share_windows_true (windowS : ℚ) (buckets : List ChartBucket)
    (consumers : List ConsumerRef) (hw : 0 < windowS) (h : Fits consumers buckets)
    (hp : ∀ c ∈ consumers, c.name ≠ "__proto__") : TrueShares windowS buckets consumers := by
  have hpoint : ∀ e ∈ sortBy Prod.fst (windowsOf windowS buckets),
      TruePoint windowS buckets consumers ⌊e.1 / windowS⌋ (sharePoint consumers e) :=
    fun e he => truePoint hw h hp (mem_sortBy.mp he)
  refine ⟨?_, ?_, (sortBy Prod.fst (windowsOf windowS buckets)).map fun e => ⌊e.1 / windowS⌋,
    ?_, ?_, fun b hb => bucket_in_one_window hw hb⟩
  · rw [toShareWindows, List.pairwise_map]
    refine (windows_sorted buckets hw).imp_of_mem fun {e f} he hf hlt => ?_
    rw [number, number, (hpoint e he).start, (hpoint f hf).start]
    exact mul_lt_mul_of_pos_right (Int.cast_lt.mpr hlt) hw
  · rw [← sum_windows buckets hw, toShareWindows, List.map_map]
    refine congrArg List.sum (List.map_congr_left fun e he => ?_)
    rw [Function.comp_apply, number, (hpoint e he).total]
    rfl
  · exact List.pairwise_map.mpr (windows_sorted buckets hw)
  · rw [toShareWindows, List.forall₂_map_left_iff, List.forall₂_map_right_iff, List.forall₂_same]
    exact hpoint

/-- A window of two consumers, one of which comes twice, and a window without attempts. -/
theorem share_windows_true_two_consumers :
    let buckets := [⟨1, 7, 3⟩, ⟨2, 1, 1⟩, ⟨1, 0, 2⟩, ⟨1, 1, 1⟩, ⟨2, 12, 0⟩]
    let consumers := [⟨1, "acme"⟩, ⟨2, "globex"⟩]
    TrueShares 5 buckets consumers ∧ toShareWindows buckets consumers 5 =
      [[("t", some 0), ("total", some 4), ("acme", some (3 / 4)), ("globex", some (1 / 4))],
        [("t", some 5), ("total", some 3), ("acme", some 1), ("globex", some 0)],
        [("t", some 10), ("total", some 0), ("acme", none), ("globex", none)]] := by
  intro buckets consumers
  have hfits : Fits consumers buckets := by
    constructor <;> decide +kernel
  exact ⟨share_windows_true 5 buckets consumers (by decide +kernel) hfits (by decide),
    by decide +kernel⟩

/-- An assignment to the name of the prototype leaves no share behind. -/
theorem proto_name_has_no_share :
    ¬ ∀ (windowS : ℚ) (buckets : List ChartBucket) (consumers : List ConsumerRef), 0 < windowS →
      Fits consumers buckets → TrueShares windowS buckets consumers := by
  intro h
  have hfits : Fits [⟨1, "__proto__"⟩] [⟨1, 0, 1⟩] := by
    constructor <;> decide +kernel
  have hpoints : toShareWindows [⟨1, 0, 1⟩] [⟨1, "__proto__"⟩] 5 =
      [[("t", some 0), ("total", some 1)]] := by
    decide +kernel
  obtain ⟨-, -, ks, -, htrue, -⟩ := h 5 [⟨1, 0, 1⟩] [⟨1, "__proto__"⟩] (by decide +kernel) hfits
  rw [hpoints] at htrue
  obtain ⟨k, l, hpoint, -, rfl⟩ := List.forall₂_cons_right_iff.mp htrue
  have htotal := hpoint.total
  have hone : attemptsIn 5 [⟨1, 0, 1⟩] k = 1 :=
    (Option.some.inj (Option.some.inj htotal)).symm
  obtain ⟨x, hx, -⟩ := hpoint.share (by rw [hone]; exact one_ne_zero) _ List.mem_cons_self
  cases hx

end Shares

end ShareWindows
