import WebhookRecovery.ConductorPass
import WebhookRecovery.ShareWindows

/-! The backlog chart and the catch-up figures, which the browser derives from its buffer. The
buffer follows the metrics table from poll to poll, so both tell of the table. -/
namespace BacklogChart

open RecoverySchema hiding Event
open InterleavedPrograms MetricsFeed OrderedMaps MapFolds
open ShareWindows hiding assign get_assign

def OUTAGE_ENDS_AT_S : ℤ := 420

example : (OUTAGE_ENDS_AT_S : ℚ) = ConductorPass.OUTAGE_ENDS_AT_S := rfl

/-- A row of the chart, by its own properties, and whether it has lost its prototype. -/
structure WidePoint where
  own : SharePoint
  bare : Bool := false
  deriving DecidableEq, Repr

/-- `row[name] = v`. The accessor that a row inherits under `__proto__` ignores a number, and null
takes the prototype away; to a row without one it is a name like any other. -/
def WidePoint.assign (row : WidePoint) (name : String) (v : Option ℚ) : WidePoint :=
  if name = "__proto__" ∧ row.bare = false then { row with bare := v.isNone }
  else { row with own := OrderedMaps.set row.own name v }

def see (seen : OrderedMap ConsumerId String) (b : MetricsBucket) :
    OrderedMap ConsumerId String :=
  if (get seen b.consumerId).isSome then seen
  else OrderedMaps.set seen b.consumerId b.consumerName

def consumersFrom (buckets : List MetricsBucket) : List ConsumerRef :=
  sortBy ConsumerRef.id ((buckets.foldl see []).map fun e => ⟨e.1, e.2⟩)

def blankRow (consumers : List ConsumerRef) (t : ℤ) : WidePoint :=
  consumers.foldl (fun row c => row.assign c.name none) { own := [("t", some t)] }

def record (row : WidePoint) (b : MetricsBucket) : WidePoint :=
  row.assign b.consumerName (some b.backlog)

/-- One row per second. A row is sorted by its own `t`; null counts as zero there. -/
def toWideSeries (buckets : List MetricsBucket) (consumers : List ConsumerRef) :
    List WidePoint :=
  sortBy (fun row => number row.own "t")
    (values (foldFrom MetricsBucket.bucketVirtualS record (blankRow consumers) [] buckets))

def catchUp (consumerId : ConsumerId) (earliest : Option ℤ) (b : MetricsBucket) : Option ℤ :=
  if b.consumerId ≠ consumerId then earliest
  else if b.bucketVirtualS < OUTAGE_ENDS_AT_S then earliest
  else if b.backlog ≠ 0 then earliest
  else if earliest.all fun e => b.bucketVirtualS < e then some b.bucketVirtualS
  else earliest

/-- Seconds from the end of the outage until the backlog was zero; nothing while it drains. -/
def deriveCaughtUpAfter (buckets : List MetricsBucket) (consumerId : ConsumerId) : Option ℤ :=
  (buckets.foldl (catchUp consumerId) none).map fun earliest => earliest - OUTAGE_ENDS_AT_S

section Consumers

variable {buckets : List MetricsBucket} {seen : OrderedMap ConsumerId String} {b : MetricsBucket}
  {c : ConsumerId} {r : ConsumerRef}

theorem see_nodup (hn : (seen.map Prod.fst).Nodup) : ((see seen b).map Prod.fst).Nodup := by
  rw [see]
  split
  · exact hn
  · exact set_nodup hn

theorem foldl_see_nodup (hn : (seen.map Prod.fst).Nodup) :
    ((buckets.foldl see seen).map Prod.fst).Nodup := by
  induction buckets generalizing seen with
  | nil => exact hn
  | cons b l ih => exact ih (see_nodup hn)

theorem get_foldl_see : get (buckets.foldl see seen) c = (get seen c).or
    ((buckets.find? fun b => b.consumerId == c).map MetricsBucket.consumerName) := by
  induction buckets generalizing seen with
  | nil => simp
  | cons b l ih =>
    rw [List.foldl_cons, ih, see, List.find?_cons]
    by_cases hc : b.consumerId = c
    · subst hc
      cases hseen : get seen b.consumerId with
      | none => simp [get_set]
      | some name => simp [hseen]
    · have hget : get (if (get seen b.consumerId).isSome then seen
          else OrderedMaps.set seen b.consumerId b.consumerName) c = get seen c := by
        split
        · rfl
        · rw [get_set, if_neg hc]
      rw [hget, beq_eq_false_iff_ne.mpr hc]

theorem mem_consumersFrom (hname : ∀ a ∈ buckets, ∀ b ∈ buckets, a.consumerId = b.consumerId →
    a.consumerName = b.consumerName) :
    r ∈ consumersFrom buckets ↔
      ∃ b ∈ buckets, b.consumerId = r.id ∧ b.consumerName = r.name := by
  have hn : ((buckets.foldl see []).map Prod.fst).Nodup := foldl_see_nodup List.nodup_nil
  have hmem : r ∈ consumersFrom buckets ↔ (r.id, r.name) ∈ buckets.foldl see [] := by
    rw [consumersFrom, mem_sortBy, List.mem_map]
    constructor
    · rintro ⟨e, he, rfl⟩
      exact he
    · exact fun he => ⟨_, he, rfl⟩
  rw [hmem, ← get_eq_some hn, get_foldl_see]
  have hnone : get ([] : OrderedMap ConsumerId String) r.id = none := rfl
  rw [hnone, Option.none_or, Option.map_eq_some_iff]
  have hid : ∀ b, buckets.find? (fun x => x.consumerId == r.id) = some b →
      b.consumerId = r.id := fun b hb => by simpa using List.find?_some hb
  constructor
  · rintro ⟨b, hb, hr⟩
    exact ⟨b, List.mem_of_find?_eq_some hb, hid b hb, hr⟩
  · rintro ⟨b, hb, hb', hr⟩
    have hsome : (buckets.find? fun b => b.consumerId == r.id).isSome :=
      List.find?_isSome.mpr ⟨b, hb, beq_iff_eq.mpr hb'⟩
    obtain ⟨a, ha⟩ := Option.isSome_iff_exists.mp hsome
    refine ⟨a, ha, ?_⟩
    rw [hname a (List.mem_of_find?_eq_some ha) b hb ((hid a ha).trans hb'.symm), hr]

theorem consumersFrom_strict :
    (consumersFrom buckets).Pairwise fun a b => a.id < b.id := by
  apply sortBy_strict
  rw [List.map_map]
  exact foldl_see_nodup List.nodup_nil

end Consumers

section Rows

/-- What is drawn for a second: the depth of every consumer that has a bucket, a hole for the
others. -/
structure TrueRow (buckets : List MetricsBucket) (consumers : List ConsumerRef) (k : ℤ)
    (p : WidePoint) : Prop where
  second : get p.own "t" = some (some (k : ℚ))
  depth : ∀ b ∈ buckets, b.bucketVirtualS = k → ∀ c ∈ consumers, b.consumerId = c.id →
    get p.own c.name = some (some (b.backlog : ℚ))
  hole : ∀ c ∈ consumers, (∀ b ∈ buckets, b.bucketVirtualS = k → b.consumerId ≠ c.id) →
    get p.own c.name = some none

def TrueBacklog (buckets : List MetricsBucket) (consumers : List ConsumerRef)
    (chart : List WidePoint) : Prop :=
  ∃ seconds : List ℤ, seconds.Pairwise (· < ·) ∧
    (∀ k, k ∈ seconds ↔ ∃ b ∈ buckets, b.bucketVirtualS = k) ∧
    List.Forall₂ (TrueRow buckets consumers) seconds chart

structure Columns (buckets : List MetricsBucket) (consumers : List ConsumerRef) : Prop where
  own : ∀ b ∈ buckets, ∀ c ∈ consumers, b.consumerName = c.name ↔ b.consumerId = c.id
  free : ∀ c ∈ consumers, c.name ≠ "t" ∧ c.name ≠ "__proto__"
  axis : ∀ b ∈ buckets, b.consumerName ≠ "t"

variable {buckets : List MetricsBucket} {consumers : List ConsumerRef} {c : ConsumerRef}
  {b : MetricsBucket} {row : WidePoint} {k : ℤ} {name : String}

theorem get_assign {name' : String} {v : Option ℚ} (hp : name ≠ "__proto__") :
    get (row.assign name' v).own name = if name' = name then some v else get row.own name := by
  rw [WidePoint.assign]
  split
  · rename_i h
    rw [if_neg (h.1.trans_ne hp.symm)]
  · exact get_set

/-- But for the one name, a row holds what a plain map does. -/
theorem get_assignments {γ : Type} {l : List γ} {key : γ → String} {value : γ → Option ℚ}
    {point : SharePoint} (hp : name ≠ "__proto__") (h : get row.own name = get point name) :
    get (l.foldl (fun row x => row.assign (key x) (value x)) row).own name =
      get (l.foldl (fun point x => ShareWindows.assign point (key x) (value x)) point) name := by
  induction l generalizing row point with
  | nil => exact h
  | cons x l ih =>
    refine ih ?_
    rw [get_assign hp]
    by_cases hx : key x = name
    · rw [ShareWindows.get_assign (hx.trans_ne hp)]
      simp only [hx, if_pos]
    · have hother : get (ShareWindows.assign point (key x) (value x)) name = get point name :=
        get_assigned_other (l := [x]) (by simpa using Ne.symm hx)
      rw [if_neg hx, h, hother]

theorem blankRow_second (h : Columns buckets consumers) :
    get (blankRow consumers k).own "t" = some (some (k : ℚ)) := by
  rw [blankRow, get_assignments (by decide) rfl, get_assigned_other]
  · rfl
  · intro hmem
    obtain ⟨c, hc, hn⟩ := List.mem_map.mp hmem
    exact (h.free c hc).1 hn

theorem blankRow_hole (h : Columns buckets consumers) (hc : c ∈ consumers) :
    get (blankRow consumers k).own c.name = some none :=
  (get_assignments (h.free c hc).2 rfl).trans
    (get_assigned_same (fun _ _ _ => rfl) (List.mem_map_of_mem hc) (h.free c hc).2)

theorem get_recorded_other (hp : name ≠ "__proto__")
    (h : name ∉ buckets.map MetricsBucket.consumerName) :
    get (buckets.foldl record row).own name = get row.own name :=
  (get_assignments hp rfl).trans (get_assigned_other h)

theorem get_recorded (hsame : ∀ x ∈ buckets, x.consumerName = name → x.backlog = b.backlog)
    (hb : b ∈ buckets) (hn : b.consumerName = name) (hp : name ≠ "__proto__") :
    get (buckets.foldl record row).own name = some (some (b.backlog : ℚ)) := by
  refine (get_assignments hp rfl).trans ?_
  refine get_assigned_same (fun x hx he => ?_) (List.mem_map.mpr ⟨b, hb, hn⟩) hp
  rw [hsame x hx he]

theorem trueRow (h : Columns buckets consumers) (hn : (buckets.map place).Nodup) :
    TrueRow buckets consumers k
      ((buckets.filter fun b => decide (b.bucketVirtualS = k)).foldl record
        (blankRow consumers k)) := by
  have hmem : ∀ x ∈ buckets.filter fun b => decide (b.bucketVirtualS = k),
      x ∈ buckets ∧ x.bucketVirtualS = k := by
    intro x hx
    obtain ⟨hx, hk⟩ := List.mem_filter.mp hx
    exact ⟨hx, of_decide_eq_true hk⟩
  refine ⟨?_, fun b hb hk c hc hid => ?_, fun c hc hno => ?_⟩
  · rw [get_recorded_other (by decide), blankRow_second h]
    intro ht
    obtain ⟨x, hx, hxn⟩ := List.mem_map.mp ht
    exact h.axis x (hmem x hx).1 hxn
  · refine get_recorded (fun x hx hxn => ?_) (List.mem_filter.mpr ⟨hb, decide_eq_true hk⟩)
      ((h.own b hb c hc).mpr hid) (h.free c hc).2
    obtain ⟨hx, hxk⟩ := hmem x hx
    have hxid : x.consumerId = c.id := (h.own x hx c hc).mp hxn
    have hplace : place x = place b :=
      place_eq_iff.mpr ⟨hxk.trans hk.symm, hxid.trans hid.symm⟩
    rw [List.inj_on_of_nodup_map hn hx hb hplace]
  · rw [get_recorded_other (h.free c hc).2, blankRow_hole h hc]
    intro hcol
    obtain ⟨x, hx, hxn⟩ := List.mem_map.mp hcol
    obtain ⟨hx, hxk⟩ := hmem x hx
    exact hno x hx hxk ((h.own x hx c hc).mp hxn)

theorem TrueRow.number_second (h : TrueRow buckets consumers k row) : number row.own "t" = k := by
  rw [number, h.second]
  rfl

theorem row_true (h : Columns buckets consumers) (hn : (buckets.map place).Nodup)
    {e : ℤ × WidePoint} (he : e ∈ foldFrom MetricsBucket.bucketVirtualS record
      (blankRow consumers) [] buckets) : TrueRow buckets consumers e.1 e.2 := by
  rw [(mem_foldFrom.mp he).2]
  exact trueRow h hn

theorem seconds_nodup (h : Columns buckets consumers) (hn : (buckets.map place).Nodup) :
    ((values (foldFrom MetricsBucket.bucketVirtualS record (blankRow consumers) [] buckets)).map
      fun p => number p.own "t").Nodup := by
  have hseconds : ((values (foldFrom MetricsBucket.bucketVirtualS record (blankRow consumers) []
      buckets)).map fun p => number p.own "t") = ((foldFrom MetricsBucket.bucketVirtualS record
        (blankRow consumers) [] buckets).map Prod.fst).map fun k : ℤ => (k : ℚ) := by
    rw [values, List.map_map, List.map_map]
    exact List.map_congr_left fun e he => (row_true h hn he).number_second
  have hkeys : ((foldFrom MetricsBucket.bucketVirtualS record (blankRow consumers) []
      buckets).map Prod.fst).Nodup := foldFrom_nodup List.nodup_nil
  rw [hseconds]
  exact hkeys.map Int.cast_injective

theorem mem_toWideSeries (h : Columns buckets consumers) (hn : (buckets.map place).Nodup)
    (hp : row ∈ toWideSeries buckets consumers) : ∃ k : ℤ, number row.own "t" = k ∧
      TrueRow buckets consumers k row ∧ ∃ b ∈ buckets, b.bucketVirtualS = k := by
  obtain ⟨e, he, rfl⟩ := List.mem_map.mp (mem_sortBy.mp hp)
  have hrow := row_true h hn he
  exact ⟨e.1, hrow.number_second, hrow, (mem_foldFrom.mp he).1⟩

theorem exists_toWideSeries (h : Columns buckets consumers) (hn : (buckets.map place).Nodup)
    (hb : ∃ b ∈ buckets, b.bucketVirtualS = k) :
    ∃ row ∈ toWideSeries buckets consumers, number row.own "t" = k := by
  have he : (k, (buckets.filter fun b => decide (b.bucketVirtualS = k)).foldl record
      (blankRow consumers k)) ∈ foldFrom MetricsBucket.bucketVirtualS record (blankRow consumers)
        [] buckets := mem_foldFrom.mpr ⟨hb, rfl⟩
  exact ⟨_, mem_sortBy.mpr (List.mem_map_of_mem he), (row_true h hn he).number_second⟩

/-- The series is right about any buckets of which no key comes twice. -/
theorem toWideSeries_true (h : Columns buckets consumers) (hn : (buckets.map place).Nodup) :
    TrueBacklog buckets consumers (toWideSeries buckets consumers) := by
  refine ⟨(toWideSeries buckets consumers).map fun p => ⌊number p.own "t"⌋, ?_, fun k => ?_, ?_⟩
  · rw [List.pairwise_map]
    refine (sortBy_strict (seconds_nodup h hn)).imp_of_mem fun {p q} hp hq hlt => ?_
    obtain ⟨a, ha, -⟩ := mem_toWideSeries h hn hp
    obtain ⟨b, hb, -⟩ := mem_toWideSeries h hn hq
    rw [ha, hb] at hlt
    rw [ha, hb, Int.floor_intCast, Int.floor_intCast]
    exact_mod_cast hlt
  · rw [List.mem_map]
    constructor
    · rintro ⟨p, hp, rfl⟩
      obtain ⟨k, hk, -, hb⟩ := mem_toWideSeries h hn hp
      rwa [hk, Int.floor_intCast]
    · intro hb
      obtain ⟨p, hp, hk⟩ := exists_toWideSeries h hn hb
      exact ⟨p, hp, by rw [hk, Int.floor_intCast]⟩
  · rw [List.forall₂_map_left_iff, List.forall₂_same]
    intro p hp
    obtain ⟨k, hk, hrow, -⟩ := mem_toWideSeries h hn hp
    rwa [hk, Int.floor_intCast]

end Rows

section CatchUp

def Drained (c : ConsumerId) (b : MetricsBucket) : Prop :=
  b.consumerId = c ∧ OUTAGE_ENDS_AT_S ≤ b.bucketVirtualS ∧ b.backlog = 0

instance (c : ConsumerId) : DecidablePred (Drained c) := fun _ =>
  inferInstanceAs (Decidable (_ ∧ _))

def drainedSeconds (buckets : List MetricsBucket) (c : ConsumerId) : List ℤ :=
  (buckets.filter fun b => decide (Drained c b)).map MetricsBucket.bucketVirtualS

variable {buckets : List MetricsBucket} {c : ConsumerId} {b : MetricsBucket} {d k : ℤ}
  {earliest : Option ℤ}

theorem mem_drainedSeconds :
    k ∈ drainedSeconds buckets c ↔ ∃ b ∈ buckets, Drained c b ∧ b.bucketVirtualS = k := by
  simp only [drainedSeconds, List.mem_map, List.mem_filter, decide_eq_true_eq, and_assoc]

theorem catchUp_skips (h : ¬ Drained c b) : catchUp c earliest b = earliest := by
  rw [catchUp]
  split_ifs with hc ht hz
  · rfl
  · rfl
  · rfl
  · exact absurd ⟨not_not.mp hc, not_lt.mp ht, not_not.mp hz⟩ h
  · rfl

theorem catchUp_counts (h : Drained c b) :
    catchUp c earliest b = (earliest.toList ++ [b.bucketVirtualS]).min? := by
  obtain ⟨hc, ht, hz⟩ := h
  rw [catchUp, if_neg (not_not.mpr hc), if_neg (not_lt.mpr ht), if_neg (not_not.mpr hz)]
  cases earliest with
  | none => rfl
  | some e =>
    by_cases hlt : b.bucketVirtualS < e
    · simp [hlt, min_eq_right hlt.le]
    · simp [hlt, min_eq_left (not_lt.mp hlt)]

/-- The scan keeps the least of the seconds. -/
theorem foldl_catchUp : buckets.foldl (catchUp c) earliest =
    (earliest.toList ++ drainedSeconds buckets c).min? := by
  induction buckets generalizing earliest with
  | nil => cases earliest <;> rfl
  | cons b l ih =>
    rw [List.foldl_cons, ih]
    by_cases h : Drained c b
    · have hsec : drainedSeconds (b :: l) c = b.bucketVirtualS :: drainedSeconds l c := by
        rw [drainedSeconds, List.filter_cons_of_pos (by simpa using h)]
        rfl
      rw [catchUp_counts h, hsec]
      cases earliest <;> rfl
    · have hsec : drainedSeconds (b :: l) c = drainedSeconds l c := by
        rw [drainedSeconds, List.filter_cons_of_neg (by simpa using h)]
        rfl
      rw [catchUp_skips h, hsec]

theorem deriveCaughtUpAfter_eq_some : deriveCaughtUpAfter buckets c = some d ↔
    IsLeast {k | ∃ b ∈ buckets, Drained c b ∧ b.bucketVirtualS = k} (OUTAGE_ENDS_AT_S + d) := by
  have hmin : (drainedSeconds buckets c).min? = some (OUTAGE_ENDS_AT_S + d) ↔ _ :=
    List.min?_eq_some_iff
  rw [deriveCaughtUpAfter, foldl_catchUp]
  simp only [mem_drainedSeconds] at hmin
  rw [Option.toList_none, List.nil_append, IsLeast, lowerBounds, Option.map_eq_some_iff]
  refine Iff.trans ?_ (hmin.trans Iff.rfl)
  constructor
  · rintro ⟨k, hk, hd⟩
    rw [hk, ← hd]
    congr 1
    omega
  · exact fun h => ⟨_, h, by omega⟩

end CatchUp

section Polls

theorem isLeast_congr_below {β : Type} [LinearOrder β] {S T : Set β} {a u : β}
    (h : ∀ k ≤ u, k ∈ S ↔ k ∈ T) (ha : a ≤ u) : IsLeast S a ↔ IsLeast T a := by
  have sub : ∀ {S T : Set β}, (∀ k ≤ u, k ∈ S ↔ k ∈ T) → IsLeast S a → IsLeast T a := by
    intro S T h hs
    refine ⟨(h a ha).mp hs.1, fun k hk => ?_⟩
    rcases le_total k u with hku | hku
    · exact hs.2 ((h k hku).mpr hk)
    · exact ha.trans hku
  exact ⟨sub h, sub fun k hk => (h k hk).symm⟩

/-- The simulation's consumers as the chart has them: under the names that the server gives them,
one each, which are no other property of a row. -/
structure Named (v : Server) (sim : SimulationId) (consumers : List ConsumerRef) : Prop where
  listed : ∀ c ∈ consumers, nameOf v.consumers c.id = some c.name
  unique : ∀ b ∈ tableOf v sim, ∀ c ∈ consumers, b.consumerName = c.name → b.consumerId = c.id
  free : ∀ c ∈ consumers, c.name ≠ "t" ∧ c.name ≠ "__proto__"
  axis : ∀ b ∈ tableOf v sim, b.consumerName ≠ "t"

variable {sim : SimulationId} {v : Server} {s t : State} {b : MetricsBucket} {c : ConsumerId}
  {consumers : List ConsumerRef}

theorem name_of_table (hb : b ∈ tableOf v sim) :
    nameOf v.consumers b.consumerId = some b.consumerName := by
  obtain ⟨m, -, -, name, hn, rfl⟩ := mem_tableOf.mp hb
  exact hn

theorem Named.columns (h : Named v sim consumers) : Columns (tableOf v sim) consumers := by
  refine ⟨fun b hb c hc => ⟨h.unique b hb c hc, fun hid => ?_⟩, h.free, h.axis⟩
  have hname := name_of_table hb
  rw [hid, h.listed c hc] at hname
  exact (Option.some.inj hname).symm

/-- After every poll the charts tell of the metrics table as it is: the consumers that it has rows
of, in order; a row for each of its seconds, with the depth of every consumer's row and a hole
where there is none; and the first second after the outage at which a consumer had no backlog. -/
theorem backlog_chart (hr : (system sim).Reachable s) (h : (system sim).step s .poll t) :
    (consumersFrom t.client.buckets).Pairwise (fun a b => a.id < b.id) ∧
    (∀ r, r ∈ consumersFrom t.client.buckets ↔ nameOf t.server.consumers r.id = some r.name ∧
      ∃ m ∈ t.server.metrics, m.simulationId = sim ∧ m.consumerId = r.id) ∧
    (∀ consumers, Named t.server sim consumers →
      TrueBacklog (tableOf t.server sim) consumers
        (toWideSeries t.client.buckets consumers)) ∧
    ∀ c d, deriveCaughtUpAfter t.client.buckets c = some d ↔
      IsLeast {k | ∃ b ∈ tableOf t.server sim, Drained c b ∧ b.bucketVirtualS = k}
        (OUTAGE_ENDS_AT_S + d) := by
  obtain ⟨-, rfl⟩ := h
  have hbuckets : (next sim s .poll).client.buckets = tableOf (next sim s .poll).server sim :=
    poll_buckets (reachable_tracks hr)
  rw [hbuckets]
  refine ⟨consumersFrom_strict, fun r => ?_, fun consumers hk => ?_, fun c d => ?_⟩
  · rw [mem_consumersFrom]
    · constructor
      · rintro ⟨b, hb, hid, hn⟩
        obtain ⟨m, hm, hs, name, hname, rfl⟩ := mem_tableOf.mp hb
        rw [← hid, ← hn]
        exact ⟨hname, m, hm, hs, rfl⟩
      · rintro ⟨hn, m, hm, hs, hid⟩
        rw [← hid] at hn
        exact ⟨bucketOf m r.name, mem_tableOf.mpr ⟨m, hm, hs, r.name, hn, rfl⟩, hid, rfl⟩
    · intro a ha b hb hid
      have hname := name_of_table ha
      rw [hid, name_of_table hb] at hname
      exact (Option.some.inj hname).symm
  · exact toWideSeries_true hk.columns (nodup_of_strict tableOf_strict)
  · exact deriveCaughtUpAfter_eq_some

/-- What is two buckets behind the cursor stays as it is on the chart. -/
structure Settles (s t : State) : Prop where
  forward : s.client.cursor ≤ t.client.cursor
  same : ∀ b, b.bucketVirtualS ≤ s.client.cursor - CURSOR_OVERLAP →
    (b ∈ t.client.buckets ↔ b ∈ s.client.buckets)

theorem Settles.refl (s : State) : Settles s s := ⟨le_rfl, fun _ _ => Iff.rfl⟩

theorem Settles.trans {u : State} (h : Settles s t) (h' : Settles t u) : Settles s u :=
  ⟨h.forward.trans h'.forward, fun b hb =>
    (h'.same b (hb.trans (sub_le_sub_right h.forward _))).trans (h.same b hb)⟩

theorem step_settles {e : Event} (hr : (system sim).Reachable s) (h : (system sim).step s e t) :
    Settles s t := by
  have hs := reachable_tracks hr
  refine ⟨cursor_monotone hs h, fun b hb => ?_⟩
  obtain ⟨-, rfl⟩ := h
  cases e with
  | poll =>
    change b ∈ (poll s.server sim s.client).buckets ↔ _
    rw [poll_buckets hs]
    exact (hs.settled b (hs.position ▸ hb)).symm
  | write m => exact Iff.rfl
  | failedPoll => exact Iff.rfl

theorem run_settles (hr : (system sim).Reachable s) (hx : (system sim).Execution s t) :
    Settles s t :=
  System.Execution.relates Settles.refl (fun _ _ _ h h' => h.trans h')
    (fun _ _ _ hr h => step_settles hr h) hr hx

/-- Once the cursor has passed a consumer's catch-up figure by the overlap, no later write or poll
changes the figure; and no figure appears later for a second that it has passed. -/
theorem caught_up_settles (hr : (system sim).Reachable s) (hx : (system sim).Execution s t)
    (c : ConsumerId) (d : ℤ) (hd : OUTAGE_ENDS_AT_S + d + CURSOR_OVERLAP ≤ s.client.cursor) :
    deriveCaughtUpAfter s.client.buckets c = some d ↔
      deriveCaughtUpAfter t.client.buckets c = some d := by
  have hsame := (run_settles hr hx).same
  rw [deriveCaughtUpAfter_eq_some, deriveCaughtUpAfter_eq_some]
  refine isLeast_congr_below (u := s.client.cursor - CURSOR_OVERLAP) ?_ (by omega)
  intro k hk
  constructor
  · rintro ⟨b, hb, hdrained, rfl⟩
    exact ⟨b, (hsame b hk).mpr hb, hdrained, rfl⟩
  · rintro ⟨b, hb, hdrained, rfl⟩
    exact ⟨b, (hsame b hk).mp hb, hdrained, rfl⟩

end Polls

section Recovery

def behind : MetricsSnapshot := ⟨7, 1, 420, 3, 2, 1, 5, 5, 0, 0, 0⟩

def done : MetricsSnapshot := ⟨7, 2, 420, 0, 0, 0, 1, 1, 0, 0, 0⟩

def drained : MetricsSnapshot := ⟨7, 1, 421, 0, 0, 0, 3, 3, 0, 0, 0⟩

def later : MetricsSnapshot := ⟨7, 1, 424, 0, 0, 0, 1, 1, 0, 0, 0⟩

def opened : State where
  server :=
    { simulations := [7]
      consumers := [(1, "crm"), (2, "erp")]
      metrics := [drained, done, behind]
      metrics_key := by decide
      consumer_exists := by decide }
  client := {}
  mark := -1

theorem opened_initial : Initial 7 opened := ⟨rfl, rfl, by decide, by decide⟩

def charted : State := next 7 opened .poll

theorem charted_reachable : (system 7).Reachable charted :=
  (System.Reachable.initial opened_initial).tail (e := .poll) ⟨trivial, rfl⟩

theorem backlog_chart_two_consumers :
    let consumers := consumersFrom charted.client.buckets
    let chart := toWideSeries charted.client.buckets consumers
    consumers = [⟨1, "crm"⟩, ⟨2, "erp"⟩] ∧ consumers.Pairwise (fun a b => a.id < b.id) ∧
      TrueBacklog (tableOf charted.server 7) consumers chart ∧
      chart = [{ own := [("t", some 420), ("crm", some 3), ("erp", some 0)] },
        { own := [("t", some 421), ("crm", some 0), ("erp", none)] }] ∧
      deriveCaughtUpAfter charted.client.buckets 1 = some 1 := by
  intro consumers chart
  have h := backlog_chart (t := charted) (.initial opened_initial) ⟨trivial, rfl⟩
  have hnamed : Named charted.server 7 consumers := by
    constructor <;> decide +kernel
  exact ⟨by decide +kernel, h.1, h.2.2.1 consumers hnamed, by decide +kernel, by decide +kernel⟩

theorem caught_up_settles_later :
    let s := next 7 (next 7 charted (.write later)) .poll
    let t := next 7 (next 7 s (.write { later with backlog := 6 })) .poll
    deriveCaughtUpAfter s.client.buckets 1 = some 1 ∧
      deriveCaughtUpAfter t.client.buckets 1 = some 1 := by
  intro s t
  have hs : (system 7).Reachable s :=
    (charted_reachable.tail (e := .write later) ⟨by decide, rfl⟩).tail (e := .poll) ⟨trivial, rfl⟩
  have hx : (system 7).Execution s t :=
    (Relation.ReflTransGen.single
      ⟨.write { later with backlog := 6 }, by decide +kernel, rfl⟩).tail ⟨.poll, trivial, rfl⟩
  have hshown : deriveCaughtUpAfter s.client.buckets 1 = some 1 := by decide +kernel
  exact ⟨hshown, (caught_up_settles hs hx 1 1 (by decide +kernel)).mp hshown⟩

end Recovery

end BacklogChart
