import WebhookRecovery.Numerals
import WebhookRecovery.OrderedMaps
import WebhookRecovery.MetricsSeries

/-! The chart's feed: a page of metrics buckets behind a cursor, and the buffer that the browser
keeps of them. A poll asks again for the last buckets it has read, and merges what it gets. -/
namespace MetricsFeed

open RecoverySchema InterleavedPrograms MetricsSeries OrderedMaps

structure MetricsBucket where
  consumerId : ConsumerId
  consumerName : String
  bucketVirtualS : ℤ
  backlog : ℕ
  ready : ℕ
  inFlight : ℕ
  attempts : ℕ
  delivered : ℕ
  expired : ℕ
  superseded : ℕ
  failed : ℕ
  deriving DecidableEq, Repr

structure MetricsPage where
  simulationId : SimulationId
  buckets : List MetricsBucket
  nextSinceBucket : ℤ
  deriving DecidableEq, Repr

def nameOf (consumers : List (ConsumerId × String)) (c : ConsumerId) : Option String :=
  (consumers.find? fun e => e.1 == c).map Prod.snd

/-- What `read_metrics` reads, with the unique key and the foreign key of the metrics table. -/
structure Server where
  simulations : List SimulationId
  consumers : List (ConsumerId × String)
  metrics : List MetricsSnapshot
  metrics_key : (metrics.map MetricsSnapshot.key).Nodup
  consumer_exists : ∀ m ∈ metrics, (nameOf consumers m.consumerId).isSome

def bucketOf (m : MetricsSnapshot) (name : String) : MetricsBucket where
  consumerId := m.consumerId
  consumerName := name
  bucketVirtualS := m.bucketVirtualS
  backlog := m.backlog
  ready := m.ready
  inFlight := m.inFlight
  attempts := m.attempts
  delivered := m.delivered
  expired := m.expired
  superseded := m.superseded
  failed := m.failed

def place (b : MetricsBucket) : ℤ ×ₗ ConsumerId := toLex (b.bucketVirtualS, b.consumerId)

def joined (s : Server) (simulationId : SimulationId) (p : MetricsSnapshot → Bool) :
    List MetricsBucket :=
  (s.metrics.filter fun m => m.simulationId == simulationId && p m).filterMap fun m =>
    (nameOf s.consumers m.consumerId).map (bucketOf m)

def readMetrics (s : Server) (simulationId : SimulationId) (sinceBucket : ℤ) :
    Option MetricsPage :=
  if simulationId ∈ s.simulations then
    let buckets := sortBy place (joined s simulationId fun m => sinceBucket < m.bucketVirtualS)
    some
      { simulationId := simulationId
        buckets := buckets
        -- unchanged when the page is empty
        nextSinceBucket := (buckets.getLast?.map MetricsBucket.bucketVirtualS).getD sinceBucket }
  else none

/-- `${bucket_virtual_s}:${consumer_id}`. -/
def keyOf (b : MetricsBucket) : String := b.bucketVirtualS.repr ++ ":" ++ b.consumerId.repr

def mergeBuckets (existing incoming : List MetricsBucket) : List MetricsBucket :=
  if incoming.isEmpty then existing
  else sortBy place (values (setAll keyOf (setAll keyOf [] existing) incoming))

/-- How many already-read buckets to re-request each poll. -/
def CURSOR_OVERLAP : ℤ := 2

structure Client where
  cursor : ℤ := -1
  buckets : List MetricsBucket := []
  deriving DecidableEq, Repr

/-- One run of the metrics poller; a request that fails leaves the client as it is. -/
def poll (s : Server) (simulationId : SimulationId) (c : Client) : Client :=
  match readMetrics s simulationId (max (-1) (c.cursor - CURSOR_OVERLAP)) with
  | none => c
  | some page =>
    { cursor := max c.cursor page.nextSinceBucket
      buckets := mergeBuckets c.buckets page.buckets }

/-- `INSERT … ON CONFLICT DO UPDATE` of one row; the foreign key refuses an unknown consumer. -/
def Server.upsert (s : Server) (m : MetricsSnapshot) : Server :=
  if h : (nameOf s.consumers m.consumerId).isSome then
    { s with
      metrics := upsertRow s.metrics m
      metrics_key := upsertRow_nodup s.metrics_key
      consumer_exists := by
        intro r hr
        rcases mem_upsertRow.mp hr with rfl | ⟨hr, -⟩
        · exact h
        · exact s.consumer_exists r hr }
  else s

section Pages

variable {s : Server} {sim : SimulationId} {p : MetricsSnapshot → Bool} {a b : MetricsBucket}
  {m : MetricsSnapshot}

theorem place_eq_iff :
    place a = place b ↔ a.bucketVirtualS = b.bucketVirtualS ∧ a.consumerId = b.consumerId := by
  simp [place]

/-- The separator is no part of a numeral. -/
theorem keyOf_eq_iff : keyOf a = keyOf b ↔ place a = place b := by
  have sep : ∀ c : ConsumerId, ':' ∉ c.repr.toList := fun c h =>
    absurd (Numerals.isDigit_of_mem_natRepr h) (by decide)
  have sepInt : ∀ i : ℤ, ':' ∉ i.repr.toList := by
    intro i h
    rcases Numerals.mem_intRepr h with h | h
    · exact absurd h (by decide)
    · exact absurd h (by decide)
  rw [place_eq_iff, keyOf, keyOf, ← String.toList_inj]
  simp only [String.toList_append]
  have hcolon : ":".toList = [':'] := rfl
  rw [hcolon, List.append_assoc, List.append_assoc, List.singleton_append, List.singleton_append,
    List.append_cons_inj_of_notMem (sepInt _) (sep _), String.toList_inj, String.toList_inj]
  constructor
  · rintro ⟨hb, -, hc⟩
    exact ⟨Numerals.intRepr_injective hb, Numerals.natRepr_injective hc⟩
  · rintro ⟨hb, hc⟩
    exact ⟨by rw [hb], rfl, by rw [hc]⟩

theorem nodup_keyOf {l : List MetricsBucket} :
    (l.map keyOf).Nodup ↔ (l.map place).Nodup := by
  simp only [List.Nodup, List.pairwise_map, ne_eq, keyOf_eq_iff]

theorem mem_joined : b ∈ joined s sim p ↔ ∃ m ∈ s.metrics, m.simulationId = sim ∧ p m ∧
    ∃ name, nameOf s.consumers m.consumerId = some name ∧ b = bucketOf m name := by
  simp only [joined, List.mem_filterMap, List.mem_filter, Bool.and_eq_true, beq_iff_eq,
    Option.map_eq_some_iff]
  constructor
  · rintro ⟨m, ⟨hm, hs, hp⟩, name, hn, rfl⟩
    exact ⟨m, hm, hs, hp, name, hn, rfl⟩
  · rintro ⟨m, hm, hs, hp, name, hn, rfl⟩
    exact ⟨m, ⟨hm, hs, hp⟩, name, hn, rfl⟩

theorem joined_nodup : ((joined s sim p).map place).Nodup := by
  have hkeys : s.metrics.Pairwise fun m n => MetricsSnapshot.key m ≠ MetricsSnapshot.key n :=
    List.pairwise_map.mp s.metrics_key
  rw [List.Nodup, List.pairwise_map, joined, List.pairwise_filterMap]
  apply (hkeys.filter _).imp_of_mem
  intro m n hm hn hne b hb c hc hplace
  rw [Option.map_eq_some_iff] at hb hc
  obtain ⟨x, -, rfl⟩ := hb
  obtain ⟨y, -, rfl⟩ := hc
  obtain ⟨hbucket, hconsumer⟩ : m.bucketVirtualS = n.bucketVirtualS ∧ m.consumerId = n.consumerId :=
    place_eq_iff.mp hplace
  have hms := (List.mem_filter.mp hm).2
  have hns := (List.mem_filter.mp hn).2
  rw [Bool.and_eq_true, beq_iff_eq] at hms hns
  apply hne
  rw [MetricsSnapshot.key, MetricsSnapshot.key, hms.1, hns.1, hbucket, hconsumer]

end Pages

section Merging

variable {existing incoming : List MetricsBucket} {b : MetricsBucket}

theorem mem_mergeBuckets (he : (existing.map place).Nodup) (hi : (incoming.map place).Nodup) :
    b ∈ mergeBuckets existing incoming ↔
      b ∈ incoming ∨ b ∈ existing ∧ ∀ x ∈ incoming, place x ≠ place b := by
  have hek : (existing.map keyOf).Nodup := nodup_keyOf.mpr he
  have hik : (incoming.map keyOf).Nodup := nodup_keyOf.mpr hi
  rw [mergeBuckets]
  split
  · rename_i hempty
    obtain rfl := List.isEmpty_iff.mp hempty
    simp
  · rw [mem_sortBy, values, List.mem_map]
    constructor
    · rintro ⟨e, hm, rfl⟩
      rcases (mem_setAll hik).mp hm with ⟨hin, -⟩ | ⟨hold, hfresh⟩
      · exact Or.inl hin
      · rcases (mem_setAll hek).mp hold with ⟨hex, hk⟩ | ⟨hnil, -⟩
        · refine Or.inr ⟨hex, fun x hx hp => hfresh x hx ?_⟩
          rw [← hk, keyOf_eq_iff.mpr hp]
        · cases hnil
    · intro h
      refine ⟨(keyOf b, b), (mem_setAll hik).mpr ?_, rfl⟩
      rcases h with hin | ⟨hex, hfresh⟩
      · exact Or.inl ⟨hin, rfl⟩
      · refine Or.inr ⟨(mem_setAll hek).mpr (Or.inl ⟨hex, rfl⟩), fun x hx hk => ?_⟩
        exact hfresh x hx (keyOf_eq_iff.mp hk)

theorem mergeBuckets_strict (he : existing.Pairwise fun a b => place a < place b)
    (hi : (incoming.map place).Nodup) :
    (mergeBuckets existing incoming).Pairwise fun a b => place a < place b := by
  have hek : (existing.map keyOf).Nodup := nodup_keyOf.mpr (nodup_of_strict he)
  rw [mergeBuckets]
  split
  · exact he
  · refine sortBy_strict (nodup_keyOf.mp
      (values_setAll_keys (setAll_nodup .nil) ?_ (nodup_keyOf.mpr hi)))
    intro e hm
    rcases (mem_setAll hek).mp hm with ⟨-, hk⟩ | ⟨hnil, -⟩
    · exact hk
    · cases hnil

end Merging

section Runs

def tableOf (s : Server) (sim : SimulationId) : List MetricsBucket :=
  sortBy place (joined s sim fun _ => true)

def highest (s : Server) (sim : SimulationId) : ℤ :=
  ((tableOf s sim).map MetricsBucket.bucketVirtualS).max?.getD (-1)

/-- `mark` is the highest bucket at the last poll that was answered. -/
structure State where
  server : Server
  client : Client
  mark : ℤ

inductive Event where
  | write (m : MetricsSnapshot)
  | poll
  | failedPoll

/-- Between two polls only buckets that the next poll asks for are inserted or replaced. -/
def Enabled (sim : SimulationId) (s : State) : Event → Prop
  | .write m => m.simulationId = sim →
    0 ≤ m.bucketVirtualS ∧ s.mark - CURSOR_OVERLAP < m.bucketVirtualS
  | .poll | .failedPoll => True

instance (sim : SimulationId) (s : State) : DecidablePred (Enabled sim s)
  | .write m => inferInstanceAs (Decidable (m.simulationId = sim →
    0 ≤ m.bucketVirtualS ∧ s.mark - CURSOR_OVERLAP < m.bucketVirtualS))
  | .poll | .failedPoll => inferInstanceAs (Decidable True)

def next (sim : SimulationId) (s : State) : Event → State
  | .write m => { s with server := s.server.upsert m }
  | .poll => { s with client := poll s.server sim s.client, mark := highest s.server sim }
  | .failedPoll => s

def Initial (sim : SimulationId) (s : State) : Prop :=
  s.client = {} ∧ s.mark = -1 ∧ sim ∈ s.server.simulations ∧
    ∀ m ∈ s.server.metrics, m.simulationId = sim → 0 ≤ m.bucketVirtualS

def system (sim : SimulationId) : System State Event :=
  .guarded (Initial sim) (Enabled sim) (next sim)

/-- The buffer is right about the buckets that will not change, and has no others' keys; the
cursor stands at the highest bucket that there was. -/
structure Tracks (sim : SimulationId) (s : State) : Prop where
  served : sim ∈ s.server.simulations
  nonneg : ∀ b ∈ tableOf s.server sim, 0 ≤ b.bucketVirtualS
  position : s.client.cursor = s.mark
  from_start : -1 ≤ s.mark
  reached : s.mark = -1 ∨ ∃ b ∈ tableOf s.server sim, b.bucketVirtualS = s.mark
  ordered : s.client.buckets.Pairwise fun a b => place a < place b
  known : ∀ b ∈ s.client.buckets, ∃ x ∈ tableOf s.server sim, place x = place b
  settled : ∀ b, b.bucketVirtualS ≤ s.mark - CURSOR_OVERLAP →
    (b ∈ s.client.buckets ↔ b ∈ tableOf s.server sim)

variable {sim : SimulationId} {v : Server} {s t : State} {e : Event} {b : MetricsBucket}
  {m : MetricsSnapshot} {c : Client}

theorem mem_tableOf : b ∈ tableOf v sim ↔ ∃ m ∈ v.metrics, m.simulationId = sim ∧
    ∃ name, nameOf v.consumers m.consumerId = some name ∧ b = bucketOf m name := by
  simp only [tableOf, mem_sortBy, mem_joined, true_and]

theorem tableOf_strict : (tableOf v sim).Pairwise fun a b => place a < place b :=
  sortBy_strict joined_nodup

theorem le_highest (hb : b ∈ tableOf v sim) : b.bucketVirtualS ≤ highest v sim := by
  rw [highest]
  have hmem := List.mem_map_of_mem (f := MetricsBucket.bucketVirtualS) hb
  cases hmax : ((tableOf v sim).map MetricsBucket.bucketVirtualS).max? with
  | none =>
    rw [List.max?_eq_none_iff.mp hmax] at hmem
    cases hmem
  | some x => exact (List.max?_eq_some_iff.mp hmax).2 _ hmem

theorem highest_reached (v : Server) (sim : SimulationId) :
    highest v sim = -1 ∨ ∃ b ∈ tableOf v sim, b.bucketVirtualS = highest v sim := by
  rw [highest]
  cases hmax : ((tableOf v sim).map MetricsBucket.bucketVirtualS).max? with
  | none => exact Or.inl rfl
  | some x => exact Or.inr (List.mem_map.mp (List.max?_eq_some_iff.mp hmax).1)

theorem mem_tableOf_upsert {name : String} (hn : nameOf v.consumers m.consumerId = some name) :
    b ∈ tableOf (v.upsert m) sim ↔ (m.simulationId = sim ∧ b = bucketOf m name) ∨
      b ∈ tableOf v sim ∧ (m.simulationId = sim → place b ≠ place (bucketOf m name)) := by
  have hmetrics : (v.upsert m).metrics = upsertRow v.metrics m := by
    rw [Server.upsert, dif_pos (by rw [hn]; rfl)]
  have hconsumers : (v.upsert m).consumers = v.consumers := by
    rw [Server.upsert]
    split <;> rfl
  simp only [mem_tableOf, hmetrics, hconsumers, mem_upsertRow]
  constructor
  · rintro ⟨r, rfl | ⟨hr, hk⟩, hs, x, hx, rfl⟩
    · rw [hn] at hx
      exact Or.inl ⟨hs, by rw [Option.some.inj hx]⟩
    · refine Or.inr ⟨⟨r, hr, hs, x, hx, rfl⟩, fun hm hp => hk ?_⟩
      obtain ⟨hb, hc⟩ : r.bucketVirtualS = m.bucketVirtualS ∧ r.consumerId = m.consumerId :=
        place_eq_iff.mp hp
      rw [MetricsSnapshot.key, MetricsSnapshot.key, hs, hm, hb, hc]
  · rintro (⟨hm, rfl⟩ | ⟨⟨r, hr, hs, x, hx, rfl⟩, hne⟩)
    · exact ⟨m, Or.inl rfl, hm, name, hn, rfl⟩
    · refine ⟨r, Or.inr ⟨hr, fun hk => ?_⟩, hs, x, hx, rfl⟩
      simp only [MetricsSnapshot.key, Prod.mk.injEq] at hk
      exact hne (hk.1.symm.trans hs) (place_eq_iff.mpr ⟨hk.2.2, hk.2.1⟩)

theorem upsert_simulations : (v.upsert m).simulations = v.simulations := by
  rw [Server.upsert]
  split <;> rfl

theorem upsert_refused (h : nameOf v.consumers m.consumerId = none) : v.upsert m = v := by
  rw [Server.upsert, dif_neg (by rw [h]; simp)]

theorem write_tracks (hs : Tracks sim s) (he : Enabled sim s (.write m)) :
    Tracks sim (next sim s (.write m)) := by
  cases hn : nameOf s.server.consumers m.consumerId with
  | none =>
    have hsame : next sim s (.write m) = s := by rw [next, upsert_refused hn]
    rwa [hsame]
  | some name =>
    -- a key that the table has is not lost
    have keeps : ∀ x ∈ tableOf s.server sim, ∃ y ∈ tableOf (s.server.upsert m) sim,
        place y = place x := by
      intro x hx
      by_cases hk : m.simulationId = sim ∧ place x = place (bucketOf m name)
      · exact ⟨bucketOf m name, (mem_tableOf_upsert hn).mpr (Or.inl ⟨hk.1, rfl⟩), hk.2.symm⟩
      · exact ⟨x, (mem_tableOf_upsert hn).mpr (Or.inr ⟨hx, fun hm hp => hk ⟨hm, hp⟩⟩), rfl⟩
    refine ⟨?_, ?_, hs.position, hs.from_start, ?_, hs.ordered, ?_, ?_⟩
    · exact upsert_simulations.symm ▸ hs.served
    · intro b hb
      rcases (mem_tableOf_upsert hn).mp hb with ⟨hm, rfl⟩ | ⟨hb, -⟩
      · exact (he hm).1
      · exact hs.nonneg b hb
    · rcases hs.reached with h | ⟨b, hb, hmark⟩
      · exact Or.inl h
      · obtain ⟨y, hy, hp⟩ := keeps b hb
        exact Or.inr ⟨y, hy, (place_eq_iff.mp hp).1.trans hmark⟩
    · intro b hb
      obtain ⟨x, hx, hp⟩ := hs.known b hb
      obtain ⟨y, hy, hq⟩ := keeps x hx
      exact ⟨y, hy, hq.trans hp⟩
    · intro b hb
      refine (hs.settled b hb).trans ?_
      change _ ↔ b ∈ tableOf (s.server.upsert m) sim
      rw [mem_tableOf_upsert hn]
      have hother : m.simulationId = sim → place b ≠ place (bucketOf m name) := by
        intro hm hp
        have hlow := (he hm).2
        have hhigh : b.bucketVirtualS ≤ s.mark - CURSOR_OVERLAP := hb
        have hsame : b.bucketVirtualS = m.bucketVirtualS := (place_eq_iff.mp hp).1
        omega
      constructor
      · exact fun h => Or.inr ⟨h, hother⟩
      · rintro (⟨hm, rfl⟩ | ⟨h, -⟩)
        · exact absurd rfl (hother hm)
        · exact h

def State.since (s : State) : ℤ := max (-1) (s.client.cursor - CURSOR_OVERLAP)

def pageOf (v : Server) (sim : SimulationId) (since : ℤ) : List MetricsBucket :=
  sortBy place (joined v sim fun m => since < m.bucketVirtualS)

theorem mem_pageOf {since : ℤ} :
    b ∈ pageOf v sim since ↔ b ∈ tableOf v sim ∧ since < b.bucketVirtualS := by
  simp only [pageOf, mem_sortBy, mem_joined, decide_eq_true_eq, mem_tableOf]
  constructor
  · rintro ⟨m, hm, hs, hp, name, hn, rfl⟩
    exact ⟨⟨m, hm, hs, name, hn, rfl⟩, hp⟩
  · rintro ⟨⟨m, hm, hs, name, hn, rfl⟩, hp⟩
    exact ⟨m, hm, hs, hp, name, hn, rfl⟩

theorem pageOf_strict {since : ℤ} :
    (pageOf v sim since).Pairwise fun a b => place a < place b := sortBy_strict joined_nodup

theorem pageOf_last {since : ℤ} {x : MetricsBucket} (hx : (pageOf v sim since).getLast? = some x) :
    x ∈ pageOf v sim since ∧ ∀ b ∈ pageOf v sim since, b.bucketVirtualS ≤ x.bucketVirtualS := by
  obtain ⟨front, hfront⟩ := List.getLast?_eq_some_iff.mp hx
  refine ⟨by rw [hfront]; simp, fun b hb => ?_⟩
  have hstrict : (pageOf v sim since).Pairwise fun a b => place a < place b := pageOf_strict
  rw [hfront] at hb hstrict
  rcases List.mem_append.mp hb with hb | hb
  · have hlt := (List.pairwise_append.mp hstrict).2.2 b hb x (List.mem_singleton_self x)
    exact (Prod.Lex.toLex_lt_toLex.mp hlt).elim le_of_lt fun h => h.1.le
  · rw [List.mem_singleton.mp hb]

theorem poll_served (hs : sim ∈ s.server.simulations) :
    poll s.server sim s.client =
      { cursor := max s.client.cursor
          (((pageOf s.server sim s.since).getLast?.map MetricsBucket.bucketVirtualS).getD s.since)
        buckets := mergeBuckets s.client.buckets (pageOf s.server sim s.since) } := by
  simp only [poll, readMetrics, if_pos hs]
  rfl

/-- What is asked for replaces what is known of it; the rest has not changed. -/
theorem poll_buckets (hs : Tracks sim s) :
    (poll s.server sim s.client).buckets = tableOf s.server sim := by
  rw [poll_served hs.served]
  refine eq_of_strict (mergeBuckets_strict hs.ordered (nodup_of_strict pageOf_strict))
    tableOf_strict fun b => ?_
  rw [mem_mergeBuckets (nodup_of_strict hs.ordered) (nodup_of_strict pageOf_strict), mem_pageOf]
  have hsince : s.since = max (-1) (s.mark - CURSOR_OVERLAP) := by rw [State.since, hs.position]
  constructor
  · rintro (h | ⟨hb, hfresh⟩)
    · exact h.1
    · obtain ⟨x, hx, hp⟩ := hs.known b hb
      have hlow : ¬ s.since < x.bucketVirtualS := fun h => hfresh x (mem_pageOf.mpr ⟨hx, h⟩) hp
      have hsame : x.bucketVirtualS = b.bucketVirtualS := (place_eq_iff.mp hp).1
      have hnonneg := hs.nonneg x hx
      exact (hs.settled b (by omega)).mp hb
  · intro hb
    by_cases hlow : s.since < b.bucketVirtualS
    · exact Or.inl ⟨hb, hlow⟩
    · have hnonneg := hs.nonneg b hb
      refine Or.inr ⟨(hs.settled b (by omega)).mpr hb, fun x hx hp => ?_⟩
      have hsame : x.bucketVirtualS = b.bucketVirtualS := (place_eq_iff.mp hp).1
      have hasked := (mem_pageOf.mp hx).2
      omega

theorem poll_cursor (hs : Tracks sim s) :
    (poll s.server sim s.client).cursor = highest s.server sim := by
  rw [poll_served hs.served, hs.position]
  have hsince : s.since = max (-1) (s.mark - CURSOR_OVERLAP) := by rw [State.since, hs.position]
  have hoverlap : CURSOR_OVERLAP = 2 := rfl
  have hstart := hs.from_start
  -- the position stays below the highest bucket while it is in the table
  have hmark : s.mark ≤ highest s.server sim := by
    rcases hs.reached with h | ⟨b, hb, h⟩
    · rcases highest_reached s.server sim with hh | ⟨x, hx, hh⟩
      · omega
      · have := hs.nonneg x hx
        omega
    · exact h ▸ le_highest hb
  cases hlast : (pageOf s.server sim s.since).getLast? with
  | none =>
    have hempty : pageOf s.server sim s.since = [] := List.getLast?_eq_none_iff.mp hlast
    have hhigh : highest s.server sim ≤ s.mark := by
      rcases highest_reached s.server sim with hh | ⟨x, hx, hh⟩
      · omega
      · by_contra hlt
        have hmem : x ∈ pageOf s.server sim s.since := mem_pageOf.mpr ⟨hx, by omega⟩
        rw [hempty] at hmem
        cases hmem
    simp only [Option.map_none, Option.getD_none]
    omega
  | some x =>
    obtain ⟨hx, hmax⟩ := pageOf_last hlast
    have hle := le_highest (mem_pageOf.mp hx).1
    have hasked := (mem_pageOf.mp hx).2
    have hhigh : highest s.server sim ≤ x.bucketVirtualS := by
      rcases highest_reached s.server sim with hh | ⟨y, hy, hh⟩
      · omega
      · have := hmax y (mem_pageOf.mpr ⟨hy, by omega⟩)
        omega
    simp only [Option.map_some, Option.getD_some]
    omega

theorem poll_tracks (hs : Tracks sim s) : Tracks sim (next sim s .poll) := by
  have hbuckets := poll_buckets hs
  refine ⟨hs.served, hs.nonneg, poll_cursor hs, ?_, highest_reached _ _, ?_, ?_, ?_⟩
  · rcases highest_reached s.server sim with h | ⟨x, hx, h⟩
    · exact h.ge
    · have := hs.nonneg x hx
      change -1 ≤ highest s.server sim
      omega
  · change (poll s.server sim s.client).buckets.Pairwise _
    rw [hbuckets]
    exact tableOf_strict
  · intro b hb
    change b ∈ (poll s.server sim s.client).buckets at hb
    rw [hbuckets] at hb
    exact ⟨b, hb, rfl⟩
  · intro b _
    change b ∈ (poll s.server sim s.client).buckets ↔ _
    rw [hbuckets]
    exact Iff.rfl

theorem initial_tracks (h : Initial sim s) : Tracks sim s := by
  obtain ⟨hc, hm, hserved, hnonneg⟩ := h
  have hrows : ∀ b ∈ tableOf s.server sim, 0 ≤ b.bucketVirtualS := by
    intro b hb
    obtain ⟨m, hm, hs, name, -, rfl⟩ := mem_tableOf.mp hb
    exact hnonneg m hm hs
  refine ⟨hserved, hrows, by rw [hc, hm], hm.ge, Or.inl hm, by rw [hc]; exact .nil, ?_, ?_⟩
  · intro b hb
    rw [hc] at hb
    cases hb
  · intro b hb
    rw [hm] at hb
    rw [hc]
    constructor
    · exact fun h => by cases h
    · intro h
      have := hrows b h
      have hoverlap : CURSOR_OVERLAP = 2 := rfl
      omega

theorem step_tracks (hs : Tracks sim s) (h : (system sim).step s e t) : Tracks sim t := by
  obtain ⟨he, rfl⟩ := h
  cases e with
  | write m => exact write_tracks hs he
  | poll => exact poll_tracks hs
  | failedPoll => exact hs

theorem reachable_tracks (h : (system sim).Reachable s) : Tracks sim s :=
  h.invariant (fun _ h => initial_tracks h) fun _ _ _ _ hs h => step_tracks hs h

theorem poll_empty (hs : Tracks sim s) (h : pageOf s.server sim s.since = []) :
    poll s.server sim s.client = s.client := by
  have hsince : s.since ≤ s.client.cursor := by
    have hstart := hs.from_start
    have hoverlap : CURSOR_OVERLAP = 2 := rfl
    rw [State.since, hs.position]
    omega
  rw [poll_served hs.served, h]
  simp only [List.getLast?_nil, Option.map_none, Option.getD_none, max_eq_left hsince]
  rfl

theorem cursor_monotone (hs : Tracks sim s) (h : (system sim).step s e t) :
    s.client.cursor ≤ t.client.cursor := by
  obtain ⟨-, rfl⟩ := h
  cases e with
  | poll =>
    change _ ≤ (poll s.server sim s.client).cursor
    rw [poll_served hs.served]
    exact le_max_left _ _
  | write m => exact le_rfl
  | failedPoll => exact le_rfl

/-- After every poll the buffer is the table, in order and with one entry for each key, whatever
was inserted and revised between the polls. The cursor only advances, and an empty page changes
nothing. -/
theorem buffer_converges (hr : (system sim).Reachable s) (h : (system sim).step s e t) :
    s.client.cursor ≤ t.client.cursor ∧
      (e = .poll →
        (t.client.buckets.Pairwise fun a b => place a < place b) ∧
        (t.client.buckets.map keyOf).Nodup ∧
        (∀ b, b ∈ t.client.buckets ↔ ∃ m ∈ t.server.metrics, m.simulationId = sim ∧
          ∃ name, nameOf t.server.consumers m.consumerId = some name ∧ b = bucketOf m name) ∧
        ∃ page, readMetrics s.server sim (max (-1) (s.client.cursor - CURSOR_OVERLAP)) = some page ∧
          (page.buckets = [] → t.client = s.client)) := by
  have hs := reachable_tracks hr
  refine ⟨cursor_monotone hs h, ?_⟩
  rintro rfl
  obtain ⟨-, rfl⟩ := h
  have hbuckets : (next sim s .poll).client.buckets = tableOf s.server sim := poll_buckets hs
  refine ⟨?_, ?_, fun b => ?_, ⟨_, if_pos hs.served, poll_empty hs⟩⟩
  · rw [hbuckets]
    exact tableOf_strict
  · rw [hbuckets]
    exact nodup_keyOf.mpr (nodup_of_strict tableOf_strict)
  · rw [hbuckets]
    exact mem_tableOf

end Runs

section Revision

def first : MetricsSnapshot := ⟨7, 1, 4, 9, 2, 1, 3, 1, 0, 0, 0⟩

def revised : MetricsSnapshot := { first with attempts := 4 }

def opened : State where
  server :=
    { simulations := [7]
      consumers := [(1, "crm")]
      metrics := [first]
      metrics_key := by decide
      consumer_exists := by decide }
  client := {}
  mark := -1

theorem buffer_converges_revision :
    let s := next 7 (next 7 opened .poll) (.write revised)
    let t := next 7 s .poll
    s.client = ⟨4, [bucketOf first "crm"]⟩ ∧ t.client = ⟨4, [bucketOf revised "crm"]⟩ ∧
      (t.client.buckets.map keyOf).Nodup := by
  have h₀ : (system 7).Reachable opened := .initial ⟨rfl, rfl, by decide, by decide⟩
  have h₁ : (system 7).Reachable (next 7 opened .poll) := h₀.tail (e := .poll) ⟨trivial, rfl⟩
  have h₂ : (system 7).Reachable (next 7 (next 7 opened .poll) (.write revised)) :=
    h₁.tail (e := .write revised) ⟨by decide, rfl⟩
  exact ⟨by decide, by decide, ((buffer_converges h₂ (e := .poll) ⟨trivial, rfl⟩).2 rfl).2.1⟩

end Revision

end MetricsFeed
