import Capacitor.Aggregates

/-!
# Counters and metrics that share a name

Counters and metrics keep their aggregates in one map and their partial counts in another, under
names made of the key. A call on one key leaves the reads of another key alone as long as the two
keys have no name in common. There are three ways in which they can have one: the first key is the
name of an aggregate of the second as a metric, or the other way round, or two pairs of a key and a
node that has a colon are joined to the same composite key.
-/

namespace Capacitor

open Store

variable {V : Type*} {k₁ k₂ n₁ n₂ : GoString}

/-- No counter or metric call on `k₁` changes what is read for `k₂`, except for the calls and the
reads of one family under one key. -/
structure NonInterfering (V : Type*) (k₁ n₁ k₂ n₂ : GoString) : Prop where
  increment_metric : ∀ (s : Store V) (delta : ℚ),
    (s.increment k₁ n₁ delta).1.getAggregateMetric k₂ = s.getAggregateMetric k₂
  setNodeCount_metric : ∀ (s : Store V) (val : ℚ),
    (s.setNodeCount k₁ n₁ val).getAggregateMetric k₂ = s.getAggregateMetric k₂
  increment_count : k₂ ≠ k₁ → ∀ (s : Store V) (delta : ℚ),
    (s.increment k₁ n₁ delta).1.getAggregateCount k₂ = s.getAggregateCount k₂ ∧
      (s.increment k₁ n₁ delta).1.getNodeCount k₂ n₂ = s.getNodeCount k₂ n₂
  setNodeCount_count : k₂ ≠ k₁ → ∀ (s : Store V) (val : ℚ),
    (s.setNodeCount k₁ n₁ val).getAggregateCount k₂ = s.getAggregateCount k₂ ∧
      (s.setNodeCount k₁ n₁ val).getNodeCount k₂ n₂ = s.getNodeCount k₂ n₂
  incrementMetric_count : ∀ (s : Store V) (delta : ℚ),
    (s.incrementMetric k₁ n₁ delta).1.getAggregateCount k₂ = s.getAggregateCount k₂ ∧
      (s.incrementMetric k₁ n₁ delta).1.getNodeCount k₂ n₂ = s.getNodeCount k₂ n₂
  incrementMetric_metric : k₂ ≠ k₁ → ∀ (s : Store V) (delta : ℚ),
    (s.incrementMetric k₁ n₁ delta).1.getAggregateMetric k₂ = s.getAggregateMetric k₂

/-- The counter `k` is aggregated where the metric `m` has its count or its sum. -/
def NamesMetric (k m : GoString) : Prop :=
  CountKind.counter.whole k = CountKind.metricCount.whole m ∨
    CountKind.counter.whole k = CountKind.metricSum.whole m

instance (k m : GoString) : Decidable (NamesMetric k m) := inferInstanceAs (Decidable (_ ∨ _))

theorem whole_eq_iff {k m tag : GoString} (htag : shardIndex (bytes "m:" ++ (tag ++ colon :: m)) =
      shardIndex tag) :
    (shardIndex k, k) = (shardIndex m, bytes "m:" ++ (tag ++ colon :: m)) ↔
      k = bytes "m:" ++ (tag ++ colon :: m) ∧ shardIndex m = shardIndex tag := by
  rw [Prod.mk.injEq]
  constructor
  · rintro ⟨hshard, rfl⟩
    exact ⟨rfl, hshard.symm.trans htag⟩
  · rintro ⟨rfl, hshard⟩
    exact ⟨htag.trans hshard.symm, rfl⟩

/-- A counter has the name of a metric's aggregate if its key is that name, and the metric is kept
in the shard that this key is routed to. -/
theorem namesMetric_iff (k m : GoString) : NamesMetric k m ↔
    (k = bytes "m:c:" ++ m ∧ shardIndex m = shardIndex (bytes "c")) ∨
      (k = bytes "m:s:" ++ m ∧ shardIndex m = shardIndex (bytes "s")) := by
  have hroute {tag : GoString} (htag : colon ∉ tag) :
      shardIndex (bytes "m:" ++ (tag ++ colon :: m)) = shardIndex tag :=
    shardIndex_append_colon (a := bytes "m") (by decide) htag m
  have hcount := hroute (show colon ∉ bytes "c" by decide)
  have hsum := hroute (show colon ∉ bytes "s" by decide)
  exact or_congr (whole_eq_iff hcount) (whole_eq_iff hsum)

/-- The calls on the first key and the reads of the second use no common name, the reads of the same
counter apart. -/
structure NamedApart (k₁ n₁ k₂ n₂ : GoString) : Prop where
  metric : ¬ NamesMetric k₁ k₂
  counter : ¬ NamesMetric k₂ k₁
  node : k₂ ≠ k₁ → countSlot k₂ n₂ ≠ countSlot k₁ n₁

namespace Store

def total (s : Store V) (kind : CountKind) (key : GoString) : ℚ :=
  (s.replicated.aggregateCounts (kind.whole key)).getD 0

theorem getAggregateCount_eq_total (s : Store V) (key : GoString) :
    s.getAggregateCount key = s.total .counter key := rfl

theorem getAggregateMetric_eq_total (s : Store V) (key : GoString) :
    s.getAggregateMetric key =
      ⟨truncate (s.total .metricCount key), s.total .metricSum key⟩ := rfl

theorem total_increment (s : Store V) (k n : GoString) (delta : ℚ) (kind : CountKind)
    (key : GoString) :
    (s.increment k n delta).1.total kind key =
      s.total kind key + if kind.whole key = CountKind.counter.whole k then delta else 0 := by
  unfold total
  rw [replicated_increment]
  exact s.replicated.aggregateCounts_add_getD _ _ _ _

theorem total_setNodeCount (s : Store V) (k n : GoString) (val : ℚ) (kind : CountKind)
    (key : GoString) :
    (s.setNodeCount k n val).total kind key = s.total kind key +
      if kind.whole key = CountKind.counter.whole k then
        max (s.getNodeCount k n) val - s.getNodeCount k n else 0 := by
  unfold total
  rw [replicated_setNodeCount]
  exact s.replicated.aggregateCounts_raise_getD _ _ _ _

theorem total_incrementMetric (s : Store V) (k n : GoString) (delta : ℚ) (kind : CountKind)
    (key : GoString) :
    (s.incrementMetric k n delta).1.total kind key = s.total kind key +
      (if kind.whole key = CountKind.metricCount.whole k then 1 else 0) +
      (if kind.whole key = CountKind.metricSum.whole k then delta else 0) := by
  unfold total
  rw [replicated_incrementMetric, Replicated.aggregateCounts_add_getD,
    Replicated.aggregateCounts_add_getD]
  rfl

theorem getNodeCount_setNodeCount (s : Store V) (k n k' n' : GoString) (val : ℚ) :
    (s.setNodeCount k n val).getNodeCount k' n' =
      if countSlot k' n' = countSlot k n then max (s.getNodeCount k' n') val
      else s.getNodeCount k' n' := by
  rw [getNodeCount_eq, replicated_setNodeCount]
  exact s.replicated.counts_raise_getD _ _ _ _

end Store

theorem metric_unchanged {s t : Store V} {key : GoString}
    (h : ∀ kind, kind ≠ CountKind.counter → t.total kind key = s.total kind key) :
    t.getAggregateMetric key = s.getAggregateMetric key := by
  rw [getAggregateMetric_eq_total, getAggregateMetric_eq_total, h .metricCount (by decide),
    h .metricSum (by decide)]

theorem NamedApart.whole_ne (h : NamedApart k₁ n₁ k₂ n₂) {kind : CountKind}
    (hkind : kind ≠ .counter) : kind.whole k₂ ≠ CountKind.counter.whole k₁ := by
  intro heq
  cases kind with
  | counter => exact hkind rfl
  | metricCount => exact h.metric (Or.inl heq.symm)
  | metricSum => exact h.metric (Or.inr heq.symm)

theorem NamedApart.nonInterfering (h : NamedApart k₁ n₁ k₂ n₂) :
    NonInterfering V k₁ n₁ k₂ n₂ where
  increment_metric s delta := metric_unchanged (fun kind hkind => by
    rw [total_increment, if_neg (h.whole_ne hkind), add_zero])
  setNodeCount_metric s val := metric_unchanged (fun kind hkind => by
    rw [total_setNodeCount, if_neg (h.whole_ne hkind), add_zero])
  increment_count hne s delta := by
    rw [getAggregateCount_increment, getNodeCount_increment, if_neg hne, if_neg (h.node hne)]
    exact ⟨add_zero _, add_zero _⟩
  setNodeCount_count hne s val := by
    have hwhole : CountKind.counter.whole k₂ ≠ CountKind.counter.whole k₁ :=
      fun heq => hne (slot_injective heq)
    rw [getAggregateCount_eq_total, total_setNodeCount, if_neg hwhole, getNodeCount_setNodeCount,
      if_neg (h.node hne)]
    exact ⟨add_zero _, rfl⟩
  incrementMetric_count s delta := by
    have hcount : CountKind.counter.whole k₂ ≠ CountKind.metricCount.whole k₁ :=
      fun heq => h.counter (Or.inl heq)
    have hsum : CountKind.counter.whole k₂ ≠ CountKind.metricSum.whole k₁ :=
      fun heq => h.counter (Or.inr heq)
    rw [getAggregateCount_eq_total, total_incrementMetric, if_neg hcount, if_neg hsum, add_zero,
      add_zero]
    exact ⟨rfl, getNodeCount_incrementMetric s k₁ n₁ k₂ n₂ delta⟩
  incrementMetric_metric hne s delta := metric_unchanged (fun kind hkind => by
    have hwhole {kind' : CountKind} (hkind' : kind' ≠ .counter) : kind.whole k₂ ≠ kind'.whole k₁ :=
      fun heq => hne ((CountKind.whole_inj (CountKind.names_of_ne hkind k₂)
        (CountKind.names_of_ne hkind' k₁)).1 heq).2
    rw [total_incrementMetric, if_neg (hwhole (by decide)), if_neg (hwhole (by decide)), add_zero,
      add_zero])

theorem total_newStore (kind : CountKind) (key : GoString) :
    (newStore : Store V).total kind key = 0 := rfl

theorem getNodeCount_newStore (key nodeID : GoString) :
    (newStore : Store V).getNodeCount key nodeID = 0 := rfl

theorem NamesMetric.increment_ne (h : NamesMetric k₁ k₂) :
    ((newStore : Store V).increment k₁ n₁ 1).1.getAggregateMetric k₂ ≠
      (newStore : Store V).getAggregateMetric k₂ := by
  intro heq
  rw [getAggregateMetric_eq_total, getAggregateMetric_eq_total, Metric.mk.injEq, total_increment,
    total_increment, total_newStore, total_newStore] at heq
  rcases h with h | h
  · rw [if_pos h.symm] at heq
    exact absurd heq.1 (by simp [truncate])
  · rw [if_pos h.symm] at heq
    exact absurd heq.2 (by norm_num)

theorem NamesMetric.incrementMetric_ne (h : NamesMetric k₂ k₁) :
    ((newStore : Store V).incrementMetric k₁ n₁ 1).1.getAggregateCount k₂ ≠
      (newStore : Store V).getAggregateCount k₂ := by
  intro heq
  rw [getAggregateCount_eq_total, getAggregateCount_eq_total, total_incrementMetric,
    total_newStore] at heq
  rcases h with h | h
  · rw [if_pos h] at heq
    split_ifs at heq <;> norm_num at heq
  · rw [if_pos h] at heq
    split_ifs at heq <;> norm_num at heq

theorem NonInterfering.namedApart (h : NonInterfering V k₁ n₁ k₂ n₂) :
    NamedApart k₁ n₁ k₂ n₂ where
  metric hnames := hnames.increment_ne (h.increment_metric newStore 1)
  counter hnames := hnames.incrementMetric_ne (h.incrementMetric_count newStore 1).1
  node hne hslot := by
    have hcount := (h.increment_count hne newStore 1).2
    rw [getNodeCount_increment, if_pos hslot, getNodeCount_newStore] at hcount
    exact absurd hcount (by norm_num)

/-- No call on a counter or metric shows in the reads of the others, in any state of the store,
exactly if the keys and nodes are named apart. -/
theorem nonInterfering_iff (V : Type*) (k₁ n₁ k₂ n₂ : GoString) :
    NonInterfering V k₁ n₁ k₂ n₂ ↔ NamedApart k₁ n₁ k₂ n₂ :=
  ⟨NonInterfering.namedApart, NamedApart.nonInterfering⟩

/-- An increment of the counter `m:c:c` is read as a call of the metric `c`, a call of that metric
as an increment of that counter, and an increment of `a:a` by node `n` as one of `a` by node
`a:n`. -/
theorem shared_names_interfere :
    ((newStore : Store UInt8).increment (bytes "m:c:c") (bytes "n") 1).1.getAggregateMetric
        (bytes "c") = ⟨1, 0⟩ ∧
      ((newStore : Store UInt8).incrementMetric (bytes "c") (bytes "n") 5).1.getAggregateCount
        (bytes "m:c:c") = 1 ∧
      ((newStore : Store UInt8).increment (bytes "a:a") (bytes "n") 1).1.getNodeCount (bytes "a")
        (bytes "a:n") = 1 := by
  decide +kernel

end Capacitor
