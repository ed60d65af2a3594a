import Capacitor.Loading

/-!
# Aggregates and their parts in memory

`increment`, `setNodeCount` and `incrementMetric` keep an aggregate beside the counts of the single
nodes, and change both by the same amount. A composite key determines its family, key and node as
soon as node identifiers have no colon, whatever colons the key has. The names of the aggregates are
less careful: a counter is aggregated under its bare key, and a metric under its key behind `m:c:`
or `m:s:`, so that a counter may take the name of a metric's aggregate.
-/

namespace Capacitor

open Store

variable {V : Type*}

/-- A name under which the aggregate of a metric may be kept. -/
def MetricName (key : GoString) : Prop := bytes "m:c:" <+: key ∨ bytes "m:s:" <+: key

instance (key : GoString) : Decidable (MetricName key) := inferInstanceAs (Decidable (_ ∨ _))

namespace CountKind

/-- A family aggregates a key under a name that no other family uses. -/
def Names (kind : CountKind) (key : GoString) : Prop := kind = counter → ¬ MetricName key

theorem names_of_ne {kind : CountKind} (hkind : kind ≠ counter) (key : GoString) :
    kind.Names key :=
  fun heq => absurd heq hkind

def part (kind : CountKind) (key nodeID : GoString) : Fin numShards × GoString :=
  (shardIndex key, kind.key key nodeID)

def whole (kind : CountKind) (key : GoString) : Fin numShards × GoString :=
  (shardIndex key, kind.aggregateTag ++ key)

theorem part_ne {kind kind' : CountKind} (hkind : kind ≠ kind') (k n k' n' : GoString) :
    kind.part k n ≠ kind'.part k' n' := by
  intro h
  have hrecord := congrArg (fun p => recordKind p.2) h
  simp only [part, recordKind_key] at hrecord
  exact hkind (RecordKind.count.inj hrecord)

theorem part_inj {kind kind' : CountKind} {k k' n n' : GoString} (hn : colon ∉ n)
    (hn' : colon ∉ n') : kind.part k n = kind'.part k' n' ↔ kind = kind' ∧ k = k' ∧ n = n' := by
  constructor
  · intro h
    have hkey : kind.key k n = kind'.key k' n' := congrArg Prod.snd h
    have hkind := congrArg recordKind hkey
    rw [recordKind_key, recordKind_key] at hkind
    obtain rfl := RecordKind.count.inj hkind
    exact ⟨rfl, compositeKey_inj hn hn' hkey⟩
  · rintro ⟨rfl, rfl, rfl⟩
    rfl

theorem metricName_of_eq {kind : CountKind} (hkind : kind ≠ counter) {k key : GoString}
    (h : k = kind.aggregateTag ++ key) : MetricName k := by
  subst h
  cases kind with
  | counter => exact absurd rfl hkind
  | metricCount => exact Or.inl (List.prefix_append _ _)
  | metricSum => exact Or.inr (List.prefix_append _ _)

theorem aggregateTag_append_ne (k k' : GoString) :
    metricCount.aggregateTag ++ k ≠ metricSum.aggregateTag ++ k' := by
  intro h
  have htags : metricCount.aggregateTag = [109, 58, 99, 58] ∧
      metricSum.aggregateTag = [109, 58, 115, 58] := by decide
  rw [htags.1, htags.2] at h
  have hbyte := congrArg (fun name => name[2]?) h
  simp at hbyte

theorem whole_inj {kind kind' : CountKind} {k k' : GoString} (h : kind.Names k)
    (h' : kind'.Names k') : kind.whole k = kind'.whole k' ↔ kind = kind' ∧ k = k' := by
  constructor
  · intro heq
    have hname : kind.aggregateTag ++ k = kind'.aggregateTag ++ k' := congrArg Prod.snd heq
    by_cases hkind : kind = kind'
    · subst hkind
      exact ⟨rfl, List.append_cancel_left hname⟩
    · exfalso
      cases kind with
      | counter => exact h rfl (metricName_of_eq (Ne.symm hkind) hname)
      | metricCount =>
          cases kind' with
          | counter => exact h' rfl (metricName_of_eq hkind hname.symm)
          | metricCount => exact hkind rfl
          | metricSum => exact aggregateTag_append_ne k k' hname
      | metricSum =>
          cases kind' with
          | counter => exact h' rfl (metricName_of_eq hkind hname.symm)
          | metricCount => exact aggregateTag_append_ne k' k hname.symm
          | metricSum => exact hkind rfl
  · rintro ⟨rfl, rfl⟩
    rfl

end CountKind

theorem getNodeCount_incrementMetric (s : Store V) (k n k' n' : GoString) (delta : ℚ) :
    (s.incrementMetric k n delta).1.getNodeCount k' n' = s.getNodeCount k' n' := by
  have hcount : countSlot k' n' ≠ (shardIndex k, metricCountKey k n) :=
    CountKind.part_ne (show CountKind.counter ≠ .metricCount by decide) k' n' k n
  have hsum : countSlot k' n' ≠ (shardIndex k, metricSumKey k n) :=
    CountKind.part_ne (show CountKind.counter ≠ .metricSum by decide) k' n' k n
  rw [getNodeCount_eq, replicated_incrementMetric, Replicated.counts_add_getD,
    Replicated.counts_add_getD, if_neg hcount, if_neg hsum, add_zero, add_zero]
  rfl

/-- Every aggregate is the sum of the counts of the nodes `N`, and the counts of calls are whole
numbers. -/
structure PartsSum (N : Finset GoString) (R : Replicated V) : Prop where
  sum : ∀ (kind : CountKind) (key : GoString), kind.Names key →
    (R.aggregateCounts (kind.whole key)).getD 0 = ∑ n ∈ N, (R.counts (kind.part key n)).getD 0
  calls : ∀ key, ∃ z : ℤ, (R.aggregateCounts (CountKind.metricCount.whole key)).getD 0 = z

namespace PartsSum

variable {N : Finset GoString} {R R' : Replicated V}

theorem newStore : PartsSum N (Store.newStore : Store V).replicated where
  sum _ _ _ := by simp [Store.replicated, flatten, Store.newStore, newStoreShard]
  calls _ := ⟨0, rfl⟩

theorem bump (hN : ∀ n ∈ N, colon ∉ n) (h : PartsSum N R) {kind : CountKind} {key nodeID : GoString}
    (hkey : kind.Names key) (hnode : nodeID ∈ N) {d : ℚ}
    (hd : kind = .metricCount → ∃ z : ℤ, d = z)
    (hcounts : ∀ p, (R'.counts p).getD 0 =
      (R.counts p).getD 0 + if p = kind.part key nodeID then d else 0)
    (htotals : ∀ p, (R'.aggregateCounts p).getD 0 =
      (R.aggregateCounts p).getD 0 + if p = kind.whole key then d else 0) : PartsSum N R' := by
  constructor
  · intro kind' key' hkey'
    rw [htotals, h.sum kind' key' hkey']
    simp only [hcounts, Finset.sum_add_distrib, add_right_inj]
    by_cases hsame : kind' = kind ∧ key' = key
    · obtain ⟨rfl, rfl⟩ := hsame
      have hpart (n : GoString) (hn : n ∈ N) :
          (kind'.part key' n = kind'.part key' nodeID) ↔ n = nodeID := by
        rw [CountKind.part_inj (hN n hn) (hN nodeID hnode)]
        simp
      rw [if_pos rfl, Finset.sum_congr rfl (fun n hn => if_congr (hpart n hn) rfl rfl)]
      simp [hnode]
    · have hwhole : kind'.whole key' ≠ kind.whole key :=
        fun heq => hsame ((CountKind.whole_inj hkey' hkey).1 heq)
      rw [if_neg hwhole]
      symm
      apply Finset.sum_eq_zero
      intro n hn
      apply if_neg
      intro heq
      obtain ⟨hkind, hname, -⟩ := (CountKind.part_inj (hN n hn) (hN nodeID hnode)).1 heq
      exact hsame ⟨hkind, hname⟩
  · intro key'
    obtain ⟨z, hz⟩ := h.calls key'
    rw [htotals, hz]
    split_ifs with hwhole
    · obtain ⟨hkind, -⟩ := (CountKind.whole_inj (CountKind.names_of_ne (by decide) key') hkey).1
        hwhole
      obtain ⟨w, rfl⟩ := hd hkind.symm
      exact ⟨z + w, by push_cast; rfl⟩
    · exact ⟨z, add_zero _⟩

theorem add (hN : ∀ n ∈ N, colon ∉ n) (h : PartsSum N R) {kind : CountKind} {key nodeID : GoString}
    (hkey : kind.Names key) (hnode : nodeID ∈ N) {d : ℚ}
    (hd : kind = .metricCount → ∃ z : ℤ, d = z) :
    PartsSum N (R.add (kind.part key nodeID) (kind.whole key) d) :=
  h.bump hN hkey hnode hd (fun p => R.counts_add_getD _ _ p d)
    (fun p => R.aggregateCounts_add_getD _ _ p d)

theorem raise (hN : ∀ n ∈ N, colon ∉ n) (h : PartsSum N R) {key nodeID : GoString}
    (hkey : CountKind.counter.Names key) (hnode : nodeID ∈ N) (val : ℚ) :
    PartsSum N (R.raise (CountKind.counter.part key nodeID) (CountKind.counter.whole key) val) := by
  refine h.bump hN hkey hnode (fun heq => by cases heq) ?_
    (fun p => R.aggregateCounts_raise_getD _ _ p val)
  intro p
  rw [R.counts_raise_getD]
  split_ifs with hp
  · subst hp
    rw [add_sub_cancel]
  · rw [add_zero]

end PartsSum

/-- The calls that count, on behalf of the nodes `N`. -/
def StoreOp.Counting (N : Finset GoString) : StoreOp V → Prop
  | .increment key nodeID _ => ¬ MetricName key ∧ nodeID ∈ N
  | .setNodeCount key nodeID _ => ¬ MetricName key ∧ nodeID ∈ N
  | .incrementMetric _ nodeID _ => nodeID ∈ N
  | _ => False

theorem StoreOp.partsSum {N : Finset GoString} (hN : ∀ n ∈ N, colon ∉ n) {s : Store V}
    (h : PartsSum N s.replicated) {o : StoreOp V} (ho : o.Counting N) :
    PartsSum N (o.apply s).replicated := by
  cases o with
  | increment key nodeID delta =>
      have hadd := h.add (d := delta) hN (fun _ => ho.1 : CountKind.counter.Names key) ho.2
        (fun heq => by cases heq)
      change PartsSum N (s.increment key nodeID delta).1.replicated
      rw [replicated_increment]
      exact hadd
  | setNodeCount key nodeID val =>
      have hraise := h.raise hN (fun _ => ho.1 : CountKind.counter.Names key) ho.2 val
      change PartsSum N (s.setNodeCount key nodeID val).replicated
      rw [replicated_setNodeCount]
      exact hraise
  | incrementMetric key nodeID delta =>
      have hcount := h.add (d := 1) hN
        (CountKind.names_of_ne (by decide : CountKind.metricCount ≠ .counter) key) ho
        (fun _ => ⟨1, by simp⟩)
      have hsum := hcount.add (d := delta) hN
        (CountKind.names_of_ne (by decide : CountKind.metricSum ≠ .counter) key) ho
        (fun heq => by cases heq)
      change PartsSum N (s.incrementMetric key nodeID delta).1.replicated
      rw [replicated_incrementMetric]
      exact hsum
  | _ => exact absurd ho not_false

theorem truncate_intCast (z : ℤ) : truncate (z : ℚ) = z := by simp [truncate]

/-- The aggregate of a counter is the sum of the counts of all nodes for every key that is not the
name of a metric's aggregate, and both parts of a metric are the sums of theirs for every key. -/
theorem aggregates_eq_sum_of_parts {N : Finset GoString} (hN : ∀ n ∈ N, colon ∉ n)
    {ops : List (StoreOp V)} (hops : ∀ o ∈ ops, o.Counting N) (k : GoString) :
    let s := ops.foldl StoreOp.apply Store.newStore
    (¬ MetricName k →
        ((s.getShard k).aggregateCounts k).getD 0 =
          ∑ n ∈ N, ((s.getShard k).counts (counterKey k n)).getD 0) ∧
      ((s.getAggregateMetric k).count : ℚ) =
        ∑ n ∈ N, ((s.getShard k).counts (metricCountKey k n)).getD 0 ∧
      (s.getAggregateMetric k).sum =
        ∑ n ∈ N, ((s.getShard k).counts (metricSumKey k n)).getD 0 := by
  intro s
  have hinv : PartsSum N s.replicated := by
    refine List.foldlRecOn (motive := fun t : Store V => PartsSum N t.replicated) ops _
      PartsSum.newStore ?_
    intro t ht o ho
    exact StoreOp.partsSum hN ht (hops o ho)
  refine ⟨fun hk => hinv.sum .counter k (fun _ => hk), ?_, ?_⟩
  · obtain ⟨z, hz⟩ := hinv.calls k
    have hcount : (s.getAggregateMetric k).count = z := by
      rw [getAggregateMetric_eq]
      exact (congrArg truncate hz).trans (truncate_intCast z)
    rw [hcount, ← hz]
    exact hinv.sum .metricCount k (CountKind.names_of_ne (by decide) k)
  · exact hinv.sum .metricSum k (CountKind.names_of_ne (by decide) k)

theorem aggregates_eq_sum_of_parts_twoNodes :
    let s := [StoreOp.increment (bytes "a:b") (bytes "n") 3,
      .setNodeCount (bytes "a:b") (bytes "p") 4, .increment (bytes "a:b") (bytes "n") (-1),
      .incrementMetric (bytes "a:b") (bytes "p") 7].foldl StoreOp.apply
        (Store.newStore : Store UInt8)
    ((s.getShard (bytes "a:b")).aggregateCounts (bytes "a:b")).getD 0 =
      ∑ n ∈ {bytes "n", bytes "p"},
        ((s.getShard (bytes "a:b")).counts (counterKey (bytes "a:b") n)).getD 0 :=
  (aggregates_eq_sum_of_parts (N := {bytes "n", bytes "p"}) (by decide)
    (by
      intro o ho
      fin_cases ho <;> simp [StoreOp.Counting] <;> decide) (bytes "a:b")).1 (by decide)

/-- The count of the metric `c` is read as the aggregate of a counter that no call has touched. -/
theorem metric_read_as_counter :
    let s := ((Store.newStore : Store UInt8).incrementMetric (bytes "c") (bytes "n") 5).1
    s.getAggregateCount (bytes "m:c:c") = 1 ∧ ∀ n, s.getNodeCount (bytes "m:c:c") n = 0 := by
  refine ⟨by decide +kernel, ?_⟩
  intro n
  rw [getNodeCount_incrementMetric]
  rfl

end Capacitor
