import Capacitor.LastWriter
import Capacitor.Store

/-!
# What the store operations change

The maps of all shards are read as single maps, on pairs of a shard and a key, so that an equation
between them also says that no key strays into another shard. `Replicated` collects the four maps
that replication is meant to bring into agreement, and there is one lemma for each operation of the
store that gives its effect on them.
-/

namespace Capacitor

variable {V : Type*}

namespace Store

/-- One map of every shard, read as a single map over all shards. -/
def flatten {α : Type*} (view : StoreShard V → GoString → α) (s : Store V) :
    Fin numShards × GoString → α := fun p => view (s.shards p.1) p.2

/-- An update of one entry in one shard is an update of one entry of the whole. -/
theorem flatten_update {α : Type*} (view : StoreShard V → GoString → α) (s : Store V)
    (key : GoString) (f : StoreShard V → StoreShard V) (k : GoString) (v : α)
    (hf : view (f (s.getShard key)) = Function.update (view (s.getShard key)) k v) :
    flatten view (s.modifyShard key f) =
      Function.update (flatten view s) (shardIndex key, k) v := by
  funext p
  obtain ⟨i, j⟩ := p
  simp only [flatten, shards_modifyShard]
  by_cases hi : i = shardIndex key
  · subst i
    rw [if_pos rfl]
    change view (f (s.getShard key)) j = _
    rw [hf]
    by_cases hj : j = k
    · subst j
      rw [Function.update_self, Function.update_self]
    · have hne : (shardIndex key, j) ≠ (shardIndex key, k) := fun h => hj (congrArg Prod.snd h)
      rw [Function.update_of_ne hj, Function.update_of_ne hne]
      rfl
  · have hne : (i, j) ≠ (shardIndex key, k) := fun h => hi (congrArg Prod.fst h)
    rw [if_neg hi, Function.update_of_ne hne]
    rfl

theorem flatten_frame {α : Type*} (view : StoreShard V → GoString → α) (s : Store V)
    (key : GoString) (f : StoreShard V → StoreShard V)
    (hf : ∀ shard, view (f shard) = view shard) :
    flatten view (s.modifyShard key f) = flatten view s := by
  funext p
  simp only [flatten, shards_modifyShard]
  split_ifs
  · rw [hf]
  · rfl

end Store

/-- The four maps of the store that replication is meant to bring into agreement. -/
@[ext] structure Replicated (V : Type*) where
  cache : Fin numShards × GoString → Option (ValWithTS V)
  counts : Fin numShards × GoString → Option ℚ
  aggregateCounts : Fin numShards × GoString → Option ℚ
  windows : Fin numShards × GoString → Option (List Int64)

namespace Replicated

def put (R : Replicated V) (p : Fin numShards × GoString) (e : ValWithTS V) : Replicated V :=
  { R with cache := LastWriter.write ValWithTS.timestamp R.cache p e }

def add [Rounding] (R : Replicated V) (c a : Fin numShards × GoString) (d : ℚ) : Replicated V :=
  { R with
    counts := addTo R.counts c d
    aggregateCounts := addTo R.aggregateCounts a d }

/-- A partial count is raised to `val` and its aggregate follows; it is never lowered. -/
def raise [Rounding] (R : Replicated V) (c a : Fin numShards × GoString) (val : ℚ) :
    Replicated V :=
  if (R.counts c).getD 0 < val then
    { R with
      counts := Function.update R.counts c (some val)
      aggregateCounts := addTo R.aggregateCounts a
        (Rounding.round (val - (R.counts c).getD 0)) }
  else R

def insertWindow (R : Replicated V) (p : Fin numShards × GoString) (ts : Int64) : Replicated V :=
  match windowIndex ts ((R.windows p).getD []) with
  | none => R
  | some idx =>
      { R with
        windows := Function.update R.windows p
          (some (((R.windows p).getD []).take idx ++ ts :: ((R.windows p).getD []).drop idx)) }

theorem counts_add_getD (R : Replicated V) (c a p : Fin numShards × GoString) (d : ℚ) :
    ((R.add c a d).counts p).getD 0 = (R.counts p).getD 0 + if p = c then d else 0 := by
  unfold add addTo
  by_cases hp : p = c
  · subst p
    simp only [Function.update_self, Option.getD_some, if_pos, Rounding.round_unrounded]
  · simp only [Function.update_of_ne hp, if_neg hp, add_zero]

theorem counts_raise_getD (R : Replicated V) (c a p : Fin numShards × GoString) (val : ℚ) :
    ((R.raise c a val).counts p).getD 0 =
      if p = c then max ((R.counts p).getD 0) val else (R.counts p).getD 0 := by
  unfold raise
  by_cases h : (R.counts c).getD 0 < val
  · rw [if_pos h]
    by_cases hp : p = c
    · subst p
      simp only [Function.update_self, Option.getD_some, if_pos, max_eq_right h.le]
    · simp only [Function.update_of_ne hp, if_neg hp]
  · rw [if_neg h]
    split_ifs with hp
    · subst p
      exact (max_eq_left (not_lt.1 h)).symm
    · rfl

theorem aggregateCounts_add_getD (R : Replicated V) (c a p : Fin numShards × GoString) (d : ℚ) :
    ((R.add c a d).aggregateCounts p).getD 0 =
      (R.aggregateCounts p).getD 0 + if p = a then d else 0 := by
  unfold add addTo
  by_cases hp : p = a
  · subst p
    simp only [Function.update_self, Option.getD_some, if_pos, Rounding.round_unrounded]
  · simp only [Function.update_of_ne hp, if_neg hp, add_zero]

theorem aggregateCounts_raise_getD (R : Replicated V) (c a p : Fin numShards × GoString) (val : ℚ) :
    ((R.raise c a val).aggregateCounts p).getD 0 = (R.aggregateCounts p).getD 0 +
      if p = a then max ((R.counts c).getD 0) val - (R.counts c).getD 0 else 0 := by
  unfold raise
  by_cases h : (R.counts c).getD 0 < val
  · rw [if_pos h, max_eq_right h.le]
    exact R.aggregateCounts_add_getD c a p _
  · rw [if_neg h, max_eq_left (not_lt.1 h), sub_self, ite_self, add_zero]

@[simp] theorem cache_raise (R : Replicated V) (c a : Fin numShards × GoString) (val : ℚ) :
    (R.raise c a val).cache = R.cache := by
  unfold raise
  split_ifs <;> rfl

@[simp] theorem windows_raise (R : Replicated V) (c a : Fin numShards × GoString) (val : ℚ) :
    (R.raise c a val).windows = R.windows := by
  unfold raise
  split_ifs <;> rfl

@[simp] theorem cache_insertWindow (R : Replicated V) (p : Fin numShards × GoString) (ts : Int64) :
    (R.insertWindow p ts).cache = R.cache := by
  unfold insertWindow
  split <;> rfl

@[simp] theorem counts_insertWindow (R : Replicated V) (p : Fin numShards × GoString)
    (ts : Int64) : (R.insertWindow p ts).counts = R.counts := by
  unfold insertWindow
  split <;> rfl

end Replicated

def Store.replicated (s : Store V) : Replicated V where
  cache := Store.flatten StoreShard.cache s
  counts := Store.flatten StoreShard.counts s
  aggregateCounts := Store.flatten StoreShard.aggregateCounts s
  windows := Store.flatten StoreShard.windows s

namespace Store

/-- Where the cache entry of a key is kept. -/
def slot (key : GoString) : Fin numShards × GoString := (shardIndex key, key)

/-- Where the partial count of a node is kept. -/
def countSlot (key nodeID : GoString) : Fin numShards × GoString :=
  (shardIndex key, counterKey key nodeID)

theorem slot_injective : Function.Injective slot := fun _ _ h => congrArg Prod.snd h

theorem countSlot_inj {k k' n n' : GoString} (hn : colon ∉ n) (hn' : colon ∉ n') :
    countSlot k n = countSlot k' n' ↔ k = k' ∧ n = n' := by
  constructor
  · intro h
    exact compositeKey_inj hn hn' (congrArg Prod.snd h)
  · rintro ⟨rfl, rfl⟩
    rfl

theorem countSlot_key_inj {k k' n : GoString} : countSlot k n = countSlot k' n ↔ k = k' := by
  constructor
  · intro h
    exact compositeKey_key_inj (congrArg Prod.snd h)
  · rintro rfl
    rfl

theorem modifyShard_modifyShard (s : Store V) (key : GoString) (f g : StoreShard V → StoreShard V) :
    (s.modifyShard key f).modifyShard key g = s.modifyShard key (fun shard => g (f shard)) := by
  have hshards (i : Fin numShards) : ((s.modifyShard key f).modifyShard key g).shards i =
      (s.modifyShard key (fun shard => g (f shard))).shards i := by
    simp only [shards_modifyShard]
    split_ifs <;> rfl
  exact congrArg Store.mk (funext hshards)

theorem put_of_dominated {shard : StoreShard V} {key : GoString} {e x : ValWithTS V}
    (hx : shard.cache key = some x) (hle : e.timestamp ≤ x.timestamp) :
    shard.put key e = shard :=
  if_pos ⟨x, hx, (Timestamp.greaterOrEqual_iff _ _).2 hle⟩

theorem put_of_not_dominated {shard : StoreShard V} {key : GoString} {e : ValWithTS V}
    (h : ¬ ∃ x ∈ shard.cache key, e.timestamp ≤ x.timestamp) :
    shard.put key e = { shard with
      cache := Function.update shard.cache key (some e)
      dirty := Function.update shard.dirty key true } := by
  apply if_neg
  rintro ⟨x, hx, hge⟩
  exact h ⟨x, hx, (Timestamp.greaterOrEqual_iff _ _).1 hge⟩

/-- The effect shared by `set` and `delete`: one write of a last-writer-wins map. -/
theorem replicated_put (s : Store V) (key : GoString) (e : ValWithTS V) :
    (s.modifyShard key (fun shard => shard.put key e)).replicated =
      s.replicated.put (slot key) e := by
  unfold Replicated.put
  by_cases h : ∃ x ∈ (s.getShard key).cache key, e.timestamp ≤ x.timestamp
  · obtain ⟨x, hx, hle⟩ := h
    have hw : LastWriter.write ValWithTS.timestamp s.replicated.cache (slot key) e =
        s.replicated.cache := LastWriter.write_of_dominated _ hx hle
    rw [hw, s.modifyShard_eq_self key _ (put_of_dominated hx hle)]
  · have hw : LastWriter.write ValWithTS.timestamp s.replicated.cache (slot key) e =
        Function.update s.replicated.cache (slot key) (some e) := if_neg h
    rw [hw]
    have hframe {α : Type _} (view : StoreShard V → GoString → α)
        (hview : ∀ shard : StoreShard V, ∀ cache dirty,
          view { shard with cache := cache, dirty := dirty } = view shard) :
        flatten view (s.modifyShard key (fun shard => shard.put key e)) = flatten view s := by
      apply flatten_frame
      intro shard
      unfold StoreShard.put
      split_ifs
      · rfl
      · exact hview _ _ _
    apply Replicated.ext
    · exact s.flatten_update StoreShard.cache key _ key (some e) (by rw [put_of_not_dominated h])
    · exact hframe StoreShard.counts (fun _ _ _ => rfl)
    · exact hframe StoreShard.aggregateCounts (fun _ _ _ => rfl)
    · exact hframe StoreShard.windows (fun _ _ _ => rfl)

theorem replicated_addCount [Rounding] (s : Store V) (key nodeKey aggKey : GoString) (d : ℚ) :
    (s.modifyShard key (fun shard => shard.addCount nodeKey aggKey d)).replicated =
      s.replicated.add (shardIndex key, nodeKey) (shardIndex key, aggKey) d := by
  apply Replicated.ext
  · exact s.flatten_frame StoreShard.cache key _ (fun _ => rfl)
  · exact s.flatten_update StoreShard.counts key _ nodeKey _ rfl
  · exact s.flatten_update StoreShard.aggregateCounts key _ aggKey _ rfl
  · exact s.flatten_frame StoreShard.windows key _ (fun _ => rfl)

theorem replicated_increment [Rounding] (s : Store V) (key nodeID : GoString) (delta : ℚ) :
    (s.increment key nodeID delta).1.replicated =
      s.replicated.add (countSlot key nodeID) (slot key) delta :=
  s.replicated_addCount key _ key delta

theorem replicated_incrementMetric [Rounding] (s : Store V) (key nodeID : GoString)
    (delta : ℚ) :
    (s.incrementMetric key nodeID delta).1.replicated =
      (s.replicated.add (shardIndex key, metricCountKey key nodeID)
          (shardIndex key, bytes "m:c:" ++ key) 1).add
        (shardIndex key, metricSumKey key nodeID) (shardIndex key, bytes "m:s:" ++ key) delta := by
  unfold incrementMetric
  dsimp only
  rw [← modifyShard_modifyShard s key
      (fun shard => shard.addCount (metricCountKey key nodeID) (bytes "m:c:" ++ key) 1)
      (fun shard => shard.addCount (metricSumKey key nodeID) (bytes "m:s:" ++ key) delta),
    replicated_addCount, replicated_addCount]

theorem getNodeCount_eq (s : Store V) (key nodeID : GoString) :
    s.getNodeCount key nodeID = (s.replicated.counts (countSlot key nodeID)).getD 0 := rfl

theorem getAggregateCount_eq (s : Store V) (key : GoString) :
    s.getAggregateCount key = (s.replicated.aggregateCounts (slot key)).getD 0 := rfl

theorem getAggregateMetric_eq (s : Store V) (key : GoString) :
    s.getAggregateMetric key =
      ⟨truncate ((s.replicated.aggregateCounts (shardIndex key, bytes "m:c:" ++ key)).getD 0),
        (s.replicated.aggregateCounts (shardIndex key, bytes "m:s:" ++ key)).getD 0⟩ := rfl

theorem getNodeCount_increment (s : Store V) (key nodeID key' nodeID' : GoString) (delta : ℚ) :
    (s.increment key nodeID delta).1.getNodeCount key' nodeID' = s.getNodeCount key' nodeID' +
      if countSlot key' nodeID' = countSlot key nodeID then delta else 0 := by
  rw [getNodeCount_eq, replicated_increment, Replicated.counts_add_getD, ← getNodeCount_eq]

theorem getAggregateCount_increment (s : Store V) (key nodeID key' : GoString) (delta : ℚ) :
    (s.increment key nodeID delta).1.getAggregateCount key' =
      s.getAggregateCount key' + if key' = key then delta else 0 := by
  rw [getAggregateCount_eq, replicated_increment, Replicated.aggregateCounts_add_getD,
    ← getAggregateCount_eq]
  simp only [slot_injective.eq_iff]

theorem cache_slot (s : Store V) (key : GoString) :
    s.replicated.cache (slot key) = (s.getShard key).cache key := rfl

theorem get_eq (s : Store V) (key : GoString) (now : Int64) :
    s.get key now =
      ((s.replicated.cache (slot key)).filter (fun e => live e now)).bind ValWithTS.value := by
  rw [get, ← cache_slot]
  cases s.replicated.cache (slot key) with
  | none => rfl
  | some e => cases h : live e now <;> simp [Option.filter, h]

theorem exists?_eq (s : Store V) (key : GoString) (now : Int64) :
    s.exists? key now =
      ((s.replicated.cache (slot key)).filter (fun e => live e now)).isSome := by
  rw [exists?, ← cache_slot]
  cases s.replicated.cache (slot key) with
  | none => rfl
  | some e => cases h : live e now <;> simp [Option.filter, h]

theorem mem_cache_pruneExpiredKeys {s : Store V} {i : Fin numShards} {now : Int64}
    {p : Fin numShards × GoString} {x : ValWithTS V}
    (h : (s.pruneExpiredKeys i now).replicated.cache p = some x) :
    s.replicated.cache p = some x := by
  obtain ⟨j, key⟩ := p
  change (Function.update s.shards i ((s.shards i).pruneExpiredKeys now) j).cache key = some x at h
  by_cases hj : j = i
  · subst j
    rw [Function.update_self] at h
    exact (Option.filter_eq_some_iff.1 h).1
  · rwa [Function.update_of_ne hj] at h

theorem getWindow_eq (s : Store V) (key : GoString) :
    s.getWindow key = (s.replicated.windows (slot key)).getD [] := rfl

theorem replicated_setNodeCount [Rounding] (s : Store V) (key nodeID : GoString) (val : ℚ) :
    (s.setNodeCount key nodeID val).replicated =
      s.replicated.raise (countSlot key nodeID) (slot key) val := by
  unfold setNodeCount Replicated.raise
  by_cases h : s.getNodeCount key nodeID < val
  · have h' : (s.replicated.counts (countSlot key nodeID)).getD 0 < val := h
    rw [if_pos h, if_pos h']
    apply Replicated.ext
    · exact s.flatten_frame StoreShard.cache key _ (fun _ => rfl)
    · exact s.flatten_update StoreShard.counts key _ (counterKey key nodeID) _ rfl
    · exact s.flatten_update StoreShard.aggregateCounts key _ key _ rfl
    · exact s.flatten_frame StoreShard.windows key _ (fun _ => rfl)
  · have h' : ¬ (s.replicated.counts (countSlot key nodeID)).getD 0 < val := h
    rw [if_neg h, if_neg h']

theorem replicated_addWindowTimestamp (s : Store V) (key : GoString) (ts : Int64) :
    (s.addWindowTimestamp key ts).replicated = s.replicated.insertWindow (slot key) ts := by
  unfold addWindowTimestamp Replicated.insertWindow
  rw [← getWindow_eq]
  cases h : windowIndex ts (s.getWindow key) with
  | none => rfl
  | some idx =>
      apply Replicated.ext
      · exact s.flatten_frame StoreShard.cache key _ (fun _ => rfl)
      · exact s.flatten_frame StoreShard.counts key _ (fun _ => rfl)
      · exact s.flatten_frame StoreShard.aggregateCounts key _ (fun _ => rfl)
      · exact s.flatten_update StoreShard.windows key _ key _ rfl

@[simp] theorem cache_incrementSlidingWindow (s : Store V) (key : GoString)
    (ts window now : Int64) :
    (s.incrementSlidingWindow key ts window now).1.replicated.cache = s.replicated.cache := by
  unfold incrementSlidingWindow
  dsimp only [replicated]
  apply flatten_frame
  intro shard
  rfl

@[simp] theorem replicated_updatePeerSeq (s : Store V) (nodeID : GoString) (seq : ℕ) :
    (s.updatePeerSeq nodeID seq).replicated = s.replicated := by
  unfold updatePeerSeq
  split_ifs
  · apply Replicated.ext
    · exact s.flatten_frame StoreShard.cache _ _ (fun _ => rfl)
    · exact s.flatten_frame StoreShard.counts _ _ (fun _ => rfl)
    · exact s.flatten_frame StoreShard.aggregateCounts _ _ (fun _ => rfl)
    · exact s.flatten_frame StoreShard.windows _ _ (fun _ => rfl)
  · rfl

/-- The last number applied of each node's log, over all shards. -/
def watermarks (s : Store V) : Fin numShards × GoString → Option ℕ :=
  flatten StoreShard.peerSeqs s

theorem getPeerSeq_eq (s : Store V) (nodeID : GoString) :
    s.getPeerSeq nodeID = (s.watermarks (shardIndex (peerSeqKey nodeID), nodeID)).getD 0 := rfl

theorem watermarks_put (s : Store V) (key : GoString) (e : ValWithTS V) :
    (s.modifyShard key (fun shard => shard.put key e)).watermarks = s.watermarks := by
  apply flatten_frame
  intro shard
  unfold StoreShard.put
  split_ifs
  · rfl
  · rfl

theorem watermarks_setNodeCount [Rounding] (s : Store V) (key nodeID : GoString) (val : ℚ) :
    (s.setNodeCount key nodeID val).watermarks = s.watermarks := by
  unfold setNodeCount
  split_ifs
  · exact s.flatten_frame StoreShard.peerSeqs key _ (fun _ => rfl)
  · rfl

theorem watermarks_incrementMetric [Rounding] (s : Store V) (key nodeID : GoString)
    (delta : ℚ) :
    (s.incrementMetric key nodeID delta).1.watermarks = s.watermarks := by
  unfold incrementMetric
  dsimp only
  apply flatten_frame
  intro shard
  rfl

theorem watermarks_addWindowTimestamp (s : Store V) (key : GoString) (ts : Int64) :
    (s.addWindowTimestamp key ts).watermarks = s.watermarks := by
  unfold addWindowTimestamp
  cases windowIndex ts (s.getWindow key) with
  | none => rfl
  | some idx => exact s.flatten_frame StoreShard.peerSeqs key _ (fun _ => rfl)

theorem watermarks_updatePeerSeq (s : Store V) (nodeID : GoString) {seq : ℕ}
    (hseq : s.getPeerSeq nodeID < seq) :
    (s.updatePeerSeq nodeID seq).watermarks =
      Function.update s.watermarks (shardIndex (peerSeqKey nodeID), nodeID) (some seq) := by
  unfold updatePeerSeq
  rw [if_pos hseq]
  exact s.flatten_update StoreShard.peerSeqs (peerSeqKey nodeID) _ nodeID (some seq) rfl

theorem getPeerSeq_updatePeerSeq (s : Store V) (nodeID : GoString) (seq : ℕ) (nodeID' : GoString) :
    (s.updatePeerSeq nodeID seq).getPeerSeq nodeID' =
      if nodeID' = nodeID then max (s.getPeerSeq nodeID) seq else s.getPeerSeq nodeID' := by
  by_cases hgt : s.getPeerSeq nodeID < seq
  · rw [getPeerSeq_eq, s.watermarks_updatePeerSeq nodeID hgt]
    by_cases hid : nodeID' = nodeID
    · subst nodeID'
      rw [Function.update_self, if_pos rfl, max_eq_right hgt.le, Option.getD_some]
    · rw [Function.update_of_ne (fun h => hid (congrArg Prod.snd h)), if_neg hid]
      rfl
  · have hsame : s.updatePeerSeq nodeID seq = s := if_neg hgt
    rw [hsame]
    split_ifs with hid
    · rw [hid, max_eq_left (not_lt.1 hgt)]
    · rfl

theorem dirty_increment [Rounding] (s : Store V) (key nodeID : GoString) (delta : ℚ) :
    flatten StoreShard.dirty (s.increment key nodeID delta).1 =
      Function.update (flatten StoreShard.dirty s) (countSlot key nodeID) true :=
  s.flatten_update StoreShard.dirty key
    (fun shard => shard.addCount (counterKey key nodeID) key delta) (counterKey key nodeID) true rfl

theorem dirty_set (s : Store V) {key : GoString} (value : Option V) (ts : Timestamp) (ttl : Int64)
    (hkey : s.replicated.cache (slot key) = none) :
    flatten StoreShard.dirty (s.set key value ts ttl) =
      Function.update (flatten StoreShard.dirty s) (slot key) true := by
  apply s.flatten_update StoreShard.dirty key _ key true
  rw [put_of_not_dominated]
  rintro ⟨x, hx, _⟩
  cases hkey.symm.trans hx

theorem dirty_updatePeerSeq (s : Store V) (nodeID : GoString) (seq : ℕ)
    (hseq : s.getPeerSeq nodeID < seq) :
    flatten StoreShard.dirty (s.updatePeerSeq nodeID seq) =
      Function.update (flatten StoreShard.dirty s) (slot (peerSeqKey nodeID)) true := by
  unfold updatePeerSeq
  rw [if_pos hseq]
  exact s.flatten_update StoreShard.dirty (peerSeqKey nodeID) _ (peerSeqKey nodeID) true rfl

end Store
end Capacitor
