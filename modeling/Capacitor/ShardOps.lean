import Capacitor.Persistence

/-!
# Operations shard by shard

Every operation of the store holds the lock of one shard and computes its change from that shard
alone. `onShard` is that change, for all operations at once, and `shards_apply` says that an
operation is this change of its target and nothing else; what an operation keeps is then a matter of
one shard.
-/

namespace Capacitor

open Store

variable {V : Type*}

theorem update_cases {α β : Type*} [DecidableEq α] {f : α → β} {a k : α} {b : β} {P : β → Prop}
    (h : P (Function.update f a b k)) : P (f k) ∨ k = a := by
  by_cases hk : k = a
  · exact Or.inr hk
  · rw [Function.update_of_ne hk] at h
    exact Or.inl h

theorem update_ne_none {α β : Type*} [DecidableEq α] {m : α → Option β} {k : α} (a : α) (b : β)
    (h : m k ≠ none) : Function.update m a (some b) k ≠ none := by
  rw [Function.update_apply]
  split_ifs
  · exact Option.some_ne_none b
  · exact h

inductive ShardMap where
  | cache
  | counts
  | windows
  | peerSeqs

namespace StoreShard

/-- The two shards have the same data outside the map. -/
structure SameBut (m : ShardMap) (shard shard' : StoreShard V) : Prop where
  cache : m ≠ .cache → shard'.cache = shard.cache
  counts : m ≠ .counts → shard'.counts = shard.counts
  windows : m ≠ .windows → shard'.windows = shard.windows
  peerSeqs : m ≠ .peerSeqs → shard'.peerSeqs = shard.peerSeqs

variable (shard : StoreShard V)

theorem sameBut_refl (m : ShardMap) : shard.SameBut m shard :=
  ⟨fun _ => rfl, fun _ => rfl, fun _ => rfl, fun _ => rfl⟩

theorem sameBut_put (key : GoString) (e : ValWithTS V) :
    shard.SameBut .cache (shard.put key e) := by
  unfold put
  split_ifs
  · exact shard.sameBut_refl _
  · exact ⟨fun h => absurd rfl h, fun _ => rfl, fun _ => rfl, fun _ => rfl⟩

theorem cache_put_of_ne {k key : GoString} (hk : k ≠ key) (e : ValWithTS V) :
    (shard.put key e).cache k = shard.cache k := by
  unfold put
  split_ifs
  · rfl
  · exact Function.update_of_ne hk _ _

theorem dirty_put_of_ne {k key : GoString} (hk : k ≠ key) (e : ValWithTS V) :
    (shard.put key e).dirty k = shard.dirty k := by
  unfold put
  split_ifs
  · rfl
  · exact Function.update_of_ne hk _ _

end StoreShard

namespace StoreOp

/-- The shard whose lock the operation takes. -/
def target : StoreOp V → Fin numShards
  | set key _ _ _ => shardIndex key
  | delete key _ => shardIndex key
  | increment key _ _ => shardIndex key
  | setNodeCount key _ _ => shardIndex key
  | incrementMetric key _ _ => shardIndex key
  | incrementSlidingWindow key _ _ _ => shardIndex key
  | addWindowTimestamp key _ => shardIndex key
  | updatePeerSeq nodeID _ => shardIndex (peerSeqKey nodeID)
  | pruneExpiredKeys i _ => i
  | pruneStaleWindows i _ => i

def onShard [Rounding] (shard : StoreShard V) : StoreOp V → StoreShard V
  | set key value ts ttl => shard.put key (setEntry value ts ttl)
  | delete key ts => shard.put key (tombstone ts)
  | increment key nodeID delta => shard.addCount (counterKey key nodeID) key delta
  | setNodeCount key nodeID val =>
      let old := (shard.counts (counterKey key nodeID)).getD 0
      if val > old then
        { shard with
          counts := Function.update shard.counts (counterKey key nodeID) (some val)
          aggregateCounts := addTo shard.aggregateCounts key (Rounding.round (val - old))
          dirty := Function.update shard.dirty (counterKey key nodeID) true }
      else shard
  | incrementMetric key nodeID delta =>
      (shard.addCount (metricCountKey key nodeID) (bytes "m:c:" ++ key) 1).addCount
        (metricSumKey key nodeID) (bytes "m:s:" ++ key) delta
  | incrementSlidingWindow key ts window now =>
      let win := (shard.windows key).getD [] ++ [ts]
      let kept := win.drop (win.countP (fun t => t < now - window))
      { shard with
        windows := Function.update shard.windows key (if kept = [] then none else some kept)
        dirty := Function.update shard.dirty key true }
  | addWindowTimestamp key ts =>
      let win := (shard.windows key).getD []
      match windowIndex ts win with
      | none => shard
      | some idx =>
          { shard with
            windows := Function.update shard.windows key (some (win.take idx ++ ts :: win.drop idx))
            dirty := Function.update shard.dirty key true }
  | updatePeerSeq nodeID seq =>
      if seq > (shard.peerSeqs nodeID).getD 0 then
        { shard with
          peerSeqs := Function.update shard.peerSeqs nodeID (some seq)
          dirty := Function.update shard.dirty (peerSeqKey nodeID) true }
      else shard
  | pruneExpiredKeys _ now => shard.pruneExpiredKeys now
  | pruneStaleWindows _ now => shard.pruneStaleWindows now

/-- An operation changes one shard, by what that shard holds alone. -/
theorem apply_eq [Rounding] (s : Store V) (o : StoreOp V) :
    o.apply s = ⟨Function.update s.shards o.target (o.onShard (s.shards o.target))⟩ := by
  have hself (i : Fin numShards) : s = ⟨Function.update s.shards i (s.shards i)⟩ := by
    rw [Function.update_eq_self]
  have hset (i : Fin numShards) {x y : StoreShard V} (hxy : x = y) :
      (⟨Function.update s.shards i x⟩ : Store V) = ⟨Function.update s.shards i y⟩ := by
    rw [hxy]
  cases o with
  | setNodeCount key nodeID val =>
      change s.setNodeCount key nodeID val = _
      unfold Store.setNodeCount
      by_cases hval : val > s.getNodeCount key nodeID
      · rw [if_pos hval]
        exact hset (shardIndex key) (if_pos hval).symm
      · rw [if_neg hval]
        exact (hself (shardIndex key)).trans (hset (shardIndex key) (if_neg hval).symm)
  | addWindowTimestamp key ts =>
      change s.addWindowTimestamp key ts = _
      unfold Store.addWindowTimestamp
      cases hidx : windowIndex ts (s.getWindow key) with
      | none =>
          have hscan : windowIndex ts (((s.shards (shardIndex key)).windows key).getD []) = none :=
            hidx
          refine (hself (shardIndex key)).trans (hset (shardIndex key) ?_)
          simp only [target, onShard, hscan]
      | some idx =>
          have hscan : windowIndex ts (((s.shards (shardIndex key)).windows key).getD []) =
              some idx := hidx
          refine hset (shardIndex key) ?_
          simp only [target, onShard, hscan]
          rfl
  | updatePeerSeq nodeID seq =>
      change s.updatePeerSeq nodeID seq = _
      unfold Store.updatePeerSeq
      by_cases hval : seq > s.getPeerSeq nodeID
      · rw [if_pos hval]
        exact hset (shardIndex (peerSeqKey nodeID)) (if_pos hval).symm
      · rw [if_neg hval]
        exact (hself _).trans (hset (shardIndex (peerSeqKey nodeID)) (if_neg hval).symm)
  | _ => rfl

theorem shards_apply [Rounding] (s : Store V) (o : StoreOp V) (i : Fin numShards) :
    (o.apply s).shards i = if i = o.target then o.onShard (s.shards i) else s.shards i := by
  rw [apply_eq]
  refine (Function.update_apply _ _ _ i).trans ?_
  split_ifs with hi
  · rw [hi]
  · rfl

/-- The map of its shard that the operation may change. -/
@[simp]
def changes : StoreOp V → ShardMap
  | set _ _ _ _ => .cache
  | delete _ _ => .cache
  | increment _ _ _ => .counts
  | setNodeCount _ _ _ => .counts
  | incrementMetric _ _ _ => .counts
  | incrementSlidingWindow _ _ _ _ => .windows
  | addWindowTimestamp _ _ => .windows
  | updatePeerSeq _ _ => .peerSeqs
  | pruneExpiredKeys _ _ => .cache
  | pruneStaleWindows _ _ => .windows

/-- The names that the operation writes; a pass of the janitor has none. -/
def names : StoreOp V → List GoString
  | set key _ _ _ => [key]
  | delete key _ => [key]
  | increment key nodeID _ => [counterKey key nodeID]
  | setNodeCount key nodeID _ => [counterKey key nodeID]
  | incrementMetric key nodeID _ => [metricCountKey key nodeID, metricSumKey key nodeID]
  | incrementSlidingWindow key _ _ _ => [key]
  | addWindowTimestamp key _ => [key]
  | updatePeerSeq nodeID _ => [peerSeqKey nodeID]
  | pruneExpiredKeys _ _ => []
  | pruneStaleWindows _ _ => []

theorem sameBut_onShard [Rounding] (o : StoreOp V) (shard : StoreShard V) :
    shard.SameBut o.changes (o.onShard shard) := by
  cases o with
  | set key value ts ttl => exact shard.sameBut_put key _
  | delete key ts => exact shard.sameBut_put key _
  | setNodeCount key nodeID val =>
      simp only [onShard]
      split_ifs
      · exact ⟨fun _ => rfl, fun h => absurd rfl h, fun _ => rfl, fun _ => rfl⟩
      · exact shard.sameBut_refl _
  | addWindowTimestamp key ts =>
      simp only [onShard]
      split
      · exact shard.sameBut_refl _
      · exact ⟨fun _ => rfl, fun _ => rfl, fun h => absurd rfl h, fun _ => rfl⟩
  | updatePeerSeq nodeID seq =>
      simp only [onShard]
      split_ifs
      · exact ⟨fun _ => rfl, fun _ => rfl, fun _ => rfl, fun h => absurd rfl h⟩
      · exact shard.sameBut_refl _
  | increment key nodeID delta | incrementMetric key nodeID delta =>
      exact ⟨fun _ => rfl, fun h => absurd rfl h, fun _ => rfl, fun _ => rfl⟩
  | incrementSlidingWindow key ts window now | pruneStaleWindows i now =>
      exact ⟨fun _ => rfl, fun _ => rfl, fun h => absurd rfl h, fun _ => rfl⟩
  | pruneExpiredKeys i now =>
      exact ⟨fun h => absurd rfl h, fun _ => rfl, fun _ => rfl, fun _ => rfl⟩

theorem dirty_onShard_of_not_mem [Rounding] {shard : StoreShard V} {o : StoreOp V} {k : GoString}
    (hk : k ∉ o.names) (hcache : shard.cache k = none) :
    (o.onShard shard).dirty k = shard.dirty k := by
  cases o with
  | set key value ts ttl => exact shard.dirty_put_of_ne (List.ne_of_not_mem_cons hk) _
  | delete key ts => exact shard.dirty_put_of_ne (List.ne_of_not_mem_cons hk) _
  | setNodeCount key nodeID val =>
      simp only [onShard]
      split_ifs
      · exact Function.update_of_ne (List.ne_of_not_mem_cons hk) _ _
      · rfl
  | addWindowTimestamp key ts =>
      simp only [onShard]
      split
      · rfl
      · exact Function.update_of_ne (List.ne_of_not_mem_cons hk) _ _
  | updatePeerSeq nodeID seq =>
      simp only [onShard]
      split_ifs
      · exact Function.update_of_ne (List.ne_of_not_mem_cons hk) _ _
      · rfl
  | increment key nodeID delta | incrementSlidingWindow key ts window now =>
      exact Function.update_of_ne (List.ne_of_not_mem_cons hk) _ _
  | incrementMetric key nodeID delta =>
      refine (Function.update_of_ne ?_ _ _).trans (Function.update_of_ne ?_ _ _)
      · exact List.ne_of_not_mem_cons (List.not_mem_of_not_mem_cons hk)
      · exact List.ne_of_not_mem_cons hk
  | pruneExpiredKeys i now => simp [onShard, StoreShard.pruneExpiredKeys, hcache]
  | pruneStaleWindows i now => rfl

theorem dirty_onShard [Rounding] {shard : StoreShard V} {k : GoString} (h : shard.dirty k = true)
    (o : StoreOp V) : (o.onShard shard).dirty k = true := by
  have hmark (k₀ : GoString) : Function.update shard.dirty k₀ true k = true := by
    rw [Function.update_apply, h, ite_self]
  cases o with
  | set key value ts ttl =>
      simp only [onShard, StoreShard.put]
      split_ifs
      · exact h
      · exact hmark key
  | delete key ts =>
      simp only [onShard, StoreShard.put]
      split_ifs
      · exact h
      · exact hmark key
  | increment key nodeID delta => exact hmark _
  | setNodeCount key nodeID val =>
      simp only [onShard]
      split_ifs
      · exact hmark _
      · exact h
  | incrementMetric key nodeID delta =>
      simp [onShard, StoreShard.addCount, Function.update_apply, h]
  | incrementSlidingWindow key ts window now => exact hmark key
  | addWindowTimestamp key ts =>
      simp only [onShard]
      split
      · exact h
      · exact hmark key
  | updatePeerSeq nodeID seq =>
      simp only [onShard]
      split_ifs
      · exact hmark _
      · exact h
  | pruneExpiredKeys i now => simp [onShard, StoreShard.pruneExpiredKeys, h]
  | pruneStaleWindows i now => exact h

end StoreOp
end Capacitor
