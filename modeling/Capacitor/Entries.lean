import Capacitor.Loading
import Capacitor.ShardOps

/-!
# One cache entry on disk

A key that `load` takes for a cache entry has one record, which only a flush of that key writes. So
an entry can be followed through operations, flushes and restarts by itself, whatever else the store
holds: `Held` says that a key holds an entry and that its record is the record of this entry unless
the key is marked as dirty. The entry is lost only to an operation that replaces or removes it, or
to a flush or a load that finds its time over.
-/

namespace Capacitor

open Store

variable {V : Type*} {c : DiskCodec V}

theorem not_watermark_of_entry {k : GoString} (hk : recordKind k = .entry) :
    (bytes "meta:seq:").isPrefixOf k = false := by
  rw [Bool.eq_false_iff]
  intro h
  have hmark : recordKind k = .watermark := if_pos h
  rw [hk] at hmark
  cases hmark

@[simp] theorem recordKind_windowKey (key : GoString) (ts : Int64) :
    recordKind (windowKey key ts) = .window := rfl

namespace StoreShard

@[simp] theorem key_snapshotItem (shard : StoreShard V) (k : GoString) :
    (shard.snapshotItem k).key = k := by
  unfold snapshotItem
  split
  · rfl
  · split
    · rfl
    · split
      · rfl
      · split <;> rfl

theorem writes_of_cache {shard : StoreShard V} {k : GoString} {v : ValWithTS V}
    (hk : recordKind k = .entry) (hv : shard.cache k = some v) (now : Int64) :
    (shard.snapshotItem k).writes c now = [(k, c.entryRecord v now)] := by
  simp [snapshotItem, hv, SnapshotItem.writes, not_watermark_of_entry hk]

end StoreShard

theorem SnapshotItem.key_of_mem_writes {item : SnapshotItem V} {now : Int64}
    {w : WriteBatch.Write GoString Record} (hw : w ∈ item.writes c now) :
    w.1 = item.key ∨ (∃ ts, w.1 = windowKey item.key ts) ∧ item.win ≠ none := by
  unfold writes at hw
  split_ifs at hw
  · exact Or.inl (by rw [List.mem_singleton.1 hw])
  · exact Or.inl (by rw [List.mem_singleton.1 hw])
  · split at hw
    · exact Or.inl (by rw [List.mem_singleton.1 hw])
    · next hwin =>
        obtain ⟨ts, -, rfl⟩ := List.mem_map.1 hw
        exact Or.inr ⟨⟨ts, rfl⟩, by simp [hwin]⟩
    · exact Or.inl (by rw [List.mem_singleton.1 hw])

theorem SnapshotItem.length_of_mem_writes {item : SnapshotItem V} {now : Int64} {name : GoString}
    {r : Record} (hw : (name, some r) ∈ item.writes c now)
    (hmark : (bytes "meta:seq:").isPrefixOf item.key = true) : r.data.length = 8 := by
  unfold writes at hw
  split_ifs at hw
  · cases (Prod.mk.inj (List.mem_singleton.1 hw)).2
  · cases (Prod.mk.inj (List.mem_singleton.1 hw)).2
    exact length_bigEndian _ _

theorem StoreShard.windows_of_snapshotItem {shard : StoreShard V} {k : GoString}
    (h : (shard.snapshotItem k).win ≠ none) : shard.windows k ≠ none := by
  intro hnone
  apply h
  unfold snapshotItem
  rw [hnone]
  split
  · rfl
  · split
    · rfl
    · dsimp only
      split <;> rfl

theorem StoreShard.eq_of_mem_writes {shard : StoreShard V} {k k' : GoString}
    (hk : recordKind k = .entry) {now : Int64} {w : WriteBatch.Write GoString Record}
    (hw : w ∈ (shard.snapshotItem k').writes c now) (hwk : w.1 = k) : k' = k := by
  rcases SnapshotItem.key_of_mem_writes hw with hkey | ⟨⟨ts, hkey⟩, -⟩
  · rw [← hwk, hkey, key_snapshotItem]
  · rw [← hwk, hkey, recordKind_windowKey] at hk
    cases hk

def DiskCodec.lastingRecord (c : DiskCodec V) (v : ValWithTS V) : Record :=
  ⟨c.marshal v, if v.expiresAt > 0 then some v.expiresAt else none⟩

/-- A flush at the reading `now` still gives the entry a time to live. -/
def ValWithTS.Lasts (v : ValWithTS V) (now : Int64) : Prop :=
  v.expiresAt > 0 → v.expiresAt - now > 0

theorem DiskCodec.entryRecord_of_lasts {v : ValWithTS V} {now : Int64} (h : v.Lasts now) :
    c.entryRecord v now = some (c.lastingRecord v) := by
  unfold entryRecord lastingRecord
  by_cases hpos : v.expiresAt > 0
  · rw [if_pos hpos, if_pos (h hpos), if_pos hpos, Int64.add_comm, Int64.sub_add_cancel]
  · rw [if_neg hpos, if_neg hpos]

namespace Disk

theorem written_flushShard (d : Disk V) (i : Fin numShards) (order : List GoString)
    (now : GoString → Int64) :
    (d.flushShard c i order now).written = WriteBatch.commit d.written
      (order.flatMap (fun k => ((d.store.shards i).snapshotItem k).writes c (now k))) :=
  WriteBatch.commit_append _ _ _

theorem replicated_close (d : Disk V) (orders : Fin numShards → List GoString)
    (now : Fin numShards → GoString → Int64) :
    (d.close c orders now).store.replicated = d.store.replicated := by
  apply Replicated.ext <;>
    funext p <;>
    simp only [Store.replicated, flatten, shards_close]

theorem watermarks_close (d : Disk V) (orders : Fin numShards → List GoString)
    (now : Fin numShards → GoString → Int64) :
    (d.close c orders now).store.watermarks = d.store.watermarks := by
  funext p
  simp only [watermarks, flatten, shards_close]

theorem dirty_flushShard (d : Disk V) (i : Fin numShards) (order : List GoString)
    (now : GoString → Int64) (p : Fin numShards × GoString) :
    flatten StoreShard.dirty (d.flushShard c i order now).store p =
      if p.1 = i then false else flatten StoreShard.dirty d.store p := by
  change ((d.flushShard c i order now).store.shards p.1).dirty p.2 = _
  rw [shards_flushShard]
  split_ifs <;> rfl

/-- The names that a flush of the shard `i` finds marked, when `marks` are all marks. -/
def ordersOf (marks : List (Fin numShards × GoString)) (i : Fin numShards) : List GoString :=
  (marks.filter (fun p => p.1 = i)).map Prod.snd

theorem ranges_ordersOf {d : Disk V} {marks : List (Fin numShards × GoString)}
    (h : ∀ p, flatten StoreShard.dirty d.store p = true ↔ p ∈ marks) (i : Fin numShards) :
    d.Ranges i (ordersOf marks i) := by
  intro k
  have hk : (d.store.shards i).dirty k = true ↔ (i, k) ∈ marks := h (i, k)
  rw [hk]
  simp [ordersOf]

end Disk

namespace StoreOp

/-- The operation does not touch the entry `v` of the key `k`. -/
def Leaves (k : GoString) (v : ValWithTS V) : StoreOp V → Prop
  | set key _ ts _ => key = k → ts ≤ v.timestamp
  | delete key ts => key = k → ts ≤ v.timestamp
  | pruneExpiredKeys _ now => v.expired now = false
  | _ => True

theorem cache_put_of_le {shard : StoreShard V} {k : GoString} {v : ValWithTS V}
    (hv : shard.cache k = some v) {key : GoString} {e : ValWithTS V}
    (he : key = k → e.timestamp ≤ v.timestamp) : (shard.put key e).cache k = some v := by
  by_cases hkey : key = k
  · subst hkey
    rw [put_of_dominated hv (he rfl), hv]
  · exact (shard.cache_put_of_ne (Ne.symm hkey) e).trans hv

theorem cache_onShard_of_leaves {shard : StoreShard V} {k : GoString} {v : ValWithTS V}
    (hv : shard.cache k = some v) {o : StoreOp V} (ho : o.Leaves k v) :
    (o.onShard shard).cache k = some v := by
  have hframe (hcache : o.changes ≠ .cache) : (o.onShard shard).cache k = some v := by
    rw [(o.sameBut_onShard shard).cache hcache, hv]
  cases o with
  | set key value ts ttl => exact cache_put_of_le hv ho
  | delete key ts => exact cache_put_of_le hv ho
  | pruneExpiredKeys i now =>
      have hlasts : v.expired now = false := ho
      simp [onShard, StoreShard.pruneExpiredKeys, hv, Option.filter, hlasts]
  | _ => exact hframe (by simp)

theorem cache_onShard_of_not_mem {shard : StoreShard V} {k : GoString} {o : StoreOp V}
    (hk : k ∉ o.names) (hcache : shard.cache k = none) : (o.onShard shard).cache k = none := by
  have hframe (hchanges : o.changes ≠ .cache) : (o.onShard shard).cache k = none := by
    rw [(o.sameBut_onShard shard).cache hchanges, hcache]
  cases o with
  | set key value ts ttl =>
      exact (shard.cache_put_of_ne (List.ne_of_not_mem_cons hk) _).trans hcache
  | delete key ts => exact (shard.cache_put_of_ne (List.ne_of_not_mem_cons hk) _).trans hcache
  | pruneExpiredKeys i now => simp [onShard, StoreShard.pruneExpiredKeys, hcache]
  | _ => exact hframe (by simp)

theorem not_mem_names {k : GoString} (hk : recordKind k = .entry) {o : StoreOp V}
    (ho : o.target ≠ shardIndex k) : k ∉ o.names := by
  have hkey {key : GoString} (ht : shardIndex key ≠ shardIndex k) : k ∉ [key] := by
    intro hmem
    exact ht (congrArg shardIndex (List.mem_singleton.1 hmem).symm)
  have hcount (kind : CountKind) (key nodeID : GoString) : k ≠ kind.key key nodeID := by
    rintro rfl
    rw [recordKind_key] at hk
    cases hk
  cases o with
  | set key value ts ttl => exact hkey ho
  | delete key ts => exact hkey ho
  | increment key nodeID delta => exact mt List.mem_singleton.1 (hcount .counter key nodeID)
  | setNodeCount key nodeID val => exact mt List.mem_singleton.1 (hcount .counter key nodeID)
  | incrementMetric key nodeID delta =>
      exact List.not_mem_cons_of_ne_of_not_mem (hcount .metricCount key nodeID)
        (mt List.mem_singleton.1 (hcount .metricSum key nodeID))
  | incrementSlidingWindow key ts window now => exact hkey ho
  | addWindowTimestamp key ts => exact hkey ho
  | updatePeerSeq nodeID seq =>
      refine mt List.mem_singleton.1 ?_
      rintro rfl
      cases hk
  | pruneExpiredKeys i now => exact List.not_mem_nil
  | pruneStaleWindows i now => exact List.not_mem_nil

theorem onShard_of_target_ne {shard : StoreShard V} {k : GoString} (hk : recordKind k = .entry)
    {o : StoreOp V} (ho : o.target ≠ shardIndex k)
    (h : shard.cache k = none ∧ shard.dirty k = false) :
    (o.onShard shard).cache k = none ∧ (o.onShard shard).dirty k = false := by
  have hname := not_mem_names hk ho
  exact ⟨cache_onShard_of_not_mem hname h.1, (dirty_onShard_of_not_mem hname h.1).trans h.2⟩

end StoreOp

/-- The key `k` is held and marked in its own shard only. -/
def Store.Places (k : GoString) (s : Store V) : Prop :=
  ∀ i, i ≠ shardIndex k → (s.shards i).cache k = none ∧ (s.shards i).dirty k = false

theorem Store.Places.op {k : GoString} (hk : recordKind k = .entry) {s : Store V}
    (h : s.Places k) (o : StoreOp V) : (o.apply s).Places k := by
  intro i hi
  rw [o.shards_apply]
  split_ifs with htarget
  · subst htarget
    exact StoreOp.onShard_of_target_ne hk hi (h _ hi)
  · exact h i hi

/-- The key `k` holds the entry `v`, and its record is that of `v` unless the key is marked. -/
structure Held (c : DiskCodec V) (k : GoString) (v : ValWithTS V) (d : Disk V) : Prop where
  places : d.store.Places k
  cache : (d.store.getShard k).cache k = some v
  record : (d.store.getShard k).dirty k = false → d.written[k]? = some (c.lastingRecord v)

theorem Disk.places_flushShard {k : GoString} {d : Disk V} (h : d.store.Places k)
    (i : Fin numShards) (order : List GoString) (now : GoString → Int64) :
    (d.flushShard c i order now).store.Places k := by
  intro j hj
  rw [shards_flushShard]
  split_ifs
  · exact ⟨(h j hj).1, rfl⟩
  · exact h j hj

namespace Held

variable {k : GoString} {v : ValWithTS V} {d : Disk V}

theorem op (hk : recordKind k = .entry) (h : Held c k v d) {o : StoreOp V} (ho : o.Leaves k v) :
    Held c k v { d with store := o.apply d.store } := by
  have hshard := o.shards_apply d.store (shardIndex k)
  refine ⟨h.places.op hk o, ?_, ?_⟩
  · change ((o.apply d.store).shards (shardIndex k)).cache k = some v
    rw [hshard]
    split_ifs
    · exact StoreOp.cache_onShard_of_leaves h.cache ho
    · exact h.cache
  · intro hclean
    apply h.record
    change ((o.apply d.store).shards (shardIndex k)).dirty k = false at hclean
    rw [Bool.eq_false_iff] at hclean ⊢
    intro hdirty
    apply hclean
    rw [hshard]
    split_ifs
    · exact StoreOp.dirty_onShard hdirty o
    · exact hdirty

theorem commit (h : Held c k v d) : Held c k v d.commit := ⟨h.places, h.cache, h.record⟩

theorem put (o : StoreOp V)
    (ho : o.apply d.store = d.store.modifyShard k (fun shard => shard.put k v))
    (hk : recordKind k = .entry) (hplaces : d.store.Places k)
    (htook : ∀ x, d.store.replicated.cache (slot k) = some x → x.timestamp < v.timestamp) :
    Held c k v { d with store := o.apply d.store } := by
  have hfree : ¬ ∃ x ∈ (d.store.getShard k).cache k, v.timestamp ≤ x.timestamp := by
    rintro ⟨x, hx, hle⟩
    exact absurd hle (not_le.2 (htook x hx))
  have hshard : (o.apply d.store).getShard k = { d.store.getShard k with
      cache := Function.update (d.store.getShard k).cache k (some v)
      dirty := Function.update (d.store.getShard k).dirty k true } := by
    rw [ho]
    refine (shards_modifyShard _ _ _ _).trans ?_
    rw [if_pos rfl]
    exact put_of_not_dominated hfree
  refine ⟨hplaces.op hk o, ?_, ?_⟩
  · change ((o.apply d.store).getShard k).cache k = _
    rw [hshard]
    exact Function.update_self _ _ _
  · intro hclean
    change ((o.apply d.store).getShard k).dirty k = false at hclean
    rw [hshard] at hclean
    simp at hclean

theorem flushShard (hk : recordKind k = .entry) (h : Held c k v d) {i : Fin numShards}
    {order : List GoString} {now : GoString → Int64} (hranges : d.Ranges i order)
    (hlasts : v.Lasts (now k)) : Held c k v (d.flushShard c i order now) := by
  have hcache : ((d.flushShard c i order now).store.getShard k).cache k = some v := by
    unfold getShard
    rw [Disk.shards_flushShard]
    split_ifs <;> exact h.cache
  refine ⟨d.places_flushShard h.places i order now, hcache, fun hclean => ?_⟩
  have hown (w : WriteBatch.Write GoString Record)
      (hw : w ∈ order.flatMap (fun j => ((d.store.shards i).snapshotItem j).writes c (now j)))
      (hwk : w.1 = k) : k ∈ order ∧ w ∈ ((d.store.shards i).snapshotItem k).writes c (now k) := by
    obtain ⟨j, hj, hw⟩ := List.mem_flatMap.1 hw
    obtain rfl := StoreShard.eq_of_mem_writes hk hw hwk
    exact ⟨hj, hw⟩
  rw [Disk.written_flushShard]
  by_cases hmem : k ∈ order
  · have hi : shardIndex k = i := by
      by_contra hne
      have hdirty := (hranges k).1 hmem
      rw [(h.places i (Ne.symm hne)).2] at hdirty
      cases hdirty
    subst hi
    have hwrites : ((d.store.shards (shardIndex k)).snapshotItem k).writes c (now k) =
        [(k, some (c.lastingRecord v))] := by
      rw [← DiskCodec.entryRecord_of_lasts hlasts]
      exact StoreShard.writes_of_cache hk h.cache (now k)
    apply WriteBatch.getElem?_commit_of_mem
    · intro w hw hwk
      have hmine := (hown w hw hwk).2
      rw [hwrites, List.mem_singleton] at hmine
      rw [hmine]
    · refine ⟨(k, some (c.lastingRecord v)), List.mem_flatMap.2 ⟨k, hmem, ?_⟩, rfl⟩
      rw [hwrites]
      exact List.mem_singleton_self _
  · rw [WriteBatch.getElem?_commit_of_not_mem _ (fun w hw hwk => hmem (hown w hw hwk).1)]
    apply h.record
    unfold getShard at hclean ⊢
    rw [Disk.shards_flushShard] at hclean
    split_ifs at hclean with hi
    · subst hi
      exact Bool.eq_false_iff.2 (fun hdirty => hmem ((hranges k).2 hdirty))
    · exact hclean

theorem close (hk : recordKind k = .entry) (h : Held c k v d)
    {orders : Fin numShards → List GoString} {now : Fin numShards → GoString → Int64}
    (hranges : ∀ i, d.Ranges i (orders i)) (hlasts : ∀ i, v.Lasts (now i k)) :
    (d.close c orders now).db[k]? = some (c.lastingRecord v) := by
  have hflushed : Held c k v (d.flushShards c orders now (List.finRange numShards)) :=
    Disk.flushShards_invariant (List.nodup_finRange _)
      (fun d i _ hd hrange => hd.flushShard hk hrange (hlasts i)) h (fun i _ => hranges i)
  have hrecord := hflushed.commit.record
  apply hrecord
  change ((d.close c orders now).store.shards (shardIndex k)).dirty k = false
  rw [Disk.shards_close]

end Held

section Load

variable {now : GoString → Int64} {items : List (GoString × Record)}

theorem StoreShard.dirty_loadRecord (shard : StoreShard V) (key val : GoString) (t : Int64) :
    (shard.loadRecord c key val t).dirty = shard.dirty := by
  rw [loadRecord_eq]
  cases recordKind key with
  | watermark => rfl
  | count kind => rfl
  | window =>
      obtain ⟨windows, hload⟩ := shard.exists_loadWindow key
      rw [hload]
  | entry =>
      obtain ⟨cache, hload⟩ := shard.exists_loadEntry key t (c.unmarshal val)
      rw [hload]

theorem Store.dirty_load (i : Fin numShards) :
    ((items.foldl (loadRecord c now) newStore).shards i).dirty = fun _ => false := by
  refine List.foldlRecOn (motive := fun s : Store V => (s.shards i).dirty = fun _ => false) items _
    rfl ?_
  intro s hs w _
  unfold loadRecord
  rw [shards_modifyShard]
  split_ifs
  · rw [StoreShard.dirty_loadRecord, hs]
  · exact hs

theorem Store.places_load (items : List (GoString × Record)) (k : GoString) :
    (items.foldl (loadRecord c now) newStore).Places k := by
  intro i hi
  refine ⟨?_, by rw [dirty_load]⟩
  refine List.foldlRecOn (motive := fun s : Store V => (s.shards i).cache k = none) items _ rfl ?_
  intro s hs w _
  have hother : ¬ (k = w.1 ∧ i = shardIndex w.1) := by
    rintro ⟨rfl, rfl⟩
    exact hi rfl
  rw [view_loadRecord (cache_loadRecord c now), if_neg hother, hs]

/-- An entry whose time is not over comes back from its record. -/
theorem Store.cache_load {k : GoString} (hk : recordKind k = .entry) {v : ValWithTS V}
    {db : Database} (hvisible : Visible db now items)
    (hrecord : db[k]? = some (c.lastingRecord v)) (hround : c.unmarshal (c.marshal v) = some v)
    (hlives : v.expiresAt > 0 → now k < v.expiresAt) :
    (items.foldl (loadRecord c now) newStore).replicated.cache (slot k) = some v := by
  have hmem : (k, c.lastingRecord v) ∈ items := by
    apply hvisible.met k _ hrecord
    intro e he
    unfold DiskCodec.lastingRecord at he
    dsimp only at he
    split_ifs at he with hpos
    · obtain rfl := Option.some.inj he
      exact hlives hpos
    · cases he
  apply (flatten_foldl_loadRecord (cache_loadRecord c now) (fun _ => rfl) hvisible.distinct
    (slot k) v).2
  refine ⟨_, hmem, rfl, ?_⟩
  have hexpired : v.expired (now k) = false := by
    unfold ValWithTS.expired
    by_cases hpos : v.expiresAt > 0
    · have hlt := Int64.lt_iff_toInt_lt.1 (hlives hpos)
      have hnot : ¬ now k > v.expiresAt := by
        rw [gt_iff_lt, Int64.lt_iff_toInt_lt]
        omega
      simp [hnot]
    · simp [hpos]
  simp only [loadedEntry, hk, DiskCodec.lastingRecord, hround, Option.filter, hexpired,
    Bool.not_false, if_true]

end Load

/-- A close, and a `newStore` on what it leaves. -/
def Disk.restart (c : DiskCodec V) (d : Disk V) (orders : Fin numShards → List GoString)
    (flushed : Fin numShards → GoString → Int64) (now : GoString → Int64)
    (items : List (GoString × Record)) : Option (Disk V) :=
  (Store.load c now items).map (fun s => ⟨s, (d.close c orders flushed).db, []⟩)

theorem Store.foldl_of_load {now : GoString → Int64} {items : List (GoString × Record)}
    {s : Store V} (h : Store.load c now items = some s) :
    s = items.foldl (Store.loadRecord c now) Store.newStore := by
  unfold Store.load at h
  split_ifs at h
  exact (Option.some.inj h).symm

theorem Held.restart {k : GoString} (hk : recordKind k = .entry) {v : ValWithTS V} {d d' : Disk V}
    (h : Held c k v d) {orders : Fin numShards → List GoString}
    {flushed : Fin numShards → GoString → Int64} {now : GoString → Int64}
    {items : List (GoString × Record)} (hranges : ∀ i, d.Ranges i (orders i))
    (hlasts : ∀ i, v.Lasts (flushed i k))
    (hvisible : Visible (d.close c orders flushed).db now items)
    (hround : c.unmarshal (c.marshal v) = some v) (hlives : v.expiresAt > 0 → now k < v.expiresAt)
    (hrestart : d.restart c orders flushed now items = some d') : Held c k v d' := by
  obtain ⟨s, hs, rfl⟩ := Option.map_eq_some_iff.1 hrestart
  obtain rfl := Store.foldl_of_load hs
  have hrecord := h.close hk hranges hlasts
  refine ⟨Store.places_load items k,
    Store.cache_load hk hvisible hrecord hround hlives, fun _ => ?_⟩
  simp only [Disk.written, WriteBatch.commit, List.foldl_nil]
  exact hrecord

end Capacitor
