import Capacitor.Loading

/-!
# Closing a store and loading it again

Every operation marks the keys it changes, and a flush writes every marked key, so at any time the
database, read through the pending batch, agrees with the store at the keys that are not marked.
The invariant also places every entry and count in the shard that the loader will route it to, which
needs user keys without colons, and keeps every aggregate equal to the sum of its counts. After the
last flush no key is marked, and a load gives back what the store held.
-/

namespace Capacitor

variable {V : Type*}

def Composite (k : GoString) : Prop :=
  ∃ (kind : CountKind) (key nodeID : GoString), colon ∉ key ∧ k = kind.key key nodeID

/-- What a shard holds is what the loader would route to it. -/
structure Placed (i : Fin numShards) (shard : StoreShard V) : Prop where
  cache : ∀ k, shard.cache k ≠ none → colon ∉ k ∧ shardIndex k = i
  counts : ∀ k, shard.counts k ≠ none → Composite k ∧ shardIndex k = i
  windows : ∀ k, shard.windows k = none
  peerSeqs : ∀ k, shard.peerSeqs k = none
  dirty : ∀ k, shard.dirty k = true → shardIndex k = i

/-- A change of a shard that marks every key it changes. -/
structure Tracks (i : Fin numShards) (old new : StoreShard V) : Prop where
  placed : Placed i old → Placed i new
  marked : ∀ k, new.dirty k = false →
    old.dirty k = false ∧ new.cache k = old.cache k ∧ new.counts k = old.counts k

namespace Tracks

variable {i : Fin numShards} {shard shard' shard'' : StoreShard V}

theorem refl (i : Fin numShards) (shard : StoreShard V) : Tracks i shard shard :=
  ⟨id, fun _ h => ⟨h, rfl, rfl⟩⟩

theorem trans (h : Tracks i shard shard') (h' : Tracks i shard' shard'') :
    Tracks i shard shard'' := by
  refine ⟨fun hp => h'.placed (h.placed hp), ?_⟩
  intro k hk
  obtain ⟨hdirty', hcache', hcounts'⟩ := h'.marked k hk
  obtain ⟨hdirty, hcache, hcounts⟩ := h.marked k hdirty'
  exact ⟨hdirty, hcache'.trans hcache, hcounts'.trans hcounts⟩

theorem of_mark {k₀ : GoString} {cache : GoString → Option (ValWithTS V)}
    {counts totals : GoString → Option ℚ} (hi : shardIndex k₀ = i)
    (hcache : ∀ k ≠ k₀, cache k = shard.cache k) (hcounts : ∀ k ≠ k₀, counts k = shard.counts k)
    (hentry : cache k₀ = shard.cache k₀ ∨ colon ∉ k₀)
    (hcount : counts k₀ = shard.counts k₀ ∨ Composite k₀) :
    Tracks i shard { shard with
      cache := cache
      counts := counts
      aggregateCounts := totals
      dirty := Function.update shard.dirty k₀ true } := by
  constructor
  · intro h
    refine ⟨?_, ?_, h.windows, h.peerSeqs, ?_⟩
    · intro k hk
      by_cases hkk : k = k₀
      · subst k
        exact hentry.elim (fun heq => h.cache k₀ (heq ▸ hk)) (fun hfree => ⟨hfree, hi⟩)
      · exact h.cache k (hcache k hkk ▸ hk)
    · intro k hk
      by_cases hkk : k = k₀
      · subst k
        exact hcount.elim (fun heq => h.counts k₀ (heq ▸ hk)) (fun hcomposite => ⟨hcomposite, hi⟩)
      · exact h.counts k (hcounts k hkk ▸ hk)
    · intro k hk
      by_cases hkk : k = k₀
      · rw [hkk, hi]
      · simp only [Function.update_of_ne hkk] at hk
        exact h.dirty k hk
  · intro k hk
    by_cases hkk : k = k₀
    · simp [hkk] at hk
    · simp only [Function.update_of_ne hkk] at hk
      exact ⟨hk, hcache k hkk, hcounts k hkk⟩

theorem put (shard : StoreShard V) {key : GoString} (hkey : colon ∉ key) (e : ValWithTS V) :
    Tracks (shardIndex key) shard (shard.put key e) := by
  unfold StoreShard.put
  split_ifs
  · exact refl _ _
  · exact of_mark rfl (fun _ hk => Function.update_of_ne hk _ _) (fun _ _ => rfl) (Or.inr hkey)
      (Or.inl rfl)

theorem count (shard : StoreShard V) (kind : CountKind) {key : GoString} (hkey : colon ∉ key)
    (nodeID : GoString) (v : ℚ) (totals : GoString → Option ℚ) :
    Tracks (shardIndex key) shard { shard with
      counts := Function.update shard.counts (kind.key key nodeID) (some v)
      aggregateCounts := totals
      dirty := Function.update shard.dirty (kind.key key nodeID) true } :=
  of_mark (kind.shardIndex_key hkey nodeID) (fun _ _ => rfl)
    (fun _ hk => Function.update_of_ne hk _ _) (Or.inl rfl)
    (Or.inr ⟨kind, key, nodeID, hkey, rfl⟩)

theorem pruneExpiredKeys (i : Fin numShards) (shard : StoreShard V) (now : Int64) :
    Tracks i shard (shard.pruneExpiredKeys now) := by
  have hnone (k : GoString) : (shard.pruneExpiredKeys now).cache k ≠ none →
      shard.cache k ≠ none := by
    intro hk hnone
    exact hk (by simp [StoreShard.pruneExpiredKeys, hnone])
  constructor
  · intro h
    refine ⟨fun k hk => h.cache k (hnone k hk), h.counts, h.windows, h.peerSeqs, ?_⟩
    intro k hk
    rcases Bool.or_eq_true_iff.1 hk with hold | hexpired
    · exact h.dirty k hold
    · have hsome : shard.cache k ≠ none := by
        intro hnone
        simp [hnone] at hexpired
      exact (h.cache k hsome).2
  · intro k hk
    obtain ⟨hold, hkept⟩ := Bool.or_eq_false_iff.1 hk
    refine ⟨hold, ?_, rfl⟩
    cases hcache : shard.cache k with
    | none => simp [StoreShard.pruneExpiredKeys, hcache]
    | some e =>
        rw [hcache] at hkept
        have he : e.expired now = false := hkept
        simp [StoreShard.pruneExpiredKeys, hcache, Option.filter, he]

end Tracks

theorem Store.tracks_modifyShard (s : Store V) (key : GoString) (f : StoreShard V → StoreShard V)
    (hf : ∀ shard, Tracks (shardIndex key) shard (f shard)) (i : Fin numShards) :
    Tracks i (s.shards i) ((s.modifyShard key f).shards i) := by
  rw [shards_modifyShard]
  split_ifs with hi
  · subst i
    exact hf _
  · exact Tracks.refl _ _

/-- Registers, counters and metrics over keys without a colon, and the janitor's pass over the
cache. The database takes no empty key. -/
def StoreOp.Plain : StoreOp V → Prop
  | set key _ _ _ => key ≠ [] ∧ colon ∉ key
  | delete key _ => key ≠ [] ∧ colon ∉ key
  | increment key _ _ => colon ∉ key
  | setNodeCount key _ _ => colon ∉ key
  | incrementMetric key _ _ => colon ∉ key
  | pruneExpiredKeys _ _ => True
  | incrementSlidingWindow _ _ _ _ => False
  | addWindowTimestamp _ _ => False
  | updatePeerSeq _ _ => False
  | pruneStaleWindows _ _ => False

def StoreOp.ColonFree : StoreOp V → Prop
  | set key _ _ _ => colon ∉ key
  | delete key _ => colon ∉ key
  | o => o.Plain

theorem StoreOp.Plain.colonFree {o : StoreOp V} (h : o.Plain) : o.ColonFree := by
  cases o with
  | set key value ts ttl => exact h.2
  | delete key ts => exact h.2
  | _ => exact h

theorem StoreOp.tracks (s : Store V) {o : StoreOp V} (ho : o.ColonFree) (i : Fin numShards) :
    Tracks i (s.shards i) ((o.apply s).shards i) := by
  cases o with
  | set key value ts ttl =>
      exact s.tracks_modifyShard key _ (fun shard => Tracks.put shard ho _) i
  | delete key ts => exact s.tracks_modifyShard key _ (fun shard => Tracks.put shard ho _) i
  | increment key nodeID delta =>
      exact s.tracks_modifyShard key _
        (fun shard => Tracks.count shard .counter ho nodeID _ _) i
  | setNodeCount key nodeID val =>
      change Tracks i (s.shards i) ((s.setNodeCount key nodeID val).shards i)
      unfold Store.setNodeCount
      split_ifs
      · exact s.tracks_modifyShard key _
          (fun shard => Tracks.count shard .counter ho nodeID val _) i
      · exact Tracks.refl _ _
  | incrementMetric key nodeID delta =>
      exact s.tracks_modifyShard key _
        (fun shard => (Tracks.count shard .metricCount ho nodeID _ _).trans
          (Tracks.count _ .metricSum ho nodeID _ _)) i
  | pruneExpiredKeys j now =>
      change Tracks i (s.shards i) (Function.update s.shards j _ i)
      by_cases hij : i = j
      · subst i
        rw [Function.update_self]
        exact Tracks.pruneExpiredKeys _ _ now
      · rw [Function.update_of_ne hij]
        exact Tracks.refl _ _
  | incrementSlidingWindow key ts window now => exact ho.elim
  | addWindowTimestamp key ts => exact ho.elim
  | updatePeerSeq nodeID seq => exact ho.elim
  | pruneStaleWindows j now => exact ho.elim

theorem owner_key (kind : CountKind) {key : GoString} (hkey : colon ∉ key) (nodeID : GoString)
    (i : Fin numShards) : owner (i, kind.key key nodeID) = some (i, kind.aggregateTag ++ key) := by
  simp only [owner, recordKind_key, kind.loadedName_key hkey nodeID, Option.map_some]

namespace Replicated

variable {R : Replicated V}

theorem Balanced.add (h : R.Balanced) (kind : CountKind) {key : GoString} (hkey : colon ∉ key)
    (nodeID : GoString) (i : Fin numShards) (d : ℚ) :
    (R.add (i, kind.key key nodeID) (i, kind.aggregateTag ++ key) d).Balanced := by
  apply Ledger.Balanced.update h
  intro a
  simp only [Replicated.add, addTo_getD, owner_key kind hkey, Option.some.injEq,
    Rounding.round_unrounded, add_sub_cancel_left]

theorem Balanced.raise (h : R.Balanced) (kind : CountKind) {key : GoString} (hkey : colon ∉ key)
    (nodeID : GoString) (i : Fin numShards) (val : ℚ) :
    (R.raise (i, kind.key key nodeID) (i, kind.aggregateTag ++ key) val).Balanced := by
  unfold Replicated.raise
  split_ifs
  · apply Ledger.Balanced.update h
    intro a
    simp only [addTo_getD, owner_key kind hkey, Option.some.injEq, Rounding.round_unrounded]
  · exact h

end Replicated

theorem StoreOp.balanced {s : Store V} (h : s.replicated.Balanced) {o : StoreOp V}
    (ho : o.Plain) : (o.apply s).replicated.Balanced := by
  cases o with
  | set key value ts ttl =>
      change (s.modifyShard key
        (fun shard => shard.put key (Store.setEntry value ts ttl))).replicated.Balanced
      rw [Store.replicated_put]
      exact h
  | delete key ts =>
      change (s.modifyShard key
        (fun shard => shard.put key (Store.tombstone ts))).replicated.Balanced
      rw [Store.replicated_put]
      exact h
  | increment key nodeID delta =>
      change (s.increment key nodeID delta).1.replicated.Balanced
      rw [Store.replicated_increment]
      exact h.add .counter ho nodeID _ delta
  | setNodeCount key nodeID val =>
      change (s.setNodeCount key nodeID val).replicated.Balanced
      rw [Store.replicated_setNodeCount]
      exact h.raise .counter ho nodeID _ val
  | incrementMetric key nodeID delta =>
      change (s.incrementMetric key nodeID delta).1.replicated.Balanced
      rw [Store.replicated_incrementMetric]
      exact (h.add .metricCount ho nodeID _ 1).add .metricSum ho nodeID _ delta
  | pruneExpiredKeys i now =>
      have hframe {α : Type _} (view : StoreShard V → GoString → α)
          (hview : view ((s.shards i).pruneExpiredKeys now) = view (s.shards i)) :
          Store.flatten view (s.pruneExpiredKeys i now) = Store.flatten view s := by
        funext p
        change view (Function.update s.shards i _ p.1) p.2 = view (s.shards p.1) p.2
        by_cases hp : p.1 = i
        · rw [hp, Function.update_self, hview]
        · rw [Function.update_of_ne hp]
      change Ledger.Balanced owner (Store.flatten StoreShard.counts (s.pruneExpiredKeys i now))
        (Store.flatten StoreShard.aggregateCounts (s.pruneExpiredKeys i now))
      rw [hframe StoreShard.counts rfl, hframe StoreShard.aggregateCounts rfl]
      exact h
  | incrementSlidingWindow key ts window now => exact ho.elim
  | addWindowTimestamp key ts => exact ho.elim
  | updatePeerSeq nodeID seq => exact ho.elim
  | pruneStaleWindows i now => exact ho.elim

section Records

variable (c : DiskCodec V) (restart : Int64)

/-- The record a flush at the reading `now` gives a key, or `none` for a deletion. -/
def StoreShard.record (shard : StoreShard V) (k : GoString) (now : Int64) : Option Record :=
  match shard.cache k with
  | some v => c.entryRecord v now
  | none => (shard.counts k).map (fun n => ⟨c.float64ToBytes n, none⟩)

/-- The record of an entry is the entry itself, unless its time is over before the restart. -/
def Kept (v : ValWithTS V) (o : Option Record) : Prop :=
  if v.expiresAt > 0 then
    o = some ⟨c.marshal v, some v.expiresAt⟩ ∨ o = none ∧ v.expiresAt ≤ restart
  else o = some ⟨c.marshal v, none⟩

/-- The record of a key agrees with the shard. -/
def Recorded (shard : StoreShard V) (k : GoString) (o : Option Record) : Prop :=
  match shard.cache k with
  | some v => Kept c restart v o
  | none => o = (shard.counts k).map (fun n => ⟨c.float64ToBytes n, none⟩)

variable {c restart}

theorem Recorded.congr {shard shard' : StoreShard V} {k : GoString} {o : Option Record}
    (h : Recorded c restart shard k o) (hcache : shard'.cache k = shard.cache k)
    (hcounts : shard'.counts k = shard.counts k) : Recorded c restart shard' k o := by
  unfold Recorded at h ⊢
  rw [hcache, hcounts]
  exact h

/-- What is recorded of the keys that are not marked stays right through an operation. -/
theorem StoreOp.recorded {s : Store V} {o : StoreOp V} (ho : o.ColonFree) {db : Database}
    (h : ∀ k, (s.getShard k).dirty k = false → Recorded c restart (s.getShard k) k db[k]?)
    (k : GoString) (hk : ((o.apply s).getShard k).dirty k = false) :
    Recorded c restart ((o.apply s).getShard k) k db[k]? := by
  obtain ⟨hdirty, hcache, hcounts⟩ := (o.tracks s ho (shardIndex k)).marked k hk
  exact (h k hdirty).congr hcache hcounts

theorem kept_entryRecord (v : ValWithTS V) {now : Int64}
    (hnow : v.expiresAt > 0 → 0 ≤ now ∧ now ≤ restart) :
    Kept c restart v (c.entryRecord v now) := by
  unfold Kept DiskCodec.entryRecord
  split_ifs with hexpires hremaining
  · left
    rw [Int64.add_comm, Int64.sub_add_cancel]
  · right
    refine ⟨rfl, ?_⟩
    obtain ⟨hnow, hrestart⟩ := hnow hexpires
    rw [Int64.le_iff_toInt_le] at hnow hrestart ⊢
    have hpos : 0 < v.expiresAt.toInt := Int64.lt_iff_toInt_lt.1 hexpires
    have hsub : ¬ 0 < (v.expiresAt - now).toInt := fun h => hremaining (Int64.lt_iff_toInt_lt.2 h)
    have hbound := v.expiresAt.toInt_lt
    have hbound' := now.toInt_lt
    have hzero : (0 : Int64).toInt = 0 := rfl
    rw [Int64.toInt_sub, Int.bmod_eq_of_le (by omega) (by omega)] at hsub
    omega
  · rfl

theorem recorded_record (shard : StoreShard V) (k : GoString) {now : Int64}
    (hnow : ∀ x, shard.cache k = some x → x.expiresAt > 0 → 0 ≤ now ∧ now ≤ restart) :
    Recorded c restart shard k (shard.record c k now) := by
  unfold Recorded StoreShard.record
  cases hcache : shard.cache k with
  | some v => exact kept_entryRecord v (hnow v hcache)
  | none => rfl

theorem not_isPrefixOf_composite {k : GoString} (hk : Composite k) :
    (bytes "meta:seq:").isPrefixOf k = false := by
  obtain ⟨kind, key, nodeID, _, rfl⟩ := hk
  cases kind <;> rfl

theorem Placed.writes_snapshotItem {i : Fin numShards} {shard : StoreShard V}
    (h : Placed i shard) (k : GoString) (now : Int64) :
    (shard.snapshotItem k).writes c now = [(k, shard.record c k now)] := by
  unfold StoreShard.snapshotItem StoreShard.record
  cases hcache : shard.cache k with
  | some v =>
      have hkey := (h.cache k (by simp [hcache])).1
      have hno := isPrefixOf_of_not_mem (by decide : colon ∈ bytes "meta:seq:") hkey
      simp [SnapshotItem.writes, hno]
  | none =>
      cases hcounts : shard.counts k with
      | some n =>
          have hno := not_isPrefixOf_composite (h.counts k (by simp [hcounts])).1
          simp [SnapshotItem.writes, hno]
      | none => simp [SnapshotItem.writes, h.windows, h.peerSeqs]

end Records

/-- The readings that a flush makes, one for each entry with a time to live, are no later than
`restart`. -/
def Disk.Reads (d : Disk V) (restart : Int64) (i : Fin numShards) (order : List GoString)
    (now : GoString → Int64) : Prop :=
  ∀ k ∈ order, ∀ x, (d.store.shards i).cache k = some x → x.expiresAt > 0 →
    0 ≤ now k ∧ now k ≤ restart

theorem Disk.Reads.flushShard {c : DiskCodec V} {d : Disk V} {restart : Int64}
    {i j : Fin numShards} {order order' : List GoString} {now now' : GoString → Int64}
    (h : d.Reads restart j order' now') :
    (d.flushShard c i order now).Reads restart j order' now' := by
  intro k hk x hx
  apply h k hk x
  rw [Disk.shards_flushShard] at hx
  split_ifs at hx <;> exact hx

/-- A step of a run that ends before the reading `restart` of a clock that does not go back. -/
def Legal (restart : Int64) (d : Disk V) : DiskAction V → Prop
  | .op o => o.Plain
  | .flushShard i order now => d.Ranges i order ∧ d.Reads restart i order now
  | .commit => True

structure Persisted (c : DiskCodec V) (restart : Int64) (d : Disk V) : Prop where
  placed : ∀ i, Placed i (d.store.shards i)
  clean : ∀ k, (d.store.getShard k).dirty k = false →
    Recorded c restart (d.store.getShard k) k d.written[k]?
  balanced : d.store.replicated.Balanced

namespace Persisted

variable {c : DiskCodec V} {restart : Int64} {d d' : Disk V}

theorem empty : Persisted c restart (Disk.empty : Disk V) where
  placed i :=
    ⟨fun k hk => absurd rfl hk, fun k hk => absurd rfl hk, fun _ => rfl, fun _ => rfl,
      fun k hk => by cases hk⟩
  clean k _ := by
    change ((∅ : Database))[k]? = none
    exact Std.TreeMap.getElem?_emptyc
  balanced := balanced_newStore

theorem op (h : Persisted c restart d) {o : StoreOp V} (ho : o.Plain) :
    Persisted c restart { d with store := o.apply d.store } where
  placed i := (o.tracks d.store ho.colonFree i).placed (h.placed i)
  clean := StoreOp.recorded ho.colonFree h.clean
  balanced := StoreOp.balanced h.balanced ho

theorem commit (h : Persisted c restart d) : Persisted c restart d.commit :=
  ⟨h.placed, h.clean, h.balanced⟩

theorem written_flushShard (h : Persisted c restart d) (i : Fin numShards) (order : List GoString)
    (now : GoString → Int64) :
    (d.flushShard c i order now).written = WriteBatch.commit d.written
      (order.map (fun k => (k, (d.store.shards i).record c k (now k)))) := by
  have hwrites : order.flatMap (fun k => ((d.store.shards i).snapshotItem k).writes c (now k)) =
      order.map (fun k => (k, (d.store.shards i).record c k (now k))) := by
    simp only [(h.placed i).writes_snapshotItem]
    exact List.map_eq_flatMap.symm
  unfold Disk.written Disk.flushShard
  rw [WriteBatch.commit_append, hwrites]

theorem flushShard (h : Persisted c restart d) {i : Fin numShards} {order : List GoString}
    {now : GoString → Int64} (hranges : d.Ranges i order)
    (hreads : d.Reads restart i order now) :
    Persisted c restart (d.flushShard c i order now) := by
  constructor
  · intro j
    rw [Disk.shards_flushShard]
    split_ifs
    · exact ⟨(h.placed j).cache, (h.placed j).counts, (h.placed j).windows, (h.placed j).peerSeqs,
        fun k hk => by cases hk⟩
    · exact h.placed j
  · intro k hk
    rw [h.written_flushShard, WriteBatch.getElem?_commit_map]
    have hcache : ((d.flushShard c i order now).store.getShard k).cache k =
        (d.store.getShard k).cache k := by
      unfold Store.getShard
      rw [Disk.shards_flushShard]
      split_ifs <;> rfl
    have hcounts : ((d.flushShard c i order now).store.getShard k).counts k =
        (d.store.getShard k).counts k := by
      unfold Store.getShard
      rw [Disk.shards_flushShard]
      split_ifs <;> rfl
    split_ifs with hmem
    · have hi : shardIndex k = i := (h.placed i).dirty k ((hranges k).1 hmem)
      subst i
      exact (recorded_record (d.store.getShard k) k (hreads k hmem)).congr hcache hcounts
    · have hclean : (d.store.getShard k).dirty k = false := by
        by_cases hi : shardIndex k = i
        · subst i
          exact Bool.eq_false_iff.2 (fun hdirty => hmem ((hranges k).2 hdirty))
        · unfold Store.getShard at hk
          rwa [Disk.shards_flushShard, if_neg hi] at hk
      exact (h.clean k hclean).congr hcache hcounts
  · rw [Disk.replicated_flushShard]
    exact h.balanced

theorem step (h : Persisted c restart d) {a : DiskAction V} (ha : Legal restart d a)
    (hstep : d.step c a = some d') : Persisted c restart d' := by
  cases a with
  | op o =>
      obtain rfl := Option.some.inj hstep
      exact h.op ha
  | flushShard i order now =>
      obtain rfl := Option.some.inj hstep
      exact h.flushShard ha.1 ha.2
  | commit =>
      obtain rfl := Option.some.inj hstep
      exact h.commit

theorem recorded_close (h : Persisted c restart d) {orders : Fin numShards → List GoString}
    {now : Fin numShards → GoString → Int64} (hranges : ∀ i, d.Ranges i (orders i))
    (hreads : ∀ i, d.Reads restart i (orders i) (now i)) (k : GoString) :
    Recorded c restart (d.store.getShard k) k (d.close c orders now).db[k]? := by
  have hflushed : Persisted c restart (d.flushShards c orders now (List.finRange numShards)) ∧
      ∀ i, (d.flushShards c orders now (List.finRange numShards)).Reads restart i (orders i)
        (now i) := by
    apply Disk.flushShards_invariant
      (P := fun d => Persisted c restart d ∧ ∀ i, d.Reads restart i (orders i) (now i))
      (List.nodup_finRange _) _ ⟨h, hreads⟩ (fun i _ => hranges i)
    rintro d i _ ⟨hd, hreads⟩ hrange
    exact ⟨hd.flushShard hrange (hreads i), fun j => (hreads j).flushShard⟩
  have hclosed : Persisted c restart (d.close c orders now) := hflushed.1.commit
  have hshard : (d.close c orders now).store.getShard k =
      { d.store.getShard k with dirty := fun _ => false } := d.shards_close c orders now _
  have hrecorded := hclosed.clean k (by rw [hshard])
  rw [hshard, Disk.written_close] at hrecorded
  exact hrecorded

end Persisted

/-- A database that records a store, and the iteration of it at a restart. -/
structure Reloads (c : DiskCodec V) (restart : Int64) (s : Store V) (db : Database)
    (now : GoString → Int64) (items : List (GoString × Record)) : Prop where
  placed : ∀ i, Placed i (s.shards i)
  balanced : s.replicated.Balanced
  recorded : ∀ k, Recorded c restart (s.getShard k) k db[k]?
  visible : Visible db now items
  counts : ∀ p v, s.replicated.counts p = some v → c.float64FromBytes (c.float64ToBytes v) = v

namespace Reloads

variable {c : DiskCodec V} {restart : Int64} {s : Store V} {db : Database}
  {now : GoString → Int64} {items : List (GoString × Record)}

theorem slot_of_cache (h : Reloads c restart s db now items) {p : Fin numShards × GoString}
    (hp : s.replicated.cache p ≠ none) : colon ∉ p.2 ∧ Store.slot p.2 = p := by
  obtain ⟨hkey, hi⟩ := (h.placed p.1).cache p.2 hp
  refine ⟨hkey, ?_⟩
  unfold Store.slot
  rw [hi]

theorem slot_of_counts (h : Reloads c restart s db now items) {p : Fin numShards × GoString}
    (hp : s.replicated.counts p ≠ none) : Composite p.2 ∧ Store.slot p.2 = p := by
  obtain ⟨hkey, hi⟩ := (h.placed p.1).counts p.2 hp
  refine ⟨hkey, ?_⟩
  unfold Store.slot
  rw [hi]

theorem mem_cases (h : Reloads c restart s db now items) {w : GoString × Record}
    (hw : w ∈ items) :
    (∃ x, s.replicated.cache (Store.slot w.1) = some x ∧ recordKind w.1 = .entry ∧
        w.2.data = c.marshal x) ∨
      ∃ v kind, s.replicated.counts (Store.slot w.1) = some v ∧ recordKind w.1 = .count kind ∧
        w.2.data = c.float64ToBytes v := by
  have hrecorded := h.recorded w.1
  rw [h.visible.getElem?_of_mem hw] at hrecorded
  unfold Recorded at hrecorded
  cases hcache : (s.getShard w.1).cache w.1 with
  | some x =>
      rw [hcache] at hrecorded
      have hkey := (h.slot_of_cache (p := Store.slot w.1) (by
        change (s.getShard w.1).cache w.1 ≠ none
        simp [hcache])).1
      refine Or.inl ⟨x, hcache, recordKind_of_not_mem hkey, ?_⟩
      dsimp only at hrecorded
      unfold Kept at hrecorded
      split_ifs at hrecorded
      · rcases hrecorded with hsome | ⟨hnone, _⟩
        · rw [Option.some.inj hsome]
        · cases hnone
      · rw [Option.some.inj hrecorded]
  | none =>
      rw [hcache] at hrecorded
      obtain ⟨v, hv, hrecord⟩ := Option.map_eq_some_iff.1 hrecorded.symm
      obtain ⟨⟨kind, key, nodeID, _, hcomposite⟩, _⟩ := h.slot_of_counts (p := Store.slot w.1) (by
        change (s.getShard w.1).counts w.1 ≠ none
        simp [hv])
      refine Or.inr ⟨v, kind, hv, ?_, ?_⟩
      · change w.1 = kind.key key nodeID at hcomposite
        rw [hcomposite, recordKind_key]
      · rw [← hrecord]

theorem load_eq (h : Reloads c restart s db now items) :
    Store.load c now items = some (items.foldl (Store.loadRecord c now) Store.newStore) := by
  apply if_neg
  rintro ⟨w, hw, hmark, _⟩
  have hkind : recordKind w.1 = .watermark := if_pos hmark
  rcases h.mem_cases hw with ⟨x, _, hentry, _⟩ | ⟨v, kind, _, hcount, _⟩
  · rw [hkind] at hentry
    cases hentry
  · rw [hkind] at hcount
    cases hcount

theorem counts_eq (h : Reloads c restart s db now items) :
    (items.foldl (Store.loadRecord c now) Store.newStore).replicated.counts =
      s.replicated.counts := by
  funext p
  apply Option.ext
  intro v
  have hload := flatten_foldl_loadRecord (counts_loadRecord c now) (fun _ => rfl)
    h.visible.distinct p v
  refine hload.trans ⟨?_, ?_⟩
  · rintro ⟨w, hw, rfl, hloaded⟩
    rcases h.mem_cases hw with ⟨x, _, hentry, _⟩ | ⟨n, kind, hn, hcount, hdata⟩
    · simp [loadedCount, hentry] at hloaded
    · simp only [loadedCount, hcount, hdata, h.counts _ n hn, Option.some.injEq] at hloaded
      rw [hn, hloaded]
  · intro hv
    obtain ⟨⟨kind, key, nodeID, _, hcomposite⟩, hslot⟩ := h.slot_of_counts (p := p) (by simp [hv])
    have hcache : (s.getShard p.2).cache p.2 = none := by
      by_contra hne
      have hkey := (h.slot_of_cache (p := Store.slot p.2) hne).1
      change colon ∉ p.2 at hkey
      rw [hcomposite] at hkey
      exact hkey (kind.colon_mem_key key nodeID)
    have hcounts : (s.getShard p.2).counts p.2 = some v := by
      rw [← hslot] at hv
      exact hv
    have hrecorded := h.recorded p.2
    simp only [Recorded, hcache, hcounts, Option.map_some] at hrecorded
    refine ⟨(p.2, ⟨c.float64ToBytes v, none⟩), h.visible.met _ _ hrecorded (by simp), hslot, ?_⟩
    have hkind : recordKind p.2 = .count kind := by rw [hcomposite, recordKind_key]
    simp only [loadedCount, hkind, h.counts p v hv]

theorem aggregateCounts_eq (h : Reloads c restart s db now items) (p : Fin numShards × GoString) :
    ((items.foldl (Store.loadRecord c now) Store.newStore).replicated.aggregateCounts p).getD 0 =
      (s.replicated.aggregateCounts p).getD 0 := by
  have hloaded : (items.foldl (Store.loadRecord c now) Store.newStore).replicated.Balanced :=
    Store.balanced_foldl_loadRecord c now balanced_newStore h.visible.distinct (fun _ _ => rfl)
  unfold Replicated.Balanced at hloaded
  rw [h.counts_eq] at hloaded
  exact hloaded.totals_eq h.balanced p

theorem getNodeCount_eq (h : Reloads c restart s db now items) (key nodeID : GoString) :
    (items.foldl (Store.loadRecord c now) Store.newStore).getNodeCount key nodeID =
      s.getNodeCount key nodeID := by
  rw [Store.getNodeCount_eq, Store.getNodeCount_eq, h.counts_eq]

theorem getAggregateCount_eq (h : Reloads c restart s db now items) (key : GoString) :
    (items.foldl (Store.loadRecord c now) Store.newStore).getAggregateCount key =
      s.getAggregateCount key := by
  rw [Store.getAggregateCount_eq, Store.getAggregateCount_eq, h.aggregateCounts_eq]

theorem getAggregateMetric_eq (h : Reloads c restart s db now items) (key : GoString) :
    (items.foldl (Store.loadRecord c now) Store.newStore).getAggregateMetric key =
      s.getAggregateMetric key := by
  rw [Store.getAggregateMetric_eq, Store.getAggregateMetric_eq, h.aggregateCounts_eq,
    h.aggregateCounts_eq]

theorem cache_of_loaded (h : Reloads c restart s db now items)
    (hentries : ∀ p x, s.replicated.cache p = some x → c.unmarshal (c.marshal x) = some x)
    {p : Fin numShards × GoString} {x : ValWithTS V}
    (hx : (items.foldl (Store.loadRecord c now) Store.newStore).replicated.cache p = some x) :
    s.replicated.cache p = some x := by
  have hload := flatten_foldl_loadRecord (cache_loadRecord c now) (fun _ => rfl)
    h.visible.distinct p x
  obtain ⟨w, hw, rfl, hloaded⟩ := hload.1 hx
  rcases h.mem_cases hw with ⟨y, hy, hentry, hdata⟩ | ⟨v, kind, _, hcount, _⟩
  · simp only [loadedEntry, hentry, hdata, hentries _ y hy] at hloaded
    rw [hy]
    exact congrArg some (Option.some.inj (Option.filter_eq_some_iff.1 hloaded).1)
  · simp [loadedEntry, hcount] at hloaded

theorem loaded_of_cache (h : Reloads c restart s db now items)
    (hentries : ∀ p x, s.replicated.cache p = some x → c.unmarshal (c.marshal x) = some x)
    {k : GoString} (hlater : restart ≤ now k) {x : ValWithTS V}
    (hx : s.replicated.cache (Store.slot k) = some x)
    (hlives : x.expiresAt > 0 → now k < x.expiresAt) :
    (items.foldl (Store.loadRecord c now) Store.newStore).replicated.cache (Store.slot k) =
      some x := by
  have hcache : (s.getShard k).cache k = some x := hx
  have hkey : colon ∉ k := (h.slot_of_cache (p := Store.slot k) (by simp [hx])).1
  have hrecord : ∃ r, db[k]? = some r ∧ r.data = c.marshal x ∧ ∀ e ∈ r.expiresAt, now k < e := by
    have hrecorded := h.recorded k
    simp only [Recorded, hcache, Kept] at hrecorded
    split_ifs at hrecorded with hexpires
    · rcases hrecorded with hsome | ⟨_, hover⟩
      · exact ⟨_, hsome, rfl, by simpa using hlives hexpires⟩
      · exact absurd (hlives hexpires) (Int64.not_lt.2 (Int64.le_trans hover hlater))
    · exact ⟨_, hrecorded, rfl, by simp⟩
  obtain ⟨r, hr, hdata, hmet⟩ := hrecord
  have hload := flatten_foldl_loadRecord (cache_loadRecord c now) (fun _ => rfl)
    h.visible.distinct (Store.slot k) x
  refine hload.2 ⟨(k, r), h.visible.met k r hr hmet, rfl, ?_⟩
  have hfresh : x.expired (now k) = false := by
    unfold ValWithTS.expired
    rw [Bool.and_eq_false_imp]
    intro hexpires
    exact decide_eq_false (Int64.not_lt.2 (Int64.le_of_lt (hlives (of_decide_eq_true hexpires))))
  simp [loadedEntry, recordKind_of_not_mem hkey, hdata, hentries _ x hx, Option.filter, hfresh]

theorem live_eq (h : Reloads c restart s db now items)
    (hentries : ∀ p x, s.replicated.cache p = some x → c.unmarshal (c.marshal x) = some x)
    (k : GoString) (hlater : restart ≤ now k) {t : Int64} (ht : now k ≤ t)
    (hother : ∀ x, s.replicated.cache (Store.slot k) = some x → t ≠ x.expiresAt) :
    ((items.foldl (Store.loadRecord c now) Store.newStore).replicated.cache
        (Store.slot k)).filter (fun x => Store.live x t) =
      (s.replicated.cache (Store.slot k)).filter (fun x => Store.live x t) := by
  cases hloaded : (items.foldl (Store.loadRecord c now) Store.newStore).replicated.cache
      (Store.slot k) with
  | some x => rw [h.cache_of_loaded hentries hloaded]
  | none =>
      cases hcache : s.replicated.cache (Store.slot k) with
      | none => rfl
      | some x =>
          have hover : ¬ (x.expiresAt > 0 → now k < x.expiresAt) := by
            intro hlives
            rw [h.loaded_of_cache hentries hlater hcache hlives] at hloaded
            cases hloaded
          push Not at hover
          obtain ⟨hexpires, hle⟩ := hover
          have hdead : t > x.expiresAt := by
            have hne := hother x hcache
            have hge := Int64.le_trans (Int64.not_lt.1 hle) ht
            rw [gt_iff_lt, Int64.lt_iff_le_and_ne]
            exact ⟨hge, hne.symm⟩
          simp [Option.filter, Store.live, hexpires, hdead]

end Reloads

section Restart

variable (c : DiskCodec V) (as : List (DiskAction V)) (d : Disk V)
  (orders : Fin numShards → List GoString) (flushed : Fin numShards → GoString → Int64)
  (now : GoString → Int64) (items : List (GoString × Record))

/-- A store over keys without colons that is closed and opened again gives the same counts and
aggregates, and serves the same values at every instant but the one at which an entry expires. -/
theorem reload_agrees (restart : Int64)
    (hrun : StepSystem.run (Disk.step c) Disk.empty as = some d)
    (hlegal : StepSystem.Along (Disk.step c) (Legal restart) Disk.empty as)
    (hranges : ∀ i, d.Ranges i (orders i)) (hreads : ∀ i, d.Reads restart i (orders i) (flushed i))
    (hentries : ∀ p x, d.store.replicated.cache p = some x → c.unmarshal (c.marshal x) = some x)
    (hcounts : ∀ p v, d.store.replicated.counts p = some v →
      c.float64FromBytes (c.float64ToBytes v) = v)
    (hlater : ∀ k, restart ≤ now k) (hvisible : Visible (d.close c orders flushed).db now items) :
    ∃ s, Store.load c now items = some s ∧
      (∀ key nodeID, s.getNodeCount key nodeID = d.store.getNodeCount key nodeID) ∧
      (∀ key, s.getAggregateCount key = d.store.getAggregateCount key) ∧
      (∀ key, s.getAggregateMetric key = d.store.getAggregateMetric key) ∧
      ∀ key t, now key ≤ t →
        (∀ x, d.store.replicated.cache (Store.slot key) = some x → t ≠ x.expiresAt) →
        s.get key t = d.store.get key t ∧ s.exists? key t = d.store.exists? key t := by
  have hpersisted : Persisted c restart d := StepSystem.run_invariant_along
    (fun _ _ _ hd ha hstep => hd.step ha hstep) Persisted.empty hlegal hrun
  have h : Reloads c restart d.store (d.close c orders flushed).db now items :=
    ⟨hpersisted.placed, hpersisted.balanced, hpersisted.recorded_close hranges hreads, hvisible,
      hcounts⟩
  refine ⟨_, h.load_eq, h.getNodeCount_eq, h.getAggregateCount_eq, h.getAggregateMetric_eq, ?_⟩
  intro key t ht hother
  have hlive := h.live_eq hentries key (hlater key) ht hother
  rw [Store.get_eq, Store.get_eq, Store.exists?_eq, Store.exists?_eq, hlive]
  exact ⟨rfl, rfl⟩

end Restart

def smallDisk : Disk UInt8 :=
  ⟨((Store.newStore.set (bytes "k") (some 7) ⟨1000, 0⟩ 500).increment (bytes "n") (bytes "a") 2).1,
    ∅, []⟩

def smallOrders (i : Fin numShards) : List GoString :=
  if i = shardIndex (bytes "k") then [bytes "k"]
  else if i = shardIndex (bytes "n") then [counterKey (bytes "n") (bytes "a")]
  else []

theorem ranges_small (i : Fin numShards) : smallDisk.Ranges i (smallOrders i) := by
  have hdirty : Store.flatten StoreShard.dirty smallDisk.store =
      Function.update (Function.update (fun _ => false) (Store.slot (bytes "k")) true)
        (Store.countSlot (bytes "n") (bytes "a")) true := by
    unfold smallDisk
    rw [Store.dirty_increment, Store.dirty_set _ _ _ _ rfl]
    rfl
  have hne : shardIndex (bytes "k") ≠ shardIndex (bytes "n") := by decide
  intro k
  have hk : (smallDisk.store.shards i).dirty k = _ := congrFun hdirty (i, k)
  rw [hk]
  unfold smallOrders
  simp only [Function.update_apply, Store.slot, Store.countSlot, Prod.mk.injEq]
  split_ifs <;> simp_all

theorem reload_agrees_small :
    ∃ s, Store.load byteCodec (fun _ => 1200)
        (smallDisk.close byteCodec smallOrders (fun _ _ => 1100)).db.toList = some s ∧
      s.getNodeCount (bytes "n") (bytes "a") = 2 ∧ s.getAggregateCount (bytes "n") = 2 ∧
      s.get (bytes "k") 1300 = some 7 ∧ s.get (bytes "k") 1501 = none := by
  have hreplicated : smallDisk.store.replicated =
      (Store.newStore.replicated.put (Store.slot (bytes "k"))
        ⟨some 7, ⟨1000, 0⟩, 1500, false⟩).add (Store.countSlot (bytes "n") (bytes "a"))
        (Store.slot (bytes "n")) 2 := by
    unfold smallDisk
    rw [Store.replicated_increment]
    congr 1
    exact Store.newStore.replicated_put (bytes "k") (Store.setEntry (some 7) ⟨1000, 0⟩ 500)
  have hcache (p x) (hx : smallDisk.store.replicated.cache p = some x) :
      x = ⟨some 7, ⟨1000, 0⟩, 1500, false⟩ := by
    rw [hreplicated] at hx
    change LastWriter.write ValWithTS.timestamp Store.newStore.replicated.cache _ _ p = some x at hx
    rcases LastWriter.eq_some_of_write _ hx with hold | ⟨_, heq⟩
    · cases hold
    · exact heq
  have hcounts (p v) (hv : smallDisk.store.replicated.counts p = some v) : v = 2 := by
    rw [hreplicated] at hv
    change Function.update (fun _ => none) _ (some (0 + 2)) p = some v at hv
    rw [Function.update_apply, zero_add] at hv
    split_ifs at hv
    exact (Option.some.inj hv).symm
  obtain ⟨s, hload, hnode, haggregate, _, hget⟩ := reload_agrees byteCodec
    [.op (.set (bytes "k") (some 7) ⟨1000, 0⟩ 500), .op (.increment (bytes "n") (bytes "a") 2)]
    smallDisk smallOrders (fun _ _ => 1100) (fun _ => 1200) _ 1150 rfl
    ⟨show bytes "k" ≠ [] ∧ colon ∉ bytes "k" by decide, show colon ∉ bytes "n" by decide, trivial⟩
    ranges_small
    (fun _ _ _ _ _ _ => show (0 : Int64) ≤ 1100 ∧ (1100 : Int64) ≤ 1150 by decide)
    (fun p x hx => by rw [hcache p x hx]; decide +kernel)
    (fun p v hv => by rw [hcounts p v hv]; decide +kernel)
    (fun _ => by decide) (Visible.toList _ _)
  refine ⟨s, hload, ?_, ?_, ?_, ?_⟩
  · rw [hnode]
    decide +kernel
  · rw [haggregate]
    decide +kernel
  · rw [(hget (bytes "k") 1300 (by decide) (fun x hx => by rw [hcache _ x hx]; decide)).1]
    decide +kernel
  · rw [(hget (bytes "k") 1501 (by decide) (fun x hx => by rw [hcache _ x hx]; decide)).1]
    decide +kernel

end Capacitor
