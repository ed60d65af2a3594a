import Capacitor.CounterCluster
import Capacitor.Reload
import Capacitor.Entries

/-!
# Stores that hold counts

What a node keeps that takes part in counters only: counts of the nodes of the cluster under keys
without a colon, and watermarks. A flush of such a store writes the records of counts and nothing
else, and a load of these records gives the counts back, each aggregate being the sum of its counts.
-/

namespace Capacitor

open Store

variable {ι V : Type*}

/-- The operations of counters, on behalf of the nodes of a cluster. -/
def StoreOp.Counted (nodeID : ι → GoString) : StoreOp V → Prop
  | .increment key n delta => colon ∉ key ∧ (∃ j, n = nodeID j) ∧ 0 ≤ delta
  | .setNodeCount key n _ => colon ∉ key ∧ ∃ j, n = nodeID j
  | .updatePeerSeq n _ => colon ∉ n
  | _ => False

/-- A store that counters and their replication have used: it holds counts of the nodes of the
cluster, and marks no name without a colon. -/
structure CountStore (nodeID : ι → GoString) (s : Store V) : Prop where
  cache : ∀ i k, (s.shards i).cache k = none
  windows : ∀ i k, (s.shards i).windows k = none
  peerSeqs : ∀ i k, (s.shards i).peerSeqs k ≠ none → colon ∉ k
  dirty : ∀ i k, (s.shards i).dirty k = true → colon ∈ k
  counts : ∀ p, s.replicated.counts p ≠ none → ∃ key j, colon ∉ key ∧ p = countSlot key (nodeID j)
  balanced : s.replicated.Balanced

namespace CountStore

variable {nodeID : ι → GoString} {s : Store V}

theorem newStore : CountStore nodeID (Store.newStore : Store V) where
  cache _ _ := rfl
  windows _ _ := rfl
  peerSeqs _ _ h := absurd rfl h
  dirty _ _ h := by cases h
  counts _ h := absurd rfl h
  balanced := balanced_newStore

theorem shards_op (h : CountStore nodeID s) (o : StoreOp V) (hcache : o.changes ≠ .cache)
    (hwindows : o.changes ≠ .windows)
    (hpeerSeqs : ∀ (shard : StoreShard V) k, (o.onShard shard).peerSeqs k ≠ none →
      shard.peerSeqs k ≠ none ∨ colon ∉ k)
    (hnames : ∀ k ∈ o.names, colon ∈ k)
    (hcounts : ∀ p, (o.apply s).replicated.counts p ≠ none →
      s.replicated.counts p ≠ none ∨ ∃ key j, colon ∉ key ∧ p = countSlot key (nodeID j))
    (hbalanced : (o.apply s).replicated.Balanced) : CountStore nodeID (o.apply s) := by
  constructor
  case cache =>
    intro i k
    rw [o.shards_apply]
    split_ifs
    · rw [(o.sameBut_onShard _).cache hcache, h.cache]
    · exact h.cache i k
  case windows =>
    intro i k
    rw [o.shards_apply]
    split_ifs
    · rw [(o.sameBut_onShard _).windows hwindows, h.windows]
    · exact h.windows i k
  case peerSeqs =>
    intro i k hk
    rw [o.shards_apply] at hk
    split_ifs at hk
    · exact (hpeerSeqs _ k hk).elim (h.peerSeqs i k) id
    · exact h.peerSeqs i k hk
  case dirty =>
    intro i k hk
    rw [o.shards_apply] at hk
    split_ifs at hk
    · by_cases hname : k ∈ o.names
      · exact hnames k hname
      · rw [StoreOp.dirty_onShard_of_not_mem hname (h.cache i k)] at hk
        exact h.dirty i k hk
    · exact h.dirty i k hk
  case counts => exact fun p hp => (hcounts p hp).elim (h.counts p) id
  case balanced => exact hbalanced

theorem colon_mem_counterKey (key n : GoString) : colon ∈ counterKey key n :=
  CountKind.counter.colon_mem_key key n

theorem op (h : CountStore nodeID s) {o : StoreOp V} (ho : o.Counted nodeID) :
    CountStore nodeID (o.apply s) := by
  cases o with
  | increment key n delta =>
      obtain ⟨hkey, ⟨j, rfl⟩, -⟩ := ho
      refine h.shards_op _ (by simp) (by simp) (fun _ _ hk => Or.inl hk) ?_ ?_
        (StoreOp.balanced h.balanced hkey)
      · exact List.forall_mem_singleton.2 (colon_mem_counterKey key _)
      · intro p hp
        change (s.increment key (nodeID j) delta).1.replicated.counts p ≠ none at hp
        rw [replicated_increment] at hp
        exact (update_cases (P := (· ≠ none)) hp).imp_right (fun heq => ⟨key, j, hkey, heq⟩)
  | setNodeCount key n val =>
      obtain ⟨hkey, j, rfl⟩ := ho
      refine h.shards_op _ (by simp) (by simp) ?_ ?_ ?_ (StoreOp.balanced h.balanced hkey)
      · intro shard k hk
        have hsame := (StoreOp.setNodeCount key (nodeID j) val).sameBut_onShard shard
        rw [hsame.peerSeqs (by simp)] at hk
        exact Or.inl hk
      · exact List.forall_mem_singleton.2 (colon_mem_counterKey key _)
      · intro p hp
        change (s.setNodeCount key (nodeID j) val).replicated.counts p ≠ none at hp
        rw [replicated_setNodeCount, Replicated.raise] at hp
        split_ifs at hp
        · exact (update_cases (P := (· ≠ none)) hp).imp_right (fun heq => ⟨key, j, hkey, heq⟩)
        · exact Or.inl hp
  | updatePeerSeq n seq =>
      have hreplicated : ((StoreOp.updatePeerSeq n seq).apply s).replicated = s.replicated :=
        replicated_updatePeerSeq s n seq
      refine h.shards_op _ (by simp) (by simp) ?_ ?_ ?_ (hreplicated ▸ h.balanced)
      · intro shard k hk
        simp only [StoreOp.onShard] at hk
        split_ifs at hk
        · rcases update_cases (P := (· ≠ none)) hk with hold | rfl
          · exact Or.inl hold
          · exact Or.inr ho
        · exact Or.inl hk
      · exact List.forall_mem_singleton.2 (List.mem_append_left n (by decide))
      · intro p hp
        rw [hreplicated] at hp
        exact Or.inl hp
  | _ => exact ho.elim

theorem getNodeCount_le_apply {o : StoreOp V} (ho : o.Counted nodeID) (s : Store V)
    (key n : GoString) : s.getNodeCount key n ≤ (o.apply s).getNodeCount key n := by
  cases o with
  | increment key' n' delta =>
      change _ ≤ (s.increment key' n' delta).1.getNodeCount key n
      have hdelta := ho.2.2
      rw [getNodeCount_increment]
      split_ifs <;> linarith
  | setNodeCount key' n' val =>
      change _ ≤ (s.setNodeCount key' n' val).getNodeCount key n
      rw [Store.getNodeCount_eq, Store.getNodeCount_eq, replicated_setNodeCount,
        Replicated.counts_raise_getD]
      split_ifs
      · exact le_max_left _ _
      · exact le_rfl
  | updatePeerSeq n' seq =>
      change _ ≤ (s.updatePeerSeq n' seq).getNodeCount key n
      rw [Store.getNodeCount_eq, Store.getNodeCount_eq, replicated_updatePeerSeq]
  | _ => exact ho.elim

theorem ops (h : CountStore nodeID s) {os : List (StoreOp V)} (hos : ∀ o ∈ os, o.Counted nodeID) :
    CountStore nodeID (os.foldl StoreOp.apply s) ∧
      ∀ key n, s.getNodeCount key n ≤ (os.foldl StoreOp.apply s).getNodeCount key n := by
  induction os generalizing s with
  | nil => exact ⟨h, fun _ _ => le_rfl⟩
  | cons o os ih =>
      have ho := hos o List.mem_cons_self
      obtain ⟨hstore, hle⟩ := ih (h.op ho) (fun o' ho' => hos o' (List.mem_cons_of_mem _ ho'))
      exact ⟨hstore, fun key n => (getNodeCount_le_apply ho s key n).trans (hle key n)⟩

theorem flushShard (h : CountStore nodeID s) (c : DiskCodec V) (db : Database)
    (batch : List (WriteBatch.Write GoString Record)) (i : Fin numShards) (order : List GoString)
    (now : GoString → Int64) :
    CountStore nodeID ((⟨s, db, batch⟩ : Disk V).flushShard c i order now).store := by
  have hshards := Disk.shards_flushShard (c := c) (⟨s, db, batch⟩ : Disk V) i order now
  have hreplicated := Disk.replicated_flushShard (c := c) (⟨s, db, batch⟩ : Disk V) i order now
  constructor
  case cache =>
    intro j k
    rw [hshards]
    split_ifs <;> exact h.cache j k
  case windows =>
    intro j k
    rw [hshards]
    split_ifs <;> exact h.windows j k
  case peerSeqs =>
    intro j k hk
    rw [hshards] at hk
    split_ifs at hk <;> exact h.peerSeqs j k hk
  case dirty =>
    intro j k hk
    rw [hshards] at hk
    split_ifs at hk
    exact h.dirty j k hk
  case counts =>
    rw [hreplicated]
    exact h.counts
  case balanced =>
    rw [hreplicated]
    exact h.balanced

theorem writes_snapshotItem (h : CountStore nodeID s) (c : DiskCodec V) {i : Fin numShards}
    {k : GoString} (hk : (s.shards i).dirty k = true) {now : Int64} {k' : GoString} {r : Record}
    (hw : (k', some r) ∈ ((s.shards i).snapshotItem k).writes c now) :
    ∃ key j, colon ∉ key ∧ k' = counterKey key (nodeID j) ∧
      (s.shards i).counts k = some (s.getNodeCount key (nodeID j)) ∧
      r = ⟨c.float64ToBytes (s.getNodeCount key (nodeID j)), none⟩ := by
  unfold StoreShard.snapshotItem at hw
  rw [h.cache] at hw
  cases hcounts : (s.shards i).counts k with
  | some v =>
      obtain ⟨key, j, hkey, hslot⟩ := h.counts (i, k) (by
        change (s.shards i).counts k ≠ none
        rw [hcounts]
        exact Option.some_ne_none v)
      obtain ⟨rfl, rfl⟩ := Prod.mk.inj hslot
      have hvalue : s.getNodeCount key (nodeID j) = v := by
        rw [Store.getNodeCount_eq]
        change ((s.shards (shardIndex key)).counts (counterKey key (nodeID j))).getD 0 = v
        rw [hcounts, Option.getD_some]
      have hmark : (bytes "meta:seq:").isPrefixOf (counterKey key (nodeID j)) = false := rfl
      simp only [hcounts, SnapshotItem.writes, hmark] at hw
      have hpair := List.mem_singleton.1 hw
      refine ⟨key, j, hkey, congrArg Prod.fst hpair, by rw [hvalue], ?_⟩
      rw [hvalue]
      exact Option.some.inj (congrArg Prod.snd hpair)
  | none =>
      have hpeer : (s.shards i).peerSeqs k = none := by
        by_contra hne
        exact h.peerSeqs i k hne (h.dirty i k hk)
      simp [hcounts, h.windows, hpeer, SnapshotItem.writes] at hw

section Load

variable {c : DiskCodec V} {now : GoString → Int64} {items : List (GoString × Record)}
  (hnames : ∀ w ∈ items, ∃ key j, colon ∉ key ∧ w.1 = counterKey key (nodeID j))

include hnames

theorem load_eq : Store.load c now items =
    some (items.foldl (Store.loadRecord c now) Store.newStore) := by
  apply if_neg
  rintro ⟨w, hw, hmark, -⟩
  obtain ⟨key, j, -, hname⟩ := hnames w hw
  rw [hname] at hmark
  cases hmark

theorem load (hdistinct : items.Pairwise (fun w w' => w.1 ≠ w'.1)) :
    CountStore nodeID (items.foldl (Store.loadRecord c now) Store.newStore) := by
  have hbare (i k) : let shard := (items.foldl (Store.loadRecord c now) Store.newStore).shards i
      shard.cache k = none ∧ shard.windows k = none ∧ shard.peerSeqs k = none ∧
        shard.dirty k = false := by
    refine List.foldlRecOn (motive := fun t : Store V => (t.shards i).cache k = none ∧
      (t.shards i).windows k = none ∧ (t.shards i).peerSeqs k = none ∧ (t.shards i).dirty k = false)
      items _ ⟨rfl, rfl, rfl, rfl⟩ ?_
    intro t ht w hw
    obtain ⟨key, j, -, hname⟩ := hnames w hw
    have hkind : recordKind w.1 = .count .counter := by
      rw [hname]
      exact recordKind_key .counter key (nodeID j)
    unfold Store.loadRecord
    rw [shards_modifyShard, StoreShard.loadRecord_eq, hkind]
    split_ifs <;> exact ht
  refine ⟨fun i k => (hbare i k).1, fun i k => (hbare i k).2.1,
    fun i k hk => absurd (hbare i k).2.2.1 hk, ?_, ?_, ?_⟩
  · intro i k hk
    rw [(hbare i k).2.2.2] at hk
    cases hk
  · intro p hp
    obtain ⟨v, hv⟩ := Option.ne_none_iff_exists'.1 hp
    obtain ⟨w, hw, hslot, -⟩ := (flatten_foldl_loadRecord (counts_loadRecord c now) (fun _ => rfl)
      hdistinct p v).1 hv
    obtain ⟨key, j, hkey, hname⟩ := hnames w hw
    refine ⟨key, j, hkey, ?_⟩
    rw [← hslot, hname, slot, countSlot]
    congr 1
    exact CountKind.counter.shardIndex_key hkey _
  · exact Store.balanced_foldl_loadRecord c now balanced_newStore hdistinct (fun _ _ => rfl)

end Load

section Sum

variable [Fintype ι] (hinj : Function.Injective nodeID) (hcolon : ∀ i, colon ∉ nodeID i)

include hinj hcolon

theorem getAggregateCount_eq (h : CountStore nodeID s) (key : GoString) :
    s.getAggregateCount key = ∑ j, s.getNodeCount key (nodeID j) := by
  classical
  obtain ⟨ks, hks, htotal⟩ := h.balanced
  have hslot : Function.Injective (fun j => countSlot key (nodeID j)) := by
    intro j j' heq
    exact ((countSlot_nodeID hinj hcolon).1 heq).2
  have howner (j : ι) (hkey : colon ∉ key) : owner (countSlot key (nodeID j)) = some (slot key) :=
    owner_key .counter hkey (nodeID j) (shardIndex key)
  rw [Store.getAggregateCount_eq, htotal, Ledger.total]
  refine Eq.trans ?_ (Finset.sum_map Finset.univ ⟨_, hslot⟩
    (fun p => (s.replicated.counts p).getD 0))
  apply Finset.sum_congr_of_eq_on_inter
  · intro p hp hnot
    by_contra hne
    have hsome : s.replicated.counts p ≠ none := by
      intro hnone
      rw [hnone] at hne
      exact hne rfl
    obtain ⟨key', j, hkey', rfl⟩ := h.counts p hsome
    have hown := (Finset.mem_filter.1 hp).2
    rw [show owner (countSlot key' (nodeID j)) = some (slot key') from
      owner_key .counter hkey' (nodeID j) (shardIndex key')] at hown
    obtain rfl := slot_injective (Option.some.inj hown)
    exact hnot (Finset.mem_map.2 ⟨j, Finset.mem_univ j, rfl⟩)
  · intro p hp hnot
    obtain ⟨j, -, rfl⟩ := Finset.mem_map.1 hp
    by_contra hne
    have hsome : s.replicated.counts (countSlot key (nodeID j)) ≠ none := by
      intro hnone
      apply hne
      change (s.replicated.counts (countSlot key (nodeID j))).getD 0 = 0
      rw [hnone, Option.getD_none]
    obtain ⟨key', j', hkey', heq⟩ := h.counts _ hsome
    obtain ⟨rfl, -⟩ := (countSlot_nodeID hinj hcolon).1 heq
    exact hnot (Finset.mem_filter.2 ⟨hks _ hsome, howner j hkey'⟩)
  · intro p _ _
    rfl

end Sum

end CountStore

/-- The count of a node in a database. -/
def DiskCodec.flushed (c : DiskCodec V) (db : Database) (key n : GoString) : ℚ :=
  match db[counterKey key n]? with
  | some r => c.float64FromBytes r.data
  | none => 0

/-- The record of a count that was there and has not fallen since. -/
def Reflects (c : DiskCodec V) (nodeID : ι → GoString) (s : Store V) (k : GoString) (r : Record) :
    Prop :=
  ∃ key j v, colon ∉ key ∧ k = counterKey key (nodeID j) ∧ r = ⟨c.float64ToBytes v, none⟩ ∧
    c.float64FromBytes (c.float64ToBytes v) = v ∧ 0 ≤ v ∧ v ≤ s.getNodeCount key (nodeID j)

theorem Reflects.mono {c : DiskCodec V} {nodeID : ι → GoString} {s t : Store V} {k : GoString}
    {r : Record} (h : Reflects c nodeID s k r)
    (hle : ∀ key j, s.getNodeCount key (nodeID j) ≤ t.getNodeCount key (nodeID j)) :
    Reflects c nodeID t k r := by
  obtain ⟨key, j, v, hkey, hname, hr, hround, hv, hbound⟩ := h
  exact ⟨key, j, v, hkey, hname, hr, hround, hv, hbound.trans (hle key j)⟩

section Restored

variable {c : DiskCodec V} {nodeID : ι → GoString} (hcolon : ∀ i, colon ∉ nodeID i) {s : Store V}
  {db : Database} (hdb : ∀ k r, db[k]? = some r → Reflects c nodeID s k r)

include hcolon hdb

theorem flushed_bounds (hinj : Function.Injective nodeID)
    (hnonneg : ∀ key j, 0 ≤ s.getNodeCount key (nodeID j)) (key : GoString) (j : ι) :
    0 ≤ c.flushed db key (nodeID j) ∧
      c.flushed db key (nodeID j) ≤ s.getNodeCount key (nodeID j) := by
  unfold DiskCodec.flushed
  cases hr : db[counterKey key (nodeID j)]? with
  | none => exact ⟨le_rfl, hnonneg key j⟩
  | some r =>
      obtain ⟨key', j', v, -, hname, rfl, hround, hv, hle⟩ := hdb _ r hr
      obtain ⟨rfl, heq⟩ := compositeKey_inj (hcolon j) (hcolon j') hname
      obtain rfl := hinj heq
      dsimp only
      rw [hround]
      exact ⟨hv, hle⟩

theorem getNodeCount_load {now : GoString → Int64} {items : List (GoString × Record)}
    (hvisible : Visible db now items) (key : GoString) (j : ι) :
    (items.foldl (Store.loadRecord c now) Store.newStore).getNodeCount key (nodeID j) =
      c.flushed db key (nodeID j) := by
  have hload := flatten_foldl_loadRecord (counts_loadRecord c now) (fun _ => rfl)
    hvisible.distinct (countSlot key (nodeID j))
  rw [Store.getNodeCount_eq]
  unfold DiskCodec.flushed
  cases hr : db[counterKey key (nodeID j)]? with
  | none =>
      have hnone : (items.foldl (Store.loadRecord c now) Store.newStore).replicated.counts
          (countSlot key (nodeID j)) = none := by
        by_contra hne
        obtain ⟨v, hv⟩ := Option.ne_none_iff_exists'.1 hne
        obtain ⟨w, hw, hslot, -⟩ := (hload v).1 hv
        have hname : w.1 = counterKey key (nodeID j) := congrArg Prod.snd hslot
        have hrecord := hvisible.getElem?_of_mem hw
        rw [hname, hr] at hrecord
        cases hrecord
      rw [hnone, Option.getD_none]
  | some r =>
      obtain ⟨key', j', v, hkey, hname, rfl, -⟩ := hdb _ r hr
      obtain ⟨rfl, -⟩ := compositeKey_inj (hcolon j) (hcolon j') hname
      have hmem : (counterKey key (nodeID j), ⟨c.float64ToBytes v, none⟩) ∈ items :=
        hvisible.met _ _ hr (fun e he => by cases he)
      have hslot : slot (counterKey key (nodeID j)) = countSlot key (nodeID j) := by
        rw [slot, countSlot]
        congr 1
        exact CountKind.counter.shardIndex_key hkey _
      have hsome := (hload (c.float64FromBytes (c.float64ToBytes v))).2
        ⟨_, hmem, hslot, by
          unfold loadedCount
          rw [show recordKind (counterKey key (nodeID j)) = .count .counter from
            recordKind_key .counter key (nodeID j)]⟩
      have hcounts : (items.foldl (Store.loadRecord c now) Store.newStore).replicated.counts
          (countSlot key (nodeID j)) = some (c.float64FromBytes (c.float64ToBytes v)) := hsome
      rw [hcounts, Option.getD_some]

end Restored

end Capacitor
