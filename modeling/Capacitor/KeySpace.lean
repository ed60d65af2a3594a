import Capacitor.WindowReload

/-!
# User keys and internal records

Entries, counts, events and watermarks share the keys of one database, and `load` tells them apart
by what a key begins with. Every record that a store writes is backed by what it holds in memory, as
long as no entry is kept under a key that begins like an internal one, counters and windows have
keys without a colon, and no window with records is emptied. A load then restores nothing that was
not there.
-/

namespace Capacitor

open Store

variable {V : Type*} {c : DiskCodec V}

/-- The shard `i` holds what a record of this name would restore. No name of an event is marked. -/
def StoreShard.Backs (i : Fin numShards) (shard : StoreShard V) (name : GoString) : Prop :=
  match recordKind name with
  | .entry => True
  | .count kind => ∃ key nodeID, colon ∉ key ∧ name = kind.key key nodeID ∧ shardIndex key = i ∧
      shard.counts name ≠ none
  | .watermark => shardIndex name = i ∧ shard.peerSeqs (name.drop 9) ≠ none
  | .window => False

theorem StoreShard.Backs.mono {i : Fin numShards} {shard shard' : StoreShard V} {name : GoString}
    (h : shard.Backs i name) (hcounts : ∀ k, shard.counts k ≠ none → shard'.counts k ≠ none)
    (hpeerSeqs : ∀ k, shard.peerSeqs k ≠ none → shard'.peerSeqs k ≠ none) :
    shard'.Backs i name := by
  unfold Backs at h ⊢
  cases hkind : recordKind name with
  | entry => trivial
  | count kind =>
      rw [hkind] at h
      obtain ⟨key, nodeID, hkey, hname, hi, hcount⟩ := h
      exact ⟨key, nodeID, hkey, hname, hi, hcounts _ hcount⟩
  | watermark =>
      rw [hkind] at h
      exact ⟨h.1, hpeerSeqs _ h.2⟩
  | window =>
      rw [hkind] at h
      exact h

theorem StoreShard.backs_of_entry (i : Fin numShards) (shard : StoreShard V) {name : GoString}
    (h : recordKind name = .entry) : shard.Backs i name := by
  unfold Backs
  rw [h]
  trivial

/-- What a shard holds and marks is backed. -/
structure NamedShard (i : Fin numShards) (shard : StoreShard V) : Prop where
  cache : ∀ k, shard.cache k ≠ none → recordKind k = .entry
  windows : shard.WindowsPlaced i
  totals : ∀ (kind : CountKind) (key nodeID : GoString), colon ∉ key →
    shard.counts (kind.key key nodeID) ≠ none →
    shard.aggregateCounts (kind.aggregateTag ++ key) ≠ none
  dirty : ∀ k, shard.dirty k = true → shard.Backs i k

/-- Entries are kept under keys that `load` takes for the keys of entries, and counters, metrics and
windows have keys without a colon. The database takes no empty key. -/
def StoreOp.Named : StoreOp V → Prop
  | set key _ _ _ => key ≠ [] ∧ recordKind key = .entry
  | delete key _ => key ≠ [] ∧ recordKind key = .entry
  | increment key _ _ => colon ∉ key
  | setNodeCount key _ _ => colon ∉ key
  | incrementMetric key _ _ => colon ∉ key
  | incrementSlidingWindow key _ _ _ => colon ∉ key
  | addWindowTimestamp key _ => colon ∉ key
  | updatePeerSeq _ _ => True
  | pruneExpiredKeys _ _ => True
  | pruneStaleWindows _ _ => True

theorem StoreOp.ne_none_onShard (shard : StoreShard V) (o : StoreOp V) (k : GoString) :
    (shard.counts k ≠ none → (o.onShard shard).counts k ≠ none) ∧
      (shard.peerSeqs k ≠ none → (o.onShard shard).peerSeqs k ≠ none) := by
  have hframe (hcounts : o.changes ≠ .counts) (hpeerSeqs : o.changes ≠ .peerSeqs) :
      (shard.counts k ≠ none → (o.onShard shard).counts k ≠ none) ∧
        (shard.peerSeqs k ≠ none → (o.onShard shard).peerSeqs k ≠ none) := by
    have hsame := o.sameBut_onShard shard
    rw [hsame.counts hcounts, hsame.peerSeqs hpeerSeqs]
    exact ⟨id, id⟩
  cases o with
  | increment key nodeID delta => exact ⟨update_ne_none _ _, id⟩
  | setNodeCount key nodeID val =>
      simp only [onShard]
      split_ifs
      · exact ⟨update_ne_none _ _, id⟩
      · exact ⟨id, id⟩
  | incrementMetric key nodeID delta =>
      exact ⟨fun h => update_ne_none _ _ (update_ne_none _ _ h), id⟩
  | updatePeerSeq nodeID seq =>
      simp only [onShard]
      split_ifs
      · exact ⟨id, update_ne_none _ _⟩
      · exact ⟨id, id⟩
  | _ => exact hframe (by simp) (by simp)

namespace NamedShard

variable {i : Fin numShards} {shard : StoreShard V}

theorem newStoreShard (i : Fin numShards) : NamedShard i (newStoreShard : StoreShard V) where
  cache _ h := absurd rfl h
  windows _ h := absurd rfl h
  totals _ _ _ _ h := absurd rfl h
  dirty _ h := by cases h

theorem dirty_mark (h : NamedShard i shard) {shard' : StoreShard V} {name : GoString}
    (hmark : shard'.dirty = Function.update shard.dirty name true)
    (hcounts : ∀ k, shard.counts k ≠ none → shard'.counts k ≠ none)
    (hpeerSeqs : ∀ k, shard.peerSeqs k ≠ none → shard'.peerSeqs k ≠ none)
    (hname : shard'.Backs i name) (k : GoString) (hk : shard'.dirty k = true) :
    shard'.Backs i k := by
  rw [hmark] at hk
  rcases update_cases (P := (· = true)) hk with hold | rfl
  · exact (h.dirty k hold).mono hcounts hpeerSeqs
  · exact hname

theorem put (h : NamedShard i shard) {key : GoString} (hkey : recordKind key = .entry)
    (e : ValWithTS V) : NamedShard i (shard.put key e) := by
  unfold StoreShard.put
  split_ifs
  · exact h
  · refine ⟨fun k hk => ?_, h.windows, h.totals,
      h.dirty_mark rfl (fun _ => id) (fun _ => id) (StoreShard.backs_of_entry i _ hkey)⟩
    rcases update_cases (P := (· ≠ none)) hk with hold | rfl
    · exact h.cache k hold
    · exact hkey

theorem backs_count (kind : CountKind) {key : GoString} (hkey : colon ∉ key)
    (hi : shardIndex key = i) {nodeID : GoString}
    (hcount : shard.counts (kind.key key nodeID) ≠ none) :
    shard.Backs i (kind.key key nodeID) := by
  unfold StoreShard.Backs
  rw [recordKind_key]
  exact ⟨key, nodeID, hkey, rfl, hi, hcount⟩

theorem count (h : NamedShard i shard) (kind : CountKind) {key : GoString} (hkey : colon ∉ key)
    (hi : shardIndex key = i) (nodeID : GoString) (v d : ℚ) :
    NamedShard i { shard with
      counts := Function.update shard.counts (kind.key key nodeID) (some v)
      aggregateCounts := addTo shard.aggregateCounts (kind.aggregateTag ++ key) d
      dirty := Function.update shard.dirty (kind.key key nodeID) true } := by
  have hself : Function.update shard.counts (kind.key key nodeID) (some v)
      (kind.key key nodeID) ≠ none := by
    rw [Function.update_self]
    exact Option.some_ne_none v
  refine ⟨h.cache, h.windows, fun kind' key' nodeID' hkey' hcount => ?_,
    h.dirty_mark rfl (fun _ => update_ne_none _ _) (fun _ => id) (backs_count kind hkey hi hself)⟩
  rcases update_cases (P := (· ≠ none)) hcount with hold | heq
  · exact update_ne_none _ _ (h.totals kind' key' nodeID' hkey' hold)
  · obtain ⟨rfl, rfl⟩ := CountKind.key_inj hkey' hkey heq
    dsimp only
    rw [addTo, Function.update_self]
    exact Option.some_ne_none _

theorem watermark (h : NamedShard i shard) {nodeID : GoString}
    (hi : shardIndex (peerSeqKey nodeID) = i) (seq : ℕ) :
    NamedShard i { shard with
      peerSeqs := Function.update shard.peerSeqs nodeID (some seq)
      dirty := Function.update shard.dirty (peerSeqKey nodeID) true } := by
  refine ⟨h.cache, h.windows, h.totals, h.dirty_mark rfl (fun _ => id)
    (fun _ => update_ne_none _ _) ⟨hi, ?_⟩⟩
  have hdrop : (peerSeqKey nodeID).drop 9 = nodeID := rfl
  rw [hdrop]
  dsimp only
  rw [Function.update_self]
  exact Option.some_ne_none seq

theorem pruneExpiredKeys (h : NamedShard i shard) (now : Int64) :
    NamedShard i (shard.pruneExpiredKeys now) := by
  refine ⟨fun k hk => h.cache k ?_, h.windows, h.totals, fun k hk => ?_⟩
  · intro hnone
    exact hk (by simp [StoreShard.pruneExpiredKeys, hnone])
  · rcases Bool.or_eq_true_iff.1 hk with hold | hexpired
    · exact h.dirty k hold
    · refine StoreShard.backs_of_entry i _ (h.cache k (fun hnone => ?_))
      rw [hnone] at hexpired
      cases hexpired

theorem onShard (h : NamedShard i shard) {o : StoreOp V} (ho : o.Named) (hi : o.target = i) :
    NamedShard i (o.onShard shard) := by
  cases o with
  | set key value ts ttl => exact h.put ho.2 _
  | delete key ts => exact h.put ho.2 _
  | increment key nodeID delta => exact h.count .counter ho hi nodeID _ _
  | setNodeCount key nodeID val =>
      simp only [StoreOp.onShard]
      split_ifs
      · exact h.count .counter ho hi nodeID _ _
      · exact h
  | incrementMetric key nodeID delta =>
      exact (h.count .metricCount ho hi nodeID _ _).count .metricSum ho hi nodeID _ _
  | incrementSlidingWindow key ts window now =>
      exact ⟨h.cache, h.windows.onShard ho hi, h.totals, h.dirty_mark rfl (fun _ => id)
        (fun _ => id) (StoreShard.backs_of_entry i _ (recordKind_of_not_mem ho))⟩
  | addWindowTimestamp key ts =>
      have hwindows := h.windows.onShard (o := .addWindowTimestamp key ts) ho hi
      simp only [StoreOp.onShard] at hwindows ⊢
      split at hwindows
      · exact h
      · exact ⟨h.cache, hwindows, h.totals, h.dirty_mark rfl (fun _ => id) (fun _ => id)
          (StoreShard.backs_of_entry i _ (recordKind_of_not_mem ho))⟩
  | updatePeerSeq nodeID seq =>
      simp only [StoreOp.onShard]
      split_ifs
      · exact h.watermark hi seq
      · exact h
  | pruneExpiredKeys j now => exact h.pruneExpiredKeys now
  | pruneStaleWindows j now =>
      exact ⟨h.cache, h.windows.onShard trivial hi, h.totals, h.dirty⟩

end NamedShard

/-- No window with records is emptied or pruned. -/
def Disk.KeepsWindows (d : Disk V) : StoreOp V → Prop
  | .incrementSlidingWindow key ts window now =>
      (∀ t ∈ d.store.getWindow key ++ [ts], t < now - window) → ∀ t, ¬ d.HasEvent key t
  | .pruneStaleWindows i now =>
      ∀ k, shardIndex k = i → (∃ newest ∈ (d.store.getWindow k).getLast?, now - newest > hour) →
        ∀ t, ¬ d.HasEvent k t
  | _ => True

/-- A step that keeps the kinds of records apart. -/
def Disk.Separate (d : Disk V) : DiskAction V → Prop
  | .op o => o.Named ∧ d.KeepsWindows o
  | .flushShard i order _ => d.Ranges i order
  | .commit => True

theorem appendEvent_ne_nil {ts horizon : Int64} {win : List Int64}
    (h : ∃ t ∈ win ++ [ts], ¬ t < horizon) : appendEvent ts horizon win ≠ [] := by
  obtain ⟨t, ht, hnot⟩ := h
  unfold appendEvent
  rw [Ne, List.drop_eq_nil_iff, not_le]
  refine lt_of_le_of_ne List.countP_le_length (fun heq => hnot ?_)
  exact of_decide_eq_true (List.countP_eq_length.1 heq t ht)

theorem getWindow_op_ne_nil {d : Disk V} {o : StoreOp V} (hkeeps : d.KeepsWindows o)
    {k : GoString} {ts : Int64} (hevent : d.HasEvent k ts) (hne : d.store.getWindow k ≠ []) :
    (o.apply d.store).getWindow k ≠ [] := by
  have hframe (ho : o.changes ≠ .windows) : (o.apply d.store).getWindow k ≠ [] := by
    change (((o.apply d.store).shards (shardIndex k)).windows k).getD [] ≠ []
    rw [o.shards_apply]
    split_ifs
    · rw [(o.sameBut_onShard _).windows ho]
      exact hne
    · exact hne
  cases o with
  | incrementSlidingWindow key ts window now =>
      change (d.store.incrementSlidingWindow key ts window now).1.getWindow k ≠ []
      rw [getWindow_incrementSlidingWindow]
      split_ifs with hk
      · subst hk
        apply appendEvent_ne_nil
        by_contra hall
        push Not at hall
        exact hkeeps hall _ hevent
      · exact hne
  | addWindowTimestamp key ts =>
      change (d.store.addWindowTimestamp key ts).getWindow k ≠ []
      rw [getWindow_addWindowTimestamp]
      split_ifs with hk
      · exact List.ne_nil_of_mem (mem_insertEvent.2 (Or.inl rfl))
      · exact hne
  | pruneStaleWindows i now =>
      change (d.store.pruneStaleWindows i now).getWindow k ≠ []
      rw [getWindow_pruneStaleWindows]
      split_ifs with hpruned
      · exact absurd hevent (hkeeps k hpruned.1 hpruned.2 ts)
      · exact hne
  | _ => exact hframe (by simp)

/-- Every record, written or pending, is backed by what the store holds. -/
structure NamedDisk (d : Disk V) : Prop where
  shards : ∀ i, NamedShard i (d.store.shards i)
  backed : ∀ name, d.written[name]? ≠ none → (∃ i, (d.store.shards i).Backs i name) ∨
    ∃ k ts, colon ∉ k ∧ name = windowKey k ts ∧ d.store.getWindow k ≠ []
  length : ∀ name r, d.written[name]? = some r →
    (bytes "meta:seq:").isPrefixOf name = true → r.data.length = 8

namespace NamedDisk

variable {d d' : Disk V}

theorem empty : NamedDisk (Disk.empty : Disk V) where
  shards i := NamedShard.newStoreShard i
  backed _ h := absurd Std.TreeMap.getElem?_emptyc h
  length name r h := by
    change (∅ : Database)[name]? = some r at h
    rw [Std.TreeMap.getElem?_emptyc] at h
    cases h

theorem op (h : NamedDisk d) {o : StoreOp V} (ho : o.Named) (hkeeps : d.KeepsWindows o) :
    NamedDisk { d with store := o.apply d.store } := by
  refine ⟨fun i => ?_, fun name hname => ?_, h.length⟩
  · change NamedShard i ((o.apply d.store).shards i)
    rw [o.shards_apply]
    split_ifs with hi
    · exact (h.shards i).onShard ho hi.symm
    · exact h.shards i
  · rcases h.backed name hname with ⟨i, hback⟩ | ⟨k, ts, hk, rfl, hne⟩
    · refine Or.inl ⟨i, ?_⟩
      change ((o.apply d.store).shards i).Backs i name
      rw [o.shards_apply]
      split_ifs
      · exact hback.mono (fun k => (o.ne_none_onShard _ k).1) (fun k => (o.ne_none_onShard _ k).2)
      · exact hback
    · exact Or.inr ⟨k, ts, hk, rfl, getWindow_op_ne_nil hkeeps hname hne⟩

section Flush

variable {i : Fin numShards} {order : List GoString} {now : GoString → Int64}

theorem of_mem_writes (h : NamedDisk d) (hranges : d.Ranges i order) {name : GoString} {r : Record}
    (hw : (name, some r) ∈ order.flatMap
      (fun k => ((d.store.shards i).snapshotItem k).writes c (now k))) :
    ((d.store.shards i).Backs i name ∨
      ∃ k ts, colon ∉ k ∧ name = windowKey k ts ∧ d.store.getWindow k ≠ []) ∧
    ((bytes "meta:seq:").isPrefixOf name = true → r.data.length = 8) := by
  obtain ⟨k, hk, hw⟩ := List.mem_flatMap.1 hw
  rcases SnapshotItem.key_of_mem_writes hw with hkey | ⟨⟨ts, hkey⟩, hwin⟩
  · obtain rfl : name = k := hkey.trans (StoreShard.key_snapshotItem _ _)
    refine ⟨Or.inl ((h.shards i).dirty name ((hranges name).1 hk)), fun hmark => ?_⟩
    rw [← (d.store.shards i).key_snapshotItem name] at hmark
    exact SnapshotItem.length_of_mem_writes hw hmark
  · obtain rfl : name = windowKey k ts := by
      rw [← (d.store.shards i).key_snapshotItem k]
      exact hkey
    have hwindows := StoreShard.windows_of_snapshotItem hwin
    obtain ⟨hne, hcolon, rfl⟩ := (h.shards i).windows k hwindows
    refine ⟨Or.inr ⟨k, ts, hcolon, rfl, fun hempty => ?_⟩, fun hmark => by cases hmark⟩
    obtain ⟨win, hwin⟩ := Option.ne_none_iff_exists'.1 hwindows
    have hnil : win = [] := by
      change ((d.store.shards (shardIndex k)).windows k).getD [] = [] at hempty
      rwa [hwin] at hempty
    exact hne (by rw [hwin, hnil])

theorem flushShard (h : NamedDisk d) (hranges : d.Ranges i order) :
    NamedDisk (d.flushShard c i order now) := by
  have hshards (j : Fin numShards) : NamedShard j ((d.flushShard c i order now).store.shards j) ∧
      ∀ name, (d.store.shards j).Backs j name →
        ((d.flushShard c i order now).store.shards j).Backs j name := by
    have hj := h.shards j
    rw [Disk.shards_flushShard]
    split_ifs
    · exact ⟨⟨hj.cache, hj.windows, hj.totals, fun k hk => by cases hk⟩, fun _ hback => hback⟩
    · exact ⟨hj, fun _ hback => hback⟩
  refine ⟨fun j => (hshards j).1, fun name hname => ?_, fun name r hr hmark => ?_⟩
  · obtain ⟨r, hr⟩ := Option.ne_none_iff_exists'.1 hname
    have hbacked : (∃ j, (d.store.shards j).Backs j name) ∨
        ∃ k ts, colon ∉ k ∧ name = windowKey k ts ∧ d.store.getWindow k ≠ [] := by
      rw [Disk.written_flushShard] at hr
      rcases WriteBatch.getElem?_commit_cases _ hr with hold | hnew
      · exact h.backed name (hold ▸ Option.some_ne_none r)
      · exact (h.of_mem_writes hranges hnew).1.imp_left (fun hback => ⟨i, hback⟩)
    rcases hbacked with ⟨j, hback⟩ | ⟨k, ts, hk, rfl, hne⟩
    · exact Or.inl ⟨j, (hshards j).2 name hback⟩
    · refine Or.inr ⟨k, ts, hk, rfl, ?_⟩
      rwa [WindowDisk.getWindow_flushShard]
  · rw [Disk.written_flushShard] at hr
    rcases WriteBatch.getElem?_commit_cases _ hr with hold | hnew
    · exact h.length name r hold hmark
    · exact (h.of_mem_writes hranges hnew).2 hmark

end Flush

theorem commit (h : NamedDisk d) : NamedDisk d.commit := ⟨h.shards, h.backed, h.length⟩

theorem close (h : NamedDisk d) {orders : Fin numShards → List GoString}
    {now : Fin numShards → GoString → Int64} (hranges : ∀ i, d.Ranges i (orders i)) :
    NamedDisk (d.close c orders now) :=
  (Disk.flushShards_invariant (P := NamedDisk) (List.nodup_finRange _)
    (fun _ _ _ hd hrange => hd.flushShard hrange) h (fun i _ => hranges i)).commit

theorem step {a : DiskAction V} (h : NamedDisk d) (ha : d.Separate a)
    (hstep : d.step c a = some d') : NamedDisk d' := by
  cases a with
  | op o =>
      cases hstep
      exact h.op ha.1 ha.2
  | flushShard i order now =>
      cases hstep
      exact h.flushShard ha
  | commit =>
      cases hstep
      exact h.commit

end NamedDisk

/-- Every counter, metric, window and watermark of `s'` exists in `s`. -/
structure Store.Within (s' s : Store V) : Prop where
  counts : ∀ p, s'.replicated.counts p ≠ none → s.replicated.counts p ≠ none
  totals : ∀ p, s'.replicated.aggregateCounts p ≠ none → s.replicated.aggregateCounts p ≠ none
  windows : ∀ p, s'.replicated.windows p ≠ none → s.replicated.windows p ≠ none
  watermarks : ∀ p, s'.watermarks p ≠ none → s.watermarks p ≠ none

section Load

theorem counts_of_loadRecord (shard : StoreShard V) (key val : GoString) (t : Int64) (k : GoString)
    (h : (shard.loadRecord c key val t).counts k ≠ none) :
    shard.counts k ≠ none ∨ k = key ∧ ∃ kind, recordKind key = .count kind := by
  have hview := counts_loadRecord c (fun _ => t) shard (key, ⟨val, none⟩) k
  rw [hview] at h
  split_ifs at h with hk
  · cases hkind : recordKind key with
    | count kind => exact Or.inr ⟨hk, kind, rfl⟩
    | _ =>
        left
        simpa [loadedCount, hkind] using h
  · exact Or.inl h

theorem totals_of_loadRecord (shard : StoreShard V) (key val : GoString) (t : Int64) (k : GoString)
    (h : (shard.loadRecord c key val t).aggregateCounts k ≠ none) :
    shard.aggregateCounts k ≠ none ∨ ∃ kind name, recordKind key = .count kind ∧
      loadedName key = some name ∧ k = kind.aggregateTag ++ name := by
  by_cases hkind : ∃ kind, recordKind key = .count kind
  · obtain ⟨kind, hkind⟩ := hkind
    rw [StoreShard.loadRecord_eq, hkind] at h
    simp only [StoreShard.loadCount] at h
    cases hname : loadedName key with
    | none =>
        rw [hname] at h
        exact Or.inl h
    | some name =>
        rw [hname] at h
        rcases update_cases (P := (· ≠ none)) h with hold | heq
        · exact Or.inl hold
        · exact Or.inr ⟨kind, name, hkind, rfl, heq⟩
  · push Not at hkind
    rw [(shard.totals_loadRecord c hkind val t).2] at h
    exact Or.inl h

theorem windows_of_loadRecord (shard : StoreShard V) (key val : GoString) (t : Int64)
    (k : GoString) (h : (shard.loadRecord c key val t).windows k ≠ none) :
    shard.windows k ≠ none ∨ ∃ ts, windowEvent key = some (k, ts) := by
  rw [StoreShard.windows_loadRecord] at h
  cases hevent : windowEvent key with
  | none =>
      rw [hevent] at h
      exact Or.inl h
  | some event =>
      rw [hevent] at h
      rcases update_cases (P := (· ≠ none)) h with hold | rfl
      · exact Or.inl hold
      · exact Or.inr ⟨event.2, rfl⟩

theorem watermarks_of_loadRecord (shard : StoreShard V) (key val : GoString) (t : Int64)
    (k : GoString) (h : (shard.loadRecord c key val t).peerSeqs k ≠ none) :
    shard.peerSeqs k ≠ none ∨ key = peerSeqKey k := by
  obtain ⟨n, hn⟩ := Option.ne_none_iff_exists'.1 h
  refine (StoreShard.peerSeqs_loadRecord c shard hn).imp_left (fun hold => ?_)
  rw [hold]
  exact Option.some_ne_none n

end Load

namespace NamedDisk

variable {d : Disk V} {name : GoString}

theorem backs (h : NamedDisk d) (hname : d.written[name]? ≠ none)
    (hkind : recordKind name ≠ .window) : ∃ i, (d.store.shards i).Backs i name := by
  rcases h.backed name hname with hback | ⟨k, ts, -, rfl, -⟩
  · exact hback
  · exact absurd (recordKind_windowKey k ts) hkind

theorem backs_count (h : NamedDisk d) (hname : d.written[name]? ≠ none) {kind : CountKind}
    (hkind : recordKind name = .count kind) : ∃ key nodeID, colon ∉ key ∧
      name = kind.key key nodeID ∧ (d.store.shards (shardIndex name)).counts name ≠ none := by
  obtain ⟨i, hback⟩ := h.backs hname (hkind ▸ RecordKind.noConfusion)
  unfold StoreShard.Backs at hback
  rw [hkind] at hback
  obtain ⟨key, nodeID, hkey, rfl, rfl, hcount⟩ := hback
  refine ⟨key, nodeID, hkey, rfl, ?_⟩
  rwa [kind.shardIndex_key hkey]

theorem backs_watermark {nodeID : GoString} (h : NamedDisk d)
    (hname : d.written[peerSeqKey nodeID]? ≠ none) :
    (d.store.shards (shardIndex (peerSeqKey nodeID))).peerSeqs nodeID ≠ none := by
  have hkind : recordKind (peerSeqKey nodeID) = .watermark := rfl
  obtain ⟨i, hback⟩ := h.backs hname (hkind ▸ RecordKind.noConfusion)
  unfold StoreShard.Backs at hback
  rw [hkind] at hback
  obtain ⟨rfl, hseq⟩ := hback
  exact hseq

theorem backs_window (h : NamedDisk d) (hname : d.written[name]? ≠ none) {k : GoString}
    {ts : Int64} (hevent : windowEvent name = some (k, ts)) : d.store.getWindow k ≠ [] := by
  rcases h.backed name hname with ⟨i, hback⟩ | ⟨k', ts', hk', rfl, hne⟩
  · unfold StoreShard.Backs at hback
    unfold windowEvent at hevent
    split at hevent
    · next hkind =>
        rw [hkind] at hback
        exact hback.elim
    · cases hevent
  · rw [windowEvent_windowKey hk'] at hevent
    cases hevent
    exact hne

/-- A load restores nothing that was not there. -/
theorem within_load (h : NamedDisk d) {now : GoString → Int64} {items : List (GoString × Record)}
    (hvisible : Visible d.written now items) :
    (items.foldl (Store.loadRecord c now) Store.newStore).Within d.store := by
  have hrecord {w : GoString × Record} (hw : w ∈ items) : d.written[w.1]? ≠ none := by
    rw [hvisible.getElem?_of_mem hw]
    exact Option.some_ne_none _
  refine ⟨fun p hp => ?_, fun p hp => ?_, fun p hp => ?_, fun p hp => ?_⟩
  · obtain ⟨w, hw, hi, heq, kind, hkind⟩ :=
      exists_of_flatten_foldl (fun _ => rfl) counts_of_loadRecord hp
    obtain ⟨key, nodeID, -, -, hcount⟩ := h.backs_count (hrecord hw) hkind
    rw [hi, ← heq] at hcount
    exact hcount
  · obtain ⟨w, hw, hi, kind, name, hkind, hname, heq⟩ :=
      exists_of_flatten_foldl (fun _ => rfl) totals_of_loadRecord hp
    obtain ⟨key, nodeID, hkey, hcomposite, hcount⟩ := h.backs_count (hrecord hw) hkind
    rw [hcomposite, kind.loadedName_key hkey] at hname
    obtain rfl := Option.some.inj hname
    rw [hi] at hcount
    rw [hcomposite] at hcount
    have htotal := (h.shards p.1).totals kind key nodeID hkey hcount
    rw [← heq] at htotal
    exact htotal
  · obtain ⟨w, hw, hi, ts, hevent⟩ :=
      exists_of_flatten_foldl (fun _ => rfl) windows_of_loadRecord hp
    have hne := h.backs_window (hrecord hw) hevent
    rw [shardIndex_of_windowEvent hevent] at hi
    intro hnone
    apply hne
    change ((d.store.shards (shardIndex p.2)).windows p.2).getD [] = []
    change (d.store.shards p.1).windows p.2 = none at hnone
    rw [hi, hnone, Option.getD_none]
  · obtain ⟨w, hw, hi, hkey⟩ :=
      exists_of_flatten_foldl (fun _ => rfl) watermarks_of_loadRecord hp
    have hseq := h.backs_watermark (hkey ▸ hrecord hw)
    rw [← hkey, hi] at hseq
    exact hseq

theorem load_eq (h : NamedDisk d) {now : GoString → Int64} {items : List (GoString × Record)}
    (hvisible : Visible d.written now items) :
    Store.load c now items = some (items.foldl (Store.loadRecord c now) Store.newStore) := by
  apply if_neg
  rintro ⟨w, hw, hmark, hshort⟩
  have hlength := h.length w.1 w.2 (hvisible.getElem?_of_mem hw) hmark
  omega

end NamedDisk

end Capacitor
