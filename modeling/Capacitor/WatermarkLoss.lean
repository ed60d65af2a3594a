import Capacitor.Loading

/-!
# Peer watermarks on disk

`updatePeerSeq` keeps a watermark under the identifier of the node and marks the key `meta:seq:`
with the identifier as dirty. `flush` looks the dirty key itself up among the watermarks, finds
none, and deletes the record; it finds one only if another node is named by that very key. So a
record is written for a node only when there is a node with a longer name, and of finitely many
nodes with a watermark the one with the longest name is always lost.
-/

namespace Capacitor

variable {V : Type*}

def Marking (d : Disk V) : DiskAction V → Prop
  | .op (.updatePeerSeq _ _) => True
  | .op _ => False
  | .flushShard i order _ => d.Ranges i order
  | .commit => True

/-- What a flush writes for a key of a shard that holds only watermarks. -/
def StoreShard.markRecord (c : DiskCodec V) (shard : StoreShard V) (k : GoString) : Option Record :=
  (shard.peerSeqs k).map (fun seq =>
    ⟨bigEndian 8 (c.uint64OfFloat64 (float64OfUint64 seq)), none⟩)

/-- A shard without entries, counts and windows, whose dirty keys are those of watermarks. -/
structure MarkShard (i : Fin numShards) (shard : StoreShard V) : Prop where
  cache : ∀ k, shard.cache k = none
  counts : ∀ k, shard.counts k = none
  windows : ∀ k, shard.windows k = none
  placed : ∀ nodeID n, shard.peerSeqs nodeID = some n → i = shardIndex (peerSeqKey nodeID) ∧ 0 < n
  dirty : ∀ k, shard.dirty k = true → (bytes "meta:seq:").isPrefixOf k = true

namespace MarkShard

variable {i : Fin numShards} {shard : StoreShard V}

theorem newStoreShard (i : Fin numShards) : MarkShard i (newStoreShard : StoreShard V) where
  cache _ := rfl
  counts _ := rfl
  windows _ := rfl
  placed _ _ h := by cases h
  dirty _ h := by cases h

theorem clean (h : MarkShard i shard) : MarkShard i { shard with dirty := fun _ => false } :=
  ⟨h.cache, h.counts, h.windows, h.placed, fun _ hk => by cases hk⟩

theorem mark {nodeID : GoString} (h : MarkShard (shardIndex (peerSeqKey nodeID)) shard) {seq : ℕ}
    (hseq : 0 < seq) :
    MarkShard (shardIndex (peerSeqKey nodeID)) { shard with
      peerSeqs := Function.update shard.peerSeqs nodeID (some seq)
      dirty := Function.update shard.dirty (peerSeqKey nodeID) true } := by
  refine ⟨h.cache, h.counts, h.windows, ?_, ?_⟩
  · intro id n hn
    by_cases hid : id = nodeID
    · subst id
      simp only [Function.update_self, Option.some.injEq] at hn
      exact ⟨rfl, hn ▸ hseq⟩
    · simp only [Function.update_of_ne hid] at hn
      exact h.placed id n hn
  · intro k hk
    by_cases hkey : k = peerSeqKey nodeID
    · rw [hkey]
      exact List.isPrefixOf_iff_prefix.2 (List.prefix_append _ _)
    · simp only [Function.update_of_ne hkey] at hk
      exact h.dirty k hk

theorem writes_snapshotItem (h : MarkShard i shard) (c : DiskCodec V) {k : GoString}
    (hk : shard.dirty k = true) (now : Int64) :
    (shard.snapshotItem k).writes c now = [(k, shard.markRecord c k)] := by
  unfold StoreShard.snapshotItem StoreShard.markRecord
  cases hseq : shard.peerSeqs k with
  | some seq => simp [SnapshotItem.writes, h.cache, h.counts, h.windows, h.dirty k hk]
  | none => simp [SnapshotItem.writes, h.cache, h.counts, h.windows]

end MarkShard

/-- Only watermarks are stored, the names of their nodes are bounded, and every record belongs to a
key that is itself the name of a node. -/
structure Marked (d : Disk V) : Prop where
  shards : ∀ i, MarkShard i (d.store.shards i)
  bounded : ∃ bound, ∀ i nodeID n, (d.store.shards i).peerSeqs nodeID = some n →
    nodeID.length ≤ bound
  written : ∀ k r, d.written[k]? = some r →
    r.data.length = 8 ∧ ∃ i n, (d.store.shards i).peerSeqs k = some n

namespace Marked

variable {c : DiskCodec V} {d d' : Disk V}

theorem empty : Marked (Disk.empty : Disk V) where
  shards i := MarkShard.newStoreShard i
  bounded := ⟨0, fun _ _ _ h => by cases h⟩
  written k r h := by
    change (∅ : Database)[k]? = some r at h
    rw [Std.TreeMap.getElem?_emptyc] at h
    cases h

theorem commit (h : Marked d) : Marked d.commit := ⟨h.shards, h.bounded, h.written⟩

theorem updatePeerSeq (h : Marked d) (nodeID : GoString) (seq : ℕ) :
    Marked { d with store := d.store.updatePeerSeq nodeID seq } := by
  by_cases hseq : d.store.getPeerSeq nodeID < seq
  · have hpeerSeqs (i : Fin numShards) (id : GoString) :
        ((d.store.updatePeerSeq nodeID seq).shards i).peerSeqs id =
          if (i, id) = (shardIndex (peerSeqKey nodeID), nodeID) then some seq
          else (d.store.shards i).peerSeqs id := by
      have h := congrFun (d.store.watermarks_updatePeerSeq nodeID hseq) (i, id)
      rwa [Function.update_apply] at h
    constructor
    · intro i
      unfold Store.updatePeerSeq
      rw [if_pos hseq]
      dsimp only
      rw [Store.shards_modifyShard]
      split_ifs with hi
      · subst i
        exact (h.shards _).mark (Nat.zero_lt_of_lt hseq)
      · exact h.shards i
    · obtain ⟨bound, hbound⟩ := h.bounded
      refine ⟨max bound nodeID.length, ?_⟩
      intro i id n hn
      rw [hpeerSeqs] at hn
      split_ifs at hn with hid
      · obtain ⟨_, rfl⟩ := Prod.mk.inj hid
        exact le_max_right _ _
      · exact (hbound i id n hn).trans (le_max_left _ _)
    · intro k r hr
      obtain ⟨hlength, i, n, hn⟩ := h.written k r hr
      refine ⟨hlength, i, ?_⟩
      simp only [hpeerSeqs]
      split_ifs
      · exact ⟨seq, rfl⟩
      · exact ⟨n, hn⟩
  · have hsame : d.store.updatePeerSeq nodeID seq = d.store := if_neg hseq
    rwa [hsame]

theorem flushShard (h : Marked d) {i : Fin numShards} {order : List GoString}
    {now : GoString → Int64} (hranges : d.Ranges i order) :
    Marked (d.flushShard c i order now) := by
  have hpeerSeqs (j : Fin numShards) : ((d.flushShard c i order now).store.shards j).peerSeqs =
      (d.store.shards j).peerSeqs := by
    rw [Disk.shards_flushShard]
    split_ifs <;> rfl
  have hwrites : order.flatMap (fun k => ((d.store.shards i).snapshotItem k).writes c (now k)) =
      order.map (fun k => (k, (d.store.shards i).markRecord c k)) := by
    rw [List.map_eq_flatMap]
    apply List.flatMap_congr
    intro k hk
    exact (h.shards i).writes_snapshotItem c ((hranges k).1 hk) (now k)
  have hwritten : (d.flushShard c i order now).written = WriteBatch.commit d.written
      (order.map (fun k => (k, (d.store.shards i).markRecord c k))) := by
    unfold Disk.written Disk.flushShard
    rw [WriteBatch.commit_append, hwrites]
  constructor
  · intro j
    rw [Disk.shards_flushShard]
    split_ifs
    · exact (h.shards j).clean
    · exact h.shards j
  · simpa only [hpeerSeqs] using h.bounded
  · intro k r hr
    simp only [hpeerSeqs]
    rw [hwritten, WriteBatch.getElem?_commit_map] at hr
    split_ifs at hr
    · obtain ⟨n, hn, rfl⟩ := Option.map_eq_some_iff.1 hr
      exact ⟨length_bigEndian _ _, i, n, hn⟩
    · exact h.written k r hr

theorem step (h : Marked d) {a : DiskAction V} (ha : Marking d a)
    (hstep : d.step c a = some d') : Marked d' := by
  cases a with
  | op o =>
      obtain rfl := Option.some.inj hstep
      cases o with
      | updatePeerSeq nodeID seq => exact h.updatePeerSeq nodeID seq
      | _ => exact ha.elim
  | flushShard i order now =>
      obtain rfl := Option.some.inj hstep
      exact h.flushShard ha
  | commit =>
      obtain rfl := Option.some.inj hstep
      exact h.commit

theorem close (h : Marked d) {orders : Fin numShards → List GoString}
    {now : Fin numShards → GoString → Int64} (hranges : ∀ i, d.Ranges i (orders i)) :
    Marked (d.close c orders now) := by
  apply Marked.commit
  exact Disk.flushShards_invariant (List.nodup_finRange _)
    (fun _ _ _ hd hrange => hd.flushShard hrange) h (fun i _ => hranges i)

theorem getPeerSeq_of_record (h : Marked d) {orders : Fin numShards → List GoString}
    {now : Fin numShards → GoString → Int64} (hranges : ∀ i, d.Ranges i (orders i)) {k : GoString}
    {r : Record} (hr : (d.close c orders now).db[k]? = some r) :
    r.data.length = 8 ∧ 0 < d.store.getPeerSeq k := by
  obtain ⟨hlength, i, n, hn⟩ := (h.close hranges).written k r hr
  refine ⟨hlength, ?_⟩
  rw [Disk.shards_close] at hn
  obtain ⟨rfl, hpos⟩ := (h.shards i).placed k n hn
  have hvalue : d.store.getPeerSeq k = n := by
    unfold Store.getPeerSeq Store.getShard
    rw [hn, Option.getD_some]
  rwa [hvalue]

end Marked

theorem le_getPeerSeq_step_iff {c : DiskCodec V} {d d' : Disk V} {a : DiskAction V}
    (ha : Marking d a) (hstep : d.step c a = some d') (nodeID : GoString) (n : ℕ) :
    n ≤ d'.store.getPeerSeq nodeID ↔
      n ≤ d.store.getPeerSeq nodeID ∨ ∃ seq, a = .op (.updatePeerSeq nodeID seq) ∧ n ≤ seq := by
  cases a with
  | op o =>
      obtain rfl := Option.some.inj hstep
      cases o with
      | updatePeerSeq id seq =>
          change n ≤ (d.store.updatePeerSeq id seq).getPeerSeq nodeID ↔ _
          rw [Store.getPeerSeq_updatePeerSeq]
          by_cases hid : nodeID = id
          · subst id
            simp
          · simp [hid, Ne.symm hid]
      | _ => exact ha.elim
  | flushShard i order now =>
      obtain rfl := Option.some.inj hstep
      have hsame : (d.flushShard c i order now).store.getPeerSeq nodeID =
          d.store.getPeerSeq nodeID := by
        unfold Store.getPeerSeq Store.getShard
        rw [Disk.shards_flushShard]
        split_ifs <;> rfl
      simp [hsame]
  | commit =>
      obtain rfl := Option.some.inj hstep
      change n ≤ d.store.getPeerSeq nodeID ↔ _
      simp

/-- A watermark is the greatest number it was given. -/
theorem le_getPeerSeq_run_iff {c : DiskCodec V} {d d' : Disk V} {as : List (DiskAction V)}
    (hmarking : StepSystem.Along (Disk.step c) Marking d as)
    (hrun : StepSystem.run (Disk.step c) d as = some d') (nodeID : GoString) (n : ℕ) :
    n ≤ d'.store.getPeerSeq nodeID ↔ n ≤ d.store.getPeerSeq nodeID ∨
      ∃ seq, DiskAction.op (.updatePeerSeq nodeID seq) ∈ as ∧ n ≤ seq := by
  induction as generalizing d with
  | nil =>
      cases hrun
      simp
  | cons a as ih =>
      obtain ⟨u, hu, hrest⟩ := (StepSystem.run_cons_eq_some _ d d' a as).1 hrun
      obtain ⟨ha, hmarking'⟩ := StepSystem.along_cons hmarking hu
      rw [ih hmarking' hrest, le_getPeerSeq_step_iff ha hu]
      simp only [List.mem_cons, or_and_right, exists_or, eq_comm, or_assoc]

theorem exists_record_of_getPeerSeq (c : DiskCodec V) (now : GoString → Int64)
    {items : List (GoString × Record)} {s : Store V} {nodeID : GoString}
    (h : 0 < (items.foldl (Store.loadRecord c now) s).getPeerSeq nodeID) :
    0 < s.getPeerSeq nodeID ∨ ∃ w ∈ items, w.1 = peerSeqKey nodeID := by
  induction items generalizing s with
  | nil => exact Or.inl h
  | cons w items ih =>
      rcases ih h with hfirst | ⟨w', hw', hkey⟩
      · unfold Store.loadRecord Store.getPeerSeq Store.getShard at hfirst
        rw [Store.shards_modifyShard] at hfirst
        split_ifs at hfirst with hi
        · cases hseq : ((s.shards (shardIndex (peerSeqKey nodeID))).loadRecord c w.1 w.2.data
              (now w.1)).peerSeqs nodeID with
          | none =>
              rw [hseq] at hfirst
              cases hfirst
          | some n =>
              rcases StoreShard.peerSeqs_loadRecord c _ hseq with hold | hkey
              · rw [hseq, ← hold] at hfirst
                exact Or.inl hfirst
              · exact Or.inr ⟨w, List.mem_cons_self, hkey⟩
        · exact Or.inl hfirst
      · exact Or.inr ⟨w', List.mem_cons_of_mem _ hw', hkey⟩

namespace Marked

variable {c : DiskCodec V} {d : Disk V} {orders : Fin numShards → List GoString}
  {flushed : Fin numShards → GoString → Int64} {now : GoString → Int64}
  {items : List (GoString × Record)}

theorem load_eq (h : Marked d) (hranges : ∀ i, d.Ranges i (orders i))
    (hvisible : Visible (d.close c orders flushed).db now items) :
    Store.load c now items = some (items.foldl (Store.loadRecord c now) Store.newStore) := by
  apply if_neg
  rintro ⟨w, hw, _, hshort⟩
  have hlength := (h.getPeerSeq_of_record hranges (hvisible.getElem?_of_mem hw)).1
  omega

theorem getPeerSeq_peerSeqKey_pos (h : Marked d) (hranges : ∀ i, d.Ranges i (orders i))
    (hvisible : Visible (d.close c orders flushed).db now items) {nodeID : GoString}
    (hpos : 0 < (items.foldl (Store.loadRecord c now) Store.newStore).getPeerSeq nodeID) :
    0 < d.store.getPeerSeq (peerSeqKey nodeID) := by
  rcases exists_record_of_getPeerSeq c now hpos with hnew | ⟨w, hw, hkey⟩
  · cases hnew
  · rw [← hkey]
    exact (h.getPeerSeq_of_record hranges (hvisible.getElem?_of_mem hw)).2

theorem exists_length_le (h : Marked d) :
    ∃ bound, ∀ nodeID : GoString, 0 < d.store.getPeerSeq nodeID → nodeID.length ≤ bound := by
  obtain ⟨bound, hbound⟩ := h.bounded
  refine ⟨bound, ?_⟩
  intro nodeID hpos
  cases hvalue : (d.store.getShard (peerSeqKey nodeID)).peerSeqs nodeID with
  | none =>
      unfold Store.getPeerSeq at hpos
      rw [hvalue] at hpos
      cases hpos
  | some n => exact hbound _ nodeID n hvalue

/-- Not every key of a watermark can be the name of a node with a watermark. -/
theorem exists_unnamed (h : Marked d) {nodeID : GoString} (hpos : 0 < d.store.getPeerSeq nodeID) :
    ∃ id, 0 < d.store.getPeerSeq id ∧ ¬ 0 < d.store.getPeerSeq (peerSeqKey id) := by
  by_contra hnamed
  push Not at hnamed
  have hgrow (n : ℕ) : ∃ id : GoString, 0 < d.store.getPeerSeq id ∧ n ≤ id.length := by
    induction n with
    | zero => exact ⟨nodeID, hpos, Nat.zero_le _⟩
    | succ n ih =>
        obtain ⟨id, hid, hlength⟩ := ih
        refine ⟨peerSeqKey id, hnamed id hid, ?_⟩
        have hkey : (peerSeqKey id).length = 9 + id.length := List.length_append
        omega
  obtain ⟨bound, hbound⟩ := h.exists_length_le
  obtain ⟨id, hid, hlength⟩ := hgrow (bound + 1)
  have hle := hbound id hid
  omega

end Marked

/-- A restart keeps every watermark exactly if none was ever raised. -/
theorem watermarks_survive_iff (c : DiskCodec V) (as : List (DiskAction V)) (d : Disk V)
    (orders : Fin numShards → List GoString) (flushed : Fin numShards → GoString → Int64)
    (now : GoString → Int64) (items : List (GoString × Record))
    (hrun : StepSystem.run (Disk.step c) Disk.empty as = some d)
    (hmarking : StepSystem.Along (Disk.step c) Marking Disk.empty as)
    (hranges : ∀ i, d.Ranges i (orders i))
    (hvisible : Visible (d.close c orders flushed).db now items) :
    ∃ s, Store.load c now items = some s ∧
      ((∀ nodeID, s.getPeerSeq nodeID = d.store.getPeerSeq nodeID) ↔
        ∀ nodeID seq, DiskAction.op (.updatePeerSeq nodeID seq) ∈ as → seq = 0) := by
  have hd : Marked d := StepSystem.run_invariant_along
    (fun _ _ _ hd ha hstep => hd.step ha hstep) Marked.empty hmarking hrun
  have hraised (nodeID : GoString) : 0 < d.store.getPeerSeq nodeID ↔
      ∃ seq, DiskAction.op (.updatePeerSeq nodeID seq) ∈ as ∧ 0 < seq := by
    have h := le_getPeerSeq_run_iff hmarking hrun nodeID 1
    have hzero : ¬ 1 ≤ (Disk.empty : Disk V).store.getPeerSeq nodeID := by
      change ¬ 1 ≤ 0
      omega
    exact h.trans (or_iff_right hzero)
  refine ⟨_, hd.load_eq hranges hvisible, ?_, ?_⟩
  · intro hsurvive nodeID seq hmem
    by_contra hseq
    obtain ⟨id, hid, hunnamed⟩ := hd.exists_unnamed
      ((hraised nodeID).2 ⟨seq, hmem, Nat.pos_of_ne_zero hseq⟩)
    rw [← hsurvive id] at hid
    exact hunnamed (hd.getPeerSeq_peerSeqKey_pos hranges hvisible hid)
  · intro hzero
    have hnone (nodeID : GoString) : ¬ 0 < d.store.getPeerSeq nodeID := by
      intro hpos
      obtain ⟨seq, hmem, hseq⟩ := (hraised nodeID).1 hpos
      exact hseq.ne' (hzero nodeID seq hmem)
    intro nodeID
    have hlost : ¬ 0 < (items.foldl (Store.loadRecord c now) Store.newStore).getPeerSeq nodeID :=
      fun hpos => hnone _ (hd.getPeerSeq_peerSeqKey_pos hranges hvisible hpos)
    have hbefore := hnone nodeID
    omega

def markDisk : Disk UInt8 := ⟨Store.newStore.updatePeerSeq (bytes "b") 5, ∅, []⟩

def markOrders (i : Fin numShards) : List GoString :=
  if i = shardIndex (peerSeqKey (bytes "b")) then [peerSeqKey (bytes "b")] else []

def markItems : List (GoString × Record) :=
  (markDisk.close byteCodec markOrders (fun _ _ => 0)).db.toList

theorem ranges_mark (i : Fin numShards) : markDisk.Ranges i (markOrders i) := by
  have hdirty : Store.flatten StoreShard.dirty markDisk.store =
      Function.update (fun _ => false) (Store.slot (peerSeqKey (bytes "b"))) true :=
    Store.dirty_updatePeerSeq Store.newStore (bytes "b") 5 (by decide)
  intro k
  have hk : (markDisk.store.shards i).dirty k = _ := congrFun hdirty (i, k)
  rw [hk]
  unfold markOrders
  simp only [Function.update_apply, Store.slot, Prod.mk.injEq]
  split_ifs <;> simp_all

theorem watermarks_survive_iff_raised :
    ∃ s, Store.load byteCodec (fun _ => 0) markItems = some s ∧
      ¬ ∀ nodeID, s.getPeerSeq nodeID = markDisk.store.getPeerSeq nodeID := by
  obtain ⟨s, hload, hiff⟩ := watermarks_survive_iff byteCodec
    [.op (.updatePeerSeq (bytes "b") 5)] markDisk markOrders (fun _ _ => 0) (fun _ => 0) markItems
    rfl ⟨trivial, trivial⟩ ranges_mark (Visible.toList _ _)
  refine ⟨s, hload, ?_⟩
  intro hsurvive
  cases hiff.1 hsurvive (bytes "b") 5 List.mem_cons_self

theorem markItems_isSome : (Store.load byteCodec (fun _ => 0) markItems).isSome := by
  decide +kernel

/-- The last flush deletes the record of the node instead of writing it. -/
theorem not_watermarks_survive_raised :
    ∃ d s, StepSystem.run (Disk.step byteCodec) Disk.empty
        [.op (.updatePeerSeq (bytes "b") 5)] = some d ∧
      (∀ i, d.Ranges i (markOrders i)) ∧
      Visible (d.close byteCodec markOrders (fun _ _ => 0)).db (fun _ => 0) markItems ∧
      Store.load byteCodec (fun _ => 0) markItems = some s ∧
      d.store.getPeerSeq (bytes "b") = 5 ∧ s.getPeerSeq (bytes "b") = 0 := by
  refine ⟨markDisk, _, rfl, ranges_mark, Visible.toList _ _,
    (Option.some_get markItems_isSome).symm, ?_⟩
  decide +kernel

end Capacitor
