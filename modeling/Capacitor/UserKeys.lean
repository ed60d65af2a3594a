import Capacitor.KeySpace

/-!
# Restarts and user keys

An entry that is the latest write to its key, and has no time to live, is in the database after a
close. Whether `load` brings it back, and whether it brings anything else, is decided by the key: a
key that begins like that of a counter, metric, window or watermark is read as one of these.
-/

namespace Capacitor

open Store

variable {V : Type*} {c : DiskCodec V}

section Latest

/-- The operation writes nothing to `k` that is as new as `ts`. -/
def StoreOp.Before (k : GoString) (ts : Timestamp) : StoreOp V → Prop
  | set key _ ts' _ => key = k → ts' < ts
  | delete key ts' => key = k → ts' < ts
  | _ => True

variable {k : GoString} {ts : Timestamp} {value : Option V} {ttl : Int64}

theorem expired_setEntry (httl : ttl ≤ 0) (value : Option V) (ts : Timestamp) (now : Int64) :
    (setEntry value ts ttl).expired now = false ∧ (setEntry value ts ttl).expiresAt = 0 := by
  have hzero : (setEntry value ts ttl).expiresAt = 0 := if_neg (Int64.not_lt.2 httl)
  refine ⟨?_, hzero⟩
  unfold ValWithTS.expired
  rw [hzero]
  simp

theorem StoreOp.Before.leaves (httl : ttl ≤ 0) {o : StoreOp V} (ho : o.Before k ts) :
    o.Leaves k (setEntry value ts ttl) := by
  cases o with
  | set key value ts' ttl' => exact fun hkey => (ho hkey).le
  | delete key ts' => exact fun hkey => (ho hkey).le
  | pruneExpiredKeys i now => exact (expired_setEntry httl value ts now).1
  | _ => trivial

theorem StoreOp.cache_onShard_lt {shard : StoreShard V} {o : StoreOp V} (ho : o.Before k ts)
    (h : ∀ x, shard.cache k = some x → x.timestamp < ts) {x : ValWithTS V}
    (hx : (o.onShard shard).cache k = some x) : x.timestamp < ts := by
  have hput {key : GoString} {e : ValWithTS V} (he : key = k → e.timestamp < ts)
      (hput : (shard.put key e).cache k = some x) : x.timestamp < ts := by
    unfold StoreShard.put at hput
    split_ifs at hput
    · exact h x hput
    · dsimp only at hput
      rw [Function.update_apply] at hput
      split_ifs at hput with hkey
      · rw [← Option.some.inj hput]
        exact he hkey.symm
      · exact h x hput
  have hframe (hcache : o.changes ≠ .cache) : x.timestamp < ts := by
    rw [(o.sameBut_onShard shard).cache hcache] at hx
    exact h x hx
  cases o with
  | set key value ts' ttl' => exact hput (e := setEntry value ts' ttl') ho hx
  | delete key ts' => exact hput (e := tombstone ts') ho hx
  | pruneExpiredKeys i now => exact h x (Option.filter_eq_some_iff.1 hx).1
  | _ => exact hframe (by simp)

def DiskAction.Before (k : GoString) (ts : Timestamp) : DiskAction V → Prop
  | .op o => o.Before k ts
  | _ => True

/-- Nothing as new as `ts` is kept under `k`, and `k` is kept in its own shard only. -/
structure Older (k : GoString) (ts : Timestamp) (d : Disk V) : Prop where
  places : d.store.Places k
  lt : ∀ x, d.store.replicated.cache (slot k) = some x → x.timestamp < ts

theorem Older.step (hk : recordKind k = .entry) {d d' : Disk V} (h : Older k ts d)
    {a : DiskAction V} (ha : a.Before k ts) (hstep : d.step c a = some d') : Older k ts d' := by
  cases a with
  | op o =>
      cases hstep
      refine ⟨h.places.op hk o, fun x hx => ?_⟩
      change ((o.apply d.store).shards (shardIndex k)).cache k = some x at hx
      rw [o.shards_apply] at hx
      split_ifs at hx
      · exact StoreOp.cache_onShard_lt ha h.lt hx
      · exact h.lt x hx
  | flushShard i order now =>
      cases hstep
      refine ⟨d.places_flushShard h.places i order now, fun x hx => h.lt x ?_⟩
      rwa [Disk.replicated_flushShard] at hx
  | commit =>
      cases hstep
      exact ⟨h.places, h.lt⟩

theorem Held.step_of_before (hk : recordKind k = .entry) (httl : ttl ≤ 0) {d d' : Disk V}
    (h : Held c k (setEntry value ts ttl) d) {a : DiskAction V} (hseparate : d.Separate a)
    (ha : a.Before k ts) (hstep : d.step c a = some d') :
    Held c k (setEntry value ts ttl) d' := by
  cases a with
  | op o =>
      cases hstep
      exact h.op hk (StoreOp.Before.leaves httl ha)
  | flushShard i order now =>
      cases hstep
      refine h.flushShard hk hseparate (fun hpos => ?_)
      rw [(expired_setEntry httl value ts 0).2] at hpos
      exact absurd hpos (by decide)
  | commit =>
      cases hstep
      exact h.commit

theorem held_of_latest (hk : recordKind k = .entry) (httl : ttl ≤ 0) {d : Disk V}
    {as₁ as₂ : List (DiskAction V)}
    (hrun : StepSystem.run (Disk.step c) Disk.empty (as₁ ++ .op (.set k value ts ttl) :: as₂) =
      some d)
    (hseparate : StepSystem.Along (Disk.step c) Disk.Separate Disk.empty
      (as₁ ++ .op (.set k value ts ttl) :: as₂))
    (hlatest : ∀ a ∈ as₁ ++ as₂, a.Before k ts) : Held c k (setEntry value ts ttl) d := by
  obtain ⟨d₁, hrun₁, hrest⟩ := (StepSystem.run_append_eq_some _ _ _ _ _).1 hrun
  obtain ⟨d₂, hset, hrun₂⟩ := (StepSystem.run_cons_eq_some _ _ _ _ _).1 hrest
  obtain ⟨-, hseparate₁⟩ := StepSystem.along_append hseparate hrun₁
  obtain ⟨-, hseparate₂⟩ := StepSystem.along_cons hseparate₁ hset
  have hbefore₁ : ∀ a ∈ as₁, a.Before k ts := fun a ha => hlatest a (List.mem_append_left _ ha)
  have hbefore₂ : ∀ a ∈ as₂, a.Before k ts := fun a ha => hlatest a (List.mem_append_right _ ha)
  have holder : Older k ts d₁ := StepSystem.run_invariant_along (c := fun _ a => a.Before k ts)
    (fun _ _ _ hd ha hstep => hd.step hk ha hstep)
    ⟨fun _ _ => ⟨rfl, rfl⟩, fun x hx => by cases hx⟩
    (StepSystem.along_of_forall_mem hbefore₁ _) hrun₁
  have hheld : Held c k (setEntry value ts ttl) d₂ := by
    cases hset
    exact Held.put (.set k value ts ttl) rfl hk holder.places holder.lt
  exact StepSystem.run_invariant_along
    (fun _ _ _ hd ha hstep => hd.step_of_before hk httl ha.1 ha.2 hstep) hheld
    (StepSystem.along_and hseparate₂ (StepSystem.along_of_forall_mem hbefore₂ _)) hrun₂

end Latest

/-- What survives a restart: the entry under `k`, and nothing is there that was not there before. -/
def Disk.Restores (c : DiskCodec V) (d : Disk V) (k : GoString) (value : Option V)
    (now : GoString → Int64) (items : List (GoString × Record)) : Prop :=
  ∃ s, Store.load c now items = some s ∧ (∀ t, s.get k t = value) ∧ s.Within d.store

theorem restores_of_latest {k : GoString} {ts : Timestamp} {value : Option V} {ttl : Int64}
    (httl : ttl ≤ 0)
    (hround : c.unmarshal (c.marshal (setEntry value ts ttl)) = some (setEntry value ts ttl))
    {d : Disk V} {as₁ as₂ : List (DiskAction V)}
    (hrun : StepSystem.run (Disk.step c) Disk.empty (as₁ ++ .op (.set k value ts ttl) :: as₂) =
      some d)
    (hseparate : StepSystem.Along (Disk.step c) Disk.Separate Disk.empty
      (as₁ ++ .op (.set k value ts ttl) :: as₂))
    (hlatest : ∀ a ∈ as₁ ++ as₂, a.Before k ts)
    {orders : Fin numShards → List GoString} {flushed : Fin numShards → GoString → Int64}
    (hranges : ∀ i, d.Ranges i (orders i)) {now : GoString → Int64}
    {items : List (GoString × Record)}
    (hvisible : Visible (d.close c orders flushed).db now items) :
    d.Restores c k value now items := by
  obtain ⟨hk, hnamed⟩ : recordKind k = .entry ∧ NamedDisk d := by
    obtain ⟨d₁, hrun₁, hrest⟩ := (StepSystem.run_append_eq_some _ _ _ _ _).1 hrun
    obtain ⟨-, hseparate₁⟩ := StepSystem.along_append hseparate hrun₁
    exact ⟨hseparate₁.1.1.2, StepSystem.run_invariant_along
      (fun _ _ _ hd ha hstep => hd.step ha hstep) NamedDisk.empty hseparate hrun⟩
  have hnever : ¬ (setEntry value ts ttl).expiresAt > 0 := by
    rw [(expired_setEntry httl value ts 0).2]
    decide
  have hclosed : NamedDisk (d.close c orders flushed) := hnamed.close hranges
  have hwritten : Visible (d.close c orders flushed).written now items := hvisible
  have hrecord : (d.close c orders flushed).db[k]? = some (c.lastingRecord _) :=
    (held_of_latest hk httl hrun hseparate hlatest).close hk hranges
      (fun i hpos => absurd hpos hnever)
  have hcache := Store.cache_load hk hvisible hrecord hround (fun hpos => absurd hpos hnever)
  refine ⟨_, hclosed.load_eq hwritten, fun t => ?_, ?_⟩
  · have hlive : live (setEntry value ts ttl) t = true := by
      simp only [live, hnever, decide_false, Bool.false_and, Bool.not_false, Bool.and_true]
      rfl
    rw [get_eq, hcache, Option.filter_some, if_pos hlive]
    rfl
  · have hwithin := hclosed.within_load (c := c) hwritten
    refine ⟨?_, ?_, ?_, ?_⟩
    · rw [← d.replicated_close (c := c) orders flushed]
      exact hwithin.counts
    · rw [← d.replicated_close (c := c) orders flushed]
      exact hwithin.totals
    · rw [← d.replicated_close (c := c) orders flushed]
      exact hwithin.windows
    · rw [← d.watermarks_close (c := c) orders flushed]
      exact hwithin.watermarks

section Single

def setDisk (k : GoString) (value : Option V) (ts : Timestamp) (ttl : Int64) : Disk V :=
  ⟨newStore.set k value ts ttl, ∅, []⟩

theorem dirty_setDisk (k : GoString) (value : Option V) (ts : Timestamp) (ttl : Int64)
    (p : Fin numShards × GoString) :
    flatten StoreShard.dirty (setDisk k value ts ttl).store p = true ↔ p ∈ [slot k] := by
  have hdirty : flatten StoreShard.dirty (setDisk k value ts ttl).store =
      Function.update (fun _ => false) (slot k) true :=
    dirty_set newStore value ts ttl rfl
  rw [hdirty, List.mem_singleton, Function.update_apply]
  split_ifs with hp
  · simp [hp]
  · simp [hp]

/-- The record that a flush writes under a key that holds an entry without end. -/
def DiskCodec.endlessRecord (c : DiskCodec V) (k : GoString) (e : ValWithTS V) : Record :=
  if (bytes "meta:seq:").isPrefixOf k then ⟨bigEndian 8 (c.uint64OfFloat64 0), none⟩
  else ⟨c.marshal e, none⟩

/-- The key `k` holds the entry `e`, and nothing else is marked or written. -/
structure Lone (c : DiskCodec V) (k : GoString) (e : ValWithTS V) (d : Disk V) : Prop where
  cache : (d.store.getShard k).cache k = some e
  marked : ∀ i k', (d.store.shards i).dirty k' = true → i = shardIndex k ∧ k' = k
  record : ∀ name, d.written[name]? = if name = k ∧ (d.store.getShard k).dirty k = false then
    some (c.endlessRecord k e) else none

variable {k : GoString} {e : ValWithTS V} {d : Disk V}

theorem writes_of_endless {shard : StoreShard V} (hcache : shard.cache k = some e)
    (he : e.expiresAt = 0) (now : Int64) :
    (shard.snapshotItem k).writes c now = [(k, some (c.endlessRecord k e))] := by
  have hzero : ¬ (0 : Int64) > 0 := by decide
  unfold StoreShard.snapshotItem DiskCodec.endlessRecord
  rw [hcache]
  simp only [SnapshotItem.writes, DiskCodec.entryRecord, he, hzero, if_false, Bool.false_eq_true]
  split_ifs <;> rfl

theorem Lone.flushShard (h : Lone c k e d) (he : e.expiresAt = 0) {i : Fin numShards}
    {order : List GoString} {now : GoString → Int64} (hranges : d.Ranges i order) :
    Lone c k e (d.flushShard c i order now) := by
  have hcache : ((d.flushShard c i order now).store.getShard k).cache k = some e := by
    unfold getShard
    rw [Disk.shards_flushShard]
    split_ifs <;> exact h.cache
  have horder (k' : GoString) (hk' : k' ∈ order) : i = shardIndex k ∧ k' = k :=
    h.marked i k' ((hranges k').1 hk')
  have hwrite (t : Int64) : ((d.store.shards (shardIndex k)).snapshotItem k).writes c t =
      [(k, some (c.endlessRecord k e))] := writes_of_endless h.cache he t
  refine ⟨hcache, fun j k' hk' => h.marked j k' ?_, fun name => ?_⟩
  · rw [Disk.shards_flushShard] at hk'
    split_ifs at hk'
    exact hk'
  · have hdirty : ((d.flushShard c i order now).store.getShard k).dirty k =
        if shardIndex k = i then false else (d.store.getShard k).dirty k := by
      unfold getShard
      rw [Disk.shards_flushShard]
      split_ifs <;> rfl
    have hwrites (w : WriteBatch.Write GoString Record) (hw : w ∈ order.flatMap
        (fun k' => ((d.store.shards i).snapshotItem k').writes c (now k'))) :
        k ∈ order ∧ w = (k, some (c.endlessRecord k e)) := by
      obtain ⟨k', hk', hw⟩ := List.mem_flatMap.1 hw
      obtain ⟨rfl, rfl⟩ := horder k' hk'
      rw [hwrite] at hw
      exact ⟨hk', List.mem_singleton.1 hw⟩
    rw [Disk.written_flushShard, hdirty]
    by_cases hmem : k ∈ order
    · obtain ⟨rfl, -⟩ := horder k hmem
      by_cases hname : name = k
      · rw [if_pos ⟨hname, if_pos rfl⟩, hname]
        apply WriteBatch.getElem?_commit_of_mem
        · exact fun w hw _ => by rw [(hwrites w hw).2]
        · refine ⟨(k, some (c.endlessRecord k e)), List.mem_flatMap.2 ⟨k, hmem, ?_⟩, rfl⟩
          rw [hwrite]
          exact List.mem_singleton_self _
      · rw [if_neg (fun hand => hname hand.1), WriteBatch.getElem?_commit_of_not_mem, h.record,
          if_neg (fun hand => hname hand.1)]
        rintro w hw rfl
        exact hname (by rw [(hwrites w hw).2])
    · have hclean : shardIndex k = i → (d.store.getShard k).dirty k = false := by
        rintro rfl
        exact Bool.eq_false_iff.2 (fun hk => hmem ((hranges k).2 hk))
      rw [WriteBatch.getElem?_commit_of_not_mem _ (fun w hw _ => hmem (hwrites w hw).1), h.record]
      split_ifs <;> simp_all

theorem Lone.commit (h : Lone c k e d) : Lone c k e d.commit := ⟨h.cache, h.marked, h.record⟩

theorem Lone.close (h : Lone c k e d) (he : e.expiresAt = 0)
    {orders : Fin numShards → List GoString} {now : Fin numShards → GoString → Int64}
    (hranges : ∀ i, d.Ranges i (orders i)) (name : GoString) :
    (d.close c orders now).db[name]? = if name = k then some (c.endlessRecord k e) else none := by
  have hclosed : Lone c k e (d.close c orders now) :=
    (Disk.flushShards_invariant (P := Lone c k e) (List.nodup_finRange _)
      (fun _ _ _ hd hrange => hd.flushShard he hrange) h (fun i _ => hranges i)).commit
  have hclean : ((d.close c orders now).store.getShard k).dirty k = false := by
    unfold getShard
    rw [Disk.shards_close]
  rw [← Disk.written_close, hclosed.record, hclean]
  simp only [and_true]

theorem Visible.eq_singleton {db : Database} {now : GoString → Int64}
    {items : List (GoString × Record)} (h : Visible db now items) {r : Record}
    (hr : r.expiresAt = none) (hdb : ∀ name, db[name]? = if name = k then some r else none) :
    items = [(k, r)] := by
  have hall (w : GoString × Record) (hw : w ∈ items) : w = (k, r) := by
    have hrecord := h.getElem?_of_mem hw
    rw [hdb] at hrecord
    split_ifs at hrecord with hname
    exact Prod.ext hname (Option.some.inj hrecord).symm
  have hmem : (k, r) ∈ items := by
    refine h.met k r (by rw [hdb, if_pos rfl]) (fun t ht => ?_)
    rw [hr] at ht
    cases ht
  have hdistinct := h.distinct
  cases items with
  | nil => cases hmem
  | cons w items =>
      obtain rfl := hall w List.mem_cons_self
      cases items with
      | nil => rfl
      | cons w' items =>
          obtain rfl := hall w' (List.mem_cons_of_mem _ List.mem_cons_self)
          exact absurd rfl ((List.pairwise_cons.1 hdistinct).1 _ List.mem_cons_self)

theorem expiresAt_endlessRecord (c : DiskCodec V) (k : GoString) (e : ValWithTS V) :
    (c.endlessRecord k e).expiresAt = none := by
  unfold DiskCodec.endlessRecord
  split_ifs <;> rfl

variable {value : Option V} {ts : Timestamp} {ttl : Int64}

theorem lone_setDisk (c : DiskCodec V) (k : GoString) (value : Option V) (ts : Timestamp)
    (ttl : Int64) : Lone c k (setEntry value ts ttl) (setDisk k value ts ttl) := by
  refine ⟨?_, fun i k' hk' => ?_, fun name => ?_⟩
  · change ((newStore.modifyShard k (fun shard => shard.put k (setEntry value ts ttl))).shards
      (shardIndex k)).cache k = _
    rw [shards_modifyShard, if_pos rfl, put_of_not_dominated]
    · exact Function.update_self _ _ _
    · rintro ⟨x, hx, -⟩
      cases hx
  · exact Prod.mk.inj (List.mem_singleton.1 ((dirty_setDisk k value ts ttl (i, k')).1 hk'))
  · have hk : ((setDisk k value ts ttl).store.getShard k).dirty k = true :=
      (dirty_setDisk k value ts ttl (slot k)).2 (List.mem_singleton_self _)
    rw [hk]
    simp only [Bool.true_eq_false, and_false, if_false]
    exact Std.TreeMap.getElem?_emptyc

theorem load_setDisk (httl : ttl ≤ 0) {orders : Fin numShards → List GoString}
    {flushed : Fin numShards → GoString → Int64}
    (hranges : ∀ i, (setDisk k value ts ttl).Ranges i (orders i)) {now : GoString → Int64}
    {items : List (GoString × Record)}
    (hvisible : Visible ((setDisk k value ts ttl).close c orders flushed).db now items) :
    Store.load c now items =
      some (newStore.loadRecord c now (k, c.endlessRecord k (setEntry value ts ttl))) := by
  have hdb (name : GoString) : ((setDisk k value ts ttl).close c orders flushed).db[name]? = _ :=
    (lone_setDisk c k value ts ttl).close (expired_setEntry httl value ts 0).2 hranges name
  obtain rfl := hvisible.eq_singleton (expiresAt_endlessRecord c k _) hdb
  apply if_neg
  rintro ⟨w, hw, hmark, hshort⟩
  obtain rfl := List.mem_singleton.1 hw
  dsimp only at hmark hshort
  rw [DiskCodec.endlessRecord, if_pos hmark, length_bigEndian] at hshort
  omega

theorem loadRecord_of_no_event (hkind : recordKind k = .window) (hevent : windowEvent k = none)
    (s : Store V) (now : GoString → Int64) (r : Record) : s.loadRecord c now (k, r) = s := by
  apply s.modifyShard_eq_self k
  rw [StoreShard.loadRecord_eq, hkind]
  simp only [windowEvent, hkind] at hevent
  simp only [StoreShard.loadWindow]
  split
  · next hsplit =>
      rw [hsplit] at hevent
      cases hevent
  · rfl

theorem created_of_not_entry (hkind : recordKind k ≠ .entry)
    (hevent : recordKind k = .window → windowEvent k ≠ none) (now : GoString → Int64)
    (r : Record) (hwithin : (newStore.loadRecord c now (k, r)).Within
      (setDisk k value ts ttl).store) : False := by
  have hreplicated : (setDisk k value ts ttl).store.replicated = _ :=
    newStore.replicated_put k (setEntry value ts ttl)
  have hwatermarks : (setDisk k value ts ttl).store.watermarks = _ :=
    newStore.watermarks_put k (setEntry value ts ttl)
  cases hk : recordKind k with
  | entry => exact hkind hk
  | count kind =>
      refine hwithin.counts (slot k) ?_ (by rw [hreplicated]; rfl)
      change ((newStore.loadRecord c now (k, r)).shards (shardIndex k)).counts k ≠ none
      rw [view_loadRecord (counts_loadRecord c now), if_pos ⟨rfl, rfl⟩, loadedCount, hk]
      exact Option.some_ne_none _
  | watermark =>
      refine hwithin.watermarks (shardIndex k, k.drop 9) ?_ (by rw [hwatermarks]; rfl)
      change ((newStore.loadRecord c now (k, r)).shards (shardIndex k)).peerSeqs (k.drop 9) ≠ none
      unfold loadRecord
      rw [shards_modifyShard, if_pos rfl, StoreShard.loadRecord_eq, hk]
      dsimp only
      rw [Function.update_self]
      exact Option.some_ne_none _
  | window =>
      obtain ⟨event, hevent⟩ := Option.ne_none_iff_exists'.1 (hevent hk)
      refine hwithin.windows (slot event.1) ?_ (by rw [hreplicated]; rfl)
      rw [Store.windows_loadRecord, hevent]
      simp only [if_true]
      exact Option.some_ne_none _

/-- A key that is set in a fresh store survives a restart, with nothing created, exactly when `load`
takes it for the key of an entry. A nil value under a key that looks like a window's and names no
event cannot be told from no entry. -/
theorem restores_set_iff (hk : k ≠ []) (httl : ttl ≤ 0)
    (hround : c.unmarshal (c.marshal (setEntry value ts ttl)) = some (setEntry value ts ttl))
    {orders : Fin numShards → List GoString} {flushed : Fin numShards → GoString → Int64}
    (hranges : ∀ i, (setDisk k value ts ttl).Ranges i (orders i)) {now : GoString → Int64}
    {items : List (GoString × Record)}
    (hvisible : Visible ((setDisk k value ts ttl).close c orders flushed).db now items) :
    (setDisk k value ts ttl).Restores c k value now items ↔
      recordKind k = .entry ∨ value = none ∧ recordKind k = .window ∧ windowEvent k = none := by
  have hload := load_setDisk httl hranges hvisible
  constructor
  · rintro ⟨s, hs, hget, hwithin⟩
    obtain rfl := Option.some.inj (hload.symm.trans hs)
    by_cases hentry : recordKind k = .entry
    · exact Or.inl hentry
    · by_cases hnone : recordKind k = .window ∧ windowEvent k = none
      · rw [loadRecord_of_no_event hnone.1 hnone.2] at hget
        exact Or.inr ⟨(hget 0).symm, hnone⟩
      · exact (created_of_not_entry hentry (fun hkind hevent => hnone ⟨hkind, hevent⟩) now _
          hwithin).elim
  · rintro (hentry | ⟨rfl, hkind, hevent⟩)
    · have hrun : StepSystem.run (Disk.step c) Disk.empty ([] ++ [.op (.set k value ts ttl)]) =
          some (setDisk k value ts ttl) := rfl
      exact restores_of_latest httl hround hrun ⟨⟨⟨hk, hentry⟩, trivial⟩, trivial⟩
        (fun a ha => by cases ha) hranges hvisible
    · refine ⟨_, hload, ?_, ?_⟩
      · rw [loadRecord_of_no_event hkind hevent]
        exact fun _ => rfl
      · rw [loadRecord_of_no_event hkind hevent]
        exact ⟨fun _ hp => absurd rfl hp, fun _ hp => absurd rfl hp, fun _ hp => absurd rfl hp,
          fun _ hp => absurd rfl hp⟩

end Single

/-- A key alone survives a restart exactly when `load` takes it for the key of an entry, and under
such keys a latest write survives every run that keeps the kinds of records apart, with counters,
metrics and windows of the same keys. -/
theorem user_keys_iff (c : DiskCodec V) :
    (∀ (k : GoString) (value : Option V) (ts : Timestamp) (ttl : Int64)
      (orders : Fin numShards → List GoString) (flushed : Fin numShards → GoString → Int64)
      (now : GoString → Int64) (items : List (GoString × Record)), k ≠ [] → ttl ≤ 0 →
      c.unmarshal (c.marshal (setEntry value ts ttl)) = some (setEntry value ts ttl) →
      (∀ i, (setDisk k value ts ttl).Ranges i (orders i)) →
      Visible ((setDisk k value ts ttl).close c orders flushed).db now items →
      ((setDisk k value ts ttl).Restores c k value now items ↔
        recordKind k = .entry ∨ value = none ∧ recordKind k = .window ∧ windowEvent k = none)) ∧
    ∀ (k : GoString) (value : Option V) (ts : Timestamp) (ttl : Int64)
      (as₁ as₂ : List (DiskAction V)) (d : Disk V) (orders : Fin numShards → List GoString)
      (flushed : Fin numShards → GoString → Int64) (now : GoString → Int64)
      (items : List (GoString × Record)), ttl ≤ 0 →
      c.unmarshal (c.marshal (setEntry value ts ttl)) = some (setEntry value ts ttl) →
      StepSystem.run (Disk.step c) Disk.empty (as₁ ++ .op (.set k value ts ttl) :: as₂) = some d →
      StepSystem.Along (Disk.step c) Disk.Separate Disk.empty
        (as₁ ++ .op (.set k value ts ttl) :: as₂) →
      (∀ a ∈ as₁ ++ as₂, a.Before k ts) → (∀ i, d.Ranges i (orders i)) →
      Visible (d.close c orders flushed).db now items → d.Restores c k value now items := by
  constructor
  · intro k value ts ttl orders flushed now items hk httl hround hranges hvisible
    exact restores_set_iff hk httl hround hranges hvisible
  · intro k value ts ttl as₁ as₂ d orders flushed now items httl hround hrun hseparate hlatest
      hranges hvisible
    exact restores_of_latest httl hround hrun hseparate hlatest hranges hvisible

def sharedRun : List (DiskAction UInt8) :=
  [.op (.incrementSlidingWindow (bytes "k") 1000 500 1000),
    .op (.increment (bytes "k") (bytes "a") 2)]

def sharedDisk : Disk UInt8 :=
  ⟨((newStore.incrementSlidingWindow (bytes "k") 1000 500 1000).1.increment (bytes "k")
    (bytes "a") 2).1.set (bytes "k") (some 7) ⟨2000, 0⟩ 0, ∅, []⟩

def sharedMarks : List (Fin numShards × GoString) :=
  [slot (bytes "k"), countSlot (bytes "k") (bytes "a")]

theorem dirty_sharedDisk (p : Fin numShards × GoString) :
    flatten StoreShard.dirty sharedDisk.store p = true ↔ p ∈ sharedMarks := by
  have hnone : ((newStore.incrementSlidingWindow (bytes "k") 1000 500 1000).1.increment (bytes "k")
      (bytes "a") 2).1.replicated.cache (slot (bytes "k")) = (none : Option (ValWithTS UInt8)) := by
    rw [replicated_increment]
    rfl
  unfold sharedDisk sharedMarks
  rw [dirty_set _ _ _ _ hnone, dirty_increment, dirty_incrementSlidingWindow]
  simp only [Function.update_apply, List.mem_cons, List.not_mem_nil, or_false]
  split_ifs with hslot hcount
  · simp [hslot]
  · simp [hcount]
  · simp [hslot, hcount]
    rfl

theorem user_keys_iff_shared :
    sharedDisk.Restores byteCodec (bytes "k") (some 7) (fun _ => 4000)
      (sharedDisk.close byteCodec (Disk.ordersOf sharedMarks) (fun _ _ => 3000)).db.toList := by
  have hcolon : colon ∉ bytes "k" := by decide
  have hset : (StoreOp.set (bytes "k") (some (7 : UInt8)) ⟨2000, 0⟩ 0).Named := ⟨by decide, rfl⟩
  have hkeeps : (Disk.empty : Disk UInt8).KeepsWindows
      (.incrementSlidingWindow (bytes "k") 1000 500 1000) := by
    intro hall
    exact absurd (hall 1000 (List.mem_append_right _ (List.mem_singleton_self _))) (by decide)
  refine (user_keys_iff byteCodec).2 (bytes "k") (some 7) ⟨2000, 0⟩ 0 sharedRun [] sharedDisk _ _ _
    _ (by decide) (by decide +kernel) rfl ?_ ?_ (Disk.ranges_ordersOf dirty_sharedDisk)
    (Visible.toList _ _)
  · exact ⟨⟨hcolon, hkeeps⟩, ⟨hcolon, trivial⟩, ⟨hset, trivial⟩, trivial⟩
  · intro a ha
    simp only [sharedRun, List.append_nil, List.mem_cons, List.not_mem_nil, or_false] at ha
    rcases ha with rfl | rfl
    · trivial
    · trivial

def counterLike : Disk UInt8 := setDisk (bytes "c:x:y") (some 7) ⟨1000, 0⟩ 0

def counterItems : List (GoString × Record) :=
  (counterLike.close byteCodec (Disk.ordersOf [slot (bytes "c:x:y")]) (fun _ _ => 2000)).db.toList

theorem counterItems_isSome :
    (Store.load byteCodec (fun _ => 3000) counterItems).isSome = true := by
  decide +kernel

/-- After a restart the value is gone, and a counter has come into being. -/
theorem set_creates_counter :
    (∀ i, counterLike.Ranges i (Disk.ordersOf [slot (bytes "c:x:y")] i)) ∧
    counterLike.store.get (bytes "c:x:y") 4000 = some 7 ∧
    counterLike.store.replicated.aggregateCounts (slot (bytes "x")) = none ∧
    ∃ s, Store.load byteCodec (fun _ => 3000) counterItems = some s ∧
      s.get (bytes "c:x:y") 4000 = none ∧
      s.replicated.aggregateCounts (slot (bytes "x")) ≠ none := by
  refine ⟨fun i => Disk.ranges_ordersOf (dirty_setDisk _ _ _ _) i, by decide +kernel,
    by decide +kernel, ?_⟩
  refine ⟨_, (Option.some_get counterItems_isSome).symm, ?_⟩
  decide +kernel

end Capacitor
