import Capacitor.LocalWrites
import Capacitor.Persistence

/-!
# The clock after a restart

`New` loads the store and starts the clock at a bare reading of the wall clock, without a look at
the timestamps it has just loaded. An accepted entry may be ahead of the wall clock, so a loaded
entry may be ahead of the new clock, and `set` drops a write that is not newer than the entry it
finds. That is the only way in which a local write is lost, as long as the logical counters do not
run out: entries that were written since the start are never ahead of the clock.
-/

namespace Capacitor

variable {V : Type*}

open Store

/-- The store and the clock that `New` builds on a database. -/
def reopen (c : DiskCodec V) (now : GoString → Int64) (items : List (GoString × Record))
    (start offset : Int64) : Option (Replica V) :=
  (load c now items).map (fun s => ⟨s, (newHLC start).setMaxOffset offset⟩)

def ValWithTS.served (x : ValWithTS V) (now : Int64) : Option V :=
  if live x now then x.value else none

theorem get_of_cache {s : Store V} {key : GoString} {x : ValWithTS V}
    (h : s.replicated.cache (slot key) = some x) (now : Int64) : s.get key now = x.served now := by
  have hcache : (s.getShard key).cache key = some x := h
  unfold Store.get
  rw [hcache]
  rfl

theorem served_setEntry (value : Option V) (ts : Timestamp) {ttl : Int64} (httl : ttl ≤ 0)
    (now : Int64) : (setEntry value ts ttl).served now = value := by
  have hexpires : (setEntry value ts ttl).expiresAt = 0 := if_neg (Int64.not_lt.2 httl)
  have hlive : live (setEntry value ts ttl) now = true := by
    unfold live
    rw [hexpires]
    rfl
  exact if_pos hlive

/-- A write is read back exactly if no entry that is not older than it serves something else. -/
theorem get_set_iff (s : Store V) (key : GoString) (value : Option V) (ts : Timestamp) {ttl : Int64}
    (httl : ttl ≤ 0) (now : Int64) :
    (s.set key value ts ttl).get key now = value ↔
      ∀ x, s.replicated.cache (slot key) = some x → ts ≤ x.timestamp → x.served now = value := by
  have hput := congrArg Replicated.cache (s.replicated_put key (setEntry value ts ttl))
  by_cases h : ∃ x, s.replicated.cache (slot key) = some x ∧ ts ≤ x.timestamp
  · obtain ⟨x, hx, hle⟩ := h
    have hkept : (s.set key value ts ttl).replicated.cache (slot key) = some x := by
      refine (congrFun hput (slot key)).trans ?_
      unfold Replicated.put
      rw [LastWriter.write_of_dominated _ hx hle, hx]
    rw [get_of_cache hkept]
    constructor
    · intro hserved y hy _
      rwa [← Option.some.inj (hx.symm.trans hy)]
    · intro hall
      exact hall x hx hle
  · push Not at h
    have hwritten : (s.set key value ts ttl).replicated.cache (slot key) =
        some (setEntry value ts ttl) :=
      (congrFun hput (slot key)).trans
        (LastWriter.write_of_not_dominated _ (fun x hx => h x hx))
    rw [get_of_cache hwritten, served_setEntry value ts httl]
    exact ⟨fun _ x hx hle => absurd hle (not_le.2 (h x hx)), fun _ => rfl⟩

variable (c : DiskCodec V) (mp : Msgpack V) (nodeID : GoString)

/-- After a restart a local write without a time to live is read back exactly if no entry of its key
that is not older serves something else; such an entry is one that `load` restored and that is ahead
of the reading the clock was started from. -/
theorem read_own_write_iff (now : GoString → Int64) (items : List (GoString × Record))
    (start offset : Int64) (r₀ r : Replica V) (as : List (NodeAction V))
    (hopen : reopen c now items start offset = some r₀)
    (hrun : StepSystem.run (Replica.step mp nodeID) r₀ as = some r)
    (wall bornAt : Int64) (key : GoString) (value : Option V) (ttl : Int64) (httl : ttl ≤ 0)
    (t : Int64) :
    ((r.set mp wall bornAt key value ttl).1.store.get key t = value ↔
      ∀ x, r.store.replicated.cache (slot key) = some x → (r.hlc.now wall).2 ≤ x.timestamp →
        x.served t = value) ∧
      (StepSystem.Along (Replica.step mp nodeID) CountersBelow r₀ as →
        ∀ x, r.store.replicated.cache (slot key) = some x → (r.hlc.now wall).2 ≤ x.timestamp →
          r₀.store.replicated.cache (slot key) = some x ∧
            (⟨start, 0⟩ : Timestamp) < x.timestamp) := by
  refine ⟨get_set_iff r.store key value _ httl t, ?_⟩
  intro hbelow x hx hle
  obtain ⟨s, _, rfl⟩ := Option.map_eq_some_iff.1 hopen
  have h : ClockAheadSince ⟨start, 0⟩ s.replicated.cache r := by
    refine StepSystem.run_invariant_along (fun s a t hs hc hstep => hs.step hc hstep) ?_ hbelow hrun
    exact ⟨show (0 : Int32) ≠ 2147483647 by decide, le_rfl, fun p x hx => Or.inr hx⟩
  have hlt : r.hlc.time < x.timestamp := (r.hlc.time_lt_now wall h.counter).trans_le hle
  refine ⟨(h.cache _ x hx).resolve_left (not_le.2 hlt), h.started.trans_lt hlt⟩

/-- A peer's write 400 ns ahead of the wall clock, within the maximal offset. -/
def aheadRun : List (NodeAction UInt8) :=
  [.applyRemoteEntry 1000 { setLogEntry ⟨1400, 0⟩ 1390 (bytes "k") [5] 0 with seq := 1 }]

def aheadDisk : Disk UInt8 :=
  ⟨(newStore.set (bytes "k") (some 5) ⟨1400, 0⟩ 0).updatePeerSeq [] 1, ∅, []⟩

def aheadOrders (i : Fin numShards) : List GoString :=
  if i = shardIndex (bytes "k") then [bytes "k"]
  else if i = shardIndex (peerSeqKey []) then [peerSeqKey []]
  else []

def aheadItems : List (GoString × Record) :=
  (aheadDisk.close byteCodec aheadOrders (fun _ _ => 1000)).db.toList

theorem ranges_ahead (i : Fin numShards) : aheadDisk.Ranges i (aheadOrders i) := by
  have hdirty : flatten StoreShard.dirty aheadDisk.store =
      Function.update (Function.update (fun _ => false) (slot (bytes "k")) true)
        (slot (peerSeqKey [])) true := by
    unfold aheadDisk
    rw [dirty_updatePeerSeq _ _ _ (by decide), dirty_set _ _ _ _ rfl]
    rfl
  have hne : shardIndex (bytes "k") ≠ shardIndex (peerSeqKey []) := by decide
  intro k
  have hk : (aheadDisk.store.shards i).dirty k = _ := congrFun hdirty (i, k)
  rw [hk]
  unfold aheadOrders
  simp only [Function.update_apply, slot, Prod.mk.injEq]
  split_ifs <;> simp_all

theorem reopen_ahead_isSome (start : Int64) :
    (reopen byteCodec (fun _ => 1001) aheadItems start 500).isSome := by
  unfold reopen
  rw [Option.isSome_map]
  decide +kernel

theorem read_own_write_iff_passed :
    ∃ r₀, reopen byteCodec (fun _ => 1001) aheadItems 1401 500 = some r₀ ∧
      (r₀.set byteMsgpack 1402 1402 (bytes "k") (some 7) 0).1.store.get (bytes "k") 1403 =
        some 7 := by
  refine ⟨_, (Option.some_get (reopen_ahead_isSome 1401)).symm, ?_⟩
  apply (read_own_write_iff byteCodec byteMsgpack (bytes "a") (fun _ => 1001) aheadItems 1401 500
    _ _ [] (Option.some_get (reopen_ahead_isSome 1401)).symm rfl 1402 1402 (bytes "k") (some 7) 0
    (by decide) 1403).1.2
  intro x hx hle
  have hloaded : ((reopen byteCodec (fun _ => 1001) aheadItems 1401 500).get
      (reopen_ahead_isSome 1401)).store.replicated.cache (slot (bytes "k")) =
        some ⟨some 5, ⟨1400, 0⟩, 0, false⟩ := by
    decide +kernel
  obtain rfl := Option.some.inj (hloaded.symm.trans hx)
  exact absurd hle (by decide +kernel)

/-- The node restarts 1 ns after its last reading; its own write is dropped and the peer's value is
read. -/
theorem not_read_own_write_ahead :
    ∃ r₁ r₀, StepSystem.run (Replica.step byteMsgpack (bytes "a")) (newNode 1000 500) aheadRun =
        some r₁ ∧
      r₁.store = aheadDisk.store ∧ (∀ i, aheadDisk.Ranges i (aheadOrders i)) ∧
      Visible (aheadDisk.close byteCodec aheadOrders (fun _ _ => 1000)).db (fun _ => 1001)
        aheadItems ∧
      reopen byteCodec (fun _ => 1001) aheadItems 1001 500 = some r₀ ∧
      (r₀.set byteMsgpack 1002 1002 (bytes "k") (some 7) 0).2.isSome ∧
      (r₀.set byteMsgpack 1002 1002 (bytes "k") (some 7) 0).1.store.get (bytes "k") 1003 =
        some 5 := by
  refine ⟨_, _, rfl, rfl, ranges_ahead, Visible.toList _ _,
    (Option.some_get (reopen_ahead_isSome 1001)).symm, ?_⟩
  decide +kernel

end Capacitor
