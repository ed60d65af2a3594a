import Capacitor.Clock
import Capacitor.Keys
import Capacitor.Rounding

/-!
# The sharded in-memory store

The operations of `store.go` on its 256 shards. A Go map is a function to `Option`, so that a
missing key and a zero value stay distinct; `m[k]` with Go's zero default is `.getD 0`. A Go value
of type `any` is an `Option V`, with `none` for `nil`. Counts are rationals, and every sum of two
counts is rounded by the `Rounding` in force; results that take counts as exact numbers are stated
without one. Every operation holds the lock of the one shard it touches, so it is one atomic step; a
reading of the wall clock is an argument.
-/

namespace Capacitor

variable {V : Type*}

structure ValWithTS (V : Type*) where
  value : Option V
  timestamp : Timestamp
  expiresAt : Int64
  deleted : Bool
  deriving DecidableEq

def ValWithTS.expired (e : ValWithTS V) (now : Int64) : Bool :=
  e.expiresAt > 0 && now > e.expiresAt

structure StoreShard (V : Type*) where
  cache : GoString → Option (ValWithTS V)
  counts : GoString → Option ℚ
  aggregateCounts : GoString → Option ℚ
  windows : GoString → Option (List Int64)
  dirty : GoString → Bool
  peerSeqs : GoString → Option ℕ

def newStoreShard : StoreShard V where
  cache _ := none
  counts _ := none
  aggregateCounts _ := none
  windows _ := none
  dirty _ := false
  peerSeqs _ := none

structure Store (V : Type*) where
  shards : Fin numShards → StoreShard V

structure Metric where
  count : ℤ
  sum : ℚ
  deriving DecidableEq

/-- Go's conversion of a floating-point count to an integer of a type that can hold it. -/
def truncate (q : ℚ) : ℤ := q.num.tdiv q.den

def hour : Int64 := 3600 * 1000000000

/-- `m[k] += d` on a map of counts. -/
def addTo [Rounding] {K : Type*} [DecidableEq K] (m : K → Option ℚ) (k : K) (d : ℚ) :
    K → Option ℚ :=
  Function.update m k (some (Rounding.round ((m k).getD 0 + d)))

namespace StoreShard

/-- The guard shared by `set` and `delete`, and the write it protects. -/
def put (s : StoreShard V) (key : GoString) (e : ValWithTS V) : StoreShard V :=
  if ∃ existing ∈ s.cache key, existing.timestamp.greaterOrEqual e.timestamp then s
  else { s with
    cache := Function.update s.cache key (some e)
    dirty := Function.update s.dirty key true }

def addCount [Rounding] (s : StoreShard V) (nodeKey key : GoString) (d : ℚ) : StoreShard V :=
  { s with
    counts := addTo s.counts nodeKey d
    aggregateCounts := addTo s.aggregateCounts key d
    dirty := Function.update s.dirty nodeKey true }

/-- The janitor's pass over the cache of one shard. -/
def pruneExpiredKeys (s : StoreShard V) (now : Int64) : StoreShard V :=
  { s with
    cache := fun key => (s.cache key).filter (fun e => !e.expired now)
    dirty := fun key => s.dirty key || (s.cache key).any (fun e => e.expired now) }

/-- The janitor's pass over the windows of one shard; it marks nothing dirty. -/
def pruneStaleWindows (s : StoreShard V) (now : Int64) : StoreShard V :=
  { s with
    windows := fun key => (s.windows key).filter (fun win =>
      match win.getLast? with
      | none => false
      | some newest => !(now - newest > hour)) }

end StoreShard

/-- The scan of `addWindowTimestamp`: `none` when the timestamp is met before a greater one, else
the position to insert it at. -/
def windowIndex (ts : Int64) : List Int64 → Option ℕ
  | [] => some 0
  | t :: rest =>
      if t = ts then none
      else if t > ts then some 0
      else (windowIndex ts rest).map (· + 1)

namespace Store

def newStore : Store V := ⟨fun _ => newStoreShard⟩

def getShard (s : Store V) (key : GoString) : StoreShard V := s.shards (shardIndex key)

def modifyShard (s : Store V) (key : GoString) (f : StoreShard V → StoreShard V) : Store V :=
  ⟨Function.update s.shards (shardIndex key) (f (s.getShard key))⟩

def setEntry (value : Option V) (ts : Timestamp) (ttl : Int64) : ValWithTS V :=
  ⟨value, ts, if ttl > 0 then ts.physical + ttl else 0, false⟩

def tombstone (ts : Timestamp) : ValWithTS V := ⟨none, ts, ts.physical + hour, true⟩

def set (s : Store V) (key : GoString) (value : Option V) (ts : Timestamp) (ttl : Int64) :
    Store V :=
  s.modifyShard key (fun shard => shard.put key (setEntry value ts ttl))

def delete (s : Store V) (key : GoString) (ts : Timestamp) : Store V :=
  s.modifyShard key (fun shard => shard.put key (tombstone ts))

/-- The entry is a value that can be served at the reading `now`. -/
def live (e : ValWithTS V) (now : Int64) : Bool :=
  !e.deleted && !(e.expiresAt > 0 && now > e.expiresAt)

def get (s : Store V) (key : GoString) (now : Int64) : Option V :=
  match (s.getShard key).cache key with
  | none => none
  | some e => if live e now then e.value else none

def exists? (s : Store V) (key : GoString) (now : Int64) : Bool :=
  match (s.getShard key).cache key with
  | none => false
  | some e => live e now

def getNodeCount (s : Store V) (key nodeID : GoString) : ℚ :=
  ((s.getShard key).counts (counterKey key nodeID)).getD 0

def getAggregateCount (s : Store V) (key : GoString) : ℚ :=
  ((s.getShard key).aggregateCounts key).getD 0

def increment [Rounding] (s : Store V) (key nodeID : GoString) (delta : ℚ) : Store V × ℚ :=
  let s' := s.modifyShard key (fun shard => shard.addCount (counterKey key nodeID) key delta)
  (s', s'.getAggregateCount key)

def setNodeCount [Rounding] (s : Store V) (key nodeID : GoString) (val : ℚ) : Store V :=
  if val > s.getNodeCount key nodeID then
    s.modifyShard key (fun shard =>
      { shard with
        counts := Function.update shard.counts (counterKey key nodeID) (some val)
        aggregateCounts := addTo shard.aggregateCounts key
          (Rounding.round (val - s.getNodeCount key nodeID))
        dirty := Function.update shard.dirty (counterKey key nodeID) true })
  else s

def getAggregateMetric (s : Store V) (key : GoString) : Metric :=
  ⟨truncate (((s.getShard key).aggregateCounts (bytes "m:c:" ++ key)).getD 0),
    ((s.getShard key).aggregateCounts (bytes "m:s:" ++ key)).getD 0⟩

def incrementMetric [Rounding] (s : Store V) (key nodeID : GoString) (delta : ℚ) :
    Store V × Metric :=
  let s' := s.modifyShard key (fun shard =>
    (shard.addCount (metricCountKey key nodeID) (bytes "m:c:" ++ key) 1).addCount
      (metricSumKey key nodeID) (bytes "m:s:" ++ key) delta)
  (s', s'.getAggregateMetric key)

def getWindow (s : Store V) (key : GoString) : List Int64 :=
  ((s.getShard key).windows key).getD []

/-- The local event is appended and the leading events older than the horizon are cut off. The
number cut is the number of old events found anywhere in the list. -/
def incrementSlidingWindow (s : Store V) (key : GoString) (ts window now : Int64) : Store V × ℕ :=
  let win := s.getWindow key ++ [ts]
  let horizon := now - window
  let kept := win.drop (win.countP (fun t => t < horizon))
  (s.modifyShard key (fun shard =>
    { shard with
      windows := Function.update shard.windows key (if kept = [] then none else some kept)
      dirty := Function.update shard.dirty key true }),
    win.countP (fun t => t ≥ horizon))

def addWindowTimestamp (s : Store V) (key : GoString) (ts : Int64) : Store V :=
  match windowIndex ts (s.getWindow key) with
  | none => s
  | some idx =>
      s.modifyShard key (fun shard =>
        { shard with
          windows := Function.update shard.windows key
            (some ((s.getWindow key).take idx ++ ts :: (s.getWindow key).drop idx))
          dirty := Function.update shard.dirty key true })

def getPeerSeq (s : Store V) (nodeID : GoString) : ℕ :=
  ((s.getShard (peerSeqKey nodeID)).peerSeqs nodeID).getD 0

def updatePeerSeq (s : Store V) (nodeID : GoString) (seq : ℕ) : Store V :=
  if seq > s.getPeerSeq nodeID then
    s.modifyShard (peerSeqKey nodeID) (fun shard =>
      { shard with
        peerSeqs := Function.update shard.peerSeqs nodeID (some seq)
        dirty := Function.update shard.dirty (peerSeqKey nodeID) true })
  else s

/-- The janitor locks one shard at a time. -/
def pruneExpiredKeys (s : Store V) (i : Fin numShards) (now : Int64) : Store V :=
  ⟨Function.update s.shards i ((s.shards i).pruneExpiredKeys now)⟩

def pruneStaleWindows (s : Store V) (i : Fin numShards) (now : Int64) : Store V :=
  ⟨Function.update s.shards i ((s.shards i).pruneStaleWindows now)⟩

theorem shards_modifyShard (s : Store V) (key : GoString) (f : StoreShard V → StoreShard V)
    (i : Fin numShards) :
    (s.modifyShard key f).shards i = if i = shardIndex key then f (s.shards i) else s.shards i := by
  change Function.update s.shards (shardIndex key) (f (s.getShard key)) i = _
  split_ifs with h
  · subst i
    exact Function.update_self _ _ _
  · exact Function.update_of_ne h _ _

theorem modifyShard_eq_self (s : Store V) (key : GoString) (f : StoreShard V → StoreShard V)
    (hf : f (s.getShard key) = s.getShard key) : s.modifyShard key f = s := by
  unfold modifyShard
  rw [hf]
  exact congrArg Store.mk (Function.update_eq_self _ _)

end Store
end Capacitor
