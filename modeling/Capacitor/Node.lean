import Capacitor.StoreSpec
import Capacitor.Log

/-!
# A node: local calls and remote entries

`Replica` is the part of a node that its calls and the entries of its peers change: the store and
the clock. Each local call of `capacitor.go` gives the new replica, the entry it hands to the delta
log, and its result; `applyRemoteEntry` is what a received entry does, and `Replicated.apply` is its
effect on the replicated maps. The serialisation of values
is a parameter: it may refuse a value, and an undecodable byte string gives `nil`. Latency metrics
are left out.
-/

namespace Capacitor

variable {V : Type*}

structure Msgpack (V : Type*) where
  marshal : Option V → Option GoString
  unmarshal : GoString → Option V

/-- The value comes back from the encoding it is replicated in. -/
def Msgpack.RoundTrips (mp : Msgpack V) (v : Option V) : Prop :=
  ∃ bin, mp.marshal v = some bin ∧ mp.unmarshal bin = v

def byteMsgpack : Msgpack UInt8 := ⟨fun v => some v.toList, fun bin => bin.head?⟩

theorem byteMsgpack_roundTrips (v : Option UInt8) : byteMsgpack.RoundTrips v := by
  refine ⟨v.toList, rfl, ?_⟩
  cases v <;> rfl

def twoNodeIDs (i : Bool) : GoString := if i then bytes "b" else bytes "a"

structure Replica (V : Type*) where
  store : Store V
  hlc : HLC

def millisecond : Int64 := 1000000

def setLogEntry (ts : Timestamp) (bornAt : Int64) (key binVal : GoString) (ttl : Int64) :
    LogEntry where
  seq := 0
  ts := ts
  bornAt := bornAt
  op := .set
  key := key
  nodeID := []
  value := binVal
  delta := 0
  ttl := ttl / millisecond

def deleteLogEntry (ts : Timestamp) (bornAt : Int64) (key : GoString) : LogEntry where
  seq := 0
  ts := ts
  bornAt := bornAt
  op := .delete
  key := key
  nodeID := []
  value := []
  delta := 0
  ttl := 0

def incrLogEntry (ts : Timestamp) (bornAt : Int64) (key nodeID : GoString) (nodeVal : ℚ) :
    LogEntry where
  seq := 0
  ts := ts
  bornAt := bornAt
  op := .incr
  key := key
  nodeID := nodeID
  value := []
  delta := nodeVal
  ttl := 0

def metricLogEntry (ts : Timestamp) (key nodeID : GoString) (delta : ℚ) : LogEntry where
  seq := 0
  ts := ts
  bornAt := 0
  op := .metric
  key := key
  nodeID := nodeID
  value := []
  delta := delta
  ttl := 0

def windowLogEntry (ts : Timestamp) (key nodeID : GoString) : LogEntry where
  seq := 0
  ts := ts
  bornAt := 0
  op := .window
  key := key
  nodeID := nodeID
  value := []
  delta := 0
  ttl := 0

/-- The log as the list of all entries ever appended: the number an entry gets is its position,
counted from one. -/
def appendEntry (log : List LogEntry) (e : LogEntry) : List LogEntry :=
  log ++ [{ e with seq := log.length + 1 }]

namespace Replica

/-- The entry is `none` when the value cannot be serialised; the local write has then happened. -/
def set (mp : Msgpack V) (r : Replica V) (wall bornAt : Int64) (key : GoString) (value : Option V)
    (ttl : Int64) : Replica V × Option LogEntry :=
  let (hlc, ts) := r.hlc.now wall
  (⟨r.store.set key value ts ttl, hlc⟩,
    (mp.marshal value).map (fun binVal => setLogEntry ts bornAt key binVal ttl))

def delete (r : Replica V) (wall bornAt : Int64) (key : GoString) : Replica V × LogEntry :=
  let (hlc, ts) := r.hlc.now wall
  (⟨r.store.delete key ts, hlc⟩, deleteLogEntry ts bornAt key)

def incrementBy [Rounding] (nodeID : GoString) (r : Replica V) (wall bornAt : Int64)
    (key : GoString) (delta : ℤ) : Replica V × LogEntry × ℤ :=
  let (store, val) := r.store.increment key nodeID (Rounding.round delta)
  let nodeVal := store.getNodeCount key nodeID
  let (hlc, ts) := r.hlc.now wall
  (⟨store, hlc⟩, incrLogEntry ts bornAt key nodeID nodeVal, truncate val)

def incrementMetric [Rounding] (nodeID : GoString) (r : Replica V) (wall : Int64)
    (key : GoString) (delta : ℚ) : Replica V × LogEntry × Metric :=
  let (store, m) := r.store.incrementMetric key nodeID delta
  let (hlc, ts) := r.hlc.now wall
  (⟨store, hlc⟩, metricLogEntry ts key nodeID delta, m)

def incrementSlidingWindow (nodeID : GoString) (r : Replica V) (wall now : Int64) (key : GoString)
    (window : Int64) : Replica V × LogEntry × ℕ :=
  let (hlc, ts) := r.hlc.now wall
  let (store, count) := r.store.incrementSlidingWindow key ts.physical window now
  (⟨store, hlc⟩, windowLogEntry ts key nodeID, count)

end Replica

/-- The store operation an accepted entry stands for. -/
def applyOp [Rounding] (mp : Msgpack V) (s : Store V) (e : LogEntry) : Store V :=
  match e.op with
  | .set => s.set e.key (mp.unmarshal e.value) e.ts (e.ttl * millisecond)
  | .incr => s.setNodeCount e.key e.nodeID e.delta
  | .metric => (s.incrementMetric e.key e.nodeID e.delta).1
  | .window => s.addWindowTimestamp e.key e.ts.physical
  | .delete => s.delete e.key e.ts
  | .unknown _ => s

/-- The same operation on the four replicated maps alone. -/
def Replicated.apply [Rounding] (mp : Msgpack V) (R : Replicated V) (e : LogEntry) : Replicated V :=
  match e.op with
  | .set => R.put (Store.slot e.key)
      (Store.setEntry (mp.unmarshal e.value) e.ts (e.ttl * millisecond))
  | .incr => R.raise (Store.countSlot e.key e.nodeID) (Store.slot e.key) e.delta
  | .metric => (R.add (shardIndex e.key, metricCountKey e.key e.nodeID)
        (shardIndex e.key, bytes "m:c:" ++ e.key) 1).add
      (shardIndex e.key, metricSumKey e.key e.nodeID)
      (shardIndex e.key, bytes "m:s:" ++ e.key) e.delta
  | .window => R.insertWindow (Store.slot e.key) e.ts.physical
  | .delete => R.put (Store.slot e.key) (Store.tombstone e.ts)
  | .unknown _ => R

theorem replicated_applyOp [Rounding] (mp : Msgpack V) (s : Store V) (e : LogEntry) :
    (applyOp mp s e).replicated = s.replicated.apply mp e := by
  unfold applyOp Replicated.apply
  cases e.op with
  | set => exact s.replicated_put e.key _
  | incr => exact s.replicated_setNodeCount e.key e.nodeID e.delta
  | metric => exact s.replicated_incrementMetric e.key e.nodeID e.delta
  | window => exact s.replicated_addWindowTimestamp e.key e.ts.physical
  | delete => exact s.replicated_put e.key _
  | unknown code => rfl

def applyRemoteEntry [Rounding] (mp : Msgpack V) (r : Replica V) (wall : Int64) (e : LogEntry) :
    Replica V :=
  match r.hlc.update wall e.ts with
  | none => r
  | some (hlc, _) => ⟨(applyOp mp r.store e).updatePeerSeq e.nodeID e.seq, hlc⟩

theorem applyRemoteEntry_of_smash [Rounding] {mp : Msgpack V} {r : Replica V} {wall : Int64}
    {e : LogEntry} (h : r.hlc.smash wall e.ts = true) : applyRemoteEntry mp r wall e = r := by
  rw [applyRemoteEntry, (HLC.update_eq_none_iff _ _ _).2 h]

theorem applyRemoteEntry_of_accept [Rounding] {mp : Msgpack V} {r : Replica V} {wall : Int64}
    {e : LogEntry} (h : r.hlc.smash wall e.ts = false) :
    applyRemoteEntry mp r wall e =
      ⟨(applyOp mp r.store e).updatePeerSeq e.nodeID e.seq, r.hlc.merge wall e.ts⟩ := by
  rw [applyRemoteEntry, (HLC.update_eq_some_iff _ _ _ _ _).2 ⟨h, rfl, rfl⟩]

theorem smash_applyRemoteEntry [Rounding] (mp : Msgpack V) (r : Replica V) (wall : Int64)
    (e : LogEntry) (wall' : Int64) (ts : Timestamp) :
    (applyRemoteEntry mp r wall e).hlc.smash wall' ts = r.hlc.smash wall' ts := by
  cases h : r.hlc.smash wall e.ts with
  | true => rw [applyRemoteEntry_of_smash h]
  | false =>
      rw [applyRemoteEntry_of_accept h]
      simp only [HLC.smash, HLC.maxOffset_merge]

theorem replicated_applyRemoteEntry_of_accept [Rounding] {mp : Msgpack V} {r : Replica V}
    {wall : Int64} {e : LogEntry} (h : r.hlc.smash wall e.ts = false) :
    (applyRemoteEntry mp r wall e).store.replicated = r.store.replicated.apply mp e := by
  rw [applyRemoteEntry_of_accept h, Store.replicated_updatePeerSeq, replicated_applyOp]

theorem watermarks_applyOp [Rounding] (mp : Msgpack V) (s : Store V) (e : LogEntry) :
    (applyOp mp s e).watermarks = s.watermarks := by
  unfold applyOp
  cases e.op with
  | set => exact s.watermarks_put e.key _
  | incr => exact s.watermarks_setNodeCount e.key e.nodeID e.delta
  | metric => exact s.watermarks_incrementMetric e.key e.nodeID e.delta
  | window => exact s.watermarks_addWindowTimestamp e.key e.ts.physical
  | delete => exact s.watermarks_put e.key _
  | unknown code => rfl

/-- An entry moves the watermark of no node but its own, and that one only up to its number. -/
theorem getPeerSeq_applyRemoteEntry [Rounding] (mp : Msgpack V) (r : Replica V) (wall : Int64)
    (e : LogEntry) (nodeID : GoString) :
    (applyRemoteEntry mp r wall e).store.getPeerSeq nodeID = r.store.getPeerSeq nodeID ∨
      e.nodeID = nodeID ∧ r.store.getPeerSeq nodeID ≤ e.seq ∧
        (applyRemoteEntry mp r wall e).store.getPeerSeq nodeID = e.seq := by
  have hop (nodeID : GoString) :
      (applyOp mp r.store e).getPeerSeq nodeID = r.store.getPeerSeq nodeID := by
    rw [Store.getPeerSeq_eq, watermarks_applyOp, ← Store.getPeerSeq_eq]
  cases h : r.hlc.smash wall e.ts with
  | true => exact Or.inl (by rw [applyRemoteEntry_of_smash h])
  | false =>
      rw [applyRemoteEntry_of_accept h, Store.getPeerSeq_updatePeerSeq, hop, hop]
      split_ifs with hid
      · subst hid
        rcases le_total e.seq (r.store.getPeerSeq e.nodeID) with hle | hle
        · exact Or.inl (max_eq_left hle)
        · exact Or.inr ⟨rfl, hle, max_eq_right hle⟩
      · exact Or.inl rfl

end Capacitor
