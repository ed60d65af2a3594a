import Capacitor.StepSystem
import Capacitor.WriteBatch
import Capacitor.StoreSpec

/-!
# The store on disk

`flush`, `close` and `load` of `store.go`. The database is an ordered map of records, and a record
written with a time to live carries the instant it was asked to last until. A flush takes a
snapshot of the dirty keys of one shard after the other and commits what it has collected as one
batch; `order` is the order in which Go ranges over the dirty map. The iteration of `load` meets
every record that has not outlived its instant, and may still meet one that has. The serialisation
of an entry and the bit patterns of floating-point numbers are parameters.
-/

namespace Capacitor

variable {V : Type*}

structure Record where
  data : GoString
  expiresAt : Option Int64
  deriving DecidableEq

abbrev Database := Std.TreeMap GoString Record

structure DiskCodec (V : Type*) where
  marshal : ValWithTS V → GoString
  unmarshal : GoString → Option (ValWithTS V)
  float64bits : ℚ → UInt64
  float64frombits : UInt64 → ℚ
  /-- The result of a conversion to `uint64` that is out of range, which Go leaves open. -/
  outOfRange : UInt64

/-- `binary.BigEndian.Uint64`, which reads the first eight bytes. -/
def bigEndianUint64 (b : GoString) : ℕ := (b.take 8).foldl (fun n x => 256 * n + x.toNat) 0

namespace DiskCodec

variable (c : DiskCodec V)

def float64ToBytes (f : ℚ) : GoString := bigEndian 8 (c.float64bits f).toNat

def float64FromBytes (b : GoString) : ℚ :=
  if b.length < 8 then 0 else c.float64frombits (bigEndianUint64 b).toUInt64

end DiskCodec

def byteCodec : DiskCodec UInt8 where
  marshal e := (if e.deleted then 1 else 0) :: (bigEndian 8 e.timestamp.physical.toUInt64.toNat ++
    bigEndian 8 e.timestamp.logical.toUInt32.toNat ++
    bigEndian 8 e.expiresAt.toUInt64.toNat ++ e.value.toList)
  unmarshal b := some ⟨(b.drop 25).head?,
    ⟨Int64.ofNat (bigEndianUint64 (b.drop 1)), Int32.ofNat (bigEndianUint64 (b.drop 9))⟩,
    Int64.ofNat (bigEndianUint64 (b.drop 17)), b.head? = some 1⟩
  float64bits f := f.num.toNat.toUInt64
  float64frombits u := u.toNat
  outOfRange := 9223372036854775808

/-- The conversion of a `uint64` to the nearest `float64`, ties to even. -/
def float64OfUint64 (n : ℕ) : ℚ :=
  let unit := 2 ^ (n.log2 - 52)
  let q := n / unit
  let r := n % unit
  ((if 2 * r > unit ∨ 2 * r = unit ∧ q % 2 = 1 then q + 1 else q) * unit : ℕ)

def DiskCodec.uint64OfFloat64 (c : DiskCodec V) (f : ℚ) : ℕ :=
  if 0 ≤ truncate f ∧ truncate f < 2 ^ 64 then (truncate f).toNat else c.outOfRange.toNat

def formatInt (i : ℤ) : GoString :=
  (if i < 0 then [45] else []) ++
    if i = 0 then [48] else (Nat.digits 10 i.natAbs).reverse.map (fun d => 48 + d.toUInt8)

/-- The scan of `strconv.ParseUint`: it stops at a byte that is no digit, with an error, and at the
first digit that exceeds 64 bits, with the greatest value. -/
def parseUint (n : ℕ) : GoString → Option ℕ
  | [] => some n
  | b :: rest =>
      if 48 ≤ b ∧ b ≤ 57 then
        if 10 * n + (b - 48).toNat < 2 ^ 64 then parseUint (10 * n + (b - 48).toNat) rest
        else some (2 ^ 64 - 1)
      else none

/-- The value of `strconv.ParseInt` in base 10, its error ignored. -/
def parseInt (s : GoString) : Int64 :=
  let digits := if s.head? = some 45 ∨ s.head? = some 43 then s.tail else s
  match if digits = [] then none else parseUint 0 digits with
  | none => 0
  | some un =>
      if s.head? = some 45 then Int64.ofInt (max (-un) (-2 ^ 63))
      else Int64.ofInt (min un (2 ^ 63 - 1))

def windowKey (key : GoString) (ts : Int64) : GoString :=
  bytes "sw:" ++ (key ++ colon :: formatInt ts.toInt)

structure SnapshotItem (V : Type*) where
  key : GoString
  val : Option (ValWithTS V)
  count : ℚ
  win : Option (List Int64)
  deleted : Bool

/-- What `flush` copies of a dirty key under the lock. A copy of an empty window is nil. -/
def StoreShard.snapshotItem (shard : StoreShard V) (k : GoString) : SnapshotItem V :=
  match shard.cache k with
  | some v => ⟨k, some v, 0, none, false⟩
  | none =>
    match shard.counts k with
    | some n => ⟨k, none, n, none, false⟩
    | none =>
      match shard.windows k with
      | some w => ⟨k, none, 0, if w = [] then none else some w, false⟩
      | none =>
        match shard.peerSeqs k with
        | some seq => ⟨k, none, float64OfUint64 seq, none, false⟩
        | none => ⟨k, none, 0, none, true⟩

/-- The record of a cache entry, or `none` when its time is over. -/
def DiskCodec.entryRecord (c : DiskCodec V) (v : ValWithTS V) (now : Int64) : Option Record :=
  if v.expiresAt > 0 then
    if v.expiresAt - now > 0 then some ⟨c.marshal v, some (now + (v.expiresAt - now))⟩ else none
  else some ⟨c.marshal v, none⟩

def SnapshotItem.writes (c : DiskCodec V) (item : SnapshotItem V) (now : Int64) :
    List (WriteBatch.Write GoString Record) :=
  if item.deleted then [(item.key, none)]
  else if (bytes "meta:seq:").isPrefixOf item.key then
    [(item.key, some ⟨bigEndian 8 (c.uint64OfFloat64 item.count), none⟩)]
  else
    match item.val, item.win with
    | some v, _ => [(item.key, c.entryRecord v now)]
    | none, some win => win.map (fun ts => (windowKey item.key ts, some ⟨[], none⟩))
    | none, none => [(item.key, some ⟨c.float64ToBytes item.count, none⟩)]

/-- The part of a composite key that `load` takes for the name of its aggregate. -/
def loadedName (key : GoString) : Option GoString :=
  match key.splitOn colon with
  | _ :: name :: _ :: _ => some name
  | _ => none

namespace StoreShard

def loadCount [Rounding] (shard : StoreShard V) (tag key : GoString) (v : ℚ) : StoreShard V :=
  { shard with
    counts := Function.update shard.counts key (some v)
    aggregateCounts := match loadedName key with
      | some name => addTo shard.aggregateCounts (tag ++ name) v
      | none => shard.aggregateCounts }

def loadWindow (shard : StoreShard V) (key : GoString) : StoreShard V :=
  match key.splitOn colon with
  | _ :: name :: ts :: _ =>
      { shard with
        windows := Function.update shard.windows name
          (some ((shard.windows name).getD [] ++ [parseInt ts])) }
  | _ => shard

def loadEntry (shard : StoreShard V) (key : GoString) (now : Int64) (v : Option (ValWithTS V)) :
    StoreShard V :=
  match v with
  | some e =>
      if e.expired now then shard
      else { shard with cache := Function.update shard.cache key (some e) }
  | none => shard

def loadRecord [Rounding] (c : DiskCodec V) (shard : StoreShard V) (key val : GoString)
    (now : Int64) : StoreShard V :=
  if (bytes "meta:seq:").isPrefixOf key then
    { shard with
      peerSeqs := Function.update shard.peerSeqs (key.drop 9) (some (bigEndianUint64 val)) }
  else if (bytes "c:").isPrefixOf key then shard.loadCount [] key (c.float64FromBytes val)
  else if (bytes "mc:").isPrefixOf key then
    shard.loadCount (bytes "m:c:") key (c.float64FromBytes val)
  else if (bytes "ms:").isPrefixOf key then
    shard.loadCount (bytes "m:s:") key (c.float64FromBytes val)
  else if (bytes "sw:").isPrefixOf key then shard.loadWindow key
  else shard.loadEntry key now (c.unmarshal val)

end StoreShard

/-- A watermark of fewer than eight bytes, on which `load` would stop the program. -/
def ShortWatermark (item : GoString × Record) : Prop :=
  (bytes "meta:seq:").isPrefixOf item.1 = true ∧ item.2.data.length < 8

instance (item : GoString × Record) : Decidable (ShortWatermark item) :=
  inferInstanceAs (Decidable (_ ∧ _))

namespace Store

/-- `now` gives the reading of the clock at each record. -/
def loadRecord [Rounding] (c : DiskCodec V) (now : GoString → Int64) (s : Store V)
    (item : GoString × Record) : Store V :=
  s.modifyShard item.1 (fun shard => shard.loadRecord c item.1 item.2.data (now item.1))

def load [Rounding] (c : DiskCodec V) (now : GoString → Int64)
    (items : List (GoString × Record)) : Option (Store V) :=
  if ∃ item ∈ items, ShortWatermark item then none
  else some (items.foldl (loadRecord c now) newStore)

end Store

/-- The records an iteration may meet: in the order of their keys, every record whose instant has
not come, and of the others any. -/
structure Visible (db : Database) (now : GoString → Int64) (items : List (GoString × Record)) :
    Prop where
  sublist : items.Sublist db.toList
  met : ∀ k r, db[k]? = some r → (∀ e ∈ r.expiresAt, now k < e) → (k, r) ∈ items

inductive StoreOp (V : Type*) where
  | set (key : GoString) (value : Option V) (ts : Timestamp) (ttl : Int64)
  | delete (key : GoString) (ts : Timestamp)
  | increment (key nodeID : GoString) (delta : ℚ)
  | setNodeCount (key nodeID : GoString) (val : ℚ)
  | incrementMetric (key nodeID : GoString) (delta : ℚ)
  | incrementSlidingWindow (key : GoString) (ts window now : Int64)
  | addWindowTimestamp (key : GoString) (ts : Int64)
  | updatePeerSeq (nodeID : GoString) (seq : ℕ)
  | pruneExpiredKeys (i : Fin numShards) (now : Int64)
  | pruneStaleWindows (i : Fin numShards) (now : Int64)

def StoreOp.apply [Rounding] (s : Store V) : StoreOp V → Store V
  | set key value ts ttl => s.set key value ts ttl
  | delete key ts => s.delete key ts
  | increment key nodeID delta => (s.increment key nodeID delta).1
  | setNodeCount key nodeID val => s.setNodeCount key nodeID val
  | incrementMetric key nodeID delta => (s.incrementMetric key nodeID delta).1
  | incrementSlidingWindow key ts window now => (s.incrementSlidingWindow key ts window now).1
  | addWindowTimestamp key ts => s.addWindowTimestamp key ts
  | updatePeerSeq nodeID seq => s.updatePeerSeq nodeID seq
  | pruneExpiredKeys i now => s.pruneExpiredKeys i now
  | pruneStaleWindows i now => s.pruneStaleWindows i now

/-- A store, its database, and the batch of the flush that is under way. -/
structure Disk (V : Type*) where
  store : Store V
  db : Database
  batch : List (WriteBatch.Write GoString Record)

inductive DiskAction (V : Type*) where
  | op (o : StoreOp V)
  | flushShard (i : Fin numShards) (order : List GoString) (now : GoString → Int64)
  | commit

namespace Disk

variable (c : DiskCodec V) (d : Disk V)

def empty : Disk V := ⟨Store.newStore, ∅, []⟩

def flushShard (i : Fin numShards) (order : List GoString) (now : GoString → Int64) : Disk V where
  store := ⟨Function.update d.store.shards i { d.store.shards i with dirty := fun _ => false }⟩
  db := d.db
  batch := d.batch ++
    order.flatMap (fun k => ((d.store.shards i).snapshotItem k).writes c (now k))

def commit : Disk V := ⟨d.store, WriteBatch.commit d.db d.batch, []⟩

def step [Rounding] (c : DiskCodec V) (d : Disk V) : DiskAction V → Option (Disk V)
  | .op o => some { d with store := o.apply d.store }
  | .flushShard i order now => some (d.flushShard c i order now)
  | .commit => some d.commit

def flushShards (orders : Fin numShards → List GoString)
    (now : Fin numShards → GoString → Int64) (is : List (Fin numShards)) : Disk V :=
  is.foldl (fun d i => d.flushShard c i (orders i) (now i)) d

/-- The last flush; the database is what `db.Close` leaves. -/
def close (orders : Fin numShards → List GoString) (now : Fin numShards → GoString → Int64) :
    Disk V :=
  (d.flushShards c orders now (List.finRange numShards)).commit

/-- A whole map is ranged over: every dirty key of the shard and no other. -/
def Ranges (i : Fin numShards) (order : List GoString) : Prop :=
  ∀ k, k ∈ order ↔ (d.store.shards i).dirty k = true

/-- The database read through the batch that is still to be committed. -/
def written : Database := WriteBatch.commit d.db d.batch

theorem shards_flushShard (i : Fin numShards) (order : List GoString) (now : GoString → Int64)
    (j : Fin numShards) : (d.flushShard c i order now).store.shards j =
      if j = i then { d.store.shards j with dirty := fun _ => false } else d.store.shards j := by
  change Function.update d.store.shards i _ j = _
  by_cases hj : j = i
  · subst j
    rw [Function.update_self, if_pos rfl]
  · rw [Function.update_of_ne hj, if_neg hj]

theorem replicated_flushShard (i : Fin numShards) (order : List GoString)
    (now : GoString → Int64) :
    (d.flushShard c i order now).store.replicated = d.store.replicated := by
  apply Replicated.ext <;>
    funext p <;>
    simp only [Store.replicated, Store.flatten, shards_flushShard] <;>
    split_ifs <;>
    rfl

theorem shards_flushShards (orders : Fin numShards → List GoString)
    (now : Fin numShards → GoString → Int64) (is : List (Fin numShards)) (j : Fin numShards) :
    (d.flushShards c orders now is).store.shards j =
      if j ∈ is then { d.store.shards j with dirty := fun _ => false } else d.store.shards j := by
  induction is generalizing d with
  | nil => simp [flushShards]
  | cons i is ih =>
      change ((d.flushShard c i (orders i) (now i)).flushShards c orders now is).store.shards j = _
      rw [ih, shards_flushShard]
      by_cases hj : j = i
      · simp [hj]
      · simp [hj]

theorem shards_close (orders : Fin numShards → List GoString)
    (now : Fin numShards → GoString → Int64) (j : Fin numShards) :
    (d.close c orders now).store.shards j =
      { d.store.shards j with dirty := fun _ => false } := by
  change (d.flushShards c orders now (List.finRange numShards)).store.shards j = _
  rw [shards_flushShards, if_pos (List.mem_finRange j)]

theorem written_close (orders : Fin numShards → List GoString)
    (now : Fin numShards → GoString → Int64) :
    (d.close c orders now).written = (d.close c orders now).db :=
  rfl

variable {c d}

theorem ranges_flushShard {i j : Fin numShards} {order order' : List GoString}
    {now : GoString → Int64} (hj : j ≠ i) (h : d.Ranges j order') :
    (d.flushShard c i order now).Ranges j order' := by
  intro k
  rw [shards_flushShard, if_neg hj]
  exact h k

theorem flushShards_invariant {P : Disk V → Prop} {orders : Fin numShards → List GoString}
    {now : Fin numShards → GoString → Int64} {is : List (Fin numShards)} (hnodup : is.Nodup)
    (hflush : ∀ d i, i ∈ is → P d → d.Ranges i (orders i) → P (d.flushShard c i (orders i) (now i)))
    (hd : P d) (hranges : ∀ i ∈ is, d.Ranges i (orders i)) :
    P (d.flushShards c orders now is) := by
  induction is generalizing d with
  | nil => exact hd
  | cons i is ih =>
      obtain ⟨hi, hrest⟩ := List.nodup_cons.1 hnodup
      apply ih hrest (fun d j hj => hflush d j (List.mem_cons_of_mem _ hj))
        (hflush d i List.mem_cons_self hd (hranges i List.mem_cons_self))
      intro j hj
      have hne : j ≠ i := by
        rintro rfl
        exact hi hj
      exact ranges_flushShard hne (hranges j (List.mem_cons_of_mem _ hj))

end Disk

namespace Visible

variable {db : Database} {now : GoString → Int64} {items : List (GoString × Record)}

theorem getElem?_of_mem (h : Visible db now items) {w : GoString × Record} (hw : w ∈ items) :
    db[w.1]? = some w.2 :=
  Std.TreeMap.mem_toList_iff_getElem?_eq_some.1 (h.sublist.mem hw)

theorem distinct (h : Visible db now items) : items.Pairwise (fun w w' => w.1 ≠ w'.1) := by
  apply (Std.TreeMap.distinct_keys_toList.sublist h.sublist).imp
  intro w w' hne heq
  rw [heq] at hne
  exact hne Std.ReflCmp.compare_self

theorem toList (db : Database) (now : GoString → Int64) : Visible db now db.toList where
  sublist := List.Sublist.refl _
  met _ _ hr _ := Std.TreeMap.mem_toList_iff_getElem?_eq_some.2 hr

end Visible
end Capacitor
