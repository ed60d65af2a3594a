import Capacitor.LogRange
import Capacitor.Transport

/-!
# Set and values that cannot be serialised

`Capacitor.Set` writes to the store before it serialises the value for the log. When the
serialisation fails the call returns its error, and the local write stays: it is read by `Get` and
will be flushed, but no peer ever hears of it. A value that can be serialised is entered into the
log, but its bytes reach the buffer only when the size estimate of the entry does not exceed it. A
write that is refused, because the entry under the key is not older, changes nothing.
-/

namespace Capacitor

variable {V : Type*}

/-- `Capacitor.Set`: the node, and whether an error is returned; `none` when the append panics. -/
def Node.set (c : Codec) (mp : Msgpack V) (n : Node V) (wall bornAt : Int64) (key : GoString)
    (value : Option V) (ttl : Int64) : Option (Node V × Bool) :=
  let (replica, entry) := n.replica.set mp wall bornAt key value ttl
  match entry with
  | none => some ({ n with replica := replica }, true)
  | some e =>
      (n.log.append c e).map (fun log => ({ n with replica := replica, log := log }, false))

namespace Node

variable {c : Codec} {mp : Msgpack V} {n n' : Node V} {wall bornAt : Int64} {key : GoString}
  {value : Option V} {ttl : Int64}

theorem set_of_marshal_none (h : mp.marshal value = none) :
    n.set c mp wall bornAt key value ttl =
      some ({ n with replica := (n.replica.set mp wall bornAt key value ttl).1 }, true) := by
  simp only [set, Replica.set, h, Option.map_none]

theorem set_of_marshal_some {binVal : GoString} (h : mp.marshal value = some binVal) :
    n.set c mp wall bornAt key value ttl =
      (n.log.append c (setLogEntry (n.replica.hlc.now wall).2 bornAt key binVal ttl)).map
        (fun log =>
          ({ n with replica := (n.replica.set mp wall bornAt key value ttl).1, log := log },
            false)) := by
  simp only [set, Replica.set, h, Option.map_some]

/-- The entry under the key is not older than the write, which is then refused. -/
def Refuses (n : Node V) (wall : Int64) (key : GoString) : Prop :=
  ∃ existing ∈ (n.replica.store.getShard key).cache key,
    existing.timestamp.greaterOrEqual (n.replica.hlc.now wall).2 = true

theorem store_set (mp : Msgpack V) (r : Replica V) (wall bornAt : Int64) (key : GoString)
    (value : Option V) (ttl : Int64) :
    (r.set mp wall bornAt key value ttl).1.store = r.store.set key value (r.hlc.now wall).2 ttl :=
  rfl

theorem set_of_refuses (h : n.Refuses wall key) :
    n.replica.store.set key value (n.replica.hlc.now wall).2 ttl = n.replica.store := by
  obtain ⟨existing, hexisting, hge⟩ := h
  exact n.replica.store.modifyShard_eq_self key _
    (Store.put_of_dominated hexisting ((Timestamp.greaterOrEqual_iff _ _).1 hge))

theorem cache_set_ne (h : ¬ n.Refuses wall key) :
    ((n.replica.store.set key value (n.replica.hlc.now wall).2 ttl).getShard key).cache key ≠
      (n.replica.store.getShard key).cache key := by
  intro hsame
  have hwrite := congrFun (congrArg Replicated.cache (n.replica.store.replicated_put key
    (Store.setEntry value (n.replica.hlc.now wall).2 ttl))) (Store.slot key)
  obtain ⟨x, hx, hle⟩ := LastWriter.le_write_self ValWithTS.timestamp
    n.replica.store.replicated.cache (Store.slot key)
    (Store.setEntry value (n.replica.hlc.now wall).2 ttl)
  have hbefore : (n.replica.store.getShard key).cache key = some x :=
    hsame.symm.trans (hwrite.trans hx)
  exact h ⟨x, hbefore, (Timestamp.greaterOrEqual_iff _ _).2 hle⟩

/-- A call that returns leaves the cache, the dirty set and the log as they were if it returns an
error, and a reader of the log is served the entry of a write that shows in the cache, exactly if
the write is refused, or the value can be serialised and its entry has room in the buffer. -/
theorem set_atomic_iff (c : Codec) (mp : Msgpack V) {capacity : ℕ} (hlog : n.log.Sized capacity)
    {err : Bool} (hset : n.set c mp wall bornAt key value ttl = some (n', err)) :
    ((err = true →
        (∀ k, (n'.replica.store.getShard k).cache k = (n.replica.store.getShard k).cache k) ∧
        (∀ i, (n'.replica.store.shards i).dirty = (n.replica.store.shards i).dirty) ∧
        n'.log = n.log) ∧
      ((n'.replica.store.getShard key).cache key ≠ (n.replica.store.getShard key).cache key →
        ∃ binVal, mp.marshal value = some binVal ∧
          ∀ maxBytes, n'.log.getEntriesRaw n.log.head 1 maxBytes =
            some [c.marshalMsg { setLogEntry (n.replica.hlc.now wall).2 bornAt key binVal ttl with
              seq := n.log.head }])) ↔
      (∃ binVal, mp.marshal value = some binVal ∧
        ((setLogEntry (n.replica.hlc.now wall).2 bornAt key binVal ttl).msgsize ≤ n.log.bufCap ∨
          n.log.HasBytes c (setLogEntry (n.replica.hlc.now wall).2 bornAt key binVal ttl))) ∨
        n.Refuses wall key := by
  by_cases hrefuses : n.Refuses wall key
  · have hstore : n.replica.store.set key value (n.replica.hlc.now wall).2 ttl =
        n.replica.store := set_of_refuses hrefuses
    refine ⟨fun _ => Or.inr hrefuses, fun _ => ?_⟩
    cases hmarshal : mp.marshal value with
    | none =>
        rw [set_of_marshal_none hmarshal] at hset
        obtain ⟨rfl, rfl⟩ := Prod.mk.inj (Option.some.inj hset)
        rw [store_set, hstore]
        exact ⟨fun _ => ⟨fun _ => rfl, fun _ => rfl, rfl⟩, fun hne => absurd rfl hne⟩
    | some binVal =>
        rw [set_of_marshal_some hmarshal] at hset
        obtain ⟨log, -, heq⟩ := Option.map_eq_some_iff.1 hset
        obtain ⟨rfl, rfl⟩ := Prod.mk.inj heq
        rw [store_set, hstore]
        exact ⟨fun herr => Bool.noConfusion herr, fun hne => absurd rfl hne⟩
  · have hchanged : ((n.replica.store.set key value (n.replica.hlc.now wall).2 ttl).getShard
        key).cache key ≠ (n.replica.store.getShard key).cache key := cache_set_ne hrefuses
    cases hmarshal : mp.marshal value with
    | none =>
        rw [set_of_marshal_none hmarshal] at hset
        obtain ⟨rfl, rfl⟩ := Prod.mk.inj (Option.some.inj hset)
        refine ⟨fun h => absurd ((h.1 rfl).1 key) hchanged, ?_⟩
        rintro (⟨binVal, hbin, -⟩ | hr)
        · cases hbin
        · exact absurd hr hrefuses
    | some binVal =>
        rw [set_of_marshal_some hmarshal] at hset
        obtain ⟨log, happend, heq⟩ := Option.map_eq_some_iff.1 hset
        obtain ⟨rfl, rfl⟩ := Prod.mk.inj heq
        have hserved := DeltaLog.served_append_iff hlog.head_pos hlog.bufCap_lt happend
        constructor
        · intro h
          obtain ⟨bin, hbin, hentry⟩ := h.2 hchanged
          cases hbin
          exact Or.inl ⟨binVal, rfl, (hserved 0).1 (hentry 0)⟩
        · rintro (⟨bin, hbin, hroom⟩ | hr)
          · cases hbin
            exact ⟨fun herr => Bool.noConfusion herr,
              fun _ => ⟨binVal, rfl, fun maxBytes => (hserved maxBytes).2 hroom⟩⟩
          · exact absurd hr hrefuses

def choosyMsgpack : Msgpack UInt8 where
  marshal v := if v = some 0 then none else some v.toList
  unmarshal bin := bin.head?

def newNode : Node UInt8 :=
  ⟨bytes "a", [], ⟨Store.newStore, newHLC 9⟩, newDeltaLog 8, fun _ => none⟩

theorem newNode_set_isSome : (newNode.set (tableCodec (fun _ => 0) []) choosyMsgpack 10 10
    (bytes "k") (some 1) 0).isSome = true := by
  decide +kernel

theorem set_atomic_iff_newNode :
    ∃ n', newNode.set (tableCodec (fun _ => 0) []) choosyMsgpack 10 10 (bytes "k") (some 1) 0 =
        some (n', false) ∧
      n'.replica.store.get (bytes "k") 11 = some 1 ∧
      ∃ binVal, ∀ maxBytes, n'.log.getEntriesRaw 1 1 maxBytes =
        some [(tableCodec (fun _ => 0) []).marshalMsg
          { setLogEntry ⟨10, 0⟩ 10 (bytes "k") binVal 0 with seq := 1 }] := by
  obtain ⟨⟨n', err⟩, hset⟩ := Option.isSome_iff_exists.1 newNode_set_isSome
  have hatomic := set_atomic_iff _ _ (DeltaLog.sized_newDeltaLog 8) hset
  obtain ⟨rfl, rfl⟩ := Prod.mk.inj (Option.some.inj hset)
  obtain ⟨binVal, -, hserved⟩ := (hatomic.2 (Or.inl ⟨[1], rfl, Or.inl (by decide)⟩)).2
    (by decide +kernel)
  exact ⟨_, rfl, by decide +kernel, binVal, hserved⟩

/-- The call returns an error, and its value is read locally and marked for the next flush, while
the log has no entry. -/
theorem failed_set_stays :
    ∃ n', newNode.set (tableCodec (fun _ => 0) []) choosyMsgpack 10 10 (bytes "k") (some 0) 0 =
        some (n', true) ∧
      newNode.replica.store.get (bytes "k") 11 = none ∧
      n'.replica.store.get (bytes "k") 11 = some 0 ∧
      (n'.replica.store.getShard (bytes "k")).dirty (bytes "k") = true ∧ n'.log.head = 1 := by
  refine ⟨_, rfl, ?_⟩
  decide +kernel

end Node

end Capacitor
