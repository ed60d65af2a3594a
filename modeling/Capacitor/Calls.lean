import Capacitor.StepSystem
import Capacitor.Registers
import Capacitor.Node

/-!
# The calls of a node

`ApiCall` is a call of the node's interface with the readings of the clock it makes, and
`Replica.call` is what it does to the node, with the entry it hands to the delta log. A run of a
node mixes its calls, the entries of its peers and the passes of the janitor over the cache. Every
cache entry that a step leaves was there before it, or carries the timestamp the step was given.
-/

namespace Capacitor

variable {V : Type*}

open Store

inductive ApiCall (V : Type*) where
  | set (wall bornAt : Int64) (key : GoString) (value : Option V) (ttl : Int64)
  | delete (wall bornAt : Int64) (key : GoString)
  | incrementBy (wall bornAt : Int64) (key : GoString) (delta : ℤ)
  | incrementMetric (wall : Int64) (key : GoString) (delta : ℚ)
  | incrementSlidingWindow (wall now : Int64) (key : GoString) (window : Int64)

namespace ApiCall

def wall : ApiCall V → Int64
  | set wall _ _ _ _ => wall
  | delete wall _ _ => wall
  | incrementBy wall _ _ _ => wall
  | incrementMetric wall _ _ => wall
  | incrementSlidingWindow wall _ _ _ => wall

/-- The write of the cache that the call makes at a timestamp. -/
def register (ts : Timestamp) : ApiCall V → Option (RegisterOp V)
  | set _ _ key value ttl => some (.set key value ts ttl)
  | delete _ _ key => some (.delete key ts)
  | _ => none

end ApiCall

def Replica.call [Rounding] (mp : Msgpack V) (nodeID : GoString) (r : Replica V) :
    ApiCall V → Replica V × Option LogEntry
  | .set wall bornAt key value ttl => r.set mp wall bornAt key value ttl
  | .delete wall bornAt key => ((r.delete wall bornAt key).1, some (r.delete wall bornAt key).2)
  | .incrementBy wall bornAt key delta =>
      ((r.incrementBy nodeID wall bornAt key delta).1,
        some (r.incrementBy nodeID wall bornAt key delta).2.1)
  | .incrementMetric wall key delta =>
      ((r.incrementMetric nodeID wall key delta).1,
        some (r.incrementMetric nodeID wall key delta).2.1)
  | .incrementSlidingWindow wall now key window =>
      ((r.incrementSlidingWindow nodeID wall now key window).1,
        some (r.incrementSlidingWindow nodeID wall now key window).2.1)

inductive NodeAction (V : Type*) where
  | call (c : ApiCall V)
  | applyRemoteEntry (wall : Int64) (e : LogEntry)
  | pruneExpiredKeys (i : Fin numShards) (now : Int64)

def Replica.step [Rounding] (mp : Msgpack V) (nodeID : GoString) (r : Replica V) :
    NodeAction V → Option (Replica V)
  | .call c => some (r.call mp nodeID c).1
  | .applyRemoteEntry wall e => some (applyRemoteEntry mp r wall e)
  | .pruneExpiredKeys i now => some { r with store := r.store.pruneExpiredKeys i now }

def newNode (start offset : Int64) : Replica V :=
  ⟨Store.newStore, (newHLC start).setMaxOffset offset⟩

section Effects

variable (mp : Msgpack V) (nodeID : GoString) (r : Replica V)

@[simp] theorem hlc_call (c : ApiCall V) :
    (r.call mp nodeID c).1.hlc = (r.hlc.now c.wall).1 := by
  cases c <;> rfl

theorem cache_call (c : ApiCall V) :
    (r.call mp nodeID c).1.store.replicated.cache =
      ((c.register (r.hlc.now c.wall).2).elim r.store
        (RegisterOp.apply r.store)).replicated.cache := by
  cases c with
  | set wall bornAt key value ttl => rfl
  | delete wall bornAt key => rfl
  | incrementBy wall bornAt key delta =>
      change (r.store.increment key nodeID delta).1.replicated.cache = r.store.replicated.cache
      rw [r.store.replicated_increment]
      rfl
  | incrementMetric wall key delta =>
      change (r.store.incrementMetric key nodeID delta).1.replicated.cache =
        r.store.replicated.cache
      rw [r.store.replicated_incrementMetric]
      rfl
  | incrementSlidingWindow wall now key window =>
      exact r.store.cache_incrementSlidingWindow key _ window now

theorem ts_of_register {c : ApiCall V} {ts : Timestamp} {o : RegisterOp V}
    (h : c.register ts = some o) : o.ts = ts := by
  cases c with
  | set wall bornAt key value ttl =>
      obtain rfl := Option.some.inj h
      rfl
  | delete wall bornAt key =>
      obtain rfl := Option.some.inj h
      rfl
  | incrementBy wall bornAt key delta => cases h
  | incrementMetric wall key delta => cases h
  | incrementSlidingWindow wall now key window => cases h

variable {mp nodeID r}

theorem mem_cache_call {c : ApiCall V} {p : Fin numShards × GoString} {x : ValWithTS V}
    (h : (r.call mp nodeID c).1.store.replicated.cache p = some x) :
    r.store.replicated.cache p = some x ∨ x.timestamp = (r.hlc.now c.wall).2 := by
  rw [cache_call] at h
  cases ho : c.register (r.hlc.now c.wall).2 with
  | none =>
      rw [ho] at h
      exact Or.inl h
  | some o =>
      rw [ho, Option.elim_some, RegisterOp.cache_apply] at h
      rcases LastWriter.eq_some_of_write _ h with hold | ⟨_, rfl⟩
      · exact Or.inl hold
      · exact Or.inr (o.entry_timestamp.trans (ts_of_register ho))

theorem mem_cache_apply {R : Replicated V} {e : LogEntry} {p : Fin numShards × GoString}
    {x : ValWithTS V} (h : (R.apply mp e).cache p = some x) :
    R.cache p = some x ∨ x.timestamp = e.ts := by
  unfold Replicated.apply at h
  cases hop : e.op with
  | set =>
      rw [hop] at h
      rcases LastWriter.eq_some_of_write _ h with hold | ⟨_, rfl⟩
      · exact Or.inl hold
      · exact Or.inr rfl
  | delete =>
      rw [hop] at h
      rcases LastWriter.eq_some_of_write _ h with hold | ⟨_, rfl⟩
      · exact Or.inl hold
      · exact Or.inr rfl
  | incr =>
      rw [hop] at h
      exact Or.inl (by rwa [Replicated.cache_raise] at h)
  | window =>
      rw [hop] at h
      exact Or.inl (by rwa [Replicated.cache_insertWindow] at h)
  | metric =>
      rw [hop] at h
      exact Or.inl h
  | unknown code =>
      rw [hop] at h
      exact Or.inl h

theorem mem_cache_applyRemoteEntry {wall : Int64} {e : LogEntry} {p : Fin numShards × GoString}
    {x : ValWithTS V} (h : (applyRemoteEntry mp r wall e).store.replicated.cache p = some x) :
    r.store.replicated.cache p = some x ∨
      r.hlc.smash wall e.ts = false ∧ x.timestamp = e.ts := by
  cases hs : r.hlc.smash wall e.ts with
  | true =>
      rw [applyRemoteEntry_of_smash hs] at h
      exact Or.inl h
  | false =>
      rw [replicated_applyRemoteEntry_of_accept hs] at h
      exact (mem_cache_apply h).imp_right (fun hts => ⟨rfl, hts⟩)

end Effects
end Capacitor
