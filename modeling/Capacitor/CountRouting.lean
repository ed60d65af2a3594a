import Capacitor.ExactSums
import Capacitor.Reload

/-!
# The keys of counters on disk

The operations join the tag, the user's key and the node with colons, and `load` splits at every
colon. A key that has a colon itself is therefore routed to another shard and added to the aggregate
of another key. Runs of counter and metric operations over keys without colons, with any flushes,
give the same counts and aggregates after a restart, as long as neither the operations nor the
loader form a sum that is rounded; a flush reads no clock for them.
-/

namespace Capacitor

variable {V : Type*}

/-- The counter and metric operations over keys without a colon. -/
def StoreOp.Counts : StoreOp V → Prop
  | increment key _ _ => colon ∉ key
  | setNodeCount key _ _ => colon ∉ key
  | incrementMetric key _ _ => colon ∉ key
  | _ => False

theorem StoreOp.Counts.plain {o : StoreOp V} (h : o.Counts) : o.Plain := by
  cases o with
  | increment key nodeID delta => exact h
  | setNodeCount key nodeID val => exact h
  | incrementMetric key nodeID delta => exact h
  | _ => exact h.elim

theorem StoreOp.Counts.cache_apply {o : StoreOp V} (h : o.Counts) (s : Store V) :
    (o.apply s).replicated.cache = s.replicated.cache := by
  cases o with
  | increment key nodeID delta =>
      change (s.increment key nodeID delta).1.replicated.cache = _
      rw [Store.replicated_increment]
      rfl
  | setNodeCount key nodeID val =>
      change (s.setNodeCount key nodeID val).replicated.cache = _
      rw [Store.replicated_setNodeCount, Replicated.cache_raise]
  | incrementMetric key nodeID delta =>
      change (s.incrementMetric key nodeID delta).1.replicated.cache = _
      rw [Store.replicated_incrementMetric]
      rfl
  | _ => exact h.elim

/-- A step of a run of counter and metric operations that rounds no sum. -/
def Counting [Rounding] (d : Disk V) : DiskAction V → Prop
  | .op o => o.Counts ∧ o.Exact d.store
  | .flushShard i order _ => d.Ranges i order
  | .commit => True

/-- A store without registers, as its database records it. -/
structure CountsPersisted (c : DiskCodec V) (d : Disk V) : Prop where
  persisted : Persisted c 0 d
  cache : ∀ p, d.store.replicated.cache p = none

namespace CountsPersisted

variable {c : DiskCodec V} {d d' : Disk V}

theorem reads (h : CountsPersisted c d) (i : Fin numShards) (order : List GoString)
    (now : GoString → Int64) : d.Reads 0 i order now := by
  intro k _ x hx
  cases (h.cache (i, k)).symm.trans hx

theorem op (h : CountsPersisted c d) {o : StoreOp V} (ho : o.Counts) :
    CountsPersisted c { d with store := o.apply d.store } := by
  refine ⟨h.persisted.op ho.plain, ?_⟩
  intro p
  change (o.apply d.store).replicated.cache p = none
  rw [ho.cache_apply d.store, h.cache p]

theorem step [Rounding] (h : CountsPersisted c d) {a : DiskAction V} (ha : Counting d a)
    (hstep : d.step c a = some d') : CountsPersisted c d' := by
  cases a with
  | op o =>
      obtain rfl := Option.some.inj hstep
      rw [StoreOp.apply_of_exact ha.2]
      exact h.op ha.1
  | flushShard i order now =>
      obtain rfl := Option.some.inj hstep
      refine ⟨h.persisted.flushShard ha (h.reads i order now), ?_⟩
      rintro ⟨j, k⟩
      have hj := h.cache (j, k)
      change ((d.flushShard c i order now).store.shards j).cache k = none
      rw [Disk.shards_flushShard]
      split_ifs <;> exact hj
  | commit =>
      obtain rfl := Option.some.inj hstep
      exact ⟨h.persisted.commit, h.cache⟩

end CountsPersisted

/-- The loader routes a composite key back to the user's key exactly if that has no colon. Where all
keys of counters and metrics are so and no sum is rounded, a restart changes no count and no
aggregate. -/
theorem count_routing_iff [Rounding] (c : DiskCodec V) :
    (∀ key nodeID, Routed c key nodeID ↔ colon ∉ key) ∧
      ∀ (as : List (DiskAction V)) (d : Disk V) (orders : Fin numShards → List GoString)
        (flushed : Fin numShards → GoString → Int64) (now : GoString → Int64)
        (items : List (GoString × Record)),
        StepSystem.run (Disk.step c) Disk.empty as = some d →
        StepSystem.Along (Disk.step c) Counting Disk.empty as →
        (∀ i, d.Ranges i (orders i)) →
        (∀ p v, d.store.replicated.counts p = some v →
          c.float64FromBytes (c.float64ToBytes v) = v) →
        Visible (d.close c orders flushed).db now items →
        LoadExact c now items →
        ∃ s, Store.load c now items = some s ∧
          (∀ key nodeID, s.getNodeCount key nodeID = d.store.getNodeCount key nodeID) ∧
          (∀ key, s.getAggregateCount key = d.store.getAggregateCount key) ∧
          ∀ key, s.getAggregateMetric key = d.store.getAggregateMetric key := by
  refine ⟨routed_iff c, ?_⟩
  intro as d orders flushed now items hrun hcounting hranges hcounts hvisible hexact
  have hd : CountsPersisted c d := StepSystem.run_invariant_along
    (fun _ _ _ hd ha hstep => hd.step ha hstep) ⟨Persisted.empty, fun _ => rfl⟩ hcounting hrun
  have h : Reloads c 0 d.store (d.close c orders flushed).db now items :=
    ⟨hd.persisted.placed, hd.persisted.balanced,
      hd.persisted.recorded_close hranges (fun i => hd.reads i _ _), hvisible, hcounts⟩
  rw [Store.load_of_exact hexact]
  exact ⟨_, h.load_eq, h.getNodeCount_eq, h.getAggregateCount_eq, h.getAggregateMetric_eq⟩

section Float64

attribute [local instance] Rounding.nearest

def countDisk (key : GoString) : Disk UInt8 :=
  ⟨(Store.newStore.increment key (bytes "a") 2).1, ∅, []⟩

def countOrders (key : GoString) (i : Fin numShards) : List GoString :=
  if i = shardIndex key then [counterKey key (bytes "a")] else []

theorem ranges_count (key : GoString) (i : Fin numShards) :
    (countDisk key).Ranges i (countOrders key i) := by
  have hdirty : Store.flatten StoreShard.dirty (countDisk key).store =
      Function.update (fun _ => false) (Store.countSlot key (bytes "a")) true :=
    Store.dirty_increment _ _ _ _
  intro k
  have hk : ((countDisk key).store.shards i).dirty k = _ := congrFun hdirty (i, k)
  rw [hk]
  unfold countOrders
  simp only [Function.update_apply, Store.countSlot, Prod.mk.injEq]
  split_ifs <;> simp_all

theorem count_routing_iff_plain :
    Routed byteCodec (bytes "n") (bytes "a") ∧
      ∃ s, Store.load byteCodec (fun _ => 0)
          ((countDisk (bytes "n")).close byteCodec (countOrders (bytes "n"))
            (fun _ _ => 0)).db.toList = some s ∧
        s.getAggregateCount (bytes "n") = 2 := by
  obtain ⟨hrouted, hrestart⟩ := count_routing_iff byteCodec
  refine ⟨(hrouted (bytes "n") (bytes "a")).2 (by decide), ?_⟩
  have hcounts (p v) (hv : (countDisk (bytes "n")).store.replicated.counts p = some v) : v = 2 := by
    unfold countDisk at hv
    rw [Store.replicated_increment] at hv
    change Function.update (fun _ => none) _ (some (Rounding.round (0 + 2))) p = some v at hv
    rw [Function.update_apply] at hv
    split_ifs at hv
    obtain rfl := Option.some.inj hv
    decide +kernel
  have hexact : Store.newStore.AddsExactly (bytes "n") (counterKey (bytes "n") (bytes "a"))
      (bytes "n") 2 (V := UInt8) := by
    decide +kernel
  obtain ⟨s, hload, _, haggregate, _⟩ := hrestart
    [.op (.increment (bytes "n") (bytes "a") 2)] (countDisk (bytes "n")) (countOrders (bytes "n"))
    (fun _ _ => 0) (fun _ => 0) _ rfl ⟨⟨show colon ∉ bytes "n" by decide, hexact⟩, trivial⟩
    (ranges_count (bytes "n"))
    (fun p v hv => by rw [hcounts p v hv]; decide +kernel) (Visible.toList _ _)
    (by decide +kernel)
  refine ⟨s, hload, ?_⟩
  rw [haggregate]
  decide +kernel

def sessionItems : List (GoString × Record) :=
  ((countDisk (bytes "session:123")).close byteCodec (countOrders (bytes "session:123"))
    (fun _ _ => 0)).db.toList

theorem sessionItems_isSome : (Store.load byteCodec (fun _ => 0) sessionItems).isSome := by
  decide +kernel

/-- The count of `session:123` is lost by a restart and appears under `session`. -/
theorem not_count_routing_session :
    ¬ Routed byteCodec (bytes "session:123") (bytes "a") ∧
      ∃ d s, StepSystem.run (Disk.step byteCodec) Disk.empty
          [.op (.increment (bytes "session:123") (bytes "a") 2)] = some d ∧
        (∀ i, d.Ranges i (countOrders (bytes "session:123") i)) ∧
        Visible (d.close byteCodec (countOrders (bytes "session:123")) (fun _ _ => 0)).db
          (fun _ => 0) sessionItems ∧
        Store.load byteCodec (fun _ => 0) sessionItems = some s ∧
        d.store.getNodeCount (bytes "session:123") (bytes "a") = 2 ∧
        s.getNodeCount (bytes "session:123") (bytes "a") = 0 ∧
        d.store.getAggregateCount (bytes "session:123") = 2 ∧
        s.getAggregateCount (bytes "session:123") = 0 ∧
        d.store.getAggregateCount (bytes "session") = 0 ∧
        s.getAggregateCount (bytes "session") = 2 := by
  refine ⟨fun h => (routed_iff byteCodec _ _).1 h (by decide), countDisk (bytes "session:123"), _,
    rfl, ranges_count _, Visible.toList _ _, (Option.some_get sessionItems_isSome).symm, ?_⟩
  decide +kernel

end Float64
end Capacitor
