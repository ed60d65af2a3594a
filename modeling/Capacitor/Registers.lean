import Capacitor.StoreSpec

/-!
# Last-writer-wins registers

`set` and `delete` act on the cache of the store as writes of a last-writer-wins map whose stamps
are timestamps. A sequence of register operations therefore leaves a cache that depends only on
which operations it contains, as long as no two of them on one key carry the same timestamp.
-/

namespace Capacitor

variable {V : Type*}

inductive RegisterOp (V : Type*) where
  | set (key : GoString) (value : Option V) (ts : Timestamp) (ttl : Int64)
  | delete (key : GoString) (ts : Timestamp)
  deriving DecidableEq

namespace RegisterOp

def key : RegisterOp V → GoString
  | set key _ _ _ => key
  | delete key _ => key

def ts : RegisterOp V → Timestamp
  | set _ _ ts _ => ts
  | delete _ ts => ts

/-- The cache entry the operation writes when it takes effect. -/
def entry : RegisterOp V → ValWithTS V
  | set _ value ts ttl => Store.setEntry value ts ttl
  | delete _ ts => Store.tombstone ts

def apply (s : Store V) : RegisterOp V → Store V
  | set key value ts ttl => s.set key value ts ttl
  | delete key ts => s.delete key ts

def applyAll (s : Store V) (ops : List (RegisterOp V)) : Store V := ops.foldl apply s

def write (o : RegisterOp V) : (Fin numShards × GoString) × ValWithTS V :=
  (Store.slot o.key, o.entry)

@[simp] theorem entry_timestamp (o : RegisterOp V) : o.entry.timestamp = o.ts := by
  cases o <;> rfl

theorem cache_apply (s : Store V) (o : RegisterOp V) :
    (apply s o).replicated.cache =
      LastWriter.write ValWithTS.timestamp s.replicated.cache (Store.slot o.key) o.entry := by
  cases o with
  | set key value ts ttl => exact congrArg Replicated.cache (s.replicated_put key _)
  | delete key ts => exact congrArg Replicated.cache (s.replicated_put key _)

theorem cache_applyAll (s : Store V) (ops : List (RegisterOp V)) :
    (applyAll s ops).replicated.cache =
      LastWriter.writeAll ValWithTS.timestamp s.replicated.cache (ops.map write) := by
  induction ops generalizing s with
  | nil => rfl
  | cons o ops ih =>
      have ho := ih (apply s o)
      rw [cache_apply] at ho
      exact ho

theorem latest_applyAll (ops : List (RegisterOp V)) :
    LastWriter.Latest ValWithTS.timestamp (ops.map write)
      (applyAll Store.newStore ops).replicated.cache := by
  rw [cache_applyAll]
  exact LastWriter.latest_writeAll ValWithTS.timestamp (ops.map write)

theorem tieless_map_write {ops : List (RegisterOp V)}
    (hdistinct : ∀ o ∈ ops, ∀ o' ∈ ops, o.key = o'.key → o ≠ o' → o.ts ≠ o'.ts) :
    LastWriter.Tieless ValWithTS.timestamp (ops.map write) := by
  intro v hv w hw hslot hts
  obtain ⟨o, ho, rfl⟩ := List.mem_map.1 hv
  obtain ⟨o', ho', rfl⟩ := List.mem_map.1 hw
  have hkey : o.key = o'.key := Store.slot_injective hslot
  simp only [write, entry_timestamp] at hts
  by_contra hne
  apply hdistinct o ho o' ho' hkey _ hts
  rintro rfl
  exact hne rfl

/-- Merging registers is insensitive to the order and the number of deliveries: the cache depends
only on the set of operations, and holds at each key what the operation with the greatest timestamp
wrote there. -/
theorem applyAll_eq_of_mem_iff (S : Finset (RegisterOp V))
    (hdistinct : ∀ o ∈ S, ∀ o' ∈ S, o.key = o'.key → o ≠ o' → o.ts ≠ o'.ts)
    (ops ops' : List (RegisterOp V)) (hops : ∀ o, o ∈ ops ↔ o ∈ S)
    (hops' : ∀ o, o ∈ ops' ↔ o ∈ S) :
    (applyAll Store.newStore ops).replicated.cache =
        (applyAll Store.newStore ops').replicated.cache ∧
      (∀ p, (∀ o ∈ S, Store.slot o.key ≠ p) →
        (applyAll Store.newStore ops).replicated.cache p = none) ∧
      ∀ o ∈ S, (∀ o' ∈ S, o'.key = o.key → o'.ts ≤ o.ts) →
        (applyAll Store.newStore ops).replicated.cache (Store.slot o.key) = some o.entry := by
  have hlatest := latest_applyAll ops
  have hties : LastWriter.Tieless ValWithTS.timestamp (ops.map write) :=
    tieless_map_write (fun o ho o' ho' => hdistinct o ((hops o).1 ho) o' ((hops o').1 ho'))
  refine ⟨?_, ?_, ?_⟩
  · apply hlatest.unique _ (latest_applyAll ops') hties
    intro w
    simp only [List.mem_map, hops, hops']
  · intro p hp
    apply hlatest.eq_none
    intro w hw
    obtain ⟨o, ho, rfl⟩ := List.mem_map.1 hw
    exact hp o ((hops o).1 ho)
  · intro o ho hmax
    apply hlatest.eq_greatest _ hties (List.mem_map_of_mem ((hops o).2 ho))
    intro w hw hslot
    obtain ⟨o', ho', rfl⟩ := List.mem_map.1 hw
    simp only [write, entry_timestamp]
    exact hmax o' ((hops o').1 ho') (Store.slot_injective hslot)

/-- A write and a later deletion of the same key, delivered once each and then in reverse order with
a repetition. -/
theorem applyAll_eq_of_mem_iff_two :
    (applyAll (V := ℕ) Store.newStore
        [.set (bytes "k") (some 7) ⟨5, 0⟩ 0, .delete (bytes "k") ⟨5, 1⟩]).replicated.cache =
      (applyAll Store.newStore
        [.delete (bytes "k") ⟨5, 1⟩, .set (bytes "k") (some 7) ⟨5, 0⟩ 0,
          .delete (bytes "k") ⟨5, 1⟩]).replicated.cache := by
  apply (applyAll_eq_of_mem_iff
    {.set (bytes "k") (some 7) ⟨5, 0⟩ 0, .delete (bytes "k") ⟨5, 1⟩} _ _ _ _ _).1
  · decide
  · intro o
    simp
  · intro o
    simp only [List.mem_cons, List.not_mem_nil, or_false, Finset.mem_insert, Finset.mem_singleton]
    tauto

end RegisterOp
end Capacitor
