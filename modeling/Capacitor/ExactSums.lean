import Capacitor.Loading
import Capacitor.Node

/-!
# Operations that round nothing

Counts are `float64` in the source, so an addition to a count may lose what it adds. An operation is
exact in a store when every sum it forms there is a number that the rounding in force leaves alone.
It then does what it does without any rounding, and what is known of exact counts carries over.
-/

namespace Capacitor

open Rounding (Exact)

variable {V : Type*} [Rounding]

theorem addTo_of_exact {K : Type*} [DecidableEq K] {m : K → Option ℚ} {k : K} {d : ℚ}
    (h : Exact ((m k).getD 0 + d)) : addTo m k d = @addTo .unrounded _ _ m k d := by
  unfold addTo
  rw [h]
  rfl

theorem addTo_of_ne {K : Type*} [DecidableEq K] (m : K → Option ℚ) {k j : K} (d : ℚ)
    (h : j ≠ k) : addTo m k d j = m j :=
  Function.update_of_ne h _ _

theorem StoreShard.addCount_of_exact {shard : StoreShard V} {nodeKey name : GoString} {d : ℚ}
    (hcount : Exact ((shard.counts nodeKey).getD 0 + d))
    (htotal : Exact ((shard.aggregateCounts name).getD 0 + d)) :
    shard.addCount nodeKey name d = @StoreShard.addCount V .unrounded shard nodeKey name d := by
  unfold StoreShard.addCount
  rw [addTo_of_exact hcount, addTo_of_exact htotal]

namespace Store

variable (s : Store V)

omit [Rounding] in
theorem modifyShard_congr {s : Store V} {key : GoString} {f g : StoreShard V → StoreShard V}
    (h : f (s.getShard key) = g (s.getShard key)) : s.modifyShard key f = s.modifyShard key g := by
  unfold modifyShard
  rw [h]

/-- The two sums of an addition to the count of a node. -/
def AddsExactly (key nodeKey name : GoString) (d : ℚ) : Prop :=
  Exact (((s.getShard key).counts nodeKey).getD 0 + d) ∧
    Exact (((s.getShard key).aggregateCounts name).getD 0 + d)

instance (key nodeKey name : GoString) (d : ℚ) : Decidable (s.AddsExactly key nodeKey name d) :=
  inferInstanceAs (Decidable (_ ∧ _))

def MetersExactly (key nodeID : GoString) (delta : ℚ) : Prop :=
  s.AddsExactly key (metricCountKey key nodeID) (bytes "m:c:" ++ key) 1 ∧
    s.AddsExactly key (metricSumKey key nodeID) (bytes "m:s:" ++ key) delta

instance (key nodeID : GoString) (delta : ℚ) : Decidable (s.MetersExactly key nodeID delta) :=
  inferInstanceAs (Decidable (_ ∧ _))

/-- The difference that `setNodeCount` forms, and its addition to the aggregate. -/
def RaisesExactly (key nodeID : GoString) (val : ℚ) : Prop :=
  s.getNodeCount key nodeID < val →
    Exact (val - s.getNodeCount key nodeID) ∧
      Exact (s.getAggregateCount key + (val - s.getNodeCount key nodeID))

instance (key nodeID : GoString) (val : ℚ) : Decidable (s.RaisesExactly key nodeID val) :=
  inferInstanceAs (Decidable (_ → _))

variable {s}

theorem increment_of_exact {key nodeID : GoString} {delta : ℚ}
    (h : s.AddsExactly key (counterKey key nodeID) key delta) :
    s.increment key nodeID delta = @increment V .unrounded s key nodeID delta := by
  have hmodify : s.modifyShard key
        (fun shard => shard.addCount (counterKey key nodeID) key delta) =
      s.modifyShard key
        (fun shard => @StoreShard.addCount V .unrounded shard (counterKey key nodeID) key delta) :=
    modifyShard_congr (StoreShard.addCount_of_exact h.1 h.2)
  unfold increment
  rw [hmodify]

theorem incrementMetric_of_exact {key nodeID : GoString} {delta : ℚ}
    (h : s.MetersExactly key nodeID delta) :
    s.incrementMetric key nodeID delta = @incrementMetric V .unrounded s key nodeID delta := by
  obtain ⟨⟨hcount, htotal⟩, hsum, htotal'⟩ := h
  have hkey : metricSumKey key nodeID ≠ metricCountKey key nodeID := by
    intro heq
    cases heq
  have hname : bytes "m:s:" ++ key ≠ bytes "m:c:" ++ key := by
    intro heq
    cases heq
  have hfirst := StoreShard.addCount_of_exact hcount htotal
  have hmodify : s.modifyShard key (fun shard =>
        (shard.addCount (metricCountKey key nodeID) (bytes "m:c:" ++ key) 1).addCount
          (metricSumKey key nodeID) (bytes "m:s:" ++ key) delta) =
      s.modifyShard key (fun shard => @StoreShard.addCount V .unrounded
        (@StoreShard.addCount V .unrounded shard (metricCountKey key nodeID)
          (bytes "m:c:" ++ key) 1)
        (metricSumKey key nodeID) (bytes "m:s:" ++ key) delta) := by
    apply modifyShard_congr
    rw [hfirst]
    apply StoreShard.addCount_of_exact
    · simp only [StoreShard.addCount, @addTo_of_ne .unrounded _ _ _ _ _ _ hkey]
      exact hsum
    · simp only [StoreShard.addCount, @addTo_of_ne .unrounded _ _ _ _ _ _ hname]
      exact htotal'
  unfold incrementMetric
  rw [hmodify]

theorem setNodeCount_of_exact {key nodeID : GoString} {val : ℚ}
    (h : s.RaisesExactly key nodeID val) :
    s.setNodeCount key nodeID val = @setNodeCount V .unrounded s key nodeID val := by
  unfold setNodeCount
  split_ifs with hval
  · obtain ⟨hdiff, htotal⟩ := h hval
    apply modifyShard_congr
    have hsame : addTo (s.getShard key).aggregateCounts key
        (Rounding.round (val - s.getNodeCount key nodeID)) =
        @addTo .unrounded _ _ (s.getShard key).aggregateCounts key
          (val - s.getNodeCount key nodeID) := by
      rw [hdiff]
      exact addTo_of_exact htotal
    rw [hsame]
    rfl
  · rfl

end Store

/-- No sum that the operation forms is rounded. -/
def StoreOp.Exact (s : Store V) : StoreOp V → Prop
  | increment key nodeID delta => s.AddsExactly key (counterKey key nodeID) key delta
  | setNodeCount key nodeID val => s.RaisesExactly key nodeID val
  | incrementMetric key nodeID delta => s.MetersExactly key nodeID delta
  | _ => True

theorem StoreOp.apply_of_exact {s : Store V} {o : StoreOp V} (h : o.Exact s) :
    o.apply s = @StoreOp.apply V .unrounded s o := by
  cases o with
  | increment key nodeID delta => exact congrArg Prod.fst (Store.increment_of_exact h)
  | setNodeCount key nodeID val => exact Store.setNodeCount_of_exact h
  | incrementMetric key nodeID delta => exact congrArg Prod.fst (Store.incrementMetric_of_exact h)
  | _ => rfl

/-- No sum that is formed when the entry is applied is rounded. -/
def LogEntry.Exact (s : Store V) (e : LogEntry) : Prop :=
  match e.op with
  | .incr => s.RaisesExactly e.key e.nodeID e.delta
  | .metric => s.MetersExactly e.key e.nodeID e.delta
  | _ => True

instance (s : Store V) (e : LogEntry) : Decidable (e.Exact s) :=
  match h : e.op with
  | .incr => decidable_of_iff (s.RaisesExactly e.key e.nodeID e.delta)
      (by simp only [LogEntry.Exact, h])
  | .metric => decidable_of_iff (s.MetersExactly e.key e.nodeID e.delta)
      (by simp only [LogEntry.Exact, h])
  | .set | .window | .delete | .unknown _ => isTrue (by simp only [LogEntry.Exact, h])

theorem applyRemoteEntry_of_exact (mp : Msgpack V) {r : Replica V} (wall : Int64) {e : LogEntry}
    (h : e.Exact r.store) :
    applyRemoteEntry mp r wall e = @applyRemoteEntry V .unrounded mp r wall e := by
  have hop : applyOp mp r.store e = @applyOp V .unrounded mp r.store e := by
    unfold LogEntry.Exact at h
    unfold applyOp
    cases hop : e.op with
    | incr =>
        rw [hop] at h
        exact Store.setNodeCount_of_exact h
    | metric =>
        rw [hop] at h
        exact congrArg Prod.fst (Store.incrementMetric_of_exact h)
    | _ => rfl
  unfold applyRemoteEntry
  rw [hop]

section Load

variable (c : DiskCodec V)

/-- The sum that `load` forms at a record, if it is one of a count. -/
def Store.LoadsExactly (s : Store V) (w : GoString × Record) : Prop :=
  match owner (Store.slot w.1) with
  | some a => Exact ((s.replicated.aggregateCounts a).getD 0 + c.float64FromBytes w.2.data)
  | none => True

variable (now : GoString → Int64)

/-- No sum that `load` forms is rounded. -/
def LoadExact (items : List (GoString × Record)) : Prop :=
  StepSystem.Along (fun s w => some (s.loadRecord c now w)) (Store.LoadsExactly c) Store.newStore
    items

instance (s : Store V) (w : GoString × Record) : Decidable (s.LoadsExactly c w) :=
  match h : owner (Store.slot w.1) with
  | some a => decidable_of_iff
      (Exact ((s.replicated.aggregateCounts a).getD 0 + c.float64FromBytes w.2.data))
      (by simp only [Store.LoadsExactly, h])
  | none => isTrue (by simp only [Store.LoadsExactly, h])

instance (items : List (GoString × Record)) : Decidable (LoadExact c now items) :=
  inferInstanceAs (Decidable (StepSystem.Along _ _ _ _))

theorem Store.loadRecord_of_exact {s : Store V} {w : GoString × Record}
    (h : s.LoadsExactly c w) :
    s.loadRecord c now w = @Store.loadRecord V .unrounded c now s w := by
  apply Store.modifyShard_congr
  simp only [StoreShard.loadRecord_eq]
  cases hkind : recordKind w.1 with
  | count kind =>
      unfold StoreShard.loadCount
      cases hname : loadedName w.1 with
      | none => rfl
      | some name =>
          simp only [Store.LoadsExactly, owner, Store.slot, hkind, hname, Option.map_some] at h
          have hsum : Exact (((s.getShard w.1).aggregateCounts (kind.aggregateTag ++ name)).getD 0 +
            c.float64FromBytes w.2.data) := h
          simp only [addTo_of_exact hsum]
  | _ => rfl

variable {c now}

theorem Store.foldl_loadRecord_of_exact {s : Store V} {items : List (GoString × Record)}
    (h : StepSystem.Along (fun s w => some (s.loadRecord c now w)) (Store.LoadsExactly c) s
      items) :
    items.foldl (Store.loadRecord c now) s =
      items.foldl (@Store.loadRecord V .unrounded c now) s := by
  induction items generalizing s with
  | nil => rfl
  | cons w items ih =>
      rw [List.foldl_cons, List.foldl_cons, ← s.loadRecord_of_exact c now h.1]
      exact ih h.2

theorem Store.load_of_exact {items : List (GoString × Record)} (h : LoadExact c now items) :
    Store.load c now items = @Store.load V .unrounded c now items := by
  unfold Store.load
  rw [Store.foldl_loadRecord_of_exact h]

end Load
end Capacitor
