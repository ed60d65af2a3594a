import Capacitor.Redelivery

/-!
# Counters of one node on a replica

`IncrementBy` adds its signed delta to the node's partial count and logs the new total. A replica
merges the totals it receives with a strict comparison, so it ends at the greatest total the node
ever logged and not at the last one. The two agree exactly when no run of final deltas is negative
in sum.
-/

namespace Capacitor

variable {V : Type*}

open Store

structure IncrCall where
  wall : Int64
  bornAt : Int64
  key : GoString
  delta : ℤ

structure Origin (V : Type*) where
  replica : Replica V
  log : List LogEntry

def Origin.incrementBy (nodeID : GoString) (o : Origin V) (c : IncrCall) : Origin V :=
  let (replica, entry, _) := o.replica.incrementBy nodeID c.wall c.bornAt c.key c.delta
  ⟨replica, appendEntry o.log entry⟩

def Origin.incrementAll (nodeID : GoString) (o : Origin V) (calls : List IncrCall) : Origin V :=
  calls.foldl (incrementBy nodeID) o

def issued (key : GoString) (calls : List IncrCall) : ℤ :=
  (calls.map (fun c => if c.key = key then c.delta else 0)).sum

theorem issued_append (key : GoString) (calls calls' : List IncrCall) :
    issued key (calls ++ calls') = issued key calls + issued key calls' := by
  simp only [issued, List.map_append, List.sum_append]

theorem issued_singleton (key : GoString) (c : IncrCall) :
    issued key [c] = if c.key = key then c.delta else 0 := by
  simp only [issued, List.map_cons, List.map_nil, List.sum_cons, List.sum_nil, add_zero]

section Delivery

variable (mp : Msgpack V) {r : Replica V} {wall : Int64} {e : LogEntry}

theorem getNodeCount_applyRemoteEntry (hop : e.op = .incr)
    (hacc : r.hlc.smash wall e.ts = false) (key nodeID : GoString) :
    (applyRemoteEntry mp r wall e).store.getNodeCount key nodeID =
      if countSlot key nodeID = countSlot e.key e.nodeID then
        max (r.store.getNodeCount key nodeID) e.delta
      else r.store.getNodeCount key nodeID := by
  rw [getNodeCount_eq, replicated_applyRemoteEntry_of_accept hacc, Replicated.apply, hop]
  exact Replicated.counts_raise_getD _ _ _ _ _

theorem getAggregateCount_applyRemoteEntry (hop : e.op = .incr)
    (hacc : r.hlc.smash wall e.ts = false) (key : GoString) :
    (applyRemoteEntry mp r wall e).store.getAggregateCount key = r.store.getAggregateCount key +
      if key = e.key then max (r.store.getNodeCount e.key e.nodeID) e.delta -
        r.store.getNodeCount e.key e.nodeID else 0 := by
  rw [getAggregateCount_eq, replicated_applyRemoteEntry_of_accept hacc, Replicated.apply, hop]
  dsimp only
  rw [Replicated.aggregateCounts_raise_getD, ← getAggregateCount_eq, ← getNodeCount_eq]
  simp only [slot_injective.eq_iff]

end Delivery

namespace Origin

def fresh (hlc : HLC) : Origin V := ⟨⟨Store.newStore, hlc⟩, []⟩

theorem incrementAll_append_singleton (nodeID : GoString) (o : Origin V) (calls : List IncrCall)
    (c : IncrCall) : o.incrementAll nodeID (calls ++ [c]) =
      (o.incrementAll nodeID calls).incrementBy nodeID c := by
  simp only [incrementAll, List.foldl_append, List.foldl_cons, List.foldl_nil]

theorem getNodeCount_incrementAll (nodeID : GoString) (hlc : HLC) (calls : List IncrCall)
    (key : GoString) : ((fresh hlc : Origin V).incrementAll nodeID calls).replica.store.getNodeCount
      key nodeID = issued key calls := by
  induction calls using List.reverseRecOn with
  | nil => rfl
  | append_singleton calls c ih =>
      rw [incrementAll_append_singleton, issued_append, issued_singleton]
      refine (getNodeCount_increment _ c.key nodeID key nodeID c.delta).trans ?_
      rw [ih]
      simp only [countSlot_key_inj, eq_comm]
      split_ifs <;> push_cast <;> rfl

theorem getAggregateCount_incrementAll (nodeID : GoString) (hlc : HLC) (calls : List IncrCall)
    (key : GoString) :
    ((fresh hlc : Origin V).incrementAll nodeID calls).replica.store.getAggregateCount key =
      issued key calls := by
  induction calls using List.reverseRecOn with
  | nil => rfl
  | append_singleton calls c ih =>
      rw [incrementAll_append_singleton, issued_append, issued_singleton]
      refine (getAggregateCount_increment _ c.key nodeID key c.delta).trans ?_
      rw [ih]
      simp only [eq_comm]
      split_ifs <;> push_cast <;> rfl

/-- Each call logs the total of its key up to and including itself. -/
theorem log_incrementAll_append_singleton (nodeID : GoString) (hlc : HLC) (calls : List IncrCall)
    (c : IncrCall) : ∃ e : LogEntry, e.op = .incr ∧ e.key = c.key ∧ e.nodeID = nodeID ∧
      e.delta = issued c.key (calls ++ [c]) ∧
      ((fresh hlc : Origin V).incrementAll nodeID (calls ++ [c])).log =
        ((fresh hlc : Origin V).incrementAll nodeID calls).log ++ [e] := by
  have hcount := getNodeCount_incrementAll (V := V) nodeID hlc (calls ++ [c]) c.key
  rw [incrementAll_append_singleton] at hcount ⊢
  exact ⟨_, rfl, rfl, rfl, hcount, rfl⟩

end Origin

/-- What a replica holds for a key of one node: the greatest total the node has logged. -/
structure Peak (r : Replica V) (nodeID key : GoString) (calls : List IncrCall) : Prop where
  logged_le : ∀ pre, pre <+: calls → (issued key pre : ℚ) ≤ r.store.getNodeCount key nodeID
  attained : ∃ pre, pre <+: calls ∧ r.store.getNodeCount key nodeID = issued key pre
  aggregate : r.store.getAggregateCount key = r.store.getNodeCount key nodeID

theorem Peak.deliver_same {mp : Msgpack V} {r : Replica V} {nodeID : GoString}
    {calls : List IncrCall} {c : IncrCall} {wall : Int64} {e : LogEntry}
    (h : Peak r nodeID c.key calls) (hacc : r.hlc.smash wall e.ts = false) (hop : e.op = .incr)
    (hkey : e.key = c.key) (hid : e.nodeID = nodeID)
    (hdelta : e.delta = issued c.key (calls ++ [c])) :
    Peak (applyRemoteEntry mp r wall e) nodeID c.key (calls ++ [c]) := by
  have hcount := getNodeCount_applyRemoteEntry mp hop hacc c.key nodeID
  rw [hkey, hid, if_pos rfl, hdelta] at hcount
  have hagg := getAggregateCount_applyRemoteEntry mp hop hacc c.key
  rw [hkey, hid, if_pos rfl, h.aggregate, hdelta, add_sub_cancel, ← hcount] at hagg
  refine ⟨?_, ?_, hagg⟩
  · intro pre hpre
    rw [hcount]
    rcases List.prefix_concat_iff.1 hpre with rfl | hpre
    · exact le_max_right _ _
    · exact (h.logged_le pre hpre).trans (le_max_left _ _)
  · rw [hcount]
    obtain ⟨pre, hpre, hpeak⟩ := h.attained
    rcases max_choice (r.store.getNodeCount c.key nodeID) (issued c.key (calls ++ [c])) with
      hmax | hmax
    · exact ⟨pre, hpre.trans (List.prefix_append _ _), hmax.trans hpeak⟩
    · exact ⟨calls ++ [c], List.prefix_rfl, hmax⟩

theorem Peak.deliver_other {mp : Msgpack V} {r : Replica V} {nodeID key : GoString}
    {calls : List IncrCall} {c : IncrCall} {wall : Int64} {e : LogEntry}
    (h : Peak r nodeID key calls) (hacc : r.hlc.smash wall e.ts = false) (hop : e.op = .incr)
    (hkey : e.key = c.key) (hid : e.nodeID = nodeID) (hne : key ≠ c.key) :
    Peak (applyRemoteEntry mp r wall e) nodeID key (calls ++ [c]) := by
  have hslot : countSlot key nodeID ≠ countSlot c.key nodeID := fun h => hne (countSlot_key_inj.1 h)
  have hcount := getNodeCount_applyRemoteEntry mp hop hacc key nodeID
  rw [hkey, hid, if_neg hslot] at hcount
  have hagg := getAggregateCount_applyRemoteEntry mp hop hacc key
  rw [hkey, if_neg hne, add_zero, h.aggregate] at hagg
  have hissued : issued key (calls ++ [c]) = issued key calls := by
    rw [issued_append, issued_singleton, if_neg hne.symm, add_zero]
  refine ⟨?_, ?_, hagg.trans hcount.symm⟩
  · intro pre hpre
    rw [hcount]
    rcases List.prefix_concat_iff.1 hpre with rfl | hpre
    · rw [hissued]
      exact h.logged_le calls List.prefix_rfl
    · exact h.logged_le pre hpre
  · obtain ⟨pre, hpre, hpeak⟩ := h.attained
    exact ⟨pre, hpre.trans (List.prefix_append _ _), hcount.trans hpeak⟩

theorem deliverAll_peak (mp : Msgpack V) (nodeID : GoString) (hlc hlc' : HLC) (key : GoString)
    (calls : List IncrCall) (ds : List (Int64 × LogEntry))
    (hds : ds.map Prod.snd = ((Origin.fresh hlc : Origin V).incrementAll nodeID calls).log)
    (hacc : ∀ d ∈ ds, hlc'.smash d.1 d.2.ts = false) :
    Peak (deliverAll mp ⟨Store.newStore, hlc'⟩ ds) nodeID key calls := by
  induction calls using List.reverseRecOn generalizing ds with
  | nil =>
      obtain rfl : ds = [] := List.map_eq_nil_iff.1 hds
      refine ⟨?_, ⟨[], List.prefix_rfl, rfl⟩, rfl⟩
      intro pre hpre
      rw [List.prefix_nil.1 hpre]
      exact le_rfl
  | append_singleton calls c ih =>
      obtain ⟨e, hop, hkey, hid, hdelta, hlog⟩ :=
        Origin.log_incrementAll_append_singleton (V := V) nodeID hlc calls c
      rw [hlog] at hds
      obtain ⟨ds, ds', rfl, hpre, hlast⟩ := List.map_eq_append_iff.1 hds
      obtain ⟨d, rfl, rfl⟩ := List.map_eq_singleton_iff.1 hlast
      have hpeak := ih ds hpre (fun d hd => hacc d (List.mem_append_left _ hd))
      have hd : (deliverAll mp ⟨Store.newStore, hlc'⟩ ds).hlc.smash d.1 d.2.ts = false := by
        rw [smash_deliverAll]
        exact hacc d (List.mem_append_right _ (List.mem_singleton_self d))
      rw [deliverAll_append_singleton]
      by_cases hne : key = c.key
      · subst key
        exact hpeak.deliver_same hd hop hkey hid hdelta
      · exact hpeak.deliver_other hd hop hkey hid hne

/-- A replica that has applied all entries of a node in order agrees with it on a key exactly when
no run of final calls on the key is negative in sum. -/
theorem replica_agrees_iff (mp : Msgpack V) (nodeID : GoString) (hlc hlc' : HLC) (key : GoString)
    (calls : List IncrCall) (ds : List (Int64 × LogEntry))
    (hds : ds.map Prod.snd = ((Origin.fresh hlc : Origin V).incrementAll nodeID calls).log)
    (hacc : ∀ d ∈ ds, hlc'.smash d.1 d.2.ts = false) :
    let origin := ((Origin.fresh hlc : Origin V).incrementAll nodeID calls).replica.store
    let copy := (deliverAll mp ⟨Store.newStore, hlc'⟩ ds).store
    (copy.getNodeCount key nodeID = origin.getNodeCount key nodeID ∧
        copy.getAggregateCount key = origin.getAggregateCount key) ↔
      ∀ suf, suf <:+ calls → 0 ≤ issued key suf := by
  have hpeak := deliverAll_peak mp nodeID hlc hlc' key calls ds hds hacc
  dsimp only
  rw [Origin.getNodeCount_incrementAll, Origin.getAggregateCount_incrementAll, hpeak.aggregate,
    and_self]
  constructor
  · rintro heq suf ⟨pre, rfl⟩
    have hle := hpeak.logged_le pre (List.prefix_append _ _)
    rw [heq, Int.cast_le, issued_append] at hle
    omega
  · intro h
    obtain ⟨pre, ⟨suf, rfl⟩, hpre⟩ := hpeak.attained
    have hsuf := h suf (List.suffix_append _ _)
    apply le_antisymm
    · rw [hpre, Int.cast_le, issued_append]
      omega
    · exact hpeak.logged_le _ List.prefix_rfl

theorem replica_agrees_iff_recovered :
    let calls : List IncrCall := [⟨10, 0, bytes "k", 5⟩, ⟨11, 0, bytes "k", -3⟩,
      ⟨12, 0, bytes "k", 4⟩]
    let origin := (Origin.fresh (newHLC 9) : Origin UInt8).incrementAll (bytes "a") calls
    let copy :=
      (deliverAll byteMsgpack ⟨Store.newStore, newHLC 9⟩ ([20, 21, 22].zip origin.log)).store
    copy.getNodeCount (bytes "k") (bytes "a") =
        origin.replica.store.getNodeCount (bytes "k") (bytes "a") ∧
      copy.getAggregateCount (bytes "k") = origin.replica.store.getAggregateCount (bytes "k") := by
  apply (replica_agrees_iff byteMsgpack (bytes "a") (newHLC 9) (newHLC 9) (bytes "k") _ _
    rfl (by decide)).2
  intro suf hsuf
  replace hsuf := (List.mem_tails _ _).2 hsuf
  revert suf
  decide

/-- After `+5` and `-3` the node holds `2` and its replica `5`. -/
theorem not_replica_agrees_decrement :
    let calls : List IncrCall := [⟨10, 0, bytes "k", 5⟩, ⟨11, 0, bytes "k", -3⟩]
    let origin := (Origin.fresh (newHLC 9) : Origin UInt8).incrementAll (bytes "a") calls
    let ds := [20, 21].zip origin.log
    let copy := (deliverAll byteMsgpack ⟨Store.newStore, newHLC 9⟩ ds).store
    (∀ d ∈ ds, (newHLC 9).smash d.1 d.2.ts = false) ∧
      origin.replica.store.getNodeCount (bytes "k") (bytes "a") = 2 ∧
      origin.replica.store.getAggregateCount (bytes "k") = 2 ∧
      copy.getNodeCount (bytes "k") (bytes "a") = 5 ∧
      copy.getAggregateCount (bytes "k") = 5 := by
  decide +kernel

end Capacitor
