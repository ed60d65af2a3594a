import Capacitor.Calls

/-!
# The clock and the cache of one node

`set` and `delete` drop a write whose timestamp is not the greatest of its key and report success
all the same, so a local write takes effect only because the clock of the node is never behind a
timestamp of its cache. The first part proves that invariant for every run of a node that starts
empty. The second part bounds the same timestamps from above: they exceed no reading of the
node's own wall clock by more than the maximal offset, whatever its peers send.
-/

namespace Capacitor

variable {V : Type*}

open Store

/-- No logical counter reaches its maximum in the step: not the clock's, and not that of an accepted
entry whose physical part becomes the clock's. -/
def CountersBelow (r : Replica V) : NodeAction V → Prop
  | .call c => (r.hlc.now c.wall).1.logical ≠ 2147483647
  | .applyRemoteEntry wall e => r.hlc.smash wall e.ts = false →
      (r.hlc.merge wall e.ts).logical ≠ 2147483647 ∧
        (e.ts.physical = r.hlc.maxPhysical wall e.ts → e.ts.logical ≠ 2147483647)
  | .pruneExpiredKeys _ _ => True

instance decidableCountersBelow (r : Replica V) :
    (a : NodeAction V) → Decidable (CountersBelow r a)
  | .call _ => inferInstanceAs (Decidable (_ ≠ _))
  | .applyRemoteEntry _ _ => inferInstanceAs (Decidable (_ → _ ∧ _))
  | .pruneExpiredKeys _ _ => inferInstanceAs (Decidable True)

/-- The clock has not run out of counters and is behind no timestamp of the cache. -/
structure ClockAhead (r : Replica V) : Prop where
  counter : r.hlc.logical ≠ 2147483647
  cache : ∀ p x, r.store.replicated.cache p = some x → x.timestamp ≤ r.hlc.time

/-- The same for a node that did not start empty: the clock is not behind where it started, and an
entry that is ahead of it has been there from the start. -/
structure ClockAheadSince (start : Timestamp)
    (loaded : Fin numShards × GoString → Option (ValWithTS V)) (r : Replica V) : Prop where
  counter : r.hlc.logical ≠ 2147483647
  started : start ≤ r.hlc.time
  cache : ∀ p x, r.store.replicated.cache p = some x →
    x.timestamp ≤ r.hlc.time ∨ loaded p = some x

namespace ClockAheadSince

variable {mp : Msgpack V} {nodeID : GoString} {start : Timestamp}
  {loaded : Fin numShards × GoString → Option (ValWithTS V)} {r : Replica V}

theorem call (h : ClockAheadSince start loaded r) (c : ApiCall V)
    (hbelow : (r.hlc.now c.wall).1.logical ≠ 2147483647) :
    ClockAheadSince start loaded (r.call mp nodeID c).1 := by
  have hlt : r.hlc.time < (r.hlc.now c.wall).2 := r.hlc.time_lt_now c.wall h.counter
  constructor
  · rwa [hlc_call]
  · rw [hlc_call, HLC.time_now]
    exact h.started.trans hlt.le
  · intro p x hx
    rw [hlc_call, HLC.time_now]
    rcases mem_cache_call hx with hold | hts
    · exact (h.cache p x hold).imp_left (fun hle => hle.trans hlt.le)
    · exact Or.inl hts.le

theorem applyRemoteEntry (h : ClockAheadSince start loaded r) (wall : Int64) (e : LogEntry)
    (hbelow : CountersBelow r (.applyRemoteEntry wall e)) :
    ClockAheadSince start loaded (applyRemoteEntry mp r wall e) := by
  cases hs : r.hlc.smash wall e.ts with
  | true => rwa [applyRemoteEntry_of_smash hs]
  | false =>
      obtain ⟨hmerged, hentry⟩ := hbelow hs
      obtain ⟨hown, hremote⟩ := r.hlc.lt_merge wall e.ts h.counter hentry
      have hhlc : (Capacitor.applyRemoteEntry mp r wall e).hlc = r.hlc.merge wall e.ts := by
        rw [applyRemoteEntry_of_accept hs]
      constructor
      · rwa [hhlc]
      · rw [hhlc]
        exact h.started.trans hown.le
      · intro p x hx
        rw [hhlc]
        rcases mem_cache_applyRemoteEntry hx with hold | ⟨_, hts⟩
        · exact (h.cache p x hold).imp_left (fun hle => hle.trans hown.le)
        · rw [hts]
          exact Or.inl hremote.le

theorem step {r' : Replica V} {a : NodeAction V} (h : ClockAheadSince start loaded r)
    (hbelow : CountersBelow r a) (hstep : r.step mp nodeID a = some r') :
    ClockAheadSince start loaded r' := by
  cases a with
  | call c =>
      obtain rfl := Option.some.inj hstep
      exact h.call c hbelow
  | applyRemoteEntry wall e =>
      obtain rfl := Option.some.inj hstep
      exact h.applyRemoteEntry wall e hbelow
  | pruneExpiredKeys i now =>
      obtain rfl := Option.some.inj hstep
      exact ⟨h.counter, h.started, fun p x hx => h.cache p x (mem_cache_pruneExpiredKeys hx)⟩

end ClockAheadSince

namespace ClockAhead

variable {mp : Msgpack V} {nodeID : GoString} {r : Replica V}

theorem newNode (start offset : Int64) : ClockAhead (newNode start offset : Replica V) where
  counter := show (0 : Int32) ≠ 2147483647 by decide
  cache p x hx := by cases hx

theorem step {r' : Replica V} {a : NodeAction V} (h : ClockAhead r) (hbelow : CountersBelow r a)
    (hstep : r.step mp nodeID a = some r') : ClockAhead r' := by
  have hsince : ClockAheadSince r.hlc.time (fun _ => none) r :=
    ⟨h.counter, le_rfl, fun p x hx => Or.inl (h.cache p x hx)⟩
  have hnext := hsince.step hbelow hstep
  exact ⟨hnext.counter, fun p x hx => (hnext.cache p x hx).resolve_right (by simp)⟩

end ClockAhead

section Runs

variable (mp : Msgpack V) (nodeID : GoString)

def setBackRun : List (NodeAction UInt8) :=
  [.applyRemoteEntry 1000 (setLogEntry ⟨1400, 3⟩ 0 (bytes "k") [5] 0),
    .call (.set 900 900 (bytes "k") (some 7) 0)]

end Runs

section Containment

def NodeAction.reading : NodeAction V → Option Int64
  | .call c => some c.wall
  | .applyRemoteEntry wall _ => some wall
  | .pruneExpiredKeys _ _ => none

def greatestReading (start : Int64) (as : List (NodeAction V)) : ℤ :=
  ((as.filterMap NodeAction.reading).map Int64.toInt).foldr max start.toInt

theorem le_foldr_max (b : ℤ) (l : List ℤ) :
    b ≤ l.foldr max b ∧ ∀ a ∈ l, a ≤ l.foldr max b := by
  induction l with
  | nil => exact ⟨le_rfl, by simp⟩
  | cons c l ih =>
      refine ⟨le_max_of_le_right ih.1, ?_⟩
      intro a ha
      rcases List.mem_cons.1 ha with rfl | ha
      · exact le_max_left _ _
      · exact le_max_of_le_right (ih.2 a ha)

theorem start_le_greatestReading (start : Int64) (as : List (NodeAction V)) :
    start.toInt ≤ greatestReading start as :=
  (le_foldr_max _ _).1

theorem le_greatestReading (start : Int64) {as : List (NodeAction V)} {a : NodeAction V}
    {wall : Int64} (ha : a ∈ as) (hwall : a.reading = some wall) :
    wall.toInt ≤ greatestReading start as :=
  (le_foldr_max _ _).2 _ (List.mem_map_of_mem (List.mem_filterMap.2 ⟨a, ha, hwall⟩))

/-- The maximal offset is as configured, and no timestamp that the node holds is above `bound`. -/
structure Contained (offset : Int64) (bound : ℤ) (r : Replica V) : Prop where
  maxOffset : r.hlc.maxOffset = offset
  clock : r.hlc.physical.toInt ≤ bound
  cache : ∀ p x, r.store.replicated.cache p = some x → x.timestamp.physical.toInt ≤ bound

/-- What a step reads off the wall clock keeps, with the maximal offset, below `bound` and within
the range of `int64`. -/
def ReadsBelow (offset : Int64) (bound : ℤ) (a : NodeAction V) : Prop :=
  ∀ wall, a.reading = some wall →
    wall.toInt + offset.toInt ≤ bound ∧ wall.toInt + offset.toInt < 2 ^ 63

theorem physical_le_of_not_smash {h : HLC} {wall : Int64} {remote : Timestamp}
    (hoff : 0 ≤ h.maxOffset.toInt) (hsum : wall.toInt + h.maxOffset.toInt < 2 ^ 63)
    (hs : h.smash wall remote = false) :
    remote.physical.toInt ≤ wall.toInt + h.maxOffset.toInt := by
  have hle : remote.physical ≤ wall + h.maxOffset := by
    simpa [HLC.smash] using hs
  have hadd : (wall + h.maxOffset).toInt = wall.toInt + h.maxOffset.toInt := by
    have hlow := Int64.le_toInt wall
    rw [Int64.toInt_add]
    apply Int.bmod_eq_of_le <;> omega
  rw [Int64.le_iff_toInt_le, hadd] at hle
  exact hle

namespace Contained

variable {mp : Msgpack V} {nodeID : GoString} {offset : Int64} {bound : ℤ} {r : Replica V}

theorem call (h : Contained offset bound r) (c : ApiCall V) (hwall : c.wall.toInt ≤ bound) :
    Contained offset bound (r.call mp nodeID c).1 := by
  have hnow : (r.hlc.now c.wall).1.physical.toInt ≤ bound := by
    simp only [HLC.now]
    split_ifs
    · exact hwall
    · exact h.clock
  constructor
  · rw [hlc_call, HLC.maxOffset_now, h.maxOffset]
  · rwa [hlc_call]
  · intro p x hx
    rcases mem_cache_call hx with hold | hts
    · exact h.cache p x hold
    · rw [hts]
      exact hnow

theorem applyRemoteEntry (h : Contained offset bound r) (wall : Int64) (e : LogEntry)
    (hwall : wall.toInt ≤ bound)
    (hentry : r.hlc.smash wall e.ts = false → e.ts.physical.toInt ≤ bound) :
    Contained offset bound (applyRemoteEntry mp r wall e) := by
  cases hs : r.hlc.smash wall e.ts with
  | true => rwa [applyRemoteEntry_of_smash hs]
  | false =>
      have hmerge : (r.hlc.merge wall e.ts).physical.toInt ≤ bound := by
        rw [HLC.physical_merge, HLC.maxPhysical]
        split_ifs
        · exact hentry hs
        · exact h.clock
        · exact hentry hs
        · exact hwall
      constructor
      · rw [applyRemoteEntry_of_accept hs]
        exact (HLC.maxOffset_merge _ _ _).trans h.maxOffset
      · rw [applyRemoteEntry_of_accept hs]
        exact hmerge
      · intro p x hx
        rcases mem_cache_applyRemoteEntry hx with hold | ⟨_, hts⟩
        · exact h.cache p x hold
        · rw [hts]
          exact hentry hs

theorem step {r' : Replica V} {a : NodeAction V} (h : Contained offset bound r)
    (hoff : 0 ≤ offset.toInt) (hreads : ReadsBelow offset bound a)
    (hstep : r.step mp nodeID a = some r') : Contained offset bound r' := by
  cases a with
  | call c =>
      obtain rfl := Option.some.inj hstep
      have hwall := (hreads c.wall rfl).1
      exact h.call c (by omega)
  | applyRemoteEntry wall e =>
      obtain rfl := Option.some.inj hstep
      obtain ⟨hbound, hsum⟩ := hreads wall rfl
      refine h.applyRemoteEntry wall e (by omega) ?_
      intro hs
      rw [← h.maxOffset] at hoff hsum hbound
      exact (physical_le_of_not_smash hoff hsum hs).trans hbound
  | pruneExpiredKeys i now =>
      obtain rfl := Option.some.inj hstep
      exact ⟨h.maxOffset, h.clock, fun p x hx => h.cache p x (mem_cache_pruneExpiredKeys hx)⟩

end Contained

/-- The clock and the cache never get further ahead of the node's own wall clock than the maximal
offset, and a rejected entry changes nothing. -/
theorem clock_smash_contained (mp : Msgpack V) (nodeID : GoString) (start offset : Int64)
    (as : List (NodeAction V)) (r : Replica V) (hoff : 0 ≤ offset)
    (hsum : greatestReading start as + offset.toInt < 2 ^ 63)
    (hrun : StepSystem.run (Replica.step mp nodeID) (newNode start offset) as = some r) :
    r.hlc.physical.toInt ≤ greatestReading start as + offset.toInt ∧
      (∀ p x, r.store.replicated.cache p = some x →
        x.timestamp.physical.toInt ≤ greatestReading start as + offset.toInt) ∧
      ∀ wall e, r.hlc.update wall e.ts = none → applyRemoteEntry mp r wall e = r := by
  have hpos : 0 ≤ offset.toInt := by
    rwa [Int64.le_iff_toInt_le] at hoff
  have hstart := start_le_greatestReading start as
  have hnew : Contained offset (greatestReading start as + offset.toInt)
      (newNode start offset : Replica V) :=
    ⟨rfl, show start.toInt ≤ _ by omega, fun p x hx => by cases hx⟩
  have hreads : ∀ a ∈ as, ReadsBelow offset (greatestReading start as + offset.toInt) a := by
    intro a ha wall hwall
    have hle := le_greatestReading start ha hwall
    omega
  have h : Contained offset (greatestReading start as + offset.toInt) r :=
    StepSystem.run_invariant_along (fun s a t hs hc hstep => hs.step hpos hc hstep) hnew
      (StepSystem.along_of_forall_mem hreads _) hrun
  refine ⟨h.clock, h.cache, ?_⟩
  intro wall e hnone
  exact applyRemoteEntry_of_smash ((HLC.update_eq_none_iff _ _ _).1 hnone)

theorem clock_smash_contained_setBack :
    ∃ r, StepSystem.run (Replica.step byteMsgpack (bytes "a")) (newNode 1000 500) setBackRun =
        some r ∧
      r.hlc.physical.toInt ≤ 1500 ∧
      applyRemoteEntry byteMsgpack r 1000 (setLogEntry ⟨1501, 0⟩ 0 (bytes "k") [9] 0) = r := by
  obtain ⟨hclock, _, hreject⟩ := clock_smash_contained byteMsgpack (bytes "a") 1000 500 setBackRun
    _ (by decide) (by decide +kernel) rfl
  exact ⟨_, rfl, hclock, hreject 1000 _ (by decide +kernel)⟩

end Containment
end Capacitor
