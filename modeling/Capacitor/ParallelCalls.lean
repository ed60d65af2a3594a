import Capacitor.Calls
import Capacitor.ExactSums
import Capacitor.Interference

/-!
# The numbers that increments return

`IncrementBy` returns the count that its own increment has led to, and `IncrementParallel` is a loop
of such calls that keeps the last number of each key. Any number of these loops run on a node at the
same time, between its other calls and the entries of its peers. The count and the number returned
are the work of the first step of `IncrementBy`; what follows it reaches the clock and the log
alone.

A count of increments by one or more never goes back, whatever the peers send, so that no number is
returned twice; and a node that counts by itself returns every number once. Both need that the sums
of this counter are not rounded and fit into 64 bits. The loop of `IncrementMetricParallel` walks a
map, and what it does is the same for every order.
-/

namespace Capacitor

open Store

variable {V : Type*}

def Replica.getCount (r : Replica V) (key : GoString) : ℤ :=
  truncate (r.store.getAggregateCount key)

/-- The number that a step of the node returns, with its key. -/
def Replica.returned [Rounding] (nodeID : GoString) (r : Replica V) :
    NodeAction V → Option (GoString × ℤ)
  | .call (.incrementBy wall bornAt key delta) =>
      some (key, (r.incrementBy nodeID wall bornAt key delta).2.2)
  | _ => none

/-- The entry of a peer may raise the count of a key. -/
def NodeAction.raises (key : GoString) : NodeAction V → Bool
  | .applyRemoteEntry _ e => e.op = .incr ∧ e.key = key
  | _ => false

/-- An increment of the key rounds nothing, and its new count fits into 64 bits. -/
def Replica.CountsExactly [Rounding] (r : Replica V) (key : GoString) (delta : ℤ) : Prop :=
  Rounding.Exact (delta : ℚ) ∧ Rounding.Exact (r.store.getAggregateCount key + delta) ∧
    r.store.getAggregateCount key + delta < 2 ^ 63

instance [Rounding] (r : Replica V) (key : GoString) (delta : ℤ) :
    Decidable (r.CountsExactly key delta) :=
  inferInstanceAs (Decidable (_ ∧ _))

theorem truncate_of_nonneg {q : ℚ} (hq : 0 ≤ q) : truncate q = ⌊q⌋ := by
  rw [truncate, Int.tdiv_eq_ediv_of_nonneg (Rat.num_nonneg.2 hq)]
  exact Rat.floor_def'.symm

section Aggregate

variable {key : GoString}

theorem getAggregateCount_incrementMetric [Rounding] (hkey : ¬ MetricName key) (s : Store V)
    (k n : GoString) (delta : ℚ) :
    (s.incrementMetric k n delta).1.getAggregateCount key = s.getAggregateCount key := by
  have hcount : CountKind.counter.whole key ≠ CountKind.metricCount.whole k :=
    fun h => hkey (CountKind.metricName_of_eq (by decide) (congrArg Prod.snd h))
  have hsum : CountKind.counter.whole key ≠ CountKind.metricSum.whole k :=
    fun h => hkey (CountKind.metricName_of_eq (by decide) (congrArg Prod.snd h))
  rw [getAggregateCount_eq, replicated_incrementMetric]
  exact congrArg (fun q => Option.getD q 0)
    ((addTo_of_ne _ delta hsum).trans (addTo_of_ne _ 1 hcount))

theorem getAggregateCount_put (s : Store V) (k : GoString) (e : ValWithTS V) :
    (s.modifyShard k (fun shard => shard.put k e)).getAggregateCount key =
      s.getAggregateCount key := by
  rw [getAggregateCount_eq, replicated_put]
  rfl

theorem getAggregateCount_addWindowTimestamp (s : Store V) (k : GoString) (ts : Int64) :
    (s.addWindowTimestamp k ts).getAggregateCount key = s.getAggregateCount key := by
  rw [getAggregateCount_eq, replicated_addWindowTimestamp, Replicated.insertWindow]
  split <;> rfl

theorem getAggregateCount_incrementSlidingWindow (s : Store V) (k : GoString)
    (ts window now : Int64) :
    (s.incrementSlidingWindow k ts window now).1.getAggregateCount key =
      s.getAggregateCount key := by
  have hframe (win : Option (List Int64)) := s.flatten_frame StoreShard.aggregateCounts k
    (fun shard => { shard with
      windows := Function.update shard.windows k win
      dirty := Function.update shard.dirty k true }) (fun _ => rfl)
  exact congrArg (fun m => (m (slot key)).getD 0) (hframe _)

theorem getAggregateCount_pruneExpiredKeys (s : Store V) (i : Fin numShards) (now : Int64) :
    (s.pruneExpiredKeys i now).getAggregateCount key = s.getAggregateCount key := by
  have hshard : ((s.pruneExpiredKeys i now).shards (shardIndex key)).aggregateCounts =
      (s.shards (shardIndex key)).aggregateCounts := by
    simp only [Store.pruneExpiredKeys, Function.update_apply]
    split_ifs with h
    · rw [h]
      rfl
    · rfl
  exact congrArg (fun m => (m key).getD 0) hshard

theorem getAggregateCount_applyOp [Rounding] (mp : Msgpack V) (hkey : ¬ MetricName key)
    {s : Store V} {e : LogEntry}
    (hexact : e.op = .incr → e.key = key → s.RaisesExactly key e.nodeID e.delta) :
    s.getAggregateCount key ≤ (applyOp mp s e).getAggregateCount key ∧
      (¬ (e.op = .incr ∧ e.key = key) →
        (applyOp mp s e).getAggregateCount key = s.getAggregateCount key) := by
  have hsame {t : Store V} {p : Prop} (h : t.getAggregateCount key = s.getAggregateCount key) :
      s.getAggregateCount key ≤ t.getAggregateCount key ∧
        (¬ p → t.getAggregateCount key = s.getAggregateCount key) :=
    ⟨h.ge, fun _ => h⟩
  unfold applyOp
  cases hop : e.op with
  | incr =>
      by_cases hk : e.key = key
      · subst hk
        rw [setNodeCount_of_exact (hexact hop rfl)]
        have htotal := total_setNodeCount s e.key e.nodeID e.delta .counter e.key
        rw [if_pos rfl, ← getAggregateCount_eq_total, ← getAggregateCount_eq_total] at htotal
        have hle := le_max_left (s.getNodeCount e.key e.nodeID) e.delta
        exact ⟨by linarith, fun hne => absurd ⟨rfl, rfl⟩ hne⟩
      · have hslot : slot key ≠ slot e.key := fun h => hk (slot_injective h).symm
        refine hsame ?_
        rw [getAggregateCount_eq, replicated_setNodeCount, Replicated.raise]
        split_ifs
        · exact congrArg (fun q => Option.getD q 0) (addTo_of_ne _ _ hslot)
        · rfl
  | set => exact hsame (getAggregateCount_put s e.key _)
  | metric => exact hsame (getAggregateCount_incrementMetric hkey s e.key e.nodeID e.delta)
  | window => exact hsame (getAggregateCount_addWindowTimestamp s e.key e.ts.physical)
  | delete => exact hsame (getAggregateCount_put s e.key _)
  | unknown code => exact hsame rfl

end Aggregate

/-- A step that returns no number lowers no count, and only an entry of a peer raises one. -/
theorem getAggregateCount_step [Rounding] {mp : Msgpack V} {nodeID key : GoString}
    (hkey : ¬ MetricName key) {r r' : Replica V} {a : NodeAction V}
    (hexact : ∀ wall e, a = .applyRemoteEntry wall e → e.op = .incr → e.key = key →
      r.store.RaisesExactly key e.nodeID e.delta)
    (hstep : r.step mp nodeID a = some r') (hnone : r.returned nodeID a = none) :
    r.store.getAggregateCount key ≤ r'.store.getAggregateCount key ∧
      (a.raises key = false →
        r'.store.getAggregateCount key = r.store.getAggregateCount key) := by
  have hsame {s : Store V} {p : Prop}
      (h : s.getAggregateCount key = r.store.getAggregateCount key) :
      r.store.getAggregateCount key ≤ s.getAggregateCount key ∧
        (p → s.getAggregateCount key = r.store.getAggregateCount key) :=
    ⟨h.ge, fun _ => h⟩
  cases a with
  | call c =>
      obtain rfl := Option.some.inj hstep
      cases c with
      | incrementBy wall bornAt k delta => cases hnone
      | set wall bornAt k value ttl => exact hsame (getAggregateCount_put r.store k _)
      | delete wall bornAt k => exact hsame (getAggregateCount_put r.store k _)
      | incrementMetric wall k delta =>
          exact hsame (getAggregateCount_incrementMetric hkey r.store k nodeID delta)
      | incrementSlidingWindow wall now k window =>
          exact hsame (getAggregateCount_incrementSlidingWindow r.store k _ window now)
  | pruneExpiredKeys i now =>
      obtain rfl := Option.some.inj hstep
      exact hsame (getAggregateCount_pruneExpiredKeys r.store i now)
  | applyRemoteEntry wall e =>
      obtain rfl := Option.some.inj hstep
      cases hsmash : r.hlc.smash wall e.ts with
      | true =>
          rw [applyRemoteEntry_of_smash hsmash]
          exact hsame rfl
      | false =>
          rw [applyRemoteEntry_of_accept hsmash]
          have hseq : ((applyOp mp r.store e).updatePeerSeq e.nodeID e.seq).getAggregateCount key =
              (applyOp mp r.store e).getAggregateCount key := by
            rw [getAggregateCount_eq, replicated_updatePeerSeq]
            rfl
          obtain ⟨hle, heq⟩ := getAggregateCount_applyOp mp hkey (hexact wall e rfl)
          exact ⟨hle.trans hseq.ge, fun hraises =>
            hseq.trans (heq (of_decide_eq_false hraises))⟩

theorem getAggregateCount_incrementBy [Rounding] (nodeID : GoString) {key : GoString}
    {r : Replica V} (wall bornAt : Int64) {k : GoString} {delta : ℤ}
    (hexact : k = key → r.CountsExactly key delta) :
    (r.incrementBy nodeID wall bornAt k delta).1.store.getAggregateCount key =
      r.store.getAggregateCount key + if key = k then (delta : ℚ) else 0 := by
  change (r.store.increment k nodeID (Rounding.round delta)).1.getAggregateCount key = _
  rw [getAggregateCount_eq, replicated_increment]
  by_cases hk : key = k
  · subst hk
    obtain ⟨hdelta, hsum, -⟩ := hexact rfl
    rw [if_pos rfl, hdelta]
    exact (congrArg (fun q => Option.getD q 0)
      (Function.update_self (slot key) _ r.store.replicated.aggregateCounts)).trans hsum
  · have hslot : slot key ≠ slot k := fun h => hk (slot_injective h)
    rw [if_neg hk, add_zero]
    exact congrArg (fun q => Option.getD q 0)
      (addTo_of_ne r.store.replicated.aggregateCounts _ hslot)

/-- A call of `IncrementParallel` that is about to increment `keys[next]`. -/
structure ParallelCall where
  keys : List GoString
  next : ℕ
  res : GoString → Option ℤ

/-- `given` holds the numbers that were returned, the last one first, with their keys and with the
loop they were returned to, if any. -/
structure CountingNode (V : Type*) where
  replica : Replica V
  calls : List ParallelCall
  given : List (Option ℕ × GoString × ℤ)

inductive CountingAction (V : Type*) where
  | node (a : NodeAction V)
  | incrementParallel (keys : List GoString)
  | increment (i : ℕ) (wall bornAt : Int64)

namespace CountingNode

def start (r : Replica V) : CountingNode V := ⟨r, [], []⟩

def step [Rounding] (mp : Msgpack V) (nodeID : GoString) (s : CountingNode V) :
    CountingAction V → Option (CountingNode V)
  | .node a =>
      (s.replica.step mp nodeID a).map (fun r =>
        { s with
          replica := r
          given := ((s.replica.returned nodeID a).map (Prod.mk none)).toList ++ s.given })
  | .incrementParallel keys => some { s with calls := s.calls ++ [⟨keys, 0, fun _ => none⟩] }
  | .increment i wall bornAt =>
      s.calls[i]?.bind (fun c =>
        c.keys[c.next]?.map (fun k =>
          let (r, _, val) := s.replica.incrementBy nodeID wall bornAt k 1
          { replica := r
            calls := s.calls.set i ⟨c.keys, c.next + 1, Function.update c.res k (some val)⟩
            given := (some i, k, val) :: s.given }))

/-- The numbers returned for a key, the last one first. -/
def numbers (s : CountingNode V) (key : GoString) : List ℤ :=
  (s.given.filter (fun g => g.2.1 = key)).map (fun g => g.2.2)

def numbersTo (s : CountingNode V) (i : ℕ) (key : GoString) : List ℤ :=
  (s.given.filter (fun g => g.1 = some i ∧ g.2.1 = key)).map (fun g => g.2.2)

inductive Steps [Rounding] (mp : Msgpack V) (nodeID : GoString) (s : CountingNode V) :
    CountingAction V → CountingNode V → Prop
  | silent {a : NodeAction V} {r : Replica V} (hr : s.replica.step mp nodeID a = some r)
      (hnone : s.replica.returned nodeID a = none) :
      Steps mp nodeID s (.node a) { s with replica := r }
  | incrementBy {wall bornAt : Int64} {key : GoString} {delta : ℤ} :
      Steps mp nodeID s (.node (.call (.incrementBy wall bornAt key delta)))
        { s with
          replica := (s.replica.incrementBy nodeID wall bornAt key delta).1
          given :=
            (none, key, (s.replica.incrementBy nodeID wall bornAt key delta).2.2) :: s.given }
  | incrementParallel {keys : List GoString} :
      Steps mp nodeID s (.incrementParallel keys)
        { s with calls := s.calls ++ [⟨keys, 0, fun _ => none⟩] }
  | increment {i : ℕ} {wall bornAt : Int64} {c : ParallelCall} {k : GoString}
      (hc : s.calls[i]? = some c) (hk : c.keys[c.next]? = some k) :
      Steps mp nodeID s (.increment i wall bornAt)
        { replica := (s.replica.incrementBy nodeID wall bornAt k 1).1
          calls := s.calls.set i ⟨c.keys, c.next + 1, Function.update c.res k
            (some (s.replica.incrementBy nodeID wall bornAt k 1).2.2)⟩
          given := (some i, k, (s.replica.incrementBy nodeID wall bornAt k 1).2.2) :: s.given }

variable {mp : Msgpack V} {nodeID key : GoString} {s t : CountingNode V}

theorem steps_of_step [Rounding] {a : CountingAction V} (h : s.step mp nodeID a = some t) :
    Steps mp nodeID s a t := by
  cases a with
  | node a =>
      obtain ⟨r, hr, rfl⟩ := Option.map_eq_some_iff.1 h
      cases hret : s.replica.returned nodeID a with
      | none => exact .silent hr hret
      | some p =>
          cases a with
          | call c =>
              cases c with
              | incrementBy wall bornAt k delta =>
                  cases hret
                  obtain rfl := Option.some.inj hr
                  exact .incrementBy
              | _ => cases hret
          | _ => cases hret
  | incrementParallel keys =>
      obtain rfl := Option.some.inj h
      exact .incrementParallel
  | increment i wall bornAt =>
      obtain ⟨c, hc, h⟩ := Option.bind_eq_some_iff.1 h
      obtain ⟨k, hk, rfl⟩ := Option.map_eq_some_iff.1 h
      exact .increment hc hk

theorem length_given_step [Rounding] {a : CountingAction V} (h : s.step mp nodeID a = some t) :
    t.given.length ≤ s.given.length + 1 := by
  cases steps_of_step h with
  | silent hr hnone => exact Nat.le_succ _
  | incrementBy => exact le_rfl
  | incrementParallel => exact Nat.le_succ _
  | increment hc hk => exact le_rfl

theorem numbers_cons (s : CountingNode V) (g : Option ℕ × GoString × ℤ) (key : GoString) :
    numbers { s with given := g :: s.given } key =
      if g.2.1 = key then g.2.2 :: s.numbers key else s.numbers key := by
  simp only [numbers, List.filter_cons, decide_eq_true_eq]
  split_ifs <;> rfl

theorem numbersTo_cons (s : CountingNode V) (g : Option ℕ × GoString × ℤ) (i : ℕ)
    (key : GoString) :
    numbersTo { s with given := g :: s.given } i key =
      if g.1 = some i ∧ g.2.1 = key then g.2.2 :: s.numbersTo i key else s.numbersTo i key := by
  simp only [numbersTo, List.filter_cons, decide_eq_true_eq]
  split_ifs <;> rfl

/-- The sums of the counter that the step forms are not rounded, and the count that it returns fits
into 64 bits. -/
def Exact [Rounding] (key : GoString) (s : CountingNode V) : CountingAction V → Prop
  | .node (.call (.incrementBy _ _ k delta)) => k = key → s.replica.CountsExactly key delta
  | .node (.applyRemoteEntry _ e) => e.op = .incr → e.key = key →
      s.replica.store.RaisesExactly key e.nodeID e.delta
  | .increment i _ _ => ∀ c ∈ s.calls[i]?, c.keys[c.next]? = some key →
      s.replica.CountsExactly key 1
  | _ => True

/-- Increments of the key are by one or more. -/
def Rising (key : GoString) : CountingAction V → Prop
  | .node (.call (.incrementBy _ _ k delta)) => k = key → 1 ≤ delta
  | _ => True

/-- The numbers of the key have been returned in increasing order, up to the count that it has
now. -/
structure Numbered (key : GoString) (s : CountingNode V) : Prop where
  nonneg : 0 ≤ s.replica.store.getAggregateCount key
  below : ∀ v ∈ s.numbers key, v ≤ s.replica.getCount key
  sorted : (s.numbers key).Pairwise (· > ·)

theorem start_numbered (key : GoString) (first offset : Int64) :
    (start (newNode first offset : Replica V)).Numbered key where
  nonneg := le_rfl
  below v hv := by cases hv
  sorted := List.Pairwise.nil

theorem getCount_mono {r r' : Replica V} (hnonneg : 0 ≤ r.store.getAggregateCount key)
    (hle : r.store.getAggregateCount key ≤ r'.store.getAggregateCount key) :
    r.getCount key ≤ r'.getCount key := by
  rw [Replica.getCount, Replica.getCount, truncate_of_nonneg hnonneg,
    truncate_of_nonneg (hnonneg.trans hle)]
  exact Int.floor_le_floor hle

theorem getCount_lt {r r' : Replica V} (hnonneg : 0 ≤ r.store.getAggregateCount key)
    (hle : r.store.getAggregateCount key + 1 ≤ r'.store.getAggregateCount key) :
    r.getCount key < r'.getCount key := by
  have hnext : 0 ≤ r'.store.getAggregateCount key := by linarith
  rw [Replica.getCount, Replica.getCount, truncate_of_nonneg hnonneg, truncate_of_nonneg hnext,
    ← Int.add_one_le_iff, Int.le_floor]
  push_cast
  linarith [Int.floor_le (r.store.getAggregateCount key)]

namespace Numbered

theorem silent (h : s.Numbered key) {r : Replica V}
    (hle : s.replica.store.getAggregateCount key ≤ r.store.getAggregateCount key) :
    Numbered key { s with replica := r } where
  nonneg := h.nonneg.trans hle
  below v hv := (h.below v hv).trans (getCount_mono h.nonneg hle)
  sorted := h.sorted

theorem give (h : s.Numbered key) {r : Replica V} {calls : List ParallelCall} {o : Option ℕ}
    {k : GoString} (hle : s.replica.store.getAggregateCount key ≤ r.store.getAggregateCount key)
    (hlt : k = key →
      s.replica.store.getAggregateCount key + 1 ≤ r.store.getAggregateCount key) :
    Numbered key ⟨r, calls, (o, k, r.getCount k) :: s.given⟩ := by
  have hnumbers := numbers_cons s (o, k, r.getCount k) key
  have hbelow (v : ℤ) (hv : v ∈ s.numbers key) : v ≤ r.getCount key :=
    (h.below v hv).trans (getCount_mono h.nonneg hle)
  refine ⟨h.nonneg.trans hle, ?_, ?_⟩
  · intro v hv
    change v ∈ numbers { s with given := (o, k, r.getCount k) :: s.given } key at hv
    rw [hnumbers] at hv
    split_ifs at hv with hk
    · rcases List.mem_cons.1 hv with rfl | hv
      · exact (congrArg r.getCount hk).le
      · exact hbelow v hv
    · exact hbelow v hv
  · change (numbers { s with given := (o, k, r.getCount k) :: s.given } key).Pairwise _
    rw [hnumbers]
    split_ifs with hk
    · refine List.Pairwise.cons (fun v hv => ?_) h.sorted
      have hcount := (h.below v hv).trans_lt (getCount_lt h.nonneg (hlt hk))
      rwa [← hk] at hcount
    · exact h.sorted

theorem step [Rounding] (h : s.Numbered key) (hkey : ¬ MetricName key) {a : CountingAction V}
    (ha : Rising key a) (hexact : s.Exact key a) (hstep : s.step mp nodeID a = some t) :
    t.Numbered key := by
  have hcount (wall bornAt : Int64) (k : GoString) {delta : ℤ} (hdelta : k = key → 1 ≤ delta)
      (hexact : k = key → s.replica.CountsExactly key delta) :
      s.replica.store.getAggregateCount key ≤
          (s.replica.incrementBy nodeID wall bornAt k delta).1.store.getAggregateCount key ∧
        (k = key → s.replica.store.getAggregateCount key + 1 ≤
          (s.replica.incrementBy nodeID wall bornAt k delta).1.store.getAggregateCount key) := by
    rw [getAggregateCount_incrementBy nodeID wall bornAt hexact]
    by_cases hk : key = k
    · have hone : (1 : ℚ) ≤ delta := by exact_mod_cast hdelta hk.symm
      rw [if_pos hk]
      exact ⟨by linarith, fun _ => by linarith⟩
    · rw [if_neg hk, add_zero]
      exact ⟨le_rfl, fun hk' => absurd hk'.symm hk⟩
  cases steps_of_step hstep with
  | silent hr hnone =>
      exact h.silent (getAggregateCount_step hkey (fun _ _ heq => by subst heq; exact hexact) hr
        hnone).1
  | incrementBy =>
      obtain ⟨hle, hlt⟩ := hcount _ _ _ ha hexact
      exact h.give hle hlt
  | incrementParallel => exact ⟨h.nonneg, h.below, h.sorted⟩
  | increment hc hk =>
      obtain ⟨hle, hlt⟩ := hcount _ _ _ (fun _ => le_rfl)
        (fun heq => hexact _ hc (heq ▸ hk))
      exact h.give hle hlt

end Numbered

/-- A loop has been given a number for each of the keys it has come to, and keeps the last one of
each key. -/
structure Looped (key : GoString) (s : CountingNode V) : Prop where
  within : ∀ g ∈ s.given, ∀ i, g.1 = some i → i < s.calls.length
  kept : ∀ i c, s.calls[i]? = some c → c.res key = (s.numbersTo i key).head?
  counted : ∀ i c, s.calls[i]? = some c →
    (s.numbersTo i key).length = (c.keys.take c.next).count key

namespace Looped

theorem start (key : GoString) (r : Replica V) : (start r).Looped key where
  within g hg := by cases hg
  kept i c hc := by cases hc
  counted i c hc := by cases hc

theorem numbersTo_eq_nil (h : s.Looped key) {i : ℕ} (hi : s.calls.length ≤ i) :
    s.numbersTo i key = [] := by
  unfold numbersTo
  rw [List.map_eq_nil_iff, List.filter_eq_nil_iff]
  intro g hg hmem
  have hlt := h.within g hg i (of_decide_eq_true hmem).1
  omega

theorem step [Rounding] (h : s.Looped key) {a : CountingAction V}
    (hstep : s.step mp nodeID a = some t) : t.Looped key := by
  cases steps_of_step hstep with
  | silent hr hnone => exact ⟨h.within, h.kept, h.counted⟩
  | @incrementBy wall bornAt k delta =>
      have hnumbers (i : ℕ) := (numbersTo_cons s
        (none, k, (s.replica.incrementBy nodeID wall bornAt k delta).2.2) i key).trans
        (if_neg (fun hmem => by cases hmem.1))
      refine ⟨?_, fun i c hc => ?_, fun i c hc => ?_⟩
      · intro g hg i hi
        rcases List.mem_cons.1 hg with rfl | hg
        · cases hi
        · exact h.within g hg i hi
      · exact (h.kept i c hc).trans (congrArg List.head? (hnumbers i).symm)
      · exact (congrArg List.length (hnumbers i)).trans (h.counted i c hc)
  | @incrementParallel keys =>
      have hcases {j : ℕ} {c : ParallelCall}
          (hc : (s.calls ++ [⟨keys, 0, fun _ => none⟩])[j]? = some c) :
          s.calls[j]? = some c ∨ s.calls.length ≤ j ∧ c = ⟨keys, 0, fun _ => none⟩ := by
        rw [List.getElem?_append] at hc
        split_ifs at hc with hj
        · exact Or.inl hc
        · exact Or.inr ⟨not_lt.1 hj, List.mem_singleton.1 (List.mem_of_getElem? hc)⟩
      refine ⟨fun g hg i hi => ?_, fun j c hc => ?_, fun j c hc => ?_⟩
      · have hlt := h.within g hg i hi
        simp only [List.length_append, List.length_singleton]
        omega
      · rcases hcases hc with hc | ⟨hj, rfl⟩
        · exact h.kept j c hc
        · exact (congrArg List.head? (h.numbersTo_eq_nil hj)).symm
      · rcases hcases hc with hc | ⟨hj, rfl⟩
        · exact h.counted j c hc
        · exact congrArg List.length (h.numbersTo_eq_nil hj)
  | @increment i wall bornAt c k hc hk =>
      have hi := (List.getElem?_eq_some_iff.1 hc).1
      have hnumbers (j : ℕ) := numbersTo_cons s
        (some i, k, (s.replica.incrementBy nodeID wall bornAt k 1).2.2) j key
      refine ⟨fun g hg j hj => ?_, fun j c' hc' => ?_, fun j c' hc' => ?_⟩
      · rw [List.length_set]
        rcases List.mem_cons.1 hg with rfl | hg
        · cases hj
          exact hi
        · exact h.within g hg j hj
      · refine Eq.trans ?_ (congrArg List.head? (hnumbers j).symm)
        rw [List.getElem?_set] at hc'
        split_ifs at hc' with hij
        · cases hc'
          subst hij
          simp only [Function.update_apply, true_and, @eq_comm _ k key]
          split_ifs
          · rfl
          · exact h.kept i c hc
        · rw [if_neg (fun hmem => hij (Option.some.inj hmem.1))]
          exact h.kept j c' hc'
      · refine (congrArg List.length (hnumbers j)).trans ?_
        rw [List.getElem?_set] at hc'
        split_ifs at hc' with hij
        · cases hc'
          subst hij
          have htake : c.keys.take (c.next + 1) = c.keys.take c.next ++ [k] := by
            rw [List.take_add_one, hk]
            rfl
          simp only [true_and, htake, List.count_append, List.count_singleton, beq_iff_eq]
          split_ifs
          · rw [List.length_cons, h.counted i c hc]
          · rw [h.counted i c hc, add_zero]
        · rw [if_neg (fun hmem => hij (Option.some.inj hmem.1))]
          exact h.counted j c' hc'

end Looped

theorem mem_given_of_res {i : ℕ} {c : ParallelCall} (h : s.Looped key)
    (hc : s.calls[i]? = some c) {v : ℤ} (hv : c.res key = some v) : (some i, key, v) ∈ s.given := by
  rw [h.kept i c hc] at hv
  obtain ⟨g, hg, hval⟩ := List.mem_map.1 (List.mem_of_head? hv)
  obtain ⟨hg, hmem⟩ := List.mem_filter.1 hg
  obtain ⟨howner, hkey⟩ := of_decide_eq_true hmem
  rwa [← howner, ← hkey, ← hval]

/-- In every run of a node that starts empty, the numbers returned for a key grow, the count of the
key never falls behind them, each loop is given a number for every occurrence of the key and keeps
the last one, and no two loops keep the same number. -/
theorem numbers_distinct [Rounding] (mp : Msgpack V) (nodeID key : GoString)
    (hkey : ¬ MetricName key) (first offset : Int64) {as : List (CountingAction V)}
    (hrising : ∀ a ∈ as, Rising key a)
    (hexact : StepSystem.Along (CountingNode.step mp nodeID) (Exact key)
      (start (newNode first offset)) as)
    (hrun : StepSystem.run (CountingNode.step mp nodeID) (start (newNode first offset)) as =
      some s) :
    (s.numbers key).Pairwise (· > ·) ∧ (∀ v ∈ s.numbers key, v ≤ s.replica.getCount key) ∧
      (∀ i c, s.calls[i]? = some c → c.res key = (s.numbersTo i key).head? ∧
        (s.numbersTo i key).length = (c.keys.take c.next).count key) ∧
      ∀ (i j : ℕ) (c c' : ParallelCall) v, i ≠ j → s.calls[i]? = some c → s.calls[j]? = some c' →
        c.res key = some v → c'.res key ≠ some v := by
  have h : s.Numbered key := StepSystem.run_invariant_along
    (fun _ _ _ h ha hstep => h.step hkey ha.1 ha.2 hstep) (start_numbered key first offset)
    (StepSystem.along_and (StepSystem.along_of_forall_mem hrising _) hexact) hrun
  have hloops : s.Looped key := StepSystem.run_invariant (fun _ _ _ h hstep => h.step hstep)
    (Looped.start key (newNode first offset)) hrun
  refine ⟨h.sorted, h.below, fun i c hc => ⟨hloops.kept i c hc, hloops.counted i c hc⟩, ?_⟩
  intro i j c c' v hij hc hc' hv hv'
  have hfilter {o : ℕ} (hmem : (some o, key, v) ∈ s.given) :
      (some o, key, v) ∈ s.given.filter (fun g => g.2.1 = key) :=
    List.mem_filter.2 ⟨hmem, decide_eq_true rfl⟩
  have hnodup : (s.numbers key).Nodup := h.sorted.imp (fun hgt => ne_of_gt hgt)
  have hsame := List.inj_on_of_nodup_map hnodup (hfilter (mem_given_of_res hloops hc hv))
    (hfilter (mem_given_of_res hloops hc' hv')) rfl
  cases hsame
  exact hij rfl

instance (key : GoString) : (a : CountingAction V) → Decidable (Rising key a)
  | .node (.call (.incrementBy _ _ k delta)) => inferInstanceAs (Decidable (k = key → 1 ≤ delta))
  | .node (.call (.set _ _ _ _ _)) | .node (.call (.delete _ _ _))
  | .node (.call (.incrementMetric _ _ _)) | .node (.call (.incrementSlidingWindow _ _ _ _))
  | .node (.applyRemoteEntry _ _) | .node (.pruneExpiredKeys _ _) | .incrementParallel _
  | .increment _ _ _ => isTrue trivial

instance [Rounding] (key : GoString) (s : CountingNode V) :
    (a : CountingAction V) → Decidable (s.Exact key a)
  | .node (.call (.incrementBy _ _ k delta)) =>
      inferInstanceAs (Decidable (k = key → s.replica.CountsExactly key delta))
  | .node (.applyRemoteEntry _ e) => inferInstanceAs (Decidable (e.op = .incr → _ → _))
  | .increment i _ _ => inferInstanceAs (Decidable (∀ c ∈ s.calls[i]?, _))
  | .node (.call (.set _ _ _ _ _)) | .node (.call (.delete _ _ _))
  | .node (.call (.incrementMetric _ _ _)) | .node (.call (.incrementSlidingWindow _ _ _ _))
  | .node (.pruneExpiredKeys _ _) | .incrementParallel _ => isTrue trivial

section Float64

attribute [local instance] Rounding.nearest

def crowdedRun : List (CountingAction UInt8) :=
  [.incrementParallel [bytes "k", bytes "n", bytes "k"], .incrementParallel [bytes "k"],
    .increment 0 10 10,
    .node (.applyRemoteEntry 11 (incrLogEntry ⟨9, 0⟩ 9 (bytes "k") (bytes "b") 4)),
    .increment 1 12 12, .increment 0 13 13, .node (.call (.incrementBy 14 14 (bytes "k") 2)),
    .increment 0 15 15]

theorem crowdedRun_isSome : (StepSystem.run (CountingNode.step byteMsgpack (bytes "a"))
    (start (newNode 9 500)) crowdedRun).isSome = true := by
  decide +kernel

theorem numbers_distinct_crowded :
    ∃ s, StepSystem.run (CountingNode.step byteMsgpack (bytes "a")) (start (newNode 9 500))
        crowdedRun = some s ∧
      s.numbers (bytes "k") = [9, 8, 6, 1] ∧ (s.numbers (bytes "k")).Pairwise (· > ·) := by
  have hrun := (Option.some_get crowdedRun_isSome).symm
  have hnumbers := numbers_distinct byteMsgpack (bytes "a") (bytes "k") (by decide) 9 500
    (by decide +kernel) (by decide +kernel) hrun
  exact ⟨_, hrun, by decide +kernel, hnumbers.1⟩

end Float64

/-- The key is incremented one at a time, and by this node alone. -/
def Alone (key : GoString) : CountingAction V → Prop
  | .node (.call (.incrementBy _ _ k delta)) => k = key → delta = 1
  | .node a => a.raises key = false
  | _ => True

def countdown (n : ℕ) : List ℤ := ((List.range n).map (fun i => (i : ℤ) + 1)).reverse

theorem countdown_succ (n : ℕ) : countdown (n + 1) = ((n : ℤ) + 1) :: countdown n := by
  simp [countdown, List.range_succ]

def Gapless (key : GoString) (s : CountingNode V) : Prop :=
  ∃ n : ℕ, s.replica.store.getAggregateCount key = n ∧ s.numbers key = countdown n

namespace Gapless

theorem give [Rounding] (h : s.Gapless key) (wall bornAt : Int64) (k : GoString) {delta : ℤ}
    (hdelta : k = key → delta = 1) (hexact : k = key → s.replica.CountsExactly key delta)
    (calls : List ParallelCall) (o : Option ℕ) :
    Gapless key ⟨(s.replica.incrementBy nodeID wall bornAt k delta).1, calls,
      (o, k, (s.replica.incrementBy nodeID wall bornAt k delta).2.2) :: s.given⟩ := by
  obtain ⟨n, hn, hdown⟩ := h
  have hcount := getAggregateCount_incrementBy nodeID wall bornAt hexact
  have hcons := numbers_cons s (o, k, (s.replica.incrementBy nodeID wall bornAt k delta).2.2) key
  rw [hn] at hcount
  by_cases hk : k = key
  · subst hk
    obtain rfl := hdelta rfl
    rw [if_pos rfl] at hcount hcons
    have hnext : (s.replica.incrementBy nodeID wall bornAt k 1).1.store.getAggregateCount k =
        ((n + 1 : ℕ) : ℤ) := by
      rw [hcount]
      push_cast
      rfl
    have hval : (s.replica.incrementBy nodeID wall bornAt k 1).2.2 = n + 1 :=
      (congrArg truncate hnext).trans (truncate_intCast _)
    refine ⟨n + 1, hnext, hcons.trans ?_⟩
    rw [hval, hdown, countdown_succ]
  · rw [if_neg (Ne.symm hk), add_zero] at hcount
    rw [if_neg hk] at hcons
    exact ⟨n, hcount, hcons.trans hdown⟩

theorem step [Rounding] (h : s.Gapless key) (hkey : ¬ MetricName key) {a : CountingAction V}
    (ha : Alone key a) (hexact : s.Exact key a) (hstep : s.step mp nodeID a = some t) :
    t.Gapless key := by
  cases steps_of_step hstep with
  | @silent a r hr hnone =>
      have hraises : a.raises key = false := by
        cases a with
        | call c => rfl
        | applyRemoteEntry wall e => exact ha
        | pruneExpiredKeys i now => rfl
      have hcount := (getAggregateCount_step hkey
        (fun _ _ heq => by subst heq; exact hexact) hr hnone).2 hraises
      obtain ⟨n, hn, hdown⟩ := h
      exact ⟨n, hcount.trans hn, hdown⟩
  | incrementBy => exact h.give _ _ _ ha hexact _ _
  | incrementParallel => exact h
  | increment hc hk =>
      exact h.give _ _ _ (fun _ => rfl) (fun heq => hexact _ hc (heq ▸ hk)) _ _

/-- As long as fewer numbers have been returned than are exact, so is the next one. -/
theorem exact [Rounding] (h : s.Gapless key)
    (hround : ∀ z : ℤ, z.natAbs ≤ 2 ^ 53 → Rounding.Exact (z : ℚ)) {a : CountingAction V}
    (ha : Alone key a) (hlt : s.given.length < 2 ^ 53) : s.Exact key a := by
  obtain ⟨n, hn, hdown⟩ := h
  have hle : n ≤ s.given.length := by
    have hlength : (s.numbers key).length = n := by simp [hdown, countdown]
    rw [← hlength, numbers, List.length_map]
    exact List.length_filter_le _ _
  have hone : s.replica.CountsExactly key 1 := by
    have hnext := hround ((n : ℤ) + 1) (by omega)
    have hbound : ((n + 1 : ℕ) : ℚ) < ((2 ^ 63 : ℕ) : ℚ) := Nat.cast_lt.2 (by omega)
    push_cast at hnext hbound
    rw [Replica.CountsExactly, hn, Int.cast_one]
    exact ⟨by exact_mod_cast hround 1 (by decide), hnext, hbound⟩
  cases a with
  | node a =>
      cases a with
      | call c =>
          cases c with
          | incrementBy wall bornAt k delta =>
              intro hk
              rw [ha hk]
              exact hone
          | set wall bornAt k value ttl => trivial
          | delete wall bornAt k => trivial
          | incrementMetric wall k delta => trivial
          | incrementSlidingWindow wall now k window => trivial
      | applyRemoteEntry wall e =>
          intro hop hk
          exact absurd ⟨hop, hk⟩ (of_decide_eq_false ha)
      | pruneExpiredKeys i now => trivial
  | incrementParallel keys => trivial
  | increment i wall bornAt => exact fun _ _ _ => hone

theorem along_exact [Rounding] (h : s.Gapless key) (hkey : ¬ MetricName key)
    (hround : ∀ z : ℤ, z.natAbs ≤ 2 ^ 53 → Rounding.Exact (z : ℚ)) {as : List (CountingAction V)}
    (halone : ∀ a ∈ as, Alone key a) (hle : s.given.length + as.length ≤ 2 ^ 53) :
    StepSystem.Along (CountingNode.step mp nodeID) (CountingNode.Exact key) s as := by
  induction as generalizing s with
  | nil => trivial
  | cons a as ih =>
      rw [List.length_cons] at hle
      have ha := halone a List.mem_cons_self
      have hexact := h.exact hround ha (by omega)
      refine ⟨hexact, ?_⟩
      cases hstep : s.step mp nodeID a with
      | none => trivial
      | some t =>
          have hgiven := length_given_step hstep
          exact ih (h.step hkey ha hexact hstep)
            (fun b hb => halone b (List.mem_cons_of_mem _ hb)) (by omega)

end Gapless

/-- A node that counts a key alone and one at a time returns every number from one to the count
once, in every run that is short enough for its numbers to be exact. -/
theorem numbers_gapless [Rounding]
    (hround : ∀ z : ℤ, z.natAbs ≤ 2 ^ 53 → Rounding.Exact (z : ℚ)) (mp : Msgpack V)
    (nodeID key : GoString) (hkey : ¬ MetricName key) (first offset : Int64)
    {as : List (CountingAction V)} (halone : ∀ a ∈ as, Alone key a)
    (hlength : as.length ≤ 2 ^ 53)
    (hrun : StepSystem.run (CountingNode.step mp nodeID) (start (newNode first offset)) as =
      some s) :
    ∃ n : ℕ, s.replica.getCount key = n ∧ s.numbers key = countdown n := by
  have hstart : (start (newNode first offset) : CountingNode V).Gapless key := ⟨0, rfl, rfl⟩
  have hexact : StepSystem.Along (CountingNode.step mp nodeID) (Exact key)
      (start (newNode first offset)) as :=
    hstart.along_exact hkey hround halone (by simpa [start] using hlength)
  obtain ⟨n, hn, hdown⟩ : s.Gapless key := StepSystem.run_invariant_along
    (fun _ _ _ h ha hstep => h.step hkey ha.1 ha.2 hstep) hstart
    (StepSystem.along_and (StepSystem.along_of_forall_mem halone _) hexact) hrun
  refine ⟨n, ?_, hdown⟩
  rw [Replica.getCount, hn]
  exact truncate_intCast n

instance (key : GoString) : (a : CountingAction V) → Decidable (Alone key a)
  | .node (.call (.incrementBy _ _ k delta)) => inferInstanceAs (Decidable (k = key → delta = 1))
  | .node (.call (.set _ _ _ _ _)) | .node (.call (.delete _ _ _))
  | .node (.call (.incrementMetric _ _ _)) | .node (.call (.incrementSlidingWindow _ _ _ _))
  | .node (.pruneExpiredKeys _ _) => isTrue rfl
  | .node (.applyRemoteEntry wall e) =>
      inferInstanceAs (Decidable
        (NodeAction.raises key (.applyRemoteEntry wall e : NodeAction V) = false))
  | .incrementParallel _ | .increment _ _ _ => isTrue trivial

section Float64

attribute [local instance] Rounding.nearest

def turnsRun : List (CountingAction UInt8) :=
  [.incrementParallel [bytes "k", bytes "n", bytes "k"], .incrementParallel [bytes "k", bytes "k"],
    .increment 1 10 10, .increment 0 11 11, .increment 0 12 12,
    .node (.applyRemoteEntry 13 (incrLogEntry ⟨9, 0⟩ 9 (bytes "n") (bytes "b") 4)),
    .node (.call (.incrementBy 14 14 (bytes "k") 1)), .increment 0 15 15, .increment 1 16 16]

theorem turnsRun_isSome : (StepSystem.run (CountingNode.step byteMsgpack (bytes "a"))
    (start (newNode 9 500)) turnsRun).isSome = true := by
  decide +kernel

theorem numbers_gapless_turns :
    ∃ s, StepSystem.run (CountingNode.step byteMsgpack (bytes "a")) (start (newNode 9 500))
        turnsRun = some s ∧
      ∃ n : ℕ, s.replica.getCount (bytes "k") = n ∧ s.numbers (bytes "k") = countdown n := by
  have hrun := (Option.some_get turnsRun_isSome).symm
  exact ⟨_, hrun, numbers_gapless (fun _ => Rounding.exact_nearest) byteMsgpack (bytes "a")
    (bytes "k") (by decide) 9 500 (by decide +kernel) (by decide) hrun⟩

end Float64

end CountingNode

section MetricParallel

theorem addTo_comm {K : Type*} [DecidableEq K] (m : K → Option ℚ) (k k' : K) (d d' : ℚ) :
    addTo (addTo m k d) k' d' = addTo (addTo m k' d') k d := by
  unfold addTo
  by_cases hk : k = k'
  · subst hk
    simp only [Function.update_self, Function.update_idem, Option.getD_some,
      Rounding.round_unrounded]
    rw [add_right_comm]
  · rw [Function.update_of_ne hk, Function.update_of_ne (Ne.symm hk), Function.update_comm hk]

def Replicated.addMetric (nodeID : GoString) (R : Replicated V) (item : GoString × ℚ) :
    Replicated V :=
  (R.add (CountKind.metricCount.part item.1 nodeID) (CountKind.metricCount.whole item.1) 1).add
    (CountKind.metricSum.part item.1 nodeID) (CountKind.metricSum.whole item.1) item.2

theorem Replicated.addMetric_comm (nodeID : GoString) (R : Replicated V)
    (item item' : GoString × ℚ) :
    (R.addMetric nodeID item).addMetric nodeID item' =
      (R.addMetric nodeID item').addMetric nodeID item := by
  have hcomm (R : Replicated V) (c a c' a' : Fin numShards × GoString) (d d' : ℚ) :
      (R.add c a d).add c' a' d' = (R.add c' a' d').add c a d := by
    simp only [add, addTo_comm R.counts c c', addTo_comm R.aggregateCounts a a']
  unfold addMetric
  rw [hcomm (R.add _ _ 1) _ _ _ _ item.2 1, hcomm R _ _ _ _ 1 1,
    hcomm ((R.add _ _ 1).add _ _ 1) _ _ _ _ item.2 item'.2, hcomm (R.add _ _ 1) _ _ _ _ 1 item'.2]

theorem Store.replicated_incrementMetric_eq (s : Store V) (k nodeID : GoString) (delta : ℚ) :
    (s.incrementMetric k nodeID delta).1.replicated = s.replicated.addMetric nodeID (k, delta) :=
  s.replicated_incrementMetric k nodeID delta

/-- One turn of the loop of `IncrementMetricParallel`, with the reading of the clock it makes. -/
def Replica.metricTurn (nodeID : GoString)
    (p : Replica V × List LogEntry × (GoString → Option Metric)) (item : Int64 × GoString × ℚ) :
    Replica V × List LogEntry × (GoString → Option Metric) :=
  let (r, e, m) := p.1.incrementMetric nodeID item.1 item.2.1 item.2.2
  (r, p.2.1 ++ [e], Function.update p.2.2 item.2.1 (some m))

/-- The new replica, the entries for the log and the map that is returned. The loop is over a map,
so that its keys are distinct and come in any order. -/
def Replica.incrementMetricParallel (nodeID : GoString) (r : Replica V)
    (items : List (Int64 × GoString × ℚ)) :
    Replica V × List LogEntry × (GoString → Option Metric) :=
  items.foldl (Replica.metricTurn nodeID) (r, [], fun _ => none)

variable {nodeID : GoString}

theorem replicated_foldl_metricTurn
    (p : Replica V × List LogEntry × (GoString → Option Metric))
    (items : List (Int64 × GoString × ℚ)) :
    (items.foldl (Replica.metricTurn nodeID) p).1.store.replicated =
      (items.map Prod.snd).foldl (Replicated.addMetric nodeID) p.1.store.replicated := by
  induction items generalizing p with
  | nil => rfl
  | cons item items ih =>
      rw [List.foldl_cons, ih, List.map_cons, List.foldl_cons]
      exact congrArg (fun R => List.foldl _ R _)
        (p.1.store.replicated_incrementMetric_eq item.2.1 nodeID item.2.2)

theorem entries_foldl_metricTurn
    (p : Replica V × List LogEntry × (GoString → Option Metric))
    (items : List (Int64 × GoString × ℚ)) :
    (items.foldl (Replica.metricTurn nodeID) p).2.1.map (fun e => (e.key, e.delta)) =
      p.2.1.map (fun e => (e.key, e.delta)) ++ items.map Prod.snd := by
  induction items generalizing p with
  | nil => simp
  | cons item items ih =>
      rw [List.foldl_cons, ih]
      simp [Replica.metricTurn, Replica.incrementMetric, metricLogEntry]

theorem total_incrementMetric_of_ne_counter {kind : CountKind} (hkind : kind ≠ .counter)
    (s : Store V) (k nodeID key : GoString) (delta : ℚ) :
    (s.incrementMetric k nodeID delta).1.total kind key = s.total kind key +
      if key = k then (if kind = .metricCount then 1 else delta) else 0 := by
  have hwhole {kind' : CountKind} (hkind' : kind' ≠ .counter) :
      kind.whole key = kind'.whole k ↔ kind = kind' ∧ key = k :=
    CountKind.whole_inj (CountKind.names_of_ne hkind key) (CountKind.names_of_ne hkind' k)
  rw [total_incrementMetric]
  simp only [hwhole (show CountKind.metricCount ≠ .counter by decide),
    hwhole (show CountKind.metricSum ≠ .counter by decide)]
  cases kind with
  | counter => exact absurd rfl hkind
  | metricCount => simp
  | metricSum => simp

/-- What the loop leaves in its map for a key: the metric it has found with its own update, or what
was there when the key does not come. -/
theorem results_foldl_metricTurn
    (p : Replica V × List LogEntry × (GoString → Option Metric))
    {items : List (Int64 × GoString × ℚ)} (hnodup : (items.map (fun item => item.2.1)).Nodup)
    (key : GoString) :
    (items.foldl (Replica.metricTurn nodeID) p).2.2 key =
      (((items.map Prod.snd).find? (fun item => item.1 = key)).map (fun item =>
        ⟨truncate (p.1.store.total .metricCount key + 1),
          p.1.store.total .metricSum key + item.2⟩)).or (p.2.2 key) := by
  induction items generalizing p with
  | nil => rfl
  | cons item items ih =>
      obtain ⟨hnot, hnodup⟩ := List.nodup_cons.1 hnodup
      have htotal {kind : CountKind} (hkind : kind ≠ .counter) :=
        total_incrementMetric_of_ne_counter hkind p.1.store item.2.1 nodeID key item.2.2
      have hcount := htotal (show CountKind.metricCount ≠ .counter by decide)
      have hsum := htotal (show CountKind.metricSum ≠ .counter by decide)
      rw [List.foldl_cons, ih _ hnodup, List.map_cons, List.find?_cons]
      by_cases hk : item.2.1 = key
      · subst hk
        have hnone : (items.map Prod.snd).find? (fun item' => item'.1 = item.2.1) = none := by
          rw [List.find?_eq_none]
          intro item' hitem' heq
          obtain ⟨x, hx, rfl⟩ := List.mem_map.1 hitem'
          exact hnot (List.mem_map.2 ⟨x, hx, of_decide_eq_true heq⟩)
        rw [if_pos rfl, if_pos rfl] at hcount
        rw [if_pos rfl, if_neg (by decide)] at hsum
        rw [hnone, decide_eq_true rfl]
        have hmetric := getAggregateMetric_eq_total
          (p.1.store.incrementMetric item.2.1 nodeID item.2.2).1 item.2.1
        rw [hcount, hsum] at hmetric
        exact (Function.update_self _ _ _).trans (congrArg some hmetric)
      · have hturn : (Replica.metricTurn nodeID p item).2.2 key = p.2.2 key :=
          Function.update_of_ne (Ne.symm hk) _ _
        rw [if_neg (Ne.symm hk), add_zero] at hcount hsum
        rw [decide_eq_false hk, hturn]
        simp only [Replica.metricTurn, Replica.incrementMetric, hcount, hsum]

theorem find?_of_mem {items : List (GoString × ℚ)} (hnodup : (items.map Prod.fst).Nodup)
    {item : GoString × ℚ} (hitem : item ∈ items) :
    items.find? (fun x => x.1 = item.1) = some item := by
  cases hfind : items.find? (fun x => x.1 = item.1) with
  | none => exact absurd (decide_eq_true rfl) (List.find?_eq_none.1 hfind item hitem)
  | some x =>
      have hx : x.1 = item.1 := by simpa using List.find?_some hfind
      rw [List.inj_on_of_nodup_map hnodup (List.mem_of_find?_eq_some hfind) hitem hx]

theorem find?_perm {items items' : List (GoString × ℚ)} (hnodup : (items.map Prod.fst).Nodup)
    (hperm : items.Perm items') (key : GoString) :
    items.find? (fun x => x.1 = key) = items'.find? (fun x => x.1 = key) := by
  cases hfind : items.find? (fun x => x.1 = key) with
  | none =>
      rw [eq_comm, List.find?_eq_none]
      exact fun x hx => List.find?_eq_none.1 hfind x (hperm.mem_iff.2 hx)
  | some x =>
      have hkey : x.1 = key := by simpa using List.find?_some hfind
      have hnodup' := (hperm.map Prod.fst).nodup_iff.1 hnodup
      have hx := hperm.mem_iff.1 (List.mem_of_find?_eq_some hfind)
      rw [← hkey, find?_of_mem hnodup' hx]

/-- Whatever the order in which the map is walked and whatever the clock shows, the loop leaves the
same store, hands the same updates to the log and returns the same map, in which every key has its
own update and no other. -/
theorem metricParallel_any_order (nodeID : GoString) (r : Replica V)
    (items items' : List (Int64 × GoString × ℚ))
    (hnodup : (items.map (fun item => item.2.1)).Nodup)
    (hperm : (items.map Prod.snd).Perm (items'.map Prod.snd)) :
    (r.incrementMetricParallel nodeID items).1.store.replicated =
        (r.incrementMetricParallel nodeID items').1.store.replicated ∧
      ((r.incrementMetricParallel nodeID items).2.1.map (fun e => (e.key, e.delta))).Perm
        ((r.incrementMetricParallel nodeID items').2.1.map (fun e => (e.key, e.delta))) ∧
      (r.incrementMetricParallel nodeID items).2.2 =
        (r.incrementMetricParallel nodeID items').2.2 ∧
      ∀ item ∈ items, (r.incrementMetricParallel nodeID items).2.2 item.2.1 =
        some ⟨truncate (r.store.total .metricCount item.2.1 + 1),
          r.store.total .metricSum item.2.1 + item.2.2⟩ := by
  have hkeys : ((items.map Prod.snd).map Prod.fst).Nodup := by
    rw [List.map_map]
    exact hnodup
  have hkeys' : (items'.map (fun item => item.2.1)).Nodup := by
    have hnodup' := (hperm.map Prod.fst).nodup_iff.1 hkeys
    rw [List.map_map] at hnodup'
    exact hnodup'
  refine ⟨?_, ?_, ?_, ?_⟩
  · unfold Replica.incrementMetricParallel
    rw [replicated_foldl_metricTurn, replicated_foldl_metricTurn]
    exact hperm.foldl_eq' (fun _ _ _ _ R => R.addMetric_comm nodeID _ _) _
  · unfold Replica.incrementMetricParallel
    rw [entries_foldl_metricTurn, entries_foldl_metricTurn]
    exact hperm
  · funext key
    unfold Replica.incrementMetricParallel
    rw [results_foldl_metricTurn _ hnodup, results_foldl_metricTurn _ hkeys',
      find?_perm hkeys hperm]
  · intro item hitem
    unfold Replica.incrementMetricParallel
    rw [results_foldl_metricTurn _ hnodup, find?_of_mem hkeys (List.mem_map_of_mem hitem)]
    rfl

def twoMetrics : List (Int64 × GoString × ℚ) := [(10, bytes "x", 3), (11, bytes "y:z", -1)]

theorem metricParallel_any_order_twoMetrics :
    ((newNode 9 500 : Replica UInt8).incrementMetricParallel (bytes "a") twoMetrics).2.2 =
        ((newNode 9 500 : Replica UInt8).incrementMetricParallel (bytes "a")
          twoMetrics.reverse).2.2 ∧
      ((newNode 9 500 : Replica UInt8).incrementMetricParallel (bytes "a") twoMetrics).2.2
        (bytes "x") = some ⟨1, 3⟩ := by
  have horder := metricParallel_any_order (bytes "a") (newNode 9 500 : Replica UInt8) twoMetrics
    twoMetrics.reverse (by decide) (by decide)
  exact ⟨horder.2.2.1, by decide +kernel⟩

end MetricParallel

end Capacitor
