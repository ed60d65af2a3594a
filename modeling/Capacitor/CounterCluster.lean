import Capacitor.StepSystem
import Capacitor.Counters

/-!
# Convergence of counters across a cluster

Any number of nodes run `IncrementBy` calls concurrently. A call is three atomic steps: the
increment of the store, the reading of the node's own total, and the append of the entry that
carries the total read. Entries travel to the other nodes in any order, repeatedly or never.

Every step is a `Bump`: it raises one partial count on one node, and the aggregate with it, by an
amount that may be zero. From this follow the invariants that a replica never runs ahead of the
node it copies and that the present total of a node is always carried by some call or entry.
-/

namespace Capacitor

open Store
open StepSystem (Cluster)

/-- A call between its first and its last step. -/
inductive PendingIncr where
  | added (key : GoString)
  | read (key : GoString) (nodeVal : ℚ)
  deriving DecidableEq

/-- `received` records the entries of other nodes that were applied here. -/
structure CounterNode (ι V : Type*) where
  replica : Replica V
  pending : List PendingIncr
  log : List LogEntry
  received : List (ι × LogEntry)

/-- `issued` records the deltas of all calls. -/
abbrev CounterCluster (ι V : Type*) := Cluster ι (CounterNode ι V) (ι × GoString × ℤ)

inductive CounterAction (ι : Type*) where
  | increment (i : ι) (key : GoString) (delta : ℤ)
  | getNodeCount (i : ι) (key : GoString)
  | append (i : ι) (key : GoString) (nodeVal : ℚ) (wall bornAt : Int64)
  | deliver (i j : ι) (e : LogEntry) (wall : Int64)

def CounterAction.NonNegative {ι : Type*} : CounterAction ι → Prop
  | .increment _ _ delta => 0 ≤ delta
  | _ => True

instance {ι : Type*} : (a : CounterAction ι) → Decidable a.NonNegative
  | .increment _ _ delta => inferInstanceAs (Decidable (0 ≤ delta))
  | .getNodeCount _ _ => isTrue trivial
  | .append _ _ _ _ _ => isTrue trivial
  | .deliver _ _ _ _ => isTrue trivial

theorem countSlot_nodeID {ι : Type*} {nodeID : ι → GoString}
    (hinj : Function.Injective nodeID) (hcolon : ∀ i, colon ∉ nodeID i) {key key' : GoString}
    {i j : ι} :
    countSlot key' (nodeID j) = countSlot key (nodeID i) ↔ key' = key ∧ j = i := by
  rw [countSlot_inj (hcolon j) (hcolon i), hinj.eq_iff]

namespace CounterNode

variable {ι V : Type*}

def count (n : CounterNode ι V) (key nodeID : GoString) : ℚ :=
  n.replica.store.getNodeCount key nodeID

def increment [Rounding] (n : CounterNode ι V) (key nodeID : GoString) (delta : ℤ) :
    CounterNode ι V :=
  { n with
    replica := { n.replica with
      store := (n.replica.store.increment key nodeID (Rounding.round delta)).1 }
    pending := .added key :: n.pending }

def getNodeCount (n : CounterNode ι V) (key nodeID : GoString) : CounterNode ι V :=
  { n with
    pending := .read key (n.replica.store.getNodeCount key nodeID) ::
      n.pending.erase (.added key) }

def append (n : CounterNode ι V) (key nodeID : GoString) (nodeVal : ℚ) (wall bornAt : Int64) :
    CounterNode ι V :=
  let (hlc, ts) := n.replica.hlc.now wall
  { n with
    replica := { n.replica with hlc := hlc }
    pending := n.pending.erase (.read key nodeVal)
    log := appendEntry n.log (incrLogEntry ts bornAt key nodeID nodeVal) }

def deliver [Rounding] (mp : Msgpack V) (n : CounterNode ι V) (j : ι) (e : LogEntry)
    (wall : Int64) : CounterNode ι V :=
  { n with
    replica := applyRemoteEntry mp n.replica wall e
    received := if n.replica.hlc.smash wall e.ts then n.received else (j, e) :: n.received }

/-- The three steps of a call, taken without interruption, are `IncrementBy` as the node runs it. -/
theorem append_getNodeCount_increment [Rounding] (n : CounterNode ι V) (key nodeID : GoString)
    (delta : ℤ) (wall bornAt : Int64) :
    let m := (n.increment key nodeID delta).getNodeCount key nodeID
    let call := n.replica.incrementBy nodeID wall bornAt key delta
    m.append key nodeID (m.replica.store.getNodeCount key nodeID) wall bornAt =
      { n with replica := call.1, log := appendEntry n.log call.2.1 } := by
  simp only [increment, getNodeCount, append, List.erase_cons_head, Replica.incrementBy]

/-- What the calls and entries of a node carry: never more than the count they speak of, and unless
the node's own count is zero, some call or entry carries it or is about to read it. -/
structure Carries (nodeID : ι → GoString) (i : ι) (n : CounterNode ι V) : Prop where
  logged : ∀ e ∈ n.log, e.op = .incr ∧ e.nodeID = nodeID i ∧ e.delta ≤ n.count e.key (nodeID i)
  readBack : ∀ key v, .read key v ∈ n.pending → v ≤ n.count key (nodeID i)
  carried : ∀ key, n.count key (nodeID i) = 0 ∨ .added key ∈ n.pending ∨
    .read key (n.count key (nodeID i)) ∈ n.pending ∨
    ∃ e ∈ n.log, e.key = key ∧ e.delta = n.count key (nodeID i)
  received : ∀ p ∈ n.received, p.2.delta ≤ n.count p.2.key (nodeID p.1)

section Steps

variable [DecidableEq ι] {nodeID : ι → GoString} (hinj : Function.Injective nodeID)
  (hcolon : ∀ i, colon ∉ nodeID i) {i : ι} {n : CounterNode ι V}

include hinj hcolon

theorem count_increment (n : CounterNode ι V) (key : GoString) (i : ι) (delta : ℤ)
    (key' : GoString) (j : ι) : (n.increment key (nodeID i) delta).count key' (nodeID j) =
      n.count key' (nodeID j) + if key' = key ∧ j = i then (delta : ℚ) else 0 := by
  refine (getNodeCount_increment _ _ _ _ _ _).trans ?_
  simp only [countSlot_nodeID hinj hcolon]
  rfl

theorem count_deliver (mp : Msgpack V) (n : CounterNode ι V) (j : ι) {e : LogEntry} {wall : Int64}
    (hop : e.op = .incr) (hid : e.nodeID = nodeID j)
    (hacc : n.replica.hlc.smash wall e.ts = false) (key : GoString) (j' : ι) :
    (n.deliver mp j e wall).count key (nodeID j') = n.count key (nodeID j') +
      if key = e.key ∧ j' = j then
        max (n.count e.key (nodeID j)) e.delta - n.count e.key (nodeID j) else 0 := by
  refine (getNodeCount_applyRemoteEntry mp hop hacc key (nodeID j')).trans ?_
  simp only [hid, countSlot_nodeID hinj hcolon]
  by_cases hkey : key = e.key ∧ j' = j
  · obtain ⟨rfl, rfl⟩ := hkey
    simp only [and_self, if_true, add_sub_cancel]
    rfl
  · simp only [if_neg hkey, add_zero]
    rfl

theorem Carries.increment (h : n.Carries nodeID i) (key : GoString) {delta : ℤ}
    (hdelta : 0 ≤ delta) : (n.increment key (nodeID i) delta).Carries nodeID i := by
  have hcount := count_increment hinj hcolon n key i delta
  have hle (key' : GoString) (j : ι) :
      n.count key' (nodeID j) ≤ (n.increment key (nodeID i) delta).count key' (nodeID j) := by
    have hcast : (0 : ℚ) ≤ delta := Int.cast_nonneg hdelta
    rw [hcount]
    split_ifs <;> linarith
  refine ⟨?_, ?_, ?_, ?_⟩
  · intro e he
    obtain ⟨hop, hid, hlogged⟩ := h.logged e he
    exact ⟨hop, hid, hlogged.trans (hle e.key i)⟩
  · intro key' v hv
    have hv : PendingIncr.read key' v ∈ n.pending :=
      (List.mem_cons.1 hv).resolve_left (fun heq => by cases heq)
    exact (h.readBack key' v hv).trans (hle key' i)
  · intro key'
    by_cases hkey : key' = key
    · subst key'
      exact Or.inr (Or.inl List.mem_cons_self)
    · rw [hcount, if_neg (fun h => hkey h.1), add_zero]
      exact (h.carried key').imp_right
        (Or.imp (List.mem_cons_of_mem _) (Or.imp_left (List.mem_cons_of_mem _)))
  · intro p hp
    exact (h.received p hp).trans (hle p.2.key p.1)

theorem Carries.deliver (h : n.Carries nodeID i) (mp : Msgpack V) {j : ι} (hij : i ≠ j)
    {e : LogEntry} (wall : Int64) (hop : e.op = .incr) (hid : e.nodeID = nodeID j) :
    (n.deliver mp j e wall).Carries nodeID i := by
  cases hacc : n.replica.hlc.smash wall e.ts with
  | true =>
      have hsame : n.deliver mp j e wall = n := by
        simp only [CounterNode.deliver, applyRemoteEntry_of_smash hacc, hacc, if_true]
      rwa [hsame]
  | false =>
      have hcount := count_deliver hinj hcolon mp n j hop hid hacc
      have hown (key : GoString) :
          (n.deliver mp j e wall).count key (nodeID i) = n.count key (nodeID i) := by
        rw [hcount, if_neg (fun h => hij h.2), add_zero]
      have hle (key : GoString) (j' : ι) :
          n.count key (nodeID j') ≤ (n.deliver mp j e wall).count key (nodeID j') := by
        have hmax := le_max_left (n.count e.key (nodeID j)) e.delta
        rw [hcount]
        split_ifs <;> linarith
      refine ⟨?_, ?_, ?_, ?_⟩
      · intro e' he'
        rw [hown]
        exact h.logged e' he'
      · intro key v hv
        rw [hown]
        exact h.readBack key v hv
      · intro key
        rw [hown]
        exact h.carried key
      · intro p hp
        simp only [CounterNode.deliver, hacc] at hp
        rcases List.mem_cons.1 hp with rfl | hp
        · rw [hcount, if_pos ⟨rfl, rfl⟩, add_sub_cancel]
          exact le_max_right _ _
        · exact (h.received p hp).trans (hle p.2.key p.1)

end Steps

theorem Carries.getNodeCount {nodeID : ι → GoString} {i : ι} {n : CounterNode ι V}
    (h : n.Carries nodeID i) (key : GoString) :
    (n.getNodeCount key (nodeID i)).Carries nodeID i := by
  refine ⟨h.logged, ?_, ?_, h.received⟩
  · intro key' v hv
    rcases List.mem_cons.1 hv with heq | hv
    · cases heq
      exact le_rfl
    · exact h.readBack key' v (List.mem_of_mem_erase hv)
  · intro key'
    by_cases hkey : key' = key
    · subst key'
      exact Or.inr (Or.inr (Or.inl List.mem_cons_self))
    · have hadded : PendingIncr.added key' ≠ .added key := fun h => hkey (PendingIncr.added.inj h)
      refine (h.carried key').imp_right (Or.imp ?_ (Or.imp_left ?_))
      · intro hp
        exact List.mem_cons_of_mem _ ((List.mem_erase_of_ne hadded).2 hp)
      · intro hp
        exact List.mem_cons_of_mem _ ((List.mem_erase_of_ne (fun h => by cases h)).2 hp)

theorem Carries.append {nodeID : ι → GoString} {i : ι} {n : CounterNode ι V}
    (h : n.Carries nodeID i) {key : GoString} {nodeVal : ℚ}
    (hread : .read key nodeVal ∈ n.pending) (wall bornAt : Int64) :
    (n.append key (nodeID i) nodeVal wall bornAt).Carries nodeID i := by
  refine ⟨?_, ?_, ?_, h.received⟩
  · intro e he
    rcases List.mem_append.1 he with he | he
    · exact h.logged e he
    · rw [List.mem_singleton.1 he]
      exact ⟨rfl, rfl, h.readBack key nodeVal hread⟩
  · intro key' v hv
    exact h.readBack key' v (List.mem_of_mem_erase hv)
  · intro key'
    have hentry : ∃ e ∈ (n.append key (nodeID i) nodeVal wall bornAt).log,
        e.key = key ∧ e.delta = nodeVal :=
      ⟨_, List.mem_append_right _ (List.mem_singleton_self _), rfl, rfl⟩
    rcases h.carried key' with hzero | hadded | hval | ⟨e, he, hkey, hdelta⟩
    · exact Or.inl hzero
    · exact Or.inr (Or.inl ((List.mem_erase_of_ne (fun h => by cases h)).2 hadded))
    · by_cases hsame : PendingIncr.read key' (n.count key' (nodeID i)) = .read key nodeVal
      · obtain ⟨rfl, hval⟩ := PendingIncr.read.inj hsame
        obtain ⟨e, he, hkey, hdelta⟩ := hentry
        exact Or.inr (Or.inr (Or.inr ⟨e, he, hkey, hdelta.trans hval.symm⟩))
      · exact Or.inr (Or.inr (Or.inl ((List.mem_erase_of_ne hsame).2 hval)))
    · exact Or.inr (Or.inr (Or.inr ⟨e, List.mem_append_left _ he, hkey, hdelta⟩))

end CounterNode

namespace CounterCluster

variable {ι V : Type*}

def initial (hlc : ι → HLC) : CounterCluster ι V :=
  ⟨fun i => ⟨⟨Store.newStore, hlc i⟩, [], [], []⟩, []⟩

def issuedTotal (s : CounterCluster ι V) (key : GoString) : ℤ :=
  (s.issued.map (fun c => if c.2.1 = key then c.2.2 else 0)).sum

def count (nodeID : ι → GoString) (s : CounterCluster ι V) (i : ι) (key : GoString) (j : ι) : ℚ :=
  (s.nodes i).count key (nodeID j)

def aggregate (s : CounterCluster ι V) (i : ι) (key : GoString) : ℚ :=
  (s.nodes i).replica.store.getAggregateCount key

variable [DecidableEq ι]

def issuedBy (s : CounterCluster ι V) (i : ι) (key : GoString) : ℤ :=
  (s.issued.map (fun c => if c.1 = i ∧ c.2.1 = key then c.2.2 else 0)).sum

def step [Rounding] (nodeID : ι → GoString) (mp : Msgpack V) (s : CounterCluster ι V) :
    CounterAction ι → Option (CounterCluster ι V)
  | .increment i key delta =>
      some { s.setNode i ((s.nodes i).increment key (nodeID i) delta) with
        issued := (i, key, delta) :: s.issued }
  | .getNodeCount i key =>
      if .added key ∈ (s.nodes i).pending then
        some (s.setNode i ((s.nodes i).getNodeCount key (nodeID i)))
      else none
  | .append i key nodeVal wall bornAt =>
      if .read key nodeVal ∈ (s.nodes i).pending then
        some (s.setNode i ((s.nodes i).append key (nodeID i) nodeVal wall bornAt))
      else none
  | .deliver i j e wall =>
      if i ≠ j ∧ e ∈ (s.nodes j).log then
        some (s.setNode i ((s.nodes i).deliver mp j e wall))
      else none

variable {nodeID : ι → GoString} {mp : Msgpack V} {s t : CounterCluster ι V}

theorem issuedBy_of_issued_eq {i : ι} {key : GoString} {delta : ℤ}
    (ht : t.issued = (i, key, delta) :: s.issued) (i' : ι) (key' : GoString) :
    issuedBy t i' key' = issuedBy s i' key' + if i' = i ∧ key' = key then delta else 0 := by
  unfold issuedBy
  rw [ht, List.map_cons, List.sum_cons, add_comm]
  simp only [eq_comm]

/-- The partial count that node `i` holds for node `j` grows by `x`, and nothing else changes. -/
structure Bump (nodeID : ι → GoString) (s t : CounterCluster ι V) (i : ι) (key : GoString) (j : ι)
    (x : ℚ) : Prop where
  nonneg : 0 ≤ x
  count_eq : ∀ i' key' j', count nodeID t i' key' j' =
    count nodeID s i' key' j' + if i' = i ∧ key' = key ∧ j' = j then x else 0
  aggregate_eq : ∀ i' key', aggregate t i' key' =
    aggregate s i' key' + if i' = i ∧ key' = key then x else 0

theorem Bump.count_le {i : ι} {key : GoString} {j : ι} {x : ℚ} (h : Bump nodeID s t i key j x)
    (i' : ι) (key' : GoString) (j' : ι) :
    count nodeID s i' key' j' ≤ count nodeID t i' key' j' := by
  have hx := h.nonneg
  rw [h.count_eq]
  split_ifs <;> linarith

theorem bump_setNode {n : CounterNode ι V} {i : ι} {key : GoString} {j : ι} {x : ℚ} (hx : 0 ≤ x)
    (hcount : ∀ key' j', n.count key' (nodeID j') =
      (s.nodes i).count key' (nodeID j') + if key' = key ∧ j' = j then x else 0)
    (hagg : ∀ key', n.replica.store.getAggregateCount key' =
      (s.nodes i).replica.store.getAggregateCount key' + if key' = key then x else 0)
    (ht : t.nodes = (s.setNode i n).nodes) : Bump nodeID s t i key j x := by
  refine ⟨hx, ?_, ?_⟩
  · intro i' key' j'
    rw [count, ht, Cluster.nodes_setNode]
    by_cases hi : i' = i
    · subst i'
      simp only [if_true, hcount, true_and, count]
    · simp only [hi, false_and, if_false, add_zero, count]
  · intro i' key'
    rw [aggregate, ht, Cluster.nodes_setNode]
    by_cases hi : i' = i
    · subst i'
      simp only [if_true, hagg, true_and, aggregate]
    · simp only [hi, false_and, if_false, add_zero, aggregate]

theorem bump_of_store_eq {i : ι} {n : CounterNode ι V}
    (hstore : n.replica.store = (s.nodes i).replica.store) :
    Bump nodeID s (s.setNode i n) i [] i 0 := by
  apply bump_setNode le_rfl _ _ rfl
  · intro key' j'
    rw [ite_self, add_zero, CounterNode.count, hstore, CounterNode.count]
  · intro key'
    rw [ite_self, add_zero, hstore]

section Bumps

variable (hinj : Function.Injective nodeID) (hcolon : ∀ i, colon ∉ nodeID i)

include hinj hcolon

theorem bump_increment (i : ι) (key : GoString) {delta : ℤ} (hdelta : 0 ≤ delta) :
    Bump nodeID s { s.setNode i ((s.nodes i).increment key (nodeID i) delta) with
      issued := (i, key, delta) :: s.issued } i key i delta :=
  bump_setNode (Int.cast_nonneg hdelta)
    (CounterNode.count_increment hinj hcolon (s.nodes i) key i delta)
    (fun key' => getAggregateCount_increment _ key (nodeID i) key' delta) rfl

variable (mp) in
theorem bump_deliver {i j : ι} {e : LogEntry} {wall : Int64} (hop : e.op = .incr)
    (hid : e.nodeID = nodeID j) (hacc : (s.nodes i).replica.hlc.smash wall e.ts = false) :
    Bump nodeID s (s.setNode i ((s.nodes i).deliver mp j e wall)) i e.key j
      (max (count nodeID s i e.key j) e.delta - count nodeID s i e.key j) := by
  refine bump_setNode (sub_nonneg.2 (le_max_left _ _))
    (CounterNode.count_deliver hinj hcolon mp (s.nodes i) j hop hid hacc) ?_ rfl
  intro key'
  refine (getAggregateCount_applyRemoteEntry mp hop hacc key').trans ?_
  rw [hid]
  rfl

end Bumps

section Ledger

variable [Fintype ι]

/-- What the counts of a reachable state satisfy: a node's own count is what was issued on it, no
copy runs ahead of it, and every aggregate is the sum of the counts beside it. -/
structure Ledger (nodeID : ι → GoString) (s : CounterCluster ι V) : Prop where
  own : ∀ i key, count nodeID s i key i = issuedBy s i key
  nonneg : ∀ i key j, 0 ≤ count nodeID s i key j
  bounded : ∀ i key j, count nodeID s i key j ≤ count nodeID s j key j
  aggregate_eq : ∀ i key, aggregate s i key = ∑ j, count nodeID s i key j

theorem initial_ledger (hlc : ι → HLC) : Ledger nodeID (initial hlc : CounterCluster ι V) := by
  refine ⟨fun _ _ => rfl, fun _ _ _ => le_rfl, fun _ _ _ => le_rfl, ?_⟩
  intro i key
  exact (Finset.sum_eq_zero (fun _ _ => rfl)).symm

theorem Ledger.bump (h : Ledger nodeID s) {i : ι} {key : GoString} {j : ι} {x : ℚ}
    (hb : Bump nodeID s t i key j x)
    (hissued : ∀ i' key', (issuedBy t i' key' : ℚ) =
      issuedBy s i' key' + if i' = i ∧ key' = key ∧ i' = j then x else 0)
    (hle : count nodeID t i key j ≤ count nodeID t j key j) : Ledger nodeID t := by
  refine ⟨?_, ?_, ?_, ?_⟩
  · intro i' key'
    rw [hb.count_eq, h.own, hissued]
  · intro i' key' j'
    exact (h.nonneg i' key' j').trans (hb.count_le i' key' j')
  · intro i' key' j'
    by_cases hsame : i' = i ∧ key' = key ∧ j' = j
    · obtain ⟨rfl, rfl, rfl⟩ := hsame
      exact hle
    · have heq := hb.count_eq i' key' j'
      rw [if_neg hsame, add_zero] at heq
      rw [heq]
      exact (h.bounded i' key' j').trans (hb.count_le j' key' j')
  · intro i' key'
    rw [hb.aggregate_eq, h.aggregate_eq]
    simp only [hb.count_eq, Finset.sum_add_distrib]
    congr 1
    by_cases hsame : i' = i ∧ key' = key
    · obtain ⟨rfl, rfl⟩ := hsame
      simp
    · rw [if_neg hsame]
      symm
      apply Finset.sum_eq_zero
      intro j' _
      exact if_neg (fun h => hsame ⟨h.1, h.2.1⟩)

theorem Ledger.setNode_of_store_eq (h : Ledger nodeID s) {i : ι} {n : CounterNode ι V}
    (hstore : n.replica.store = (s.nodes i).replica.store) : Ledger nodeID (s.setNode i n) := by
  refine h.bump (bump_of_store_eq hstore) ?_ le_rfl
  intro i' key'
  rw [ite_self, add_zero]
  rfl

theorem Ledger.increment (h : Ledger nodeID s) (hinj : Function.Injective nodeID)
    (hcolon : ∀ i, colon ∉ nodeID i) (i : ι) (key : GoString) {delta : ℤ} (hdelta : 0 ≤ delta) :
    Ledger nodeID { s.setNode i ((s.nodes i).increment key (nodeID i) delta) with
      issued := (i, key, delta) :: s.issued } := by
  refine h.bump (bump_increment hinj hcolon i key hdelta) ?_ le_rfl
  intro i' key'
  rw [issuedBy_of_issued_eq rfl]
  by_cases hsame : i' = i ∧ key' = key
  · obtain ⟨rfl, rfl⟩ := hsame
    simp only [and_self, if_true, Int.cast_add]
  · have hsame' : ¬ (i' = i ∧ key' = key ∧ i' = i) := fun h => hsame ⟨h.1, h.2.1⟩
    rw [if_neg hsame, if_neg hsame', add_zero, add_zero]

theorem Ledger.deliver (h : Ledger nodeID s) (hinj : Function.Injective nodeID)
    (hcolon : ∀ i, colon ∉ nodeID i) {i j : ι} (hij : i ≠ j) {e : LogEntry} (wall : Int64)
    (hop : e.op = .incr) (hid : e.nodeID = nodeID j)
    (hdelta : e.delta ≤ count nodeID s j e.key j) :
    Ledger nodeID (s.setNode i ((s.nodes i).deliver mp j e wall)) := by
  cases hacc : (s.nodes i).replica.hlc.smash wall e.ts with
  | true =>
      apply h.setNode_of_store_eq
      rw [CounterNode.deliver, applyRemoteEntry_of_smash hacc]
  | false =>
      have hb := bump_deliver mp hinj hcolon hop hid hacc
      refine h.bump hb ?_ ?_
      · intro i' key'
        have hne : ¬ (i' = i ∧ key' = e.key ∧ i' = j) := fun h => hij (h.1.symm.trans h.2.2)
        rw [if_neg hne, add_zero]
        rfl
      · have hne : ¬ (j = i ∧ e.key = e.key ∧ j = j) := fun h => hij h.1.symm
        rw [hb.count_eq, hb.count_eq, if_pos ⟨rfl, rfl, rfl⟩, if_neg hne, add_sub_cancel, add_zero]
        exact max_le (h.bounded i e.key j) hdelta

end Ledger

section Convergence

variable [Fintype ι]

structure Converging (nodeID : ι → GoString) (s : CounterCluster ι V) : Prop where
  ledger : Ledger nodeID s
  carries : ∀ i, (s.nodes i).Carries nodeID i

theorem initial_converging (hlc : ι → HLC) :
    Converging nodeID (initial hlc : CounterCluster ι V) := by
  refine ⟨initial_ledger hlc, fun i => ⟨?_, ?_, fun _ => Or.inl rfl, ?_⟩⟩
  · intro e he
    cases he
  · intro key v hv
    cases hv
  · intro p hp
    cases hp

theorem step_converging (hinj : Function.Injective nodeID) (hcolon : ∀ i, colon ∉ nodeID i)
    {a : CounterAction ι} (h : Converging nodeID s) (ha : a.NonNegative)
    (hstep : step nodeID mp s a = some t) : Converging nodeID t := by
  cases a with
  | increment i key delta =>
      simp only [step, Option.some.injEq] at hstep
      subst t
      exact ⟨h.ledger.increment hinj hcolon i key ha,
        Cluster.forall_setNode h.carries ((h.carries i).increment hinj hcolon key ha)⟩
  | getNodeCount i key =>
      simp only [step] at hstep
      split_ifs at hstep with hadded
      obtain rfl := Option.some.inj hstep
      exact ⟨h.ledger.setNode_of_store_eq rfl,
        Cluster.forall_setNode h.carries ((h.carries i).getNodeCount key)⟩
  | append i key nodeVal wall bornAt =>
      simp only [step] at hstep
      split_ifs at hstep with hread
      obtain rfl := Option.some.inj hstep
      exact ⟨h.ledger.setNode_of_store_eq rfl,
        Cluster.forall_setNode h.carries ((h.carries i).append hread wall bornAt)⟩
  | deliver i j e wall =>
      simp only [step] at hstep
      split_ifs at hstep with hsent
      obtain rfl := Option.some.inj hstep
      obtain ⟨hij, he⟩ := hsent
      obtain ⟨hop, hid, hdelta⟩ := (h.carries j).logged e he
      exact ⟨h.ledger.deliver hinj hcolon hij wall hop hid hdelta,
        Cluster.forall_setNode h.carries ((h.carries i).deliver hinj hcolon mp hij wall hop hid)⟩

theorem run_converging (hinj : Function.Injective nodeID) (hcolon : ∀ i, colon ∉ nodeID i)
    (hlc : ι → HLC) {as : List (CounterAction ι)} (hpos : ∀ a ∈ as, a.NonNegative)
    (hrun : StepSystem.run (step nodeID mp) (initial hlc) as = some s) : Converging nodeID s :=
  StepSystem.run_invariant_along (c := fun _ a => a.NonNegative)
    (fun _ _ _ h ha hstep => step_converging hinj hcolon h ha hstep)
    (initial_converging hlc) (StepSystem.along_of_forall_mem hpos _) hrun

theorem sum_issuedBy (s : CounterCluster ι V) (key : GoString) :
    ∑ i, issuedBy s i key = issuedTotal s key := by
  unfold issuedBy issuedTotal
  induction s.issued with
  | nil => simp
  | cons c issued ih =>
      simp only [List.map_cons, List.sum_cons, Finset.sum_add_distrib, ih]
      congr 1
      by_cases hkey : c.2.1 = key
      · simp [hkey]
      · simp [hkey]

/-- Once the calls of a node are done, a copy that has received its greatest entry is exact. -/
theorem Converging.count_eq (h : Converging nodeID s) {i j : ι} {key : GoString}
    (hdone : (s.nodes j).pending = [])
    (hreach : ∀ e ∈ (s.nodes j).log, e.key = key →
      ∃ p ∈ (s.nodes i).received, p.1 = j ∧ p.2.key = key ∧ e.delta ≤ p.2.delta) :
    count nodeID s i key j = issuedBy s j key := by
  rw [← h.ledger.own]
  apply le_antisymm (h.ledger.bounded i key j)
  rcases (h.carries j).carried key with hzero | hadded | hread | ⟨e, he, hkey, hdelta⟩
  · exact hzero.trans_le (h.ledger.nonneg i key j)
  · rw [hdone] at hadded
    cases hadded
  · rw [hdone] at hread
    cases hread
  · obtain ⟨p, hp, rfl, rfl, hle⟩ := hreach e he hkey
    exact hdelta.symm.trans_le (hle.trans ((h.carries i).received p hp))

/-- Convergence of counters for deltas that are not negative: when all calls have finished and each
node's greatest entry for the key has reached every other node, every aggregate is the sum of all
deltas issued for the key. -/
theorem aggregate_eq_issuedTotal (hinj : Function.Injective nodeID)
    (hcolon : ∀ i, colon ∉ nodeID i) (mp : Msgpack V) (hlc : ι → HLC)
    (as : List (CounterAction ι)) (hpos : ∀ a ∈ as, a.NonNegative)
    (hrun : StepSystem.run (step nodeID mp) (initial hlc) as = some s)
    (hdone : ∀ i, (s.nodes i).pending = []) (key : GoString)
    (hreach : ∀ i j, i ≠ j → ∀ e ∈ (s.nodes j).log, e.key = key →
      ∃ p ∈ (s.nodes i).received, p.1 = j ∧ p.2.key = key ∧ e.delta ≤ p.2.delta) (i : ι) :
    (s.nodes i).replica.store.getAggregateCount key = issuedTotal s key := by
  have h := run_converging hinj hcolon hlc hpos hrun
  refine (h.ledger.aggregate_eq i key).trans ?_
  rw [← sum_issuedBy, Int.cast_sum]
  apply Finset.sum_congr rfl
  intro j _
  by_cases hij : i = j
  · subst j
    exact h.ledger.own i key
  · exact h.count_eq (hdone j) (hreach i j hij)

def twoNodeRun : List (CounterAction Bool) :=
  [.increment false (bytes "k") 2, .increment true (bytes "k") 1, .increment false (bytes "k") 3,
    .getNodeCount false (bytes "k"), .getNodeCount true (bytes "k"),
    .append false (bytes "k") 5 10 0, .getNodeCount false (bytes "k"),
    .append true (bytes "k") 1 11 0, .append false (bytes "k") 5 12 0,
    .deliver true false { incrLogEntry ⟨12, 0⟩ 0 (bytes "k") (bytes "a") 5 with seq := 2 } 13,
    .deliver false true { incrLogEntry ⟨11, 0⟩ 0 (bytes "k") (bytes "b") 1 with seq := 1 } 14]

theorem twoNodeRun_isSome : (StepSystem.run (step twoNodeIDs byteMsgpack)
    (initial (fun _ => newHLC 9)) twoNodeRun).isSome = true := by
  decide +kernel

theorem aggregate_eq_issuedTotal_two :
    ∃ s, StepSystem.run (step twoNodeIDs byteMsgpack) (initial (fun _ => newHLC 9)) twoNodeRun =
        some s ∧
      ∀ i, (s.nodes i).replica.store.getAggregateCount (bytes "k") = 6 := by
  refine ⟨_, (Option.some_get twoNodeRun_isSome).symm, fun i => ?_⟩
  have hkey := aggregate_eq_issuedTotal (by decide) (by decide) byteMsgpack (fun _ => newHLC 9)
    twoNodeRun (by decide) (Option.some_get twoNodeRun_isSome).symm (by decide +kernel) (bytes "k")
    (by decide +kernel) i
  refine hkey.trans ?_
  decide +kernel

end Convergence

end CounterCluster
end Capacitor
