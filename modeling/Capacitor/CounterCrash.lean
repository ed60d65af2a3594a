import Capacitor.CounterColumns
import Capacitor.CountStore
import Capacitor.ExactSums

/-!
# Counters after a crash

A node that crashes comes back with the counts of its last committed flush and an empty log, while
its peers keep the totals they had received from it. A peer merges the totals that the node logs
from then on by taking the greater one, so what the node had lost hides as much of what it counts
anew. No sum of counts is rounded in the runs considered, nor when the node loads its counts.
-/

namespace Capacitor

open Store CounterCluster

variable {ι V : Type*}

section Exact

variable [Rounding]

/-- No sum that the step forms is rounded. -/
def CounterAction.Exact (nodeID : ι → GoString) (s : CounterCluster ι V) : CounterAction ι → Prop
  | .increment i key delta => Rounding.Exact (delta : ℚ) ∧
      (s.nodes i).replica.store.AddsExactly key (counterKey key (nodeID i)) key delta
  | .deliver i _ e _ => e.Exact (s.nodes i).replica.store
  | .getNodeCount _ _ | .append _ _ _ _ _ => True

instance (nodeID : ι → GoString) (s : CounterCluster ι V) :
    (a : CounterAction ι) → Decidable (a.Exact nodeID s)
  | .increment _ _ _ => inferInstanceAs (Decidable (_ ∧ _))
  | .deliver i _ e _ => inferInstanceAs (Decidable (e.Exact (s.nodes i).replica.store))
  | .getNodeCount _ _ | .append _ _ _ _ _ => isTrue trivial

theorem CounterCluster.step_of_exact [DecidableEq ι] {nodeID : ι → GoString} {mp : Msgpack V}
    {s : CounterCluster ι V} {a : CounterAction ι} (h : a.Exact nodeID s) :
    s.step nodeID mp a = @CounterCluster.step ι V _ .unrounded nodeID mp s a := by
  cases a with
  | increment i key delta =>
      have hnode : (s.nodes i).increment key (nodeID i) delta =
          @CounterNode.increment ι V .unrounded (s.nodes i) key (nodeID i) delta := by
        unfold CounterNode.increment
        rw [h.1, increment_of_exact h.2]
        rfl
      simp only [CounterCluster.step, hnode]
  | deliver i j e wall =>
      have hnode : (s.nodes i).deliver mp j e wall =
          @CounterNode.deliver ι V .unrounded mp (s.nodes i) j e wall := by
        unfold CounterNode.deliver
        rw [applyRemoteEntry_of_exact mp wall h]
      simp only [CounterCluster.step, hnode]
  | getNodeCount i key => rfl
  | append i key nodeVal wall bornAt => rfl

end Exact

/-- A cluster whose nodes flush their stores to databases. -/
structure DurableCluster (ι V : Type*) where
  cluster : CounterCluster ι V
  db : ι → Database
  batch : ι → List (WriteBatch.Write GoString Record)

inductive DurableAction (ι : Type*) where
  | call (a : CounterAction ι)
  | flushShard (i : ι) (shard : Fin numShards) (order : List GoString) (now : GoString → Int64)
  | commit (i : ι)

namespace DurableCluster

def initial (hlc : ι → HLC) : DurableCluster ι V :=
  ⟨CounterCluster.initial hlc, fun _ => ∅, fun _ => []⟩

def store (s : DurableCluster ι V) (i : ι) : Store V := (s.cluster.nodes i).replica.store

def disk (s : DurableCluster ι V) (i : ι) : Disk V := ⟨s.store i, s.db i, s.batch i⟩

variable [DecidableEq ι]

def setDisk (s : DurableCluster ι V) (i : ι) (d : Disk V) : DurableCluster ι V where
  cluster := s.cluster.setNode i { s.cluster.nodes i with
    replica := { (s.cluster.nodes i).replica with store := d.store } }
  db := Function.update s.db i d.db
  batch := Function.update s.batch i d.batch

def step [Rounding] (c : DiskCodec V) (nodeID : ι → GoString) (mp : Msgpack V)
    (s : DurableCluster ι V) :
    DurableAction ι → Option (DurableCluster ι V)
  | .call a => (s.cluster.step nodeID mp a).map (fun cluster => { s with cluster := cluster })
  | .flushShard i shard order now => some (s.setDisk i ((s.disk i).flushShard c shard order now))
  | .commit i => some (s.setDisk i (s.disk i).commit)

/-- The node starts again from its database, with an empty log. The calls issued on it are counted
anew, and an entry counts as received when the restored count covers it. -/
def crash [Rounding] (c : DiskCodec V) (nodeID : ι → GoString) (s : DurableCluster ι V) (a : ι)
    (now : GoString → Int64) (items : List (GoString × Record)) (start : Int64) :
    Option (DurableCluster ι V) :=
  (Store.load c now items).map (fun loaded =>
    { cluster := { s.cluster.setNode a ⟨⟨loaded, newHLC start⟩, [], [],
        (s.cluster.nodes a).received.filter
          (fun p => p.2.delta ≤ c.flushed (s.db a) p.2.key (nodeID p.1))⟩ with
        issued := s.cluster.issued.filter (fun call => call.1 ≠ a) }
      db := s.db
      batch := Function.update s.batch a [] })

variable (c : DiskCodec V) (nodeID : ι → GoString)

/-- Deltas are not negative and keys have no colon. A flush copies the marked keys of a shard, whose
counts survive the conversion to bytes. -/
def Sound (s : DurableCluster ι V) : DurableAction ι → Prop
  | .call (.increment _ key delta) => 0 ≤ delta ∧ colon ∉ key
  | .call _ => True
  | .flushShard i shard order _ => (s.disk i).Ranges shard order ∧
      ∀ k v, ((s.store i).shards shard).counts k = some v →
        c.float64FromBytes (c.float64ToBytes v) = v
  | .commit _ => True

/-- No sum that the step forms is rounded. -/
def Exact [Rounding] (s : DurableCluster ι V) : DurableAction ι → Prop
  | .call a => a.Exact nodeID s.cluster
  | .flushShard _ _ _ _ | .commit _ => True

instance [Rounding] (s : DurableCluster ι V) : (a : DurableAction ι) → Decidable (Exact nodeID s a)
  | .call a => inferInstanceAs (Decidable (a.Exact nodeID s.cluster))
  | .flushShard _ _ _ _ | .commit _ => isTrue trivial

/-- What holds between crashes. -/
structure Durable (base : ι → GoString → ℚ) (held : ι → ι → GoString → ℚ)
    (s : DurableCluster ι V) : Prop where
  columns : ∀ j, Column nodeID (base j) (held j) s.cluster j
  stores : ∀ i, CountStore nodeID (s.store i)
  nonneg : ∀ i key j, 0 ≤ (s.store i).getNodeCount key (nodeID j)
  keys : ∀ call ∈ s.cluster.issued, colon ∉ call.2.1
  batch : ∀ i k r, (k, some r) ∈ s.batch i → Reflects c nodeID (s.store i) k r
  db : ∀ i k r, (s.db i)[k]? = some r → Reflects c nodeID (s.store i) k r

variable {c nodeID}

theorem initial_durable (hlc : ι → HLC) :
    Durable c nodeID (fun _ _ => 0) (fun _ _ _ => 0) (initial hlc : DurableCluster ι V) where
  columns j := by
    have hcalled (key) : ¬ (CounterCluster.initial hlc : CounterCluster ι V).Called j key := by
      rintro ⟨delta, hdelta⟩
      cases hdelta
    refine ⟨fun _ => (zero_add _).symm, fun _ _ _ => le_rfl, fun _ _ _ => (max_self _).ge,
      fun _ _ _ _ => rfl, ?_, ?_, ?_, fun key hkey => absurd hkey (hcalled key), ?_⟩
    · intro e he
      cases he
    · intro p hp
      cases hp
    · intro key v hv
      cases hv
    · intro i p hp
      cases hp
  stores _ := CountStore.newStore
  nonneg _ _ _ := le_rfl
  keys call hcall := by cases hcall
  batch _ _ _ h := by cases h
  db _ _ _ h := by simp [initial] at h

variable {base : ι → GoString → ℚ} {held : ι → ι → GoString → ℚ} {s t : DurableCluster ι V}
  {mp : Msgpack V}

theorem exists_ops (h : Durable c nodeID base held s) {a : CounterAction ι}
    (ha : Sound c s (.call a)) {cluster : CounterCluster ι V}
    (hstep : s.cluster.step nodeID mp a = some cluster) (hcolon : ∀ i, colon ∉ nodeID i) (i : ι) :
    ∃ os : List (StoreOp V), (∀ o ∈ os, o.Counted nodeID) ∧
      (cluster.nodes i).replica.store = os.foldl StoreOp.apply (s.store i) := by
  have hself : ∃ os : List (StoreOp V), (∀ o ∈ os, o.Counted nodeID) ∧
      s.store i = os.foldl StoreOp.apply (s.store i) := ⟨[], List.forall_mem_nil _, rfl⟩
  cases a with
  | increment i' key delta =>
      simp only [CounterCluster.step, Option.some.injEq] at hstep
      subst hstep
      rw [StepSystem.Cluster.nodes_setNode]
      split_ifs with hi
      · subst hi
        refine ⟨[.increment key (nodeID i) delta], ?_, rfl⟩
        intro o ho
        rw [List.mem_singleton.1 ho]
        exact ⟨ha.2, ⟨i, rfl⟩, Int.cast_nonneg ha.1⟩
      · exact hself
  | getNodeCount i' key =>
      simp only [CounterCluster.step] at hstep
      split_ifs at hstep
      obtain rfl := Option.some.inj hstep
      rw [StepSystem.Cluster.nodes_setNode]
      split_ifs with hi
      · subst hi
        exact hself
      · exact hself
  | append i' key nodeVal wall bornAt =>
      simp only [CounterCluster.step] at hstep
      split_ifs at hstep
      obtain rfl := Option.some.inj hstep
      rw [StepSystem.Cluster.nodes_setNode]
      split_ifs with hi
      · subst hi
        exact hself
      · exact hself
  | deliver i' j e wall =>
      simp only [CounterCluster.step] at hstep
      split_ifs at hstep with hsent
      obtain rfl := Option.some.inj hstep
      obtain ⟨hop, hid, ⟨delta, hcalled⟩, -⟩ := (h.columns j).logged e hsent.2
      rw [StepSystem.Cluster.nodes_setNode]
      split_ifs with hi
      · subst hi
        cases hacc : (s.cluster.nodes i).replica.hlc.smash wall e.ts with
        | true =>
            rw [CounterNode.deliver, applyRemoteEntry_of_smash hacc]
            exact hself
        | false =>
            refine ⟨[.setNodeCount e.key e.nodeID e.delta, .updatePeerSeq e.nodeID e.seq], ?_, ?_⟩
            · intro o ho
              rcases List.mem_cons.1 ho with rfl | ho
              · exact ⟨h.keys _ hcalled, j, hid⟩
              · rw [List.mem_singleton.1 ho]
                exact hid ▸ hcolon j
            · rw [CounterNode.deliver, applyRemoteEntry_of_accept hacc, applyOp, hop]
              rfl
      · exact hself

theorem Durable.call (h : Durable c nodeID base held s) (hinj : Function.Injective nodeID)
    (hcolon : ∀ i, colon ∉ nodeID i) {a : CounterAction ι} (ha : Sound c s (.call a))
    {cluster : CounterCluster ι V} (hstep : s.cluster.step nodeID mp a = some cluster) :
    Durable c nodeID base held { s with cluster := cluster } := by
  have hnonneg : a.NonNegative := by
    cases a with
    | increment i key delta => exact ha.1
    | _ => trivial
  have hops (i : ι) : CountStore nodeID (cluster.nodes i).replica.store ∧ ∀ key n,
      (s.store i).getNodeCount key n ≤ (cluster.nodes i).replica.store.getNodeCount key n := by
    obtain ⟨os, hos, hstore⟩ := exists_ops h ha hstep hcolon i
    rw [hstore]
    exact (h.stores i).ops hos
  refine ⟨Column.step hinj hcolon h.columns hnonneg hstep, fun i => (hops i).1, ?_, ?_, ?_, ?_⟩
  · intro i key j
    exact (h.nonneg i key j).trans ((hops i).2 key (nodeID j))
  · cases a with
    | increment i key delta =>
        obtain rfl := Option.some.inj hstep
        intro call hcall
        rcases List.mem_cons.1 hcall with rfl | hold
        · exact ha.2
        · exact h.keys call hold
    | _ =>
        simp only [CounterCluster.step] at hstep
        split_ifs at hstep
        obtain rfl := Option.some.inj hstep
        exact h.keys
  · intro i k r hr
    exact (h.batch i k r hr).mono (fun key j => (hops i).2 key (nodeID j))
  · intro i k r hr
    exact (h.db i k r hr).mono (fun key j => (hops i).2 key (nodeID j))

theorem Durable.setDisk (h : Durable c nodeID base held s) {i : ι} {d : Disk V}
    (hreplicated : d.store.replicated = (s.store i).replicated)
    (hstore : CountStore nodeID d.store)
    (hbatch : ∀ k r, (k, some r) ∈ d.batch → Reflects c nodeID (s.store i) k r)
    (hdb : ∀ k r, d.db[k]? = some r → Reflects c nodeID (s.store i) k r) :
    Durable c nodeID base held (s.setDisk i d) := by
  have hcount (key n : GoString) : d.store.getNodeCount key n = (s.store i).getNodeCount key n := by
    rw [Store.getNodeCount_eq, hreplicated, ← Store.getNodeCount_eq]
  have hstores (i' : ι) : (s.setDisk i d).store i' = if i' = i then d.store else s.store i' := by
    unfold store DurableCluster.setDisk
    rw [StepSystem.Cluster.nodes_setNode]
    split_ifs <;> rfl
  have hcounts (i' : ι) (key n : GoString) :
      ((s.setDisk i d).store i').getNodeCount key n = (s.store i').getNodeCount key n := by
    rw [hstores]
    split_ifs with hi
    · rw [hcount, hi]
    · rfl
  refine ⟨?_, ?_, ?_, h.keys, ?_, ?_⟩
  · intro j
    exact (h.columns j).frame rfl (Or.inl rfl) (fun key => hcount key (nodeID j))
      (fun _ hp _ => hp) (fun _ => ⟨rfl, rfl⟩)
  · intro i'
    rw [hstores]
    split_ifs
    · exact hstore
    · exact h.stores i'
  · intro i' key j
    rw [hcounts]
    exact h.nonneg i' key j
  · intro i' k r hr
    refine Reflects.mono ?_ (fun key j => (hcounts i' key (nodeID j)).ge)
    change (k, some r) ∈ Function.update s.batch i d.batch i' at hr
    rw [Function.update_apply] at hr
    split_ifs at hr with hi
    · rw [hi]
      exact hbatch k r hr
    · exact h.batch i' k r hr
  · intro i' k r hr
    refine Reflects.mono ?_ (fun key j => (hcounts i' key (nodeID j)).ge)
    change (Function.update s.db i d.db i')[k]? = some r at hr
    rw [Function.update_apply] at hr
    split_ifs at hr with hi
    · rw [hi]
      exact hdb k r hr
    · exact h.db i' k r hr

theorem Durable.step [Rounding] (hinj : Function.Injective nodeID) (hcolon : ∀ i, colon ∉ nodeID i)
    (h : Durable c nodeID base held s) {a : DurableAction ι} (ha : Sound c s a ∧ Exact nodeID s a)
    (hstep : s.step c nodeID mp a = some t) : Durable c nodeID base held t := by
  obtain ⟨ha, hexact⟩ := ha
  cases a with
  | call a =>
      obtain ⟨cluster, hcluster, rfl⟩ := Option.map_eq_some_iff.1 hstep
      rw [CounterCluster.step_of_exact hexact] at hcluster
      exact h.call hinj hcolon ha hcluster
  | flushShard i shard order now =>
      obtain rfl := Option.some.inj hstep
      obtain ⟨hranges, hround⟩ := ha
      refine h.setDisk (Disk.replicated_flushShard _ _ _ _ _)
        ((h.stores i).flushShard c _ _ shard order now) ?_ (h.db i)
      intro k r hr
      rcases List.mem_append.1 hr with hold | hnew
      · exact h.batch i k r hold
      · obtain ⟨k', hk', hw⟩ := List.mem_flatMap.1 hnew
        obtain ⟨key, j, hkey, hname, hcounts, rfl⟩ :=
          (h.stores i).writes_snapshotItem c ((hranges k').1 hk') hw
        exact ⟨key, j, _, hkey, hname, rfl, hround _ _ hcounts, h.nonneg i key j, le_rfl⟩
  | commit i =>
      obtain rfl := Option.some.inj hstep
      refine h.setDisk rfl (h.stores i) (fun _ _ hr => by cases hr) ?_
      intro k r hr
      rcases WriteBatch.getElem?_commit_cases _ hr with hold | hnew
      · exact h.db i k r hold
      · exact h.batch i k r hnew

section Crash

variable {a : ι} {now : GoString → Int64} {items : List (GoString × Record)} {start : Int64}

theorem names_of_visible (h : Durable c nodeID base held s) (hvisible : Visible (s.db a) now items)
    {w : GoString × Record} (hw : w ∈ items) :
    ∃ key j, colon ∉ key ∧ w.1 = counterKey key (nodeID j) := by
  obtain ⟨key, j, v, hkey, hname, -⟩ := h.db a w.1 w.2 (hvisible.getElem?_of_mem hw)
  exact ⟨key, j, hkey, hname⟩

/-- The database of a node can always be loaded again. -/
theorem exists_crash [Rounding] (h : Durable c nodeID base held s)
    (hvisible : Visible (s.db a) now items) (hexact : LoadExact c now items) (start : Int64) :
    ∃ t, s.crash c nodeID a now items start = some t := by
  unfold DurableCluster.crash
  rw [Store.load_of_exact hexact, CountStore.load_eq (fun w hw => names_of_visible h hvisible hw)]
  exact ⟨_, rfl⟩

theorem issuedBy_of_filter {s t : CounterCluster ι V} {j : ι} (hja : j ≠ a)
    (hissued : t.issued = s.issued.filter (fun call => call.1 ≠ a)) (key : GoString) :
    issuedBy t j key = issuedBy s j key := by
  unfold issuedBy
  rw [hissued]
  induction s.issued with
  | nil => rfl
  | cons call issued ih =>
      rw [List.map_cons, List.sum_cons, ← ih]
      by_cases hcall : call.1 = a
      · have hne : ¬ (call.1 = j ∧ call.2.1 = key) := fun h => hja (h.1.symm.trans hcall)
        rw [List.filter_cons_of_neg (by simpa using hcall), if_neg hne, zero_add]
      · rw [List.filter_cons_of_pos (by simpa using hcall), List.map_cons, List.sum_cons]

theorem Column.crash_other {s t : CounterCluster ι V} {j : ι} (hja : j ≠ a)
    (h : Column nodeID (fun _ => 0) (fun _ _ => 0) s j)
    (hnodes : ∀ i, i ≠ a → t.nodes i = s.nodes i)
    (hissued : t.issued = s.issued.filter (fun call => call.1 ≠ a))
    (hnonneg : ∀ key, 0 ≤ count nodeID t a key j)
    (hle : ∀ key, count nodeID t a key j ≤ count nodeID s a key j)
    (hreceived : ∀ p ∈ (t.nodes a).received, p.2.delta ≤ count nodeID t a p.2.key p.1) :
    Column nodeID (fun _ => 0) (fun _ _ => 0) t j := by
  have hsame (i key) (hi : i ≠ a) : count nodeID t i key j = count nodeID s i key j := by
    unfold count
    rw [hnodes i hi]
  have hcalled (key) : t.Called j key ↔ s.Called j key := by
    unfold Called
    rw [hissued]
    simp [hja]
  constructor
  case own =>
    intro key
    rw [hsame j key hja, issuedBy_of_filter hja hissued]
    exact h.own key
  case low =>
    intro i key hi
    by_cases hia : i = a
    · subst hia
      exact hnonneg key
    · rw [hsame i key hia]
      exact h.low i key hi
  case high =>
    intro i key hi
    rw [hsame j key hja]
    by_cases hia : i = a
    · subst hia
      exact (hle key).trans (h.high i key hi)
    · rw [hsame i key hia]
      exact h.high i key hi
  case unmoved =>
    intro i key hi hkey
    rw [hcalled] at hkey
    by_cases hia : i = a
    · subst hia
      exact le_antisymm ((hle key).trans (h.unmoved i key hi hkey).le) (hnonneg key)
    · rw [hsame i key hia]
      exact h.unmoved i key hi hkey
  case logged =>
    rw [hnodes j hja]
    simpa only [hcalled, hsame j _ hja] using h.logged
  case pending =>
    rw [hnodes j hja]
    simpa only [hcalled] using h.pending
  case readBack =>
    rw [hnodes j hja]
    simpa only [hsame j _ hja] using h.readBack
  case carried =>
    rw [hnodes j hja]
    simpa only [hcalled, hsame j _ hja] using h.carried
  case received =>
    intro i p hp hj
    by_cases hia : i = a
    · subst hia
      rw [← hj]
      exact hreceived p hp
    · rw [hsame i _ hia]
      rw [hnodes i hia] at hp
      exact h.received i p hp hj

/-- The node that crashed starts again from what it had flushed, and what the others know of it is
held against it. -/
theorem Column.crash_self {s t : CounterCluster ι V} {flushed : GoString → ℚ} {r : Replica V}
    {received : List (ι × LogEntry)} (h : Column nodeID (fun _ => 0) (fun _ _ => 0) s a)
    (hnodes : ∀ i, i ≠ a → t.nodes i = s.nodes i) (hnode : t.nodes a = ⟨r, [], [], received⟩)
    (hissued : t.issued = s.issued.filter (fun call => call.1 ≠ a))
    (hcount : ∀ key, count nodeID t a key a = flushed key)
    (hreceived : ∀ p ∈ (t.nodes a).received, p.1 = a →
      p.2.delta ≤ count nodeID t a p.2.key a) :
    Column nodeID flushed (fun i key => count nodeID s i key a) t a := by
  have hsame (i key) (hi : i ≠ a) : count nodeID t i key a = count nodeID s i key a := by
    unfold count
    rw [hnodes i hi]
  have hcalled (key) : ¬ t.Called a key := by
    rintro ⟨delta, hdelta⟩
    rw [hissued] at hdelta
    simp at hdelta
  refine ⟨?_, ?_, ?_, ?_, ?_, ?_, ?_, fun key hkey => absurd hkey (hcalled key), ?_⟩
  · intro key
    rw [hcount, issuedBy_of_not_called (hcalled key), Int.cast_zero, add_zero]
  · intro i key hi
    exact (hsame i key hi).ge
  · intro i key hi
    exact (hsame i key hi).le.trans (le_max_left _ _)
  · intro i key hi _
    exact hsame i key hi
  · intro e he
    rw [hnode] at he
    cases he
  · intro p hp
    rw [hnode] at hp
    cases hp
  · intro key v hv
    rw [hnode] at hv
    cases hv
  · intro i p hp hj
    by_cases hi : i = a
    · subst hi
      exact hreceived p hp hj
    · rw [hnodes i hi] at hp
      rw [hsame i _ hi]
      exact h.received i p hp hj

/-- What a crash changes. -/
theorem crash_cases [Rounding] (hcrash : s.crash c nodeID a now items start = some t) :
    ∃ loaded, Store.load c now items = some loaded ∧
      (∀ i, i ≠ a → t.cluster.nodes i = s.cluster.nodes i) ∧
      t.cluster.nodes a = ⟨⟨loaded, newHLC start⟩, [], [], (s.cluster.nodes a).received.filter
        (fun p => p.2.delta ≤ c.flushed (s.db a) p.2.key (nodeID p.1))⟩ ∧
      t.cluster.issued = s.cluster.issued.filter (fun call => call.1 ≠ a) ∧
      t.db = s.db ∧ t.batch = Function.update s.batch a [] := by
  obtain ⟨loaded, hload, rfl⟩ := Option.map_eq_some_iff.1 hcrash
  refine ⟨loaded, hload, ?_, ?_, rfl, rfl, rfl⟩
  · intro i hi
    exact (StepSystem.Cluster.nodes_setNode _ _ _ _).trans (if_neg hi)
  · exact (StepSystem.Cluster.nodes_setNode _ _ _ _).trans (if_pos rfl)

theorem Durable.crash [Rounding] (hinj : Function.Injective nodeID)
    (hcolon : ∀ i, colon ∉ nodeID i) (h : Durable c nodeID (fun _ _ => 0) (fun _ _ _ => 0) s)
    (hvisible : Visible (s.db a) now items) (hexact : LoadExact c now items)
    (hcrash : s.crash c nodeID a now items start = some t) :
    Durable c nodeID (fun j key => if j = a then c.flushed (s.db a) key (nodeID a) else 0)
      (fun j i key => if j = a then count nodeID s.cluster i key a else 0) t := by
  have hnames (w) (hw : w ∈ items) := names_of_visible h hvisible hw
  obtain ⟨loaded, hload, hnodes, hnode, hissued, hdb, hbatch⟩ := crash_cases hcrash
  rw [Store.load_of_exact hexact, CountStore.load_eq hnames] at hload
  obtain rfl := Option.some.inj hload
  have hbounds := flushed_bounds hcolon (h.db a) hinj (h.nonneg a)
  have hcount (key j) : count nodeID t.cluster a key j = c.flushed (s.db a) key (nodeID j) := by
    unfold count
    rw [hnode]
    exact getNodeCount_load hcolon (h.db a) hvisible key j
  have hreceived (p) (hp : p ∈ (t.cluster.nodes a).received) :
      p.2.delta ≤ count nodeID t.cluster a p.2.key p.1 := by
    rw [hnode] at hp
    rw [hcount]
    exact of_decide_eq_true (List.mem_filter.1 hp).2
  constructor
  case columns =>
    intro j
    by_cases hja : j = a
    · subst hja
      simp only [if_true]
      exact Column.crash_self (h.columns j) hnodes hnode hissued (fun key => hcount key j)
        (fun p hp hj => hj ▸ hreceived p hp)
    · simp only [if_neg hja]
      refine Column.crash_other hja (h.columns j) hnodes hissued ?_ ?_ hreceived
      · intro key
        rw [hcount]
        exact (hbounds key j).1
      · intro key
        rw [hcount]
        exact (hbounds key j).2
  case stores =>
    intro i
    unfold store
    by_cases hi : i = a
    · rw [hi, hnode]
      exact CountStore.load hnames hvisible.distinct
    · rw [hnodes i hi]
      exact h.stores i
  case nonneg =>
    intro i key j
    by_cases hi : i = a
    · rw [hi]
      exact (hbounds key j).1.trans (hcount key j).ge
    · rw [store, hnodes i hi]
      exact h.nonneg i key j
  case keys =>
    intro call hcall
    rw [hissued] at hcall
    exact h.keys call (List.mem_filter.1 hcall).1
  case batch =>
    intro i k r hr
    rw [hbatch, Function.update_apply] at hr
    split_ifs at hr with hi
    · cases hr
    · rw [store, hnodes i hi]
      exact h.batch i k r hr
  case db =>
    intro i k r hr
    rw [hdb] at hr
    by_cases hi : i = a
    · subst hi
      obtain ⟨key, j, v, hkey, hname, rfl, hround, hv, -⟩ := h.db i k r hr
      refine ⟨key, j, v, hkey, hname, rfl, hround, hv, ?_⟩
      refine le_of_eq ?_
      refine Eq.trans ?_ (hcount key j).symm
      rw [DiskCodec.flushed, ← hname, hr]
      exact hround.symm
    · rw [store, hnodes i hi]
      exact h.db i k r hr

end Crash

section Reconvergence

variable [Fintype ι] {a : ι} {now : GoString → Int64} {items : List (GoString × Record)}
  {start : Int64} {s s' t : DurableCluster ι V}

def aggregateCount (s : DurableCluster ι V) (i : ι) (key : GoString) : ℚ :=
  (s.store i).getAggregateCount key

omit [Fintype ι] in
theorem Durable.count_eq (h : Durable c nodeID base held t) {j : ι} (hbase : base j = fun _ => 0)
    (hheld : held j = fun _ _ => 0) (hdone : ∀ i, (t.cluster.nodes i).pending = [])
    {key : GoString} (hreach : ∀ i j, i ≠ j → ∀ e ∈ (t.cluster.nodes j).log, e.key = key →
      ∃ p ∈ (t.cluster.nodes i).received, p.1 = j ∧ p.2.key = key ∧ e.delta ≤ p.2.delta) (i : ι) :
    count nodeID t.cluster i key j = t.cluster.issuedBy j key := by
  have hcolumn := h.columns j
  rw [hbase, hheld] at hcolumn
  have hown := hcolumn.own key
  rw [zero_add] at hown
  by_cases hij : i = j
  · rw [hij, hown]
  · by_cases hcalled : t.cluster.Called j key
    · have hnonneg : 0 ≤ count nodeID t.cluster j key j := h.nonneg j key j
      rw [hcolumn.count_eq hij (hdone j) (hreach i j hij) hcalled, max_eq_right hnonneg, hown]
    · rw [hcolumn.unmoved i key hij hcalled, issuedBy_of_not_called hcalled, Int.cast_zero]

/-- A crash and what follows it, once all calls are done and all entries are received. The node that
crashed counts from its flushed image. The others agree with it exactly when none of them held more
of it than it has come to since; or, for a key that it was not called for again, when all of them
held what the image holds. -/
theorem reconverges_iff [Rounding] (hinj : Function.Injective nodeID)
    (hcolon : ∀ i, colon ∉ nodeID i) (hlc : ι → HLC) {as bs : List (DurableAction ι)}
    (hbefore : StepSystem.run (step c nodeID mp) (initial hlc) as = some s)
    (hsound : StepSystem.Along (step c nodeID mp) (Sound c) (initial hlc) as)
    (hexact : StepSystem.Along (step c nodeID mp) (Exact nodeID) (initial hlc) as)
    (hvisible : Visible (s.db a) now items) (hload : LoadExact c now items)
    (hcrash : s.crash c nodeID a now items start = some s')
    (hafter : StepSystem.run (step c nodeID mp) s' bs = some t)
    (hsound' : StepSystem.Along (step c nodeID mp) (Sound c) s' bs)
    (hexact' : StepSystem.Along (step c nodeID mp) (Exact nodeID) s' bs)
    (hdone : ∀ i, (t.cluster.nodes i).pending = []) (key : GoString)
    (hreach : ∀ i j, i ≠ j → ∀ e ∈ (t.cluster.nodes j).log, e.key = key →
      ∃ p ∈ (t.cluster.nodes i).received, p.1 = j ∧ p.2.key = key ∧ e.delta ≤ p.2.delta) :
    aggregateCount t a key =
        c.flushed (s.db a) key (nodeID a) + t.cluster.issuedTotal key ∧
      ((∀ i, aggregateCount t i key = aggregateCount t a key) ↔
        ∀ i, i ≠ a →
          (t.cluster.Called a key → (s.store i).getNodeCount key (nodeID a) ≤
            c.flushed (s.db a) key (nodeID a) + t.cluster.issuedBy a key) ∧
          (¬ t.cluster.Called a key → (s.store i).getNodeCount key (nodeID a) =
            c.flushed (s.db a) key (nodeID a))) := by
  have hs : Durable c nodeID (fun _ _ => 0) (fun _ _ _ => 0) s := StepSystem.run_invariant_along
    (fun _ _ _ h ha hstep => h.step hinj hcolon ha hstep) (initial_durable hlc)
    (StepSystem.along_and hsound hexact) hbefore
  have ht := StepSystem.run_invariant_along
    (fun _ _ _ h ha hstep => Durable.step hinj hcolon h ha hstep)
    (hs.crash hinj hcolon hvisible hload hcrash) (StepSystem.along_and hsound' hexact') hafter
  have hothers (i : ι) : aggregateCount t i key = count nodeID t.cluster i key a +
      ∑ j ∈ Finset.univ.erase a, (t.cluster.issuedBy j key : ℚ) := by
    rw [aggregateCount, (ht.stores i).getAggregateCount_eq hinj hcolon,
      ← Finset.add_sum_erase _ _ (Finset.mem_univ a)]
    congr 1
    refine Finset.sum_congr rfl (fun j hj => ?_)
    have hja := Finset.ne_of_mem_erase hj
    exact ht.count_eq (funext fun _ => if_neg hja) (funext fun _ => funext fun _ => if_neg hja)
      hdone hreach i
  have hcolumn := ht.columns a
  simp only [if_true] at hcolumn
  constructor
  · rw [hothers, hcolumn.own, add_assoc, ← sum_issuedBy, Int.cast_sum,
      ← Finset.add_sum_erase _ (fun j => (t.cluster.issuedBy j key : ℚ)) (Finset.mem_univ a)]
  · have hequal (i : ι) : aggregateCount t i key = aggregateCount t a key ↔
        count nodeID t.cluster i key a = count nodeID t.cluster a key a := by
      rw [hothers, hothers, add_left_inj]
    simp only [hequal]
    refine ⟨fun hagree i hi => ⟨fun hcalled => ?_, fun hcalled => ?_⟩, fun hheld i => ?_⟩
    · have hmax := hagree i
      rw [hcolumn.count_eq hi (hdone a) (hreach i a hi) hcalled, hcolumn.own] at hmax
      exact max_eq_right_iff.1 hmax
    · have hsame := hagree i
      rw [hcolumn.unmoved i key hi hcalled, hcolumn.own, issuedBy_of_not_called hcalled,
        Int.cast_zero, add_zero] at hsame
      exact hsame
    · by_cases hi : i = a
      · rw [hi]
      · by_cases hcalled : t.cluster.Called a key
        · rw [hcolumn.count_eq hi (hdone a) (hreach i a hi) hcalled, hcolumn.own]
          exact max_eq_right ((hheld i hi).1 hcalled)
        · rw [hcolumn.unmoved i key hi hcalled, hcolumn.own, issuedBy_of_not_called hcalled,
            Int.cast_zero, add_zero]
          exact (hheld i hi).2 hcalled

section Float64

attribute [local instance] Rounding.nearest

def restOfCall (total : ℚ) (wall : Int64) : List (DurableAction Bool) :=
  [.call (.getNodeCount false (bytes "k")), .call (.append false (bytes "k") total wall 0),
    .call (.deliver true false
      { incrLogEntry ⟨wall, 0⟩ 0 (bytes "k") (bytes "a") total with seq := 1 } wall)]

def firstCall (flush : List (DurableAction Bool)) : List (DurableAction Bool) :=
  .call (.increment false (bytes "k") 5) :: (flush ++ restOfCall 5 10)

def nextCall (total : ℚ) : List (DurableAction Bool) :=
  .call (.increment false (bytes "k") 1) :: restOfCall total 30

def crashRun (flush : List (DurableAction Bool)) (items : List (GoString × Record)) (total : ℚ) :
    Option (DurableCluster Bool UInt8 × DurableCluster Bool UInt8 × DurableCluster Bool UInt8) := do
  let s ← StepSystem.run (step byteCodec twoNodeIDs byteMsgpack) (initial (fun _ => newHLC 9))
    (firstCall flush)
  let s' ← s.crash byteCodec twoNodeIDs false (fun _ => 20) items 20
  let t ← StepSystem.run (step byteCodec twoNodeIDs byteMsgpack) s' (nextCall total)
  return (s, s', t)

theorem crashRun_isSome : (crashRun [] [] 1).isSome = true := by decide +kernel

theorem eq_some_of_crashRun {flush : List (DurableAction Bool)} {items : List (GoString × Record)}
    {total : ℚ} (h : (crashRun flush items total).isSome = true) :
    StepSystem.run (step byteCodec twoNodeIDs byteMsgpack) (initial (fun _ => newHLC 9))
        (firstCall flush) = some ((crashRun flush items total).get h).1 ∧
      ((crashRun flush items total).get h).1.crash byteCodec twoNodeIDs false (fun _ => 20) items
          20 = some ((crashRun flush items total).get h).2.1 ∧
      StepSystem.run (step byteCodec twoNodeIDs byteMsgpack)
        ((crashRun flush items total).get h).2.1 (nextCall total) =
          some ((crashRun flush items total).get h).2.2 := by
  generalize hget : (crashRun flush items total).get h = states
  have hsome : crashRun flush items total = some states := by
    rw [← hget, Option.some_get]
  obtain ⟨s, hs, hrest⟩ := Option.bind_eq_some_iff.1 hsome
  obtain ⟨s', hs', hlast⟩ := Option.bind_eq_some_iff.1 hrest
  obtain ⟨t, ht, hstates⟩ := Option.bind_eq_some_iff.1 hlast
  obtain rfl := Option.some.inj hstates
  exact ⟨hs, hs', ht⟩

/-- Nothing was flushed before the crash. The entry of the next call is delivered, and the nodes do
not agree. -/
theorem crash_hides_increment : ∃ s s' t, StepSystem.run (step byteCodec twoNodeIDs byteMsgpack)
      (initial (fun _ => newHLC 9)) (firstCall []) = some s ∧
    (s.db false).toList = [] ∧
    s.crash byteCodec twoNodeIDs false (fun _ => 20) [] 20 = some s' ∧
    StepSystem.run (step byteCodec twoNodeIDs byteMsgpack) s' (nextCall 1) = some t ∧
    (∀ i, (t.cluster.nodes i).pending = []) ∧
    (∀ i j, i ≠ j → ∀ e ∈ (t.cluster.nodes j).log, (j, e) ∈ (t.cluster.nodes i).received) ∧
    aggregateCount t false (bytes "k") = 1 ∧ aggregateCount t true (bytes "k") = 5 := by
  obtain ⟨hs, hs', ht⟩ := eq_some_of_crashRun crashRun_isSome
  refine ⟨_, _, _, hs, ?_, hs', ht, ?_, ?_, ?_, ?_⟩
  all_goals decide +kernel

def flushK : List (DurableAction Bool) :=
  [.flushShard false (shardIndex (bytes "k")) [counterKey (bytes "k") (bytes "a")] (fun _ => 15),
    .commit false]

def flushedItems : List (GoString × Record) :=
  [(counterKey (bytes "k") (bytes "a"), ⟨byteCodec.float64ToBytes 5, none⟩)]

theorem crashRun_flushed_isSome : (crashRun flushK flushedItems 6).isSome = true := by
  decide +kernel

theorem sound_flushK : StepSystem.Along (step byteCodec twoNodeIDs byteMsgpack) (Sound byteCodec)
    (initial (fun _ => newHLC 9)) (firstCall flushK) := by
  have hdirty : flatten StoreShard.dirty
      (Store.newStore.increment (bytes "k") (bytes "a") (Rounding.round (5 : ℤ)) :
        Store UInt8 × ℚ).1 =
      Function.update (fun _ => false) (countSlot (bytes "k") (bytes "a")) true :=
    dirty_increment _ _ _ _
  have hcounts : (Store.newStore.increment (bytes "k") (bytes "a") (Rounding.round (5 : ℤ)) :
      Store UInt8 × ℚ).1.replicated.counts =
      Function.update (fun _ => none) (countSlot (bytes "k") (bytes "a"))
        (some (Rounding.round (0 + Rounding.round (5 : ℤ)))) := by
    rw [replicated_increment]
    rfl
  refine ⟨⟨by decide, by decide⟩, ⟨?_, ?_⟩, ?_⟩
  · intro k
    have hk := congrFun hdirty (shardIndex (bytes "k"), k)
    refine Iff.trans ?_ (Bool.eq_iff_iff.1 hk).symm
    simp only [Function.update_apply, countSlot, Prod.mk.injEq, true_and, List.mem_singleton]
    split_ifs <;> simp_all
  · intro k v hv
    have hk := (congrFun hcounts (shardIndex (bytes "k"), k)).symm.trans hv
    rw [Function.update_apply] at hk
    split_ifs at hk
    obtain rfl := Option.some.inj hk
    decide +kernel
  · refine StepSystem.along_of_forall ?_ _
    intro x hx s
    fin_cases hx <;> trivial

theorem reconverges_iff_flushed : ∃ s s' t, StepSystem.run (step byteCodec twoNodeIDs byteMsgpack)
      (initial (fun _ => newHLC 9)) (firstCall flushK) = some s ∧
    s.crash byteCodec twoNodeIDs false (fun _ => 20) flushedItems 20 = some s' ∧
    StepSystem.run (step byteCodec twoNodeIDs byteMsgpack) s' (nextCall 6) = some t ∧
    ∀ i, aggregateCount t i (bytes "k") = 6 := by
  obtain ⟨hs, hs', ht⟩ := eq_some_of_crashRun crashRun_flushed_isSome
  have hitems : flushedItems =
      (((crashRun flushK flushedItems 6).get crashRun_flushed_isSome).1.db false).toList := by
    decide +kernel
  have hvisible : Visible
      (((crashRun flushK flushedItems 6).get crashRun_flushed_isSome).1.db false)
      (fun _ => 20) flushedItems := by
    have hlist := Visible.toList
      (((crashRun flushK flushedItems 6).get crashRun_flushed_isSome).1.db false) (fun _ => 20)
    rwa [← hitems] at hlist
  have hsound : StepSystem.Along (step byteCodec twoNodeIDs byteMsgpack) (Sound byteCodec)
      ((crashRun flushK flushedItems 6).get crashRun_flushed_isSome).2.1 (nextCall 6) := by
    refine StepSystem.along_of_forall ?_ _
    intro x hx s
    fin_cases hx
    · exact ⟨by decide, by decide⟩
    all_goals trivial
  obtain ⟨hown, hiff⟩ := reconverges_iff (by decide) (by decide) (fun _ => newHLC 9) hs sound_flushK
    (by decide +kernel) hvisible (by decide +kernel) hs' ht hsound (by decide +kernel)
    (by decide +kernel) (bytes "k") (by decide +kernel)
  refine ⟨_, _, _, hs, hs', ht, fun i => ?_⟩
  rw [hiff.2 ?_ i, hown]
  · decide +kernel
  · intro i hi
    refine ⟨fun _ => ?_, fun hnot => absurd ⟨1, ?_⟩ hnot⟩
    · cases i with
      | false => exact absurd rfl hi
      | true => decide +kernel
    · decide +kernel

end Float64
end Reconvergence

end DurableCluster
end Capacitor
