import Capacitor.StepSystem
import Capacitor.Registers
import Capacitor.Node

/-!
# Agreement of registers across a cluster

Any number of nodes run `Set` calls without expiry and `Delete` calls concurrently. A call is three
atomic steps: it takes a timestamp from the clock of its node, writes the store, and appends its
entry; a `Set` whose value cannot be serialised ends without an entry. Entries travel to the other
nodes in any order and any number of times.

A timestamp carries no identity of its node, so two nodes may stamp different writes of one key
alike, and each then keeps the one it met first. Where this does not happen, and values survive
their encoding, nodes that have applied all entries of each other hold the same cache.
-/

namespace Capacitor

open Store
open StepSystem (Cluster)

inductive RegisterCall (V : Type*) where
  | set (key : GoString) (value : Option V)
  | delete (key : GoString)

namespace RegisterCall

variable {V : Type*}

def stamped (ts : Timestamp) : RegisterCall V → RegisterOp V
  | set key value => .set key value ts 0
  | delete key => .delete key ts

def RoundTrips (mp : Msgpack V) : RegisterCall V → Prop
  | set _ value => mp.RoundTrips value
  | delete _ => True

end RegisterCall

/-- The entry a stamped operation appends, or `none` when its value cannot be serialised. -/
def RegisterOp.logEntry {V : Type*} (mp : Msgpack V) (bornAt : Int64) :
    RegisterOp V → Option LogEntry
  | set key value ts ttl => (mp.marshal value).map (fun bin => setLogEntry ts bornAt key bin ttl)
  | delete key ts => some (deleteLogEntry ts bornAt key)

/-- `stamped` and `stored` hold the calls that wait for their second and third step, and `applied`
records the entries of other nodes that were applied here. -/
structure RegisterNode (ι V : Type*) where
  replica : Replica V
  stamped : List (RegisterOp V)
  stored : List (RegisterOp V)
  log : List LogEntry
  applied : List (ι × LogEntry)

namespace RegisterNode

variable {ι V : Type*}

def cache (n : RegisterNode ι V) : Fin numShards × GoString → Option (ValWithTS V) :=
  n.replica.store.replicated.cache

def stamp (n : RegisterNode ι V) (c : RegisterCall V) (wall : Int64) : RegisterNode ι V :=
  let (hlc, ts) := n.replica.hlc.now wall
  { n with
    replica := { n.replica with hlc := hlc }
    stamped := c.stamped ts :: n.stamped }

def store (n : RegisterNode ι V) (k : ℕ) (o : RegisterOp V) : RegisterNode ι V :=
  { n with
    replica := { n.replica with store := o.apply n.replica.store }
    stamped := n.stamped.eraseIdx k
    stored := o :: n.stored }

def append (mp : Msgpack V) (n : RegisterNode ι V) (k : ℕ) (o : RegisterOp V) (bornAt : Int64) :
    RegisterNode ι V :=
  { n with
    stored := n.stored.eraseIdx k
    log := (o.logEntry mp bornAt).elim n.log (appendEntry n.log) }

def deliver (mp : Msgpack V) (n : RegisterNode ι V) (j : ι) (e : LogEntry) (wall : Int64) :
    RegisterNode ι V :=
  { n with
    replica := applyRemoteEntry mp n.replica wall e
    applied := if n.replica.hlc.smash wall e.ts then n.applied else (j, e) :: n.applied }

/-- The three steps of a `Set`, taken without interruption, are `Set` as the node runs it. -/
theorem append_store_stamp_set (mp : Msgpack V) (n : RegisterNode ι V) (key : GoString)
    (value : Option V) (wall bornAt : Int64) :
    let o := (RegisterCall.set key value).stamped (n.replica.hlc.now wall).2
    let call := n.replica.set mp wall bornAt key value 0
    ((n.stamp (.set key value) wall).store 0 o).append mp 0 o bornAt =
      { n with replica := call.1, log := call.2.elim n.log (appendEntry n.log) } := rfl

theorem append_store_stamp_delete (mp : Msgpack V) (n : RegisterNode ι V) (key : GoString)
    (wall bornAt : Int64) :
    let o := (RegisterCall.delete key).stamped (n.replica.hlc.now wall).2
    let call := n.replica.delete wall bornAt key
    ((n.stamp (.delete key) wall).store 0 o).append mp 0 o bornAt =
      { n with replica := call.1, log := appendEntry n.log call.2 } := rfl

end RegisterNode

section Replays

variable {V : Type*}

/-- The cache holds at the key an entry at least as late as the timestamp. -/
def Reaches (m : Fin numShards × GoString → Option (ValWithTS V)) (key : GoString)
    (ts : Timestamp) : Prop :=
  ∃ x, m (slot key) = some x ∧ ts ≤ x.timestamp

/-- Applying the entry is performing the operation. -/
structure Replays (mp : Msgpack V) (e : LogEntry) (o : RegisterOp V) : Prop where
  key : e.key = o.key
  ts : e.ts = o.ts
  apply_eq : ∀ R : Replicated V, R.apply mp e = R.put (slot o.key) o.entry

theorem reaches_write_self (m : Fin numShards × GoString → Option (ValWithTS V))
    (o : RegisterOp V) :
    Reaches (LastWriter.write ValWithTS.timestamp m (slot o.key) o.entry) o.key o.ts := by
  obtain ⟨x, hx, hle⟩ := LastWriter.le_write_self ValWithTS.timestamp m (slot o.key) o.entry
  rw [RegisterOp.entry_timestamp] at hle
  exact ⟨x, hx, hle⟩

theorem Reaches.write {m : Fin numShards × GoString → Option (ValWithTS V)} {key : GoString}
    {ts : Timestamp} (h : Reaches m key ts) (p : Fin numShards × GoString) (x : ValWithTS V) :
    Reaches (LastWriter.write ValWithTS.timestamp m p x) key ts := by
  obtain ⟨y, hy, hle⟩ := h
  obtain ⟨z, hz, hyz⟩ := LastWriter.write_mono ValWithTS.timestamp hy p x
  exact ⟨z, hz, hle.trans hyz⟩

theorem RegisterCall.exists_replays {mp : Msgpack V} {c : RegisterCall V} (h : c.RoundTrips mp)
    (ts : Timestamp) (bornAt : Int64) : ∃ e, (c.stamped ts).logEntry mp bornAt = some e ∧
      ∀ seq, Replays mp { e with seq := seq } (c.stamped ts) := by
  cases c with
  | set key value =>
      obtain ⟨bin, hbin, hvalue⟩ := h
      refine ⟨setLogEntry ts bornAt key bin 0, ?_, fun seq => ⟨rfl, rfl, fun R => ?_⟩⟩
      · simp only [stamped, RegisterOp.logEntry, hbin, Option.map_some]
      · have hentry : setEntry (mp.unmarshal bin) ts (0 / millisecond * millisecond) =
            setEntry value ts 0 := by
          rw [hvalue]
          rfl
        exact congrArg (R.put (slot key)) hentry
  | delete key => exact ⟨_, rfl, fun seq => ⟨rfl, rfl, fun R => rfl⟩⟩

end Replays

namespace RegisterNode

variable {ι V : Type*}

/-- What a node of a reachable state holds: its cache shows only what was issued, and each operation
issued on it waits for its next step or shows in the cache, and in the log. -/
structure Faithful (mp : Msgpack V) (issued : List (ι × RegisterOp V)) (i : ι)
    (n : RegisterNode ι V) : Prop where
  written : ∀ p x, n.cache p = some x → ∃ q ∈ issued, q.2.write = (p, x)
  stamped : ∀ o ∈ n.stamped, (i, o) ∈ issued
  stored : ∀ o ∈ n.stored, (i, o) ∈ issued
  reached : ∀ o, (i, o) ∈ issued → o ∈ n.stamped ∨ Reaches n.cache o.key o.ts
  logged : ∀ o, (i, o) ∈ issued →
    o ∈ n.stamped ∨ o ∈ n.stored ∨ ∃ e ∈ n.log, Replays mp e o
  entries : ∀ e ∈ n.log, ∃ o, (i, o) ∈ issued ∧ Replays mp e o
  applied : ∀ p ∈ n.applied, Reaches n.cache p.2.key p.2.ts

theorem written_write {issued : List (ι × RegisterOp V)} {n : RegisterNode ι V}
    (h : ∀ p x, n.cache p = some x → ∃ q ∈ issued, q.2.write = (p, x)) {j : ι} {o : RegisterOp V}
    (ho : (j, o) ∈ issued) (p : Fin numShards × GoString) (x : ValWithTS V)
    (hx : LastWriter.write ValWithTS.timestamp n.cache (slot o.key) o.entry p = some x) :
    ∃ q ∈ issued, q.2.write = (p, x) := by
  by_cases hp : p = slot o.key
  · subst p
    rcases LastWriter.write_apply_self ValWithTS.timestamp n.cache (slot o.key) o.entry with
      ⟨y, hy, _, hw⟩ | hw
    · rw [hw] at hx
      exact h _ x (hy.trans hx)
    · rw [hw] at hx
      obtain rfl := Option.some.inj hx
      exact ⟨(j, o), ho, rfl⟩
  · rw [LastWriter.write_apply_ne _ hp] at hx
    exact h p x hx

variable {mp : Msgpack V} {issued : List (ι × RegisterOp V)} {i : ι} {n : RegisterNode ι V}

theorem Faithful.fresh (mp : Msgpack V) (i : ι) (hlc : HLC) :
    Faithful mp [] i ⟨⟨Store.newStore, hlc⟩, [], [], [], []⟩ := by
  refine ⟨?_, ?_, ?_, ?_, ?_, ?_, ?_⟩
  · intro p x hx
    cases hx
  all_goals simp

theorem Faithful.issue_other (h : n.Faithful mp issued i) {j : ι} (hij : j ≠ i)
    (o : RegisterOp V) : n.Faithful mp ((j, o) :: issued) i := by
  have hown (o' : RegisterOp V) (ho' : (i, o') ∈ (j, o) :: issued) : (i, o') ∈ issued :=
    (List.mem_cons.1 ho').resolve_left (fun heq => hij (congrArg Prod.fst heq).symm)
  refine ⟨?_, ?_, ?_, ?_, ?_, ?_, h.applied⟩
  · intro p x hx
    obtain ⟨q, hq, hw⟩ := h.written p x hx
    exact ⟨q, List.mem_cons_of_mem _ hq, hw⟩
  · exact fun o' ho' => List.mem_cons_of_mem _ (h.stamped o' ho')
  · exact fun o' ho' => List.mem_cons_of_mem _ (h.stored o' ho')
  · exact fun o' ho' => h.reached o' (hown o' ho')
  · exact fun o' ho' => h.logged o' (hown o' ho')
  · intro e he
    obtain ⟨o', ho', hr⟩ := h.entries e he
    exact ⟨o', List.mem_cons_of_mem _ ho', hr⟩

theorem Faithful.issue (h : n.Faithful mp issued i) (hlc : HLC) (o : RegisterOp V) :
    Faithful mp ((i, o) :: issued) i
      { n with replica := { n.replica with hlc := hlc }, stamped := o :: n.stamped } := by
  refine ⟨?_, ?_, ?_, ?_, ?_, ?_, h.applied⟩
  · intro p x hx
    obtain ⟨q, hq, hw⟩ := h.written p x hx
    exact ⟨q, List.mem_cons_of_mem _ hq, hw⟩
  · intro o' ho'
    rcases List.mem_cons.1 ho' with rfl | ho'
    · exact List.mem_cons_self
    · exact List.mem_cons_of_mem _ (h.stamped o' ho')
  · exact fun o' ho' => List.mem_cons_of_mem _ (h.stored o' ho')
  · intro o' ho'
    rcases List.mem_cons.1 ho' with heq | ho'
    · cases heq
      exact Or.inl List.mem_cons_self
    · exact (h.reached o' ho').imp_left (List.mem_cons_of_mem _)
  · intro o' ho'
    rcases List.mem_cons.1 ho' with heq | ho'
    · cases heq
      exact Or.inl List.mem_cons_self
    · exact (h.logged o' ho').imp_left (List.mem_cons_of_mem _)
  · intro e he
    obtain ⟨o', ho', hr⟩ := h.entries e he
    exact ⟨o', List.mem_cons_of_mem _ ho', hr⟩

theorem mem_iff_of_getElem? {α : Type*} {l : List α} {k : ℕ} {a : α} (h : l[k]? = some a) (b : α) :
    b ∈ l ↔ b = a ∨ b ∈ l.eraseIdx k := by
  obtain ⟨hk, rfl⟩ := List.getElem?_eq_some_iff.1 h
  rw [← (List.getElem_cons_eraseIdx_perm hk).mem_iff, List.mem_cons]

theorem Faithful.store (h : n.Faithful mp issued i) {k : ℕ} {o : RegisterOp V}
    (ho : n.stamped[k]? = some o) : (n.store k o).Faithful mp issued i := by
  have hmem := mem_iff_of_getElem? ho
  have hissued : (i, o) ∈ issued := h.stamped o ((hmem o).2 (Or.inl rfl))
  have hcache : (n.store k o).cache =
      LastWriter.write ValWithTS.timestamp n.cache (slot o.key) o.entry :=
    RegisterOp.cache_apply n.replica.store o
  refine ⟨?_, ?_, ?_, ?_, ?_, h.entries, ?_⟩
  · intro p x hx
    rw [hcache] at hx
    exact written_write h.written hissued p x hx
  · exact fun o' ho' => h.stamped o' ((hmem o').2 (Or.inr ho'))
  · intro o' ho'
    rcases List.mem_cons.1 ho' with rfl | ho'
    · exact hissued
    · exact h.stored o' ho'
  · intro o' ho'
    rw [hcache]
    rcases h.reached o' ho' with hwait | hreach
    · rcases (hmem o').1 hwait with rfl | hwait
      · exact Or.inr (reaches_write_self _ _)
      · exact Or.inl hwait
    · exact Or.inr (hreach.write _ _)
  · intro o' ho'
    rcases h.logged o' ho' with hwait | hstored | hentry
    · rcases (hmem o').1 hwait with rfl | hwait
      · exact Or.inr (Or.inl List.mem_cons_self)
      · exact Or.inl hwait
    · exact Or.inr (Or.inl (List.mem_cons_of_mem _ hstored))
    · exact Or.inr (Or.inr hentry)
  · intro p hp
    rw [hcache]
    exact (h.applied p hp).write _ _

theorem Faithful.append (h : n.Faithful mp issued i) {k : ℕ} {op : RegisterOp V} {e : LogEntry}
    {bornAt : Int64} (hop : n.stored[k]? = some op) (he : op.logEntry mp bornAt = some e)
    (hreplays : ∀ seq, Replays mp { e with seq := seq } op) :
    (n.append mp k op bornAt).Faithful mp issued i := by
  have hmem := mem_iff_of_getElem? hop
  have hissued : (i, op) ∈ issued := h.stored _ ((hmem _).2 (Or.inl rfl))
  have hlog : (n.append mp k op bornAt).log = n.log ++ [{ e with seq := n.log.length + 1 }] := by
    simp only [RegisterNode.append, he, Option.elim_some, appendEntry]
  refine ⟨h.written, h.stamped, ?_, h.reached, ?_, ?_, h.applied⟩
  · exact fun o ho => h.stored o ((hmem o).2 (Or.inr ho))
  · intro o ho
    rw [hlog]
    rcases h.logged o ho with hwait | hstored | ⟨e', he', hr⟩
    · exact Or.inl hwait
    · rcases (hmem o).1 hstored with rfl | hstored
      · exact Or.inr (Or.inr ⟨_, List.mem_append_right _ (List.mem_singleton_self _), hreplays _⟩)
      · exact Or.inr (Or.inl hstored)
    · exact Or.inr (Or.inr ⟨e', List.mem_append_left _ he', hr⟩)
  · intro e' he'
    rw [hlog] at he'
    rcases List.mem_append.1 he' with he' | he'
    · exact h.entries e' he'
    · rw [List.mem_singleton.1 he']
      exact ⟨_, hissued, hreplays _⟩

theorem Faithful.deliver (h : n.Faithful mp issued i) {j : ι} {o : RegisterOp V}
    (ho : (j, o) ∈ issued) {e : LogEntry} (he : Replays mp e o) (wall : Int64) :
    (n.deliver mp j e wall).Faithful mp issued i := by
  cases hacc : n.replica.hlc.smash wall e.ts with
  | true =>
      have hsame : n.deliver mp j e wall = n := by
        simp only [RegisterNode.deliver, applyRemoteEntry_of_smash hacc, hacc, if_true]
      rwa [hsame]
  | false =>
      have hcache : (n.deliver mp j e wall).cache =
          LastWriter.write ValWithTS.timestamp n.cache (slot o.key) o.entry := by
        simp only [RegisterNode.cache, RegisterNode.deliver,
          replicated_applyRemoteEntry_of_accept hacc, he.apply_eq]
        rfl
      refine ⟨?_, h.stamped, h.stored, ?_, h.logged, h.entries, ?_⟩
      · intro p x hx
        rw [hcache] at hx
        exact written_write h.written ho p x hx
      · intro o' ho'
        rw [hcache]
        exact (h.reached o' ho').imp_right (fun hreach => hreach.write _ _)
      · intro p hp
        rw [hcache]
        simp only [RegisterNode.deliver, hacc] at hp
        rcases List.mem_cons.1 hp with rfl | hp
        · rw [he.key, he.ts]
          exact reaches_write_self _ _
        · exact (h.applied p hp).write _ _

theorem Faithful.latest (h : n.Faithful mp issued i)
    (hreach : ∀ q ∈ issued, Reaches n.cache q.2.key q.2.ts) :
    LastWriter.Latest ValWithTS.timestamp (issued.map (fun q => q.2.write)) n.cache := by
  constructor
  · intro p x hx
    obtain ⟨q, hq, hw⟩ := h.written p x hx
    exact List.mem_map.2 ⟨q, hq, hw⟩
  · intro w hw
    obtain ⟨q, hq, rfl⟩ := List.mem_map.1 hw
    obtain ⟨x, hx, hle⟩ := hreach q hq
    rw [← RegisterOp.entry_timestamp q.2] at hle
    exact ⟨x, hx, hle⟩

/-- Two nodes that every issued operation has reached hold the same cache, unless two operations on
one key were stamped alike. -/
theorem Faithful.cache_eq (h : n.Faithful mp issued i)
    (hreach : ∀ q ∈ issued, Reaches n.cache q.2.key q.2.ts) {i' : ι} {n' : RegisterNode ι V}
    (h' : n'.Faithful mp issued i') (hreach' : ∀ q ∈ issued, Reaches n'.cache q.2.key q.2.ts)
    (hties : ∀ p ∈ issued, ∀ q ∈ issued, p.2.key = q.2.key → p.2.ts = q.2.ts →
      p.2.entry = q.2.entry) : n.cache = n'.cache := by
  refine (h.latest hreach).unique _ (h'.latest hreach') ?_ (fun _ => Iff.rfl)
  intro v hv w hw hslot hts
  obtain ⟨p, hp, rfl⟩ := List.mem_map.1 hv
  obtain ⟨q, hq, rfl⟩ := List.mem_map.1 hw
  simp only [RegisterOp.write, RegisterOp.entry_timestamp] at hts
  exact hties p hp q hq (slot_injective hslot) hts

end RegisterNode

/-- `issued` records the stamped operations of all nodes. -/
abbrev RegisterCluster (ι V : Type*) := Cluster ι (RegisterNode ι V) (ι × RegisterOp V)

inductive RegisterAction (ι V : Type*) where
  | stamp (i : ι) (c : RegisterCall V) (wall : Int64)
  | store (i : ι) (k : ℕ)
  | append (i : ι) (k : ℕ) (bornAt : Int64)
  | deliver (i j : ι) (k : ℕ) (wall : Int64)

namespace RegisterCluster

variable {ι V : Type*}

def initial (hlc : ι → HLC) : RegisterCluster ι V :=
  ⟨fun i => ⟨⟨Store.newStore, hlc i⟩, [], [], [], []⟩, []⟩

structure Agreeing (mp : Msgpack V) (s : RegisterCluster ι V) : Prop where
  faithful : ∀ i, (s.nodes i).Faithful mp s.issued i
  roundTrips : ∀ q ∈ s.issued, ∃ c ts, q.2 = RegisterCall.stamped ts c ∧ c.RoundTrips mp
  tieless : ∀ p ∈ s.issued, ∀ q ∈ s.issued, p.2.key = q.2.key → p.2.ts = q.2.ts →
    p.2.entry = q.2.entry

theorem initial_agreeing (mp : Msgpack V) (hlc : ι → HLC) :
    Agreeing mp (initial hlc : RegisterCluster ι V) := by
  refine ⟨fun i => RegisterNode.Faithful.fresh mp i (hlc i), ?_, ?_⟩
  · simp [initial]
  · simp [initial]

/-- No call is under way, and every node has applied every entry of every other node. -/
structure Settled (s : RegisterCluster ι V) : Prop where
  stamped : ∀ i, (s.nodes i).stamped = []
  stored : ∀ i, (s.nodes i).stored = []
  applied : ∀ i j, i ≠ j → ∀ e ∈ (s.nodes j).log, (j, e) ∈ (s.nodes i).applied

variable [DecidableEq ι]

def step (mp : Msgpack V) (s : RegisterCluster ι V) :
    RegisterAction ι V → Option (RegisterCluster ι V)
  | .stamp i c wall =>
      some { s.setNode i ((s.nodes i).stamp c wall) with
        issued := (i, c.stamped ((s.nodes i).replica.hlc.now wall).2) :: s.issued }
  | .store i k =>
      (s.nodes i).stamped[k]?.map (fun o => s.setNode i ((s.nodes i).store k o))
  | .append i k bornAt =>
      (s.nodes i).stored[k]?.map (fun o => s.setNode i ((s.nodes i).append mp k o bornAt))
  | .deliver i j k wall =>
      if i ≠ j then
        (s.nodes j).log[k]?.map (fun e => s.setNode i ((s.nodes i).deliver mp j e wall))
      else none

/-- The value of a call survives its encoding, and every earlier call on the key that was given the
timestamp about to be issued wrote the same entry. -/
def StampsApart (mp : Msgpack V) (s : RegisterCluster ι V) : RegisterAction ι V → Prop
  | .stamp i c wall =>
      let o := c.stamped ((s.nodes i).replica.hlc.now wall).2
      c.RoundTrips mp ∧ ∀ p ∈ s.issued, p.2.key = o.key → p.2.ts = o.ts → p.2.entry = o.entry
  | _ => True

variable {mp : Msgpack V} {s t : RegisterCluster ι V}

theorem stamp_agreeing (h : Agreeing mp s) {i : ι} {c : RegisterCall V} {wall : Int64}
    (hapart : StampsApart mp s (.stamp i c wall)) :
    Agreeing mp { s.setNode i ((s.nodes i).stamp c wall) with
      issued := (i, c.stamped ((s.nodes i).replica.hlc.now wall).2) :: s.issued } := by
  obtain ⟨hround, hties⟩ := hapart
  refine ⟨?_, ?_, ?_⟩
  · intro i'
    change ((s.setNode i ((s.nodes i).stamp c wall)).nodes i').Faithful mp _ i'
    rw [Cluster.nodes_setNode]
    split_ifs with hi
    · rw [hi]
      exact (h.faithful i).issue _ _
    · exact (h.faithful i').issue_other (Ne.symm hi) _
  · intro q hq
    rcases List.mem_cons.1 hq with rfl | hq
    · exact ⟨c, _, rfl, hround⟩
    · exact h.roundTrips q hq
  · intro p hp q hq hkey hts
    rcases List.mem_cons.1 hp with rfl | hp
    · rcases List.mem_cons.1 hq with rfl | hq
      · rfl
      · exact (hties q hq hkey.symm hts.symm).symm
    · rcases List.mem_cons.1 hq with rfl | hq
      · exact hties p hp hkey hts
      · exact h.tieless p hp q hq hkey hts

theorem step_agreeing {a : RegisterAction ι V} (h : Agreeing mp s) (hapart : StampsApart mp s a)
    (hstep : step mp s a = some t) : Agreeing mp t := by
  cases a with
  | stamp i c wall =>
      simp only [step, Option.some.injEq] at hstep
      subst t
      exact stamp_agreeing h hapart
  | store i k =>
      obtain ⟨o, ho, rfl⟩ := Option.map_eq_some_iff.1 hstep
      exact ⟨Cluster.forall_setNode h.faithful ((h.faithful i).store ho), h.roundTrips, h.tieless⟩
  | append i k bornAt =>
      obtain ⟨o, ho, rfl⟩ := Option.map_eq_some_iff.1 hstep
      have hissued := (h.faithful i).stored o (List.mem_of_getElem? ho)
      obtain ⟨c, ts, rfl, hc⟩ := h.roundTrips _ hissued
      obtain ⟨e, he, hreplays⟩ := RegisterCall.exists_replays hc ts bornAt
      exact ⟨Cluster.forall_setNode h.faithful ((h.faithful i).append ho he hreplays), h.roundTrips,
        h.tieless⟩
  | deliver i j k wall =>
      simp only [step] at hstep
      split_ifs at hstep with hij
      obtain ⟨e, he, rfl⟩ := Option.map_eq_some_iff.1 hstep
      obtain ⟨o, ho, hr⟩ := (h.faithful j).entries e (List.mem_of_getElem? he)
      exact ⟨Cluster.forall_setNode h.faithful ((h.faithful i).deliver ho hr wall), h.roundTrips,
        h.tieless⟩

theorem run_agreeing (hlc : ι → HLC) {as : List (RegisterAction ι V)}
    (hapart : StepSystem.Along (step mp) (StampsApart mp) (initial hlc) as)
    (hrun : StepSystem.run (step mp) (initial hlc) as = some s) : Agreeing mp s :=
  StepSystem.run_invariant_along (fun _ _ _ h ha hs => step_agreeing h ha hs)
    (initial_agreeing mp hlc) hapart hrun

theorem Agreeing.reaches (h : Agreeing mp s) (hsettled : Settled s) (i : ι)
    (q : ι × RegisterOp V) (hq : q ∈ s.issued) : Reaches (s.nodes i).cache q.2.key q.2.ts := by
  obtain ⟨j, o⟩ := q
  by_cases hij : i = j
  · subst j
    refine ((h.faithful i).reached o hq).resolve_left ?_
    rw [hsettled.stamped i]
    exact List.not_mem_nil
  · rcases (h.faithful j).logged o hq with hwait | hstored | ⟨e, he, hr⟩
    · rw [hsettled.stamped j] at hwait
      cases hwait
    · rw [hsettled.stored j] at hstored
      cases hstored
    · have happlied := (h.faithful i).applied _ (hsettled.applied i j hij e he)
      rwa [hr.key, hr.ts] at happlied

/-- Agreement on registers: if no two calls that write different entries to one key are stamped
alike, and values survive their encoding, then whenever the cluster has settled all nodes hold the
same cache and serve the same value for every key. -/
theorem settled_agree (mp : Msgpack V) (hlc : ι → HLC) (as : List (RegisterAction ι V))
    (hapart : StepSystem.Along (step mp) (StampsApart mp) (initial hlc) as)
    (hrun : StepSystem.run (step mp) (initial hlc) as = some s) (hsettled : Settled s) (i j : ι) :
    (s.nodes i).cache = (s.nodes j).cache ∧
      ∀ key now, (s.nodes i).replica.store.get key now = (s.nodes j).replica.store.get key now := by
  have h := run_agreeing hlc hapart hrun
  have hcache : (s.nodes i).cache = (s.nodes j).cache :=
    (h.faithful i).cache_eq (h.reaches hsettled i) (h.faithful j) (h.reaches hsettled j) h.tieless
  refine ⟨hcache, ?_⟩
  intro key now
  have hkey := congrFun hcache (slot key)
  change (getShard _ key).cache key = (getShard _ key).cache key at hkey
  unfold Store.get
  rw [hkey]

def settledRun : List (RegisterAction Bool UInt8) :=
  [.stamp false (.set (bytes "k") (some 1)) 10, .stamp true (.delete (bytes "k")) 11,
    .store true 0, .store false 0, .append false 0 0, .append true 0 0,
    .deliver true false 0 20, .deliver false true 0 21, .deliver true false 0 22]

theorem settledRun_isSome : (StepSystem.run (step byteMsgpack)
    (initial (fun _ => newHLC 9)) settledRun).isSome = true := by
  decide +kernel

theorem settledRun_stampsApart : StepSystem.Along (step byteMsgpack) (StampsApart byteMsgpack)
    (initial (fun _ => newHLC 9)) settledRun := by
  refine ⟨⟨byteMsgpack_roundTrips _, ?_⟩, ⟨trivial, ?_⟩, trivial, trivial, trivial, trivial,
    trivial, trivial, trivial, trivial⟩
  · intro p hp
    cases hp
  · decide +kernel

theorem settled_agree_run :
    ∃ s, StepSystem.run (step byteMsgpack) (initial (fun _ => newHLC 9)) settledRun = some s ∧
      ∀ key now, (s.nodes false).replica.store.get key now =
        (s.nodes true).replica.store.get key now := by
  refine ⟨_, (Option.some_get settledRun_isSome).symm, ?_⟩
  refine (settled_agree byteMsgpack (fun _ => newHLC 9) settledRun settledRun_stampsApart
    (Option.some_get settledRun_isSome).symm ⟨?_, ?_, ?_⟩ false true).2
  · decide +kernel
  · decide +kernel
  · decide +kernel

def tiedRun : List (RegisterAction Bool UInt8) :=
  [.stamp false (.set (bytes "k") (some 1)) 10, .store false 0, .append false 0 0,
    .stamp true (.set (bytes "k") (some 2)) 10, .store true 0, .append true 0 0,
    .deliver true false 0 20, .deliver false true 0 20]

theorem tiedRun_isSome : (StepSystem.run (step byteMsgpack)
    (initial (fun _ => newHLC 9)) tiedRun).isSome = true := by
  decide +kernel

/-- Each node has applied the entry of the other and keeps its own value. -/
theorem not_settled_agree_tied :
    ∃ s, StepSystem.run (step byteMsgpack) (initial (fun _ => newHLC 9)) tiedRun = some s ∧
      Settled s ∧ (s.nodes false).replica.store.get (bytes "k") 30 = some 1 ∧
      (s.nodes true).replica.store.get (bytes "k") 30 = some 2 := by
  refine ⟨_, (Option.some_get tiedRun_isSome).symm, ⟨?_, ?_, ?_⟩, ?_⟩
  · decide +kernel
  · decide +kernel
  · decide +kernel
  · decide +kernel

end RegisterCluster
end Capacitor
