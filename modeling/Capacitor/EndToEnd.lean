import Capacitor.ConnectionLoss
import Capacitor.CounterCluster
import Capacitor.Decoding
import Capacitor.ExactSums
import Capacitor.RegisterCluster

/-!
# From local calls to equal stores

Two nodes run `Set` calls without expiry, `Delete` calls and `IncrementBy` calls while their
replicators exchange what the calls append. A call takes the three steps it has on its node, the
last of which puts its entry into the log; everything between the two logs is a step of the
transport, and a received entry changes the replica that the local calls change.

Each node is seen as a node of a cluster of registers and as one of a cluster of counters, whose
entries travel by themselves: what the calls and the transport do is a step of the one and leaves
the other alone. The two clusters number their entries on their own, which makes no difference.
When the transport loses nothing, no entry is refused by a clock and no sum of counts is rounded,
two nodes with nothing left to send therefore hold the same cache and the same counts.
-/

namespace Capacitor

variable {V : Type*}

/-- The same entries, but for their numbers. -/
def SameEntries (es es' : List LogEntry) : Prop :=
  es.map (fun e => { e with seq := 0 }) = es'.map (fun e => { e with seq := 0 })

theorem SameEntries.symm {es es' : List LogEntry} (h : SameEntries es es') : SameEntries es' es :=
  Eq.symm h

theorem SameEntries.exists_mem {es es' : List LogEntry} (h : SameEntries es es') {e : LogEntry}
    (he : e ∈ es) : ∃ seq, { e with seq := seq } ∈ es' := by
  have hmem : { e with seq := 0 } ∈ es'.map (fun e => { e with seq := 0 }) := by
    rw [← h]
    exact List.mem_map.2 ⟨e, he, rfl⟩
  obtain ⟨e', he', heq⟩ := List.mem_map.1 hmem
  refine ⟨e'.seq, ?_⟩
  have hsame : { e with seq := e'.seq } = e' := by
    cases e
    cases e'
    cases heq
    rfl
  rwa [hsame]

theorem SameEntries.concat {es es' : List LogEntry} (h : SameEntries es es') (e : LogEntry)
    (seq seq' : ℕ) :
    SameEntries (es ++ [{ e with seq := seq }]) (es' ++ [{ e with seq := seq' }]) := by
  simpa only [SameEntries, List.map_append, List.map_cons, List.map_nil] using
    congrArg (· ++ [{ e with seq := 0 }]) h

theorem Replays.renumber {mp : Msgpack V} {e : LogEntry} {o : RegisterOp V} (h : Replays mp e o)
    (seq : ℕ) : Replays mp { e with seq := seq } o :=
  ⟨h.key, h.ts, h.apply_eq⟩

/-- Two register nodes with the same cache and the same calls, and with the same entries but for
their numbers. -/
structure RegisterNode.Alike {ι : Type*} (n n' : RegisterNode ι V) : Prop where
  cache : n.cache = n'.cache
  stamped : n.stamped = n'.stamped
  stored : n.stored = n'.stored
  log : SameEntries n.log n'.log
  applied : n.applied = n'.applied

theorem RegisterNode.Alike.refl {ι : Type*} (n : RegisterNode ι V) : n.Alike n :=
  ⟨rfl, rfl, rfl, rfl, rfl⟩

theorem RegisterNode.Faithful.congr {ι : Type*} {mp : Msgpack V} {issued : List (ι × RegisterOp V)}
    {i : ι} {n n' : RegisterNode ι V} (h : n.Faithful mp issued i) (halike : n'.Alike n) :
    n'.Faithful mp issued i := by
  obtain ⟨hcache, hstamped, hstored, hlog, happlied⟩ := halike
  refine ⟨?_, ?_, ?_, ?_, ?_, ?_, ?_⟩
  · rw [hcache]
    exact h.written
  · rw [hstamped]
    exact h.stamped
  · rw [hstored]
    exact h.stored
  · rw [hcache, hstamped]
    exact h.reached
  · intro o ho
    rw [hstamped, hstored]
    refine (h.logged o ho).imp_right (Or.imp_right ?_)
    rintro ⟨e, he, hr⟩
    obtain ⟨seq, hmem⟩ := hlog.symm.exists_mem he
    exact ⟨_, hmem, hr.renumber seq⟩
  · intro e he
    obtain ⟨seq, hmem⟩ := hlog.exists_mem he
    obtain ⟨o, ho, hr⟩ := h.entries _ hmem
    exact ⟨o, ho, hr.renumber e.seq⟩
  · rw [hcache, happlied]
    exact h.applied

theorem RegisterCluster.Agreeing.congr {ι : Type*} {mp : Msgpack V} {s t : RegisterCluster ι V}
    (h : Agreeing mp s) (hissued : t.issued = s.issued)
    (halike : ∀ i, (t.nodes i).Alike (s.nodes i)) : Agreeing mp t := by
  refine ⟨fun i => ?_, hissued ▸ h.roundTrips, hissued ▸ h.tieless⟩
  rw [hissued]
  exact (h.faithful i).congr (halike i)

structure CounterNode.Alike {ι : Type*} (n n' : CounterNode ι V) : Prop where
  counts : n.replica.store.replicated.counts = n'.replica.store.replicated.counts
  aggregateCounts :
    n.replica.store.replicated.aggregateCounts = n'.replica.store.replicated.aggregateCounts
  pending : n.pending = n'.pending
  log : SameEntries n.log n'.log
  received : n.received = n'.received

namespace CounterNode.Alike

variable {ι : Type*} {n n' : CounterNode ι V}

theorem refl (n : CounterNode ι V) : n.Alike n := ⟨rfl, rfl, rfl, rfl, rfl⟩

theorem count_eq (h : n.Alike n') (key nodeID : GoString) :
    n.count key nodeID = n'.count key nodeID := by
  rw [CounterNode.count, CounterNode.count, Store.getNodeCount_eq, Store.getNodeCount_eq, h.counts]

theorem getAggregateCount_eq (h : n.Alike n') (key : GoString) :
    n.replica.store.getAggregateCount key = n'.replica.store.getAggregateCount key := by
  rw [Store.getAggregateCount_eq, Store.getAggregateCount_eq, h.aggregateCounts]

end CounterNode.Alike

theorem CounterNode.Carries.congr {ι : Type*} {nodeID : ι → GoString} {i : ι}
    {n n' : CounterNode ι V} (h : n.Carries nodeID i) (halike : n'.Alike n) :
    n'.Carries nodeID i := by
  have hcount := halike.count_eq
  obtain ⟨-, -, hpending, hlog, hreceived⟩ := halike
  refine ⟨?_, ?_, ?_, ?_⟩
  · intro e he
    obtain ⟨seq, hmem⟩ := hlog.exists_mem he
    have hlogged := h.logged _ hmem
    rwa [hcount]
  · intro key v hv
    rw [hpending] at hv
    rw [hcount]
    exact h.readBack key v hv
  · intro key
    rw [hcount, hpending]
    refine (h.carried key).imp_right (Or.imp_right (Or.imp_right ?_))
    rintro ⟨e, he, hkey, hdelta⟩
    obtain ⟨seq, hmem⟩ := hlog.symm.exists_mem he
    exact ⟨_, hmem, hkey, hdelta⟩
  · intro p hp
    rw [hreceived] at hp
    rw [hcount]
    exact h.received p hp

theorem CounterCluster.Converging.congr {ι : Type*} [DecidableEq ι] [Fintype ι]
    {nodeID : ι → GoString} {s t : CounterCluster ι V} (h : Converging nodeID s)
    (hissued : t.issued = s.issued) (halike : ∀ i, (t.nodes i).Alike (s.nodes i)) :
    Converging nodeID t := by
  have hcount (i : ι) (key : GoString) (j : ι) :
      count nodeID t i key j = count nodeID s i key j := (halike i).count_eq key (nodeID j)
  refine ⟨⟨?_, ?_, ?_, ?_⟩, fun i => (h.carries i).congr (halike i)⟩
  · intro i key
    rw [hcount, h.ledger.own, issuedBy, issuedBy, hissued]
  · intro i key j
    rw [hcount]
    exact h.ledger.nonneg i key j
  · intro i key j
    rw [hcount, hcount]
    exact h.ledger.bounded i key j
  · intro i key
    simp only [hcount]
    exact ((halike i).getAggregateCount_eq key).trans (h.ledger.aggregate_eq i key)

/-- The step puts an entry into a log, which is left to the calls. -/
def PairAction.appends : PairAction → Bool
  | .act _ (.append _) => true
  | _ => false

namespace Pair

def setReplica (s : Pair V) (x : Bool) (r : Replica V) : Pair V :=
  Function.update s x { s x with node := { (s x).node with replica := r } }

/-- The clock of the receiver does not refuse the entry. -/
def Accepts (c : Codec) (s : Pair V) : PairAction → Prop
  | .apply x k wall => ∀ raw ∈ (s x).link.nextEntry k, ∀ e ∈ c.unmarshalMsg raw,
      (s (!x)).node.replica.hlc.smash wall e.ts = false
  | _ => True

instance (c : Codec) (s : Pair V) : (a : PairAction) → Decidable (s.Accepts c a)
  | .apply x k _ => inferInstanceAs (Decidable (∀ raw ∈ (s x).link.nextEntry k, _))
  | .act _ _ | .deliver _ _ => isTrue trivial

/-- No sum that is formed when the entry is applied is rounded. -/
def Exact [Rounding] (c : Codec) (s : Pair V) : PairAction → Prop
  | .apply x k _ => ∀ raw ∈ (s x).link.nextEntry k, ∀ e ∈ c.unmarshalMsg raw,
      e.Exact (s (!x)).node.replica.store
  | _ => True

instance [Rounding] (c : Codec) (s : Pair V) : (a : PairAction) → Decidable (s.Exact c a)
  | .apply x k _ => inferInstanceAs (Decidable (∀ raw ∈ (s x).link.nextEntry k, _))
  | .act _ _ | .deliver _ _ => isTrue trivial

variable {c : Codec} {mp : Msgpack V} {s t : Pair V}

theorem step_of_exact [Rounding] {a : PairAction} (h : s.Exact c a) :
    s.step c mp a = @Pair.step V .unrounded c mp s a := by
  cases a with
  | act x b => rfl
  | deliver x k => rfl
  | apply x k wall =>
      refine Option.map_congr (fun raw hraw => ?_)
      congr 1
      unfold Side.applyRaw
      cases he : c.unmarshalMsg raw with
      | none => rfl
      | some e => simp only [applyRemoteEntry_of_exact mp wall (h raw hraw e he)]

theorem setReplica_self (s : Pair V) (x : Bool) (r : Replica V) :
    s.setReplica x r x = { s x with node := { (s x).node with replica := r } } :=
  Function.update_self _ _ _

theorem setReplica_not (s : Pair V) (x : Bool) (r : Replica V) :
    s.setReplica x r (!x) = s (!x) := by
  have hne : (!x) ≠ x := by cases x <;> decide
  exact Function.update_of_ne hne _ _

theorem Kept.setReplica {x y : Bool} (h : Kept c x s) {r : Replica V}
    (hr : ∀ nodeID, r.store.getPeerSeq nodeID = (s y).node.replica.store.getPeerSeq nodeID) :
    Kept c x (s.setReplica y r) := by
  rcases Bool.eq_or_eq_not y x with rfl | rfl
  · have hsafe (m : ℕ) (hm : (s y).SafeUpTo c (s (!y)).handed m) :
        Side.SafeUpTo c (s (!y)).handed { s y with node := { (s y).node with replica := r } } m :=
      hm.extends (Side.Extends.of_eq rfl rfl) (List.Subset.refl _) (fun _ _ _ hraw => Or.inl hraw)
    refine ⟨?_, ?_, ?_, ?_⟩
    · rw [setReplica_self, setReplica_not]
      exact h.sender.extends hsafe (Side.Extends.of_eq rfl rfl) (h.sender.faithful.congr rfl rfl)
        (fun k hk => hsafe k (h.sender.cursor k hk)) rfl (fun m hm => hsafe m (h.sender.known m hm))
        (fun cc hcc raw hraw => by
          obtain ⟨q, hq, henc⟩ := h.sender.unapplied cc hcc raw hraw
          exact ⟨q, hq, henc⟩)
    · rw [setReplica_self, setReplica_not]
      exact h.receiver.mono hsafe
    · rw [setReplica_self]
      exact h.orderly
    · rw [setReplica_self, setReplica_not]
      exact h.token
  · have hself := s.setReplica_not (!x) r
    rw [Bool.not_not] at hself
    refine ⟨?_, ?_, ?_, ?_⟩
    · rw [hself, setReplica_self]
      exact h.sender
    · rw [hself, setReplica_self]
      refine ⟨?_, h.receiver.calls, h.receiver.handshakes⟩
      rw [hr]
      exact h.receiver.watermark
    · rw [hself]
      exact h.orderly
    · rw [hself, setReplica_self]
      exact h.token

theorem step_frame {a : PairAction} (hstep : step c mp s a = some t) (happends : a.appends = false)
    {y : Bool} (hy : ∀ k wall, a ≠ .apply (!y) k wall) :
    (t y).node.replica = (s y).node.replica ∧ (t y).appended = (s y).appended ∧
      (t y).handed = (s y).handed := by
  rcases step_cases hstep y with ⟨b, rfl, hact⟩ | ⟨k, p, -, -, hgreet⟩ | ⟨k, wall, raw, rfl, -, -⟩ |
    ⟨link, hlink, -⟩
  · obtain ⟨-, -, hreplica, -, hhanded⟩ := Side.act_frame hact
    rcases Side.act_log hact with ⟨-, happended⟩ | ⟨e, rfl, -, -⟩
    · exact ⟨hreplica, happended, hhanded⟩
    · cases happends
  · rw [Side.greet_eq_some hgreet]
    exact ⟨rfl, rfl, rfl⟩
  · exact absurd rfl (hy k wall)
  · rw [hlink]
    exact ⟨rfl, rfl, rfl⟩

/-- Everything is handed over when nothing is in flight and the cursor is at the end of the log. -/
theorem Kept.handed {x : Bool} (h : Kept c x s)
    (hquiet : ∀ cc ∈ (s x).link.conns, cc.inflight = [] ∧ cc.applying = [])
    (hcursor : (s x).node.log.head = 1 ∨
      (s x).node.peerSeqs (s (!x)).node.nodeID = some ((s x).node.log.head - 1))
    (hearliest : (s x).node.log.earliest = 1) {q : ℕ} (hq : 1 ≤ q) {e : LogEntry}
    (he : (s x).entry q = some e) : e ∈ (s (!x)).handed := by
  have hhead := h.sender.faithful.head_eq
  obtain ⟨e₀, he₀, -⟩ := Option.map_eq_some_iff.1 he
  have hlt := (List.getElem?_eq_some_iff.1 he₀).1
  rcases hcursor with hempty | hcursor
  · omega
  · rcases h.sender.cursor _ hcursor q hq (by omega) with hdropped | ⟨e', he', hentry⟩ | hflight
    · omega
    · rwa [Option.some.inj (he.symm.trans hentry)]
    · obtain ⟨raw, -, cc, hcc, hraw⟩ := hflight
      rw [Conn.unapplied, (hquiet cc hcc).1, (hquiet cc hcc).2] at hraw
      cases hraw

theorem step_appends {x : Bool} {e : LogEntry}
    (hstep : step c mp s (.act x (.append e)) = some t) :
    (t x).node.replica = (s x).node.replica ∧ (t x).appended = (s x).appended ++ [e] ∧
      (t x).handed = (s x).handed ∧ t (!x) = s (!x) := by
  obtain ⟨hact, hpeer⟩ := step_act hstep
  obtain ⟨log, -, hself⟩ := Option.map_eq_some_iff.1 hact
  rw [← hself]
  exact ⟨rfl, rfl, rfl, hpeer⟩

end Pair

/-- The two nodes with their transport, and the calls that wait for their next step. `issued` holds
the stamped operations of both nodes and `increments` what they were incremented by. -/
structure CallPair (V : Type*) where
  pair : Pair V
  stamped : Bool → List (RegisterOp V)
  stored : Bool → List (RegisterOp V)
  pending : Bool → List PendingIncr
  issued : List (Bool × RegisterOp V)
  increments : List (Bool × GoString × ℤ)

inductive CallPairAction (V : Type*) where
  | stamp (x : Bool) (call : RegisterCall V) (wall : Int64)
  | store (x : Bool) (k : ℕ)
  | append (x : Bool) (k : ℕ) (bornAt : Int64)
  | increment (x : Bool) (key : GoString) (delta : ℤ)
  | getNodeCount (x : Bool) (key : GoString)
  | appendCount (x : Bool) (key : GoString) (nodeVal : ℚ) (wall bornAt : Int64)
  | transport (a : PairAction)

namespace CallPair

def initial (nodeID : Bool → GoString) (authToken : GoString) (hlc : Bool → HLC)
    (capacity : Bool → ℕ) : CallPair V :=
  ⟨Pair.initial nodeID authToken hlc capacity, fun _ => [], fun _ => [], fun _ => [], [], []⟩

def step [Rounding] (c : Codec) (mp : Msgpack V) (s : CallPair V) :
    CallPairAction V → Option (CallPair V)
  | .stamp x call wall =>
      let replica := (s.pair x).node.replica
      let (hlc, ts) := replica.hlc.now wall
      some
        { s with
          pair := s.pair.setReplica x { replica with hlc := hlc }
          stamped := Function.update s.stamped x (call.stamped ts :: s.stamped x)
          issued := (x, call.stamped ts) :: s.issued }
  | .store x k =>
      let replica := (s.pair x).node.replica
      (s.stamped x)[k]?.map (fun o =>
        { s with
          pair := s.pair.setReplica x { replica with store := o.apply replica.store }
          stamped := Function.update s.stamped x ((s.stamped x).eraseIdx k)
          stored := Function.update s.stored x (o :: s.stored x) })
  | .append x k bornAt =>
      (s.stored x)[k]?.bind (fun o =>
        let stored := Function.update s.stored x ((s.stored x).eraseIdx k)
        match o.logEntry mp bornAt with
        | none => some { s with stored := stored }
        | some e =>
            (s.pair.step c mp (.act x (.append e))).map (fun p =>
              { s with pair := p, stored := stored }))
  | .increment x key delta =>
      let node := (s.pair x).node
      let store := (node.replica.store.increment key node.nodeID (Rounding.round delta)).1
      some
        { s with
          pair := s.pair.setReplica x { node.replica with store := store }
          pending := Function.update s.pending x (.added key :: s.pending x)
          increments := (x, key, delta) :: s.increments }
  | .getNodeCount x key =>
      let node := (s.pair x).node
      if .added key ∈ s.pending x then
        some
          { s with
            pending := Function.update s.pending x
              (.read key (node.replica.store.getNodeCount key node.nodeID) ::
                (s.pending x).erase (.added key)) }
      else none
  | .appendCount x key nodeVal wall bornAt =>
      let node := (s.pair x).node
      let (hlc, ts) := node.replica.hlc.now wall
      if .read key nodeVal ∈ s.pending x then
        ((s.pair.setReplica x { node.replica with hlc := hlc }).step c mp
            (.act x (.append (incrLogEntry ts bornAt key node.nodeID nodeVal)))).map (fun p =>
          { s with
            pair := p
            pending := Function.update s.pending x ((s.pending x).erase (.read key nodeVal)) })
      else none
  | .transport a =>
      if a.appends then none else (s.pair.step c mp a).map (fun p => { s with pair := p })

variable (c : Codec) (mp : Msgpack V)

/-- No sum that the step forms is rounded. -/
def Exact [Rounding] (s : CallPair V) : CallPairAction V → Prop
  | .increment x key delta =>
      let node := (s.pair x).node
      Rounding.Exact (delta : ℚ) ∧
        node.replica.store.AddsExactly key (counterKey key node.nodeID) key delta
  | .transport a => s.pair.Exact c a
  | .stamp _ _ _ | .store _ _ | .append _ _ _ | .getNodeCount _ _ | .appendCount _ _ _ _ _ => True

instance [Rounding] (s : CallPair V) : (a : CallPairAction V) → Decidable (s.Exact c a)
  | .increment _ _ _ => inferInstanceAs (Decidable (_ ∧ _))
  | .transport a => inferInstanceAs (Decidable (s.pair.Exact c a))
  | .stamp _ _ _ | .store _ _ | .append _ _ _ | .getNodeCount _ _ | .appendCount _ _ _ _ _ =>
      isTrue trivial

variable {c mp} in
theorem step_of_exact [Rounding] (s : CallPair V) (a : CallPairAction V) (h : s.Exact c a) :
    s.step c mp a = @CallPair.step V .unrounded c mp s a := by
  cases a with
  | increment x key delta =>
      obtain ⟨hdelta, hadds⟩ := h
      have hstore : (s.pair x).node.replica.store.increment key (s.pair x).node.nodeID
          (Rounding.round delta) =
          @Store.increment V .unrounded (s.pair x).node.replica.store key (s.pair x).node.nodeID
            delta := by
        rw [hdelta, Store.increment_of_exact hadds]
      simp only [step, hstore]
      rfl
  | transport a => simp only [step, Pair.step_of_exact h]
  | _ => rfl

def numbered (es : List LogEntry) : List LogEntry :=
  es.mapIdx (fun i e => { e with seq := i + 1 })

def registerEntries (es : List LogEntry) : List LogEntry := es.filter (fun e => e.op ≠ .incr)

def counterEntries (es : List LogEntry) : List LogEntry := es.filter (fun e => e.op = .incr)

/-- The node as a node of a cluster of registers: its log is what its calls have appended, and what
it was handed has been applied. -/
def registerNode (s : CallPair V) (x : Bool) : RegisterNode Bool V where
  replica := (s.pair x).node.replica
  stamped := s.stamped x
  stored := s.stored x
  log := registerEntries (numbered (s.pair x).appended)
  applied := ((registerEntries (s.pair x).handed).map (fun e => (!x, e))).reverse

def counterNode (s : CallPair V) (x : Bool) : CounterNode Bool V where
  replica := (s.pair x).node.replica
  pending := s.pending x
  log := counterEntries (numbered (s.pair x).appended)
  received := ((counterEntries (s.pair x).handed).map (fun e => (!x, e))).reverse

def registers (s : CallPair V) : RegisterCluster Bool V := ⟨s.registerNode, s.issued⟩

def counters (s : CallPair V) : CounterCluster Bool V := ⟨s.counterNode, s.increments⟩

/-- The conditions on the steps: stamps are apart and values survive their encoding, counters grow,
the log keeps its bytes, and the transport neither loses nor refuses an entry. -/
def Undisturbed (s : CallPair V) : CallPairAction V → Prop
  | .stamp x call wall => s.registers.StampsApart mp (.stamp x call wall)
  | .append x k bornAt => ∀ o ∈ (s.stored x)[k]?, ∀ e ∈ o.logEntry mp bornAt,
      (s.pair x).KeepsBytes c (.append e)
  | .increment _ _ delta => 0 ≤ delta
  | .appendCount x key nodeVal wall bornAt =>
      (s.pair x).KeepsBytes c (.append (incrLogEntry ((s.pair x).node.replica.hlc.now wall).2
        bornAt key (s.pair x).node.nodeID nodeVal))
  | .store _ _ | .getNodeCount _ _ => True
  | .transport a => (∀ x, s.pair.Lossless c x a) ∧ s.pair.Accepts c a

variable {c mp} {s t : CallPair V}

theorem numbered_concat (es : List LogEntry) (e : LogEntry) :
    numbered (es ++ [e]) = appendEntry (numbered es) e := by
  simp [numbered, appendEntry, List.mapIdx_append]

theorem getElem?_numbered (es : List LogEntry) (k : ℕ) :
    (numbered es)[k]? = es[k]?.map (fun e => { e with seq := k + 1 }) := by
  simp [numbered]

theorem registerEntries_concat (es : List LogEntry) (e : LogEntry) :
    registerEntries (es ++ [e]) = if e.op = .incr then registerEntries es
      else registerEntries es ++ [e] := by
  by_cases he : e.op = .incr <;> simp [registerEntries, he]

theorem counterEntries_concat (es : List LogEntry) (e : LogEntry) :
    counterEntries (es ++ [e]) = if e.op = .incr then counterEntries es ++ [e]
      else counterEntries es := by
  by_cases he : e.op = .incr <;> simp [counterEntries, he]

theorem eq_update_side {α : Type*} {f g : Bool → α} {x : Bool} (hpeer : g (!x) = f (!x)) :
    g = Function.update f x (g x) := by
  funext y
  rcases Bool.eq_or_eq_not y x with rfl | rfl
  · rw [Function.update_self]
  · have hne : (!x) ≠ x := by cases x <;> decide
    rw [hpeer, Function.update_of_ne hne]

theorem registers_eq_update {x : Bool} (hpeer : t.registerNode (!x) = s.registerNode (!x)) :
    t.registers = ⟨Function.update s.registerNode x (t.registerNode x), t.issued⟩ :=
  congrArg (fun nodes => StepSystem.Cluster.mk nodes t.issued) (eq_update_side hpeer)

theorem counters_eq_update {x : Bool} (hpeer : t.counterNode (!x) = s.counterNode (!x)) :
    t.counters = ⟨Function.update s.counterNode x (t.counterNode x), t.increments⟩ :=
  congrArg (fun nodes => StepSystem.Cluster.mk nodes t.increments) (eq_update_side hpeer)

/-- The transport has lost nothing in either direction, and the nodes are as those of the two
clusters. -/
structure Converging (c : Codec) (mp : Msgpack V) (nodeID : Bool → GoString) (s : CallPair V) :
    Prop where
  named : ∀ x, (s.pair x).node.nodeID = nodeID x
  kept : ∀ x, Pair.Kept c x s.pair
  agreeing : RegisterCluster.Agreeing mp s.registers
  counting : CounterCluster.Converging nodeID s.counters

theorem initial_converging (c : Codec) (mp : Msgpack V) (nodeID : Bool → GoString)
    (authToken : GoString) (hlc : Bool → HLC) (capacity : Bool → ℕ) :
    Converging c mp nodeID (initial nodeID authToken hlc capacity) :=
  ⟨fun _ => rfl, fun x => Pair.initial_kept c x nodeID authToken hlc capacity,
    RegisterCluster.initial_agreeing mp hlc, CounterCluster.initial_converging hlc⟩

section Steps

variable {nodeID : Bool → GoString} {x : Bool}

theorem forall_side {α : Type*} {f g : Bool → α} {R : α → α → Prop} (x : Bool)
    (hrefl : ∀ a, R a a) (hpeer : g (!x) = f (!x)) (hself : R (g x) (f x)) (y : Bool) :
    R (g y) (f y) := by
  rcases Bool.eq_or_eq_not y x with rfl | rfl
  · exact hself
  · rw [hpeer]
    exact hrefl _

theorem replicated_opApply (o : RegisterOp V) (st : Store V) :
    (o.apply st).replicated = st.replicated.put (Store.slot o.key) o.entry := by
  cases o with
  | set key value ts ttl => exact st.replicated_put key _
  | delete key ts => exact st.replicated_put key _

theorem getPeerSeq_opApply (o : RegisterOp V) (st : Store V) (nodeID : GoString) :
    (o.apply st).getPeerSeq nodeID = st.getPeerSeq nodeID := by
  have hwatermarks : (o.apply st).watermarks = st.watermarks := by
    cases o with
    | set key value ts ttl => exact st.watermarks_put key _
    | delete key ts => exact st.watermarks_put key _
  rw [Store.getPeerSeq_eq, Store.getPeerSeq_eq, hwatermarks]

theorem getPeerSeq_increment (st : Store V) (key nodeID : GoString) (delta : ℚ)
    (nodeID' : GoString) :
    (st.increment key nodeID delta).1.getPeerSeq nodeID' = st.getPeerSeq nodeID' := by
  have hwatermarks : (st.increment key nodeID delta).1.watermarks = st.watermarks := by
    unfold Store.increment
    dsimp only
    apply Store.flatten_frame
    intro shard
    rfl
  rw [Store.getPeerSeq_eq, Store.getPeerSeq_eq, hwatermarks]

theorem op_logEntry {o : RegisterOp V} {bornAt : Int64} {e : LogEntry}
    (h : o.logEntry mp bornAt = some e) : e.op ≠ .incr := by
  cases o with
  | set key value ts ttl =>
      obtain ⟨bin, -, rfl⟩ := Option.map_eq_some_iff.1 h
      exact fun hop => by cases hop
  | delete key ts =>
      obtain rfl := Option.some.inj h
      exact fun hop => by cases hop

theorem Converging.setReplica (h : Converging c mp nodeID s) {r : Replica V}
    (hpair : t.pair = s.pair.setReplica x r)
    (hr : ∀ nodeID, r.store.getPeerSeq nodeID = (s.pair x).node.replica.store.getPeerSeq nodeID)
    (hregisters : RegisterCluster.Agreeing mp t.registers)
    (hcounters : CounterCluster.Converging nodeID t.counters) : Converging c mp nodeID t := by
  refine ⟨fun y => ?_, fun y => ?_, hregisters, hcounters⟩
  · rw [← h.named y, hpair]
    exact forall_side (R := fun d d' => d.node.nodeID = d'.node.nodeID) x (fun _ => rfl)
      (s.pair.setReplica_not x r) (by rw [s.pair.setReplica_self]) y
  · rw [hpair]
    exact (h.kept y).setReplica hr

theorem Converging.stamp {call : RegisterCall V} {wall : Int64} (h : Converging c mp nodeID s)
    (ha : Undisturbed c mp s (.stamp x call wall))
    (hstep : step c mp s (.stamp x call wall) = some t) : Converging c mp nodeID t := by
  have hne : (!x) ≠ x := by cases x <;> decide
  have ht := Option.some.inj hstep
  have hpair : t.pair = s.pair.setReplica x
      ⟨(s.pair x).node.replica.store, ((s.pair x).node.replica.hlc.now wall).1⟩ :=
    (congrArg CallPair.pair ht).symm
  have hcluster : RegisterCluster.step mp s.registers (.stamp x call wall) = some t.registers := by
    have hother : t.registerNode (!x) = s.registerNode (!x) := by
      simp only [← ht, registerNode, Pair.setReplica_not, Function.update_of_ne hne]
    rw [registers_eq_update hother, ← ht]
    simp only [registerNode, Pair.setReplica_self, Function.update_self]
    rfl
  refine h.setReplica hpair (fun _ => rfl) (RegisterCluster.step_agreeing (a := .stamp x call wall)
    h.agreeing ha hcluster) (h.counting.congr ?_ (forall_side x CounterNode.Alike.refl ?_ ?_))
  · exact (congrArg CallPair.increments ht).symm
  · simp only [counters, counterNode, ← ht, Pair.setReplica_not]
  · simp only [counters, counterNode, ← ht, Pair.setReplica_self]
    exact ⟨rfl, rfl, rfl, rfl, rfl⟩

theorem Converging.store {k : ℕ} (h : Converging c mp nodeID s)
    (hstep : step c mp s (.store x k) = some t) : Converging c mp nodeID t := by
  have hne : (!x) ≠ x := by cases x <;> decide
  obtain ⟨o, ho, ht⟩ := Option.map_eq_some_iff.1 hstep
  have hpair : t.pair = s.pair.setReplica x
      ⟨o.apply (s.pair x).node.replica.store, (s.pair x).node.replica.hlc⟩ :=
    (congrArg CallPair.pair ht).symm
  have hcluster : RegisterCluster.step mp s.registers (.store x k) = some t.registers := by
    have hother : t.registerNode (!x) = s.registerNode (!x) := by
      simp only [← ht, registerNode, Pair.setReplica_not, Function.update_of_ne hne]
    rw [registers_eq_update hother, ← ht]
    simp only [registerNode, Pair.setReplica_self, Function.update_self]
    exact Option.map_eq_some_iff.2 ⟨o, ho, rfl⟩
  refine h.setReplica hpair (getPeerSeq_opApply o _) (RegisterCluster.step_agreeing
    (a := .store x k) h.agreeing trivial hcluster)
    (h.counting.congr ?_ (forall_side x CounterNode.Alike.refl ?_ ?_))
  · exact (congrArg CallPair.increments ht).symm
  · simp only [counters, counterNode, ← ht, Pair.setReplica_not]
  · have happly := replicated_opApply o (s.pair x).node.replica.store
    have hcounts := congrArg Replicated.counts happly
    have haggregates := congrArg Replicated.aggregateCounts happly
    simp only [counters, counterNode, ← ht, Pair.setReplica_self]
    exact ⟨hcounts, haggregates, rfl, rfl, rfl⟩

theorem Converging.appends {p : Pair V} {e : LogEntry} (h : Converging c mp nodeID s)
    (hkeeps : (s.pair x).KeepsBytes c (.append e))
    (hp : s.pair.step c mp (.act x (.append e)) = some p) (ht : t.pair = p)
    (hregisters : RegisterCluster.Agreeing mp t.registers)
    (hcounters : CounterCluster.Converging nodeID t.counters) : Converging c mp nodeID t := by
  subst ht
  refine ⟨fun y => (Pair.step_nodeID hp y).trans (h.named y), fun y => ?_, hregisters, hcounters⟩
  refine Pair.step_kept (h.kept y) ?_ hp
  rintro rfl
  exact ⟨trivial, hkeeps, trivial⟩

theorem Converging.append {k : ℕ} {bornAt : Int64} (h : Converging c mp nodeID s)
    (ha : Undisturbed c mp s (.append x k bornAt))
    (hstep : step c mp s (.append x k bornAt) = some t) : Converging c mp nodeID t := by
  have hne : (!x) ≠ x := by cases x <;> decide
  obtain ⟨o, ho, hstep⟩ := Option.bind_eq_some_iff.1 hstep
  have hagree : RegisterCluster.Agreeing mp
      (s.registers.setNode x ((s.registerNode x).append mp k o bornAt)) :=
    RegisterCluster.step_agreeing (a := .append x k bornAt) h.agreeing trivial
      (Option.map_eq_some_iff.2 ⟨o, ho, rfl⟩)
  cases he : o.logEntry mp bornAt with
  | none =>
      simp only [he] at hstep
      have ht := Option.some.inj hstep
      have hregisters : RegisterCluster.Agreeing mp t.registers := by
        refine hagree.congr ?_ (forall_side x RegisterNode.Alike.refl ?_ ?_)
        · exact (congrArg CallPair.issued ht).symm
        · rw [StepSystem.Cluster.nodes_setNode, if_neg hne]
          simp only [registers, registerNode, ← ht, Function.update_of_ne hne]
        · rw [StepSystem.Cluster.nodes_setNode, if_pos rfl]
          simp only [registers, registerNode, RegisterNode.append, ← ht, he, Function.update_self]
          exact ⟨rfl, rfl, rfl, rfl, rfl⟩
      have hpair : t.pair = s.pair := (congrArg CallPair.pair ht).symm
      refine ⟨hpair ▸ h.named, hpair ▸ h.kept, hregisters, ?_⟩
      rw [← ht]
      exact h.counting
  | some e =>
      simp only [he] at hstep
      obtain ⟨p, hp, ht⟩ := Option.map_eq_some_iff.1 hstep
      obtain ⟨hreplica, happended, hhanded, hpeer⟩ := Pair.step_appends hp
      have hop := op_logEntry he
      refine h.appends (ha o ho e he) hp (congrArg CallPair.pair ht).symm
        (hagree.congr ?_ (forall_side x RegisterNode.Alike.refl ?_ ?_))
        (h.counting.congr ?_ (forall_side x CounterNode.Alike.refl ?_ ?_))
      · exact (congrArg CallPair.issued ht).symm
      · rw [StepSystem.Cluster.nodes_setNode, if_neg hne]
        simp only [registers, registerNode, ← ht, Function.update_of_ne hne, hpeer]
      · rw [StepSystem.Cluster.nodes_setNode, if_pos rfl]
        simp only [registers, registerNode, RegisterNode.append, ← ht, he, Function.update_self,
          hreplica, happended, hhanded, numbered_concat, Option.elim_some, appendEntry]
        refine ⟨rfl, rfl, rfl, ?_, rfl⟩
        simp only [registerEntries_concat, if_neg hop]
        exact SameEntries.concat rfl e _ _
      · exact (congrArg CallPair.increments ht).symm
      · simp only [counters, counterNode, ← ht, hpeer]
      · simp only [counters, counterNode, ← ht, hreplica, happended, hhanded, numbered_concat,
          appendEntry, counterEntries_concat, if_neg hop]
        exact ⟨rfl, rfl, rfl, rfl, rfl⟩

theorem Converging.increment {key : GoString} {delta : ℤ} (h : Converging c mp nodeID s)
    (hinj : Function.Injective nodeID) (hcolon : ∀ x, colon ∉ nodeID x) (hdelta : 0 ≤ delta)
    (hstep : step c mp s (.increment x key delta) = some t) : Converging c mp nodeID t := by
  have hne : (!x) ≠ x := by cases x <;> decide
  have ht := Option.some.inj hstep
  have hpair : t.pair = s.pair.setReplica x
      ⟨((s.pair x).node.replica.store.increment key (s.pair x).node.nodeID delta).1,
        (s.pair x).node.replica.hlc⟩ := (congrArg CallPair.pair ht).symm
  have hcluster : CounterCluster.step nodeID mp s.counters (.increment x key delta) =
      some t.counters := by
    have hother : t.counterNode (!x) = s.counterNode (!x) := by
      simp only [← ht, counterNode, Pair.setReplica_not, Function.update_of_ne hne]
    rw [counters_eq_update hother, ← ht]
    simp only [counterNode, Pair.setReplica_self, Function.update_self, h.named]
    rfl
  refine h.setReplica hpair (getPeerSeq_increment _ _ _ _)
    (h.agreeing.congr ?_ (forall_side x RegisterNode.Alike.refl ?_ ?_))
    (CounterCluster.step_converging (a := .increment x key delta) hinj hcolon h.counting hdelta
      hcluster)
  · exact (congrArg CallPair.issued ht).symm
  · simp only [registers, registerNode, ← ht, Pair.setReplica_not]
  · have hadd := (s.pair x).node.replica.store.replicated_increment key (s.pair x).node.nodeID delta
    have hcache := congrArg Replicated.cache hadd
    simp only [registers, registerNode, ← ht, Pair.setReplica_self]
    exact ⟨hcache, rfl, rfl, rfl, rfl⟩

theorem Converging.getNodeCount {key : GoString} (h : Converging c mp nodeID s)
    (hinj : Function.Injective nodeID) (hcolon : ∀ x, colon ∉ nodeID x)
    (hstep : step c mp s (.getNodeCount x key) = some t) : Converging c mp nodeID t := by
  have hne : (!x) ≠ x := by cases x <;> decide
  simp only [step] at hstep
  split_ifs at hstep with hadded
  have ht := Option.some.inj hstep
  have hcluster : CounterCluster.step nodeID mp s.counters (.getNodeCount x key) =
      some t.counters := by
    have hother : t.counterNode (!x) = s.counterNode (!x) := by
      simp only [← ht, counterNode, Function.update_of_ne hne]
    rw [counters_eq_update hother, ← ht]
    simp only [counterNode, Function.update_self, h.named]
    exact if_pos hadded
  have hcounters := CounterCluster.step_converging (a := .getNodeCount x key) hinj hcolon h.counting
    trivial hcluster
  have hpair : t.pair = s.pair := (congrArg CallPair.pair ht).symm
  refine ⟨hpair ▸ h.named, hpair ▸ h.kept, ?_, hcounters⟩
  rw [← ht]
  exact h.agreeing

theorem Converging.tick (h : Converging c mp nodeID s) (x : Bool) (hlc : HLC) :
    Converging c mp nodeID
      { s with pair := s.pair.setReplica x ⟨(s.pair x).node.replica.store, hlc⟩ } := by
  refine h.setReplica rfl (fun _ => rfl)
    (h.agreeing.congr rfl (forall_side x RegisterNode.Alike.refl ?_ ?_))
    (h.counting.congr rfl (forall_side x CounterNode.Alike.refl ?_ ?_))
  · simp only [registers, registerNode, Pair.setReplica_not]
  · simp only [registers, registerNode, Pair.setReplica_self]
    exact ⟨rfl, rfl, rfl, rfl, rfl⟩
  · simp only [counters, counterNode, Pair.setReplica_not]
  · simp only [counters, counterNode, Pair.setReplica_self]
    exact ⟨rfl, rfl, rfl, rfl, rfl⟩

theorem Converging.appendCount {key : GoString} {nodeVal : ℚ} {wall bornAt : Int64}
    (h : Converging c mp nodeID s) (hinj : Function.Injective nodeID)
    (hcolon : ∀ x, colon ∉ nodeID x)
    (ha : Undisturbed c mp s (.appendCount x key nodeVal wall bornAt))
    (hstep : step c mp s (.appendCount x key nodeVal wall bornAt) = some t) :
    Converging c mp nodeID t := by
  have hne : (!x) ≠ x := by cases x <;> decide
  simp only [step] at hstep
  split_ifs at hstep with hread
  obtain ⟨p, hp, ht⟩ := Option.map_eq_some_iff.1 hstep
  have hcluster : CounterCluster.step nodeID mp s.counters (.append x key nodeVal wall bornAt) =
      some (s.counters.setNode x ((s.counterNode x).append key (nodeID x) nodeVal wall bornAt)) :=
    if_pos hread
  have hconverging := CounterCluster.step_converging (a := .append x key nodeVal wall bornAt) hinj
    hcolon h.counting trivial hcluster
  obtain ⟨hreplica, happended, hhanded, hpeer⟩ := Pair.step_appends hp
  rw [Pair.setReplica_self] at hreplica happended hhanded
  rw [Pair.setReplica_not] at hpeer
  refine (h.tick x ((s.pair x).node.replica.hlc.now wall).1).appends ?_ hp
    (congrArg CallPair.pair ht).symm (h.agreeing.congr ?_ (forall_side x RegisterNode.Alike.refl
      ?_ ?_)) (hconverging.congr ?_ (forall_side x CounterNode.Alike.refl ?_ ?_))
  · dsimp only
    rw [Pair.setReplica_self]
    exact ha
  · exact (congrArg CallPair.issued ht).symm
  · simp only [registers, registerNode, ← ht, hpeer]
  · simp only [registers, registerNode, ← ht, hreplica, happended, hhanded,
      numbered_concat, appendEntry, registerEntries_concat]
    exact ⟨rfl, rfl, rfl, rfl, rfl⟩
  · exact (congrArg CallPair.increments ht).symm
  · rw [StepSystem.Cluster.nodes_setNode, if_neg hne]
    simp only [counters, counterNode, ← ht, Function.update_of_ne hne, hpeer]
  · rw [StepSystem.Cluster.nodes_setNode, if_pos rfl]
    simp only [counters, counterNode, CounterNode.append, ← ht, Function.update_self,
      hreplica, happended, hhanded, numbered_concat, appendEntry, counterEntries_concat]
    refine ⟨rfl, rfl, rfl, ?_, rfl⟩
    rw [← h.named x]
    exact SameEntries.concat rfl _ _ _

theorem step_applies {p : Pair V} {k : ℕ} {wall : Int64} (hkept : Pair.Kept c x s.pair)
    (haccepts : s.pair.Accepts c (.apply x k wall))
    (hp : s.pair.step c mp (.apply x k wall) = some p) :
    ∃ e ∈ numbered (s.pair x).appended,
      (s.pair (!x)).node.replica.hlc.smash wall e.ts = false ∧
      p (!x) = { s.pair (!x) with
        node := { (s.pair (!x)).node with
          replica := applyRemoteEntry mp (s.pair (!x)).node.replica wall e }
        handed := (s.pair (!x)).handed ++ [e] } ∧
      p x = { s.pair x with link := (s.pair x).link.applied k } := by
  obtain ⟨raw, hraw, hset⟩ := Pair.step_apply hp
  obtain ⟨q, -, henc⟩ := Link.forall_unapplied_nextEntry hkept.sender.unapplied hraw
  obtain ⟨e, he, hdecode⟩ := hkept.sender.faithful.unmarshal henc
  refine ⟨e, ?_, haccepts raw hraw e hdecode, ?_, ?_⟩
  · obtain ⟨e₀, he₀, rfl⟩ := Option.map_eq_some_iff.1 he
    refine List.mem_of_getElem? (i := q - 1) ?_
    rw [getElem?_numbered, he₀, Option.map_some, Nat.sub_add_cancel henc.1]
  · rw [hset, Pair.set_peer, Side.applyRaw, hdecode]
  · rw [hset, Pair.set_self]

theorem Converging.deliverCount {p : Pair V} {e : LogEntry} {wall : Int64}
    (h : Converging c mp nodeID s) (hinj : Function.Injective nodeID)
    (hcolon : ∀ x, colon ∉ nodeID x) (hop : e.op = .incr)
    (he : e ∈ numbered (s.pair x).appended)
    (haccept : (s.pair (!x)).node.replica.hlc.smash wall e.ts = false)
    (hpeer : p (!x) = { s.pair (!x) with
        node := { (s.pair (!x)).node with
          replica := applyRemoteEntry mp (s.pair (!x)).node.replica wall e }
        handed := (s.pair (!x)).handed ++ [e] })
    (hself : (p x).node.replica = (s.pair x).node.replica ∧ (p x).appended = (s.pair x).appended ∧
      (p x).handed = (s.pair x).handed) :
    RegisterCluster.Agreeing mp (registers { s with pair := p }) ∧
      CounterCluster.Converging nodeID (counters { s with pair := p }) := by
  have hne : (!x) ≠ x := by cases x <;> decide
  obtain ⟨hreplica, happended, hhanded⟩ := hself
  constructor
  · refine h.agreeing.congr rfl (forall_side (!x) RegisterNode.Alike.refl ?_ ?_)
    · simp only [registers, registerNode, Bool.not_not, hreplica, happended, hhanded]
    · have happly : _ = Replicated.apply mp _ e := replicated_applyRemoteEntry_of_accept haccept
      rw [Replicated.apply, hop] at happly
      have hcache := congrArg Replicated.cache happly
      rw [Replicated.cache_raise] at hcache
      simp only [registers, registerNode, hpeer, registerEntries_concat, if_pos hop]
      exact ⟨hcache, rfl, rfl, rfl, rfl⟩
  · have hmem : e ∈ (s.counters.nodes x).log := List.mem_filter.2 ⟨he, by simp [hop]⟩
    have hcluster : CounterCluster.step nodeID mp s.counters (.deliver (!x) x e wall) =
        some (counters { s with pair := p }) := by
      have hother : counterNode { s with pair := p } (!(!x)) = s.counterNode (!(!x)) := by
        simp only [Bool.not_not, counterNode, hreplica, happended, hhanded]
      rw [counters_eq_update hother]
      refine (if_pos ⟨hne, hmem⟩).trans ?_
      simp only [counterNode, hpeer, CounterNode.deliver, counters, haccept,
        counterEntries_concat, if_pos hop, List.map_append, List.reverse_append]
      simp
      rfl
    exact CounterCluster.step_converging (a := .deliver (!x) x e wall) hinj hcolon h.counting
      trivial hcluster

theorem Converging.deliverRegister {p : Pair V} {e : LogEntry} {wall : Int64}
    (h : Converging c mp nodeID s) (hop : e.op ≠ .incr) (he : e ∈ numbered (s.pair x).appended)
    (haccept : (s.pair (!x)).node.replica.hlc.smash wall e.ts = false)
    (hpeer : p (!x) = { s.pair (!x) with
        node := { (s.pair (!x)).node with
          replica := applyRemoteEntry mp (s.pair (!x)).node.replica wall e }
        handed := (s.pair (!x)).handed ++ [e] })
    (hself : (p x).node.replica = (s.pair x).node.replica ∧ (p x).appended = (s.pair x).appended ∧
      (p x).handed = (s.pair x).handed) :
    RegisterCluster.Agreeing mp (registers { s with pair := p }) ∧
      CounterCluster.Converging nodeID (counters { s with pair := p }) := by
  have hne : (!x) ≠ x := by cases x <;> decide
  obtain ⟨hreplica, happended, hhanded⟩ := hself
  have hmem : e ∈ (s.registers.nodes x).log := List.mem_filter.2 ⟨he, by simp [hop]⟩
  constructor
  · obtain ⟨k, hk⟩ := List.getElem?_of_mem hmem
    have hcluster : RegisterCluster.step mp s.registers (.deliver (!x) x k wall) =
        some (registers { s with pair := p }) := by
      have hother : registerNode { s with pair := p } (!(!x)) = s.registerNode (!(!x)) := by
        simp only [Bool.not_not, registerNode, hreplica, happended, hhanded]
      rw [registers_eq_update hother]
      simp only [RegisterCluster.step, if_pos hne, hk, Option.map_some]
      simp only [registerNode, hpeer, RegisterNode.deliver, registers, haccept,
        registerEntries_concat, if_neg hop, List.map_append, List.reverse_append]
      simp
      rfl
    exact RegisterCluster.step_agreeing (a := .deliver (!x) x k wall) h.agreeing trivial hcluster
  · obtain ⟨o, -, hreplays⟩ := (h.agreeing.faithful x).entries e hmem
    have happly : _ = Replicated.apply mp _ e := replicated_applyRemoteEntry_of_accept haccept
    rw [hreplays.apply_eq] at happly
    have hcounts := congrArg Replicated.counts happly
    have haggregates := congrArg Replicated.aggregateCounts happly
    refine h.counting.congr rfl (forall_side (!x) CounterNode.Alike.refl ?_ ?_)
    · simp only [counters, counterNode, Bool.not_not, hreplica, happended, hhanded]
    · simp only [counters, counterNode, hpeer, counterEntries_concat, if_neg hop]
      exact ⟨hcounts, haggregates, rfl, rfl, rfl⟩

/-- A step of the transport leaves the two clusters alone, or delivers an entry in one of them. -/
theorem Converging.transport {a : PairAction} (h : Converging c mp nodeID s)
    (hinj : Function.Injective nodeID) (hcolon : ∀ x, colon ∉ nodeID x)
    (ha : Undisturbed c mp s (.transport a)) (hstep : step c mp s (.transport a) = some t) :
    Converging c mp nodeID t := by
  simp only [step] at hstep
  split_ifs at hstep with happends
  obtain ⟨p, hp, rfl⟩ := Option.map_eq_some_iff.1 hstep
  have happends := Bool.eq_false_iff.2 happends
  have hboth : RegisterCluster.Agreeing mp (registers { s with pair := p }) ∧
      CounterCluster.Converging nodeID (counters { s with pair := p }) := by
    have hframe (hy : ∀ y k wall, a ≠ .apply (!y) k wall) :
        registers { s with pair := p } = s.registers ∧
          counters { s with pair := p } = s.counters := by
      have hside (y : Bool) := Pair.step_frame hp happends (hy y)
      have hregister : registerNode { s with pair := p } = s.registerNode := by
        funext y
        simp only [registerNode, (hside y).1, (hside y).2.1, (hside y).2.2]
      have hcounter : counterNode { s with pair := p } = s.counterNode := by
        funext y
        simp only [counterNode, (hside y).1, (hside y).2.1, (hside y).2.2]
      simp only [registers, counters, hregister, hcounter, and_self]
    cases a with
    | act x b =>
        rw [(hframe (fun _ _ _ heq => by cases heq)).1, (hframe (fun _ _ _ heq => by cases heq)).2]
        exact ⟨h.agreeing, h.counting⟩
    | deliver x k =>
        rw [(hframe (fun _ _ _ heq => by cases heq)).1, (hframe (fun _ _ _ heq => by cases heq)).2]
        exact ⟨h.agreeing, h.counting⟩
    | apply x k wall =>
        obtain ⟨e, he, haccept, hpeer, hself⟩ := step_applies (h.kept x) ha.2 hp
        have hsame : (p x).node.replica = (s.pair x).node.replica ∧
            (p x).appended = (s.pair x).appended ∧ (p x).handed = (s.pair x).handed := by
          rw [hself]
          exact ⟨rfl, rfl, rfl⟩
        by_cases hop : e.op = .incr
        · exact h.deliverCount hinj hcolon hop he haccept hpeer hsame
        · exact h.deliverRegister hop he haccept hpeer hsame
  exact ⟨fun y => (Pair.step_nodeID hp y).trans (h.named y),
    fun y => Pair.step_kept (h.kept y) (ha.1 y) hp, hboth.1, hboth.2⟩

theorem Converging.step {a : CallPairAction V} (h : Converging c mp nodeID s)
    (hinj : Function.Injective nodeID) (hcolon : ∀ x, colon ∉ nodeID x)
    (ha : Undisturbed c mp s a) (hstep : step c mp s a = some t) : Converging c mp nodeID t := by
  cases a with
  | stamp x call wall => exact h.stamp ha hstep
  | store x k => exact h.store hstep
  | append x k bornAt => exact h.append ha hstep
  | increment x key delta => exact h.increment hinj hcolon ha hstep
  | getNodeCount x key => exact h.getNodeCount hinj hcolon hstep
  | appendCount x key nodeVal wall bornAt => exact h.appendCount hinj hcolon ha hstep
  | transport a => exact h.transport hinj hcolon ha hstep

end Steps

/-- Nothing is left to do: no call is under way, nothing is in flight, and each cursor is at the end
of a log that has dropped nothing. -/
structure Quiet (s : CallPair V) : Prop where
  stamped : ∀ x, s.stamped x = []
  stored : ∀ x, s.stored x = []
  pending : ∀ x, s.pending x = []
  flight : ∀ x, ∀ cc ∈ (s.pair x).link.conns, cc.inflight = [] ∧ cc.applying = []
  cursor : ∀ x, (s.pair x).node.log.head = 1 ∨
    (s.pair x).node.peerSeqs (s.pair (!x)).node.nodeID = some ((s.pair x).node.log.head - 1)
  earliest : ∀ x, (s.pair x).node.log.earliest = 1

section Quiet

variable {nodeID : Bool → GoString}

theorem Quiet.handed (hquiet : s.Quiet) (h : Converging c mp nodeID s) {x : Bool} {e : LogEntry}
    (he : e ∈ numbered (s.pair x).appended) : e ∈ (s.pair (!x)).handed := by
  obtain ⟨k, hk⟩ := List.getElem?_of_mem he
  rw [getElem?_numbered] at hk
  exact (h.kept x).handed (hquiet.flight x) (hquiet.cursor x) (hquiet.earliest x)
    (Nat.le_add_left 1 k) hk

theorem Quiet.settled (hquiet : s.Quiet) (h : Converging c mp nodeID s) :
    RegisterCluster.Settled s.registers := by
  refine ⟨hquiet.stamped, hquiet.stored, ?_⟩
  intro i j hij e he
  obtain rfl : i = !j := Bool.eq_not_of_ne hij
  obtain ⟨he, hop⟩ := List.mem_filter.1 he
  apply List.mem_reverse.2
  rw [List.mem_map]
  exact ⟨e, List.mem_filter.2 ⟨hquiet.handed h he, hop⟩, by rw [Bool.not_not]⟩

theorem Quiet.cache_eq (hquiet : s.Quiet) (h : Converging c mp nodeID s) (key : GoString) :
    ((s.pair false).node.replica.store.getShard key).cache key =
      ((s.pair true).node.replica.store.getShard key).cache key := by
  have hreaches := h.agreeing.reaches (hquiet.settled h)
  have hcache : (s.registerNode false).cache = (s.registerNode true).cache :=
    (h.agreeing.faithful false).cache_eq (hreaches false) (h.agreeing.faithful true)
      (hreaches true) h.agreeing.tieless
  exact congrFun hcache (Store.slot key)

theorem Quiet.received (hquiet : s.Quiet) (h : Converging c mp nodeID s) {i j : Bool} (hij : i ≠ j)
    {e : LogEntry} (he : e ∈ (s.counters.nodes j).log) :
    (j, e) ∈ (s.counters.nodes i).received := by
  obtain rfl : i = !j := Bool.eq_not_of_ne hij
  obtain ⟨he, hop⟩ := List.mem_filter.1 he
  apply List.mem_reverse.2
  rw [List.mem_map]
  exact ⟨e, List.mem_filter.2 ⟨hquiet.handed h he, hop⟩, by rw [Bool.not_not]⟩

end Quiet

/-- Whatever the two nodes are called with and however their steps interleave, when there is nothing
left to do they serve the same value for every key, and the count of every key is what both of them
have been incremented by. -/
theorem quiet_agree [Rounding] (c : Codec) (mp : Msgpack V) {nodeID : Bool → GoString}
    (hinj : Function.Injective nodeID) (hcolon : ∀ x, colon ∉ nodeID x) (authToken : GoString)
    (hlc : Bool → HLC) (capacity : Bool → ℕ) {as : List (CallPairAction V)}
    (hundisturbed : StepSystem.Along (step c mp) (Undisturbed c mp)
      (initial nodeID authToken hlc capacity) as)
    (hexact : StepSystem.Along (step c mp) (Exact c) (initial nodeID authToken hlc capacity) as)
    (hrun : StepSystem.run (step c mp) (initial nodeID authToken hlc capacity) as = some s)
    (hquiet : s.Quiet) (key : GoString) :
    (∀ now, (s.pair false).node.replica.store.get key now =
        (s.pair true).node.replica.store.get key now) ∧
      ∀ x, (s.pair x).node.replica.store.getAggregateCount key =
        ((s.increments.map (fun p => if p.2.1 = key then p.2.2 else 0)).sum : ℤ) := by
  rw [StepSystem.run_of_step_eq step_of_exact hexact] at hrun
  have hundisturbed := StepSystem.along_of_step_eq step_of_exact hexact hundisturbed
  have h : Converging c mp nodeID s := StepSystem.run_invariant_along
    (fun _ _ _ h ha hstep => h.step hinj hcolon ha hstep)
    (initial_converging c mp nodeID authToken hlc capacity) hundisturbed hrun
  constructor
  · intro now
    unfold Store.get
    rw [hquiet.cache_eq h]
  · intro x
    refine (h.counting.ledger.aggregate_eq x key).trans ?_
    have htotal := CounterCluster.sum_issuedBy s.counters key
    rw [CounterCluster.issuedTotal] at htotal
    change _ = (((s.counters.issued.map _).sum : ℤ) : ℚ)
    rw [← htotal, Int.cast_sum]
    apply Finset.sum_congr rfl
    intro j _
    by_cases hxj : x = j
    · subst hxj
      exact h.counting.ledger.own x key
    · refine h.counting.count_eq (hquiet.pending j) (fun e he hkey => ?_)
      exact ⟨(j, e), hquiet.received h hxj he, rfl, hkey, le_rfl⟩

section Decidable

variable [DecidableEq V]

instance (mp : Msgpack V) (v : Option V) : Decidable (mp.RoundTrips v) :=
  decidable_of_iff (∃ bin ∈ mp.marshal v, mp.unmarshal bin = v) Iff.rfl

instance (mp : Msgpack V) : (call : RegisterCall V) → Decidable (call.RoundTrips mp)
  | .set _ value => inferInstanceAs (Decidable (mp.RoundTrips value))
  | .delete _ => isTrue trivial

instance (c : Codec) (mp : Msgpack V) (s : CallPair V) :
    (a : CallPairAction V) → Decidable (Undisturbed c mp s a)
  | .stamp _ call _ => inferInstanceAs (Decidable (call.RoundTrips mp ∧ ∀ p ∈ s.issued, _))
  | .store _ _ | .getNodeCount _ _ => isTrue trivial
  | .append x k _ => inferInstanceAs (Decidable (∀ o ∈ (s.stored x)[k]?, _))
  | .increment _ _ delta => inferInstanceAs (Decidable (0 ≤ delta))
  | .appendCount x key nodeVal wall bornAt =>
      inferInstanceAs (Decidable ((s.pair x).KeepsBytes c (.append (incrLogEntry
        ((s.pair x).node.replica.hlc.now wall).2 bornAt key (s.pair x).node.nodeID nodeVal))))
  | .transport _ => inferInstanceAs (Decidable (_ ∧ _))

end Decidable

instance (s : CallPair V) : Decidable s.Quiet :=
  decidable_of_iff ((∀ x, s.stamped x = []) ∧ (∀ x, s.stored x = []) ∧ (∀ x, s.pending x = []) ∧
      (∀ x, ∀ cc ∈ (s.pair x).link.conns, cc.inflight = [] ∧ cc.applying = []) ∧
      (∀ x, (s.pair x).node.log.head = 1 ∨
        (s.pair x).node.peerSeqs (s.pair (!x)).node.nodeID =
          some ((s.pair x).node.log.head - 1)) ∧
      ∀ x, (s.pair x).node.log.earliest = 1)
    ⟨fun h => ⟨h.1, h.2.1, h.2.2.1, h.2.2.2.1, h.2.2.2.2.1, h.2.2.2.2.2⟩,
      fun h => ⟨h.1, h.2, h.3, h.4, h.5, h.6⟩⟩

section Float64

attribute [local instance] Rounding.nearest

/-- One node sets a key and the other one deletes it, and both increment a counter. -/
def crossingCalls : List (CallPairAction UInt8) :=
  [.stamp false (.set (bytes "k") (some 1)) 10, .increment true (bytes "n") 3,
    .stamp true (.delete (bytes "k")) 11, .increment false (bytes "n") 2, .store true 0,
    .append true 0 0, .getNodeCount false (bytes "n"), .store false 0, .append false 0 0,
    .getNodeCount true (bytes "n"), .appendCount false (bytes "n") 2 12 0,
    .appendCount true (bytes "n") 3 13 0]

def crossingSteps : List PairAction :=
  [.act false .startPeerReplicator, .act true .startPeerReplicator] ++ Pair.drawRun false ++
    Pair.writeRun false ++ Pair.readRun false 0 20 ++ [.apply false 0 20] ++ Pair.drawRun true ++
    Pair.writeRun true ++ Pair.readRun true 0 21 ++ [.apply true 0 21]

def crossingRun : List (CallPairAction UInt8) := crossingCalls ++ crossingSteps.map .transport

def naturalCodec : Codec :=
  wireCodec (MessagePack.readers (fun b => b.toNat)) _
    (MessagePack.sized_appenders (fun q => UInt64.ofNat q.num.toNat)) (fun _ => true)

theorem crossingRun_isSome : (StepSystem.run (step naturalCodec byteMsgpack)
    (initial twoNodeIDs [] (fun _ => newHLC 9) (fun _ => 8)) crossingRun).isSome = true := by
  decide +kernel

theorem quiet_agree_crossing :
    ∃ s, StepSystem.run (step naturalCodec byteMsgpack)
        (initial twoNodeIDs [] (fun _ => newHLC 9) (fun _ => 8)) crossingRun = some s ∧
      ∀ key, (∀ now, (s.pair false).node.replica.store.get key now =
          (s.pair true).node.replica.store.get key now) ∧
        ∀ x, (s.pair x).node.replica.store.getAggregateCount key =
          ((s.increments.map (fun p => if p.2.1 = key then p.2.2 else 0)).sum : ℤ) := by
  refine ⟨_, (Option.some_get crossingRun_isSome).symm, ?_⟩
  exact quiet_agree naturalCodec byteMsgpack (by decide) (by decide) [] (fun _ => newHLC 9)
    (fun _ => 8) (by decide +kernel) (by decide +kernel)
    (Option.some_get crossingRun_isSome).symm (by decide +kernel)

end Float64

end CallPair

end Capacitor
