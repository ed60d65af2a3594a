import Capacitor.EndToEnd

/-!
# Values that change in transit

A value that a node has decoded need not be the one that was set: it may come back with another Go
type. Nothing but the readers and the serialisation looks into a value, so the nodes may as well
hold what is to be seen of it. `map` replaces every value by its image under a function and commutes
with every step, which carries what holds of the images over to the values.
-/

namespace Capacitor

variable {V W : Type*} {f : V → W}

def ValWithTS.map (f : V → W) (e : ValWithTS V) : ValWithTS W :=
  ⟨e.value.map f, e.timestamp, e.expiresAt, e.deleted⟩

def StoreShard.map (f : V → W) (s : StoreShard V) : StoreShard W where
  cache key := (s.cache key).map (ValWithTS.map f)
  counts := s.counts
  aggregateCounts := s.aggregateCounts
  windows := s.windows
  dirty := s.dirty
  peerSeqs := s.peerSeqs

theorem StoreShard.map_put (s : StoreShard V) (key : GoString) (e : ValWithTS V) :
    (s.put key e).map f = (s.map f).put key (e.map f) := by
  have hwins : (∃ existing ∈ (s.map f).cache key,
      existing.timestamp.greaterOrEqual (e.map f).timestamp) ↔
      ∃ existing ∈ s.cache key, existing.timestamp.greaterOrEqual e.timestamp := by
    simp only [StoreShard.map, Option.mem_def, Option.map_eq_some_iff]
    constructor
    · rintro ⟨_, ⟨existing, hexisting, rfl⟩, hge⟩
      exact ⟨existing, hexisting, hge⟩
    · rintro ⟨existing, hexisting, hge⟩
      exact ⟨_, ⟨existing, hexisting, rfl⟩, hge⟩
  unfold put
  by_cases h : ∃ existing ∈ s.cache key, existing.timestamp.greaterOrEqual e.timestamp
  · rw [if_pos h, if_pos (hwins.2 h)]
  · rw [if_neg h, if_neg (mt hwins.1 h)]
    simp only [StoreShard.map, StoreShard.mk.injEq, and_true]
    funext k
    simp only [Function.update_apply]
    split_ifs <;> rfl

namespace Store

def map (f : V → W) (s : Store V) : Store W := ⟨fun i => (s.shards i).map f⟩

theorem map_modifyShard (s : Store V) (key : GoString) {g : StoreShard V → StoreShard V}
    {g' : StoreShard W → StoreShard W} (hg : ∀ shard, (g shard).map f = g' (shard.map f)) :
    (s.modifyShard key g).map f = (s.map f).modifyShard key g' := by
  refine congrArg Store.mk (funext fun i => ?_)
  refine Eq.trans ?_ (shards_modifyShard (s.map f) key g' i).symm
  rw [shards_modifyShard]
  split_ifs
  · exact hg _
  · rfl

theorem map_set (s : Store V) (key : GoString) (value : Option V) (ts : Timestamp) (ttl : Int64) :
    (s.set key value ts ttl).map f = (s.map f).set key (value.map f) ts ttl :=
  s.map_modifyShard key (fun shard => shard.map_put key (setEntry value ts ttl))

theorem map_delete (s : Store V) (key : GoString) (ts : Timestamp) :
    (s.delete key ts).map f = (s.map f).delete key ts :=
  s.map_modifyShard key (fun shard => shard.map_put key (tombstone ts))

theorem map_increment (s : Store V) (key nodeID : GoString) (delta : ℚ) :
    (s.increment key nodeID delta).1.map f = ((s.map f).increment key nodeID delta).1 := by
  simp only [increment]
  exact s.map_modifyShard key (fun _ => rfl)

theorem map_setNodeCount (s : Store V) (key nodeID : GoString) (val : ℚ) :
    (s.setNodeCount key nodeID val).map f = (s.map f).setNodeCount key nodeID val := by
  have hcount : (s.map f).getNodeCount key nodeID = s.getNodeCount key nodeID := rfl
  unfold setNodeCount
  rw [hcount]
  split_ifs
  · exact s.map_modifyShard key (fun _ => rfl)
  · rfl

theorem map_incrementMetric (s : Store V) (key nodeID : GoString) (delta : ℚ) :
    (s.incrementMetric key nodeID delta).1.map f =
      ((s.map f).incrementMetric key nodeID delta).1 := by
  simp only [incrementMetric]
  exact s.map_modifyShard key (fun _ => rfl)

theorem map_addWindowTimestamp (s : Store V) (key : GoString) (ts : Int64) :
    (s.addWindowTimestamp key ts).map f = (s.map f).addWindowTimestamp key ts := by
  have hwindow : (s.map f).getWindow key = s.getWindow key := rfl
  unfold addWindowTimestamp
  rw [hwindow]
  cases windowIndex ts (s.getWindow key) with
  | none => rfl
  | some idx => exact s.map_modifyShard key (fun _ => rfl)

theorem map_updatePeerSeq (s : Store V) (nodeID : GoString) (seq : ℕ) :
    (s.updatePeerSeq nodeID seq).map f = (s.map f).updatePeerSeq nodeID seq := by
  have hseq : (s.map f).getPeerSeq nodeID = s.getPeerSeq nodeID := rfl
  unfold updatePeerSeq
  rw [hseq]
  split_ifs
  · exact s.map_modifyShard (peerSeqKey nodeID) (fun _ => rfl)
  · rfl

theorem map_get (s : Store V) (key : GoString) (now : Int64) :
    (s.map f).get key now = (s.get key now).map f := by
  have hcache : ((s.map f).getShard key).cache key =
      ((s.getShard key).cache key).map (ValWithTS.map f) := rfl
  unfold get
  rw [hcache]
  cases (s.getShard key).cache key with
  | none => rfl
  | some e =>
      have hlive : live (e.map f) now = live e now := rfl
      simp only [Option.map_some, hlive]
      split_ifs <;> rfl

theorem map_exists (s : Store V) (key : GoString) (now : Int64) :
    (s.map f).exists? key now = s.exists? key now := by
  have hcache : ((s.map f).getShard key).cache key =
      ((s.getShard key).cache key).map (ValWithTS.map f) := rfl
  unfold exists?
  rw [hcache]
  cases (s.getShard key).cache key <;> rfl

end Store

/-- The serialisation of the images does to them what the serialisation of the values does to
these. -/
structure Msgpack.Carries (mp : Msgpack V) (f : V → W) (mp' : Msgpack W) : Prop where
  marshal : ∀ v, mp'.marshal (v.map f) = mp.marshal v
  unmarshal : ∀ bin, mp'.unmarshal bin = (mp.unmarshal bin).map f

def Replica.map (f : V → W) (r : Replica V) : Replica W := ⟨r.store.map f, r.hlc⟩

section Replica

variable {mp : Msgpack V} {mp' : Msgpack W}

theorem map_applyOp (hmp : mp.Carries f mp') (s : Store V) (e : LogEntry) :
    (applyOp mp s e).map f = applyOp mp' (s.map f) e := by
  unfold applyOp
  cases e.op with
  | set =>
      rw [hmp.unmarshal]
      exact s.map_set e.key _ e.ts _
  | incr => exact s.map_setNodeCount e.key e.nodeID e.delta
  | metric => exact s.map_incrementMetric e.key e.nodeID e.delta
  | window => exact s.map_addWindowTimestamp e.key e.ts.physical
  | delete => exact s.map_delete e.key e.ts
  | unknown code => rfl

theorem map_applyRemoteEntry (hmp : mp.Carries f mp') (r : Replica V) (wall : Int64)
    (e : LogEntry) :
    (applyRemoteEntry mp r wall e).map f = applyRemoteEntry mp' (r.map f) wall e := by
  cases h : r.hlc.smash wall e.ts with
  | true =>
      have h' : (r.map f).hlc.smash wall e.ts = true := h
      rw [applyRemoteEntry_of_smash h, applyRemoteEntry_of_smash h']
  | false =>
      have h' : (r.map f).hlc.smash wall e.ts = false := h
      rw [applyRemoteEntry_of_accept h, applyRemoteEntry_of_accept h']
      have hstore := ((applyOp mp r.store e).map_updatePeerSeq e.nodeID e.seq).trans
        (congrArg (fun s => s.updatePeerSeq e.nodeID e.seq) (map_applyOp hmp r.store e))
      exact congrArg (fun s => Replica.mk s (r.hlc.merge wall e.ts)) hstore

end Replica

def Node.map (f : V → W) (n : Node V) : Node W where
  nodeID := n.nodeID
  authToken := n.authToken
  replica := n.replica.map f
  log := n.log
  peerSeqs := n.peerSeqs

namespace Side

def map (f : V → W) (d : Side V) : Side W where
  node := d.node.map f
  running := d.running
  calls := d.calls
  link := d.link
  appended := d.appended
  sent := d.sent
  reported := d.reported
  handed := d.handed

theorem map_act (c : Codec) (peer : GoString) (d : Side V) (a : SideAction) :
    (d.map f).act c peer a = (d.act c peer a).map (Side.map f) := by
  have hcalls : (d.map f).calls = d.calls := rfl
  have hrunning : (d.map f).running = d.running := rfl
  cases a with
  | append e =>
      simp only [act, Option.map_map]
      rfl
  | checkStop =>
      simp only [act, hrunning]
      cases d.running <;> rfl
  | getEntriesRaw k =>
      simp only [act, hcalls]
      cases d.calls[k]? with
      | none => rfl
      | some call =>
          cases call with
          | loaded lastSeq =>
              simp only [Option.map_map]
              rfl
          | _ => rfl
  | sendBatch k outcome =>
      simp only [act, hcalls]
      cases d.calls[k]? with
      | none => rfl
      | some call =>
          cases call with
          | sending p lastSeenRemote =>
              simp only [Option.map_map]
              refine congrArg (fun g => Option.map g _) (funext fun r => ?_)
              simp only [Function.comp_apply]
              split_ifs <;> rfl
          | _ => rfl
  | wake k | seed k | loadOrStore k | lastSeen k | store k =>
      simp only [act, hcalls]
      cases d.calls[k]? with
      | none => rfl
      | some call => cases call <;> rfl
  | breakConn k | closeConn | startPeerReplicator | stopPeerReplicator => rfl

theorem map_greet (d : Side V) (firstBatch : Bool) (b : Batch) :
    (d.map f).greet firstBatch b = (d.greet firstBatch b).map (Side.map f) := by
  unfold greet Node.handleHandshake
  cases b.handshake with
  | none =>
      simp only [Option.map_map]
      have htoken : (d.map f).node.authToken = d.node.authToken := rfl
      rw [htoken]
      split_ifs <;> rfl
  | some hs =>
      simp only [Option.map_map]
      have htoken : (d.map f).node.authToken = d.node.authToken := rfl
      rw [htoken]
      split_ifs <;> rfl

theorem map_applyRaw {mp : Msgpack V} {mp' : Msgpack W} (hmp : mp.Carries f mp') (c : Codec)
    (wall : Int64) (d : Side V) (raw : GoString) :
    (d.map f).applyRaw c mp' wall raw = (d.applyRaw c mp wall raw).map f := by
  unfold applyRaw
  cases c.unmarshalMsg raw with
  | none => rfl
  | some e =>
      have happly := map_applyRemoteEntry hmp d.node.replica wall e
      simp only [map, Node.map, happly]

end Side

namespace Pair

def map (f : V → W) (s : Pair V) : Pair W := fun x => (s x).map f

theorem map_update (s : Pair V) (x : Bool) (d : Side V) :
    Pair.map f (Function.update s x d) = Function.update (s.map f) x (d.map f) := by
  funext y
  simp only [map, Function.update_apply]
  split_ifs <;> rfl

theorem map_set (s : Pair V) (x : Bool) (link : Link) (d : Side V) :
    (s.set x link d).map f = (s.map f).set x link (d.map f) := by
  unfold set
  rw [map_update, map_update]
  rfl

theorem map_setReplica (s : Pair V) (x : Bool) (r : Replica V) :
    (s.setReplica x r).map f = (s.map f).setReplica x (r.map f) :=
  s.map_update x _

theorem map_deliver (s : Pair V) (x : Bool) (k : ℕ) :
    (s.map f).deliver x k = (s.deliver x k).map (Pair.map f) := by
  unfold deliver
  rw [Option.map_map]
  refine congrArg (fun g => Option.map g _) (funext fun p => ?_)
  simp only [Function.comp_apply]
  have hgreet := (s (!x)).map_greet (f := f) p.1 p.2
  cases h : (s (!x)).greet p.1 p.2 with
  | none =>
      rw [h] at hgreet
      rw [map, hgreet]
      exact (s.map_set x _ _).symm
  | some d =>
      rw [h] at hgreet
      rw [map, hgreet]
      exact (s.map_set x _ _).symm

variable {mp : Msgpack V} {mp' : Msgpack W}

theorem map_step (hmp : mp.Carries f mp') (c : Codec) (s : Pair V) (a : PairAction) :
    (s.map f).step c mp' a = (s.step c mp a).map (Pair.map f) := by
  cases a with
  | act x a =>
      have hact := (s x).map_act (f := f) c (s (!x)).node.nodeID a
      simp only [step, Option.map_map]
      refine (congrArg (Option.map _) hact).trans ?_
      rw [Option.map_map]
      exact congrArg (fun g => Option.map g _) (funext fun d => (s.map_update x d).symm)
  | deliver x k => exact s.map_deliver x k
  | apply x k wall =>
      simp only [step, apply, Option.map_map]
      refine congrArg (fun g => Option.map g _) (funext fun raw => ?_)
      simp only [Function.comp_apply]
      rw [map_set, ← Side.map_applyRaw hmp]
      rfl

end Pair

def RegisterOp.map (f : V → W) : RegisterOp V → RegisterOp W
  | .set key value ts ttl => .set key (value.map f) ts ttl
  | .delete key ts => .delete key ts

def RegisterCall.map (f : V → W) : RegisterCall V → RegisterCall W
  | .set key value => .set key (value.map f)
  | .delete key => .delete key

section Operations

theorem RegisterCall.map_stamped (call : RegisterCall V) (ts : Timestamp) :
    (call.map f).stamped ts = (call.stamped ts).map f := by
  cases call <;> rfl

theorem RegisterOp.map_apply (s : Store V) (o : RegisterOp V) :
    (o.apply s).map f = (o.map f).apply (s.map f) := by
  cases o with
  | set key value ts ttl => exact s.map_set key value ts ttl
  | delete key ts => exact s.map_delete key ts

theorem RegisterOp.map_entry (o : RegisterOp V) : (o.map f).entry = o.entry.map f := by
  cases o <;> rfl

theorem RegisterOp.map_key (o : RegisterOp V) : (o.map f).key = o.key := by
  cases o <;> rfl

theorem RegisterOp.map_ts (o : RegisterOp V) : (o.map f).ts = o.ts := by
  cases o <;> rfl

theorem RegisterOp.map_logEntry {mp : Msgpack V} {mp' : Msgpack W} (hmp : mp.Carries f mp')
    (bornAt : Int64) (o : RegisterOp V) : (o.map f).logEntry mp' bornAt = o.logEntry mp bornAt := by
  cases o with
  | set key value ts ttl =>
      simp only [RegisterOp.map, RegisterOp.logEntry]
      rw [hmp.marshal]
  | delete key ts => rfl

end Operations

def CallPairAction.map (f : V → W) : CallPairAction V → CallPairAction W
  | .stamp x call wall => .stamp x (call.map f) wall
  | .store x k => .store x k
  | .append x k bornAt => .append x k bornAt
  | .increment x key delta => .increment x key delta
  | .getNodeCount x key => .getNodeCount x key
  | .appendCount x key nodeVal wall bornAt => .appendCount x key nodeVal wall bornAt
  | .transport a => .transport a

namespace CallPair

def map (f : V → W) (s : CallPair V) : CallPair W where
  pair := s.pair.map f
  stamped x := (s.stamped x).map (RegisterOp.map f)
  stored x := (s.stored x).map (RegisterOp.map f)
  pending := s.pending
  issued := s.issued.map (fun p => (p.1, p.2.map f))
  increments := s.increments

theorem map_update_list {α β : Type*} (g : α → β) (ops : Bool → List α) (x : Bool) (os : List α) :
    (fun y => (Function.update ops x os y).map g) =
      Function.update (fun y => (ops y).map g) x (os.map g) := by
  funext y
  simp only [Function.update_apply]
  split_ifs <;> rfl

theorem map_initial (nodeID : Bool → GoString) (authToken : GoString) (hlc : Bool → HLC)
    (capacity : Bool → ℕ) :
    (initial nodeID authToken hlc capacity : CallPair V).map f =
      initial nodeID authToken hlc capacity := rfl

variable {mp : Msgpack V} {mp' : Msgpack W}

theorem map_step (hmp : mp.Carries f mp') (c : Codec) (s : CallPair V) (a : CallPairAction V) :
    (s.map f).step c mp' (a.map f) = (s.step c mp a).map (CallPair.map f) := by
  cases a with
  | stamp x call wall =>
      simp only [CallPairAction.map, step, Option.map_some]
      refine congrArg some ?_
      simp only [map, List.map_cons, map_update_list, Pair.map_setReplica, RegisterCall.map_stamped]
      rfl
  | store x k =>
      simp only [CallPairAction.map, step, map, List.getElem?_map, Option.map_map]
      refine congrArg (fun g => Option.map g _) (funext fun o => ?_)
      simp only [Function.comp_apply, map, map_update_list, Pair.map_setReplica, List.map_cons,
        List.eraseIdx_map, Replica.map, RegisterOp.map_apply]
      rfl
  | append x k bornAt =>
      simp only [CallPairAction.map, step, map, List.getElem?_map, Option.map_bind, Option.bind_map]
      refine congrArg (fun g => Option.bind _ g) (funext fun o => ?_)
      simp only [Function.comp_apply, RegisterOp.map_logEntry hmp]
      cases o.logEntry mp bornAt with
      | none => simp only [Option.map_some, map, map_update_list, List.eraseIdx_map]
      | some e =>
          simp only [Pair.map_step hmp, Option.map_map]
          refine congrArg (fun g => Option.map g _) (funext fun p => ?_)
          simp only [Function.comp_apply, map, map_update_list, List.eraseIdx_map]
  | increment x key delta =>
      simp only [CallPairAction.map, step, Option.map_some]
      refine congrArg some ?_
      simp only [map, Pair.map_setReplica, Replica.map, Store.map_increment]
      rfl
  | getNodeCount x key =>
      simp only [CallPairAction.map, step]
      by_cases hmem : .added key ∈ s.pending x
      · have hmem' : .added key ∈ (s.map f).pending x := hmem
        rw [if_pos hmem, if_pos hmem']
        rfl
      · have hmem' : .added key ∉ (s.map f).pending x := hmem
        rw [if_neg hmem, if_neg hmem']
        rfl
  | appendCount x key nodeVal wall bornAt =>
      simp only [CallPairAction.map, step]
      by_cases hmem : .read key nodeVal ∈ s.pending x
      · have hmem' : .read key nodeVal ∈ (s.map f).pending x := hmem
        rw [if_pos hmem, if_pos hmem', Option.map_map]
        have hpair := s.pair.map_setReplica (f := f) x
          ⟨(s.pair x).node.replica.store, ((s.pair x).node.replica.hlc.now wall).1⟩
        have hstep := congrArg (fun p => Pair.step c mp' p (.act x (.append (incrLogEntry
          ((s.pair x).node.replica.hlc.now wall).2 bornAt key (s.pair x).node.nodeID nodeVal))))
          hpair.symm
        refine (congrArg (Option.map _) (hstep.trans (Pair.map_step hmp c _ _))).trans ?_
        rw [Option.map_map]
        rfl
      · have hmem' : .read key nodeVal ∉ (s.map f).pending x := hmem
        rw [if_neg hmem, if_neg hmem']
        rfl
  | transport a =>
      simp only [CallPairAction.map, step, map]
      split_ifs
      · rfl
      · rw [Pair.map_step hmp, Option.map_map, Option.map_map]
        rfl

theorem Undisturbed.map (hmp : mp.Carries f mp') {c : Codec} {s : CallPair V}
    {a : CallPairAction V} (ha : Undisturbed c mp s a)
    (hstamp : ∀ x call wall, a ≠ .stamp x call wall) :
    Undisturbed c mp' (s.map f) (a.map f) := by
  cases a with
  | stamp x call wall => exact absurd rfl (hstamp x call wall)
  | append x k bornAt =>
      intro o ho e he
      simp only [CallPair.map, List.getElem?_map, Option.mem_def, Option.map_eq_some_iff] at ho
      obtain ⟨o, ho, rfl⟩ := ho
      rw [RegisterOp.map_logEntry hmp] at he
      exact ha o ho e he
  | increment x key delta => exact ha
  | store x k => trivial
  | getNodeCount x key => trivial
  | appendCount x key nodeVal wall bornAt => exact ha
  | transport a =>
      obtain ⟨hlossless, haccepts⟩ := ha
      refine ⟨fun x => ?_, ?_⟩
      · have hside := hlossless x
        cases a with
        | act y a => cases a <;> exact hside
        | deliver y k => trivial
        | apply y k wall => trivial
      · cases a with
        | apply y k wall => exact haccepts
        | act y a => trivial
        | deliver y k => trivial

theorem Quiet.map {s : CallPair V} (h : s.Quiet) : (s.map f).Quiet where
  stamped x := List.map_eq_nil_iff.2 (h.stamped x)
  stored x := List.map_eq_nil_iff.2 (h.stored x)
  pending := h.pending
  flight := h.flight
  cursor := h.cursor
  earliest := h.earliest

/-- What is seen of the values that two quiet nodes serve agrees when it does for nodes that hold
nothing else. -/
theorem Quiet.map_get_eq {s : CallPair V} (h : s.Quiet) {c : Codec} {nodeID : Bool → GoString}
    (hconverging : Converging c mp' nodeID (s.map f)) (key : GoString) (now : Int64) :
    ((s.pair false).node.replica.store.get key now).map f =
        ((s.pair true).node.replica.store.get key now).map f ∧
      (s.pair false).node.replica.store.exists? key now =
        (s.pair true).node.replica.store.exists? key now := by
  have hcache : (((s.pair false).node.replica.store.map f).getShard key).cache key =
      (((s.pair true).node.replica.store.map f).getShard key).cache key :=
    h.map.cache_eq hconverging key
  constructor
  · rw [← Store.map_get, ← Store.map_get]
    unfold Store.get
    rw [hcache]
  · rw [← Store.map_exists (f := f), ← Store.map_exists (f := f)]
    unfold Store.exists?
    rw [hcache]

end CallPair

end Capacitor
