import Capacitor.StepSystem
import Capacitor.Transport

/-!
# Replication between two nodes

The replicator of a node wakes when its log has run ahead of its cursor for the peer, and calls
`replicateToPeer`, which takes a batch of raw entries and hands it to the stream client.
`handleConn` of the peer reads one batch at a time and applies its entries one by one.

Every access to something shared is a step of its own: a call of `replicateToPeer` reads the
watermark, loads or stores the cursor, reads the log, reads the watermark again, writes to the
connection, and stores the cursor, and any other step may fall in between. `SendBatch` itself is one
step. A local call shows here as the entry it appends: nothing else it does reaches the logs,
cursors and watermarks.
-/

namespace Capacitor

/-- A batch read from the log behind the cursor `lastSeq`. `start` is the number of its first entry,
which the program does not keep. -/
structure Drawn where
  lastSeq : ℕ
  start : ℕ
  raw : List GoString
  deriving DecidableEq

/-- How far a pass through the loop of the replicator has come: it has seen that the replicator is
not stopped, or is inside `replicateToPeer`. -/
inductive Call where
  | checked
  | started
  | seeded (seed : ℕ)
  | loaded (lastSeq : ℕ)
  | drawn (p : Drawn)
  | sending (p : Drawn) (lastSeenRemote : ℕ)
  | written (p : Drawn)
  deriving DecidableEq

/-- One node with its side of the transport, and the history of its replication: the entries it
appended, the numbers it sent, the numbers its peer reported, and the entries it was handed. -/
structure Side (V : Type*) where
  node : Node V
  running : Bool
  calls : List Call
  link : Link
  appended : List LogEntry
  sent : List ℕ
  reported : List ℕ
  handed : List LogEntry

inductive SideAction where
  | append (e : LogEntry)
  | checkStop
  | wake (k : ℕ)
  | seed (k : ℕ)
  | loadOrStore (k : ℕ)
  | getEntriesRaw (k : ℕ)
  | lastSeen (k : ℕ)
  | sendBatch (k : ℕ) (outcome : SendOutcome)
  | store (k : ℕ)
  | breakConn (k : ℕ)
  | closeConn
  | startPeerReplicator
  | stopPeerReplicator

namespace Side

variable {V : Type*}

def fresh (nodeID authToken : GoString) (replica : Replica V) (capacity : ℕ) : Side V where
  node := ⟨nodeID, authToken, replica, newDeltaLog capacity, fun _ => none⟩
  running := false
  calls := []
  link := Link.empty
  appended := []
  sent := []
  reported := []
  handed := []

def handshake (d : Side V) (lastSeenRemote : ℕ) : Handshake := ⟨lastSeenRemote, d.node.authToken⟩

/-- The steps of one node towards its peer. `NotifyJoin` starts the replicator, and `NotifyLeave`
closes the connection and stops the replicator; a pass through the loop that has seen it running
goes on whatever happens in between. -/
def act (c : Codec) (peer : GoString) (d : Side V) : SideAction → Option (Side V)
  | .append e =>
      (d.node.log.append c e).map (fun log =>
        { d with node := { d.node with log := log }, appended := d.appended ++ [e] })
  | .checkStop => if d.running then some { d with calls := d.calls ++ [.checked] } else none
  | .wake k =>
      match d.calls[k]? with
      | some .checked =>
          some { d with
            calls :=
              if d.node.SendCondition peer then d.calls.set k .started else d.calls.eraseIdx k }
      | _ => none
  | .seed k =>
      match d.calls[k]? with
      | some .started =>
          some { d with calls := d.calls.set k (.seeded (d.node.replica.store.getPeerSeq peer)) }
      | _ => none
  | .loadOrStore k =>
      match d.calls[k]? with
      | some (.seeded seed) =>
          some { d with
            node := d.node.storeSeq peer (d.node.loadOrStore peer seed)
            calls := d.calls.set k (.loaded (d.node.loadOrStore peer seed)) }
      | _ => none
  | .getEntriesRaw k =>
      match d.calls[k]? with
      | some (.loaded lastSeq) =>
          (d.node.log.getEntriesRaw (lastSeq + 1) 1000 (8 * 1024 * 1024)).map (fun raw =>
            { d with
              calls :=
                if raw = [] then d.calls.eraseIdx k
                else d.calls.set k
                  (.drawn ⟨lastSeq, max (lastSeq + 1) d.node.log.earliest, raw⟩) })
      | _ => none
  | .lastSeen k =>
      match d.calls[k]? with
      | some (.drawn p) =>
          some { d with calls := d.calls.set k (.sending p (d.node.replica.store.getPeerSeq peer)) }
      | _ => none
  | .sendBatch k outcome =>
      match d.calls[k]? with
      | some (.sending p lastSeenRemote) =>
          (d.link.sendBatch ⟨d.node.nodeID, p.raw, none⟩ (d.handshake lastSeenRemote) outcome).map
            (fun r =>
              if r.2 then
                { d with
                  calls := d.calls.set k (.written p)
                  link := r.1
                  sent := d.sent ++ List.range' p.start p.raw.length }
              else { d with calls := d.calls.eraseIdx k, link := r.1 })
      | _ => none
  | .store k =>
      match d.calls[k]? with
      | some (.written p) =>
          some { d with
            node := d.node.storeSeq peer (p.lastSeq + p.raw.length)
            calls := d.calls.eraseIdx k }
      | _ => none
  | .breakConn k => some { d with link := d.link.breakConn k }
  | .closeConn => some { d with link := d.link.closeConn }
  | .startPeerReplicator => some { d with running := true }
  | .stopPeerReplicator => some { d with node := d.node.deleteSeq peer, running := false }

inductive Acts (c : Codec) (peer : GoString) (d : Side V) : SideAction → Side V → Prop
  | append {e : LogEntry} {log : DeltaLog} (hlog : d.node.log.append c e = some log) :
      Acts c peer d (.append e)
        { d with node := { d.node with log := log }, appended := d.appended ++ [e] }
  | checkStop : Acts c peer d .checkStop { d with calls := d.calls ++ [.checked] }
  | wait {k : ℕ} (hk : d.calls[k]? = some .checked) :
      Acts c peer d (.wake k) { d with calls := d.calls.eraseIdx k }
  | wake {k : ℕ} (hk : d.calls[k]? = some .checked) (hcond : d.node.SendCondition peer) :
      Acts c peer d (.wake k) { d with calls := d.calls.set k .started }
  | seed {k : ℕ} (hk : d.calls[k]? = some .started) :
      Acts c peer d (.seed k)
        { d with calls := d.calls.set k (.seeded (d.node.replica.store.getPeerSeq peer)) }
  | loadOrStore {k seed : ℕ} (hk : d.calls[k]? = some (.seeded seed)) :
      Acts c peer d (.loadOrStore k)
        { d with
          node := d.node.storeSeq peer (d.node.loadOrStore peer seed)
          calls := d.calls.set k (.loaded (d.node.loadOrStore peer seed)) }
  | nothing {k lastSeq : ℕ} (hk : d.calls[k]? = some (.loaded lastSeq)) :
      Acts c peer d (.getEntriesRaw k) { d with calls := d.calls.eraseIdx k }
  | drawn {k lastSeq : ℕ} {raw : List GoString} (hk : d.calls[k]? = some (.loaded lastSeq))
      (hraw : d.node.log.getEntriesRaw (lastSeq + 1) 1000 (8 * 1024 * 1024) = some raw)
      (hne : raw ≠ []) :
      Acts c peer d (.getEntriesRaw k)
        { d with
          calls := d.calls.set k (.drawn ⟨lastSeq, max (lastSeq + 1) d.node.log.earliest, raw⟩) }
  | lastSeen {k : ℕ} {p : Drawn} (hk : d.calls[k]? = some (.drawn p)) :
      Acts c peer d (.lastSeen k)
        { d with calls := d.calls.set k (.sending p (d.node.replica.store.getPeerSeq peer)) }
  | written {k lastSeenRemote : ℕ} {p : Drawn} {link : Link}
      (hk : d.calls[k]? = some (.sending p lastSeenRemote))
      (hsend : d.link.sendBatch ⟨d.node.nodeID, p.raw, none⟩ (d.handshake lastSeenRemote) .written =
        some (link, true)) :
      Acts c peer d (.sendBatch k .written)
        { d with
          calls := d.calls.set k (.written p)
          link := link
          sent := d.sent ++ List.range' p.start p.raw.length }
  | failed {k lastSeenRemote : ℕ} {p : Drawn} {outcome : SendOutcome} {link : Link}
      (hk : d.calls[k]? = some (.sending p lastSeenRemote)) (hout : outcome ≠ .written)
      (hsend : d.link.sendBatch ⟨d.node.nodeID, p.raw, none⟩ (d.handshake lastSeenRemote) outcome =
        some (link, false)) :
      Acts c peer d (.sendBatch k outcome)
        { d with calls := d.calls.eraseIdx k, link := link }
  | store {k : ℕ} {p : Drawn} (hk : d.calls[k]? = some (.written p)) :
      Acts c peer d (.store k)
        { d with
          node := d.node.storeSeq peer (p.lastSeq + p.raw.length)
          calls := d.calls.eraseIdx k }
  | breakConn (k : ℕ) : Acts c peer d (.breakConn k) { d with link := d.link.breakConn k }
  | closeConn : Acts c peer d .closeConn { d with link := d.link.closeConn }
  | startPeerReplicator : Acts c peer d .startPeerReplicator { d with running := true }
  | stopPeerReplicator :
      Acts c peer d .stopPeerReplicator { d with node := d.node.deleteSeq peer, running := false }

variable {c : Codec} {peer : GoString} {d d' : Side V} {a : SideAction}

theorem acts_of_act (h : d.act c peer a = some d') : d.Acts c peer a d' := by
  cases a with
  | append e =>
      obtain ⟨log, hlog, rfl⟩ := Option.map_eq_some_iff.1 h
      exact .append hlog
  | checkStop =>
      simp only [act] at h
      split_ifs at h
      obtain rfl := Option.some.inj h
      exact .checkStop
  | wake k =>
      simp only [act] at h
      split at h
      next hk =>
        obtain rfl := Option.some.inj h
        by_cases hcond : d.node.SendCondition peer
        · rw [if_pos hcond]
          exact .wake hk hcond
        · rw [if_neg hcond]
          exact .wait hk
      next => cases h
  | seed k =>
      simp only [act] at h
      split at h
      next hk =>
        obtain rfl := Option.some.inj h
        exact .seed hk
      next => cases h
  | loadOrStore k =>
      simp only [act] at h
      split at h
      next seed hk =>
        obtain rfl := Option.some.inj h
        exact .loadOrStore hk
      next => cases h
  | getEntriesRaw k =>
      simp only [act] at h
      split at h
      next lastSeq hk =>
        obtain ⟨raw, hraw, rfl⟩ := Option.map_eq_some_iff.1 h
        by_cases hne : raw = []
        · rw [if_pos hne]
          exact .nothing hk
        · rw [if_neg hne]
          exact .drawn hk hraw hne
      next => cases h
  | lastSeen k =>
      simp only [act] at h
      split at h
      next p hk =>
        obtain rfl := Option.some.inj h
        exact .lastSeen hk
      next => cases h
  | sendBatch k outcome =>
      simp only [act] at h
      split at h
      next p lastSeenRemote hk =>
        obtain ⟨⟨link, ok⟩, hsend, rfl⟩ := Option.map_eq_some_iff.1 h
        cases ok with
        | false =>
            refine .failed hk ?_ hsend
            rintro rfl
            cases hsend
        | true =>
            obtain ⟨rfl, -⟩ := Link.written_of_sendBatch hsend
            exact .written hk hsend
      next => cases h
  | store k =>
      simp only [act] at h
      split at h
      next p hk =>
        obtain rfl := Option.some.inj h
        exact .store hk
      next => cases h
  | breakConn k =>
      obtain rfl := Option.some.inj h
      exact .breakConn k
  | closeConn =>
      obtain rfl := Option.some.inj h
      exact .closeConn
  | startPeerReplicator =>
      obtain rfl := Option.some.inj h
      exact .startPeerReplicator
  | stopPeerReplicator =>
      obtain rfl := Option.some.inj h
      exact .stopPeerReplicator

theorem act_frame (h : d.act c peer a = some d') : d'.node.nodeID = d.node.nodeID ∧
    d'.node.authToken = d.node.authToken ∧ d'.node.replica = d.node.replica ∧
    d'.reported = d.reported ∧ d'.handed = d.handed := by
  cases acts_of_act h <;> exact ⟨rfl, rfl, rfl, rfl, rfl⟩

theorem act_forall_inflight {P : Batch → Prop} (hd : ∀ cc ∈ d.link.conns, ∀ b ∈ cc.inflight, P b)
    (hown : ∀ k p seen, a = .sendBatch k .written → d.calls[k]? = some (.sending p seen) →
      P ⟨d.node.nodeID, p.raw, none⟩ ∧ P ⟨d.node.nodeID, p.raw, some (d.handshake seen)⟩)
    (h : d.act c peer a = some d') : ∀ cc ∈ d'.link.conns, ∀ b ∈ cc.inflight, P b := by
  cases acts_of_act h with
  | written hk hsend =>
      exact Link.forall_inflight_sendBatch hd (fun _ => hown _ _ _ rfl hk) hsend
  | failed _ hout hsend => exact Link.forall_inflight_sendBatch hd (absurd · hout) hsend
  | breakConn k => exact Link.forall_inflight_breakConn hd k
  | _ => exact hd

theorem act_cursor (h : d.act c peer a = some d') {k : ℕ} (hk : d'.node.peerSeqs peer = some k) :
    d.node.peerSeqs peer = some k ∨
      (∃ j, a = .loadOrStore j ∧ d.calls[j]? = some (.seeded k) ∧ d.node.peerSeqs peer = none) ∨
      ∃ p, .written p ∈ d.calls ∧ k = p.lastSeq + p.raw.length := by
  cases acts_of_act h with
  | loadOrStore hj =>
      simp only [Node.storeSeq, Function.update_self, Node.loadOrStore, Option.some.injEq] at hk
      cases hcur : d.node.peerSeqs peer with
      | none =>
          rw [hcur, Option.getD_none] at hk
          subst hk
          exact Or.inr (Or.inl ⟨_, rfl, hj, rfl⟩)
      | some n =>
          rw [hcur, Option.getD_some] at hk
          exact Or.inl (congrArg some hk)
  | store hj =>
      simp only [Node.storeSeq, Function.update_self, Option.some.injEq] at hk
      exact Or.inr (Or.inr ⟨_, List.mem_of_getElem? hj, hk.symm⟩)
  | stopPeerReplicator =>
      simp only [Node.deleteSeq, Function.update_self] at hk
      cases hk
  | _ => exact Or.inl hk

theorem act_sent (h : d.act c peer a = some d') {m : ℕ} (hm : m ∈ d'.sent) :
    m ∈ d.sent ∨ ∃ j p seen, a = .sendBatch j .written ∧ d.calls[j]? = some (.sending p seen) ∧
      p.start ≤ m ∧ m < p.start + p.raw.length := by
  cases acts_of_act h with
  | written hk hsend =>
      rcases List.mem_append.1 hm with hm | hm
      · exact Or.inl hm
      · exact Or.inr ⟨_, _, _, rfl, hk, List.mem_range'_1.1 hm⟩
  | _ => exact Or.inl hm

theorem mem_sent_of_written {k seen m : ℕ} {p : Drawn}
    (hk : d.calls[k]? = some (.sending p seen))
    (h : d.act c peer (.sendBatch k .written) = some d') (hm : p.start ≤ m)
    (hlt : m < p.start + p.raw.length) : m ∈ d'.sent := by
  cases acts_of_act h with
  | written hk' _ =>
      obtain ⟨rfl, -⟩ := Call.sending.inj (Option.some.inj (hk.symm.trans hk'))
      exact List.mem_append_right _ (List.mem_range'_1.2 ⟨hm, hlt⟩)
  | failed _ hout => exact absurd rfl hout

theorem act_log (h : d.act c peer a = some d') :
    d'.node.log = d.node.log ∧ d'.appended = d.appended ∨
      ∃ e, a = .append e ∧ d.node.log.append c e = some d'.node.log ∧
        d'.appended = d.appended ++ [e] := by
  cases acts_of_act h with
  | append hlog => exact Or.inr ⟨_, rfl, hlog, rfl⟩
  | _ => exact Or.inl ⟨rfl, rfl⟩

theorem sent_subset_act (h : d.act c peer a = some d') : d.sent ⊆ d'.sent := by
  cases acts_of_act h with
  | written => exact List.subset_append_left _ _
  | _ => exact List.Subset.refl _

/-- The rule for properties of the calls of `replicateToPeer`: each stage follows from the one
before. -/
theorem act_forall_calls {P Q : Call → Prop} (h : d.act c peer a = some d')
    (hd : ∀ call ∈ d.calls, P call) (hold : ∀ call, P call → Q call)
    (hchecked : Q .checked) (hstarted : d.node.SendCondition peer → Q .started)
    (hseeded : P .started → Q (.seeded (d.node.replica.store.getPeerSeq peer)))
    (hloaded : ∀ seed n, P (.seeded seed) → d'.node.peerSeqs peer = some n → Q (.loaded n))
    (hdrawn : ∀ n raw, P (.loaded n) →
      d.node.log.getEntriesRaw (n + 1) 1000 (8 * 1024 * 1024) = some raw → raw ≠ [] →
      Q (.drawn ⟨n, max (n + 1) d.node.log.earliest, raw⟩))
    (hsending : ∀ p, P (.drawn p) → Q (.sending p (d.node.replica.store.getPeerSeq peer)))
    (hwritten : ∀ k p seen, a = .sendBatch k .written → d.calls[k]? = some (.sending p seen) →
      Q (.written p)) : ∀ call ∈ d'.calls, Q call := by
  have hkeep (call : Call) (hcall : call ∈ d.calls) : Q call := hold call (hd call hcall)
  have herase (k : ℕ) (call : Call) (hcall : call ∈ d.calls.eraseIdx k) : Q call :=
    hkeep call (List.mem_of_mem_eraseIdx hcall)
  have hset {k : ℕ} {new : Call} (hnew : Q new) (call : Call) (hcall : call ∈ d.calls.set k new) :
      Q call := by
    rcases List.mem_or_eq_of_mem_set hcall with hcall | rfl
    · exact hkeep call hcall
    · exact hnew
  cases acts_of_act h with
  | checkStop =>
      intro call hcall
      rcases List.mem_append.1 hcall with hcall | hcall
      · exact hkeep call hcall
      · rw [List.mem_singleton.1 hcall]
        exact hchecked
  | wait => exact herase _
  | wake _ hcond => exact hset (hstarted hcond)
  | seed hk => exact hset (hseeded (hd _ (List.mem_of_getElem? hk)))
  | loadOrStore hk =>
      exact hset (hloaded _ _ (hd _ (List.mem_of_getElem? hk)) (Function.update_self _ _ _))
  | nothing => exact herase _
  | drawn hk hraw hne => exact hset (hdrawn _ _ (hd _ (List.mem_of_getElem? hk)) hraw hne)
  | lastSeen hk => exact hset (hsending _ (hd _ (List.mem_of_getElem? hk)))
  | written hk => exact hset (hwritten _ _ _ rfl hk)
  | failed => exact herase _
  | store => exact herase _
  | _ => exact hkeep

/-- The handshake of a batch is handled here, or `none` when the connection is refused. -/
def greet (d : Side V) (firstBatch : Bool) (b : Batch) : Option (Side V) :=
  (d.node.handleHandshake firstBatch b).map (fun n =>
    { d with
      node := n
      reported := d.reported ++ (b.handshake.map Handshake.lastSeenSeq).toList })

/-- One entry of a batch is applied here, unless it does not decode. -/
def applyRaw [Rounding] (c : Codec) (mp : Msgpack V) (wall : Int64) (d : Side V)
    (raw : GoString) : Side V :=
  match c.unmarshalMsg raw with
  | none => d
  | some e =>
      { d with
        node := { d.node with replica := applyRemoteEntry mp d.node.replica wall e }
        handed := d.handed ++ [e] }

theorem greet_eq_some {firstBatch : Bool} {b : Batch} (h : d.greet firstBatch b = some d') :
    d' = { d with
      node := { d.node with
        peerSeqs := b.handshake.elim d.node.peerSeqs
          (fun h => Function.update d.node.peerSeqs b.fromNode (some h.lastSeenSeq)) }
      reported := d.reported ++ (b.handshake.map Handshake.lastSeenSeq).toList } := by
  obtain ⟨n, hn, rfl⟩ := Option.map_eq_some_iff.1 h
  rw [Node.handleHandshake_eq_some hn]

theorem applyRaw_cases (c : Codec) (mp : Msgpack V) (wall : Int64) (d : Side V) (raw : GoString) :
    c.unmarshalMsg raw = none ∧ d.applyRaw c mp wall raw = d ∨
      ∃ e, c.unmarshalMsg raw = some e ∧ d.applyRaw c mp wall raw =
        { d with
          node := { d.node with replica := applyRemoteEntry mp d.node.replica wall e }
          handed := d.handed ++ [e] } := by
  unfold applyRaw
  cases hraw : c.unmarshalMsg raw with
  | none => exact Or.inl ⟨rfl, rfl⟩
  | some e => exact Or.inr ⟨e, rfl, rfl⟩

/-- The parts of a side that nothing it receives changes. -/
structure SameSource (d d' : Side V) : Prop where
  nodeID : d'.node.nodeID = d.node.nodeID
  authToken : d'.node.authToken = d.node.authToken
  log : d'.node.log = d.node.log
  calls : d'.calls = d.calls
  link : d'.link = d.link
  appended : d'.appended = d.appended
  sent : d'.sent = d.sent

theorem sameSource_greet {firstBatch : Bool} {b : Batch} (h : d.greet firstBatch b = some d') :
    d.SameSource d' := by
  rw [greet_eq_some h]
  exact ⟨rfl, rfl, rfl, rfl, rfl, rfl, rfl⟩

theorem sameSource_applyRaw (c : Codec) (mp : Msgpack V) (wall : Int64) (d : Side V)
    (raw : GoString) : d.SameSource (d.applyRaw c mp wall raw) := by
  rcases d.applyRaw_cases c mp wall raw with ⟨_, hsame⟩ | ⟨e, _, happlied⟩
  · rw [hsame]
    exact ⟨rfl, rfl, rfl, rfl, rfl, rfl, rfl⟩
  · rw [happlied]
    exact ⟨rfl, rfl, rfl, rfl, rfl, rfl, rfl⟩

theorem reported_applyRaw (c : Codec) (mp : Msgpack V) (wall : Int64) (d : Side V)
    (raw : GoString) : (d.applyRaw c mp wall raw).reported = d.reported := by
  rcases d.applyRaw_cases c mp wall raw with ⟨_, hsame⟩ | ⟨e, _, happlied⟩
  · rw [hsame]
  · rw [happlied]

theorem peerSeqs_applyRaw (c : Codec) (mp : Msgpack V) (wall : Int64) (d : Side V)
    (raw : GoString) : (d.applyRaw c mp wall raw).node.peerSeqs = d.node.peerSeqs := by
  rcases d.applyRaw_cases c mp wall raw with ⟨_, hsame⟩ | ⟨e, _, happlied⟩
  · rw [hsame]
  · rw [happlied]

end Side

/-- The two nodes; the peer of `x` is `!x`. -/
abbrev Pair (V : Type*) := Bool → Side V

inductive PairAction where
  | act (x : Bool) (a : SideAction)
  | deliver (x : Bool) (k : ℕ)
  | apply (x : Bool) (k : ℕ) (wall : Int64)

namespace Pair

variable {V : Type*}

def initial (nodeID : Bool → GoString) (authToken : GoString) (hlc : Bool → HLC)
    (capacity : Bool → ℕ) : Pair V :=
  fun x => Side.fresh (nodeID x) authToken ⟨Store.newStore, hlc x⟩ (capacity x)

def set (s : Pair V) (x : Bool) (link : Link) (d : Side V) : Pair V :=
  Function.update (Function.update s x { s x with link := link }) (!x) d

/-- The peer reads the next batch of a connection that `x` dialled, or closes the connection. -/
def deliver (s : Pair V) (x : Bool) (k : ℕ) : Option (Pair V) :=
  ((s x).link.next k).map (fun p =>
    match (s (!x)).greet p.1 p.2 with
    | none => s.set x ((s x).link.breakConn k) (s (!x))
    | some d => s.set x ((s x).link.read k) d)

/-- The peer applies the next entry of the batch it is working on. -/
def apply [Rounding] (c : Codec) (mp : Msgpack V) (s : Pair V) (x : Bool) (k : ℕ)
    (wall : Int64) : Option (Pair V) :=
  ((s x).link.nextEntry k).map (fun raw =>
    s.set x ((s x).link.applied k) ((s (!x)).applyRaw c mp wall raw))

def step [Rounding] (c : Codec) (mp : Msgpack V) (s : Pair V) : PairAction → Option (Pair V)
  | .act x a => ((s x).act c (s (!x)).node.nodeID a).map (Function.update s x)
  | .deliver x k => s.deliver x k
  | .apply x k wall => s.apply c mp x k wall

variable {c : Codec} {mp : Msgpack V} {s t : Pair V}

theorem set_self (s : Pair V) (x : Bool) (link : Link) (d : Side V) :
    s.set x link d x = { s x with link := link } := by
  have hne : x ≠ !x := by cases x <;> decide
  rw [set, Function.update_of_ne hne, Function.update_self]

theorem set_peer (s : Pair V) (x : Bool) (link : Link) (d : Side V) : s.set x link d (!x) = d :=
  Function.update_self _ _ _

theorem set_not (s : Pair V) (x : Bool) (link : Link) (d : Side V) : s.set (!x) link d x = d := by
  have hpeer := s.set_peer (!x) link d
  rwa [Bool.not_not] at hpeer

theorem step_act {x : Bool} {a : SideAction} (h : step c mp s (.act x a) = some t) :
    (s x).act c (s (!x)).node.nodeID a = some (t x) ∧ t (!x) = s (!x) := by
  obtain ⟨d, hd, rfl⟩ := Option.map_eq_some_iff.1 h
  have hne : (!x) ≠ x := by cases x <;> decide
  rw [Function.update_self, Function.update_of_ne hne]
  exact ⟨hd, rfl⟩

theorem step_deliver {x : Bool} {k : ℕ} (h : step c mp s (.deliver x k) = some t) :
    ∃ p, (s x).link.next k = some p ∧
      ((s (!x)).greet p.1 p.2 = none ∧ t = s.set x ((s x).link.breakConn k) (s (!x)) ∨
        ∃ d, (s (!x)).greet p.1 p.2 = some d ∧ t = s.set x ((s x).link.read k) d) := by
  obtain ⟨p, hp, rfl⟩ := Option.map_eq_some_iff.1 h
  refine ⟨p, hp, ?_⟩
  cases hgreet : (s (!x)).greet p.1 p.2 with
  | none => exact Or.inl ⟨rfl, rfl⟩
  | some d => exact Or.inr ⟨d, rfl, rfl⟩

theorem step_apply {x : Bool} {k : ℕ} {wall : Int64} (h : step c mp s (.apply x k wall) = some t) :
    ∃ raw, (s x).link.nextEntry k = some raw ∧
      t = s.set x ((s x).link.applied k) ((s (!x)).applyRaw c mp wall raw) := by
  obtain ⟨raw, hraw, rfl⟩ := Option.map_eq_some_iff.1 h
  exact ⟨raw, hraw, rfl⟩

/-- What one step does to one side: a step of its own, a batch or an entry that arrives here, a
change of a connection dialled here, or nothing. -/
theorem step_cases {a : PairAction} (h : step c mp s a = some t) (y : Bool) :
    (∃ b, a = .act y b ∧ (s y).act c (s (!y)).node.nodeID b = some (t y)) ∨
    (∃ k p, a = .deliver (!y) k ∧ (s (!y)).link.next k = some p ∧
      (s y).greet p.1 p.2 = some (t y)) ∨
    (∃ k wall raw, a = .apply (!y) k wall ∧ (s (!y)).link.nextEntry k = some raw ∧
      t y = (s y).applyRaw c mp wall raw) ∨
    (∃ link, t y = { s y with link := link } ∧ (link = (s y).link ∨ ∃ k,
      link = (s y).link.read k ∨ link = (s y).link.breakConn k ∨ link = (s y).link.applied k)) := by
  cases a with
  | act x b =>
      obtain ⟨hact, hpeer⟩ := step_act h
      rcases Bool.eq_or_eq_not y x with rfl | rfl
      · exact Or.inl ⟨b, rfl, hact⟩
      · exact Or.inr (Or.inr (Or.inr ⟨_, hpeer, Or.inl rfl⟩))
  | deliver x k =>
      obtain ⟨p, hp, ⟨-, rfl⟩ | ⟨d, hgreet, rfl⟩⟩ := step_deliver h
      · rcases Bool.eq_or_eq_not y x with rfl | rfl
        · exact Or.inr (Or.inr (Or.inr ⟨_, set_self _ _ _ _, Or.inr ⟨k, Or.inr (Or.inl rfl)⟩⟩))
        · exact Or.inr (Or.inr (Or.inr ⟨_, set_peer _ _ _ _, Or.inl rfl⟩))
      · rcases Bool.eq_or_eq_not y x with rfl | rfl
        · exact Or.inr (Or.inr (Or.inr ⟨_, set_self _ _ _ _, Or.inr ⟨k, Or.inl rfl⟩⟩))
        · rw [Bool.not_not, set_peer]
          exact Or.inr (Or.inl ⟨k, p, rfl, hp, hgreet⟩)
  | apply x k wall =>
      obtain ⟨raw, hraw, rfl⟩ := step_apply h
      rcases Bool.eq_or_eq_not y x with rfl | rfl
      · exact Or.inr (Or.inr (Or.inr ⟨_, set_self _ _ _ _, Or.inr ⟨k, Or.inr (Or.inr rfl)⟩⟩))
      · rw [Bool.not_not, set_peer]
        exact Or.inr (Or.inr (Or.inl ⟨k, wall, raw, rfl, hraw, rfl⟩))

theorem step_nodeID {a : PairAction} (h : step c mp s a = some t) (y : Bool) :
    (t y).node.nodeID = (s y).node.nodeID := by
  rcases step_cases h y with ⟨b, _, hact⟩ | ⟨k, p, _, _, hgreet⟩ | ⟨k, wall, raw, _, _, happly⟩ |
    ⟨link, hlink, _⟩
  · exact (Side.act_frame hact).1
  · exact (Side.sameSource_greet hgreet).nodeID
  · rw [happly]
    exact ((s y).sameSource_applyRaw c mp wall raw).nodeID
  · rw [hlink]

end Pair

end Capacitor
