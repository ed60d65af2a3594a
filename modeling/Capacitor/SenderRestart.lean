import Capacitor.CursorSeed

/-!
# A restart of the sender

A node that restarts begins a new log at number 1 without cursors, while its peer keeps the
watermark it had reached in the old log and reports it in its next handshake. The replicator then
waits for the new log to pass the old number. Nothing is held back as long as every number the
restarted node continues from, whether reported by the peer or found in its own store, lies within
what it has sent since the restart.
-/

namespace Capacitor

variable {V : Type*}

/-- Node `x` restarts with the given store and clock. What it wrote to its connections may still
arrive; the connections its peer had dialled are gone, which the peer has yet to notice. -/
def Pair.restart (s : Pair V) (x : Bool) (replica : Replica V) (capacity : ℕ) : Pair V :=
  Function.update
    (Function.update s (!x) { s (!x) with link := (s (!x)).link.breakAll }) x
    { Side.fresh (s x).node.nodeID (s x).node.authToken replica capacity with
      link := (s x).link.closeConn }

/-- The watermark lies within what was sent where a node appends without a cursor and where one with
entries gives its cursor up, and a full ring drops only entries that were sent. -/
def Side.ContinuesWithin (peer : GoString) (d : Side V) : SideAction → Prop
  | .append _ =>
      (d.node.log.capacity < d.node.log.head → d.node.log.earliest ∈ d.sent) ∧
      (d.node.peerSeqs peer = none → Within d.sent (d.node.replica.store.getPeerSeq peer))
  | .stopPeerReplicator =>
      1 < d.node.log.head → Within d.sent (d.node.replica.store.getPeerSeq peer)
  | _ => True

instance (peer : GoString) (d : Side V) : (a : SideAction) → Decidable (d.ContinuesWithin peer a)
  | .append _ => inferInstanceAs (Decidable (_ ∧ _))
  | .stopPeerReplicator => inferInstanceAs (Decidable (_ → _))
  | .checkStop | .wake _ | .seed _ | .loadOrStore _ | .getEntriesRaw _ | .lastSeen _
  | .sendBatch _ _ | .store _ | .breakConn _ | .closeConn | .startPeerReplicator => isTrue trivial

/-- A call that has not loaded its cursor yet found entries in the log, and what it may store
instead is at most the watermark. -/
def CallResumed (head watermark : ℕ) : Call → Prop
  | .started => 1 < head
  | .seeded seed => 1 < head ∧ seed ≤ watermark
  | _ => True

theorem CallResumed.mono {head head' watermark watermark' : ℕ} {call : Call} (hhead : head ≤ head')
    (hwatermark : watermark ≤ watermark') (h : CallResumed head watermark call) :
    CallResumed head' watermark' call := by
  cases call with
  | started => exact lt_of_lt_of_le h hhead
  | seeded seed => exact ⟨h.1.trans_le hhead, h.2.trans hwatermark⟩
  | _ => trivial

/-- Whatever the replicator continues from lies within what was sent. -/
structure Resumed (peer : GoString) (d : Side V) : Prop where
  tracked : Tracked peer [] d
  watermark : d.node.peerSeqs peer = none → 1 < d.node.log.head →
    Within d.sent (d.node.replica.store.getPeerSeq peer)
  calls : ∀ call ∈ d.calls,
    CallResumed d.node.log.head (d.node.replica.store.getPeerSeq peer) call

namespace Resumed

variable {peer : GoString} {d d' : Side V} {c : Codec}

theorem lastSeq (h : Resumed peer d) (hhead : 1 < d.node.log.head) :
    Within d.sent (d.node.lastSeq peer) := by
  unfold Node.lastSeq
  cases hcur : d.node.peerSeqs peer with
  | none => exact h.watermark hcur hhead
  | some k =>
      have hk := h.tracked.cursor k hcur
      rwa [List.append_nil] at hk

theorem seedsWithin (h : Resumed peer d) {a : SideAction} (ha : d.ContinuesWithin peer a) :
    d.SeedsWithin peer [] a := by
  cases a with
  | append e => exact fun hfull => Or.inl (ha.1 hfull)
  | loadOrStore k =>
      intro hnone seed hseed
      obtain ⟨hhead, hle⟩ := h.calls _ (List.mem_of_getElem? (Side.seedOf_eq_some_iff.1 hseed))
      rw [List.append_nil]
      exact (h.watermark hnone hhead).of_le hle
  | _ => trivial

theorem act (h : Resumed peer d) {a : SideAction} (ha : d.ContinuesWithin peer a)
    (hact : d.act c peer a = some d') : Resumed peer d' := by
  have hhead := Side.head_le_act hact
  have hreplica := (Side.act_frame hact).2.2.1
  refine ⟨h.tracked.act (h.seedsWithin ha) hact, ?_, ?_⟩
  · rw [hreplica]
    intro hnone hone
    cases Side.acts_of_act hact with
    | append => exact ha.2 hnone
    | loadOrStore =>
        simp only [Node.storeSeq, Function.update_self] at hnone
        cases hnone
    | written => exact (h.watermark hnone hone).mono (List.subset_append_left _ _)
    | store =>
        simp only [Node.storeSeq, Function.update_self] at hnone
        cases hnone
    | stopPeerReplicator => exact ha hone
    | _ => exact h.watermark hnone hone
  · rw [hreplica]
    refine Side.act_forall_calls hact h.calls (fun _ => CallResumed.mono hhead le_rfl) trivial ?_
      (fun hone => ⟨hone.trans_le hhead, le_rfl⟩) (fun _ _ _ _ => trivial)
      (fun _ _ _ _ _ => trivial) (fun _ _ => trivial) (fun _ _ _ _ _ => trivial)
    intro hcond
    unfold Node.SendCondition at hcond
    change 1 < d'.node.log.head
    omega

theorem greet (h : Resumed peer d) {firstBatch : Bool} {b : Batch} (hpeer : b.fromNode = peer)
    (hb : ∀ hs ∈ b.handshake, Within d.sent hs.lastSeenSeq)
    (hgreet : d.greet firstBatch b = some d') : Resumed peer d' := by
  have htracked : Tracked peer [] d' := by
    refine h.tracked.greet ?_ hgreet
    intro hs hhs
    rw [List.append_nil]
    exact hb hs hhs
  rw [Side.greet_eq_some hgreet] at htracked ⊢
  refine ⟨htracked, ?_, h.calls⟩
  intro hnone hhead
  cases hhs : b.handshake with
  | none =>
      rw [hhs] at hnone
      exact h.watermark hnone hhead
  | some hs =>
      simp only [hhs, Option.elim_some, hpeer, Function.update_self] at hnone
      cases hnone

theorem applyRaw (h : Resumed peer d) (mp : Msgpack V) (wall : Int64) {raw : GoString}
    (hraw : d.node.peerSeqs peer = none → 1 < d.node.log.head →
      ∀ e ∈ c.unmarshalMsg raw, e.nodeID = peer → Within d.sent e.seq) :
    Resumed peer (d.applyRaw c mp wall raw) := by
  have htracked := h.tracked.applyRaw c mp wall raw
  rcases d.applyRaw_cases c mp wall raw with ⟨_, hsame⟩ | ⟨e, he, happlied⟩
  · rw [hsame]
    exact h
  · rw [happlied] at htracked ⊢
    refine ⟨htracked, ?_, ?_⟩
    · intro hnone hhead
      rcases getPeerSeq_applyRemoteEntry mp d.node.replica wall e peer with hold | ⟨hid, _, hseq⟩
      · rw [hold]
        exact h.watermark hnone hhead
      · rw [hseq]
        exact hraw hnone hhead e he hid
    · intro call hcall
      refine (h.calls call hcall).mono le_rfl ?_
      rcases getPeerSeq_applyRemoteEntry mp d.node.replica wall e peer with hold | ⟨_, hmax, hseq⟩
      · exact hold.ge
      · exact hseq ▸ hmax

end Resumed

namespace Pair

variable {c : Codec} {mp : Msgpack V} {s t : Pair V} {x : Bool}

/-- Every number that node `x` continues from lies within what it has sent. -/
def ContinuesWithin (c : Codec) (x : Bool) (s : Pair V) : PairAction → Prop
  | .act y a => y = x → (s x).ContinuesWithin (s (!x)).node.nodeID a
  | .deliver y k => y = !x → ∀ p ∈ (s (!x)).link.next k, ∀ hs ∈ p.2.handshake,
      Within (s x).sent hs.lastSeenSeq
  | .apply y k _ => y = !x → (s x).node.peerSeqs (s (!x)).node.nodeID = none →
      1 < (s x).node.log.head → ∀ raw ∈ (s (!x)).link.nextEntry k, ∀ e ∈ c.unmarshalMsg raw,
        e.nodeID = (s (!x)).node.nodeID → Within (s x).sent e.seq

instance (c : Codec) (x : Bool) (s : Pair V) :
    (a : PairAction) → Decidable (s.ContinuesWithin c x a)
  | .act _ _ => inferInstanceAs (Decidable (_ → _))
  | .deliver _ _ => inferInstanceAs (Decidable (_ → _))
  | .apply _ _ _ => inferInstanceAs (Decidable (_ → _))

def beforeRestart : List PairAction :=
  [.act false .startPeerReplicator, .act true .startPeerReplicator,
    .act false (.append (firstIncr (bytes "a")))] ++
    drawRun false ++ writeRun false ++ readRun false 0 20

theorem beforeRestart_isSome :
    (StepSystem.run (step incrCodec byteMsgpack) twoNodes beforeRestart).isSome = true := by
  decide +kernel

def restarted : Pair UInt8 :=
  ((StepSystem.run (step incrCodec byteMsgpack) twoNodes beforeRestart).get
    beforeRestart_isSome).restart false ⟨Store.newStore, newHLC 30⟩ 8

end Pair

end Capacitor
