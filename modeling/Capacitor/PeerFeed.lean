import Capacitor.Paging
import Capacitor.Replication

/-!
# The replicator as a reader of its log

`replicateToPeer` reads the log behind the cursor of the peer and, when the batch was sent, moves
the cursor by the number of entries in it. So it is a reader in pages, and its cursor is the number
of the last entry sent exactly as long as the entry behind the cursor has not been evicted. Behind
an eviction the batch starts at the earliest entry retained, the cursor ends short of what was sent,
and the next batch repeats some of it.
-/

namespace Capacitor

variable {V : Type*}

/-- A call of `replicateToPeer` whose batch is sent. It gives the node, and the batch if there was
anything to send. -/
def Node.replicateToPeer (n : Node V) (peer : GoString) : Option (Node V × Option Drawn) :=
  let lastSeq := n.loadOrStore peer (n.replica.store.getPeerSeq peer)
  let loaded := n.storeSeq peer lastSeq
  (loaded.log.getEntriesRaw (lastSeq + 1) 1000 (8 * 1024 * 1024)).map (fun raw =>
    if raw = [] then (loaded, none)
    else (loaded.storeSeq peer (lastSeq + raw.length),
      some ⟨lastSeq, max (lastSeq + 1) loaded.log.earliest, raw⟩))

/-- The steps of a call that is alone and whose batch is sent. -/
def Side.callSteps : List SideAction :=
  [.seed 0, .loadOrStore 0, .getEntriesRaw 0, .lastSeen 0, .sendBatch 0 .written, .store 0]

/-- Taken together, the steps of a call do what `replicateToPeer` does. -/
theorem Side.run_callSteps {c : Codec} {peer : GoString} {d d' : Side V}
    (hcalls : d.calls = [.started])
    (hrun : StepSystem.run (Side.act c peer) d Side.callSteps = some d') :
    ∃ p, d.node.replicateToPeer peer = some (d'.node, some p) ∧
      d'.sent = d.sent ++ List.range' p.start p.raw.length := by
  simp only [Side.callSteps, StepSystem.run, Side.act, hcalls, List.getElem?_cons_zero,
    List.set_cons_zero, Option.bind_some] at hrun
  obtain ⟨d₃, hdrawn, hrun⟩ := Option.bind_eq_some_iff.1 hrun
  obtain ⟨raw, hraw, rfl⟩ := Option.map_eq_some_iff.1 hdrawn
  by_cases hne : raw = []
  · simp [hne] at hrun
  · simp only [if_neg hne, List.getElem?_cons_zero, List.set_cons_zero, Option.bind_some] at hrun
    obtain ⟨d₅, hsent, hrun⟩ := Option.bind_eq_some_iff.1 hrun
    obtain ⟨⟨link, ok⟩, hsend, rfl⟩ := Option.map_eq_some_iff.1 hsent
    cases ok with
    | false => simp at hrun
    | true =>
        simp only [if_true, List.getElem?_cons_zero, Option.bind_some] at hrun
        obtain rfl := Option.some.inj hrun
        exact ⟨_, Option.map_eq_some_iff.2 ⟨raw, hraw, if_neg hne⟩, rfl⟩

/-- A node with the numbers of the entries it sent to its peer. -/
structure PeerFeed (V : Type*) where
  node : Node V
  sent : List ℕ

inductive FeedAction where
  | append (e : LogEntry)
  | replicateToPeer

def FeedAction.read : FeedAction → PagerAction
  | .append e => .append e
  | .replicateToPeer => .read 1000 (8 * 1024 * 1024)

namespace PeerFeed

variable {c : Codec} {peer : GoString} {s t : PeerFeed V}

def batchSeqs (batch : Option Drawn) : List ℕ :=
  batch.elim [] (fun p => List.range' p.start p.raw.length)

def step (c : Codec) (peer : GoString) (s : PeerFeed V) : FeedAction → Option (PeerFeed V)
  | .append e =>
      (s.node.log.append c e).map (fun log => { s with node := { s.node with log := log } })
  | .replicateToPeer =>
      (s.node.replicateToPeer peer).map (fun r => ⟨r.1, s.sent ++ batchSeqs r.2⟩)

theorem peerSeqs_storeSeq (n : Node V) (peer : GoString) (seq : ℕ) :
    (n.storeSeq peer seq).peerSeqs peer = some seq := by
  simp [Node.storeSeq]

theorem lastSeq_storeSeq (n : Node V) (peer : GoString) (seq : ℕ) :
    (n.storeSeq peer seq).lastSeq peer = seq := by
  rw [Node.lastSeq, peerSeqs_storeSeq, Option.getD_some]

def batch (n : Node V) (peer : GoString) (raw : List GoString) : Option Drawn :=
  if raw = [] then none
  else some ⟨n.lastSeq peer, max (n.lastSeq peer + 1) n.log.earliest, raw⟩

/-- The entry behind the cursor has not been evicted, if there is one. -/
def KeepsUp (peer : GoString) (s : PeerFeed V) : FeedAction → Prop
  | .append _ => True
  | .replicateToPeer =>
      s.node.lastSeq peer + 1 < s.node.log.head →
        s.node.log.earliest ≤ s.node.lastSeq peer + 1

instance (peer : GoString) (s : PeerFeed V) : (a : FeedAction) → Decidable (s.KeepsUp peer a)
  | .append _ => inferInstanceAs (Decidable True)
  | .replicateToPeer => inferInstanceAs (Decidable (_ → _))

/-- A log that can hold no entry has none. -/
def Holds (l : DeltaLog) : Prop := 1 < l.head → 0 < l.capacity

end PeerFeed

end Capacitor
