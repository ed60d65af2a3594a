import Capacitor.Node

/-!
# Connections and handshakes

The client side of a stream dials when it has no connection, and puts a handshake on the first batch
of each connection. A connection is the queue of the batches written to it and not yet read, with
the entries of the batch that the server is working on. It may break at any moment; the client
notices, at the earliest, when a write fails. Connections that the client has closed or dropped stay
in the list, since what was written to them may still arrive. The server keeps, in `peerSeqs`, the
position in its own log that the handshake of its peer reports.
-/

namespace Capacitor

structure Handshake where
  lastSeenSeq : ℕ
  authToken : GoString
  deriving DecidableEq

structure Batch where
  fromNode : GoString
  entries : List GoString
  handshake : Option Handshake
  deriving DecidableEq

/-- A connection: what the client keeps of it, what the server keeps of it, and the batches under
way. -/
structure Conn where
  handshakeDone : Bool
  firstBatch : Bool
  broken : Bool
  inflight : List Batch
  applying : List GoString
  deriving DecidableEq

def newConn : Conn := ⟨false, true, false, [], []⟩

/-- All connections a client has dialled to its peer, and the one it writes to. -/
structure Link where
  conns : List Conn
  current : Option ℕ
  deriving DecidableEq

/-- How `SendBatch` ends. `closed` is a write that fails on a connection which is no longer the
current one. -/
inductive SendOutcome where
  | dialFailed
  | written
  | writeFailed
  | closed
  deriving DecidableEq

namespace Link

def empty : Link := ⟨[], none⟩

def dial (w : Link) : Link × ℕ :=
  match w.current with
  | some k => (w, k)
  | none => (⟨w.conns ++ [newConn], some w.conns.length⟩, w.conns.length)

def modify (w : Link) (k : ℕ) (f : Conn → Conn) : Link := { w with conns := w.conns.modify k f }

/-- A write to a connection that broke unnoticed succeeds, and the batch is lost. -/
def write (b : Batch) (h : Handshake) (cc : Conn) : Conn :=
  let batch := if cc.handshakeDone then b else { b with handshake := some h }
  { cc with
    handshakeDone := true
    inflight := if cc.broken then cc.inflight else cc.inflight ++ [batch] }

/-- The new connections, and whether the write returned `nil`. -/
def sendBatch (w : Link) (b : Batch) (h : Handshake) : SendOutcome → Option (Link × Bool)
  | .dialFailed => if w.current = none then some (w, false) else none
  | .written => some (w.dial.1.modify w.dial.2 (write b h), true)
  | .writeFailed =>
      some ({ w.dial.1.modify w.dial.2 (fun cc => { cc with handshakeDone := true }) with
        current := none }, false)
  | .closed => some (w, false)

def closeConn (w : Link) : Link := { w with current := none }

def breakConn (w : Link) (k : ℕ) : Link :=
  w.modify k (fun cc => { cc with broken := true, inflight := [] })

/-- The server is gone, with everything it had not applied. -/
def breakAll (w : Link) : Link :=
  { w with conns := w.conns.map (fun cc =>
    { cc with broken := true, inflight := [], applying := [] }) }

def next (w : Link) (k : ℕ) : Option (Bool × Batch) :=
  w.conns[k]?.bind (fun cc =>
    if cc.applying = [] then cc.inflight.head?.map (fun b => (cc.firstBatch, b)) else none)

def read (w : Link) (k : ℕ) : Link :=
  w.modify k (fun cc =>
    { cc with
      firstBatch := false
      inflight := cc.inflight.tail
      applying := cc.inflight.head?.elim [] Batch.entries })

def nextEntry (w : Link) (k : ℕ) : Option GoString := w.conns[k]?.bind (fun cc => cc.applying.head?)

def applied (w : Link) (k : ℕ) : Link :=
  w.modify k (fun cc => { cc with applying := cc.applying.tail })

theorem forall_conns_modify {P : Conn → Prop} {w : Link} (h : ∀ cc ∈ w.conns, P cc) {k : ℕ}
    {f : Conn → Conn} (hf : ∀ cc, w.conns[k]? = some cc → P (f cc)) :
    ∀ cc ∈ (w.modify k f).conns, P cc := by
  intro cc hcc
  obtain ⟨j, hj⟩ := List.getElem?_of_mem hcc
  simp only [modify, List.getElem?_modify] at hj
  obtain ⟨cc', hcc', rfl⟩ := Option.map_eq_some_iff.1 hj
  by_cases hkj : k = j
  · subst j
    rw [if_pos rfl]
    exact hf cc' hcc'
  · rw [if_neg hkj]
    exact h cc' (List.mem_of_getElem? hcc')

theorem forall_conns_dial {P : Conn → Prop} {w : Link} (h : ∀ cc ∈ w.conns, P cc)
    (hnew : P newConn) : ∀ cc ∈ w.dial.1.conns, P cc := by
  unfold dial
  cases w.current with
  | some k => exact h
  | none =>
      intro cc hcc
      rcases List.mem_append.1 hcc with hcc | hcc
      · exact h cc hcc
      · rw [List.mem_singleton.1 hcc]
        exact hnew

theorem forall_conns_sendBatch {P : Conn → Prop} {w : Link} (hw : ∀ cc ∈ w.conns, P cc)
    (hnew : P newConn) {b : Batch} {h : Handshake} {outcome : SendOutcome}
    (hwrite : outcome = .written → ∀ cc, P cc → P (write b h cc))
    (hmark : ∀ cc, P cc → P { cc with handshakeDone := true }) {r : Link × Bool}
    (hsend : w.sendBatch b h outcome = some r) : ∀ cc ∈ r.1.conns, P cc := by
  have hdial := forall_conns_dial hw hnew
  have hmem {cc : Conn} (hcc : w.dial.1.conns[w.dial.2]? = some cc) : P cc :=
    hdial cc (List.mem_of_getElem? hcc)
  cases outcome with
  | dialFailed =>
      simp only [sendBatch] at hsend
      split_ifs at hsend
      obtain rfl := Option.some.inj hsend
      exact hw
  | written =>
      obtain rfl := Option.some.inj hsend
      exact forall_conns_modify hdial (fun cc hcc => hwrite rfl cc (hmem hcc))
  | writeFailed =>
      obtain rfl := Option.some.inj hsend
      exact forall_conns_modify hdial (fun cc hcc => hmark cc (hmem hcc))
  | closed =>
      obtain rfl := Option.some.inj hsend
      exact hw

theorem forall_inflight_write {P : Batch → Prop} {cc : Conn} (hcc : ∀ b ∈ cc.inflight, P b)
    {b : Batch} {h : Handshake} (hb : P b) (hh : P { b with handshake := some h }) :
    ∀ b' ∈ (write b h cc).inflight, P b' := by
  intro b' hb'
  simp only [write] at hb'
  by_cases hbroken : cc.broken = true
  · rw [if_pos hbroken] at hb'
    exact hcc b' hb'
  · rw [if_neg hbroken] at hb'
    rcases List.mem_append.1 hb' with hb' | hb'
    · exact hcc b' hb'
    · rw [List.mem_singleton.1 hb']
      split_ifs
      · exact hb
      · exact hh

theorem head?_inflight_write {b b' : Batch} {h : Handshake} {cc : Conn}
    (hb' : (write b h cc).inflight.head? = some b') :
    cc.inflight.head? = some b' ∨ cc.inflight = [] ∧ cc.broken = false ∧
      b' = if cc.handshakeDone then b else { b with handshake := some h } := by
  simp only [write] at hb'
  cases hbroken : cc.broken with
  | true =>
      rw [hbroken, if_pos rfl] at hb'
      exact Or.inl hb'
  | false =>
      rw [hbroken, if_neg Bool.false_ne_true] at hb'
      cases hflight : cc.inflight with
      | cons b₀ rest =>
          rw [hflight] at hb'
          exact Or.inl hb'
      | nil =>
          rw [hflight, List.nil_append, List.head?_singleton, Option.some.injEq] at hb'
          exact Or.inr ⟨rfl, rfl, hb'.symm⟩

theorem forall_inflight_sendBatch {P : Batch → Prop} {w : Link}
    (hw : ∀ cc ∈ w.conns, ∀ b ∈ cc.inflight, P b) {b : Batch} {h : Handshake}
    {outcome : SendOutcome} (hb : outcome = .written → P b ∧ P { b with handshake := some h })
    {r : Link × Bool} (hsend : w.sendBatch b h outcome = some r) :
    ∀ cc ∈ r.1.conns, ∀ b ∈ cc.inflight, P b := by
  refine forall_conns_sendBatch hw (fun b hb => by cases hb) ?_ (fun cc hcc => hcc) hsend
  intro hwritten cc hcc
  exact forall_inflight_write hcc (hb hwritten).1 (hb hwritten).2

theorem written_of_sendBatch {w w' : Link} {b : Batch} {h : Handshake} {outcome : SendOutcome}
    (hsend : w.sendBatch b h outcome = some (w', true)) :
    outcome = .written ∧ w' = w.dial.1.modify w.dial.2 (write b h) := by
  cases outcome with
  | dialFailed =>
      simp only [sendBatch] at hsend
      split_ifs at hsend
      cases hsend
  | written => exact ⟨rfl, (congrArg Prod.fst (Option.some.inj hsend)).symm⟩
  | writeFailed => cases hsend
  | closed => cases hsend

theorem forall_inflight_breakConn {P : Batch → Prop} {w : Link}
    (hw : ∀ cc ∈ w.conns, ∀ b ∈ cc.inflight, P b) (k : ℕ) :
    ∀ cc ∈ (w.breakConn k).conns, ∀ b ∈ cc.inflight, P b :=
  forall_conns_modify hw (fun cc _ b hb => by cases hb)

theorem forall_inflight_read {P : Batch → Prop} {w : Link}
    (hw : ∀ cc ∈ w.conns, ∀ b ∈ cc.inflight, P b) (k : ℕ) :
    ∀ cc ∈ (w.read k).conns, ∀ b ∈ cc.inflight, P b :=
  forall_conns_modify hw (fun cc hcc b hb =>
    hw cc (List.mem_of_getElem? hcc) b (List.mem_of_mem_tail hb))

theorem forall_inflight_applied {P : Batch → Prop} {w : Link}
    (hw : ∀ cc ∈ w.conns, ∀ b ∈ cc.inflight, P b) (k : ℕ) :
    ∀ cc ∈ (w.applied k).conns, ∀ b ∈ cc.inflight, P b :=
  forall_conns_modify hw (fun cc hcc => hw cc (List.mem_of_getElem? hcc))

theorem next_eq_some {w : Link} {k : ℕ} {p : Bool × Batch} (hp : w.next k = some p) :
    ∃ cc, w.conns[k]? = some cc ∧ cc.applying = [] ∧ p.1 = cc.firstBatch ∧
      cc.inflight.head? = some p.2 := by
  obtain ⟨cc, hcc, hhead⟩ := Option.bind_eq_some_iff.1 hp
  split_ifs at hhead with hidle
  obtain ⟨b, hb, rfl⟩ := Option.map_eq_some_iff.1 hhead
  exact ⟨cc, hcc, hidle, rfl, hb⟩

theorem forall_inflight_next {P : Batch → Prop} {w : Link}
    (hw : ∀ cc ∈ w.conns, ∀ b ∈ cc.inflight, P b) {k : ℕ} {p : Bool × Batch}
    (hp : w.next k = some p) : P p.2 := by
  obtain ⟨cc, hcc, _, _, hhead⟩ := next_eq_some hp
  exact hw cc (List.mem_of_getElem? hcc) p.2 (List.mem_of_mem_head? hhead)

end Link

structure Node (V : Type*) where
  nodeID : GoString
  authToken : GoString
  replica : Replica V
  log : DeltaLog
  peerSeqs : GoString → Option ℕ

namespace Node

variable {V : Type*}

/-- Where the replicator continues: the cursor, or the watermark when there is none. -/
def lastSeq (n : Node V) (peer : GoString) : ℕ :=
  (n.peerSeqs peer).getD (n.replica.store.getPeerSeq peer)

def SendCondition (n : Node V) (peer : GoString) : Prop := n.log.head > n.lastSeq peer + 1

instance (n : Node V) (peer : GoString) : Decidable (n.SendCondition peer) :=
  inferInstanceAs (Decidable (_ > _))

def storeSeq (n : Node V) (peer : GoString) (seq : ℕ) : Node V :=
  { n with peerSeqs := Function.update n.peerSeqs peer (some seq) }

def deleteSeq (n : Node V) (peer : GoString) : Node V :=
  { n with peerSeqs := Function.update n.peerSeqs peer none }

/-- The cursor that `LoadOrStore` returns: the one there is, or the given one. -/
def loadOrStore (n : Node V) (peer : GoString) (seed : ℕ) : ℕ := (n.peerSeqs peer).getD seed

/-- What `handleConn` does with the handshake of a batch, or `none` when it closes the connection
instead. -/
def handleHandshake (n : Node V) (firstBatch : Bool) (b : Batch) : Option (Node V) :=
  match b.handshake with
  | some h =>
      if n.authToken ≠ [] ∧ h.authToken ≠ n.authToken then none
      else some (n.storeSeq b.fromNode h.lastSeenSeq)
  | none => if firstBatch ∧ n.authToken ≠ [] then none else some n

theorem handleHandshake_eq_some {n n' : Node V} {firstBatch : Bool} {b : Batch}
    (h : n.handleHandshake firstBatch b = some n') :
    n' = { n with
      peerSeqs := b.handshake.elim n.peerSeqs
        (fun h => Function.update n.peerSeqs b.fromNode (some h.lastSeenSeq)) } := by
  unfold handleHandshake at h
  cases hb : b.handshake with
  | none =>
      simp only [hb] at h
      split_ifs at h
      exact (Option.some.inj h).symm
  | some hs =>
      simp only [hb] at h
      split_ifs at h
      exact (Option.some.inj h).symm

theorem handleHandshake_isSome {n : Node V} {firstBatch : Bool} {b : Batch}
    (htoken : ∀ h, b.handshake = some h → h.authToken = n.authToken)
    (hfirst : firstBatch = true → b.handshake ≠ none) :
    (n.handleHandshake firstBatch b).isSome = true := by
  unfold handleHandshake
  cases hb : b.handshake with
  | none =>
      cases firstBatch with
      | true => exact absurd hb (hfirst rfl)
      | false => simp
  | some hs => simp [htoken hs hb]

end Node

end Capacitor
