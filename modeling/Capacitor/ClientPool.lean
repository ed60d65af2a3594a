import Mathlib.Data.List.AList
import Capacitor.Admission

/-!
# The connections of the stream client

`SendBatch` may be called by any number of goroutines, while the janitor, `CloseConn` and `Close`
run beside them. What is done under the lock of the client is one step, and so is each access to a
connection; dialling and writing happen outside the lock. Two calls that find no connection to a
node both dial it, and the one that comes second to the lock closes what it has dialled.

Sockets are counted in the order in which they are dialled. `peer` is the node that a socket was
dialled for and `written` are the batches that were written to it; the program keeps neither.
-/

namespace Capacitor

structure ClientConn where
  peer : GoString
  closed : Bool
  lastUsed : Int64
  handshakeDone : Bool
  written : List Batch

structure SendRequest where
  nodeID : GoString
  batch : Batch
  lastSeenPeerSeq : ℕ

/-- How far a call of `SendBatch` has come: it has found no connection, has connected and waits for
the TLS handshake, has dialled, has been given a connection, is about to write, or has closed the
connection after a failed write. -/
inductive SendPhase where
  | dialing
  | connected (s : ℕ)
  | dialled (s : ℕ)
  | returned (s : ℕ)
  | writing (s : ℕ) (b : Batch)
  | failed (s : ℕ)

namespace SendPhase

def socket : SendPhase → Option ℕ
  | dialing => none
  | connected s | dialled s | returned s | writing s _ | failed s => some s

/-- The call alone knows its socket. -/
def owns : SendPhase → Bool
  | connected _ | dialled _ => true
  | _ => false

def early : SendPhase → Bool
  | dialing | connected _ | dialled _ => true
  | _ => false

end SendPhase

structure StreamClient (ι : Type*) where
  tls : Bool
  authToken : GoString
  conns : AList (fun _ : GoString => ℕ)
  sockets : ℕ → ClientConn
  count : ℕ
  calls : ι → Option (SendRequest × SendPhase)
  stopped : Bool

inductive ClientAction (ι : Type*) where
  | lookup (i : ι) (r : SendRequest) (now : Int64)
  | dialFailed (i : ι)
  | connect (i : ι) (now : Int64)
  | tlsFailed (i : ι)
  | tlsDone (i : ι) (now : Int64)
  | register (i : ι)
  | prepare (i : ι)
  | write (i : ι)
  | writeFailed (i : ι)
  | drop (i : ι)
  | janitor (now : Int64)
  | closeConn (nodeID : GoString)
  | stop
  | closeAll

namespace StreamClient

variable {ι : Type*}

def newStreamClient (tls : Bool) (authToken : GoString) : StreamClient ι where
  tls := tls
  authToken := authToken
  conns := ∅
  sockets := fun _ => ⟨[], true, 0, false, []⟩
  count := 0
  calls := fun _ => none
  stopped := false

def setSocket (c : StreamClient ι) (s : ℕ) (cc : ClientConn) : StreamClient ι :=
  { c with sockets := Function.update c.sockets s cc }

def close (c : StreamClient ι) (s : ℕ) : StreamClient ι :=
  c.setSocket s { c.sockets s with closed := true }

def used (c : StreamClient ι) (s : ℕ) (now : Int64) : StreamClient ι :=
  c.setSocket s { c.sockets s with lastUsed := now }

def idle (c : StreamClient ι) (now : Int64) (s : ℕ) : Bool :=
  now - (c.sockets s).lastUsed > 2 * 60 * 1000000000

/-- The connection to a node is closed and deleted if the condition holds of it. -/
def closeIf (p : StreamClient ι → ℕ → Bool) (c : StreamClient ι) (nodeID : GoString) :
    StreamClient ι :=
  match c.conns.lookup nodeID with
  | some s => if p c s then { c.close s with conns := c.conns.erase nodeID } else c
  | none => c

variable [DecidableEq ι]

def setCall (c : StreamClient ι) (i : ι) (call : Option (SendRequest × SendPhase)) :
    StreamClient ι :=
  { c with calls := Function.update c.calls i call }

/-- The batch as it is written: the first one gets the handshake. -/
def outgoing (c : StreamClient ι) (r : SendRequest) (s : ℕ) : Batch :=
  if (c.sockets s).handshakeDone then r.batch
  else { r.batch with handshake := some ⟨r.lastSeenPeerSeq, c.authToken⟩ }

def step (c : StreamClient ι) : ClientAction ι → Option (StreamClient ι)
  | .lookup i r now =>
      match c.calls i with
      | some _ => none
      | none =>
          match c.conns.lookup r.nodeID with
          | some s => some ((c.used s now).setCall i (some (r, .returned s)))
          | none => some (c.setCall i (some (r, .dialing)))
  | .dialFailed i =>
      match c.calls i with
      | some (_, .dialing) => some (c.setCall i none)
      | _ => none
  | .connect i now =>
      match c.calls i with
      | some (r, .dialing) =>
          some (({ c with count := c.count + 1 }.setSocket c.count
            ⟨r.nodeID, false, now, false, []⟩).setCall i
              (some (r, if c.tls then .connected c.count else .dialled c.count)))
      | _ => none
  | .tlsFailed i =>
      match c.calls i with
      | some (_, .connected s) => some ((c.close s).setCall i none)
      | _ => none
  | .tlsDone i now =>
      match c.calls i with
      | some (r, .connected s) => some ((c.used s now).setCall i (some (r, .dialled s)))
      | _ => none
  | .register i =>
      match c.calls i with
      | some (r, .dialled s) =>
          match c.conns.lookup r.nodeID with
          | some existing => some ((c.close s).setCall i (some (r, .returned existing)))
          | none =>
              some ({ c with conns := c.conns.insert r.nodeID s }.setCall i (some (r, .returned s)))
      | _ => none
  | .prepare i =>
      match c.calls i with
      | some (r, .returned s) =>
          some ((c.setSocket s { c.sockets s with handshakeDone := true }).setCall i
            (some (r, .writing s (c.outgoing r s))))
      | _ => none
  | .write i =>
      match c.calls i with
      | some (_, .writing s b) =>
          if (c.sockets s).closed then none
          else
            some ((c.setSocket s
              { c.sockets s with written := (c.sockets s).written ++ [b] }).setCall i none)
      | _ => none
  | .writeFailed i =>
      match c.calls i with
      | some (r, .writing s _) => some ((c.close s).setCall i (some (r, .failed s)))
      | _ => none
  | .drop i =>
      match c.calls i with
      | some (r, .failed s) =>
          some ({ c with
            conns := if c.conns.lookup r.nodeID = some s then c.conns.erase r.nodeID
              else c.conns }.setCall i none)
      | _ => none
  | .janitor now => some (c.conns.keys.foldl (closeIf (fun c s => c.idle now s)) c)
  | .closeConn nodeID => some (closeIf (fun _ _ => true) c nodeID)
  | .stop => if c.stopped then none else some { c with stopped := true }
  | .closeAll =>
      if c.stopped then
        some { c with
          sockets := fun s =>
            if s ∈ c.conns.entries.map Sigma.snd then { c.sockets s with closed := true }
            else c.sockets s
          conns := ∅ }
      else none

inductive Steps (c : StreamClient ι) : ClientAction ι → StreamClient ι → Prop
  | found {i : ι} {r : SendRequest} {now : Int64} {s : ℕ} (hidle : c.calls i = none)
      (hs : c.conns.lookup r.nodeID = some s) :
      Steps c (.lookup i r now) ((c.used s now).setCall i (some (r, .returned s)))
  | missing {i : ι} {r : SendRequest} {now : Int64} (hidle : c.calls i = none)
      (hnone : c.conns.lookup r.nodeID = none) :
      Steps c (.lookup i r now) (c.setCall i (some (r, .dialing)))
  | dialFailed {i : ι} {r : SendRequest} (hcall : c.calls i = some (r, .dialing)) :
      Steps c (.dialFailed i) (c.setCall i none)
  | connect {i : ι} {r : SendRequest} {now : Int64} {p : SendPhase}
      (hcall : c.calls i = some (r, .dialing)) (hp : p.socket = some c.count)
      (howns : p.owns = true) :
      Steps c (.connect i now) (({ c with count := c.count + 1 }.setSocket c.count
        ⟨r.nodeID, false, now, false, []⟩).setCall i (some (r, p)))
  | tlsFailed {i : ι} {r : SendRequest} {s : ℕ} (hcall : c.calls i = some (r, .connected s)) :
      Steps c (.tlsFailed i) ((c.close s).setCall i none)
  | tlsDone {i : ι} {r : SendRequest} {now : Int64} {s : ℕ}
      (hcall : c.calls i = some (r, .connected s)) :
      Steps c (.tlsDone i now) ((c.used s now).setCall i (some (r, .dialled s)))
  | existing {i : ι} {r : SendRequest} {s s' : ℕ} (hcall : c.calls i = some (r, .dialled s))
      (hs' : c.conns.lookup r.nodeID = some s') :
      Steps c (.register i) ((c.close s).setCall i (some (r, .returned s')))
  | register {i : ι} {r : SendRequest} {s : ℕ} (hcall : c.calls i = some (r, .dialled s))
      (hnone : c.conns.lookup r.nodeID = none) :
      Steps c (.register i)
        ({ c with conns := c.conns.insert r.nodeID s }.setCall i (some (r, .returned s)))
  | prepare {i : ι} {r : SendRequest} {s : ℕ} (hcall : c.calls i = some (r, .returned s)) :
      Steps c (.prepare i) ((c.setSocket s { c.sockets s with handshakeDone := true }).setCall i
        (some (r, .writing s (c.outgoing r s))))
  | write {i : ι} {r : SendRequest} {s : ℕ} {b : Batch}
      (hcall : c.calls i = some (r, .writing s b)) (hopen : (c.sockets s).closed = false) :
      Steps c (.write i) ((c.setSocket s
        { c.sockets s with written := (c.sockets s).written ++ [b] }).setCall i none)
  | writeFailed {i : ι} {r : SendRequest} {s : ℕ} {b : Batch}
      (hcall : c.calls i = some (r, .writing s b)) :
      Steps c (.writeFailed i) ((c.close s).setCall i (some (r, .failed s)))
  | drop {i : ι} {r : SendRequest} {s : ℕ} (hcall : c.calls i = some (r, .failed s)) :
      Steps c (.drop i) ({ c with
        conns := if c.conns.lookup r.nodeID = some s then c.conns.erase r.nodeID
          else c.conns }.setCall i none)
  | janitor (now : Int64) :
      Steps c (.janitor now) (c.conns.keys.foldl (closeIf (fun c s => c.idle now s)) c)
  | closeConn (nodeID : GoString) :
      Steps c (.closeConn nodeID) (closeIf (fun _ _ => true) c nodeID)
  | stop (hrunning : c.stopped = false) : Steps c .stop { c with stopped := true }
  | closeAll (hstopped : c.stopped = true) :
      Steps c .closeAll { c with
        sockets := fun s =>
          if s ∈ c.conns.entries.map Sigma.snd then { c.sockets s with closed := true }
          else c.sockets s
        conns := ∅ }

theorem steps_of_step {c d : StreamClient ι} {a : ClientAction ι} (h : c.step a = some d) :
    c.Steps a d := by
  cases a with
  | lookup i r now =>
      simp only [step] at h
      split at h
      next => cases h
      next hidle =>
        split at h
        next s hs =>
          obtain rfl := Option.some.inj h
          exact .found hidle hs
        next hnone =>
          obtain rfl := Option.some.inj h
          exact .missing hidle hnone
  | dialFailed i =>
      simp only [step] at h
      split at h
      next r hcall =>
        obtain rfl := Option.some.inj h
        exact .dialFailed hcall
      next => cases h
  | connect i now =>
      simp only [step] at h
      split at h
      next r hcall =>
        obtain rfl := Option.some.inj h
        refine .connect hcall ?_ ?_
        · split_ifs <;> rfl
        · split_ifs <;> rfl
      next => cases h
  | tlsFailed i =>
      simp only [step] at h
      split at h
      next r s hcall =>
        obtain rfl := Option.some.inj h
        exact .tlsFailed hcall
      next => cases h
  | tlsDone i now =>
      simp only [step] at h
      split at h
      next r s hcall =>
        obtain rfl := Option.some.inj h
        exact .tlsDone hcall
      next => cases h
  | register i =>
      simp only [step] at h
      split at h
      next r s hcall =>
        split at h
        next s' hs' =>
          obtain rfl := Option.some.inj h
          exact .existing hcall hs'
        next hnone =>
          obtain rfl := Option.some.inj h
          exact .register hcall hnone
      next => cases h
  | prepare i =>
      simp only [step] at h
      split at h
      next r s hcall =>
        obtain rfl := Option.some.inj h
        exact .prepare hcall
      next => cases h
  | write i =>
      simp only [step] at h
      split at h
      next r s b hcall =>
        split_ifs at h with hclosed
        obtain rfl := Option.some.inj h
        exact .write hcall (Bool.eq_false_iff.2 hclosed)
      next => cases h
  | writeFailed i =>
      simp only [step] at h
      split at h
      next r s b hcall =>
        obtain rfl := Option.some.inj h
        exact .writeFailed hcall
      next => cases h
  | drop i =>
      simp only [step] at h
      split at h
      next r s hcall =>
        obtain rfl := Option.some.inj h
        exact .drop hcall
      next => cases h
  | janitor now =>
      obtain rfl := Option.some.inj h
      exact .janitor now
  | closeConn nodeID =>
      obtain rfl := Option.some.inj h
      exact .closeConn nodeID
  | stop =>
      simp only [step] at h
      split_ifs at h with hstopped
      obtain rfl := Option.some.inj h
      exact .stop (Bool.eq_false_iff.2 hstopped)
  | closeAll =>
      simp only [step] at h
      split_ifs at h with hstopped
      obtain rfl := Option.some.inj h
      exact .closeAll hstopped

@[simp] theorem calls_setCall (c : StreamClient ι) (i : ι)
    (call : Option (SendRequest × SendPhase)) (j : ι) :
    (c.setCall i call).calls j = if j = i then call else c.calls j :=
  Function.update_apply _ _ _ _

omit [DecidableEq ι] in
@[simp] theorem sockets_setSocket (c : StreamClient ι) (s : ℕ) (cc : ClientConn) (s' : ℕ) :
    (c.setSocket s cc).sockets s' = if s' = s then cc else c.sockets s' :=
  Function.update_apply _ _ _ _

omit [DecidableEq ι] in
theorem setSocket_same {c : StreamClient ι} {s : ℕ} {cc : ClientConn}
    (hpeer : cc.peer = (c.sockets s).peer) (hclosed : cc.closed = (c.sockets s).closed) (s' : ℕ) :
    ((c.setSocket s cc).sockets s').peer = (c.sockets s').peer ∧
      ((c.setSocket s cc).sockets s').closed = (c.sockets s').closed := by
  rw [sockets_setSocket]
  split_ifs with hs
  · rw [hs]
    exact ⟨hpeer, hclosed⟩
  · exact ⟨rfl, rfl⟩

omit [DecidableEq ι] in
theorem peer_close (c : StreamClient ι) (s s' : ℕ) :
    ((c.close s).sockets s').peer = (c.sockets s').peer := by
  rw [close, sockets_setSocket]
  split_ifs with hs
  · rw [hs]
  · rfl

omit [DecidableEq ι] in
theorem closed_close (c : StreamClient ι) (s s' : ℕ) :
    ((c.close s).sockets s').closed = if s' = s then true else (c.sockets s').closed := by
  rw [close, sockets_setSocket]
  split_ifs <;> rfl

/-- A registered connection belongs to the node it is registered for and is open, unless a call that
closed it is going to delete it. A call works on a socket of the node it was made for; a socket that
the call has dialled itself is open, and neither registered nor known to another call. Every open
socket is registered or owned by a call. -/
structure Sound (c : StreamClient ι) : Prop where
  registered : ∀ n s, c.conns.lookup n = some s → (c.sockets s).peer = n ∧ s < c.count
  pending : ∀ n s, c.conns.lookup n = some s → (c.sockets s).closed = true →
    ∃ i r, c.calls i = some (r, .failed s)
  known : ∀ i r p s, c.calls i = some (r, p) → p.socket = some s →
    (c.sockets s).peer = r.nodeID ∧ s < c.count
  failed : ∀ i r s, c.calls i = some (r, .failed s) → (c.sockets s).closed = true
  owned : ∀ i r p s, c.calls i = some (r, p) → p.socket = some s → p.owns = true →
    (c.sockets s).closed = false ∧ ∀ n, c.conns.lookup n ≠ some s
  exclusive : ∀ i j r r' p p' s, c.calls i = some (r, p) → c.calls j = some (r', p') →
    p.socket = some s → p'.socket = some s → p.owns = true → i = j
  accounted : ∀ s, (c.sockets s).closed = false → (∃ n, c.conns.lookup n = some s) ∨
    ∃ i r p, c.calls i = some (r, p) ∧ p.socket = some s ∧ p.owns = true

omit [DecidableEq ι] in
theorem sound_newStreamClient (tls : Bool) (authToken : GoString) :
    (newStreamClient tls authToken : StreamClient ι).Sound where
  registered n s h := by simp [newStreamClient] at h
  pending n s h := by simp [newStreamClient] at h
  known i r p s h := by cases h
  failed i r s h := by cases h
  owned i r p s h := by cases h
  exclusive i j r r' p p' s h := by cases h
  accounted s h := by cases h

namespace Sound

variable {c d : StreamClient ι} {i : ι} {r : SendRequest} {s : ℕ}
  {call : Option (SendRequest × SendPhase)}

theorem of_calls (h : c.Sound)
    (hcalls : ∀ j, d.calls j = if j = i then call else c.calls j) (hconns : d.conns = c.conns)
    (hcount : d.count = c.count)
    (hsockets : ∀ s, (d.sockets s).peer = (c.sockets s).peer ∧
      (d.sockets s).closed = (c.sockets s).closed)
    (hold : ∀ r p, c.calls i = some (r, p) → p.owns = false ∧ ∀ s, p ≠ .failed s)
    (hnew : ∀ r p, call = some (r, p) → p.owns = false ∧ (∀ s, p ≠ .failed s) ∧
      ∀ s, p.socket = some s → (c.sockets s).peer = r.nodeID ∧ s < c.count ∧
        ∀ j r' p', c.calls j = some (r', p') → p'.socket = some s → p'.owns = false) :
    d.Sound := by
  obtain ⟨hregistered, hpending, hknown, hfailed, howned, hexclusive, haccounted⟩ := h
  constructor
  case registered => grind
  case pending => grind
  case known => grind
  case failed => grind
  case owned => grind
  case exclusive => grind
  case accounted => grind

theorem of_adopt (h : c.Sound) {p : SendPhase} (hcall : c.calls i = some (r, .dialing))
    (hp : p.socket = some c.count) (howns : p.owns = true)
    (hcalls : ∀ j, d.calls j = if j = i then some (r, p) else c.calls j)
    (hconns : d.conns = c.conns) (hcount : d.count = c.count + 1)
    (hpeer : ∀ s, (d.sockets s).peer = if s = c.count then r.nodeID else (c.sockets s).peer)
    (hclosed : ∀ s, (d.sockets s).closed = if s = c.count then false else (c.sockets s).closed) :
    d.Sound := by
  obtain ⟨hregistered, hpending, hknown, hfailed, howned, hexclusive, haccounted⟩ := h
  constructor
  case registered => grind
  case pending => grind
  case known => grind
  case failed => grind [SendPhase.socket, SendPhase.owns]
  case owned => grind
  case exclusive =>
      intro j k r₁ r₂ p₁ p₂ s₁ hj hk hs₁ hs₂ hown
      rw [hcalls] at hj hk
      split_ifs at hj hk with hji hki hki
      · exact hji.trans hki.symm
      · grind
      · grind
      · exact hexclusive j k r₁ r₂ p₁ p₂ s₁ hj hk hs₁ hs₂ hown
  case accounted => grind [SendPhase.socket, SendPhase.owns]

theorem of_pass (h : c.Sound) {p p' : SendPhase} (hcall : c.calls i = some (r, p))
    (hs : p.socket = some s) (howns : p.owns = true) (hs' : p'.socket = some s)
    (howns' : p'.owns = true)
    (hcalls : ∀ j, d.calls j = if j = i then some (r, p') else c.calls j)
    (hconns : d.conns = c.conns) (hcount : d.count = c.count)
    (hsockets : ∀ s, (d.sockets s).peer = (c.sockets s).peer ∧
      (d.sockets s).closed = (c.sockets s).closed) : d.Sound := by
  obtain ⟨hregistered, hpending, hknown, hfailed, howned, hexclusive, haccounted⟩ := h
  constructor
  case registered => grind
  case pending => grind [SendPhase.owns]
  case known => grind
  case failed => grind [SendPhase.owns]
  case owned => grind
  case exclusive =>
      intro j k r₁ r₂ p₁ p₂ s₁ hj hk hs₁ hs₂ hown
      rw [hcalls] at hj hk
      split_ifs at hj hk with hji hki hki
      · exact hji.trans hki.symm
      · grind
      · grind
      · exact hexclusive j k r₁ r₂ p₁ p₂ s₁ hj hk hs₁ hs₂ hown
  case accounted => grind

theorem of_discard (h : c.Sound) {p : SendPhase}
    (hcall : c.calls i = some (r, p)) (hs : p.socket = some s) (howns : p.owns = true)
    (hnew : call = none ∨ ∃ s', call = some (r, .returned s') ∧ c.conns.lookup r.nodeID = some s')
    (hcalls : ∀ j, d.calls j = if j = i then call else c.calls j)
    (hconns : d.conns = c.conns) (hcount : d.count = c.count)
    (hpeer : ∀ s, (d.sockets s).peer = (c.sockets s).peer)
    (hclosed : ∀ s', (d.sockets s').closed = if s' = s then true else (c.sockets s').closed) :
    d.Sound := by
  obtain ⟨hregistered, hpending, hknown, hfailed, howned, hexclusive, haccounted⟩ := h
  constructor
  case registered => grind
  case pending => grind [SendPhase.owns]
  case known => grind [SendPhase.socket]
  case failed => grind
  case owned => grind [SendPhase.owns]
  case exclusive =>
      intro j k r₁ r₂ p₁ p₂ s₁ hj hk hs₁ hs₂ hown
      rw [hcalls] at hj hk
      split_ifs at hj hk with hji hki hki
      · exact hji.trans hki.symm
      · grind [SendPhase.owns]
      · rcases hnew with rfl | ⟨s', rfl, hlookup⟩
        · cases hk
        · obtain ⟨-, rfl⟩ := Prod.mk.inj (Option.some.inj hk)
          obtain rfl : s' = s₁ := Option.some.inj hs₂
          exact absurd hlookup ((howned j r₁ p₁ s' hj hs₁ hown).2 _)
      · exact hexclusive j k r₁ r₂ p₁ p₂ s₁ hj hk hs₁ hs₂ hown
  case accounted => grind

theorem of_enrol (h : c.Sound) {p : SendPhase}
    (hcall : c.calls i = some (r, p)) (hs : p.socket = some s) (howns : p.owns = true)
    (hnone : c.conns.lookup r.nodeID = none)
    (hcalls : ∀ j, d.calls j = if j = i then some (r, .returned s) else c.calls j)
    (hconns : ∀ n, d.conns.lookup n = if n = r.nodeID then some s else c.conns.lookup n)
    (hcount : d.count = c.count) (hsockets : d.sockets = c.sockets) :
    d.Sound := by
  obtain ⟨hregistered, hpending, hknown, hfailed, howned, hexclusive, haccounted⟩ := h
  constructor
  case registered => grind
  case pending => grind [SendPhase.owns]
  case known => grind [SendPhase.socket]
  case failed => grind
  case owned => grind [SendPhase.owns]
  case exclusive =>
      intro j k r₁ r₂ p₁ p₂ s₁ hj hk hs₁ hs₂ hown
      rw [hcalls] at hj hk
      split_ifs at hj hk with hji hki hki
      · exact hji.trans hki.symm
      · grind [SendPhase.owns]
      · grind [SendPhase.socket]
      · exact hexclusive j k r₁ r₂ p₁ p₂ s₁ hj hk hs₁ hs₂ hown
  case accounted =>
    intro s' hopen
    rw [hsockets] at hopen
    rcases haccounted s' hopen with ⟨n, hn⟩ | ⟨j, r', p', hj, hs', hown⟩
    · have hne : n ≠ r.nodeID := by
        rintro rfl
        cases hnone.symm.trans hn
      exact Or.inl ⟨n, by rw [hconns, if_neg hne, hn]⟩
    · by_cases hji : j = i
      · subst hji
        obtain ⟨rfl, rfl⟩ := Prod.mk.inj (Option.some.inj (hcall.symm.trans hj))
        exact Or.inl ⟨r.nodeID, by rw [hconns, if_pos rfl, ← hs, hs']⟩
      · exact Or.inr ⟨j, r', p', by rw [hcalls, if_neg hji, hj], hs', hown⟩

theorem of_fail (h : c.Sound) {b : Batch} (hcall : c.calls i = some (r, .writing s b))
    (hcalls : ∀ j, d.calls j = if j = i then some (r, .failed s) else c.calls j)
    (hconns : d.conns = c.conns) (hcount : d.count = c.count)
    (hpeer : ∀ s, (d.sockets s).peer = (c.sockets s).peer)
    (hclosed : ∀ s', (d.sockets s').closed = if s' = s then true else (c.sockets s').closed) :
    d.Sound := by
  obtain ⟨hregistered, hpending, hknown, hfailed, howned, hexclusive, haccounted⟩ := h
  constructor
  case registered => grind
  case pending => grind
  case known => grind [SendPhase.socket]
  case failed => grind
  case owned => grind [SendPhase.owns, SendPhase.socket]
  case exclusive =>
      intro j k r₁ r₂ p₁ p₂ s₁ hj hk hs₁ hs₂ hown
      rw [hcalls] at hj hk
      split_ifs at hj hk with hji hki hki
      · exact hji.trans hki.symm
      · grind [SendPhase.owns]
      · grind [SendPhase.socket]
      · exact hexclusive j k r₁ r₂ p₁ p₂ s₁ hj hk hs₁ hs₂ hown
  case accounted => grind [SendPhase.owns]

/-- After a failed write the connection is deleted, unless another one has taken its place. -/
theorem of_drop (h : c.Sound) (hcall : c.calls i = some (r, .failed s))
    (hcalls : ∀ j, d.calls j = if j = i then none else c.calls j)
    (hconns : ∀ n, d.conns.lookup n =
      if n = r.nodeID ∧ c.conns.lookup n = some s then none else c.conns.lookup n)
    (hcount : d.count = c.count) (hsockets : d.sockets = c.sockets) :
    d.Sound := by
  obtain ⟨hregistered, hpending, hknown, hfailed, howned, hexclusive, haccounted⟩ := h
  have hclosed := hfailed i r s hcall
  constructor
  case registered => grind
  case pending => grind [SendPhase.socket]
  case known => grind
  case failed => grind
  case owned => grind
  case exclusive =>
    intro j k r₁ r₂ p₁ p₂ s₁ hj hk hs₁ hs₂ hown
    rw [hcalls] at hj hk
    split_ifs at hj hk
    exact hexclusive j k r₁ r₂ p₁ p₂ s₁ hj hk hs₁ hs₂ hown
  case accounted =>
    intro s' hopen
    rw [hsockets] at hopen
    have hne : s' ≠ s := by
      rintro rfl
      cases hclosed.symm.trans hopen
    rcases haccounted s' hopen with ⟨n, hn⟩ | ⟨j, r', p', hj, hs', hown⟩
    · refine Or.inl ⟨n, ?_⟩
      rw [hconns, if_neg (fun hs => hne (Option.some.inj (hn.symm.trans hs.2))), hn]
    · refine Or.inr ⟨j, r', p', ?_, hs', hown⟩
      rw [hcalls, if_neg, hj]
      rintro rfl
      obtain ⟨-, rfl⟩ := Prod.mk.inj (Option.some.inj (hcall.symm.trans hj))
      cases hown

omit [DecidableEq ι] in
theorem of_close (h : c.Sound) (gone : GoString → Prop) (hcalls : d.calls = c.calls)
    (hconns : ∀ n s, d.conns.lookup n = some s ↔ c.conns.lookup n = some s ∧ ¬ gone n)
    (hcount : d.count = c.count) (hpeer : ∀ s, (d.sockets s).peer = (c.sockets s).peer)
    (hclosed : ∀ s, (d.sockets s).closed = true ↔
      (c.sockets s).closed = true ∨ ∃ n, c.conns.lookup n = some s ∧ gone n) :
    d.Sound := by
  have hopen (s : ℕ) : (d.sockets s).closed = false ↔
      (c.sockets s).closed = false ∧ ∀ n, c.conns.lookup n = some s → ¬ gone n := by
    have hiff := not_congr (hclosed s)
    simpa using hiff
  refine ⟨?_, ?_, ?_, ?_, ?_, ?_, ?_⟩
  · intro n s hs
    rw [hpeer, hcount]
    exact h.registered n s ((hconns n s).1 hs).1
  · intro n s hs hc
    obtain ⟨hs, hkept⟩ := (hconns n s).1 hs
    rw [hcalls]
    rcases (hclosed s).1 hc with hc | ⟨n', hs', hgone⟩
    · exact h.pending n s hs hc
    · obtain rfl : n = n' := (h.registered n s hs).1.symm.trans (h.registered n' s hs').1
      exact absurd hgone hkept
  · intro j r p s hj hs
    rw [hpeer, hcount]
    rw [hcalls] at hj
    exact h.known j r p s hj hs
  · intro j r s hj
    rw [hcalls] at hj
    exact (hclosed s).2 (Or.inl (h.failed j r s hj))
  · intro j r p s hj hs hown
    rw [hcalls] at hj
    obtain ⟨hc, hunregistered⟩ := h.owned j r p s hj hs hown
    exact ⟨(hopen s).2 ⟨hc, fun n hn => absurd hn (hunregistered n)⟩,
      fun n hn => hunregistered n ((hconns n s).1 hn).1⟩
  · rw [hcalls]
    exact h.exclusive
  · intro s hs
    obtain ⟨hc, hkept⟩ := (hopen s).1 hs
    rw [hcalls]
    exact (h.accounted s hc).imp_left (fun ⟨n, hn⟩ => ⟨n, (hconns n s).2 ⟨hn, hkept n hn⟩⟩)

omit [DecidableEq ι] in
theorem closeIf (h : c.Sound) (p : StreamClient ι → ℕ → Bool) (nodeID : GoString) :
    (StreamClient.closeIf p c nodeID).Sound := by
  unfold StreamClient.closeIf
  cases hlookup : c.conns.lookup nodeID with
  | none => exact h
  | some s =>
      dsimp only
      split_ifs
      · refine h.of_close (· = nodeID) rfl ?_ rfl (peer_close c s) ?_
        · intro n s'
          by_cases hn : n = nodeID
          · subst hn
            simp
          · simp [AList.lookup_erase_ne hn, hn]
        · intro s'
          change ((c.close s).sockets s').closed = true ↔ _
          rw [closed_close]
          have hiff : (∃ n, c.conns.lookup n = some s' ∧ n = nodeID) ↔ s' = s := by
            rw [exists_eq_right, hlookup, Option.some.injEq, eq_comm]
          rw [hiff]
          split_ifs with hs
          · simp [hs]
          · simp [hs]
      · exact h

omit [DecidableEq ι] in
theorem foldl_closeIf (p : StreamClient ι → ℕ → Bool) (nodeIDs : List GoString) (h : c.Sound) :
    (nodeIDs.foldl (StreamClient.closeIf p) c).Sound := by
  induction nodeIDs generalizing c with
  | nil => exact h
  | cons nodeID nodeIDs ih => exact ih (h.closeIf p nodeID)

omit [DecidableEq ι] in
theorem not_owns_of_lookup (h : c.Sound) {n : GoString} (hs : c.conns.lookup n = some s) {j : ι}
    {r' : SendRequest} {p' : SendPhase} (hj : c.calls j = some (r', p'))
    (hp' : p'.socket = some s) : p'.owns = false :=
  Bool.eq_false_iff.2 (fun hown => (h.owned j r' p' s hj hp' hown).2 n hs)

omit [DecidableEq ι] in
theorem not_owns_of_call (h : c.Sound) {p : SendPhase} (hcall : c.calls i = some (r, p))
    (hp : p.socket = some s) (howns : p.owns = false) {j : ι} {r' : SendRequest} {p' : SendPhase}
    (hj : c.calls j = some (r', p')) (hp' : p'.socket = some s) : p'.owns = false := by
  refine Bool.eq_false_iff.2 (fun hown => ?_)
  obtain rfl := h.exclusive j i r' r p' p s hj hcall hp' hp hown
  obtain ⟨-, rfl⟩ := Prod.mk.inj (Option.some.inj (hcall.symm.trans hj))
  cases howns.symm.trans hown

theorem step {a : ClientAction ι} (h : c.Sound) (hstep : c.step a = some d) : d.Sound := by
  cases steps_of_step hstep with
  | @found i r now s hidle hs =>
      refine h.of_calls (calls_setCall _ i _) rfl rfl (setSocket_same rfl rfl) ?_ ?_
      · intro r p hp
        cases hidle.symm.trans hp
      · rintro r' p' hp'
        obtain ⟨rfl, rfl⟩ := Prod.mk.inj (Option.some.inj hp')
        refine ⟨rfl, fun _ => SendPhase.noConfusion, ?_⟩
        intro s' hs'
        obtain rfl := Option.some.inj hs'
        exact ⟨(h.registered _ _ hs).1, (h.registered _ _ hs).2,
          fun j r' p' hj hp' => h.not_owns_of_lookup hs hj hp'⟩
  | @missing i r now hidle hnone =>
      refine h.of_calls (calls_setCall _ i _) rfl rfl (fun _ => ⟨rfl, rfl⟩) ?_ ?_
      · intro r p hp
        cases hidle.symm.trans hp
      · rintro r' p' hp'
        obtain ⟨rfl, rfl⟩ := Prod.mk.inj (Option.some.inj hp')
        exact ⟨rfl, fun _ => SendPhase.noConfusion, fun _ hs => by cases hs⟩
  | @dialFailed i r hcall =>
      refine h.of_calls (calls_setCall _ i _) rfl rfl (fun _ => ⟨rfl, rfl⟩) ?_ ?_
      · intro r p hp
        obtain ⟨-, rfl⟩ := Prod.mk.inj (Option.some.inj (hcall.symm.trans hp))
        exact ⟨rfl, fun _ => SendPhase.noConfusion⟩
      · intro r' p' hp'
        cases hp'
  | @connect i r now p hcall hp howns =>
      refine h.of_adopt hcall hp howns (calls_setCall _ i _) rfl rfl ?_ ?_
      · intro s
        change ((setSocket _ _ _).sockets s).peer = _
        rw [sockets_setSocket]
        split_ifs <;> rfl
      · intro s
        change ((setSocket _ _ _).sockets s).closed = _
        rw [sockets_setSocket]
        split_ifs <;> rfl
  | @tlsFailed i r s hcall =>
      exact h.of_discard hcall rfl rfl (Or.inl rfl) (calls_setCall _ i _) rfl rfl (peer_close c s)
        (closed_close c s)
  | @tlsDone i r now s hcall =>
      exact h.of_pass hcall rfl rfl rfl rfl (calls_setCall _ i _) rfl rfl (setSocket_same rfl rfl)
  | @existing i r s s' hcall hs' =>
      exact h.of_discard hcall rfl rfl (Or.inr ⟨s', rfl, hs'⟩) (calls_setCall _ i _) rfl rfl
        (peer_close c s) (closed_close c s)
  | @register i r s hcall hnone =>
      refine h.of_enrol hcall rfl rfl hnone (calls_setCall _ i _) ?_ rfl rfl
      intro n
      change (c.conns.insert r.nodeID s).lookup n = _
      split_ifs with hn
      · rw [hn, AList.lookup_insert]
      · rw [AList.lookup_insert_ne hn]
  | @prepare i r s hcall =>
      refine h.of_calls (calls_setCall _ i _) rfl rfl (setSocket_same rfl rfl) ?_ ?_
      · intro r p hp
        obtain ⟨-, rfl⟩ := Prod.mk.inj (Option.some.inj (hcall.symm.trans hp))
        exact ⟨rfl, fun _ => SendPhase.noConfusion⟩
      · intro r' p' hp'
        obtain ⟨rfl, rfl⟩ := Prod.mk.inj (Option.some.inj hp')
        refine ⟨rfl, fun _ => SendPhase.noConfusion, ?_⟩
        intro s' hs'
        obtain rfl := Option.some.inj hs'
        exact ⟨(h.known i r _ s hcall rfl).1, (h.known i r _ s hcall rfl).2,
          fun j r' p' hj hp' => h.not_owns_of_call hcall rfl rfl hj hp'⟩
  | @write i r s b hcall hopen =>
      refine h.of_calls (calls_setCall _ i _) rfl rfl (setSocket_same rfl rfl) ?_ ?_
      · intro r p hp
        obtain ⟨-, rfl⟩ := Prod.mk.inj (Option.some.inj (hcall.symm.trans hp))
        exact ⟨rfl, fun _ => SendPhase.noConfusion⟩
      · intro r' p' hp'
        cases hp'
  | @writeFailed i r s b hcall =>
      exact h.of_fail hcall (calls_setCall _ i _) rfl rfl (peer_close c s) (closed_close c s)
  | @drop i r s hcall =>
      refine h.of_drop hcall (calls_setCall _ i _) ?_ rfl rfl
      intro n
      change AList.lookup n (if c.conns.lookup r.nodeID = some s then _ else _) = _
      by_cases hn : n = r.nodeID
      · subst hn
        split_ifs with hs hs' hs'
        · exact AList.lookup_erase _ _
        · exact absurd ⟨rfl, hs⟩ hs'
        · exact absurd hs'.2 hs
        · rfl
      · have hother : ¬ (n = r.nodeID ∧ c.conns.lookup n = some s) := fun hs => hn hs.1
        rw [if_neg hother]
        split_ifs
        · exact AList.lookup_erase_ne hn
        · rfl
  | janitor now => exact h.foldl_closeIf _ _
  | closeConn nodeID => exact h.closeIf _ _
  | stop => exact ⟨h.registered, h.pending, h.known, h.failed, h.owned, h.exclusive, h.accounted⟩
  | closeAll =>
      refine h.of_close (fun _ => True) rfl ?_ rfl ?_ ?_
      · intro n s
        simp
      · intro s
        dsimp only
        split_ifs <;> rfl
      · intro s
        have hmem : s ∈ c.conns.entries.map Sigma.snd ↔ ∃ n, c.conns.lookup n = some s := by
          rw [List.mem_map]
          constructor
          · rintro ⟨⟨n, s'⟩, he, rfl⟩
            exact ⟨n, AList.mem_lookup_iff.2 he⟩
          · rintro ⟨n, hn⟩
            exact ⟨⟨n, s⟩, AList.mem_lookup_iff.1 hn, rfl⟩
        simp only [and_true, ← hmem]
        split_ifs with hs
        · simp [hs]
        · simp [hs]

end Sound

section Runs

variable {c d e : StreamClient ι}

theorem run_sound {tls : Bool} {authToken : GoString} {as : List (ClientAction ι)}
    (hrun : StepSystem.run step (newStreamClient tls authToken) as = some c) : c.Sound :=
  StepSystem.run_invariant (fun _ _ _ h hstep => h.step hstep)
    (sound_newStreamClient tls authToken) hrun

/-- No connection is lost track of: an open one is registered for its node, or is about to be by the
call that dialled it. A batch never goes to another node than the one it is for. When no call is
under way, the open connections are the registered ones, one for each node. -/
theorem open_iff_registered {tls : Bool} {authToken : GoString} {as : List (ClientAction ι)}
    (hrun : StepSystem.run step (newStreamClient tls authToken) as = some c) :
    (∀ s, (c.sockets s).closed = false → c.conns.lookup (c.sockets s).peer = some s ∨
        ∃ i r p, c.calls i = some (r, p) ∧ p.socket = some s ∧ p.early = true) ∧
      (∀ i r p s, c.calls i = some (r, p) → p.socket = some s → (c.sockets s).peer = r.nodeID) ∧
      ((∀ i, c.calls i = none) → ∀ n s,
        c.conns.lookup n = some s ↔ (c.sockets s).peer = n ∧ (c.sockets s).closed = false) := by
  have h := run_sound hrun
  have hopen (s : ℕ) (hs : (c.sockets s).closed = false) :
      c.conns.lookup (c.sockets s).peer = some s ∨
        ∃ i r p, c.calls i = some (r, p) ∧ p.socket = some s ∧ p.early = true := by
    rcases h.accounted s hs with ⟨n, hn⟩ | ⟨i, r, p, hcall, hp, howns⟩
    · rw [(h.registered n s hn).1]
      exact Or.inl hn
    · refine Or.inr ⟨i, r, p, hcall, hp, ?_⟩
      cases p with
      | connected s => rfl
      | dialled s => rfl
      | _ => cases howns
  refine ⟨hopen, fun i r p s hcall hp => (h.known i r p s hcall hp).1, ?_⟩
  intro hidle n s
  constructor
  · intro hn
    refine ⟨(h.registered n s hn).1, Bool.eq_false_iff.2 (fun hclosed => ?_)⟩
    obtain ⟨i, r, hi⟩ := h.pending n s hn hclosed
    cases (hidle i).symm.trans hi
  · rintro ⟨rfl, hs⟩
    refine (hopen s hs).resolve_right ?_
    rintro ⟨i, r, p, hi, -⟩
    cases (hidle i).symm.trans hi

/-- `Close` has emptied the map, and no call is going to put anything into it. -/
structure Finished (c : StreamClient ι) : Prop where
  sound : c.Sound
  empty : ∀ n, c.conns.lookup n = none
  late : ∀ i r p, c.calls i = some (r, p) → p.early = false

def begins : ClientAction ι → Bool
  | .lookup _ _ _ => true
  | _ => false

omit [DecidableEq ι] in
theorem closeIf_of_empty (h : ∀ n, c.conns.lookup n = none) (p : StreamClient ι → ℕ → Bool)
    (nodeID : GoString) : closeIf p c nodeID = c := by
  rw [closeIf, h nodeID]

omit [DecidableEq ι] in
theorem foldl_closeIf_of_empty (h : ∀ n, c.conns.lookup n = none) (p : StreamClient ι → ℕ → Bool)
    (nodeIDs : List GoString) : nodeIDs.foldl (closeIf p) c = c := by
  induction nodeIDs with
  | nil => rfl
  | cons nodeID nodeIDs ih => rw [List.foldl_cons, closeIf_of_empty h, ih]

theorem Finished.step {a : ClientAction ι} (h : c.Finished) (ha : begins a = false)
    (hstep : c.step a = some d) : d.Finished := by
  have hlate {i : ι} {r : SendRequest} {p : SendPhase} (hcall : c.calls i = some (r, p))
      (hp : p.early = true) : False := Bool.false_ne_true ((h.late i r p hcall).symm.trans hp)
  have hcalls {c' : StreamClient ι} {i : ι} {call : Option (SendRequest × SendPhase)}
      (hc' : c'.calls = c.calls) (hcall : ∀ r p, call = some (r, p) → p.early = false) :
      ∀ j r p, (c'.setCall i call).calls j = some (r, p) → p.early = false := by
    intro j r p hj
    rw [calls_setCall, hc'] at hj
    split_ifs at hj
    · exact hcall r p hj
    · exact h.late j r p hj
  refine ⟨h.sound.step hstep, ?_, ?_⟩
  · cases steps_of_step hstep with
    | register hcall _ => exact (hlate hcall rfl).elim
    | @drop i r s hcall =>
        intro n
        change AList.lookup n (if c.conns.lookup r.nodeID = some s then _ else _) = _
        rw [if_neg (by simp [h.empty])]
        exact h.empty n
    | janitor now =>
        rw [foldl_closeIf_of_empty h.empty]
        exact h.empty
    | closeConn nodeID =>
        rw [closeIf_of_empty h.empty]
        exact h.empty
    | closeAll => exact fun n => rfl
    | _ => exact h.empty
  · cases steps_of_step hstep with
    | found => cases ha
    | missing => cases ha
    | dialFailed hcall => exact (hlate hcall rfl).elim
    | connect hcall => exact (hlate hcall rfl).elim
    | tlsFailed hcall => exact (hlate hcall rfl).elim
    | tlsDone hcall => exact (hlate hcall rfl).elim
    | existing hcall => exact (hlate hcall rfl).elim
    | register hcall => exact (hlate hcall rfl).elim
    | prepare =>
        refine hcalls rfl (fun r p hp => ?_)
        obtain ⟨-, rfl⟩ := Prod.mk.inj (Option.some.inj hp)
        rfl
    | write => exact hcalls rfl (fun r p hp => by cases hp)
    | writeFailed =>
        refine hcalls rfl (fun r p hp => ?_)
        obtain ⟨-, rfl⟩ := Prod.mk.inj (Option.some.inj hp)
        rfl
    | drop => exact hcalls rfl (fun r p hp => by cases hp)
    | janitor now =>
        rw [foldl_closeIf_of_empty h.empty]
        exact h.late
    | closeConn nodeID =>
        rw [closeIf_of_empty h.empty]
        exact h.late
    | stop => exact h.late
    | closeAll => exact h.late

/-- `Close` closes every connection for good, as long as no call has still to come to the lock and
none begins afterwards. -/
theorem closed_of_close {tls : Bool} {authToken : GoString} {as bs : List (ClientAction ι)}
    (hrun : StepSystem.run step (newStreamClient tls authToken) as = some c)
    (hlate : ∀ i r p, c.calls i = some (r, p) → p.early = false)
    (hclose : c.step .closeAll = some d) (hrun' : StepSystem.run step d bs = some e)
    (hbs : ∀ a ∈ bs, begins a = false) (s : ℕ) : (e.sockets s).closed = true := by
  have hfinished : d.Finished := by
    refine ⟨(run_sound hrun).step hclose, ?_, ?_⟩
    · cases steps_of_step hclose with
      | closeAll => exact fun n => rfl
    · cases steps_of_step hclose with
      | closeAll => exact hlate
  have h : e.Finished := StepSystem.run_invariant_along
    (fun _ _ _ h ha hstep => h.step ha hstep) hfinished
    (StepSystem.along_of_forall_mem hbs d) hrun'
  by_contra hopen
  rcases h.sound.accounted s (Bool.eq_false_iff.2 hopen) with ⟨n, hn⟩ | ⟨i, r, p, hi, -, howns⟩
  · cases (h.empty n).symm.trans hn
  · have hearly := h.late i r p hi
    cases p with
    | connected s => cases hearly
    | dialled s => cases hearly
    | _ => cases howns

def toB (raw : GoString) : SendRequest := ⟨bytes "b", ⟨bytes "a", [raw], none⟩, 4⟩

/-- Two calls dial the same node, and the second one closes what it has dialled. A write fails, the
connection is deleted, and the next call dials again. -/
def poolRun : List (ClientAction Bool) :=
  [.lookup false (toB [1]) 1, .lookup true (toB [2]) 1, .connect true 2, .connect false 2,
    .register true, .register false, .prepare true, .write true, .prepare false,
    .writeFailed false, .drop false, .lookup true (toB [3]) 3, .connect true 4, .register true,
    .prepare true, .write true]

theorem poolRun_isSome :
    (StepSystem.run step (newStreamClient false (bytes "t")) poolRun).isSome = true := by
  decide +kernel

theorem open_iff_registered_poolRun :
    ∃ c, StepSystem.run step (newStreamClient false (bytes "t")) poolRun = some c ∧
      c.count = 3 ∧ ∀ n s, c.conns.lookup n = some s ↔
        (c.sockets s).peer = n ∧ (c.sockets s).closed = false := by
  refine ⟨_, (Option.some_get poolRun_isSome).symm, by decide +kernel, ?_⟩
  exact (open_iff_registered (Option.some_get poolRun_isSome).symm).2.2 (by decide +kernel)

theorem stoppedRun_isSome : (StepSystem.run step (newStreamClient false (bytes "t"))
    (poolRun ++ [.stop])).isSome = true := by
  decide +kernel

def stoppedClient : StreamClient Bool :=
  (StepSystem.run step (newStreamClient false (bytes "t")) (poolRun ++ [.stop])).get
    stoppedRun_isSome

theorem closed_of_close_stoppedClient :
    ∃ d e, stoppedClient.step .closeAll = some d ∧
      StepSystem.run step d [.janitor 5, .closeConn (bytes "b")] = some e ∧
      ∀ s, (e.sockets s).closed = true := by
  have hidle : ∀ i, stoppedClient.calls i = none := by decide +kernel
  have hclose : (stoppedClient.step .closeAll).isSome = true := by decide +kernel
  refine ⟨_, _, (Option.some_get hclose).symm, rfl, ?_⟩
  refine closed_of_close (Option.some_get stoppedRun_isSome).symm ?_ (Option.some_get hclose).symm
    (show StepSystem.run step _ [.janitor 5, .closeConn (bytes "b")] = some _ from rfl) (by decide)
  intro i r p hi
  cases (hidle i).symm.trans hi

end Runs

end StreamClient

end Capacitor
