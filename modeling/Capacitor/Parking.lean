import Capacitor.CursorSeed

/-!
# The replicator at its condition variable

The loop of a replicator looks for a stop signal and for new entries under the lock of the log, and
waits on the condition variable of the log when it finds neither. `Append` broadcasts under that
lock. `stopPeerReplicator` and `Close` give their signal and then broadcast without the lock, and
`handleConn` stores the position a peer reports without any broadcast.

A replicator that waits with no wake-up under way has nothing to do, as long as no such broadcast
falls between its check and its wait, and no handshake moves the cursor back behind its check.
-/

namespace Capacitor

/-- Where the goroutine of a replicator is. It holds the lock of the log when it is `selected`,
having seen no stop signal, and when it is `waiting`, having found nothing to send. It is `parked`
once `Wait` has put it on the list that the next broadcast wakes. -/
inductive Loop where
  | idle
  | selected
  | waiting
  | parked
  | woken
  | started
  | seeded (seed : ℕ)
  | loaded (lastSeq : ℕ)
  | drawn (lastSeq : ℕ) (raw : List GoString)
  | written (lastSeq : ℕ) (raw : List GoString)
  | returned
  deriving DecidableEq

/-- The replicator of one peer. `waking` counts the calls of `stopPeerReplicator` that have given
the stop signal and not yet broadcast, `deleting` those that have still to delete the cursor, and
`closing` says that `Close` has cancelled the context and not yet broadcast. -/
structure Replicator (V : Type*) where
  node : Node V
  loop : Loop
  stopped : Bool
  cancelled : Bool
  waking : ℕ
  deleting : ℕ
  closing : Bool

inductive ReplicatorAction where
  | append (e : LogEntry)
  | handshake (firstBatch : Bool) (b : Batch)
  | applyRemoteEntry (wall : Int64) (e : LogEntry)
  | stopPeerReplicator
  | stopBroadcast
  | stopDelete
  | close
  | closeBroadcast
  | otherBroadcast
  | select
  | compare
  | wait
  | seed
  | loadOrStore
  | getEntriesRaw
  | sendBatch (sent : Bool)
  | store

namespace Replicator

variable {V : Type*}

def start (node : Node V) : Replicator V where
  node := node
  loop := .idle
  stopped := false
  cancelled := false
  waking := 0
  deleting := 0
  closing := false

def wake (r : Replicator V) : Replicator V :=
  { r with loop := if r.loop = .parked then .woken else r.loop }

def Locked (r : Replicator V) : Prop := r.loop = .selected ∨ r.loop = .waiting

instance (r : Replicator V) : Decidable r.Locked := inferInstanceAs (Decidable (_ ∨ _))

/-- The loop with everything that runs beside it, one access to shared memory at a time. `Append`
holds the lock from its first access to its last, so it is one step; `otherBroadcast` is the
broadcast of a stop of another peer. -/
def step (c : Codec) (mp : Msgpack V) (peer : GoString) (r : Replicator V) :
    ReplicatorAction → Option (Replicator V)
  | .append e =>
      if r.Locked then none
      else (r.node.log.append c e).map (fun log =>
        { r with node := { r.node with log := log } }.wake)
  | .handshake firstBatch b =>
      (r.node.handleHandshake firstBatch b).map (fun n => { r with node := n })
  | .applyRemoteEntry wall e =>
      some { r with
        node := { r.node with replica := Capacitor.applyRemoteEntry mp r.node.replica wall e } }
  | .stopPeerReplicator => some { r with stopped := true, waking := r.waking + 1 }
  | .stopBroadcast =>
      if 0 < r.waking then
        some { r with waking := r.waking - 1, deleting := r.deleting + 1 }.wake
      else none
  | .stopDelete =>
      if 0 < r.deleting then
        some { r with node := r.node.deleteSeq peer, deleting := r.deleting - 1 }
      else none
  | .close => if r.cancelled then none else some { r with cancelled := true, closing := true }
  | .closeBroadcast => if r.closing then some { r with closing := false }.wake else none
  | .otherBroadcast => some r.wake
  | .select =>
      if r.loop = .idle ∨ r.loop = .woken then
        some { r with loop := if r.stopped ∨ r.cancelled then .returned else .selected }
      else none
  | .compare =>
      if r.loop = .selected then
        some { r with loop := if r.node.SendCondition peer then .started else .waiting }
      else none
  | .wait => if r.loop = .waiting then some { r with loop := .parked } else none
  | .seed =>
      if r.loop = .started then
        some { r with loop := .seeded (r.node.replica.store.getPeerSeq peer) }
      else none
  | .loadOrStore =>
      match r.loop with
      | .seeded seed =>
          some { r with
            node := r.node.storeSeq peer (r.node.loadOrStore peer seed)
            loop := .loaded (r.node.loadOrStore peer seed) }
      | _ => none
  | .getEntriesRaw =>
      match r.loop with
      | .loaded lastSeq =>
          (r.node.log.getEntriesRaw (lastSeq + 1) 1000 (8 * 1024 * 1024)).map (fun raw =>
            { r with loop := if raw = [] then .idle else .drawn lastSeq raw })
      | _ => none
  | .sendBatch sent =>
      match r.loop with
      | .drawn lastSeq raw => some { r with loop := if sent then .written lastSeq raw else .idle }
      | _ => none
  | .store =>
      match r.loop with
      | .written lastSeq raw =>
          some { r with node := r.node.storeSeq peer (lastSeq + raw.length), loop := .idle }
      | _ => none

def Pending (r : Replicator V) : Prop := 0 < r.waking ∨ r.closing = true

def Running (r : Replicator V) : Prop := r.stopped = false ∧ r.cancelled = false

/-- The replicator has not been told to stop, and its cursor is at the end of the log. -/
def NothingToDo (peer : GoString) (r : Replicator V) : Prop :=
  r.Running ∧ r.node.log.head ≤ r.node.lastSeq peer + 1

/-- A replicator that is parked with no wake-up to come has nothing to do. -/
def Quiet (peer : GoString) (r : Replicator V) : Prop :=
  r.loop = .parked → ¬ r.Pending → r.NothingToDo peer

/-- A handshake of the peer does not move the cursor back behind a check of the loop, and a stop or
a close does not make the last broadcast while the loop is between its check and its wait. -/
def Careful (peer : GoString) (r : Replicator V) : ReplicatorAction → Prop
  | .handshake _ b =>
      ∀ h ∈ b.handshake, b.fromNode = peer →
        (r.node.authToken = [] ∨ h.authToken = r.node.authToken) →
        r.loop = .waiting ∨ r.loop = .parked →
        r.Pending ∨ r.node.log.head ≤ h.lastSeenSeq + 1
  | .stopBroadcast => 0 < r.waking → r.Locked → 1 < r.waking ∨ r.closing = true
  | .closeBroadcast => r.closing = true → r.Locked → 0 < r.waking
  | _ => True

instance (r : Replicator V) : Decidable r.Pending := inferInstanceAs (Decidable (_ ∨ _))

instance (r : Replicator V) : Decidable r.Running := inferInstanceAs (Decidable (_ ∧ _))

instance (peer : GoString) (r : Replicator V) : Decidable (r.NothingToDo peer) :=
  inferInstanceAs (Decidable (_ ∧ _))

instance (peer : GoString) (r : Replicator V) : Decidable (r.Quiet peer) :=
  inferInstanceAs (Decidable (_ → _))

instance (peer : GoString) (r : Replicator V) :
    (a : ReplicatorAction) → Decidable (r.Careful peer a)
  | .handshake _ b => inferInstanceAs (Decidable (∀ h ∈ b.handshake, _))
  | .stopBroadcast | .closeBroadcast => inferInstanceAs (Decidable (_ → _))
  | .append _ | .applyRemoteEntry _ _ | .stopPeerReplicator | .stopDelete | .close
  | .otherBroadcast | .select | .compare | .wait | .seed | .loadOrStore | .getEntriesRaw
  | .sendBatch _ | .store => isTrue trivial

/-- What the condition keeps: a loop that has passed a check is still right about it, or a broadcast
is to come. -/
structure Safe (peer : GoString) (r : Replicator V) : Prop where
  selected : r.loop = .selected → r.Pending ∨ r.Running
  blocked : r.loop = .waiting ∨ r.loop = .parked → r.Pending ∨ r.NothingToDo peer

structure Signalled (r : Replicator V) : Prop where
  stop : 0 < r.waking ∨ 0 < r.deleting → r.stopped = true
  close : r.closing = true → r.cancelled = true

variable {c : Codec} {mp : Msgpack V} {peer : GoString} {r t : Replicator V}

theorem Pending.safe (h : r.Pending) : r.Safe peer := ⟨fun _ => Or.inl h, fun _ => Or.inl h⟩

theorem safe_of_ne (hselected : r.loop ≠ .selected) (hwaiting : r.loop ≠ .waiting)
    (hparked : r.loop ≠ .parked) : r.Safe peer :=
  ⟨fun h => absurd h hselected, fun h => (h.elim hwaiting hparked).elim⟩

theorem safe_wake (h : ¬ r.Locked) : r.wake.Safe peer := by
  unfold Locked at h
  push Not at h
  refine safe_of_ne ?_ ?_ ?_ <;> unfold wake <;> split_ifs with hparked <;> simp_all

theorem Safe.wake (h : r.Safe peer) : r.wake.Safe peer := by
  by_cases hlocked : r.Locked
  · have hparked : r.loop ≠ .parked := by
      rcases hlocked with hl | hl <;> simp [hl]
    have hwake : r.wake = r := by
      unfold Replicator.wake
      rw [if_neg hparked]
    rwa [hwake]
  · exact safe_wake hlocked

theorem Safe.setNode (h : r.Safe peer) {n : Node V}
    (hn : r.loop = .waiting ∨ r.loop = .parked → r.NothingToDo peer →
      r.Pending ∨ n.log.head ≤ n.lastSeq peer + 1) :
    { r with node := n }.Safe peer := by
  refine ⟨h.selected, fun hblocked => ?_⟩
  rcases h.blocked hblocked with hpending | hnothing
  · exact Or.inl hpending
  · exact (hn hblocked hnothing).imp id (fun hle => ⟨hnothing.1, hle⟩)

theorem safe_wake_iff (h : ¬ r.Running) : r.wake.Safe peer ↔ (r.Locked → r.Pending) := by
  constructor
  · intro hsafe hlocked
    have hloop : r.wake.loop = r.loop := if_neg (by rcases hlocked with hl | hl <;> simp [hl])
    rcases hlocked with hl | hl
    · exact (hsafe.selected (hloop.trans hl)).resolve_right h
    · exact (hsafe.blocked (Or.inl (hloop.trans hl))).resolve_right (fun hn => h hn.1)
  · intro hpending
    by_cases hlocked : r.Locked
    · exact Pending.safe (hpending hlocked)
    · exact safe_wake hlocked

theorem lastSeq_storeSeq (n : Node V) (fromNode peer : GoString) (seq : ℕ) :
    (n.storeSeq fromNode seq).lastSeq peer = if fromNode = peer then seq else n.lastSeq peer := by
  unfold Node.lastSeq Node.storeSeq
  by_cases h : fromNode = peer
  · simp [h]
  · simp [h, Function.update_of_ne (Ne.symm h)]

theorem safe_handshake_iff (h : r.Safe peer) {firstBatch : Bool} {b : Batch} {n : Node V}
    (hn : r.node.handleHandshake firstBatch b = some n) :
    Careful peer r (.handshake firstBatch b) ↔ { r with node := n }.Safe peer := by
  unfold Node.handleHandshake at hn
  cases hb : b.handshake with
  | none =>
      simp only [hb] at hn
      split_ifs at hn
      obtain rfl := Option.some.inj hn
      exact iff_of_true (fun hs hhs => by cases hb.symm.trans hhs) h
  | some hs =>
      simp only [hb] at hn
      split_ifs at hn with htoken
      obtain rfl := Option.some.inj hn
      have hseq := lastSeq_storeSeq r.node b.fromNode peer hs.lastSeenSeq
      by_cases hfrom : b.fromNode = peer
      · rw [if_pos hfrom] at hseq
        constructor
        · intro hcareful
          refine h.setNode (fun hblocked _ => ?_)
          rw [hseq]
          exact hcareful hs hb hfrom (by tauto) hblocked
        · intro hsafe hs' hhs' _ _ hblocked
          obtain rfl := Option.some.inj (hb.symm.trans hhs')
          refine (hsafe.blocked hblocked).imp id (fun hnothing => ?_)
          exact hseq ▸ hnothing.2
      · rw [if_neg hfrom] at hseq
        refine iff_of_true (fun _ _ hpeer => absurd hpeer hfrom) (h.setNode (fun _ hnothing => ?_))
        rw [hseq]
        exact Or.inr hnothing.2

theorem signalled_step (h : r.Signalled) {a : ReplicatorAction} (ht : step c mp peer r a = some t) :
    t.Signalled := by
  have hkeep {u : Replicator V} (hstopped : u.stopped = r.stopped)
      (hcancelled : u.cancelled = r.cancelled) (hwaking : u.waking = r.waking)
      (hdeleting : u.deleting = r.deleting) (hclosing : u.closing = r.closing) : u.Signalled :=
    ⟨by rw [hstopped, hwaking, hdeleting]; exact h.stop,
      by rw [hcancelled, hclosing]; exact h.close⟩
  cases a with
  | append e =>
      simp only [step] at ht
      split_ifs at ht
      obtain ⟨log, _, rfl⟩ := Option.map_eq_some_iff.1 ht
      exact hkeep rfl rfl rfl rfl rfl
  | handshake firstBatch b =>
      obtain ⟨n, _, rfl⟩ := Option.map_eq_some_iff.1 ht
      exact hkeep rfl rfl rfl rfl rfl
  | stopPeerReplicator =>
      obtain rfl := Option.some.inj ht
      exact ⟨fun _ => rfl, h.close⟩
  | stopBroadcast =>
      simp only [step] at ht
      split_ifs at ht with hwaking
      obtain rfl := Option.some.inj ht
      exact ⟨fun _ => h.stop (Or.inl hwaking), h.close⟩
  | stopDelete =>
      simp only [step] at ht
      split_ifs at ht with hdeleting
      obtain rfl := Option.some.inj ht
      exact ⟨fun _ => h.stop (Or.inr hdeleting), h.close⟩
  | close =>
      simp only [step] at ht
      split_ifs at ht
      obtain rfl := Option.some.inj ht
      exact ⟨h.stop, fun _ => rfl⟩
  | closeBroadcast =>
      simp only [step] at ht
      split_ifs at ht with hclosing
      obtain rfl := Option.some.inj ht
      exact ⟨h.stop, fun hc => by cases hc⟩
  | applyRemoteEntry wall e | otherBroadcast =>
      obtain rfl := Option.some.inj ht
      exact hkeep rfl rfl rfl rfl rfl
  | select | compare | wait | seed =>
      simp only [step] at ht
      split_ifs at ht
      all_goals
        obtain rfl := Option.some.inj ht
        exact hkeep rfl rfl rfl rfl rfl
  | loadOrStore | sendBatch sent | store =>
      simp only [step] at ht
      split at ht
      · obtain rfl := Option.some.inj ht
        exact hkeep rfl rfl rfl rfl rfl
      · cases ht
  | getEntriesRaw =>
      simp only [step] at ht
      split at ht
      · obtain ⟨raw, _, rfl⟩ := Option.map_eq_some_iff.1 ht
        exact hkeep rfl rfl rfl rfl rfl
      · cases ht

theorem lastSeq_le_applyRemoteEntry (mp : Msgpack V) (n : Node V) (wall : Int64) (e : LogEntry)
    (peer : GoString) :
    n.lastSeq peer ≤
      { n with replica := applyRemoteEntry mp n.replica wall e }.lastSeq peer := by
  unfold Node.lastSeq
  cases n.peerSeqs peer with
  | some seq => exact le_rfl
  | none =>
      rcases getPeerSeq_applyRemoteEntry mp n.replica wall e peer with heq | ⟨_, hle, heq⟩
      · exact heq.ge
      · exact hle.trans heq.ge

/-- The condition is exactly what keeps the invariant. -/
theorem safe_step_iff (h : r.Safe peer) (hsig : r.Signalled) {a : ReplicatorAction}
    (ht : step c mp peer r a = some t) : Careful peer r a ↔ t.Safe peer := by
  cases a with
  | append e =>
      simp only [step] at ht
      split_ifs at ht with hlocked
      obtain ⟨log, _, rfl⟩ := Option.map_eq_some_iff.1 ht
      exact iff_of_true trivial (safe_wake hlocked)
  | handshake firstBatch b =>
      obtain ⟨n, hn, rfl⟩ := Option.map_eq_some_iff.1 ht
      exact safe_handshake_iff h hn
  | applyRemoteEntry wall e =>
      obtain rfl := Option.some.inj ht
      refine iff_of_true trivial (h.setNode (fun _ hnothing => Or.inr ?_))
      have hle := lastSeq_le_applyRemoteEntry mp r.node wall e peer
      exact hnothing.2.trans (Nat.succ_le_succ hle)
  | stopPeerReplicator =>
      obtain rfl := Option.some.inj ht
      exact iff_of_true trivial (Pending.safe (Or.inl (Nat.succ_pos _)))
  | stopBroadcast =>
      simp only [step] at ht
      split_ifs at ht with hwaking
      obtain rfl := Option.some.inj ht
      have hstopped := hsig.stop (Or.inl hwaking)
      rw [safe_wake_iff (fun hrun => by cases hstopped.symm.trans hrun.1)]
      simp only [Careful, hwaking, forall_const, Pending, Locked, Nat.sub_pos_iff_lt]
  | stopDelete =>
      simp only [step] at ht
      split_ifs at ht with hdeleting
      obtain rfl := Option.some.inj ht
      have hstopped := hsig.stop (Or.inr hdeleting)
      refine iff_of_true trivial ⟨h.selected, fun hblocked => ?_⟩
      refine (h.blocked hblocked).imp id (fun hnothing => ?_)
      cases hstopped.symm.trans hnothing.1.1
  | close =>
      simp only [step] at ht
      split_ifs at ht
      obtain rfl := Option.some.inj ht
      exact iff_of_true trivial (Pending.safe (Or.inr rfl))
  | closeBroadcast =>
      simp only [step] at ht
      split_ifs at ht with hclosing
      obtain rfl := Option.some.inj ht
      have hcancelled := hsig.close hclosing
      rw [safe_wake_iff (fun hrun => by cases hcancelled.symm.trans hrun.2)]
      simp only [Careful, hclosing, forall_const, Pending, Locked, Bool.false_eq_true, or_false]
  | otherBroadcast =>
      obtain rfl := Option.some.inj ht
      exact iff_of_true trivial h.wake
  | select =>
      simp only [step] at ht
      split_ifs at ht with hloop hsignal
      · obtain rfl := Option.some.inj ht
        exact iff_of_true trivial (safe_of_ne nofun nofun nofun)
      · obtain rfl := Option.some.inj ht
        refine iff_of_true trivial ⟨fun _ => Or.inr ?_, fun hblocked => by simp at hblocked⟩
        simpa [Running] using hsignal
  | compare =>
      simp only [step] at ht
      split_ifs at ht with hloop hsend
      · obtain rfl := Option.some.inj ht
        exact iff_of_true trivial (safe_of_ne nofun nofun nofun)
      · obtain rfl := Option.some.inj ht
        refine iff_of_true trivial ⟨nofun, fun _ => ?_⟩
        exact (h.selected hloop).imp id (fun hrunning => ⟨hrunning, not_lt.1 hsend⟩)
  | wait =>
      simp only [step] at ht
      split_ifs at ht with hloop
      obtain rfl := Option.some.inj ht
      exact iff_of_true trivial ⟨nofun, fun _ => h.blocked (Or.inl hloop)⟩
  | seed =>
      simp only [step] at ht
      split_ifs at ht
      obtain rfl := Option.some.inj ht
      exact iff_of_true trivial (safe_of_ne nofun nofun nofun)
  | loadOrStore | store =>
      simp only [step] at ht
      split at ht
      · obtain rfl := Option.some.inj ht
        exact iff_of_true trivial (safe_of_ne nofun nofun nofun)
      · cases ht
  | getEntriesRaw =>
      simp only [step] at ht
      split at ht
      · obtain ⟨raw, _, rfl⟩ := Option.map_eq_some_iff.1 ht
        refine iff_of_true trivial ?_
        split_ifs <;> exact safe_of_ne nofun nofun nofun
      · cases ht
  | sendBatch sent =>
      simp only [step] at ht
      split at ht
      · obtain rfl := Option.some.inj ht
        refine iff_of_true trivial ?_
        split_ifs <;> exact safe_of_ne nofun nofun nofun
      · cases ht

theorem Safe.quiet (h : r.Safe peer) : r.Quiet peer := fun hparked hpending =>
  (h.blocked (Or.inr hparked)).resolve_left hpending

theorem careful_of_disabled {a : ReplicatorAction} (ht : step c mp peer r a = none) :
    Careful peer r a := by
  cases a with
  | handshake firstBatch b =>
      intro hs hb _ htoken _
      have hn : r.node.handleHandshake firstBatch b = none := Option.map_eq_none_iff.1 ht
      simp only [Node.handleHandshake, Option.mem_def.1 hb] at hn
      split_ifs at hn with hrefused
      exact (htoken.elim hrefused.1 hrefused.2).elim
  | stopBroadcast =>
      intro hwaking
      simp [step, hwaking] at ht
  | closeBroadcast =>
      intro hclosing
      simp [step, hclosing] at ht
  | _ => trivial

theorem safe_start (node : Node V) : (start node).Safe peer := safe_of_ne nofun nofun nofun

theorem signalled_start (node : Node V) : (start node).Signalled := ⟨nofun, nofun⟩

theorem along_careful_iff (c : Codec) (mp : Msgpack V) (node : Node V)
    (as : List ReplicatorAction) :
    StepSystem.Along (step c mp peer) (Careful peer) (start node) as ↔
      ∀ bs t, bs <+: as → StepSystem.run (step c mp peer) (start node) bs = some t →
        t.Safe peer ∧ t.Signalled := by
  refine StepSystem.along_iff_forall_run (fun r a _ => careful_of_disabled) ?_
    ⟨safe_start node, signalled_start node⟩ as
  intro r a t h ht
  rw [safe_step_iff h.1 h.2 ht]
  exact ⟨fun hsafe => ⟨hsafe, signalled_step h.2 ht⟩, fun h => h.1⟩

section Continuation

variable (c mp)

theorem not_quiet_of_waiting (hloop : r.loop = .waiting) (hpending : ¬ r.Pending)
    (hnothing : ¬ r.NothingToDo peer) :
    ∃ t, StepSystem.run (step c mp peer) r [.wait] = some t ∧ ¬ t.Quiet peer := by
  refine ⟨{ r with loop := .parked }, ?_, fun h => hnothing (h rfl hpending)⟩
  rw [StepSystem.run_singleton, step, if_pos hloop]

theorem not_quiet_of_compare (hloop : r.loop = .selected) (hpending : ¬ r.Pending)
    (hrunning : ¬ r.Running) (hsend : ¬ r.node.SendCondition peer) :
    ∃ t, StepSystem.run (step c mp peer) r [.compare, .wait] = some t ∧ ¬ t.Quiet peer := by
  have hcompare : step c mp peer r .compare = some { r with loop := .waiting } := by
    rw [step, if_pos hloop, if_neg hsend]
  have hnothing : ¬ { r with loop := .waiting }.NothingToDo peer := fun h => hrunning h.1
  obtain ⟨t, ht, hquiet⟩ :=
    not_quiet_of_waiting (r := { r with loop := .waiting }) c mp rfl hpending hnothing
  exact ⟨t, (StepSystem.run_cons_eq_some _ _ _ _ _).2 ⟨_, hcompare, ht⟩, hquiet⟩

/-- A loop that has missed a signal parks, at the latest when the peer reports that it has seen the
whole log. -/
theorem not_quiet_of_selected (hloop : r.loop = .selected) (hpending : ¬ r.Pending)
    (hrunning : ¬ r.Running) :
    ∃ cs t, StepSystem.run (step c mp peer) r cs = some t ∧ ¬ t.Quiet peer := by
  let b : Batch := ⟨peer, [], some ⟨r.node.log.head, r.node.authToken⟩⟩
  have hshake : step c mp peer r (.handshake false b) =
      some { r with node := r.node.storeSeq peer r.node.log.head } := by
    simp [step, Node.handleHandshake, b]
  have hsend : ¬ (r.node.storeSeq peer r.node.log.head).SendCondition peer := by
    unfold Node.SendCondition
    rw [lastSeq_storeSeq, if_pos rfl]
    exact Nat.not_lt.2 (Nat.le_succ _)
  obtain ⟨t, ht, hquiet⟩ := not_quiet_of_compare
    (r := { r with node := r.node.storeSeq peer r.node.log.head }) c mp hloop hpending hrunning
    hsend
  exact ⟨_, t, (StepSystem.run_cons_eq_some _ _ _ _ _).2 ⟨_, hshake, ht⟩, hquiet⟩

theorem not_quiet_of_not_safe (h : ¬ r.Safe peer) :
    ∃ cs t, StepSystem.run (step c mp peer) r cs = some t ∧ ¬ t.Quiet peer := by
  by_contra hall
  push Not at hall
  refine h ⟨fun hloop => ?_, fun hblocked => ?_⟩
  · by_contra hneither
    push Not at hneither
    obtain ⟨cs, t, ht, hquiet⟩ := not_quiet_of_selected c mp hloop hneither.1 hneither.2
    exact hquiet (hall cs t ht)
  · by_contra hneither
    push Not at hneither
    rcases hblocked with hwaiting | hparked
    · obtain ⟨t, ht, hquiet⟩ := not_quiet_of_waiting c mp hwaiting hneither.1 hneither.2
      exact hquiet (hall [.wait] t ht)
    · exact hneither.2 (hall [] r rfl hparked hneither.1)

end Continuation

/-- In a run whose steps are all careful, a parked replicator with no wake-up to come has nothing to
do in any state; and a run with a careless step can go on to a state in which it has. -/
theorem parked_has_nothing_to_do (c : Codec) (mp : Msgpack V) (peer : GoString) (node : Node V)
    (as : List ReplicatorAction) :
    (StepSystem.Along (step c mp peer) (Careful peer) (start node) as →
      ∀ bs t, bs <+: as → StepSystem.run (step c mp peer) (start node) bs = some t →
        t.Quiet peer) ∧
    (¬ StepSystem.Along (step c mp peer) (Careful peer) (start node) as →
      ∃ bs cs t, bs <+: as ∧ StepSystem.run (step c mp peer) (start node) (bs ++ cs) = some t ∧
        ¬ t.Quiet peer) := by
  rw [along_careful_iff]
  refine ⟨fun h bs t hbs ht => (h bs t hbs ht).1.quiet, fun h => ?_⟩
  push Not at h
  obtain ⟨bs, r, hbs, hr, hnot⟩ := h
  have hsig : r.Signalled :=
    StepSystem.run_invariant (fun _ _ _ h ht => signalled_step h ht) (signalled_start node) hr
  obtain ⟨cs, t, ht, hquiet⟩ := not_quiet_of_not_safe c mp (fun hsafe => hnot hsafe hsig)
  exact ⟨bs, cs, t, hbs, (StepSystem.run_append_eq_some _ _ _ _ _).2 ⟨r, hr, ht⟩, hquiet⟩

def freshNode : Node UInt8 :=
  ⟨bytes "a", [], ⟨Store.newStore, newHLC 9⟩, newDeltaLog 8, fun _ => none⟩

def sendRun : List ReplicatorAction :=
  [.select, .compare, .wait, .append (Pair.firstIncr (bytes "a")), .select, .compare, .seed,
    .loadOrStore, .getEntriesRaw, .sendBatch true, .store, .select, .compare, .wait]

theorem sendRun_isSome : (StepSystem.run (step Pair.incrCodec byteMsgpack (bytes "b"))
    (start freshNode) sendRun).isSome = true := by
  decide +kernel

theorem parked_has_nothing_to_do_sendRun :
    ∃ t, StepSystem.run (step Pair.incrCodec byteMsgpack (bytes "b")) (start freshNode) sendRun =
        some t ∧
      t.loop = .parked ∧ ¬ t.Pending ∧ t.node.log.head = 2 ∧ t.NothingToDo (bytes "b") := by
  have hparked : ((StepSystem.run (step Pair.incrCodec byteMsgpack (bytes "b"))
      (start freshNode) sendRun).get sendRun_isSome).loop = .parked := by decide +kernel
  have hpending : ¬ ((StepSystem.run (step Pair.incrCodec byteMsgpack (bytes "b"))
      (start freshNode) sendRun).get sendRun_isSome).Pending := by decide +kernel
  refine ⟨_, (Option.some_get sendRun_isSome).symm, hparked, hpending, by decide +kernel, ?_⟩
  exact (parked_has_nothing_to_do Pair.incrCodec byteMsgpack (bytes "b") freshNode sendRun).1
    (by decide +kernel) sendRun _ List.prefix_rfl (Option.some_get sendRun_isSome).symm hparked
    hpending

/-- The peer reports that it has lost the entry it was sent. -/
def rewoundRun : List ReplicatorAction :=
  sendRun ++ [.handshake true ⟨bytes "b", [], some ⟨0, []⟩⟩]

/-- The stop signal comes after the check, and its broadcast before the wait. -/
def stoppedRun : List ReplicatorAction :=
  [.select, .compare, .stopPeerReplicator, .stopBroadcast, .wait]

def closedRun : List ReplicatorAction := [.select, .close, .closeBroadcast, .compare, .wait]

theorem rewoundRun_isSome : (StepSystem.run (step Pair.incrCodec byteMsgpack (bytes "b"))
    (start freshNode) rewoundRun).isSome = true := by
  decide +kernel

theorem stoppedRun_isSome : (StepSystem.run (step Pair.incrCodec byteMsgpack (bytes "b"))
    (start freshNode) stoppedRun).isSome = true := by
  decide +kernel

theorem closedRun_isSome : (StepSystem.run (step Pair.incrCodec byteMsgpack (bytes "b"))
    (start freshNode) closedRun).isSome = true := by
  decide +kernel

/-- A replicator stays parked with an entry to send, and it stays parked after a stop and after a
close, with no broadcast to come. -/
theorem parked_with_work :
    (∃ t, StepSystem.run (step Pair.incrCodec byteMsgpack (bytes "b")) (start freshNode)
        rewoundRun = some t ∧
      t.loop = .parked ∧ ¬ t.Pending ∧ t.node.peerSeqs (bytes "b") = some 0 ∧
      t.node.log.head = 2) ∧
    (∃ t, StepSystem.run (step Pair.incrCodec byteMsgpack (bytes "b")) (start freshNode)
        stoppedRun = some t ∧ t.loop = .parked ∧ ¬ t.Pending ∧ t.stopped = true) ∧
    ∃ t, StepSystem.run (step Pair.incrCodec byteMsgpack (bytes "b")) (start freshNode)
        closedRun = some t ∧ t.loop = .parked ∧ ¬ t.Pending ∧ t.cancelled = true := by
  refine ⟨⟨_, (Option.some_get rewoundRun_isSome).symm, ?_⟩,
    ⟨_, (Option.some_get stoppedRun_isSome).symm, ?_⟩,
    _, (Option.some_get closedRun_isSome).symm, ?_⟩
  · decide +kernel
  · decide +kernel
  · decide +kernel

end Replicator

end Capacitor
