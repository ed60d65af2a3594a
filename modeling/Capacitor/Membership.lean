import Capacitor.StepSystem
import Capacitor.Keys

/-!
# The replicators of the members

`NotifyJoin` starts the replicator of a node and `NotifyLeave` stops it. To start one is to look for
its stop channel in `peerStops` and then to store a new one, and to stop one is to take the channel
out and then to close it; in between anything may happen. A stop channel and the loop that watches
it have the same number.

Whatever the order of these steps, no channel is closed twice. When the calls come one after the
other, as `memberlist` makes them under its lock, each member has one replicator that has not been
told to stop, and its address is that of the first join after the last leave: a later join and an
update are ignored. A loop that has been told to stop may go on for a while beside it.
-/

namespace Capacitor

structure PeerLoop where
  nodeID : GoString
  addr : GoString
  closed : Bool
  returned : Bool
  deriving DecidableEq

/-- `starting` holds the calls of `startPeerReplicator` that have found no channel and have still to
store one, and `stopping` the channels that were taken out and have still to be closed. -/
structure Membership where
  nodeID : GoString
  peerStops : GoString → Option ℕ
  loops : ℕ → PeerLoop
  count : ℕ
  starting : List (GoString × GoString)
  stopping : List ℕ
  cancelled : Bool
  panicked : Bool

inductive MembershipAction where
  | notifyJoin (name addr : GoString)
  | notifyLeave (name : GoString)
  | notifyUpdate (name addr : GoString)
  | store (name addr : GoString)
  | closeStop (ch : ℕ)
  | loopReturn (ch : ℕ)
  | cancel

namespace Membership

def start (nodeID : GoString) : Membership where
  nodeID := nodeID
  peerStops := fun _ => none
  loops := fun _ => ⟨[], [], true, true⟩
  count := 0
  starting := []
  stopping := []
  cancelled := false
  panicked := false

def setLoop (s : Membership) (ch : ℕ) (l : PeerLoop) : Membership :=
  { s with loops := Function.update s.loops ch l }

def step (s : Membership) : MembershipAction → Option Membership
  | .notifyJoin name addr =>
      if name = s.nodeID ∨ addr = [] then some s
      else if (s.peerStops name).isSome then some s
      else some { s with starting := (name, addr) :: s.starting }
  | .notifyLeave name =>
      match s.peerStops name with
      | some ch =>
          some { s with
            peerStops := Function.update s.peerStops name none
            stopping := ch :: s.stopping }
      | none => some s
  | .notifyUpdate _ _ => some s
  | .store name addr =>
      if (name, addr) ∈ s.starting then
        some { s.setLoop s.count ⟨name, addr, false, false⟩ with
          peerStops := Function.update s.peerStops name (some s.count)
          count := s.count + 1
          starting := s.starting.erase (name, addr) }
      else none
  | .closeStop ch =>
      if ch ∈ s.stopping then
        some { s.setLoop ch { s.loops ch with closed := true } with
          stopping := s.stopping.erase ch
          panicked := s.panicked || (s.loops ch).closed }
      else none
  | .loopReturn ch =>
      if (s.loops ch).returned = false ∧ ((s.loops ch).closed = true ∨ s.cancelled = true) then
        some (s.setLoop ch { s.loops ch with returned := true })
      else none
  | .cancel => some { s with cancelled := true }

/-- A channel that is registered or about to be closed is open, and is in one of these places
only. -/
structure Sound (s : Membership) : Prop where
  registered : ∀ n ch, s.peerStops n = some ch →
    ch < s.count ∧ (s.loops ch).nodeID = n ∧ (s.loops ch).closed = false ∧ ch ∉ s.stopping
  stopping : ∀ ch ∈ s.stopping, ch < s.count ∧ (s.loops ch).closed = false
  nodup : s.stopping.Nodup
  opened : ∀ ch, (s.loops ch).closed = false → ch < s.count
  intact : s.panicked = false

theorem start_sound (nodeID : GoString) : (start nodeID).Sound where
  registered n ch h := by cases h
  stopping ch h := by cases h
  nodup := List.nodup_nil
  opened ch h := by cases h
  intact := rfl

@[simp] theorem loops_setLoop (s : Membership) (ch ch' : ℕ) (l : PeerLoop) :
    (s.setLoop ch l).loops ch' = if ch' = ch then l else s.loops ch' :=
  Function.update_apply _ _ _ _

inductive Steps (s : Membership) : MembershipAction → Membership → Prop
  | ignored {name addr : GoString}
      (h : name = s.nodeID ∨ addr = [] ∨ (s.peerStops name).isSome = true) :
      Steps s (.notifyJoin name addr) s
  | notifyJoin {name addr : GoString} (hname : name ≠ s.nodeID) (haddr : addr ≠ [])
      (hnone : s.peerStops name = none) :
      Steps s (.notifyJoin name addr) { s with starting := (name, addr) :: s.starting }
  | notifyLeave {name : GoString} {ch : ℕ} (hch : s.peerStops name = some ch) :
      Steps s (.notifyLeave name) { s with
        peerStops := Function.update s.peerStops name none
        stopping := ch :: s.stopping }
  | unknown {name : GoString} (hnone : s.peerStops name = none) : Steps s (.notifyLeave name) s
  | notifyUpdate {name addr : GoString} : Steps s (.notifyUpdate name addr) s
  | store {name addr : GoString} (hmem : (name, addr) ∈ s.starting) :
      Steps s (.store name addr) { s.setLoop s.count ⟨name, addr, false, false⟩ with
        peerStops := Function.update s.peerStops name (some s.count)
        count := s.count + 1
        starting := s.starting.erase (name, addr) }
  | closeStop {ch : ℕ} (hmem : ch ∈ s.stopping) :
      Steps s (.closeStop ch) { s.setLoop ch { s.loops ch with closed := true } with
        stopping := s.stopping.erase ch
        panicked := s.panicked || (s.loops ch).closed }
  | loopReturn {ch : ℕ} (hstop : (s.loops ch).closed = true ∨ s.cancelled = true) :
      Steps s (.loopReturn ch) (s.setLoop ch { s.loops ch with returned := true })
  | cancel : Steps s .cancel { s with cancelled := true }

theorem steps_of_step {s t : Membership} {a : MembershipAction} (h : s.step a = some t) :
    s.Steps a t := by
  cases a with
  | notifyJoin name addr =>
      simp only [step] at h
      split_ifs at h with hown hloaded
      · obtain rfl := Option.some.inj h
        exact .ignored (hown.imp_right Or.inl)
      · obtain rfl := Option.some.inj h
        exact .ignored (Or.inr (Or.inr hloaded))
      · obtain rfl := Option.some.inj h
        rw [not_or] at hown
        exact .notifyJoin hown.1 hown.2 (Option.not_isSome_iff_eq_none.1 hloaded)
  | notifyLeave name =>
      simp only [step] at h
      split at h
      next ch hch =>
        obtain rfl := Option.some.inj h
        exact .notifyLeave hch
      next hnone =>
        obtain rfl := Option.some.inj h
        exact .unknown hnone
  | notifyUpdate name addr =>
      obtain rfl := Option.some.inj h
      exact .notifyUpdate
  | store name addr =>
      simp only [step] at h
      split_ifs at h with hmem
      obtain rfl := Option.some.inj h
      exact .store hmem
  | closeStop ch =>
      simp only [step] at h
      split_ifs at h with hmem
      obtain rfl := Option.some.inj h
      exact .closeStop hmem
  | loopReturn ch =>
      simp only [step] at h
      split_ifs at h with hstop
      obtain rfl := Option.some.inj h
      exact .loopReturn hstop.2
  | cancel =>
      obtain rfl := Option.some.inj h
      exact .cancel

namespace Sound

variable {s t : Membership}

theorem leave {name : GoString} {ch : ℕ} (h : s.Sound) (hch : s.peerStops name = some ch) :
    { s with
      peerStops := Function.update s.peerStops name none
      stopping := ch :: s.stopping : Membership }.Sound := by
  obtain ⟨hcount, hname, hopen, hnew⟩ := h.registered name ch hch
  refine ⟨?_, ?_, List.nodup_cons.2 ⟨hnew, h.nodup⟩, h.opened, h.intact⟩
  · intro n ch' hch'
    simp only [Function.update_apply] at hch'
    split_ifs at hch' with hn
    obtain ⟨hcount', hname', hopen', hnew'⟩ := h.registered n ch' hch'
    refine ⟨hcount', hname', hopen', ?_⟩
    rw [List.mem_cons, not_or]
    refine ⟨?_, hnew'⟩
    rintro rfl
    exact hn (hname'.symm.trans hname)
  · intro ch' hch'
    rcases List.mem_cons.1 hch' with rfl | hch'
    · exact ⟨hcount, hopen⟩
    · exact h.stopping ch' hch'

theorem store (h : s.Sound) (name addr : GoString) :
    { s.setLoop s.count ⟨name, addr, false, false⟩ with
      peerStops := Function.update s.peerStops name (some s.count)
      count := s.count + 1
      starting := s.starting.erase (name, addr) : Membership }.Sound := by
  obtain ⟨hregistered, hstopping, hnodup, hopened, hintact⟩ := h
  constructor
  case registered =>
    intro n ch hch
    simp only [setLoop, Function.update_apply] at hch ⊢
    grind
  case stopping =>
    intro ch hch
    simp only [setLoop, Function.update_apply] at hch ⊢
    grind
  case nodup => exact hnodup
  case opened =>
    intro ch hch
    simp only [setLoop, Function.update_apply] at hch ⊢
    grind
  case intact => exact hintact

/-- A channel that was taken out of the map has not been closed yet, and nobody else is going to
close it. -/
theorem close {ch : ℕ} (h : s.Sound) (hmem : ch ∈ s.stopping) :
    { s.setLoop ch { s.loops ch with closed := true } with
      stopping := s.stopping.erase ch
      panicked := s.panicked || (s.loops ch).closed : Membership }.Sound := by
  obtain ⟨hregistered, hstopping, hnodup, hopened, hintact⟩ := h
  constructor
  case registered =>
    intro n ch' hch'
    simp only [setLoop, Function.update_apply] at hch' ⊢
    grind
  case stopping =>
    intro ch' hch'
    simp only [setLoop, Function.update_apply] at hch' ⊢
    grind
  case nodup => exact hnodup.erase ch
  case opened =>
    intro ch' hch'
    simp only [setLoop, Function.update_apply] at hch' ⊢
    grind
  case intact =>
    dsimp only
    rw [hintact, (hstopping ch hmem).2]
    rfl

theorem loopReturn (h : s.Sound) (ch : ℕ) :
    (s.setLoop ch { s.loops ch with returned := true }).Sound := by
  have hsame (ch' : ℕ) :
      ((s.setLoop ch { s.loops ch with returned := true }).loops ch').nodeID =
          (s.loops ch').nodeID ∧
        ((s.setLoop ch { s.loops ch with returned := true }).loops ch').closed =
          (s.loops ch').closed := by
    rw [loops_setLoop]
    split_ifs with hch'
    · rw [hch']
      exact ⟨rfl, rfl⟩
    · exact ⟨rfl, rfl⟩
  refine ⟨?_, ?_, h.nodup, ?_, h.intact⟩
  · intro n ch' hch'
    rw [(hsame ch').1, (hsame ch').2]
    exact h.registered n ch' hch'
  · intro ch' hch'
    rw [(hsame ch').2]
    exact h.stopping ch' hch'
  · intro ch' hch'
    rw [(hsame ch').2] at hch'
    exact h.opened ch' hch'

theorem step {a : MembershipAction} (h : s.Sound) (hstep : s.step a = some t) : t.Sound := by
  cases steps_of_step hstep with
  | ignored => exact h
  | notifyJoin => exact ⟨h.registered, h.stopping, h.nodup, h.opened, h.intact⟩
  | notifyLeave hch => exact h.leave hch
  | unknown => exact h
  | notifyUpdate => exact h
  | store => exact h.store _ _
  | closeStop hmem => exact h.close hmem
  | loopReturn => exact h.loopReturn _
  | cancel => exact ⟨h.registered, h.stopping, h.nodup, h.opened, h.intact⟩

end Sound

theorem run_sound {nodeID : GoString} {as : List MembershipAction} {s : Membership}
    (hrun : StepSystem.run step (start nodeID) as = some s) : s.Sound :=
  StepSystem.run_invariant (fun _ _ _ h hstep => h.step hstep) (start_sound nodeID) hrun

/-- The calls that `memberlist` makes come one after the other. -/
def InSequence (s : Membership) : MembershipAction → Prop
  | .notifyJoin _ _ | .notifyLeave _ | .notifyUpdate _ _ => s.starting = [] ∧ s.stopping = []
  | _ => True

/-- What a notification makes of the addresses that the members have. -/
def notified (nodeID : GoString) (m : GoString → Option GoString) :
    MembershipAction → GoString → Option GoString
  | .notifyJoin name addr =>
      if name = nodeID ∨ addr = [] ∨ (m name).isSome = true then m
      else Function.update m name (some addr)
  | .notifyLeave name => Function.update m name none
  | _ => m

/-- The addresses of the members as the node has them. -/
def members (s : Membership) (name : GoString) : Option GoString :=
  (s.starting.lookup name).or ((s.peerStops name).map (fun ch => (s.loops ch).addr))

/-- At most one call is under way, and every open channel is registered or about to be closed. -/
structure Single (nodeID : GoString) (s : Membership) : Prop where
  sound : s.Sound
  own : s.nodeID = nodeID
  one : s.starting = [] ∨ ∃ name addr, s.starting = [(name, addr)] ∧ s.peerStops name = none
  accounted : ∀ ch, (s.loops ch).closed = false →
    s.peerStops (s.loops ch).nodeID = some ch ∨ ch ∈ s.stopping
  running : s.cancelled = false → ∀ ch, (s.loops ch).returned = true → (s.loops ch).closed = true

theorem start_single (nodeID : GoString) : (start nodeID).Single nodeID where
  sound := start_sound nodeID
  own := rfl
  one := Or.inl rfl
  accounted ch h := by cases h
  running _ ch _ := rfl

theorem members_of_nil {s : Membership} (h : s.starting = []) (name : GoString) :
    s.members name = (s.peerStops name).map (fun ch => (s.loops ch).addr) := by
  rw [members, h, List.lookup_nil, Option.none_or]

theorem members_of_singleton {s : Membership} {name addr : GoString}
    (h : s.starting = [(name, addr)]) (n : GoString) :
    s.members n = if n = name then some addr
      else (s.peerStops n).map (fun ch => (s.loops ch).addr) := by
  rw [members, h]
  split_ifs with hn
  · rw [hn, List.lookup_cons_self, Option.some_or]
  · have hne : (n == name) = false := beq_eq_false_iff_ne.2 hn
    simp only [List.lookup_cons, hne, List.lookup_nil, Option.none_or]

theorem members_congr {s t : Membership} (hstarting : t.starting = s.starting)
    (hstops : t.peerStops = s.peerStops) (haddr : ∀ ch, (t.loops ch).addr = (s.loops ch).addr) :
    t.members = s.members := by
  funext n
  simp only [members, hstarting, hstops, haddr]

namespace Single

variable {nodeID : GoString} {s t : Membership}

theorem join {name addr : GoString} (h : s.Single nodeID) (hstarting : s.starting = [])
    (hname : name ≠ nodeID) (haddr : addr ≠ []) (hnone : s.peerStops name = none) :
    let t : Membership := { s with starting := (name, addr) :: s.starting }
    t.Single nodeID ∧ t.members = notified nodeID s.members (.notifyJoin name addr) := by
  intro t
  have hstart : t.starting = [(name, addr)] := congrArg (List.cons (name, addr)) hstarting
  have hmember : s.members name = none := by rw [members_of_nil hstarting, hnone, Option.map_none]
  refine ⟨⟨?_, h.own, Or.inr ⟨name, addr, hstart, hnone⟩, h.accounted, h.running⟩, ?_⟩
  · exact ⟨h.sound.registered, h.sound.stopping, h.sound.nodup, h.sound.opened, h.sound.intact⟩
  · rw [notified, if_neg (by simp [hname, haddr, hmember])]
    funext n
    rw [members_of_singleton hstart, Function.update_apply, members_of_nil hstarting]

theorem leave {name : GoString} {ch : ℕ} (h : s.Single nodeID) (hstarting : s.starting = [])
    (hch : s.peerStops name = some ch) :
    let t : Membership := { s with
      peerStops := Function.update s.peerStops name none
      stopping := ch :: s.stopping }
    t.Single nodeID ∧ t.members = notified nodeID s.members (.notifyLeave name) := by
  intro t
  refine ⟨⟨h.sound.leave hch, h.own, Or.inl hstarting, ?_, h.running⟩, ?_⟩
  · intro ch' hopen
    change Function.update s.peerStops name none (s.loops ch').nodeID = _ ∨ _
    rw [Function.update_apply]
    rcases h.accounted ch' hopen with hreg | hstop
    · split_ifs with hn
      · rw [hn, hch] at hreg
        exact Or.inr (List.mem_cons.2 (Or.inl (Option.some.inj hreg).symm))
      · exact Or.inl hreg
    · exact Or.inr (List.mem_cons_of_mem ch hstop)
  · funext n
    rw [members_of_nil (s := t) hstarting, notified, Function.update_apply,
      members_of_nil hstarting]
    change (Function.update s.peerStops name none n).map _ = _
    rw [Function.update_apply]
    split_ifs <;> rfl

theorem store {name addr : GoString} (h : s.Single nodeID) (hmem : (name, addr) ∈ s.starting) :
    let t : Membership := { s.setLoop s.count ⟨name, addr, false, false⟩ with
      peerStops := Function.update s.peerStops name (some s.count)
      count := s.count + 1
      starting := s.starting.erase (name, addr) }
    t.Single nodeID ∧ t.members = s.members := by
  intro t
  obtain ⟨hstarting, hnone⟩ : s.starting = [(name, addr)] ∧ s.peerStops name = none := by
    rcases h.one with hnil | ⟨name', addr', hone, hnone⟩
    · rw [hnil] at hmem
      cases hmem
    · rw [hone, List.mem_singleton] at hmem
      cases hmem
      exact ⟨hone, hnone⟩
  have hloops (ch : ℕ) : t.loops ch =
      if ch = s.count then ⟨name, addr, false, false⟩ else s.loops ch := loops_setLoop s _ _ _
  have hstops (n : GoString) : t.peerStops n =
      if n = name then some s.count else s.peerStops n := Function.update_apply _ _ _ _
  have hempty : t.starting = [] := by
    change s.starting.erase (name, addr) = []
    rw [hstarting, List.erase_cons_head]
  refine ⟨⟨h.sound.store name addr, h.own, Or.inl hempty, ?_, ?_⟩, ?_⟩
  · intro ch hopen
    rw [hloops, hstops] at *
    split_ifs at hopen ⊢ with hcount hn hn
    · rw [hcount]
      exact Or.inl rfl
    · exact absurd rfl hn
    · rcases h.accounted ch hopen with hreg | hstop
      · rw [hn, hnone] at hreg
        cases hreg
      · exact Or.inr hstop
    · exact h.accounted ch hopen
  · intro hcancelled ch hreturned
    rw [hloops] at hreturned ⊢
    split_ifs at hreturned ⊢
    exact h.running hcancelled ch hreturned
  · funext n
    rw [members_of_nil hempty, members_of_singleton hstarting, hstops]
    split_ifs with hn
    · rw [Option.map_some, hloops, if_pos rfl]
    · cases hch : s.peerStops n with
      | none => rfl
      | some ch =>
          have hlt := (h.sound.registered n ch hch).1
          rw [Option.map_some, Option.map_some, hloops, if_neg hlt.ne]

theorem close {ch : ℕ} (h : s.Single nodeID) (hmem : ch ∈ s.stopping) :
    let t : Membership := { s.setLoop ch { s.loops ch with closed := true } with
      stopping := s.stopping.erase ch
      panicked := s.panicked || (s.loops ch).closed }
    t.Single nodeID ∧ t.members = s.members := by
  intro t
  have hloops (ch' : ℕ) : t.loops ch' =
      if ch' = ch then { s.loops ch with closed := true } else s.loops ch' := loops_setLoop s _ _ _
  refine ⟨⟨h.sound.close hmem, h.own, h.one, ?_, ?_⟩, members_congr rfl rfl ?_⟩
  · intro ch' hopen
    rw [hloops] at hopen ⊢
    split_ifs at hopen ⊢ with hch'
    exact (h.accounted ch' hopen).imp_right (fun hstop => (List.mem_erase_of_ne hch').2 hstop)
  · intro hcancelled ch' hreturned
    rw [hloops] at hreturned ⊢
    split_ifs at hreturned ⊢
    · rfl
    · exact h.running hcancelled ch' hreturned
  · intro ch'
    rw [hloops]
    split_ifs with hch'
    · rw [hch']
    · rfl

theorem loopReturn {ch : ℕ} (h : s.Single nodeID)
    (hstop : (s.loops ch).closed = true ∨ s.cancelled = true) :
    let t := s.setLoop ch { s.loops ch with returned := true }
    t.Single nodeID ∧ t.members = s.members := by
  intro t
  have hloops (ch' : ℕ) : t.loops ch' =
      if ch' = ch then { s.loops ch with returned := true } else s.loops ch' :=
    loops_setLoop s _ _ _
  refine ⟨⟨h.sound.loopReturn ch, h.own, h.one, ?_, ?_⟩, members_congr rfl rfl ?_⟩
  · intro ch' hopen
    rw [hloops] at hopen ⊢
    split_ifs at hopen ⊢ with hch'
    · rw [← hch'] at hopen ⊢
      exact h.accounted ch' hopen
    · exact h.accounted ch' hopen
  · intro hcancelled ch' hreturned
    rw [hloops] at hreturned ⊢
    split_ifs at hreturned ⊢
    · exact hstop.resolve_right (fun hc => Bool.false_ne_true (hcancelled.symm.trans hc))
    · exact h.running hcancelled ch' hreturned
  · intro ch'
    rw [hloops]
    split_ifs with hch'
    · rw [hch']
    · rfl

theorem step {a : MembershipAction} (h : s.Single nodeID) (ha : s.InSequence a)
    (hstep : s.step a = some t) :
    t.Single nodeID ∧ t.members = notified nodeID s.members a := by
  cases steps_of_step hstep with
  | @ignored name addr hold =>
      refine ⟨h, (if_pos ?_).symm⟩
      rwa [members_of_nil ha.1, Option.isSome_map, ← h.own]
  | notifyJoin hname haddr hnone => exact h.join ha.1 (h.own ▸ hname) haddr hnone
  | notifyLeave hch => exact h.leave ha.1 hch
  | @unknown name hnone =>
      have hmember : s.members name = none := by rw [members_of_nil ha.1, hnone, Option.map_none]
      exact ⟨h, (Function.update_eq_self_iff.2 hmember.symm).symm⟩
  | notifyUpdate => exact ⟨h, rfl⟩
  | store hmem => exact h.store hmem
  | closeStop hmem => exact h.close hmem
  | loopReturn hstop => exact h.loopReturn hstop
  | cancel =>
      refine ⟨⟨?_, h.own, h.one, h.accounted, fun hc => by cases hc⟩, rfl⟩
      exact ⟨h.sound.registered, h.sound.stopping, h.sound.nodup, h.sound.opened, h.sound.intact⟩

end Single

/-- No stop channel is closed twice, whatever the order of the steps. -/
theorem never_panics {nodeID : GoString} {as : List MembershipAction} {s : Membership}
    (hrun : StepSystem.run step (start nodeID) as = some s) : s.panicked = false :=
  (run_sound hrun).intact

/-- Two joins overlap, so that the second channel replaces the first one, and so do two leaves. -/
def overlapping : List MembershipAction :=
  [.notifyJoin (bytes "b") (bytes "x"), .notifyJoin (bytes "b") (bytes "y"),
    .store (bytes "b") (bytes "x"), .store (bytes "b") (bytes "y"), .notifyLeave (bytes "b"),
    .notifyLeave (bytes "b"), .closeStop 1, .loopReturn 1]

theorem overlapping_isSome :
    (StepSystem.run step (start (bytes "a")) overlapping).isSome = true := by decide +kernel

theorem never_panics_overlapping :
    ∃ s, StepSystem.run step (start (bytes "a")) overlapping = some s ∧
      (s.loops 1).closed = true ∧ s.panicked = false := by
  have hrun := (Option.some_get overlapping_isSome).symm
  exact ⟨_, hrun, by decide +kernel, never_panics hrun⟩

/-- When the notifications come one after the other and all calls have returned, the replicators
with an open stop channel are those of the members, one for each, and they run: a member has the
address of the first join after the last leave. Any other loop that still runs has been told to
stop. -/
theorem one_replicator_for_each_member {nodeID : GoString} {as : List MembershipAction}
    {s : Membership} (hseq : StepSystem.Along step InSequence (start nodeID) as)
    (hrun : StepSystem.run step (start nodeID) as = some s)
    (hrest : s.starting = [] ∧ s.stopping = []) (hcancelled : s.cancelled = false)
    (name : GoString) :
    (∀ addr, as.foldl (notified nodeID) (fun _ => none) name = some addr ↔
      ∃ ch, s.loops ch = ⟨name, addr, false, false⟩) ∧
    (∀ ch ch', (s.loops ch).closed = false → (s.loops ch').closed = false →
      (s.loops ch).nodeID = name → (s.loops ch').nodeID = name → ch = ch') ∧
    ∀ ch, (s.loops ch).returned = false → (s.loops ch).nodeID = name →
      (s.loops ch).closed = true ∨
        as.foldl (notified nodeID) (fun _ => none) name = some (s.loops ch).addr := by
  obtain ⟨h, hmembers⟩ := StepSystem.run_foldl (f := members)
    (fun _ _ _ h ha hstep => Single.step h ha hstep) (start_single nodeID) hseq hrun
  have hopen {ch : ℕ} (hch : (s.loops ch).closed = false) :
      s.peerStops (s.loops ch).nodeID = some ch := by
    refine (h.accounted ch hch).resolve_right ?_
    rw [hrest.2]
    exact List.not_mem_nil
  have hmember (addr : GoString) :
      as.foldl (notified nodeID) (fun _ => none) name = some addr ↔
        ∃ ch, s.loops ch = ⟨name, addr, false, false⟩ := by
    change as.foldl (notified nodeID) (start nodeID).members name = some addr ↔ _
    rw [← hmembers, members_of_nil hrest.1, Option.map_eq_some_iff]
    constructor
    · rintro ⟨ch, hch, rfl⟩
      obtain ⟨-, hname, hclosed, -⟩ := h.sound.registered name ch hch
      refine ⟨ch, ?_⟩
      have hreturned : (s.loops ch).returned = false :=
        Bool.eq_false_iff.2 (fun hr => by cases hclosed.symm.trans (h.running hcancelled ch hr))
      calc s.loops ch = ⟨(s.loops ch).nodeID, (s.loops ch).addr, (s.loops ch).closed,
            (s.loops ch).returned⟩ := rfl
        _ = ⟨name, (s.loops ch).addr, false, false⟩ := by rw [hname, hclosed, hreturned]
    · rintro ⟨ch, hch⟩
      refine ⟨ch, ?_, by rw [hch]⟩
      have hclosed : (s.loops ch).closed = false := by rw [hch]
      have hreg := hopen hclosed
      rwa [hch] at hreg
  refine ⟨hmember, fun ch ch' hclosed hclosed' hname hname' => ?_, fun ch hruns hname => ?_⟩
  · have hreg := hopen hclosed
    rw [hname, ← hname', hopen hclosed'] at hreg
    exact (Option.some.inj hreg).symm
  · cases hclosed : (s.loops ch).closed with
    | true => exact Or.inl rfl
    | false =>
        refine Or.inr ((hmember _).2 ⟨ch, ?_⟩)
        calc s.loops ch = ⟨(s.loops ch).nodeID, (s.loops ch).addr, (s.loops ch).closed,
              (s.loops ch).returned⟩ := rfl
          _ = ⟨name, (s.loops ch).addr, false, false⟩ := by rw [hname, hclosed, hruns]

instance (s : Membership) : (a : MembershipAction) → Decidable (s.InSequence a)
  | .notifyJoin _ _ | .notifyLeave _ | .notifyUpdate _ _ =>
      inferInstanceAs (Decidable (s.starting = [] ∧ s.stopping = []))
  | .store _ _ | .closeStop _ | .loopReturn _ | .cancel => isTrue trivial

/-- A node changes its address, which is noticed only after it has left and joined again. The loop
with the old address has been told to stop and still runs. -/
def moving : List MembershipAction :=
  [.notifyJoin (bytes "b") (bytes "x"), .store (bytes "b") (bytes "x"),
    .notifyUpdate (bytes "b") (bytes "y"), .notifyJoin (bytes "b") (bytes "y"),
    .notifyLeave (bytes "b"), .closeStop 0, .notifyJoin (bytes "b") (bytes "y"),
    .store (bytes "b") (bytes "y")]

theorem moving_isSome : (StepSystem.run step (start (bytes "a")) moving).isSome = true := by
  decide +kernel

theorem one_replicator_for_each_member_moving :
    ∃ s ch, StepSystem.run step (start (bytes "a")) moving = some s ∧
      s.loops ch = ⟨bytes "b", bytes "y", false, false⟩ ∧
      s.loops 0 = ⟨bytes "b", bytes "x", true, false⟩ := by
  have hrun := (Option.some_get moving_isSome).symm
  obtain ⟨hmember, -⟩ := one_replicator_for_each_member (by decide +kernel) hrun
    (by decide +kernel) (by decide +kernel) (bytes "b")
  obtain ⟨ch, hch⟩ := (hmember (bytes "y")).1 (by decide +kernel)
  exact ⟨_, ch, hrun, hch, by decide +kernel⟩

end Membership

end Capacitor
