import Capacitor.Calls

/-!
# The clock on machine integers

`UnboundedHLC` is the clock with integers in place of `int64` and `int32`. The clock of the source
computes the same as long as the sum in the guard of `Update` does not overflow to the other side of
the remote timestamp, and no logical counter that has to be advanced is at its maximum. Over the
integers no call sets the clock back, so neither does a call in range.
-/

namespace Capacitor

/-- The calls on a clock, with the readings of the wall clock that they make. -/
inductive HLCCall where
  | now (wall : Int64)
  | update (wall : Int64) (remote : Timestamp)
  | setMaxOffset (offset : Int64)

/-- The clock after a call, and the timestamp returned; there is none when a remote one is
refused. -/
def HLC.call (h : HLC) : HLCCall → HLC × Option Timestamp
  | .now wall => ((h.now wall).1, some (h.now wall).2)
  | .update wall remote =>
      ((h.update wall remote).elim h Prod.fst, (h.update wall remote).map Prod.snd)
  | .setMaxOffset offset => (h.setMaxOffset offset, none)

def HLC.step (h : HLC) (a : HLCCall) : Option HLC := some (h.call a).1

theorem HLC.call_update_of_smash {h : HLC} {wall : Int64} {remote : Timestamp}
    (hs : h.smash wall remote = true) : h.call (.update wall remote) = (h, none) := by
  rw [call, (update_eq_none_iff h wall remote).2 hs]
  rfl

theorem HLC.call_update_of_accept {h : HLC} {wall : Int64} {remote : Timestamp}
    (hs : h.smash wall remote = false) :
    h.call (.update wall remote) = (h.merge wall remote, some (h.merge wall remote).time) := by
  rw [call, (update_eq_some_iff h wall remote _ _).2 ⟨hs, rfl, rfl⟩]
  rfl

theorem hlc_applyRemoteEntry {V : Type*} (mp : Msgpack V) (r : Replica V) (wall : Int64)
    (e : LogEntry) :
    (applyRemoteEntry mp r wall e).hlc = (r.hlc.call (.update wall e.ts)).1 := by
  cases hs : r.hlc.smash wall e.ts with
  | true => rw [applyRemoteEntry_of_smash hs, HLC.call_update_of_smash hs]
  | false => rw [applyRemoteEntry_of_accept hs, HLC.call_update_of_accept hs]

/-- The clock over the integers. -/
structure UnboundedHLC where
  physical : ℤ
  logical : ℤ
  maxOffset : ℤ
  deriving DecidableEq

namespace UnboundedHLC

def time (u : UnboundedHLC) : ℤ ×ₗ ℤ := toLex (u.physical, u.logical)

def now (u : UnboundedHLC) (wall : ℤ) : UnboundedHLC :=
  if u.physical < wall then { u with physical := wall, logical := 0 }
  else { u with logical := u.logical + 1 }

def smash (u : UnboundedHLC) (wall physical : ℤ) : Bool := physical > wall + u.maxOffset

def maxPhysical (u : UnboundedHLC) (wall physical : ℤ) : ℤ :=
  let m := if u.physical > wall then u.physical else wall
  if physical > m then physical else m

def merge (u : UnboundedHLC) (wall physical logical : ℤ) : UnboundedHLC :=
  let m := u.maxPhysical wall physical
  if m = u.physical ∧ m = physical then
    let maxLogical := if logical > u.logical then logical else u.logical
    { u with logical := maxLogical + 1 }
  else if m = u.physical then { u with logical := u.logical + 1 }
  else if m = physical then { u with physical := m, logical := logical + 1 }
  else { u with physical := m, logical := 0 }

def update (u : UnboundedHLC) (wall physical logical : ℤ) : Option UnboundedHLC :=
  if u.smash wall physical then none else some (u.merge wall physical logical)

def call (u : UnboundedHLC) : HLCCall → UnboundedHLC × Option (ℤ ×ₗ ℤ)
  | .now wall => (u.now wall.toInt, some (u.now wall.toInt).time)
  | .update wall remote =>
      let r := u.update wall.toInt remote.physical.toInt remote.logical.toInt
      (r.getD u, r.map time)
  | .setMaxOffset offset => ({ u with maxOffset := offset.toInt }, none)

def step (u : UnboundedHLC) (a : HLCCall) : Option UnboundedHLC := some (u.call a).1

theorem call_update_of_smash {u : UnboundedHLC} {wall : Int64} {remote : Timestamp}
    (hs : u.smash wall.toInt remote.physical.toInt = true) :
    u.call (.update wall remote) = (u, none) := by
  simp only [call, update, hs, if_true, Option.getD_none, Option.map_none]

theorem call_update_of_accept {u : UnboundedHLC} {wall : Int64} {remote : Timestamp}
    (hs : u.smash wall.toInt remote.physical.toInt = false) :
    u.call (.update wall remote) =
      (u.merge wall.toInt remote.physical.toInt remote.logical.toInt,
        some (u.merge wall.toInt remote.physical.toInt remote.logical.toInt).time) := by
  simp only [call, update, hs, Bool.false_eq_true, if_false, Option.getD_some, Option.map_some]

theorem le_maxPhysical (u : UnboundedHLC) (wall physical : ℤ) :
    u.physical ≤ u.maxPhysical wall physical := by
  unfold maxPhysical
  dsimp only
  split_ifs <;> omega

theorem time_le_of_physical_lt {u v : UnboundedHLC} (h : u.physical < v.physical) :
    u.time ≤ v.time := Prod.Lex.toLex_le_toLex.2 (Or.inl h)

theorem time_le_of_logical_le {u v : UnboundedHLC} (h : u.physical = v.physical)
    (hl : u.logical ≤ v.logical) : u.time ≤ v.time := Prod.Lex.toLex_le_toLex.2 (Or.inr ⟨h, hl⟩)

theorem time_le_now (u : UnboundedHLC) (wall : ℤ) : u.time ≤ (u.now wall).time := by
  unfold now
  split_ifs with hwall
  · exact time_le_of_physical_lt hwall
  · exact time_le_of_logical_le rfl (Int.le_add_one le_rfl)

theorem time_le_merge (u : UnboundedHLC) (wall physical logical : ℤ) :
    u.time ≤ (u.merge wall physical logical).time := by
  have hle := u.le_maxPhysical wall physical
  unfold merge
  dsimp only
  split_ifs with hboth hlogical hown hremote
  · exact time_le_of_logical_le rfl (Int.le_add_one hlogical.le)
  · exact time_le_of_logical_le rfl (Int.le_add_one le_rfl)
  · exact time_le_of_logical_le rfl (Int.le_add_one le_rfl)
  · exact time_le_of_physical_lt (lt_of_le_of_ne hle (Ne.symm hown))
  · exact time_le_of_physical_lt (lt_of_le_of_ne hle (Ne.symm hown))

theorem time_le_call (u : UnboundedHLC) (a : HLCCall) : u.time ≤ (u.call a).1.time := by
  cases a with
  | now wall => exact u.time_le_now wall.toInt
  | update wall remote =>
      cases hs : u.smash wall.toInt remote.physical.toInt with
      | true => rw [call_update_of_smash hs]
      | false =>
          rw [call_update_of_accept hs]
          exact u.time_le_merge _ _ _
  | setMaxOffset offset => exact le_rfl

end UnboundedHLC

namespace HLC

def unbounded (h : HLC) : UnboundedHLC := ⟨h.physical.toInt, h.logical.toInt, h.maxOffset.toInt⟩

theorem rank_time (h : HLC) : h.time.rank = h.unbounded.time := rfl

/-- The call gives the clock, the timestamp and the decision that it gives over the integers. -/
def Exact (h : HLC) (a : HLCCall) : Prop :=
  (h.call a).1.unbounded = (h.unbounded.call a).1 ∧
    (h.call a).2.map Timestamp.rank = (h.unbounded.call a).2

def Forward (h : HLC) (a : HLCCall) : Prop := h.time ≤ (h.call a).1.time

/-- A sum of the guard that overflows at the top is still not exceeded by the remote timestamp, and
one that overflows at the bottom is still exceeded by it. -/
def GuardInRange (h : HLC) (wall : Int64) (remote : Timestamp) : Prop :=
  (2 ^ 63 ≤ wall.toInt + h.maxOffset.toInt → h.smash wall remote = false) ∧
    (wall.toInt + h.maxOffset.toInt < -2 ^ 63 → h.smash wall remote = true)

/-- No logical counter that is advanced is at its maximum. -/
def CounterInRange (h : HLC) (wall : Int64) (remote : Timestamp) : Prop :=
  (h.physical = h.maxPhysical wall remote → h.logical ≠ 2147483647) ∧
    (remote.physical = h.maxPhysical wall remote → remote.logical ≠ 2147483647)

def InRange (h : HLC) : HLCCall → Prop
  | .now wall => wall ≤ h.physical → h.logical ≠ 2147483647
  | .update wall remote => h.GuardInRange wall remote ∧
      (h.smash wall remote = false → h.CounterInRange wall remote)
  | .setMaxOffset _ => True

instance (h : HLC) : (a : HLCCall) → Decidable (h.InRange a)
  | .now _ => inferInstanceAs (Decidable (_ → _))
  | .update _ _ => inferInstanceAs (Decidable (((_ → _) ∧ (_ → _)) ∧ (_ → (_ → _) ∧ (_ → _))))
  | .setMaxOffset _ => isTrue trivial

theorem ne_max_iff (l : Int32) : l ≠ 2147483647 ↔ l.toInt < 2147483647 := by
  have hhi := l.toInt_lt
  have hmax : l = 2147483647 ↔ l.toInt = 2147483647 := Int32.toInt_inj.symm
  rw [Ne, hmax]
  omega

theorem toInt_add_one_iff (l : Int32) : (l + 1).toInt = l.toInt + 1 ↔ l ≠ 2147483647 := by
  have hlo := l.le_toInt
  have hhi := l.toInt_lt
  have hone : (1 : Int32).toInt = 1 := rfl
  rw [ne_max_iff, Int32.toInt_add, Int.bmod_def, hone]
  omega

/-- The guard decides as over the integers exactly if it is in range: beyond the range of an
`int64` the sum exceeds every remote timestamp, or none. -/
theorem smash_unbounded_iff (h : HLC) (wall : Int64) (remote : Timestamp) :
    h.smash wall remote = h.unbounded.smash wall.toInt remote.physical.toInt ↔
      h.GuardInRange wall remote := by
  have hlo := remote.physical.le_toInt
  have hhi := remote.physical.toInt_lt
  by_cases htop : 2 ^ 63 ≤ wall.toInt + h.maxOffset.toInt
  · have hfalse : h.unbounded.smash wall.toInt remote.physical.toInt = false :=
      decide_eq_false (show ¬ remote.physical.toInt > wall.toInt + h.maxOffset.toInt by omega)
    rw [hfalse]
    exact ⟨fun hs => ⟨fun _ => hs, fun hbottom => by omega⟩, fun hguard => hguard.1 htop⟩
  · by_cases hbottom : wall.toInt + h.maxOffset.toInt < -2 ^ 63
    · have htrue : h.unbounded.smash wall.toInt remote.physical.toInt = true :=
        decide_eq_true (show remote.physical.toInt > wall.toInt + h.maxOffset.toInt by omega)
      rw [htrue]
      exact ⟨fun hs => ⟨fun h => absurd h htop, fun _ => hs⟩, fun hguard => hguard.2 hbottom⟩
    · have hadd : (wall + h.maxOffset).toInt = wall.toInt + h.maxOffset.toInt := by
        rw [Int64.toInt_add]
        exact Int.bmod_eq_of_le (by omega) (by omega)
      refine iff_of_true ?_ ⟨fun h => absurd h htop, fun h => absurd h hbottom⟩
      simp only [smash, UnboundedHLC.smash, unbounded, gt_iff_lt, Int64.lt_iff_toInt_lt, hadd]

theorem toInt_maxPhysical (h : HLC) (wall : Int64) (remote : Timestamp) :
    (h.maxPhysical wall remote).toInt =
      h.unbounded.maxPhysical wall.toInt remote.physical.toInt := by
  unfold maxPhysical UnboundedHLC.maxPhysical
  simp only [unbounded, gt_iff_lt, Int64.lt_iff_toInt_lt]
  split_ifs <;> rfl

theorem unbounded_advance_iff (physical : Int64) (l : Int32) (maxOffset : Int64) :
    (HLC.mk physical (l + 1) maxOffset).unbounded =
        ⟨physical.toInt, l.toInt + 1, maxOffset.toInt⟩ ↔ l ≠ 2147483647 := by
  rw [← toInt_add_one_iff]
  refine ⟨fun h => congrArg UnboundedHLC.logical h, fun h => ?_⟩
  rw [unbounded, h]

theorem unbounded_now_iff (h : HLC) (wall : Int64) :
    (h.now wall).1.unbounded = h.unbounded.now wall.toInt ↔ h.InRange (.now wall) := by
  have hlt : h.unbounded.physical < wall.toInt ↔ h.physical < wall := Int64.lt_iff_toInt_lt.symm
  simp only [now, UnboundedHLC.now, InRange, hlt]
  split_ifs with hwall
  · exact iff_of_true rfl (fun hle => absurd hwall (Int64.not_lt.2 hle))
  · refine (unbounded_advance_iff _ _ _).trans ⟨fun hne _ => hne, fun hne => ?_⟩
    exact hne (Int64.not_lt.1 hwall)

theorem unbounded_merge_iff (h : HLC) (wall : Int64) (remote : Timestamp) :
    (h.merge wall remote).unbounded =
        h.unbounded.merge wall.toInt remote.physical.toInt remote.logical.toInt ↔
      h.CounterInRange wall remote := by
  have hown : (h.maxPhysical wall remote).toInt = h.unbounded.physical ↔
      h.maxPhysical wall remote = h.physical := Int64.toInt_inj
  have hremote : (h.maxPhysical wall remote).toInt = remote.physical.toInt ↔
      h.maxPhysical wall remote = remote.physical := Int64.toInt_inj
  have hlogical : h.unbounded.logical < remote.logical.toInt ↔ h.logical < remote.logical :=
    Int32.lt_iff_toInt_lt.symm
  simp only [merge, UnboundedHLC.merge, ← toInt_maxPhysical, hown, hremote, gt_iff_lt, hlogical,
    CounterInRange]
  split_ifs with hboth hlt hphysical hadopt
  · refine (unbounded_advance_iff _ _ _).trans ⟨fun hne => ?_, fun hne => hne.2 hboth.2.symm⟩
    rw [ne_max_iff] at hne
    have hless := Int32.lt_iff_toInt_lt.1 hlt
    exact ⟨fun _ => (ne_max_iff _).2 (by omega), fun _ => (ne_max_iff _).2 hne⟩
  · refine (unbounded_advance_iff _ _ _).trans ⟨fun hne => ?_, fun hne => hne.1 hboth.1.symm⟩
    rw [ne_max_iff] at hne
    have hle := Int32.le_iff_toInt_le.1 (Int32.not_lt.1 hlt)
    exact ⟨fun _ => (ne_max_iff _).2 hne, fun _ => (ne_max_iff _).2 (by omega)⟩
  · refine (unbounded_advance_iff _ _ _).trans ⟨fun hne => ?_, fun hne => hne.1 hphysical.symm⟩
    exact ⟨fun _ => hne, fun heq => absurd ⟨hphysical, heq.symm⟩ hboth⟩
  · refine (unbounded_advance_iff _ _ _).trans ⟨fun hne => ?_, fun hne => hne.2 hadopt.symm⟩
    exact ⟨fun heq => absurd heq.symm hphysical, fun _ => hne⟩
  · exact iff_of_true rfl
      ⟨fun heq => absurd heq.symm hphysical, fun heq => absurd heq.symm hadopt⟩

theorem exact_update_iff (h : HLC) (wall : Int64) (remote : Timestamp) :
    h.Exact (.update wall remote) ↔
      h.smash wall remote = h.unbounded.smash wall.toInt remote.physical.toInt ∧
        (h.smash wall remote = false → (h.merge wall remote).unbounded =
          h.unbounded.merge wall.toInt remote.physical.toInt remote.logical.toInt) := by
  unfold Exact
  cases hs : h.smash wall remote with
  | true =>
      rw [call_update_of_smash hs]
      cases hu : h.unbounded.smash wall.toInt remote.physical.toInt with
      | true =>
          rw [UnboundedHLC.call_update_of_smash hu]
          exact iff_of_true ⟨rfl, rfl⟩ ⟨rfl, nofun⟩
      | false =>
          rw [UnboundedHLC.call_update_of_accept hu]
          exact iff_of_false (fun hexact => nomatch hexact.2) (fun hm => nomatch hm.1)
  | false =>
      rw [call_update_of_accept hs]
      cases hu : h.unbounded.smash wall.toInt remote.physical.toInt with
      | true =>
          rw [UnboundedHLC.call_update_of_smash hu]
          exact iff_of_false (fun hexact => nomatch hexact.2) (fun hm => nomatch hm.1)
      | false =>
          rw [UnboundedHLC.call_update_of_accept hu, Option.map_some, rank_time]
          refine ⟨fun hexact => ⟨rfl, fun _ => hexact.1⟩, fun hm => ?_⟩
          have hmerge := hm.2 rfl
          exact ⟨hmerge, by rw [hmerge]⟩

/-- A call computes what it computes over the integers exactly if it is in range. -/
theorem exact_iff (h : HLC) (a : HLCCall) : h.Exact a ↔ h.InRange a := by
  cases a with
  | now wall =>
      rw [← unbounded_now_iff]
      refine ⟨fun hexact => hexact.1, fun hnow => ⟨hnow, ?_⟩⟩
      simp only [call, UnboundedHLC.call, Option.map_some, ← time_now, rank_time, hnow]
  | update wall remote =>
      rw [exact_update_iff, smash_unbounded_iff, unbounded_merge_iff]
      rfl
  | setMaxOffset offset => exact iff_of_true ⟨rfl, rfl⟩ trivial

theorem Exact.forward {h : HLC} {a : HLCCall} (hexact : h.Exact a) : h.Forward a := by
  have hle := h.unbounded.time_le_call a
  rw [← hexact.1, ← rank_time, ← rank_time] at hle
  exact hle

/-- In a run whose calls are in range, and in no other, every call computes what it computes over
the integers. Such a run ends where the clock over the integers does, and no call of it sets the
clock back. -/
theorem exact_iff_inRange (wall : Int64) (calls : List HLCCall) :
    (StepSystem.Along step InRange (newHLC wall) calls ↔
      StepSystem.Along step Exact (newHLC wall) calls) ∧
    (StepSystem.Along step InRange (newHLC wall) calls →
      StepSystem.run UnboundedHLC.step (newHLC wall).unbounded calls =
        (StepSystem.run step (newHLC wall) calls).map unbounded ∧
      StepSystem.Along step Forward (newHLC wall) calls) := by
  have hiff : StepSystem.Along step InRange (newHLC wall) calls ↔
      StepSystem.Along step Exact (newHLC wall) calls := by
    rw [show Exact = InRange from funext₂ (fun h a => propext (exact_iff h a))]
  refine ⟨hiff, fun hrange => ⟨?_, ?_⟩⟩
  · exact StepSystem.run_map (fun h a hexact => congrArg some hexact.1.symm) (hiff.1 hrange)
  · exact StepSystem.along_of_along (P := fun _ => True) (fun _ _ _ _ _ _ => trivial)
      (fun h a _ hexact => hexact.forward) trivial (hiff.1 hrange)

def lastCounterRun : List HLCCall :=
  [.setMaxOffset 100, .update 5 ⟨10, 2147483645⟩, .now 7, .update 20 ⟨500, 0⟩, .now 12]

theorem exact_iff_inRange_lastCounter :
    StepSystem.run step (newHLC 1) lastCounterRun = some ⟨12, 0, 100⟩ ∧
      StepSystem.run UnboundedHLC.step ⟨1, 0, 500000000⟩ lastCounterRun = some ⟨12, 0, 100⟩ ∧
      StepSystem.Along step Forward (newHLC 1) lastCounterRun := by
  have hrun : StepSystem.run step (newHLC 1) lastCounterRun = some ⟨12, 0, 100⟩ := by decide
  have hstart : (newHLC 1).unbounded = ⟨1, 0, 500000000⟩ := by decide
  have hend : (HLC.mk 12 0 100).unbounded = ⟨12, 0, 100⟩ := by decide
  obtain ⟨hexact, hforward⟩ := (exact_iff_inRange 1 lastCounterRun).2 (by decide)
  rw [hrun, hstart, Option.map_some, hend] at hexact
  exact ⟨hrun, hexact, hforward⟩

/-- An entry that carries the last counter makes the counter wrap, and the clock of the node that
accepts it goes back. With the greatest offset there is, the sum of the guard overflows, and a
timestamp is refused that is not even ahead of the wall clock. -/
theorem last_counter_sets_clock_back :
    (applyRemoteEntry byteMsgpack ⟨Store.newStore, newHLC 10⟩ 10
        (deleteLogEntry ⟨10, 2147483647⟩ 10 (bytes "k"))).hlc = ⟨10, -2147483648, 500000000⟩ ∧
      (⟨10, -2147483648⟩ : Timestamp) < (newHLC 10).time ∧
      ((newHLC 10).unbounded.call (.update 10 ⟨10, 2147483647⟩)).1 =
        ⟨10, 2147483648, 500000000⟩ ∧
      (((newHLC 10).setMaxOffset 9223372036854775807).call (.update 10 ⟨10, 0⟩)).2 = none ∧
      (((newHLC 10).setMaxOffset 9223372036854775807).unbounded.call (.update 10 ⟨10, 0⟩)).2 =
        some (toLex (10, 1)) := by
  refine ⟨(hlc_applyRemoteEntry _ _ _ _).trans (by decide), ?_, by decide, by decide, by decide⟩
  exact (Timestamp.lt_iff _ _).2 (Or.inr ⟨rfl, by decide⟩)

end HLC

section Nodes

variable {V : Type*}

def NodeAction.hlcCall : NodeAction V → Option HLCCall
  | .call c => some (.now c.wall)
  | .applyRemoteEntry wall e => some (.update wall e.ts)
  | .pruneExpiredKeys _ _ => none

variable {mp : Msgpack V} {nodeID : GoString} {r r' : Replica V}

theorem hlc_step {a : NodeAction V} (h : r.step mp nodeID a = some r') :
    StepSystem.run HLC.step r.hlc a.hlcCall.toList = some r'.hlc := by
  cases a with
  | call c =>
      obtain rfl := Option.some.inj h
      exact congrArg some (hlc_call mp nodeID r c).symm
  | applyRemoteEntry wall e =>
      obtain rfl := Option.some.inj h
      exact congrArg some (hlc_applyRemoteEntry mp r wall e).symm
  | pruneExpiredKeys i now =>
      obtain rfl := Option.some.inj h
      rfl

theorem hlc_run {as : List (NodeAction V)}
    (h : StepSystem.run (Replica.step mp nodeID) r as = some r') :
    StepSystem.run HLC.step r.hlc (as.flatMap (fun a => a.hlcCall.toList)) = some r'.hlc := by
  induction as generalizing r with
  | nil =>
      obtain rfl := Option.some.inj h
      rfl
  | cons a as ih =>
      obtain ⟨t, hstep, hrun⟩ := (StepSystem.run_cons_eq_some _ _ _ _ _).1 h
      rw [List.flatMap_cons, StepSystem.run_append_eq_some]
      exact ⟨t.hlc, hlc_step hstep, ih hrun⟩

end Nodes

end Capacitor
