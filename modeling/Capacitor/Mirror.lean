import Capacitor.Calls
import Capacitor.RegisterCluster

/-!
# A replica of one node

One node runs any number of `Set` and `Delete` calls concurrently, each in its three atomic steps,
and a replica that starts empty applies the entries of its log in any order and any number of times.
All timestamps come from one clock and are distinct, so that the replica ends with the cache of the
node: it recomputes the expiry from the milliseconds it is sent, which loses nothing when the expiry
was given in whole milliseconds or not at all.
-/

namespace Capacitor

open Store

section Milliseconds

theorem tdiv_mul_between (t m : ℤ) (hm : 0 ≤ m) :
    (0 ≤ t → 0 ≤ t.tdiv m * m ∧ t.tdiv m * m ≤ t) ∧
      (t ≤ 0 → t ≤ t.tdiv m * m ∧ t.tdiv m * m ≤ 0) := by
  have hnonneg (u : ℤ) (hu : 0 ≤ u) : 0 ≤ u.tdiv m * m ∧ u.tdiv m * m ≤ u := by
    have hsum := Int.tdiv_mul_add_tmod u m
    have hmod := Int.tmod_nonneg m hu
    exact ⟨Int.mul_nonneg (Int.tdiv_nonneg hu hm) hm, by linarith⟩
  refine ⟨hnonneg t, ?_⟩
  intro ht
  obtain ⟨h₁, h₂⟩ := hnonneg (-t) (by omega)
  rw [Int.neg_tdiv, neg_mul] at h₁ h₂
  omega

theorem toInt_div_mul_millisecond (ttl : Int64) :
    (ttl / millisecond * millisecond).toInt = ttl.toInt.tdiv 1000000 * 1000000 := by
  have hdiv : (ttl / millisecond).toInt = ttl.toInt.tdiv 1000000 :=
    Int64.toInt_div_of_ne_right ttl millisecond (by decide)
  have hms : millisecond.toInt = 1000000 := by decide
  have hlow := Int64.le_toInt ttl
  have hhigh := Int64.toInt_lt ttl
  obtain ⟨hpos, hneg⟩ := tdiv_mul_between ttl.toInt 1000000 (by decide)
  rw [Int64.toInt_mul, hdiv, hms]
  apply Int.bmod_eq_of_le <;> omega

theorem setEntry_div_mul_millisecond {V : Type*} (value : Option V) (ts : Timestamp) {ttl : Int64}
    (h : ttl ≤ 0 ∨ ttl % millisecond = 0) :
    setEntry value ts (ttl / millisecond * millisecond) = setEntry value ts ttl := by
  rcases h with hneg | hwhole
  · have hle : ttl / millisecond * millisecond ≤ 0 := by
      rw [Int64.le_iff_toInt_le, Int64.toInt_zero] at hneg ⊢
      rw [toInt_div_mul_millisecond]
      exact ((tdiv_mul_between ttl.toInt 1000000 (by decide)).2 hneg).2
    have hnot {d : Int64} (hd : d ≤ 0) : ¬ d > 0 := by
      rw [gt_iff_lt, Int64.not_lt]
      exact hd
    rw [setEntry, setEntry, if_neg (hnot hle), if_neg (hnot hneg)]
  · have hms : millisecond.toInt = 1000000 := by decide
    have hmod : ttl.toInt.tmod 1000000 = 0 := by
      have h0 := congrArg Int64.toInt hwhole
      rwa [Int64.toInt_mod, hms, Int64.toInt_zero] at h0
    have hsame : ttl / millisecond * millisecond = ttl := by
      apply Int64.toInt_inj.1
      rw [toInt_div_mul_millisecond]
      exact Int.tdiv_mul_cancel_of_tmod_eq_zero hmod
    rw [hsame]

theorem div_mul_millisecond_eq_iff (ttl : Int64) :
    ttl / millisecond * millisecond = ttl ↔ ttl % millisecond = 0 := by
  have hms : millisecond.toInt = 1000000 := by decide
  have hsum := Int.tdiv_mul_add_tmod ttl.toInt 1000000
  rw [← Int64.toInt_inj, toInt_div_mul_millisecond, ← Int64.toInt_inj, Int64.toInt_mod, hms,
    Int64.toInt_zero]
  omega

theorem div_mul_millisecond_pos_iff {ttl : Int64} (hpos : 0 < ttl) :
    0 < ttl / millisecond * millisecond ↔ millisecond ≤ ttl := by
  have hms : millisecond.toInt = 1000000 := by decide
  rw [Int64.lt_iff_toInt_lt, Int64.toInt_zero] at hpos
  rw [Int64.lt_iff_toInt_lt, Int64.toInt_zero, toInt_div_mul_millisecond, Int64.le_iff_toInt_le,
    hms, Int.tdiv_eq_ediv_of_nonneg hpos.le]
  omega

/-- When the expiry computed from whole milliseconds is the expiry computed from the duration. The
last case is a sum that wraps around to the instant that stands for no expiry. -/
theorem expiresAt_div_mul_millisecond_iff {V : Type*} (v w : Option V) (ts : Timestamp)
    (ttl : Int64) :
    (setEntry w ts (ttl / millisecond * millisecond)).expiresAt = (setEntry v ts ttl).expiresAt ↔
      ttl ≤ 0 ∨ ttl % millisecond = 0 ∨ ttl < millisecond ∧ ts.physical + ttl = 0 := by
  by_cases hneg : ttl ≤ 0
  · have hsame := setEntry_div_mul_millisecond w ts (Or.inl hneg)
    rw [hsame]
    exact iff_of_true rfl (Or.inl hneg)
  · have hpos : 0 < ttl := Int64.not_le.1 hneg
    have hpart := div_mul_millisecond_pos_iff hpos
    by_cases hlarge : millisecond ≤ ttl
    · have hsmall : ¬ ttl < millisecond := Int64.not_lt.2 hlarge
      simp only [setEntry, gt_iff_lt, if_pos hpos, if_pos (hpart.2 hlarge), hneg, hsmall,
        false_and, or_false, false_or, Int64.add_right_inj, div_mul_millisecond_eq_iff]
    · have hsmall : ttl < millisecond := Int64.not_le.1 hlarge
      have hnot : ¬ 0 < ttl / millisecond * millisecond := fun h => hlarge (hpart.1 h)
      have hmod : ttl % millisecond ≠ 0 := by
        intro hmod
        rw [(div_mul_millisecond_eq_iff ttl).2 hmod] at hnot
        exact hnot hpos
      simp only [setEntry, gt_iff_lt, if_pos hpos, if_neg hnot, hneg, hmod, hsmall, true_and,
        false_or]
      exact eq_comm

end Milliseconds

section Expiry

variable {V : Type*}

/-- The store of the replica holds nothing at `key` that a write stamped `ts` would not replace. -/
def Replica.Open (r : Replica V) (key : GoString) (ts : Timestamp) : Prop :=
  ∀ x, r.store.replicated.cache (slot key) = some x → x.timestamp < ts

/-- The entry that a replica creates from the logged entry of a `Set` expires when the entry of the
origin does exactly if the duration is not positive or a whole number of milliseconds; a positive
duration below one millisecond is sent as no expiry at all. -/
theorem expiry_replicates_iff (mp : Msgpack V) (origin replica : Replica V)
    (wall bornAt wall' : Int64) (key : GoString) (value : Option V) (ttl : Int64) (seq : ℕ)
    {e : LogEntry} (he : (origin.set mp wall bornAt key value ttl).2 = some e)
    (horigin : origin.Open key e.ts) (hreplica : replica.Open key e.ts)
    (hacc : replica.hlc.smash wall' e.ts = false) :
    ∃ x y, (origin.set mp wall bornAt key value ttl).1.store.replicated.cache (slot key) = some x ∧
      (applyRemoteEntry mp replica wall' { e with seq := seq }).store.replicated.cache (slot key) =
        some y ∧
      (y.expiresAt = x.expiresAt ↔
        ttl ≤ 0 ∨ ttl % millisecond = 0 ∨ ttl < millisecond ∧ e.ts.physical + ttl = 0) ∧
      (y.expiresAt = x.expiresAt → ∀ now, y.expired now = x.expired now) := by
  obtain ⟨bin, hbin, rfl⟩ := Option.map_eq_some_iff.1 he
  refine ⟨setEntry value (origin.hlc.now wall).2 ttl,
    setEntry (mp.unmarshal bin) (origin.hlc.now wall).2 (ttl / millisecond * millisecond),
    ?_, ?_, expiresAt_div_mul_millisecond_iff _ _ _ ttl, ?_⟩
  · change (origin.store.set key value _ ttl).replicated.cache (slot key) = _
    rw [Store.set, replicated_put]
    exact LastWriter.write_of_not_dominated _ horigin
  · rw [replicated_applyRemoteEntry_of_accept (by exact hacc)]
    exact LastWriter.write_of_not_dominated _ hreplica
  · intro hsame now
    rw [ValWithTS.expired, ValWithTS.expired, hsame]

def firstSet (ttl : Int64) : Replica UInt8 × Option LogEntry :=
  (newNode 0 1000).set byteMsgpack 1 1 (bytes "k") (some 7) ttl

theorem expiry_replicates_iff_firstSet : ∃ x y : ValWithTS UInt8,
    (firstSet 300000000).1.store.replicated.cache (slot (bytes "k")) = some x ∧
      (applyRemoteEntry byteMsgpack (newNode 0 1000) 1
        { setLogEntry ⟨1, 0⟩ 1 (bytes "k") [7] 300000000 with seq := 1 }).store.replicated.cache
          (slot (bytes "k")) = some y ∧
      y.expiresAt = x.expiresAt := by
  obtain ⟨x, y, hx, hy, hiff, -⟩ := expiry_replicates_iff byteMsgpack (newNode 0 1000)
    (newNode 0 1000) 1 1 1 (bytes "k") (some 7) 300000000 1
    (e := setLogEntry ⟨1, 0⟩ 1 (bytes "k") [7] 300000000) rfl (fun x hx => by cases hx)
    (fun x hx => by cases hx) (by decide +kernel)
  exact ⟨x, y, hx, hy, hiff.2 (by decide +kernel)⟩

/-- Half a millisecond after it was written the entry is gone from the origin, while the replica
keeps it for ever. -/
theorem half_millisecond_never_expires : ∃ (e : LogEntry) (x y : ValWithTS UInt8),
    (firstSet 500000).2 = some e ∧
      (firstSet 500000).1.store.replicated.cache (slot (bytes "k")) = some x ∧
      (applyRemoteEntry byteMsgpack (newNode 0 1000) 1 { e with seq := 1 }).store.replicated.cache
        (slot (bytes "k")) = some y ∧
      x.expiresAt = 500001 ∧ y.expiresAt = 0 ∧ x.expired 500002 = true ∧
      ∀ now, y.expired now = false :=
  ⟨setLogEntry ⟨1, 0⟩ 1 (bytes "k") [7] 500000, ⟨some 7, ⟨1, 0⟩, 500001, false⟩,
    ⟨some 7, ⟨1, 0⟩, 0, false⟩, rfl, by decide +kernel, by decide +kernel, rfl, rfl,
    by decide +kernel, fun _ => rfl⟩

end Expiry

inductive WriteCall (V : Type*) where
  | set (key : GoString) (value : Option V) (ttl : Int64)
  | delete (key : GoString)

namespace WriteCall

variable {V : Type*}

def stamped (ts : Timestamp) : WriteCall V → RegisterOp V
  | set key value ttl => .set key value ts ttl
  | delete key => .delete key ts

/-- The value survives its encoding, and the expiry is a whole number of milliseconds or absent. -/
def Transmits (mp : Msgpack V) : WriteCall V → Prop
  | set _ value ttl => mp.RoundTrips value ∧ (ttl ≤ 0 ∨ ttl % millisecond = 0)
  | delete _ => True

@[simp] theorem ts_stamped (ts : Timestamp) (c : WriteCall V) : (c.stamped ts).ts = ts := by
  cases c <;> rfl

theorem exists_replays {mp : Msgpack V} {c : WriteCall V} (h : c.Transmits mp) (ts : Timestamp)
    (bornAt : Int64) : ∃ e, (c.stamped ts).logEntry mp bornAt = some e ∧
      ∀ seq, Replays mp { e with seq := seq } (c.stamped ts) := by
  cases c with
  | set key value ttl =>
      obtain ⟨⟨bin, hbin, hvalue⟩, httl⟩ := h
      refine ⟨setLogEntry ts bornAt key bin ttl, ?_, fun seq => ⟨rfl, rfl, fun R => ?_⟩⟩
      · simp only [stamped, RegisterOp.logEntry, hbin, Option.map_some]
      · have hentry : setEntry (mp.unmarshal bin) ts (ttl / millisecond * millisecond) =
            setEntry value ts ttl := by
          rw [hvalue]
          exact setEntry_div_mul_millisecond value ts httl
        exact congrArg (R.put (slot key)) hentry
  | delete key => exact ⟨_, rfl, fun seq => ⟨rfl, rfl, fun R => rfl⟩⟩

end WriteCall

/-- The node that is written to, its replica, and the operations issued so far. The node is known to
the replica as `true`. -/
structure Mirror (V : Type*) where
  origin : RegisterNode Bool V
  replica : RegisterNode Bool V
  issued : List (Bool × RegisterOp V)

inductive MirrorAction (V : Type*) where
  | stamp (c : WriteCall V) (wall : Int64)
  | store (k : ℕ)
  | append (k : ℕ) (bornAt : Int64)
  | apply (k : ℕ) (wall : Int64)

namespace Mirror

variable {V : Type*}

def initial (start offset : Int64) (hlc : HLC) : Mirror V where
  origin := ⟨newNode start offset, [], [], [], []⟩
  replica := ⟨⟨Store.newStore, hlc⟩, [], [], [], []⟩
  issued := []

def step (mp : Msgpack V) (s : Mirror V) : MirrorAction V → Option (Mirror V)
  | .stamp c wall =>
      let (hlc, ts) := s.origin.replica.hlc.now wall
      some { s with
        origin := { s.origin with
          replica := { s.origin.replica with hlc := hlc }
          stamped := c.stamped ts :: s.origin.stamped }
        issued := (true, c.stamped ts) :: s.issued }
  | .store k => s.origin.stamped[k]?.map (fun o => { s with origin := s.origin.store k o })
  | .append k bornAt =>
      s.origin.stored[k]?.map (fun o => { s with origin := s.origin.append mp k o bornAt })
  | .apply k wall =>
      s.origin.log[k]?.map (fun e => { s with replica := s.replica.deliver mp true e wall })

/-- What a call writes can be transmitted, and its timestamp leaves the logical counter below its
maximum. -/
def StampsWell (mp : Msgpack V) (s : Mirror V) : MirrorAction V → Prop
  | .stamp c wall => c.Transmits mp ∧ (s.origin.replica.hlc.now wall).1.logical ≠ 2147483647
  | _ => True

/-- All calls have finished, and the replica has applied every entry. -/
structure Finished (s : Mirror V) : Prop where
  stamped : s.origin.stamped = []
  stored : s.origin.stored = []
  applied : ∀ e ∈ s.origin.log, (true, e) ∈ s.replica.applied

structure Mirroring (mp : Msgpack V) (s : Mirror V) : Prop where
  origin : s.origin.Faithful mp s.issued true
  replica : s.replica.Faithful mp s.issued false
  owned : ∀ q ∈ s.issued, q.1 = true
  transmits : ∀ q ∈ s.issued, ∃ c ts, q.2 = WriteCall.stamped ts c ∧ c.Transmits mp
  counter : s.origin.replica.hlc.logical ≠ 2147483647
  stamps : ∀ q ∈ s.issued, q.2.ts ≤ s.origin.replica.hlc.time
  tieless : ∀ p ∈ s.issued, ∀ q ∈ s.issued, p.2.ts = q.2.ts → p.2 = q.2

variable {mp : Msgpack V} {s t : Mirror V}

theorem initial_mirroring (mp : Msgpack V) (start offset : Int64) (hlc : HLC) :
    Mirroring mp (initial start offset hlc : Mirror V) := by
  refine ⟨RegisterNode.Faithful.fresh mp _ _, RegisterNode.Faithful.fresh mp _ _, ?_, ?_, ?_, ?_,
    ?_⟩
  · simp [initial]
  · simp [initial]
  · exact show (0 : Int32) ≠ 2147483647 by decide
  · simp [initial]
  · simp [initial]

theorem stamp_mirroring (h : Mirroring mp s) {c : WriteCall V} {wall : Int64}
    (hwell : StampsWell mp s (.stamp c wall)) (hstep : step mp s (.stamp c wall) = some t) :
    Mirroring mp t := by
  obtain ⟨htransmits, hcounter⟩ := hwell
  have hlt := s.origin.replica.hlc.time_lt_now wall h.counter
  have hnew (q : Bool × RegisterOp V) (hq : q ∈ s.issued) :
      q.2.ts < (c.stamped (s.origin.replica.hlc.now wall).2).ts := by
    rw [c.ts_stamped]
    exact (h.stamps q hq).trans_lt hlt
  obtain rfl := Option.some.inj hstep
  refine ⟨h.origin.issue _ _, h.replica.issue_other (by decide) _, ?_, ?_, hcounter, ?_, ?_⟩
  · intro q hq
    rcases List.mem_cons.1 hq with rfl | hq
    · rfl
    · exact h.owned q hq
  · intro q hq
    rcases List.mem_cons.1 hq with rfl | hq
    · exact ⟨c, _, rfl, htransmits⟩
    · exact h.transmits q hq
  · intro q hq
    rcases List.mem_cons.1 hq with rfl | hq
    · exact (c.ts_stamped _).le
    · exact (h.stamps q hq).trans hlt.le
  · intro p hp q hq hts
    rcases List.mem_cons.1 hp with rfl | hp
    · rcases List.mem_cons.1 hq with rfl | hq
      · rfl
      · exact absurd hts (hnew q hq).ne'
    · rcases List.mem_cons.1 hq with rfl | hq
      · exact absurd hts (hnew p hp).ne
      · exact h.tieless p hp q hq hts

theorem step_mirroring {a : MirrorAction V} (h : Mirroring mp s) (hwell : StampsWell mp s a)
    (hstep : step mp s a = some t) : Mirroring mp t := by
  cases a with
  | stamp c wall => exact stamp_mirroring h hwell hstep
  | store k =>
      obtain ⟨o, ho, rfl⟩ := Option.map_eq_some_iff.1 hstep
      exact { h with origin := h.origin.store ho }
  | append k bornAt =>
      obtain ⟨o, ho, rfl⟩ := Option.map_eq_some_iff.1 hstep
      have hissued := h.origin.stored o (List.mem_of_getElem? ho)
      obtain ⟨c, ts, hc, htransmits⟩ := h.transmits _ hissued
      obtain rfl : o = c.stamped ts := hc
      obtain ⟨e, he, hreplays⟩ := WriteCall.exists_replays htransmits ts bornAt
      exact { h with origin := h.origin.append ho he hreplays }
  | apply k wall =>
      obtain ⟨e, he, rfl⟩ := Option.map_eq_some_iff.1 hstep
      obtain ⟨o, ho, hr⟩ := h.origin.entries e (List.mem_of_getElem? he)
      exact { h with replica := h.replica.deliver ho hr wall }

theorem Mirroring.origin_reaches (h : Mirroring mp s) (hfin : Finished s)
    (q : Bool × RegisterOp V) (hq : q ∈ s.issued) : Reaches s.origin.cache q.2.key q.2.ts := by
  obtain ⟨i, o⟩ := q
  obtain rfl : i = true := h.owned _ hq
  refine (h.origin.reached o hq).resolve_left ?_
  rw [hfin.stamped]
  exact List.not_mem_nil

theorem Mirroring.replica_reaches (h : Mirroring mp s) (hfin : Finished s)
    (q : Bool × RegisterOp V) (hq : q ∈ s.issued) : Reaches s.replica.cache q.2.key q.2.ts := by
  obtain ⟨i, o⟩ := q
  obtain rfl : i = true := h.owned _ hq
  rcases h.origin.logged o hq with hwait | hstored | ⟨e, he, hr⟩
  · rw [hfin.stamped] at hwait
    cases hwait
  · rw [hfin.stored] at hstored
    cases hstored
  · have happlied := h.replica.applied _ (hfin.applied e he)
    rwa [hr.key, hr.ts] at happlied

/-- Once all calls have finished and every entry has been applied, the cache of the replica is the
cache of the node, entry by entry. -/
theorem mirrored (mp : Msgpack V) (start offset : Int64) (hlc : HLC) (as : List (MirrorAction V))
    (hrun : StepSystem.run (step mp) (initial start offset hlc) as = some s)
    (hwell : StepSystem.Along (step mp) (StampsWell mp) (initial start offset hlc) as)
    (hfin : Finished s) : s.replica.cache = s.origin.cache := by
  have h : Mirroring mp s := StepSystem.run_invariant_along
    (fun _ _ _ h hw hs => step_mirroring h hw hs) (initial_mirroring mp start offset hlc) hwell hrun
  refine h.replica.cache_eq (h.replica_reaches hfin) h.origin (h.origin_reaches hfin) ?_
  intro p hp q hq _ hts
  rw [h.tieless p hp q hq hts]

/-- A write and a deletion overtake each other on their way to the store and to the log, and their
entries are applied in the opposite order, one of them twice. -/
def mirrorRun : List (MirrorAction UInt8) :=
  [.stamp (.set (bytes "k") (some 1) 5000000) 10, .stamp (.delete (bytes "k")) 9, .store 0,
    .append 0 0, .apply 0 20, .store 0, .append 0 0, .apply 1 20, .apply 0 21]

theorem mirrorRun_isSome : (StepSystem.run (step byteMsgpack) (initial 8 500 (newHLC 8))
    mirrorRun).isSome = true := by
  decide +kernel

theorem mirrorRun_stampsWell : StepSystem.Along (step byteMsgpack) (StampsWell byteMsgpack)
    (initial 8 500 (newHLC 8)) mirrorRun := by
  refine ⟨⟨⟨byteMsgpack_roundTrips _, Or.inr ?_⟩, ?_⟩, ⟨trivial, ?_⟩, trivial, trivial, trivial,
    trivial, trivial, trivial, trivial, trivial⟩
  · decide +kernel
  · decide +kernel
  · decide +kernel

theorem mirrored_run :
    ∃ s, StepSystem.run (step byteMsgpack) (initial 8 500 (newHLC 8)) mirrorRun = some s ∧
      s.origin.cache (slot (bytes "k")) = some (tombstone ⟨10, 1⟩) ∧
      s.replica.cache = s.origin.cache := by
  refine ⟨_, (Option.some_get mirrorRun_isSome).symm, by decide +kernel, ?_⟩
  refine mirrored byteMsgpack 8 500 (newHLC 8) mirrorRun (Option.some_get mirrorRun_isSome).symm
    mirrorRun_stampsWell ⟨?_, ?_, ?_⟩
  · decide +kernel
  · decide +kernel
  · decide +kernel

end Mirror
end Capacitor
