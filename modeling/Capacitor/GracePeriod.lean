import Capacitor.Entries
import Capacitor.Registers

/-!
# The grace period of a tombstone

A deletion leaves a tombstone that lasts for an hour. Until then every write that is not newer than
the deletion is dropped, the janitor keeps the tombstone, a flush writes it with the time it has
left, and a load brings it back. A session is a run of operations and flushes in which the store may
be closed and opened again any number of times.
-/

namespace Capacitor

open Store

variable {V : Type*} {c : DiskCodec V}

inductive SessionAction (V : Type*) where
  | act (a : DiskAction V)
  | restart (orders : Fin numShards → List GoString) (flushed : Fin numShards → GoString → Int64)
      (now : GoString → Int64) (items : List (GoString × Record))

def Disk.session (c : DiskCodec V) (d : Disk V) : SessionAction V → Option (Disk V)
  | .act a => d.step c a
  | .restart orders flushed now items => d.restart c orders flushed now items

/-- A reading before the end of the grace period; what is left of the period fits in 64 bits. -/
def InGrace (td : Timestamp) (now : Int64) : Prop :=
  now < td.physical + hour ∧ (td.physical + hour).toInt - now.toInt < 2 ^ 63

instance (td : Timestamp) (now : Int64) : Decidable (InGrace td now) :=
  inferInstanceAs (Decidable (_ ∧ _))

/-- The operation writes nothing to `k` that is newer than `td`, and a janitor pass comes before the
end of the grace period. -/
def StoreOp.Late (k : GoString) (td : Timestamp) : StoreOp V → Prop
  | set key _ ts _ => key = k → ts ≤ td
  | delete key ts => key = k → ts ≤ td
  | pruneExpiredKeys _ now => InGrace td now
  | _ => True

/-- A step of a session within the grace period: a flush ranges over the dirty keys of its shard,
and a load meets the records that have not outlived their time. -/
def Disk.WithinGrace (c : DiskCodec V) (k : GoString) (td : Timestamp) (d : Disk V) :
    SessionAction V → Prop
  | .act (.op o) => o.Late k td
  | .act (.flushShard i order now) => d.Ranges i order ∧ ∀ key, InGrace td (now key)
  | .act .commit => True
  | .restart orders flushed now items =>
      (∀ i, d.Ranges i (orders i)) ∧ (∀ i key, InGrace td (flushed i key)) ∧
        Visible (d.close c orders flushed).db now items ∧ ∀ key, InGrace td (now key)

namespace InGrace

variable {td : Timestamp} {now : Int64}

theorem lasts (h : InGrace td now) : (tombstone td : ValWithTS V).Lasts now := by
  intro _
  have hlt := Int64.lt_iff_toInt_lt.1 h.1
  have hfits := h.2
  change td.physical + hour - now > 0
  rw [gt_iff_lt, Int64.lt_iff_toInt_lt, Int64.toInt_sub, Int.bmod_eq_of_le (by omega) (by omega)]
  change 0 < _
  omega

theorem not_expired (h : InGrace td now) : (tombstone td : ValWithTS V).expired now = false := by
  have hlt := Int64.lt_iff_toInt_lt.1 h.1
  have hnot : ¬ now > td.physical + hour := by
    rw [gt_iff_lt, Int64.lt_iff_toInt_lt]
    omega
  simp [ValWithTS.expired, tombstone, hnot]

end InGrace

theorem StoreOp.Late.leaves {k : GoString} {td : Timestamp} {o : StoreOp V} (h : o.Late k td) :
    o.Leaves k (tombstone td) := by
  cases o with
  | set key value ts ttl => exact h
  | delete key ts => exact h
  | pruneExpiredKeys i now => exact InGrace.not_expired h
  | _ => trivial

theorem Held.session {k : GoString} (hk : recordKind k = .entry) {td : Timestamp}
    (hround : c.unmarshal (c.marshal (tombstone td)) = some (tombstone td)) {d d' : Disk V}
    (h : Held c k (tombstone td) d) {a : SessionAction V} (ha : d.WithinGrace c k td a)
    (hstep : d.session c a = some d') : Held c k (tombstone td) d' := by
  cases a with
  | act a =>
      cases a with
      | op o =>
          obtain rfl := Option.some.inj hstep
          exact h.op hk (StoreOp.Late.leaves ha)
      | flushShard i order now =>
          obtain rfl := Option.some.inj hstep
          exact h.flushShard hk ha.1 (ha.2 k).lasts
      | commit =>
          obtain rfl := Option.some.inj hstep
          exact h.commit
  | restart orders flushed now items =>
      obtain ⟨hranges, hflushed, hvisible, hnow⟩ := ha
      exact h.restart hk hranges (fun i => (hflushed i k).lasts) hvisible hround
        (fun _ => (hnow k).1) hstep

theorem places_session {k : GoString} (hk : recordKind k = .entry) {d d' : Disk V}
    (h : d.store.Places k) {a : SessionAction V} (hstep : d.session c a = some d') :
    d'.store.Places k := by
  cases a with
  | act a =>
      cases a with
      | op o =>
          obtain rfl := Option.some.inj hstep
          exact h.op hk o
      | flushShard i order now =>
          obtain rfl := Option.some.inj hstep
          exact d.places_flushShard h i order now
      | commit =>
          obtain rfl := Option.some.inj hstep
          exact h
  | restart orders flushed now items =>
      obtain ⟨s, hs, rfl⟩ := Option.map_eq_some_iff.1 hstep
      obtain rfl := Store.foldl_of_load hs
      exact Store.places_load items k

/-- Within an hour of a deletion that took effect no write that is not newer brings the key back,
across janitor passes, flushes and restarts, in any state a session can reach. -/
theorem tombstone_outlasts_late_writes {k : GoString} (hk : colon ∉ k) {td : Timestamp}
    (hround : c.unmarshal (c.marshal (tombstone td)) = some (tombstone td))
    {as₀ : List (SessionAction V)} {d₀ : Disk V}
    (hreach : StepSystem.run (Disk.session c) Disk.empty as₀ = some d₀)
    (htook : ∀ x, d₀.store.replicated.cache (slot k) = some x → x.timestamp < td)
    {as : List (SessionAction V)} {d : Disk V}
    (hrun : StepSystem.run (Disk.session c) { d₀ with store := d₀.store.delete k td } as = some d)
    (hgrace : StepSystem.Along (Disk.session c) (Disk.WithinGrace c k td)
      { d₀ with store := d₀.store.delete k td } as) (now : Int64) :
    d.store.get k now = none ∧ d.store.exists? k now = false := by
  have hentry := recordKind_of_not_mem hk
  have hplaces : d₀.store.Places k :=
    StepSystem.run_invariant (P := fun d : Disk V => d.store.Places k)
      (fun d a d' hd hstep => places_session hentry hd hstep) (fun i _ => ⟨rfl, rfl⟩) hreach
  have hheld : Held c k (tombstone td) d :=
    StepSystem.run_invariant_along
      (fun d a d' hd ha hstep => hd.session hentry hround ha hstep)
      (Held.put (.delete k td) rfl hentry hplaces htook) hgrace hrun
  have hcache := hheld.cache
  unfold Store.get Store.exists?
  rw [hcache]
  exact ⟨rfl, rfl⟩

def deletedDisk : Disk UInt8 := ⟨Store.newStore.delete (bytes "k") ⟨1000, 0⟩, ∅, []⟩

def flushedDisk : Disk UInt8 :=
  (deletedDisk.flushShard byteCodec (shardIndex (bytes "k")) [bytes "k"] (fun _ => 2000)).commit

def tombstoneItems : List (GoString × Record) :=
  [(bytes "k", byteCodec.lastingRecord (tombstone ⟨1000, 0⟩))]

def lateSession : List (SessionAction UInt8) :=
  [.act (.flushShard (shardIndex (bytes "k")) [bytes "k"] (fun _ => 2000)),
    .act .commit,
    .restart (fun _ => []) (fun _ _ => 3000) (fun _ => 4000) tombstoneItems,
    .act (.op (.set (bytes "k") (some 7) ⟨500, 0⟩ 0))]

theorem dirty_deletedDisk (i : Fin numShards) (k : GoString) :
    (deletedDisk.store.shards i).dirty k = true ↔ i = shardIndex (bytes "k") ∧ k = bytes "k" := by
  have hdirty : (deletedDisk.store.shards i).dirty k =
      if i = shardIndex (bytes "k") then Function.update (fun _ => false) (bytes "k") true k
      else false := by
    unfold deletedDisk Store.delete
    rw [shards_modifyShard]
    split_ifs <;> rfl
  rw [hdirty]
  split_ifs with hi
  · simp [Function.update_apply, hi]
  · simp [hi]

theorem ranges_flushedDisk (i : Fin numShards) : flushedDisk.Ranges i [] := by
  intro k
  refine iff_of_false (List.not_mem_nil) ?_
  change ¬ ((deletedDisk.flushShard byteCodec (shardIndex (bytes "k")) [bytes "k"]
    (fun _ => 2000)).store.shards i).dirty k = true
  rw [Disk.shards_flushShard]
  split_ifs with hi
  · simp
  · exact fun hdirty => hi ((dirty_deletedDisk i k).1 hdirty).1

theorem tombstone_outlasts_late_writes_lateSession :
    ∃ d, StepSystem.run (Disk.session byteCodec) deletedDisk lateSession = some d ∧
      d.store.get (bytes "k") 5000 = none ∧ d.store.exists? (bytes "k") 5000 = false := by
  have hsome : (StepSystem.run (Disk.session byteCodec) deletedDisk lateSession).isSome := by
    decide +kernel
  have hitems : (flushedDisk.close byteCodec (fun _ => []) (fun _ _ => 3000)).db.toList =
      tombstoneItems := by
    decide +kernel
  have hrange : deletedDisk.Ranges (shardIndex (bytes "k")) [bytes "k"] := by
    intro k
    rw [dirty_deletedDisk, List.mem_singleton]
    simp
  have hgrace (t : Int64) (ht : InGrace ⟨1000, 0⟩ t) (key : GoString) :
      InGrace ⟨1000, 0⟩ ((fun _ : GoString => t) key) := ht
  have hlate : (StoreOp.set (bytes "k") (some 7) ⟨500, 0⟩ 0 : StoreOp UInt8).Late (bytes "k")
      ⟨1000, 0⟩ := fun _ => by decide
  have hempty : StepSystem.run (Disk.session byteCodec) Disk.empty [] = some Disk.empty := rfl
  refine ⟨_, (Option.some_get hsome).symm, ?_⟩
  refine tombstone_outlasts_late_writes (by decide) (by decide +kernel) hempty
    (fun x hx => by cases hx) (Option.some_get hsome).symm ?_ 5000
  refine ⟨⟨hrange, hgrace 2000 (by decide)⟩, trivial,
    ⟨ranges_flushedDisk, fun _ => hgrace 3000 (by decide), ?_, hgrace 4000 (by decide)⟩, ?_⟩
  · rw [← hitems]
    exact Visible.toList _ _
  · generalize Disk.session byteCodec _ (.restart _ _ _ tombstoneItems) = restarted
    cases restarted with
    | none => trivial
    | some d => exact ⟨hlate, trivial⟩

end Capacitor
