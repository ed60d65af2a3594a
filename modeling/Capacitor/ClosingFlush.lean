import Capacitor.Entries
import Capacitor.Reload

/-!
# Two flushes at a close

`close` does not wait for the flush that `flushLoop` may have under way. Each of the two copies the
dirty keys of one shard after the other, and commits all it has copied at the end, so that the
older copy of a key may be committed last. `since` holds the names that were marked by a write after
the close had copied their shard. No flush reads the clock after the instant `time`. A name that
begins with `meta:seq:` is left aside: a flush writes a watermark for it, whatever is held there.
-/

namespace Capacitor

open Store

variable {V : Type*}

inductive Flusher where
  | flushLoop
  | close
  deriving DecidableEq

/-- A flush: the shards it has copied, what it is going to write, and whether it has done so. -/
structure Flush where
  taken : List (Fin numShards)
  batch : List (WriteBatch.Write GoString Record)
  committed : Bool

def Flush.idle : Flush := ⟨[], [], false⟩

def Flush.pending (f : Flush) : List (WriteBatch.Write GoString Record) :=
  if f.committed then [] else f.batch

structure Closing (V : Type*) where
  store : Store V
  db : Database
  loop : Flush
  last : Flush
  closing : Bool
  since : List GoString

inductive ClosingAction (V : Type*) where
  | op (o : StoreOp V)
  | close
  | snapshot (who : Flusher) (i : Fin numShards) (order : List GoString) (now : GoString → Int64)
  | commit (who : Flusher)

/-- The name a write marks, with the shard that holds it. -/
def StoreOp.written : StoreOp V → Option (Fin numShards × GoString)
  | set key _ _ _ => some (slot key)
  | delete key _ => some (slot key)
  | increment key nodeID _ => some (countSlot key nodeID)
  | _ => none

/-- The dirty map of a shard is replaced by an empty one. -/
def Store.unmark (s : Store V) (i : Fin numShards) : Store V :=
  ⟨Function.update s.shards i { s.shards i with dirty := fun _ => false }⟩

def Store.marked (s : Store V) (p : Fin numShards × GoString) : Bool := (s.shards p.1).dirty p.2

/-- The shard holds a cache entry or a count under the name. -/
def StoreShard.Holds (shard : StoreShard V) (k : GoString) : Prop :=
  shard.cache k ≠ none ∨ shard.counts k ≠ none

def Store.Holds (s : Store V) (p : Fin numShards × GoString) : Prop := (s.shards p.1).Holds p.2

def Store.copies (c : DiskCodec V) (s : Store V) (i : Fin numShards) (order : List GoString)
    (now : GoString → Int64) : List (WriteBatch.Write GoString Record) :=
  order.flatMap (fun k => ((s.shards i).snapshotItem k).writes c (now k))

namespace Closing

variable (c : DiskCodec V)

def start (s : Store V) (db : Database) : Closing V := ⟨s, db, .idle, .idle, false, []⟩

def flush (h : Closing V) : Flusher → Flush
  | .flushLoop => h.loop
  | .close => h.last

def setFlush (h : Closing V) (f : Flush) : Flusher → Closing V
  | .flushLoop => { h with loop := f }
  | .close => { h with last := f }

/-- The whole batch of a flush is committed at once. -/
def commit (h : Closing V) (who : Flusher) : Closing V :=
  { h with db := WriteBatch.commit h.db (h.flush who).batch }.setFlush
    { h.flush who with committed := true } who

def step [Rounding] (h : Closing V) : ClosingAction V → Option (Closing V)
  | .op o =>
      let s := o.apply h.store
      let late := o.written.toList.filter (fun p => p.1 ∈ h.last.taken ∧ s.marked p = true)
      some { h with store := s, since := late.map Prod.snd ++ h.since }
  | .close => some { h with closing := true }
  | .snapshot who i order now =>
      let f := h.flush who
      if i ∉ f.taken ∧ f.committed = false ∧ (who = .close → h.closing = true) then
        some ({ h with store := h.store.unmark i }.setFlush
          ⟨i :: f.taken, f.batch ++ h.store.copies c i order now, false⟩ who)
      else none
  | .commit who =>
      if (∀ i, i ∈ (h.flush who).taken) ∧ (h.flush who).committed = false then some (h.commit who)
      else none

/-- A write is a `set`, a `delete` or an `increment`, and no other shard holds its name. A flush
copies all dirty keys of a shard, and reads the clock for an entry with a time to live not after
`time`. The flush of `flushLoop` does not commit after the close a name that the close has
committed, unless the name was written again since. -/
def Orderly (time : Int64) (h : Closing V) : ClosingAction V → Prop
  | .op o => ∃ p, o.written = some p ∧ ∀ q, h.store.Holds q → q.2 = p.2 → q = p
  | .close => True
  | .snapshot _ i order now => (∀ k, k ∈ order ↔ h.store.marked (i, k) = true) ∧
      ∀ k ∈ order, ∀ x, (h.store.shards i).cache k = some x → x.expiresAt > 0 →
        0 ≤ now k ∧ now k ≤ time
  | .commit .flushLoop => h.last.committed = true →
      ∀ w ∈ h.loop.batch, ∀ w' ∈ h.last.batch, w.1 = w'.1 → w.1 ∈ h.since
  | .commit .close => True

/-- The database as it will be after both commits, that of the close last. -/
def view (h : Closing V) : Database :=
  WriteBatch.commit (WriteBatch.commit h.db h.loop.pending) h.last.batch

end Closing

namespace StoreShard

/-- Two shards agree on all that a flush reads of a name. -/
structure SameAt (k : GoString) (old new : StoreShard V) : Prop where
  cache : new.cache k = old.cache k
  counts : new.counts k = old.counts k
  windows : new.windows k = old.windows k
  peerSeqs : new.peerSeqs k = old.peerSeqs k

theorem SameAt.refl (k : GoString) (shard : StoreShard V) : SameAt k shard shard :=
  ⟨rfl, rfl, rfl, rfl⟩

theorem SameAt.snapshotItem_eq {k : GoString} {old new : StoreShard V} (h : SameAt k old new) :
    new.snapshotItem k = old.snapshotItem k := by
  unfold snapshotItem
  rw [h.cache, h.counts, h.windows, h.peerSeqs]

theorem SameAt.holds_iff {k : GoString} {old new : StoreShard V} (h : SameAt k old new) :
    new.Holds k ↔ old.Holds k := by
  unfold Holds
  rw [h.cache, h.counts]

theorem SameAt.recorded {c : DiskCodec V} {time : Int64} {k : GoString} {old new : StoreShard V}
    (h : SameAt k old new) {o : Option Record} (ho : Recorded c time old k o) :
    Recorded c time new k o :=
  ho.congr h.cache h.counts

theorem exists_writes_of_holds {c : DiskCodec V} {shard : StoreShard V} {k : GoString}
    (h : shard.Holds k) (now : Int64) : ∃ o, (shard.snapshotItem k).writes c now = [(k, o)] := by
  unfold snapshotItem SnapshotItem.writes
  cases hcache : shard.cache k with
  | some v =>
      by_cases hmark : (bytes "meta:seq:").isPrefixOf k = true
      · exact ⟨_, by simp [hmark]; rfl⟩
      · exact ⟨_, by simp [hmark]; rfl⟩
  | none =>
      cases hcounts : shard.counts k with
      | some n =>
          by_cases hmark : (bytes "meta:seq:").isPrefixOf k = true
          · exact ⟨_, by simp [hmark]; rfl⟩
          · exact ⟨_, by simp [hmark]; rfl⟩
      | none => exact (h.elim (absurd hcache) (absurd hcounts))

theorem writes_of_holds (c : DiskCodec V) {shard : StoreShard V} {k : GoString}
    (h : shard.Holds k) (hmark : (bytes "meta:seq:").isPrefixOf k = false) (now : Int64) :
    (shard.snapshotItem k).writes c now = [(k, shard.record c k now)] := by
  unfold snapshotItem StoreShard.record
  cases hcache : shard.cache k with
  | some v => simp [SnapshotItem.writes, hmark]
  | none =>
      cases hcounts : shard.counts k with
      | some n => simp [SnapshotItem.writes, hmark]
      | none => exact (h.elim (absurd hcache) (absurd hcounts))

section Flush

variable {c : DiskCodec V} {shard : StoreShard V} {order : List GoString}
  {now : GoString → Int64} (hheld : ∀ k ∈ order, shard.Holds k)

include hheld

theorem mem_order_of_writes {w : WriteBatch.Write GoString Record}
    (hw : w ∈ order.flatMap (fun k => (shard.snapshotItem k).writes c (now k))) : w.1 ∈ order := by
  obtain ⟨k, hk, hw⟩ := List.mem_flatMap.1 hw
  obtain ⟨o, ho⟩ := exists_writes_of_holds (c := c) (hheld k hk) (now k)
  rw [ho, List.mem_singleton] at hw
  rw [hw]
  exact hk

theorem recorded_flush (m : Database) {time : Int64} {k : GoString} (hk : k ∈ order)
    (hmark : (bytes "meta:seq:").isPrefixOf k = false)
    (hreads : ∀ x, shard.cache k = some x → x.expiresAt > 0 → 0 ≤ now k ∧ now k ≤ time) :
    Recorded c time shard k (WriteBatch.commit m
      (order.flatMap (fun j => (shard.snapshotItem j).writes c (now j))))[k]? := by
  have ho := writes_of_holds c (hheld k hk) hmark (now k)
  have hcommit : (WriteBatch.commit m
      (order.flatMap (fun j => (shard.snapshotItem j).writes c (now j))))[k]? =
        shard.record c k (now k) := by
    apply WriteBatch.getElem?_commit_of_mem
    · intro w hw hwk
      obtain ⟨j, hj, hw⟩ := List.mem_flatMap.1 hw
      obtain ⟨o', ho'⟩ := exists_writes_of_holds (c := c) (hheld j hj) (now j)
      rw [ho', List.mem_singleton] at hw
      rw [hw] at hwk ⊢
      change j = k at hwk
      subst hwk
      rw [ho] at ho'
      exact (congrArg Prod.snd (List.cons.inj ho').1).symm
    · exact ⟨(k, shard.record c k (now k)),
        List.mem_flatMap.2 ⟨k, hk, by rw [ho]; exact List.mem_singleton_self _⟩, rfl⟩
  rw [hcommit]
  exact recorded_record shard k hreads

end Flush

theorem sameAt_put (shard : StoreShard V) {key k : GoString} (hk : k ≠ key) (e : ValWithTS V) :
    SameAt k shard (shard.put key e) ∧ (shard.put key e).dirty k = shard.dirty k := by
  unfold put
  split_ifs
  · exact ⟨SameAt.refl k shard, rfl⟩
  · exact ⟨⟨Function.update_of_ne hk _ _, rfl, rfl, rfl⟩, Function.update_of_ne hk _ _⟩

theorem put_eq_or (shard : StoreShard V) (key : GoString) (e : ValWithTS V) :
    shard.put key e = shard ∨
      (shard.put key e).dirty key = true ∧ (shard.put key e).Holds key := by
  unfold put
  split_ifs
  · exact Or.inl rfl
  · refine Or.inr ⟨Function.update_self _ _ _, Or.inl ?_⟩
    simp

end StoreShard

namespace StoreOp

theorem written_spec_of_onShard [Rounding] (s : Store V) (o : StoreOp V) {k : GoString}
    (hother : ∀ j ≠ k, StoreShard.SameAt j (s.shards o.target) (o.onShard (s.shards o.target)) ∧
      (o.onShard (s.shards o.target)).dirty j = (s.shards o.target).dirty j)
    (hown : o.onShard (s.shards o.target) = s.shards o.target ∨
      (o.onShard (s.shards o.target)).dirty k = true ∧
        (o.onShard (s.shards o.target)).Holds k) :
    (∀ q, q ≠ (o.target, k) →
        StoreShard.SameAt q.2 (s.shards q.1) ((o.apply s).shards q.1) ∧
          (o.apply s).marked q = s.marked q) ∧
      (o.apply s = s ∨ (o.apply s).marked (o.target, k) = true ∧
        ((o.apply s).shards o.target).Holds k) := by
  constructor
  · rintro ⟨i, j⟩ hq
    unfold marked
    rw [o.shards_apply]
    dsimp only
    split_ifs with hi
    · subst hi
      exact hother j (fun hj => hq (by rw [hj]))
    · exact ⟨StoreShard.SameAt.refl _ _, rfl⟩
  · rcases hown with hsame | hmarked
    · left
      rw [o.apply_eq, hsame, Function.update_eq_self]
    · right
      unfold marked
      rw [o.shards_apply, if_pos rfl]
      exact hmarked

/-- A write changes what is held under one name, and marks it unless it is dropped. -/
theorem written_spec [Rounding] (s : Store V) {o : StoreOp V} {p : Fin numShards × GoString}
    (hp : o.written = some p) :
    (∀ q, q ≠ p → StoreShard.SameAt q.2 (s.shards q.1) ((o.apply s).shards q.1) ∧
        (o.apply s).marked q = s.marked q) ∧
      (o.apply s = s ∨ (o.apply s).marked p = true ∧ ((o.apply s).shards p.1).Holds p.2) := by
  cases o with
  | set key value ts ttl =>
      obtain rfl := Option.some.inj hp
      exact written_spec_of_onShard s (.set key value ts ttl)
        (fun j hj => StoreShard.sameAt_put _ hj _) (StoreShard.put_eq_or _ _ _)
  | delete key ts =>
      obtain rfl := Option.some.inj hp
      exact written_spec_of_onShard s (.delete key ts)
        (fun j hj => StoreShard.sameAt_put _ hj _) (StoreShard.put_eq_or _ _ _)
  | increment key nodeID delta =>
      obtain rfl := Option.some.inj hp
      refine written_spec_of_onShard s (.increment key nodeID delta) (fun j hj => ?_)
        (Or.inr ⟨Function.update_self _ _ _, Or.inr ?_⟩)
      · exact ⟨⟨rfl, Function.update_of_ne hj _ _, rfl, rfl⟩, Function.update_of_ne hj _ _⟩
      · simp [onShard, StoreShard.addCount, addTo]
  | _ => cases hp

end StoreOp

/-- A shard marks only what it holds, and no two shards hold the same name. -/
structure Store.Sound (s : Store V) : Prop where
  marked : ∀ p, s.marked p = true → s.Holds p
  home : ∀ p, s.Holds p → ∀ q, s.Holds q → p.2 = q.2 → p = q

/-- All that the store holds is in the database. -/
structure Store.Saved (c : DiskCodec V) (time : Int64) (s : Store V) (db : Database) : Prop where
  clean : ∀ p, s.marked p = false
  home : ∀ p, s.Holds p → ∀ q, s.Holds q → p.2 = q.2 → p = q
  recorded : ∀ p, s.Holds p → (bytes "meta:seq:").isPrefixOf p.2 = false →
    Recorded c time (s.shards p.1) p.2 db[p.2]?

theorem Store.Sound.write [Rounding] {s : Store V} (hs : s.Sound) {o : StoreOp V}
    {p : Fin numShards × GoString} (hp : o.written = some p)
    (hhome : ∀ q, s.Holds q → q.2 = p.2 → q = p) : (o.apply s).Sound := by
  obtain ⟨hother, hown⟩ := o.written_spec s hp
  have hheld (q) (hq : q ≠ p) : (o.apply s).Holds q ↔ s.Holds q := (hother q hq).1.holds_iff
  constructor
  · intro q hq
    by_cases hqp : q = p
    · subst hqp
      rcases hown with hsame | hmarked
      · rw [hsame] at hq ⊢
        exact hs.marked q hq
      · exact hmarked.2
    · rw [(hother q hqp).2] at hq
      exact (hheld q hqp).2 (hs.marked q hq)
  · intro q hq r hr hname
    by_cases hqp : q = p
    · by_cases hrp : r = p
      · rw [hqp, hrp]
      · rw [hqp] at hname ⊢
        exact (hhome r ((hheld r hrp).1 hr) hname.symm).symm
    · by_cases hrp : r = p
      · rw [hrp] at hname ⊢
        exact hhome q ((hheld q hqp).1 hq) hname
      · exact hs.home q ((hheld q hqp).1 hq) r ((hheld r hrp).1 hr) hname

theorem Store.shards_unmark (s : Store V) (i j : Fin numShards) (k : GoString) :
    StoreShard.SameAt k (s.shards j) ((s.unmark i).shards j) ∧
      (s.unmark i).marked (j, k) = if j = i then false else s.marked (j, k) := by
  unfold Store.marked Store.unmark
  dsimp only
  rw [Function.update_apply]
  split_ifs with hj
  · subst hj
    exact ⟨⟨rfl, rfl, rfl, rfl⟩, rfl⟩
  · exact ⟨StoreShard.SameAt.refl _ _, rfl⟩

theorem Store.copies_unmark (c : DiskCodec V) (s : Store V) (i j : Fin numShards)
    (order : List GoString) (now : GoString → Int64) :
    (s.unmark i).copies c j order now = s.copies c j order now := by
  unfold copies
  refine List.flatMap_congr (fun k _ => ?_)
  rw [(s.shards_unmark i j k).1.snapshotItem_eq]

theorem Store.holds_unmark (s : Store V) (i : Fin numShards) (p : Fin numShards × GoString) :
    (s.unmark i).Holds p ↔ s.Holds p := (s.shards_unmark i p.1 p.2).1.holds_iff

theorem Store.marked_of_unmark {s : Store V} {i : Fin numShards} {p : Fin numShards × GoString}
    (hp : (s.unmark i).marked p = true) : p.1 ≠ i ∧ s.marked p = true := by
  rw [(s.shards_unmark i p.1 p.2).2] at hp
  split_ifs at hp with hi
  exact ⟨hi, hp⟩

theorem Store.marked_foldl_unmark (s : Store V) (is : List (Fin numShards))
    (p : Fin numShards × GoString) :
    (is.foldl Store.unmark s).marked p = if p.1 ∈ is then false else s.marked p := by
  induction is generalizing s with
  | nil => rfl
  | cons i is ih =>
      rw [List.foldl_cons, ih, (s.shards_unmark i p.1 p.2).2]
      by_cases hi : p.1 = i <;> simp [hi]

theorem Store.holds_foldl_unmark (s : Store V) (is : List (Fin numShards))
    (p : Fin numShards × GoString) : (is.foldl Store.unmark s).Holds p ↔ s.Holds p := by
  induction is generalizing s with
  | nil => rfl
  | cons i is ih => rw [List.foldl_cons, ih, s.holds_unmark]

theorem Store.Sound.unmark {s : Store V} (hs : s.Sound) (i : Fin numShards) :
    (s.unmark i).Sound where
  marked p hp := (s.holds_unmark i p).2 (hs.marked p (marked_of_unmark hp).2)
  home p hp q hq := hs.home p ((s.holds_unmark i p).1 hp) q ((s.holds_unmark i q).1 hq)

namespace Closing

variable {c : DiskCodec V} {time : Int64}

/-- What the order of the steps guarantees. What the close has copied is marked again only by a
write that came after it. A name that is not marked is recorded by the database as both commits will
leave it, and what the close has committed stays. -/
structure Ordered (c : DiskCodec V) (time : Int64) (h : Closing V) : Prop where
  sound : h.store.Sound
  copied : ∀ w ∈ h.last.batch, ∃ i ∈ h.last.taken, h.store.Holds (i, w.1)
  settled : ∀ i ∈ h.last.taken, ∀ k, h.store.marked (i, k) = true → k ∈ h.since
  complete : h.last.committed = true → ∀ i, i ∈ h.last.taken
  fresh : ∀ p, h.store.Holds p → (bytes "meta:seq:").isPrefixOf p.2 = false → p.2 ∉ h.since →
    h.store.marked p = false → Recorded c time (h.store.shards p.1) p.2 h.view[p.2]?
  sealed : h.last.committed = true → ∀ w ∈ h.last.batch, w.1 ∉ h.since →
    h.db[w.1]? = h.view[w.1]?

namespace Ordered

theorem start {s : Store V} {db : Database} (hs : s.Saved c time db) :
    Ordered c time (Closing.start s db) where
  sound := ⟨fun p hp => absurd ((hs.clean p).symm.trans hp) Bool.false_ne_true, hs.home⟩
  copied w hw := by cases hw
  settled i hi := by cases hi
  complete hcommitted := by cases hcommitted
  fresh p hp hmark _ _ := hs.recorded p hp hmark
  sealed hcommitted := by cases hcommitted

variable {h : Closing V}

theorem write [Rounding] (ho : Ordered c time h) {o : StoreOp V} {p : Fin numShards × GoString}
    (hp : o.written = some p) (hhome : ∀ q, h.store.Holds q → q.2 = p.2 → q = p)
    {since : List GoString} (hold : h.since ⊆ since)
    (hlate : p.1 ∈ h.last.taken → (o.apply h.store).marked p = true → p.2 ∈ since) :
    Ordered c time { h with store := o.apply h.store, since := since } := by
  obtain ⟨hother, hown⟩ := o.written_spec h.store hp
  refine ⟨ho.sound.write hp hhome, ?_, ?_, ho.complete, ?_, ?_⟩
  · intro w hw
    obtain ⟨i, hi, hheld⟩ := ho.copied w hw
    refine ⟨i, hi, ?_⟩
    by_cases hq : (i, w.1) = p
    · rw [hq] at hheld ⊢
      rcases hown with hsame | hmarked
      · rw [hsame]
        exact hheld
      · exact hmarked.2
    · exact (hother _ hq).1.holds_iff.2 hheld
  · intro i hi k hk
    by_cases hq : (i, k) = p
    · subst hq
      exact hlate hi hk
    · rw [(hother _ hq).2] at hk
      exact hold (ho.settled i hi k hk)
  · intro q hq hmark hnot hclean
    have hnoth : q.2 ∉ h.since := fun hmem => hnot (hold hmem)
    by_cases hqp : q = p
    · subst hqp
      rcases hown with hsame | hmarked
      · dsimp only at hq hclean ⊢
        rw [hsame] at hq hclean ⊢
        exact ho.fresh q hq hmark hnoth hclean
      · rw [hclean] at hmarked
        cases hmarked.1
    · rw [(hother q hqp).2] at hclean
      exact (hother q hqp).1.recorded
        (ho.fresh q ((hother q hqp).1.holds_iff.1 hq) hmark hnoth hclean)
  · intro hdone w hw hnot
    exact ho.sealed hdone w hw (fun hmem => hnot (hold hmem))

section Snapshot

variable {i : Fin numShards} {order : List GoString} {now : GoString → Int64}
  (hranges : ∀ k, k ∈ order ↔ h.store.marked (i, k) = true)

include hranges

theorem holds_of_mem_order (ho : Ordered c time h) {k : GoString} (hk : k ∈ order) :
    (h.store.shards i).Holds k :=
  ho.sound.marked (i, k) ((hranges k).1 hk)

theorem marked_of_mem_copies (ho : Ordered c time h) {w : WriteBatch.Write GoString Record}
    (hw : w ∈ h.store.copies c i order now) : h.store.marked (i, w.1) = true :=
  (hranges _).1 (StoreShard.mem_order_of_writes (fun _ hk => holds_of_mem_order hranges ho hk) hw)

theorem exists_mem_copies (ho : Ordered c time h) {k : GoString} (hk : k ∈ order) :
    ∃ w ∈ h.store.copies c i order now, w.1 = k := by
  obtain ⟨o, hwrites⟩ := StoreShard.exists_writes_of_holds (c := c)
    (holds_of_mem_order hranges ho hk) (now k)
  refine ⟨(k, o), List.mem_flatMap.2 ⟨k, hk, ?_⟩, rfl⟩
  rw [hwrites]
  exact List.mem_singleton_self _

variable (now) in
theorem copied_or_clean (ho : Ordered c time h) {p : Fin numShards × GoString}
    (hp : h.store.Holds p) (hclean : (h.store.unmark i).marked p = false) :
    (p.1 = i ∧ p.2 ∈ order) ∨
      (h.store.marked p = false ∧ ∀ w ∈ h.store.copies c i order now, w.1 ≠ p.2) := by
  rw [(h.store.shards_unmark i p.1 p.2).2] at hclean
  cases hmarked : h.store.marked p with
  | true =>
      rw [hmarked] at hclean
      split_ifs at hclean with hi
      refine Or.inl ⟨hi, (hranges p.2).2 ?_⟩
      rw [← hi]
      exact hmarked
  | false =>
      refine Or.inr ⟨rfl, fun w hw hname => ?_⟩
      have hcopied := marked_of_mem_copies hranges ho hw
      have heq := ho.sound.home (i, w.1) (ho.sound.marked _ hcopied) p hp hname
      rw [heq, hmarked] at hcopied
      cases hcopied

/-- Whatever is not marked after a snapshot is recorded, once what was copied has a place in the
database that the commits will leave. -/
theorem fresh_snapshot (ho : Ordered c time h) {view : Database}
    (hreads : ∀ k ∈ order, ∀ x, (h.store.shards i).cache k = some x → x.expiresAt > 0 →
      0 ≤ now k ∧ now k ≤ time)
    (hcopied : ∀ k ∈ order, k ∉ h.since →
      view[k]? = (WriteBatch.commit h.view (h.store.copies c i order now))[k]?)
    (hrest : ∀ k, (∀ w ∈ h.store.copies c i order now, w.1 ≠ k) → view[k]? = h.view[k]?)
    (p : Fin numShards × GoString) (hp : (h.store.unmark i).Holds p)
    (hmark : (bytes "meta:seq:").isPrefixOf p.2 = false) (hnot : p.2 ∉ h.since)
    (hclean : (h.store.unmark i).marked p = false) :
    Recorded c time ((h.store.unmark i).shards p.1) p.2 view[p.2]? := by
  rw [h.store.holds_unmark] at hp
  refine (h.store.shards_unmark i p.1 p.2).1.recorded ?_
  rcases copied_or_clean now hranges ho hp hclean with ⟨hi, hmem⟩ | ⟨hold, hfree⟩
  · subst hi
    rw [hcopied p.2 hmem hnot]
    exact StoreShard.recorded_flush (fun _ hk => holds_of_mem_order hranges ho hk) _ hmem hmark
      (hreads p.2 hmem)
  · rw [hrest p.2 hfree]
    exact ho.fresh p hp hmark hnot hold

theorem not_mem_last_batch (ho : Ordered c time h) {k : GoString} (hk : k ∈ order)
    (hnot : k ∉ h.since) : ∀ w ∈ h.last.batch, w.1 ≠ k := by
  rintro w hw rfl
  have hmarked : h.store.marked (i, w.1) = true := (hranges _).1 hk
  obtain ⟨j, hj, hheld⟩ := ho.copied w hw
  have heq := ho.sound.home (j, w.1) hheld (i, w.1) (ho.sound.marked _ hmarked) rfl
  obtain rfl : j = i := congrArg Prod.fst heq
  exact hnot (ho.settled j hj w.1 hmarked)

theorem snapshot_flushLoop (ho : Ordered c time h)
    (hreads : ∀ k ∈ order, ∀ x, (h.store.shards i).cache k = some x → x.expiresAt > 0 →
      0 ≤ now k ∧ now k ≤ time) (hopen : h.loop.committed = false) :
    Ordered c time { h with
      store := h.store.unmark i
      loop := ⟨i :: h.loop.taken, h.loop.batch ++ h.store.copies c i order now, false⟩ } := by
  have hview : ({ h with
      store := h.store.unmark i
      loop := ⟨i :: h.loop.taken, h.loop.batch ++ h.store.copies c i order now, false⟩ } :
        Closing V).view = WriteBatch.commit (WriteBatch.commit (WriteBatch.commit h.db
          h.loop.pending) (h.store.copies c i order now)) h.last.batch := by
    simp [view, Flush.pending, hopen, WriteBatch.commit_append]
  refine ⟨ho.sound.unmark i, ?_, ?_, ho.complete, ?_, ?_⟩
  · intro w hw
    obtain ⟨j, hj, hheld⟩ := ho.copied w hw
    exact ⟨j, hj, (h.store.holds_unmark i _).2 hheld⟩
  · intro j hj k hk
    exact ho.settled j hj k (marked_of_unmark hk).2
  · refine fresh_snapshot hranges ho hreads ?_ ?_
    · intro k hk hnot
      rw [hview, WriteBatch.getElem?_commit_of_not_mem _ (not_mem_last_batch hranges ho hk hnot)]
      exact WriteBatch.getElem?_commit_eq_of_mem _ _ (exists_mem_copies hranges ho hk)
    · intro k hfree
      rw [hview]
      exact WriteBatch.getElem?_commit_congr (WriteBatch.getElem?_commit_of_not_mem _ hfree) _
  · intro hdone w hw hnot
    refine (ho.sealed hdone w hw hnot).trans ?_
    rw [hview]
    exact WriteBatch.getElem?_commit_eq_of_mem _ _ ⟨w, hw, rfl⟩

theorem snapshot_close (ho : Ordered c time h)
    (hreads : ∀ k ∈ order, ∀ x, (h.store.shards i).cache k = some x → x.expiresAt > 0 →
      0 ≤ now k ∧ now k ≤ time) :
    Ordered c time { h with
      store := h.store.unmark i
      last := ⟨i :: h.last.taken, h.last.batch ++ h.store.copies c i order now, false⟩ } := by
  have hview : ({ h with
      store := h.store.unmark i
      last := ⟨i :: h.last.taken, h.last.batch ++ h.store.copies c i order now, false⟩ } :
        Closing V).view = WriteBatch.commit h.view (h.store.copies c i order now) :=
    WriteBatch.commit_append _ _ _
  refine ⟨ho.sound.unmark i, ?_, ?_, (fun hdone => by cases hdone), ?_,
    (fun hdone => by cases hdone)⟩
  · intro w hw
    rcases List.mem_append.1 hw with hw | hw
    · obtain ⟨j, hj, hheld⟩ := ho.copied w hw
      exact ⟨j, List.mem_cons_of_mem _ hj, (h.store.holds_unmark i _).2 hheld⟩
    · have hheld := ho.sound.marked _ (marked_of_mem_copies hranges ho hw)
      exact ⟨i, List.mem_cons_self, (h.store.holds_unmark i _).2 hheld⟩
  · intro j hj k hk
    obtain ⟨hne, hold⟩ := marked_of_unmark hk
    exact ho.settled j ((List.mem_cons.1 hj).resolve_left hne) k hold
  · refine fresh_snapshot hranges ho hreads ?_ ?_
    · intro k _ _
      rw [hview]
    · intro k hfree
      rw [hview]
      exact WriteBatch.getElem?_commit_of_not_mem _ hfree

end Snapshot

theorem commit_flushLoop (ho : Ordered c time h) (hopen : h.loop.committed = false)
    (hfree : h.last.committed = true →
      ∀ w ∈ h.loop.batch, ∀ w' ∈ h.last.batch, w.1 = w'.1 → w.1 ∈ h.since) :
    Ordered c time { h with
      db := WriteBatch.commit h.db h.loop.batch
      loop := { h.loop with committed := true } } := by
  have hview : ({ h with
      db := WriteBatch.commit h.db h.loop.batch
      loop := { h.loop with committed := true } } : Closing V).view = h.view := by
    simp [view, Flush.pending, hopen, WriteBatch.commit]
  refine ⟨ho.sound, ho.copied, ho.settled, ho.complete, ?_, ?_⟩
  · rw [hview]
    exact ho.fresh
  · intro hdone w hw hnot
    rw [hview, ← ho.sealed hdone w hw hnot]
    refine WriteBatch.getElem?_commit_of_not_mem _ (fun w' hw' hname => ?_)
    exact hnot (hname ▸ hfree hdone w' hw' w hw hname)

theorem commit_close (ho : Ordered c time h) (htaken : ∀ i, i ∈ h.last.taken) :
    Ordered c time { h with
      db := WriteBatch.commit h.db h.last.batch
      last := { h.last with committed := true } } := by
  have hview (k : GoString) : ({ h with
      db := WriteBatch.commit h.db h.last.batch
      last := { h.last with committed := true } } : Closing V).view[k]? = h.view[k]? := by
    change (WriteBatch.commit (WriteBatch.commit (WriteBatch.commit h.db h.last.batch)
      h.loop.pending) h.last.batch)[k]? = (WriteBatch.commit (WriteBatch.commit h.db
        h.loop.pending) h.last.batch)[k]?
    by_cases hk : ∃ w ∈ h.last.batch, w.1 = k
    · exact WriteBatch.getElem?_commit_eq_of_mem _ _ hk
    · push Not at hk
      apply WriteBatch.getElem?_commit_congr
      apply WriteBatch.getElem?_commit_congr
      exact WriteBatch.getElem?_commit_of_not_mem _ hk
  refine ⟨ho.sound, ho.copied, ho.settled, fun _ => htaken, ?_, ?_⟩
  · intro p hp hmark hnot hclean
    rw [hview]
    exact ho.fresh p hp hmark hnot hclean
  · intro _ w hw _
    rw [hview]
    exact WriteBatch.getElem?_commit_eq_of_mem _ _ ⟨w, hw, rfl⟩

theorem step [Rounding] {t : Closing V} {a : ClosingAction V} (ho : Ordered c time h)
    (ha : h.Orderly time a) (hstep : h.step c a = some t) : Ordered c time t := by
  cases a with
  | op o =>
      obtain ⟨p, hp, hhome⟩ := ha
      obtain rfl := Option.some.inj hstep
      refine ho.write hp hhome (List.subset_append_right _ _) (fun htaken hmarked => ?_)
      apply List.mem_append_left
      rw [hp]
      simp [htaken, hmarked]
  | close =>
      obtain rfl := Option.some.inj hstep
      exact ⟨ho.sound, ho.copied, ho.settled, ho.complete, ho.fresh, ho.sealed⟩
  | snapshot who i order now =>
      simp only [Closing.step] at hstep
      split_ifs at hstep with henabled
      obtain rfl := Option.some.inj hstep
      cases who with
      | flushLoop => exact ho.snapshot_flushLoop ha.1 ha.2 henabled.2.1
      | close => exact ho.snapshot_close ha.1 ha.2
  | commit who =>
      simp only [Closing.step] at hstep
      split_ifs at hstep with henabled
      obtain rfl := Option.some.inj hstep
      cases who with
      | flushLoop => exact ho.commit_flushLoop henabled.2 ha
      | close => exact ho.commit_close henabled.1

end Ordered

/-- When the flush of `flushLoop` commits no name after the close has committed it, the record left
by a close of every name that was not written after the close had copied it is that of its state:
the entry with its expiry, or no record if it has expired, and the count of a name without entry. -/
theorem close_keeps_latest [Rounding] {s : Store V} {db : Database} (hs : s.Saved c time db)
    {as : List (ClosingAction V)} {h : Closing V}
    (hrun : StepSystem.run (step c) (start s db) as = some h)
    (horderly : StepSystem.Along (step c) (Orderly time) (start s db) as)
    (hloop : h.loop.committed = true) (hlast : h.last.committed = true)
    {p : Fin numShards × GoString} (hp : h.store.Holds p)
    (hmark : (bytes "meta:seq:").isPrefixOf p.2 = false) (hsince : p.2 ∉ h.since) :
    Recorded c time (h.store.shards p.1) p.2 h.db[p.2]? := by
  have ho : Ordered c time h :=
    StepSystem.run_invariant_along (fun h a t ho ha hstep => ho.step ha hstep)
      (Ordered.start hs) horderly hrun
  have hclean : h.store.marked p = false := by
    by_contra hne
    exact hsince (ho.settled p.1 (ho.complete hlast p.1) p.2 (Bool.not_eq_false _ ▸ hne))
  have hview : h.view = WriteBatch.commit h.db h.last.batch := by
    simp [view, Flush.pending, hloop, WriteBatch.commit]
  have hfresh := ho.fresh p hp hmark hsince hclean
  by_cases hmem : ∃ w ∈ h.last.batch, w.1 = p.2
  · obtain ⟨w, hw, hname⟩ := hmem
    rw [← hname] at hsince
    rw [← hname, ← ho.sealed hlast w hw hsince, hname] at hfresh
    exact hfresh
  · push Not at hmem
    rw [hview, WriteBatch.getElem?_commit_of_not_mem _ hmem] at hfresh
    exact hfresh

def snapshots (who : Flusher) (orders : Fin numShards → List GoString) (now : GoString → Int64)
    (is : List (Fin numShards)) : List (ClosingAction V) :=
  is.map (fun i => .snapshot who i (orders i) now)

def afterSnapshots (c : DiskCodec V) (who : Flusher) (orders : Fin numShards → List GoString)
    (now : GoString → Int64) (is : List (Fin numShards)) (h : Closing V) : Closing V :=
  { h with store := is.foldl Store.unmark h.store }.setFlush
    ⟨is.reverse ++ (h.flush who).taken,
      (h.flush who).batch ++ is.flatMap (fun i => h.store.copies c i (orders i) now), false⟩ who

theorem store_afterSnapshots (who : Flusher) (orders : Fin numShards → List GoString)
    (now : GoString → Int64) (is : List (Fin numShards)) (h : Closing V) :
    (h.afterSnapshots c who orders now is).store = is.foldl Store.unmark h.store := by
  cases who <;> rfl

theorem run_snapshots (who : Flusher) (orders : Fin numShards → List GoString)
    (now : GoString → Int64) {is : List (Fin numShards)} {h : Closing V}
    (hnodup : is.Nodup) (hnew : ∀ i ∈ is, i ∉ (h.flush who).taken)
    (hopen : (h.flush who).committed = false) (hclosing : who = .close → h.closing = true) :
    StepSystem.run (step c) h (snapshots who orders now is) =
      some (h.afterSnapshots c who orders now is) := by
  induction is generalizing h with
  | nil =>
      cases who with
      | flushLoop =>
          obtain ⟨store, db, ⟨taken, batch, committed⟩, last, closing, since⟩ := h
          cases hopen
          simp [snapshots, afterSnapshots, setFlush, flush]
      | close =>
          obtain ⟨store, db, loop, ⟨taken, batch, committed⟩, closing, since⟩ := h
          cases hopen
          simp [snapshots, afterSnapshots, setFlush, flush]
  | cons i is ih =>
      obtain ⟨hi, hrest⟩ := List.nodup_cons.1 hnodup
      apply (StepSystem.run_cons_eq_some _ _ _ _ _).2
      refine ⟨_, if_pos ⟨hnew i List.mem_cons_self, hopen, hclosing⟩, ?_⟩
      have hnew' (j) (hj : j ∈ is) : j ∉ i :: (h.flush who).taken := by
        rw [List.mem_cons, not_or]
        exact ⟨fun heq => hi (heq ▸ hj), hnew j (List.mem_cons_of_mem _ hj)⟩
      cases who with
      | flushLoop =>
          refine (ih hrest (by exact hnew') rfl (by exact hclosing)).trans ?_
          simp [afterSnapshots, setFlush, flush, copies_unmark]
      | close =>
          refine (ih hrest (by exact hnew') rfl (by exact hclosing)).trans ?_
          simp [afterSnapshots, setFlush, flush, copies_unmark]

theorem along_snapshots (who : Flusher) {orders : Fin numShards → List GoString}
    {now : GoString → Int64} (hnow : ∀ k, 0 ≤ now k ∧ now k ≤ time)
    {is : List (Fin numShards)} {h : Closing V} (hnodup : is.Nodup)
    (hranges : ∀ i ∈ is, ∀ k, k ∈ orders i ↔ h.store.marked (i, k) = true) :
    StepSystem.Along (step c) (Orderly time) h (snapshots who orders now is) := by
  induction is generalizing h with
  | nil => trivial
  | cons i is ih =>
      obtain ⟨hi, hrest⟩ := List.nodup_cons.1 hnodup
      refine ⟨⟨hranges i List.mem_cons_self, fun k _ _ _ _ => hnow k⟩, ?_⟩
      cases hstep : h.step c (.snapshot who i (orders i) now) with
      | none => trivial
      | some t =>
          apply ih hrest
          intro j hj k
          have hne : j ≠ i := fun heq => hi (heq ▸ hj)
          have hstore : t.store = h.store.unmark i := by
            simp only [step] at hstep
            split_ifs at hstep
            obtain rfl := Option.some.inj hstep
            cases who <;> rfl
          rw [hranges j (List.mem_cons_of_mem _ hj) k, hstore,
            (h.store.shards_unmark i j k).2, if_neg hne]

def onlyK (i : Fin numShards) : List GoString :=
  if i = shardIndex (bytes "k") then [bytes "k"] else []

def pass (who : Flusher) : List (ClosingAction UInt8) :=
  snapshots who onlyK (fun _ => 250) (List.finRange numShards)

/-- A write to `k`, the snapshots of `flushLoop`, another write, and the snapshots of the close. -/
def twoWrites : List (ClosingAction UInt8) :=
  .op (.set (bytes "k") (some 1) ⟨100, 0⟩ 0) :: (pass .flushLoop ++
    .op (.set (bytes "k") (some 2) ⟨200, 0⟩ 0) :: .close :: pass .close)

def firstCopied : Closing UInt8 :=
  afterSnapshots byteCodec .flushLoop onlyK (fun _ => 250) (List.finRange numShards)
    (start (Store.newStore.set (bytes "k") (some 1) ⟨100, 0⟩ 0) ∅)

def lastCopied : Closing UInt8 :=
  afterSnapshots byteCodec .close onlyK (fun _ => 250) (List.finRange numShards)
    { firstCopied with
      store := firstCopied.store.set (bytes "k") (some 2) ⟨200, 0⟩ 0
      closing := true }

theorem store_firstCopied : firstCopied.store = (List.finRange numShards).foldl Store.unmark
    (Store.newStore.set (bytes "k") (some 1) ⟨100, 0⟩ 0) :=
  store_afterSnapshots .flushLoop _ _ _ _

theorem run_firstCopied : StepSystem.run (step byteCodec)
    (start (Store.newStore.set (bytes "k") (some 1) ⟨100, 0⟩ 0) ∅) (pass .flushLoop) =
      some firstCopied :=
  run_snapshots .flushLoop _ _ (List.nodup_finRange _) (fun _ _ => List.not_mem_nil) rfl
    (fun h => by cases h)

theorem run_twoWrites :
    StepSystem.run (step byteCodec) (start Store.newStore ∅) twoWrites = some lastCopied := by
  apply (StepSystem.run_cons_eq_some _ _ _ _ _).2
  refine ⟨_, rfl, (StepSystem.run_append_eq_some _ _ _ _ _).2 ⟨firstCopied, run_firstCopied, ?_⟩⟩
  apply (StepSystem.run_cons_eq_some _ _ _ _ _).2
  refine ⟨_, rfl, (StepSystem.run_cons_eq_some _ _ _ _ _).2 ⟨_, rfl, ?_⟩⟩
  exact run_snapshots .close _ _ (List.nodup_finRange _) (fun _ _ => List.not_mem_nil) rfl
    (fun _ => rfl)

theorem step_commit {h : Closing V} {who : Flusher} (htaken : ∀ i, i ∈ (h.flush who).taken)
    (hopen : (h.flush who).committed = false) : h.step c (.commit who) = some (h.commit who) := by
  simp only [step]
  rw [if_pos ⟨htaken, hopen⟩]

theorem run_commits (first second : Flusher) (hne : first ≠ second) :
    StepSystem.run (step byteCodec) (start Store.newStore ∅)
      (twoWrites ++ [.commit first, .commit second]) =
      some ((lastCopied.commit first).commit second) := by
  have hall (i : Fin numShards) : i ∈ (List.finRange numShards).reverse ++ [] := by simp
  refine (StepSystem.run_append_eq_some _ _ _ _ _).2 ⟨lastCopied, run_twoWrites, ?_⟩
  apply (StepSystem.run_cons_eq_some _ _ _ _ _).2
  refine ⟨lastCopied.commit first, ?_, (StepSystem.run_singleton _ _ _).trans ?_⟩
  · cases first with
    | flushLoop => exact step_commit hall rfl
    | close => exact step_commit hall rfl
  · cases first with
    | flushLoop =>
        cases second with
        | flushLoop => exact absurd rfl hne
        | close => exact step_commit hall rfl
    | close =>
        cases second with
        | flushLoop => exact step_commit hall rfl
        | close => exact absurd rfl hne

/-- The close commits first. The store holds the second value, and the database the record of the
first. -/
theorem close_rolls_back : ∃ h, StepSystem.run (step byteCodec) (start Store.newStore ∅)
      (twoWrites ++ [.commit .close, .commit .flushLoop]) = some h ∧
    h.loop.committed = true ∧ h.last.committed = true ∧ h.since = [] ∧
    h.store.get (bytes "k") 300 = some 2 ∧
    h.db[bytes "k"]? = some ⟨byteCodec.marshal (setEntry (some 1) ⟨100, 0⟩ 0), none⟩ := by
  refine ⟨_, run_commits .close .flushLoop (by decide), rfl, rfl, rfl, ?_, ?_⟩
  · decide +kernel
  · decide +kernel

theorem not_holds_newStore (p : Fin numShards × GoString) :
    ¬ (Store.newStore : Store V).Holds p := fun h => h.elim (fun h => h rfl) (fun h => h rfl)

theorem saved_newStore : Store.Saved c time (Store.newStore : Store V) ∅ where
  clean _ := rfl
  home p hp := absurd hp (not_holds_newStore p)
  recorded p hp := absurd hp (not_holds_newStore p)

theorem mem_onlyK (i : Fin numShards) (k : GoString) :
    k ∈ onlyK i ↔ (i, k) = slot (bytes "k") := by
  unfold onlyK slot
  split_ifs with hi <;> simp [hi]

theorem along_pass (who : Flusher) {h : Closing UInt8} {s : Store UInt8} {o : StoreOp UInt8}
    (hs : ∀ p, s.marked p = false) (ho : o.written = some (slot (bytes "k")))
    (hstore : h.store = o.apply s) (hmarked : h.store.marked (slot (bytes "k")) = true) :
    StepSystem.Along (step byteCodec) (Orderly 250) h (pass who) := by
  refine along_snapshots who (fun _ => by decide) (List.nodup_finRange _) (fun i _ k => ?_)
  rw [mem_onlyK]
  by_cases hk : (i, k) = slot (bytes "k")
  · simp only [hk, hmarked]
  · rw [hstore, ((o.written_spec s ho).1 _ hk).2, hs]
    simp [hk]

theorem along_twoWrites :
    StepSystem.Along (step byteCodec) (Orderly 250) (start Store.newStore ∅) twoWrites := by
  have hlone (p) (hp : firstCopied.store.Holds p) : p = slot (bytes "k") := by
    by_contra hne
    rw [store_firstCopied, Store.holds_foldl_unmark] at hp
    have hsame := ((StoreOp.written_spec Store.newStore
      (o := .set (bytes "k") (some (1 : UInt8)) ⟨100, 0⟩ 0) rfl).1 p hne).1
    exact not_holds_newStore p (hsame.holds_iff.1 hp)
  have hclean (p) : firstCopied.store.marked p = false := by
    rw [store_firstCopied, Store.marked_foldl_unmark, if_pos (List.mem_finRange _)]
  refine ⟨⟨slot (bytes "k"), rfl, fun q hq => absurd hq (not_holds_newStore q)⟩, ?_⟩
  refine StepSystem.along_append_iff.2 ⟨along_pass .flushLoop (fun _ => rfl)
    (o := .set (bytes "k") (some 1) ⟨100, 0⟩ 0) rfl rfl (by decide +kernel), fun t ht => ?_⟩
  obtain rfl : firstCopied = t := Option.some.inj (run_firstCopied.symm.trans ht)
  refine ⟨⟨slot (bytes "k"), rfl, fun q hq _ => hlone q hq⟩, trivial, ?_⟩
  exact along_pass .close hclean (o := .set (bytes "k") (some 2) ⟨200, 0⟩ 0) rfl rfl
    (by decide +kernel)

theorem along_commits : StepSystem.Along (step byteCodec) (Orderly 250) (start Store.newStore ∅)
    (twoWrites ++ [.commit .flushLoop, .commit .close]) := by
  refine StepSystem.along_append_iff.2 ⟨along_twoWrites, fun t ht => ?_⟩
  obtain rfl : lastCopied = t := Option.some.inj (run_twoWrites.symm.trans ht)
  refine ⟨(fun h => by cases h), ?_⟩
  generalize step byteCodec lastCopied (.commit .flushLoop) = committed
  cases committed with
  | none => trivial
  | some t =>
      refine ⟨trivial, ?_⟩
      cases step byteCodec t (.commit .close) <;> trivial

/-- The close commits last. -/
theorem close_keeps_latest_twoWrites : ∃ h, StepSystem.run (step byteCodec) (start Store.newStore ∅)
      (twoWrites ++ [.commit .flushLoop, .commit .close]) = some h ∧
    h.store.get (bytes "k") 300 = some 2 ∧
    Recorded byteCodec 250 (h.store.getShard (bytes "k")) (bytes "k") h.db[bytes "k"]? := by
  have hcommits := run_commits .flushLoop .close (by decide)
  have hloop : ((lastCopied.commit .flushLoop).commit .close).loop.committed = true := rfl
  have hlast : ((lastCopied.commit .flushLoop).commit .close).last.committed = true := rfl
  have hsince : ((lastCopied.commit .flushLoop).commit .close).since = [] := rfl
  have hget : ((lastCopied.commit .flushLoop).commit .close).store.get (bytes "k") 300 = some 2 :=
    by decide +kernel
  have hheld : ((lastCopied.commit .flushLoop).commit .close).store.Holds (slot (bytes "k")) :=
    Or.inl (Option.isSome_iff_ne_none.1 (by decide +kernel))
  obtain ⟨h, hfinal⟩ : ∃ h, (lastCopied.commit .flushLoop).commit .close = h := ⟨_, rfl⟩
  rw [hfinal] at hcommits hloop hlast hsince hget hheld
  refine ⟨h, hcommits, hget, close_keeps_latest saved_newStore hcommits along_commits hloop hlast
    hheld (by decide) ?_⟩
  rw [hsince]
  exact List.not_mem_nil

end Closing
end Capacitor
