import Capacitor.Entries
import Capacitor.Reload

/-!
# Flushes that fail

A flush forgets the marks of a shard before it has written anything, and discards every error. When
the commit of the batch fails, or the database refuses a key, the writes are gone: nothing is marked
any more, and the next flush does not try them again. After a later flush that succeeds the database
still agrees with the store exactly if no write that was lost would have changed anything.
-/

namespace Capacitor

open Store

variable {V : Type*}

def later (a b : Int64) : Int64 := if a ≤ b then b else a

theorem le_later_left (a b : Int64) : a ≤ later a b := by
  unfold later
  split_ifs with h
  · exact h
  · exact Int64.le_refl a

theorem le_later_right (a b : Int64) : b ≤ later a b := by
  unfold later
  split_ifs with h
  · exact Int64.le_refl b
  · exact (Int64.le_total a b).resolve_left h

theorem later_self (a : Int64) : later a a = a := ite_self a

theorem Kept.mono {c : DiskCodec V} {t t' : Int64} {v : ValWithTS V} {o : Option Record}
    (h : Kept c t v o) (ht : t ≤ t') : Kept c t' v o := by
  unfold Kept at h ⊢
  split_ifs at h ⊢
  · exact h.imp_right (fun hnone => ⟨hnone.1, Int64.le_trans hnone.2 ht⟩)
  · exact h

theorem Recorded.mono {c : DiskCodec V} {t t' : Int64} {shard : StoreShard V} {k : GoString}
    {o : Option Record} (h : Recorded c t shard k o) (ht : t ≤ t') : Recorded c t' shard k o := by
  unfold Recorded at h ⊢
  cases hcache : shard.cache k with
  | some v =>
      rw [hcache] at h
      exact Kept.mono h ht
  | none =>
      rw [hcache] at h
      exact h

namespace Disk

variable (c : DiskCodec V) (d : Disk V)

theorem snapshotItem_flushShard (i : Fin numShards) (order : List GoString)
    (now : GoString → Int64) (j : Fin numShards) (k : GoString) :
    ((d.flushShard c i order now).store.shards j).snapshotItem k =
      (d.store.shards j).snapshotItem k := by
  rw [shards_flushShard]
  split_ifs <;> rfl

theorem batch_flushShards (orders : Fin numShards → List GoString)
    (now : Fin numShards → GoString → Int64) (is : List (Fin numShards)) :
    (d.flushShards c orders now is).batch = d.batch ++ is.flatMap (fun i =>
      (orders i).flatMap (fun k => ((d.store.shards i).snapshotItem k).writes c (now i k))) := by
  induction is generalizing d with
  | nil => simp [flushShards]
  | cons i is ih =>
      change ((d.flushShard c i (orders i) (now i)).flushShards c orders now is).batch = _
      have hbatch : (d.flushShard c i (orders i) (now i)).batch = d.batch ++
          (orders i).flatMap (fun k => ((d.store.shards i).snapshotItem k).writes c (now i k)) :=
        rfl
      rw [ih, List.flatMap_cons, hbatch, List.append_assoc]
      simp only [snapshotItem_flushShard]

end Disk

/-- A store and its database between two flushes, and the latest reading of the clock. -/
structure Saving (V : Type*) where
  store : Store V
  db : Database
  time : Int64

inductive SavingAction (V : Type*) where
  | op (o : StoreOp V)
  | flush (orders : Fin numShards → List GoString) (now : Fin numShards → GoString → Int64)
      (ends : Int64) (ok : Bool)

namespace Saving

variable (c : DiskCodec V) (accepts : GoString → Bool)

def start (time : Int64) : Saving V := ⟨newStore, ∅, time⟩

def disk (s : Saving V) : Disk V := ⟨s.store, s.db, []⟩

/-- A flush whose commit succeeds writes what it has collected, up to the keys that the database
refuses; one whose commit fails writes nothing. The marks are gone in both cases. -/
def step (s : Saving V) : SavingAction V → Option (Saving V)
  | .op o => some { s with store := o.apply s.store }
  | .flush orders now ends ok =>
      let d := s.disk.flushShards c orders now (List.finRange numShards)
      some {
        store := d.store
        db := if ok then WriteBatch.commit s.db (d.batch.filter (fun w => accepts w.1)) else s.db
        time := later s.time ends }

/-- The operations have keys without a colon. A flush ranges over the marks of each shard, and its
readings of the clock are not after its end. -/
def Legal (s : Saving V) : SavingAction V → Prop
  | .op o => o.ColonFree
  | .flush orders now ends _ =>
      (∀ i, s.disk.Ranges i (orders i)) ∧ ∀ i, s.disk.Reads ends i (orders i) (now i)

/-- The record that a lost write would have replaced is already the right one. -/
def Harmless (s : Saving V) : SavingAction V → Prop
  | .op _ => True
  | .flush orders _ ends ok =>
      ∀ i, ∀ k ∈ orders i, (ok = true → accepts k = false) →
        Recorded c (later s.time ends) (s.store.shards i) k s.db[k]?

/-- After a flush that succeeds every record agrees with the store. -/
def Intact (s : Saving V) : SavingAction V → Prop
  | .flush orders now ends true => ∀ t, s.step c accepts (.flush orders now ends true) = some t →
      ∀ k, Recorded c t.time (t.store.getShard k) k t.db[k]?
  | _ => True

/-- Every record agrees with the store, unless its key is marked. -/
structure Saved (s : Saving V) : Prop where
  placed : ∀ i, Placed i (s.store.shards i)
  clean : ∀ k, (s.store.getShard k).dirty k = false →
    Recorded c s.time (s.store.getShard k) k s.db[k]?

variable {c accepts} {s t : Saving V} {orders : Fin numShards → List GoString}
  {now : Fin numShards → GoString → Int64} {ends : Int64} {ok : Bool}

theorem saved_start (time : Int64) : (start time : Saving V).Saved c where
  placed i :=
    ⟨fun k hk => absurd rfl hk, fun k hk => absurd rfl hk, fun _ => rfl, fun _ => rfl,
      fun k hk => by cases hk⟩
  clean k _ := Std.TreeMap.getElem?_emptyc

theorem Saved.op (h : s.Saved c) {o : StoreOp V} (ho : o.ColonFree) :
    ({ s with store := o.apply s.store } : Saving V).Saved c where
  placed i := (o.tracks s.store ho i).placed (h.placed i)
  clean := StoreOp.recorded ho h.clean

theorem shards_flush (hstep : s.step c accepts (.flush orders now ends ok) = some t)
    (i : Fin numShards) : t.store.shards i = { s.store.shards i with dirty := fun _ => false } := by
  obtain rfl := Option.some.inj hstep
  change (s.disk.flushShards c orders now (List.finRange numShards)).store.shards i = _
  rw [Disk.shards_flushShards, if_pos (List.mem_finRange i)]
  rfl

theorem db_flush (hstep : s.step c accepts (.flush orders now ends ok) = some t) :
    t.db = if ok then WriteBatch.commit s.db
      ((s.disk.flushShards c orders now (List.finRange numShards)).batch.filter
        (fun w => accepts w.1)) else s.db := by
  obtain rfl := Option.some.inj hstep
  rfl

theorem time_flush (hstep : s.step c accepts (.flush orders now ends ok) = some t) :
    t.time = later s.time ends := by
  obtain rfl := Option.some.inj hstep
  rfl

theorem mem_batch (hplaced : ∀ i, Placed i (s.store.shards i))
    (w : WriteBatch.Write GoString Record) :
    w ∈ (s.disk.flushShards c orders now (List.finRange numShards)).batch ↔
      ∃ i, ∃ k ∈ orders i, w = (k, (s.store.shards i).record c k (now i k)) := by
  rw [Disk.batch_flushShards]
  change w ∈ [] ++ (List.finRange numShards).flatMap (fun i => (orders i).flatMap (fun k =>
    ((s.store.shards i).snapshotItem k).writes c (now i k))) ↔ _
  simp only [(hplaced _).writes_snapshotItem, List.nil_append, List.mem_flatMap, List.mem_finRange,
    true_and, List.mem_singleton]

/-- What a flush leaves under a key: the new record if the key was marked and its write was not
lost, and otherwise the old one. -/
theorem getElem?_flush (hplaced : ∀ i, Placed i (s.store.shards i))
    (hranges : ∀ i, s.disk.Ranges i (orders i))
    (hstep : s.step c accepts (.flush orders now ends ok) = some t) (k : GoString) :
    t.db[k]? = if k ∈ orders (shardIndex k) ∧ ok = true ∧ accepts k = true then
      (s.store.getShard k).record c k (now (shardIndex k) k) else s.db[k]? := by
  have hshard {i : Fin numShards} (hk : k ∈ orders i) : i = shardIndex k :=
    ((hplaced i).dirty k ((hranges i k).1 hk)).symm
  rw [db_flush hstep]
  cases ok with
  | false => simp
  | true =>
      rw [if_pos rfl]
      have hwrites (w : WriteBatch.Write GoString Record) :
          w ∈ (s.disk.flushShards c orders now (List.finRange numShards)).batch.filter
            (fun w => accepts w.1) ∧ w.1 = k ↔
          (k ∈ orders (shardIndex k) ∧ accepts k = true) ∧
            w = (k, (s.store.getShard k).record c k (now (shardIndex k) k)) := by
        rw [List.mem_filter, mem_batch hplaced]
        constructor
        · rintro ⟨⟨⟨i, j, hj, rfl⟩, haccepts⟩, hjk⟩
          have hjk' : j = k := hjk
          subst hjk'
          obtain rfl := hshard hj
          exact ⟨⟨hj, haccepts⟩, rfl⟩
        · rintro ⟨⟨hk, haccepts⟩, rfl⟩
          exact ⟨⟨⟨_, k, hk, rfl⟩, haccepts⟩, rfl⟩
      by_cases hmem : k ∈ orders (shardIndex k) ∧ accepts k = true
      · rw [if_pos ⟨hmem.1, rfl, hmem.2⟩]
        refine WriteBatch.getElem?_commit_of_mem _ (fun w hw hwk => ?_) ?_
        · rw [((hwrites w).1 ⟨hw, hwk⟩).2]
        · obtain ⟨hw, hwk⟩ := (hwrites _).2 ⟨hmem, rfl⟩
          exact ⟨_, hw, hwk⟩
      · rw [if_neg (fun hall => hmem ⟨hall.1, hall.2.2⟩)]
        exact WriteBatch.getElem?_commit_of_not_mem _
          (fun w hw hwk => hmem ((hwrites w).1 ⟨hw, hwk⟩).1)

theorem placed_flush (hplaced : ∀ i, Placed i (s.store.shards i))
    (hstep : s.step c accepts (.flush orders now ends ok) = some t) (i : Fin numShards) :
    Placed i (t.store.shards i) := by
  rw [shards_flush hstep]
  exact ⟨(hplaced i).cache, (hplaced i).counts, (hplaced i).windows, (hplaced i).peerSeqs,
    fun k hk => by cases hk⟩

theorem recorded_flush_iff (hstep : s.step c accepts (.flush orders now ends ok) = some t)
    {time : Int64} (k : GoString) {o : Option Record} :
    Recorded c time (t.store.getShard k) k o ↔ Recorded c time (s.store.getShard k) k o := by
  have hshard : t.store.getShard k = { s.store.getShard k with dirty := fun _ => false } :=
    shards_flush hstep (shardIndex k)
  exact ⟨fun h => h.congr (by rw [hshard]) (by rw [hshard]),
    fun h => h.congr (by rw [hshard]) (by rw [hshard])⟩

theorem Saved.recorded_flush (h : s.Saved c) (hlegal : s.Legal (.flush orders now ends ok))
    (hharmless : s.Harmless c accepts (.flush orders now ends ok))
    (hstep : s.step c accepts (.flush orders now ends ok) = some t) (k : GoString) :
    Recorded c t.time (t.store.getShard k) k t.db[k]? := by
  have hsame : Recorded c t.time (s.store.getShard k) k t.db[k]? := by
    rw [getElem?_flush h.placed hlegal.1 hstep, time_flush hstep]
    by_cases hk : k ∈ orders (shardIndex k)
    · split_ifs with hwritten
      · exact (recorded_record _ k (hlegal.2 _ k hk)).mono (le_later_right _ _)
      · refine hharmless _ k hk (fun hok => ?_)
        exact Bool.eq_false_iff.2 (fun haccepts => hwritten ⟨hk, hok, haccepts⟩)
    · rw [if_neg (fun hwritten => hk hwritten.1)]
      have hclean : (s.store.getShard k).dirty k = false :=
        Bool.eq_false_iff.2 (fun hdirty => hk ((hlegal.1 _ k).2 hdirty))
      exact (h.clean k hclean).mono (le_later_left _ _)
  exact (recorded_flush_iff hstep k).2 hsame

theorem Saved.flush (h : s.Saved c) (hlegal : s.Legal (.flush orders now ends ok))
    (hharmless : s.Harmless c accepts (.flush orders now ends ok))
    (hstep : s.step c accepts (.flush orders now ends ok) = some t) : t.Saved c where
  placed := placed_flush h.placed hstep
  clean k _ := h.recorded_flush hlegal hharmless hstep k

theorem Saved.step {a : SavingAction V} (h : s.Saved c) (hlegal : s.Legal a)
    (hharmless : s.Harmless c accepts a) (hstep : s.step c accepts a = some t) : t.Saved c := by
  cases a with
  | op o =>
      obtain rfl := Option.some.inj hstep
      exact h.op hlegal
  | flush orders now ends ok => exact h.flush hlegal hharmless hstep

theorem Saved.intact {a : SavingAction V} (h : s.Saved c) (hlegal : s.Legal a)
    (hharmless : s.Harmless c accepts a) : s.Intact c accepts a := by
  cases a with
  | op o => trivial
  | flush orders now ends ok =>
      cases ok with
      | false => trivial
      | true =>
          intro t hstep k
          exact h.recorded_flush hlegal hharmless hstep k

def emptyFlush (ends : Int64) : SavingAction V := .flush (fun _ => []) (fun _ _ => 0) ends true

theorem legal_emptyFlush (hstep : s.step c accepts (.flush orders now ends ok) = some t) :
    t.Legal (emptyFlush t.time) := by
  refine ⟨fun i k => iff_of_false List.not_mem_nil ?_, fun i k hk => absurd hk List.not_mem_nil⟩
  change ¬ (t.store.shards i).dirty k = true
  rw [shards_flush hstep]
  exact Bool.false_ne_true

/-- After a harmful flush, one that finds no marks leaves a record that does not agree. -/
theorem Saved.not_intact (h : s.Saved c) (hlegal : s.Legal (.flush orders now ends ok))
    (hharmful : ¬ s.Harmless c accepts (.flush orders now ends ok))
    (hstep : s.step c accepts (.flush orders now ends ok) = some t) :
    ¬ t.Intact c accepts (emptyFlush t.time) := by
  unfold Harmless at hharmful
  push Not at hharmful
  obtain ⟨i, k, hk, hlost, hwrong⟩ := hharmful
  obtain rfl : shardIndex k = i := (h.placed i).dirty k ((hlegal.1 i k).1 hk)
  have hold : t.db[k]? = s.db[k]? := by
    rw [getElem?_flush h.placed hlegal.1 hstep, if_neg]
    rintro ⟨-, hok, haccepts⟩
    rw [hlost hok] at haccepts
    cases haccepts
  intro hintact
  obtain ⟨u, hu⟩ : ∃ u, t.step c accepts (emptyFlush t.time) = some u := ⟨_, rfl⟩
  have hrecorded := hintact u hu k
  rw [recorded_flush_iff hu, recorded_flush_iff hstep, time_flush hu, later_self, time_flush hstep,
    getElem?_flush (placed_flush h.placed hstep) (legal_emptyFlush hstep).1 hu,
    if_neg (fun hwritten => absurd hwritten.1 List.not_mem_nil), hold] at hrecorded
  exact hwrong hrecorded

/-- In a run of operations and flushes every flush that succeeds leaves the database in agreement
with the store, as long as no write that was lost would have changed anything. A run in which one
would have can go on to a flush that succeeds and leaves them in disagreement. -/
theorem failed_flush_loses_nothing (c : DiskCodec V) (accepts : GoString → Bool) (time : Int64)
    {as : List (SavingAction V)}
    (hlegal : StepSystem.Along (step c accepts) Legal (start time) as) :
    (StepSystem.Along (step c accepts) (Harmless c accepts) (start time) as →
      StepSystem.Along (step c accepts) (Intact c accepts) (start time) as) ∧
    (¬ StepSystem.Along (step c accepts) (Harmless c accepts) (start time) as →
      ∃ bs cs, bs <+: as ∧ StepSystem.Along (step c accepts) Legal (start time) (bs ++ cs) ∧
        ¬ StepSystem.Along (step c accepts) (Intact c accepts) (start time) (bs ++ cs)) := by
  have hkeep (s : Saving V) (a : SavingAction V) (t : Saving V) (hs : s.Saved c)
      (ha : s.Legal a ∧ s.Harmless c accepts a) (hstep : s.step c accepts a = some t) :
      t.Saved c := hs.step ha.1 ha.2 hstep
  constructor
  · intro hharmless
    exact StepSystem.along_of_along hkeep (fun s a hs ha => hs.intact ha.1 ha.2)
      (saved_start time) (StepSystem.along_and hlegal hharmless)
  · intro hharmful
    obtain ⟨bs, a, s, hbs, halong, hrun, ha⟩ := StepSystem.exists_of_not_along hharmful
    have hlegal' := StepSystem.along_initial hlegal hbs
    obtain ⟨hlegalbs, hlegala⟩ := StepSystem.along_append hlegal' hrun
    have hsaved : s.Saved c := StepSystem.run_invariant_along hkeep (saved_start time)
      (StepSystem.along_and hlegalbs halong) hrun
    cases a with
    | op o => exact absurd trivial ha
    | flush orders now ends ok =>
        obtain ⟨t, ht⟩ : ∃ t, s.step c accepts (.flush orders now ends ok) = some t := ⟨_, rfl⟩
        have hrun' : StepSystem.run (step c accepts) (start time)
            (bs ++ [.flush orders now ends ok]) = some t := by
          rw [StepSystem.run_append_eq_some]
          exact ⟨s, hrun, by rw [StepSystem.run_singleton, ht]⟩
        refine ⟨bs ++ [.flush orders now ends ok], [emptyFlush t.time], hbs, ?_, ?_⟩
        · refine StepSystem.along_append_iff.2 ⟨hlegal', fun u hu => ?_⟩
          obtain rfl := Option.some.inj (hrun'.symm.trans hu)
          exact ⟨legal_emptyFlush ht, trivial⟩
        · intro hintact
          exact hsaved.not_intact hlegala.1 ha ht (StepSystem.along_append hintact hrun').2.1

def writeAndFlush (ok : Bool) : List (SavingAction UInt8) :=
  [.op (.set (bytes "k") (some 7) ⟨10, 0⟩ 0),
    .flush (Disk.ordersOf [slot (bytes "k")]) (fun _ _ => 11) 11 ok, emptyFlush 11]

theorem legal_writeAndFlush (c : DiskCodec UInt8) (accepts : GoString → Bool) (ok : Bool) :
    StepSystem.Along (step c accepts) Legal (start 11) (writeAndFlush ok) := by
  obtain ⟨s, hs⟩ : ∃ s, step c accepts (start 11) (.op (.set (bytes "k") (some 7) ⟨10, 0⟩ 0)) =
      some s := ⟨_, rfl⟩
  obtain ⟨t, ht⟩ : ∃ t, s.step c accepts
      (.flush (Disk.ordersOf [slot (bytes "k")]) (fun _ _ => 11) 11 ok) = some t := ⟨_, rfl⟩
  have htime : t.time = 11 := by
    rw [time_flush ht, ← Option.some.inj hs]
    rfl
  have hmarks (p : Fin numShards × GoString) :
      flatten StoreShard.dirty s.disk.store p = true ↔ p ∈ [slot (bytes "k")] := by
    rw [← Option.some.inj hs]
    have hdirty := dirty_set (newStore : Store UInt8) (some 7) ⟨10, 0⟩ 0
      (show newStore.replicated.cache (slot (bytes "k")) = none from rfl)
    change flatten StoreShard.dirty (newStore.set (bytes "k") (some 7) ⟨10, 0⟩ 0) p = true ↔ _
    rw [hdirty, Function.update_apply, List.mem_singleton]
    split_ifs with hp
    · exact iff_of_true rfl hp
    · exact iff_of_false Bool.false_ne_true hp
  have hempty := legal_emptyFlush ht
  rw [htime] at hempty
  refine ⟨show colon ∉ bytes "k" by decide, ?_⟩
  rw [hs]
  refine ⟨⟨Disk.ranges_ordersOf hmarks, fun _ _ _ _ _ _ =>
    show (0 : Int64) ≤ 11 ∧ (11 : Int64) ≤ 11 by decide⟩, ?_⟩
  rw [ht]
  exact ⟨hempty, trivial⟩

theorem failed_flush_loses_nothing_write :
    StepSystem.Along (step byteCodec (fun _ => true)) (Intact byteCodec (fun _ => true)) (start 11)
      (writeAndFlush true) := by
  refine (failed_flush_loses_nothing byteCodec (fun _ => true) 11
    (legal_writeAndFlush byteCodec (fun _ => true) true)).1 ?_
  refine StepSystem.along_of_forall (fun a ha s => ?_) _
  rcases List.mem_cons.1 ha with rfl | hflush
  · trivial
  · simp only [emptyFlush, List.mem_cons, List.not_mem_nil, or_false] at hflush
    rcases hflush with rfl | rfl
    · exact fun _ _ _ hlost => Bool.noConfusion (hlost rfl)
    · exact fun _ _ _ hlost => Bool.noConfusion (hlost rfl)

/-- The write is in memory and nothing is marked, but its record was lost with the first flush. -/
theorem failed_flush_drops_write :
    StepSystem.Along (step byteCodec (fun _ => true)) Legal (start 11) (writeAndFlush false) ∧
      ∃ s, StepSystem.run (step byteCodec (fun _ => true)) (start 11) (writeAndFlush false) =
          some s ∧
        s.store.get (bytes "k") 12 = some 7 ∧ s.db[bytes "k"]? = none := by
  refine ⟨legal_writeAndFlush byteCodec (fun _ => true) false, _, rfl, ?_⟩
  decide +kernel

end Saving

end Capacitor
