import Capacitor.WindowRecords

/-!
# Closing a store of windows and loading it again

A flush writes a record for every event of a marked window, and no operation or flush ever takes the
record of an event back. So once every window has been flushed the database holds the events of all
windows, and those that were cut off or pruned after an earlier flush besides.
-/

namespace Capacitor

open Store

variable {V : Type*} {c : DiskCodec V}

/-- Every window has an event, a name without a colon, and the shard of its name. -/
def StoreShard.WindowsPlaced (i : Fin numShards) (shard : StoreShard V) : Prop :=
  ∀ k, shard.windows k ≠ none → shard.windows k ≠ some [] ∧ colon ∉ k ∧ shardIndex k = i

def StoreOp.PlainWindow : StoreOp V → Prop
  | incrementSlidingWindow key _ _ _ => colon ∉ key
  | addWindowTimestamp key _ => colon ∉ key
  | _ => True

namespace StoreShard.WindowsPlaced

variable {i : Fin numShards} {shard : StoreShard V}

theorem update (h : shard.WindowsPlaced i) {key : GoString} (hkey : colon ∉ key)
    (hi : shardIndex key = i) {win : Option (List Int64)} (hwin : win ≠ some [])
    (dirty : GoString → Bool) : StoreShard.WindowsPlaced i { shard with
      windows := Function.update shard.windows key win
      dirty := dirty } := by
  intro k hk
  by_cases hkk : k = key
  · subst hkk
    refine ⟨?_, hkey, hi⟩
    dsimp only
    rwa [Function.update_self]
  · dsimp only at hk ⊢
    rw [Function.update_of_ne hkk] at hk ⊢
    exact h k hk

theorem onShard (h : shard.WindowsPlaced i) {o : StoreOp V} (ho : o.PlainWindow)
    (hi : o.target = i) : (o.onShard shard).WindowsPlaced i := by
  have hframe (hwindows : o.changes ≠ .windows) : (o.onShard shard).WindowsPlaced i := by
    unfold StoreShard.WindowsPlaced
    rw [(o.sameBut_onShard shard).windows hwindows]
    exact h
  cases o with
  | incrementSlidingWindow key ts window now =>
      refine h.update ho hi ?_ _
      split_ifs with hempty
      · exact (Option.some_ne_none _).symm
      · exact fun heq => hempty (Option.some.inj heq)
  | addWindowTimestamp key ts =>
      simp only [StoreOp.onShard]
      split
      · exact h
      · refine h.update ho hi (fun heq => ?_) _
        exact absurd (Option.some.inj heq)
          (List.append_ne_nil_of_right_ne_nil _ (List.cons_ne_nil _ _))
  | pruneStaleWindows j now =>
      intro k hk
      obtain ⟨win, hwin⟩ := Option.ne_none_iff_exists'.1 hk
      have hold : shard.windows k = some win := (Option.filter_eq_some_iff.1 hwin).1
      rw [hwin, ← hold]
      exact h k (hold ▸ Option.some_ne_none win)
  | _ => exact hframe (by simp)

end StoreShard.WindowsPlaced

/-- The operations of windows. The database takes no empty key. -/
def StoreOp.Windowed : StoreOp V → Prop
  | incrementSlidingWindow key _ _ _ => key ≠ [] ∧ colon ∉ key
  | addWindowTimestamp key _ => key ≠ [] ∧ colon ∉ key
  | pruneStaleWindows _ _ => True
  | _ => False

/-- A shard that the operations of windows alone have used. -/
structure WindowShard (i : Fin numShards) (shard : StoreShard V) : Prop where
  cache : ∀ k, shard.cache k = none
  counts : ∀ k, shard.counts k = none
  peerSeqs : ∀ k, shard.peerSeqs k = none
  windows : shard.WindowsPlaced i
  dirty : ∀ k, shard.dirty k = true → colon ∉ k ∧ shardIndex k = i

namespace WindowShard

variable {i : Fin numShards} {shard : StoreShard V}

theorem newStoreShard (i : Fin numShards) : WindowShard i (newStoreShard : StoreShard V) where
  cache _ := rfl
  counts _ := rfl
  peerSeqs _ := rfl
  windows _ h := absurd rfl h
  dirty _ h := by cases h

theorem dirty_mark (h : WindowShard i shard) {key : GoString} (hkey : colon ∉ key)
    (hi : shardIndex key = i) (k : GoString) (hk : Function.update shard.dirty key true k = true) :
    colon ∉ k ∧ shardIndex k = i := by
  rcases update_cases (P := (· = true)) hk with hold | rfl
  · exact h.dirty k hold
  · exact ⟨hkey, hi⟩

theorem onShard (h : WindowShard i shard) {o : StoreOp V} (ho : o.Windowed) (hi : o.target = i) :
    WindowShard i (o.onShard shard) := by
  cases o with
  | incrementSlidingWindow key ts window now =>
      exact ⟨h.cache, h.counts, h.peerSeqs, h.windows.onShard ho.2 hi, h.dirty_mark ho.2 hi⟩
  | addWindowTimestamp key ts =>
      have hwindows := h.windows.onShard (o := .addWindowTimestamp key ts) ho.2 hi
      simp only [StoreOp.onShard] at hwindows ⊢
      split at hwindows
      · exact h
      · exact ⟨h.cache, h.counts, h.peerSeqs, hwindows, h.dirty_mark ho.2 hi⟩
  | pruneStaleWindows j now =>
      exact ⟨h.cache, h.counts, h.peerSeqs, h.windows.onShard trivial hi, h.dirty⟩
  | _ => exact ho.elim

theorem writes_snapshotItem (h : WindowShard i shard) {k : GoString} (hk : colon ∉ k)
    (now : Int64) : (shard.snapshotItem k).writes c now =
      match shard.windows k with
      | some win => win.map (fun ts => (windowKey k ts, some ⟨[], none⟩))
      | none => [(k, none)] := by
  have hmark := isPrefixOf_of_not_mem (by decide : colon ∈ bytes "meta:seq:") hk
  unfold StoreShard.snapshotItem
  rw [h.cache, h.counts, h.peerSeqs]
  cases hwin : shard.windows k with
  | none => rfl
  | some win =>
      have hne : win ≠ [] := fun heq => (h.windows k (by simp [hwin])).1 (by rw [hwin, heq])
      simp [SnapshotItem.writes, hmark, hne]

theorem windows_onShard {o : StoreOp V} (ho : o.Windowed) {k : GoString}
    (hclean : (o.onShard shard).dirty k = false) :
    (o.onShard shard).windows k = shard.windows k ∨ (o.onShard shard).windows k = none := by
  have hother {key : GoString} (hk : Function.update shard.dirty key true k = false) : k ≠ key := by
    rintro rfl
    rw [Function.update_self] at hk
    cases hk
  cases o with
  | incrementSlidingWindow key ts window now =>
      exact Or.inl (Function.update_of_ne (hother hclean) _ _)
  | addWindowTimestamp key ts =>
      simp only [StoreOp.onShard] at hclean ⊢
      split at hclean
      · exact Or.inl rfl
      · exact Or.inl (Function.update_of_ne (hother hclean) _ _)
  | pruneStaleWindows j now =>
      change (shard.windows k).filter _ = _ ∨ (shard.windows k).filter _ = none
      cases shard.windows k with
      | none => exact Or.inl rfl
      | some win =>
          rw [Option.filter_some]
          split_ifs
          · exact Or.inl rfl
          · exact Or.inr rfl
  | _ => exact ho.elim

end WindowShard

/-- The event has a record in the database or in the pending batch. -/
def Disk.HasEvent (d : Disk V) (k : GoString) (ts : Int64) : Prop :=
  d.written[windowKey k ts]? ≠ none

/-- The invariant: the database holds records of events only, and those of every window that is not
marked. -/
structure WindowDisk (d : Disk V) : Prop where
  shards : ∀ i, WindowShard i (d.store.shards i)
  names : ∀ key r, d.written[key]? = some r →
    r = ⟨[], none⟩ ∧ ∃ k ts, colon ∉ k ∧ key = windowKey k ts
  saved : ∀ k, (d.store.getShard k).dirty k = false →
    ∀ ts ∈ d.store.getWindow k, d.HasEvent k ts

namespace WindowDisk

variable {d : Disk V}

theorem empty : WindowDisk (Disk.empty : Disk V) where
  shards i := WindowShard.newStoreShard i
  names key r h := by
    change (∅ : Database)[key]? = some r at h
    rw [Std.TreeMap.getElem?_emptyc] at h
    cases h
  saved _ _ _ hts := absurd hts List.not_mem_nil

theorem op (h : WindowDisk d) {o : StoreOp V} (ho : o.Windowed) :
    WindowDisk { d with store := o.apply d.store } := by
  refine ⟨fun i => ?_, h.names, fun k hclean ts hts => ?_⟩
  · change WindowShard i ((o.apply d.store).shards i)
    rw [o.shards_apply]
    split_ifs with hi
    · exact (h.shards i).onShard ho hi.symm
    · exact h.shards i
  · change ((o.apply d.store).shards (shardIndex k)).dirty k = false at hclean
    change ts ∈ (((o.apply d.store).shards (shardIndex k)).windows k).getD [] at hts
    rw [o.shards_apply] at hclean hts
    split_ifs at hclean hts with hi
    · have hold : (d.store.getShard k).dirty k = false := by
        rw [Bool.eq_false_iff] at hclean ⊢
        exact fun hdirty => hclean (StoreOp.dirty_onShard hdirty o)
      rcases WindowShard.windows_onShard ho hclean with heq | hnone
      · rw [heq] at hts
        exact h.saved k hold ts hts
      · rw [hnone] at hts
        cases hts
    · exact h.saved k hclean ts hts

section Flush

variable {i : Fin numShards} {order : List GoString} {now : GoString → Int64}

theorem mem_writes (h : WindowDisk d) (hranges : d.Ranges i order)
    {w : WriteBatch.Write GoString Record}
    (hw : w ∈ order.flatMap (fun k => ((d.store.shards i).snapshotItem k).writes c (now k))) :
    (∃ k ts, k ∈ order ∧ colon ∉ k ∧ shardIndex k = i ∧ ts ∈ d.store.getWindow k ∧
      w = (windowKey k ts, some ⟨[], none⟩)) ∨ ∃ k, colon ∉ k ∧ w = (k, none) := by
  obtain ⟨k, hk, hw⟩ := List.mem_flatMap.1 hw
  obtain ⟨hcolon, rfl⟩ := (h.shards i).dirty k ((hranges k).1 hk)
  rw [(h.shards _).writes_snapshotItem hcolon] at hw
  cases hwin : (d.store.shards (shardIndex k)).windows k with
  | none =>
      rw [hwin] at hw
      exact Or.inr ⟨k, hcolon, List.mem_singleton.1 hw⟩
  | some win =>
      rw [hwin] at hw
      obtain ⟨ts, hts, rfl⟩ := List.mem_map.1 hw
      refine Or.inl ⟨k, ts, hk, hcolon, rfl, ?_, rfl⟩
      change ts ∈ ((d.store.shards (shardIndex k)).windows k).getD []
      rwa [hwin]

theorem event_mem_writes {k : GoString} {t : Int64} (h : WindowDisk d)
    (hranges : d.Ranges (shardIndex k) order) (hk : k ∈ order) {ts : Int64}
    (hts : ts ∈ d.store.getWindow k) : (windowKey k ts, some ⟨[], none⟩) ∈
      ((d.store.shards (shardIndex k)).snapshotItem k).writes c t := by
  obtain ⟨hcolon, -⟩ := (h.shards _).dirty k ((hranges k).1 hk)
  rw [(h.shards _).writes_snapshotItem hcolon]
  change ts ∈ ((d.store.shards (shardIndex k)).windows k).getD [] at hts
  cases hwin : (d.store.shards (shardIndex k)).windows k with
  | none =>
      rw [hwin] at hts
      cases hts
  | some win =>
      rw [hwin] at hts
      exact List.mem_map.2 ⟨ts, hts, rfl⟩

theorem hasEvent_flushShard (h : WindowDisk d) (hranges : d.Ranges i order) (k : GoString)
    (ts : Int64) : (d.flushShard c i order now).HasEvent k ts ↔ d.HasEvent k ts ∨
      (shardIndex k = i ∧ k ∈ order ∧ ts ∈ d.store.getWindow k) := by
  unfold Disk.HasEvent
  rw [Disk.written_flushShard]
  by_cases hmem : shardIndex k = i ∧ k ∈ order ∧ ts ∈ d.store.getWindow k
  · refine iff_of_true ?_ (Or.inr hmem)
    rw [WriteBatch.getElem?_commit_of_mem (o := some ⟨[], none⟩)]
    · exact Option.some_ne_none _
    · intro w hw hname
      rcases h.mem_writes hranges hw with ⟨k', ts', -, -, -, -, rfl⟩ | ⟨k', hk', rfl⟩
      · rfl
      · exact absurd hname (ne_windowKey hk' k ts)
    · obtain ⟨rfl, hk, hts⟩ := hmem
      exact ⟨(windowKey k ts, some ⟨[], none⟩),
        List.mem_flatMap.2 ⟨k, hk, h.event_mem_writes hranges hk hts⟩, rfl⟩
  · rw [or_iff_left hmem, WriteBatch.getElem?_commit_of_not_mem]
    intro w hw hname
    rcases h.mem_writes hranges hw with ⟨k', ts', hk', -, hi', hts', rfl⟩ | ⟨k', hk', rfl⟩
    · obtain ⟨rfl, rfl⟩ := windowKey_inj hname
      exact hmem ⟨hi', hk', hts'⟩
    · exact ne_windowKey hk' k ts hname

theorem getWindow_flushShard (d : Disk V) (i : Fin numShards) (order : List GoString)
    (now : GoString → Int64) (k : GoString) :
    (d.flushShard c i order now).store.getWindow k = d.store.getWindow k := by
  rw [getWindow_eq, Disk.replicated_flushShard, ← getWindow_eq]

theorem flushShard (h : WindowDisk d) (hranges : d.Ranges i order) :
    WindowDisk (d.flushShard c i order now) := by
  refine ⟨fun j => ?_, fun key r hr => ?_, fun k hclean ts hts => ?_⟩
  · have hj := h.shards j
    rw [Disk.shards_flushShard]
    split_ifs
    · exact ⟨hj.cache, hj.counts, hj.peerSeqs, hj.windows, fun k hk => by cases hk⟩
    · exact hj
  · rw [Disk.written_flushShard] at hr
    rcases WriteBatch.getElem?_commit_cases _ hr with hold | hnew
    · exact h.names key r hold
    · rcases h.mem_writes hranges hnew with ⟨k, ts, -, hk, -, -, heq⟩ | ⟨k, -, heq⟩
      · obtain ⟨rfl, hsome⟩ := Prod.mk.inj heq
        exact ⟨Option.some.inj hsome, k, ts, hk, rfl⟩
      · cases (Prod.mk.inj heq).2
  · rw [getWindow_flushShard] at hts
    rw [h.hasEvent_flushShard hranges]
    change ((d.flushShard c i order now).store.shards (shardIndex k)).dirty k = false at hclean
    rw [Disk.shards_flushShard] at hclean
    split_ifs at hclean with hi
    · cases hdirty : (d.store.shards (shardIndex k)).dirty k with
      | true => exact Or.inr ⟨hi, (hranges k).2 (hi ▸ hdirty), hts⟩
      | false => exact Or.inl (h.saved k hdirty ts hts)
    · exact Or.inl (h.saved k hclean ts hts)

theorem commit (h : WindowDisk d) : WindowDisk d.commit := ⟨h.shards, h.names, h.saved⟩

end Flush

/-- What flushes make of a disk: the windows stay, and what gets a record is an event of one. -/
structure Flushed (d d' : Disk V) : Prop where
  disk : WindowDisk d'
  windows : ∀ k, d'.store.getWindow k = d.store.getWindow k
  kept : ∀ k ts, d.HasEvent k ts → d'.HasEvent k ts
  only : ∀ k ts, d'.HasEvent k ts → d.HasEvent k ts ∨ ts ∈ d.store.getWindow k

namespace Flushed

variable {d' : Disk V}

theorem refl (h : WindowDisk d) : Flushed d d := ⟨h, fun _ => rfl, fun _ _ => id, fun _ _ => Or.inl⟩

theorem flushShard (h : Flushed d d') {i : Fin numShards} {order : List GoString}
    {now : GoString → Int64} (hranges : d'.Ranges i order) :
    Flushed d (d'.flushShard c i order now) := by
  have hevents (k : GoString) (ts : Int64) : (d'.flushShard c i order now).HasEvent k ts ↔ _ :=
    h.disk.hasEvent_flushShard hranges k ts
  refine ⟨h.disk.flushShard hranges, fun k => ?_, fun k ts hold => ?_, fun k ts hnew => ?_⟩
  · rw [getWindow_flushShard, h.windows]
  · exact (hevents k ts).2 (Or.inl (h.kept k ts hold))
  · rcases (hevents k ts).1 hnew with hold | ⟨-, -, hts⟩
    · exact h.only k ts hold
    · rw [h.windows] at hts
      exact Or.inr hts

theorem commit (h : Flushed d d') : Flushed d d'.commit :=
  ⟨h.disk.commit, h.windows, h.kept, h.only⟩

theorem close (h : WindowDisk d) {orders : Fin numShards → List GoString}
    {now : Fin numShards → GoString → Int64} (hranges : ∀ i, d.Ranges i (orders i)) :
    Flushed d (d.close c orders now) :=
  (Disk.flushShards_invariant (P := Flushed d) (List.nodup_finRange _)
    (fun _ _ _ hd' hrange => hd'.flushShard hrange) (refl h) (fun i _ => hranges i)).commit

end Flushed

/-- A close leaves a record of every event that a window holds or that had one before. -/
theorem hasEvent_close (h : WindowDisk d) {orders : Fin numShards → List GoString}
    {now : Fin numShards → GoString → Int64} (hranges : ∀ i, d.Ranges i (orders i))
    (k : GoString) (ts : Int64) : (d.close c orders now).HasEvent k ts ↔
      d.HasEvent k ts ∨ ts ∈ d.store.getWindow k := by
  have hclosed : Flushed d (d.close c orders now) := Flushed.close h hranges
  refine ⟨hclosed.only k ts, fun hevent => hevent.elim (hclosed.kept k ts) (fun hts => ?_)⟩
  apply hclosed.disk.saved k
  · unfold getShard
    rw [Disk.shards_close]
  · rwa [hclosed.windows]

section Load

variable {db : Database} {now : GoString → Int64} {items : List (GoString × Record)}
  (hnames : ∀ key r, db[key]? = some r →
    r = ⟨[], none⟩ ∧ ∃ k ts, colon ∉ k ∧ key = windowKey k ts)
  (hvisible : Visible db now items)

include hnames hvisible

theorem exists_windowKey {w : GoString × Record} (hw : w ∈ items) :
    ∃ k ts, w.1 = windowKey k ts ∧ windowEvent w.1 = some (k, ts) := by
  obtain ⟨-, k, ts, hk, hname⟩ := hnames w.1 w.2 (hvisible.getElem?_of_mem hw)
  refine ⟨k, ts, hname, ?_⟩
  rw [hname, windowEvent_windowKey hk]

theorem load_eq (c : DiskCodec V) : Store.load c now items =
    some (items.foldl (Store.loadRecord c now) Store.newStore) := by
  apply if_neg
  rintro ⟨w, hw, hmark, -⟩
  obtain ⟨k, ts, hname, -⟩ := exists_windowKey hnames hvisible hw
  rw [hname] at hmark
  cases hmark

theorem mem_loadedEvents_iff (k : GoString) (ts : Int64) :
    ts ∈ loadedEvents k items ↔ db[windowKey k ts]? ≠ none := by
  rw [mem_loadedEvents]
  constructor
  · rintro ⟨w, hw, hevent⟩
    obtain ⟨k', ts', hname, hevent'⟩ := exists_windowKey hnames hvisible hw
    cases hevent.symm.trans hevent'
    rw [← hname, hvisible.getElem?_of_mem hw]
    exact Option.some_ne_none _
  · intro h
    obtain ⟨r, hr⟩ := Option.ne_none_iff_exists'.1 h
    obtain ⟨rfl, k', ts', hk', hname⟩ := hnames _ r hr
    obtain ⟨rfl, rfl⟩ := windowKey_inj hname
    exact ⟨_, hvisible.met _ _ hr (fun e he => by cases he), windowEvent_windowKey hk' ts⟩

theorem nodup_loadedEvents (k : GoString) : (loadedEvents k items).Nodup := by
  unfold loadedEvents
  rw [List.Nodup, List.pairwise_filterMap]
  refine hvisible.distinct.imp_of_mem ?_
  rintro w w' hw hw' hne ts hts ts' hts' rfl
  obtain ⟨k₁, ts₁, hname, hevent⟩ := exists_windowKey hnames hvisible hw
  obtain ⟨k₂, ts₂, hname', hevent'⟩ := exists_windowKey hnames hvisible hw'
  rw [eventOf_eq_some.1 hts] at hevent
  rw [eventOf_eq_some.1 hts'] at hevent'
  cases hevent
  cases hevent'
  exact hne (hname.trans hname'.symm)

end Load

/-- The state from which a close and a load bring every window back: no window holds a timestamp
twice, and no record is left of an event that its window no longer holds. -/
def Exact (d : Disk V) : Prop :=
  ∀ k, (d.store.getWindow k).Nodup ∧ ∀ ts, d.HasEvent k ts → ts ∈ d.store.getWindow k

theorem reload_iff (h : WindowDisk d) {orders : Fin numShards → List GoString}
    {flushed : Fin numShards → GoString → Int64} (hranges : ∀ i, d.Ranges i (orders i))
    {now : GoString → Int64} {items : List (GoString × Record)}
    (hvisible : Visible (d.close c orders flushed).db now items) :
    (∀ k, ((items.foldl (Store.loadRecord c now) Store.newStore).getWindow k).Perm
      (d.store.getWindow k)) ↔ Exact d := by
  have hclosed : Flushed d (d.close c orders flushed) := Flushed.close h hranges
  have hnames := hclosed.disk.names
  have hmem (k : GoString) (ts : Int64) :
      ts ∈ loadedEvents k items ↔ d.HasEvent k ts ∨ ts ∈ d.store.getWindow k :=
    (mem_loadedEvents_iff hnames hvisible k ts).trans (h.hasEvent_close hranges k ts)
  have hnodup (k : GoString) := nodup_loadedEvents hnames hvisible k
  simp only [Store.getWindow_foldl_loadRecord]
  refine forall_congr' (fun k => ⟨fun hperm => ?_, fun hexact => ?_⟩)
  · refine ⟨hperm.nodup_iff.1 (hnodup k), fun ts hevent => ?_⟩
    exact hperm.mem_iff.1 ((hmem k ts).2 (Or.inl hevent))
  · refine (List.perm_ext_iff_of_nodup (hnodup k) hexact.1).2 (fun ts => ?_)
    rw [hmem]
    exact or_iff_right_of_imp (hexact.2 ts)

end WindowDisk

namespace Disk

def WindowStep (d : Disk V) : DiskAction V → Prop
  | .op o => o.Windowed
  | .flushShard i order _ => d.Ranges i order
  | .commit => True

/-- No timestamp that the window already holds is added to it again, and nothing that has a record
is cut off or pruned. -/
def KeepsEvents (d : Disk V) : DiskAction V → Prop
  | .op (.incrementSlidingWindow key ts window now) =>
      ts ∉ d.store.getWindow key ∧
      ∀ t ∈ (d.store.getWindow key ++ [ts]).take
        ((d.store.getWindow key ++ [ts]).countP (fun t => t < now - window)), ¬ d.HasEvent key t
  | .op (.addWindowTimestamp key ts) =>
      ts ∈ d.store.getWindow key → windowIndex ts (d.store.getWindow key) = none
  | .op (.pruneStaleWindows i now) =>
      ∀ k, shardIndex k = i → (∃ newest ∈ (d.store.getWindow k).getLast?, now - newest > hour) →
        ∀ ts ∈ d.store.getWindow k, ¬ d.HasEvent k ts
  | _ => True

end Disk

namespace WindowDisk

variable {d d' : Disk V}

theorem step {a : DiskAction V} (h : WindowDisk d) (ha : d.WindowStep a)
    (hstep : d.step c a = some d') : WindowDisk d' := by
  cases a with
  | op o =>
      cases hstep
      exact h.op ha
  | flushShard i order now =>
      cases hstep
      exact h.flushShard ha
  | commit =>
      cases hstep
      exact h.commit

theorem exact_empty : Exact (Disk.empty : Disk V) := by
  refine fun k => ⟨List.nodup_nil, fun ts hts => ?_⟩
  exact absurd Std.TreeMap.getElem?_emptyc hts

theorem exact_op {o : StoreOp V} (h : Exact d) (ho : o.Windowed) (hkeeps : d.KeepsEvents (.op o)) :
    Exact { d with store := o.apply d.store } := by
  intro k
  obtain ⟨hnodup, hevents⟩ := h k
  change ((o.apply d.store).getWindow k).Nodup ∧
    ∀ ts, d.HasEvent k ts → ts ∈ (o.apply d.store).getWindow k
  cases o with
  | incrementSlidingWindow key ts window now =>
      change ((d.store.incrementSlidingWindow key ts window now).1.getWindow k).Nodup ∧ ∀ t, _ →
        t ∈ (d.store.incrementSlidingWindow key ts window now).1.getWindow k
      rw [getWindow_incrementSlidingWindow]
      split_ifs with hk
      · subst hk
        obtain ⟨hfresh, hcut⟩ := hkeeps
        have happend : (d.store.getWindow k ++ [ts]).Nodup := by
          rw [← List.concat_eq_append]
          exact hnodup.concat hfresh
        refine ⟨happend.sublist (List.drop_sublist _ _), fun t ht => ?_⟩
        have hmem : t ∈ d.store.getWindow k ++ [ts] := List.mem_append_left _ (hevents t ht)
        rw [← List.take_append_drop ((d.store.getWindow k ++ [ts]).countP
          (fun t => t < now - window)) (d.store.getWindow k ++ [ts]), List.mem_append] at hmem
        exact hmem.resolve_left (fun hold => hcut t hold ht)
      · exact ⟨hnodup, hevents⟩
  | addWindowTimestamp key ts =>
      change ((d.store.addWindowTimestamp key ts).getWindow k).Nodup ∧ ∀ t, _ →
        t ∈ (d.store.addWindowTimestamp key ts).getWindow k
      rw [getWindow_addWindowTimestamp]
      split_ifs with hk
      · subst hk
        refine ⟨?_, fun t ht => mem_insertEvent.2 (Or.inr (hevents t ht))⟩
        by_cases hidx : windowIndex ts (d.store.getWindow k) = none
        · rwa [insertEvent_of_none hidx]
        · rw [(insertEvent_perm hidx).nodup_iff, List.nodup_cons]
          exact ⟨fun hmem => hidx (hkeeps hmem), hnodup⟩
      · exact ⟨hnodup, hevents⟩
  | pruneStaleWindows i now =>
      change ((d.store.pruneStaleWindows i now).getWindow k).Nodup ∧ ∀ t, _ →
        t ∈ (d.store.pruneStaleWindows i now).getWindow k
      rw [getWindow_pruneStaleWindows]
      split_ifs with hpruned
      · refine ⟨List.nodup_nil, fun t ht => ?_⟩
        exact absurd ht (hkeeps k hpruned.1 hpruned.2 t (hevents t ht))
      · exact ⟨hnodup, hevents⟩
  | _ => exact ho.elim

theorem exact_step {a : DiskAction V} (h : WindowDisk d) (hexact : Exact d) (ha : d.WindowStep a)
    (hkeeps : d.KeepsEvents a) (hstep : d.step c a = some d') : Exact d' := by
  cases a with
  | op o =>
      cases hstep
      exact exact_op hexact ha hkeeps
  | flushShard i order now =>
      cases hstep
      intro k
      rw [getWindow_flushShard]
      refine ⟨(hexact k).1, fun ts hts => ?_⟩
      rcases (h.hasEvent_flushShard ha k ts).1 hts with hold | ⟨-, -, hmem⟩
      · exact (hexact k).2 ts hold
      · exact hmem
  | commit =>
      cases hstep
      exact hexact

end WindowDisk

/-- After a close and a load every window holds the events it held before exactly when no window
held a timestamp twice and every record was that of an event its window still held. A run in which
no timestamp is added again and no event with a record is cut off or pruned ends in such a state. -/
theorem windows_reload_iff {as : List (DiskAction V)} {d : Disk V}
    (hrun : StepSystem.run (Disk.step c) Disk.empty as = some d)
    (hsteps : StepSystem.Along (Disk.step c) Disk.WindowStep Disk.empty as)
    {orders : Fin numShards → List GoString} {flushed : Fin numShards → GoString → Int64}
    (hranges : ∀ i, d.Ranges i (orders i)) {now : GoString → Int64}
    {items : List (GoString × Record)}
    (hvisible : Visible (d.close c orders flushed).db now items) :
    ∃ s, Store.load c now items = some s ∧
      ((∀ k, (s.getWindow k).Perm (d.store.getWindow k)) ↔
        ∀ k, (d.store.getWindow k).Nodup ∧ ∀ ts, d.HasEvent k ts → ts ∈ d.store.getWindow k) ∧
      (StepSystem.Along (Disk.step c) Disk.KeepsEvents Disk.empty as →
        ∀ k, (s.getWindow k).Perm (d.store.getWindow k)) := by
  have hdisk : WindowDisk d := StepSystem.run_invariant_along
    (fun _ _ _ hd ha hstep => hd.step ha hstep) WindowDisk.empty hsteps hrun
  have hclosed : WindowDisk.Flushed d (d.close c orders flushed) :=
    WindowDisk.Flushed.close hdisk hranges
  have hiff := hdisk.reload_iff hranges hvisible
  refine ⟨_, WindowDisk.load_eq hclosed.disk.names hvisible c, hiff, fun hkeeps => hiff.2 ?_⟩
  have hboth : WindowDisk d ∧ WindowDisk.Exact d := StepSystem.run_invariant_along
    (P := fun d => WindowDisk d ∧ WindowDisk.Exact d)
    (fun _ _ _ hd ha hstep => ⟨hd.1.step ha.1 hstep, hd.1.exact_step hd.2 ha.1 ha.2 hstep⟩)
    ⟨WindowDisk.empty, WindowDisk.exact_empty⟩ (StepSystem.along_and hsteps hkeeps) hrun
  exact hboth.2

def slideRun (window : Int64) : List (DiskAction UInt8) :=
  [.op (.incrementSlidingWindow (bytes "k") 1700000000000000000 hour 1700000000000000000),
    .flushShard (shardIndex (bytes "k")) [bytes "k"] (fun _ => 1700000001000000000),
    .commit,
    .op (.incrementSlidingWindow (bytes "k") 1700000010000000000 window 1700000010000000000)]

def firstDisk : Disk UInt8 :=
  ⟨(newStore.incrementSlidingWindow (bytes "k") 1700000000000000000 hour 1700000000000000000).1,
    ∅, []⟩

def flushedWindow : Disk UInt8 :=
  (firstDisk.flushShard byteCodec (shardIndex (bytes "k")) [bytes "k"]
    (fun _ => 1700000001000000000)).commit

def slideDisk (window : Int64) : Disk UInt8 :=
  { flushedWindow with
    store := (flushedWindow.store.incrementSlidingWindow (bytes "k") 1700000010000000000 window
      1700000010000000000).1 }

theorem run_slideRun (window : Int64) :
    StepSystem.run (Disk.step byteCodec) Disk.empty (slideRun window) = some (slideDisk window) :=
  rfl

theorem dirty_firstDisk (p : Fin numShards × GoString) :
    flatten StoreShard.dirty firstDisk.store p = true ↔ p ∈ [slot (bytes "k")] := by
  unfold firstDisk
  rw [dirty_incrementSlidingWindow, List.mem_singleton, Function.update_apply]
  split_ifs with hp
  · simp [hp]
  · exact iff_of_false Bool.false_ne_true hp

theorem dirty_slideDisk (window : Int64) (p : Fin numShards × GoString) :
    flatten StoreShard.dirty (slideDisk window).store p = true ↔ p ∈ [slot (bytes "k")] := by
  unfold slideDisk
  rw [dirty_incrementSlidingWindow, List.mem_singleton, Function.update_apply]
  split_ifs with hp
  · simp [hp]
  · refine iff_of_false (fun hdirty => hp ?_) hp
    change flatten StoreShard.dirty (firstDisk.flushShard byteCodec (shardIndex (bytes "k"))
      [bytes "k"] (fun _ => 1700000001000000000)).store p = true at hdirty
    rw [Disk.dirty_flushShard] at hdirty
    split_ifs at hdirty
    exact List.mem_singleton.1 ((dirty_firstDisk p).1 hdirty)

def slideOrders : Fin numShards → List GoString := Disk.ordersOf [slot (bytes "k")]

theorem along_slideRun (window : Int64) :
    StepSystem.Along (Disk.step byteCodec) Disk.WindowStep Disk.empty (slideRun window) := by
  have hkey : bytes "k" ≠ [] ∧ colon ∉ bytes "k" := by decide
  refine ⟨hkey, ?_, trivial, hkey, trivial⟩
  intro k
  have hk : (firstDisk.store.shards (shardIndex (bytes "k"))).dirty k = true ↔ _ :=
    dirty_firstDisk (shardIndex (bytes "k"), k)
  refine Iff.trans ?_ hk.symm
  simp [slot]

def slideItems (window : Int64) : List (GoString × Record) :=
  ((slideDisk window).close byteCodec slideOrders (fun _ _ => 1700000020000000000)).db.toList

theorem windows_reload_iff_slide :
    ∃ s, Store.load byteCodec (fun _ => 1700000030000000000) (slideItems hour) = some s ∧
      ∀ k, (s.getWindow k).Perm ((slideDisk hour).store.getWindow k) := by
  obtain ⟨s, hload, -, hkept⟩ := windows_reload_iff (run_slideRun hour) (along_slideRun hour)
    (fun i => Disk.ranges_ordersOf (dirty_slideDisk hour) i)
    (Visible.toList ((slideDisk hour).close byteCodec slideOrders
      (fun _ _ => 1700000020000000000)).db (fun _ => 1700000030000000000))
  have hnone (win : List Int64) (ts : Int64) (hwin : (win ++ [ts]).countP
      (fun t => t < ts - hour) = 0) (d : Disk UInt8) : ∀ t ∈ (win ++ [ts]).take
        ((win ++ [ts]).countP (fun t => t < ts - hour)), ¬ d.HasEvent (bytes "k") t := by
    rw [hwin, List.take_zero]
    exact fun _ ht => absurd ht List.not_mem_nil
  exact ⟨s, hload, hkept ⟨⟨by decide +kernel, hnone _ _ (by decide +kernel) _⟩, trivial, trivial,
    ⟨by decide +kernel, hnone _ _ (by decide +kernel) _⟩, trivial⟩⟩

theorem load_slideItems_isSome : (Store.load byteCodec (fun _ => 1700000030000000000)
    (slideItems 1000000000)).isSome = true := by
  decide +kernel

/-- The first event is flushed and then cut off by a call with a window of one second, which leaves
its record. -/
theorem trimmed_event_returns :
    ∃ d, StepSystem.run (Disk.step byteCodec) Disk.empty (slideRun 1000000000) = some d ∧
      StepSystem.Along (Disk.step byteCodec) Disk.WindowStep Disk.empty (slideRun 1000000000) ∧
      (∀ i, d.Ranges i (slideOrders i)) ∧ d.store.getWindow (bytes "k") = [1700000010000000000] ∧
      ∃ s, Store.load byteCodec (fun _ => 1700000030000000000)
          (d.close byteCodec slideOrders (fun _ _ => 1700000020000000000)).db.toList = some s ∧
        s.getWindow (bytes "k") = [1700000000000000000, 1700000010000000000] := by
  refine ⟨slideDisk 1000000000, run_slideRun _, along_slideRun _,
    fun i => Disk.ranges_ordersOf (dirty_slideDisk _) i, by decide +kernel, ?_⟩
  refine ⟨_, (Option.some_get load_slideItems_isSome).symm, ?_⟩
  decide +kernel

end Capacitor
