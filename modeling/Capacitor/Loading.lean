import Capacitor.Ledger
import Capacitor.Persistence
import Capacitor.StoreSpec

/-!
# What loading a record restores

`load` reads the kind of a record off its key. A counter or metric is written under a composite key
and is routed back by parsing that key: the loader takes the second part between colons, and
`getShardKey` takes the same part. Both are the user's key exactly when that key has no colon.
-/

namespace Capacitor

variable {V : Type*}

inductive CountKind where
  | counter
  | metricCount
  | metricSum
  deriving DecidableEq

namespace CountKind

def tag : CountKind → GoString
  | counter => bytes "c:"
  | metricCount => bytes "mc:"
  | metricSum => bytes "ms:"

def aggregateTag : CountKind → GoString
  | counter => []
  | metricCount => bytes "m:c:"
  | metricSum => bytes "m:s:"

def key (kind : CountKind) (key nodeID : GoString) : GoString := compositeKey kind.tag key nodeID

theorem exists_word (kind : CountKind) : ∃ word, colon ∉ word ∧ kind.tag = word ++ [colon] := by
  cases kind with
  | counter => exact ⟨bytes "c", by decide, by decide⟩
  | metricCount => exact ⟨bytes "mc", by decide, by decide⟩
  | metricSum => exact ⟨bytes "ms", by decide, by decide⟩

theorem exists_key_eq (kind : CountKind) (key nodeID : GoString) :
    ∃ word, colon ∉ word ∧ kind.key key nodeID = word ++ colon :: (key ++ colon :: nodeID) := by
  obtain ⟨word, hword, htag⟩ := kind.exists_word
  refine ⟨word, hword, ?_⟩
  unfold CountKind.key compositeKey
  rw [htag, List.append_assoc, List.singleton_append]

theorem colon_mem_key (kind : CountKind) (key nodeID : GoString) :
    colon ∈ kind.key key nodeID := by
  obtain ⟨word, _, hkey⟩ := kind.exists_key_eq key nodeID
  rw [hkey]
  simp

theorem shardIndex_key (kind : CountKind) {key : GoString} (hkey : colon ∉ key)
    (nodeID : GoString) : shardIndex (kind.key key nodeID) = shardIndex key := by
  obtain ⟨word, hword, hcomposite⟩ := kind.exists_key_eq key nodeID
  rw [hcomposite, shardIndex_append_colon hword hkey]

end CountKind

theorem loadedName_append_colon {a b : GoString} (ha : colon ∉ a) (hb : colon ∉ b)
    (rest : GoString) : loadedName (a ++ colon :: (b ++ colon :: rest)) = some b := by
  unfold loadedName
  rw [List.splitOn_append_cons_self_of_not_mem ha, List.splitOn_append_cons_self_of_not_mem hb]
  cases h : rest.splitOn colon with
  | nil => exact absurd h (List.splitOn_ne_nil _ _)
  | cons part parts => rfl

namespace CountKind

theorem loadedName_key (kind : CountKind) {key : GoString} (hkey : colon ∉ key)
    (nodeID : GoString) : loadedName (kind.key key nodeID) = some key := by
  obtain ⟨word, hword, hcomposite⟩ := kind.exists_key_eq key nodeID
  rw [hcomposite, loadedName_append_colon hword hkey]

theorem exists_loadedName_ne (kind : CountKind) {key : GoString} (hkey : colon ∈ key)
    (nodeID : GoString) : ∃ name, loadedName (kind.key key nodeID) = some name ∧ name ≠ key := by
  obtain ⟨word, hword, hcomposite⟩ := kind.exists_key_eq key nodeID
  obtain ⟨a, b, hab, ha⟩ := List.eq_append_cons_of_mem hkey
  refine ⟨a, ?_, ?_⟩
  · rw [hcomposite, hab, List.append_assoc, List.cons_append, loadedName_append_colon hword ha]
  · intro heq
    have hlength := congrArg List.length (heq.trans hab)
    rw [List.length_append, List.length_cons] at hlength
    omega

end CountKind

/-- What `load` takes a record for, by its key. -/
inductive RecordKind where
  | watermark
  | count (kind : CountKind)
  | window
  | entry

def recordKind (key : GoString) : RecordKind :=
  if (bytes "meta:seq:").isPrefixOf key then .watermark
  else if (bytes "c:").isPrefixOf key then .count .counter
  else if (bytes "mc:").isPrefixOf key then .count .metricCount
  else if (bytes "ms:").isPrefixOf key then .count .metricSum
  else if (bytes "sw:").isPrefixOf key then .window
  else .entry

theorem isPrefixOf_of_not_mem {p key : GoString} (hp : colon ∈ p) (hkey : colon ∉ key) :
    p.isPrefixOf key = false := by
  rw [Bool.eq_false_iff]
  intro h
  exact hkey ((List.isPrefixOf_iff_prefix.1 h).subset hp)

theorem recordKind_of_not_mem {key : GoString} (hkey : colon ∉ key) : recordKind key = .entry := by
  have hno (p : GoString) (hp : colon ∈ p) : p.isPrefixOf key = false :=
    isPrefixOf_of_not_mem hp hkey
  unfold recordKind
  simp only [hno _ (by decide : colon ∈ bytes "meta:seq:"), hno _ (by decide : colon ∈ bytes "c:"),
    hno _ (by decide : colon ∈ bytes "mc:"), hno _ (by decide : colon ∈ bytes "ms:"),
    hno _ (by decide : colon ∈ bytes "sw:"), Bool.false_eq_true, if_false]

@[simp] theorem recordKind_key (kind : CountKind) (key nodeID : GoString) :
    recordKind (kind.key key nodeID) = .count kind := by
  cases kind <;> rfl

theorem CountKind.key_inj {kind kind' : CountKind} {key key' nodeID nodeID' : GoString}
    (hkey : colon ∉ key) (hkey' : colon ∉ key')
    (h : kind.key key nodeID = kind'.key key' nodeID') : kind = kind' ∧ key = key' := by
  constructor
  · have hkind := congrArg recordKind h
    rw [recordKind_key, recordKind_key] at hkind
    exact RecordKind.count.inj hkind
  · have hname := congrArg loadedName h
    rw [kind.loadedName_key hkey, kind'.loadedName_key hkey'] at hname
    exact Option.some.inj hname

theorem StoreShard.loadRecord_eq [Rounding] (c : DiskCodec V) (shard : StoreShard V)
    (key val : GoString) (now : Int64) : shard.loadRecord c key val now =
      match recordKind key with
      | .watermark =>
          { shard with
            peerSeqs := Function.update shard.peerSeqs (key.drop 9) (some (bigEndianUint64 val)) }
      | .count kind => shard.loadCount kind.aggregateTag key (c.float64FromBytes val)
      | .window => shard.loadWindow key
      | .entry => shard.loadEntry key now (c.unmarshal val) := by
  unfold loadRecord recordKind
  split_ifs <;> rfl

theorem StoreShard.exists_loadWindow (shard : StoreShard V) (key : GoString) :
    ∃ windows, shard.loadWindow key = { shard with windows := windows } := by
  unfold loadWindow
  split
  · exact ⟨_, rfl⟩
  · exact ⟨shard.windows, rfl⟩

theorem StoreShard.exists_loadEntry (shard : StoreShard V) (key : GoString) (now : Int64)
    (v : Option (ValWithTS V)) :
    ∃ cache, shard.loadEntry key now v = { shard with cache := cache } := by
  unfold loadEntry
  split
  · split_ifs
    · exact ⟨shard.cache, rfl⟩
    · exact ⟨_, rfl⟩
  · exact ⟨shard.cache, rfl⟩

theorem StoreShard.peerSeqs_loadRecord (c : DiskCodec V) (shard : StoreShard V)
    {key val : GoString} {now : Int64} {nodeID : GoString} {n : ℕ}
    (h : (shard.loadRecord c key val now).peerSeqs nodeID = some n) :
    shard.peerSeqs nodeID = some n ∨ key = peerSeqKey nodeID := by
  rw [loadRecord_eq] at h
  cases hkind : recordKind key with
  | watermark =>
      rw [hkind] at h
      obtain ⟨id, rfl⟩ : bytes "meta:seq:" <+: key := by
        unfold recordKind at hkind
        split_ifs at hkind with hmark
        exact List.isPrefixOf_iff_prefix.1 hmark
      have hdrop : (bytes "meta:seq:" ++ id).drop 9 = id := rfl
      by_cases hid : nodeID = id
      · exact Or.inr (by rw [hid]; rfl)
      · simp only [hdrop, Function.update_of_ne hid] at h
        exact Or.inl h
  | count kind =>
      rw [hkind] at h
      exact Or.inl h
  | window =>
      obtain ⟨windows, hload⟩ := shard.exists_loadWindow key
      simp only [hkind, hload] at h
      exact Or.inl h
  | entry =>
      obtain ⟨cache, hload⟩ := shard.exists_loadEntry key now (c.unmarshal val)
      simp only [hkind, hload] at h
      exact Or.inl h

/-- A count is put back and added to an aggregate. -/
def Replicated.restore [Rounding] (R : Replicated V) (p a : Fin numShards × GoString) (v : ℚ) :
    Replicated V :=
  { R with
    counts := Function.update R.counts p (some v)
    aggregateCounts := addTo R.aggregateCounts a v }

namespace Store

variable (c : DiskCodec V) (now : GoString → Int64) (s : Store V)

theorem replicated_loadRecord [Rounding] {kind : CountKind} {w : GoString × Record}
    {name : GoString} (hkind : recordKind w.1 = .count kind) (hname : loadedName w.1 = some name) :
    (s.loadRecord c now w).replicated =
      s.replicated.restore (slot w.1) (shardIndex w.1, kind.aggregateTag ++ name)
        (c.float64FromBytes w.2.data) := by
  unfold loadRecord
  simp only [StoreShard.loadRecord_eq, hkind]
  apply Replicated.ext
  · exact s.flatten_frame StoreShard.cache w.1 _ (fun _ => rfl)
  · exact s.flatten_update StoreShard.counts w.1 _ w.1 _ rfl
  · apply s.flatten_update StoreShard.aggregateCounts w.1 _ (kind.aggregateTag ++ name)
    unfold StoreShard.loadCount
    rw [hname]
    rfl
  · exact s.flatten_frame StoreShard.windows w.1 _ (fun _ => rfl)

end Store

/-- The loader puts every count of a key and node back where the operations on that key keep it, and
adds it to the aggregate of that key. -/
def Routed [Rounding] (c : DiskCodec V) (key nodeID : GoString) : Prop :=
  ∀ (kind : CountKind) (now : GoString → Int64) (s : Store V) (r : Record),
    (s.loadRecord c now (kind.key key nodeID, r)).replicated =
      s.replicated.restore (shardIndex key, kind.key key nodeID)
        (shardIndex key, kind.aggregateTag ++ key) (c.float64FromBytes r.data)

theorem routed_iff [Rounding] (c : DiskCodec V) (key nodeID : GoString) :
    Routed c key nodeID ↔ colon ∉ key := by
  constructor
  · intro h hmem
    obtain ⟨name, hname, hne⟩ := CountKind.counter.exists_loadedName_ne hmem nodeID
    have hload := h .counter (fun _ => 0) Store.newStore ⟨[], none⟩
    rw [Store.replicated_loadRecord c _ _ (recordKind_key _ key nodeID) hname] at hload
    have hat := congrFun (congrArg Replicated.aggregateCounts hload)
      (shardIndex (CountKind.counter.key key nodeID), name)
    have hother : (shardIndex (CountKind.counter.key key nodeID), name) ≠ (shardIndex key, key) :=
      fun heq => hne (congrArg Prod.snd heq)
    simp only [Replicated.restore, addTo, CountKind.aggregateTag, List.nil_append,
      Function.update_self, Function.update_of_ne hother] at hat
    cases hat
  · intro h kind now s r
    rw [s.replicated_loadRecord c now (recordKind_key kind key nodeID)
      (kind.loadedName_key h nodeID)]
    unfold Store.slot
    rw [kind.shardIndex_key h nodeID]

section Views

variable (c : DiskCodec V) (now : GoString → Int64)

def loadedEntry (w : GoString × Record) : Option (ValWithTS V) :=
  match recordKind w.1 with
  | .entry => (c.unmarshal w.2.data).filter (fun e => !e.expired (now w.1))
  | _ => none

def loadedCount (w : GoString × Record) : Option ℚ :=
  match recordKind w.1 with
  | .count _ => some (c.float64FromBytes w.2.data)
  | _ => none

theorem cache_loadRecord (shard : StoreShard V) (w : GoString × Record) (k : GoString) :
    (shard.loadRecord c w.1 w.2.data (now w.1)).cache k =
      if k = w.1 then (loadedEntry c now w).or (shard.cache k) else shard.cache k := by
  rw [StoreShard.loadRecord_eq]
  unfold loadedEntry
  cases recordKind w.1 with
  | watermark => simp
  | count kind => simp [StoreShard.loadCount]
  | window =>
      obtain ⟨windows, hload⟩ := shard.exists_loadWindow w.1
      simp [hload]
  | entry =>
      unfold StoreShard.loadEntry
      cases c.unmarshal w.2.data with
      | none => simp
      | some e =>
          cases he : e.expired (now w.1) with
          | true => simp [Option.filter, he]
          | false => simp [Option.filter, he, Function.update_apply]

theorem counts_loadRecord (shard : StoreShard V) (w : GoString × Record) (k : GoString) :
    (shard.loadRecord c w.1 w.2.data (now w.1)).counts k =
      if k = w.1 then (loadedCount c w).or (shard.counts k) else shard.counts k := by
  rw [StoreShard.loadRecord_eq]
  unfold loadedCount
  cases recordKind w.1 with
  | watermark => simp
  | count kind => simp [StoreShard.loadCount, Function.update_apply]
  | window =>
      obtain ⟨windows, hload⟩ := shard.exists_loadWindow w.1
      simp [hload]
  | entry =>
      obtain ⟨cache, hload⟩ := shard.exists_loadEntry w.1 (now w.1) (c.unmarshal w.2.data)
      simp [hload]

variable {c now}

section Map

variable {α : Type*} {view : StoreShard V → GoString → Option α}
  {loaded : GoString × Record → Option α}
  (hview : ∀ shard w k, view (shard.loadRecord c w.1 w.2.data (now w.1)) k =
    if k = w.1 then (loaded w).or (view shard k) else view shard k)

include hview

theorem view_loadRecord (s : Store V) (w : GoString × Record) (i : Fin numShards) (k : GoString) :
    view ((s.loadRecord c now w).shards i) k =
      if k = w.1 ∧ i = shardIndex w.1 then (loaded w).or (view (s.shards i) k)
      else view (s.shards i) k := by
  unfold Store.loadRecord
  rw [Store.shards_modifyShard]
  by_cases hi : i = shardIndex w.1
  · subst i
    simp only [if_true, hview, and_true]
  · simp only [hi, and_false, if_false]

variable {items : List (GoString × Record)}

theorem view_loadRecord_of_ne (s : Store V) (w : GoString × Record) (k : GoString) (hk : k ≠ w.1) :
    (fun i => view ((s.loadRecord c now w).shards i) k) = fun i => view (s.shards i) k := by
  funext i
  rw [view_loadRecord hview, if_neg (fun h => hk h.1)]

theorem view_foldl_of_mem (hnew : ∀ k, view newStoreShard k = none)
    (hdistinct : items.Pairwise (fun w w' => w.1 ≠ w'.1)) {w : GoString × Record} (hw : w ∈ items)
    (i : Fin numShards) :
    view ((items.foldl (Store.loadRecord c now) Store.newStore).shards i) w.1 =
      if i = shardIndex w.1 then loaded w else none := by
  have hown (s : Store V) (w : GoString × Record) :
      (fun i => view ((s.loadRecord c now w).shards i) w.1) = fun i =>
        if i = shardIndex w.1 then (loaded w).or (view (s.shards i) w.1)
        else view (s.shards i) w.1 := by
    funext i
    rw [view_loadRecord hview]
    simp only [true_and]
  have h := congrFun (WriteBatch.scan_of_mem (Store.loadRecord c now)
    (fun s k i => view (s.shards i) k) (view_loadRecord_of_ne hview)
    (fun w old i => if i = shardIndex w.1 then (loaded w).or (old i) else old i)
    hown Store.newStore hdistinct hw) i
  have hempty (k : GoString) : view (Store.newStore.shards i) k = none := hnew k
  simpa only [hempty, Option.or_none] using h

/-- A map of the store that every record changes at most at its own key holds, after a load, what
the records restore, each in the shard of its key. -/
theorem flatten_foldl_loadRecord (hnew : ∀ k, view newStoreShard k = none)
    (hdistinct : items.Pairwise (fun w w' => w.1 ≠ w'.1)) (p : Fin numShards × GoString) (x : α) :
    Store.flatten view (items.foldl (Store.loadRecord c now) Store.newStore) p = some x ↔
      ∃ w ∈ items, Store.slot w.1 = p ∧ loaded w = some x := by
  obtain ⟨i, k⟩ := p
  constructor
  · intro h
    by_cases hk : ∃ w ∈ items, w.1 = k
    · obtain ⟨w, hw, rfl⟩ := hk
      have hvalue := (view_foldl_of_mem hview hnew hdistinct hw i).symm.trans h
      split_ifs at hvalue with hi
      exact ⟨w, hw, by rw [hi]; rfl, hvalue⟩
    · push Not at hk
      have hnone := congrFun (WriteBatch.scan_of_not_mem (Store.loadRecord c now)
        (fun s k i => view (s.shards i) k) (view_loadRecord_of_ne hview) Store.newStore hk) i
      have hempty : view (Store.newStore.shards i) k = none := hnew k
      cases (h.symm.trans hnone).trans hempty
  · rintro ⟨w, hw, hp, hloaded⟩
    cases hp
    have hvalue := view_foldl_of_mem hview hnew hdistinct hw (shardIndex w.1)
    rw [if_pos rfl, hloaded] at hvalue
    exact hvalue

end Map
end Views

theorem Store.exists_of_flatten_foldl {c : DiskCodec V} {now : GoString → Int64} {α : Type*}
    {view : StoreShard V → GoString → Option α} {gives : GoString → GoString → Prop}
    (hnew : ∀ k, view newStoreShard k = none)
    (hload : ∀ shard key val t k, view (StoreShard.loadRecord c shard key val t) k ≠ none →
      view shard k ≠ none ∨ gives key k)
    {items : List (GoString × Record)} {p : Fin numShards × GoString}
    (h : flatten view (items.foldl (loadRecord c now) newStore) p ≠ none) :
    ∃ w ∈ items, shardIndex w.1 = p.1 ∧ gives w.1 p.2 := by
  induction items using List.reverseRecOn with
  | nil => exact absurd (hnew p.2) h
  | append_singleton items w ih =>
      rw [List.foldl_append, List.foldl_cons, List.foldl_nil] at h
      have hmore (hold : flatten view (items.foldl (loadRecord c now) newStore) p ≠ none) :
          ∃ w' ∈ items ++ [w], shardIndex w'.1 = p.1 ∧ gives w'.1 p.2 := by
        obtain ⟨w', hw', hgives⟩ := ih hold
        exact ⟨w', List.mem_append_left _ hw', hgives⟩
      change view (((items.foldl (loadRecord c now) newStore).loadRecord c now w).shards p.1) p.2 ≠
        none at h
      unfold loadRecord at h
      rw [shards_modifyShard] at h
      split_ifs at h with hi
      · rcases hload _ _ _ _ _ h with hold | hgives
        · exact hmore hold
        · exact ⟨w, List.mem_append_right _ (List.mem_singleton_self w), hi.symm, hgives⟩
      · exact hmore h

section Totals

/-- The aggregate that `load` adds a count to. -/
def owner (p : Fin numShards × GoString) : Option (Fin numShards × GoString) :=
  match recordKind p.2 with
  | .count kind => (loadedName p.2).map (fun name => (p.1, kind.aggregateTag ++ name))
  | _ => none

/-- Every aggregate is the sum of the counts that `load` would add to it. -/
def Replicated.Balanced (R : Replicated V) : Prop :=
  Ledger.Balanced owner R.counts R.aggregateCounts

theorem balanced_newStore : (Store.newStore : Store V).replicated.Balanced :=
  Ledger.balanced_empty owner

theorem addTo_getD {K : Type*} [DecidableEq K] (m : K → Option ℚ) (k j : K) (d : ℚ) :
    (addTo m k d j).getD 0 = (m j).getD 0 + if k = j then d else 0 := by
  unfold addTo
  by_cases h : k = j
  · subst j
    rw [Function.update_self, Option.getD_some, if_pos rfl, Rounding.round_unrounded]
  · rw [Function.update_of_ne (Ne.symm h), if_neg h, add_zero]

theorem StoreShard.totals_loadRecord (c : DiskCodec V) (shard : StoreShard V) {key : GoString}
    (hkind : ∀ kind, recordKind key ≠ .count kind) (val : GoString) (now : Int64) :
    (shard.loadRecord c key val now).counts = shard.counts ∧
      (shard.loadRecord c key val now).aggregateCounts = shard.aggregateCounts := by
  rw [loadRecord_eq]
  cases hk : recordKind key with
  | watermark => exact ⟨rfl, rfl⟩
  | count kind => exact absurd hk (hkind kind)
  | window =>
      obtain ⟨windows, hload⟩ := shard.exists_loadWindow key
      rw [hload]
      exact ⟨rfl, rfl⟩
  | entry =>
      obtain ⟨cache, hload⟩ := shard.exists_loadEntry key now (c.unmarshal val)
      rw [hload]
      exact ⟨rfl, rfl⟩

variable (c : DiskCodec V) (now : GoString → Int64)

theorem Store.balanced_loadRecord {s : Store V} (h : s.replicated.Balanced) (w : GoString × Record)
    (hfresh : s.replicated.counts (Store.slot w.1) = none) :
    (s.loadRecord c now w).replicated.Balanced := by
  by_cases hkind : ∃ kind, recordKind w.1 = .count kind
  · obtain ⟨kind, hkind⟩ := hkind
    have hcounts : (s.loadRecord c now w).replicated.counts = Function.update s.replicated.counts
        (Store.slot w.1) (some (c.float64FromBytes w.2.data)) := by
      apply s.flatten_update StoreShard.counts w.1 _ w.1
      rw [StoreShard.loadRecord_eq, hkind]
      rfl
    unfold Replicated.Balanced
    rw [hcounts]
    apply Ledger.Balanced.update h
    intro a
    rw [hfresh, Option.getD_none, sub_zero]
    cases hname : loadedName w.1 with
    | none =>
        have hframe : (s.loadRecord c now w).replicated.aggregateCounts =
            s.replicated.aggregateCounts := by
          apply s.flatten_frame StoreShard.aggregateCounts
          intro shard
          rw [StoreShard.loadRecord_eq, hkind]
          simp only [StoreShard.loadCount, hname]
        simp [hframe, owner, Store.slot, hkind, hname]
    | some name =>
        rw [s.replicated_loadRecord c now hkind hname]
        simp only [Replicated.restore, addTo_getD, owner, Store.slot, hkind, hname, Option.map_some,
          Option.some.injEq]
  · push Not at hkind
    have hcounts : (s.loadRecord c now w).replicated.counts = s.replicated.counts :=
      s.flatten_frame StoreShard.counts w.1 _
        (fun shard => (shard.totals_loadRecord c hkind _ _).1)
    have htotals : (s.loadRecord c now w).replicated.aggregateCounts =
        s.replicated.aggregateCounts :=
      s.flatten_frame StoreShard.aggregateCounts w.1 _
        (fun shard => (shard.totals_loadRecord c hkind _ _).2)
    unfold Replicated.Balanced
    rw [hcounts, htotals]
    exact h

theorem Store.counts_loadRecord_ne (s : Store V) (w : GoString × Record)
    {p : Fin numShards × GoString} (hp : p.2 ≠ w.1) :
    (s.loadRecord c now w).replicated.counts p = s.replicated.counts p := by
  change ((s.loadRecord c now w).shards p.1).counts p.2 = (s.shards p.1).counts p.2
  unfold Store.loadRecord
  rw [Store.shards_modifyShard]
  split_ifs
  · rw [counts_loadRecord, if_neg hp]
  · rfl

/-- The aggregates that a load rebuilds are the sums of the counts it restores. -/
theorem Store.balanced_foldl_loadRecord {s : Store V} (h : s.replicated.Balanced)
    {items : List (GoString × Record)} (hdistinct : items.Pairwise (fun w w' => w.1 ≠ w'.1))
    (hfresh : ∀ w ∈ items, s.replicated.counts (Store.slot w.1) = none) :
    (items.foldl (Store.loadRecord c now) s).replicated.Balanced := by
  induction items generalizing s with
  | nil => exact h
  | cons w items ih =>
      obtain ⟨hhead, htail⟩ := List.pairwise_cons.1 hdistinct
      apply ih (Store.balanced_loadRecord c now h w (hfresh w List.mem_cons_self)) htail
      intro w' hw'
      rw [s.counts_loadRecord_ne c now w (hhead w' hw').symm]
      exact hfresh w' (List.mem_cons_of_mem _ hw')

end Totals
end Capacitor
