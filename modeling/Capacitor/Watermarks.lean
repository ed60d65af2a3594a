import Capacitor.Calls
import Capacitor.Counters
import Capacitor.Wire

/-!
# Watermarks

The watermark a node keeps for a peer is the greatest number among the entries it accepted that name
the peer, and `le_getPeerSeq_deliverAll_iff` says just that. Two things follow. A dropped entry is
covered by the watermark as soon as a later one is accepted. And the entries of `Set` and `Delete`,
which name no node, raise the watermark of the empty name in place of their author's.
-/

namespace Capacitor

variable {V : Type*}

open Store

theorem le_getPeerSeq_applyRemoteEntry_iff (mp : Msgpack V) (r : Replica V) (wall : Int64)
    (e : LogEntry) (nodeID : GoString) (n : ℕ) :
    n ≤ (applyRemoteEntry mp r wall e).store.getPeerSeq nodeID ↔
      n ≤ r.store.getPeerSeq nodeID ∨
        r.hlc.smash wall e.ts = false ∧ e.nodeID = nodeID ∧ n ≤ e.seq := by
  cases hs : r.hlc.smash wall e.ts with
  | true =>
      rw [applyRemoteEntry_of_smash hs]
      simp
  | false =>
      have hop : (applyOp mp r.store e).getPeerSeq nodeID = r.store.getPeerSeq nodeID := by
        rw [getPeerSeq_eq, watermarks_applyOp, ← getPeerSeq_eq]
      rw [applyRemoteEntry_of_accept hs, getPeerSeq_updatePeerSeq]
      by_cases hid : nodeID = e.nodeID
      · subst hid
        simp [hop]
      · simp [hid, Ne.symm hid, hop]

/-- The watermark of a name is the greatest number of an accepted entry with that name. -/
theorem le_getPeerSeq_deliverAll_iff (mp : Msgpack V) (r : Replica V)
    (ds : List (Int64 × LogEntry)) (nodeID : GoString) (n : ℕ) :
    n ≤ (deliverAll mp r ds).store.getPeerSeq nodeID ↔
      n ≤ r.store.getPeerSeq nodeID ∨
        ∃ d ∈ ds, r.hlc.smash d.1 d.2.ts = false ∧ d.2.nodeID = nodeID ∧ n ≤ d.2.seq := by
  induction ds generalizing r with
  | nil => simp [deliverAll]
  | cons d ds ih =>
      change n ≤ (deliverAll mp (applyRemoteEntry mp r d.1 d.2) ds).store.getPeerSeq nodeID ↔ _
      rw [ih, le_getPeerSeq_applyRemoteEntry_iff, or_assoc]
      simp only [smash_applyRemoteEntry, List.mem_cons, exists_eq_or_imp]

section Attribution

def Origin.call (mp : Msgpack V) (nodeID : GoString) (o : Origin V) (c : ApiCall V) : Origin V :=
  let (replica, entry) := o.replica.call mp nodeID c
  ⟨replica, entry.elim o.log (appendEntry o.log)⟩

def Origin.callAll (mp : Msgpack V) (nodeID : GoString) (o : Origin V) (calls : List (ApiCall V)) :
    Origin V :=
  calls.foldl (Origin.call mp nodeID) o

/-- The call reaches the delta log: only a `Set` whose value cannot be serialised does not. -/
def ApiCall.appends (mp : Msgpack V) : ApiCall V → Bool
  | set _ _ _ value _ => (mp.marshal value).isSome
  | _ => true

def ApiCall.isRegister : ApiCall V → Bool
  | set _ _ _ _ _ => true
  | delete _ _ _ => true
  | _ => false

def appending (mp : Msgpack V) (calls : List (ApiCall V)) : List (ApiCall V) :=
  calls.filter (ApiCall.appends mp)

/-- The name that the entry of a call carries. -/
def ApiCall.author (nodeID : GoString) (c : ApiCall V) : GoString :=
  if c.isRegister then [] else nodeID

theorem call_entry (mp : Msgpack V) (nodeID : GoString) (r : Replica V) (c : ApiCall V) :
    c.appends mp = false ∧ (r.call mp nodeID c).2 = none ∨
      c.appends mp = true ∧ ∃ e, (r.call mp nodeID c).2 = some e ∧ e.nodeID = c.author nodeID := by
  cases c with
  | set wall bornAt key value ttl =>
      cases hm : mp.marshal value with
      | none => exact Or.inl (by simp [ApiCall.appends, Replica.call, Replica.set, hm])
      | some bin =>
          exact Or.inr ⟨by simp [ApiCall.appends, hm],
            setLogEntry (r.hlc.now wall).2 bornAt key bin ttl,
            by simp [Replica.call, Replica.set, hm], rfl⟩
  | delete wall bornAt key => exact Or.inr ⟨rfl, _, rfl, rfl⟩
  | incrementBy wall bornAt key delta => exact Or.inr ⟨rfl, _, rfl, rfl⟩
  | incrementMetric wall key delta => exact Or.inr ⟨rfl, _, rfl, rfl⟩
  | incrementSlidingWindow wall now key window => exact Or.inr ⟨rfl, _, rfl, rfl⟩

theorem log_callAll (mp : Msgpack V) (nodeID : GoString) (r : Replica V)
    (calls : List (ApiCall V)) :
    ((Origin.mk r []).callAll mp nodeID calls).log.map (fun e => (e.nodeID, e.seq)) =
      (appending mp calls).mapIdx (fun i c => (c.author nodeID, i + 1)) := by
  induction calls using List.reverseRecOn with
  | nil => rfl
  | append_singleton calls c ih =>
      have hlen := congrArg List.length ih
      simp only [List.length_map, List.length_mapIdx] at hlen
      simp only [Origin.callAll, List.foldl_append, List.foldl_cons, List.foldl_nil] at ih hlen ⊢
      simp only [appending, List.filter_append] at ih hlen ⊢
      rcases call_entry mp nodeID (calls.foldl (Origin.call mp nodeID) ⟨r, []⟩).replica c with
        ⟨happ, hentry⟩ | ⟨happ, e, hentry, hauthor⟩
      · simp [Origin.call, hentry, happ, ih]
      · simp [Origin.call, hentry, happ, appendEntry, ih, hauthor, hlen, List.mapIdx_append]

section WholeLog

variable {mp : Msgpack V} {nodeID : GoString} {r₀ r : Replica V} {calls : List (ApiCall V)}
  {ds : List (Int64 × LogEntry)}

theorem le_getPeerSeq_log_iff
    (hds : ds.map Prod.snd = ((Origin.mk r₀ []).callAll mp nodeID calls).log)
    (hacc : ∀ d ∈ ds, r.hlc.smash d.1 d.2.ts = false) (name : GoString) (n : ℕ) :
    n ≤ (deliverAll mp r ds).store.getPeerSeq name ↔
      n ≤ r.store.getPeerSeq name ∨
        ∃ i c, (appending mp calls)[i]? = some c ∧ c.author nodeID = name ∧ n ≤ i + 1 := by
  rw [le_getPeerSeq_deliverAll_iff]
  have hlog := log_callAll mp nodeID r₀ calls
  rw [← hds, List.map_map] at hlog
  refine or_congr_right ⟨?_, ?_⟩
  · rintro ⟨d, hd, _, hname, hn⟩
    have hmem := List.mem_map_of_mem (f := (fun e => (e.nodeID, e.seq)) ∘ Prod.snd) hd
    rw [hlog, List.mem_iff_getElem?] at hmem
    obtain ⟨i, hi⟩ := hmem
    rw [List.getElem?_mapIdx] at hi
    obtain ⟨c, hc, hpair⟩ := Option.map_eq_some_iff.1 hi
    obtain ⟨hauthor, hseq⟩ := Prod.mk.inj hpair
    exact ⟨i, c, hc, hauthor.trans hname, hn.trans_eq hseq.symm⟩
  · rintro ⟨i, c, hc, hname, hn⟩
    have hi : ((appending mp calls).mapIdx (fun i c => (c.author nodeID, i + 1)))[i]? =
        some (c.author nodeID, i + 1) := by
      rw [List.getElem?_mapIdx, hc, Option.map_some]
    rw [← hlog, List.getElem?_map] at hi
    obtain ⟨d, hd, hpair⟩ := Option.map_eq_some_iff.1 hi
    obtain ⟨hauthor, hseq⟩ := Prod.mk.inj hpair
    have hmem := List.mem_of_getElem? hd
    exact ⟨d, hmem, hacc d hmem, hauthor.trans hname, hn.trans_eq hseq.symm⟩

theorem length_log (hds : ds.map Prod.snd = ((Origin.mk r₀ []).callAll mp nodeID calls).log) :
    (appending mp calls).length = ds.length := by
  have h := congrArg List.length (log_callAll mp nodeID r₀ calls)
  rw [← hds] at h
  simpa using h.symm

theorem getPeerSeq_log_eq_self_iff
    (hds : ds.map Prod.snd = ((Origin.mk r₀ []).callAll mp nodeID calls).log)
    (hacc : ∀ d ∈ ds, r.hlc.smash d.1 d.2.ts = false) (name : GoString) :
    (deliverAll mp r ds).store.getPeerSeq name = r.store.getPeerSeq name ↔
      ∀ i c, (appending mp calls)[i]? = some c → c.author nodeID = name →
        i + 1 ≤ r.store.getPeerSeq name := by
  have hle := le_getPeerSeq_log_iff hds hacc name
  constructor
  · intro heq i c hc hname
    rw [← heq, hle]
    exact Or.inr ⟨i, c, hc, hname, le_rfl⟩
  · intro hall
    apply le_antisymm
    · rcases (hle _).1 le_rfl with h | ⟨i, c, hc, hname, hn⟩
      · exact h
      · exact hn.trans (hall i c hc hname)
    · exact (hle _).2 (Or.inl le_rfl)

theorem getPeerSeq_log_eq_length_iff
    (hds : ds.map Prod.snd = ((Origin.mk r₀ []).callAll mp nodeID calls).log)
    (hacc : ∀ d ∈ ds, r.hlc.smash d.1 d.2.ts = false) (name : GoString) :
    (deliverAll mp r ds).store.getPeerSeq name = ds.length ↔
      r.store.getPeerSeq name ≤ ds.length ∧ (r.store.getPeerSeq name = ds.length ∨
        ∀ c, (appending mp calls).getLast? = some c → c.author nodeID = name) := by
  have hle := le_getPeerSeq_log_iff hds hacc name
  have hlen := length_log hds
  constructor
  · intro heq
    have hold : r.store.getPeerSeq name ≤ ds.length := heq ▸ (hle _).2 (Or.inl le_rfl)
    refine ⟨hold, ?_⟩
    rcases (hle _).1 heq.ge with h | ⟨i, c, hc, hname, hn⟩
    · exact Or.inl (le_antisymm hold h)
    · right
      intro c' hlast
      have hi := (List.getElem?_eq_some_iff.1 hc).1
      have hpos : i = (appending mp calls).length - 1 := by omega
      rw [List.getLast?_eq_getElem?, ← hpos, hc] at hlast
      rw [← Option.some.inj hlast]
      exact hname
  · rintro ⟨hold, hcase⟩
    apply le_antisymm
    · rcases (hle _).1 le_rfl with h | ⟨i, c, hc, _, hn⟩
      · exact h.trans hold
      · have hi := (List.getElem?_eq_some_iff.1 hc).1
        omega
    · rw [hle]
      rcases hcase with h | hlast
      · exact Or.inl h.ge
      · cases hc : (appending mp calls).getLast? with
        | none =>
            rw [List.getLast?_eq_none_iff] at hc
            rw [hc, List.length_nil] at hlen
            exact Or.inl (by omega)
        | some c =>
            refine Or.inr ⟨(appending mp calls).length - 1, c, ?_, hlast c hc, by omega⟩
            rw [← List.getLast?_eq_getElem?, hc]

end WholeLog

theorem author_eq_self_iff {nodeID : GoString} (hid : nodeID ≠ []) (c : ApiCall V) :
    c.author nodeID = nodeID ↔ c.isRegister = false := by
  unfold ApiCall.author
  split_ifs with h
  · simp [h, Ne.symm hid]
  · simp [h]

theorem author_eq_nil_iff {nodeID : GoString} (hid : nodeID ≠ []) (c : ApiCall V) :
    c.author nodeID = [] ↔ c.isRegister = true := by
  unfold ApiCall.author
  split_ifs with h
  · simp [h]
  · simp [h, hid]

theorem author_eq_or (nodeID : GoString) (c : ApiCall V) :
    c.author nodeID = [] ∨ c.author nodeID = nodeID := by
  unfold ApiCall.author
  split_ifs
  · exact Or.inl rfl
  · exact Or.inr rfl

/-- A peer that applied the whole log has the number of the last entry as the author's watermark,
and no other watermark moved, exactly when the writes of the cache, which name no node, do not
show: their numbers do not exceed the watermark of the empty name, and the last entry is not one of
them. -/
theorem attribution_iff (mp : Msgpack V) (nodeID : GoString) (r₀ r : Replica V)
    (calls : List (ApiCall V)) (ds : List (Int64 × LogEntry))
    (hds : ds.map Prod.snd = ((Origin.mk r₀ []).callAll mp nodeID calls).log)
    (hacc : ∀ d ∈ ds, r.hlc.smash d.1 d.2.ts = false) :
    ((deliverAll mp r ds).store.getPeerSeq nodeID = ds.length ∧
        ∀ name, name ≠ nodeID →
          (deliverAll mp r ds).store.getPeerSeq name = r.store.getPeerSeq name) ↔
      r.store.getPeerSeq nodeID ≤ ds.length ∧
        (nodeID = [] ∨
          (r.store.getPeerSeq nodeID = ds.length ∨
            ∀ c, (appending mp calls).getLast? = some c → c.isRegister = false) ∧
          ∀ i c, (appending mp calls)[i]? = some c → c.isRegister = true →
            i + 1 ≤ r.store.getPeerSeq []) := by
  rw [getPeerSeq_log_eq_length_iff hds hacc, and_assoc]
  refine and_congr_right (fun _ => ?_)
  simp only [getPeerSeq_log_eq_self_iff hds hacc]
  by_cases hid : nodeID = []
  · subst hid
    have hauthor (c : ApiCall V) : c.author [] = [] := (author_eq_or [] c).elim id id
    simp only [hauthor, implies_true, or_true, true_and, true_or, iff_true]
    intro name hname i c _ hc
    exact absurd hc.symm hname
  · simp only [author_eq_self_iff hid, hid, false_or]
    refine and_congr_right (fun _ => ⟨?_, ?_⟩)
    · intro h i c hc hreg
      exact h [] (Ne.symm hid) i c hc ((author_eq_nil_iff hid c).2 hreg)
    · intro h name hname i c hc hauthor
      rcases author_eq_or nodeID c with hnil | hself
      · obtain rfl := hauthor.symm.trans hnil
        exact h i c hc ((author_eq_nil_iff hid c).1 hnil)
      · exact absurd (hauthor.symm.trans hself) hname

def countingCalls : List (ApiCall UInt8) :=
  [.incrementBy 20 20 (bytes "k") 1, .incrementMetric 20 (bytes "m") 2]

def writingCalls : List (ApiCall UInt8) := [.set 20 20 (bytes "k") (some 7) 0]

def logOf (calls : List (ApiCall UInt8)) : List LogEntry :=
  ((Origin.mk ⟨Store.newStore, newHLC 10⟩ []).callAll byteMsgpack (bytes "a") calls).log

def peerOf (calls : List (ApiCall UInt8)) : Replica UInt8 :=
  deliverAll byteMsgpack ⟨Store.newStore, newHLC 10⟩ ((logOf calls).map (fun e => (30, e)))

theorem attribution_iff_counting :
    (peerOf countingCalls).store.getPeerSeq (bytes "a") = 2 ∧
      ∀ name, name ≠ bytes "a" → (peerOf countingCalls).store.getPeerSeq name = 0 := by
  apply (attribution_iff byteMsgpack (bytes "a") ⟨Store.newStore, newHLC 10⟩
    ⟨Store.newStore, newHLC 10⟩ countingCalls ((logOf countingCalls).map (fun e => (30, e)))
    (by simp [logOf]) (by decide +kernel)).2
  refine ⟨by decide +kernel, Or.inr ⟨Or.inr ?_, ?_⟩⟩
  · intro c hc
    cases hc
    rfl
  · intro i c hc hreg
    rcases i with _ | _ | i
    · cases hc
      cases hreg
    · cases hc
      cases hreg
    · cases hc

/-- The entry of a `Set` raises the watermark of the empty name. -/
theorem not_attribution_writing :
    (logOf writingCalls).length = 1 ∧
      (peerOf writingCalls).store.getPeerSeq (bytes "a") = 0 ∧
      (peerOf writingCalls).store.getPeerSeq [] = 1 := by
  decide +kernel

end Attribution

section Soundness

/-- The receive loop of `handleConn` over the entries of a batch, each with the reading of the wall
clock at which it is applied. -/
def receiveBatch (c : Codec) (mp : Msgpack V) (r : Replica V) (batch : List (Int64 × GoString)) :
    Replica V :=
  batch.foldl (fun r d => (c.unmarshalMsg d.2).elim r (applyRemoteEntry mp r d.1)) r

/-- One entry of the sender's log as it stands in a batch: its bytes decode to the entry, or do not
decode. -/
structure Receipt (c : Codec) where
  entry : LogEntry
  raw : GoString
  wall : Int64
  numbered : 1 ≤ entry.seq
  decoded : c.unmarshalMsg raw = none ∨ c.unmarshalMsg raw = some entry

def Receipt.item {c : Codec} (x : Receipt c) : Int64 × GoString := (x.wall, x.raw)

/-- The bytes decode, and the timestamp is not too far ahead of the wall clock. -/
def Receipt.Accepted {c : Codec} (x : Receipt c) (r : Replica V) : Prop :=
  c.unmarshalMsg x.raw = some x.entry ∧ r.hlc.smash x.wall x.entry.ts = false

instance {c : Codec} (x : Receipt c) (r : Replica V) : Decidable (x.Accepted r) :=
  inferInstanceAs (Decidable (_ ∧ _))

def receiveAll (c : Codec) (mp : Msgpack V) (r : Replica V) (batches : List (List (Receipt c))) :
    Replica V :=
  batches.foldl (fun r batch => receiveBatch c mp r (batch.map Receipt.item)) r

variable {c : Codec}

theorem receiveBatch_eq_deliverAll (mp : Msgpack V) (r : Replica V)
    (batch : List (Int64 × GoString)) :
    receiveBatch c mp r batch =
      deliverAll mp r
        (batch.filterMap (fun d => (c.unmarshalMsg d.2).map (fun e => (d.1, e)))) := by
  induction batch generalizing r with
  | nil => rfl
  | cons d batch ih =>
      cases hd : c.unmarshalMsg d.2 with
      | none =>
          rw [List.filterMap_cons_none (by rw [hd, Option.map_none])]
          simpa [receiveBatch, hd] using ih r
      | some e =>
          rw [List.filterMap_cons_some (by rw [hd, Option.map_some])]
          simpa [receiveBatch, deliverAll, hd] using ih (applyRemoteEntry mp r d.1 e)

theorem receiveAll_eq_receiveBatch (mp : Msgpack V) (r : Replica V)
    (batches : List (List (Receipt c))) :
    receiveAll c mp r batches = receiveBatch c mp r (batches.flatten.map Receipt.item) := by
  induction batches generalizing r with
  | nil => rfl
  | cons batch batches ih =>
      rw [List.flatten_cons, List.map_append]
      simp only [receiveBatch, List.foldl_append]
      exact ih _

theorem le_getPeerSeq_receiveAll_iff (mp : Msgpack V) (r : Replica V)
    (batches : List (List (Receipt c))) (nodeID : GoString) (n : ℕ) :
    n ≤ (receiveAll c mp r batches).store.getPeerSeq nodeID ↔
      n ≤ r.store.getPeerSeq nodeID ∨
        ∃ x ∈ batches.flatten, x.Accepted r ∧ x.entry.nodeID = nodeID ∧ n ≤ x.entry.seq := by
  rw [receiveAll_eq_receiveBatch, receiveBatch_eq_deliverAll, le_getPeerSeq_deliverAll_iff]
  refine or_congr_right ⟨?_, ?_⟩
  · rintro ⟨d, hd, hs, hid, hn⟩
    obtain ⟨item, hitem, hdec⟩ := List.mem_filterMap.1 hd
    obtain ⟨x, hx, rfl⟩ := List.mem_map.1 hitem
    obtain ⟨e, he, rfl⟩ := Option.map_eq_some_iff.1 hdec
    have hraw : c.unmarshalMsg x.raw = some e := he
    rcases x.decoded with hnone | hsome
    · rw [hnone] at hraw
      cases hraw
    · obtain rfl := Option.some.inj (hsome.symm.trans hraw)
      exact ⟨x, hx, ⟨hsome, hs⟩, hid, hn⟩
  · rintro ⟨x, hx, ⟨hdec, hs⟩, hid, hn⟩
    refine ⟨(x.wall, x.entry), List.mem_filterMap.2 ⟨x.item, List.mem_map_of_mem hx, ?_⟩, hs, hid,
      hn⟩
    change (c.unmarshalMsg x.raw).map (fun e => (x.wall, e)) = _
    rw [hdec, Option.map_some]

/-- Every received entry up to the watermark has been applied, exactly when each entry that was
dropped whenever it came has a greater number than every accepted entry that names the node. -/
theorem watermark_sound_iff (mp : Msgpack V) (r : Replica V) (nodeID : GoString)
    (batches : List (List (Receipt c))) (hnew : r.store.getPeerSeq nodeID = 0) :
    (∀ x ∈ batches.flatten,
        x.entry.seq ≤ (receiveAll c mp r batches).store.getPeerSeq nodeID →
          ∃ y ∈ batches.flatten, y.entry = x.entry ∧ y.Accepted r) ↔
      ∀ x ∈ batches.flatten, (∀ y ∈ batches.flatten, y.entry = x.entry → ¬ y.Accepted r) →
        ∀ z ∈ batches.flatten, z.Accepted r → z.entry.nodeID = nodeID →
          z.entry.seq < x.entry.seq := by
  constructor
  · intro hsound x hx hdropped z hz hacc hid
    by_contra! hle
    have hcovered := (le_getPeerSeq_receiveAll_iff mp r batches nodeID _).2
      (Or.inr ⟨z, hz, hacc, hid, hle⟩)
    obtain ⟨y, hy, hyx, hyacc⟩ := hsound x hx hcovered
    exact hdropped y hy hyx hyacc
  · intro hcond x hx hle
    by_contra! hdropped
    rcases (le_getPeerSeq_receiveAll_iff mp r batches nodeID _).1 hle with
      h | ⟨z, hz, hacc, hid, hn⟩
    · have := x.numbered
      omega
    · have hlt := hcond x hx hdropped z hz hacc hid
      omega

def aheadEntry (physical : Int64) (key : GoString) (seq : ℕ) : LogEntry :=
  { incrLogEntry ⟨physical, 0⟩ 0 key (bytes "a") 1 with seq := seq }

def aheadCodec : Codec :=
  tableCodec (fun _ => 0x3ff0000000000000)
    [aheadEntry 2000 (bytes "x") 1, aheadEntry 2001 (bytes "y") 2]

def firstReceipt (wall : Int64) : Receipt aheadCodec where
  entry := aheadEntry 2000 (bytes "x") 1
  raw := aheadCodec.marshalMsg (aheadEntry 2000 (bytes "x") 1)
  wall := wall
  numbered := le_rfl
  decoded := Or.inr (by decide +kernel)

def secondReceipt (wall : Int64) : Receipt aheadCodec where
  entry := aheadEntry 2001 (bytes "y") 2
  raw := aheadCodec.marshalMsg (aheadEntry 2001 (bytes "y") 2)
  wall := wall
  numbered := by decide
  decoded := Or.inr (by decide +kernel)

def resentBatches : List (List (Receipt aheadCodec)) :=
  [[firstReceipt 1000], [firstReceipt 1600, secondReceipt 1600]]

theorem watermark_sound_iff_resent :
    (receiveAll aheadCodec byteMsgpack (newNode 1000 500) resentBatches).store.getPeerSeq
        (bytes "a") = 2 ∧
      ∃ y ∈ resentBatches.flatten, y.entry = (firstReceipt 1000).entry ∧
        y.Accepted (newNode 1000 500 : Replica UInt8) := by
  refine ⟨by decide +kernel, ?_⟩
  exact (watermark_sound_iff byteMsgpack (newNode 1000 500) (bytes "a") resentBatches
    (by decide +kernel)).2 (by decide +kernel) (firstReceipt 1000) List.mem_cons_self
    (by decide +kernel)

/-- The first entry is rejected, the second is accepted a little later, and the watermark passes
both. -/
theorem not_watermark_sound_ahead :
    (receiveAll aheadCodec byteMsgpack (newNode 1000 500)
        [[firstReceipt 1000, secondReceipt 1600]]).store.getPeerSeq (bytes "a") = 2 ∧
      (firstReceipt 1000).entry.seq = 1 ∧
      ¬ (firstReceipt 1000).Accepted (newNode 1000 500 : Replica UInt8) ∧
      (receiveAll aheadCodec byteMsgpack (newNode 1000 500)
        [[firstReceipt 1000, secondReceipt 1600]]).store.getNodeCount (bytes "x") (bytes "a") = 0 ∧
      (receiveAll aheadCodec byteMsgpack (newNode 1000 500)
        [[firstReceipt 1000, secondReceipt 1600]]).store.getNodeCount (bytes "y") (bytes "a") =
          1 := by
  decide +kernel

end Soundness
end Capacitor
