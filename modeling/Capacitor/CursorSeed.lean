import Capacitor.Replication
import Capacitor.Wire

/-!
# The replication cursor and the numbers it stands for

A cursor is a position in the log of its own node. `Tracked` says that it, and every batch under
way, stays within the numbers that were sent to the peer or reported by it, and that all numbers
below these are accounted for. The steps that move the cursor keep this, with one exception: a node
that has no cursor for its peer starts from `getPeerSeq`, which is a position in the log of the
peer. Besides, the ring may drop an entry before it was ever sent.
-/

namespace Capacitor

variable {V : Type*}

/-- `k` does not exceed the greatest of the known numbers, which is `0` when there are none. -/
def Within (known : List ℕ) (k : ℕ) : Prop := k = 0 ∨ ∃ m ∈ known, k ≤ m

/-- The number was sent, or lies at or below one that was reported. -/
def Accounted (sent reported : List ℕ) (q : ℕ) : Prop := q ∈ sent ∨ ∃ r ∈ reported, q ≤ r

instance (known : List ℕ) (k : ℕ) : Decidable (Within known k) :=
  inferInstanceAs (Decidable (_ ∨ _))

instance (sent reported : List ℕ) (q : ℕ) : Decidable (Accounted sent reported q) :=
  inferInstanceAs (Decidable (_ ∨ _))

theorem Within.mono {known known' : List ℕ} {k : ℕ} (h : Within known k)
    (hsub : known ⊆ known') : Within known' k := by
  rcases h with h0 | ⟨m, hm, hle⟩
  · exact Or.inl h0
  · exact Or.inr ⟨m, hsub hm, hle⟩

theorem Within.of_le {known : List ℕ} {j k : ℕ} (h : Within known k) (hjk : j ≤ k) :
    Within known j := by
  rcases h with h0 | ⟨m, hm, hle⟩
  · exact Or.inl (by omega)
  · exact Or.inr ⟨m, hm, hjk.trans hle⟩

theorem Accounted.mono {sent sent' reported reported' : List ℕ} {q : ℕ}
    (h : Accounted sent reported q) (hsent : sent ⊆ sent') (hrep : reported ⊆ reported') :
    Accounted sent' reported' q := by
  rcases h with hq | ⟨r, hr, hle⟩
  · exact Or.inl (hsent hq)
  · exact Or.inr ⟨r, hrep hr, hle⟩

theorem Side.head_le_act {c : Codec} {peer : GoString} {d d' : Side V} {a : SideAction}
    (h : d.act c peer a = some d') : d.node.log.head ≤ d'.node.log.head := by
  rcases Side.act_log h with ⟨hlog, -⟩ | ⟨e, -, hlog, -⟩
  · rw [hlog]
  · obtain ⟨-, -, -, -, hhead, -⟩ := DeltaLog.append_eq_some hlog
    omega

/-- A batch starts from a number within the known ones, and what it passes over is accounted
for. -/
structure DrawnWithin (sent extra : List ℕ) (head : ℕ) (p : Drawn) : Prop where
  lastSeq : Within (sent ++ extra) p.lastSeq
  start : p.lastSeq < p.start
  bound : p.start + p.raw.length ≤ head
  skipped : ∀ q, p.lastSeq < q → q < p.start → Accounted sent extra q

def CallWithin (sent extra : List ℕ) (head : ℕ) : Call → Prop
  | .checked => True
  | .started => True
  | .seeded _ => True
  | .loaded n => Within (sent ++ extra) n
  | .drawn p => DrawnWithin sent extra head p
  | .sending p _ => DrawnWithin sent extra head p
  | .written p => Within (sent ++ extra) (p.lastSeq + p.raw.length)

section Mono

variable {sent sent' extra extra' : List ℕ} {head head' : ℕ} (hsent : sent ⊆ sent')
  (hextra : extra ⊆ extra') (hhead : head ≤ head')

include hsent hextra

theorem append_subset_append : sent ++ extra ⊆ sent' ++ extra' :=
  List.append_subset.2 ⟨fun _ hq => List.mem_append_left _ (hsent hq),
    fun _ hq => List.mem_append_right _ (hextra hq)⟩

include hhead

theorem DrawnWithin.mono {p : Drawn} (h : DrawnWithin sent extra head p) :
    DrawnWithin sent' extra' head' p :=
  ⟨h.lastSeq.mono (append_subset_append hsent hextra), h.start, h.bound.trans hhead,
    fun q hlt hq => (h.skipped q hlt hq).mono hsent hextra⟩

theorem CallWithin.mono {call : Call} (h : CallWithin sent extra head call) :
    CallWithin sent' extra' head' call := by
  cases call with
  | checked => trivial
  | started => trivial
  | seeded seed => trivial
  | loaded n => exact Within.mono h (append_subset_append hsent hextra)
  | drawn p => exact DrawnWithin.mono hsent hextra hhead h
  | sending p lastSeenRemote => exact DrawnWithin.mono hsent hextra hhead h
  | written p => exact Within.mono h (append_subset_append hsent hextra)

end Mono

/-- What the replication state of a side satisfies, with `extra` for the reported numbers it may
rely on. -/
structure Tracked (peer : GoString) (extra : List ℕ) (d : Side V) : Prop where
  cursor : ∀ k, d.node.peerSeqs peer = some k → Within (d.sent ++ extra) k
  calls : ∀ call ∈ d.calls, CallWithin d.sent extra d.node.log.head call
  accounted : ∀ m ∈ d.sent ++ extra, ∀ q, 1 ≤ q → q ≤ m → Accounted d.sent extra q
  dropped : ∀ q, 1 ≤ q → q < d.node.log.earliest → Accounted d.sent extra q
  sent_lt : ∀ q ∈ d.sent, q < d.node.log.head

namespace Side

/-- The watermark that a call has read for the case that there is no cursor. -/
def seedOf (d : Side V) (k : ℕ) : Option ℕ :=
  d.calls[k]?.bind (fun call => match call with
    | .seeded seed => some seed
    | _ => none)

/-- A call that finds no cursor starts within the known numbers, and an append to a full ring drops
an entry that is accounted for. -/
def SeedsWithin (peer : GoString) (extra : List ℕ) (d : Side V) : SideAction → Prop
  | .loadOrStore k => d.node.peerSeqs peer = none →
      ∀ seed ∈ d.seedOf k, Within (d.sent ++ extra) seed
  | .append _ => d.node.log.capacity < d.node.log.head →
      Accounted d.sent extra d.node.log.earliest
  | _ => True

instance (peer : GoString) (extra : List ℕ) (d : Side V) :
    (a : SideAction) → Decidable (d.SeedsWithin peer extra a)
  | .loadOrStore _ => inferInstanceAs (Decidable (_ → _))
  | .append _ => inferInstanceAs (Decidable (_ → _))
  | .checkStop | .wake _ | .seed _ | .getEntriesRaw _ | .lastSeen _ | .sendBatch _ _ | .store _
  | .breakConn _ | .closeConn | .startPeerReplicator | .stopPeerReplicator => isTrue trivial

theorem seedOf_eq_some_iff {d : Side V} {k seed : ℕ} :
    d.seedOf k = some seed ↔ d.calls[k]? = some (.seeded seed) := by
  constructor
  · intro h
    obtain ⟨call, hcall, hmatch⟩ := Option.bind_eq_some_iff.1 h
    cases call with
    | seeded n => rw [hcall, Option.some.inj hmatch]
    | _ => cases hmatch
  · intro h
    rw [seedOf, h, Option.bind_some]

end Side

namespace Tracked

variable {peer : GoString} {extra : List ℕ} {d d' : Side V}

theorem fresh (peer nodeID authToken : GoString) (replica : Replica V) (capacity : ℕ) :
    Tracked peer [] (Side.fresh nodeID authToken replica capacity) where
  cursor k hk := by cases hk
  calls call hcall := by cases hcall
  accounted m hm := by cases hm
  dropped q hq1 hq := by
    have hone := DeltaLog.earliest_newDeltaLog capacity
    change q < (newDeltaLog capacity).earliest at hq
    omega
  sent_lt q hq := by cases hq

theorem accounted_of_within (h : Tracked peer extra d) {k : ℕ} (hk : Within (d.sent ++ extra) k)
    {q : ℕ} (hq1 : 1 ≤ q) (hq : q ≤ k) : Accounted d.sent extra q := by
  rcases hk with hk | ⟨m, hm, hle⟩
  · omega
  · exact h.accounted m hm q hq1 (hq.trans hle)

theorem congr (h : Tracked peer extra d) (hseqs : d'.node.peerSeqs = d.node.peerSeqs)
    (hlog : d'.node.log = d.node.log) (hcalls : d'.calls = d.calls) (hsent : d'.sent = d.sent) :
    Tracked peer extra d' := by
  constructor
  case cursor =>
    rw [hseqs, hsent]
    exact h.cursor
  case calls =>
    rw [hcalls, hsent, hlog]
    exact h.calls
  case accounted =>
    rw [hsent]
    exact h.accounted
  case dropped =>
    rw [hlog, hsent]
    exact h.dropped
  case sent_lt =>
    rw [hsent, hlog]
    exact h.sent_lt

theorem storeSeq (h : Tracked peer extra d) {k : ℕ} (hk : Within (d.sent ++ extra) k)
    (nodeID : GoString) : Tracked peer extra { d with node := d.node.storeSeq nodeID k } := by
  refine ⟨?_, h.calls, h.accounted, h.dropped, h.sent_lt⟩
  intro j hj
  by_cases hid : peer = nodeID
  · subst nodeID
    simp only [Node.storeSeq, Function.update_self, Option.some.injEq] at hj
    exact hj ▸ hk
  · simp only [Node.storeSeq, Function.update_of_ne hid] at hj
    exact h.cursor j hj

/-- A batch read from the log passes over nothing but what the ring has dropped. -/
theorem drawnWithin (h : Tracked peer extra d) {n limit : ℕ} {maxBytes : ℤ} {raw : List GoString}
    (hn : Within (d.sent ++ extra) n)
    (hraw : d.node.log.getEntriesRaw (n + 1) limit maxBytes = some raw) (hne : raw ≠ []) :
    DrawnWithin d.sent extra d.node.log.head ⟨n, max (n + 1) d.node.log.earliest, raw⟩ := by
  obtain ⟨m, _, hmap, hend, _⟩ := DeltaLog.getEntriesRaw_eq_some hraw
  have hlen : raw.length = m := by rw [hmap, List.length_map, List.length_range]
  have hbound := hend (hlen ▸ List.length_pos_of_ne_nil hne)
  refine ⟨hn, by dsimp only; omega, by dsimp only; omega, ?_⟩
  intro q hlt hq
  dsimp only at hlt hq
  exact h.dropped q (by omega) (by omega)

theorem accounted_of_lt_start (h : Tracked peer extra d) {p : Drawn}
    (hp : DrawnWithin d.sent extra d.node.log.head p) {q : ℕ} (hq1 : 1 ≤ q) (hq : q < p.start) :
    Accounted d.sent extra q := by
  by_cases hle : q ≤ p.lastSeq
  · exact h.accounted_of_within hp.lastSeq hq1 hle
  · exact hp.skipped q (by omega) hq

theorem within_written (h : Tracked peer extra d) {c : Codec} {k seen : ℕ} {p : Drawn}
    (hk : d.calls[k]? = some (.sending p seen))
    (hact : d.act c peer (.sendBatch k .written) = some d') :
    Within (d'.sent ++ extra) (p.lastSeq + p.raw.length) := by
  have hp : DrawnWithin d.sent extra d.node.log.head p := h.calls _ (List.mem_of_getElem? hk)
  have hstart := hp.start
  by_cases hlen : p.raw.length = 0
  · rw [hlen, Nat.add_zero]
    exact hp.lastSeq.mono
      (append_subset_append (Side.sent_subset_act hact) (List.Subset.refl extra))
  · refine Or.inr ⟨p.start + p.raw.length - 1, List.mem_append_left _ ?_, by omega⟩
    exact Side.mem_sent_of_written hk hact (by omega) (by omega)

theorem act (h : Tracked peer extra d) {c : Codec} {a : SideAction}
    (hseeds : d.SeedsWithin peer extra a) (hact : d.act c peer a = some d') :
    Tracked peer extra d' := by
  have hsent := Side.sent_subset_act hact
  have hextra := List.Subset.refl extra
  have hknown := append_subset_append hsent hextra
  have hhead := Side.head_le_act hact
  have hold {q : ℕ} (hq : Accounted d.sent extra q) : Accounted d'.sent extra q :=
    hq.mono hsent hextra
  have hsending {k seen : ℕ} {p : Drawn} (hk : d.calls[k]? = some (.sending p seen)) :
      DrawnWithin d.sent extra d.node.log.head p := h.calls _ (List.mem_of_getElem? hk)
  have hcursor (k : ℕ) (hk : d'.node.peerSeqs peer = some k) : Within (d'.sent ++ extra) k := by
    rcases Side.act_cursor hact hk with hcur | ⟨j, rfl, hj, hnone⟩ | ⟨p, hp, rfl⟩
    · exact (h.cursor k hcur).mono hknown
    · exact (hseeds hnone k (Side.seedOf_eq_some_iff.2 hj)).mono hknown
    · exact Within.mono (h.calls _ hp) hknown
  refine ⟨hcursor, ?_, ?_, ?_, ?_⟩
  · refine Side.act_forall_calls hact h.calls (fun _ => CallWithin.mono hsent hextra hhead)
      trivial (fun _ => trivial) (fun _ => trivial) (fun _ n _ => hcursor n) ?_ ?_ ?_
    · intro n raw hn hraw hne
      exact (h.drawnWithin hn hraw hne).mono hsent hextra hhead
    · intro p hp
      exact DrawnWithin.mono hsent hextra hhead hp
    · rintro k p seen rfl hk
      exact h.within_written hk hact
  · intro m hm q hq1 hq
    rcases List.mem_append.1 hm with hm | hm
    · rcases Side.act_sent hact hm with hm | ⟨k, p, seen, rfl, hk, hstart, hlt⟩
      · exact hold (h.accounted m (List.mem_append_left _ hm) q hq1 hq)
      · by_cases hbefore : q < p.start
        · exact hold (h.accounted_of_lt_start (hsending hk) hq1 hbefore)
        · exact Or.inl (Side.mem_sent_of_written hk hact (by omega) (by omega))
    · exact hold (h.accounted m (List.mem_append_right _ hm) q hq1 hq)
  · intro q hq1 hq
    rcases Side.act_log hact with ⟨hlog, -⟩ | ⟨e, rfl, hlog, -⟩
    · rw [hlog] at hq
      exact hold (h.dropped q hq1 hq)
    · rcases DeltaLog.lt_earliest_append hlog hq1 hq with hbefore | ⟨hfull, rfl⟩
      · exact hold (h.dropped q hq1 hbefore)
      · exact hold (hseeds hfull)
  · intro q hq
    rcases Side.act_sent hact hq with hq | ⟨k, p, seen, -, hk, -, hlt⟩
    · exact (h.sent_lt q hq).trans_le hhead
    · exact (hlt.trans_le (hsending hk).bound).trans_le hhead

theorem report (h : Tracked peer extra d) (more : List ℕ) : Tracked peer (extra ++ more) d := by
  have hsent := List.Subset.refl d.sent
  have hextra : extra ⊆ extra ++ more := List.subset_append_left _ _
  have hknown := append_subset_append hsent hextra
  refine ⟨fun k hk => (h.cursor k hk).mono hknown,
    fun call hcall => CallWithin.mono hsent hextra le_rfl (h.calls call hcall), ?_,
    fun q hq1 hq => (h.dropped q hq1 hq).mono hsent hextra, h.sent_lt⟩
  intro m hm q hq1 hq
  rcases List.mem_append.1 hm with hm | hm
  · exact (h.accounted m (List.mem_append_left _ hm) q hq1 hq).mono hsent hextra
  · rcases List.mem_append.1 hm with hm | hm
    · exact (h.accounted m (List.mem_append_right _ hm) q hq1 hq).mono hsent hextra
    · exact Or.inr ⟨m, List.mem_append_right _ hm, hq⟩

theorem greet (h : Tracked peer extra d) {firstBatch : Bool} {b : Batch}
    (hreport : ∀ hs, b.handshake = some hs → Within (d.sent ++ extra) hs.lastSeenSeq)
    (hgreet : d.greet firstBatch b = some d') : Tracked peer extra d' := by
  rw [Side.greet_eq_some hgreet]
  cases hb : b.handshake with
  | none => exact h.congr rfl rfl rfl rfl
  | some hs => exact (h.storeSeq (hreport hs hb) b.fromNode).congr rfl rfl rfl rfl

theorem applyRaw (h : Tracked peer extra d) (c : Codec) (mp : Msgpack V) (wall : Int64)
    (raw : GoString) : Tracked peer extra (d.applyRaw c mp wall raw) := by
  have hsame := d.sameSource_applyRaw c mp wall raw
  exact h.congr (d.peerSeqs_applyRaw c mp wall raw) hsame.log hsame.calls hsame.sent

end Tracked

namespace Pair

variable {c : Codec} {mp : Msgpack V} {s t : Pair V}

def SeedsWithin (s : Pair V) : PairAction → Prop
  | .act x a => (s x).SeedsWithin (s (!x)).node.nodeID (s x).reported a
  | .deliver _ _ => True
  | .apply _ _ _ => True

instance (s : Pair V) : (a : PairAction) → Decidable (s.SeedsWithin a)
  | .act _ _ => inferInstanceAs (Decidable (Side.SeedsWithin _ _ _ _))
  | .deliver _ _ | .apply _ _ _ => isTrue trivial

def firstIncr (nodeID : GoString) : LogEntry := incrLogEntry ⟨10, 0⟩ 10 (bytes "k") nodeID 1

def incrCodec : Codec :=
  tableCodec (fun _ => 0x3ff0000000000000)
    [{ firstIncr (bytes "a") with seq := 1 }, { firstIncr (bytes "a") with seq := 2 },
      { firstIncr (bytes "b") with seq := 1 }]

def twoNodes : Pair UInt8 := initial twoNodeIDs [] (fun _ => newHLC 9) (fun _ => 8)

def drawRun (x : Bool) : List PairAction :=
  [.act x .checkStop, .act x (.wake 0), .act x (.seed 0), .act x (.loadOrStore 0),
    .act x (.getEntriesRaw 0), .act x (.lastSeen 0)]

def writeRun (x : Bool) : List PairAction := [.act x (.sendBatch 0 .written), .act x (.store 0)]

def readRun (x : Bool) (k : ℕ) (wall : Int64) : List PairAction := [.deliver x k, .apply x k wall]

end Pair

end Capacitor
