import Capacitor.Delivery

/-!
# Updates and the loss of connections

The cursor moves on when a write has succeeded, and nothing tells the sender whether the batch was
read. Every number that the two nodes continue from, be it a cursor, a number sent or reported, a
watermark or a handshake under way, has only safe entries below it, as long as no connection takes
unread batches with it when it breaks.
-/

namespace Capacitor

variable {V : Type*}

namespace Side

/-- A call that finds no cursor starts within the numbers sent or reported. -/
def SeedsKnown (peer : GoString) (d : Side V) : SideAction → Prop
  | .loadOrStore k => d.node.peerSeqs peer = none →
      ∀ seed ∈ d.seedOf k, Within (d.sent ++ d.reported) seed
  | _ => True

def Lossless (c : Codec) (peer : GoString) (d : Side V) (a : SideAction) : Prop :=
  d.KeepsFlight a ∧ d.KeepsBytes c a ∧ d.SeedsKnown peer a

instance (peer : GoString) (d : Side V) : (a : SideAction) → Decidable (d.SeedsKnown peer a)
  | .loadOrStore _ => inferInstanceAs (Decidable (_ → _))
  | .append _ | .checkStop | .wake _ | .seed _ | .getEntriesRaw _ | .lastSeen _ | .sendBatch _ _
  | .store _ | .breakConn _ | .closeConn | .startPeerReplicator | .stopPeerReplicator =>
      isTrue trivial

instance (c : Codec) (peer : GoString) (d : Side V) (a : SideAction) :
    Decidable (d.Lossless c peer a) := inferInstanceAs (Decidable (_ ∧ _))

end Side

/-- What a call satisfies on the sending side, for a predicate on the numbers it may continue
from. -/
def CallSafe (c : Codec) (P : ℕ → Prop) (d : Side V) : Call → Prop
  | .checked => True
  | .started => True
  | .seeded _ => True
  | .loaded n => P n
  | .drawn p => P p.lastSeq ∧ d.BatchOf c p
  | .sending p _ => P p.lastSeq ∧ d.BatchOf c p
  | .written p => P (p.lastSeq + p.raw.length)

structure Sender (c : Codec) (P : ℕ → Prop) (peer : GoString) (d : Side V) : Prop where
  faithful : d.Faithful c
  cursor : ∀ k, d.node.peerSeqs peer = some k → P k
  calls : ∀ call ∈ d.calls, CallSafe c P d call
  known : ∀ m ∈ d.sent ++ d.reported, P m
  unapplied : ∀ cc ∈ d.link.conns, ∀ raw ∈ cc.unapplied, ∃ q, P q ∧ d.Encodes c q raw

def CallReports (P : ℕ → Prop) : Call → Prop
  | .sending _ lastSeenRemote => P lastSeenRemote
  | _ => True

/-- What the receiving side satisfies: whatever it may report has the predicate. -/
structure Receiver (P : ℕ → Prop) (peer : GoString) (d : Side V) : Prop where
  watermark : P (d.node.replica.store.getPeerSeq peer)
  calls : ∀ call ∈ d.calls, CallReports P call
  handshakes : ∀ cc ∈ d.link.conns, ∀ b ∈ cc.inflight, ∀ hs, b.handshake = some hs →
    P hs.lastSeenSeq

section Sides

variable {c : Codec} {peer : GoString} {d d' : Side V} {P P' : ℕ → Prop}
  {handed : List LogEntry} {a : SideAction}

theorem CallSafe.extends {call : Call} (h : CallSafe c P d call) (hP : ∀ k, P k → P' k)
    (hext : d.Extends d') : CallSafe c P' d' call := by
  cases call with
  | checked => trivial
  | started => trivial
  | seeded seed => trivial
  | loaded n => exact hP n h
  | drawn p => exact ⟨hP _ h.1, h.2.extends hext⟩
  | sending p lastSeenRemote => exact ⟨hP _ h.1, h.2.extends hext⟩
  | written p => exact hP _ h

theorem Sender.extends (h : Sender c P peer d) (hP : ∀ k, P k → P' k) (hext : d.Extends d')
    (hfaithful : d'.Faithful c) (hcursor : ∀ k, d'.node.peerSeqs peer = some k → P' k)
    (hcalls : d'.calls = d.calls) (hknown : ∀ m ∈ d'.sent ++ d'.reported, P' m)
    (hunapplied : ∀ cc ∈ d'.link.conns, ∀ raw ∈ cc.unapplied, ∃ q, P q ∧ d.Encodes c q raw) :
    Sender c P' peer d' := by
  refine ⟨hfaithful, hcursor, ?_, hknown, ?_⟩
  · rw [hcalls]
    exact fun call hcall => (h.calls call hcall).extends hP hext
  · intro cc hcc raw hraw
    obtain ⟨q, hq, henc⟩ := hunapplied cc hcc raw hraw
    exact ⟨q, hP q hq, hext.encodes henc⟩

theorem Sender.link (h : Sender c P peer d) (hP : ∀ k, P k → P' k) {link : Link}
    (hlink : ∀ cc ∈ link.conns, ∀ raw ∈ cc.unapplied, ∃ q, P q ∧ d.Encodes c q raw) :
    Sender c P' peer { d with link := link } :=
  h.extends hP (Side.Extends.of_eq rfl rfl) (h.faithful.congr rfl rfl)
    (fun k hk => hP k (h.cursor k hk)) rfl (fun m hm => hP m (h.known m hm)) hlink

theorem Sender.mono (h : Sender c P peer d) (hP : ∀ k, P k → P' k) : Sender c P' peer d :=
  h.extends hP (Side.Extends.of_eq rfl rfl) h.faithful (fun k hk => hP k (h.cursor k hk)) rfl
    (fun m hm => hP m (h.known m hm)) h.unapplied

theorem Sender.applyRaw (h : Sender c P peer d) (hP : ∀ k, P k → P' k) (mp : Msgpack V)
    (wall : Int64) (raw : GoString) : Sender c P' peer (d.applyRaw c mp wall raw) := by
  have hsame := d.sameSource_applyRaw c mp wall raw
  refine h.extends hP (Side.Extends.of_eq hsame.log hsame.appended)
    (h.faithful.congr hsame.log hsame.appended) ?_ hsame.calls ?_ ?_
  · rw [Side.peerSeqs_applyRaw]
    exact fun k hk => hP k (h.cursor k hk)
  · rw [hsame.sent, Side.reported_applyRaw]
    exact fun m hm => hP m (h.known m hm)
  · rw [hsame.link]
    exact h.unapplied

theorem CallReports.mono {call : Call} (h : CallReports P call) (hP : ∀ k, P k → P' k) :
    CallReports P' call := by
  cases call with
  | sending p lastSeenRemote => exact hP _ h
  | _ => trivial

theorem Receiver.mono (h : Receiver P peer d) (hP : ∀ k, P k → P' k) : Receiver P' peer d :=
  ⟨hP _ h.watermark, fun call hcall => (h.calls call hcall).mono hP,
    fun cc hcc b hb hs hhs => hP _ (h.handshakes cc hcc b hb hs hhs)⟩

theorem safeUpTo_act (ha : d.KeepsFlight a) (hact : d.act c peer a = some d') (k : ℕ)
    (hk : d.SafeUpTo c handed k) : d'.SafeUpTo c handed k :=
  hk.extends (Side.act_extends hact) (List.Subset.refl _)
    (fun _ _ _ hraw => Or.inl (Side.act_inFlight ha hact hraw))

/-- Once a batch is written, everything up to its end is safe. -/
theorem Sender.safeUpTo_written (h : Sender c (d.SafeUpTo c handed) peer d) {token : GoString}
    (hlink : d.link.Orderly token) {k seen : ℕ} {p : Drawn}
    (hk : d.calls[k]? = some (.sending p seen)) (ha : d.KeepsFlight (.sendBatch k .written))
    (hact : d.act c peer (.sendBatch k .written) = some d') {m : ℕ}
    (hm : m < p.start + p.raw.length) : d'.SafeUpTo c handed m := by
  obtain ⟨hlast, hbatch⟩ := h.calls _ (List.mem_of_getElem? hk)
  have hext := Side.act_extends hact
  intro q hq1 hq
  by_cases hold : q ≤ p.lastSeq
  · exact safeUpTo_act ha hact _ hlast q hq1 hold
  · rcases hbatch.covers q (by omega) (by omega) with hdropped | ⟨raw, hraw, henc⟩
    · exact Or.inl (hdropped.trans_le hext.earliest)
    · refine Or.inr (Or.inr ⟨raw, hext.encodes henc, ?_⟩)
      cases Side.acts_of_act hact with
      | written hk' hsend =>
          obtain ⟨rfl, -⟩ := Call.sending.inj (Option.some.inj (hk.symm.trans hk'))
          obtain ⟨-, rfl⟩ := Link.written_of_sendBatch hsend
          exact hlink.inFlight_written ha hraw
      | failed _ hout => exact absurd rfl hout

theorem Sender.act (h : Sender c (d.SafeUpTo c handed) peer d) {token : GoString}
    (hlink : d.link.Orderly token) (ha : d.Lossless c peer a) (hact : d.act c peer a = some d') :
    Sender c (d'.SafeUpTo c handed) peer d' := by
  obtain ⟨hflight, hbytes, hseeds⟩ := ha
  have hext := Side.act_extends hact
  have hsafe (k : ℕ) : d.SafeUpTo c handed k → d'.SafeUpTo c handed k :=
    safeUpTo_act hflight hact k
  have hwritten (k : ℕ) (p : Drawn) (seen : ℕ) (hsend : a = .sendBatch k .written)
      (hk : d.calls[k]? = some (.sending p seen)) (m : ℕ) (hm : m < p.start + p.raw.length) :
      d'.SafeUpTo c handed m := by
    subst hsend
    exact h.safeUpTo_written hlink hk hflight hact hm
  have hcursor (k : ℕ) (hk : d'.node.peerSeqs peer = some k) : d'.SafeUpTo c handed k := by
    rcases Side.act_cursor hact hk with hold | ⟨j, rfl, hj, hnone⟩ | ⟨p, hp, rfl⟩
    · exact hsafe k (h.cursor k hold)
    · exact hsafe k
        (Side.SafeUpTo.of_within h.known (hseeds hnone k (Side.seedOf_eq_some_iff.2 hj)))
    · exact hsafe _ (h.calls _ hp)
  refine ⟨h.faithful.act hbytes hact, hcursor, ?_, ?_, ?_⟩
  · refine Side.act_forall_calls hact h.calls (fun _ hcall => hcall.extends hsafe hext)
      trivial (fun _ => trivial) (fun _ => trivial) (fun _ n _ => hcursor n) ?_ ?_ ?_
    · intro n raw hn hraw hne
      exact ⟨hsafe n hn, (h.faithful.batchOf hraw hne).extends hext⟩
    · intro p hp
      exact ⟨hsafe _ hp.1, hp.2.extends hext⟩
    · intro k p seen hsend hk
      have hstart := (h.calls _ (List.mem_of_getElem? hk)).2.start
      exact hwritten k p seen hsend hk _ (by omega)
  · intro m hm
    rw [(Side.act_frame hact).2.2.2.1] at hm
    rcases List.mem_append.1 hm with hm | hm
    · rcases Side.act_sent hact hm with hold | ⟨k, p, seen, hsend, hk, -, hlt⟩
      · exact hsafe m (h.known m (List.mem_append_left _ hold))
      · exact hwritten k p seen hsend hk m hlt
    · exact hsafe m (h.known m (List.mem_append_right _ hm))
  · have hraws := Side.act_forall_unapplied
      (P := fun raw => ∃ q, d'.SafeUpTo c handed q ∧ d.Encodes c q raw) ?_ ?_ hact
    · intro cc hcc raw hraw
      obtain ⟨q, hq, henc⟩ := hraws cc hcc raw hraw
      exact ⟨q, hq, hext.encodes henc⟩
    · intro cc hcc raw hraw
      obtain ⟨q, hq, henc⟩ := h.unapplied cc hcc raw hraw
      exact ⟨q, hsafe q hq, henc⟩
    · intro k p seen hsend hk raw hraw
      obtain ⟨q, hq, henc⟩ := (h.calls _ (List.mem_of_getElem? hk)).2.encodes raw hraw
      exact ⟨q, hwritten k p seen hsend hk q hq, henc⟩

theorem Sender.greet (h : Sender c P peer d) (hP : ∀ k, P k → P' k) {firstBatch : Bool} {b : Batch}
    (hb : ∀ hs, b.handshake = some hs → P hs.lastSeenSeq)
    (hgreet : d.greet firstBatch b = some d') : Sender c P' peer d' := by
  rw [Side.greet_eq_some hgreet]
  refine h.extends hP (Side.Extends.of_eq rfl rfl) (h.faithful.congr rfl rfl) ?_ rfl ?_ h.unapplied
  · intro k hk
    cases hhs : b.handshake with
    | none =>
        rw [hhs] at hk
        exact hP k (h.cursor k hk)
    | some hs =>
        simp only [hhs, Option.elim_some] at hk
        by_cases hpeer : peer = b.fromNode
        · rw [hpeer, Function.update_self, Option.some.injEq] at hk
          exact hk ▸ hP _ (hb hs hhs)
        · rw [Function.update_of_ne hpeer] at hk
          exact hP k (h.cursor k hk)
  · intro m hm
    rcases List.mem_append.1 hm with hm | hm
    · exact hP m (h.known m (List.mem_append_left _ hm))
    · rcases List.mem_append.1 hm with hm | hm
      · exact hP m (h.known m (List.mem_append_right _ hm))
      · rw [Option.mem_toList] at hm
        obtain ⟨hs, hhs, rfl⟩ := Option.map_eq_some_iff.1 hm
        exact hP _ (hb hs hhs)

theorem Receiver.act (h : Receiver P peer d) (hact : d.act c peer a = some d') :
    Receiver P peer d' := by
  refine ⟨?_, ?_, ?_⟩
  · rw [(Side.act_frame hact).2.2.1]
    exact h.watermark
  · exact Side.act_forall_calls hact h.calls (fun _ hcall => hcall) trivial (fun _ => trivial)
      (fun _ => trivial) (fun _ _ _ _ => trivial) (fun _ _ _ _ _ => trivial)
      (fun _ _ => h.watermark) (fun _ _ _ _ _ => trivial)
  · refine Side.act_forall_inflight (P := fun b => ∀ hs, b.handshake = some hs → P hs.lastSeenSeq)
      h.handshakes ?_ hact
    intro k p seen _ hk
    constructor
    · intro hs hhs
      cases hhs
    · intro hs hhs
      rw [← Option.some.inj hhs]
      exact h.calls _ (List.mem_of_getElem? hk)

theorem Receiver.applyRaw (h : Receiver P peer d) (mp : Msgpack V) (wall : Int64) {raw : GoString}
    (hraw : ∀ e, c.unmarshalMsg raw = some e → P e.seq) :
    Receiver P peer (d.applyRaw c mp wall raw) := by
  rcases d.applyRaw_cases c mp wall raw with ⟨_, hsame⟩ | ⟨e, he, happlied⟩
  · rw [hsame]
    exact h
  · rw [happlied]
    refine ⟨?_, h.calls, h.handshakes⟩
    dsimp only
    rcases getPeerSeq_applyRemoteEntry mp d.node.replica wall e peer with hold | ⟨_, _, hseq⟩
    · rw [hold]
      exact h.watermark
    · rw [hseq]
      exact hraw e he

end Sides

namespace Pair

variable {c : Codec} {mp : Msgpack V} {s t : Pair V} {x : Bool}

def Lossless (c : Codec) (x : Bool) (s : Pair V) : PairAction → Prop
  | .act y a => y = x → (s x).Lossless c (s (!x)).node.nodeID a
  | .deliver _ _ => True
  | .apply _ _ _ => True

instance (c : Codec) (x : Bool) (s : Pair V) : (a : PairAction) → Decidable (s.Lossless c x a)
  | .act _ _ => inferInstanceAs (Decidable (_ → _))
  | .deliver _ _ | .apply _ _ _ => isTrue trivial

/-- Everything that `x` or its peer may continue from is safe, and the peer refuses nothing. -/
structure Kept (c : Codec) (x : Bool) (s : Pair V) : Prop where
  sender : Sender c ((s x).SafeUpTo c (s (!x)).handed) (s (!x)).node.nodeID (s x)
  receiver : Receiver ((s x).SafeUpTo c (s (!x)).handed) (s x).node.nodeID (s (!x))
  orderly : (s x).link.Orderly (s x).node.authToken
  token : (s (!x)).node.authToken = (s x).node.authToken

theorem initial_kept (c : Codec) (x : Bool) (nodeID : Bool → GoString) (authToken : GoString)
    (hlc : Bool → HLC) (capacity : Bool → ℕ) :
    Kept c x (initial nodeID authToken hlc capacity : Pair V) := by
  refine ⟨⟨Side.Faithful.fresh c _ _ _ _, ?_, ?_, ?_, ?_⟩, ⟨?_, ?_, ?_⟩,
    Link.Orderly.empty authToken, rfl⟩
  · intro k hk
    cases hk
  · intro call hcall
    cases hcall
  · intro m hm
    cases hm
  · intro cc hcc
    cases hcc
  · exact Side.safeUpTo_zero c _ _
  · intro call hcall
    cases hcall
  · intro cc hcc
    cases hcc

namespace Kept

theorem act (h : Kept c x s) {a : SideAction} (ha : (s x).Lossless c (s (!x)).node.nodeID a)
    (hact : (s x).act c (s (!x)).node.nodeID a = some (t x)) (hpeer : t (!x) = s (!x)) :
    Kept c x t := by
  obtain ⟨hid, htoken, -, -, -⟩ := Side.act_frame hact
  refine ⟨?_, ?_, ?_, ?_⟩
  · rw [hpeer]
    exact h.sender.act h.orderly ha hact
  · rw [hpeer, hid]
    exact h.receiver.mono (safeUpTo_act ha.1 hact)
  · rw [htoken]
    exact Side.act_orderly h.orderly hact
  · rw [hpeer, htoken]
    exact h.token

theorem peer_act (h : Kept c x s) {a : SideAction} (hself : t x = s x)
    (hact : (s (!x)).act c (s x).node.nodeID a = some (t (!x))) : Kept c x t := by
  obtain ⟨hid, htoken, -, -, hhanded⟩ := Side.act_frame hact
  refine ⟨?_, ?_, ?_, ?_⟩
  · rw [hself, hid, hhanded]
    exact h.sender
  · rw [hself, hhanded]
    exact h.receiver.act hact
  · rw [hself]
    exact h.orderly
  · rw [hself, htoken]
    exact h.token

theorem read (h : Kept c x s) {k : ℕ} {p : Bool × Batch} (hp : (s x).link.next k = some p)
    {d : Side V} (hgreet : (s (!x)).greet p.1 p.2 = some d) :
    Kept c x (s.set x ((s x).link.read k) d) := by
  have hsafe (m : ℕ) (hm : (s x).SafeUpTo c (s (!x)).handed m) :
      Side.SafeUpTo c (s (!x)).handed { s x with link := (s x).link.read k } m :=
    hm.extends (Side.Extends.of_eq rfl rfl) (List.Subset.refl _)
      (fun _ _ _ hraw => Or.inl (hraw.read hp))
  have hreceiver := h.receiver.mono hsafe
  rw [Side.greet_eq_some hgreet]
  refine ⟨?_, ?_, ?_, ?_⟩
  · rw [set_self, set_peer]
    exact h.sender.link hsafe (Link.forall_unapplied_read h.sender.unapplied hp)
  · rw [set_self, set_peer]
    exact ⟨hreceiver.watermark, hreceiver.calls, hreceiver.handshakes⟩
  · rw [set_self]
    exact h.orderly.read hp
  · rw [set_self, set_peer]
    exact h.token

theorem applied (h : Kept c x s) {k : ℕ} {raw : GoString}
    (hnext : (s x).link.nextEntry k = some raw) (wall : Int64) :
    Kept c x (s.set x ((s x).link.applied k) ((s (!x)).applyRaw c mp wall raw)) := by
  obtain ⟨q₀, hq₀, henc₀⟩ := Link.forall_unapplied_nextEntry h.sender.unapplied hnext
  obtain ⟨e₀, he₀, hdecode₀⟩ := h.sender.faithful.unmarshal henc₀
  have happlied : (s (!x)).applyRaw c mp wall raw =
      { s (!x) with
        node := { (s (!x)).node with
          replica := applyRemoteEntry mp (s (!x)).node.replica wall e₀ }
        handed := (s (!x)).handed ++ [e₀] } := by
    rw [Side.applyRaw, hdecode₀]
  have hsafe (m : ℕ) (hm : (s x).SafeUpTo c (s (!x)).handed m) :
      Side.SafeUpTo c ((s (!x)).handed ++ [e₀]) { s x with link := (s x).link.applied k } m := by
    refine hm.extends (Side.Extends.of_eq rfl rfl) (List.subset_append_left _ _) ?_
    intro q raw' henc hraw
    rcases hraw.applied hnext with hflight | rfl
    · exact Or.inl hflight
    · obtain ⟨e, he, hdecode⟩ := h.sender.faithful.unmarshal henc
      obtain rfl : e = e₀ := Option.some.inj (hdecode.symm.trans hdecode₀)
      exact Or.inr ⟨e, List.mem_append_right _ List.mem_cons_self, he⟩
  have hreceiver : Receiver (Side.SafeUpTo c ((s (!x)).handed ++ [e₀])
      { s x with link := (s x).link.applied k }) (s x).node.nodeID
      ((s (!x)).applyRaw c mp wall raw) := by
    refine (h.receiver.mono hsafe).applyRaw mp wall ?_
    intro e hdecode
    obtain rfl : e = e₀ := Option.some.inj (hdecode.symm.trans hdecode₀)
    rw [Side.seq_entry he₀]
    exact hsafe q₀ hq₀
  rw [happlied] at hreceiver ⊢
  refine ⟨?_, ?_, ?_, ?_⟩
  · rw [set_self, set_peer]
    exact h.sender.link hsafe (Link.forall_unapplied_applied h.sender.unapplied k)
  · rw [set_self, set_peer]
    exact hreceiver
  · rw [set_self]
    exact h.orderly.applied k
  · rw [set_self, set_peer]
    exact h.token

theorem peer_link (h : Kept c x s) {d : Side V} {link : Link} (hsame : (s x).SameSource d)
    (hsender : ∀ P : ℕ → Prop, (∀ m, (s x).SafeUpTo c (s (!x)).handed m → P m) →
      Sender c P (s (!x)).node.nodeID d)
    (hlink : ∀ cc ∈ link.conns, ∀ b ∈ cc.inflight, ∀ hs, b.handshake = some hs →
      (s x).SafeUpTo c (s (!x)).handed hs.lastSeenSeq) : Kept c x (s.set (!x) link d) := by
  have hsafe (m : ℕ) (hm : (s x).SafeUpTo c (s (!x)).handed m) :
      d.SafeUpTo c (s (!x)).handed m :=
    hm.extends (Side.Extends.of_eq hsame.log hsame.appended) (List.Subset.refl _)
      (fun _ _ _ hraw => Or.inl (by rw [hsame.link]; exact hraw))
  refine ⟨?_, ?_, ?_, ?_⟩
  · rw [set_not, set_self]
    exact hsender _ hsafe
  · rw [set_not, set_self, hsame.nodeID]
    exact ⟨hsafe _ h.receiver.watermark,
      fun call hcall => (h.receiver.calls call hcall).mono hsafe,
      fun cc hcc b hb hs hhs => hsafe _ (hlink cc hcc b hb hs hhs)⟩
  · rw [set_not, hsame.link, hsame.authToken]
    exact h.orderly
  · rw [set_not, set_self, hsame.authToken]
    exact h.token

end Kept

theorem step_kept {a : PairAction} (h : Kept c x s) (ha : s.Lossless c x a)
    (hstep : step c mp s a = some t) : Kept c x t := by
  cases a with
  | act y b =>
      obtain ⟨hact, hpeer⟩ := step_act hstep
      rcases Bool.eq_or_eq_not y x with rfl | rfl
      · exact h.act (ha rfl) hact hpeer
      · rw [Bool.not_not] at hact hpeer
        exact h.peer_act hpeer hact
  | deliver y k =>
      obtain ⟨p, hp, hcases⟩ := step_deliver hstep
      rcases Bool.eq_or_eq_not y x with rfl | rfl
      · rcases hcases with ⟨hrefused, -⟩ | ⟨d, hgreet, rfl⟩
        · have hsome := h.orderly.greet_isSome hp h.token
          rw [hrefused] at hsome
          cases hsome
        · exact h.read hp hgreet
      · rw [Bool.not_not] at hcases
        rcases hcases with ⟨-, rfl⟩ | ⟨d, hgreet, rfl⟩
        · exact h.peer_link ⟨rfl, rfl, rfl, rfl, rfl, rfl, rfl⟩ (fun P hP => h.sender.mono hP)
            (Link.forall_inflight_breakConn h.receiver.handshakes k)
        · exact h.peer_link (Side.sameSource_greet hgreet)
            (fun P hP => h.sender.greet hP
              (Link.forall_inflight_next h.receiver.handshakes hp) hgreet)
            (Link.forall_inflight_read h.receiver.handshakes k)
  | apply y k wall =>
      obtain ⟨raw, hraw, rfl⟩ := step_apply hstep
      rcases Bool.eq_or_eq_not y x with rfl | rfl
      · exact h.applied hraw wall
      · rw [Bool.not_not]
        exact h.peer_link ((s x).sameSource_applyRaw c mp wall raw)
          (fun P hP => h.sender.applyRaw hP mp wall raw)
          (Link.forall_inflight_applied h.receiver.handshakes k)

/-- No update is lost: in every run that meets the condition, when nothing is in flight and the
cursor has reached the end of the log, the peer was handed every retained entry. -/
theorem handed_of_quiet (c : Codec) (mp : Msgpack V) (nodeID : Bool → GoString)
    (authToken : GoString) (hlc : Bool → HLC) (capacity : Bool → ℕ) (x : Bool)
    (as : List PairAction)
    (hrun : StepSystem.run (step c mp) (initial nodeID authToken hlc capacity) as = some s)
    (hlossless : StepSystem.Along (step c mp) (Lossless c x)
      (initial nodeID authToken hlc capacity) as)
    (hquiet : ∀ cc ∈ (s x).link.conns, cc.inflight = [] ∧ cc.applying = [])
    (hcursor : (s x).node.peerSeqs (s (!x)).node.nodeID = some ((s x).node.log.head - 1)) (q : ℕ)
    (hq : (s x).node.log.earliest ≤ q) (hlt : q < (s x).node.log.head) :
    ∃ e, (s x).appended[q - 1]? = some e ∧ { e with seq := q } ∈ (s (!x)).handed := by
  have h := StepSystem.run_invariant_along (P := Kept c x)
    (fun _ _ _ h ha hstep => step_kept h ha hstep)
    (initial_kept c x nodeID authToken hlc capacity) hlossless hrun
  have hq1 := h.sender.faithful.represents.one_le_of_earliest_le hq
  rcases h.sender.cursor _ hcursor q hq1 (by omega) with hdropped | ⟨e, he, hentry⟩ | hflight
  · omega
  · obtain ⟨e₀, he₀, rfl⟩ := Option.map_eq_some_iff.1 hentry
    exact ⟨e₀, he₀, he⟩
  · obtain ⟨raw, -, cc, hcc, hraw⟩ := hflight
    rw [Conn.unapplied, (hquiet cc hcc).1, (hquiet cc hcc).2] at hraw
    cases hraw

def redialRun : List PairAction :=
  [.act false .startPeerReplicator, .act false (.append (firstIncr (bytes "a")))] ++
    drawRun false ++ writeRun false ++ readRun false 0 20 ++
    [.act false (.breakConn 0), .act false (.append (firstIncr (bytes "a")))] ++ drawRun false ++
    [.act false (.sendBatch 0 .writeFailed)] ++ drawRun false ++ writeRun false ++
    readRun false 1 20

theorem redialRun_isSome :
    (StepSystem.run (step incrCodec byteMsgpack) twoNodes redialRun).isSome = true := by
  decide +kernel

theorem handed_of_quiet_redial :
    ∃ s, StepSystem.run (step incrCodec byteMsgpack) twoNodes redialRun = some s ∧
      ∃ e, (s false).appended[2 - 1]? = some e ∧ { e with seq := 2 } ∈ (s true).handed := by
  refine ⟨_, (Option.some_get redialRun_isSome).symm, ?_⟩
  exact handed_of_quiet incrCodec byteMsgpack twoNodeIDs [] (fun _ => newHLC 9) (fun _ => 8) false
    redialRun (Option.some_get redialRun_isSome).symm (by decide +kernel) (by decide +kernel)
    (by decide +kernel) 2 (by decide +kernel) (by decide +kernel)

def lossRun : List PairAction :=
  [.act false .startPeerReplicator, .act false (.append (firstIncr (bytes "a")))] ++
    drawRun false ++ writeRun false ++ [.act false (.breakConn 0)]

theorem lossRun_isSome :
    (StepSystem.run (step incrCodec byteMsgpack) twoNodes lossRun).isSome = true := by
  decide +kernel

/-- Nothing is in flight, the cursor is at the end of the log, and the peer was handed nothing. -/
theorem not_handed_of_quiet_loss :
    ∃ s, StepSystem.run (step incrCodec byteMsgpack) twoNodes lossRun = some s ∧
      (∀ cc ∈ (s false).link.conns, cc.inflight = [] ∧ cc.applying = []) ∧
      (s false).calls = [] ∧ (s false).node.log.head = 2 ∧
      (s false).node.peerSeqs (bytes "b") = some ((s false).node.log.head - 1) ∧
      (s false).node.log.earliest = 1 ∧ (s true).handed = [] := by
  refine ⟨_, (Option.some_get lossRun_isSome).symm, ?_⟩
  decide +kernel

end Pair

end Capacitor
