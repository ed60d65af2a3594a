import Capacitor.Admission
import Capacitor.Decoding

/-!
# Batches on a connection that breaks

What `handleConn` makes of the bytes that a client has written, cut off wherever the connection
broke: the batches take effect that have arrived as a whole, within the limit. Bytes in which the
token does not occur change nothing on the node, whatever else they are, but they can end its
process by the number of entries that they announce.
-/

namespace Capacitor

open StringReader Msgp

variable {V : Type*}

section Cut

variable [Rounding] (c : Codec) (mp : Msgpack V) {r : Readers} {a : Appenders}
  {maxLen maxSlices : ℕ} (wall : ℕ → Int64)

namespace Served

theorem handleConn_take (ha : a.Short) (hr : r.UndoStream a maxLen) {bs : List Batch}
    (hbs : ∀ b ∈ bs, b.Representable maxLen maxSlices) (k : ℕ) (n : Node V) :
    handleConn c mp r maxSlices wall n ((bs.flatMap (Batch.marshalMsg a)).take k) =
      serveAll c mp wall .malformed true ⟨n, 0⟩
        (whole (Batch.marshalMsg a) (min k maxConnBytes) bs) := by
  rw [handleConn, handleLoop_eq, List.take_take, min_comm maxConnBytes k,
    Batch.arriving_take ha hr hbs]

/-- Of what a client has written, the batches take effect that have arrived as a whole: those that
lie before the place where the connection breaks, and within the limit. -/
theorem handleConn_cut (ha : a.Short) (hr : r.UndoStream a maxLen) {bs : List Batch}
    (hbs : ∀ b ∈ bs, b.Representable maxLen maxSlices) (k : ℕ) (n : Node V) :
    ∃ pre, pre <+: bs ∧
      (pre.flatMap (Batch.marshalMsg a)).length ≤ min k maxConnBytes ∧
      (∀ pre', pre' <+: bs → (pre'.flatMap (Batch.marshalMsg a)).length ≤ min k maxConnBytes →
        pre' <+: pre) ∧
      handleConn c mp r maxSlices wall n ((bs.flatMap (Batch.marshalMsg a)).take k) =
        serveAll c mp wall .malformed true ⟨n, 0⟩ pre :=
  ⟨_, whole_isPrefix _ _ _, length_flatMap_whole_le _ _ _, fun _ => isPrefix_whole _,
    handleConn_take c mp wall ha hr hbs k n⟩

theorem exists_whole_handleConn (ha : a.Short) (hr : r.UndoStream a maxLen) {bs : List Batch}
    (hbs : ∀ b ∈ bs, b.Representable maxLen maxSlices) (n : Node V) :
    ∃ pre, pre <+: bs ∧ (pre.flatMap (Batch.marshalMsg a)).length ≤ maxConnBytes ∧
      (∀ pre', pre' <+: bs → (pre'.flatMap (Batch.marshalMsg a)).length ≤ maxConnBytes →
        pre' <+: pre) ∧
      handleConn c mp r maxSlices wall n (bs.flatMap (Batch.marshalMsg a)) =
        serveAll c mp wall .malformed true ⟨n, 0⟩ pre := by
  refine ⟨_, whole_isPrefix _ _ _, length_flatMap_whole_le _ _ _, fun _ => isPrefix_whole _, ?_⟩
  rw [handleConn, handleLoop_eq, Batch.arriving_take ha hr hbs]

/-- Bytes in which the token of the node does not occur change nothing on it. When they begin with
a batch that announces more entries than the memory holds, they end the process. -/
theorem handleConn_without_token (ha : a.Short) (hsized : a.Sized) (hr : r.UndoStream a maxLen)
    (hstring : Slices r.readString) {n : Node V} (htoken : n.authToken ≠ []) :
    (∀ bts, ¬ n.authToken <:+: bts →
      (handleConn c mp r maxSlices wall n bts).1 = ⟨n, 0⟩) ∧
    ∀ k < 2 ^ 32, maxSlices < k → ∀ rest, handleConn c mp r maxSlices wall n
      ([0x81, 0xa1, 0x65] ++ a.appendArrayHeader k ++ rest) = (⟨n, 0⟩, .failed .outOfMemory) := by
  constructor
  · intro bts h
    rw [handleConn, handleLoop]
    split
    · rfl
    · next b rest hrun =>
        have hrefused : n.handleHandshake true b = none := by
          have haccepted := Node.accepted_cons htoken true b []
          have hnot : ¬ b.Right n.authToken := by
            rintro ⟨hs, hmem, heq⟩
            have hinside := Batch.authToken_decodeMsg hstring hrun hs hmem
            rw [heq] at hinside
            exact h (hinside.trans (List.take_prefix _ _).isInfix)
          rw [accepted, if_pos rfl, admitted_cons_of_not_right hnot] at haccepted
          cases hn : n.handleHandshake true b with
          | none => rfl
          | some n' =>
              rw [hn] at haccepted
              cases haccepted
        rw [hrefused]
  · intro k hk hmemory rest
    have hlen := hsized.arrayHeader k
    have hfit : ([0x81, 0xa1, 0x65] ++ a.appendArrayHeader k).length ≤ maxConnBytes := by
      rw [List.length_append]
      unfold arrayHeaderSize at hlen
      unfold maxConnBytes
      simp only [List.length_cons, List.length_nil]
      omega
    have hrun := Batch.run_decodeMsg_announced ha hr hk hmemory
      (rest.take (maxConnBytes - ([0x81, 0xa1, 0x65] ++ a.appendArrayHeader k).length))
    rw [handleConn, handleLoop_eq, List.take_append, List.take_of_length_le hfit,
      Batch.arriving_of_error hrun]
    rfl

end Served

end Cut

namespace Served

/-- The connection breaks within the second batch. -/
theorem handleConn_cut_intrusion :
    let a := MessagePack.appenders (fun _ => 0)
    ∃ pre, pre <+: intrusion ∧ intrusion.take 1 <+: pre ∧
      (pre.flatMap (Batch.marshalMsg a)).length ≤ 80 ∧
      handleConn guardedCodec byteMsgpack (MessagePack.readers (fun _ => 0)) 1000 (fun _ => 20)
          guardedNode ((intrusion.flatMap (Batch.marshalMsg a)).take 80) =
        serveAll guardedCodec byteMsgpack (fun _ => 20) .malformed true ⟨guardedNode, 0⟩ pre := by
  intro a
  obtain ⟨pre, hpre, hfit, hmax, hconn⟩ := handleConn_cut guardedCodec byteMsgpack (fun _ => 20)
    (MessagePack.short_appenders (fun _ => 0)) (MessagePack.undoStream (fun _ => 0) (fun _ => 0))
    (show ∀ b ∈ intrusion, b.Representable (2 ^ 32 - 1) 1000 by decide +kernel) 80 guardedNode
  exact ⟨pre, hpre, hmax _ (List.take_prefix 1 intrusion) (by decide +kernel),
    hfit.trans (Nat.min_le_left _ _), hconn⟩

/-- A guess at the token, and eight bytes that end a process with room for a million entries. -/
theorem handleConn_without_token_guess :
    let a := MessagePack.appenders (fun _ => 0)
    let r := MessagePack.readers (fun _ => 0)
    let n : Node UInt8 := { guardedNode with authToken := bytes "secret" }
    (handleConn guardedCodec byteMsgpack r 1000000 (fun _ => 20) n
        (intrusion.flatMap (Batch.marshalMsg a))).1 = ⟨n, 0⟩ ∧
      handleConn guardedCodec byteMsgpack r 1000000 (fun _ => 20) n
          [0x81, 0xa1, 0x65, 0xdd, 0xff, 0xff, 0xff, 0xff] =
        (⟨n, 0⟩, .failed .outOfMemory) := by
  intro a r n
  obtain ⟨hquiet, hkilled⟩ := @handleConn_without_token _ _ guardedCodec byteMsgpack _ _ _ 1000000
    (fun _ => 20) (MessagePack.short_appenders (fun _ => 0))
    (MessagePack.sized_appenders (fun _ => 0)) (MessagePack.undoStream (fun _ => 0) (fun _ => 0))
    MessagePack.slices_readString (n := n) (by decide)
  have hbytes : [0x81, 0xa1, 0x65] ++ a.appendArrayHeader (2 ^ 32 - 1) ++ [] =
      [0x81, 0xa1, 0x65, 0xdd, 0xff, 0xff, 0xff, 0xff] := by decide +kernel
  have hend := hkilled (2 ^ 32 - 1) (by decide) (by decide) []
  rw [hbytes] at hend
  exact ⟨hquiet _ (by decide +kernel), hend⟩

end Served

/-- What `SendBatch` writes to a new connection when it is called with these groups of entries. -/
def Conn.sent (c : Codec) (nodeID : GoString) (h : Handshake) (groups : List (List LogEntry)) :
    List Batch :=
  (groups.foldl (fun cc g => Link.write ⟨nodeID, g.map c.marshalMsg, none⟩ h cc) newConn).inflight

namespace Conn

variable (c : Codec) (nodeID : GoString) (h : Handshake)

theorem inflight_foldl_write (groups : List (List LogEntry)) {cc : Conn}
    (hdone : cc.handshakeDone = true) (hbroken : cc.broken = false) :
    (groups.foldl (fun cc g => Link.write ⟨nodeID, g.map c.marshalMsg, none⟩ h cc) cc).inflight =
      cc.inflight ++ groups.map (fun g => ⟨nodeID, g.map c.marshalMsg, none⟩) := by
  induction groups generalizing cc with
  | nil => exact (List.append_nil _).symm
  | cons g groups ih =>
      have htail := @ih (Link.write ⟨nodeID, g.map c.marshalMsg, none⟩ h cc) rfl hbroken
      rw [List.foldl_cons, htail]
      simp [Link.write, hdone, hbroken]

theorem sent_cons (g : List LogEntry) (groups : List (List LogEntry)) :
    sent c nodeID h (g :: groups) = ⟨nodeID, g.map c.marshalMsg, some h⟩ ::
      groups.map (fun g => ⟨nodeID, g.map c.marshalMsg, none⟩) := by
  rw [sent, List.foldl_cons, inflight_foldl_write c nodeID h groups rfl rfl]
  rfl

theorem greets_sent (groups : List (List LogEntry)) :
    Greets h.authToken (sent c nodeID h groups) := by
  cases groups with
  | nil => trivial
  | cons g groups =>
      rw [sent_cons]
      refine ⟨⟨h, rfl, rfl⟩, fun b hb => ?_⟩
      obtain ⟨g', -, rfl⟩ := List.mem_map.1 hb
      rfl

theorem report_sent (groups : List (List LogEntry)) :
    (sent c nodeID h groups).filterMap Batch.report =
      if groups = [] then [] else [(nodeID, h.lastSeenSeq)] := by
  cases groups with
  | nil => rfl
  | cons g groups =>
      rw [sent_cons, if_neg (List.cons_ne_nil g groups)]
      have hplain : (groups.map (fun g => (⟨nodeID, g.map c.marshalMsg, none⟩ : Batch))).filterMap
          Batch.report = [] := by
        rw [List.filterMap_map]
        exact List.filterMap_eq_nil_iff.2 (fun _ _ => rfl)
      have hfirst : Batch.report ⟨nodeID, g.map c.marshalMsg, some h⟩ =
          some (nodeID, h.lastSeenSeq) := rfl
      rw [List.filterMap_cons_some hfirst, hplain]

theorem map_entries_sent (groups : List (List LogEntry)) :
    (sent c nodeID h groups).map Batch.entries = groups.map (List.map c.marshalMsg) := by
  cases groups with
  | nil => rfl
  | cons g groups => simp [sent_cons, Function.comp_def]

theorem decoded_sent (groups : List (List LogEntry))
    (hentry : ∀ g ∈ groups, ∀ e ∈ g, c.unmarshalMsg (c.marshalMsg e) = some e) :
    (sent c nodeID h groups).flatMap (Batch.decoded c) = groups.flatten := by
  have hall : (sent c nodeID h groups).flatMap (Batch.decoded c) =
      ((sent c nodeID h groups).map Batch.entries).flatMap
        (fun raws => raws.filterMap c.unmarshalMsg) := by
    rw [List.flatMap_map]
    rfl
  rw [hall, map_entries_sent, List.flatMap_map, ← List.flatMap_id]
  refine List.flatMap_congr (fun g hg => ?_)
  have hsome : g.filterMap (c.unmarshalMsg ∘ c.marshalMsg) = g.filterMap some :=
    List.filterMap_congr (hentry g hg)
  rw [List.filterMap_map, hsome, List.filterMap_some]
  rfl

theorem length_sent (groups : List (List LogEntry)) :
    (sent c nodeID h groups).length = groups.length := by
  have hlength := congrArg List.length (map_entries_sent c nodeID h groups)
  rwa [List.length_map, List.length_map] at hlength

theorem take_sent (groups : List (List LogEntry)) (m : ℕ) :
    (sent c nodeID h groups).take m = sent c nodeID h (groups.take m) := by
  cases groups with
  | nil => rw [List.take_nil]; exact List.take_nil
  | cons g groups =>
      cases m with
      | zero => rfl
      | succ m => rw [sent_cons, List.take_succ_cons, List.take_succ_cons, sent_cons, List.map_take]

theorem representable_sent {maxLen maxSlices : ℕ} {groups : List (List LogEntry)}
    (hnode : nodeID.length ≤ maxLen) (hh : h.Representable maxLen)
    (hgroups : ∀ g ∈ groups, g.length < 2 ^ 32 ∧ g.length ≤ maxSlices)
    (hraw : ∀ g ∈ groups, ∀ e ∈ g, (c.marshalMsg e).length ≤ maxLen) :
    ∀ b ∈ sent c nodeID h groups, b.Representable maxLen maxSlices := by
  have hbatch {g : List LogEntry} (hg : g ∈ groups) {handshake : Option Handshake}
      (hhandshake : ∀ h ∈ handshake, h.Representable maxLen) :
      Batch.Representable maxLen maxSlices ⟨nodeID, g.map c.marshalMsg, handshake⟩ := by
    refine ⟨hnode, ?_, ?_, hhandshake⟩
    · rw [List.length_map]
      exact hgroups g hg
    · intro raw hmem
      obtain ⟨e, he, rfl⟩ := List.mem_map.1 hmem
      exact hraw g hg e he
  cases groups with
  | nil => exact fun b hb => absurd hb List.not_mem_nil
  | cons g groups =>
      intro b hb
      rw [sent_cons] at hb
      rcases List.mem_cons.1 hb with rfl | hb
      · exact hbatch List.mem_cons_self (fun h' hh' => Option.some.inj hh' ▸ hh)
      · obtain ⟨g', hg', rfl⟩ := List.mem_map.1 hb
        exact hbatch (List.mem_cons_of_mem g hg') (fun h' hh' => by cases hh')

end Conn

namespace Served

section Sent

variable [Rounding] (mp : Msgpack V) {r : Readers} {a : Appenders} {maxLen maxSlices : ℕ}
  (wall : ℕ → Int64)

/-- However a connection ends, the receiver has applied the entries of the first `m` groups that
were sent, each of them once and in their order, where `m` is the number of groups whose bytes have
come through within the limit. -/
theorem handleConn_sent (ha : a.Short) (hsized : a.Sized) (hbytes : r.UndoBytes a maxLen)
    (hstream : r.UndoStream a maxLen) (emptyIsNil : LogEntry → Bool) {n : Node V}
    {nodeID : GoString} {h : Handshake} (hnode : nodeID.length ≤ maxLen)
    (hh : h.Representable maxLen) (htoken : n.authToken = [] ∨ h.authToken = n.authToken)
    {groups : List (List LogEntry)}
    (hgroups : ∀ g ∈ groups, g.length < 2 ^ 32 ∧ g.length ≤ maxSlices)
    (hentry : ∀ g ∈ groups, ∀ e ∈ g, e.Representable r a maxLen ∧
      (e.marshalMsg a (emptyIsNil e)).length ≤ maxLen) (cut : ℕ) :
    let c := wireCodec r a hsized emptyIsNil
    let size := fun m =>
      (((Conn.sent c nodeID h groups).take m).flatMap (Batch.marshalMsg a)).length
    ∃ m ≤ groups.length, size m ≤ min cut maxConnBytes ∧
      (m < groups.length → min cut maxConnBytes < size (m + 1)) ∧
      handleConn c mp r maxSlices wall n
          (((Conn.sent c nodeID h groups).flatMap (Batch.marshalMsg a)).take cut) =
        (⟨{ n with
            replica := (groups.take m).flatten.zipIdx.foldl
              (fun r p => applyRemoteEntry mp r (wall p.2) p.1) n.replica
            peerSeqs :=
              if m = 0 then n.peerSeqs
              else Function.update n.peerSeqs nodeID (some h.lastSeenSeq) },
          (groups.take m).flatten.length⟩, .failed .malformed) := by
  intro c size
  have hbs := Conn.representable_sent c nodeID h hnode hh hgroups
    (fun g hg e he => (hentry g hg e he).2)
  have hlength := Conn.length_sent c nodeID h groups
  have hbegin := whole_isPrefix (Batch.marshalMsg a) (min cut maxConnBytes)
    (Conn.sent c nodeID h groups)
  have htake := List.prefix_iff_eq_take.1 hbegin
  set m := (whole (Batch.marshalMsg a) (min cut maxConnBytes)
    (Conn.sent c nodeID h groups)).length
  have hm : m ≤ groups.length := hlength ▸ hbegin.length_le
  refine ⟨m, hm, ?_, fun hlt => ?_, ?_⟩
  · have hfit := length_flatMap_whole_le (Batch.marshalMsg a) (min cut maxConnBytes)
      (Conn.sent c nodeID h groups)
    rwa [htake] at hfit
  · by_contra hle
    have hlonger := isPrefix_whole (Batch.marshalMsg a)
      (List.take_prefix (m + 1) (Conn.sent c nodeID h groups)) (not_lt.1 hle)
    have hlen := hlonger.length_le
    rw [List.length_take, hlength] at hlen
    omega
  · have hdecoded := Conn.decoded_sent c nodeID h (groups.take m)
      (fun g hg e he =>
        wireCodec_unmarshalMsg ha hbytes (hentry g (List.mem_of_mem_take hg) e he).1)
    have hempty : groups.take m = [] ↔ m = 0 := by
      rw [List.take_eq_nil_iff]
      refine or_iff_left_of_imp (fun hnil => ?_)
      rw [hnil] at hm
      exact Nat.le_zero.1 hm
    rw [handleConn_take c mp wall ha hstream hbs, htake, Conn.take_sent,
      serveAll_of_greets c mp wall .malformed htoken (Conn.greets_sent c nodeID h _),
      foldl_applyBatch_eq, hdecoded, Conn.report_sent]
    simp only [hempty, Nat.zero_add]
    split_ifs <;> rfl

end Sent

/-- Two groups of one entry come through as a whole. -/
theorem handleConn_sent_groups :
    let a := MessagePack.appenders (fun _ => 0)
    let r := MessagePack.readers (fun _ => 0)
    let c := wireCodec r a (MessagePack.sized_appenders _) (fun _ => true)
    (handleConn c byteMsgpack r 1000 (fun _ => 20) guardedNode
        (((Conn.sent c (bytes "b") ⟨1, bytes "t"⟩ [[firstEntry], [secondEntry]]).flatMap
          (Batch.marshalMsg a)).take 1000)).1.node =
      { guardedNode with
        replica := applyRemoteEntry byteMsgpack
          (applyRemoteEntry byteMsgpack guardedNode.replica 20 firstEntry) 20 secondEntry
        peerSeqs := Function.update guardedNode.peerSeqs (bytes "b") (some 1) } := by
  intro a r c
  have hentry : ∀ g ∈ [[firstEntry], [secondEntry]], ∀ e ∈ g,
      e.Representable r a (2 ^ 32 - 1) ∧ (e.marshalMsg a true).length ≤ 2 ^ 32 - 1 := by
    have hzero : StringReader.Reads .malformed r.readFloat64Bytes (a.appendFloat64 0) 0 :=
      MessagePack.reads_readFloat64 _ _ rfl
    intro g hg e he
    rcases List.mem_pair.1 hg with rfl | rfl
    · obtain rfl := List.mem_singleton.1 he
      exact ⟨⟨by decide, by decide, by decide, by decide, by decide, hzero⟩, by decide +kernel⟩
    · obtain rfl := List.mem_singleton.1 he
      exact ⟨⟨by decide, by decide, by decide, by decide, by decide, hzero⟩, by decide +kernel⟩
  obtain ⟨m, hm, -, hmax, hconn⟩ := handleConn_sent byteMsgpack (fun _ => 20)
    (MessagePack.short_appenders (fun _ => 0)) (MessagePack.sized_appenders (fun _ => 0))
    (MessagePack.undoBytes (fun _ => 0) (fun _ => 0))
    (MessagePack.undoStream (fun _ => 0) (fun _ => 0)) (fun _ => true) (n := guardedNode)
    (show (bytes "b").length ≤ 2 ^ 32 - 1 by decide)
    (show Handshake.Representable (2 ^ 32 - 1) ⟨1, bytes "t"⟩ by decide) (Or.inr rfl)
    (show ∀ g ∈ [[firstEntry], [secondEntry]], g.length < 2 ^ 32 ∧ g.length ≤ 1000 by decide)
    hentry 1000
  have htwo : m = 2 := by
    have hle : m ≤ 2 := hm
    interval_cases m
    · exact absurd (hmax (by decide)) (by decide +kernel)
    · exact absurd (hmax (by decide)) (by decide +kernel)
    · rfl
  subst htwo
  rw [hconn]
  rfl

end Served

end Capacitor
