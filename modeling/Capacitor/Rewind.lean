import Capacitor.CursorSeed

/-!
# A handshake that moves the cursor back

`replicateToPeer` loads its cursor, reads a batch, sends it and stores the cursor advanced by the
length of the batch; `handleConn` stores the position that the peer reports in a handshake into the
same slot. Neither looks at what the other has done in the meantime. A position stored while a batch
that was loaded beyond it is on its way to the peer is overwritten, and what lies between is not
sent again. In every other interleaving each retained entry above the reported position is sent
again before the cursor passes it.
-/

namespace Capacitor

variable {V : Type*}

inductive RewindAction where
  | act (a : SideAction)
  | greet (firstBatch : Bool) (b : Batch)
  | applyRaw (wall : Int64) (raw : GoString)

def Call.target : Call → ℕ
  | .written p => p.lastSeq + p.raw.length
  | _ => 0

/-- A batch passes over nothing but what the ring has dropped. -/
def Drawn.SkipsDropped (earliest : ℕ) (p : Drawn) : Prop :=
  p.lastSeq < p.start ∧ ∀ q, p.lastSeq < q → q < p.start → q < earliest

def Call.SkipsDropped (earliest : ℕ) : Call → Prop
  | .drawn p => p.SkipsDropped earliest
  | .sending p _ => p.SkipsDropped earliest
  | _ => True

theorem Drawn.SkipsDropped.mono {earliest earliest' : ℕ} {p : Drawn}
    (h : p.SkipsDropped earliest) (hle : earliest ≤ earliest') : p.SkipsDropped earliest' :=
  ⟨h.1, fun q hlt hq => (h.2 q hlt hq).trans_le hle⟩

theorem Call.SkipsDropped.mono {earliest earliest' : ℕ} {call : Call}
    (h : call.SkipsDropped earliest) (hle : earliest ≤ earliest') :
    call.SkipsDropped earliest' := by
  cases call with
  | drawn p => exact Drawn.SkipsDropped.mono h hle
  | sending p seen => exact Drawn.SkipsDropped.mono h hle
  | _ => trivial

namespace Side

variable {c : Codec} {mp : Msgpack V} {peer : GoString} {d d' : Side V}

/-- The replicator for a peer and the handler of the connection from it. The replicator is not
stopped. -/
def rewindStep (c : Codec) (mp : Msgpack V) (peer : GoString) (d : Side V) :
    RewindAction → Option (Side V)
  | .act .stopPeerReplicator => none
  | .act a => d.act c peer a
  | .greet firstBatch b => if b.fromNode = peer then d.greet firstBatch b else none
  | .applyRaw wall raw => some (d.applyRaw c mp wall raw)

theorem rewindStep_cases {a : RewindAction} (h : d.rewindStep c mp peer a = some d') :
    (∃ a', a = .act a' ∧ a' ≠ .stopPeerReplicator ∧ d.act c peer a' = some d') ∨
      (∃ firstBatch b, a = .greet firstBatch b ∧ b.fromNode = peer ∧
        d.greet firstBatch b = some d') ∨
      ∃ wall raw, a = .applyRaw wall raw ∧ d' = d.applyRaw c mp wall raw := by
  cases a with
  | act a' =>
      left
      refine ⟨a', rfl, ?_⟩
      cases a' with
      | stopPeerReplicator => cases h
      | _ => exact ⟨nofun, h⟩
  | greet firstBatch b =>
      simp only [rewindStep] at h
      split_ifs at h with hfrom
      exact Or.inr (Or.inl ⟨firstBatch, b, rfl, hfrom, h⟩)
  | applyRaw wall raw => exact Or.inr (Or.inr ⟨wall, raw, rfl, (Option.some.inj h).symm⟩)

theorem earliest_le_act {a : SideAction} (h : d.act c peer a = some d') :
    d.node.log.earliest ≤ d'.node.log.earliest := by
  rcases act_log h with ⟨hlog, -⟩ | ⟨e, -, hlog, -⟩
  · rw [hlog]
  · exact DeltaLog.earliest_le_append hlog

theorem sent_append_act {a : SideAction} (h : d.act c peer a = some d') :
    ∃ more, d'.sent = d.sent ++ more := by
  cases acts_of_act h with
  | written => exact ⟨_, rfl⟩
  | _ => exact ⟨[], (List.append_nil _).symm⟩

theorem cursor_ne_none_act {a : SideAction} (h : d.act c peer a = some d')
    (ha : a ≠ .stopPeerReplicator) (hcur : d.node.peerSeqs peer ≠ none) :
    d'.node.peerSeqs peer ≠ none := by
  cases acts_of_act h with
  | loadOrStore => simp [Node.storeSeq]
  | store => simp [Node.storeSeq]
  | stopPeerReplicator => exact absurd rfl ha
  | _ => exact hcur

theorem skipsDropped_act {a : SideAction} (h : d.act c peer a = some d')
    (hd : ∀ call ∈ d.calls, call.SkipsDropped d.node.log.earliest) :
    ∀ call ∈ d'.calls, call.SkipsDropped d'.node.log.earliest := by
  have hle := earliest_le_act h
  refine act_forall_calls h hd (fun call hcall => hcall.mono hle) trivial (fun _ => trivial)
    (fun _ => trivial) (fun _ _ _ _ => trivial) ?_ ?_ (fun _ _ _ _ _ => trivial)
  · intro n raw _ _ _
    refine ⟨by dsimp only; omega, ?_⟩
    intro q hlt hq
    dsimp only at hlt hq
    omega
  · intro p hp
    exact Drawn.SkipsDropped.mono hp hle

theorem mem_drop_sent_of_written {k seen m q : ℕ} {p : Drawn}
    (hk : d.calls[k]? = some (.sending p seen))
    (h : d.act c peer (.sendBatch k .written) = some d') (hm : m ≤ d.sent.length)
    (hq : p.start ≤ q) (hlt : q < p.start + p.raw.length) : q ∈ d'.sent.drop m := by
  cases acts_of_act h with
  | written hk' _ =>
      obtain ⟨rfl, -⟩ := Call.sending.inj (Option.some.inj (hk.symm.trans hk'))
      rw [List.drop_append_of_le_length hm]
      exact List.mem_append_right _ (List.mem_range'_1.2 ⟨hq, hlt⟩)
  | failed _ hout => exact absurd rfl hout

/-- The number from which the batch that a call is sending was loaded. -/
def sendingFrom (d : Side V) (k : ℕ) : Option ℕ :=
  d.calls[k]?.bind (fun call => match call with
    | .sending p _ => some p.lastSeq
    | _ => none)

/-- A batch is sent only while the cursor is not below the number it was loaded from; and a position
is stored only when no call is about to store a greater one, and, unless it is the first, at or
below the cursor. -/
def KeepsRewind (peer : GoString) (d : Side V) : RewindAction → Prop
  | .act (.sendBatch k outcome) => outcome = .written →
      ∀ m ∈ d.sendingFrom k, ∀ n ∈ d.node.peerSeqs peer, m ≤ n
  | .greet _ b => ∀ hs ∈ b.handshake, (∀ call ∈ d.calls, call.target ≤ hs.lastSeenSeq) ∧
      (d.reported ≠ [] → ∀ n ∈ d.node.peerSeqs peer, hs.lastSeenSeq ≤ n)
  | _ => True

instance (peer : GoString) (d : Side V) :
    (a : RewindAction) → Decidable (d.KeepsRewind peer a)
  | .act (.sendBatch _ _) => inferInstanceAs (Decidable (_ → _))
  | .greet _ _ => inferInstanceAs (Decidable (∀ _ ∈ _, _))
  | .applyRaw _ _ => isTrue trivial
  | .act (.append _) | .act .checkStop | .act (.wake _) | .act (.seed _) | .act (.loadOrStore _)
  | .act (.getEntriesRaw _) | .act (.lastSeen _) | .act (.store _) | .act (.breakConn _)
  | .act .closeConn | .act .startPeerReplicator | .act .stopPeerReplicator => isTrue trivial

/-- Every retained number above `s` and up to `k` was sent after the first `m`. -/
def Resent (s m : ℕ) (d : Side V) (k : ℕ) : Prop :=
  ∀ q, s < q → q ≤ k → d.node.log.earliest ≤ q → q ∈ d.sent.drop m

/-- The state after the position `s` was stored when `m` numbers had been sent. -/
structure Rewound (peer : GoString) (s m : ℕ) (d : Side V) : Prop where
  exists_cursor : d.node.peerSeqs peer ≠ none
  cursor : ∀ k, d.node.peerSeqs peer = some k → Resent s m d k
  calls : ∀ call ∈ d.calls, Resent s m d call.target
  skips : ∀ call ∈ d.calls, call.SkipsDropped d.node.log.earliest
  sent : m ≤ d.sent.length
  reported : d.reported ≠ []

variable {s m : ℕ}

theorem resent_zero (s m : ℕ) (d : Side V) : Resent s m d 0 := by
  intro q hs hq
  omega

theorem Resent.mono {k : ℕ} (h : Resent s m d k)
    (hearliest : d.node.log.earliest ≤ d'.node.log.earliest)
    (hsent : ∃ more, d'.sent = d.sent ++ more) : Resent s m d' k := by
  obtain ⟨more, hmore⟩ := hsent
  intro q hs hq he
  have hmem := h q hs hq (hearliest.trans he)
  rw [hmore, List.drop_append]
  exact List.mem_append_left _ hmem

/-- A batch that was loaded at or below the cursor leaves nothing out. -/
theorem resent_written (h : Rewound peer s m d) {k seen : ℕ} {p : Drawn}
    (hk : d.calls[k]? = some (.sending p seen))
    (hkeeps : d.KeepsRewind peer (.act (.sendBatch k .written)))
    (hact : d.act c peer (.sendBatch k .written) = some d') :
    Resent s m d' (p.lastSeq + p.raw.length) := by
  obtain ⟨n, hn⟩ := Option.ne_none_iff_exists'.1 h.exists_cursor
  have hfrom : d.sendingFrom k = some p.lastSeq := by
    rw [sendingFrom, hk, Option.bind_some]
  have hle : p.lastSeq ≤ n := hkeeps rfl p.lastSeq hfrom n hn
  have hearliest := earliest_le_act hact
  obtain ⟨hstart, hskip⟩ : p.SkipsDropped d.node.log.earliest :=
    h.skips _ (List.mem_of_getElem? hk)
  intro q hs hq he
  by_cases hbelow : q ≤ p.lastSeq
  · exact (h.cursor n hn).mono hearliest (sent_append_act hact) q hs (hbelow.trans hle) he
  · by_cases hskipped : q < p.start
    · have hlt := hskip q (by omega) hskipped
      omega
    · exact mem_drop_sent_of_written hk hact h.sent (by omega) (by omega)

theorem Rewound.act (h : Rewound peer s m d) {a : SideAction} (ha : a ≠ .stopPeerReplicator)
    (hkeeps : d.KeepsRewind peer (.act a)) (hact : d.act c peer a = some d') :
    Rewound peer s m d' := by
  have hmono {k : ℕ} (hk : Resent s m d k) : Resent s m d' k :=
    hk.mono (earliest_le_act hact) (sent_append_act hact)
  refine ⟨cursor_ne_none_act hact ha h.exists_cursor, ?_, ?_, skipsDropped_act hact h.skips, ?_, ?_⟩
  · intro k hk
    rcases act_cursor hact hk with hcur | ⟨j, -, -, hnone⟩ | ⟨p, hp, rfl⟩
    · exact hmono (h.cursor k hcur)
    · exact absurd hnone h.exists_cursor
    · exact hmono (h.calls _ hp)
  · refine act_forall_calls hact h.calls (fun call hcall => hmono hcall) (resent_zero s m d')
      (fun _ => resent_zero s m d') (fun _ => resent_zero s m d')
      (fun _ _ _ _ => resent_zero s m d') (fun _ _ _ _ _ => resent_zero s m d')
      (fun _ _ => resent_zero s m d') ?_
    rintro k p seen rfl hk
    exact resent_written h hk hkeeps hact
  · obtain ⟨more, hmore⟩ := sent_append_act hact
    rw [hmore, List.length_append]
    have hsent := h.sent
    omega
  · rw [(act_frame hact).2.2.2.1]
    exact h.reported

theorem Rewound.greet (h : Rewound peer s m d) {firstBatch : Bool} {b : Batch}
    (hfrom : b.fromNode = peer) (hkeeps : d.KeepsRewind peer (.greet firstBatch b))
    (hgreet : d.greet firstBatch b = some d') : Rewound peer s m d' := by
  rw [greet_eq_some hgreet]
  refine ⟨?_, ?_, h.calls, h.skips, h.sent, by simp [h.reported]⟩
  · cases hb : b.handshake with
    | none => exact h.exists_cursor
    | some hs => simp [hfrom]
  · intro k hk
    cases hb : b.handshake with
    | none =>
        rw [hb] at hk
        exact h.cursor k hk
    | some hs =>
        obtain ⟨n, hn⟩ := Option.ne_none_iff_exists'.1 h.exists_cursor
        have hle := (hkeeps hs hb).2 h.reported n hn
        simp only [hb, Option.elim_some, hfrom, Function.update_self, Option.some.injEq] at hk
        subst hk
        intro q hs' hq he
        exact h.cursor n hn q hs' (hq.trans hle) he

theorem Rewound.rewindStep (h : Rewound peer s m d) {a : RewindAction}
    (hkeeps : d.KeepsRewind peer a) (hstep : d.rewindStep c mp peer a = some d') :
    Rewound peer s m d' := by
  rcases rewindStep_cases hstep with ⟨a', rfl, ha, hact⟩ | ⟨firstBatch, b, rfl, hfrom, hgreet⟩ |
    ⟨wall, raw, -, rfl⟩
  · exact h.act ha hkeeps hact
  · exact h.greet hfrom hkeeps hgreet
  · have hsame := d.sameSource_applyRaw c mp wall raw
    have hresent {k : ℕ} (hk : Resent s m d k) : Resent s m (d.applyRaw c mp wall raw) k := by
      intro q
      rw [hsame.log, hsame.sent]
      exact hk q
    constructor
    case exists_cursor =>
      rw [d.peerSeqs_applyRaw c mp wall raw]
      exact h.exists_cursor
    case cursor =>
      intro k hk
      rw [d.peerSeqs_applyRaw c mp wall raw] at hk
      exact hresent (h.cursor k hk)
    case calls =>
      intro call hcall
      rw [hsame.calls] at hcall
      exact hresent (h.calls call hcall)
    case skips =>
      rw [hsame.calls, hsame.log]
      exact h.skips
    case sent =>
      rw [hsame.sent]
      exact h.sent
    case reported =>
      rw [d.reported_applyRaw c mp wall raw]
      exact h.reported

section Runs

open Pair

end Runs

end Side
end Capacitor
