import Capacitor.Replication

/-!
# What is under way on the connections of a client

A raw entry is in flight while a connection holds a batch with it, or the server has read it and not
yet applied it. Only the breaking of a connection takes entries away that were not read. `Orderly`
is what authentication needs: the first batch that the server reads from a connection carries the
handshake with the token of the client, so that a server with the same token refuses nothing.
-/

namespace Capacitor

/-- The raw entries on the connection that the server has not applied. -/
def Conn.unapplied (cc : Conn) : List GoString := cc.applying ++ cc.inflight.flatMap Batch.entries

namespace Link

variable {w : Link} {k : ℕ} {raw : GoString}

def InFlight (w : Link) (raw : GoString) : Prop := ∃ cc ∈ w.conns, raw ∈ cc.unapplied

theorem mem_unapplied_write (b : Batch) (h : Handshake) (cc : Conn) :
    raw ∈ (write b h cc).unapplied ↔ raw ∈ cc.unapplied ∨ cc.broken = false ∧ raw ∈ b.entries := by
  cases hbroken : cc.broken with
  | true => simp [write, Conn.unapplied, hbroken]
  | false =>
      cases hdone : cc.handshakeDone with
      | true => simp [write, Conn.unapplied, hbroken, hdone, or_assoc]
      | false => simp [write, Conn.unapplied, hbroken, hdone, or_assoc]

theorem unapplied_read {cc : Conn} (hidle : cc.applying = []) :
    Conn.unapplied { cc with
      firstBatch := false
      inflight := cc.inflight.tail
      applying := cc.inflight.head?.elim [] Batch.entries } = cc.unapplied := by
  cases hflight : cc.inflight with
  | nil => simp [Conn.unapplied, hflight, hidle]
  | cons b rest => simp [Conn.unapplied, hflight, hidle]

theorem exists_conns_modify {P : Conn → Prop} {f : Conn → Conn} (h : ∃ cc ∈ w.conns, P cc)
    (hf : ∀ cc, w.conns[k]? = some cc → P cc → P (f cc)) :
    ∃ cc ∈ (w.modify k f).conns, P cc := by
  obtain ⟨cc, hcc, hP⟩ := h
  obtain ⟨j, hj⟩ := List.getElem?_of_mem hcc
  have hmodify : (w.modify k f).conns[j]? = some (if k = j then f cc else cc) := by
    simp only [modify, List.getElem?_modify, hj]
    split_ifs
    · rfl
    · rfl
  refine ⟨_, List.mem_of_getElem? hmodify, ?_⟩
  by_cases hkj : k = j
  · subst j
    rw [if_pos rfl]
    exact hf cc hj hP
  · rw [if_neg hkj]
    exact hP

theorem dial_conns_of_mem {cc : Conn} (h : cc ∈ w.conns) : cc ∈ w.dial.1.conns := by
  unfold dial
  cases w.current with
  | some k => exact h
  | none => exact List.mem_append_left _ h

theorem InFlight.sendBatch (hraw : w.InFlight raw) {b : Batch} {h : Handshake}
    {outcome : SendOutcome} {r : Link × Bool} (hsend : w.sendBatch b h outcome = some r) :
    r.1.InFlight raw := by
  have hdial : w.dial.1.InFlight raw := by
    obtain ⟨cc, hcc, hflight⟩ := hraw
    exact ⟨cc, dial_conns_of_mem hcc, hflight⟩
  cases outcome with
  | dialFailed =>
      simp only [Link.sendBatch] at hsend
      split_ifs at hsend
      obtain rfl := Option.some.inj hsend
      exact hraw
  | written =>
      obtain rfl := Option.some.inj hsend
      exact exists_conns_modify hdial
        (fun cc _ hcc => (mem_unapplied_write b h cc).2 (Or.inl hcc))
  | writeFailed =>
      obtain rfl := Option.some.inj hsend
      exact exists_conns_modify hdial (fun _ _ hcc => hcc)
  | closed =>
      obtain rfl := Option.some.inj hsend
      exact hraw

theorem InFlight.breakConn (hraw : w.InFlight raw)
    (hidle : ∀ cc ∈ w.conns[k]?, cc.inflight = []) : (w.breakConn k).InFlight raw := by
  refine exists_conns_modify hraw ?_
  intro cc hcc hmem
  rw [Conn.unapplied, hidle cc hcc] at hmem
  exact hmem

theorem InFlight.read (hraw : w.InFlight raw) {p : Bool × Batch} (hp : w.next k = some p) :
    (w.read k).InFlight raw := by
  obtain ⟨cc₀, hcc₀, hidle, _⟩ := next_eq_some hp
  refine exists_conns_modify hraw ?_
  intro cc hcc hmem
  obtain rfl : cc₀ = cc := Option.some.inj (hcc₀.symm.trans hcc)
  rw [unapplied_read hidle]
  exact hmem

theorem InFlight.applied (hraw : w.InFlight raw) {raw' : GoString}
    (hnext : w.nextEntry k = some raw') : (w.applied k).InFlight raw ∨ raw = raw' := by
  by_cases hne : raw = raw'
  · exact Or.inr hne
  · left
    obtain ⟨cc₀, hcc₀, hhead⟩ := Option.bind_eq_some_iff.1 hnext
    refine exists_conns_modify hraw ?_
    intro cc hcc hmem
    obtain rfl : cc₀ = cc := Option.some.inj (hcc₀.symm.trans hcc)
    rw [Conn.unapplied, ← List.cons_head?_tail hhead, List.cons_append] at hmem
    rcases List.mem_cons.1 hmem with heq | hrest
    · exact absurd heq hne
    · exact hrest

section Unapplied

variable {P : GoString → Prop} (hw : ∀ cc ∈ w.conns, ∀ raw ∈ cc.unapplied, P raw)

include hw

theorem forall_unapplied_sendBatch {b : Batch} {h : Handshake} {outcome : SendOutcome}
    (hb : outcome = .written → ∀ raw ∈ b.entries, P raw) {r : Link × Bool}
    (hsend : w.sendBatch b h outcome = some r) : ∀ cc ∈ r.1.conns, ∀ raw ∈ cc.unapplied, P raw := by
  refine forall_conns_sendBatch hw (fun raw hraw => by cases hraw) ?_ (fun cc hcc => hcc) hsend
  intro hwritten cc hcc raw hraw
  rcases (mem_unapplied_write b h cc).1 hraw with hold | ⟨_, hnew⟩
  · exact hcc raw hold
  · exact hb hwritten raw hnew

theorem forall_unapplied_breakConn (k : ℕ) :
    ∀ cc ∈ (w.breakConn k).conns, ∀ raw ∈ cc.unapplied, P raw := by
  refine forall_conns_modify hw ?_
  intro cc hcc raw hraw
  rw [Conn.unapplied, List.flatMap_nil, List.append_nil] at hraw
  exact hw cc (List.mem_of_getElem? hcc) raw (List.mem_append_left _ hraw)

theorem forall_unapplied_read {p : Bool × Batch} (hp : w.next k = some p) :
    ∀ cc ∈ (w.read k).conns, ∀ raw ∈ cc.unapplied, P raw := by
  obtain ⟨cc₀, hcc₀, hidle, _⟩ := next_eq_some hp
  refine forall_conns_modify hw ?_
  intro cc hcc
  obtain rfl : cc₀ = cc := Option.some.inj (hcc₀.symm.trans hcc)
  rw [unapplied_read hidle]
  exact hw cc₀ (List.mem_of_getElem? hcc)

theorem forall_unapplied_applied (k : ℕ) :
    ∀ cc ∈ (w.applied k).conns, ∀ raw ∈ cc.unapplied, P raw := by
  refine forall_conns_modify hw ?_
  intro cc hcc raw hraw
  refine hw cc (List.mem_of_getElem? hcc) raw ?_
  rcases List.mem_append.1 hraw with htail | hflight
  · exact List.mem_append_left _ (List.mem_of_mem_tail htail)
  · exact List.mem_append_right _ hflight

theorem forall_unapplied_nextEntry (hnext : w.nextEntry k = some raw) : P raw := by
  obtain ⟨cc, hcc, hhead⟩ := Option.bind_eq_some_iff.1 hnext
  exact hw cc (List.mem_of_getElem? hcc) raw
    (List.mem_append_left _ (List.mem_of_mem_head? hhead))

end Unapplied

def Introduced (cc : Conn) : Prop :=
  cc.broken = false → cc.handshakeDone = true → cc.firstBatch = true → cc.inflight ≠ []

structure Orderly (token : GoString) (w : Link) : Prop where
  current_lt : ∀ k, w.current = some k → k < w.conns.length
  introduced : ∀ k cc, w.current = some k → w.conns[k]? = some cc → Introduced cc
  unused : ∀ cc ∈ w.conns, cc.handshakeDone = false → cc.firstBatch = true ∧ cc.inflight = []
  token : ∀ cc ∈ w.conns, ∀ b ∈ cc.inflight, ∀ hs, b.handshake = some hs → hs.authToken = token
  first : ∀ cc ∈ w.conns, cc.firstBatch = true → ∀ b, cc.inflight.head? = some b →
    b.handshake ≠ none

namespace Orderly

variable {token : GoString}

theorem empty (token : GoString) : Link.empty.Orderly token where
  current_lt k hk := by cases hk
  introduced k cc hk := by cases hk
  unused cc hcc := by cases hcc
  token cc hcc := by cases hcc
  first cc hcc := by cases hcc

theorem closeConn (hw : w.Orderly token) : w.closeConn.Orderly token where
  current_lt k hk := by cases hk
  introduced k cc hk := by cases hk
  unused := hw.unused
  token := hw.token
  first := hw.first

theorem dial (hw : w.Orderly token) : w.dial.1.Orderly token := by
  have hunused := forall_conns_dial hw.unused (fun _ => ⟨rfl, rfl⟩)
  have htoken := forall_conns_dial hw.token (fun b hb => by cases hb)
  have hfirst := forall_conns_dial hw.first (fun _ b hb => by cases hb)
  refine ⟨?_, ?_, hunused, htoken, hfirst⟩
  · unfold Link.dial
    cases hcur : w.current with
    | some k => exact hw.current_lt
    | none =>
        intro j hj
        obtain rfl := Option.some.inj hj
        simp
  · unfold Link.dial
    cases hcur : w.current with
    | some k => exact hw.introduced
    | none =>
        intro j cc hj hcc
        obtain rfl := Option.some.inj hj
        simp only [List.getElem?_append_right le_rfl, Nat.sub_self, List.getElem?_cons_zero,
          Option.some.injEq] at hcc
        subst hcc
        intro _ hdone
        cases hdone

theorem dial_current (w : Link) : w.dial.1.current = some w.dial.2 := by
  unfold Link.dial
  cases hcur : w.current with
  | some k => exact hcur
  | none => rfl

theorem modify (hw : w.Orderly token) {f : Conn → Conn}
    (hintro : ∀ cc, w.conns[k]? = some cc → w.current = some k → Introduced (f cc))
    (hunused : ∀ cc, w.conns[k]? = some cc → (f cc).handshakeDone = false →
      (f cc).firstBatch = true ∧ (f cc).inflight = [])
    (htoken : ∀ cc, w.conns[k]? = some cc → ∀ b ∈ (f cc).inflight, ∀ hs, b.handshake = some hs →
      hs.authToken = token)
    (hfirst : ∀ cc, w.conns[k]? = some cc → (f cc).firstBatch = true →
      ∀ b, (f cc).inflight.head? = some b → b.handshake ≠ none) :
    (w.modify k f).Orderly token := by
  refine ⟨?_, ?_, forall_conns_modify hw.unused hunused, forall_conns_modify hw.token htoken,
    forall_conns_modify hw.first hfirst⟩
  · intro j hj
    have hlt := hw.current_lt j hj
    simpa only [Link.modify, List.length_modify] using hlt
  · intro j cc hj hcc
    simp only [Link.modify, List.getElem?_modify] at hcc
    obtain ⟨cc', hcc', rfl⟩ := Option.map_eq_some_iff.1 hcc
    by_cases hkj : k = j
    · subst j
      rw [if_pos rfl]
      exact hintro cc' hcc' hj
    · rw [if_neg hkj]
      exact hw.introduced j cc' hj hcc'

theorem breakConn (hw : w.Orderly token) (k : ℕ) : (w.breakConn k).Orderly token := by
  refine hw.modify ?_ ?_ ?_ ?_
  · intro cc _ _ hbroken
    cases hbroken
  · intro cc hcc hdone
    exact ⟨(hw.unused cc (List.mem_of_getElem? hcc) hdone).1, rfl⟩
  · intro cc _ b hb
    cases hb
  · intro cc _ _ b hb
    cases hb

theorem read (hw : w.Orderly token) {p : Bool × Batch} (hp : w.next k = some p) :
    (w.read k).Orderly token := by
  obtain ⟨cc₀, hcc₀, _, _, hhead⟩ := next_eq_some hp
  refine hw.modify ?_ ?_ ?_ ?_
  · intro cc _ _ _ _ hfirst
    cases hfirst
  · intro cc hcc hdone
    obtain rfl : cc₀ = cc := Option.some.inj (hcc₀.symm.trans hcc)
    have hempty := (hw.unused cc₀ (List.mem_of_getElem? hcc) hdone).2
    rw [hempty] at hhead
    cases hhead
  · intro cc hcc b hb
    exact hw.token cc (List.mem_of_getElem? hcc) b (List.mem_of_mem_tail hb)
  · intro cc _ hfirst
    cases hfirst

theorem applied (hw : w.Orderly token) (k : ℕ) : (w.applied k).Orderly token :=
  hw.modify (fun cc hcc hcur => hw.introduced k cc hcur hcc)
    (fun cc hcc => hw.unused cc (List.mem_of_getElem? hcc))
    (fun cc hcc => hw.token cc (List.mem_of_getElem? hcc))
    (fun cc hcc => hw.first cc (List.mem_of_getElem? hcc))

theorem write (hw : w.Orderly token) {b : Batch} (hb : b.handshake = none) {h : Handshake}
    (hh : h.authToken = token) (hk : w.current = some k) :
    (w.modify k (Link.write b h)).Orderly token := by
  refine hw.modify ?_ ?_ ?_ ?_
  · intro cc _ _ hbroken _ _
    change cc.broken = false at hbroken
    simp [Link.write, hbroken]
  · intro cc _ hdone
    cases hdone
  · intro cc hcc
    refine forall_inflight_write (hw.token cc (List.mem_of_getElem? hcc)) ?_ ?_
    · intro hs hhs
      rw [hb] at hhs
      cases hhs
    · intro hs hhs
      rw [← Option.some.inj hhs]
      exact hh
  · intro cc hcc hfirst b' hb'
    rcases head?_inflight_write hb' with hhead | ⟨hflight, hbroken, rfl⟩
    · exact hw.first cc (List.mem_of_getElem? hcc) hfirst b' hhead
    · cases hdone : cc.handshakeDone with
      | true => exact absurd hflight (hw.introduced k cc hk hcc hbroken hdone hfirst)
      | false =>
          rw [if_neg Bool.false_ne_true]
          exact Option.some_ne_none h

theorem sendBatch (hw : w.Orderly token) {b : Batch} (hb : b.handshake = none) {h : Handshake}
    (hh : h.authToken = token) {outcome : SendOutcome} {r : Link × Bool}
    (hsend : w.sendBatch b h outcome = some r) : r.1.Orderly token := by
  cases outcome with
  | dialFailed =>
      simp only [Link.sendBatch] at hsend
      split_ifs at hsend
      obtain rfl := Option.some.inj hsend
      exact hw
  | written =>
      obtain rfl := Option.some.inj hsend
      exact hw.dial.write hb hh (dial_current w)
  | writeFailed =>
      obtain rfl := Option.some.inj hsend
      have hmem {cc : Conn} (hcc : w.dial.1.conns[w.dial.2]? = some cc) : cc ∈ w.dial.1.conns :=
        List.mem_of_getElem? hcc
      have hclosed := hw.dial.closeConn
      refine hclosed.modify (k := w.dial.2) (f := fun cc => { cc with handshakeDone := true })
        ?_ ?_ ?_ ?_
      · intro cc _ hcur
        cases hcur
      · intro cc _ hdone
        cases hdone
      · exact fun cc hcc => hw.dial.token cc (hmem hcc)
      · exact fun cc hcc => hw.dial.first cc (hmem hcc)
  | closed =>
      obtain rfl := Option.some.inj hsend
      exact hw

theorem inFlight_written (hw : w.Orderly token)
    (hopen : ∀ k ∈ w.current, ∀ cc ∈ w.conns[k]?, cc.broken = false) {b : Batch} {h : Handshake}
    (hraw : raw ∈ b.entries) :
    (w.dial.1.modify w.dial.2 (Link.write b h)).InFlight raw := by
  have hlt := hw.dial.current_lt w.dial.2 (dial_current w)
  obtain ⟨cc, hcc⟩ : ∃ cc, w.dial.1.conns[w.dial.2]? = some cc :=
    ⟨_, List.getElem?_eq_getElem hlt⟩
  have hbroken : cc.broken = false := by
    unfold Link.dial at hcc
    cases hcur : w.current with
    | some k =>
        rw [hcur] at hcc
        exact hopen k hcur cc hcc
    | none =>
        simp only [hcur, List.getElem?_append_right le_rfl, Nat.sub_self,
          List.getElem?_cons_zero, Option.some.injEq] at hcc
        rw [← hcc]
        rfl
  have hwritten : (w.dial.1.modify w.dial.2 (Link.write b h)).conns[w.dial.2]? =
      some (Link.write b h cc) := by
    simp [Link.modify, hcc]
  exact ⟨_, List.mem_of_getElem? hwritten, (mem_unapplied_write b h cc).2 (Or.inr ⟨hbroken, hraw⟩)⟩

theorem greet_isSome {V : Type*} (hw : w.Orderly token) {p : Bool × Batch}
    (hp : w.next k = some p) {d : Side V} (hd : d.node.authToken = token) :
    (d.greet p.1 p.2).isSome = true := by
  obtain ⟨cc, hcc, _, hfirst, hhead⟩ := next_eq_some hp
  have hmem := List.mem_of_getElem? hcc
  rw [Side.greet, Option.isSome_map]
  apply Node.handleHandshake_isSome
  · rw [hd]
    exact hw.token cc hmem p.2 (List.mem_of_mem_head? hhead)
  · intro htrue
    exact hw.first cc hmem (hfirst.symm.trans htrue) p.2 hhead

end Orderly

end Link

namespace Side

variable {V : Type*} {c : Codec} {peer : GoString} {d d' : Side V} {a : SideAction}

theorem act_orderly (hd : d.link.Orderly d.node.authToken) (h : d.act c peer a = some d') :
    d'.link.Orderly d.node.authToken := by
  cases acts_of_act h with
  | written _ hsend => exact hd.sendBatch rfl rfl hsend
  | failed _ _ hsend => exact hd.sendBatch rfl rfl hsend
  | breakConn k => exact hd.breakConn k
  | closeConn => exact hd.closeConn
  | _ => exact hd

/-- Nothing gets lost on the way by this step: a connection breaks only when nothing is under way on
it, and no batch is written to a broken one. -/
def KeepsFlight (d : Side V) : SideAction → Prop
  | .sendBatch _ .written => ∀ k ∈ d.link.current, ∀ cc ∈ d.link.conns[k]?, cc.broken = false
  | .breakConn k => ∀ cc ∈ d.link.conns[k]?, cc.inflight = []
  | _ => True

instance (d : Side V) : (a : SideAction) → Decidable (d.KeepsFlight a)
  | .sendBatch _ .written => inferInstanceAs (Decidable (∀ k ∈ d.link.current, _))
  | .breakConn k => inferInstanceAs (Decidable (∀ cc ∈ d.link.conns[k]?, _))
  | .append _ | .checkStop | .wake _ | .seed _ | .loadOrStore _ | .getEntriesRaw _ | .lastSeen _
  | .sendBatch _ .dialFailed | .sendBatch _ .writeFailed | .sendBatch _ .closed | .store _
  | .closeConn | .startPeerReplicator | .stopPeerReplicator => isTrue trivial

theorem act_inFlight (ha : d.KeepsFlight a) (h : d.act c peer a = some d') {raw : GoString}
    (hraw : d.link.InFlight raw) : d'.link.InFlight raw := by
  cases acts_of_act h with
  | written _ hsend => exact hraw.sendBatch hsend
  | failed _ _ hsend => exact hraw.sendBatch hsend
  | breakConn k => exact hraw.breakConn ha
  | _ => exact hraw

/-- A property of raw entries that the entries the node writes have is kept by every step of it. -/
theorem act_forall_unapplied {P : GoString → Prop}
    (hd : ∀ cc ∈ d.link.conns, ∀ raw ∈ cc.unapplied, P raw)
    (hown : ∀ k p seen, a = .sendBatch k .written → d.calls[k]? = some (.sending p seen) →
      ∀ raw ∈ p.raw, P raw)
    (h : d.act c peer a = some d') : ∀ cc ∈ d'.link.conns, ∀ raw ∈ cc.unapplied, P raw := by
  cases acts_of_act h with
  | written hk hsend =>
      exact Link.forall_unapplied_sendBatch hd (fun _ => hown _ _ _ rfl hk) hsend
  | failed _ hout hsend => exact Link.forall_unapplied_sendBatch hd (absurd · hout) hsend
  | breakConn k => exact Link.forall_unapplied_breakConn hd k
  | _ => exact hd

end Side

end Capacitor
