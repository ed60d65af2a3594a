import Capacitor.BatchStream
import Capacitor.ClientPool

/-!
# The handshake of the stream client

`SendBatch` sets the flag of a connection when it is about to write the first batch, not when it has
written it. As long as the calls for one node come one after the other, as those of its replicator
do, the flag is as good as the write: the batch with the handshake is the first on the connection,
and the server at the other end takes all of them.
-/

namespace Capacitor

variable {ι : Type*} [DecidableEq ι] {V : Type*}

namespace StreamClient

variable {c d : StreamClient ι}

/-- A call begins when no other one for its node is under way. Its batch comes without a handshake,
as those of the replicators do. -/
def InTurn (c : StreamClient ι) : ClientAction ι → Prop
  | .lookup _ r _ => r.batch.handshake = none ∧ ∀ j, ∀ q ∈ c.calls j, q.1.nodeID ≠ r.nodeID
  | _ => True

/-- The first batch of a connection carries the handshake and the others have none: between the
flag and the first write nobody else comes to the connection, unless it is closed. -/
structure Greeted (token : GoString) (c : StreamClient ι) : Prop where
  authToken : c.authToken = token
  plain : ∀ i r p, c.calls i = some (r, p) → r.batch.handshake = none
  alone : ∀ i j r r' p p', c.calls i = some (r, p) → c.calls j = some (r', p') →
    r.nodeID = r'.nodeID → i = j
  untouched : ∀ s, (c.sockets s).handshakeDone = false → (c.sockets s).written = []
  writing : ∀ i r s b, c.calls i = some (r, .writing s b) →
    (c.sockets s).handshakeDone = true ∧
      (b.Right token ∧ (c.sockets s).written = [] ∨
        b.handshake = none ∧ ((c.sockets s).written ≠ [] ∨ (c.sockets s).closed = true))
  greeting : ∀ s, (c.sockets s).handshakeDone = true → (c.sockets s).written = [] →
    (c.sockets s).closed = true ∨ ∃ i r b, c.calls i = some (r, .writing s b)
  greets : ∀ s, Greets token (c.sockets s).written

def Closes (c d : StreamClient ι) : Prop :=
  ∀ s, (d.sockets s).handshakeDone = (c.sockets s).handshakeDone ∧
    (d.sockets s).written = (c.sockets s).written ∧
    ((c.sockets s).closed = true → (d.sockets s).closed = true)

namespace Closes

omit [DecidableEq ι] in
theorem refl (c : StreamClient ι) : c.Closes c := fun _ => ⟨rfl, rfl, id⟩

omit [DecidableEq ι] in
theorem trans {e : StreamClient ι} (h : c.Closes d) (h' : d.Closes e) : c.Closes e := fun s =>
  ⟨(h' s).1.trans (h s).1, (h' s).2.1.trans (h s).2.1, fun hs => (h' s).2.2 ((h s).2.2 hs)⟩

omit [DecidableEq ι] in
theorem setSocket {s : ℕ} {cc : ClientConn}
    (hdone : cc.handshakeDone = (c.sockets s).handshakeDone)
    (hwritten : cc.written = (c.sockets s).written)
    (hclosed : (c.sockets s).closed = true → cc.closed = true) : c.Closes (c.setSocket s cc) := by
  intro s'
  rw [sockets_setSocket]
  split_ifs with hs
  · rw [hs]
    exact ⟨hdone, hwritten, hclosed⟩
  · exact Closes.refl c s'

omit [DecidableEq ι] in
theorem close (c : StreamClient ι) (s : ℕ) : c.Closes (c.close s) :=
  setSocket rfl rfl (fun _ => rfl)

omit [DecidableEq ι] in
theorem used (c : StreamClient ι) (s : ℕ) (now : Int64) : c.Closes (c.used s now) :=
  setSocket rfl rfl id

omit [DecidableEq ι] in
theorem closeIf (p : StreamClient ι → ℕ → Bool) (c : StreamClient ι) (nodeID : GoString) :
    c.Closes (StreamClient.closeIf p c nodeID) ∧
      (StreamClient.closeIf p c nodeID).calls = c.calls ∧
      (StreamClient.closeIf p c nodeID).authToken = c.authToken := by
  unfold StreamClient.closeIf
  cases c.conns.lookup nodeID with
  | none => exact ⟨refl c, rfl, rfl⟩
  | some s =>
      dsimp only
      split_ifs
      · exact ⟨close c s, rfl, rfl⟩
      · exact ⟨refl c, rfl, rfl⟩

omit [DecidableEq ι] in
theorem foldl_closeIf (p : StreamClient ι → ℕ → Bool) (nodeIDs : List GoString)
    (c : StreamClient ι) :
    c.Closes (nodeIDs.foldl (StreamClient.closeIf p) c) ∧
      (nodeIDs.foldl (StreamClient.closeIf p) c).calls = c.calls ∧
      (nodeIDs.foldl (StreamClient.closeIf p) c).authToken = c.authToken := by
  induction nodeIDs generalizing c with
  | nil => exact ⟨refl c, rfl, rfl⟩
  | cons nodeID nodeIDs ih =>
      obtain ⟨hcloses, hcalls, htoken⟩ := closeIf p c nodeID
      obtain ⟨hcloses', hcalls', htoken'⟩ := ih (StreamClient.closeIf p c nodeID)
      exact ⟨hcloses.trans hcloses', hcalls'.trans hcalls, htoken'.trans htoken⟩

end Closes

namespace Greeted

variable {token : GoString} {i : ι} {r : SendRequest} {s : ℕ} {b : Batch}
  {call : Option (SendRequest × SendPhase)}

omit [DecidableEq ι] in
theorem newStreamClient (tls : Bool) (token : GoString) :
    (StreamClient.newStreamClient tls token : StreamClient ι).Greeted token where
  authToken := rfl
  plain i r p h := by cases h
  alone i j r r' p p' h := by cases h
  untouched s h := rfl
  writing i r s b h := by cases h
  greeting s h := by cases h
  greets s := trivial

omit [DecidableEq ι] in
theorem alone_socket (h : c.Greeted token) (hsound : c.Sound) {j : ι} {r' : SendRequest}
    {p p' : SendPhase} (hi : c.calls i = some (r, p)) (hj : c.calls j = some (r', p'))
    (hp : p.socket = some s) (hp' : p'.socket = some s) : i = j :=
  h.alone i j r r' p p' hi hj
    ((hsound.known i r p s hi hp).1.symm.trans (hsound.known j r' p' s hj hp').1)

theorem alone_calls (h : c.Greeted token)
    (hcalls : ∀ j, d.calls j = if j = i then call else c.calls j)
    (hnew : ∀ r p, call = some (r, p) → r.batch.handshake = none ∧
      ∀ j r' p', j ≠ i → c.calls j = some (r', p') → r'.nodeID ≠ r.nodeID) :
    (∀ j r p, d.calls j = some (r, p) → r.batch.handshake = none) ∧
      ∀ j k r r' p p', d.calls j = some (r, p) → d.calls k = some (r', p') →
        r.nodeID = r'.nodeID → j = k := by
  constructor
  · intro j r p hj
    rw [hcalls] at hj
    split_ifs at hj
    · exact (hnew r p hj).1
    · exact h.plain j r p hj
  · intro j k r₁ r₂ p₁ p₂ hj hk hnode
    rw [hcalls] at hj hk
    split_ifs at hj hk with hji hki hki
    · exact hji.trans hki.symm
    · exact absurd hnode.symm ((hnew r₁ p₁ hj).2 k r₂ p₂ hki hk)
    · exact absurd hnode ((hnew r₂ p₂ hk).2 j r₁ p₁ hji hj)
    · exact h.alone j k r₁ r₂ p₁ p₂ hj hk hnode

omit [DecidableEq ι] in
theorem alone_same (h : c.Greeted token) {p : SendPhase} (hcall : c.calls i = some (r, p))
    (hsame : ∀ r' p', call = some (r', p') → r' = r) :
    ∀ r' p', call = some (r', p') → r'.batch.handshake = none ∧
      ∀ j r'' p'', j ≠ i → c.calls j = some (r'', p'') → r''.nodeID ≠ r'.nodeID := by
  intro r' p' hp'
  obtain rfl := hsame r' p' hp'
  exact ⟨h.plain i r' p hcall, fun j r'' p'' hj hcall' hnode =>
    hj (h.alone j i r'' r' p'' p hcall' hcall hnode)⟩

theorem of_calls (h : c.Greeted token) (htoken : d.authToken = c.authToken)
    (hcalls : ∀ j, d.calls j = if j = i then call else c.calls j) (hcloses : c.Closes d)
    (hold : ∀ r s b, c.calls i = some (r, .writing s b) → (d.sockets s).closed = true)
    (hphase : ∀ r s b, call ≠ some (r, .writing s b))
    (hnew : ∀ r p, call = some (r, p) → r.batch.handshake = none ∧
      ∀ j r' p', j ≠ i → c.calls j = some (r', p') → r'.nodeID ≠ r.nodeID) :
    d.Greeted token := by
  obtain ⟨hplain, halone⟩ := h.alone_calls hcalls hnew
  obtain ⟨hauth, -, -, huntouched, hwriting, hgreeting, hgreets⟩ := h
  refine ⟨htoken.trans hauth, hplain, halone, ?_, ?_, ?_, ?_⟩
  · intro s hs
    rw [(hcloses s).1] at hs
    rw [(hcloses s).2.1]
    exact huntouched s hs
  · intro j r s b hj
    rw [hcalls] at hj
    split_ifs at hj
    · exact absurd hj (hphase r s b)
    · rw [(hcloses s).1, (hcloses s).2.1]
      obtain ⟨hdone, hb⟩ := hwriting j r s b hj
      exact ⟨hdone, hb.imp_right (fun hb => ⟨hb.1, hb.2.imp_right (hcloses s).2.2⟩)⟩
  · intro s hdone hnil
    rw [(hcloses s).1] at hdone
    rw [(hcloses s).2.1] at hnil
    rcases hgreeting s hdone hnil with hclosed | ⟨j, r, b, hj⟩
    · exact Or.inl ((hcloses s).2.2 hclosed)
    · by_cases hji : j = i
      · exact Or.inl (hold r s b (hji ▸ hj))
      · exact Or.inr ⟨j, r, b, by rw [hcalls, if_neg hji, hj]⟩
  · intro s
    rw [(hcloses s).2.1]
    exact hgreets s

omit [DecidableEq ι] in
theorem of_closes (h : c.Greeted token) (hcloses : c.Closes d) (hcalls : d.calls = c.calls)
    (htoken : d.authToken = c.authToken) : d.Greeted token := by
  obtain ⟨hauth, hplain, halone, huntouched, hwriting, hgreeting, hgreets⟩ := h
  refine ⟨htoken.trans hauth, hcalls ▸ hplain, hcalls ▸ halone, ?_, ?_, ?_, ?_⟩
  · intro s hs
    rw [(hcloses s).1] at hs
    rw [(hcloses s).2.1]
    exact huntouched s hs
  · intro j r s b hj
    rw [hcalls] at hj
    rw [(hcloses s).1, (hcloses s).2.1]
    obtain ⟨hdone, hb⟩ := hwriting j r s b hj
    exact ⟨hdone, hb.imp_right (fun hb => ⟨hb.1, hb.2.imp_right (hcloses s).2.2⟩)⟩
  · intro s hdone hnil
    rw [(hcloses s).1] at hdone
    rw [(hcloses s).2.1] at hnil
    rw [hcalls]
    exact (hgreeting s hdone hnil).imp_left (hcloses s).2.2
  · intro s
    rw [(hcloses s).2.1]
    exact hgreets s

theorem of_connect (h : c.Greeted token) (hsound : c.Sound) {p : SendPhase}
    (hcall : c.calls i = some (r, .dialing)) (howns : p.owns = true)
    (htoken : d.authToken = c.authToken)
    (hcalls : ∀ j, d.calls j = if j = i then some (r, p) else c.calls j)
    (hnew : (d.sockets c.count).handshakeDone = false ∧ (d.sockets c.count).written = [])
    (hsockets : ∀ s, s ≠ c.count → d.sockets s = c.sockets s) : d.Greeted token := by
  have hsame : ∀ r' p', some (r, p) = some (r', p') → r' = r := by
    intro r' p' hp'
    exact (congrArg Prod.fst (Option.some.inj hp')).symm
  obtain ⟨hplain, halone⟩ := h.alone_calls hcalls (h.alone_same hcall hsame)
  obtain ⟨hauth, -, -, huntouched, hwriting, hgreeting, hgreets⟩ := h
  refine ⟨htoken.trans hauth, hplain, halone, ?_, ?_, ?_, ?_⟩
  · intro s hs
    by_cases hcount : s = c.count
    · rw [hcount]
      exact hnew.2
    · rw [hsockets s hcount] at hs ⊢
      exact huntouched s hs
  · intro j r' s b hj
    rw [hcalls] at hj
    split_ifs at hj
    · obtain ⟨-, rfl⟩ := Prod.mk.inj (Option.some.inj hj)
      cases howns
    · rw [hsockets s (hsound.known j r' _ s hj rfl).2.ne]
      exact hwriting j r' s b hj
  · intro s hdone hnil
    have hcount : s ≠ c.count := by
      rintro rfl
      cases hnew.1.symm.trans hdone
    rw [hsockets s hcount] at hdone hnil ⊢
    rcases hgreeting s hdone hnil with hclosed | ⟨j, r', b, hj⟩
    · exact Or.inl hclosed
    · refine Or.inr ⟨j, r', b, ?_⟩
      rw [hcalls, if_neg, hj]
      rintro rfl
      cases hcall.symm.trans hj
  · intro s
    by_cases hcount : s = c.count
    · rw [hcount, hnew.2]
      trivial
    · rw [hsockets s hcount]
      exact hgreets s

omit [DecidableEq ι] in
/-- What a call is about to write: the handshake if the connection has seen nothing, and otherwise
no handshake. -/
theorem outgoing_greets (h : c.Greeted token) {p : SendPhase} (hcall : c.calls i = some (r, p)) :
    (c.sockets s).handshakeDone = false ∧ (c.outgoing r s).Right token ∨
      (c.sockets s).handshakeDone = true ∧ (c.outgoing r s).handshake = none := by
  unfold outgoing
  cases (c.sockets s).handshakeDone with
  | false => exact Or.inl ⟨rfl, ⟨_, rfl, h.authToken⟩⟩
  | true => exact Or.inr ⟨rfl, h.plain i r p hcall⟩

theorem of_prepare (h : c.Greeted token) (hsound : c.Sound)
    (hcall : c.calls i = some (r, .returned s)) (htoken : d.authToken = c.authToken)
    (hcalls : ∀ j, d.calls j =
      if j = i then some (r, .writing s (c.outgoing r s)) else c.calls j)
    (hself : d.sockets s = { c.sockets s with handshakeDone := true })
    (hsockets : ∀ s', s' ≠ s → d.sockets s' = c.sockets s') : d.Greeted token := by
  have hsame : ∀ r' p', some (r, SendPhase.writing s (c.outgoing r s)) = some (r', p') →
      r' = r := by
    intro r' p' hp'
    exact (congrArg Prod.fst (Option.some.inj hp')).symm
  have hnobody (j : ι) (r' : SendRequest) (b : Batch) : c.calls j ≠ some (r', .writing s b) := by
    intro hj
    obtain rfl := h.alone_socket hsound hj hcall rfl rfl
    cases hcall.symm.trans hj
  have hoff {j : ι} {r' : SendRequest} {s' : ℕ} {b : Batch}
      (hj : c.calls j = some (r', .writing s' b)) : s' ≠ s := by
    rintro rfl
    exact hnobody j r' b hj
  have hout := h.outgoing_greets (s := s) hcall
  obtain ⟨hplain, halone⟩ := h.alone_calls hcalls (h.alone_same hcall hsame)
  obtain ⟨hauth, -, -, huntouched, hwriting, hgreeting, hgreets⟩ := h
  refine ⟨htoken.trans hauth, hplain, halone, ?_, ?_, ?_, ?_⟩
  · intro s' hs'
    have hne : s' ≠ s := by
      rintro rfl
      simp [hself] at hs'
    rw [hsockets s' hne] at hs' ⊢
    exact huntouched s' hs'
  · intro j r' s' b hj
    rw [hcalls] at hj
    split_ifs at hj
    · cases hj
      rw [hself]
      refine ⟨rfl, ?_⟩
      rcases hout with ⟨hdone, hright⟩ | ⟨hdone, hnone⟩
      · exact Or.inl ⟨hright, huntouched s hdone⟩
      · refine Or.inr ⟨hnone, ?_⟩
        by_cases hnil : (c.sockets s).written = []
        · exact Or.inr ((hgreeting s hdone hnil).resolve_right
            (fun ⟨j', r', b, hj'⟩ => hnobody j' r' b hj'))
        · exact Or.inl hnil
    · rw [hsockets s' (hoff hj)]
      exact hwriting j r' s' b hj
  · intro s' hdone hnil
    by_cases hs' : s' = s
    · subst hs'
      exact Or.inr ⟨i, r, _, by rw [hcalls, if_pos rfl]⟩
    · rw [hsockets s' hs'] at hdone hnil ⊢
      rcases hgreeting s' hdone hnil with hclosed | ⟨j, r', b, hj⟩
      · exact Or.inl hclosed
      · refine Or.inr ⟨j, r', b, ?_⟩
        rw [hcalls, if_neg, hj]
        rintro rfl
        cases hcall.symm.trans hj
  · intro s'
    by_cases hs' : s' = s
    · rw [hs', hself]
      exact hgreets s
    · rw [hsockets s' hs']
      exact hgreets s'

omit [DecidableEq ι] in
theorem greets_write (h : c.Greeted token) (hcall : c.calls i = some (r, .writing s b))
    (hopen : (c.sockets s).closed = false) : Greets token ((c.sockets s).written ++ [b]) := by
  have hgreets := h.greets s
  obtain ⟨-, ⟨hright, hnil⟩ | ⟨hnone, hlater⟩⟩ := h.writing i r s b hcall
  · rw [hnil]
    exact ⟨hright, by simp⟩
  · obtain ⟨b', bs, hwritten⟩ :=
      List.exists_cons_of_ne_nil (hlater.resolve_right (by simp [hopen]))
    rw [hwritten] at hgreets ⊢
    refine ⟨hgreets.1, fun b'' hb'' => ?_⟩
    rcases List.mem_append.1 hb'' with hold | hnew
    · exact hgreets.2 b'' hold
    · rw [List.mem_singleton.1 hnew, hnone]

theorem of_write (h : c.Greeted token) (hsound : c.Sound)
    (hcall : c.calls i = some (r, .writing s b)) (hopen : (c.sockets s).closed = false)
    (htoken : d.authToken = c.authToken)
    (hcalls : ∀ j, d.calls j = if j = i then none else c.calls j)
    (hself : d.sockets s = { c.sockets s with written := (c.sockets s).written ++ [b] })
    (hsockets : ∀ s', s' ≠ s → d.sockets s' = c.sockets s') : d.Greeted token := by
  have hnew := h.greets_write hcall hopen
  have hoff {j : ι} (hji : j ≠ i) {r' : SendRequest} {s' : ℕ} {b' : Batch}
      (hj : c.calls j = some (r', .writing s' b')) : s' ≠ s := by
    rintro rfl
    exact hji (h.alone_socket hsound hj hcall rfl rfl)
  have hdone := (h.writing i r s b hcall).1
  obtain ⟨hplain, halone⟩ := h.alone_calls hcalls (fun _ _ hp => by cases hp)
  obtain ⟨hauth, -, -, huntouched, hwriting, hgreeting, hgreets⟩ := h
  refine ⟨htoken.trans hauth, hplain, halone, ?_, ?_, ?_, ?_⟩
  · intro s' hs'
    have hne : s' ≠ s := by
      rintro rfl
      rw [hself] at hs'
      cases hdone.symm.trans hs'
    rw [hsockets s' hne] at hs' ⊢
    exact huntouched s' hs'
  · intro j r' s' b' hj
    rw [hcalls] at hj
    split_ifs at hj with hji
    rw [hsockets s' (hoff hji hj)]
    exact hwriting j r' s' b' hj
  · intro s' hdone' hnil
    have hs' : s' ≠ s := by
      rintro rfl
      simp [hself] at hnil
    rw [hsockets s' hs'] at hdone' hnil ⊢
    rcases hgreeting s' hdone' hnil with hclosed | ⟨j, r', b', hj⟩
    · exact Or.inl hclosed
    · refine Or.inr ⟨j, r', b', ?_⟩
      rw [hcalls, if_neg, hj]
      rintro rfl
      cases hcall.symm.trans hj
      exact hs' rfl
  · intro s'
    by_cases hs' : s' = s
    · rw [hs', hself]
      exact hnew
    · rw [hsockets s' hs']
      exact hgreets s'

theorem step {a : ClientAction ι} (h : c.Greeted token) (hsound : c.Sound) (ha : c.InTurn a)
    (hstep : c.step a = some d) : d.Greeted token := by
  cases steps_of_step hstep with
  | @found i r now s hidle hs =>
      refine h.of_calls rfl (calls_setCall _ i _) (Closes.used c s now) ?_ (by simp) ?_
      · intro r' s' b' hi
        cases hidle.symm.trans hi
      · intro r' p' hp'
        obtain ⟨rfl, -⟩ := Prod.mk.inj (Option.some.inj hp')
        exact ⟨ha.1, fun j r'' p'' _ hj => ha.2 j _ hj⟩
  | @missing i r now hidle hnone =>
      refine h.of_calls rfl (calls_setCall _ i _) (Closes.refl c) ?_ (by simp) ?_
      · intro r' s' b' hi
        cases hidle.symm.trans hi
      · intro r' p' hp'
        obtain ⟨rfl, -⟩ := Prod.mk.inj (Option.some.inj hp')
        exact ⟨ha.1, fun j r'' p'' _ hj => ha.2 j _ hj⟩
  | @dialFailed i r hcall =>
      refine h.of_calls rfl (calls_setCall _ i _) (Closes.refl c) ?_ (by simp)
        (fun _ _ hp => by cases hp)
      intro r' s' b' hi
      cases hcall.symm.trans hi
  | @connect i r now p hcall hp howns =>
      refine h.of_connect hsound hcall howns rfl (calls_setCall _ i _) ?_ ?_
      · change ((setSocket _ _ _).sockets c.count).handshakeDone = _ ∧
          ((setSocket _ _ _).sockets c.count).written = _
        rw [sockets_setSocket, if_pos rfl]
        exact ⟨rfl, rfl⟩
      · intro s hs
        change (setSocket _ _ _).sockets s = _
        rw [sockets_setSocket, if_neg hs]
  | @tlsFailed i r s hcall =>
      refine h.of_calls rfl (calls_setCall _ i _) (Closes.close c s) ?_ (by simp)
        (fun _ _ hp => by cases hp)
      intro r' s' b' hi
      cases hcall.symm.trans hi
  | @tlsDone i r now s hcall =>
      refine h.of_calls rfl (calls_setCall _ i _) (Closes.used c s now) ?_ (by simp)
        (h.alone_same hcall (fun r' p' hp' => (congrArg Prod.fst (Option.some.inj hp')).symm))
      intro r' s' b' hi
      cases hcall.symm.trans hi
  | @existing i r s s' hcall hs' =>
      refine h.of_calls rfl (calls_setCall _ i _) (Closes.close c s) ?_ (by simp)
        (h.alone_same hcall (fun r' p' hp' => (congrArg Prod.fst (Option.some.inj hp')).symm))
      intro r' s' b' hi
      cases hcall.symm.trans hi
  | @register i r s hcall hnone =>
      refine h.of_calls rfl (calls_setCall _ i _) (Closes.refl c) ?_ (by simp)
        (h.alone_same hcall (fun r' p' hp' => (congrArg Prod.fst (Option.some.inj hp')).symm))
      intro r' s' b' hi
      cases hcall.symm.trans hi
  | @prepare i r s hcall =>
      refine h.of_prepare hsound hcall rfl (calls_setCall _ i _) ?_ ?_
      · change (setSocket _ _ _).sockets s = _
        rw [sockets_setSocket, if_pos rfl]
      · intro s' hs'
        change (setSocket _ _ _).sockets s' = _
        rw [sockets_setSocket, if_neg hs']
  | @write i r s b hcall hopen =>
      refine h.of_write hsound hcall hopen rfl (calls_setCall _ i _) ?_ ?_
      · change (setSocket _ _ _).sockets s = _
        rw [sockets_setSocket, if_pos rfl]
      · intro s' hs'
        change (setSocket _ _ _).sockets s' = _
        rw [sockets_setSocket, if_neg hs']
  | @writeFailed i r s b hcall =>
      refine h.of_calls rfl (calls_setCall _ i _) (Closes.close c s) ?_ (by simp)
        (h.alone_same hcall (fun r' p' hp' => (congrArg Prod.fst (Option.some.inj hp')).symm))
      intro r' s' b' hi
      cases hcall.symm.trans hi
      change ((c.close s).sockets s).closed = true
      rw [closed_close, if_pos rfl]
  | @drop i r s hcall =>
      refine h.of_calls rfl (calls_setCall _ i _) (Closes.refl c) ?_ (by simp)
        (fun _ _ hp => by cases hp)
      intro r' s' b' hi
      cases hcall.symm.trans hi
  | janitor now =>
      obtain ⟨hcloses, hcalls, htoken⟩ :=
        Closes.foldl_closeIf (fun c s => c.idle now s) c.conns.keys c
      exact h.of_closes hcloses hcalls htoken
  | closeConn nodeID =>
      obtain ⟨hcloses, hcalls, htoken⟩ := Closes.closeIf (fun _ _ => true) c nodeID
      exact h.of_closes hcloses hcalls htoken
  | stop => exact h.of_closes (Closes.refl c) rfl rfl
  | closeAll =>
      refine h.of_closes (fun s => ?_) rfl rfl
      dsimp only
      split_ifs
      · exact ⟨rfl, rfl, fun _ => rfl⟩
      · exact Closes.refl c s

end Greeted

section Runs

variable [Rounding] (cc : Codec) (mp : Msgpack V) (wall : ℕ → Int64) {r : Msgp.Readers}
  {a : Msgp.Appenders} {maxLen maxSlices : ℕ}

/-- As long as the calls for one node come one after the other, what is written to a connection
begins with the handshake and has no other one, however the calls for different nodes, failed writes
and the janitor interleave. A server with the same token, or without one, has then applied every
entry that decodes of the batches within its limit, and nothing else. -/
theorem written_greets (ha : a.Short) (hr : r.UndoStream a maxLen) {tls : Bool} {token : GoString}
    {as : List (ClientAction ι)}
    (hrun : StepSystem.run step (newStreamClient tls token) as = some c)
    (hturn : StepSystem.Along step InTurn (newStreamClient tls token) as) (s : ℕ) :
    (∀ b bs, (c.sockets s).written = b :: bs →
      b.Right token ∧ ∀ b' ∈ bs, b'.handshake = none) ∧
    ∀ n : Node V, n.authToken = [] ∨ token = n.authToken →
      (∀ b ∈ (c.sockets s).written, b.Representable maxLen maxSlices) →
      ∃ bs, bs <+: (c.sockets s).written ∧
        (bs.flatMap (Batch.marshalMsg a)).length ≤ maxConnBytes ∧
        (∀ pre, pre <+: (c.sockets s).written →
          (pre.flatMap (Batch.marshalMsg a)).length ≤ maxConnBytes → pre <+: bs) ∧
        (Served.handleConn cc mp r maxSlices wall n
            ((c.sockets s).written.flatMap (Batch.marshalMsg a))).1.node =
          { n with
            replica := (bs.flatMap (fun b => b.entries.filterMap cc.unmarshalMsg)).zipIdx.foldl
              (fun r p => applyRemoteEntry mp r (wall p.2) p.1) n.replica
            peerSeqs := (bs.filterMap Batch.report).foldl
              (fun f p => Function.update f p.1 (some p.2)) n.peerSeqs } := by
  have hinvariant : c.Sound ∧ c.Greeted token := by
    refine StepSystem.run_invariant_along (P := fun c => c.Sound ∧ c.Greeted token) ?_
      ⟨sound_newStreamClient tls token, Greeted.newStreamClient tls token⟩ hturn hrun
    exact fun _ _ _ h ha hstep => ⟨h.1.step hstep, h.2.step h.1 ha hstep⟩
  have hgreets := hinvariant.2.greets s
  refine ⟨fun b bs hwritten => ?_, fun n htoken hrepresentable => ?_⟩
  · rw [hwritten] at hgreets
    exact hgreets
  · obtain ⟨bs, hbs, hfit, hmax, hconn⟩ := Served.exists_whole_handleConn cc mp wall ha hr
      hrepresentable n
    refine ⟨bs, hbs, hfit, hmax, ?_⟩
    rw [hconn, Served.serveAll_of_greets cc mp wall .malformed htoken (hgreets.of_isPrefix hbs),
      Served.foldl_applyBatch_eq]
    rfl

end Runs

instance (c : StreamClient Bool) (a : ClientAction Bool) : Decidable (c.InTurn a) :=
  match a with
  | .lookup _ r _ => inferInstanceAs (Decidable (r.batch.handshake = none ∧ _))
  | .dialFailed _ | .connect _ _ | .tlsFailed _ | .tlsDone _ _ | .register _ | .prepare _
  | .write _ | .writeFailed _ | .drop _ | .janitor _ | .closeConn _ | .stop | .closeAll =>
      isTrue trivial

/-- While a batch for `b` is sent, the first write to another node fails; `b` gets a second batch on
the same connection. -/
def twoNodes : List (ClientAction Bool) :=
  [.lookup false (toB (guardedCodec.marshalMsg firstEntry)) 1,
    .lookup true ⟨bytes "c", ⟨bytes "a", [[1]], none⟩, 0⟩ 1, .connect true 2, .connect false 2,
    .register true, .register false, .prepare false, .prepare true, .writeFailed true,
    .write false, .drop true, .lookup false (toB (guardedCodec.marshalMsg secondEntry)) 3,
    .prepare false, .write false]

theorem twoNodes_isSome :
    (StepSystem.run step (newStreamClient false (bytes "t")) twoNodes).isSome = true := by
  decide +kernel

theorem written_greets_twoNodes :
    let a := MessagePack.appenders (fun _ => 0)
    ∃ c, StepSystem.run step (newStreamClient false (bytes "t")) twoNodes = some c ∧
      (c.sockets 1).written.length = 2 ∧
      (Served.handleConn guardedCodec byteMsgpack (MessagePack.readers (fun _ => 0)) 1000
        (fun _ => 20) guardedNode
        ((c.sockets 1).written.flatMap (Batch.marshalMsg a))).1.node.replica =
          applyRemoteEntry byteMsgpack
            (applyRemoteEntry byteMsgpack guardedNode.replica 20 firstEntry) 20 secondEntry := by
  intro a
  have hrun := (Option.some_get twoNodes_isSome).symm
  set c := (StepSystem.run step (newStreamClient false (bytes "t")) twoNodes).get twoNodes_isSome
  obtain ⟨-, hserved⟩ := written_greets guardedCodec byteMsgpack (fun _ => 20)
    (MessagePack.short_appenders (fun _ => 0)) (MessagePack.undoStream (fun _ => 0) (fun _ => 0))
    hrun (by decide +kernel) 1
  have hwritten : ∀ b ∈ (c.sockets 1).written, b.Representable (2 ^ 32 - 1) 1000 := by
    decide +kernel
  obtain ⟨bs, hbs, -, hmax, hnode⟩ := hserved guardedNode (Or.inr rfl) hwritten
  have hall : bs = (c.sockets 1).written :=
    hbs.eq_of_length_le (hmax _ List.prefix_rfl (by decide +kernel)).length_le
  have hentries : (c.sockets 1).written.flatMap
      (fun b => b.entries.filterMap guardedCodec.unmarshalMsg) = [firstEntry, secondEntry] := by
    decide +kernel
  refine ⟨c, hrun, by decide +kernel, ?_⟩
  rw [hnode, hall, hentries]
  rfl

end StreamClient

end Capacitor
