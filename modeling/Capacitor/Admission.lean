import Mathlib.Data.List.TakeWhile
import Capacitor.Batches
import Capacitor.StepSystem

/-!
# Which batches of a connection take effect

`handleConn` reads batches off a connection, up to a limit of bytes. On a node with a token it goes
on as long as the first batch has a handshake with the token and no later batch has one with
another. It returns at the first batch that breaks this rule, before it has stored a cursor or
applied an entry of it. What it does is determined by the token and the bytes, so that this holds
whatever else runs on the node: a `Stream` is a connection whose steps interleave with arbitrary
changes of the node by others.
-/

namespace Capacitor

open StringReader Msgp

variable {V : Type*}

namespace Batch

def Right (token : GoString) (b : Batch) : Prop := ∃ h ∈ b.handshake, h.authToken = token

def Wrong (token : GoString) (b : Batch) : Prop := ∃ h ∈ b.handshake, h.authToken ≠ token

instance (token : GoString) (b : Batch) : Decidable (b.Right token) :=
  inferInstanceAs (Decidable (∃ h ∈ b.handshake, _))

instance (token : GoString) (b : Batch) : Decidable (b.Wrong token) :=
  inferInstanceAs (Decidable (∃ h ∈ b.handshake, _))

/-- The entries of the batch that decode. -/
def decoded (c : Codec) (b : Batch) : List LogEntry := b.entries.filterMap c.unmarshalMsg

def report (b : Batch) : Option (GoString × ℕ) :=
  b.handshake.map (fun h => (b.fromNode, h.lastSeenSeq))

end Batch

/-- The first batch has a handshake with the token, and no later one has one with another. -/
def Authorized (token : GoString) : List Batch → Prop
  | [] => True
  | b :: bs => b.Right token ∧ ∀ b' ∈ bs, ¬ b'.Wrong token

/-- The first batch has a handshake with the token, and the others have none. -/
def Greets (token : GoString) : List Batch → Prop
  | [] => True
  | b :: bs => b.Right token ∧ ∀ b' ∈ bs, b'.handshake = none

theorem Greets.of_isPrefix {token : GoString} {pre bs : List Batch} (h : Greets token bs)
    (hpre : pre <+: bs) : Greets token pre := by
  obtain ⟨rest, rfl⟩ := hpre
  cases pre with
  | nil => trivial
  | cons b pre => exact ⟨h.1, fun b' hb' => h.2 b' (List.mem_append_left rest hb')⟩

/-- The batches up to the first that breaks the rule. -/
def admitted (token : GoString) : List Batch → List Batch
  | [] => []
  | b :: bs => if b.Right token then b :: bs.takeWhile (fun b' => ¬ b'.Wrong token) else []

theorem admitted_cons_of_right {token : GoString} {b : Batch} (h : b.Right token)
    (bs : List Batch) :
    admitted token (b :: bs) = b :: bs.takeWhile (fun b' => ¬ b'.Wrong token) := if_pos h

theorem admitted_cons_of_not_right {token : GoString} {b : Batch} (h : ¬ b.Right token)
    (bs : List Batch) : admitted token (b :: bs) = [] := if_neg h

theorem authorized_admitted (token : GoString) (bs : List Batch) :
    Authorized token (admitted token bs) := by
  cases bs with
  | nil => trivial
  | cons b bs =>
      by_cases hb : b.Right token
      · rw [admitted_cons_of_right hb]
        refine ⟨hb, fun b' hb' => ?_⟩
        simpa using List.mem_takeWhile_imp hb'
      · rw [admitted_cons_of_not_right hb]
        trivial

theorem admitted_isPrefix (token : GoString) (bs : List Batch) : admitted token bs <+: bs := by
  cases bs with
  | nil => exact List.prefix_rfl
  | cons b bs =>
      by_cases hb : b.Right token
      · rw [admitted_cons_of_right hb, List.prefix_cons_inj]
        exact List.takeWhile_prefix _
      · rw [admitted_cons_of_not_right hb]
        exact List.nil_prefix

theorem isPrefix_admitted {token : GoString} {pre bs : List Batch} (hpre : pre <+: bs)
    (h : Authorized token pre) : pre <+: admitted token bs := by
  obtain ⟨rest, rfl⟩ := hpre
  cases pre with
  | nil => exact List.nil_prefix
  | cons b pre =>
      rw [List.cons_append, admitted_cons_of_right h.1, List.prefix_cons_inj,
        List.takeWhile_append_of_pos (fun b' hb' => by simpa using h.2 b' hb')]
      exact List.prefix_append _ _

/-- What a connection goes on with when it has seen its first batch or not. -/
def accepted (firstBatch : Bool) (token : GoString) (bs : List Batch) : List Batch :=
  if firstBatch then admitted token bs else bs.takeWhile (fun b => ¬ b.Wrong token)

namespace Node

variable {n n' : Node V} {b : Batch}

def storeReport (n : Node V) (b : Batch) : Node V :=
  b.report.elim n (fun p => n.storeSeq p.1 p.2)

theorem eq_storeReport {firstBatch : Bool} (h : n.handleHandshake firstBatch b = some n') :
    n' = n.storeReport b := by
  rw [handleHandshake_eq_some h, storeReport, Batch.report]
  cases b.handshake <;> rfl

theorem authToken_storeReport (n : Node V) (b : Batch) :
    (n.storeReport b).authToken = n.authToken := by
  rw [storeReport]
  cases b.report <;> rfl

theorem accepted_cons (htoken : n.authToken ≠ []) (firstBatch : Bool) (b : Batch)
    (bs : List Batch) : accepted firstBatch n.authToken (b :: bs) =
      (n.handleHandshake firstBatch b).elim [] (fun _ => b :: accepted false n.authToken bs) := by
  unfold handleHandshake accepted
  cases hb : b.handshake with
  | none =>
      cases firstBatch with
      | true => simp [admitted, Batch.Right, hb, htoken]
      | false => simp [Batch.Wrong, hb]
  | some h =>
      by_cases heq : h.authToken = n.authToken
      · cases firstBatch <;> simp [admitted, Batch.Right, Batch.Wrong, hb, heq]
      · cases firstBatch <;> simp [admitted, Batch.Right, Batch.Wrong, hb, heq, htoken]

end Node

section Connection

variable (c : Codec) (mp : Msgpack V)

/-- One entry of a batch is applied, unless it does not decode. -/
def Node.applyRaw [Rounding] (wall : Int64) (n : Node V) (raw : GoString) : Node V :=
  match c.unmarshalMsg raw with
  | none => n
  | some e => { n with replica := applyRemoteEntry mp n.replica wall e }

/-- How `handleConn` comes to its end: at a batch that it refuses, or when no batch can be read. -/
inductive Ending where
  | unauthorized
  | failed (f : Failure)
  deriving DecidableEq

/-- What a connection has come to: the node, and how often the wall clock has been read. -/
structure Served (V : Type*) where
  node : Node V
  readings : ℕ

def maxConnBytes : ℕ := 100 * 1024 * 1024

namespace Served

/-- All entries of a batch; `wall` holds the readings of the wall clock in their order. -/
def applyEntries [Rounding] (wall : ℕ → Int64) (s : Served V) (entries : List GoString) :
    Served V :=
  entries.foldl (fun s raw => ⟨s.node.applyRaw c mp (wall s.readings) raw,
    s.readings + (c.unmarshalMsg raw).toList.length⟩) s

variable (r : Readers) (maxSlices : ℕ)

def handleLoop [Rounding] (wall : ℕ → Int64) (firstBatch : Bool) (s : Served V) (bts : GoString) :
    Served V × Ending :=
  match _ : (Batch.zero.decodeMsg r maxSlices).run bts with
  | .error f => (s, .failed f)
  | .ok (b, rest) =>
      match s.node.handleHandshake firstBatch b with
      | none => (s, .unauthorized)
      | some n => handleLoop wall false (applyEntries c mp wall { s with node := n } b.entries) rest
  termination_by bts.length
  decreasing_by exact Batch.consumes_decodeMsg r maxSlices _ _ _ _ (by assumption)

/-- `handleConn` with the bytes that arrive on a connection. -/
def handleConn [Rounding] (wall : ℕ → Int64) (n : Node V) (bts : GoString) : Served V × Ending :=
  handleLoop c mp r maxSlices wall true ⟨n, 0⟩ (bts.take maxConnBytes)

end Served

end Connection

namespace Served

variable [Rounding] (c : Codec) (mp : Msgpack V) (wall : ℕ → Int64)

def applyBatch (s : Served V) (b : Batch) : Served V :=
  applyEntries c mp wall { s with node := s.node.storeReport b } b.entries

/-- The loop over batches that have been read, of which the last is followed by a failure. -/
def serveAll (last : Failure) : Bool → Served V → List Batch → Served V × Ending
  | _, s, [] => (s, .failed last)
  | firstBatch, s, b :: bs =>
      match s.node.handleHandshake firstBatch b with
      | none => (s, .unauthorized)
      | some _ => serveAll last false (s.applyBatch c mp wall b) bs

variable (r : Readers) (maxSlices : ℕ)

theorem handleLoop_eq (firstBatch : Bool) (s : Served V) (bts : GoString) :
    handleLoop c mp r maxSlices wall firstBatch s bts =
      serveAll c mp wall (Batch.arriving r maxSlices bts).2 firstBatch s
        (Batch.arriving r maxSlices bts).1 := by
  induction hlen : bts.length using Nat.strong_induction_on generalizing firstBatch s bts with
  | _ len ih =>
      rw [handleLoop]
      split
      · next f hrun =>
          rw [Batch.arriving_of_error hrun, serveAll]
      · next b rest hrun =>
          have hlt := Batch.consumes_decodeMsg r maxSlices _ _ _ _ hrun
          rw [Batch.arriving_of_ok hrun, serveAll]
          cases hn : s.node.handleHandshake firstBatch b with
          | none => rfl
          | some n =>
              rw [Node.eq_storeReport hn]
              exact ih _ (hlen ▸ hlt) false _ rest rfl

theorem applyRaw_eq (w : Int64) (n : Node V) (raw : GoString) :
    n.applyRaw c mp w raw = { n with
      replica := (c.unmarshalMsg raw).elim n.replica (applyRemoteEntry mp n.replica w) } := by
  unfold Node.applyRaw
  cases c.unmarshalMsg raw <;> rfl

theorem applyEntries_eq (s : Served V) (entries : List GoString) :
    s.applyEntries c mp wall entries =
      ⟨{ s.node with
        replica := ((entries.filterMap c.unmarshalMsg).zipIdx s.readings).foldl
          (fun r p => applyRemoteEntry mp r (wall p.2) p.1) s.node.replica },
        s.readings + (entries.filterMap c.unmarshalMsg).length⟩ := by
  induction entries generalizing s with
  | nil => rfl
  | cons raw entries ih =>
      change applyEntries c mp wall ⟨s.node.applyRaw c mp (wall s.readings) raw,
        s.readings + (c.unmarshalMsg raw).toList.length⟩ entries = _
      rw [ih, applyRaw_eq]
      cases hraw : c.unmarshalMsg raw with
      | none =>
          rw [List.filterMap_cons_none hraw]
          rfl
      | some e =>
          rw [List.filterMap_cons_some hraw, List.zipIdx_cons, List.length_cons]
          simp only [Option.toList_some, List.length_singleton, Option.elim_some, List.foldl_cons,
            Nat.add_assoc, Nat.add_comm 1]

/-- What the batches do together: the entries that decode are applied to the replica in their order,
and the positions that are reported are stored. -/
theorem foldl_applyBatch_eq (s : Served V) (bs : List Batch) :
    bs.foldl (applyBatch c mp wall) s =
      ⟨{ s.node with
        replica := ((bs.flatMap (Batch.decoded c)).zipIdx s.readings).foldl
          (fun r p => applyRemoteEntry mp r (wall p.2) p.1) s.node.replica
        peerSeqs := (bs.filterMap Batch.report).foldl
          (fun f p => Function.update f p.1 (some p.2)) s.node.peerSeqs },
        s.readings + (bs.flatMap (Batch.decoded c)).length⟩ := by
  induction bs generalizing s with
  | nil => rfl
  | cons b bs ih =>
      rw [List.foldl_cons, ih, applyBatch, applyEntries_eq, List.flatMap_cons, List.zipIdx_append,
        List.foldl_append, List.length_append, Nat.add_assoc]
      cases hb : b.report with
      | none =>
          rw [List.filterMap_cons_none hb, Node.storeReport, hb]
          rfl
      | some p =>
          rw [List.filterMap_cons_some hb, Node.storeReport, hb]
          rfl

theorem authToken_applyBatch (s : Served V) (b : Batch) :
    (s.applyBatch c mp wall b).node.authToken = s.node.authToken := by
  rw [applyBatch, applyEntries_eq]
  exact Node.authToken_storeReport s.node b

theorem serveAll_fst {s : Served V} (htoken : s.node.authToken ≠ []) (last : Failure)
    (firstBatch : Bool) (bs : List Batch) :
    (serveAll c mp wall last firstBatch s bs).1 =
      (accepted firstBatch s.node.authToken bs).foldl (applyBatch c mp wall) s := by
  induction bs generalizing s firstBatch with
  | nil => cases firstBatch <;> rfl
  | cons b bs ih =>
      rw [Node.accepted_cons htoken, serveAll]
      cases s.node.handleHandshake firstBatch b with
      | none => rfl
      | some n =>
          have hsame := authToken_applyBatch c mp wall s b
          rw [Option.elim_some, List.foldl_cons, ← hsame]
          exact ih (hsame ▸ htoken) false

theorem serveAll_of_none (last : Failure) (s : Served V) {bs : List Batch}
    (h : ∀ b ∈ bs, b.handshake = none) :
    serveAll c mp wall last false s bs = (bs.foldl (applyBatch c mp wall) s, .failed last) := by
  induction bs generalizing s with
  | nil => rfl
  | cons b bs ih =>
      have hn : s.node.handleHandshake false b = some s.node := by
        simp [Node.handleHandshake, h b List.mem_cons_self]
      rw [serveAll, hn]
      exact ih _ (fun b' hb' => h b' (List.mem_cons_of_mem b hb'))

/-- A node that has the token, or none, takes all batches that begin with a greeting. -/
theorem serveAll_of_greets (last : Failure) {s : Served V} {token : GoString}
    (htoken : s.node.authToken = [] ∨ token = s.node.authToken) {bs : List Batch}
    (h : Greets token bs) :
    serveAll c mp wall last true s bs = (bs.foldl (applyBatch c mp wall) s, .failed last) := by
  cases bs with
  | nil => rfl
  | cons b bs =>
      obtain ⟨⟨hs, hmem, hright⟩, hplain⟩ := h
      have hn : s.node.handleHandshake true b =
          some (s.node.storeSeq b.fromNode hs.lastSeenSeq) := by
        rw [Node.handleHandshake, Option.mem_def.1 hmem]
        rcases htoken with htoken | htoken
        · simp [htoken]
        · simp [hright, htoken]
      rw [serveAll, hn]
      exact serveAll_of_none c mp wall last _ hplain

end Served

/-- A connection among everything else that runs on its node: the bytes that it has still to read,
the entries of the last batch that it has still to apply, and how it has ended. -/
structure Stream (V : Type*) where
  node : Node V
  unread : GoString
  firstBatch : Bool
  applying : List GoString
  ended : Option Ending

inductive StreamAction (V : Type*) where
  | batch
  | entry (wall : Int64)
  | elsewhere (g : Node V → Node V)

/-- What is done to a node: a cursor is stored or an entry applied by the connection, or something
else happens. -/
inductive Effect (V : Type*) where
  | cursor (p : GoString × ℕ)
  | entry (wall : Int64) (e : LogEntry)
  | elsewhere (g : Node V → Node V)

namespace Effect

def act [Rounding] (mp : Msgpack V) (n : Node V) : Effect V → Node V
  | cursor p => n.storeSeq p.1 p.2
  | entry wall e => { n with replica := applyRemoteEntry mp n.replica wall e }
  | elsewhere g => g n

def own : Effect V → Option (GoString × ℕ ⊕ LogEntry)
  | cursor p => some (.inl p)
  | entry _ e => some (.inr e)
  | elsewhere _ => none

def others : Effect V → Option (Node V → Node V)
  | elsewhere g => some g
  | _ => none

end Effect

def StreamAction.others : StreamAction V → Option (Node V → Node V)
  | elsewhere g => some g
  | _ => none

def Batch.effects (c : Codec) (b : Batch) : List (GoString × ℕ ⊕ LogEntry) :=
  (b.report.map Sum.inl).toList ++ (b.decoded c).map Sum.inr

namespace Stream

variable (c : Codec) (mp : Msgpack V) (r : Readers) (maxSlices : ℕ)

def start (n : Node V) (bts : GoString) : Stream V := ⟨n, bts.take maxConnBytes, true, [], none⟩

/-- The steps of `handleConn`, and any change of the node by others, who leave its token alone. -/
def step [Rounding] (s : Stream V) : StreamAction V → Option (Stream V)
  | .batch =>
      if s.applying ≠ [] ∨ s.ended ≠ none then none
      else
        match (Batch.zero.decodeMsg r maxSlices).run s.unread with
        | .error f => some { s with ended := some (.failed f) }
        | .ok (b, rest) =>
            match s.node.handleHandshake s.firstBatch b with
            | none => some { s with ended := some .unauthorized }
            | some n => some ⟨n, rest, false, b.entries, none⟩
  | .entry wall =>
      match s.applying with
      | [] => none
      | raw :: rest => some { s with node := s.node.applyRaw c mp wall raw, applying := rest }
  | .elsewhere g =>
      if (g s.node).authToken = s.node.authToken then some { s with node := g s.node } else none

def remaining (s : Stream V) : List (GoString × ℕ ⊕ LogEntry) :=
  (s.applying.filterMap c.unmarshalMsg).map Sum.inr ++
    if s.ended = none then
      (accepted s.firstBatch s.node.authToken (Batch.arriving r maxSlices s.unread).1).flatMap
        (Batch.effects c)
    else []

/-- One step takes what it does off the front of what remains. -/
structure Advances [Rounding] (s t : Stream V) (h : List (Effect V)) (a : StreamAction V) :
    Prop where
  node : t.node = h.foldl (Effect.act mp) s.node
  others : h.filterMap Effect.others = a.others.toList
  own : h.filterMap Effect.own ++ t.remaining c r maxSlices = s.remaining c r maxSlices
  authToken : t.node.authToken = s.node.authToken
  idle : t.ended ≠ none → t.applying = []

variable {c mp r maxSlices} [Rounding] {s t : Stream V}

omit [Rounding] in
theorem remaining_of_ended (hidle : s.applying = []) (hended : s.ended ≠ none) :
    s.remaining c r maxSlices = [] := by
  rw [remaining, hidle, if_neg hended]
  rfl

theorem advances_batch (htoken : s.node.authToken ≠ [])
    (hstep : s.step c mp r maxSlices .batch = some t) :
    ∃ h, Advances c mp r maxSlices s t h .batch := by
  simp only [step] at hstep
  split_ifs at hstep with hbusy
  obtain ⟨hidle, hopen⟩ := not_or.1 hbusy
  have hidle := not_not.1 hidle
  have hremaining : s.remaining c r maxSlices =
      (accepted s.firstBatch s.node.authToken (Batch.arriving r maxSlices s.unread).1).flatMap
        (Batch.effects c) := by
    rw [remaining, hidle, if_pos (not_not.1 hopen)]
    rfl
  cases hrun : (Batch.zero.decodeMsg r maxSlices).run s.unread with
  | error f =>
      rw [hrun] at hstep
      obtain rfl := Option.some.inj hstep
      refine ⟨[], rfl, rfl, ?_, rfl, fun _ => hidle⟩
      have hnothing : accepted s.firstBatch s.node.authToken [] = [] := by
        cases s.firstBatch <;> rfl
      rw [hremaining, Batch.arriving_of_error hrun, hnothing]
      exact remaining_of_ended hidle (Option.some_ne_none _)
  | ok p =>
      rw [Batch.arriving_of_ok hrun, Node.accepted_cons htoken] at hremaining
      simp only [hrun] at hstep
      cases hn : s.node.handleHandshake s.firstBatch p.1 with
      | none =>
          rw [hn] at hstep hremaining
          obtain rfl := Option.some.inj hstep
          refine ⟨[], rfl, rfl, ?_, rfl, fun _ => hidle⟩
          rw [hremaining]
          exact remaining_of_ended hidle (Option.some_ne_none _)
      | some n =>
          rw [hn, Node.eq_storeReport hn] at hstep
          rw [hn] at hremaining
          obtain rfl := Option.some.inj hstep
          refine ⟨(p.1.report.map Effect.cursor).toList, ?_, ?_, ?_,
            Node.authToken_storeReport s.node p.1, nofun⟩
          · change s.node.storeReport p.1 = _
            rw [Node.storeReport]
            cases p.1.report <;> rfl
          · cases p.1.report <;> rfl
          · have hown : (p.1.report.map Effect.cursor).toList.filterMap
                (Effect.own : Effect V → _) = (p.1.report.map Sum.inl).toList := by
              cases p.1.report <;> rfl
            rw [hremaining, hown, remaining, if_pos rfl, Node.authToken_storeReport]
            simp only [Option.elim_some, List.flatMap_cons, Batch.effects, Batch.decoded,
              List.append_assoc]

theorem advances_entry {wall : Int64} (hended : s.ended ≠ none → s.applying = [])
    (hstep : s.step c mp r maxSlices (.entry wall) = some t) :
    ∃ h, Advances c mp r maxSlices s t h (.entry wall) := by
  cases happlying : s.applying with
  | nil =>
      simp only [step, happlying] at hstep
      cases hstep
  | cons raw rest =>
      simp only [step, happlying] at hstep
      obtain rfl := Option.some.inj hstep
      have hopen : s.ended = none := by
        by_contra hne
        cases happlying.symm.trans (hended hne)
      have htoken : (s.node.applyRaw c mp wall raw).authToken = s.node.authToken := by
        rw [Served.applyRaw_eq]
      have hremaining (u : List GoString) (n : Node V) (hn : n.authToken = s.node.authToken) :
          remaining c r maxSlices { s with node := n, applying := u } =
            (u.filterMap c.unmarshalMsg).map Sum.inr ++
              (accepted s.firstBatch s.node.authToken
                (Batch.arriving r maxSlices s.unread).1).flatMap (Batch.effects c) := by
        rw [remaining, if_pos hopen, hn]
      have hbefore := hremaining (raw :: rest) s.node rfl
      rw [← happlying] at hbefore
      cases hraw : c.unmarshalMsg raw with
      | none =>
          refine ⟨[], ?_, rfl, ?_, htoken, fun hne => absurd hopen hne⟩
          · change s.node.applyRaw c mp wall raw = s.node
            rw [Node.applyRaw, hraw]
          · rw [hremaining rest _ htoken, hbefore, happlying, List.filterMap_cons_none hraw]
            rfl
      | some e =>
          refine ⟨[.entry wall e], ?_, rfl, ?_, htoken, fun hne => absurd hopen hne⟩
          · change s.node.applyRaw c mp wall raw = _
            rw [Node.applyRaw, hraw]
            rfl
          · rw [hremaining rest _ htoken, hbefore, happlying, List.filterMap_cons_some hraw]
            rfl

theorem advances_step {a : StreamAction V} (htoken : s.node.authToken ≠ [])
    (hended : s.ended ≠ none → s.applying = [])
    (hstep : s.step c mp r maxSlices a = some t) :
    ∃ h, Advances c mp r maxSlices s t h a := by
  cases a with
  | batch => exact advances_batch htoken hstep
  | entry wall => exact advances_entry hended hstep
  | elsewhere g =>
      simp only [step] at hstep
      split_ifs at hstep with hsame
      obtain rfl := Option.some.inj hstep
      refine ⟨[.elsewhere g], rfl, rfl, ?_, hsame, hended⟩
      rw [remaining, remaining, hsame]
      rfl

/-- Over a whole run the connection has done a beginning of what it had to do, in its order, among
what the others did. -/
theorem exists_effects_run {as : List (StreamAction V)} (htoken : s.node.authToken ≠ [])
    (hended : s.ended ≠ none → s.applying = [])
    (hrun : StepSystem.run (step c mp r maxSlices) s as = some t) :
    ∃ h : List (Effect V), t.node = h.foldl (Effect.act mp) s.node ∧
      h.filterMap Effect.others = as.filterMap StreamAction.others ∧
      h.filterMap Effect.own ++ t.remaining c r maxSlices = s.remaining c r maxSlices ∧
      (t.ended ≠ none → t.remaining c r maxSlices = []) := by
  induction as generalizing s with
  | nil =>
      obtain rfl := Option.some.inj hrun
      exact ⟨[], rfl, rfl, rfl, fun hne => remaining_of_ended (hended hne) hne⟩
  | cons a as ih =>
      obtain ⟨u, hstep, hrest⟩ := (StepSystem.run_cons_eq_some _ _ _ _ _).1 hrun
      obtain ⟨h, hnode, hothers, hown, hsame, hidle⟩ := advances_step htoken hended hstep
      obtain ⟨h', hnode', hothers', hown', hdone⟩ := ih (hsame ▸ htoken) hidle hrest
      refine ⟨h ++ h', ?_, ?_, ?_, hdone⟩
      · rw [hnode', hnode, List.foldl_append]
      · rw [List.filterMap_append, hothers, hothers', List.filterMap_cons]
        cases a.others <;> rfl
      · rw [List.filterMap_append, List.append_assoc, hown', hown]

variable (c mp r maxSlices)

theorem exists_run_applyEntries (wall : ℕ → Int64) (entries : List GoString) (d : Served V)
    (unread : GoString) :
    ∃ as, as.filterMap StreamAction.others = [] ∧
      StepSystem.run (step c mp r maxSlices) ⟨d.node, unread, false, entries, none⟩ as =
        some ⟨(d.applyEntries c mp wall entries).node, unread, false, [], none⟩ := by
  induction entries generalizing d with
  | nil => exact ⟨[], rfl, rfl⟩
  | cons raw entries ih =>
      obtain ⟨as, hothers, has⟩ := ih ⟨d.node.applyRaw c mp (wall d.readings) raw,
        d.readings + (c.unmarshalMsg raw).toList.length⟩
      exact ⟨.entry (wall d.readings) :: as, hothers, has⟩

/-- The loop of `handleConn` by itself is one of the runs, and it comes to its end. -/
theorem exists_run_handleLoop (wall : ℕ → Int64) (firstBatch : Bool) (d : Served V)
    (bts : GoString) :
    ∃ as t, as.filterMap StreamAction.others = [] ∧
      StepSystem.run (step c mp r maxSlices) ⟨d.node, bts, firstBatch, [], none⟩ as = some t ∧
      t.ended = some (d.handleLoop c mp r maxSlices wall firstBatch bts).2 ∧
      t.node = (d.handleLoop c mp r maxSlices wall firstBatch bts).1.node := by
  induction hlen : bts.length using Nat.strong_induction_on generalizing firstBatch d bts with
  | _ len ih =>
      rw [Served.handleLoop]
      split
      · next f hrun =>
          refine ⟨[.batch], ⟨d.node, bts, firstBatch, [], some (.failed f)⟩, rfl, ?_, rfl, rfl⟩
          rw [StepSystem.run_cons_eq_some]
          exact ⟨_, by simp [step, hrun], rfl⟩
      · next b rest hrun =>
          have hlt := Batch.consumes_decodeMsg r maxSlices _ _ _ _ hrun
          cases hn : d.node.handleHandshake firstBatch b with
          | none =>
              refine ⟨[.batch], ⟨d.node, bts, firstBatch, [], some .unauthorized⟩, rfl, ?_, rfl,
                rfl⟩
              rw [StepSystem.run_cons_eq_some]
              exact ⟨_, by simp [step, hrun, hn], rfl⟩
          | some n =>
              obtain ⟨as, hothers, has⟩ := exists_run_applyEntries c mp r maxSlices wall b.entries
                { d with node := n } rest
              obtain ⟨as', t, hothers', has', hend, hnode⟩ := ih _ (hlen ▸ hlt) false
                (Served.applyEntries c mp wall { d with node := n } b.entries) rest rfl
              refine ⟨.batch :: (as ++ as'), t, ?_, ?_, hend, hnode⟩
              · rw [List.filterMap_cons_none rfl, List.filterMap_append, hothers, hothers']
                rfl
              · rw [StepSystem.run_cons_eq_some]
                refine ⟨⟨n, rest, false, b.entries, none⟩, by simp [step, hrun, hn], ?_⟩
                exact (StepSystem.run_append_eq_some _ _ _ _ _).2 ⟨_, has, has'⟩

end Stream

section Runs

variable [Rounding] (c : Codec) (mp : Msgpack V) (r : Readers) (maxSlices : ℕ) (wall : ℕ → Int64)

/-- Of the batches that arrive on a connection, up to its limit of bytes, those of the longest
authorized beginning take effect and no others: after `handleConn` the replica is the old one with
their entries applied in their order, the cursors are those that they report, and everything else is
as before. Whatever else happens on the node meanwhile, what the connection does to it is what these
batches ask for, in their order, and all of it once the connection has ended. -/
theorem unauthorized_has_no_effect {n : Node V} (htoken : n.authToken ≠ []) (bts : GoString) :
    let bs := (Batch.arriving r maxSlices (bts.take maxConnBytes)).1
    (admitted n.authToken bs <+: bs ∧ Authorized n.authToken (admitted n.authToken bs) ∧
      ∀ pre, pre <+: bs → Authorized n.authToken pre → pre <+: admitted n.authToken bs) ∧
    (Served.handleConn c mp r maxSlices wall n bts).1.node =
      { n with
        replica := ((admitted n.authToken bs).flatMap
            (fun b => b.entries.filterMap c.unmarshalMsg)).zipIdx.foldl
          (fun r p => applyRemoteEntry mp r (wall p.2) p.1) n.replica
        peerSeqs := ((admitted n.authToken bs).filterMap Batch.report).foldl
          (fun f p => Function.update f p.1 (some p.2)) n.peerSeqs } ∧
    (∃ as t, as.filterMap StreamAction.others = [] ∧
      StepSystem.run (Stream.step c mp r maxSlices) (Stream.start n bts) as = some t ∧
      t.ended = some (Served.handleConn c mp r maxSlices wall n bts).2 ∧
      t.node = (Served.handleConn c mp r maxSlices wall n bts).1.node) ∧
    ∀ as t, StepSystem.run (Stream.step c mp r maxSlices) (Stream.start n bts) as = some t →
      ∃ (h : List (Effect V)) (todo : List (GoString × ℕ ⊕ LogEntry)),
        t.node = h.foldl (Effect.act mp) n ∧
        h.filterMap Effect.others = as.filterMap StreamAction.others ∧
        h.filterMap Effect.own ++ todo =
          (admitted n.authToken bs).flatMap (Batch.effects c) ∧
        (t.ended ≠ none → todo = []) := by
  intro bs
  refine ⟨⟨admitted_isPrefix _ _, authorized_admitted _ _, fun pre => isPrefix_admitted⟩, ?_,
    Stream.exists_run_handleLoop c mp r maxSlices wall true ⟨n, 0⟩ _, fun as t hrun => ?_⟩
  · rw [Served.handleConn, Served.handleLoop_eq, Served.serveAll_fst c mp wall htoken,
      Served.foldl_applyBatch_eq]
    rfl
  · obtain ⟨h, hnode, hothers, hown, hdone⟩ :=
      Stream.exists_effects_run (s := Stream.start n bts) htoken (fun _ => rfl) hrun
    exact ⟨h, _, hnode, hothers, hown, hdone⟩

end Runs

def guardedNode : Node UInt8 :=
  ⟨bytes "a", bytes "t", ⟨Store.newStore, newHLC 9⟩, newDeltaLog 8, fun _ => none⟩

def firstEntry : LogEntry := deleteLogEntry ⟨10, 0⟩ 0 (bytes "k")

def secondEntry : LogEntry := deleteLogEntry ⟨11, 0⟩ 0 (bytes "l")

def guardedCodec : Codec := tableCodec (fun _ => 0) [firstEntry, secondEntry]

/-- A batch with the token, one without a handshake, one with another token, and one with the token
again; the first two have an entry that decodes. -/
def intrusion : List Batch :=
  [⟨bytes "b", [guardedCodec.marshalMsg firstEntry, []], some ⟨1, bytes "t"⟩⟩,
    ⟨bytes "b", [guardedCodec.marshalMsg secondEntry], none⟩,
    ⟨bytes "b", [guardedCodec.marshalMsg firstEntry], some ⟨9, bytes "u"⟩⟩,
    ⟨bytes "b", [guardedCodec.marshalMsg secondEntry], some ⟨7, bytes "t"⟩⟩]

theorem arriving_intrusion :
    Batch.arriving (MessagePack.readers (fun _ => 0)) 1000
      ((intrusion.flatMap (Batch.marshalMsg (MessagePack.appenders (fun _ => 0)))).take
        maxConnBytes) = (intrusion, .malformed) := by
  rw [Batch.arriving_take (MessagePack.short_appenders _) (MessagePack.undoStream _ _)
    (by decide +kernel), whole_of_le _ (by decide +kernel)]

theorem unauthorized_has_no_effect_intrusion :
    (Served.handleConn guardedCodec byteMsgpack (MessagePack.readers (fun _ => 0)) 1000
        (fun _ => 20) guardedNode
        (intrusion.flatMap (Batch.marshalMsg (MessagePack.appenders (fun _ => 0))))).1.node =
      { guardedNode with
        replica := applyRemoteEntry byteMsgpack
          (applyRemoteEntry byteMsgpack guardedNode.replica 20 firstEntry) 20 secondEntry
        peerSeqs := Function.update guardedNode.peerSeqs (bytes "b") (some 1) } := by
  obtain ⟨-, hnode, -⟩ := unauthorized_has_no_effect guardedCodec byteMsgpack
    (MessagePack.readers (fun _ => 0)) 1000 (fun _ => 20) (n := guardedNode) (by decide)
    (intrusion.flatMap (Batch.marshalMsg (MessagePack.appenders (fun _ => 0))))
  have hadmitted : admitted guardedNode.authToken intrusion = intrusion.take 2 := by
    decide +kernel
  have hentries : (intrusion.take 2).flatMap
      (fun b => b.entries.filterMap guardedCodec.unmarshalMsg) = [firstEntry, secondEntry] := by
    decide +kernel
  rw [arriving_intrusion, hadmitted, hentries] at hnode
  exact hnode

end Capacitor
