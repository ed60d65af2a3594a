import Capacitor.Connections
import Capacitor.CursorSeed
import Capacitor.LogIntegrity

/-!
# Entries on their way to the peer

The history of a node keeps every entry as it was appended. As long as no append is laid over other
bytes of a retained entry, what the log serves for a number is the encoding of that entry, and the
batch that follows a cursor misses nothing but what the ring has dropped. An entry is safe when the
ring has dropped it, when the peer was handed it, or when it is still in flight.
-/

namespace Capacitor

open BlockMemory

variable {V : Type*}

namespace Side

def entry (d : Side V) (q : ℕ) : Option LogEntry :=
  d.appended[q - 1]?.map (fun e => { e with seq := q })

theorem seq_entry {d : Side V} {q : ℕ} {e : LogEntry} (h : d.entry q = some e) : e.seq = q := by
  obtain ⟨e₀, _, rfl⟩ := Option.map_eq_some_iff.1 h
  rfl

/-- The bytes are the encoding of the entry with the given number. -/
def Encodes (c : Codec) (d : Side V) (q : ℕ) (raw : GoString) : Prop :=
  1 ≤ q ∧ ∃ e, d.entry q = some e ∧ raw = c.marshalMsg e

/-- The entry fits the buffer, can be decoded again, and is not laid over other bytes of an entry
that is still retained. -/
def KeepsBytes (c : Codec) (d : Side V) : SideAction → Prop
  | .append e =>
      e.msgsize ≤ d.node.log.bufCap ∧
      c.unmarshalMsg (c.marshalMsg { e with seq := d.node.log.head }) =
        some { e with seq := d.node.log.head } ∧
      ((layout c d.node.log.bufCap (d.appended ++ [e])).retained
        d.node.log.capacity).Pairwise Agree
  | _ => True

instance (c : Codec) (d : Side V) : (a : SideAction) → Decidable (d.KeepsBytes c a)
  | .append _ => inferInstanceAs (Decidable (_ ∧ _))
  | .checkStop | .wake _ | .seed _ | .loadOrStore _ | .getEntriesRaw _ | .lastSeen _
  | .sendBatch _ _ | .store _ | .breakConn _ | .closeConn | .startPeerReplicator
  | .stopPeerReplicator => isTrue trivial

/-- The later side knows every entry of the earlier one by the same number, and has dropped at least
as many. -/
structure Extends (d d' : Side V) : Prop where
  earliest : d.node.log.earliest ≤ d'.node.log.earliest
  entry : ∀ q e, d.entry q = some e → d'.entry q = some e

variable {c : Codec} {peer : GoString} {d d' : Side V}

theorem Extends.of_eq (hlog : d'.node.log = d.node.log) (happended : d'.appended = d.appended) :
    d.Extends d' := by
  refine ⟨by rw [hlog], ?_⟩
  intro q e he
  rw [Side.entry, happended]
  exact he

theorem Extends.encodes (h : d.Extends d') {q : ℕ} {raw : GoString} (hq : d.Encodes c q raw) :
    d'.Encodes c q raw := by
  obtain ⟨hq1, e, he, hraw⟩ := hq
  exact ⟨hq1, e, h.entry q e he, hraw⟩

theorem act_extends {a : SideAction} (h : d.act c peer a = some d') : d.Extends d' := by
  rcases act_log h with ⟨hlog, happended⟩ | ⟨e, -, hlog, happended⟩
  · exact Extends.of_eq hlog happended
  · refine ⟨DeltaLog.earliest_le_append hlog, ?_⟩
    intro q e' he'
    obtain ⟨e₀, he₀, rfl⟩ := Option.map_eq_some_iff.1 he'
    have hlt := (List.getElem?_eq_some_iff.1 he₀).1
    rw [entry, happended, List.getElem?_append_left hlt, he₀, Option.map_some]

/-- The log holds every retained entry in full, and every entry can be decoded. -/
structure Faithful (c : Codec) (d : Side V) : Prop where
  represents : Represents (layout c d.node.log.bufCap d.appended) d.node.log
  bufCap : d.node.log.bufCap = (newDeltaLog d.node.log.capacity).bufCap
  agree : ((layout c d.node.log.bufCap d.appended).retained d.node.log.capacity).Pairwise Agree
  decodes : ∀ q e, 1 ≤ q → d.entry q = some e → c.unmarshalMsg (c.marshalMsg e) = some e

namespace Faithful

theorem fresh (c : Codec) (nodeID authToken : GoString) (replica : Replica V) (capacity : ℕ) :
    (Side.fresh nodeID authToken replica capacity).Faithful c where
  represents := newDeltaLog_represents capacity
  bufCap := rfl
  agree := by simp [Side.fresh, layout, Layout.retained]
  decodes q e _ he := by simp [Side.fresh, entry] at he

theorem congr (h : d.Faithful c) (hlog : d'.node.log = d.node.log)
    (happended : d'.appended = d.appended) : d'.Faithful c := by
  refine ⟨?_, ?_, ?_, ?_⟩
  · rw [hlog, happended]
    exact h.represents
  · rw [hlog]
    exact h.bufCap
  · rw [hlog, happended]
    exact h.agree
  · intro q e hq1 he
    rw [entry, happended] at he
    exact h.decodes q e hq1 he

theorem head_eq (h : d.Faithful c) : d.node.log.head = d.appended.length + 1 := by
  rw [h.represents.head, length_layout_blocks]

theorem append (h : d.Faithful c) {e : LogEntry} (he : d.KeepsBytes c (.append e))
    (hlog : d.node.log.append c e = some d'.node.log)
    (happended : d'.appended = d.appended ++ [e]) : d'.Faithful c := by
  obtain ⟨hfit, hdecodes, hagree⟩ := he
  have hcap : 0 < d.node.log.capacity := capacity_pos_of_fits (h.bufCap ▸ hfit)
  obtain ⟨l, hl, hrep, hlcap, hlbuf⟩ := append_represents (c := c) h.represents hcap hfit
  obtain rfl : d'.node.log = l := Option.some.inj (hlog.symm.trans hl)
  refine ⟨?_, ?_, ?_, ?_⟩
  · rw [hlbuf, happended, layout_append_singleton]
    exact hrep
  · rw [hlbuf, hlcap]
    exact h.bufCap
  · rw [hlbuf, hlcap, happended]
    exact hagree
  · intro q e' hq1 he'
    obtain ⟨e₀, he₀, rfl⟩ := Option.map_eq_some_iff.1 he'
    rw [happended] at he₀
    by_cases hlt : q - 1 < d.appended.length
    · rw [List.getElem?_append_left hlt] at he₀
      exact h.decodes q _ hq1 (by rw [entry, he₀, Option.map_some])
    · have hend := (List.getElem?_eq_some_iff.1 he₀).1
      rw [List.length_append, List.length_singleton] at hend
      have hq : q - 1 = d.appended.length := by omega
      rw [hq, List.getElem?_append_right le_rfl, Nat.sub_self, List.getElem?_cons_zero,
        Option.some.injEq] at he₀
      have hhead : q = d.node.log.head := by
        rw [h.head_eq]
        omega
      rw [← he₀, hhead]
      exact hdecodes

theorem encodes_served (h : d.Faithful c) {q : ℕ} (hq : d.node.log.earliest ≤ q)
    (hlt : q < d.node.log.head) : d.Encodes c q (d.node.log.served q) := by
  have hq1 := h.represents.one_le_of_earliest_le hq
  obtain ⟨b, _, hb, _, _⟩ := h.represents.served_eq hq hlt
  obtain ⟨e, he, hcells⟩ := layout_cells hq1 hb
  refine ⟨hq1, { e with seq := q }, by rw [entry, he, Option.map_some], ?_⟩
  rw [← hcells]
  exact h.represents.served_own_iff.2 h.agree q hq hlt b hb

theorem unmarshal (h : d.Faithful c) {q : ℕ} {raw : GoString} (hraw : d.Encodes c q raw) :
    ∃ e, d.entry q = some e ∧ c.unmarshalMsg raw = some e := by
  obtain ⟨hq1, e, he, rfl⟩ := hraw
  exact ⟨e, he, h.decodes q e hq1 he⟩

theorem act (h : d.Faithful c) {a : SideAction} (ha : d.KeepsBytes c a)
    (hact : d.act c peer a = some d') : d'.Faithful c := by
  rcases act_log hact with ⟨hlog, happended⟩ | ⟨e, rfl, hlog, happended⟩
  · exact h.congr hlog happended
  · exact h.append ha hlog happended

end Faithful

/-- A batch that was read from the log: nothing between the cursor and its end is missing but what
the ring has dropped. -/
structure BatchOf (c : Codec) (d : Side V) (p : Drawn) : Prop where
  start : p.lastSeq < p.start
  covers : ∀ q, p.lastSeq < q → q < p.start + p.raw.length →
    q < d.node.log.earliest ∨ ∃ raw ∈ p.raw, d.Encodes c q raw
  encodes : ∀ raw ∈ p.raw, ∃ q < p.start + p.raw.length, d.Encodes c q raw

theorem BatchOf.extends {p : Drawn} (h : d.BatchOf c p) (hext : d.Extends d') :
    d'.BatchOf c p := by
  refine ⟨h.start, ?_, ?_⟩
  · intro q hlast hq
    rcases h.covers q hlast hq with hdropped | ⟨raw, hraw, henc⟩
    · exact Or.inl (hdropped.trans_le hext.earliest)
    · exact Or.inr ⟨raw, hraw, hext.encodes henc⟩
  · intro raw hraw
    obtain ⟨q, hq, henc⟩ := h.encodes raw hraw
    exact ⟨q, hq, hext.encodes henc⟩

theorem Faithful.batchOf (h : d.Faithful c) {lastSeq limit : ℕ} {maxBytes : ℤ}
    {raw : List GoString}
    (hraw : d.node.log.getEntriesRaw (lastSeq + 1) limit maxBytes = some raw) (hne : raw ≠ []) :
    d.BatchOf c ⟨lastSeq, max (lastSeq + 1) d.node.log.earliest, raw⟩ := by
  obtain ⟨n, _, hmap, hend, _⟩ := DeltaLog.getEntriesRaw_eq_some hraw
  have hlen : raw.length = n := by rw [hmap, List.length_map, List.length_range]
  have hbound := hend (hlen ▸ List.length_pos_of_ne_nil hne)
  have henc (i : ℕ) (hi : i < n) : d.Encodes c (max (lastSeq + 1) d.node.log.earliest + i)
      (d.node.log.served (max (lastSeq + 1) d.node.log.earliest + i)) :=
    h.encodes_served (by omega) (by omega)
  refine ⟨by dsimp only; omega, ?_, ?_⟩
  · intro q hlast hq
    dsimp only at hlast hq
    by_cases hdropped : q < d.node.log.earliest
    · exact Or.inl hdropped
    · obtain ⟨i, rfl⟩ := Nat.exists_eq_add_of_le
        (by omega : max (lastSeq + 1) d.node.log.earliest ≤ q)
      refine Or.inr ⟨_, ?_, henc i (by omega)⟩
      dsimp only
      rw [hmap]
      exact List.mem_map_of_mem (List.mem_range.2 (by omega))
  · intro r hr
    dsimp only at hr ⊢
    rw [hmap] at hr
    obtain ⟨i, hi, rfl⟩ := List.mem_map.1 hr
    have hin := List.mem_range.1 hi
    exact ⟨_, by omega, henc i hin⟩

/-- The entry with the given number was dropped by the ring, handed to the peer, or is in flight. -/
def Safe (c : Codec) (handed : List LogEntry) (d : Side V) (q : ℕ) : Prop :=
  q < d.node.log.earliest ∨ (∃ e ∈ handed, d.entry q = some e) ∨
    ∃ raw, d.Encodes c q raw ∧ d.link.InFlight raw

def SafeUpTo (c : Codec) (handed : List LogEntry) (d : Side V) (k : ℕ) : Prop :=
  ∀ q, 1 ≤ q → q ≤ k → d.Safe c handed q

variable {handed handed' : List LogEntry}

theorem safeUpTo_zero (c : Codec) (handed : List LogEntry) (d : Side V) :
    d.SafeUpTo c handed 0 := by
  intro q hq1 hq
  omega

theorem SafeUpTo.of_le {j k : ℕ} (h : d.SafeUpTo c handed k) (hjk : j ≤ k) :
    d.SafeUpTo c handed j :=
  fun q hq1 hq => h q hq1 (hq.trans hjk)

theorem SafeUpTo.of_within {known : List ℕ} {k : ℕ} (hknown : ∀ m ∈ known, d.SafeUpTo c handed m)
    (hk : Within known k) : d.SafeUpTo c handed k := by
  rcases hk with rfl | ⟨m, hm, hle⟩
  · exact safeUpTo_zero c handed d
  · exact (hknown m hm).of_le hle

/-- What is safe stays safe when everything in flight stays in flight or is handed over. -/
theorem SafeUpTo.extends {k : ℕ} (h : d.SafeUpTo c handed k) (hext : d.Extends d')
    (hhanded : handed ⊆ handed')
    (hflight : ∀ q raw, d.Encodes c q raw → d.link.InFlight raw →
      d'.link.InFlight raw ∨ ∃ e ∈ handed', d.entry q = some e) :
    d'.SafeUpTo c handed' k := by
  intro q hq1 hq
  rcases h q hq1 hq with hdropped | ⟨e, he, hentry⟩ | ⟨raw, henc, hraw⟩
  · exact Or.inl (hdropped.trans_le hext.earliest)
  · exact Or.inr (Or.inl ⟨e, hhanded he, hext.entry q e hentry⟩)
  · rcases hflight q raw henc hraw with hraw' | ⟨e, he, hentry⟩
    · exact Or.inr (Or.inr ⟨raw, hext.encodes henc, hraw'⟩)
    · exact Or.inr (Or.inl ⟨e, he, hext.entry q e hentry⟩)

end Side

end Capacitor
