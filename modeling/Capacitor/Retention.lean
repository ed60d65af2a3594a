import Capacitor.LogIntegrity
import Capacitor.RingLayout

/-!
# How much the delta log retains

The byte buffer of the log is laid out as a ring. When it has room for one entry more than the index
ring has slots, all entries having a size estimate of at most `m` bytes, then no retained entry is
written over.
-/

namespace Capacitor

open BlockMemory

def Layout.ring (L : Layout) : RingLayout UInt8 := ⟨L.bufHead, L.blocks⟩

theorem Layout.ring_add (c : Codec) (bufCap : ℕ) (L : Layout) (e : LogEntry) :
    (L.add c bufCap e).ring = L.ring.add bufCap e.msgsize
      (c.marshalMsg { e with seq := L.blocks.length + 1 }) :=
  rfl

theorem layout_laid (c : Codec) {bufCap m n : ℕ} (hcap : (n + 1) * m ≤ bufCap)
    {es : List LogEntry} (hes : ∀ e ∈ es, e.msgsize ≤ m) :
    (layout c bufCap es).ring.Laid bufCap m ∧
      ((layout c bufCap es).retained n).Pairwise Apart := by
  induction es using List.reverseRecOn with
  | nil => exact ⟨RingLayout.laid_empty, by simp [layout, Layout.retained]⟩
  | append_singleton es e ih =>
      obtain ⟨hlaid, hapart⟩ := ih (fun d hd => hes d (List.mem_append_left _ hd))
      have he : e.msgsize ≤ m := hes e (by simp)
      have hlen := c.length_le_msgsize
        { e with seq := (layout c bufCap es).blocks.length + 1 }
      rw [layout_append_singleton, Layout.ring_add]
      exact ⟨hlaid.add he hlen, hlaid.pairwise_add hcap he hlen hapart⟩

theorem Represents.apart {L : Layout} {l : DeltaLog} (h : Represents L l)
    (hapart : (L.retained l.capacity).Pairwise Apart) {q q' : ℕ} (hq : l.earliest ≤ q)
    (hlt : q < q') (hq' : q' < l.head) :
    (l.info q).offset + (l.info q).length ≤ (l.info q').offset ∨
      (l.info q').offset + (l.info q').length ≤ (l.info q).offset := by
  obtain ⟨b, _, hb, hinfo⟩ := h.info_eq hq (hlt.trans hq')
  obtain ⟨b', _, hb', hinfo'⟩ := h.info_eq (hq.trans hlt.le) hq'
  rw [hinfo, hinfo']
  obtain ⟨hi, rfl⟩ := List.getElem?_eq_some_iff.1 hb
  obtain ⟨hi', rfl⟩ := List.getElem?_eq_some_iff.1 hb'
  exact List.pairwise_iff_getElem.1 hapart _ _ hi hi' (by omega)

theorem earliest_le_of_lt_add {l : DeltaLog} {n q : ℕ} (hhead : l.head = n + 1) (hq : 1 ≤ q)
    (h : n < q + l.capacity) : l.earliest ≤ q := by
  unfold DeltaLog.earliest
  split_ifs <;> omega

/-- With room for one entry more than the log retains, each of the last `capacity` entries is served
as it was encoded, and their byte ranges lie apart. -/
theorem retains_within_budget (c : Codec) {capacity m : ℕ}
    (hcap : (capacity + 1) * m ≤ (newDeltaLog capacity).bufCap) (es : List LogEntry)
    (hes : ∀ e ∈ es, e.msgsize ≤ m) :
    ∃ l, StepSystem.run (DeltaLog.append c) (newDeltaLog capacity) es = some l ∧
      (∀ q, 1 ≤ q → q ≤ es.length → es.length < q + capacity →
        ∃ e, es[q - 1]? = some e ∧ l.served q = c.marshalMsg { e with seq := q } ∧
          ∀ maxBytes, l.getEntriesRaw q 1 maxBytes = some [c.marshalMsg { e with seq := q }]) ∧
      ∀ q q', 1 ≤ q → q < q' → q' ≤ es.length → es.length < q + capacity →
        (l.info q).offset + (l.info q).length ≤ (l.info q').offset ∨
          (l.info q').offset + (l.info q').length ≤ (l.info q).offset := by
  have hfit : ∀ e ∈ es, e.msgsize ≤ (newDeltaLog capacity).bufCap := fun e he =>
    (hes e he).trans ((Nat.le_mul_of_pos_left m (Nat.succ_pos capacity)).trans hcap)
  obtain ⟨l, hrun, hrep, hcapacity, -⟩ := run_append_represents c capacity es hfit
  have hapart : ((layout c (newDeltaLog capacity).bufCap es).retained l.capacity).Pairwise
      Apart := by
    rw [hcapacity]
    exact (layout_laid c hcap hes).2
  have hown := hrep.served_own_iff.2 (hapart.imp Apart.agree)
  have hhead : l.head = es.length + 1 := by rw [hrep.head, length_layout_blocks]
  refine ⟨l, hrun, ?_, ?_⟩
  · intro q hq1 hq hret
    rw [← hcapacity] at hret
    have hearliest := earliest_le_of_lt_add hhead hq1 hret
    have hlt : q < l.head := by omega
    obtain ⟨b, -, hb, -, -⟩ := hrep.served_eq hearliest hlt
    obtain ⟨e, he, hcells⟩ := layout_cells hq1 hb
    have hserved := (hown q hearliest hlt b hb).trans hcells
    refine ⟨e, he, hserved, fun maxBytes => ?_⟩
    obtain ⟨res, hres, -⟩ := hrep.getEntriesRaw_own hown q 1 maxBytes
    rw [hres, getEntriesRaw_one hearliest hlt hres, hserved]
  · intro q q' hq1 hlt hq' hret
    rw [← hcapacity] at hret
    exact hrep.apart hapart (earliest_le_of_lt_add hhead hq1 hret) hlt (by omega)

/-- Three deletions of a short key in a log of two entries, 95 bytes being their size estimate. -/
theorem retains_within_budget_shortDelete :
    ∃ l, StepSystem.run (DeltaLog.append (tableCodec (fun _ => 0) [])) (newDeltaLog 2)
        [shortDelete, shortDelete, shortDelete] = some l ∧
      l.getEntriesRaw 2 1 0 =
        some [(tableCodec (fun _ => 0) []).marshalMsg { shortDelete with seq := 2 }] := by
  have hcap : (2 + 1) * 95 ≤ (newDeltaLog 2).bufCap := by decide
  obtain ⟨l, hrun, hserved, -⟩ := retains_within_budget (tableCodec (fun _ => 0) []) hcap
    [shortDelete, shortDelete, shortDelete] (by decide)
  obtain ⟨e, he, -, hget⟩ := hserved 2 (by decide) (by decide) (by decide)
  obtain rfl := Option.some.inj he
  exact ⟨l, hrun, hget 0⟩

end Capacitor
