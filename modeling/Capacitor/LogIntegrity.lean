import Capacitor.StepSystem
import Capacitor.Wire

/-!
# Which bytes the delta log serves

The abstract side is `layout`: the blocks that the encodings of the appended entries occupy when
they are laid one behind the other, starting again at offset 0 whenever a size estimate reaches
past the buffer. `Represents` relates a log to the layout of its history. What the index ring
retains is a suffix of the blocks, and nothing in the source keeps a later block away from it: the
log serves every retained entry as it was encoded exactly when the retained blocks agree where they
overlap.
-/

namespace Capacitor

open BlockMemory

structure Layout where
  bufHead : ℕ
  blocks : List (Block UInt8)

namespace Layout

def add (c : Codec) (bufCap : ℕ) (L : Layout) (e : LogEntry) : Layout :=
  let entry := { e with seq := L.blocks.length + 1 }
  let start := if L.bufHead + entry.msgsize > bufCap then 0 else L.bufHead
  ⟨start + (c.marshalMsg entry).length, L.blocks ++ [⟨start, c.marshalMsg entry⟩]⟩

def retained (L : Layout) (capacity : ℕ) : List (Block UInt8) :=
  L.blocks.drop (L.blocks.length - capacity)

end Layout

def layout (c : Codec) (bufCap : ℕ) (es : List LogEntry) : Layout :=
  es.foldl (Layout.add c bufCap) ⟨0, []⟩

theorem layout_append_singleton (c : Codec) (bufCap : ℕ) (es : List LogEntry) (e : LogEntry) :
    layout c bufCap (es ++ [e]) = (layout c bufCap es).add c bufCap e := by
  simp [layout]

theorem length_layout_blocks (c : Codec) (bufCap : ℕ) (es : List LogEntry) :
    (layout c bufCap es).blocks.length = es.length := by
  induction es using List.reverseRecOn with
  | nil => rfl
  | append_singleton es e ih => simp [layout_append_singleton, Layout.add, ih]

theorem layout_blocks_getElem? (c : Codec) (bufCap : ℕ) (es : List LogEntry) (i : ℕ) :
    ((layout c bufCap es).blocks[i]?).map Block.cells =
      (es[i]?).map (fun e => c.marshalMsg { e with seq := i + 1 }) := by
  have hlen := length_layout_blocks c bufCap
  induction es using List.reverseRecOn with
  | nil => simp [layout]
  | append_singleton es e ih =>
      rw [layout_append_singleton]
      simp only [Layout.add]
      by_cases hi : i < es.length
      · rw [List.getElem?_append_left (by rw [hlen]; exact hi), ih, List.getElem?_append_left hi]
      · by_cases he : i = es.length
        · subst i
          rw [List.getElem?_append_right (by rw [hlen]), List.getElem?_append_right le_rfl]
          simp [hlen]
        · rw [List.getElem?_eq_none (by simp [hlen]; omega), List.getElem?_eq_none (by simp; omega)]
          rfl

theorem layout_cells {c : Codec} {bufCap : ℕ} {es : List LogEntry} {q : ℕ} (hq : 1 ≤ q)
    {b : Block UInt8} (hb : (layout c bufCap es).blocks[q - 1]? = some b) :
    ∃ e, es[q - 1]? = some e ∧ b.cells = c.marshalMsg { e with seq := q } := by
  have h := layout_blocks_getElem? c bufCap es (q - 1)
  rw [hb, Option.map_some, show q - 1 + 1 = q by omega] at h
  obtain ⟨e, he, hcells⟩ := Option.map_eq_some_iff.1 h.symm
  exact ⟨e, he, hcells.symm⟩

/-- The log holds the given layout. -/
structure Represents (L : Layout) (l : DeltaLog) : Prop where
  head : l.head = L.blocks.length + 1
  bufHead : l.bufHead = L.bufHead
  bufHead_le : L.bufHead ≤ l.bufCap
  bufCap_lt : l.bufCap < 2 ^ 31
  data : l.data = putAll (fun _ => 0) L.blocks
  inside : ∀ b ∈ L.blocks, b.offset + b.cells.length ≤ l.bufCap
  index : ∀ i b, L.blocks[i]? = some b → L.blocks.length ≤ i + l.capacity →
    l.info (i + 1) = ⟨b.offset, b.cells.length⟩

theorem capacity_pos_of_fits {capacity : ℕ} {e : LogEntry}
    (hfit : e.msgsize ≤ (newDeltaLog capacity).bufCap) : 0 < capacity := by
  have hpos : 0 < e.msgsize := by
    unfold LogEntry.msgsize
    omega
  unfold newDeltaLog at hfit
  dsimp only at hfit
  split_ifs at hfit <;> omega

theorem newDeltaLog_represents (capacity : ℕ) : Represents ⟨0, []⟩ (newDeltaLog capacity) where
  head := rfl
  bufHead := rfl
  bufHead_le := Nat.zero_le _
  bufCap_lt := newDeltaLog_bufCap_lt capacity
  data := rfl
  inside _ h := by cases h
  index _ _ h := by simp at h

/-- An append whose size estimate fits the buffer at all extends the layout by one block. -/
theorem append_represents {c : Codec} {L : Layout} {l : DeltaLog} (h : Represents L l)
    {e : LogEntry} (hcap : 0 < l.capacity) (hfit : e.msgsize ≤ l.bufCap) :
    ∃ l', l.append c e = some l' ∧ Represents (L.add c l.bufCap e) l' ∧
      l'.capacity = l.capacity ∧ l'.bufCap = l.bufCap := by
  have hlen := c.length_le_msgsize { e with seq := l.head }
  have hroom := DeltaLog.place_add_le hfit
  have hsz : ({ e with seq := l.head } : LogEntry).msgsize = e.msgsize := rfl
  rw [hsz] at hlen
  have hadd : L.add c l.bufCap e =
      ⟨l.place e.msgsize + (c.marshalMsg { e with seq := l.head }).length,
        L.blocks ++ [⟨l.place e.msgsize, c.marshalMsg { e with seq := l.head }⟩]⟩ := by
    unfold Layout.add DeltaLog.place
    rw [h.head, h.bufHead]
    rfl
  have happend := DeltaLog.append_of_fits c hcap (by rw [h.bufHead]; exact h.bufHead_le)
    h.bufCap_lt hfit
  refine ⟨_, happend, ?_, rfl, rfl⟩
  rw [hadd]
  constructor
  · simp [h.head]
  · rfl
  · dsimp only
    omega
  · exact h.bufCap_lt
  · dsimp only
    rw [putAll_append, ← h.data]
    rfl
  · intro b hb
    rcases List.mem_append.1 hb with hb | hb
    · exact h.inside b hb
    · rw [List.mem_singleton.1 hb]
      dsimp only
      omega
  · intro i b hb hret
    simp only [List.length_append, List.length_singleton] at hret
    rcases lt_or_eq_of_le (Nat.le_of_lt_succ
      (by simpa using (List.getElem?_eq_some_iff.1 hb).1 : i < L.blocks.length + 1)) with hi | hi
    · rw [List.getElem?_append_left hi] at hb
      have hne : (i + 1) % l.capacity ≠ l.head % l.capacity :=
        mod_ne_mod_of_lt (by rw [h.head]; omega) (by rw [h.head]; omega)
      have hold := h.index i b hb (by omega)
      simpa only [DeltaLog.info, Function.update_of_ne hne] using hold
    · subst hi
      rw [List.getElem?_append_right le_rfl, Nat.sub_self] at hb
      have hb' := Option.some.inj hb
      simp only [DeltaLog.info, ← h.head, Function.update_self, ← hb']

theorem run_append_represents (c : Codec) (capacity : ℕ) (es : List LogEntry)
    (hfit : ∀ e ∈ es, e.msgsize ≤ (newDeltaLog capacity).bufCap) :
    ∃ l, StepSystem.run (DeltaLog.append c) (newDeltaLog capacity) es = some l ∧
      Represents (layout c (newDeltaLog capacity).bufCap es) l ∧
      l.capacity = capacity ∧ l.bufCap = (newDeltaLog capacity).bufCap := by
  induction es using List.reverseRecOn with
  | nil => exact ⟨_, rfl, newDeltaLog_represents capacity, rfl, rfl⟩
  | append_singleton es e ih =>
      obtain ⟨l, hrun, hrep, hcap, hbuf⟩ := ih (fun d hd => hfit d (List.mem_append_left _ hd))
      have he : e.msgsize ≤ (newDeltaLog capacity).bufCap := hfit e (by simp)
      obtain ⟨l', happend, hrep', hcap', hbuf'⟩ := append_represents (c := c) hrep
        (by rw [hcap]; exact capacity_pos_of_fits he) (by rw [hbuf]; exact he)
      refine ⟨l', ?_, ?_, hcap'.trans hcap, hbuf'.trans hbuf⟩
      · rw [StepSystem.run_append_eq_some]
        exact ⟨l, hrun, by rw [StepSystem.run_singleton]; exact happend⟩
      · rw [layout_append_singleton]
        rwa [hbuf] at hrep'

theorem Represents.one_le_of_earliest_le {L : Layout} {l : DeltaLog} (h : Represents L l) {q : ℕ}
    (hq : l.earliest ≤ q) : 1 ≤ q := by
  have hhead := h.head
  unfold DeltaLog.earliest at hq
  split_ifs at hq <;> omega

theorem Represents.info_eq {L : Layout} {l : DeltaLog} (h : Represents L l) {q : ℕ}
    (hq : l.earliest ≤ q) (hlt : q < l.head) :
    ∃ b, L.blocks[q - 1]? = some b ∧ (L.retained l.capacity)[q - l.earliest]? = some b ∧
      l.info q = ⟨b.offset, b.cells.length⟩ := by
  have hhead := h.head
  have hq1 := h.one_le_of_earliest_le hq
  have hret : L.blocks.length - l.capacity + (q - l.earliest) = q - 1 ∧
      L.blocks.length ≤ q - 1 + l.capacity := by
    unfold DeltaLog.earliest at hq ⊢
    split_ifs at hq ⊢ <;> omega
  have hi : q - 1 < L.blocks.length := by omega
  have hb : L.blocks[q - 1]? = some L.blocks[q - 1] := List.getElem?_eq_getElem hi
  have hinfo := h.index (q - 1) _ hb hret.2
  rw [show q - 1 + 1 = q by omega] at hinfo
  refine ⟨L.blocks[q - 1], hb, ?_, hinfo⟩
  rw [Layout.retained, List.getElem?_drop, hret.1, hb]

theorem Represents.served_eq {L : Layout} {l : DeltaLog} (h : Represents L l) {q : ℕ}
    (hq : l.earliest ≤ q) (hlt : q < l.head) :
    ∃ b ∈ L.retained l.capacity, L.blocks[q - 1]? = some b ∧ l.InRange q ∧
      l.served q = slice l.data b.offset b.cells.length := by
  obtain ⟨b, hb, hretained, hinfo⟩ := h.info_eq hq hlt
  refine ⟨b, List.mem_of_getElem? hretained, hb, ?_, ?_⟩
  · have hin := h.inside b (List.mem_of_getElem? hb)
    have hbuf := h.bufCap_lt
    rw [DeltaLog.InRange, hinfo]
    dsimp only
    rw [Nat.mod_eq_of_lt (by omega)]
    exact ⟨Nat.le_add_right _ _, hin⟩
  · rw [DeltaLog.served, hinfo]

theorem Represents.exists_of_mem_retained {L : Layout} {l : DeltaLog} (h : Represents L l)
    {b : Block UInt8} (hb : b ∈ L.retained l.capacity) :
    ∃ q, l.earliest ≤ q ∧ q < l.head ∧ L.blocks[q - 1]? = some b := by
  obtain ⟨i, hi⟩ := List.getElem?_of_mem hb
  rw [Layout.retained, List.getElem?_drop] at hi
  have hlt := (List.getElem?_eq_some_iff.1 hi).1
  have hhead := h.head
  refine ⟨L.blocks.length - l.capacity + i + 1, ?_, by omega, hi⟩
  unfold DeltaLog.earliest
  split_ifs <;> omega

/-- Every retained entry is served as it was encoded exactly when the retained blocks agree. -/
theorem Represents.served_own_iff {L : Layout} {l : DeltaLog} (h : Represents L l) :
    (∀ q, l.earliest ≤ q → q < l.head → ∀ b, L.blocks[q - 1]? = some b → l.served q = b.cells) ↔
      (L.retained l.capacity).Pairwise Agree := by
  have hdata : l.data = putAll (putAll (fun _ => 0)
      (L.blocks.take (L.blocks.length - l.capacity))) (L.retained l.capacity) := by
    rw [← putAll_append, Layout.retained, List.take_append_drop]
    exact h.data
  rw [← holds_putAll_iff, ← hdata]
  constructor
  · intro hown b hb
    obtain ⟨q, hq, hlt, hqb⟩ := h.exists_of_mem_retained hb
    obtain ⟨b', _, hb', _, hserved⟩ := h.served_eq hq hlt
    obtain rfl : b = b' := Option.some.inj (hqb.symm.trans hb')
    rw [← slice_eq_cells_iff, ← hserved]
    exact hown q hq hlt b hqb
  · intro hholds q hq hlt b hqb
    obtain ⟨b', hmem, hb', _, hserved⟩ := h.served_eq hq hlt
    obtain rfl : b = b' := Option.some.inj (hqb.symm.trans hb')
    rw [hserved, slice_eq_cells_iff]
    exact hholds b hmem

/-- After the appends, every request is answered with the encodings of consecutive entries. -/
def ServesOwnBytes (c : Codec) (capacity : ℕ) (es : List LogEntry) : Prop :=
  ∃ l, StepSystem.run (DeltaLog.append c) (newDeltaLog capacity) es = some l ∧
    ∀ startSeq limit maxBytes, 1 ≤ limit →
      ∃ res, l.getEntriesRaw startSeq limit maxBytes = some res ∧
        ∀ i raw, res[i]? = some raw →
          ∃ e, es[max startSeq l.earliest + i - 1]? = some e ∧
            raw = c.marshalMsg { e with seq := max startSeq l.earliest + i }

theorem getEntriesRaw_one {l : DeltaLog} {q : ℕ} {maxBytes : ℤ} {res : List GoString}
    (hq : l.earliest ≤ q) (hlt : q < l.head) (hget : l.getEntriesRaw q 1 maxBytes = some res) :
    res = [l.served q] := by
  obtain ⟨n, hn, hmap, _, hpos⟩ := DeltaLog.getEntriesRaw_eq_some hget
  rw [max_eq_left hq] at hmap hpos
  have hn1 : n = 1 := by
    have := hpos one_pos hlt
    omega
  subst n
  simp [hmap]

theorem Represents.getEntriesRaw_own {c : Codec} {bufCap : ℕ} {es : List LogEntry} {l : DeltaLog}
    (h : Represents (layout c bufCap es) l)
    (hown : ∀ q, l.earliest ≤ q → q < l.head →
      ∀ b, (layout c bufCap es).blocks[q - 1]? = some b → l.served q = b.cells)
    (startSeq limit : ℕ) (maxBytes : ℤ) :
    ∃ res, l.getEntriesRaw startSeq limit maxBytes = some res ∧
      ∀ i raw, res[i]? = some raw →
        ∃ e, es[max startSeq l.earliest + i - 1]? = some e ∧
          raw = c.marshalMsg { e with seq := max startSeq l.earliest + i } := by
  have hin : ∀ q, l.earliest ≤ q → q < l.head → l.InRange q := by
    intro q hq hlt
    obtain ⟨_, _, _, hrange, _⟩ := h.served_eq hq hlt
    exact hrange
  obtain ⟨res, hget⟩ := Option.isSome_iff_exists.1
    (DeltaLog.getEntriesRaw_isSome startSeq limit maxBytes hin)
  obtain ⟨n, _, hmap, hbound, _⟩ := DeltaLog.getEntriesRaw_eq_some hget
  refine ⟨res, hget, ?_⟩
  intro i raw hraw
  have hi : i < n := by
    have := (List.getElem?_eq_some_iff.1 hraw).1
    simpa [hmap] using this
  have hq : l.earliest ≤ max startSeq l.earliest + i := by omega
  have hlt : max startSeq l.earliest + i < l.head := by
    have := hbound (by omega)
    omega
  obtain ⟨b, _, hb, _, _⟩ := h.served_eq hq hlt
  obtain ⟨e, he, hcells⟩ := layout_cells (h.one_le_of_earliest_le hq) hb
  refine ⟨e, he, ?_⟩
  rw [← hcells, ← hown _ hq hlt b hb]
  simpa [hmap, hi] using hraw.symm

/-- The log serves its own bytes exactly when no two retained entries were laid over each other
with different bytes. -/
theorem servesOwnBytes_iff (c : Codec) (capacity : ℕ) (es : List LogEntry)
    (hfit : ∀ e ∈ es, e.msgsize ≤ (newDeltaLog capacity).bufCap) :
    ServesOwnBytes c capacity es ↔
      ((layout c (newDeltaLog capacity).bufCap es).retained capacity).Pairwise Agree := by
  obtain ⟨l, hrun, hrep, hcap, _⟩ := run_append_represents c capacity es hfit
  have hown := hrep.served_own_iff
  rw [hcap] at hown
  rw [← hown]
  constructor
  · rintro ⟨l', hrun', hserves⟩ q hq hlt b hb
    obtain rfl : l = l' := Option.some.inj (hrun.symm.trans hrun')
    obtain ⟨res, hget, hres⟩ := hserves q 1 0 le_rfl
    rw [getEntriesRaw_one hq hlt hget, max_eq_left hq] at hres
    obtain ⟨e, he, hraw⟩ := hres 0 (l.served q) rfl
    obtain ⟨e', he', hcells⟩ := layout_cells (hrep.one_le_of_earliest_le hq) hb
    obtain rfl : e = e' := Option.some.inj (he.symm.trans he')
    exact hraw.trans hcells.symm
  · intro h
    exact ⟨l, hrun, fun startSeq limit maxBytes _ =>
      hrep.getEntriesRaw_own h startSeq limit maxBytes⟩

/-- The deletion of a key of 200 bytes: its size estimate is 294, its encoding takes 224 bytes. -/
def longDelete : LogEntry where
  seq := 0
  ts := ⟨1, 0⟩
  bornAt := 1
  op := .delete
  key := List.replicate 200 107
  nodeID := []
  value := []
  delta := 0
  ttl := 0

def shortDelete : LogEntry := { longDelete with key := bytes "k" }

theorem servesOwnBytes_shortDelete :
    (∀ e ∈ [shortDelete, shortDelete], e.msgsize ≤ (newDeltaLog 2).bufCap) ∧
      ServesOwnBytes (tableCodec (fun _ => 0) []) 2 [shortDelete, shortDelete] := by
  have hfit : ∀ e ∈ [shortDelete, shortDelete], e.msgsize ≤ (newDeltaLog 2).bufCap := by decide
  exact ⟨hfit, (servesOwnBytes_iff _ _ _ hfit).2 (by decide +kernel)⟩

/-- Two such deletions in a log of two entries: the second does not fit behind the first, is
written over it, and is then served in its place. -/
theorem not_servesOwnBytes_longDelete :
    (∀ e ∈ [longDelete, longDelete], e.msgsize ≤ (newDeltaLog 2).bufCap) ∧
      ¬ ServesOwnBytes (tableCodec (fun _ => 0) []) 2 [longDelete, longDelete] := by
  refine ⟨by decide +kernel, ?_⟩
  rintro ⟨l, hrun, hserves⟩
  obtain ⟨res, hget, hres⟩ := hserves 1 1 0 le_rfl
  have hcompute : (StepSystem.run (DeltaLog.append (tableCodec (fun _ => 0) [])) (newDeltaLog 2)
      [longDelete, longDelete]).map (fun l => (l.earliest, l.getEntriesRaw 1 1 0)) =
        some (1, some [(tableCodec (fun _ => 0) []).marshalMsg { longDelete with seq := 2 }]) := by
    decide +kernel
  rw [hrun, Option.map_some, hget] at hcompute
  simp only [Option.some.injEq, Prod.mk.injEq] at hcompute
  obtain ⟨hearliest, rfl⟩ := hcompute
  obtain ⟨e, he, hraw⟩ := hres 0 _ rfl
  rw [hearliest] at he hraw
  obtain rfl := Option.some.inj he
  revert hraw
  decide +kernel

end Capacitor
