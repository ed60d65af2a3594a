import Capacitor.StepSystem
import Capacitor.Wire

/-!
# The byte ranges of the delta log

An append starts again at the front of the buffer when the size estimate of its entry does not fit
behind the last one. It does not ask whether the entry fits at all: an encoding that is longer than
the buffer is written elsewhere, its range is entered into the index all the same, and the next
reader of that slot takes a slice out of range. The ranges are within the buffer, and no slice
expression panics, exactly as long as every encoding ends within the buffer.
-/

namespace Capacitor

namespace DeltaLog

variable {c : Codec} {l l' : DeltaLog} {e : LogEntry}

theorem append_isSome (c : Codec) (hcap : 0 < l.capacity) (hhead : l.bufHead ≤ l.bufCap)
    (e : LogEntry) : (l.append c e).isSome = true := by
  have hstart : l.start e.msgsize ≤ l.bufCap := by
    unfold start
    split_ifs <;> omega
  have hboth : l.start ({ e with seq := l.head } : LogEntry).msgsize ≤ l.bufCap ∧
      0 < l.capacity := ⟨hstart, hcap⟩
  unfold append
  dsimp only
  rw [if_pos hboth]
  rfl

/-- The encoding of an entry ends within the buffer: behind the last entry, or at the front when the
size estimate, which is a `uint32`, does not fit there. -/
def Fits (c : Codec) (l : DeltaLog) (e : LogEntry) : Prop :=
  if (l.bufHead + e.msgsize % 2 ^ 32) % 2 ^ 32 > l.bufCap then
    (c.marshalMsg { e with seq := l.head }).length % 2 ^ 32 ≤ l.bufCap
  else l.bufHead + (c.marshalMsg { e with seq := l.head }).length % 2 ^ 32 ≤ l.bufCap

instance (c : Codec) (l : DeltaLog) (e : LogEntry) : Decidable (l.Fits c e) :=
  inferInstanceAs (Decidable (ite _ _ _))

theorem fits_iff : l.Fits c e ↔
    l.start e.msgsize + (c.marshalMsg { e with seq := l.head }).length % 2 ^ 32 ≤ l.bufCap := by
  unfold Fits start
  split_ifs <;> simp

/-- For an entry of less than 2 GiB the condition is read off its encoding. -/
theorem fits_iff_length_le (hbuf : l.bufCap < 2 ^ 31) (hsz : e.msgsize < 2 ^ 31)
    (hstart : l.start e.msgsize ≤ l.bufCap) :
    l.Fits c e ↔ (c.marshalMsg { e with seq := l.head }).length ≤ l.bufCap := by
  have hlen : (c.marshalMsg { e with seq := l.head }).length ≤ e.msgsize :=
    c.length_le_msgsize { e with seq := l.head }
  rw [fits_iff, Nat.mod_eq_of_lt (by omega)]
  unfold start at hstart ⊢
  split_ifs at hstart ⊢ with hwrap
  · rw [Nat.zero_add]
  · rw [Nat.mod_eq_of_lt (by omega : e.msgsize < 2 ^ 32), Nat.mod_eq_of_lt (by omega)] at hwrap
    omega

/-- The range of every retained entry is within the buffer, and so is the place of the next. -/
structure Inside (l : DeltaLog) : Prop where
  index : ∀ q, l.earliest ≤ q → q < l.head → (l.info q).offset + (l.info q).length ≤ l.bufCap
  bufHead : l.bufHead ≤ l.bufCap

theorem info_append_head (happend : l.append c e = some l') :
    l'.info l.head =
      ⟨l.start e.msgsize, (c.marshalMsg { e with seq := l.head }).length % 2 ^ 32⟩ := by
  obtain ⟨-, -, hindex, -, -, hcapacity, -⟩ := append_eq_some happend
  unfold info
  rw [hindex, hcapacity, Function.update_self]

theorem earliest_append_le_head (hpos : 1 ≤ l.head) (happend : l.append c e = some l') :
    l'.earliest ≤ l.head := by
  obtain ⟨hcap, -, -, -, hhead, hcapacity, -⟩ := append_eq_some happend
  have hlt := earliest_lt_head (l := l') (by omega) (by omega)
  omega

theorem inside_append_iff (h : l.Inside) (hpos : 1 ≤ l.head) (hbuf : l.bufCap < 2 ^ 31)
    (happend : l.append c e = some l') : l.Fits c e ↔ l'.Inside := by
  obtain ⟨hcap, hstart, hindex, hbufHead, hhead, hcapacity, hbufCap⟩ := append_eq_some happend
  have hnew := info_append_head happend
  rw [fits_iff]
  constructor
  · intro hfits
    refine ⟨fun q hq hlt => ?_, ?_⟩
    · rcases Nat.lt_or_ge q l.head with hold | hge
      · have hret := lt_add_of_earliest_le hq
        have hne : q % l.capacity ≠ l.head % l.capacity := mod_ne_mod_of_lt hold (by omega)
        have hinfo : l'.info q = l.info q := by
          unfold info
          rw [hindex, hcapacity, Function.update_of_ne hne]
        rw [hinfo, hbufCap]
        exact h.index q ((earliest_le_append happend).trans hq) hold
      · have hq' : q = l.head := by omega
        rw [hq', hnew, hbufCap]
        exact hfits
    · rw [hbufHead, hbufCap, Nat.mod_eq_of_lt (by omega)]
      exact hfits
  · intro hinside
    have hrange := hinside.index l.head (earliest_append_le_head hpos happend) (by omega)
    rwa [hnew, hbufCap] at hrange

theorem inRange_of_le {q : ℕ} (hbuf : l.bufCap < 2 ^ 31)
    (h : (l.info q).offset + (l.info q).length ≤ l.bufCap) : l.InRange q := by
  unfold InRange
  rw [Nat.mod_eq_of_lt (by omega)]
  exact ⟨Nat.le_add_right _ _, h⟩

theorem not_inRange_append (hbuf : l.bufCap < 2 ^ 31) (happend : l.append c e = some l')
    (hfits : ¬ l.Fits c e) : ¬ l'.InRange l.head := by
  obtain ⟨-, hstart, -, -, -, -, hbufCap⟩ := append_eq_some happend
  rw [fits_iff] at hfits
  unfold InRange
  rw [info_append_head happend, hbufCap]
  dsimp only
  omega

/-- The entry ends within the buffer, and its bytes stand there already. -/
def HasBytes (c : Codec) (l : DeltaLog) (e : LogEntry) : Prop :=
  l.Fits c e ∧ BlockMemory.slice l.data (l.start e.msgsize)
    ((c.marshalMsg { e with seq := l.head }).length % 2 ^ 32) =
      c.marshalMsg { e with seq := l.head }

theorem data_append (happend : l.append c e = some l') :
    l'.data = if l.start e.msgsize + e.msgsize ≤ l.bufCap then
        BlockMemory.put l.data ⟨l.start e.msgsize, c.marshalMsg { e with seq := l.head }⟩
      else l.data := by
  unfold append at happend
  dsimp only at happend
  split_ifs at happend with hstart hroom
  · obtain rfl := Option.some.inj happend
    exact (if_pos hroom).symm
  · obtain rfl := Option.some.inj happend
    exact (if_neg hroom).symm

theorem start_add_le_iff (hbuf : l.bufCap < 2 ^ 31) (hstart : l.start e.msgsize ≤ l.bufCap) :
    l.start e.msgsize + e.msgsize ≤ l.bufCap ↔ e.msgsize ≤ l.bufCap := by
  unfold start at hstart ⊢
  split_ifs at hstart ⊢ with hwrap
  · rw [Nat.zero_add]
  · refine ⟨fun h => by omega, fun h => ?_⟩
    rw [Nat.mod_eq_of_lt (by omega : e.msgsize < 2 ^ 32), Nat.mod_eq_of_lt (by omega)] at hwrap
    omega

theorem getEntriesRaw_append_head (hpos : 1 ≤ l.head) (happend : l.append c e = some l')
    (maxBytes : ℤ) : l'.getEntriesRaw l.head 1 maxBytes =
      if l'.InRange l.head then some [l'.served l.head] else none := by
  obtain ⟨-, -, -, -, hhead, -, -⟩ := append_eq_some happend
  rw [getEntriesRaw_of_lt (by omega), max_eq_left (earliest_append_le_head hpos happend), hhead,
    Nat.add_sub_cancel_left, min_self, collect, if_neg (by simp)]
  rfl

/-- A reader is served the entry that was appended last exactly if the buffer has room for its size
estimate, or happens to hold its bytes. -/
theorem served_append_iff (hpos : 1 ≤ l.head) (hbuf : l.bufCap < 2 ^ 31)
    (happend : l.append c e = some l') (maxBytes : ℤ) :
    l'.getEntriesRaw l.head 1 maxBytes = some [c.marshalMsg { e with seq := l.head }] ↔
      e.msgsize ≤ l.bufCap ∨ l.HasBytes c e := by
  obtain ⟨-, hstart, -, -, -, -, hbufCap⟩ := append_eq_some happend
  have hinfo := info_append_head happend
  have hlen : (c.marshalMsg { e with seq := l.head }).length ≤ e.msgsize :=
    c.length_le_msgsize { e with seq := l.head }
  have hrange : l'.InRange l.head ↔ l.Fits c e := by
    refine ⟨fun h => by_contra fun hfits => not_inRange_append hbuf happend hfits h, fun h => ?_⟩
    refine inRange_of_le (hbufCap ▸ hbuf) ?_
    rw [hinfo, hbufCap]
    exact fits_iff.1 h
  rw [getEntriesRaw_append_head hpos happend, ← start_add_le_iff hbuf hstart]
  unfold served
  rw [hinfo, data_append happend]
  by_cases hroom : l.start e.msgsize + e.msgsize ≤ l.bufCap
  · have hfits : l.Fits c e :=
      (fits_iff_length_le hbuf (by omega) hstart).2 (by omega)
    have hslice := (BlockMemory.slice_eq_cells_iff _ _).2 (BlockMemory.holds_put l.data
      ⟨l.start e.msgsize, c.marshalMsg { e with seq := l.head }⟩)
    rw [if_pos (hrange.2 hfits), if_pos hroom, Nat.mod_eq_of_lt (by omega), hslice]
    exact ⟨fun _ => Or.inl hroom, fun _ => rfl⟩
  · rw [if_neg hroom]
    refine ⟨fun h => Or.inr ?_, ?_⟩
    · split_ifs at h with hin
      exact ⟨hrange.1 hin, List.singleton_inj.1 (Option.some.inj h)⟩
    · rintro (hroom' | ⟨hfits, hbytes⟩)
      · exact absurd hroom' hroom
      · rw [if_pos (hrange.2 hfits), hbytes]

theorem getEntriesRaw_eq_none {q limit : ℕ} (maxBytes : ℤ) (hlimit : 1 ≤ limit)
    (hq : l.earliest ≤ q) (hhead : q < l.head) (h : ¬ l.InRange q) :
    l.getEntriesRaw q limit maxBytes = none := by
  obtain ⟨count, hcount⟩ : ∃ count, min (l.head - q) limit = count + 1 :=
    Nat.exists_eq_succ_of_ne_zero (by omega)
  rw [getEntriesRaw_of_lt hhead, max_eq_left hq, hcount, collect, if_neg (by simp), if_neg h]

theorem Inside.getEntriesRaw_isSome (h : l.Inside) (hbuf : l.bufCap < 2 ^ 31)
    (startSeq limit : ℕ) (maxBytes : ℤ) :
    (l.getEntriesRaw startSeq limit maxBytes).isSome = true :=
  DeltaLog.getEntriesRaw_isSome startSeq limit maxBytes
    (fun q hq hlt => inRange_of_le hbuf (h.index q hq hlt))

/-- What every log has in common with a new one. -/
structure Sized (capacity : ℕ) (l : DeltaLog) : Prop where
  capacity_eq : l.capacity = capacity
  head_pos : 1 ≤ l.head
  bufCap_eq : l.bufCap = (newDeltaLog capacity).bufCap

theorem Sized.bufCap_lt {capacity : ℕ} (h : l.Sized capacity) : l.bufCap < 2 ^ 31 := by
  rw [h.bufCap_eq]
  exact newDeltaLog_bufCap_lt capacity

theorem sized_newDeltaLog (capacity : ℕ) : (newDeltaLog capacity).Sized capacity :=
  ⟨rfl, le_rfl, rfl⟩

theorem Sized.append {capacity : ℕ} (h : l.Sized capacity) (happend : l.append c e = some l') :
    l'.Sized capacity := by
  obtain ⟨-, -, -, -, hhead, hcapacity, hbufCap⟩ := append_eq_some happend
  exact ⟨hcapacity.trans h.capacity_eq, by omega, hbufCap.trans h.bufCap_eq⟩

theorem inside_newDeltaLog (capacity : ℕ) : (newDeltaLog capacity).Inside where
  index q hq hlt := by
    unfold earliest at hq
    have hlt' : q < 1 := hlt
    split_ifs at hq with hcap
    · exact Nat.zero_le _
    · omega
  bufHead := Nat.zero_le _

theorem along_fits_iff (c : Codec) {capacity : ℕ} (hcap : 1 ≤ capacity) (es : List LogEntry) :
    StepSystem.Along (append c) (Fits c) (newDeltaLog capacity) es ↔
      ∀ ds l, ds <+: es → StepSystem.run (append c) (newDeltaLog capacity) ds = some l →
        l.Inside ∧ l.Sized capacity := by
  refine StepSystem.along_iff_forall_run ?_ ?_
    ⟨inside_newDeltaLog capacity, sized_newDeltaLog capacity⟩ es
  · rintro l e ⟨hinside, hsized⟩ hnone
    have hsome := append_isSome c (by rw [hsized.capacity_eq]; omega) hinside.bufHead e
    rw [hnone] at hsome
    cases hsome
  · rintro l e l' ⟨hinside, hsized⟩ happend
    rw [inside_append_iff hinside hsized.head_pos hsized.bufCap_lt happend]
    exact ⟨fun h => ⟨h, hsized.append happend⟩, fun h => h.1⟩

/-- All ranges are within the buffer, and no slice expression panics, exactly as long as every entry
fits. -/
theorem slices_in_range_iff (c : Codec) {capacity : ℕ} (hcap : 1 ≤ capacity)
    (es : List LogEntry) :
    StepSystem.Along (append c) (Fits c) (newDeltaLog capacity) es ↔
      ∀ ds l, ds <+: es → StepSystem.run (append c) (newDeltaLog capacity) ds = some l →
        l.Inside ∧ (∀ e, (l.append c e).isSome = true) ∧
          ∀ startSeq limit maxBytes, (l.getEntriesRaw startSeq limit maxBytes).isSome = true := by
  have hsized {ds : List LogEntry} {l : DeltaLog}
      (hrun : StepSystem.run (append c) (newDeltaLog capacity) ds = some l) : l.Sized capacity :=
    StepSystem.run_invariant (fun _ _ _ h happend => h.append happend)
      (sized_newDeltaLog capacity) hrun
  rw [along_fits_iff c hcap]
  constructor
  · intro h ds l hds hrun
    obtain ⟨hinside, hl⟩ := h ds l hds hrun
    refine ⟨hinside, fun e => ?_, fun startSeq limit maxBytes => ?_⟩
    · exact append_isSome c (by rw [hl.capacity_eq]; omega) hinside.bufHead e
    · exact hinside.getEntriesRaw_isSome hl.bufCap_lt startSeq limit maxBytes
  · intro h ds l hds hrun
    exact ⟨(h ds l hds hrun).1, hsized hrun⟩

def deleteOf (n : ℕ) : LogEntry where
  seq := 0
  ts := ⟨1, 0⟩
  bornAt := 1
  op := .delete
  key := List.replicate n 107
  nodeID := []
  value := []
  delta := 0
  ttl := 0

theorem slices_in_range_iff_deleteOf :
    ∃ l, StepSystem.run (append (tableCodec (fun _ => 0) [])) (newDeltaLog 1)
        [deleteOf 1, deleteOf 100, deleteOf 200] = some l ∧ l.Inside := by
  have hsome : (StepSystem.run (append (tableCodec (fun _ => 0) [])) (newDeltaLog 1)
      [deleteOf 1, deleteOf 100, deleteOf 200]).isSome = true := by decide +kernel
  refine ⟨_, (Option.some_get hsome).symm, ?_⟩
  exact ((slices_in_range_iff (tableCodec (fun _ => 0) []) le_rfl
    [deleteOf 1, deleteOf 100, deleteOf 200]).1 (by decide +kernel) _ _ List.prefix_rfl
    (Option.some_get hsome).symm).1

theorem oversized_isSome :
    (StepSystem.run (append (tableCodec (fun _ => 0) [])) (newDeltaLog 1)
      [deleteOf 300]).isSome = true := by
  decide +kernel

/-- In a log of one entry, whose buffer has 256 bytes, the deletion of a key of 300 bytes is entered
with a range that ends outside, and a reader stops the program. -/
theorem oversized_entry_panics :
    ∃ l, StepSystem.run (append (tableCodec (fun _ => 0) [])) (newDeltaLog 1) [deleteOf 300] =
        some l ∧
      l.bufCap = 256 ∧ l.info 1 = ⟨0, 325⟩ ∧ l.bufHead = 325 ∧
      l.getEntriesRaw 1 1000 (8 * 1024 * 1024) = none := by
  refine ⟨_, (Option.some_get oversized_isSome).symm, ?_⟩
  decide +kernel

end DeltaLog

end Capacitor
