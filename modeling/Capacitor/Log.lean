import Capacitor.BlockMemory
import Capacitor.Clock
import Capacitor.Keys

/-!
# The circular delta log

`DeltaLog` keeps two rings: `index`, which holds the place of each of the last `capacity` entries,
and `data`, a byte buffer that entries are marshalled into one behind the other, starting again at
the front when the size estimate of the next one does not fit. Slice expressions that would panic
give `none`. Offsets and lengths are `uint32` and wrap at `2 ^ 32`; sequence numbers are natural
numbers. The encoding of an entry is a parameter, of which only the bound by `msgsize` is assumed.
-/

namespace Capacitor

open BlockMemory

/-- The operation of a log entry. The field is a byte, and a received entry may carry any. -/
inductive MsgType where
  | set | incr | metric | window | delete
  | unknown (code : UInt8)
  deriving DecidableEq, Repr

structure LogEntry where
  seq : ℕ
  ts : Timestamp
  bornAt : Int64
  op : MsgType
  key : GoString
  nodeID : GoString
  value : GoString
  delta : ℚ
  ttl : Int64
  deriving DecidableEq

namespace Msgp

/-! Bounds on encoded sizes, as the message library declares them. -/

def int64Size : ℕ := 9
def uint64Size : ℕ := 9
def int32Size : ℕ := 5
def byteSize : ℕ := 2
def float64Size : ℕ := 9
def stringPrefixSize : ℕ := 5
def bytesPrefixSize : ℕ := 5

end Msgp

open Msgp in
def LogEntry.msgsize (z : LogEntry) : ℕ :=
  1 + 2 + uint64Size + 2 + (1 + 2 + int64Size + 2 + int32Size) + 3 + int64Size + 2 + byteSize +
    2 + stringPrefixSize + z.key.length + 2 + stringPrefixSize + z.nodeID.length +
    2 + bytesPrefixSize + z.value.length + 2 + float64Size + 4 + int64Size

structure Codec where
  marshalMsg : LogEntry → GoString
  unmarshalMsg : GoString → Option LogEntry
  length_le_msgsize : ∀ e, (marshalMsg e).length ≤ e.msgsize

structure EntryInfo where
  offset : ℕ
  length : ℕ
  deriving DecidableEq

structure DeltaLog where
  index : ℕ → EntryInfo
  data : ℕ → UInt8
  head : ℕ
  bufHead : ℕ
  capacity : ℕ
  bufCap : ℕ

def newDeltaLog (capacity : ℕ) : DeltaLog where
  index _ := ⟨0, 0⟩
  data _ := 0
  head := 1
  bufHead := 0
  capacity := capacity
  bufCap := if capacity < 100000 then capacity * 256 % 2 ^ 32 else 256 * 1024 * 1024

theorem newDeltaLog_bufCap_lt (capacity : ℕ) : (newDeltaLog capacity).bufCap < 2 ^ 31 := by
  unfold newDeltaLog
  dsimp only
  split_ifs <;> omega

theorem mod_ne_mod_of_lt {i n c : ℕ} (hin : i < n) (hn : n < i + c) : i % c ≠ n % c := by
  intro h
  have hdvd : c ∣ n - i := (Nat.modEq_iff_dvd' hin.le).1 h
  have hle := Nat.le_of_dvd (by omega) hdvd
  omega

namespace DeltaLog

/-- Where an entry with the given size estimate goes: behind the last one, or at the front. -/
def start (l : DeltaLog) (sz : ℕ) : ℕ :=
  if (l.bufHead + sz % 2 ^ 32) % 2 ^ 32 > l.bufCap then 0 else l.bufHead

/-- The encoder writes in place when its size estimate fits before the end of the buffer, and
otherwise into memory of its own, which is dropped. -/
def append (c : Codec) (l : DeltaLog) (e : LogEntry) : Option DeltaLog :=
  let entry := { e with seq := l.head }
  let start := l.start entry.msgsize
  let out := c.marshalMsg entry
  if start ≤ l.bufCap ∧ 0 < l.capacity then
    some { l with
      index := Function.update l.index (l.head % l.capacity) ⟨start, out.length % 2 ^ 32⟩
      data := if start + entry.msgsize ≤ l.bufCap then put l.data ⟨start, out⟩ else l.data
      bufHead := (start + out.length % 2 ^ 32) % 2 ^ 32
      head := l.head + 1 }
  else none

/-- The oldest sequence number the index ring still retains. -/
def earliest (l : DeltaLog) : ℕ := if l.head > l.capacity then l.head - l.capacity else 1

def info (l : DeltaLog) (seq : ℕ) : EntryInfo := l.index (seq % l.capacity)

/-- The bytes the log serves for a sequence number. -/
def served (l : DeltaLog) (seq : ℕ) : GoString :=
  slice l.data (l.info seq).offset (l.info seq).length

/-- The slice expression for a sequence number does not panic. -/
def InRange (l : DeltaLog) (seq : ℕ) : Prop :=
  (l.info seq).offset ≤ ((l.info seq).offset + (l.info seq).length) % 2 ^ 32 ∧
    ((l.info seq).offset + (l.info seq).length) % 2 ^ 32 ≤ l.bufCap

instance (l : DeltaLog) (seq : ℕ) : Decidable (l.InRange seq) :=
  inferInstanceAs (Decidable (_ ∧ _))

def collect (l : DeltaLog) (maxBytes : ℤ) : ℕ → ℕ → List GoString → ℕ → Option (List GoString)
  | 0, _, res, _ => some res
  | count + 1, seq, res, currentBytes =>
      if res ≠ [] ∧ (currentBytes : ℤ) + (l.info seq).length > maxBytes then some res
      else if l.InRange seq then
        l.collect maxBytes count (seq + 1) (res ++ [l.served seq])
          (currentBytes + (l.info seq).length)
      else none

def getEntriesRaw (l : DeltaLog) (startSeq limit : ℕ) (maxBytes : ℤ) : Option (List GoString) :=
  if startSeq ≥ l.head then some []
  else
    let startSeq := if startSeq < l.earliest then l.earliest else startSeq
    let count := l.head - startSeq
    l.collect maxBytes (if count > limit then limit else count) startSeq [] 0

def place (l : DeltaLog) (sz : ℕ) : ℕ := if l.bufHead + sz > l.bufCap then 0 else l.bufHead

theorem place_add_le {l : DeltaLog} {sz : ℕ} (hfit : sz ≤ l.bufCap) :
    l.place sz + sz ≤ l.bufCap := by
  unfold place
  split_ifs <;> omega

theorem append_of_fits (c : Codec) {l : DeltaLog} {e : LogEntry} (hcap : 0 < l.capacity)
    (hhead : l.bufHead ≤ l.bufCap) (hbuf : l.bufCap < 2 ^ 31) (hfit : e.msgsize ≤ l.bufCap) :
    l.append c e = some { l with
      index := Function.update l.index (l.head % l.capacity)
        ⟨l.place e.msgsize, (c.marshalMsg { e with seq := l.head }).length⟩
      data := put l.data ⟨l.place e.msgsize, c.marshalMsg { e with seq := l.head }⟩
      bufHead := l.place e.msgsize + (c.marshalMsg { e with seq := l.head }).length
      head := l.head + 1 } := by
  have hsz : ({ e with seq := l.head } : LogEntry).msgsize = e.msgsize := rfl
  have hlen := c.length_le_msgsize { e with seq := l.head }
  rw [hsz] at hlen
  have hroom := place_add_le hfit
  have hstart : l.start e.msgsize = l.place e.msgsize := by
    unfold start place
    rw [Nat.mod_eq_of_lt (by omega : e.msgsize < 2 ^ 32), Nat.mod_eq_of_lt (by omega)]
  have hout : (c.marshalMsg { e with seq := l.head }).length % 2 ^ 32 =
      (c.marshalMsg { e with seq := l.head }).length := Nat.mod_eq_of_lt (by omega)
  have hend : (l.place e.msgsize + (c.marshalMsg { e with seq := l.head }).length) % 2 ^ 32 =
      l.place e.msgsize + (c.marshalMsg { e with seq := l.head }).length :=
    Nat.mod_eq_of_lt (by omega)
  simp only [append, hsz, hstart, hout, hend]
  rw [if_pos ⟨by omega, hcap⟩, if_pos hroom]

theorem append_eq_some {c : Codec} {l l' : DeltaLog} {e : LogEntry}
    (h : l.append c e = some l') :
    0 < l.capacity ∧ l.start e.msgsize ≤ l.bufCap ∧
      l'.index = Function.update l.index (l.head % l.capacity)
        ⟨l.start e.msgsize, (c.marshalMsg { e with seq := l.head }).length % 2 ^ 32⟩ ∧
      l'.bufHead =
        (l.start e.msgsize + (c.marshalMsg { e with seq := l.head }).length % 2 ^ 32) % 2 ^ 32 ∧
      l'.head = l.head + 1 ∧ l'.capacity = l.capacity ∧ l'.bufCap = l.bufCap := by
  unfold append at h
  dsimp only at h
  split_ifs at h with hstart hroom
  · obtain rfl := Option.some.inj h
    exact ⟨hstart.2, hstart.1, rfl, rfl, rfl, rfl, rfl⟩
  · obtain rfl := Option.some.inj h
    exact ⟨hstart.2, hstart.1, rfl, rfl, rfl, rfl, rfl⟩

theorem earliest_lt_head {l : DeltaLog} (hcap : 0 < l.capacity) (hhead : 1 < l.head) :
    l.earliest < l.head := by
  unfold earliest
  split_ifs <;> omega

theorem lt_add_of_earliest_le {l : DeltaLog} {q : ℕ} (hq : l.earliest ≤ q) :
    l.head ≤ q + l.capacity := by
  unfold earliest at hq
  split_ifs at hq <;> omega

theorem earliest_newDeltaLog (capacity : ℕ) : (newDeltaLog capacity).earliest = 1 := by
  change (if 1 > capacity then 1 - capacity else 1) = 1
  split_ifs <;> omega

theorem earliest_le_append {c : Codec} {l l' : DeltaLog} {e : LogEntry}
    (h : l.append c e = some l') : l.earliest ≤ l'.earliest := by
  obtain ⟨-, -, -, -, hhead, hcap, -⟩ := append_eq_some h
  unfold earliest
  rw [hhead, hcap]
  split_ifs <;> omega

/-- An append drops the oldest entry when the ring is full, and nothing else. -/
theorem lt_earliest_append {c : Codec} {l l' : DeltaLog} {e : LogEntry}
    (h : l.append c e = some l') {q : ℕ} (hq1 : 1 ≤ q) (hq : q < l'.earliest) :
    q < l.earliest ∨ l.capacity < l.head ∧ q = l.earliest := by
  obtain ⟨-, -, -, -, hhead, hcap, -⟩ := append_eq_some h
  unfold earliest at hq ⊢
  rw [hhead, hcap] at hq
  split_ifs at hq ⊢ <;> omega

theorem collect_eq_some {l : DeltaLog} {maxBytes : ℤ} {count seq cur : ℕ} {res out : List GoString}
    (h : l.collect maxBytes count seq res cur = some out) :
    ∃ n ≤ count, out = res ++ (List.range n).map (fun i => l.served (seq + i)) ∧
      (res = [] → 0 < count → 0 < n) := by
  induction count generalizing seq res cur with
  | zero =>
      simp only [collect, Option.some.injEq] at h
      exact ⟨0, le_rfl, by simp [h], fun _ hc => absurd hc (lt_irrefl 0)⟩
  | succ count ih =>
      simp only [collect] at h
      split_ifs at h with hstop hin
      · exact ⟨0, Nat.zero_le _, by simpa using h.symm, fun hres => absurd hres hstop.1⟩
      · obtain ⟨n, hn, hout, _⟩ := ih h
        refine ⟨n + 1, by omega, ?_, fun _ _ => by omega⟩
        rw [hout, List.append_assoc, List.range_succ_eq_map]
        simp [Function.comp_def, Nat.add_assoc, Nat.add_comm 1]

theorem collect_isSome {l : DeltaLog} (maxBytes : ℤ) {count seq : ℕ} (res : List GoString)
    (cur : ℕ) (hin : ∀ i < count, l.InRange (seq + i)) :
    (l.collect maxBytes count seq res cur).isSome = true := by
  induction count generalizing seq res cur with
  | zero => rfl
  | succ count ih =>
      simp only [collect]
      split_ifs with hstop h
      · rfl
      · apply ih
        intro i hi
        have hrange := hin (i + 1) (by omega)
        rwa [show seq + (i + 1) = seq + 1 + i by omega] at hrange
      · exact absurd (hin 0 (by omega)) h

theorem getEntriesRaw_of_le {l : DeltaLog} {startSeq : ℕ} (h : l.head ≤ startSeq) (limit : ℕ)
    (maxBytes : ℤ) : l.getEntriesRaw startSeq limit maxBytes = some [] := if_pos h

theorem getEntriesRaw_of_lt {l : DeltaLog} {startSeq : ℕ} (h : startSeq < l.head) (limit : ℕ)
    (maxBytes : ℤ) :
    l.getEntriesRaw startSeq limit maxBytes =
      l.collect maxBytes (min (l.head - max startSeq l.earliest) limit)
        (max startSeq l.earliest) [] 0 := by
  have hstart : (if startSeq < l.earliest then l.earliest else startSeq) =
      max startSeq l.earliest := by
    rw [max_def]
    split_ifs <;> omega
  have hcount (n : ℕ) : (if n > limit then limit else n) = min n limit := by
    rw [min_def]
    split_ifs <;> omega
  rw [getEntriesRaw, if_neg (not_le_of_gt h)]
  simp only [hstart, hcount]

/-- What `getEntriesRaw` returns: the entries from the requested one on, or from the earliest
retained one if that is later, and at least one of them if there is any. -/
theorem getEntriesRaw_eq_some {l : DeltaLog} {startSeq limit : ℕ} {maxBytes : ℤ}
    {res : List GoString} (h : l.getEntriesRaw startSeq limit maxBytes = some res) :
    ∃ n ≤ limit, res = (List.range n).map (fun i => l.served (max startSeq l.earliest + i)) ∧
      (0 < n → max startSeq l.earliest + n ≤ l.head) ∧
      (0 < limit → max startSeq l.earliest < l.head → 0 < n) := by
  by_cases hhead : startSeq < l.head
  · rw [getEntriesRaw_of_lt hhead] at h
    obtain ⟨n, hn, hres, hpos⟩ := collect_eq_some h
    rw [List.nil_append] at hres
    refine ⟨n, by omega, hres, fun _ => by omega, ?_⟩
    intro hlimit hlt
    exact hpos rfl (by omega)
  · rw [getEntriesRaw_of_le (by omega)] at h
    refine ⟨0, Nat.zero_le _, by simpa using h.symm, fun h0 => absurd h0 (lt_irrefl 0), ?_⟩
    intro _ hlt
    omega

theorem collect_bytes {l : DeltaLog} {maxBytes : ℤ} {count seq cur : ℕ} {res out : List GoString}
    (h : l.collect maxBytes count seq res cur = some out)
    (hcur : (res.map List.length).sum = cur) (hres : (cur : ℤ) ≤ maxBytes ∨ res.length ≤ 1) :
    ((out.map List.length).sum : ℤ) ≤ maxBytes ∨ out.length ≤ 1 := by
  induction count generalizing seq res cur with
  | zero =>
      obtain rfl := Option.some.inj h
      rwa [hcur]
  | succ count ih =>
      simp only [collect] at h
      split_ifs at h with hstop hin
      · obtain rfl := Option.some.inj h
        rwa [hcur]
      · refine ih h ?_ ?_
        · simp [hcur, served]
        · rw [not_and_or, not_not] at hstop
          rcases hstop with rfl | hroom
          · exact Or.inr (by simp)
          · left
            push_cast
            omega

theorem getEntriesRaw_bytes {l : DeltaLog} {startSeq limit : ℕ} {maxBytes : ℤ}
    {res : List GoString} (h : l.getEntriesRaw startSeq limit maxBytes = some res) :
    ((res.map List.length).sum : ℤ) ≤ maxBytes ∨ res.length ≤ 1 := by
  by_cases hhead : startSeq < l.head
  · rw [getEntriesRaw_of_lt hhead] at h
    exact collect_bytes h rfl (Or.inr (Nat.zero_le 1))
  · rw [getEntriesRaw_of_le (by omega)] at h
    obtain rfl := Option.some.inj h
    exact Or.inr (Nat.zero_le 1)

theorem getEntriesRaw_isSome {l : DeltaLog} (startSeq limit : ℕ) (maxBytes : ℤ)
    (hin : ∀ q, l.earliest ≤ q → q < l.head → l.InRange q) :
    (l.getEntriesRaw startSeq limit maxBytes).isSome = true := by
  by_cases hhead : startSeq < l.head
  · rw [getEntriesRaw_of_lt hhead]
    apply collect_isSome
    intro i hi
    exact hin _ (by omega) (by omega)
  · rw [getEntriesRaw_of_le (by omega)]
    rfl

end DeltaLog
end Capacitor
