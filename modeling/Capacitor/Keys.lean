import Mathlib.Tactic

/-!
# Keys and shards

Go strings are byte strings. A store key is routed by `getShardKey`, which takes the segment
between the first two colons, and the FNV-1a `hash` of that segment. Counters and metrics are kept
under composite keys that join a tag, the user's key and a node identifier with colons; a composite
key determines both parts as soon as node identifiers are free of colons.
-/

namespace Capacitor

abbrev GoString := List UInt8

/-- The bytes of an ASCII literal. -/
def bytes (s : String) : GoString := s.toList.map (fun c => c.toNat.toUInt8)

/-- What `binary.BigEndian` writes for a number. -/
def bigEndian (width n : ℕ) : GoString :=
  (List.range width).map (fun i => (n / 256 ^ (width - 1 - i)).toUInt8)

@[simp] theorem length_bigEndian (width n : ℕ) : (bigEndian width n).length = width := by
  simp [bigEndian]

def colon : UInt8 := 58

def getShardKey (key : GoString) : GoString :=
  match key.idxOf? colon with
  | none => key
  | some first =>
      match (key.drop (first + 1)).idxOf? colon with
      | none => key.drop (first + 1)
      | some second => (key.drop (first + 1)).take second

def hash (s : GoString) : UInt32 :=
  s.foldl (fun h b => (h ^^^ b.toUInt32) * 16777619) 2166136261

def numShards : ℕ := 256

def shardIndex (key : GoString) : Fin numShards :=
  ⟨(hash (getShardKey key)).toNat % numShards, Nat.mod_lt _ (by decide)⟩

def compositeKey (tag key nodeID : GoString) : GoString := tag ++ (key ++ colon :: nodeID)

def counterKey (key nodeID : GoString) : GoString := compositeKey (bytes "c:") key nodeID

def metricCountKey (key nodeID : GoString) : GoString := compositeKey (bytes "mc:") key nodeID

def metricSumKey (key nodeID : GoString) : GoString := compositeKey (bytes "ms:") key nodeID

def peerSeqKey (nodeID : GoString) : GoString := bytes "meta:seq:" ++ nodeID

theorem append_colon_inj {k k' n n' : GoString} (hn : colon ∉ n) (hn' : colon ∉ n')
    (h : k ++ colon :: n = k' ++ colon :: n') : k = k' ∧ n = n' := by
  rcases List.append_eq_append_iff.1 h with ⟨c, hk, hc⟩ | ⟨c, hk, hc⟩
  · cases c with
    | nil => simpa [hk] using hc
    | cons b c =>
        have hmem : colon ∈ n := by
          rw [(List.cons.inj hc).2]
          simp
        exact absurd hmem hn
  · cases c with
    | nil => simpa [hk, eq_comm] using hc
    | cons b c =>
        have hmem : colon ∈ n' := by
          rw [(List.cons.inj hc).2]
          simp
        exact absurd hmem hn'

theorem compositeKey_inj {tag k k' n n' : GoString} (hn : colon ∉ n) (hn' : colon ∉ n')
    (h : compositeKey tag k n = compositeKey tag k' n') : k = k' ∧ n = n' :=
  append_colon_inj hn hn' (List.append_cancel_left h)

/-- For one node, the composite key determines the user's key whatever bytes the node's identifier
contains. -/
theorem compositeKey_key_inj {tag k k' n : GoString}
    (h : compositeKey tag k n = compositeKey tag k' n) : k = k' :=
  List.append_cancel_right (List.append_cancel_left h)

theorem idxOf?_append_colon {a : GoString} (ha : colon ∉ a) (b : GoString) :
    (a ++ colon :: b).idxOf? colon = some a.length := by
  induction a with
  | nil => simp [List.idxOf?_cons]
  | cons x a ih =>
      have hx : x ≠ colon := fun hx => ha (by simp [hx])
      have ha' : colon ∉ a := fun h => ha (List.mem_cons_of_mem _ h)
      simp [List.idxOf?_cons, hx, ih ha']

theorem getShardKey_of_not_mem {key : GoString} (h : colon ∉ key) : getShardKey key = key := by
  have hnone : key.idxOf? colon = none := by simpa using h
  unfold getShardKey
  rw [hnone]

theorem getShardKey_append_colon {a b : GoString} (ha : colon ∉ a) (hb : colon ∉ b)
    (rest : GoString) : getShardKey (a ++ colon :: (b ++ colon :: rest)) = b := by
  have hdrop : (a ++ colon :: (b ++ colon :: rest)).drop (a.length + 1) = b ++ colon :: rest := by
    simp [List.drop_append]
  unfold getShardKey
  simp only [idxOf?_append_colon ha, hdrop, idxOf?_append_colon hb, List.take_left]

/-- A composite key is routed like the user's key it is made of, if that has no colon. -/
theorem shardIndex_append_colon {a key : GoString} (ha : colon ∉ a) (hkey : colon ∉ key)
    (rest : GoString) : shardIndex (a ++ colon :: (key ++ colon :: rest)) = shardIndex key := by
  unfold shardIndex
  simp only [getShardKey_append_colon ha hkey, getShardKey_of_not_mem hkey]

theorem metricSumKey_ne_counterKey (k n k' n' : GoString) :
    metricSumKey k n ≠ counterKey k' n' := by
  intro h
  have hb : bytes "ms:" = 109 :: [115, 58] ∧ bytes "c:" = 99 :: [58] := by decide
  simp only [metricSumKey, counterKey, compositeKey, hb, List.cons_append] at h
  exact absurd (List.cons.inj h).1 (by decide)

theorem metricCountKey_ne_metricSumKey (k n k' n' : GoString) :
    metricCountKey k n ≠ metricSumKey k' n' := by
  intro h
  have hb : bytes "mc:" = 109 :: 99 :: [58] ∧ bytes "ms:" = 109 :: 115 :: [58] := by decide
  simp only [metricCountKey, metricSumKey, compositeKey, hb, List.cons_append] at h
  exact absurd (List.cons.inj (List.cons.inj h).2).1 (by decide)

end Capacitor
