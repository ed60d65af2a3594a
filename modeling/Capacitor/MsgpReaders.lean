import Capacitor.StringReader
import Capacitor.Wire

/-!
# Reading messages

The readers of the message library that the generated decoders call. Like the appenders they are
parameters. What the decoders rely on is stated as hypotheses on them: they undo the appenders, up
to a length that the memory holds, and the short forms are those that the generated code writes
itself. A decoder reads a map field by field, so that what it makes of it is determined by the keys
that come and the values that stand with them.
-/

namespace Capacitor

open StringReader

/-- Why a decoder stops: the bytes end too early or are none of the format, or they ask for more
memory than there is, which ends the process. -/
inductive Failure where
  | malformed
  | outOfMemory
  deriving DecidableEq

namespace Msgp

/-- The readers: ten that work on a slice, and those that work on a connection. The header of a map
has at least one byte. -/
structure Readers where
  readMapHeaderBytes : Reader Failure UInt8 ℕ
  readMapKeyZC : Reader Failure UInt8 GoString
  readUint64Bytes : Reader Failure UInt8 ℕ
  readInt64Bytes : Reader Failure UInt8 Int64
  readInt32Bytes : Reader Failure UInt8 Int32
  readByteBytes : Reader Failure UInt8 UInt8
  readFloat64Bytes : Reader Failure UInt8 ℚ
  readStringBytes : Reader Failure UInt8 GoString
  readBytesBytes : Reader Failure UInt8 GoString
  skipBytes : Reader Failure UInt8 Unit
  readMapHeader : Reader Failure UInt8 ℕ
  readMapKeyPtr : Reader Failure UInt8 GoString
  readArrayHeader : Reader Failure UInt8 ℕ
  readUint64 : Reader Failure UInt8 ℕ
  readString : Reader Failure UInt8 GoString
  readBytes : Reader Failure UInt8 GoString
  isNil : Option UInt8 → Bool
  readNil : Reader Failure UInt8 Unit
  skip : Reader Failure UInt8 Unit
  consumes_readMapHeader : Consumes readMapHeader

/-- Short maps and strings begin with the bytes that the generated code writes for them. -/
structure Appenders.Short (a : Appenders) : Prop where
  mapHeader : ∀ n < 16, a.appendMapHeader n = [0x80 + n.toUInt8]
  string : ∀ s : GoString, s.length < 32 → a.appendString s = (0xa0 + s.length.toUInt8) :: s

/-- What is appended is read back from a slice. -/
structure Readers.UndoBytes (r : Readers) (a : Appenders) (maxLen : ℕ) : Prop where
  mapHeader : ∀ n < 2 ^ 32, Reads .malformed r.readMapHeaderBytes (a.appendMapHeader n) n
  mapKey : ∀ s, s.length ≤ maxLen → Reads .malformed r.readMapKeyZC (a.appendString s) s
  uint64 : ∀ u < 2 ^ 64, Reads .malformed r.readUint64Bytes (a.appendUint64 u) u
  int64 : ∀ i, Reads .malformed r.readInt64Bytes (a.appendInt64 i) i
  int32 : ∀ i, Reads .malformed r.readInt32Bytes (a.appendInt32 i) i
  byte : ∀ b, Reads .malformed r.readByteBytes (a.appendByte b) b
  string : ∀ s, s.length ≤ maxLen → Reads .malformed r.readStringBytes (a.appendString s) s
  bytes : ∀ s, s.length ≤ maxLen → Reads .malformed r.readBytesBytes (a.appendBytes s) s
  keys_fit : 32 ≤ maxLen

/-- What is appended is read back from a connection, where a key must not be empty. Only the lead
byte of `nil` is taken for it. -/
structure Readers.UndoStream (r : Readers) (a : Appenders) (maxLen : ℕ) : Prop where
  mapHeader : ∀ n < 2 ^ 32, Reads .malformed r.readMapHeader (a.appendMapHeader n) n
  mapKey : ∀ s, s ≠ [] → s.length ≤ maxLen → Reads .malformed r.readMapKeyPtr (a.appendString s) s
  arrayHeader : ∀ n < 2 ^ 32, Reads .malformed r.readArrayHeader (a.appendArrayHeader n) n
  uint64 : ∀ u < 2 ^ 64, Reads .malformed r.readUint64 (a.appendUint64 u) u
  string : ∀ s, s.length ≤ maxLen → Reads .malformed r.readString (a.appendString s) s
  bytes : ∀ s, s.length ≤ maxLen → Reads .malformed r.readBytes (a.appendBytes s) s
  isNil : ∀ b, r.isNil b = true ↔ b = some 0xc0
  keys_fit : 32 ≤ maxLen

theorem Readers.UndoStream.run_nil {r : Readers} {a : Appenders} {maxLen : ℕ}
    (hr : r.UndoStream a maxLen) (ha : a.Short) :
    r.readMapHeader.run [] = .error .malformed := by
  refine (hr.mapHeader 0 (by norm_num)).cut [] List.nil_prefix ?_
  rw [ha.mapHeader 0 (by norm_num)]
  exact (List.cons_ne_nil _ _).symm

/-- Reads a map of fields into a value: `field` reads the value of a key and stores it. -/
def readMap {σ : Type} (header : Reader Failure UInt8 ℕ) (readKey : Reader Failure UInt8 GoString)
    (field : GoString → σ → Reader Failure UInt8 σ) (z : σ) : Reader Failure UInt8 σ := do
  let n ← header
  loop (fun z => do
    let key ← readKey
    field key z) n z

def encodeFields (a : Appenders) (fields : List (GoString × GoString)) : GoString :=
  a.appendMapHeader fields.length ++ fields.flatMap (fun f => a.appendString f.1 ++ f.2)

section Maps

variable {σ γ : Type} {header : Reader Failure UInt8 ℕ} {readKey : Reader Failure UInt8 GoString}
  {field : GoString → σ → Reader Failure UInt8 σ} {store : GoString → σ → σ}

theorem reads_readMap {a : Appenders} {fields : List (GoString × GoString)}
    (hheader : Reads .malformed header (a.appendMapHeader fields.length) fields.length)
    (hkey : ∀ f ∈ fields, Reads .malformed readKey (a.appendString f.1) f.1)
    (hfield : ∀ f ∈ fields, ∀ z, Reads .malformed (field f.1 z) f.2 (store f.1 z)) (z : σ) :
    Reads .malformed (readMap header readKey field z) (encodeFields a fields)
      (fields.foldl (fun z f => store f.1 z) z) := by
  apply hheader.bind
  have hpieces : ∀ p ∈ fields.map (fun f => (a.appendString f.1 ++ f.2, store f.1)), ∀ z,
      Reads .malformed (readKey >>= fun key => field key z) p.1 (p.2 z) := by
    intro p hp z
    obtain ⟨f, hf, rfl⟩ := List.mem_map.1 hp
    exact (hkey f hf).bind (hfield f hf z)
  have hloop := reads_loop hpieces z
  rw [List.length_map, List.flatMap_map, List.foldl_map] at hloop
  exact hloop

theorem foldl_store {part : σ → γ} {key : GoString} {c : γ}
    (h : ∀ k z, part (store k z) = if k = key then c else part z)
    (fields : List (GoString × GoString)) (z : σ) :
    part (fields.foldl (fun z f => store f.1 z) z) =
      if key ∈ fields.map Prod.fst then c else part z := by
  induction fields generalizing z with
  | nil => rfl
  | cons f fields ih =>
      rw [List.foldl_cons, ih, h, List.map_cons]
      by_cases hf : f.1 = key
      · simp [hf]
      · have hmem : key ∈ f.1 :: fields.map Prod.fst ↔ key ∈ fields.map Prod.fst :=
          List.mem_cons.trans (or_iff_right (Ne.symm hf))
        rw [if_neg hf, if_congr hmem rfl rfl]

/-- What every field leaves true of the value, as long as it stands at the end of the given bytes,
the whole map does. -/
theorem readMap_invariant {all : GoString} {P : σ → Prop}
    (hfield : ∀ key z bs z' rest, bs <:+ all → P z → (field key z).run bs = .ok (z', rest) → P z')
    {z z' : σ} {bs rest : GoString} (hbs : bs <:+ all) (hz : P z)
    (hrun : (readMap header readKey field z).run bs = .ok (z', rest)) : P z' := by
  obtain ⟨n, body, hheader, hloop⟩ := run_bind_eq_ok.1 hrun
  have hbody : P z ∧ body <:+ all := ⟨hz, (header.suffix hheader).trans hbs⟩
  refine (loop_invariant (P := fun z bs => P z ∧ bs <:+ all) ?_ hbody hloop).1
  rintro y bs y' rest ⟨hy, hbs⟩ hstep
  obtain ⟨key, mid, hk, hvalue⟩ := run_bind_eq_ok.1 hstep
  have hmid := (readKey.suffix hk).trans hbs
  exact ⟨hfield key y mid y' rest hmid hy hvalue, ((field key y).suffix hvalue).trans hmid⟩

end Maps

end Msgp

end Capacitor
