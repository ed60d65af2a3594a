import Capacitor.MessagePack
import Capacitor.Node

/-!
# Decoding log entries

The generated decoders of `hlc_gen.go`, `types_gen.go` and `log_gen.go`. A map may hold its fields
in any order; a field that is left out keeps what the receiver had before, and the value of an
unknown field is skipped. What the decoder makes of a map is therefore determined by the last value
that each known key has in it, which is how an entry survives being written by another version of
the program.
-/

namespace Capacitor

open StringReader Msgp

section Decoders

variable (r : Readers)

namespace Timestamp

def field (key : GoString) (z : Timestamp) : Reader Failure UInt8 Timestamp :=
  if key = bytes "p" then (fun i => { z with physical := i }) <$> r.readInt64Bytes
  else if key = bytes "l" then (fun i => { z with logical := i }) <$> r.readInt32Bytes
  else (fun _ => z) <$> r.skipBytes

def unmarshalMsg (z : Timestamp) : Reader Failure UInt8 Timestamp :=
  readMap r.readMapHeaderBytes r.readMapKeyZC (field r) z

end Timestamp

namespace MsgType

def ofCode (code : UInt8) : MsgType :=
  if code = 0 then set
  else if code = 1 then incr
  else if code = 2 then metric
  else if code = 3 then window
  else if code = 4 then delete
  else unknown code

def unmarshalMsg : Reader Failure UInt8 MsgType := ofCode <$> r.readByteBytes

end MsgType

namespace LogEntry

def zero : LogEntry := ⟨0, ⟨0, 0⟩, 0, .set, [], [], [], 0, 0⟩

def field (key : GoString) (z : LogEntry) : Reader Failure UInt8 LogEntry :=
  if key = bytes "s" then (fun u => { z with seq := u }) <$> r.readUint64Bytes
  else if key = bytes "t" then (fun t => { z with ts := t }) <$> z.ts.unmarshalMsg r
  else if key = bytes "ba" then (fun i => { z with bornAt := i }) <$> r.readInt64Bytes
  else if key = bytes "o" then (fun t => { z with op := t }) <$> MsgType.unmarshalMsg r
  else if key = bytes "k" then (fun s => { z with key := s }) <$> r.readStringBytes
  else if key = bytes "n" then (fun s => { z with nodeID := s }) <$> r.readStringBytes
  else if key = bytes "v" then (fun s => { z with value := s }) <$> r.readBytesBytes
  else if key = bytes "d" then (fun f => { z with delta := f }) <$> r.readFloat64Bytes
  else if key = bytes "ttl" then (fun i => { z with ttl := i }) <$> r.readInt64Bytes
  else (fun _ => z) <$> r.skipBytes

def unmarshalMsg (z : LogEntry) : Reader Failure UInt8 LogEntry :=
  readMap r.readMapHeaderBytes r.readMapKeyZC (field r) z

end LogEntry

end Decoders

variable {r : Readers} {a : Appenders} {maxLen : ℕ}

namespace Timestamp

def fieldList (a : Appenders) (t : Timestamp) : List (GoString × GoString) :=
  [(bytes "p", a.appendInt64 t.physical), (bytes "l", a.appendInt32 t.logical)]

theorem marshalMsg_eq (ha : a.Short) (t : Timestamp) :
    t.marshalMsg a = encodeFields a (t.fieldList a) := by
  have hlead : a.appendMapHeader 2 = [0x82] := ha.mapHeader 2 (by norm_num)
  have hp : a.appendString (bytes "p") = [0xa1, 0x70] := ha.string _ (by decide)
  have hl : a.appendString (bytes "l") = [0xa1, 0x6c] := ha.string _ (by decide)
  simp [marshalMsg, encodeFields, fieldList, hlead, hp, hl]

def copyField (t : Timestamp) (key : GoString) (z : Timestamp) : Timestamp where
  physical := if key = bytes "p" then t.physical else z.physical
  logical := if key = bytes "l" then t.logical else z.logical

theorem reads_field (hr : r.UndoBytes a maxLen) {t : Timestamp} {f : GoString × GoString}
    (hf : f ∈ t.fieldList a) (z : Timestamp) :
    Reads .malformed (field r f.1 z) f.2 (t.copyField f.1 z) := by
  rcases List.mem_pair.1 hf with rfl | rfl
  · exact (hr.int64 t.physical).map (fun i => { z with physical := i })
  · exact (hr.int32 t.logical).map (fun i => { z with logical := i })

theorem reads_unmarshalMsg (ha : a.Short) (hr : r.UndoBytes a maxLen) (z t : Timestamp) :
    Reads .malformed (z.unmarshalMsg r) (t.marshalMsg a) t := by
  have hkey : ∀ f ∈ t.fieldList a, Reads .malformed r.readMapKeyZC (a.appendString f.1) f.1 := by
    have hfit := hr.keys_fit
    have hshort : ∀ f ∈ t.fieldList a, f.1.length ≤ 32 := by simp [fieldList, bytes]
    exact fun f hf => hr.mapKey f.1 ((hshort f hf).trans hfit)
  have hread := reads_readMap (hr.mapHeader 2 (by norm_num)) hkey
    (fun f hf z => reads_field hr hf z) z
  rw [← marshalMsg_eq ha] at hread
  exact hread

end Timestamp

namespace LogEntry

/-- The entry has an encoding of its own: lengths and numbers fit their forms, the type has no other
name, and its number is a `float64`, which the library reads back. -/
structure Representable (r : Readers) (a : Appenders) (maxLen : ℕ) (e : LogEntry) : Prop where
  seq : e.seq < 2 ^ 64
  op : MsgType.ofCode e.op.code = e.op
  key : e.key.length ≤ maxLen
  nodeID : e.nodeID.length ≤ maxLen
  value : e.value.length ≤ maxLen
  delta : Reads .malformed r.readFloat64Bytes (a.appendFloat64 e.delta) e.delta

/-- The fields of an entry with their encodings, and whether each may be left out. -/
def fieldList (a : Appenders) (emptyIsNil : Bool) (e : LogEntry) :
    List ((GoString × GoString) × Bool) :=
  [((bytes "s", a.appendUint64 e.seq), false), ((bytes "t", e.ts.marshalMsg a), false),
    ((bytes "ba", a.appendInt64 e.bornAt), false), ((bytes "o", e.op.marshalMsg a), false),
    ((bytes "k", a.appendString e.key), false),
    ((bytes "n", a.appendString e.nodeID), e.nodeID == []),
    ((bytes "v", a.appendBytes e.value), e.valueIsNil emptyIsNil),
    ((bytes "d", a.appendFloat64 e.delta), e.delta == 0),
    ((bytes "ttl", a.appendInt64 e.ttl), e.ttl == 0)]

def written (a : Appenders) (emptyIsNil : Bool) (e : LogEntry) : List (GoString × GoString) :=
  ((e.fieldList a emptyIsNil).filter (fun f => !f.2)).map Prod.fst

theorem length_written_le (a : Appenders) (emptyIsNil : Bool) (e : LogEntry) :
    (e.written a emptyIsNil).length ≤ 9 := by
  have hle := List.length_filter_le (fun f => !f.2) (e.fieldList a emptyIsNil)
  rw [written, List.length_map]
  exact hle

theorem length_written (a : Appenders) (emptyIsNil : Bool) (e : LogEntry) :
    (e.written a emptyIsNil).length = e.fields emptyIsNil := by
  unfold written fieldList fields
  cases e.nodeID == [] <;> cases e.valueIsNil emptyIsNil <;> cases e.delta == 0 <;>
    cases e.ttl == 0 <;> rfl

variable {emptyIsNil : Bool}

theorem marshalMsg_eq (ha : a.Short) (e : LogEntry) :
    e.marshalMsg a emptyIsNil = encodeFields a (e.written a emptyIsNil) := by
  have hlead := ha.mapHeader _ ((length_written_le a emptyIsNil e).trans_lt (by norm_num))
  rw [length_written] at hlead
  have hs : a.appendString (bytes "s") = [0xa1, 0x73] := ha.string _ (by decide)
  have ht : a.appendString (bytes "t") = [0xa1, 0x74] := ha.string _ (by decide)
  have hba : a.appendString (bytes "ba") = [0xa2, 0x62, 0x61] := ha.string _ (by decide)
  have ho : a.appendString (bytes "o") = [0xa1, 0x6f] := ha.string _ (by decide)
  have hk : a.appendString (bytes "k") = [0xa1, 0x6b] := ha.string _ (by decide)
  have hn : a.appendString (bytes "n") = [0xa1, 0x6e] := ha.string _ (by decide)
  have hv : a.appendString (bytes "v") = [0xa1, 0x76] := ha.string _ (by decide)
  have hd : a.appendString (bytes "d") = [0xa1, 0x64] := ha.string _ (by decide)
  have httl : a.appendString (bytes "ttl") = [0xa3, 0x74, 0x74, 0x6c] := ha.string _ (by decide)
  unfold encodeFields
  rw [length_written, hlead]
  unfold marshalMsg written fieldList
  cases e.nodeID == [] <;> cases e.valueIsNil emptyIsNil <;> cases e.delta == 0 <;>
    cases e.ttl == 0 <;>
    simp [omitempty, hs, ht, hba, ho, hk, hn, hv, hd, httl]

def copyField (e : LogEntry) (key : GoString) (z : LogEntry) : LogEntry where
  seq := if key = bytes "s" then e.seq else z.seq
  ts := if key = bytes "t" then e.ts else z.ts
  bornAt := if key = bytes "ba" then e.bornAt else z.bornAt
  op := if key = bytes "o" then e.op else z.op
  key := if key = bytes "k" then e.key else z.key
  nodeID := if key = bytes "n" then e.nodeID else z.nodeID
  value := if key = bytes "v" then e.value else z.value
  delta := if key = bytes "d" then e.delta else z.delta
  ttl := if key = bytes "ttl" then e.ttl else z.ttl

def knownKeys : List GoString :=
  ["s", "t", "ba", "o", "k", "n", "v", "d", "ttl"].map bytes

theorem reads_field_own (ha : a.Short) (hr : r.UndoBytes a maxLen) {e : LogEntry}
    (he : e.Representable r a maxLen) {f : (GoString × GoString) × Bool}
    (hf : f ∈ e.fieldList a emptyIsNil) (z : LogEntry) :
    Reads .malformed (field r f.1.1 z) f.1.2 (e.copyField f.1.1 z) := by
  simp only [fieldList, List.mem_cons, List.not_mem_nil, or_false] at hf
  rcases hf with rfl | rfl | rfl | rfl | rfl | rfl | rfl | rfl | rfl
  · exact (hr.uint64 e.seq he.seq).map (fun u => { z with seq := u })
  · exact (Timestamp.reads_unmarshalMsg ha hr z.ts e.ts).map (fun t => { z with ts := t })
  · exact (hr.int64 e.bornAt).map (fun i => { z with bornAt := i })
  · have hread := ((hr.byte e.op.code).map MsgType.ofCode).map (fun t => { z with op := t })
    rwa [he.op] at hread
  · exact (hr.string e.key he.key).map (fun s => { z with key := s })
  · exact (hr.string e.nodeID he.nodeID).map (fun s => { z with nodeID := s })
  · exact (hr.bytes e.value he.value).map (fun s => { z with value := s })
  · exact he.delta.map (fun f => { z with delta := f })
  · exact (hr.int64 e.ttl).map (fun i => { z with ttl := i })

/-- A field of another version: its key is unknown, and the library passes over its value. -/
structure Foreign (r : Readers) (maxLen : ℕ) (f : GoString × GoString) : Prop where
  key : f.1 ∉ knownKeys
  length : f.1.length ≤ maxLen
  skip : Reads .malformed r.skipBytes f.2 ()

theorem reads_field_foreign (e : LogEntry) {f : GoString × GoString} (hf : Foreign r maxLen f)
    (z : LogEntry) : Reads .malformed (field r f.1 z) f.2 (e.copyField f.1 z) := by
  have hkey := hf.key
  simp only [knownKeys, List.map_cons, List.map_nil, List.mem_cons, List.not_mem_nil, or_false,
    not_or] at hkey
  obtain ⟨hs, ht, hba, ho, hk, hn, hv, hd, httl⟩ := hkey
  have hfield : field r f.1 z = (fun _ => z) <$> r.skipBytes := by
    simp only [field, hs, ht, hba, ho, hk, hn, hv, hd, httl, if_false]
  have hcopy : e.copyField f.1 z = z := by
    simp only [copyField, hs, ht, hba, ho, hk, hn, hv, hd, httl, if_false]
  rw [hfield, hcopy]
  exact hf.skip.map (fun _ => z)

theorem eq_of_parts {z e : LogEntry} (hseq : z.seq = e.seq) (hts : z.ts = e.ts)
    (hbornAt : z.bornAt = e.bornAt) (hop : z.op = e.op) (hkey : z.key = e.key)
    (hnodeID : z.nodeID = e.nodeID) (hvalue : z.value = e.value) (hdelta : z.delta = e.delta)
    (httl : z.ttl = e.ttl) : z = e := by
  cases z
  cases e
  simp_all

/-- A part that the encoder leaves out is zero in the receiver. -/
theorem written_or_zero (e : LogEntry) {fields : List (GoString × GoString)}
    (hall : e.written a emptyIsNil ⊆ fields) {key : GoString} {omitted : Bool} {p : Prop}
    (hkey : (key, omitted) ∈ (e.fieldList a emptyIsNil).map (fun f => (f.1.1, f.2)))
    (hzero : omitted = true → p) : key ∈ fields.map Prod.fst ∨ p := by
  obtain ⟨f, hf, heq⟩ := List.mem_map.1 hkey
  obtain ⟨rfl, rfl⟩ := Prod.mk.inj heq
  cases hf2 : f.2 with
  | false =>
      have hwritten : f.1 ∈ e.written a emptyIsNil :=
        List.mem_map_of_mem (List.mem_filter.2 ⟨hf, by rw [hf2]; rfl⟩)
      exact Or.inl (List.mem_map_of_mem (hall hwritten))
  | true => exact Or.inr (hzero hf2)

theorem eq_nil_of_valueIsNil {e : LogEntry} (h : e.valueIsNil emptyIsNil = true) :
    e.value = [] :=
  beq_iff_eq.1 (Bool.and_eq_true _ _ ▸ h).2

theorem foldl_copyField {e : LogEntry} {fields : List (GoString × GoString)}
    (hall : e.written a emptyIsNil ⊆ fields) :
    fields.foldl (fun z f => e.copyField f.1 z) zero = e := by
  have hpart {γ : Type} {part : LogEntry → γ} {key : GoString} {omitted : Bool}
      (h : ∀ k z, part (e.copyField k z) = if k = key then part e else part z)
      (hkey : (key, omitted) ∈ (e.fieldList a emptyIsNil).map (fun f => (f.1.1, f.2)))
      (hzero : omitted = true → part zero = part e) :
      part (fields.foldl (fun z f => e.copyField f.1 z) zero) = part e := by
    rw [foldl_store h]
    split_ifs with hin
    · rfl
    · exact (written_or_zero e hall hkey hzero).resolve_left hin
  have hkey (k : ℕ) {f : GoString × Bool}
      (h : ((e.fieldList a emptyIsNil).map (fun f => (f.1.1, f.2)))[k]? = some f) :
      (f.1, f.2) ∈ (e.fieldList a emptyIsNil).map (fun f => (f.1.1, f.2)) :=
    List.mem_of_getElem? h
  apply eq_of_parts
  · exact hpart (fun _ _ => rfl) (hkey 0 rfl) Bool.noConfusion
  · exact hpart (fun _ _ => rfl) (hkey 1 rfl) Bool.noConfusion
  · exact hpart (fun _ _ => rfl) (hkey 2 rfl) Bool.noConfusion
  · exact hpart (fun _ _ => rfl) (hkey 3 rfl) Bool.noConfusion
  · exact hpart (fun _ _ => rfl) (hkey 4 rfl) Bool.noConfusion
  · exact hpart (fun _ _ => rfl) (hkey 5 rfl) (fun h => (beq_iff_eq.1 h).symm)
  · exact hpart (fun _ _ => rfl) (hkey 6 rfl) (fun h => (eq_nil_of_valueIsNil h).symm)
  · exact hpart (fun _ _ => rfl) (hkey 7 rfl) (fun h => (beq_iff_eq.1 h).symm)
  · exact hpart (fun _ _ => rfl) (hkey 8 rfl) (fun h => (beq_iff_eq.1 h).symm)

theorem reads_encodeFields (ha : a.Short) (hr : r.UndoBytes a maxLen) {e : LogEntry}
    (he : e.Representable r a maxLen) {fields : List (GoString × GoString)}
    (hlen : fields.length < 2 ^ 32)
    (hfields : ∀ f ∈ fields, f ∈ (e.fieldList a emptyIsNil).map Prod.fst ∨ Foreign r maxLen f)
    (hall : e.written a emptyIsNil ⊆ fields) :
    Reads .malformed (zero.unmarshalMsg r) (encodeFields a fields) e := by
  have hfit := hr.keys_fit
  have hshort : ∀ f ∈ e.fieldList a emptyIsNil, f.1.1.length ≤ 32 := by simp [fieldList, bytes]
  have hkey : ∀ f ∈ fields, Reads .malformed r.readMapKeyZC (a.appendString f.1) f.1 := by
    intro f hf
    apply hr.mapKey
    rcases hfields f hf with hown | hforeign
    · obtain ⟨g, hg, rfl⟩ := List.mem_map.1 hown
      exact (hshort g hg).trans hfit
    · exact hforeign.length
  have hfield : ∀ f ∈ fields, ∀ z,
      Reads .malformed (field r f.1 z) f.2 (e.copyField f.1 z) := by
    intro f hf z
    rcases hfields f hf with hown | hforeign
    · obtain ⟨g, hg, rfl⟩ := List.mem_map.1 hown
      exact reads_field_own ha hr he hg z
    · exact reads_field_foreign e hforeign z
  have hread := reads_readMap (hr.mapHeader _ hlen) hkey hfield zero
  rwa [foldl_copyField hall] at hread

/-- An entry is decoded from its fields in any order, also when some are repeated or stand there
although they could be left out, with any fields of other versions in between. -/
theorem unmarshalMsg_any_order (ha : a.Short) (hr : r.UndoBytes a maxLen) {e : LogEntry}
    (he : e.Representable r a maxLen) {fields : List (GoString × GoString)}
    (hlen : fields.length < 2 ^ 32)
    (hfields : ∀ f ∈ fields, f ∈ (e.fieldList a emptyIsNil).map Prod.fst ∨ Foreign r maxLen f)
    (hall : e.written a emptyIsNil ⊆ fields) (rest : GoString) :
    (zero.unmarshalMsg r).run (encodeFields a fields ++ rest) = .ok (e, rest) :=
  (reads_encodeFields ha hr he hlen hfields hall).whole rest

/-- What the encoder writes is read back, and no beginning of it is taken for an entry. -/
theorem reads_unmarshalMsg (ha : a.Short) (hr : r.UndoBytes a maxLen) {e : LogEntry}
    (he : e.Representable r a maxLen) :
    Reads .malformed (zero.unmarshalMsg r) (e.marshalMsg a emptyIsNil) e := by
  have hown : ∀ f ∈ e.written a emptyIsNil,
      f ∈ (e.fieldList a emptyIsNil).map Prod.fst ∨ Foreign r maxLen f := by
    intro f hf
    obtain ⟨g, hg, rfl⟩ := List.mem_map.1 hf
    exact Or.inl (List.mem_map_of_mem (List.mem_filter.1 hg).1)
  rw [marshalMsg_eq ha]
  exact reads_encodeFields ha hr he ((length_written_le _ _ e).trans_lt (by norm_num)) hown
    (List.Subset.refl _)

/-- A map and a byte string, as a later version might write them. -/
def laterFields : List (GoString × GoString) :=
  [(bytes "x", [0x81, 0xa1, 0x61, 0x92, 0x01, 0xc0]), (bytes "sig", [0xc4, 2, 7, 7])]

theorem foreign_laterFields :
    ∀ f ∈ laterFields, Foreign (MessagePack.readers (fun _ => 0)) (2 ^ 32 - 1) f := by
  intro f hf
  rcases List.mem_pair.1 hf with rfl | rfl
  · exact ⟨by decide, by decide, reads_of_inits (fun _ => rfl) (by decide +kernel)⟩
  · exact ⟨by decide, by decide, reads_of_inits (fun _ => rfl) (by decide +kernel)⟩

/-- The fields of a deletion back to front, one of them twice and one written although it is zero,
with those of the later version among them. -/
def laterVersion : List (GoString × GoString) :=
  let a := MessagePack.appenders (fun _ => 0)
  [(bytes "k", a.appendString (bytes "key")), (bytes "x", [0x81, 0xa1, 0x61, 0x92, 0x01, 0xc0]),
    (bytes "o", a.appendByte 4), (bytes "ttl", a.appendInt64 0), (bytes "ba", a.appendInt64 12),
    (bytes "sig", [0xc4, 2, 7, 7]), (bytes "t", (⟨10, 3⟩ : Timestamp).marshalMsg a),
    (bytes "k", a.appendString (bytes "key")), (bytes "s", a.appendUint64 300)]

theorem unmarshalMsg_any_order_laterVersion :
    (zero.unmarshalMsg (MessagePack.readers (fun _ => 0))).run
        (encodeFields (MessagePack.appenders (fun _ => 0)) laterVersion ++ [1, 2]) =
      .ok ({ deleteLogEntry ⟨10, 3⟩ 12 (bytes "key") with seq := 300 }, [1, 2]) := by
  have hfields : ∀ f ∈ laterVersion, f ∈ (fieldList (MessagePack.appenders (fun _ => 0)) true
      { deleteLogEntry ⟨10, 3⟩ 12 (bytes "key") with seq := 300 }).map Prod.fst ∨
        f ∈ laterFields := by decide +kernel
  have hall : written (MessagePack.appenders (fun _ => 0)) true
      { deleteLogEntry ⟨10, 3⟩ 12 (bytes "key") with seq := 300 } ⊆ laterVersion := by
    decide +kernel
  refine unmarshalMsg_any_order (MessagePack.short_appenders _) (MessagePack.undoBytes _ _) ?_
    (by decide) (fun f hf => (hfields f hf).imp_right (foreign_laterFields f)) hall [1, 2]
  exact ⟨by decide, by decide, by decide, by decide, by decide,
    MessagePack.reads_readFloat64 _ _ rfl⟩

end LogEntry

/-- The encoder and the decoder of the program. Whether an empty value is `nil` depends on where the
entry comes from. -/
def wireCodec (r : Readers) (a : Appenders) (ha : a.Sized) (emptyIsNil : LogEntry → Bool) :
    Codec where
  marshalMsg e := e.marshalMsg a (emptyIsNil e)
  unmarshalMsg raw := ((LogEntry.zero.unmarshalMsg r).run raw).toOption.map Prod.fst
  length_le_msgsize e := LogEntry.length_marshalMsg_le (emptyIsNil e) ha e

theorem wireCodec_unmarshalMsg {ha : a.Sized} {emptyIsNil : LogEntry → Bool} (hshort : a.Short)
    (hr : r.UndoBytes a maxLen) {e : LogEntry} (he : e.Representable r a maxLen) :
    (wireCodec r a ha emptyIsNil).unmarshalMsg ((wireCodec r a ha emptyIsNil).marshalMsg e) =
      some e :=
  congrArg (fun p => (Except.toOption p).map Prod.fst)
    (LogEntry.reads_unmarshalMsg hshort hr he).run

end Capacitor
