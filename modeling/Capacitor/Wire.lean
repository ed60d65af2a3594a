import Capacitor.Log

/-!
# The encoding of log entries

The generated encoders of `hlc_gen.go`, `types_gen.go` and `log_gen.go`: a map of at most nine
fields, four of which are left out when they hold their zero value. The message library that appends
the values is not part of the program, so that its functions are parameters; the lead byte of a map
and the keys are written by the generated code itself. When nothing takes more room than the library
declares, the size estimate is an upper bound, which is all the log relies on.
-/

namespace Capacitor

namespace Msgp

def arrayHeaderSize : ℕ := 5

/-- What the message library appends to a buffer for a value. -/
structure Appenders where
  appendMapHeader : ℕ → GoString
  appendArrayHeader : ℕ → GoString
  appendUint64 : ℕ → GoString
  appendInt64 : Int64 → GoString
  appendInt32 : Int32 → GoString
  appendByte : UInt8 → GoString
  appendFloat64 : ℚ → GoString
  appendString : GoString → GoString
  appendBytes : GoString → GoString

/-- The sizes that the library declares are upper bounds. -/
structure Appenders.Sized (a : Appenders) : Prop where
  arrayHeader : ∀ n, (a.appendArrayHeader n).length ≤ arrayHeaderSize
  uint64 : ∀ u, (a.appendUint64 u).length ≤ uint64Size
  int64 : ∀ i, (a.appendInt64 i).length ≤ int64Size
  int32 : ∀ i, (a.appendInt32 i).length ≤ int32Size
  byte : ∀ b, (a.appendByte b).length ≤ byteSize
  float64 : ∀ f, (a.appendFloat64 f).length ≤ float64Size
  string : ∀ s, (a.appendString s).length ≤ stringPrefixSize + s.length
  bytes : ∀ s, (a.appendBytes s).length ≤ bytesPrefixSize + s.length

end Msgp

open Msgp

variable (a : Appenders)

def Timestamp.marshalMsg (t : Timestamp) : GoString :=
  [0x82, 0xa1, 0x70] ++ a.appendInt64 t.physical ++ [0xa1, 0x6c] ++ a.appendInt32 t.logical

def MsgType.code : MsgType → UInt8
  | set => 0
  | incr => 1
  | metric => 2
  | window => 3
  | delete => 4
  | unknown code => code

def MsgType.marshalMsg (t : MsgType) : GoString := a.appendByte t.code

/-- A field that is written only when it does not hold its zero value. -/
def omitempty (zero : Bool) (field : GoString) : GoString := if zero then [] else field

theorem length_omitempty_le (zero : Bool) (field : GoString) :
    (omitempty zero field).length ≤ field.length := by
  cases zero <;> simp [omitempty]

namespace LogEntry

/-- The value is `nil`. Of an empty slice only the program knows whether it is. -/
def valueIsNil (emptyIsNil : Bool) (z : LogEntry) : Bool := emptyIsNil && z.value == []

variable (emptyIsNil : Bool)

def fields (z : LogEntry) : ℕ :=
  9 - (z.nodeID == []).toNat - (z.valueIsNil emptyIsNil).toNat - (z.delta == 0).toNat -
    (z.ttl == 0).toNat

def marshalMsg (z : LogEntry) : GoString :=
  [0x80 + (z.fields emptyIsNil).toUInt8] ++
    ([0xa1, 0x73] ++ a.appendUint64 z.seq) ++
    ([0xa1, 0x74] ++ z.ts.marshalMsg a) ++
    ([0xa2, 0x62, 0x61] ++ a.appendInt64 z.bornAt) ++
    ([0xa1, 0x6f] ++ z.op.marshalMsg a) ++
    ([0xa1, 0x6b] ++ a.appendString z.key) ++
    omitempty (z.nodeID == []) ([0xa1, 0x6e] ++ a.appendString z.nodeID) ++
    omitempty (z.valueIsNil emptyIsNil) ([0xa1, 0x76] ++ a.appendBytes z.value) ++
    omitempty (z.delta == 0) ([0xa1, 0x64] ++ a.appendFloat64 z.delta) ++
    omitempty (z.ttl == 0) ([0xa3, 0x74, 0x74, 0x6c] ++ a.appendInt64 z.ttl)

variable {a}

/-- The size estimate bounds the encoded length. -/
theorem length_marshalMsg_le (ha : a.Sized) (z : LogEntry) :
    (z.marshalMsg a emptyIsNil).length ≤ z.msgsize := by
  have hseq := ha.uint64 z.seq
  have hphysical := ha.int64 z.ts.physical
  have hlogical := ha.int32 z.ts.logical
  have hborn := ha.int64 z.bornAt
  have hop := ha.byte z.op.code
  have hkey := ha.string z.key
  have hnode := length_omitempty_le (z.nodeID == []) ([0xa1, 0x6e] ++ a.appendString z.nodeID)
  have hnode' := ha.string z.nodeID
  have hvalue := length_omitempty_le (z.valueIsNil emptyIsNil)
    ([0xa1, 0x76] ++ a.appendBytes z.value)
  have hvalue' := ha.bytes z.value
  have hdelta := length_omitempty_le (z.delta == 0) ([0xa1, 0x64] ++ a.appendFloat64 z.delta)
  have hdelta' := ha.float64 z.delta
  have httl := length_omitempty_le (z.ttl == 0) ([0xa3, 0x74, 0x74, 0x6c] ++ a.appendInt64 z.ttl)
  have httl' := ha.int64 z.ttl
  simp only [List.length_append, List.length_cons, List.length_nil] at hnode hvalue hdelta httl
  simp only [marshalMsg, Timestamp.marshalMsg, MsgType.marshalMsg, msgsize, List.length_append,
    List.length_cons, List.length_nil]
  omega

end LogEntry

/-! ### The forms of the format

One library that keeps its declared sizes takes the shortest form that MessagePack has for a
value. The bit pattern of a floating-point number is still a parameter. -/

namespace MessagePack

def appendMapHeader (n : ℕ) : GoString :=
  if n < 16 then [0x80 + n.toUInt8]
  else if n < 2 ^ 16 then 0xde :: bigEndian 2 n
  else 0xdf :: bigEndian 4 n

def appendArrayHeader (n : ℕ) : GoString :=
  if n < 16 then [0x90 + n.toUInt8]
  else if n < 2 ^ 16 then 0xdc :: bigEndian 2 n
  else 0xdd :: bigEndian 4 n

def appendUint64 (u : ℕ) : GoString :=
  if u < 128 then [u.toUInt8]
  else if u < 2 ^ 8 then 0xcc :: bigEndian 1 u
  else if u < 2 ^ 16 then 0xcd :: bigEndian 2 u
  else if u < 2 ^ 32 then 0xce :: bigEndian 4 u
  else 0xcf :: bigEndian 8 u

def appendInt (i : ℤ) : GoString :=
  if -32 ≤ i ∧ i < 128 then bigEndian 1 (i % 2 ^ 8).toNat
  else if -2 ^ 7 ≤ i ∧ i < 0 then 0xd0 :: bigEndian 1 (i % 2 ^ 8).toNat
  else if -2 ^ 15 ≤ i ∧ i < 2 ^ 15 then 0xd1 :: bigEndian 2 (i % 2 ^ 16).toNat
  else if -2 ^ 31 ≤ i ∧ i < 2 ^ 31 then 0xd2 :: bigEndian 4 (i % 2 ^ 32).toNat
  else 0xd3 :: bigEndian 8 (i % 2 ^ 64).toNat

def appendString (s : GoString) : GoString :=
  (if s.length < 32 then [0xa0 + s.length.toUInt8]
    else if s.length < 2 ^ 8 then 0xd9 :: bigEndian 1 s.length
    else if s.length < 2 ^ 16 then 0xda :: bigEndian 2 s.length
    else 0xdb :: bigEndian 4 s.length) ++ s

def appendBytes (s : GoString) : GoString :=
  (if s.length < 2 ^ 8 then 0xc4 :: bigEndian 1 s.length
    else if s.length < 2 ^ 16 then 0xc5 :: bigEndian 2 s.length
    else 0xc6 :: bigEndian 4 s.length) ++ s

def appenders (float64bits : ℚ → UInt64) : Appenders where
  appendMapHeader := appendMapHeader
  appendArrayHeader := appendArrayHeader
  appendUint64 := appendUint64
  appendInt64 i := appendInt i.toInt
  appendInt32 i := appendInt i.toInt
  appendByte b := appendUint64 b.toNat
  appendFloat64 f := 0xcb :: bigEndian 8 (float64bits f).toNat
  appendString := appendString
  appendBytes := appendBytes

theorem length_appendArrayHeader_le (n : ℕ) :
    (appendArrayHeader n).length ≤ arrayHeaderSize := by
  unfold appendArrayHeader arrayHeaderSize
  split_ifs <;> simp

theorem length_appendUint64_le (u : ℕ) : (appendUint64 u).length ≤ uint64Size := by
  unfold appendUint64 uint64Size
  split_ifs <;> simp

theorem length_appendByte_le (b : UInt8) : (appendUint64 b.toNat).length ≤ byteSize := by
  have hlt : b.toNat < 2 ^ 8 := b.toNat_lt
  unfold appendUint64 byteSize
  split_ifs
  · simp
  · simp

theorem length_appendInt_le (i : ℤ) : (appendInt i).length ≤ int64Size := by
  unfold appendInt int64Size
  split_ifs <;> simp

theorem length_appendInt32_le (i : Int32) : (appendInt i.toInt).length ≤ int32Size := by
  have hlo := i.le_toInt
  have hhi := i.toInt_lt
  unfold appendInt int32Size
  split_ifs with h₁ h₂ h₃ h₄
  · simp
  · simp
  · simp
  · simp
  · omega

theorem length_appendString_le (s : GoString) :
    (appendString s).length ≤ stringPrefixSize + s.length := by
  unfold appendString stringPrefixSize
  rw [List.length_append]
  split_ifs <;> simp

theorem length_appendBytes_le (s : GoString) :
    (appendBytes s).length ≤ bytesPrefixSize + s.length := by
  unfold appendBytes bytesPrefixSize
  rw [List.length_append]
  split_ifs <;> simp

theorem sized_appenders (float64bits : ℚ → UInt64) : (appenders float64bits).Sized where
  arrayHeader := length_appendArrayHeader_le
  uint64 := length_appendUint64_le
  int64 i := length_appendInt_le i.toInt
  int32 := length_appendInt32_le
  byte := length_appendByte_le
  float64 f := by simp [appenders, float64Size]
  string := length_appendString_le
  bytes := length_appendBytes_le

end MessagePack

/-- The encoder together with a decoder that knows the listed entries. -/
def tableCodec (float64bits : ℚ → UInt64) (known : List LogEntry) : Codec where
  marshalMsg := LogEntry.marshalMsg (MessagePack.appenders float64bits) true
  unmarshalMsg raw := known.find? (fun e =>
    e.marshalMsg (MessagePack.appenders float64bits) true == raw)
  length_le_msgsize := LogEntry.length_marshalMsg_le true (MessagePack.sized_appenders float64bits)

end Capacitor
