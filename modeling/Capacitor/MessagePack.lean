import Capacitor.MsgpReaders

/-!
# The MessagePack format

Readers of the format that do what the decoders ask of the message library: a lead byte tells the
form of the value, its length or its size, and every form that the format has for an integer, a
string or a header is accepted. Each of them undoes its appender. `skip` passes over one value of
any kind; the values of an array or a map are passed over one by one, down to a limit of the
depth.
-/

namespace Capacitor

namespace MessagePack

open StringReader Msgp

abbrev ByteReader (α : Type) := Reader Failure UInt8 α

def malformed {α : Type} : ByteReader α := fail .malformed

def nextByte : ByteReader UInt8 := next .malformed

def takeBytes (n : ℕ) : ByteReader GoString := take .malformed n

def ofBigEndian (bs : GoString) : ℕ := bs.foldl (fun n x => 256 * n + x.toNat) 0

def readNat (width : ℕ) : ByteReader ℕ := ofBigEndian <$> takeBytes width

def readInt (width : ℕ) : ByteReader ℤ :=
  (fun n : ℕ => Int.bmod n (2 ^ (8 * width))) <$> readNat width

def readNonneg (width : ℕ) : ByteReader ℕ := do
  let i ← readInt width
  if 0 ≤ i then pure i.toNat else malformed

def readUint64 : ByteReader ℕ := do
  let lead ← nextByte
  if lead < 0x80 then pure lead.toNat
  else if lead = 0xcc then readNat 1
  else if lead = 0xcd then readNat 2
  else if lead = 0xce then readNat 4
  else if lead = 0xcf then readNat 8
  else if lead = 0xd0 then readNonneg 1
  else if lead = 0xd1 then readNonneg 2
  else if lead = 0xd2 then readNonneg 4
  else if lead = 0xd3 then readNonneg 8
  else malformed

def readInt64 : ByteReader ℤ := do
  let lead ← nextByte
  if lead < 0x80 then pure lead.toNat
  else if 0xe0 ≤ lead then pure (lead.toNat - 256)
  else if lead = 0xd0 then readInt 1
  else if lead = 0xd1 then readInt 2
  else if lead = 0xd2 then readInt 4
  else if lead = 0xd3 then readInt 8
  else if lead = 0xcc then (Nat.cast : ℕ → ℤ) <$> readNat 1
  else if lead = 0xcd then (Nat.cast : ℕ → ℤ) <$> readNat 2
  else if lead = 0xce then (Nat.cast : ℕ → ℤ) <$> readNat 4
  else if lead = 0xcf then do
    let u ← readNat 8
    if u < 2 ^ 63 then pure (u : ℤ) else malformed
  else malformed

def readInt32 : ByteReader ℤ := do
  let i ← readInt64
  if -2 ^ 31 ≤ i ∧ i < 2 ^ 31 then pure i else malformed

def readByte : ByteReader UInt8 := do
  let u ← readUint64
  if u < 2 ^ 8 then pure u.toUInt8 else malformed

/-- The payload of a string or byte string whose length has `width` bytes. -/
def readSized (width : ℕ) : ByteReader GoString := readNat width >>= takeBytes

def readString : ByteReader GoString := do
  let lead ← nextByte
  if 0xa0 ≤ lead ∧ lead < 0xc0 then takeBytes (lead.toNat - 0xa0)
  else if lead = 0xd9 then readSized 1
  else if lead = 0xda then readSized 2
  else if lead = 0xdb then readSized 4
  else malformed

def readBytes : ByteReader GoString := do
  let lead ← nextByte
  if lead = 0xc4 then readSized 1
  else if lead = 0xc5 then readSized 2
  else if lead = 0xc6 then readSized 4
  else malformed

def readMapKey : ByteReader GoString := do
  let lead ← nextByte
  if 0xa0 ≤ lead ∧ lead < 0xc0 then takeBytes (lead.toNat - 0xa0)
  else if lead = 0xd9 ∨ lead = 0xc4 then readSized 1
  else if lead = 0xda ∨ lead = 0xc5 then readSized 2
  else if lead = 0xdb ∨ lead = 0xc6 then readSized 4
  else malformed

def readMapHeader : ByteReader ℕ := do
  let lead ← nextByte
  if 0x80 ≤ lead ∧ lead < 0x90 then pure (lead.toNat - 0x80)
  else if lead = 0xde then readNat 2
  else if lead = 0xdf then readNat 4
  else malformed

def readArrayHeader : ByteReader ℕ := do
  let lead ← nextByte
  if 0x90 ≤ lead ∧ lead < 0xa0 then pure (lead.toNat - 0x90)
  else if lead = 0xdc then readNat 2
  else if lead = 0xdd then readNat 4
  else malformed

def readFloat64 (float64frombits : UInt64 → ℚ) : ByteReader ℚ := do
  let lead ← nextByte
  if lead = 0xcb then (fun n : ℕ => float64frombits n.toUInt64) <$> readNat 8 else malformed

/-- Passes over the flat part of a value; the number of values in it remains. -/
def skipHead : ByteReader ℕ := do
  let lead ← nextByte
  if lead < 0x80 then pure 0
  else if lead < 0x90 then pure (2 * (lead.toNat - 0x80))
  else if lead < 0xa0 then pure (lead.toNat - 0x90)
  else if lead < 0xc0 then (fun _ => 0) <$> takeBytes (lead.toNat - 0xa0)
  else if lead = 0xc0 ∨ lead = 0xc2 ∨ lead = 0xc3 then pure 0
  else if lead = 0xc4 ∨ lead = 0xd9 then (fun _ => 0) <$> readSized 1
  else if lead = 0xc5 ∨ lead = 0xda then (fun _ => 0) <$> readSized 2
  else if lead = 0xc6 ∨ lead = 0xdb then (fun _ => 0) <$> readSized 4
  else if lead = 0xc7 then readNat 1 >>= fun n => (fun _ => 0) <$> takeBytes (n + 1)
  else if lead = 0xc8 then readNat 2 >>= fun n => (fun _ => 0) <$> takeBytes (n + 1)
  else if lead = 0xc9 then readNat 4 >>= fun n => (fun _ => 0) <$> takeBytes (n + 1)
  else if lead = 0xcc ∨ lead = 0xd0 then (fun _ => 0) <$> takeBytes 1
  else if lead = 0xcd ∨ lead = 0xd1 ∨ lead = 0xd4 then (fun _ => 0) <$> takeBytes 2
  else if lead = 0xd5 then (fun _ => 0) <$> takeBytes 3
  else if lead = 0xca ∨ lead = 0xce ∨ lead = 0xd2 then (fun _ => 0) <$> takeBytes 4
  else if lead = 0xd6 then (fun _ => 0) <$> takeBytes 5
  else if lead = 0xcb ∨ lead = 0xcf ∨ lead = 0xd3 then (fun _ => 0) <$> takeBytes 8
  else if lead = 0xd7 then (fun _ => 0) <$> takeBytes 9
  else if lead = 0xd8 then (fun _ => 0) <$> takeBytes 17
  else if lead = 0xdc then readNat 2
  else if lead = 0xdd then readNat 4
  else if lead = 0xde then (2 * ·) <$> readNat 2
  else if lead = 0xdf then (2 * ·) <$> readNat 4
  else if 0xe0 ≤ lead then pure 0
  else malformed

def skipDepth : ℕ → ByteReader Unit
  | 0 => malformed
  | depth + 1 => do
      let n ← skipHead
      loop (fun _ => skipDepth depth) n ()

def recursionLimit : ℕ := 100000

def skip : ByteReader Unit := skipDepth recursionLimit

theorem consumes_readMapHeader : Consumes readMapHeader := (consumes_next _).bind _

def readers (float64frombits : UInt64 → ℚ) : Readers where
  readMapHeaderBytes := readMapHeader
  readMapKeyZC := readMapKey
  readUint64Bytes := readUint64
  readInt64Bytes := Int64.ofInt <$> readInt64
  readInt32Bytes := Int32.ofInt <$> readInt32
  readByteBytes := readByte
  readFloat64Bytes := readFloat64 float64frombits
  readStringBytes := readString
  readBytesBytes := readBytes
  skipBytes := skip
  readMapHeader := readMapHeader
  readMapKeyPtr := do
    let key ← readMapKey
    if key ≠ [] then pure key else malformed
  readArrayHeader := readArrayHeader
  readUint64 := readUint64
  readString := readString
  readBytes := readBytes
  isNil b := b == some 0xc0
  readNil := (fun _ => ()) <$> nextByte
  skip := skip
  consumes_readMapHeader := consumes_readMapHeader

theorem slices_readString : Slices readString :=
  .bind (fun _ => .ite (slices_take _ _) <| .ite (.bind (slices_take _)) <|
    .ite (.bind (slices_take _)) <| .ite (.bind (slices_take _)) (slices_fail _))

/-! ### Every reader undoes its appender -/

theorem bigEndian_succ (width n : ℕ) :
    bigEndian (width + 1) n = (n / 256 ^ width).toUInt8 :: bigEndian width n := by
  unfold bigEndian
  rw [List.range_succ_eq_map, List.map_cons, List.map_map]
  congr 1
  apply List.map_congr_left
  intro i _
  have hexp : width + 1 - 1 - (i + 1) = width - 1 - i := by omega
  simp only [Function.comp_apply, hexp]

theorem foldl_bigEndian (width n acc : ℕ) :
    (bigEndian width n).foldl (fun n x => 256 * n + x.toNat) acc =
      acc * 256 ^ width + n % 256 ^ width := by
  induction width generalizing acc with
  | zero => simp [bigEndian, Nat.mod_one]
  | succ width ih =>
      have hdigit : (n / 256 ^ width).toUInt8.toNat = n / 256 ^ width % 256 := by simp
      rw [bigEndian_succ, List.foldl_cons, ih, hdigit, Nat.mod_pow_succ]
      ring

theorem ofBigEndian_bigEndian {width n : ℕ} (h : n < 256 ^ width) :
    ofBigEndian (bigEndian width n) = n := by
  rw [ofBigEndian, foldl_bigEndian, Nat.mod_eq_of_lt h, Nat.zero_mul, Nat.zero_add]

theorem reads_lead {α : Type} {f : UInt8 → ByteReader α} {b : UInt8} {bs : GoString} {a : α}
    (h : Reads .malformed (f b) bs a) : Reads .malformed (nextByte >>= f) (b :: bs) a :=
  (reads_next b).bind h

theorem reads_check {α γ : Type} {r : ByteReader α} {bs : GoString} {a : α} {p : α → Prop}
    [DecidablePred p] {f : α → γ} (h : Reads .malformed r bs a) (hp : p a) :
    Reads .malformed (do
      let a ← r
      if p a then pure (f a) else malformed) bs (f a) := by
  rw [← List.append_nil bs]
  apply h.bind
  rw [if_pos hp]
  exact reads_pure (f a)

theorem reads_readNat {width n : ℕ} (h : n < 256 ^ width) :
    Reads .malformed (readNat width) (bigEndian width n) n := by
  have htake : Reads Failure.malformed (take _ _) _ _ := reads_take (bigEndian width n)
  rw [length_bigEndian] at htake
  have hread := htake.map ofBigEndian
  rwa [ofBigEndian_bigEndian h] at hread

theorem reads_readInt {width : ℕ} {i : ℤ} (hlo : -2 ^ (8 * width) ≤ 2 * i)
    (hhi : 2 * i < 2 ^ (8 * width)) :
    Reads .malformed (readInt width) (bigEndian width (i % 2 ^ (8 * width)).toNat) i := by
  have hpos : (0 : ℤ) < 2 ^ (8 * width) := by positivity
  have hnonneg := Int.emod_nonneg i hpos.ne'
  have hlt := Int.emod_lt_of_pos i hpos
  have hpow : (256 : ℕ) ^ width = 2 ^ (8 * width) := by
    rw [pow_mul]
    norm_num
  have hcast : ((i % 2 ^ (8 * width)).toNat : ℤ) = i % 2 ^ (8 * width) :=
    Int.toNat_of_nonneg hnonneg
  have hbound : (i % 2 ^ (8 * width)).toNat < 256 ^ width := by
    rw [hpow]
    zify
    rw [hcast]
    exact hlt
  have hread := (reads_readNat hbound).map (fun n : ℕ => Int.bmod n (2 ^ (8 * width)))
  have hvalue : Int.bmod (i % 2 ^ (8 * width)) (2 ^ (8 * width)) = i := by
    have hmod : Int.bmod (i % ((2 ^ (8 * width) : ℕ) : ℤ)) (2 ^ (8 * width)) =
        Int.bmod i (2 ^ (8 * width)) := Int.emod_bmod i _
    push_cast at hmod
    rw [hmod]
    apply Int.bmod_eq_of_le_mul_two
    · push_cast
      linarith
    · push_cast
      linarith
  rwa [hcast, hvalue] at hread

theorem reads_readUint64 {u : ℕ} (h : u < 2 ^ 64) :
    Reads .malformed readUint64 (appendUint64 u) u := by
  unfold appendUint64
  split_ifs with h₁ h₂ h₃ h₄
  · apply reads_lead
    have hnat : u.toUInt8.toNat = u := by simp; omega
    rw [if_pos (by rw [UInt8.lt_iff_toNat_lt, hnat]; exact h₁), hnat]
    exact reads_pure u
  · exact reads_lead (reads_readNat (by omega))
  · exact reads_lead (reads_readNat (by omega))
  · exact reads_lead (reads_readNat (by omega))
  · exact reads_lead (reads_readNat (by omega))

theorem reads_readInt64 {i : ℤ} (hlo : -2 ^ 63 ≤ i) (hhi : i < 2 ^ 63) :
    Reads .malformed readInt64 (appendInt i) i := by
  have hone (n : ℕ) : bigEndian 1 n = [n.toUInt8] := by simp [bigEndian]
  unfold appendInt
  split_ifs with h₁ h₂ h₃ h₄
  · rw [hone]
    apply reads_lead
    have hlead : (i % 2 ^ 8).toNat.toUInt8.toNat = (i % 2 ^ 8).toNat := by
      simp only [Nat.toUInt8_eq, UInt8.toNat_ofNat']
      omega
    by_cases hneg : i < 0
    · rw [if_neg (by rw [UInt8.lt_iff_toNat_lt, hlead]; simp; omega),
        if_pos (by rw [UInt8.le_iff_toNat_le, hlead]; simp; omega), hlead]
      have hvalue : ((i % 2 ^ 8).toNat : ℤ) - 256 = i := by omega
      rw [hvalue]
      exact reads_pure i
    · rw [if_pos (by rw [UInt8.lt_iff_toNat_lt, hlead]; simp; omega), hlead]
      have hvalue : ((i % 2 ^ 8).toNat : ℤ) = i := by omega
      rw [hvalue]
      exact reads_pure i
  · exact reads_lead (reads_readInt (by norm_num; omega) (by norm_num; omega))
  · exact reads_lead (reads_readInt (by norm_num; omega) (by norm_num; omega))
  · exact reads_lead (reads_readInt (by norm_num; omega) (by norm_num; omega))
  · exact reads_lead (reads_readInt (by norm_num; omega) (by norm_num; omega))

theorem reads_readInt32 {i : ℤ} (hlo : -2 ^ 31 ≤ i) (hhi : i < 2 ^ 31) :
    Reads .malformed readInt32 (appendInt i) i :=
  reads_check (f := id) (reads_readInt64 (by omega) (by omega)) ⟨hlo, hhi⟩

theorem reads_readByte (b : UInt8) : Reads .malformed readByte (appendUint64 b.toNat) b := by
  have hlt : b.toNat < 2 ^ 8 := b.toNat_lt
  have hread := reads_check (p := fun u => u < 2 ^ 8) (f := Nat.toUInt8)
    (reads_readUint64 (by omega)) hlt
  have hb : b.toNat.toUInt8 = b := by simp
  rwa [hb] at hread

theorem reads_readSized {width : ℕ} {s : GoString} (h : s.length < 256 ^ width) :
    Reads .malformed (readSized width) (bigEndian width s.length ++ s) s :=
  (reads_readNat h).bind (reads_take s)

theorem toNat_tag_add {tag : UInt8} {n : ℕ} (h : tag.toNat + n < 256) :
    (tag + n.toUInt8).toNat = tag.toNat + n := by
  have hn : n.toUInt8.toNat = n := by
    simp only [Nat.toUInt8_eq, UInt8.toNat_ofNat']
    omega
  rw [UInt8.toNat_add, hn]
  omega

theorem reads_short_string {r : ByteReader GoString} {s : GoString} {lead : UInt8}
    (hlead : lead = 0xa0 + s.length.toUInt8) (h : s.length < 32) :
    Reads .malformed (if 0xa0 ≤ lead ∧ lead < 0xc0 then takeBytes (lead.toNat - 0xa0) else r)
      s s := by
  have hnat : lead.toNat = 160 + s.length := by
    rw [hlead]
    exact toNat_tag_add (show 160 + s.length < 256 by omega)
  rw [if_pos (by
    rw [UInt8.le_iff_toNat_le, UInt8.lt_iff_toNat_lt, hnat]
    simp
    omega), hnat, Nat.add_sub_cancel_left]
  exact reads_take s

theorem reads_readString {s : GoString} (h : s.length < 2 ^ 32) :
    Reads .malformed readString (appendString s) s := by
  unfold appendString
  split_ifs with h₁ h₂ h₃
  · exact reads_lead (reads_short_string rfl h₁)
  · exact reads_lead (reads_readSized (by omega))
  · exact reads_lead (reads_readSized (by omega))
  · exact reads_lead (reads_readSized (by omega))

theorem reads_readMapKey {s : GoString} (h : s.length < 2 ^ 32) :
    Reads .malformed readMapKey (appendString s) s := by
  unfold appendString
  split_ifs with h₁ h₂ h₃
  · exact reads_lead (reads_short_string rfl h₁)
  · exact reads_lead (reads_readSized (by omega))
  · exact reads_lead (reads_readSized (by omega))
  · exact reads_lead (reads_readSized (by omega))

theorem reads_readBytes {s : GoString} (h : s.length < 2 ^ 32) :
    Reads .malformed readBytes (appendBytes s) s := by
  unfold appendBytes
  split_ifs with h₁ h₂
  · exact reads_lead (reads_readSized (by omega))
  · exact reads_lead (reads_readSized (by omega))
  · exact reads_lead (reads_readSized (by omega))

theorem reads_readMapHeader {n : ℕ} (h : n < 2 ^ 32) :
    Reads .malformed readMapHeader (appendMapHeader n) n := by
  unfold appendMapHeader
  split_ifs with h₁ h₂
  · apply reads_lead
    have hlead : ((0x80 : UInt8) + n.toUInt8).toNat = 128 + n :=
      toNat_tag_add (show 128 + n < 256 by omega)
    rw [if_pos (by
      rw [UInt8.le_iff_toNat_le, UInt8.lt_iff_toNat_lt, hlead]
      simp
      omega), hlead, Nat.add_sub_cancel_left]
    exact reads_pure n
  · exact reads_lead (reads_readNat (by omega))
  · exact reads_lead (reads_readNat (by omega))

theorem reads_readArrayHeader {n : ℕ} (h : n < 2 ^ 32) :
    Reads .malformed readArrayHeader (appendArrayHeader n) n := by
  unfold appendArrayHeader
  split_ifs with h₁ h₂
  · apply reads_lead
    have hlead : ((0x90 : UInt8) + n.toUInt8).toNat = 144 + n :=
      toNat_tag_add (show 144 + n < 256 by omega)
    rw [if_pos (by
      rw [UInt8.le_iff_toNat_le, UInt8.lt_iff_toNat_lt, hlead]
      simp
      omega), hlead, Nat.add_sub_cancel_left]
    exact reads_pure n
  · exact reads_lead (reads_readNat (by omega))
  · exact reads_lead (reads_readNat (by omega))

section Laws

variable (float64bits : ℚ → UInt64) (float64frombits : UInt64 → ℚ)

theorem reads_readFloat64 {q : ℚ} (hq : float64frombits (float64bits q) = q) :
    Reads .malformed (readers float64frombits).readFloat64Bytes
      ((appenders float64bits).appendFloat64 q) q := by
  have hlt : (float64bits q).toNat < 256 ^ 8 := (float64bits q).toNat_lt
  have hbits : (float64bits q).toNat.toUInt64 = float64bits q := by simp
  have hread := (reads_readNat hlt).map (fun n : ℕ => float64frombits n.toUInt64)
  rw [hbits, hq] at hread
  exact reads_lead hread

theorem short_appenders : (appenders float64bits).Short where
  mapHeader n hn := if_pos hn
  string s hs := by
    change appendString s = _
    unfold appendString
    rw [if_pos hs]
    rfl

theorem undoBytes : (readers float64frombits).UndoBytes (appenders float64bits) (2 ^ 32 - 1) where
  mapHeader _ := reads_readMapHeader
  mapKey s hs := reads_readMapKey (by omega)
  uint64 _ := reads_readUint64
  int64 i := by
    have hread := (reads_readInt64 i.le_toInt i.toInt_lt).map Int64.ofInt
    rwa [Int64.ofInt_toInt] at hread
  int32 i := by
    have hread := (reads_readInt32 i.le_toInt i.toInt_lt).map Int32.ofInt
    rwa [Int32.ofInt_toInt] at hread
  byte := reads_readByte
  string s hs := reads_readString (by omega)
  bytes s hs := reads_readBytes (by omega)
  keys_fit := by norm_num

theorem undoStream : (readers float64frombits).UndoStream (appenders float64bits) (2 ^ 32 - 1) where
  mapHeader _ := reads_readMapHeader
  mapKey s hne hs := reads_check (f := id) (reads_readMapKey (by omega)) hne
  arrayHeader _ := reads_readArrayHeader
  uint64 _ := reads_readUint64
  string s hs := reads_readString (by omega)
  bytes s hs := reads_readBytes (by omega)
  isNil b := by simp [readers]
  keys_fit := by norm_num

end Laws

end MessagePack

end Capacitor
