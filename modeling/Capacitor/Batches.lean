import Capacitor.MessagePack
import Capacitor.Transport

/-!
# Batches as bytes

The generated code of `transport_gen.go`. A batch is a map of its fields, and the handshake a map
within it. The decoder makes room for as many entries as the bytes announce before it has read one
of them; when the announcement exceeds what the memory holds, the process ends there. What the
encoder writes is read back, and a token that is read stands in the bytes.
-/

namespace Capacitor

open StringReader Msgp

variable (r : Readers) (a : Appenders)

namespace Handshake

def zero : Handshake := ⟨0, []⟩

def field (key : GoString) (z : Handshake) : Reader Failure UInt8 Handshake :=
  if key = bytes "ls" then (fun u => { z with lastSeenSeq := u }) <$> r.readUint64
  else if key = bytes "at" then (fun s => { z with authToken := s }) <$> r.readString
  else (fun _ => z) <$> r.skip

def decodeMsg (z : Handshake) : Reader Failure UInt8 Handshake :=
  readMap r.readMapHeader r.readMapKeyPtr (field r) z

def marshalMsg (z : Handshake) : GoString :=
  [0x80 + (2 - (z.authToken == []).toNat).toUInt8] ++
    ([0xa2, 0x6c, 0x73] ++ a.appendUint64 z.lastSeenSeq) ++
    omitempty (z.authToken == []) ([0xa2, 0x61, 0x74] ++ a.appendString z.authToken)

end Handshake

namespace Batch

variable (maxSlices : ℕ)

def zero : Batch := ⟨[], [], none⟩

def makeEntries (n : ℕ) : Reader Failure UInt8 Unit :=
  if maxSlices < n then fail .outOfMemory else pure ()

def field (key : GoString) (z : Batch) : Reader Failure UInt8 Batch :=
  if key = bytes "f" then (fun s => { z with fromNode := s }) <$> r.readString
  else if key = bytes "e" then do
    let n ← r.readArrayHeader
    let _ ← makeEntries maxSlices n
    (fun es => { z with entries := es }) <$> replicate r.readBytes n
  else if key = bytes "h" then
    (fun h => { z with handshake := h }) <$> peek r.isNil ((fun _ => none) <$> r.readNil)
      (some <$> (z.handshake.getD Handshake.zero).decodeMsg r)
  else (fun _ => z) <$> r.skip

def decodeMsg (z : Batch) : Reader Failure UInt8 Batch :=
  readMap r.readMapHeader r.readMapKeyPtr (field r maxSlices) z

def marshalMsg (z : Batch) : GoString :=
  [0x80 + (3 - z.handshake.isNone.toNat).toUInt8] ++
    ([0xa1, 0x66] ++ a.appendString z.fromNode) ++
    ([0xa1, 0x65] ++ a.appendArrayHeader z.entries.length ++ z.entries.flatMap a.appendBytes) ++
    z.handshake.elim [] (fun h => [0xa1, 0x68] ++ h.marshalMsg a)

theorem consumes_decodeMsg (z : Batch) : Consumes (z.decodeMsg r maxSlices) :=
  r.consumes_readMapHeader.bind _

end Batch

variable {r a} {maxLen maxSlices : ℕ}

namespace Handshake

/-- The numbers and the lengths fit their forms. -/
structure Representable (maxLen : ℕ) (h : Handshake) : Prop where
  lastSeenSeq : h.lastSeenSeq < 2 ^ 64
  authToken : h.authToken.length ≤ maxLen

instance (h : Handshake) : Decidable (h.Representable maxLen) :=
  decidable_of_iff (h.lastSeenSeq < 2 ^ 64 ∧ h.authToken.length ≤ maxLen)
    ⟨fun hh => ⟨hh.1, hh.2⟩, fun hh => ⟨hh.1, hh.2⟩⟩

def fieldList (a : Appenders) (h : Handshake) : List (GoString × GoString) :=
  (bytes "ls", a.appendUint64 h.lastSeenSeq) ::
    if h.authToken = [] then [] else [(bytes "at", a.appendString h.authToken)]

theorem length_fieldList (h : Handshake) :
    (h.fieldList a).length = 2 - (h.authToken == []).toNat := by
  by_cases htoken : h.authToken = []
  · simp [fieldList, htoken]
  · have hne : (h.authToken == []) = false := by simpa using htoken
    rw [fieldList, if_neg htoken, hne]
    rfl

theorem marshalMsg_eq (ha : a.Short) (h : Handshake) :
    h.marshalMsg a = encodeFields a (h.fieldList a) := by
  have hlead := ha.mapHeader (2 - (h.authToken == []).toNat) (by omega)
  have hls : a.appendString (bytes "ls") = [0xa2, 0x6c, 0x73] := ha.string _ (by decide)
  have hat : a.appendString (bytes "at") = [0xa2, 0x61, 0x74] := ha.string _ (by decide)
  rw [encodeFields, length_fieldList, hlead]
  by_cases htoken : h.authToken = []
  · simp [marshalMsg, fieldList, htoken, hls, omitempty]
  · simp [marshalMsg, fieldList, htoken, hls, hat, omitempty]

def copyField (h : Handshake) (key : GoString) (z : Handshake) : Handshake where
  lastSeenSeq := if key = bytes "ls" then h.lastSeenSeq else z.lastSeenSeq
  authToken := if key = bytes "at" then h.authToken else z.authToken

theorem reads_field (hr : r.UndoStream a maxLen) {h : Handshake} (hh : h.Representable maxLen)
    {f : GoString × GoString} (hf : f ∈ h.fieldList a) (z : Handshake) :
    Reads .malformed (field r f.1 z) f.2 (h.copyField f.1 z) := by
  rcases List.mem_cons.1 hf with rfl | hf
  · exact (hr.uint64 _ hh.lastSeenSeq).map (fun u => { z with lastSeenSeq := u })
  · split_ifs at hf
    · cases hf
    · rw [List.mem_singleton.1 hf]
      exact (hr.string _ hh.authToken).map (fun s => { z with authToken := s })

theorem keys_fieldList (h : Handshake) :
    ∀ f ∈ h.fieldList a, f.1 ≠ [] ∧ f.1.length ≤ 32 := by
  by_cases htoken : h.authToken = []
  · simp [fieldList, htoken, bytes]
  · simp [fieldList, htoken, bytes]

/-- What a handshake leaves in another one that it is read into: an empty token is not written. -/
def mergeInto (h z : Handshake) : Handshake :=
  ⟨h.lastSeenSeq, if h.authToken = [] then z.authToken else h.authToken⟩

theorem mergeInto_zero (h : Handshake) : h.mergeInto zero = h := by
  obtain ⟨lastSeenSeq, authToken⟩ := h
  by_cases htoken : authToken = []
  · simp [mergeInto, htoken, zero]
  · simp [mergeInto, htoken]

theorem reads_decodeMsg (ha : a.Short) (hr : r.UndoStream a maxLen) {h : Handshake}
    (hh : h.Representable maxLen) (z : Handshake) :
    Reads .malformed (z.decodeMsg r) (h.marshalMsg a) (h.mergeInto z) := by
  have hlen : (h.fieldList a).length < 2 ^ 32 := by
    rw [length_fieldList]
    omega
  have hkey : ∀ f ∈ h.fieldList a, Reads .malformed r.readMapKeyPtr (a.appendString f.1) f.1 :=
    fun f hf => hr.mapKey f.1 (h.keys_fieldList f hf).1
      ((h.keys_fieldList f hf).2.trans hr.keys_fit)
  have hread := reads_readMap (hr.mapHeader _ hlen) hkey (fun f hf z => reads_field hr hh hf z) z
  have hall : (h.fieldList a).foldl (fun z f => h.copyField f.1 z) z = h.mergeInto z := by
    have hkeys : bytes "ls" ≠ bytes "at" := by decide
    by_cases htoken : h.authToken = []
    · simp [fieldList, htoken, copyField, mergeInto, hkeys]
    · simp [fieldList, htoken, copyField, mergeInto]
  rwa [hall, ← marshalMsg_eq ha] at hread

theorem head?_marshalMsg (h : Handshake) :
    h.marshalMsg a ≠ [] ∧ (h.marshalMsg a).head? ≠ some 0xc0 := by
  have hhead : (h.marshalMsg a).head? =
      some (0x80 + (2 - (h.authToken == []).toNat).toUInt8) := rfl
  constructor
  · simp [marshalMsg]
  · rw [hhead]
    cases h.authToken == [] <;> decide

theorem authToken_decodeMsg (hstring : Slices r.readString) {all bs rest : GoString}
    {z h : Handshake} (hbs : bs <:+ all) (hz : z.authToken <:+: all)
    (hrun : (z.decodeMsg r).run bs = .ok (h, rest)) : h.authToken <:+: all := by
  refine readMap_invariant (P := fun h => h.authToken <:+: all) ?_ hbs hz hrun
  intro key y bs y' rest hbs hy hfield
  unfold field at hfield
  split_ifs at hfield
  · obtain ⟨u, -, rfl⟩ := run_map_eq_ok.1 hfield
    exact hy
  · obtain ⟨s, hs, rfl⟩ := run_map_eq_ok.1 hfield
    exact (hstring _ _ _ hs).trans hbs.isInfix
  · obtain ⟨-, -, rfl⟩ := run_map_eq_ok.1 hfield
    exact hy

end Handshake

namespace Batch

/-- The numbers and the lengths fit their forms, and the memory holds the entries. -/
structure Representable (maxLen maxSlices : ℕ) (b : Batch) : Prop where
  fromNode : b.fromNode.length ≤ maxLen
  entries : b.entries.length < 2 ^ 32 ∧ b.entries.length ≤ maxSlices
  entry : ∀ raw ∈ b.entries, raw.length ≤ maxLen
  handshake : ∀ h ∈ b.handshake, h.Representable maxLen

instance (b : Batch) : Decidable (b.Representable maxLen maxSlices) :=
  decidable_of_iff (b.fromNode.length ≤ maxLen ∧
      (b.entries.length < 2 ^ 32 ∧ b.entries.length ≤ maxSlices) ∧
      (∀ raw ∈ b.entries, raw.length ≤ maxLen) ∧ ∀ h ∈ b.handshake, h.Representable maxLen)
    ⟨fun hb => ⟨hb.1, hb.2.1, hb.2.2.1, hb.2.2.2⟩, fun hb => ⟨hb.1, hb.2, hb.3, hb.4⟩⟩

def fieldList (a : Appenders) (b : Batch) : List (GoString × GoString) :=
  (bytes "f", a.appendString b.fromNode) ::
    (bytes "e", a.appendArrayHeader b.entries.length ++ b.entries.flatMap a.appendBytes) ::
    b.handshake.toList.map (fun h => (bytes "h", h.marshalMsg a))

theorem length_fieldList (b : Batch) :
    (b.fieldList a).length = 3 - b.handshake.isNone.toNat := by
  cases hb : b.handshake <;> simp [fieldList, hb]

theorem marshalMsg_eq (ha : a.Short) (b : Batch) :
    b.marshalMsg a = encodeFields a (b.fieldList a) := by
  have hlead := ha.mapHeader (3 - b.handshake.isNone.toNat) (by omega)
  have hf : a.appendString (bytes "f") = [0xa1, 0x66] := ha.string _ (by decide)
  have he : a.appendString (bytes "e") = [0xa1, 0x65] := ha.string _ (by decide)
  have hh : a.appendString (bytes "h") = [0xa1, 0x68] := ha.string _ (by decide)
  rw [encodeFields, length_fieldList, hlead]
  cases hb : b.handshake with
  | none => simp [marshalMsg, fieldList, hb, hf, he]
  | some h => simp [marshalMsg, fieldList, hb, hf, he, hh]

def copyField (b : Batch) (key : GoString) (z : Batch) : Batch where
  fromNode := if key = bytes "f" then b.fromNode else z.fromNode
  entries := if key = bytes "e" then b.entries else z.entries
  handshake :=
    if key = bytes "h" then
      b.handshake.map (fun h => h.mergeInto (z.handshake.getD Handshake.zero))
    else z.handshake

theorem reads_makeEntries {n : ℕ} (h : n ≤ maxSlices) :
    Reads .malformed (makeEntries maxSlices n) [] () := by
  rw [makeEntries, if_neg (by omega)]
  exact reads_pure ()

theorem reads_field (ha : a.Short) (hr : r.UndoStream a maxLen) {b : Batch}
    (hb : b.Representable maxLen maxSlices) {f : GoString × GoString} (hf : f ∈ b.fieldList a)
    (z : Batch) : Reads .malformed (field r maxSlices f.1 z) f.2 (b.copyField f.1 z) := by
  rcases List.mem_cons.1 hf with rfl | hf
  · exact (hr.string _ hb.fromNode).map (fun s => { z with fromNode := s })
  rcases List.mem_cons.1 hf with rfl | hf
  · have hentries := reads_replicate (fun raw hraw => hr.bytes raw (hb.entry raw hraw))
    exact (hr.arrayHeader _ hb.entries.1).bind ((reads_makeEntries hb.entries.2).bind
      (hentries.map (fun es => { z with entries := es })))
  · obtain ⟨h, hh, rfl⟩ := List.mem_map.1 hf
    have hmem : b.handshake = some h := Option.mem_toList.1 hh
    have hread := (Handshake.reads_decodeMsg ha hr (hb.handshake h hmem)
      (z.handshake.getD Handshake.zero)).map some
    have hnil (x : Option UInt8) (hx : x ≠ some 0xc0) : r.isNil x = false :=
      Bool.eq_false_iff.2 (fun h => hx ((hr.isNil x).1 h))
    have hpeek := hread.peek (r := (fun _ => none) <$> r.readNil) h.head?_marshalMsg.1
      (hnil _ h.head?_marshalMsg.2) (hnil none (by simp))
    have hcopy : b.copyField (bytes "h") z =
        { z with handshake := some (h.mergeInto (z.handshake.getD Handshake.zero)) } := by
      simp only [copyField, hmem]
      rfl
    rw [hcopy]
    exact hpeek.map (fun h => { z with handshake := h })

theorem keys_fieldList (b : Batch) : ∀ f ∈ b.fieldList a, f.1 ≠ [] ∧ f.1.length ≤ 32 := by
  cases hb : b.handshake with
  | none => simp [fieldList, hb, bytes]
  | some h => simp [fieldList, hb, bytes]

theorem foldl_copyField (b : Batch) :
    (b.fieldList a).foldl (fun z f => b.copyField f.1 z) zero = b := by
  obtain ⟨fromNode, entries, handshake⟩ := b
  cases handshake with
  | none => rfl
  | some h => exact congrArg (fun h => Batch.mk fromNode entries (some h)) h.mergeInto_zero

/-- A batch is read back into a new one. -/
theorem reads_decodeMsg (ha : a.Short) (hr : r.UndoStream a maxLen) {b : Batch}
    (hb : b.Representable maxLen maxSlices) :
    Reads .malformed (zero.decodeMsg r maxSlices) (b.marshalMsg a) b := by
  have hlen : (b.fieldList a).length < 2 ^ 32 := by
    rw [length_fieldList]
    omega
  have hkey : ∀ f ∈ b.fieldList a, Reads .malformed r.readMapKeyPtr (a.appendString f.1) f.1 :=
    fun f hf => hr.mapKey f.1 (b.keys_fieldList f hf).1
      ((b.keys_fieldList f hf).2.trans hr.keys_fit)
  have hread := reads_readMap (hr.mapHeader _ hlen) hkey
    (fun f hf z => reads_field ha hr hb hf z) zero
  rwa [foldl_copyField, ← marshalMsg_eq ha] at hread

theorem authToken_decodeMsg (hstring : Slices r.readString) {bts rest : GoString} {b : Batch}
    (hrun : (zero.decodeMsg r maxSlices).run bts = .ok (b, rest)) :
    ∀ h ∈ b.handshake, h.authToken <:+: bts := by
  refine readMap_invariant (P := fun b : Batch => ∀ h ∈ b.handshake, h.authToken <:+: bts) ?_
    List.suffix_rfl (by simp [zero]) hrun
  intro key y bs y' rest hbs hy hfield
  unfold field at hfield
  split_ifs at hfield
  · obtain ⟨s, -, rfl⟩ := run_map_eq_ok.1 hfield
    exact hy
  · obtain ⟨n, mid, -, hmake⟩ := run_bind_eq_ok.1 hfield
    obtain ⟨-, mid', -, hentries⟩ := run_bind_eq_ok.1 hmake
    obtain ⟨es, -, rfl⟩ := run_map_eq_ok.1 hentries
    exact hy
  · obtain ⟨hs, hread, rfl⟩ := run_map_eq_ok.1 hfield
    intro h hh
    have hh : hs = some h := hh
    rcases run_peek_eq_ok hread with hnil | hread
    · obtain ⟨-, -, rfl⟩ := run_map_eq_ok.1 hnil
      cases hh
    · obtain ⟨h', hdecode, hsome⟩ := run_map_eq_ok.1 hread
      obtain rfl := Option.some.inj (hsome.trans hh)
      refine Handshake.authToken_decodeMsg hstring hbs ?_ hdecode
      cases hold : y.handshake with
      | none => exact List.nil_infix
      | some z => exact hy z hold
  · obtain ⟨-, -, rfl⟩ := run_map_eq_ok.1 hfield
    exact hy

/-- The batches that can be read one after the other, and the failure that ends them. -/
def arriving (r : Readers) (maxSlices : ℕ) (bts : GoString) : List Batch × Failure :=
  readAll _ (consumes_decodeMsg r maxSlices zero) bts

theorem arriving_of_error {bts : GoString} {f : Failure}
    (h : (zero.decodeMsg r maxSlices).run bts = .error f) : arriving r maxSlices bts = ([], f) :=
  readAll_of_error _ h

theorem arriving_of_ok {bts rest : GoString} {b : Batch}
    (h : (zero.decodeMsg r maxSlices).run bts = .ok (b, rest)) : arriving r maxSlices bts =
      (b :: (arriving r maxSlices rest).1, (arriving r maxSlices rest).2) :=
  readAll_of_ok _ h

/-- What arrives of batches that were written one after the other and cut off. -/
theorem arriving_take (ha : a.Short) (hr : r.UndoStream a maxLen) {bs : List Batch}
    (hbs : ∀ b ∈ bs, b.Representable maxLen maxSlices) (n : ℕ) :
    arriving r maxSlices ((bs.flatMap (marshalMsg a)).take n) =
      (whole (marshalMsg a) n bs, .malformed) :=
  readAll_take _ (fun b hb => reads_decodeMsg ha hr (hbs b hb))
    (run_bind_of_error (hr.run_nil ha)) n

/-- A batch that announces too many entries ends the process, whatever follows. -/
theorem run_decodeMsg_announced (ha : a.Short) (hr : r.UndoStream a maxLen) {n : ℕ}
    (hn : n < 2 ^ 32) (hmemory : maxSlices < n) (rest : GoString) :
    (zero.decodeMsg r maxSlices).run ([0x81, 0xa1, 0x65] ++ a.appendArrayHeader n ++ rest) =
      .error .outOfMemory := by
  have hone : a.appendMapHeader 1 = [0x81] := ha.mapHeader 1 (by norm_num)
  have hkey : a.appendString (bytes "e") = [0xa1, 0x65] := ha.string _ (by decide)
  have hheader := hr.mapHeader 1 (by norm_num)
  have hname := hr.mapKey (bytes "e") (by decide) (le_trans (by decide) hr.keys_fit)
  rw [hone] at hheader
  rw [hkey] at hname
  have hbytes : [0x81, 0xa1, 0x65] ++ a.appendArrayHeader n ++ rest =
      [0x81] ++ ([0xa1, 0x65] ++ (a.appendArrayHeader n ++ rest)) := by simp
  have hfield : (field r maxSlices (bytes "e") zero).run (a.appendArrayHeader n ++ rest) =
      .error .outOfMemory := by
    change (r.readArrayHeader >>= _).run _ = _
    rw [run_bind_of_ok ((hr.arrayHeader n hn).whole rest)]
    refine run_bind_of_error ?_
    rw [makeEntries, if_pos hmemory]
    rfl
  rw [hbytes, decodeMsg, readMap, run_bind_of_ok (hheader.whole _)]
  refine run_bind_of_error ?_
  rw [run_bind_of_ok (hname.whole _), hfield]

end Batch

end Capacitor
