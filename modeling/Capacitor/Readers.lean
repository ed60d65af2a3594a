import Capacitor.ValueMap

/-!
# The readers

`Get`, `GetScan` and `Exists` as the caller sees them. A Go value is a string, a byte slice or
anything else; a string and a byte slice are served as they are, anything else in its encoding, and
`GetScan` hands a value over as it is when the destination has its type. A value that was decoded on
another node often has another type than the one that was set, which the readers do not show: what
they return is the same on both nodes when the serialisation keeps strings and byte slices, encodes
what it has decoded as it was, and decodes into a type what a value of this type was encoded to.
-/

namespace Capacitor

variable {W T : Type*}

inductive GoValue (W : Type*) where
  | string (s : GoString)
  | byteSlice (b : GoString)
  | other (w : W)
  deriving DecidableEq

/-- The type of what the destination of `GetScan` points to, which is empty before the call. -/
inductive Dest (T : Type*) where
  | string
  | byteSlice
  | other (type : T)
  deriving DecidableEq

inductive ScanError where
  | errorf (text : GoString)
  | marshal
  | unmarshal
  deriving DecidableEq

/-- The serialisation, which also decodes into a destination of a given type, and the types of the
values that are neither strings nor byte slices. -/
structure GoCodec (W T : Type*) extends Msgpack (GoValue W) where
  typeOf : W → T
  unmarshalInto : T → GoString → Option (Option (GoValue W))

namespace GoCodec

variable (gc : GoCodec W T)

def destOf : GoValue W → Dest T
  | .string _ => .string
  | .byteSlice _ => .byteSlice
  | .other w => .other (gc.typeOf w)

def raw : GoValue W → Option GoString
  | .string s => some s
  | .byteSlice b => some b
  | .other w => gc.marshal (some (.other w))

def text : Option (GoValue W) → GoString
  | none => []
  | some v => (gc.raw v).getD []

def unmarshalRaw (type : T) (v : GoValue W) : Except ScanError (Option (GoValue W)) :=
  match gc.raw v with
  | none => .error .marshal
  | some bin =>
      match gc.unmarshalInto type bin with
      | none => .error .unmarshal
      | some res => .ok res

def scan [DecidableEq T] (dest : Dest T) (v : GoValue W) : Except ScanError (Option (GoValue W)) :=
  if gc.destOf v = dest then .ok (some v)
  else match dest with
    | .string => .ok (some (.string ((gc.raw v).getD [])))
    | .byteSlice => .ok (some (.byteSlice ((gc.raw v).getD [])))
    | .other type => gc.unmarshalRaw type v

def getInternal (s : Store (GoValue W)) (key : GoString) (now : Int64) : GoString :=
  gc.text (s.get key now)

def getScanInternal [DecidableEq T] (s : Store (GoValue W)) (key : GoString) (dest : Dest T)
    (now : Int64) : Except ScanError (Option (GoValue W)) :=
  match s.get key now with
  | none => .error (.errorf (bytes "capacitor: key " ++ key ++ bytes " not found"))
  | some rawVal => gc.scan dest rawVal

/-- A value that is set comes back as itself, or, when it is neither a string nor a byte slice, as
one with the same encoding; and both are what their encoding gives when it is decoded into their
types. -/
def Survives : Option (GoValue W) → Prop
  | some (.other w) => ∃ bin w', gc.marshal (some (.other w)) = some bin ∧
      gc.unmarshal bin = some (.other w') ∧ gc.marshal (some (.other w')) = some bin ∧
      gc.unmarshalInto (gc.typeOf w) bin = some (some (.other w)) ∧
      gc.unmarshalInto (gc.typeOf w') bin = some (some (.other w'))
  | v => gc.toMsgpack.RoundTrips v

variable {gc} [DecidableEq T]

theorem scan_string (v : GoValue W) :
    gc.scan .string v = .ok (some (.string (gc.text (some v)))) := by
  cases v <;> rfl

theorem scan_other {w : W} {bin : GoString} (hmarshal : gc.marshal (some (.other w)) = some bin)
    (hinto : gc.unmarshalInto (gc.typeOf w) bin = some (some (.other w))) (type : T) :
    gc.scan (.other type) (.other w) = gc.unmarshalRaw type (.byteSlice bin) := by
  unfold scan
  split_ifs with htype
  · cases htype
    simp only [unmarshalRaw, raw, hinto]
  · simp only [unmarshalRaw, raw, hmarshal]

/-- All that the serialisation and the readers see of a value. -/
def view (gc : GoCodec W T) (v : GoValue W) :
    Option GoString × (Dest T → Except ScanError (Option (GoValue W))) :=
  (gc.marshal (some v), fun dest => gc.scan dest v)

def viewCodec (gc : GoCodec W T) :
    Msgpack (Option GoString × (Dest T → Except ScanError (Option (GoValue W)))) where
  marshal v := v.elim (gc.marshal none) Prod.fst
  unmarshal bin := (gc.unmarshal bin).map gc.view

theorem carries_view (gc : GoCodec W T) : gc.toMsgpack.Carries gc.view gc.viewCodec where
  marshal v := by cases v <;> rfl
  unmarshal _ := rfl

theorem Survives.roundTrips {v : Option (GoValue W)} (h : gc.Survives v) :
    gc.viewCodec.RoundTrips (v.map gc.view) := by
  have hsame (hv : gc.toMsgpack.RoundTrips v) : gc.viewCodec.RoundTrips (v.map gc.view) := by
    obtain ⟨bin, hmarshal, hunmarshal⟩ := hv
    refine ⟨bin, ?_, ?_⟩
    · rw [gc.carries_view.marshal, hmarshal]
    · rw [gc.carries_view.unmarshal, hunmarshal]
  cases v with
  | none => exact hsame h
  | some v =>
      cases v with
      | string s => exact hsame h
      | byteSlice b => exact hsame h
      | other w =>
          obtain ⟨bin, w', hmarshal, hunmarshal, hmarshal', hinto, hinto'⟩ := h
          refine ⟨bin, hmarshal, ?_⟩
          rw [gc.carries_view.unmarshal, hunmarshal]
          refine congrArg some (Prod.ext (hmarshal'.trans hmarshal.symm) (funext fun dest => ?_))
          cases dest with
          | string => simp only [view, scan_string, text, raw, hmarshal, hmarshal']
          | byteSlice => simp [view, scan, destOf, raw, hmarshal, hmarshal']
          | other type =>
              exact (scan_other hmarshal' hinto' type).trans (scan_other hmarshal hinto type).symm

theorem readers_eq_of_view {s s' : Store (GoValue W)} {key : GoString} {now : Int64}
    (h : (s.get key now).map gc.view = (s'.get key now).map gc.view) :
    gc.getInternal s key now = gc.getInternal s' key now ∧
      ∀ dest, gc.getScanInternal s key dest now = gc.getScanInternal s' key dest now := by
  unfold getInternal getScanInternal
  cases hv : s.get key now with
  | none =>
      rw [hv, Option.map_none, eq_comm, Option.map_eq_none_iff] at h
      rw [h]
      exact ⟨rfl, fun _ => rfl⟩
  | some v =>
      rw [hv, Option.map_some, eq_comm, Option.map_eq_some_iff] at h
      obtain ⟨v', hv', hview⟩ := h
      have hscan (dest : Dest T) : gc.scan dest v = gc.scan dest v' :=
        (congrFun (congrArg Prod.snd hview) dest).symm
      have htext := hscan .string
      rw [scan_string, scan_string] at htext
      rw [hv']
      exact ⟨GoValue.string.inj (Option.some.inj (Except.ok.inj htext)), hscan⟩

end GoCodec

def RegisterCall.Survives (gc : GoCodec W T) : RegisterCall (GoValue W) → Prop
  | .set _ value => gc.Survives value
  | .delete _ => True

namespace CallPair

variable {gc : GoCodec W T} {c : Codec} {s t : CallPair (GoValue W)}

/-- As `Undisturbed`, but that a value need not come back as itself. -/
def Readable (c : Codec) (gc : GoCodec W T) (s : CallPair (GoValue W)) :
    CallPairAction (GoValue W) → Prop
  | .stamp x call wall =>
      let o := call.stamped ((s.pair x).node.replica.hlc.now wall).2
      call.Survives gc ∧ ∀ p ∈ s.issued, p.2.key = o.key → p.2.ts = o.ts → p.2.entry = o.entry
  | a => Undisturbed c gc.toMsgpack s a

variable [DecidableEq T]

theorem Readable.undisturbed {a : CallPairAction (GoValue W)} (ha : Readable c gc s a) :
    Undisturbed c gc.viewCodec (s.map gc.view) (a.map gc.view) := by
  cases a with
  | stamp x call wall =>
      obtain ⟨hsurvives, hapart⟩ := ha
      constructor
      · cases call with
        | set key value => exact GoCodec.Survives.roundTrips hsurvives
        | delete key => trivial
      · intro p hp hkey hts
        obtain ⟨q, hq, rfl⟩ := List.mem_map.1 hp
        simp only [RegisterCall.map_stamped, RegisterOp.map_key, RegisterOp.map_ts,
          RegisterOp.map_entry] at hkey hts ⊢
        exact congrArg _ (hapart q hq hkey hts)
  | store x k => trivial
  | append x k bornAt => exact Undisturbed.map gc.carries_view ha (fun _ _ _ h => by cases h)
  | increment x key delta => exact ha
  | getNodeCount x key => trivial
  | appendCount x key nodeVal wall bornAt => exact ha
  | transport a => exact Undisturbed.map gc.carries_view ha (fun _ _ _ h => by cases h)

/-- Whatever the two nodes are called with and however their steps interleave, when there is nothing
left to do `Get`, `GetScan` and `Exists` return the same on both. -/
theorem quiet_readers_agree [Rounding] (c : Codec) (gc : GoCodec W T) {nodeID : Bool → GoString}
    (hinj : Function.Injective nodeID) (hcolon : ∀ x, colon ∉ nodeID x) (authToken : GoString)
    (hlc : Bool → HLC) (capacity : Bool → ℕ) {as : List (CallPairAction (GoValue W))}
    (hreadable : StepSystem.Along (step c gc.toMsgpack) (Readable c gc)
      (initial nodeID authToken hlc capacity) as)
    (hexact : StepSystem.Along (step c gc.toMsgpack) (Exact c)
      (initial nodeID authToken hlc capacity) as)
    (hrun : StepSystem.run (step c gc.toMsgpack) (initial nodeID authToken hlc capacity) as =
      some s)
    (hquiet : s.Quiet) (key : GoString) (now : Int64) :
    gc.getInternal (s.pair false).node.replica.store key now =
        gc.getInternal (s.pair true).node.replica.store key now ∧
      (∀ dest, gc.getScanInternal (s.pair false).node.replica.store key dest now =
        gc.getScanInternal (s.pair true).node.replica.store key dest now) ∧
      (s.pair false).node.replica.store.exists? key now =
        (s.pair true).node.replica.store.exists? key now := by
  rw [StepSystem.run_of_step_eq step_of_exact hexact] at hrun
  have hreadable := StepSystem.along_of_step_eq step_of_exact hexact hreadable
  have hstep (s : CallPair (GoValue W)) (a : CallPairAction (GoValue W)) (_ : Readable c gc s a) :=
    map_step gc.carries_view c s a
  have hrun' := StepSystem.run_relabel hstep hreadable
  rw [hrun, Option.map_some, map_initial] at hrun'
  have hundisturbed := StepSystem.along_relabel hstep (fun _ _ ha => ha.undisturbed) hreadable
  rw [map_initial] at hundisturbed
  have hconverging : Converging c gc.viewCodec nodeID (s.map gc.view) :=
    StepSystem.run_invariant_along (fun _ _ _ h ha hstep => h.step hinj hcolon ha hstep)
      (initial_converging c gc.viewCodec nodeID authToken hlc capacity) hundisturbed hrun'
  obtain ⟨hget, hexists⟩ := hquiet.map_get_eq hconverging key now
  obtain ⟨htext, hscan⟩ := GoCodec.readers_eq_of_view hget
  exact ⟨htext, hscan, hexists⟩

section Float64

attribute [local instance] Rounding.nearest

abbrev Number := Bool × UInt8

/-- A serialisation that writes a wide number as a narrow one. -/
def numberCodec : GoCodec Number Bool where
  marshal
    | none => some [0xc0]
    | some (.string s) => some (0xd9 :: s)
    | some (.byteSlice b) => some (0xc4 :: b)
    | some (.other w) => some [0xcc, w.2]
  unmarshal
    | 0xd9 :: s => some (.string s)
    | 0xc4 :: b => some (.byteSlice b)
    | [0xcc, n] => some (.other (false, n))
    | _ => none
  typeOf := Prod.fst
  unmarshalInto
    | type, [0xcc, n] => some (some (.other (type, n)))
    | _, _ => none

theorem numberCodec_survives (v : Option (GoValue Number)) : numberCodec.Survives v := by
  cases v with
  | none => exact ⟨_, rfl, rfl⟩
  | some v =>
      cases v with
      | string s => exact ⟨_, rfl, rfl⟩
      | byteSlice b => exact ⟨_, rfl, rfl⟩
      | other w => exact ⟨_, (false, w.2), rfl, rfl, rfl, rfl, rfl⟩

theorem numberCodec_call (call : RegisterCall (GoValue Number)) : call.Survives numberCodec := by
  cases call with
  | set key value => exact numberCodec_survives value
  | delete key => trivial

instance (c : Codec) (s : CallPair (GoValue Number)) :
    (a : CallPairAction (GoValue Number)) → Decidable (Readable c numberCodec s a)
  | .stamp x call wall =>
      let o := call.stamped ((s.pair x).node.replica.hlc.now wall).2
      decidable_of_iff (∀ p ∈ s.issued, p.2.key = o.key → p.2.ts = o.ts → p.2.entry = o.entry)
        ⟨fun h => ⟨numberCodec_call call, h⟩, fun h => h.2⟩
  | .store x k => inferInstanceAs (Decidable (Undisturbed c numberCodec.toMsgpack s (.store x k)))
  | .append x k bornAt =>
      inferInstanceAs (Decidable (Undisturbed c numberCodec.toMsgpack s (.append x k bornAt)))
  | .increment x key delta =>
      inferInstanceAs (Decidable (Undisturbed c numberCodec.toMsgpack s (.increment x key delta)))
  | .getNodeCount x key =>
      inferInstanceAs (Decidable (Undisturbed c numberCodec.toMsgpack s (.getNodeCount x key)))
  | .appendCount x key nodeVal wall bornAt =>
      inferInstanceAs (Decidable (Undisturbed c numberCodec.toMsgpack s
        (.appendCount x key nodeVal wall bornAt)))
  | .transport a =>
      inferInstanceAs (Decidable (Undisturbed c numberCodec.toMsgpack s (.transport a)))

/-- Each node makes two calls, and the wide number arrives as a narrow one. The handshake of the
second node takes the cursor of the first one back, which then sends its entries again. -/
def mixedRun : List (CallPairAction (GoValue Number)) :=
  [.stamp false (.set (bytes "k") (some (.other (true, 7)))) 10, .store false 0, .append false 0 0,
    .stamp true (.set (bytes "t") (some (.string (bytes "x")))) 11, .store true 0, .append true 0 0,
    .stamp true (.set (bytes "b") (some (.byteSlice (bytes "y")))) 12, .store true 0,
    .append true 0 0, .stamp false (.delete (bytes "t")) 13, .store false 0, .append false 0 0] ++
    (crossingSteps ++ Pair.drawRun false ++ Pair.writeRun false ++ Pair.readRun false 0 22 ++
      [PairAction.apply false 0 22]).map .transport

theorem mixedRun_isSome : (StepSystem.run (step naturalCodec numberCodec.toMsgpack)
    (initial twoNodeIDs [] (fun _ => newHLC 9) (fun _ => 8)) mixedRun).isSome = true := by
  decide +kernel

theorem quiet_readers_agree_mixed :
    ∃ s, StepSystem.run (step naturalCodec numberCodec.toMsgpack)
        (initial twoNodeIDs [] (fun _ => newHLC 9) (fun _ => 8)) mixedRun = some s ∧
      (s.pair false).node.replica.store.get (bytes "k") 20 = some (.other (true, 7)) ∧
      (s.pair true).node.replica.store.get (bytes "k") 20 = some (.other (false, 7)) ∧
      ∀ dest, numberCodec.getScanInternal (s.pair false).node.replica.store (bytes "k") dest 20 =
        numberCodec.getScanInternal (s.pair true).node.replica.store (bytes "k") dest 20 := by
  refine ⟨_, (Option.some_get mixedRun_isSome).symm, by decide +kernel, by decide +kernel, ?_⟩
  exact (quiet_readers_agree naturalCodec numberCodec (by decide) (by decide) []
    (fun _ => newHLC 9) (fun _ => 8) (by decide +kernel) (by decide +kernel)
    (Option.some_get mixedRun_isSome).symm (by decide +kernel) (bytes "k") 20).2.1

end Float64

end CallPair

end Capacitor
