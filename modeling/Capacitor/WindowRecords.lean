import Capacitor.Entries
import Capacitor.Windows

/-!
# The records of window events

Every event of a window is a record of its own, whose key spells the name of the window and the
timestamp in decimal. The loader reads both back and appends the timestamp to the window of that
name, so that a load rebuilds each window from the records that name it.
-/

namespace Capacitor

variable {V : Type*}

section Decimal

def decimal (n : ℕ) : GoString :=
  if n = 0 then [48] else (Nat.digits 10 n).reverse.map (fun d => 48 + d.toUInt8)

theorem formatInt_eq (i : ℤ) :
    formatInt i = (if i < 0 then [45] else []) ++ decimal i.natAbs := by
  simp only [formatInt, decimal, Int.natAbs_eq_zero]

theorem digit_byte : ∀ d < 10, 48 ≤ (48 + d.toUInt8 : UInt8) ∧ (48 + d.toUInt8 : UInt8) ≤ 57 ∧
    (48 + d.toUInt8 - 48 : UInt8).toNat = d := by
  decide

theorem decimal_ne_nil (n : ℕ) : decimal n ≠ [] := by
  unfold decimal
  split_ifs with hn
  · exact List.cons_ne_nil _ _
  · simpa [Nat.digits_eq_nil_iff_eq_zero] using hn

theorem digit_of_mem_decimal {n : ℕ} {b : UInt8} (hb : b ∈ decimal n) : 48 ≤ b ∧ b ≤ 57 := by
  unfold decimal at hb
  split_ifs at hb with hn
  · rw [List.mem_singleton.1 hb]
    decide
  · obtain ⟨d, hd, rfl⟩ := List.mem_map.1 hb
    have hlt : d < 10 := Nat.digits_lt_base (by decide) (List.mem_reverse.1 hd)
    exact ⟨(digit_byte d hlt).1, (digit_byte d hlt).2.1⟩

theorem colon_notMem_formatInt (i : ℤ) : colon ∉ formatInt i := by
  intro h
  rw [formatInt_eq, List.mem_append] at h
  rcases h with hsign | hdigit
  · split_ifs at hsign with hneg
    · exact absurd (List.mem_singleton.1 hsign) (by decide)
    · cases hsign
  · exact absurd (digit_of_mem_decimal hdigit).2 (by decide)

theorem le_foldl_digits (ds : List ℕ) (n : ℕ) : n ≤ ds.foldl (fun n d => 10 * n + d) n := by
  induction ds generalizing n with
  | nil => exact le_rfl
  | cons d ds ih =>
      have hrest := ih (10 * n + d)
      rw [List.foldl_cons]
      omega

theorem parseUint_digits {ds : List ℕ} (hds : ∀ d ∈ ds, d < 10) {n : ℕ}
    (hn : ds.foldl (fun n d => 10 * n + d) n < 2 ^ 64) :
    parseUint n (ds.map (fun d => 48 + d.toUInt8)) = some (ds.foldl (fun n d => 10 * n + d) n) := by
  induction ds generalizing n with
  | nil => rfl
  | cons d ds ih =>
      obtain ⟨hlow, hhigh, hdigit⟩ := digit_byte d (hds d List.mem_cons_self)
      have hfits := (le_foldl_digits ds (10 * n + d)).trans_lt hn
      rw [List.map_cons, parseUint, if_pos ⟨hlow, hhigh⟩, hdigit, if_pos hfits]
      exact ih (fun d' hd' => hds d' (List.mem_cons_of_mem _ hd')) hn

theorem parseUint_decimal {n : ℕ} (hn : n < 2 ^ 64) : parseUint 0 (decimal n) = some n := by
  have hvalue : (Nat.digits 10 n).reverse.foldl (fun n d => 10 * n + d) 0 = n := by
    rw [List.foldl_reverse]
    have hdigits := Nat.ofDigits_digits 10 n
    rw [Nat.ofDigits_eq_foldr] at hdigits
    simpa only [add_comm, Nat.cast_id] using hdigits
  unfold decimal
  split_ifs with hzero
  · subst hzero
    rfl
  · have hlt : ∀ d ∈ (Nat.digits 10 n).reverse, d < 10 := fun d hd =>
      Nat.digits_lt_base (by decide) (List.mem_reverse.1 hd)
    rw [parseUint_digits hlt (by rwa [hvalue]), hvalue]

theorem head?_decimal_ne {n : ℕ} {b : UInt8} (hb : b < 48) : (decimal n).head? ≠ some b := by
  intro h
  have hmem : b ∈ decimal n := List.mem_of_head? h
  exact absurd (digit_of_mem_decimal hmem).1 (UInt8.not_le.2 hb)

/-- `strconv.ParseInt` reads back what `%d` writes. -/
theorem parseInt_formatInt (ts : Int64) : parseInt (formatInt ts.toInt) = ts := by
  have hlow := Int64.le_toInt ts
  have hhigh := Int64.toInt_lt ts
  have hparse : parseUint 0 (decimal ts.toInt.natAbs) = some ts.toInt.natAbs :=
    parseUint_decimal (by omega)
  have hdigits := decimal_ne_nil ts.toInt.natAbs
  rw [formatInt_eq]
  by_cases hneg : ts.toInt < 0
  · have hmax : max (-(ts.toInt.natAbs : ℤ)) (-2 ^ 63) = ts.toInt := by omega
    rw [if_pos hneg, List.singleton_append]
    simp only [parseInt, List.head?_cons, true_or, if_true, List.tail_cons, hdigits, if_false,
      hparse]
    rw [hmax, Int64.ofInt_toInt]
  · have hmin : min (ts.toInt.natAbs : ℤ) (2 ^ 63 - 1) = ts.toInt := by omega
    have hminus : (decimal ts.toInt.natAbs).head? ≠ some 45 := head?_decimal_ne (by decide)
    have hplus : (decimal ts.toInt.natAbs).head? ≠ some 43 := head?_decimal_ne (by decide)
    rw [if_neg hneg, List.nil_append]
    simp only [parseInt, hminus, hplus, or_self, if_false, hdigits, hparse]
    rw [hmin, Int64.ofInt_toInt]

end Decimal

theorem windowKey_inj {k k' : GoString} {ts ts' : Int64} (h : windowKey k ts = windowKey k' ts') :
    k = k' ∧ ts = ts' := by
  obtain ⟨hk, hformat⟩ := compositeKey_inj (colon_notMem_formatInt _) (colon_notMem_formatInt _) h
  refine ⟨hk, ?_⟩
  rw [← parseInt_formatInt ts, hformat, parseInt_formatInt]

theorem ne_windowKey {k' : GoString} (hk' : colon ∉ k') (k : GoString) (ts : Int64) :
    k' ≠ windowKey k ts := by
  rintro rfl
  exact hk' (List.mem_append_right _ (List.mem_append_right _ List.mem_cons_self))

/-- The window and the timestamp that `load` reads off a key. -/
def windowEvent (key : GoString) : Option (GoString × Int64) :=
  match recordKind key with
  | .window =>
      match key.splitOn colon with
      | _ :: name :: ts :: _ => some (name, parseInt ts)
      | _ => none
  | _ => none

theorem windowEvent_windowKey {k : GoString} (hk : colon ∉ k) (ts : Int64) :
    windowEvent (windowKey k ts) = some (k, ts) := by
  have hsplit : (windowKey k ts).splitOn colon = [bytes "sw", k, formatInt ts.toInt] := by
    change (bytes "sw" ++ colon :: (k ++ colon :: formatInt ts.toInt)).splitOn colon = _
    rw [List.splitOn_append_cons_self_of_not_mem (by decide),
      List.splitOn_append_cons_self_of_not_mem hk,
      List.splitOn_eq_singleton (colon_notMem_formatInt _)]
  simp only [windowEvent, recordKind_windowKey, hsplit, parseInt_formatInt]

theorem shardIndex_of_windowEvent {key name : GoString} {ts : Int64}
    (h : windowEvent key = some (name, ts)) : shardIndex key = shardIndex name := by
  have hparts : ∃ a ts' rest, key.splitOn colon = a :: name :: ts' :: rest := by
    unfold windowEvent at h
    split at h
    · split at h
      · next a name' ts' rest hsplit =>
          cases h
          exact ⟨a, ts', rest, hsplit⟩
      · cases h
    · cases h
  obtain ⟨a, ts', rest, hsplit⟩ := hparts
  by_cases hkey : colon ∈ key
  · obtain ⟨x, tail, rfl, hx⟩ := List.eq_append_cons_of_mem hkey
    rw [List.splitOn_append_cons_self_of_not_mem hx] at hsplit
    obtain ⟨-, htail⟩ := List.cons.inj hsplit
    by_cases hcolon : colon ∈ tail
    · obtain ⟨y, tail', rfl, hy⟩ := List.eq_append_cons_of_mem hcolon
      rw [List.splitOn_append_cons_self_of_not_mem hy] at htail
      obtain ⟨rfl, -⟩ := List.cons.inj htail
      exact shardIndex_append_colon hx hy tail'
    · rw [List.splitOn_eq_singleton hcolon] at htail
      cases htail
  · rw [List.splitOn_eq_singleton hkey] at hsplit
    cases hsplit

/-- The event that a record gives to the window `k`. -/
def eventOf (k : GoString) (w : GoString × Record) : Option Int64 :=
  (windowEvent w.1).bind (fun event => if event.1 = k then some event.2 else none)

theorem eventOf_eq_some {k : GoString} {w : GoString × Record} {ts : Int64} :
    eventOf k w = some ts ↔ windowEvent w.1 = some (k, ts) := by
  unfold eventOf
  cases windowEvent w.1 with
  | none => simp
  | some event => simp [Prod.ext_iff]

def loadedEvents (k : GoString) (items : List (GoString × Record)) : List Int64 :=
  items.filterMap (eventOf k)

theorem mem_loadedEvents {k : GoString} {items : List (GoString × Record)} {ts : Int64} :
    ts ∈ loadedEvents k items ↔ ∃ w ∈ items, windowEvent w.1 = some (k, ts) := by
  simp only [loadedEvents, List.mem_filterMap, eventOf_eq_some]

theorem loadedEvents_append (k : GoString) (items : List (GoString × Record))
    (w : GoString × Record) : loadedEvents k (items ++ [w]) = loadedEvents k items ++
      match windowEvent w.1 with
      | some (name, ts) => if name = k then [ts] else []
      | none => [] := by
  unfold loadedEvents
  rw [List.filterMap_append]
  cases hevent : windowEvent w.1 with
  | none => simp [eventOf, hevent]
  | some event =>
      by_cases hname : event.1 = k
      · simp [eventOf, hevent, hname]
      · simp [eventOf, hevent, hname]

section Load

variable (c : DiskCodec V) (now : GoString → Int64)

theorem StoreShard.windows_loadRecord (shard : StoreShard V) (key val : GoString) (now : Int64) :
    (shard.loadRecord c key val now).windows =
      match windowEvent key with
      | some (name, ts) => Function.update shard.windows name
          (some ((shard.windows name).getD [] ++ [ts]))
      | none => shard.windows := by
  rw [loadRecord_eq]
  unfold windowEvent
  cases recordKind key with
  | watermark => rfl
  | count kind => rfl
  | window =>
      dsimp only
      unfold loadWindow
      split <;> simp_all
  | entry =>
      obtain ⟨cache, hload⟩ := shard.exists_loadEntry key now (c.unmarshal val)
      rw [hload]

theorem Store.windows_loadRecord (s : Store V) (w : GoString × Record)
    (p : Fin numShards × GoString) :
    (s.loadRecord c now w).replicated.windows p =
      match windowEvent w.1 with
      | some (name, ts) =>
          if p = slot name then some ((s.replicated.windows p).getD [] ++ [ts])
          else s.replicated.windows p
      | none => s.replicated.windows p := by
  obtain ⟨i, k⟩ := p
  change ((s.loadRecord c now w).shards i).windows k = _
  unfold loadRecord
  rw [shards_modifyShard]
  cases hevent : windowEvent w.1 with
  | none =>
      dsimp only
      split_ifs with hi
      · rw [StoreShard.windows_loadRecord, hevent]
        rfl
      · rfl
  | some event =>
      have hshard := shardIndex_of_windowEvent hevent
      have hslot : (i, k) = slot event.1 ↔ i = shardIndex w.1 ∧ k = event.1 := by
        rw [hshard]
        exact Prod.mk_inj
      simp only [hslot]
      by_cases hi : i = shardIndex w.1
      · rw [if_pos hi, StoreShard.windows_loadRecord, hevent]
        simp only [Function.update_apply, hi, true_and]
        split_ifs with hk
        · rw [hk]
          rfl
        · rfl
      · rw [if_neg hi, if_neg (fun h => hi h.1)]
        rfl

/-- A load rebuilds every window from the records that name it, in the order of their keys. -/
theorem Store.windows_foldl_loadRecord (items : List (GoString × Record)) (k : GoString) :
    (items.foldl (loadRecord c now) newStore).replicated.windows (slot k) =
      if loadedEvents k items = [] then none else some (loadedEvents k items) := by
  induction items using List.reverseRecOn with
  | nil => rfl
  | append_singleton items w ih =>
      rw [List.foldl_append, List.foldl_cons, List.foldl_nil, windows_loadRecord, ih,
        loadedEvents_append]
      cases windowEvent w.1 with
      | none => simp only [List.append_nil]
      | some event =>
          simp only [slot_injective.eq_iff, eq_comm (a := k)]
          by_cases hname : event.1 = k
          · have hold : (if loadedEvents k items = [] then none
                else some (loadedEvents k items)).getD [] = loadedEvents k items := by
              split_ifs with hempty
              · exact hempty.symm
              · rfl
            simp [hname, hold]
          · simp only [hname, if_false, List.append_nil]

theorem Store.getWindow_foldl_loadRecord (items : List (GoString × Record)) (k : GoString) :
    (items.foldl (loadRecord c now) newStore).getWindow k = loadedEvents k items := by
  rw [getWindow_eq, windows_foldl_loadRecord]
  split_ifs with hempty
  · rw [hempty]
    rfl
  · rfl

end Load
end Capacitor
