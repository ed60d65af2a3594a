import Capacitor.StepSystem
import Capacitor.Registers

/-!
# Late writes and the janitor

An entry guards its key against late writes: a write that is not newer than the entry held is
dropped. The janitor removes an entry whose time is over, and the guard goes with it, since nothing
else remembers the timestamp. A late write that arrives then is stored, and is served unless its own
time is over as well. `Audit` keeps the writes a store was handed and the last reading of the clock
beside the store, to say which entries have been superseded.
-/

namespace Capacitor

open Store

variable {V : Type*}

structure Audit (V : Type*) where
  store : Store V
  clock : Int64
  applied : List (RegisterOp V)

inductive AuditAction (V : Type*) where
  | write (o : RegisterOp V)
  | pruneExpiredKeys (i : Fin numShards) (now : Int64)
  | get (key : GoString) (now : Int64)

namespace Audit

def step (h : Audit V) : AuditAction V → Option (Audit V)
  | .write o => some { h with store := o.apply h.store, applied := o :: h.applied }
  | .pruneExpiredKeys i now =>
      if h.clock ≤ now then some { h with store := h.store.pruneExpiredKeys i now, clock := now }
      else none
  | .get _ now => if h.clock ≤ now then some { h with clock := now } else none

/-- The entry whose value a `get` at the reading `now` would return. -/
def served (h : Audit V) (key : GoString) (now : Int64) : Option (ValWithTS V) :=
  (h.store.replicated.cache (slot key)).filter (fun e => live e now)

/-- No `get` returns the value of a write older than one that was applied to its key. -/
def NoneStale (h : Audit V) : Prop :=
  ∀ key now x, h.clock ≤ now → h.served key now = some x →
    ∀ o ∈ h.applied, o.key = key → o.ts ≤ x.timestamp

/-- A write is no older than the writes already applied to its key, or its key still holds an entry
that drops it, or what it stores can no longer be served. -/
def Guarded (h : Audit V) : AuditAction V → Prop
  | .write o =>
      (∀ o' ∈ h.applied, o'.key = o.key → o'.ts ≤ o.ts) ∨
        (∃ x, h.store.replicated.cache (slot o.key) = some x ∧ o.ts ≤ x.timestamp) ∨
        live o.entry h.clock = false
  | _ => True

theorem get_eq_served (h : Audit V) (key : GoString) (now : Int64) :
    h.store.get key now = (h.served key now).bind ValWithTS.value :=
  h.store.get_eq key now

theorem live_of_le {e : ValWithTS V} {now later : Int64} (hle : now ≤ later)
    (h : live e later = true) : live e now = true := by
  simp only [live, Bool.and_eq_true, Bool.not_eq_true', Bool.and_eq_false_iff, gt_iff_lt,
    decide_eq_false_iff_not, Int64.lt_iff_toInt_lt] at h ⊢
  rw [Int64.le_iff_toInt_le] at hle
  exact ⟨h.1, h.2.imp_right (fun hx => by omega)⟩

theorem served_eq_some_iff {h : Audit V} {key : GoString} {now : Int64} {x : ValWithTS V} :
    h.served key now = some x ↔
      h.store.replicated.cache (slot key) = some x ∧ live x now = true :=
  Option.filter_eq_some_iff

theorem NoneStale.of_subset {h t : Audit V} (hs : h.NoneStale) (hclock : h.clock ≤ t.clock)
    (happlied : t.applied = h.applied)
    (hcache : ∀ p x, t.store.replicated.cache p = some x → h.store.replicated.cache p = some x) :
    t.NoneStale := by
  intro key now x hnow hx
  obtain ⟨hx, hlive⟩ := served_eq_some_iff.1 hx
  rw [happlied]
  exact hs key now x (Int64.le_trans hclock hnow) (served_eq_some_iff.2 ⟨hcache _ _ hx, hlive⟩)

variable {h t : Audit V} {o : RegisterOp V}

theorem NoneStale.write (hs : h.NoneStale) (hguard : h.Guarded (.write o))
    (hstep : h.step (.write o) = some t) : t.NoneStale := by
  cases hstep
  intro key now x hnow hx o' ho' hkey
  obtain ⟨hx, hlive⟩ := served_eq_some_iff.1 hx
  dsimp only at hx hnow ho'
  rw [RegisterOp.cache_apply] at hx
  by_cases hsame : o.key = key
  · subst hsame
    rcases LastWriter.write_apply_self ValWithTS.timestamp h.store.replicated.cache (slot o.key)
      o.entry with ⟨y, hy, hle, hw⟩ | hw
    · obtain rfl := Option.some.inj (hw.symm.trans hx)
      rw [RegisterOp.entry_timestamp] at hle
      rcases List.mem_cons.1 ho' with rfl | ho'
      · exact hle
      · exact hs o.key now y hnow (served_eq_some_iff.2 ⟨hy, hlive⟩) o' ho' hkey
    · obtain rfl := Option.some.inj (hw.symm.trans hx)
      rw [RegisterOp.entry_timestamp]
      rcases List.mem_cons.1 ho' with rfl | ho'
      · exact le_rfl
      rcases hguard with hlate | ⟨y, hy, hle⟩ | hdead
      · exact hlate o' ho' hkey
      · rw [LastWriter.write_of_dominated _ hy (by rwa [RegisterOp.entry_timestamp])] at hw
        obtain rfl := Option.some.inj (hy.symm.trans hw)
        rw [← RegisterOp.entry_timestamp o]
        exact hs o.key now o.entry hnow (served_eq_some_iff.2 ⟨hy, hlive⟩) o' ho' hkey
      · rw [live_of_le hnow hlive] at hdead
        cases hdead
  · have hne : slot key ≠ slot o.key := fun heq => hsame (slot_injective heq).symm
    rw [LastWriter.write_apply_ne _ hne] at hx
    rcases List.mem_cons.1 ho' with rfl | ho'
    · exact absurd hkey hsame
    · exact hs key now x hnow (served_eq_some_iff.2 ⟨hx, hlive⟩) o' ho' hkey

theorem NoneStale.guarded (ht : t.NoneStale) (hstep : h.step (.write o) = some t) :
    h.Guarded (.write o) := by
  cases hstep
  rcases LastWriter.write_apply_self ValWithTS.timestamp h.store.replicated.cache (slot o.key)
    o.entry with ⟨y, hy, hle, -⟩ | hw
  · rw [RegisterOp.entry_timestamp] at hle
    exact Or.inr (Or.inl ⟨y, hy, hle⟩)
  · cases hlive : live o.entry h.clock with
    | false => exact Or.inr (Or.inr hlive)
    | true =>
        refine Or.inl (fun o' ho' hkey => ?_)
        rw [← RegisterOp.entry_timestamp o]
        refine ht o.key h.clock o.entry (Int64.le_refl _) ?_ o' (List.mem_cons_of_mem _ ho') hkey
        exact served_eq_some_iff.2 ⟨by rw [RegisterOp.cache_apply]; exact hw, hlive⟩

theorem guarded_iff {a : AuditAction V} (hs : h.NoneStale) (hstep : h.step a = some t) :
    h.Guarded a ↔ t.NoneStale := by
  cases a with
  | write o => exact ⟨fun hguard => hs.write hguard hstep, fun ht => ht.guarded hstep⟩
  | pruneExpiredKeys i now =>
      simp only [step] at hstep
      split_ifs at hstep with hclock
      cases hstep
      exact iff_of_true trivial (hs.of_subset hclock rfl (fun _ _ => mem_cache_pruneExpiredKeys))
  | get key now =>
      simp only [step] at hstep
      split_ifs at hstep with hclock
      cases hstep
      exact iff_of_true trivial (hs.of_subset hclock rfl (fun _ _ hx => hx))

/-- A superseded value is never returned in a run of writes, janitor passes and reads exactly when
every write that is older than one already applied to its key is dropped by the entry of that key or
is out of date when it arrives. -/
theorem none_stale_iff_guarded (s : Store V) (clock : Int64) (as : List (AuditAction V)) :
    (∀ bs t, bs <+: as → StepSystem.run step ⟨s, clock, []⟩ bs = some t → t.NoneStale) ↔
      StepSystem.Along step Guarded ⟨s, clock, []⟩ as := by
  refine (StepSystem.along_iff_forall_run ?_ (fun s a t hs hstep => guarded_iff hs hstep) ?_
    as).symm
  · intro h a _ hnone
    cases a with
    | write o => cases hnone
    | pruneExpiredKeys i now => trivial
    | get key now => trivial
  · intro key now x _ _ o ho
    cases ho

def lateRun : List (AuditAction UInt8) :=
  [.write (.set (bytes "k") (some 2) ⟨200, 0⟩ 10),
    .pruneExpiredKeys (shardIndex (bytes "k")) 211,
    .write (.set (bytes "k") (some 1) ⟨100, 0⟩ 0)]

/-- The older value is returned after the janitor has removed the newer one. -/
theorem late_write_resurrects : ∃ t : Audit UInt8,
    StepSystem.run step ⟨Store.newStore, 0, []⟩ lateRun = some t ∧
      t.store.get (bytes "k") 212 = some 1 ∧
      RegisterOp.set (bytes "k") (some 2) ⟨200, 0⟩ 10 ∈ t.applied ∧ ¬ t.NoneStale := by
  refine ⟨_, rfl, by decide +kernel, by decide +kernel, ?_⟩
  intro h
  exact absurd (h (bytes "k") 212 (setEntry (some 1) ⟨100, 0⟩ 0) (by decide) (by decide +kernel)
    (.set (bytes "k") (some 2) ⟨200, 0⟩ 10) (by decide +kernel) rfl) (by decide +kernel)

end Audit
end Capacitor
