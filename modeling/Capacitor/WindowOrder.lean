import Capacitor.StepSystem
import Capacitor.Windows

/-!
# The order of window lists

An event from another node is inserted in its place, and a local one is appended. A call then cuts
as many events off the front as are older than its horizon, and the janitor looks at the last event
alone, so both rely on the order of the list. The order is kept as long as the events of concurrent
calls are appended in the order of their timestamps.
-/

namespace Capacitor

variable {V : Type*}

theorem drop_countP_eq_filter_iff {α : Type*} (p : α → Bool) (l : List α) :
    l.drop (l.countP p) = l.filter (fun a => !p a) ↔
      l.Pairwise (fun a b => p b = true → p a = true) := by
  induction l with
  | nil => simp
  | cons a l ih =>
      rw [List.pairwise_cons, ← ih]
      cases ha : p a with
      | true => simp [List.countP_cons_of_pos ha, ha]
      | false =>
          have hneg : ¬ p a = true := by simp [ha]
          rw [List.countP_cons_of_neg hneg, List.filter_cons_of_pos (by simp [ha])]
          constructor
          · intro h
            cases hk : l.countP p with
            | zero =>
                have hnone := List.countP_eq_zero.1 hk
                refine ⟨fun b hb hpb => absurd hpb (hnone b hb), ?_⟩
                rw [List.drop_zero]
                exact (List.filter_eq_self.2 (fun b hb => by simpa using hnone b hb)).symm
            | succ k =>
                rw [hk, List.drop_succ_cons] at h
                have hdrop : (l.drop k).countP p = 0 := by
                  rw [h, List.countP_cons_of_neg hneg, List.countP_filter]
                  simp
                have htake : (l.take k).countP p ≤ k :=
                  List.countP_le_length.trans (List.length_take_le k l)
                have hsplit : l.countP p = (l.take k).countP p + (l.drop k).countP p := by
                  rw [← List.countP_append, List.take_append_drop]
                omega
          · rintro ⟨hall, -⟩
            have hnone : ∀ b ∈ l, ¬ p b = true := fun b hb hpb =>
              Bool.false_ne_true (hall b hb hpb)
            rw [List.countP_eq_zero.2 hnone, List.drop_zero]
            rw [List.filter_eq_self.2 (fun b hb => by simpa using hnone b hb)]

theorem insertEvent_cons (ts t : Int64) (win : List Int64) :
    insertEvent ts (t :: win) =
      if t = ts then t :: win else if ts < t then ts :: t :: win
      else t :: insertEvent ts win := by
  unfold insertEvent
  rw [windowIndex]
  split_ifs
  · rfl
  · rfl
  · cases windowIndex ts win <;> rfl

theorem pairwise_insertEvent {R : Int64 → Int64 → Prop} (hlt : ∀ a b, a < b → R a b)
    (hle : ∀ a b, R a b → a ≤ b) {win : List Int64} (h : win.Pairwise R) (ts : Int64) :
    (insertEvent ts win).Pairwise R := by
  induction win with
  | nil => exact List.pairwise_singleton R ts
  | cons t win ih =>
      obtain ⟨hhead, htail⟩ := List.pairwise_cons.1 h
      rw [insertEvent_cons]
      split_ifs with heq hgt
      · exact h
      · refine List.pairwise_cons.2 ⟨fun b hb => hlt ts b ?_, h⟩
        rcases List.mem_cons.1 hb with rfl | hb
        · exact hgt
        · exact Int64.lt_of_lt_of_le hgt (hle t b (hhead b hb))
      · refine List.pairwise_cons.2 ⟨fun b hb => ?_, ih htail⟩
        rcases mem_insertEvent.1 hb with rfl | hb
        · exact hlt t b (Int64.lt_of_le_of_ne (Int64.not_lt.1 hgt) heq)
        · exact hhead b hb

section Union

def Store.addWindowTimestamps (s : Store V) (key : GoString) (tss : List Int64) : Store V :=
  tss.foldl (fun s ts => s.addWindowTimestamp key ts) s

theorem pairwise_addWindowTimestamps {s : Store V} {key : GoString}
    (h : (s.getWindow key).Pairwise (· < ·)) (tss : List Int64) :
    ((s.addWindowTimestamps key tss).getWindow key).Pairwise (· < ·) := by
  induction tss generalizing s with
  | nil => exact h
  | cons ts tss ih =>
      apply ih
      rw [Store.getWindow_addWindowTimestamp, if_pos rfl]
      exact pairwise_insertEvent (fun _ _ => id) (fun _ _ => Int64.le_of_lt) h ts

theorem mem_addWindowTimestamps (s : Store V) (key : GoString) (tss : List Int64) (t : Int64) :
    t ∈ (s.addWindowTimestamps key tss).getWindow key ↔ t ∈ s.getWindow key ∨ t ∈ tss := by
  induction tss generalizing s with
  | nil => simp [Store.addWindowTimestamps]
  | cons ts tss ih =>
      change t ∈ ((s.addWindowTimestamp key ts).addWindowTimestamps key tss).getWindow key ↔ _
      rw [ih, Store.getWindow_addWindowTimestamp, if_pos rfl, mem_insertEvent, List.mem_cons]
      tauto

/-- Events from other nodes are merged as a sorted set: a window in strict order stays so, holds
what it held and what was delivered, and does not depend on order or repetition of delivery. -/
theorem window_merge_is_union {s : Store V} {key : GoString}
    (h : (s.getWindow key).Pairwise (· < ·)) :
    (∀ tss, ((s.addWindowTimestamps key tss).getWindow key).Pairwise (· < ·) ∧
      ∀ t, t ∈ (s.addWindowTimestamps key tss).getWindow key ↔ t ∈ s.getWindow key ∨ t ∈ tss) ∧
    ∀ tss tss', (∀ t, t ∈ tss ↔ t ∈ tss') →
      (s.addWindowTimestamps key tss).getWindow key =
        (s.addWindowTimestamps key tss').getWindow key := by
  refine ⟨fun tss => ⟨pairwise_addWindowTimestamps h tss, mem_addWindowTimestamps s key tss⟩, ?_⟩
  intro tss tss' hsame
  apply (pairwise_addWindowTimestamps h tss).eq_of_mem_iff (pairwise_addWindowTimestamps h tss')
  intro t
  rw [mem_addWindowTimestamps, mem_addWindowTimestamps, hsame]

def oneEvent : Store UInt8 := Store.newStore.addWindowTimestamp (bytes "k") 15

theorem getWindow_oneEvent : oneEvent.getWindow (bytes "k") = [15] := by decide +kernel

theorem window_merge_is_union_oneEvent :
    oneEvent.getWindow (bytes "k") = [15] ∧
      (oneEvent.addWindowTimestamps (bytes "k") [30, 10, 20]).getWindow (bytes "k") =
        (oneEvent.addWindowTimestamps (bytes "k") [10, 20, 10, 30]).getWindow (bytes "k") := by
  have hsorted : (oneEvent.getWindow (bytes "k")).Pairwise (· < ·) := by
    rw [getWindow_oneEvent]
    exact List.pairwise_singleton _ _
  refine ⟨getWindow_oneEvent, (window_merge_is_union hsorted).2 _ _ (fun t => ?_)⟩
  simp only [List.mem_cons, List.not_mem_nil, or_false]
  tauto

end Union

section Trimming

/-- A cut is exact when it leaves the events that are not older than the horizon. -/
theorem appendEvent_eq_filter_iff (ts horizon : Int64) (win : List Int64) :
    appendEvent ts horizon win = (win ++ [ts]).filter (fun t => t ≥ horizon) ↔
      (win ++ [ts]).Pairwise (fun a b => b < horizon → a < horizon) := by
  have hfilter : (win ++ [ts]).filter (fun t => t ≥ horizon) =
      (win ++ [ts]).filter (fun t => !decide (t < horizon)) := by
    congr 1
    funext t
    rw [← decide_not]
    exact decide_eq_decide.2 Int64.not_lt.symm
  rw [hfilter]
  exact (drop_countP_eq_filter_iff _ _).trans (by simp only [decide_eq_true_eq])

/-- No event that stays in the window is later than the one that is appended. -/
def AppendsInOrder (ts horizon : Int64) (win : List Int64) : Prop :=
  ∀ t ∈ win, ts < t → t < horizon

instance (ts horizon : Int64) (win : List Int64) : Decidable (AppendsInOrder ts horizon win) :=
  List.decidableBAll (fun t => ts < t → t < horizon) win

theorem pairwise_append_event {ts : Int64} {win : List Int64} (h : win.Pairwise (· ≤ ·))
    (hlast : ∀ t ∈ win, t ≤ ts) : (win ++ [ts]).Pairwise (· ≤ ·) := by
  refine List.pairwise_append.2 ⟨h, List.pairwise_singleton _ _, ?_⟩
  intro a ha b hb
  rw [List.mem_singleton.1 hb]
  exact hlast a ha

theorem appendEvent_of_appendsInOrder {ts horizon : Int64} {win : List Int64}
    (h : win.Pairwise (· ≤ ·)) (hts : AppendsInOrder ts horizon win) :
    appendEvent ts horizon win = (win ++ [ts]).filter (fun t => t ≥ horizon) ∧
      (appendEvent ts horizon win).Pairwise (· ≤ ·) := by
  have hexact : (win ++ [ts]).Pairwise (fun a b => b < horizon → a < horizon) ∧
      ((win ++ [ts]).filter (fun t => t ≥ horizon)).Pairwise (· ≤ ·) := by
    by_cases hlast : ∀ t ∈ win, t ≤ ts
    · have hsorted := pairwise_append_event h hlast
      refine ⟨hsorted.imp (fun hle hlt => Int64.lt_of_le_of_lt hle hlt), hsorted.filter _⟩
    · push Not at hlast
      obtain ⟨t, ht, hlt⟩ := hlast
      have hold : ∀ a ∈ win ++ [ts], a < horizon := by
        intro a ha
        have hhorizon := hts t ht (Int64.not_le.1 hlt)
        by_cases hle : a ≤ ts
        · exact Int64.lt_trans (Int64.lt_of_le_of_lt hle (Int64.not_le.1 hlt)) hhorizon
        · rcases List.mem_append.1 ha with ha | ha
          · exact hts a ha (Int64.not_le.1 hle)
          · rw [List.mem_singleton.1 ha] at hle
            exact absurd (Int64.le_refl ts) hle
      have hnil : (win ++ [ts]).filter (fun t => t ≥ horizon) = [] := by
        refine List.filter_eq_nil_iff.2 (fun a ha => ?_)
        simpa [Int64.not_le] using hold a ha
      rw [hnil]
      refine ⟨?_, List.Pairwise.nil⟩
      exact List.pairwise_of_forall_mem_list (fun a ha _ _ _ => hold a ha)
  have heq := (appendEvent_eq_filter_iff ts horizon win).2 hexact.1
  exact ⟨heq, heq ▸ hexact.2⟩

theorem appendEvent_ne_filter {ts horizon a b : Int64} {win : List Int64}
    (hab : [a, b].Sublist (win ++ [ts])) (hb : b < horizon) (ha : ¬ a < horizon) :
    appendEvent ts horizon win ≠ (win ++ [ts]).filter (fun t => t ≥ horizon) := by
  intro h
  have hpair := ((appendEvent_eq_filter_iff ts horizon win).1 h).sublist hab
  exact ha (List.rel_of_pairwise_cons hpair List.mem_cons_self hb)

end Trimming

/-- A node, and the timestamps of the calls that have read the clock and not yet reached the
store. -/
structure WindowCalls (V : Type*) where
  replica : Replica V
  stamped : List Timestamp

inductive WindowCallAction where
  | now (wall : Int64)
  | store (key : GoString) (ts : Timestamp) (window now : Int64)
  | deliver (wall : Int64) (e : LogEntry)

namespace WindowCalls

def start (hlc : HLC) : WindowCalls V := ⟨⟨Store.newStore, hlc⟩, []⟩

def step (mp : Msgpack V) (s : WindowCalls V) : WindowCallAction → Option (WindowCalls V)
  | .now wall =>
      let (hlc, ts) := s.replica.hlc.now wall
      some ⟨{ s.replica with hlc := hlc }, ts :: s.stamped⟩
  | .store key ts window now =>
      if ts ∈ s.stamped then
        some ⟨{ s.replica with
          store := (s.replica.store.incrementSlidingWindow key ts.physical window now).1 },
          s.stamped.erase ts⟩
      else none
  | .deliver wall e =>
      if e.op = .window then some { s with replica := applyRemoteEntry mp s.replica wall e }
      else none

/-- No event that stays in the window is later than the one a call appends. -/
def InOrder (s : WindowCalls V) : WindowCallAction → Prop
  | .store key ts window now => ts ∈ s.stamped →
      AppendsInOrder ts.physical (now - window) (s.replica.store.getWindow key)
  | .now _ | .deliver _ _ => True

instance (s : WindowCalls V) : (a : WindowCallAction) → Decidable (s.InOrder a)
  | .store _ _ _ _ => inferInstanceAs (Decidable (_ → _))
  | .now _ | .deliver _ _ => isTrue trivial

/-- A call leaves the events within its window, in their order, and returns their number. -/
def TrimsExactly (s : WindowCalls V) : WindowCallAction → Prop
  | .store key ts window now => ts ∈ s.stamped →
      (s.replica.store.incrementSlidingWindow key ts.physical window now).1.getWindow key =
        (s.replica.store.getWindow key ++ [ts.physical]).filter (fun t => t ≥ now - window) ∧
      (s.replica.store.incrementSlidingWindow key ts.physical window now).2 =
        ((s.replica.store.getWindow key ++ [ts.physical]).filter
          (fun t => t ≥ now - window)).length
  | .now _ | .deliver _ _ => True

def Ordered (s : WindowCalls V) : Prop :=
  ∀ key, (s.replica.store.getWindow key).Pairwise (· ≤ ·)

theorem ordered_start (hlc : HLC) : (start hlc : WindowCalls V).Ordered :=
  fun _ => List.Pairwise.nil

variable {mp : Msgpack V} {s t : WindowCalls V}

theorem ordered_step {a : WindowCallAction} (h : s.Ordered) (ha : s.InOrder a)
    (ht : step mp s a = some t) : t.Ordered := by
  intro key'
  cases a with
  | now wall =>
      obtain rfl := Option.some.inj ht
      exact h key'
  | store key ts window now =>
      simp only [step] at ht
      split_ifs at ht with hts
      obtain rfl := Option.some.inj ht
      dsimp only
      rw [Store.getWindow_incrementSlidingWindow]
      split_ifs
      · exact (appendEvent_of_appendsInOrder (h key) (ha hts)).2
      · exact h key'
  | deliver wall e =>
      simp only [step] at ht
      split_ifs at ht with hop
      obtain rfl := Option.some.inj ht
      cases hacc : s.replica.hlc.smash wall e.ts with
      | true =>
          rw [applyRemoteEntry_of_smash hacc]
          exact h key'
      | false =>
          rw [Store.getWindow_applyRemoteEntry hop hacc]
          split_ifs
          · exact pairwise_insertEvent (fun _ _ => Int64.le_of_lt) (fun _ _ => id) (h e.key) _
          · exact h key'

theorem trimsExactly_store_iff {key : GoString} {ts : Timestamp} {window now : Int64}
    (hts : ts ∈ s.stamped) : s.TrimsExactly (.store key ts window now) ↔
      appendEvent ts.physical (now - window) (s.replica.store.getWindow key) =
        (s.replica.store.getWindow key ++ [ts.physical]).filter (fun t => t ≥ now - window) := by
  simp only [TrimsExactly, hts, forall_const, Store.getWindow_incrementSlidingWindow, if_pos]
  exact and_iff_left List.countP_eq_length_filter

theorem trimsExactly_of_inOrder {a : WindowCallAction} (h : s.Ordered) (ha : s.InOrder a) :
    s.TrimsExactly a := by
  cases a with
  | store key ts window now =>
      intro hts
      exact (trimsExactly_store_iff hts).2 (appendEvent_of_appendsInOrder (h key) (ha hts)).1 hts
  | now wall => trivial
  | deliver wall e => trivial

theorem not_trimsExactly_next (mp : Msgpack V) {key : GoString} {a b : Int64} (hba : b < a)
    (hab : [a, b].Sublist (s.replica.store.getWindow key)) :
    ∃ cs, ¬ StepSystem.Along (step mp) TrimsExactly s cs := by
  let ts := (s.replica.hlc.now 0).2
  let u : WindowCalls V := ⟨{ s.replica with hlc := (s.replica.hlc.now 0).1 }, ts :: s.stamped⟩
  have hnow : step mp s (.now 0) = some u := rfl
  have hts : ts ∈ u.stamped := List.mem_cons_self
  refine ⟨[.now 0, .store key ts 0 a], fun h => ?_⟩
  have htrims := (StepSystem.along_cons h hnow).2.1
  rw [trimsExactly_store_iff hts, Int64.sub_zero] at htrims
  exact appendEvent_ne_filter (hab.trans (List.sublist_append_left _ _)) hba Int64.lt_irrefl
    htrims

theorem exists_not_trimsExactly (mp : Msgpack V) {a : WindowCallAction} (ha : ¬ s.InOrder a) :
    ∃ cs, ¬ StepSystem.Along (step mp) TrimsExactly s (a :: cs) := by
  by_cases hexact : s.TrimsExactly a
  · cases a with
    | now wall => exact absurd trivial ha
    | deliver wall e => exact absurd trivial ha
    | store key ts window now =>
        simp only [InOrder, AppendsInOrder] at ha
        push Not at ha
        obtain ⟨hts, t, ht, hlt, hstays⟩ := ha
        have hpair : [t, ts.physical].Sublist (s.replica.store.getWindow key ++ [ts.physical]) :=
          (List.singleton_sublist.2 ht).append (List.Sublist.refl [ts.physical])
        have hcut := (trimsExactly_store_iff hts).1 hexact
        have hkept : ¬ ts.physical < now - window := fun hold =>
          appendEvent_ne_filter hpair hold hstays hcut
        let u : WindowCalls V := ⟨{ s.replica with
          store := (s.replica.store.incrementSlidingWindow key ts.physical window now).1 },
          s.stamped.erase ts⟩
        have hstep : step mp s (.store key ts window now) = some u := if_pos hts
        have hwindow : u.replica.store.getWindow key =
            (s.replica.store.getWindow key ++ [ts.physical]).filter
              (fun t => t ≥ now - window) := (hexact hts).1
        have hpair' : [t, ts.physical].Sublist (u.replica.store.getWindow key) := by
          rw [hwindow]
          have hfilter := hpair.filter (fun t => t ≥ now - window)
          rwa [List.filter_eq_self.2] at hfilter
          intro x hx
          rcases List.mem_cons.1 hx with rfl | hx
          · simpa [Int64.not_lt] using hstays
          · rw [List.mem_singleton.1 hx]
            simpa [Int64.not_lt] using hkept
        obtain ⟨cs, hcs⟩ := not_trimsExactly_next mp hlt hpair'
        exact ⟨cs, fun h => hcs (StepSystem.along_cons h hstep).2⟩
  · exact ⟨[], fun h => hexact h.1⟩

/-- Calls trim their windows exactly in every run in which events are appended in order; a run in
which one is not can go on to a call that trims too much or too little. -/
theorem trims_exactly_in_order (mp : Msgpack V) (hlc : HLC) (as : List WindowCallAction) :
    (StepSystem.Along (step mp) InOrder (start hlc) as →
      StepSystem.Along (step mp) TrimsExactly (start hlc) as) ∧
    (¬ StepSystem.Along (step mp) InOrder (start hlc) as →
      ∃ bs cs, bs <+: as ∧ ¬ StepSystem.Along (step mp) TrimsExactly (start hlc) (bs ++ cs)) := by
  have hstep : ∀ (s : WindowCalls V) a t, s.Ordered → s.InOrder a → step mp s a = some t →
      t.Ordered := fun s a t h ha ht => ordered_step h ha ht
  constructor
  · intro h
    exact StepSystem.along_of_along hstep (fun s a => trimsExactly_of_inOrder) (ordered_start hlc)
      h
  · intro h
    exact StepSystem.exists_not_along hstep (fun s a _ => exists_not_trimsExactly mp)
      (ordered_start hlc) h

def inOrderRun : List WindowCallAction :=
  [.now 10, .store (bytes "k") ⟨10, 0⟩ 100 11, .now 20,
    .deliver 21 (windowLogEntry ⟨15, 0⟩ (bytes "k") (bytes "b")),
    .store (bytes "k") ⟨20, 0⟩ 8 22]

theorem trims_exactly_in_order_inOrderRun :
    (StepSystem.run (step byteMsgpack) (start (newHLC 9)) inOrderRun).map
        (fun s => s.replica.store.getWindow (bytes "k")) = some [15, 20] ∧
      StepSystem.Along (step byteMsgpack) TrimsExactly (start (newHLC 9)) inOrderRun := by
  refine ⟨by decide +kernel, ?_⟩
  exact (trims_exactly_in_order byteMsgpack (newHLC 9) inOrderRun).1 (by decide +kernel)

def overtakenRun : List WindowCallAction :=
  [.now 10, .now 20, .store (bytes "k") ⟨20, 0⟩ 100 20]

theorem overtakenRun_isSome :
    (StepSystem.run (step byteMsgpack) (start (newHLC 9)) overtakenRun).isSome = true := by
  decide +kernel

/-- The first call then finds its own event too old and cuts off the other one: it keeps the event
that has left the window and loses the one that is in it. -/
theorem overtaken_call_trims_wrong_event :
    ∃ s, StepSystem.run (step byteMsgpack) (start (newHLC 9)) overtakenRun = some s ∧
      (⟨10, 0⟩ : Timestamp) ∈ s.stamped ∧ s.replica.store.getWindow (bytes "k") = [20] ∧
      (s.replica.store.incrementSlidingWindow (bytes "k") 10 5 21).1.getWindow (bytes "k") =
        [10] ∧
      ([20, 10] : List Int64).filter (fun t => t ≥ 21 - 5) = [20] := by
  refine ⟨_, (Option.some_get overtakenRun_isSome).symm, ?_⟩
  decide +kernel

end WindowCalls

section Janitor

/-- The janitor passes over a shard at each of the given readings. -/
def Store.pruneWindows (s : Store V) (passes : List (Fin numShards × Int64)) : Store V :=
  passes.foldl (fun s p => s.pruneStaleWindows p.1 p.2) s

theorem getWindow_pruneWindows (s : Store V) (passes : List (Fin numShards × Int64))
    (key : GoString) : (s.pruneWindows passes).getWindow key =
      if ∃ p ∈ passes, p.1 = shardIndex key ∧
          ∃ newest ∈ (s.getWindow key).getLast?, p.2 - newest > hour then []
      else s.getWindow key := by
  induction passes generalizing s with
  | nil => simp [Store.pruneWindows]
  | cons p passes ih =>
      change ((s.pruneStaleWindows p.1 p.2).pruneWindows passes).getWindow key = _
      rw [ih, Store.getWindow_pruneStaleWindows]
      by_cases hp : shardIndex key = p.1 ∧
          ∃ newest ∈ (s.getWindow key).getLast?, p.2 - newest > hour
      · rw [if_pos hp, ite_self, if_pos ⟨p, List.mem_cons_self, hp.1.symm, hp.2⟩]
      · rw [if_neg hp]
        simp only [List.exists_mem_cons_iff]
        congr 1
        exact propext ⟨Or.inr, fun h => h.resolve_left (fun h => hp ⟨h.1.symm, h.2⟩)⟩

theorem le_of_mem_getLast? {win : List Int64} (h : win.Pairwise (· ≤ ·)) {newest t : Int64}
    (hlast : newest ∈ win.getLast?) (ht : t ∈ win) : t ≤ newest := by
  obtain ⟨older, rfl⟩ := List.getLast?_eq_some_iff.1 hlast
  rcases List.mem_append.1 ht with ht | ht
  · exact (List.pairwise_append.1 h).2.2 t ht newest List.mem_cons_self
  · rw [List.mem_singleton.1 ht]
    exact Int64.le_refl newest

theorem count_incrementSlidingWindow (s : Store V) (key : GoString) (ts window now : Int64) :
    (s.incrementSlidingWindow key ts window now).2 =
      (s.getWindow key).countP (fun t => t ≥ now - window) +
        [ts].countP (fun t => t ≥ now - window) :=
  List.countP_append

/-- A pass of the janitor that empties the window is seen by those who reach its newest event. -/
theorem countP_pruneWindows_iff {s : Store V} {key : GoString}
    (h : (s.getWindow key).Pairwise (· ≤ ·)) (passes : List (Fin numShards × Int64))
    (horizon : Int64) :
    ((s.pruneWindows passes).getWindow key).countP (fun t => t ≥ horizon) =
        (s.getWindow key).countP (fun t => t ≥ horizon) ↔
      ∀ newest ∈ (s.getWindow key).getLast?, newest ≥ horizon →
        ∀ p ∈ passes, p.1 = shardIndex key → ¬ p.2 - newest > hour := by
  rw [getWindow_pruneWindows]
  split_ifs with hstale
  · obtain ⟨p, hp, hshard, newest, hlast, hold⟩ := hstale
    have hcount : ([] : List Int64).countP (fun t => decide (t ≥ horizon)) = 0 := rfl
    rw [hcount, eq_comm, List.countP_eq_zero]
    constructor
    · intro hnone newest' hlast' hreach
      obtain ⟨older, hwin⟩ := List.getLast?_eq_some_iff.1 hlast'
      exact absurd (decide_eq_true hreach) (hnone newest' (by rw [hwin]; simp))
    · intro hnot t ht hreach
      have hle := le_of_mem_getLast? h hlast ht
      exact hnot newest hlast (Int64.le_trans (of_decide_eq_true hreach) hle) p hp hshard hold
  · refine iff_of_true rfl (fun newest hlast _ p hp hshard hold => ?_)
    exact hstale ⟨p, hp, hshard, newest, hlast, hold⟩

/-- The count of a call is the one it would be without the passes of the janitor exactly when no
pass found the newest event more than an hour old that the window of the call still reaches. -/
theorem janitor_unobservable_iff {s : Store V} {key : GoString}
    (h : (s.getWindow key).Pairwise (· ≤ ·)) (passes : List (Fin numShards × Int64))
    (ts window now : Int64) :
    ((s.pruneWindows passes).incrementSlidingWindow key ts window now).2 =
        (s.incrementSlidingWindow key ts window now).2 ↔
      ∀ newest ∈ (s.getWindow key).getLast?, newest ≥ now - window →
        ∀ p ∈ passes, p.1 = shardIndex key → ¬ p.2 - newest > hour := by
  rw [count_incrementSlidingWindow, count_incrementSlidingWindow, Nat.add_right_cancel_iff]
  exact countP_pruneWindows_iff h passes (now - window)

theorem janitor_unobservable_of_le_hour {s : Store V} {key : GoString}
    (h : (s.getWindow key).Pairwise (· ≤ ·)) (hpos : ∀ t ∈ s.getWindow key, 0 ≤ t)
    {passes : List (Fin numShards × Int64)} {ts window now : Int64}
    (hpasses : ∀ p ∈ passes, 0 ≤ p.2 ∧ p.2 ≤ now) (hwindow : 0 ≤ window ∧ window ≤ hour) :
    ((s.pruneWindows passes).incrementSlidingWindow key ts window now).2 =
      (s.incrementSlidingWindow key ts window now).2 := by
  rw [count_incrementSlidingWindow, count_incrementSlidingWindow, Nat.add_right_cancel_iff,
    countP_pruneWindows_iff h]
  intro newest hlast hreach p hp _ hold
  have hnewest := hpos newest (List.mem_of_mem_getLast? hlast)
  obtain ⟨hp0, hpnow⟩ := hpasses p hp
  obtain ⟨hw0, hw⟩ := hwindow
  have hnow := now.toInt_lt
  have hsub (a b : Int64) (ha : 0 ≤ a) (hb : 0 ≤ b) : (a - b).toInt = a.toInt - b.toInt := by
    rw [Int64.le_iff_toInt_le] at ha hb
    have ha' := a.toInt_lt
    have hb' := b.toInt_lt
    rw [Int64.toInt_sub, Int.bmod_eq_of_le]
    · simp only [Int64.toInt_zero] at ha hb
      omega
    · simp only [Int64.toInt_zero] at ha hb
      omega
  have hreach' : (now - window).toInt ≤ newest.toInt := Int64.le_iff_toInt_le.1 hreach
  have hold' : hour.toInt < (p.2 - newest).toInt := Int64.lt_iff_toInt_lt.1 hold
  rw [hsub now window (Int64.le_trans hp0 hpnow) hw0] at hreach'
  rw [hsub p.2 newest hp0 hnewest] at hold'
  rw [Int64.le_iff_toInt_le] at hpnow hw
  omega

/-- The pass comes when the event is an hour old and not older. -/
theorem janitor_unobservable_iff_oneEvent :
    ((oneEvent.pruneWindows [(shardIndex (bytes "k"), hour + 15)]).incrementSlidingWindow
        (bytes "k") (hour + 17) (2 * hour) (hour + 17)).2 =
      (oneEvent.incrementSlidingWindow (bytes "k") (hour + 17) (2 * hour) (hour + 17)).2 := by
  have hsorted : (oneEvent.getWindow (bytes "k")).Pairwise (· ≤ ·) := by
    rw [getWindow_oneEvent]
    exact List.pairwise_singleton _ _
  refine (janitor_unobservable_iff hsorted _ _ _ _).2 (fun newest hlast _ p hp _ => ?_)
  rw [getWindow_oneEvent] at hlast
  obtain rfl := Option.some.inj hlast
  rw [List.mem_singleton.1 hp]
  decide

/-- The pass comes one nanosecond later, and a call that asks for two hours counts only itself. -/
theorem pruned_window_undercounts :
    ((oneEvent.pruneWindows [(shardIndex (bytes "k"), hour + 16)]).incrementSlidingWindow
        (bytes "k") (hour + 17) (2 * hour) (hour + 17)).2 = 1 ∧
      (oneEvent.incrementSlidingWindow (bytes "k") (hour + 17) (2 * hour) (hour + 17)).2 = 2 := by
  decide +kernel

end Janitor

end Capacitor
