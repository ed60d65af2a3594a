import Capacitor.StepSystem
import Capacitor.Clock

/-!
# Causality of the hybrid logical clocks of a cluster

A run interleaves `HLC.now` and accepted `HLC.update` calls on any number of nodes, with arbitrary
wall readings. The history records every returned timestamp. Happens-before is defined on the
positions of the history, from the order on each node and from the edges between the issue of a
timestamp and its later acceptance; clocks do not enter its definition. As long as no logical
counter reaches its maximum, later events in this order carry later timestamps.
-/

namespace Capacitor

variable {ι : Type*}

/-- One returned timestamp. `received` is `none` for `HLC.now` and the accepted remote timestamp
for `HLC.update`. -/
structure ClockEvent (ι : Type*) where
  node : ι
  received : Option Timestamp
  ts : Timestamp
  deriving DecidableEq

structure ClockCluster (ι : Type*) where
  clocks : ι → HLC
  history : List (ClockEvent ι)

inductive ClockAction (ι : Type*) where
  | now (i : ι) (wall : Int64)
  | update (i : ι) (wall : Int64) (remote : Timestamp)

namespace ClockCluster

def initial (wall maxOffset : ι → Int64) : ClockCluster ι :=
  ⟨fun i => (newHLC (wall i)).setMaxOffset (maxOffset i), []⟩

/-- `m` directly precedes `n`: both lie on one node, or `m` issued the timestamp `n` accepted. -/
def Precedes (H : List (ClockEvent ι)) (m n : ℕ) : Prop :=
  m < n ∧ ∃ e f, H[m]? = some e ∧ H[n]? = some f ∧
    (e.node = f.node ∨ e.received = none ∧ f.received = some e.ts)

def HappensBefore (H : List (ClockEvent ι)) : ℕ → ℕ → Prop := Relation.TransGen (Precedes H)

structure Causal (s : ClockCluster ι) : Prop where
  counters : ∀ i, (s.clocks i).logical ≠ 2147483647
  issued : ∀ e ∈ s.history, e.ts.logical ≠ 2147483647
  bounded : ∀ e ∈ s.history, e.ts ≤ (s.clocks e.node).time
  ordered : s.history.Pairwise
    (fun e f => e.node = f.node ∨ f.received = some e.ts → e.ts < f.ts)

theorem initial_causal (wall maxOffset : ι → Int64) : (initial wall maxOffset).Causal := by
  constructor
  · intro i
    change (0 : Int32) ≠ 2147483647
    decide
  · simp [initial]
  · simp [initial]
  · simp [initial]

theorem Causal.precedes_lt {s : ClockCluster ι} (h : s.Causal) {m n : ℕ}
    (hprec : Precedes s.history m n) {e f : ClockEvent ι} (he : s.history[m]? = some e)
    (hf : s.history[n]? = some f) : e.ts < f.ts := by
  obtain ⟨hmn, e', f', he', hf', hedge⟩ := hprec
  obtain rfl : e = e' := Option.some.inj (he.symm.trans he')
  obtain rfl : f = f' := Option.some.inj (hf.symm.trans hf')
  obtain ⟨hm, rfl⟩ := List.getElem?_eq_some_iff.1 he
  obtain ⟨hn, rfl⟩ := List.getElem?_eq_some_iff.1 hf
  apply List.pairwise_iff_getElem.1 h.ordered m n hm hn hmn
  exact hedge.imp_right And.right

theorem Causal.happensBefore_lt {s : ClockCluster ι} (h : s.Causal) {m n : ℕ}
    (hb : HappensBefore s.history m n) {e f : ClockEvent ι} (he : s.history[m]? = some e)
    (hf : s.history[n]? = some f) : e.ts < f.ts := by
  induction hb generalizing f with
  | single hp => exact h.precedes_lt hp he hf
  | tail _ hp ih =>
      obtain ⟨_, d, _, hd, _, _⟩ := id hp
      exact (ih hd).trans (h.precedes_lt hp hd hf)

variable [DecidableEq ι]

def record (s : ClockCluster ι) (h : HLC) (e : ClockEvent ι) : ClockCluster ι :=
  ⟨Function.update s.clocks e.node h, s.history ++ [e]⟩

/-- A remote timestamp can only be one that some node issued earlier by `HLC.now`. -/
def step (s : ClockCluster ι) : ClockAction ι → Option (ClockCluster ι)
  | .now i wall =>
      some (s.record ((s.clocks i).now wall).1 ⟨i, none, ((s.clocks i).now wall).2⟩)
  | .update i wall remote =>
      if ∃ e ∈ s.history, e.received = none ∧ e.ts = remote then
        ((s.clocks i).update wall remote).map (fun r => s.record r.1 ⟨i, some remote, r.2⟩)
      else none

/-- The action leaves every logical counter of the cluster below `2 ^ 31 - 1`. -/
def KeepsBelow (s : ClockCluster ι) (a : ClockAction ι) : Prop :=
  ∀ t, s.step a = some t → ∀ i, (t.clocks i).logical ≠ 2147483647

/-- Every step records one event, whose timestamp is the new time of its node and lies above the
node's old time and above the timestamp received. -/
theorem step_records {s t : ClockCluster ι} {a : ClockAction ι} (h : s.Causal)
    (hstep : s.step a = some t) :
    ∃ clock e, t = s.record clock e ∧ clock.time = e.ts ∧ (s.clocks e.node).time < e.ts ∧
      ∀ r, e.received = some r → r < e.ts := by
  cases a with
  | now i wall =>
      simp only [step, Option.some.injEq] at hstep
      refine ⟨_, _, hstep.symm, HLC.time_now _ _, HLC.time_lt_now _ _ (h.counters i), ?_⟩
      intro r hr
      cases hr
  | update i wall remote =>
      simp only [step] at hstep
      split_ifs at hstep with hissued
      obtain ⟨r, hr, ht⟩ := Option.map_eq_some_iff.1 hstep
      obtain ⟨d, hd, _, rfl⟩ := hissued
      obtain ⟨_, hclock, hts⟩ := (HLC.update_eq_some_iff _ _ _ _ _).1 hr
      obtain ⟨hown, hrem⟩ :=
        HLC.lt_merge (s.clocks i) wall d.ts (h.counters i) (fun _ => h.issued d hd)
      rw [← hclock, ← hts] at hown hrem
      refine ⟨_, _, ht.symm, hts.symm, hown, ?_⟩
      intro r' hr'
      cases hr'
      exact hrem

theorem record_causal {s : ClockCluster ι} (h : s.Causal) {clock : HLC} {e : ClockEvent ι}
    (hclock : clock.time = e.ts) (hown : (s.clocks e.node).time < e.ts)
    (hrem : ∀ r, e.received = some r → r < e.ts) (hmax : clock.logical ≠ 2147483647) :
    (s.record clock e).Causal := by
  have hlogical : e.ts.logical = clock.logical := by rw [← hclock]; rfl
  constructor
  · intro i
    by_cases hi : i = e.node
    · subst i
      simpa [record] using hmax
    · simpa [record, hi] using h.counters i
  · intro d hd
    rcases List.mem_append.1 hd with hd | hd
    · exact h.issued d hd
    · rw [List.mem_singleton.1 hd, hlogical]
      exact hmax
  · intro d hd
    rcases List.mem_append.1 hd with hd | hd
    · by_cases hi : d.node = e.node
      · have hle := h.bounded d hd
        rw [hi] at hle
        simp only [record, hi, Function.update_self, hclock]
        exact hle.trans hown.le
      · simpa [record, hi] using h.bounded d hd
    · rw [List.mem_singleton.1 hd]
      simp [record, hclock]
  · refine List.pairwise_append.2 ⟨h.ordered, List.pairwise_singleton _ _, ?_⟩
    intro d hd f hf hprec
    rw [List.mem_singleton.1 hf] at hprec ⊢
    rcases hprec with hnode | hreceived
    · have hle := h.bounded d hd
      rw [hnode] at hle
      exact hle.trans_lt hown
    · exact hrem d.ts hreceived

theorem step_causal {s t : ClockCluster ι} {a : ClockAction ι} (h : s.Causal)
    (hkeeps : s.KeepsBelow a) (hstep : s.step a = some t) : t.Causal := by
  obtain ⟨clock, e, rfl, hclock, hown, hrem⟩ := step_records h hstep
  have hmax := hkeeps _ hstep e.node
  simp only [record, Function.update_self] at hmax
  exact record_causal h hclock hown hrem hmax

theorem run_causal (wall maxOffset : ι → Int64) {as : List (ClockAction ι)} {s : ClockCluster ι}
    (hbelow : StepSystem.Along step KeepsBelow (initial wall maxOffset) as)
    (hrun : StepSystem.run step (initial wall maxOffset) as = some s) : s.Causal :=
  StepSystem.run_invariant_along (fun _ _ _ h hk hs => step_causal h hk hs)
    (initial_causal wall maxOffset) hbelow hrun

/-- Causality across the cluster: whatever the wall readings, an event that happens before another
returned the earlier timestamp, and the timestamps one node returns are strictly increasing. -/
theorem happensBefore_after (wall maxOffset : ι → Int64) (as : List (ClockAction ι))
    (s : ClockCluster ι)
    (hrun : StepSystem.run step (initial wall maxOffset) as = some s)
    (hbelow : StepSystem.Along step KeepsBelow (initial wall maxOffset) as) :
    (∀ m n e f, HappensBefore s.history m n → s.history[m]? = some e → s.history[n]? = some f →
      f.ts.after e.ts = true) ∧
    ∀ i, ((s.history.filter (fun e => e.node = i)).map ClockEvent.ts).Pairwise
      (fun t u => u.after t = true) := by
  have h := run_causal wall maxOffset hbelow hrun
  refine ⟨?_, ?_⟩
  · intro m n e f hb he hf
    rw [Timestamp.after_iff]
    exact h.happensBefore_lt hb he hf
  · intro i
    rw [List.pairwise_map]
    refine List.Pairwise.imp_of_mem ?_ (h.ordered.filter _)
    intro e f he hf hlt
    rw [Timestamp.after_iff]
    have hei : e.node = i := by simpa using (List.mem_filter.1 he).2
    have hfi : f.node = i := by simpa using (List.mem_filter.1 hf).2
    exact hlt (Or.inl (hei.trans hfi.symm))

theorem happensBefore_after_message :
    ∃ s : ClockCluster Bool, StepSystem.run step (initial (fun _ => 1) (fun _ => 100))
        [.now false 10, .update true 5 ⟨10, 0⟩] = some s ∧
      HappensBefore s.history 0 1 ∧
      ∀ e f, s.history[0]? = some e → s.history[1]? = some f → f.ts.after e.ts = true := by
  have hb : HappensBefore [⟨false, none, ⟨10, 0⟩⟩, ⟨true, some ⟨10, 0⟩, ⟨10, 1⟩⟩] 0 1 :=
    Relation.TransGen.single ⟨by decide, _, _, rfl, rfl, Or.inr ⟨rfl, rfl⟩⟩
  refine ⟨_, rfl, hb, fun e f he hf =>
    (happensBefore_after (fun _ => 1) (fun _ => 100) [.now false 10, .update true 5 ⟨10, 0⟩] _
      rfl ?_).1 0 1 e f hb he hf⟩
  refine ⟨?_, ?_, trivial⟩
  · intro t ht i
    cases ht
    revert i
    decide
  · intro t ht i
    cases ht
    revert i
    decide

end ClockCluster
end Capacitor
