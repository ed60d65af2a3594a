import Mathlib.Algebra.Order.BigOperators.Group.Multiset
import Capacitor.StepSystem
import Capacitor.Keys

/-!
# The latency statistics

Any number of calls of `Record` add to a statistic at the same time, without a lock: each adds to
the count, then to the sum, and then loops until the maximum is at least its duration, which is a
load followed by a compare-and-swap. The calls that have come to the same place are kept together,
and `finished` holds the durations of those that have returned.
-/

namespace Capacitor

/-- Durations are counted in nanoseconds. -/
structure Stat where
  count : Int64
  sum : Int64
  max : Int64
  deriving DecidableEq

structure Summary where
  metric : GoString
  average : Int64
  peak : Int64
  count : Int64
  deriving DecidableEq

def Stat.summarize (name : GoString) (s : Stat) : Summary :=
  if s.count = 0 then ⟨name, 0, 0, 0⟩ else ⟨name, s.sum / s.count, s.max, s.count⟩

structure Recording where
  stat : Stat
  counted : Multiset Int64
  summed : Multiset Int64
  loaded : Multiset (Int64 × Int64)
  finished : Multiset Int64

/-- `addCount` begins a call, and the others go on with a call of the given duration. -/
inductive RecordAction where
  | addCount (d : Int64)
  | addSum (d : Int64)
  | load (d : Int64)
  | compareAndSwap (d oldMax : Int64)

namespace Recording

def start : Recording := ⟨⟨0, 0, 0⟩, 0, 0, 0, 0⟩

def step (s : Recording) : RecordAction → Option Recording
  | .addCount d =>
      some { s with
        stat := { s.stat with count := s.stat.count + 1 }
        counted := d ::ₘ s.counted }
  | .addSum d =>
      if d ∈ s.counted then
        some { s with
          stat := { s.stat with sum := s.stat.sum + d }
          counted := s.counted.erase d
          summed := d ::ₘ s.summed }
      else none
  | .load d =>
      if d ∈ s.summed then
        if d ≤ s.stat.max then
          some { s with summed := s.summed.erase d, finished := d ::ₘ s.finished }
        else
          some { s with
            summed := s.summed.erase d
            loaded := (d, s.stat.max) ::ₘ s.loaded }
      else none
  | .compareAndSwap d oldMax =>
      if (d, oldMax) ∈ s.loaded then
        if s.stat.max = oldMax then
          some { s with
            stat := { s.stat with max := d }
            loaded := s.loaded.erase (d, oldMax)
            finished := d ::ₘ s.finished }
        else
          some { s with
            loaded := s.loaded.erase (d, oldMax)
            summed := d ::ₘ s.summed }
      else none

def added (s : Recording) : Multiset Int64 := s.summed + s.loaded.map Prod.fst + s.finished

def recorded (s : Recording) : Multiset Int64 := s.counted + s.added

def total (ds : Multiset Int64) : ℤ := (ds.map Int64.toInt).sum

def underWay (s : Recording) : ℕ := s.counted.card + s.summed.card + s.loaded.card

/-- The count and the sum are those of the calls that have added to them. The maximum is zero or a
duration of a call that has returned, and at least that of each of them. -/
structure Sound (s : Recording) : Prop where
  count : s.stat.count = Int64.ofNat s.recorded.card
  sum : s.stat.sum = Int64.ofInt (total s.added)
  raises : ∀ p ∈ s.loaded, p.2 < p.1
  attained : s.stat.max = 0 ∨ s.stat.max ∈ s.finished
  nonneg : 0 ≤ s.stat.max
  bounds : ∀ d ∈ s.finished, d ≤ s.stat.max

inductive Steps : Recording → RecordAction → Recording → Prop
  | addCount (st : Stat) (cs ss fs : Multiset Int64) (ls : Multiset (Int64 × Int64)) (d : Int64) :
      Steps ⟨st, cs, ss, ls, fs⟩ (.addCount d)
        ⟨{ st with count := st.count + 1 }, d ::ₘ cs, ss, ls, fs⟩
  | addSum (st : Stat) (cs ss fs : Multiset Int64) (ls : Multiset (Int64 × Int64)) (d : Int64) :
      Steps ⟨st, d ::ₘ cs, ss, ls, fs⟩ (.addSum d)
        ⟨{ st with sum := st.sum + d }, cs, d ::ₘ ss, ls, fs⟩
  | below (st : Stat) (cs ss fs : Multiset Int64) (ls : Multiset (Int64 × Int64)) (d : Int64)
      (hd : d ≤ st.max) :
      Steps ⟨st, cs, d ::ₘ ss, ls, fs⟩ (.load d) ⟨st, cs, ss, ls, d ::ₘ fs⟩
  | load (st : Stat) (cs ss fs : Multiset Int64) (ls : Multiset (Int64 × Int64)) (d : Int64)
      (hd : st.max < d) :
      Steps ⟨st, cs, d ::ₘ ss, ls, fs⟩ (.load d) ⟨st, cs, ss, (d, st.max) ::ₘ ls, fs⟩
  | swap (st : Stat) (cs ss fs : Multiset Int64) (ls : Multiset (Int64 × Int64)) (d : Int64) :
      Steps ⟨st, cs, ss, (d, st.max) ::ₘ ls, fs⟩ (.compareAndSwap d st.max)
        ⟨{ st with max := d }, cs, ss, ls, d ::ₘ fs⟩
  | fail (st : Stat) (cs ss fs : Multiset Int64) (ls : Multiset (Int64 × Int64))
      (d oldMax : Int64) (hmax : st.max ≠ oldMax) :
      Steps ⟨st, cs, ss, (d, oldMax) ::ₘ ls, fs⟩ (.compareAndSwap d oldMax)
        ⟨st, cs, d ::ₘ ss, ls, fs⟩

theorem steps_of_step {s t : Recording} {a : RecordAction} (h : s.step a = some t) :
    Steps s a t := by
  obtain ⟨st, cs, ss, ls, fs⟩ := s
  cases a with
  | addCount d =>
      obtain rfl := Option.some.inj h
      exact .addCount st cs ss fs ls d
  | addSum d =>
      simp only [step] at h
      split_ifs at h with hmem
      obtain ⟨cs, rfl⟩ := Multiset.exists_cons_of_mem hmem
      obtain rfl := Option.some.inj h
      rw [Multiset.erase_cons_head]
      exact .addSum st cs ss fs ls d
  | load d =>
      simp only [step] at h
      split_ifs at h with hmem hd
      · obtain ⟨ss, rfl⟩ := Multiset.exists_cons_of_mem hmem
        obtain rfl := Option.some.inj h
        rw [Multiset.erase_cons_head]
        exact .below st cs ss fs ls d hd
      · obtain ⟨ss, rfl⟩ := Multiset.exists_cons_of_mem hmem
        obtain rfl := Option.some.inj h
        rw [Multiset.erase_cons_head]
        exact .load st cs ss fs ls d (Int64.not_le.1 hd)
  | compareAndSwap d oldMax =>
      simp only [step] at h
      split_ifs at h with hmem hmax
      · obtain ⟨ls, rfl⟩ := Multiset.exists_cons_of_mem hmem
        obtain rfl := Option.some.inj h
        subst hmax
        rw [Multiset.erase_cons_head]
        exact .swap st cs ss fs ls d
      · obtain ⟨ls, rfl⟩ := Multiset.exists_cons_of_mem hmem
        obtain rfl := Option.some.inj h
        rw [Multiset.erase_cons_head]
        exact .fail st cs ss fs ls d oldMax hmax

theorem start_sound : start.Sound :=
  ⟨rfl, rfl, fun _ hp => absurd hp (Multiset.notMem_zero _), Or.inl rfl, Int64.le_refl 0,
    fun _ hd => absurd hd (Multiset.notMem_zero _)⟩

theorem total_cons (d : Int64) (ds : Multiset Int64) : total (d ::ₘ ds) = d.toInt + total ds := by
  rw [total, Multiset.map_cons, Multiset.sum_cons, total]

theorem Sound.ledger {s t : Recording} (h : s.Sound) (hcount : t.stat.count = s.stat.count)
    (hsum : t.stat.sum = s.stat.sum) (hcounted : t.counted = s.counted)
    (hadded : t.added = s.added) :
    t.stat.count = Int64.ofNat t.recorded.card ∧ t.stat.sum = Int64.ofInt (total t.added) := by
  rw [recorded, hcounted, hadded, hcount, hsum]
  exact ⟨h.count, h.sum⟩

theorem Sound.step {s t : Recording} {a : RecordAction} (h : s.Sound) (hstep : s.step a = some t) :
    t.Sound := by
  cases steps_of_step hstep with
  | addCount st cs ss fs ls d =>
      refine ⟨?_, h.sum, h.raises, h.attained, h.nonneg, h.bounds⟩
      have hcount : st.count = Int64.ofNat (cs + added ⟨st, cs, ss, ls, fs⟩).card := h.count
      change st.count + 1 = Int64.ofNat (d ::ₘ cs + added ⟨st, cs, ss, ls, fs⟩).card
      rw [Multiset.cons_add, Multiset.card_cons, Int64.ofNat_add, hcount]
      rfl
  | addSum st cs ss fs ls d =>
      have hsum : st.sum = Int64.ofInt (total (added ⟨st, d ::ₘ cs, ss, ls, fs⟩)) := h.sum
      have hadded : added ⟨{ st with sum := st.sum + d }, cs, d ::ₘ ss, ls, fs⟩ =
          d ::ₘ added ⟨st, d ::ₘ cs, ss, ls, fs⟩ := by
        simp only [added, Multiset.cons_add]
      refine ⟨?_, ?_, h.raises, h.attained, h.nonneg, h.bounds⟩
      · have hrecorded : recorded ⟨{ st with sum := st.sum + d }, cs, d ::ₘ ss, ls, fs⟩ =
            recorded ⟨st, d ::ₘ cs, ss, ls, fs⟩ := by
          simp only [recorded, hadded, Multiset.add_cons, Multiset.cons_add]
        rw [hrecorded]
        exact h.count
      · change st.sum + d = _
        rw [hadded, total_cons, Int64.ofInt_add, Int64.ofInt_toInt, ← hsum, Int64.add_comm]
  | below st cs ss fs ls d hd =>
      obtain ⟨hcount, hsum⟩ := h.ledger (t := ⟨st, cs, ss, ls, d ::ₘ fs⟩) rfl rfl rfl
        (by simp only [added, Multiset.cons_add, Multiset.add_cons])
      refine ⟨hcount, hsum, h.raises, h.attained.imp_right Multiset.mem_cons_of_mem, h.nonneg, ?_⟩
      intro d' hd'
      rcases Multiset.mem_cons.1 hd' with rfl | hd'
      · exact hd
      · exact h.bounds d' hd'
  | load st cs ss fs ls d hd =>
      obtain ⟨hcount, hsum⟩ := h.ledger (t := ⟨st, cs, ss, (d, st.max) ::ₘ ls, fs⟩) rfl rfl rfl
        (by simp only [added, Multiset.map_cons, Multiset.cons_add, Multiset.add_cons])
      refine ⟨hcount, hsum, ?_, h.attained, h.nonneg, h.bounds⟩
      intro p hp
      rcases Multiset.mem_cons.1 hp with rfl | hp
      · exact hd
      · exact h.raises p hp
  | swap st cs ss fs ls d =>
      obtain ⟨hcount, hsum⟩ := h.ledger (t := ⟨{ st with max := d }, cs, ss, ls, d ::ₘ fs⟩)
        rfl rfl rfl (by simp only [added, Multiset.map_cons, Multiset.cons_add, Multiset.add_cons])
      have hraised : st.max < d := h.raises _ (Multiset.mem_cons_self _ _)
      refine ⟨hcount, hsum, fun p hp => h.raises p (Multiset.mem_cons_of_mem hp),
        Or.inr (Multiset.mem_cons_self _ _), ?_, ?_⟩
      · exact Int64.le_trans h.nonneg (Int64.le_of_lt hraised)
      · intro d' hd'
        rcases Multiset.mem_cons.1 hd' with rfl | hd'
        · exact Int64.le_refl d'
        · exact Int64.le_trans (h.bounds d' hd') (Int64.le_of_lt hraised)
  | fail st cs ss fs ls d oldMax hmax =>
      obtain ⟨hcount, hsum⟩ := h.ledger (t := ⟨st, cs, d ::ₘ ss, ls, fs⟩) rfl rfl rfl
        (by simp only [added, Multiset.map_cons, Multiset.cons_add, Multiset.add_cons])
      exact ⟨hcount, hsum, fun p hp => h.raises p (Multiset.mem_cons_of_mem hp), h.attained,
        h.nonneg, h.bounds⟩

theorem run_sound {s : Recording} {as : List RecordAction}
    (hrun : StepSystem.run step start as = some s) : s.Sound :=
  StepSystem.run_invariant (fun _ _ _ h hstep => h.step hstep) start_sound hrun

theorem recorded_of_underWay {s : Recording} (h : s.underWay = 0) : s.recorded = s.finished := by
  obtain ⟨hcounted, hsummed, hloaded⟩ : s.counted = 0 ∧ s.summed = 0 ∧ s.loaded = 0 := by
    simp only [← Multiset.card_eq_zero]
    unfold underWay at h
    omega
  simp [recorded, added, hcounted, hsummed, hloaded]

theorem added_of_underWay {s : Recording} (h : s.underWay = 0) : s.added = s.recorded := by
  have hcounted : s.counted = 0 := by
    rw [← Multiset.card_eq_zero]
    unfold underWay at h
    omega
  rw [recorded, hcounted, zero_add]

theorem total_le {ds : Multiset Int64} {d : Int64} (h : ∀ d' ∈ ds, d' ≤ d) :
    total ds ≤ ds.card * d.toInt := by
  have hle := Multiset.sum_le_card_nsmul (ds.map Int64.toInt) d.toInt (by
    intro x hx
    obtain ⟨d', hd', rfl⟩ := Multiset.mem_map.1 hx
    exact Int64.le_iff_toInt_le.1 (h d' hd'))
  rwa [Multiset.card_map, nsmul_eq_mul] at hle

theorem tdiv_le {a b n : ℤ} (hb : 0 ≤ b) (hn : 0 < n) (h : a ≤ n * b) : a.tdiv n ≤ b := by
  rcases le_total 0 a with ha | ha
  · rw [Int.tdiv_eq_ediv_of_nonneg ha]
    exact Int.ediv_le_of_le_mul hn (by rwa [mul_comm])
  · have hneg : 0 ≤ (-a).tdiv n := Int.tdiv_nonneg (by omega) hn.le
    rw [Int.neg_tdiv] at hneg
    omega

/-- Once no call is under way, the summary is that of all calls, in whatever order their steps were
taken: their number, the average of their durations, and the largest of them if one is positive. -/
theorem summary_at_rest {s : Recording} {as : List RecordAction}
    (hrun : StepSystem.run step start as = some s) (hrest : s.underWay = 0)
    (hcard : s.recorded ≠ 0 ∧ s.recorded.card < 2 ^ 63)
    (htotal : -2 ^ 63 ≤ total s.recorded ∧ total s.recorded < 2 ^ 63) (name : GoString) :
    (s.stat.summarize name).count.toInt = s.recorded.card ∧
      (s.stat.summarize name).average.toInt = (total s.recorded).tdiv s.recorded.card ∧
      (∀ d ∈ s.recorded, d ≤ (s.stat.summarize name).peak) ∧
      ((s.stat.summarize name).peak = 0 ∨ (s.stat.summarize name).peak ∈ s.recorded) ∧
      (s.stat.summarize name).average ≤ (s.stat.summarize name).peak := by
  have h := run_sound hrun
  have hcount : s.stat.count.toInt = s.recorded.card := by
    rw [h.count, Int64.toInt_ofNat_of_lt hcard.2]
  have hsum : s.stat.sum.toInt = total s.recorded := by
    rw [h.sum, added_of_underWay hrest, Int64.toInt_ofInt_of_le htotal.1 htotal.2]
  have hpos : 0 < s.recorded.card := Multiset.card_pos.2 hcard.1
  have hne : s.stat.count ≠ 0 := by
    intro hzero
    rw [hzero, Int64.toInt_zero] at hcount
    omega
  have hne' : s.stat.count ≠ -1 := by
    intro hminus
    have hneg : (-1 : Int64).toInt = -1 := by decide
    rw [hminus, hneg] at hcount
    omega
  have haverage : (s.stat.sum / s.stat.count).toInt =
      (total s.recorded).tdiv s.recorded.card := by
    rw [Int64.toInt_div_of_ne_right _ _ hne', hcount, hsum]
  have hbounds : ∀ d ∈ s.recorded, d ≤ s.stat.max := by
    rw [recorded_of_underWay hrest]
    exact h.bounds
  have hattained : s.stat.max = 0 ∨ s.stat.max ∈ s.recorded := by
    rw [recorded_of_underWay hrest]
    exact h.attained
  rw [Stat.summarize, if_neg hne]
  refine ⟨hcount, haverage, hbounds, hattained, ?_⟩
  rw [Int64.le_iff_toInt_le, haverage]
  exact tdiv_le (Int64.le_iff_toInt_le.1 h.nonneg) (by omega) (total_le hbounds)

/-- Three calls at once: the largest duration is recorded between the load and the compare-and-swap
of another call, which has to load again. -/
def threeCalls : List RecordAction :=
  [.addCount 5, .addCount 9, .addSum 5, .load 5, .addSum 9, .load 9, .compareAndSwap 9 0,
    .addCount (-2), .compareAndSwap 5 0, .load 5, .addSum (-2), .load (-2)]

theorem threeCalls_isSome : (StepSystem.run step start threeCalls).isSome = true := by
  decide +kernel

theorem summary_at_rest_threeCalls :
    ∃ s, StepSystem.run step start threeCalls = some s ∧ s.recorded.card = 3 ∧
      (s.stat.summarize (bytes "Set")).average.toInt = 4 ∧
      ∀ d ∈ s.recorded, d ≤ (s.stat.summarize (bytes "Set")).peak := by
  have hrun := (Option.some_get threeCalls_isSome).symm
  obtain ⟨-, haverage, hbounds, -, -⟩ := summary_at_rest hrun (by decide +kernel)
    (by decide +kernel) (by decide +kernel) (bytes "Set")
  exact ⟨_, hrun, by decide +kernel, haverage.trans (by decide +kernel), hbounds⟩

def begins : RecordAction → Bool
  | .addCount _ => true
  | _ => false

/-- What is still to do at most: a call whose load is out of date has to go round its loop, and each
call that returns may make the loads of the others out of date. -/
def effort (s : Recording) : ℕ :=
  3 * s.counted.card + 2 * s.summed.card +
    (s.loaded.map (fun p => if p.2 = s.stat.max then 1 else 3)).sum + s.underWay * s.underWay

theorem sum_loaded_bounds (ls : Multiset (Int64 × Int64)) (max : Int64) :
    ls.card ≤ (ls.map (fun p => if p.2 = max then 1 else 3)).sum ∧
      (ls.map (fun p => if p.2 = max then 1 else 3)).sum ≤ 3 * ls.card := by
  induction ls using Multiset.induction_on with
  | empty => exact ⟨le_rfl, le_rfl⟩
  | cons p ls ih =>
      rw [Multiset.map_cons, Multiset.sum_cons, Multiset.card_cons]
      split_ifs <;> omega

theorem effort_le (s : Recording) : s.effort ≤ s.underWay * (s.underWay + 3) := by
  have hbound := (sum_loaded_bounds s.loaded s.stat.max).2
  rw [effort, mul_add]
  unfold underWay
  omega

theorem effort_step {s t : Recording} {a : RecordAction} (ha : begins a = false)
    (hstep : s.step a = some t) : t.effort < s.effort := by
  cases steps_of_step hstep with
  | addCount st cs ss fs ls d => cases ha
  | addSum st cs ss fs ls d =>
      simp only [effort, underWay, Multiset.card_cons]
      have hsame : cs.card + (ss.card + 1) + ls.card = cs.card + 1 + ss.card + ls.card := by omega
      rw [hsame]
      omega
  | below st cs ss fs ls d hd =>
      simp only [effort, underWay, Multiset.card_cons]
      have hless : (cs.card + ss.card + ls.card) * (cs.card + ss.card + ls.card) ≤
          (cs.card + (ss.card + 1) + ls.card) * (cs.card + (ss.card + 1) + ls.card) :=
        Nat.mul_le_mul (by omega) (by omega)
      omega
  | load st cs ss fs ls d hd =>
      simp only [effort, underWay, Multiset.card_cons, Multiset.map_cons, Multiset.sum_cons,
        if_true]
      have hsame : cs.card + ss.card + (ls.card + 1) = cs.card + (ss.card + 1) + ls.card := by omega
      rw [hsame]
      omega
  | swap st cs ss fs ls d =>
      simp only [effort, underWay, Multiset.card_cons, Multiset.map_cons, Multiset.sum_cons,
        if_true]
      have hafter := (sum_loaded_bounds ls d).2
      have hbefore := (sum_loaded_bounds ls st.max).1
      have hsquare : (cs.card + ss.card + (ls.card + 1)) * (cs.card + ss.card + (ls.card + 1)) =
          (cs.card + ss.card + ls.card) * (cs.card + ss.card + ls.card) +
            2 * (cs.card + ss.card + ls.card) + 1 := by ring
      omega
  | fail st cs ss fs ls d oldMax hmax =>
      simp only [effort, underWay, Multiset.card_cons, Multiset.map_cons, Multiset.sum_cons,
        if_neg hmax.symm]
      have hsame : cs.card + (ss.card + 1) + ls.card = cs.card + ss.card + (ls.card + 1) := by omega
      rw [hsame]
      omega

/-- As long as a call is under way it can go on. -/
theorem exists_step_iff (s : Recording) :
    s.underWay ≠ 0 ↔ ∃ a, begins a = false ∧ (s.step a).isSome = true := by
  constructor
  · intro hne
    by_cases hcounted : s.counted = 0
    · by_cases hsummed : s.summed = 0
      · have hloaded : s.loaded ≠ 0 := by
          rintro hloaded
          simp [underWay, hcounted, hsummed, hloaded] at hne
        obtain ⟨⟨d, oldMax⟩, hmem⟩ := Multiset.exists_mem_of_ne_zero hloaded
        refine ⟨.compareAndSwap d oldMax, rfl, ?_⟩
        simp only [step, if_pos hmem]
        split_ifs <;> rfl
      · obtain ⟨d, hmem⟩ := Multiset.exists_mem_of_ne_zero hsummed
        refine ⟨.load d, rfl, ?_⟩
        simp only [step, if_pos hmem]
        split_ifs <;> rfl
    · obtain ⟨d, hmem⟩ := Multiset.exists_mem_of_ne_zero hcounted
      exact ⟨.addSum d, rfl, by simp only [step, if_pos hmem, Option.isSome_some]⟩
  · rintro ⟨a, ha, hstep⟩
    obtain ⟨t, ht⟩ := Option.isSome_iff_exists.1 hstep
    have hlower := effort_step ha ht
    have hbound := effort_le s
    rintro hzero
    rw [hzero] at hbound
    omega

/-- No schedule keeps the calls from returning: however the steps of the calls under way are
interleaved, there are at most as many as the bound says, and until then one of the calls can always
go on. -/
theorem calls_return (s : Recording) :
    (∀ as t, (∀ a ∈ as, begins a = false) → StepSystem.run step s as = some t →
        as.length ≤ s.underWay * (s.underWay + 3)) ∧
      (s.underWay ≠ 0 ↔ ∃ a, begins a = false ∧ (s.step a).isSome = true) := by
  refine ⟨fun as t has hrun => ?_, exists_step_iff s⟩
  have hlength := StepSystem.length_le_of_lowers (fun _ _ _ ha hstep => effort_step ha hstep)
    (StepSystem.along_of_forall_mem has s) hrun
  exact (Nat.le_of_add_right_le hlength).trans (effort_le s)

def outOfDate : Recording := ⟨⟨2, 9, 7⟩, {4}, 0, {(9, 5)}, 0⟩

def catchUp : List RecordAction :=
  [.compareAndSwap 9 5, .addSum 4, .load 9, .compareAndSwap 9 7, .load 4]

theorem catchUp_isSome : (StepSystem.run step outOfDate catchUp).isSome = true := by
  decide +kernel

theorem calls_return_outOfDate : ∃ t, StepSystem.run step outOfDate catchUp = some t ∧
    catchUp.length ≤ 10 ∧ t.underWay = 0 ∧
    ¬ ∃ a, begins a = false ∧ (t.step a).isSome = true := by
  have hrun := (Option.some_get catchUp_isSome).symm
  have hrest : ((StepSystem.run step outOfDate catchUp).get catchUp_isSome).underWay = 0 := by
    decide +kernel
  exact ⟨_, hrun, (calls_return outOfDate).1 catchUp _ (by decide) hrun, hrest,
    fun hstep => (calls_return _).2.2 hstep hrest⟩

end Recording

end Capacitor
