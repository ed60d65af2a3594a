import Capacitor.LogRange

/-!
# Reading the delta log in pages

A reader calls `GetEntriesRaw` from a sequence number on, and takes the number of slices it got as
the distance to the next one. This is right as long as the number it asks for is retained:
`GetEntriesRaw` moves a number that is not up to the earliest one that is, and the reader does not
learn of it.
-/

namespace Capacitor

/-- A log and a reader of it, with the numbers of the slots that the reader was given. -/
structure Pager where
  log : DeltaLog
  next : ℕ
  slots : List ℕ

inductive PagerAction where
  | append (e : LogEntry)
  | read (limit : ℕ) (maxBytes : ℤ)

namespace Pager

variable {c : Codec} {s t : Pager} {limit : ℕ} {maxBytes : ℤ}

def start (capacity next : ℕ) : Pager := ⟨newDeltaLog capacity, next, []⟩

def advance (s : Pager) (n : ℕ) : Pager :=
  { s with next := s.next + n, slots := s.slots ++ List.range' (max s.next s.log.earliest) n }

def step (c : Codec) (s : Pager) : PagerAction → Option Pager
  | .append e => (s.log.append c e).map (fun log => { s with log := log })
  | .read limit maxBytes =>
      (s.log.getEntriesRaw s.next limit maxBytes).map (fun res => s.advance res.length)

def appended (as : List PagerAction) : List LogEntry :=
  as.filterMap (fun a => match a with
    | .append e => some e
    | .read _ _ => none)

/-- The reader asks for at least one entry, from a number on that has not been evicted. -/
def KeepsUp (s : Pager) : PagerAction → Prop
  | .append _ => True
  | .read limit _ => 1 ≤ limit ∧ s.log.earliest ≤ s.next

instance (s : Pager) : (a : PagerAction) → Decidable (s.KeepsUp a)
  | .append _ => inferInstanceAs (Decidable True)
  | .read _ _ => inferInstanceAs (Decidable (_ ∧ _))

def Fits (c : Codec) (s : Pager) : PagerAction → Prop
  | .append e => s.log.Fits c e
  | .read _ _ => True

/-- The call returns the entries of consecutive slots, at least one if there is any and at most as
many as were asked for, with no more bytes than were asked for unless it is a single one. -/
def Pages (s : Pager) : PagerAction → Prop
  | .append _ => True
  | .read limit maxBytes =>
      ∃ res, s.log.getEntriesRaw s.next limit maxBytes = some res ∧
        res = (List.range' s.next res.length).map s.log.served ∧
        (s.next < s.log.head → 1 ≤ res.length ∧ s.next + res.length ≤ s.log.head) ∧
        (s.log.head ≤ s.next → res = []) ∧ res.length ≤ limit ∧
        (((res.map List.length).sum : ℤ) ≤ maxBytes ∨ res.length ≤ 1)

theorem pages_of_eq_some {res : List GoString} (hkeeps : s.KeepsUp (.read limit maxBytes))
    (hres : s.log.getEntriesRaw s.next limit maxBytes = some res) :
    s.Pages (.read limit maxBytes) := by
  obtain ⟨hlimit, hearliest⟩ := hkeeps
  obtain ⟨n, hn, hmap, hbound, hpos⟩ := DeltaLog.getEntriesRaw_eq_some hres
  rw [max_eq_left hearliest] at hmap hbound hpos
  have hlength : res.length = n := by rw [hmap, List.length_map, List.length_range]
  refine ⟨res, hres, ?_, fun hlt => ?_, fun hle => ?_, by omega, DeltaLog.getEntriesRaw_bytes hres⟩
  · rw [hlength, List.range'_eq_map_range, List.map_map]
    exact hmap
  · have hn0 := hpos (by omega) hlt
    have hle := hbound hn0
    omega
  · rw [DeltaLog.getEntriesRaw_of_le hle] at hres
    exact (Option.some.inj hres).symm

/-- The log is one whose reads do not panic. -/
structure Sound (capacity : ℕ) (s : Pager) : Prop where
  inside : s.log.Inside
  sized : s.log.Sized capacity

theorem Sound.pages {capacity : ℕ} (h : s.Sound capacity)
    (hkeeps : s.KeepsUp (.read limit maxBytes)) : s.Pages (.read limit maxBytes) := by
  have hsome := h.inside.getEntriesRaw_isSome h.sized.bufCap_lt s.next limit maxBytes
  obtain ⟨res, hres⟩ := Option.isSome_iff_exists.1 hsome
  exact pages_of_eq_some hkeeps hres

theorem sound_start (capacity next : ℕ) : (start capacity next).Sound capacity :=
  ⟨DeltaLog.inside_newDeltaLog capacity, DeltaLog.sized_newDeltaLog capacity⟩

theorem Sound.step {capacity : ℕ} {a : PagerAction} (h : s.Sound capacity) (hfits : s.Fits c a)
    (hstep : s.step c a = some t) : t.Sound capacity := by
  cases a with
  | append e =>
      obtain ⟨log, hlog, rfl⟩ := Option.map_eq_some_iff.1 hstep
      refine ⟨?_, h.sized.append hlog⟩
      exact (DeltaLog.inside_append_iff h.inside h.sized.head_pos h.sized.bufCap_lt hlog).1 hfits
  | read limit maxBytes =>
      obtain ⟨res, -, rfl⟩ := Option.map_eq_some_iff.1 hstep
      exact ⟨h.inside, h.sized⟩

theorem along_fits {as : List PagerAction}
    (h : StepSystem.Along (DeltaLog.append c) (DeltaLog.Fits c) s.log (appended as)) :
    StepSystem.Along (step c) (Fits c) s as := by
  induction as generalizing s with
  | nil => trivial
  | cons a as ih =>
      cases a with
      | append e =>
          refine ⟨h.1, ?_⟩
          cases hstep : s.step c (.append e) with
          | none => trivial
          | some t =>
              obtain ⟨log, hlog, rfl⟩ := Option.map_eq_some_iff.1 hstep
              exact ih (StepSystem.along_cons h hlog).2
      | read limit maxBytes =>
          refine ⟨trivial, ?_⟩
          cases hstep : s.step c (.read limit maxBytes) with
          | none => trivial
          | some t =>
              obtain ⟨res, -, rfl⟩ := Option.map_eq_some_iff.1 hstep
              exact ih h

/-- The slots read so far are those from `next₀` on. -/
structure Gapless (next₀ : ℕ) (s : Pager) : Prop where
  le : next₀ ≤ s.next
  slots : s.slots = List.range' next₀ (s.next - next₀)

theorem gapless_start (capacity next : ℕ) : (start capacity next).Gapless next :=
  ⟨le_rfl, by simp [start]⟩

theorem Gapless.advance {next₀ : ℕ} (h : s.Gapless next₀) (hearliest : s.log.earliest ≤ s.next)
    (n : ℕ) : (s.advance n).Gapless next₀ := by
  have hle := h.le
  refine ⟨hle.trans (Nat.le_add_right _ _), ?_⟩
  change s.slots ++ List.range' (max s.next s.log.earliest) n =
    List.range' next₀ (s.next + n - next₀)
  rw [h.slots, max_eq_left hearliest, show s.next + n - next₀ = s.next - next₀ + n by omega,
    ← List.range'_append_1, show next₀ + (s.next - next₀) = s.next by omega]

theorem Gapless.step {next₀ : ℕ} {a : PagerAction} (h : s.Gapless next₀) (hkeeps : s.KeepsUp a)
    (hstep : s.step c a = some t) : t.Gapless next₀ := by
  cases a with
  | append e =>
      obtain ⟨log, -, rfl⟩ := Option.map_eq_some_iff.1 hstep
      exact ⟨h.le, h.slots⟩
  | read limit maxBytes =>
      obtain ⟨res, -, rfl⟩ := Option.map_eq_some_iff.1 hstep
      exact h.advance hkeeps.2 res.length

/-- Reads alone reach the head, since each passes at least one entry. -/
theorem Sound.reads_reach_head {capacity : ℕ} (h : s.Sound capacity)
    (hearliest : s.log.earliest ≤ s.next) {reads : List (ℕ × ℤ)} (hlimit : ∀ r ∈ reads, 1 ≤ r.1)
    (hlength : s.log.head - s.next ≤ reads.length) :
    ∃ t, StepSystem.run (Pager.step c) s (reads.map (fun r => .read r.1 r.2)) = some t ∧
      t.log = s.log ∧ t.next = max s.next s.log.head := by
  induction reads generalizing s with
  | nil =>
      rw [List.length_nil] at hlength
      exact ⟨s, rfl, rfl, by omega⟩
  | cons r reads ih =>
      have hr : 1 ≤ r.1 := hlimit r List.mem_cons_self
      have hpages : s.Pages (.read r.1 r.2) := h.pages ⟨hr, hearliest⟩
      obtain ⟨res, hres, -, hsome, hnone, -⟩ := hpages
      have hstep : s.step c (.read r.1 r.2) = some (s.advance res.length) := by
        rw [Pager.step, hres, Option.map_some]
      have hnext : (s.advance res.length).next = s.next + res.length := rfl
      have hlog : (s.advance res.length).log = s.log := rfl
      rw [List.length_cons] at hlength
      have hreached : s.log.head - (s.next + res.length) ≤ reads.length ∧
          max (s.next + res.length) s.log.head = max s.next s.log.head := by
        rcases Nat.lt_or_ge s.next s.log.head with hlt | hge
        · have := hsome hlt
          omega
        · rw [hnone hge, List.length_nil]
          omega
      obtain ⟨t, hrun, htlog, htnext⟩ := ih (s := s.advance res.length) ⟨h.inside, h.sized⟩
        (by rw [hlog, hnext]; omega) (fun r hr => hlimit r (List.mem_cons_of_mem _ hr))
        (by rw [hlog, hnext]; exact hreached.1)
      refine ⟨t, ?_, htlog.trans hlog, ?_⟩
      · exact (StepSystem.run_cons_eq_some _ _ _ _ _).2 ⟨_, hstep, hrun⟩
      · rw [htnext, hnext, hlog]
        exact hreached.2

theorem run_appends {es : List LogEntry} {l : DeltaLog}
    (h : StepSystem.run (DeltaLog.append c) s.log es = some l) :
    StepSystem.run (step c) s (es.map .append) = some { s with log := l } := by
  induction es generalizing s with
  | nil =>
      obtain rfl := Option.some.inj h
      rfl
  | cons e es ih =>
      obtain ⟨l', hl', hrun⟩ := (StepSystem.run_cons_eq_some _ _ _ _ _).1 h
      have hstep : s.step c (.append e) = some { s with log := l' } := by
        rw [step, hl', Option.map_some]
      exact (StepSystem.run_cons_eq_some _ _ _ _ _).2
        ⟨_, hstep, ih (s := { s with log := l' }) hrun⟩

@[simp] theorem appended_map_append (es : List LogEntry) : appended (es.map .append) = es := by
  induction es with
  | nil => rfl
  | cons e es ih => exact congrArg (e :: ·) ih

@[simp] theorem appended_append (as bs : List PagerAction) :
    appended (as ++ bs) = appended as ++ appended bs := List.filterMap_append

@[simp] theorem appended_read (limit : ℕ) (maxBytes : ℤ) (as : List PagerAction) :
    appended (.read limit maxBytes :: as) = appended as := rfl

theorem exists_keepsUp_not_pages {capacity : ℕ} (hcap : 1 ≤ capacity) {es : List LogEntry}
    (h : ¬ StepSystem.Along (DeltaLog.append c) (DeltaLog.Fits c) (newDeltaLog capacity) es) :
    ∃ next as, appended as = es ∧ StepSystem.Along (step c) KeepsUp (start capacity next) as ∧
      ¬ StepSystem.Along (step c) Pages (start capacity next) as := by
  obtain ⟨ds, e, l, ⟨rest, rfl⟩, halong, hrun, hfits⟩ := StepSystem.exists_of_not_along h
  obtain ⟨hinside, hsized⟩ := (DeltaLog.along_fits_iff c hcap ds).1 halong ds l List.prefix_rfl hrun
  have hsome := DeltaLog.append_isSome c (by rw [hsized.capacity_eq]; omega) hinside.bufHead e
  obtain ⟨l', hl'⟩ := Option.isSome_iff_exists.1 hsome
  obtain ⟨-, -, -, -, hhead, -⟩ := DeltaLog.append_eq_some hl'
  have hretained := DeltaLog.earliest_append_le_head hsized.head_pos hl'
  have hpanic : l'.getEntriesRaw l.head 1 0 = none :=
    DeltaLog.getEntriesRaw_eq_none 0 le_rfl hretained (by omega)
      (DeltaLog.not_inRange_append hsized.bufCap_lt hl' hfits)
  have hrun' : StepSystem.run (step c) (start capacity l.head) ((ds ++ [e]).map .append) =
      some ⟨l', l.head, []⟩ := by
    refine run_appends (s := start capacity l.head)
      ((StepSystem.run_append_eq_some _ _ _ _ _).2 ⟨l, hrun, ?_⟩)
    rw [StepSystem.run_singleton, hl']
  have hstep : step c ⟨l', l.head, []⟩ (.read 1 0) = none := by
    rw [step, hpanic, Option.map_none]
  refine ⟨l.head, (ds ++ [e]).map .append ++ .read 1 0 :: rest.map .append, ?_, ?_, ?_⟩
  · rw [appended_append, appended_map_append, appended_read, appended_map_append]
  · refine StepSystem.along_append_iff.2 ⟨StepSystem.along_of_forall ?_ _, fun t ht => ?_⟩
    · intro a ha s
      obtain ⟨d, -, rfl⟩ := List.mem_map.1 ha
      trivial
    · obtain rfl := Option.some.inj (hrun'.symm.trans ht)
      refine ⟨⟨le_rfl, hretained⟩, ?_⟩
      rw [hstep]
      trivial
  · intro hpages
    obtain ⟨⟨res, hres, -⟩, -⟩ := (StepSystem.along_append hpages hrun').2
    rw [hpanic] at hres
    cases hres

/-- Every reader of a log that keeps up pages through it without gap or repetition, and comes to its
end by reading on, exactly if all entries fit. -/
theorem paging_complete_iff (c : Codec) {capacity : ℕ} (hcap : 1 ≤ capacity)
    (es : List LogEntry) :
    StepSystem.Along (DeltaLog.append c) (DeltaLog.Fits c) (newDeltaLog capacity) es ↔
      ∀ next as, appended as = es → StepSystem.Along (step c) KeepsUp (start capacity next) as →
        StepSystem.Along (step c) Pages (start capacity next) as ∧
        ∀ s, StepSystem.run (step c) (start capacity next) as = some s →
          s.slots = List.range' next (s.next - next) ∧
          (s.log.earliest ≤ s.next → ∀ reads : List (ℕ × ℤ), (∀ r ∈ reads, 1 ≤ r.1) →
            s.log.head - s.next ≤ reads.length →
            ∃ t, StepSystem.run (step c) s (reads.map (fun r => .read r.1 r.2)) = some t ∧
              t.log = s.log ∧ t.next = max s.next s.log.head) := by
  constructor
  · rintro h next as rfl hkeeps
    have hfits : StepSystem.Along (step c) (Fits c) (start capacity next) as := along_fits h
    refine ⟨?_, fun s hrun => ⟨?_, fun hearliest reads hlimit hlength => ?_⟩⟩
    · refine StepSystem.along_of_along (P := Sound capacity)
        (fun s a t hs hc hstep => hs.step hc.1 hstep) (fun s a hs hc => ?_)
        (sound_start capacity next) (StepSystem.along_and hfits hkeeps)
      cases a with
      | append e => trivial
      | read limit maxBytes => exact hs.pages hc.2
    · exact (StepSystem.run_invariant_along (fun s a t hs hc hstep => hs.step hc hstep)
        (gapless_start capacity next) hkeeps hrun).slots
    · have hsound : s.Sound capacity := StepSystem.run_invariant_along
        (fun s a t hs hc hstep => hs.step hc hstep) (sound_start capacity next) hfits hrun
      exact hsound.reads_reach_head hearliest hlimit hlength
  · intro h
    by_contra hfits
    obtain ⟨next, as, happended, hkeeps, hpages⟩ := exists_keepsUp_not_pages hcap hfits
    exact hpages (h next as happended hkeeps).1

def oneAtATime : List PagerAction :=
  [.append (DeltaLog.deleteOf 1), .append (DeltaLog.deleteOf 2), .read 1 0,
    .append (DeltaLog.deleteOf 3), .read 1 0]

theorem oneAtATime_isSome :
    (StepSystem.run (step (tableCodec (fun _ => 0) [])) (start 2 1) oneAtATime).isSome = true := by
  decide +kernel

theorem paging_complete_iff_oneAtATime :
    ∃ s, StepSystem.run (step (tableCodec (fun _ => 0) [])) (start 2 1) oneAtATime = some s ∧
      s.next = 3 ∧ s.slots = List.range' 1 2 := by
  have hnext : ((StepSystem.run (step (tableCodec (fun _ => 0) [])) (start 2 1) oneAtATime).get
      oneAtATime_isSome).next = 3 := by decide +kernel
  refine ⟨_, (Option.some_get oneAtATime_isSome).symm, hnext, ?_⟩
  have hall := (paging_complete_iff (tableCodec (fun _ => 0) []) (show 1 ≤ 2 by decide)
    (appended oneAtATime)).1 (by decide +kernel) 1 oneAtATime rfl (by decide +kernel)
  have hslots := (hall.2 _ (Option.some_get oneAtATime_isSome).symm).1
  rwa [hnext] at hslots

theorem oversized_start_isSome :
    (StepSystem.run (step (tableCodec (fun _ => 0) [])) (start 1 1)
      [.append (DeltaLog.deleteOf 300)]).isSome = true := by
  decide +kernel

/-- The deletion of a key of 300 bytes does not fit into the buffer of a log of one entry. The
reader that asks for it, which is the only retained entry, stops the program. -/
theorem oversized_entry_not_read :
    ∃ s, StepSystem.run (step (tableCodec (fun _ => 0) [])) (start 1 1)
        [.append (DeltaLog.deleteOf 300)] = some s ∧
      s.next = s.log.earliest ∧ s.next < s.log.head ∧
      s.log.getEntriesRaw s.next 1000 (8 * 1024 * 1024) = none := by
  refine ⟨_, (Option.some_get oversized_start_isSome).symm, ?_⟩
  decide +kernel

end Pager

end Capacitor
