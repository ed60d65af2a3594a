import Capacitor.StepSystem
import Capacitor.Windows

/-!
# Sliding windows across a cluster

Any number of nodes count events for one key. A call is three atomic steps: the reading of the
clock, the append of the event to the node's window, and the append of its entry to the log. An
event is known to the other nodes by the physical part of its timestamp alone, which a node that
inserts it takes for its identity.
-/

namespace Capacitor

open Store
open StepSystem (Cluster)

variable {ι V : Type*}

/-- `stamped` holds the timestamps of calls that have read the clock, `stored` those of calls whose
event is in the window and not yet in the log. `received` records the entries of other nodes that
were applied here. -/
structure WindowNode (ι V : Type*) where
  replica : Replica V
  stamped : List Timestamp
  stored : List Timestamp
  log : List LogEntry
  received : List (ι × LogEntry)

/-- `issued` records the timestamps of all calls. -/
abbrev WindowCluster (ι V : Type*) := Cluster ι (WindowNode ι V) (ι × Timestamp)

inductive WindowAction (ι : Type*) where
  | now (i : ι) (wall : Int64)
  | store (i : ι) (ts : Timestamp) (window now : Int64)
  | append (i : ι) (ts : Timestamp)
  | deliver (i j : ι) (e : LogEntry) (wall : Int64)

namespace WindowNode

def now (n : WindowNode ι V) (wall : Int64) : WindowNode ι V :=
  { n with
    replica := { n.replica with hlc := (n.replica.hlc.now wall).1 }
    stamped := (n.replica.hlc.now wall).2 :: n.stamped }

def store (n : WindowNode ι V) (key : GoString) (ts : Timestamp) (window now : Int64) :
    WindowNode ι V :=
  { n with
    replica := { n.replica with
      store := (n.replica.store.incrementSlidingWindow key ts.physical window now).1 }
    stamped := n.stamped.erase ts
    stored := ts :: n.stored }

def append (n : WindowNode ι V) (key nodeID : GoString) (ts : Timestamp) : WindowNode ι V :=
  { n with
    stored := n.stored.erase ts
    log := appendEntry n.log (windowLogEntry ts key nodeID) }

def deliver (mp : Msgpack V) (n : WindowNode ι V) (j : ι) (e : LogEntry) (wall : Int64) :
    WindowNode ι V :=
  { n with
    replica := applyRemoteEntry mp n.replica wall e
    received := if n.replica.hlc.smash wall e.ts then n.received else (j, e) :: n.received }

/-- The three steps of a call, taken without interruption, are `IncrementSlidingWindow` as the node
runs it. -/
theorem append_store_now (n : WindowNode ι V) (key nodeID : GoString) (window wall now : Int64) :
    let ts := (n.replica.hlc.now wall).2
    let call := n.replica.incrementSlidingWindow nodeID wall now key window
    ((n.now wall).store key ts window now).append key nodeID ts =
      { n with replica := call.1, log := appendEntry n.log call.2.1 } := by
  simp only [WindowNode.now, store, append, List.erase_cons_head, Replica.incrementSlidingWindow]

def window (n : WindowNode ι V) (key : GoString) : List Int64 := n.replica.store.getWindow key

theorem window_deliver {mp : Msgpack V} {n : WindowNode ι V} {j : ι} {e : LogEntry} {wall : Int64}
    (hop : e.op = .window) (hacc : n.replica.hlc.smash wall e.ts = false) :
    (n.deliver mp j e wall).window e.key = insertEvent e.ts.physical (n.window e.key) := by
  exact (getWindow_applyRemoteEntry hop hacc e.key).trans (if_pos rfl)

theorem window_store (n : WindowNode ι V) (key : GoString) {ts : Timestamp} {window now : Int64}
    (h : ∀ t ∈ n.window key ++ [ts.physical], ¬ t < now - window) :
    (n.store key ts window now).window key = n.window key ++ [ts.physical] := by
  refine (getWindow_incrementSlidingWindow _ _ _ _ _ _).trans ?_
  rw [if_pos rfl]
  exact appendEvent_of_not_lt h

variable [DecidableEq ι]

/-- How far the calls of a node have come: each is under way or in the log, each event that was
stored or received is in the window, and the window holds no more events than the node has calls
and has received different events. -/
structure Traced (key : GoString) (issued : List (ι × Timestamp)) (i : ι) (n : WindowNode ι V) :
    Prop where
  under : ∀ ts, (i, ts) ∈ issued → ts ∈ n.stamped ∨ ts ∈ n.stored ∨ ∃ e ∈ n.log, e.ts = ts
  stamped : ∀ ts ∈ n.stamped, (i, ts) ∈ issued
  stored : ∀ ts ∈ n.stored, (i, ts) ∈ issued
  logged : ∀ e ∈ n.log, e.op = .window ∧ e.key = key ∧ (i, e.ts) ∈ issued
  present : ∀ ts, (i, ts) ∈ issued → ts ∈ n.stamped ∨ ts.physical ∈ n.window key
  received : ∀ p ∈ n.received, p.1 ≠ i ∧ (p.1, p.2.ts) ∈ issued
  covered : ∀ p ∈ n.received, windowIndex p.2.ts.physical (n.window key) = none
  length : (n.window key).length + n.stamped.length ≤ (issued.map Prod.fst).count i +
    (n.received.map (fun p => p.2.ts.physical)).toFinset.card

namespace Traced

variable {key : GoString} {issued : List (ι × Timestamp)} {i j : ι} {n : WindowNode ι V}

theorem initial (key : GoString) (i : ι) (hlc : HLC) :
    Traced key [] i (⟨⟨Store.newStore, hlc⟩, [], [], [], []⟩ : WindowNode ι V) where
  under _ hts := absurd hts List.not_mem_nil
  stamped _ hts := absurd hts List.not_mem_nil
  stored _ hts := absurd hts List.not_mem_nil
  logged _ he := absurd he List.not_mem_nil
  present _ hts := absurd hts List.not_mem_nil
  received _ hp := absurd hp List.not_mem_nil
  covered _ hp := absurd hp List.not_mem_nil
  length := le_rfl

theorem call (h : Traced key issued i n) (hji : j ≠ i) (ts : Timestamp) :
    Traced key ((j, ts) :: issued) i n := by
  have hmem (ts' : Timestamp) : (i, ts') ∈ (j, ts) :: issued ↔ (i, ts') ∈ issued := by
    rw [List.mem_cons, or_iff_right]
    exact fun heq => hji (congrArg Prod.fst heq).symm
  constructor
  case under => exact fun ts' hts' => h.under ts' ((hmem ts').1 hts')
  case stamped => exact fun ts' hts' => (hmem ts').2 (h.stamped ts' hts')
  case stored => exact fun ts' hts' => (hmem ts').2 (h.stored ts' hts')
  case logged => exact fun e he => ⟨(h.logged e he).1, (h.logged e he).2.1,
    (hmem e.ts).2 (h.logged e he).2.2⟩
  case present => exact fun ts' hts' => h.present ts' ((hmem ts').1 hts')
  case received => exact fun p hp => ⟨(h.received p hp).1,
    List.mem_cons_of_mem _ (h.received p hp).2⟩
  case covered => exact h.covered
  case length =>
    rw [List.map_cons, List.count_cons_of_ne hji]
    exact h.length

theorem now (h : Traced key issued i n) (wall : Int64) :
    Traced key ((i, (n.replica.hlc.now wall).2) :: issued) i (n.now wall) := by
  constructor
  case under =>
    intro ts hts
    rcases List.mem_cons.1 hts with heq | hold
    · exact Or.inl (List.mem_cons.2 (Or.inl (congrArg Prod.snd heq)))
    · exact (h.under ts hold).imp_left (List.mem_cons_of_mem _)
  case stamped =>
    intro ts hts
    rcases List.mem_cons.1 hts with rfl | hold
    · exact List.mem_cons_self
    · exact List.mem_cons_of_mem _ (h.stamped ts hold)
  case stored => exact fun ts hts => List.mem_cons_of_mem _ (h.stored ts hts)
  case logged => exact fun e he => ⟨(h.logged e he).1, (h.logged e he).2.1,
    List.mem_cons_of_mem _ (h.logged e he).2.2⟩
  case present =>
    intro ts hts
    rcases List.mem_cons.1 hts with heq | hold
    · exact Or.inl (List.mem_cons.2 (Or.inl (congrArg Prod.snd heq)))
    · exact (h.present ts hold).imp_left (List.mem_cons_of_mem _)
  case received => exact fun p hp => ⟨(h.received p hp).1,
    List.mem_cons_of_mem _ (h.received p hp).2⟩
  case covered => exact h.covered
  case length =>
    have hlength := h.length
    rw [List.map_cons, List.count_cons_self]
    change _ + (n.stamped.length + 1) ≤ _
    change _ ≤ _ + 1 + (n.received.map (fun p => p.2.ts.physical)).toFinset.card
    change (n.window key).length + _ ≤ _
    omega

theorem store (h : Traced key issued i n) {ts : Timestamp} (hts : ts ∈ n.stamped)
    {window now : Int64} (huntrimmed : ∀ t ∈ n.window key ++ [ts.physical], ¬ t < now - window) :
    Traced key issued i (n.store key ts window now) := by
  have hwindow := n.window_store key huntrimmed
  have herase (ts' : Timestamp) (hts' : ts' ∈ n.stamped) : ts' ∈ n.stamped.erase ts ∨ ts' = ts := by
    by_cases heq : ts' = ts
    · exact Or.inr heq
    · exact Or.inl ((List.mem_erase_of_ne heq).2 hts')
  constructor
  case under =>
    intro ts' hts'
    rcases h.under ts' hts' with hstamped | hstored | hlogged
    · rcases herase ts' hstamped with hkept | rfl
      · exact Or.inl hkept
      · exact Or.inr (Or.inl List.mem_cons_self)
    · exact Or.inr (Or.inl (List.mem_cons_of_mem _ hstored))
    · exact Or.inr (Or.inr hlogged)
  case stamped => exact fun ts' hts' => h.stamped ts' (List.mem_of_mem_erase hts')
  case stored =>
    intro ts' hts'
    rcases List.mem_cons.1 hts' with rfl | hold
    · exact h.stamped _ hts
    · exact h.stored ts' hold
  case logged => exact h.logged
  case present =>
    intro ts' hts'
    rw [hwindow, List.mem_append, List.mem_singleton]
    rcases h.present ts' hts' with hstamped | hwin
    · exact (herase ts' hstamped).imp_right (fun heq => Or.inr (congrArg _ heq))
    · exact Or.inr (Or.inl hwin)
  case received => exact h.received
  case covered =>
    intro p hp
    rw [hwindow]
    exact windowIndex_append (h.covered p hp) _
  case length =>
    have hlength := h.length
    have hpos := List.length_pos_of_mem hts
    rw [hwindow, List.length_append]
    change _ + (n.stamped.erase ts).length ≤
      _ + (n.received.map (fun p => p.2.ts.physical)).toFinset.card
    rw [List.length_erase_of_mem hts, List.length_singleton]
    omega

theorem append (h : Traced key issued i n) (nodeID : GoString) {ts : Timestamp}
    (hts : ts ∈ n.stored) : Traced key issued i (n.append key nodeID ts) := by
  constructor
  case under =>
    intro ts' hts'
    change _ ∨ ts' ∈ n.stored.erase ts ∨ ∃ e ∈ n.log ++ _, e.ts = ts'
    rcases h.under ts' hts' with hstamped | hstored | ⟨e, he, hets⟩
    · exact Or.inl hstamped
    · by_cases heq : ts' = ts
      · exact Or.inr (Or.inr ⟨_, List.mem_append_right _ (List.mem_singleton_self _), heq.symm⟩)
      · exact Or.inr (Or.inl ((List.mem_erase_of_ne heq).2 hstored))
    · exact Or.inr (Or.inr ⟨e, List.mem_append_left _ he, hets⟩)
  case stamped => exact h.stamped
  case stored => exact fun ts' hts' => h.stored ts' (List.mem_of_mem_erase hts')
  case logged =>
    intro e he
    rcases List.mem_append.1 he with hold | hnew
    · exact h.logged e hold
    · rw [List.mem_singleton.1 hnew]
      exact ⟨rfl, rfl, h.stored ts hts⟩
  case present => exact h.present
  case received => exact h.received
  case covered => exact h.covered
  case length => exact h.length

theorem deliver (h : Traced key issued i n) (mp : Msgpack V) {e : LogEntry} (hji : j ≠ i)
    (hop : e.op = .window) (hkey : e.key = key) (hissued : (j, e.ts) ∈ issued) {wall : Int64}
    (hacc : n.replica.hlc.smash wall e.ts = false) :
    Traced key issued i (n.deliver mp j e wall) := by
  have hwindow : (n.deliver mp j e wall).window key = insertEvent e.ts.physical (n.window key) := by
    rw [← hkey]
    exact window_deliver hop hacc
  have hreceived : (n.deliver mp j e wall).received = (j, e) :: n.received := by
    unfold WindowNode.deliver
    rw [hacc]
    rfl
  constructor
  case under => exact h.under
  case stamped => exact h.stamped
  case stored => exact h.stored
  case logged => exact h.logged
  case present =>
    intro ts hts
    rw [hwindow, mem_insertEvent]
    exact (h.present ts hts).imp_right Or.inr
  case received =>
    intro p hp
    rw [hreceived, List.mem_cons] at hp
    rcases hp with rfl | hold
    · exact ⟨hji, hissued⟩
    · exact h.received p hold
  case covered =>
    intro p hp
    rw [hreceived, List.mem_cons] at hp
    rw [hwindow]
    rcases hp with rfl | hold
    · exact windowIndex_insertEvent_self _ _
    · exact windowIndex_insertEvent (h.covered p hold) _
  case length =>
    have hlength := h.length
    rw [hwindow, hreceived, List.map_cons, List.toFinset_cons]
    change _ + n.stamped.length ≤ _ + (insert e.ts.physical _ : Finset Int64).card
    by_cases hidx : windowIndex e.ts.physical (n.window key) = none
    · have hcard := Finset.card_le_card (Finset.subset_insert e.ts.physical
        (n.received.map (fun p => p.2.ts.physical)).toFinset)
      rw [insertEvent_of_none hidx]
      omega
    · have hnew : e.ts.physical ∉ (n.received.map (fun p => p.2.ts.physical)).toFinset := by
        intro hmem
        obtain ⟨p, hp, hphys⟩ := List.mem_map.1 (List.mem_toFinset.1 hmem)
        exact hidx (hphys ▸ h.covered p hp)
      rw [Finset.card_insert_of_notMem hnew, (insertEvent_perm hidx).length_eq, List.length_cons]
      omega

theorem deliver_of_smash (h : Traced key issued i n) (mp : Msgpack V) (j : ι) {e : LogEntry}
    {wall : Int64} (hsmash : n.replica.hlc.smash wall e.ts = true) :
    Traced key issued i (n.deliver mp j e wall) := by
  have hdeliver : n.deliver mp j e wall = n := by
    unfold WindowNode.deliver
    rw [applyRemoteEntry_of_smash hsmash, hsmash]
    rfl
  rwa [hdeliver]

end Traced

end WindowNode

namespace WindowCluster

def initial (hlc : ι → HLC) : WindowCluster ι V :=
  ⟨fun i => ⟨⟨Store.newStore, hlc i⟩, [], [], [], []⟩, []⟩

variable [DecidableEq ι]

variable (key : GoString) (nodeID : ι → GoString) (mp : Msgpack V)

def step (s : WindowCluster ι V) : WindowAction ι → Option (WindowCluster ι V)
  | .now i wall =>
      some { s.setNode i ((s.nodes i).now wall) with
        issued := (i, ((s.nodes i).replica.hlc.now wall).2) :: s.issued }
  | .store i ts window now =>
      if ts ∈ (s.nodes i).stamped then some (s.setNode i ((s.nodes i).store key ts window now))
      else none
  | .append i ts =>
      if ts ∈ (s.nodes i).stored then some (s.setNode i ((s.nodes i).append key (nodeID i) ts))
      else none
  | .deliver i j e wall =>
      if i ≠ j ∧ e ∈ (s.nodes j).log then
        some (s.setNode i ((s.nodes i).deliver mp j e wall))
      else none

/-- No event is older than the horizon of a call. -/
def Untrimmed (s : WindowCluster ι V) : WindowAction ι → Prop
  | .store i ts window now =>
      ∀ t ∈ (s.nodes i).window key ++ [ts.physical], ¬ t < now - window
  | _ => True

instance (s : WindowCluster ι V) (a : WindowAction ι) : Decidable (Untrimmed key s a) :=
  match a with
  | .now _ _ => inferInstanceAs (Decidable True)
  | .store i ts window now =>
      List.decidableBAll (fun t => ¬ t < now - window) ((s.nodes i).window key ++ [ts.physical])
  | .append _ _ => inferInstanceAs (Decidable True)
  | .deliver _ _ _ _ => inferInstanceAs (Decidable True)

/-- The greater of the wall reading and the physical part of the clock was not the physical part of
an earlier call. -/
def Fresh (s : WindowCluster ι V) : WindowAction ι → Prop
  | .now i wall => ∀ call ∈ s.issued, call.2.physical ≠
      if (s.nodes i).replica.hlc.physical < wall then wall else (s.nodes i).replica.hlc.physical
  | _ => True

instance (s : WindowCluster ι V) (a : WindowAction ι) : Decidable (Fresh s a) :=
  match a with
  | .now i wall => inferInstanceAs (Decidable (∀ call ∈ s.issued, call.2.physical ≠
      if (s.nodes i).replica.hlc.physical < wall then wall else (s.nodes i).replica.hlc.physical))
  | .store _ _ _ _ => inferInstanceAs (Decidable True)
  | .append _ _ => inferInstanceAs (Decidable True)
  | .deliver _ _ _ _ => inferInstanceAs (Decidable True)

variable {key nodeID mp} {s t : WindowCluster ι V}

theorem step_cases {a : WindowAction ι} (h : step key nodeID mp s a = some t) :
    (∃ i wall, a = .now i wall ∧ t = { s.setNode i ((s.nodes i).now wall) with
      issued := (i, ((s.nodes i).replica.hlc.now wall).2) :: s.issued }) ∨
    (∃ i ts window now, a = .store i ts window now ∧ ts ∈ (s.nodes i).stamped ∧
      t = s.setNode i ((s.nodes i).store key ts window now)) ∨
    (∃ i ts, a = .append i ts ∧ ts ∈ (s.nodes i).stored ∧
      t = s.setNode i ((s.nodes i).append key (nodeID i) ts)) ∨
    (∃ i j e wall, a = .deliver i j e wall ∧ i ≠ j ∧ e ∈ (s.nodes j).log ∧
      t = s.setNode i ((s.nodes i).deliver mp j e wall)) := by
  cases a with
  | now i wall => exact Or.inl ⟨i, wall, rfl, (Option.some.inj h).symm⟩
  | store i ts window now =>
      simp only [step] at h
      split_ifs at h with hts
      exact Or.inr (Or.inl ⟨i, ts, window, now, rfl, hts, (Option.some.inj h).symm⟩)
  | append i ts =>
      simp only [step] at h
      split_ifs at h with hts
      exact Or.inr (Or.inr (Or.inl ⟨i, ts, rfl, hts, (Option.some.inj h).symm⟩))
  | deliver i j e wall =>
      simp only [step] at h
      split_ifs at h with he
      exact Or.inr (Or.inr (Or.inr ⟨i, j, e, wall, rfl, he.1, he.2, (Option.some.inj h).symm⟩))

def Traced (key : GoString) (s : WindowCluster ι V) : Prop :=
  ∀ i, (s.nodes i).Traced key s.issued i

theorem traced_step {a : WindowAction ι} (h : Traced key s) (ha : Untrimmed key s a)
    (hstep : step key nodeID mp s a = some t) : Traced key t := by
  rcases step_cases hstep with ⟨i, wall, rfl, rfl⟩ | ⟨i, ts, window, now, rfl, hts, rfl⟩ |
    ⟨i, ts, rfl, hts, rfl⟩ | ⟨i, j, e, wall, rfl, hij, he, rfl⟩
  · intro i'
    change ((s.setNode i _).nodes i').Traced _ _ _
    rw [Cluster.nodes_setNode]
    split_ifs with hi
    · rw [hi]
      exact (h i).now wall
    · exact (h i').call (Ne.symm hi) _
  · exact Cluster.forall_setNode h ((h i).store hts ha)
  · exact Cluster.forall_setNode h ((h i).append (nodeID i) hts)
  · obtain ⟨hop, hkey, hissued⟩ := (h j).logged e he
    refine Cluster.forall_setNode h ?_
    cases hsmash : (s.nodes i).replica.hlc.smash wall e.ts with
    | false => exact (h i).deliver mp (Ne.symm hij) hop hkey hissued hsmash
    | true => exact (h i).deliver_of_smash mp j hsmash

/-- The physical parts of the timestamps of all calls, by which the nodes tell events apart. -/
def physicals (s : WindowCluster ι V) : List Int64 := s.issued.map (fun call => call.2.physical)

theorem physicals_step {a : WindowAction ι} (hstep : step key nodeID mp s a = some t) :
    Fresh s a ∧ s.physicals.Nodup ↔ t.physicals.Nodup := by
  rcases step_cases hstep with ⟨i, wall, rfl, rfl⟩ | ⟨i, ts, window, now, rfl, hts, rfl⟩ |
    ⟨i, ts, rfl, hts, rfl⟩ | ⟨i, j, e, wall, rfl, hij, he, rfl⟩
  · have hphysical : ((s.nodes i).replica.hlc.now wall).2.physical =
        if (s.nodes i).replica.hlc.physical < wall then wall
        else (s.nodes i).replica.hlc.physical := by
      unfold HLC.now
      split_ifs <;> rfl
    unfold physicals
    simp only [Fresh, ← hphysical, List.map_cons, List.nodup_cons, List.mem_map, not_exists,
      not_and, ne_eq]
  · exact and_iff_right trivial
  · exact and_iff_right trivial
  · exact and_iff_right trivial

def others (s : WindowCluster ι V) (i : ι) : List Int64 :=
  (s.issued.filter (fun call => call.1 ≠ i)).map (fun call => call.2.physical)

theorem count_add_length_others (s : WindowCluster ι V) (i : ι) :
    (s.issued.map Prod.fst).count i + (s.others i).length = s.physicals.length := by
  unfold others physicals
  rw [List.length_map, List.length_map, List.count, List.countP_map, ← List.countP_eq_length_filter,
    s.issued.length_eq_countP_add_countP (fun call => call.1 == i)]
  congr 1
  refine List.countP_congr (fun call _ => ?_)
  simp

theorem length_window_le {i : ι} (h : Traced key s) :
    ((s.nodes i).window key).length ≤
      (s.issued.map Prod.fst).count i + (s.others i).toFinset.card := by
  have hsubset : ((s.nodes i).received.map (fun p => p.2.ts.physical)).toFinset ⊆
      (s.others i).toFinset := by
    intro t ht
    obtain ⟨p, hp, rfl⟩ := List.mem_map.1 (List.mem_toFinset.1 ht)
    obtain ⟨hother, hissued⟩ := (h i).received p hp
    refine List.mem_toFinset.2 (List.mem_map.2
      ⟨(p.1, p.2.ts), List.mem_filter.2 ⟨hissued, ?_⟩, rfl⟩)
    exact decide_eq_true hother
  have hlength := (h i).length
  have hcard := Finset.card_le_card hsubset
  omega

/-- Two of the calls have timestamps with the same physical part. -/
def Collide (s : WindowCluster ι V) (a b : ι × Timestamp) : Prop :=
  [a, b].Sublist s.issued ∧ a.2.physical = b.2.physical

omit [DecidableEq ι] in
theorem exists_collide (h : ¬ s.physicals.Nodup) : ∃ a b, s.Collide a b := by
  obtain ⟨x, hx⟩ := List.exists_duplicate_iff_not_nodup.2 h
  obtain ⟨calls, hcalls, hmap⟩ := List.sublist_map_iff.1 (List.duplicate_iff_sublist.1 hx)
  obtain ⟨a, b, rfl⟩ : ∃ a b, calls = [a, b] := List.length_eq_two.1
    ((List.length_map _).symm.trans (congrArg List.length hmap.symm))
  obtain ⟨ha, hb⟩ : x = a.2.physical ∧ x = b.2.physical := by simpa using hmap
  exact ⟨a, b, hcalls, ha.symm.trans hb⟩

theorem Collide.not_nodup_others {a b : ι × Timestamp} (h : s.Collide a b) {i : ι} (hia : i ≠ a.1)
    (hib : i ≠ b.1) : ¬ (s.others i).Nodup := by
  have hfilter : [a, b].filter (fun call => call.1 ≠ i) = [a, b] := by
    simp [hia.symm, hib.symm]
  have hsub := (h.1.filter (fun call => call.1 ≠ i)).map (fun call => call.2.physical)
  rw [hfilter, List.map_cons, List.map_singleton, h.2] at hsub
  exact (List.duplicate_iff_sublist.2 hsub).not_nodup

/-- Nothing is under way, and every node has applied the entries of all others. -/
structure Settled (s : WindowCluster ι V) : Prop where
  stamped : ∀ i, (s.nodes i).stamped = []
  stored : ∀ i, (s.nodes i).stored = []
  received : ∀ i j, i ≠ j → ∀ e ∈ (s.nodes j).log, (j, e) ∈ (s.nodes i).received

theorem physical_mem_window (h : Traced key s) (hs : s.Settled) {j : ι} {ts : Timestamp}
    (hts : (j, ts) ∈ s.issued) (i : ι) : ts.physical ∈ (s.nodes i).window key := by
  by_cases hij : i = j
  · subst hij
    rcases (h i).present ts hts with hstamped | hmem
    · rw [hs.stamped i] at hstamped
      cases hstamped
    · exact hmem
  · rcases (h j).under ts hts with hstamped | hstored | ⟨e, he, rfl⟩
    · rw [hs.stamped j] at hstamped
      cases hstamped
    · rw [hs.stored j] at hstored
      cases hstored
    · exact mem_of_windowIndex ((h i).covered _ (hs.received i j hij e he))

theorem length_physicals_le (h : Traced key s) (hs : s.Settled) (hnodup : s.physicals.Nodup)
    (i : ι) : s.physicals.length ≤ ((s.nodes i).window key).length := by
  have hsubset : s.physicals.toFinset ⊆ ((s.nodes i).window key).toFinset := by
    intro t ht
    obtain ⟨call, hcall, rfl⟩ := List.mem_map.1 (List.mem_toFinset.1 ht)
    exact List.mem_toFinset.2 (physical_mem_window h hs hcall i)
  calc s.physicals.length = s.physicals.toFinset.card := (List.toFinset_card_of_nodup hnodup).symm
    _ ≤ ((s.nodes i).window key).toFinset.card := Finset.card_le_card hsubset
    _ ≤ ((s.nodes i).window key).length := List.toFinset_card_le _

theorem card_others_lt {i : ι} (h : ¬ (s.others i).Nodup) :
    (s.others i).toFinset.card < (s.others i).length := by
  refine lt_of_le_of_ne (List.toFinset_card_le _) (fun heq => h ?_)
  exact Multiset.coe_nodup.1 (Multiset.toFinset_card_eq_card_iff_nodup.1 heq)

/-- Once everything is delivered, the windows hold one event a call as long as no call takes the
physical part of an earlier one. Otherwise two calls collide, and of any two calls that do, every
node that made neither of them holds fewer events than there were calls. -/
theorem window_counts_calls {hlc : ι → HLC} {as : List (WindowAction ι)}
    (hrun : StepSystem.run (step key nodeID mp) (initial hlc) as = some s)
    (huntrimmed : StepSystem.Along (step key nodeID mp) (Untrimmed key) (initial hlc) as)
    (hs : s.Settled) :
    (StepSystem.Along (step key nodeID mp) Fresh (initial hlc) as →
      ∀ i, ((s.nodes i).window key).length = s.issued.length) ∧
    (¬ StepSystem.Along (step key nodeID mp) Fresh (initial hlc) as → ∃ a b, s.Collide a b) ∧
    ∀ a b, s.Collide a b → ∀ i, i ≠ a.1 → i ≠ b.1 →
      ((s.nodes i).window key).length < s.issued.length := by
  have htraced : Traced key s :=
    StepSystem.run_invariant_along (fun s a t h ha hstep => traced_step h ha hstep)
      (fun i => WindowNode.Traced.initial key i (hlc i)) huntrimmed hrun
  have hfresh := StepSystem.along_and_iff (P := fun s => s.physicals.Nodup)
    (fun s a t hstep => physicals_step hstep) hrun
  have hnil : (initial hlc : WindowCluster ι V).physicals.Nodup := List.nodup_nil
  rw [and_iff_left hnil] at hfresh
  have hlength : s.physicals.length = s.issued.length := List.length_map _
  refine ⟨?_, ?_, ?_⟩
  · intro halong i
    have hle := length_window_le (i := i) htraced
    have hcard := List.toFinset_card_le (s.others i)
    have hcount := s.count_add_length_others i
    have hge := length_physicals_le htraced hs (hfresh.1 halong) i
    omega
  · intro hnot
    exact exists_collide (fun h => hnot (hfresh.2 h))
  · intro a b hab i hia hib
    have hle := length_window_le (i := i) htraced
    have hlt := card_others_lt (hab.not_nodup_others hia hib)
    have hcount := s.count_add_length_others i
    omega

def pair : WindowCluster Bool UInt8 := initial (fun _ => newHLC 9)

def pairStep : WindowCluster Bool UInt8 → WindowAction Bool → Option (WindowCluster Bool UInt8) :=
  step (bytes "k") twoNodeIDs byteMsgpack

def call (i : Bool) (wall : Int64) (ts : Timestamp) : List (WindowAction Bool) :=
  [.now i wall, .store i ts 1000 wall, .append i ts]

def sent (i : Bool) (ts : Timestamp) (seq : ℕ) : LogEntry :=
  { windowLogEntry ts (bytes "k") (twoNodeIDs i) with seq := seq }

def apartRun : List (WindowAction Bool) :=
  call false 10 ⟨10, 0⟩ ++ call true 11 ⟨11, 0⟩ ++
    [.deliver true false (sent false ⟨10, 0⟩ 1) 12, .deliver false true (sent true ⟨11, 0⟩ 1) 13]

theorem apartRun_isSome : (StepSystem.run pairStep pair apartRun).isSome = true := by
  decide +kernel

def instantRun : List (WindowAction Bool) :=
  call false 10 ⟨10, 0⟩ ++ call false 10 ⟨10, 1⟩ ++
    [.deliver true false (sent false ⟨10, 0⟩ 1) 11, .deliver true false (sent false ⟨10, 1⟩ 2) 12]

theorem instantRun_isSome : (StepSystem.run pairStep pair instantRun).isSome = true := by
  decide +kernel

theorem window_counts_calls_apart :
    ∃ s, StepSystem.run pairStep pair apartRun = some s ∧
      ∀ i, ((s.nodes i).window (bytes "k")).length = 2 := by
  have huntrimmed : StepSystem.Along pairStep (Untrimmed (bytes "k")) pair apartRun := by
    decide +kernel
  have hfresh : StepSystem.Along pairStep Fresh pair apartRun := by decide +kernel
  obtain ⟨s, hrun, hsettled, hlength⟩ : ∃ s, StepSystem.run pairStep pair apartRun = some s ∧
      s.Settled ∧ s.issued.length = 2 := by
    refine ⟨_, (Option.some_get apartRun_isSome).symm,
      ⟨by decide +kernel, by decide +kernel, by decide +kernel⟩, by decide +kernel⟩
  refine ⟨s, hrun, fun i => ?_⟩
  rw [← hlength]
  exact (window_counts_calls hrun huntrimmed hsettled).1 hfresh i

/-- The second call has the physical part of the first, and the other node takes its entry for a
redelivery: it holds one event for two calls. -/
theorem same_instant_lost :
    ∃ s, StepSystem.run pairStep pair instantRun = some s ∧
      StepSystem.Along pairStep (Untrimmed (bytes "k")) pair instantRun ∧ s.Settled ∧
      s.issued.length = 2 ∧ ((s.nodes false).window (bytes "k")).length = 2 ∧
      ((s.nodes true).window (bytes "k")).length = 1 := by
  refine ⟨_, (Option.some_get instantRun_isSome).symm, by decide +kernel,
    ⟨by decide +kernel, by decide +kernel, by decide +kernel⟩, ?_⟩
  decide +kernel

end WindowCluster
end Capacitor
