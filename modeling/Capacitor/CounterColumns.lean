import Capacitor.CounterCluster

/-!
# What a cluster knows of one node

A column of the counts of a cluster holds what all nodes know of one of them. It starts from given
values: the counts that the node itself starts with, which are zero at first and those of a flushed
image after a crash, and the counts that the other nodes already hold of it. From there the node's
own count is what it started with and what was issued on it, and a copy lies between what was held
at first and the greater of that and the node's own count.
-/

namespace Capacitor

open Store

variable {ι V : Type*}

def PendingIncr.key : PendingIncr → GoString
  | .added key => key
  | .read key _ => key

namespace CounterCluster

/-- The node has been called for the key. -/
def Called (s : CounterCluster ι V) (j : ι) (key : GoString) : Prop :=
  ∃ delta, (j, key, delta) ∈ s.issued

variable [DecidableEq ι]

theorem issuedBy_of_not_called {s : CounterCluster ι V} {j : ι} {key : GoString}
    (h : ¬ s.Called j key) : issuedBy s j key = 0 := by
  unfold issuedBy
  apply List.sum_eq_zero
  intro x hx
  obtain ⟨⟨i, k, delta⟩, hc, rfl⟩ := List.mem_map.1 hx
  rw [if_neg]
  rintro ⟨rfl, rfl⟩
  exact h ⟨delta, hc⟩

/-- What all nodes know of the node `j`. It started with the counts `base` of its own, when the
other nodes held the counts `held` of it. -/
structure Column (nodeID : ι → GoString) (base : GoString → ℚ) (held : ι → GoString → ℚ)
    (s : CounterCluster ι V) (j : ι) : Prop where
  own : ∀ key, count nodeID s j key j = base key + issuedBy s j key
  low : ∀ i key, i ≠ j → held i key ≤ count nodeID s i key j
  high : ∀ i key, i ≠ j → count nodeID s i key j ≤ max (held i key) (count nodeID s j key j)
  unmoved : ∀ i key, i ≠ j → ¬ s.Called j key → count nodeID s i key j = held i key
  logged : ∀ e ∈ (s.nodes j).log, e.op = .incr ∧ e.nodeID = nodeID j ∧ s.Called j e.key ∧
    e.delta ≤ count nodeID s j e.key j
  pending : ∀ p ∈ (s.nodes j).pending, s.Called j p.key
  readBack : ∀ key v, .read key v ∈ (s.nodes j).pending → v ≤ count nodeID s j key j
  carried : ∀ key, s.Called j key → .added key ∈ (s.nodes j).pending ∨
    .read key (count nodeID s j key j) ∈ (s.nodes j).pending ∨
    ∃ e ∈ (s.nodes j).log, e.key = key ∧ e.delta = count nodeID s j key j
  received : ∀ i, ∀ p ∈ (s.nodes i).received, p.1 = j → p.2.delta ≤ count nodeID s i p.2.key j

namespace Column

variable {nodeID : ι → GoString} {base : GoString → ℚ} {held : ι → GoString → ℚ}
  {s t : CounterCluster ι V} {j : ι}

theorem frame (h : Column nodeID base held s j) {i : ι} {n : CounterNode ι V}
    (ht : t.nodes = (s.setNode i n).nodes)
    (hissued : t.issued = s.issued ∨ ∃ c, c.1 ≠ j ∧ t.issued = c :: s.issued)
    (hcount : ∀ key, n.count key (nodeID j) = (s.nodes i).count key (nodeID j))
    (hreceived : ∀ p ∈ n.received, p.1 = j → p ∈ (s.nodes i).received)
    (hsame : i = j → n.log = (s.nodes i).log ∧ n.pending = (s.nodes i).pending) :
    Column nodeID base held t j := by
  have hcounts (i' key) : count nodeID t i' key j = count nodeID s i' key j := by
    unfold count
    rw [ht, StepSystem.Cluster.nodes_setNode]
    split_ifs with hi
    · rw [hi, hcount]
    · rfl
  have hcalled (key) : t.Called j key ↔ s.Called j key := by
    unfold Called
    rcases hissued with hold | ⟨⟨i', key', delta'⟩, hne, hnew⟩
    · rw [hold]
    · rw [hnew]
      simp [Ne.symm hne]
  have hsum (key) : issuedBy t j key = issuedBy s j key := by
    rcases hissued with hold | ⟨⟨i', key', delta'⟩, hne, hnew⟩
    · rw [issuedBy, hold, issuedBy]
    · rw [issuedBy_of_issued_eq hnew, if_neg (fun hsame => hne hsame.1.symm), add_zero]
  have hnode : (t.nodes j).log = (s.nodes j).log ∧ (t.nodes j).pending = (s.nodes j).pending := by
    rw [ht, StepSystem.Cluster.nodes_setNode]
    split_ifs with hj
    · subst hj
      exact hsame rfl
    · exact ⟨rfl, rfl⟩
  constructor
  case own => simpa only [hcounts, hsum] using h.own
  case low => simpa only [hcounts] using h.low
  case high => simpa only [hcounts] using h.high
  case unmoved => simpa only [hcounts, hcalled] using h.unmoved
  case logged => simpa only [hcounts, hcalled, hnode.1] using h.logged
  case pending => simpa only [hcalled, hnode.2] using h.pending
  case readBack => simpa only [hcounts, hnode.2] using h.readBack
  case carried => simpa only [hcounts, hcalled, hnode.1, hnode.2] using h.carried
  case received =>
    intro i' p hp hj
    rw [hcounts]
    apply h.received i' p _ hj
    rw [ht, StepSystem.Cluster.nodes_setNode] at hp
    split_ifs at hp with hi
    · rw [hi]
      exact hreceived p hp hj
    · exact hp

theorem exchange (h : Column nodeID base held s j) {n : CounterNode ι V}
    (hstore : n.replica.store = (s.nodes j).replica.store)
    (hreceived : n.received = (s.nodes j).received)
    (hlogged : ∀ e ∈ n.log, e ∈ (s.nodes j).log ∨ e.op = .incr ∧ e.nodeID = nodeID j ∧
      ∃ p ∈ (s.nodes j).pending, p = .read e.key e.delta)
    (hpending : ∀ p ∈ n.pending, p ∈ (s.nodes j).pending ∨
      .added p.key ∈ (s.nodes j).pending ∧ p = .read p.key (count nodeID s j p.key j))
    (hcarried : ∀ key, s.Called j key → .added key ∈ n.pending ∨
      .read key (count nodeID s j key j) ∈ n.pending ∨
      ∃ e ∈ n.log, e.key = key ∧ e.delta = count nodeID s j key j) :
    Column nodeID base held (s.setNode j n) j := by
  have hcount (i key j') : count nodeID (s.setNode j n) i key j' = count nodeID s i key j' := by
    rw [(bump_of_store_eq hstore).count_eq, ite_self, add_zero]
  have hnode : (s.setNode j n).nodes j = n := by rw [StepSystem.Cluster.nodes_setNode, if_pos rfl]
  constructor
  case own =>
    intro key
    rw [hcount]
    exact h.own key
  case low => simpa only [hcount] using h.low
  case high => simpa only [hcount] using h.high
  case unmoved =>
    intro i key hi hkey
    rw [hcount]
    exact h.unmoved i key hi hkey
  case logged =>
    intro e he
    rw [hnode] at he
    rw [hcount]
    rcases hlogged e he with hold | ⟨hop, hid, p, hp, rfl⟩
    · exact h.logged e hold
    · exact ⟨hop, hid, h.pending _ hp, h.readBack _ _ hp⟩
  case pending =>
    intro p hp
    rw [hnode] at hp
    rcases hpending p hp with hold | ⟨hadded, -⟩
    · exact h.pending p hold
    · exact h.pending (.added p.key) hadded
  case readBack =>
    intro key v hv
    rw [hnode] at hv
    rw [hcount]
    rcases hpending _ hv with hold | ⟨-, heq⟩
    · exact h.readBack key v hold
    · exact (PendingIncr.read.inj heq).2.le
  case carried =>
    intro key hkey
    rw [hnode, hcount]
    exact hcarried key hkey
  case received =>
    intro i p hp hj
    rw [hcount]
    rw [StepSystem.Cluster.nodes_setNode] at hp
    split_ifs at hp with hi
    · subst hi
      exact h.received i p (hreceived ▸ hp) hj
    · exact h.received i p hp hj

theorem increment (h : Column nodeID base held s j) {key : GoString} {delta : ℤ}
    (hb : Bump nodeID s t j key j delta) (hissued : t.issued = (j, key, delta) :: s.issued)
    (ht : t.nodes = (s.setNode j ((s.nodes j).increment key (nodeID j) delta)).nodes) :
    Column nodeID base held t j := by
  have hother (i key') (hi : i ≠ j) : count nodeID t i key' j = count nodeID s i key' j := by
    rw [hb.count_eq, if_neg (fun h => hi h.1), add_zero]
  have hown (key') (hkey : key' ≠ key) : count nodeID t j key' j = count nodeID s j key' j := by
    rw [hb.count_eq, if_neg (fun h => hkey h.2.1), add_zero]
  have hcalled (key') : t.Called j key' ↔ key' = key ∨ s.Called j key' := by
    unfold Called
    rw [hissued]
    simp [exists_or]
  have hnode : t.nodes j = (s.nodes j).increment key (nodeID j) delta := by
    rw [ht, StepSystem.Cluster.nodes_setNode, if_pos rfl]
  constructor
  case own =>
    intro key'
    rw [hb.count_eq, h.own, issuedBy_of_issued_eq hissued, add_assoc]
    by_cases hkey : key' = key
    · simp [hkey]
    · simp [hkey]
  case low =>
    intro i key' hi
    rw [hother i key' hi]
    exact h.low i key' hi
  case high =>
    intro i key' hi
    rw [hother i key' hi]
    exact (h.high i key' hi).trans (max_le_max_left _ (hb.count_le j key' j))
  case unmoved =>
    intro i key' hi hkey
    rw [hother i key' hi]
    exact h.unmoved i key' hi (fun hold => hkey ((hcalled key').2 (Or.inr hold)))
  case logged =>
    intro e he
    rw [hnode] at he
    obtain ⟨hop, hid, hkey, hle⟩ := h.logged e he
    exact ⟨hop, hid, (hcalled _).2 (Or.inr hkey), hle.trans (hb.count_le j e.key j)⟩
  case pending =>
    intro p hp
    rw [hnode] at hp
    rcases List.mem_cons.1 hp with rfl | hold
    · exact (hcalled key).2 (Or.inl rfl)
    · exact (hcalled p.key).2 (Or.inr (h.pending p hold))
  case readBack =>
    intro key' v hv
    rw [hnode] at hv
    have hold : PendingIncr.read key' v ∈ (s.nodes j).pending :=
      (List.mem_cons.1 hv).resolve_left (fun heq => by cases heq)
    exact (h.readBack key' v hold).trans (hb.count_le j key' j)
  case carried =>
    intro key' hkey
    rw [hnode]
    by_cases heq : key' = key
    · subst heq
      exact Or.inl List.mem_cons_self
    · rw [hown key' heq]
      exact (h.carried key' (((hcalled key').1 hkey).resolve_left heq)).imp
        (List.mem_cons_of_mem _) (Or.imp_left (List.mem_cons_of_mem _))
  case received =>
    intro i p hp hj
    have hold : p ∈ (s.nodes i).received := by
      by_cases hi : i = j
      · subst hi
        rw [hnode] at hp
        exact hp
      · rw [ht, StepSystem.Cluster.nodes_setNode, if_neg hi] at hp
        exact hp
    exact (h.received i p hold hj).trans (hb.count_le i p.2.key j)

theorem deliver (hinj : Function.Injective nodeID) (hcolon : ∀ i, colon ∉ nodeID i)
    (h : Column nodeID base held s j) (mp : Msgpack V) {i : ι} (hij : i ≠ j) {e : LogEntry}
    (he : e ∈ (s.nodes j).log) {wall : Int64}
    (hacc : (s.nodes i).replica.hlc.smash wall e.ts = false) :
    Column nodeID base held (s.setNode i ((s.nodes i).deliver mp j e wall)) j := by
  obtain ⟨hop, hid, hcalled, hle⟩ := h.logged e he
  have hb := bump_deliver mp hinj hcolon hop hid hacc
  have hnode : (s.setNode i ((s.nodes i).deliver mp j e wall)).nodes j = s.nodes j :=
    (StepSystem.Cluster.nodes_setNode _ _ _ _).trans (if_neg (Ne.symm hij))
  have hown (key) : count nodeID (s.setNode i ((s.nodes i).deliver mp j e wall)) j key j =
      count nodeID s j key j := by
    unfold count
    rw [hnode]
  constructor
  case own =>
    intro key
    rw [hown]
    exact h.own key
  case low =>
    intro i' key hi'
    exact (h.low i' key hi').trans (hb.count_le i' key j)
  case high =>
    intro i' key hi'
    rw [hown, hb.count_eq]
    split_ifs with hsame
    · obtain ⟨rfl, rfl, -⟩ := hsame
      rw [add_sub_cancel]
      exact max_le (h.high i' e.key hi') (hle.trans (le_max_right _ _))
    · rw [add_zero]
      exact h.high i' key hi'
  case unmoved =>
    intro i' key hi' hkey
    have hne : ¬ (i' = i ∧ key = e.key ∧ j = j) := fun hsame => hkey (hsame.2.1 ▸ hcalled)
    rw [hb.count_eq, if_neg hne, add_zero]
    exact h.unmoved i' key hi' hkey
  case logged =>
    intro e' he'
    rw [hnode] at he'
    rw [hown]
    exact h.logged e' he'
  case pending =>
    intro p hp
    rw [hnode] at hp
    exact h.pending p hp
  case readBack =>
    intro key v hv
    rw [hnode] at hv
    rw [hown]
    exact h.readBack key v hv
  case carried =>
    intro key hkey
    rw [hnode, hown]
    exact h.carried key hkey
  case received =>
    intro i' p hp hj
    by_cases hi : i' = i
    · subst hi
      rw [StepSystem.Cluster.nodes_setNode, if_pos rfl] at hp
      simp only [CounterNode.deliver, hacc] at hp
      rcases List.mem_cons.1 hp with rfl | hold
      · rw [hb.count_eq, if_pos ⟨rfl, rfl, rfl⟩, add_sub_cancel]
        exact le_max_right _ _
      · exact (h.received i' p hold hj).trans (hb.count_le i' p.2.key j)
    · rw [StepSystem.Cluster.nodes_setNode, if_neg hi] at hp
      exact (h.received i' p hp hj).trans (hb.count_le i' p.2.key j)

theorem getNodeCount (h : Column nodeID base held s j) {key : GoString}
    (hadded : .added key ∈ (s.nodes j).pending) :
    Column nodeID base held (s.setNode j ((s.nodes j).getNodeCount key (nodeID j))) j := by
  refine h.exchange rfl rfl (fun _ he => Or.inl he) ?_ ?_
  · intro p hp
    rcases List.mem_cons.1 hp with rfl | hold
    · exact Or.inr ⟨hadded, rfl⟩
    · exact Or.inl (List.mem_of_mem_erase hold)
  · intro key' hkey
    by_cases heq : key' = key
    · subst heq
      exact Or.inr (Or.inl List.mem_cons_self)
    · have hne : PendingIncr.added key' ≠ .added key := fun h => heq (PendingIncr.added.inj h)
      refine (h.carried key' hkey).imp ?_ (Or.imp_left ?_)
      · intro hp
        exact List.mem_cons_of_mem _ ((List.mem_erase_of_ne hne).2 hp)
      · intro hp
        exact List.mem_cons_of_mem _ ((List.mem_erase_of_ne (fun h => by cases h)).2 hp)

theorem append (h : Column nodeID base held s j) {key : GoString} {nodeVal : ℚ}
    (hread : .read key nodeVal ∈ (s.nodes j).pending) (wall bornAt : Int64) :
    Column nodeID base held
      (s.setNode j ((s.nodes j).append key (nodeID j) nodeVal wall bornAt)) j := by
  refine h.exchange rfl rfl ?_ (fun p hp => Or.inl (List.mem_of_mem_erase hp)) ?_
  · intro e he
    rcases List.mem_append.1 he with hold | hnew
    · exact Or.inl hold
    · rw [List.mem_singleton.1 hnew]
      exact Or.inr ⟨rfl, rfl, _, hread, rfl⟩
  · intro key' hkey
    rcases h.carried key' hkey with hadded | hval | ⟨e, he, hlogged⟩
    · exact Or.inl ((List.mem_erase_of_ne (fun h => by cases h)).2 hadded)
    · by_cases hsame : PendingIncr.read key' (count nodeID s j key' j) = .read key nodeVal
      · obtain ⟨rfl, hval⟩ := PendingIncr.read.inj hsame
        refine Or.inr (Or.inr ⟨_, List.mem_append_right _ (List.mem_singleton_self _), rfl, ?_⟩)
        exact hval.symm
      · exact Or.inr (Or.inl ((List.mem_erase_of_ne hsame).2 hval))
    · exact Or.inr (Or.inr ⟨e, List.mem_append_left _ he, hlogged⟩)

/-- Every call and every delivery keeps all columns. -/
theorem step (hinj : Function.Injective nodeID) (hcolon : ∀ i, colon ∉ nodeID i) {mp : Msgpack V}
    {base : ι → GoString → ℚ} {held : ι → ι → GoString → ℚ} {a : CounterAction ι}
    (h : ∀ j, Column nodeID (base j) (held j) s j) (ha : a.NonNegative)
    (hstep : CounterCluster.step nodeID mp s a = some t) (j : ι) :
    Column nodeID (base j) (held j) t j := by
  cases a with
  | increment i key delta =>
      simp only [CounterCluster.step, Option.some.injEq] at hstep
      subst t
      by_cases hij : i = j
      · subst hij
        exact (h i).increment (bump_increment hinj hcolon i key ha) rfl rfl
      · refine (h j).frame (i := i) rfl (Or.inr ⟨_, hij, rfl⟩) ?_ (fun _ hp _ => hp)
          (fun heq => absurd heq hij)
        intro key'
        rw [CounterNode.count_increment hinj hcolon, if_neg (fun hsame => hij hsame.2.symm),
          add_zero]
  | getNodeCount i key =>
      simp only [CounterCluster.step] at hstep
      split_ifs at hstep with hadded
      obtain rfl := Option.some.inj hstep
      by_cases hij : i = j
      · subst hij
        exact (h i).getNodeCount hadded
      · exact (h j).frame rfl (Or.inl rfl) (fun _ => rfl) (fun _ hp _ => hp)
          (fun heq => absurd heq hij)
  | append i key nodeVal wall bornAt =>
      simp only [CounterCluster.step] at hstep
      split_ifs at hstep with hread
      obtain rfl := Option.some.inj hstep
      by_cases hij : i = j
      · subst hij
        exact (h i).append hread wall bornAt
      · exact (h j).frame rfl (Or.inl rfl) (fun _ => rfl) (fun _ hp _ => hp)
          (fun heq => absurd heq hij)
  | deliver i j₀ e wall =>
      simp only [CounterCluster.step] at hstep
      split_ifs at hstep with hsent
      obtain rfl := Option.some.inj hstep
      obtain ⟨hij, he⟩ := hsent
      obtain ⟨hop, hid, -, -⟩ := (h j₀).logged e he
      cases hacc : (s.nodes i).replica.hlc.smash wall e.ts with
      | true =>
          refine (h j).frame rfl (Or.inl rfl) ?_ ?_ (fun _ => ⟨rfl, rfl⟩)
          · intro key
            rw [CounterNode.count, CounterNode.deliver, applyRemoteEntry_of_smash hacc,
              CounterNode.count]
          · intro p hp _
            simpa only [CounterNode.deliver, hacc, if_true] using hp
      | false =>
          by_cases hj : j₀ = j
          · subst hj
            exact (h j₀).deliver hinj hcolon mp hij he hacc
          · refine (h j).frame rfl (Or.inl rfl) ?_ ?_ (fun _ => ⟨rfl, rfl⟩)
            · intro key
              rw [CounterNode.count_deliver hinj hcolon mp _ _ hop hid hacc,
                if_neg (fun hsame => hj hsame.2.symm), add_zero]
            · intro p hp hpj
              simp only [CounterNode.deliver, hacc] at hp
              rcases List.mem_cons.1 hp with rfl | hold
              · exact absurd hpj hj
              · exact hold

/-- Once the calls of the node are done and its greatest entry for the key is received, the copy is
the greater of the node's own count and of what was held at first. -/
theorem count_eq (h : Column nodeID base held s j) {i : ι} (hij : i ≠ j) {key : GoString}
    (hdone : (s.nodes j).pending = [])
    (hreach : ∀ e ∈ (s.nodes j).log, e.key = key →
      ∃ p ∈ (s.nodes i).received, p.1 = j ∧ p.2.key = key ∧ e.delta ≤ p.2.delta)
    (hcalled : s.Called j key) :
    count nodeID s i key j = max (held i key) (count nodeID s j key j) := by
  apply le_antisymm (h.high i key hij)
  apply max_le (h.low i key hij)
  rcases h.carried key hcalled with hadded | hread | ⟨e, he, hkey, hdelta⟩
  · rw [hdone] at hadded
    cases hadded
  · rw [hdone] at hread
    cases hread
  · obtain ⟨p, hp, hj, rfl, hle⟩ := hreach e he hkey
    exact hdelta.symm.trans_le (hle.trans (h.received i p hp hj))

end Column
end CounterCluster
end Capacitor
