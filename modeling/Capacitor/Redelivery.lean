import Capacitor.Node

/-!
# Redelivery of log entries

Batches are sent again after a failed write and after a handshake that moves the cursor back, so a
node may apply an entry it has applied before. Four of the five kinds of entry are absorbed: once
applied they stay `Covered`, and a covered entry changes nothing. A metric entry carries an
increment and not a total, so each accepted redelivery counts one more hit.
-/

namespace Capacitor

variable {V : Type*}

open Store

def deliverAll (mp : Msgpack V) (r : Replica V) (ds : List (Int64 × LogEntry)) : Replica V :=
  ds.foldl (fun r d => applyRemoteEntry mp r d.1 d.2) r

/-- What the replicated state shows of an entry that has been applied to it. -/
def Covered (e : LogEntry) (R : Replicated V) : Prop :=
  match e.op with
  | .set | .delete => ∃ x, R.cache (slot e.key) = some x ∧ e.ts ≤ x.timestamp
  | .incr => e.delta ≤ (R.counts (countSlot e.key e.nodeID)).getD 0
  | .window => windowIndex e.ts.physical ((R.windows (slot e.key)).getD []) = none
  | .metric => False
  | .unknown _ => True

theorem windowIndex_insert_self {ts : Int64} {win : List Int64} {idx : ℕ}
    (h : windowIndex ts win = some idx) :
    windowIndex ts (win.take idx ++ ts :: win.drop idx) = none := by
  induction win generalizing idx with
  | nil =>
      obtain rfl := Option.some.inj h
      simp [windowIndex]
  | cons t win ih =>
      simp only [windowIndex] at h
      split_ifs at h with heq hgt
      · obtain rfl := Option.some.inj h
        simp [windowIndex]
      · obtain ⟨i, hi, rfl⟩ := Option.map_eq_some_iff.1 h
        simp only [List.take_succ_cons, List.drop_succ_cons, List.cons_append, windowIndex,
          if_neg heq, if_neg hgt, ih hi, Option.map_none]

theorem not_lt_head_of_windowIndex {ts t : Int64} {win : List Int64}
    (h : windowIndex ts (t :: win) = none) : ¬ ts < t := by
  intro hlt
  have hne : t ≠ ts := fun heq => Int64.lt_irrefl (heq ▸ hlt)
  simp only [windowIndex, if_neg hne, if_pos hlt] at h
  cases h

theorem windowIndex_insert {ts ts' : Int64} {win : List Int64} {idx : ℕ}
    (h : windowIndex ts win = none) (h' : windowIndex ts' win = some idx) :
    windowIndex ts (win.take idx ++ ts' :: win.drop idx) = none := by
  induction win generalizing idx with
  | nil => cases h
  | cons t win ih =>
      have hhead := not_lt_head_of_windowIndex h
      simp only [windowIndex] at h'
      split_ifs at h' with heq' hgt'
      · obtain rfl := Option.some.inj h'
        have hnot : ¬ ts < ts' := fun hlt => hhead (Int64.lt_trans hlt hgt')
        change windowIndex ts (ts' :: t :: win) = none
        rw [windowIndex, if_neg hnot, h, Option.map_none, ite_self]
      · obtain ⟨i, hi, rfl⟩ := Option.map_eq_some_iff.1 h'
        change windowIndex ts (t :: (win.take i ++ ts' :: win.drop i)) = none
        rw [windowIndex] at h ⊢
        split_ifs at h ⊢
        · rfl
        · rw [ih (Option.map_eq_none_iff.1 h) hi, Option.map_none]

namespace Replicated

theorem windowIndex_insertWindow_self (R : Replicated V) (p : Fin numShards × GoString)
    (ts : Int64) : windowIndex ts (((R.insertWindow p ts).windows p).getD []) = none := by
  unfold insertWindow
  cases h : windowIndex ts ((R.windows p).getD []) with
  | none => exact h
  | some idx =>
      simp only [Function.update_self, Option.getD_some]
      exact windowIndex_insert_self h

theorem windowIndex_insertWindow {R : Replicated V} {p : Fin numShards × GoString} {ts : Int64}
    (hts : windowIndex ts ((R.windows p).getD []) = none) (p' : Fin numShards × GoString)
    (ts' : Int64) : windowIndex ts (((R.insertWindow p' ts').windows p).getD []) = none := by
  unfold insertWindow
  cases h : windowIndex ts' ((R.windows p').getD []) with
  | none => exact hts
  | some idx =>
      by_cases hp : p = p'
      · subst p'
        simp only [Function.update_self, Option.getD_some]
        exact windowIndex_insert hts h
      · simp only [Function.update_of_ne hp]
        exact hts

theorem cache_apply_mono {R : Replicated V} {p : Fin numShards × GoString} {x : ValWithTS V}
    (hx : R.cache p = some x) (mp : Msgpack V) (e : LogEntry) :
    ∃ y, (R.apply mp e).cache p = some y ∧ x.timestamp ≤ y.timestamp := by
  unfold apply
  cases e.op with
  | set => exact LastWriter.write_mono ValWithTS.timestamp hx _ _
  | delete => exact LastWriter.write_mono ValWithTS.timestamp hx _ _
  | incr => exact ⟨x, (congrFun (R.cache_raise _ _ _) p).trans hx, le_rfl⟩
  | metric => exact ⟨x, hx, le_rfl⟩
  | window => exact ⟨x, (congrFun (R.cache_insertWindow _ _) p).trans hx, le_rfl⟩
  | unknown code => exact ⟨x, hx, le_rfl⟩

theorem windowIndex_apply {R : Replicated V} {p : Fin numShards × GoString} {ts : Int64}
    (h : windowIndex ts ((R.windows p).getD []) = none) (mp : Msgpack V) (e : LogEntry) :
    windowIndex ts (((R.apply mp e).windows p).getD []) = none := by
  unfold apply
  cases e.op with
  | set => exact h
  | delete => exact h
  | incr =>
      dsimp only
      rw [windows_raise]
      exact h
  | metric => exact h
  | window => exact windowIndex_insertWindow h _ _
  | unknown code => exact h

/-- The counts an entry can lower are the sums of metrics, so every other one only grows. -/
theorem counts_apply_mono (mp : Msgpack V) (R : Replicated V) (e : LogEntry)
    {p : Fin numShards × GoString} (hp : ∀ k n, p.2 ≠ metricSumKey k n) :
    (R.counts p).getD 0 ≤ ((R.apply mp e).counts p).getD 0 := by
  unfold apply
  cases e.op with
  | set => exact le_rfl
  | delete => exact le_rfl
  | incr =>
      dsimp only
      rw [counts_raise_getD]
      split_ifs
      · exact le_max_left _ _
      · exact le_rfl
  | metric =>
      have hsum : p ≠ (shardIndex e.key, metricSumKey e.key e.nodeID) :=
        fun h => hp _ _ (congrArg Prod.snd h)
      dsimp only
      rw [counts_add_getD, counts_add_getD, if_neg hsum, add_zero]
      split_ifs
      · exact le_add_of_nonneg_right zero_le_one
      · rw [add_zero]
  | window =>
      dsimp only
      rw [counts_insertWindow]
  | unknown code => exact le_rfl

theorem counts_apply_metric (mp : Msgpack V) (R : Replicated V) {e : LogEntry}
    (he : e.op = .metric) :
    ((R.apply mp e).counts (shardIndex e.key, metricCountKey e.key e.nodeID)).getD 0 =
      (R.counts (shardIndex e.key, metricCountKey e.key e.nodeID)).getD 0 + 1 := by
  have hsum : (shardIndex e.key, metricCountKey e.key e.nodeID) ≠
      (shardIndex e.key, metricSumKey e.key e.nodeID) :=
    fun h => metricCountKey_ne_metricSumKey _ _ _ _ (congrArg Prod.snd h)
  unfold apply
  rw [he]
  dsimp only
  rw [counts_add_getD, counts_add_getD, if_neg hsum, if_pos rfl, add_zero]

theorem covered_apply (mp : Msgpack V) (R : Replicated V) {e : LogEntry} (he : e.op ≠ .metric) :
    Covered e (R.apply mp e) := by
  unfold Covered apply
  cases hop : e.op with
  | set => exact LastWriter.le_write_self ValWithTS.timestamp R.cache _ _
  | delete => exact LastWriter.le_write_self ValWithTS.timestamp R.cache _ _
  | incr =>
      dsimp only
      rw [counts_raise_getD, if_pos rfl]
      exact le_max_right _ _
  | metric => exact he hop
  | window => exact R.windowIndex_insertWindow_self _ _
  | unknown code => trivial

theorem covered_apply_mono {e : LogEntry} {R : Replicated V} (h : Covered e R) (mp : Msgpack V)
    (e' : LogEntry) : Covered e (R.apply mp e') := by
  have hcache (h : ∃ x, R.cache (slot e.key) = some x ∧ e.ts ≤ x.timestamp) :
      ∃ x, (R.apply mp e').cache (slot e.key) = some x ∧ e.ts ≤ x.timestamp := by
    obtain ⟨x, hx, hle⟩ := h
    obtain ⟨y, hy, hxy⟩ := cache_apply_mono hx mp e'
    exact ⟨y, hy, hle.trans hxy⟩
  revert h
  unfold Covered
  cases e.op with
  | set => exact hcache
  | delete => exact hcache
  | incr =>
      intro h
      refine le_trans h (counts_apply_mono mp R e' ?_)
      intro k n
      exact (metricSumKey_ne_counterKey _ _ _ _).symm
  | metric => exact id
  | window => exact fun h => windowIndex_apply h mp e'
  | unknown code => exact id

theorem apply_of_covered {e : LogEntry} {R : Replicated V} (h : Covered e R) (mp : Msgpack V) :
    R.apply mp e = R := by
  have hput (x : ValWithTS V) (hts : x.timestamp = e.ts)
      (h : ∃ y, R.cache (slot e.key) = some y ∧ e.ts ≤ y.timestamp) :
      R.put (slot e.key) x = R := by
    obtain ⟨y, hy, hle⟩ := h
    unfold put
    rw [LastWriter.write_of_dominated ValWithTS.timestamp hy (hts.trans_le hle)]
  revert h
  unfold Covered apply
  cases e.op with
  | set => exact hput _ rfl
  | delete => exact hput _ rfl
  | incr => exact fun h => if_neg (not_lt.2 h)
  | metric => exact False.elim
  | window =>
      intro h
      dsimp only at h ⊢
      unfold insertWindow
      rw [h]
  | unknown code => exact fun _ => rfl

end Replicated

theorem deliverAll_append_singleton (mp : Msgpack V) (r : Replica V) (ds : List (Int64 × LogEntry))
    (d : Int64 × LogEntry) : deliverAll mp r (ds ++ [d]) =
      applyRemoteEntry mp (deliverAll mp r ds) d.1 d.2 := by
  simp only [deliverAll, List.foldl_append, List.foldl_cons, List.foldl_nil]

theorem smash_deliverAll (mp : Msgpack V) (r : Replica V) (ds : List (Int64 × LogEntry))
    (wall : Int64) (ts : Timestamp) :
    (deliverAll mp r ds).hlc.smash wall ts = r.hlc.smash wall ts := by
  induction ds generalizing r with
  | nil => rfl
  | cons d ds ih =>
      change (deliverAll mp (applyRemoteEntry mp r d.1 d.2) ds).hlc.smash wall ts = _
      rw [ih, smash_applyRemoteEntry]

theorem covered_applyRemoteEntry {e : LogEntry} {r : Replica V} (h : Covered e r.store.replicated)
    (mp : Msgpack V) (d : Int64 × LogEntry) :
    Covered e (applyRemoteEntry mp r d.1 d.2).store.replicated := by
  cases hd : r.hlc.smash d.1 d.2.ts with
  | true => rwa [applyRemoteEntry_of_smash hd]
  | false =>
      rw [replicated_applyRemoteEntry_of_accept hd]
      exact Replicated.covered_apply_mono h mp d.2

theorem covered_deliverAll {e : LogEntry} {r : Replica V} (h : Covered e r.store.replicated)
    (mp : Msgpack V) (ds : List (Int64 × LogEntry)) :
    Covered e (deliverAll mp r ds).store.replicated := by
  induction ds generalizing r with
  | nil => exact h
  | cons d ds ih => exact ih (covered_applyRemoteEntry h mp d)

/-- Every accepted entry other than a metric is covered from its delivery on. -/
theorem covered_of_mem_deliverAll (mp : Msgpack V) {r : Replica V}
    {ds : List (Int64 × LogEntry)} (hacc : ∀ d ∈ ds, r.hlc.smash d.1 d.2.ts = false)
    {e : LogEntry} (he : e ∈ ds.map Prod.snd) (hop : e.op ≠ .metric) :
    Covered e (deliverAll mp r ds).store.replicated := by
  induction ds generalizing r with
  | nil => cases he
  | cons d ds ih =>
      have hd := hacc d List.mem_cons_self
      rcases List.mem_cons.1 he with rfl | he
      · have hcov : Covered d.2 (applyRemoteEntry mp r d.1 d.2).store.replicated := by
          rw [replicated_applyRemoteEntry_of_accept hd]
          exact Replicated.covered_apply mp _ hop
        exact covered_deliverAll hcov mp ds
      · refine ih ?_ he
        intro d' hd'
        rw [smash_applyRemoteEntry]
        exact hacc d' (List.mem_cons_of_mem _ hd')

theorem replicated_deliverAll_of_covered (mp : Msgpack V) {r : Replica V}
    {rs : List (Int64 × LogEntry)}
    (h : ∀ d ∈ rs, r.hlc.smash d.1 d.2.ts = true ∨ Covered d.2 r.store.replicated) :
    (deliverAll mp r rs).store.replicated = r.store.replicated := by
  induction rs generalizing r with
  | nil => rfl
  | cons d rs ih =>
      have hd : (applyRemoteEntry mp r d.1 d.2).store.replicated = r.store.replicated := by
        cases hsmash : r.hlc.smash d.1 d.2.ts with
        | true => rw [applyRemoteEntry_of_smash hsmash]
        | false =>
            rw [replicated_applyRemoteEntry_of_accept hsmash]
            rcases h d List.mem_cons_self with hd | hd
            · rw [hsmash] at hd
              cases hd
            · exact Replicated.apply_of_covered hd mp
      change (deliverAll mp (applyRemoteEntry mp r d.1 d.2) rs).store.replicated = _
      rw [ih, hd]
      intro d' hd'
      rw [smash_applyRemoteEntry, hd]
      exact h d' (List.mem_cons_of_mem _ hd')

def metricHits (R : Replicated V) (key nodeID : GoString) : ℚ :=
  (R.counts (shardIndex key, metricCountKey key nodeID)).getD 0

theorem metricHits_applyRemoteEntry (mp : Msgpack V) (r : Replica V) (d : Int64 × LogEntry)
    (key nodeID : GoString) : metricHits r.store.replicated key nodeID ≤
      metricHits (applyRemoteEntry mp r d.1 d.2).store.replicated key nodeID := by
  cases hd : r.hlc.smash d.1 d.2.ts with
  | true => rw [applyRemoteEntry_of_smash hd]
  | false =>
      rw [replicated_applyRemoteEntry_of_accept hd]
      apply Replicated.counts_apply_mono
      intro k n
      exact metricCountKey_ne_metricSumKey _ _ _ _

theorem metricHits_deliverAll (mp : Msgpack V) (r : Replica V) (ds : List (Int64 × LogEntry))
    (key nodeID : GoString) : metricHits r.store.replicated key nodeID ≤
      metricHits (deliverAll mp r ds).store.replicated key nodeID := by
  induction ds generalizing r with
  | nil => exact le_rfl
  | cons d ds ih => exact (metricHits_applyRemoteEntry mp r d key nodeID).trans (ih _)

theorem metricHits_lt_deliverAll (mp : Msgpack V) {r : Replica V} {ds : List (Int64 × LogEntry)}
    {d : Int64 × LogEntry} (hd : d ∈ ds) (hop : d.2.op = .metric)
    (hacc : r.hlc.smash d.1 d.2.ts = false) :
    metricHits r.store.replicated d.2.key d.2.nodeID <
      metricHits (deliverAll mp r ds).store.replicated d.2.key d.2.nodeID := by
  induction ds generalizing r with
  | nil => cases hd
  | cons d' ds ih =>
      rcases List.mem_cons.1 hd with rfl | hd
      · have hone : metricHits (applyRemoteEntry mp r d.1 d.2).store.replicated d.2.key d.2.nodeID =
            metricHits r.store.replicated d.2.key d.2.nodeID + 1 := by
          rw [replicated_applyRemoteEntry_of_accept hacc]
          exact Replicated.counts_apply_metric mp _ hop
        have hrest := metricHits_deliverAll mp (applyRemoteEntry mp r d.1 d.2) ds d.2.key d.2.nodeID
        rw [hone] at hrest
        exact (lt_add_one _).trans_le hrest
      · refine (metricHits_applyRemoteEntry mp r d' d.2.key d.2.nodeID).trans_lt (ih hd ?_)
        rw [smash_applyRemoteEntry]
        exact hacc

/-- Applying again some of the entries a node has applied leaves the replicated state as it was if
and only if the clock accepts no metric among them. -/
theorem redelivery_harmless_iff (mp : Msgpack V) (r : Replica V) (ds rs : List (Int64 × LogEntry))
    (hacc : ∀ d ∈ ds, r.hlc.smash d.1 d.2.ts = false)
    (hsub : (rs.map Prod.snd).Sublist (ds.map Prod.snd)) :
    (deliverAll mp (deliverAll mp r ds) rs).store.replicated =
        (deliverAll mp r ds).store.replicated ↔
      ∀ d ∈ rs, d.2.op = .metric → r.hlc.smash d.1 d.2.ts = true := by
  constructor
  · intro heq d hd hop
    by_contra hacc'
    have hacc' : (deliverAll mp r ds).hlc.smash d.1 d.2.ts = false := by
      rw [smash_deliverAll]
      exact Bool.eq_false_of_not_eq_true hacc'
    have hlt := metricHits_lt_deliverAll mp hd hop hacc'
    rw [heq] at hlt
    exact lt_irrefl _ hlt
  · intro h
    apply replicated_deliverAll_of_covered
    intro d hd
    by_cases hop : d.2.op = .metric
    · left
      rw [smash_deliverAll]
      exact h d hd hop
    · right
      exact covered_of_mem_deliverAll mp hacc (hsub.subset (List.mem_map_of_mem hd)) hop

theorem redelivery_harmless_iff_incr :
    let r : Replica UInt8 := ⟨Store.newStore, newHLC 10⟩
    let hit : LogEntry := { metricLogEntry ⟨11, 0⟩ (bytes "m") (bytes "b") 5 with seq := 1 }
    let visit : LogEntry := { incrLogEntry ⟨12, 0⟩ 0 (bytes "k") (bytes "b") 3 with seq := 2 }
    (deliverAll byteMsgpack (deliverAll byteMsgpack r [(13, hit), (14, visit)])
        [(15, visit)]).store.replicated =
      (deliverAll byteMsgpack r [(13, hit), (14, visit)]).store.replicated :=
  (redelivery_harmless_iff byteMsgpack _ _ [(15, _)] (by decide) (by decide)).2 (by decide)

/-- One metric entry, delivered twice: the hit is counted twice. -/
theorem not_redelivery_harmless_metric :
    let r : Replica UInt8 := ⟨Store.newStore, newHLC 10⟩
    let hit : LogEntry := { metricLogEntry ⟨11, 0⟩ (bytes "m") (bytes "b") 5 with seq := 1 }
    r.hlc.smash 13 hit.ts = false ∧
      (deliverAll byteMsgpack (deliverAll byteMsgpack r [(13, hit)]) [(14, hit)]).store.replicated ≠
        (deliverAll byteMsgpack r [(13, hit)]).store.replicated := by
  refine ⟨by decide, fun heq => ?_⟩
  have hhits := congrArg (fun R => metricHits R (bytes "m") (bytes "b")) heq
  revert hhits
  decide +kernel

end Capacitor
