import Capacitor.Redelivery

/-!
# Window lists

A call appends its event to the window of its key and cuts off the front of the list. An event that
comes from another node is inserted before the first greater one, unless it is met before that.
-/

namespace Capacitor

variable {V : Type*}

/-- The list after the scan of `addWindowTimestamp`. -/
def insertEvent (ts : Int64) (win : List Int64) : List Int64 :=
  match windowIndex ts win with
  | none => win
  | some idx => win.take idx ++ ts :: win.drop idx

/-- The list after a local event: as many events are cut off as are older than the horizon. -/
def appendEvent (ts horizon : Int64) (win : List Int64) : List Int64 :=
  (win ++ [ts]).drop ((win ++ [ts]).countP (fun t => t < horizon))

theorem mem_of_windowIndex {ts : Int64} {win : List Int64} (h : windowIndex ts win = none) :
    ts ∈ win := by
  induction win with
  | nil => cases h
  | cons t win ih =>
      rw [windowIndex] at h
      split_ifs at h with heq hgt
      · exact List.mem_cons.2 (Or.inl heq.symm)
      · exact List.mem_cons_of_mem _ (ih (Option.map_eq_none_iff.1 h))

theorem insertEvent_perm {ts : Int64} {win : List Int64} (h : windowIndex ts win ≠ none) :
    (insertEvent ts win).Perm (ts :: win) := by
  unfold insertEvent
  cases hidx : windowIndex ts win with
  | none => exact absurd hidx h
  | some idx =>
      have hmiddle : (win.take idx ++ ts :: win.drop idx).Perm
          (ts :: (win.take idx ++ win.drop idx)) := List.perm_middle
      rwa [List.take_append_drop] at hmiddle

theorem insertEvent_of_none {ts : Int64} {win : List Int64} (h : windowIndex ts win = none) :
    insertEvent ts win = win := by
  unfold insertEvent
  rw [h]

theorem mem_insertEvent {ts t : Int64} {win : List Int64} :
    t ∈ insertEvent ts win ↔ t = ts ∨ t ∈ win := by
  by_cases h : windowIndex ts win = none
  · rw [insertEvent_of_none h]
    refine ⟨Or.inr, fun ht => ht.elim (fun heq => ?_) id⟩
    rw [heq]
    exact mem_of_windowIndex h
  · rw [(insertEvent_perm h).mem_iff, List.mem_cons]

theorem windowIndex_insertEvent_self (ts : Int64) (win : List Int64) :
    windowIndex ts (insertEvent ts win) = none := by
  unfold insertEvent
  cases h : windowIndex ts win with
  | none => exact h
  | some idx => exact windowIndex_insert_self h

theorem windowIndex_insertEvent {ts : Int64} {win : List Int64} (h : windowIndex ts win = none)
    (ts' : Int64) : windowIndex ts (insertEvent ts' win) = none := by
  unfold insertEvent
  cases h' : windowIndex ts' win with
  | none => exact h
  | some idx => exact windowIndex_insert h h'

theorem windowIndex_append {ts : Int64} {win : List Int64} (h : windowIndex ts win = none)
    (ts' : Int64) : windowIndex ts (win ++ [ts']) = none := by
  induction win with
  | nil => cases h
  | cons t win ih =>
      rw [List.cons_append, windowIndex]
      rw [windowIndex] at h
      split_ifs at h ⊢
      · rfl
      · rw [ih (Option.map_eq_none_iff.1 h), Option.map_none]

theorem appendEvent_of_not_lt {ts horizon : Int64} {win : List Int64}
    (h : ∀ t ∈ win ++ [ts], ¬ t < horizon) : appendEvent ts horizon win = win ++ [ts] := by
  unfold appendEvent
  rw [List.countP_eq_zero.2 (fun t ht hlt => h t ht (of_decide_eq_true hlt)), List.drop_zero]

namespace Store

theorem getWindow_addWindowTimestamp (s : Store V) (key : GoString) (ts : Int64)
    (key' : GoString) : (s.addWindowTimestamp key ts).getWindow key' =
      if key' = key then insertEvent ts (s.getWindow key) else s.getWindow key' := by
  rw [getWindow_eq, replicated_addWindowTimestamp, Replicated.insertWindow, insertEvent,
    ← getWindow_eq]
  cases windowIndex ts (s.getWindow key) with
  | none =>
      split_ifs with hkey
      · rw [hkey]
        rfl
      · rfl
  | some idx =>
      simp only [Function.update_apply, slot_injective.eq_iff]
      split_ifs with hkey
      · rfl
      · rfl

theorem getWindow_applyRemoteEntry {mp : Msgpack V} {r : Replica V} {wall : Int64} {e : LogEntry}
    (hop : e.op = .window) (hacc : r.hlc.smash wall e.ts = false) (key : GoString) :
    (applyRemoteEntry mp r wall e).store.getWindow key =
      if key = e.key then insertEvent e.ts.physical (r.store.getWindow e.key)
      else r.store.getWindow key := by
  rw [applyRemoteEntry_of_accept hacc, applyOp, hop, getWindow_eq, replicated_updatePeerSeq,
    ← getWindow_eq]
  exact getWindow_addWindowTimestamp _ _ _ _

theorem getWindow_incrementSlidingWindow (s : Store V) (key : GoString) (ts window now : Int64)
    (key' : GoString) : (s.incrementSlidingWindow key ts window now).1.getWindow key' =
      if key' = key then appendEvent ts (now - window) (s.getWindow key) else s.getWindow key' := by
  have hwindows : (s.incrementSlidingWindow key ts window now).1.replicated.windows =
      Function.update s.replicated.windows (slot key)
        (if appendEvent ts (now - window) (s.getWindow key) = [] then none
          else some (appendEvent ts (now - window) (s.getWindow key))) := by
    unfold incrementSlidingWindow
    dsimp only [replicated]
    rw [s.flatten_update StoreShard.windows key _ key _ rfl]
    rfl
  rw [getWindow_eq, hwindows]
  simp only [Function.update_apply, slot_injective.eq_iff]
  split_ifs with hkey hempty
  · rw [hempty, Option.getD_none]
  · rw [Option.getD_some]
  · rfl

theorem dirty_incrementSlidingWindow (s : Store V) (key : GoString) (ts window now : Int64) :
    flatten StoreShard.dirty (s.incrementSlidingWindow key ts window now).1 =
      Function.update (flatten StoreShard.dirty s) (slot key) true := by
  unfold incrementSlidingWindow
  dsimp only
  exact s.flatten_update StoreShard.dirty key _ key true rfl

/-- The janitor drops a window whose last event is more than an hour old. -/
theorem getWindow_pruneStaleWindows (s : Store V) (i : Fin numShards) (now : Int64)
    (k : GoString) : (s.pruneStaleWindows i now).getWindow k =
      if shardIndex k = i ∧ ∃ newest ∈ (s.getWindow k).getLast?, now - newest > hour then []
      else s.getWindow k := by
  change ((Function.update s.shards i ((s.shards i).pruneStaleWindows now)
    (shardIndex k)).windows k).getD [] = _
  rw [Function.update_apply]
  by_cases hi : shardIndex k = i
  · subst hi
    have hwindow : s.getWindow k = ((s.shards (shardIndex k)).windows k).getD [] := rfl
    rw [if_pos rfl, hwindow]
    simp only [StoreShard.pruneStaleWindows, true_and]
    cases (s.shards (shardIndex k)).windows k with
    | none => simp
    | some win =>
        cases hlast : win.getLast? with
        | none => simp [Option.filter, List.getLast?_eq_none_iff.1 hlast]
        | some newest =>
            by_cases hold : now - newest > hour
            · simp [hlast, hold, Option.filter]
            · simp [hlast, hold, Option.filter]
  · rw [if_neg hi, if_neg (fun h => hi h.1)]
    rfl

end Store
end Capacitor
