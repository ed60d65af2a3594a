import Mathlib.Tactic

/-!
# Batches of writes to an ordered map, and scans of its records

A write replaces or deletes the record of one key, and a batch of writes is committed as one, the
later write of a key prevailing. The map read through a pending batch is the map after the commit,
so a batch can grow while its keys are already looked up in it. A scan hands the records to a step
function one by one; where every step changes a view of the state at the key of its record only, the
view after the scan is read off the one record of each key.
-/

namespace WriteBatch

open Std

variable {K R : Type*} [Ord K]

/-- The record a key is given, or `none` for a deletion. -/
abbrev Write (K R : Type*) := K × Option R

def apply (m : TreeMap K R) (w : Write K R) : TreeMap K R :=
  match w.2 with
  | none => m.erase w.1
  | some r => m.insert w.1 r

def commit (m : TreeMap K R) (ws : List (Write K R)) : TreeMap K R := ws.foldl apply m

theorem commit_append (m : TreeMap K R) (ws ws' : List (Write K R)) :
    commit m (ws ++ ws') = commit (commit m ws) ws' :=
  List.foldl_append

variable [TransOrd K] [LawfulEqOrd K] [DecidableEq K]

theorem getElem?_apply (m : TreeMap K R) (w : Write K R) (k : K) :
    (apply m w)[k]? = if w.1 = k then w.2 else m[k]? := by
  obtain ⟨j, o⟩ := w
  cases o with
  | none => simp [apply, TreeMap.getElem?_erase]
  | some r => simp [apply, TreeMap.getElem?_insert]

theorem getElem?_commit_of_not_mem (m : TreeMap K R) {ws : List (Write K R)} {k : K}
    (h : ∀ w ∈ ws, w.1 ≠ k) : (commit m ws)[k]? = m[k]? := by
  induction ws generalizing m with
  | nil => rfl
  | cons w ws ih =>
      have hrest := ih (apply m w) (fun w' hw' => h w' (List.mem_cons_of_mem _ hw'))
      rw [getElem?_apply, if_neg (h w List.mem_cons_self)] at hrest
      exact hrest

theorem getElem?_commit_congr {m m' : TreeMap K R} {k : K} (h : m[k]? = m'[k]?)
    (ws : List (Write K R)) : (commit m ws)[k]? = (commit m' ws)[k]? := by
  induction ws generalizing m m' with
  | nil => exact h
  | cons w ws ih =>
      apply ih
      rw [getElem?_apply, getElem?_apply, h]

theorem getElem?_commit_cases (m : TreeMap K R) {ws : List (Write K R)} {k : K} {r : R}
    (h : (commit m ws)[k]? = some r) : m[k]? = some r ∨ (k, some r) ∈ ws := by
  induction ws generalizing m with
  | nil => exact Or.inl h
  | cons w ws ih =>
      rcases ih (apply m w) h with hold | hmem
      · rw [getElem?_apply] at hold
        split_ifs at hold with hk
        · refine Or.inr (List.mem_cons.2 (Or.inl ?_))
          rw [← hk, ← hold]
        · exact Or.inl hold
      · exact Or.inr (List.mem_cons_of_mem _ hmem)

theorem getElem?_commit_eq_of_mem (m m' : TreeMap K R) {ws : List (Write K R)} {k : K}
    (hk : ∃ w ∈ ws, w.1 = k) : (commit m ws)[k]? = (commit m' ws)[k]? := by
  obtain ⟨w, hw, rfl⟩ := hk
  obtain ⟨before, after, rfl⟩ := List.append_of_mem hw
  rw [commit_append, commit_append]
  change (commit (apply (commit m before) w) after)[w.1]? =
    (commit (apply (commit m' before) w) after)[w.1]?
  apply getElem?_commit_congr
  rw [getElem?_apply, getElem?_apply, if_pos rfl, if_pos rfl]

/-- Where all writes of a key agree, the record they give prevails. -/
theorem getElem?_commit_of_mem (m : TreeMap K R) {ws : List (Write K R)} {k : K} {o : Option R}
    (h : ∀ w ∈ ws, w.1 = k → w.2 = o) (hk : ∃ w ∈ ws, w.1 = k) : (commit m ws)[k]? = o := by
  induction ws generalizing m with
  | nil =>
      obtain ⟨w, hw, -⟩ := hk
      cases hw
  | cons w ws ih =>
      change (commit (apply m w) ws)[k]? = o
      by_cases hrest : ∃ w' ∈ ws, w'.1 = k
      · exact ih (apply m w) (fun w' hw' => h w' (List.mem_cons_of_mem _ hw')) hrest
      · push Not at hrest
        obtain ⟨w', hw', hw'k⟩ := hk
        have hhead : w.1 = k := by
          rcases List.mem_cons.1 hw' with rfl | hmem
          · exact hw'k
          · exact absurd hw'k (hrest w' hmem)
        rw [getElem?_commit_of_not_mem _ hrest, getElem?_apply, if_pos hhead]
        exact h w List.mem_cons_self hhead

theorem getElem?_commit_map (m : TreeMap K R) (f : K → Option R) (ks : List K) (k : K) :
    (commit m (ks.map (fun j => (j, f j))))[k]? = if k ∈ ks then f k else m[k]? := by
  induction ks generalizing m with
  | nil => simp [commit]
  | cons j ks ih =>
      change (commit (apply m (j, f j)) (ks.map (fun j => (j, f j))))[k]? = _
      rw [ih, getElem?_apply]
      by_cases hk : k ∈ ks
      · simp [hk]
      · by_cases hjk : j = k
        · simp [hk, hjk]
        · simp [hk, hjk, Ne.symm hjk]

section Scan

variable {K R σ α : Type*} (step : σ → K × R → σ) (view : σ → K → α)

theorem scan_of_not_mem (hframe : ∀ s w k, k ≠ w.1 → view (step s w) k = view s k) (s : σ)
    {ws : List (K × R)} {k : K} (hk : ∀ w ∈ ws, w.1 ≠ k) : view (ws.foldl step s) k = view s k := by
  induction ws generalizing s with
  | nil => rfl
  | cons w ws ih =>
      rw [List.foldl_cons, ih (step s w) (fun w' hw' => hk w' (List.mem_cons_of_mem _ hw')),
        hframe s w k (hk w List.mem_cons_self).symm]

/-- The value a scan leaves at a key is what the step makes of the record of that key. -/
theorem scan_of_mem (hframe : ∀ s w k, k ≠ w.1 → view (step s w) k = view s k) (f : K × R → α → α)
    (hown : ∀ s w, view (step s w) w.1 = f w (view s w.1)) (s : σ) {ws : List (K × R)}
    (hdistinct : ws.Pairwise (fun w w' => w.1 ≠ w'.1)) {w : K × R} (hw : w ∈ ws) :
    view (ws.foldl step s) w.1 = f w (view s w.1) := by
  induction ws generalizing s with
  | nil => cases hw
  | cons w' ws ih =>
      obtain ⟨hhead, htail⟩ := List.pairwise_cons.1 hdistinct
      rw [List.foldl_cons]
      rcases List.mem_cons.1 hw with rfl | hmem
      · rw [scan_of_not_mem step view hframe (step s w) (fun w' hw' => (hhead w' hw').symm), hown]
      · rw [ih (step s w') htail hmem, hframe s w' w.1 (hhead w hmem).symm]

end Scan
end WriteBatch
