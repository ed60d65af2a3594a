import Mathlib.Tactic
import Mathlib.Algebra.BigOperators.Group.Finset.Basic

/-!
# Counts and their totals

A table of counts, some of which contribute to a total that is kept beside them: `owner` names the
total, if any, that a count contributes to. `Balanced` says that every total is the sum of its
counts. A change of one count that is added to its total keeps a table balanced, and the totals of a
balanced table are determined by its counts.
-/

open Finset

namespace Ledger

variable {K A M : Type*} [DecidableEq A] [AddCommGroup M] (owner : K → Option A)

def total (counts : K → Option M) (ks : Finset K) (a : A) : M :=
  ∑ k ∈ ks with owner k = some a, (counts k).getD 0

/-- Every total is the sum of the counts it owns, all of which lie in a finite set. -/
def Balanced (counts : K → Option M) (totals : A → Option M) : Prop :=
  ∃ ks : Finset K, (∀ k, counts k ≠ none → k ∈ ks) ∧
    ∀ a, (totals a).getD 0 = total owner counts ks a

theorem balanced_empty : Balanced owner (fun _ => none : K → Option M) (fun _ => none) :=
  ⟨∅, by simp, by simp [total]⟩

variable {owner} {counts : K → Option M} {totals totals' : A → Option M}

theorem total_subset {ks ks' : Finset K} (hsub : ks ⊆ ks')
    (hks : ∀ k, counts k ≠ none → k ∈ ks) (a : A) :
    total owner counts ks' a = total owner counts ks a := by
  unfold total
  symm
  apply sum_subset (filter_subset_filter _ hsub)
  intro k hk hk'
  have hnone : counts k = none := by
    by_contra hne
    exact hk' (mem_filter.2 ⟨hks k hne, (mem_filter.1 hk).2⟩)
  rw [hnone, Option.getD_none]

variable [DecidableEq K]

/-- The totals of a balanced table are determined by its counts. -/
theorem Balanced.totals_eq (h : Balanced owner counts totals) (h' : Balanced owner counts totals')
    (a : A) : (totals a).getD 0 = (totals' a).getD 0 := by
  obtain ⟨ks, hks, hsum⟩ := h
  obtain ⟨ks', hks', hsum'⟩ := h'
  rw [hsum, hsum', ← total_subset (subset_union_left : ks ⊆ ks ∪ ks') hks,
    ← total_subset (subset_union_right : ks' ⊆ ks ∪ ks') hks']

theorem Balanced.update (h : Balanced owner counts totals) (k : K) (v : M)
    (htotals : ∀ a, (totals' a).getD 0 =
      (totals a).getD 0 + if owner k = some a then v - (counts k).getD 0 else 0) :
    Balanced owner (Function.update counts k (some v)) totals' := by
  obtain ⟨ks, hks, hsum⟩ := h
  refine ⟨insert k ks, ?_, ?_⟩
  · intro j hj
    by_cases hjk : j = k
    · exact hjk ▸ mem_insert_self k ks
    · rw [Function.update_of_ne hjk] at hj
      exact mem_insert_of_mem (hks j hj)
  · intro a
    have hvalue (j : K) : (Function.update counts k (some v) j).getD 0 =
        (counts j).getD 0 + if j = k then v - (counts k).getD 0 else 0 := by
      by_cases hjk : j = k
      · subst j
        rw [Function.update_self, Option.getD_some, if_pos rfl, add_sub_cancel]
      · rw [Function.update_of_ne hjk, if_neg hjk, add_zero]
    rw [htotals, hsum, ← total_subset (subset_insert k ks) hks]
    simp only [total, hvalue, sum_add_distrib, sum_ite_eq', mem_filter, mem_insert_self, true_and]

end Ledger
