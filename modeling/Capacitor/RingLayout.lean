import Capacitor.BlockMemory

/-!
# Blocks laid around a ring

Blocks are laid one behind the other in a memory of `cap` cells. Each comes with an estimate of its
size, and starts again at the front when the estimate does not fit behind the last block. No
estimate exceeding `m`, a lap leaves fewer than `m` cells unused at its end, so the last `n` blocks
lie apart when there is room for `n + 1` blocks of that size.
-/

namespace BlockMemory

variable {α : Type*}

def Apart (b c : Block α) : Prop :=
  b.offset + b.cells.length ≤ c.offset ∨ c.offset + c.cells.length ≤ b.offset

theorem Apart.agree {b c : Block α} (h : Apart b c) : Agree b c := by
  intro p x y hx hy
  have hb := Block.at_eq_some hx
  have hc := Block.at_eq_some hy
  rcases h with h | h <;> omega

/-- The blocks laid so far, and the position behind the last one. -/
structure RingLayout (α : Type*) where
  head : ℕ
  blocks : List (Block α)

namespace RingLayout

def add (cap : ℕ) (R : RingLayout α) (sz : ℕ) (cells : List α) : RingLayout α :=
  let start := if R.head + sz > cap then 0 else R.head
  ⟨start + cells.length, R.blocks ++ [⟨start, cells⟩]⟩

/-- How many cells the blocks from the `i`th on have. -/
def writtenFrom (R : RingLayout α) (i : ℕ) : ℕ :=
  ((R.blocks.drop i).map (fun b => b.cells.length)).sum

theorem writtenFrom_add {cap : ℕ} {R : RingLayout α} {i : ℕ} (hi : i ≤ R.blocks.length) (sz : ℕ)
    (cells : List α) : (R.add cap sz cells).writtenFrom i = R.writtenFrom i + cells.length := by
  simp [writtenFrom, add, List.drop_append_of_le_length hi]

theorem writtenFrom_le {R : RingLayout α} {m : ℕ} (h : ∀ b ∈ R.blocks, b.cells.length ≤ m) (i : ℕ) :
    R.writtenFrom i ≤ (R.blocks.length - i) * m := by
  have hsum := List.sum_le_card_nsmul ((R.blocks.drop i).map (fun b => b.cells.length)) m
    (fun n hn => by
      obtain ⟨b, hb, rfl⟩ := List.mem_map.1 hn
      exact h b (List.mem_of_mem_drop hb))
  simpa [writtenFrom] using hsum

theorem add_le_writtenFrom {R : RingLayout α} {i j : ℕ} {b c : Block α} (hij : i < j)
    (hb : R.blocks[i]? = some b) (hc : R.blocks[j]? = some c) :
    b.cells.length + c.cells.length ≤ R.writtenFrom i := by
  have hdrop : R.blocks.drop i = b :: R.blocks.drop (i + 1) := by
    obtain ⟨hi, rfl⟩ := List.getElem?_eq_some_iff.1 hb
    exact List.drop_eq_getElem_cons hi
  have hmem : c ∈ R.blocks.drop (i + 1) := by
    apply List.mem_of_getElem? (i := j - (i + 1))
    rw [List.getElem?_drop, ← hc]
    congr 1
    omega
  have hle : c.cells.length ≤ ((R.blocks.drop (i + 1)).map (fun b => b.cells.length)).sum :=
    List.single_le_sum (fun _ _ => Nat.zero_le _) _ (List.mem_map_of_mem hmem)
  unfold writtenFrom
  rw [hdrop, List.map_cons, List.sum_cons]
  omega

/-- What holds of a ring of `cap` cells in which every estimate is at most `m`. Seen from a block,
the blocks behind it either follow it without a turn, or have filled the ring up to `m` cells. -/
structure Laid (cap m : ℕ) (R : RingLayout α) : Prop where
  small : ∀ b ∈ R.blocks, b.cells.length ≤ m
  last : ∀ b ∈ R.blocks.getLast?, b.offset + b.cells.length = R.head
  lap : ∀ i b, R.blocks[i]? = some b → b.offset + R.writtenFrom i = R.head ∨
    cap + R.head < b.offset + R.writtenFrom i + m

variable {cap m n : ℕ} {R : RingLayout α}

theorem laid_empty : (⟨0, []⟩ : RingLayout α).Laid cap m where
  small _ h := by cases h
  last _ h := by cases h
  lap _ _ h := by simp at h

theorem Laid.add (h : R.Laid cap m) {sz : ℕ} {cells : List α} (hsz : sz ≤ m)
    (hlen : cells.length ≤ sz) : (R.add cap sz cells).Laid cap m where
  small b hb := by
    rcases List.mem_append.1 hb with hb | hb
    · exact h.small b hb
    · rw [List.mem_singleton.1 hb]
      exact hlen.trans hsz
  last b hb := by
    have hlast : (R.add cap sz cells).blocks.getLast? =
        some ⟨if R.head + sz > cap then 0 else R.head, cells⟩ := by simp [RingLayout.add]
    obtain rfl := Option.some.inj (hlast.symm.trans hb)
    rfl
  lap i b hb := by
    rcases Nat.lt_or_ge i R.blocks.length with hi | hi
    · have hold : R.blocks[i]? = some b := by
        rw [← hb]
        exact (List.getElem?_append_left hi).symm
      have hlap := h.lap i b hold
      rw [writtenFrom_add hi.le]
      change b.offset + (R.writtenFrom i + cells.length) =
          (if R.head + sz > cap then 0 else R.head) + cells.length ∨
        cap + ((if R.head + sz > cap then 0 else R.head) + cells.length) <
          b.offset + (R.writtenFrom i + cells.length) + m
      split_ifs <;> omega
    · have hnew : (R.blocks ++ [⟨if R.head + sz > cap then 0 else R.head, cells⟩])[i]? =
          some b := hb
      rw [List.getElem?_append_right hi] at hnew
      have hzero : i - R.blocks.length = 0 := by
        have := (List.getElem?_eq_some_iff.1 hnew).1
        simpa using this
      have hi' : i = R.blocks.length := by omega
      rw [hzero] at hnew
      obtain rfl := Option.some.inj hnew
      left
      rw [hi', writtenFrom_add le_rfl]
      simp [writtenFrom, RingLayout.add]

/-- Two of the last `n` blocks lie apart, one of them being the last. -/
theorem Laid.apart_last (h : R.Laid cap m) (hcap : (n + 1) * m ≤ cap) {i : ℕ} {b c : Block α}
    (hb : R.blocks[i]? = some b) (hc : R.blocks.getLast? = some c)
    (hi : i + 1 < R.blocks.length) (hn : R.blocks.length ≤ i + n) : Apart b c := by
  have hlast := h.last c hc
  rw [List.getLast?_eq_getElem?] at hc
  have htotal := add_le_writtenFrom (by omega) hb hc
  have hbound : R.writtenFrom i ≤ n * m :=
    (writtenFrom_le h.small i).trans (Nat.mul_le_mul_right m (by omega))
  have hsplit : (n + 1) * m = n * m + m := Nat.succ_mul n m
  rcases h.lap i b hb with hfollow | hfull
  · left
    omega
  · right
    omega

theorem Laid.pairwise_add (h : R.Laid cap m) (hcap : (n + 1) * m ≤ cap) {sz : ℕ}
    {cells : List α} (hsz : sz ≤ m) (hlen : cells.length ≤ sz)
    (happart : (R.blocks.drop (R.blocks.length - n)).Pairwise Apart) :
    ((R.add cap sz cells).blocks.drop ((R.add cap sz cells).blocks.length - n)).Pairwise
      Apart := by
  have hlast : (R.add cap sz cells).blocks.getLast? =
      some ⟨if R.head + sz > cap then 0 else R.head, cells⟩ := by simp [RingLayout.add]
  have hlength : (R.add cap sz cells).blocks.length = R.blocks.length + 1 := by
    simp [RingLayout.add]
  rw [hlength]
  rcases Nat.eq_zero_or_pos n with rfl | hn
  · rw [List.drop_eq_nil_of_le (by omega)]
    exact List.Pairwise.nil
  · have hdrop : (R.add cap sz cells).blocks.drop (R.blocks.length + 1 - n) =
        R.blocks.drop (R.blocks.length + 1 - n) ++
          [⟨if R.head + sz > cap then 0 else R.head, cells⟩] :=
      List.drop_append_of_le_length (by omega)
    rw [hdrop, List.pairwise_append]
    refine ⟨happart.sublist (List.drop_sublist_drop_left _ (by omega)),
      List.pairwise_singleton _ _, ?_⟩
    intro b hb c hc
    obtain rfl := List.mem_singleton.1 hc
    obtain ⟨j, hj⟩ := List.getElem?_of_mem hb
    rw [List.getElem?_drop] at hj
    have hlt := (List.getElem?_eq_some_iff.1 hj).1
    have hb' : (R.add cap sz cells).blocks[R.blocks.length + 1 - n + j]? = some b := by
      rw [← hj]
      exact List.getElem?_append_left hlt
    exact (h.add hsz hlen).apart_last hcap hb' hlast (by omega) (by omega)

end RingLayout
end BlockMemory
