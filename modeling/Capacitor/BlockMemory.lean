import Mathlib.Tactic

/-!
# Overlapping blocks in a flat memory

A memory is a function from positions to cells, and a block is a list of cells placed at an offset.
Blocks are written one after another and may overlap. `holds_putAll_iff` says exactly when all of
them can still be read back afterwards: every two of them agree wherever they overlap.
-/

namespace BlockMemory

variable {α : Type*}

structure Block (α : Type*) where
  offset : ℕ
  cells : List α
  deriving DecidableEq

def Block.at (b : Block α) (p : ℕ) : Option α :=
  if b.offset ≤ p then b.cells[p - b.offset]? else none

def put (m : ℕ → α) (b : Block α) : ℕ → α := fun p => (b.at p).getD (m p)

def putAll (m : ℕ → α) (bs : List (Block α)) : ℕ → α := bs.foldl put m

def slice (m : ℕ → α) (offset length : ℕ) : List α :=
  (List.range length).map (fun i => m (offset + i))

/-- The memory still shows every cell of the block. -/
def Holds (m : ℕ → α) (b : Block α) : Prop := ∀ p x, b.at p = some x → m p = x

def Agree (b c : Block α) : Prop := ∀ p x y, b.at p = some x → c.at p = some y → x = y

@[simp] theorem length_slice (m : ℕ → α) (offset length : ℕ) :
    (slice m offset length).length = length := by simp [slice]

theorem Block.at_offset_add (b : Block α) (i : ℕ) : b.at (b.offset + i) = b.cells[i]? := by
  simp [Block.at]

theorem Block.at_eq_some {b : Block α} {p : ℕ} {x : α} (h : b.at p = some x) :
    b.offset ≤ p ∧ p < b.offset + b.cells.length := by
  unfold Block.at at h
  split_ifs at h with hp
  have hlt := (List.getElem?_eq_some_iff.1 h).1
  exact ⟨hp, by omega⟩

theorem agree_iff (b c : Block α) : Agree b c ↔
    ∀ i < b.cells.length, ∀ y ∈ c.at (b.offset + i), b.cells[i]? = some y := by
  constructor
  · intro h i hi y hy
    have hx : b.at (b.offset + i) = some b.cells[i] := by
      rw [b.at_offset_add, List.getElem?_eq_getElem hi]
    rw [List.getElem?_eq_getElem hi, h _ _ _ hx hy]
  · intro h p x y hx hy
    obtain ⟨hle, hlt⟩ := Block.at_eq_some hx
    obtain ⟨i, rfl⟩ := Nat.exists_eq_add_of_le hle
    rw [b.at_offset_add] at hx
    rw [h i (by omega) y hy] at hx
    exact (Option.some.inj hx).symm

instance [DecidableEq α] : DecidableRel (Agree (α := α)) :=
  fun b c => decidable_of_iff _ (agree_iff b c).symm

theorem slice_eq_cells_iff (m : ℕ → α) (b : Block α) :
    slice m b.offset b.cells.length = b.cells ↔ Holds m b := by
  constructor
  · intro h p x hx
    unfold Block.at at hx
    split_ifs at hx with hp
    obtain ⟨i, rfl⟩ := Nat.exists_eq_add_of_le hp
    rw [Nat.add_sub_cancel_left] at hx
    have hi : i < b.cells.length := (List.getElem?_eq_some_iff.1 hx).1
    have hs : (slice m b.offset b.cells.length)[i]? = some (m (b.offset + i)) := by
      simp [slice, hi]
    rw [h, hx] at hs
    exact (Option.some.inj hs).symm
  · intro h
    apply List.ext_getElem (by simp)
    intro i hi hi'
    simp only [slice, List.getElem_map, List.getElem_range]
    apply h
    rw [b.at_offset_add, List.getElem?_eq_getElem hi']

theorem putAll_append (m : ℕ → α) (bs cs : List (Block α)) :
    putAll m (bs ++ cs) = putAll (putAll m bs) cs := List.foldl_append

theorem put_of_at_none {m : ℕ → α} {b : Block α} {p : ℕ} (h : b.at p = none) :
    put m b p = m p := by simp [put, h]

theorem holds_put (m : ℕ → α) (b : Block α) : Holds (put m b) b := by
  intro p x hx
  simp [put, hx]

theorem putAll_of_at_none {m : ℕ → α} {bs : List (Block α)} {p : ℕ}
    (h : ∀ b ∈ bs, b.at p = none) : putAll m bs p = m p := by
  induction bs generalizing m with
  | nil => rfl
  | cons b bs ih =>
      change putAll (put m b) bs p = m p
      rw [ih (fun c hc => h c (List.mem_cons_of_mem b hc)),
        put_of_at_none (h b List.mem_cons_self)]

theorem holds_putAll_of_agree {m : ℕ → α} {b : Block α} {bs : List (Block α)} (hm : Holds m b)
    (hbs : ∀ c ∈ bs, Holds (putAll m bs) c) (hagree : ∀ c ∈ bs, Agree b c) :
    Holds (putAll m bs) b := by
  intro p x hx
  by_cases hcover : ∃ c ∈ bs, (c.at p).isSome
  · obtain ⟨c, hc, hsome⟩ := hcover
    obtain ⟨y, hy⟩ := Option.isSome_iff_exists.1 hsome
    rw [hbs c hc p y hy, hagree c hc p x y hx hy]
  · have hnone : ∀ c ∈ bs, c.at p = none := by
      intro c hc
      by_contra hne
      exact hcover ⟨c, hc, Option.isSome_iff_ne_none.2 hne⟩
    rw [putAll_of_at_none hnone]
    exact hm p x hx

/-- All blocks can be read back after the last of them was written exactly when they agree on
their overlaps. -/
theorem holds_putAll_iff (m : ℕ → α) (bs : List (Block α)) :
    (∀ b ∈ bs, Holds (putAll m bs) b) ↔ bs.Pairwise Agree := by
  induction bs generalizing m with
  | nil => simp
  | cons b bs ih =>
      change (∀ c ∈ b :: bs, Holds (putAll (put m b) bs) c) ↔ _
      rw [List.pairwise_cons, ← ih (put m b)]
      constructor
      · intro h
        have hrest : ∀ c ∈ bs, Holds (putAll (put m b) bs) c :=
          fun c hc => h c (List.mem_cons_of_mem b hc)
        refine ⟨?_, hrest⟩
        intro c hc p x y hx hy
        have hb := h b List.mem_cons_self p x hx
        rw [← hb, hrest c hc p y hy]
      · rintro ⟨hagree, hrest⟩ c hc
        rcases List.mem_cons.1 hc with rfl | hc
        · exact holds_putAll_of_agree (holds_put m c) hrest hagree
        · exact hrest c hc

end BlockMemory
