import Mathlib.Tactic
import Mathlib.Data.Prod.Lex

/-!
# The hybrid logical clock

`HLC.now` and `HLC.update` are the two transitions of `hlc.go`, on the machine integers of the
source: the physical part is an `int64`, the logical counter an `int32`, and both wrap. A reading
of the wall clock is an argument. Timestamps are linearly ordered by physical part and then by
logical counter; `greaterOrEqual` and `after` are the two comparisons the source writes out.
-/

namespace Capacitor

@[ext] structure Timestamp where
  physical : Int64
  logical : Int32
  deriving DecidableEq, Repr

namespace Timestamp

def greaterOrEqual (t other : Timestamp) : Bool :=
  if t.physical ≠ other.physical then t.physical > other.physical
  else t.logical ≥ other.logical

def after (t other : Timestamp) : Bool :=
  if t.physical > other.physical then true
  else if t.physical < other.physical then false
  else t.logical > other.logical

def rank (t : Timestamp) : ℤ ×ₗ ℤ := toLex (t.physical.toInt, t.logical.toInt)

theorem rank_injective : Function.Injective rank := by
  intro t u h
  have hp : (t.physical.toInt, t.logical.toInt) = (u.physical.toInt, u.logical.toInt) := h
  exact Timestamp.ext (Int64.toInt_inj.1 (congrArg Prod.fst hp))
    (Int32.toInt_inj.1 (congrArg Prod.snd hp))

instance : LinearOrder Timestamp := LinearOrder.lift' rank rank_injective

theorem lt_iff (t u : Timestamp) :
    t < u ↔ t.physical < u.physical ∨ t.physical = u.physical ∧ t.logical < u.logical := by
  change rank t < rank u ↔ _
  rw [rank, rank, Prod.Lex.toLex_lt_toLex, Int64.lt_iff_toInt_lt, Int32.lt_iff_toInt_lt,
    ← Int64.toInt_inj]

theorem le_iff (t u : Timestamp) :
    t ≤ u ↔ t.physical < u.physical ∨ t.physical = u.physical ∧ t.logical ≤ u.logical := by
  change rank t ≤ rank u ↔ _
  rw [rank, rank, Prod.Lex.toLex_le_toLex, Int64.lt_iff_toInt_lt, Int32.le_iff_toInt_le,
    ← Int64.toInt_inj]

@[simp] theorem greaterOrEqual_iff (t u : Timestamp) : t.greaterOrEqual u = true ↔ u ≤ t := by
  rw [le_iff, greaterOrEqual]
  split_ifs with h
  · simp only [gt_iff_lt, decide_eq_true_eq]
    grind
  · simp only [ge_iff_le, decide_eq_true_eq]
    grind

@[simp] theorem after_iff (t u : Timestamp) : t.after u = true ↔ u < t := by
  rw [lt_iff, after]
  split_ifs with h₁ h₂
  · simp only [true_iff]
    exact Or.inl h₁
  · simp only [false_iff]
    grind
  · simp only [gt_iff_lt, decide_eq_true_eq]
    grind

end Timestamp

structure HLC where
  physical : Int64
  logical : Int32
  maxOffset : Int64
  deriving DecidableEq, Repr

def defaultMaxOffset : Int64 := 500 * 1000000

def newHLC (wall : Int64) : HLC := ⟨wall, 0, defaultMaxOffset⟩

namespace HLC

def setMaxOffset (h : HLC) (offset : Int64) : HLC := { h with maxOffset := offset }

def time (h : HLC) : Timestamp := ⟨h.physical, h.logical⟩

def now (h : HLC) (wall : Int64) : HLC × Timestamp :=
  let h' : HLC := if h.physical < wall then { h with physical := wall, logical := 0 }
    else { h with logical := h.logical + 1 }
  (h', ⟨h'.physical, h'.logical⟩)

/-- The guard of `update`: a remote timestamp too far ahead of the wall clock is refused. -/
def smash (h : HLC) (wall : Int64) (remote : Timestamp) : Bool :=
  remote.physical > wall + h.maxOffset

def maxPhysical (h : HLC) (wall : Int64) (remote : Timestamp) : Int64 :=
  let m := if h.physical > wall then h.physical else wall
  if remote.physical > m then remote.physical else m

/-- The clock after a remote timestamp passed the guard. -/
def merge (h : HLC) (wall : Int64) (remote : Timestamp) : HLC :=
  let m := h.maxPhysical wall remote
  if m = h.physical ∧ m = remote.physical then
    let maxLogical := if remote.logical > h.logical then remote.logical else h.logical
    { h with logical := maxLogical + 1 }
  else if m = h.physical then { h with logical := h.logical + 1 }
  else if m = remote.physical then { h with physical := m, logical := remote.logical + 1 }
  else { h with physical := m, logical := 0 }

/-- `none` is `ErrClockSmash`; the clock is then left as it was. -/
def update (h : HLC) (wall : Int64) (remote : Timestamp) : Option (HLC × Timestamp) :=
  if h.smash wall remote then none
  else some (h.merge wall remote, (h.merge wall remote).time)

@[simp] theorem time_now (h : HLC) (wall : Int64) : (h.now wall).1.time = (h.now wall).2 := rfl

theorem update_eq_none_iff (h : HLC) (wall : Int64) (remote : Timestamp) :
    h.update wall remote = none ↔ h.smash wall remote = true := by
  unfold update
  split_ifs with hs <;> simp [hs]

theorem time_lt_now (h : HLC) (wall : Int64) (hl : h.logical ≠ 2147483647) :
    h.time < (h.now wall).2 := by
  rw [Timestamp.lt_iff]
  simp only [time, now]
  split_ifs with hw
  · exact Or.inl hw
  · refine Or.inr ⟨rfl, ?_⟩
    change h.logical < h.logical + 1
    grind

theorem update_eq_some_iff (h : HLC) (wall : Int64) (remote t : Timestamp) (h' : HLC) :
    h.update wall remote = some (h', t) ↔
      h.smash wall remote = false ∧ h' = h.merge wall remote ∧ t = h'.time := by
  unfold update
  split_ifs with hs
  · simp [hs]
  · simp only [Option.some.injEq, Prod.mk.injEq, Bool.not_eq_true] at hs ⊢
    constructor
    · rintro ⟨rfl, rfl⟩
      exact ⟨hs, rfl, rfl⟩
    · rintro ⟨_, rfl, rfl⟩
      exact ⟨rfl, rfl⟩

@[simp] theorem maxOffset_merge (h : HLC) (wall : Int64) (remote : Timestamp) :
    (h.merge wall remote).maxOffset = h.maxOffset := by
  unfold merge
  dsimp only
  split_ifs <;> rfl

@[simp] theorem maxOffset_now (h : HLC) (wall : Int64) :
    (h.now wall).1.maxOffset = h.maxOffset := by
  simp only [now]
  split_ifs <;> rfl

theorem le_maxPhysical (h : HLC) (wall : Int64) (remote : Timestamp) :
    h.physical ≤ h.maxPhysical wall remote ∧ remote.physical ≤ h.maxPhysical wall remote := by
  unfold maxPhysical
  grind

theorem physical_merge (h : HLC) (wall : Int64) (remote : Timestamp) :
    (h.merge wall remote).physical = h.maxPhysical wall remote := by
  unfold merge
  dsimp only
  split_ifs with hboth hlog hown
  · exact hboth.1.symm
  · exact hboth.1.symm
  · exact hown.symm
  · rfl
  · rfl

/-- An accepted remote timestamp moves the clock past its own time and past the remote one: the
larger physical part is kept, and the logical counter is advanced wherever that part is shared. -/
theorem lt_merge (h : HLC) (wall : Int64) (remote : Timestamp) (hl : h.logical ≠ 2147483647)
    (hr : remote.physical = h.maxPhysical wall remote → remote.logical ≠ 2147483647) :
    h.time < (h.merge wall remote).time ∧ remote < (h.merge wall remote).time := by
  obtain ⟨hle, hler⟩ := h.le_maxPhysical wall remote
  simp only [Timestamp.lt_iff, time, merge]
  split_ifs with hboth hlog hown hrem
  · exact ⟨Or.inr ⟨rfl, by grind⟩, Or.inr ⟨by grind, by grind⟩⟩
  · exact ⟨Or.inr ⟨rfl, by grind⟩, Or.inr ⟨by grind, by grind⟩⟩
  · exact ⟨Or.inr ⟨rfl, by grind⟩, Or.inl (by grind)⟩
  · exact ⟨Or.inl (by grind), Or.inr ⟨hrem.symm, by grind⟩⟩
  · exact ⟨Or.inl (by grind), Or.inl (by grind)⟩

end HLC
end Capacitor
