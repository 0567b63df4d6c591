import Mathlib.Data.List.Basic

namespace Tiling

/-!
# Intervals that tile a range

A list of intervals, each an offset and a length, tiles a range when each one
starts where the one before it ends.  The intervals then cover the range and
nothing else, and no point twice.
-/

variable {start middle stop point : Nat} {pieces rest : List (Nat × Nat)}

/-- The pieces follow each other from `start` to `stop`. -/
def Tiles (start : Nat) : List (Nat × Nat) → Nat → Prop
  | [], stop => start = stop
  | piece :: rest, stop =>
      piece.1 = start ∧ Tiles (start + piece.2) rest stop

/-- The point lies in the piece. -/
def Contains (piece : Nat × Nat) (point : Nat) : Prop :=
  piece.1 ≤ point ∧ point < piece.1 + piece.2

theorem tiles_nil : Tiles start [] start :=
  rfl

/-- Tilings of adjacent ranges join. -/
theorem Tiles.append
    (first : Tiles start pieces middle)
    (second : Tiles middle rest stop) :
    Tiles start (pieces ++ rest) stop := by
  induction pieces generalizing start with
  | nil =>
      cases first
      exact second
  | cons piece pieces inductionHypothesis =>
      exact ⟨first.1, inductionHypothesis first.2⟩

theorem Tiles.le
    (tiles : Tiles start pieces stop) :
    start ≤ stop := by
  induction pieces generalizing start with
  | nil =>
      exact Nat.le_of_eq tiles
  | cons piece pieces inductionHypothesis =>
      exact Nat.le_trans (Nat.le_add_right _ _)
        (inductionHypothesis tiles.2)

/-- The pieces of an indexed family that follow each other tile a range. -/
theorem tiles_range
    {piece : Nat → Nat × Nat}
    {count : Nat}
    (begins : (piece 0).1 = start)
    (follows : ∀ index, index + 1 < count →
      (piece (index + 1)).1 = (piece index).1 + (piece index).2) :
    Tiles start ((List.range count).map piece)
      (if count = 0 then start
        else (piece (count - 1)).1 + (piece (count - 1)).2) := by
  induction count with
  | zero =>
      exact tiles_nil
  | succ count inductionHypothesis =>
      have earlier :=
        inductionHypothesis fun index before => follows index (by omega)
      rw [List.range_succ, List.map_append, if_neg (Nat.succ_ne_zero count),
        Nat.add_sub_cancel]
      refine earlier.append ?_
      rcases Nat.eq_zero_or_pos count with rfl | positive
      · rw [if_pos rfl]
        exact ⟨begins, begins ▸ tiles_nil⟩
      · have step := follows (count - 1) (by omega)
        rw [Nat.sub_add_cancel positive] at step
        rw [if_neg (by omega), ← step]
        exact ⟨rfl, tiles_nil⟩

/-- The pieces of a tiling cover its range and nothing else. -/
theorem Tiles.covers
    (tiles : Tiles start pieces stop) :
    (∃ piece ∈ pieces, Contains piece point) ↔
      start ≤ point ∧ point < stop := by
  induction pieces generalizing start with
  | nil =>
      cases tiles
      simp only [List.not_mem_nil, false_and, exists_false, false_iff]
      omega
  | cons piece pieces inductionHypothesis =>
      obtain ⟨begins, tiles⟩ := tiles
      have after := tiles.le
      have later := inductionHypothesis tiles
      simp only [List.exists_mem_cons_iff, later]
      rw [Contains, begins]
      omega

end Tiling
