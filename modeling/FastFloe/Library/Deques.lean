import Mathlib.Data.List.Induction

namespace Deques

/-!
# Lists that are taken from both ends

A double-ended iterator is a machine that hands out a list from its two ends,
one item at a call.  Whatever ends are asked in whatever order, the items that
came from the front, what is left, and the items that came from the back make up
the list; and an end comes back empty only when nothing is left.
-/

/-- An end of a list. -/
inductive Side where
  | front
  | back
  deriving Repr, DecidableEq

variable {α : Type}

/-- Takes an item off one end. -/
def pop : Side → List α → Option α × List α
  | .front, items => (items.head?, items.tail)
  | .back, items => (items.getLast?, items.dropLast)

/-- The answers of a list to calls at these ends, and what is left of it. -/
def popAll : List Side → List α → List (Option α) × List α
  | [], items =>
      ([], items)
  | side :: sides, items =>
      let answer := pop side items
      let later := popAll sides answer.2
      (answer.1 :: later.1, later.2)

/-- The items that the calls at one end were answered with. -/
def taken (side : Side) : List Side → List (Option α) → List α
  | asked :: sides, answer :: answers =>
      if asked = side then
        answer.toList ++ taken side sides answers
      else
        taken side sides answers
  | _, _ =>
      []

/-- One call takes an item off its end, or there is none. -/
theorem pop_balance
    (side : Side)
    (items : List α) :
    items =
        (match side with
        | .front => (pop side items).1.toList ++ (pop side items).2
        | .back => (pop side items).2 ++ (pop side items).1.toList) ∧
      (pop side items).2.length = items.length - 1 ∧
      ((pop side items).1 = none ↔ items = []) := by
  cases side with
  | front =>
      cases items with
      | nil => simp [pop]
      | cons item items => simp [pop]
  | back =>
      refine ⟨?_, by simp [pop], by simp [pop]⟩
      induction items using List.reverseRecOn with
      | nil => rfl
      | append_singleton items item _ => simp [pop]

@[simp] theorem length_popAll
    (sides : List Side)
    (items : List α) :
    (popAll sides items).1.length = sides.length := by
  induction sides generalizing items with
  | nil => rfl
  | cons side sides inductionHypothesis =>
      simp [popAll, inductionHypothesis]

/-- Nothing is lost and nothing comes twice, in whatever order the ends are
asked. -/
theorem popAll_balance
    (sides : List Side)
    (items : List α) :
    taken .front sides (popAll sides items).1 ++
        ((popAll sides items).2 ++
          (taken .back sides (popAll sides items).1).reverse) =
      items := by
  induction sides generalizing items with
  | nil =>
      simp [popAll, taken]
  | cons side sides inductionHypothesis =>
      have balance := (pop_balance side items).1
      have later := inductionHypothesis (pop side items).2
      cases side with
      | front =>
          simp only [popAll, taken, ↓reduceIte, reduceCtorEq,
            List.append_assoc]
          rw [later]
          exact balance.symm
      | back =>
          have single : (pop .back items).1.toList.reverse =
              (pop .back items).1.toList := by
            cases (pop .back items).1 <;> rfl
          simp only [popAll, taken, ↓reduceIte, reduceCtorEq,
            List.reverse_append, single]
          rw [← List.append_assoc _ _ (Option.toList _), ← List.append_assoc,
            later]
          exact balance.symm

/-- Every call takes an item as long as there is one. -/
theorem length_left
    (sides : List Side)
    (items : List α) :
    (popAll sides items).2.length = items.length - sides.length := by
  induction sides generalizing items with
  | nil => rfl
  | cons side sides inductionHypothesis =>
      simp only [popAll, inductionHypothesis, (pop_balance side items).2.1,
        List.length_cons]
      rw [Nat.sub_sub, Nat.add_comm]

/-- A call comes back empty exactly when as many calls as there are items went
before; so it stays empty. -/
theorem popAll_eq_none_iff
    (sides : List Side)
    (items : List α)
    (index : Nat) :
    (popAll sides items).1[index]? = some none ↔
      items.length ≤ index ∧ index < sides.length := by
  induction sides generalizing items index with
  | nil =>
      simp [popAll]
  | cons side sides inductionHypothesis =>
      cases index with
      | zero =>
          simp [popAll, (pop_balance side items).2.2]
      | succ index =>
          simp only [popAll, List.getElem?_cons_succ, inductionHypothesis,
            (pop_balance side items).2.1, List.length_cons,
            Nat.add_lt_add_iff_right, Nat.sub_le_iff_le_add]

end Deques
