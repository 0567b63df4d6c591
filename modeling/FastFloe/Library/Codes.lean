import Mathlib.Data.List.Basic

namespace Codes

/-!
# Code words in front of free text

A word is recognized in front of any text when no word of the code is the
beginning of another one, however the texts behind them are chosen.
-/

variable {ι α : Type} {word : ι → List α}

/-- Among the indices of interest, no word is the beginning of another one. -/
def Instantaneous (valid : ι → Prop) (word : ι → List α) : Prop :=
  ∀ first second,
    valid first → valid second → word first <+: word second →
      first = second

/-- A word and the text behind it can be told apart. -/
theorem Instantaneous.append_inj
    {valid : ι → Prop}
    {first second : ι}
    {left right : List α}
    (code : Instantaneous valid word)
    (firstValid : valid first)
    (secondValid : valid second)
    (same : word first ++ left = word second ++ right) :
    first = second ∧ left = right := by
  have equal : first = second := by
    rcases List.append_eq_append_iff.mp same with
      ⟨between, shape, _⟩ | ⟨between, shape, _⟩
    · exact code first second firstValid secondValid ⟨between, shape.symm⟩
    · exact (code second first secondValid firstValid
        ⟨between, shape.symm⟩).symm
  subst equal
  exact ⟨rfl, List.append_cancel_left same⟩

/-- Words that differ within their common length make up such a code. -/
theorem instantaneous_of_take
    {valid : ι → Prop}
    (width : Nat)
    (long : ∀ index, valid index → width ≤ (word index).length)
    (apart :
      ∀ first second,
        valid first → valid second →
          (word first).take width = (word second).take width →
            word first <+: word second → first = second) :
    Instantaneous valid word := by
  intro first second firstValid secondValid lead
  refine apart first second firstValid secondValid ?_ lead
  obtain ⟨rest, shape⟩ := lead
  rw [← shape, List.take_append_of_le_length (long first firstValid)]

end Codes
