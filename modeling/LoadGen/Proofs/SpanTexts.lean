import LoadGen.Proofs.NumberTexts
import LoadGen.Proofs.TextEnds
import LoadGen.Span.Reading

namespace LoadGen

namespace Binary64

/-- None of the letters that name units is in the text. -/
def Unitless (s : List Char) : Prop := ∀ c ∈ s, c ≠ 's' ∧ c ≠ 'm' ∧ c ≠ 'h'

/-- Neither a number nor one of the words for what is no finite number has a letter of a unit. -/
theorem read?_unitless {s : List Char} {x : Binary64} (read : read? s = some x) : Unitless s := by
  intro c mem
  have numeric := read?_numeric read c mem
  refine ⟨?_, ?_, ?_⟩ <;> rintro rfl <;> exact absurd numeric (by decide)

end Binary64

namespace Span

open Binary64 (Unitless)

/-- The endings of a text that name a unit. Without any ending, seconds are meant. -/
def Unit.endings : Unit → List (List Char)
  | milliseconds => [['m', 's']]
  | seconds => [['s'], []]
  | minutes => [['m']]
  | hours => [['h']]

/-- Blanks around it aside, the text is a number and an ending that names a unit. -/
def Written (s : List Char) (unit : Unit) (x : Binary64) : Prop :=
  ∃ number, ∃ ending ∈ unit.endings,
    Text.trim s = number ++ ending ∧ Binary64.read? number = some x

variable {s number ending : List Char} {unit : Unit} {x : Binary64}

/-- The letters of a number do not mix with those of its unit. -/
theorem splitUnit_of_unitless (unitless : Unitless number) (names : ending ∈ unit.endings) :
    splitUnit (number ++ ending) = (number, unit) := by
  have dropped : ∀ ending, Text.dropEnding? ending (number ++ ending) = some number :=
    fun ending => Text.dropEnding?_eq_some_iff.mpr rfl
  have last : ∀ c, (number ++ [c]).getLast? = some c := fun c => List.getLast?_concat
  have others : ∀ c ∈ ['s', 'm', 'h'], number.getLast? ≠ some c := by
    intro c letter ends
    have plain := unitless c (List.mem_of_getLast? ends)
    simp only [List.mem_cons, List.not_mem_nil, or_false] at letter
    rcases letter with rfl | rfl | rfl <;> simp at plain
  unfold splitUnit
  cases unit with
  | milliseconds =>
    obtain rfl : ending = ['m', 's'] := by simpa [Unit.endings] using names
    rw [dropped]
  | seconds =>
    have endings : ending = ['s'] ∨ ending = [] := by simpa [Unit.endings] using names
    rcases endings with rfl | rfl
    · have whole : Text.dropEnding? ['m', 's'] (number ++ ['s']) = none := by
        rw [Text.dropEnding?_eq_none_iff]
        intro t same
        have longer : number ++ ['s'] = (t ++ ['m']) ++ ['s'] := by simpa using same
        have ends := List.append_cancel_right longer
        exact others 'm' (by decide) (by rw [ends, List.getLast?_concat])
      rw [whole, dropped]
    · have whole : Text.dropEnding? ['m', 's'] number = none :=
        Text.dropEnding?_of_last rfl (others 's' (by decide))
      have single : ∀ c ∈ ['s', 'm', 'h'], Text.dropEnding? [c] number = none :=
        fun c mem => Text.dropEnding?_of_last rfl (others c mem)
      rw [List.append_nil, whole, single 's' (by decide), single 'm' (by decide),
        single 'h' (by decide)]
  | minutes =>
    obtain rfl : ending = ['m'] := by simpa [Unit.endings] using names
    have other : (number ++ ['m']).getLast? ≠ some 's' := by rw [last]; decide
    have whole : Text.dropEnding? ['m', 's'] (number ++ ['m']) = none :=
      Text.dropEnding?_of_last rfl other
    have single : Text.dropEnding? ['s'] (number ++ ['m']) = none :=
      Text.dropEnding?_of_last rfl other
    rw [whole, single, dropped]
  | hours =>
    obtain rfl : ending = ['h'] := by simpa [Unit.endings] using names
    have other : ∀ c ∈ ['s', 'm'], (number ++ ['h']).getLast? ≠ some c := by simp
    have whole : Text.dropEnding? ['m', 's'] (number ++ ['h']) = none :=
      Text.dropEnding?_of_last rfl (other 's' (by decide))
    have single : ∀ c ∈ ['s', 'm'], Text.dropEnding? [c] (number ++ ['h']) = none :=
      fun c mem => Text.dropEnding?_of_last rfl (other c mem)
    rw [whole, single 's' (by decide), single 'm' (by decide), dropped]

theorem splitUnit_sound (s : List Char) :
    ∃ ending ∈ (splitUnit s).2.endings, s = (splitUnit s).1 ++ ending := by
  unfold splitUnit
  split
  next number found => exact ⟨_, by simp [Unit.endings], Text.dropEnding?_eq_some_iff.mp found⟩
  next =>
    split
    next number found => exact ⟨_, by simp [Unit.endings], Text.dropEnding?_eq_some_iff.mp found⟩
    next =>
      split
      next number found => exact ⟨_, by simp [Unit.endings], Text.dropEnding?_eq_some_iff.mp found⟩
      next =>
        split
        next number found =>
          exact ⟨_, by simp [Unit.endings], Text.dropEnding?_eq_some_iff.mp found⟩
        next => exact ⟨[], by simp [Unit.endings], by simp⟩

theorem written_iff : Written s unit x ↔ (splitUnit (Text.trim s)).2 = unit ∧
    Binary64.read? (splitUnit (Text.trim s)).1 = some x := by
  constructor
  · rintro ⟨number, ending, names, body, read⟩
    have split := splitUnit_of_unitless (Binary64.read?_unitless read) names
    rw [body, split]
    exact ⟨rfl, read⟩
  · rintro ⟨rfl, read⟩
    obtain ⟨ending, names, body⟩ := splitUnit_sound (Text.trim s)
    exact ⟨_, ending, names, body, read⟩

/-- A text is written in at most one way. -/
theorem Written.unique {other : Unit} {y : Binary64} (first : Written s unit x)
    (second : Written s other y) : unit = other ∧ x = y := by
  obtain ⟨rfl, read⟩ := written_iff.mp first
  obtain ⟨rfl, read'⟩ := written_iff.mp second
  exact ⟨rfl, Option.some.inj (read.symm.trans read')⟩

end Span

end LoadGen
