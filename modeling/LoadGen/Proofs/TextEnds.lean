import LoadGen.Text.Blank
import Mathlib.Data.List.DropRight
import Mathlib.Data.List.TakeDrop

namespace LoadGen.Text

variable {s t before after ending : List Char}

theorem dropEnding?_eq_some_iff : dropEnding? ending s = some t ↔ s = t ++ ending := by
  unfold dropEnding?
  rw [Option.ite_none_right_eq_some, List.isSuffixOf_iff_suffix, Option.some.injEq]
  constructor
  · rintro ⟨⟨before, rfl⟩, rfl⟩
    simp
  · rintro rfl
    exact ⟨List.suffix_append t ending, by simp⟩

theorem dropEnding?_eq_none_iff : dropEnding? ending s = none ↔ ∀ t, s ≠ t ++ ending := by
  rw [Option.eq_none_iff_forall_ne_some]
  exact forall_congr' fun t => not_congr dropEnding?_eq_some_iff

theorem dropEnding?_of_last {c : Char} (ends : ending.getLast? = some c)
    (other : s.getLast? ≠ some c) : dropEnding? ending s = none := by
  rw [dropEnding?_eq_none_iff]
  rintro t rfl
  rw [List.getLast?_append, ends] at other
  exact other rfl

/-- The text consists of blanks. -/
def Blank (s : List Char) : Prop := ∀ c ∈ s, isBlank c = true

/-- The text neither begins nor ends with a blank. -/
structure Trimmed (s : List Char) : Prop where
  first : ∀ c, s.head? = some c → isBlank c = false
  last : ∀ c, s.getLast? = some c → isBlank c = false

theorem Blank.reverse (blank : Blank s) : Blank s.reverse :=
  fun c mem => blank c (List.mem_reverse.mp mem)

theorem dropWhile_of_first (first : ∀ c, s.head? = some c → isBlank c = false) :
    s.dropWhile isBlank = s := by
  cases s with
  | nil => rfl
  | cons c rest => rw [List.dropWhile_cons_of_neg (by simp [first c rfl])]

/-- Only the blanks around a text without blanks at its ends are trimmed. -/
theorem trim_surrounded (blank : Blank before) (blank' : Blank after) (trimmed : Trimmed t) :
    trim (before ++ t ++ after) = t := by
  have ending : trimEnd (t ++ after) = t := by
    have unblank : t.reverse.dropWhile isBlank = t.reverse :=
      dropWhile_of_first fun c last => trimmed.last c (List.head?_reverse.symm.trans last)
    rw [trimEnd, List.reverse_append, List.dropWhile_append_of_pos blank'.reverse, unblank,
      List.reverse_reverse]
  rw [trim, List.append_assoc, List.dropWhile_append_of_pos blank]
  cases t with
  | nil =>
    rw [List.nil_append, List.dropWhile_eq_nil_iff.mpr blank']
    rfl
  | cons c rest =>
    have first : ∀ d, (c :: rest ++ after).head? = some d → isBlank d = false := trimmed.first
    rw [dropWhile_of_first first]
    exact ending

/-- Nothing is left to trim in a trimmed text. -/
theorem trimmed_trim (s : List Char) : Trimmed (trim s) := by
  have ends : trim s = (s.dropWhile isBlank).rdropWhile isBlank := rfl
  constructor
  · intro c head
    obtain ⟨rest, same⟩ := List.rdropWhile_prefix isBlank (s.dropWhile isBlank)
    have first : (s.dropWhile isBlank).head? = some c := by
      rw [← same, ← ends, List.head?_append, head, Option.some_or]
    have plain := List.head?_dropWhile_not isBlank s
    rw [first] at plain
    simpa using plain
  · intro c last
    rw [ends] at last
    have nonempty : (s.dropWhile isBlank).rdropWhile isBlank ≠ [] :=
      List.ne_nil_of_mem (List.mem_of_getLast? last)
    have plain := List.rdropWhile_last_not isBlank (s.dropWhile isBlank) nonempty
    rw [List.getLast?_eq_some_getLast nonempty] at last
    rw [← Option.some.inj last]
    simpa using plain

theorem trim_of_trimmed (trimmed : Trimmed t) : trim t = t := by
  have surrounded : trim ([] ++ t ++ []) = t := trim_surrounded nofun nofun trimmed
  rwa [List.nil_append, List.append_nil] at surrounded

theorem exists_of_trim (s : List Char) :
    ∃ before after, Blank before ∧ Blank after ∧ s = before ++ trim s ++ after := by
  refine ⟨s.takeWhile isBlank, (s.dropWhile isBlank).rtakeWhile isBlank,
    fun c => List.mem_takeWhile_imp, fun c => List.mem_rtakeWhile_imp, ?_⟩
  have ending : trim s ++ (s.dropWhile isBlank).rtakeWhile isBlank = s.dropWhile isBlank :=
    List.rdropWhile_append_rtakeWhile
  rw [List.append_assoc, ending, List.takeWhile_append_dropWhile]

theorem trim_eq_iff : trim s = t ↔
    Trimmed t ∧ ∃ before after, Blank before ∧ Blank after ∧ s = before ++ t ++ after := by
  constructor
  · rintro rfl
    exact ⟨trimmed_trim s, exists_of_trim s⟩
  · rintro ⟨trimmed, before, after, blank, blank', rfl⟩
    exact trim_surrounded blank blank' trimmed

end LoadGen.Text
