import LoadGen.Percentile
import LoadGen.Proofs.NumberTexts
import LoadGen.Proofs.TextEnds

namespace LoadGen

namespace Text

variable {s t head tail head' tail' : List Char} {c : Char}

/-- The length of the encoded text. -/
def bytes (s : List Char) : Nat := (String.ofList s).utf8ByteSize

theorem bytes_nil : bytes [] = 0 := rfl

theorem bytes_append : bytes (s ++ t) = bytes s + bytes t := by
  rw [bytes, String.ofList_append, String.utf8ByteSize_append]
  rfl

theorem bytes_singleton : bytes [c] = c.utf8Size := by
  rw [bytes, ← String.singleton_eq_ofList, String.utf8ByteSize_singleton]

theorem bytes_cons : bytes (c :: s) = c.utf8Size + bytes s := by
  rw [← List.singleton_append, bytes_append, bytes_singleton]

theorem bytes_eq_zero_iff : bytes s = 0 ↔ s = [] := by
  cases s with
  | nil => simp [bytes_nil]
  | cons c rest => simp [bytes_cons, c.utf8Size_pos.ne']

theorem bytes_eq_two_iff : bytes s = 2 ↔ (∃ c, s = [c] ∧ c.utf8Size = 2) ∨
    ∃ c d, s = [c, d] ∧ c.utf8Size = 1 ∧ d.utf8Size = 1 := by
  constructor
  · intro two
    match s with
    | [] => exact absurd two (by decide)
    | [c] => exact Or.inl ⟨c, rfl, bytes_singleton.symm.trans two⟩
    | c :: d :: rest =>
      rw [bytes_cons, bytes_cons] at two
      have first := c.utf8Size_pos
      have second := d.utf8Size_pos
      have noBytes : bytes rest = 0 := by omega
      exact Or.inr ⟨c, d, by rw [bytes_eq_zero_iff.mp noBytes], by omega, by omega⟩
  · rintro (⟨c, rfl, two⟩ | ⟨c, d, rfl, first, second⟩)
    · rw [bytes_singleton, two]
    · rw [bytes_cons, bytes_singleton, first, second]

/-- A place between two characters is known from its distance in bytes. -/
theorem append_inj_of_bytes (same : head ++ tail = head' ++ tail')
    (offset : bytes head = bytes head') : head = head' ∧ tail = tail' := by
  rcases List.append_eq_append_iff.mp same with ⟨more, rfl, rfl⟩ | ⟨more, rfl, rfl⟩
  · have noBytes : bytes more = 0 := by rw [bytes_append] at offset; omega
    simp [bytes_eq_zero_iff.mp noBytes]
  · have noBytes : bytes more = 0 := by rw [bytes_append] at offset; omega
    simp [bytes_eq_zero_iff.mp noBytes]

end Text

namespace Percentile

open Text (bytes bytes_nil bytes_append bytes_cons bytes_singleton digit?)

/-- The suffixes of ordinal numbers. -/
def ordinals : List (List Char) := [['t', 'h'], ['s', 't'], ['n', 'd'], ['r', 'd']]

/-- A text cut two bytes before its end, or at its beginning if it has fewer bytes or if a
character lies across that place. -/
inductive Cut (s : List Char) : List Char → List Char → Prop
  | between {head tail} (whole : s = head ++ tail) (offset : bytes head = bytes s - 2) :
      Cut s head tail
  | across (inside : ∀ head tail, s = head ++ tail → bytes head ≠ bytes s - 2) : Cut s [] s

variable {label body number s head tail head' tail' ending : List Char} {suffix : Option String}
  {p : Percentile} {e : DefinitionError}

theorem Cut.whole (cut : Cut s head tail) : s = head ++ tail := by
  cases cut with
  | between whole => exact whole
  | across => rfl

theorem Cut.unique (cut : Cut s head tail) (other : Cut s head' tail') :
    head = head' ∧ tail = tail' := by
  cases cut with
  | between whole offset =>
    cases other with
    | between whole' offset' =>
      exact Text.append_inj_of_bytes (whole.symm.trans whole') (offset.trans offset'.symm)
    | across inside => exact absurd offset (inside _ _ whole)
  | across inside =>
    cases other with
    | between whole offset => exact absurd offset (inside _ _ whole)
    | across => exact ⟨rfl, rfl⟩

theorem cut_of_two_bytes (two : bytes tail = 2) : Cut (head ++ tail) head tail :=
  .between rfl (by rw [bytes_append, two, Nat.add_sub_cancel])

theorem cut_across (long : 2 ≤ bytes s)
    (other : ∀ head tail, s = head ++ tail → bytes tail ≠ 2) : Cut s [] s := by
  refine .across fun head tail whole offset => other head tail whole ?_
  have length : bytes s = bytes head + bytes tail := by rw [whole, bytes_append]
  omega

theorem splitTail_cut (s : List Char) : Cut s (splitTail s).1 (splitTail s).2 := by
  unfold splitTail
  split
  next empty =>
    obtain rfl := List.reverse_eq_nil_iff.mp empty
    exact .between rfl rfl
  next last before ends =>
    obtain rfl : s = before.reverse ++ [last] := by simpa using ends
    have positive := last.utf8Size_pos
    split
    next two => exact cut_of_two_bytes (bytes_singleton.trans two)
    next notTwo =>
      split
      next =>
        change Cut [last] [] [last]
        by_cases one : last.utf8Size = 1
        · exact .between rfl (by rw [bytes_singleton, one]; rfl)
        · refine cut_across (by rw [bytes_singleton]; omega) fun head tail whole two => ?_
          rcases Text.bytes_eq_two_iff.mp two with ⟨c, rfl, size⟩ | ⟨c, d, rfl, -⟩
          · obtain rfl : last = c := by simpa using congrArg List.getLast? whole
            exact notTwo size
          · simpa using congrArg List.length whole
      next next rest =>
        have positive' := next.utf8Size_pos
        have texts : (next :: rest).reverse ++ [last] = rest.reverse ++ [next, last] := by simp
        rw [texts]
        split
        next ones =>
          exact cut_of_two_bytes (Text.bytes_eq_two_iff.mpr (Or.inr ⟨_, _, rfl, ones.symm⟩))
        next notOnes =>
          refine cut_across ?_ fun head tail whole two => ?_
          · rw [bytes_append, bytes_cons, bytes_singleton]
            omega
          · rcases Text.bytes_eq_two_iff.mp two with ⟨c, rfl, size⟩ | ⟨c, d, rfl, size, size'⟩
            · obtain rfl : last = c := by simpa using congrArg List.getLast? whole
              exact notTwo size
            · have same := List.append_inj_right' whole rfl
              simp only [List.cons.injEq, and_true] at same
              obtain ⟨rfl, rfl⟩ := same
              exact notOnes ⟨size', size⟩

theorem isOrdinalSuffix_iff : isOrdinalSuffix ending = true ↔ ending ∈ ordinals := by
  simp [isOrdinalSuffix, ordinals, or_assoc]

theorem bytes_of_ordinal (known : ending ∈ ordinals) : bytes ending = 2 := by
  simp only [ordinals, List.mem_cons, List.not_mem_nil, or_false] at known
  rcases known with rfl | rfl | rfl | rfl <;> rfl

/-- An ordinal suffix ends in a letter. -/
theorem last_of_ordinal (known : ending ∈ ordinals) :
    ∃ c ∈ ['h', 't', 'd'], (number ++ ending).getLast? = some c := by
  simp only [ordinals, List.mem_cons, List.not_mem_nil, or_false] at known
  rcases known with rfl | rfl | rfl | rfl <;> simp

theorem splitTail_of_ordinal (known : ending ∈ ordinals) :
    splitTail (number ++ ending) = (number, ending) := by
  have cut : Cut (number ++ ending) number ending := cut_of_two_bytes (bytes_of_ordinal known)
  obtain ⟨head, tail⟩ := (splitTail_cut _).unique cut
  exact Prod.ext head tail

/-- What is left of a label without the blanks around it and then without a percent sign at its
end. -/
def bare (label : List Char) : List Char :=
  let trimmed := Text.trim label
  if trimmed.getLast? = some '%' then trimmed.dropLast else trimmed

/-- The last character is one of the digits from `0` to `9`. -/
def EndsInDigit (s : List Char) : Prop := ∃ c, s.getLast? = some c ∧ '0' ≤ c ∧ c ≤ '9'

/-- A text is a number and possibly an ordinal suffix. -/
inductive Divided : List Char → List Char → Option String → Prop
  | empty : Divided [] [] none
  | plain {number : List Char} (digit : EndsInDigit number) : Divided number number none
  | ordinal {number ending : List Char} (known : ending ∈ ordinals) :
      Divided (number ++ ending) number (some (String.ofList ending))

/-- A text ends in another character than a digit, and in no ordinal suffix. -/
structure Unmarked (s : List Char) : Prop where
  nonempty : s ≠ []
  noDigit : ¬ EndsInDigit s
  noOrdinal : ∀ number, ∀ ending ∈ ordinals, s ≠ number ++ ending

theorem endsInDigit_iff {c : Char} (last : s.getLast? = some c) :
    EndsInDigit s ↔ (digit? c).isSome := by
  rw [Text.digit?_isSome_iff]
  constructor
  · rintro ⟨d, last', digit⟩
    obtain rfl := Option.some.inj (last.symm.trans last')
    exact digit
  · exact fun digit => ⟨c, last, digit⟩

theorem splitSuffix_of_divided (divided : Divided body number suffix) :
    splitSuffix label body = .ok (number, suffix) := by
  unfold splitSuffix
  cases divided with
  | empty => rfl
  | plain digit =>
    obtain ⟨c, last, -⟩ := id digit
    rw [last]
    exact if_pos ((endsInDigit_iff last).mp digit)
  | ordinal known =>
    obtain ⟨c, letter, last⟩ := last_of_ordinal known
    have noDigit : ¬ (digit? c).isSome := by
      simp only [List.mem_cons, List.not_mem_nil, or_false] at letter
      rcases letter with rfl | rfl | rfl <;> decide
    rw [last]
    dsimp only
    rw [if_neg noDigit, splitTail_of_ordinal known]
    exact if_pos (isOrdinalSuffix_iff.mpr known)

theorem splitSuffix_of_unmarked (unmarked : Unmarked body) (cut : Cut body head tail) :
    splitSuffix label body =
      .error (.percentileSuffix (String.ofList label) (String.ofList tail)) := by
  obtain ⟨rfl, rfl⟩ := (splitTail_cut body).unique cut
  have noOrdinal : ¬ isOrdinalSuffix (splitTail body).2 = true :=
    fun known => unmarked.noOrdinal _ _ (isOrdinalSuffix_iff.mp known) cut.whole
  unfold splitSuffix
  have last := List.getLast?_eq_some_getLast unmarked.nonempty
  rw [last]
  dsimp only
  rw [if_neg fun digit => unmarked.noDigit ((endsInDigit_iff last).mpr digit), if_neg noOrdinal]

theorem divided_or_unmarked (body : List Char) :
    (∃ number suffix, Divided body number suffix) ∨ Unmarked body := by
  by_cases nonempty : body = []
  · exact Or.inl ⟨[], none, nonempty ▸ .empty⟩
  · by_cases digit : EndsInDigit body
    · exact Or.inl ⟨body, none, .plain digit⟩
    · by_cases ordinal : ∃ number, ∃ ending ∈ ordinals, body = number ++ ending
      · obtain ⟨number, ending, known, rfl⟩ := ordinal
        exact Or.inl ⟨number, _, .ordinal known⟩
      · refine Or.inr ⟨nonempty, digit, fun number ending known whole => ?_⟩
        exact ordinal ⟨number, ending, known, whole⟩

/-- The text of a number between 0 and 100. -/
structure NumberText (number : List Char) (value : Binary64) : Prop where
  read : Binary64.read? number = some value
  positive : 0 < value
  below : value < 100

/-- How a percentile is spelled: as a number that ends in a digit, or as a number and an ordinal
suffix. -/
inductive Spelled : List Char → Percentile → Prop
  | plain {number : List Char} {value : Binary64} (text : NumberText number value)
      (digit : EndsInDigit number) :
      Spelled number ⟨value, String.ofList number, none⟩
  | ordinal {number ending : List Char} {value : Binary64} (text : NumberText number value)
      (known : ending ∈ ordinals) :
      Spelled (number ++ ending) ⟨value, String.ofList number, some (String.ofList ending)⟩

/-- Why a label is refused. -/
inductive Refused (label body : List Char) : DefinitionError → Prop
  | suffix {head tail : List Char} (unmarked : Unmarked body) (cut : Cut body head tail) :
      Refused label body (.percentileSuffix (String.ofList label) (String.ofList tail))
  | notANumber {number : List Char} {suffix : Option String}
      (divided : Divided body number suffix) (unread : Binary64.read? number = none) :
      Refused label body (.percentileNotANumber (String.ofList number))
  | range {number : List Char} {suffix : Option String} {value : Binary64}
      (divided : Divided body number suffix) (read : Binary64.read? number = some value)
      (outside : ¬ (0 < value ∧ value < 100)) :
      Refused label body (.percentileRange (String.ofList number))

theorem Spelled.divided (spelled : Spelled body p) :
    ∃ number, Divided body number p.suffix ∧ NumberText number p.value ∧
      p.label = String.ofList number := by
  cases spelled with
  | plain text digit => exact ⟨_, .plain digit, text, rfl⟩
  | ordinal text known => exact ⟨_, .ordinal known, text, rfl⟩

theorem spelled_of_divided {value : Binary64} (divided : Divided body number suffix)
    (text : NumberText number value) : Spelled body ⟨value, String.ofList number, suffix⟩ := by
  cases divided with
  | empty => exact absurd rfl (Binary64.ne_nil_of_read? text.read)
  | plain digit => exact .plain text digit
  | ordinal known => exact .ordinal text known

theorem dropEnding?_percent (s : List Char) : (Text.dropEnding? ['%'] s).getD s =
    if s.getLast? = some '%' then s.dropLast else s := by
  by_cases percent : s.getLast? = some '%'
  · rw [if_pos percent]
    have whole : s = s.dropLast ++ ['%'] := (List.dropLast_append_getLast? _ percent).symm
    rw [Text.dropEnding?_eq_some_iff.mpr whole, Option.getD_some]
  · rw [if_neg percent, Text.dropEnding?_of_last rfl percent, Option.getD_none]

theorem read_eq (label : List Char) : read label =
    match splitSuffix label (bare label) with
    | .error e => .error e
    | .ok (number, suffix) =>
      match Binary64.read? number with
      | none => .error (.percentileNotANumber (String.ofList number))
      | some value =>
        if 0 < value ∧ value < 100 then .ok ⟨value, String.ofList number, suffix⟩
        else .error (.percentileRange (String.ofList number)) := by
  unfold read
  dsimp only
  rw [dropEnding?_percent]
  rfl

theorem read_of_spelled (spelled : Spelled (bare label) p) : read label = .ok p := by
  obtain ⟨number, divided, text, named⟩ := spelled.divided
  rw [read_eq, splitSuffix_of_divided divided]
  dsimp only
  rw [text.read]
  dsimp only
  rw [if_pos ⟨text.positive, text.below⟩, ← named]

theorem read_of_refused (refused : Refused label (bare label) e) : read label = .error e := by
  rw [read_eq]
  cases refused with
  | suffix unmarked cut => rw [splitSuffix_of_unmarked unmarked cut]
  | notANumber divided unread =>
    rw [splitSuffix_of_divided divided]
    dsimp only
    rw [unread]
  | range divided read outside =>
    rw [splitSuffix_of_divided divided]
    dsimp only
    rw [read]
    exact if_neg outside

/-- There is no other label. -/
theorem spelled_or_refused (label body : List Char) :
    (∃ p, Spelled body p) ∨ ∃ e, Refused label body e := by
  rcases divided_or_unmarked body with ⟨number, suffix, divided⟩ | unmarked
  · cases read : Binary64.read? number with
    | none => exact Or.inr ⟨_, .notANumber divided read⟩
    | some value =>
      by_cases inside : 0 < value ∧ value < 100
      · exact Or.inl ⟨_, spelled_of_divided divided ⟨read, inside.1, inside.2⟩⟩
      · exact Or.inr ⟨_, .range divided read inside⟩
  · exact Or.inr ⟨_, .suffix unmarked (splitTail_cut body)⟩

theorem read_eq_ok_iff : read label = .ok p ↔ Spelled (bare label) p := by
  refine ⟨fun accepted => ?_, read_of_spelled⟩
  rcases spelled_or_refused label (bare label) with ⟨q, spelled⟩ | ⟨e, refused⟩
  · obtain rfl := Except.ok.inj (accepted.symm.trans (read_of_spelled spelled))
    exact spelled
  · cases accepted.symm.trans (read_of_refused refused)

theorem read_eq_error_iff : read label = .error e ↔ Refused label (bare label) e := by
  refine ⟨fun failed => ?_, read_of_refused⟩
  rcases spelled_or_refused label (bare label) with ⟨p, spelled⟩ | ⟨q, refused⟩
  · cases failed.symm.trans (read_of_spelled spelled)
  · obtain rfl := Except.error.inj (failed.symm.trans (read_of_refused refused))
    exact refused

/-- Every label is either accepted, just when it spells a percentile, with what it spells; or it is
refused, for the first reason there is. The cut that looks for a suffix is never inside of a
character. -/
theorem labels_read (label : List Char) :
    Cut (bare label) (splitTail (bare label)).1 (splitTail (bare label)).2 ∧
      (∀ p, read label = .ok p ↔ Spelled (bare label) p) ∧
      ∀ e, read label = .error e ↔ Refused label (bare label) e :=
  ⟨splitTail_cut _, fun _ => read_eq_ok_iff, fun _ => read_eq_error_iff⟩

/-- The place before the last two bytes may lie inside a character. -/
example : read "9€".toList = .error (.percentileSuffix "9€" "9€") := by decide +kernel

end Percentile

end LoadGen
