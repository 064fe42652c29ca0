import LoadGen.Binary64.Decimal
import LoadGen.Text.Blank
import Mathlib.Data.List.TakeDrop
import Mathlib.Data.List.TakeWhile

namespace LoadGen

theorem Text.digit?_isSome_iff {c : Char} : (digit? c).isSome ↔ '0' ≤ c ∧ c ≤ '9' := by
  simp [digit?]

namespace Binary64

open Text (digit? isBlank)

/-- The character occurs in some number: it is a digit, a sign, a point, the letter before a power
of ten, or belongs to one of the words for what is no finite number. -/
def Numeric (c : Char) : Prop :=
  (digit? c).isSome ∨ c ∈ ['+', '-', '.', 'e', 'E'] ∨ c.toLower ∈ "infinityna".toList

instance (c : Char) : Decidable (Numeric c) := inferInstanceAs (Decidable (_ ∨ _))

variable {s : List Char} {c : Char} {x : Binary64} {negative : Bool}

/-- All of them are printed characters of ASCII. -/
theorem Numeric.bounds (numeric : Numeric c) : 32 < c.toNat ∧ c.toNat < 128 := by
  rcases numeric with digit | mark | letter
  · have range := Text.digit?_isSome_iff.mp digit
    change 48 ≤ c.toNat ∧ c.toNat ≤ 57 at range
    omega
  · simp only [List.mem_cons, List.not_mem_nil, or_false] at mark
    rcases mark with rfl | rfl | rfl | rfl | rfl <;> decide
  · unfold Char.toLower at letter
    split at letter
    next upper =>
      change 65 ≤ c.toNat ∧ c.toNat ≤ 90 at upper
      omega
    next =>
      have found : c = 'i' ∨ c = 'n' ∨ c = 'f' ∨ c = 't' ∨ c = 'y' ∨ c = 'a' := by
        simp at letter
        tauto
      rcases found with rfl | rfl | rfl | rfl | rfl | rfl <;> decide

theorem Numeric.not_blank (numeric : Numeric c) : isBlank c = false := by
  have bounds := numeric.bounds
  simp [isBlank]
  omega

/-- Digits read before the rest do not matter. -/
theorem numeric_of_rest (rest : ∀ c ∈ (spanDigits s).2, Numeric c) : ∀ c ∈ s, Numeric c := by
  unfold spanDigits at rest
  rw [List.span_eq_takeWhile_dropWhile] at rest
  rw [← List.takeWhile_append_dropWhile (p := fun c => (digit? c).isSome) (l := s)]
  refine List.forall_mem_append.mpr ⟨fun c mem => Or.inl ?_, rest⟩
  exact List.mem_takeWhile_imp (p := fun c => (digit? c).isSome) mem

theorem readExponent_numeric {n : Int} (read : readExponent s = some n) :
    ∀ c ∈ s, Numeric c := by
  cases s with
  | nil => nofun
  | cons e rest =>
    have exponent : ∀ (digits : List Char) (m : Int),
        (if digits.isEmpty || digits.any fun c => (digit? c).isNone then none else some m) =
          some n → ∀ c ∈ digits, Numeric c := by
      intro digits m read c mem
      refine Or.inl ?_
      by_contra other
      have bad : (digits.isEmpty || digits.any fun c => (digit? c).isNone) = true :=
        Bool.or_eq_true_iff.mpr (Or.inr (List.any_eq_true.mpr ⟨c, mem, by simpa using other⟩))
      rw [if_pos bad] at read
      cases read
    unfold readExponent at read
    dsimp only at read
    by_cases letter : e = 'e' ∨ e = 'E'
    · rw [if_pos letter] at read
      have head : Numeric e := by rcases letter with rfl | rfl <;> decide
      refine List.forall_mem_cons.mpr ⟨head, ?_⟩
      split at read
      · exact List.forall_mem_cons.mpr ⟨by decide, exponent _ _ read⟩
      · exact List.forall_mem_cons.mpr ⟨by decide, exponent _ _ read⟩
      · exact exponent _ _ read
    · rw [if_neg letter] at read
      cases read

theorem readUnsigned_numeric (read : readUnsigned negative s = some x) :
    ∀ c ∈ s, Numeric c := by
  refine numeric_of_rest ?_
  unfold readUnsigned at read
  dsimp only at read
  split at read
  next rest pointed =>
    split at read
    next => cases read
    next =>
      obtain ⟨exponent, read, -⟩ := Option.map_eq_some_iff.mp read
      have fraction := numeric_of_rest (readExponent_numeric read)
      rw [pointed]
      exact List.forall_mem_cons.mpr ⟨by decide, fraction⟩
  next =>
    split at read
    next => cases read
    next =>
      obtain ⟨exponent, read, -⟩ := Option.map_eq_some_iff.mp read
      exact readExponent_numeric read

/-- Whatever is read as a number has no other characters. -/
theorem read?_numeric (read : read? s = some x) : ∀ c ∈ s, Numeric c := by
  have bodies : ∀ (negative : Bool) (body : List Char),
      (if body.map Char.toLower = "inf".toList ∨ body.map Char.toLower = "infinity".toList then
        some ⟨negative, infinityMagnitude⟩
      else if body.map Char.toLower = "nan".toList then some nan
      else readUnsigned negative body) = some x → ∀ c ∈ body, Numeric c := by
    intro negative body read
    have words : ∀ word : List Char, word ⊆ "infinityna".toList →
        body.map Char.toLower = word → ∀ c ∈ body, Numeric c := by
      intro word letters same c mem
      exact Or.inr (Or.inr (letters (same ▸ List.mem_map_of_mem mem)))
    split at read
    next infinite =>
      rcases infinite with same | same
      · exact words _ (by simp) same
      · exact words _ (by simp) same
    next =>
      split at read
      next same => exact words _ (by simp) same
      next => exact readUnsigned_numeric read
  unfold read? at read
  dsimp only at read
  split at read
  · exact List.forall_mem_cons.mpr ⟨by decide, bodies _ _ read⟩
  · exact List.forall_mem_cons.mpr ⟨by decide, bodies _ _ read⟩
  · exact bodies _ _ read

theorem ne_nil_of_read? (read : read? s = some x) : s ≠ [] := by
  rintro rfl
  have unread : read? [] = none := rfl
  exact absurd (unread.symm.trans read) nofun

end Binary64

end LoadGen
