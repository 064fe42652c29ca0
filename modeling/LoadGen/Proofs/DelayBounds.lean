import LoadGen.Proofs.BuiltWorkload
import LoadGen.Proofs.NumberOrder

namespace LoadGen

namespace Binary64

variable {x : Binary64} {m m' n : Nat}

theorem toWord_le_greatest (x : Binary64) : x.toWord ≤ Word.greatest := held_le_greatest _

theorem roundWord_le_greatest (x : Binary64) : x.roundWord ≤ Word.greatest := held_le_greatest _

theorem toWord_of_negative (negative : x.negative = true) : x.toWord = 0 := by
  simp [toWord, negative]

theorem toWord_mono (le : m ≤ m') (number : m' ≤ infinityMagnitude) :
    toWord ⟨false, m⟩ ≤ toWord ⟨false, m'⟩ := by
  rcases Nat.lt_or_eq_of_le number with finite | rfl
  · rw [toWord_mk (by omega), toWord_mk number, if_neg (by omega), if_neg (by omega)]
    have parts := Nat.div_le_div_right (c := unitsOfOne) (units_strictMono.monotone le)
    omega
  · rw [toWord_mk number, if_pos rfl]
    exact toWord_le_greatest _

/-- Numbers below zero count as zero anyway. -/
theorem toWord_larger_zero (x : Binary64) : (x.larger 0).toWord = x.toWord := by
  have zeroWord : toWord 0 = 0 := by decide +kernel
  unfold larger
  split
  next notNumber => rw [zeroWord, toWord, notNumber, Bool.true_or, if_pos rfl]
  next =>
    split
    next less =>
      obtain ⟨_ | _, m⟩ := x
      · rw [zero_eq, mk_lt_mk] at less
        omega
      · rw [zeroWord, toWord_of_negative rfl]
    next => rfl

/-- The smaller of anything and a number is no larger in whole parts than the number. -/
theorem toWord_smaller_le (x : Binary64) (number : m ≤ infinityMagnitude) :
    (x.smaller ⟨false, m⟩).toWord ≤ toWord ⟨false, m⟩ := by
  unfold smaller
  split
  next => exact le_rfl
  next number' =>
    split
    next => exact le_rfl
    next not_less =>
      obtain ⟨_ | _, a⟩ := x
      · have within : a ≤ infinityMagnitude := isNaN_mk.mp (Bool.eq_false_iff.mpr number')
        rw [mk_lt_mk] at not_less
        exact toWord_mono (by omega) number
      · rw [toWord_of_negative rfl]
        exact Nat.zero_le _

/-- A count of 64 bits that is a number is its own whole part. -/
theorem toWord_ofNat_le
    (unrounded : n < Word.greatest → units (ofNat n).magnitude = n * unitsOfOne) :
    (ofNat n).toWord ≤ n := by
  rcases Nat.lt_or_ge n Word.greatest with small | large
  · have finite := ofNat_lt_infinity (Nat.le_of_lt small)
    change toWord ⟨false, (ofNat n).magnitude⟩ ≤ n
    rw [toWord_mk (Nat.le_of_lt finite), if_neg finite.ne, unrounded small,
      Nat.mul_div_cancel _ unitsOfOne_pos]
    exact Nat.min_le_left _ _
  · exact le_trans (toWord_le_greatest _) large

/-- Numbers are so far apart beyond `2 ^ 53` that all of them are whole. -/
theorem units_whole_or_small (m : Nat) :
    (∃ k, units m = k * unitsOfOne) ∨ units m < 2 * binade * unitsOfOne := by
  obtain ⟨places, -, one⟩ := exists_unitsOfOne
  rcases Nat.lt_or_ge m binade with small | large
  · refine Or.inr ?_
    rw [units_of_lt small]
    have positive := unitsOfOne_pos
    nlinarith
  · obtain ⟨e, s, least, most, rfl⟩ := exists_scaled large
    rw [units_scaled least most]
    rcases Nat.lt_or_ge e places with short | long
    · refine Or.inr ?_
      rw [one]
      exact Nat.mul_lt_mul_of_lt_of_le most (Nat.pow_le_pow_right (by decide) short.le)
        (Nat.two_pow_pos _)
    · obtain ⟨more, rfl⟩ := Nat.exists_eq_add_of_le long
      exact Or.inl ⟨s * 2 ^ more, by rw [one, Nat.pow_add]; ring⟩

/-- What a number is rounded to is a number as well, as long as it takes 64 bits. -/
theorem toWord_ofNat_roundWord_le (x : Binary64) : (ofNat x.roundWord).toWord ≤ x.roundWord := by
  refine toWord_ofNat_le fun small => ?_
  unfold roundWord at small ⊢
  split_ifs at small ⊢ with undefined infinite
  · exact (units_ofNat (Nat.zero_le _)).1
  · exact absurd small (Nat.lt_irrefl _)
  · have positive := unitsOfOne_pos
    have below := (min_lt_iff.mp small).resolve_right (Nat.lt_irrefl _)
    rw [Nat.min_eq_left below.le]
    -- A long number is whole and rounded to itself; a short one has a count that is a number.
    rcases units_whole_or_small x.magnitude with ⟨k, whole⟩ | few
    · have half : (2 * (k * unitsOfOne) + unitsOfOne) / (2 * unitsOfOne) = k := by
        refine Nat.div_eq_of_lt_le ?_ ?_ <;> nlinarith
      have number : x.magnitude ≤ infinityMagnitude := by
        simp only [isNaN, Bool.or_eq_true, decide_eq_true_eq, not_or] at undefined
        exact Nat.le_of_not_lt undefined.1
      rw [whole, half, ofNat_magnitude number whole, whole]
    · refine (units_ofNat (Nat.lt_succ_iff.mp (Nat.div_lt_of_lt_mul ?_))).1
      nlinarith

end Binary64

namespace Random

variable {ρ : Type} [WordSource ρ]

theorem scaled_lt {range : Nat} (positive : 0 < range) (zone more : Nat) (r : ρ) :
    (scaled range zone more r).1 < range := by
  induction more generalizing r with
  | zero => exact positive
  | succ more ih =>
    unfold scaled
    dsimp only
    split
    next =>
      have word : (WordSource.draw r).1.toNat < Word.count := UInt64.toNat_lt _
      exact Nat.div_lt_of_lt_mul (Nat.mul_lt_mul_of_pos_right word positive)
    next => exact ih _

theorem between_bounds {low high : Nat} (ordered : low ≤ high) (word : high ≤ Word.greatest)
    (r : ρ) : low ≤ (between low high r).1 ∧ (between low high r).1 ≤ high := by
  unfold between
  dsimp only
  split
  next whole =>
    have drawn : (WordSource.draw r).1.toNat < Word.count := UInt64.toNat_lt _
    have last : Word.count = Word.greatest + 1 := by decide
    dsimp only
    omega
  next =>
    have inside := scaled_lt (show 0 < high + 1 - low by omega)
      ((high + 1 - low) <<< (63 - (high + 1 - low).log2) - 1) attempts r
    dsimp only
    omega

end Random

/-- What the checks of declarations leave: bounds in order that take 64 bits. Only the bound that
follows from a mean is longer, and need not keep its size when it is taken as a number. -/
inductive PacingShape.Sound : PacingShape → Prop
  | fixed {time : Span} (word : time.nanos ≤ Word.greatest) : Sound (.fixed time)
  | uniform {least most : Span} (ordered : least.nanos ≤ most.nanos)
    (word : most.nanos ≤ Word.greatest) : Sound (.uniform least most)
  | exponential {mean most : Span} (bound : (Binary64.ofNat most.nanos).toWord ≤ most.nanos ∨
      most.nanos = mean.nanos * 5) : Sound (.exponential mean most)

namespace Pacing

variable {p : Pacing} {declaration : PacingDeclaration} {shape : PacingShape} {field : String}
  {x : Binary64} {s : Span}

theorem bounds_of_millis (parsed : millis field x = .ok s) :
    s.nanos ≤ Word.greatest ∧ (Binary64.ofNat s.nanos).toWord ≤ s.nanos := by
  unfold millis at parsed
  split_ifs at parsed
  cases parsed
  exact ⟨Binary64.roundWord_le_greatest _, Binary64.toWord_ofNat_roundWord_le _⟩

theorem sound_of_declaredShape (checked : declaredShape declaration = .ok shape) :
    shape.Sound := by
  cases declaration with
  | fixed time =>
    obtain ⟨time, parsed, checked⟩ := exists_of_bind_ok checked
    cases checked
    exact .fixed (bounds_of_millis parsed).1
  | uniform least most =>
    obtain ⟨least, -, checked⟩ := exists_of_bind_ok checked
    obtain ⟨most, parsed, checked⟩ := exists_of_bind_ok checked
    split at checked
    next => cases checked
    next ordered =>
      cases checked
      exact .uniform (Nat.le_of_not_lt ordered) (bounds_of_millis parsed).1
  | exponential mean most =>
    obtain ⟨mean, -, checked⟩ := exists_of_bind_ok checked
    cases most with
    | none =>
      dsimp only at checked
      obtain ⟨bound, same, checked⟩ := exists_of_bind_ok checked
      cases same
      dsimp only at checked
      split at checked
      next => cases checked
      next =>
        cases checked
        exact .exponential (Or.inr rfl)
    | some most =>
      obtain ⟨bound, parsed, checked⟩ := exists_of_bind_ok checked
      dsimp only at checked
      split at checked
      next => cases checked
      next =>
        cases checked
        exact .exponential (Or.inl (bounds_of_millis parsed).2)

/-- How a pacing comes to be: from a declaration that passes its checks, or as the delay before the
first operation up to a bound that takes 64 bits. -/
inductive Admitted : Pacing → Prop
  | declared {declaration : PacingDeclaration} {basis : PacingBasis} {deviation : Binary64}
    {p : Pacing} (made : declared declaration basis deviation = .ok p) : Admitted p
  | initialDelay {most : Span} (word : most.nanos ≤ Word.greatest) :
    Admitted (initialDelay most)

theorem sound_of_declared {basis : PacingBasis} {deviation : Binary64}
    (made : declared declaration basis deviation = .ok p) : p.shape.Sound := by
  unfold declared at made
  split at made
  next =>
    obtain ⟨shape, checked, rfl⟩ := exists_of_map_ok made
    exact sound_of_declaredShape checked
  next => cases made

theorem sound_initialDelay {most : Span} (word : most.nanos ≤ Word.greatest) :
    (initialDelay most).shape.Sound := by
  unfold initialDelay
  split
  · exact .fixed (Nat.zero_le _)
  · exact .uniform (Nat.zero_le _) word

theorem Admitted.sound (admitted : p.Admitted) : p.shape.Sound := by
  cases admitted with
  | declared made => exact sound_of_declared made
  | initialDelay word => exact sound_initialDelay word

/-- The delay lies beyond the bound where it should have been cut off. The bound is five times the
mean, and so long that taking it as a number has made it longer. -/
def Overshoots (p : Pacing) (delay : Span) : Prop :=
  ∃ mean most, p.shape = .exponential mean most ∧ most.nanos = mean.nanos * 5 ∧
    2 * Binary64.binade < most.nanos ∧ most.nanos < delay.nanos ∧
      delay.nanos ≤ (Binary64.ofNat most.nanos).toWord

section Draws

variable {ρ : Type} [WordSource ρ] {least most mean : Span}

theorem delay_uniform (uniform : p.shape = .uniform least most)
    (ordered : least.nanos ≤ most.nanos) (word : most.nanos ≤ Word.greatest) (r : ρ) :
    least.nanos ≤ (p.delay r).1.nanos ∧ (p.delay r).1.nanos ≤ most.nanos := by
  have leastFits : least.wordNanos = least.nanos := Nat.min_eq_left (le_trans ordered word)
  have mostFits : most.wordNanos = most.nanos := Nat.min_eq_left word
  rw [delay, uniform]
  dsimp only
  split
  next same => exact ⟨le_rfl, ordered⟩
  next =>
    rw [leastFits, mostFits]
    exact Random.between_bounds ordered word r

/-- Whatever number is drawn, it is cut off at the bound, taken as a number. -/
theorem cutOff_le (drawn : Binary64) :
    ((drawn.smaller (Binary64.ofNat most.nanos)).larger 0).toWord ≤
      (Binary64.ofNat most.nanos).toWord := by
  rw [Binary64.toWord_larger_zero]
  exact Binary64.toWord_smaller_le drawn (Binary64.ofNat_le_infinity _)

theorem delay_exponential (exponential : p.shape = .exponential mean most) (r : ρ) :
    (p.delay r).1.nanos ≤ (Binary64.ofNat most.nanos).toWord := by
  rw [delay, exponential]
  dsimp only
  split
  next => exact Nat.zero_le _
  next => exact cutOff_le _

theorem le_or_overshoots (exponential : p.shape = .exponential mean most)
    (bound : (Binary64.ofNat most.nanos).toWord ≤ most.nanos ∨ most.nanos = mean.nanos * 5)
    (r : ρ) : (p.delay r).1.nanos ≤ most.nanos ∨ p.Overshoots (p.delay r).1 := by
  have cut := delay_exponential exponential r
  refine or_iff_not_imp_left.mpr fun beyond => ?_
  have longer : most.nanos < (Binary64.ofNat most.nanos).toWord :=
    lt_of_lt_of_le (Nat.lt_of_not_le beyond) cut
  refine ⟨mean, most, exponential, bound.resolve_left (Nat.not_le_of_lt longer), ?_,
    Nat.lt_of_not_le beyond, cut⟩
  -- Up to `2 ^ 53` the bound is a number, so that nothing is rounded.
  by_contra short
  exact Nat.not_le_of_lt longer
    (Binary64.toWord_ofNat_le fun _ => (Binary64.units_ofNat (Nat.le_of_not_lt short)).1)

end Draws

/-- A drawn delay lies within the bounds of its pacing, and the histograms tell it apart. -/
structure KeepsBounds (p : Pacing) (delay : Span) : Prop where
  uniform : ∀ least most, p.shape = .uniform least most →
    least.nanos ≤ delay.nanos ∧ delay.nanos ≤ most.nanos
  exponential : ∀ mean most, p.shape = .exponential mean most → delay.nanos ≤ most.nanos
  histogram : ∃ most, p.histogramMost? = some most ∧ delay.nanos ≤ most.nanos

theorem not_overshoots_of_keepsBounds {delay : Span} (keeps : p.KeepsBounds delay) :
    ¬ p.Overshoots delay := by
  rintro ⟨mean, most, exponential, -, -, beyond, -⟩
  exact Nat.not_le_of_lt beyond (keeps.exponential mean most exponential)

variable {ρ : Type} [WordSource ρ]

theorem keepsBounds_of_fixed {time : Span} (fixed : p.shape = .fixed time)
    (word : time.nanos ≤ Word.greatest) (r : ρ) : p.KeepsBounds (p.delay r).1 := by
  have drawn : (p.delay r).1 = time := by rw [delay, fixed]
  have bounded : time.nanos * 2 < Span.limit :=
    lt_of_le_of_lt (Nat.mul_le_mul_right 2 word) (by decide)
  rw [drawn]
  refine ⟨?_, ?_, ⟨time.nanos * 2⟩, ?_, Nat.le_mul_of_pos_right _ (by decide)⟩
  · simp [fixed]
  · simp [fixed]
  · rw [histogramMost?, fixed]
    exact if_pos bounded

theorem keepsBounds_of_uniform {least most : Span} (uniform : p.shape = .uniform least most)
    (ordered : least.nanos ≤ most.nanos) (word : most.nanos ≤ Word.greatest) (r : ρ) :
    p.KeepsBounds (p.delay r).1 := by
  have drawn := delay_uniform uniform ordered word r
  refine ⟨?_, ?_, most, by rw [histogramMost?, uniform], drawn.2⟩
  · intro least' most' same
    obtain ⟨rfl, rfl⟩ := PacingShape.uniform.inj (uniform.symm.trans same)
    exact drawn
  · simp [uniform]

theorem keepsBounds_of_exponential {mean most : Span}
    (exponential : p.shape = .exponential mean most) {delay : Span}
    (within : delay.nanos ≤ most.nanos) : p.KeepsBounds delay := by
  refine ⟨?_, ?_, most, by rw [histogramMost?, exponential], within⟩
  · simp [exponential]
  · intro mean' most' same
    obtain ⟨rfl, rfl⟩ := PacingShape.exponential.inj (exponential.symm.trans same)
    exact within

theorem keepsBounds_or_overshoots (sound : p.shape.Sound) (r : ρ) :
    p.KeepsBounds (p.delay r).1 ∨ p.Overshoots (p.delay r).1 := by
  generalize shaped : p.shape = shape at sound
  cases sound with
  | fixed word => exact Or.inl (keepsBounds_of_fixed shaped word r)
  | uniform ordered word => exact Or.inl (keepsBounds_of_uniform shaped ordered word r)
  | exponential bound =>
    exact (le_or_overshoots shaped bound r).imp_left (keepsBounds_of_exponential shaped)

theorem ordered_of_sound {least most : Span}
    (sound : (PacingShape.uniform least most).Sound) : least.wordNanos ≤ most.wordNanos := by
  cases sound with
  | uniform ordered word => exact min_le_min_right _ ordered

end Pacing

open Pacing in
/-- A delay can be drawn from every pacing that is admitted, whatever words the source gives. It
keeps the bounds of the pacing, unless taking five times a long mean as a number has made the bound
longer. As a difference of clock readings it is never negative, and the same if it takes 63 bits. -/
theorem delays_within_bounds {ρ : Type} [WordSource ρ] {p : Pacing} (admitted : p.Admitted)
    (r : ρ) :
    (∀ least most, p.shape = .uniform least most → least.wordNanos ≤ most.wordNanos) ∧
      (p.KeepsBounds (p.delay r).1 ↔ ¬ p.Overshoots (p.delay r).1) ∧
      0 ≤ (p.delayStamp r).1 ∧ (p.delayStamp r).1 ≤ Stamp.greatest ∧
      (((p.delay r).1.nanos : Int) ≤ Stamp.greatest →
        (p.delayStamp r).1 = (p.delay r).1.nanos) := by
  have sound := admitted.sound
  refine ⟨fun least most shaped => ordered_of_sound (shaped ▸ sound),
    ⟨not_overshoots_of_keepsBounds, (keepsBounds_or_overshoots sound r).resolve_right⟩, ?_⟩
  change 0 ≤ Stamp.ofSpan (p.delay r).1 ∧ Stamp.ofSpan (p.delay r).1 ≤ Stamp.greatest ∧ _
  have largest : 0 ≤ Stamp.greatest := by decide
  exact ⟨le_min (Int.natCast_nonneg _) largest, min_le_right _ _, fun fits => min_eq_left fits⟩

/-- A mean of more than twenty days, so that five times as long takes more than 53 bits. -/
def Pacing.longMean : Binary64 := Binary64.ofDecimal false 1801439850948199 (-6)

/-- A word for which the ziggurat gives more than five times the mean. -/
def Pacing.lateWord : Loop := Loop.ofList [14757395258967641089]

/-- A bound that is declared cuts the delay off, also when it is that long. -/
theorem delays_within_bounds_declared : ∃ p,
    Pacing.declared (.exponential Pacing.longMean (some 9007199255)) .thinkTime 5 = .ok p ∧
      p.KeepsBounds (p.delay Pacing.lateWord).1 ∧
        (p.delayStamp Pacing.lateWord).1 = 9007199255000000 := by
  have declared : Pacing.declared (.exponential Pacing.longMean (some 9007199255)) .thinkTime 5 =
      .ok ⟨.exponential ⟨1801439850948199⟩ ⟨9007199255000000⟩, .thinkTime, 5⟩ := by
    decide +kernel
  obtain ⟨-, keeps, -, -, same⟩ := delays_within_bounds (.declared declared) Pacing.lateWord
  have drawn : (Pacing.delay ⟨.exponential ⟨1801439850948199⟩ ⟨9007199255000000⟩, .thinkTime, 5⟩
      Pacing.lateWord).1 = ⟨9007199255000000⟩ := by
    decide +kernel
  refine ⟨_, declared, keeps.mpr ?_, ?_⟩
  · rintro ⟨mean, most, shaped, times, -⟩
    obtain ⟨rfl, rfl⟩ := PacingShape.exponential.inj shaped
    exact absurd times (by decide)
  · rw [same (by rw [drawn]; decide), drawn]
    rfl

/-- The delay is cut off one nanosecond beyond five times the mean. -/
theorem default_bound_exceeded : ∃ p,
    Pacing.declared (.exponential Pacing.longMean none) .thinkTime 5 = .ok p ∧
      p.histogramMost? = some ⟨9007199254740995⟩ ∧
        (p.delay Pacing.lateWord).1 = ⟨9007199254740996⟩ := by
  have declared : Pacing.declared (.exponential Pacing.longMean none) .thinkTime 5 =
      .ok ⟨.exponential ⟨1801439850948199⟩ ⟨9007199254740995⟩, .thinkTime, 5⟩ := by
    decide +kernel
  exact ⟨_, declared, rfl, by decide +kernel⟩

end LoadGen
