import LoadGen.Proofs.MixChecks
import LoadGen.Span.Readable
import Mathlib.Algebra.Order.Field.Rat
import Mathlib.Tactic.Positivity

namespace LoadGen

namespace Binary64

variable {n n' d k m : Nat}

/-- Rounding to a whole number is off by half of one at most. -/
theorem roundHalfEven_bounds (positive : 0 < d) :
    2 * (roundHalfEven n d * d) ≤ 2 * n + d ∧ 2 * n ≤ 2 * (roundHalfEven n d * d) + d := by
  have beyond := succ_le_roundHalfEven (n := n) (k := roundHalfEven n d) positive
  have upper : (2 * roundHalfEven n d + 1) * d = 2 * (roundHalfEven n d * d) + d := by ring
  refine ⟨?_, by omega⟩
  cases reached : roundHalfEven n d with
  | zero => omega
  | succ k =>
    have middle := (succ_le_roundHalfEven positive).mp (le_of_eq reached.symm)
    have lower : 2 * ((k + 1) * d) = (2 * k + 1) * d + d := by ring
    omega

theorem roundHalfEven_mono (positive : 0 < d) (le : n ≤ n') :
    roundHalfEven n d ≤ roundHalfEven n' d := by
  cases reached : roundHalfEven n d with
  | zero => exact Nat.zero_le _
  | succ k =>
    have middle := (succ_le_roundHalfEven positive).mp (le_of_eq reached.symm)
    rw [Nat.succ_le_iff, ← Nat.succ_le_iff, succ_le_roundHalfEven positive]
    omega

/-- The number as a fraction. -/
def rational (x : Binary64) : ℚ := x.value / unitsOfOne

/-- No finite number is nearer to the fraction. -/
def Nearest (x : Binary64) (q : ℚ) : Prop :=
  x.isFinite = true ∧ ∀ y : Binary64, y.isFinite = true → |x.rational - q| ≤ |y.rational - q|

theorem rational_mk (m : Nat) : rational ⟨false, m⟩ = units m / unitsOfOne := by
  simp [rational, value]

theorem unitsOfOne_pos_rat : (0 : ℚ) < unitsOfOne := by exact_mod_cast unitsOfOne_pos

theorem rational_nonneg (m : Nat) : 0 ≤ rational ⟨false, m⟩ := by
  rw [rational_mk]
  positivity

theorem rational_mono {a b : Nat} (le : a ≤ b) : rational ⟨false, a⟩ ≤ rational ⟨false, b⟩ := by
  rw [rational_mk, rational_mk]
  have order : (units a : ℚ) ≤ units b := by exact_mod_cast units_strictMono.monotone le
  exact div_le_div_of_nonneg_right order unitsOfOne_pos_rat.le

/-- The number that a quotient comes to lies between the middles to its neighbours. -/
theorem middles_of_nearest (positive : 0 < d) (finite : nearestMagnitude (n * unitsOfOne) d = m)
    (below : m < infinityMagnitude) :
    (∀ k, k + 1 = m → rational ⟨false, k⟩ + rational ⟨false, m⟩ ≤ 2 * (n / d : ℚ)) ∧
      2 * (n / d : ℚ) ≤ rational ⟨false, m⟩ + rational ⟨false, m + 1⟩ := by
  have one := unitsOfOne_pos_rat
  have positiveRat : (0 : ℚ) < d := by exact_mod_cast positive
  constructor
  · rintro k rfl
    have middle := (succ_le_nearestMagnitude positive below.le).mp (le_of_eq finite.symm)
    have scaled : (units k + units (k + 1)) * d ≤ 2 * (n * unitsOfOne) := by omega
    have scaledRat : ((units k : ℚ) + units (k + 1)) * d ≤ 2 * (n * unitsOfOne) := by
      exact_mod_cast scaled
    rw [rational_mk, rational_mk, ← add_div, ← mul_div_assoc, div_le_div_iff₀ one positiveRat]
    linarith
  · have middle := mt (succ_le_nearestMagnitude (m := m) (n := n * unitsOfOne) positive below).mpr
      (by omega)
    have scaled : 2 * (n * unitsOfOne) ≤ (units m + units (m + 1)) * d := by omega
    have scaledRat : 2 * ((n : ℚ) * unitsOfOne) ≤ (units m + units (m + 1)) * d := by
      exact_mod_cast scaled
    rw [rational_mk, rational_mk, ← add_div, ← mul_div_assoc, div_le_div_iff₀ positiveRat one]
    linarith

/-- A quotient of counts comes to the nearest number. -/
theorem nearest_of_quotient (positive : 0 < d) (finite : nearestMagnitude (n * unitsOfOne) d = m)
    (below : m < infinityMagnitude) : Nearest ⟨false, m⟩ (n / d) := by
  obtain ⟨lower, upper⟩ := middles_of_nearest positive finite below
  have nonneg : (0 : ℚ) ≤ n / d := by positivity
  -- Other magnitudes are beyond the neighbours.
  have others : ∀ m', |rational ⟨false, m⟩ - n / d| ≤ |rational ⟨false, m'⟩ - n / d| := by
    intro m'
    rcases Nat.lt_trichotomy m' m with less | rfl | more
    · obtain ⟨k, rfl⟩ : ∃ k, m = k + 1 := ⟨m - 1, by omega⟩
      have before := rational_mono (show m' ≤ k by omega)
      have order := rational_mono (show m' ≤ k + 1 by omega)
      have middle := lower k rfl
      have nearer : |rational ⟨false, k + 1⟩ - n / d| ≤ n / d - rational ⟨false, m'⟩ :=
        abs_le.mpr ⟨by linarith, by linarith⟩
      exact le_trans nearer ((le_abs_self _).trans (abs_sub_comm _ _).le)
    · exact le_rfl
    · have after := rational_mono (show m + 1 ≤ m' by omega)
      have order := rational_mono (show m ≤ m' by omega)
      have nearer : |rational ⟨false, m⟩ - n / d| ≤ rational ⟨false, m'⟩ - n / d :=
        abs_le.mpr ⟨by linarith, by linarith⟩
      exact le_trans nearer (le_abs_self _)
  refine ⟨by simpa [isFinite] using below, fun y _ => ?_⟩
  obtain ⟨_ | _, m'⟩ := y
  · exact others m'
  · -- Zero is nearer than any number below it.
    have zero : rational ⟨false, 0⟩ = 0 := by simp [rational_mk, units_zero]
    have opposite : rational ⟨true, m'⟩ = -rational ⟨false, m'⟩ := by
      simp [rational, value, neg_div]
    have far := rational_nonneg m'
    refine le_trans (others 0) ?_
    rw [zero, opposite, zero_sub, abs_neg, abs_of_nonneg nonneg, abs_sub_comm]
    exact le_trans (by linarith) (le_abs_self _)

/-- Beyond the smallest magnitudes, the place of the last digit is a small part of the number. -/
theorem binade_mul_le_units (large : binade ≤ m) : binade * 2 ^ (m / binade - 1) ≤ units m := by
  obtain ⟨e, s, least, most, rfl⟩ := exists_scaled large
  rw [exponent_eq least most, units_scaled least most]
  exact Nat.mul_le_mul_right _ least

/-- Next to each other, two numbers differ by one part in `2 ^ 52` at most. -/
theorem rational_succ_le (large : binade ≤ m) :
    rational ⟨false, m + 1⟩ ≤ rational ⟨false, m⟩ + rational ⟨false, m⟩ / 2 ^ 52 := by
  have one := unitsOfOne_pos_rat
  have digits : (binade : ℚ) = 2 ^ 52 := by norm_num [binade]
  have place := binade_mul_le_units large
  have placeRat : (2 ^ 52 : ℚ) * 2 ^ (m / binade - 1) ≤ units m := by
    rw [← digits]
    exact_mod_cast place
  have step : (units (m + 1) : ℚ) = units m + 2 ^ (m / binade - 1) := by
    exact_mod_cast units_succ m
  rw [rational_mk, rational_mk, step, add_div]
  have gap : (2 ^ (m / binade - 1) : ℚ) ≤ units m / 2 ^ 52 := by
    rw [le_div_iff₀ (by positivity)]
    linarith
  have scaled := div_le_div_of_nonneg_right gap one.le
  rw [div_right_comm] at scaled
  linarith

/-- Beyond the smallest magnitudes, a quotient is rounded by one part in `2 ^ 53` at most. -/
theorem quotient_error (positive : 0 < d) (finite : nearestMagnitude (n * unitsOfOne) d = m)
    (below : m < infinityMagnitude) (large : binade < m) :
    |rational ⟨false, m⟩ - n / d| ≤ (n / d : ℚ) / 2 ^ 53 := by
  obtain ⟨lower, upper⟩ := middles_of_nearest positive finite below
  obtain ⟨k, rfl⟩ : ∃ k, m = k + 1 := ⟨m - 1, by omega⟩
  have middle := lower k rfl
  have order := rational_mono (show k ≤ k + 1 by omega)
  have step := rational_succ_le (show binade ≤ k by omega)
  have step' := rational_succ_le (show binade ≤ k + 1 by omega)
  have nonneg : (0 : ℚ) ≤ n / d := by positivity
  generalize (n / d : ℚ) = q at middle upper nonneg ⊢
  generalize rational ⟨false, k⟩ = a at *
  generalize rational ⟨false, k + 1⟩ = b at *
  generalize rational ⟨false, k + 1 + 1⟩ = c at *
  refine abs_le.mpr ⟨?_, by linarith⟩
  rcases le_total b q with before | beyond
  · linarith
  · have part : 0 ≤ q / 2 ^ 53 := by positivity
    linarith

/-- Two places of a number are off by half of the last one at most. -/
theorem hundredths_error (m : Nat) :
    |(roundHalfEven (units m * 100) unitsOfOne : ℚ) / 100 - rational ⟨false, m⟩| ≤ 1 / 200 := by
  have one := unitsOfOne_pos_rat
  obtain ⟨upper, lower⟩ := roundHalfEven_bounds (n := units m * 100) unitsOfOne_pos
  have whole : (units m : ℚ) = rational ⟨false, m⟩ * unitsOfOne := by
    rw [rational_mk, div_mul_cancel₀ _ one.ne']
  generalize roundHalfEven (units m * 100) unitsOfOne = k at upper lower ⊢
  generalize rational ⟨false, m⟩ = x at whole ⊢
  generalize units m = u at whole upper lower
  generalize unitsOfOne = o at one whole upper lower
  have upperRat : 2 * ((k : ℚ) * o) ≤ 2 * (u * 100) + o := by exact_mod_cast upper
  have lowerRat : 2 * ((u : ℚ) * 100) ≤ 2 * (k * o) + o := by exact_mod_cast lower
  rw [whole] at upperRat lowerRat
  have above : 2 * (k : ℚ) ≤ 200 * x + 1 := le_of_mul_le_mul_right (by linarith) one
  have below : 200 * x ≤ 2 * (k : ℚ) + 1 := le_of_mul_le_mul_right (by linarith) one
  exact abs_le.mpr ⟨by linarith, by linarith⟩

end Binary64

namespace Span

open Binary64

variable {s : Span} {n n' k unit : Nat}

/-- The text of a number of two places, given in hundredths. -/
def hundredths (k : Nat) : String :=
  toString (k / 100) ++ "." ++ String.ofList [Nat.digitChar (k / 10 % 10), Nat.digitChar (k % 10)]

theorem positional_hundredths (whole : 100 ≤ k) : positional k (-2) = hundredths k := by
  have digits : Nat.toDigits 10 k =
      Nat.toDigits 10 (k / 100) ++ [Nat.digitChar (k / 10 % 10), Nat.digitChar (k % 10)] := by
    rw [Nat.toDigits_of_base_le (by decide) (show 10 ≤ k by omega),
      Nat.toDigits_of_base_le (by decide) (show 10 ≤ k / 10 by omega), Nat.div_div_eq_div_mul]
    simp
  have enough : 2 + 1 - ((Nat.toDigits 10 (k / 100)).length + 2) = 0 := by
    have nonempty : 0 < (Nat.toDigits 10 (k / 100)).length := Nat.length_toDigits_pos
    omega
  refine String.toList_inj.mp ?_
  simp [positional, hundredths, digits, enough]

/-- The hundredths of a unit that are shown. -/
def shownIn (nanos unit : Nat) : Nat :=
  roundHalfEven (units (nearestMagnitude (nanos * unitsOfOne) unit) * 100) unitsOfOne

theorem shownIn_mono (positive : 0 < unit) (le : n ≤ n') : shownIn n unit ≤ shownIn n' unit := by
  have scaled : n * unitsOfOne * unit ≤ n' * unitsOfOne * unit :=
    Nat.mul_le_mul_right _ (Nat.mul_le_mul_right _ le)
  have magnitudes := nearestMagnitude_mono positive positive scaled
  exact roundHalfEven_mono unitsOfOne_pos
    (Nat.mul_le_mul_right _ (units_strictMono.monotone magnitudes))

/-- A unit that a span is shown in: its symbol, how many of it make up the next larger one, and
from which nanoseconds on the number shown is rounded up to as many. -/
structure Scale where
  nanos : Nat
  symbol : String
  size : Nat
  roundsUp : Nat

def scales : List Scale :=
  [⟨1000, "μs", 1000, 999995⟩, ⟨1000000, "ms", 1000, 999995000⟩,
    ⟨1000000000, "s", 60, 59995000001⟩]

/-- How the numbers of a scale go together: the first one shown is one, the last one is the size,
and this is reached at the nanoseconds given. -/
structure Scale.Consistent (scale : Scale) : Prop where
  positive : 0 < scale.nanos
  small : scale.nanos * scale.size ≤ 2 * binade
  least : shownIn scale.nanos scale.nanos = 100
  most : shownIn (scale.nanos * scale.size) scale.nanos = 100 * scale.size
  reached : 100 * scale.size ≤ shownIn scale.roundsUp scale.nanos
  before : shownIn (scale.roundsUp - 1) scale.nanos < 100 * scale.size

theorem consistent_of_scales {scale : Scale} (mem : scale ∈ scales) : scale.Consistent := by
  simp only [scales, List.mem_cons, List.not_mem_nil, or_false] at mem
  rcases mem with rfl | rfl | rfl <;> constructor <;> decide +kernel

/-- `k` hundredths are shown of nanoseconds counted in a unit: they come from the binary number
nearest to the exact one, and lie within the unit unless the number is rounded up to its size. -/
structure Scale.Shows (scale : Scale) (nanos k : Nat) (x : Binary64) : Prop where
  nearest : x.Nearest (nanos / scale.nanos)
  exactness : |x.rational - nanos / scale.nanos| ≤ (nanos / scale.nanos : ℚ) / 2 ^ 53
  places : |(k : ℚ) / 100 - x.rational| ≤ 1 / 200
  least : 100 ≤ k
  most : k ≤ 100 * scale.size
  inside : k < 100 * scale.size ↔ nanos < scale.roundsUp

variable {scale : Scale}

/-- A count of at least one unit is a finite number, and none of the smallest. -/
theorem magnitude_in_range (positive : 0 < unit) (small : n ≤ 2 * binade) (least : unit ≤ n) :
    binade < nearestMagnitude (n * unitsOfOne) unit ∧
      nearestMagnitude (n * unitsOfOne) unit < infinityMagnitude := by
  constructor
  · have reaches : units (1023 * binade) * unit ≤ n * unitsOfOne := by
      rw [units_one, Nat.mul_comm]
      exact Nat.mul_le_mul_right _ least
    exact lt_of_lt_of_le (by decide) (le_nearestMagnitude positive (by decide) reaches)
  · refine lt_of_le_of_lt ?_ (units_ofNat small).2
    exact nearestMagnitude_mono positive Nat.one_pos (Nat.mul_le_mul_left _ positive)

theorem Scale.Consistent.shows (fits : scale.Consistent) (least : scale.nanos ≤ n)
    (below : n < scale.nanos * scale.size) : scale.Shows n (shownIn n scale.nanos)
      ⟨false, nearestMagnitude (n * unitsOfOne) scale.nanos⟩ := by
  obtain ⟨large, finite⟩ :=
    magnitude_in_range fits.positive (below.le.trans fits.small) least
  refine ⟨nearest_of_quotient fits.positive rfl finite,
    quotient_error fits.positive rfl finite large, hundredths_error _,
    fits.least ▸ shownIn_mono fits.positive least,
    fits.most ▸ shownIn_mono fits.positive below.le, fun inside => ?_, fun less => ?_⟩
  · by_contra beyond
    have shown := shownIn_mono fits.positive (Nat.le_of_not_lt beyond)
    exact absurd inside (Nat.not_lt.mpr (fits.reached.trans shown))
  · have shown := shownIn_mono fits.positive (Nat.le_sub_one_of_lt less)
    exact lt_of_le_of_lt shown fits.before

theorem Scale.Consistent.inUnit_eq (fits : scale.Consistent) (least : scale.nanos ≤ n)
    (below : n < scale.nanos * scale.size) :
    inUnit n scale.nanos = hundredths (shownIn n scale.nanos) := by
  have small := below.le.trans fits.small
  have finite := (magnitude_in_range fits.positive small least).2
  have whole := (fits.shows least below).least
  have number : ¬infinityMagnitude < nearestMagnitude (n * unitsOfOne) scale.nanos := by omega
  rw [← positional_hundredths whole, inUnit,
    ofNat_div_ofNat fits.positive small (least.trans small)]
  have hundred : tenTo 2 = 100 := by decide
  simp [fixedText, isNaN, isInfinite, signText, shownIn, number, finite.ne, hundred]

/-- What is shown of a span. The two places of a larger unit stay below its size but for the spans
that are rounded up to it. -/
theorem readable_spans (s : Span) :
    (s.nanos < 1000 → s.readable = toString s.nanos ++ "ns") ∧
    (∀ scale ∈ scales, scale.nanos ≤ s.nanos → s.nanos < scale.nanos * scale.size →
      ∃ k x, scale.Shows s.nanos k x ∧ s.readable = hundredths k ++ scale.symbol) ∧
    (60000000000 ≤ s.nanos → ∃ hours minutes seconds, minutes < 60 ∧ seconds < 60 ∧
      3600 * hours + 60 * minutes + seconds = s.seconds ∧
      s.readable = (if hours = 0 then "" else toString hours ++ "h ") ++
        (toString minutes ++ "m " ++ (toString seconds ++ "s"))) := by
  refine ⟨fun small => if_pos small, fun scale mem least below => ?_, fun long => ?_⟩
  · have fits := consistent_of_scales mem
    refine ⟨_, _, fits.shows least below, ?_⟩
    rw [← fits.inUnit_eq least below]
    simp only [scales, List.mem_cons, List.not_mem_nil, or_false] at mem
    unfold readable
    rcases mem with rfl | rfl | rfl <;> simp only at least below ⊢
    · rw [if_neg (by omega), if_pos (by omega)]
    · rw [if_neg (by omega), if_neg (by omega), if_pos (by omega)]
    · rw [if_neg (by omega), if_neg (by omega), if_neg (by omega), if_pos (by omega)]
  · refine ⟨s.seconds / 60 / 60, s.seconds / 60 % 60, s.seconds % 60, Nat.mod_lt _ (by decide),
      Nat.mod_lt _ (by decide), by omega, ?_⟩
    unfold readable
    rw [if_neg (by omega), if_neg (by omega), if_neg (by omega), if_neg (by omega)]
    by_cases short : s.seconds / 60 < 60
    · have noHours : s.seconds / 60 / 60 = 0 := Nat.div_eq_of_lt short
      simp [short, noHours, Nat.mod_eq_of_lt short]
    · have hasHours : s.seconds / 60 / 60 ≠ 0 := by omega
      simp [short, hasHours, String.append_assoc]

theorem readable_spans_milliseconds : ∃ k x,
    Scale.Shows ⟨1000000, "ms", 1000, 999995000⟩ 25750000 k x ∧
      readable ⟨25750000⟩ = hundredths k ++ "ms" := by
  have mem : ⟨1000000, "ms", 1000, 999995000⟩ ∈ scales := by simp [scales]
  exact (readable_spans ⟨25750000⟩).2.1 _ mem (by decide) (by decide)

/-- Just below the next larger unit, the size of the unit is shown and not that one. -/
theorem readable_rounded_up : readable ⟨999995⟩ = "1000.00μs" ∧
    readable ⟨999995000⟩ = "1000.00ms" ∧ readable ⟨59995000001⟩ = "60.00s" := by
  decide +kernel

end Span

end LoadGen
