import LoadGen.Proofs.Rounding
import LoadGen.TimeUnit

namespace LoadGen

namespace Binary64

variable {x y z : Binary64} {a b n : Nat}

protected theorem le_trans (first : x ≤ y) (second : y ≤ z) : x ≤ z :=
  ⟨first.1, second.2.1, Int.le_trans first.2.2 second.2.2⟩

protected theorem lt_of_lt_of_le (first : x < y) (second : y ≤ z) : x < z :=
  ⟨first.1, second.2.1, Int.lt_of_lt_of_le first.2.2 second.2.2⟩

protected theorem lt_of_le_of_lt (first : x ≤ y) (second : y < z) : x < z :=
  ⟨first.1, second.2.1, Int.lt_of_le_of_lt first.2.2 second.2.2⟩

protected theorem not_le_of_lt (lt : x < y) : ¬ y ≤ x :=
  fun le => Int.not_le.mpr lt.2.2 le.2.2

theorem not_le_iff (number : x.isNaN = false) (number' : y.isNaN = false) : ¬ x ≤ y ↔ y < x :=
  ⟨fun beyond => ⟨number', number, Int.not_le.mp fun le => beyond ⟨number, number', le⟩⟩,
    Binary64.not_le_of_lt⟩

theorem isNaN_of_isFinite (finite : x.isFinite = true) : x.isNaN = false := by
  simp only [isFinite, decide_eq_true_eq] at finite
  simp only [isNaN, decide_eq_false_iff_not]
  omega

theorem isNaN_mk {negative : Bool} : isNaN ⟨negative, a⟩ = false ↔ a ≤ infinityMagnitude := by
  simp [isNaN]

theorem mk_le_mk : (⟨false, a⟩ : Binary64) ≤ ⟨false, b⟩ ↔ a ≤ b ∧ b ≤ infinityMagnitude := by
  change (isNaN ⟨false, a⟩ = false ∧ isNaN ⟨false, b⟩ = false ∧ (a : Int) ≤ b) ↔ _
  rw [isNaN_mk, isNaN_mk]
  omega

theorem mk_lt_mk : (⟨false, a⟩ : Binary64) < ⟨false, b⟩ ↔ a < b ∧ b ≤ infinityMagnitude := by
  change (isNaN ⟨false, a⟩ = false ∧ isNaN ⟨false, b⟩ = false ∧ (a : Int) < b) ↔ _
  rw [isNaN_mk, isNaN_mk]
  omega

theorem zero_eq : (0 : Binary64) = ⟨false, 0⟩ := by decide +kernel

/-- A positive number is a positive magnitude. -/
theorem exists_of_pos (positive : 0 < x) :
    ∃ m, x = ⟨false, m⟩ ∧ 0 < m ∧ m ≤ infinityMagnitude := by
  obtain ⟨negative, m⟩ := x
  rw [zero_eq] at positive
  cases negative with
  | false =>
    obtain ⟨nonzero, number⟩ := mk_lt_mk.mp positive
    exact ⟨m, rfl, nonzero, number⟩
  | true =>
    have order : (0 : Int) < -(m : Int) := positive.2.2
    omega

/-- One, as a magnitude. -/
theorem units_one : units (1023 * binade) = unitsOfOne := by decide +kernel

theorem exists_unitsOfOne : ∃ places, places = 1074 ∧ unitsOfOne = 2 ^ places :=
  have power : ∀ k, ∃ places, places = k ∧ 1 <<< k = 2 ^ places :=
    fun k => ⟨k, rfl, Nat.one_shiftLeft k⟩
  power 1074

theorem unitsOfOne_pos : 0 < unitsOfOne := by
  obtain ⟨places, -, one⟩ := exists_unitsOfOne
  rw [one]
  exact Nat.two_pow_pos places

theorem mk_mul_mk (first : a < infinityMagnitude) (second : b < infinityMagnitude) :
    (⟨false, a⟩ * ⟨false, b⟩ : Binary64) =
      ⟨false, nearestMagnitude (units a * units b) unitsOfOne⟩ := by
  change mul _ _ = _
  have number : ¬ infinityMagnitude < a := by omega
  have number' : ¬ infinityMagnitude < b := by omega
  simp [mul, isNaN, isInfinite, nearest, number, number', first.ne, second.ne]

theorem mk_sub_mk (le : b ≤ a) (finite : a < infinityMagnitude) :
    (⟨false, a⟩ - ⟨false, b⟩ : Binary64) = ⟨false, nearestMagnitude (units a - units b) 1⟩ := by
  change sub _ _ = _
  have number : ¬ infinityMagnitude < a := by omega
  have number' : ¬ infinityMagnitude < b := by omega
  have finite' : b ≠ infinityMagnitude := by omega
  have order := units_strictMono.monotone le
  have difference : (units a : Int) + -(units b : Int) = ((units a - units b : Nat) : Int) := by
    omega
  by_cases same : units a - units b = 0
  · have zero : nearestMagnitude 0 1 = 0 := by decide
    simp [sub, add, neg, isNaN, isInfinite, value, number, number', finite.ne,
      finite', difference, same, zero]
  · simp [sub, add, neg, isNaN, isInfinite, value, nearest, number, number',
      finite.ne, finite', difference, same]

theorem infinity_mul_mk (hb : 0 < b) (number : b ≤ infinityMagnitude) :
    (⟨false, infinityMagnitude⟩ * ⟨false, b⟩ : Binary64) = ⟨false, infinityMagnitude⟩ := by
  change mul _ _ = _
  have positive : infinityMagnitude ≠ 0 := by decide
  simp [mul, isNaN, isInfinite, Nat.not_lt.mpr number, positive, hb.ne']

theorem mk_div_mk (first : a < infinityMagnitude) (positive : 0 < b)
    (second : b < infinityMagnitude) : (⟨false, a⟩ / ⟨false, b⟩ : Binary64) =
      ⟨false, nearestMagnitude (units a * unitsOfOne) (units b)⟩ := by
  change div _ _ = _
  have number : ¬ infinityMagnitude < a := by omega
  have number' : ¬ infinityMagnitude < b := by omega
  simp [div, isNaN, isInfinite, nearest, number, number', first.ne, second.ne, positive.ne']

theorem infinity_div_mk (second : b < infinityMagnitude) :
    (⟨false, infinityMagnitude⟩ / ⟨false, b⟩ : Binary64) = ⟨false, infinityMagnitude⟩ := by
  change div _ _ = _
  have number : ¬ infinityMagnitude < b := by omega
  simp [div, isNaN, isInfinite, number, second.ne]

theorem nearestMagnitude_scale {n d c : Nat} (positive : 0 < d) (scale : 0 < c) :
    nearestMagnitude (n * c) (d * c) = nearestMagnitude n d := by
  have scaled : 0 < d * c := Nat.mul_pos positive scale
  refine Nat.le_antisymm (nearestMagnitude_mono scaled positive (le_of_eq ?_))
    (nearestMagnitude_mono positive scaled (le_of_eq ?_)) <;> ring

theorem nearestMagnitude_scale_one {n c : Nat} (scale : 0 < c) :
    nearestMagnitude (n * c) c = nearestMagnitude n 1 := by
  have scaled := nearestMagnitude_scale (n := n) Nat.one_pos scale
  rwa [Nat.one_mul] at scaled

/-- A count of at most `2 ^ 53` is scaled up to 53 binary digits. -/
theorem exists_window (nonzero : n ≠ 0) (small : n ≤ 2 * binade) :
    ∃ t ≤ 52, binade ≤ n * 2 ^ t ∧ n * 2 ^ t ≤ 2 * binade := by
  have digits : binade = 2 ^ 52 := by decide
  have least : 2 ^ n.log2 ≤ n := (Nat.le_log2 nonzero).mp le_rfl
  have most : n < 2 ^ (n.log2 + 1) := (Nat.log2_lt nonzero).mp (Nat.lt_succ_self _)
  generalize n.log2 = l at least most
  by_cases large : 52 ≤ l
  · have enough : 2 ^ 52 ≤ 2 ^ l := Nat.pow_le_pow_right (by decide) large
    exact ⟨0, by decide, by omega, by omega⟩
  · obtain ⟨t, complete⟩ := Nat.exists_eq_add_of_le (show l ≤ 52 by omega)
    refine ⟨t, by omega, ?_, ?_⟩
    · rw [digits, complete, Nat.pow_add]
      exact Nat.mul_le_mul_right _ least
    · have scaled := Nat.mul_le_mul_right (2 ^ t) (Nat.le_of_lt most)
      rwa [← Nat.pow_add, Nat.add_right_comm, ← complete, Nat.pow_succ, ← digits,
        Nat.mul_comm binade] at scaled

/-- A count that is a number is not rounded. -/
theorem ofNat_magnitude {m : Nat} (number : m ≤ infinityMagnitude)
    (whole : units m = n * unitsOfOne) : (ofNat n).magnitude = m := by
  change nearestMagnitude (n * unitsOfOne) 1 = m
  rw [← whole, ← Nat.mul_one (units m)]
  exact nearestMagnitude_units Nat.one_pos number

/-- A count of at most `2 ^ 53` is a number. -/
theorem units_ofNat (small : n ≤ 2 * binade) : units (ofNat n).magnitude = n * unitsOfOne ∧
    (ofNat n).magnitude < infinityMagnitude := by
  obtain ⟨m, finite, same⟩ : ∃ m < infinityMagnitude, units m = n * unitsOfOne := by
    by_cases isZero : n = 0
    · exact ⟨0, by decide, by rw [isZero, units_zero, Nat.zero_mul]⟩
    · obtain ⟨t, bound, least, most⟩ := exists_window isZero small
      obtain ⟨places, enough, one⟩ := exists_unitsOfOne
      refine ⟨(places - t) * binade + n * 2 ^ t, ?_, ?_⟩
      · have scaled := Nat.mul_le_mul_right binade (show places - t ≤ 1074 by omega)
        have positive : 0 < binade := by decide
        unfold infinityMagnitude
        omega
      · rw [units_window (Or.inr least) most, one, Nat.mul_assoc, ← Nat.pow_add,
          Nat.add_sub_of_le (by omega)]
  rw [ofNat_magnitude (Nat.le_of_lt finite) same]
  exact ⟨same, finite⟩

theorem ofNat_mono (le : a ≤ b) : (ofNat a).magnitude ≤ (ofNat b).magnitude :=
  nearestMagnitude_mono Nat.one_pos Nat.one_pos
    (Nat.mul_le_mul_right 1 (Nat.mul_le_mul_right unitsOfOne le))

theorem ofNat_le_infinity (n : Nat) : (ofNat n).magnitude ≤ infinityMagnitude :=
  nearestMagnitude_le_infinity _ _

/-- A count of 64 bits is finite. -/
theorem ofNat_lt_infinity (small : n ≤ Word.greatest) :
    (ofNat n).magnitude < infinityMagnitude :=
  lt_of_le_of_lt (ofNat_mono small) (by decide +kernel)

/-- The whole part of a number that is not negative. -/
theorem toWord_mk (number : a ≤ infinityMagnitude) : toWord ⟨false, a⟩ =
    if a = infinityMagnitude then Word.greatest else min (units a / unitsOfOne) Word.greatest := by
  have notAbove : ¬ infinityMagnitude < a := Nat.not_lt.mpr number
  simp [toWord, isNaN, isInfinite, notAbove]

/-- Zero, the greatest number of 64 bits, and everything held at it are such numbers. -/
theorem held_le_greatest {undefined infinite : Prop} [Decidable undefined] [Decidable infinite]
    (n : Nat) :
    (if undefined then 0 else if infinite then Word.greatest else min n Word.greatest) ≤
      Word.greatest := by
  split
  · exact Nat.zero_le _
  · split
    · exact le_rfl
    · exact Nat.min_le_right _ _

theorem ceilWord_le_greatest (x : Binary64) : x.ceilWord ≤ Word.greatest := held_le_greatest _

theorem ceilWord_mk_le (finite : a < infinityMagnitude) (covers : units a ≤ n * unitsOfOne) :
    ceilWord ⟨false, a⟩ ≤ n := by
  have positive := unitsOfOne_pos
  have rounded : (units a + unitsOfOne - 1) / unitsOfOne ≤ n := by
    refine Nat.lt_succ_iff.mp ((Nat.div_lt_iff_lt_mul positive).mpr ?_)
    rw [Nat.succ_mul]
    omega
  have number : ¬ infinityMagnitude < a := by omega
  simp only [ceilWord, isNaN, isInfinite, number, finite.ne, decide_false, Bool.or_self,
    Bool.false_eq_true, if_false]
  exact le_trans (Nat.min_le_left _ _) rounded

/-- The largest number below one falls short of it by one part in `2 ^ 53`. -/
theorem units_below_one :
    2 * binade * units (1023 * binade - 1) = (2 * binade - 1) * unitsOfOne := by
  decide +kernel

/-- A part of a number is a smaller number, even when both are rounded. -/
theorem nearestMagnitude_part_lt {q x : Nat} (part : q < 1023 * binade)
    (large : binade < x) (finite : x ≤ infinityMagnitude) :
    nearestMagnitude (units q * units x) unitsOfOne < x := by
  obtain ⟨k, rfl⟩ := Nat.exists_eq_add_of_lt large
  generalize same : binade + k = m at finite ⊢
  have last := binade_mul_lt_units (show binade ≤ m by omega)
  have step := units_succ m
  have least := units_strictMono.monotone (show q ≤ 1023 * binade - 1 by omega)
  have positive := unitsOfOne_pos
  by_contra reached
  have middle := (succ_le_nearestMagnitude positive finite).mp (Nat.le_of_not_lt reached)
  have below : (units m + units (m + 1)) * unitsOfOne ≤ 2 * (units q * units (m + 1)) := by omega
  have scaled : 2 * binade * units q ≤ (2 * binade - 1) * unitsOfOne := by
    rw [← units_below_one]
    exact Nat.mul_le_mul_left _ least
  have product : binade * (units m + units (m + 1)) ≤ (2 * binade - 1) * units (m + 1) := by
    refine Nat.le_of_mul_le_mul_right (c := unitsOfOne) ?_ positive
    calc binade * (units m + units (m + 1)) * unitsOfOne
        = binade * ((units m + units (m + 1)) * unitsOfOne) := by ring
      _ ≤ binade * (2 * (units q * units (m + 1))) := Nat.mul_le_mul_left _ below
      _ = 2 * binade * units q * units (m + 1) := by ring
      _ ≤ (2 * binade - 1) * unitsOfOne * units (m + 1) := Nat.mul_le_mul_right _ scaled
      _ = (2 * binade - 1) * units (m + 1) * unitsOfOne := by ring
  have spread : (2 * binade - 1) * units (m + 1) + units (m + 1) =
      binade * units (m + 1) + binade * units (m + 1) := by
    rw [← Nat.succ_mul, ← Nat.two_mul, ← Nat.mul_assoc]
    rfl
  rw [Nat.mul_add] at product
  have whole : binade * units (m + 1) = binade * units m + binade * 2 ^ (m / binade - 1) := by
    rw [step, Nat.mul_add]
  omega

/-- The rank of a quantile below one does not exceed the count, whatever is rounded up. -/
theorem ceilWord_part_le {q : Nat} (part : q < 1023 * binade) (hn : 0 < n) :
    ((⟨false, q⟩ : Binary64) * ofNat n).ceilWord ≤ n := by
  by_cases large : Word.greatest ≤ n
  · exact le_trans (ceilWord_le_greatest _) large
  · have finite := ofNat_lt_infinity (Nat.le_of_not_le large)
    have finite' : q < infinityMagnitude := lt_trans part (by decide)
    change ((⟨false, q⟩ : Binary64) * ⟨false, (ofNat n).magnitude⟩).ceilWord ≤ n
    rw [mk_mul_mk finite' finite]
    have one : 1023 * binade ≤ (ofNat n).magnitude := by
      refine le_nearestMagnitude Nat.one_pos (by decide) ?_
      rw [units_one, Nat.mul_one]
      exact Nat.le_mul_of_pos_left _ hn
    have positive : binade < 1023 * binade := by decide
    generalize same : (ofNat n).magnitude = x at finite one ⊢
    have less := nearestMagnitude_part_lt part (lt_of_lt_of_le positive one) (Nat.le_of_lt finite)
    -- The number before that of the count lies below the count.
    obtain ⟨k, rfl⟩ : ∃ k, x = k + 1 := ⟨x - 1, by omega⟩
    have before : units k < n * unitsOfOne := by
      by_contra covers
      have reached : (ofNat n).magnitude ≤ k :=
        nearestMagnitude_le Nat.one_pos (by omega)
      omega
    refine ceilWord_mk_le (lt_trans less finite) (le_trans ?_ (Nat.le_of_lt before))
    exact units_strictMono.monotone (Nat.lt_succ_iff.mp less)

theorem literal_eq (n : Nat) : (OfNat.ofNat n : Binary64) =
    ⟨false, (ofNat n).magnitude⟩ := rfl

/-- A percentage below a hundred is a part of one. -/
theorem exists_of_percentage {p : Binary64} (positive : 0 < p) (percentage : p < 100) :
    ∃ q, p / 100 = ⟨false, q⟩ ∧ q < 1023 * binade := by
  obtain ⟨m, rfl, nonzero, -⟩ := exists_of_pos positive
  rw [literal_eq 100] at percentage ⊢
  obtain ⟨below, -⟩ := mk_lt_mk.mp percentage
  have finite : (ofNat 100).magnitude < infinityMagnitude := by decide +kernel
  have hundred : 0 < (ofNat 100).magnitude := by decide +kernel
  refine ⟨_, mk_div_mk (lt_trans below finite) hundred finite, ?_⟩
  have most : nearestMagnitude (units ((ofNat 100).magnitude - 1) * unitsOfOne)
      (units (ofNat 100).magnitude) < 1023 * binade := by decide +kernel
  have divisor : 0 < units (ofNat 100).magnitude := by decide +kernel
  refine lt_of_le_of_lt (nearestMagnitude_mono divisor divisor ?_) most
  refine Nat.mul_le_mul_right _ (Nat.mul_le_mul_right _ ?_)
  exact units_strictMono.monotone (by omega)

end Binary64

namespace TimeUnit

open Binary64

variable {u : TimeUnit} {a b n : Nat}

theorem nanos_pos (u : TimeUnit) : 0 < u.nanos := by cases u <;> decide

theorem nanos_le (u : TimeUnit) : u.nanos ≤ 1000000000 := by cases u <;> decide

theorem units_nanos (u : TimeUnit) :
    units (Binary64.ofNat u.nanos).magnitude = u.nanos * unitsOfOne ∧
      (Binary64.ofNat u.nanos).magnitude < infinityMagnitude :=
  units_ofNat (le_trans u.nanos_le (by decide))

theorem nanos_magnitude_pos (u : TimeUnit) : 0 < (Binary64.ofNat u.nanos).magnitude := by
  by_contra isZero
  have zero := Nat.eq_zero_of_not_pos isZero
  have same := u.units_nanos.1
  rw [zero, units_zero] at same
  have positive := Nat.mul_pos u.nanos_pos unitsOfOne_pos
  omega

/-- A count of nanoseconds in a unit is a quotient that is rounded twice. -/
theorem ofNanos_eq (u : TimeUnit) (n : Nat) : u.ofNanos n = ⟨false,
    if (Binary64.ofNat n).magnitude = infinityMagnitude then infinityMagnitude
    else nearestMagnitude (units (Binary64.ofNat n).magnitude) u.nanos⟩ := by
  obtain ⟨unrounded, finite⟩ := u.units_nanos
  have unitPositive := u.nanos_magnitude_pos
  change (⟨false, (Binary64.ofNat n).magnitude⟩ / ⟨false, (Binary64.ofNat u.nanos).magnitude⟩ :
    Binary64) = _
  rcases Nat.lt_or_eq_of_le (ofNat_le_infinity n) with inside | infinite
  · rw [mk_div_mk inside unitPositive finite, if_neg inside.ne, unrounded,
      nearestMagnitude_scale u.nanos_pos unitsOfOne_pos]
  · rw [infinite, infinity_div_mk finite, if_pos rfl]

/-- Longer times are larger numbers of a unit. -/
theorem ofNanos_mono (le : a ≤ b) : u.ofNanos a ≤ u.ofNanos b := by
  have counts := ofNat_mono le
  have bound := ofNat_le_infinity b
  rw [ofNanos_eq, ofNanos_eq, mk_le_mk]
  by_cases infinite : (Binary64.ofNat b).magnitude = infinityMagnitude
  · rw [if_pos infinite]
    refine ⟨?_, le_rfl⟩
    split
    · exact le_rfl
    · exact nearestMagnitude_le_infinity _ _
  · rw [if_neg infinite, if_neg (by omega)]
    refine ⟨nearestMagnitude_mono u.nanos_pos u.nanos_pos ?_, nearestMagnitude_le_infinity _ _⟩
    exact Nat.mul_le_mul_right _ (units_strictMono.monotone counts)

end TimeUnit

end LoadGen
