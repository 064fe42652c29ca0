import LoadGen.Binary64
import Mathlib.Order.Monotone.Basic
import Mathlib.Tactic.Linarith
import Mathlib.Tactic.Ring

namespace LoadGen.Binary64

theorem units_of_lt {m : Nat} (small : m < binade) : units m = m := if_pos small

/-- A magnitude beyond the smallest ones is a significand of 53 binary digits, scaled. -/
theorem units_scaled {e s : Nat} (least : binade ≤ s) (most : s < 2 * binade) :
    units (e * binade + s) = s * 2 ^ e := by
  have positive : 0 < binade := by decide
  obtain ⟨fraction, rfl⟩ := Nat.exists_eq_add_of_le least
  have small : fraction < binade := by omega
  have quotient : (e * binade + (binade + fraction)) / binade = e + 1 := by
    rw [show e * binade + (binade + fraction) = fraction + binade * (e + 1) by ring,
      Nat.add_mul_div_left _ _ positive, Nat.div_eq_of_lt small, Nat.zero_add]
  have remainder : (e * binade + (binade + fraction)) % binade = fraction := by
    rw [show e * binade + (binade + fraction) = fraction + binade * (e + 1) by ring,
      Nat.add_mul_mod_self_left, Nat.mod_eq_of_lt small]
  unfold units
  rw [if_neg (by omega), quotient, remainder, Nat.shiftLeft_eq, Nat.add_sub_cancel]

theorem exists_scaled {m : Nat} (large : binade ≤ m) :
    ∃ e s, binade ≤ s ∧ s < 2 * binade ∧ m = e * binade + s := by
  have positive : 0 < binade := by decide
  have parts := Nat.div_add_mod m binade
  have small := Nat.mod_lt m positive
  have normal : 1 ≤ m / binade := (Nat.one_le_div_iff positive).mpr large
  obtain ⟨e, quotient⟩ := Nat.exists_eq_add_of_le normal
  refine ⟨e, binade + m % binade, by omega, by omega, ?_⟩
  rw [quotient, Nat.mul_add, Nat.mul_one, Nat.mul_comm] at parts
  omega

theorem exponent_eq {e s : Nat} (least : binade ≤ s) (most : s < 2 * binade) :
    (e * binade + s) / binade - 1 = e := by
  rw [Nat.mul_comm, Nat.mul_add_div (by decide),
    Nat.div_eq_of_lt_le (show 1 * binade ≤ s by omega) (by omega), Nat.add_sub_cancel]

/-- The next magnitude is one place of the last digit further. -/
theorem units_succ (m : Nat) : units (m + 1) = units m + 2 ^ (m / binade - 1) := by
  by_cases small : m < binade
  · rw [units_of_lt small, Nat.div_eq_of_lt small, Nat.zero_sub, Nat.pow_zero]
    by_cases next : m + 1 < binade
    · exact units_of_lt next
    · have same : m + 1 = 0 * binade + binade := by omega
      rw [same, units_scaled le_rfl (by decide)]
      omega
  · obtain ⟨e, s, least, most, rfl⟩ := exists_scaled (Nat.le_of_not_lt small)
    rw [exponent_eq least most, units_scaled least most]
    by_cases next : s + 1 < 2 * binade
    · rw [Nat.add_assoc, units_scaled (by omega) next]
      ring
    · have same : e * binade + s + 1 = (e + 1) * binade + binade := by
        rw [Nat.add_mul]
        omega
      have last : s + 1 = 2 * binade := by omega
      rw [same, units_scaled le_rfl (by decide), ← Nat.succ_mul, Nat.succ_eq_add_one, last]
      ring

theorem units_strictMono : StrictMono units :=
  strictMono_nat_of_lt_succ fun m => by
    rw [units_succ]
    exact Nat.lt_add_of_pos_right (Nat.two_pow_pos _)

theorem units_zero : units 0 = 0 := by decide

theorem units_pos {m : Nat} (positive : 0 < m) : 0 < units m :=
  units_zero ▸ units_strictMono positive

/-- The whole number nearest to a quotient exceeds `k` from the middle between `k` and the next one
on, the middle itself going to the even one. -/
theorem succ_le_roundHalfEven {n d k : Nat} (positive : 0 < d) : k + 1 ≤ roundHalfEven n d ↔
    (2 * k + 1) * d < 2 * n ∨ ((2 * k + 1) * d = 2 * n ∧ k % 2 = 1) := by
  have parts : d * (n / d) + n % d = n := Nat.div_add_mod n d
  have rest := Nat.mod_lt n positive
  unfold roundHalfEven
  generalize n / d = q at parts ⊢
  generalize n % d = r at parts rest ⊢
  subst parts
  rcases Nat.lt_trichotomy k q with below | rfl | above
  · -- Below the whole part, both sides hold.
    obtain ⟨more, rfl⟩ := Nat.exists_eq_add_of_lt below
    have left : (2 * k + 1) * d < 2 * (d * (k + more + 1) + r) := by nlinarith
    refine ⟨fun _ => Or.inl left, fun _ => ?_⟩
    dsimp only
    split <;> (try split) <;> omega
  · have same : (2 * k + 1) * d = 2 * (d * k) + d := by ring
    rw [same]
    dsimp only
    split
    · omega
    · split <;> omega
  · -- Above it, neither of them does.
    obtain ⟨more, rfl⟩ := Nat.exists_eq_add_of_lt above
    have right : 2 * (d * q + r) < (2 * (q + more + 1) + 1) * d := by nlinarith
    refine ⟨fun reached => ?_, fun reached => by omega⟩
    dsimp only at reached
    split at reached <;> (try split at reached) <;> omega

/-- The significands up to the next power of two, that one included. -/
theorem units_window {t k : Nat} (least : t = 0 ∨ binade ≤ k) (most : k ≤ 2 * binade) :
    units (t * binade + k) = k * 2 ^ t := by
  rcases Nat.lt_or_ge k binade with small | large
  · obtain rfl := least.resolve_right (by omega)
    rw [Nat.zero_mul, Nat.zero_add, units_of_lt small, Nat.pow_zero, Nat.mul_one]
  · rcases Nat.lt_or_eq_of_le most with inside | rfl
    · exact units_scaled large inside
    · have next : t * binade + 2 * binade = (t + 1) * binade + binade := by ring
      rw [next, units_scaled le_rfl (by decide)]
      ring

/-- So many binary digits are dropped that 53 are left, if there are more. -/
theorem dropped_bounds {n d t : Nat} (positive : 0 < d) (dropped : (n / d).log2 - 52 = t) :
    n < 2 * binade * 2 ^ t * d ∧ (t = 0 ∨ binade * 2 ^ t * d ≤ n) := by
  have digits : binade = 2 ^ 52 := by decide
  by_cases isZero : n / d = 0
  · rw [isZero] at dropped
    have zero : t = 0 := dropped.symm
    subst zero
    have small := (Nat.div_eq_zero_iff_lt positive).mp isZero
    refine ⟨lt_of_lt_of_le small ?_, Or.inl rfl⟩
    exact Nat.le_mul_of_pos_left d (by decide)
  · refine ⟨(Nat.div_lt_iff_lt_mul positive).mp ?_, ?_⟩
    · rw [digits, ← Nat.pow_succ', ← Nat.pow_add, ← Nat.log2_lt isZero]
      omega
    · refine or_iff_not_imp_left.mpr fun nonzero => (Nat.le_div_iff_mul_le positive).mp ?_
      rw [digits, ← Nat.pow_add, ← Nat.le_log2 isZero]
      omega

section Kept

variable {n d t k : Nat}

theorem succ_le_roundHalfEven_scaled (positive : 0 < d) : k + 1 ≤ roundHalfEven n (d <<< t) ↔
    (2 * k + 1) * (2 ^ t * d) < 2 * n ∨ ((2 * k + 1) * (2 ^ t * d) = 2 * n ∧ k % 2 = 1) := by
  have scaled : 0 < d <<< t := by
    rw [Nat.shiftLeft_eq]
    exact Nat.mul_pos positive (Nat.two_pow_pos t)
  rw [succ_le_roundHalfEven scaled, Nat.shiftLeft_eq, Nat.mul_comm d]

/-- The digits that are kept of a quotient make up a significand, when they are rounded as well. -/
theorem binade_le_roundHalfEven (positive : 0 < d) (least : binade * 2 ^ t * d ≤ n) :
    binade ≤ roundHalfEven n (d <<< t) := by
  have predecessor : binade = (binade - 1) + 1 := by decide
  rw [predecessor, succ_le_roundHalfEven_scaled positive]
  have unit : 0 < 2 ^ t * d := Nat.mul_pos (Nat.two_pow_pos t) positive
  have less : 2 * (binade - 1) + 1 < 2 * binade := by decide
  refine Or.inl ?_
  calc (2 * (binade - 1) + 1) * (2 ^ t * d) < 2 * binade * (2 ^ t * d) :=
        Nat.mul_lt_mul_of_pos_right less unit
    _ = 2 * (binade * 2 ^ t * d) := by ring
    _ ≤ 2 * n := Nat.mul_le_mul_left 2 least

theorem roundHalfEven_le (positive : 0 < d) (most : n < 2 * binade * 2 ^ t * d) :
    roundHalfEven n (d <<< t) ≤ 2 * binade := by
  refine Nat.le_of_not_lt fun beyond => ?_
  have middle := (succ_le_roundHalfEven_scaled positive).mp beyond
  have bound : 2 * n < (2 * (2 * binade) + 1) * (2 ^ t * d) := by nlinarith
  omega

end Kept

/-- A quotient comes to the next magnitude from the middle between the two on, the middle itself if
the next magnitude is even. -/
theorem succ_le_nearestMagnitude {n d m : Nat} (positive : 0 < d)
    (finite : m + 1 ≤ infinityMagnitude) : m + 1 ≤ nearestMagnitude n d ↔
      (units m + units (m + 1)) * d < 2 * n ∨
        ((units m + units (m + 1)) * d = 2 * n ∧ m % 2 = 1) := by
  obtain ⟨t, dropped⟩ : ∃ t, (n / d).log2 - 52 = t := ⟨_, rfl⟩
  obtain ⟨most, least⟩ := dropped_bounds positive dropped
  have result : m + 1 ≤ nearestMagnitude n d ↔ m + 1 ≤ t * binade + roundHalfEven n (d <<< t) := by
    unfold nearestMagnitude
    rw [dropped, Nat.le_min]
    exact and_iff_left finite
  rw [result]
  have step : units m < units (m + 1) := units_strictMono (Nat.lt_succ_self m)
  rcases Nat.lt_or_ge m (t * binade + 2 * binade) with below | above
  · by_cases inside : t = 0 ∨ t * binade + binade ≤ m
    · -- Both magnitudes have the digits of the quotient that are kept.
      obtain ⟨k, rfl⟩ : ∃ k, m = t * binade + k := ⟨m - t * binade, by
        rcases inside with rfl | inside <;> omega⟩
      have kept : t = 0 ∨ binade ≤ k := inside.imp_right fun _ => by omega
      have kept' : t = 0 ∨ binade ≤ k + 1 := kept.imp_right fun _ => by omega
      have middle : (k * 2 ^ t + (k + 1) * 2 ^ t) * d = (2 * k + 1) * (2 ^ t * d) := by ring
      have even : binade % 2 = 0 := by decide
      have parity : (t * binade + k) % 2 = k % 2 := by
        rw [Nat.add_mod, Nat.mul_mod, even]
        simp
      rw [Nat.add_assoc, units_window kept (by omega), units_window kept' (by omega),
        Nat.add_le_add_iff_left, succ_le_roundHalfEven_scaled positive, middle, parity]
    · -- The quotient lies beyond both.
      obtain ⟨nonzero, before⟩ := not_or.mp inside
      have least := least.resolve_left nonzero
      have wide := binade_le_roundHalfEven positive least
      have reaches : units (m + 1) ≤ binade * 2 ^ t := by
        rw [← units_window (Or.inr le_rfl) (by omega)]
        exact units_strictMono.monotone (by omega)
      refine ⟨fun _ => Or.inl ?_, fun _ => by omega⟩
      calc (units m + units (m + 1)) * d < 2 * (binade * 2 ^ t) * d :=
            Nat.mul_lt_mul_of_pos_right (by omega) positive
        _ = 2 * (binade * 2 ^ t * d) := by ring
        _ ≤ 2 * n := Nat.mul_le_mul_left 2 least
  · -- The quotient lies before both.
    have narrow := roundHalfEven_le positive most
    have starts : 2 * binade * 2 ^ t ≤ units m := by
      rw [← units_window (Or.inr (by omega)) le_rfl]
      exact units_strictMono.monotone above
    have bound : 2 * n < (units m + units (m + 1)) * d := by
      calc 2 * n < 2 * (2 * binade * 2 ^ t * d) := by omega
        _ = (2 * binade * 2 ^ t + 2 * binade * 2 ^ t) * d := by ring
        _ ≤ (units m + units (m + 1)) * d := Nat.mul_le_mul_right d (by omega)
    constructor
    · intro reached
      omega
    · omega

theorem nearestMagnitude_le_infinity (n d : Nat) : nearestMagnitude n d ≤ infinityMagnitude :=
  Nat.min_le_right _ _

section Nearest

variable {n d n' d' m : Nat}

/-- Larger quotients come to larger magnitudes. -/
theorem nearestMagnitude_mono (positive : 0 < d) (positive' : 0 < d') (le : n * d' ≤ n' * d) :
    nearestMagnitude n d ≤ nearestMagnitude n' d' := by
  cases reached : nearestMagnitude n d with
  | zero => exact Nat.zero_le _
  | succ m =>
    have finite : m + 1 ≤ infinityMagnitude := reached ▸ nearestMagnitude_le_infinity n d
    have middle := (succ_le_nearestMagnitude positive finite).mp (le_of_eq reached.symm)
    rw [succ_le_nearestMagnitude positive' finite]
    generalize units m + units (m + 1) = u at middle ⊢
    have cross : 2 * (n * d') ≤ 2 * (n' * d) := Nat.mul_le_mul_left 2 le
    rcases middle with before | ⟨exactly, odd⟩
    · refine Or.inl (Nat.lt_of_mul_lt_mul_right (a := d) ?_)
      have scaled : u * d * d' < 2 * n * d' := Nat.mul_lt_mul_of_pos_right before positive'
      linarith
    · have scaled : u * d * d' = 2 * n * d' := congrArg (· * d') exactly
      have reaches : u * d' ≤ 2 * n' := by
        refine Nat.le_of_mul_le_mul_right (c := d) ?_ positive
        linarith
      rcases Nat.lt_or_eq_of_le reaches with before | exactly
      · exact Or.inl before
      · exact Or.inr ⟨exactly, odd⟩

/-- A quotient that a magnitude does not fall short of comes to no larger one. -/
theorem nearestMagnitude_le (positive : 0 < d) (covers : n ≤ units m * d) :
    nearestMagnitude n d ≤ m := by
  by_contra beyond
  have finite : m + 1 ≤ infinityMagnitude :=
    le_trans (Nat.lt_of_not_le beyond) (nearestMagnitude_le_infinity n d)
  have middle := (succ_le_nearestMagnitude positive finite).mp (Nat.lt_of_not_le beyond)
  have step : units m < units (m + 1) := units_strictMono (Nat.lt_succ_self m)
  have more := Nat.mul_lt_mul_of_pos_right step positive
  rw [Nat.add_mul] at middle
  omega

/-- A quotient that reaches a magnitude comes to that or a larger one. -/
theorem le_nearestMagnitude (positive : 0 < d) (finite : m ≤ infinityMagnitude)
    (reaches : units m * d ≤ n) : m ≤ nearestMagnitude n d := by
  cases m with
  | zero => exact Nat.zero_le _
  | succ m =>
    rw [succ_le_nearestMagnitude positive finite]
    have step : units m < units (m + 1) := units_strictMono (Nat.lt_succ_self m)
    have more := Nat.mul_lt_mul_of_pos_right step positive
    rw [Nat.add_mul]
    omega

/-- A quotient that is a magnitude comes to itself. -/
theorem nearestMagnitude_units (positive : 0 < d) (finite : m ≤ infinityMagnitude) :
    nearestMagnitude (units m * d) d = m :=
  Nat.le_antisymm (nearestMagnitude_le positive le_rfl) (le_nearestMagnitude positive finite le_rfl)

/-- Doubling passes over the next magnitude. -/
theorem units_succ_lt (several : 1 < m) : units (m + 1) < 2 * units m := by
  by_cases small : m < binade
  · have step := units_succ m
    rw [Nat.div_eq_of_lt small, Nat.zero_sub, Nat.pow_zero] at step
    rw [step, units_of_lt small]
    omega
  · obtain ⟨e, s, least, most, rfl⟩ := exists_scaled (Nat.le_of_not_lt small)
    have positive : 1 < binade := by decide
    rw [Nat.add_assoc, units_window (Or.inr (by omega)) (by omega), units_scaled least most,
      ← Nat.mul_assoc]
    exact Nat.mul_lt_mul_of_pos_right (by omega) (Nat.two_pow_pos e)

theorem units_succ_le (positive : 0 < m) : units (m + 1) ≤ 2 * units m := by
  rcases Nat.lt_or_eq_of_le (Nat.succ_le_of_lt positive) with more | rfl
  · exact Nat.le_of_lt (units_succ_lt more)
  · decide

/-- Beyond the smallest magnitudes, the place of the last digit is a small part of the next one. -/
theorem binade_mul_lt_units (large : binade ≤ m) :
    binade * 2 ^ (m / binade - 1) < units (m + 1) := by
  obtain ⟨e, s, least, most, rfl⟩ := exists_scaled large
  rw [exponent_eq least most, Nat.add_assoc, units_window (Or.inr (by omega)) (by omega)]
  exact Nat.mul_lt_mul_of_pos_right (by omega) (Nat.two_pow_pos e)

/-- Rounding takes away no more than a third of a quotient from one on. -/
theorem le_of_nearestMagnitude (positive : 0 < d) (one : d ≤ n)
    (finite : nearestMagnitude n d < infinityMagnitude) :
    2 * n ≤ 3 * (units (nearestMagnitude n d) * d) := by
  have nonzero : 0 < nearestMagnitude n d := by
    refine le_nearestMagnitude positive (by decide) ?_
    rw [units_of_lt (by decide), Nat.one_mul]
    exact one
  generalize reached : nearestMagnitude n d = m at nonzero finite ⊢
  have next : ¬ m + 1 ≤ nearestMagnitude n d := by omega
  rw [succ_le_nearestMagnitude positive finite] at next
  have double := Nat.mul_le_mul_right d (units_succ_le nonzero)
  rw [Nat.add_mul] at next
  have twice : 2 * units m * d = 2 * (units m * d) := by ring
  omega

end Nearest

end LoadGen.Binary64
