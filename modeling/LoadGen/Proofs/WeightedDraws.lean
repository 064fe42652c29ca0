import LoadGen.Proofs.NumberOrder
import LoadGen.Proofs.SafeRuns

namespace LoadGen

namespace Binary64

variable {x y : Binary64} {m : Nat}

/-- The number is not below zero: it has a magnitude, and zero may have either sign. -/
structure Nonneg (x : Binary64) : Prop where
  number : x.magnitude ≤ infinityMagnitude
  sign : x.negative = true → x.magnitude = 0

theorem nonneg_mk (number : m ≤ infinityMagnitude) : Nonneg ⟨false, m⟩ := ⟨number, nofun⟩

theorem Nonneg.rank (nonneg : Nonneg x) : x.rank = x.magnitude := by
  unfold Binary64.rank
  split
  next negative => simp [nonneg.sign negative]
  next => rfl

theorem Nonneg.value (nonneg : Nonneg x) : x.value = units x.magnitude := by
  unfold Binary64.value
  split
  next negative => simp [nonneg.sign negative, units_zero]
  next => rfl

theorem Nonneg.le_iff (first : Nonneg x) (second : Nonneg y) :
    x ≤ y ↔ x.magnitude ≤ y.magnitude := by
  change (x.isNaN = false ∧ y.isNaN = false ∧ x.rank ≤ y.rank) ↔ _
  rw [first.rank, second.rank]
  simp [isNaN, first.number, second.number]

theorem Nonneg.lt_iff (first : Nonneg x) (second : Nonneg y) :
    x < y ↔ x.magnitude < y.magnitude := by
  change (x.isNaN = false ∧ y.isNaN = false ∧ x.rank < y.rank) ↔ _
  rw [first.rank, second.rank]
  simp [isNaN, first.number, second.number]

theorem nonneg_zero : Nonneg 0 := by
  rw [zero_eq]
  exact nonneg_mk (Nat.zero_le _)

theorem nonneg_iff : Nonneg x ↔ 0 ≤ x := by
  refine ⟨fun nonneg => ?_, fun ⟨_, number, order⟩ => ⟨by simpa [isNaN] using number, ?_⟩⟩
  · rw [nonneg_zero.le_iff nonneg, zero_eq]
    exact Nat.zero_le _
  · intro negative
    rw [zero_eq, Binary64.rank, Binary64.rank, negative] at order
    simp at order
    omega

/-- Only an infinity beyond the numbers has a sign that disagrees with that of others. -/
theorem Nonneg.sign_of_infinite (nonneg : Nonneg x) : (x.isInfinite && x.negative) = false := by
  cases negative : x.negative with
  | false => exact Bool.and_false _
  | true =>
    have other : (0 : Nat) ≠ infinityMagnitude := by decide
    simp [isInfinite, nonneg.sign negative, other]

/-- The sum of two numbers that are not below zero, as a magnitude. -/
theorem Nonneg.add (first : Nonneg x) (second : Nonneg y) : Nonneg (x + y) ∧
    (x + y).magnitude =
      if x.magnitude = infinityMagnitude ∨ y.magnitude = infinityMagnitude then infinityMagnitude
      else nearestMagnitude (units x.magnitude + units y.magnitude) 1 := by
  change Nonneg (Binary64.add x y) ∧ (Binary64.add x y).magnitude = _
  have number : x.isNaN = false := by simp [isNaN, first.number]
  have number' : y.isNaN = false := by simp [isNaN, second.number]
  unfold Binary64.add
  rw [number, number', Bool.or_self, if_neg Bool.false_ne_true]
  by_cases infinite : x.magnitude = infinityMagnitude
  · have unbounded : x.isInfinite = true := by simp [isInfinite, infinite]
    have plus : x.negative = false := by simpa [unbounded] using first.sign_of_infinite
    rw [if_pos unbounded, plus, Bool.false_bne, second.sign_of_infinite, if_neg Bool.false_ne_true,
      if_pos (Or.inl infinite)]
    exact ⟨first, infinite⟩
  · by_cases infinite' : y.magnitude = infinityMagnitude
    · have finite : ¬ x.isInfinite = true := by simp [isInfinite, infinite]
      have unbounded : y.isInfinite = true := by simp [isInfinite, infinite']
      rw [if_neg finite, if_pos unbounded, if_pos (Or.inr infinite')]
      exact ⟨second, infinite'⟩
    · have finite : ¬ x.isInfinite = true := by simp [isInfinite, infinite]
      have finite' : ¬ y.isInfinite = true := by simp [isInfinite, infinite']
      rw [if_neg finite, if_neg finite', if_neg (not_or.mpr ⟨infinite, infinite'⟩), first.value,
        second.value]
      dsimp only
      split
      next sumZero =>
        have zero : units x.magnitude + units y.magnitude = 0 := by exact_mod_cast sumZero
        rw [zero]
        exact ⟨⟨Nat.zero_le _, fun _ => rfl⟩, rfl⟩
      next sumPositive =>
        have sign : decide ((units x.magnitude : Int) + units y.magnitude < 0) = false := by
          simp
          omega
        have count : ((units x.magnitude : Int) + units y.magnitude).natAbs =
            units x.magnitude + units y.magnitude := by omega
        rw [sign, count]
        exact ⟨nonneg_mk (nearestMagnitude_le_infinity _ _), rfl⟩

/-- Adding does not make a number smaller. -/
theorem Nonneg.le_add (first : Nonneg x) (second : Nonneg y) :
    x.magnitude ≤ (x + y).magnitude := by
  rw [(first.add second).2]
  split
  next => exact first.number
  next =>
    refine le_nearestMagnitude Nat.one_pos first.number ?_
    rw [Nat.mul_one]
    exact Nat.le_add_right _ _

/-- Adding zero does not change a number. -/
theorem Nonneg.add_zero (first : Nonneg x) (second : Nonneg y) (zero : y.magnitude = 0) :
    (x + y).magnitude = x.magnitude := by
  have other : (0 : Nat) ≠ infinityMagnitude := by decide
  rw [(first.add second).2, zero, units_zero, Nat.add_zero]
  split
  next infinite => exact (infinite.resolve_right other).symm
  next =>
    rw [← Nat.mul_one (units x.magnitude)]
    exact nearestMagnitude_units Nat.one_pos first.number

theorem Nonneg.foldl_add {xs : List Binary64} (nonneg : Nonneg x) (all : ∀ y ∈ xs, Nonneg y) :
    Nonneg (xs.foldl (· + ·) x) := by
  induction xs generalizing x with
  | nil => exact nonneg
  | cons y xs ih =>
    obtain ⟨first, all⟩ := List.forall_mem_cons.mp all
    exact ih (nonneg.add first).1 all

/-- The share of a number in a positive total, which is zero if the number is. -/
theorem Nonneg.div (nonneg : Nonneg x) (finite : x.isFinite = true) (positive : 0 < y) :
    Nonneg (x / y) ∧ (x.magnitude = 0 → (x / y).magnitude = 0) := by
  obtain ⟨t, rfl, nonzero, number⟩ := exists_of_pos positive
  obtain ⟨negative, a⟩ := x
  have below : a < infinityMagnitude := by simpa [isFinite] using finite
  have notNaN : ¬ infinityMagnitude < a := by omega
  have number' : ¬ infinityMagnitude < t := by omega
  have zero : a = 0 → nearestMagnitude (units a * unitsOfOne) (units t) = 0 := by
    rintro rfl
    refine Nat.le_zero.mp (nearestMagnitude_le (units_pos nonzero) ?_)
    rw [units_zero, Nat.zero_mul]
    exact Nat.zero_le _
  have divided : (⟨negative, a⟩ / ⟨false, t⟩ : Binary64) = ⟨negative,
      if t = infinityMagnitude then 0
      else nearestMagnitude (units a * unitsOfOne) (units t)⟩ := by
    change Binary64.div _ _ = _
    by_cases infinite : t = infinityMagnitude <;>
      simp [Binary64.div, isNaN, isInfinite, nearest, notNaN, number', below.ne, infinite,
        nonzero.ne']
  rw [divided]
  refine ⟨⟨?_, fun sign => ?_⟩, fun isZero => ?_⟩
  · dsimp only
    split
    · exact Nat.zero_le _
    · exact nearestMagnitude_le_infinity _ _
  · simp [zero (nonneg.sign sign)]
  · simp [zero isZero]

end Binary64

namespace WeightTable

open Binary64

variable {total s x w : Binary64} {weights rest : List Binary64} {table : WeightTable} {m : Nat}

/-- The sums from one on, the weights after it being given. -/
theorem le_of_mem_runningSums (nonneg : Nonneg total) (all : ∀ w ∈ rest, Nonneg w) :
    ∀ s ∈ runningSums total rest, Nonneg s ∧ total.magnitude ≤ s.magnitude := by
  induction rest generalizing total with
  | nil => nofun
  | cons w rest ih =>
    obtain ⟨first, all⟩ := List.forall_mem_cons.mp all
    have sum := (nonneg.add first).1
    have grown := nonneg.le_add first
    refine List.forall_mem_cons.mpr ⟨⟨sum, grown⟩, fun s mem => ?_⟩
    obtain ⟨later, more⟩ := ih sum all s mem
    exact ⟨later, le_trans grown more⟩

/-- A number below the last sum, counted by the sums that it has reached, finds a weight that is not
zero: this weight has raised the sum beyond the number. -/
theorem exists_weight_at (positive : x < s → w.magnitude ≠ 0) (nonneg : Nonneg s)
    (number : Nonneg x) (all : ∀ w ∈ rest, Nonneg w)
    (below : x < (s :: runningSums s rest).getLast (List.cons_ne_nil _ _)) :
    ∃ w', (w :: rest)[(s :: runningSums s rest).dropLast.countP fun s => decide (s ≤ x)]? =
      some w' ∧ w'.magnitude ≠ 0 := by
  induction rest generalizing s w with
  | nil => exact ⟨w, rfl, positive below⟩
  | cons v rest ih =>
    obtain ⟨first, all'⟩ := List.forall_mem_cons.mp all
    rw [runningSums, List.dropLast_cons_cons]
    by_cases reached : s ≤ x
    · have sum := (nonneg.add first).1
      have raises : x < s + v → v.magnitude ≠ 0 := by
        intro raised zero
        rw [number.lt_iff sum, nonneg.add_zero first zero] at raised
        exact Nat.not_lt.mpr ((nonneg.le_iff number).mp reached) raised
      obtain ⟨w', entry, nonzero⟩ := ih raises sum all' below
      rw [List.countP_cons_of_pos (by simpa using reached)]
      exact ⟨w', entry, nonzero⟩
    · -- No sum from here on has been reached.
      have less : x.magnitude < s.magnitude := by
        rw [nonneg.le_iff number] at reached
        omega
      have noneReached : ((s + v) :: runningSums (s + v) rest).dropLast.countP
          (fun s => decide (s ≤ x)) = 0 := by
        refine List.countP_eq_zero.mpr fun s' mem => ?_
        obtain ⟨later, more⟩ := le_of_mem_runningSums nonneg all s' (List.dropLast_subset _ mem)
        simp only [decide_eq_true_eq, later.le_iff number]
        omega
      rw [List.countP_cons_of_neg (by simpa using reached), noneReached]
      exact ⟨w, rfl, positive ((number.lt_iff nonneg).mpr less)⟩

/-- The fractions of draws are multiples of `2 ^ -52` below one. -/
theorem exists_step : ∃ step, units (1023 * binade) = binade * step ∧
    (∀ k < binade, units (1023 * binade + k) = (binade + k) * step) ∧
      units largestFraction.magnitude = (binade - 1) * step := by
  obtain ⟨step, power⟩ : ∃ step, step = 2 ^ 1022 := ⟨_, rfl⟩
  have whole : ∀ k < binade, units (1023 * binade + k) = (binade + k) * step := by
    intro k small
    have parts : 1023 * binade + k = 1022 * binade + (binade + k) := by ring
    rw [parts, units_scaled (Nat.le_add_right _ _) (by omega), power]
  refine ⟨step, by simpa using whole 0 (by decide), whole, ?_⟩
  rw [power]
  decide +kernel

/-- The fraction that a word is taken for. -/
theorem exists_fraction (w : UInt64) : ∃ m, Random.oneToTwo w - 1 = ⟨false, m⟩ ∧
    m ≤ largestFraction.magnitude := by
  obtain ⟨step, one, whole, largest⟩ := exists_step
  have oneEq : (1 : Binary64) = ⟨false, 1023 * binade⟩ := by decide +kernel
  have bits : w.toNat >>> 12 < binade := by
    rw [Nat.shiftRight_eq_div_pow, Nat.div_lt_iff_lt_mul (by decide)]
    exact lt_of_lt_of_le (UInt64.toNat_lt w) (by decide)
  have finite : 1023 * binade + (w.toNat >>> 12) < infinityMagnitude := by
    unfold infinityMagnitude
    omega
  refine ⟨_, by rw [oneEq, Random.oneToTwo, mk_sub_mk (Nat.le_add_right _ _) finite], ?_⟩
  refine nearestMagnitude_le Nat.one_pos ?_
  rw [largest, whole _ bits, one, Nat.mul_one, ← Nat.sub_mul, Nat.add_sub_cancel_left]
  exact Nat.mul_le_mul_right step (by omega)

theorem nonneg_scaleBelow (total : Binary64) (m : Nat) (number : m ≤ infinityMagnitude) :
    ∃ j ≤ m, scaleBelow total m = ⟨false, j⟩ ∧
      (j = 0 ∨ ¬ total ≤ ⟨false, j⟩ * largestFraction) := by
  induction m with
  | zero => exact ⟨0, le_rfl, zero_eq, Or.inl rfl⟩
  | succ m ih =>
    unfold scaleBelow
    split
    next =>
      obtain ⟨j, within, same, below⟩ := ih (Nat.le_of_succ_le number)
      exact ⟨j, Nat.le_succ_of_le within, same, below⟩
    next beyond => exact ⟨m + 1, le_rfl, rfl, Or.inr beyond⟩

/-- The largest fraction of the scale lies below the total. -/
theorem exists_scale (nonneg : Nonneg total) (nonzero : total.magnitude ≠ 0) :
    ∃ j < infinityMagnitude, scaleBelow total total.magnitude = ⟨false, j⟩ ∧
      nearestMagnitude (units j * units largestFraction.magnitude) unitsOfOne <
        total.magnitude := by
  have fraction : largestFraction = ⟨false, largestFraction.magnitude⟩ := by decide +kernel
  have part : 0 < largestFraction.magnitude ∧ largestFraction.magnitude < infinityMagnitude := by
    decide +kernel
  obtain ⟨j, within, same, below⟩ := nonneg_scaleBelow total total.magnitude nonneg.number
  have finite : j < infinityMagnitude := by
    rcases Nat.lt_or_eq_of_le (le_trans within nonneg.number) with finite | rfl
    · exact finite
    · refine absurd ?_ (below.resolve_left (by decide))
      rw [fraction, infinity_mul_mk part.1 part.2.le, nonneg.le_iff (nonneg_mk le_rfl)]
      exact nonneg.number
  refine ⟨j, finite, same, ?_⟩
  rcases below with rfl | below
  · refine lt_of_le_of_lt (nearestMagnitude_le (m := 0) unitsOfOne_pos ?_)
      (Nat.pos_of_ne_zero nonzero)
    rw [units_zero, Nat.zero_mul, Nat.zero_mul]
  · rw [fraction, mk_mul_mk finite part.2,
      nonneg.le_iff (nonneg_mk (nearestMagnitude_le_infinity _ _))] at below
    exact Nat.lt_of_not_le below

/-- A draw is not below zero, and lies below the total that the scale belongs to. -/
theorem draw_lt (nonneg : Nonneg total) (nonzero : total.magnitude ≠ 0) (word : UInt64) :
    let x := (Random.oneToTwo word - 1) * scaleBelow total total.magnitude + 0
    Nonneg x ∧ x < total := by
  intro x
  obtain ⟨m, fraction, within⟩ := exists_fraction word
  obtain ⟨j, finite, scale, below⟩ := exists_scale nonneg nonzero
  have part : largestFraction.magnitude < infinityMagnitude := by decide +kernel
  have scaled : x = ⟨false, nearestMagnitude (units m * units j) unitsOfOne⟩ + 0 := by
    rw [← mk_mul_mk (lt_of_le_of_lt within part) finite, ← fraction, ← scale]
  have product := nonneg_mk (nearestMagnitude_le_infinity (units m * units j) unitsOfOne)
  have drawn := (product.add nonneg_zero).1
  rw [scaled]
  refine ⟨drawn, (drawn.lt_iff nonneg).mpr ?_⟩
  rw [product.add_zero nonneg_zero (by rw [zero_eq])]
  refine lt_of_le_of_lt (nearestMagnitude_mono unitsOfOne_pos unitsOfOne_pos ?_) below
  rw [Nat.mul_comm (units j)]
  exact Nat.mul_le_mul_right _ (Nat.mul_le_mul_right _ (units_strictMono.monotone within))

/-- Whatever word is drawn, the position that it finds is that of a weight that is not zero. -/
theorem position_of_ofWeights (made : ofWeights weights = .ok table)
    (all : ∀ w ∈ weights, Nonneg w) (word : UInt64) :
    ∃ w, weights[table.position word]? = some w ∧ w.magnitude ≠ 0 := by
  unfold ofWeights at made
  split at made
  next => cases made
  next first rest =>
    dsimp only at made
    have last : (first :: runningSums first rest).getLastD first =
        (first :: runningSums first rest).getLast (List.cons_ne_nil _ _) := by
      rw [List.getLastD_cons, List.getLast_eq_getLastD]
    rw [last] at made
    have among := List.getLast_mem (List.cons_ne_nil first (runningSums first rest))
    split at made
    next => cases made
    next nonzero =>
      cases made
      obtain ⟨nonneg, all⟩ := List.forall_mem_cons.mp all
      have sums := List.forall_mem_cons.mpr
        ⟨nonneg, fun s mem => (le_of_mem_runningSums nonneg all s mem).1⟩
      have total := sums _ among
      rw [total.rank] at nonzero
      obtain ⟨drawn, below⟩ := draw_lt total (by exact_mod_cast nonzero) word
      refine exists_weight_at (fun reached => ?_) nonneg drawn all below
      rw [drawn.lt_iff nonneg] at reached
      omega

end WeightTable

namespace Mix

open Binary64

variable {operations : List Nat} {weights : List Binary64} {names : List String} {m : Mix}

theorem nonneg_of_valid (valid : firstInvalidWeight? weights names = none) :
    ∀ w ∈ weights, w.isFinite = true ∧ Nonneg w := by
  induction weights generalizing names with
  | nil => nofun
  | cons w weights ih =>
    unfold firstInvalidWeight? at valid
    split at valid
    next checked =>
      exact List.forall_mem_cons.mpr ⟨⟨checked.1, nonneg_iff.mpr checked.2⟩, ih valid⟩
    next => cases valid

/-- What a mix of weights comes from: its table is of their shares in a positive total. -/
theorem exists_table_of_flat (made : flat operations weights names = .ok m) :
    ∃ total table, m.choice = .weighted table ∧ m.operations = operations ∧
      operations.length = weights.length ∧ 0 < total ∧
      (∀ w ∈ weights, w.isFinite = true ∧ Nonneg w) ∧
        WeightTable.ofWeights (weights.map (· / total)) = .ok table := by
  unfold flat at made
  split at made
  next => cases made
  next =>
    split at made
    next => cases made
    next same =>
      split at made
      next => cases made
      next valid =>
        have all := nonneg_of_valid valid
        dsimp only at made
        split at made
        next => cases made
        next positive =>
          split at made
          next table tabled =>
            cases made
            refine ⟨_, table, rfl, rfl, not_not.mp same, ?_, all, tabled⟩
            have sum := nonneg_zero.foldl_add fun w mem => (all w mem).2
            rw [sum.le_iff nonneg_zero, Nat.not_le] at positive
            exact (nonneg_zero.lt_iff sum).mpr positive
          next => cases made

/-- The draws of a mix find listed operations whose weight is positive. -/
theorem position_of_flat (made : flat operations weights names = .ok m) :
    ∃ table, m.choice = .weighted table ∧ m.operations = operations ∧
      ∀ word, ∃ operation weight, operations[table.position word]? = some operation ∧
        weights[table.position word]? = some weight ∧ 0 < weight := by
  obtain ⟨total, table, choice, listed, same, positive, all, tabled⟩ := exists_table_of_flat made
  have shares : ∀ s ∈ weights.map (· / total), Nonneg s :=
    List.forall_mem_map.mpr fun w mem => ((all w mem).2.div (all w mem).1 positive).1
  refine ⟨table, choice, listed, fun word => ?_⟩
  obtain ⟨share, entry, nonzero⟩ := WeightTable.position_of_ofWeights tabled shares word
  rw [List.getElem?_map] at entry
  obtain ⟨weight, there, rfl⟩ := Option.map_eq_some_iff.mp entry
  obtain ⟨finite, nonneg⟩ := all weight (List.mem_of_getElem? there)
  have within : table.position word < operations.length :=
    same ▸ (List.getElem?_eq_some_iff.mp there).1
  refine ⟨_, weight, List.getElem?_eq_getElem within, there, (nonneg_zero.lt_iff nonneg).mpr ?_⟩
  rw [zero_eq]
  exact Nat.pos_of_ne_zero fun zero => nonzero ((nonneg.div finite positive).2 zero)

end Mix

namespace Selector

variable {s : Selector} {table : WeightTable} {random : ChaCha}

/-- Selecting does not change the operations or the table of weights. -/
theorem after_weighted (weighted : s.state = .weighted table random) (n : Nat) :
    (s.after n).operations = s.operations ∧
      ∃ random, (s.after n).state = .weighted table random := by
  induction n generalizing s random with
  | zero => exact ⟨rfl, random, weighted⟩
  | succ n ih =>
    have next : s.select.2.state = .weighted table (WordSource.draw random).2 := by
      unfold select
      rw [weighted]
    obtain ⟨same, later⟩ := ih next
    exact ⟨same.trans s.select_operations, later⟩

end Selector

/-- The operations that a mix of weights selects are listed in it with a positive weight, whatever
the selector is seeded with, and however many selections have gone before. A weight of zero leaves
the sum before it as it is, so that no draw falls between the two. -/
theorem selections_have_weight {ρ : Type} [WordSource ρ] {operations : List Nat}
    {weights : List Binary64} {names : List String} {m : Mix}
    (made : Mix.flat operations weights names = .ok m) (r : ρ) (n : Nat) :
    let s := (m.selector r).1.after n
    ∃ operation weight, operations[s.place]? = some operation ∧
      weights[s.place]? = some weight ∧ 0 < weight ∧ s.select.1 = operation := by
  intro s
  obtain ⟨table, choice, listed, positive⟩ := Mix.position_of_flat made
  have start : (m.selector r).1.state =
      .weighted table (ChaCha.ofSeed (WordSource.draw r).1) ∧
        (m.selector r).1.operations = operations := by
    unfold Mix.selector
    rw [choice]
    exact ⟨rfl, listed⟩
  obtain ⟨same, random, state⟩ := Selector.after_weighted start.1 n
  have place : s.place = table.position (WordSource.draw random).1 := by
    unfold Selector.place
    rw [state]
  obtain ⟨operation, weight, entry, weighs, weighty⟩ := positive (WordSource.draw random).1
  rw [place]
  refine ⟨operation, weight, entry, weighs, weighty, ?_⟩
  rw [Selector.select_eq, place, same, start.2, List.getD_eq_getElem?_getD, entry]
  rfl

/-- Two operations are switched off, and only the one between them is ever selected. -/
theorem selections_have_weight_between : ∃ m,
    Mix.flat [4, 5, 6] [0, 3, 0] ["Browse", "Buy", "Leave"] = .ok m ∧
      ((m.selector (Loop.ofList [7])).1.after 9).select.1 = 5 := by
  have made : (Mix.flat [4, 5, 6] [0, 3, 0] ["Browse", "Buy", "Leave"]).toOption.isSome = true := by
    decide +kernel
  obtain ⟨m, result⟩ := Option.isSome_iff_exists.mp made
  have made := exists_of_toOption result
  obtain ⟨operation, weight, entry, weighs, positive, selected⟩ :=
    selections_have_weight made (Loop.ofList [7]) 9
  refine ⟨m, made, ?_⟩
  rw [selected]
  have off : ¬ (0 : Binary64) < 0 := by decide
  generalize ((m.selector (Loop.ofList [7])).1.after 9).place = place at entry weighs
  rcases place with _ | _ | _ | place
  · obtain rfl : 0 = weight := Option.some.inj weighs
    exact absurd positive off
  · exact (Option.some.inj entry).symm
  · obtain rfl : 0 = weight := Option.some.inj weighs
    exact absurd positive off
  · exact absurd entry nofun

end LoadGen
