import LoadGen.Proofs.Stamps
import LoadGen.Sample
import Mathlib.Algebra.Order.BigOperators.Group.List
import Mathlib.Algebra.Ring.Int.Defs

namespace LoadGen

namespace Stamp

/-- The number takes 64 bits. -/
def Fits (n : Int) : Prop := least ≤ n ∧ n ≤ greatest

instance : DecidablePred Fits := fun _ => inferInstanceAs (Decidable (_ ∧ _))

/-- The sum of the lengths that are not negative, held within 64 bits. -/
def total (lengths : List Stamp) : Stamp :=
  min (lengths.map fun length => max length 0).sum greatest

variable {n : Int} {length : Stamp} {lengths earlier : List Stamp}

theorem fits_clamp (n : Int) : Fits (clamp n) :=
  ⟨le_max_left _ _, max_le (by decide) (min_le_right _ _)⟩

theorem total_nonneg (lengths : List Stamp) : 0 ≤ total lengths := by
  refine le_min (List.sum_nonneg fun n mem => ?_) (by decide)
  obtain ⟨length, -, rfl⟩ := List.mem_map.mp mem
  exact le_max_right _ _

theorem fits_total (lengths : List Stamp) : Fits (total lengths) :=
  ⟨le_trans (by decide) (total_nonneg lengths), min_le_right _ _⟩

theorem total_cons (length : Stamp) (lengths : List Stamp) :
    total (length :: lengths) = plus (total lengths) (max length 0) := by
  have nonneg := total_nonneg lengths
  unfold total at nonneg ⊢
  rw [List.map_cons, List.sum_cons]
  generalize (lengths.map fun length => max length 0).sum = sum at nonneg ⊢
  have positive : (0 : Int) ≤ min sum 9223372036854775807 := nonneg
  show (min (max length 0 + sum) 9223372036854775807 : Int) = max (-9223372036854775808)
    (min (min sum 9223372036854775807 + max length 0) 9223372036854775807)
  omega

theorem total_perm (same : lengths.Perm earlier) : total lengths = total earlier := by
  unfold total
  rw [(same.map _).sum_eq]

theorem total_concat : total (earlier ++ [length]) = plus (total earlier) (max length 0) := by
  rw [total_perm (List.perm_append_singleton length earlier), total_cons]

end Stamp

namespace Timing

variable {r : Timing} {invoke respond t : Stamp} {earlier : List Stamp}

/-- Pauses change nothing but the pause, and leave their total there. -/
theorem foldl_addPause (paused : r.pause = Stamp.total earlier) (lengths : List Stamp) :
    lengths.foldl addPause r = { r with pause := Stamp.total (earlier ++ lengths) } := by
  induction lengths generalizing r earlier with
  | nil => rw [List.append_nil, ← paused, List.foldl_nil]
  | cons length lengths ih =>
    have added : (r.addPause length).pause = Stamp.total (earlier ++ [length]) := by
      rw [Stamp.total_concat, ← paused]
      rfl
    rw [List.foldl_cons, ih added, List.append_assoc]
    rfl

/-- Of the differences, only one that is too large is held back: what is negative is no response
time anyway. -/
theorem responseTime?_of_both (begun : r.invoke = some invoke) (ended : r.respond = some respond)
    (paused : 0 ≤ r.pause) :
    r.responseTime? = some (max 0 (min (respond - invoke) Stamp.greatest - r.pause)) := by
  simp only [responseTime?, begun, ended, Option.some.injEq]
  have positive : (0 : Int) ≤ r.pause := paused
  show (max (max (-9223372036854775808) (min (max (-9223372036854775808)
    (min (respond - invoke) 9223372036854775807) - r.pause) 9223372036854775807)) 0 : Int) =
      max 0 (min (respond - invoke) 9223372036854775807 - r.pause)
  omega

theorem responseTime_ofTiming (operation : Nat) (phase : Phase) (begun : r.invoke = some invoke)
    (ended : r.respond = some respond) (took : r.responseTime? = some t) :
    ((Sample.ofTiming operation phase r).responseTime : Int) = t := by
  simp only [responseTime?, begun, ended, Option.some.injEq] at took
  simp only [Sample.responseTime, Sample.ofTiming, begun, ended, Option.getD_some, Int.ofNat_toNat]
  exact took

/-- Another pause makes no response time longer. -/
theorem responseTime?_addPause (begun : r.invoke = some invoke) (ended : r.respond = some respond)
    (paused : 0 ≤ r.pause) (word : r.pause ≤ Stamp.greatest) (took : r.responseTime? = some t)
    (length : Stamp) : ∃ u, (r.addPause length).responseTime? = some u ∧ u ≤ t := by
  have longer : r.pause ≤ (r.addPause length).pause := Stamp.le_plus le_rfl word (le_max_right _ _)
  have took' := responseTime?_of_both (r := r.addPause length) begun ended (le_trans paused longer)
  rw [responseTime?_of_both begun ended paused, Option.some.injEq] at took
  exact ⟨_, took', took ▸ max_le_max le_rfl (Int.sub_le_sub_left longer _)⟩

end Timing

/-- The sample of an invocation that has begun, ended and been paused has the response time of its
record: the time in between without the pauses, never negative. Every difference is held within 64
bits, and if the time in between needs no more than that, the response time is exact. Another pause
makes it no longer. -/
theorem response_times_agree (r : Timing) (invoke respond : Stamp) (operation : Nat) (phase : Phase)
    (pauses : List Stamp) (begun : r.invoke = some invoke) (ended : r.respond = some respond)
    (unpaused : r.pause = 0) :
    let paused := pauses.foldl Timing.addPause r
    let between := Stamp.minus respond invoke
    let sampled (r : Timing) : Int := (Sample.ofTiming operation phase r).responseTime
    paused.pause = Stamp.total pauses ∧ ∃ t, paused.responseTime? = some t ∧ sampled paused = t ∧
      (Stamp.Fits (respond - invoke) → t = max 0 (respond - invoke - paused.pause)) ∧
      t = max 0 (min (respond - invoke) Stamp.greatest - paused.pause) ∧
      (0 ≤ t ∧ Stamp.Fits t ∧ Stamp.Fits paused.pause ∧ Stamp.Fits between ∧
        Stamp.Fits (Stamp.minus between paused.pause)) ∧
      ∀ pause, ∃ u, (paused.addPause pause).responseTime? = some u ∧
        sampled (paused.addPause pause) = u ∧ u ≤ t := by
  intro paused between sampled
  have unpaused : r.pause = Stamp.total [] := unpaused
  have total : paused = { r with pause := Stamp.total pauses } :=
    Timing.foldl_addPause unpaused pauses
  have begun : paused.invoke = some invoke := by rw [total]; exact begun
  have ended : paused.respond = some respond := by rw [total]; exact ended
  have pause : paused.pause = Stamp.total pauses := by rw [total]
  have fits : Stamp.Fits paused.pause := pause ▸ Stamp.fits_total pauses
  have nonneg : 0 ≤ paused.pause := pause ▸ Stamp.total_nonneg pauses
  have took := Timing.responseTime?_of_both begun ended nonneg
  refine ⟨pause, _, took, Timing.responseTime_ofTiming operation phase begun ended took, ?_, rfl,
    ⟨le_max_left _ _, ?_, fits, Stamp.fits_clamp _, Stamp.fits_clamp _⟩, fun length => ?_⟩
  · rintro ⟨-, le⟩
    rw [min_eq_left le]
  · refine ⟨le_trans (by decide) (le_max_left _ _), max_le (by decide) ?_⟩
    exact le_trans (Int.sub_le_self _ nonneg) (min_le_right _ _)
  · obtain ⟨u, took', le⟩ := Timing.responseTime?_addPause begun ended nonneg fits.2 took length
    exact ⟨u, took', Timing.responseTime_ofTiming operation phase begun ended took', le⟩

/-- Between the earliest and the latest reading the difference is held back before the pause is
taken off. -/
theorem response_times_agree_held :
    let r := ((Timing.intendedAt 0).withInvoke Stamp.least).withRespond Stamp.greatest
    let paused := [7, -5].foldl Timing.addPause r
    r.pause = 0 ∧ ¬ Stamp.Fits (Stamp.greatest - Stamp.least) ∧
      paused.responseTime? = some (Stamp.greatest - 7) ∧
      ((Sample.ofTiming 0 .steadyState paused).responseTime : Int) = Stamp.greatest - 7 := by
  intro r paused
  obtain ⟨-, t, took, sampled, -, held, -⟩ :=
    response_times_agree r Stamp.least Stamp.greatest 0 .steadyState [7, -5] rfl rfl rfl
  have seven : t = Stamp.greatest - 7 := held.trans (by decide)
  exact ⟨rfl, by decide, seven ▸ took, seven ▸ sampled⟩

end LoadGen
