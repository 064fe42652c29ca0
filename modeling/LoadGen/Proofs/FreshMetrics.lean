import LoadGen.Proofs.DelayBounds
import LoadGen.Proofs.MetricsRecords

namespace LoadGen

namespace Histogram

/-- The range leaves room for a doubling, and 64 bits for three decimal digits of every value. -/
structure Ranged (h : Histogram) : Prop where
  positive : 0 < h.low
  doubling : 2 * h.low ≤ h.high
  digits : h.low.log2 ≤ 52

variable {low high : Nat}

theorem empty_of_ranged (ranged : Ranged ⟨low, high, [], 0⟩) :
    empty low high = .ok ⟨low, high, [], 0⟩ := by
  unfold empty
  rw [if_neg ranged.positive.ne', if_neg (Nat.not_lt_of_le ranged.doubling),
    if_neg (Nat.not_lt_of_le ranged.digits)]

end Histogram

namespace Pacing

variable {p : Pacing}

/-- A single delay, and no span is twice as long. -/
def TooLong (p : Pacing) : Prop := ∃ time, p.shape = .fixed time ∧ Span.limit ≤ time.nanos * 2

theorem histogramMost?_eq_none_iff : p.histogramMost? = none ↔ p.TooLong := by
  unfold histogramMost? TooLong Span.times?
  cases p.shape with
  | fixed time => simp
  | uniform least most => simp
  | exponential mean most => simp

theorem not_tooLong_of_sound (sound : p.shape.Sound) : ¬ p.TooLong := by
  rintro ⟨time, fixed, long⟩
  rw [fixed] at sound
  cases sound with
  | fixed word => exact Nat.not_le_of_lt (by decide) (le_trans long (Nat.mul_le_mul_right 2 word))

end Pacing

namespace OperationStats

/-- All three histograms of an operation have a range that a histogram can have. -/
structure Ranged (s : OperationStats) : Prop where
  response : s.response.Ranged
  targetedDelay : s.targetedDelay.Ranged
  actualDelay : s.actualDelay.Ranged

variable {resolution most low high : Nat} {operation : Operation}

theorem emptyHistogram_of_ranged (ranged : Histogram.Ranged ⟨low, high, [], 0⟩) :
    emptyHistogram low high = .ok ⟨low, high, [], 0⟩ := by
  unfold emptyHistogram
  rw [Histogram.empty_of_ranged ranged]

theorem empty_of_tooLong (long : operation.pacing.TooLong) :
    empty resolution most operation = .error .overflow := by
  unfold empty delayRange
  rw [Pacing.histogramMost?_eq_none_iff.mpr long]
  rfl

/-- The delays are told apart from one nanosecond up to two at least. -/
theorem exists_empty (ranged : Histogram.Ranged ⟨resolution, most, [], 0⟩)
    (fits : ¬ operation.pacing.TooLong) :
    ∃ s, empty resolution most operation = .ok s ∧ s.Ranged := by
  obtain ⟨longest, same⟩ := Option.ne_none_iff_exists'.mp
    (mt Pacing.histogramMost?_eq_none_iff.mp fits)
  have digits : Nat.log2 1 ≤ 52 := by decide
  have delays : Histogram.Ranged ⟨1, max longest.wordNanos 2, [], 0⟩ :=
    ⟨Nat.one_pos, le_max_right _ _, digits⟩
  unfold empty delayRange
  simp only [same, emptyHistogram_of_ranged ranged, emptyHistogram_of_ranged delays, bind,
    Except.bind, pure, Except.pure]
  exact ⟨_, rfl, ranged, delays, delays⟩

end OperationStats

namespace Metrics

variable {σ : Type} {w : Workload σ} {thread : Nat}

/-- Response times are told apart from one unit up to two at least. -/
theorem ranged_response (w : Workload σ) :
    Histogram.Ranged ⟨w.histogramUnit.nanos, responseMost w, [], 0⟩ where
  positive := w.histogramUnit.nanos_pos
  doubling := le_max_right _ _
  digits := by
    change w.histogramUnit.nanos.log2 ≤ 52
    cases w.histogramUnit <;> decide

theorem ranged_of_empty {m : Metrics} (made : empty w thread = .ok m) :
    (∀ operation ∈ w.operations, ¬ operation.pacing.TooLong) ∧ ∀ s ∈ m.operations, s.Ranged := by
  obtain ⟨operations, mapped, made⟩ := exists_of_bind_ok made
  cases made
  have each := forall₂_of_mapM mapped
  have fits : ∀ operation s, OperationStats.empty w.histogramUnit.nanos (responseMost w) operation =
      .ok s → ¬ operation.pacing.TooLong := by
    intro operation s created long
    rw [OperationStats.empty_of_tooLong long] at created
    cases created
  refine ⟨fun operation mem => ?_, fun s mem => ?_⟩
  · obtain ⟨s, -, created⟩ := exists_of_mem_forall₂ each.flip mem
    exact fits operation s created
  · obtain ⟨operation, -, created⟩ := exists_of_mem_forall₂ each mem
    obtain ⟨s', created', ranged⟩ :=
      OperationStats.exists_empty (ranged_response w) (fits operation s created)
    cases created.symm.trans created'
    exact ranged

theorem exists_of_empty_error {fault : Fault Histogram.RangeError}
    (failed : empty w thread = .error fault) :
    fault = .overflow ∧ ∃ operation ∈ w.operations, operation.pacing.TooLong := by
  rcases cases_of_bind_error failed with mapped | ⟨operations, -, failed⟩
  · obtain ⟨operation, mem, failed⟩ := exists_of_mapM_error mapped
    have long : operation.pacing.TooLong := by
      by_contra fits
      obtain ⟨s, created, -⟩ := OperationStats.exists_empty (ranged_response w) fits
      cases created.symm.trans failed
    rw [OperationStats.empty_of_tooLong long] at failed
    exact ⟨(Except.error.inj failed).symm, operation, mem, long⟩
  · cases failed

end Metrics

/-- Metrics can be created for a workload just when none of its delays is too long to be taken
twice, and that is the only thing that goes wrong. All their histograms have a range then. Delays
that come from a declaration are short enough. -/
theorem metrics_exist_iff {σ : Type} (w : Workload σ) (thread : Nat) :
    ((∃ m, Metrics.empty w thread = .ok m) ↔
        ∀ operation ∈ w.operations, ¬ operation.pacing.TooLong) ∧
      (∀ m, Metrics.empty w thread = .ok m → ∀ s ∈ m.operations, s.Ranged) ∧
      (∀ fault, Metrics.empty w thread = .error fault → fault = .overflow) ∧
      ∀ declaration basis deviation p,
        Pacing.declared declaration basis deviation = .ok p → ¬ p.TooLong := by
  refine ⟨⟨?_, fun fits => ?_⟩, fun m made => (Metrics.ranged_of_empty made).2,
    fun fault failed => (Metrics.exists_of_empty_error failed).1,
    fun _ _ _ p made => Pacing.not_tooLong_of_sound (Pacing.sound_of_declared made)⟩
  · rintro ⟨m, made⟩
    exact (Metrics.ranged_of_empty made).1
  · cases made : Metrics.empty w thread with
    | ok m => exact ⟨m, rfl⟩
    | error fault =>
      obtain ⟨-, operation, mem, long⟩ := Metrics.exists_of_empty_error made
      exact absurd long (fits operation mem)

/-- A workload with one operation and the same time after each of its invocations. -/
def WorkloadDraft.paced (time : Span) : WorkloadDraft Unit :=
  { WorkloadDraft.named "Slow" fun _ => Creation.created () with
    percentiles := ["90th"]
    defaultPacing := some (.fixed time)
    foreground := [({ OperationDeclaration.named "Ping" with limits := [1] },
      fun _ => .succeeds ())]
    mix := some (.sequence ["Ping"]) }

/-- The longest time that can be taken twice is not too long. -/
theorem metrics_exist_iff_longest : ∃ w m,
    (WorkloadDraft.paced ⟨Span.limit / 2 - 1⟩).build = .ok w ∧ Metrics.empty w 0 = .ok m := by
  have paced : (WorkloadDraft.paced ⟨Span.limit / 2 - 1⟩).build.toOption.map
      (fun w => w.operations.map (·.pacing)) = some [.fixed ⟨Span.limit / 2 - 1⟩] := by
    decide +kernel
  obtain ⟨w, built, pacings⟩ := Option.map_eq_some_iff.mp paced
  have fits : ∀ operation ∈ w.operations, ¬ operation.pacing.TooLong := by
    rintro operation mem ⟨time, fixed, long⟩
    have only : operation.pacing = .fixed ⟨Span.limit / 2 - 1⟩ :=
      List.mem_singleton.mp (pacings ▸ List.mem_map_of_mem mem)
    rw [only] at fixed
    cases PacingShape.fixed.inj fixed
    exact absurd long (by decide)
  obtain ⟨m, made⟩ := (metrics_exist_iff w 0).1.mpr fits
  exact ⟨w, m, exists_of_toOption built, made⟩

/-- One nanosecond more, and there is a workload whose metrics cannot be created. -/
theorem metrics_overflow : ∃ w, (WorkloadDraft.paced ⟨Span.limit / 2⟩).build = .ok w ∧
    Metrics.empty w 0 = .error .overflow := by
  have overflows : (WorkloadDraft.paced ⟨Span.limit / 2⟩).build.toOption.map
      (fun w => Metrics.empty w 0) = some (.error .overflow) := by
    decide +kernel
  obtain ⟨w, built, failed⟩ := Option.map_eq_some_iff.mp overflows
  exact ⟨w, exists_of_toOption built, failed⟩

end LoadGen
