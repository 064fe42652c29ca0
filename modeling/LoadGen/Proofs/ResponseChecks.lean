import LoadGen.Proofs.HistogramCounts
import LoadGen.Proofs.MetricsRecords
import LoadGen.Proofs.NumberOrder

namespace LoadGen

open Binary64

section Limits

variable {x y : Binary64}

theorem Binary64.le_larger (number : x.isNaN = false) :
    x ≤ x.larger y ∧ (y.isNaN = false → y ≤ x.larger y) := by
  unfold larger
  rw [number, if_neg Bool.false_ne_true]
  split
  next less => exact ⟨⟨less.1, less.2.1, Int.le_of_lt less.2.2⟩,
    fun number' => ⟨number', number', Int.le_refl _⟩⟩
  next not_less => exact ⟨⟨number, number, Int.le_refl _⟩,
    fun number' => ⟨number', number, Int.not_lt.mp fun less => not_less ⟨number, number', less⟩⟩⟩

theorem Binary64.le_foldl_larger (xs : List Binary64) (number : x.isNaN = false) :
    x ≤ xs.foldl larger x ∧ ∀ y ∈ xs, y.isNaN = false → y ≤ xs.foldl larger x := by
  induction xs generalizing x with
  | nil => exact ⟨⟨number, number, Int.le_refl _⟩, by simp⟩
  | cons first rest ih =>
    obtain ⟨grown, reaches⟩ := le_larger (y := first) number
    obtain ⟨start, others⟩ := ih grown.2.1
    refine ⟨Binary64.le_trans grown start, fun y mem number' => ?_⟩
    rcases List.mem_cons.mp mem with rfl | later
    · exact Binary64.le_trans (reaches number') start
    · exact others y later number'

theorem WorkloadDraft.le_largest {xs : List Binary64} (mem : x ∈ xs) (positive : 0 < x) :
    x ≤ largest xs :=
  (le_foldl_larger xs (by decide +kernel)).2 x mem positive.2.1

end Limits

/-- A percentile of the response times of an operation that has a limit, and how it is shown: one of
the workload with the limit at its place, or the 90th one if the workload has none. -/
def Operation.Limits (operation : Operation) (percentiles : List Percentile)
    (p limit : Binary64) (label : String) : Prop :=
  (percentiles = [] ∧ p = 90 ∧ limit = operation.max90th ∧ label = "90th") ∨
    ∃ (j : Nat) (percentile : Percentile), percentiles[j]? = some percentile ∧
      operation.limits[j]? = some limit ∧ p = percentile.value ∧ label = percentile.display

theorem WorkloadDraft.le_of_checkLimits {percentiles : List Percentile}
    {operations : List Operation} {most p limit : Binary64} {label : String}
    {operation : Operation} (checked : checkLimits percentiles operations = .ok most)
    (mem : operation ∈ operations) (limits : operation.Limits percentiles p limit label)
    (positive : 0 < limit) : limit ≤ most := by
  unfold checkLimits at checked
  rcases limits with ⟨rfl, -, rfl, -⟩ | ⟨j, percentile, labelled, limited, -⟩
  · rw [List.isEmpty_nil, if_pos rfl] at checked
    dsimp only at checked
    split at checked
    next => cases checked
    next =>
      cases checked
      exact le_largest (List.mem_map_of_mem mem) positive
  · have there : ¬ percentiles.isEmpty := by
      rw [List.isEmpty_iff]
      rintro rfl
      cases labelled
    rw [if_neg there] at checked
    dsimp only at checked
    split at checked
    next => cases checked
    next =>
      cases checked
      exact le_largest
        (List.mem_flatMap.mpr ⟨operation, mem, List.mem_of_getElem? limited⟩) positive

theorem Percentile.value_of_read {label : List Char} {percentile : Percentile}
    (parsed : read label = .ok percentile) : 0 < percentile.value ∧ percentile.value < 100 := by
  unfold read at parsed
  dsimp only at parsed
  split at parsed
  next => cases parsed
  next =>
    split at parsed
    next => cases parsed
    next =>
      split at parsed
      next inside =>
        cases parsed
        exact inside
      next => cases parsed

theorem WorkloadDraft.Builds.percentage {σ : Type} {d : WorkloadDraft σ} {w : Workload σ}
    {foreground background : List Operation} (builds : d.Builds w foreground background)
    {operation : Operation} {p limit : Binary64} {label : String}
    (limits : operation.Limits w.percentiles p limit label) : 0 < p ∧ p < 100 := by
  rcases limits with ⟨-, rfl, -⟩ | ⟨j, percentile, labelled, -, rfl, -⟩
  · decide +kernel
  · obtain ⟨label, -, parsed⟩ := exists_of_mem_forall₂ (forall₂_of_mapM builds.percentiles)
      (List.mem_of_getElem? labelled)
    exact Percentile.value_of_read parsed

section Saturation

variable {m high : Nat} {u : TimeUnit} {limit : Binary64}

/-- A number whose whole part is below the greatest word lies below the next whole number. -/
theorem Binary64.units_lt_of_toWord (number : m ≤ infinityMagnitude)
    (covers : min (toWord ⟨false, m⟩) Word.greatest ≤ high) (most : high < Word.greatest) :
    m < infinityMagnitude ∧ units m < (high + 1) * unitsOfOne := by
  rw [toWord_mk number] at covers
  split at covers
  next => omega
  next finite =>
    refine ⟨Nat.lt_of_le_of_ne number finite, ?_⟩
    rw [← Nat.div_lt_iff_lt_mul unitsOfOne_pos]
    omega

/-- The span of a number of units is that number times the unit, rounded and cut off. -/
theorem TimeUnit.units_lt_of_toSpan (positive : 0 < m) (number : m ≤ infinityMagnitude)
    (covers : (u.toSpan ⟨false, m⟩).wordNanos ≤ high) (most : high < Word.greatest) :
    m < infinityMagnitude ∧ nearestMagnitude (units m * u.nanos) 1 < infinityMagnitude ∧
      units (nearestMagnitude (units m * u.nanos) 1) < (high + 1) * unitsOfOne := by
  obtain ⟨unrounded, finite⟩ := u.units_nanos
  have same : larger ⟨false, m⟩ 0 = ⟨false, m⟩ := by
    have not_less : ¬ (⟨false, m⟩ : Binary64) < 0 := by
      rw [zero_eq, mk_lt_mk]
      omega
    unfold larger
    rw [isNaN_mk.mpr number, if_neg Bool.false_ne_true, if_neg not_less]
  unfold toSpan Span.wordNanos at covers
  rw [same] at covers
  change min (toWord (⟨false, m⟩ * ⟨false, (Binary64.ofNat u.nanos).magnitude⟩)) _ ≤ _ at covers
  rcases Nat.lt_or_eq_of_le number with inside | rfl
  · rw [mk_mul_mk inside finite, unrounded, ← Nat.mul_assoc,
      nearestMagnitude_scale_one unitsOfOne_pos] at covers
    exact ⟨inside, units_lt_of_toWord (nearestMagnitude_le_infinity _ _) covers most⟩
  · rw [infinity_mul_mk u.nanos_magnitude_pos (Nat.le_of_lt finite)] at covers
    exact absurd (units_lt_of_toWord le_rfl covers most).1 (Nat.lt_irrefl _)

/-- Ten times a finite number, in nanoseconds, comes close to the span that it is rounded to. -/
theorem TimeUnit.units_lt_of_headroom (positive : 0 < m) (finite : m < infinityMagnitude)
    (covers : (u.toSpan (⟨false, m⟩ * Metrics.headroom)).wordNanos ≤ high)
    (most : high < Word.greatest) :
    40 * (units m * u.nanos) < 9 * ((high + 1) * unitsOfOne) := by
  have one := units_pos positive
  have ten := units_ofNat (show 10 ≤ 2 * binade by decide)
  unfold Metrics.headroom at covers
  rw [literal_eq 10, mk_mul_mk finite ten.2, ten.1, ← Nat.mul_assoc,
    nearestMagnitude_scale_one unitsOfOne_pos] at covers
  generalize tenfold : nearestMagnitude (units m * 10) 1 = m₁ at covers
  have someTenfold : 0 < m₁ := by
    rw [← tenfold]
    exact le_nearestMagnitude Nat.one_pos (by decide) (by rw [units_of_lt (by decide)]; omega)
  obtain ⟨finite₁, finite₂, below⟩ :=
    units_lt_of_toSpan someTenfold (tenfold ▸ nearestMagnitude_le_infinity _ _) covers most
  have first := le_of_nearestMagnitude Nat.one_pos (show 1 ≤ units m * 10 by omega)
    (tenfold ▸ finite₁)
  have second := le_of_nearestMagnitude Nat.one_pos
    (Nat.mul_pos (units_pos someTenfold) u.nanos_pos) finite₂
  rw [tenfold] at first
  have scaled := Nat.mul_le_mul_right u.nanos first
  have left : 2 * (units m * 10) * u.nanos = 20 * (units m * u.nanos) := by ring
  have right : 3 * (units m₁ * 1) * u.nanos = 3 * (units m₁ * u.nanos) := by ring
  omega

/-- The histograms tell times apart beyond a limit, since they go up to ten times of it. -/
theorem Metrics.lt_ofNanos (positive : 0 < limit) (least : 1000 ≤ high)
    (covers : (u.toSpan (limit * headroom)).wordNanos ≤ high) (most : high < Word.greatest) :
    limit < u.ofNanos high := by
  obtain ⟨m, rfl, nonzero, number⟩ := exists_of_pos positive
  rcases Nat.lt_or_eq_of_le number with finite | infinite
  · have below := TimeUnit.units_lt_of_headroom nonzero finite covers most
    have inside := ofNat_lt_infinity (Nat.le_of_lt most)
    have counted := le_of_nearestMagnitude Nat.one_pos
      (Nat.mul_pos (show 0 < high by omega) unitsOfOne_pos) inside
    change 2 * (high * unitsOfOne) ≤ 3 * (units (Binary64.ofNat high).magnitude * 1) at counted
    rw [u.ofNanos_eq, if_neg inside.ne, mk_lt_mk]
    refine ⟨le_nearestMagnitude (m := m + 1) u.nanos_pos finite ?_,
      nearestMagnitude_le_infinity _ _⟩
    have next := Nat.mul_le_mul_right u.nanos (units_succ_le nonzero)
    have thousand := Nat.mul_le_mul_right unitsOfOne least
    have double : 2 * units m * u.nanos = 2 * (units m * u.nanos) := by ring
    rw [Nat.add_mul, Nat.one_mul] at below
    omega
  · have ten := units_ofNat (show 10 ≤ 2 * binade by decide)
    unfold headroom at covers
    rw [infinite, literal_eq 10, infinity_mul_mk (by decide +kernel) (Nat.le_of_lt ten.2)] at covers
    have beyond := (TimeUnit.units_lt_of_toSpan (by decide) le_rfl covers most).1
    exact absurd beyond (Nat.lt_irrefl _)

end Saturation

/-- A response time that the histograms of a workload count as their greatest one. -/
def Workload.Saturates {σ : Type} (w : Workload σ) (t : Nat) : Prop :=
  (⟨w.histogramUnit.nanos, Metrics.responseMost w, [], 0⟩ : Histogram).held t ≠ t

section Checks

variable {σ : Type} {d : WorkloadDraft σ} {w : Workload σ} {foreground background : List Operation}
  {operation : Operation} {s : OperationStats} {m : Metrics} {check : ResponseCheck}
  {p limit : Binary64} {label : String} {t : Nat}

/-- Times that are held at the end of the range lie beyond every limit. -/
theorem WorkloadDraft.Builds.lt_of_saturates (builds : d.Builds w foreground background)
    (mem : operation ∈ w.operations) (limits : operation.Limits w.percentiles p limit label)
    (positive : 0 < limit) (word : t ≤ Word.greatest) (saturates : w.Saturates t) :
    limit < w.responseTimeUnit.ofNanos (Metrics.responseMost w) ∧
      limit < w.responseTimeUnit.ofNanos t := by
  obtain ⟨-, beyond⟩ := Histogram.lt_of_held saturates
  have within := le_of_checkLimits builds.limits mem limits positive
  have unit := (one_lt_histogramUnit builds.units).1
  rw [← builds.histogramUnit] at unit
  have most : Metrics.responseMost w < Word.greatest := lt_of_lt_of_le beyond word
  have range : limit < w.responseTimeUnit.ofNanos (Metrics.responseMost w) := by
    have largest := Metrics.lt_ofNanos (Binary64.lt_of_lt_of_le positive within)
      (le_trans (show 1000 ≤ 2 * w.histogramUnit.nanos by omega) (Nat.le_max_right _ _))
      (Nat.le_max_left _ _) most
    exact Binary64.lt_of_le_of_lt within largest
  exact ⟨range, Binary64.lt_of_lt_of_le range (TimeUnit.ofNanos_mono (Nat.le_of_lt beyond))⟩

theorem Metrics.exists_of_mem_checkResponses (limits : s.limits = operation.limits)
    (max90th : s.max90th = operation.max90th) (mem : check ∈ m.checkResponses s) :
    ∃ p limit label, operation.Limits m.percentiles p limit label ∧ 0 < limit ∧
      check = m.checkResponse s label p limit := by
  unfold checkResponses at mem
  split at mem
  next unlabelled =>
    split at mem
    next positive =>
      obtain rfl := List.mem_singleton.mp mem
      exact ⟨90, s.max90th, "90th", Or.inl ⟨List.isEmpty_iff.mp unlabelled, rfl, max90th, rfl⟩,
        positive, rfl⟩
    next => cases mem
  next =>
    obtain ⟨⟨percentile, limit⟩, zipped, checked⟩ := List.mem_filterMap.mp mem
    dsimp only at checked
    split at checked
    next positive =>
      cases checked
      obtain ⟨j, entry⟩ := List.mem_iff_getElem?.mp zipped
      obtain ⟨labelled, limited⟩ := List.getElem?_zip_eq_some.mp entry
      exact ⟨_, limit, _, Or.inr ⟨j, percentile, labelled, limits ▸ limited, rfl, rfl⟩,
        positive, rfl⟩
    next => cases checked

/-- What is checked has transactions of the steady state. -/
theorem Metrics.OfWorkload.exists_of_mem_checked (fresh : m.OfWorkload w) (events : List Event)
    (mem : s ∈ (m.recordAll events).checked) :
    ∃ (i : Nat) (operation : Operation) (before : OperationStats),
      w.operations[i]? = some operation ∧
        before.Fresh w.histogramUnit.nanos (responseMost w) operation ∧
          before.Tracks s (steadyTimes i events) ∧ steadyTimes i events ≠ [] := by
  obtain ⟨there, steady⟩ := List.mem_filter.mp mem
  obtain ⟨i, entry⟩ := List.mem_iff_getElem?.mp there
  obtain ⟨operation, before, declared, start, tracks⟩ := fresh.exists_stats events entry
  refine ⟨i, operation, before, declared, start, tracks, fun untimed => ?_⟩
  have count := tracks.steady
  rw [untimed, start.transactions] at count
  simp [count, PhaseCounts.zero] at steady

/-- The rank of a percentile below a hundred is that of its part of the values. -/
theorem Histogram.rankOf_eq {h : Histogram} {q : Nat} (part : q < 1023 * binade) :
    h.rankOf ⟨false, q⟩ = max ((⟨false, q⟩ : Binary64) * Binary64.ofNat h.size).ceilWord 1 := by
  have less : ¬ (1 : Binary64) < ⟨false, q⟩ := by
    have one : (1 : Binary64) = ⟨false, 1023 * binade⟩ := by decide +kernel
    rw [one, mk_lt_mk]
    omega
  unfold rankOf
  rw [if_neg less]

/-- A measured percentile within a limit has as many of the held times within it as its rank. -/
theorem Histogram.rank_le_of_percentile_le {h : Histogram} {times : List Nat} {u : TimeUnit}
    (fresh : h.bins = []) (nonempty : times ≠ []) (percentage : 0 < p ∧ p < 100)
    (positive : 0 < p / 100) (within : u.ofNanos ((times.foldl record h).percentile p) ≤ limit) :
    max (p / 100 * Binary64.ofNat times.length).ceilWord 1 ≤
      times.countP fun t => decide (u.ofNanos (h.held t) ≤ limit) := by
  obtain ⟨q, same, part⟩ := exists_of_percentage percentage.1 percentage.2
  unfold percentile at within
  rw [same] at positive within ⊢
  rw [zero_eq, mk_lt_mk] at positive
  have length := List.length_pos_iff.mpr nonempty
  have size : (times.foldl record h).size = times.length := by
    rw [size_foldl, size, fresh]
    exact Nat.zero_add _
  have rank := rankOf_eq (h := times.foldl record h) part
  rw [size] at rank
  rw [← rank]
  have enough : (times.foldl record h).rankOf ⟨false, q⟩ ≤ times.length := by
    rw [rank]
    exact Nat.max_le.mpr ⟨ceilWord_part_le part length, length⟩
  refine le_trans (rank_le_countP fresh times (Nat.pos_iff_ne_zero.mp positive.1) enough) ?_
  refine List.countP_mono_left fun t _ below => decide_eq_true ?_
  exact Binary64.le_trans (TimeUnit.ofNanos_mono (of_decide_eq_true below)) within

end Checks

/-- A check of response times that has passed is true of them, unless its percentile is so small
that a hundredth of it is rounded to zero: as many transactions of the steady state as the rank of
the percentile says are within the limit. No check, passed or not, has a time that saturates its
histogram within the limit. -/
theorem passed_check_counts {σ : Type} {d : WorkloadDraft σ} {w : Workload σ} {thread : Nat}
    {m : Metrics} (built : d.build = .ok w) (made : Metrics.empty w thread = .ok m)
    (events : List Event) {check : ResponseCheck}
    (mem : check ∈ (m.recordAll events).compliance.response) :
    ∃ (i : Nat) (operation : Operation) (p : Binary64),
      w.operations[i]? = some operation ∧ check.operation = operation.name ∧
        operation.Limits w.percentiles p check.limit check.percentile ∧
          let times := steadyTimes i events
          times ≠ [] ∧
            (check.passed = true → 0 < p / 100 →
              max (p / 100 * Binary64.ofNat times.length).ceilWord 1 ≤
                times.countP fun t => decide (w.responseTimeUnit.ofNanos t ≤ check.limit)) ∧
            ∀ t ∈ times, w.Saturates t → ¬ w.responseTimeUnit.ofNanos t ≤ check.limit := by
  obtain ⟨foreground, background, builds⟩ := WorkloadDraft.exists_builds built
  have fresh := Metrics.ofWorkload_of_empty made
  obtain ⟨percentiles, unit, -, -, -⟩ := m.recordAll_same events
  obtain ⟨s, counted, mem⟩ := List.mem_flatMap.mp mem
  obtain ⟨i, operation, before, declared, start, tracks, nonempty⟩ :=
    fresh.exists_of_mem_checked events counted
  have inside := List.mem_of_getElem? declared
  obtain ⟨p, limit, label, limits, positive, rfl⟩ := Metrics.exists_of_mem_checkResponses
    (tracks.limits.trans start.limits) (tracks.max90th.trans start.max90th) mem
  rw [percentiles, fresh.percentiles] at limits
  have beyond : ∀ t ∈ steadyTimes i events, w.Saturates t →
      limit < w.responseTimeUnit.ofNanos (Metrics.responseMost w) ∧
        limit < w.responseTimeUnit.ofNanos t := fun t mem =>
    builds.lt_of_saturates inside limits positive (le_of_mem_steadyTimes mem)
  refine ⟨i, operation, p, declared, tracks.name.trans start.name, limits, nonempty, ?_, ?_⟩
  · intro passed part
    have within := of_decide_eq_true passed
    rw [unit, fresh.responseTimeUnit, tracks.response, start.response] at within
    refine le_trans (Histogram.rank_le_of_percentile_le rfl nonempty (builds.percentage limits) part
      within) (List.countP_mono_left fun t mem held => ?_)
    have held := of_decide_eq_true held
    refine decide_eq_true ?_
    by_cases saturates : w.Saturates t
    · rw [(Histogram.lt_of_held saturates).1] at held
      exact absurd held (Binary64.not_le_of_lt (beyond t mem saturates).1)
    · rwa [not_not.mp saturates] at held
  · intro t mem saturates
    exact Binary64.not_le_of_lt (beyond t mem saturates).2

/-- A draft with one operation that has a limit for one percentile. -/
def WorkloadDraft.limited (label : String) (limit : Binary64) : WorkloadDraft Unit :=
  let ping := { OperationDeclaration.named "Ping" with limits := [limit] }
  { WorkloadDraft.named "Tiny" fun _ => Creation.created () with
    percentiles := [label]
    defaultPacing := some (.fixed ⟨0⟩)
    foreground := [(ping, fun _ => .succeeds ())]
    mix := some (.sequence ["Ping"]) }

/-- Two of three times are within a hundredth of a second, and the third one saturates. -/
theorem passed_check_counts_median : ∃ w m check i,
    (WorkloadDraft.limited "50" (1 / 100)).build = .ok w ∧ Metrics.empty w 0 = .ok m ∧
      let events := steadyEvents [(0, 1000000), (0, 2000000), (0, 5000000000)]
      check ∈ (m.recordAll events).compliance.response ∧ check.passed = true ∧
        w.Saturates 5000000000 ∧
          max (50 / 100 * Binary64.ofNat (steadyTimes i events).length).ceilWord 1 ≤
            (steadyTimes i events).countP
              fun t => decide (w.responseTimeUnit.ofNanos t ≤ check.limit) := by
  let d := WorkloadDraft.limited "50" (1 / 100)
  let events := steadyEvents [(0, 1000000), (0, 2000000), (0, 5000000000)]
  have checked : (d.checks? events).map (fun c => c.response.map (·.passed)) = some [true] := by
    decide +kernel
  have parsed : d.build.toOption.map (·.percentiles.map (·.value)) = some [50] := by decide +kernel
  have held : (d.build.toOption.map fun w => decide
      ((⟨w.histogramUnit.nanos, Metrics.responseMost w, [], 0⟩ : Histogram).held 5000000000 =
        5000000000)) = some false := by
    decide +kernel
  obtain ⟨c, checks, passed⟩ := Option.map_eq_some_iff.mp checked
  obtain ⟨w, m, built, made, rfl⟩ := WorkloadDraft.exists_of_checks checks
  obtain ⟨check, only, passed⟩ := List.map_eq_singleton_iff.mp passed
  have mem : check ∈ (m.recordAll events).compliance.response := only ▸ List.mem_singleton_self _
  rw [built] at parsed held
  obtain ⟨i, operation, p, -, -, limits, -, counts, -⟩ :=
    passed_check_counts built made events mem
  refine ⟨w, m, check, i, built, made, mem, passed, ?_, ?_⟩
  · exact of_decide_eq_false (Option.some.inj held)
  · have percentage : p = 50 := by
      have values : w.percentiles.map (·.value) = [50] := Option.some.inj parsed
      rcases limits with ⟨unlabelled, -⟩ | ⟨j, percentile, labelled, -, rfl, -⟩
      · rw [unlabelled] at values
        cases values
      · have mem := List.mem_map_of_mem (f := (·.value)) (List.mem_of_getElem? labelled)
        rw [values] at mem
        exact List.mem_singleton.mp mem
    subst percentage
    exact counts passed (by decide +kernel)

/-- A percentile whose hundredth is rounded to zero is measured by the least time in the bin of the
fastest transaction, and so a check can pass with no transaction within the limit. -/
theorem tiny_percentile_passes : ∃ w m check,
    (WorkloadDraft.limited "1e-323" (1 / 10000)).build = .ok w ∧ Metrics.empty w 0 = .ok m ∧
      let events := steadyEvents [(0, 500000)]
      check ∈ (m.recordAll events).compliance.response ∧ check.passed = true ∧
        steadyTimes 0 events ≠ [] ∧ ∀ p : Binary64,
          ¬ max (p / 100 * Binary64.ofNat (steadyTimes 0 events).length).ceilWord 1 ≤
            (steadyTimes 0 events).countP
              fun t => decide (w.responseTimeUnit.ofNanos t ≤ check.limit) := by
  let d := WorkloadDraft.limited "1e-323" (1 / 10000)
  let events := steadyEvents [(0, 500000)]
  have checked : (d.checks? events).map (fun c => c.response.map fun check =>
      (check.limit, check.passed)) = some [(1 / 10000, true)] := by
    decide +kernel
  obtain ⟨c, checks, passed⟩ := Option.map_eq_some_iff.mp checked
  obtain ⟨w, m, built, made, rfl⟩ := WorkloadDraft.exists_of_checks checks
  obtain ⟨check, only, same⟩ := List.map_eq_singleton_iff.mp passed
  obtain ⟨limit, passed⟩ := Prod.mk.inj same
  have mem : check ∈ (m.recordAll events).compliance.response := only ▸ List.mem_singleton_self _
  refine ⟨w, m, check, built, made, mem, passed, by decide, fun p => ?_⟩
  obtain ⟨foreground, background, builds⟩ := WorkloadDraft.exists_builds built
  have noneWithin : (steadyTimes 0 events).countP
      (fun t => decide (TimeUnit.seconds.ofNanos t ≤ 1 / 10000)) = 0 := by
    decide +kernel
  have unit : w.responseTimeUnit = .seconds := builds.responseTimeUnit
  rw [unit, limit]
  change ¬ _ ≤ (steadyTimes 0 events).countP _
  rw [noneWithin]
  omega

end LoadGen
