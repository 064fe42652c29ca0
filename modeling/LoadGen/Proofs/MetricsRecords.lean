import LoadGen.Compliance
import LoadGen.Proofs.BuiltWorkload
import Mathlib.Data.Int.Order.Basic

namespace LoadGen

/-- The response time that an event adds to an operation: that of a transaction of its steady
state. -/
def Event.steadyTime? (i : Nat) : Event → Option Nat
  | transaction sample =>
    if sample.operation = i ∧ sample.phase = .steadyState then some sample.responseTime else none
  | _ => none

/-- The response times of an operation's transactions in the steady state. -/
def steadyTimes (i : Nat) (events : List Event) : List Nat := events.filterMap (Event.steadyTime? i)

theorem steadyTimes_cons (i : Nat) (e : Event) (events : List Event) :
    steadyTimes i (e :: events) = (e.steadyTime? i).toList ++ steadyTimes i events := by
  unfold steadyTimes
  rw [List.filterMap_cons]
  cases e.steadyTime? i <;> rfl

/-- Response times are differences of clock readings. -/
theorem le_of_mem_steadyTimes {i t : Nat} {events : List Event} (mem : t ∈ steadyTimes i events) :
    t ≤ Word.greatest := by
  obtain ⟨e, -, timed⟩ := List.mem_filterMap.mp mem
  cases e with
  | transaction sample =>
    simp only [Event.steadyTime?, Option.ite_none_right_eq_some, Option.some.injEq] at timed
    obtain ⟨-, rfl⟩ := timed
    have bound : Stamp.minus (Stamp.minus sample.respond sample.invoke) sample.pause ≤
        Stamp.greatest := max_le (by decide) (min_le_right _ _)
    exact Int.toNat_le.mpr (le_trans bound (by decide))
  | _ => cases timed

namespace OperationStats

/-- Statistics after some transactions of the steady state with the given response times, and
whatever else there was. -/
structure Tracks (before after : OperationStats) (times : List Nat) : Prop where
  name : after.name = before.name
  countToMetric : after.countToMetric = before.countToMetric
  limits : after.limits = before.limits
  max90th : after.max90th = before.max90th
  steady : after.transactions.steadyState = before.transactions.steadyState + times.length
  response : after.response = times.foldl Histogram.record before.response

variable {first second third : OperationStats} {times more : List Nat}

theorem Tracks.refl (s : OperationStats) : s.Tracks s [] := ⟨rfl, rfl, rfl, rfl, rfl, rfl⟩

theorem Tracks.trans (tracks : first.Tracks second times) (next : second.Tracks third more) :
    first.Tracks third (times ++ more) where
  name := next.name.trans tracks.name
  countToMetric := next.countToMetric.trans tracks.countToMetric
  limits := next.limits.trans tracks.limits
  max90th := next.max90th.trans tracks.max90th
  steady := by
    rw [next.steady, tracks.steady, List.length_append, Nat.add_assoc]
  response := by
    rw [next.response, tracks.response, List.foldl_append]

theorem tracks_transaction (s : OperationStats) (sample : Sample) :
    s.Tracks (s.recordTransaction sample)
      (if sample.phase = .steadyState then [sample.responseTime] else []) := by
  unfold recordTransaction
  cases sample.phase <;> exact ⟨rfl, rfl, rfl, rfl, rfl, rfl⟩

theorem tracks_error (s : OperationStats) (sample : Sample) : s.Tracks (s.recordError sample) [] :=
  ⟨rfl, rfl, rfl, rfl, rfl, rfl⟩

theorem tracks_delay (s : OperationStats) (sample : DelaySample) :
    s.Tracks (s.recordDelay sample) [] := by
  unfold recordDelay
  split <;> exact ⟨rfl, rfl, rfl, rfl, rfl, rfl⟩

end OperationStats

namespace Metrics

variable {m : Metrics} {i : Nat} {s : OperationStats}

theorem exists_of_modify {operations : List OperationStats} {place : Nat}
    {f : OperationStats → OperationStats} (there : (operations.modify place f)[i]? = some s) :
    ∃ before, operations[i]? = some before ∧ s = if place = i then f before else before := by
  rw [List.getElem?_modify] at there
  obtain ⟨before, entry, same⟩ := Option.map_eq_some_iff.mp there
  exact ⟨before, entry, same.symm⟩

/-- One event adds its response time to the operation that it is of. -/
theorem tracks_record (e : Event) (there : (m.record e).operations[i]? = some s) :
    ∃ before, m.operations[i]? = some before ∧ before.Tracks s (e.steadyTime? i).toList := by
  cases e with
  | transaction sample =>
    obtain ⟨before, entry, rfl⟩ := exists_of_modify there
    refine ⟨before, entry, ?_⟩
    have tracks := before.tracks_transaction sample
    by_cases own : sample.operation = i
    · rw [if_pos own]
      by_cases steady : sample.phase = .steadyState
      · rw [if_pos steady] at tracks
        simpa [Event.steadyTime?, own, steady] using tracks
      · rw [if_neg steady] at tracks
        simpa [Event.steadyTime?, steady] using tracks
    · rw [if_neg own]
      simpa [Event.steadyTime?, own] using OperationStats.Tracks.refl before
  | error sample =>
    obtain ⟨before, entry, rfl⟩ := exists_of_modify there
    refine ⟨before, entry, ?_⟩
    split
    · exact before.tracks_error sample
    · exact OperationStats.Tracks.refl before
  | delay sample =>
    obtain ⟨before, entry, rfl⟩ := exists_of_modify there
    refine ⟨before, entry, ?_⟩
    split
    · exact before.tracks_delay sample
    · exact OperationStats.Tracks.refl before
  | _ => exact ⟨s, there, OperationStats.Tracks.refl s⟩

theorem tracks_recordAll (m : Metrics) (events : List Event)
    (there : (m.recordAll events).operations[i]? = some s) :
    ∃ before, m.operations[i]? = some before ∧ before.Tracks s (steadyTimes i events) := by
  induction events generalizing m with
  | nil => exact ⟨s, there, OperationStats.Tracks.refl s⟩
  | cons e events ih =>
    obtain ⟨between, entry, rest⟩ := ih (m.record e) there
    obtain ⟨before, entry, first⟩ := tracks_record e entry
    rw [steadyTimes_cons]
    exact ⟨before, entry, first.trans rest⟩

/-- Events change nothing but the statistics of the operations, and add none. -/
theorem recordAll_same (m : Metrics) (events : List Event) :
    (m.recordAll events).percentiles = m.percentiles ∧
      (m.recordAll events).responseTimeUnit = m.responseTimeUnit ∧
        (m.recordAll events).expectedMix = m.expectedMix ∧
          (m.recordAll events).mixDeviation = m.mixDeviation ∧
            (m.recordAll events).operations.length = m.operations.length := by
  induction events generalizing m with
  | nil => exact ⟨rfl, rfl, rfl, rfl, rfl⟩
  | cons e events ih =>
    have step : (m.record e).percentiles = m.percentiles ∧
        (m.record e).responseTimeUnit = m.responseTimeUnit ∧
          (m.record e).expectedMix = m.expectedMix ∧ (m.record e).mixDeviation = m.mixDeviation ∧
            (m.record e).operations.length = m.operations.length := by
      cases e with
      | transaction sample | error sample | delay sample =>
        exact ⟨rfl, rfl, rfl, rfl, List.length_modify ..⟩
      | _ => exact ⟨rfl, rfl, rfl, rfl, rfl⟩
    obtain ⟨percentiles, unit, mix, deviation, length⟩ := ih (m.record e)
    exact ⟨percentiles.trans step.1, unit.trans step.2.1, mix.trans step.2.2.1,
      deviation.trans step.2.2.2.1, length.trans step.2.2.2.2⟩

end Metrics

/-- The statistics of an operation before any sample. -/
structure OperationStats.Fresh (resolution most : Nat) (operation : Operation)
    (s : OperationStats) : Prop where
  name : s.name = operation.name
  countToMetric : s.countToMetric = operation.countToMetric
  limits : s.limits = operation.limits
  max90th : s.max90th = operation.max90th
  transactions : s.transactions = PhaseCounts.zero
  response : s.response = ⟨resolution, most, [], 0⟩

theorem Histogram.of_empty {low high : Nat} {h : Histogram} (made : empty low high = .ok h) :
    h = ⟨low, high, [], 0⟩ := by
  unfold empty at made
  split at made
  next => cases made
  next =>
    split at made
    next => cases made
    next =>
      split at made
      next => cases made
      next =>
        cases made
        rfl

theorem OperationStats.of_emptyHistogram {low high : Nat} {h : Histogram}
    (made : emptyHistogram low high = .ok h) : h = ⟨low, high, [], 0⟩ := by
  unfold emptyHistogram at made
  split at made
  next h made =>
    cases made
    exact Histogram.of_empty ‹_›
  next => cases made

theorem OperationStats.fresh_of_empty {resolution most : Nat} {operation : Operation}
    {s : OperationStats} (made : empty resolution most operation = .ok s) :
    Fresh resolution most operation s := by
  unfold empty at made
  obtain ⟨longest, -, made⟩ := exists_of_bind_ok made
  obtain ⟨response, ranged, made⟩ := exists_of_bind_ok made
  obtain ⟨delay, -, made⟩ := exists_of_bind_ok made
  cases made
  exact ⟨rfl, rfl, rfl, rfl, rfl, of_emptyHistogram ranged⟩

namespace Metrics

variable {σ : Type} {w : Workload σ} {thread : Nat} {m : Metrics}

/-- The metrics of a workload before any sample. -/
structure OfWorkload (w : Workload σ) (m : Metrics) : Prop where
  percentiles : m.percentiles = w.percentiles
  responseTimeUnit : m.responseTimeUnit = w.responseTimeUnit
  expectedMix : m.expectedMix = w.mix.expectedShares
  mixDeviation : m.mixDeviation = w.mix.deviation
  operations : List.Forall₂ (OperationStats.Fresh w.histogramUnit.nanos (responseMost w))
    w.operations m.operations

theorem ofWorkload_of_empty (made : empty w thread = .ok m) : m.OfWorkload w := by
  unfold empty at made
  obtain ⟨operations, mapped, made⟩ := exists_of_bind_ok made
  cases made
  refine ⟨rfl, rfl, rfl, rfl, ?_⟩
  exact (forall₂_of_mapM mapped).imp fun _ _ made => OperationStats.fresh_of_empty made

/-- The statistics of an operation after some events are those of its transactions. -/
theorem OfWorkload.exists_stats (fresh : m.OfWorkload w) (events : List Event) {i : Nat}
    {s : OperationStats} (there : (m.recordAll events).operations[i]? = some s) :
    ∃ (operation : Operation) (before : OperationStats), w.operations[i]? = some operation ∧
      before.Fresh w.histogramUnit.nanos (responseMost w) operation ∧
        before.Tracks s (steadyTimes i events) := by
  obtain ⟨before, entry, tracks⟩ := m.tracks_recordAll events there
  obtain ⟨operation, declared, fresh⟩ := exists_getElem?_of_forall₂ fresh.operations.flip entry
  exact ⟨operation, before, declared, fresh, tracks⟩

end Metrics

/-- The checks of a thread after some events, if the draft can be built. -/
def WorkloadDraft.checks? {σ : Type} (d : WorkloadDraft σ) (events : List Event) :
    Option Compliance :=
  d.build.toOption.bind fun w =>
    (Metrics.empty w 0).toOption.map fun m => (m.recordAll events).compliance

theorem WorkloadDraft.exists_of_checks {σ : Type} {d : WorkloadDraft σ} {events : List Event}
    {c : Compliance} (checks : d.checks? events = some c) : ∃ w m,
      d.build = .ok w ∧ Metrics.empty w 0 = .ok m ∧ (m.recordAll events).compliance = c := by
  obtain ⟨w, built, checks⟩ := Option.bind_eq_some_iff.mp checks
  obtain ⟨m, made, checks⟩ := Option.map_eq_some_iff.mp checks
  exact ⟨w, m, exists_of_toOption built, exists_of_toOption made, checks⟩

/-- Transactions of the steady state, each with the place of its operation and its response time. -/
def steadyEvents (transactions : List (Nat × Nat)) : List Event :=
  transactions.map fun (i, t) => .transaction ⟨i, .steadyState, 0, 0, t, 0⟩

end LoadGen
