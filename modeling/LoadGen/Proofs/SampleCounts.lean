import LoadGen.Proofs.History
import Mathlib.Data.List.TakeWhile

namespace LoadGen

/-- The sample that the event reports to the metrics, if it reports one. -/
def Event.sample? : Event → Option Sample
  | transaction s | error s => some s
  | _ => none

def Exchange.sample? (x : Exchange) : Option Sample := x.event?.bind Event.sample?

/-- A sample with the start time as its thread knew it by then. -/
structure Report where
  start : Option Stamp
  sample : Sample

/-- The start time was known, and the invocation did not begin before it. -/
def Report.inTime (r : Report) : Bool := r.start.any fun start => decide (start ≤ r.sample.invoke)

namespace History

/-- The start time as the thread has last polled it. -/
def polledStart : History → Option Stamp
  | [] => none
  | ⟨_, .call .startTime, start⟩ :: _ => start
  | _ :: h => polledStart h

/-- The reported samples in order. -/
def reports : History → List Report
  | [] => []
  | x :: h =>
    match x.sample? with
    | some s => reports h ++ [⟨polledStart h, s⟩]
    | none => reports h

/-- How many samples were reported in a phase. -/
def inPhase (h : History) (phase : Phase) : Nat :=
  (reports h).countP fun r => decide (r.sample.phase = phase)

/-- The samples before the first one that is in time. There are none with a simultaneous start. -/
def warmUps (simultaneous : Bool) (h : History) : Nat :=
  if simultaneous then 0 else ((reports h).takeWhile fun r => !r.inTime).length

/-- The samples from the first one on that is in time. -/
def counted (simultaneous : Bool) (h : History) : Nat :=
  (reports h).length - warmUps simultaneous h

variable {h : History} {x : Exchange} {s : Sample}

theorem reports_cons_of_none (silent : x.sample? = none) : reports (x :: h) = reports h := by
  simp [reports, silent]

theorem reports_cons_of_some (reported : x.sample? = some s) :
    reports (x :: h) = reports h ++ [⟨polledStart h, s⟩] := by
  simp [reports, reported]

theorem inPhase_cons_of_some (reported : x.sample? = some s) (phase : Phase) :
    inPhase (x :: h) phase = inPhase h phase + if s.phase = phase then 1 else 0 := by
  unfold inPhase
  rw [reports_cons_of_some reported, List.countP_append, List.countP_singleton]
  simp

theorem takeWhile_late_of_late (late : ∀ r ∈ reports h, r.inTime = false) :
    (reports h).takeWhile (fun r => !r.inTime) = reports h :=
  List.takeWhile_eq_self_iff.mpr fun r mem => by simp [late r mem]

theorem warmUps_of_late (late : ∀ r ∈ reports h, r.inTime = false) :
    warmUps false h = (reports h).length := by
  simp [warmUps, takeWhile_late_of_late late]

/-- From the first report in time on there are no more warm-ups. -/
theorem warmUps_cons_of_inTime (reported : x.sample? = some s) (simultaneous : Bool)
    (begun : (∃ r ∈ reports h, r.inTime) ∨ Report.inTime ⟨polledStart h, s⟩) :
    warmUps simultaneous (x :: h) = warmUps simultaneous h := by
  unfold warmUps
  rw [reports_cons_of_some reported, List.takeWhile_append]
  split
  · rfl
  · split
    next all =>
      -- All reports so far are warm-ups, so it is the new one that is in time.
      have late : ∀ r ∈ reports h, r.inTime = false := by
        have same := (List.takeWhile_prefix fun r : Report => !r.inTime).eq_of_length all
        simpa using List.takeWhile_eq_self_iff.mp same
      have first : Report.inTime ⟨polledStart h, s⟩ := by
        rcases begun with ⟨r, mem, inTime⟩ | inTime
        · simp [late r mem] at inTime
        · exact inTime
      simp [first, takeWhile_late_of_late late]
    next => rfl

theorem counted_le_cons (simultaneous : Bool) :
    counted simultaneous h ≤ counted simultaneous (x :: h) := by
  cases reported : x.sample? with
  | none => simp [counted, warmUps, reports_cons_of_none reported]
  | some s =>
    have grown : (reports (x :: h)).length = (reports h).length + 1 := by
      rw [reports_cons_of_some reported, List.length_append, List.length_singleton]
    have warm : warmUps simultaneous (x :: h) ≤ warmUps simultaneous h + 1 := by
      unfold warmUps
      rw [reports_cons_of_some reported, List.takeWhile_append]
      split
      · omega
      · split
        next all =>
          have last := (List.takeWhile_sublist (l := [⟨polledStart h, s⟩])
            fun r : Report => !r.inTime).length_le
          rw [List.length_append, all]
          simpa using last
        next => omega
    unfold counted
    omega

theorem counted_le_append (simultaneous : Bool) (later : History) :
    counted simultaneous h ≤ counted simultaneous (later ++ h) := by
  induction later with
  | nil => exact le_rfl
  | cons x later ih => exact ih.trans (counted_le_cons simultaneous)

end History

end LoadGen
