import LoadGen.Policy
import LoadGen.Proofs.SampleCounts

namespace LoadGen

open History

namespace CycleBounds

/-- The bounds of phases follow each other. -/
structure Ascending (b : CycleBounds) : Prop where
  rampUp : b.endRampUp ≤ b.endSteadyState
  steadyState : b.endSteadyState ≤ b.endRampDown
  word : b.endRampDown ≤ Word.greatest

theorem ofLengths_ascending {rampUp : Nat} (word : rampUp ≤ Word.greatest)
    (steadyState rampDown : Nat) : (ofLengths rampUp steadyState rampDown).Ascending := by
  constructor <;> simp only [ofLengths] <;> omega

/-- How many of the first cycles belong to a phase. -/
def cyclesIn (b : CycleBounds) (count : Nat) : Phase → Nat
  | .rampUp => min count b.endRampUp
  | .steadyState => min count b.endSteadyState - min count b.endRampUp
  | .rampDown => count - min count b.endSteadyState

theorem cyclesIn_succ {b : CycleBounds} (ascending : b.Ascending) (count : Nat) (phase : Phase) :
    b.cyclesIn (count + 1) phase =
      b.cyclesIn count phase + if b.phaseOf (count + 1) = phase then 1 else 0 := by
  have first := ascending.rampUp
  unfold phaseOf
  by_cases low : count + 1 ≤ b.endRampUp
  · cases phase <;> simp [cyclesIn, low] <;> omega
  · by_cases high : count + 1 ≤ b.endSteadyState
    · cases phase <;> simp [cyclesIn, low, high] <;> omega
    · cases phase <;> simp [cyclesIn, low, high] <;> omega

end CycleBounds

/-- What a thread has reported agrees with what its policy has counted. -/
structure CycleTally (b : CycleBounds) (simultaneous : Bool) (q : CyclePolicy) (h : History) :
    Prop where
  bounds : q.bounds = b
  started : simultaneous → q.started
  late : q.started = false → q.completed = 0 ∧ ∀ r ∈ reports h, r.inTime = false
  begun : q.started → simultaneous ∨ ∃ r ∈ reports h, r.inTime
  total : (reports h).length = warmUps simultaneous h + q.completed
  phases : ∀ phase, inPhase h phase =
    b.cyclesIn q.completed phase + if phase = .rampUp then warmUps simultaneous h else 0
  within : q.completed ≤ b.endRampDown

/-- Every phase has as many samples as it is long, and the ramp-up has the warm-ups beside. -/
structure CyclesComplete (b : CycleBounds) (simultaneous : Bool) (h : History) : Prop where
  rampUp : inPhase h .rampUp = b.endRampUp + warmUps simultaneous h
  steadyState : inPhase h .steadyState = b.endSteadyState - b.endRampUp
  rampDown : inPhase h .rampDown = b.endRampDown - b.endSteadyState

namespace CycleTally

variable {b : CycleBounds} {simultaneous : Bool} {q : CyclePolicy} {h : History} {x : Exchange}
  {s : Sample}

theorem fresh (unreported : reports h = []) (start : Option Stamp) :
    CycleTally b simultaneous ⟨b, simultaneous, simultaneous, 0, start⟩ h := by
  constructor <;> simp [inPhase, warmUps, unreported]
  intro phase
  cases phase <;> simp [CycleBounds.cyclesIn]

theorem counted_eq (tally : CycleTally b simultaneous q h) :
    counted simultaneous h = q.completed := by
  have total := tally.total
  unfold counted
  omega

theorem quiet (tally : CycleTally b simultaneous q h) (silent : x.sample? = none) :
    CycleTally b simultaneous q (x :: h) := by
  have same := reports_cons_of_none (h := h) silent
  have warm : warmUps simultaneous (x :: h) = warmUps simultaneous h := by
    simp only [warmUps, same]
  have phases : ∀ phase, inPhase (x :: h) phase = inPhase h phase := by
    intro phase
    simp only [inPhase, same]
  constructor
  · exact tally.bounds
  · exact tally.started
  · simpa only [same] using tally.late
  · simpa only [same] using tally.begun
  · simpa only [same, warm] using tally.total
  · simpa only [phases, warm] using tally.phases
  · exact tally.within

/-- A sample before the start is one more warm-up. -/
theorem warmUp (tally : CycleTally b simultaneous q h) (reported : x.sample? = some s)
    (early : q.started = false) (late : Report.inTime ⟨polledStart h, s⟩ = false)
    (phase : s.phase = .rampUp) : CycleTally b simultaneous q (x :: h) := by
  have single : simultaneous = false := by
    cases simultaneous with
    | false => rfl
    | true => simpa [early] using tally.started rfl
  subst single
  obtain ⟨zero, before⟩ := tally.late early
  have none : ∀ r ∈ reports (x :: h), r.inTime = false := by
    rw [reports_cons_of_some reported]
    intro r mem
    rcases List.mem_append.mp mem with old | new
    · exact before r old
    · obtain rfl := List.mem_singleton.mp new
      exact late
  have warm : warmUps false (x :: h) = warmUps false h + 1 := by
    rw [warmUps_of_late none, warmUps_of_late before, reports_cons_of_some reported]
    simp
  constructor
  · exact tally.bounds
  · simp
  · exact fun _ => ⟨zero, none⟩
  · simp [early]
  · rw [warm, reports_cons_of_some reported, List.length_append, tally.total, List.length_singleton]
    omega
  · intro other
    rw [inPhase_cons_of_some reported, tally.phases, warm, phase]
    by_cases same : other = .rampUp
    · subst same
      simp only [↓reduceIte]
      omega
    · simp [same, Ne.symm same]
  · exact tally.within

/-- A sample from the start on is one more cycle, in the phase of its number. -/
theorem cycle (tally : CycleTally b simultaneous q h) (ascending : b.Ascending)
    (reported : x.sample? = some s)
    (begun : q.started ∨ Report.inTime ⟨polledStart h, s⟩)
    (room : q.completed < b.endRampDown)
    (phase : s.phase = b.phaseOf (q.completed + 1)) :
    CycleTally b simultaneous { q with started := true, completed := q.completed + 1 }
      (x :: h) := by
  have inTime : simultaneous ∨ (∃ r ∈ reports h, r.inTime) ∨
      Report.inTime ⟨polledStart h, s⟩ := by
    rcases begun with started | inTime
    · exact (tally.begun started).imp_right Or.inl
    · exact Or.inr (Or.inr inTime)
  have warm : warmUps simultaneous (x :: h) = warmUps simultaneous h := by
    rcases inTime with rfl | inTime
    · simp [warmUps]
    · exact warmUps_cons_of_inTime reported simultaneous inTime
  constructor
  · exact tally.bounds
  · simp
  · simp
  · intro _
    rw [reports_cons_of_some reported]
    rcases inTime with single | ⟨r, mem, inTime⟩ | inTime
    · exact Or.inl single
    · exact Or.inr ⟨r, by simp [mem], inTime⟩
    · exact Or.inr ⟨_, by simp, inTime⟩
  · rw [warm, reports_cons_of_some reported, List.length_append, tally.total, List.length_singleton]
    rfl
  · intro other
    rw [inPhase_cons_of_some reported, tally.phases, warm, phase]
    show _ = b.cyclesIn (q.completed + 1) other + _
    rw [CycleBounds.cyclesIn_succ ascending]
    omega
  · exact Nat.succ_le_of_lt room

/-- A gate stops a thread only when all its cycles are counted. -/
theorem complete (tally : CycleTally b simultaneous q h) (ascending : b.Ascending)
    (stops : q.gate = .stop) : CyclesComplete b simultaneous h := by
  have full : q.completed = b.endRampDown := by
    have within := tally.within
    unfold CyclePolicy.gate at stops
    split at stops
    next full =>
      have reached : b.endRampDown ≤ q.completed := tally.bounds ▸ full.2
      omega
    next => cases stops
  have first := ascending.rampUp
  have second := ascending.steadyState
  have phases := tally.phases
  rw [full] at phases
  constructor
  · rw [phases]
    simp only [CycleBounds.cyclesIn, ↓reduceIte]
    omega
  · rw [phases]
    simp only [CycleBounds.cyclesIn, reduceCtorEq, ↓reduceIte]
    omega
  · rw [phases]
    simp only [CycleBounds.cyclesIn, reduceCtorEq, ↓reduceIte]
    omega

end CycleTally

end LoadGen
