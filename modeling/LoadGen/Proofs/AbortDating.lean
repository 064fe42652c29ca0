import LoadGen.Proofs.AfterStart
import LoadGen.Proofs.Playback
import Mathlib.Order.MinMax

namespace LoadGen

open Program History

namespace History

/-- The thread has found the run not aborted, at the time or later. -/
def Cleared (h : History) (t : Stamp) : Prop := ∃ y ∈ h, y.isClear ∧ t ≤ y.time

variable {h : History} {x : Exchange} {t u : Stamp}

theorem Cleared.cons (cleared : Cleared h t) : Cleared (x :: h) t := by
  obtain ⟨y, mem, clear, le⟩ := cleared
  exact ⟨y, List.mem_cons_of_mem x mem, clear, le⟩

theorem Cleared.reached (cleared : Cleared h t) : Reached h t := by
  obtain ⟨y, mem, -, le⟩ := cleared
  exact ⟨y, mem, le⟩

theorem Cleared.max (first : Cleared h t) (second : Cleared h u) : Cleared h (max t u) := by
  rcases le_total t u with le | le
  · rwa [max_eq_right le]
  · rwa [max_eq_left le]

/-- What has been reached when the flag is found down is cleared by that. -/
theorem Reached.cleared (reached : Reached h t) (timely : Timely x h) (clear : x.isClear) :
    Cleared (x :: h) t := by
  obtain ⟨y, mem, le⟩ := reached
  exact ⟨x, by simp, clear, le_trans le (timely.2 y mem)⟩

end History

/-- Both times are of a kind, or both are a start that was waited for. -/
def Dated (awaited known : Stamp → Prop) (first second : Stamp) : Prop :=
  (known first ∧ known second) ∨ (awaited first ∧ second = first)

theorem Dated.mono {awaited known weaker : Stamp → Prop} {first second : Stamp}
    (dated : Dated awaited known first second) (imp : ∀ t, known t → weaker t) :
    Dated awaited weaker first second :=
  dated.imp (fun both => ⟨imp _ both.1, imp _ both.2⟩) id

/-- How an error sample comes by its times. What a handler has captured is cleared by the look at
the flag after it, and so are the times of the invocation before. The reading for what is missing is
taken later, and a start that was waited for can lie ahead. -/
inductive ErrorTimes (awaited : Stamp → Prop) (h : History) (r : Timing) (now : Stamp) :
    Stamp → Stamp → Prop
  | captured {invoke : Stamp} : r.invoke = some invoke → Cleared h invoke →
      (∀ t, r.answered = some t → Cleared h t) →
      ErrorTimes awaited h r now invoke (max invoke (r.answered.getD now))
  | overdue : r.invoke = none → r.isEarly now = false → ErrorTimes awaited h r now now now
  | reused {invoke respond : Stamp} : r.invoke = none → r.isEarly now = true →
      Cleared h invoke → Cleared h respond → ErrorTimes awaited h r now invoke respond
  | ahead {start : Stamp} : r.invoke = none → r.isEarly now = true → awaited start →
      ErrorTimes awaited h r now start start

/-- What is known of the times of a sample when it is reported. -/
def SampleDated (awaited : Stamp → Prop) (x : Exchange) (older : History) : Prop :=
  (∀ s, x.event? = some (.transaction s) → Cleared older s.invoke ∧ Cleared older s.respond) ∧
  ∀ s, x.event? = some (.error s) → ∃ r now, returned older = some r ∧ reading older = some now ∧
    ErrorTimes awaited older r now s.invoke s.respond

/-- A repair takes its times from the record, from the reading or from the invocation before. -/
theorem errorTimes_of_repair {awaited : Stamp → Prop} {h : History} {r : Timing} {now : Stamp}
    (rule : Timing.EarlyFailure) {first second : Stamp} (reached : Reached h now)
    (cleared : r.Each (Cleared h)) (before : Dated awaited (Cleared h) first second)
    (kept : (r.repair now rule (first, second)).2.skip = false) :
    ∃ invoke respond, (r.repair now rule (first, second)).1.invoke = some invoke ∧
      (r.repair now rule (first, second)).1.respond = some respond ∧
      ErrorTimes awaited h r now invoke respond ∧ Dated awaited (Reached h) invoke respond := by
  cases begun : r.invoke with
  | some invoke =>
    obtain ⟨-, hi, hr⟩ := Timing.repair_of_invoke begun rule (first, second)
    have captured : Cleared h invoke := cleared invoke (Or.inl begun)
    have answers : Reached h (r.answered.getD now) := by
      cases answered : r.answered with
      | some t => exact (cleared.answered answered).reached
      | none => exact reached
    exact ⟨_, _, hi, hr, .captured begun captured fun _ => cleared.answered,
      Or.inl ⟨captured.reached, captured.reached.max answers⟩⟩
  | none =>
    cases early : r.isEarly now with
    | false =>
      obtain ⟨-, hi, hr⟩ := Timing.repair_of_overdue begun early rule (first, second)
      exact ⟨_, _, hi, hr, .overdue begun early, Or.inl ⟨reached, reached⟩⟩
    | true =>
      cases rule with
      | skip => simp [Timing.repair_skip_iff.mpr ⟨rfl, begun, early⟩] at kept
      | reusePrevious =>
        obtain ⟨-, hi, hr⟩ := Timing.repair_of_early begun early (first, second)
        rcases before with ⟨before, after⟩ | ⟨waits, rfl⟩
        · have later := before.max after
          exact ⟨_, _, hi, hr, .reused begun early before later,
            Or.inl ⟨before.reached, later.reached⟩⟩
        · rw [max_self] at hr
          exact ⟨_, _, hi, hr, .ahead begun early waits, Or.inr ⟨waits, rfl⟩⟩

/-- Slots and records have times that the clock has reached; a look at the flag clears them. -/
def SampleInvariant.dated (awaited : Stamp → Prop) : SampleInvariant where
  slot s h := Dated awaited (Reached h) s.previousStart s.previousEnd
  record _ r h := r.Each (Reached h)
  clearSlot s h := Dated awaited (Cleared h) s.previousStart s.previousEnd
  clearRecord _ r h := r.Each (Cleared h)

theorem dated_sound {σ : Type} {p : RunPlan σ} {fixed : Option Stamp} {awaited : Stamp → Prop}
    (waits : ∀ start, p.control.simultaneous = true → fixed = some start → awaited start) :
    (SampleInvariant.dated awaited).Sound p fixed (SampleDated awaited) where
  silent := by
    intro x h silent
    obtain ⟨t, request, reply⟩ := x
    constructor
    all_goals
      intro s reported
      cases request with
      | call c => cases reported
      | emit e =>
        cases reported
        cases silent
  slot_cons dated := dated.mono fun _ => Reached.cons
  clearSlot_cons dated := dated.mono fun _ => Cleared.cons
  clearRecord_cons cleared := cleared.mono fun _ => Cleared.cons
  kept _ := Timing.kept_reached
  clears_slot timely clear dated := dated.mono fun _ reached => reached.cleared timely clear
  clears_record timely clear all := all.mono fun _ reached => reached.cleared timely clear
  fresh_now _ reached := Or.inl ⟨reached, reached⟩
  fresh_start simultaneous told := Or.inr ⟨waits _ simultaneous told, rfl⟩
  reset _ _ _ reached _ := Or.inl ⟨reached, reached⟩
  plan r dated := by
    unfold Slot.plan
    split <;> exact dated
  planned := by
    intro s pending delay x h _ _ emitted
    constructor
    all_goals
      intro s reported
      rw [emitted] at reported
      cases reported
  takes dated := dated
  opens _ _ := Timing.each_intendedAt _
  transaction := by
    intro intended s r record h _ cleared completed
    obtain ⟨invoke, respond, begun, answered, hi, hr, -⟩ := Timing.complete_sound completed
    have first : Cleared h invoke := cleared invoke (Or.inl begun)
    have second : Cleared h respond := cleared.answered answered
    constructor
    · show Dated awaited (Reached h) _ _
      simp only [Slot.follow, hi, hr]
      exact Or.inl ⟨first.reached, second.reached⟩
    · intro x operation phase reported
      obtain ⟨-, same, same'⟩ := Sample.ofTiming_of_both operation phase hi hr
      constructor
      · intro s reported'
        rw [reported] at reported'
        cases reported'
        rw [same, same']
        exact ⟨first, second⟩
      · intro s reported'
        rw [reported] at reported'
        cases reported'
  error := by
    intro intended s r now h rule failure kept
    obtain ⟨invoke, respond, hi, hr, times, dated⟩ := errorTimes_of_repair rule failure.reached
      failure.clearRecord failure.clearSlot kept
    constructor
    · show Dated awaited (Reached h) _ _
      simp only [Slot.follow, hi, hr]
      exact dated
    · intro x operation phase reported
      obtain ⟨-, same, same'⟩ := Sample.ofTiming_of_both operation phase hi hr
      constructor
      · intro s reported'
        rw [reported] at reported'
        cases reported'
      · intro s reported'
        rw [reported] at reported'
        cases reported'
        rw [same, same']
        exact ⟨r, now, failure.returned, failure.reading, times⟩

/-- A repair puts its reading in the place of a time that the handler has not captured. -/
def Timing.NeedsReading (r : Timing) (now : Stamp) : Prop :=
  (r.invoke.isSome ∧ r.answered = none) ∨ (r.invoke = none ∧ r.isEarly now = false)

theorem ErrorTimes.late_iff {awaited : Stamp → Prop} {h : History} {r : Timing}
    {now invoke respond aborted : Stamp} (times : ErrorTimes awaited h r now invoke respond)
    (cleared : ∀ t, Cleared h t → t ≤ aborted) (after : ∀ start, awaited start → start ≤ invoke) :
    (aborted < invoke ∨ aborted < respond) ↔
      (aborted < now ∧ r.NeedsReading now) ∨
      (r.invoke = none ∧ r.isEarly now = true ∧ ∃ start, awaited start ∧ aborted < start) := by
  unfold Timing.NeedsReading
  cases times with
  | captured begun before answers =>
    have before := cleared invoke before
    cases answered : r.answered with
    | none => simp [begun, not_lt.mpr before]
    | some t =>
      have answers := cleared t (answers t answered)
      simp [begun, not_lt.mpr before, not_lt.mpr answers]
  | overdue missing late => simp [missing, late]
  | reused missing early first second =>
    have first := cleared _ first
    have second := cleared _ second
    have later : ∀ start, awaited start → start ≤ aborted :=
      fun start waits => le_trans (after start waits) first
    simpa [missing, early, not_lt.mpr first, not_lt.mpr second] using later
  | ahead missing early waits =>
    simp only [missing, early, or_self]
    constructor
    · intro late
      exact Or.inr ⟨trivial, trivial, invoke, waits, late⟩
    · intro late
      rcases late with ⟨-, needs⟩ | ⟨-, -, start, waits, late⟩
      · simp at needs
      · exact lt_of_lt_of_le late (after start waits)

/-- No transaction of an aborted run is dated after the abort. An error is dated after it in two
cases only: when the repair has filled in a time with a reading that it took after the abort, and
when the operation has failed without having begun in a run that was aborted before its
simultaneous start. -/
theorem samples_dated_by_abort {σ : Type} (p : RunPlan σ) {now aborted : Stamp}
    {e : Ensemble (Stage σ)} {hs : Nat → History}
    (run : Ensemble.Run p.follow p.ensemble now e hs)
    (stamped : e.signals.abortTime = some aborted)
    (word : ∀ start, e.signals.start = some start → start ≤ Stamp.greatest)
    (i : Nat) {x : Exchange} {older : History} (part : x :: older <:+ hs i) :
    (∀ s, x.event? = some (.transaction s) → s.invoke ≤ aborted ∧ s.respond ≤ aborted) ∧
    ∀ s, x.event? = some (.error s) → ∃ record read,
      returned older = some record ∧ reading older = some read ∧
      ((aborted < s.invoke ∨ aborted < s.respond) ↔
        (aborted < read ∧ record.NeedsReading read) ∨
        (record.invoke = none ∧ record.isEarly read = true ∧ p.control.simultaneous = true ∧
          ∃ start, e.signals.start = some start ∧ aborted < start)) := by
  have within : ∀ y ∈ older, y ∈ hs i :=
    fun y mem => part.subset (List.mem_cons_of_mem x mem)
  have cleared : ∀ t, Cleared older t → t ≤ aborted := by
    intro t cleared
    obtain ⟨y, mem, clear, le⟩ := cleared
    exact le_trans le (run.clear_before_abort p.fresh (within y mem) clear stamped)
  let awaited : Stamp → Prop := fun start =>
    p.control.simultaneous = true ∧ e.signals.start = some start
  have sound := dated_sound (p := p) fun start simultaneous fixed =>
    (⟨simultaneous, fixed⟩ : awaited start)
  obtain ⟨transactions, errors⟩ := each_iff_suffix.mp (sound.safe_of_run run i) x older part
  refine ⟨fun s reported => ?_, fun s reported => ?_⟩
  · obtain ⟨first, second⟩ := transactions s reported
    exact ⟨cleared _ first, cleared _ second⟩
  · obtain ⟨record, read, returned, latest, times⟩ := errors s reported
    refine ⟨record, read, returned, latest, ?_⟩
    -- Nothing is reported from before a simultaneous start, so no reused time is earlier than it.
    have after : ∀ start, awaited start → start ≤ s.invoke := by
      intro start waits
      have late := notBefore_of_run run waits.1 waits.2 (word start waits.2) i
      exact (each_iff_suffix.mp late x older part).error reported
    simpa only [awaited, exists_and_left, and_assoc] using times.late_iff cleared after

/-- A plan of two threads. The operation of the first one fails without having recorded a time, and
the second one cannot be initialized. -/
def RunPlan.refused : RunPlan Unit :=
  { workload :=
      Workload.single (fun id => if id = 0 then .created () else .failed (.plain "refused"))
        ⟨"", [], 0, .manual, true, .fixed Span.zero⟩ fun _ => .fails () (.plain "refused")
    control := { RunControl.ofMode (.cycles 0 1 0) with threads := .fixed 2 }
    seed := 0 }

/-- The second thread aborts the run at zero, after the first one has found the flag down and before
it reads the clock for its repair. -/
theorem samples_dated_by_abort_refused :
    ∃ now e hs, Ensemble.Run RunPlan.refused.follow RunPlan.refused.ensemble now e hs ∧
      e.signals.abortTime = some 0 ∧ ∃ x older, x :: older <:+ hs 0 ∧
        x.event? = some (.error ⟨0, .rampUp, 0, 1, 1, 0⟩) ∧ ∃ record read,
          returned older = some record ∧ reading older = some read ∧
            0 < read ∧ record.NeedsReading read := by
  let order : List (Stamp × Nat) :=
    List.replicate 15 (0, 0) ++ List.replicate 6 (0, 1) ++ List.replicate 3 (1, 0)
  have passed : Ensemble.Run.reached (fun e hs => decide (e.signals.abortTime = some 0 ∧
      e.signals.start = none ∧
      (hs 0).head?.bind Exchange.event? = some (.error ⟨0, .rampUp, 0, 1, 1, 0⟩)))
      (Ensemble.Run.play RunPlan.refused.follow order 0 RunPlan.refused.ensemble fun _ => [])
      = true := by
    decide +kernel
  obtain ⟨now, e, hs, run, passed⟩ := Ensemble.Run.exists_of_reached passed
  obtain ⟨stamped, unfixed, last⟩ := of_decide_eq_true passed
  obtain ⟨x, latest, reported⟩ := Option.bind_eq_some_iff.mp last
  obtain ⟨older, split⟩ := List.head?_eq_some_iff.mp latest
  have part : x :: older <:+ hs 0 := split ▸ List.suffix_refl _
  have word : ∀ start, e.signals.start = some start → start ≤ Stamp.greatest := by simp [unfixed]
  obtain ⟨-, errors⟩ := samples_dated_by_abort RunPlan.refused run stamped word 0 part
  obtain ⟨record, read, returned, same, late⟩ := errors _ reported
  rcases late.mp (Or.inl (by decide)) with ⟨after, needs⟩ | ⟨-, -, simultaneous, -⟩
  · exact ⟨now, e, hs, run, stamped, x, older, part, reported, record, read, returned, same,
      after, needs⟩
  · cases simultaneous

end LoadGen
