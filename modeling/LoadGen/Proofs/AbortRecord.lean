import LoadGen.Proofs.OneShot

namespace LoadGen

namespace Signals

/-- Whoever asks finds the run aborted, with the cause. -/
structure Raised (s : Signals) : Prop where
  cause : s.cause.isSome
  flag : s.aborted

structure Stamped (s : Signals) : Prop extends s.Raised where
  time : s.abortTime.isSome

structure Notified (s : Signals) : Prop extends s.Stamped where
  nobody : s.waiting = []

end Signals

/-- Whether the thread has just found that the run is aborted. -/
def Exchange.findsAbort : Exchange → Bool
  | ⟨_, .call .isAborted, aborted⟩ => aborted
  | ⟨_, .call (.sleepUntil _), .cancelled⟩ => true
  | _ => false

/-- The cause, if the thread has just been told it. -/
def Exchange.cause? : Exchange → Option AbortCause
  | ⟨_, .call .abortCause, cause⟩ => cause
  | _ => none

namespace Call

/-- How far an abort has come. -/
def AbortPoint.Recorded (s : Signals) : AbortPoint → Prop
  | .enter | .look => True
  | .raise => s.cause.isSome
  | .stamp => s.Raised
  | .notify => s.Stamped
  | .leave | .enterSleepers | .wake _ | .leaveSleepers => s.Notified

def RecordPlace (s : Signals) : (c : Call) → c.Point → Prop
  | abort _, p => AbortPoint.Recorded s p
  | _, _ => True

/-- An abort stays, and nobody begins to wait for the start of a run that is aborted. -/
structure RecordGrows (s s' : Signals) : Prop where
  value : ∀ cause, s.cause = some cause → s'.cause = some cause
  flag : s.aborted → s'.aborted
  time : s.abortTime.isSome → s'.abortTime.isSome
  waiting : s.cause.isSome → s.waiting = [] → s'.waiting = []

/-- What a thread has been told of the abort is true of the memory. -/
structure RecordSaid (s : Signals) (x : Exchange) : Prop where
  raised : x.raised?.isSome → s.Notified
  tried : ∀ cause, x.request = .call (.abort cause) → s.cause.isSome
  told : ∀ cause, x.cause? = some cause → s.cause = some cause
  found : x.findsAbort → s.aborted

variable {c : Call} {me : Nat} {now : Stamp} {s s' : Signals} {point point' : c.Point}
  {reply : c.Reply} {cause : AbortCause} {x : Exchange}

namespace RecordGrows

theorem aborted (grown : RecordGrows s s') (set : s.cause.isSome) : s'.cause.isSome := by
  obtain ⟨cause, set⟩ := Option.isSome_iff_exists.mp set
  exact Option.isSome_of_eq_some (grown.value cause set)

theorem raised (grown : RecordGrows s s') (raised : s.Raised) : s'.Raised :=
  ⟨grown.aborted raised.cause, grown.flag raised.flag⟩

theorem stamped (grown : RecordGrows s s') (stamped : s.Stamped) : s'.Stamped :=
  ⟨grown.raised stamped.toRaised, grown.time stamped.time⟩

theorem notified (grown : RecordGrows s s') (notified : s.Notified) : s'.Notified :=
  ⟨grown.stamped notified.toStamped, grown.waiting notified.cause notified.nobody⟩

theorem recorded (grown : RecordGrows s s') {p : AbortPoint} (recorded : AbortPoint.Recorded s p) :
    AbortPoint.Recorded s' p := by
  cases p with
  | enter | look => trivial
  | raise => exact grown.aborted recorded
  | stamp => exact grown.raised recorded
  | notify => exact grown.stamped recorded
  | leave | enterSleepers | wake _ | leaveSleepers => exact grown.notified recorded

theorem place (grown : RecordGrows s s') (place : RecordPlace s c point) :
    RecordPlace s' c point := by
  cases c with
  | abort cause => exact grown.recorded place
  | _ => trivial

theorem said (grown : RecordGrows s s') (said : RecordSaid s x) : RecordSaid s' x :=
  { raised := fun raised => grown.notified (said.raised raised)
    tried := fun cause tried => grown.aborted (said.tried cause tried)
    told := fun cause told => grown.value cause (said.told cause told)
    found := fun found => grown.flag (said.found found) }

theorem of_same (cause : s'.cause = s.cause) (flag : s'.aborted = s.aborted)
    (time : s'.abortTime = s.abortTime)
    (waiting : s.cause.isSome → s.waiting = [] → s'.waiting = []) : RecordGrows s s' :=
  ⟨fun _ set => cause.trans set, fun set => flag ▸ set, fun set => time ▸ set, waiting⟩

end RecordGrows

/-- Only a thread that finds no abort begins to wait for the start. -/
theorem step_keeps_waiting (other : ∀ cause, c ≠ .abort cause)
    (stepped : (c.step me now s point).signals? = some s') (aborted : s.cause.isSome)
    (nobody : s.waiting = []) : s'.waiting = [] := by
  cases c with
  | abort cause => exact absurd rfl (other cause)
  | awaitStart =>
    cases point with
    | look =>
      obtain ⟨cause, set⟩ := Option.isSome_iff_exists.mp aborted
      simp only [step, stepAwait, set] at stepped
      cases stepped
      exact nobody
    | enter =>
      simp only [step, stepAwait, enterSection] at stepped
      split at stepped <;> cases stepped
      exact nobody
    | wait =>
      simp only [step, stepAwait] at stepped
      split at stepped <;> cases stepped
      exact nobody
  | clock | isAborted | arrive => cases stepped; exact nobody
  | _ =>
    cases point <;> simp only [step, stepPoll, stepFix, stepEnrol, stepSleep, stepPass, guarded,
        enterSection, enterSleepersSection, leaveSection] at stepped <;>
      (repeat' split at stepped) <;> cases stepped <;> first | exact nobody | rfl

theorem step_grows_record (other : ∀ cause, c ≠ .abort cause)
    (stepped : (c.step me now s point).signals? = some s') : RecordGrows s s' := by
  obtain ⟨cause, flag, time⟩ := (step_keeps stepped).abort other
  exact .of_same cause flag time (step_keeps_waiting other stepped)

/-- The flag is raised only after the cause has been recorded. -/
def Caused (s : Signals) : Prop := s.aborted → s.cause.isSome

theorem abort_moves_record {p p' : AbortPoint} (caused : Caused s)
    (recorded : AbortPoint.Recorded s p) (moved : stepAbort cause me now s p = .moved s' p') :
    RecordGrows s s' ∧ Caused s' ∧ AbortPoint.Recorded s' p' := by
  cases p with
  | enter =>
    simp only [stepAbort, enterSection] at moved
    split at moved <;> cases moved
    exact ⟨.of_same rfl rfl rfl fun _ => id, caused, trivial⟩
  | look =>
    simp only [stepAbort] at moved
    split at moved <;> cases moved
    next unset =>
      refine ⟨⟨fun c set => ?_, id, id, fun _ => id⟩, fun _ => rfl, rfl⟩
      rw [unset] at set
      cases set
  | raise =>
    cases moved
    exact ⟨⟨fun _ => id, fun _ => rfl, id, fun _ => id⟩, fun _ => recorded, ⟨recorded, rfl⟩⟩
  | stamp =>
    cases moved
    have stamped : ({ s with abortTime := some now } : Signals).Stamped :=
      ⟨⟨recorded.cause, recorded.flag⟩, rfl⟩
    exact ⟨⟨fun _ => id, id, fun _ => rfl, fun _ => id⟩, caused, stamped⟩
  | notify =>
    cases moved
    have notified : ({ s with waiting := [] } : Signals).Notified :=
      ⟨⟨⟨recorded.cause, recorded.flag⟩, recorded.time⟩, rfl⟩
    exact ⟨.of_same rfl rfl rfl fun _ _ => rfl, caused, notified⟩
  | leave =>
    cases moved
    have grown : RecordGrows s (leaveSection s) := .of_same rfl rfl rfl fun _ => id
    exact ⟨grown, caused, grown.notified recorded⟩
  | enterSleepers =>
    simp only [stepAbort, enterSleepersSection] at moved
    split at moved <;> cases moved
    have grown : RecordGrows s { s with sleepersHolder := some me } :=
      .of_same rfl rfl rfl fun _ => id
    exact ⟨grown, caused, grown.notified recorded⟩
  | wake left =>
    cases left with
    | nil =>
      cases moved
      exact ⟨.of_same rfl rfl rfl fun _ => id, caused, recorded⟩
    | cons sleeper left =>
      cases moved
      have grown : RecordGrows s { s with tokens := sleeper :: s.tokens } :=
        .of_same rfl rfl rfl fun _ => id
      exact ⟨grown, caused, grown.notified recorded⟩
  | leaveSleepers => cases moved

theorem abort_answers_record {p : AbortPoint} {first : Bool} (recorded : AbortPoint.Recorded s p)
    (answered : stepAbort cause me now s p = .answered s' first) :
    RecordGrows s s' ∧ s'.cause.isSome ∧ s'.aborted = s.aborted ∧ (first → s'.Notified) := by
  cases p with
  | enter =>
    simp only [stepAbort, enterSection] at answered
    split at answered <;> cases answered
  | look =>
    simp only [stepAbort] at answered
    split at answered
    next cause set =>
      cases answered
      exact ⟨.of_same rfl rfl rfl fun _ => id, by simp [leaveSection, set], rfl, by simp⟩
    next => cases answered
  | enterSleepers =>
    simp only [stepAbort, enterSleepersSection] at answered
    split at answered <;> cases answered
  | wake left => cases left <;> cases answered
  | leaveSleepers =>
    cases answered
    have grown : RecordGrows s { s with sleepersHolder := none } := .of_same rfl rfl rfl fun _ => id
    exact ⟨grown, recorded.cause, rfl, fun _ => grown.notified recorded⟩
  | raise | stamp | notify | leave => cases answered

theorem moves_record (caused : Caused s) (place : RecordPlace s c point)
    (moved : c.Moves me now s s' point point') :
    RecordGrows s s' ∧ Caused s' ∧ RecordPlace s' c point' := by
  by_cases aborts : ∃ cause, c = .abort cause
  · obtain ⟨cause, rfl⟩ := aborts
    exact abort_moves_record caused place moved
  · have other : ∀ cause, c ≠ .abort cause := fun cause is => aborts ⟨cause, is⟩
    have grown := step_grows_record other moved.signals?
    obtain ⟨-, flag, -⟩ := (step_keeps moved.signals?).abort other
    refine ⟨grown, fun raised => grown.aborted (caused (flag ▸ raised)), ?_⟩
    cases c with
    | abort cause => exact absurd rfl (other cause)
    | _ => trivial

theorem found_of_answers (answered : c.Answers me now s s' point reply)
    (found : Exchange.findsAbort ⟨now, .call c, reply⟩ = true) : s'.aborted := by
  cases c with
  | isAborted =>
    cases answered
    exact found
  | sleepUntil t =>
    cases point with
    | checkFlag =>
      simp only [Answers, step, stepSleep] at answered
      split at answered
      next raised =>
        cases answered
        exact raised
      next => cases answered
    | _ =>
      simp only [Answers, step, stepSleep] at answered
      (repeat' split at answered) <;> cases answered <;> cases found
  | _ => cases found

theorem cause_of_answers (answered : c.Answers me now s s' point reply)
    (told : Exchange.cause? ⟨now, .call c, reply⟩ = some cause) : s'.cause = some cause := by
  cases c with
  | abortCause =>
    cases point with
    | enter =>
      simp only [Answers, step, guarded, enterSection] at answered
      split at answered <;> cases answered
    | look =>
      cases answered
      exact told
  | _ => cases told

theorem answers_record (caused : Caused s) (place : RecordPlace s c point)
    (answered : c.Answers me now s s' point reply) :
    RecordGrows s s' ∧ Caused s' ∧ RecordSaid s' ⟨now, .call c, reply⟩ := by
  have found := found_of_answers answered
  have told : ∀ cause, Exchange.cause? ⟨now, .call c, reply⟩ = some cause → s'.cause = some cause :=
    fun _ => cause_of_answers answered
  by_cases aborts : ∃ cause, c = .abort cause
  · obtain ⟨cause, rfl⟩ := aborts
    obtain ⟨grown, set, flag, notified⟩ := abort_answers_record place answered
    refine ⟨grown, fun _ => set, fun raised => ?_, fun _ _ => set, told, found⟩
    cases reply with
    | true => exact notified rfl
    | false => cases raised
  · have other : ∀ cause, c ≠ .abort cause := fun cause is => aborts ⟨cause, is⟩
    have grown := step_grows_record other answered.signals?
    obtain ⟨-, flag, -⟩ := (step_keeps answered.signals?).abort other
    refine ⟨grown, fun raised => grown.aborted (caused (flag ▸ raised)), fun raised => ?_, ?_, told,
      found⟩
    · cases c with
      | abort cause => exact absurd rfl (other cause)
      | _ => cases raised
    · intro cause is
      cases is
      exact absurd rfl (other cause)

end Call

namespace Protocol

/-- What is told of an abort is in the memory, and stays there. -/
def record : Protocol where
  good _ := Call.Caused
  place := Call.RecordPlace
  said _ := Call.RecordSaid
  grows _ := Call.RecordGrows
  good_later good _ := good
  said_later said _ := said
  place_grows := Call.RecordGrows.place
  said_grows := Call.RecordGrows.said
  entry {_ _ c} _ := by cases c <;> trivial
  emit _ := by
    refine ⟨fun raised => ?_, fun cause tried => ?_, fun cause told => ?_, fun found => ?_⟩
    · cases raised
    · cases tried
    · cases told
    · cases found
  move := Call.moves_record
  answer := Call.answers_record

end Protocol

end LoadGen
