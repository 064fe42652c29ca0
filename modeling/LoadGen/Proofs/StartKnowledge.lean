import LoadGen.Proofs.QuietRequests

namespace LoadGen

open Program History

/-- In its present iteration the thread has asked for the start time, and there was none. -/
def History.AskedInVain : History → Prop
  | [] => False
  | ⟨_, .call .startTime, start⟩ :: _ => start = (none : Option Stamp)
  | ⟨_, .call .isAborted, _⟩ :: _ => False
  | _ :: h => AskedInVain h

/-- The lengths of the phases with what decides about the start, and the start time itself. -/
structure TimedRun where
  rampUp : Span
  steadyState : Span
  rampDown : Span
  simultaneous : Bool
  load : Option LoadSchedule
  start : Stamp

namespace TimedRun

def bounds (r : TimedRun) : TimeBounds :=
  .ofStart r.start r.rampUp r.steadyState r.rampDown

/-- The policy of every thread at its beginning. -/
def policy (r : TimedRun) : TimePolicy :=
  .ofLengths r.rampUp r.steadyState r.rampDown r.simultaneous

/-- The policy once the start time is known. -/
def started (r : TimedRun) : TimePolicy :=
  { r.policy with start := some r.start, bounds := some r.bounds }

/-- Nobody is told another start time. -/
def Tells (r : TimedRun) (x : Exchange) (_ : History) : Prop :=
  ∀ t, x.start? = some t → t = r.start

/-- A handler that is called is intended for a time before the end, unless its thread has asked for
the start in vain in that iteration, and does not need it. -/
def CallsBefore (r : TimedRun) (x : Exchange) (older : History) : Prop :=
  ∀ background operation intended, x.event? = some (.called background operation intended) →
    (SeesStart older ∧ intended < r.bounds.endRampDown) ∨
    (¬ SeesStart older ∧ AskedInVain older ∧ ¬ r.simultaneous ∧ r.load = none)

/-- The thread knows the bounds of the phases exactly if it has been told the start. -/
def Knows (r : TimedRun) (q : TimePolicy) (h : History) : Prop :=
  (q = r.policy ∧ ¬ SeesStart h) ∨ (q = r.started ∧ SeesStart h)

/-- The thread knows what there is to know, and has been told a simultaneous start. -/
def Informed (r : TimedRun) (q : TimePolicy) (h : History) : Prop :=
  r.Knows q h ∧ (r.simultaneous → SeesStart h)

/-- The thread has passed its gate, either with the start or after asking for it in vain. -/
def Asked (r : TimedRun) (q : TimePolicy) (h : History) : Prop :=
  (q = r.started ∧ SeesStart h) ∨
    (q = r.policy ∧ ¬ SeesStart h ∧ AskedInVain h ∧ r.load = none)

/-- What holds of a thread between two programs. -/
def Inv {σ : Type} (r : TimedRun) : Stage σ → History → Prop
  | .starting _, h => ¬ SeesStart h
  | .ready u, h => u.policy = .time r.policy ∧ ¬ SeesStart h
  | .iterating u _, h => ∃ q, u.policy = .time q ∧ r.Informed q h
  | _, _ => True

end TimedRun

def Call.tellsStart : Call → Bool
  | startTime | awaitStart => true
  | _ => false

/-- The request neither calls a handler nor asks for the start time. -/
def Request.Settled : Request → Prop
  | .emit (.called ..) => False
  | .emit _ => True
  | .call c => c.tellsStart = false

/-- The request does not ask for the start time. -/
def Request.Untelling : Request → Prop
  | .emit _ => True
  | .call c => c.tellsStart = false

theorem Request.Settled.untelling {request : Request} (settled : request.Settled) :
    request.Untelling := by
  cases request with
  | emit e => trivial
  | call c => exact settled

theorem Request.Quiet.settled {request : Request} (quiet : request.Quiet) : request.Settled := by
  cases request with
  | call c => cases c <;> first | rfl | cases quiet
  | emit e =>
    cases e with
    | called => cases quiet
    | _ => trivial

theorem Request.Idle.settled {request : Request} (idle : request.Idle) : request.Settled :=
  idle.quiet.settled

theorem start?_of_untelling {x : Exchange} (untelling : x.request.Untelling) :
    x.start? = none := by
  obtain ⟨t, request, reply⟩ := x
  cases request with
  | emit e => rfl
  | call c => cases c <;> first | rfl | cases untelling

theorem start?_of_settled {x : Exchange} (settled : x.request.Settled) : x.start? = none :=
  start?_of_untelling settled.untelling

theorem event?_of_settled {x : Exchange} (settled : x.request.Settled) (background : Bool)
    (operation : Nat) (intended : Stamp) :
    x.event? ≠ some (.called background operation intended) := by
  obtain ⟨t, request, reply⟩ := x
  cases request with
  | call c => simp
  | emit e =>
    intro called
    cases called
    exact settled

theorem seesStart_cons {x : Exchange} {h : History} :
    SeesStart (x :: h) ↔ x.start?.isSome ∨ SeesStart h := by
  simp [SeesStart]

theorem seesStart_cons_of_untold {x : Exchange} {h : History} (untold : x.start? = none) :
    SeesStart (x :: h) ↔ SeesStart h := by
  simp [seesStart_cons, untold]

theorem askedInVain_cons_of_quiet {x : Exchange} {h : History} (quiet : x.request.Quiet) :
    AskedInVain (x :: h) ↔ AskedInVain h := by
  obtain ⟨t, request, reply⟩ := x
  cases request with
  | emit e => rfl
  | call c => cases c <;> first | rfl | cases quiet

namespace TimedRun

variable {σ : Type} {r : TimedRun} {q : TimePolicy} {h : History} {x : Exchange}

theorem callsBefore_of_settled (settled : x.request.Settled) : r.CallsBefore x h :=
  fun background operation intended called =>
    absurd called (event?_of_settled settled background operation intended)

theorem callsBefore_of_call {t : Stamp} {c : Call} {reply : (Request.call c).Reply} :
    r.CallsBefore ⟨t, .call c, reply⟩ h := by
  intro background operation intended called
  cases called

theorem Knows.untold (knows : r.Knows q h) (untold : x.start? = none) : r.Knows q (x :: h) := by
  simpa only [Knows, seesStart_cons_of_untold untold] using knows

theorem ensures_of_settled {α : Type} {p : Program α} {result : α → Prop}
    (keep : History → Prop) (only : p.Only Request.Settled result) (now : keep h)
    (stays : ∀ x h, x.request.Settled → keep h → keep (x :: h)) :
    p.Ensures r.Tells r.CallsBefore (fun a h => result a ∧ keep h) h :=
  only.ensures (fun x h settled _ kept =>
    ⟨callsBefore_of_settled settled, stays x h settled kept⟩) now

/-- A thread that is told the start sets its bounds. -/
theorem Knows.told (knows : r.Knows q h) (tells : r.Tells x h) {t : Stamp}
    (told : x.start? = some t) : r.Knows (q.withStart t) (x :: h) ∧ SeesStart (x :: h) := by
  obtain rfl := tells t told
  have sees : SeesStart (x :: h) := seesStart_cons.mpr (Or.inl (by simp [told]))
  rcases knows with ⟨rfl, -⟩ | ⟨rfl, -⟩
  · exact ⟨Or.inr ⟨rfl, sees⟩, sees⟩
  · exact ⟨Or.inr ⟨rfl, sees⟩, sees⟩

theorem noticeStart_asks (knows : r.Knows q h) (load : r.load = none) :
    q.noticeStart.Ensures r.Tells r.CallsBefore r.Asked h := by
  unfold TimePolicy.noticeStart
  rcases knows with ⟨rfl, unseen⟩ | ⟨rfl, sees⟩
  · have knows : r.Knows r.policy h := Or.inl ⟨rfl, unseen⟩
    simp only [policy, TimePolicy.ofLengths, ensures_bind, ensures_startTime]
    refine fun t start tells => ⟨callsBefore_of_call, ?_⟩
    cases start with
    | none =>
      have unseen : ¬ SeesStart (⟨t, .call .startTime, none⟩ :: h) := by
        rwa [seesStart_cons_of_untold rfl]
      exact Or.inr ⟨rfl, unseen, rfl, load⟩
    | some start =>
      obtain rfl := tells start rfl
      exact Or.inl ⟨rfl, (knows.told tells rfl).2⟩
  · exact Or.inl ⟨rfl, sees⟩

theorem requireStart_knows (knows : r.Knows q h) :
    TimePolicy.requireStart.Ensures r.Tells r.CallsBefore (fun start h =>
      (start = none → r.Knows q h) ∧
        ∀ t, start = some t → r.Knows (q.withStart t) h ∧ SeesStart h) h := by
  unfold TimePolicy.requireStart
  simp only [ensures_bind, ensures_startTime]
  intro t start tells
  refine ⟨callsBefore_of_call, ?_⟩
  cases start with
  | some start =>
    refine ⟨by simp, fun t same => ?_⟩
    cases same
    exact knows.told tells rfl
  | none =>
    simp only [ensures_awaitStart]
    intro t' start tells'
    have knows : r.Knows q (⟨t, .call .startTime, none⟩ :: h) := knows.untold rfl
    refine ⟨callsBefore_of_call, fun untold => ?_, fun start same => ?_⟩
    · subst untold
      exact knows.untold rfl
    · subst same
      exact knows.told tells' rfl

theorem Informed.untold (informed : r.Informed q h) (untold : x.start? = none) :
    r.Informed q (x :: h) :=
  ⟨informed.1.untold untold, fun need => (seesStart_cons_of_untold untold).mpr (informed.2 need)⟩

theorem Asked.quiet (asked : r.Asked q h) (quiet : x.request.Quiet) : r.Asked q (x :: h) := by
  have untold := start?_of_settled quiet.settled
  simpa only [Asked, seesStart_cons_of_untold untold, askedInVain_cons_of_quiet quiet] using asked

theorem Asked.knows (asked : r.Asked q h) : r.Knows q h := by
  rcases asked with ⟨started, sees⟩ | ⟨fresh, unseen, -⟩
  · exact Or.inr ⟨started, sees⟩
  · exact Or.inl ⟨fresh, unseen⟩

/-- A thread that goes on after its gate has asked for the start, or else been told it before. -/
theorem gate_asks (knows : r.Knows q h) (thread : Nat) :
    (q.gate r.load thread).Ensures r.Tells r.CallsBefore (fun result h =>
      r.Knows result.1 h ∧
        (result.2 = .proceed ∨ result.2 = .resumed → r.Asked result.1 h)) h := by
  unfold TimePolicy.gate
  cases load : r.load with
  | none =>
    simp only [ensures_bind]
    exact (noticeStart_asks knows load).mono fun q h asked => ⟨asked.knows, fun _ => asked⟩
  | some schedule =>
    simp only [ensures_bind]
    refine (requireStart_knows knows).mono fun start h known => ?_
    cases start with
    | none => exact ⟨known.1 rfl, by simp⟩
    | some start =>
      obtain ⟨⟨-, unseen⟩ | ⟨started, -⟩, sees⟩ := known.2 start rfl
      · exact absurd sees unseen
      have asked : r.Asked (q.withStart start) h := Or.inl ⟨started, sees⟩
      simp only [ensures_bind, ensures_clock]
      refine fun t now _ => ⟨callsBefore_of_call, ?_⟩
      have asked := asked.quiet (x := ⟨t, .call .clock, now⟩) rfl
      split
      next => exact ⟨asked.knows, fun _ => asked⟩
      next => exact ⟨asked.knows, by simp⟩
      next active wake _ =>
        simp only [ensures_bind, ensures_emit, ensures_sleepUntil]
        refine fun t _ => ⟨callsBefore_of_settled trivial, fun t' wait _ =>
          ⟨callsBefore_of_call, ?_⟩⟩
        have asked := (asked.quiet (x := ⟨t, .emit (.parked active), ()⟩) rfl).quiet
          (x := ⟨t', .call (.sleepUntil wake), wait⟩) rfl
        cases wait with
        | reached => exact ⟨asked.knows, fun _ => asked⟩
        | cancelled => exact ⟨asked.knows, by simp⟩

end TimedRun

end LoadGen
