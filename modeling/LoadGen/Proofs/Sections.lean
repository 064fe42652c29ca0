import LoadGen.Proofs.AbortRecord

namespace LoadGen

variable {α : Type}

namespace Call

/-- Whether a call is inside the section of the signals. -/
def inside : (c : Call) → c.Point → Bool
  | awaitStart, p =>
    match p with
    | AwaitPoint.look => true
    | AwaitPoint.enter | AwaitPoint.wait => false
  | fixStart _, p =>
    match p with
    | FixPoint.enter => false
    | _ => true
  | abort _, p =>
    match p with
    | AbortPoint.look | AbortPoint.raise | AbortPoint.stamp | AbortPoint.notify
    | AbortPoint.leave => true
    | _ => false
  | abortCause, p | abortTime, p =>
    match p with
    | GuardedPoint.enter => false
    | GuardedPoint.look => true
  | _, _ => false

variable {c : Call} {me : Nat} {now : Stamp} {s s' : Signals} {point point' : c.Point}
  {reply : c.Reply}

theorem inside_entry : c.inside c.entry = false := by
  cases c <;> rfl

/-- The thread stays on its side of the door. -/
def Stays (s s' : Signals) (before after : Bool) : Prop :=
  s'.holder = s.holder ∧ after = before

/-- The thread finds nobody inside and goes in. -/
def GoesIn (me : Nat) (s s' : Signals) (before after : Bool) : Prop :=
  s.holder = none ∧ before = false ∧ s'.holder = some me ∧ after = true

def GoesOut (s' : Signals) (before after : Bool) : Prop :=
  before = true ∧ s'.holder = none ∧ after = false

/-- A way in is there only while nobody is inside. -/
theorem goesIn_of_enters {point' next : c.Point} {before : Bool} (out : before = false)
    (held : c.inside next = true) (entered : enterSection me s next = Progress.moved s' point') :
    GoesIn me s s' before (c.inside point') := by
  unfold enterSection at entered
  split at entered
  next => cases entered
  next free =>
    cases entered
    exact ⟨free, out, rfl, held⟩

theorem moves_section (moved : c.Moves me now s s' point point') :
    Stays s s' (c.inside point) (c.inside point') ∨
      GoesIn me s s' (c.inside point) (c.inside point') ∨
      GoesOut s' (c.inside point) (c.inside point') := by
  cases c with
  | clock | isAborted | arrive => cases moved
  | awaitAll =>
    simp only [Moves, step] at moved
    split at moved <;> cases moved
  | abort cause =>
    cases point with
    | wake left => cases left <;> cases moved <;> exact Or.inl ⟨rfl, rfl⟩
    | enter => exact Or.inr (Or.inl (goesIn_of_enters rfl rfl moved))
    | leave =>
      cases moved
      exact Or.inr (Or.inr ⟨rfl, rfl, rfl⟩)
    | _ =>
      simp only [Moves, step, stepAbort, enterSleepersSection] at moved
      (repeat' split at moved) <;> cases moved <;> exact Or.inl ⟨rfl, rfl⟩
  | awaitStart =>
    cases point with
    | enter => exact Or.inr (Or.inl (goesIn_of_enters rfl rfl moved))
    | look =>
      simp only [Moves, step, stepAwait] at moved
      split at moved <;> cases moved
      exact Or.inr (Or.inr ⟨rfl, rfl, rfl⟩)
    | wait =>
      simp only [Moves, step, stepAwait] at moved
      split at moved <;> cases moved
      exact Or.inl ⟨rfl, rfl⟩
  | fixStart t =>
    cases point with
    | enter => exact Or.inr (Or.inl (goesIn_of_enters rfl rfl moved))
    | _ =>
      simp only [Moves, step, stepFix] at moved
      (repeat' split at moved) <;> cases moved <;> exact Or.inl ⟨rfl, rfl⟩
  | abortCause | abortTime =>
    cases point with
    | enter => exact Or.inr (Or.inl (goesIn_of_enters rfl rfl moved))
    | look => cases moved
  | _ =>
    cases point <;> simp only [Moves, step, stepPoll, stepEnrol, stepSleep, stepPass,
        enterSleepersSection] at moved <;>
      (repeat' split at moved) <;> cases moved <;> exact Or.inl ⟨rfl, rfl⟩

theorem answers_section (answered : c.Answers me now s s' point reply) :
    Stays s s' (c.inside point) false ∨ GoesOut s' (c.inside point) false := by
  cases c with
  | clock | isAborted | arrive =>
    cases answered
    exact Or.inl ⟨rfl, rfl⟩
  | awaitAll =>
    simp only [Answers, step] at answered
    split at answered <;> cases answered
    exact Or.inl ⟨rfl, rfl⟩
  | abort cause =>
    cases point with
    | wake left => cases left <;> cases answered
    | look =>
      simp only [Answers, step, stepAbort] at answered
      split at answered <;> cases answered
      exact Or.inr ⟨rfl, rfl, rfl⟩
    | _ =>
      simp only [Answers, step, stepAbort, enterSection, enterSleepersSection] at answered
      (repeat' split at answered) <;> cases answered <;> exact Or.inl ⟨rfl, rfl⟩
  | _ =>
    cases point <;> simp only [Answers, step, stepPoll, stepAwait, stepFix, stepEnrol, stepSleep,
        stepPass, guarded, enterSection, enterSleepersSection] at answered <;>
      (repeat' split at answered) <;> cases answered <;>
        first | exact Or.inl ⟨rfl, rfl⟩ | exact Or.inr ⟨rfl, rfl, rfl⟩

end Call

namespace Thread

def inside : Thread α → Bool
  | between _ => false
  | within c point _ => c.inside point

theorem inside_of_at {thread : Thread α} {c : Call} {point : c.Point} {next : c.Reply → Program α}
    (stands : thread.At c point next) : thread.inside = c.inside point := by
  cases stands with
  | entry => exact Call.inside_entry.symm
  | inside => rfl

end Thread

namespace Ensemble

open Call

variable {follow : α → Option (Program α)} {first e : Ensemble α} {i threads : Nat} {now : Stamp}
  {s' : Signals} {m m' : Member α} {x : Option Exchange} {hs : Nat → History}

theorem takes_section {s : Signals} (takes : Member.Takes follow i now s m s' m' x) :
    Stays s s' m.thread.inside m'.thread.inside ∨
      GoesIn i s s' m.thread.inside m'.thread.inside ∨
      GoesOut s' m.thread.inside m'.thread.inside := by
  cases takes with
  | follow _ => exact Or.inl ⟨rfl, rfl⟩
  | emit => exact Or.inl ⟨rfl, rfl⟩
  | move stands moved =>
    rw [Thread.inside_of_at stands]
    exact moves_section moved
  | answer stands answered =>
    rw [Thread.inside_of_at stands]
    exact (answers_section answered).imp_right Or.inr

/-- Whoever is inside holds the section. -/
def Guarded (e : Ensemble α) : Prop :=
  ∀ (i : Nat) (m : Member α), e.members[i]? = some m → m.thread.inside → e.signals.holder = some i

theorem Guarded.step (guarded : e.Guarded) (stepped : Stepped follow i now e m m' s' x) :
    (e.withMember i s' m').Guarded := by
  intro j k there inSection
  rw [getElem?_withMember stepped.present] at there
  change s'.holder = some j
  by_cases same : j = i
  · subst same
    rw [if_pos rfl, Option.some.injEq] at there
    subst there
    rcases takes_section stepped.takes with ⟨held, stays⟩ | ⟨-, -, held, -⟩ | ⟨-, -, out⟩
    · exact held.trans (guarded j m stepped.present (stays ▸ inSection))
    · exact held
    · rw [out] at inSection
      cases inSection
  · -- Another thread inside leaves this one neither a way in nor a way out.
    rw [if_neg same] at there
    have held := guarded j k there inSection
    rcases takes_section stepped.takes with ⟨stays, -⟩ | ⟨free, -⟩ | ⟨mine, -⟩
    · exact stays.trans held
    · rw [held] at free
      cases free
    · have mine := guarded i m stepped.present mine
      rw [held, Option.some.injEq] at mine
      exact absurd mine same

theorem Run.guarded (fresh : Run.Fresh first threads) (run : Run follow first now e hs) :
    e.Guarded := by
  induction run with
  | start =>
    intro i m present held
    obtain ⟨p, idle⟩ := fresh.idle i m present
    rw [idle] at held
    cases held
  | wait _ _ ih => exact ih
  | step i _ stepped ih =>
    obtain ⟨m, m', s', x, taken, rfl⟩ := exists_stepped stepped
    exact ih.step taken

/-- An abort without its time is still in the hands of the thread that raises it. -/
theorem Run.exists_inside_of_unstamped (fresh : Run.Fresh first threads)
    (run : Run follow first now e hs) (raised : e.signals.cause.isSome)
    (unstamped : e.signals.abortTime = none) :
    ∃ (i : Nat) (m : Member α), e.members[i]? = some m ∧ m.thread.inside ∧
      ∃ c point next, m.thread = .within (.abort c) point next := by
  have kept := fresh.kept (P := Protocol.record) (fun _ raised => by cases raised) run
  obtain ⟨cause, set⟩ := Option.isSome_iff_exists.mp raised
  have shots := OneShot.kept_of_run (S := OneShot.abort) fresh run
  obtain ⟨i, m, present, gives | ⟨x, mem, said⟩⟩ := shots.gave (b := cause) set
  · -- It has recorded its cause, so that only before the stamp there is no time yet.
    have place := kept.allows i m present
    cases thread : m.thread with
    | between p =>
      rw [thread] at gives
      cases gives
    | within c point next =>
      rw [thread] at gives place
      cases c with
      | abort c =>
        cases point with
        | enter | look => cases gives
        | raise | stamp => exact ⟨i, m, present, by rw [thread]; rfl, c, _, next, thread⟩
        | notify => simpa [unstamped] using Signals.Stamped.time place
        | leave | enterSleepers | wake _ | leaveSleepers =>
          simpa [unstamped] using (Signals.Notified.toStamped place).time
      | _ => cases gives
  · have notified := (kept.said i x mem).raised (Option.isSome_of_eq_some said)
    simpa [unstamped] using notified.time

/-- While nobody is inside, an abort has its time. -/
theorem Run.stamped_of_free (fresh : Run.Fresh first threads) (run : Run follow first now e hs)
    (raised : e.signals.cause.isSome) (free : e.signals.holder = none) :
    e.signals.abortTime.isSome := by
  cases time : e.signals.abortTime with
  | some t => rfl
  | none =>
    obtain ⟨i, m, present, raises, -⟩ := run.exists_inside_of_unstamped fresh raised time
    have held := run.guarded fresh i m present raises
    rw [free] at held
    cases held

/-- Whoever is inside and does not raise the abort finds it with its time. -/
theorem Run.stamped_of_inside (fresh : Run.Fresh first threads) (run : Run follow first now e hs)
    (raised : e.signals.cause.isSome) (present : e.members[i]? = some m)
    (inSection : m.thread.inside)
    (other : ∀ c point next, m.thread ≠ .within (.abort c) point next) :
    e.signals.abortTime.isSome := by
  cases time : e.signals.abortTime with
  | some t => rfl
  | none =>
    obtain ⟨j, k, there, raises, c, point, next, thread⟩ :=
      run.exists_inside_of_unstamped fresh raised time
    have held := run.guarded fresh j k there raises
    have mine := run.guarded fresh i m present inSection
    rw [held, Option.some.injEq] at mine
    subst mine
    rw [there, Option.some.injEq] at present
    exact absurd (present ▸ thread) (other c point next)

end Ensemble

end LoadGen
