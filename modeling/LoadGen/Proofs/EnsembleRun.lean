import LoadGen.Ensemble
import LoadGen.Proofs.ProgramLogic
import Mathlib.Logic.Function.Basic

namespace LoadGen

variable {α : Type}

namespace Call

/-- The step of a call that takes the memory from `s` to `s'` and stays within the call. -/
def Moves (c : Call) (me : Nat) (now : Stamp) (s s' : Signals) (point point' : c.Point) : Prop :=
  c.step me now s point = .moved s' point'

/-- The step of a call that takes the memory from `s` to `s'` and gives the reply. -/
def Answers (c : Call) (me : Nat) (now : Stamp) (s s' : Signals) (point : c.Point)
    (reply : c.Reply) : Prop :=
  c.step me now s point = .answered s' reply

/-- The memory after a step, if the step is possible. -/
def Progress.signals? {c : Call} : Progress c → Option Signals
  | .blocked => none
  | .moved s _ | .answered s _ => some s

variable {c : Call} {me : Nat} {now : Stamp} {s s' : Signals} {point point' : c.Point}
  {reply : c.Reply}

theorem Moves.signals? (moved : c.Moves me now s s' point point') :
    (c.step me now s point).signals? = some s' := by
  rw [moved]
  rfl

theorem Answers.signals? (answered : c.Answers me now s s' point reply) :
    (c.step me now s point).signals? = some s' := by
  rw [answered]
  rfl

/-- Each part of the memory is changed by one kind of call alone. -/
structure Keeps (c : Call) (s s' : Signals) : Prop where
  start : (∀ t, c ≠ .fixStart t) →
    s'.start = s.start ∧ s'.startCell = s.startCell ∧ s'.startFixed = s.startFixed
  abort : (∀ cause, c ≠ .abort cause) →
    s'.cause = s.cause ∧ s'.aborted = s.aborted ∧ s'.abortTime = s.abortTime
  uninitialized : c ≠ .arrive → s'.uninitialized = s.uninitialized

theorem step_keeps (stepped : (c.step me now s point).signals? = some s') : c.Keeps s s' := by
  cases c with
  | fixStart t =>
    cases point <;> simp only [step, stepFix, enterSection, leaveSection] at stepped <;>
      (repeat' split at stepped) <;> cases stepped <;>
        exact ⟨fun other => absurd rfl (other t), fun _ => ⟨rfl, rfl, rfl⟩, fun _ => rfl⟩
  | abort cause =>
    cases point <;>
      simp only [step, stepAbort, enterSection, enterSleepersSection, leaveSection] at stepped <;>
      (repeat' split at stepped) <;> cases stepped <;>
        exact ⟨fun _ => ⟨rfl, rfl, rfl⟩, fun other => absurd rfl (other cause), fun _ => rfl⟩
  | arrive =>
    cases stepped
    exact ⟨fun _ => ⟨rfl, rfl, rfl⟩, fun _ => ⟨rfl, rfl, rfl⟩, fun other => absurd rfl other⟩
  | clock | isAborted =>
    cases stepped
    exact ⟨fun _ => ⟨rfl, rfl, rfl⟩, fun _ => ⟨rfl, rfl, rfl⟩, fun _ => rfl⟩
  | _ =>
    cases point <;> simp only [step, stepPoll, stepAwait, stepEnrol, stepSleep, stepPass, guarded,
        enterSection, enterSleepersSection, leaveSection] at stepped <;>
      (repeat' split at stepped) <;> cases stepped <;>
        exact ⟨fun _ => ⟨rfl, rfl, rfl⟩, fun _ => ⟨rfl, rfl, rfl⟩, fun _ => rfl⟩

/-- The step that gives the reply changes only who is inside of the sections and how many threads
are uninitialized. -/
theorem answers_frame (answered : c.Answers me now s s' point reply) :
    ∃ holder sleepersHolder uninitialized, s' = { s with
      holder := holder, sleepersHolder := sleepersHolder, uninitialized := uninitialized } := by
  cases c with
  | clock | isAborted | arrive =>
    cases answered
    exact ⟨_, _, _, rfl⟩
  | awaitAll =>
    simp only [Answers, step] at answered
    split at answered <;> cases answered
    exact ⟨_, _, _, rfl⟩
  | abort cause =>
    cases point with
    | wake left => cases left <;> cases answered
    | _ =>
      simp only [Answers, step, stepAbort, enterSection, enterSleepersSection] at answered
      (repeat' split at answered) <;> cases answered <;> exact ⟨_, _, _, rfl⟩
  | _ =>
    cases point <;> simp only [Answers, step, stepPoll, stepAwait, stepFix, stepEnrol, stepSleep,
        stepPass, guarded, enterSection, enterSleepersSection] at answered <;>
      (repeat' split at answered) <;> cases answered <;> exact ⟨_, _, _, rfl⟩

end Call

namespace Thread

/-- The thread stands at a place within a call, perhaps at its beginning. -/
inductive At : Thread α → (c : Call) → c.Point → (c.Reply → Program α) → Prop
  | entry {c : Call} {next : c.Reply → Program α} :
      At (.between (.ask (.call c) next)) c c.entry next
  | inside {c : Call} {point : c.Point} {next : c.Reply → Program α} :
      At (.within c point next) c point next

/-- What is left of the thread's program. -/
def rest : Thread α → Program α
  | between p => p
  | within c _ next => .ask (.call c) next

theorem At.rest {thread : Thread α} {c : Call} {point : c.Point} {next : c.Reply → Program α}
    (stands : thread.At c point next) : thread.rest = .ask (.call c) next := by
  cases stands <;> rfl

theorem At.result?_eq {thread : Thread α} {c : Call} {point : c.Point}
    {next : c.Reply → Program α} (stands : thread.At c point next) : thread.result? = none := by
  cases stands <;> rfl

theorem At.step_eq {thread : Thread α} {c : Call} {point : c.Point}
    {next : c.Reply → Program α} (stands : thread.At c point next) {me : Nat} {now : Stamp}
    {s : Signals} : thread.step me now s = Thread.stepCall me now s c point next := by
  cases stands <;> rfl

/-- The exchange that the next step of a thread completes, if it completes one. -/
def exchange? (me : Nat) (now : Stamp) (s : Signals) : Thread α → Option Exchange
  | between (.done _) => none
  | between (.ask (.emit e) _) => some ⟨now, .emit e, ()⟩
  | between (.ask (.call c) _) => answer c c.entry
  | within c point _ => answer c point
where
  answer (c : Call) (point : c.Point) : Option Exchange :=
    match c.step me now s point with
    | .answered _ reply => some ⟨now, .call c, reply⟩
    | _ => none

end Thread

namespace Member

theorem thread_of_stage {m : Member α} {stage : α} (staged : m.stage? = some stage) :
    m.thread = .between (.done stage) := by
  unfold stage? Thread.result? at staged
  split at staged
  next thread =>
    cases staged
    exact thread
  next => cases staged

/-- What one step of a member does to the memory and the member, and the exchange it completes. -/
inductive Takes (follow : α → Option (Program α)) (me : Nat) (now : Stamp) (s : Signals) :
    Member α → Signals → Member α → Option Exchange → Prop
  | follow {stage : α} {p : Program α} {events : List Event} : follow stage = some p →
      Takes follow me now s ⟨.between (.done stage), events⟩ s ⟨.between p, events⟩ none
  | emit {e : Event} {next : Unit → Program α} {events : List Event} :
      Takes follow me now s ⟨.between (.ask (.emit e) next), events⟩ s
        ⟨.between (next ()), e :: events⟩ (some ⟨now, .emit e, ()⟩)
  | move {thread : Thread α} {c : Call} {point point' : c.Point} {next : c.Reply → Program α}
      {events : List Event} {s' : Signals} : thread.At c point next →
      c.Moves me now s s' point point' →
      Takes follow me now s ⟨thread, events⟩ s' ⟨.within c point' next, events⟩ none
  | answer {thread : Thread α} {c : Call} {point : c.Point} {reply : c.Reply}
      {next : c.Reply → Program α} {events : List Event} {s' : Signals} : thread.At c point next →
      c.Answers me now s s' point reply →
      Takes follow me now s ⟨thread, events⟩ s' ⟨.between (next reply), events⟩
        (some ⟨now, .call c, reply⟩)

variable {follow : α → Option (Program α)} {me : Nat} {now : Stamp} {s s' : Signals}
  {m m' : Member α}

theorem takes_of_stepCall {thread thread' : Thread α} {c : Call} {point : c.Point}
    {next : c.Reply → Program α} {event : Option Event} (follow : α → Option (Program α))
    (events : List Event) (stands : thread.At c point next)
    (stepped : Thread.stepCall me now s c point next = some (s', thread', event)) :
    event = none ∧ Takes follow me now s ⟨thread, events⟩ s' ⟨thread', events⟩
      (Thread.exchange?.answer me now s c point) := by
  unfold Thread.stepCall at stepped
  unfold Thread.exchange?.answer
  cases taken : c.step me now s point with
  | blocked => simp [taken] at stepped
  | moved s point' =>
    simp only [taken, Option.some.injEq, Prod.mk.injEq] at stepped
    obtain ⟨rfl, rfl, rfl⟩ := stepped
    exact ⟨rfl, .move stands taken⟩
  | answered s reply =>
    simp only [taken, Option.some.injEq, Prod.mk.injEq] at stepped
    obtain ⟨rfl, rfl, rfl⟩ := stepped
    exact ⟨rfl, .answer stands taken⟩

theorem takes_of_at {thread : Thread α} {c : Call} {point : c.Point}
    {next : c.Reply → Program α} {events : List Event} (stands : thread.At c point next)
    (stepped : Member.step follow me now s ⟨thread, events⟩ = some (s', m')) :
    Takes follow me now s ⟨thread, events⟩ s' m' (Thread.exchange?.answer me now s c point) := by
  simp only [Member.step, Member.stage?, stands.result?_eq, stands.step_eq] at stepped
  cases taken : Thread.stepCall me now s c point next with
  | none => simp [taken] at stepped
  | some step =>
    obtain ⟨signals, thread', event⟩ := step
    obtain ⟨rfl, takes⟩ := takes_of_stepCall follow events stands taken
    simp only [taken, Option.some.injEq, Prod.mk.injEq] at stepped
    obtain ⟨rfl, rfl⟩ := stepped
    exact takes

/-- A step of a member is one of four. -/
theorem takes_of_step (stepped : m.step follow me now s = some (s', m')) :
    Takes follow me now s m s' m' (m.thread.exchange? me now s) := by
  obtain ⟨thread, events⟩ := m
  cases thread with
  | within c point next => exact takes_of_at .inside stepped
  | between p =>
    cases p with
    | done stage =>
      simp only [Member.step, Member.stage?, Thread.result?, Option.map_eq_some_iff,
        Prod.mk.injEq] at stepped
      obtain ⟨p, next, rfl, rfl⟩ := stepped
      exact .follow next
    | ask request next =>
      cases request with
      | emit e =>
        simp only [Member.step, Member.stage?, Thread.result?, Thread.step, Option.some.injEq,
          Prod.mk.injEq] at stepped
        obtain ⟨rfl, rfl⟩ := stepped
        exact .emit
      | call c => exact takes_of_at .entry stepped

end Member

namespace Ensemble

variable {follow : α → Option (Program α)} {first e e' : Ensemble α} {i : Nat} {t : Stamp}

/-- The exchange that the next step of a member completes, if it completes one. -/
def exchange? (e : Ensemble α) (i : Nat) (now : Stamp) : Option Exchange :=
  e.members[i]?.bind fun m => m.thread.exchange? i now e.signals

/-- The histories of all members after one of them has taken a step. -/
def record (e : Ensemble α) (hs : Nat → History) (i : Nat) (now : Stamp) : Nat → History :=
  Function.update hs i ((e.exchange? i now).toList ++ hs i)

/-- The runs from an ensemble: the clock reading, the ensemble and the histories of its members. -/
inductive Run (follow : α → Option (Program α)) (first : Ensemble α) :
    Stamp → Ensemble α → (Nat → History) → Prop
  | start (t : Stamp) : Run follow first t first fun _ => []
  | wait {t later : Stamp} {e : Ensemble α} {hs : Nat → History} : Run follow first t e hs →
      t ≤ later → Run follow first later e hs
  | step {t : Stamp} {e e' : Ensemble α} {hs : Nat → History} (i : Nat) : Run follow first t e hs →
      e.step follow i t = some e' → Run follow first t e' (e.record hs i t)

theorem exists_of_step (stepped : e.step follow i t = some e') :
    ∃ m m' s', e.members[i]? = some m ∧ e' = e.withMember i s' m' ∧
      Member.Takes follow i t e.signals m s' m' (e.exchange? i t) := by
  unfold step attempt at stepped
  cases present : e.members[i]? with
  | none => simp [present] at stepped
  | some m =>
    simp only [present, Option.map_eq_some_iff, Prod.exists] at stepped
    obtain ⟨s', m', taken, rfl⟩ := stepped
    refine ⟨m, m', s', rfl, rfl, ?_⟩
    rw [exchange?, present]
    exact Member.takes_of_step taken

theorem getElem?_withMember {m m' : Member α} {s' : Signals} (present : e.members[i]? = some m)
    (j : Nat) : (e.withMember i s' m').members[j]? = if j = i then some m' else e.members[j]? := by
  obtain ⟨inside, -⟩ := Array.getElem?_eq_some_iff.mp present
  rw [withMember, Array.getElem?_setIfInBounds]
  by_cases same : j = i
  · subst same
    simp [inside]
  · rw [if_neg same, if_neg (Ne.symm same)]

theorem record_of_ne {hs : Nat → History} {j : Nat} (other : j ≠ i) :
    e.record hs i t j = hs j := Function.update_of_ne other _ _

theorem record_self {hs : Nat → History} :
    e.record hs i t i = (e.exchange? i t).toList ++ hs i := Function.update_self _ _ _

end Ensemble

theorem Member.Takes.time {follow : α → Option (Program α)} {me : Nat} {now : Stamp}
    {s s' : Signals} {m m' : Member α} {x : Exchange}
    (takes : Takes follow me now s m s' m' (some x)) : x.time = now := by
  cases takes <;> rfl

theorem Member.Takes.course {follow : α → Option (Program α)} {me : Nat} {now : Stamp}
    {s s' : Signals} {m m' : Member α} {x : Option Exchange} {first : Program α} {h : History}
    (takes : Takes follow me now s m s' m' x) (course : Course follow first m.thread.rest h) :
    Course follow first m'.thread.rest (x.toList ++ h) := by
  cases takes with
  | follow next => exact .follow course next
  | emit => exact .answer now (show (Request.emit _).Reply from ()) course
  | move stands _ =>
    rw [stands.rest] at course
    exact course
  | answer stands _ =>
    rw [stands.rest] at course
    exact .answer now _ course

namespace Ensemble.Run

variable {follow : α → Option (Program α)} {first e : Ensemble α} {t : Stamp} {hs : Nat → History}

/-- The way of every member is a course from where it began. -/
theorem course (run : Run follow first t e hs) {i : Nat} {m : Member α}
    (present : e.members[i]? = some m) : ∃ begun, first.members[i]? = some begun ∧
      Course follow begun.thread.rest m.thread.rest (hs i) := by
  induction run generalizing m with
  | start => exact ⟨m, present, .start⟩
  | wait _ _ ih => exact ih present
  | @step t e e' hs j run stepped ih =>
    obtain ⟨m₁, m₂, s', there, rfl, takes⟩ := exists_of_step stepped
    rw [getElem?_withMember there] at present
    by_cases same : i = j
    · subst same
      rw [if_pos rfl, Option.some.injEq] at present
      subst present
      obtain ⟨begun, began, course⟩ := ih there
      -- The member that has stepped goes on by what the step adds; the others stay where they are.
      exact ⟨begun, began, by simpa only [record_self] using takes.course course⟩
    · rw [if_neg same] at present
      obtain ⟨begun, began, course⟩ := ih present
      exact ⟨begun, began, by rwa [record_of_ne same]⟩

theorem eq_nil_of_absent (run : Run follow first t e hs) {i : Nat} (absent : e.members[i]? = none) :
    hs i = [] := by
  induction run with
  | start => rfl
  | wait _ _ ih => exact ih absent
  | @step t e e' hs j run stepped ih =>
    obtain ⟨m₁, m₂, s', there, rfl, takes⟩ := exists_of_step stepped
    rw [getElem?_withMember there] at absent
    by_cases same : i = j
    · simp [same] at absent
    · rw [if_neg same] at absent
      rw [record_of_ne same]
      exact ih absent

end Ensemble.Run

end LoadGen
