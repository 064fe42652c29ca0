import LoadGen.Proofs.Playback
import LoadGen.Proofs.SignalAgreement

namespace LoadGen

variable {α : Type}

namespace Call

/-- A sleep that has found the flag down and has not looked at it again. -/
def pastFlag : (c : Call) → c.Point → Bool
  | sleepUntil _, SleepPoint.checkClock | sleepUntil _, SleepPoint.park => true
  | _, _ => false

/-- The sleepers that an abort has still to give their tokens, once it has come to that. -/
def toWake? : (c : Call) → c.Point → Option (List Nat)
  | abort _, AbortPoint.wake left => some left
  | abort _, AbortPoint.leaveSleepers => some []
  | _, _ => none

def hasEnrolled : (c : Call) → c.Point → Bool
  | enrol, EnrolPoint.leave => true
  | _, _ => false

/-- What a step of a thread leaves of the sleepers and their tokens. -/
structure SleepersGrow (me : Nat) (s s' : Signals) : Prop where
  stay : ∀ i ∈ s.sleepers, i ∈ s'.sleepers
  others : ∀ i ≠ me, i ∈ s'.sleepers → i ∈ s.sleepers
  tokens : ∀ i ≠ me, i ∈ s.tokens → i ∈ s'.tokens

variable {c : Call} {me : Nat} {now : Stamp} {s s' : Signals} {point point' : c.Point}
  {reply : c.Reply}

theorem SleepersGrow.of_same (sleepers : s'.sleepers = s.sleepers) (tokens : s'.tokens = s.tokens) :
    SleepersGrow me s s' := by
  constructor
  · intro i mem
    rwa [sleepers]
  · intro i _ mem
    rwa [← sleepers]
  · intro i _ mem
    rwa [tokens]

theorem pastFlag_entry : c.pastFlag c.entry = false := by
  cases c <;> rfl

theorem toWake?_entry : c.toWake? c.entry = none := by
  cases c <;> rfl

theorem hasEnrolled_entry : c.hasEnrolled c.entry = false := by
  cases c <;> rfl

structure MoveWakes (c : Call) (me : Nat) (s s' : Signals) (point point' : c.Point) : Prop where
  grow : SleepersGrow me s s'
  past : c.pastFlag point' →
    (s.aborted = false ∨ c.pastFlag point) ∧ s'.sleepers = s.sleepers ∧ s'.tokens = s.tokens
  wakes : ∀ left', c.toWake? point' = some left' →
    (∀ i ∈ s'.sleepers, i ∈ left') ∨
      ∃ left, c.toWake? point = some left ∧ ∀ i ∈ left, i ∈ left' ∨ i ∈ s'.tokens
  enrolled : c.hasEnrolled point' → me ∈ s'.sleepers

theorem MoveWakes.of_same (sleepers : s'.sleepers = s.sleepers) (tokens : s'.tokens = s.tokens)
    (past : c.pastFlag point' → s.aborted = false ∨ c.pastFlag point)
    (wakes : c.toWake? point' = none) (enrolled : c.hasEnrolled point' = false) :
    MoveWakes c me s s' point point' where
  grow := .of_same sleepers tokens
  past raised := ⟨past raised, sleepers, tokens⟩
  wakes left' now := by
    rw [wakes] at now
    cases now
  enrolled now := by
    rw [enrolled] at now
    cases now

/-- Most steps have nothing to do with the sleepers. -/
theorem MoveWakes.of_quiet (sleepers : s'.sleepers = s.sleepers) (tokens : s'.tokens = s.tokens)
    (past : c.pastFlag point' = false) (wakes : c.toWake? point' = none)
    (enrolled : c.hasEnrolled point' = false) : MoveWakes c me s s' point point' := by
  refine .of_same sleepers tokens (fun pastFlag => ?_) wakes enrolled
  rw [past] at pastFlag
  cases pastFlag

theorem abort_moveWakes {cause : AbortCause} {p p' : AbortPoint}
    (moved : stepAbort cause me now s p = .moved s' p') :
    MoveWakes (.abort cause) me s s' p p' := by
  cases p with
  | enterSleepers =>
    simp only [stepAbort, enterSleepersSection] at moved
    split at moved <;> cases moved
    refine ⟨.of_same rfl rfl, (by cases ·), fun left' now => ?_, (by cases ·)⟩
    cases now
    exact Or.inl fun i mem => mem
  | wake left =>
    cases left with
    | nil =>
      cases moved
      refine ⟨.of_same rfl rfl, (by cases ·), fun left' now => ?_, (by cases ·)⟩
      exact Or.inr ⟨[], rfl, by simp⟩
    | cons sleeper left =>
      cases moved
      refine ⟨⟨fun i => id, fun i _ => id, fun i _ mem => ?_⟩, (by cases ·), fun left' now => ?_,
        (by cases ·)⟩
      · exact List.mem_cons_of_mem _ mem
      · cases now
        refine Or.inr ⟨_, rfl, fun i mem => ?_⟩
        rcases List.mem_cons.mp mem with rfl | later
        · exact Or.inr (by simp)
        · exact Or.inl later
  | _ =>
    simp only [stepAbort, enterSection] at moved
    (repeat' split at moved) <;> cases moved <;> exact .of_quiet rfl rfl rfl rfl rfl

theorem enrol_moveWakes {p p' : EnrolPoint} (moved : stepEnrol me s p = .moved s' p') :
    MoveWakes .enrol me s s' p p' := by
  cases p with
  | enter =>
    simp only [stepEnrol, enterSleepersSection] at moved
    split at moved <;> cases moved
    exact .of_quiet rfl rfl rfl rfl rfl
  | add =>
    cases moved
    refine ⟨⟨fun i mem => ?_, fun i other mem => ?_, fun i _ => id⟩, (by cases ·),
      (fun _ now => by cases now), fun _ => by simp⟩
    · simp [mem]
    · simpa [other] using mem
  | leave => cases moved

theorem sleep_moveWakes {t : Stamp} {p p' : SleepPoint}
    (moved : stepSleep t me now s p = .moved s' p') :
    MoveWakes (.sleepUntil t) me s s' p p' := by
  cases p with
  | checkFlag =>
    simp only [stepSleep] at moved
    split at moved
    next => cases moved
    next down =>
      cases moved
      exact .of_same rfl rfl (fun _ => Or.inl (by simpa using down)) rfl rfl
  | checkClock =>
    simp only [stepSleep] at moved
    split at moved <;> cases moved
    exact .of_same rfl rfl (fun _ => Or.inr rfl) rfl rfl
  | park =>
    simp only [stepSleep] at moved
    split at moved
    next =>
      cases moved
      refine ⟨⟨fun i => id, fun i _ => id, fun i other mem => ?_⟩, (by cases ·),
        (fun _ now => by cases now), (by cases ·)⟩
      exact List.mem_filter.mpr ⟨mem, by simpa using other⟩
    next =>
      split at moved <;> cases moved
      exact .of_quiet rfl rfl rfl rfl rfl

theorem moves_wakes (moved : c.Moves me now s s' point point') :
    MoveWakes c me s s' point point' := by
  cases c with
  | abort cause => exact abort_moveWakes moved
  | enrol => exact enrol_moveWakes moved
  | sleepUntil t => exact sleep_moveWakes moved
  | clock | isAborted | arrive => cases moved
  | awaitAll =>
    simp only [Moves, step] at moved
    split at moved <;> cases moved
  | _ =>
    cases point <;> simp only [Moves, step, stepPoll, stepAwait, stepFix, stepPass, guarded,
        enterSection] at moved <;>
      (repeat' split at moved) <;> cases moved <;> exact .of_quiet rfl rfl rfl rfl rfl

/-- Whoever is told that it has raised the abort has no sleeper left to wake. -/
theorem toWake?_of_raised (answered : c.Answers me now s s' point reply)
    (raised : (Exchange.raised? ⟨now, .call c, reply⟩).isSome) : c.toWake? point = some [] := by
  cases c with
  | abort cause =>
    cases point with
    | leaveSleepers => rfl
    | wake left => cases left <;> cases answered
    | _ =>
      simp only [Answers, step, stepAbort, enterSection, enterSleepersSection] at answered
      (repeat' split at answered) <;> cases answered <;> cases raised
  | _ => cases raised

theorem hasEnrolled_of_answers {s s' : Signals} {p : EnrolPoint}
    (answered : stepEnrol me s p = .answered s' ()) : hasEnrolled .enrol p := by
  cases p with
  | leave => rfl
  | enter =>
    simp only [stepEnrol, enterSleepersSection] at answered
    split at answered <;> cases answered
  | add => cases answered

end Call

namespace Thread

open Call

def pastFlag : Thread α → Bool
  | between _ => false
  | within c point _ => c.pastFlag point

def toWake? : Thread α → Option (List Nat)
  | between _ => none
  | within c point _ => c.toWake? point

def hasEnrolled : Thread α → Bool
  | between _ => false
  | within c point _ => c.hasEnrolled point

def isParked : Thread α → Bool
  | within (.sleepUntil _) SleepPoint.park _ => true
  | _ => false

def isWaiting : Thread α → Bool
  | within .awaitStart AwaitPoint.wait _ => true
  | _ => false

variable {thread : Thread α} {c : Call} {point : c.Point} {next : c.Reply → Program α}

theorem At.exchange?_eq (stands : thread.At c point next) {me : Nat} {now : Stamp} {s : Signals} :
    thread.exchange? me now s = exchange?.answer me now s c point := by
  cases stands <;> rfl

theorem pastFlag_of_at (stands : thread.At c point next) : thread.pastFlag = c.pastFlag point := by
  cases stands with
  | entry => exact Call.pastFlag_entry.symm
  | inside => rfl

theorem toWake?_of_at (stands : thread.At c point next) : thread.toWake? = c.toWake? point := by
  cases stands with
  | entry => exact Call.toWake?_entry.symm
  | inside => rfl

theorem hasEnrolled_of_at (stands : thread.At c point next) :
    thread.hasEnrolled = c.hasEnrolled point := by
  cases stands with
  | entry => exact Call.hasEnrolled_entry.symm
  | inside => rfl

theorem pastFlag_of_isParked (parked : thread.isParked) : thread.pastFlag := by
  unfold isParked at parked
  split at parked
  next => rfl
  next => cases parked

end Thread

def Exchange.enrols : Exchange → Bool
  | ⟨_, .call .enrol, _⟩ => true
  | _ => false

def History.Enrolled (h : History) : Prop := ∃ x ∈ h, x.enrols

namespace Ensemble

open Call History

variable {follow : α → Option (Program α)} {first e e' : Ensemble α} {i threads : Nat}
  {now : Stamp} {s s' : Signals} {m m' : Member α} {x : Option Exchange} {hs : Nat → History}

/-- What a step of a member does to the sleepers, with the exchange it completes. -/
structure TakeWakes (me : Nat) (s s' : Signals) (m m' : Member α) (x : Option Exchange) :
    Prop where
  grow : SleepersGrow me s s'
  past : m'.thread.pastFlag →
    (s.aborted = false ∨ m.thread.pastFlag) ∧ s'.sleepers = s.sleepers ∧ s'.tokens = s.tokens
  wakes : ∀ left', m'.thread.toWake? = some left' →
    (∀ i ∈ s'.sleepers, i ∈ left') ∨
      ∃ left, m.thread.toWake? = some left ∧ ∀ i ∈ left, i ∈ left' ∨ i ∈ s'.tokens
  raised : ∀ y ∈ x, y.raised?.isSome → m.thread.toWake? = some []
  entered : m'.thread.hasEnrolled → me ∈ s'.sleepers
  enrolled : ∀ y ∈ x, y.enrols → m.thread.hasEnrolled

theorem takes_wakes (takes : Member.Takes follow i now s m s' m' x) :
    TakeWakes i s s' m m' x := by
  cases takes with
  | follow _ =>
    exact ⟨.of_same rfl rfl, (by cases ·), (fun _ now => by cases now), by simp, (by cases ·),
      by simp⟩
  | emit =>
    refine ⟨.of_same rfl rfl, (by cases ·), (fun _ now => by cases now), fun y done raised => ?_,
      (by cases ·), fun y done enrols => ?_⟩
    · cases done
      cases raised
    · cases done
      cases enrols
  | move stands moved =>
    obtain ⟨grow, past, wakes, enrolled⟩ := moves_wakes moved
    refine ⟨grow, fun now => ?_, fun left' now => ?_, by simp, enrolled, by simp⟩
    · rw [Thread.pastFlag_of_at stands]
      exact past now
    · rw [Thread.toWake?_of_at stands]
      exact wakes left' now
  | @answer thread c point reply next events s' stands answered =>
    have same : s'.sleepers = s.sleepers ∧ s'.tokens = s.tokens := by
      obtain ⟨_, _, _, rfl⟩ := answers_frame answered
      exact ⟨rfl, rfl⟩
    refine ⟨.of_same same.1 same.2, (by cases ·), (fun _ now => by cases now),
      fun y done raised => ?_, (by cases ·), fun y done enrols => ?_⟩
    · cases done
      rw [Thread.toWake?_of_at stands]
      exact toWake?_of_raised answered raised
    · cases done
      rw [Thread.hasEnrolled_of_at stands]
      cases c with
      | enrol => exact hasEnrolled_of_answers answered
      | _ => cases enrols

/-- Whoever has enrolled is in the list of sleepers. -/
structure Listed (e : Ensemble α) (hs : Nat → History) : Prop where
  entered : ∀ (i : Nat) (m : Member α), e.members[i]? = some m → m.thread.hasEnrolled →
    i ∈ e.signals.sleepers
  enrolled : ∀ i, (hs i).Enrolled → i ∈ e.signals.sleepers

theorem Listed.step (listed : e.Listed hs) (stepped : Stepped follow i now e m m' s' x) :
    (e.withMember i s' m').Listed (e.record hs i now) := by
  obtain ⟨present, takes, completes⟩ := stepped
  obtain ⟨grow, -, -, -, entered, enrolled⟩ := takes_wakes takes
  refine ⟨fun j k there has => ?_, fun j enrols => ?_⟩
  · rw [getElem?_withMember present] at there
    split at there
    next same =>
      cases there
      exact same ▸ entered has
    next => exact grow.stay j (listed.entered j k there has)
  · obtain ⟨y, mem, request⟩ := enrols
    rw [record_eq completes] at mem
    split at mem
    next same =>
      subst same
      rcases List.mem_append.mp mem with latest | old
      · have has := enrolled y (Option.mem_toList.mp latest) request
        exact grow.stay j (listed.entered j m present has)
      · exact grow.stay j (listed.enrolled j ⟨y, old, request⟩)
    next => exact grow.stay j (listed.enrolled j ⟨y, mem, request⟩)

theorem Run.listed (fresh : Run.Fresh first threads) (run : Run follow first now e hs) :
    e.Listed hs := by
  induction run with
  | start =>
    refine ⟨fun i m present has => ?_, fun i enrols => ?_⟩
    · obtain ⟨p, idle⟩ := fresh.idle i m present
      rw [idle] at has
      cases has
    · obtain ⟨y, mem, -⟩ := enrols
      cases mem
  | wait _ _ ih => exact ih
  | step i _ stepped ih =>
    obtain ⟨m, m', s', x, taken, rfl⟩ := exists_stepped stepped
    exact ih.step taken

/-- A listed thread that sleeps past its look at the flag has a token, or is still to be given one
by everybody who has begun to wake the sleepers. -/
structure Woken (e : Ensemble α) (hs : Nat → History) (i : Nat) : Prop where
  soon : ∀ (j : Nat) (m : Member α) left, e.members[j]? = some m → m.thread.toWake? = some left →
    i ∈ left ∨ i ∈ e.signals.tokens
  done : ∀ j, ∀ x ∈ hs j, x.raised?.isSome → i ∈ e.signals.tokens

/-- Nobody has begun to wake the sleepers while the flag is down. -/
theorem woken_of_clear (kept : Protocol.record.Kept now e hs) (down : e.signals.aborted = false) :
    e.Woken hs i := by
  refine ⟨fun j m left there wakes => ?_, fun j x mem raised => ?_⟩
  · have place := kept.allows j m there
    cases thread : m.thread with
    | between p =>
      rw [thread] at wakes
      cases wakes
    | within c point next =>
      rw [thread] at wakes place
      cases c with
      | abort cause =>
        cases point with
        | wake _ | leaveSleepers =>
          have notified : e.signals.Notified := place
          simp [notified.flag] at down
        | _ => cases wakes
      | _ => cases wakes
  · have notified := (kept.said j x mem).raised raised
    simp [notified.flag] at down

theorem Woken.step {me : Nat} (woken : e.Woken hs i)
    (stepped : Stepped follow me now e m m' s' x) (listed : i ∈ s'.sleepers)
    (token : i ∈ e.signals.tokens → i ∈ s'.tokens) :
    (e.withMember me s' m').Woken (e.record hs me now) i := by
  obtain ⟨present, takes, completes⟩ := stepped
  obtain ⟨-, -, wakes, raised, -, -⟩ := takes_wakes takes
  refine ⟨fun j k left there now => ?_, fun j y mem has => ?_⟩
  · change i ∈ left ∨ i ∈ s'.tokens
    rw [getElem?_withMember present] at there
    split at there
    next =>
      cases there
      -- A thread that begins to wake the sleepers has the whole list before it.
      rcases wakes left now with all | ⟨before, was, hands⟩
      · exact Or.inl (all i listed)
      · rcases woken.soon me m before present was with waits | has
        · exact hands i waits
        · exact Or.inr (token has)
    next => exact (woken.soon j k left there now).imp_right token
  · change i ∈ s'.tokens
    rw [record_eq completes] at mem
    split at mem
    next =>
      rcases List.mem_append.mp mem with latest | old
      · have nobody := raised y (Option.mem_toList.mp latest) has
        rcases woken.soon me m [] present nobody with waits | has
        · cases waits
        · exact token has
      · exact token (woken.done me y old has)
    next => exact token (woken.done j y mem has)

/-- A thread that sleeps past its look at the flag will be woken or has its token. -/
theorem Run.woken (fresh : Run.Fresh first threads) (run : Run follow first now e hs)
    (present : e.members[i]? = some m) (past : m.thread.pastFlag)
    (listed : i ∈ e.signals.sleepers) : e.Woken hs i := by
  induction run generalizing m with
  | start =>
    obtain ⟨p, idle⟩ := fresh.idle i m present
    rw [idle] at past
    cases past
  | wait _ _ ih => exact ih present past listed
  | @step t e e' hs me run stepped ih =>
    obtain ⟨k, k', s', x, taken, rfl⟩ := exists_stepped stepped
    have wakes := takes_wakes taken.takes
    rw [getElem?_withMember taken.present] at present
    split at present
    next same =>
      subst same
      cases present
      -- It has looked at the flag just now, or has slept on: the list and the tokens are as before.
      obtain ⟨before, sleepers, tokens⟩ := wakes.past past
      have was : i ∈ e.signals.sleepers := sleepers ▸ listed
      have woken : e.Woken hs i := by
        rcases before with down | before
        · exact woken_of_clear (run.recorded fresh) down
        · exact ih taken.present before was
      exact woken.step taken listed fun token => tokens ▸ token
    next other =>
      have was : i ∈ e.signals.sleepers := wakes.grow.others i other listed
      exact (ih present past was).step taken listed (wakes.grow.tokens i other)

theorem isSome_step_of_moves (present : e.members[i]? = some m) {c : Call} {point point' : c.Point}
    {next : c.Reply → Program α} (thread : m.thread = .within c point next)
    (moved : c.Moves i now e.signals s' point point') : (e.step follow i now).isSome := by
  have idle : m.stage? = none := by
    rw [Member.stage?, thread]
    rfl
  have steps : m.thread.step i now e.signals = some (s', .within c point' next, none) := by
    rw [thread]
    simp only [Thread.step, Thread.stepCall]
    rw [moved]
  simp [step, attempt, present, Member.step, idle, steps]

/-- A sleeper with a token goes on at once. -/
theorem isSome_step_of_token (present : e.members[i]? = some m) (parked : m.thread.isParked)
    (token : i ∈ e.signals.tokens) : (e.step follow i now).isSome := by
  unfold Thread.isParked at parked
  split at parked
  next t next thread =>
    have moved : (Call.sleepUntil t).Moves i now e.signals
        { e.signals with tokens := e.signals.tokens.filter (· != i) }
        SleepPoint.park SleepPoint.checkFlag := by
      simp only [Moves, Call.step, stepSleep, if_pos token]
    exact isSome_step_of_moves present thread moved
  next => cases parked

/-- Whoever has been notified looks again for the start. -/
theorem isSome_step_of_notified (present : e.members[i]? = some m) (waiting : m.thread.isWaiting)
    (notified : i ∉ e.signals.waiting) : (e.step follow i now).isSome := by
  unfold Thread.isWaiting at waiting
  split at waiting
  next next thread =>
    have moved : Call.awaitStart.Moves i now e.signals e.signals AwaitPoint.wait
        AwaitPoint.enter := by
      simp only [Moves, Call.step, stepAwait, if_neg notified]
    exact isSome_step_of_moves present thread moved
  next => cases waiting

/-- Nobody waits in vain: sleepers have their tokens, and nobody who waits for the start has still
to be notified, so that all of them can go on at once. -/
structure AllAwake (follow : α → Option (Program α)) (e : Ensemble α) (hs : Nat → History) :
    Prop where
  sleepers : ∀ (i : Nat) (m : Member α), e.members[i]? = some m → m.thread.isParked →
    (hs i).Enrolled → i ∈ e.signals.tokens ∧ ∀ clock, (e.step follow i clock).isSome
  starters : ∀ (i : Nat) (m : Member α), e.members[i]? = some m → m.thread.isWaiting →
    i ∉ e.signals.waiting ∧ ∀ clock, (e.step follow i clock).isSome

/-- Once an abort has been raised, everybody who waits has been woken. -/
theorem Run.allAwake (fresh : Run.Fresh first threads) (run : Run follow first now e hs) {j : Nat}
    {x : Exchange} (mem : x ∈ hs j) (raised : x.raised?.isSome) : e.AllAwake follow hs := by
  constructor
  · intro i m present parked enrolled
    have listed := (run.listed fresh).enrolled i enrolled
    have woken := run.woken fresh present (Thread.pastFlag_of_isParked parked) listed
    have token := woken.done j x mem raised
    exact ⟨token, fun _ => isSome_step_of_token present parked token⟩
  · intro i m present waiting
    have nobody := (((run.recorded fresh).said j x mem).raised raised).nobody
    have notified : i ∉ e.signals.waiting := by simp [nobody]
    exact ⟨notified, fun _ => isSome_step_of_notified present waiting notified⟩

/-- Whoever looks at the raised flag before it sleeps is told that its wait is cancelled, whatever
the clock shows. -/
theorem exchange?_of_raised (raised : e.signals.aborted) (present : e.members[i]? = some m)
    {t : Stamp} {next : Wait → Program α}
    (stands : m.thread.At (.sleepUntil t) SleepPoint.checkFlag next) :
    e.exchange? i now = some ⟨now, .call (.sleepUntil t), Wait.cancelled⟩ ∧
      (e.step follow i now).isSome := by
  have answers : Call.step i now e.signals (.sleepUntil t) SleepPoint.checkFlag =
      .answered e.signals Wait.cancelled := by
    simp only [Call.step, stepSleep, if_pos raised]
  constructor
  · simp only [exchange?, present, Option.bind_some, stands.exchange?_eq, Thread.exchange?.answer,
      answers]
  · have steps : m.thread.step i now e.signals =
        some (e.signals, .between (next Wait.cancelled), none) := by
      simp only [stands.step_eq, Thread.stepCall, answers]
    simp [step, attempt, present, Member.step, Member.stage?, stands.result?_eq, steps]

end Ensemble

open Ensemble Call in
/-- No wake-up is lost on an abort: when it has been raised, no sleeper is parked without a token
and nobody waits for the start without having been notified; and whoever looks at the raised flag is
told that the run is aborted, even if the time to sleep until has passed. -/
theorem wakes_everybody {follow : α → Option (Program α)} {first e : Ensemble α} {threads : Nat}
    {now : Stamp} {hs : Nat → History} (fresh : Run.Fresh first threads)
    (run : Run follow first now e hs) :
    ((∃ j, ∃ x ∈ hs j, x.raised?.isSome) → e.AllAwake follow hs) ∧
    (e.signals.aborted → ∀ {later e' hs'}, Continues follow now e hs later e' hs' →
      ∀ (i : Nat) (m : Member α) t next, e'.members[i]? = some m →
        m.thread.At (.sleepUntil t) SleepPoint.checkFlag next → ∀ clock,
          e'.exchange? i clock = some ⟨clock, .call (.sleepUntil t), Wait.cancelled⟩ ∧
            (e'.step follow i clock).isSome) := by
  refine ⟨fun raised => ?_, fun raised _ _ _ goes i m t next present stands clock => ?_⟩
  · obtain ⟨j, x, mem, raised⟩ := raised
    exact run.allAwake fresh mem raised
  · obtain ⟨still, -⟩ := run.flag_lasts fresh raised goes
    exact exchange?_of_raised still present stands

/-- A sleeper that enrols, a thread that waits for the start, and one that aborts. -/
def sleeperAndStarter : Ensemble Unit :=
  let sleeping : Program Unit := do
    Program.enrol
    let _ ← Program.sleepUntil 10
  let starting : Program Unit := do
    let _ ← Program.awaitStart
  let aborting : Program Unit := do
    let _ ← Program.abort ⟨2, "op", "cause"⟩
  ⟨Signals.fresh 0, #[.ofProgram sleeping, .ofProgram starting, .ofProgram aborting]⟩

theorem sleeperAndStarter_fresh : Ensemble.Run.Fresh sleeperAndStarter 0 := by
  refine ⟨rfl, fun i m present => ?_⟩
  have member : m ∈ sleeperAndStarter.members.toList := by
    simpa using Array.mem_of_getElem? present
  simp only [sleeperAndStarter, List.mem_cons, List.not_mem_nil, or_false] at member
  rcases member with rfl | rfl | rfl <;> exact ⟨_, rfl⟩

/-- The abort finds one thread parked and one waiting, and leaves both of them free to go on. -/
theorem wakes_everybody_parked : ∃ now e hs m k,
    Ensemble.Run (fun _ => none) sleeperAndStarter now e hs ∧ e.members[0]? = some m ∧
      e.members[1]? = some k ∧ m.thread.isParked ∧ k.thread.isWaiting ∧
      (∃ x ∈ hs 2, x.raised?.isSome) ∧ 0 ∈ e.signals.tokens ∧ 1 ∉ e.signals.waiting ∧
      (e.step (fun _ => none) 0 0).isSome ∧ (e.step (fun _ => none) 1 0).isSome := by
  let order : List (Stamp × Nat) :=
    List.replicate 5 (0, 0) ++ List.replicate 2 (0, 1) ++ List.replicate 10 (0, 2)
  have passed : Ensemble.Run.reached (fun e hs => decide (
      (e.members[0]?.any fun m => m.thread.isParked) ∧
      (e.members[1]?.any fun m => m.thread.isWaiting) ∧
      ((hs 0).any fun x => x.enrols) ∧
      ((hs 2).any fun x => x.raised?.isSome)))
      (Ensemble.Run.play (fun _ => none) order 0 sleeperAndStarter fun _ => []) = true := by
    decide +kernel
  obtain ⟨now, e, hs, run, passed⟩ := Ensemble.Run.exists_of_reached passed
  obtain ⟨parked, waiting, enrolled, raised⟩ := of_decide_eq_true passed
  obtain ⟨m, first, parked⟩ := (Option.any_eq_true _ _).mp parked
  obtain ⟨k, second, waiting⟩ := (Option.any_eq_true _ _).mp waiting
  obtain ⟨x, mem, raised⟩ := List.any_eq_true.mp raised
  have awake := (wakes_everybody sleeperAndStarter_fresh run).1 ⟨2, x, mem, raised⟩
  obtain ⟨token, goesOn⟩ := awake.sleepers 0 m first parked (List.any_eq_true.mp enrolled)
  obtain ⟨notified, looks⟩ := awake.starters 1 k second waiting
  exact ⟨now, e, hs, m, k, run, first, second, parked, waiting, ⟨x, mem, raised⟩, token, notified,
    goesOn 0, looks 0⟩

end LoadGen
