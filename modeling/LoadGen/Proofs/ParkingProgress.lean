import LoadGen.Proofs.PendingInvocations
import LoadGen.Proofs.Playback

namespace LoadGen

open Program History

namespace LoadSchedule

/-- The place in the list of the level that is in force at a time, the levels given starting at
`boundary`. -/
def placeFrom (boundary elapsed : Stamp) : List LoadLevel → Nat
  | [] | [_] => 0
  | level :: rest =>
    let boundary := Stamp.plus boundary (Stamp.ofSpan level.duration)
    if elapsed < boundary then 0 else placeFrom boundary elapsed rest + 1

/-- The place in the schedule of the level that is in force when the clock shows `now`. -/
def placeAt (s : LoadSchedule) (start now : Stamp) : Nat :=
  placeFrom 0 (max (Stamp.minus now start) 0) s.levels

section Places

variable {boundary elapsed later next : Stamp} {levels : List LoadLevel}

/-- The threads at a time are those of the level at its place, and the next level is there unless
that place is the last one. -/
theorem levelFrom_of_place (boundary elapsed : Stamp) (inhabited : levels ≠ []) :
    ∃ level, levels[placeFrom boundary elapsed levels]? = some level ∧
      (levelFrom boundary elapsed levels).1 = level.threads ∧
      ((levelFrom boundary elapsed levels).2.isSome ↔
        placeFrom boundary elapsed levels + 1 < levels.length) := by
  induction levels generalizing boundary with
  | nil => exact absurd rfl inhabited
  | cons level rest ih =>
    cases rest with
    | nil => exact ⟨level, rfl, rfl, by simp [levelFrom, placeFrom]⟩
    | cons other rest =>
      unfold placeFrom levelFrom
      dsimp only
      split
      next => exact ⟨level, rfl, rfl, by simp⟩
      next =>
        obtain ⟨found, entry, threads, more⟩ := ih _ (List.cons_ne_nil other rest)
        exact ⟨found, entry, threads, more.trans (by simp)⟩

theorem placeFrom_le (boundary elapsed : Stamp) (levels : List LoadLevel) :
    placeFrom boundary elapsed levels ≤ levels.length - 1 := by
  cases levels with
  | nil => exact Nat.le_refl _
  | cons level rest =>
    obtain ⟨found, entry, -⟩ := levelFrom_of_place boundary elapsed (List.cons_ne_nil level rest)
    exact Nat.le_sub_one_of_lt (List.getElem?_eq_some_iff.mp entry).1

theorem placeFrom_mono (le : elapsed ≤ later) :
    placeFrom boundary elapsed levels ≤ placeFrom boundary later levels := by
  induction levels generalizing boundary with
  | nil => exact Nat.le_refl _
  | cons level rest ih =>
    cases rest with
    | nil => exact Nat.le_refl _
    | cons other rest =>
      unfold placeFrom
      dsimp only
      split
      next => exact Nat.zero_le _
      next beyond =>
        rw [if_neg fun within => beyond (lt_of_le_of_lt le within)]
        exact Nat.succ_le_succ ih

/-- When the next level begins, a later one is in force. -/
theorem placeFrom_lt (switches : (levelFrom boundary elapsed levels).2 = some next)
    (le : next ≤ later) :
    placeFrom boundary elapsed levels < placeFrom boundary later levels := by
  induction levels generalizing boundary with
  | nil => cases switches
  | cons level rest ih =>
    cases rest with
    | nil => cases switches
    | cons other rest =>
      unfold levelFrom at switches
      unfold placeFrom
      dsimp only at switches ⊢
      split at switches
      next within =>
        have begun := Option.some.inj switches ▸ le
        rw [if_pos within, if_neg (not_lt.mpr begun)]
        exact Nat.succ_pos _
      next beyond =>
        have after : elapsed < later := lt_of_lt_of_le (lt_of_levelFrom switches) le
        rw [if_neg beyond, if_neg fun within => beyond (lt_trans after within)]
        exact Nat.succ_lt_succ (ih switches)

theorem levelFrom_le_greatest (switches : (levelFrom boundary elapsed levels).2 = some next) :
    next ≤ Stamp.greatest := by
  induction levels generalizing boundary with
  | nil => cases switches
  | cons level rest ih =>
    cases rest with
    | nil => cases switches
    | cons other rest =>
      unfold levelFrom at switches
      dsimp only at switches
      split at switches
      next => exact Option.some.inj switches ▸ Stamp.plus_le_greatest _ _
      next => exact ih switches

end Places

variable {s : LoadSchedule} {start now later offset : Stamp}

theorem placeAt_le (s : LoadSchedule) (start now : Stamp) :
    s.placeAt start now ≤ s.levels.length - 1 :=
  placeFrom_le _ _ _

theorem placeAt_mono (le : now ≤ later) : s.placeAt start now ≤ s.placeAt start later :=
  placeFrom_mono (max_le (le_trans (Stamp.minus_le_minus le start) (le_max_left _ _))
    (le_max_right _ _))

/-- Who sleeps until the next level, and does not exceed the clock with that, wakes up in a later
level. -/
theorem placeAt_lt (switches : (s.levelAt (max (Stamp.minus now start) 0)).2 = some offset)
    (within : Stamp.plus start offset < Stamp.greatest) (le : Stamp.plus start offset ≤ later) :
    s.placeAt start now < s.placeAt start later := by
  have elapsed :=
    Stamp.le_minus (Stamp.add_le_greatest within) (levelFrom_le_greatest switches) le
  exact placeFrom_lt switches (le_trans elapsed (le_max_left _ _))

end LoadSchedule

/-- The clock has reached a level before which there are at least as many others as the thread has
been taken back times. -/
def History.Advances (schedule : LoadSchedule) (fixed : Option Stamp) (h : History) : Prop :=
  h.countP Exchange.resumes = 0 ∨ ∃ start t, fixed = some start ∧ Reached h t ∧
    h.countP Exchange.resumes ≤ schedule.placeAt start t

/-- When the loop is resumed, a later level is in force than the one that the gate has read the
clock in, and before it there are more levels than the thread has been taken back times. -/
def ResumedLater (schedule : LoadSchedule) (fixed : Option Stamp) (x : Exchange) (h : History) :
    Prop :=
  match x.request with
  | .emit .resumed => ∃ start read now, fixed = some start ∧ gateReading h = some read ∧
    reading h = some now ∧ schedule.placeAt start read < schedule.placeAt start now ∧
    h.countP Exchange.resumes < schedule.placeAt start now
  | _ => True

section Advances

variable {schedule : LoadSchedule} {fixed : Option Stamp} {start now : Stamp} {x : Exchange}
  {h : History}

theorem resumes_of_plain (plain : x.request.Plain) : x.resumes = false := by
  obtain ⟨t, request, reply⟩ := x
  cases request with
  | call c => rfl
  | emit e => cases e <;> first | rfl | cases plain

theorem countP_resumes_cons (stays : x.resumes = false) :
    (x :: h).countP Exchange.resumes = h.countP Exchange.resumes :=
  List.countP_cons_of_neg (by simp [stays])

theorem countP_resumes_append {since : History} (plain : ∀ x ∈ since, x.request.Plain) :
    (since ++ h).countP Exchange.resumes = h.countP Exchange.resumes := by
  have none : since.countP Exchange.resumes = 0 :=
    List.countP_eq_zero.mpr fun x mem => by simp [resumes_of_plain (plain x mem)]
  rw [List.countP_append, none, Nat.zero_add]

namespace History.Advances

theorem cons (advances : h.Advances schedule fixed) (stays : x.resumes = false) :
    Advances schedule fixed (x :: h) := by
  unfold Advances
  rw [countP_resumes_cons stays]
  refine advances.imp_right fun reaches => ?_
  obtain ⟨start, t, known, reached, le⟩ := reaches
  exact ⟨start, t, known, reached.cons, le⟩

/-- When all that the clock has been seen to reach has passed, so has the level. -/
theorem le (advances : h.Advances schedule fixed) (known : fixed = some start)
    (passed : ∀ t, Reached h t → t ≤ now) :
    h.countP Exchange.resumes ≤ schedule.placeAt start now := by
  rcases advances with none | ⟨start', t, known', reached, le⟩
  · rw [none]
    exact Nat.zero_le _
  · obtain rfl := Option.some.inj (known.symm.trans known')
    exact Nat.le_trans le (LoadSchedule.placeAt_mono (passed t reached))

theorem of_fixed {fixed' : Option Stamp} (advances : h.Advances schedule fixed)
    (same : ∀ start, fixed = some start → fixed' = some start) : h.Advances schedule fixed' := by
  refine advances.imp_right fun reaches => ?_
  obtain ⟨start, t, known, reached, le⟩ := reaches
  exact ⟨start, t, same start known, reached, le⟩

end History.Advances

/-- A thread is taken back once for every level at most, but for the first one. -/
theorem countP_resumes_le (later : h.Each (ResumedLater schedule fixed)) :
    h.countP Exchange.resumes ≤ schedule.levels.length - 1 := by
  induction h with
  | nil => exact Nat.zero_le _
  | cons x h ih =>
    cases resumes : x.resumes with
    | false =>
      rw [countP_resumes_cons resumes]
      exact ih later.2
    | true =>
      obtain ⟨t, request, reply⟩ := x
      cases request with
      | call c => cases resumes
      | emit e =>
        cases e <;> cases resumes
        obtain ⟨start, read, now, -, -, -, -, before⟩ := later.1
        rw [List.countP_cons_of_pos rfl]
        exact Nat.le_trans before (schedule.placeAt_le start now)

end Advances

/-- What is known of a thread throughout its loop. -/
structure Policy.Advances (c : RunControl) (schedule : LoadSchedule) (fixed : Option Stamp)
    (policy : Policy) (h : History) : Prop where
  fits : policy.Fits c fixed
  tells : TellsOnly fixed h
  places : h.Advances schedule fixed

/-- An outline in which a thread has not been taken back more often than levels have gone by. -/
def Outline.progressing (c : RunControl) (schedule : LoadSchedule) (fixed : Option Stamp) :
    Outline where
  unbegun h := TellsOnly fixed h ∧ h.Advances schedule fixed
  resting l h := l.policy.Advances c schedule fixed h
  opening l _ h := l.policy.Advances c schedule fixed h
  serving l _ h := l.policy.Advances c schedule fixed h
  cleared l _ h := l.policy.Advances c schedule fixed h
  closing l _ _ h := l.policy.Advances c schedule fixed h

namespace Policy.Advances

variable {c : RunControl} {schedule : LoadSchedule} {fixed : Option Stamp} {l : LoopState}
  {policy : Policy} {x : Exchange} {h : History}

theorem plain (advances : policy.Advances c schedule fixed h) (plain : x.request.Plain)
    (faithful : Faithful fixed x h) : policy.Advances c schedule fixed (x :: h) :=
  ⟨advances.fits, faithful.tellsOnly advances.tells,
    advances.places.cons (resumes_of_plain plain)⟩

/-- An event tells nothing of the start. -/
theorem emitted (advances : policy.Advances c schedule fixed h) {t : Stamp} {e : Event}
    (stays : Exchange.resumes ⟨t, .emit e, ()⟩ = false) :
    policy.Advances c schedule fixed (⟨t, .emit e, ()⟩ :: h) :=
  ⟨advances.fits, fun start told => advances.tells start told, advances.places.cons stays⟩

/-- A thread that has slept at its gate has done so until a later level is in force. It has not been
taken back more often than there are levels before the one in which it was parked. -/
theorem exists_place {thread : Nat} (advances : l.policy.Advances c schedule fixed h)
    (slept : (Outline.progressing c schedule fixed).Slept (some schedule) thread l h) :
    ∃ start read wake, fixed = some start ∧ gateReading h = some read ∧ Reached h wake ∧
      h.countP Exchange.resumes ≤ schedule.placeAt start read ∧
      ∀ now, wake ≤ now → schedule.placeAt start read < schedule.placeAt start now := by
  obtain ⟨schedule', start, read, offset, q, bounds, same, parked, policy, set, within, reached⟩ :=
    slept.wakes
  obtain rfl := Option.some.inj same
  have known := advances.tells start parked.told
  -- The gate has read the clock after all that had been known before.
  have count : h.countP Exchange.resumes ≤ schedule.placeAt start read := by
    obtain ⟨since, older, rfl, plain, before, passed⟩ := slept.read
    rw [countP_resumes_append plain]
    exact before.places.le known (passed read parked.read)
  have fits := advances.fits
  rw [policy] at fits
  obtain ⟨start', -, rfl⟩ := fits.2 bounds set
  -- The end of the run is within the range of the clock, and the next level begins before it.
  have below := lt_of_lt_of_le within (Stamp.plus_le_greatest _ _)
  exact ⟨start, read, _, known, parked.read, reached, count,
    fun now le => LoadSchedule.placeAt_lt parked.next below le⟩

/-- A thread that is resumed is in a later level than the one that has parked it. -/
theorem resume {thread : Nat} {t now : Stamp} (t' : Stamp)
    (advances : l.policy.Advances c schedule fixed h)
    (slept : (Outline.progressing c schedule fixed).Slept (some schedule) thread l h)
    (faithful : Faithful fixed ⟨t, .call .clock, now⟩ h) :
    let x : Exchange := ⟨t, .call .clock, now⟩
    let y : Exchange := ⟨t', .emit .resumed, ()⟩
    ResumedLater schedule fixed y (x :: h) ∧
      (l.reset now).policy.Advances c schedule fixed (y :: x :: h) := by
  intro x y
  obtain ⟨start, read, wake, known, gate, reached, count, later⟩ := advances.exists_place slept
  have later := later now (reached.le faithful.timely rfl)
  have count : (x :: h).countP Exchange.resumes < schedule.placeAt start now := by
    rw [countP_resumes_cons rfl]
    exact Nat.lt_of_le_of_lt count later
  have advanced := advances.plain (x := x) trivial faithful
  have safe : ResumedLater schedule fixed y (x :: h) :=
    ⟨start, read, now, known, gateReading_cons_of_idle rfl gate, rfl, later, count⟩
  have places : History.Advances schedule fixed (y :: x :: h) := by
    refine Or.inr ⟨start, now, known, (reached_of_reading faithful.timely rfl).cons, ?_⟩
    rw [List.countP_cons_of_pos rfl]
    exact count
  exact ⟨safe, advanced.fits, fun start told => advanced.tells start told, places⟩

theorem of_fixed {fixed' : Option Stamp} (advances : policy.Advances c schedule fixed h)
    (same : ∀ start, fixed = some start → fixed' = some start) :
    policy.Advances c schedule fixed' h :=
  ⟨advances.fits.of_fixed same, fun start told => same start (advances.tells start told),
    advances.places.of_fixed same⟩

end Policy.Advances

namespace Outline

variable {σ : Type} {schedule : LoadSchedule} {fixed : Option Stamp} {x : Exchange} {h : History}

theorem resumedLater_of_mute (mute : x.request.Mute) : ResumedLater schedule fixed x h := by
  obtain ⟨t, request, reply⟩ := x
  cases request with
  | call c => trivial
  | emit e => cases e <;> trivial

theorem progressing_sound (p : RunPlan σ) (id : Nat) (fixed : Option Stamp)
    (load : p.control.load = some schedule) :
    (progressing p.control schedule fixed).Sound p id (Faithful fixed)
      (ResumedLater schedule fixed) where
  punctual := Faithful.toPunctual
  mute := resumedLater_of_mute
  ends _ := trivial
  unbegun_plain plain faithful unbegun :=
    ⟨faithful.tellsOnly unbegun.1, unbegun.2.cons (resumes_of_plain plain)⟩
  enters prepares faithful unbegun :=
    ⟨Policy.fits_of_prepares prepares unbegun.1, faithful.tellsOnly unbegun.1,
      (unbegun.2.cons rfl).cons rfl⟩
  resting_plain plain faithful advances := advances.plain plain faithful
  notices faithful told advances :=
    ⟨advances.fits.noticing (faithful.told _ told), faithful.tellsOnly advances.tells,
      advances.places.cons (resumes_of_plain (plain_of_told told))⟩
  resumes t' slept faithful advances := advances.resume t' (load ▸ slept) faithful
  plans := by
    intro l h _ advances
    have step : ∀ x h, x.request.Plans → Faithful fixed x h →
        l.policy.Advances p.control schedule fixed h →
        ResumedLater schedule fixed x h ∧ l.policy.Advances p.control schedule fixed (x :: h) := by
      intro x h plans _ advances
      obtain ⟨t, request, reply⟩ := x
      obtain ⟨background, operation, intended, delay, rfl⟩ := plans
      exact ⟨trivial, advances.emitted rfl⟩
    refine ((VirtualUser.plan_only l.slots p.workload l.random).ensures step advances).mono ?_
    exact fun _ _ planned _ _ => planned.2
  stops _ _ := trivial
  opening_tracked := .of_idle fun idle faithful advances => advances.plain idle.plain faithful
  calls _ _ advances := ⟨trivial, advances.emitted rfl⟩
  serving_tracked := .of_idle fun idle faithful advances => advances.plain idle.plain faithful
  clears faithful clear advances := advances.plain (plain_of_clear clear) faithful
  cleared_plain plain faithful advances := advances.plain plain faithful
  succeeds advances _ classified _ :=
    ⟨trivial, Policy.Advances.emitted
      ⟨advances.fits.classifies classified, advances.tells, advances.places⟩ rfl⟩
  skips failed _ _ _ := ⟨trivial, failed.cleared.emitted rfl⟩
  fails _ failed _ _ classified _ :=
    ⟨trivial, Policy.Advances.emitted (Policy.Advances.emitted
      ⟨failed.cleared.fits.classifies classified, failed.cleared.tells, failed.cleared.places⟩
      rfl) rfl⟩
  delays advances _ _ _ := ⟨trivial, advances.emitted rfl⟩
  closes advances := advances

end Outline

/-- Who sleeps does so until a time before the end of the run. -/
def SleepsBefore (fixed : Option Stamp) (ending : Stamp → Stamp) (x : Exchange) (_ : History) :
    Prop :=
  match x.request with
  | .call (.sleepUntil wake) => ∃ start, fixed = some start ∧ wake < ending start
  | _ => True

/-- When its gate read the clock, the thread was switched off for the rest of the run. -/
def History.SwitchedOff (schedule : LoadSchedule) (thread : Nat) (fixed : Option Stamp)
    (ending : Stamp → Stamp) (h : History) : Prop :=
  ∃ start read, fixed = some start ∧ gateReading h = some read ∧
    schedule.SwitchesOff thread start read (ending start)

/-- What a gate comes to. A thread that is switched off for the rest of the run stops. One that is
taken back has not been so once for every later level yet, and whatever the clock shows from then
on, a later level is in force than when the gate read it. -/
structure Gate.Advances (schedule : LoadSchedule) (thread : Nat) (fixed : Option Stamp)
    (ending : Stamp → Stamp) (gate : Gate) (h : History) : Prop where
  stops : gate = .stop ↔ h.SwitchedOff schedule thread fixed ending
  within : gate = .resumed → h.countP Exchange.resumes < schedule.levels.length - 1
  later : gate = .resumed → ∃ start read, fixed = some start ∧ gateReading h = some read ∧
    ∀ now, (∀ y ∈ h, y.time ≤ now) → schedule.placeAt start read < schedule.placeAt start now

section Gates

variable {schedule : LoadSchedule} {thread : Nat} {fixed : Option Stamp} {ending : Stamp → Stamp}
  {h : History}

theorem TimePolicy.requireStart_told : requireStart.Ensures (Faithful fixed)
    (SleepsBefore fixed ending) (fun start _ => ∀ t, start = some t → fixed = some t) h := by
  simp only [requireStart, ensures_bind, ensures_startTime]
  intro t start faithful
  refine ⟨trivial, ?_⟩
  cases start with
  | some start => exact faithful.told
  | none => exact fun t' start faithful => ⟨trivial, faithful.told⟩

/-- A gate stops a thread exactly if it is switched off for the rest of the run, and parks none
until the end of the run or later. -/
theorem TimePolicy.gate_stops {q : TimePolicy}
    (bounds : ∀ start, fixed = some start → ∃ bounds, (q.withStart start).bounds = some bounds ∧
      bounds.endRampDown = ending start) (unread : gateReading h = none) :
    (q.gate (some schedule) thread).Ensures (Faithful fixed) (SleepsBefore fixed ending)
      (fun result h => result.2 = .stop ↔ h.SwitchedOff schedule thread fixed ending) h := by
  simp only [gate, ensures_bind]
  refine (Outline.Sound.requireStart_unread requireStart_told unread).mono fun start h asked => ?_
  obtain ⟨told, unread⟩ := asked
  cases start with
  | none => simp [SwitchedOff, unread]
  | some start =>
    have known := told start rfl
    obtain ⟨bounds, set, ends⟩ := bounds start known
    simp only [ensures_bind, ensures_clock]
    intro t now _
    refine ⟨trivial, ?_⟩
    have read : gateReading (⟨t, .call .clock, now⟩ :: h) = some now :=
      (congrArg (Option.or · (some now)) unread).trans rfl
    have stops : ∀ {gate : Gate} {h}, gateReading h = some now →
        (gate = .stop ↔ (q.withStart start).duty schedule thread start now = .leave) →
        (gate = .stop ↔ h.SwitchedOff schedule thread fixed ending) := by
      intro gate h read same
      rw [same, duty_eq_leave_iff set, ends]
      constructor
      · exact fun off => ⟨start, now, known, read, off⟩
      · rintro ⟨start', read', known', same, off⟩
        obtain rfl := Option.some.inj (known.symm.trans known')
        obtain rfl := Option.some.inj (read.symm.trans same)
        exact off
    split
    next active => exact stops read (by simp [active])
    next leave => exact stops read (by simp [leave])
    next active wake parks =>
      obtain ⟨offset, -, -, -, within⟩ := exists_of_park parks
      simp only [ensures_bind, ensures_emit, ensures_sleepUntil]
      refine fun t' _ => ⟨trivial, fun t'' wait _ => ⟨?_, ?_⟩⟩
      · exact ⟨start, known, ends ▸ within bounds set⟩
      · have read := gateReading_cons_of_idle (x := ⟨t', .emit (.parked active), ()⟩) rfl read
        have read := gateReading_cons_of_idle (x := ⟨t'', .call (.sleepUntil wake), wait⟩) rfl read
        cases wait <;> exact stops read (by simp [parks])

theorem Policy.Fits.gate_stops {policy : Policy} {c : RunControl}
    {rampUp steadyState rampDown : Span} (fits : policy.Fits c fixed)
    (mode : c.mode = .time rampUp steadyState rampDown)
    (unread : gateReading h = none) :
    let ending start := (TimeBounds.ofStart start rampUp steadyState rampDown).endRampDown
    (policy.gate (some schedule) thread).Ensures (Faithful fixed) (SleepsBefore fixed ending)
      (fun result h => result.2 = .stop ↔ h.SwitchedOff schedule thread fixed ending) h := by
  intro ending
  cases policy with
  | cycles q =>
    have untimed : c.mode.isTime = false := fits
    simp [mode, RunMode.isTime] at untimed
  | time q =>
    simp only [Policy.gate, ensures_bind]
    exact q.gate_stops (fun start known => ⟨_, fits.bounds_withStart known mode, rfl⟩) unread

/-- What the gate of an iteration comes to under a load schedule, after the flag has been found
down. -/
theorem VirtualUser.gate_advances {σ : Type} {p : RunPlan σ} {u : VirtualUser σ}
    {rampUp steadyState rampDown : Span}
    (advances : u.policy.Advances p.control schedule fixed h)
    (mode : p.control.mode = .time rampUp steadyState rampDown)
    (load : p.control.load = some schedule) (slots : Slots) (t : Stamp) :
    let ending start := (TimeBounds.ofStart start rampUp steadyState rampDown).endRampDown
    (u.policy.gate p.control.load thread).Ensures (Faithful fixed) (SleepsBefore fixed ending)
      (fun result h => result.2.Advances schedule thread fixed ending h)
      (⟨t, .call .isAborted, false⟩ :: h) := by
  intro ending
  let x : Exchange := ⟨t, .call .isAborted, false⟩
  have rest : u.policy.Advances p.control schedule fixed (x :: h) :=
    ⟨advances.fits, fun start told => advances.tells start told, advances.places.cons rfl⟩
  have sound := Outline.progressing_sound p thread fixed load
  have beyond : (u.policy.gate p.control.load thread).Ensures (Faithful fixed)
      (ResumedLater schedule fixed) (Outline.Sound.Beyond
        (.progressing p.control schedule fixed) p thread u.random slots) (x :: h) :=
    sound.gate rfl rest
  have stops : (u.policy.gate p.control.load thread).Ensures (Faithful fixed)
      (SleepsBefore fixed ending)
      (fun result h => result.2 = .stop ↔ h.SwitchedOff schedule thread fixed ending) (x :: h) :=
    load ▸ advances.fits.gate_stops mode rfl
  refine (stops.and (beyond.weaken fun _ _ _ => trivial)).mono ?_
  intro result h both
  obtain ⟨stops, beyond⟩ := both
  have parked := fun resumed => beyond.resting.exists_place (load ▸ beyond.slept resumed)
  refine ⟨stops, fun resumed => ?_, fun resumed => ?_⟩
  · obtain ⟨start, read, wake, -, -, -, count, later⟩ := parked resumed
    have last := schedule.placeAt_le start wake
    exact Nat.lt_of_lt_of_le (Nat.lt_of_le_of_lt count (later wake le_rfl)) last
  · obtain ⟨start, read, wake, known, gate, reached, -, later⟩ := parked resumed
    refine ⟨start, read, known, gate, fun now passed => later now ?_⟩
    obtain ⟨y, mem, le⟩ := reached
    exact le_trans le (passed y mem)

end Gates

/-- Parking makes progress. A thread is taken back at most once for every level but the first one,
and each time in a later level than the one that has parked it. At the gate of an iteration it never
goes to sleep until the end of the run or later, and it stops exactly if the level in force has it
inactive and is the last one or holds until the end of the run. -/
theorem parking_makes_progress {σ : Type} (p : RunPlan σ) {rampUp steadyState rampDown : Span}
    (mode : p.control.mode = .time rampUp steadyState rampDown) {schedule : LoadSchedule}
    (load : p.control.load = some schedule) {now : Stamp} {e : Ensemble (Stage σ)}
    {hs : Nat → History} (run : Ensemble.Run p.follow p.ensemble now e hs) (i : Nat) :
    (hs i).countP Exchange.resumes ≤ schedule.levels.length - 1 ∧
    (∀ x (older : History), x :: older <:+ hs i → x.event? = some .resumed →
      ∃ start read now, e.signals.start = some start ∧ gateReading older = some read ∧
        reading older = some now ∧ schedule.placeAt start read < schedule.placeAt start now) ∧
    ∀ m u slots, e.members[i]? = some m → m.stage? = some (.iterating u slots) →
      ∀ fixed t, (∀ start, e.signals.start = some start → fixed = some start) →
        let ending start := (TimeBounds.ofStart start rampUp steadyState rampDown).endRampDown
        (u.policy.gate p.control.load u.id).Ensures (Faithful fixed) (SleepsBefore fixed ending)
          (fun result h => result.2.Advances schedule i fixed ending h)
          (⟨t, .call .isAborted, false⟩ :: hs i) := by
  have sound := Outline.progressing_sound p i e.signals.start load
  have unbegun : TellsOnly e.signals.start [] ∧ History.Advances schedule e.signals.start [] :=
    ⟨fun _ told => (nomatch told), Or.inl rfl⟩
  obtain ⟨later, holds⟩ := sound.of_run unbegun run (SampleInvariant.faithful_of_run run i)
  refine ⟨countP_resumes_le later, fun x older part resumed => ?_, ?_⟩
  · have safe := each_iff_suffix.mp later x older part
    rw [Exchange.eq_of_event resumed] at safe
    obtain ⟨start, read, now, known, gate, latest, less, -⟩ := safe
    exact ⟨start, read, now, known, gate, latest, less⟩
  · intro m u slots present staged fixed t same ending
    obtain ⟨mine, advances⟩ := (holds m _ present staged).stands
    rw [mine]
    exact VirtualUser.gate_advances (advances.of_fixed same) mode load slots t

/-- The thread has been parked by the second of three levels, and is taken back in the third. -/
theorem parking_makes_progress_besidePausing : ∃ now e hs m u slots x older schedule,
    Ensemble.Run RunPlan.besidePausing.follow RunPlan.besidePausing.ensemble now e hs ∧
      RunPlan.besidePausing.control.load = some schedule ∧ hs 0 = x :: older ∧
      x.event? = some .resumed ∧ e.members[0]? = some m ∧ m.stage? = some (.iterating u slots) ∧
      (hs 0).countP Exchange.resumes = 1 ∧ 1 ≤ schedule.levels.length - 1 ∧
      (∃ start read now, e.signals.start = some start ∧ gateReading older = some read ∧
        reading older = some now ∧ schedule.placeAt start read < schedule.placeAt start now) ∧
      let ending start := (TimeBounds.ofStart start ⟨0⟩ ⟨1000⟩ ⟨0⟩).endRampDown
      (u.policy.gate (some schedule) u.id).Ensures (Faithful e.signals.start)
        (SleepsBefore e.signals.start ending)
        (fun result h => result.2.Advances schedule 0 e.signals.start ending h)
        (⟨120, .call .isAborted, false⟩ :: hs 0) := by
  let order : List (Stamp × Nat) := List.replicate 13 (0, 0) ++ List.replicate 10 (0, 1) ++
    List.replicate 41 (0, 0) ++ List.replicate 19 (80, 0) ++ List.replicate 5 (120, 0)
  have passed : Ensemble.Run.reached (fun e hs => decide
      ((e.members[0]?.bind Member.stage?).any Stage.isIterating ∧
        (hs 0).head?.bind Exchange.event? = some .resumed ∧
        (hs 0).countP Exchange.resumes = 1))
      (Ensemble.Run.play RunPlan.besidePausing.follow order 0 RunPlan.besidePausing.ensemble
        fun _ => []) = true := by
    decide +kernel
  obtain ⟨now, e, hs, run, passed⟩ := Ensemble.Run.exists_of_reached passed
  obtain ⟨iterating, last, once⟩ := of_decide_eq_true passed
  obtain ⟨x, latest, resumed⟩ := Option.bind_eq_some_iff.mp last
  obtain ⟨older, split⟩ := List.head?_eq_some_iff.mp latest
  obtain ⟨m, u, slots, present, staged⟩ := Stage.exists_of_isIterating iterating
  obtain ⟨few, later, gates⟩ := parking_makes_progress RunPlan.besidePausing rfl rfl run 0
  exact ⟨now, e, hs, m, u, slots, x, older, _, run, rfl, split, resumed, present, staged, once,
    once ▸ few, later x older (split ▸ List.suffix_rfl) resumed,
    gates m u slots present staged _ 120 fun _ => id⟩

end LoadGen
