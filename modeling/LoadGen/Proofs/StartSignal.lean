import LoadGen.Proofs.Protocol

namespace LoadGen

namespace Call

/-- A poll reads the start time only after it has been stored. -/
def PollPoint.Sound (s : Signals) : PollPoint → Prop
  | .loadFlag => True
  | .loadTime => s.startFixed

/-- The thread that fixes the start stores what it has fixed. -/
def FixPoint.Sound (s : Signals) (t : Stamp) : FixPoint → Prop
  | .storeTime => s.start = some t
  | .storeFlag => s.start = some t ∧ s.startCell = t
  | _ => True

/-- The place fits what the memory tells about the start. -/
def StartPlace (s : Signals) : (c : Call) → c.Point → Prop
  | startTime, p => PollPoint.Sound s p
  | fixStart t, p => FixPoint.Sound s t p
  | _, _ => True

/-- What the memory tells about the start stays so. -/
structure StartGrows (s s' : Signals) : Prop where
  start : ∀ t, s.start = some t → s'.start = some t
  cell : ∀ t, s.start = some t → s.startCell = t → s'.startCell = t
  fixed : s.startFixed → s'.startFixed

variable {c : Call} {me : Nat} {now t : Stamp} {s s' : Signals} {point point' : c.Point}
  {reply : c.Reply}

theorem StartGrows.of_same (same : s'.start = s.start ∧ s'.startCell = s.startCell ∧
    s'.startFixed = s.startFixed) : StartGrows s s' := by
  obtain ⟨start, cell, fixed⟩ := same
  constructor
  · exact fun t told => start.trans told
  · exact fun t _ stored => cell.trans stored
  · exact fun raised => fixed.trans raised

theorem StartGrows.place (grown : StartGrows s s') (sound : StartPlace s c point) :
    StartPlace s' c point := by
  cases c with
  | startTime =>
    cases point with
    | loadFlag => trivial
    | loadTime => exact grown.fixed sound
  | fixStart t =>
    cases point with
    | storeTime => exact grown.start t sound
    | storeFlag => exact ⟨grown.start t sound.1, grown.cell t sound.1 sound.2⟩
    | _ => trivial
  | _ => trivial

/-- The memory holds the start time wherever the flag says that it does. -/
def StartStored (s : Signals) : Prop := s.startFixed → s.start = some s.startCell

theorem fixStart_moves {p p' : FixPoint} (stored : StartStored s) (sound : FixPoint.Sound s t p)
    (moved : stepFix t me s p = .moved s' p') :
    StartGrows s s' ∧ StartStored s' ∧ FixPoint.Sound s' t p' := by
  cases p with
  | enter =>
    simp only [stepFix, enterSection] at moved
    split at moved
    · cases moved
    · cases moved
      exact ⟨.of_same ⟨rfl, rfl, rfl⟩, stored, trivial⟩
  | look =>
    simp only [stepFix] at moved
    split at moved
    · cases moved
    -- The start is fixed only where there was none, so that nothing told so far changes.
    next unfixed =>
      cases moved
      refine ⟨⟨?_, ?_, id⟩, ?_, rfl⟩
      · simp [unfixed]
      · simp [unfixed]
      · intro raised
        simp [stored raised] at unfixed
  | storeTime =>
    cases moved
    refine ⟨⟨fun _ => id, ?_, id⟩, ?_, sound, rfl⟩
    · exact fun t' told _ => Option.some.inj (sound.symm.trans told)
    · exact fun _ => sound
  | storeFlag =>
    cases moved
    exact ⟨⟨fun _ => id, fun _ _ => id, fun _ => rfl⟩, fun _ => sound.2 ▸ sound.1, trivial⟩
  | notify =>
    cases moved
    exact ⟨.of_same ⟨rfl, rfl, rfl⟩, stored, trivial⟩
  | leave => cases moved

theorem StartStored.of_same (stored : StartStored s) (same : s'.start = s.start ∧
    s'.startCell = s.startCell ∧ s'.startFixed = s.startFixed) : StartStored s' := by
  obtain ⟨start, cell, fixed⟩ := same
  intro raised
  rw [start, cell]
  exact stored (fixed ▸ raised)

theorem startPlace_entry : StartPlace s c c.entry := by
  cases c <;> trivial

theorem moves_keeps_start (stored : StartStored s) (sound : StartPlace s c point)
    (moved : c.Moves me now s s' point point') :
    StartGrows s s' ∧ StartStored s' ∧ StartPlace s' c point' := by
  by_cases fixes : ∃ t, c = .fixStart t
  · obtain ⟨t, rfl⟩ := fixes
    exact fixStart_moves stored sound moved
  · have same := (step_keeps moved.signals?).start fun t is => fixes ⟨t, is⟩
    refine ⟨.of_same same, stored.of_same same, ?_⟩
    cases c with
    | fixStart t => exact absurd ⟨t, rfl⟩ fixes
    | startTime =>
      cases point with
      | loadTime => cases moved
      | loadFlag =>
        simp only [Moves, step, stepPoll] at moved
        split at moved
        next raised =>
          cases moved
          exact raised
        next => cases moved
    | _ => trivial

theorem answers_keeps_start (stored : StartStored s)
    (answered : c.Answers me now s s' point reply) :
    StartGrows s s' ∧ StartStored s' := by
  have same : s'.start = s.start ∧ s'.startCell = s.startCell ∧ s'.startFixed = s.startFixed := by
    obtain ⟨_, _, _, rfl⟩ := answers_frame answered
    exact ⟨rfl, rfl, rfl⟩
  exact ⟨.of_same same, stored.of_same same⟩

theorem start_of_answers (stored : StartStored s) (sound : StartPlace s c point)
    (answered : c.Answers me now s s' point reply)
    (told : Exchange.start? ⟨now, .call c, reply⟩ = some t) : s.start = some t := by
  cases c with
  | startTime =>
    cases point with
    | loadTime =>
      cases answered
      cases told
      exact stored sound
    | loadFlag =>
      simp only [Answers, step, stepPoll] at answered
      split at answered
      · cases answered
      · cases answered
        cases told
  | awaitStart =>
    cases point with
    | look =>
      simp only [Answers, step, stepAwait] at answered
      split at answered
      · cases answered
        cases told
      next start _ fixed =>
        cases answered
        cases told
        exact fixed
      · cases answered
    | enter =>
      simp only [Answers, step, stepAwait, enterSection] at answered
      split at answered <;> cases answered
    | wait =>
      simp only [Answers, step, stepAwait] at answered
      split at answered <;> cases answered
  | _ => cases told

end Call

namespace Protocol

/-- Whoever is told a start time is told the one of the run. -/
def start : Protocol where
  good _ := Call.StartStored
  place := Call.StartPlace
  said _ s x := ∀ start, x.start? = some start → s.start = some start
  grows _ := Call.StartGrows
  good_later good _ := good
  said_later said _ := said
  place_grows := Call.StartGrows.place
  said_grows grown said start told := grown.start start (said start told)
  entry _ := Call.startPlace_entry
  emit _ _ told := by cases told
  move := Call.moves_keeps_start
  answer stored sound answered := by
    obtain ⟨grown, kept⟩ := Call.answers_keeps_start stored answered
    refine ⟨grown, kept, fun t told => grown.start t ?_⟩
    exact Call.start_of_answers stored sound answered told

end Protocol

end LoadGen
