import LoadGen.PhaseLength
import LoadGen.Proofs.LevelLookup
import LoadGen.Proofs.NumberOrder
import LoadGen.Proofs.SpanTexts

namespace LoadGen

namespace Span

open Binary64 (units unitsOfOne infinityMagnitude roundHalfEven)

/-- The number can be a length of time: it is finite and not below zero. -/
def Counts (x : Binary64) : Prop := x.isFinite = true ∧ ¬ x < 0

instance (x : Binary64) : Decidable (Counts x) := inferInstanceAs (Decidable (_ ∧ _))

/-- As seconds, the number of units is finite and below `2 ^ 64`. -/
def Fits (unit : Unit) (x : Binary64) : Prop :=
  (unit.toSeconds x).isFinite = true ∧ unit.toSeconds x < Binary64.ofNat Word.count

/-- The text names a length of time that is too long for a span. -/
def TooLong (s : List Char) : Prop := ∃ unit x, Written s unit x ∧ Counts x ∧ ¬ Fits unit x

variable {s : List Char} {unit : Unit} {x : Binary64} {span : Span} {negative : Bool} {m : Nat}

/-- The seconds that need more than 64 bits, as a magnitude. -/
theorem units_tooLong :
    units (Binary64.ofNat Word.count).magnitude = Word.count * unitsOfOne ∧
      units ((Binary64.ofNat Word.count).magnitude - 1) = (Word.count - 2048) * unitsOfOne ∧
      (Binary64.ofNat Word.count).magnitude < infinityMagnitude := by
  decide +kernel

/-- Below `2 ^ 64` seconds, the nanoseconds are not rounded up to the limit, and from there on they
are not below it. -/
theorem nanos_lt_limit : roundHalfEven (units m * nanosPerSecond) unitsOfOne < limit ↔
    m < (Binary64.ofNat Word.count).magnitude := by
  obtain ⟨first, last, -⟩ := units_tooLong
  have positive := Binary64.unitsOfOne_pos
  have reached := Binary64.succ_le_roundHalfEven (n := units m * nanosPerSecond) (k := limit - 1)
    positive
  generalize (Binary64.ofNat Word.count).magnitude = bound at first last ⊢
  generalize roundHalfEven (units m * nanosPerSecond) unitsOfOne = nanos at reached ⊢
  generalize unitsOfOne = one at first last positive reached
  simp only [limit, nanosPerSecond, Word.count] at first last reached ⊢
  constructor
  · intro below
    by_contra beyond
    have least := Binary64.units_strictMono.monotone (Nat.le_of_not_lt beyond)
    omega
  · intro below
    have most := Binary64.units_strictMono.monotone (show m ≤ bound - 1 by omega)
    omega

/-- A number that is not negative is a length of time in nanoseconds just below the limit. -/
theorem exists_ofSeconds_iff (zero : negative = true → m = 0) :
    (∃ span, ofSeconds? ⟨negative, m⟩ = some span) ↔
      Binary64.isFinite ⟨negative, m⟩ = true ∧
        (⟨negative, m⟩ : Binary64) < Binary64.ofNat Word.count := by
  have finite : (Binary64.ofNat Word.count).magnitude < infinityMagnitude := units_tooLong.2.2
  have order : (⟨negative, m⟩ : Binary64) < Binary64.ofNat Word.count ↔
      m < (Binary64.ofNat Word.count).magnitude := by
    cases negative with
    | false =>
      show (⟨false, m⟩ : Binary64) < ⟨false, (Binary64.ofNat Word.count).magnitude⟩ ↔ _
      rw [Binary64.mk_lt_mk]
      omega
    | true =>
      rw [zero rfl]
      decide +kernel
  rw [order, ← nanos_lt_limit]
  unfold ofSeconds?
  by_cases number : Binary64.isFinite ⟨negative, m⟩ = true
  · simp [number]
  · simp [number]

theorem Counts.zero_of_negative (counts : Counts ⟨true, m⟩) : m = 0 := by
  obtain ⟨finite, notNegative⟩ := counts
  have small : m < infinityMagnitude := by simpa [Binary64.isFinite] using finite
  by_contra nonzero
  refine notNegative ⟨Binary64.isNaN_mk.mpr (Nat.le_of_lt small), by decide +kernel, ?_⟩
  show -(m : Int) < Binary64.rank 0
  rw [Binary64.zero_eq]
  show -(m : Int) < (0 : Nat)
  omega

/-- What counts is not below zero in any unit. -/
theorem toSeconds_negative (counts : Counts x) (negative : (unit.toSeconds x).negative = true) :
    (unit.toSeconds x).magnitude = 0 := by
  obtain ⟨sign, m⟩ := x
  have small : m < infinityMagnitude := by simpa [Binary64.isFinite] using counts.1
  cases sign with
  | true =>
    obtain rfl := counts.zero_of_negative
    cases unit <;> decide +kernel
  | false =>
    -- Neither a product nor a quotient gets a sign that is on neither side.
    have factor : ∀ n, n = 60 ∨ n = 3600 →
        (Binary64.ofNat n).magnitude < infinityMagnitude := by
      rintro n (rfl | rfl) <;> decide +kernel
    cases unit with
    | seconds => cases negative
    | milliseconds =>
      have positive : 0 < (Binary64.ofNat 1000).magnitude := by decide +kernel
      have finite : (Binary64.ofNat 1000).magnitude < infinityMagnitude := by decide +kernel
      rw [Unit.toSeconds, Binary64.literal_eq 1000, Binary64.mk_div_mk small positive finite]
        at negative
      cases negative
    | minutes =>
      rw [Unit.toSeconds, Binary64.literal_eq 60, Binary64.mk_mul_mk small (factor 60 (by simp))]
        at negative
      cases negative
    | hours =>
      rw [Unit.toSeconds, Binary64.literal_eq 3600,
        Binary64.mk_mul_mk small (factor 3600 (by simp))] at negative
      cases negative

/-- A count of units is a span just if it fits one. -/
theorem fits_iff (counts : Counts x) :
    Fits unit x ↔ ∃ span, ofSeconds? (unit.toSeconds x) = some span :=
  (exists_ofSeconds_iff (toSeconds_negative counts)).symm

/-- A text that is a number and a unit is read as such, and any other one is refused. -/
theorem read_cases (s : List Char) :
    (∃ unit x, Written s unit x ∧ read s =
      if Counts x then
        match ofSeconds? (unit.toSeconds x) with
        | some span => .ok span
        | none => .error .overflow
      else refuse (.negative (String.ofList (Text.trim s)))) ∨
    ((∀ unit x, ¬ Written s unit x) ∧ ∃ reason, read s = refuse reason) := by
  cases found : Binary64.read? (splitUnit (Text.trim s)).1 with
  | some x =>
    have nonempty : (Text.trim s).isEmpty = false := by
      cases body : Text.trim s with
      | cons c rest => rfl
      | nil =>
        rw [body] at found
        cases found
    refine Or.inl ⟨_, x, written_iff.mpr ⟨rfl, found⟩, ?_⟩
    unfold read
    dsimp only
    rw [nonempty, found]
    rfl
  | none =>
    refine Or.inr ⟨fun unit x written => ?_, ?_⟩
    · rw [(written_iff.mp written).2] at found
      cases found
    · unfold read
      dsimp only
      rw [found]
      split
      · exact ⟨_, rfl⟩
      · exact ⟨_, rfl⟩

theorem read_eq_ok_iff : read s = .ok span ↔ ∃ unit x, Written s unit x ∧ Counts x ∧
    Fits unit x ∧ ofSeconds? (unit.toSeconds x) = some span := by
  rcases read_cases s with ⟨unit, x, written, same⟩ | ⟨unwritten, reason, refused⟩
  · rw [same]
    constructor
    · intro accepted
      split at accepted
      next counts =>
        split at accepted
        next found =>
          cases accepted
          exact ⟨unit, x, written, counts, (fits_iff counts).mpr ⟨_, found⟩, found⟩
        next => cases accepted
      next => cases accepted
    · rintro ⟨unit', x', written', counts, -, found⟩
      obtain ⟨rfl, rfl⟩ := written.unique written'
      rw [if_pos counts, found]
  · rw [refused]
    exact ⟨nofun, fun ⟨unit, x, written, _⟩ => absurd written (unwritten unit x)⟩

theorem read_eq_overflow_iff : read s = .error .overflow ↔ TooLong s := by
  rcases read_cases s with ⟨unit, x, written, same⟩ | ⟨unwritten, reason, refused⟩
  · rw [same]
    constructor
    · intro overflows
      split at overflows
      next counts =>
        split at overflows
        next => cases overflows
        next found =>
          refine ⟨unit, x, written, counts, fun fits => ?_⟩
          obtain ⟨span, converted⟩ := (fits_iff counts).mp fits
          rw [found] at converted
          cases converted
      next => cases overflows
    · rintro ⟨unit', x', written', counts, long⟩
      obtain ⟨rfl, rfl⟩ := written.unique written'
      rw [if_pos counts]
      split
      next found => exact absurd ((fits_iff counts).mpr ⟨_, found⟩) long
      next => rfl
  · rw [refused]
    exact ⟨nofun, fun ⟨unit, x, written, _⟩ => absurd written (unwritten unit x)⟩

end Span

namespace PhaseLength

variable {phase value : String} {span : Span}

theorem readSpan_eq_ok_iff :
    readSpan phase value = .ok span ↔ Span.read value.toList = .ok span := by
  unfold readSpan
  split
  next found => rw [found, Except.ok.injEq, Except.ok.injEq]
  next found => simp [found]

theorem readSpan_eq_overflow_iff :
    readSpan phase value = .error .overflow ↔ Span.read value.toList = .error .overflow := by
  unfold readSpan
  split
  next found => simp [found]
  next e found => cases e <;> simp [found, Fault.map]

end PhaseLength

namespace LoadSchedule

variable {s text : List Char} {texts : List (List Char)} {level : LoadLevel}
  {levels : List LoadLevel} {schedule : LoadSchedule}

/-- The texts of the levels of a schedule. -/
def segments (s : List Char) : List (List Char) :=
  ((Text.splitAt ',' s).map Text.trim).filter fun segment => !segment.isEmpty

/-- The text is a span and a number of threads with a colon between them. -/
def Describes (text : List Char) (level : LoadLevel) : Prop :=
  ∃ duration threads, Text.cutAt? ':' text = some (duration, threads) ∧
    Text.word (Text.trim threads) = .ok level.threads ∧ Span.read duration = .ok level.duration

/-- The text would be that of a level if its span were not too long. -/
def LevelTooLong (text : List Char) : Prop :=
  ∃ duration threads n, Text.cutAt? ':' text = some (duration, threads) ∧
    Text.word (Text.trim threads) = .ok n ∧ Span.TooLong duration

theorem readLevel_eq_ok_iff : readLevel text = .ok level ↔ Describes text level := by
  unfold readLevel Describes
  cases Text.cutAt? ':' text with
  | none => simp [refuse]
  | some parts =>
    obtain ⟨duration, threads⟩ := parts
    cases counted : Text.word (Text.trim threads) with
    | error e => simp [refuse, counted]
    | ok n =>
      cases found : Span.read duration with
      | error e => simp [counted, found]
      | ok span =>
        obtain ⟨duration, threads⟩ := level
        simp [counted, found, and_comm]

theorem readLevel_eq_overflow_iff : readLevel text = .error .overflow ↔ LevelTooLong text := by
  unfold readLevel LevelTooLong
  simp only [← Span.read_eq_overflow_iff]
  cases Text.cutAt? ':' text with
  | none => simp [refuse]
  | some parts =>
    obtain ⟨duration, threads⟩ := parts
    cases counted : Text.word (Text.trim threads) with
    | error e => simp [refuse, counted]
    | ok n =>
      cases found : Span.read duration with
      | error e => cases e <;> simp [counted, found, Fault.map]
      | ok span => simp [counted, found]

theorem readLevels_eq_ok_iff :
    readLevels texts = .ok levels ↔ List.Forall₂ Describes texts levels := by
  induction texts generalizing levels with
  | nil => simp [readLevels, eq_comm]
  | cons text rest ih =>
    unfold readLevels
    cases first : readLevel text with
    | error e =>
      have undescribed : ∀ level, ¬ Describes text level := fun level describes => by
        rw [readLevel_eq_ok_iff.mpr describes] at first
        cases first
      simp [undescribed, List.forall₂_cons_left_iff]
    | ok level =>
      have described : ∀ other, Describes text other ↔ level = other := fun other => by
        rw [← readLevel_eq_ok_iff, first, Except.ok.injEq]
      simp only [described, List.forall₂_cons_left_iff]
      cases later : readLevels rest with
      | error e =>
        have unfit : ∀ levels, ¬ List.Forall₂ Describes rest levels := fun levels all => by
          rw [ih.mpr all] at later
          cases later
        simp [Except.map, unfit]
      | ok others =>
        have all : ∀ levels, List.Forall₂ Describes rest levels ↔ others = levels :=
          fun levels => by rw [← ih, later, Except.ok.injEq]
        simp [Except.map, all, eq_comm]

/-- The levels are read up to the first one that is too long. -/
theorem readLevels_eq_overflow_iff : readLevels texts = .error .overflow ↔
    ∃ before text after, texts = before ++ text :: after ∧
      (∀ other ∈ before, ∃ level, Describes other level) ∧ LevelTooLong text := by
  induction texts with
  | nil => simp [readLevels]
  | cons text rest ih =>
    unfold readLevels
    cases first : readLevel text with
    | error e =>
      constructor
      · intro overflows
        cases overflows
        exact ⟨[], text, rest, rfl, by simp, readLevel_eq_overflow_iff.mp first⟩
      · rintro ⟨before, long, after, split, described, tooLong⟩
        cases before with
        | nil =>
          cases split
          rw [← first, readLevel_eq_overflow_iff.mpr tooLong]
        | cons other more =>
          cases split
          obtain ⟨level, describes⟩ := described text List.mem_cons_self
          rw [readLevel_eq_ok_iff.mpr describes] at first
          cases first
    | ok level =>
      have later : (readLevels rest).map (level :: ·) = .error .overflow ↔
          readLevels rest = .error .overflow := by
        cases readLevels rest <;> simp [Except.map]
      rw [later, ih]
      constructor
      · rintro ⟨before, long, after, rfl, described, tooLong⟩
        refine ⟨text :: before, long, after, rfl, ?_, tooLong⟩
        exact List.forall_mem_cons.mpr ⟨⟨level, readLevel_eq_ok_iff.mp first⟩, described⟩
      · rintro ⟨before, long, after, split, described, tooLong⟩
        cases before with
        | nil =>
          cases split
          rw [readLevel_eq_overflow_iff.mpr tooLong] at first
          cases first
        | cons other more =>
          cases split
          exact ⟨more, long, after, rfl, (List.forall_mem_cons.mp described).2, tooLong⟩

theorem read_eq (s : List Char) : read s =
    match readLevels (segments s) with
    | .error e => .error e
    | .ok levels =>
      match ofLevels levels with
      | .ok schedule => .ok schedule
      | .error e => refuse (.schedule e) := rfl

theorem read_eq_ok_iff : read s = .ok schedule ↔
    ∃ levels, List.Forall₂ Describes (segments s) levels ∧ ofLevels levels = .ok schedule := by
  simp only [← readLevels_eq_ok_iff]
  rw [read_eq]
  cases readLevels (segments s) with
  | error e => simp
  | ok levels =>
    cases accepted : ofLevels levels with
    | error e => simp [refuse, accepted]
    | ok other => simp [accepted]

theorem read_eq_overflow_iff :
    read s = .error .overflow ↔ readLevels (segments s) = .error .overflow := by
  rw [read_eq]
  cases readLevels (segments s) with
  | error e => simp
  | ok levels => cases accepted : ofLevels levels <;> simp [refuse, accepted]

end LoadSchedule

open LoadGen.Span LoadGen.LoadSchedule in
/-- A text is read as a span just if it is a number with the ending of a unit, blanks around it
aside, and the number is finite, not below zero and, as seconds, below `2 ^ 64`; and then it is the
span of these seconds. Any other text is refused, unless its number is too large for that. This is
the one thing that overflows, in lengths of phases and in the levels of a schedule as well: there
as soon as all levels before it have been read. -/
theorem spans_read (phase text : String) :
    let s := text.toList
    (∀ span, Span.read s = .ok span ↔ ∃ unit x, Written s unit x ∧ Counts x ∧ Fits unit x ∧
      ofSeconds? (unit.toSeconds x) = some span) ∧
    (∀ unit x, Counts x → Fits unit x → ∃ span, ofSeconds? (unit.toSeconds x) = some span) ∧
    (Span.read s = .error .overflow ↔ TooLong s) ∧
    (∀ span, PhaseLength.readSpan phase text = .ok span ↔ Span.read s = .ok span) ∧
    (PhaseLength.readSpan phase text = .error .overflow ↔ TooLong s) ∧
    (∀ schedule, LoadSchedule.read s = .ok schedule ↔ ∃ levels,
      List.Forall₂ Describes (segments s) levels ∧ ofLevels levels = .ok schedule) ∧
    (LoadSchedule.read s = .error .overflow ↔ ∃ before level after,
      segments s = before ++ level :: after ∧
        (∀ other ∈ before, ∃ level, Describes other level) ∧ LevelTooLong level) :=
  ⟨fun _ => Span.read_eq_ok_iff, fun _ _ counts => (fits_iff counts).mp,
    Span.read_eq_overflow_iff, fun _ => PhaseLength.readSpan_eq_ok_iff,
    PhaseLength.readSpan_eq_overflow_iff.trans Span.read_eq_overflow_iff,
    fun _ => LoadSchedule.read_eq_ok_iff,
    LoadSchedule.read_eq_overflow_iff.trans readLevels_eq_overflow_iff⟩

/-- Twenty quintillion seconds are well written, and overflow wherever they are read. -/
theorem long_span_overflows :
    Span.Written "2e19s".toList .seconds (Binary64.ofNat 20000000000000000000) ∧
      Span.read "2e19s".toList = .error .overflow ∧
      PhaseLength.readSpan "ramp-up" "2e19s" = .error .overflow ∧
      LoadSchedule.read "10s:4, 2e19s:8".toList = .error .overflow := by
  refine ⟨Span.written_iff.mpr ?_, ?_, ?_, ?_⟩ <;> decide +kernel

end LoadGen
