import LoadGen.Proofs.SpanReading

namespace LoadGen

namespace Text

variable {s t part part' before after : List Char} {parts : List (List Char)} {c : Char}

/-- A text with separators between its parts. -/
def join (separator : Char) (parts : List (List Char)) : List Char := [separator].intercalate parts

theorem splitAt_ne_nil (c : Char) (s : List Char) : splitAt c s ≠ [] := by
  cases s with
  | nil => simp [splitAt]
  | cons d s =>
    unfold splitAt
    split
    · simp
    · split <;> simp

/-- The parts on both sides of a separator are those of the text. -/
theorem splitAt_append (c : Char) (s t : List Char) :
    splitAt c (s ++ c :: t) = splitAt c s ++ splitAt c t := by
  induction s with
  | nil => simp [splitAt]
  | cons d s ih =>
    rw [List.cons_append, splitAt, splitAt, ih]
    split
    · rfl
    · cases first : splitAt c s with
      | nil => exact absurd first (splitAt_ne_nil c s)
      | cons part parts => rfl

theorem splitAt_of_not_mem (free : c ∉ s) : splitAt c s = [s] := by
  induction s with
  | nil => rfl
  | cons d s ih =>
    obtain ⟨other, free⟩ := not_or.mp (mt List.mem_cons.mpr free)
    rw [splitAt, if_neg (Ne.symm other), ih free]

theorem splitAt_join (nonempty : parts ≠ []) (free : ∀ part ∈ parts, c ∉ part) :
    splitAt c (join c parts) = parts := by
  induction parts with
  | nil => exact absurd rfl nonempty
  | cons part parts ih =>
    obtain ⟨headFree, free⟩ := List.forall_mem_cons.mp free
    cases parts with
    | nil =>
      rw [join, List.intercalate_singleton]
      exact splitAt_of_not_mem headFree
    | cons next parts =>
      rw [join, List.intercalate_cons_cons, List.append_assoc, List.singleton_append,
        splitAt_append, splitAt_of_not_mem headFree, List.singleton_append]
      exact congrArg (part :: ·) (ih (List.cons_ne_nil _ _) free)

theorem not_mem_of_mem_splitAt (mem : part ∈ splitAt c s) : c ∉ part := by
  induction s generalizing part with
  | nil =>
    obtain rfl := List.mem_singleton.mp mem
    exact List.not_mem_nil
  | cons d s ih =>
    unfold splitAt at mem
    split at mem
    next =>
      rcases List.mem_cons.mp mem with rfl | later
      · exact List.not_mem_nil
      · exact ih later
    next other =>
      cases rest : splitAt c s with
      | nil => exact absurd rest (splitAt_ne_nil c s)
      | cons first parts =>
        rw [rest] at mem ih
        rcases List.mem_cons.mp mem with rfl | later
        · exact List.not_mem_cons_of_ne_of_not_mem (Ne.symm other) (ih List.mem_cons_self)
        · exact ih (List.mem_cons_of_mem _ later)

theorem join_splitAt (c : Char) (s : List Char) : join c (splitAt c s) = s := by
  induction s with
  | nil => rfl
  | cons d s ih =>
    unfold splitAt
    cases rest : splitAt c s with
    | nil => exact absurd rest (splitAt_ne_nil c s)
    | cons first parts =>
      rw [rest] at ih
      split
      next same =>
        rw [same, join, List.intercalate_cons_cons, List.nil_append, List.singleton_append]
        exact congrArg (c :: ·) ih
      next =>
        cases parts with
        | nil => exact congrArg (d :: ·) ih
        | cons next parts =>
          rw [join, List.intercalate_cons_cons] at ih ⊢
          exact congrArg (d :: ·) ih

/-- A text is cut at the first separator. -/
theorem cutAt?_of_not_mem (free : c ∉ s) : cutAt? c (s ++ c :: t) = some (s, t) := by
  induction s with
  | nil => simp [cutAt?]
  | cons d s ih =>
    obtain ⟨other, free⟩ := not_or.mp (mt List.mem_cons.mpr free)
    rw [List.cons_append, cutAt?, if_neg (Ne.symm other), ih free]
    rfl

theorem cutAt?_eq_some (cut : cutAt? c s = some (before, after)) :
    s = before ++ c :: after ∧ c ∉ before := by
  induction s generalizing before with
  | nil => cases cut
  | cons d s ih =>
    unfold cutAt? at cut
    split at cut
    next same =>
      cases cut
      exact ⟨by rw [same]; rfl, List.not_mem_nil⟩
    next other =>
      obtain ⟨⟨before, after⟩, cut, same⟩ := Option.map_eq_some_iff.mp cut
      cases same
      obtain ⟨rfl, free⟩ := ih cut
      exact ⟨rfl, List.not_mem_cons_of_ne_of_not_mem (Ne.symm other) free⟩

instance (s : List Char) : Decidable (Blank s) :=
  List.decidableBAll (fun c => isBlank c = true) s

theorem Blank.append (blank : Blank s) (blank' : Blank t) : Blank (s ++ t) :=
  List.forall_mem_append.mpr ⟨blank, blank'⟩

theorem trim_eq_nil_iff : trim s = [] ↔ Blank s := by
  rw [trim_eq_iff]
  constructor
  · rintro ⟨-, before, after, blank, blank', rfl⟩
    rw [List.append_nil]
    exact blank.append blank'
  · intro blank
    exact ⟨⟨nofun, nofun⟩, s, [], blank, nofun, by simp⟩

/-- One text is the other one with white space around it. -/
inductive Surrounded : List Char → List Char → Prop
  | mk {before part after : List Char} (blank : Blank before) (blank' : Blank after) :
      Surrounded part (before ++ part ++ after)

theorem Surrounded.trim_eq (surrounded : Surrounded part part') : trim part' = trim part := by
  obtain ⟨blank, blank'⟩ := surrounded
  obtain ⟨before, after, more, more', same⟩ := exists_of_trim part
  refine trim_eq_iff.mpr ⟨trimmed_trim part, _, _, blank.append more, more'.append blank', ?_⟩
  calc _ ++ part ++ _ = _ ++ (before ++ trim part ++ after) ++ _ := by rw [← same]
    _ = _ := by simp only [List.append_assoc]

/-- A character that is no blank keeps the blanks on its other side. -/
theorem trimEnd_of_mark (mark : isBlank c = false) :
    trimEnd (s ++ c :: t) = s ++ c :: trimEnd t := by
  have kept : (c :: s.reverse).dropWhile isBlank = c :: s.reverse :=
    List.dropWhile_cons_of_neg (by simp [mark])
  have turned : (s ++ c :: t).reverse = t.reverse ++ c :: s.reverse := by simp
  rw [trimEnd, trimEnd, turned, List.dropWhile_append, kept]
  split
  next empty => simp [List.isEmpty_iff.mp empty]
  next => simp

theorem trim_of_mark (mark : isBlank c = false) :
    trim (s ++ c :: t) = s.dropWhile isBlank ++ c :: trimEnd t := by
  have first : (s ++ c :: t).dropWhile isBlank = s.dropWhile isBlank ++ c :: t := by
    rw [List.dropWhile_append, List.dropWhile_cons_of_neg (by simp [mark])]
    split
    next empty => rw [List.isEmpty_iff.mp empty, List.nil_append]
    next => rfl
  rw [trim, first, trimEnd_of_mark mark]

theorem trim_dropWhile (s : List Char) : trim (s.dropWhile isBlank) = trim s := by
  have surrounded : Surrounded (s.dropWhile isBlank)
      (s.takeWhile isBlank ++ s.dropWhile isBlank ++ []) :=
    .mk (fun c => List.mem_takeWhile_imp) nofun
  rw [List.takeWhile_append_dropWhile, List.append_nil] at surrounded
  exact surrounded.trim_eq.symm

theorem trim_trimEnd (s : List Char) : trim (trimEnd s) = trim s := by
  have surrounded : Surrounded (trimEnd s) ([] ++ trimEnd s ++ s.rtakeWhile isBlank) :=
    .mk nofun fun c => List.mem_rtakeWhile_imp
  have whole : trimEnd s ++ s.rtakeWhile isBlank = s := List.rdropWhile_append_rtakeWhile
  rw [List.nil_append, whole] at surrounded
  exact surrounded.trim_eq.symm

end Text

namespace LoadSchedule

open Text (Blank Surrounded join trim)

variable {s part part' before after duration threads : List Char}
  {parts parts' : List (List Char)} {level : LoadLevel} {schedule : LoadSchedule}
  {R : List Char → List Char → Prop}

/-- There is no comma inside of a part. -/
def CommaFree (parts : List (List Char)) : Prop := ∀ part ∈ parts, ',' ∉ part

instance (parts : List (List Char)) : Decidable (CommaFree parts) :=
  List.decidableBAll (fun part => ',' ∉ part) parts

/-- There is more white space in one list of parts than in another: in its parts, as far as the
relation allows, and as parts of their own. -/
inductive Spaced (R : List Char → List Char → Prop) : List (List Char) → List (List Char) → Prop
  | nil : Spaced R [] []
  | blank {part : List Char} {parts parts' : List (List Char)} (blank : Blank part)
      (rest : Spaced R parts parts') : Spaced R parts (part :: parts')
  | part {part part' : List Char} {parts parts' : List (List Char)} (related : R part part')
      (rest : Spaced R parts parts') : Spaced R (part :: parts) (part' :: parts')

/-- One text is the other one with white space around it and around what stands after its first
colon. -/
inductive Padded : List Char → List Char → Prop
  | around {part part' : List Char} (surrounded : Surrounded part part') : Padded part part'
  | threads {duration threads threads' part : List Char} (first : ':' ∉ duration)
      (inner : Surrounded threads threads')
      (outer : Surrounded (duration ++ ':' :: threads') part) :
      Padded (duration ++ ':' :: threads) part

/-- The error without the level that it quotes. -/
def ReadError.unquoted : ReadError → ReadError
  | .threads _ => .threads ""
  | e => e

/-- What is read, whatever level a faulty number of threads is quoted with. -/
def unquoted {α : Type} (x : Except (Fault ReadError) α) : Except (Fault ReadError) α :=
  x.mapError (Fault.map ReadError.unquoted)

theorem segments_append (a b : List Char) :
    segments (a ++ ',' :: b) = segments a ++ segments b := by
  rw [segments, Text.splitAt_append, List.map_append, List.filter_append]
  rfl

theorem segments_join (free : CommaFree parts) :
    segments (join ',' parts) = (parts.map trim).filter fun segment => !segment.isEmpty := by
  by_cases empty : parts = []
  · subst empty
    rfl
  · rw [segments, Text.splitAt_join empty free]

/-- The segments are the parts that are not blank, without the white space around them. -/
theorem segments_join_eq (free : CommaFree parts) :
    segments (join ',' parts) = (parts.filter fun part => ¬ Blank part).map trim := by
  rw [segments_join free, List.filter_map]
  congr 1
  refine List.filter_congr fun part _ => ?_
  rw [Bool.eq_iff_iff]
  simp [← Text.trim_eq_nil_iff]

/-- What is read on both sides of the first colon of a level. -/
def readSides (level duration threads : List Char) : Except (Fault ReadError) LoadLevel :=
  match Text.word (trim threads) with
  | .error _ => refuse (.threads (String.ofList level))
  | .ok threads =>
    match Span.read duration with
    | .ok duration => .ok ⟨duration, threads⟩
    | .error e => .error (e.map .duration)

theorem readLevel_eq_sides (first : ':' ∉ duration) :
    readLevel (duration ++ ':' :: threads) =
      readSides (duration ++ ':' :: threads) duration threads := by
  rw [readLevel, Text.cutAt?_of_not_mem first]
  rfl

theorem readSides_congr {duration' threads' : List Char} (same : trim duration' = trim duration)
    (same' : trim threads' = trim threads) (level : List Char) :
    readSides level duration' threads' = readSides level duration threads := by
  rw [readSides, readSides, same', Span.read, same]
  rfl

theorem unquoted_readSides (level level' duration threads : List Char) :
    unquoted (readSides level' duration threads) = unquoted (readSides level duration threads) := by
  unfold readSides
  cases Text.word (trim threads) <;> rfl

theorem readLevel_trim (first : ':' ∉ duration) : readLevel (trim (duration ++ ':' :: threads)) =
    readSides (trim (duration ++ ':' :: threads)) duration threads := by
  have mark : Text.isBlank ':' = false := by decide
  have first' : ':' ∉ duration.dropWhile Text.isBlank :=
    fun mem => first ((List.dropWhile_sublist _).subset mem)
  rw [Text.trim_of_mark mark, readLevel_eq_sides first']
  exact readSides_congr (Text.trim_dropWhile duration) (Text.trim_trimEnd threads) _

/-- Related parts mean the same, as far as the errors are looked at. -/
structure Harmless (view : Fault ReadError → Fault ReadError)
    (R : List Char → List Char → Prop) : Prop where
  blank : ∀ part part', R part part' → (Blank part' ↔ Blank part)
  free : ∀ part part', R part part' → ',' ∉ part → ',' ∉ part'
  level : ∀ part part', R part part' →
    (readLevel (trim part')).mapError view = (readLevel (trim part)).mapError view

theorem not_mem_of_blank (blank : Blank part) : ',' ∉ part :=
  fun mem => absurd (blank ',' mem) (by decide)

theorem blank_of_surrounded (surrounded : Surrounded part part') : Blank part' ↔ Blank part := by
  rw [← Text.trim_eq_nil_iff, ← Text.trim_eq_nil_iff, surrounded.trim_eq]

theorem free_of_surrounded (surrounded : Surrounded part part') (free : ',' ∉ part) :
    ',' ∉ part' := by
  obtain ⟨blank, blank'⟩ := surrounded
  simp [not_mem_of_blank blank, not_mem_of_blank blank', free]

theorem harmless_surrounded : Harmless id Surrounded where
  blank _ _ := blank_of_surrounded
  free _ _ := free_of_surrounded
  level _ _ surrounded := by rw [surrounded.trim_eq]

theorem not_blank_of_colon : ¬ Blank (duration ++ ':' :: threads) :=
  fun blank => absurd (blank ':' (by simp)) (by decide)

theorem harmless_padded : Harmless (Fault.map ReadError.unquoted) Padded where
  blank part part' padded := by
    cases padded with
    | around surrounded => exact blank_of_surrounded surrounded
    | threads first inner outer =>
      rw [blank_of_surrounded outer]
      exact iff_of_false not_blank_of_colon not_blank_of_colon
  free part part' padded free := by
    cases padded with
    | around surrounded => exact free_of_surrounded surrounded free
    | threads first inner outer =>
      refine free_of_surrounded outer ?_
      simp only [List.mem_append, List.mem_cons, not_or] at free ⊢
      exact ⟨free.1, free.2.1, free_of_surrounded inner free.2.2⟩
  level part part' padded := by
    cases padded with
    | around surrounded => rw [surrounded.trim_eq]
    | threads first inner outer =>
      rw [outer.trim_eq, readLevel_trim first, readLevel_trim first,
        readSides_congr rfl inner.trim_eq]
      exact unquoted_readSides _ _ _ _

section Spaced

variable {view : Fault ReadError → Fault ReadError}

theorem CommaFree.spaced (free : CommaFree parts) (harmless : Harmless view R)
    (spaced : Spaced R parts parts') : CommaFree parts' := by
  induction spaced with
  | nil => exact free
  | blank blank _ ih => exact List.forall_mem_cons.mpr ⟨not_mem_of_blank blank, ih free⟩
  | part related _ ih =>
    obtain ⟨headFree, free⟩ := List.forall_mem_cons.mp free
    exact List.forall_mem_cons.mpr ⟨harmless.free _ _ related headFree, ih free⟩

theorem mapError_readLevels_cons (text : List Char) (rest : List (List Char)) :
    (readLevels (text :: rest)).mapError view =
      ((readLevel text).mapError view).bind fun level =>
        ((readLevels rest).mapError view).map (level :: ·) := by
  rw [readLevels]
  cases readLevel text with
  | error e => rfl
  | ok level => cases readLevels rest <;> rfl

/-- The levels that are read of parts, without those that are blank. -/
theorem readLevels_of_spaced (harmless : Harmless view R) (spaced : Spaced R parts parts') :
    (readLevels ((parts'.filter fun part => ¬ Blank part).map trim)).mapError view =
      (readLevels ((parts.filter fun part => ¬ Blank part).map trim)).mapError view := by
  induction spaced with
  | nil => rfl
  | blank blank _ ih => rwa [List.filter_cons_of_neg (by simpa using blank)]
  | @part part part' parts parts' related _ ih =>
    have same := harmless.blank _ _ related
    by_cases blank : Blank part
    · rwa [List.filter_cons_of_neg (by simpa using same.mpr blank),
        List.filter_cons_of_neg (by simpa using blank)]
    · rw [List.filter_cons_of_pos (by simpa using mt same.mp blank),
        List.filter_cons_of_pos (by simpa using blank), List.map_cons, List.map_cons,
        mapError_readLevels_cons, mapError_readLevels_cons, harmless.level _ _ related, ih]

theorem read_of_spaced (harmless : Harmless view R) (free : CommaFree parts)
    (spaced : Spaced R parts parts') :
    (read (join ',' parts')).mapError view = (read (join ',' parts)).mapError view := by
  have seen : ∀ parts, CommaFree parts → (read (join ',' parts)).mapError view =
      ((readLevels ((parts.filter fun part => ¬ Blank part).map trim)).mapError view).bind
        fun levels => (ofLevels levels).mapError fun e => view (.refused (.schedule e)) := by
    intro parts free
    rw [read_eq, segments_join_eq free]
    cases readLevels ((parts.filter fun part => ¬ Blank part).map trim) with
    | error e => rfl
    | ok levels =>
      dsimp only [Except.mapError, Except.bind]
      cases ofLevels levels <;> rfl
  rw [seen _ free, seen _ (free.spaced harmless spaced), readLevels_of_spaced harmless spaced]

end Spaced

theorem mapError_id {ε α : Type} (x : Except ε α) : x.mapError id = x := by
  cases x <;> rfl

theorem mapError_eq_ok_iff {ε δ α : Type} {f : ε → δ} {x : Except ε α} {a : α} :
    x.mapError f = .ok a ↔ x = .ok a := by
  cases x <;> simp [Except.mapError]

/-- White space around a level does not matter for what it describes. -/
theorem describes_trim : Describes (trim part) level ↔ Describes part level := by
  by_cases colon : ':' ∈ part
  · obtain ⟨duration, threads, rfl, first⟩ := List.eq_append_cons_of_mem colon
    have same := unquoted_readSides (duration ++ ':' :: threads)
      (trim (duration ++ ':' :: threads)) duration threads
    rw [← readLevel_eq_sides first, ← readLevel_trim first] at same
    rw [← readLevel_eq_ok_iff, ← readLevel_eq_ok_iff, ← mapError_eq_ok_iff,
      ← mapError_eq_ok_iff (x := readLevel (duration ++ ':' :: threads))]
    exact same.congr_left
  · have undescribed : ∀ text, ':' ∉ text → ¬ Describes text level := by
      rintro text colonless ⟨duration, threads, cut, -⟩
      rw [(Text.cutAt?_eq_some cut).1] at colonless
      simp at colonless
    obtain ⟨before, after, -, -, same⟩ := Text.exists_of_trim part
    have colon' : ':' ∉ trim part := fun mem => colon (by rw [same]; simp [mem])
    exact iff_of_false (undescribed _ colon') (undescribed _ colon)

theorem read_append {a b : List Char} {first second : LoadSchedule} (parsed : read a = .ok first)
    (read' : read b = .ok second) :
    read (a ++ ',' :: b) = .ok ⟨first.levels ++ second.levels⟩ := by
  obtain ⟨levels, described, accepted⟩ := read_eq_ok_iff.mp parsed
  obtain ⟨levels', described', accepted'⟩ := read_eq_ok_iff.mp read'
  obtain ⟨nonempty, positive, rfl⟩ := ofLevels_eq_ok_iff.mp accepted
  obtain ⟨-, positive', rfl⟩ := ofLevels_eq_ok_iff.mp accepted'
  refine read_eq_ok_iff.mpr ⟨levels ++ levels', ?_, ofLevels_eq_ok_iff.mpr ⟨?_, ?_, rfl⟩⟩
  · rw [segments_append]
    exact List.rel_append described described'
  · exact List.append_ne_nil_of_left_ne_nil nonempty _
  · exact List.forall_mem_append.mpr ⟨positive, positive'⟩

/-- There is a level for every part that is not blank, in their order. -/
theorem levels_of_read (free : CommaFree parts) (parsed : read (join ',' parts) = .ok schedule) :
    List.Forall₂ Describes (parts.filter fun part => ¬ Blank part) schedule.levels ∧
      schedule.levels ≠ [] ∧ ∀ level ∈ schedule.levels, 0 < level.duration.nanos := by
  obtain ⟨levels, described, accepted⟩ := read_eq_ok_iff.mp parsed
  obtain ⟨nonempty, positive, rfl⟩ := ofLevels_eq_ok_iff.mp accepted
  rw [segments_join_eq free, List.forall₂_map_left_iff] at described
  exact ⟨described.imp fun _ _ => describes_trim.mp, nonempty, positive⟩

theorem read_of_blank (blank : ∀ part ∈ parts, Blank part) :
    read (join ',' parts) = refuse (.schedule .noLevels) := by
  have free : CommaFree parts := fun part mem => not_mem_of_blank (blank part mem)
  have empty : (parts.filter fun part => ¬ Blank part) = [] :=
    List.filter_eq_nil_iff.mpr fun part mem => by simpa using blank part mem
  rw [read_eq, segments_join_eq free, empty]
  rfl

end LoadSchedule

open LoadSchedule Text in
/-- Two schedules with a comma between them are read as the levels of both. White space in parts of
its own and around parts does not change what is read, and around a number of threads it changes
nothing but how that part is quoted when the number is faulty. What is read has a level for every
part that is not blank, in their order, none of which lasts for no time at all; and there has to be
such a part. Every text consists of parts with commas between them. -/
theorem schedule_texts_compose :
    (∀ a b first second, read a = .ok first → read b = .ok second →
      read (a ++ ',' :: b) = .ok ⟨first.levels ++ second.levels⟩) ∧
    (∀ parts parts', CommaFree parts → Spaced Surrounded parts parts' →
      read (join ',' parts') = read (join ',' parts)) ∧
    (∀ parts parts', CommaFree parts → Spaced Padded parts parts' →
      (∀ schedule, read (join ',' parts') = .ok schedule ↔ read (join ',' parts) = .ok schedule) ∧
      unquoted (read (join ',' parts')) = unquoted (read (join ',' parts))) ∧
    (∀ parts schedule, CommaFree parts → read (join ',' parts) = .ok schedule →
      List.Forall₂ Describes (parts.filter fun part => ¬ Blank part) schedule.levels ∧
      schedule.levels ≠ [] ∧ ∀ level ∈ schedule.levels, 0 < level.duration.nanos) ∧
    (∀ parts, (∀ part ∈ parts, Blank part) →
      read (join ',' parts) = refuse (.schedule .noLevels)) ∧
    ∀ text, ∃ parts, CommaFree parts ∧ text = join ',' parts := by
  refine ⟨fun a b first second => read_append, fun parts parts' free spaced => ?_,
    fun parts parts' free spaced => ?_, fun parts schedule => levels_of_read,
    fun parts => read_of_blank, fun text => ?_⟩
  · have same := read_of_spaced harmless_surrounded free spaced
    rwa [mapError_id, mapError_id] at same
  · have same := read_of_spaced harmless_padded free spaced
    refine ⟨fun schedule => ?_, same⟩
    rw [← mapError_eq_ok_iff, ← mapError_eq_ok_iff (x := read (join ',' parts))]
    exact same.congr_left
  · exact ⟨splitAt ',' text, fun part => not_mem_of_mem_splitAt, (join_splitAt ',' text).symm⟩

open LoadSchedule Text in
/-- Two levels, written apart, together, and with white space in three places. -/
theorem schedule_texts_compose_spaced :
    let first : LoadLevel := ⟨⟨10000000000⟩, 4⟩
    let second : LoadLevel := ⟨⟨500000000⟩, 8⟩
    read "10s:4".toList = .ok ⟨[first]⟩ ∧ read "500ms:8".toList = .ok ⟨[second]⟩ ∧
      read "10s:4,500ms:8".toList = .ok ⟨[first, second]⟩ ∧
      read "10s: 4 ,\t, 500ms:8".toList = .ok ⟨[first, second]⟩ := by
  intro first second
  have parsed : read "10s:4".toList = .ok ⟨[first]⟩ := by decide +kernel
  have read' : read "500ms:8".toList = .ok ⟨[second]⟩ := by decide +kernel
  have together := schedule_texts_compose.1 _ _ _ _ parsed read'
  refine ⟨parsed, read', together, ?_⟩
  have blank : Blank [' '] := by decide
  have around : Padded "500ms:8".toList " 500ms:8".toList :=
    .around (@Surrounded.mk [' '] "500ms:8".toList [] blank nofun)
  have inside : Padded "10s:4".toList "10s: 4 ".toList :=
    @Padded.threads "10s".toList ['4'] [' ', '4', ' '] _ (by decide)
      (@Surrounded.mk [' '] ['4'] [' '] blank blank)
      (@Surrounded.mk [] "10s: 4 ".toList [] nofun nofun)
  have spaced : Spaced Padded ["10s:4".toList, "500ms:8".toList]
      ["10s: 4 ".toList, ['\t'], " 500ms:8".toList] :=
    .part inside (.blank (by decide) (.part around .nil))
  have free : CommaFree ["10s:4".toList, "500ms:8".toList] := by decide +kernel
  exact ((schedule_texts_compose.2.2.1 _ _ free spaced).1 _).mpr together

end LoadGen
