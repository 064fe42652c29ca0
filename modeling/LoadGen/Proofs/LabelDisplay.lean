import LoadGen.Proofs.LabelReading

namespace LoadGen.Percentile

open Text (Blank isBlank digit?)

/-- Neither blanks nor percent signs are in the text. -/
def Plain (s : List Char) : Prop := ∀ c ∈ s, isBlank c = false ∧ c ≠ '%'

/-- The number and the suffix of a percentile. -/
def spelling (p : Percentile) : List Char := p.label.toList ++ (p.suffix.getD "").toList

/-- What stands after the number and the suffix, blanks aside. -/
def signs : List (List Char) := [[], ['%']]

variable {label body number ending sign other : List Char} {p q : Percentile}

theorem plain_of_numberText {value : Binary64} (text : NumberText number value) : Plain number := by
  intro c mem
  have numeric := Binary64.read?_numeric text.read c mem
  exact ⟨numeric.not_blank, by rintro rfl; exact absurd numeric (by decide)⟩

theorem plain_of_ordinal (known : ending ∈ ordinals) : Plain ending := by
  simp only [ordinals, List.mem_cons, List.not_mem_nil, or_false] at known
  rcases known with rfl | rfl | rfl | rfl <;> simp [Plain, isBlank]

theorem Spelled.plain_text (spelled : Spelled body p) : Plain body := by
  cases spelled with
  | plain text digit => exact plain_of_numberText text
  | ordinal text known =>
    exact List.forall_mem_append.mpr ⟨plain_of_numberText text, plain_of_ordinal known⟩

/-- A percentile tells the one text that spells it. -/
theorem Spelled.eq_spelling (spelled : Spelled body p) : body = spelling p := by
  cases spelled with
  | plain text digit => simp [spelling]
  | ordinal text known => simp [spelling]

theorem trimmed_of_plain (plain : Plain body) (known : sign ∈ signs) :
    Text.Trimmed (body ++ sign) := by
  have unblank : ∀ c ∈ body ++ sign, isBlank c = false := by
    refine List.forall_mem_append.mpr ⟨fun c mem => (plain c mem).1, ?_⟩
    simp only [signs, List.mem_cons, List.not_mem_nil, or_false] at known
    rcases known with rfl | rfl <;> simp [isBlank]
  exact ⟨fun c first => unblank c (List.mem_of_head? first),
    fun c last => unblank c (List.mem_of_getLast? last)⟩

theorem bare_of_trim (plain : Plain body) (known : sign ∈ signs)
    (trimmed : Text.trim label = body ++ sign) : bare label = body := by
  unfold bare
  simp only [signs, List.mem_cons, List.not_mem_nil, or_false] at known
  rcases known with rfl | rfl
  · have noSign : body.getLast? ≠ some '%' :=
      fun last => (plain '%' (List.mem_of_getLast? last)).2 rfl
    rw [trimmed, List.append_nil]
    exact if_neg noSign
  · rw [trimmed]
    simp

theorem trim_of_bare (same : bare label = body) :
    ∃ sign ∈ signs, Text.trim label = body ++ sign := by
  subst same
  unfold bare
  by_cases percent : (Text.trim label).getLast? = some '%'
  · refine ⟨['%'], by simp [signs], ?_⟩
    simpa [percent] using (List.dropLast_append_getLast? _ percent).symm
  · exact ⟨[], by simp [signs], by simp [percent]⟩

/-- The labels with a given text inside are those that have blanks and possibly a percent sign
around it. -/
theorem bare_eq_iff (plain : Plain body) : bare label = body ↔ ∃ sign ∈ signs, ∃ before after,
    Blank before ∧ Blank after ∧ label = before ++ (body ++ sign) ++ after := by
  constructor
  · intro same
    obtain ⟨sign, known, trimmed⟩ := trim_of_bare same
    exact ⟨sign, known, (Text.trim_eq_iff.mp trimmed).2⟩
  · rintro ⟨sign, known, around⟩
    exact bare_of_trim plain known (Text.trim_eq_iff.mpr ⟨trimmed_of_plain plain known, around⟩)

theorem display_toList (p : Percentile) :
    ∃ sign ∈ signs, (display p).toList = spelling p ++ sign := by
  unfold display spelling
  cases p.suffix with
  | none => exact ⟨['%'], by simp [signs], by simp⟩
  | some suffix => exact ⟨[], by simp [signs], by simp⟩

theorem bare_display (spelled : Spelled body p) : bare (display p).toList = body := by
  obtain ⟨sign, known, text⟩ := display_toList p
  refine bare_of_trim spelled.plain_text known ?_
  rw [text, ← spelled.eq_spelling]
  exact Text.trim_of_trimmed (trimmed_of_plain spelled.plain_text known)

theorem read_display (accepted : read label = .ok p) : read (display p).toList = .ok p := by
  have spelled := read_eq_ok_iff.mp accepted
  exact read_of_spelled ((bare_display spelled).symm ▸ spelled)

/-- The display of what is read is a normal form: it reads back as the same percentile, which other
percentiles that can be read do not share with it, and the labels with this reading are the
spellings of it, with or without a percent sign, blanks around it aside. -/
theorem display_normal (accepted : read label = .ok p) :
    read (display p).toList = .ok p ∧
      (read (display p).toList).map display = .ok (display p) ∧
      (∀ other q, read other = .ok q → display q = display p → q = p) ∧
      ∀ other, read other = .ok p ↔ ∃ sign ∈ signs, ∃ before after,
        Blank before ∧ Blank after ∧ other = before ++ (spelling p ++ sign) ++ after := by
  have reread := read_display accepted
  refine ⟨reread, by rw [reread]; rfl, fun other q parsed same => ?_, fun other => ?_⟩
  · have reread' := read_display parsed
    rw [same, reread] at reread'
    exact (Except.ok.inj reread').symm
  · have spelled := read_eq_ok_iff.mp accepted
    have body := spelled.eq_spelling
    rw [body] at spelled
    rw [← bare_eq_iff spelled.plain_text, read_eq_ok_iff]
    exact ⟨fun spelled' => spelled'.eq_spelling, fun same => same.symm ▸ spelled⟩

theorem display_normal_spaced :
    read " 21st% ".toList = .ok ⟨21, "21", some "st"⟩ ∧
      read "21st".toList = .ok ⟨21, "21", some "st"⟩ := by
  have accepted : read " 21st% ".toList = .ok ⟨21, "21", some "st"⟩ := by decide +kernel
  exact ⟨accepted, (display_normal accepted).1⟩

end LoadGen.Percentile
