import LoadGen.Proofs.RunLimits
import LoadGen.Proofs.Stamps
import Mathlib.Algebra.GroupWithZero.Nat

namespace LoadGen

namespace Stamp

theorem ofSpan_mono {a b : Nat} (le : a ≤ b) : ofSpan ⟨a⟩ ≤ ofSpan ⟨b⟩ := by
  show min (a : Int) greatest ≤ min (b : Int) greatest
  omega

/-- Spans added one by one, and held at the greatest number each time, are held at it once. -/
theorem plus_ofSpan (a : Nat) (d : Span) : plus (ofSpan ⟨a⟩) (ofSpan d) = ofSpan ⟨a + d.nanos⟩ := by
  show max (-9223372036854775808 : Int) (min (min (a : Int) 9223372036854775807 +
    min (d.nanos : Int) 9223372036854775807) 9223372036854775807) =
      min ((a + d.nanos : Nat) : Int) 9223372036854775807
  omega

end Stamp

namespace LoadSchedule

variable {levels rest : List LoadLevel} {level : LoadLevel} {s : LoadSchedule} {e : Stamp}
  {i n : Nat}

theorem ofLevels_eq_ok_iff : ofLevels levels = .ok s ↔
    levels ≠ [] ∧ (∀ level ∈ levels, 0 < level.duration.nanos) ∧ s = ⟨levels⟩ := by
  unfold ofLevels
  split
  next empty => simp [List.isEmpty_iff.mp empty]
  next inhabited =>
    have nonempty : levels ≠ [] := fun noLevels => inhabited (List.isEmpty_iff.mpr noLevels)
    split
    next level found =>
      have zero : level.duration.nanos = 0 := by simpa using List.find?_some found
      have mem : level ∈ levels := List.mem_of_find?_eq_some found
      simp only [reduceCtorEq, false_iff]
      rintro ⟨-, positive, -⟩
      have := positive level mem
      omega
    next found =>
      have positive : ∀ level ∈ levels, 0 < level.duration.nanos := by
        intro level mem
        have := List.find?_eq_none.mp found level mem
        simp only [decide_eq_true_eq] at this
        omega
      rw [Except.ok.injEq]
      exact ⟨fun same => ⟨nonempty, positive, same.symm⟩, fun ⟨_, _, same⟩ => same.symm⟩

/-- The nanoseconds that the first levels take together. -/
def nanosOf (levels : List LoadLevel) (n : Nat) : Nat :=
  ((levels.take n).map fun level => level.duration.nanos).sum

/-- When the level at a place begins, which is when the one before it ends. Beyond the range of the
clock, levels have no time of their own. -/
def begins (s : LoadSchedule) (i : Nat) : Stamp := Stamp.ofSpan ⟨nanosOf s.levels i⟩

theorem nanosOf_cons (level : LoadLevel) (rest : List LoadLevel) (n : Nat) :
    nanosOf (level :: rest) (n + 1) = level.duration.nanos + nanosOf rest n := by
  simp [nanosOf]

theorem nanosOf_succ (entry : levels[i]? = some level) :
    nanosOf levels (i + 1) = nanosOf levels i + level.duration.nanos := by
  induction levels generalizing i with
  | nil => cases entry
  | cons first rest ih =>
    cases i with
    | zero =>
      obtain rfl : first = level := Option.some.inj entry
      simp [nanosOf]
    | succ i =>
      have step := ih entry
      rw [nanosOf_cons, nanosOf_cons, step]
      omega

theorem nanosOf_mono (levels : List LoadLevel) (le : i ≤ n) :
    nanosOf levels i ≤ nanosOf levels n := by
  induction levels generalizing i n with
  | nil => simp [nanosOf]
  | cons first rest ih =>
    cases i with
    | zero => simp [nanosOf]
    | succ i =>
      obtain ⟨n, rfl⟩ : ∃ k, n = k + 1 := ⟨n - 1, by omega⟩
      rw [nanosOf_cons, nanosOf_cons]
      exact Nat.add_le_add_left (ih (Nat.le_of_succ_le_succ le)) _

/-- While the time of the levels fits the clock, each of them begins after the one before. -/
theorem begins_lt (entry : s.levels[i]? = some level) (positive : 0 < level.duration.nanos)
    (fits : (nanosOf s.levels (i + 1) : Int) ≤ Stamp.greatest) : s.begins i < s.begins (i + 1) := by
  have step := nanosOf_succ entry
  show min (nanosOf s.levels i : Int) Stamp.greatest <
    min (nanosOf s.levels (i + 1) : Int) Stamp.greatest
  omega

theorem levelFrom_of_within (before : Nat) (entry : levels[i]? = some level)
    (begun : Stamp.ofSpan ⟨before + nanosOf levels i⟩ ≤ e)
    (within : e < Stamp.ofSpan ⟨before + nanosOf levels (i + 1)⟩ ∨ i + 1 = levels.length) :
    levelFrom (Stamp.ofSpan ⟨before⟩) e levels = (level.threads,
      if i + 1 = levels.length then none
      else some (Stamp.ofSpan ⟨before + nanosOf levels (i + 1)⟩)) := by
  induction levels generalizing before i with
  | nil => cases entry
  | cons first rest ih =>
    cases rest with
    | nil =>
      cases i with
      | zero =>
        obtain rfl : first = level := Option.some.inj entry
        rfl
      | succ i => cases entry
    | cons other rest =>
      unfold levelFrom
      dsimp only
      rw [Stamp.plus_ofSpan]
      cases i with
      | zero =>
        obtain rfl : first = level := Option.some.inj entry
        have length : nanosOf (first :: other :: rest) (0 + 1) = first.duration.nanos := by
          simp [nanosOf]
        have inside := within.resolve_right (by simp)
        rw [length] at inside ⊢
        rw [if_pos inside, if_neg (by simp)]
      | succ i =>
        rw [nanosOf_cons, ← Nat.add_assoc] at begun within ⊢
        have passed : Stamp.ofSpan ⟨before + first.duration.nanos⟩ ≤ e :=
          le_trans (Stamp.ofSpan_mono (Nat.le_add_right _ _)) begun
        have later := ih (before + first.duration.nanos) entry begun (by simpa using within)
        rw [if_neg (not_lt.mpr passed), later]
        simp

/-- The level that is in force at a time, and when the next one begins. -/
theorem levelAt_of_within (entry : s.levels[i]? = some level) (begun : s.begins i ≤ e)
    (within : e < s.begins (i + 1) ∨ i + 1 = s.levels.length) :
    s.levelAt e = (level.threads,
      if i + 1 = s.levels.length then none else some (s.begins (i + 1))) := by
  unfold begins at begun within ⊢
  rw [← Nat.zero_add (nanosOf s.levels i)] at begun
  rw [← Nat.zero_add (nanosOf s.levels (i + 1))] at within ⊢
  exact levelFrom_of_within 0 entry begun within

/-- At any time after the start, one of the first levels is in force or the last of them is over. -/
theorem exists_within (s : LoadSchedule) (begun : 0 ≤ e) (n : Nat) :
    ∃ i ≤ n, s.begins i ≤ e ∧ (e < s.begins (i + 1) ∨ i = n) := by
  induction n with
  | zero => exact ⟨0, Nat.le_refl 0, begun, Or.inr rfl⟩
  | succ n ih =>
    obtain ⟨i, le, since, bounded | rfl⟩ := ih
    · exact ⟨i, by omega, since, Or.inl bounded⟩
    · by_cases ends : e < s.begins (i + 1)
      · exact ⟨i, by omega, since, Or.inl ends⟩
      · exact ⟨i + 1, Nat.le_refl _, not_lt.mp ends, Or.inr rfl⟩

/-- A level that is not the first one begins after the earlier of two times, and has begun at the
later one. -/
def SwitchesBetween (s : LoadSchedule) (a b : Stamp) : Prop :=
  ∃ i, 0 < i ∧ i < s.levels.length ∧ min a b < s.begins i ∧ s.begins i ≤ max a b

theorem levelAt_eq_or_switches_of_le {a b : Stamp} (s : LoadSchedule) (begun : 0 ≤ a) (le : a ≤ b) :
    s.levelAt a = s.levelAt b ∨ s.SwitchesBetween a b := by
  by_cases inhabited : s.levels = []
  · have never (e : Stamp) : s.levelAt e = (0, none) := by rw [levelAt, inhabited, levelFrom]
    exact Or.inl ((never a).trans (never b).symm)
  have nonempty : 0 < s.levels.length := List.length_pos_iff.mpr inhabited
  obtain ⟨i, last, since, bounded⟩ := s.exists_within begun (s.levels.length - 1)
  have inside : i < s.levels.length := by omega
  have entry : s.levels[i]? = some s.levels[i] := List.getElem?_eq_getElem inside
  by_cases switched : i + 1 < s.levels.length ∧ s.begins (i + 1) ≤ b
  · -- The next level has begun by then, and it had not at first.
    have before : a < s.begins (i + 1) := bounded.resolve_right (by omega)
    refine Or.inr ⟨i + 1, Nat.succ_pos i, switched.1, ?_, ?_⟩
    · rwa [min_eq_left le]
    · rw [max_eq_right le]
      exact switched.2
  · have within : b < s.begins (i + 1) ∨ i + 1 = s.levels.length := by
      by_cases more : i + 1 < s.levels.length
      · exact Or.inl (not_le.mp fun begins => switched ⟨more, begins⟩)
      · exact Or.inr (by omega)
    left
    rw [levelAt_of_within entry (le_trans since le) within]
    exact levelAt_of_within entry since (within.imp_left (lt_of_le_of_lt le))

/-- The level that is in force changes only with a switch. -/
theorem levelAt_eq_or_switches {a b : Stamp} (s : LoadSchedule) (first : 0 ≤ a) (second : 0 ≤ b) :
    s.levelAt a = s.levelAt b ∨ s.SwitchesBetween a b := by
  rcases le_total a b with le | le
  · exact s.levelAt_eq_or_switches_of_le first le
  · rcases s.levelAt_eq_or_switches_of_le second le with same | ⟨i, later, inside, after, begun⟩
    · exact Or.inl same.symm
    · exact Or.inr ⟨i, later, inside, min_comm a b ▸ after, max_comm a b ▸ begun⟩

/-- A switch leads to the level that follows, if the levels before the last one fit the clock. -/
theorem levelAt_begins {following : LoadLevel} (entry : s.levels[i]? = some following)
    (positive : ∀ level ∈ s.levels, 0 < level.duration.nanos)
    (fits : (nanosOf s.levels (s.levels.length - 1) : Int) ≤ Stamp.greatest) :
    s.levelAt (s.begins i) = (following.threads,
      if i + 1 = s.levels.length then none else some (s.begins (i + 1))) := by
  refine levelAt_of_within entry le_rfl ?_
  by_cases last : i + 1 = s.levels.length
  · exact Or.inr last
  · have inside := (List.getElem?_eq_some_iff.mp entry).1
    have within := nanosOf_mono s.levels (show i + 1 ≤ s.levels.length - 1 by omega)
    exact Or.inl (begins_lt entry (positive _ (List.mem_of_getElem? entry)) (by omega))

end LoadSchedule

open LoadSchedule in
/-- At every time from the start on, there is one level that has begun and is not over, or the last
one, and its threads are the active ones. It is followed by another unless it is the last one, and
when that begins is told: after the time in question, and not before the answer changes. The switch
leads to the very next level, as long as the levels before the last one fit the clock. No more
threads are active than the schedule has at most. -/
theorem level_in_force {levels : List LoadLevel} {s : LoadSchedule}
    (accepted : ofLevels levels = .ok s) {e : Stamp} (started : 0 ≤ e) :
    s.levels = levels ∧ ∃ i level, s.levels[i]? = some level ∧
      s.begins i ≤ e ∧ (e < s.begins (i + 1) ∨ i + 1 = s.levels.length) ∧
      s.levelAt e = (level.threads,
        if i + 1 = s.levels.length then none else some (s.begins (i + 1))) ∧
      (∀ offset, (s.levelAt e).2 = some offset → e < offset) ∧
      (∀ later, e ≤ later → (∀ offset, (s.levelAt e).2 = some offset → later < offset) →
        s.levelAt later = s.levelAt e) ∧
      ((nanosOf s.levels (s.levels.length - 1) : Int) ≤ Stamp.greatest →
        ∀ offset, (s.levelAt e).2 = some offset → ∃ following,
          s.levels[i + 1]? = some following ∧ s.levelAt offset = (following.threads,
            if i + 2 = s.levels.length then none else some (s.begins (i + 2)))) ∧
      (s.levelAt e).1 ≤ s.maxThreads := by
  obtain ⟨inhabited, positive, rfl⟩ := ofLevels_eq_ok_iff.mp accepted
  have nonempty : 0 < levels.length := List.length_pos_iff.mpr inhabited
  obtain ⟨i, le, begun, bounded⟩ := exists_within ⟨levels⟩ started (levels.length - 1)
  have inside : i < levels.length := by omega
  have entry : levels[i]? = some levels[i] := List.getElem?_eq_getElem inside
  have within : e < begins ⟨levels⟩ (i + 1) ∨ i + 1 = levels.length :=
    bounded.imp_right fun last => by omega
  have found := levelAt_of_within entry begun within
  refine ⟨rfl, i, levels[i], entry, begun, within, found, fun offset => lt_of_levelFrom,
    fun later => levelFrom_eq_of_lt, fun fits offset switches => ?_, ?_⟩
  · -- A switch is told before the last level only, and is the end of this one.
    rw [found] at switches
    split at switches
    next => cases switches
    next more =>
      obtain rfl := Option.some.inj switches
      have successor : levels[i + 1]? = some levels[i + 1] :=
        List.getElem?_eq_getElem (show i + 1 < levels.length by
          change ¬ i + 1 = levels.length at more
          omega)
      exact ⟨_, successor, levelAt_begins successor positive fits⟩
  · rw [found]
    exact maxThreads_le_iff.mp (Nat.le_refl _) _ (List.getElem_mem inside)

/-- Two threads are active for ten nanoseconds, and eight after that. -/
theorem level_in_force_until_switch :
    let s : LoadSchedule := ⟨[⟨⟨10⟩, 2⟩, ⟨⟨5⟩, 8⟩]⟩
    LoadSchedule.ofLevels s.levels = .ok s ∧ (0 : Stamp) ≤ 3 ∧
      (∀ later, 3 ≤ later → later < 10 → s.levelAt later = (2, some 10)) ∧
      s.levelAt 10 = (8, none) := by
  intro s
  have accepted : LoadSchedule.ofLevels s.levels = .ok s := rfl
  have started : (0 : Stamp) ≤ 3 := by decide
  obtain ⟨-, i, level, -, -, -, -, -, constant, -⟩ := level_in_force accepted started
  refine ⟨accepted, started, fun later begun bounded => ?_, rfl⟩
  refine constant later begun fun offset switches => ?_
  obtain rfl : (10 : Stamp) = offset := Option.some.inj switches
  exact bounded

end LoadGen
