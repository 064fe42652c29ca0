import LoadGen.Policy
import Mathlib.Data.Int.Order.Basic

namespace LoadGen

namespace Stamp

variable {a t d : Stamp}

theorem ofSpan_nonneg (s : Span) : 0 ≤ ofSpan s := by
  show (0 : Int) ≤ min (s.nanos : Int) 9223372036854775807
  omega

theorem plus_le_greatest (t d : Stamp) : plus t d ≤ greatest :=
  max_le (by decide) (min_le_right _ _)

theorem le_plus (le : a ≤ t) (word : a ≤ greatest) (nonneg : 0 ≤ d) : a ≤ plus t d := by
  have within : a ≤ min (t + d) greatest :=
    le_min (le_trans le (Int.le_add_of_nonneg_right nonneg)) word
  exact le_trans within (le_max_right _ _)

theorem plus_ofSpan_le {a b : Int} (le : a ≤ b) (word : least ≤ b) (s : Span) :
    plus a (ofSpan s) ≤ b + s.nanos := by
  have word : (-9223372036854775808 : Int) ≤ b := word
  show max (-9223372036854775808 : Int)
    (min (a + min (s.nanos : Int) 9223372036854775807) 9223372036854775807) ≤ b + s.nanos
  omega

/-- A sum below the greatest number has not been held back. -/
theorem add_le_greatest (below : plus a d < greatest) : a + d ≤ greatest := by
  by_contra beyond
  have held : min (a + d) greatest = greatest := min_eq_right (le_of_not_ge beyond)
  have greatest_le : greatest ≤ plus a d := by
    show greatest ≤ max least (min (a + d) greatest)
    rw [held]
    exact le_max_right _ _
  exact absurd below (not_lt.mpr greatest_le)

/-- What comes no earlier than it is intended comes no earlier than its delay has passed. -/
theorem le_minus (fits : a + d ≤ greatest) (word : d ≤ greatest) (due : plus a d ≤ t) :
    d ≤ minus t a := by
  have early : a + d ≤ t := by
    refine le_trans (le_trans ?_ (le_max_right _ _)) due
    exact le_min le_rfl fits
  have passed : d ≤ t - a := Int.le_sub_left_of_add_le early
  exact le_trans (le_min passed word) (le_max_right _ _)

theorem minus_le_minus {t u : Int} (le : t ≤ u) (a : Int) : minus t a ≤ minus u a := by
  show max (-9223372036854775808 : Int) (min (t - a) 9223372036854775807) ≤
    max (-9223372036854775808 : Int) (min (u - a) 9223372036854775807)
  omega

end Stamp

/-- The schedule stays at a level until the next one begins. -/
theorem LoadSchedule.levelFrom_eq_of_lt {boundary elapsed later : Stamp} {levels : List LoadLevel}
    (le : elapsed ≤ later)
    (before : ∀ next, (levelFrom boundary elapsed levels).2 = some next → later < next) :
    levelFrom boundary later levels = levelFrom boundary elapsed levels := by
  induction levels generalizing boundary with
  | nil => rfl
  | cons level rest ih =>
    cases rest with
    | nil => rfl
    | cons other rest =>
      unfold levelFrom at before ⊢
      dsimp only at before ⊢
      split at before
      next within =>
        rw [if_pos within, if_pos (before _ rfl)]
      next beyond =>
        rw [if_neg beyond, if_neg (not_lt.mpr (le_trans (not_lt.mp beyond) le))]
        exact ih before

theorem LoadSchedule.lt_of_levelFrom {boundary elapsed next : Stamp} {levels : List LoadLevel}
    (switches : (levelFrom boundary elapsed levels).2 = some next) : elapsed < next := by
  induction levels generalizing boundary with
  | nil => cases switches
  | cons level rest ih =>
    cases rest with
    | nil => cases switches
    | cons other rest =>
      unfold levelFrom at switches
      dsimp only at switches
      split at switches
      next within => exact Option.some.inj switches ▸ within
      next => exact ih switches

/-- Times before the same switch are times of the same level. -/
theorem LoadSchedule.levelAt_eq_of_next {schedule : LoadSchedule} {t u : Stamp}
    (same : (schedule.levelAt t).2 = (schedule.levelAt u).2) :
    schedule.levelAt t = schedule.levelAt u := by
  rcases le_total t u with le | le
  · exact (levelFrom_eq_of_lt le fun next switches =>
      lt_of_levelFrom (same.symm.trans switches)).symm
  · exact levelFrom_eq_of_lt le fun next switches => lt_of_levelFrom (same.trans switches)

/-- A later level begins after the first one does. -/
theorem LoadSchedule.levelFrom_nonneg {boundary elapsed offset : Stamp} {levels : List LoadLevel}
    (nonneg : 0 ≤ boundary) (next : (levelFrom boundary elapsed levels).2 = some offset) :
    0 ≤ offset := by
  induction levels generalizing boundary with
  | nil => cases next
  | cons level rest ih =>
    cases rest with
    | nil => cases next
    | cons other rest =>
      have later : 0 ≤ Stamp.plus boundary (Stamp.ofSpan level.duration) :=
        Stamp.le_plus nonneg (by decide) (Stamp.ofSpan_nonneg _)
      unfold levelFrom at next
      dsimp only at next
      split at next
      next => exact Option.some.inj next ▸ later
      next => exact ih later next

/-- The level in force has the thread inactive, and no other level begins before the end of the run.
It does not matter who is active in levels that do begin before. -/
def LoadSchedule.SwitchesOff (s : LoadSchedule) (thread : Nat) (start now ending : Stamp) : Prop :=
  let level := s.levelAt (max (Stamp.minus now start) 0)
  level.1 ≤ thread ∧ ∀ offset, level.2 = some offset → ending ≤ Stamp.plus start offset

namespace TimePolicy

variable {p : TimePolicy} {schedule : LoadSchedule} {thread active : Nat} {start now wake : Stamp}

/-- A thread that parks is inactive until the next level, which begins before the end of the run. -/
theorem exists_of_park (parks : p.duty schedule thread start now = .park active wake) :
    ∃ offset, schedule.levelAt (max (Stamp.minus now start) 0) = (active, some offset) ∧
      active ≤ thread ∧ wake = Stamp.plus start offset ∧
      ∀ bounds, p.bounds = some bounds → wake < bounds.endRampDown := by
  unfold duty at parks
  split at parks
  next levels =>
    split at parks
    next => cases parks
    next inactive =>
      split at parks
      next => cases parks
      next offset =>
        dsimp only at parks
        split at parks
        next => cases parks
        next within =>
          cases parks
          refine ⟨offset, levels, Nat.not_lt.mp inactive, rfl, fun bounds set => ?_⟩
          simpa [set] using within

/-- A thread leaves when it is switched off for the rest of the run. -/
theorem duty_eq_leave_iff {bounds : TimeBounds} (set : p.bounds = some bounds) :
    p.duty schedule thread start now = .leave ↔
      schedule.SwitchesOff thread start now bounds.endRampDown := by
  unfold duty LoadSchedule.SwitchesOff
  split
  next active next levels =>
    rw [levels]
    split
    next within => simp [Nat.not_le.mpr within]
    next inactive =>
      cases next with
      | none => simpa using inactive
      | some offset =>
        dsimp only
        split
        next late => simpa [set, Nat.not_lt.mp inactive] using late
        next early => simpa [set, Nat.not_lt.mp inactive] using early

theorem exists_bounds (p : TimePolicy) (start : Stamp) :
    ∃ bounds, (p.withStart start).bounds = some bounds := by
  unfold withStart
  cases set : p.bounds with
  | some bounds => exact ⟨bounds, set⟩
  | none => exact ⟨_, rfl⟩

end TimePolicy

end LoadGen
