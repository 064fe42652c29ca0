import LoadGen.Proofs.Protocol
import Mathlib.Data.Int.Order.Basic

namespace LoadGen

/-- The reading, if the thread has just read the clock. -/
def Exchange.reading? : Exchange → Option Stamp
  | ⟨_, .call .clock, now⟩ => some now
  | _ => none

/-- The time that the thread has slept until, if it has just been woken for that time. -/
def Exchange.slept? : Exchange → Option Stamp
  | ⟨_, .call (.sleepUntil t), .reached⟩ => some t
  | _ => none

/-- Clocks are read when they show what is read, and never go back. -/
def Timely (x : Exchange) (older : History) : Prop :=
  (∀ now, x.reading? = some now → now = x.time) ∧ ∀ y ∈ older, y.time ≤ x.time

/-- The exchange is a timely one, and no sleep ends early. -/
structure Punctual (x : Exchange) (older : History) : Prop where
  timely : Timely x older
  slept : ∀ t, x.slept? = some t → t ≤ x.time

namespace History

/-- The clock has been seen to reach the time. -/
def Reached (h : History) (t : Stamp) : Prop := ∃ y ∈ h, t ≤ y.time

variable {h : History} {x : Exchange} {t u : Stamp}

theorem Reached.cons (reached : Reached h t) : Reached (x :: h) t := by
  obtain ⟨y, mem, le⟩ := reached
  exact ⟨y, List.mem_cons_of_mem x mem, le⟩

theorem Reached.of_le (reached : Reached h t) (le : u ≤ t) : Reached h u := by
  obtain ⟨y, mem, later⟩ := reached
  exact ⟨y, mem, le_trans le later⟩

theorem Reached.max (first : Reached h t) (second : Reached h u) : Reached h (max t u) := by
  rcases le_total t u with le | le
  · rwa [max_eq_right le]
  · rwa [max_eq_left le]

theorem reached_of_reading (timely : Timely x h) (read : x.reading? = some t) :
    Reached (x :: h) t :=
  ⟨x, by simp, le_of_eq (timely.1 t read)⟩

theorem reached_of_slept (punctual : Punctual x h) (slept : x.slept? = some t) :
    Reached (x :: h) t :=
  ⟨x, by simp, punctual.slept t slept⟩

/-- Who reads the clock reads nothing that has been passed. -/
theorem Reached.le (reached : Reached h t) (timely : Timely x h) (read : x.reading? = some u) :
    t ≤ u := by
  obtain ⟨y, mem, le⟩ := reached
  rw [timely.1 u read]
  exact le_trans le (timely.2 y mem)

end History

namespace Protocol

/-- Exchanges lie in the past. -/
def clock : Protocol where
  good _ _ := True
  place _ _ _ := True
  said now _ x := x.time ≤ now ∧ ∀ reading, x.reading? = some reading → reading = x.time
  grows _ _ _ := True
  good_later _ _ := trivial
  said_later said later := ⟨le_trans said.1 later, said.2⟩
  place_grows _ _ := trivial
  said_grows _ said := said
  entry _ := trivial
  emit _ := ⟨le_rfl, fun _ told => by cases told⟩
  move _ _ _ := ⟨trivial, trivial, trivial⟩
  answer {me now s s' c point reply} _ _ answered := by
    refine ⟨trivial, trivial, le_rfl, fun reading told => ?_⟩
    cases c with
    | clock =>
      cases told
      cases answered
      rfl
    | _ => cases told

/-- Nobody is woken before the time. -/
def sleep : Protocol where
  good _ _ := True
  place _ _ _ := True
  said _ _ x := ∀ t, x.slept? = some t → t ≤ x.time
  grows _ _ _ := True
  good_later _ _ := trivial
  said_later said _ := said
  place_grows _ _ := trivial
  said_grows _ said := said
  entry _ := trivial
  emit _ _ told := by cases told
  move _ _ _ := ⟨trivial, trivial, trivial⟩
  answer {me now s s' c point reply} _ _ answered := by
    refine ⟨trivial, trivial, fun t slept => ?_⟩
    cases c with
    | sleepUntil deadline =>
      cases point <;> simp only [Call.Answers, Call.step, Call.stepSleep] at answered <;>
        (repeat' split at answered) <;> cases answered
      next => cases slept
      next due =>
        cases slept
        exact due
    | _ => cases slept

end Protocol

end LoadGen
