import LoadGen.Proofs.Protocol
import Mathlib.Data.Int.Order.Basic

namespace LoadGen

namespace Call

/-- The time of an abort is read only after the flag has been raised. -/
def AbortPoint.Sound (s : Signals) : AbortPoint → Prop
  | .stamp => s.aborted
  | _ => True

def AbortPlace (s : Signals) : (c : Call) → c.Point → Prop
  | abort _, p => AbortPoint.Sound s p
  | _, _ => True

/-- An abort that has a time has been raised by then. -/
def AbortStamped (now : Stamp) (s : Signals) : Prop :=
  ∀ t, s.abortTime = some t → s.aborted ∧ t ≤ now

/-- The flag stays raised, and an abort gets the present for its time. -/
structure AbortGrows (now : Stamp) (s s' : Signals) : Prop where
  aborted : s.aborted → s'.aborted
  time : s'.abortTime = s.abortTime ∨ s'.abortTime = some now

variable {c : Call} {me : Nat} {now : Stamp} {s s' : Signals} {point point' : c.Point}
  {reply : c.Reply} {cause : AbortCause}

theorem AbortGrows.of_same (same : s'.aborted = s.aborted ∧ s'.abortTime = s.abortTime) :
    AbortGrows now s s' := ⟨fun raised => same.1.trans raised, Or.inl same.2⟩

theorem AbortGrows.place (grown : AbortGrows now s s') (sound : AbortPlace s c point) :
    AbortPlace s' c point := by
  cases c with
  | abort cause =>
    cases point with
    | stamp => exact grown.aborted sound
    | _ => trivial
  | _ => trivial

theorem AbortStamped.of_same (stamped : AbortStamped now s)
    (same : s'.aborted = s.aborted ∧ s'.abortTime = s.abortTime) : AbortStamped now s' := by
  intro t dated
  rw [same.1]
  exact stamped t (same.2 ▸ dated)

theorem abort_moves {p p' : AbortPoint} (stamped : AbortStamped now s)
    (sound : AbortPoint.Sound s p) (moved : stepAbort cause me now s p = .moved s' p') :
    AbortGrows now s s' ∧ AbortStamped now s' ∧ AbortPoint.Sound s' p' := by
  -- Only raising the flag and stamping the abort change what threads are told.
  have unchanged : s'.aborted = s.aborted ∧ s'.abortTime = s.abortTime →
      (p' = .stamp → s.aborted) →
      AbortGrows now s s' ∧ AbortStamped now s' ∧ AbortPoint.Sound s' p' := by
    intro same raised
    refine ⟨.of_same same, stamped.of_same same, ?_⟩
    cases p' with
    | stamp => exact same.1.trans (raised rfl)
    | _ => trivial
  cases p with
  | raise =>
    cases moved
    exact ⟨⟨fun _ => rfl, Or.inl rfl⟩, fun t dated => ⟨rfl, (stamped t dated).2⟩, rfl⟩
  | stamp =>
    cases moved
    refine ⟨⟨id, Or.inr rfl⟩, fun t dated => ⟨sound, ?_⟩, trivial⟩
    cases dated
    exact le_rfl
  | wake left =>
    cases left <;> cases moved <;> exact unchanged ⟨rfl, rfl⟩ (by simp)
  | _ =>
    simp only [stepAbort, enterSection, enterSleepersSection, leaveSection] at moved
    (repeat' split at moved) <;> cases moved <;> exact unchanged ⟨rfl, rfl⟩ (by simp)

theorem moves_keeps_abort (stamped : AbortStamped now s) (sound : AbortPlace s c point)
    (moved : c.Moves me now s s' point point') :
    AbortGrows now s s' ∧ AbortStamped now s' ∧ AbortPlace s' c point' := by
  by_cases aborts : ∃ cause, c = .abort cause
  · obtain ⟨cause, rfl⟩ := aborts
    exact abort_moves stamped sound moved
  · obtain ⟨-, same⟩ := (step_keeps moved.signals?).abort fun cause is => aborts ⟨cause, is⟩
    refine ⟨.of_same same, stamped.of_same same, ?_⟩
    cases c with
    | abort cause => exact absurd ⟨cause, rfl⟩ aborts
    | _ => trivial

theorem answers_keeps_abort (stamped : AbortStamped now s)
    (answered : c.Answers me now s s' point reply) : AbortGrows now s s' ∧ AbortStamped now s' := by
  have same : s'.aborted = s.aborted ∧ s'.abortTime = s.abortTime := by
    obtain ⟨_, _, _, rfl⟩ := answers_frame answered
    exact ⟨rfl, rfl⟩
  exact ⟨.of_same same, stamped.of_same same⟩

/-- A thread finds the flag down only before the abort has its time. -/
theorem unstamped_of_clear (stamped : AbortStamped now s)
    (answered : c.Answers me now s s' point reply)
    (clear : Exchange.isClear ⟨now, .call c, reply⟩ = true) : s'.abortTime = none := by
  cases c with
  | isAborted =>
    cases answered
    have down : s.aborted = false := by simpa [Exchange.isClear] using clear
    cases dated : s.abortTime with
    | none => rfl
    | some t => simp [(stamped t dated).1] at down
  | _ => cases clear

end Call

namespace Protocol

/-- A thread that has found the flag down did so no later than the abort. -/
def abort : Protocol where
  good := Call.AbortStamped
  place := Call.AbortPlace
  said now s x := x.time ≤ now ∧ (x.isClear → ∀ t, s.abortTime = some t → x.time ≤ t)
  grows := Call.AbortGrows
  good_later stamped later t dated := ⟨(stamped t dated).1, le_trans (stamped t dated).2 later⟩
  said_later said later := ⟨le_trans said.1 later, said.2⟩
  place_grows := Call.AbortGrows.place
  said_grows grown said := by
    refine ⟨said.1, fun clear t dated => ?_⟩
    rcases grown.time with same | present
    · exact said.2 clear t (same ▸ dated)
    · rw [present, Option.some.injEq] at dated
      exact dated ▸ said.1
  entry {_ _ c} _ := by cases c <;> trivial
  emit _ := ⟨le_rfl, fun clear => by cases clear⟩
  move := Call.moves_keeps_abort
  answer stamped _ answered := by
    obtain ⟨grown, kept⟩ := Call.answers_keeps_abort stamped answered
    refine ⟨grown, kept, le_rfl, fun clear t dated => ?_⟩
    rw [Call.unstamped_of_clear stamped answered clear] at dated
    cases dated

end Protocol

end LoadGen
