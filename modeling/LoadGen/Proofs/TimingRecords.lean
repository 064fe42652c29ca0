import LoadGen.Sample
import Mathlib.Data.Int.Order.Basic

namespace LoadGen

namespace Timing

variable {r record : Timing} {now invoke : Stamp}

/-- The response that a handler has left behind: the captured one, or else the last interim one. -/
def answered (r : Timing) : Option Stamp := r.respond <|> r.lastRespond

theorem answered_of_some {respond : Stamp} (ended : r.respond = some respond) :
    r.answered = some respond := by
  rw [answered, ended]
  rfl

theorem answered_of_none (missing : r.respond = none) : r.answered = r.lastRespond := by
  rw [answered, missing]
  rfl

/-- The time that was intended for the invocation has not come. -/
def isEarly (r : Timing) (now : Stamp) : Bool :=
  r.intended.any fun intended => decide (now < intended)

/-- Completing a record leaves what was intended and how long it paused. -/
theorem complete_kept : r.complete.1.intended = r.intended ∧ r.complete.1.pause = r.pause := by
  unfold complete
  split
  next => exact ⟨rfl, rfl⟩
  next =>
    split
    next => exact ⟨rfl, rfl⟩
    next => split <;> exact ⟨rfl, rfl⟩

theorem complete_sound (faultless : r.complete = (record, none)) :
    ∃ invoke respond, r.invoke = some invoke ∧ r.answered = some respond ∧
      record.invoke = some invoke ∧ record.respond = some respond ∧ invoke ≤ respond := by
  obtain ⟨intended, _ | invoke, respond, last, pause⟩ := r
  · simp [complete] at faultless
  · cases respond with
    | some respond =>
      simp only [complete, Prod.mk.injEq, ite_eq_right_iff, reduceCtorEq, imp_false] at faultless
      obtain ⟨rfl, ordered⟩ := faultless
      exact ⟨invoke, respond, rfl, rfl, rfl, rfl, not_lt.mp ordered⟩
    | none =>
      cases last with
      | none => simp [complete] at faultless
      | some last =>
        simp only [complete, Prod.mk.injEq, ite_eq_right_iff, reduceCtorEq, imp_false] at faultless
        obtain ⟨rfl, ordered⟩ := faultless
        exact ⟨invoke, last, rfl, rfl, rfl, rfl, not_lt.mp ordered⟩

theorem inOrder_of_both {respond : Stamp} (hi : r.invoke = some invoke)
    (hr : r.respond = some respond) :
    r.inOrder.invoke = some invoke ∧ r.inOrder.respond = some (max invoke respond) := by
  simp only [inOrder, hi, hr]
  split
  next before => exact ⟨hi, congrArg some (max_eq_left (le_of_lt before)).symm⟩
  next ordered => exact ⟨hi, hr.trans (congrArg some (max_eq_right (not_lt.mp ordered)).symm)⟩

theorem exists_inOrder_eq (r : Timing) : ∃ respond, r.inOrder = { r with respond := respond } := by
  unfold inOrder
  split
  next =>
    split
    next => exact ⟨_, rfl⟩
    next => exact ⟨_, rfl⟩
  next => exact ⟨_, rfl⟩

/-- A repair captures an invocation and a response, and nothing else. -/
theorem exists_repair_eq (r : Timing) (now : Stamp) (rule : EarlyFailure)
    (previous : Stamp × Stamp) : ∃ invoke respond,
      (r.repair now rule previous).1 = { r with invoke := invoke, respond := respond } := by
  -- Whatever is captured anew, the repair ends with putting the times in order.
  have ordered : ∀ i t, ∃ invoke respond, inOrder { r with invoke := i, respond := t } =
      { r with invoke := invoke, respond := respond } := by
    intro i t
    obtain ⟨respond, same⟩ := exists_inOrder_eq { r with invoke := i, respond := t }
    exact ⟨i, respond, same⟩
  obtain ⟨intended, invoke, respond, last, pause⟩ := r
  cases early : intended.any (fun intended => decide (now < intended)) <;> cases rule <;>
    cases respond <;> cases last <;> cases invoke <;> simp only [repair, withRespond, early] <;>
      exact ordered _ _

/-- Repairing a record leaves what was intended and how long it paused. -/
theorem repair_kept {rule : EarlyFailure} {previous : Stamp × Stamp} :
    (r.repair now rule previous).1.intended = r.intended ∧
      (r.repair now rule previous).1.pause = r.pause := by
  obtain ⟨invoke, respond, same⟩ := exists_repair_eq r now rule previous
  rw [same]
  exact ⟨rfl, rfl⟩

/-- A captured invocation is kept, and gets the best response there is. -/
theorem repair_of_invoke (captured : r.invoke = some invoke) (rule : EarlyFailure)
    (previous : Stamp × Stamp) :
    (r.repair now rule previous).2.skip = false ∧
      (r.repair now rule previous).1.invoke = some invoke ∧
      (r.repair now rule previous).1.respond = some (max invoke (r.answered.getD now)) := by
  obtain ⟨intended, _ | i, respond, last, pause⟩ := r
  · cases captured
  · cases captured
    cases respond <;> cases last <;> exact ⟨rfl, inOrder_of_both rfl rfl⟩

/-- An invocation that was not begun in its time is taken to begin and end at the reading. -/
theorem repair_of_overdue (missing : r.invoke = none) (overdue : r.isEarly now = false)
    (rule : EarlyFailure) (previous : Stamp × Stamp) :
    (r.repair now rule previous).2.skip = false ∧
      (r.repair now rule previous).1.invoke = some now ∧
      (r.repair now rule previous).1.respond = some now := by
  have both : ∀ r : Timing, ((r.withInvoke now).withRespond now).inOrder.invoke = some now ∧
      ((r.withInvoke now).withRespond now).inOrder.respond = some now := fun r => by
    have both : ((r.withInvoke now).withRespond now).respond = some now := rfl
    simpa only [max_self] using inOrder_of_both rfl both
  obtain ⟨intended, _ | i, respond, last, pause⟩ := r
  · unfold isEarly at overdue
    cases respond <;> cases last <;> simp only [repair, withRespond, overdue] <;>
      exact ⟨trivial, both _⟩
  · cases missing

/-- An invocation that failed before its time takes over the times of the one before. -/
theorem repair_of_early (missing : r.invoke = none) (early : r.isEarly now = true)
    (previous : Stamp × Stamp) :
    (r.repair now .reusePrevious previous).2.skip = false ∧
      (r.repair now .reusePrevious previous).1.invoke = some previous.1 ∧
      (r.repair now .reusePrevious previous).1.respond = some (max previous.1 previous.2) := by
  obtain ⟨intended, _ | i, respond, last, pause⟩ := r
  · unfold isEarly at early
    cases respond <;> cases last <;> simp only [repair, withRespond, early] <;>
      exact ⟨trivial, inOrder_of_both rfl rfl⟩
  · cases missing

theorem repair_skip_iff {rule : EarlyFailure} {previous : Stamp × Stamp} :
    (r.repair now rule previous).2.skip = true ↔
      rule = .skip ∧ r.invoke = none ∧ r.isEarly now = true := by
  cases hi : r.invoke with
  | some invoke => simp [repair_of_invoke hi]
  | none =>
    cases early : r.isEarly now with
    | false => simp [repair_of_overdue hi early]
    | true =>
      cases rule with
      | reusePrevious => simp [repair_of_early hi early]
      | skip =>
        obtain ⟨intended, _ | i, respond, last, pause⟩ := r
        · unfold isEarly at early
          cases respond <;> cases last <;> simp [repair, withRespond, early]
        · cases hi

/-- The delay before an invocation can be measured if the invocation was captured. -/
theorem repair_delayValid {rule : EarlyFailure} {previous : Stamp × Stamp} :
    (r.repair now rule previous).2.delayValid = r.invoke.isSome := by
  obtain ⟨intended, _ | invoke, respond, last, pause⟩ := r
  · -- Without a captured invocation, none of the outcomes has a valid delay.
    cases early : intended.any (fun intended => decide (now < intended)) <;> cases rule <;>
      cases respond <;> cases last <;> simp [repair, withRespond, early]
  · cases respond <;> cases last <;> rfl

theorem repair_sound {rule : EarlyFailure} {previous : Stamp × Stamp}
    (kept : (r.repair now rule previous).2.skip = false) :
    ∃ invoke respond, (r.repair now rule previous).1.invoke = some invoke ∧
      (r.repair now rule previous).1.respond = some respond ∧ invoke ≤ respond := by
  cases hi : r.invoke with
  | some invoke =>
    obtain ⟨-, begun, ended⟩ := repair_of_invoke hi rule previous
    exact ⟨_, _, begun, ended, le_max_left _ _⟩
  | none =>
    cases early : r.isEarly now with
    | false =>
      obtain ⟨-, begun, ended⟩ := repair_of_overdue hi early rule previous
      exact ⟨_, _, begun, ended, le_rfl⟩
    | true =>
      cases rule with
      | reusePrevious =>
        obtain ⟨-, begun, ended⟩ := repair_of_early hi early previous
        exact ⟨_, _, begun, ended, le_max_left _ _⟩
      | skip => simp [repair_skip_iff.mpr ⟨rfl, hi, early⟩] at kept

/-- What is not left out ends no earlier than the last known response. -/
theorem repair_after_answered {previous : Stamp × Stamp}
    (passed : ∀ t, r.answered = some t → t ≤ now)
    (kept : (r.repair now .skip previous).2.skip = false) :
    ∃ invoke respond, (r.repair now .skip previous).1.invoke = some invoke ∧
      (r.repair now .skip previous).1.respond = some respond ∧ invoke ≤ respond ∧
      ∀ t, r.answered = some t → t ≤ respond := by
  cases captured : r.invoke with
  | some invoke =>
    obtain ⟨-, begun, ended⟩ := repair_of_invoke captured .skip previous
    refine ⟨_, _, begun, ended, le_max_left _ _, fun t answered => ?_⟩
    rw [answered]
    exact le_max_right _ _
  | none =>
    cases early : r.isEarly now with
    | true => simp [repair_skip_iff.mpr ⟨rfl, captured, early⟩] at kept
    | false =>
      obtain ⟨-, begun, ended⟩ := repair_of_overdue captured early .skip previous
      exact ⟨_, _, begun, ended, le_rfl, passed⟩

end Timing

namespace Sample

theorem ofTiming_of_both (operation : Nat) (phase : Phase) {r : Timing} {invoke respond : Stamp}
    (hi : r.invoke = some invoke) (hr : r.respond = some respond) :
    (ofTiming operation phase r).phase = phase ∧ (ofTiming operation phase r).invoke = invoke ∧
      (ofTiming operation phase r).respond = respond := by
  simp [ofTiming, hi, hr]

end Sample

end LoadGen
