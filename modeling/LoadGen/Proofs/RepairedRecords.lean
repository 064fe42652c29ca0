import LoadGen.Proofs.TimingRecords

namespace LoadGen

namespace Timing

variable {r : Timing} {now invoke respond : Stamp} {rule : EarlyFailure} {previous : Stamp × Stamp}

/-- The record has an invocation, and a response that does not come before it. -/
def Settled (r : Timing) : Prop :=
  ∃ invoke respond, r.invoke = some invoke ∧ r.respond = some respond ∧ invoke ≤ respond

theorem Settled.complete_eq (settled : r.Settled) : r.complete = (r, none) := by
  obtain ⟨invoke, respond, begun, ended, ordered⟩ := settled
  have notBefore : ¬ respond < invoke := not_lt.mpr ordered
  simp only [complete, begun, ended, if_neg notBefore]

theorem Settled.repair_eq (settled : r.Settled) (now : Stamp) (rule : EarlyFailure)
    (previous : Stamp × Stamp) : r.repair now rule previous = (r, ⟨false, true, false⟩) := by
  obtain ⟨invoke, respond, begun, ended, ordered⟩ := settled
  have notBefore : ¬ respond < invoke := not_lt.mpr ordered
  have kept : r.inOrder = r := by simp only [inOrder, begun, ended, if_neg notBefore]
  simp [repair, begun, ended, kept]

theorem isEarly_iff :
    r.isEarly now = true ↔ ∃ intended, r.intended = some intended ∧ now < intended := by
  cases intends : r.intended <;> simp [isEarly, intends]

theorem repair_lastRespond : (r.repair now rule previous).1.lastRespond = r.lastRespond := by
  obtain ⟨invoke, respond, same⟩ := exists_repair_eq r now rule previous
  rw [same]

theorem repair_respond_of_some (begun : r.invoke = some invoke) (ended : r.respond = some respond) :
    (r.repair now rule previous).1.respond = some (max invoke respond) := by
  have best : (r.repair now rule previous).1.respond = some (max invoke (r.answered.getD now)) :=
    (repair_of_invoke begun rule previous).2.2
  rw [best, answered_of_some ended, Option.getD_some]

theorem repair_respond_of_none (begun : r.invoke = some invoke) (missing : r.respond = none) :
    (r.repair now rule previous).1.respond = some (max invoke (r.lastRespond.getD now)) := by
  have best : (r.repair now rule previous).1.respond = some (max invoke (r.answered.getD now)) :=
    (repair_of_invoke begun rule previous).2.2
  rw [best, answered_of_none missing]

end Timing

/-- The repair of the record of a failed invocation. It is left out of the account just when it is
early, was never begun and the rule says so. Otherwise its record comes to hold an invocation and a
response in order, completing it finds no fault, and neither completing nor repairing it again makes
a difference. A captured invocation is kept, and so is a response after it; a response before it is
moved to it, and for a missing one there is the last interim one or else the present. -/
theorem repair_settles_record (r : Timing) (now : Stamp) (rule : Timing.EarlyFailure)
    (previous : Stamp × Stamp) :
    let record := (r.repair now rule previous).1
    let repair := (r.repair now rule previous).2
    (repair.skip = true ↔ rule = .skip ∧ r.invoke = none ∧
      ∃ intended, r.intended = some intended ∧ now < intended) ∧
    (repair.skip = false →
      (∃ invoke respond, record.invoke = some invoke ∧ record.respond = some respond ∧
        invoke ≤ respond) ∧
      record.complete = (record, none) ∧
      ∀ later rule' previous', record.repair later rule' previous' =
        (record, ⟨false, true, false⟩)) ∧
    (∀ invoke, r.invoke = some invoke →
      record.invoke = some invoke ∧
      (∀ respond, r.respond = some respond → invoke ≤ respond →
        record.respond = some respond) ∧
      (∀ respond, r.respond = some respond → respond < invoke →
        record.respond = some invoke) ∧
      (r.respond = none → record.respond = some (max invoke (r.lastRespond.getD now)))) ∧
    (repair.delayValid = true ↔ ∃ invoke, r.invoke = some invoke) ∧
    record.intended = r.intended ∧ record.lastRespond = r.lastRespond ∧
      record.pause = r.pause := by
  intro record repair
  have skips : repair.skip = true ↔ rule = .skip ∧ r.invoke = none ∧
      ∃ intended, r.intended = some intended ∧ now < intended := by
    rw [← Timing.isEarly_iff]
    exact Timing.repair_skip_iff
  have delays : repair.delayValid = true ↔ ∃ invoke, r.invoke = some invoke := by
    rw [← Option.isSome_iff_exists, ← Timing.repair_delayValid]
  have same : record.intended = r.intended ∧ record.pause = r.pause := Timing.repair_kept
  refine ⟨skips, fun kept => ?_, fun invoke begun => ?_, delays, same.1,
    Timing.repair_lastRespond, same.2⟩
  · have settled : record.Settled := Timing.repair_sound kept
    exact ⟨settled, settled.complete_eq, settled.repair_eq⟩
  · refine ⟨(Timing.repair_of_invoke begun rule previous).2.1, fun respond ended ordered => ?_,
      fun respond ended inverted => ?_, Timing.repair_respond_of_none begun⟩
    · have best : record.respond = some (max invoke respond) :=
        Timing.repair_respond_of_some begun ended
      rwa [max_eq_right ordered] at best
    · have best : record.respond = some (max invoke respond) :=
        Timing.repair_respond_of_some begun ended
      rwa [max_eq_left (le_of_lt inverted)] at best

end LoadGen
