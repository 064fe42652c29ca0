import LoadGen.Proofs.SampleContract

namespace LoadGen

open Program History

/-- What is planned or reported is not before a time. -/
def NotBefore (start : Stamp) (x : Exchange) (_ : History) : Prop :=
  match x.request with
  | .emit (.planned _ _ intended _) => start ≤ intended
  | .emit (.transaction s) | .emit (.error s) => start ≤ s.invoke ∧ start ≤ s.respond
  | _ => True

namespace NotBefore

variable {start : Stamp} {x : Exchange} {h : History}

theorem of_silent (silent : x.request.Silent) : NotBefore start x h := by
  obtain ⟨t, request, reply⟩ := x
  cases request with
  | call c => trivial
  | emit e => cases e <;> trivial

theorem of_event {e : Event} (emitted : x.event? = some e)
    (late : NotBefore start ⟨x.time, .emit e, ()⟩ h) : NotBefore start x h := by
  obtain ⟨t, request, reply⟩ := x
  cases request with
  | call c => cases emitted
  | emit e =>
    cases emitted
    exact late

theorem error {s : Sample} (late : NotBefore start x h)
    (reported : x.event? = some (.error s)) : start ≤ s.invoke := by
  obtain ⟨t, request, reply⟩ := x
  cases request with
  | call c => cases reported
  | emit e =>
    cases reported
    exact late.1

end NotBefore

namespace Timing.OpenedFor

variable {r : Timing} {intended start : Stamp}

/-- A failed invocation gets its times from its opening on, or takes those of the one before if it
has failed before its time. -/
theorem repair (opened : r.OpenedFor intended) (due : start ≤ intended) (now : Stamp)
    (rule : EarlyFailure) {previous : Stamp × Stamp}
    (before : (r.invoke.isNone && r.isEarly now) = true → start ≤ previous.1)
    (kept : (r.repair now rule previous).2.skip = false) :
    ∃ invoke respond, (r.repair now rule previous).1.invoke = some invoke ∧
      (r.repair now rule previous).1.respond = some respond ∧ start ≤ invoke ∧ start ≤ respond := by
  obtain ⟨invoke, respond, hi, hr, ordered⟩ := repair_sound kept
  have late : start ≤ invoke := by
    cases begun : r.invoke with
    | some t =>
      obtain ⟨-, same, -⟩ := repair_of_invoke begun rule previous
      rw [hi, Option.some.injEq] at same
      rw [same]
      exact le_trans due (opened.begins t begun)
    | none =>
      cases early : r.isEarly now with
      | false =>
        obtain ⟨-, same, -⟩ := repair_of_overdue begun early rule previous
        have come : intended ≤ now := by simpa [isEarly, opened.intends] using early
        rw [hi, Option.some.injEq] at same
        rw [same]
        exact le_trans due come
      | true =>
        cases rule with
        | skip => simp [repair_skip_iff.mpr ⟨rfl, begun, early⟩] at kept
        | reusePrevious =>
          obtain ⟨-, same, -⟩ := repair_of_early begun early previous
          rw [hi, Option.some.injEq] at same
          rw [same]
          exact before (by simp [begun, early])
  exact ⟨invoke, respond, hi, hr, late, le_trans late ordered⟩

end Timing.OpenedFor

/-- A slot neither looks back to a time before the start nor ahead to one. -/
structure Slot.From (start : Stamp) (s : Slot) : Prop where
  previousStart : start ≤ s.previousStart
  previousEnd : start ≤ s.previousEnd
  pending : ∀ pending, s.pending = some pending → start ≤ pending.intended

namespace Slot

variable {σ : Type} {s : Slot} {start reference invoke respond : Stamp}

theorem from_fresh {selector : Selector} {background : Bool} (late : start ≤ reference) :
    (fresh selector background reference).From start :=
  ⟨late, late, by simp [fresh]⟩

theorem from_reset (late : start ≤ reference) : (s.reset reference).From start :=
  ⟨late, late, by simp [reset]⟩

theorem From.follow {r : Timing} (after : s.From start) (hi : r.invoke = some invoke)
    (hr : r.respond = some respond) (first : start ≤ invoke) (second : start ≤ respond) :
    (s.follow r).From start := by
  simp only [Slot.follow, hi, hr]
  exact ⟨first, second, after.pending⟩

theorem From.nextPending (after : s.From start) (word : start ≤ Stamp.greatest) (w : Workload σ)
    (operation : Nat) (previous : Option Nat) (r : ChaCha) :
    start ≤ (s.nextPending w operation previous r).1.intended := by
  unfold Slot.nextPending
  cases previous with
  | none => exact Stamp.le_plus after.previousStart word (Stamp.ofSpan_nonneg _)
  | some previous =>
    refine Stamp.le_plus ?_ word (Stamp.ofSpan_nonneg _)
    unfold Slot.reference
    split
    next => exact after.previousStart
    next => exact after.previousEnd

theorem From.plan (after : s.From start) (word : start ≤ Stamp.greatest) (w : Workload σ)
    (r : ChaCha) : (s.plan w r).1.From start := by
  unfold Slot.plan
  split
  next => exact after
  next =>
    refine ⟨after.previousStart, after.previousEnd, fun pending same => ?_⟩
    cases same
    exact after.nextPending word w _ _ r

end Slot

/-- Slots and records from the start on, whether or not the flag has been seen. -/
def SampleInvariant.after (start : Stamp) : SampleInvariant where
  slot s _ := s.From start
  record intended r _ := r.OpenedFor intended ∧ start ≤ intended
  clearSlot s _ := s.From start
  clearRecord intended r _ := r.OpenedFor intended ∧ start ≤ intended

theorem after_sound {σ : Type} {p : RunPlan σ} {start : Stamp}
    (simultaneous : p.control.simultaneous = true) (word : start ≤ Stamp.greatest) :
    (SampleInvariant.after start).Sound p (some start) (NotBefore start) where
  silent := NotBefore.of_silent
  slot_cons after := after
  clearSlot_cons after := after
  clearRecord_cons opened := opened
  kept intended := (Timing.OpenedFor.kept intended).and (fun _ => start ≤ intended) id
  clears_slot _ _ after := after
  clears_record _ _ opened := opened
  fresh_now single := by simp [simultaneous] at single
  fresh_start _ told := Slot.from_fresh (le_of_eq (Option.some.inj told))
  reset told nonneg late _ _ := by
    obtain rfl := Option.some.inj told
    exact Slot.from_reset (le_trans (Stamp.le_plus le_rfl word nonneg) late)
  plan r after := after.plan word p.workload r
  planned after has emitted := NotBefore.of_event emitted (after.pending _ has)
  takes after := ⟨after.previousStart, after.previousEnd, by simp⟩
  opens after has := ⟨.of_intendedAt _, after.pending _ has⟩
  transaction := by
    intro intended s r record h after opened completed
    obtain ⟨opened, due⟩ := opened
    obtain ⟨invoke, respond, hi, hr, come, ordered⟩ := opened.complete completed
    have first : start ≤ invoke := le_trans due come
    have second : start ≤ respond := le_trans first ordered
    refine ⟨after.follow hi hr first second, fun x operation phase reported => ?_⟩
    obtain ⟨-, same, same'⟩ := Sample.ofTiming_of_both operation phase hi hr
    exact NotBefore.of_event reported ⟨same ▸ first, same' ▸ second⟩
  error := by
    intro intended s r now h rule failure kept
    obtain ⟨opened, due⟩ := failure.clearRecord
    have before : start ≤ (s.previousStart, s.previousEnd).1 := failure.slot.previousStart
    obtain ⟨invoke, respond, hi, hr, first, second⟩ :=
      opened.repair due now rule (fun _ => before) kept
    refine ⟨failure.slot.follow hi hr first second, fun x operation phase reported => ?_⟩
    obtain ⟨-, same, same'⟩ := Sample.ofTiming_of_both operation phase hi hr
    exact NotBefore.of_event reported ⟨same ▸ first, same' ▸ second⟩

/-- With a simultaneous start, no thread plans or reports anything before it. -/
theorem notBefore_of_run {σ : Type} {p : RunPlan σ} {e : Ensemble (Stage σ)} {now start : Stamp}
    {hs : Nat → History} (run : Ensemble.Run p.follow p.ensemble now e hs)
    (simultaneous : p.control.simultaneous = true) (fixed : e.signals.start = some start)
    (word : start ≤ Stamp.greatest) (i : Nat) : (hs i).Each (NotBefore start) := by
  have sound := after_sound simultaneous word
  rw [← fixed] at sound
  exact sound.safe_of_run run i

end LoadGen
