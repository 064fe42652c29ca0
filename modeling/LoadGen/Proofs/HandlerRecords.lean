import LoadGen.Proofs.QuietRequests
import LoadGen.Proofs.SharedMemory
import LoadGen.Proofs.TimingRecords

namespace LoadGen

open Program History

/-- The record that a handler has left behind, if one has just returned. -/
def Exchange.returned? (x : Exchange) : Option Timing :=
  match x.event? with
  | some (.returned _ record) => some record
  | _ => none

namespace History

/-- The latest reading of the clock. -/
def reading (h : History) : Option Stamp := h.findSome? Exchange.reading?

/-- The record of the latest handler that has returned. -/
def returned (h : History) : Option Timing := h.findSome? Exchange.returned?

end History

/-- Every capture keeps an invariant of timing records. What is captured has been read from the
clock, for an invocation not before its time. -/
structure Timing.Kept (K : Timing → History → Prop) : Prop where
  cons : ∀ {r x h}, K r h → K r (x :: h)
  withInvoke : ∀ {r h now}, K r h → Reached h now → (∀ t, r.intended = some t → t ≤ now) →
    K (r.withInvoke now) h
  withRespond : ∀ {r h now}, K r h → Reached h now → K (r.withRespond now) h
  withLastRespond : ∀ {r h now}, K r h → Reached h now → K (r.withLastRespond now) h
  addPause : ∀ {r h length}, K r h → K (r.addPause length) h

/-- What no exchange can end may be added to an invariant. -/
theorem Timing.Kept.and {K : Timing → History → Prop} (kept : Kept K) (keep : History → Prop)
    (lasts : ∀ {x h}, keep h → keep (x :: h)) : Kept fun r h => K r h ∧ keep h where
  cons both := ⟨kept.cons both.1, lasts both.2⟩
  withInvoke both reached due := ⟨kept.withInvoke both.1 reached due, both.2⟩
  withRespond both reached := ⟨kept.withRespond both.1 reached, both.2⟩
  withLastRespond both reached := ⟨kept.withLastRespond both.1 reached, both.2⟩
  addPause both := ⟨kept.addPause both.1, both.2⟩

/-- What is known of a record while its handler runs: every capture keeps it, and so does every
idle exchange. An invocation is captured when its time has come. -/
structure Timing.Tracked (env : Exchange → History → Prop) (K : Timing → History → Prop) :
    Prop where
  idle : ∀ {r x h}, x.request.Idle → env x h → K r h → K r (x :: h)
  withInvoke : ∀ {r x h now}, env x h → x.reading? = some now →
    (∀ t, r.intended = some t → Reached h t) → K r h → K (r.withInvoke now) (x :: h)
  withRespond : ∀ {r x h now}, env x h → x.reading? = some now → K r h →
    K (r.withRespond now) (x :: h)
  withLastRespond : ∀ {r x h now}, env x h → x.reading? = some now → K r h →
    K (r.withLastRespond now) (x :: h)
  addPause : ∀ {r h length}, K r h → K (r.addPause length) h

/-- An invariant of the captures is tracked, since the clock never goes back. -/
theorem Timing.Kept.tracked {env : Exchange → History → Prop} {K : Timing → History → Prop}
    (kept : Kept K) (punctual : ∀ {x h}, env x h → Punctual x h) : Tracked env K where
  idle _ _ holds := kept.cons holds
  withInvoke possible read due holds := by
    have timely := (punctual possible).timely
    refine kept.withInvoke (kept.cons holds) (reached_of_reading timely read) ?_
    exact fun t intends => (due t intends).le timely read
  withRespond possible read holds :=
    kept.withRespond (kept.cons holds) (reached_of_reading (punctual possible).timely read)
  withLastRespond possible read holds :=
    kept.withLastRespond (kept.cons holds) (reached_of_reading (punctual possible).timely read)
  addPause holds := kept.addPause holds

namespace Timing

/-- Every time that the record has captured is of a kind. -/
def Each (r : Timing) (P : Stamp → Prop) : Prop :=
  ∀ t, r.invoke = some t ∨ r.respond = some t ∨ r.lastRespond = some t → P t

variable {r : Timing} {P Q : Stamp → Prop} {t : Stamp}

theorem Each.mono (all : r.Each P) (imp : ∀ t, P t → Q t) : r.Each Q :=
  fun t has => imp t (all t has)

theorem each_intendedAt (t : Stamp) : (intendedAt t).Each P := by
  simp [Each, intendedAt, empty]

theorem Each.withInvoke (all : r.Each P) (new : P t) : (r.withInvoke t).Each P := by
  intro u has
  rcases has with has | has | has
  · cases has
    exact new
  · exact all u (Or.inr (Or.inl has))
  · exact all u (Or.inr (Or.inr has))

theorem Each.withRespond (all : r.Each P) (new : P t) : (r.withRespond t).Each P := by
  intro u has
  rcases has with has | has | has
  · exact all u (Or.inl has)
  · cases has
    exact new
  · exact all u (Or.inr (Or.inr has))

theorem Each.withLastRespond (all : r.Each P) (new : P t) : (r.withLastRespond t).Each P := by
  intro u has
  rcases has with has | has | has
  · exact all u (Or.inl has)
  · exact all u (Or.inr (Or.inl has))
  · cases has
    exact new

theorem Each.answered (all : r.Each P) (answered : r.answered = some t) : P t := by
  cases responded : r.respond with
  | some respond =>
    rw [answered_of_some responded] at answered
    cases answered
    exact all t (Or.inr (Or.inl responded))
  | none =>
    rw [answered_of_none responded] at answered
    exact all t (Or.inr (Or.inr answered))

/-- Captured times are times that the clock has reached. -/
theorem kept_reached : Kept fun r h => r.Each (Reached h) where
  cons all := all.mono fun _ => Reached.cons
  withInvoke all reached _ := all.withInvoke reached
  withRespond all reached := all.withRespond reached
  withLastRespond all reached := all.withLastRespond reached
  addPause all := all

end Timing

/-- The invocation is intended for a time and has not begun before it. -/
structure Timing.OpenedFor (intended : Stamp) (r : Timing) : Prop where
  intends : r.intended = some intended
  begins : ∀ t, r.invoke = some t → intended ≤ t

namespace Timing.OpenedFor

variable {r record : Timing} {intended : Stamp}

theorem of_intendedAt (intended : Stamp) : (intendedAt intended).OpenedFor intended :=
  ⟨rfl, by simp [intendedAt, empty]⟩

theorem kept (intended : Stamp) : Kept fun r _ => r.OpenedFor intended where
  cons opened := opened
  withInvoke opened _ due :=
    ⟨opened.intends, fun _ same => Option.some.inj same ▸ due intended opened.intends⟩
  withRespond opened _ := ⟨opened.intends, opened.begins⟩
  withLastRespond opened _ := ⟨opened.intends, opened.begins⟩
  addPause opened := ⟨opened.intends, opened.begins⟩

theorem complete (opened : r.OpenedFor intended) (completed : r.complete = (record, none)) :
    ∃ invoke respond, record.invoke = some invoke ∧ record.respond = some respond ∧
      intended ≤ invoke ∧ invoke ≤ respond := by
  obtain ⟨invoke, respond, begun, -, hi, hr, ordered⟩ := complete_sound completed
  exact ⟨invoke, respond, hi, hr, opened.begins invoke begun, ordered⟩

end Timing.OpenedFor

theorem idle_of_reading {x : Exchange} {now : Stamp} (read : x.reading? = some now) :
    x.request.Idle := by
  obtain ⟨t, request, reply⟩ := x
  cases request with
  | call c => cases c <;> first | rfl | cases read
  | emit e => cases read

namespace Timing.Tracked

variable {env : Exchange → History → Prop} {K L : Timing → History → Prop}

/-- What no idle exchange can end is tracked. -/
theorem of_idle {keep : History → Prop}
    (lasts : ∀ {x h}, x.request.Idle → env x h → keep h → keep (x :: h)) :
    Tracked env fun _ h => keep h where
  idle := lasts
  withInvoke possible read _ := lasts (idle_of_reading read) possible
  withRespond possible read := lasts (idle_of_reading read) possible
  withLastRespond possible read := lasts (idle_of_reading read) possible
  addPause holds := holds

theorem both (first : Tracked env K) (second : Tracked env L) :
    Tracked env fun r h => K r h ∧ L r h where
  idle idle possible both :=
    ⟨first.idle idle possible both.1, second.idle idle possible both.2⟩
  withInvoke possible read due both :=
    ⟨first.withInvoke possible read due both.1, second.withInvoke possible read due both.2⟩
  withRespond possible read both :=
    ⟨first.withRespond possible read both.1, second.withRespond possible read both.2⟩
  withLastRespond possible read both :=
    ⟨first.withLastRespond possible read both.1, second.withLastRespond possible read both.2⟩
  addPause both := ⟨first.addPause both.1, second.addPause both.2⟩

theorem and (tracked : Tracked env K) (keep : History → Prop)
    (lasts : ∀ {x h}, x.request.Idle → env x h → keep h → keep (x :: h)) :
    Tracked env fun r h => K r h ∧ keep h := tracked.both (of_idle lasts)

end Timing.Tracked

section Handlers

variable {σ : Type} {env : Exchange → History → Prop} {K : Timing → History → Prop}
  {h : History} {c : Context} {u : VirtualUser σ}

variable (tracked : Timing.Tracked env K) (punctual : ∀ {x h}, env x h → Punctual x h)

include tracked punctual

theorem recordStart_keeps (holds : K c.timing h) :
    c.recordStart.Ensures env (fun _ _ => True) (fun result h => K result.1.timing h) h := by
  unfold Context.recordStart
  cases c.mode with
  | automatic => exact holds
  | manual =>
    cases intends : c.timing.intended with
    | none =>
      simp only [ensures_bind, ensures_pure, ensures_clock]
      intro t now possible
      exact ⟨trivial, tracked.withInvoke possible rfl (by simp [intends]) holds⟩
    | some intended =>
      simp only [ensures_bind, ensures_sleepUntil]
      intro t wait possible
      refine ⟨trivial, ?_⟩
      have holds := tracked.idle (x := ⟨t, .call (.sleepUntil intended), wait⟩) rfl possible
        holds
      cases wait with
      | cancelled => exact holds
      | reached =>
        have due := reached_of_slept (punctual possible) rfl
        simp only [ensures_bind, ensures_clock, ensures_pure]
        intro t' now possible'
        refine ⟨trivial, tracked.withInvoke possible' rfl ?_ holds⟩
        intro u same
        rw [intends, Option.some.injEq] at same
        exact same ▸ due

omit punctual in
theorem recordEnd_keeps (holds : K c.timing h) :
    c.recordEnd.Ensures env (fun _ _ => True) (fun c h => K c.timing h) h := by
  unfold Context.recordEnd
  cases c.mode with
  | automatic => exact holds
  | manual =>
    simp only [ensures_bind, ensures_clock, ensures_pure]
    intro t now possible
    exact ⟨trivial, tracked.withRespond possible rfl holds⟩

theorem recordTime_keeps (holds : K c.timing h) :
    c.recordTime.Ensures env (fun _ _ => True) (fun result h => K result.1.timing h) h := by
  unfold Context.recordTime
  split
  next =>
    rw [ensures_bind]
    exact recordEnd_keeps tracked holds
  next => exact recordStart_keeps tracked punctual holds

theorem perform_keeps (holds : K c.timing h) (call : ContextCall) :
    (c.perform call).Ensures env (fun _ _ => True) (fun result h => K result.1.timing h) h := by
  have other : ∀ {p : Program (Context × call.Answer)},
      p.Only Request.Idle (fun result => result.1.timing = c.timing) →
      p.Ensures env (fun _ _ => True) (fun result h => K result.1.timing h) h := by
    intro p only
    have step : ∀ x h, x.request.Idle → env x h → K c.timing h →
        True ∧ K c.timing (x :: h) :=
      fun x h idle possible holds => ⟨trivial, tracked.idle idle possible holds⟩
    refine (only.ensures step holds).mono ?_
    intro result h ends
    rw [ends.1]
    exact ends.2
  cases call with
  | recordTime => exact recordTime_keeps tracked punctual holds
  | recordStart => exact recordStart_keeps tracked punctual holds
  | recordEnd =>
    simp only [Context.perform, ensures_bind]
    exact recordEnd_keeps tracked holds
  | recordLast =>
    simp only [Context.perform, Context.recordLast, ensures_bind, ensures_clock, ensures_pure]
    intro t now possible
    exact ⟨trivial, tracked.withLastRespond possible rfl holds⟩
  | addPause length => exact tracked.addPause holds
  | note content => exact other (by simp [Context.perform, Event.isIdle])
  | _ => exact other (by simp [Context.perform])

/-- A handler keeps everything that is tracked. -/
theorem run_keeps {b : Behaviour σ} (holds : K c.timing h) :
    (b.run c).Ensures env (fun _ _ => True) (fun result h => K result.1.timing h) h := by
  induction b generalizing c h with
  | calls call next ih =>
    simp only [Behaviour.run, ensures_bind]
    exact (perform_keeps tracked punctual holds call).mono fun result h => ih result.2
  | _ => exact holds

theorem awaitInvocation_keeps {operation : Operation} {pending : Pending} (holds : K u.timing h)
    (intends : u.timing.intended = some pending.intended) :
    (u.awaitInvocation operation pending).Ensures env (fun _ _ => True)
      (fun result h => result.1 = u.withTiming result.1.timing ∧ K result.1.timing h) h := by
  unfold VirtualUser.awaitInvocation
  cases operation.mode with
  | manual => exact ⟨rfl, holds⟩
  | automatic =>
    simp only [ensures_bind, ensures_sleepUntil]
    intro t wait possible
    refine ⟨trivial, ?_⟩
    have holds := tracked.idle (x := ⟨t, .call (.sleepUntil pending.intended), wait⟩) rfl
      possible holds
    cases wait with
    | cancelled => exact ⟨rfl, holds⟩
    | reached =>
      have due := reached_of_slept (punctual possible) rfl
      simp only [ensures_bind, ensures_clock, ensures_pure]
      intro t' now possible'
      refine ⟨trivial, rfl, tracked.withInvoke possible' rfl ?_ holds⟩
      intro u same
      rw [intends, Option.some.injEq] at same
      exact same ▸ due

omit punctual in
theorem captureRespond_keeps {operation : Operation} (holds : K u.timing h) :
    (u.captureRespond operation).Ensures env (fun _ _ => True)
      (fun v h => v = u.withTiming v.timing ∧ K v.timing h) h := by
  unfold VirtualUser.captureRespond
  cases operation.mode with
  | manual => exact ⟨rfl, holds⟩
  | automatic =>
    simp only [ensures_bind, ensures_clock, ensures_pure]
    intro t now possible
    exact ⟨trivial, rfl, tracked.withRespond possible rfl holds⟩

end Handlers

end LoadGen
