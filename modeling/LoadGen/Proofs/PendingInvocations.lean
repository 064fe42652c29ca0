import LoadGen.Proofs.SampleContract

namespace LoadGen

open Program History

/-- Whether an invocation has just been planned for the slot. -/
def Exchange.picks (b : Bool) (x : Exchange) : Bool :=
  match x.event? with
  | some (.planned background ..) => background == b
  | _ => false

/-- Whether the loop has just been resumed. -/
def Exchange.resumes (x : Exchange) : Bool :=
  match x.event? with
  | some .resumed => true
  | _ => false

namespace History

/-- The operation and the time of the invocation that is pending in a slot: the latest one that has
been planned for it, unless its handler has been called or the thread has been resumed since. -/
def pending (b : Bool) : History → Option (Nat × Stamp)
  | [] => none
  | x :: h =>
    match x.event? with
    | some (.planned background operation intended _) =>
      if background = b then some (operation, intended) else pending b h
    | some (.called background ..) => if background = b then none else pending b h
    | some .resumed => none
    | _ => pending b h

/-- How many operations have been picked for a slot. -/
def picks (b : Bool) : History → Nat
  | [] => 0
  | x :: h => picks b h + (x.picks b).toNat

end History

/-- The invocation is pending in a slot, and none that is pending in another one is due before it.
Of two that are due at once, the one of the foreground comes first. -/
structure Due {σ : Type} (w : Workload σ) (b : Bool) (operation : Nat) (intended : Stamp)
    (h : History) : Prop where
  own : pending b h = some (operation, intended)
  first : ∀ side, (w.mixOf side).isSome → ∃ other t, pending side h = some (other, t) ∧
    intended ≤ t ∧ (b = true → side = false → intended < t)

/-- The run ends by the clock, and every slot holds an invocation that is not due before the end. -/
def AllBeyond {σ : Type} (p : RunPlan σ) (fixed : Option Stamp) (h : History) : Prop :=
  ∃ rampUp steadyState rampDown start,
    p.control.mode = .time rampUp steadyState rampDown ∧ fixed = some start ∧
      ∀ side, (p.workload.mixOf side).isSome → ∃ operation t, pending side h = some (operation, t) ∧
        (TimeBounds.ofStart start rampUp steadyState rampDown).endRampDown ≤ t

/-- A slot plans when nothing is pending in it, and a fixed sequence gives the next operation. The
handler that is called is that of the invocation which is due first. Only under a load schedule is
a loop resumed; and a thread that ends its loop right after a plan leaves nothing behind that is due
before the end of the run. -/
def Booked {σ : Type} (p : RunPlan σ) (fixed : Option Stamp) (x : Exchange) (h : History) : Prop :=
  match x.request with
  | .emit (.planned b operation ..) => pending b h = none ∧
    ∀ m, p.workload.mixOf b = some m → m.choice = .sequence →
      operation = m.operations.getD (picks b h % m.operations.length) 0
  | .emit (.called b operation intended) => Due p.workload b operation intended h
  | .emit .resumed => p.control.load.isSome
  | .emit .runEnded => h.justPlanned → AllBeyond p fixed h
  | _ => True

theorem Booked.due {σ : Type} {p : RunPlan σ} {fixed : Option Stamp} {x : Exchange} {h : History}
    {b : Bool} {operation : Nat} {intended : Stamp} (booked : Booked p fixed x h)
    (called : x.event? = some (.called b operation intended)) :
    Due p.workload b operation intended h := by
  rw [Exchange.eq_of_event called] at booked
  exact booked

section Exchanges

variable {b : Bool} {x : Exchange} {h : History}

theorem pending_cons_of_plain (plain : x.request.Plain) : pending b (x :: h) = pending b h := by
  obtain ⟨t, request, reply⟩ := x
  cases request with
  | call c => rfl
  | emit e => cases e <;> first | rfl | cases plain

theorem picks_cons_of_plain (plain : x.request.Plain) : picks b (x :: h) = picks b h := by
  obtain ⟨t, request, reply⟩ := x
  cases request with
  | call c => rfl
  | emit e => cases e <;> first | rfl | cases plain

end Exchanges

/-- The slot of a side is as the history tells it. -/
structure Slot.Shown {σ : Type} (w : Workload σ) (b : Bool) (s : Slot) (h : History) : Prop where
  side : s.background = b
  pending : h.pending b = s.pending.map fun pending => (pending.operation, pending.intended)
  place : ∀ m, w.mixOf b = some m → m.choice = .sequence →
    s.selector = ⟨m.operations, .sequence (picks b h % m.operations.length)⟩

namespace Slot.Shown

variable {σ : Type} {w : Workload σ} {b : Bool} {s : Slot} {x : Exchange} {h h' : History}

theorem of_same (shown : s.Shown w b h) (pending : h'.pending b = h.pending b)
    (picks : h'.picks b = h.picks b) : s.Shown w b h' :=
  ⟨shown.side, pending.trans shown.pending, by rw [picks]; exact shown.place⟩

theorem plain (shown : s.Shown w b h) (plain : x.request.Plain) : s.Shown w b (x :: h) :=
  shown.of_same (pending_cons_of_plain plain) (picks_cons_of_plain plain)

/-- The times of a slot play no part. -/
theorem follow (shown : s.Shown w b h) (r : Timing) : (s.follow r).Shown w b h := by
  obtain ⟨first, last, followed⟩ := s.exists_of_follow r
  rw [followed]
  exact ⟨shown.side, shown.pending, shown.place⟩

theorem reset (shown : s.Shown w b h) (t now t' : Stamp) :
    (s.reset now).Shown w b (⟨t', .emit .resumed, ()⟩ :: ⟨t, .call .clock, now⟩ :: h) :=
  ⟨shown.side, rfl, shown.place⟩

/-- A plan for the other side changes nothing. -/
theorem planned_other (shown : s.Shown w b h) {side : Bool} (other : side ≠ b)
    (t : Stamp) (operation : Nat) (intended delay : Stamp) :
    s.Shown w b (⟨t, .emit (.planned side operation intended delay), ()⟩ :: h) := by
  refine shown.of_same (if_neg other) ?_
  change picks b h + (side == b).toNat = picks b h
  simp [other]

theorem called_other (shown : s.Shown w b h) {side : Bool} (other : side ≠ b) (t : Stamp)
    (operation : Nat) (intended : Stamp) :
    s.Shown w b (⟨t, .emit (.called side operation intended), ()⟩ :: h) :=
  shown.of_same (if_neg other) rfl

theorem called (shown : s.Shown w b h) (t : Stamp) (operation : Nat) (intended : Stamp) :
    ({ s with pending := none } : Slot).Shown w b
      (⟨t, .emit (.called b operation intended), ()⟩ :: h) :=
  ⟨shown.side, if_pos rfl, shown.place⟩

/-- What an idle slot plans is in order, and shown from then on. -/
theorem planned {p : RunPlan σ} {fixed : Option Stamp} (shown : s.Shown p.workload b h)
    (idle : s.pending = none) (t : Stamp) (r : ChaCha) :
    let x : Exchange := ⟨t, .emit (s.nextPlan p.workload r), ()⟩
    Booked p fixed x h ∧ (s.plan p.workload r).1.Shown p.workload b (x :: h) := by
  intro x
  have free : h.pending b = none := by rw [shown.pending, idle]; rfl
  obtain rfl := shown.side
  rw [Slot.plan_of_idle idle]
  refine ⟨⟨free, fun m mix sequence => ?_⟩, ⟨rfl, ?_, fun m mix sequence => ?_⟩⟩
  · simp [shown.place m mix sequence, Selector.select]
  · rw [Option.map_some, Slot.nextPending_operation]
    exact if_pos rfl
  · change _ = Selector.mk _ (.sequence ((picks _ h + (_ == _).toNat) % _))
    simp [shown.place m mix sequence, Selector.select]

end Slot.Shown

/-- Every mix has its slot, and every slot is as the history tells it. -/
structure Slots.Shown {σ : Type} (w : Workload σ) (slots : Slots) (h : History) : Prop where
  present : ∀ b, (w.mixOf b).isSome → (slots.side b).isSome
  each : ∀ b s, slots.side b = some s → s.Shown w b h

namespace Slots.Shown

variable {σ : Type} {w : Workload σ} {slots : Slots} {slot : Slot} {x : Exchange} {h h' : History}

theorem of_same (shown : slots.Shown w h) (pending : ∀ b, h'.pending b = h.pending b)
    (picks : ∀ b, h'.picks b = h.picks b) : slots.Shown w h' :=
  ⟨shown.present, fun b s has => (shown.each b s has).of_same (pending b) (picks b)⟩

theorem plain (shown : slots.Shown w h) (plain : x.request.Plain) : slots.Shown w (x :: h) :=
  ⟨shown.present, fun b s has => (shown.each b s has).plain plain⟩

/-- A slot that is put in its place leaves the other ones. -/
theorem put_of_others (present : ∀ b, (w.mixOf b).isSome → (slots.side b).isSome)
    (others : ∀ b s, slots.side b = some s → slot.background ≠ b → s.Shown w b h)
    (new : slot.Shown w slot.background h) : (slots.put slot).Shown w h := by
  refine ⟨fun b mixed => ?_, fun b s has => ?_⟩
  · rw [Slots.side_put]
    split
    next => rfl
    next => exact present b mixed
  · rw [Slots.side_put] at has
    split at has
    next same =>
      obtain rfl := Option.some.inj has
      exact same ▸ new
    next other => exact others b s has other

theorem put (shown : slots.Shown w h) (new : slot.Shown w slot.background h) :
    (slots.put slot).Shown w h :=
  put_of_others shown.present (fun b s has _ => shown.each b s has) new

theorem fresh (unpending : ∀ b, h.pending b = none) (unpicked : ∀ b, h.picks b = 0) (r : ChaCha)
    (reference : Stamp) : (Slots.fresh w r reference).1.Shown w h := by
  refine ⟨fun b mixed => Slots.isSome_side_fresh mixed, fun b s has => ?_⟩
  obtain ⟨m, r', own, rfl⟩ := Slots.exists_of_side_fresh has
  refine ⟨rfl, unpending b, fun m' mix sequence => ?_⟩
  obtain rfl := Option.some.inj (own.symm.trans mix)
  simp [Slot.fresh, Mix.selector, sequence, unpicked]

theorem reset (shown : slots.Shown w h) (t now t' : Stamp) :
    (slots.reset now).Shown w (⟨t', .emit .resumed, ()⟩ :: ⟨t, .call .clock, now⟩ :: h) := by
  refine ⟨fun b mixed => ?_, fun b s has => ?_⟩
  · rw [Slots.side_reset, Option.isSome_map]
    exact shown.present b mixed
  · rw [Slots.side_reset] at has
    obtain ⟨s', there, rfl⟩ := Option.map_eq_some_iff.mp has
    exact (shown.each b s' there).reset t now t'

theorem background (shown : slots.Shown w h) {b : Bool} {s : Slot} (has : slots.side b = some s) :
    s.Shown w s.background h := by
  have own := shown.each b s has
  exact own.side.symm ▸ own

end Slots.Shown

/-- Some slot has nothing pending. -/
def Slots.Free (slots : Slots) : Prop := ∃ b s, slots.side b = some s ∧ s.pending = none

theorem Slots.free_fresh {σ : Type} (w : Workload σ) (r : ChaCha) (reference : Stamp) :
    (Slots.fresh w r reference).1.Free := by
  unfold Slots.fresh
  cases w.backgroundMix <;> exact ⟨false, _, rfl, rfl⟩

theorem Slots.free_put {slots : Slots} {slot : Slot} (idle : slot.pending = none) :
    (slots.put slot).Free :=
  ⟨slot.background, slot, by rw [Slots.side_put, if_pos rfl], idle⟩

theorem VirtualUser.ensures_emitAll_append {env safe : Exchange → History → Prop}
    {post : Unit → History → Prop} {first second : List Event} {h : History} :
    (emitAll (first ++ second)).Ensures env safe post h ↔
      (emitAll first).Ensures env safe (fun _ h => (emitAll second).Ensures env safe post h) h := by
  have same : emitAll (first ++ second) = (do emitAll first; emitAll second) := by
    induction first with
    | nil => rfl
    | cons e rest ih => exact congrArg (Program.ask (.emit e)) (funext fun _ => ih)
  rw [same, ensures_bind]

/-- Each slot plans beside the other one. A relation between a slot and the history that an idle
slot keeps when it plans, and any slot when the other one does, holds of both slots after that. -/
theorem Slots.ensures_plan {σ : Type} {w : Workload σ} {slots : Slots} {h : History}
    {env safe : Exchange → History → Prop} {R : Bool → Slot → History → Prop}
    (each : ∀ b s, slots.side b = some s → R b s h)
    (side : ∀ {b s h}, R b s h → s.background = b)
    (planned : ∀ {b s h}, R b s h → s.pending = none → ∀ (t : Stamp) (r : ChaCha),
      let x : Exchange := ⟨t, .emit (s.nextPlan w r), ()⟩
      safe x h ∧ R b (s.plan w r).1 (x :: h))
    (other : ∀ {b side s h}, R b s h → side ≠ b → ∀ t operation intended delay,
      R b s (⟨t, .emit (.planned side operation intended delay), ()⟩ :: h)) (r : ChaCha) :
    (VirtualUser.emitAll (slots.plan w r).2.2).Ensures env safe
      (fun _ h => ∀ b s, (slots.plan w r).1.side b = some s → R b s h) h := by
  -- What is kept while the slot plans is what the other slot needs.
  have one : ∀ {b s h} (keep : History → Prop) (r : ChaCha), R b s h → keep h →
      (∀ t operation intended delay h, keep h →
        keep (⟨t, .emit (.planned b operation intended delay), ()⟩ :: h)) →
      (VirtualUser.emitAll (s.plan w r).2.2).Ensures env safe
        (fun _ h => R b (s.plan w r).1 h ∧ keep h) h := by
    intro b s h keep r holds kept lasts
    cases has : s.pending with
    | some pending =>
      rw [Slot.plan_of_pending has]
      exact ⟨holds, kept⟩
    | none =>
      have events : (s.plan w r).2.2 = [s.nextPlan w r] := by rw [Slot.plan_of_idle has]
      simp only [events, VirtualUser.emitAll, ensures_bind, ensures_emit, ensures_pure]
      intro t _
      obtain ⟨safe, after⟩ := planned holds has t r
      refine ⟨safe, after, ?_⟩
      unfold Slot.nextPlan
      rw [side holds]
      exact lasts _ _ _ _ _ kept
  have foreground := each false _ rfl
  unfold Slots.plan
  cases background : slots.background with
  | none =>
    refine (one (fun _ => True) r foreground trivial fun _ _ _ _ _ => id).mono ?_
    intro _ h planned b s has
    cases b with
    | true => cases has
    | false => exact Option.some.inj has ▸ planned.1
  | some slot =>
    rw [VirtualUser.ensures_emitAll_append]
    refine (one (fun h => R true slot h) r foreground (each true slot background)
      fun _ _ _ _ _ kept => other kept (by decide) _ _ _ _).mono ?_
    intro _ h planned
    refine (one _ _ planned.2 planned.1
      fun _ _ _ _ _ kept => other kept (by decide) _ _ _ _).mono ?_
    intro _ h both b s has
    cases b with
    | true => exact Option.some.inj has ▸ both.1
    | false => exact Option.some.inj has ▸ both.2

theorem Slots.Shown.ensures_plan {σ : Type} {p : RunPlan σ} {slots : Slots} {h : History}
    {env : Exchange → History → Prop} {fixed : Option Stamp} (shown : slots.Shown p.workload h)
    (r : ChaCha) :
    (VirtualUser.emitAll (slots.plan p.workload r).2.2).Ensures env (Booked p fixed)
      (fun _ h => (slots.plan p.workload r).1.Shown p.workload h) h := by
  refine (Slots.ensures_plan shown.each Slot.Shown.side Slot.Shown.planned
    (fun shown other => shown.planned_other other) r).mono ?_
  exact fun _ h each => ⟨fun b mixed => Slots.isSome_side_plan (shown.present b mixed), each⟩

namespace Policy

/-- The policy has the kind and the lengths of the control, and its bounds follow from the start
time that is fixed. -/
def Fits (c : RunControl) (fixed : Option Stamp) : Policy → Prop
  | cycles _ => c.mode.isTime = false
  | time q => c.mode = .time q.rampUp q.steadyState q.rampDown ∧
    ∀ bounds, q.bounds = some bounds → ∃ start, fixed = some start ∧
      bounds = .ofStart start q.rampUp q.steadyState q.rampDown

variable {c : RunControl} {fixed : Option Stamp} {policy : Policy}

theorem Fits.noticing (fits : policy.Fits c fixed) {start : Stamp} (known : fixed = some start) :
    (policy.noticing start).Fits c fixed := by
  cases policy with
  | cycles q => exact fits
  | time q =>
    obtain ⟨mode, bounds⟩ := fits
    simp only [Policy.noticing, TimePolicy.withStart]
    split
    next => exact ⟨mode, bounds⟩
    next =>
      refine ⟨mode, fun bounds' set => ⟨start, known, ?_⟩⟩
      exact (Option.some.inj set).symm

theorem Fits.classifies {r : Timing} {result : Policy × Phase} (fits : policy.Fits c fixed)
    (classified : policy.Classifies r result) : result.1.Fits c fixed := by
  cases policy with
  | cycles q =>
    obtain ⟨start, rfl⟩ := classified
    exact fits
  | time q =>
    rw [show result = _ from classified]
    exact fits

theorem fits_control (c : RunControl) (fixed : Option Stamp) : c.policy.Fits c fixed := by
  unfold RunControl.policy
  split
  next mode =>
    show c.mode.isTime = false
    rw [mode]
    rfl
  next mode => exact ⟨mode, by simp [TimePolicy.ofLengths]⟩

theorem fits_of_prepares {h : History} (prepares : c.Prepares policy h)
    (tells : TellsOnly fixed h) : policy.Fits c fixed := by
  have fits := fits_control c fixed
  rcases prepares with ⟨-, rfl⟩ | ⟨-, start, known, rfl⟩
  · exact fits
  · have noticed := fits.noticing (tells start known)
    cases policy : c.policy with
    | cycles q =>
      rw [policy] at fits
      exact fits
    | time q =>
      rw [policy] at noticed
      exact noticed

theorem Fits.of_fixed {fixed' : Option Stamp} (fits : policy.Fits c fixed)
    (same : ∀ start, fixed = some start → fixed' = some start) : policy.Fits c fixed' := by
  cases policy with
  | cycles q => exact fits
  | time q =>
    refine ⟨fits.1, fun bounds set => ?_⟩
    obtain ⟨start, known, has⟩ := fits.2 bounds set
    exact ⟨start, same start known, has⟩

/-- A policy that measures by the clock has the bounds that the start gives it. -/
theorem Fits.bounds_withStart {q : TimePolicy} (fits : (time q).Fits c fixed) {start : Stamp}
    (known : fixed = some start) {rampUp steadyState rampDown : Span}
    (mode : c.mode = .time rampUp steadyState rampDown) :
    (q.withStart start).bounds = some (.ofStart start rampUp steadyState rampDown) := by
  obtain ⟨bounds, set⟩ := q.exists_bounds start
  obtain ⟨mode', measured⟩ := fits.noticing known
  obtain ⟨start', known', rfl⟩ := measured bounds set
  obtain rfl := Option.some.inj (known.symm.trans known')
  obtain ⟨up, steady, down⟩ := RunMode.time.inj (mode.symm.trans mode')
  rw [set, up, steady, down]

end Policy

/-- The loop between two iterations, as the history tells it. -/
structure LoopState.Booked {σ : Type} (p : RunPlan σ) (fixed : Option Stamp) (l : LoopState)
    (h : History) : Prop where
  slots : l.slots.Shown p.workload h
  free : l.slots.Free
  policy : l.policy.Fits p.control fixed
  tells : TellsOnly fixed h

/-- The slot of a handler that has been called is as the history tells it, and holds nothing. -/
structure Slot.Serves {σ : Type} (w : Workload σ) (s : Slot) (h : History) : Prop where
  shown : s.Shown w s.background h
  idle : s.pending = none

theorem Slot.Serves.plain {σ : Type} {w : Workload σ} {s : Slot} {x : Exchange} {h : History}
    (serves : s.Serves w h) (plain : x.request.Plain) : s.Serves w (x :: h) :=
  ⟨serves.shown.plain plain, serves.idle⟩

/-- The slot that is due first has given its invocation; the loop has been planned before that. -/
structure Slots.Gives {σ : Type} (w : Workload σ) (before after : Slots) (slot : Slot)
    (pending : Pending) (h : History) : Prop where
  shown : before.Shown w h
  full : ∀ b s, before.side b = some s → ∃ pending, s.pending = some pending
  pending : before.earliest.pending = some pending
  slots : after = before.put slot
  slot : slot = { before.earliest with pending := none }

namespace Slots.Gives

variable {σ : Type} {p : RunPlan σ} {before after : Slots} {slot : Slot} {pending : Pending}
  {x : Exchange} {h : History}

theorem plain (gives : before.Gives p.workload after slot pending h) (plain : x.request.Plain) :
    before.Gives p.workload after slot pending (x :: h) :=
  ⟨gives.shown.plain plain, gives.full, gives.pending, gives.slots, gives.slot⟩

/-- Every slot holds an invocation that is due no earlier. -/
theorem exists_pending (gives : before.Gives p.workload after slot pending h) {b : Bool}
    (mixed : (p.workload.mixOf b).isSome) : ∃ s operation t, before.side b = some s ∧
      s.due = t ∧ h.pending b = some (operation, t) := by
  obtain ⟨s, has⟩ := Option.isSome_iff_exists.mp (gives.shown.present b mixed)
  obtain ⟨pending, holds⟩ := gives.full b s has
  refine ⟨s, pending.operation, pending.intended, has, ?_, ?_⟩
  · simp [Slot.due, holds]
  · rw [(gives.shown.each b s has).pending, holds]
    rfl

theorem due_earliest (gives : before.Gives p.workload after slot pending h) :
    before.earliest.due = pending.intended := by
  simp [Slot.due, gives.pending]

theorem due (gives : before.Gives p.workload after slot pending h) :
    Due p.workload slot.background pending.operation pending.intended h := by
  obtain ⟨b, there⟩ := before.exists_side_earliest
  have own := gives.shown.background there
  have side : slot.background = before.earliest.background := by rw [gives.slot]
  refine ⟨?_, fun b' mixed => ?_⟩
  · rw [side, own.pending, gives.pending]
    rfl
  · obtain ⟨s, operation, t, has, due, shows⟩ := gives.exists_pending mixed
    refine ⟨operation, t, shows, ?_⟩
    rw [← due, ← gives.due_earliest, side]
    rcases before.earliest_cases with ⟨same, first⟩ | ⟨same, first⟩
    · have front : before.earliest.background = false :=
        (gives.shown.each false _ (congrArg some same.symm)).side
      refine ⟨?_, fun behind => by simp [front] at behind⟩
      rw [same]
      cases b' with
      | true => exact first s has
      | false => exact le_of_eq (congrArg Slot.due (Option.some.inj has))
    · cases b' with
      | true =>
        obtain rfl := Option.some.inj (same.symm.trans has)
        exact ⟨le_rfl, nofun⟩
      | false =>
        obtain rfl := Option.some.inj has
        exact ⟨le_of_lt first, fun _ _ => first⟩

/-- When its invocation is too late, the loop leaves nothing that is due before the end. -/
theorem allBeyond {fixed : Option Stamp} {policy : Policy}
    (gives : before.Gives p.workload after slot pending h)
    (fits : policy.Fits p.control fixed)
    (stops : policy.stopBefore pending.intended = true) : AllBeyond p fixed h := by
  cases policy with
  | cycles q => simp [Policy.stopBefore] at stops
  | time q =>
    obtain ⟨mode, bounds⟩ := fits
    obtain ⟨b, set, late⟩ := (Option.any_eq_true _ _).mp stops
    obtain ⟨start, known, rfl⟩ := bounds b set
    refine ⟨_, _, _, start, mode, known, fun side mixed => ?_⟩
    obtain ⟨operation, t, shows, later, -⟩ := gives.due.first side mixed
    exact ⟨operation, t, shows, le_trans (of_decide_eq_true late) later⟩

/-- Once its handler is called, the slots are again as the history tells. -/
theorem called (gives : before.Gives p.workload after slot pending h) (t : Stamp) :
    let x : Exchange :=
      ⟨t, .emit (.called slot.background pending.operation pending.intended), ()⟩
    after.Shown p.workload (x :: h) ∧ after.Free ∧ slot.Serves p.workload (x :: h) := by
  intro x
  obtain ⟨b, there⟩ := before.exists_side_earliest
  have own := gives.shown.background there
  have side : slot.background = before.earliest.background := by rw [gives.slot]
  have idle : slot.pending = none := by rw [gives.slot]
  have mine : slot.Shown p.workload slot.background (x :: h) := by
    have called := own.called t pending.operation pending.intended
    unfold x
    rw [side, gives.slot]
    exact called
  rw [gives.slots]
  refine ⟨Slots.Shown.put_of_others gives.shown.present (fun b s has other => ?_) mine,
    Slots.free_put idle, mine, idle⟩
  exact (gives.shown.each b s has).called_other other t _ _

end Slots.Gives

/-- An outline in which every slot is as the history tells it. -/
def Outline.booking {σ : Type} (p : RunPlan σ) (fixed : Option Stamp) : Outline where
  unbegun h := (∀ b, h.pending b = none) ∧ (∀ b, h.picks b = 0) ∧ TellsOnly fixed h
  resting l h := l.Booked p fixed h
  opening l i h := (∃ before, Slots.Gives p.workload before l.slots i.slot i.pending h) ∧
    l.policy.Fits p.control fixed ∧ TellsOnly fixed h
  serving l i h := l.Booked p fixed h ∧ i.slot.Serves p.workload h
  cleared l i h := l.Booked p fixed h ∧ i.slot.Serves p.workload h
  closing l i _ h := (l.follow i).Booked p fixed h

namespace LoopState.Booked

variable {σ : Type} {p : RunPlan σ} {fixed : Option Stamp} {l : LoopState} {i : Invocation}
  {x : Exchange} {h : History}

theorem plain (booked : l.Booked p fixed h) (plain : x.request.Plain)
    (faithful : Faithful fixed x h) : l.Booked p fixed (x :: h) :=
  ⟨booked.slots.plain plain, booked.free, booked.policy, faithful.tellsOnly booked.tells⟩

/-- A report leaves the slots as they are. -/
theorem reported (booked : l.Booked p fixed h) (untold : x.start? = none)
    (pending : ∀ b, History.pending b (x :: h) = History.pending b h)
    (picks : ∀ b, History.picks b (x :: h) = History.picks b h) : l.Booked p fixed (x :: h) :=
  ⟨booked.slots.of_same pending picks, booked.free, booked.policy, by
    intro start told
    exact booked.tells start (told_cons_of_none untold ▸ told)⟩

theorem follow {result : Policy × Phase} (booked : l.Booked p fixed h)
    (own : i.slot.Serves p.workload h) {r : Timing} (classified : l.policy.Classifies r result) :
    ((l.withPolicy result.1).follow i).Booked p fixed h := by
  have kept : (i.slot.follow i.record).background = i.slot.background ∧
      (i.slot.follow i.record).pending = i.slot.pending := by
    obtain ⟨first, last, followed⟩ := i.slot.exists_of_follow i.record
    rw [followed]
    exact ⟨rfl, rfl⟩
  have followed := own.shown.follow i.record
  rw [← kept.1] at followed
  exact ⟨booked.slots.put followed, Slots.free_put (kept.2.trans own.idle),
    booked.policy.classifies classified, booked.tells⟩

end LoopState.Booked

namespace Outline

variable {σ : Type} {p : RunPlan σ} {fixed : Option Stamp} {l : LoopState} {i : Invocation}
  {x : Exchange} {h : History}

theorem booked_of_mute (mute : x.request.Mute) : Booked p fixed x h := by
  obtain ⟨t, request, reply⟩ := x
  cases request with
  | call c => trivial
  | emit e => cases e <;> trivial

theorem booking_sound (p : RunPlan σ) (id : Nat) (fixed : Option Stamp) :
    (booking p fixed).Sound p id (Faithful fixed) (Booked p fixed) where
  punctual := Faithful.toPunctual
  mute := booked_of_mute
  ends unplanned planned := by simp [unplanned] at planned
  unbegun_plain plain faithful unbegun :=
    ⟨fun b => (pending_cons_of_plain plain).trans (unbegun.1 b),
      fun b => (picks_cons_of_plain plain).trans (unbegun.2.1 b),
      faithful.tellsOnly unbegun.2.2⟩
  enters prepares faithful unbegun :=
    ⟨(Slots.Shown.fresh unbegun.1 unbegun.2.1 _ _).of_same (fun _ => rfl) fun _ => rfl,
      Slots.free_fresh _ _ _, Policy.fits_of_prepares prepares unbegun.2.2,
      faithful.tellsOnly unbegun.2.2⟩
  resting_plain plain faithful booked := booked.plain plain faithful
  notices faithful told booked :=
    ⟨booked.slots.plain (plain_of_told told), booked.free,
      booked.policy.noticing (faithful.told _ told), faithful.tellsOnly booked.tells⟩
  resumes _ slept faithful booked :=
    ⟨slept.wakes.isSome, booked.slots.reset _ _ _, ⟨false, _, rfl, rfl⟩, booked.policy,
      faithful.tellsOnly booked.tells⟩
  plans := by
    intro l h _ booked
    have tells : ∀ x h, x.request.Plans → Faithful fixed x h → TellsOnly fixed h →
        True ∧ TellsOnly fixed (x :: h) :=
      fun x h _ faithful tells => ⟨trivial, faithful.tellsOnly tells⟩
    refine ((booked.slots.ensures_plan l.random).and
      ((VirtualUser.plan_only l.slots p.workload l.random).ensures tells booked.tells)).mono ?_
    intro _ h planned l' s pending has
    obtain ⟨shown, -, tells⟩ := planned
    refine ⟨⟨l'.slots, shown, fun b s there => ?_, has, rfl, rfl⟩, booked.policy, tells⟩
    obtain ⟨s', r', -, rfl⟩ := Slots.exists_of_side_plan there
    exact s'.exists_pending_plan _ _
  stops opening stops _ := by
    obtain ⟨⟨before, gives⟩, fits, -⟩ := opening
    exact gives.allBeyond fits stops
  opening_tracked := by
    intro l i
    have tracked : Timing.Tracked (Faithful fixed) fun _ h => (booking p fixed).opening l i h :=
      .of_idle fun idle faithful opening =>
        ⟨opening.1.imp fun _ gives => gives.plain idle.plain, opening.2.1,
          faithful.tellsOnly opening.2.2⟩
    exact tracked
  calls := by
    intro l i t h _ faithful opening
    obtain ⟨⟨before, gives⟩, fits, tells⟩ := opening
    obtain ⟨shown, free, mine⟩ := gives.called t
    exact ⟨gives.due, ⟨shown, free, fits, faithful.tellsOnly tells⟩, mine⟩
  serving_tracked := by
    intro l i
    have tracked : Timing.Tracked (Faithful fixed) fun _ h => (booking p fixed).serving l i h :=
      .of_idle fun idle faithful serving =>
        ⟨serving.1.plain idle.plain faithful, serving.2.plain idle.plain⟩
    exact tracked
  clears faithful clear serving :=
    ⟨serving.1.plain (plain_of_clear clear) faithful, serving.2.plain (plain_of_clear clear)⟩
  cleared_plain plain faithful cleared :=
    ⟨cleared.1.plain plain faithful, cleared.2.plain plain⟩
  succeeds := by
    intro l i record result t h cleared _ classified i' x faithful
    have followed := cleared.1.follow (i := i') cleared.2 classified
    exact ⟨trivial, followed.reported rfl (fun _ => rfl) fun _ => rfl⟩
  skips := by
    intro l i now t cause h failed _ _ x faithful
    have booked : (l.put i.slot).Booked p fixed h :=
      ⟨failed.cleared.1.slots.put failed.cleared.2.shown,
        Slots.free_put failed.cleared.2.idle, failed.cleared.1.policy, failed.cleared.1.tells⟩
    exact ⟨trivial, booked.reported rfl (fun _ => rfl) fun _ => rfl⟩
  fails := by
    intro l i now cause result t h t' failed _ _ i' classified x y faithful
    have followed := failed.cleared.1.follow (i := i') failed.cleared.2 classified
    have reported := followed.reported (x := x) rfl (fun _ => rfl) fun _ => rfl
    exact ⟨trivial, reported.reported rfl (fun _ => rfl) fun _ => rfl⟩
  delays := by
    intro l i phase sample t h booked _ _ x faithful
    exact ⟨trivial, booked.reported rfl (fun _ => rfl) fun _ => rfl⟩
  closes booked := booked

end Outline

section Runs

variable {σ : Type} {p : RunPlan σ} {e : Ensemble (Stage σ)} {now : Stamp} {hs : Nat → History}

theorem booking_of_run (run : Ensemble.Run p.follow p.ensemble now e hs) (i : Nat) :
    (hs i).Each (Booked p e.signals.start) ∧ ∀ m stage, e.members[i]? = some m →
      m.stage? = some stage →
        (Outline.booking p e.signals.start).Holds p i stage (hs i) :=
  (Outline.booking_sound p i e.signals.start).of_run
    ⟨fun _ => rfl, fun _ => rfl, fun _ told => nomatch told⟩ run
    (SampleInvariant.faithful_of_run run i)

/-- In a run, what a thread plans and calls is booked. -/
theorem booked_of_run (run : Ensemble.Run p.follow p.ensemble now e hs) (i : Nat) :
    (hs i).Each (Booked p e.signals.start) := (booking_of_run run i).1

/-- Between two iterations, the slots of a thread are as its history tells them. -/
theorem shown_of_run {i : Nat} {m : Member (Stage σ)} {u : VirtualUser σ} {slots : Slots}
    (run : Ensemble.Run p.follow p.ensemble now e hs) (present : e.members[i]? = some m)
    (staged : m.stage? = some (.iterating u slots)) :
    slots.Shown p.workload (hs i) ∧ slots.Free :=
  have booked := ((booking_of_run run i).2 m _ present staged).stands.2
  ⟨booked.slots, booked.free⟩

end Runs

end LoadGen
