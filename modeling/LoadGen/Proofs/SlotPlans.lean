import LoadGen.Proofs.PendingInvocations

namespace LoadGen

open Program History

/-- An invocation as it was planned. -/
structure Plan where
  operation : Nat
  intended : Stamp
  delay : Stamp

/-- What has been planned for a slot since the thread has come into its loop or has been resumed,
the latest plan first. -/
def History.plansFor (b : Bool) : History → List Plan
  | [] => []
  | x :: h =>
    match x.event? with
    | some (.planned background operation intended delay) =>
      if background = b then ⟨operation, intended, delay⟩ :: plansFor b h else plansFor b h
    | some .runStarted | some .resumed => []
    | _ => plansFor b h

theorem plansFor_cons_of_plain {b : Bool} {x : Exchange} {h : History} (plain : x.request.Plain) :
    plansFor b (x :: h) = plansFor b h := by
  obtain ⟨t, request, reply⟩ := x
  cases request with
  | call c => rfl
  | emit e => cases e <;> first | rfl | cases plain

/-- The delay is one that the pacing of an operation gives, and counted from where that says. -/
def Workload.Paces {σ : Type} (w : Workload σ) (operation : Nat) (basis : PacingBasis)
    (delay : Stamp) : Prop :=
  ∃ (o : Operation) (random : ChaCha), w.operations[operation]? = some o ∧
    basis = o.pacing.basis ∧ delay = (o.pacing.delayStamp random).1

theorem Workload.Paces.nonneg {σ : Type} {w : Workload σ} {operation : Nat} {basis : PacingBasis}
    {delay : Stamp} (paces : w.Paces operation basis delay) : 0 ≤ delay := by
  obtain ⟨o, random, -, -, rfl⟩ := paces
  exact Stamp.ofSpan_nonneg _

/-- An invocation is pending after a delay. Of the plans of its slot, the latest is its own, and the
one before that decided the delay. -/
structure Pending.Follows {σ : Type} (w : Workload σ) (s : Slot) (pending : Pending)
    (delay : PlannedDelay) (plans : List Plan) : Prop where
  plans : ∃ previous rest, previous.operation = delay.previous ∧
    plans = ⟨pending.operation, pending.intended, delay.targeted⟩ :: previous :: rest
  paces : w.Paces delay.previous delay.basis delay.targeted
  reference : pending.reference = s.reference delay.basis
  intended : pending.intended = Stamp.plus pending.reference delay.targeted

/-- The slot of a side recalls its plans. When nothing is pending in it, its operation is one of the
workload. -/
structure Slot.Recalls {σ : Type} (w : Workload σ) (b : Bool) (s : Slot) (h : History) : Prop where
  side : s.background = b
  current : s.current = (plansFor b h).head?.map Plan.operation
  known : s.pending = none → ∀ operation, s.current = some operation →
    (w.operations[operation]?).isSome
  pending : ∀ pending, s.pending = some pending → s.current = some pending.operation ∧
    ∀ delay, pending.delay = some delay → pending.Follows w s delay (plansFor b h)

namespace Slot.Recalls

variable {σ : Type} {w : Workload σ} {b : Bool} {s : Slot} {h h' : History}

theorem of_same (recalls : s.Recalls w b h) (same : plansFor b h' = plansFor b h) :
    s.Recalls w b h' where
  side := recalls.side
  current := by rw [same]; exact recalls.current
  known := recalls.known
  pending := by rw [same]; exact recalls.pending

theorem planned_other (recalls : s.Recalls w b h) {side : Bool} (other : side ≠ b) (t : Stamp)
    (operation : Nat) (intended delay : Stamp) :
    s.Recalls w b (⟨t, .emit (.planned side operation intended delay), ()⟩ :: h) :=
  recalls.of_same (if_neg other)

/-- The next invocation follows the one that the slot recalls. -/
theorem follows (recalls : s.Recalls w b h) (idle : s.pending = none) (operation : Nat)
    (r : ChaCha) :
    let next := s.nextPending w operation s.current r
    ∀ delay, next.1.delay = some delay →
      next.1.Follows w s delay (⟨operation, next.1.intended, next.2.1⟩ :: plansFor b h) := by
  intro next delay delayed
  cases current : s.current with
  | none =>
    simp only [next, nextPending, current] at delayed
    cases delayed
  | some previous =>
    obtain ⟨o, known⟩ := Option.isSome_iff_exists.mp (recalls.known idle previous current)
    have split : ∃ plan rest, plan.operation = previous ∧ plansFor b h = plan :: rest := by
      obtain ⟨plan, latest, same⟩ :=
        Option.map_eq_some_iff.mp (recalls.current.symm.trans current)
      obtain ⟨rest, split⟩ := List.head?_eq_some_iff.mp latest
      exact ⟨plan, rest, same, split⟩
    obtain ⟨plan, rest, same, split⟩ := split
    simp only [next, nextPending, current, known, Option.map_some, Option.getD_some,
      Option.some.injEq] at delayed
    subst delayed
    simp only [next, nextPending, current, known, Option.map_some, Option.getD_some]
    exact ⟨⟨plan, rest, same, by rw [split]⟩, ⟨o, r, known, rfl, rfl⟩, rfl, rfl⟩

theorem planned (recalls : s.Recalls w b h) (idle : s.pending = none) (t : Stamp) (r : ChaCha) :
    (s.plan w r).1.Recalls w b (⟨t, .emit (s.nextPlan w r), ()⟩ :: h) := by
  have grown : plansFor b (⟨t, .emit (s.nextPlan w r), ()⟩ :: h) =
      ⟨s.selector.select.1, (s.nextPending w s.selector.select.1 s.current r).1.intended,
        (s.nextPending w s.selector.select.1 s.current r).2.1⟩ :: plansFor b h :=
    if_pos recalls.side
  rw [Slot.plan_of_idle idle]
  refine ⟨recalls.side, by rw [grown]; rfl, nofun, fun pending has => ?_⟩
  obtain rfl := Option.some.inj has
  have follows := recalls.follows idle s.selector.select.1 r
  rw [grown]
  refine ⟨congrArg some (nextPending_operation _ _).symm, fun delay delayed => ?_⟩
  obtain ⟨⟨previous, rest, same, plans⟩, paces, reference, intended⟩ := follows delay delayed
  refine ⟨⟨previous, rest, same, ?_⟩, paces, reference, intended⟩
  rw [plans, nextPending_operation]

/-- The times of a slot with nothing pending play no part. -/
theorem follow (recalls : s.Recalls w b h) (idle : s.pending = none) (r : Timing) :
    (s.follow r).Recalls w b h := by
  obtain ⟨first, last, followed⟩ := s.exists_of_follow r
  rw [followed]
  refine ⟨recalls.side, recalls.current, recalls.known, fun pending has => ?_⟩
  cases idle.symm.trans has

end Slot.Recalls

/-- Every slot recalls its plans. -/
def Slots.Recall {σ : Type} (w : Workload σ) (slots : Slots) (h : History) : Prop :=
  ∀ b s, slots.side b = some s → s.Recalls w b h

namespace Slots.Recall

variable {σ : Type} {w : Workload σ} {slots : Slots} {slot : Slot} {x : Exchange} {h h' : History}

theorem of_same (recalled : slots.Recall w h) (same : ∀ b, plansFor b h' = plansFor b h) :
    slots.Recall w h' :=
  fun b s has => (recalled b s has).of_same (same b)

theorem plain (recalled : slots.Recall w h) (plain : x.request.Plain) : slots.Recall w (x :: h) :=
  recalled.of_same fun _ => plansFor_cons_of_plain plain

theorem put (recalled : slots.Recall w h) (new : slot.Recalls w slot.background h) :
    (slots.put slot).Recall w h := by
  intro b s has
  rw [Slots.side_put] at has
  split at has
  next same =>
    obtain rfl := Option.some.inj has
    exact same ▸ new
  next => exact recalled b s has

theorem fresh (unplanned : ∀ b, plansFor b h = []) (r : ChaCha) (reference : Stamp) :
    (Slots.fresh w r reference).1.Recall w h := by
  intro b s has
  obtain ⟨m, r', -, rfl⟩ := Slots.exists_of_side_fresh has
  exact ⟨rfl, by rw [unplanned]; rfl, fun _ _ => nofun, nofun⟩

theorem reset (recalled : slots.Recall w h) (t now t' : Stamp) :
    (slots.reset now).Recall w (⟨t', .emit .resumed, ()⟩ :: ⟨t, .call .clock, now⟩ :: h) := by
  intro b s has
  rw [Slots.side_reset] at has
  obtain ⟨s', there, rfl⟩ := Option.map_eq_some_iff.mp has
  exact ⟨(recalled b s' there).side, rfl, fun _ _ => nofun, nofun⟩

theorem earliest (recalled : slots.Recall w h) :
    slots.earliest.Recalls w slots.earliest.background h := by
  obtain ⟨b, there⟩ := slots.exists_side_earliest
  have recalls := recalled b _ there
  rwa [recalls.side]

end Slots.Recall

/-- The slot as it was when it held the invocation that it has given. -/
def Slot.holding (s : Slot) (pending : Pending) : Slot := { s with pending := some pending }

/-- The slots recall their plans, and the one that has given an invocation does as it did when it
held that. -/
structure LoopState.Recalls {σ : Type} (w : Workload σ) (l : LoopState) (s : Slot)
    (pending : Pending) (h : History) : Prop where
  slots : (l.slots.put (s.holding pending)).Recall w h
  idle : s.pending = none

/-- The operation of the invocation is one of the workload. -/
structure LoopState.RecallsKnown {σ : Type} (w : Workload σ) (l : LoopState) (s : Slot)
    (pending : Pending) (h : History) : Prop extends l.Recalls w s pending h where
  known : (w.operations[pending.operation]?).isSome

namespace LoopState

variable {σ : Type} {w : Workload σ} {l : LoopState} {s : Slot} {pending : Pending} {x : Exchange}
  {h h' : History}

theorem Recalls.of_same (recalls : l.Recalls w s pending h)
    (same : ∀ b, plansFor b h' = plansFor b h) : l.Recalls w s pending h' :=
  ⟨recalls.slots.of_same same, recalls.idle⟩

theorem Recalls.plain (recalls : l.Recalls w s pending h) (plain : x.request.Plain) :
    l.Recalls w s pending (x :: h) :=
  recalls.of_same fun _ => plansFor_cons_of_plain plain

theorem RecallsKnown.plain (recalls : l.RecallsKnown w s pending h) (plain : x.request.Plain) :
    l.RecallsKnown w s pending (x :: h) :=
  ⟨recalls.toRecalls.plain plain, recalls.known⟩

theorem Recalls.source (recalls : l.Recalls w s pending h) :
    (s.holding pending).Recalls w s.background h :=
  recalls.slots _ _ (by rw [Slots.side_put]; exact if_pos rfl)

/-- Without its invocation, the slot still recalls its plans. -/
theorem RecallsKnown.slot (recalls : l.RecallsKnown w s pending h) :
    s.Recalls w s.background h := by
  have source := recalls.source
  have current := (source.pending pending rfl).1
  refine ⟨rfl, source.current, fun _ operation same => ?_, fun other has => ?_⟩
  · obtain rfl := Option.some.inj (current.symm.trans same)
    exact recalls.known
  · cases recalls.idle.symm.trans has

/-- A slot that is put in the place of the one that held the invocation. -/
theorem Recalls.put (recalls : l.Recalls w s pending h) {slot : Slot}
    (own : slot.Recalls w s.background h) : (l.put slot).slots.Recall w h := by
  have side : slot.background = (s.holding pending).background := own.side
  have own : slot.Recalls w slot.background h := own.side.symm ▸ own
  have replaced := recalls.slots.put own
  rwa [Slots.put_put side] at replaced

theorem RecallsKnown.put (recalls : l.RecallsKnown w s pending h) :
    (l.put s).slots.Recall w h :=
  recalls.toRecalls.put recalls.slot

theorem RecallsKnown.follow (recalls : l.RecallsKnown w s pending h) (record : Timing) :
    (l.follow ⟨s, pending, record⟩).slots.Recall w h :=
  recalls.toRecalls.put (recalls.slot.follow recalls.idle record)

end LoopState

end LoadGen
