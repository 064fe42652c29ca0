import LoadGen.VirtualUser
import Mathlib.Data.Int.Order.Basic

namespace LoadGen

/-- The mix of the foreground or of the background. -/
def Workload.mixOf {σ : Type} (w : Workload σ) (background : Bool) : Option Mix :=
  if background then w.backgroundMix else some w.mix

namespace Slot

variable {σ ρ : Type} [WordSource ρ] {s : Slot} {w : Workload σ} {r : ρ}

theorem nextPending_operation (operation : Nat) (previous : Option Nat) :
    (s.nextPending w operation previous r).1.operation = operation := by
  unfold nextPending
  split <;> rfl

/-- The event with which an idle slot plans its next invocation. -/
def nextPlan (s : Slot) (w : Workload σ) (r : ρ) : Event :=
  let next := s.nextPending w s.selector.select.1 s.current r
  .planned s.background s.selector.select.1 next.1.intended next.2.1

theorem plan_of_pending {pending : Pending} (has : s.pending = some pending) :
    s.plan w r = (s, r, []) := by
  simp [plan, has]

theorem plan_of_idle (idle : s.pending = none) :
    let next := s.nextPending w s.selector.select.1 s.current r
    s.plan w r = ({ s with
      selector := s.selector.select.2
      current := some s.selector.select.1
      pending := some next.1 }, next.2.2, [s.nextPlan w r]) := by
  simp [plan, idle, nextPlan]

/-- What a slot plans is pending after that. -/
theorem exists_of_mem_plan {e : Event} (mem : e ∈ (s.plan w r).2.2) :
    ∃ pending delay, (s.plan w r).1.pending = some pending ∧
      e = .planned (s.plan w r).1.background pending.operation pending.intended delay := by
  unfold plan at mem ⊢
  cases planned : s.pending with
  | some pending =>
    rw [planned] at mem
    cases mem
  | none =>
    rw [planned] at mem
    obtain rfl := List.mem_singleton.mp mem
    exact ⟨_, _, rfl, by rw [nextPending_operation]⟩

theorem exists_pending_plan (s : Slot) (w : Workload σ) (r : ρ) :
    ∃ pending, (s.plan w r).1.pending = some pending := by
  unfold plan
  split
  next pending has => exact ⟨pending, has⟩
  next => exact ⟨_, rfl⟩

/-- Planning an invocation leaves a slot its side and its times. -/
theorem plan_times : (s.plan w r).1.background = s.background ∧
    (s.plan w r).1.previousStart = s.previousStart ∧
    (s.plan w r).1.previousEnd = s.previousEnd := by
  unfold plan
  split <;> exact ⟨rfl, rfl, rfl⟩

theorem follow_of_both {record : Timing} {invoke respond : Stamp}
    (begun : record.invoke = some invoke) (ended : record.respond = some respond) :
    s.follow record = { s with previousStart := invoke, previousEnd := respond } := by
  simp [follow, begun, ended]

/-- Taking over the times of an invocation changes nothing but the times. -/
theorem exists_of_follow (s : Slot) (r : Timing) :
    ∃ first last, s.follow r = { s with previousStart := first, previousEnd := last } := by
  unfold follow
  split
  · exact ⟨_, _, rfl⟩
  · exact ⟨s.previousStart, s.previousEnd, rfl⟩

end Slot

namespace Slots

def All (slots : Slots) (P : Slot → Prop) : Prop :=
  P slots.foreground ∧ ∀ slot, slots.background = some slot → P slot

variable {σ ρ : Type} [WordSource ρ] {slots : Slots} {slot : Slot} {P Q : Slot → Prop}
  {reference : Stamp}

theorem All.mono (all : slots.All P) (imp : ∀ slot, P slot → Q slot) : slots.All Q :=
  ⟨imp _ all.1, fun slot has => imp slot (all.2 slot has)⟩

theorem All.and (left : slots.All P) (right : slots.All Q) : slots.All fun s => P s ∧ Q s :=
  ⟨⟨left.1, right.1⟩, fun s has => ⟨left.2 s has, right.2 s has⟩⟩

theorem All.put (all : slots.All P) (new : P slot) : (slots.put slot).All P := by
  unfold Slots.put
  split
  next => exact ⟨all.1, fun _ same => Option.some.inj same ▸ new⟩
  next => exact ⟨new, all.2⟩

theorem All.earliest (all : slots.All P) : P slots.earliest := by
  unfold Slots.earliest
  split
  next background =>
    split
    next => exact all.2 _ background
    next => exact all.1
  next => exact all.1

/-- The slots after planning, each with the random source at its turn. -/
theorem All.plan (all : slots.All P) (w : Workload σ) (r : ρ)
    (step : ∀ s (r : ρ), P s → Q (s.plan w r).1) : (slots.plan w r).1.All Q := by
  unfold Slots.plan
  cases background : slots.background with
  | none => exact ⟨step _ _ all.1, by simp⟩
  | some slot =>
    refine ⟨step _ _ all.1, fun _ same => ?_⟩
    exact Option.some.inj same ▸ step _ _ (all.2 slot background)

/-- Every event of a planning belongs to a slot as it is after it. -/
theorem All.exists_of_mem_plan (all : slots.All P) {w : Workload σ} {r : ρ}
    (step : ∀ s (r : ρ), P s → P (s.plan w r).1) {e : Event} (mem : e ∈ (slots.plan w r).2.2) :
    ∃ s pending delay, P s ∧ s.pending = some pending ∧
      e = .planned s.background pending.operation pending.intended delay := by
  have each : ∀ (s : Slot) (r : ρ), P s → e ∈ (s.plan w r).2.2 →
      ∃ s pending delay, P s ∧ s.pending = some pending ∧
        e = .planned s.background pending.operation pending.intended delay := by
    intro s r holds mem
    obtain ⟨pending, delay, planned, same⟩ := Slot.exists_of_mem_plan mem
    exact ⟨_, pending, delay, step s r holds, planned, same⟩
  simp only [Slots.plan] at mem
  cases background : slots.background with
  | none =>
    rw [background] at mem
    exact each _ _ all.1 mem
  | some slot =>
    rw [background] at mem
    rcases List.mem_append.mp mem with first | second
    · exact each _ _ all.1 first
    · exact each _ _ (all.2 slot background) second

theorem all_fresh (w : Workload σ) (r : ρ)
    (fresh : ∀ selector background, P (Slot.fresh selector background reference)) :
    (Slots.fresh w r reference).1.All P := by
  unfold Slots.fresh
  cases w.backgroundMix with
  | none => exact ⟨fresh _ _, by simp⟩
  | some mix => exact ⟨fresh _ _, fun _ same => Option.some.inj same ▸ fresh _ _⟩

theorem All.reset (all : slots.All P) (step : ∀ s : Slot, P s → Q (s.reset reference)) :
    (slots.reset reference).All Q := by
  refine ⟨step _ all.1, fun slot same => ?_⟩
  obtain ⟨other, background, rfl⟩ := Option.map_eq_some_iff.mp same
  exact step other (all.2 other background)

/-- The slot of the foreground or of the background. -/
def side (slots : Slots) (background : Bool) : Option Slot :=
  if background then slots.background else some slots.foreground

variable {s : Slot} {b : Bool}

theorem side_put : (slots.put slot).side b =
    if slot.background = b then some slot else slots.side b := by
  unfold put side
  cases b <;> cases slot.background <;> rfl

theorem side_reset : (slots.reset reference).side b =
    (slots.side b).map (·.reset reference) := by
  cases b <;> rfl

theorem exists_of_side_plan {w : Workload σ} {r : ρ} (has : (slots.plan w r).1.side b = some s) :
    ∃ s' r', slots.side b = some s' ∧ s = (s'.plan w (r' : ρ)).1 := by
  unfold Slots.plan at has
  cases background : slots.background with
  | none =>
    rw [background] at has
    cases b with
    | true => cases has
    | false => exact ⟨_, r, rfl, (Option.some.inj has).symm⟩
  | some slot =>
    rw [background] at has
    cases b with
    | true => exact ⟨slot, _, background, (Option.some.inj has).symm⟩
    | false => exact ⟨_, r, rfl, (Option.some.inj has).symm⟩

/-- A slot of a loop that has just begun belongs to a mix. -/
theorem exists_of_side_fresh {w : Workload σ} {r : ρ}
    (has : (Slots.fresh w r reference).1.side b = some s) :
    ∃ m r', w.mixOf b = some m ∧ s = .fresh (m.selector (r' : ρ)).1 b reference := by
  unfold Slots.fresh at has
  cases background : w.backgroundMix with
  | none =>
    simp only [background] at has
    cases b with
    | true => cases has
    | false => exact ⟨_, r, rfl, (Option.some.inj has).symm⟩
  | some mix =>
    simp only [background] at has
    cases b with
    | true => exact ⟨mix, _, background, (Option.some.inj has).symm⟩
    | false => exact ⟨_, r, rfl, (Option.some.inj has).symm⟩

theorem isSome_side_fresh {w : Workload σ} {r : ρ} (has : (w.mixOf b).isSome) :
    ((Slots.fresh w r reference).1.side b).isSome := by
  unfold Slots.fresh
  cases b with
  | false => cases w.backgroundMix <;> rfl
  | true =>
    obtain ⟨mix, background⟩ := Option.isSome_iff_exists.mp has
    simp [show w.backgroundMix = some mix from background, side]

theorem isSome_side_plan {w : Workload σ} {r : ρ} (has : (slots.side b).isSome) :
    ((slots.plan w r).1.side b).isSome := by
  unfold Slots.plan
  cases background : slots.background <;> cases b <;> simp_all [side]

theorem exists_side_earliest (slots : Slots) : ∃ b, slots.side b = some slots.earliest := by
  unfold Slots.earliest
  split
  next background =>
    split
    next => exact ⟨true, background⟩
    next => exact ⟨false, rfl⟩
  next => exact ⟨false, rfl⟩

theorem earliest_cases (slots : Slots) :
    (slots.earliest = slots.foreground ∧
        ∀ s, slots.background = some s → slots.foreground.due ≤ s.due) ∨
      (slots.background = some slots.earliest ∧ slots.earliest.due < slots.foreground.due) := by
  unfold Slots.earliest
  split
  next slot background =>
    split
    next first => exact Or.inr ⟨background, first⟩
    next late =>
      refine Or.inl ⟨rfl, fun s same => ?_⟩
      obtain rfl := Option.some.inj (background.symm.trans same)
      exact Int.not_lt.mp late
  next single => exact Or.inl ⟨rfl, fun s same => nomatch single.symm.trans same⟩

/-- Nothing is due before the earliest slot. -/
theorem all_earliest_due_le (slots : Slots) :
    slots.All fun s => slots.earliest.due ≤ s.due := by
  rcases slots.earliest_cases with ⟨same, first⟩ | ⟨same, first⟩
  · exact ⟨le_of_eq (congrArg Slot.due same), fun s has => same ▸ first s has⟩
  · refine ⟨le_of_lt first, fun s has => ?_⟩
    obtain rfl := Option.some.inj (same.symm.trans has)
    exact le_rfl

/-- A slot takes the place of one that has been put there before. -/
theorem put_put {slot' : Slot} (same : slot'.background = slot.background) :
    (slots.put slot).put slot' = slots.put slot' := by
  unfold put
  rw [same]
  split <;> rfl

theorem exists_pending_earliest (slots : Slots) (w : Workload σ) (r : ρ) :
    ∃ pending, (slots.plan w r).1.earliest.pending = some pending := by
  obtain ⟨b, there⟩ := (slots.plan w r).1.exists_side_earliest
  obtain ⟨s, r', -, same⟩ := exists_of_side_plan there
  rw [same]
  exact s.exists_pending_plan w r'

end Slots

end LoadGen
