import LoadGen.Proofs.LoopOutline
import LoadGen.Proofs.SampleCounts

namespace LoadGen

open Program History

/-- Whether it was a background slot, if a handler has just been called for one. -/
def Exchange.caller? (x : Exchange) : Option Bool :=
  match x.event? with
  | some (.called background ..) => some background
  | _ => none

namespace History

/-- Whether it is a background slot for which a handler was called last. -/
def caller (h : History) : Option Bool := h.findSome? Exchange.caller?

/-- The start and the end of the previous invocation of a slot: those of the latest sample of the
slot, or else the time from which its first delay is counted, since the thread has come into its
loop or has been resumed. -/
def previous (simultaneous background : Bool) : History → Option (Stamp × Stamp)
  | [] => none
  | x :: h =>
    match x.event? with
    | some .runStarted => (if simultaneous then told h else reading h).map fun t => (t, t)
    | some .resumed => (reading h).map fun t => (t, t)
    | some (.transaction s) | some (.error s) =>
      if caller h = some background then some (s.invoke, s.respond)
      else previous simultaneous background h
    | _ => previous simultaneous background h

variable {simultaneous b : Bool} {x : Exchange} {h : History} {s : Sample}

theorem previous_cons_of_sample (reported : x.sample? = some s) :
    previous simultaneous b (x :: h) =
      if caller h = some b then some (s.invoke, s.respond) else previous simultaneous b h := by
  obtain ⟨e, emitted, same⟩ := Option.bind_eq_some_iff.mp reported
  cases e <;> cases same <;> simp [previous, emitted]

theorem previous_cons_of_plain (plain : x.request.Plain) :
    previous simultaneous b (x :: h) = previous simultaneous b h := by
  obtain ⟨t, request, reply⟩ := x
  cases request with
  | call c => rfl
  | emit e => cases e <;> first | rfl | cases plain

theorem caller_cons_of_plain (plain : x.request.Plain) : caller (x :: h) = caller h := by
  obtain ⟨t, request, reply⟩ := x
  cases request with
  | call c => rfl
  | emit e => cases e <;> first | rfl | cases plain

end History

/-- The slot belongs to a side and remembers the times that the history tells of it. -/
structure Slot.Remembers (simultaneous b : Bool) (s : Slot) (h : History) : Prop where
  side : s.background = b
  times : previous simultaneous b h = some (s.previousStart, s.previousEnd)
  ordered : s.previousStart ≤ s.previousEnd

namespace Slot.Remembers

variable {σ : Type} {simultaneous b : Bool} {s : Slot} {h h' : History}

theorem of_previous (remembers : s.Remembers simultaneous b h)
    (same : previous simultaneous b h' = previous simultaneous b h) :
    s.Remembers simultaneous b h' :=
  ⟨remembers.side, same.trans remembers.times, remembers.ordered⟩

theorem of_times {s' : Slot} (remembers : s.Remembers simultaneous b h)
    (side : s'.background = s.background) (first : s'.previousStart = s.previousStart)
    (last : s'.previousEnd = s.previousEnd) : s'.Remembers simultaneous b h := by
  refine ⟨side.trans remembers.side, ?_, ?_⟩
  · rw [first, last]
    exact remembers.times
  · rw [first, last]
    exact remembers.ordered

theorem plan (remembers : s.Remembers simultaneous b h) (w : Workload σ) (r : ChaCha) :
    (s.plan w r).1.Remembers simultaneous b h := by
  obtain ⟨side, first, last⟩ := Slot.plan_times (s := s) (w := w) (r := r)
  exact remembers.of_times side first last

end Slot.Remembers

/-- Every slot remembers its times. -/
def Slots.Remember (simultaneous : Bool) (slots : Slots) (h : History) : Prop :=
  ∀ b s, slots.side b = some s → s.Remembers simultaneous b h

namespace Slots.Remember

variable {σ : Type} {simultaneous : Bool} {slots : Slots} {slot : Slot} {h h' : History}

theorem of_previous (remember : slots.Remember simultaneous h)
    (same : ∀ b, previous simultaneous b h' = previous simultaneous b h) :
    slots.Remember simultaneous h' :=
  fun b s has => (remember b s has).of_previous (same b)

theorem plain {x : Exchange} (remember : slots.Remember simultaneous h)
    (plain : x.request.Plain) : slots.Remember simultaneous (x :: h) :=
  remember.of_previous fun _ => previous_cons_of_plain plain

theorem put (remember : slots.Remember simultaneous h)
    (new : slot.Remembers simultaneous slot.background h) :
    (slots.put slot).Remember simultaneous h := by
  intro b s has
  rw [Slots.side_put] at has
  split at has
  next same =>
    obtain rfl := Option.some.inj has
    exact same ▸ new
  next => exact remember b s has

theorem plan (remember : slots.Remember simultaneous h) (w : Workload σ) (r : ChaCha) :
    (slots.plan w r).1.Remember simultaneous h := by
  intro b s has
  obtain ⟨s', r', there, rfl⟩ := Slots.exists_of_side_plan has
  exact (remember b s' there).plan w r'

theorem earliest (remember : slots.Remember simultaneous h) :
    slots.earliest.Remembers simultaneous slots.earliest.background h := by
  obtain ⟨b, there⟩ := slots.exists_side_earliest
  have remembers := remember b _ there
  rwa [remembers.side]

/-- The slots of a thread that has just come into its loop. -/
theorem fresh {c : RunControl} {policy : Policy} (prepares : c.Prepares policy h) (w : Workload σ)
    (r : ChaCha) (t now t' : Stamp) :
    (Slots.fresh w r (policy.initialReference now)).1.Remember c.simultaneous
      (⟨t', .emit .runStarted, ()⟩ :: ⟨t, .call .clock, now⟩ :: h) := by
  intro b s has
  obtain ⟨m, r', -, rfl⟩ := Slots.exists_of_side_fresh has
  refine ⟨rfl, ?_, le_rfl⟩
  have reference := prepares.reference now
  simp only [previous]
  exact congrArg (Option.map fun t => (t, t)) reference

theorem reset (remember : slots.Remember simultaneous h) (t now t' : Stamp) :
    (slots.reset now).Remember simultaneous
      (⟨t', .emit .resumed, ()⟩ :: ⟨t, .call .clock, now⟩ :: h) := by
  intro b s has
  rw [Slots.side_reset] at has
  obtain ⟨s', there, rfl⟩ := Option.map_eq_some_iff.mp has
  exact ⟨(remember b s' there).side, rfl, le_rfl⟩

/-- A slot takes over the times of the sample that is reported for it; the other one does not. -/
theorem follow {x : Exchange} {s : Sample} {record : Timing}
    (remember : slots.Remember simultaneous h) (called : caller h = some slot.background)
    (reported : x.sample? = some s) (begun : record.invoke = some s.invoke)
    (ended : record.respond = some s.respond) (ordered : s.invoke ≤ s.respond) :
    (slots.put (slot.follow record)).Remember simultaneous (x :: h) := by
  have followed : slot.follow record =
      { slot with previousStart := s.invoke, previousEnd := s.respond } :=
    Slot.follow_of_both begun ended
  intro b other has
  rw [Slots.side_put] at has
  split at has
  next same =>
    obtain rfl := Option.some.inj has
    refine ⟨same, ?_, ?_⟩
    · have mine : caller h = some b := by rw [called, ← same, followed]
      rw [previous_cons_of_sample reported, if_pos mine, followed]
    · rw [followed]
      exact ordered
  next different =>
    refine (remember b other has).of_previous ?_
    have others : caller h ≠ some b := by
      rw [called, ne_eq, Option.some.injEq]
      rwa [followed] at different
    rw [previous_cons_of_sample reported, if_neg others]

end Slots.Remember

end LoadGen
