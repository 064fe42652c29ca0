import LoadGen.Proofs.HandlerRecords
import LoadGen.Proofs.Stamps
import LoadGen.Proofs.StartKnowledge

namespace LoadGen

open Program History

/-- The start time as the thread has last been told it. -/
def History.told (h : History) : Option Stamp := h.findSome? Exchange.start?

theorem told_cons_of_none {x : Exchange} {h : History} (untold : x.start? = none) :
    told (x :: h) = told h := by
  simp [told, untold]

theorem told_cons_of_some {x : Exchange} {h : History} {start : Stamp}
    (new : x.start? = some start) : told (x :: h) = some start := by
  simp [told, new]

/-- The first reading of the clock since the thread has last looked at the flag: before a call, the
one at the gate of the iteration. -/
def History.gateReading : History → Option Stamp
  | [] => none
  | ⟨_, .call .isAborted, _⟩ :: _ => none
  | x :: h => (gateReading h).or x.reading?

/-- When its gate read the clock, the thread was active by the schedule. -/
def History.Active (schedule : LoadSchedule) (thread : Nat) (h : History) : Prop :=
  ∃ start now, told h = some start ∧ gateReading h = some now ∧
    thread < (schedule.levelAt (max (Stamp.minus now start) 0)).1

/-- What a gate has found that lets the thread pass. -/
def Policy.Passes (load : Option LoadSchedule) (thread : Nat) (h : History) : Policy → Prop
  | cycles q => q.gate = .proceed
  | time _ => ∀ schedule, load = some schedule → h.Active schedule thread

/-- When its gate read the clock, the thread was inactive by the schedule until another level. -/
structure History.Parked (schedule : LoadSchedule) (thread : Nat) (start now offset : Stamp)
    (h : History) : Prop where
  told : told h = some start
  read : gateReading h = some now
  inactive : (schedule.levelAt (max (Stamp.minus now start) 0)).1 ≤ thread
  next : (schedule.levelAt (max (Stamp.minus now start) 0)).2 = some offset

/-- The thread has slept until a time after the start. -/
def History.Woken (h : History) : Prop :=
  ∃ start offset, told h = some start ∧ 0 ≤ offset ∧ Reached h (Stamp.plus start offset)

/-- What a gate has found that has had the thread sleep: another level, which begins before the end
of the run. The thread has slept until then. -/
def Policy.Wakes (load : Option LoadSchedule) (thread : Nat) (policy : Policy) (h : History) :
    Prop :=
  ∃ schedule start now offset q bounds, load = some schedule ∧
    h.Parked schedule thread start now offset ∧ policy = .time q ∧ q.bounds = some bounds ∧
    Stamp.plus start offset < bounds.endRampDown ∧ Reached h (Stamp.plus start offset)

/-- An idle exchange is not the first one of an iteration. -/
theorem gateReading_cons_of_idle {x : Exchange} {h : History} {now : Stamp}
    (idle : x.request.Idle) (read : gateReading h = some now) :
    gateReading (x :: h) = some now := by
  obtain ⟨t, request, reply⟩ := x
  cases request with
  | call c =>
    have unpolled : gateReading (⟨t, .call c, reply⟩ :: h) =
        (gateReading h).or (Exchange.reading? ⟨t, .call c, reply⟩) := by
      cases c <;> first | rfl | cases idle
    rw [unpolled, read]
    rfl
  | emit e =>
    change (gateReading h).or none = some now
    rw [read]
    rfl

theorem History.Active.idle {schedule : LoadSchedule} {thread : Nat} {x : Exchange} {h : History}
    (active : h.Active schedule thread) (idle : x.request.Idle) :
    Active schedule thread (x :: h) := by
  obtain ⟨start, now, known, read, within⟩ := active
  exact ⟨start, now, (told_cons_of_none (start?_of_settled idle.settled)).trans known,
    gateReading_cons_of_idle idle read, within⟩

theorem History.Parked.idle {schedule : LoadSchedule} {thread : Nat} {start now offset : Stamp}
    {x : Exchange} {h : History} (parked : h.Parked schedule thread start now offset)
    (idle : x.request.Idle) : Parked schedule thread start now offset (x :: h) where
  told := (told_cons_of_none (start?_of_settled idle.settled)).trans parked.told
  read := gateReading_cons_of_idle idle parked.read
  inactive := parked.inactive
  next := parked.next

namespace Policy.Wakes

variable {load : Option LoadSchedule} {thread : Nat} {policy : Policy} {h : History}

theorem isSome (wakes : policy.Wakes load thread h) : load.isSome := by
  obtain ⟨schedule, _, _, _, _, _, rfl, -⟩ := wakes
  rfl

theorem woken (wakes : policy.Wakes load thread h) : h.Woken := by
  obtain ⟨schedule, start, now, offset, q, bounds, -, parked, -, -, -, reached⟩ := wakes
  exact ⟨start, offset, parked.told, LoadSchedule.levelFrom_nonneg le_rfl parked.next, reached⟩

end Policy.Wakes

theorem TimePolicy.requireStart_only :
    requireStart.Only (fun request => request = .call .startTime ∨ request = .call .awaitStart)
      fun _ => True := by
  simp only [requireStart, only_bind, only_startTime]
  refine ⟨Or.inl trivial, fun start => ?_⟩
  cases start <;> simp

theorem TimePolicy.noticeStart_only (q : TimePolicy) :
    q.noticeStart.Only Request.Plain fun _ => True := by
  unfold noticeStart
  cases q.bounds with
  | some bounds => trivial
  | none =>
    simp only [only_bind, only_startTime]
    refine ⟨trivial, fun start => ?_⟩
    cases start <;> trivial

/-- A gate neither plans nor reports anything. -/
theorem Policy.gate_only (policy : Policy) (load : Option LoadSchedule) (thread : Nat) :
    (policy.gate load thread).Only Request.Plain fun _ => True := by
  cases policy with
  | cycles q => trivial
  | time q =>
    simp only [gate, only_bind]
    unfold TimePolicy.gate
    cases load with
    | none =>
      simp only [only_bind]
      exact q.noticeStart_only.mono fun _ _ => trivial
    | some schedule =>
      have asks : TimePolicy.requireStart.Only Request.Plain fun _ => True :=
        TimePolicy.requireStart_only.weaken fun request asks => by
          rcases asks with rfl | rfl <;> trivial
      simp only [only_bind]
      refine asks.mono fun start _ => ?_
      cases start with
      | none => trivial
      | some start =>
        simp only [only_bind, only_clock]
        refine ⟨trivial, fun now => ?_⟩
        split
        next => trivial
        next => trivial
        next =>
          simp only [only_bind, only_emit, only_sleepUntil]
          refine ⟨rfl, trivial, fun wait => ?_⟩
          cases wait <;> trivial

theorem TimePolicy.lt_of_active {q : TimePolicy} {schedule : LoadSchedule} {thread : Nat}
    {start now : Stamp} (active : q.duty schedule thread start now = .active) :
    thread < (schedule.levelAt (max (Stamp.minus now start) 0)).1 := by
  unfold duty at active
  split at active
  next levels =>
    split at active
    next within => rwa [levels]
    next =>
      split at active
      next => cases active
      next =>
        dsimp only at active
        split at active <;> cases active

end LoadGen
