import LoadGen.Proofs.LoopOutline

namespace LoadGen

open Program History

namespace CyclePolicy

/-- The states that a policy comes into: when it is created, when a simultaneous start has come, and
when an invocation has been classified, whatever is known of the start and of the invocation. -/
inductive Reachable (rampUp steadyState rampDown : Nat) (simultaneous : Bool) : CyclePolicy → Prop
  | fresh : Reachable rampUp steadyState rampDown simultaneous
      (ofLengths rampUp steadyState rampDown simultaneous)
  | started {q : CyclePolicy} (start : Stamp) :
      Reachable rampUp steadyState rampDown simultaneous q →
        Reachable rampUp steadyState rampDown simultaneous
          { q with start := some start, started := true }
  | classified {q : CyclePolicy} (start : Option Stamp) (r : Timing) :
      Reachable rampUp steadyState rampDown simultaneous q →
        Reachable rampUp steadyState rampDown simultaneous (q.classify start r).1

/-- The invocation begins at the start or later, as far as is known. -/
def InTime (start : Option Stamp) (r : Timing) : Prop :=
  ∃ s invoke, start = some s ∧ r.invoke = some invoke ∧ s ≤ invoke

variable {rampUp steadyState rampDown : Nat} {simultaneous : Bool} {q : CyclePolicy}

theorem classify_of_started (started : q.started = true) (start : Option Stamp) (r : Timing) :
    q.classify start r = q.count := by
  simp [classify, started]

/-- Before the start, only an invocation that is in time is counted, and it starts the count. -/
theorem classify_of_unstarted (unstarted : q.started = false) (start : Option Stamp)
    (r : Timing) :
    InTime start r ∧ q.classify start r = { q with started := true }.count ∨
      ¬ InTime start r ∧ q.classify start r = (q, .rampUp) := by
  unfold classify
  rw [unstarted]
  simp only [Bool.false_eq_true, ↓reduceIte]
  split
  next s invoke begun =>
    split
    next late => exact Or.inl ⟨⟨s, invoke, rfl, begun, late⟩, rfl⟩
    next early =>
      refine Or.inr ⟨?_, rfl⟩
      rintro ⟨s', invoke', known, begun', late⟩
      obtain rfl := Option.some.inj known
      obtain rfl := Option.some.inj (begun.symm.trans begun')
      exact early late
  next unknown =>
    refine Or.inr ⟨?_, rfl⟩
    rintro ⟨s, invoke, known, begun, -⟩
    exact unknown s invoke known begun

/-- The bounds are those of the lengths, and nothing is counted before the start. -/
structure Orderly (rampUp steadyState rampDown : Nat) (q : CyclePolicy) : Prop where
  bounds : q.bounds = .ofLengths rampUp steadyState rampDown
  uncounted : q.started = false → q.completed = 0

theorem Reachable.orderly (reachable : q.Reachable rampUp steadyState rampDown simultaneous) :
    q.Orderly rampUp steadyState rampDown := by
  induction reachable with
  | fresh => exact ⟨rfl, fun _ => rfl⟩
  | started start _ ih => exact ⟨ih.bounds, nofun⟩
  | @classified q start r _ ih =>
    cases started : q.started with
    | true =>
      rw [classify_of_started started]
      exact ⟨ih.bounds, fun unstarted => by simp [count, started] at unstarted⟩
    | false =>
      rcases classify_of_unstarted started start r with ⟨-, same⟩ | ⟨-, same⟩
      · rw [same]
        exact ⟨ih.bounds, nofun⟩
      · rw [same]
        exact ih

/-- A thread that passes its gate has room for another cycle in its count. -/
theorem Reachable.room_of_proceed
    (reachable : q.Reachable rampUp steadyState rampDown simultaneous)
    (proceeds : q.gate = .proceed) : q.completed < Word.greatest := by
  cases started : q.started with
  | false =>
    rw [reachable.orderly.uncounted started]
    decide
  | true =>
    have within : q.completed < q.bounds.endRampDown := by simpa [gate, started] using proceeds
    rw [reachable.orderly.bounds] at within
    exact Nat.lt_of_lt_of_le within (Nat.min_le_right _ _)

theorem phaseOf_first (rampUp steadyState rampDown : Nat) :
    (CycleBounds.ofLengths rampUp steadyState rampDown).phaseOf 1 = .steadyState ↔
      rampUp = 0 ∧ 0 < steadyState := by
  have word : 0 < Word.greatest := by decide
  unfold CycleBounds.phaseOf CycleBounds.ofLengths
  dsimp only
  split
  next up =>
    simp only [reduceCtorEq, false_iff]
    omega
  next =>
    split
    next => simp only [true_iff]; omega
    next => simp only [reduceCtorEq, false_iff]; omega

end CyclePolicy

open CyclePolicy in
/-- While there is room in the count, a handler is told that it is in the steady state if and only
if its invocation is then counted in it, but for one invocation: the first one that is counted, by
a thread that has not waited for the start, if there is no ramp-up before the steady state. -/
theorem steady_view_unless_first_counted {rampUp steadyState rampDown : Nat} {simultaneous : Bool}
    {q : CyclePolicy} (reachable : q.Reachable rampUp steadyState rampDown simultaneous)
    (room : q.completed < Word.greatest) (start : Option Stamp) {r : Timing} {invoke : Stamp}
    (begun : r.invoke = some invoke) :
    q.view.isSteady? r = some (decide ((q.classify start r).2 = .steadyState)) ↔
      ¬ (q.started = false ∧ (∃ s, start = some s ∧ s ≤ invoke) ∧
        rampUp = 0 ∧ 0 < steadyState) := by
  obtain ⟨bounds, uncounted⟩ := reachable.orderly
  have number : min (q.completed + 1) Word.greatest = q.completed + 1 := Nat.min_eq_left room
  have view : q.view.isSteady? r =
      some (q.started && decide (q.bounds.phaseOf (q.completed + 1) = .steadyState)) := by
    simp only [CyclePolicy.view, PhaseView.isSteady?, begun, number, Option.map_some]
  have inTime : InTime start r ↔ ∃ s, start = some s ∧ s ≤ invoke := by
    simp [InTime, begun]
  rw [view, ← inTime]
  cases started : q.started with
  | true =>
    have phase : (q.classify start r).2 = q.bounds.phaseOf (q.completed + 1) := by
      rw [classify_of_started started]
      rfl
    simp [phase]
  | false =>
    rcases classify_of_unstarted started start r with ⟨late, same⟩ | ⟨early, same⟩
    · have phase : (q.classify start r).2 = .steadyState ↔ rampUp = 0 ∧ 0 < steadyState := by
        rw [same, ← phaseOf_first rampUp steadyState rampDown, ← bounds]
        simp [count, uncounted started]
      simp [phase, late]
    · simp [same, early]

/-- The first counted invocation of a thread that has not waited for the start counts in the steady
state, and its handler is told otherwise. With a ramp-up before it, they agree. -/
theorem steady_view_unless_first_counted_at_start :
    let first : CyclePolicy := .ofLengths 0 2 0 false
    let second : CyclePolicy := .ofLengths 1 2 0 false
    let r := (Timing.intendedAt 100).withInvoke 100
    first.view.isSteady? r = some false ∧ (first.classify (some 100) r).2 = .steadyState ∧
      first.view.isSteady? r ≠
        some (decide ((first.classify (some 100) r).2 = .steadyState)) ∧
      second.view.isSteady? r =
        some (decide ((second.classify (some 100) r).2 = .steadyState)) := by
  intro first second r
  refine ⟨rfl, rfl, fun agree => ?_, ?_⟩
  · exact (steady_view_unless_first_counted .fresh (by decide) (some 100) rfl).mp agree
      ⟨rfl, ⟨100, rfl, by decide⟩, rfl, by decide⟩
  · refine (steady_view_unless_first_counted .fresh (by decide) (some 100) rfl).mpr ?_
    rintro ⟨-, -, short, -⟩
    cases short

section Runs

variable {σ : Type} {rampUp steadyState rampDown : Nat} {simultaneous : Bool}

/-- The policy counts cycles, and is in a state that it comes into. -/
def Policy.Counts (rampUp steadyState rampDown : Nat) (simultaneous : Bool) (policy : Policy) :
    Prop :=
  ∃ q, policy = .cycles q ∧ q.Reachable rampUp steadyState rampDown simultaneous

namespace Policy.Counts

variable {policy : Policy}

theorem noticing (counts : policy.Counts rampUp steadyState rampDown simultaneous)
    (start : Stamp) :
    (policy.noticing start).Counts rampUp steadyState rampDown simultaneous := by
  obtain ⟨q, rfl, reachable⟩ := counts
  exact ⟨q, rfl, reachable⟩

theorem classifies {r : Timing} {result : Policy × Phase}
    (counts : policy.Counts rampUp steadyState rampDown simultaneous)
    (classified : policy.Classifies r result) :
    result.1.Counts rampUp steadyState rampDown simultaneous := by
  obtain ⟨q, rfl, reachable⟩ := counts
  obtain ⟨start, rfl⟩ := classified
  exact ⟨_, rfl, reachable.classified start r⟩

end Policy.Counts

theorem RunControl.Prepares.counts {c : RunControl} {policy : Policy} {h : History}
    (prepares : c.Prepares policy h) (mode : c.mode = .cycles rampUp steadyState rampDown) :
    policy.Counts rampUp steadyState rampDown c.simultaneous := by
  unfold RunControl.Prepares RunControl.policy at prepares
  rw [mode] at prepares
  rcases prepares with ⟨-, rfl⟩ | ⟨-, start, -, rfl⟩
  · exact ⟨_, rfl, .fresh⟩
  · exact ⟨_, rfl, .started start .fresh⟩

/-- An outline in which the policy of the thread stays reachable. -/
def Outline.counting (rampUp steadyState rampDown : Nat) (simultaneous : Bool) : Outline where
  unbegun _ := True
  resting l _ := l.policy.Counts rampUp steadyState rampDown simultaneous
  opening l _ _ := l.policy.Counts rampUp steadyState rampDown simultaneous
  serving l _ _ := l.policy.Counts rampUp steadyState rampDown simultaneous
  cleared l _ _ := l.policy.Counts rampUp steadyState rampDown simultaneous
  closing l _ _ _ := l.policy.Counts rampUp steadyState rampDown simultaneous

theorem Outline.counting_sound {p : RunPlan σ}
    (mode : p.control.mode = .cycles rampUp steadyState rampDown) (id : Nat) :
    (counting rampUp steadyState rampDown p.control.simultaneous).Sound p id Punctual
      fun _ _ => True where
  punctual punctual := punctual
  mute _ := trivial
  ends _ := trivial
  unbegun_plain _ _ _ := trivial
  enters prepares _ _ := prepares.counts mode
  resting_plain _ _ counts := counts
  notices _ _ counts := counts.noticing _
  resumes _ _ _ counts := ⟨trivial, counts⟩
  plans _ counts :=
    ((VirtualUser.plan_only _ _ _).ensures (fun _ _ _ _ kept => ⟨trivial, kept⟩) counts).mono
      fun _ _ kept _ _ => kept.2
  stops _ _ := trivial
  opening_tracked := .of_idle fun _ _ counts => counts
  calls _ _ counts := ⟨trivial, counts⟩
  serving_tracked := .of_idle fun _ _ counts => counts
  clears _ _ counts := counts
  cleared_plain _ _ counts := counts
  succeeds counts _ classified _ := ⟨trivial, counts.classifies classified⟩
  skips failed _ _ _ := ⟨trivial, failed.cleared⟩
  fails _ failed _ _ classified _ := ⟨trivial, failed.cleared.classifies classified⟩
  delays counts _ _ _ := ⟨trivial, counts⟩
  closes counts := counts

/-- In a run, the policies of threads that count cycles are reachable ones, and there is room in the
count of a thread that passes its gate. -/
theorem reachable_of_run {p : RunPlan σ} {now : Stamp} {e : Ensemble (Stage σ)}
    {hs : Nat → History} (run : Ensemble.Run p.follow p.ensemble now e hs)
    (mode : p.control.mode = .cycles rampUp steadyState rampDown) {i : Nat}
    {m : Member (Stage σ)} {u : VirtualUser σ} {slots : Slots} (present : e.members[i]? = some m)
    (staged : m.stage? = some (.iterating u slots)) :
    ∃ q, u.policy = .cycles q ∧
      q.Reachable rampUp steadyState rampDown p.control.simultaneous ∧
      (q.gate = .proceed → q.completed < Word.greatest) := by
  have sound := Outline.counting_sound mode i
  have holds := (sound.of_run trivial run (run.punctual p.fresh i)).2 m _ present staged
  obtain ⟨q, policy, reachable⟩ := holds.stands.2
  exact ⟨q, policy, reachable, reachable.room_of_proceed⟩

end Runs

end LoadGen
