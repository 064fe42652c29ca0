import LoadGen.Proofs.Continuation
import LoadGen.Run

namespace LoadGen

namespace Course

variable {α : Type} {follow : α → Option (Program α)} {first p : Program α} {h : History}

/-- Goes on from a program for some steps under a clock that stands still, with given replies. -/
def play (follow : α → Option (Program α)) (reply : (r : Request) → r.Reply) :
    Nat → Program α → History → Program α × History
  | 0, p, h => (p, h)
  | n + 1, .done stage, h =>
    match follow stage with
    | some p => play follow reply n p h
    | none => (.done stage, h)
  | n + 1, .ask request next, h =>
    play follow reply n (next (reply request)) (⟨0, request, reply request⟩ :: h)

theorem of_play {reply : (r : Request) → r.Reply} {n : Nat} {rest : Program α} {later : History}
    (course : Course follow first p h) (played : play follow reply n p h = (rest, later)) :
    Course follow first rest later := by
  induction n generalizing p h with
  | zero =>
    obtain ⟨rfl, rfl⟩ := Prod.mk.inj played
    exact course
  | succ n ih =>
    cases p with
    | done stage =>
      cases next : follow stage with
      | none =>
        simp only [play, next, Prod.mk.injEq] at played
        obtain ⟨rfl, rfl⟩ := played
        exact course
      | some p =>
        simp only [play, next] at played
        exact ih (course.follow next) played
    | ask request next => exact ih (course.answer _ _) played

/-- Whether the thread has come to a stage that passes a check. -/
def reached (check : α → History → Bool) : Program α × History → Bool
  | (.done stage, h) => check stage h
  | _ => false

theorem exists_of_reached {reply : (r : Request) → r.Reply} {n : Nat}
    {check : α → History → Bool} (passed : reached check (play follow reply n first []) = true) :
    ∃ stage h, Course follow first (.done stage) h ∧ check stage h = true := by
  cases played : play follow reply n first [] with
  | mk rest h =>
    rw [played] at passed
    cases rest with
    | done stage => exact ⟨stage, h, of_play .start played, passed⟩
    | ask request next => cases passed

end Course

/-- The replies of surroundings in which the run starts at zero and is never aborted. -/
def undisturbed : (r : Request) → r.Reply
  | .emit _ => ()
  | .call .clock => (0 : Stamp)
  | .call .isAborted => false
  | .call .startTime | .call .awaitStart => some (0 : Stamp)
  | .call (.fixStart _) => false
  | .call (.abort _) => true
  | .call .abortCause => none
  | .call .abortTime => none
  | .call (.sleepUntil _) => Wait.reached
  | .call .enrol | .call (.pass _) | .call .arrive | .call .awaitAll => ()

namespace Ensemble.Run

variable {α : Type} {follow : α → Option (Program α)} {first e : Ensemble α} {now : Stamp}
  {hs : Nat → History}

/-- Lets the members step in a given order, each at a given clock reading. -/
def play (follow : α → Option (Program α)) : List (Stamp × Nat) → Stamp → Ensemble α →
    (Nat → History) → Option (Ensemble α × (Nat → History))
  | [], _, e, hs => some (e, hs)
  | (t, i) :: rest, now, e, hs =>
    match e.step follow i t with
    | some e' => if now ≤ t then play follow rest t e' (e.record hs i t) else none
    | none => none

theorem continues_of_play {order : List (Stamp × Nat)} {e' : Ensemble α} {hs' : Nat → History}
    (played : play follow order now e hs = some (e', hs')) :
    ∃ later, Continues follow now e hs later e' hs' := by
  have goesOn : ∀ {t₀ e₀ hs₀}, Continues follow t₀ e₀ hs₀ now e hs →
      ∃ later, Continues follow t₀ e₀ hs₀ later e' hs' := by
    induction order generalizing now e hs with
    | nil =>
      obtain ⟨rfl, rfl⟩ := Prod.mk.inj (Option.some.inj played)
      exact fun goes => ⟨now, goes⟩
    | cons move rest ih =>
      obtain ⟨t, i⟩ := move
      unfold play at played
      split at played
      next stepped =>
        split at played
        next later => exact fun goes => ih played ((goes.wait later).step i stepped)
        next => cases played
      next => cases played
  exact goesOn .refl

theorem of_play {order : List (Stamp × Nat)} {e' : Ensemble α} {hs' : Nat → History}
    (run : Run follow first now e hs) (played : play follow order now e hs = some (e', hs')) :
    ∃ now', Run follow first now' e' hs' := by
  obtain ⟨later, goes⟩ := continues_of_play played
  exact ⟨later, run.continued goes⟩

/-- An order can be interrupted. -/
theorem exists_of_play_append {order more : List (Stamp × Nat)}
    {last : Ensemble α × (Nat → History)}
    (played : play follow (order ++ more) now e hs = some last) :
    ∃ later e' hs', play follow order now e hs = some (e', hs') ∧
      Continues follow now e hs later e' hs' ∧ play follow more later e' hs' = some last := by
  have goesOn : ∀ {t₀ e₀ hs₀}, Continues follow t₀ e₀ hs₀ now e hs → ∃ later e' hs',
      play follow order now e hs = some (e', hs') ∧
        Continues follow t₀ e₀ hs₀ later e' hs' ∧ play follow more later e' hs' = some last := by
    induction order generalizing now e hs with
    | nil => exact fun goes => ⟨now, e, hs, rfl, goes, played⟩
    | cons move rest ih =>
      obtain ⟨t, i⟩ := move
      simp only [List.cons_append, play] at played ⊢
      split at played
      next stepped =>
        split at played
        next later =>
          intro t₀ e₀ hs₀ goes
          simpa [later] using ih played ((goes.wait later).step i stepped)
        next => cases played
      next => cases played
  exact goesOn .refl

/-- Whether the order is possible and leads to what passes a check. -/
def reached (check : Ensemble α → (Nat → History) → Bool) :
    Option (Ensemble α × (Nat → History)) → Bool
  | some (e, hs) => check e hs
  | none => false

theorem exists_of_reached {order : List (Stamp × Nat)} {check : Ensemble α → (Nat → History) → Bool}
    (passed : reached check (play follow order 0 first fun _ => []) = true) :
    ∃ now e hs, Run follow first now e hs ∧ check e hs = true := by
  cases played : play follow order 0 first fun _ => [] with
  | none => simp [played, reached] at passed
  | some last =>
    obtain ⟨now, run⟩ := of_play (.start 0) played
    rw [played] at passed
    exact ⟨now, last.1, last.2, run, passed⟩

/-- An order that is interrupted passes one check there and another one at its end. -/
theorem exists_of_reached_append {order more : List (Stamp × Nat)}
    {check check' : Ensemble α → (Nat → History) → Bool}
    (passed : reached check (play follow order 0 first fun _ => []) = true)
    (passed' : reached check' (play follow (order ++ more) 0 first fun _ => []) = true) :
    ∃ now e hs later e' hs', Run follow first now e hs ∧ Continues follow now e hs later e' hs' ∧
      check e hs = true ∧ check' e' hs' = true := by
  cases played : play follow (order ++ more) 0 first fun _ => [] with
  | none => simp [played, reached] at passed'
  | some last =>
    obtain ⟨now, e, hs, begun, goes, rest⟩ := exists_of_play_append played
    obtain ⟨later, goes'⟩ := continues_of_play rest
    rw [begun] at passed
    rw [played] at passed'
    exact ⟨now, e, hs, later, last.1, last.2, (Run.start 0).continued goes, goes', passed, passed'⟩

end Ensemble.Run

/-- Whether a thread is between two iterations. -/
def Stage.isIterating {σ : Type} : Stage σ → Bool
  | .iterating .. => true
  | _ => false

theorem Stage.exists_of_isIterating {σ : Type} {e : Ensemble (Stage σ)} {i : Nat}
    (iterating : (e.members[i]?.bind Member.stage?).any isIterating) :
    ∃ m u slots, e.members[i]? = some m ∧ m.stage? = some (.iterating u slots) := by
  obtain ⟨stage, staged, iterating⟩ := (Option.any_eq_true _ _).mp iterating
  obtain ⟨m, present, staged⟩ := Option.bind_eq_some_iff.mp staged
  cases stage with
  | iterating u slots => exact ⟨m, u, slots, present, staged⟩
  | _ => cases iterating

/-- A workload of one operation without delays. -/
def Workload.single {σ : Type} (create : Nat → Creation σ) (operation : Operation)
    (handler : Handler σ) : Workload σ :=
  { name := "", create := create, percentiles := [], responseTimeUnit := .seconds,
    histogramUnit := .milliseconds, threadPerScale := 1, operations := [operation],
    handlers := [handler], foregroundCount := 1,
    mix := ⟨[0], .sequence, Mix.defaultDeviation⟩, backgroundMix := none,
    initialDelay := .fixed Span.zero, backgroundInitialDelay := .fixed Span.zero,
    largestLimit := 0, beforeRun := none, afterRun := none }

/-- A workload of one operation every 80 nanoseconds, with two in turn every 100 nanoseconds in the
background. -/
def Workload.beside : Workload Unit :=
  let every (nanos : Nat) : Operation :=
    ⟨"", [], 0, .automatic, true, ⟨.fixed ⟨nanos⟩, .cycleTime, Pacing.defaultDeviation⟩⟩
  { Workload.single (fun _ => .created ()) (every 80) fun _ => .succeeds () with
    operations := [every 80, every 100, every 100]
    handlers := List.replicate 3 fun _ => .succeeds ()
    backgroundMix := some ⟨[1, 2], .sequence, Mix.defaultDeviation⟩ }

/-- A plan with a background, under a schedule that has its thread pause from 60 to 120 nanoseconds
after the start. -/
def RunPlan.besidePausing : RunPlan Unit :=
  { workload := .beside
    control := { RunControl.ofMode (.time ⟨0⟩ ⟨1000⟩ ⟨0⟩) with
      load := some ⟨[⟨⟨60⟩, 1⟩, ⟨⟨60⟩, 0⟩, ⟨⟨1000⟩, 1⟩]⟩ }
    seed := 0 }

end LoadGen
