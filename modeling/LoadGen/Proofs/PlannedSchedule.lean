import LoadGen.Proofs.LoopOutline
import LoadGen.Proofs.Playback
import Mathlib.Data.Nat.Init

namespace LoadGen

open Program History

/-- What the schedule of a workload without background operations is drawn by. -/
structure DrawingRule where
  mix : Mix
  initialDelay : Pacing
  /-- The pacings after the operations by their place in the workload. -/
  pacings : List Pacing
  deriving DecidableEq

def Workload.drawingRule {σ : Type} (w : Workload σ) : DrawingRule :=
  ⟨w.mix, w.initialDelay, w.operations.map (·.pacing)⟩

/-- The pacing of the first delay, or of the one after an operation. -/
def DrawingRule.pacingAfter (c : DrawingRule) : Option Nat → Pacing
  | none => c.initialDelay
  | some previous => c.pacings[previous]?.getD c.initialDelay

/-- What has been drawn decides what comes next. -/
structure Draws where
  selector : Selector
  current : Option Nat
  random : ChaCha

namespace Draws

/-- The draws of a thread before its first one. -/
def first (c : DrawingRule) (seed : Nat) : Draws :=
  let (selector, random) := c.mix.selector (ChaCha.ofSeed (UInt64.ofNat seed))
  ⟨selector, none, random⟩

/-- The next operation with the delay before it. -/
def next (c : DrawingRule) (d : Draws) : (Nat × Stamp) × Draws :=
  let (operation, selector) := d.selector.select
  let (delay, random) := (c.pacingAfter d.current).delayStamp d.random
  ((operation, delay), ⟨selector, some operation, random⟩)

def draw (c : DrawingRule) (d : Draws) : Nat → List (Nat × Stamp) × Draws
  | 0 => ([], d)
  | n + 1 =>
    let before := draw c d n
    (before.1 ++ [(before.2.next c).1], (before.2.next c).2)

variable {c : DrawingRule} {d : Draws} {n m : Nat}

/-- Drawing more only adds to what has been drawn. -/
theorem draw_prefix (le : n ≤ m) : (d.draw c n).1 <+: (d.draw c m).1 := by
  induction m, le using Nat.le_induction with
  | base => exact List.prefix_rfl
  | succ m _ ih => exact ih.trans (List.prefix_append _ _)

end Draws

/-- The operation and the delay before it, if an invocation has just been planned. -/
def Exchange.plan? (x : Exchange) : Option (Nat × Stamp) :=
  match x.event? with
  | some (.planned _ operation _ delay) => some (operation, delay)
  | _ => none

/-- What a thread has planned, in order. -/
def History.plans : History → List (Nat × Stamp)
  | [] => []
  | x :: h => plans h ++ x.plan?.toList

theorem plan?_of_silent {x : Exchange} (silent : x.request.Silent) : x.plan? = none := by
  obtain ⟨t, request, reply⟩ := x
  cases request with
  | call c => rfl
  | emit e => cases e <;> first | rfl | cases silent

theorem plans_cons_of_none {x : Exchange} {h : History} (unplanned : x.plan? = none) :
    plans (x :: h) = plans h := by
  simp [plans, unplanned]

/-- The thread has drawn what it has planned. -/
def Drawn (c : DrawingRule) (seed : Nat) (h : History) (d : Draws) : Prop :=
  (plans h, d) = (Draws.first c seed).draw c (plans h).length

/-- Whatever is planned has been drawn. -/
def PlansDrawn (c : DrawingRule) (seed : Nat) (x : Exchange) (older : History) : Prop :=
  x.plan?.isSome → ∃ d, Drawn c seed (x :: older) d

namespace Drawn

variable {c : DrawingRule} {seed : Nat} {x : Exchange} {h : History} {d : Draws}

theorem cons (drawn : Drawn c seed h d) (unplanned : x.plan? = none) : Drawn c seed (x :: h) d := by
  rwa [Drawn, plans_cons_of_none unplanned]

theorem next (drawn : Drawn c seed h d) (planned : x.plan? = some (d.next c).1) :
    Drawn c seed (x :: h) (d.next c).2 := by
  have grown : plans (x :: h) = plans h ++ [(d.next c).1] := by simp [plans, planned]
  have one_more : (plans (x :: h)).length = (plans h).length + 1 := by simp [grown]
  rw [Drawn, one_more, Draws.draw, ← show (plans h, d) = _ from drawn, grown]

/-- What has been planned in a history is the beginning of the schedule. -/
theorem plans_of_each (each : h.Each (PlansDrawn c seed)) :
    plans h = ((Draws.first c seed).draw c (plans h).length).1 := by
  induction h with
  | nil => rfl
  | cons x h ih =>
    cases planned : x.plan? with
    | none =>
      rw [plans_cons_of_none planned]
      exact ih each.2
    | some plan =>
      obtain ⟨d, drawn⟩ := each.1 (by simp [planned])
      exact congrArg Prod.fst drawn

end Drawn

theorem Workload.pacingAfter_drawingRule {σ : Type} (w : Workload σ) (previous : Nat) :
    w.drawingRule.pacingAfter (some previous) =
      (w.operations[previous]?.map (fun operation => operation.pacing)).getD w.initialDelay := by
  simp [DrawingRule.pacingAfter, drawingRule]

namespace Slot

variable {σ : Type} {s : Slot}

/-- The delay before an invocation of the foreground is drawn by the rule. -/
theorem nextPending_drawn (foreground : s.background = false) (w : Workload σ) (operation : Nat)
    (r : ChaCha) : (s.nextPending w operation s.current r).2 =
      (w.drawingRule.pacingAfter s.current).delayStamp r := by
  cases s.current with
  | none => simp only [nextPending, initialDelay, foreground, DrawingRule.pacingAfter,
      Workload.drawingRule, Bool.false_eq_true, ↓reduceIte]
  | some previous => rw [w.pacingAfter_drawingRule]; rfl

/-- A foreground slot without a pending invocation plans what is drawn next. -/
theorem exists_of_plan (idle : s.pending = none) (foreground : s.background = false)
    (w : Workload σ) (r : ChaCha) :
    let drawn := (Draws.mk s.selector s.current r).next w.drawingRule
    ∃ s' r' intended,
      s.plan w r = (s', r', [.planned false drawn.1.1 intended drawn.1.2]) ∧
        s'.background = false ∧ ⟨s'.selector, s'.current, r'⟩ = drawn.2 := by
  intro drawn
  have delay := nextPending_drawn foreground w s.selector.select.1 r
  refine ⟨(s.plan w r).1, (s.plan w r).2.1,
    (s.nextPending w s.selector.select.1 s.current r).1.intended, ?_, ?_, ?_⟩
  · simp only [plan, idle, foreground, drawn, Draws.next, ← delay]
  · simp only [plan, idle, foreground]
  · simp only [plan, idle, drawn, Draws.next, ← delay]

end Slot

/-- What decides the next draw of the loop's foreground. -/
def LoopState.draws (l : LoopState) : Draws :=
  ⟨l.slots.foreground.selector, l.slots.foreground.current, l.random⟩

/-- The loop has one slot, with nothing pending, and has drawn what the thread has planned. -/
structure LoopState.Keeps (c : DrawingRule) (seed : Nat) (l : LoopState) (h : History) : Prop where
  single : l.slots.background = none
  foreground : l.slots.foreground.background = false
  idle : l.slots.foreground.pending = none
  drawn : Drawn c seed h l.draws

namespace LoopState.Keeps

variable {c : DrawingRule} {seed : Nat} {l : LoopState} {i : Invocation} {x : Exchange}
  {h : History}

theorem cons (keeps : l.Keeps c seed h) (unplanned : x.plan? = none) : l.Keeps c seed (x :: h) :=
  ⟨keeps.single, keeps.foreground, keeps.idle, keeps.drawn.cons unplanned⟩

theorem withPolicy (keeps : l.Keeps c seed h) (policy : Policy) :
    (l.withPolicy policy).Keeps c seed h :=
  ⟨keeps.single, keeps.foreground, keeps.idle, keeps.drawn⟩

/-- The times of an invocation play no part in what comes next. -/
theorem follow (keeps : (l.put i.slot).Keeps c seed h) : (l.follow i).Keeps c seed h := by
  obtain ⟨first, last, followed⟩ := i.slot.exists_of_follow i.record
  obtain ⟨single, foreground, idle, drawn⟩ := keeps
  unfold LoopState.follow
  rw [followed]
  cases side : i.slot.background with
  | true => simp [put, Slots.put, side] at single
  | false =>
    simp only [put, Slots.put, side, Bool.false_eq_true, ↓reduceIte] at single idle drawn ⊢
    exact ⟨single, rfl, idle, drawn⟩

end LoopState.Keeps

/-- An outline in which the loop has drawn what the thread has planned. -/
def Outline.planning (c : DrawingRule) (seed : Nat) : Outline where
  unbegun h := plans h = []
  resting l h := l.Keeps c seed h
  opening l i h := (l.put i.slot).Keeps c seed h
  serving l i h := (l.put i.slot).Keeps c seed h
  cleared l i h := (l.put i.slot).Keeps c seed h
  closing l i _ h := (l.follow i).Keeps c seed h

namespace Outline

variable {σ : Type} {p : RunPlan σ} {seed id : Nat} {l : LoopState} {h : History}

theorem plansDrawn_of_none {c : DrawingRule} {x : Exchange} (unplanned : x.plan? = none) :
    PlansDrawn c seed x h := by
  intro planned
  rw [unplanned] at planned
  cases planned

theorem planning_enters (single : p.workload.backgroundMix = none) (policy : Policy)
    (now : Stamp) (unplanned : plans h = []) :
    (p.loop id policy now).Keeps p.workload.drawingRule (p.seed + id) h := by
  unfold RunPlan.loop Slots.fresh
  simp only [single]
  refine ⟨rfl, rfl, rfl, ?_⟩
  rw [Drawn, unplanned]
  rfl

theorem planning_plans {env : Exchange → History → Prop}
    (keeps : l.Keeps p.workload.drawingRule seed h) :
    (VirtualUser.emitAll (l.slots.plan p.workload l.random).2.2).Ensures env
      (PlansDrawn p.workload.drawingRule seed) (fun _ h =>
        let l := l.plan p.workload
        let s := l.slots.earliest
        ∀ pending, s.pending = some pending →
          (planning p.workload.drawingRule seed).opening (l.put { s with pending := none })
            (.ofSlot s pending) h) h := by
  obtain ⟨s', r', intended, plans, side, drawn⟩ :=
    Slot.exists_of_plan keeps.idle keeps.foreground p.workload l.random
  let plan := (l.draws.next p.workload.drawingRule).1
  have planned : l.slots.plan p.workload l.random =
      (⟨s', none⟩, r', [.planned false plan.1 intended plan.2]) := by
    simp only [Slots.plan, keeps.single, plans]
    rfl
  unfold LoopState.plan
  rw [planned]
  simp only [VirtualUser.emitAll, ensures_bind, ensures_emit, ensures_pure]
  intro t _
  have grown := keeps.drawn.next (x := ⟨t, .emit (.planned false plan.1 intended plan.2), ()⟩) rfl
  refine ⟨fun _ => ⟨_, grown⟩, fun pending _ => ?_⟩
  simp only [planning, Slots.earliest, Invocation.ofSlot, LoopState.put, Slots.put, side,
    Bool.false_eq_true, ↓reduceIte]
  refine ⟨rfl, rfl, rfl, ?_⟩
  rw [← show _ = (l.draws.next p.workload.drawingRule).2 from drawn] at grown
  exact grown

theorem planning_sound (p : RunPlan σ) (id : Nat) (single : p.workload.backgroundMix = none)
    (constant : p.control.load = none) :
    (planning p.workload.drawingRule (p.seed + id)).Sound p id Punctual
      (PlansDrawn p.workload.drawingRule (p.seed + id)) where
  punctual punctual := punctual
  mute mute := plansDrawn_of_none (plan?_of_silent mute.silent)
  ends _ := plansDrawn_of_none rfl
  unbegun_plain plain _ unbegun :=
    (plans_cons_of_none (plan?_of_silent plain.silent)).trans unbegun
  enters _ _ unbegun := ((planning_enters single _ _ unbegun).cons rfl).cons rfl
  resting_plain plain _ keeps := keeps.cons (plan?_of_silent plain.silent)
  notices _ told keeps :=
    (keeps.withPolicy _).cons (plan?_of_silent (plain_of_told told).silent)
  resumes _ slept := by simpa [constant] using slept.wakes.isSome
  plans _ keeps := planning_plans keeps
  stops _ _ := plansDrawn_of_none rfl
  opening_tracked := by
    intro l i
    exact (Timing.Tracked.of_idle fun idle _ keeps =>
      keeps.cons (plan?_of_silent idle.plain.silent) :
        Timing.Tracked Punctual fun _ h => (l.put i.slot).Keeps _ _ h)
  calls _ _ keeps := ⟨plansDrawn_of_none rfl, keeps.cons rfl⟩
  serving_tracked := by
    intro l i
    exact (Timing.Tracked.of_idle fun idle _ keeps =>
      keeps.cons (plan?_of_silent idle.plain.silent) :
        Timing.Tracked Punctual fun _ h => (l.put i.slot).Keeps _ _ h)
  clears _ clear keeps := keeps.cons (plan?_of_silent (plain_of_clear clear).silent)
  cleared_plain plain _ keeps := keeps.cons (plan?_of_silent plain.silent)
  succeeds := by
    intro l i record result t h keeps _ _ i' x _
    refine ⟨plansDrawn_of_none rfl, ?_⟩
    exact ((keeps.withPolicy result.1).follow (i := i')).cons rfl
  skips := by
    intro l i now t cause h failed _ _ x _
    exact ⟨plansDrawn_of_none rfl, failed.cleared.cons rfl⟩
  fails := by
    intro l i now cause result t h t' failed _ _ i' _ x y _
    refine ⟨plansDrawn_of_none rfl, ?_⟩
    exact (((failed.cleared.withPolicy result.1).follow (i := i')).cons rfl).cons rfl
  delays := by
    intro l i phase sample t h keeps _ _ x _
    exact ⟨plansDrawn_of_none rfl, keeps.cons rfl⟩
  closes keeps := keeps

end Outline

/-- In a run, a thread plans the schedule that follows from its seed, as far as it gets. -/
theorem plans_of_run {σ : Type} {p : RunPlan σ} (single : p.workload.backgroundMix = none)
    (constant : p.control.load = none) {now : Stamp} {e : Ensemble (Stage σ)} {hs : Nat → History}
    (run : Ensemble.Run p.follow p.ensemble now e hs) (i : Nat) :
    plans (hs i) = ((Draws.first p.workload.drawingRule (p.seed + i)).draw
      p.workload.drawingRule (plans (hs i)).length).1 := by
  obtain ⟨drawn, -⟩ :=
    (Outline.planning_sound p i single constant).of_run rfl run (run.punctual p.fresh i)
  exact Drawn.plans_of_each drawn

/-- What a thread plans follows from its seed and the definition of its workload: of two runs with
the same sum of seed and thread, one plans all that the other one does, in the same order, and
perhaps more. Their modes, handlers, clocks and starts do not matter. -/
theorem schedule_reproducible {σ τ : Type} (p : RunPlan σ) (q : RunPlan τ)
    (rule : p.workload.drawingRule = q.workload.drawingRule)
    (single : p.workload.backgroundMix = none) (single' : q.workload.backgroundMix = none)
    (constant : p.control.load = none) (constant' : q.control.load = none) {i j : Nat}
    (seed : p.seed + i = q.seed + j) {now now' : Stamp} {e : Ensemble (Stage σ)}
    {e' : Ensemble (Stage τ)} {hs hs' : Nat → History}
    (run : Ensemble.Run p.follow p.ensemble now e hs)
    (run' : Ensemble.Run q.follow q.ensemble now' e' hs') :
    plans (hs i) <+: plans (hs' j) ∨ plans (hs' j) <+: plans (hs i) := by
  rw [plans_of_run single constant run i, plans_of_run single' constant' run' j, rule, seed]
  rcases Nat.le_total (plans (hs i)).length (plans (hs' j)).length with le | le
  · exact Or.inl (Draws.draw_prefix le)
  · exact Or.inr (Draws.draw_prefix le)

/-- A plan with an operation that fails at once, for a mode. The delays before it are drawn. -/
def RunPlan.failing (mode : RunMode) : RunPlan Unit :=
  { workload :=
      { Workload.single (fun _ => .created ())
          ⟨"", [], 0, .manual, true, ⟨.uniform ⟨1⟩ ⟨9⟩, .thinkTime, 0⟩⟩ fun _ =>
            .fails () (.plain "") with
        initialDelay := .initialDelay ⟨9⟩ }
    control := .ofMode mode
    seed := 7 }

/-- Where phases are measured by the clock, the failures are skipped, and where cycles are counted
they are reported; what is planned is the same. -/
theorem schedule_reproducible_failing : ∃ now e hs now' e' hs',
    Ensemble.Run (RunPlan.failing (.time ⟨0⟩ ⟨9⟩ ⟨0⟩)).follow
        (RunPlan.failing (.time ⟨0⟩ ⟨9⟩ ⟨0⟩)).ensemble now e hs ∧
      Ensemble.Run (RunPlan.failing (.cycles 1 9 1)).follow
        (RunPlan.failing (.cycles 1 9 1)).ensemble now' e' hs' ∧
      (plans (hs 0)).length = 4 ∧ (plans (hs' 0)).length = 3 ∧ plans (hs' 0) <+: plans (hs 0) := by
  let p : RunPlan Unit := RunPlan.failing (.time ⟨0⟩ ⟨9⟩ ⟨0⟩)
  let q : RunPlan Unit := RunPlan.failing (.cycles 1 9 1)
  have passed : Ensemble.Run.reached (fun _ hs => decide ((plans (hs 0)).length = 4))
      (Ensemble.Run.play p.follow (List.replicate 43 (0, 0)) 0 p.ensemble fun _ => []) = true := by
    decide +kernel
  have passed' : Ensemble.Run.reached (fun _ hs => decide ((plans (hs 0)).length = 3))
      (Ensemble.Run.play q.follow (List.replicate 33 (0, 0)) 0 q.ensemble fun _ => []) = true := by
    decide +kernel
  obtain ⟨now, e, hs, run, four⟩ := Ensemble.Run.exists_of_reached passed
  obtain ⟨now', e', hs', run', three⟩ := Ensemble.Run.exists_of_reached passed'
  have four := of_decide_eq_true four
  have three := of_decide_eq_true three
  refine ⟨now, e, hs, now', e', hs', run, run', four, three, ?_⟩
  have drawn := schedule_reproducible p q rfl rfl rfl rfl rfl (i := 0) (j := 0) rfl run run'
  rcases drawn with longer | shorter
  · have le := longer.length_le
    omega
  · exact shorter

end LoadGen
