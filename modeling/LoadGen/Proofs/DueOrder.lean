import LoadGen.Proofs.AfterStart
import LoadGen.Proofs.CallOutcomes
import LoadGen.Proofs.PendingInvocations

namespace LoadGen

open Program History

/-- The time of the invocation whose handler has just been called. -/
def Exchange.due? (x : Exchange) : Option Stamp :=
  match x.event? with
  | some (.called _ _ intended) => some intended
  | _ => none

namespace History

/-- The times of the invocations whose handlers have been called, in the order of the calls. -/
def callTimes : History → List Stamp
  | [] => []
  | x :: h => callTimes h ++ x.due?.toList

/-- No handler has been called for a later time. -/
def CalledBy (h : History) (t : Stamp) : Prop := ∀ u ∈ callTimes h, u ≤ t

variable {x : Exchange} {h : History} {t u : Stamp}

theorem callTimes_cons_of_plain (plain : x.request.Plain) : callTimes (x :: h) = callTimes h := by
  obtain ⟨t, request, reply⟩ := x
  cases request with
  | call c => exact List.append_nil _
  | emit e => cases e <;> first | exact List.append_nil _ | cases plain

theorem CalledBy.of_le (calledBy : h.CalledBy t) (le : t ≤ u) : h.CalledBy u :=
  fun v mem => le_trans (calledBy v mem) le

end History

/-- The handler is called for no earlier time than any handler before it. -/
def InDueOrder (x : Exchange) (older : History) : Prop := ∀ t, x.due? = some t → older.CalledBy t

/-- The exchange is punctual, and no failure is reported of a handler that has failed before its
time. -/
structure OnTime (x : Exchange) (older : History) : Prop extends Punctual x older where
  late : x.errs ∨ x.skips → older.failedEarly = false

theorem inDueOrder_of_uncalled {x : Exchange} {h : History} (uncalled : x.due? = none) :
    InDueOrder x h := by
  intro t called
  rw [uncalled] at called
  cases called

/-- Each call comes after all calls before it. -/
theorem pairwise_callTimes {h : History} (each : h.Each InDueOrder) :
    (callTimes h).Pairwise (· ≤ ·) := by
  induction h with
  | nil => exact List.Pairwise.nil
  | cons x h ih =>
    refine List.pairwise_append.mpr ⟨ih each.2, ?_, fun u mem t last => ?_⟩
    · cases x.due? <;> simp
    · exact each.1 t (Option.mem_toList.mp last) u mem

namespace Slot

/-- No invocation of the slot can be due before this time: what is pending is due by it, and the
next one will be counted from it or later. -/
def horizon (s : Slot) : Stamp :=
  match s.pending with
  | some pending => pending.intended
  | none => min s.previousStart s.previousEnd

variable {σ : Type} {s : Slot} {t : Stamp}

theorem horizon_of_idle (idle : s.pending = none) :
    s.horizon = min s.previousStart s.previousEnd := by
  simp [horizon, idle]

theorem horizon_of_pending {pending : Pending} (has : s.pending = some pending) :
    s.horizon = s.due := by
  simp [horizon, due, has]

/-- Planning puts off the horizon. -/
theorem le_horizon_plan (le : t ≤ s.horizon) (word : t ≤ Stamp.greatest) (w : Workload σ)
    (r : ChaCha) : t ≤ (s.plan w r).1.horizon := by
  cases has : s.pending with
  | some pending =>
    have unmoved : (s.plan w r).1 = s := by simp [plan, has]
    rwa [unmoved]
  | none =>
    rw [horizon_of_idle has, le_min_iff] at le
    have after : s.From t := ⟨le.1, le.2, by simp [has]⟩
    obtain ⟨pending, planned⟩ := s.exists_pending_plan w r
    have late := (after.plan word w r).pending pending planned
    simpa [horizon, planned] using late

/-- What is pending is due within the range of the clock. -/
def Timed (s : Slot) : Prop :=
  ∀ pending, s.pending = some pending → pending.intended ≤ Stamp.greatest

theorem nextPending_le_greatest (w : Workload σ) (operation : Nat) (previous : Option Nat)
    (r : ChaCha) : (s.nextPending w operation previous r).1.intended ≤ Stamp.greatest := by
  unfold nextPending
  split <;> exact Stamp.plus_le_greatest _ _

theorem Timed.plan (timed : s.Timed) (w : Workload σ) (r : ChaCha) : (s.plan w r).1.Timed := by
  unfold Slot.plan
  split
  next => exact timed
  next =>
    intro pending planned
    obtain rfl := Option.some.inj planned
    exact s.nextPending_le_greatest w _ _ r

theorem timed_of_idle (idle : s.pending = none) : s.Timed := by
  intro pending has
  rw [idle] at has
  cases has

end Slot

/-- No slot looks back behind a call, and what has been called for has come. -/
structure LoopState.Advances (l : LoopState) (h : History) : Prop where
  slots : l.slots.All fun s => h.CalledBy s.horizon ∧ s.Timed
  come : ∀ t ∈ callTimes h, Reached h t ∧ t ≤ Stamp.greatest

/-- The slot has given its invocation, before which nothing is due in any other slot. -/
structure LoopState.Attends (l : LoopState) (s : Slot) (pending : Pending) (h : History) :
    Prop where
  others : ∃ before : Slots, l.slots = before.put s ∧
    before.All fun s => pending.intended ≤ s.horizon ∧ s.Timed
  idle : s.pending = none
  called : h.CalledBy pending.intended
  word : pending.intended ≤ Stamp.greatest

namespace LoopState

variable {l : LoopState} {i : Invocation} {s : Slot} {pending : Pending} {x : Exchange}
  {h : History}

theorem Advances.cons (advances : l.Advances h) (uncalled : callTimes (x :: h) = callTimes h) :
    l.Advances (x :: h) where
  slots := by
    unfold CalledBy
    rw [uncalled]
    exact advances.slots
  come t mem := by
    rw [uncalled] at mem
    exact (advances.come t mem).imp_left Reached.cons

theorem Attends.cons (attends : l.Attends s pending h)
    (uncalled : callTimes (x :: h) = callTimes h) : l.Attends s pending (x :: h) :=
  ⟨attends.others, attends.idle, by unfold CalledBy; rw [uncalled]; exact attends.called,
    attends.word⟩

theorem Attends.plain (attends : l.Attends s pending h) (plain : x.request.Plain) :
    l.Attends s pending (x :: h) := attends.cons (callTimes_cons_of_plain plain)

/-- An invocation that has begun in its time is followed by a loop that does not look back behind
it. -/
theorem Attends.follow {invoke respond : Stamp} (attends : l.Attends i.slot i.pending h)
    (policy : Policy) (begun : i.record.invoke = some invoke)
    (ended : i.record.respond = some respond) (first : i.pending.intended ≤ invoke)
    (second : i.pending.intended ≤ respond) (come : Reached h i.pending.intended) :
    ((l.withPolicy policy).follow i).Advances h := by
  have followed := i.slot.follow_of_both begun ended
  have idle : (i.slot.follow i.record).pending = none := by
    rw [followed]
    exact attends.idle
  have horizon : (i.slot.follow i.record).horizon = min invoke respond := by
    rw [Slot.horizon_of_idle idle, followed]
  obtain ⟨before, same, others⟩ := attends.others
  constructor
  · show (l.slots.put _).All _
    rw [same, Slots.put_put (by rw [followed])]
    refine (others.mono fun s known => ?_).put ⟨?_, Slot.timed_of_idle idle⟩
    · exact ⟨attends.called.of_le known.1, known.2⟩
    · rw [horizon]
      exact attends.called.of_le (le_min first second)
  · intro t mem
    have le := attends.called t mem
    exact ⟨come.of_le le, le_trans le attends.word⟩

/-- After planning, the earliest slot can give what is pending in it. -/
theorem Advances.attends {σ : Type} {w : Workload σ} (advances : l.Advances h)
    (has : (l.plan w).slots.earliest.pending = some pending) :
    let s : Slot := { (l.plan w).slots.earliest with pending := none }
    ((l.plan w).put s).Attends s pending h := by
  have planned : (l.plan w).slots.All fun s =>
      h.CalledBy s.horizon ∧ s.Timed ∧ s.horizon = s.due := by
    refine advances.slots.plan w l.random fun s r known => ⟨?_, known.2.plan w r, ?_⟩
    · exact fun t mem => s.le_horizon_plan (known.1 t mem) (advances.come t mem).2 w r
    · obtain ⟨other, full⟩ := s.exists_pending_plan w r
      exact Slot.horizon_of_pending full
  have due : (l.plan w).slots.earliest.due = pending.intended := by simp [Slot.due, has]
  obtain ⟨called, timed, horizon⟩ := planned.earliest
  refine ⟨⟨(l.plan w).slots, rfl, ?_⟩, rfl, ?_, timed pending has⟩
  · refine (planned.and (l.plan w).slots.all_earliest_due_le).mono fun s known => ?_
    obtain ⟨⟨-, timed, horizon⟩, first⟩ := known
    exact ⟨by rw [horizon, ← due]; exact first, timed⟩
  · rwa [horizon, due] at called

end LoopState

/-- The record is that of an invocation which has not begun before its time, and all its times have
come. -/
def Timing.Under (intended : Stamp) (r : Timing) (h : History) : Prop :=
  r.OpenedFor intended ∧ r.Each (Reached h)

/-- An outline in which no slot looks back behind a call. -/
def Outline.advancing : Outline where
  unbegun h := callTimes h = []
  resting l h := l.Advances h
  opening l i h := i.record.Under i.pending.intended h ∧ l.Attends i.slot i.pending h
  serving l i h := i.record.Under i.pending.intended h ∧ l.Attends i.slot i.pending h
  cleared l i h := i.record.Under i.pending.intended h ∧ l.Attends i.slot i.pending h
  closing l i _ h := (l.follow i).Advances h

namespace Outline

variable {σ : Type} {l : LoopState} {i : Invocation} {x : Exchange} {h : History}

theorem advancing_tracked (s : Slot) (pending : Pending) (l : LoopState) :
    Timing.Tracked OnTime fun r h =>
      r.Under pending.intended h ∧ l.Attends s pending h :=
  (((Timing.OpenedFor.kept pending.intended).tracked OnTime.toPunctual).both
    (Timing.kept_reached.tracked OnTime.toPunctual)).and _
      fun idle _ attends => attends.plain idle.plain

theorem advancing_cons
    (known : i.record.Under i.pending.intended h ∧ l.Attends i.slot i.pending h)
    (plain : x.request.Plain) :
    i.record.Under i.pending.intended (x :: h) ∧ l.Attends i.slot i.pending (x :: h) :=
  ⟨⟨known.1.1, known.1.2.mono fun _ => Reached.cons⟩, known.2.plain plain⟩

/-- The invocation of a handler that has not failed too early has come. -/
theorem reached_of_failed {now : Stamp} (failed : advancing.Failed l i now h)
    (late : (i.record.invoke.isNone && i.record.isEarly now) = false) :
    Reached h i.pending.intended := by
  obtain ⟨⟨opened, passed⟩, -⟩ := failed.cleared
  cases captured : i.record.invoke with
  | some t => exact (passed t (Or.inl captured)).of_le (opened.begins t captured)
  | none =>
    have come : i.pending.intended ≤ now := by
      simpa [captured, Timing.isEarly, opened.intends] using late
    exact failed.reached.of_le come

theorem advancing_plans {env : Exchange → History → Prop} (advances : l.Advances h)
    (w : Workload σ) :
    (VirtualUser.emitAll (l.slots.plan w l.random).2.2).Ensures env InDueOrder (fun _ h =>
      let l := l.plan w
      let s := l.slots.earliest
      ∀ pending, s.pending = some pending →
        advancing.opening (l.put { s with pending := none }) (.ofSlot s pending) h) h := by
  have step : ∀ x h, x.request.Plans → env x h → l.Advances h →
      InDueOrder x h ∧ l.Advances (x :: h) := by
    intro x h plans _ advances
    obtain ⟨t, request, reply⟩ := x
    obtain ⟨background, operation, intended, delay, rfl⟩ := plans
    exact ⟨inDueOrder_of_uncalled rfl, advances.cons (List.append_nil _)⟩
  refine ((VirtualUser.plan_only l.slots w l.random).ensures step advances).mono ?_
  intro _ h kept planned s pending has
  exact ⟨⟨.of_intendedAt _, Timing.each_intendedAt _⟩, kept.2.attends has⟩

theorem advancing_sound (p : RunPlan σ) (id : Nat) :
    advancing.Sound p id OnTime InDueOrder where
  punctual := OnTime.toPunctual
  mute := by
    intro x h mute
    obtain ⟨t, request, reply⟩ := x
    cases request with
    | call c => exact inDueOrder_of_uncalled rfl
    | emit e => cases e <;> first | exact inDueOrder_of_uncalled rfl | cases mute
  ends _ := inDueOrder_of_uncalled rfl
  unbegun_plain plain _ unbegun := (callTimes_cons_of_plain plain).trans unbegun
  enters := by
    intro policy t now t' h _ _ unbegun
    have uncalled : callTimes (⟨t', .emit .runStarted, ()⟩ :: ⟨t, .call .clock, now⟩ :: h) = [] :=
      (List.append_nil _).trans ((List.append_nil _).trans unbegun)
    refine ⟨Slots.all_fresh _ _ fun _ _ => ⟨?_, Slot.timed_of_idle rfl⟩, ?_⟩
    · simp [CalledBy, uncalled]
    · simp [uncalled]
  resting_plain plain _ advances := advances.cons (callTimes_cons_of_plain plain)
  notices _ told advances := by
    exact ⟨(advances.cons (callTimes_cons_of_plain (plain_of_told told))).slots,
      (advances.cons (callTimes_cons_of_plain (plain_of_told told))).come⟩
  resumes := by
    intro l t now h t' _ x y punctual advances
    have passed := (advances.cons (x := x) (List.append_nil _)).cons (x := y) (List.append_nil _)
    refine ⟨inDueOrder_of_uncalled rfl, passed.slots.reset fun s known =>
      ⟨fun u mem => ?_, Slot.timed_of_idle rfl⟩, passed.come⟩
    -- What the slots counted from is gone, but the clock has passed every call.
    have called : u ∈ callTimes h := by
      simpa [callTimes, Exchange.due?, Exchange.event?, x, y] using mem
    have come := (advances.come u called).1
    exact le_trans (come.le punctual.toPunctual.timely rfl) (le_min le_rfl le_rfl)
  plans _ advances := advancing_plans advances p.workload
  stops _ _ := inDueOrder_of_uncalled rfl
  opening_tracked := advancing_tracked _ _ _
  calls := by
    intro l i t h _ _ known
    obtain ⟨⟨opened, passed⟩, attends⟩ := known
    refine ⟨fun u called => ?_, ⟨opened, passed.mono fun _ => Reached.cons⟩, attends.others,
      attends.idle, fun u mem => ?_, attends.word⟩
    · obtain rfl := Option.some.inj called
      exact attends.called
    · rcases List.mem_append.mp mem with old | new
      · exact attends.called u old
      · obtain rfl := List.mem_singleton.mp new
        exact le_rfl
  serving_tracked := advancing_tracked _ _ _
  clears _ clear known := advancing_cons known (plain_of_clear clear)
  cleared_plain plain _ known := advancing_cons known plain
  succeeds := by
    intro l i record result t h known completed _ i' x _
    obtain ⟨⟨opened, passed⟩, attends⟩ := known
    obtain ⟨invoke, respond, captured, -, begun, ended, ordered⟩ :=
      Timing.complete_sound completed
    have first := opened.begins invoke captured
    have come := (passed invoke (Or.inl captured)).of_le first
    have second := le_trans first ordered
    have follows := attends.follow (i := i') result.1 begun ended first second come
    exact ⟨inDueOrder_of_uncalled rfl, follows.cons (List.append_nil _)⟩
  skips := by
    intro l i now t cause h failed skipped _ x onTime
    have late := failed.failedEarly.symm.trans (onTime.late (Or.inr rfl))
    obtain ⟨-, missing, early⟩ := Timing.repair_skip_iff.mp skipped
    simp [missing, early] at late
  fails := by
    intro l i now cause result t h t' failed kept _ i' _ x y onTime
    have late := failed.failedEarly.symm.trans (onTime.late (Or.inl rfl))
    have come : Reached h i.pending.intended := reached_of_failed failed late
    obtain ⟨⟨opened, -⟩, attends⟩ := failed.cleared
    obtain ⟨invoke, respond, begun, ended, first, second⟩ := opened.repair le_rfl now
      l.policy.earlyFailure (fun early => by simp [late] at early) kept
    have follows := attends.follow (i := i') result.1 begun ended first second come
    exact ⟨inDueOrder_of_uncalled rfl, (follows.cons (List.append_nil _)).cons (List.append_nil _)⟩
  delays := by
    intro l i phase sample t h advances _ _ x _
    exact ⟨inDueOrder_of_uncalled rfl, advances.cons (List.append_nil _)⟩
  closes advances := advances

end Outline

section Runs

variable {σ : Type} {p : RunPlan σ} {e : Ensemble (Stage σ)} {now : Stamp} {hs : Nat → History}
  {i : Nat}

theorem onTime_of_run (run : Ensemble.Run p.follow p.ensemble now e hs)
    (late : ∀ x (older : History), x :: older <:+ hs i → x.errs ∨ x.skips →
      older.failedEarly = false) : (hs i).Each OnTime :=
  each_iff_suffix.mpr fun x older part =>
    ⟨each_iff_suffix.mp (run.punctual p.fresh i) x older part, late x older part⟩

theorem inDueOrder_of_run (run : Ensemble.Run p.follow p.ensemble now e hs)
    (onTime : (hs i).Each OnTime) : (hs i).Each InDueOrder :=
  ((Outline.advancing_sound p i).of_run rfl run onTime).1

end Runs

/-- The slots of a thread run in due order. Whenever a handler is called, every slot holds an
invocation, and the one that is made is the first of them, that of the foreground in a tie. Between
two iterations the slots hold what the history tells, and one of them nothing, so that every
iteration that its gate lets through plans; a loop that ends right after a plan leaves behind only
what is due at the end of the run or later. And unless a handler fails before its time, no call is
for an earlier time than the one before it. -/
theorem slots_run_in_due_order {σ : Type} (p : RunPlan σ) {now : Stamp} {e : Ensemble (Stage σ)}
    {hs : Nat → History} (run : Ensemble.Run p.follow p.ensemble now e hs) (i : Nat) :
    (∀ x (older : History) b operation intended, x :: older <:+ hs i →
      x.event? = some (.called b operation intended) →
        Due p.workload b operation intended older) ∧
    (∀ m u slots, e.members[i]? = some m → m.stage? = some (.iterating u slots) →
      (∀ b s, slots.side b = some s → (hs i).pending b =
        s.pending.map fun pending => (pending.operation, pending.intended)) ∧
      ∃ b s, slots.side b = some s ∧ s.pending = none) ∧
    (∀ x (older : History), x :: older <:+ hs i → x.event? = some .runEnded →
      older.justPlanned → AllBeyond p e.signals.start older) ∧
    ((∀ x (older : History), x :: older <:+ hs i → x.errs ∨ x.skips →
      older.failedEarly = false) → (callTimes (hs i)).Pairwise (· ≤ ·)) := by
  have booked := each_iff_suffix.mp (booked_of_run run i)
  refine ⟨fun x older b operation intended part called => ?_, fun m u slots present staged => ?_,
    fun x older part ends planned => ?_, fun late => ?_⟩
  · exact (booked x older part).due called
  · obtain ⟨shown, free⟩ := shown_of_run run present staged
    exact ⟨fun b s has => (shown.each b s has).pending, free⟩
  · have beyond := booked x older part
    rw [Exchange.eq_of_event ends] at beyond
    exact beyond planned
  · exact pairwise_callTimes (inDueOrder_of_run run (onTime_of_run run late))

/-- A plan with a background, to the end of a steady state of 150 nanoseconds. -/
def RunPlan.besideShortly : RunPlan Unit :=
  { workload := .beside
    control := .ofMode (.time ⟨0⟩ ⟨150⟩ ⟨0⟩)
    seed := 0 }

/-- Both slots are called in turn, and the thread stops with invocations for 160 and 200 pending. -/
theorem slots_run_in_due_order_besideShortly : ∃ now e hs x older,
    Ensemble.Run RunPlan.besideShortly.follow RunPlan.besideShortly.ensemble now e hs ∧
      hs 0 = x :: older ∧ callTimes older = [0, 0, 80, 100] ∧
      pending false older = some (0, 160) ∧ pending true older = some (1, 200) ∧
      AllBeyond RunPlan.besideShortly e.signals.start older ∧
      (callTimes (hs 0)).Pairwise (· ≤ ·) := by
  let order : List (Stamp × Nat) := List.replicate 44 (0, 0) ++ List.replicate 10 (0, 1) ++
    List.replicate 19 (80, 0) ++ List.replicate 16 (100, 0)
  have passed : Ensemble.Run.reached (fun _ hs => decide (
      (hs 0).head?.bind Exchange.event? = some .runEnded ∧ justPlanned (hs 0).tail ∧
        callTimes (hs 0).tail = [0, 0, 80, 100] ∧ pending false (hs 0).tail = some (0, 160) ∧
        pending true (hs 0).tail = some (1, 200) ∧ ∀ x ∈ hs 0, ¬ (x.errs ∨ x.skips)))
      (Ensemble.Run.play RunPlan.besideShortly.follow order 0 RunPlan.besideShortly.ensemble
        fun _ => []) = true := by
    decide +kernel
  obtain ⟨now, e, hs, run, passed⟩ := Ensemble.Run.exists_of_reached passed
  obtain ⟨last, planned, times, foreground, background, faultless⟩ := of_decide_eq_true passed
  obtain ⟨x, latest, ends⟩ := Option.bind_eq_some_iff.mp last
  obtain ⟨older, split⟩ := List.head?_eq_some_iff.mp latest
  rw [split] at planned times foreground background
  obtain ⟨-, -, beyond, inOrder⟩ := slots_run_in_due_order RunPlan.besideShortly run 0
  refine ⟨now, e, hs, x, older, run, split, times, foreground, background,
    beyond x older (split ▸ List.suffix_rfl) ends planned, inOrder fun x older part failed => ?_⟩
  exact absurd failed (faultless x (part.subset List.mem_cons_self))

end LoadGen
