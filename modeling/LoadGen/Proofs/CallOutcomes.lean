import LoadGen.Metrics
import LoadGen.Proofs.AbortEffect
import LoadGen.Proofs.RunEnd
import LoadGen.Proofs.SampleTimes

namespace LoadGen

open Program History

namespace Exchange

/-- Whether a success is reported. -/
def transacts : Exchange → Bool
  | ⟨_, .emit (.transaction _), _⟩ => true
  | _ => false

/-- Whether a failure is reported. -/
def errs : Exchange → Bool
  | ⟨_, .emit (.error _), _⟩ => true
  | _ => false

/-- Whether an invocation is dropped. -/
def skips : Exchange → Bool
  | ⟨_, .emit (.skipped ..), _⟩ => true
  | _ => false

/-- Whether the thread comes into its loop. -/
def begins : Exchange → Bool
  | ⟨_, .emit .runStarted, _⟩ => true
  | _ => false

theorem toNat_accounts (x : Exchange) :
    x.accounts.toNat = x.transacts.toNat + x.errs.toNat + x.skips.toNat := by
  obtain ⟨t, request, reply⟩ := x
  cases request with
  | call c => rfl
  | emit e => cases e <;> rfl

theorem silent_of_skips {x : Exchange} (skips : x.skips) :
    x.sample? = none ∧ x.event? ≠ some .resumed ∧ x.delivers = false := by
  unfold Exchange.skips at skips
  split at skips
  next => exact ⟨rfl, by simp, rfl⟩
  next => cases skips

theorem sample?_of_unaccounted {x : Exchange} (unaccounted : x.accounts = false) :
    x.sample? = none := by
  obtain ⟨t, request, reply⟩ := x
  cases request with
  | call c => rfl
  | emit e => cases e <;> first | rfl | cases unaccounted

/-- Nothing but what is delivered changes the metrics. -/
theorem record_of_undelivered {x : Exchange} {e : Event} (undelivered : x.delivers = false)
    (emitted : x.event? = some e) (metrics : Metrics) : metrics.record e = metrics := by
  obtain ⟨t, request, reply⟩ := x
  cases request with
  | call c => cases emitted
  | emit e =>
    cases emitted
    cases e <;> first | rfl | cases undelivered

end Exchange

theorem Metrics.recordAll_of_undelivered {h : History}
    (undelivered : ∀ x ∈ h, x.delivers = false) (metrics : Metrics) :
    metrics.recordAll (h.filterMap Exchange.event?) = metrics := by
  induction h with
  | nil => rfl
  | cons x h ih =>
    have rest := ih fun y mem => undelivered y (List.mem_cons_of_mem x mem)
    cases emitted : x.event? with
    | none => rwa [List.filterMap_cons_none emitted]
    | some e =>
      have same := Exchange.record_of_undelivered (undelivered x List.mem_cons_self) emitted metrics
      rw [List.filterMap_cons_some emitted, recordAll, List.foldl_cons, same]
      exact rest

namespace History

/-- These are the exchanges since a handler was called last. -/
def SinceCall (own h : History) : Prop :=
  ∃ call older, h = own ++ call :: older ∧ call.calls ∧ ∀ x ∈ own, x.calls = false

/-- The latest exchange drops an invocation, and the others account for none and resume nothing. -/
def EndsWithSkip : History → Prop
  | [] => False
  | x :: new => x.skips ∧ ∀ y ∈ new, y.accounts = false ∧ y.event? ≠ some .resumed

instance : DecidablePred EndsWithSkip
  | [] => inferInstanceAs (Decidable False)
  | x :: new => inferInstanceAs
    (Decidable (x.skips ∧ ∀ y ∈ new, y.accounts = false ∧ y.event? ≠ some .resumed))

theorem countP_accounts (h : History) : h.countP Exchange.accounts =
    h.countP Exchange.transacts + h.countP Exchange.errs + h.countP Exchange.skips := by
  induction h with
  | nil => rfl
  | cons x h ih =>
    have one := x.toNat_accounts
    have toNat : ∀ b : Bool, (if b then 1 else 0) = b.toNat := by decide
    simp only [List.countP_cons, toNat, ih]
    omega

theorem exists_sinceCall {h : History} (pending : h.unsettled = 1) :
    ∃ own : History, own.SinceCall h := by
  induction h with
  | nil => cases pending
  | cons x h ih =>
    cases called : x.calls with
    | true => exact ⟨[], x, h, rfl, called, by simp⟩
    | false =>
      cases accounted : x.accounts with
      | true => simp [unsettled, called, accounted] at pending
      | false =>
        obtain ⟨own, call, older, rfl, calls, latest⟩ :=
          ih (by simpa [unsettled, called, accounted] using pending)
        refine ⟨x :: own, call, older, rfl, calls, fun y mem => ?_⟩
        rcases List.mem_cons.mp mem with rfl | old
        · exact called
        · exact latest y old

theorem exists_of_endsWithSkip {new : History} (ends : new.EndsWithSkip) :
    ∃ x own, new = x :: own ∧ x.skips ∧
      ∀ y ∈ own, y.accounts = false ∧ y.event? ≠ some .resumed := by
  cases new with
  | nil => exact ends.elim
  | cons x own => exact ⟨x, own, rfl, ends⟩

theorem previous_append {simultaneous background : Bool} {new h : History}
    (plain : ∀ x ∈ new, x.sample? = none ∧ x.event? ≠ some .resumed ∧ x.begins = false) :
    previous simultaneous background (new ++ h) = previous simultaneous background h := by
  induction new with
  | nil => rfl
  | cons x new ih =>
    obtain ⟨silent, unresumed, begun⟩ := plain x List.mem_cons_self
    rw [← ih fun y mem => plain y (List.mem_cons_of_mem x mem)]
    obtain ⟨t, request, reply⟩ := x
    cases request with
    | call c => rfl
    | emit e =>
      cases e with
      | runStarted => cases begun
      | resumed => exact absurd rfl unresumed
      | transaction s => cases silent
      | error s => cases silent
      | _ => rfl

end History

namespace Standing

variable {first st st' : Standing} {x : Exchange} {h own new : History}

/-- A handler has been called, and its outcome is still open. -/
def isOpen : Standing → Bool
  | calling _ | returned _ | accounting => true
  | _ => false

/-- How often a thread can still come into its loop. -/
def beginsLeft : Standing → Nat
  | launching | arrived | ready => 1
  | _ => 0

/-- How many delays can still be reported before the next call. -/
def delaysOpen : Standing → Nat
  | calling _ | returned _ | accounting | reported false => 1
  | _ => 0

theorem open_next (uncalled : x.calls = false) (isOpen : st'.isOpen)
    (steps : st.next x.request x.reply = some st') : st.isOpen ∧ x.delivers = false := by
  cases step_of_next steps with
  | stays ordinary =>
    obtain ⟨-, -, -, -, undelivered, -⟩ := Exchange.of_ordinary ordinary
    exact ⟨isOpen, undelivered⟩
  | calls => cases uncalled
  | hears | returns | clears => exact ⟨rfl, rfl⟩
  | _ => cases isOpen

theorem accounting_of_skips (skips : x.skips) (steps : st.next x.request x.reply = some st') :
    st = accounting := by
  unfold Exchange.skips at skips
  split at skips
  · cases step_of_next steps with
    | stays ordinary => cases ordinary
    | skips => rfl
  · cases skips

theorem begins_next (steps : st.next x.request x.reply = some st') :
    x.begins.toNat + st'.beginsLeft ≤ st.beginsLeft := by
  unfold Exchange.begins
  split
  · cases step_of_next steps with
    | stays ordinary => cases ordinary
    | begins => exact le_rfl
  · cases step_of_next steps <;> simp [beginsLeft]

theorem delaysOpen_next (uncalled : x.calls = false)
    (steps : st.next x.request x.reply = some st') :
    x.delays.toNat + st'.delaysOpen ≤ st.delaysOpen := by
  cases step_of_next steps with
  | stays ordinary => simp [Exchange.of_ordinary ordinary]
  | calls => cases uncalled
  | _ => simp [Exchange.delays, delaysOpen]

/-- As long as the outcome of a call is open, nothing has been delivered since. -/
theorem undelivered_of_open (now : first.after (own ++ h) = some st) (isOpen : st.isOpen)
    (latest : ∀ x ∈ own, x.calls = false) : ∀ x ∈ own, x.delivers = false := by
  induction own generalizing st with
  | nil => simp
  | cons x own ih =>
    obtain ⟨before, stood, steps⟩ := exists_of_after_cons now
    obtain ⟨wasOpen, undelivered⟩ := open_next (latest x List.mem_cons_self) isOpen steps
    intro y mem
    rcases List.mem_cons.mp mem with rfl | old
    · exact undelivered
    · exact ih stood wasOpen (fun y mem => latest y (List.mem_cons_of_mem x mem)) y old

/-- A call has its one outcome, or none yet, and at most one delay. -/
theorem outcome_of_sinceCall (now : launching.after h = some st) (since : own.SinceCall h) :
    own.countP Exchange.accounts + h.unsettled = 1 ∧ own.countP Exchange.delays ≤ 1 := by
  obtain ⟨call, older, rfl, called, latest⟩ := since
  obtain ⟨begun, stood⟩ := exists_after_of_append now
  have total := (owes_of_after now).2
  have before := (owes_of_after stood).2
  have noCalls : own.countP Exchange.calls = 0 :=
    List.countP_eq_zero.mpr fun x mem => by simp [latest x mem]
  have one : unsettled (call :: older) = 1 := by simp [unsettled, called]
  have delays : own.countP Exchange.delays + st.delaysOpen ≤ begun.delaysOpen :=
    countP_le_of_next (fun x mem _ _ steps => delaysOpen_next (latest x mem) steps) stood now
  have most : begun.delaysOpen ≤ 1 := by
    cases begun with
    | reported whole => cases whole <;> decide
    | _ => simp [delaysOpen]
  simp only [List.countP_append] at total
  exact ⟨by omega, by omega⟩

end Standing

theorem History.told_eq_none {h : History} (unseen : ¬ SeesStart h) : told h = none := by
  refine List.findSome?_eq_none_iff.mpr fun x mem => ?_
  by_contra told
  exact unseen ⟨x, mem, Option.isSome_iff_ne_none.mpr told⟩

theorem History.exists_told {h : History} (sees : SeesStart h) :
    ∃ start, told h = some start ∧ ∃ x ∈ h, x.start? = some start := by
  cases known : told h with
  | none =>
    obtain ⟨x, mem, told⟩ := sees
    simp [List.findSome?_eq_none_iff.mp known x mem] at told
  | some start => exact ⟨start, rfl, List.exists_of_findSome?_eq_some known⟩

theorem History.told_append (new h : History) : told (new ++ h) = (told new).or (told h) :=
  List.findSome?_append

theorem Policy.noticing_noticing (policy : Policy) (start : Stamp) :
    (policy.noticing start).noticing start = policy.noticing start := by
  cases policy with
  | cycles q => rfl
  | time q =>
    cases set : q.bounds <;> simp [noticing, TimePolicy.withStart, set]

/-- What the call of a handler without an outcome leaves as it was: the policy, but for the start
of the run if the thread has been told it in the meantime, and the times that the slots remember. -/
structure LoopState.Unmoved (before after : LoopState) (new : History) : Prop where
  policy : after.policy = (told new).elim before.policy before.policy.noticing
  times : ∀ background s s', before.slots.side background = some s →
    after.slots.side background = some s' →
      s'.previousStart = s.previousStart ∧ s'.previousEnd = s.previousEnd

section Runs

variable {σ : Type} {p : RunPlan σ} {now later : Stamp} {e e' : Ensemble (Stage σ)}
  {hs hs' : Nat → History} {i : Nat} {m m' : Member (Stage σ)} {u v : VirtualUser σ}
  {slots slots' : Slots}

/-- Where phases are measured by the clock, the policy between two iterations is that of the plan,
with the start of the run if the thread has been told it. -/
theorem policy_of_run (timed : p.control.mode.isTime)
    (run : Ensemble.Run p.follow p.ensemble now e hs) (present : e.members[i]? = some m)
    (staged : m.stage? = some (.iterating u slots)) :
    u.policy = (told (hs i)).elim p.control.policy p.control.policy.noticing := by
  cases mode : p.control.mode with
  | cycles => simp [mode, RunMode.isTime] at timed
  | time rampUp steadyState rampDown =>
    let r : TimedRun := ⟨rampUp, steadyState, rampDown, p.control.simultaneous, p.control.load,
      e.signals.start.getD 0⟩
    have policy : p.control.policy = .time r.policy := by
      rw [RunControl.policy, mode]
      rfl
    have tells : (hs i).Each r.Tells := each_of_mem fun y mem t told => by
      simp [r, run.told_start p.fresh mem told]
    have unseen : ¬ SeesStart [] := by simp [SeesStart]
    obtain ⟨-, holds⟩ := RunPlan.ensures_of_run r.Inv unseen trivial
      (fun _ _ _ inv follows => TimedRun.follow_inv policy rfl inv follows) run tells
    have inv := holds m present
    rw [Member.thread_of_stage staged] at inv
    obtain ⟨q, carried, ⟨rfl, unseen⟩ | ⟨rfl, sees⟩, -⟩ := inv
    · rw [told_eq_none unseen, carried, policy]
      rfl
    · obtain ⟨start, known, x, mem, told⟩ := exists_told sees
      obtain rfl : start = r.start := by simp [r, run.told_start p.fresh mem told]
      rw [known, carried, policy]
      rfl

/-- An invocation is dropped only where phases are measured by the clock, and after its handler has
failed before its time. -/
theorem accounts_of_skips {x : Exchange} {h : History}
    (run : Ensemble.Run p.follow p.ensemble now e hs) (part : x :: h <:+ hs i) (skips : x.skips) :
    p.control.mode.isTime ∧ h.failedEarly := by
  have account := each_iff_suffix.mp (accounts_of_run run i) x h part
  unfold Exchange.skips at skips
  split at skips
  next => exact ⟨account.1, account.2.1⟩
  next => cases skips

/-- A thread in its loop does not come into it again. -/
theorem begins_of_iterating (run : Ensemble.Run p.follow p.ensemble now e hs) (user : i < p.threads)
    (goes : Ensemble.Continues p.follow now e hs later e' hs') (present : e.members[i]? = some m)
    (staged : m.stage? = some (.iterating u slots)) {new : History} (grown : hs' i = new ++ hs i) :
    ∀ x ∈ new, x.begins = false := by
  obtain ⟨st, before, walks⟩ := RunPlan.way_of_user run user present
  obtain ⟨m', present'⟩ := RunPlan.exists_member (run.continued goes) (Nat.le_of_lt user)
  obtain ⟨st', after, -⟩ := RunPlan.way_of_user (run.continued goes) user present'
  rw [grown] at after
  have budget : new.countP Exchange.begins + st'.beginsLeft ≤ st.beginsLeft :=
    Standing.countP_le_of_next (fun _ _ _ _ steps => Standing.begins_next steps) before after
  have noneLeft : st.beginsLeft = 0 := by
    rcases RunPlan.at_of_stage walks staged with rfl | ⟨whole, rfl⟩ <;> rfl
  have zero : new.countP Exchange.begins = 0 := by omega
  exact fun x mem => by simpa using List.countP_eq_zero.mp zero x mem

/-- A skip leaves everything as it was. -/
theorem unmoved_of_skips (run : Ensemble.Run p.follow p.ensemble now e hs) (user : i < p.threads)
    (goes : Ensemble.Continues p.follow now e hs later e' hs') (present : e.members[i]? = some m)
    (staged : m.stage? = some (.iterating u slots)) (present' : e'.members[i]? = some m')
    (staged' : m'.stage? = some (.iterating v slots')) {new : History} (grown : hs' i = new ++ hs i)
    (ends : new.EndsWithSkip) : (u.loop slots).Unmoved (v.loop slots') new := by
  have run' := run.continued goes
  obtain ⟨x, own, rfl, skips, plain⟩ := exists_of_endsWithSkip ends
  have part : x :: (own ++ hs i) <:+ hs' i := by
    rw [grown]
    exact List.suffix_rfl
  obtain ⟨timed, -⟩ := accounts_of_skips run' part skips
  constructor
  · show v.policy = (told (x :: own)).elim u.policy u.policy.noticing
    rw [policy_of_run timed run present staged, policy_of_run timed run' present' staged', grown,
      told_append]
    cases new : told (x :: own) with
    | none => rfl
    | some start =>
      cases old : told (hs i) with
      | none => rfl
      | some before =>
        -- Who is told the start once more has noticed it already.
        obtain ⟨y, mem, told⟩ := List.exists_of_findSome?_eq_some old
        have second := run'.told_start p.fresh (grown ▸ List.mem_append_right _ mem) told
        obtain ⟨z, mem, told⟩ := List.exists_of_findSome?_eq_some new
        have first := run'.told_start p.fresh (grown ▸ List.mem_append_left _ mem) told
        obtain rfl : start = before := Option.some.inj (first.symm.trans second)
        exact (p.control.policy.noticing_noticing start).symm
  · intro background s s' has has'
    have begun := begins_of_iterating run user goes present staged grown
    have same : previous p.control.simultaneous background (hs' i) =
        previous p.control.simultaneous background (hs i) := by
      rw [grown]
      refine previous_append fun y mem => ?_
      rcases List.mem_cons.mp mem with rfl | old
      · obtain ⟨silent, unresumed, -⟩ := Exchange.silent_of_skips skips
        exact ⟨silent, unresumed, begun y mem⟩
      · obtain ⟨unaccounted, unresumed⟩ := plain y old
        exact ⟨Exchange.sample?_of_unaccounted unaccounted, unresumed, begun y mem⟩
    have times := (remember_of_run run present staged background s has).times
    have times' := (remember_of_run run' present' staged' background s' has').times
    rw [same, times, Option.some.injEq, Prod.mk.injEq] at times'
    exact ⟨times'.1.symm, times'.2.symm⟩

/-- A thread at a stage with a call that has no outcome has left its loop. -/
theorem over_of_unsettled {stage : Stage σ} (run : Ensemble.Run p.follow p.ensemble now e hs)
    (user : i < p.threads) (present : e.members[i]? = some m) (staged : m.stage? = some stage)
    (pending : (hs i).unsettled = 1) :
    (∃ v error, stage = .ended v error) ∨ ∃ result, stage = .finished result := by
  obtain ⟨st, after, walks⟩ := RunPlan.way_of_user run user present
  have owes := (Standing.owes_of_after after).1
  have stands := RunPlan.at_of_stage walks staged
  have owed : (hs i).unsettled ≠ 0 := by omega
  cases stage with
  | ended v error => exact Or.inl ⟨v, error, rfl⟩
  | finished result => exact Or.inr ⟨result, rfl⟩
  | iterating v slots =>
    rcases stands with rfl | ⟨whole, rfl⟩
    · exact absurd owes owed
    · exact absurd owes owed
  | _ =>
    subst stands
    exact absurd owes owed

/-- When an invocation is dropped, its handler has returned, and nothing has been delivered since
it was called. -/
theorem settling_of_skips (run : Ensemble.Run p.follow p.ensemble now e hs) (user : i < p.threads)
    {x : Exchange} {h : History} (part : x :: h <:+ hs i) (skips : x.skips) :
    h.Settling ∧ ∃ own : History, own.SinceCall h ∧ ∀ y ∈ x :: own, y.delivers = false := by
  obtain ⟨m, present⟩ := RunPlan.exists_member run (Nat.le_of_lt user)
  obtain ⟨st, after, -⟩ := RunPlan.way_of_user run user present
  obtain ⟨st', now'⟩ := Standing.exists_after_of_suffix after part
  obtain ⟨st, before, steps⟩ := Standing.exists_of_after_cons now'
  obtain rfl := Standing.accounting_of_skips skips steps
  refine ⟨Standing.settling_of_after before rfl, ?_⟩
  obtain ⟨own, since⟩ := exists_sinceCall (Standing.owes_of_after before).1
  refine ⟨own, since, ?_⟩
  obtain ⟨call, older, rfl, -, latest⟩ := since
  have undelivered := Standing.undelivered_of_open before rfl latest
  obtain ⟨-, -, undelivers⟩ := Exchange.silent_of_skips skips
  intro y mem
  rcases List.mem_cons.mp mem with rfl | old
  · exact undelivers
  · exact undelivered y old

end Runs

/-- Every call of a handler has one outcome: a transaction, an error or a skip; or else it has none,
is the last one, and its thread has left the loop when it comes to a stage. A skip occurs only where
phases are measured by the clock, for a handler that has failed before its time without capturing an
invocation, and leaves the metrics, the policy and the times of the slots as they were. A delay
follows the sample of its call at once. -/
theorem calls_have_one_outcome {σ : Type} (p : RunPlan σ) {now : Stamp} {e : Ensemble (Stage σ)}
    {hs : Nat → History} (run : Ensemble.Run p.follow p.ensemble now e hs) {i : Nat}
    (user : i < p.threads) :
    (∀ h, h <:+ hs i → h.countP Exchange.calls = h.countP Exchange.transacts +
      h.countP Exchange.errs + h.countP Exchange.skips + unsettled h ∧ unsettled h ≤ 1) ∧
    (∀ own h : History, h <:+ hs i → own.SinceCall h → own.countP Exchange.transacts +
      own.countP Exchange.errs + own.countP Exchange.skips + h.unsettled = 1 ∧
        own.countP Exchange.delays ≤ 1) ∧
    (∀ x (h : History), x :: h <:+ hs i → x.calls → h.unsettled = 0) ∧
    (∀ m stage, e.members[i]? = some m → m.stage? = some stage → (hs i).unsettled = 1 →
      (∃ v error, stage = .ended v error) ∨ ∃ result, stage = .finished result) ∧
    (∀ x (h : History), x :: h <:+ hs i → x.skips →
      p.control.mode.isTime ∧ h.Settling ∧ h.failedEarly ∧
        ∃ own : History, own.SinceCall h ∧ ∀ metrics : Metrics,
          metrics.recordAll ((x :: own).reverse.filterMap Exchange.event?) = metrics) ∧
    (∀ {later e' hs'}, Ensemble.Continues p.follow now e hs later e' hs' →
      ∀ {m u slots m' v slots'} {new : History}, e.members[i]? = some m →
        m.stage? = some (.iterating u slots) → e'.members[i]? = some m' →
        m'.stage? = some (.iterating v slots') → hs' i = new ++ hs i → new.EndsWithSkip →
          (u.loop slots).Unmoved (v.loop slots') new) ∧
    ∀ x (h : History) d, x :: h <:+ hs i → x.event? = some (.delay d) →
      JustReported d.phase h := by
  obtain ⟨m, present⟩ := RunPlan.exists_member run (Nat.le_of_lt user)
  obtain ⟨st, after, -⟩ := RunPlan.way_of_user run user present
  refine ⟨fun h part => ?_, fun own h part since => ?_, fun x h part calls => ?_,
    fun m stage => over_of_unsettled run user, fun x h part skips => ?_,
    fun {later e' hs'} goes {m u slots m' v slots' new} present staged present' staged' =>
      unmoved_of_skips run user goes present staged present' staged',
    fun x h d part delays => ?_⟩
  · obtain ⟨st, now⟩ := Standing.exists_after_of_suffix after part
    rw [(Standing.owes_of_after now).2, countP_accounts]
    exact ⟨rfl, unsettled_le h⟩
  · obtain ⟨st, now⟩ := Standing.exists_after_of_suffix after part
    rw [← countP_accounts]
    exact Standing.outcome_of_sinceCall now since
  · obtain ⟨st', now⟩ := Standing.exists_after_of_suffix after part
    obtain ⟨st, before, steps⟩ := Standing.exists_of_after_cons now
    exact (Standing.owes_next (Standing.owes_of_after before).1 steps).2.1 calls
  · obtain ⟨timed, early⟩ := accounts_of_skips run part skips
    obtain ⟨settling, own, since, undelivered⟩ := settling_of_skips run user part skips
    refine ⟨timed, settling, early, own, since, fun metrics => ?_⟩
    refine Metrics.recordAll_of_undelivered (fun y mem => ?_) metrics
    exact undelivered y (List.mem_reverse.mp mem)
  · have account := each_iff_suffix.mp (accounts_of_run run i) x h part
    obtain ⟨t, request, reply⟩ := x
    cases request with
    | call c => cases delays
    | emit e =>
      cases delays
      exact account

/-- A plan whose handler fails at once, while its first invocation is intended for five nanoseconds
later. -/
def RunPlan.failingEarly : RunPlan Unit :=
  { workload :=
      { Workload.single (fun _ => .created ()) ⟨"", [], 0, .manual, true, .fixed Span.zero⟩
          fun _ => .fails () (.plain "") with
        initialDelay := .fixed ⟨5⟩ }
    control := .ofMode (.time ⟨0⟩ ⟨9⟩ ⟨0⟩)
    seed := 0 }

/-- The first call is dropped, and the thread goes on as if there had been none. -/
theorem calls_have_one_outcome_failingEarly : ∃ now e hs later e' hs' m u slots m' v slots',
    ∃ new : History,
    Ensemble.Run RunPlan.failingEarly.follow RunPlan.failingEarly.ensemble now e hs ∧
      Ensemble.Continues RunPlan.failingEarly.follow now e hs later e' hs' ∧
      e.members[0]? = some m ∧ m.stage? = some (.iterating u slots) ∧
      e'.members[0]? = some m' ∧ m'.stage? = some (.iterating v slots') ∧
      hs' 0 = new ++ hs 0 ∧ new.EndsWithSkip ∧
      (u.loop slots).Unmoved (v.loop slots') new ∧
      (hs' 0).countP Exchange.calls = (hs' 0).countP Exchange.transacts +
        (hs' 0).countP Exchange.errs + (hs' 0).countP Exchange.skips + (hs' 0).unsettled := by
  let order : List (Stamp × Nat) := List.replicate 8 (0, 0)
  let more : List (Stamp × Nat) := List.replicate 10 (0, 0)
  have begun : Ensemble.Run.reached (fun e hs => decide ((hs 0).length = 4 ∧
      (e.members[0]?.bind Member.stage?).any Stage.isIterating))
      (Ensemble.Run.play RunPlan.failingEarly.follow order 0 RunPlan.failingEarly.ensemble
        fun _ => []) = true := by
    decide +kernel
  have skipped : Ensemble.Run.reached (fun e hs => decide ((hs 0).length = 13 ∧
      EndsWithSkip ((hs 0).take 9) ∧ (e.members[0]?.bind Member.stage?).any Stage.isIterating))
      (Ensemble.Run.play RunPlan.failingEarly.follow (order ++ more) 0
        RunPlan.failingEarly.ensemble fun _ => []) = true := by
    decide +kernel
  obtain ⟨now, e, hs, later, e', hs', run, goes, begun, skipped⟩ :=
    Ensemble.Run.exists_of_reached_append begun skipped
  obtain ⟨short, iterating⟩ := of_decide_eq_true begun
  obtain ⟨long, ends, iterating'⟩ := of_decide_eq_true skipped
  obtain ⟨m, u, slots, present, staged⟩ := Stage.exists_of_isIterating iterating
  obtain ⟨m', v, slots', present', staged'⟩ := Stage.exists_of_isIterating iterating'
  obtain ⟨-, grown⟩ := run.holds_on (P := fun _ _ _ => True) (R := fun _ => True) trivial
    (fun _ _ => trivial) (fun _ _ _ => ⟨trivial, fun _ _ => trivial⟩) goes
  obtain ⟨new, grown, -⟩ := grown 0
  have count : new.length = 9 := by
    rw [grown, List.length_append] at long
    omega
  rw [grown, List.take_left' count] at ends
  have user : 0 < RunPlan.failingEarly.threads := by decide
  obtain ⟨-, -, -, -, -, unmoved, -⟩ := calls_have_one_outcome RunPlan.failingEarly run user
  obtain ⟨balance, -⟩ := calls_have_one_outcome RunPlan.failingEarly (run.continued goes) user
  exact ⟨now, e, hs, later, e', hs', m, u, slots, m', v, slots', new, run, goes, present, staged,
    present', staged', grown, ends, unmoved goes present staged present' staged' grown ends,
    (balance _ List.suffix_rfl).1⟩

end LoadGen
