import LoadGen.Proofs.Continuation
import Mathlib.Algebra.BigOperators.Group.Finset.Piecewise
import Mathlib.Algebra.Order.BigOperators.Group.Finset

namespace LoadGen

/-- The start time, if the call is the one that has fixed it. -/
def Exchange.fixed? : Exchange → Option Stamp
  | ⟨_, .call (.fixStart t), true⟩ => some t
  | _ => none

/-- The cause, if the call is the one that has raised the abort. -/
def Exchange.raised? : Exchange → Option AbortCause
  | ⟨_, .call (.abort cause), true⟩ => some cause
  | _ => none

namespace Call

/-- The start time that a call has fixed without having said so yet. -/
def fixing? : (c : Call) → c.Point → Option Stamp
  | fixStart _, FixPoint.enter | fixStart _, FixPoint.look => none
  | fixStart t, _ => some t
  | _, _ => none

/-- The cause that a call has recorded without having said so yet. -/
def raising? : (c : Call) → c.Point → Option AbortCause
  | abort _, AbortPoint.enter | abort _, AbortPoint.look => none
  | abort cause, _ => some cause
  | _, _ => none

end Call

/-- A signal in the shared memory that calls give. Only a call that finds no value gives one, and it
says so at its end. -/
structure OneShot (β : Type) where
  value : Signals → Option β
  giving : (c : Call) → c.Point → Option β
  given : Exchange → Option β
  fresh : ∀ threads, value (Signals.fresh threads) = none
  entry : ∀ c, giving c c.entry = none
  emit : ∀ {t e}, given ⟨t, .emit e, ()⟩ = none
  move : ∀ {me now s s'} {c : Call} {point point' : c.Point}, c.Moves me now s s' point point' →
    (value s' = value s ∧ giving c point' = giving c point) ∨
      (value s = none ∧ giving c point = none ∧
        ∃ b, value s' = some b ∧ giving c point' = some b)
  answer : ∀ {me now s s'} {c : Call} {point : c.Point} {reply : c.Reply},
    c.Answers me now s s' point reply →
      value s' = value s ∧ given ⟨now, .call c, reply⟩ = giving c point

namespace OneShot

variable {α β : Type} (S : OneShot β)

/-- What a thread has given without having said so yet. -/
def gives : Thread α → Option β
  | .between _ => none
  | .within c point _ => S.giving c point

/-- How often the thread gives or has given the signal. -/
def shots (thread : Thread α) (h : History) : Nat :=
  h.countP (fun x => (S.given x).isSome) + (S.gives thread).toList.length

/-- One thread alone has given the signal, unless it has no value. -/
structure GivenBy (giver : Option Nat) (e : Ensemble α) (hs : Nat → History) : Prop where
  set : giver.isSome = (S.value e.signals).isSome
  present : ∀ i, giver = some i → i < e.members.size
  alone : ∀ (i : Nat) (m : Member α), e.members[i]? = some m →
    S.shots m.thread (hs i) = if giver = some i then 1 else 0

/-- Whatever has been given is the value of the signal, and it has been given once. -/
structure Kept (e : Ensemble α) (hs : Nat → History) : Prop where
  given : ∀ i, ∀ x ∈ hs i, ∀ b, S.given x = some b → S.value e.signals = some b
  gives : ∀ (i : Nat) (m : Member α), e.members[i]? = some m →
    ∀ b, S.gives m.thread = some b → S.value e.signals = some b
  giver : ∃ giver, S.GivenBy giver e hs

/-- A call has given the value, and has said so or will do so. -/
def Gave (e : Ensemble α) (hs : Nat → History) (b : β) : Prop :=
  ∃ i m, e.members[i]? = some m ∧
    (S.gives m.thread = some b ∨ ∃ x ∈ hs i, S.given x = some b)

variable {S} {follow : α → Option (Program α)} {i me threads : Nat} {now : Stamp}
  {s s' : Signals} {m m' : Member α} {x : Option Exchange} {h : History} {e first : Ensemble α}
  {hs : Nat → History} {b : β}

@[simp] theorem gives_between {p : Program α} : S.gives (.between p) = none := rfl

@[simp] theorem gives_within {c : Call} {point : c.Point} {next : c.Reply → Program α} :
    S.gives (.within c point next) = S.giving c point := rfl

theorem gives_of_at {thread : Thread α} {c : Call} {point : c.Point} {next : c.Reply → Program α}
    (stands : thread.At c point next) : S.gives thread = S.giving c point := by
  cases stands with
  | entry => exact (S.entry c).symm
  | inside => rfl

/-- A step hands on what the thread gives, to the end of the call. -/
structure HandsOn (S : OneShot β) (s s' : Signals) (m m' : Member α) (x : Option Exchange) :
    Prop where
  value : S.value s' = S.value s
  gives : ∀ b, S.gives m'.thread = some b → S.gives m.thread = some b
  given : ∀ y ∈ x, ∀ b, S.given y = some b → S.gives m.thread = some b
  shots : ∀ h, S.shots m'.thread (x.toList ++ h) = S.shots m.thread h

/-- A step gives the signal, which had no value before. -/
structure Fires (S : OneShot β) (s s' : Signals) (m m' : Member α) (x : Option Exchange) :
    Prop where
  unset : S.value s = none
  gives : ∀ b, S.gives m'.thread = some b → S.value s' = some b
  given : x = none
  set : (S.value s').isSome
  shots : ∀ h, S.shots m'.thread (x.toList ++ h) = S.shots m.thread h + 1

theorem takes_cases (takes : Member.Takes follow me now s m s' m' x) :
    S.HandsOn s s' m m' x ∨ S.Fires s s' m m' x := by
  cases takes with
  | follow _ => exact Or.inl ⟨rfl, fun _ => id, by simp, fun _ => rfl⟩
  | emit =>
    refine Or.inl ⟨rfl, by simp, ?_, fun h => ?_⟩
    · intro y done b given
      cases done
      rw [S.emit] at given
      cases given
    · simp [shots, S.emit]
  | move stands moved =>
    have before := gives_of_at (S := S) stands
    rcases S.move moved with ⟨same, keeps⟩ | ⟨unset, idle, b, set, gives⟩
    · refine Or.inl ⟨same, fun b now => ?_, by simp, fun h => ?_⟩
      · rw [before, ← keeps]
        exact now
      · simp only [shots, before, gives_within, keeps, Option.toList_none, List.nil_append]
    · refine Or.inr ⟨unset, fun b now => ?_, rfl, by simp [set], fun h => ?_⟩
      · exact set.trans (gives.symm.trans now)
      · simp [shots, before, idle, gives]
  | answer stands answered =>
    have before := gives_of_at (S := S) stands
    obtain ⟨same, told⟩ := S.answer answered
    refine Or.inl ⟨same, by simp, ?_, fun h => ?_⟩
    · intro y done b given
      cases done
      exact before.trans (told.symm.trans given)
    · rw [shots, shots, before, ← told]
      cases said : S.given _ <;> simp [said]

theorem Kept.handsOn (kept : S.Kept e hs)
    (stepped : Ensemble.Stepped follow i now e m m' s' x)
    (hands : S.HandsOn e.signals s' m m' x) :
    S.Kept (e.withMember i s' m') (e.record hs i now) := by
  obtain ⟨present, -, completes⟩ := stepped
  have member : ∀ j, (e.withMember i s' m').members[j]? =
      if j = i then some m' else e.members[j]? := Ensemble.getElem?_withMember present
  have value : S.value (e.withMember i s' m').signals = S.value e.signals := hands.value
  obtain ⟨giver, givenBy⟩ := kept.giver
  refine ⟨fun j y mem b said => ?_, fun j k there b now => ?_, giver, ?_, fun j same => ?_, ?_⟩
  · rw [Ensemble.record_eq completes] at mem
    rw [value]
    split at mem
    next =>
      rcases List.mem_append.mp mem with latest | old
      · exact kept.gives i m present b (hands.given y (Option.mem_toList.mp latest) b said)
      · exact kept.given i y old b said
    next => exact kept.given j y mem b said
  · rw [member] at there
    rw [value]
    split at there
    next =>
      cases there
      exact kept.gives i m present b (hands.gives b now)
    next => exact kept.gives j k there b now
  · rw [value]
    exact givenBy.set
  · rw [Ensemble.size_withMember]
    exact givenBy.present j same
  · intro j k there
    rw [member] at there
    rw [Ensemble.record_eq completes]
    split at there
    next same =>
      subst same
      cases there
      rw [if_pos rfl, hands.shots]
      exact givenBy.alone j m present
    next other =>
      rw [if_neg other]
      exact givenBy.alone j k there

theorem Kept.fires (kept : S.Kept e hs) (stepped : Ensemble.Stepped follow i now e m m' s' x)
    (fires : S.Fires e.signals s' m m' x) :
    S.Kept (e.withMember i s' m') (e.record hs i now) := by
  obtain ⟨present, -, completes⟩ := stepped
  have member : ∀ j, (e.withMember i s' m').members[j]? =
      if j = i then some m' else e.members[j]? := Ensemble.getElem?_withMember present
  obtain ⟨giver, givenBy⟩ := kept.giver
  have nobody : giver = none := by
    have set := givenBy.set
    rw [fires.unset] at set
    simpa using set
  -- There was no value before, so that nobody has given one.
  have ungiven : ∀ j, ∀ y ∈ hs j, ∀ b, S.given y ≠ some b := by
    intro j y mem b said
    have old := kept.given j y mem b said
    rw [fires.unset] at old
    cases old
  refine ⟨fun j y mem b said => ?_, fun j k there b now => ?_, some i, ?_, fun j same => ?_, ?_⟩
  · rw [Ensemble.record_eq completes, fires.given] at mem
    split at mem
    next => exact absurd said (ungiven i y mem b)
    next => exact absurd said (ungiven j y mem b)
  · rw [member] at there
    split at there
    next =>
      cases there
      exact fires.gives b now
    next =>
      have old := kept.gives j k there b now
      rw [fires.unset] at old
      cases old
  · exact fires.set.symm
  · cases same
    rw [Ensemble.size_withMember]
    exact (Array.getElem?_eq_some_iff.mp present).1
  · intro j k there
    rw [member] at there
    rw [Ensemble.record_eq completes]
    split at there
    next same =>
      subst same
      cases there
      rw [if_pos rfl, fires.shots, givenBy.alone j m present, nobody]
      simp
    next other =>
      rw [if_neg other, givenBy.alone j k there, nobody]
      simp [Ne.symm other]

theorem kept_of_run (fresh : Ensemble.Run.Fresh first threads)
    (run : Ensemble.Run follow first now e hs) : S.Kept e hs := by
  induction run with
  | start =>
    have unset : S.value first.signals = none := fresh.signals ▸ S.fresh threads
    have idle : ∀ (i : Nat) (m : Member α), first.members[i]? = some m →
        S.gives m.thread = none := by
      intro i m present
      obtain ⟨p, idle⟩ := fresh.idle i m present
      rw [idle]
      rfl
    refine ⟨by simp, fun i m present b now => ?_, none, by simp [unset], by simp, ?_⟩
    · rw [idle i m present] at now
      cases now
    · intro i m present
      simp [shots, idle i m present]
  | wait _ _ ih => exact ih
  | step i run stepped ih =>
    obtain ⟨m, m', s', x, taken, rfl⟩ := Ensemble.Run.exists_stepped stepped
    rcases takes_cases (S := S) taken.takes with hands | fires
    · exact ih.handsOn taken hands
    · exact ih.fires taken fires

theorem Kept.gave (kept : S.Kept e hs) (set : S.value e.signals = some b) : S.Gave e hs b := by
  obtain ⟨giver, givenBy⟩ := kept.giver
  have isSet := givenBy.set
  rw [set, Option.isSome_some, Option.isSome_iff_exists] at isSet
  obtain ⟨i, rfl⟩ := isSet
  have inside := givenBy.present i rfl
  have present := Array.getElem?_eq_getElem inside
  have once := givenBy.alone i _ present
  rw [if_pos rfl] at once
  have same : ∀ c, S.value e.signals = some c → c = b :=
    fun c value => Option.some.inj (value.symm.trans set)
  refine ⟨i, _, present, ?_⟩
  cases now : S.gives e.members[i].thread with
  | some c => exact Or.inl (same c (kept.gives i _ present c now) ▸ rfl)
  | none =>
    -- The thread does not give the value any more, so that it has said so.
    simp only [shots, now, Option.toList_none, List.length_nil, Nat.add_zero] at once
    obtain ⟨x, mem, said⟩ := List.countP_pos_iff.mp (once ▸ Nat.one_pos)
    obtain ⟨c, said⟩ := Option.isSome_iff_exists.mp said
    exact Or.inr ⟨x, mem, same c (kept.given i x mem c said) ▸ said⟩

/-- At most one call is told that it has given the signal. -/
theorem Kept.once (kept : S.Kept e hs) : ∑ i ∈ Finset.range e.members.size,
    (hs i).countP (fun x => (S.given x).isSome) ≤ 1 := by
  obtain ⟨giver, givenBy⟩ := kept.giver
  have each : ∀ i ∈ Finset.range e.members.size,
      (hs i).countP (fun x => (S.given x).isSome) ≤ if giver = some i then 1 else 0 := by
    intro i mem
    have present := Array.getElem?_eq_getElem (Finset.mem_range.mp mem)
    exact le_trans (Nat.le_add_right _ _) (le_of_eq (givenBy.alone i _ present))
  refine le_trans (Finset.sum_le_sum each) ?_
  cases giver with
  | none => simp
  | some j =>
    simp only [Option.some.injEq, Finset.sum_ite_eq]
    split <;> simp

/-- The start time, which the first thread to fix it fixes. -/
def start : OneShot Stamp where
  value := Signals.start
  giving := Call.fixing?
  given := Exchange.fixed?
  fresh _ := rfl
  entry c := by cases c <;> rfl
  emit := rfl
  move {me now s s' c point point'} moved := by
    by_cases fixes : ∃ t, c = .fixStart t
    · obtain ⟨t, rfl⟩ := fixes
      cases point with
      | look =>
        simp only [Call.Moves, Call.step, Call.stepFix] at moved
        split at moved
        next => cases moved
        next unset =>
          cases moved
          exact Or.inr ⟨unset, rfl, t, rfl, rfl⟩
      | _ =>
        simp only [Call.Moves, Call.step, Call.stepFix, Call.enterSection] at moved
        (repeat' split at moved) <;> cases moved <;> exact Or.inl ⟨rfl, rfl⟩
    · obtain ⟨same, -⟩ := (Call.step_keeps moved.signals?).start fun t is => fixes ⟨t, is⟩
      refine Or.inl ⟨same, ?_⟩
      cases c with
      | fixStart t => exact absurd ⟨t, rfl⟩ fixes
      | _ => rfl
  answer {me now s s' c point reply} answered := by
    have same : s'.start = s.start := by
      obtain ⟨_, _, _, rfl⟩ := Call.answers_frame answered
      rfl
    refine ⟨same, ?_⟩
    cases c with
    | fixStart t =>
      cases point <;>
        simp only [Call.Answers, Call.step, Call.stepFix, Call.enterSection] at answered <;>
        (repeat' split at answered) <;> cases answered <;> rfl
    | _ => rfl

/-- The cause of the abort, which the first thread to abort the run records. -/
def abort : OneShot AbortCause where
  value := Signals.cause
  giving := Call.raising?
  given := Exchange.raised?
  fresh _ := rfl
  entry c := by cases c <;> rfl
  emit := rfl
  move {me now s s' c point point'} moved := by
    by_cases aborts : ∃ cause, c = .abort cause
    · obtain ⟨cause, rfl⟩ := aborts
      cases point with
      | wake left => cases left <;> cases moved <;> exact Or.inl ⟨rfl, rfl⟩
      | look =>
        simp only [Call.Moves, Call.step, Call.stepAbort] at moved
        split at moved
        next => cases moved
        next unset =>
          cases moved
          exact Or.inr ⟨unset, rfl, cause, rfl, rfl⟩
      | _ =>
        simp only [Call.Moves, Call.step, Call.stepAbort, Call.enterSection,
          Call.enterSleepersSection] at moved
        (repeat' split at moved) <;> cases moved <;> exact Or.inl ⟨rfl, rfl⟩
    · obtain ⟨same, -⟩ := (Call.step_keeps moved.signals?).abort fun cause is => aborts ⟨cause, is⟩
      refine Or.inl ⟨same, ?_⟩
      cases c with
      | abort cause => exact absurd ⟨cause, rfl⟩ aborts
      | _ => rfl
  answer {me now s s' c point reply} answered := by
    have same : s'.cause = s.cause := by
      obtain ⟨_, _, _, rfl⟩ := Call.answers_frame answered
      rfl
    refine ⟨same, ?_⟩
    cases c with
    | abort cause =>
      cases point with
      | wake left => cases left <;> cases answered
      | _ =>
        simp only [Call.Answers, Call.step, Call.stepAbort, Call.enterSection,
          Call.enterSleepersSection] at answered
        (repeat' split at answered) <;> cases answered <;> rfl
    | _ => rfl

end OneShot

end LoadGen
