import LoadGen.Proofs.QuietRequests

namespace LoadGen

/-- The message of a fatal error that has been put on as an annotation. -/
def Annotation.fatal? : Annotation → Option String
  | fatal message => some message
  | _ => none

/-- Whether an annotation holds a fatal error or a cancelled wait. -/
def Annotation.isMarker : Annotation → Bool
  | text _ => false
  | _ => true

namespace ErrorChain

def root : ErrorChain → ErrorChain
  | wrapped _ source | annotated _ source => source.root
  | e => e

/-- The annotations, outermost first. -/
def annotations : ErrorChain → List Annotation
  | annotated context source => context :: source.annotations
  | wrapped _ source => source.annotations
  | _ => []

/-- The messages of the fatal errors among all layers, outermost first. -/
def fatalMessages : ErrorChain → List String
  | fatal message => [message]
  | annotated context source => context.fatal?.toList ++ source.fatalMessages
  | wrapped _ source => source.fatalMessages
  | _ => []

/-- Whether any layer is a cancelled wait. -/
def holdsAborted : ErrorChain → Bool
  | aborted => true
  | annotated context source => decide (context = .aborted) || source.holdsAborted
  | wrapped _ source => source.holdsAborted
  | _ => false

/-- Whether a fatal error or a cancelled wait has been put anywhere. -/
def isMarked (e : ErrorChain) : Bool := !e.fatalMessages.isEmpty || e.holdsAborted

variable (e : ErrorChain)

theorem fatalCause?_eq_some_iff {message : String} :
    e.fatalCause? = some message ↔ e.root = .fatal message := by
  induction e with
  | plain _ => simp [fatalCause?, root]
  | fatal _ => simp [fatalCause?, root]
  | aborted => simp [fatalCause?, root]
  | wrapped _ source ih => exact ih
  | annotated _ source ih => exact ih

theorem isAborted_iff : e.isAborted ↔ e.root = .aborted := by
  induction e with
  | plain _ => simp [isAborted, root]
  | fatal _ => simp [isAborted, root]
  | aborted => simp [isAborted, root]
  | wrapped _ source ih => exact ih
  | annotated _ source ih => exact ih

theorem stopsRun_iff : e.stopsRun ↔ ∀ message, e.root ≠ .plain message := by
  unfold stopsRun
  induction e with
  | plain message => simp [fatalCause?, isAborted, root]
  | fatal _ => simp [fatalCause?, root]
  | aborted => simp [isAborted, root]
  | wrapped _ source ih => exact ih
  | annotated _ source ih => exact ih

/-- The fatal errors among the annotations come before the one at the root. -/
theorem fatalMessages_eq :
    e.fatalMessages = e.annotations.filterMap Annotation.fatal? ++ e.fatalCause?.toList := by
  induction e with
  | plain _ => rfl
  | fatal _ => rfl
  | aborted => rfl
  | wrapped _ source ih => exact ih
  | annotated context source ih =>
    rw [fatalMessages, annotations, ih]
    cases context <;> rfl

theorem holdsAborted_iff : e.holdsAborted ↔ .aborted ∈ e.annotations ∨ e.isAborted := by
  induction e with
  | plain _ => simp [holdsAborted, annotations, isAborted]
  | fatal _ => simp [holdsAborted, annotations, isAborted]
  | aborted => simp [holdsAborted, annotations, isAborted]
  | wrapped _ source ih => exact ih
  | annotated context source ih =>
    simp only [holdsAborted, Bool.or_eq_true, decide_eq_true_eq, ih, annotations, List.mem_cons,
      isAborted, or_assoc]
    exact or_congr_left eq_comm

/-- The outermost fatal error is the one found unless an annotation hides it. -/
theorem fatalCause?_eq_head?_iff : e.fatalCause? = e.fatalMessages.head? ↔
    ∀ message, (e.annotations.filterMap Annotation.fatal?).head? = some message →
      e.root = .fatal message := by
  rw [fatalMessages_eq]
  cases hidden : e.annotations.filterMap Annotation.fatal? with
  | nil => simp
  | cons message rest => simp [← fatalCause?_eq_some_iff]

/-- A cancelled wait is found unless it is an annotation. -/
theorem isAborted_eq_holdsAborted_iff :
    e.isAborted = e.holdsAborted ↔ (.aborted ∈ e.annotations → e.root = .aborted) := by
  rw [← isAborted_iff, Bool.eq_iff_iff, holdsAborted_iff]
  constructor
  · exact fun same hidden => same.mpr (Or.inl hidden)
  · exact fun found => ⟨Or.inr, fun held => held.elim found id⟩

theorem isMarked_iff : e.isMarked ↔ e.annotations.any Annotation.isMarker ∨ e.stopsRun := by
  induction e with
  | plain _ => simp [isMarked, fatalMessages, holdsAborted, annotations, stopsRun, fatalCause?,
      isAborted]
  | fatal _ => simp [isMarked, fatalMessages, stopsRun, fatalCause?]
  | aborted => simp [isMarked, holdsAborted, stopsRun, isAborted]
  | wrapped _ source ih => exact ih
  | annotated context source ih =>
    have inner : (annotated context source).stopsRun = source.stopsRun := rfl
    rw [annotations, List.any_cons, Bool.or_eq_true, inner, or_assoc, ← ih]
    cases context <;>
      simp [isMarked, fatalMessages, holdsAborted, Annotation.fatal?, Annotation.isMarker]

/-- A failure that has been marked stops the run unless all its marks are annotations. -/
theorem stopsRun_eq_isMarked_iff : e.stopsRun = e.isMarked ↔
    (e.annotations.any Annotation.isMarker → ∀ message, e.root ≠ .plain message) := by
  rw [← stopsRun_iff, Bool.eq_iff_iff, isMarked_iff]
  constructor
  · exact fun same hidden => same.mpr (Or.inl hidden)
  · exact fun found => ⟨Or.inr, fun held => held.elim found id⟩

end ErrorChain

/-- The cause, if the request was to abort the run. -/
def Exchange.abort? : Exchange → Option AbortCause
  | ⟨_, .call (.abort cause), _⟩ => some cause
  | _ => none

/-- The request only serves to report an invocation. -/
def Request.IsReport : Request → Prop
  | .emit _ | .call .clock | .call .startTime => True
  | _ => False

namespace VirtualUser

open Program

variable {σ : Type}

theorem finish_reports (u : VirtualUser σ) (error : Option RunError) :
    (u.finish error).Only Request.IsReport fun _ => True := by
  simp [finish, Request.IsReport]

theorem proceed_reports (u : VirtualUser σ) (slots : Slots) (slot : Slot) :
    (u.proceed slots slot).Only Request.IsReport fun _ => True := by
  unfold proceed
  split
  · exact u.finish_reports none
  · trivial

theorem emitDelay_reports (pending : Pending) (phase : Phase) (r : Timing) :
    (emitDelay pending phase r).Only Request.IsReport fun _ => True := by
  unfold emitDelay
  split <;> simp [Request.IsReport]

theorem reportFailure_reports (u : VirtualUser σ) (slots : Slots) (slot : Slot) (pending : Pending)
    (cause : ErrorChain) (repair : Timing.Repair) :
    (u.reportFailure slots slot pending cause repair).Only Request.IsReport fun _ => True := by
  unfold reportFailure
  split
  next => simp [Request.IsReport]
  next =>
    simp only [only_bind, only_emit]
    have classifies : ∀ request, request = Request.call .startTime → request.IsReport := by
      intro request same
      subst same
      trivial
    refine ((u.policy.classify_only u.timing).weaken classifies).mono fun classified _ =>
      ⟨trivial, trivial, ?_⟩
    split
    next =>
      rw [only_bind]
      exact (emitDelay_reports _ _ _).mono fun _ _ => proceed_reports _ _ _
    next => exact proceed_reports _ _ _

theorem accountFailure_reports (u : VirtualUser σ) (slots : Slots) (slot : Slot)
    (pending : Pending) (name : String) {cause : ErrorChain} (goesOn : cause.stopsRun = false) :
    (u.accountFailure slots slot pending name cause).Only Request.IsReport fun _ => True := by
  unfold accountFailure
  simp only [goesOn, Bool.false_eq_true, ↓reduceIte, only_bind, only_clock]
  refine ⟨trivial, fun now => ?_⟩
  split
  next =>
    rw [only_bind, only_emit]
    exact ⟨trivial, reportFailure_reports _ _ _ _ _ _⟩
  next => exact reportFailure_reports _ _ _ _ _ _

end VirtualUser

theorem silent_of_isReport {x : Exchange} (report : x.request.IsReport) :
    x.abort? = none ∧ x.isClear = false := by
  obtain ⟨t, request, reply⟩ := x
  cases request with
  | emit e => exact ⟨rfl, rfl⟩
  | call c => cases c <;> first | exact ⟨rfl, rfl⟩ | exact report.elim

/-- The thread has asked to abort the run for the causes since a history, and has or has not been
told meanwhile that the run goes on. -/
def AsksSince (h : History) (causes : List AbortCause) (clear : Bool) (after : History) : Prop :=
  ∃ later, after = later ++ h ∧ later.filterMap Exchange.abort? = causes ∧
    later.any Exchange.isClear = clear

section

open Program

variable {σ : Type} {h after : History} {causes : List AbortCause} {clear : Bool}

theorem AsksSince.refl (h : History) : AsksSince h [] false h := ⟨[], rfl, rfl, rfl⟩

theorem AsksSince.report {x : Exchange} (asks : AsksSince h causes clear after)
    (report : x.request.IsReport) : AsksSince h causes clear (x :: after) := by
  obtain ⟨later, rfl, asked, told⟩ := asks
  obtain ⟨noAbort, unasked⟩ := silent_of_isReport report
  exact ⟨x :: later, rfl, by simp [noAbort, asked], by simp [unasked, told]⟩

theorem AsksSince.told (asks : AsksSince h causes clear after) (t : Stamp) (aborted : Bool) :
    AsksSince h causes (!aborted || clear) (⟨t, .call .isAborted, aborted⟩ :: after) := by
  obtain ⟨later, rfl, asked, told⟩ := asks
  exact ⟨_ :: later, rfl, asked, by rw [List.any_cons, told]; rfl⟩

theorem AsksSince.abort (asks : AsksSince h causes clear after) (t : Stamp) (cause : AbortCause)
    (first : Bool) :
    AsksSince h (cause :: causes) clear (⟨t, .call (.abort cause), first⟩ :: after) := by
  obtain ⟨later, rfl, asked, told⟩ := asks
  exact ⟨_ :: later, rfl, congrArg (cause :: ·) asked, told⟩

theorem asksSince_of_reports {p : Program (Stage σ)} (only : p.Only Request.IsReport fun _ => True)
    (asks : AsksSince h causes clear after) :
    p.Ensures (fun _ _ => True) (fun _ _ => True) (fun _ => AsksSince h causes clear) after :=
  (only.ensures (fun _ _ report _ asks => ⟨trivial, asks.report report⟩) asks).mono
    fun _ _ kept => kept.2

theorem fail_asks {u : VirtualUser σ} (operation : Nat) (name : String) (cause : ErrorChain)
    (asks : AsksSince h causes clear after) :
    (u.fail operation name cause).Ensures (fun _ _ => True) (fun _ _ => True)
      (fun _ => AsksSince h (⟨u.id, name, cause.fatalCause?.getD cause.display⟩ :: causes) clear)
      after := by
  simp only [VirtualUser.fail, ensures_bind, ensures_abort]
  refine fun t first _ => ⟨trivial, ?_⟩
  have asks := asks.abort t ⟨u.id, name, cause.fatalCause?.getD cause.display⟩ first
  cases first with
  | false => exact asksSince_of_reports (u.finish_reports _) asks
  | true =>
    simp only [↓reduceIte, ensures_bind, ensures_emit]
    exact fun t _ => ⟨trivial, asksSince_of_reports (u.finish_reports _) (asks.report trivial)⟩

/-- A thread whose handler has failed asks to abort the run if it still goes on and the innermost
layer of the failure says so. -/
theorem account_asks (u : VirtualUser σ) (slots : Slots) (slot : Slot) (pending : Pending)
    (operation : Operation) (e : ErrorChain) (h : History) :
    (u.account slots slot pending operation (.failed e)).Ensures (fun _ _ => True)
      (fun _ _ => True) (fun _ after => ∃ clear, AsksSince h
        (if clear && e.stopsRun then
          [⟨u.id, operation.name, e.fatalCause?.getD e.display⟩] else []) clear after) h := by
  simp only [VirtualUser.account, ensures_bind, ensures_emit, ensures_isAborted]
  refine fun t _ => ⟨trivial, fun t' aborted _ => ⟨trivial, ?_⟩⟩
  have returned := (AsksSince.refl h).report
    (x := ⟨t, .emit (.returned pending.operation u.timing), ()⟩) trivial
  have asks := returned.told t' aborted
  cases aborted with
  | true =>
    refine (asksSince_of_reports (u.finish_reports _) asks).mono ?_
    exact fun _ _ asks => ⟨false, asks⟩
  | false =>
    cases stops : e.stopsRun with
    | false =>
      have reports := u.accountFailure_reports slots slot pending operation.name stops
      exact (asksSince_of_reports reports asks).mono fun _ _ asks => ⟨true, asks⟩
    | true =>
      simp only [VirtualUser.accountFailure, stops, ↓reduceIte]
      exact (fail_asks _ _ _ asks).mono fun _ _ asks => ⟨true, asks⟩

/-- A mark of a failure is found exactly if no annotation holds the only one of its kind, and a
thread aborts the run for the marks that are found. -/
theorem marks_found_iff (e : ErrorChain) (u : VirtualUser σ) (slots : Slots) (slot : Slot)
    (pending : Pending) (operation : Operation) (h : History) :
    (e.fatalCause? = e.fatalMessages.head? ↔
      ∀ message, (e.annotations.filterMap Annotation.fatal?).head? = some message →
        e.root = .fatal message) ∧
    (e.isAborted = e.holdsAborted ↔ (.aborted ∈ e.annotations → e.root = .aborted)) ∧
    (e.stopsRun = e.isMarked ↔
      (e.annotations.any Annotation.isMarker → ∀ message, e.root ≠ .plain message)) ∧
    (u.account slots slot pending operation (.failed e)).Ensures (fun _ _ => True)
      (fun _ _ => True) (fun _ after => ∃ clear, AsksSince h
        (if clear && e.stopsRun then
          [⟨u.id, operation.name, e.fatalCause?.getD e.display⟩] else []) clear after) h :=
  ⟨e.fatalCause?_eq_head?_iff, e.isAborted_eq_holdsAborted_iff, e.stopsRun_eq_isMarked_iff,
    account_asks u slots slot pending operation e h⟩

example : (ErrorChain.annotated (.fatal "db gone") (.plain "timeout")).stopsRun = false := rfl

end

end LoadGen
