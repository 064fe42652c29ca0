import LoadGen.Proofs.HandlerRecords
import LoadGen.Proofs.Playback
import LoadGen.Proofs.ResponseTimes

namespace LoadGen

open Program History

/-- A call of a handler that has come back: its answer, and the exchanges that it took. -/
structure Recording where
  call : ContextCall
  answer : call.Answer
  exchanges : History

namespace Recording

/-- The wait of the call was cancelled. -/
def cancelled : Recording → Bool
  | ⟨.recordTime, .cancelled, _⟩ | ⟨.recordStart, .cancelled, _⟩ => true
  | _ => false

/-- The call captures the invocation or its response, if it is timed by its handler. -/
def captures : Recording → Bool
  | ⟨.recordTime, .reached, _⟩ | ⟨.recordStart, .reached, _⟩ | ⟨.recordEnd, _, _⟩ => true
  | _ => false

/-- What the call does to the record of an invocation. -/
def effect (mode : TimingMode) (r : Timing) : Recording → Timing
  | ⟨.recordTime, .reached, h⟩ =>
    match mode, r.invoke with
    | .automatic, _ => r
    | .manual, none => { r with invoke := h.reading }
    | .manual, some _ => { r with respond := h.reading }
  | ⟨.recordStart, .reached, h⟩ =>
    match mode with
    | .automatic => r
    | .manual => { r with invoke := h.reading }
  | ⟨.recordEnd, _, h⟩ =>
    match mode with
    | .automatic => r
    | .manual => { r with respond := h.reading }
  | ⟨.recordLast, _, h⟩ => { r with lastRespond := h.reading }
  | ⟨.addPause length, _, _⟩ => r.addPause length
  | _ => r

/-- When the invocation was captured last. The call that captures either end captures the invocation
as long as nothing has. -/
def invoked : List Recording → Option Stamp
  | [] => none
  | ⟨.recordStart, .reached, h⟩ :: _ => h.reading
  | ⟨.recordTime, .reached, h⟩ :: older => invoked older <|> h.reading
  | _ :: older => invoked older

/-- When the response was captured last. -/
def responded : List Recording → Option Stamp
  | [] => none
  | ⟨.recordEnd, _, h⟩ :: _ => h.reading
  | ⟨.recordTime, .reached, h⟩ :: older =>
    if (invoked older).isSome then h.reading else responded older
  | _ :: older => responded older

/-- When an interim response was captured last. -/
def interim : List Recording → Option Stamp
  | [] => none
  | ⟨.recordLast, _, h⟩ :: _ => h.reading
  | _ :: older => interim older

def pauses : List Recording → List Stamp
  | [] => []
  | ⟨.addPause length, _, _⟩ :: older => length :: pauses older
  | _ :: older => pauses older

/-- The record of an invocation after these calls of its handler, the latest first. -/
def timing (mode : TimingMode) (intended : Stamp) (log : List Recording) : Timing where
  intended := some intended
  invoke := match mode with
    | .automatic => none
    | .manual => invoked log
  respond := match mode with
    | .automatic => none
    | .manual => responded log
  lastRespond := interim log
  pause := Stamp.total (pauses log)

theorem timing_cons (mode : TimingMode) (intended : Stamp) (x : Recording) (log : List Recording) :
    timing mode intended (x :: log) = x.effect mode (timing mode intended log) := by
  obtain ⟨call, answer, h⟩ := x
  cases call with
  | recordTime =>
    cases answer with
    | cancelled => rfl
    | reached =>
      cases mode with
      | automatic => rfl
      | manual =>
        cases begun : invoked log <;>
          simp [timing, effect, invoked, responded, interim, pauses, begun]
  | recordStart =>
    cases answer with
    | cancelled => rfl
    | reached => cases mode <;> rfl
  | recordEnd => cases mode <;> rfl
  | addPause length =>
    simp only [timing, effect, Timing.addPause, invoked, responded, interim, pauses,
      Stamp.total_cons]
  | _ => rfl

theorem effect_of_cancelled {x : Recording} (cancelled : x.cancelled) (mode : TimingMode)
    (r : Timing) : x.effect mode r = r := by
  obtain ⟨call, answer, h⟩ := x
  cases call with
  | recordTime | recordStart =>
    cases answer with
    | cancelled => rfl
    | reached => cases cancelled
  | _ => cases cancelled

theorem effect_automatic (x : Recording) (r : Timing) :
    (x.effect .automatic r).invoke = r.invoke ∧
      (x.effect .automatic r).respond = r.respond := by
  obtain ⟨call, answer, h⟩ := x
  cases call with
  | recordTime | recordStart => cases answer <;> exact ⟨rfl, rfl⟩
  | _ => exact ⟨rfl, rfl⟩

theorem effect_pause (x : Recording) (mode : TimingMode) {r : Timing}
    (word : r.pause ≤ Stamp.greatest) : r.pause ≤ (x.effect mode r).pause := by
  obtain ⟨call, answer, h⟩ := x
  cases call with
  | recordTime =>
    cases answer with
    | cancelled => exact le_rfl
    | reached => cases mode <;> cases begun : r.invoke <;> simp [effect, begun]
  | recordStart => cases answer <;> cases mode <;> exact le_rfl
  | recordEnd => cases mode <;> exact le_rfl
  | addPause length => exact Stamp.le_plus le_rfl word (le_max_right _ _)
  | _ => exact le_rfl

/-- The readings of the calls that were not cancelled, the latest first. -/
def times (log : List Recording) : List Stamp :=
  log.filterMap fun x => if x.cancelled then none else x.exchanges.reading

/-- Where nothing but `recordTime` is called, the first reading is that of the invocation, and the
latest one of all the others that of the response. -/
theorem captured_of_alone {log : List Recording} (alone : ∀ x ∈ log, x.call = .recordTime)
    (reads : ∀ x ∈ log, x.captures → x.exchanges.reading.isSome) :
    invoked log = (times log).getLast? ∧ responded log = (times log).dropLast.head? := by
  induction log with
  | nil => exact ⟨rfl, rfl⟩
  | cons x older ih =>
    obtain ⟨call, answer, h⟩ := x
    obtain ⟨same, others⟩ := List.forall_mem_cons.mp alone
    obtain ⟨read, reads⟩ := List.forall_mem_cons.mp reads
    obtain ⟨invoke, respond⟩ := ih others reads
    obtain rfl : call = .recordTime := same
    cases answer with
    | cancelled => exact ⟨invoke, respond⟩
    | reached =>
      obtain ⟨now, read⟩ := Option.isSome_iff_exists.mp (read rfl)
      have read : h.reading = some now := read
      have more : times (⟨.recordTime, .reached, h⟩ :: older) = now :: times older := by
        simp [times, cancelled, read]
      rw [more, invoked, responded, invoke, respond, read]
      cases times older with
      | nil => exact ⟨rfl, rfl⟩
      | cons t rest => simp [List.getLast?_cons]

end Recording

/-- The call has this effect on the record of the invocation. A capture has read the clock. -/
structure Context.Leaves (c : Context) (x : Recording) (d : Context) : Prop where
  mode : d.mode = c.mode
  timing : d.timing = x.effect c.mode c.timing
  reads : c.mode = .manual → x.captures → x.exchanges.reading.isSome

/-- A call that captures nothing need not read the clock. -/
theorem Context.Leaves.idle {c d : Context} {x : Recording} (mode : d.mode = c.mode)
    (timing : d.timing = x.effect c.mode c.timing) (idle : x.captures = false) : c.Leaves x d :=
  ⟨mode, timing, fun _ captures => absurd (idle.symm.trans captures) Bool.false_ne_true⟩

theorem recordStart_leaves (c : Context) :
    c.recordStart.Always fun result h => c.Leaves ⟨.recordStart, result.2, h⟩ result.1 := by
  have starts : ∀ {h : History} {now : Stamp}, c.mode = .manual → h.reading = some now →
      c.Leaves ⟨.recordStart, .reached, h⟩ { c with timing := c.timing.withInvoke now } := by
    intro h now manual read
    refine ⟨rfl, ?_, fun _ _ => read ▸ rfl⟩
    simp only [Recording.effect, manual, read]
    rfl
  unfold Context.recordStart
  cases manual : c.mode with
  | automatic => exact ⟨rfl, by simp only [Recording.effect, manual], by simp [manual]⟩
  | manual =>
    rw [manual] at starts
    cases c.timing.intended with
    | none =>
      simp only [Program.Always, ensures_bind, ensures_pure, ensures_clock]
      exact fun t now _ => ⟨trivial, starts rfl rfl⟩
    | some intended =>
      simp only [Program.Always, ensures_bind, ensures_sleepUntil]
      refine fun t wait _ => ⟨trivial, ?_⟩
      cases wait with
      | cancelled => exact .idle rfl rfl rfl
      | reached =>
        simp only [ensures_bind, ensures_pure, ensures_clock]
        exact fun t now _ => ⟨trivial, starts rfl rfl⟩

theorem recordEnd_leaves (c : Context) :
    c.recordEnd.Always fun d h => c.Leaves ⟨.recordEnd, (), h⟩ d := by
  unfold Context.recordEnd
  cases manual : c.mode with
  | automatic => exact ⟨rfl, by simp only [Recording.effect, manual], by simp [manual]⟩
  | manual =>
    simp only [Program.Always, ensures_bind, ensures_pure, ensures_clock]
    refine fun t now _ => ⟨trivial, manual.symm, ?_, fun _ _ => rfl⟩
    simp only [Recording.effect, manual]
    rfl

theorem recordTime_leaves (c : Context) :
    c.recordTime.Always fun result h => c.Leaves ⟨.recordTime, result.2, h⟩ result.1 := by
  unfold Context.recordTime
  cases begun : c.timing.invoke with
  | some invoke =>
    simp only [Option.isSome_some, if_true, Program.Always, ensures_bind, ensures_pure]
    refine (recordEnd_leaves c).mono fun d h leaves =>
      ⟨leaves.mode, leaves.timing.trans ?_, leaves.reads⟩
    cases mode : c.mode <;> simp [Recording.effect, begun]
  | none =>
    simp only [Option.isSome_none, Bool.false_eq_true, if_false]
    refine (recordStart_leaves c).mono ?_
    rintro ⟨d, wait⟩ h leaves
    cases wait with
    | cancelled => exact .idle leaves.mode leaves.timing rfl
    | reached =>
      refine ⟨leaves.mode, leaves.timing.trans ?_, leaves.reads⟩
      cases mode : c.mode <;> simp [Recording.effect, begun]

/-- Every call of a handler leaves the record as its effect says. -/
theorem perform_leaves (c : Context) (call : ContextCall) :
    (c.perform call).Always fun result h => c.Leaves ⟨call, result.2, h⟩ result.1 := by
  cases call with
  | recordTime => exact recordTime_leaves c
  | recordStart => exact recordStart_leaves c
  | recordEnd =>
    simp only [Context.perform, Program.Always, ensures_bind, ensures_pure]
    exact recordEnd_leaves c
  | recordLast =>
    simp only [Context.perform, Context.recordLast, Program.Always, ensures_bind, ensures_pure,
      ensures_clock]
    exact fun t now _ => ⟨trivial, .idle rfl rfl rfl⟩
  | addPause length => exact .idle rfl rfl rfl
  | isSteady | timing | names => exact .idle rfl rfl rfl
  | now | sleep _ | fixStart _ | abort _ | note _ =>
    exact fun t reply _ => ⟨trivial, .idle rfl rfl rfl⟩

theorem leaves_of_ends {c d : Context} {call : ContextCall} {answer : call.Answer} {h : History}
    (ends : (c.perform call).Ends h (d, answer)) : c.Leaves ⟨call, answer, h⟩ d :=
  ends.always (perform_leaves c call)

/-- The calls that lead from one context to another, the latest first. -/
inductive Recorded (first : Context) : List Recording → Context → Prop
  | start : Recorded first [] first
  | next {log : List Recording} {c d : Context} {call : ContextCall} {answer : call.Answer}
      {h : History} : Recorded first log c → (c.perform call).Ends h (d, answer) →
      Recorded first (⟨call, answer, h⟩ :: log) d

namespace Recorded

variable {first c d : Context} {log later : List Recording} {intended : Stamp}

theorem trans (recorded : Recorded first log c) (goesOn : Recorded c later d) :
    Recorded first (later ++ log) d := by
  induction goesOn with
  | start => exact recorded
  | next _ ends ih => exact ih.next ends

/-- Everything that a handler does is such calls. -/
theorem exists_of_run {σ : Type} {b : Behaviour σ} {h : History} {result : Context × σ × Ending}
    (ends : (b.run first).Ends h result) :
    ∃ log, Recorded first log result.1 ∧ log.flatMap Recording.exchanges = h := by
  induction b generalizing first h with
  | calls call next ih =>
    simp only [Behaviour.run, ends_bind] at ends
    obtain ⟨older, newer, ⟨c, answer⟩, rfl, performed, rest⟩ := ends
    obtain ⟨log, recorded, rfl⟩ := ih answer rest
    refine ⟨log ++ [⟨call, answer, older⟩], (start.next performed).trans recorded, ?_⟩
    rw [List.flatMap_append, List.flatMap_singleton]
  | _ =>
    simp only [Behaviour.run, ends_pure] at ends
    obtain ⟨rfl, rfl⟩ := ends
    exact ⟨[], .start, rfl⟩

theorem mode (recorded : Recorded first log d) : d.mode = first.mode := by
  induction recorded with
  | start => rfl
  | next _ ends ih => exact (leaves_of_ends ends).mode.trans ih

theorem timing (recorded : Recorded first log d) (begun : first.timing = .intendedAt intended) :
    d.timing = Recording.timing first.mode intended log := by
  induction recorded with
  | start =>
    rw [begun]
    cases first.mode <;> rfl
  | next recorded ends ih =>
    rw [(leaves_of_ends ends).timing, ih, recorded.mode, Recording.timing_cons]

theorem reads (recorded : Recorded first log d) (manual : first.mode = .manual) :
    ∀ x ∈ log, x.captures → x.exchanges.reading.isSome := by
  induction recorded with
  | start => simp
  | next recorded ends ih =>
    have read := (leaves_of_ends ends).reads (recorded.mode.trans manual)
    exact List.forall_mem_cons.mpr ⟨read, ih⟩

theorem automatic (recorded : Recorded first log d) (automatic : first.mode = .automatic) :
    d.timing.invoke = first.timing.invoke ∧ d.timing.respond = first.timing.respond := by
  induction recorded with
  | start => exact ⟨rfl, rfl⟩
  | @next log c d call answer h recorded ends ih =>
    have kept := Recording.effect_automatic ⟨call, answer, h⟩ c.timing
    rw [(leaves_of_ends ends).timing, recorded.mode, automatic]
    exact ⟨kept.1.trans ih.1, kept.2.trans ih.2⟩

theorem openedFor {before : History} (recorded : Recorded first log d)
    (opened : first.timing.OpenedFor intended)
    (punctual : Each Punctual (log.flatMap Recording.exchanges ++ before)) :
    d.timing.OpenedFor intended := by
  induction recorded with
  | start => exact opened
  | @next log c d call answer h recorded ends ih =>
    rw [List.flatMap_cons, List.append_assoc] at punctual
    have opened := ih (punctual.suffix (List.suffix_append _ _))
    have tracked : Timing.Tracked Punctual fun r _ => r.OpenedFor intended :=
      (Timing.OpenedFor.kept intended).tracked id
    exact ends.ensured (perform_keeps tracked id opened call) punctual

end Recorded

/-- Whatever a handler does is a sequence of calls. When its invocation is timed automatically, they
leave the captured invocation and response as they are; when it is timed by the handler, each
capture is a reading of the clock. A cancelled call leaves all of the record as it is, and none
makes the pause shorter. Of an invocation that has just begun, the record is determined by the
calls: it has the latest capture of each kind and the total of the pauses, and nothing from before.
In a run the captured invocation is never earlier than it was intended. -/
theorem timing_of_recordings (first : Context) :
    (∀ {σ : Type} (b : Behaviour σ) (h : History) (d : Context) (state : σ) (ending : Ending),
      (b.run first).Ends h (d, state, ending) →
        ∃ log, Recorded first log d ∧ log.flatMap Recording.exchanges = h) ∧
    ∀ (log : List Recording) (d : Context), Recorded first log d →
      (first.mode = .automatic →
        d.timing.invoke = first.timing.invoke ∧ d.timing.respond = first.timing.respond) ∧
      (first.mode = .manual → ∀ x ∈ log, x.captures → x.exchanges.reading.isSome) ∧
      (∀ (call : ContextCall) (answer : call.Answer) (h : History) (e : Context),
        (d.perform call).Ends h (e, answer) → (⟨call, answer, h⟩ : Recording).cancelled →
          e.timing = d.timing) ∧
      ∀ (c : Context) (operation : Nat) (mode : TimingMode) (intended : Stamp) (view : PhaseView),
        first = c.begin operation mode intended view →
          d.timing = Recording.timing mode intended log ∧
          (∀ (call : ContextCall) (answer : call.Answer) (h : History) (e : Context),
            (d.perform call).Ends h (e, answer) → d.timing.pause ≤ e.timing.pause) ∧
          (mode = .manual → (∀ x ∈ log, x.call = .recordTime) →
            d.timing.invoke = (Recording.times log).getLast? ∧
            d.timing.respond = (Recording.times log).dropLast.head?) ∧
          ∀ {α : Type} {follow : α → Option (Program α)} {begun e : Ensemble α} {now : Stamp}
            {hs : Nat → History} {threads i : Nat}, Ensemble.Run.Fresh begun threads →
            Ensemble.Run follow begun now e hs → log.flatMap Recording.exchanges <:+: hs i →
            ∀ invoke, d.timing.invoke = some invoke → intended ≤ invoke := by
  refine ⟨fun b h d state ending ends => Recorded.exists_of_run ends, fun log d recorded =>
    ⟨recorded.automatic, recorded.reads, fun call answer h e ends cancelled => ?_, ?_⟩⟩
  · rw [(leaves_of_ends ends).timing]
    exact Recording.effect_of_cancelled cancelled _ _
  · rintro c operation mode intended view rfl
    have timing := recorded.timing rfl
    refine ⟨timing, fun call answer h e ends => ?_, ?_, ?_⟩
    · have word : d.timing.pause ≤ Stamp.greatest := by
        rw [timing]
        exact (Stamp.fits_total _).2
      rw [(leaves_of_ends ends).timing]
      exact Recording.effect_pause _ _ word
    · rintro rfl alone
      rw [timing]
      exact Recording.captured_of_alone alone (recorded.reads rfl)
    · intro α follow begun e now hs threads i fresh run part
      obtain ⟨before, after, split⟩ := part
      have punctual := run.punctual fresh i
      rw [← split, List.append_assoc] at punctual
      exact (recorded.openedFor (.of_intendedAt intended)
        (punctual.suffix (List.suffix_append _ _))).begins

/-- A handler that captures both ends of its invocation and then takes 3 nanoseconds out of it. -/
def Behaviour.pausing : Behaviour Unit :=
  .calls .recordTime fun _ => .calls .recordTime fun _ => .calls (.addPause 3) fun _ => .succeeds ()

/-- The invocation of that handler, which is intended for 5 nanoseconds after the epoch. -/
def Context.pausing : Context :=
  (fresh 0 "" [] (.time none)).begin 0 .manual 5 (.time none)

/-- A thread that does nothing but run that handler. -/
def Ensemble.pausing : Ensemble (Context × Unit × Ending) :=
  ⟨.fresh 1, #[.ofProgram (Behaviour.pausing.run Context.pausing)]⟩

theorem Ensemble.fresh_pausing : Ensemble.Run.Fresh Ensemble.pausing 1 := by
  refine ⟨rfl, fun i m present => ?_⟩
  cases i with
  | zero =>
    cases present
    exact ⟨_, rfl⟩
  | succ i => cases present

/-- The handler sleeps until 5 nanoseconds, and finds the clock at 7 and then at 9. -/
theorem timing_of_recordings_pausing : ∃ (log : List Recording) (d : Context) (now : Stamp)
    (e : Ensemble (Context × Unit × Ending)) (hs : Nat → History),
    Ensemble.Run (fun _ => none) Ensemble.pausing now e hs ∧ Recorded Context.pausing log d ∧
    log.flatMap Recording.exchanges = hs 0 ∧
    d.timing = ⟨some 5, some 7, some 9, none, 3⟩ ∧ (5 : Stamp) ≤ 7 := by
  let order : List (Stamp × Nat) := [(0, 0), (0, 0), (5, 0), (6, 0), (6, 0), (7, 0), (9, 0)]
  let timed (r : Timing) : Context := { Context.pausing with timing := r }
  let slept : Exchange := ⟨6, .call (.sleepUntil 5), Wait.reached⟩
  let read (t : Stamp) : Exchange := ⟨t, .call .clock, t⟩
  have begins : (Context.pausing.perform .recordTime).Ends ([] ++ [read 7] ++ [slept])
      (timed ⟨some 5, some 7, none, none, 0⟩, Wait.reached) := .ask 6 _ (.ask 7 _ (.done _))
  have responds : ((timed ⟨some 5, some 7, none, none, 0⟩).perform .recordTime).Ends
      ([] ++ [read 9]) (timed ⟨some 5, some 7, some 9, none, 0⟩, Wait.reached) := .ask 9 _ (.done _)
  have pauses : ((timed ⟨some 5, some 7, some 9, none, 0⟩).perform (.addPause 3)).Ends []
      (timed ⟨some 5, some 7, some 9, none, 3⟩, ()) := .done _
  have recorded := ((Recorded.start.next begins).next responds).next pauses
  obtain ⟨e, hs, played, same⟩ : ∃ e hs, Ensemble.Run.play (fun _ => none) order 0 Ensemble.pausing
    (fun _ => []) = some (e, hs) ∧ hs 0 = [read 9, read 7, slept] := ⟨_, _, rfl, rfl⟩
  obtain ⟨now, run⟩ := Ensemble.Run.of_play (.start 0) played
  obtain ⟨-, -, -, begun⟩ := (timing_of_recordings Context.pausing).2 _ _ recorded
  obtain ⟨timing, -, -, due⟩ := begun (.fresh 0 "" [] (.time none)) 0 .manual 5 (.time none) rfl
  have part : [read 9, read 7, slept] <:+: hs 0 := same ▸ List.infix_rfl
  exact ⟨_, _, now, e, hs, run, recorded, same.symm, timing,
    due Ensemble.fresh_pausing run part 7 rfl⟩

end LoadGen
