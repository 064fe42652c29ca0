import LoadGen.Proofs.LoopOutline
import LoadGen.Proofs.TimingRecords

namespace LoadGen

open Program History

/-- The exchange is punctual, and tells no other start than the one that is fixed. -/
structure Faithful (fixed : Option Stamp) (x : Exchange) (older : History) : Prop
    extends Punctual x older where
  told : ∀ t, x.start? = some t → fixed = some t

/-- The thread has been told no other start than the one that is fixed. -/
def History.TellsOnly (fixed : Option Stamp) (h : History) : Prop :=
  ∀ start, told h = some start → fixed = some start

theorem Faithful.tellsOnly {fixed : Option Stamp} {x : Exchange} {h : History}
    (faithful : Faithful fixed x h) (tells : TellsOnly fixed h) : TellsOnly fixed (x :: h) := by
  intro start told
  cases new : x.start? with
  | none => exact tells start (told_cons_of_none new ▸ told)
  | some t => exact faithful.told start (new.trans ((told_cons_of_some new).symm.trans told))

theorem tellsOnly_of_faithful {fixed : Option Stamp} {h : History}
    (faithful : h.Each (Faithful fixed)) : TellsOnly fixed h := by
  induction h with
  | nil => exact fun _ told => nomatch told
  | cons x h ih => exact faithful.1.tellsOnly (ih faithful.2)

/-- What is to hold of the slots of a thread and of the record of an invocation that is intended for
a time; and what follows of them when the flag is found down after the invocation. -/
structure SampleInvariant where
  slot : Slot → History → Prop
  record : Stamp → Timing → History → Prop
  clearSlot : Slot → History → Prop
  clearRecord : Stamp → Timing → History → Prop

namespace SampleInvariant

/-- What holds of the slots of a thread and of the one whose invocation is made. -/
def Slots (I : SampleInvariant) (slots : LoadGen.Slots) (slot : Slot) (h : History) : Prop :=
  slots.All (I.slot · h) ∧ I.slot slot h

/-- What is known when the times of a failed invocation are repaired. -/
structure Failure (I : SampleInvariant) (intended : Stamp) (s : Slot) (r : Timing) (now : Stamp)
    (h : History) : Prop where
  slot : I.slot s h
  clearSlot : I.clearSlot s h
  clearRecord : I.clearRecord intended r h
  returned : returned h = some r
  reading : reading h = some now
  reached : Reached h now

/-- Every step of a thread keeps the invariant, and what it plans and reports under it is safe. -/
structure Sound {σ : Type} (I : SampleInvariant) (p : RunPlan σ) (fixed : Option Stamp)
    (safe : Exchange → History → Prop) : Prop where
  silent : ∀ {x h}, x.request.Silent → safe x h
  slot_cons : ∀ {s x h}, I.slot s h → I.slot s (x :: h)
  clearSlot_cons : ∀ {s x h}, I.clearSlot s h → I.clearSlot s (x :: h)
  clearRecord_cons : ∀ {intended r x h}, I.clearRecord intended r h →
    I.clearRecord intended r (x :: h)
  kept : ∀ intended, Timing.Kept (I.record intended)
  clears_slot : ∀ {s x h}, Timely x h → x.isClear → I.slot s h → I.clearSlot s (x :: h)
  clears_record : ∀ {intended r x h}, Timely x h → x.isClear → I.record intended r h →
    I.clearRecord intended r (x :: h)
  fresh_now : ∀ {selector background now h}, p.control.simultaneous = false → Reached h now →
    I.slot (.fresh selector background now) h
  fresh_start : ∀ {selector background start h}, p.control.simultaneous = true →
    fixed = some start → I.slot (.fresh selector background start) h
  reset : ∀ {s start offset now h}, fixed = some start → 0 ≤ offset →
    Stamp.plus start offset ≤ now → Reached h now → I.slot s h → I.slot (s.reset now) h
  plan : ∀ {s h} (r : ChaCha), I.slot s h → I.slot (s.plan p.workload r).1 h
  planned : ∀ {s pending delay x h}, I.slot s h → s.pending = some pending →
    x.event? = some (.planned s.background pending.operation pending.intended delay) → safe x h
  takes : ∀ {s h}, I.slot s h → I.slot { s with pending := none } h
  opens : ∀ {s pending h}, I.slot s h → s.pending = some pending →
    I.record pending.intended (.intendedAt pending.intended) h
  transaction : ∀ {intended s r record h}, I.slot s h → I.clearRecord intended r h →
    r.complete = (record, none) → I.slot (s.follow record) h ∧
      ∀ x operation phase, x.event? = some (.transaction (.ofTiming operation phase record)) →
        safe x h
  error : ∀ {intended s r now h} (rule : Timing.EarlyFailure), I.Failure intended s r now h →
    (r.repair now rule (s.previousStart, s.previousEnd)).2.skip = false →
      I.slot (s.follow (r.repair now rule (s.previousStart, s.previousEnd)).1) h ∧
      ∀ x operation phase, x.event? = some (.error
        (.ofTiming operation phase (r.repair now rule (s.previousStart, s.previousEnd)).1)) →
        safe x h

/-- What is known of an invocation while its handler may still run. -/
def Open (I : SampleInvariant) (slots : LoadGen.Slots) (i : Invocation) (h : History) : Prop :=
  I.record i.pending.intended i.record h ∧ I.Slots slots i.slot h

/-- What is known of an invocation once the flag has been found down after it. -/
structure Unaborted (I : SampleInvariant) (slots : LoadGen.Slots) (i : Invocation) (h : History) :
    Prop where
  clearRecord : I.clearRecord i.pending.intended i.record h
  clearSlot : I.clearSlot i.slot h
  slots : I.Slots slots i.slot h

/-- The invariant at the points of a loop whose thread is told no other start than the fixed one. -/
def outline (I : SampleInvariant) (fixed : Option Stamp) : Outline where
  unbegun := TellsOnly fixed
  resting l h := l.slots.All (I.slot · h) ∧ TellsOnly fixed h
  opening l i h := I.Open l.slots i h ∧ TellsOnly fixed h
  serving l i h := I.Open l.slots i h ∧ TellsOnly fixed h
  cleared l i h := I.Unaborted l.slots i h ∧ TellsOnly fixed h
  closing l i _ h := I.Slots l.slots (i.slot.follow i.record) h ∧ TellsOnly fixed h

namespace Sound

variable {σ : Type} {I : SampleInvariant} {p : RunPlan σ} {fixed : Option Stamp}
  {safe : Exchange → History → Prop} {slots : LoadGen.Slots} {slot : Slot} {i : Invocation}
  {h : History}

theorem slots_cons {x : Exchange} (sound : I.Sound p fixed safe) (held : I.Slots slots slot h) :
    I.Slots slots slot (x :: h) :=
  ⟨held.1.mono fun _ => sound.slot_cons, sound.slot_cons held.2⟩

theorem unaborted_cons {x : Exchange} (sound : I.Sound p fixed safe)
    (known : I.Unaborted slots i h) : I.Unaborted slots i (x :: h) where
  clearRecord := sound.clearRecord_cons known.clearRecord
  clearSlot := sound.clearSlot_cons known.clearSlot
  slots := sound.slots_cons known.slots

theorem open_tracked (sound : I.Sound p fixed safe) :
    Timing.Tracked (Faithful fixed) fun r h =>
      I.Open slots (i.withRecord r) h ∧ TellsOnly fixed h := by
  have kept := (sound.kept i.pending.intended).and (I.Slots slots i.slot) sound.slots_cons
  exact (kept.tracked Faithful.toPunctual).and _ fun _ faithful => faithful.tellsOnly

/-- The slots of a thread that comes into its loop. -/
theorem fresh {policy : Policy} {id : Nat} {now : Stamp} (sound : I.Sound p fixed safe)
    (prepares : p.control.Prepares policy h) (tells : TellsOnly fixed h) {h' : History}
    (reached : Reached h' now) : (p.loop id policy now).slots.All (I.slot · h') := by
  have reference := prepares.reference now
  refine Slots.all_fresh _ _ fun _ _ => ?_
  cases simultaneous : p.control.simultaneous with
  | false =>
    rw [simultaneous, if_neg Bool.false_ne_true, Option.some.injEq] at reference
    rw [← reference]
    exact sound.fresh_now simultaneous reached
  | true =>
    rw [if_pos simultaneous] at reference
    exact sound.fresh_start simultaneous (tells _ reference)

/-- What is planned is safe, since it belongs to slots that keep the invariant. -/
theorem plans {l : LoopState} (sound : I.Sound p fixed safe) (all : l.slots.All (I.slot · h))
    (tells : TellsOnly fixed h) :
    (VirtualUser.emitAll (l.slots.plan p.workload l.random).2.2).Ensures (Faithful fixed) safe
      (fun _ h => (l.plan p.workload).slots.All (I.slot · h) ∧ TellsOnly fixed h) h := by
  let keep : History → Prop := fun h => l.slots.All (I.slot · h) ∧ TellsOnly fixed h
  let kind : Request → Prop := fun request =>
    ∃ e ∈ (l.slots.plan p.workload l.random).2.2, request = .emit e
  have only : (VirtualUser.emitAll (l.slots.plan p.workload l.random).2.2).Only kind
      fun _ => True :=
    VirtualUser.emitAll_only fun e mem => ⟨e, mem, rfl⟩
  have step : ∀ x h, kind x.request → Faithful fixed x h → keep h → safe x h ∧ keep (x :: h) := by
    intro x h emits faithful kept
    obtain ⟨all, tells⟩ := kept
    refine ⟨?_, all.mono fun _ => sound.slot_cons, faithful.tellsOnly tells⟩
    obtain ⟨t, request, reply⟩ := x
    obtain ⟨e, mem, rfl⟩ := emits
    obtain ⟨s, pending, delay, own, has, rfl⟩ :=
      all.exists_of_mem_plan (fun s r => sound.plan r) mem
    exact sound.planned own has rfl
  refine (only.ensures step ⟨all, tells⟩).mono ?_
  intro _ h kept
  exact ⟨kept.2.1.plan p.workload l.random fun s r => sound.plan r, kept.2.2⟩

theorem failure {l : LoopState} {now : Stamp} (failed : (I.outline fixed).Failed l i now h) :
    I.Failure i.pending.intended i.slot i.record now h where
  slot := failed.cleared.1.slots.2
  clearSlot := failed.cleared.1.clearSlot
  clearRecord := failed.cleared.1.clearRecord
  returned := failed.returned
  reading := failed.reading
  reached := failed.reached

/-- A sound invariant is an outline of the loop. -/
theorem outlined (sound : I.Sound p fixed safe) (id : Nat) :
    (I.outline fixed).Sound p id (Faithful fixed) safe where
  punctual := Faithful.toPunctual
  mute mute := sound.silent mute.silent
  ends _ := sound.silent trivial
  unbegun_plain _ faithful tells := faithful.tellsOnly tells
  enters := by
    intro policy t now t' h prepares faithful tells
    have reached := reached_of_reading faithful.timely rfl
    exact ⟨sound.fresh prepares tells reached.cons, faithful.tellsOnly tells⟩
  resting_plain _ faithful rests :=
    ⟨rests.1.mono fun _ => sound.slot_cons, faithful.tellsOnly rests.2⟩
  notices faithful _ rests := ⟨rests.1.mono fun _ => sound.slot_cons, faithful.tellsOnly rests.2⟩
  resumes := by
    intro l t now h t' slept x y faithful rests
    obtain ⟨all, tells⟩ := rests
    obtain ⟨start, offset, told, nonneg, woken⟩ := slept.wakes.woken
    have reached := reached_of_reading faithful.timely rfl
    have late := woken.le faithful.timely rfl
    have all : l.slots.All (I.slot · (y :: x :: h)) :=
      all.mono fun _ own => sound.slot_cons (sound.slot_cons own)
    exact ⟨sound.silent trivial, all.reset fun s =>
      sound.reset (tells _ told) nonneg late reached.cons, faithful.tellsOnly tells⟩
  plans := by
    intro l h _ rests
    refine (sound.plans rests.1 rests.2).mono ?_
    intro _ h kept l' s pending has
    obtain ⟨all, tells⟩ := kept
    have own := sound.takes all.earliest
    exact ⟨⟨sound.opens all.earliest has, all.put own, own⟩, tells⟩
  stops _ _ := sound.silent trivial
  opening_tracked := sound.open_tracked
  calls := by
    intro l i t h _ faithful known
    obtain ⟨⟨record, held⟩, tells⟩ := known
    exact ⟨sound.silent trivial, ⟨(sound.kept _).cons record, sound.slots_cons held⟩,
      faithful.tellsOnly tells⟩
  serving_tracked := sound.open_tracked
  clears := by
    intro l i x h faithful clear known
    obtain ⟨⟨record, held⟩, tells⟩ := known
    exact ⟨⟨sound.clears_record faithful.timely clear record,
      sound.clears_slot faithful.timely clear held.2, sound.slots_cons held⟩,
      faithful.tellsOnly tells⟩
  cleared_plain _ faithful known := ⟨sound.unaborted_cons known.1, faithful.tellsOnly known.2⟩
  succeeds := by
    intro l i record result t h known completed _ i' x faithful
    obtain ⟨cleared, tells⟩ := known
    obtain ⟨followed, safe⟩ :=
      sound.transaction cleared.slots.2 cleared.clearRecord completed
    exact ⟨safe _ _ _ rfl, sound.slots_cons ⟨cleared.slots.1, followed⟩, faithful.tellsOnly tells⟩
  skips := by
    intro l i now t cause h failed _ _ x faithful
    obtain ⟨cleared, tells⟩ := failed.cleared
    have held := sound.slots_cons (x := x) cleared.slots
    exact ⟨sound.silent trivial, held.1.put held.2, faithful.tellsOnly tells⟩
  fails := by
    intro l i now cause result t h t' failed kept _ i' _ x y faithful
    obtain ⟨cleared, tells⟩ := failed.cleared
    obtain ⟨followed, safe⟩ := sound.error l.policy.earlyFailure (failure failed) kept
    exact ⟨safe _ _ _ rfl, sound.slots_cons (sound.slots_cons ⟨cleared.slots.1, followed⟩),
      faithful.tellsOnly tells⟩
  delays := by
    intro l i phase sample t h known _ _ x faithful
    have held := sound.slots_cons (x := x) known.1
    exact ⟨sound.silent trivial, held.1.put held.2, faithful.tellsOnly known.2⟩
  closes known := ⟨known.1.1.put known.1.2, known.2⟩

end Sound

variable {σ : Type} {I : SampleInvariant} {p : RunPlan σ} {e : Ensemble (Stage σ)} {now : Stamp}
  {hs : Nat → History}

theorem faithful_of_run (run : Ensemble.Run p.follow p.ensemble now e hs) (i : Nat) :
    (hs i).Each (Faithful e.signals.start) := by
  have told : (hs i).Each fun x _ => ∀ t, x.start? = some t → e.signals.start = some t :=
    each_of_mem fun x mem t => run.told_start p.fresh mem
  exact ((run.punctual p.fresh i).and told).mono fun _ _ both => ⟨both.1, both.2⟩

/-- In a run, all that the threads plan and report is safe. -/
theorem Sound.safe_of_run {safe : Exchange → History → Prop}
    (sound : I.Sound p e.signals.start safe)
    (run : Ensemble.Run p.follow p.ensemble now e hs) (i : Nat) : (hs i).Each safe := by
  exact ((sound.outlined i).of_run (fun _ told => nomatch told) run (faithful_of_run run i)).1

end SampleInvariant

end LoadGen
