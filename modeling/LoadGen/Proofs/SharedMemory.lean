import LoadGen.Proofs.AbortSignal
import LoadGen.Proofs.ClockReadings
import LoadGen.Proofs.StartSignal

namespace LoadGen

namespace Ensemble.Run

variable {α : Type} {follow : α → Option (Program α)} {first e : Ensemble α} {now : Stamp}
  {hs : Nat → History} {threads : Nat}

/-- The members begin outside of calls, over the memory of a run that has not begun. -/
structure Fresh (first : Ensemble α) (threads : Nat) : Prop where
  signals : first.signals = Signals.fresh threads
  idle : ∀ (i : Nat) (m : Member α), first.members[i]? = some m → ∃ p, m.thread = .between p

theorem Fresh.kept (fresh : Fresh first threads) {P : Protocol}
    (begins : ∀ t, P.good t (Signals.fresh threads)) (run : Run follow first now e hs) :
    P.Kept now e hs := by
  refine Protocol.kept_of_run (fun t => fresh.signals ▸ begins t) (fun i m present => ?_) run
  obtain ⟨p, idle⟩ := fresh.idle i m present
  rw [idle]
  trivial

theorem told_start (fresh : Fresh first threads) (run : Run follow first now e hs) {i : Nat}
    {x : Exchange} (mem : x ∈ hs i) {t : Stamp} (told : x.start? = some t) :
    e.signals.start = some t := by
  have kept := fresh.kept (P := Protocol.start) (fun _ raised => by cases raised) run
  exact kept.said i x mem t told

theorem told_fixed (fresh : Fresh first threads) (run : Run follow first now e hs) {start : Stamp}
    (fixed : e.signals.start = some start) {i : Nat} {x : Exchange} (mem : x ∈ hs i) (t : Stamp)
    (told : x.start? = some t) : t = start := by
  have same := run.told_start fresh mem told
  rw [fixed, Option.some.injEq] at same
  exact same.symm

/-- Every thread that has found the flag down did so no later than the abort. -/
theorem clear_before_abort (fresh : Fresh first threads) (run : Run follow first now e hs)
    {i : Nat} {x : Exchange} (mem : x ∈ hs i) (clear : x.isClear) {t : Stamp}
    (dated : e.signals.abortTime = some t) : x.time ≤ t := by
  have kept := fresh.kept (P := Protocol.abort) (fun _ _ dated => by cases dated) run
  exact (kept.said i x mem).2 clear t dated

/-- Every thread that has been woken for a time sees the clock show that time. -/
theorem slept (fresh : Fresh first threads) (run : Run follow first now e hs) {i : Nat}
    {x : Exchange} (mem : x ∈ hs i) {t : Stamp} (slept : x.slept? = some t) : t ≤ x.time := by
  have kept := fresh.kept (P := Protocol.sleep) (fun _ => trivial) run
  exact kept.said i x mem t slept

theorem timely (fresh : Fresh first threads) (run : Run follow first now e hs) (i : Nat) :
    (hs i).Each Timely := by
  induction run with
  | start => trivial
  | wait _ _ ih => exact ih
  | @step t e e' hs j run stepped ih =>
    by_cases same : i = j
    · subst same
      -- What was exchanged before this step lies in the past, and the new exchange in the present.
      have before := fresh.kept (P := Protocol.clock) (fun _ => trivial) run
      have after := fresh.kept (P := Protocol.clock) (fun _ => trivial) (run.step i stepped)
      obtain ⟨_, _, _, _, _, takes⟩ := exists_of_step stepped
      cases done : e.exchange? i t with
      | none =>
        rw [record_self, done]
        exact ih
      | some x =>
        have grown : e.record hs i t i = x :: hs i := by rw [record_self, done]; rfl
        rw [grown]
        rw [done] at takes
        refine ⟨⟨(after.said i x (by simp [grown])).2, fun y mem => ?_⟩, ih⟩
        exact takes.time ▸ (before.said i y mem).1
    · rwa [record_of_ne same]

theorem punctual (fresh : Fresh first threads) (run : Run follow first now e hs) (i : Nat) :
    (hs i).Each Punctual :=
  ((run.timely fresh i).and (History.each_of_mem fun _ mem _ => run.slept fresh mem)).mono
    fun _ _ both => ⟨both.1, both.2⟩

end Ensemble.Run

end LoadGen
