import LoadGen.Proofs.PendingInvocations
import LoadGen.Proofs.Playback

namespace LoadGen

open Program History

namespace Exchange

/-- Whether a handler has been called for the slot. -/
def callsFor (b : Bool) (x : Exchange) : Bool :=
  match x.event? with
  | some (.called background ..) => background == b
  | _ => false

end Exchange

namespace History

/-- How many handlers have been called for a slot. -/
def callCount (b : Bool) : History → Nat
  | [] => 0
  | x :: h => callCount b h + (x.callsFor b).toNat

/-- How many invocations of a slot have been dropped: those that were pending when the thread was
resumed. -/
def dropCount (b : Bool) : History → Nat
  | [] => 0
  | x :: h => dropCount b h + (x.resumes && (pending b h).isSome).toNat

end History

/-- Every operation that has been picked for the slot has been called or dropped, or is pending. In
a fixed sequence, what is pending is the operation that follows those before it. -/
structure Accounted {σ : Type} (w : Workload σ) (b : Bool) (h : History) : Prop where
  picks : picks b h = callCount b h + dropCount b h + (pending b h).isSome.toNat
  next : ∀ m operation t, w.mixOf b = some m → m.choice = .sequence →
    pending b h = some (operation, t) →
      operation = m.operations.getD ((callCount b h + dropCount b h) % m.operations.length) 0

namespace Accounted

variable {σ : Type} {p : RunPlan σ} {w : Workload σ} {fixed : Option Stamp} {b : Bool}
  {x : Exchange} {h : History}

theorem of_same (accounted : Accounted w b h) (pending : pending b (x :: h) = pending b h)
    (picked : x.picks b = false) (called : x.callsFor b = false) (resumed : x.resumes = false) :
    Accounted w b (x :: h) := by
  have picks : History.picks b (x :: h) = History.picks b h := by simp [History.picks, picked]
  have calls : callCount b (x :: h) = callCount b h := by simp [callCount, called]
  have drops : dropCount b (x :: h) = dropCount b h := by simp [dropCount, resumed]
  constructor
  · rw [picks, calls, drops, pending]
    exact accounted.picks
  · rw [calls, drops, pending]
    exact accounted.next

theorem plain (accounted : Accounted w b h) (plain : x.request.Plain) :
    Accounted w b (x :: h) := by
  obtain ⟨t, request, reply⟩ := x
  cases request with
  | call c => exact accounted.of_same rfl rfl rfl rfl
  | emit e => cases e <;> first | exact accounted.of_same rfl rfl rfl rfl | cases plain

/-- A slot plans what follows, and only when nothing is pending in it. -/
theorem planned (accounted : Accounted p.workload b h) {side : Bool} {t : Stamp} {operation : Nat}
    {intended delay : Stamp}
    (booked : Booked p fixed ⟨t, .emit (.planned side operation intended delay), ()⟩ h) :
    Accounted p.workload b (⟨t, .emit (.planned side operation intended delay), ()⟩ :: h) := by
  obtain ⟨idle, follows⟩ := booked
  by_cases own : side = b
  · subst own
    have picks := accounted.picks
    simp only [idle, Option.isSome_none, Bool.toNat_false, Nat.add_zero] at picks
    have new : History.pending side
        (⟨t, .emit (.planned side operation intended delay), ()⟩ :: h) =
          some (operation, intended) := if_pos rfl
    have one : History.picks side
        (⟨t, .emit (.planned side operation intended delay), ()⟩ :: h) =
          History.picks side h + 1 :=
      congrArg (History.picks side h + ·.toNat) (beq_self_eq_true side)
    constructor
    · rw [new]
      exact one.trans (congrArg (· + 1) picks)
    · intro m operation' t' mix sequence planned
      obtain ⟨rfl, rfl⟩ := Prod.mk.inj (Option.some.inj (new.symm.trans planned))
      exact picks ▸ follows m mix sequence
  · have other : (side == b) = false := by simp [own]
    exact accounted.of_same (if_neg own) other rfl rfl

/-- The invocation whose handler is called has been pending. -/
theorem called (accounted : Accounted w b h) {side : Bool} {t : Stamp} {operation : Nat}
    {intended : Stamp} (due : Due w side operation intended h) :
    Accounted w b (⟨t, .emit (.called side operation intended), ()⟩ :: h) := by
  by_cases own : side = b
  · subst own
    have idle : History.pending side (⟨t, .emit (.called side operation intended), ()⟩ :: h) =
        none := if_pos rfl
    have calls : callCount side (⟨t, .emit (.called side operation intended), ()⟩ :: h) =
        callCount side h + 1 := congrArg (callCount side h + ·.toNat) (beq_self_eq_true side)
    have picks := accounted.picks
    rw [due.own] at picks
    refine ⟨?_, by simp [idle]⟩
    rw [idle, calls]
    exact picks.trans (Nat.add_right_comm _ _ _)
  · have other : (side == b) = false := by simp [own]
    exact accounted.of_same (if_neg own) rfl other rfl

/-- What was pending has been dropped. -/
theorem resumed (accounted : Accounted w b h) (t : Stamp) :
    Accounted w b (⟨t, .emit .resumed, ()⟩ :: h) := by
  have idle : History.pending b (⟨t, .emit .resumed, ()⟩ :: h) = none := rfl
  exact ⟨accounted.picks.trans (Nat.add_assoc _ _ _), by simp [idle]⟩

end Accounted

section Histories

variable {σ : Type} {p : RunPlan σ} {fixed : Option Stamp} {h : History}

theorem accounted_of_booked (booked : h.Each (Booked p fixed)) (b : Bool) :
    Accounted p.workload b h := by
  induction h with
  | nil => exact ⟨rfl, nofun⟩
  | cons x h ih =>
    have accounted := ih booked.2
    obtain ⟨t, request, reply⟩ := x
    cases request with
    | call c => exact accounted.plain trivial
    | emit e =>
      cases e with
      | planned => exact accounted.planned booked.1
      | called => exact accounted.called booked.1
      | resumed => exact accounted.resumed t
      | _ => exact accounted.of_same rfl rfl rfl rfl

/-- Under a constant load no thread is ever resumed. -/
theorem dropCount_of_booked (booked : h.Each (Booked p fixed)) (constant : p.control.load = none)
    (b : Bool) : dropCount b h = 0 := by
  induction h with
  | nil => rfl
  | cons x h ih =>
    have unresumed : x.resumes = false := by
      cases resumes : x.resumes with
      | false => rfl
      | true =>
        obtain ⟨t, request, reply⟩ := x
        cases request with
        | call c => cases resumes
        | emit e =>
          cases e <;> cases resumes
          have load : p.control.load.isSome := booked.1
          simp [constant] at load
    simp [dropCount, ih booked.2, unresumed]

end Histories

/-- A fixed sequence runs in its order, but for what is dropped: when a handler is called for a slot
whose mix is a sequence, its operation is the one that follows all those that have been called or
dropped for the slot before. Without a load schedule nothing is dropped, and the calls are the
sequence over and over. -/
theorem sequence_in_order_but_for_drops {σ : Type} (p : RunPlan σ) {now : Stamp}
    {e : Ensemble (Stage σ)} {hs : Nat → History}
    (run : Ensemble.Run p.follow p.ensemble now e hs) (i : Nat) (b : Bool) (m : Mix)
    (mix : p.workload.mixOf b = some m) (sequence : m.choice = .sequence)
    (inhabited : m.operations ≠ []) :
    ∀ x (older : History) operation intended, x :: older <:+ hs i →
      x.event? = some (.called b operation intended) →
        m.operations[(callCount b older + dropCount b older) % m.operations.length]? =
          some operation ∧
        (p.control.load = none → dropCount b older = 0) := by
  intro x older operation intended part called
  have booked := booked_of_run run i
  have before := booked.suffix ((List.suffix_cons x older).trans part)
  have due := (each_iff_suffix.mp booked x older part).due called
  have next := (accounted_of_booked before b).next m operation intended mix sequence due.own
  have within := Nat.mod_lt (callCount b older + dropCount b older)
    (List.length_pos_iff.mpr inhabited)
  refine ⟨?_, fun constant => dropCount_of_booked before constant b⟩
  rw [next, List.getD_eq_getElem?_getD, List.getElem?_eq_getElem within, Option.getD_some]

/-- The second operation in the background is picked before the pause and dropped after it, so that
the second call in the background is of the first one again. -/
theorem sequence_in_order_but_for_drops_besidePausing : ∃ now e hs x older,
    Ensemble.Run RunPlan.besidePausing.follow RunPlan.besidePausing.ensemble now e hs ∧
      hs 0 = x :: older ∧ x.event? = some (.called true 1 120) ∧ callCount true older = 1 ∧
      dropCount true older = 1 ∧
      [1, 2][(callCount true older + dropCount true older) % 2]? = some 1 := by
  let order : List (Stamp × Nat) := List.replicate 13 (0, 0) ++ List.replicate 10 (0, 1) ++
    List.replicate 41 (0, 0) ++ List.replicate 19 (80, 0) ++ List.replicate 33 (120, 0)
  have passed : Ensemble.Run.reached (fun _ hs => decide (
      (hs 0).head?.bind Exchange.event? = some (.called true 1 120) ∧
        callCount true (hs 0).tail = 1 ∧ dropCount true (hs 0).tail = 1))
      (Ensemble.Run.play RunPlan.besidePausing.follow order 0 RunPlan.besidePausing.ensemble
        fun _ => []) = true := by
    decide +kernel
  obtain ⟨now, e, hs, run, passed⟩ := Ensemble.Run.exists_of_reached passed
  obtain ⟨last, calls, drops⟩ := of_decide_eq_true passed
  obtain ⟨x, latest, called⟩ := Option.bind_eq_some_iff.mp last
  obtain ⟨older, split⟩ := List.head?_eq_some_iff.mp latest
  rw [split] at calls drops
  have follows := sequence_in_order_but_for_drops RunPlan.besidePausing run 0 true
    ⟨[1, 2], .sequence, Mix.defaultDeviation⟩ rfl rfl (by decide) x older 1 120
    (split ▸ List.suffix_rfl) called
  exact ⟨now, e, hs, x, older, run, split, called, calls, drops, follows.1⟩

end LoadGen
