import LoadGen.Program

namespace LoadGen

/-- A request with its reply and the clock reading at which it was answered. -/
structure Exchange where
  time : Stamp
  request : Request
  reply : request.Reply

namespace Exchange

/-- The event that the thread has emitted, if the request was to emit one. -/
def event? (x : Exchange) : Option Event :=
  match x.request with
  | .emit e => some e
  | .call _ => none

/-- The start time, if the thread has just been told it. -/
def start? : Exchange → Option Stamp
  | ⟨_, .call .startTime, start⟩ => start
  | ⟨_, .call .awaitStart, start⟩ => start
  | _ => none

/-- Whether the thread has just found that the run is not aborted. -/
def isClear : Exchange → Bool
  | ⟨_, .call .isAborted, aborted⟩ => !aborted
  | _ => false

@[simp] theorem event?_emit (t : Stamp) (e : Event) (reply : (Request.emit e).Reply) :
    event? ⟨t, .emit e, reply⟩ = some e := rfl

@[simp] theorem event?_call (t : Stamp) (c : Call) (reply : (Request.call c).Reply) :
    event? ⟨t, .call c, reply⟩ = none := rfl

theorem eq_of_event {x : Exchange} {e : Event} (emitted : x.event? = some e) :
    x = ⟨x.time, .emit e, ()⟩ := by
  obtain ⟨t, request, reply⟩ := x
  cases request with
  | call c => cases emitted
  | emit e =>
    cases emitted
    rfl

end Exchange

/-- The exchanges of a thread so far. The latest one comes first. -/
abbrev History := List Exchange

namespace History

/-- Every exchange stands in a relation to what was before it. -/
def Each (P : Exchange → History → Prop) : History → Prop
  | [] => True
  | x :: h => P x h ∧ Each P h

variable {P Q : Exchange → History → Prop} {h : History}

@[simp] theorem each_cons {x : Exchange} : Each P (x :: h) ↔ P x h ∧ Each P h := Iff.rfl

theorem Each.mono (holds : Each P h) (imp : ∀ x older, P x older → Q x older) : Each Q h := by
  induction h with
  | nil => trivial
  | cons x older ih => exact ⟨imp x older holds.1, ih holds.2⟩

theorem Each.and (left : Each P h) (right : Each Q h) :
    Each (fun x older => P x older ∧ Q x older) h := by
  induction h with
  | nil => trivial
  | cons x older ih => exact ⟨⟨left.1, right.1⟩, ih left.2 right.2⟩

theorem each_iff_suffix : Each P h ↔ ∀ x older, x :: older <:+ h → P x older := by
  induction h with
  | nil => simp [Each]
  | cons y h ih =>
    simp only [each_cons, ih, List.suffix_cons_iff]
    constructor
    · intro both x older part
      obtain ⟨head, tail⟩ := both
      rcases part with same | within
      · obtain ⟨rfl, rfl⟩ := List.cons.inj same
        exact head
      · exact tail x older within
    · intro all
      exact ⟨all y h (Or.inl rfl), fun x older within => all x older (Or.inr within)⟩

theorem Each.suffix {older : History} (each : Each P h) (part : older <:+ h) : Each P older :=
  each_iff_suffix.mpr fun x h within => each_iff_suffix.mp each x h (within.trans part)

theorem Each.exists_of_mem {x : Exchange} (each : Each P h) (mem : x ∈ h) :
    ∃ older, x :: older <:+ h ∧ P x older := by
  obtain ⟨new, older, same⟩ := List.append_of_mem mem
  have part : x :: older <:+ h := ⟨new, same.symm⟩
  exact ⟨older, part, each_iff_suffix.mp each x older part⟩

theorem each_of_mem {R : Exchange → Prop} (all : ∀ x ∈ h, R x) : Each (fun x _ => R x) h := by
  induction h with
  | nil => trivial
  | cons x older ih =>
    exact ⟨all x (by simp), ih fun y mem => all y (List.mem_cons_of_mem x mem)⟩

/-- Whether the thread has been told the start time. -/
def SeesStart (h : History) : Prop := ∃ x ∈ h, x.start?.isSome

end History

end LoadGen
