import LoadGen.Proofs.SharedMemory

namespace LoadGen

namespace Ensemble

variable {α : Type} {follow : α → Option (Program α)} {first e e' : Ensemble α} {t t' : Stamp}
  {hs hs' : Nat → History} {threads : Nat}

/-- The states that a run can come to from one of its states. -/
inductive Continues (follow : α → Option (Program α)) (t : Stamp) (e : Ensemble α)
    (hs : Nat → History) : Stamp → Ensemble α → (Nat → History) → Prop
  | refl : Continues follow t e hs t e hs
  | wait {now later : Stamp} {e' : Ensemble α} {hs' : Nat → History} :
      Continues follow t e hs now e' hs' → now ≤ later → Continues follow t e hs later e' hs'
  | step {now : Stamp} {e' e'' : Ensemble α} {hs' : Nat → History} (i : Nat) :
      Continues follow t e hs now e' hs' → e'.step follow i now = some e'' →
      Continues follow t e hs now e'' (e'.record hs' i now)

/-- What one step of a member does, with the exchange it completes. -/
structure Stepped (follow : α → Option (Program α)) (i : Nat) (t : Stamp) (e : Ensemble α)
    (m m' : Member α) (s' : Signals) (x : Option Exchange) : Prop where
  present : e.members[i]? = some m
  takes : Member.Takes follow i t e.signals m s' m' x
  completes : e.exchange? i t = x

theorem record_eq {i : Nat} {x : Option Exchange} (completes : e.exchange? i t = x) (j : Nat) :
    e.record hs i t j = if j = i then x.toList ++ hs i else hs j := by
  by_cases same : j = i
  · subst same
    rw [if_pos rfl, record_self, completes]
  · rw [if_neg same, record_of_ne same]

@[simp] theorem size_withMember {i : Nat} {s' : Signals} {m' : Member α} :
    (e.withMember i s' m').members.size = e.members.size :=
  Array.size_setIfInBounds

theorem Run.exists_stepped {i : Nat} (stepped : e.step follow i t = some e') :
    ∃ m m' s' x, Stepped follow i t e m m' s' x ∧ e' = e.withMember i s' m' := by
  obtain ⟨m, m', s', present, same, takes⟩ := exists_of_step stepped
  exact ⟨m, m', s', _, ⟨present, takes, rfl⟩, same⟩

theorem Run.size_members (run : Run follow first t e hs) :
    e.members.size = first.members.size := by
  induction run with
  | start => rfl
  | wait _ _ ih => exact ih
  | step i _ stepped ih =>
    obtain ⟨m, m', s', x, -, rfl⟩ := exists_stepped stepped
    rw [size_withMember, ih]

theorem Run.continued (run : Run follow first t e hs) (goes : Continues follow t e hs t' e' hs') :
    Run follow first t' e' hs' := by
  induction goes with
  | refl => exact run
  | wait _ later ih => exact ih.wait later
  | step i _ stepped ih => exact ih.step i stepped

/-- What every step keeps and tells from a state on. -/
theorem Run.holds_on {P : Stamp → Ensemble α → (Nat → History) → Prop} {R : Exchange → Prop}
    (run : Run follow first t e hs) (now : P t e hs)
    (waits : ∀ {t later e hs}, P t e hs → t ≤ later → P later e hs)
    (steps : ∀ {t e hs i m m' s' x}, Run follow first t e hs → P t e hs →
      Stepped follow i t e m m' s' x →
      P t (e.withMember i s' m') (e.record hs i t) ∧ ∀ y ∈ x, R y)
    (goes : Continues follow t e hs t' e' hs') :
    P t' e' hs' ∧ ∀ i, ∃ new, hs' i = new ++ hs i ∧ ∀ x ∈ new, R x := by
  induction goes with
  | refl => exact ⟨now, fun i => ⟨[], rfl, by simp⟩⟩
  | wait _ later ih => exact ⟨waits ih.1 later, ih.2⟩
  | @step now e' e'' hs' i goes stepped ih =>
    obtain ⟨holds, said⟩ := ih
    obtain ⟨m, m', s', x, taken, rfl⟩ := exists_stepped stepped
    obtain ⟨after, tells⟩ := steps (run.continued goes) holds taken
    refine ⟨after, fun j => ?_⟩
    obtain ⟨new, grown, earlier⟩ := said j
    rw [record_eq taken.completes]
    by_cases same : j = i
    · subst same
      refine ⟨x.toList ++ new, by rw [if_pos rfl, grown, List.append_assoc], fun y mem => ?_⟩
      rcases List.mem_append.mp mem with latest | old
      · exact tells y (Option.mem_toList.mp latest)
      · exact earlier y old
    · exact ⟨new, by rw [if_neg same, grown], earlier⟩

/-- What holds of every exchange when it is completed, in view of the history before it. -/
theorem Run.each_of_step {R : Exchange → History → Prop} (run : Run follow first t e hs)
    (steps : ∀ {t e hs i m m' s' x}, Run follow first t e hs →
      Stepped follow i t e m m' s' (some x) → R x (hs i)) (i : Nat) : (hs i).Each R := by
  induction run with
  | start => trivial
  | wait _ _ ih => exact ih
  | @step t e e' hs j run stepped ih =>
    obtain ⟨m, m', s', x, taken, rfl⟩ := exists_stepped stepped
    rw [record_eq taken.completes]
    by_cases same : i = j
    · subst same
      rw [if_pos rfl]
      cases x with
      | none => exact ih
      | some x => exact ⟨steps run taken, ih⟩
    · rwa [if_neg same]

end Ensemble

end LoadGen
