import LoadGen.Proofs.Continuation
import LoadGen.Run

namespace LoadGen

namespace RunPlan

variable {σ : Type} {p : RunPlan σ} {e : Ensemble (Stage σ)} {now : Stamp} {hs : Nat → History}

/-- A member begins as the thread of a virtual user or as the conducting one. -/
theorem begins_of_member {i : Nat} {m : Member (Stage σ)}
    (present : p.ensemble.members[i]? = some m) :
    m = .atStage (.starting i) ∨ m = .atStage .conducting := by
  simp only [ensemble, List.getElem?_toArray, List.getElem?_append, List.length_map,
    List.length_range, List.getElem?_map] at present
  split at present
  next inside =>
    rw [List.getElem?_range inside, Option.map_some, Option.some.injEq] at present
    exact Or.inl present.symm
  next => exact Or.inr (List.mem_singleton.mp (List.mem_of_getElem? present))

theorem member_of_lt (p : RunPlan σ) {id : Nat} (user : id < p.threads) :
    p.ensemble.members[id]? = some (.atStage (.starting id)) := by
  simp [ensemble, List.getElem?_append, user]

theorem member_threads (p : RunPlan σ) :
    p.ensemble.members[p.threads]? = some (.atStage .conducting) := by
  simp [ensemble]

theorem size_members (p : RunPlan σ) : p.ensemble.members.size = p.threads + 1 := by
  simp [ensemble]

theorem fresh (p : RunPlan σ) : Ensemble.Run.Fresh p.ensemble p.threads := by
  refine ⟨rfl, fun i m present => ?_⟩
  rcases begins_of_member present with rfl | rfl
  · exact ⟨_, rfl⟩
  · exact ⟨_, rfl⟩

theorem exists_member (run : Ensemble.Run p.follow p.ensemble now e hs) {i : Nat}
    (inside : i ≤ p.threads) : ∃ m, e.members[i]? = some m := by
  have size : i < e.members.size := by
    rw [run.size_members, p.size_members]
    omega
  exact ⟨_, Array.getElem?_eq_getElem size⟩

/-- An invariant of the stages that every program keeps holds throughout a run of the plan. -/
theorem ensures_of_run {env safe : Exchange → History → Prop} {i : Nat}
    (inv : Stage σ → History → Prop) (starting : inv (.starting i) [])
    (conducting : inv .conducting [])
    (keeps : ∀ stage next h, inv stage h → p.follow stage = some next →
      next.Ensures env safe inv h)
    (run : Ensemble.Run p.follow p.ensemble now e hs) (possible : (hs i).Each env) :
    (hs i).Each safe ∧ ∀ m, e.members[i]? = some m → m.thread.rest.Ensures env safe inv (hs i) := by
  cases present : e.members[i]? with
  | none =>
    rw [run.eq_nil_of_absent present]
    exact ⟨trivial, by simp⟩
  | some m =>
    obtain ⟨begun, began, course⟩ := run.course present
    have begins : begun.thread.rest.Ensures env safe inv [] := by
      rcases begins_of_member began with rfl | rfl
      · exact starting
      · exact conducting
    obtain ⟨kept, holds⟩ := course.ensures begins keeps possible
    exact ⟨kept, fun _ same => Option.some.inj same ▸ holds⟩

end RunPlan

end LoadGen
