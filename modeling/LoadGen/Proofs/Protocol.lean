import LoadGen.Proofs.EnsembleRun

namespace LoadGen

variable {α : Type}

/-- An agreement about the shared memory that every step keeps: what is true of the memory at a
clock reading, of a thread within a call, and of the exchanges so far. -/
structure Protocol where
  good : Stamp → Signals → Prop
  place : Signals → (c : Call) → c.Point → Prop
  said : Stamp → Signals → Exchange → Prop
  grows : Stamp → Signals → Signals → Prop
  good_later : ∀ {now later s}, good now s → now ≤ later → good later s
  said_later : ∀ {now later s x}, said now s x → now ≤ later → said later s x
  place_grows : ∀ {now s s' c point}, grows now s s' → place s c point → place s' c point
  said_grows : ∀ {now s s' x}, grows now s s' → said now s x → said now s' x
  entry : ∀ {now s c}, good now s → place s c c.entry
  emit : ∀ {now s e}, good now s → said now s ⟨now, .emit e, ()⟩
  move : ∀ {me now s s'} {c : Call} {point point' : c.Point}, good now s → place s c point →
    c.Moves me now s s' point point' → grows now s s' ∧ good now s' ∧ place s' c point'
  answer : ∀ {me now s s'} {c : Call} {point : c.Point} {reply : c.Reply}, good now s →
    place s c point → c.Answers me now s s' point reply →
      grows now s s' ∧ good now s' ∧ said now s' ⟨now, .call c, reply⟩

namespace Protocol

variable (P : Protocol)

/-- The thread's place within a call is one that the memory allows. -/
def Allows (s : Signals) : Thread α → Prop
  | .between _ => True
  | .within c point _ => P.place s c point

/-- The state of a run keeps to the agreement. -/
structure Kept (now : Stamp) (e : Ensemble α) (hs : Nat → History) : Prop where
  good : P.good now e.signals
  allows : ∀ (i : Nat) (m : Member α), e.members[i]? = some m → P.Allows e.signals m.thread
  said : ∀ i, ∀ x ∈ hs i, P.said now e.signals x

variable {P} {follow : α → Option (Program α)} {me : Nat} {now : Stamp} {s s' : Signals}
  {m m' : Member α} {x : Option Exchange}

theorem place_of_at {thread : Thread α} {c : Call} {point : c.Point} {next : c.Reply → Program α}
    (good : P.good now s) (allowed : P.Allows s thread) (stands : thread.At c point next) :
    P.place s c point := by
  cases stands with
  | entry => exact P.entry good
  | inside => exact allowed

theorem takes_kept (good : P.good now s) (allowed : P.Allows s m.thread)
    (takes : Member.Takes follow me now s m s' m' x) :
    (s' = s ∨ P.grows now s s') ∧ P.good now s' ∧ P.Allows s' m'.thread ∧
      ∀ y ∈ x, P.said now s' y := by
  cases takes with
  | follow _ => exact ⟨Or.inl rfl, good, trivial, by simp⟩
  | emit =>
    refine ⟨Or.inl rfl, good, trivial, ?_⟩
    intro y done
    cases done
    exact P.emit good
  | move stands moved =>
    obtain ⟨grown, good, place⟩ := P.move good (place_of_at good allowed stands) moved
    exact ⟨Or.inr grown, good, place, by simp⟩
  | answer stands answered =>
    obtain ⟨grown, good, said⟩ := P.answer good (place_of_at good allowed stands) answered
    refine ⟨Or.inr grown, good, trivial, ?_⟩
    intro y done
    cases done
    exact said

theorem Allows.grows {thread : Thread α} (allowed : P.Allows s thread) (grown : P.grows now s s') :
    P.Allows s' thread := by
  cases thread with
  | between => trivial
  | within c point next => exact P.place_grows grown allowed

theorem Kept.step {e e' : Ensemble α} {hs : Nat → History} {i : Nat} (kept : P.Kept now e hs)
    (stepped : e.step follow i now = some e') : P.Kept now e' (e.record hs i now) := by
  obtain ⟨m, m', s', there, rfl, takes⟩ := Ensemble.exists_of_step stepped
  -- The others' places and all exchanges so far have to survive what this step does to the memory.
  obtain ⟨grown, good, allowed, said⟩ := takes_kept kept.good (kept.allows i m there) takes
  refine ⟨good, ?_, ?_⟩
  · intro j k present
    rw [Ensemble.getElem?_withMember there] at present
    by_cases same : j = i
    · rw [if_pos same, Option.some.injEq] at present
      exact present ▸ allowed
    · rw [if_neg same] at present
      have before := kept.allows j k present
      rcases grown with same | grown
      · exact same ▸ before
      · exact before.grows grown
  · intro j y mem
    have remembered : y ∈ hs j → P.said now s' y := by
      intro old
      have before := kept.said j y old
      rcases grown with same | grown
      · exact same ▸ before
      · exact P.said_grows grown before
    by_cases same : j = i
    · subst same
      rw [Ensemble.record_self, List.mem_append, Option.mem_toList] at mem
      exact mem.elim (said y) remembered
    · rw [Ensemble.record_of_ne same] at mem
      exact remembered mem

/-- Every run that begins in keeping with an agreement keeps to it. -/
theorem kept_of_run {first e : Ensemble α} {hs : Nat → History}
    (begins : ∀ t, P.good t first.signals)
    (idle : ∀ (i : Nat) (m : Member α), first.members[i]? = some m →
      P.Allows first.signals m.thread)
    (run : Ensemble.Run follow first now e hs) : P.Kept now e hs := by
  induction run with
  | start t => exact ⟨begins t, idle, by simp⟩
  | wait _ later ih =>
    refine ⟨P.good_later ih.good later, ih.allows, ?_⟩
    exact fun i x mem => P.said_later (ih.said i x mem) later
  | step i _ stepped ih => exact ih.step stepped

end Protocol

end LoadGen
