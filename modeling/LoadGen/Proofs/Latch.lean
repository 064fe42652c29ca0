import LoadGen.Proofs.AbortEffect

namespace LoadGen

namespace Exchange

/-- Whether the thread has come to the end of its initialization, in whatever way. -/
def arrives : Exchange → Bool
  | ⟨_, .call .arrive, _⟩ => true
  | _ => false

/-- Whether the thread has found the latch open. -/
def awaitsAll : Exchange → Bool
  | ⟨_, .call .awaitAll, _⟩ => true
  | _ => false

end Exchange

namespace Call

variable {c : Call} {me : Nat} {now : Stamp} {s s' : Signals} {point point' : c.Point}
  {reply : c.Reply}

theorem moves_keeps_uninitialized (moved : c.Moves me now s s' point point') :
    s'.uninitialized = s.uninitialized := by
  refine (step_keeps moved.signals?).uninitialized fun arrives => ?_
  subst arrives
  cases moved

/-- Only the call that fixes a start can give the memory that start. -/
theorem eq_fixStart {start : Stamp} (unset : s.start = none) (set : s'.start = some start)
    (stepped : (c.step me now s point).signals? = some s') : c = .fixStart start := by
  by_cases fixes : ∃ t, c = .fixStart t
  · obtain ⟨t, rfl⟩ := fixes
    cases point <;> simp only [step, stepFix, enterSection, leaveSection] at stepped <;>
      (repeat' split at stepped) <;> cases stepped <;> simp_all
  · obtain ⟨same, -⟩ := (step_keeps stepped).start fun t is => fixes ⟨t, is⟩
    rw [same, unset] at set
    cases set

theorem answers_uninitialized (answered : c.Answers me now s s' point reply) :
    s.uninitialized ≤ s'.uninitialized + (Exchange.arrives ⟨now, .call c, reply⟩).toNat ∧
      s'.uninitialized ≤ s.uninitialized := by
  by_cases arrives : c = .arrive
  · subst arrives
    cases answered
    simp only [Exchange.arrives, Bool.toNat_true]
    omega
  · rw [(step_keeps answered.signals?).uninitialized arrives]
    exact ⟨Nat.le_add_right _ _, le_rfl⟩

end Call

namespace Protocol

/-- The latch stays open once a thread has found it so. -/
def latch : Protocol where
  good _ _ := True
  place _ _ _ := True
  said _ s x := x.awaitsAll → s.uninitialized = 0
  grows _ s s' := s'.uninitialized ≤ s.uninitialized
  good_later _ _ := trivial
  said_later said _ := said
  place_grows _ _ := trivial
  said_grows grown said found := Nat.eq_zero_of_le_zero (le_trans grown (le_of_eq (said found)))
  entry _ := trivial
  emit _ found := by cases found
  move _ _ moved := ⟨le_of_eq (Call.moves_keeps_uninitialized moved), trivial, trivial⟩
  answer {me now s s' c point reply} _ _ answered := by
    refine ⟨(Call.answers_uninitialized answered).2, trivial, fun found => ?_⟩
    cases c with
    | awaitAll =>
      simp only [Call.Answers, Call.step] at answered
      split at answered
      next opened =>
        cases answered
        exact opened
      next => cases answered
    | _ => cases found

end Protocol

namespace Standing

variable {first st st' : Standing} {x : Exchange} {h : History}

def arrivalsLeft : Standing → Nat
  | launching => 1
  | _ => 0

def mayFix : Standing → Bool
  | calling _ | fixing => true
  | _ => false

theorem arrivalsLeft_next (steps : st.next x.request x.reply = some st') :
    x.arrives.toNat + st'.arrivalsLeft ≤ st.arrivalsLeft := by
  unfold Exchange.arrives
  split
  · cases step_of_next steps with
    | stays ordinary => cases ordinary
    | arrives => exact le_rfl
  · cases step_of_next steps <;> simp [arrivalsLeft]

theorem mayFix_next (fixes : st'.mayFix) (steps : st.next x.request x.reply = some st') :
    x.calls ∨ x.awaitsAll ∨ st.mayFix := by
  cases step_of_next steps with
  | stays => exact Or.inr (Or.inr fixes)
  | calls => exact Or.inl rfl
  | hears => exact Or.inr (Or.inr rfl)
  | opens => exact Or.inr (Or.inl rfl)
  | _ => cases fixes

theorem mayFix_of_next {t : Stamp} {fixed : Bool}
    (steps : st.next (.call (.fixStart t)) fixed = some st') : st.mayFix := by
  cases st <;> first | rfl | cases steps

/-- A user's thread arrives at most once, and the conducting one never. -/
theorem arrivals_le (now : first.after h = some st) :
    h.countP Exchange.arrives ≤ first.arrivalsLeft := by
  have all : first.after (h ++ []) = some st := by rwa [List.append_nil]
  exact le_trans (Nat.le_add_right _ _)
    (countP_le_of_next (fun _ _ _ _ => arrivalsLeft_next) rfl all)

theorem exists_of_mayFix (begins : first.mayFix = false) (now : first.after h = some st)
    (fixes : st.mayFix) : ∃ x ∈ h, x.calls ∨ x.awaitsAll := by
  induction h generalizing st with
  | nil =>
    cases now
    rw [begins] at fixes
    cases fixes
  | cons x h ih =>
    obtain ⟨before, stood, steps⟩ := exists_of_after_cons now
    rcases mayFix_next fixes steps with calls | awaits | was
    · exact ⟨x, by simp, Or.inl calls⟩
    · exact ⟨x, by simp, Or.inr awaits⟩
    · obtain ⟨y, mem, which⟩ := ih stood was
      exact ⟨y, List.mem_cons_of_mem x mem, which⟩

end Standing

namespace Ensemble

variable {α : Type} {follow : α → Option (Program α)} {first e : Ensemble α} {now : Stamp}
  {hs : Nat → History} {threads i : Nat} {m m' : Member α} {s' : Signals} {x : Option Exchange}

/-- How often the threads have arrived, all together. -/
def arrivals (e : Ensemble α) (hs : Nat → History) : Nat :=
  ∑ i ∈ Finset.range e.members.size, (hs i).countP Exchange.arrives

theorem arrivals_of_stepped (stepped : Stepped follow i now e m m' s' x) :
    (e.withMember i s' m').arrivals (e.record hs i now) =
      e.arrivals hs + x.toList.countP Exchange.arrives := by
  have each : ∀ j, (e.record hs i now j).countP Exchange.arrives =
      (hs j).countP Exchange.arrives + if i = j then x.toList.countP Exchange.arrives else 0 := by
    intro j
    rw [record_eq stepped.completes]
    by_cases same : j = i
    · subst same
      simp [Nat.add_comm]
    · simp [same, Ne.symm same]
  obtain ⟨inside, -⟩ := Array.getElem?_eq_some_iff.mp stepped.present
  simp only [arrivals, size_withMember, each, Finset.sum_add_distrib, Finset.sum_ite_eq,
    Finset.mem_range, inside, if_true]

theorem uninitialized_of_takes (takes : Member.Takes follow i now e.signals m s' m' x) :
    e.signals.uninitialized ≤ s'.uninitialized + x.toList.countP Exchange.arrives ∧
      s'.uninitialized ≤ e.signals.uninitialized := by
  cases takes with
  | follow _ => exact ⟨le_rfl, le_rfl⟩
  | emit => exact ⟨Nat.le_add_right _ _, le_rfl⟩
  | move stands moved =>
    rw [Call.moves_keeps_uninitialized moved]
    exact ⟨le_rfl, le_rfl⟩
  | answer stands answered =>
    obtain ⟨counted, grown⟩ := Call.answers_uninitialized answered
    exact ⟨by simpa [Bool.toNat, Bool.cond_eq_ite] using counted, grown⟩

namespace Run

/-- Every thread has arrived, or else counts as uninitialized. -/
theorem threads_le (fresh : Fresh first threads) (run : Run follow first now e hs) :
    threads ≤ e.signals.uninitialized + e.arrivals hs := by
  induction run with
  | start =>
    rw [fresh.signals]
    exact Nat.le_add_right _ _
  | wait _ _ ih => exact ih
  | step i _ stepped ih =>
    obtain ⟨m, m', s', x, taken, rfl⟩ := exists_stepped stepped
    obtain ⟨counted, -⟩ := uninitialized_of_takes taken.takes
    rw [arrivals_of_stepped taken]
    change threads ≤ s'.uninitialized + _
    omega

theorem latch_open (fresh : Fresh first threads) (run : Run follow first now e hs) {y : Exchange}
    (mem : y ∈ hs i) (found : y.awaitsAll) : e.signals.uninitialized = 0 :=
  (fresh.kept (P := Protocol.latch) (fun _ => trivial) run).said i y mem found

end Run

/-- A step that fixes the start is one of a thread that asks for that start. -/
theorem Stepped.exists_fixing {start : Stamp} (stepped : Stepped follow i now e m m' s' x)
    (unset : e.signals.start = none) (set : s'.start = some start) :
    ∃ next, m.thread.rest = .ask (.call (.fixStart start)) next := by
  obtain ⟨-, takes, -⟩ := stepped
  cases takes with
  | follow _ | emit =>
    rw [unset] at set
    cases set
  | move stands moved =>
    obtain rfl := Call.eq_fixStart unset set moved.signals?
    exact ⟨_, stands.rest⟩
  | answer stands answered =>
    obtain rfl := Call.eq_fixStart unset set answered.signals?
    exact ⟨_, stands.rest⟩

end Ensemble

namespace RunPlan

open Ensemble

variable {σ : Type} {p : RunPlan σ} {e : Ensemble (Stage σ)} {now : Stamp} {hs : Nat → History}
  {i : Nat} {m : Member (Stage σ)}

theorem way_of_member (run : Run p.follow p.ensemble now e hs)
    (present : e.members[i]? = some m) : ∃ first st : Standing, first.mayFix = false ∧
      first.after (hs i) = some st ∧ m.thread.rest.Walks Stage.At st := by
  obtain ⟨begun, began, -⟩ := run.course present
  rcases begins_of_member began with rfl | rfl
  · obtain ⟨st, way⟩ := way_of_run run present began rfl
    exact ⟨.launching, st, rfl, way⟩
  · obtain ⟨st, way⟩ := way_of_run run present began rfl
    exact ⟨.conducting, st, rfl, way⟩

/-- Once the latch is open every user's thread has arrived. -/
theorem arrived_of_open (run : Run p.follow p.ensemble now e hs)
    (opened : e.signals.uninitialized = 0) : ∀ id < p.threads, ∃ x ∈ hs id, x.arrives := by
  intro id user
  have at_most : ∀ j < p.threads, (hs j).countP Exchange.arrives ≤ 1 := by
    intro j user
    obtain ⟨m, present⟩ := exists_member run (Nat.le_of_lt user)
    obtain ⟨st, way, -⟩ := way_of_user run user present
    exact Standing.arrivals_le way
  have conductor : (hs p.threads).countP Exchange.arrives = 0 := by
    obtain ⟨m, present⟩ := exists_member run le_rfl
    obtain ⟨st, way, -⟩ := way_of_conductor run present
    exact Nat.eq_zero_of_le_zero (Standing.arrivals_le way)
  have enough := run.threads_le p.fresh
  rw [opened, arrivals, run.size_members, p.size_members, Finset.sum_range_succ,
    conductor] at enough
  by_contra absent
  have noArrivals : (hs id).countP Exchange.arrives = 0 := by
    refine List.countP_eq_zero.mpr fun x mem arrives => absent ⟨x, mem, arrives⟩
  -- One thread that has not arrived cannot be made up for by the others.
  have short : ∑ j ∈ Finset.range p.threads, (hs j).countP Exchange.arrives <
      ∑ j ∈ Finset.range p.threads, 1 := by
    refine Finset.sum_lt_sum (fun j mem => at_most j (Finset.mem_range.mp mem)) ⟨id, ?_, ?_⟩
    · exact Finset.mem_range.mpr user
    · omega
  rw [← Finset.card_eq_sum_ones, Finset.card_range] at short
  omega

end RunPlan

end LoadGen
