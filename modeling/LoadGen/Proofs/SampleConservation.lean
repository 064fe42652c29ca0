import LoadGen.Proofs.HistogramCounts
import LoadGen.Proofs.MetricsRecords
import LoadGen.Shop
import Mathlib.Data.List.Induction
import Mathlib.Data.List.Perm.Basic

namespace LoadGen

namespace Histogram

/-- Two bins are counted alike in either order, in whatever order the list has its own. -/
theorem countBin_comm (a b : Nat) (bins : List (Nat × Nat)) :
    countBin a (countBin b bins) = countBin b (countBin a bins) := by
  induction bins with
  | nil =>
    simp only [countBin]
    rcases Nat.lt_trichotomy a b with less | rfl | more
    · rw [if_pos less, if_neg (by omega), if_neg (by omega)]
    · rfl
    · rw [if_neg (by omega), if_neg (by omega), if_pos more]
  | cons head rest ih =>
    obtain ⟨bin, n⟩ := head
    simp only [countBin]
    grind [countBin]

theorem record_comm (h : Histogram) (v v' : Nat) :
    (h.record v).record v' = (h.record v').record v := by
  have bins : countBin (h.lowest (h.held v')) (countBin (h.lowest (h.held v)) h.bins) =
      countBin (h.lowest (h.held v)) (countBin (h.lowest (h.held v')) h.bins) := countBin_comm _ _ _
  have greatest : max (max h.greatest (h.held v)) (h.held v') =
      max (max h.greatest (h.held v')) (h.held v) := Nat.max_right_comm _ _ _
  exact congrArg₂ (Histogram.mk h.low h.high) bins greatest

theorem size_record (h : Histogram) (v : Nat) : (h.record v).size = h.size + 1 :=
  size_countBin _ _

end Histogram

namespace PhaseCounts

theorem get_add (c : PhaseCounts) (p q : Phase) :
    (c.add p).get q = c.get q + if p = q then 1 else 0 := by
  cases p <;> cases q <;> rfl

theorem add_comm (c : PhaseCounts) (p q : Phase) : (c.add p).add q = (c.add q).add p := by
  cases p <;> cases q <;> rfl

end PhaseCounts

namespace Event

def transaction? : Event → Option Sample
  | transaction sample => some sample
  | _ => none

def error? : Event → Option Sample
  | error sample => some sample
  | _ => none

def delay? : Event → Option DelaySample
  | delay sample => some sample
  | _ => none

/-- The operation that an event is a sample of, if it is a sample. -/
def sampled? : Event → Option Nat
  | transaction sample | error sample => some sample.operation
  | delay sample => some sample.operation
  | _ => none

theorem cases_of_sampled {e : Event} {i : Nat} (of : e.sampled? = some i) :
    (∃ sample, e = transaction sample ∧ sample.operation = i) ∨
      (∃ sample, e = error sample ∧ sample.operation = i) ∨
        ∃ sample, e = delay sample ∧ sample.operation = i := by
  cases e with
  | transaction sample => exact Or.inl ⟨sample, rfl, Option.some.inj of⟩
  | error sample => exact Or.inr (Or.inl ⟨sample, rfl, Option.some.inj of⟩)
  | delay sample => exact Or.inr (Or.inr ⟨sample, rfl, Option.some.inj of⟩)
  | _ => cases of

end Event

/-- The samples of one operation. -/
def samplesOf (i : Nat) (events : List Event) : List Event :=
  events.filter fun e => decide (e.sampled? = some i)

/-- The samples of the first `n` operations. -/
def samplesBelow (n : Nat) (events : List Event) : List Event :=
  events.filter fun e => e.sampled?.any fun i => decide (i < n)

def reportedTransactions (events : List Event) : List Sample := events.filterMap Event.transaction?

def reportedErrors (events : List Event) : List Sample := events.filterMap Event.error?

/-- The delays that count, those of the steady state. -/
def steadyDelays (events : List Event) : List DelaySample :=
  (events.filterMap Event.delay?).filter fun sample => decide (sample.phase = .steadyState)

theorem countP_phases (samples : List Sample) :
    (samples.countP fun sample => decide (sample.phase = .rampUp)) +
        (samples.countP fun sample => decide (sample.phase = .steadyState)) +
          (samples.countP fun sample => decide (sample.phase = .rampDown)) = samples.length := by
  induction samples with
  | nil => rfl
  | cons sample rest ih =>
    simp only [List.countP_cons, List.length_cons]
    cases sample.phase <;> simp <;> omega

theorem total_append (l l' : List Nat) : total (l ++ l') = total l + total l' := List.sum_append

namespace OperationStats

/-- The statistics with the sample of an event. -/
def take (s : OperationStats) : Event → OperationStats
  | .transaction sample => s.recordTransaction sample
  | .error sample => s.recordError sample
  | .delay sample => s.recordDelay sample
  | _ => s

theorem take_comm (s : OperationStats) {e e' : Event} {i j : Nat} (of : e.sampled? = some i)
    (of' : e'.sampled? = some j) : (s.take e).take e' = (s.take e').take e := by
  rcases Event.cases_of_sampled of with ⟨a, rfl, -⟩ | ⟨a, rfl, -⟩ | ⟨a, rfl, -⟩ <;>
    rcases Event.cases_of_sampled of' with ⟨b, rfl, -⟩ | ⟨b, rfl, -⟩ | ⟨b, rfl, -⟩ <;>
    simp only [take, recordTransaction, recordError, recordDelay]
  all_goals grind [Histogram.record_comm, PhaseCounts.add_comm]

theorem get_transactions_take (s : OperationStats) (e : Event) (phase : Phase) :
    (s.take e).transactions.get phase = s.transactions.get phase +
      e.transaction?.toList.countP fun sample => decide (sample.phase = phase) := by
  cases e with
  | transaction a => simp [take, recordTransaction, Event.transaction?, PhaseCounts.get_add]
  | delay a =>
    simp only [take, recordDelay]
    split <;> rfl
  | _ => rfl

theorem get_errors_take (s : OperationStats) (e : Event) (phase : Phase) :
    (s.take e).errors.get phase = s.errors.get phase +
      e.error?.toList.countP fun sample => decide (sample.phase = phase) := by
  cases e with
  | error a => simp [take, recordError, Event.error?, PhaseCounts.get_add]
  | delay a =>
    simp only [take, recordDelay]
    split <;> rfl
  | _ => rfl

theorem size_response_take (s : OperationStats) (e : Event) :
    (s.take e).response.size = s.response.size +
      e.transaction?.toList.countP fun sample => decide (sample.phase = .steadyState) := by
  cases e with
  | transaction a =>
    simp only [take, recordTransaction, Event.transaction?]
    split <;> simp [Histogram.size_record, *]
  | delay a =>
    simp only [take, recordDelay]
    split <;> rfl
  | _ => rfl

/-- A delay of the steady state goes into both histograms and both sums, and no other one does. -/
theorem delays_take (s : OperationStats) (e : Event) :
    let steady := e.delay?.toList.filter fun sample => decide (sample.phase = .steadyState)
    (s.take e).targetedDelay.size = s.targetedDelay.size + steady.length ∧
      (s.take e).actualDelay.size = s.actualDelay.size + steady.length ∧
        (s.take e).targetedSum = s.targetedSum + total (steady.map (·.targeted.toNat)) ∧
          (s.take e).actualSum = s.actualSum + total (steady.map (·.actual.toNat)) := by
  cases e with
  | delay a =>
    simp only [take, recordDelay, Event.delay?]
    split <;> simp [Histogram.size_record, total, *]
  | _ => exact ⟨rfl, rfl, rfl, rfl⟩

/-- The statistics account for the samples among some events, each of them counting once. -/
structure Accounts (events : List Event) (s : OperationStats) : Prop where
  transactions : ∀ phase, s.transactions.get phase =
    (reportedTransactions events).countP fun sample => decide (sample.phase = phase)
  errors : ∀ phase, s.errors.get phase =
    (reportedErrors events).countP fun sample => decide (sample.phase = phase)
  response : s.response.size = s.transactions.steadyState
  targetedDelay : s.targetedDelay.size = (steadyDelays events).length
  actualDelay : s.actualDelay.size = (steadyDelays events).length
  targetedSum : s.targetedSum = total ((steadyDelays events).map (·.targeted.toNat))
  actualSum : s.actualSum = total ((steadyDelays events).map (·.actual.toNat))

variable {events : List Event} {s : OperationStats}

theorem accounts_of_empty {resolution most : Nat} {operation : Operation}
    (made : empty resolution most operation = .ok s) : s.Accounts [] := by
  unfold empty at made
  obtain ⟨longest, -, made⟩ := exists_of_bind_ok made
  obtain ⟨response, ranged, made⟩ := exists_of_bind_ok made
  obtain ⟨delay, ranged', made⟩ := exists_of_bind_ok made
  have noSamples : response.size = 0 := by rw [of_emptyHistogram ranged]; rfl
  have noSamples' : delay.size = 0 := by rw [of_emptyHistogram ranged']; rfl
  cases made
  exact ⟨fun phase => by cases phase <;> rfl, fun phase => by cases phase <;> rfl, noSamples,
    noSamples',
    noSamples', rfl, rfl⟩

theorem Accounts.take (accounts : s.Accounts events) (e : Event) :
    (s.take e).Accounts (events ++ [e]) := by
  have reported : reportedTransactions (events ++ [e]) =
      reportedTransactions events ++ e.transaction?.toList := List.filterMap_append
  have failed : reportedErrors (events ++ [e]) = reportedErrors events ++ e.error?.toList :=
    List.filterMap_append
  have delayed : steadyDelays (events ++ [e]) = steadyDelays events ++
      e.delay?.toList.filter fun sample => decide (sample.phase = .steadyState) := by
    unfold steadyDelays
    rw [List.filterMap_append, List.filter_append]
    rfl
  obtain ⟨targeted, actual, targetedSum, actualSum⟩ := s.delays_take e
  refine ⟨fun phase => ?_, fun phase => ?_, ?_, ?_, ?_, ?_, ?_⟩
  · rw [reported, List.countP_append, get_transactions_take, accounts.transactions]
  · rw [failed, List.countP_append, get_errors_take, accounts.errors]
  · have steady := s.get_transactions_take e .steadyState
    rw [size_response_take, accounts.response]
    exact steady.symm
  · rw [delayed, List.length_append, targeted, accounts.targetedDelay]
  · rw [delayed, List.length_append, actual, accounts.actualDelay]
  · rw [delayed, List.map_append, total_append, targetedSum, accounts.targetedSum]
  · rw [delayed, List.map_append, total_append, actualSum, accounts.actualSum]

theorem Accounts.total_transactions (accounts : s.Accounts events) :
    s.transactions.total = (reportedTransactions events).length := by
  unfold PhaseCounts.total
  rw [← countP_phases, ← accounts.transactions, ← accounts.transactions, ← accounts.transactions]
  rfl

theorem Accounts.total_errors (accounts : s.Accounts events) :
    s.errors.total = (reportedErrors events).length := by
  unfold PhaseCounts.total
  rw [← countP_phases, ← accounts.errors, ← accounts.errors, ← accounts.errors]
  rfl

theorem Accounts.foldl (fresh : s.Accounts []) (events : List Event) :
    (events.foldl OperationStats.take s).Accounts events := by
  induction events using List.reverseRecOn with
  | nil => exact fresh
  | append_singleton events e ih =>
    rw [List.foldl_append]
    exact ih.take e

end OperationStats

namespace Metrics

variable {m : Metrics} {e : Event} {i : Nat}

theorem record_of_some (of : e.sampled? = some i) :
    m.record e = { m with operations := m.operations.modify i (·.take e) } := by
  rcases Event.cases_of_sampled of with ⟨a, rfl, rfl⟩ | ⟨a, rfl, rfl⟩ | ⟨a, rfl, rfl⟩ <;> rfl

theorem record_of_none (unsampled : e.sampled? = none) : m.record e = m := by
  cases e with
  | transaction a | error a | delay a => cases unsampled
  | _ => rfl

theorem record_of_le (of : e.sampled? = some i) (beyond : m.operations.length ≤ i) :
    m.record e = m := by
  rw [record_of_some of, List.modify_eq_self beyond]

theorem length_record (m : Metrics) (e : Event) :
    (m.record e).operations.length = m.operations.length :=
  (m.recordAll_same [e]).2.2.2.2

theorem getElem?_record (m : Metrics) (e : Event) (i : Nat) : (m.record e).operations[i]? =
    m.operations[i]?.map fun s => if e.sampled? = some i then s.take e else s := by
  cases of : e.sampled? with
  | none => simp [record_of_none of]
  | some place => simp [record_of_some of, List.getElem?_modify]

/-- The statistics of an operation are those of its own samples. -/
theorem getElem?_recordAll (m : Metrics) (events : List Event) (i : Nat) :
    (m.recordAll events).operations[i]? =
      m.operations[i]?.map fun s => (samplesOf i events).foldl OperationStats.take s := by
  induction events generalizing m with
  | nil => simp [recordAll, samplesOf]
  | cons e events ih =>
    change ((m.record e).recordAll events).operations[i]? = _
    rw [ih, getElem?_record, Option.map_map]
    congr 1
    funext s
    unfold samplesOf
    rw [List.filter_cons]
    split <;> simp_all

theorem record_comm (m : Metrics) (e e' : Event) :
    (m.record e).record e' = (m.record e').record e := by
  cases of : e.sampled? with
  | none => rw [record_of_none of, record_of_none of]
  | some i =>
    cases of' : e'.sampled? with
    | none => rw [record_of_none of', record_of_none of']
    | some j =>
      rw [record_of_some of, record_of_some of', record_of_some of, record_of_some of']
      dsimp only
      congr 1
      by_cases same : i = j
      · subst same
        rw [List.modify_modify_eq, List.modify_modify_eq]
        congr 1
        funext s
        exact s.take_comm of of'
      · rw [List.modify_modify_ne _ _ _ same]

theorem recordAll_perm (m : Metrics) {events events' : List Event} (perm : events.Perm events') :
    m.recordAll events = m.recordAll events' :=
  perm.foldl_eq' (fun e _ e' _ m => m.record_comm e e') m

theorem accounts_of_empty {σ : Type} {w : Workload σ} {thread : Nat} {s : OperationStats}
    (made : empty w thread = .ok m) (entry : m.operations[i]? = some s) : s.Accounts [] := by
  unfold empty at made
  obtain ⟨operations, mapped, made⟩ := exists_of_bind_ok made
  cases made
  obtain ⟨operation, -, made⟩ :=
    exists_of_mem_forall₂ (forall₂_of_mapM mapped) (List.mem_of_getElem? entry)
  exact OperationStats.accounts_of_empty made

/-- Whatever is recorded, every operation accounts for its own samples. -/
theorem accounts_of_recordAll {σ : Type} {w : Workload σ} {thread : Nat} {s : OperationStats}
    (made : empty w thread = .ok m) (events : List Event)
    (entry : (m.recordAll events).operations[i]? = some s) : s.Accounts (samplesOf i events) := by
  rw [getElem?_recordAll, Option.map_eq_some_iff] at entry
  obtain ⟨before, there, rfl⟩ := entry
  exact (accounts_of_empty made there).foldl _

/-- Only samples of the operations that there are leave a trace. -/
theorem recordAll_samplesBelow (m : Metrics) (events : List Event) :
    m.recordAll (samplesBelow m.operations.length events) = m.recordAll events := by
  induction events generalizing m with
  | nil => rfl
  | cons e events ih =>
    have rest := ih (m.record e)
    rw [length_record] at rest
    change _ = (m.record e).recordAll events
    unfold samplesBelow at rest ⊢
    rw [List.filter_cons, ← rest]
    split
    next => rfl
    next outside =>
      cases of : e.sampled? with
      | none => rw [record_of_none of]
      | some i =>
        rw [of, Option.any_some, decide_eq_true_eq] at outside
        rw [record_of_le of (Nat.le_of_not_lt outside)]

end Metrics

section Totals

variable {α : Type} {n : Nat}

theorem countP_samplesBelow_succ (q : Event → Bool) (events : List Event) (n : Nat) :
    (samplesBelow (n + 1) events).countP q =
      (samplesBelow n events).countP q + (samplesOf n events).countP q := by
  unfold samplesOf samplesBelow
  rw [List.countP_filter, List.countP_filter, List.countP_filter]
  induction events with
  | nil => rfl
  | cons e events ih =>
    simp only [List.countP_cons, ih]
    cases of : e.sampled? with
    | none => simp
    | some i =>
      have last : i < n + 1 ↔ i < n ∨ i = n := Nat.lt_succ_iff_lt_or_eq
      have once : i < n → i ≠ n := Nat.ne_of_lt
      simp only [Option.any_some, Option.some.injEq, Bool.and_eq_true, decide_eq_true_eq, last]
      split <;> split <;> split <;> grind

/-- The samples of the first operations are those of one after the other. -/
theorem total_countP_samplesOf (q : Event → Bool) (events : List Event) (n : Nat) :
    total ((List.range n).map fun i => (samplesOf i events).countP q) =
      (samplesBelow n events).countP q := by
  induction n with
  | zero =>
    have noSamples : samplesBelow 0 events = [] := by simp [samplesBelow]
    rw [noSamples]
    rfl
  | succ n ih =>
    rw [List.range_succ, List.map_append, total_append, ih, countP_samplesBelow_succ]
    rfl

/-- What every operation counts of its own samples sums up to the count of them all. -/
theorem total_map_of_counts {operations : List OperationStats} {events : List Event}
    {count : OperationStats → Nat} (f : Event → Option α) (p : α → Bool)
    (each : ∀ i s, operations[i]? = some s →
      count s = ((samplesOf i events).filterMap f).countP p) :
    total (operations.map count) =
      ((samplesBelow operations.length events).filterMap f).countP p := by
  have counts : operations.map count = (List.range operations.length).map fun i =>
      ((samplesOf i events).filterMap f).countP p := by
    refine List.ext_getElem? fun i => ?_
    rw [List.getElem?_map, List.getElem?_map]
    cases entry : operations[i]? with
    | none => simp [List.getElem?_eq_none_iff.mp entry]
    | some s =>
      have within := (List.getElem?_eq_some_iff.mp entry).1
      simp [List.getElem?_range within, each i s entry]
  rw [counts]
  simp only [List.countP_filterMap]
  exact total_countP_samplesOf _ events _

/-- Operations that account for their own samples do so together for the samples of them all. -/
theorem totals_of_accounts {operations : List OperationStats} {events : List Event}
    (accounts : ∀ (i : Nat) (s : OperationStats), operations[i]? = some s →
      s.Accounts (samplesOf i events)) :
    let known := samplesBelow operations.length events
    total (operations.map (·.transactions.total)) = (reportedTransactions known).length ∧
      total (operations.map (·.transactions.steadyState)) =
        (reportedTransactions known).countP (fun sample => decide (sample.phase = .steadyState)) ∧
      total (operations.map (·.errors.total)) = (reportedErrors known).length := by
  intro known
  have all : ∀ {β : Type} (l : List β), l.length = l.countP (fun _ => true) :=
    fun l => (congrFun List.countP_true l).symm
  refine ⟨?_, ?_, ?_⟩
  · rw [all]
    refine total_map_of_counts Event.transaction? _ fun i s entry => ?_
    exact (accounts i s entry).total_transactions.trans (all _)
  · refine total_map_of_counts Event.transaction? _ fun i s entry => ?_
    exact (accounts i s entry).transactions .steadyState
  · rw [all]
    refine total_map_of_counts Event.error? _ fun i s entry => ?_
    exact (accounts i s entry).total_errors.trans (all _)

end Totals

/-- The metrics of a thread conserve the samples that they are given, whichever these are: every
operation accounts for just its own ones, the totals are those of the operations that there are,
samples of others change nothing, and the order of the samples does not either. -/
theorem samples_conserved {σ : Type} {w : Workload σ} {thread : Nat} {m : Metrics}
    (made : Metrics.empty w thread = .ok m) (events : List Event) :
    let after := m.recordAll events
    let known := samplesBelow w.operations.length events
    (∀ i < w.operations.length, ∃ s, after.operations[i]? = some s ∧
        s.Accounts (samplesOf i events)) ∧
      after.operations.length = w.operations.length ∧
      after.totalTransactions = (reportedTransactions known).length ∧
      after.steadyTransactions =
        (reportedTransactions known).countP (fun sample => decide (sample.phase = .steadyState)) ∧
      after.totalErrors = (reportedErrors known).length ∧
      m.recordAll known = after ∧
      ∀ events', events.Perm events' → m.recordAll events' = after := by
  intro after known
  have declared := (Metrics.ofWorkload_of_empty made).operations.length_eq
  have size : after.operations.length = w.operations.length :=
    (m.recordAll_same events).2.2.2.2.trans declared.symm
  have accounts : ∀ (i : Nat) (s : OperationStats), after.operations[i]? = some s →
      s.Accounts (samplesOf i events) :=
    fun _ _ entry => Metrics.accounts_of_recordAll made events entry
  obtain ⟨transactions, steady, errors⟩ := totals_of_accounts accounts
  rw [size] at transactions steady errors
  refine ⟨fun i within => ?_, size, transactions, steady, errors, ?_, fun events' perm => ?_⟩
  · have there := List.getElem?_eq_getElem (size ▸ within)
    exact ⟨_, there, accounts i _ there⟩
  · have whole := m.recordAll_samplesBelow events
    rwa [← declared] at whole
  · exact (m.recordAll_perm perm).symm

/-- Transactions and delays of the shop's first operation, one of them negative and one as long as
can be, an error of its last one, and a transaction of an operation that it does not have. -/
def shopSamples : List Event :=
  [.transaction ⟨0, .steadyState, 0, 10, 90, 0⟩, .transaction ⟨0, .rampDown, 0, 50, 20, 0⟩,
    .transaction ⟨3, .steadyState, 0, 10, 90, 0⟩, .error ⟨2, .steadyState, 0, 10, 90, 0⟩,
    .delay ⟨0, .steadyState, .thinkTime, -1, Stamp.greatest⟩]

theorem samples_conserved_shop : ∃ w m, Shop.workload Arguments.defaults 0 false = .ok w ∧
    Metrics.empty w 0 = .ok m ∧
      let after := m.recordAll shopSamples
      (∃ s, after.operations[0]? = some s ∧ s.Accounts (samplesOf 0 shopSamples)) ∧
        after.totalTransactions = 2 ∧ after.steadyTransactions = 1 ∧ after.totalErrors = 1 ∧
          m.recordAll shopSamples.reverse = after := by
  have metrics : ((Shop.workload Arguments.defaults 0 false).toOption.bind fun w =>
      (Metrics.empty w 0).toOption.map fun _ => w.operations.length) = some 3 := by
    decide +kernel
  obtain ⟨w, built, metrics⟩ := Option.bind_eq_some_iff.mp metrics
  obtain ⟨m, made, size⟩ := Option.map_eq_some_iff.mp metrics
  have made := exists_of_toOption made
  obtain ⟨accounts, -, transactions, steady, errors, -, order⟩ :=
    samples_conserved made shopSamples
  rw [size] at accounts transactions steady errors
  exact ⟨w, m, exists_of_toOption built, made, accounts 0 (by decide), transactions, steady, errors,
    order _ (List.reverse_perm _).symm⟩

end LoadGen
