import LoadGen.Proofs.MetricsRecords
import LoadGen.Proofs.NumberOrder

namespace LoadGen

open Binary64

section Numbers

variable {a b k n : Nat}

theorem Binary64.mk_sub_self (finite : a < infinityMagnitude) :
    (⟨false, a⟩ - ⟨false, a⟩ : Binary64) = zero := by
  rw [mk_sub_mk le_rfl finite, Nat.sub_self]
  decide

/-- A quotient of two counts is rounded once. -/
theorem Binary64.ofNat_div_ofNat (hb : 0 < b) (small : a ≤ 2 * binade)
    (small' : b ≤ 2 * binade) :
    ofNat a / ofNat b = ⟨false, nearestMagnitude (a * unitsOfOne) b⟩ := by
  obtain ⟨unrounded, finite⟩ := units_ofNat small
  obtain ⟨exact', finite'⟩ := units_ofNat small'
  have positive : 0 < (ofNat b).magnitude := by
    by_contra isZero
    have zero := Nat.eq_zero_of_not_pos isZero
    rw [zero, units_zero] at exact'
    have product := Nat.mul_pos hb unitsOfOne_pos
    omega
  change (⟨false, (ofNat a).magnitude⟩ / ⟨false, (ofNat b).magnitude⟩ : Binary64) = _
  rw [mk_div_mk finite positive finite', unrounded, exact',
    nearestMagnitude_scale hb unitsOfOne_pos]

/-- The share of a count in another one is that of their multiples. -/
theorem Binary64.ofNat_mul_div (hn : 0 < n) (positive : 0 < b) (small : n * a ≤ 2 * binade)
    (small' : n * b ≤ 2 * binade) : ofNat (n * a) / ofNat (n * b) = ofNat a / ofNat b := by
  have less := le_trans (Nat.le_mul_of_pos_left a hn) small
  have less' := le_trans (Nat.le_mul_of_pos_left b hn) small'
  rw [ofNat_div_ofNat (Nat.mul_pos hn positive) small small',
    ofNat_div_ofNat positive less less', Nat.mul_comm n b, Nat.mul_comm n a,
    Nat.mul_right_comm a n unitsOfOne, nearestMagnitude_scale positive hn]

theorem Binary64.quotient_le_one (positive : 0 < b) :
    nearestMagnitude (1 * unitsOfOne) b ≤ 1023 * binade := by
  refine nearestMagnitude_le positive ?_
  rw [units_one, Nat.one_mul]
  exact Nat.le_mul_of_pos_right _ positive

/-- Several of some are a larger share than one of them. -/
theorem Binary64.quotient_lt (positive : 0 < b) (small : b ≤ 2 * binade) (several : 2 ≤ k) :
    nearestMagnitude (1 * unitsOfOne) b < nearestMagnitude (k * unitsOfOne) b := by
  have three : units 3 = 3 := by decide
  have bound : 3 * (2 * binade) ≤ 1 * unitsOfOne := by decide +kernel
  have large : 3 ≤ nearestMagnitude (1 * unitsOfOne) b := by
    refine le_nearestMagnitude positive (by decide) ?_
    rw [three]
    exact le_trans (Nat.mul_le_mul_left 3 small) bound
  have finite := quotient_le_one positive
  generalize same : nearestMagnitude (1 * unitsOfOne) b = m at large finite ⊢
  obtain ⟨j, rfl⟩ : ∃ j, m = j + 1 := ⟨m - 1, by omega⟩
  have binades : 1023 * binade + 1 ≤ infinityMagnitude := by decide
  have middle := (succ_le_nearestMagnitude positive (by omega)).mp (le_of_eq same.symm)
  refine (succ_le_nearestMagnitude positive (by omega)).mpr (Or.inl ?_)
  -- The next middle is less than twice as far.
  have first := units_succ_lt (m := j) (by omega)
  have second := units_succ_lt (m := j + 1) (by omega)
  have further : (units (j + 1) + units (j + 1 + 1)) * b <
      2 * ((units j + units (j + 1)) * b) := by
    rw [← Nat.mul_assoc]
    exact Nat.mul_lt_mul_of_pos_right (by omega) positive
  have more := Nat.mul_le_mul_right unitsOfOne several
  omega

end Numbers

section Counts

variable {α β : Type}

theorem total_map_mul (n : Nat) (f : α → Nat) (l : List α) :
    total (l.map fun a => n * f a) = n * total (l.map f) := by
  induction l with
  | nil => rfl
  | cons a l ih =>
    change n * f a + total (l.map fun a => n * f a) = n * (f a + total (l.map f))
    rw [ih, Nat.mul_add]

theorem le_total_of_mem {counts : List Nat} {c : Nat} (mem : c ∈ counts) : c ≤ total counts := by
  induction counts with
  | nil => cases mem
  | cons first rest ih =>
    change c ≤ first + total rest
    rcases List.mem_cons.mp mem with rfl | later
    · exact Nat.le_add_right _ _
    · exact le_trans (ih later) (Nat.le_add_left _ _)

theorem total_map_one (l : List α) : total (l.map fun _ => 1) = l.length := by
  induction l with
  | nil => rfl
  | cons a l ih => exact (Nat.add_comm 1 _).trans (congrArg (· + 1) ih)

/-- The counts of distinct elements sum up to their number. -/
theorem total_count_of_nodup [DecidableEq α] {l : List α} (distinct : l.Nodup) :
    total (l.map fun a => l.count a) = l.length := by
  have ones : (l.map fun a => l.count a) = l.map fun _ => 1 :=
    List.map_congr_left (List.nodup_iff_count_eq_one.mp distinct)
  rw [ones, total_map_one]

theorem total_count_pos [DecidableEq α] {l : List α} (nonempty : 0 < l.length) :
    0 < total (l.map fun a => l.count a) := by
  obtain ⟨a, mem⟩ := List.exists_mem_of_length_pos nonempty
  refine Nat.lt_of_lt_of_le (List.count_pos_iff.mpr mem) ?_
  exact le_total_of_mem (List.mem_map_of_mem mem)

theorem count_of_forall₂ [DecidableEq α] [DecidableEq β] {R : α → β → Prop} {l : List α}
    {l' : List β} (related : List.Forall₂ R l l') {a : α} {b : β}
    (same : ∀ a' b', R a' b' → (a' = a ↔ b' = b)) : l.count a = l'.count b := by
  induction related with
  | nil => rfl
  | cons first _ ih =>
    rw [List.count_cons, List.count_cons, ih]
    simp only [beq_iff_eq, same _ _ first]

end Counts

/-- The operation that an event of the steady state counts for. -/
def Event.steadyOperation? : Event → Option Nat
  | transaction sample => if sample.phase = .steadyState then some sample.operation else none
  | _ => none

/-- The operations of the transactions in the steady state, in their order. -/
def steadyOperations (events : List Event) : List Nat := events.filterMap Event.steadyOperation?

theorem length_steadyTimes (i : Nat) (events : List Event) :
    (steadyTimes i events).length = (steadyOperations events).count i := by
  induction events with
  | nil => rfl
  | cons e events ih =>
    unfold steadyOperations at ih ⊢
    rw [steadyTimes_cons, List.length_append, ih, List.filterMap_cons]
    cases e with
    | transaction sample =>
      by_cases steady : sample.phase = .steadyState <;> by_cases own : sample.operation = i <;>
        simp [Event.steadyTime?, Event.steadyOperation?, steady, own, Nat.add_comm]
    | _ => simp [Event.steadyTime?, Event.steadyOperation?]

/-- The check of an operation of a sequence that has been followed for some rounds: the share of one
place against that of the operation's transactions in those of every place. -/
def Workload.sequenceCheck {σ : Type} (w : Workload σ) (n i : Nat) : MixCheck :=
  let places := w.mix.operations
  let expected := 1 / Binary64.ofNat places.length
  let actual := Binary64.ofNat (n * places.count i) /
    Binary64.ofNat (n * total (places.map fun i => places.count i))
  ⟨w.operationName i, expected, actual,
    decide ((actual - expected).abs * 100 ≤ w.mix.deviation)⟩

namespace Metrics

variable {σ : Type} {w : Workload σ} {m : Metrics} {events : List Event} {i n : Nat}

theorem OfWorkload.exists_counted (fresh : m.OfWorkload w) (events : List Event)
    (within : i < w.operations.length) : ∃ s, (m.recordAll events).operations[i]? = some s ∧
      s.transactions.steadyState = (steadyOperations events).count i ∧
        s.name = w.operationName i := by
  obtain ⟨-, -, -, -, length⟩ := m.recordAll_same events
  rw [fresh.operations.length_eq, ← length] at within
  have there := List.getElem?_eq_getElem within
  obtain ⟨operation, before, declared, start, tracks⟩ := fresh.exists_stats events there
  refine ⟨_, there, ?_, ?_⟩
  · rw [tracks.steady, start.transactions, ← length_steadyTimes]
    exact Nat.zero_add _
  · rw [tracks.name, start.name]
    unfold Workload.operationName
    rw [declared]
    rfl

/-- The mix checks after rounds of a sequence, one for every place. -/
theorem OfWorkload.checkMix_eq (fresh : m.OfWorkload w) (sequence : w.mix.choice = .sequence)
    (ready : w.mix.Ready) (inside : ∀ i ∈ w.mix.operations, i < w.operations.length)
    (hn : 0 < n) (rounds : ∀ i ∈ w.mix.operations,
      (steadyOperations events).count i = n * w.mix.operations.count i) :
    (m.recordAll events).checkMix = w.mix.operations.map (w.sequenceCheck n) := by
  obtain ⟨-, -, mix, deviation, -⟩ := m.recordAll_same events
  have expected : (m.recordAll events).expectedMix = w.mix.operations.map
      fun i => (i, 1 / Binary64.ofNat w.mix.operations.length) := by
    rw [mix, fresh.expectedMix]
    unfold Mix.expectedShares
    rw [sequence]
  have steady : (m.recordAll events).steadyOfMix =
      n * total (w.mix.operations.map fun i => w.mix.operations.count i) := by
    unfold steadyOfMix
    rw [expected, List.filterMap_map, ← total_map_mul]
    congr 1
    refine List.filterMap_eq_map_iff_forall_eq_some.mpr fun i mem => ?_
    obtain ⟨s, there, counted, -⟩ := fresh.exists_counted events (inside i mem)
    dsimp only [Function.comp_apply]
    rw [there, Option.map_some, counted, rounds i mem]
  unfold Mix.Ready at ready
  rw [sequence] at ready
  have positive := Nat.mul_pos hn (total_count_pos ready)
  unfold checkMix
  rw [steady]
  dsimp only
  rw [if_neg (Nat.pos_iff_ne_zero.mp positive), expected, List.filterMap_map]
  refine List.filterMap_eq_map_iff_forall_eq_some.mpr fun i mem => ?_
  obtain ⟨s, there, counted, name⟩ := fresh.exists_counted events (inside i mem)
  dsimp only [Function.comp_apply]
  rw [there, Option.map_some]
  unfold checkShare Workload.sequenceCheck
  rw [counted, rounds i mem, name, deviation, fresh.mixDeviation]

end Metrics

/-- A workload whose mix has been declared as a sequence of names. -/
structure Workload.Follows {σ : Type} (w : Workload σ) (names : List String) : Prop where
  sequence : w.mix.choice = .sequence
  ready : w.mix.Ready
  deviation : 0 ≤ w.mix.deviation
  inside : ∀ i ∈ w.mix.operations, i < w.foregroundCount ∧ i < w.operations.length
  name : w.mix.operations.map w.operationName = names
  count : ∀ i ∈ w.mix.operations, names.count (w.operationName i) = w.mix.operations.count i

theorem WorkloadDraft.Builds.follows {σ : Type} {d : WorkloadDraft σ} {w : Workload σ}
    {foreground background : List Operation} (builds : d.Builds w foreground background)
    {names : List String} (declared : d.mix = some (.sequence names)) : w.Follows names := by
  obtain ⟨inside, ready⟩ := builds.mix_ready
  obtain ⟨mix, places, deviating, made⟩ := resolveMix_cases builds.mix
  obtain ⟨same, valid⟩ := Mix.of_withDeviation deviating
  rcases made with ⟨entries, weighted, -⟩ | ⟨names', named, placed, made⟩
  · cases declared.symm.trans weighted
  · cases declared.symm.trans named
    obtain ⟨rfl, -⟩ := Mix.ready_of_fixedSequence made
    have placed := forall₂_of_mapM placed
    have places_eq : w.mix.operations = places := by rw [same]
    have name_eq : ∀ name i, placeOf foreground name = .ok i → w.operationName i = name := by
      intro name i found
      obtain ⟨operation, there, rfl⟩ := placeOf_eq_ok found
      unfold Workload.operationName
      rw [builds.operations, List.getElem?_append_left (List.getElem?_eq_some_iff.mp there).1,
        there]
      rfl
    refine ⟨by rw [same], ready, ?_, fun i mem => ?_, ?_, fun i mem => ?_⟩
    · rw [same]
      exact (of_decide_eq_true ((Bool.and_eq_true _ _).mp valid).2).1
    · have within := inside i mem
      refine ⟨within, lt_of_lt_of_le within ?_⟩
      rw [builds.operations, builds.foregroundCount, List.length_append]
      exact Nat.le_add_right _ _
    · rw [places_eq]
      have names_eq := map_eq_of_forall₂ (g := id) placed name_eq
      rwa [List.map_id] at names_eq
    · rw [places_eq] at mem ⊢
      obtain ⟨name, -, found⟩ := exists_of_mem_forall₂ placed mem
      rw [name_eq name i found]
      refine count_of_forall₂ placed fun name' i' found' => ⟨?_, ?_⟩
      · rintro rfl
        exact Except.ok.inj (found'.symm.trans found)
      · rintro rfl
        exact (name_eq name' i' found').symm.trans (name_eq name i' found)

namespace Workload

variable {σ : Type} {w : Workload σ} {names : List String} {i n : Nat}

theorem Follows.total_eq (follows : w.Follows names) :
    total (w.mix.operations.map fun i => w.mix.operations.count i) =
      total (names.map fun name => names.count name) := by
  conv_rhs => rw [← follows.name]
  rw [List.map_map]
  congr 1
  refine List.map_congr_left fun i mem => ?_
  rw [Function.comp_apply, follows.name, follows.count i mem]

theorem Follows.length_eq (follows : w.Follows names) :
    w.mix.operations.length = names.length := by
  rw [← follows.name, List.length_map]

theorem Follows.expected_eq (follows : w.Follows names) (n i : Nat) :
    (w.sequenceCheck n i).expected = Binary64.ofNat 1 / Binary64.ofNat names.length := by
  rw [← follows.length_eq]
  rfl

theorem Follows.actual_eq (follows : w.Follows names) (n : Nat) (mem : i ∈ w.mix.operations) :
    (w.sequenceCheck n i).actual =
      Binary64.ofNat (n * names.count (w.operationName i)) /
        Binary64.ofNat (n * total (names.map fun name => names.count name)) := by
  rw [← follows.total_eq, follows.count i mem]
  rfl

/-- Equal shares pass, whatever deviation is allowed. -/
theorem Follows.passed_of_eq (follows : w.Follows names) {x : Nat} (finite : x < infinityMagnitude)
    (expected : (w.sequenceCheck n i).expected = ⟨false, x⟩)
    (actual : (w.sequenceCheck n i).actual = ⟨false, x⟩) : (w.sequenceCheck n i).passed = true := by
  unfold sequenceCheck at expected actual ⊢
  dsimp only at expected actual ⊢
  have vanishes : Binary64.zero.abs * 100 = 0 := by decide +kernel
  rw [expected, actual, mk_sub_self finite, vanishes]
  exact decide_eq_true follows.deviation

/-- After rounds of a sequence without repetitions, every check passes with equal shares. -/
theorem Follows.sequenceCheck_of_nodup (follows : w.Follows names) (distinct : names.Nodup)
    (mem : i ∈ w.mix.operations) (hn : 0 < n) (small : n * names.length ≤ 2 * binade) :
    let share := Binary64.ofNat (names.count (w.operationName i)) / Binary64.ofNat names.length
    (w.sequenceCheck n i).passed = true ∧ (w.sequenceCheck n i).expected = share ∧
      (w.sequenceCheck n i).actual = share := by
  have mem' : w.operationName i ∈ names := follows.name ▸ List.mem_map_of_mem mem
  have once := List.nodup_iff_count_eq_one.mp distinct _ mem'
  have positive : 0 < names.length := List.length_pos_of_mem mem'
  have expected := follows.expected_eq n i
  have actual := follows.actual_eq n mem
  have length : names.length ≤ 2 * binade := le_trans (Nat.le_mul_of_pos_left _ hn) small
  have most : n * 1 ≤ 2 * binade := le_trans (Nat.mul_le_mul_left n positive) small
  rw [total_count_of_nodup distinct, once, ofNat_mul_div hn positive most small] at actual
  rw [once]
  refine ⟨?_, expected, actual⟩
  rw [ofNat_div_ofNat positive (by decide) length] at expected actual
  exact follows.passed_of_eq (lt_of_le_of_lt (quotient_le_one positive) (by decide)) expected actual

/-- An operation that is expected its share of the places stands at one of them. -/
theorem Follows.count_of_expected (follows : w.Follows names) (mem : i ∈ w.mix.operations)
    (small : names.length ≤ 2 * binade) (expected : (w.sequenceCheck n i).expected =
      Binary64.ofNat (names.count (w.operationName i)) / Binary64.ofNat names.length) :
    names.count (w.operationName i) = 1 := by
  have mem' : w.operationName i ∈ names := follows.name ▸ List.mem_map_of_mem mem
  have positive : 0 < names.length := List.length_pos_of_mem mem'
  have counted : 0 < names.count (w.operationName i) := List.count_pos_iff.mpr mem'
  have most : names.count (w.operationName i) ≤ 2 * binade := le_trans List.count_le_length small
  rw [follows.expected_eq, ofNat_div_ofNat positive (by decide) small,
    ofNat_div_ofNat positive most small] at expected
  have same := congrArg Binary64.magnitude expected
  by_contra several
  have less := quotient_lt positive small
    (show 2 ≤ names.count (w.operationName i) by omega)
  exact absurd same less.ne

end Workload

/-- The checks of the shares after `n` rounds of a fixed sequence, whatever runs in the background.
There is one for every place of the sequence, which expects the share of one place and finds that of
the operation's transactions among those of every place. Just when no operation is repeated, all of
them pass and both shares are the operation's number of places among all. Counts beyond `2 ^ 53` are
rounded themselves. -/
theorem sequence_passes_iff_nodup {σ : Type} {d : WorkloadDraft σ} {w : Workload σ} {thread : Nat}
    {m : Metrics} {names : List String} {n : Nat} (built : d.build = .ok w)
    (declared : d.mix = some (.sequence names)) (made : Metrics.empty w thread = .ok m)
    (events : List Event) (hn : 0 < n)
    (rounds : (steadyOperations events).filter (fun i => decide (i < w.foregroundCount)) =
      (List.replicate n w.mix.operations).flatten) :
    let checks := (m.recordAll events).compliance.mix
    let share (count : Nat) := Binary64.ofNat count / Binary64.ofNat names.length
    checks.map (·.operation) = names ∧
      (∀ check ∈ checks, check.expected = share 1 ∧ check.actual =
        Binary64.ofNat (n * names.count check.operation) /
          Binary64.ofNat (n * total (names.map fun name => names.count name))) ∧
      (n * names.length ≤ 2 * binade → (names.Nodup ↔ ∀ check ∈ checks, check.passed = true ∧
        check.expected = share (names.count check.operation) ∧
          check.actual = share (names.count check.operation))) := by
  obtain ⟨foreground, background, builds⟩ := WorkloadDraft.exists_builds built
  have follows := builds.follows declared
  have counts : ∀ i ∈ w.mix.operations,
      (steadyOperations events).count i = n * w.mix.operations.count i := by
    intro i mem
    have inside : decide (i < w.foregroundCount) = true :=
      decide_eq_true (follows.inside i mem).1
    rw [← List.count_filter (p := fun i => decide (i < w.foregroundCount)) inside, rounds]
    simp [List.count_flatten]
  have checks := (Metrics.ofWorkload_of_empty made).checkMix_eq follows.sequence follows.ready
    (fun i mem => (follows.inside i mem).2) hn counts
  change (m.recordAll events).compliance.mix = _ at checks
  dsimp only
  rw [checks]
  refine ⟨?_, ?_, fun small => ⟨fun distinct => ?_, fun passing => ?_⟩⟩
  · rw [List.map_map]
    exact follows.name
  · intro check mem
    obtain ⟨i, listed, rfl⟩ := List.mem_map.mp mem
    exact ⟨follows.expected_eq n i, follows.actual_eq n listed⟩
  · intro check mem
    obtain ⟨i, listed, rfl⟩ := List.mem_map.mp mem
    exact follows.sequenceCheck_of_nodup distinct listed hn small
  · refine List.nodup_iff_count_eq_one.mpr fun name mem => ?_
    have length : names.length ≤ 2 * binade := le_trans (Nat.le_mul_of_pos_left _ hn) small
    rw [← follows.name] at mem
    obtain ⟨i, listed, rfl⟩ := List.mem_map.mp mem
    obtain ⟨-, expected, -⟩ := passing _ (List.mem_map_of_mem listed)
    exact follows.count_of_expected listed length expected

/-- Where the number of all transactions is rounded, the shares need not be the same any more. -/
example : Binary64.ofNat 3002399751580331 / Binary64.ofNat (3 * 3002399751580331) ≠
    Binary64.ofNat 1 / Binary64.ofNat 3 := by
  decide +kernel

/-- A draft with two operations in a fixed sequence. -/
def WorkloadDraft.inSequence (names : List String) : WorkloadDraft Unit :=
  let ping (name : String) : OperationDeclaration × Handler Unit :=
    ({ OperationDeclaration.named name with limits := [1] }, fun _ => .succeeds ())
  { WorkloadDraft.named "Shop" fun _ => Creation.created () with
    percentiles := ["90th"]
    defaultPacing := some (.fixed ⟨0⟩)
    foreground := [ping "Browse", ping "Buy"]
    mix := some (.sequence names) }

/-- Two rounds of a sequence of two operations. -/
theorem sequence_passes_iff_nodup_twice : ∃ w m,
    (WorkloadDraft.inSequence ["Buy", "Browse"]).build = .ok w ∧ Metrics.empty w 0 = .ok m ∧
      let events := steadyEvents [(1, 1000000), (0, 2000000), (1, 1000000), (0, 3000000)]
      (steadyOperations events).filter (fun i => decide (i < w.foregroundCount)) =
          (List.replicate 2 w.mix.operations).flatten ∧
        ∀ check ∈ (m.recordAll events).compliance.mix, check.passed = true ∧
          check.expected = Binary64.ofNat (["Buy", "Browse"].count check.operation) /
            Binary64.ofNat 2 := by
  let names := ["Buy", "Browse"]
  let d := WorkloadDraft.inSequence names
  let events := steadyEvents [(1, 1000000), (0, 2000000), (1, 1000000), (0, 3000000)]
  have checked : (d.checks? events).isSome = true := by decide +kernel
  have mixed : d.build.toOption.map (fun w => (w.foregroundCount, w.mix.operations)) =
      some (2, [1, 0]) := by
    decide +kernel
  obtain ⟨c, checks⟩ := Option.isSome_iff_exists.mp checked
  obtain ⟨w, m, built, made, -⟩ := WorkloadDraft.exists_of_checks checks
  rw [built] at mixed
  obtain ⟨count, places⟩ := Prod.mk.inj (Option.some.inj mixed)
  have rounds : (steadyOperations events).filter (fun i => decide (i < w.foregroundCount)) =
      (List.replicate 2 w.mix.operations).flatten := by
    rw [count, places]
    decide
  obtain ⟨-, -, passing⟩ := sequence_passes_iff_nodup built rfl made events (by decide) rounds
  refine ⟨w, m, built, made, rounds, fun check mem => ?_⟩
  obtain ⟨passed, expected, -⟩ := (passing (by decide)).mp (by decide) check mem
  exact ⟨passed, expected⟩

/-- A sequence that lists an operation twice, followed once: the operation is expected a third of
the transactions and found to have two fifths of them. -/
theorem repeated_operation_fails_check : ∃ w m,
    (WorkloadDraft.inSequence ["Browse", "Browse", "Buy"]).build = .ok w ∧
      Metrics.empty w 0 = .ok m ∧
        let events := steadyEvents [(0, 1000000), (0, 1000000), (1, 1000000)]
        (steadyOperations events).filter (fun i => decide (i < w.foregroundCount)) =
            (List.replicate 1 w.mix.operations).flatten ∧
          ∃ check ∈ (m.recordAll events).compliance.mix, check.operation = "Browse" ∧
            check.passed = false ∧ check.expected = 1 / 3 ∧ check.actual = 2 / 5 ∧
              check.expected ≠ 2 / 3 ∧ check.actual ≠ 2 / 3 := by
  let d := WorkloadDraft.inSequence ["Browse", "Browse", "Buy"]
  let events := steadyEvents [(0, 1000000), (0, 1000000), (1, 1000000)]
  have checked : (d.checks? events).map (·.mix) = some [⟨"Browse", 1 / 3, 2 / 5, false⟩,
      ⟨"Browse", 1 / 3, 2 / 5, false⟩, ⟨"Buy", 1 / 3, 1 / 5, false⟩] := by
    decide +kernel
  have mixed : d.build.toOption.map (fun w => (w.foregroundCount, w.mix.operations)) =
      some (2, [0, 0, 1]) := by
    decide +kernel
  obtain ⟨c, checks, mix⟩ := Option.map_eq_some_iff.mp checked
  obtain ⟨w, m, built, made, rfl⟩ := WorkloadDraft.exists_of_checks checks
  rw [built] at mixed
  obtain ⟨count, places⟩ := Prod.mk.inj (Option.some.inj mixed)
  refine ⟨w, m, built, made, ?_, ⟨"Browse", 1 / 3, 2 / 5, false⟩, ?_, rfl, rfl, rfl, rfl, ?_, ?_⟩
  · rw [count, places]
    decide
  · rw [mix]
    exact List.mem_cons_self
  · decide +kernel
  · decide +kernel

end LoadGen
