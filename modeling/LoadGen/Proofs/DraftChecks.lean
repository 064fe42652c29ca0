import LoadGen.Proofs.BuiltWorkload
import LoadGen.Proofs.ResponseChecks

namespace LoadGen

section Reports

variable {ε α β : Type} {x : Except ε α} {faults faults' : List ε} {e : ε} {p : Prop} [Decidable p]

/-- A check reports the first of its faults, and has a result if there are none. -/
def Reports (x : Except ε α) (faults : List ε) : Prop :=
  match x with
  | .ok _ => faults = []
  | .error e => faults.head? = some e

theorem Reports.exists_ok_iff (reports : Reports x faults) : (∃ a, x = .ok a) ↔ faults = [] := by
  cases x with
  | error e =>
    have first : faults.head? = some e := reports
    exact iff_of_false (by simp) (by rintro rfl; cases first)
  | ok a => exact iff_of_true ⟨a, rfl⟩ reports

theorem Reports.error_iff (reports : Reports x faults) :
    x = .error e ↔ faults.head? = some e := by
  cases x with
  | error e' =>
    have first : faults.head? = some e' := reports
    rw [first, Except.error.injEq, Option.some.injEq]
  | ok a =>
    have faultless : faults = [] := reports
    simp [faultless]

/-- One check after the other: the faults of the first come first. -/
theorem Reports.bind {f : α → Except ε β} (first : Reports x faults)
    (second : ∀ a, x = .ok a → Reports (f a) faults') : Reports (x >>= f) (faults ++ faults') := by
  cases x with
  | error e =>
    have first : faults.head? = some e := first
    change (faults ++ faults').head? = some e
    rw [List.head?_append, first, Option.some_or]
  | ok a =>
    have faultless : faults = [] := first
    subst faultless
    exact second a rfl

theorem Reports.map {f : α → β} (reports : Reports x faults) : Reports (x.map f) faults := by
  cases x with
  | error e => exact reports
  | ok a => exact reports

theorem Reports.mapM {f : α → Except ε β} {each : α → List ε} {l : List α}
    (reports : ∀ a ∈ l, Reports (f a) (each a)) : Reports (l.mapM f) (l.flatMap each) := by
  induction l with
  | nil => exact rfl
  | cons a l ih =>
    have rest := ih fun b mem => reports b (List.mem_cons_of_mem a mem)
    rw [List.mapM_cons, List.flatMap_cons, ← List.append_nil (l.flatMap each)]
    exact (reports a List.mem_cons_self).bind fun b _ => rest.bind fun _ _ => rfl

/-- The fault that a check has found. -/
def faultsOf (x : Except ε α) : List ε :=
  match x with
  | .ok _ => []
  | .error e => [e]

theorem reports_faultsOf (x : Except ε α) : Reports x (faultsOf x) := by
  cases x <;> rfl

theorem faultsOf_eq_nil : faultsOf x = [] ↔ ∃ a, x = .ok a :=
  (reports_faultsOf x).exists_ok_iff.symm

def faultUnless (p : Prop) [Decidable p] (e : ε) : List ε := if p then [] else [e]

@[simp] theorem faultUnless_eq_nil : faultUnless p e = [] ↔ p := by
  unfold faultUnless
  split <;> simp_all

theorem reports_faultUnless (found : (∃ a, x = .ok a) ∧ p ∨ x = .error e ∧ ¬p) :
    Reports x (faultUnless p e) := by
  unfold faultUnless
  rcases found with ⟨⟨a, rfl⟩, holds⟩ | ⟨rfl, fails⟩
  · rw [if_pos holds]
    exact rfl
  · rw [if_neg fails]
    exact rfl

/-- A check that stops at a fault before it goes on. -/
theorem Reports.unless {refused : Prop} [Decidable refused] (fault : refused ↔ ¬ p)
    (rest : Reports x faults) :
    Reports (if refused then .error e else x) (faultUnless p e ++ faults) := by
  unfold faultUnless
  by_cases holds : p
  · rw [if_neg (mt fault.mp (not_not.mpr holds)), if_pos holds]
    exact rest
  · rw [if_pos (fault.mpr holds), if_neg holds]
    exact rfl

end Reports

/-- What an operation may lack: a limit for each percentile, and a pacing. -/
def OperationDeclaration.faults (declaration : OperationDeclaration) (percentiles : Nat)
    (fallback : Option Pacing) : List DefinitionError :=
  faultUnless (declaration.limits.length = percentiles)
      (.percentileLimitCount declaration.name percentiles declaration.limits.length) ++
    faultUnless ((declaration.pacing <|> fallback).isSome = true) (.noCycle declaration.name)

theorem Operation.reports_resolve (declaration : OperationDeclaration)
    (percentiles : List Percentile) (fallback : Option Pacing) :
    Reports (resolve declaration percentiles fallback)
      (declaration.faults percentiles.length fallback) := by
  unfold resolve OperationDeclaration.faults
  refine Reports.unless Iff.rfl ?_
  unfold faultUnless
  cases declaration.pacing <|> fallback <;> rfl

theorem Binary64.foldl_larger_cases (x : Binary64) (xs : List Binary64) :
    xs.foldl larger x = x ∨ xs.foldl larger x ∈ xs := by
  induction xs generalizing x with
  | nil => exact Or.inl rfl
  | cons first rest ih =>
    rw [List.foldl_cons]
    rcases ih (x.larger first) with same | mem
    · have one_of : x.larger first = x ∨ x.larger first = first := by
        unfold larger
        split_ifs <;> simp
      rw [same]
      exact one_of.imp_right fun head => List.mem_cons.mpr (Or.inl head)
    · exact Or.inr (List.mem_cons_of_mem _ mem)

namespace WorkloadDraft

variable {σ : Type} {d : WorkloadDraft σ} {w : Workload σ}
  {percentiles : List Percentile} {foreground background operations : List Operation}

def unitFaults (d : WorkloadDraft σ) : List DefinitionError :=
  faultUnless (d.responseTimeUnit ≠ .nanoseconds) .nanosecondResponseUnit ++
    (faultUnless (d.histogramUnit ≠ .nanoseconds) .nanosecondHistogramUnit ++
      faultUnless (d.threadPerScale.isFinite = true ∧ 0 < d.threadPerScale)
        (.threadPerScale d.threadPerScale))

/-- Every name that has occurred before. -/
def nameFaults (names : List String) : List DefinitionError :=
  names.zipIdx.flatMap fun place =>
    faultUnless (place.1 ∉ names.take place.2) (.duplicateOperation place.1)

def foregroundNames (d : WorkloadDraft σ) : List String := d.foreground.map (·.1.name)

/-- The limits of the response times: one for each percentile, or those of the 90th one if none is
declared. -/
def responseLimits (d : WorkloadDraft σ) : List Binary64 :=
  if d.percentiles = [] then (d.foreground ++ d.background).map (·.1.max90th)
  else (d.foreground ++ d.background).flatMap (·.1.limits)

def unknownFaults (d : WorkloadDraft σ) (names : List String) : List DefinitionError :=
  names.flatMap fun name => faultUnless (name ∈ d.foregroundNames) (.unknownOperation name)

/-- Names that are no foreground operations, and then what keeps a mix from being made of their
places. -/
def mixFaults (d : WorkloadDraft σ) : List DefinitionError :=
  match d.mix with
  | none => [.missingMix]
  | some (.flat entries) => d.unknownFaults (entries.map (·.1)) ++
      faultsOf (Mix.flat ((entries.map (·.1)).map d.foregroundNames.idxOf) (entries.map (·.2))
        (entries.map (·.1)))
  | some (.sequence names) => d.unknownFaults names ++
      faultsOf (Mix.fixedSequence (names.map d.foregroundNames.idxOf))

/-- All faults of a draft, in the order of the checks. -/
def faults (d : WorkloadDraft σ) : List DefinitionError :=
  d.unitFaults ++
  (d.percentiles.flatMap (fun label => faultsOf (Percentile.read label.toList)) ++
  (nameFaults ((d.foreground ++ d.background).map (·.1.name)) ++
  (d.foreground.flatMap (fun declared =>
    declared.1.faults d.percentiles.length d.defaultPacing) ++
  (faultUnless (d.backgroundPacings.length ≤ 1 ∨ d.backgroundPacings.length = d.background.length)
    (.backgroundTimings d.background.length d.backgroundPacings.length) ++
  (d.background.zipIdx.flatMap (fun place =>
    place.1.1.faults d.percentiles.length (d.backgroundPacing? place.2 <|> d.defaultPacing)) ++
  (faultUnless (∃ limit ∈ d.responseLimits, 0 < limit)
    (if d.percentiles = [] then .noMax90th else .noPercentileLimit) ++
  (d.mixFaults ++
  faultUnless (isDeviation d.mixDeviation = true) (.deviation d.mixDeviation))))))))

theorem reports_checkUnits (d : WorkloadDraft σ) : Reports d.checkUnits d.unitFaults := by
  have threads : (¬ d.threadPerScale.isFinite = true ∨ d.threadPerScale ≤ 0) ↔
      ¬ (d.threadPerScale.isFinite = true ∧ 0 < d.threadPerScale) := by
    rw [not_and_or]
    refine or_congr_right' fun finite => ?_
    have number := Binary64.isNaN_of_isFinite (not_not.mp finite)
    rw [← Binary64.not_le_iff number (by decide), not_not]
  unfold checkUnits unitFaults
  rw [← List.append_nil (faultUnless (_ ∧ _) _)]
  exact .unless not_not.symm (.unless not_not.symm (.unless threads rfl))

/-- The names that the search has seen are those before the place it has come to. -/
theorem head?_nameFaults (before seen rest : List String)
    (same : ∀ name, name ∈ seen ↔ name ∈ before) :
    ((rest.zipIdx before.length).flatMap fun place =>
        faultUnless (place.1 ∉ (before ++ rest).take place.2)
          (DefinitionError.duplicateOperation place.1)).head? =
      (firstDuplicate? seen rest).map .duplicateOperation := by
  induction rest generalizing before seen with
  | nil => rfl
  | cons name rest ih =>
    have later := ih (before ++ [name]) (name :: seen) fun other => by simp [same, or_comm]
    rw [List.length_append, List.append_assoc] at later
    rw [List.zipIdx_cons, List.flatMap_cons, List.take_left, firstDuplicate?]
    unfold faultUnless at *
    by_cases old : name ∈ seen
    · simp [old, (same name).mp old]
    · simpa [old, mt (same name).mpr old] using later

theorem reports_checkNames (d : WorkloadDraft σ) :
    Reports d.checkNames (nameFaults ((d.foreground ++ d.background).map (·.1.name))) := by
  have first := head?_nameFaults [] [] ((d.foreground ++ d.background).map (·.1.name))
    fun _ => Iff.rfl
  unfold checkNames
  cases found : firstDuplicate? [] ((d.foreground ++ d.background).map (·.1.name)) with
  | some name =>
    rw [found] at first
    exact first
  | none =>
    rw [found] at first
    exact List.head?_eq_none_iff.mp first

theorem nameFaults_eq_nil {names : List String} : nameFaults names = [] ↔ names.Nodup := by
  unfold nameFaults
  simp only [List.flatMap_eq_nil_iff, faultUnless_eq_nil, Prod.forall, List.mem_zipIdx_iff_getElem?,
    List.nodup_iff_pairwise_ne, List.pairwise_iff_getElem]
  constructor
  · intro fresh i j within within' before same
    refine fresh names[j] j (List.getElem?_eq_getElem within') ?_
    exact List.mem_take_iff_getElem.mpr ⟨i, by omega, same⟩
  · intro distinct name j entry mem
    obtain ⟨within', rfl⟩ := List.getElem?_eq_some_iff.mp entry
    obtain ⟨i, before, same⟩ := List.mem_take_iff_getElem.mp mem
    exact distinct i j (by omega) within' (by omega) same

/-- Every operation stems from the declaration at its place. -/
def Resolves (d : WorkloadDraft σ) (percentiles : List Percentile)
    (operations : List Operation) : Prop :=
  List.Forall₂ (fun declared operation => operation.Stems declared.1 percentiles)
    (d.foreground ++ d.background) operations

theorem resolves_of_ok (first : d.resolveForeground percentiles = .ok foreground)
    (second : d.resolveBackground percentiles = .ok background) :
    d.Resolves percentiles (foreground ++ background) := by
  have front : List.Forall₂ (fun declared operation => operation.Stems declared.1 percentiles)
      d.foreground foreground :=
    (forall₂_of_mapM first).imp fun _ _ resolved => (Operation.stems_of_resolve resolved).1
  have back : List.Forall₂ (fun declared operation => operation.Stems declared.1 percentiles)
      (d.background.zipIdx.map Prod.fst) background := by
    refine List.forall₂_map_left_iff.mpr ((forall₂_of_mapM second).imp ?_)
    intro place _ resolved
    dsimp only at resolved
    split at resolved
    next => exact (Operation.stems_of_given resolved).1
    next => exact (Operation.stems_of_resolve resolved).1
  rw [List.zipIdx_map_fst] at back
  exact List.rel_append front back

theorem reports_resolveForeground (d : WorkloadDraft σ) (percentiles : List Percentile) :
    Reports (d.resolveForeground percentiles) (d.foreground.flatMap fun declared =>
      declared.1.faults percentiles.length d.defaultPacing) :=
  Reports.mapM fun declared _ => Operation.reports_resolve declared.1 percentiles d.defaultPacing

theorem reports_resolveBackground (d : WorkloadDraft σ) (percentiles : List Percentile) :
    Reports (d.resolveBackground percentiles) (d.background.zipIdx.flatMap fun place =>
      place.1.1.faults percentiles.length (d.backgroundPacing? place.2 <|> d.defaultPacing)) := by
  refine Reports.mapM fun place _ => ?_
  dsimp only
  cases d.backgroundPacing? place.2 with
  | none => exact Operation.reports_resolve place.1.1 percentiles d.defaultPacing
  | some pacing => exact (Operation.reports_resolve place.1.1 percentiles (some pacing)).map

theorem reports_checkBackgroundPacings (d : WorkloadDraft σ) : Reports d.checkBackgroundPacings
    (faultUnless (d.backgroundPacings.length ≤ 1 ∨
        d.backgroundPacings.length = d.background.length)
      (.backgroundTimings d.background.length d.backgroundPacings.length)) := by
  refine reports_faultUnless ?_
  unfold checkBackgroundPacings
  split
  next differ => exact Or.inr ⟨rfl, by omega⟩
  next agrees => exact Or.inl ⟨⟨(), rfl⟩, by omega⟩

/-- The largest limit is one of the limits if it is positive, and it is positive if any is. -/
theorem largest_spec (xs : List Binary64) :
    (¬ largest xs ≤ 0 ↔ ∃ x ∈ xs, 0 < x) ∧
      (¬ largest xs ≤ 0 → 0 < largest xs ∧ largest xs ∈ xs) := by
  have zero : (0 : Binary64).isNaN = false := by decide
  obtain ⟨start, -⟩ := Binary64.le_foldl_larger xs zero
  have positive : ¬ largest xs ≤ 0 → 0 < largest xs :=
    (Binary64.not_le_iff start.2.1 zero).mp
  have mem : 0 < largest xs → largest xs ∈ xs := by
    intro positive
    refine (Binary64.foldl_larger_cases 0 xs).resolve_left fun same => ?_
    have itself : largest xs ≤ largest xs := ⟨start.2.1, start.2.1, Int.le_refl _⟩
    have isZero : largest xs = 0 := same
    rw [isZero] at positive itself
    exact Binary64.not_le_of_lt positive itself
  refine ⟨⟨fun exceeds => ⟨_, mem (positive exceeds), positive exceeds⟩, ?_⟩,
    fun exceeds => ⟨positive exceeds, mem (positive exceeds)⟩⟩
  rintro ⟨x, mem, positive⟩
  exact Binary64.not_le_of_lt (Binary64.lt_of_lt_of_le positive (le_largest mem positive))

/-- The limits that are checked are those of the draft. -/
theorem checkLimits_eq (resolves : d.Resolves percentiles operations)
    (count : d.percentiles.length = percentiles.length) :
    checkLimits percentiles operations =
      if largest d.responseLimits ≤ 0 then
        .error (if d.percentiles = [] then .noMax90th else .noPercentileLimit)
      else .ok (largest d.responseLimits) := by
  have legacy : operations.map (·.max90th) = (d.foreground ++ d.background).map (·.1.max90th) :=
    map_eq_of_forall₂ resolves fun _ _ stems => stems.max90th
  have limits : operations.map (·.limits) = (d.foreground ++ d.background).map (·.1.limits) :=
    map_eq_of_forall₂ resolves fun _ _ stems => stems.limits
  unfold checkLimits responseLimits
  rw [List.flatMap_def, List.flatMap_def, legacy, limits]
  by_cases unlabelled : d.percentiles = []
  · have unlabelled' : percentiles = [] :=
      List.length_eq_zero_iff.mp (by rw [← count, unlabelled]; rfl)
    simp [unlabelled, unlabelled']
  · have labelled : percentiles ≠ [] := by
      rintro rfl
      exact unlabelled (List.length_eq_zero_iff.mp count)
    simp [unlabelled, labelled]

theorem reports_checkLimits (resolves : d.Resolves percentiles operations)
    (count : d.percentiles.length = percentiles.length) :
    Reports (checkLimits percentiles operations)
      (faultUnless (∃ limit ∈ d.responseLimits, 0 < limit)
        (if d.percentiles = [] then .noMax90th else .noPercentileLimit)) := by
  rw [checkLimits_eq resolves count]
  refine reports_faultUnless ?_
  have positiveIff := (largest_spec d.responseLimits).1
  split
  next nonpositive => exact Or.inr ⟨rfl, fun limit => positiveIff.mpr limit nonpositive⟩
  next beyond => exact Or.inl ⟨⟨_, rfl⟩, positiveIff.mp beyond⟩

theorem placeOf_eq (foreground : List Operation) (name : String) : placeOf foreground name =
    if name ∈ foreground.map (·.name) then .ok ((foreground.map (·.name)).idxOf name)
    else .error (.unknownOperation name) := by
  have same : (foreground.map (·.name)).idxOf name =
      foreground.findIdx fun operation => decide (operation.name = name) := by
    rw [List.idxOf, List.findIdx_map]
    rfl
  unfold placeOf
  rw [same]
  split
  next i found =>
    obtain ⟨within, holds, -⟩ := List.findIdx?_eq_some_iff_getElem.mp found
    have mem : name ∈ foreground.map (·.name) :=
      List.mem_map.mpr ⟨_, List.getElem_mem within, of_decide_eq_true holds⟩
    rw [if_pos mem, (List.findIdx?_eq_some_iff_findIdx_eq.mp found).2]
  next missing =>
    have absent : name ∉ foreground.map (·.name) := by
      intro mem
      obtain ⟨operation, mem, same⟩ := List.mem_map.mp mem
      simpa [same] using List.findIdx?_eq_none_iff.mp missing operation mem
    rw [if_neg absent]

/-- The names of a mix are looked up one after the other. -/
theorem reports_places (names : List String)
    (same : foreground.map (·.name) = d.foregroundNames) :
    Reports (names.mapM (placeOf foreground)) (d.unknownFaults names) ∧
      ∀ places, names.mapM (placeOf foreground) = .ok places →
        places = names.map d.foregroundNames.idxOf := by
  constructor
  · refine Reports.mapM fun name _ => reports_faultUnless ?_
    rw [placeOf_eq, same]
    by_cases mem : name ∈ d.foregroundNames
    · exact Or.inl ⟨⟨_, if_pos mem⟩, mem⟩
    · exact Or.inr ⟨if_neg mem, mem⟩
  · intro places placed
    rw [← List.map_id places]
    refine map_eq_of_forall₂ (forall₂_of_mapM placed) fun name i found => ?_
    rw [placeOf_eq, same] at found
    split at found
    next => exact (Except.ok.inj found).symm
    next => cases found

theorem reports_withDeviation (m : Mix) (deviation : Binary64) :
    Reports (m.withDeviation deviation)
      (faultUnless (isDeviation deviation = true) (.deviation deviation)) := by
  refine reports_faultUnless ?_
  unfold Mix.withDeviation
  split
  next valid => exact Or.inl ⟨⟨_, rfl⟩, valid⟩
  next refused => exact Or.inr ⟨rfl, refused⟩

theorem reports_resolveMix (same : foreground.map (·.name) = d.foregroundNames) :
    Reports (d.resolveMix foreground) (d.mixFaults ++
      faultUnless (isDeviation d.mixDeviation = true) (.deviation d.mixDeviation)) := by
  unfold resolveMix mixFaults
  cases d.mix with
  | none => exact rfl
  | some declaration =>
    cases declaration with
    | flat entries =>
      obtain ⟨reports, placed⟩ := reports_places (entries.map (·.1)) same
      rw [List.mapM_map] at reports placed
      simp only [List.append_assoc]
      refine reports.bind fun places found => ?_
      rw [placed places found]
      exact (reports_faultsOf _).bind fun mix _ => reports_withDeviation mix d.mixDeviation
    | sequence names =>
      obtain ⟨reports, placed⟩ := reports_places names same
      simp only [List.append_assoc]
      refine reports.bind fun places found => ?_
      rw [placed places found]
      exact (reports_faultsOf _).bind fun mix _ => reports_withDeviation mix d.mixDeviation

/-- The background operations always make a sequence. -/
theorem reports_resolveBackgroundMix (foreground background : Nat) :
    Reports (resolveBackgroundMix foreground background) [] := by
  unfold resolveBackgroundMix
  split
  next => exact rfl
  next nonempty =>
    have listed : (List.range' foreground background).isEmpty = false := by
      simpa [List.isEmpty_eq_false_iff] using nonempty
    simp [Mix.fixedSequence, listed, Except.map, Reports]

theorem reports_build (d : WorkloadDraft σ) : Reports d.build d.faults := by
  unfold build faults
  refine (reports_checkUnits d).bind fun _ _ => ?_
  refine (Reports.mapM fun label _ => reports_faultsOf _).bind fun percentiles parsed => ?_
  -- The faults count the labels, and the checks the percentiles that have been read of them.
  have count := (forall₂_of_mapM parsed).length_eq
  rw [count]
  refine (reports_checkNames d).bind fun _ _ => ?_
  refine (reports_resolveForeground d percentiles).bind fun foreground first => ?_
  refine (reports_checkBackgroundPacings d).bind fun _ _ => ?_
  refine (reports_resolveBackground d percentiles).bind fun background second => ?_
  have resolves := resolves_of_ok first second
  refine (reports_checkLimits resolves count).bind fun largestLimit _ => ?_
  have names : foreground.map (·.name) = d.foregroundNames :=
    map_eq_of_forall₂ (forall₂_of_mapM first)
      fun _ _ resolved => (Operation.stems_of_resolve resolved).1.name
  have mixes := reports_resolveMix names
  rw [← List.append_nil (d.mixFaults ++ _)]
  refine mixes.bind fun mix _ => ?_
  exact (reports_resolveBackgroundMix _ _).bind fun _ _ => rfl

/-- There is a mix, and it can be made of foreground operations. -/
def MixValid (d : WorkloadDraft σ) : Prop :=
  match d.mix with
  | none => False
  | some (.flat entries) => (∀ name ∈ entries.map (·.1), name ∈ d.foregroundNames) ∧
      ∃ m, Mix.flat ((entries.map (·.1)).map d.foregroundNames.idxOf) (entries.map (·.2))
        (entries.map (·.1)) = .ok m
  | some (.sequence names) => (∀ name ∈ names, name ∈ d.foregroundNames) ∧
      ∃ m, Mix.fixedSequence (names.map d.foregroundNames.idxOf) = .ok m

/-- The declarations of a draft fit together. A pacing is an operation's own or the default one,
and background operations may have them from the background pacings. -/
structure Valid (d : WorkloadDraft σ) : Prop where
  responseTimeUnit : d.responseTimeUnit ≠ .nanoseconds
  histogramUnit : d.histogramUnit ≠ .nanoseconds
  threads : d.threadPerScale.isFinite = true ∧ 0 < d.threadPerScale
  labels : ∀ label ∈ d.percentiles, ∃ p, Percentile.read label.toList = .ok p
  names : ((d.foreground ++ d.background).map (·.1.name)).Nodup
  limitCounts : ∀ declared ∈ d.foreground ++ d.background,
    declared.1.limits.length = d.percentiles.length
  pacings : ∀ declared ∈ d.foreground, declared.1.pacing ≠ none ∨ d.defaultPacing ≠ none
  backgroundPacings : ∀ declared ∈ d.background,
    d.backgroundPacings ≠ [] ∨ declared.1.pacing ≠ none ∨ d.defaultPacing ≠ none
  pacingCount : d.backgroundPacings.length = 0 ∨ d.backgroundPacings.length = 1 ∨
    d.backgroundPacings.length = d.background.length
  limits : ∃ limit ∈ d.responseLimits, 0 < limit
  mix : d.MixValid
  deviation : d.mixDeviation.isFinite = true ∧ 0 ≤ d.mixDeviation ∧ d.mixDeviation < 100

theorem mixFaults_eq_nil : d.mixFaults = [] ↔ d.MixValid := by
  unfold mixFaults MixValid unknownFaults
  cases d.mix with
  | none => simp
  | some declaration =>
    cases declaration <;>
      simp only [List.append_eq_nil_iff, List.flatMap_eq_nil_iff, faultUnless_eq_nil,
        faultsOf_eq_nil]

theorem operationFaults_eq_nil {declaration : OperationDeclaration} {count : Nat}
    {fallback : Option Pacing} : declaration.faults count fallback = [] ↔
      declaration.limits.length = count ∧ (declaration.pacing ≠ none ∨ fallback ≠ none) := by
  unfold OperationDeclaration.faults
  rw [List.append_eq_nil_iff, faultUnless_eq_nil, faultUnless_eq_nil]
  cases declaration.pacing <;> cases fallback <;> simp

/-- There is a pacing for every place if there are any and they are right in number. -/
theorem backgroundPacing_ne_none {i : Nat} (within : i < d.background.length)
    (count : d.backgroundPacings.length ≤ 1 ∨ d.backgroundPacings.length = d.background.length) :
    d.backgroundPacing? i ≠ none ↔ d.backgroundPacings ≠ [] := by
  rcases Builds.backgroundPacing_cases d i with
    ⟨noPacings, given⟩ | ⟨shared, one, given⟩ | ⟨several, given⟩
  · simp [noPacings, given]
  · simp [one, given]
  · have place : i < d.backgroundPacings.length := by omega
    have nonempty : d.backgroundPacings ≠ [] := List.ne_nil_of_length_pos (by omega)
    simp [given, nonempty, place]

/-- The background operations are without faults if each has a limit for each percentile and a
pacing, whichever it is from. -/
theorem backgroundFaults_eq_nil (count : d.backgroundPacings.length ≤ 1 ∨
      d.backgroundPacings.length = d.background.length) :
    (d.background.zipIdx.flatMap fun place => place.1.1.faults d.percentiles.length
        (d.backgroundPacing? place.2 <|> d.defaultPacing)) = [] ↔
      ∀ declared ∈ d.background, declared.1.limits.length = d.percentiles.length ∧
        (d.backgroundPacings ≠ [] ∨ declared.1.pacing ≠ none ∨ d.defaultPacing ≠ none) := by
  have either : ∀ i, i < d.background.length → ((d.backgroundPacing? i <|> d.defaultPacing) ≠ none ↔
      d.backgroundPacings ≠ [] ∨ d.defaultPacing ≠ none) := by
    intro i within
    rw [← backgroundPacing_ne_none within count]
    cases d.backgroundPacing? i <;> simp
  simp only [List.flatMap_eq_nil_iff, operationFaults_eq_nil, Prod.forall,
    List.mem_zipIdx_iff_getElem?]
  constructor
  · intro faultless declaration handler mem
    obtain ⟨i, within, entry⟩ := List.mem_iff_getElem.mp mem
    obtain ⟨limits, paced⟩ :=
      faultless declaration handler i (List.getElem?_eq_some_iff.mpr ⟨within, entry⟩)
    rw [either i within] at paced
    exact ⟨limits, or_left_comm.mp paced⟩
  · intro declared declaration handler i entry
    obtain ⟨limits, paced⟩ := declared declaration handler (List.mem_of_getElem? entry)
    rw [either i (List.getElem?_eq_some_iff.mp entry).1]
    exact ⟨limits, or_left_comm.mp paced⟩

theorem faults_eq_nil : d.faults = [] ↔ d.Valid := by
  have deviation : isDeviation d.mixDeviation = true ↔
      d.mixDeviation.isFinite = true ∧ 0 ≤ d.mixDeviation ∧ d.mixDeviation < 100 := by
    unfold isDeviation
    rw [Bool.and_eq_true, decide_eq_true_eq]
  unfold faults unitFaults
  simp only [List.append_eq_nil_iff, faultUnless_eq_nil, nameFaults_eq_nil, mixFaults_eq_nil,
    deviation]
  rw [List.flatMap_eq_nil_iff, List.flatMap_eq_nil_iff]
  simp only [faultsOf_eq_nil, operationFaults_eq_nil]
  constructor
  · rintro ⟨⟨response, histogram, threads⟩, labels, names, front, count, back, limits, mix, dev⟩
    rw [backgroundFaults_eq_nil count] at back
    refine ⟨response, histogram, threads, labels, names, fun declared mem => ?_,
      fun declared mem => (front declared mem).2, fun declared mem => (back declared mem).2,
      by omega, limits, mix, dev⟩
    rcases List.mem_append.mp mem with first | second
    · exact (front declared first).1
    · exact (back declared second).1
  · intro valid
    have count : d.backgroundPacings.length ≤ 1 ∨
        d.backgroundPacings.length = d.background.length := by
      have pacingCount := valid.pacingCount
      omega
    rw [backgroundFaults_eq_nil count]
    exact ⟨⟨valid.responseTimeUnit, valid.histogramUnit, valid.threads⟩, valid.labels, valid.names,
      fun declared mem => ⟨valid.limitCounts declared (List.mem_append_left _ mem),
        valid.pacings declared mem⟩, count,
      fun declared mem => ⟨valid.limitCounts declared (List.mem_append_right _ mem),
        valid.backgroundPacings declared mem⟩, valid.limits, valid.mix, valid.deviation⟩

theorem Builds.limits_spec (builds : d.Builds w foreground background) :
    0 < w.largestLimit ∧ w.largestLimit ∈ d.responseLimits ∧
      ∀ limit ∈ d.responseLimits, limit.isNaN = false → limit ≤ w.largestLimit := by
  have resolves := resolves_of_ok builds.resolved builds.resolvedBackground
  have count := (forall₂_of_mapM builds.percentiles).length_eq
  have checked := builds.limits
  rw [builds.operations, checkLimits_eq resolves count] at checked
  split at checked
  next => cases checked
  next exceeds =>
    obtain ⟨positive, mem⟩ := (largest_spec d.responseLimits).2 exceeds
    rw [← Except.ok.inj checked]
    exact ⟨positive, mem, (Binary64.le_foldl_larger _ (by decide)).2⟩

/-- A draft is built just if it is valid, and the fault that is reported is the first one in the
order of the checks. The largest limit of what is built is a limit of the draft and positive, and
no other one that is a number is larger. -/
theorem build_iff_valid (d : WorkloadDraft σ) :
    ((∃ w, d.build = .ok w) ↔ d.Valid) ∧
      (∀ e, d.build = .error e ↔ d.faults.head? = some e) ∧
      ∀ w, d.build = .ok w → 0 < w.largestLimit ∧ w.largestLimit ∈ d.responseLimits ∧
        ∀ limit ∈ d.responseLimits, limit.isNaN = false → limit ≤ w.largestLimit := by
  refine ⟨(reports_build d).exists_ok_iff.trans faults_eq_nil,
    fun e => (reports_build d).error_iff, fun w built => ?_⟩
  obtain ⟨foreground, background, builds⟩ := exists_builds built
  exact builds.limits_spec

/-- A draft with an operation of each kind. The one in the background has no pacing of its own, and
one of its limits is undefined. -/
def twoKinds : WorkloadDraft Unit :=
  { WorkloadDraft.named "Two kinds" fun _ => Creation.created () with
    percentiles := ["90th", "99.9%"]
    foreground := [({ OperationDeclaration.named "Ping" with
      limits := [1, -1], pacing := some (.fixed Span.zero) }, fun _ => .succeeds ())]
    background := [({ OperationDeclaration.named "Pong" with limits := [.nan, 3] },
      fun _ => .succeeds ())]
    backgroundPacings := [.fixed (Span.ofMillis 5)]
    mix := some (.flat [("Ping", 1)]) }

theorem build_iff_valid_twoKinds :
    twoKinds.Valid ∧ ∃ w, twoKinds.build = .ok w ∧ 0 < w.largestLimit := by
  have builds : twoKinds.build.toOption.isSome = true := by decide +kernel
  obtain ⟨w, result⟩ := Option.isSome_iff_exists.mp builds
  have built := exists_of_toOption result
  obtain ⟨valid, -, limits⟩ := build_iff_valid twoKinds
  exact ⟨valid.mp ⟨w, built⟩, w, built, (limits w built).1⟩

end WorkloadDraft

end LoadGen
