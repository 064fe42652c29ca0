import LoadGen.Workload
import Mathlib.Data.List.Forall2
import Mathlib.Data.List.Nodup

namespace LoadGen

section Except

variable {ε α β γ : Type} {l : List α} {l' : List β} {f : α → Except ε β}

theorem exists_of_bind_ok {x : Except ε α} {b : β} (ok : (x >>= f) = .ok b) :
    ∃ a, x = .ok a ∧ f a = .ok b := by
  cases x with
  | error e => cases ok
  | ok a => exact ⟨a, rfl, ok⟩

theorem cases_of_bind_error {x : Except ε α} {e : ε} (failed : (x >>= f) = .error e) :
    x = .error e ∨ ∃ a, x = .ok a ∧ f a = .error e := by
  cases x with
  | error e' =>
    cases failed
    exact Or.inl rfl
  | ok a => exact Or.inr ⟨a, rfl, failed⟩

theorem exists_of_map_ok {x : Except ε α} {g : α → β} {b : β} (ok : x.map g = .ok b) :
    ∃ a, x = .ok a ∧ g a = b := by
  cases x with
  | error e => cases ok
  | ok a => exact ⟨a, rfl, Except.ok.inj ok⟩

theorem exists_of_toOption {x : Except ε α} {a : α} (value : x.toOption = some a) :
    x = .ok a := by
  cases x with
  | error e => cases value
  | ok b => exact congrArg Except.ok (Option.some.inj value)

theorem forall₂_of_mapM (mapped : l.mapM f = .ok l') :
    List.Forall₂ (fun a b => f a = .ok b) l l' := by
  induction l generalizing l' with
  | nil =>
    cases mapped
    exact .nil
  | cons a l ih =>
    rw [List.mapM_cons] at mapped
    obtain ⟨b, first, mapped⟩ := exists_of_bind_ok mapped
    obtain ⟨rest, tail, mapped⟩ := exists_of_bind_ok mapped
    cases mapped
    exact .cons first (ih tail)

theorem exists_of_mapM_error {e : ε} (failed : l.mapM f = .error e) : ∃ a ∈ l, f a = .error e := by
  induction l with
  | nil => cases failed
  | cons a l ih =>
    rw [List.mapM_cons] at failed
    rcases cases_of_bind_error failed with first | ⟨b, -, failed⟩
    · exact ⟨a, List.mem_cons_self, first⟩
    · rcases cases_of_bind_error failed with tail | ⟨rest, -, failed⟩
      · obtain ⟨a', mem, failed⟩ := ih tail
        exact ⟨a', List.mem_cons_of_mem a mem, failed⟩
      · cases failed

theorem map_eq_of_forall₂ {R : α → β → Prop} {g : α → γ} {g' : β → γ}
    (related : List.Forall₂ R l l') (same : ∀ a b, R a b → g' b = g a) :
    l'.map g' = l.map g := by
  induction related with
  | nil => rfl
  | cons first _ ih => rw [List.map_cons, List.map_cons, same _ _ first, ih]

theorem exists_getElem?_of_forall₂ {R : α → β → Prop} (related : List.Forall₂ R l l') {i : Nat}
    {a : α} (entry : l[i]? = some a) : ∃ b, l'[i]? = some b ∧ R a b := by
  induction related generalizing i with
  | nil => cases entry
  | cons first _ ih =>
    cases i with
    | zero =>
      cases entry
      exact ⟨_, rfl, first⟩
    | succ i => exact ih entry

theorem exists_of_mem_forall₂ {R : α → β → Prop} (related : List.Forall₂ R l l') {b : β}
    (mem : b ∈ l') : ∃ a ∈ l, R a b := by
  obtain ⟨i, within, rfl⟩ := List.mem_iff_getElem.mp mem
  obtain ⟨a, entry, related⟩ :=
    exists_getElem?_of_forall₂ related.flip (List.getElem?_eq_getElem within)
  exact ⟨a, List.mem_of_getElem? entry, related⟩

end Except

/-- A resolved operation has what its declaration says, and a limit for every percentile. -/
structure Operation.Stems (operation : Operation) (declaration : OperationDeclaration)
    (percentiles : List Percentile) : Prop where
  name : operation.name = declaration.name
  limits : operation.limits = declaration.limits
  count : operation.limits.length = percentiles.length
  max90th : operation.max90th = declaration.max90th
  mode : operation.mode = declaration.mode
  countToMetric : operation.countToMetric = declaration.countToMetric

theorem Operation.stems_of_resolve {declaration : OperationDeclaration}
    {percentiles : List Percentile} {fallback : Option Pacing} {operation : Operation}
    (resolved : resolve declaration percentiles fallback = .ok operation) :
    operation.Stems declaration percentiles ∧
      (declaration.pacing <|> fallback) = some operation.pacing := by
  unfold resolve at resolved
  split at resolved
  next => cases resolved
  next count =>
    split at resolved
    next => cases resolved
    next pacing same =>
      cases resolved
      exact ⟨⟨rfl, rfl, not_not.mp count, rfl, rfl, rfl⟩, same⟩

theorem Operation.stems_of_given {declaration : OperationDeclaration}
    {percentiles : List Percentile} {pacing : Pacing} {operation : Operation}
    (resolved : (resolve declaration percentiles (some pacing)).map
      (fun operation => { operation with pacing := pacing }) = .ok operation) :
    operation.Stems declaration percentiles ∧ operation.pacing = pacing := by
  obtain ⟨first, own, rfl⟩ := exists_of_map_ok resolved
  obtain ⟨stems, -⟩ := stems_of_resolve own
  exact ⟨⟨stems.name, stems.limits, stems.count, stems.max90th, stems.mode, stems.countToMetric⟩,
    rfl⟩

namespace WorkloadDraft

variable {σ : Type} {d : WorkloadDraft σ} {w : Workload σ}

/-- The pacing of a background operation: the one given for its place or for all of them, and when
none is given, its own or the default one. -/
structure Paces (d : WorkloadDraft σ) (i : Nat) (declaration : OperationDeclaration)
    (pacing : Pacing) : Prop where
  own : d.backgroundPacings = [] → (declaration.pacing <|> d.defaultPacing) = some pacing
  shared : ∀ given, d.backgroundPacings = [given] → pacing = given
  several : 1 < d.backgroundPacings.length → d.backgroundPacings[i]? = some pacing

/-- What the building of a draft goes through, one check after the other. -/
structure Builds (d : WorkloadDraft σ) (w : Workload σ) (foreground background : List Operation) :
    Prop where
  units : d.checkUnits = .ok ()
  percentiles : d.percentiles.mapM (fun label => Percentile.read label.toList) = .ok w.percentiles
  names : d.checkNames = .ok ()
  resolved : d.resolveForeground w.percentiles = .ok foreground
  pacings : d.checkBackgroundPacings = .ok ()
  resolvedBackground : d.resolveBackground w.percentiles = .ok background
  limits : checkLimits w.percentiles w.operations = .ok w.largestLimit
  mix : d.resolveMix foreground = .ok w.mix
  backgroundMix : resolveBackgroundMix foreground.length background.length = .ok w.backgroundMix
  operations : w.operations = foreground ++ background
  handlers : w.handlers = (d.foreground ++ d.background).map (·.2)
  foregroundCount : w.foregroundCount = foreground.length
  responseTimeUnit : w.responseTimeUnit = d.responseTimeUnit
  histogramUnit : w.histogramUnit = d.histogramUnit

theorem exists_builds (built : d.build = .ok w) :
    ∃ foreground background, d.Builds w foreground background := by
  unfold build at built
  obtain ⟨⟨⟩, units, built⟩ := exists_of_bind_ok built
  obtain ⟨percentiles, read, built⟩ := exists_of_bind_ok built
  obtain ⟨⟨⟩, names, built⟩ := exists_of_bind_ok built
  obtain ⟨foreground, first, built⟩ := exists_of_bind_ok built
  obtain ⟨⟨⟩, pacings, built⟩ := exists_of_bind_ok built
  obtain ⟨background, second, built⟩ := exists_of_bind_ok built
  obtain ⟨largest, limits, built⟩ := exists_of_bind_ok built
  obtain ⟨mix, mixed, built⟩ := exists_of_bind_ok built
  obtain ⟨backgroundMix, sequence, built⟩ := exists_of_bind_ok built
  cases built
  exact ⟨foreground, background, units, read, names, first, pacings, second, limits, mixed,
    sequence, rfl, (List.map_append ..).symm, rfl, rfl, rfl⟩

/-- Names without a duplicate are distinct, and none of them has occurred before. -/
theorem nodup_of_firstDuplicate {seen names : List String}
    (unrepeated : firstDuplicate? seen names = none) :
    names.Nodup ∧ ∀ name ∈ names, name ∉ seen := by
  induction names generalizing seen with
  | nil => exact ⟨.nil, by simp⟩
  | cons name rest ih =>
    unfold firstDuplicate? at unrepeated
    split at unrepeated
    next => cases unrepeated
    next fresh =>
      obtain ⟨distinct, unseen⟩ := ih unrepeated
      have absent : name ∉ rest := fun mem => unseen name mem List.mem_cons_self
      refine ⟨List.nodup_cons.mpr ⟨absent, distinct⟩, fun other mem => ?_⟩
      rcases List.mem_cons.mp mem with rfl | later
      · exact fresh
      · exact fun old => unseen other later (List.mem_cons_of_mem name old)

theorem nodup_of_checkNames (checked : d.checkNames = .ok ()) :
    ((d.foreground ++ d.background).map (·.1.name)).Nodup := by
  unfold checkNames at checked
  split at checked
  next => cases checked
  next unrepeated => exact (nodup_of_firstDuplicate unrepeated).1

/-- The unit of a histogram is a microsecond at least. -/
theorem one_lt_histogramUnit (checked : d.checkUnits = .ok ()) :
    1000 ≤ d.histogramUnit.nanos ∧ d.responseTimeUnit ≠ .nanoseconds := by
  unfold checkUnits at checked
  split at checked
  next => cases checked
  next response =>
    split at checked
    next => cases checked
    next histogram =>
      refine ⟨?_, response⟩
      cases unit : d.histogramUnit with
      | nanoseconds => exact absurd unit histogram
      | _ => simp [TimeUnit.nanos]

namespace Builds

variable {foreground background : List Operation}

theorem length_foreground (builds : d.Builds w foreground background) :
    d.foreground.length = foreground.length :=
  (forall₂_of_mapM builds.resolved).length_eq

theorem length_background (builds : d.Builds w foreground background) :
    d.background.length = background.length := by
  have same := (forall₂_of_mapM builds.resolvedBackground).length_eq
  rwa [List.length_zipIdx] at same

theorem exists_foreground (builds : d.Builds w foreground background) {i : Nat}
    {declaration : OperationDeclaration} {handler : Handler σ}
    (declared : d.foreground[i]? = some (declaration, handler)) : ∃ operation,
      foreground[i]? = some operation ∧ operation.Stems declaration w.percentiles ∧
        (declaration.pacing <|> d.defaultPacing) = some operation.pacing := by
  obtain ⟨operation, there, resolved⟩ :=
    exists_getElem?_of_forall₂ (forall₂_of_mapM builds.resolved) declared
  exact ⟨operation, there, Operation.stems_of_resolve resolved⟩

/-- Only the several pacings of a draft can lack one for a place. -/
theorem backgroundPacing_cases (d : WorkloadDraft σ) (i : Nat) :
    (d.backgroundPacings = [] ∧ d.backgroundPacing? i = none) ∨
      (∃ given, d.backgroundPacings = [given] ∧ d.backgroundPacing? i = some given) ∨
      (1 < d.backgroundPacings.length ∧ d.backgroundPacing? i = d.backgroundPacings[i]?) := by
  unfold backgroundPacing?
  rcases d.backgroundPacings with _ | ⟨given, _ | ⟨other, rest⟩⟩
  · exact Or.inl ⟨rfl, rfl⟩
  · exact Or.inr (Or.inl ⟨given, rfl, rfl⟩)
  · exact Or.inr (Or.inr ⟨by simp, rfl⟩)

theorem count_of_several (builds : d.Builds w foreground background)
    (several : 1 < d.backgroundPacings.length) :
    d.backgroundPacings.length = d.background.length := by
  have checked := builds.pacings
  unfold checkBackgroundPacings at checked
  split at checked
  next => cases checked
  next agrees => exact by_contra fun differ => agrees ⟨several, differ⟩

theorem exists_background (builds : d.Builds w foreground background) {i : Nat}
    {declaration : OperationDeclaration} {handler : Handler σ}
    (declared : d.background[i]? = some (declaration, handler)) : ∃ operation,
      background[i]? = some operation ∧ operation.Stems declaration w.percentiles ∧
        d.Paces i declaration operation.pacing := by
  have indexed : d.background.zipIdx[i]? = some ((declaration, handler), i) := by
    simp [List.getElem?_zipIdx, declared]
  obtain ⟨operation, there, resolved⟩ :=
    exists_getElem?_of_forall₂ (forall₂_of_mapM builds.resolvedBackground) indexed
  refine ⟨operation, there, ?_⟩
  dsimp only at resolved
  rcases backgroundPacing_cases d i with
    ⟨noPacings, given⟩ | ⟨shared, one, given⟩ | ⟨several, given⟩
  · rw [given] at resolved
    obtain ⟨stems, own⟩ := Operation.stems_of_resolve resolved
    exact ⟨stems, fun _ => own, by simp [noPacings], by simp [noPacings]⟩
  · rw [given] at resolved
    obtain ⟨stems, same⟩ := Operation.stems_of_given resolved
    exact ⟨stems, by simp [one], by simp [one, same], by simp [one]⟩
  · -- There are as many pacings as operations, so that there is one for the place.
    have within := (List.getElem?_eq_some_iff.mp declared).1
    have place : i < d.backgroundPacings.length := builds.count_of_several several ▸ within
    rw [List.getElem?_eq_getElem place] at given
    rw [given] at resolved
    obtain ⟨stems, same⟩ := Operation.stems_of_given resolved
    refine ⟨stems, fun noPacings => ?_, fun single one => ?_, fun _ => ?_⟩
    · simp [noPacings] at several
    · simp [one] at several
    · rw [List.getElem?_eq_getElem place, same]

theorem names_eq (builds : d.Builds w foreground background) :
    w.operations.map (·.name) = (d.foreground ++ d.background).map (·.1.name) := by
  have first : foreground.map (·.name) = d.foreground.map (·.1.name) :=
    map_eq_of_forall₂ (forall₂_of_mapM builds.resolved)
      fun _ _ resolved => (Operation.stems_of_resolve resolved).1.name
  have second : background.map (·.name) = d.background.map (·.1.name) := by
    refine List.ext_getElem? fun i => ?_
    rw [List.getElem?_map, List.getElem?_map]
    cases entry : d.background[i]? with
    | none =>
      have beyond := List.getElem?_eq_none_iff.mp entry
      rw [builds.length_background] at beyond
      rw [List.getElem?_eq_none_iff.mpr beyond]
      rfl
    | some declared =>
      obtain ⟨operation, there, stems, -⟩ := builds.exists_background entry
      rw [there, Option.map_some, Option.map_some, stems.name]
  rw [builds.operations, List.map_append, List.map_append, first, second]

theorem stems_of_mem (builds : d.Builds w foreground background) {operation : Operation}
    (mem : operation ∈ w.operations) : ∃ declared ∈ d.foreground ++ d.background,
      operation.Stems declared.1 w.percentiles := by
  rw [builds.operations] at mem
  rcases List.mem_append.mp mem with front | back
  · obtain ⟨declared, there, resolved⟩ :=
      exists_of_mem_forall₂ (forall₂_of_mapM builds.resolved) front
    exact ⟨declared, List.mem_append_left _ there, (Operation.stems_of_resolve resolved).1⟩
  · obtain ⟨i, within, rfl⟩ := List.mem_iff_getElem.mp back
    have place : i < d.background.length := builds.length_background ▸ within
    obtain ⟨operation, there, stems, -⟩ :=
      builds.exists_background (List.getElem?_eq_getElem place)
    rw [List.getElem?_eq_getElem within, Option.some.injEq] at there
    exact ⟨_, List.mem_append_right _ (List.getElem_mem place), there ▸ stems⟩

end Builds

/-- What can be relied on after a draft has been built. -/
structure Checked (d : WorkloadDraft σ) (w : Workload σ) : Prop where
  names : w.operations.map (·.name) = (d.foreground ++ d.background).map (·.1.name)
  distinct : (w.operations.map (·.name)).Nodup
  handlers : w.handlers = (d.foreground ++ d.background).map (·.2)
  length : w.handlers.length = w.operations.length
  foreground : w.foregroundCount = d.foreground.length
  limits : ∀ operation ∈ w.operations, operation.limits.length = w.percentiles.length
  pacings : ∀ (i : Nat) declaration handler, d.foreground[i]? = some (declaration, handler) →
    ∃ operation, w.operations[i]? = some operation ∧
      (declaration.pacing <|> d.defaultPacing) = some operation.pacing
  backgroundPacings : ∀ (i : Nat) declaration handler,
    d.background[i]? = some (declaration, handler) →
      ∃ operation, w.operations[w.foregroundCount + i]? = some operation ∧
        d.Paces i declaration operation.pacing

theorem Builds.checked {foreground background : List Operation}
    (builds : d.Builds w foreground background) : d.Checked w where
  names := builds.names_eq
  distinct := builds.names_eq ▸ nodup_of_checkNames builds.names
  handlers := builds.handlers
  length := by
    have same := congrArg List.length builds.names_eq
    rw [List.length_map, List.length_map] at same
    rw [builds.handlers, List.length_map, same]
  foreground := builds.foregroundCount.trans builds.length_foreground.symm
  limits operation mem := by
    obtain ⟨declared, -, stems⟩ := builds.stems_of_mem mem
    exact stems.count
  pacings i declaration handler entry := by
    obtain ⟨operation, there, -, pacing⟩ := builds.exists_foreground entry
    refine ⟨operation, ?_, pacing⟩
    rw [builds.operations, List.getElem?_append_left (List.getElem?_eq_some_iff.mp there).1]
    exact there
  backgroundPacings i declaration handler entry := by
    obtain ⟨operation, there, -, paces⟩ := builds.exists_background entry
    refine ⟨operation, ?_, paces⟩
    rw [builds.operations, builds.foregroundCount, List.getElem?_append_right (by omega)]
    simpa using there

end WorkloadDraft

/-- Every selection of the mix finds a place in its list of operations. -/
def Mix.Ready (m : Mix) : Prop :=
  match m.choice with
  | .weighted table => table.sums.length < m.operations.length
  | .sequence => 0 < m.operations.length

namespace WeightTable

theorem length_runningSums (before : Binary64) (weights : List Binary64) :
    (runningSums before weights).length = weights.length := by
  induction weights generalizing before with
  | nil => rfl
  | cons w rest ih => exact congrArg Nat.succ (ih _)

/-- The sum of all weights is left out. -/
theorem length_lt_of_ofWeights {weights : List Binary64} {table : WeightTable}
    (made : ofWeights weights = .ok table) : table.sums.length < weights.length := by
  unfold ofWeights at made
  split at made
  next => cases made
  next first rest =>
    dsimp only at made
    split at made
    next => cases made
    next =>
      cases made
      simp [length_runningSums]

end WeightTable

namespace Mix

variable {operations : List Nat} {m m' : Mix}

theorem ready_of_flat {weights : List Binary64} {names : List String}
    (made : flat operations weights names = .ok m) : m.operations = operations ∧ m.Ready := by
  unfold flat at made
  split at made
  next => cases made
  next =>
    split at made
    next => cases made
    next same =>
      split at made
      next => cases made
      next =>
        dsimp only at made
        split at made
        next => cases made
        next =>
          split at made
          next table tabled =>
            cases made
            have shorter := WeightTable.length_lt_of_ofWeights tabled
            rw [List.length_map] at shorter
            exact ⟨rfl, by simp only [Ready]; omega⟩
          next => cases made

theorem ready_of_fixedSequence (made : fixedSequence operations = .ok m) :
    m = ⟨operations, .sequence, defaultDeviation⟩ ∧ m.Ready := by
  unfold fixedSequence at made
  split at made
  next => cases made
  next nonempty =>
    cases made
    exact ⟨rfl, List.length_pos_iff.mpr (by simpa using nonempty)⟩

theorem of_withDeviation {deviation : Binary64} (made : m.withDeviation deviation = .ok m') :
    m' = { m with deviation := deviation } ∧ isDeviation deviation = true := by
  unfold withDeviation at made
  split at made
  next valid =>
    cases made
    exact ⟨rfl, valid⟩
  next => cases made

end Mix

namespace WorkloadDraft

variable {σ : Type} {d : WorkloadDraft σ} {w : Workload σ} {foreground background : List Operation}

theorem placeOf_eq_ok {name : String} {i : Nat} (placed : placeOf foreground name = .ok i) :
    ∃ operation, foreground[i]? = some operation ∧ operation.name = name := by
  unfold placeOf at placed
  split at placed
  next found =>
    cases placed
    obtain ⟨within, same, -⟩ := List.findIdx?_eq_some_iff_getElem.mp found
    exact ⟨_, List.getElem?_eq_getElem within, of_decide_eq_true same⟩
  next => cases placed

/-- A mix is resolved from weighted entries or from a sequence, and then given its deviation. -/
theorem resolveMix_cases {m : Mix} (resolved : d.resolveMix foreground = .ok m) :
    ∃ mix places, mix.withDeviation d.mixDeviation = .ok m ∧
      ((∃ entries, d.mix = some (.flat entries) ∧
          entries.mapM (fun entry => placeOf foreground entry.1) = .ok places ∧
            Mix.flat places (entries.map (·.2)) (entries.map (·.1)) = .ok mix) ∨
        ∃ names, d.mix = some (.sequence names) ∧ names.mapM (placeOf foreground) = .ok places ∧
          Mix.fixedSequence places = .ok mix) := by
  unfold resolveMix at resolved
  cases declared : d.mix with
  | none =>
    rw [declared] at resolved
    cases resolved
  | some declaration =>
    rw [declared] at resolved
    cases declaration with
    | flat entries =>
      obtain ⟨places, placed, resolved⟩ := exists_of_bind_ok resolved
      obtain ⟨mix, made, deviating⟩ := exists_of_bind_ok resolved
      exact ⟨mix, places, deviating, Or.inl ⟨entries, rfl, placed, made⟩⟩
    | sequence names =>
      obtain ⟨places, placed, resolved⟩ := exists_of_bind_ok resolved
      obtain ⟨mix, made, deviating⟩ := exists_of_bind_ok resolved
      exact ⟨mix, places, deviating, Or.inr ⟨names, rfl, placed, made⟩⟩

/-- The foreground mix is of foreground operations. -/
theorem Builds.mix_ready (builds : d.Builds w foreground background) :
    (∀ i ∈ w.mix.operations, i < w.foregroundCount) ∧ w.mix.Ready := by
  have within : ∀ {α : Type} {name : α → String} {entries : List α} {places : List Nat},
      entries.mapM (fun entry => placeOf foreground (name entry)) = .ok places →
        ∀ i ∈ places, i < w.foregroundCount := by
    intro α name entries places mapped i mem
    obtain ⟨entry, -, placed⟩ := exists_of_mem_forall₂ (forall₂_of_mapM mapped) mem
    obtain ⟨operation, there, -⟩ := placeOf_eq_ok placed
    rw [builds.foregroundCount]
    exact (List.getElem?_eq_some_iff.mp there).1
  obtain ⟨mix, places, deviating, made⟩ := resolveMix_cases builds.mix
  obtain ⟨same, -⟩ := Mix.of_withDeviation deviating
  rw [same]
  rcases made with ⟨entries, -, placed, made⟩ | ⟨names, -, placed, made⟩
  · obtain ⟨same, ready⟩ := Mix.ready_of_flat made
    exact ⟨same ▸ within placed, ready⟩
  · obtain ⟨rfl, ready⟩ := Mix.ready_of_fixedSequence made
    exact ⟨within placed, ready⟩

/-- The background mix is of background operations. -/
theorem Builds.backgroundMix_ready (builds : d.Builds w foreground background) {m : Mix}
    (has : w.backgroundMix = some m) :
    (∀ i ∈ m.operations, w.foregroundCount ≤ i ∧ i < w.operations.length) ∧ m.Ready := by
  have made := builds.backgroundMix
  unfold resolveBackgroundMix at made
  split at made
  next => cases (Except.ok.inj made).trans has
  next =>
    obtain ⟨mix, made, same⟩ := exists_of_map_ok made
    rw [has, Option.some.injEq] at same
    obtain ⟨rfl, ready⟩ := Mix.ready_of_fixedSequence made
    subst same
    refine ⟨fun i mem => ?_, ready⟩
    rw [builds.foregroundCount, builds.operations, List.length_append]
    exact List.mem_range'_1.mp mem

end WorkloadDraft

end LoadGen
