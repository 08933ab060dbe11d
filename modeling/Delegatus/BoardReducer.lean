import Delegatus.BoardValidation

/-!
# When the board reducer refuses nothing

Every mutation ends in `normalizeWith`, which throws exactly where the aliases that it is given
have a cycle, and leaves a board in normal form (`Normal`).  Only a remap gives it other aliases
than the board's own: `composed` writes the active pairs over them.  So `applyBoardMutations`
succeeds exactly when each remap of the list composes with the aliases that the board then has
(`Composes`), and what it leaves is well placed.
-/

namespace Delegatus.Boards

open AliasChains (Acyclic EndsAt Flat Flattens)

/-! ### Aliases -/

theorem nodup_unique (paths : List String) : (unique paths).Nodup :=
  DistinctSorts.nodup_eraseDups paths

theorem mem_unique {paths : List String} {path : String} : path ∈ unique paths ↔ path ∈ paths :=
  List.mem_eraseDups

section

variable {aliases start normalized : Aliases} {path target : String}

theorem at?_sources (path : String) (h : aliases.at? path ≠ none) : path ∈ aliases.keys :=
  Entries.mem_keys.mpr (Option.ne_none_iff_exists'.mp h)

theorem resolvePath_eq_ok : resolvePath path aliases = .ok target ↔ EndsAt aliases.at? path target := by
  rw [← AliasChains.walk_eq_iff at?_sources]
  unfold resolvePath
  cases AliasChains.walk aliases.at? (aliases.keys.length + 1) [] path with
  | mk resolved repeats => cases repeats <;> simp

/-- The path for which a path stands, where every alias leads to one that stands for itself. -/
def standsFor (aliases : Aliases) (path : String) : String := (aliases.at? path).getD path

theorem resolvePath_of_flat (hflat : Flat aliases.at?) (path : String) :
    resolvePath path aliases = .ok (standsFor aliases path) :=
  resolvePath_eq_ok.mpr (hflat.endsAt path)

theorem resolvePaths_of_flat (hflat : Flat aliases.at?) (paths : List String) :
    resolvePaths paths aliases = .ok (paths.map (standsFor aliases)) :=
  Refusals.mapM_eq fun path _ => resolvePath_of_flat hflat path

theorem standsFor_of_flat (hflat : Flat aliases.at?) (path : String) :
    aliases.at? (standsFor aliases path) = none :=
  (hflat.endsAt path).2

theorem standsFor_of_none (h : aliases.at? path = none) : standsFor aliases path = path := by
  rw [standsFor, h]
  exact rfl

theorem normalizeAlias_eq_ok {source : String} :
    normalizeAlias aliases start source = .ok normalized ↔ ∃ target, EndsAt aliases.at? source target ∧
      (if source ≠ target then start.set (source, target) else start) = normalized := by
  unfold normalizeAlias
  rw [Refusals.bind_eq_ok]
  apply exists_congr
  intro target
  rw [resolvePath_eq_ok, Except.ok.injEq]

/-- The aliases have a normal form exactly when they have no cycle. -/
theorem normalizedAliases_isOk :
    (∃ normalized, normalizedAliases aliases = .ok normalized) ↔ Acyclic aliases.at? := by
  have hsteps : ∀ start : Aliases, ∀ source : String,
      (∃ next, normalizeAlias aliases start source = .ok next) ↔
        ∃ target, EndsAt aliases.at? source target := by
    intro start source
    constructor
    · rintro ⟨next, hnext⟩
      obtain ⟨target, hend, -⟩ := normalizeAlias_eq_ok.mp hnext
      exact ⟨target, hend⟩
    · rintro ⟨target, hend⟩
      exact ⟨_, normalizeAlias_eq_ok.mpr ⟨target, hend, rfl⟩⟩
  rw [AliasChains.acyclic_iff_ends at?_sources]
  constructor
  · rintro ⟨normalized, hrun⟩ path
    by_cases hsource : path ∈ aliases.keys
    · obtain ⟨pre, post, hsplit⟩ := List.append_of_mem hsource
      rw [normalizedAliases, hsplit] at hrun
      obtain ⟨mid, -, hrest⟩ := Refusals.run_append_ok.mp hrun
      obtain ⟨next, hnext, -⟩ := Refusals.run_cons_ok.mp hrest
      exact (hsteps mid path).mp ⟨next, hnext⟩
    · refine ⟨path, EndsAt.refl ?_⟩
      by_contra hsome
      exact hsource (at?_sources path hsome)
  · intro hends
    apply (Refusals.run_isOk_iff (I := fun _ => True)
      (A := fun _ source => ∃ target, EndsAt aliases.at? source target)
      (fun _ _ _ _ _ _ => trivial) (fun start source _ _ => hsteps start source) trivial).mpr
    intro pre source post _ mid _
    exact hends source

/-- What the loop leaves: the ends of the sources that it has passed. -/
theorem run_normalizeAlias {sources : List String} (hsources : ∀ source ∈ sources, source ∈ aliases.keys)
    (h : Refusals.run (normalizeAlias aliases) start sources = .ok normalized) (path target : String) :
    normalized.at? path = some target ↔
      (path ∈ sources ∧ EndsAt aliases.at? path target) ∨
        (path ∉ sources ∧ start.at? path = some target) := by
  induction sources generalizing start with
  | nil =>
    obtain rfl := Except.ok.inj h
    simp
  | cons source rest ih =>
    obtain ⟨mid, hmid, hrest⟩ := Refusals.run_cons_ok.mp h
    obtain ⟨end_, hend, rfl⟩ := normalizeAlias_eq_ok.mp hmid
    have hne : source ≠ end_ := by
      rintro rfl
      obtain ⟨value, hvalue⟩ := Entries.mem_keys.mp (hsources source List.mem_cons_self)
      have hnone := hend.2
      rw [hvalue] at hnone
      cases hnone
    rw [ih (fun other hother => hsources other (List.mem_cons_of_mem _ hother)) hrest, if_pos hne,
      Entries.at?_set]
    by_cases hpath : path = source
    · rw [if_pos hpath, hpath]
      have hsame : EndsAt aliases.at? source target ↔ end_ = target :=
        ⟨hend.unique, fun h => h ▸ hend⟩
      simp [hsame]
      tauto
    · rw [if_neg hpath]
      simp [hpath]

theorem normalizedAliases_flattens (h : normalizedAliases aliases = .ok normalized) :
    Flattens aliases.at? normalized.at? := by
  intro path target
  rw [run_normalizeAlias (fun _ hsource => hsource) h, Entries.at?_empty]
  have hsource : path ∈ aliases.keys ↔ aliases.at? path ≠ none := by
    rw [Entries.mem_keys, Option.ne_none_iff_exists']
  simp [hsource]

end

/-! ### Normal form -/

/-- Paths read through flat aliases, once each and none of them hidden. -/
def visibleOf (aliases : Aliases) (hidden paths : List String) : List String :=
  unique ((paths.map (standsFor aliases)).filter (fun item => item ∉ hidden))

/-- What `normalizeWith` answers, said without its lookups. -/
def normalizedBoard (board : BoardProjectState) (canonicalAliases : Aliases) : BoardProjectState :=
  let hidden := unique (board.prefs.hidden.map (standsFor canonicalAliases))
  let manual := visibleOf canonicalAliases hidden board.prefs.manual
  { board with
    pathAliases := some canonicalAliases
    explicitManual := some ((visibleOf canonicalAliases hidden (board.explicitManual.getD [])).filter
      (fun item => item ∈ manual))
    prefs := { board.prefs with
      manual := manual
      hidden := hidden
      expanded := visibleOf canonicalAliases hidden board.prefs.expanded
      favorites := unique board.prefs.favorites
      foldedEngineChildIds := some (unique (board.prefs.foldedEngineChildIds.getD []))
      expandedEngineTrayParentIds := some (unique (board.prefs.expandedEngineTrayParentIds.getD []))
      seenAt := some (boundedSeenAt (board.prefs.seenAt.getD Table.empty))
      idleCollapseMinutes :=
        some (board.prefs.idleCollapseMinutes.getD (some DEFAULT_BOARD_IDLE_COLLAPSE_MINUTES)) } }

section

variable {board next : BoardProjectState} {aliases canonicalAliases : Aliases} {path : String}

theorem normalizeWith_eq_ok : normalizeWith board aliases = .ok next ↔
    ∃ canonicalAliases, normalizedAliases aliases = .ok canonicalAliases ∧
      next = normalizedBoard board canonicalAliases := by
  unfold normalizeWith
  rw [Refusals.bind_eq_ok]
  apply exists_congr
  intro canonicalAliases
  apply and_congr_right
  intro hnormalized
  have hflat := (normalizedAliases_flattens hnormalized).flat
  simp only [resolvePaths_of_flat hflat, bind, Except.bind]
  rw [Except.ok.injEq, eq_comm]
  exact Iff.rfl

theorem normalizeWith_isOk :
    (∃ next, normalizeWith board aliases = .ok next) ↔ Acyclic aliases.at? := by
  rw [← normalizedAliases_isOk]
  constructor
  · rintro ⟨next, hnext⟩
    obtain ⟨canonicalAliases, hnormalized, -⟩ := normalizeWith_eq_ok.mp hnext
    exact ⟨canonicalAliases, hnormalized⟩
  · rintro ⟨canonicalAliases, hnormalized⟩
    exact ⟨_, normalizeWith_eq_ok.mpr ⟨canonicalAliases, hnormalized, rfl⟩⟩

/-- A board in the form that `normalizeWith` leaves: the paths of every list stand for
themselves, no list has one twice, and a hidden path is nowhere else. -/
structure Normal (board : BoardProjectState) : Prop where
  flat : Flat (aliasesOf board).at?
  manual : board.prefs.manual.Nodup
  hidden : board.prefs.hidden.Nodup
  expanded : board.prefs.expanded.Nodup
  explicitManual : (board.explicitManual.getD []).Nodup
  favorites : board.prefs.favorites.Nodup
  foldedEngineChildIds : (board.prefs.foldedEngineChildIds.getD []).Nodup
  expandedEngineTrayParentIds : (board.prefs.expandedEngineTrayParentIds.getD []).Nodup
  pinned : ∀ path ∈ board.explicitManual.getD [], path ∈ board.prefs.manual
  hiddenEnds : ∀ path ∈ board.prefs.hidden, (aliasesOf board).at? path = none
  visible : ∀ path ∈ board.prefs.manual ++ board.prefs.expanded,
    (aliasesOf board).at? path = none ∧ path ∉ board.prefs.hidden

theorem mem_visibleOf {hidden paths : List String} (hflat : Flat aliases.at?)
    (h : path ∈ visibleOf aliases hidden paths) : aliases.at? path = none ∧ path ∉ hidden := by
  obtain ⟨hmem, hvisible⟩ := List.mem_filter.mp (mem_unique.mp h)
  obtain ⟨spelling, -, rfl⟩ := List.mem_map.mp hmem
  exact ⟨standsFor_of_flat hflat spelling, of_decide_eq_true hvisible⟩

theorem normal_normalizedBoard (hflat : Flat canonicalAliases.at?) :
    Normal (normalizedBoard board canonicalAliases) where
  flat := hflat
  manual := nodup_unique _
  hidden := nodup_unique _
  expanded := nodup_unique _
  explicitManual := (nodup_unique _).filter _
  favorites := nodup_unique _
  foldedEngineChildIds := nodup_unique _
  expandedEngineTrayParentIds := nodup_unique _
  pinned := fun path hpath => of_decide_eq_true (List.mem_filter.mp hpath).2
  hiddenEnds := by
    intro path hpath
    obtain ⟨spelling, -, rfl⟩ := List.mem_map.mp (mem_unique.mp hpath)
    exact standsFor_of_flat hflat spelling
  visible := by
    intro path hpath
    rcases List.mem_append.mp hpath with hpath | hpath
    · exact mem_visibleOf hflat hpath
    · exact mem_visibleOf hflat hpath

/-- What `normalizeWith` leaves. -/
theorem normalizeWith_ok (h : normalizeWith board aliases = .ok next) :
    Normal next ∧ Flattens aliases.at? (aliasesOf next).at? := by
  obtain ⟨canonicalAliases, hnormalized, rfl⟩ := normalizeWith_eq_ok.mp h
  have hflattens := normalizedAliases_flattens hnormalized
  exact ⟨normal_normalizedBoard hflattens.flat, hflattens⟩

end

/-! ### Remaps -/

/-- The pairs whose two paths do not stand for one path. -/
def activeAmong (aliases : String → Option String) (pairs : List RemapPair) : List RemapPair :=
  pairs.filter (fun pair =>
    (aliases pair.fromPath).getD pair.fromPath ≠ (aliases pair.toPath).getD pair.toPath)

/-- Aliases with the active pairs written over them. -/
def composed (aliases : String → Option String) (pairs : List RemapPair) : String → Option String :=
  (activeAmong aliases pairs).foldl
    (fun aliases pair path => if path = pair.fromPath then some pair.toPath else aliases path) aliases

/-- The aliases that a mutation is normalized with: a remap's own, else those of the board. -/
def aliasesWith (aliases : String → Option String) : BoardMutation → String → Option String
  | .remapPaths pairs _ => composed aliases pairs
  | _ => aliases

/-- Each mutation of the list composes with the aliases that the ones before it leave. -/
def Composes (aliases : String → Option String) : List BoardMutation → Prop
  | [] => True
  | mutation :: rest =>
    Acyclic (aliasesWith aliases mutation) ∧
      ∀ flattened, Flattens (aliasesWith aliases mutation) flattened → Composes flattened rest

section

variable {board next : BoardProjectState} {aliases : Aliases} {pairs : List RemapPair}

theorem activePairs_of_flat (hflat : Flat aliases.at?) (pairs : List RemapPair) :
    activePairs aliases pairs = .ok (activeAmong aliases.at? pairs) := by
  apply Refusals.filter_eq
  intro pair _
  rw [resolvePath_of_flat hflat, resolvePath_of_flat hflat]
  exact rfl

theorem at?_withPairs (aliases : Aliases) (pairs : List RemapPair) :
    (withPairs aliases pairs).at? = pairs.foldl
      (fun aliases pair path => if path = pair.fromPath then some pair.toPath else aliases path)
      aliases.at? := by
  induction pairs generalizing aliases with
  | nil => exact rfl
  | cons pair rest ih =>
    rw [withPairs, List.foldl_cons, List.foldl_cons]
    refine (ih _).trans ?_
    congr 1
    funext path
    exact Entries.at?_set aliases pair.fromPath path pair.toPath

theorem flattens_of_flat {next next' : String → Option String} (hflat : Flat next) :
    Flattens next next' ↔ next' = next := by
  have hself : Flattens next next := by
    intro path target
    constructor
    · intro h
      refine ⟨by rw [h]; exact Option.some_ne_none target, ?_⟩
      exact (AliasChains.endsAt_step h).mpr (EndsAt.refl (hflat path target h))
    · rintro ⟨hsource, hend⟩
      obtain ⟨value, hvalue⟩ := Option.ne_none_iff_exists'.mp hsource
      have hstep := (AliasChains.endsAt_step hvalue).mp hend
      rw [hvalue, hstep.unique (EndsAt.refl (hflat path value hvalue))]
  constructor
  · intro h
    funext path
    apply Option.ext
    intro target
    rw [h path target, hself path target]
  · rintro rfl
    exact hself

/-- A board whose aliases are flat is normalized, and keeps them. -/
theorem normalize_of_flat (hflat : Flat (aliasesOf board).at?) :
    ∃ next, normalize board = .ok next ∧ Normal next ∧ (aliasesOf next).at? = (aliasesOf board).at? := by
  obtain ⟨next, hnext⟩ := normalizeWith_isOk.mpr hflat.acyclic
  obtain ⟨hnormal, hflattens⟩ := normalizeWith_ok hnext
  exact ⟨next, hnext, hnormal, (flattens_of_flat hflat).mp hflattens⟩

theorem filter_keepsPlacement (hflat : Flat aliases.at?) (sources targets : List String)
    (authoritative : Bool) (paths : List String) :
    ∃ kept, Refusals.filter (keepsPlacement aliases sources targets authoritative) paths = .ok kept := by
  cases authoritative with
  | true => exact ⟨_, Refusals.filter_eq (p := fun _ => true) fun _ _ => rfl⟩
  | false =>
    refine ⟨_, Refusals.filter_eq (p := fun path =>
      decide (standsFor aliases path ∉ targets ∨ standsFor aliases path ∈ sources)) ?_⟩
    intro path _
    rw [keepsPlacement, if_neg Bool.false_ne_true, resolvePath_of_flat hflat]
    exact rfl

/-- A remap is a normalization with the composed aliases. -/
theorem remapPaths_of_flat (hflat : Flat (aliasesOf board).at?) (authoritative : Bool) :
    ∃ (remapped : BoardProjectState) (aliases : Aliases),
      remapPaths board pairs authoritative = normalizeWith remapped aliases ∧
        aliases.at? = composed (aliasesOf board).at? pairs := by
  unfold remapPaths
  dsimp only
  rw [activePairs_of_flat hflat]
  simp only [bind, Except.bind, resolvePaths_of_flat hflat]
  split_ifs with hactive
  · refine ⟨board, aliasesOf board, rfl, ?_⟩
    rw [composed, hactive]
    exact rfl
  · obtain ⟨manual, hmanual⟩ := filter_keepsPlacement hflat
      ((pairs.map RemapPair.fromPath).map (standsFor (aliasesOf board)))
      (((activeAmong (aliasesOf board).at? pairs).map RemapPair.toPath).map (standsFor (aliasesOf board)))
      authoritative board.prefs.manual
    obtain ⟨explicitManual, hexplicit⟩ := filter_keepsPlacement hflat
      ((pairs.map RemapPair.fromPath).map (standsFor (aliasesOf board)))
      (((activeAmong (aliasesOf board).at? pairs).map RemapPair.toPath).map (standsFor (aliasesOf board)))
      authoritative (board.explicitManual.getD [])
    rw [hmanual, hexplicit]
    exact ⟨_, _, rfl, at?_withPairs _ _⟩

theorem reconcileRoots_of_flat (hflat : Flat (aliasesOf board).at?) (roots removeManual : List String) :
    ∃ placed, aliasesOf placed = aliasesOf board ∧
      reconcileRoots board roots removeManual = normalize placed := by
  unfold reconcileRoots
  dsimp only
  simp only [bind, Except.bind, resolvePaths_of_flat hflat]
  refine ⟨_, ?_, rfl⟩
  exact rfl

theorem restore_eq (path : String) (placement : Placement) :
    ∃ placed, aliasesOf placed = aliasesOf board ∧ restore board path placement = normalize placed := by
  unfold restore
  cases placement with
  | auto =>
    refine ⟨_, ?_, rfl⟩
    exact rfl
  | manual =>
    refine ⟨_, ?_, rfl⟩
    exact rfl
  | expanded =>
    refine ⟨_, ?_, rfl⟩
    exact rfl

/-- **A mutation is a normalization** with the aliases that it composes. -/
theorem applyMutation_of_flat (hflat : Flat (aliasesOf board).at?) (mutation : BoardMutation) :
    ∃ (placed : BoardProjectState) (aliases : Aliases),
      applyMutation board mutation = normalizeWith placed aliases ∧
        aliases.at? = aliasesWith (aliasesOf board).at? mutation := by
  have hown : ∀ {placed : BoardProjectState}, aliasesOf placed = aliasesOf board →
      ∃ (placed' : BoardProjectState) (aliases : Aliases),
        normalize placed = normalizeWith placed' aliases ∧ aliases.at? = (aliasesOf board).at? :=
    fun {placed} hsame => ⟨placed, aliasesOf placed, rfl, by rw [hsame]⟩
  cases mutation with
  | remapPaths pairs authoritative => exact remapPaths_of_flat hflat _
  | reconcileRoots roots removeManual =>
    obtain ⟨placed, hsame, hplaced⟩ := reconcileRoots_of_flat hflat roots removeManual
    rw [applyMutation, hplaced]
    exact hown hsame
  | restore path placement =>
    obtain ⟨placed, hsame, hplaced⟩ := @restore_eq board (standsFor (aliasesOf board) path)
      placement
    simp only [applyMutation, bind, Except.bind, resolvePath_of_flat hflat, hplaced]
    exact hown hsame
  | setEngineChildFold id path folded =>
    simp only [applyMutation, bind, Except.bind, resolvePath_of_flat hflat]
    cases folded with
    | true => exact hown rfl
    | false => exact hown rfl
  | close path =>
    simp only [applyMutation, bind, Except.bind, resolvePath_of_flat hflat]
    exact hown rfl
  | setPresentation viewMode desktopBoard taskPanelOpen idleCollapseMinutes => exact hown rfl
  | setFavorite id favorite => exact hown rfl
  | setEngineTrayExpanded parentId expanded => exact hown rfl
  | markSeen id seconds => exact hown rfl

/-- What one mutation does to a board in normal form. -/
theorem applyMutation_isOk (hnormal : Normal board) (mutation : BoardMutation) :
    (∃ next, applyMutation board mutation = .ok next) ↔
      Acyclic (aliasesWith (aliasesOf board).at? mutation) := by
  obtain ⟨placed, aliases, hplaced, haliases⟩ := applyMutation_of_flat hnormal.flat mutation
  rw [hplaced, normalizeWith_isOk, haliases]

theorem applyMutation_ok (hnormal : Normal board) {mutation : BoardMutation}
    (h : applyMutation board mutation = .ok next) :
    Normal next ∧ Flattens (aliasesWith (aliasesOf board).at? mutation) (aliasesOf next).at? := by
  obtain ⟨placed, aliases, hplaced, haliases⟩ := applyMutation_of_flat hnormal.flat mutation
  rw [hplaced] at h
  rw [← haliases]
  exact normalizeWith_ok h

/-- **The fold over a request succeeds exactly when** each of its mutations composes. -/
theorem run_applyMutation_isOk (hnormal : Normal board) (mutations : List BoardMutation) :
    (∃ next, Refusals.run applyMutation board mutations = .ok next) ↔
      Composes (aliasesOf board).at? mutations := by
  induction mutations generalizing board with
  | nil => exact iff_of_true ⟨board, rfl⟩ trivial
  | cons mutation rest ih =>
    unfold Composes
    rw [← applyMutation_isOk hnormal mutation]
    constructor
    · rintro ⟨next, hrun⟩
      obtain ⟨mid, hmid, hrest⟩ := Refusals.run_cons_ok.mp hrun
      obtain ⟨hnormal', hflattens⟩ := applyMutation_ok hnormal hmid
      refine ⟨⟨mid, hmid⟩, fun flattened hflattened => ?_⟩
      rw [hflattened.unique hflattens]
      exact (ih hnormal').mp ⟨next, hrest⟩
    · rintro ⟨⟨mid, hmid⟩, hrest⟩
      obtain ⟨hnormal', hflattens⟩ := applyMutation_ok hnormal hmid
      obtain ⟨next, hnext⟩ := (ih hnormal').mpr (hrest _ hflattens)
      exact ⟨next, Refusals.run_cons_ok.mpr ⟨mid, hmid, hnext⟩⟩

theorem run_applyMutation_normal (hnormal : Normal board) {mutations : List BoardMutation}
    (h : Refusals.run applyMutation board mutations = .ok next) : Normal next :=
  Refusals.run_invariant (fun _ _ _ _ hstate hstep => (applyMutation_ok hstate hstep).1) hnormal h

end

/-! ### Requests -/

/-- A board as a request may leave it. -/
structure WellPlaced (board : BoardProjectState) : Prop where
  acyclic : Acyclic (aliasesOf board).at?
  flat : Flat (aliasesOf board).at?
  manual : board.prefs.manual.Nodup
  expanded : board.prefs.expanded.Nodup
  hidden : board.prefs.hidden.Nodup
  explicitManual : (board.explicitManual.getD []).Nodup
  favorites : board.prefs.favorites.Nodup
  foldedEngineChildIds : (board.prefs.foldedEngineChildIds.getD []).Nodup
  expandedEngineTrayParentIds : (board.prefs.expandedEngineTrayParentIds.getD []).Nodup
  pinned : ∀ path ∈ board.explicitManual.getD [], path ∈ board.prefs.manual
  visible : ∀ path ∈ board.prefs.manual ++ board.prefs.expanded, ∀ item ∈ board.prefs.hidden,
    resolvePath path (aliasesOf board) ≠ resolvePath item (aliasesOf board)

/-- The boards that accepted requests lead to from an empty one. -/
inductive Reachable : BoardProjectState → Prop where
  | empty : Reachable emptyBoard
  | request {board next : BoardProjectState} {mutations : List BoardMutation} :
      Reachable board → Accepted mutations → applyBoardMutations board mutations = .ok next →
        Reachable next

section

variable {board next previous : BoardProjectState} {mutations : List BoardMutation}

/-- The preserved spellings stand for hidden paths, so that no card comes under them. -/
theorem preserve_of_normal (hnormal : Normal next) (previous : BoardProjectState) :
    ∃ kept, preserveDurableHiddenSpellings previous next = .ok kept ∧ WellPlaced kept ∧
      aliasesOf kept = aliasesOf next := by
  have hflat := hnormal.flat
  have hends : next.prefs.hidden.map (standsFor (aliasesOf next)) = next.prefs.hidden :=
    List.map_congr_left (fun path hpath => standsFor_of_none (hnormal.hiddenEnds path hpath)) |>.trans
      (List.map_id _)
  have hfilter : Refusals.filter (isHiddenSpelling (aliasesOf next) next.prefs.hidden)
      previous.prefs.hidden = .ok (previous.prefs.hidden.filter
        (fun item => decide (standsFor (aliasesOf next) item ∈ next.prefs.hidden))) := by
    apply Refusals.filter_eq
    intro item _
    rw [isHiddenSpelling, resolvePath_of_flat hflat]
    exact rfl
  unfold preserveDurableHiddenSpellings
  simp only [bind, Except.bind, resolvePaths_of_flat hflat, hends, hfilter]
  refine ⟨_, rfl, ⟨hflat.acyclic, hflat, hnormal.manual, hnormal.expanded, nodup_unique _,
    hnormal.explicitManual, hnormal.favorites, hnormal.foldedEngineChildIds,
    hnormal.expandedEngineTrayParentIds, hnormal.pinned, ?_⟩, rfl⟩
  intro path hpath item hitem hsame
  obtain ⟨hend, hvisible⟩ := hnormal.visible path hpath
  have hstands : standsFor (aliasesOf next) item = path := by
    have hresolved := (resolvePath_of_flat hflat path).symm.trans
      (hsame.trans (resolvePath_of_flat hflat item))
    rw [← Except.ok.inj hresolved, standsFor_of_none hend]
  apply hvisible
  rw [← hstands]
  rcases List.mem_append.mp (mem_unique.mp hitem) with hpreserved | hhidden
  · exact of_decide_eq_true (List.mem_filter.mp hpreserved).2
  · rw [standsFor_of_none (hnormal.hiddenEnds item hhidden)]
    exact hhidden

/-- On a board with flat aliases a request succeeds exactly when its mutations compose, and it
leaves a well-placed board. -/
theorem applyBoardMutations_of_flat (hflat : Flat (aliasesOf board).at?) :
    ((∃ next, applyBoardMutations board mutations = .ok next) ↔
      Composes (aliasesOf board).at? mutations) ∧
    ∀ next, applyBoardMutations board mutations = .ok next → WellPlaced next := by
  obtain ⟨normalized, hnormalized, hnormal, hsame⟩ := normalize_of_flat hflat
  have hcall : applyBoardMutations board mutations =
      Refusals.run applyMutation normalized mutations >>= preserveDurableHiddenSpellings board := by
    rw [applyBoardMutations, hnormalized]
    exact rfl
  have hrun := run_applyMutation_isOk hnormal mutations
  rw [hcall, ← hsame, ← hrun]
  refine ⟨⟨?_, ?_⟩, ?_⟩
  · rintro ⟨next, hnext⟩
    obtain ⟨reduced, hreduced, -⟩ := Refusals.bind_eq_ok.mp hnext
    exact ⟨reduced, hreduced⟩
  · rintro ⟨reduced, hreduced⟩
    obtain ⟨kept, hkept, -⟩ := preserve_of_normal (run_applyMutation_normal hnormal hreduced) board
    exact ⟨kept, Refusals.bind_eq_ok.mpr ⟨reduced, hreduced, hkept⟩⟩
  · intro next hnext
    obtain ⟨reduced, hreduced, hkept⟩ := Refusals.bind_eq_ok.mp hnext
    obtain ⟨kept, hkept', hwell, -⟩ :=
      preserve_of_normal (run_applyMutation_normal hnormal hreduced) board
    rw [Except.ok.inj (hkept.symm.trans hkept')]
    exact hwell

theorem Reachable.flat (h : Reachable board) : Flat (aliasesOf board).at? := by
  induction h with
  | empty => exact fun path target h => nomatch h
  | request _ _ hnext ih => exact ((applyBoardMutations_of_flat ih).2 _ hnext).flat

/-- **The reducer meets its invariant on a request exactly when** each remap composes with the
aliases that the board has at its turn without a cycle. -/
theorem reducer_total_iff (hreachable : Reachable board) (_haccepted : Accepted mutations) :
    (∃ next, applyBoardMutations board mutations = .ok next ∧ WellPlaced next) ↔
      Composes (aliasesOf board).at? mutations := by
  obtain ⟨hok, hwell⟩ := @applyBoardMutations_of_flat _ mutations
    hreachable.flat
  rw [← hok]
  exact exists_congr fun next => and_iff_left_of_imp (hwell next)

end

/-! ### Crossed remaps -/

/-- Two conversations resumed. -/
def resumeRequest : List BoardMutation :=
  [.remapPaths [⟨"/first", "/first-resumed"⟩, ⟨"/second", "/second-resumed"⟩] none]

/-- Each resumed path is sent to the other conversation under its old name. -/
def crossRequest : List BoardMutation :=
  [.remapPaths [⟨"/first-resumed", "/second"⟩, ⟨"/second-resumed", "/first"⟩] none]

def resumedBoard : BoardProjectState :=
  { emptyBoard with
    pathAliases := some ⟨[("/first", "/first-resumed"), ("/second", "/second-resumed")], by decide⟩ }

theorem reachable_resumedBoard : Reachable resumedBoard :=
  @Reachable.request _ _ resumeRequest Reachable.empty ⟨resumeRequest, by decide⟩
    (by decide)

theorem cross_throws :
    applyBoardMutations resumedBoard crossRequest = .error "board path alias cycle" := by
  decide

theorem crossed_remap_throws :
    ¬ ∀ (board : BoardProjectState) (mutations : List BoardMutation), Reachable board →
      Accepted mutations →
        ∃ next, applyBoardMutations board mutations = .ok next ∧ WellPlaced next := by
  intro h
  obtain ⟨next, hnext, -⟩ := h resumedBoard crossRequest reachable_resumedBoard
    ⟨crossRequest, by decide⟩
  rw [cross_throws] at hnext
  cases hnext

theorem reducer_total_iff_crossed :
    (∃ next, applyBoardMutations resumedBoard crossRequest = .ok next ∧ WellPlaced next) ↔
      Composes (aliasesOf resumedBoard).at? crossRequest :=
  reducer_total_iff reachable_resumedBoard ⟨crossRequest, by decide⟩

end Delegatus.Boards
