import Delegatus.BoardKeys
import Delegatus.BoardReducer

/-!
# The keys of a mutation cover what it changes

A client fences a mutation on `mutationKeys`, and `boardKeysChanged` tells what a write changed.
`Covers` says that a mutation normalizes a board which differs from the one before only in paths
whose class is under a key, and that the classes under no key keep their paths.  Only a remap
writes aliases: a class that none of its pairs is in afterwards was one before (`remap_stands`).
-/

namespace Delegatus.Boards

open AliasChains (EndsAt Flat)

/-! ### The role of a class -/

/-- The rank of the role that a path is placed in, or `0`. -/
def rankAt (placements : Entries String Role) (path : String) : Nat :=
  ((placements.at? path).map Role.rank).getD 0

/-- Two boards give a path the same role. -/
structure SameAt (board other : BoardProjectState) (path : String) : Prop where
  hidden : path ∈ board.prefs.hidden ↔ path ∈ other.prefs.hidden
  expanded : path ∈ board.prefs.expanded ↔ path ∈ other.prefs.expanded
  manual : path ∈ board.prefs.manual ↔ path ∈ other.prefs.manual
  pinned : path ∈ board.explicitManual.getD [] ↔ path ∈ other.explicitManual.getD []

/-- A class that a board reads off its own path. -/
structure CleanAt (aliases : Aliases) (board : BoardProjectState) (path : String) : Prop where
  hidden : ∀ spelling ∈ board.prefs.hidden, standsFor aliases spelling = path → path ∈ board.prefs.hidden
  visible : ∀ spelling ∈ board.prefs.manual ++ board.prefs.expanded, standsFor aliases spelling = path →
    spelling = path

section

variable {aliases : Aliases} {board other : BoardProjectState} {path : String}

theorem resolveThrough_of_flat (hflat : Flat aliases.at?) (path : String) :
    resolveThrough path aliases = standsFor aliases path := by
  rw [resolveThrough, (AliasChains.walk_eq_iff at?_sources).mpr (hflat.endsAt path)]
  exact rfl

theorem standsFor_standsFor (hflat : Flat aliases.at?) (path : String) :
    standsFor aliases (standsFor aliases path) = standsFor aliases path :=
  standsFor_of_none (standsFor_of_flat hflat path)

theorem at?_eq_of_rankAt {placements placements' : Entries String Role}
    (h : ∀ bound, rankAt placements path ≤ bound ↔ rankAt placements' path ≤ bound) :
    placements.at? path = placements'.at? path := by
  have hrank : rankAt placements path = rankAt placements' path :=
    le_antisymm ((h _).mpr le_rfl) ((h _).mp le_rfl)
  unfold rankAt at hrank
  generalize placements.at? path = role at hrank ⊢
  generalize placements'.at? path = role' at hrank ⊢
  rcases role with _ | role <;> rcases role' with _ | role'
  · exact rfl
  · cases role' <;> exact absurd hrank (by decide)
  · cases role <;> exact absurd hrank (by decide)
  · cases role <;> cases role' <;> first | exact rfl | exact absurd hrank (by decide)

theorem rankAt_putRole (placements : Entries String Role) (row : String × Role) (path : String) :
    rankAt (putRole aliases placements row) path =
      if resolveThrough row.1 aliases = path then max (rankAt placements path) row.2.rank
      else rankAt placements path := by
  unfold putRole rankAt
  dsimp only
  by_cases hclass : resolveThrough row.1 aliases = path
  · rw [if_pos hclass, hclass]
    cases hexisting : placements.at? path with
    | none => simp [Entries.at?_set]
    | some existing =>
      dsimp only
      split
      · next hrank => simp [Entries.at?_set, le_of_lt hrank]
      · next hrank => simp [hexisting, not_lt.mp hrank]
  · rw [if_neg hclass]
    cases placements.at? (resolveThrough row.1 aliases) with
    | none => simp [Entries.at?_set, Ne.symm hclass]
    | some existing =>
      dsimp only
      split
      · simp [Entries.at?_set, Ne.symm hclass]
      · exact rfl

/-- The fold keeps the highest role of each class. -/
theorem rankAt_foldl (rows : List (String × Role)) (start : Entries String Role) (bound : Nat) :
    rankAt (rows.foldl (putRole aliases) start) path ≤ bound ↔ rankAt start path ≤ bound ∧
      ∀ row ∈ rows, resolveThrough row.1 aliases = path → row.2.rank ≤ bound := by
  induction rows generalizing start with
  | nil => simp
  | cons row rest ih =>
    rw [List.foldl_cons, ih, rankAt_putRole, List.forall_mem_cons, ← and_assoc]
    apply and_congr_left'
    split_ifs with hclass
    · simp [hclass]
    · simp [hclass]

theorem rankAt_canonicalPlacements (hflat : Flat aliases.at?) (hself : standsFor aliases path = path)
    (hclean : CleanAt aliases board path) (bound : Nat) :
    rankAt (canonicalPlacements board aliases) path ≤ bound ↔
      (path ∈ board.prefs.hidden → Role.hidden.rank ≤ bound) ∧
        (path ∈ board.prefs.expanded → Role.expanded.rank ≤ bound) ∧
          (path ∈ board.prefs.manual →
            (if path ∈ board.explicitManual.getD [] then Role.pinned else Role.manual).rank ≤ bound) := by
  rw [canonicalPlacements, rankAt_foldl]
  simp only [List.forall_mem_append, List.forall_mem_map, resolveThrough_of_flat hflat]
  constructor
  · rintro ⟨-, ⟨hhidden, hexpanded⟩, hmanual⟩
    exact ⟨fun h => hhidden path h hself, fun h => hexpanded path h hself, fun h => hmanual path h hself⟩
  · rintro ⟨hhidden, hexpanded, hmanual⟩
    refine ⟨Nat.zero_le _, ⟨fun spelling h hclass => hhidden (hclean.hidden spelling h hclass), ?_⟩, ?_⟩
    · intro spelling h hclass
      obtain rfl := hclean.visible spelling (List.mem_append_right _ h) hclass
      exact hexpanded h
    · intro spelling h hclass
      obtain rfl := hclean.visible spelling (List.mem_append_left _ h) hclass
      exact hmanual h

/-- Boards that give a clean class one role place it alike; a path that stands for another is in
no placement. -/
theorem canonicalPlacements_congr (hflat : Flat aliases.at?) (h : standsFor aliases path = path →
      CleanAt aliases board path ∧ CleanAt aliases other path ∧ SameAt board other path) :
    (canonicalPlacements board aliases).at? path = (canonicalPlacements other aliases).at? path := by
  apply at?_eq_of_rankAt
  intro bound
  by_cases hself : standsFor aliases path = path
  · obtain ⟨hclean, hclean', hsame⟩ := h hself
    rw [rankAt_canonicalPlacements hflat hself hclean, rankAt_canonicalPlacements hflat hself hclean',
      hsame.hidden, hsame.expanded, hsame.manual]
    simp only [hsame.pinned]
  · have hnone : ∀ read, rankAt (canonicalPlacements read aliases) path ≤ bound := by
      refine fun read => (rankAt_foldl _ _ _).mpr ⟨Nat.zero_le _, fun row _ hrow => absurd ?_ hself⟩
      rw [← hrow, resolveThrough_of_flat hflat, standsFor_standsFor hflat]
    exact iff_of_true (hnone board) (hnone other)

end

/-! ### What a mutation leaves alone -/

/-- Two boards that agree on the paths of `P`, and on the fields that have no key here. -/
structure SameOff (P : String → Prop) (keys : List String) (board other : BoardProjectState) :
    Prop where
  placed : ∀ path, P path → SameAt board other path
  favorites : ∀ id, favoriteKey id ∉ keys → (id ∈ board.prefs.favorites ↔ id ∈ other.prefs.favorites)
  folds : ∀ id, foldKey id ∉ keys → (id ∈ board.prefs.foldedEngineChildIds.getD [] ↔
    id ∈ other.prefs.foldedEngineChildIds.getD [])
  trays : ∀ id, trayKey id ∉ keys → (id ∈ board.prefs.expandedEngineTrayParentIds.getD [] ↔
    id ∈ other.prefs.expandedEngineTrayParentIds.getD [])
  viewMode : VIEW_MODE_KEY ∉ keys → board.prefs.viewMode = other.prefs.viewMode
  desktopBoard : DESKTOP_BOARD_KEY ∉ keys → board.prefs.desktopBoard = other.prefs.desktopBoard
  taskPanelOpen : TASK_PANEL_KEY ∉ keys → board.prefs.taskPanelOpen = other.prefs.taskPanelOpen
  idle : IDLE_COLLAPSE_KEY ∉ keys →
    board.prefs.idleCollapseMinutes.getD (some DEFAULT_BOARD_IDLE_COLLAPSE_MINUTES) =
      other.prefs.idleCollapseMinutes.getD (some DEFAULT_BOARD_IDLE_COLLAPSE_MINUTES)

/-- A board whose hidden classes are hidden under their own paths, and whose cards stand for
themselves. -/
structure Settled (board : BoardProjectState) : Prop where
  hidden : ∀ path ∈ board.prefs.hidden, standsFor (aliasesOf board) path ∈ board.prefs.hidden
  visible : ∀ path ∈ board.prefs.manual ++ board.prefs.expanded,
    standsFor (aliasesOf board) path = path ∧ path ∉ board.prefs.hidden
  pinned : ∀ path ∈ board.explicitManual.getD [], path ∈ board.prefs.manual

/-- The class of a path is under no key. -/
def Unkeyed (aliases : Aliases) (keys : List String) (path : String) : Prop :=
  pathKey (standsFor aliases path) ∉ keys

/-- A class under no key keeps its paths. -/
def Renames (board : BoardProjectState) (aliases : Aliases) (keys : List String) : Prop :=
  ∀ path, Unkeyed aliases keys path → standsFor (aliasesOf board) path = standsFor aliases path

def seenStamps (board : BoardProjectState) : Entries String Nat := board.prefs.seenAt.getD Table.empty

/-- The acknowledgements after a mutation, before the freshest are taken. -/
def acknowledge (stamps : Entries String Nat) : BoardMutation → Entries String Nat
  | .markSeen id seconds => stamps.set (id, max ((stamps.at? id).getD 0) seconds)
  | _ => stamps

def Covers (board next : BoardProjectState) (mutation : BoardMutation) : Prop :=
  ∃ (placed : BoardProjectState) (aliases : Aliases), Flat aliases.at? ∧
    next = normalizedBoard placed aliases ∧ seenStamps placed = acknowledge (seenStamps board) mutation ∧
      Renames board aliases (mutationKeys mutation aliases) ∧
        SameOff (Unkeyed aliases (mutationKeys mutation aliases)) (mutationKeys mutation aliases) board
          placed

section

variable {aliases : Aliases} {board next placed : BoardProjectState} {mutation : BoardMutation}
  {keys : List String} {path : String}

theorem SameOff.refl (P : String → Prop) (keys : List String) (board : BoardProjectState) :
    SameOff P keys board board :=
  ⟨fun _ _ => ⟨Iff.rfl, Iff.rfl, Iff.rfl, Iff.rfl⟩, fun _ _ => Iff.rfl, fun _ _ => Iff.rfl,
    fun _ _ => Iff.rfl, fun _ => rfl, fun _ => rfl, fun _ => rfl, fun _ => rfl⟩

theorem Settled.of_normal (h : Normal board) : Settled board where
  hidden := fun path hpath => by rwa [standsFor_of_none (h.hiddenEnds path hpath)]
  visible := fun path hpath =>
    ⟨standsFor_of_none (h.visible path hpath).1, (h.visible path hpath).2⟩
  pinned := h.pinned

theorem Settled.clean (h : Settled board) (hren : Renames board aliases keys) (hoff : pathKey path ∉ keys) :
    CleanAt aliases board path := by
  have hstands : ∀ spelling, standsFor aliases spelling = path →
      standsFor (aliasesOf board) spelling = path :=
    fun spelling hclass => (hren spelling (by rwa [Unkeyed, hclass])).trans hclass
  exact ⟨fun spelling hmem hclass => hstands spelling hclass ▸ h.hidden spelling hmem,
    fun spelling hmem hclass => (h.visible spelling hmem).1.symm.trans (hstands spelling hclass)⟩

/-- A normalization leaves the classes under no key where they were. -/
theorem SameOff.normalized (hsettled : Settled board) (hren : Renames board aliases keys)
    (h : SameOff (Unkeyed aliases keys) keys board placed) :
    SameOff (fun path => standsFor aliases path = path ∧ pathKey path ∉ keys) keys board
      (normalizedBoard placed aliases) where
  placed := by
    rintro path ⟨hself, hoff⟩
    have hclean := hsettled.clean hren hoff
    have hsame : ∀ spelling, standsFor aliases spelling = path → SameAt board placed spelling :=
      fun spelling hclass => h.placed spelling (by rwa [Unkeyed, hclass])
    have hhidden : path ∈ board.prefs.hidden ↔ path ∈ (normalizedBoard placed aliases).prefs.hidden := by
      refine Iff.trans ?_ (mem_unique.trans List.mem_map).symm
      constructor
      · exact fun hmem => ⟨path, (hsame path hself).hidden.mp hmem, hself⟩
      · rintro ⟨spelling, hmem, hclass⟩
        exact hclean.hidden spelling ((hsame spelling hclass).hidden.mpr hmem) hclass
    have hshown : ∀ {paths paths' : List String},
        (∀ spelling ∈ paths, spelling ∈ board.prefs.manual ++ board.prefs.expanded) →
          (∀ spelling, standsFor aliases spelling = path → (spelling ∈ paths ↔ spelling ∈ paths')) →
            (path ∈ paths ↔
              path ∈ visibleOf aliases (normalizedBoard placed aliases).prefs.hidden paths') := by
      intro paths paths' hcards hsame
      rw [visibleOf, mem_unique, List.mem_filter, List.mem_map, decide_eq_true_eq, ← hhidden]
      constructor
      · exact fun hmem => ⟨⟨path, (hsame path hself).mp hmem, hself⟩,
          (hsettled.visible path (hcards path hmem)).2⟩
      · rintro ⟨⟨spelling, hmem, hclass⟩, -⟩
        have hpaths := (hsame spelling hclass).mpr hmem
        rwa [← hclean.visible spelling (hcards spelling hpaths) hclass]
    have hmanual := hshown (fun _ => List.mem_append_left _) fun s hs => (hsame s hs).manual
    have hpinned := hshown (fun s hs => List.mem_append_left _ (hsettled.pinned s hs))
      fun s hs => (hsame s hs).pinned
    refine ⟨hhidden, hshown (fun _ => List.mem_append_right _) fun s hs => (hsame s hs).expanded, hmanual,
      fun hmem => List.mem_filter.mpr ⟨hpinned.mp hmem, ?_⟩, fun hmem => hpinned.mpr (List.mem_filter.mp hmem).1⟩
    exact decide_eq_true (hmanual.mp (hsettled.pinned path hmem))
  favorites := fun id hid => (h.favorites id hid).trans mem_unique.symm
  folds := fun id hid => (h.folds id hid).trans mem_unique.symm
  trays := fun id hid => (h.trays id hid).trans mem_unique.symm
  viewMode := h.viewMode
  desktopBoard := h.desktopBoard
  taskPanelOpen := h.taskPanelOpen
  idle := h.idle

/-- A mutation that keeps the aliases: a path that it names has a key. -/
theorem covers_of_normalize (hnormal : Normal board) (h : normalize placed = .ok next)
    (haliases : aliasesOf placed = aliasesOf board)
    (hseen : seenStamps placed = acknowledge (seenStamps board) mutation)
    (hplaced : ∀ aliases : Aliases,
      (∀ {path}, Unkeyed aliases (mutationKeys mutation aliases) path → ∀ pathname,
        pathKey (resolveThrough pathname aliases) ∈ mutationKeys mutation aliases →
          path ≠ standsFor (aliasesOf board) pathname) →
      SameOff (Unkeyed aliases (mutationKeys mutation aliases)) (mutationKeys mutation aliases) board placed) :
    Covers board next mutation := by
  obtain ⟨own, hown, rfl⟩ := normalizeWith_eq_ok.mp h
  have hflattens := normalizedAliases_flattens hown
  have hat : own.at? = (aliasesOf board).at? :=
    (flattens_of_flat hnormal.flat).mp (haliases ▸ hflattens)
  have hstands : standsFor own = standsFor (aliasesOf board) := by
    funext path
    rw [standsFor, hat]
    exact rfl
  refine ⟨placed, own, hflattens.flat, rfl, hseen, fun path _ => (congrFun hstands path).symm, hplaced own ?_⟩
  rintro _ hoff pathname hkey rfl
  rw [resolveThrough_of_flat hflattens.flat] at hkey
  rw [Unkeyed, ← hstands, standsFor_standsFor hflattens.flat] at hoff
  exact hoff hkey

theorem mem_placeRoots {roots : List String} (hpath : path ∉ roots) (state : List String × List String) :
    path ∈ (roots.foldl (fun (state : List String × List String) root =>
      if root ∈ state.2 then state else (state.1 ++ [root], state.2 ++ [root])) state).1 ↔
        path ∈ state.1 := by
  induction roots generalizing state with
  | nil => exact Iff.rfl
  | cons root rest ih =>
    obtain ⟨hroot, hrest⟩ := not_or.mp (mt List.mem_cons.mpr hpath)
    rw [List.foldl_cons, ih hrest]
    split
    · exact Iff.rfl
    · simp [hroot]

/-! ### Remaps -/

theorem composed_of_not_source {own : String → Option String} {pairs : List RemapPair}
    (h : ∀ pair ∈ pairs, path ≠ pair.fromPath) : composed own pairs path = own path := by
  have hactive : ∀ pair ∈ activeAmong own pairs, path ≠ pair.fromPath :=
    fun pair hpair => h pair (List.mem_filter.mp hpair).1
  unfold composed
  generalize activeAmong own pairs = active at hactive
  induction active generalizing own with
  | nil => exact rfl
  | cons pair rest ih =>
    rw [List.foldl_cons, ih fun other hother => hactive other (List.mem_cons_of_mem _ hother),
      if_neg (hactive pair List.mem_cons_self)]

variable {written : Aliases} {pairs : List RemapPair}

theorem endsAt_standsFor (hwritten : normalizedAliases written = .ok aliases) (path : String) :
    EndsAt written.at? path (standsFor aliases path) := by
  obtain ⟨target, hend⟩ := (AliasChains.acyclic_iff_ends at?_sources).mp
    (normalizedAliases_isOk.mp ⟨aliases, hwritten⟩) path
  have hflattens := normalizedAliases_flattens hwritten path
  rw [standsFor]
  cases hpath : written.at? path with
  | none =>
    have hnone : aliases.at? path = none :=
      Option.eq_none_iff_forall_ne_some.mpr fun value hvalue => ((hflattens value).mp hvalue).1 hpath
    rw [hnone]
    exact EndsAt.refl hpath
  | some value =>
    rw [(hflattens target).mpr ⟨by rw [hpath]; exact Option.some_ne_none value, hend⟩]
    exact hend

/-- A class that no source of a pair is in afterwards was one before. -/
theorem remap_stands (hflat : Flat (aliasesOf board).at?)
    (hat : written.at? = composed (aliasesOf board).at? pairs)
    (hwritten : normalizedAliases written = .ok aliases)
    (hsources : ∀ pair ∈ pairs, standsFor aliases path ≠ standsFor aliases pair.fromPath) :
    standsFor (aliasesOf board) path = standsFor aliases path := by
  have hown : ∀ middle, EndsAt written.at? middle (standsFor aliases path) →
      written.at? middle = (aliasesOf board).at? middle := by
    intro middle hmiddle
    rw [hat]
    apply composed_of_not_source
    rintro pair hpair rfl
    exact hsources pair hpair (hmiddle.unique (endsAt_standsFor hwritten _))
  obtain ⟨hpath, hlast⟩ := endsAt_standsFor hwritten path
  generalize standsFor aliases path = last at hown hpath hlast ⊢
  clear hsources
  refine (hflat.endsAt path).unique ⟨?_, ?_⟩
  · induction hpath using Relation.ReflTransGen.head_induction_on with
    | refl => exact Relation.ReflTransGen.refl
    | head hstep hrest ih =>
      refine Relation.ReflTransGen.head ?_ ih
      rw [AliasChains.Redirects, ← hown _ ⟨hrest.head hstep, hlast⟩]
      exact hstep
  · rw [← hown _ (EndsAt.refl hlast)]
    exact hlast

/-- The target of a pair that is no source stays in its class. -/
theorem remap_target {target : String} (hat : written.at? = composed (aliasesOf board).at? pairs)
    (hwritten : normalizedAliases written = .ok aliases) (hself : standsFor aliases path = path)
    (hsources : ∀ pair ∈ pairs, target ≠ pair.fromPath)
    (h : standsFor (aliasesOf board) target = path) : standsFor aliases target = path := by
  have hstep : written.at? target = (aliasesOf board).at? target := by
    rw [hat, composed_of_not_source hsources]
  have hpath := endsAt_standsFor hwritten path
  rw [hself] at hpath
  refine (endsAt_standsFor hwritten target).unique ?_
  rw [standsFor] at h
  cases hown : (aliasesOf board).at? target with
  | none =>
    rw [hown] at h
    exact h ▸ hpath
  | some next =>
    rw [hown] at h
    exact (AliasChains.endsAt_step (hstep.trans hown)).mpr (h ▸ hpath)

theorem keepsPlacement_of_flat (hflat : Flat aliases.at?) (sources targets : List String)
    (authoritative : Bool) (path : String) :
    keepsPlacement aliases sources targets authoritative path = .ok
      (authoritative || decide (standsFor aliases path ∉ targets ∨ standsFor aliases path ∈ sources)) := by
  cases authoritative with
  | true => exact rfl
  | false =>
    rw [keepsPlacement, if_neg Bool.false_ne_true, resolvePath_of_flat hflat]
    exact rfl

theorem remapPaths_covers (hnormal : Normal board) {authoritative : Option Bool}
    (h : applyMutation board (.remapPaths pairs authoritative) = .ok next) :
    Covers board next (.remapPaths pairs authoritative) := by
  have hflat := hnormal.flat
  simp only [applyMutation, remapPaths, bind, Except.bind, activePairs_of_flat hflat,
    resolvePaths_of_flat hflat] at h
  have hcovers : ∀ {placed : BoardProjectState} {written : Aliases},
      normalizeWith placed written = .ok next → written.at? = composed (aliasesOf board).at? pairs →
        seenStamps placed = seenStamps board → (∀ aliases, normalizedAliases written = .ok aliases → Flat aliases.at? →
          Renames board aliases (mutationKeys (.remapPaths pairs authoritative) aliases) →
            SameOff (Unkeyed aliases (mutationKeys (.remapPaths pairs authoritative) aliases))
              (mutationKeys (.remapPaths pairs authoritative) aliases) board placed) →
          Covers board next (.remapPaths pairs authoritative) := by
    intro placed written hnext hat hseen hplaced
    obtain ⟨own, hown, rfl⟩ := normalizeWith_eq_ok.mp hnext
    have hflat' := (normalizedAliases_flattens hown).flat
    have hren : Renames board own (mutationKeys (.remapPaths pairs authoritative) own) := by
      refine fun path hoff => remap_stands hflat hat hown fun pair hpair hclass => hoff ?_
      exact List.mem_flatMap.mpr ⟨pair, hpair, by simp [resolveThrough_of_flat hflat', hclass]⟩
    exact ⟨placed, own, hflat', rfl, hseen, hren, hplaced own hown hflat' hren⟩
  split at h
  · next hactive =>
    refine hcovers h ?_ rfl fun _ _ _ _ => SameOff.refl _ _ _
    rw [composed, hactive]
    exact rfl
  · obtain ⟨keep, hkeep⟩ : ∃ keep : String → Bool, ∀ path, keep path = (authoritative.getD false ||
        decide (standsFor (aliasesOf board) path ∉
          ((activeAmong (aliasesOf board).at? pairs).map RemapPair.toPath).map (standsFor (aliasesOf board)) ∨
            standsFor (aliasesOf board) path ∈
              (pairs.map RemapPair.fromPath).map (standsFor (aliasesOf board)))) := ⟨_, fun _ => rfl⟩
    have hfilter : ∀ paths : List String, Refusals.filter (keepsPlacement (aliasesOf board)
        ((pairs.map RemapPair.fromPath).map (standsFor (aliasesOf board)))
        (((activeAmong (aliasesOf board).at? pairs).map RemapPair.toPath).map (standsFor (aliasesOf board)))
        (authoritative.getD false)) paths = .ok (paths.filter keep) := by
      intro paths
      apply Refusals.filter_eq
      intro path _
      rw [keepsPlacement_of_flat hflat, hkeep]
    rw [hfilter, hfilter] at h
    refine hcovers h (at?_withPairs _ _) rfl fun aliases hown hflat' hren =>
      { SameOff.refl (fun _ => True) _ board with placed := fun path hoff => ?_ }
    have hkept : keep path = true := by
      rw [hkeep, hren path hoff, Bool.or_eq_true, decide_eq_true_eq]
      by_contra hdrop
      -- the path is in the class of a target that is no source
      obtain ⟨htarget, hsource⟩ := not_or.mp (not_or.mp hdrop).2
      obtain ⟨_, hto, hstands⟩ := List.mem_map.mp (not_not.mp htarget)
      obtain ⟨pair, hpair, rfl⟩ := List.mem_map.mp hto
      have hclass : standsFor aliases pair.toPath = standsFor aliases path := by
        refine remap_target (at?_withPairs _ _) hown (standsFor_standsFor hflat' path) ?_ hstands
        intro other hother hsame
        exact hsource (hstands ▸ hsame ▸ List.mem_map_of_mem (List.mem_map_of_mem hother))
      refine hoff (List.mem_flatMap.mpr ⟨pair, (List.mem_filter.mp hpair).1, ?_⟩)
      simp [resolveThrough_of_flat hflat', hclass]
    constructor <;> simp [hkept]

/-! ### Mutations -/

theorem mem_withMember {ids : List String} {id other : String} {member : Bool} (hne : other ≠ id) :
    other ∈ ids ↔ other ∈ withMember ids id member := by
  cases member with
  | true => simp [withMember, mem_unique, hne]
  | false => simp [withMember, hne]

/-- **A mutation writes under its keys.** -/
theorem applyMutation_covers (hnormal : Normal board) (h : applyMutation board mutation = .ok next) :
    Covers board next mutation := by
  have hflat := hnormal.flat
  cases mutation with
  | remapPaths pairs authoritative => exact remapPaths_covers hnormal h
  | close pathname =>
    simp only [applyMutation, bind, Except.bind, resolvePath_of_flat hflat] at h
    refine covers_of_normalize hnormal h rfl rfl fun aliases hnamed =>
      { SameOff.refl (fun _ => True) _ board with placed := fun path hoff => ?_ }
    have hne := hnamed hoff pathname (List.mem_singleton.mpr rfl)
    constructor <;> simp [mem_unique, hne]
  | restore pathname placement =>
    cases placement
    all_goals
      simp only [applyMutation, restore, bind, Except.bind, resolvePath_of_flat hflat] at h
      refine covers_of_normalize hnormal h rfl rfl fun aliases hnamed =>
        { SameOff.refl (fun _ => True) _ board with placed := fun path hoff => ?_ }
      have hne := hnamed hoff pathname (List.mem_singleton.mpr rfl)
      constructor <;> simp [hne]
  | setEngineChildFold id pathname folded =>
    simp only [applyMutation, bind, Except.bind, resolvePath_of_flat hflat] at h
    have hfold : ∀ aliases other,
        foldKey other ∉ mutationKeys (.setEngineChildFold id pathname folded) aliases → other ≠ id := by
      rintro aliases _ hother rfl
      exact hother List.mem_cons_self
    cases folded with
    | false =>
      exact covers_of_normalize hnormal h rfl rfl fun aliases _ =>
        { SameOff.refl (fun _ => True) _ board with
          placed := fun _ _ => ⟨Iff.rfl, Iff.rfl, Iff.rfl, Iff.rfl⟩
          folds := fun other hother => mem_withMember (hfold aliases other hother) }
    | true =>
      refine covers_of_normalize hnormal h rfl rfl fun aliases hnamed =>
        { SameOff.refl (fun _ => True) _ board with
          placed := fun path hoff => ?_
          folds := fun other hother => mem_withMember (hfold aliases other hother) }
      have hne := hnamed hoff pathname (List.mem_cons_of_mem _ (List.mem_singleton.mpr rfl))
      constructor <;> simp [hne]
  | reconcileRoots roots removeManual =>
    simp only [applyMutation, reconcileRoots, bind, Except.bind, resolvePaths_of_flat hflat] at h
    refine covers_of_normalize hnormal h rfl rfl fun aliases hnamed =>
      { SameOff.refl (fun _ => True) _ board with placed := fun path hoff => ?_ }
    have hnot : ∀ pathnames : List String, (∀ item ∈ pathnames, item ∈ roots ++ removeManual) →
        path ∉ pathnames.map (standsFor (aliasesOf board)) := by
      rintro pathnames hpathnames hmem
      obtain ⟨item, hitem, hstands⟩ := List.mem_map.mp hmem
      exact hnamed hoff item (List.mem_map_of_mem (hpathnames item hitem)) hstands.symm
    have hkept : ∀ paths : List String, path ∈ paths ↔
        path ∈ paths.filter (fun item => item ∉ removeManual.map (standsFor (aliasesOf board))) := by
      intro paths
      rw [List.mem_filter, decide_eq_true_eq,
        and_iff_left (hnot removeManual fun _ => List.mem_append_right _)]
    refine ⟨Iff.rfl, Iff.rfl, ?_, hkept _⟩
    rw [mem_placeRoots (hnot roots fun _ => List.mem_append_left _)]
    exact hkept _
  | markSeen id seconds =>
    exact covers_of_normalize hnormal h rfl rfl fun _ _ =>
      { SameOff.refl (fun _ => True) _ board with placed := fun _ _ => ⟨Iff.rfl, Iff.rfl, Iff.rfl, Iff.rfl⟩ }
  | setFavorite id favorite =>
    refine covers_of_normalize hnormal h rfl rfl fun _ _ =>
      { SameOff.refl (fun _ => True) _ board with
        placed := fun _ _ => ⟨Iff.rfl, Iff.rfl, Iff.rfl, Iff.rfl⟩
        favorites := fun other hother => mem_withMember ?_ }
    rintro rfl
    exact hother List.mem_cons_self
  | setEngineTrayExpanded parentId expanded =>
    refine covers_of_normalize hnormal h rfl rfl fun _ _ =>
      { SameOff.refl (fun _ => True) _ board with
        placed := fun _ _ => ⟨Iff.rfl, Iff.rfl, Iff.rfl, Iff.rfl⟩
        trays := fun other hother => mem_withMember ?_ }
    rintro rfl
    exact hother List.mem_cons_self
  | setPresentation viewMode desktopBoard taskPanelOpen idleCollapseMinutes =>
    refine covers_of_normalize hnormal h rfl rfl fun _ _ =>
      { SameOff.refl (fun _ => True) _ board with
        placed := fun _ _ => ⟨Iff.rfl, Iff.rfl, Iff.rfl, Iff.rfl⟩
        viewMode := fun hkey => ?_, desktopBoard := fun hkey => ?_
        taskPanelOpen := fun hkey => ?_, idle := fun hkey => ?_ }
    · cases viewMode <;> first | exact rfl | exact absurd (by simp [mutationKeys]) hkey
    · cases desktopBoard <;> first | exact rfl | exact absurd (by simp [mutationKeys]) hkey
    · cases taskPanelOpen <;> first | exact rfl | exact absurd (by simp [mutationKeys]) hkey
    · cases idleCollapseMinutes <;> first | exact rfl | exact absurd (by simp [mutationKeys]) hkey

end

/-! ### Requests of one mutation -/

/-- The board with the hidden spellings of the board before whose path is hidden. -/
def durable (previous next : BoardProjectState) : BoardProjectState :=
  { next with
    prefs := { next.prefs with
      hidden := unique (previous.prefs.hidden.filter
        (fun item => decide (standsFor (aliasesOf next) item ∈ next.prefs.hidden)) ++ next.prefs.hidden) } }

section

variable {previous board next after : BoardProjectState} {mutations : List BoardMutation}
  {mutation : BoardMutation} {key path : String}

theorem mem_durable_hidden : path ∈ (durable previous next).prefs.hidden ↔
    (path ∈ previous.prefs.hidden ∧ standsFor (aliasesOf next) path ∈ next.prefs.hidden) ∨
      path ∈ next.prefs.hidden := by
  simp [durable, mem_unique]

theorem settled_durable (hnormal : Normal next) : Settled (durable previous next) := by
  have hnext := Settled.of_normal hnormal
  refine ⟨fun path hpath => mem_durable_hidden.mpr (Or.inr ?_), fun path hpath => ?_, hnext.pinned⟩
  · exact (mem_durable_hidden.mp hpath).elim And.right (hnext.hidden path)
  · obtain ⟨hself, hshown⟩ := hnext.visible path hpath
    refine ⟨hself, fun hhidden => hshown ?_⟩
    exact (mem_durable_hidden.mp hhidden).elim (fun h => hself ▸ h.2) id

theorem applyBoardMutations_ok (h : applyBoardMutations previous mutations = .ok board) :
    ∃ normalized next, normalize previous = .ok normalized ∧ Normal normalized ∧
      Refusals.run applyMutation normalized mutations = .ok next ∧ Normal next ∧
        board = durable previous next := by
  obtain ⟨normalized, hnormalized, h⟩ := Refusals.bind_eq_ok.mp h
  obtain ⟨next, hrun, h⟩ := Refusals.bind_eq_ok.mp h
  have hstart := (normalizeWith_ok hnormalized).1
  have hnormal := run_applyMutation_normal hstart hrun
  refine ⟨normalized, next, hnormalized, hstart, hrun, hnormal, ?_⟩
  have hends : next.prefs.hidden.map (standsFor (aliasesOf next)) = next.prefs.hidden :=
    (List.map_congr_left fun path hpath => standsFor_of_none (hnormal.hiddenEnds path hpath)).trans
      (List.map_id _)
  have hfilter : Refusals.filter (isHiddenSpelling (aliasesOf next) next.prefs.hidden)
      previous.prefs.hidden = .ok (previous.prefs.hidden.filter
        (fun item => decide (standsFor (aliasesOf next) item ∈ next.prefs.hidden))) := by
    apply Refusals.filter_eq
    intro item _
    rw [isHiddenSpelling, resolvePath_of_flat hnormal.flat]
    exact rfl
  simp only [preserveDurableHiddenSpellings, bind, Except.bind, resolvePaths_of_flat hnormal.flat, hends,
    hfilter] at h
  exact (Except.ok.inj h).symm

/-- The boards before and after a request of one mutation, as `boardKeysChanged` reads them. -/
theorem request_sameOff (hboard : applyBoardMutations previous mutations = .ok board)
    (h : applyBoardMutations board [mutation] = .ok after) :
    Settled board ∧ Settled after ∧ Flat (aliasesOf after).at? ∧
      Renames board (aliasesOf after) (mutationKeys mutation (aliasesOf after)) ∧
      SameOff (fun path => standsFor (aliasesOf after) path = path ∧
        pathKey path ∉ mutationKeys mutation (aliasesOf after)) (mutationKeys mutation (aliasesOf after))
        board after := by
  obtain ⟨-, reduced, -, -, -, hreduced, rfl⟩ := applyBoardMutations_ok hboard
  obtain ⟨normalized, next, hnormalized, hstart, hrun, hnext, rfl⟩ := applyBoardMutations_ok h
  obtain ⟨_, hstep, hlast⟩ := Refusals.run_cons_ok.mp hrun
  obtain rfl := Except.ok.inj hlast
  have hsettled := @settled_durable previous _ hreduced
  obtain ⟨own, hown, rfl⟩ := normalizeWith_eq_ok.mp hnormalized
  have hstands : standsFor own = standsFor (aliasesOf (durable previous reduced)) := by
    funext path
    rw [standsFor, (flattens_of_flat hreduced.flat).mp (normalizedAliases_flattens hown)]
    exact rfl
  have hbefore : SameOff (fun path => standsFor own path = path ∧ pathKey path ∉ []) []
      (durable previous reduced) (normalizedBoard (durable previous reduced) own) :=
    SameOff.normalized hsettled (fun path _ => (congrFun hstands path).symm) (SameOff.refl _ _ _)
  obtain ⟨placed, aliases, hflat, rfl, -, hren, hplaced⟩ := applyMutation_covers hstart hstep
  have hafter := SameOff.normalized (Settled.of_normal hstart) hren hplaced
  refine ⟨hsettled, settled_durable hnext, hflat,
    fun path hoff => (congrFun hstands path).symm.trans (hren path hoff), ?_⟩
  refine
    { placed := fun path hpath => ?_
      favorites := fun id hid => (hbefore.favorites id List.not_mem_nil).trans (hafter.favorites id hid)
      folds := fun id hid => (hbefore.folds id List.not_mem_nil).trans (hafter.folds id hid)
      trays := fun id hid => (hbefore.trays id List.not_mem_nil).trans (hafter.trays id hid)
      viewMode := hafter.viewMode
      desktopBoard := hafter.desktopBoard
      taskPanelOpen := hafter.taskPanelOpen
      idle := hafter.idle }
  obtain ⟨hself, hoff⟩ : standsFor aliases path = path ∧ pathKey path ∉ mutationKeys mutation aliases := hpath
  have hself' : standsFor own path = path := (hren path (by rwa [Unkeyed, hself])).trans hself
  have hfirst := hbefore.placed path ⟨hself', List.not_mem_nil⟩
  have hsecond := hafter.placed path ⟨hself, hoff⟩
  refine ⟨(hfirst.hidden.trans hsecond.hidden).trans (Iff.trans ?_ mem_durable_hidden.symm),
    hfirst.expanded.trans hsecond.expanded, hfirst.manual.trans hsecond.manual,
    hfirst.pinned.trans hsecond.pinned⟩
  exact ⟨Or.inr, fun hmem => hmem.elim (fun hclass => hself ▸ hclass.2) id⟩

theorem mem_iff_of_symmetricDifference {before after : List String} {id : String}
    (h : id ∈ symmetricDifference before after) : ¬ (id ∈ before ↔ id ∈ after) := by
  intro hsame
  have hne := (List.mem_filter.mp h).2
  simp [hsame] at hne

/-- **The keys of a mutation cover what it changes**, on every board that the reducer left. -/
theorem mutationKeys_cover (hboard : applyBoardMutations previous mutations = .ok board)
    (h : applyBoardMutations board [mutation] = .ok after) (hkey : key ∈ boardKeysChanged board after) :
    key ∈ mutationKeys mutation (aliasesOf after) := by
  obtain ⟨hsettled, hsettled', hflat, hren, hsame⟩ := request_sameOff hboard h
  by_contra hoff
  have hfield : ∀ {changed : Prop} [Decidable changed] {name : String},
      key ∈ (if changed then [name] else []) → changed ∧ key = name := by
    intro changed _ name hmem
    split at hmem
    · next hchanged => exact ⟨hchanged, List.mem_singleton.mp hmem⟩
    · cases hmem
  have hmem := mem_unique.mp hkey
  simp only [List.mem_append] at hmem
  rcases hmem with ((((((hpath | hid) | hid) | hid) | hmode) | hdesktop) | hpanel) | hidle
  · obtain ⟨path, hmoved, rfl⟩ := List.mem_map.mp hpath
    refine of_decide_eq_true (List.mem_filter.mp hmoved).2 (canonicalPlacements_congr hflat fun hself => ?_)
    exact ⟨hsettled.clean hren hoff, @Settled.clean _ _ [] path hsettled' (fun _ _ => rfl) List.not_mem_nil,
      hsame.placed path ⟨hself, hoff⟩⟩
  · obtain ⟨id, hchanged, rfl⟩ := List.mem_map.mp hid
    exact mem_iff_of_symmetricDifference hchanged (hsame.favorites id hoff)
  · obtain ⟨id, hchanged, rfl⟩ := List.mem_map.mp hid
    exact mem_iff_of_symmetricDifference hchanged (hsame.folds id hoff)
  · obtain ⟨id, hchanged, rfl⟩ := List.mem_map.mp hid
    exact mem_iff_of_symmetricDifference hchanged (hsame.trays id hoff)
  · obtain ⟨hchanged, rfl⟩ := hfield hmode
    exact hchanged (hsame.viewMode hoff)
  · obtain ⟨hchanged, rfl⟩ := hfield hdesktop
    exact hchanged (hsame.desktopBoard hoff)
  · obtain ⟨hchanged, rfl⟩ := hfield hpanel
    exact hchanged (hsame.taskPanelOpen hoff)
  · obtain ⟨hchanged, rfl⟩ := hfield hidle
    exact hchanged (hsame.idle hoff)

end

/-- A close after a resumption writes the key of the path that its old name stands for. -/
theorem mutationKeys_cover_resumed :
    pathKey "/first-resumed" ∈ mutationKeys (.close "/first")
      (aliasesOf { resumedBoard with prefs.hidden := ["/first-resumed"] }) :=
  @mutationKeys_cover emptyBoard resumedBoard _ resumeRequest _ _ (by decide) (by decide) (by decide)

end Delegatus.Boards
