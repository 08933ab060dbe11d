import Delegatus.AliasChains
import Delegatus.DistinctSorts
import Delegatus.Entries
import Delegatus.JsStrings
import Delegatus.Refusals

/-!
# The board reducer

The board of a project places transcript paths: on the board by hand, expanded, or hidden.  A
conversation that resumes gets a new path, and an alias sends the old path to it.  `normalize`
resolves every list through the aliases, and `applyBoardMutations` folds the mutations of a
request over the board.

`aliases[path]` is a lookup of an own property; `resolvePath` throws where the aliases lead back
to a path that it has seen.
-/

namespace Delegatus.Boards

/-! ### The board -/

abbrev Aliases := Entries String String

inductive ViewMode where
  | scheme | list
  deriving DecidableEq

inductive DesktopBoard where
  | kanban | scheme
  deriving DecidableEq

/-- How the face is stored: a later build may name another. -/
def DesktopBoard.name : DesktopBoard → String
  | kanban => "kanban"
  | scheme => "scheme"

inductive Placement where
  | auto | manual | expanded
  deriving DecidableEq

structure BoardPrefs where
  manual : List String
  hidden : List String
  expanded : List String
  favorites : List String
  foldedEngineChildIds : Option (List String)
  expandedEngineTrayParentIds : Option (List String)
  seenAt : Option (Entries String Nat)
  idleCollapseMinutes : Option (Option Nat)
  viewMode : Option ViewMode
  desktopBoard : Option String
  taskPanelOpen : Bool
  deriving DecidableEq

structure BoardProjectState where
  revision : Nat
  updatedAt : String
  pathAliases : Option Aliases
  explicitManual : Option (List String)
  keyRevisions : Option (Entries String Nat)
  keyRevisionFloor : Option Nat
  prefs : BoardPrefs
  deriving DecidableEq

def DEFAULT_BOARD_IDLE_COLLAPSE_MINUTES : Nat := 120

def MAX_BOARD_IDLE_COLLAPSE_MINUTES : Nat := 30 * 24 * 60

/-- The board of a project that has none. -/
def emptyBoard : BoardProjectState :=
  { revision := 0, updatedAt := "1970-01-01T00:00:00.000Z", pathAliases := some Table.empty
    explicitManual := some [], keyRevisions := some Table.empty, keyRevisionFloor := some 0
    prefs :=
      { manual := [], hidden := [], expanded := [], favorites := []
        foldedEngineChildIds := some [], expandedEngineTrayParentIds := some []
        seenAt := some Table.empty
        idleCollapseMinutes := some (some DEFAULT_BOARD_IDLE_COLLAPSE_MINUTES)
        viewMode := none, desktopBoard := none, taskPanelOpen := false } }

structure RemapPair where
  fromPath : String
  toPath : String
  deriving DecidableEq

/-- `BoardMutationV1`.  A field of `setPresentation` that is `none` is left alone. -/
inductive BoardMutation where
  | close (path : String)
  | restore (path : String) (placement : Placement)
  | reconcileRoots (roots removeManual : List String)
  | remapPaths (pairs : List RemapPair) (targetPlacementAuthoritative : Option Bool)
  | setPresentation (viewMode : Option (Option ViewMode)) (desktopBoard : Option (Option DesktopBoard))
      (taskPanelOpen : Option Bool) (idleCollapseMinutes : Option (Option Nat))
  | setFavorite (id : String) (favorite : Bool)
  | setEngineChildFold (id path : String) (folded : Bool)
  | setEngineTrayExpanded (parentId : String) (expanded : Bool)
  | markSeen (id : String) (seconds : Nat)
  deriving DecidableEq

/-! ### Aliases -/

def aliasesOf (board : BoardProjectState) : Aliases := board.pathAliases.getD Table.empty

/-- The path for which `path` stands.  The loop sees each alias once, so that a step for each and
one more are enough. -/
def resolvePath (path : String) (aliases : Aliases) : Except String String :=
  match AliasChains.walk aliases.at? (aliases.keys.length + 1) [] path with
  | (resolved, false) => .ok resolved
  | (_, true) => .error "board path alias cycle"

def resolvePaths (paths : List String) (aliases : Aliases) : Except String (List String) :=
  paths.mapM (resolvePath · aliases)

/-- One turn of the loop of `normalizedAliases`. -/
def normalizeAlias (aliases normalized : Aliases) (source : String) : Except String Aliases := do
  let target ← resolvePath source aliases
  .ok (if source ≠ target then normalized.set (source, target) else normalized)

/-- Each alias leads to the end of its chain. -/
def normalizedAliases (aliases : Aliases) : Except String Aliases :=
  Refusals.run (normalizeAlias aliases) Table.empty aliases.keys

/-! ### Normalization -/

/-- How many acknowledgements a project keeps. -/
def MAX_SEEN_STAMPS : Nat := 512

/-- The freshest acknowledgements. -/
def boundedSeenAt (stamps : Entries String Nat) : Entries String Nat :=
  let entries := stamps.rows.insertionSort (fun left right => right.2 ≤ left.2)
  Table.ofList (entries.take MAX_SEEN_STAMPS)

/-- `[...new Set(paths)]`. -/
def unique (paths : List String) : List String := paths.eraseDups

/-- Every list resolved through the aliases; a hidden path is nowhere else. -/
def normalizeWith (board : BoardProjectState) (aliases : Aliases) :
    Except String BoardProjectState := do
  let canonicalAliases ← normalizedAliases aliases
  let hidden := unique (← resolvePaths board.prefs.hidden canonicalAliases)
  let visible (paths : List String) : Except String (List String) := do
    .ok (unique ((← resolvePaths paths canonicalAliases).filter (fun item => item ∉ hidden)))
  let manual ← visible board.prefs.manual
  let explicitManual ← visible (board.explicitManual.getD [])
  let expanded ← visible board.prefs.expanded
  .ok { board with
    pathAliases := some canonicalAliases
    explicitManual := some (explicitManual.filter (fun item => item ∈ manual))
    prefs := { board.prefs with
      manual := manual
      hidden := hidden
      expanded := expanded
      favorites := unique board.prefs.favorites
      foldedEngineChildIds := some (unique (board.prefs.foldedEngineChildIds.getD []))
      expandedEngineTrayParentIds := some (unique (board.prefs.expandedEngineTrayParentIds.getD []))
      seenAt := some (boundedSeenAt (board.prefs.seenAt.getD Table.empty))
      idleCollapseMinutes :=
        some (board.prefs.idleCollapseMinutes.getD (some DEFAULT_BOARD_IDLE_COLLAPSE_MINUTES)) } }

def normalize (board : BoardProjectState) : Except String BoardProjectState :=
  normalizeWith board (aliasesOf board)

def isHiddenSpelling (aliases : Aliases) (hiddenCanonicalPaths : List String) (item : String) :
    Except String Bool := do
  .ok (decide ((← resolvePath item aliases) ∈ hiddenCanonicalPaths))

/-- The hidden spellings that the board had before and whose path is still hidden. -/
def preserveDurableHiddenSpellings (previous next : BoardProjectState) :
    Except String BoardProjectState := do
  let aliases := aliasesOf next
  let hiddenCanonicalPaths ← resolvePaths next.prefs.hidden aliases
  let preserved ← Refusals.filter (isHiddenSpelling aliases hiddenCanonicalPaths) previous.prefs.hidden
  .ok { next with prefs := { next.prefs with hidden := unique (preserved ++ next.prefs.hidden) } }

/-! ### Mutations -/

/-- The pairs whose two paths do not stand for one path yet. -/
def activePairs (aliases : Aliases) (pairs : List RemapPair) : Except String (List RemapPair) :=
  Refusals.filter (fun pair => do
    .ok (decide ((← resolvePath pair.fromPath aliases) ≠ (← resolvePath pair.toPath aliases)))) pairs

/-- The aliases with pairs written over them. -/
def withPairs (aliases : Aliases) (pairs : List RemapPair) : Aliases :=
  pairs.foldl (fun aliases pair => aliases.set (pair.fromPath, pair.toPath)) aliases

/-- Whether a path keeps its placement: the target of an active pair loses its own, unless it
has the last word or is the source of a pair. -/
def keepsPlacement (aliases : Aliases) (sources targets : List String)
    (targetPlacementAuthoritative : Bool) (pathname : String) : Except String Bool :=
  if targetPlacementAuthoritative then .ok true
  else do
    let resolved ← resolvePath pathname aliases
    .ok (decide (resolved ∉ targets ∨ resolved ∈ sources))

def remapPaths (board : BoardProjectState) (pairs : List RemapPair)
    (targetPlacementAuthoritative : Bool) : Except String BoardProjectState := do
  let currentAliases := aliasesOf board
  let active ← activePairs currentAliases pairs
  if active = [] then normalize board
  else
    let sources ← resolvePaths (pairs.map RemapPair.fromPath) currentAliases
    let targets ← resolvePaths (active.map RemapPair.toPath) currentAliases
    let keeps := keepsPlacement currentAliases sources targets targetPlacementAuthoritative
    let manual ← Refusals.filter keeps board.prefs.manual
    let explicitManual ← Refusals.filter keeps (board.explicitManual.getD [])
    normalizeWith
      { board with explicitManual := some explicitManual, prefs := { board.prefs with manual := manual } }
      (withPairs currentAliases active)

/-- A root that is nowhere on the board and that no alias leads to is placed by hand. -/
def reconcileRoots (board : BoardProjectState) (roots removeManual : List String) :
    Except String BoardProjectState := do
  let aliases := aliasesOf board
  let removed ← resolvePaths removeManual aliases
  let manual := board.prefs.manual.filter (fun item => item ∉ removed)
  let explicitManual := (board.explicitManual.getD []).filter (fun item => item ∉ removed)
  let targets ← resolvePaths (aliases.rows.map Prod.snd) aliases
  let resolvedRoots ← resolvePaths roots aliases
  -- the second list is what is present: a root is pushed once
  let placed := resolvedRoots.foldl
    (fun (state : List String × List String) root =>
      if root ∈ state.2 then state else (state.1 ++ [root], state.2 ++ [root]))
    (manual, manual ++ board.prefs.hidden ++ targets)
  normalize { board with
    explicitManual := some explicitManual, prefs := { board.prefs with manual := placed.1 } }

def restore (board : BoardProjectState) (path : String) (placement : Placement) :
    Except String BoardProjectState :=
  let visible := { board.prefs with hidden := board.prefs.hidden.filter (· ≠ path) }
  let withoutExplicitManual := (board.explicitManual.getD []).filter (· ≠ path)
  let manual := visible.manual.filter (· ≠ path)
  let expanded := visible.expanded.filter (· ≠ path)
  match placement with
  | .auto => normalize { board with explicitManual := some withoutExplicitManual, prefs := visible }
  | .manual => normalize { board with
      explicitManual := some (withoutExplicitManual ++ [path])
      prefs := { visible with manual := manual ++ [path], expanded := expanded } }
  | .expanded => normalize { board with
      explicitManual := some withoutExplicitManual
      prefs := { visible with manual := manual, expanded := expanded ++ [path] } }

/-- An id added to a list, or taken off it. -/
def withMember (ids : List String) (id : String) (member : Bool) : List String :=
  if member then unique (ids ++ [id]) else ids.filter (· ≠ id)

/-- One mutation on the board that the ones before it left. -/
def applyMutation (next : BoardProjectState) (mutation : BoardMutation) :
    Except String BoardProjectState :=
  match mutation with
  | .remapPaths pairs targetPlacementAuthoritative =>
    remapPaths next pairs (targetPlacementAuthoritative.getD false)
  | .reconcileRoots roots removeManual => reconcileRoots next roots removeManual
  | .restore path placement => do restore next (← resolvePath path (aliasesOf next)) placement
  | .setFavorite id favorite =>
    normalize { next with
      prefs := { next.prefs with favorites := withMember next.prefs.favorites id favorite } }
  | .markSeen id seconds =>
    let current := next.prefs.seenAt.getD Table.empty
    let latest := max ((current.at? id).getD 0) seconds
    normalize { next with prefs := { next.prefs with seenAt := some (current.set (id, latest)) } }
  | .setEngineChildFold id path folded => do
    let folds := withMember (next.prefs.foldedEngineChildIds.getD []) id folded
    let path ← resolvePath path (aliasesOf next)
    -- a fold takes the child's card off the board
    if folded then
      normalize { next with
        explicitManual := some ((next.explicitManual.getD []).filter (· ≠ path))
        prefs := { next.prefs with
          foldedEngineChildIds := some folds
          manual := next.prefs.manual.filter (· ≠ path)
          expanded := next.prefs.expanded.filter (· ≠ path) } }
    else normalize { next with prefs := { next.prefs with foldedEngineChildIds := some folds } }
  | .setEngineTrayExpanded parentId expanded =>
    normalize { next with
      prefs := { next.prefs with
        expandedEngineTrayParentIds :=
          some (withMember (next.prefs.expandedEngineTrayParentIds.getD []) parentId expanded) } }
  | .setPresentation viewMode desktopBoard taskPanelOpen idleCollapseMinutes =>
    normalize { next with
      prefs := { next.prefs with
        viewMode := viewMode.getD next.prefs.viewMode
        desktopBoard := (desktopBoard.map (Option.map DesktopBoard.name)).getD next.prefs.desktopBoard
        taskPanelOpen := taskPanelOpen.getD next.prefs.taskPanelOpen
        idleCollapseMinutes := idleCollapseMinutes.or next.prefs.idleCollapseMinutes } }
  | .close path => do
    let path ← resolvePath path (aliasesOf next)
    normalize { next with
      explicitManual := some ((next.explicitManual.getD []).filter (· ≠ path))
      prefs := { next.prefs with
        manual := next.prefs.manual.filter (· ≠ path)
        expanded := next.prefs.expanded.filter (· ≠ path)
        hidden := unique (next.prefs.hidden ++ [path]) } }

def applyBoardMutations (board : BoardProjectState) (mutations : List BoardMutation) :
    Except String BoardProjectState := do
  let normalized ← normalize board
  let next ← Refusals.run applyMutation normalized mutations
  preserveDurableHiddenSpellings board next

end Delegatus.Boards
