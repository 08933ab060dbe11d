import Delegatus.BoardMutations
import Delegatus.FlooredClocks

/-!
# The board's keys and their causal revisions

A key names a unit of the board that is written on its own: an alias class of paths, a favorite,
a fold, a tray, or a field of the presentation.  `stampKeyRevisions` gives each key that a write
changes the revision of the write, and keeps the clocks of a bounded number of keys that the
board no longer carries; a key without a clock reads `keyRevisionFloor`.
-/

namespace Delegatus.Boards

def VIEW_MODE_KEY : String := "viewMode"

def DESKTOP_BOARD_KEY : String := "desktopBoard"

def TASK_PANEL_KEY : String := "taskPanelOpen"

def IDLE_COLLAPSE_KEY : String := "idleCollapseMinutes"

def pathKey (pathname : String) : String := "path:" ++ pathname

def favoriteKey (id : String) : String := "favorite:" ++ id

def foldKey (id : String) : String := "fold:" ++ id

def trayKey (parentId : String) : String := "tray:" ++ parentId

/-- Like `resolvePath`, but a chain that repeats a path ends there. -/
def resolveThrough (pathname : String) (aliases : Aliases) : String :=
  (AliasChains.walk aliases.at? (aliases.keys.length + 1) [] pathname).1

/-- The one key that an alias class answers to. -/
def canonicalKey (key : String) (aliases : Aliases) : String :=
  match key.toList with
  | 'p' :: 'a' :: 't' :: 'h' :: ':' :: pathname =>
    pathKey (resolveThrough (String.ofList pathname) aliases)
  | _ => key

/-! ### What a write changed -/

inductive Role where
  | manual | pinned | expanded | hidden
  deriving DecidableEq

/-- A class takes its most restrictive role. -/
def Role.rank : Role → Nat
  | manual => 1
  | pinned => 2
  | expanded => 3
  | hidden => 4

def putRole (aliases : Aliases) (placements : Entries String Role) (placed : String × Role) :
    Entries String Role :=
  let canonical := resolveThrough placed.1 aliases
  match placements.at? canonical with
  | none => placements.set (canonical, placed.2)
  | some existing =>
    if placed.2.rank > existing.rank then placements.set (canonical, placed.2) else placements

/-- Every alias class that the board places, and its role. -/
def canonicalPlacements (board : BoardProjectState) (aliases : Aliases) : Entries String Role :=
  (board.prefs.hidden.map (fun pathname => (pathname, Role.hidden)) ++
    board.prefs.expanded.map (fun pathname => (pathname, Role.expanded)) ++
    board.prefs.manual.map (fun pathname =>
      (pathname, if pathname ∈ board.explicitManual.getD [] then Role.pinned else Role.manual))).foldl
    (putRole aliases) Table.empty

def symmetricDifference (before after : List String) : List String :=
  (unique (before ++ after)).filter (fun item => decide (item ∈ before) != decide (item ∈ after))

/-- The keys that one write changed.  Both boards are read through the aliases of the later one,
so that a rename alone changes none. -/
def boardKeysChanged (before after : BoardProjectState) : List String :=
  let aliases := aliasesOf after
  let wasPlaced := canonicalPlacements before aliases
  let isPlaced := canonicalPlacements after aliases
  let moved := (unique (wasPlaced.keys ++ isPlaced.keys)).filter
    (fun canonical => wasPlaced.at? canonical ≠ isPlaced.at? canonical)
  let beforeIdle := before.prefs.idleCollapseMinutes.getD (some DEFAULT_BOARD_IDLE_COLLAPSE_MINUTES)
  let afterIdle := after.prefs.idleCollapseMinutes.getD (some DEFAULT_BOARD_IDLE_COLLAPSE_MINUTES)
  unique
    (moved.map pathKey ++
      (symmetricDifference before.prefs.favorites after.prefs.favorites).map favoriteKey ++
      (symmetricDifference (before.prefs.foldedEngineChildIds.getD [])
        (after.prefs.foldedEngineChildIds.getD [])).map foldKey ++
      (symmetricDifference (before.prefs.expandedEngineTrayParentIds.getD [])
        (after.prefs.expandedEngineTrayParentIds.getD [])).map trayKey ++
      (if before.prefs.viewMode ≠ after.prefs.viewMode then [VIEW_MODE_KEY] else []) ++
      (if before.prefs.desktopBoard ≠ after.prefs.desktopBoard then [DESKTOP_BOARD_KEY] else []) ++
      (if before.prefs.taskPanelOpen ≠ after.prefs.taskPanelOpen then [TASK_PANEL_KEY] else []) ++
      (if beforeIdle ≠ afterIdle then [IDLE_COLLAPSE_KEY] else []))

/-- The keys that a mutation would write.  An acknowledgement names none. -/
def mutationKeys (mutation : BoardMutation) (aliases : Aliases) : List String :=
  let forPath (pathname : String) : String := pathKey (resolveThrough pathname aliases)
  match mutation with
  | .close path => [forPath path]
  | .restore path _ => [forPath path]
  | .reconcileRoots roots removeManual => (roots ++ removeManual).map forPath
  | .remapPaths pairs _ => pairs.flatMap (fun pair => [forPath pair.fromPath, forPath pair.toPath])
  | .setFavorite id _ => [favoriteKey id]
  | .setEngineChildFold id path _ => [foldKey id, forPath path]
  | .setEngineTrayExpanded parentId _ => [trayKey parentId]
  | .markSeen _ _ => []
  | .setPresentation viewMode desktopBoard taskPanelOpen idleCollapseMinutes =>
    (if viewMode.isSome then [VIEW_MODE_KEY] else []) ++
      (if desktopBoard.isSome then [DESKTOP_BOARD_KEY] else []) ++
      (if taskPanelOpen.isSome then [TASK_PANEL_KEY] else []) ++
      (if idleCollapseMinutes.isSome then [IDLE_COLLAPSE_KEY] else [])

/-- The keys that the board carries in its own content. -/
def liveBoardKeys (board : BoardProjectState) : List String :=
  unique ([VIEW_MODE_KEY, TASK_PANEL_KEY, IDLE_COLLAPSE_KEY] ++
    (canonicalPlacements board (aliasesOf board)).keys.map pathKey ++
    board.prefs.favorites.map favoriteKey ++
    (board.prefs.foldedEngineChildIds.getD []).map foldKey ++
    (board.prefs.expandedEngineTrayParentIds.getD []).map trayKey)

/-! ### Clocks -/

/-- Retired keys kept beyond the board's own content. -/
def MAX_RETIRED_KEY_REVISIONS : Nat := 512

/-- `BoardCausalHistory`: the clocks of a board and the floor that an absent key reads. -/
def causalHistory (board : BoardProjectState) : FlooredClocks.Floored String :=
  ⟨board.keyRevisions.getD Table.empty, board.keyRevisionFloor.getD 0⟩

/-- The causal revision that a board reports for a key. -/
def keyRevisionAt (board : BoardProjectState) (key : String) : Nat :=
  (causalHistory board).readAt (canonicalKey key (aliasesOf board))

/-- Retired keys are kept most recently written first; `localeCompare` breaks ties. -/
def retiredEarlier (localeCompare : String → String → Int) (left right : String × Nat) : Prop :=
  right.2 < left.2 ∨ (right.2 = left.2 ∧ localeCompare left.1 right.1 ≤ 0)

instance (localeCompare : String → String → Int) : DecidableRel (retiredEarlier localeCompare) :=
  fun _ _ => instDecidableOr

/-- The clocks of a board after a write: those there were and those it inherits, under the names
of the later board, with the changed keys at the new revision. -/
def stampKeyRevisions (localeCompare : String → String → Int) (before after : BoardProjectState)
    (revision : Nat) (inherited : List BoardProjectState) : FlooredClocks.Floored String :=
  FlooredClocks.write (fun key => canonicalKey key (aliasesOf after))
    (fun key => decide (key ∈ liveBoardKeys after)) (retiredEarlier localeCompare)
    MAX_RETIRED_KEY_REVISIONS (boardKeysChanged before after) revision
    (causalHistory before) (inherited.map causalHistory)

/-- `committed`: the durable form of a reduction. -/
def committed (localeCompare : String → String → Int) (current reduced : BoardProjectState)
    (revision : Nat) (updatedAt : String) (inherited : List BoardProjectState) : BoardProjectState :=
  let stamped := stampKeyRevisions localeCompare current reduced revision inherited
  { reduced with
    revision := revision, updatedAt := updatedAt, pathAliases := some (aliasesOf reduced)
    keyRevisions := some stamped.clocks, keyRevisionFloor := some stamped.floor }

end Delegatus.Boards
