import Delegatus.BoardMutations

/-!
# What the board accepts of a request

`validateMutations` checks the mutations of a request, each alone and then the remap pairs of
all together: their sources are distinct and they lead no path back to itself.  The aliases that
the board already has are not looked at.
-/

namespace Delegatus.Boards

def MAX_BOARD_PATH_LIST_ITEMS : Nat := 512

def MAX_BOARD_MUTATIONS_PER_REQUEST : Nat := 128

/-- Whether a string is a path or an id: neither empty nor too long. -/
def isPath (value : String) : Bool :=
  decide (value ≠ "" ∧ (JsStrings.codeUnits value).length ≤ 4096)

def validPath (value field : String) : Except String String :=
  if isPath value then .ok value else .error ("invalid " ++ field)

def pathList (value : List String) (field : String) : Except String (List String) :=
  if value.length > MAX_BOARD_PATH_LIST_ITEMS ∨ value.any (fun item => !isPath item) then
    .error ("invalid " ++ field)
  else if ¬ value.Nodup then .error ("duplicate " ++ field)
  else .ok value

/-- `Object.fromEntries` of the pairs. -/
def pairAliases (pairs : List RemapPair) : Aliases :=
  Table.ofList (pairs.map (fun pair => (pair.fromPath, pair.toPath)))

/-- The loop of the two cycle checks: from each source, until a path that stands for itself. -/
def hasAliasCycle (pairs : List RemapPair) : Bool :=
  let aliases := pairAliases pairs
  aliases.keys.any (fun source => (AliasChains.walk aliases.at? (aliases.keys.length + 1) [] source).2)

/-- One mutation of a request; the types leave out what the shape checks refuse. -/
def mutation (value : BoardMutation) (index : Nat) : Except String BoardMutation :=
  let field := "mutations[" ++ toString index ++ "]"
  match value with
  | .close path => do .ok (.close (← validPath path (field ++ ".path")))
  | .restore path placement => do .ok (.restore (← validPath path (field ++ ".path")) placement)
  | .reconcileRoots roots removeManual => do
    .ok (.reconcileRoots (← pathList roots (field ++ ".roots"))
      (← pathList removeManual (field ++ ".removeManual")))
  | .remapPaths pairs targetPlacementAuthoritative =>
    if targetPlacementAuthoritative.isSome then
      .error ("unknown " ++ field ++ ".targetPlacementAuthoritative (allowed: kind, pairs)")
    else if pairs = [] ∨ pairs.length > MAX_BOARD_PATH_LIST_ITEMS then
      .error ("invalid " ++ field ++ ".pairs")
    else do
      let pairs ← pairs.zipIdx.mapM fun item => do
        let pairField := field ++ ".pairs[" ++ toString item.2 ++ "]"
        .ok (⟨← validPath item.1.fromPath (pairField ++ ".from"),
          ← validPath item.1.toPath (pairField ++ ".to")⟩ : RemapPair)
      if ¬ (pairs.map RemapPair.fromPath).Nodup then
        .error ("duplicate " ++ field ++ ".pairs.from")
      else if hasAliasCycle pairs then .error ("alias cycle in " ++ field)
      else .ok (.remapPaths pairs none)
  | .setFavorite id favorite => do .ok (.setFavorite (← validPath id (field ++ ".id")) favorite)
  | .setEngineChildFold id path folded => do
    .ok (.setEngineChildFold (← validPath id (field ++ ".id")) (← validPath path (field ++ ".path"))
      folded)
  | .setEngineTrayExpanded parentId expanded => do
    .ok (.setEngineTrayExpanded (← validPath parentId (field ++ ".parentId")) expanded)
  | .markSeen id seconds => do .ok (.markSeen (← validPath id (field ++ ".id")) seconds)
  | .setPresentation viewMode desktopBoard taskPanelOpen idleCollapseMinutes =>
    if viewMode = none ∧ desktopBoard = none ∧ taskPanelOpen = none ∧ idleCollapseMinutes = none then
      .error ("empty " ++ field)
    else if (idleCollapseMinutes.join).any
        (fun minutes => minutes = 0 ∨ minutes > MAX_BOARD_IDLE_COLLAPSE_MINUTES) then
      .error ("invalid " ++ field ++ ".idleCollapseMinutes")
    else .ok (.setPresentation viewMode desktopBoard taskPanelOpen idleCollapseMinutes)

/-- The remap pairs of a list of mutations. -/
def remapPairs (mutations : List BoardMutation) : List RemapPair :=
  mutations.flatMap fun
    | .remapPaths pairs _ => pairs
    | _ => []

def rejectMutationAliasCycles (mutations : List BoardMutation) : Except String Unit :=
  let pairs := remapPairs mutations
  if ¬ (pairs.map RemapPair.fromPath).Nodup then .error "duplicate remap source"
  else if hasAliasCycle pairs then .error "alias cycle in mutations"
  else .ok ()

/-- The mutations of `validateBoardPatchPayload`. -/
def validateMutations (mutations : List BoardMutation) : Except String (List BoardMutation) :=
  if mutations = [] ∨ mutations.length > MAX_BOARD_MUTATIONS_PER_REQUEST then
    .error "invalid mutations"
  else do
    let mutations ← mutations.zipIdx.mapM fun item => mutation item.1 item.2
    rejectMutationAliasCycles mutations
    .ok mutations

/-- A list of mutations that validation hands on. -/
def Accepted (mutations : List BoardMutation) : Prop :=
  ∃ raw, validateMutations raw = .ok mutations

end Delegatus.Boards
