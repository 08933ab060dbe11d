import Delegatus.AliasChains
import Delegatus.HistoryProjection
import Delegatus.JsStrings

/-!
# Attempt counts

`historyAttemptCounts` answers how many attempts of each role a project started in the last thirty
days.  The answer is cached: a read at a later time adjusts it by the attempts that crossed an edge of
the window, and a projection of this process patches it by the difference of two count signatures.

Another process projects rows too, and the cache learns of it from the revisions that its stamp holds.
-/

namespace Delegatus.History

open RowGroups

/-! ### Aliases -/

abbrev Aliases := Entries String String

/-- `canonicalProject`: the end of the chain, or the name itself where the chain turns in a cycle. -/
def canonicalProject (aliases : Aliases) (project : String) : String :=
  let next := fun name => (aliases.at? name).filter (· ≠ "")
  match AliasChains.walk next (aliases.keys.length + 1) [] project with
  | (name, false) => name
  | (_, true) => project

/-- The canonical project and its aliases. -/
def aliasedProjects (aliases : Aliases) (project : String) : List String :=
  let canonical := canonicalProject aliases project
  JsStrings.sort (canonical :: aliases.keys.filter fun key =>
    canonicalProject aliases key = canonical && key ≠ canonical)

/-! ### The cache -/

def COUNT_WINDOW_MS : Int := 30 * 24 * 60 * 60000

/-- The part of a stamp that one file and generation change. -/
structure CountStamp where
  projects : List String
  revisions : List (String × ℕ)
deriving DecidableEq

def countCacheStamp (db : Db) (projects : List String) : CountStamp where
  projects := projects
  revisions := projects.filterMap fun project =>
    (db.revisions.countProjects.at? project).map fun revision => (project, revision)

structure CountCache where
  stamp : CountStamp
  «at» : Int
  /-- `none` is `Infinity`. -/
  until_ : Option Int
  value : Entries String Int
  roles : Entries String Int

/-- `Math.min(until, time)`. -/
def minTime (until_ : Option Int) (time : Int) : Option Int :=
  some (until_.elim time fun held => min held time)

/-- `at <= cache.at && cache.at - at <= COUNT_WINDOW_MS`. -/
def member (now time : Int) : Bool := time ≤ now && now - time ≤ COUNT_WINDOW_MS

/-- `delta.set(role, (delta.get(role) ?? 0) + amount)`, for each role. -/
def countUp (delta : Entries String Int) (roles : List String) (amount : Int) : Entries String Int :=
  roles.foldl (fun delta role => delta.set (role, (delta.at? role).getD 0 + amount)) delta

/-- The count of a role after a change: a role without runs has an entry only while it counts. -/
def changeRole (roles value : Entries String Int) (change : String × Int) : Entries String Int :=
  let next := (value.at? change.1).getD 0 + change.2
  if 0 < next ∨ (roles.at? change.1).getD 0 ≠ 0 then value.set (change.1, next)
  else value.delete change.1

/-- The runs of a role after a change, and the entry of the role. -/
def changeRuns (held : Entries String Int × Entries String Int) (change : String × Int) :
    Entries String Int × Entries String Int :=
  let (roles, value) := held
  let next := (roles.at? change.1).getD 0 + change.2
  if 0 < next then
    (roles.set (change.1, next),
      if (value.at? change.1).isNone then value.set (change.1, 0) else value)
  else
    (roles.delete change.1,
      if (value.at? change.1).getD 0 ≤ 0 then value.delete change.1 else value)

section Reads

variable (dateParse : String → Option Int)

/-- The attempts of a signature that have a role and a time. -/
def dated (attempts : List (String × Option String)) : List (String × Int) :=
  attempts.filterMap fun attempt =>
    if attempt.1 = "" then none
    else (dateParse (attempt.2.getD "")).map fun time => (attempt.1, time)

/-- The bound that an attempt at `time` puts on an answer for `now`. -/
def boundUntil (now : Int) (until_ : Option Int) (time : Int) : Option Int :=
  if time > now then minTime until_ time
  else if now - time ≤ COUNT_WINDOW_MS then minTime until_ (time + COUNT_WINDOW_MS + 1)
  else until_

/-- The patch of one cached answer. -/
def patchCache (after : CountStamp) (ownsOld ownsNew : Bool) (update : CountUpdate) (cache : CountCache) :
    CountCache :=
  let oldRoles := if ownsOld then update.oldSignature.roles else []
  let newRoles := if ownsNew then update.newSignature.roles else []
  let roleDelta := countUp (countUp Table.empty oldRoles (-1)) newRoles 1
  let oldAttempts := if ownsOld then dated dateParse update.oldSignature.attempts else []
  let newAttempts := if ownsNew then dated dateParse update.newSignature.attempts else []
  let counted := fun attempts : List (String × Int) =>
    (attempts.filter fun attempt => member cache.at attempt.2).map Prod.fst
  let changes := countUp (countUp Table.empty (counted oldAttempts) (-1)) (counted newAttempts) 1
  let value := changes.rows.foldl (changeRole cache.roles) cache.value
  let (roles, value) := roleDelta.rows.foldl changeRuns (cache.roles, value)
  { stamp := after
    «at» := cache.at
    until_ := newAttempts.foldl (fun until_ attempt => boundUntil cache.at until_ attempt.2) cache.until_
    value := value
    roles := roles }

/-- The cached answers by canonical project. -/
abbrev CountCaches := Entries String CountCache

def owns (aliases : Aliases) (cachedProject : String) (project : Option String) : Bool :=
  project.any fun project => canonicalProject aliases project = canonicalProject aliases cachedProject

/-- `updateWarmCountCaches`: `before` is the database that the allowed stamps were read from, `after`
the one with the projected row. -/
def updateWarmCountCaches (aliases : Aliases) (before after : Db) (update : CountUpdate)
    (caches : CountCaches) : CountCaches :=
  let allowed := caches.filter fun row =>
    decide (row.2.stamp = countCacheStamp before row.2.stamp.projects) &&
      decide (row.2.stamp.projects = aliasedProjects aliases row.1)
  allowed.mapRows
    (fun row => (row.1, patchCache dateParse (countCacheStamp after row.2.stamp.projects)
      (owns aliases row.1 update.oldProject) (owns aliases row.1 update.newProject) update row.2))
    fun _ => rfl

/-! ### The queries -/

/-- The input row that an attempt is joined with. -/
def inputOfAttempt (db : Db) (projects : List String) (attempt : AttemptRow) : Option InputRow :=
  if attempt.ref.collection = .flows then none
  else (group InputRow.ref db.inputs attempt.ref).head?.filter fun input =>
    input.project.any fun project => decide (project ∈ projects)

/-- `history_attempts JOIN history_inputs`: the times of the attempts of the projects. -/
def startedTimes (db : Db) (projects : List String) : List Int :=
  db.attempts.filterMap fun attempt =>
    (inputOfAttempt db projects attempt).bind fun _ => attempt.startedMs

/-- The same joined with `history_runs`: the roles and times. -/
def startedAttempts (db : Db) (projects : List String) : List (String × Int) :=
  db.attempts.filterMap fun attempt =>
    (inputOfAttempt db projects attempt).bind fun _ =>
      ((group RunRow.ref db.runs attempt.ref).find? fun run => run.run = attempt.run).bind fun run =>
        attempt.startedMs.map fun time => (attempt.role.getD run.role, time)

/-- The time at which the counts for `now` change: an attempt expires, or one in the future starts. -/
def nextUntil (db : Db) (projects : List String) (now : Int) : Option Int :=
  let times := startedTimes db projects
  let expiring := (times.filter fun time => now - COUNT_WINDOW_MS ≤ time && time ≤ now).min?
  let future := (times.filter fun time => now < time).min?
  match expiring, future with
  | some expiring, some future => some (min (expiring + COUNT_WINDOW_MS + 1) future)
  | some expiring, none => some (expiring + COUNT_WINDOW_MS + 1)
  | none, future => future

/-- `value[role] = (value[role] ?? 0) + count`, for each group of the windowed attempts. -/
def countWindow (attempts : List (String × Int)) (now : Int) (value : Entries String Int) :
    Entries String Int :=
  let roles := (attempts.filter fun attempt => member now attempt.2).map Prod.fst
  roles.dedup.foldl (fun value role => value.set (role, (value.at? role).getD 0 + roles.count role)) value

/-- The full query. -/
def recount (db : Db) (projects : List String) (now : Int) : CountCache :=
  let runs := db.countRoles.rows.filter fun row => row.1.1 ∈ projects
  let value : Entries String Int := runs.foldl (fun value row => value.set (row.1.2, 0)) Table.empty
  let roles : Entries String Int := runs.foldl (fun roles row =>
    roles.set (row.1.2, (roles.at? row.1.2).getD 0 + row.2)) Table.empty
  { stamp := countCacheStamp db projects
    «at» := now
    until_ := nextUntil db projects now
    value := countWindow (startedAttempts db projects) now value
    roles := roles }

/-- The attempts that entered or left the window between two times. -/
def crossed (db : Db) (projects : List String) (held now : Int) : List (String × Int) :=
  (startedAttempts db projects).filter fun attempt =>
    (held < attempt.2 && attempt.2 ≤ now && now - COUNT_WINDOW_MS ≤ attempt.2) ||
      (held - COUNT_WINDOW_MS ≤ attempt.2 && attempt.2 ≤ held && attempt.2 < now - COUNT_WINDOW_MS)

/-- The cached answer moved to a later time. -/
def crossWindow (db : Db) (projects : List String) (now : Int) (cache : CountCache) : CountCache :=
  let changes := (crossed db projects cache.at now).map fun attempt =>
    (attempt.1, if cache.at < attempt.2 ∧ now - COUNT_WINDOW_MS ≤ attempt.2 then (1 : Int) else -1)
  { cache with
    «at» := now
    until_ := nextUntil db projects now
    value := changes.foldl (changeRole cache.roles) cache.value }

/-- `now < cache.until`. -/
def beforeUntil (now : Int) (until_ : Option Int) : Bool := until_.all fun time => now < time

def historyAttemptCounts (aliases : Aliases) (db : Db) (caches : CountCaches) (project : String)
    (now : Int) : CountCaches × Entries String Int :=
  let canonical := canonicalProject aliases project
  let projects := aliasedProjects aliases project
  let fresh := recount db projects now
  match caches.at? canonical with
  | some cached =>
    if cached.stamp = countCacheStamp db projects ∧ cached.at ≤ now then
      if beforeUntil now cached.until_ then (caches, cached.value)
      else
        let moved := crossWindow db projects now cached
        (caches.set (canonical, moved), moved.value)
    else (caches.set (canonical, fresh), fresh.value)
  | none => (caches.set (canonical, fresh), fresh.value)

/-! ### Runs -/

/-- The projection and the cache of one process. -/
structure Warm (ρ : Type*) where
  state : State ρ
  aliases : Aliases
  caches : CountCaches

inductive WarmEvent (ρ : Type*)
  /-- A writer, or a reader of another process. -/
  | elsewhere (event : Event ρ)
  /-- A reader of this process projects its next identity. -/
  | project (reader : ρ)
  | read (project : String) (now : Int)
  | setAliases (aliases : Aliases)
  /-- The bounds of the cache drop an answer. -/
  | evict (project : String)

variable {ρ : Type*} [DecidableEq ρ]

/-- The caches after a reader of this process took its step. -/
def projectHere (s : Warm ρ) (reader : ρ) : CountCaches :=
  match s.state.batch reader with
  | [] => s.caches
  | ref :: _ =>
    if ref ∈ s.state.db.pending then
      match projectOne dateParse s.state.db ref with
      | (after, some update) =>
        updateWarmCountCaches dateParse s.aliases s.state.db after update s.caches
      | (_, none) => s.caches
    else s.caches

def warmStep (s : Warm ρ) : WarmEvent ρ → Warm ρ × Option (Entries String Int)
  | .elsewhere event => ({ s with state := (step dateParse s.state event).1 }, none)
  | .project reader =>
    ({ s with
        state := (step dateParse s.state (.project reader)).1
        caches := projectHere dateParse s reader }, none)
  | .read project now =>
    let (caches, value) := historyAttemptCounts s.aliases s.state.db s.caches project now
    ({ s with caches := caches }, some value)
  | .setAliases aliases => ({ s with aliases := aliases }, none)
  | .evict project => ({ s with caches := s.caches.delete project }, none)

end Reads

end Delegatus.History
