import Delegatus.LinkedMerge

/-!
# Live rows of the peer converge

Whatever the order of the live rows, their split into pages and their repetition, the
shared groups of every task end at the latest register among the copy and the rows
(`live_rows_join`).  Two things do not follow the stamps (`replica_and_board_not_joined`),
and both are meant to: a row without a review replica wins the text group and leaves the
replica of the copy, so the replica depends on the order; and a copy that was hidden for
want of room on the board tries again at every replay of its row, so a row that was
absorbed can still change the copy.
-/

namespace Delegatus.LinkedBoards

open LinkStamps LastWriter

section Converge

variable {ρ : Type} [DecidableEq ρ] [Inhabited ρ]

/-- Rows for one task that carry equal stamps for a shared group carry equal values. -/
def Agreeing (rows : List WireTask) : Prop :=
  ∀ a ∈ rows, ∀ b ∈ rows, a.id = b.id → ∀ group ∈ sharedGroups,
    a.s group = b.s group → wireGroup a group = wireGroup b group

instance (rows : List WireTask) : Decidable (Agreeing rows) := by
  unfold Agreeing
  infer_instance

/-- The replica of the task crosses with its text: every row of the task carries one, and
the copy has no review rounds of its own. -/
def ReplicaCrosses (tasks : Tasks ρ) (rows : List WireTask) (id : String) : Prop :=
  (∀ held, tasks.get? id = some held → held.ownReview = none) ∧
    ∀ row ∈ rows, row.id = id → row.prototypeReviewReplica.isSome = true

theorem mem_registersOf {keep : Bool} {id : String} {group : TaskSyncGroup}
    {rows : List WireTask} {register : Register Stamp GroupContent} :
    register ∈ registersOf keep id group rows ↔
      ∃ row ∈ rows, row.id = id ∧ rowRegister keep row group = register := by
  simp [registersOf, and_assoc]

/-- The registers of agreeing rows are consistent. -/
theorem consistent_of_agreeing {rows : List WireTask} (h : Agreeing rows) (keep : Bool)
    (id : String) {group : TaskSyncGroup} (hgroup : group ∈ sharedGroups) :
    Consistent (registersOf keep id group rows) := by
  intro a ha b hb hstamp
  obtain ⟨row, hrow, hid, rfl⟩ := mem_registersOf.mp ha
  obtain ⟨other, hother, hid', rfl⟩ := mem_registersOf.mp hb
  have hcontent := h row hrow other hother (hid.trans hid'.symm) group hgroup hstamp
  have hstamps : row.s group = other.s group := hstamp
  unfold rowRegister
  rw [hcontent, hstamps]

/-- **Live rows merge as a last-writer-wins join.**  Two runs of accepted pages that carry
the same rows from the same start end with the same registers, and each is the copy's own
register if no row is newer, or else the latest among the rows.  Pages of rows that were
applied leave every register; where none of their rows fills a board preference they leave
the store as it is and count nothing. -/
theorem live_rows_join (checks : WireChecks) (link : ApplyLink) (own : Self)
    (hpeer : link.install ≠ own.id) (project : String) (start : Install ρ)
    (pages pages' : List (LivePage ρ))
    (hpages : Runs.EveryCall (pageStep checks link) (Accepts checks link own project) start pages)
    (hpages' : Runs.EveryCall (pageStep checks link) (Accepts checks link own project) start pages')
    (hsame : ∀ row, row ∈ rowsOf pages ↔ row ∈ rowsOf pages')
    (hagree : Agreeing (rowsOf pages)) :
    let reached := Runs.after (pageStep checks link) start pages
    let reached' := Runs.after (pageStep checks link) start pages'
    (∀ keep id, (keep = true → ReplicaCrosses start.store.tasks (rowsOf pages) id) →
      ∀ group ∈ sharedGroups,
        let view := viewOf keep own.pfx reached.store.tasks id group
        let held := viewOf keep own.pfx start.store.tasks id group
        let sent := registersOf keep id group (rowsOf pages)
        view = viewOf keep own.pfx reached'.store.tasks id group ∧
          (∀ register, view = some register → Latest held sent register) ∧
          (view = none → held = none ∧ sent = [])) ∧
      (∀ page, Accepts checks link own project reached page →
        (∀ row ∈ page.rows, row ∈ rowsOf pages) →
        (∀ keep id, ∀ group ∈ sharedGroups,
            viewOf keep own.pfx (pageStep checks link reached page).1.store.tasks id group =
              viewOf keep own.pfx reached.store.tasks id group) ∧
          ((∀ row ∈ page.rows, ∀ held, reached.store.tasks.get? row.id = some held →
              fillsBoard own link held row = false) →
            (pageStep checks link reached page).1.store = reached.store ∧
              (pageStep checks link reached page).2 = .applied ⟨0, none⟩)) := by
  intro reached reached'
  constructor
  · intro keep id hcrosses group hgroup view held sent
    have howns : OwnsNoReview keep start.store.tasks id := fun hkeep => (hcrosses hkeep).1
    have hview : view = absorb held sent :=
      view_after_pages hpages howns (fun hkeep => (hcrosses hkeep).2) hgroup
    have hview' : viewOf keep own.pfx reached'.store.tasks id group =
        absorb held (registersOf keep id group (rowsOf pages')) := by
      apply view_after_pages hpages' howns _ hgroup
      intro hkeep row hmem
      exact (hcrosses hkeep).2 row ((hsame row).mpr hmem)
    have hmembers : ∀ register, register ∈ sent ↔
        register ∈ registersOf keep id group (rowsOf pages') := by
      intro register
      unfold sent
      rw [mem_registersOf, mem_registersOf]
      simp only [hsame]
    refine ⟨?_, ?_, ?_⟩
    · rw [hview, hview']
      exact absorb_eq_of_mem_iff hmembers (consistent_of_agreeing hagree keep id hgroup)
    · intro register hregister
      rw [hview] at hregister
      exact latest_absorb hregister
    · intro hnone
      rw [hview] at hnone
      exact absorb_eq_none hnone
  · intro page hpage hrows
    apply page_of_applied hpage
    intro row hmem
    exact applied_after_pages hpages hpeer (Or.inr (hrows row hmem))

end Converge

/-! ### Replicas and full boards -/

section Peer

/-- A live row of the peer, all of its groups under one stamp. -/
def peerRow (id text : String) (ms : Nat) (board : Option TaskBoardVisibility)
    (replica : Option PrototypeReviewReplica) : WireTask where
  id := id
  project := sharedProject
  text := text
  details := none
  status := .assigned
  board := board
  color := none
  icon := none
  priority := none
  placement := .unplaced
  pos := none
  workLinks := none
  machine := peerLink.install
  handover := none
  createdAt := ⟨"1970-01-01T00:00:01.000Z", some 1000⟩
  updatedAt := ⟨"1970-01-01T00:00:02.000Z", some 2000⟩
  s := fun _ => ⟨ms, 0, "bbbbbbbb"⟩
  prototypeReviewReplica := replica

/-- A page of the peer. -/
def peerPage (rows : List WireTask) : LivePage Unit := ⟨sharing 10000, 10000, rows⟩

/-- A review that waits for an answer. -/
def waitingReview : PrototypeReviewReplica := ⟨some "review", true, "", [], false⟩

/-- The peer's row with its review, and a later edit that crossed without one. -/
def reviewed : WireTask := peerRow sharedTaskId "Draw the board" 5000 none (some waitingReview)

def edited : WireTask := peerRow sharedTaskId "Draw the whole board" 7000 none none

/-- Where no title is a placeholder and no task has a finding key, every row is quiet. -/
theorem quietRow_of_plain {ρ : Type} {ctx : WriteContext ρ} {tasks : Tasks ρ} (row : WireTask)
    (h : ∀ held ∈ tasks.rows, held.text ≠ UNTITLED_TASK_TEXT ∧ held.findingKey = none) :
    QuietRow ctx tasks row := by
  intro held hget
  obtain ⟨htext, hkey⟩ := h held (Table.get?_eq_some.mp hget).1
  constructor
  · rintro group ⟨-, hrestores⟩
    simp [restoresTitle, htext] at hrestores
  · rintro ⟨-, -, -, hconflict⟩
    simp [reopenConflict, hkey] at hconflict

/-- A page of the peer on the shared project is accepted where it is applied. -/
theorem accepts_peerPage {install : Install Unit} {rows : List WireTask}
    (hproject : ∀ row ∈ rows, row.project = sharedProject)
    (hlive : ∀ row ∈ rows, install.store.companion.isTombstone row.id = false)
    (hanswer : ∃ changed,
      (pageStep anyRow peerLink install (peerPage rows)).2 = .applied ⟨changed, none⟩)
    (hquiet : QuietRows anyRow (sharing 10000) peerLink (pageStart install.store) rows) :
    Accepts anyRow peerLink (sharing 10000).self sharedProject install (peerPage rows) where
  identity := rfl
  shared := by
    have hlink : sharedProject ∈ peerLink.projects := by decide
    have hlinked : sharedProject ∈ (sharing 10000).linked := by decide
    exact ⟨hlink, hlinked⟩
  rows := hproject
  live := hlive
  answer := hanswer
  quiet := hquiet

/-- The edit after the reviewed row, and all of them on one page with a replay. -/
theorem live_rows_join_two_orders :
    let reached := Runs.after (pageStep anyRow peerLink) emptyInstall [peerPage [reviewed], peerPage [edited]]
    let reached' := Runs.after (pageStep anyRow peerLink) emptyInstall [peerPage [edited, reviewed, edited]]
    viewOf false "aaaaaaaa" reached.store.tasks sharedTaskId .text =
        viewOf false "aaaaaaaa" reached'.store.tasks sharedTaskId .text ∧
      (pageStep anyRow peerLink reached (peerPage [reviewed])).2 = .applied ⟨0, none⟩ := by
  intro reached reached'
  have hpages : Runs.EveryCall (pageStep anyRow peerLink)
      (Accepts anyRow peerLink (sharing 10000).self sharedProject) emptyInstall
      [peerPage [reviewed], peerPage [edited]] := by
    refine Runs.everyCall_cons ?_ (Runs.everyCall_cons ?_ (Runs.everyCall_nil _ _))
    · apply accepts_peerPage (by decide) (by decide) ⟨1, by decide⟩
      exact ⟨quietRow_of_plain _ (by decide), trivial⟩
    · apply accepts_peerPage (by decide) (by decide) ⟨1, by decide⟩
      exact ⟨quietRow_of_plain _ (by decide), trivial⟩
  have hpages' : Runs.EveryCall (pageStep anyRow peerLink)
      (Accepts anyRow peerLink (sharing 10000).self sharedProject) emptyInstall
      [peerPage [edited, reviewed, edited]] := by
    refine Runs.everyCall_cons ?_ (Runs.everyCall_nil _ _)
    apply accepts_peerPage (by decide) (by decide) ⟨1, by decide⟩
    exact ⟨quietRow_of_plain _ (by decide), quietRow_of_plain _ (by decide),
      quietRow_of_plain _ (by decide), trivial⟩
  have hagree : Agreeing (rowsOf [peerPage [reviewed], peerPage [edited]]) := by
    decide
  have hsame : ∀ row, row ∈ rowsOf [peerPage [reviewed], peerPage [edited]] ↔
      row ∈ rowsOf [peerPage [edited, reviewed, edited]] := by
    intro row
    simp only [rowsOf, peerPage, List.map_cons, List.map_nil, List.flatten_cons, List.flatten_nil,
      List.append_nil, List.cons_append, List.nil_append, List.mem_cons, List.not_mem_nil, or_false]
    tauto
  obtain ⟨hviews, hreplay⟩ := live_rows_join anyRow peerLink (sharing 10000).self (by decide)
    sharedProject emptyInstall _ _ hpages hpages' hsame hagree
  constructor
  · exact (hviews false sharedTaskId (by simp) .text (by decide)).1
  · have haccepts : Accepts anyRow peerLink (sharing 10000).self sharedProject reached
        (peerPage [reviewed]) := by
      apply accepts_peerPage (by decide) (by decide) ⟨0, by decide⟩
      exact ⟨quietRow_of_plain _ (by decide), trivial⟩
    have hboard : ∀ row ∈ (peerPage [reviewed]).rows, ∀ held,
        reached.store.tasks.get? row.id = some held →
          fillsBoard (sharing 10000).self peerLink held row = false := by
      intro row hmem held _
      rw [List.mem_singleton.mp hmem]
      rfl
    exact ((hreplay (peerPage [reviewed]) haccepts (by simp [rowsOf, peerPage])).2 hboard).2

/-- A task of the peer whose title only the local board hides. -/
def crowdedOut : BoardTask Unit :=
  { localTask sharedTaskId "Draw the board" ⟨"1970-01-01T00:00:02.000Z", some 2000⟩ with
    status := .assigned
    chosen := true
    machine := some peerLink.install
    board := some .hidden
    boardAutoHidden := true
    sync := some ⟨fun _ => some ⟨5000, 0, "bbbbbbbb"⟩, "bbbbbbbb"⟩ }

/-- A finished task of the board; `n` tells the ids apart. -/
def finished (n : Nat) : BoardTask Unit :=
  { localTask (String.ofList (List.replicate n 'f')) "Done" ⟨"1970-01-01T00:00:01.000Z", some 1000⟩ with
    status := .done }

theorem finished_id_injective : Function.Injective (fun n => (finished n).id) := by
  intro a b heq
  have hlength := congrArg (fun text => text.toList.length) heq
  simpa [finished, localTask] using hlength

/-- A board that `BOARD_TASKS_PER_PROJECT_LIMIT` finished tasks fill. -/
def fullBoard : Install Unit where
  store :=
    { tasks :=
        { rows := crowdedOut :: (List.range BOARD_TASKS_PER_PROJECT_LIMIT).map finished
          nodup := by
            rw [List.map_cons, List.map_map, List.nodup_cons]
            refine ⟨?_, List.nodup_range.map finished_id_injective⟩
            intro hmem
            obtain ⟨n, -, heq⟩ := List.mem_map.mp hmem
            have hhead := congrArg (fun text => text.toList.head?) heq
            cases n with
            | zero => simp [finished, localTask, crowdedOut, sharedTaskId] at hhead
            | succ n => simp [finished, localTask, crowdedOut, sharedTaskId, List.replicate_succ] at hhead }
      companion := emptyCompanion }
  budgets := Table.empty

/-- The peer shows its task. -/
def shown : WireTask := peerRow sharedTaskId "Draw the board" 5000 (some .shown) none

/-- The page while the board shows its finished tasks, and three days later. -/
def finishedShown : LivePage Unit where
  ctx := { sharing 10000 with showsOnBoard := fun task => task.board ≠ some .hidden }
  now := 10000
  rows := [shown]

def finishedExpired : LivePage Unit where
  ctx :=
    { sharing 300000000 with
      showsOnBoard := fun task => task.status ≠ .done ∧ task.board ≠ some .hidden }
  now := 300000000
  rows := [shown]

/-- **Two things that do not follow the stamps.**  The review replica of a task depends on
the order in which two rows arrive; and a row that its copy had absorbed changes the copy
when room on the board has appeared. -/
theorem replica_and_board_not_joined :
    (let reached := Runs.after (pageStep anyRow peerLink) emptyInstall [peerPage [reviewed], peerPage [edited]]
      let reached' := Runs.after (pageStep anyRow peerLink) emptyInstall [peerPage [edited], peerPage [reviewed]]
      (reached.store.tasks.get? sharedTaskId).map (fun task => groupDigest task .text) ≠
        (reached'.store.tasks.get? sharedTaskId).map (fun task => groupDigest task .text)) ∧
      (let first := pageStep anyRow peerLink fullBoard finishedShown
        let second := pageStep anyRow peerLink first.1 finishedExpired
        first.2 = .applied ⟨0, none⟩ ∧ second.2 = .applied ⟨1, none⟩) := by
  constructor
  · decide +kernel
  · constructor
    · decide +kernel
    · decide +kernel

end Peer

end Delegatus.LinkedBoards
