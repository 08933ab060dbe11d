import Delegatus.LinkedDeletion
import Delegatus.LinkedPageWrites

/-!
# Refused pages

The callback of a page writes to its session alone, and follows the page of the model row by row: a
page that throws, at whichever row, leaves the store as it was.  What a refused page may change is
what the one-time repair of the board, which comes before it, changes.
-/

namespace Delegatus.LinkedPageWrites

open LinkStamps
open LinkedBoards (ApplyLink ApplyOutcome BoardTask Companion Install ProjectFloor RowBudget
  TaskStore TaskSyncGroup TaskTombstone Tasks WireChecks WireGone WireRow WireStub WireTask
  WithheldStub WriteContext PageState admitToBoard applyRow applyRows committedRows deleteTask
  stampLinkedRows buryRow)

section Sessions

variable {ρ : Type}

/-! ### Steps of the callback -/

theorem bind_ok {α β : Type} {step : Callback ρ α} {next : α → Callback ρ β}
    {session after : Session ρ} {value : α} (h : step session = .ok value after) :
    (step >>= next) session = next value after := by
  show EStateM.bind step next session = _
  rw [EStateM.bind, h]

theorem bind_error {α β : Type} {step : Callback ρ α} {next : α → Callback ρ β}
    {session after : Session ρ} {thrown : Thrown} (h : step session = .error thrown after) :
    (step >>= next) session = .error thrown after := by
  show EStateM.bind step next session = _
  rw [EStateM.bind, h]

theorem get_ok (session : Session ρ) : (get : Callback ρ (Session ρ)) session = .ok session session := rfl

/-- What the session shows to its callback: the rows of the page so far, over the store as it was. -/
structure Shows (disk : TaskStore ρ) (session : Session ρ) (page : PageState ρ) : Prop where
  disk : session.disk = disk
  tasks : session.tasks = page.tasks
  tombstones : ∀ id, session.readTombstone id = page.companion.tombstones.get? id
  floors : ∀ project, session.readFloor project = page.companion.floors.get? project
  stubs : ∀ id, session.readStub id = page.companion.stubs.get? id
  preserved : session.preserved = page.preserved
  count : session.count = page.count

theorem shows_start (disk : TaskStore ρ) :
    Shows disk (Session.start disk) ⟨disk.tasks, disk.companion, [], 0⟩ :=
  ⟨rfl, rfl, fun _ => rfl, fun _ => rfl, fun _ => rfl, rfl, rfl⟩

namespace Shows

variable {disk : TaskStore ρ} {session : Session ρ} {page : PageState ρ}

theorem putTombstone (h : Shows disk session page) (row : TaskTombstone) :
    Shows disk { session with tombstones := session.tombstones.put row }
      { page with companion := { page.companion with tombstones := page.companion.tombstones.set row } } where
  disk := h.disk
  tasks := h.tasks
  tombstones := by
    intro id
    show (session.tombstones.put row).read _ id = _
    rw [PendingRows.read_put, Table.get?_set]
    exact if_congr Iff.rfl rfl (h.tombstones id)
  floors := h.floors
  stubs := h.stubs
  preserved := h.preserved
  count := h.count

theorem putFloor (h : Shows disk session page) (row : ProjectFloor) :
    Shows disk { session with floors := session.floors.put row }
      { page with companion := { page.companion with floors := page.companion.floors.set row } } where
  disk := h.disk
  tasks := h.tasks
  tombstones := h.tombstones
  floors := by
    intro project
    show (session.floors.put row).read _ project = _
    rw [PendingRows.read_put, Table.get?_set]
    exact if_congr Iff.rfl rfl (h.floors project)
  stubs := h.stubs
  preserved := h.preserved
  count := h.count

theorem putStub (h : Shows disk session page) (row : WithheldStub) :
    Shows disk { session with stubs := session.stubs.put row }
      { page with companion := { page.companion with stubs := page.companion.stubs.set row } } where
  disk := h.disk
  tasks := h.tasks
  tombstones := h.tombstones
  floors := h.floors
  stubs := by
    intro id
    show (session.stubs.put row).read _ id = _
    rw [PendingRows.read_put, Table.get?_set]
    exact if_congr Iff.rfl rfl (h.stubs id)
  preserved := h.preserved
  count := h.count

theorem setTasks (h : Shows disk session page) (tasks : Tasks ρ) :
    Shows disk { session with tasks := tasks } { page with tasks := tasks } :=
  { h with tasks := rfl }

theorem preserveStamps (h : Shows disk session page) (stamps : List (String × TaskSyncGroup)) :
    Shows disk { session with preserved := stamps ++ session.preserved }
      { page with preserved := stamps ++ page.preserved } :=
  { h with preserved := congrArg (stamps ++ ·) h.preserved }

theorem countRow (h : Shows disk session page) :
    Shows disk { session with count := session.count + 1 } { page with count := page.count + 1 } :=
  { h with count := congrArg (· + 1) h.count }

theorem raiseFloor (h : Shows disk session page) (project : String) (stamp : Stamp) :
    ∃ after, LinkedPageWrites.raiseFloor project stamp session = .ok () after ∧
      Shows disk after
        { page with companion := LinkedBoards.raiseFloor page.companion project stamp } := by
  unfold LinkedPageWrites.raiseFloor LinkedBoards.raiseFloor Companion.floorOf
  rw [bind_ok (get_ok session), h.floors project]
  cases page.companion.floors.get? project with
  | none => exact ⟨_, rfl, h.putFloor ⟨project, stamp⟩⟩
  | some held =>
    rw [Option.map_some]
    dsimp only
    by_cases hlt : held.floor < stamp
    · rw [if_pos hlt, if_pos hlt]
      exact ⟨_, rfl, h.putFloor ⟨project, stamp⟩⟩
    · rw [if_neg hlt, if_neg hlt]
      exact ⟨_, rfl, h⟩

theorem dropStub (h : Shows disk session page) (id : String) :
    ∃ after, LinkedPageWrites.dropStub id session = .ok () after ∧
      Shows disk after
        { page with companion := { page.companion with stubs := page.companion.stubs.delete id } } := by
  unfold LinkedPageWrites.dropStub
  rw [bind_ok (get_ok session), h.stubs id]
  by_cases hheld : (page.companion.stubs.get? id).isSome = true
  · rw [if_pos hheld]
    refine ⟨{ session with stubs := session.stubs.remove id }, rfl, { h with stubs := ?_ }⟩
    intro other
    show (session.stubs.remove id).read _ other = _
    rw [PendingRows.read_remove, Table.get?_delete]
    exact if_congr Iff.rfl rfl (h.stubs other)
  · rw [if_neg hheld]
    have habsent : page.companion.stubs.has id = false := by
      rw [Table.get?_isSome] at hheld
      exact Bool.eq_false_iff.mpr hheld
    rw [Table.delete_of_absent habsent]
    exact ⟨session, rfl, h⟩

end Shows

/-! ### The callback follows the page -/

/-- The step ends as the model's step does, and has left the store alone where it throws. -/
def Follows (disk : TaskStore ρ) :
    EStateM.Result Thrown (Session ρ) Unit → Except String (PageState ρ) → Prop
  | .ok _ after, .ok page => Shows disk after page
  | .error thrown after, .error message => thrown.message = message ∧ after.disk = disk
  | _, _ => False

variable {disk : TaskStore ρ} {session : Session ρ} {page : PageState ρ}

theorem Follows.andThen {first second : Callback ρ Unit} {model : Except String (PageState ρ)}
    {next : PageState ρ → Except String (PageState ρ)} (h : Follows disk (first session) model)
    (hnext : ∀ after page, Shows disk after page → Follows disk (second after) (next page)) :
    Follows disk ((do first; second) session) (model.bind next) := by
  cases hfirst : first session with
  | ok value after =>
    rw [hfirst] at h
    rw [bind_ok hfirst]
    cases model with
    | ok page => exact hnext after page h
    | error message => exact h.elim
  | error thrown after =>
    rw [hfirst] at h
    rw [bind_error hfirst]
    cases model with
    | ok page => exact h.elim
    | error message => exact h

section Rows

variable [DecidableEq ρ] [Inhabited ρ]

omit [DecidableEq ρ] [Inhabited ρ] in
theorem deleteHeld_follows (ctx : WriteContext ρ) (h : Shows disk session page)
    (held : Option (BoardTask ρ)) :
    Follows disk (deleteHeld ctx held session)
      (match held with
      | none => .ok page
      | some task => (deleteTask ctx page.tasks task).map fun tasks => { page with tasks := tasks }) := by
  cases held with
  | none => exact h
  | some task =>
    simp only [deleteHeld]
    rw [bind_ok (get_ok session), h.tasks]
    cases deleteTask ctx page.tasks task with
    | ok tasks => exact h.setTasks tasks
    | error message => exact ⟨rfl, h.disk⟩

omit [DecidableEq ρ] [Inhabited ρ] in
theorem takeGone_follows (ctx : WriteContext ρ) (link : ApplyLink) (h : Shows disk session page)
    (row : WireGone) :
    Follows disk (takeGone ctx link row session) (LinkedBoards.applyGone ctx link page row) := by
  unfold takeGone LinkedBoards.applyGone
  dsimp only
  rw [bind_ok (get_ok session), h.tasks]
  generalize hlast : Option.filter _ ((page.tasks.get? row.id).map _) = last
  have hput := h.putTombstone ⟨row.id, row.project, row.gone, last, link.pfx⟩
  obtain ⟨raised, hraised, hshows⟩ := hput.raiseFloor row.project row.gone
  obtain ⟨dropped, hdropped, hshows⟩ := hshows.dropStub row.id
  rw [bind_ok (show putTombstone _ session = .ok () _ from rfl), bind_ok hraised, bind_ok hdropped]
  have hdeleted := deleteHeld_follows ctx hshows (page.tasks.get? row.id)
  have hcounted := Follows.andThen hdeleted fun after (page : PageState ρ) hafter =>
    show Follows disk (countRow after) (.ok { page with count := page.count + 1 }) from
      hafter.countRow
  cases hheld : page.tasks.get? row.id with
  | none =>
    rw [hheld] at hcounted
    exact hcounted
  | some task =>
    rw [hheld] at hcounted
    dsimp only at hcounted ⊢
    cases hdelete : deleteTask ctx page.tasks task with
    | error message =>
      rw [hdelete] at hcounted
      exact hcounted
    | ok tasks =>
      rw [hdelete] at hcounted
      exact hcounted

omit [DecidableEq ρ] [Inhabited ρ] in
theorem takeStub_follows (h : Shows disk session page) (row : WireStub) :
    Follows disk (takeStub row session) (.ok (LinkedBoards.applyStub page row)) := by
  unfold takeStub LinkedBoards.applyStub
  dsimp only
  rw [bind_ok (get_ok session), h.stubs]
  by_cases hheld : ((page.companion.stubs.get? row.id).any
      fun stub => decide (stub.withheld = row.withheld)) = true
  · rw [if_pos hheld, if_pos hheld]
    exact h
  · rw [if_neg hheld, if_neg hheld]
    exact h.putStub ⟨row.id, row.project, row.withheld⟩

omit [Inhabited ρ] in
theorem placeMerged_follows (ctx : WriteContext ρ) (h : Shows disk session page)
    (held merged : BoardTask ρ) (preserved : List (String × TaskSyncGroup)) :
    Follows disk (placeMerged ctx held merged preserved session)
      (.ok
        (let admitted := admitToBoard ctx page.tasks.rows (some held) merged
        let page := { page with preserved := preserved ++ page.preserved }
        if admitted = held then page
        else { page with tasks := page.tasks.set admitted, count := page.count + 1 })) := by
  have hpreserved := h.preserveStamps preserved
  unfold placeMerged
  rw [bind_ok (show LinkedPageWrites.preserveStamps preserved session = .ok () _ from rfl),
    bind_ok (get_ok _)]
  dsimp only
  rw [h.tasks] at hpreserved ⊢
  by_cases hsame : admitToBoard ctx page.tasks.rows (some held) merged = held
  · rw [if_pos hsame, if_pos hsame]
    exact hpreserved
  · rw [if_neg hsame, if_neg hsame]
    exact (hpreserved.setTasks _).countRow

theorem takeLive_follows (checks : WireChecks) (ctx : WriteContext ρ) (link : ApplyLink)
    (h : Shows disk session page) (row : WireTask) :
    Follows disk (takeLive checks ctx link row session)
      (.ok (LinkedBoards.applyLive checks ctx link page row)) := by
  obtain ⟨dropped, hdropped, hshows⟩ := h.dropStub row.id
  unfold takeLive LinkedBoards.applyLive
  rw [bind_ok hdropped, bind_ok (get_ok dropped)]
  dsimp only
  rw [hshows.tasks]
  dsimp only
  cases page.tasks.get? row.id with
  | none => exact (hshows.setTasks _).countRow
  | some held =>
    dsimp only
    cases LinkedBoards.mergeHeld checks ctx link page.tasks.rows held row with
    | none => exact hshows
    | some merged => exact placeMerged_follows ctx hshows held merged.1 merged.2

/-- **One row**: the callback ends it as the model does, and where it throws the store is as it was. -/
theorem takeRow_follows (checks : WireChecks) (ctx : WriteContext ρ) (link : ApplyLink)
    (h : Shows disk session page) (row : WireRow) :
    Follows disk (takeRow checks ctx link row session) (applyRow checks ctx link page row) := by
  unfold takeRow applyRow
  rw [bind_ok (get_ok session), h.tasks, h.tombstones]
  by_cases hshared : row.project ∉ link.projects ∨ row.project ∉ ctx.linked
  · rw [if_pos hshared, if_pos hshared]
    exact h
  rw [if_neg hshared, if_neg hshared]
  by_cases hother : ((page.tasks.get? row.id).any fun held => decide (held.project ≠ row.project)) = true
  · rw [if_pos hother, if_pos hother]
    exact ⟨rfl, h.disk⟩
  rw [if_neg hother, if_neg hother]
  have hburied : (page.companion.tombstones.get? row.id).isSome = true ↔
      page.companion.isTombstone row.id = true := Table.get?_isSome _ _
  by_cases htomb : page.companion.isTombstone row.id = true
  · rw [if_pos (hburied.mpr htomb), if_pos htomb]
    exact h
  rw [if_neg fun hsome => htomb (hburied.mp hsome), if_neg htomb]
  cases row with
  | gone row => exact takeGone_follows ctx link h row
  | stub row => exact takeStub_follows h row
  | task row => exact takeLive_follows checks ctx link h row

/-- **A page**: by induction on its rows. -/
theorem takeRows_follows (checks : WireChecks) (ctx : WriteContext ρ) (link : ApplyLink)
    (rows : List WireRow) (h : Shows disk session page) :
    Follows disk (takeRows checks ctx link rows session) (applyRows checks ctx link page rows) := by
  induction rows generalizing session page with
  | nil => exact h
  | cons row rest ih =>
    have hall := (takeRow_follows checks ctx link h row).andThen fun after page hafter =>
      @ih after page hafter
    rw [applyRows]
    cases hrow : applyRow checks ctx link page row with
    | ok next =>
      rw [hrow] at hall
      exact hall
    | error message =>
      rw [hrow] at hall
      exact hall

/-! ### Pages that throw -/

theorem mutateLinkedTasks_thrown (checks : WireChecks) (ctx : WriteContext ρ) (link : ApplyLink)
    (store : TaskStore ρ) (rows : List WireRow) {thrown : Thrown}
    (h : (mutateLinkedTasks ctx store (takeRows checks ctx link rows)).2 = .error thrown) :
    (mutateLinkedTasks ctx store (takeRows checks ctx link rows)).1 = store := by
  have hfollows := takeRows_follows checks ctx link rows (shows_start store)
  revert h
  unfold mutateLinkedTasks
  cases hrows : takeRows checks ctx link rows (Session.start store) with
  | error other session =>
    intro _
    rw [hrows] at hfollows
    cases hmodel : applyRows checks ctx link ⟨store.tasks, store.companion, [], 0⟩ rows with
    | ok page =>
      rw [hmodel] at hfollows
      exact hfollows.elim
    | error message =>
      rw [hmodel] at hfollows
      exact hfollows.2
  | ok value session =>
    rw [hrows] at hfollows
    cases hmodel : applyRows checks ctx link ⟨store.tasks, store.companion, [], 0⟩ rows with
    | error message =>
      rw [hmodel] at hfollows
      exact hfollows.elim
    | ok page =>
      rw [hmodel] at hfollows
      dsimp only
      split
      · exact fun h => nomatch h
      · split
        · exact fun h => nomatch h
        · exact fun _ => hfollows.disk

/-! ### The repair -/

theorem exists_of_forall₂ {α β : Type} {R : α → β → Prop} {as : List α} {bs : List β}
    (h : List.Forall₂ R as bs) {a : α} (ha : a ∈ as) : ∃ b ∈ bs, R a b := by
  induction h with
  | nil => exact nomatch ha
  | cons hfirst _ ih =>
    rcases List.mem_cons.mp ha with rfl | hrest
    · exact ⟨_, List.mem_cons_self, hfirst⟩
    · obtain ⟨b, hb, hab⟩ := ih hrest
      exact ⟨b, List.mem_cons_of_mem _ hb, hab⟩

omit [DecidableEq ρ] [Inhabited ρ] in
/-- The pass over the deleted rows finds nothing to bury where no row is gone. -/
theorem buryRows_kept (ctx : WriteContext ρ) (committed tasks priors : List (BoardTask ρ))
    (acc : LinkedBoards.Marks × Companion) (h : ∀ prior ∈ priors, ∃ task ∈ tasks, task.id = prior.id) :
    priors.foldl (buryRow ctx committed tasks) acc = acc := by
  induction priors generalizing acc with
  | nil => rfl
  | cons prior rest ih =>
    have hheld := h prior List.mem_cons_self
    rw [List.foldl_cons, buryRow, if_pos (Or.inr (Or.inl hheld))]
    exact ih acc fun other hother => h other (List.mem_cons_of_mem _ hother)

omit [Inhabited ρ] in
/-- A write that keeps every task changes no companion row. -/
theorem companion_committedRows {ctx : WriteContext ρ} {preserved : List (String × TaskSyncGroup)}
    {before tasks : Tasks ρ} {companion : Companion} {store : TaskStore ρ}
    (h : committedRows ctx preserved before tasks companion = .ok store)
    (hkept : ∀ prior ∈ before.rows, ∃ task ∈ tasks.rows, task.id = prior.id) :
    store.companion = companion := by
  unfold committedRows at h
  cases hsettle : LinkedBoards.settleTasks ctx before tasks.rows with
  | error error =>
    rw [hsettle] at h
    exact nomatch h
  | ok settled =>
    rw [hsettle] at h
    obtain rfl := Except.ok.inj h
    have hsettled := LinkedBoards.settleTasks_ok hsettle
    obtain ⟨-, stamped, hrows, hstamped⟩ := LinkedBoards.stampRows_spec preserved before companion
      settled Table.empty [] (LinkedBoards.marksAbove_empty ctx.self before.rows companion)
    rw [List.nil_append] at hrows
    dsimp only [stampLinkedRows]
    rw [hrows, buryRows_kept]
    intro prior hprior
    obtain ⟨task, htask, hid⟩ := hkept prior hprior
    obtain ⟨settledTask, hmem, hsame⟩ := exists_of_forall₂ hsettled htask
    obtain ⟨row, hrow, hstamp⟩ := exists_of_forall₂ hstamped hmem
    obtain ⟨rest, proactive, rfl⟩ := hsame
    exact ⟨row, hrow, hstamp.id_eq.trans hid⟩

omit [Inhabited ρ] in
theorem companion_repair (ctx : WriteContext ρ) (startup : Except String Unit) (board : Board ρ) :
    (repairLinkedTasks ctx startup board).1.install.store.companion =
      board.install.store.companion := by
  unfold repairLinkedTasks
  split
  · rfl
  cases startup with
  | error message => rfl
  | ok value =>
    dsimp only
    split
    · rfl
    cases hcommit : committedRows ctx [] board.install.store.tasks
        (repairTasks ctx board.install.store.tasks) board.install.store.companion with
    | error message => rfl
    | ok store =>
      apply companion_committedRows hcommit
      intro prior hprior
      refine ⟨repairTask ctx prior, ?_, repairTask_id ctx prior⟩
      rw [repairTasks, Table.rows_mapRows]
      exact List.mem_map_of_mem hprior

omit [Inhabited ρ] in
theorem repair_of_not_pending {ctx : WriteContext ρ} {board : Board ρ}
    (startup : Except String Unit) (h : ¬RepairPending ctx board) :
    (repairLinkedTasks ctx startup board).1.install = board.install := by
  unfold repairLinkedTasks
  by_cases hdone : board.completed = true ∨ ctx.linked = []
  · rw [if_pos hdone]
  rw [if_neg hdone]
  obtain ⟨hcompleted, hlinked⟩ := not_or.mp hdone
  have hmarker : board.marker = true := by
    by_contra hmarker
    exact h ⟨Bool.eq_false_iff.mpr hcompleted, hlinked, Bool.eq_false_iff.mpr hmarker⟩
  cases startup with
  | error message => rfl
  | ok value =>
    dsimp only
    rw [if_pos hmarker]

/-! ### Refused pages -/

/-- The page was refused, or the call threw. -/
def Refused : Except Thrown ApplyOutcome → Prop
  | .ok outcome => outcome.refused.isSome = true
  | .error _ => True

instance (result : Except Thrown ApplyOutcome) : Decidable (Refused result) :=
  match result with
  | .ok outcome => inferInstanceAs (Decidable (outcome.refused.isSome = true))
  | .error _ => inferInstanceAs (Decidable True)

theorem applyPage_store (checks : WireChecks) (ctx : WriteContext ρ) (link : ApplyLink) (now : Int)
    (install : Install ρ) (rows : List WireRow)
    (h : Refused (applyPage checks ctx link now install rows).2) :
    (applyPage checks ctx link now install rows).1.store = install.store := by
  revert h
  unfold applyPage
  dsimp only
  split
  · exact fun _ => rfl
  split
  · exact fun _ => rfl
  split
  · exact fun _ => rfl
  cases hwritten : mutateLinkedTasks ctx install.store (takeRows checks ctx link rows) with
  | mk store result =>
    cases result with
    | error thrown =>
      intro _
      have hkept := @mutateLinkedTasks_thrown ρ _ _ checks ctx link install.store rows thrown
        (by rw [hwritten])
      rw [hwritten] at hkept
      exact hkept
    | ok changed => exact fun hrefused => nomatch hrefused

/-- **A refused page changes nothing.**  The store is what the repair of the board left: the
tombstones, stubs and floors are as before the call, and so are the tasks once the repair has run. -/
theorem refused_page_keeps (checks : WireChecks) (ctx : WriteContext ρ) (link : ApplyLink)
    (startup : Except String Unit) (now : Int) (board : Board ρ) (rows : List WireRow)
    (h : Refused (applyTaskRows checks ctx link startup now board rows).2) :
    let after := (applyTaskRows checks ctx link startup now board rows).1.install.store
    after.tasks = (repairLinkedTasks ctx startup board).1.install.store.tasks ∧
      after.companion = board.install.store.companion ∧
      (¬RepairPending ctx board → after = board.install.store) := by
  intro after
  have hafter : after = (repairLinkedTasks ctx startup board).1.install.store := by
    revert h
    show _ → (applyTaskRows checks ctx link startup now board rows).1.install.store = _
    unfold applyTaskRows
    rcases repairLinkedTasks ctx startup board with ⟨repaired, answer⟩
    cases answer with
    | error thrown => exact fun _ => rfl
    | ok value => exact applyPage_store checks ctx link now repaired.install rows
  refine ⟨congrArg TaskStore.tasks hafter, ?_, fun hdone => ?_⟩
  · rw [hafter]
    exact companion_repair ctx startup board
  · rw [hafter, repair_of_not_pending startup hdone]

end Rows

end Sessions

/-! ### Two pages -/

section Pages

open LinkedBoards (anyRow emptyCompanion localTask noticeGone noticeId peerLink quarantineNotice
  sharedProject sharedTaskId sharing)

/-- A finished task of the peer that arrived before arrivals had a board preference. -/
def finishedArrival : BoardTask Unit :=
  { localTask sharedTaskId "Draw the board" ⟨"1970-01-01T00:00:02.000Z", some 2000⟩ with
    status := .done
    machine := some peerLink.install
    sync := some ⟨fun _ => some ⟨1000, 0, "bbbbbbbb"⟩, "bbbbbbbb"⟩ }

/-- A board of an older release. -/
def unrepaired : Board Unit :=
  ⟨⟨⟨Table.empty.set finishedArrival, emptyCompanion⟩, Table.empty⟩, false, false⟩

/-- A stub that is stamped a day ahead. -/
def aheadStub : WireStub := ⟨noticeId, sharedProject, ⟨86400000, 0, "bbbbbbbb"⟩⟩

/-- **A page that is refused for its clock repairs the board.** -/
theorem refused_page_repairs :
    Refused (applyTaskRows anyRow (sharing 3000) peerLink (.ok ()) 3000 unrepaired [.stub aheadStub]).2 ∧
      (applyTaskRows anyRow (sharing 3000) peerLink (.ok ()) 3000 unrepaired
          [.stub aheadStub]).1.install.store.tasks ≠ unrepaired.install.store.tasks := by
  decide

/-- A board with the task that the page deletes, and with a task of another project. -/
def repaired : Board Unit :=
  ⟨⟨⟨(Table.empty.set quarantineNotice).set
        { localTask sharedTaskId "Draw the board" ⟨"1970-01-01T00:00:02.000Z", some 2000⟩ with
          project := "repo-fedcba9876543210fedcba9876543210" },
      emptyCompanion⟩, Table.empty⟩, true, true⟩

/-- The second row of the page names the task of the other project. -/
theorem refused_page_keeps_malformed :
    (applyTaskRows anyRow (sharing 3000) peerLink (.ok ()) 3000 repaired
        [.gone noticeGone, .stub ⟨sharedTaskId, sharedProject, ⟨2000, 0, "bbbbbbbb"⟩⟩]).1.install.store =
      repaired.install.store :=
  (refused_page_keeps anyRow (sharing 3000) peerLink (.ok ()) 3000 repaired
    [.gone noticeGone, .stub ⟨sharedTaskId, sharedProject, ⟨2000, 0, "bbbbbbbb"⟩⟩] (by decide)).2.2
    fun hpending => nomatch hpending.1

end Pages

end Delegatus.LinkedPageWrites
