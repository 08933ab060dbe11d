import Delegatus.CpuAdmission

/-!
# What the admission statements leave alone

`Sound` is the invariant of the tables: a key and a queue number name one ticket, and the
next number is a new one. `Keeps` says of a statement that it adds no ticket and gives none
another identity, `SameFor` that it leaves everything about a key as it is. Both are
transitive, so a call keeps what each of its statements keeps.
-/

namespace Delegatus.CpuAdmission

/-! ### Tickets keep their identity -/

/-- What never changes about a ticket. -/
def ident (row : Ticket) : String × Nat × Int × Option String :=
  (row.key, row.fifoSeq, row.since, row.owner)

/-- No ticket is new, one that an aging-aware owner checked stays so, and nothing is admitted. -/
structure Keeps (a b : Tables) : Prop where
  rows : (b.tickets.map ident).Sublist (a.tickets.map ident)
  aging : ∀ row ∈ b.tickets, ∃ old ∈ a.tickets, ident old = ident row ∧
    (old.aging = true → row.aging = true)
  next : b.next = a.next
  last : b.last = a.last

theorem Keeps.refl (a : Tables) : Keeps a a :=
  ⟨List.Sublist.refl _, fun row hrow => ⟨row, hrow, rfl, id⟩, rfl, rfl⟩

theorem Keeps.trans {a b c : Tables} (hab : Keeps a b) (hbc : Keeps b c) : Keeps a c := by
  refine ⟨hbc.rows.trans hab.rows, ?_, hbc.next.trans hab.next, hbc.last.trans hab.last⟩
  intro row hrow
  obtain ⟨mid, hmid, hident, haging⟩ := hbc.aging row hrow
  obtain ⟨old, hold, hident', haging'⟩ := hab.aging mid hmid
  exact ⟨old, hold, hident'.trans hident, fun h => haging (haging' h)⟩

theorem Keeps.foldl {f : Tables → Ticket → Tables} (hf : ∀ tables row, Keeps tables (f tables row))
    (rows : List Ticket) (tables : Tables) : Keeps tables (rows.foldl f tables) := by
  induction rows generalizing tables with
  | nil => exact Keeps.refl tables
  | cons row rows ih => exact (hf tables row).trans (ih (f tables row))

/-- The same tickets in the same order. -/
theorem keeps_of_tickets_eq {a b : Tables} (htickets : b.tickets = a.tickets)
    (hnext : b.next = a.next) (hlast : b.last = a.last) : Keeps a b := by
  refine ⟨by rw [htickets], ?_, hnext, hlast⟩
  intro row hrow
  exact ⟨row, htickets ▸ hrow, rfl, id⟩

/-- A rewriting of rows that keeps their identity and their aging. -/
theorem keeps_map {a b : Tables} {f : Ticket → Ticket} (htickets : b.tickets = a.tickets.map f)
    (hnext : b.next = a.next) (hlast : b.last = a.last)
    (hident : ∀ row, ident (f row) = ident row)
    (haging : ∀ row, row.aging = true → (f row).aging = true) : Keeps a b := by
  refine ⟨?_, ?_, hnext, hlast⟩
  · have hsame : ident ∘ f = ident := funext hident
    rw [htickets, List.map_map, hsame]
  · intro row hrow
    rw [htickets] at hrow
    obtain ⟨old, hold, rfl⟩ := List.mem_map.mp hrow
    exact ⟨old, hold, (hident old).symm, haging old⟩

theorem keeps_updateWhere {p : Ticket → Bool} {f : Ticket → Ticket} (tables : Tables)
    (hident : ∀ row, ident (f row) = ident row := by intro row; rfl)
    (haging : ∀ row, row.aging = true → (f row).aging = true := by intro row h; exact h) :
    Keeps tables (updateWhere p f tables) := by
  refine keeps_map (f := fun row => if p row then f row else row) rfl rfl rfl ?_ ?_
  · intro row
    split
    · exact hident row
    · rfl
  · intro row h
    split
    · exact haging row h
    · exact h

theorem keeps_deleteStageAdmission (key : String) (tables : Tables) :
    Keeps tables (deleteStageAdmission key tables) := keeps_of_tickets_eq rfl rfl rfl

theorem keeps_insertSuspended (key : String) (tables : Tables) :
    Keeps tables (insertSuspended key tables) := keeps_of_tickets_eq rfl rfl rfl

theorem keeps_passOver (key : String) (tables : Tables) :
    Keeps tables (passOver key tables) := keeps_of_tickets_eq rfl rfl rfl

theorem keeps_deleteSuspended (key : String) (tables : Tables) :
    Keeps tables (deleteSuspended key tables) := by
  unfold deleteSuspended
  split
  · have hfirst : Keeps tables
        { tables with suspended := tables.suspended.filter (· ≠ key) } := keeps_of_tickets_eq rfl rfl rfl
    refine hfirst.trans ?_
    exact keeps_updateWhere _
  · exact Keeps.refl tables

theorem keeps_deleteTicket (key : String) (tables : Tables) :
    Keeps tables (deleteTicket key tables) := by
  unfold deleteTicket
  split
  · refine ⟨List.filter_sublist.map ident, ?_, rfl, rfl⟩
    intro row hrow
    exact ⟨row, List.mem_of_mem_filter hrow, rfl, id⟩
  · exact Keeps.refl tables

theorem keeps_cancel (key : String) (tables : Tables) : Keeps tables (cancel key tables) :=
  ((keeps_deleteStageAdmission key tables).trans (keeps_deleteSuspended key _)).trans
    (keeps_deleteTicket key _)

theorem keeps_touch (key : String) (now : Int) (tables : Tables) :
    Keeps tables (touch key now tables) :=
  keeps_updateWhere tables

theorem keeps_suspend (key : String) (now : Int) (tables : Tables) :
    Keeps tables (suspend key now tables) := by
  unfold suspend
  split
  · exact (keeps_insertSuspended key tables).trans (keeps_touch key now _)
  · exact keeps_touch key now tables

theorem keeps_orderLegacy (tables : Tables) : Keeps tables (orderLegacyTicketsByPriority tables) := by
  unfold orderLegacyTicketsByPriority
  dsimp only
  split
  · exact Keeps.refl tables
  · exact keeps_map rfl rfl rfl (fun _ => rfl) (fun _ h => h)

theorem keeps_reconcile (scope : String) (active eligible : List String) (now : String → Int)
    (tables : Tables) : Keeps tables (reconcile scope active eligible now tables) := by
  apply Keeps.foldl
  intro tables row
  unfold reconcileRow
  split
  · exact keeps_cancel row.key tables
  · have hstage := keeps_deleteStageAdmission row.key tables
    dsimp only
    split
    · exact hstage.trans (keeps_suspend row.key _ _)
    · split
      · exact (hstage.trans (keeps_deleteSuspended row.key _)).trans (keeps_touch row.key _ _)
      · exact hstage

theorem keeps_judgeOwners (options : QueueOptions) (call : CheckCall) (tables : Tables) :
    Keeps tables (judgeOwners options call tables) := by
  apply Keeps.foldl
  intro tables row
  unfold judgeOwner
  split
  · exact Keeps.refl tables
  · split_ifs
    · exact keeps_cancel row.key tables
    · exact Keeps.refl tables
    · dsimp only
      split_ifs
      · exact keeps_cancel row.key tables
      · exact keeps_passOver row.key tables
      · exact Keeps.refl tables

theorem keeps_stampReleased (call : CheckCall) (tables : Tables) :
    Keeps tables (stampReleased call tables) :=
  keeps_updateWhere tables

theorem keeps_removeAbandoned (call : CheckCall) (tables : Tables) :
    Keeps tables (removeAbandoned call tables) :=
  Keeps.foldl (fun tables row => keeps_cancel row.key tables) _ tables

theorem keeps_passOverUnpolled (options : QueueOptions) (call : CheckCall) (tables : Tables) :
    Keeps tables (passOverUnpolled options call tables) :=
  Keeps.foldl (fun tables row => keeps_passOver row.key tables) _ tables

theorem keeps_applyPriorities (call : CheckCall) (tables : Tables) :
    Keeps tables (applyPriorities call tables) := by
  unfold applyPriorities
  split_ifs
  · exact Keeps.refl tables
  · exact Keeps.refl tables
  · exact (keeps_updateWhere tables).trans (keeps_orderLegacy _)

theorem keeps_admitTicket (call : CheckCall) (tables : Tables) :
    Keeps tables (admitTicket call tables) := by
  unfold admitTicket
  split
  · exact keeps_of_tickets_eq rfl rfl rfl
  · exact keeps_cancel call.key tables

/-! ### Tickets are told apart -/

structure Sound (tables : Tables) : Prop where
  keys : (tables.tickets.map (·.key)).Nodup
  fifos : (tables.tickets.map (·.fifoSeq)).Nodup
  below : ∀ row ∈ tables.tickets, row.fifoSeq < tables.next

theorem sound_newFile : Sound newFile :=
  ⟨List.nodup_nil, List.nodup_nil, by simp [newFile]⟩

theorem Keeps.sound {a b : Tables} (h : Keeps a b) (hsound : Sound a) : Sound b := by
  have hkeys := h.rows.map (fun entry => entry.1)
  have hfifos := h.rows.map (fun entry => entry.2.1)
  simp only [List.map_map] at hkeys hfifos
  refine ⟨hsound.keys.sublist hkeys, hsound.fifos.sublist hfifos, ?_⟩
  intro row hrow
  obtain ⟨old, hold, hident, -⟩ := h.aging row hrow
  have hfifo : old.fifoSeq = row.fifoSeq := congrArg (fun entry => entry.2.1) hident
  rw [h.next, ← hfifo]
  exact hsound.below old hold

theorem le_foldl_max (numbers : List Nat) (start : Nat) :
    start ≤ numbers.foldl max start ∧ ∀ n ∈ numbers, n ≤ numbers.foldl max start := by
  induction numbers generalizing start with
  | nil => simp
  | cons n rest ih =>
    obtain ⟨hstart, hrest⟩ := ih (max start n)
    refine ⟨(Nat.le_max_left start n).trans hstart, ?_⟩
    intro m hm
    rcases List.mem_cons.mp hm with rfl | hm
    · exact (Nat.le_max_right start m).trans hstart
    · exact hrest m hm

/-- The key has a ticket. -/
def Has (key : String) (tables : Tables) : Prop := ∃ row ∈ tables.tickets, row.key = key

/-- The ticket that an insertion adds where the key has none. -/
def newTicket (key : String) (since : Int) (owner : Option String) (next : Nat) : Ticket :=
  { seq := 0, fifoSeq := next, key, since, owner, priority := 1, source := none
    polled := if owner = none then some since else none, lowPressure := false, aging := false }

theorem updateWhere_of_none {p : Ticket → Bool} (f : Ticket → Ticket) (tables : Tables)
    (h : ∀ row ∈ tables.tickets, p row = false) : updateWhere p f tables = tables := by
  have hmap : tables.tickets.map (fun row => if p row then f row else row) = tables.tickets := by
    rw [List.map_congr_left (g := id) (fun row hrow => by simp [h row hrow]), List.map_id]
  unfold updateWhere
  rw [hmap]

/-- An insertion polls the ticket of the key, or adds one. -/
theorem insertTicket_cases (key : String) (since : Int) (owner : Option String) (tables : Tables) :
    (insertTicket key since owner tables = updateWhere (·.key = key)
        (fun row => { row with polled := some since })
        { tables with unpolled := tables.unpolled.filter (· ≠ key) } ∧
      Has key tables) ∨
    ((∀ row ∈ tables.tickets, row.key ≠ key) ∧
      (∃ f : Ticket → Nat, (insertTicket key since owner tables).tickets =
        (tables.tickets ++ [newTicket key since owner tables.next]).map
          (fun row => { row with seq := f row })) ∧
      tables.next < (insertTicket key since owner tables).next ∧
      (insertTicket key since owner tables).suspended = tables.suspended ∧
      (insertTicket key since owner tables).unpolled = tables.unpolled.filter (· ≠ key) ∧
      (insertTicket key since owner tables).stageAdmissions = tables.stageAdmissions) := by
  by_cases hany : Has key tables
  · refine Or.inl ⟨?_, hany⟩
    obtain ⟨row, hrow, hkey⟩ := hany
    unfold insertTicket
    rw [if_pos]
    rw [List.any_eq_true]
    refine ⟨{ row with polled := some since }, ?_, by simpa using hkey⟩
    exact List.mem_map.mpr ⟨row, hrow, by simp [hkey]⟩
  · have hnone : ∀ row ∈ tables.tickets, row.key ≠ key := fun row hrow hkey =>
      hany ⟨row, hrow, hkey⟩
    have hpoll := updateWhere_of_none (p := fun row => decide (row.key = key))
      (fun row => { row with polled := some since })
      { tables with unpolled := tables.unpolled.filter (· ≠ key) }
      (fun row hrow => by simpa using hnone row hrow)
    have hmiss : tables.tickets.any (fun row => decide (row.key = key)) = false := by
      simpa using hnone
    have hnext := (le_foldl_max ((tables.tickets ++ [newTicket key since owner tables.next]).map
      (·.fifoSeq)) 0).2 tables.next (by simp [newTicket])
    refine Or.inr ⟨hnone, ?_⟩
    unfold insertTicket
    rw [hpoll, if_neg (by simp [hmiss])]
    refine ⟨⟨_, rfl⟩, ?_, rfl, rfl, rfl⟩
    exact Nat.lt_of_lt_of_le (Nat.lt_succ_of_le hnext) (Nat.le_max_right _ _)

/-- An insertion whose key has a ticket is a poll. -/
theorem keeps_insertTicket {key : String} {tables : Tables} (h : Has key tables) (since : Int)
    (owner : Option String) : Keeps tables (insertTicket key since owner tables) := by
  rcases insertTicket_cases key since owner tables with ⟨heq, -⟩ | ⟨hnone, -⟩
  · rw [heq]
    have hfirst : Keeps tables { tables with unpolled := tables.unpolled.filter (· ≠ key) } :=
      keeps_of_tickets_eq rfl rfl rfl
    refine hfirst.trans ?_
    exact keeps_updateWhere _
  · obtain ⟨row, hrow, hkey⟩ := h
    exact absurd hkey (hnone row hrow)

theorem Sound.insertTicket {tables : Tables} (h : Sound tables) (key : String) (since : Int)
    (owner : Option String) : Sound (insertTicket key since owner tables) := by
  rcases insertTicket_cases key since owner tables with
    ⟨-, hhas⟩ | ⟨hnone, ⟨f, htickets⟩, hnext, -⟩
  · exact (keeps_insertTicket hhas since owner).sound h
  · refine ⟨?_, ?_, ?_⟩
    · have hkeys : (CpuAdmission.insertTicket key since owner tables).tickets.map (·.key) =
          tables.tickets.map (·.key) ++ [key] := by
        rw [htickets, List.map_map, List.map_append]
        rfl
      rw [hkeys]
      refine List.nodup_append.mpr ⟨h.keys, List.nodup_singleton _, ?_⟩
      intro other hother new hnew
      obtain ⟨row, hrow, rfl⟩ := List.mem_map.mp hother
      rw [List.mem_singleton.mp hnew]
      exact hnone row hrow
    · have hfifos : (CpuAdmission.insertTicket key since owner tables).tickets.map (·.fifoSeq) =
          tables.tickets.map (·.fifoSeq) ++ [tables.next] := by
        rw [htickets, List.map_map, List.map_append]
        rfl
      rw [hfifos]
      refine List.nodup_append.mpr ⟨h.fifos, List.nodup_singleton _, ?_⟩
      intro other hother new hnew
      obtain ⟨row, hrow, rfl⟩ := List.mem_map.mp hother
      rw [List.mem_singleton.mp hnew]
      exact Nat.ne_of_lt (h.below row hrow)
    · intro row hrow
      rw [htickets] at hrow
      obtain ⟨old, hold, rfl⟩ := List.mem_map.mp hrow
      rcases List.mem_append.mp hold with hold | hold
      · exact (h.below old hold).trans hnext
      · rw [List.mem_singleton.mp hold]
        exact hnext

theorem keeps_refresh (call : CheckCall) (tables : Tables) : Keeps tables (refresh call tables) := by
  have hreturned := (keeps_deleteSuspended call.key tables).trans
    (keeps_deleteStageAdmission call.key _)
  have htouched := hreturned.trans (keeps_touch call.key call.touched _)
  refine htouched.trans ?_
  exact keeps_updateWhere _ (fun _ => rfl) (fun _ _ => rfl)

theorem Sound.enqueue {tables : Tables} (h : Sound tables) (call : CheckCall) :
    Sound (enqueue call tables) :=
  (keeps_refresh call _).sound (h.insertTicket call.key call.now call.owner)

theorem Sound.settled {tables : Tables} (h : Sound tables) (options : QueueOptions)
    (call : CheckCall) : Sound (settled options call tables) := by
  have hjudged := (keeps_stampReleased call tables).trans (keeps_judgeOwners options call _)
  have hqueued := (hjudged.sound h).enqueue call
  have hremoved := (keeps_removeAbandoned call _).sound hqueued
  have hswept := (keeps_passOverUnpolled options call _).sound hremoved
  exact (keeps_applyPriorities call _).sound hswept

/-- What a check answers, and the tables it leaves. -/
theorem answer_cases (options : QueueOptions) (call : CheckCall) (changed : Bool)
    (counting tables : Tables) :
    answer options call changed counting tables = (tables, .threw) ∨
      ∃ ticket, counting.tickets.find? (·.key = call.key) = some ticket ∧
        ((admits options call changed counting ticket = true ∧
            answer options call changed counting tables =
              (if call.consume then recordAdmission call counting else counting, .ready call.consume)) ∨
          ∃ head, admits options call changed counting ticket = false ∧
            answer options call changed counting tables =
              (counting, .wait (waitOf options call changed counting ticket head))) := by
  unfold answer
  split
  · exact Or.inl rfl
  · rename_i ticket hfind
    split
    · exact Or.inl rfl
    · rename_i head hhead
      refine Or.inr ⟨ticket, hfind, ?_⟩
      split
      · rename_i hadmits
        exact Or.inl ⟨hadmits, rfl⟩
      · rename_i hadmits
        exact Or.inr ⟨head, by simpa using hadmits, rfl⟩

theorem Sound.check {tables : Tables} (h : Sound tables) (options : QueueOptions)
    (call : CheckCall) : Sound (check options call tables).1 := by
  have hsettled := h.settled options call
  unfold CpuAdmission.check
  generalize observationChanged call (swept options call tables) = changed
  generalize CpuAdmission.settled options call tables = counting at hsettled
  rcases answer_cases options call changed counting tables with
    heq | ⟨ticket, -, ⟨-, heq⟩ | ⟨head, -, heq⟩⟩
  · rw [heq]
    exact h
  · rw [heq]
    dsimp only
    split
    · have hadmitted := (keeps_admitTicket call counting).sound hsettled
      exact ⟨hadmitted.keys, hadmitted.fifos, hadmitted.below⟩
    · exact hsettled
  · rw [heq]
    exact hsettled

theorem Sound.step {tables : Tables} (h : Sound tables) (options : QueueOptions) (op : Op) :
    Sound (step options tables op).1 := by
  cases op with
  | check call =>
    have hcheck := h.check options call
    simp only [CpuAdmission.step]
    exact hcheck
  | suspend key now => exact (keeps_suspend key now tables).sound h
  | reconcile scope active eligible now =>
    exact (keeps_reconcile scope active eligible now tables).sound h
  | cancel key => exact (keeps_cancel key tables).sound h
  | helperInsert key since owner => exact h.insertTicket key since owner

/-! ### New tickets have new numbers -/

/-- Every ticket is an old one, or has a number that was not given out before. -/
structure Descends (a b : Tables) : Prop where
  rows : ∀ row ∈ b.tickets, (∃ old ∈ a.tickets, ident old = ident row ∧
    (old.aging = true → row.aging = true)) ∨ a.next ≤ row.fifoSeq
  next : a.next ≤ b.next

theorem Keeps.descends {a b : Tables} (h : Keeps a b) : Descends a b :=
  ⟨fun row hrow => Or.inl (h.aging row hrow), h.next.ge⟩

theorem Descends.trans {a b c : Tables} (hab : Descends a b) (hbc : Descends b c) :
    Descends a c := by
  refine ⟨?_, hab.next.trans hbc.next⟩
  intro row hrow
  rcases hbc.rows row hrow with ⟨mid, hmid, hident, haging⟩ | hnew
  · have hfifo : mid.fifoSeq = row.fifoSeq := congrArg (fun entry => entry.2.1) hident
    rcases hab.rows mid hmid with ⟨old, hold, hident', haging'⟩ | hnew
    · exact Or.inl ⟨old, hold, hident'.trans hident, fun h => haging (haging' h)⟩
    · exact Or.inr (hfifo ▸ hnew)
  · exact Or.inr (hab.next.trans hnew)

theorem descends_insertTicket (key : String) (since : Int) (owner : Option String)
    (tables : Tables) : Descends tables (insertTicket key since owner tables) := by
  rcases insertTicket_cases key since owner tables with
    ⟨-, hhas⟩ | ⟨-, ⟨f, htickets⟩, hnext, -⟩
  · exact (keeps_insertTicket hhas since owner).descends
  · refine ⟨?_, hnext.le⟩
    intro row hrow
    rw [htickets] at hrow
    obtain ⟨old, hold, rfl⟩ := List.mem_map.mp hrow
    rcases List.mem_append.mp hold with hold | hold
    · exact Or.inl ⟨old, hold, rfl, id⟩
    · rw [List.mem_singleton.mp hold]
      exact Or.inr (Nat.le_refl tables.next)

theorem descends_settled (options : QueueOptions) (call : CheckCall) (tables : Tables) :
    Descends tables (settled options call tables) := by
  have hjudged := (keeps_stampReleased call tables).trans (keeps_judgeOwners options call _)
  have hqueued := hjudged.descends.trans (descends_insertTicket call.key call.now call.owner _)
  have hrefreshed := hqueued.trans (keeps_refresh call _).descends
  have hremoved := hrefreshed.trans (keeps_removeAbandoned call _).descends
  have hswept := hremoved.trans (keeps_passOverUnpolled options call _).descends
  exact hswept.trans (keeps_applyPriorities call _).descends

theorem descends_step (options : QueueOptions) (tables : Tables) (op : Op) :
    Descends tables (step options tables op).1 := by
  cases op with
  | check call =>
    have hsettled := descends_settled options call tables
    simp only [step, check]
    generalize observationChanged call (swept options call tables) = changed
    generalize settled options call tables = counting at hsettled
    rcases answer_cases options call changed counting tables with
      heq | ⟨ticket, -, ⟨-, heq⟩ | ⟨head, -, heq⟩⟩
    · rw [heq]
      exact (Keeps.refl tables).descends
    · rw [heq]
      dsimp only
      split
      · have hadmitted := hsettled.trans (keeps_admitTicket call counting).descends
        exact ⟨hadmitted.rows, hadmitted.next⟩
      · exact hsettled
    · rw [heq]
      exact hsettled
  | suspend key now => exact (keeps_suspend key now tables).descends
  | reconcile scope active eligible now =>
    exact (keeps_reconcile scope active eligible now tables).descends
  | cancel key => exact (keeps_cancel key tables).descends
  | helperInsert key since owner => exact descends_insertTicket key since owner tables

/-! ### Statements about other keys -/

/-- A ticket without its place in the view for older helpers. -/
def bare (row : Ticket) : Ticket := { row with seq := 0 }

def rowsOf (key : String) (tables : Tables) : List Ticket :=
  (tables.tickets.filter (·.key = key)).map bare

/-- Nothing about the key changes but its place in that view. -/
structure SameFor (key : String) (a b : Tables) : Prop where
  rows : rowsOf key b = rowsOf key a
  suspended : key ∈ b.suspended ↔ key ∈ a.suspended
  unpolled : key ∈ b.unpolled ↔ key ∈ a.unpolled
  stageAdmissions : key ∈ b.stageAdmissions ↔ key ∈ a.stageAdmissions

theorem SameFor.refl (key : String) (a : Tables) : SameFor key a a :=
  ⟨rfl, Iff.rfl, Iff.rfl, Iff.rfl⟩

theorem SameFor.trans {key : String} {a b c : Tables} (hab : SameFor key a b)
    (hbc : SameFor key b c) : SameFor key a c :=
  ⟨hbc.rows.trans hab.rows, hbc.suspended.trans hab.suspended, hbc.unpolled.trans hab.unpolled,
    hbc.stageAdmissions.trans hab.stageAdmissions⟩

/-- A fold over rows of other keys. -/
theorem SameFor.foldl {key : String} {f : Tables → Ticket → Tables} {rows : List Ticket}
    (hf : ∀ tables, ∀ row ∈ rows, SameFor key tables (f tables row)) (tables : Tables) :
    SameFor key tables (rows.foldl f tables) := by
  induction rows generalizing tables with
  | nil => exact SameFor.refl key tables
  | cons row rows ih =>
    exact (hf tables row List.mem_cons_self).trans
      (ih (fun tables row hrow => hf tables row (List.mem_cons_of_mem _ hrow)) (f tables row))

theorem mem_filter_ne {key other : String} {keys : List String} (h : key ≠ other) :
    key ∈ keys.filter (· ≠ other) ↔ key ∈ keys := by
  simp [h]

theorem mem_add {key other : String} {keys : List String} (h : key ≠ other) :
    key ∈ (if other ∈ keys then keys else keys ++ [other]) ↔ key ∈ keys := by
  split <;> simp [h]

theorem sameFor_updateWhere {key : String} {p : Ticket → Bool} {f : Ticket → Ticket}
    (tables : Tables) (hother : ∀ row, p row = true → row.key ≠ key)
    (hkey : ∀ row, (f row).key = row.key := by intro row; rfl) :
    SameFor key tables (updateWhere p f tables) := by
  refine ⟨?_, Iff.rfl, Iff.rfl, Iff.rfl⟩
  unfold rowsOf updateWhere
  dsimp only
  induction tables.tickets with
  | nil => rfl
  | cons row rows ih =>
    rw [List.map_cons, List.filter_cons, List.filter_cons]
    by_cases hp : p row = true
    · have hne := hother row hp
      simp only [hp, if_true, hkey, hne, decide_false, Bool.false_eq_true, if_false]
      exact ih
    · simp only [hp, if_false, Bool.false_eq_true]
      split
      · rw [List.map_cons, List.map_cons, ih]
      · exact ih

section Other

variable {key other : String} (h : key ≠ other) (tables : Tables)

include h

theorem sameFor_insertSuspended : SameFor key tables (insertSuspended other tables) :=
  ⟨rfl, mem_add h, mem_filter_ne h, Iff.rfl⟩

theorem sameFor_passOver : SameFor key tables (passOver other tables) :=
  (sameFor_insertSuspended h tables).trans ⟨rfl, Iff.rfl, mem_add h, Iff.rfl⟩

theorem sameFor_deleteStageAdmission : SameFor key tables (deleteStageAdmission other tables) :=
  ⟨rfl, Iff.rfl, Iff.rfl, mem_filter_ne h⟩

theorem sameFor_deleteSuspended : SameFor key tables (deleteSuspended other tables) := by
  unfold deleteSuspended
  split
  · have hfirst : SameFor key tables
        { tables with suspended := tables.suspended.filter (· ≠ other) } :=
      ⟨rfl, mem_filter_ne h, Iff.rfl, Iff.rfl⟩
    refine hfirst.trans (sameFor_updateWhere _ ?_)
    intro row hrow hkey
    simp only [Bool.and_eq_true, decide_eq_true_eq] at hrow
    exact h (hkey.symm.trans hrow.1)
  · exact SameFor.refl key tables

theorem sameFor_deleteTicket : SameFor key tables (deleteTicket other tables) := by
  unfold deleteTicket
  split
  · refine ⟨?_, mem_filter_ne h, mem_filter_ne h, Iff.rfl⟩
    unfold rowsOf
    rw [List.filter_filter]
    have hsame : ∀ row ∈ tables.tickets,
        (decide (row.key = key) && decide (row.key ≠ other)) = decide (row.key = key) := by
      intro row _
      by_cases hkey : row.key = key
      · simp [hkey, h]
      · simp [hkey]
    rw [List.filter_congr hsame]
  · exact SameFor.refl key tables

theorem sameFor_cancel : SameFor key tables (cancel other tables) :=
  ((sameFor_deleteStageAdmission h tables).trans (sameFor_deleteSuspended h _)).trans
    (sameFor_deleteTicket h _)

theorem sameFor_touch (now : Int) : SameFor key tables (touch other now tables) := by
  refine sameFor_updateWhere tables ?_
  intro row hrow hkey
  exact h (hkey.symm.trans (by simpa using hrow))

theorem sameFor_insertTicket (since : Int) (owner : Option String) :
    SameFor key tables (insertTicket other since owner tables) := by
  rcases insertTicket_cases other since owner tables with
    ⟨heq, -⟩ | ⟨-, ⟨f, htickets⟩, -, hsuspended, hunpolled, hstage⟩
  · rw [heq]
    have hfirst : SameFor key tables
        { tables with unpolled := tables.unpolled.filter (· ≠ other) } :=
      ⟨rfl, Iff.rfl, mem_filter_ne h, Iff.rfl⟩
    refine hfirst.trans (sameFor_updateWhere _ ?_)
    intro row hrow hkey
    exact h (hkey.symm.trans (by simpa using hrow))
  · refine ⟨?_, by rw [hsuspended], by rw [hunpolled]; exact mem_filter_ne h, by rw [hstage]⟩
    have hnew : decide ((newTicket other since owner tables.next).key = key) = false :=
      decide_eq_false (Ne.symm h)
    unfold rowsOf
    rw [htickets, List.filter_map, List.map_map]
    simp only [Function.comp_def, List.filter_append, List.filter_singleton, hnew]
    simp [bare]

theorem sameFor_refresh {call : CheckCall} (hcall : call.key = other) :
    SameFor key tables (refresh call tables) := by
  subst hcall
  have hreturned := (sameFor_deleteSuspended h tables).trans (sameFor_deleteStageAdmission h _)
  refine (hreturned.trans (sameFor_touch h _ call.touched)).trans (sameFor_updateWhere _ ?_)
  intro row hrow hkey
  exact h (hkey.symm.trans (by simpa using hrow))

end Other

/-! ### The ticket of a check -/

theorem has_iff_rowsOf {key : String} {tables : Tables} :
    Has key tables ↔ rowsOf key tables ≠ [] := by
  unfold Has rowsOf
  rw [Ne, List.map_eq_nil_iff, List.filter_eq_nil_iff]
  simp

theorem has_updateWhere {key : String} {p : Ticket → Bool} {f : Ticket → Ticket} (tables : Tables)
    (h : Has key tables) (hkey : ∀ row, (f row).key = row.key := by intro row; rfl) :
    Has key (updateWhere p f tables) := by
  obtain ⟨row, hrow, hrowkey⟩ := h
  refine ⟨if p row then f row else row, List.mem_map.mpr ⟨row, hrow, rfl⟩, ?_⟩
  split
  · exact (hkey row).trans hrowkey
  · exact hrowkey

/-- The ticket of the call's key as its own poll left it, in its place. -/
structure Own (call : CheckCall) (tables : Tables) : Prop where
  has : Has call.key tables
  polled : ∀ row ∈ rowsOf call.key tables, row.polled = some call.touched
  aging : ∀ row ∈ rowsOf call.key tables, row.aging = true
  suspended : call.key ∉ tables.suspended
  stageAdmissions : call.key ∉ tables.stageAdmissions

theorem SameFor.own {call : CheckCall} {a b : Tables} (h : SameFor call.key a b)
    (hown : Own call a) : Own call b := by
  refine ⟨?_, ?_, ?_, ?_, ?_⟩
  · rw [has_iff_rowsOf, h.rows, ← has_iff_rowsOf]
    exact hown.has
  · rw [h.rows]
    exact hown.polled
  · rw [h.rows]
    exact hown.aging
  · rw [h.suspended]
    exact hown.suspended
  · rw [h.stageAdmissions]
    exact hown.stageAdmissions

theorem own_refresh {call : CheckCall} {tables : Tables} (hhas : Has call.key tables)
    (hunpolled : call.key ∉ tables.unpolled) : Own call (refresh call tables) := by
  have hreturned : Has call.key (deleteSuspended call.key tables) ∧
      call.key ∉ (deleteSuspended call.key tables).suspended := by
    unfold deleteSuspended
    split
    · refine ⟨?_, ?_⟩
      · exact has_updateWhere { tables with suspended := _ } hhas
      · simp [updateWhere]
    · rename_i hkept
      simp only [releases, Bool.and_eq_true, not_and, List.contains_eq_mem, decide_eq_true_eq,
        Bool.not_eq_true', decide_eq_false_iff_not] at hkept
      exact ⟨hhas, fun hmem => hkept hmem hunpolled⟩
  have hrow : ∀ row ∈ rowsOf call.key (refresh call tables),
      row.polled = some call.touched ∧ row.aging = true := by
    intro row hrow
    obtain ⟨raw, hraw, rfl⟩ := List.mem_map.mp hrow
    obtain ⟨hraw, hkey⟩ := List.mem_filter.mp hraw
    obtain ⟨mid, hmid, rfl⟩ := List.mem_map.mp hraw
    obtain ⟨old, -, rfl⟩ := List.mem_map.mp hmid
    by_cases hold : old.key = call.key
    · simp [bare, hold]
    · simp [hold] at hkey
  refine ⟨?_, fun row h => (hrow row h).1, fun row h => (hrow row h).2, hreturned.2, ?_⟩
  · exact has_updateWhere _ (has_updateWhere (deleteStageAdmission call.key _) hreturned.1)
  · simp [refresh, updateWhere, touch, deleteStageAdmission]

theorem own_enqueue (call : CheckCall) (tables : Tables) : Own call (enqueue call tables) := by
  unfold enqueue
  rcases insertTicket_cases call.key call.now call.owner tables with
    ⟨heq, hhas⟩ | ⟨-, ⟨f, htickets⟩, -, -, hunpolled, -⟩
  · rw [heq]
    refine own_refresh ?_ (by simp [updateWhere])
    exact has_updateWhere { tables with unpolled := _ } hhas
  · refine own_refresh ?_ (by simp [hunpolled])
    refine ⟨{ newTicket call.key call.now call.owner tables.next with
      seq := f (newTicket call.key call.now call.owner tables.next) }, ?_, rfl⟩
    rw [htickets]
    exact List.mem_map.mpr ⟨_, List.mem_append_right _ (List.mem_singleton.mpr rfl), rfl⟩

/-- A ticket that its own call just polled is not quiet. -/
theorem Own.not_quiet {call : CheckCall} {tables : Tables} (h : Own call tables) {ms : Int}
    (hms : 0 ≤ ms) {row : Ticket} (hrow : row ∈ tables.tickets) (hquiet : quietFor call ms row) :
    row.key ≠ call.key := by
  intro hkey
  have hpolled : row.polled = some call.touched :=
    h.polled (bare row) (List.mem_map.mpr ⟨row, List.mem_filter.mpr ⟨hrow, by simpa using hkey⟩, rfl⟩)
  have hforward := call.forward
  simp only [quietFor, hpolled, Option.any_some, Bool.and_eq_true, decide_eq_true_eq] at hquiet
  omega

theorem Own.removeAbandoned {call : CheckCall} {tables : Tables} (h : Own call tables) :
    Own call (removeAbandoned call tables) := by
  apply SameFor.own (SameFor.foldl _ tables) h
  intro current row hrow
  obtain ⟨hrow, hquiet⟩ := List.mem_filter.mp hrow
  rw [Bool.and_eq_true] at hquiet
  exact sameFor_cancel (Ne.symm (h.not_quiet (by decide) hrow hquiet.1)) current

theorem Own.passOverUnpolled {call : CheckCall} {tables : Tables} (options : QueueOptions)
    (h : Own call tables) : Own call (passOverUnpolled options call tables) := by
  apply SameFor.own (SameFor.foldl _ tables) h
  intro current row hrow
  obtain ⟨hrow, hquiet⟩ := List.mem_filter.mp hrow
  rw [Bool.and_eq_true] at hquiet
  exact sameFor_passOver (Ne.symm (h.not_quiet options.unpolled_nonneg hrow hquiet.1)) current

theorem own_swept (options : QueueOptions) (call : CheckCall) (tables : Tables) :
    Own call (swept options call tables) :=
  (own_enqueue call _).removeAbandoned.passOverUnpolled options

end Delegatus.CpuAdmission
