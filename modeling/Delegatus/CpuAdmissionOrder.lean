import Delegatus.CpuAdmissionTables
import Delegatus.Ranks
import Delegatus.Runs
import Mathlib.Data.Prod.Lex

/-!
# One head per lane

A lane's waiting tickets are ordered by their class and then by queue number. In sound tables
that is a total order at every time (`oneHead_of_sound`), and the position that a check
reports is the place of its ticket in it, among the tickets the check does not pass
(`positionOf_eq_place`). Only the head is admitted, or a ticket whose every predecessor is a
low-pressure-only one that it passes at its bound (`one_head_per_lane`).
-/

namespace Delegatus.CpuAdmission

open Ranks Runs

/-! ### Priorities are applied row by row -/

theorem orderLegacy_map (tables : Tables) :
    ∃ seq : Ticket → Nat, orderLegacyTicketsByPriority tables =
      { tables with tickets := tables.tickets.map (fun row => { row with seq := seq row }) } := by
  unfold orderLegacyTicketsByPriority
  dsimp only
  split
  · exact ⟨(·.seq), by simp⟩
  · exact ⟨_, rfl⟩

/-- A rewriting of rows that changes nothing but the priority and the place in the old view. -/
theorem applyPriorities_map (call : CheckCall) (tables : Tables) :
    ∃ f : Ticket → Ticket, (applyPriorities call tables).tickets = tables.tickets.map f ∧
      (applyPriorities call tables).suspended = tables.suspended ∧
      (applyPriorities call tables).stageAdmissions = tables.stageAdmissions ∧
      (applyPriorities call tables).last = tables.last ∧
      ∀ row, bare (f row) = bare { row with priority := (f row).priority } ∧
        ((f row).priority = row.priority ∨ observedPriority call row = some (f row).priority) := by
  unfold applyPriorities
  split_ifs
  · exact ⟨id, by simp, rfl, rfl, rfl, fun row => ⟨rfl, Or.inl rfl⟩⟩
  · exact ⟨id, by simp, rfl, rfl, rfl, fun row => ⟨rfl, Or.inl rfl⟩⟩
  · obtain ⟨seq, hseq⟩ := orderLegacy_map
      (updateWhere (fun row => row.source.isSome && isWaiting tables row)
        (fun row => { row with priority := (observedPriority call row).getD row.priority }) tables)
    rw [hseq]
    refine ⟨_, List.map_map, rfl, rfl, rfl, ?_⟩
    intro row
    dsimp only [Function.comp]
    split
    · refine ⟨rfl, ?_⟩
      cases hobserved : observedPriority call row with
      | none => exact Or.inl rfl
      | some priority => exact Or.inr rfl
    · exact ⟨rfl, Or.inl rfl⟩

/-- The tickets of a lane that are neither suspended nor admitted. -/
def laneOf (tables : Tables) (owned : Bool) : List Ticket :=
  tables.tickets.filter (fun row => row.owner.isSome = owned && isWaiting tables row)

/-- What tickets are ordered by. -/
def queueKey (options : QueueOptions) (now : Int) (row : Ticket) : Int ×ₗ Nat :=
  toLex (agedClass options now row, row.fifoSeq)

/-- The tickets of its lane that a check does not pass. -/
def seenBy (options : QueueOptions) (call : CheckCall) (tables : Tables) (ticket : Ticket) :
    List Ticket :=
  (laneOf tables ticket.owner.isSome).filter
    (fun row => !passesLowPressure options call ticket || !row.lowPressure || row.key = call.key)

theorem agedClass_of_aging (options : QueueOptions) (call : CheckCall) {ticket : Ticket}
    (h : ticket.aging = true) :
    agedClass options call.now ticket = effectiveClass options call ticket := by
  unfold agedClass effectiveClass
  rw [if_pos h]

/-- The count of the statement is the place in the order. -/
theorem positionOf_eq_place (options : QueueOptions) (call : CheckCall) (tables : Tables)
    {ticket : Ticket} (haging : ticket.aging = true) :
    positionOf options call tables ticket =
      place (queueKey options call.now) (seenBy options call tables ticket) ticket := by
  unfold positionOf place seenBy laneOf
  rw [List.countP_filter, List.countP_filter]
  apply List.countP_congr
  intro row _
  have hkey : queueKey options call.now row ≤ queueKey options call.now ticket ↔
      agedClass options call.now row < effectiveClass options call ticket ∨
        agedClass options call.now row = effectiveClass options call ticket ∧
          row.fifoSeq ≤ ticket.fifoSeq := by
    unfold queueKey
    rw [Prod.Lex.toLex_le_toLex, agedClass_of_aging options call haging]
  unfold counted
  simp only [Bool.and_eq_true, Bool.or_eq_true, decide_eq_true_eq, hkey]
  tauto

/-! ### One head -/

/-- The waiters of a lane at a time: one of them is first, their places are those of one
    strict order, and of two waiters exactly one waits on the other. -/
structure OneHead (options : QueueOptions) (now : Int) (waiters : List Ticket) : Prop where
  first : waiters ≠ [] → ∃! head, head ∈ waiters ∧ place (queueKey options now) waiters head = 1
  ordered : ∀ a ∈ waiters, ∀ b ∈ waiters,
    (place (queueKey options now) waiters a < place (queueKey options now) waiters b ↔
      queueKey options now a < queueKey options now b)
  apart : ∀ a ∈ waiters, ∀ b ∈ waiters, a ≠ b →
    (queueKey options now a < queueKey options now b ↔
      ¬queueKey options now b < queueKey options now a)

theorem queueKey_inj {tables : Tables} (h : Sound tables) {options : QueueOptions} {now : Int}
    {a b : Ticket} (ha : a ∈ tables.tickets) (hb : b ∈ tables.tickets)
    (hkey : queueKey options now a = queueKey options now b) : a = b := by
  have hfifo : a.fifoSeq = b.fifoSeq := congrArg (fun key => (ofLex key).2) hkey
  exact List.inj_on_of_nodup_map h.fifos ha hb hfifo

theorem oneHead_of_sound {tables : Tables} (h : Sound tables) (options : QueueOptions) (now : Int)
    (owned : Bool) : OneHead options now (laneOf tables owned) := by
  have hkeys : ∀ a ∈ laneOf tables owned, ∀ b ∈ laneOf tables owned,
      queueKey options now a = queueKey options now b → a = b := by
    intro a ha b hb hkey
    exact queueKey_inj h (List.mem_of_mem_filter ha) (List.mem_of_mem_filter hb) hkey
  have hnodup : (laneOf tables owned).Nodup := h.keys.of_map.filter _
  refine ⟨existsUnique_first hnodup hkeys, fun a _ b hb => place_lt_iff hb, ?_⟩
  intro a ha b hb hne
  have hdistinct : queueKey options now a ≠ queueKey options now b := fun hkey =>
    hne (hkeys a ha b hb hkey)
  exact ⟨fun hlt => hlt.asymm, fun hle => lt_of_le_of_ne (not_lt.mp hle) hdistinct⟩

/-- The check's own ticket is in the tables its position is counted in, in its place. -/
theorem own_settled (options : QueueOptions) (call : CheckCall) (tables : Tables) :
    Own call (settled options call tables) := by
  have hswept := own_swept options call tables
  unfold settled
  generalize swept options call tables = before at hswept
  obtain ⟨f, htickets, hsuspended, hstage, -, hrow⟩ := applyPriorities_map call before
  have hback : ∀ row ∈ rowsOf call.key (applyPriorities call before),
      ∃ old ∈ rowsOf call.key before, old.polled = row.polled ∧ old.aging = row.aging := by
    intro row hmem
    obtain ⟨raw, hraw, rfl⟩ := List.mem_map.mp hmem
    obtain ⟨hraw, hkey⟩ := List.mem_filter.mp hraw
    rw [htickets] at hraw
    obtain ⟨old, hold, rfl⟩ := List.mem_map.mp hraw
    have hbare := (hrow old).1
    have hsame : (f old).key = old.key := congrArg (·.key) hbare
    refine ⟨bare old, List.mem_map.mpr ⟨old, List.mem_filter.mpr ⟨hold, hsame ▸ hkey⟩, rfl⟩, ?_, ?_⟩
    · exact (congrArg (·.polled) hbare).symm
    · exact (congrArg (·.aging) hbare).symm
  refine ⟨?_, ?_, ?_, ?_, ?_⟩
  · obtain ⟨old, hold, hkey⟩ := hswept.has
    have hsame : (f old).key = old.key := congrArg (·.key) (hrow old).1
    exact ⟨f old, htickets ▸ List.mem_map.mpr ⟨old, hold, rfl⟩, hsame.trans hkey⟩
  · intro row hmem
    obtain ⟨old, hold, hpolled, -⟩ := hback row hmem
    exact hpolled ▸ hswept.polled old hold
  · intro row hmem
    obtain ⟨old, hold, -, haging⟩ := hback row hmem
    exact haging ▸ hswept.aging old hold
  · rw [hsuspended]
    exact hswept.suspended
  · rw [hstage]
    exact hswept.stageAdmissions

/-- The ticket that a check finds under its key. -/
theorem Own.find {call : CheckCall} {tables : Tables} (h : Own call tables) :
    ∃ ticket, tables.tickets.find? (·.key = call.key) = some ticket ∧
      ticket ∈ tables.tickets ∧ ticket.key = call.key ∧ ticket.aging = true ∧
        ticket ∈ laneOf tables ticket.owner.isSome := by
  obtain ⟨row, hrow, hkey⟩ := h.has
  cases hfind : tables.tickets.find? (·.key = call.key) with
  | none =>
    have hnone := List.find?_eq_none.mp hfind row hrow
    simp [hkey] at hnone
  | some ticket =>
    have hmem := List.mem_of_find?_eq_some hfind
    have hticket : ticket.key = call.key := by simpa using List.find?_some hfind
    have haging := h.aging (bare ticket)
      (List.mem_map.mpr ⟨ticket, List.mem_filter.mpr ⟨hmem, by simpa using hticket⟩, rfl⟩)
    refine ⟨ticket, rfl, hmem, hticket, haging, List.mem_filter.mpr ⟨hmem, ?_⟩⟩
    simp [isWaiting, hticket, h.suspended, h.stageAdmissions]

theorem counted_self (options : QueueOptions) (call : CheckCall) {tables : Tables} {ticket : Ticket}
    (hkey : ticket.key = call.key) (haging : ticket.aging = true)
    (hwaiting : isWaiting tables ticket = true) :
    counted options call tables ticket ticket = true := by
  unfold counted
  rw [agedClass_of_aging options call haging, hwaiting]
  simp [hkey]

theorem headOf_isSome {options : QueueOptions} {call : CheckCall} {tables : Tables}
    {ticket : Ticket} (hmem : ticket ∈ tables.tickets)
    (hcounted : counted options call tables ticket ticket = true) :
    ∃ head, headOf options call tables ticket = some head := by
  have hself : ticket ∈ tables.tickets.filter (counted options call tables ticket) :=
    List.mem_filter.mpr ⟨hmem, hcounted⟩
  unfold headOf
  rw [← Option.isSome_iff_exists, List.isSome_head?]
  intro hnil
  have hperm := List.perm_insertionSort (fun a b =>
    agedClass options call.now a < agedClass options call.now b ∨
      (agedClass options call.now a = agedClass options call.now b ∧ a.fifoSeq ≤ b.fifoSeq))
    (tables.tickets.filter (counted options call tables ticket))
  rw [hnil] at hperm
  rw [← hperm.nil_eq] at hself
  cases hself

/-- A check never finds a row missing. -/
theorem answer_settled (options : QueueOptions) (call : CheckCall) (changed : Bool)
    {counting : Tables} (hown : Own call counting) (tables : Tables) :
    ∃ ticket ∈ counting.tickets, ticket.key = call.key ∧ ticket.aging = true ∧
      ticket ∈ laneOf counting ticket.owner.isSome ∧
      ((admits options call changed counting ticket = true ∧
          answer options call changed counting tables =
            (if call.consume then recordAdmission call counting else counting, .ready call.consume)) ∨
        ∃ head, admits options call changed counting ticket = false ∧
          answer options call changed counting tables =
            (counting, .wait (waitOf options call changed counting ticket head))) := by
  obtain ⟨ticket, hfind, hmem, hkey, haging, hlane⟩ := hown.find
  have hwaiting : isWaiting counting ticket = true := by
    have hfilter := (List.mem_filter.mp hlane).2
    rw [Bool.and_eq_true] at hfilter
    exact hfilter.2
  obtain ⟨head, hhead⟩ := headOf_isSome hmem (counted_self options call hkey haging hwaiting)
  refine ⟨ticket, hmem, hkey, haging, hlane, ?_⟩
  unfold answer
  rw [hfind]
  dsimp only
  rw [hhead]
  dsimp only
  split
  · rename_i hadmits
    exact Or.inl ⟨hadmits, rfl⟩
  · rename_i hadmits
    exact Or.inr ⟨head, by simpa using hadmits, rfl⟩

/-- What a check answers about its ticket, over the tables it counts in. -/
def Fits (options : QueueOptions) (call : CheckCall) (counting : Tables) (ticket : Ticket) :
    CheckReply → Prop
  | .threw => False
  | .wait wait =>
    wait.position =
      place (queueKey options call.now) (seenBy options call counting ticket) ticket
  | .ready _ => ∀ other ∈ laneOf counting ticket.owner.isSome,
      queueKey options call.now other < queueKey options call.now ticket →
        passesLowPressure options call ticket = true ∧ other.lowPressure = true

/-- A ticket that was admitted was before everybody it does not pass. -/
theorem before_of_admits {options : QueueOptions} {call : CheckCall} {changed : Bool}
    {counting : Tables} {ticket : Ticket} (hsound : Sound counting) (hkey : ticket.key = call.key)
    (haging : ticket.aging = true) (hlane : ticket ∈ laneOf counting ticket.owner.isSome)
    (h : admits options call changed counting ticket = true) {other : Ticket}
    (hother : other ∈ laneOf counting ticket.owner.isSome)
    (hbefore : queueKey options call.now other < queueKey options call.now ticket) :
    passesLowPressure options call ticket = true ∧ other.lowPressure = true := by
  have hposition : positionOf options call counting ticket = 1 := by
    simp only [admits, Bool.and_eq_true, decide_eq_true_eq] at h
    exact h.1.1.2
  rw [positionOf_eq_place options call counting haging] at hposition
  have hticket : ticket ∈ seenBy options call counting ticket :=
    List.mem_filter.mpr ⟨hlane, by simp [hkey]⟩
  have hkeys : ∀ a ∈ seenBy options call counting ticket,
      ∀ b ∈ seenBy options call counting ticket,
        queueKey options call.now a = queueKey options call.now b → a = b := by
    intro a ha b hb heq
    exact queueKey_inj hsound (List.mem_of_mem_filter (List.mem_of_mem_filter ha))
      (List.mem_of_mem_filter (List.mem_of_mem_filter hb)) heq
  have hnodup : (seenBy options call counting ticket).Nodup :=
    (hsound.keys.of_map.filter _).filter _
  have hleast := (place_eq_one_iff hnodup hkeys hticket).mp hposition
  have hpassed : other ∉ seenBy options call counting ticket := fun hmem =>
    hleast other hmem hbefore
  have hfilter : ¬(!passesLowPressure options call ticket || !other.lowPressure ||
      decide (other.key = call.key)) = true := fun hkeep =>
    hpassed (List.mem_filter.mpr ⟨hother, hkeep⟩)
  simp only [Bool.or_eq_true, Bool.not_eq_true', not_or, Bool.not_eq_false] at hfilter
  exact hfilter.1

theorem check_fits (options : QueueOptions) (call : CheckCall) {tables : Tables}
    (hsound : Sound tables) :
    ∃ ticket ∈ laneOf (settled options call tables) ticket.owner.isSome, ticket.key = call.key ∧
      Fits options call (settled options call tables) ticket (check options call tables).2 := by
  have hcounting := hsound.settled options call
  have hown := own_settled options call tables
  unfold check
  generalize observationChanged call (swept options call tables) = changed
  generalize settled options call tables = counting at hcounting hown
  obtain ⟨ticket, -, hkey, haging, hlane, ⟨hadmits, heq⟩ | ⟨head, -, heq⟩⟩ :=
    answer_settled options call changed hown tables
  · refine ⟨ticket, hlane, hkey, ?_⟩
    rw [heq]
    intro other hother hbefore
    exact before_of_admits hcounting hkey haging hlane hadmits hother hbefore
  · refine ⟨ticket, hlane, hkey, ?_⟩
    rw [heq]
    exact positionOf_eq_place options call counting haging

theorem sound_after (options : QueueOptions) (ops : List Op) :
    Sound (after (step options) newFile ops) :=
  after_invariant (fun _ op hsound => hsound.step options op) sound_newFile ops

/-- **A queue number names one ticket for ever**, and a ticket that enters later has a larger one. -/
theorem fifo_names_ticket (options : QueueOptions) (pre post : List Op) :
    let earlier := after (step options) newFile pre
    let later := after (step options) earlier post
    ((later.tickets.map (·.key)).Nodup ∧ (later.tickets.map (·.fifoSeq)).Nodup) ∧
      ∀ old ∈ earlier.tickets, ∀ row ∈ later.tickets,
        (old.fifoSeq = row.fifoSeq → ident old = ident row) ∧
          ((∀ other ∈ earlier.tickets, other.fifoSeq ≠ row.fifoSeq) → old.fifoSeq < row.fifoSeq) := by
  intro earlier later
  have hearlier : Sound earlier := sound_after options pre
  have hlater : Sound later := by
    have hsound := sound_after options (pre ++ post)
    rwa [Runs.after_append] at hsound
  have hdescends : Descends earlier later :=
    after_related (fun tables => (Keeps.refl tables).descends) (fun _ _ _ => Descends.trans)
      (descends_step options) earlier post
  refine ⟨⟨hlater.keys, hlater.fifos⟩, fun old hold row hrow => ?_⟩
  have hbelow := hearlier.below old hold
  rcases hdescends.rows row hrow with ⟨first, hfirst, hident, -⟩ | hnew
  · have hfifo : first.fifoSeq = row.fifoSeq := congrArg (fun entry => entry.2.1) hident
    refine ⟨fun hsame => ?_, fun hother => absurd hfifo (hother first hfirst)⟩
    rw [← hident, List.inj_on_of_nodup_map hearlier.fifos hold hfirst (hsame.trans hfifo.symm)]
  · exact ⟨fun hsame => absurd hsame (by omega), fun _ => by omega⟩

/-- In every file that calls lead to, at every time and in both lanes, one waiting ticket is
    first. A check reports the place of its ticket among those it does not pass, and admits it
    only when whoever is before it is a low-pressure-only ticket that it passes at its bound. -/
theorem one_head_per_lane (options : QueueOptions) (ops : List Op) :
    (∀ owned now, OneHead options now (laneOf (after (step options) newFile ops) owned)) ∧
    ∀ call,
      (∀ owned now, OneHead options now
        (laneOf (settled options call (after (step options) newFile ops)) owned)) ∧
      ∃ ticket ∈ laneOf (settled options call (after (step options) newFile ops))
          ticket.owner.isSome, ticket.key = call.key ∧
        Fits options call (settled options call (after (step options) newFile ops)) ticket
          (check options call (after (step options) newFile ops)).2 := by
  have hsound := sound_after options ops
  refine ⟨fun owned now => oneHead_of_sound hsound options now owned, ?_⟩
  intro call
  refine ⟨fun owned now => oneHead_of_sound (hsound.settled options call) options now owned, ?_⟩
  exact check_fits options call hsound

/-- A check of a key without a binding. -/
def checkAt (key : String) (owner : Option String) (requireLowPressure pressureAllows : Bool)
    (now : Int) : CheckCall :=
  { key, pressureAllows, owner, consume := true, source := none, requireLowPressure
    owners := fun _ => none, priorities := fun _ => none, sampledTickets := fun _ => none
    now, touched := now, forward := Int.le_refl now }

/-- A gate that needs low pressure queues before a start; a command is admitted when the start
    has reached its bound. -/
def gateBeforeStart : List Op :=
  [.check (checkAt "gate" none true false 0), .check (checkAt "start" none false false 1),
    .check (checkAt "gate" none true false 600000),
    .check (checkAt "command" (some "owner") false true 600000)]

set_option maxRecDepth 8000 in
/-- While the spacing holds both of them back, the gate and the start behind it are both told
    position 1. -/
theorem passing_start_reports_first :
    (step {} (after (step {}) newFile gateBeforeStart)
        (.check (checkAt "gate" none true false 600001))).2 =
      some (.wait { since := 0, position := 1, waitedMs := 600001, heldBy := .queue
                    priority := none, stalledMs := none }) ∧
    (step {} (after (step {}) newFile
          (gateBeforeStart ++ [.check (checkAt "gate" none true false 600001)]))
        (.check (checkAt "start" none false false 600001))).2 =
      some (.wait { since := 1, position := 1, waitedMs := 600000, heldBy := .queue
                    priority := none, stalledMs := none }) ∧
    (laneOf (settled {} (checkAt "start" none false false 600001) (after (step {}) newFile
        (gateBeforeStart ++ [.check (checkAt "gate" none true false 600001)]))) false).map
          (fun row => (row.key, place (queueKey {} 600001) (laneOf (settled {}
            (checkAt "start" none false false 600001) (after (step {}) newFile
              (gateBeforeStart ++ [.check (checkAt "gate" none true false 600001)]))) false) row)) =
      [("gate", 1), ("start", 2)] := by
  refine ⟨?_, ?_, ?_⟩ <;> decide

end Delegatus.CpuAdmission
