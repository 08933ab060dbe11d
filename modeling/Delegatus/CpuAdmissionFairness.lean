import Delegatus.CpuAdmissionOrder

/-!
# No overtaking of an aged ticket

A ticket keeps its queue number and the time it was queued at in every run
(`descends_after`). One that keeps being polled and is not suspended, cancelled or admitted
still has its place when another ticket's check counts (`place_swept`), so once its class is
0 only tickets with smaller numbers are before it (`aged_ticket_first`). Admissions are at
least the spacing apart whatever the calls are (`admissions_spaced`).
-/

namespace Delegatus.CpuAdmission

open Ranks Runs

/-! ### The place of a polled ticket -/

/-- The key's ticket is this one, and it waits. -/
structure Place (row : Ticket) (tables : Tables) : Prop where
  rows : rowsOf row.key tables = [bare row]
  suspended : row.key ∉ tables.suspended
  stageAdmissions : row.key ∉ tables.stageAdmissions

theorem SameFor.place {row : Ticket} {a b : Tables} (h : SameFor row.key a b)
    (hplace : Place row a) : Place row b :=
  ⟨h.rows.trans hplace.rows, fun hmem => hplace.suspended (h.suspended.mp hmem),
    fun hmem => hplace.stageAdmissions (h.stageAdmissions.mp hmem)⟩

theorem Place.eq {row other : Ticket} {tables : Tables} (h : Place row tables)
    (hother : other ∈ tables.tickets) (hkey : other.key = row.key) : bare other = bare row := by
  have hmem : bare other ∈ rowsOf row.key tables :=
    List.mem_map.mpr ⟨other, List.mem_filter.mpr ⟨hother, by simpa using hkey⟩, rfl⟩
  rw [h.rows, List.mem_singleton] at hmem
  exact hmem

theorem rowsOf_of_sound {tables : Tables} (h : Sound tables) {row : Ticket}
    (hrow : row ∈ tables.tickets) : rowsOf row.key tables = [bare row] := by
  have hfilter : tables.tickets.filter (·.key = row.key) = [row] := by
    have hsub : ∀ other ∈ tables.tickets.filter (·.key = row.key), other = row := by
      intro other hother
      obtain ⟨hmem, hkey⟩ := List.mem_filter.mp hother
      exact List.inj_on_of_nodup_map h.keys hmem hrow (by simpa using hkey)
    have hrep := List.eq_replicate_of_mem hsub
    have hnodup := (h.keys.of_map.filter (fun other => decide (other.key = row.key)))
    have hself : row ∈ tables.tickets.filter (·.key = row.key) :=
      List.mem_filter.mpr ⟨hrow, by simp⟩
    have hpos := List.length_pos_of_mem hself
    rw [hrep] at hnodup
    have hle := List.nodup_replicate.mp hnodup
    rw [hrep, show (tables.tickets.filter (·.key = row.key)).length = 1 by omega]
    rfl
  unfold rowsOf
  rw [hfilter]
  rfl

/-- The last sign of life of a ticket. -/
def lastPoll (call : CheckCall) (row : Ticket) : Int :=
  row.polled.getD (if row.owner = none then call.now else row.since)

/-- The ticket was polled within the bounds, and its owner is not seen dead. -/
structure KeepsPolled (options : QueueOptions) (call : CheckCall) (row : Ticket) : Prop where
  unpolled : call.now - lastPoll call row ≤ options.unpolledMs
  abandoned : call.now - lastPoll call row ≤ CPU_QUEUE_ABANDONED_MS
  owner : ∀ observed, row.owner.bind call.owners = some observed → observed.dead = false

theorem not_quiet_of_lastPoll {call : CheckCall} {row : Ticket} {ms : Int}
    (hms : call.now - lastPoll call row ≤ ms) :
    quietFor call ms row = false := by
  by_contra hquiet
  simp only [quietFor, Bool.not_eq_false, Bool.and_eq_true, decide_eq_true_eq] at hquiet
  obtain ⟨-, hpolled⟩ := hquiet
  rw [Option.any_eq_true] at hpolled
  obtain ⟨polled, hsome, hlt⟩ := hpolled
  rw [decide_eq_true_eq] at hlt
  simp only [lastPoll, hsome, Option.getD_some] at hms
  omega

theorem KeepsPolled.judgeOwner {options : QueueOptions} {call : CheckCall} {row : Ticket}
    (h : KeepsPolled options call row) (howned : row.owner.isSome = true) (tables : Tables) :
    judgeOwner options call tables row = tables := by
  have hquiet : row.polled.getD row.since = lastPoll call row := by
    have hne : row.owner ≠ none := by
      intro hnone
      rw [hnone] at howned
      cases howned
    unfold lastPoll
    rw [if_neg hne]
  unfold CpuAdmission.judgeOwner
  split
  · rfl
  · rename_i observed hobserved
    rw [h.owner observed hobserved, hquiet, if_neg (by simp)]
    have hunpolled := h.unpolled
    have habandoned := h.abandoned
    split
    · rfl
    · dsimp only
      rw [if_neg (by omega), if_neg]
      simp only [Bool.and_eq_true, decide_eq_true_eq, not_and]
      intro hcontra
      omega

/-- The row as `stampReleased` leaves it. -/
def stamped (call : CheckCall) (row : Ticket) : Ticket :=
  if row.owner = none && row.polled = none then { row with polled := some call.now } else row

theorem stamped_key (call : CheckCall) (row : Ticket) : (stamped call row).key = row.key := by
  unfold stamped
  split <;> rfl

theorem bare_stamped (call : CheckCall) (row : Ticket) :
    bare (stamped call row) = stamped call (bare row) := by
  unfold stamped
  by_cases hnone : (row.owner = none && row.polled = none) = true
  · rw [if_pos hnone, if_pos (show ((bare row).owner = none && (bare row).polled = none) = true
      from hnone)]
    rfl
  · rw [if_neg hnone, if_neg (show ¬((bare row).owner = none && (bare row).polled = none) = true
      from hnone)]

theorem lastPoll_stamped (call : CheckCall) (row : Ticket) :
    lastPoll call (stamped call row) = lastPoll call row := by
  unfold stamped
  split
  · rename_i hnone
    simp only [Bool.and_eq_true, decide_eq_true_eq] at hnone
    simp [lastPoll, hnone.1, hnone.2]
  · rfl

theorem KeepsPolled.stamped {options : QueueOptions} {call : CheckCall} {row : Ticket}
    (h : KeepsPolled options call row) : KeepsPolled options call (stamped call row) := by
  have howner : (CpuAdmission.stamped call row).owner = row.owner := by
    unfold CpuAdmission.stamped
    split <;> rfl
  refine ⟨?_, ?_, ?_⟩
  · rw [lastPoll_stamped]
    exact h.unpolled
  · rw [lastPoll_stamped]
    exact h.abandoned
  · rw [howner]
    exact h.owner

theorem KeepsPolled.of_bare {options : QueueOptions} {call : CheckCall} {a b : Ticket}
    (h : bare a = bare b) (hpolled : KeepsPolled options call b) : KeepsPolled options call a := by
  have howner : a.owner = b.owner := congrArg (·.owner) h
  have hlast : lastPoll call a = lastPoll call b := by
    have hsince : a.since = b.since := congrArg (·.since) h
    have hpoll : a.polled = b.polled := congrArg (·.polled) h
    unfold lastPoll
    rw [howner, hsince, hpoll]
  refine ⟨?_, ?_, ?_⟩
  · rw [hlast]
    exact hpolled.unpolled
  · rw [hlast]
    exact hpolled.abandoned
  · rw [howner]
    exact hpolled.owner

theorem bare_quietFor {call : CheckCall} {a b : Ticket} (h : bare a = bare b) (ms : Int) :
    quietFor call ms a = quietFor call ms b := by
  have howner : a.owner = b.owner := congrArg (·.owner) h
  have hpolled : a.polled = b.polled := congrArg (·.polled) h
  unfold quietFor
  rw [howner, hpolled]

/-- A fold over quiet tickets does not reach one that was polled. -/
theorem Place.foldl_quiet {call : CheckCall} {row : Ticket} {tables : Tables} {ms : Int}
    {p : Ticket → Bool} {f : Tables → Ticket → Tables}
    (hf : ∀ tables other, other.key ≠ row.key → SameFor row.key tables (f tables other))
    (h : Place row tables) (hms : call.now - lastPoll call row ≤ ms) :
    Place row ((tables.tickets.filter (fun other => quietFor call ms other && p other)).foldl f
      tables) := by
  apply SameFor.place (SameFor.foldl _ tables) h
  intro current other hother
  obtain ⟨hmem, hquiet⟩ := List.mem_filter.mp hother
  rw [Bool.and_eq_true] at hquiet
  apply hf
  intro hkey
  have hsame : quietFor call ms other = quietFor call ms row :=
    bare_quietFor (h.eq hmem hkey) ms
  rw [hquiet.1, not_quiet_of_lastPoll hms] at hsame
  cases hsame

theorem Place.stampReleased {call : CheckCall} {row : Ticket} {tables : Tables}
    (h : Place row tables) : Place (stamped call row) (stampReleased call tables) := by
  refine ⟨?_, ?_, ?_⟩
  · have hrows : rowsOf row.key (CpuAdmission.stampReleased call tables) =
        (rowsOf row.key tables).map (CpuAdmission.stamped call) := by
      unfold rowsOf CpuAdmission.stampReleased updateWhere
      rw [List.filter_map, List.map_map, List.map_map]
      have hkeys : (fun other : Ticket => decide (other.key = row.key)) ∘
          (fun other => if other.owner = none && other.polled = none then
            { other with polled := some call.now } else other) =
          fun other => decide (other.key = row.key) := by
        funext other
        dsimp only [Function.comp]
        split <;> rfl
      rw [hkeys]
      apply List.map_congr_left
      intro other _
      exact bare_stamped call other
    rw [stamped_key, hrows, h.rows, List.map_singleton, bare_stamped]
  · rw [stamped_key]
    exact h.suspended
  · rw [stamped_key]
    exact h.stageAdmissions

theorem Place.judgeOwners {options : QueueOptions} {call : CheckCall} {row : Ticket}
    {tables : Tables} (h : Place row tables) (hpolled : KeepsPolled options call row) :
    Place row (judgeOwners options call tables) := by
  apply SameFor.place (SameFor.foldl _ tables) h
  intro current other hother
  obtain ⟨hmem, howned⟩ := List.mem_filter.mp hother
  by_cases hkey : other.key = row.key
  · rw [(hpolled.of_bare (h.eq hmem hkey)).judgeOwner howned current]
    exact SameFor.refl _ current
  · unfold CpuAdmission.judgeOwner
    split
    · exact SameFor.refl _ current
    · split_ifs
      · exact sameFor_cancel (Ne.symm hkey) current
      · exact SameFor.refl _ current
      · dsimp only
        split_ifs
        · exact sameFor_cancel (Ne.symm hkey) current
        · exact sameFor_passOver (Ne.symm hkey) current
        · exact SameFor.refl _ current

theorem place_swept {options : QueueOptions} {call : CheckCall} {row : Ticket} {tables : Tables}
    (h : Place row tables) (hpolled : KeepsPolled options call row) (hother : row.key ≠ call.key) :
    Place (stamped call row) (swept options call tables) := by
  have hlast := hpolled.stamped
  have hne : (stamped call row).key ≠ call.key := by
    rw [stamped_key]
    exact hother
  have hreleased : Place (stamped call row) (stampReleased call tables) := h.stampReleased
  have hjudged := hreleased.judgeOwners hlast
  have hqueued := (sameFor_insertTicket hne _ call.now call.owner).place hjudged
  have hrefreshed := (sameFor_refresh hne _ rfl).place hqueued
  have hremoved : Place (stamped call row) (removeAbandoned call
      (enqueue call (judgeOwners options call (stampReleased call tables)))) :=
    Place.foldl_quiet (fun tables other hkey => sameFor_cancel (Ne.symm hkey) tables) hrefreshed
      hlast.abandoned
  exact Place.foldl_quiet (fun tables other hkey =>
    sameFor_passOver (Ne.symm hkey) tables) hremoved hlast.unpolled

theorem observedPriority_spec {call : CheckCall} {row : Ticket} {priority : Int}
    (h : observedPriority call row = some priority) :
    ∃ level, row.source.bind call.priorities = some level ∧ priority = rank level := by
  unfold observedPriority at h
  split at h
  · cases h
  · rename_i level hlevel
    dsimp only at h
    split at h
    · split at h
      · exact ⟨level, hlevel, (Option.some.inj h).symm⟩
      · cases h
    · split at h
      · exact ⟨level, hlevel, (Option.some.inj h).symm⟩
      · cases h

/-- The ticket in the tables that another ticket's check counts in: nothing but its priority
    may have changed, to what its binding was read as. -/
theorem place_settled {options : QueueOptions} {call : CheckCall} {row : Ticket} {tables : Tables}
    (h : Place row tables) (hpolled : KeepsPolled options call row) (hother : row.key ≠ call.key) :
    ∃ now ∈ laneOf (settled options call tables) row.owner.isSome, ident now = ident row ∧
      now.aging = row.aging ∧ now.lowPressure = row.lowPressure ∧
      (now.priority = row.priority ∨
        ∃ level, row.source.bind call.priorities = some level ∧ now.priority = rank level) := by
  have hplace := place_swept h hpolled hother
  unfold settled
  generalize swept options call tables = before at hplace
  obtain ⟨f, htickets, hsuspended, hstage, -, hrow⟩ := applyPriorities_map call before
  have hmem : bare (stamped call row) ∈ rowsOf (stamped call row).key before := by
    rw [hplace.rows]
    exact List.mem_singleton.mpr rfl
  obtain ⟨old, hold, hbare⟩ := List.mem_map.mp hmem
  obtain ⟨hold, hkey⟩ := List.mem_filter.mp hold
  rw [decide_eq_true_eq] at hkey
  have hnow := (hrow old).1
  have hsame : ident old = ident row ∧ old.aging = row.aging ∧ old.lowPressure = row.lowPressure ∧
      old.priority = row.priority ∧ old.source = row.source ∧ old.owner = row.owner := by
    have hstamped : ident (stamped call row) = ident row ∧ (stamped call row).aging = row.aging ∧
        (stamped call row).lowPressure = row.lowPressure ∧
        (stamped call row).priority = row.priority ∧ (stamped call row).source = row.source ∧
        (stamped call row).owner = row.owner := by
      unfold stamped
      split <;> exact ⟨rfl, rfl, rfl, rfl, rfl, rfl⟩
    exact ⟨(congrArg ident hbare).trans hstamped.1,
      (congrArg (·.aging) hbare).trans hstamped.2.1,
      (congrArg (·.lowPressure) hbare).trans hstamped.2.2.1,
      (congrArg (·.priority) hbare).trans hstamped.2.2.2.1,
      (congrArg (·.source) hbare).trans hstamped.2.2.2.2.1,
      (congrArg (·.owner) hbare).trans hstamped.2.2.2.2.2⟩
  obtain ⟨hident, haging, hlow, hpriority, hsource, howner⟩ := hsame
  refine ⟨f old, ?_, (congrArg ident hnow).trans hident, (congrArg (·.aging) hnow).trans haging,
    (congrArg (·.lowPressure) hnow).trans hlow, ?_⟩
  · have hfkey : (f old).key = (stamped call row).key := (congrArg (·.key) hnow).trans hkey
    have hfowner : (f old).owner = row.owner := (congrArg (·.owner) hnow).trans howner
    refine List.mem_filter.mpr ⟨htickets ▸ List.mem_map.mpr ⟨old, hold, rfl⟩, ?_⟩
    simp [isWaiting, hfkey, hfowner, hsuspended, hstage, hplace.suspended, hplace.stageAdmissions]
  · rcases (hrow old).2 with hkept | hobserved
    · exact Or.inl (hkept.trans hpriority)
    · obtain ⟨level, hlevel, heq⟩ := observedPriority_spec hobserved
      exact Or.inr ⟨level, hsource ▸ hlevel, heq⟩

/-! ### Runs -/

theorem descends_after (options : QueueOptions) (tables : Tables) (ops : List Op) :
    Descends tables (after (step options) tables ops) :=
  after_related (fun tables => (Keeps.refl tables).descends) (fun _ _ _ => Descends.trans)
    (fun tables op => descends_step options tables op) tables ops

/-- A ticket with the number of an earlier one is that ticket. -/
theorem Descends.same {a b : Tables} (h : Descends a b) (hsound : Sound a) {ticket row : Ticket}
    (hticket : ticket ∈ a.tickets) (hrow : row ∈ b.tickets) (hfifo : row.fifoSeq = ticket.fifoSeq) :
    ident row = ident ticket ∧ (ticket.aging = true → row.aging = true) := by
  rcases h.rows row hrow with ⟨old, hold, hident, haging⟩ | hnew
  · have hnumber : old.fifoSeq = row.fifoSeq := congrArg (fun entry => entry.2.1) hident
    have hsame : old = ticket :=
      List.inj_on_of_nodup_map hsound.fifos hold hticket (hnumber.trans hfifo)
    subst hsame
    exact ⟨hident.symm, haging⟩
  · have hbelow := hsound.below ticket hticket
    omega

/-- A check of a ticket that waits and is polled queues no other one. -/
theorem keeps_settled {options : QueueOptions} {call : CheckCall} {row : Ticket} {tables : Tables}
    (h : Place row tables) (hpolled : KeepsPolled options call row) (hkey : row.key = call.key) :
    Keeps tables (settled options call tables) := by
  have hreleased : Place (stamped call row) (stampReleased call tables) := h.stampReleased
  have hplace := hreleased.judgeOwners hpolled.stamped
  have hjudged := (keeps_stampReleased call tables).trans (keeps_judgeOwners options call _)
  have hhas : Has call.key (judgeOwners options call (stampReleased call tables)) := by
    rw [has_iff_rowsOf, ← hkey, ← stamped_key call row, hplace.rows]
    exact List.cons_ne_nil _ _
  have hqueued := hjudged.trans (keeps_insertTicket hhas call.now call.owner)
  have hrefreshed := hqueued.trans (keeps_refresh call _)
  have hremoved := hrefreshed.trans (keeps_removeAbandoned call _)
  have hswept := hremoved.trans (keeps_passOverUnpolled options call _)
  exact hswept.trans (keeps_applyPriorities call _)

/-- The ticket of a check with another number is a ticket of another key. -/
theorem key_ne_of_fifo_ne {options : QueueOptions} {call : CheckCall} {row other : Ticket}
    {tables : Tables} (hsound : Sound tables) (hrow : row ∈ tables.tickets)
    (h : Place row tables) (hpolled : KeepsPolled options call row)
    (hother : other ∈ (settled options call tables).tickets) (hkey : other.key = call.key)
    (hfifo : other.fifoSeq ≠ row.fifoSeq) : row.key ≠ call.key := by
  intro hsame
  obtain ⟨old, hold, hident, -⟩ := (keeps_settled h hpolled hsame).aging other hother
  have holdkey : old.key = row.key :=
    (congrArg (fun entry => entry.1) hident).trans (hkey.trans hsame.symm)
  have hold' : old = row := List.inj_on_of_nodup_map hsound.keys hold hrow holdkey
  exact hfifo (hold' ▸ (congrArg (fun entry => entry.2.1) hident).symm)

/-- `ticket` was in the file after `before` and its class was 0 at `time`. It is still there as
    `row` after `between`, when `call` is made: it waits, it kept being polled, and its task was
    not ranked lower since. -/
structure StillAged (options : QueueOptions) (before between : List Op) (call : CheckCall)
    (ticket row : Ticket) (time : Int) : Prop where
  ticket_mem : ticket ∈ (after (step options) newFile before).tickets
  aging : ticket.aging = true
  aged : agedClass options time ticket = 0
  clock : time ≤ call.now
  row_mem : row ∈ (after (step options) newFile (before ++ between)).tickets
  same : row.fifoSeq = ticket.fifoSeq
  waiting : isWaiting (after (step options) newFile (before ++ between)) row = true
  polled : KeepsPolled options call row
  ranked : row.priority ≤ ticket.priority
  observed : ∀ level, row.source.bind call.priorities = some level → rank level ≤ ticket.priority

theorem StillAged.place {options : QueueOptions} {before between : List Op} {call : CheckCall}
    {ticket row : Ticket} {time : Int} (h : StillAged options before between call ticket row time) :
    Place row (after (step options) newFile (before ++ between)) := by
  have hwaiting := h.waiting
  simp only [isWaiting, Bool.and_eq_true, decide_eq_true_eq] at hwaiting
  exact ⟨rowsOf_of_sound (sound_after options _) h.row_mem, hwaiting.1, hwaiting.2⟩

theorem agedClass_eq_zero {options : QueueOptions} {time now : Int} {ticket row : Ticket}
    (haging : ticket.aging = true) (haging' : row.aging = true) (hsince : row.since = ticket.since)
    (hpriority : row.priority ≤ ticket.priority) (hclock : time ≤ now)
    (h : agedClass options time ticket = 0) : agedClass options now row = 0 := by
  unfold agedClass at h ⊢
  rw [if_pos haging] at h
  rw [if_pos haging', hsince]
  have hwaited : waitedMs ticket.since time ≤ waitedMs ticket.since now := by
    unfold waitedMs
    omega
  have hage := Int.ediv_le_ediv options.maxWait_pos hwaited
  omega

/-! ### Nobody overtakes an aged ticket -/

/-- The class stays 0 through a rewriting of the priority to one that was not lower. -/
theorem StillAged.agedClass_now {options : QueueOptions} {before between : List Op}
    {call : CheckCall} {ticket row now : Ticket} {time : Int}
    (h : StillAged options before between call ticket row time)
    (hsince : now.since = row.since) (haging : now.aging = row.aging)
    (hpriority : now.priority = row.priority ∨
      ∃ level, row.source.bind call.priorities = some level ∧ now.priority = rank level) :
    agedClass options call.now now = 0 := by
  have hdescends := descends_after options (after (step options) newFile before) between
  rw [← after_append] at hdescends
  obtain ⟨hident, hkept⟩ :=
    hdescends.same (sound_after options before) h.ticket_mem h.row_mem h.same
  have hsame : row.since = ticket.since := congrArg (fun entry => entry.2.2.1) hident
  have hranked : now.priority ≤ ticket.priority := by
    rcases hpriority with heq | ⟨level, hlevel, heq⟩
    · rw [heq]
      exact h.ranked
    · rw [heq]
      exact h.observed level hlevel
  exact agedClass_eq_zero h.aging (haging.trans (hkept h.aging)) (hsince.trans hsame) hranked
    h.clock h.aged

/-- A check that is ready passed everybody before its ticket. -/
theorem passed_of_ready {options : QueueOptions} {call : CheckCall} {counting : Tables}
    {reply : CheckReply} {consumed : Bool}
    (h : ∃ ticket ∈ laneOf counting ticket.owner.isSome, ticket.key = call.key ∧
      Fits options call counting ticket reply) (hready : reply = .ready consumed) :
    ∃ ticket ∈ laneOf counting ticket.owner.isSome, ticket.key = call.key ∧
      ∀ other ∈ laneOf counting ticket.owner.isSome,
        queueKey options call.now other < queueKey options call.now ticket →
          passesLowPressure options call ticket = true ∧ other.lowPressure = true := by
  subst hready
  exact h

/-- A check is not ready while somebody before its ticket is not passed. -/
theorem not_ready_of_before {options : QueueOptions} {call : CheckCall} {tables : Tables}
    (hsound : Sound tables) {now other : Ticket}
    (hother : other ∈ (settled options call tables).tickets) (hkey : other.key = call.key)
    (hnow : now ∈ laneOf (settled options call tables) other.owner.isSome)
    (hbefore : queueKey options call.now now < queueKey options call.now other)
    (hpassed : ¬(passesLowPressure options call other = true ∧ now.lowPressure = true))
    (consumed : Bool) : (check options call tables).2 ≠ .ready consumed := by
  have hcounting := hsound.settled options call
  intro hready
  obtain ⟨own, hown, hownkey, hfirst⟩ := passed_of_ready (check_fits options call hsound) hready
  generalize settled options call tables = counting at hcounting hother hnow hown hfirst
  have hsame : own = other :=
    List.inj_on_of_nodup_map hcounting.keys (List.mem_of_mem_filter hown) hother
      (hownkey.trans hkey.symm)
  subst hsame
  exact hpassed (hfirst now hnow hbefore)

theorem StillAged.not_ready {options : QueueOptions} {before between : List Op}
    {call : CheckCall} {ticket row other : Ticket} {time : Int}
    (h : StillAged options before between call ticket row time)
    (hother : other ∈ laneOf (settled options call
      (after (step options) newFile (before ++ between))) row.owner.isSome)
    (hkey : other.key = call.key) (hlarger : row.fifoSeq < other.fifoSeq)
    (hbypass : ¬(passesLowPressure options call other = true ∧ row.lowPressure = true))
    (consumed : Bool) :
    (check options call (after (step options) newFile (before ++ between))).2 ≠
      .ready consumed := by
  have hsound := sound_after options (before ++ between)
  obtain ⟨hmem, hlane⟩ := List.mem_filter.mp hother
  rw [Bool.and_eq_true, decide_eq_true_eq] at hlane
  have hne : row.key ≠ call.key :=
    key_ne_of_fifo_ne hsound h.row_mem h.place h.polled hmem hkey hlarger.ne'
  obtain ⟨now, hnow, hident, haging, hlow, hpriority⟩ := place_settled h.place h.polled hne
  -- The ticket's class is still 0 where the other check counts, so it is before the other.
  have hsince : now.since = row.since := congrArg (fun entry => entry.2.2.1) hident
  have hfifo : now.fifoSeq = row.fifoSeq := congrArg (fun entry => entry.2.1) hident
  have hclass := h.agedClass_now hsince haging hpriority
  have hbefore : queueKey options call.now now < queueKey options call.now other := by
    unfold queueKey
    rw [Prod.Lex.toLex_lt_toLex, hclass, hfifo]
    have hnonneg : 0 ≤ agedClass options call.now other := le_max_left _ _
    rcases hnonneg.lt_or_eq with hlt | heq
    · exact Or.inl hlt
    · exact Or.inr ⟨heq, hlarger⟩
  rw [← hlane.1] at hnow
  rw [← hlow] at hbypass
  exact not_ready_of_before hsound hmem hkey hnow hbefore hbypass consumed

/-! ### Admissions are apart -/

theorem last_insertTicket (key : String) (since : Int) (owner : Option String) (tables : Tables) :
    (insertTicket key since owner tables).last = tables.last := by
  unfold insertTicket
  dsimp only
  split <;> rfl

theorem last_settled (options : QueueOptions) (call : CheckCall) (tables : Tables) :
    (settled options call tables).last = tables.last := by
  have hjudged := (keeps_stampReleased call tables).trans (keeps_judgeOwners options call _)
  have hremoved := (keeps_refresh call
    (insertTicket call.key call.now call.owner
      (judgeOwners options call (stampReleased call tables)))).trans (keeps_removeAbandoned call _)
  have hswept := hremoved.trans (keeps_passOverUnpolled options call _)
  have hsettled := hswept.trans (keeps_applyPriorities call _)
  exact hsettled.last.trans ((last_insertTicket _ _ _ _).trans hjudged.last)

/-- When a call admitted its ticket. -/
def admittedAt : Op → Option CheckReply → List Int
  | .check call, some (.ready true) => [call.now]
  | _, _ => []

/-- The times of the admissions of a run, in order. -/
def admissionTimes (options : QueueOptions) (tables : Tables) : List Op → List Int
  | [] => []
  | op :: ops =>
    admittedAt op (step options tables op).2 ++ admissionTimes options (step options tables op).1 ops

theorem last_check (options : QueueOptions) (call : CheckCall) (tables : Tables) :
    (admittedAt (.check call) (some (check options call tables).2) = [] ∧
      (check options call tables).1.last = tables.last) ∨
    ∃ now, admittedAt (.check call) (some (check options call tables).2) = [now] ∧
      (check options call tables).1.last = some now ∧
      ∀ last, tables.last = some last → last + options.spacingMs ≤ now := by
  have hlast := last_settled options call tables
  unfold check
  generalize observationChanged call (swept options call tables) = changed
  generalize settled options call tables = counting at hlast
  rcases answer_cases options call changed counting tables with
    heq | ⟨ticket, -, ⟨hadmits, heq⟩ | ⟨head, -, heq⟩⟩
  · rw [heq]
    exact Or.inl ⟨rfl, rfl⟩
  · rw [heq]
    cases hconsume : call.consume with
    | false =>
      exact Or.inl ⟨rfl, hlast⟩
    | true =>
      refine Or.inr ⟨call.now, rfl, rfl, ?_⟩
      intro last hsome
      have hspacing : spacing options call counting = 0 := by
        simp only [admits, Bool.and_eq_true, decide_eq_true_eq] at hadmits
        exact hadmits.1.2
      unfold spacing at hspacing
      rw [hlast, hsome] at hspacing
      dsimp only at hspacing
      omega
  · rw [heq]
    exact Or.inl ⟨rfl, hlast⟩

/-- A call admits nothing and leaves `last`, or the spacing has passed and it sets `last`. -/
theorem last_step (options : QueueOptions) (tables : Tables) (op : Op) :
    (admittedAt op (step options tables op).2 = [] ∧
      (step options tables op).1.last = tables.last) ∨
    ∃ now, admittedAt op (step options tables op).2 = [now] ∧
      (step options tables op).1.last = some now ∧
      ∀ last, tables.last = some last → last + options.spacingMs ≤ now := by
  cases op with
  | check call =>
    have hcheck := last_check options call tables
    simp only [step]
    exact hcheck
  | suspend key now => exact Or.inl ⟨rfl, (keeps_suspend key now tables).last⟩
  | reconcile scope active eligible now =>
    exact Or.inl ⟨rfl, (keeps_reconcile scope active eligible now tables).last⟩
  | cancel key => exact Or.inl ⟨rfl, (keeps_cancel key tables).last⟩
  | helperInsert key since owner => exact Or.inl ⟨rfl, last_insertTicket key since owner tables⟩

theorem admissionTimes_spaced (options : QueueOptions) (tables : Tables) (ops : List Op) :
    (∀ last, tables.last = some last →
      ∀ time ∈ admissionTimes options tables ops, last + options.spacingMs ≤ time) ∧
    (admissionTimes options tables ops).Pairwise (fun a b => a + options.spacingMs ≤ b) := by
  induction ops generalizing tables with
  | nil => simp [admissionTimes]
  | cons op ops ih =>
    obtain ⟨hlast, hpairs⟩ := ih (step options tables op).1
    unfold admissionTimes
    rcases last_step options tables op with ⟨hnone, hkept⟩ | ⟨now, hone, hset, hspaced⟩
    · rw [hnone, List.nil_append]
      exact ⟨fun last heq => hlast last (hkept.trans heq), hpairs⟩
    · rw [hone, List.singleton_append, List.pairwise_cons]
      refine ⟨?_, hlast now hset, hpairs⟩
      intro last heq time htime
      have hnow := hspaced last heq
      rcases List.mem_cons.mp htime with rfl | hlater
      · exact hnow
      · have hafter := hlast now hset time hlater
        have hspacing := options.spacing_nonneg
        omega

/-- Once a ticket's class is 0, no ticket of its lane with a larger number is admitted before
    it while it waits, is polled and is not ranked lower, but for one that passes it as a
    low-pressure-only ticket; and two admissions are at least the spacing apart. -/
theorem aged_ticket_first (options : QueueOptions) :
    (∀ (before between : List Op) (call : CheckCall) (ticket row : Ticket) (time : Int),
      StillAged options before between call ticket row time →
      ∀ other ∈ laneOf (settled options call
          (after (step options) newFile (before ++ between))) row.owner.isSome,
        other.key = call.key → row.fifoSeq < other.fifoSeq →
        ¬(passesLowPressure options call other = true ∧ row.lowPressure = true) →
        ∀ consumed, (step options (after (step options) newFile (before ++ between))
          (.check call)).2 ≠ some (.ready consumed)) ∧
    ∀ ops, (admissionTimes options newFile ops).Pairwise (fun a b => a + options.spacingMs ≤ b) := by
  refine ⟨?_, fun ops => (admissionTimes_spaced options newFile ops).2⟩
  intro before between call ticket row time h other hother hkey hlarger hbypass consumed hready
  exact h.not_ready hother hkey hlarger hbypass consumed (Option.some.inj hready)

/-- The `n`-th poll of a gate that needs low pressure. -/
def gatePoll (n : Nat) : Op :=
  .check { checkAt "gate" none true false (60000 * n) with
    source := some "task"
    priorities := fun _ => some .normal
    sampledTickets := fun _ => if n = 0 then none else
      some { seq := 1, fifoSeq := 1, key := "gate", since := 0, owner := none, priority := 1
             source := some "task", polled := some (60000 * (n - 1)), lowPressure := true
             aging := true } }

/-- The gate has waited the whole bound. -/
def agedGate : List Op := (List.range 11).map gatePoll

def gateRow : Ticket :=
  { seq := 1, fifoSeq := 1, key := "gate", since := 0, owner := none, priority := 1
    source := some "task", polled := some 600000, lowPressure := true, aging := true }

/-- The first check of an urgent start, where the gate's task reads as `level`. -/
def urgentStart (level : TaskPriority) : CheckCall :=
  { checkAt "start" none false true 600001 with
    source := some "urgent"
    priorities := fun binding => if binding = "task" then some level else some .high
    sampledTickets := fun key => if key = "gate" then some gateRow else none }

set_option maxRecDepth 8000 in
theorem stillAged_gate : StillAged {} agedGate [] (urgentStart .normal) gateRow gateRow 600000 :=
  { ticket_mem := by decide
    aging := rfl
    aged := by decide
    clock := by decide
    row_mem := by decide
    same := rfl
    waiting := by decide
    polled := ⟨by decide, by decide, by intro observed h; cases h⟩
    ranked := by decide
    observed := by
      intro level h
      have hnormal : (some TaskPriority.normal) = some level := h
      cases hnormal
      decide }

set_option maxRecDepth 8000 in
theorem aged_gate_first : ∀ consumed : Bool,
    (step {} (after (step {}) newFile (agedGate ++ [])) (.check (urgentStart .normal))).2 ≠
      some (.ready consumed) := by
  intro consumed
  refine (aged_ticket_first {}).1 agedGate [] (urgentStart .normal) gateRow gateRow 600000
    stillAged_gate
    { seq := 1, fifoSeq := 2, key := "start", since := 600001, owner := none, priority := 0
      source := some "urgent", polled := some 600001, lowPressure := false, aging := true }
    ?_ rfl (by decide) (by decide) consumed
  decide

set_option maxRecDepth 8000 in
/-- Where its task was lowered after the gate's class was 0, the start behind it is admitted
    while the gate still waits. -/
theorem lowered_gate_overtaken :
    (∃ row ∈ (after (step {}) newFile agedGate).tickets, row.key = "gate" ∧
      row.aging = true ∧ agedClass {} 600000 row = 0) ∧
    (step {} (after (step {}) newFile agedGate) (.check (urgentStart .low))).2 =
      some (.ready true) ∧
    (laneOf (settled {} (urgentStart .low) (after (step {}) newFile agedGate)) false).map
      (fun row => (row.key, row.fifoSeq)) = [("gate", 1), ("start", 2)] := by
  refine ⟨⟨gateRow, ?_⟩, ?_, ?_⟩ <;> decide

end Delegatus.CpuAdmission
