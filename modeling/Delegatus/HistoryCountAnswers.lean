import Delegatus.HistoryCountContent
import Mathlib.Tactic.Ring

/-!
# Cached counts answer for what was counted

`Answers` says which attempts and runs a cached answer is the count of, at which time, and until when.
The full query answers for the attempts and runs of the tables; an answer that is patched by a
projection, or moved to a later time, answers for what they have then.
-/

namespace Delegatus.History

open RowGroups SlidingWindows

/-- The entry of a role: a role without runs has one only while it counts. -/
def shown (runs counted : ℕ) : Option Int := if 0 < runs ∨ 0 < counted then some (counted : Int) else none

/-- The record shows these counts. -/
def Shows (runs : String → ℕ) (value : Entries String Int) (counted : String → ℕ) : Prop :=
  ∀ role, value.at? role = shown (runs role) (counted role)

structure Answers (cache : CountCache) (items : Multiset (String × Int)) (runs : String → ℕ) : Prop where
  value : Shows runs cache.value fun role => windowed COUNT_WINDOW_MS cache.at items role
  roles : Tallied cache.roles runs
  bounds : Bounds COUNT_WINDOW_MS cache.at cache.until_ items

theorem Shows.getD {runs counted : String → ℕ} {value : Entries String Int} (h : Shows runs value counted)
    (role : String) : (value.at? role).getD 0 = counted role := by
  rw [h role, shown]
  split
  · rfl
  · next hnone => simp [show counted role = 0 by omega]

theorem Tallied.getD {runs : String → ℕ} {roles : Entries String Int} (h : Tallied roles runs) (role : String) :
    (roles.at? role).getD 0 = runs role := by
  rw [h role]
  split
  · next hzero => simp [hzero]
  · rfl

/-! ### Signed changes of a record -/

theorem Shows.changeRole {runs counted : String → ℕ} {roles value : Entries String Int}
    (hroles : Tallied roles runs) (h : Shows runs value counted) {role : String} {amount : Int} {m : ℕ}
    (hm : (m : Int) = counted role + amount) :
    Shows runs (History.changeRole roles value (role, amount)) (Function.update counted role m) := by
  intro other
  unfold History.changeRole
  dsimp only
  rw [h.getD, Tallied.getD hroles, ← hm]
  by_cases hother : other = role
  · subst hother
    rw [Function.update_self]
    by_cases hkeep : (0 : Int) < m ∨ (runs other : Int) ≠ 0
    · rw [if_pos hkeep, Entries.at?_set, if_pos rfl, shown, if_pos (by omega)]
    · rw [if_neg hkeep, Entries.at?_delete, if_pos rfl, shown, if_neg (by omega)]
  · rw [Function.update_of_ne hother, ← h other]
    split
    · rw [Entries.at?_set, if_neg hother]
    · rw [Entries.at?_delete, if_neg hother]

/-- The runs and the record that shows counts among them. -/
def ShowsRuns (counted : String → ℕ) (held : Entries String Int × Entries String Int) (runs : String → ℕ) : Prop :=
  Tallied held.1 runs ∧ Shows runs held.2 counted

theorem ShowsRuns.changeRuns {runs counted : String → ℕ} {held : Entries String Int × Entries String Int}
    (h : ShowsRuns counted held runs) {role : String} {amount : Int} {m : ℕ}
    (hm : (m : Int) = runs role + amount) :
    ShowsRuns counted (History.changeRuns held (role, amount)) (Function.update runs role m) := by
  obtain ⟨hroles, hvalue⟩ := h
  unfold History.changeRuns
  dsimp only
  rw [Tallied.getD hroles, ← hm, hvalue.getD, hvalue role]
  constructor
  · intro other
    by_cases hother : other = role
    · subst hother
      rw [Function.update_self]
      by_cases hpos : (0 : Int) < m
      · rw [if_pos hpos]
        dsimp only
        rw [Entries.at?_set, if_pos rfl, if_neg (by omega)]
      · rw [if_neg hpos]
        dsimp only
        rw [Entries.at?_delete, if_pos rfl, if_pos (by omega)]
    · rw [Function.update_of_ne hother, ← hroles other]
      split
      · rw [Entries.at?_set, if_neg hother]
      · rw [Entries.at?_delete, if_neg hother]
  · intro other
    by_cases hother : other = role
    · subst hother
      rw [Function.update_self]
      by_cases hpos : (0 : Int) < m
      · rw [if_pos hpos]
        dsimp only
        by_cases hshown : 0 < runs other ∨ 0 < counted other
        · rw [shown, if_pos hshown, Option.isNone_some, if_neg (by simp), hvalue other, shown, if_pos hshown,
            shown, if_pos (by omega)]
        · rw [shown, if_neg hshown, Option.isNone_none, if_pos rfl, Entries.at?_set, if_pos rfl, shown,
            if_pos (by omega)]
          simp [show counted other = 0 by omega]
      · rw [if_neg hpos]
        dsimp only
        by_cases hzero : (counted other : Int) ≤ 0
        · rw [if_pos hzero, Entries.at?_delete, if_pos rfl, shown, if_neg (by omega)]
        · rw [if_neg hzero, hvalue other, shown, if_pos (by omega), shown, if_pos (by omega)]
    · rw [Function.update_of_ne hother, ← hvalue other]
      split
      · dsimp only
        split
        · rw [Entries.at?_set, if_neg hother]
        · rfl
      · dsimp only
        split
        · rw [Entries.at?_delete, if_neg hother]
        · rfl

/-! ### Differences -/

theorem countUp_at? (delta : Entries String Int) (roles : List String) (amount : Int) (role : String) :
    (countUp delta roles amount).at? role =
      if role ∈ roles then some ((delta.at? role).getD 0 + amount * roles.count role) else delta.at? role := by
  unfold countUp
  induction roles generalizing delta with
  | nil => rfl
  | cons first rest ih =>
    rw [List.foldl_cons, ih, Entries.at?_set]
    by_cases hfirst : role = first
    · subst hfirst
      rw [if_pos rfl, if_pos List.mem_cons_self, List.count_cons_self]
      by_cases hrest : role ∈ rest
      · rw [if_pos hrest, Option.getD_some]
        congr 1
        push_cast
        ring
      · rw [if_neg hrest, List.count_eq_zero_of_not_mem hrest]
        simp
    · rw [if_neg hfirst, List.count_cons_of_ne (Ne.symm hfirst)]
      by_cases hrest : role ∈ rest
      · rw [if_pos hrest, if_pos (List.mem_cons_of_mem _ hrest)]
      · rw [if_neg hrest, if_neg]
        intro hmem
        rcases List.mem_cons.mp hmem with hsame | hmem
        · exact hfirst hsame
        · exact hrest hmem

/-- The old roles counted down and the new ones counted up. -/
def difference (old new : List String) : Entries String Int := countUp (countUp Table.empty old (-1)) new 1

theorem difference_getD (old new : List String) (role : String) :
    ((difference old new).at? role).getD 0 = (new.count role : Int) - old.count role := by
  have hold : ((countUp Table.empty old (-1)).at? role).getD 0 = -(old.count role : Int) := by
    rw [countUp_at?, Entries.at?_empty]
    by_cases hmem : role ∈ old
    · rw [if_pos hmem]
      simp
    · rw [if_neg hmem, List.count_eq_zero_of_not_mem hmem]
      rfl
  unfold difference
  rw [countUp_at?]
  by_cases hmem : role ∈ new
  · rw [if_pos hmem, hold, Option.getD_some]
    ring
  · rw [if_neg hmem, hold, List.count_eq_zero_of_not_mem hmem]
    simp

/-- The rows of a record have one change for each role. -/
theorem sum_rows (f : Int → Int) (hf : f 0 = 0) (changes : Entries String Int) (role : String) :
    (changes.rows.map fun c => if c.1 = role then f c.2 else 0).sum = f ((changes.at? role).getD 0) := by
  cases hat : changes.at? role with
  | some amount => exact sum_of_nodup f changes.nodup (Entries.at?_eq_some.mp hat)
  | none =>
    rw [Option.getD_none, hf]
    apply List.sum_eq_zero
    intro amount hamount
    obtain ⟨⟨key, value⟩, hrow, rfl⟩ := List.mem_map.mp hamount
    rw [if_neg]
    intro hsame
    obtain rfl : key = role := hsame
    exact Entries.at?_eq_none.mp hat value hrow

theorem total_difference (old new : List String) (role : String) :
    total (difference old new).rows role = (new.count role : Int) - old.count role := by
  rw [← difference_getD]
  exact sum_rows id rfl _ role

theorem taken_difference (old new : List String) (role : String) :
    taken (difference old new).rows role = max 0 ((old.count role : Int) - new.count role) := by
  have hsum := sum_rows (fun d => max 0 (-d)) rfl (difference old new) role
  rw [difference_getD, neg_sub] at hsum
  exact hsum

/-! ### Bounds -/

theorem minTime_below {until_ : Option Int} {bound : Int} (h : ∃ time, until_ = some time ∧ time ≤ bound) (time : Int) :
    ∃ least, minTime until_ time = some least ∧ least ≤ bound := by
  obtain ⟨held, rfl, hheld⟩ := h
  exact ⟨min held time, rfl, (min_le_left _ _).trans hheld⟩

theorem minTime_le (until_ : Option Int) (time : Int) : ∃ least, minTime until_ time = some least ∧ least ≤ time := by
  cases until_ with
  | none => exact ⟨time, rfl, le_refl _⟩
  | some held => exact ⟨min held time, rfl, min_le_right _ _⟩

theorem boundUntil_below {until_ : Option Int} {bound : Int} (h : ∃ time, until_ = some time ∧ time ≤ bound)
    (now time : Int) : ∃ least, boundUntil now until_ time = some least ∧ least ≤ bound := by
  unfold boundUntil
  split
  · exact minTime_below h time
  split
  · exact minTime_below h _
  · exact h

theorem bounds_boundUntil {now : Int} {until_ : Option Int} {items : Multiset (String × Int)}
    (h : Bounds COUNT_WINDOW_MS now until_ items) (added : List (String × Int)) :
    Bounds COUNT_WINDOW_MS now (added.foldl (fun until_ attempt => boundUntil now until_ attempt.2) until_)
      (items + (added : Multiset (String × Int))) := by
  induction added generalizing until_ items with
  | nil =>
    rw [Multiset.coe_nil, add_zero]
    exact h
  | cons first rest ih =>
    have hfirst : Bounds COUNT_WINDOW_MS now (boundUntil now until_ first.2) (items + {first}) := by
      intro item hitem
      rcases Multiset.mem_add.mp hitem with hold | hnew
      · obtain ⟨hfuture, hinside⟩ := h item hold
        exact ⟨fun hahead => boundUntil_below (hfuture hahead) now first.2,
          fun hin => boundUntil_below (hinside hin) now first.2⟩
      · obtain rfl := Multiset.mem_singleton.mp hnew
        constructor
        · intro hahead
          unfold boundUntil
          rw [if_pos hahead]
          exact minTime_le until_ item.2
        · intro hin
          rw [inside_iff] at hin
          unfold boundUntil
          rw [if_neg (by omega), if_pos hin.2]
          exact minTime_le until_ _
    have hrest := ih hfirst
    rw [add_assoc, Multiset.singleton_add, Multiset.cons_coe] at hrest
    exact hrest

theorem bounds_mono {now : Int} {until_ : Option Int} {items more : Multiset (String × Int)}
    (h : Bounds COUNT_WINDOW_MS now until_ more) (hle : items ≤ more) : Bounds COUNT_WINDOW_MS now until_ items :=
  fun item hitem => h item (Multiset.mem_of_le hle hitem)

/-! ### The patch -/

theorem windowed_coe (now : Int) (attempts : List (String × Int)) (role : String) :
    windowed COUNT_WINDOW_MS now (attempts : Multiset (String × Int)) role =
      ((attempts.filter fun attempt => member now attempt.2).map Prod.fst).count role := by
  unfold windowed
  rw [Multiset.coe_countP, List.count, List.countP_map, List.countP_filter]
  apply List.countP_congr
  intro attempt _
  simp [inside, member]

variable (dateParse : String → Option Int)

/-- **A patched answer** answers for what its attempts and runs became. -/
theorem Answers.patch {cache : CountCache} {items items' : Multiset (String × Int)} {runs runs' : String → ℕ}
    (h : Answers cache items runs) (stamp : CountStamp) (ownsOld ownsNew : Bool) (update : CountUpdate)
    (hitems : items' + (if ownsOld then dated dateParse update.oldSignature.attempts else [] : List _) =
      items + (if ownsNew then dated dateParse update.newSignature.attempts else [] : List _))
    (hruns : ∀ role, runs' role + (if ownsOld then update.oldSignature.roles else []).count role =
      runs role + (if ownsNew then update.newSignature.roles else []).count role) :
    Answers (patchCache dateParse stamp ownsOld ownsNew update cache) items' runs' := by
  unfold patchCache
  generalize (if ownsOld then dated dateParse update.oldSignature.attempts else []) = old at hitems ⊢
  generalize (if ownsNew then dated dateParse update.newSignature.attempts else []) = new at hitems ⊢
  generalize (if ownsOld then update.oldSignature.roles else []) = oldRoles at hruns ⊢
  generalize (if ownsNew then update.newSignature.roles else []) = newRoles at hruns ⊢
  have hwindowed : ∀ role, windowed COUNT_WINDOW_MS cache.at items' role +
        ((old.filter fun attempt => member cache.at attempt.2).map Prod.fst).count role =
      windowed COUNT_WINDOW_MS cache.at items role +
        ((new.filter fun attempt => member cache.at attempt.2).map Prod.fst).count role := by
    intro role
    rw [← windowed_coe, ← windowed_coe, ← windowed_add, hitems, windowed_add]
  have hvalue := @fold_counts String _ (Entries String Int) (changeRole cache.roles) (Shows runs)
    (fun value counted m role amount hshows hm => hshows.changeRole h.roles hm)
    (difference ((old.filter fun attempt => member cache.at attempt.2).map Prod.fst)
      ((new.filter fun attempt => member cache.at attempt.2).map Prod.fst)).rows cache.value _
    (windowed COUNT_WINDOW_MS cache.at items') h.value (by
      intro role
      have hrole := hwindowed role
      rw [total_difference]
      omega) (by
      intro role
      have hrole := hwindowed role
      rw [taken_difference]
      omega)
  have hheld := @fold_counts String _ (Entries String Int × Entries String Int) changeRuns
    (ShowsRuns (windowed COUNT_WINDOW_MS cache.at items'))
    (fun held runs m role amount hshows hm => hshows.changeRuns hm)
    (difference oldRoles newRoles).rows (cache.roles, _) _ runs' ⟨h.roles, hvalue⟩ (by
      intro role
      have hrole := hruns role
      rw [total_difference]
      omega) (by
      intro role
      have hrole := hruns role
      rw [taken_difference]
      omega)
  refine ⟨hheld.2, hheld.1, ?_⟩
  apply bounds_mono (bounds_boundUntil h.bounds new)
  rw [← hitems]
  exact Multiset.le_add_right _ _

/-! ### The full query -/

/-- The attempts and the runs of a role that the tables hold for some projects. -/
def itemsOf (db : Db) (projects : List String) : Multiset (String × Int) := (projects.map (datedOf db)).sum

def runsOf (db : Db) (projects : List String) (role : String) : ℕ :=
  (projects.map fun project => tally db (project, role)).sum

/-- The rows of the role counters that a query selects. -/
def selectedRoles (db : Db) (projects : List String) : List ((String × String) × Int) :=
  db.countRoles.rows.filter fun row => row.1.1 ∈ projects

theorem mem_selectedRoles {db : Db} (h : Tallied db.countRoles (tally db)) {projects : List String}
    {row : (String × String) × Int} :
    row ∈ selectedRoles db projects ↔ row.1.1 ∈ projects ∧ tally db row.1 ≠ 0 ∧ row.2 = tally db row.1 := by
  obtain ⟨key, amount⟩ := row
  have hrow : (key, amount) ∈ db.countRoles.rows ↔ tally db key ≠ 0 ∧ amount = tally db key := by
    rw [← Entries.at?_eq_some, h key]
    split
    · next hzero => simp [hzero]
    · next hzero => simp [hzero, eq_comm]
  rw [selectedRoles, List.mem_filter, hrow, decide_eq_true_eq]
  exact ⟨fun hboth => ⟨hboth.2, hboth.1⟩, fun hboth => ⟨hboth.2, hboth.1⟩⟩

theorem role_selected {db : Db} (h : Tallied db.countRoles (tally db)) {projects : List String} {role : String} :
    role ∈ (selectedRoles db projects).map (fun row => row.1.2) ↔ 0 < runsOf db projects role := by
  rw [List.mem_map]
  constructor
  · rintro ⟨row, hrow, rfl⟩
    obtain ⟨hproject, hsome, -⟩ := (mem_selectedRoles h).mp hrow
    have hle := List.le_sum_of_mem (List.mem_map_of_mem hproject (f := fun project => tally db (project, row.1.2)))
    exact lt_of_lt_of_le (Nat.pos_of_ne_zero hsome) hle
  · intro hpos
    obtain ⟨count, hcount, hne⟩ : ∃ count ∈ projects.map fun project => tally db (project, role), count ≠ 0 := by
      by_contra hall
      push Not at hall
      exact absurd (List.sum_eq_zero hall) (Nat.ne_of_gt hpos)
    obtain ⟨project, hproject, rfl⟩ := List.mem_map.mp hcount
    exact ⟨((project, role), (tally db (project, role) : Int)), (mem_selectedRoles h).mpr ⟨hproject, hne, rfl⟩, rfl⟩

/-- The counters of the selected rows add up to the runs of the projects. -/
theorem sum_selectedRoles {db : Db} (h : Tallied db.countRoles (tally db)) {projects : List String}
    (hnodup : projects.Nodup) (role : String) :
    ((selectedRoles db projects).map fun row => if row.1.2 = role then row.2 else 0).sum =
      (runsOf db projects role : Int) := by
  have hfilter : ((selectedRoles db projects).map fun row => if row.1.2 = role then row.2 else 0).sum =
      (db.countRoles.rows.map fun row => if row.1.1 ∈ projects ∧ row.1.2 = role then row.2 else 0).sum := by
    unfold selectedRoles
    induction db.countRoles.rows with
    | nil => rfl
    | cons row rest ih =>
      rw [List.map_cons, List.sum_cons, ← ih]
      by_cases hmem : row.1.1 ∈ projects
      · rw [List.filter_cons_of_pos (by simpa using hmem), List.map_cons, List.sum_cons]
        simp [hmem]
      · rw [List.filter_cons_of_neg (by simpa using hmem)]
        simp [hmem]
  rw [hfilter]
  clear hfilter
  unfold runsOf
  induction projects with
  | nil =>
    simp
  | cons project rest ih =>
    obtain ⟨hfresh, hrest⟩ := List.nodup_cons.mp hnodup
    have hsplit : ∀ row ∈ db.countRoles.rows,
        (if row.1.1 ∈ project :: rest ∧ row.1.2 = role then row.2 else 0) =
          (if row.1 = (project, role) then row.2 else 0) +
            if row.1.1 ∈ rest ∧ row.1.2 = role then row.2 else 0 := by
      rintro ⟨⟨owner, name⟩, amount⟩ _
      dsimp only
      by_cases howner : owner = project
      · subst howner
        by_cases hname : name = role
        · simp [hname, hfresh]
        · simp [hname]
      · by_cases hname : name = role
        · simp [hname, howner]
        · simp [hname]
    have hown : (db.countRoles.rows.map fun row => if row.1 = (project, role) then row.2 else 0).sum =
        (tally db (project, role) : Int) := by
      have hat := h (project, role)
      cases hcase : db.countRoles.at? (project, role) with
      | some amount =>
        have hsum := sum_of_nodup id db.countRoles.nodup (Entries.at?_eq_some.mp hcase)
        rw [hcase] at hat
        refine hsum.trans ?_
        split at hat
        · contradiction
        · exact Option.some.inj hat
      | none =>
        rw [hcase] at hat
        split at hat
        · next hzero =>
          rw [hzero]
          apply List.sum_eq_zero
          intro amount hamount
          obtain ⟨⟨key, value⟩, hrow, rfl⟩ := List.mem_map.mp hamount
          rw [if_neg]
          intro hsame
          obtain rfl : key = (project, role) := hsame
          exact Entries.at?_eq_none.mp hcase value hrow
        · contradiction
    rw [List.map_congr_left hsplit, List.sum_map_add, hown, ih hrest, List.map_cons, List.sum_cons]
    push_cast
    rfl

theorem setZeros_at? (rows : List ((String × String) × Int)) (start : Entries String Int) (role : String) :
    (rows.foldl (fun value row => value.set (row.1.2, 0)) start : Entries String Int).at? role =
      if role ∈ rows.map (fun row => row.1.2) then some 0 else start.at? role := by
  induction rows generalizing start with
  | nil => rfl
  | cons row rest ih =>
    rw [List.foldl_cons, ih, Entries.at?_set, List.map_cons]
    by_cases hrow : role = row.1.2
    · rw [if_pos hrow, if_pos (List.mem_cons.mpr (Or.inl hrow)), ite_self]
    · simp only [hrow, if_false, List.mem_cons, false_or]

theorem addRuns_at? (rows : List ((String × String) × Int)) (start : Entries String Int) (role : String) :
    (rows.foldl (fun roles row => roles.set (row.1.2, (roles.at? row.1.2).getD 0 + row.2)) start :
        Entries String Int).at? role =
      if role ∈ rows.map (fun row => row.1.2) then
        some ((start.at? role).getD 0 + (rows.map fun row => if row.1.2 = role then row.2 else 0).sum)
      else start.at? role := by
  induction rows generalizing start with
  | nil => rfl
  | cons row rest ih =>
    rw [List.foldl_cons, ih, Entries.at?_set, List.map_cons, List.map_cons, List.sum_cons]
    by_cases hrow : role = row.1.2
    · rw [if_pos hrow, if_pos hrow.symm, if_pos (List.mem_cons.mpr (Or.inl hrow))]
      split
      · rw [Option.getD_some, hrow, add_assoc]
      · next hnone =>
        have hzero : (rest.map fun row => if row.1.2 = role then row.2 else 0).sum = 0 := by
          apply List.sum_eq_zero
          intro amount hamount
          obtain ⟨other, hother, rfl⟩ := List.mem_map.mp hamount
          exact if_neg fun hsame => hnone (List.mem_map.mpr ⟨other, hother, hsame⟩)
        rw [hzero, add_zero, hrow]
    · rw [if_neg hrow, if_neg (Ne.symm hrow), zero_add]
      simp only [List.mem_cons, hrow, false_or]

theorem countWindow_at? (attempts : List (String × Int)) (now : Int) (value : Entries String Int) (role : String) :
    (countWindow attempts now value).at? role =
      if 0 < windowed COUNT_WINDOW_MS now (attempts : Multiset (String × Int)) role then
        some ((value.at? role).getD 0 + windowed COUNT_WINDOW_MS now (attempts : Multiset (String × Int)) role)
      else value.at? role := by
  unfold countWindow
  dsimp only
  rw [windowed_coe]
  generalize (attempts.filter fun attempt => member now attempt.2).map Prod.fst = roles
  have hfold : ∀ (names : List String) (start : Entries String Int), names.Nodup →
      (names.foldl (fun value role => value.set (role, (value.at? role).getD 0 + roles.count role)) start :
          Entries String Int).at? role =
        if role ∈ names then some ((start.at? role).getD 0 + roles.count role) else start.at? role := by
    intro names
    induction names with
    | nil => exact fun start _ => rfl
    | cons first rest ih =>
      intro start hnodup
      obtain ⟨hfresh, hrest⟩ := List.nodup_cons.mp hnodup
      rw [List.foldl_cons, ih _ hrest, Entries.at?_set]
      by_cases hfirst : role = first
      · subst hfirst
        rw [if_neg hfresh, if_pos rfl, if_pos List.mem_cons_self]
      · simp [hfirst]
  rw [hfold roles.dedup value (List.nodup_dedup roles)]
  simp only [List.mem_dedup, List.count_pos_iff]

theorem startedTimes_of_mem {db : Db} {projects : List String} {item : String × Int}
    (h : item ∈ startedAttempts db projects) : item.2 ∈ startedTimes db projects := by
  obtain ⟨attempt, hattempt, hsome⟩ := List.mem_filterMap.mp h
  obtain ⟨input, hinput, hrun⟩ := Option.bind_eq_some_iff.mp hsome
  obtain ⟨run, -, htime⟩ := Option.bind_eq_some_iff.mp hrun
  obtain ⟨time, hstarted, rfl⟩ := Option.map_eq_some_iff.mp htime
  exact List.mem_filterMap.mpr ⟨attempt, hattempt, Option.bind_eq_some_iff.mpr ⟨input, hinput, hstarted⟩⟩

theorem min?_le {times : List Int} {time : Int} (h : time ∈ times) :
    ∃ least, times.min? = some least ∧ least ≤ time := by
  cases hmin : times.min? with
  | none =>
    rw [List.min?_eq_none_iff] at hmin
    exact absurd (hmin ▸ h) List.not_mem_nil
  | some least => exact ⟨least, rfl, (List.min?_eq_some_iff.mp hmin).2 time h⟩

/-- The times at which the query says that the counts change. -/
theorem bounds_nextUntil (db : Db) {projects : List String} (hnodup : projects.Nodup) (now : Int) :
    Bounds COUNT_WINDOW_MS now (nextUntil db projects now) (itemsOf db projects) := by
  unfold itemsOf
  rw [← coe_startedAttempts db hnodup]
  intro item hitem
  have htime := startedTimes_of_mem (Multiset.mem_coe.mp hitem)
  unfold nextUntil
  dsimp only
  constructor
  · intro hahead
    have hmem : item.2 ∈ (startedTimes db projects).filter fun time => now < time := by
      rw [List.mem_filter, decide_eq_true_eq]
      exact ⟨htime, hahead⟩
    obtain ⟨least, hleast, hle⟩ := min?_le hmem
    rw [hleast]
    split
    · next expiring future hexpiring hfuture =>
      obtain rfl := Option.some.inj hfuture
      exact ⟨_, rfl, (min_le_right _ _).trans hle⟩
    · next hnone => contradiction
    · exact ⟨least, rfl, hle⟩
  · intro hin
    rw [inside_iff] at hin
    have hmem : item.2 ∈ (startedTimes db projects).filter fun time =>
        now - COUNT_WINDOW_MS ≤ time && time ≤ now := by
      rw [List.mem_filter, Bool.and_eq_true, decide_eq_true_eq, decide_eq_true_eq]
      exact ⟨htime, by omega, hin.1⟩
    obtain ⟨least, hleast, hle⟩ := min?_le hmem
    rw [hleast]
    split
    · next expiring future hexpiring hfuture =>
      obtain rfl := Option.some.inj hexpiring
      refine ⟨_, rfl, (min_le_left _ _).trans ?_⟩
      omega
    · next expiring hexpiring hfuture =>
      obtain rfl := Option.some.inj hexpiring
      exact ⟨_, rfl, by omega⟩
    · next hnone => contradiction

/-- **The full query** answers for what the tables hold. -/
theorem answers_recount {db : Db} (h : Tallied db.countRoles (tally db)) {projects : List String}
    (hnodup : projects.Nodup) (now : Int) :
    Answers (recount db projects now) (itemsOf db projects) (runsOf db projects) where
  value := by
    intro role
    show (countWindow (startedAttempts db projects) now
      ((selectedRoles db projects).foldl (fun value row => value.set (row.1.2, 0)) Table.empty)).at? role = _
    rw [countWindow_at?, coe_startedAttempts db hnodup, setZeros_at?]
    simp only [role_selected h, Entries.at?_empty]
    show _ = shown (runsOf db projects role) (windowed COUNT_WINDOW_MS now (itemsOf db projects) role)
    unfold itemsOf shown
    by_cases hcounted : 0 < windowed COUNT_WINDOW_MS now (projects.map (datedOf db)).sum role
    · rw [if_pos hcounted, if_pos (Or.inr hcounted)]
      by_cases hruns : 0 < runsOf db projects role
      · rw [if_pos hruns, Option.getD_some, zero_add]
      · rw [if_neg hruns, Option.getD_none, zero_add]
    · rw [if_neg hcounted]
      by_cases hruns : 0 < runsOf db projects role
      · rw [if_pos hruns, if_pos (Or.inl hruns), Nat.eq_zero_of_not_pos hcounted]
        rfl
      · rw [if_neg hruns, if_neg (not_or.mpr ⟨hruns, hcounted⟩)]
  roles := by
    intro role
    show ((selectedRoles db projects).foldl (fun roles row =>
      roles.set (row.1.2, (roles.at? row.1.2).getD 0 + row.2)) Table.empty : Entries String Int).at? role = _
    rw [addRuns_at?, sum_selectedRoles h hnodup]
    simp only [role_selected h, Entries.at?_empty, Option.getD_none, zero_add]
    by_cases hruns : 0 < runsOf db projects role
    · rw [if_pos hruns, if_neg (Nat.ne_of_gt hruns)]
    · rw [if_neg hruns, if_pos (Nat.eq_zero_of_not_pos hruns)]
  bounds := bounds_nextUntil db hnodup now

/-! ### The moved window -/

/-- The changes of the crossed attempts, and what they add up to under `f`. -/
def crossChanges (attempts : List (String × Int)) (held now : Int) : List (String × Int) :=
  (attempts.filter fun attempt =>
    enters COUNT_WINDOW_MS held now attempt.2 || leaves COUNT_WINDOW_MS held now attempt.2).map fun attempt =>
      (attempt.1, if held < attempt.2 ∧ now - COUNT_WINDOW_MS ≤ attempt.2 then (1 : Int) else -1)

theorem sum_crossChanges (attempts : List (String × Int)) (held now : Int) (f : Int → Int) (role : String) :
    ((crossChanges attempts held now).map fun c => if c.1 = role then f c.2 else 0).sum =
      f 1 * attempts.countP (fun attempt =>
          attempt.1 = role ∧ enters COUNT_WINDOW_MS held now attempt.2 = true) +
        f (-1) * attempts.countP fun attempt =>
          attempt.1 = role ∧ leaves COUNT_WINDOW_MS held now attempt.2 = true := by
  unfold crossChanges
  induction attempts with
  | nil => simp
  | cons first rest ih =>
    rw [List.countP_cons, List.countP_cons]
    push_cast
    by_cases henters : enters COUNT_WINDOW_MS held now first.2 = true
    · have hnot : leaves COUNT_WINDOW_MS held now first.2 = false := by
        rw [← Bool.not_eq_true]
        simp only [enters, leaves, Bool.and_eq_true, decide_eq_true_eq] at henters ⊢
        omega
      have hone : held < first.2 ∧ now - COUNT_WINDOW_MS ≤ first.2 := by
        simp only [enters, Bool.and_eq_true, decide_eq_true_eq] at henters
        omega
      rw [List.filter_cons_of_pos (by simp [henters]), List.map_cons, List.map_cons, List.sum_cons, ih,
        if_pos hone]
      by_cases hrole : first.1 = role
      · simp only [hrole, henters, hnot, true_and, if_true, Bool.false_eq_true, decide_true, decide_false, if_false]
        ring
      · simp [hrole]
    · by_cases hleaves : leaves COUNT_WINDOW_MS held now first.2 = true
      · have hone : ¬(held < first.2 ∧ now - COUNT_WINDOW_MS ≤ first.2) := by
          simp only [leaves, Bool.and_eq_true, decide_eq_true_eq] at hleaves
          omega
        rw [List.filter_cons_of_pos (by simp [hleaves]), List.map_cons, List.map_cons, List.sum_cons, ih,
          if_neg hone]
        by_cases hrole : first.1 = role
        · simp only [hrole, henters, hleaves, true_and, if_true, Bool.false_eq_true, decide_true, decide_false,
            if_false]
          ring
        · simp [hrole]
      · rw [List.filter_cons_of_neg (by simp [henters, hleaves]), ih]
        simp [henters, hleaves]

/-- **A moved answer** answers for the same attempts and runs at the later time. -/
theorem Answers.cross {db : Db} {projects : List String} {cache : CountCache} (hnodup : projects.Nodup)
    (h : Answers cache (itemsOf db projects) (runsOf db projects)) {now : Int} (hnow : cache.at ≤ now) :
    Answers (crossWindow db projects now cache) (itemsOf db projects) (runsOf db projects) where
  value := by
    have hitems : itemsOf db projects = (startedAttempts db projects : Multiset (String × Int)) :=
      (coe_startedAttempts db hnodup).symm
    have hentered := fun role => sum_crossChanges (startedAttempts db projects) cache.at now id role
    have hleft := fun role =>
      sum_crossChanges (startedAttempts db projects) cache.at now (fun d => max 0 (-d)) role
    have hmove := @windowed_move String _ COUNT_WINDOW_MS cache.at now hnow (itemsOf db projects)
    have hcounted := leaves_le_windowed COUNT_WINDOW_MS cache.at now (itemsOf db projects)
    rw [hitems] at hmove hcounted
    simp only [Multiset.coe_countP] at hmove hcounted
    have hchanges : ((crossed db projects cache.at now).map fun attempt =>
        (attempt.1, if cache.at < attempt.2 ∧ now - COUNT_WINDOW_MS ≤ attempt.2 then (1 : Int) else -1)) =
        crossChanges (startedAttempts db projects) cache.at now := rfl
    unfold crossWindow
    dsimp only
    rw [hchanges]
    apply @fold_counts String _ (Entries String Int) (changeRole cache.roles) (Shows (runsOf db projects))
      (fun value counted m role amount hshows hm => hshows.changeRole h.roles hm) _ cache.value _ _ h.value
    · intro role
      have hrole := hmove role
      have htotal : total (crossChanges (startedAttempts db projects) cache.at now) role = _ := hentered role
      rw [htotal, hitems]
      simp only [id]
      omega
    · intro role
      have hrole := hcounted role
      have htaken : taken (crossChanges (startedAttempts db projects) cache.at now) role = _ := hleft role
      rw [htaken, hitems]
      have hone : max (0 : Int) (-1) = 0 := by decide
      have hminus : max (0 : Int) (- -1) = 1 := by decide
      rw [hone, hminus]
      omega
  roles := h.roles
  bounds := bounds_nextUntil db hnodup now

end Delegatus.History
