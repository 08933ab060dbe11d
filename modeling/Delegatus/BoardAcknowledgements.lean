import Delegatus.BoardKeyCoverage

/-!
# Acknowledgements only move forward

`mark-seen` has no key: an acknowledgement takes the later of its stamp and the one that is kept,
so that writers in any order agree.  The board keeps only the freshest stamps, and one that falls
out may be written again with an earlier time.  `Reached` is what a stamp leaves behind even then.
-/

namespace Delegatus.Boards

/-- The freshest of a list hold as many late items as the list does, up to their number. -/
theorem le_countP_take {α : Type*} {order : α → Nat} {l : List α}
    (hsorted : l.Pairwise fun a b => order b ≤ order a) {n bound : Nat}
    (h : n ≤ l.countP fun a => decide (bound ≤ order a)) :
    n ≤ (l.take n).countP fun a => decide (bound ≤ order a) := by
  have hsplit := List.take_append_drop n l
  by_cases hall : ∀ a ∈ l.take n, bound ≤ order a
  · rw [List.countP_eq_length.mpr fun a ha => decide_eq_true (hall a ha), List.length_take]
    exact le_min le_rfl (h.trans List.countP_le_length)
  · obtain ⟨early, hearly, hlt⟩ : ∃ a ∈ l.take n, order a < bound := by simpa using hall
    have hdrop : (l.drop n).countP (fun a => decide (bound ≤ order a)) = 0 := by
      refine List.countP_eq_zero.mpr fun a ha hle => ?_
      rw [← hsplit] at hsorted
      exact absurd ((of_decide_eq_true hle).trans ((List.pairwise_append.mp hsorted).2.2 early hearly a ha))
        (Nat.not_le.mpr hlt)
    rwa [← hsplit, List.countP_append, hdrop, Nat.add_zero] at h

/-- A stamp as late is kept, or as many as the board keeps are as late. -/
def Reached (stamps : Entries String Nat) (id : String) (seconds : Nat) : Prop :=
  (∃ latest, stamps.at? id = some latest ∧ seconds ≤ latest) ∨
    MAX_SEEN_STAMPS ≤ stamps.rows.countP fun entry => decide (seconds ≤ entry.2)

section

variable {stamps : Entries String Nat} {id : String} {seconds : Nat}

theorem Reached.acknowledge (h : Reached stamps id seconds) (mutation : BoardMutation) :
    Reached (acknowledge stamps mutation) id seconds := by
  cases mutation with
  | markSeen other mark =>
    unfold Boards.acknowledge
    dsimp only
    rcases h with ⟨latest, hlatest, hle⟩ | hcount
    · left
      rw [Entries.at?_set]
      by_cases hsame : id = other
      · rw [if_pos hsame, ← hsame, hlatest]
        exact ⟨_, rfl, hle.trans (le_max_left _ _)⟩
      · rw [if_neg hsame]
        exact ⟨latest, hlatest, hle⟩
    · right
      refine hcount.trans ?_
      cases hother : stamps.at? other with
      | none =>
        have hfresh : ∀ entry ∈ stamps.rows, entry.1 ≠ other := by
          rintro entry hentry rfl
          exact Entries.at?_eq_none.mp hother entry.2 hentry
        rw [Table.rows_set_of_fresh hfresh, List.countP_append]
        exact Nat.le_add_right _ _
      | some kept =>
        have hset : ∀ latest, (stamps.set (other, latest)).rows =
            Table.replaceRow stamps.rows Prod.fst (other, latest) :=
          fun latest => Table.rows_set_of_present (Entries.at?_eq_some.mp hother) rfl
        rw [hset, Table.replaceRow, List.countP_map]
        refine List.countP_mono_left fun entry hentry hle => decide_eq_true ?_
        dsimp only [Function.comp_apply]
        split
        · next hkey =>
          rw [← hkey, Entries.at?_eq_some.mpr hentry] at hother
          exact (of_decide_eq_true hle).trans (Option.some.inj hother ▸ le_max_left _ _)
        · exact of_decide_eq_true hle
  | _ => exact h

theorem rows_boundedSeenAt (stamps : Entries String Nat) : ∃ sorted : List (String × Nat),
    sorted.Perm stamps.rows ∧ sorted.Pairwise (fun left right => right.2 ≤ left.2) ∧
      (boundedSeenAt stamps).rows = sorted.take MAX_SEEN_STAMPS := by
  have : Std.Total fun left right : String × Nat => right.2 ≤ left.2 := ⟨fun a b => Nat.le_total b.2 a.2⟩
  have : IsTrans (String × Nat) fun left right => right.2 ≤ left.2 :=
    ⟨fun _ _ _ hab hbc => Nat.le_trans hbc hab⟩
  have hperm := List.perm_insertionSort (fun left right : String × Nat => right.2 ≤ left.2) stamps.rows
  refine ⟨_, hperm, List.pairwise_insertionSort _ _, Table.rows_ofList ?_⟩
  exact ((hperm.map Prod.fst).nodup_iff.mpr stamps.nodup).sublist ((List.take_sublist _ _).map _)

theorem Reached.bounded (h : Reached stamps id seconds) : Reached (boundedSeenAt stamps) id seconds := by
  obtain ⟨sorted, hperm, hsorted, hrows⟩ := rows_boundedSeenAt stamps
  rcases h with ⟨latest, hlatest, hle⟩ | hcount
  · have hmem := hperm.mem_iff.mpr (Entries.at?_eq_some.mp hlatest)
    rw [← List.take_append_drop MAX_SEEN_STAMPS sorted] at hmem hsorted
    rcases List.mem_append.mp hmem with hkept | hdropped
    · exact Or.inl ⟨latest, Entries.at?_eq_some.mpr (hrows ▸ hkept), hle⟩
    · right
      have hlate : ∀ entry ∈ sorted.take MAX_SEEN_STAMPS, seconds ≤ entry.2 := fun entry hentry =>
        hle.trans ((List.pairwise_append.mp hsorted).2.2 entry hentry _ hdropped)
      rw [hrows, List.countP_eq_length.mpr fun entry hentry => decide_eq_true (hlate entry hentry),
        List.length_take]
      refine le_min le_rfl (Nat.le_of_not_lt fun hlt => ?_)
      rw [List.drop_of_length_le hlt.le] at hdropped
      cases hdropped
  · right
    rw [hrows]
    exact le_countP_take hsorted (hperm.countP_eq _ ▸ hcount)

end

/-! ### Requests -/

section

variable {board after : BoardProjectState} {id : String} {seconds : Nat}

theorem reached_request {mutations : List BoardMutation}
    (h : applyBoardMutations board mutations = .ok after) (hreached : Reached (seenStamps board) id seconds) :
    Reached (seenStamps after) id seconds ∧ (seenStamps after).rows.length ≤ MAX_SEEN_STAMPS := by
  obtain ⟨normalized, next, hnormalized, hstart, hrun, -, rfl⟩ := applyBoardMutations_ok h
  obtain ⟨own, -, rfl⟩ := normalizeWith_eq_ok.mp hnormalized
  have hlength : ∀ stamps, (boundedSeenAt stamps).rows.length ≤ MAX_SEEN_STAMPS := by
    intro stamps
    obtain ⟨sorted, -, -, hrows⟩ := rows_boundedSeenAt stamps
    rw [hrows, List.length_take]
    exact min_le_left _ _
  have hrun := Refusals.run_invariant
    (I := fun state => Normal state ∧ Reached (seenStamps state) id seconds ∧
      (seenStamps state).rows.length ≤ MAX_SEEN_STAMPS) ?_ ⟨hstart, hreached.bounded, hlength _⟩ hrun
  · exact hrun.2
  · rintro state mutation next - ⟨hnormal, hreached, -⟩ hstep
    obtain ⟨placed, aliases, -, hnext, hseen, -, -⟩ := applyMutation_covers hnormal hstep
    have hplaced := hreached.acknowledge mutation
    rw [← hseen] at hplaced
    refine ⟨(applyMutation_ok hnormal hstep).1, ?_⟩
    rw [hnext]
    exact ⟨hplaced.bounded, hlength _⟩

/-- **Over any run of requests** a stamp that is kept at the end is no earlier than one that was
kept for its id before, and one that is no longer kept gave way to as many as the board keeps, none
of them earlier. -/
theorem acknowledgements_advance {requests : List (List BoardMutation)}
    (h : Refusals.run applyBoardMutations board requests = .ok after)
    (hbefore : (seenStamps board).at? id = some seconds) :
    (∀ latest, (seenStamps after).at? id = some latest → seconds ≤ latest) ∧
      ((seenStamps after).at? id = none →
        MAX_SEEN_STAMPS ≤ (seenStamps after).rows.countP fun entry => decide (seconds ≤ entry.2)) := by
  cases requests with
  | nil =>
    obtain rfl := Except.ok.inj h
    rw [hbefore]
    exact ⟨fun latest hlatest => (Option.some.inj hlatest).le, nofun⟩
  | cons request rest =>
    obtain ⟨first, hfirst, hrest⟩ := Refusals.run_cons_ok.mp h
    obtain ⟨hreached, hlength⟩ := Refusals.run_invariant
      (I := fun state => Reached (seenStamps state) id seconds ∧
        (seenStamps state).rows.length ≤ MAX_SEEN_STAMPS)
      (fun _ _ _ _ hstate hstep => reached_request hstep hstate.1)
      (reached_request hfirst (Or.inl ⟨seconds, hbefore, le_rfl⟩)) hrest
    rcases hreached with ⟨latest, hlatest, hle⟩ | hcount
    · rw [hlatest]
      exact ⟨fun other hother => Option.some.inj hother ▸ hle, nofun⟩
    · refine ⟨fun latest hlatest => ?_, fun _ => hcount⟩
      have hall := List.countP_eq_length.mp (le_antisymm List.countP_le_length (hlength.trans hcount))
      exact of_decide_eq_true (hall _ (Entries.at?_eq_some.mp hlatest))

end

def seenBoard : BoardProjectState :=
  { emptyBoard with prefs.seenAt := some ⟨[("a", 5)], by decide⟩ }

theorem acknowledgements_advance_late : 5 ≤ ((seenStamps seenBoard).at? "a").getD 0 :=
  (@acknowledgements_advance seenBoard seenBoard "a" 5 [[.markSeen "a" 3]] (by decide) (by decide)).1 _
    (by decide)

end Delegatus.Boards
