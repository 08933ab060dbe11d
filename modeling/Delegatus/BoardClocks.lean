import Delegatus.BoardKeys
import Delegatus.Runs

/-!
# Clocks over the writes of a board

A board changes by writes: a request's mutations, or a fold of other boards' histories into it,
each at a later revision.  `clocks_hold` says that no key's clock falls over a run, and that it
stays at least the revision of each write that reported the key's class, as long as each write
`KeepsClocks`: a clock of the class that a key joins is as high as the key's own reading, or the
floor is and the class has no clock or is not on the board.
-/

namespace Delegatus.Boards

/-- A write: the board that the reduction gave, and the boards whose histories it inherits. -/
structure BoardWrite where
  reduced : BoardProjectState
  revision : Nat
  updatedAt : String
  inherited : List BoardProjectState

section

variable (localeCompare : String → String → Int)

def BoardWrite.commit (write : BoardWrite) (current : BoardProjectState) : BoardProjectState :=
  committed localeCompare current write.reduced write.revision write.updatedAt write.inherited

/-- What reduced the board: mutations, or a fold of other boards, which may give any. -/
def BoardWrite.Reduces (write : BoardWrite) (current : BoardProjectState) : Prop :=
  write.inherited = [] →
    ∃ mutations, applyBoardMutations current mutations = .ok write.reduced

/-- The boards that writes lead to from an empty one, each at a later revision than the boards
it comes from. -/
inductive Written : BoardProjectState → Prop where
  | empty : Written emptyBoard
  | commit {current : BoardProjectState} (write : BoardWrite) :
      Written current → write.Reduces current → current.revision < write.revision →
        (∀ source ∈ write.inherited, Written source) →
          (∀ source ∈ write.inherited, source.revision < write.revision) →
            Written (write.commit localeCompare current)

/-- A write that may come next. -/
structure Legal (current : BoardProjectState) (write : BoardWrite) : Prop where
  reduces : write.Reduces current
  revision : current.revision < write.revision
  written : ∀ source ∈ write.inherited, Written localeCompare source
  inherited : ∀ source ∈ write.inherited, source.revision < write.revision

/-- One write of a run. -/
def writeStep (current : BoardProjectState) (write : BoardWrite) : BoardProjectState × Unit :=
  (write.commit localeCompare current, ())

end

/-- The clocks of every key that the write does not report go along: a clock that belongs to its
class afterwards is as high as its reading, or a floor is and the class has no clock or is not
on the board. -/
def KeepsClocks (current : BoardProjectState) (write : BoardWrite) : Prop :=
  ∀ key, canonicalKey key (aliasesOf write.reduced) ∉ boardKeysChanged current write.reduced →
    (∃ source ∈ current :: write.inherited, ∃ entry ∈ (causalHistory source).clocks.rows,
        canonicalKey entry.1 (aliasesOf write.reduced) = canonicalKey key (aliasesOf write.reduced) ∧
          keyRevisionAt current key ≤ entry.2) ∨
      (∃ source ∈ current :: write.inherited, keyRevisionAt current key ≤ (causalHistory source).floor) ∧
        (canonicalKey key (aliasesOf write.reduced) ∉ liveBoardKeys write.reduced ∨
          ∀ source ∈ current :: write.inherited, ∀ entry ∈ (causalHistory source).clocks.rows,
            canonicalKey entry.1 (aliasesOf write.reduced) ≠ canonicalKey key (aliasesOf write.reduced))

section

variable {localeCompare : String → String → Int} {first current : BoardProjectState}
  {write : BoardWrite} {writes : List BoardWrite}

theorem Legal.written_commit (h : Legal localeCompare current write)
    (hcurrent : Written localeCompare current) :
    Written localeCompare (write.commit localeCompare current) :=
  Written.commit write hcurrent h.reduces h.revision h.written h.inherited

/-- The clocks that a write leaves. -/
theorem causalHistory_commit : causalHistory (write.commit localeCompare current) =
    stampKeyRevisions localeCompare current write.reduced write.revision write.inherited := by
  unfold BoardWrite.commit committed causalHistory
  simp only [Option.getD_some]

theorem aliasesOf_commit : aliasesOf (write.commit localeCompare current) = aliasesOf write.reduced := by
  unfold BoardWrite.commit committed
  rw [aliasesOf, Option.getD_some]

theorem keyRevisionAt_commit (key : String) :
    keyRevisionAt (write.commit localeCompare current) key =
      (stampKeyRevisions localeCompare current write.reduced write.revision write.inherited).readAt
        (canonicalKey key (aliasesOf write.reduced)) := by
  rw [keyRevisionAt, causalHistory_commit, aliasesOf_commit]

theorem upTo_mono {floored : FlooredClocks.Floored String} {bound bound' : Nat}
    (h : floored.UpTo bound) (hle : bound ≤ bound') : floored.UpTo bound' :=
  ⟨h.floor.trans hle, fun key clock hclock => (h.clocks key clock hclock).trans hle⟩

/-- No clock of a written board is later than its revision. -/
theorem Written.upTo (h : Written localeCompare current) :
    (causalHistory current).UpTo current.revision := by
  induction h with
  | empty => exact ⟨Nat.zero_le _, fun key clock hclock => nomatch hclock⟩
  | commit write hcurrent _ hrevision _ hlater ihcurrent ihsources =>
    rw [causalHistory_commit, stampKeyRevisions]
    apply FlooredClocks.write_upTo
    · exact upTo_mono ihcurrent hrevision.le
    · intro floored hfloored
      obtain ⟨source, hsource, rfl⟩ := List.mem_map.mp hfloored
      exact upTo_mono (ihsources source hsource) (hlater source hsource).le

theorem keyRevisionAt_le (h : Written localeCompare current) (key : String) :
    keyRevisionAt current key ≤ current.revision :=
  h.upTo.readAt_le _

/-- A key whose class the write reports reads at least its revision. -/
theorem revision_le_keyRevisionAt {key : String}
    (h : canonicalKey key (aliasesOf write.reduced) ∈ boardKeysChanged current write.reduced) :
    write.revision ≤ keyRevisionAt (write.commit localeCompare current) key := by
  rw [keyRevisionAt_commit, stampKeyRevisions]
  exact FlooredClocks.revision_le_readAt_write h

/-- **No clock falls over a write** that keeps the clocks. -/
theorem keyRevisionAt_le_commit (hcurrent : Written localeCompare current)
    (hlegal : Legal localeCompare current write) (hkeeps : KeepsClocks current write) (key : String) :
    keyRevisionAt current key ≤ keyRevisionAt (write.commit localeCompare current) key := by
  by_cases hchanged : canonicalKey key (aliasesOf write.reduced) ∈ boardKeysChanged current write.reduced
  · calc keyRevisionAt current key
        ≤ current.revision := keyRevisionAt_le hcurrent key
      _ ≤ write.revision := hlegal.revision.le
      _ ≤ keyRevisionAt (write.commit localeCompare current) key := revision_le_keyRevisionAt hchanged
  · rw [keyRevisionAt_commit, stampKeyRevisions]
    apply FlooredClocks.readAt_le_write hchanged
    have hsources : ∀ source ∈ current :: write.inherited,
        causalHistory source ∈ causalHistory current :: write.inherited.map causalHistory := by
      intro source hsource
      rw [← List.map_cons]
      exact List.mem_map_of_mem hsource
    rcases hkeeps key hchanged with ⟨source, hsource, hentry⟩ | ⟨⟨source, hsource, hle⟩, hfree⟩
    · exact Or.inl ⟨causalHistory source, hsources source hsource, hentry⟩
    · right
      refine ⟨hle.trans (FlooredClocks.floor_le_highestFloor (hsources source hsource)), ?_⟩
      rcases hfree with huse | hnone
      · exact Or.inl (decide_eq_false huse)
      · right
        intro floored hfloored
        rw [← List.map_cons] at hfloored
        obtain ⟨other, hother, rfl⟩ := List.mem_map.mp hfloored
        exact hnone other hother

/-- **Clocks over a run**: none falls, and each stays at least the revision of every write that
reported its class. -/
theorem clocks_hold (hfirst : Written localeCompare first)
    (hlegal : Runs.EveryCall (writeStep localeCompare) (Legal localeCompare) first writes)
    (hkeeps : Runs.EveryCall (writeStep localeCompare) KeepsClocks first writes) :
    (∀ pre post, writes = pre ++ post → ∀ key,
      keyRevisionAt (Runs.after (writeStep localeCompare) first pre) key ≤
        keyRevisionAt (Runs.after (writeStep localeCompare) first writes) key) ∧
    ∀ pre write post, writes = pre ++ write :: post → ∀ key,
      canonicalKey key (aliasesOf write.reduced) ∈
          boardKeysChanged (Runs.after (writeStep localeCompare) first pre) write.reduced →
        write.revision ≤ keyRevisionAt (Runs.after (writeStep localeCompare) first writes) key := by
  have hwritten : ∀ {first : BoardProjectState} {writes : List BoardWrite}, Written localeCompare first →
      Runs.EveryCall (writeStep localeCompare) (Legal localeCompare) first writes →
        Written localeCompare (Runs.after (writeStep localeCompare) first writes) :=
    fun hfirst hlegal => Runs.after_of_everyCall
      (fun _ _ hcurrent hlegal => hlegal.written_commit hcurrent) hfirst hlegal
  have hmono : ∀ {first : BoardProjectState} {writes : List BoardWrite}, Written localeCompare first →
      Runs.EveryCall (writeStep localeCompare) (Legal localeCompare) first writes →
        Runs.EveryCall (writeStep localeCompare) KeepsClocks first writes → ∀ key,
          keyRevisionAt first key ≤
            keyRevisionAt (Runs.after (writeStep localeCompare) first writes) key := by
    intro first writes
    induction writes generalizing first with
    | nil => exact fun _ _ _ key => le_rfl
    | cons write rest ih =>
      intro hfirst hlegal hkeeps key
      have hnext := hlegal [] write rest rfl
      exact (keyRevisionAt_le_commit hfirst hnext (hkeeps [] write rest rfl) key).trans
        (ih (hnext.written_commit hfirst) hlegal.tail hkeeps.tail key)
  refine ⟨?_, ?_⟩
  · rintro pre post rfl key
    rw [Runs.after_append]
    exact hmono (hwritten hfirst hlegal.front) hlegal.back hkeeps.back key
  · rintro pre write post rfl key hreported
    have hsplit : pre ++ write :: post = (pre ++ [write]) ++ post := by simp
    rw [hsplit] at hlegal hkeeps ⊢
    rw [Runs.after_append]
    refine le_trans ?_ (hmono (hwritten hfirst hlegal.front) hlegal.back hkeeps.back key)
    rw [Runs.after_concat]
    exact revision_le_keyRevisionAt hreported

end

/-! ### A clock that falls -/

/-- What mutations leave of a board. -/
def reducedBy (board : BoardProjectState) (mutations : List BoardMutation) : BoardProjectState :=
  match applyBoardMutations board mutations with
  | .ok reduced => reduced
  | .error _ => board

/-- One collation for all strings, since no two retired keys meet below. -/
def noCollation (_ _ : String) : Int := 0

/-- A conversation resumed under a second path, which the operator pins. -/
def pinMutations : List BoardMutation :=
  [.remapPaths [⟨"/first", "/second"⟩] none, .restore "/second" .manual]

def pinWrite : BoardWrite := ⟨reducedBy emptyBoard pinMutations, 1, "2026-01-01T08:00:00.000Z", []⟩

def pinnedBoard : BoardProjectState := pinWrite.commit noCollation emptyBoard

/-- The first path is sent to a third one. -/
def redirectMutations : List BoardMutation := [.remapPaths [⟨"/first", "/third"⟩] none]

def redirectWrite : BoardWrite :=
  ⟨reducedBy pinnedBoard redirectMutations, 2, "2026-01-01T09:00:00.000Z", []⟩

theorem legal_pinWrite : Legal noCollation emptyBoard pinWrite where
  reduces := fun _ => ⟨pinMutations, by decide⟩
  revision := by decide
  written := fun _ hsource => absurd hsource List.not_mem_nil
  inherited := fun _ hsource => absurd hsource List.not_mem_nil

theorem legal_redirectWrite : Legal noCollation pinnedBoard redirectWrite where
  reduces := fun _ => ⟨redirectMutations, by decide⟩
  revision := by decide
  written := fun _ hsource => absurd hsource List.not_mem_nil
  inherited := fun _ hsource => absurd hsource List.not_mem_nil

theorem redirected_clock_falls :
    ¬ ∀ (localeCompare : String → String → Int) (first : BoardProjectState)
        (writes : List BoardWrite), Written localeCompare first →
      Runs.EveryCall (writeStep localeCompare) (Legal localeCompare) first writes →
        ∀ pre post, writes = pre ++ post → ∀ key,
          keyRevisionAt (Runs.after (writeStep localeCompare) first pre) key ≤
            keyRevisionAt (Runs.after (writeStep localeCompare) first writes) key := by
  intro h
  have hfalls := h noCollation emptyBoard [pinWrite, redirectWrite] Written.empty
    (Runs.everyCall_cons legal_pinWrite
      (Runs.everyCall_cons legal_redirectWrite (Runs.everyCall_nil _ _)))
    [pinWrite] [redirectWrite] rfl (pathKey "/first")
  revert hfalls
  decide

/-- The first write keeps the clocks: every key reads zero before it. -/
theorem keepsClocks_pinWrite : KeepsClocks emptyBoard pinWrite := by
  intro key _
  refine Or.inr ⟨⟨emptyBoard, List.mem_cons_self, le_rfl⟩, Or.inr fun source hsource entry hentry => ?_⟩
  obtain rfl := List.mem_singleton.mp hsource
  exact absurd hentry List.not_mem_nil

theorem clocks_hold_pin :
    (∀ pre post, [pinWrite] = pre ++ post → ∀ key,
      keyRevisionAt (Runs.after (writeStep noCollation) emptyBoard pre) key ≤
        keyRevisionAt (Runs.after (writeStep noCollation) emptyBoard [pinWrite]) key) ∧
    ∀ pre write post, [pinWrite] = pre ++ write :: post → ∀ key,
      canonicalKey key (aliasesOf write.reduced) ∈
          boardKeysChanged (Runs.after (writeStep noCollation) emptyBoard pre) write.reduced →
        write.revision ≤
          keyRevisionAt (Runs.after (writeStep noCollation) emptyBoard [pinWrite]) key :=
  clocks_hold Written.empty (Runs.everyCall_cons legal_pinWrite (Runs.everyCall_nil _ _))
    (Runs.everyCall_cons keepsClocks_pinWrite (Runs.everyCall_nil _ _))

end Delegatus.Boards
