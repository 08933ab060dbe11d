import Mathlib.Data.List.Lex
import Delegatus.Runs
import Delegatus.StateReads
import Delegatus.StateWriters

/-!
# Reads refine the committed rows

The state store as a machine: a database of collections, and the caches of its readers.
Each call is one transaction, in the order in which they commit.  A reader of a collection
is whatever shares one cache: one instance, or all instances of one shared slot.  `forget`
is a dropped cache, which a change of decode authority or of the database file, an eviction
or a close leaves.

The two results are two readings of one fact.  Whatever ran before, a load answers with the
records of the committed rows in the order of a full load (`reads_refine_commits`, first
part), because above its floor the change log names every key whose row, order or presence
is another one than it was (second part).
-/

namespace Delegatus.StateStore

open ChangeLogs (Follows Differs)
open Refusals (bind_eq_ok map_eq_ok run_invariant)

variable {ν ρ κ τ : Type} [DecidableEq ν] [DecidableEq ρ] [LinearOrder κ] [EmptyCollection κ]

/-! ### Calls -/

/-- `CompanionPatch`. -/
structure CompanionPatch (κ τ : Type*) where
  records : List τ
  deleteKeys : List κ

/-- What `prepare` gives to `patchSync`, its companion apart. -/
structure StatePatch (κ τ : Type*) where
  records : List τ
  deleteKeys : List κ
  appendKeys : List κ

inductive Call (ν ρ κ τ : Type*) where
  | seed (name : ν) (rows : List (ImportRow κ))
  | replaceSync (name : ν) (records : List τ) (mergeOmitted : Bool) (deleteKeys : List κ)
  | patchSync (name : ν) (patch : StatePatch κ τ) (companion : Option (ν × CompanionPatch κ τ))
  /-- One `persist` of a `mutate` session: a structural session replaces the collection, and
  any other writes the records it names or found dirty. -/
  | checkpoint (name : ν) (structural : Bool) (records : List τ)
  | boundedPatch (name : ν) (limit : Nat) (operations : List (RowOperation κ τ))
      (companion : Option (ν × CompanionPatch κ τ))
  | commitPatchesSync (patches : List (ν × CompanionPatch κ τ))
  /-- One page of `moveMatchingTo`. -/
  | movePage (source target : ν) (predicate : τ → Bool) (afterOrder : Int) (afterKey : κ)
      (throughOrder : Int)
  | loadReadonly (reader : ρ) (name : ν)
  | forget (reader : ρ) (name : ν)

inductive Answer (κ τ : Type*) where
  | done
  | refused (refusal : Refusal κ)
  | records (ordered : List τ)

/-- The collections of one database. -/
abbrev Database (ν κ : Type) := ν → Option (Collection κ)

structure Store (ν ρ κ τ : Type) where
  database : Database ν κ
  caches : ρ → ν → Option (CollectionCache κ τ)

/-- No collection yet, and no cache. -/
def Store.empty : Store ν ρ κ τ where
  database := fun _ => none
  caches := fun _ _ => none

/-! ### Transactions -/

/-- A write of one collection. -/
def onCollection (database : Database ν κ) (name : ν)
    (write : Collection κ → Except (Refusal κ) (Collection κ)) :
    Except (Refusal κ) (Database ν κ) :=
  match database name with
  | none => .error .missing
  | some c => (write c).map fun c' => Function.update database name (some c')

/-- `mergeRows` on the collection of a companion patch. -/
def mergeCompanion (options : ν → Options κ τ) (database : Database ν κ)
    (companion : ν × CompanionPatch κ τ) : Except (Refusal κ) (Database ν κ) :=
  onCollection database companion.1
    (mergeRows (options companion.1) companion.2.records companion.2.deleteKeys)

/-- A companion is another collection than the writer's own. -/
def assertOther (name : ν) (companion : Option (ν × CompanionPatch κ τ)) :
    Except (Refusal κ) Unit :=
  if companion.any (fun peer => peer.1 = name) then .error .sameCollection else .ok ()

/-- The rows of a companion patch, which spend a bounded patch's budget. -/
def companionRows (companion : Option (ν × CompanionPatch κ τ)) : Nat :=
  match companion with
  | none => 0
  | some peer => peer.2.records.length + peer.2.deleteKeys.length

/-- The database that a call commits. -/
def commit (options : ν → Options κ τ) (database : Database ν κ) :
    Call ν ρ κ τ → Except (Refusal κ) (Database ν κ)
  | .seed name rows =>
    match database name with
    | some _ => .error .alreadySeeded
    | none => (insertSeed rows).map fun c => Function.update database name (some c)
  | .replaceSync name records mergeOmitted deleteKeys =>
    onCollection database name
      (persistReplacement (options name) records mergeOmitted deleteKeys [])
  | .patchSync name patch companion => do
    assertOther name companion
    let database ← onCollection database name
      (persistReplacement (options name) patch.records true patch.deleteKeys patch.appendKeys)
    Refusals.run (mergeCompanion options) database companion.toList
  | .checkpoint name structural records =>
    onCollection database name
      (if structural then persistReplacement (options name) records false [] []
        else persistChangedRows (options name) records)
  | .boundedPatch name limit operations companion => do
    assertOther name companion
    let database ← onCollection database name
      (boundedPatch (options name) limit operations (companionRows companion))
    Refusals.run (mergeCompanion options) database companion.toList
  | .commitPatchesSync patches =>
    if (patches.map Prod.fst).Nodup then Refusals.run (mergeCompanion options) database patches
    else .error .sameCollection
  | .movePage source target predicate afterOrder afterKey throughOrder =>
    if source = target then .error .sameCollection
    else match database source, database target with
      | some from', some to' =>
        (movePage (options source) (options target) predicate afterOrder afterKey throughOrder
          from' to').map fun moved =>
            Function.update (Function.update database source (some moved.1)) target (some moved.2)
      | _, _ => .error .missing
  | .loadReadonly _ _ => .ok database
  | .forget _ _ => .ok database

/-- The cache of one reader of one collection becomes `cache?`. -/
def setCache (s : Store ν ρ κ τ) (reader : ρ) (name : ν) (cache? : Option (CollectionCache κ τ)) :
    Store ν ρ κ τ :=
  let slots := Function.update (s.caches reader) name cache?
  { s with caches := Function.update s.caches reader slots }

/-- One call.  A refused one leaves the database and the caches as they were. -/
def step (options : ν → Options κ τ) (localeCompare : κ → κ → Int) (s : Store ν ρ κ τ)
    (call : Call ν ρ κ τ) : Store ν ρ κ τ × Answer κ τ :=
  match call with
  | .loadReadonly reader name =>
    match s.database name with
    | none => (s, .refused .missing)
    | some c =>
      match loadReadonly (options name) localeCompare (s.caches reader name) c with
      | .error refusal => (s, .refused refusal)
      | .ok cache => (setCache s reader name (some cache), .records cache.ordered)
  | .forget reader name => (setCache s reader name none, .done)
  | call =>
    match commit options s.database call with
    | .error refusal => (s, .refused refusal)
    | .ok database => ({ s with database := database }, .done)

/-! ### What a call commits -/

/-- Every collection of the database is sound. -/
def AllSound (options : ν → Options κ τ) (database : Database ν κ) : Prop :=
  ∀ name c, database name = some c → Sound (options name) c

/-- Every collection is still there and follows what it was, and all are sound. -/
structure Advances (options : ν → Options κ τ) (database database' : Database ν κ) : Prop where
  follows : ∀ name c, database name = some c →
    ∃ c', database' name = some c' ∧ Follows Row.rowRevision c.version c'.version
  sound : AllSound options database'

omit [DecidableEq ν] [EmptyCollection κ] in
theorem Advances.refl {options : ν → Options κ τ} {database : Database ν κ}
    (h : AllSound options database) : Advances options database database :=
  ⟨fun _ c hc => ⟨c, hc, Follows.refl _⟩, h⟩

omit [DecidableEq ν] [EmptyCollection κ] in
theorem Advances.trans {options : ν → Options κ τ} {first second third : Database ν κ}
    (h : Advances options first second) (h' : Advances options second third) :
    Advances options first third := by
  refine ⟨?_, h'.sound⟩
  intro name c hc
  obtain ⟨c', hc', hfollows⟩ := h.follows name c hc
  obtain ⟨c'', hc'', hfollows'⟩ := h'.follows name c' hc'
  exact ⟨c'', hc'', hfollows.trans hfollows'⟩

omit [EmptyCollection κ] in
/-- A commit of one collection advances the database. -/
theorem advances_update {options : ν → Options κ τ} {database : Database ν κ} {name : ν}
    {c c' : Collection κ} (hsound : AllSound options database) (hc : database name = some c)
    (hcommits : Commits (options name) c c') :
    Advances options database (Function.update database name (some c')) := by
  constructor
  · intro other d hd
    by_cases heq : other = name
    · subst heq
      obtain rfl := Option.some.inj (hc.symm.trans hd)
      exact ⟨c', Function.update_self .., hcommits.follows⟩
    · exact ⟨d, by rw [Function.update_of_ne heq, hd], Follows.refl _⟩
  · intro other d hd
    by_cases heq : other = name
    · subst heq
      rw [Function.update_self] at hd
      exact Option.some.inj hd ▸ hcommits.sound
    · rw [Function.update_of_ne heq] at hd
      exact hsound other d hd

omit [EmptyCollection κ] in
theorem onCollection_advances {options : ν → Options κ τ} {database database' : Database ν κ}
    {name : ν} {write : Collection κ → Except (Refusal κ) (Collection κ)}
    (hsound : AllSound options database)
    (hwrite : ∀ c c', Sound (options name) c → write c = .ok c' → Commits (options name) c c')
    (h : onCollection database name write = .ok database') :
    Advances options database database' := by
  unfold onCollection at h
  cases hc : database name with
  | none =>
    rw [hc] at h
    nomatch h
  | some c =>
    rw [hc] at h
    obtain ⟨c', hc', rfl⟩ := map_eq_ok.mp h
    exact advances_update hsound hc (hwrite c c' (hsound name c hc) hc')

theorem mergeCompanions_advances {options : ν → Options κ τ} {database database' : Database ν κ}
    {companions : List (ν × CompanionPatch κ τ)} (hsound : AllSound options database)
    (h : Refusals.run (mergeCompanion options) database companions = .ok database') :
    Advances options database database' := by
  apply run_invariant (I := Advances options database) ?_ (Advances.refl hsound) h
  intro mid companion next _ hmid hnext
  exact hmid.trans (onCollection_advances hmid.sound
    (fun _ _ hc hwrite => mergeRows_commits hc hwrite) hnext)

omit [DecidableEq ρ] in
/-- **Every commit advances the database.** -/
theorem commit_advances {options : ν → Options κ τ} {database database' : Database ν κ}
    {call : Call ν ρ κ τ} (hsound : AllSound options database)
    (h : commit options database call = .ok database') : Advances options database database' := by
  cases call with
  | seed name rows =>
    simp only [commit] at h
    cases hc : database name with
    | some c =>
      simp only [hc] at h
      nomatch h
    | none =>
      simp only [hc] at h
      obtain ⟨c, hseed, rfl⟩ := map_eq_ok.mp h
      constructor
      · intro other d hd
        have hne : other ≠ name := fun heq => by simp [heq, hc] at hd
        exact ⟨d, by rw [Function.update_of_ne hne, hd], Follows.refl _⟩
      · intro other d hd
        by_cases heq : other = name
        · subst heq
          rw [Function.update_self] at hd
          exact Option.some.inj hd ▸ insertSeed_sound hseed
        · rw [Function.update_of_ne heq] at hd
          exact hsound other d hd
  | replaceSync name records mergeOmitted deleteKeys =>
    exact onCollection_advances hsound (fun _ _ hc hwrite => persistReplacement_commits hc hwrite) h
  | patchSync name patch companion =>
    obtain ⟨_, -, h⟩ := bind_eq_ok.mp h
    obtain ⟨mid, hmid, h⟩ := bind_eq_ok.mp h
    have hown := onCollection_advances hsound
      (fun _ _ hc hwrite => persistReplacement_commits hc hwrite) hmid
    exact hown.trans (mergeCompanions_advances hown.sound h)
  | checkpoint name structural records =>
    refine onCollection_advances hsound ?_ h
    intro c c' hc hwrite
    cases structural with
    | true => exact persistReplacement_commits hc hwrite
    | false => exact persistChangedRows_commits hc hwrite
  | boundedPatch name limit operations companion =>
    obtain ⟨_, -, h⟩ := bind_eq_ok.mp h
    obtain ⟨mid, hmid, h⟩ := bind_eq_ok.mp h
    have hown := onCollection_advances hsound
      (fun _ _ hc hwrite => boundedPatch_commits hc hwrite) hmid
    exact hown.trans (mergeCompanions_advances hown.sound h)
  | commitPatchesSync patches =>
    simp only [commit] at h
    split_ifs at h
    exact mergeCompanions_advances hsound h
  | movePage source target predicate afterOrder afterKey throughOrder =>
    simp only [commit] at h
    split_ifs at h with hne
    cases hsource : database source with
    | none =>
      simp only [hsource] at h
      nomatch h
    | some from' =>
      cases htarget : database target with
      | none =>
        simp only [hsource, htarget] at h
        nomatch h
      | some to' =>
        simp only [hsource, htarget] at h
        obtain ⟨moved, hmoved, rfl⟩ := map_eq_ok.mp h
        obtain ⟨hfrom, hto⟩ := movePage_commits (hsound source from' hsource)
          (hsound target to' htarget) hmoved
        have hfirst := advances_update hsound hsource hfrom
        have htarget' : Function.update database source (some moved.1) target = some to' := by
          rw [Function.update_of_ne (Ne.symm hne), htarget]
        exact hfirst.trans (advances_update hfirst.sound htarget' hto)
  | loadReadonly reader name =>
    obtain rfl := Except.ok.inj h
    exact Advances.refl hsound
  | forget reader name =>
    obtain rfl := Except.ok.inj h
    exact Advances.refl hsound

/-! ### Runs -/

/-- Every collection is sound, and every cache was read from an earlier version of its
collection. -/
structure Good (options : ν → Options κ τ) (s : Store ν ρ κ τ) : Prop where
  sound : AllSound options s.database
  caches : ∀ reader name cache, s.caches reader name = some cache →
    ∃ c, s.database name = some c ∧ ∃ old, Kept (options name) c cache old

omit [DecidableEq ν] [DecidableEq ρ] [EmptyCollection κ] in
theorem empty_good (options : ν → Options κ τ) : Good options (Store.empty : Store ν ρ κ τ) where
  sound := fun _ _ h => by simp [Store.empty] at h
  caches := fun _ _ _ h => by simp [Store.empty] at h

omit [DecidableEq ν] [DecidableEq ρ] [EmptyCollection κ] in
theorem Good.advance {options : ν → Options κ τ} {s : Store ν ρ κ τ} {database : Database ν κ}
    (h : Good options s) (hadvances : Advances options s.database database) :
    Good options { s with database := database } := by
  refine ⟨hadvances.sound, ?_⟩
  intro reader name cache hcache
  obtain ⟨c, hc, old, hkept⟩ := h.caches reader name cache hcache
  obtain ⟨c', hc', hfollows⟩ := hadvances.follows name c hc
  exact ⟨c', hc', old, hkept.mirrors, hkept.sound, hkept.follows.trans hfollows⟩

omit [EmptyCollection κ] in
theorem Good.setCache {options : ν → Options κ τ} {s : Store ν ρ κ τ} {reader : ρ} {name : ν}
    {cache? : Option (CollectionCache κ τ)} (h : Good options s)
    (hcache : ∀ cache, cache? = some cache →
      ∃ c, s.database name = some c ∧ ∃ old, Kept (options name) c cache old) :
    Good options (setCache s reader name cache?) := by
  refine ⟨h.sound, ?_⟩
  intro reader' name' cache hget
  simp only [StateStore.setCache] at hget
  by_cases hreader : reader' = reader
  · subst hreader
    rw [Function.update_self] at hget
    by_cases hname : name' = name
    · subst hname
      rw [Function.update_self] at hget
      exact hcache cache hget
    · rw [Function.update_of_ne hname] at hget
      exact h.caches reader' name' cache hget
  · rw [Function.update_of_ne hreader] at hget
    exact h.caches reader' name' cache hget

/-- A writer's call commits, or leaves the store as it was. -/
theorem step_of_write (options : ν → Options κ τ) (localeCompare : κ → κ → Int)
    (s : Store ν ρ κ τ) {call : Call ν ρ κ τ} (hload : ∀ reader name, call ≠ .loadReadonly reader name)
    (hforget : ∀ reader name, call ≠ .forget reader name) :
    (step options localeCompare s call).1 = s ∨
      ∃ database, commit options s.database call = .ok database ∧
        (step options localeCompare s call).1 = { s with database := database } := by
  have hstep : step options localeCompare s call = match commit options s.database call with
      | .error refusal => (s, .refused refusal)
      | .ok database => ({ s with database := database }, .done) := by
    cases call with
    | loadReadonly reader name => exact absurd rfl (hload reader name)
    | forget reader name => exact absurd rfl (hforget reader name)
    | _ => rfl
  cases hcommit : commit options s.database call with
  | error refusal =>
    rw [hstep, hcommit]
    exact Or.inl rfl
  | ok database =>
    rw [hstep, hcommit]
    exact Or.inr ⟨database, rfl, rfl⟩

omit [DecidableEq ν] [DecidableEq ρ] [EmptyCollection κ] in
theorem Good.loads {options : ν → Options κ τ} {s : Store ν ρ κ τ} (h : Good options s)
    (localeCompare : κ → κ → Int) (reader : ρ) {name : ν} {c : Collection κ} (hc : s.database name = some c) :
    Loads (options name) c
      (loadReadonly (options name) localeCompare (s.caches reader name) c) := by
  apply loadReadonly_loads (h.sound name c hc)
  intro cache hcache
  obtain ⟨d, hd, hkept⟩ := h.caches reader name cache hcache
  obtain rfl := Option.some.inj (hc.symm.trans hd)
  exact hkept

/-- **One call keeps the store good, and every collection follows what it was.** -/
theorem step_good {options : ν → Options κ τ} (localeCompare : κ → κ → Int) {s : Store ν ρ κ τ}
    (h : Good options s) (call : Call ν ρ κ τ) :
    Good options (step options localeCompare s call).1 ∧
      Advances options s.database (step options localeCompare s call).1.database := by
  have hrefl : Advances options s.database s.database := Advances.refl h.sound
  by_cases hload : ∃ reader name, call = .loadReadonly reader name
  · obtain ⟨reader, name, rfl⟩ := hload
    simp only [step]
    cases hc : s.database name with
    | none => exact ⟨h, hrefl⟩
    | some c =>
      have hloads := h.loads localeCompare reader hc
      cases hload : loadReadonly (options name) localeCompare (s.caches reader name) c with
      | error refusal =>
        simp only [hload]
        exact ⟨h, hrefl⟩
      | ok cache =>
        simp only [hload]
        refine ⟨h.setCache ?_, hrefl⟩
        intro other hother
        obtain rfl := Option.some.inj hother
        exact ⟨c, hc, c, hloads.mirrors cache hload, h.sound name c hc, Follows.refl _⟩
  · by_cases hforget : ∃ reader name, call = .forget reader name
    · obtain ⟨reader, name, rfl⟩ := hforget
      exact ⟨h.setCache (by simp), hrefl⟩
    · rcases step_of_write options localeCompare s
        (fun reader name heq => hload ⟨reader, name, heq⟩)
        (fun reader name heq => hforget ⟨reader, name, heq⟩) with hsame | ⟨database, hcommit, heq⟩
      · rw [hsame]
        exact ⟨h, hrefl⟩
      · have hadvances := commit_advances h.sound hcommit
        rw [heq]
        exact ⟨h.advance hadvances, hadvances⟩

theorem after_good (options : ν → Options κ τ) (localeCompare : κ → κ → Int)
    (calls : List (Call ν ρ κ τ)) :
    Good options (Runs.after (step options localeCompare) Store.empty calls) :=
  Runs.after_invariant (P := Good options) (fun _ call h => (step_good localeCompare h call).1)
    (empty_good options) calls

/-- Over a run every collection follows what it was. -/
theorem after_follows (options : ν → Options κ τ) (localeCompare : κ → κ → Int)
    {s : Store ν ρ κ τ} (hs : Good options s) (calls : List (Call ν ρ κ τ)) :
    Advances options s.database
      (Runs.after (step options localeCompare) s calls).database := by
  induction calls generalizing s with
  | nil => exact Advances.refl hs.sound
  | cons call calls ih =>
    obtain ⟨hgood, hadvances⟩ := step_good localeCompare hs call
    exact hadvances.trans (ih hgood)

/-- **State store reads refine the committed rows.**  In every state a run of calls reaches,
whatever the cached reader has read before:

* a load answers with `ordered` exactly where a full load does, and that is where every
  committed row decodes and `ordered` is the committed records in the order of their rows;
* for every revision at or above the change floor, the change log names, above it, every key
  whose row, order or presence differs between that revision and now. -/
theorem reads_refine_commits (options : ν → Options κ τ) (localeCompare : κ → κ → Int)
    (calls : List (Call ν ρ κ τ)) (name : ν) (c : Collection κ)
    (hc : (Runs.after (step options localeCompare) Store.empty calls).database name = some c) :
    (∀ (reader : ρ) (ordered : List τ),
      (Runs.answer (step options localeCompare) Store.empty calls (.loadReadonly reader name) =
          .records ordered ↔
        (loadFull (options name) localeCompare c).map CollectionCache.ordered = .ok ordered) ∧
      ((loadFull (options name) localeCompare c).map CollectionCache.ordered = .ok ordered ↔
        (∀ row ∈ c.rows.rows, readable (options name) row = .ok ()) ∧
          ordered = committedRecords (options name) c)) ∧
    ∀ (pre post : List (Call ν ρ κ τ)) (old : Collection κ), calls = pre ++ post →
      (Runs.after (step options localeCompare) Store.empty pre).database name = some old →
      c.changeFloor ≤ old.revision → ∀ key, old.rows.get? key ≠ c.rows.get? key →
        ∃ change ∈ c.changes, old.revision < change.revision ∧ change.rowKey = key := by
  have hgood := after_good options localeCompare calls
  constructor
  · intro reader ordered
    have hplaced := (hgood.sound name c hc).placed
    -- any load that keeps `Loads` answers with the committed records where all rows decode
    have hresult : ∀ result, Loads (options name) c result →
        (result.map CollectionCache.ordered = .ok ordered ↔
          (∀ row ∈ c.rows.rows, readable (options name) row = .ok ()) ∧
            ordered = committedRecords (options name) c) := by
      intro result hloads
      rw [map_eq_ok]
      constructor
      · rintro ⟨cache, hcache, rfl⟩
        exact ⟨hloads.isOk_iff.mp ⟨cache, hcache⟩,
          (hloads.mirrors cache hcache).ordered_eq hplaced⟩
      · rintro ⟨hreadable, rfl⟩
        obtain ⟨cache, hcache⟩ := hloads.isOk_iff.mpr hreadable
        exact ⟨cache, hcache, (hloads.mirrors cache hcache).ordered_eq hplaced⟩
    have hanswer : Runs.answer (step options localeCompare) Store.empty calls
          (.loadReadonly reader name) = .records ordered ↔
        (loadReadonly (options name) localeCompare
          ((Runs.after (step options localeCompare) Store.empty calls).caches reader name) c).map
            CollectionCache.ordered = .ok ordered := by
      unfold Runs.answer
      simp only [step, hc]
      cases loadReadonly (options name) localeCompare
          ((Runs.after (step options localeCompare) Store.empty calls).caches reader name) c with
      | error refusal => simp [Except.map]
      | ok cache => simp [Except.map]
    have hloads := hgood.loads localeCompare reader hc
    refine ⟨?_, hresult _ (loadFull_loads hplaced)⟩
    rw [hanswer, hresult _ hloads, hresult _ (loadFull_loads hplaced)]
  · intro pre post old hsplit hold hfloor key hdiffers
    subst hsplit
    have hpre := after_good options localeCompare pre
    have hadvances := after_follows options localeCompare hpre post
    rw [← Runs.after_append] at hadvances
    obtain ⟨c', hc', hfollows⟩ := hadvances.follows name old hold
    obtain rfl := Option.some.inj (hc.symm.trans hc')
    obtain ⟨revision, hlater, change, hchange, rfl, hkey⟩ :=
      hfollows.complete hfloor key hdiffers
    exact ⟨change, hchange, hlater, hkey⟩

/-! ### A run -/

/-- Records that are their own text, under their first unit. -/
def plainOptions (_ : Unit) : Options (List Nat) (List Nat) where
  key := fun record => record.take 1
  stringify := fun record => record.map UInt16.ofNat
  decode := fun text => .record (text.map UInt16.toNat)
  controllerActive := fun _ => true
  validate := fun _ => true
  strictDecode := true
  preserveRejectedRecords := false

/-- A seeded collection is read, one row is patched and another appended, and it is read
again through the change log. -/
def patchedRun : List (Call Unit Unit (List Nat) (List Nat)) :=
  [.seed () [⟨[7], [7, 1], true⟩, ⟨[5], [5, 1], true⟩], .loadReadonly () (),
    .patchSync () ⟨[[5, 2], [6, 1]], [], []⟩ none, .loadReadonly () (),
    .boundedPatch () 4 [.put [8, 3], .delete [7]] none]

theorem reads_refine_commits_patched : ∃ c,
    (Runs.after (step plainOptions fun _ _ => 0) Store.empty patchedRun).database () = some c ∧
      (Runs.answer (step plainOptions fun _ _ => 0) Store.empty patchedRun (.loadReadonly () ()) =
          .records [[5, 2], [6, 1], [8, 3]] ↔
        (loadFull (plainOptions ()) (fun _ _ => 0) c).map CollectionCache.ordered =
          .ok [[5, 2], [6, 1], [8, 3]]) := by
  have hsome : ((Runs.after (step plainOptions fun _ _ => 0) Store.empty
      patchedRun).database ()).isSome = true := by decide
  obtain ⟨c, hc⟩ := Option.isSome_iff_exists.mp hsome
  exact ⟨c, hc, ((reads_refine_commits plainOptions (fun _ _ => 0) patchedRun () c hc).1 ()
    [[5, 2], [6, 1], [8, 3]]).1⟩

end Delegatus.StateStore
