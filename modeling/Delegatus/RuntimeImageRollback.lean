import Delegatus.PendingRows
import Delegatus.RuntimeImageBatches
import Delegatus.Sha256

/-!
# A batch of runtime images is all or nothing

The loop of `putMany` extends the store and knows the names that it published (`Extends`), and it
adds the bytes that `assertQuota` found missing (`Counted`).  So its rollback takes back exactly what
the call created, unless the failing call is one of the `finally` block of a new image: `put` then
throws with the blob published, and `putMany` does not know of it (`failed_cleanup_leaves_blob`).
In every other case a batch is all or nothing (`putMany_all_or_nothing_iff`).
-/

namespace Delegatus.RuntimeImages

open JsonText (units)

section

variable {δ : Type*} [DecidableEq δ] {sha256 : Bytes → δ}

/-! ### The loop -/

theorem Apart.after {store after : Store δ} {item other : Decoded} (h : Apart sha256 store other)
    (hsame : sha256 item.data = sha256 other.data → item.data = other.data)
    (hcontent : content after = Function.update (content store) (nameOf sha256 item) (some item.data)) :
    Apart sha256 after other := by
  intro name data hdata hdigest
  rw [hcontent] at hdata
  by_cases hname : name = nameOf sha256 item
  · rw [hname, Function.update_self] at hdata
    obtain rfl := Option.some.inj hdata
    exact hsame hdigest
  · rw [Function.update_of_ne hname] at hdata
    exact h name data hdata hdigest

/-- What is stored stays when a sound image is put. -/
theorem content_grows {store after : Store δ} {item : Decoded} (hsound : Agrees sha256 store item)
    (hcontent : content after = Function.update (content store) (nameOf sha256 item) (some item.data))
    {name : δ × StructuredImageMime} {data : Bytes} (h : content store name = some data) :
    content after name = some data := by
  rw [hcontent]
  by_cases hname : name = nameOf sha256 item
  · rw [hname] at h ⊢
    rw [Function.update_self, hsound data h]
  · rw [Function.update_of_ne hname]
    exact h

theorem present_after {store after : Store δ} {item : Decoded}
    (hcontent : content after = Function.update (content store) (nameOf sha256 item) (some item.data))
    (name : δ × StructuredImageMime) :
    content after name ≠ none ↔ content store name ≠ none ∨ name = nameOf sha256 item := by
  rw [hcontent]
  by_cases hname : name = nameOf sha256 item
  · simp [hname]
  · simp [hname]

theorem faultAt_eq_some {fault : Option (Nat × Stage)} {index : Nat} {stage : Stage} :
    faultAt fault index = some stage ↔ fault = some (index, stage) := by
  unfold faultAt
  cases fault with
  | none => simp
  | some failing =>
    obtain ⟨at', other⟩ := failing
    by_cases h : at' = index
    · simp [h]
    · simp [h]

/-- A failing cleanup of the first image leaves it. -/
theorem lingers_of_unclean {fault : Option (Nat × Stage)} {index : Nat} {store : Store δ} {item : Decoded}
    {rest : List Decoded} (h : Unclean sha256 (faultAt fault index) store item) :
    Lingers sha256 fault index store (item :: rest) := by
  obtain ⟨hfault, hnone⟩ := h
  obtain ⟨stage, hstage, hup⟩ := (Option.any_eq_true _ _).mp hfault
  refine ⟨0, item, stage, ?_, hup, rfl, hnone, ?_⟩
  · rw [Nat.add_zero]
    exact faultAt_eq_some.mp hstage
  · intro earlier hearlier
    exact absurd hearlier List.not_mem_nil

/-- A refused image leaves nothing. -/
theorem not_lingers_of_refused {fault : Option (Nat × Stage)} {index : Nat} {store : Store δ} {item : Decoded}
    {rest : List Decoded} (hclean : ¬ Unclean sha256 (faultAt fault index) store item)
    (hcause : faultAt fault index = none → ¬ Agrees sha256 store item) :
    ¬ Lingers sha256 fault index store (item :: rest) := by
  rintro ⟨k, other, stage, hfault, hup, hother, hnone, hbefore⟩
  cases k with
  | zero =>
    obtain rfl : item = other := by simpa using hother
    have hstage : faultAt fault index = some stage := faultAt_eq_some.mpr hfault
    exact hclean ⟨by rw [hstage]; exact hup, hnone⟩
  | succ k =>
    have hlater : faultAt fault index = none := by
      rw [faultAt, hfault]
      simp
    exact hcause hlater (hbefore item (by simp)).2

/-- What a later image leaves does not depend on whether a sound image was put before. -/
theorem lingers_cons {fault : Option (Nat × Stage)} {index : Nat} {store after : Store δ} {item : Decoded}
    {rest : List Decoded} (hclean : ¬ Unclean sha256 (faultAt fault index) store item)
    (hsound : Agrees sha256 store item)
    (hcontent : content after = Function.update (content store) (nameOf sha256 item) (some item.data))
    (hsame : ∀ other ∈ rest, nameOf sha256 other = nameOf sha256 item → other.data = item.data) :
    Lingers sha256 fault index store (item :: rest) ↔ Lingers sha256 fault (index + 1) after rest := by
  have hkeep : ∀ other ∈ rest, Agrees sha256 store other ↔ Agrees sha256 after other := by
    intro other hother
    unfold Agrees
    rw [hcontent]
    by_cases hname : nameOf sha256 other = nameOf sha256 item
    · rw [hname, Function.update_self, hsame other hother hname]
      constructor
      · intro _ data hdata
        exact (Option.some.inj hdata).symm
      · intro _ data hdata
        exact hsound data hdata
    · rw [Function.update_of_ne hname]
  have hindex : ∀ k, index + (k + 1) = index + 1 + k := fun k => by omega
  constructor
  · rintro ⟨k, other, stage, hfault, hup, hother, hnone, hbefore⟩
    cases k with
    | zero =>
      obtain rfl : item = other := by simpa using hother
      have hstage : faultAt fault index = some stage := faultAt_eq_some.mpr hfault
      exact absurd ⟨by rw [hstage]; exact hup, hnone⟩ hclean
    | succ k =>
      have hne : nameOf sha256 item ≠ nameOf sha256 other := (hbefore item (by simp)).1
      refine ⟨k, other, stage, hindex k ▸ hfault, hup, hother, ?_, ?_⟩
      · rw [hcontent, Function.update_of_ne hne.symm]
        exact hnone
      · intro earlier hearlier
        obtain ⟨hapart, hearlierSound⟩ := hbefore earlier (List.mem_cons_of_mem _ hearlier)
        exact ⟨hapart, (hkeep earlier (List.mem_of_mem_take hearlier)).mp hearlierSound⟩
  · rintro ⟨k, other, stage, hfault, hup, hother, hnone, hbefore⟩
    have hne : nameOf sha256 item ≠ nameOf sha256 other := by
      intro hname
      rw [hcontent, ← hname, Function.update_self] at hnone
      exact absurd hnone nofun
    refine ⟨k + 1, other, stage, (hindex k).symm ▸ hfault, hup, hother, ?_, ?_⟩
    · rw [hcontent, Function.update_of_ne hne.symm] at hnone
      exact hnone
    · intro earlier hearlier
      rcases List.mem_cons.mp hearlier with rfl | hrest
      · exact ⟨hne, hsound⟩
      · obtain ⟨hapart, hearlierSound⟩ := hbefore earlier hrest
        exact ⟨hapart, (hkeep earlier (List.mem_of_mem_take hrest)).mpr hearlierSound⟩

/-- The store has what was there before, and the published names are those that are new. -/
structure Extends (before store : Store δ) (published : List (δ × StructuredImageMime)) : Prop where
  kept : ∀ name data, content before name = some data → content store name = some data
  fresh : ∀ name, name ∈ published ↔ content before name = none ∧ content store name ≠ none

theorem Extends.refl (store : Store δ) : Extends store store [] :=
  ⟨fun _ _ h => h, fun _ => by simp⟩

theorem Extends.put {before store after : Store δ} {published : List (δ × StructuredImageMime)}
    {item : Decoded} {created : Bool} (h : Extends before store published) (hsound : Agrees sha256 store item)
    (hcreated : created = true ↔ content store (nameOf sha256 item) = none)
    (hcontent : content after = Function.update (content store) (nameOf sha256 item) (some item.data)) :
    Extends before after (if created then published ++ [nameOf sha256 item] else published) := by
  refine ⟨fun name data hdata => content_grows hsound hcontent (h.kept name data hdata), ?_⟩
  intro name
  rw [present_after hcontent name]
  cases created with
  | true =>
    have hnone := hcreated.mp rfl
    have hbefore : content before (nameOf sha256 item) = none := by
      rw [Option.eq_none_iff_forall_ne_some]
      intro data hdata
      rw [h.kept _ data hdata] at hnone
      exact absurd hnone nofun
    rw [if_pos rfl, List.mem_append, List.mem_singleton, h.fresh name]
    constructor
    · rintro (⟨hold, hnew⟩ | rfl)
      · exact ⟨hold, Or.inl hnew⟩
      · exact ⟨hbefore, Or.inr rfl⟩
    · rintro ⟨hold, hnew | rfl⟩
      · exact Or.inl ⟨hold, hnew⟩
      · exact Or.inr rfl
  | false =>
    have hsome : content store (nameOf sha256 item) ≠ none := fun hnone => absurd (hcreated.mpr hnone) nofun
    rw [if_neg Bool.false_ne_true, h.fresh name]
    constructor
    · rintro ⟨hold, hnew⟩
      exact ⟨hold, Or.inl hnew⟩
    · rintro ⟨hold, hnew | rfl⟩
      · exact ⟨hold, hnew⟩
      · exact ⟨hold, hsome⟩

theorem content_foldl_delete (published : List (δ × StructuredImageMime)) (store : Store δ)
    (name : δ × StructuredImageMime) :
    content (published.foldl Table.delete store) name = if name ∈ published then none else content store name := by
  unfold content
  rw [PendingRows.get?_foldl_delete]
  split
  · rfl
  · rfl

/-- **The rollback takes back what was published, and nothing else.** -/
theorem Extends.rolledBack {before store after : Store δ} {published : List (δ × StructuredImageMime)}
    (h : Extends before store published) (hsame : content after = content store) :
    content (published.foldl Table.delete after) = content before := by
  funext name
  rw [content_foldl_delete, hsame]
  by_cases hname : name ∈ published
  · rw [if_pos hname, ((h.fresh name).mp hname).1]
  · rw [if_neg hname]
    cases hbefore : content before name with
    | some data => exact h.kept name data hbefore
    | none =>
      by_contra hne
      exact hname ((h.fresh name).mpr ⟨hbefore, hne⟩)

/-- The store holds what the one before the batch held and the images found missing there, and
their bytes. -/
structure Counted (sha256 : Bytes → δ) (before store : Store δ) (found : Table (nameOf sha256)) : Prop where
  present : ∀ name, content store name ≠ none ↔ content before name ≠ none ∨ found.has name = true
  stored : ∀ item ∈ found.rows, content store (nameOf sha256 item) = some item.data
  bytes : storedBytes store = storedBytes before + (found.rows.map fun item => item.data.length).sum

theorem Counted.refl (store : Store δ) : Counted sha256 store store Table.empty :=
  ⟨fun _ => by simp [Table.has], fun _ h => absurd h List.not_mem_nil, rfl⟩

theorem has_eq_true {store : Store δ} {name : δ × StructuredImageMime} :
    store.has name = true ↔ content store name ≠ none := by
  rw [← Table.get?_isSome, Option.isSome_iff_ne_none, Ne, Ne, content_eq_none]

theorem Counted.put {before store after : Store δ} {found : Table (nameOf sha256)} {item : Decoded}
    (h : Counted sha256 before store found) (hsound : Agrees sha256 store item)
    (hcontent : content after = Function.update (content store) (nameOf sha256 item) (some item.data))
    (hbytes : storedBytes after = storedBytes store +
      if content store (nameOf sha256 item) = none then item.data.length else 0) :
    Counted sha256 before after (noteMissing sha256 before found item) := by
  unfold noteMissing
  by_cases hbefore : before.has (nameOf sha256 item) = true
  · have hold := has_eq_true.mp hbefore
    rw [if_pos hbefore]
    refine ⟨?_, fun other hother => content_grows hsound hcontent (h.stored other hother), ?_⟩
    · intro name
      rw [present_after hcontent, h.present]
      constructor
      · rintro (hpresent | rfl)
        · exact hpresent
        · exact Or.inl hold
      · exact Or.inl
    · rw [hbytes, if_neg ((h.present _).mpr (Or.inl hold)), Nat.add_zero, h.bytes]
  · have hold : content before (nameOf sha256 item) = none := not_not.mp fun hne => hbefore (has_eq_true.mpr hne)
    rw [if_neg hbefore]
    refine ⟨?_, ?_, ?_⟩
    · intro name
      rw [present_after hcontent, h.present, Table.has_set, or_assoc]
      exact or_congr_right or_comm
    · intro other hother
      rcases Table.mem_set.mp hother with rfl | ⟨hmem, -⟩
      · rw [hcontent, Function.update_self]
      · exact content_grows hsound hcontent (h.stored other hmem)
    · have hsize : ∀ old ∈ found.rows, nameOf sha256 old = nameOf sha256 item →
          old.data.length = item.data.length := by
        intro old hmem hname
        rw [hsound old.data (hname ▸ h.stored old hmem)]
      rw [hbytes, Table.sum_set found item (fun item => item.data.length) hsize, h.bytes]
      have hnew : content store (nameOf sha256 item) ≠ none ↔ found.has (nameOf sha256 item) = true := by
        rw [h.present]
        simp [hold]
      by_cases hfound : found.has (nameOf sha256 item) = true
      · rw [if_neg (hnew.mpr hfound), if_pos hfound, Nat.add_zero, Nat.add_zero]
      · rw [if_pos (not_not.mp fun hne => hfound (hnew.mp hne)), if_neg hfound, Nat.add_assoc]

/-- How the loop ends. -/
inductive Ended (sha256 : Bytes → δ) (fault : Option (Nat × Stage)) (index : Nat) (before store : Store δ)
    (rest : List Decoded) (refs : List (StructuredImageRef δ)) : Answer δ → Prop
  | lingering {after : Store δ} {reason : PutError} (hlingers : Lingers sha256 fault index store rest)
      (hkept : ∀ name data, content before name = some data → content after name = some data)
      (hnew : ∃ item ∈ rest, content before (nameOf sha256 item) = none ∧
        content after (nameOf sha256 item) ≠ none) :
      Ended sha256 fault index before store rest refs ⟨after, .error reason⟩
  | restored {after : Store δ} {reason : PutError} (hclean : ¬ Lingers sha256 fault index store rest)
      (hsame : content after = content before) :
      Ended sha256 fault index before store rest refs ⟨after, .error reason⟩
  | stored {after : Store δ} (hclean : ¬ Lingers sha256 fault index store rest)
      (hgrown : ∀ name data, content store name = some data → content after name = some data)
      (hstored : ∀ item ∈ rest, content after (nameOf sha256 item) = some item.data)
      (hcounted : ∀ found, Counted sha256 before store found →
        Counted sha256 before after (rest.foldl (noteMissing sha256 before) found)) :
      Ended sha256 fault index before store rest refs ⟨after, .ok (refs ++ rest.map (refOf sha256))⟩

theorem putAll_ended {fault : Option (Nat × Stage)} {now : Int} {before : Store δ} (rest : List Decoded)
    (index : Nat) (store : Store δ) (published : List (δ × StructuredImageMime))
    (refs : List (StructuredImageRef δ)) (hextends : Extends before store published)
    (hapart : ∀ item ∈ rest, Apart sha256 store item)
    (hsame : ∀ first ∈ rest, ∀ second ∈ rest, sha256 first.data = sha256 second.data →
      first.data = second.data) :
    Ended sha256 fault index before store rest refs
      (putAll sha256 fault now index rest store published refs) := by
  induction rest generalizing index store published refs with
  | nil =>
    have hclean : ¬ Lingers sha256 fault index store [] := by
      rintro ⟨k, item, stage, -, -, hitem, -⟩
      simp at hitem
    have hended := @Ended.stored _ _ sha256 fault index before store [] refs store hclean
      (fun _ _ h => h) (fun _ h => absurd h List.not_mem_nil) (fun _ h => h)
    rw [List.map_nil, List.append_nil] at hended
    exact hended
  | cons item rest ih =>
    have hput := @put_outcome _ _ sha256 (faultAt fault index) now store item (hapart item List.mem_cons_self)
    unfold putAll
    generalize put sha256 (faultAt fault index) now store item = answer at hput ⊢
    cases hput with
    | refused hsameStore hclean hcause =>
      exact .restored (not_lingers_of_refused hclean hcause) (hextends.rolledBack hsameStore)
    | left hunclean hcontent =>
      have hnone := hunclean.2
      have hsound : Agrees sha256 store item := by
        intro data hdata
        rw [hnone] at hdata
        exact absurd hdata nofun
      have hbefore : content before (nameOf sha256 item) = none := by
        rw [Option.eq_none_iff_forall_ne_some]
        intro data hdata
        rw [hextends.kept _ data hdata] at hnone
        exact absurd hnone nofun
      refine .lingering (lingers_of_unclean hunclean) ?_ ⟨item, List.mem_cons_self, hbefore, ?_⟩
      · intro name data hdata
        have hold : name ∉ published := by
          intro hmem
          rw [((hextends.fresh name).mp hmem).1] at hdata
          exact absurd hdata nofun
        rw [content_foldl_delete, if_neg hold]
        exact content_grows hsound hcontent (hextends.kept name data hdata)
      · have hold : nameOf sha256 item ∉ published := fun hmem => ((hextends.fresh _).mp hmem).2 hnone
        rw [content_foldl_delete, if_neg hold, hcontent, Function.update_self]
        exact Option.some_ne_none _
    | @stored after created hclean hsound hcreated hcontent hbytes =>
      have hrest : ∀ other ∈ rest, nameOf sha256 other = nameOf sha256 item → other.data = item.data := by
        intro other hother hname
        have hdigest : sha256 other.data = sha256 item.data := congrArg Prod.fst hname
        exact hsame other (List.mem_cons_of_mem _ hother) item List.mem_cons_self hdigest
      have hlingers := @lingers_cons _ _ sha256 fault index store after item rest hclean hsound hcontent hrest
      have hnext := ih (index + 1) after _ (refs ++ [refOf sha256 item])
        (hextends.put hsound hcreated hcontent)
        (fun other hother => (hapart other (List.mem_cons_of_mem _ hother)).after
          (hsame item List.mem_cons_self other (List.mem_cons_of_mem _ hother)) hcontent)
        (fun first hfirst second hsecond => hsame first (List.mem_cons_of_mem _ hfirst) second
          (List.mem_cons_of_mem _ hsecond))
      show Ended sha256 fault index before store (item :: rest) refs (putAll sha256 fault now (index + 1) rest
        after (if created then published ++ [nameOf sha256 item] else published) (refs ++ [refOf sha256 item]))
      generalize putAll sha256 fault now (index + 1) rest after
        (if created then published ++ [nameOf sha256 item] else published)
        (refs ++ [refOf sha256 item]) = answer at hnext ⊢
      cases hnext with
      | lingering hlater hkept hnew =>
        obtain ⟨other, hother, hnew⟩ := hnew
        exact .lingering (hlingers.mpr hlater) hkept ⟨other, List.mem_cons_of_mem _ hother, hnew⟩
      | restored hlater hback => exact .restored (fun h => hlater (hlingers.mp h)) hback
      | @stored final hlater hgrown hstored hcounted =>
        rw [List.append_assoc]
        refine .stored (fun h => hlater (hlingers.mp h)) ?_ ?_ ?_
        · exact fun name data hdata => hgrown name data (content_grows hsound hcontent hdata)
        · intro other hother
          rcases List.mem_cons.mp hother with rfl | hmem
          · apply hgrown
            rw [hcontent, Function.update_self]
          · exact hstored other hmem
        · exact fun found hfound => hcounted _ (hfound.put hsound hcontent hbytes)

/-! ### The quota -/

variable {limits : StoreLimits} {now : Int} {reachable : List δ} {store : Store δ} {decoded : List Decoded}

theorem content_collectGarbage {name : δ × StructuredImageMime} {data : Bytes}
    (h : content (collectGarbage limits now reachable store) name = some data) :
    content store name = some data := by
  obtain ⟨blob, hmem, rfl, rfl⟩ := mem_of_content h
  exact content_of_mem (Table.mem_filter.mp hmem).1

theorem collectGarbage_keeps {blob : Blob δ} (hmem : blob ∈ store.rows)
    (hkeep : blob.sha256 ∈ reachable ∨ now - blob.mtime < limits.gcGraceMs) :
    content (collectGarbage limits now reachable store) blob.name = some blob.data := by
  apply content_of_mem
  exact Table.mem_filter.mpr ⟨hmem, by simpa using hkeep⟩

theorem content_assertQuota {name : δ × StructuredImageMime} {data : Bytes}
    (h : content (assertQuota sha256 limits now reachable store decoded).1 name = some data) :
    content store name = some data := by
  unfold assertQuota at h
  split at h
  · exact h
  · exact content_collectGarbage h

/-- The check keeps what is reachable, of the batch, or young. -/
theorem assertQuota_keeps {blob : Blob δ} (hmem : blob ∈ store.rows)
    (hkeep : blob.sha256 ∈ reachable ∨ (∃ item ∈ decoded, sha256 item.data = blob.sha256) ∨
      now - blob.mtime < limits.gcGraceMs) :
    content (assertQuota sha256 limits now reachable store decoded).1 blob.name = some blob.data := by
  unfold assertQuota
  split
  · exact content_of_mem hmem
  · apply collectGarbage_keeps hmem
    rw [List.mem_append]
    rcases hkeep with hreachable | ⟨item, hitem, hdigest⟩ | hyoung
    · exact Or.inl (Or.inl hreachable)
    · exact Or.inl (Or.inr (List.mem_map.mpr ⟨item, hitem, hdigest⟩))
    · exact Or.inr hyoung

/-- The check changes nothing about the images of the batch. -/
theorem assertQuota_named {item : Decoded} (hitem : item ∈ decoded) :
    content (assertQuota sha256 limits now reachable store decoded).1 (nameOf sha256 item) =
      content store (nameOf sha256 item) := by
  cases hstore : content store (nameOf sha256 item) with
  | some data =>
    obtain ⟨blob, hmem, hname, rfl⟩ := mem_of_content hstore
    rw [← hname]
    exact assertQuota_keeps hmem (Or.inr (Or.inl ⟨item, hitem, (congrArg Prod.fst hname).symm⟩))
  | none =>
    rw [Option.eq_none_iff_forall_ne_some]
    intro data hdata
    rw [content_assertQuota hdata] at hstore
    exact absurd hstore nofun

theorem assertQuota_fits (h : (assertQuota sha256 limits now reachable store decoded).2 = true) :
    storedBytes (assertQuota sha256 limits now reachable store decoded).1 +
      missingBytes sha256 (assertQuota sha256 limits now reachable store decoded).1 decoded ≤
        limits.maxBytes := by
  unfold assertQuota at h ⊢
  split
  · assumption
  · rename_i hexceeds
    rw [if_neg hexceeds] at h
    exact of_decide_eq_true h

theorem Lingers.congr {fault : Option (Nat × Stage)} {index : Nat} {other : Store δ}
    (hsame : ∀ item ∈ decoded, content other (nameOf sha256 item) = content store (nameOf sha256 item))
    (h : Lingers sha256 fault index store decoded) : Lingers sha256 fault index other decoded := by
  obtain ⟨k, item, stage, hfault, hup, hitem, hnone, hbefore⟩ := h
  refine ⟨k, item, stage, hfault, hup, hitem, ?_, ?_⟩
  · rw [hsame item (List.mem_of_getElem? hitem)]
    exact hnone
  · intro earlier hearlier
    obtain ⟨hapart, hsound⟩ := hbefore earlier hearlier
    refine ⟨hapart, ?_⟩
    unfold Agrees
    rw [hsame earlier (List.mem_of_mem_take hearlier)]
    exact hsound

/-! ### Whole batches -/

variable {readers : Readers} {uploads : List RuntimeImageUpload}

theorem decodeBase64_of_validate {upload : RuntimeImageUpload} {item : Decoded}
    (h : validateRuntimeImageUpload readers upload = .ok item) :
    decodeBase64 upload.base64 = some item.data := by
  unfold validateRuntimeImageUpload at h
  split at h
  · exact nomatch h
  · split at h
    · exact nomatch h
    · rename_i data hdecoded
      split_ifs at h
      rw [hdecoded, ← Except.ok.inj h]

theorem forall₂_of_mapM {α β ε : Type*} {f : α → Except ε β} {xs : List α} {ys : List β}
    (h : xs.mapM f = .ok ys) : List.Forall₂ (fun x y => f x = .ok y) xs ys := by
  induction xs generalizing ys with
  | nil =>
    obtain rfl : [] = ys := Except.ok.inj h
    exact .nil
  | cons x rest ih =>
    rw [List.mapM_cons] at h
    cases hx : f x with
    | error reason =>
      rw [hx] at h
      exact nomatch h
    | ok y =>
      cases hrest : rest.mapM f with
      | error reason =>
        rw [hx, hrest] at h
        exact nomatch h
      | ok others =>
        rw [hx, hrest] at h
        obtain rfl : y :: others = ys := Except.ok.inj h
        exact .cons hx (ih hrest)

theorem validateUploads_ok (h : validateUploads readers uploads = .ok decoded) :
    List.Forall₂ (fun upload item => validateRuntimeImageUpload readers upload = .ok item) uploads decoded := by
  unfold validateUploads at h
  split_ifs at h
  split at h
  · exact nomatch h
  · rename_i items hitems
    split_ifs at h
    obtain rfl := Except.ok.inj h
    exact forall₂_of_mapM hitems

/-- An upload of a valid batch is one of its images. -/
theorem mem_decoded (hvalid : validateUploads readers uploads = .ok decoded) {upload : RuntimeImageUpload}
    (hupload : upload ∈ uploads) : ∃ item ∈ decoded, validateRuntimeImageUpload readers upload = .ok item := by
  have hpairs := validateUploads_ok hvalid
  clear hvalid
  induction hpairs with
  | nil => exact absurd hupload List.not_mem_nil
  | @cons first item rest items hfirst _ ih =>
    rcases List.mem_cons.mp hupload with rfl | hrest
    · exact ⟨item, List.mem_cons_self, hfirst⟩
    · obtain ⟨other, hother, hvalid⟩ := ih hrest
      exact ⟨other, List.mem_cons_of_mem _ hother, hvalid⟩

omit [DecidableEq δ] in
/-- The bytes of a valid batch are at hand. -/
theorem data_atHand (hvalid : validateUploads readers uploads = .ok decoded) {item : Decoded}
    (hitem : item ∈ decoded) : item.data ∈ bytesAtHand store uploads := by
  have hpairs := validateUploads_ok hvalid
  clear hvalid
  apply List.mem_append_right
  induction hpairs with
  | nil => exact absurd hitem List.not_mem_nil
  | @cons upload first rest items hfirst _ ih =>
    rw [@List.filterMap_cons_some _ _ (fun upload : RuntimeImageUpload => decodeBase64 upload.base64) _ _ _
      (decodeBase64_of_validate hfirst)]
    rcases List.mem_cons.mp hitem with rfl | hrest
    · exact List.mem_cons_self
    · exact List.mem_cons_of_mem _ (ih hrest)

/-- How the loop ends for a valid batch that fits. -/
theorem putAll_ended_of_valid {fault : Option (Nat × Stage)} (hfree : CollisionFree sha256 store uploads)
    (hvalid : validateUploads readers uploads = .ok decoded) {admitted : Store δ}
    (hsub : ∀ name data, content admitted name = some data → content store name = some data) :
    Ended sha256 fault 0 admitted admitted decoded []
      (putAll sha256 fault now 0 decoded admitted [] []) := by
  apply putAll_ended decoded 0 admitted [] [] (.refl admitted)
  · intro item hitem name data hdata hdigest
    obtain ⟨blob, hmem, -, rfl⟩ := mem_of_content (hsub name data hdata)
    exact hfree _ (List.mem_append_left _ (List.mem_map_of_mem hmem)) _ (data_atHand hvalid hitem) hdigest
  · intro first hfirst second hsecond hdigest
    exact hfree _ (data_atHand hvalid hfirst) _ (data_atHand hvalid hsecond) hdigest

theorem readsBack_of_stored {after : Store δ}
    (hpairs : List.Forall₂ (fun upload item => validateRuntimeImageUpload readers upload = .ok item)
      uploads decoded)
    (hstored : ∀ item ∈ decoded, content after (nameOf sha256 item) = some item.data) :
    List.Forall₂ (fun upload ref => ∃ data, decodeBase64 upload.base64 = some data ∧
      readFromRoot sha256 after ref = .ok data) uploads (decoded.map (refOf sha256)) := by
  induction hpairs with
  | nil => exact .nil
  | @cons upload item rest items hitem _ ih =>
    refine .cons ⟨item.data, decodeBase64_of_validate hitem, ?_⟩ (ih ?_)
    · exact readFromRoot_refOf (hstored item List.mem_cons_self)
    · exact fun other hother => hstored other (List.mem_cons_of_mem _ hother)

/-- A call that throws and publishes nothing is all or nothing. -/
theorem allOrNothing_of_error {after : Store δ} {reason : PutError}
    (hsub : ∀ name data, content after name = some data → content store name = some data)
    (hkept : ∀ blob ∈ store.rows, (blob.sha256 ∈ reachable ∨ InBatch sha256 readers uploads blob.name ∨
      now - blob.mtime < limits.gcGraceMs) → content after blob.name = some blob.data) :
    AllOrNothing sha256 readers limits now reachable store uploads ⟨after, .error reason⟩ := by
  refine ⟨(fun _ h => nomatch h), (fun _ h => nomatch h), ?_, hkept⟩
  intro _ _ name hpresent
  obtain ⟨data, hdata⟩ := Option.ne_none_iff_exists'.mp hpresent
  rw [hsub name data hdata]
  exact Option.some_ne_none _

theorem assertQuota_kept (hvalid : validateUploads readers uploads = .ok decoded) {blob : Blob δ}
    (hmem : blob ∈ store.rows) (hkeep : blob.sha256 ∈ reachable ∨ InBatch sha256 readers uploads blob.name ∨
      now - blob.mtime < limits.gcGraceMs) :
    content (assertQuota sha256 limits now reachable store decoded).1 blob.name = some blob.data := by
  apply assertQuota_keeps hmem
  refine hkeep.imp_right (Or.imp_left ?_)
  rintro ⟨upload, hupload, item, hitem, hname⟩
  obtain ⟨other, hother, hsame⟩ := mem_decoded hvalid hupload
  obtain rfl : item = other := Except.ok.inj (hitem.symm.trans hsame)
  exact ⟨item, hother, congrArg Prod.fst hname⟩

/-- A call that leaves a blob throws, and the blob was not there before. -/
theorem not_allOrNothing_of_leaves {fault : Option (Nat × Stage)} (hfree : CollisionFree sha256 store uploads)
    (h : LeavesBlob sha256 readers limits fault now reachable store uploads) :
    ¬ AllOrNothing sha256 readers limits now reachable store uploads
      (putMany sha256 readers limits fault now reachable store uploads) := by
  obtain ⟨decoded, hvalid, hfits, hlingers⟩ := h
  have hlingers := hlingers.congr fun item hitem =>
    @assertQuota_named _ _ sha256 limits now reachable store decoded item hitem
  have hended := @putAll_ended_of_valid _ _ sha256 now store decoded readers uploads fault hfree hvalid
    (assertQuota sha256 limits now reachable store decoded).1 fun _ _ => content_assertQuota
  intro hall
  unfold putMany at hall
  rw [hvalid] at hall
  dsimp only at hall
  rw [if_pos hfits] at hall
  generalize putAll sha256 fault now 0 decoded (assertQuota sha256 limits now reachable store decoded).1 [] [] =
    answer at hended hall
  cases hended with
  | lingering _ _ hnew =>
    obtain ⟨item, hitem, habsent, hpresent⟩ := hnew
    rw [assertQuota_named hitem] at habsent
    exact hall.nothing _ rfl _ hpresent habsent
  | restored hclean => exact hclean hlingers
  | stored hclean => exact hclean hlingers

theorem allOrNothing_of_not_leaves {fault : Option (Nat × Stage)} (hfree : CollisionFree sha256 store uploads)
    (h : ¬ LeavesBlob sha256 readers limits fault now reachable store uploads) :
    AllOrNothing sha256 readers limits now reachable store uploads
      (putMany sha256 readers limits fault now reachable store uploads) := by
  unfold putMany
  cases hvalid : validateUploads readers uploads with
  | error reason => exact allOrNothing_of_error (fun _ _ h => h) fun blob hmem _ => content_of_mem hmem
  | ok decoded =>
    dsimp only
    by_cases hfits : (assertQuota sha256 limits now reachable store decoded).2 = true
    · have hended := @putAll_ended_of_valid _ _ sha256 now store decoded readers uploads fault hfree hvalid
        (assertQuota sha256 limits now reachable store decoded).1 fun _ _ => content_assertQuota
      rw [if_pos hfits]
      generalize putAll sha256 fault now 0 decoded (assertQuota sha256 limits now reachable store decoded).1
        [] [] = answer at hended ⊢
      cases hended with
      | lingering hlingers =>
        refine absurd ⟨decoded, hvalid, hfits, hlingers.congr ?_⟩ h
        exact fun item hitem => (assertQuota_named hitem).symm
      | @restored after _ _ hsame =>
        apply allOrNothing_of_error
        · rw [hsame]
          exact fun _ _ => content_assertQuota
        · rw [hsame]
          exact fun blob hmem => assertQuota_kept hvalid hmem
      | @stored after _ hgrown hstored hcounted =>
        refine ⟨?_, ?_, (fun _ h => nomatch h), ?_⟩
        · intro refs hrefs
          obtain rfl := Except.ok.inj hrefs
          exact readsBack_of_stored (validateUploads_ok hvalid) hstored
        · intro refs _
          have hbytes := (hcounted Table.empty (.refl _)).bytes
          rw [hbytes]
          exact assertQuota_fits hfits
        · intro blob hmem hkeep
          exact hgrown _ _ (assertQuota_kept hvalid hmem hkeep)
    · rw [if_neg hfits]
      exact allOrNothing_of_error (fun _ _ => content_assertQuota) fun blob hmem => assertQuota_kept hvalid hmem

/-- **A batch is all or nothing, unless the cleanup of a new image fails**: for every store, batch and
failing call, where the digests of the bytes at hand tell them apart. -/
theorem putMany_all_or_nothing_iff (readers : Readers) (limits : StoreLimits) (fault : Option (Nat × Stage))
    (now : Int) (reachable : List δ) (store : Store δ) (uploads : List RuntimeImageUpload)
    (hfree : CollisionFree sha256 store uploads) :
    AllOrNothing sha256 readers limits now reachable store uploads
        (putMany sha256 readers limits fault now reachable store uploads) ↔
      ¬ LeavesBlob sha256 readers limits fault now reachable store uploads :=
  ⟨fun hall hleaves => not_allOrNothing_of_leaves hfree hleaves hall, allOrNothing_of_not_leaves hfree⟩

end

/-! ### A blob that stays -/

def gifBytes : Bytes := [71, 73, 70, 56, 55, 97, 0, 0, 0, 0]

def gifUpload : RuntimeImageUpload := ⟨units "R0lGODdhAAAAAA==", units "image/gif"⟩

def gifImage : Decoded := ⟨gifBytes, .gif, by decide⟩

/-- Readers for uploads alone. -/
def plainReaders : Readers := ⟨fun _ => none, fun _ => none, fun _ => none, id⟩

theorem collisionFree_single (upload : RuntimeImageUpload) :
    CollisionFree Sha256.digest Table.empty [upload] := by
  intro first hfirst second hsecond _
  have honly : ∀ data ∈ bytesAtHand (Table.empty : Store (List UInt8)) [upload],
      decodeBase64 upload.base64 = some data := by
    intro data hdata
    simpa [bytesAtHand] using hdata
  exact Option.some.inj ((honly first hfirst).symm.trans (honly second hsecond))

/-- A valid upload to an empty store, which is stored. -/
theorem putMany_all_or_nothing_gif :
    AllOrNothing Sha256.digest plainReaders ⟨1000, 0⟩ 0 [] Table.empty [gifUpload]
        (putMany Sha256.digest plainReaders ⟨1000, 0⟩ none 0 [] Table.empty [gifUpload]) ↔
      ¬ LeavesBlob Sha256.digest plainReaders ⟨1000, 0⟩ none 0 [] Table.empty [gifUpload] :=
  putMany_all_or_nothing_iff _ _ _ _ _ _ _ (collisionFree_single gifUpload)

theorem validate_gifUpload : validateUploads plainReaders [gifUpload] = .ok [gifImage] := by
  have hmime : mimeOf plainReaders gifUpload.mime = some .gif := by decide
  have hdata : decodeBase64 gifUpload.base64 = some gifBytes := by decide
  have hupload : validateRuntimeImageUpload plainReaders gifUpload = .ok gifImage := by
    unfold validateRuntimeImageUpload
    rw [hmime]
    dsimp only
    rw [hdata]
    exact (if_neg (by decide)).trans (dif_pos gifImage.signed)
  unfold validateUploads
  rw [if_neg (by decide), if_neg (by decide), List.mapM_cons, hupload]
  exact if_neg (by decide)

/-- **A failing sync of the cleanup leaves the new blob**: the call throws and the image is there. -/
theorem failed_cleanup_leaves_blob :
    ¬ ∀ (fault : Option (Nat × Stage)) (store : Store (List UInt8)) (uploads : List RuntimeImageUpload),
      CollisionFree Sha256.digest store uploads →
        AllOrNothing Sha256.digest plainReaders ⟨1000, 0⟩ 0 [] store uploads
          (putMany Sha256.digest plainReaders ⟨1000, 0⟩ fault 0 [] store uploads) := by
  intro hall
  have hfree := collisionFree_single gifUpload
  refine not_allOrNothing_of_leaves hfree ?_ (hall (some (0, .cleanupFsync)) Table.empty [gifUpload] hfree)
  refine ⟨[gifImage], validate_gifUpload, ?_, 0, gifImage, .cleanupFsync, rfl, rfl, rfl, rfl, ?_⟩
  · have hbytes : missingBytes Sha256.digest (Table.empty : Store (List UInt8)) [gifImage] = 10 := by
      have hset := Table.sum_set (Table.empty : Table (nameOf Sha256.digest)) gifImage
        (fun item => item.data.length) fun _ h => absurd h List.not_mem_nil
      exact hset.trans rfl
    unfold assertQuota
    rw [if_pos (by rw [hbytes]; decide)]
  · intro earlier hearlier
    exact absurd hearlier List.not_mem_nil

end Delegatus.RuntimeImages
