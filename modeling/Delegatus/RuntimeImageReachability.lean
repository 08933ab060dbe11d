import Delegatus.ChainLoops
import Delegatus.RowGroups
import Delegatus.UnitText

/-!
# Reachability of the images of journal operations

An image stays in the store while a row names it.  The rows of the operation journal are retired
by families: `retiredJournalOperationIds` follows the retry link of each operation to a root,
groups the operations by root, and retires a group whose last attempts were all delivered in time.

Links that loop have no root, and the walk stops where it runs into the loop: the retries of one
loop fall into several groups, and a group is judged by its own last attempts only
(`split_family_retires`).  The images of undelivered messages stay reachable exactly when the
last attempts that run into one loop agree (`images_stay_reachable_iff`).
-/

namespace Delegatus.RuntimeImages

open AliasChains
open JsonText (Text Json units)
open Relation (ReflTransGen)

/-- One proof for each `∈` of texts that a definition decides. -/
local instance lawfulText : LawfulBEq Text := inferInstance

/-! ### The digests of a value -/

/-- What reading a row takes from the platform: `JSON.parse`, where it does not throw, `Date.parse`,
where it gives a time, the value of a number's text where `Number.isSafeInteger` holds, and
`toLowerCase`. -/
structure Readers where
  parseJson : Text → Option Json
  parseDate : Text → Option Int
  safeInteger : Text → Option Int
  toLowerCase : Text → Text

/-- `record[key]`: of two members with one name the last counts. -/
def property (members : List (Text × Json)) (key : String) : Option Json :=
  (members.reverse.find? fun member => member.1 = units key).map Prod.snd

def stringOf : Option Json → Option Text
  | some (.string text) => some text
  | _ => none

def STRUCTURED_IMAGE_MIMES : List Text :=
  ["image/png", "image/jpeg", "image/gif", "image/webp"].map units

/-- `REF_DIGEST.test(text)`. -/
def isDigest (text : Text) : Bool :=
  text.length = 64 && text.all fun u => (97 ≤ u && u ≤ 102) || (48 ≤ u && u ≤ 57)

section

variable (readers : Readers)

def normalizeStructuredImageMime (value : Text) : Option Text :=
  let lower := readers.toLowerCase value
  let mime := if lower = units "image/jpg" then units "image/jpeg" else lower
  if mime ∈ STRUCTURED_IMAGE_MIMES then some mime else none

/-- The moment at which a delivered image reservation became terminal. -/
def deliveredRecordTerminalAt (record : List (Text × Json)) : Option Int :=
  match property record "state", property record "runtimeImages" with
  | some (.string state), some (.array _) =>
    if state = units "delivered" then
      match stringOf (property record "deliveredAt") with
      | some at' => readers.parseDate at'
      | none => (stringOf (property record "createdAt")).bind readers.parseDate
    else none
  | _, _ => none

/-- The digest of a record that is an image ref. -/
def refDigest (record : List (Text × Json)) : List Text :=
  match property record "sha256", property record "mime", property record "bytes" with
  | some (.string sha256), some (.string mime), some (.number bytes) =>
    if isDigest sha256 && (normalizeStructuredImageMime readers mime).isSome &&
        (readers.safeInteger bytes).any (0 < ·) then [sha256]
    else []
  | _, _, _ => []

mutual

def collectDigests (retireBefore : Int) : Json → List Text
  | .array items => collectItems retireBefore items
  | .object record =>
    refDigest readers record ++
      collectEntries retireBefore
        ((deliveredRecordTerminalAt readers record).any (· ≤ retireBefore)) record
  | _ => []

def collectItems (retireBefore : Int) : List Json → List Text
  | [] => []
  | item :: items => collectDigests retireBefore item ++ collectItems retireBefore items

/-- `Object.entries(record)`, less the images of a retired reservation. -/
def collectEntries (retireBefore : Int) (retired : Bool) : List (Text × Json) → List Text
  | [] => []
  | (key, nested) :: rest =>
    -- A member that a later one of its name overwrites is no entry.
    if key ∈ rest.map Prod.fst || (key = units "runtimeImages" && retired) then
      collectEntries retireBefore retired rest
    else collectDigests retireBefore nested ++ collectEntries retireBefore retired rest

end

/-! ### Retired operations -/

def TERMINAL_DELIVERED_RECEIPT_STATUSES : List Text :=
  ["delivered", "turn-started", "steered"].map units

structure JournalOperationReachabilityRow where
  operation_id : Text
  request_json : Text
  receipt_json : Text

def journalReceiptRecord (value : Text) : Option (List (Text × Json)) :=
  match readers.parseJson value with
  | some (.object record) => some record
  | _ => none

def journalOperationRetired (receiptJson : Text) (retireBefore : Int) : Bool :=
  if UnitText.trim receiptJson = [] then false
  else
    match journalReceiptRecord readers receiptJson with
    | none => false
    | some record =>
      (stringOf (property record "status")).any (TERMINAL_DELIVERED_RECEIPT_STATUSES.contains ·) &&
        ((stringOf (property record "at")).bind readers.parseDate).any (· ≤ retireBefore)

variable (rows : List JournalOperationReachabilityRow)

/-- `rowsById.keys()`. -/
def operationIds : List Text := (rows.map (·.operation_id)).eraseDups

/-- `rowsById.get(operationId)`. -/
def rowOf (operationId : Text) : Option JournalOperationReachabilityRow :=
  rows.reverse.find? (·.operation_id = operationId)

/-- `receiptsById.get(operationId)?.retryOfOperationId`, where it is a string. -/
def retryOfOperationId (operationId : Text) : Option Text :=
  ((rowOf rows operationId).bind fun row => journalReceiptRecord readers row.receipt_json).bind
    fun receipt => stringOf (property receipt "retryOfOperationId")

def parentIds : List Text := (operationIds rows).filterMap (retryOfOperationId readers rows)

/-- Where the walk over the retry links stops. -/
def familyRoot (operationId : Text) : Text :=
  (walk (retryOfOperationId readers rows) ((operationIds rows).length + 1) [] operationId).1

/-- `journalOperationRetired(rowsById.get(operationId)?.receipt_json, …)`. -/
def terminallyDelivered (retireBefore : Int) (operationId : Text) : Bool :=
  (rowOf rows operationId).any fun row => journalOperationRetired readers row.receipt_json retireBefore

def retiredMembers (retireBefore : Int) (members : List Text) : List Text :=
  let leaves := members.filter fun operationId => operationId ∉ parentIds readers rows
  if leaves = [] || !(leaves.all (terminallyDelivered readers rows retireBefore)) then []
  else members

def retiredJournalOperationIds (retireBefore : Int) : List Text :=
  (RowGroups.groups (familyRoot readers rows) (operationIds rows)).flatMap fun group =>
    retiredMembers readers rows retireBefore group.rows

/-! ### The journal -/

/-- The tables of the journal: the rows of `operations`, and the texts of all other columns. -/
structure Journal where
  operations : List JournalOperationReachabilityRow
  others : List Text

def textDigests (retireBefore : Int) (raw : Text) : Option (List Text) :=
  if UnitText.trim raw = [] then some []
  else (readers.parseJson raw).map (collectDigests readers retireBefore)

/-- `none` is a text that cannot be parsed; the collection of garbage stops then. -/
def collectJournalDigests (journal : Journal) (retireBefore : Int) : Option (List Text) :=
  let retired := retiredJournalOperationIds readers journal.operations retireBefore
  let kept := journal.operations.filter fun row => row.operation_id ∉ retired
  let texts := kept.flatMap fun row => [row.request_json, row.receipt_json]
  ((texts ++ journal.others).mapM (textDigests readers retireBefore)).map List.flatten

/-! ### Families -/

variable {readers rows}

theorem retryOfOperationId_source (operationId : Text) (h : retryOfOperationId readers rows operationId ≠ none) :
    operationId ∈ operationIds rows := by
  cases hrow : rowOf rows operationId with
  | none =>
    rw [retryOfOperationId, hrow] at h
    exact absurd rfl h
  | some row =>
    have hmem := List.mem_reverse.mp (List.mem_of_find?_eq_some hrow)
    have hid : row.operation_id = operationId := by simpa using List.find?_some hrow
    rw [operationIds, List.mem_eraseDups, ← hid]
    exact List.mem_map_of_mem hmem

variable (readers rows) in
theorem familyRoot_cases (operationId : Text) :
    EndsAt (retryOfOperationId readers rows) operationId (familyRoot readers rows operationId) ∨
      EntersAt (retryOfOperationId readers rows) operationId (familyRoot readers rows operationId) :=
  walk_cases retryOfOperationId_source operationId

theorem familyRoot_of_enters {operationId c : Text}
    (h : EntersAt (retryOfOperationId readers rows) operationId c) : familyRoot readers rows operationId = c := by
  rcases familyRoot_cases readers rows operationId with hend | henter
  · exact absurd hend h.not_ends
  · exact henter.unique h

theorem familyRoot_of_ends {operationId t : Text}
    (h : EndsAt (retryOfOperationId readers rows) operationId t) : familyRoot readers rows operationId = t := by
  rcases familyRoot_cases readers rows operationId with hend | henter
  · exact hend.unique h
  · exact absurd h henter.not_ends

variable (readers rows) in
/-- An operation that no other one retries: the last attempt of its branch. -/
def Unretried (leaf : Text) : Prop := leaf ∈ operationIds rows ∧ leaf ∉ parentIds readers rows

variable (readers rows) in
/-- An operation is retired with its group, which has a last attempt and only delivered ones. -/
theorem mem_retiredJournalOperationIds {retireBefore : Int} {operationId : Text} :
    operationId ∈ retiredJournalOperationIds readers rows retireBefore ↔
      operationId ∈ operationIds rows ∧
        (∃ leaf, Unretried readers rows leaf ∧ familyRoot readers rows leaf = familyRoot readers rows operationId) ∧
        ∀ leaf, Unretried readers rows leaf → familyRoot readers rows leaf = familyRoot readers rows operationId →
          terminallyDelivered readers rows retireBefore leaf = true := by
  have hgrouped := @RowGroups.grouped _ _ _ (familyRoot readers rows) (operationIds rows)
  have hleaves : ∀ root leaf,
      leaf ∈ (RowGroups.group (familyRoot readers rows) (operationIds rows) root).filter
        (fun operationId => operationId ∉ parentIds readers rows) ↔
      Unretried readers rows leaf ∧ familyRoot readers rows leaf = root := by
    intro root leaf
    rw [List.mem_filter, RowGroups.mem_group, Unretried, decide_eq_true_iff]
    tauto
  unfold retiredJournalOperationIds
  rw [List.mem_flatMap]
  constructor
  · rintro ⟨group, hgroup, hmem⟩
    rw [retiredMembers, hgrouped.holds group hgroup] at hmem
    split at hmem
    · exact absurd hmem List.not_mem_nil
    · rename_i hsettled
      rw [Bool.or_eq_true, not_or, decide_eq_true_iff, Bool.not_eq_true, Bool.not_eq_false'] at hsettled
      obtain ⟨hid, hroot⟩ := RowGroups.mem_group.mp hmem
      rw [hroot]
      refine ⟨hid, ?_, ?_⟩
      · obtain ⟨leaf, hleaf⟩ := List.exists_mem_of_ne_nil _ hsettled.1
        exact ⟨leaf, (hleaves group.key leaf).mp hleaf⟩
      · intro leaf hleaf hsame
        exact List.all_eq_true.mp hsettled.2 leaf ((hleaves group.key leaf).mpr ⟨hleaf, hsame⟩)
  · rintro ⟨hid, ⟨leaf, hleaf, hsame⟩, hall⟩
    obtain ⟨group, hgroup, hkey⟩ := List.mem_map.mp (hgrouped.covered operationId hid)
    refine ⟨group, hgroup, ?_⟩
    rw [retiredMembers, hgrouped.holds group hgroup, hkey]
    rw [if_neg]
    · exact RowGroups.mem_group.mpr ⟨hid, rfl⟩
    · rw [Bool.or_eq_true, not_or, decide_eq_true_iff, Bool.not_eq_true, Bool.not_eq_false']
      constructor
      · exact List.ne_nil_of_mem ((hleaves _ leaf).mpr ⟨hleaf, hsame⟩)
      · rw [List.all_eq_true]
        intro other hother
        obtain ⟨hleaf', hsame'⟩ := (hleaves _ other).mp hother
        exact hall other hleaf' hsame'

/-! ### What stays reachable -/

variable (readers rows) in
/-- An operation is retired only when every last attempt of its family was delivered in time. -/
def RetiresDelivered (retireBefore : Int) : Prop :=
  ∀ operationId ∈ retiredJournalOperationIds readers rows retireBefore, ∀ leaf,
    Unretried readers rows leaf → Connected (retryOfOperationId readers rows) operationId leaf →
      terminallyDelivered readers rows retireBefore leaf = true

variable (readers) in
/-- The row names an image. -/
def Names (retireBefore : Int) (row : JournalOperationReachabilityRow) (digest : Text) : Prop :=
  ∃ raw ∈ [row.request_json, row.receipt_json], ∃ digests,
    textDigests readers retireBefore raw = some digests ∧ digest ∈ digests

variable (readers) in
/-- What a row of a family names is collected while a last attempt of the family is not
delivered, or not yet long enough ago. -/
def KeepsImages (journal : Journal) (retireBefore : Int) : Prop :=
  ∀ digests, collectJournalDigests readers journal retireBefore = some digests →
    ∀ row ∈ journal.operations, ∀ leaf, Unretried readers journal.operations leaf →
      Connected (retryOfOperationId readers journal.operations) row.operation_id leaf →
      terminallyDelivered readers journal.operations retireBefore leaf = false →
      ∀ digest, Names readers retireBefore row digest → digest ∈ digests

variable (readers rows) in
/-- Where last attempts run into one loop, and those that enter it at one operation were all
delivered in time, so were those that enter it elsewhere. -/
def LoopsAgree (retireBefore : Int) : Prop :=
  ∀ leaf leaf' c c', Unretried readers rows leaf → Unretried readers rows leaf' →
    EntersAt (retryOfOperationId readers rows) leaf c → EntersAt (retryOfOperationId readers rows) leaf' c' →
    ReflTransGen (Redirects (retryOfOperationId readers rows)) c c' →
    (∀ other, Unretried readers rows other → EntersAt (retryOfOperationId readers rows) other c →
      terminallyDelivered readers rows retireBefore other = true) →
    terminallyDelivered readers rows retireBefore leaf' = true

theorem mem_of_mapM {α β : Type*} {f : α → Option β} {xs : List α} {ys : List β} {x : α} {y : β}
    (h : xs.mapM f = some ys) (hx : x ∈ xs) (hf : f x = some y) : y ∈ ys := by
  induction xs generalizing ys with
  | nil => exact absurd hx List.not_mem_nil
  | cons head tail ih =>
    rw [List.mapM_cons] at h
    obtain ⟨first, hfirst, hrest⟩ := Option.bind_eq_some_iff.mp h
    obtain ⟨rest, htail, hys⟩ := Option.bind_eq_some_iff.mp hrest
    obtain rfl : first :: rest = ys := Option.some.inj hys
    rcases List.mem_cons.mp hx with rfl | hx
    · obtain rfl := Option.some.inj (hf.symm.trans hfirst)
      exact List.mem_cons_self
    · exact List.mem_cons_of_mem _ (ih htail hx)

/-- The row of an operation that is not retired is collected. -/
theorem names_mem {journal : Journal} {retireBefore : Int} {digests : List Text}
    (h : collectJournalDigests readers journal retireBefore = some digests)
    {row : JournalOperationReachabilityRow} (hrow : row ∈ journal.operations)
    (hkept : row.operation_id ∉ retiredJournalOperationIds readers journal.operations retireBefore)
    {digest : Text} (hnames : Names readers retireBefore row digest) : digest ∈ digests := by
  obtain ⟨raw, hraw, found, hfound, hdigest⟩ := hnames
  obtain ⟨lists, hlists, rfl⟩ := Option.map_eq_some_iff.mp h
  have hmem : raw ∈ ((journal.operations.filter fun row => row.operation_id ∉
      retiredJournalOperationIds readers journal.operations retireBefore).flatMap
        fun row => [row.request_json, row.receipt_json]) ++ journal.others := by
    apply List.mem_append_left
    rw [List.mem_flatMap]
    exact ⟨row, List.mem_filter.mpr ⟨hrow, decide_eq_true hkept⟩, hraw⟩
  exact List.mem_flatten.mpr ⟨found, mem_of_mapM hlists hmem hfound, hdigest⟩

theorem keepsImages_of_retiresDelivered {journal : Journal} {retireBefore : Int}
    (h : RetiresDelivered readers journal.operations retireBefore) :
    KeepsImages readers journal retireBefore := by
  intro digests hdigests row hrow leaf hleaf hfamily hpending digest hnames
  apply names_mem hdigests hrow _ hnames
  intro hretired
  rw [h row.operation_id hretired leaf hleaf hfamily] at hpending
  cases hpending

theorem loopsAgree_of_retiresDelivered {retireBefore : Int}
    (h : RetiresDelivered readers rows retireBefore) : LoopsAgree readers rows retireBefore := by
  intro leaf leaf' c c' hleaf hleaf' henter henter' hreach hall
  apply h leaf _ leaf' hleaf'
  · have hto := connected_of_reach (henter.reach.trans hreach)
    exact Relation.EqvGen.trans _ _ _ hto
      (Relation.EqvGen.symm _ _ (connected_of_reach henter'.reach))
  · rw [mem_retiredJournalOperationIds]
    refine ⟨hleaf.1, ⟨leaf, hleaf, rfl⟩, ?_⟩
    intro other hother hroot
    apply hall other hother
    rw [familyRoot_of_enters henter] at hroot
    rcases familyRoot_cases readers rows other with hend | hother'
    · rw [hroot] at hend
      exact absurd (EndsAt.refl hend.2) (EntersAt.here henter.loops).not_ends
    · rwa [hroot] at hother'

theorem retiresDelivered_of_loopsAgree {retireBefore : Int}
    (h : LoopsAgree readers rows retireBefore) : RetiresDelivered readers rows retireBefore := by
  intro operationId hretired leaf hleaf hfamily
  obtain ⟨hid, ⟨last, hlast, hroot⟩, hall⟩ := (mem_retiredJournalOperationIds readers rows).mp hretired
  rcases familyRoot_cases readers rows operationId with hend | henter
  · -- The family ends at one operation, and its group is all of it.
    apply hall leaf hleaf
    exact familyRoot_of_ends (hfamily.ends.mp hend)
  · obtain ⟨c', henter', hreach⟩ := hfamily.enters.1 _ henter
    have hgroup : ∀ other, EntersAt (retryOfOperationId readers rows) other (familyRoot readers rows operationId) →
        familyRoot readers rows other = familyRoot readers rows operationId := fun other h => familyRoot_of_enters h
    have hlast' : EntersAt (retryOfOperationId readers rows) last (familyRoot readers rows operationId) := by
      rcases familyRoot_cases readers rows last with hend | h
      · rw [hroot] at hend
        exact absurd (EndsAt.refl hend.2) (EntersAt.here henter.loops).not_ends
      · rwa [hroot] at h
    exact h last leaf _ c' hlast hleaf hlast' henter' hreach fun other hother h =>
      hall other hother (hgroup other h)

variable (readers) in
/-- **Images of undelivered messages stay reachable exactly while the loops agree.** -/
theorem images_stay_reachable_iff (journal : Journal) (retireBefore : Int) :
    (RetiresDelivered readers journal.operations retireBefore ∧
        KeepsImages readers journal retireBefore) ↔
      LoopsAgree readers journal.operations retireBefore := by
  constructor
  · intro h
    exact loopsAgree_of_retiresDelivered h.1
  · intro h
    have hretires := retiresDelivered_of_loopsAgree h
    exact ⟨hretires, keepsImages_of_retiresDelivered hretires⟩

end

/-! ### Two retries of one loop -/

/-- The text of a receipt, and what it says. -/
def receipt (parent status : String) : Text × Json :=
  (units "\x7b\"retryOfOperationId\":\"" ++ units parent ++ units "\",\"status\":\"" ++ units status ++
      units "\",\"at\":\"2026-07-01\"\x7d",
    .object [(units "retryOfOperationId", .string (units parent)), (units "status", .string (units status)),
      (units "at", .string (units "2026-07-01"))])

def loopedReceipts : List (Text × Json) :=
  [receipt "b" "delivered", receipt "c" "failed", receipt "b" "failed", receipt "c" "pending"]

/-- The operations `b` and `c` retry each other; `a` retries `b` and was delivered, `d` retries
`c` and is pending. -/
def loopedRows : List JournalOperationReachabilityRow :=
  List.zipWith (fun id receipt => ⟨units id, [], receipt.1⟩) ["a", "b", "c", "d"] loopedReceipts

def loopedReaders : Readers where
  parseJson text := (loopedReceipts.find? fun receipt => receipt.1 = text).map Prod.snd
  parseDate text := if text = units "2026-07-01" then some 1782864000000 else none
  safeInteger _ := none
  toLowerCase text := text

theorem operationIds_looped : operationIds loopedRows = ["a", "b", "c", "d"].map units := by decide

theorem retries_looped : (operationIds loopedRows).map (retryOfOperationId loopedReaders loopedRows) =
    ["b", "c", "b", "c"].map fun id => some (units id) := by
  decide +kernel

theorem delivered_looped : [units "a", units "d"].map
    (terminallyDelivered loopedReaders loopedRows 1782864000000) = [true, false] := by
  decide +kernel

/-- Nothing retries the delivered attempt or the pending one. -/
theorem unretried_looped {id : Text} :
    Unretried loopedReaders loopedRows id ↔ id = units "a" ∨ id = units "d" := by
  have hparents : parentIds loopedReaders loopedRows = ["b", "c", "b", "c"].map units := by
    have h := congrArg (List.filterMap fun parent => parent) retries_looped
    rwa [List.filterMap_map, List.filterMap_map] at h
  rw [Unretried, operationIds_looped, hparents]
  constructor
  · rintro ⟨hid, hfree⟩
    simp only [List.map_cons, List.map_nil, List.mem_cons, List.not_mem_nil, or_false] at hid hfree
    rcases hid with hid | hid | hid | hid
    · exact Or.inl hid
    · exact absurd (Or.inl hid) hfree
    · exact absurd (Or.inr (Or.inl hid)) hfree
    · exact Or.inr hid
  · rintro (rfl | rfl) <;> decide

/-- **A retry of one loop is retired while another one is pending.** -/
theorem split_family_retires :
    ¬ ∀ (readers : Readers) (journal : Journal) (retireBefore : Int),
      RetiresDelivered readers journal.operations retireBefore ∧
        KeepsImages readers journal retireBefore := by
  intro h
  have hagree := loopsAgree_of_retiresDelivered (h loopedReaders ⟨loopedRows, []⟩ 1782864000000).1
  have hlinks := retries_looped
  rw [operationIds_looped] at hlinks
  simp only [List.map_cons, List.map_nil, List.cons.injEq, and_true] at hlinks
  obtain ⟨ha, hb, hc, hd⟩ := hlinks
  have hdelivered := delivered_looped
  simp only [List.map_cons, List.map_nil, List.cons.injEq, and_true] at hdelivered
  have hfree : ∀ {id : Text}, Unretried loopedReaders loopedRows id →
      ¬ Loops (retryOfOperationId loopedReaders loopedRows) id := by
    intro id hid hloop
    obtain ⟨child, -, hstep⟩ := Relation.TransGen.tail'_iff.mp hloop
    apply hid.2
    have hsource := retryOfOperationId_source child (by rw [hstep]; exact Option.some_ne_none id)
    exact List.mem_filterMap.mpr ⟨child, hsource, hstep⟩
  have hua := unretried_looped.mpr (Or.inl (Eq.refl (units "a")))
  have hud := unretried_looped.mpr (Or.inr (Eq.refl (units "d")))
  have hloopb : Loops (retryOfOperationId loopedReaders loopedRows) (units "b") :=
    Relation.TransGen.tail (Relation.TransGen.single hb) hc
  have hloopc : Loops (retryOfOperationId loopedReaders loopedRows) (units "c") :=
    Relation.TransGen.tail (Relation.TransGen.single hc) hb
  have hentera := EntersAt.step (hfree hua) ha (EntersAt.here hloopb)
  have henterd := EntersAt.step (hfree hud) hd (EntersAt.here hloopc)
  have hpending := hagree _ _ _ _ hua hud hentera henterd (ReflTransGen.single hb) (by
    intro other hother henter
    rcases unretried_looped.mp hother with rfl | rfl
    · exact hdelivered.1
    · exact absurd (henter.unique henterd) (by decide))
  rw [hdelivered.2] at hpending
  cases hpending

end Delegatus.RuntimeImages
