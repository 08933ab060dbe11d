import Delegatus.Base64
import Delegatus.RuntimeImageReachability
import Delegatus.Table
import Delegatus.Utf8Texts

/-!
# Batches of runtime images

`putMany` stores a batch under the writer lock: it checks the quota, collecting garbage when the
batch does not fit, puts the images one after another, and removes what it published when one of
them fails.  An image is published by the link of its temporary file, and the temporary file is
removed, and the directory synced, in a `finally` block.

`PutOutcome` is what `put` comes to for one image: refused, stored, or published with a failure in the
`finally` block, when nothing takes the blob back any more.
-/

namespace Delegatus.RuntimeImages

open JsonText (Text units)

/-! ### Uploads -/

inductive StructuredImageMime where
  | png
  | jpeg
  | gif
  | webp
deriving DecidableEq

def StructuredImageMime.text : StructuredImageMime → Text
  | .png => units "image/png"
  | .jpeg => units "image/jpeg"
  | .gif => units "image/gif"
  | .webp => units "image/webp"

def MAX_STRUCTURED_IMAGES : Nat := 16

def MAX_STRUCTURED_IMAGE_BYTES : Nat := 10 * 1024 * 1024

def MAX_STRUCTURED_IMAGE_TOTAL_BYTES : Nat := 18 * 1024 * 1024

def MAX_STRUCTURED_IMAGE_ENCODED_BYTES : Nat := 24 * 1024 * 1024

abbrev Bytes := List UInt8

/-- `data.subarray(start, stop).toString("ascii")`, which drops the highest bit of a byte. -/
def ascii (data : Bytes) (start stop : Nat) : List Char :=
  ((data.take stop).drop start).map fun byte => Char.ofNat (byte.toNat % 128)

def hasRuntimeImageSignature (data : Bytes) : StructuredImageMime → Bool
  | .png =>
    24 ≤ data.length && data.take 8 = [0x89, 0x50, 0x4e, 0x47, 0x0d, 0x0a, 0x1a, 0x0a] &&
      ascii data 12 16 = ['I', 'H', 'D', 'R']
  | .jpeg =>
    4 ≤ data.length && data.take 3 = [0xff, 0xd8, 0xff] && data.drop (data.length - 2) = [0xff, 0xd9]
  | .gif =>
    10 ≤ data.length &&
      (ascii data 0 6 = ['G', 'I', 'F', '8', '7', 'a'] || ascii data 0 6 = ['G', 'I', 'F', '8', '9', 'a'])
  | .webp =>
    12 ≤ data.length && ascii data 0 4 = ['R', 'I', 'F', 'F'] && ascii data 8 12 = ['W', 'E', 'B', 'P']

structure RuntimeImageUpload where
  base64 : Text
  mime : Text

/-- A decoded upload; its signature is that of its type. -/
structure Decoded where
  data : Bytes
  mime : StructuredImageMime
  signed : hasRuntimeImageSignature data mime = true

/-- A call of the file system in `put` that may fail. -/
inductive Stage where
  -- The blob is there: it is read, and made private and young again.
  | read
  | chmodStored
  | touch
  -- The temporary file is written and linked to the blob's name.
  | create
  | write
  | fsync
  | close
  | link
  | chmod
  | directoryFsync
  -- The `finally` block.
  | removeTemporary
  | cleanupFsync
deriving DecidableEq

def Stage.cleansUp : Stage → Bool
  | .removeTemporary | .cleanupFsync => true
  | _ => false

inductive PutError where
  | tooManyImages
  | encodingTooLarge
  | unsupportedMime
  | invalidBase64
  | imageTooLarge
  | signatureOfUpload
  | requestTooLarge
  | quotaExceeded
  | missing
  | digestMismatch
  | signatureMismatch
  | failed (stage : Stage)
deriving DecidableEq

def isSextet (u : UInt16) : Bool := (Base64.sextet u).isSome && u ≠ 45 && u ≠ 95

/-- A text of whole groups of `[A-Za-z0-9+/]+={0,2}` that is what its bytes are written as. -/
def decodeBase64 (value : Text) : Option Bytes :=
  let padding := value.dropWhile isSextet
  if value = [] || value.length % 4 ≠ 0 || value.length = padding.length || 2 < padding.length ||
      padding.any (· ≠ Base64.PAD) then none
  else (Base64.atob value).filter fun data => data ≠ [] && Base64.btoa data = value

section

variable (readers : Readers)

def mimeOf (value : Text) : Option StructuredImageMime :=
  (normalizeStructuredImageMime readers value).bind fun mime =>
    [StructuredImageMime.png, .jpeg, .gif, .webp].find? fun known => known.text = mime

def validateRuntimeImageUpload (upload : RuntimeImageUpload) : Except PutError Decoded :=
  match mimeOf readers upload.mime with
  | none => .error .unsupportedMime
  | some mime =>
    match decodeBase64 upload.base64 with
    | none => .error .invalidBase64
    | some data =>
      if MAX_STRUCTURED_IMAGE_BYTES < data.length then .error .imageTooLarge
      else if h : hasRuntimeImageSignature data mime = true then .ok ⟨data, mime, h⟩
      else .error .signatureOfUpload

/-- What `putMany` checks before it takes the lock. -/
def validateUploads (uploads : List RuntimeImageUpload) : Except PutError (List Decoded) :=
  if MAX_STRUCTURED_IMAGES < uploads.length then .error .tooManyImages
  else if MAX_STRUCTURED_IMAGE_ENCODED_BYTES <
      (uploads.map fun upload => Utf8Texts.utf8Length upload.base64).sum then .error .encodingTooLarge
  else
    match uploads.mapM (validateRuntimeImageUpload readers) with
    | .error reason => .error reason
    | .ok decoded =>
      if MAX_STRUCTURED_IMAGE_TOTAL_BYTES < (decoded.map fun item => item.data.length).sum then
        .error .requestTooLarge
      else .ok decoded

end

/-! ### The store -/

section

variable {δ : Type*}

/-- A stored image: its name is the digest with the extension of its type. -/
structure Blob (δ : Type*) where
  sha256 : δ
  mime : StructuredImageMime
  data : Bytes
  mtime : Int

def Blob.name (blob : Blob δ) : δ × StructuredImageMime := (blob.sha256, blob.mime)

/-- The blobs in the private root. -/
abbrev Store (δ : Type*) := Table (Blob.name : Blob δ → δ × StructuredImageMime)

structure StructuredImageRef (δ : Type*) where
  sha256 : δ
  mime : StructuredImageMime
  bytes : Nat

def StructuredImageRef.name (ref : StructuredImageRef δ) : δ × StructuredImageMime := (ref.sha256, ref.mime)

structure StoreLimits where
  maxBytes : Nat
  gcGraceMs : Int

/-- What a call answers: the store afterwards, and the refs or what was thrown. -/
structure Answer (δ : Type*) where
  store : Store δ
  refs : Except PutError (List (StructuredImageRef δ))

/-- The answer of `put`: thrown, or the ref and whether the blob was created. -/
inductive Put (δ : Type*) where
  | thrown (store : Store δ) (reason : PutError)
  | put (store : Store δ) (ref : StructuredImageRef δ) (created : Bool)

variable [DecidableEq δ] (sha256 : Bytes → δ)

def refOf (item : Decoded) : StructuredImageRef δ := ⟨sha256 item.data, item.mime, item.data.length⟩

def storedBytes (store : Store δ) : Nat := (store.rows.map fun blob => blob.data.length).sum

def collectGarbage (limits : StoreLimits) (now : Int) (reachable : List δ) (store : Store δ) : Store δ :=
  store.filter fun blob => blob.sha256 ∈ reachable || now - blob.mtime < limits.gcGraceMs

/-- The file name of an image. -/
def nameOf (item : Decoded) : δ × StructuredImageMime := (refOf sha256 item).name

def noteMissing (store : Store δ) (found : Table (nameOf sha256)) (item : Decoded) : Table (nameOf sha256) :=
  if store.has (nameOf sha256 item) then found else found.set item

/-- `missing` of `assertQuota`, by file name. -/
def missing (store : Store δ) (decoded : List Decoded) : Table (nameOf sha256) :=
  decoded.foldl (noteMissing sha256 store) Table.empty

def missingBytes (store : Store δ) (decoded : List Decoded) : Nat :=
  ((missing sha256 store decoded).rows.map fun item => item.data.length).sum

/-- The store after the check, which may collect garbage, and whether the batch fits into it. -/
def assertQuota (limits : StoreLimits) (now : Int) (reachable : List δ) (store : Store δ)
    (decoded : List Decoded) : Store δ × Bool :=
  if storedBytes store + missingBytes sha256 store decoded ≤ limits.maxBytes then (store, true)
  else
    let collected := collectGarbage limits now (reachable ++ decoded.map fun item => sha256 item.data) store
    (collected, storedBytes collected + missingBytes sha256 collected decoded ≤ limits.maxBytes)

def readFromRoot (store : Store δ) (ref : StructuredImageRef δ) : Except PutError Bytes :=
  match store.get? ref.name with
  | none => .error .missing
  | some blob =>
    if blob.data.length ≠ ref.bytes ∨ sha256 blob.data ≠ ref.sha256 then .error .digestMismatch
    else if hasRuntimeImageSignature blob.data ref.mime = false then .error .signatureMismatch
    else .ok blob.data

/-- `put` of one image, where the call named by `fault` fails if it is reached. -/
def put (fault : Option Stage) (now : Int) (store : Store δ) (item : Decoded) : Put δ :=
  let ref := refOf sha256 item
  match store.get? ref.name with
  | some blob =>
    match fault, readFromRoot sha256 store ref with
    | some .read, _ => .thrown store (.failed .read)
    | _, .error reason => .thrown store reason
    | some .chmodStored, .ok _ => .thrown store (.failed .chmodStored)
    | some .touch, .ok _ => .thrown store (.failed .touch)
    | _, .ok _ => .put (store.set { blob with mtime := now }) ref false
  | none =>
    let published := store.set ⟨ref.sha256, ref.mime, item.data, now⟩
    match fault with
    | some .create | some .write | some .fsync | some .close | some .link =>
      -- Nothing is published yet.
      .thrown store (.failed (fault.getD .link))
    | some .chmod | some .directoryFsync =>
      -- The `catch` block takes the blob back.
      .thrown (published.delete ref.name) (.failed (fault.getD .chmod))
    | some .removeTemporary | some .cleanupFsync => .thrown published (.failed (fault.getD .cleanupFsync))
    | _ => .put published ref true

/-- The failing call, if it is one of the image with this index. -/
def faultAt (fault : Option (Nat × Stage)) (index : Nat) : Option Stage :=
  fault.bind fun failing => if failing.1 = index then some failing.2 else none

/-- The loop of `putMany` over the images that are left, with the names that it published and the
refs so far. -/
def putAll (fault : Option (Nat × Stage)) (now : Int) :
    Nat → List Decoded → Store δ → List (δ × StructuredImageMime) → List (StructuredImageRef δ) → Answer δ
  | _, [], store, _, refs => ⟨store, .ok refs⟩
  | index, item :: rest, store, published, refs =>
    match put sha256 (faultAt fault index) now store item with
    | .thrown store reason => ⟨published.foldl Table.delete store, .error reason⟩
    | .put store ref created =>
      putAll fault now (index + 1) rest store (if created then published ++ [ref.name] else published)
        (refs ++ [ref])

/-- `putMany` under the writer lock, by one clock reading; `reachable` is what `reachableDigests`
answers. -/
def putMany (readers : Readers) (limits : StoreLimits) (fault : Option (Nat × Stage)) (now : Int)
    (reachable : List δ) (store : Store δ) (uploads : List RuntimeImageUpload) : Answer δ :=
  match validateUploads readers uploads with
  | .error reason => ⟨store, .error reason⟩
  | .ok decoded =>
    let admitted := assertQuota sha256 limits now reachable store decoded
    if admitted.2 then putAll sha256 fault now 0 decoded admitted.1 [] []
    else ⟨admitted.1, .error .quotaExceeded⟩

/-! ### What a call promises -/

/-- The bytes under a file name. -/
def content (store : Store δ) (name : δ × StructuredImageMime) : Option Bytes :=
  (store.get? name).map Blob.data

/-- What is stored under the name of an image is the image. -/
def Agrees (store : Store δ) (item : Decoded) : Prop :=
  ∀ data, content store (nameOf sha256 item) = some data → data = item.data

/-- The failing call cleans up after the publication of an image that is not there yet. -/
def Unclean (fault : Option Stage) (store : Store δ) (item : Decoded) : Prop :=
  fault.any Stage.cleansUp = true ∧ content store (nameOf sha256 item) = none

/-- The call that fails cleans up after an image which neither the store nor the batch before it
has, and the images before it can be stored. -/
def Lingers (fault : Option (Nat × Stage)) (index : Nat) (store : Store δ) (rest : List Decoded) : Prop :=
  ∃ k item stage, fault = some (index + k, stage) ∧ stage.cleansUp = true ∧ rest[k]? = some item ∧
    content store (nameOf sha256 item) = none ∧
    ∀ earlier ∈ rest.take k, nameOf sha256 earlier ≠ nameOf sha256 item ∧ Agrees sha256 store earlier

/-- The batch is valid and fits, and the failing call cleans up after a new image of it. -/
def LeavesBlob (readers : Readers) (limits : StoreLimits) (fault : Option (Nat × Stage)) (now : Int)
    (reachable : List δ) (store : Store δ) (uploads : List RuntimeImageUpload) : Prop :=
  ∃ decoded, validateUploads readers uploads = .ok decoded ∧
    (assertQuota sha256 limits now reachable store decoded).2 = true ∧
    Lingers sha256 fault 0 store decoded

/-- The batch has an image of this name. -/
def InBatch (readers : Readers) (uploads : List RuntimeImageUpload) (name : δ × StructuredImageMime) : Prop :=
  ∃ upload ∈ uploads, ∃ item, validateRuntimeImageUpload readers upload = .ok item ∧
    nameOf sha256 item = name

structure AllOrNothing (readers : Readers) (limits : StoreLimits) (now : Int) (reachable : List δ)
    (store : Store δ) (uploads : List RuntimeImageUpload) (answer : Answer δ) : Prop where
  /-- Every returned ref reads back the bytes of its upload. -/
  readsBack : ∀ refs, answer.refs = .ok refs →
    List.Forall₂ (fun upload ref => ∃ data, decodeBase64 upload.base64 = some data ∧
      readFromRoot sha256 answer.store ref = .ok data) uploads refs
  within : ∀ refs, answer.refs = .ok refs → storedBytes answer.store ≤ limits.maxBytes
  /-- After an error no blob is present that was absent. -/
  nothing : ∀ reason, answer.refs = .error reason →
    ∀ name, content answer.store name ≠ none → content store name ≠ none
  kept : ∀ blob ∈ store.rows,
    (blob.sha256 ∈ reachable ∨ InBatch sha256 readers uploads blob.name ∨
      now - blob.mtime < limits.gcGraceMs) → content answer.store blob.name = some blob.data

/-- The bytes at hand: those of the blobs and those of the uploads. -/
def bytesAtHand (store : Store δ) (uploads : List RuntimeImageUpload) : List Bytes :=
  store.rows.map Blob.data ++ uploads.filterMap fun upload => decodeBase64 upload.base64

/-- No two of the bytes at hand have one digest. -/
def CollisionFree (store : Store δ) (uploads : List RuntimeImageUpload) : Prop :=
  ∀ first ∈ bytesAtHand store uploads, ∀ second ∈ bytesAtHand store uploads,
    sha256 first = sha256 second → first = second

/-! ### Storing one image -/

variable {sha256}

theorem content_set (store : Store δ) (blob : Blob δ) :
    content (store.set blob) = Function.update (content store) blob.name (some blob.data) := by
  funext name
  unfold content
  rw [Table.get?_set]
  by_cases h : name = blob.name
  · rw [if_pos h, h, Function.update_self, Option.map_some]
  · rw [if_neg h, Function.update_of_ne h]

theorem content_delete (store : Store δ) (gone name : δ × StructuredImageMime) :
    content (store.delete gone) name = if name = gone then none else content store name := by
  unfold content
  rw [Table.get?_delete]
  by_cases h : name = gone
  · simp [h]
  · simp [h]

theorem content_eq_none {store : Store δ} {name : δ × StructuredImageMime} :
    content store name = none ↔ store.get? name = none := by
  unfold content
  exact Option.map_eq_none_iff

theorem content_of_mem {store : Store δ} {blob : Blob δ} (h : blob ∈ store.rows) :
    content store blob.name = some blob.data := by
  unfold content
  rw [Table.get?_eq_some.mpr ⟨h, rfl⟩, Option.map_some]

theorem mem_of_content {store : Store δ} {name : δ × StructuredImageMime} {data : Bytes}
    (h : content store name = some data) : ∃ blob ∈ store.rows, blob.name = name ∧ blob.data = data := by
  unfold content at h
  obtain ⟨blob, hget, hdata⟩ := Option.map_eq_some_iff.mp h
  obtain ⟨hmem, hname⟩ := Table.get?_eq_some.mp hget
  exact ⟨blob, hmem, hname, hdata⟩

/-- An image stored under its name is read back. -/
theorem readFromRoot_refOf {store : Store δ} {item : Decoded}
    (h : content store (nameOf sha256 item) = some item.data) :
    readFromRoot sha256 store (refOf sha256 item) = .ok item.data := by
  obtain ⟨blob, hget, hdata⟩ := Option.map_eq_some_iff.mp h
  have hname : store.get? (refOf sha256 item).name = some blob := hget
  have hsigned := item.signed
  unfold readFromRoot
  rw [hname]
  simp [hdata, refOf, hsigned]

/-- What is read for an image has its digest. -/
theorem digest_of_readFromRoot {store : Store δ} {item : Decoded} {data : Bytes}
    (h : readFromRoot sha256 store (refOf sha256 item) = .ok data) :
    content store (nameOf sha256 item) = some data ∧ sha256 data = sha256 item.data := by
  unfold readFromRoot at h
  cases hget : store.get? (refOf sha256 item).name with
  | none => simp [hget] at h
  | some blob =>
    simp only [hget] at h
    split_ifs at h with hdigest hsigned
    obtain ⟨-, hsame⟩ := not_or.mp hdigest
    have hdata : blob.data = data := by simpa using h
    constructor
    · unfold content
      rw [show store.get? (nameOf sha256 item) = some blob from hget, Option.map_some, hdata]
    · rw [← hdata]
      exact not_not.mp hsame

/-- No blob has the digest of the image, but with other bytes. -/
def Apart (sha256 : Bytes → δ) (store : Store δ) (item : Decoded) : Prop :=
  ∀ name data, content store name = some data → sha256 data = sha256 item.data → data = item.data

theorem storedBytes_set {store : Store δ} {blob : Blob δ}
    (h : ∀ data, content store blob.name = some data → data = blob.data) :
    storedBytes (store.set blob) =
      storedBytes store + if content store blob.name = none then blob.data.length else 0 := by
  unfold storedBytes
  rw [Table.sum_set store blob (fun held => held.data.length) ?_]
  · cases hget : store.get? blob.name with
    | none =>
      have hnone : content store blob.name = none := content_eq_none.mpr hget
      have hhas : store.has blob.name = false := by
        rw [← Bool.not_eq_true, ← Table.get?_isSome, hget]
        simp
      simp [hnone, hhas]
    | some held =>
      have hsome : content store blob.name ≠ none := by
        rw [Ne, content_eq_none, hget]
        simp
      have hhas : store.has blob.name = true := (Table.get?_isSome store blob.name).mp (by simp [hget])
      simp [hsome, hhas]
  · intro old hold hname
    have hdata := h old.data (hname ▸ content_of_mem hold)
    simp [hdata]

/-- What `put` comes to. -/
inductive PutOutcome (sha256 : Bytes → δ) (fault : Option Stage) (store : Store δ) (item : Decoded) :
    Put δ → Prop
  | refused {after : Store δ} {reason : PutError} (hsame : content after = content store)
      (hclean : ¬ Unclean sha256 fault store item) (hcause : fault = none → ¬ Agrees sha256 store item) :
      PutOutcome sha256 fault store item (.thrown after reason)
  | left {after : Store δ} {reason : PutError} (hunclean : Unclean sha256 fault store item)
      (hcontent : content after =
        Function.update (content store) (nameOf sha256 item) (some item.data)) :
      PutOutcome sha256 fault store item (.thrown after reason)
  | stored {after : Store δ} {created : Bool} (hclean : ¬ Unclean sha256 fault store item)
      (hsound : Agrees sha256 store item)
      (hcreated : created = true ↔ content store (nameOf sha256 item) = none)
      (hcontent : content after =
        Function.update (content store) (nameOf sha256 item) (some item.data))
      (hbytes : storedBytes after = storedBytes store +
        if content store (nameOf sha256 item) = none then item.data.length else 0) :
      PutOutcome sha256 fault store item (.put after (refOf sha256 item) created)

/-- A stored image is put by a look at its blob. -/
theorem put_present {fault : Option Stage} {now : Int} {store : Store δ} {item : Decoded} {blob : Blob δ}
    (hget : store.get? (nameOf sha256 item) = some blob) (hapart : Apart sha256 store item) :
    PutOutcome sha256 fault store item (put sha256 fault now store item) := by
  have hcontent : content store (nameOf sha256 item) = some blob.data := by
    unfold content
    rw [hget, Option.map_some]
  have hsome : content store (nameOf sha256 item) ≠ none := by simp [hcontent]
  have hclean : ¬ Unclean sha256 fault store item := fun h => hsome h.2
  have hname : blob.name = nameOf sha256 item := (Table.get?_eq_some.mp hget).2
  unfold put
  dsimp only
  rw [show store.get? (refOf sha256 item).name = some blob from hget]
  dsimp only
  cases hread : readFromRoot sha256 store (refOf sha256 item) with
  | error reason =>
    -- A blob with other bytes than its name says is refused.
    have hunsound : ¬ Agrees sha256 store item := by
      intro hsound
      have hdata := hsound blob.data hcontent
      rw [readFromRoot_refOf (hdata ▸ hcontent)] at hread
      exact absurd hread nofun
    rcases fault with _ | stage
    · exact .refused rfl hclean fun _ => hunsound
    · cases stage <;> exact .refused rfl hclean fun _ => hunsound
  | ok data =>
    obtain ⟨hdata, hdigest⟩ := digest_of_readFromRoot hread
    have hitem : data = item.data := hapart _ data hdata hdigest
    have hheld : blob.data = item.data := by
      rw [hcontent] at hdata
      exact (Option.some.inj hdata).trans hitem
    have hsound : Agrees sha256 store item := by
      intro other hother
      rw [hcontent] at hother
      exact (Option.some.inj hother).symm.trans hheld
    have hstored : PutOutcome sha256 fault store item
        (.put (store.set { blob with mtime := now }) (refOf sha256 item) false) := by
      have hnew : ({ blob with mtime := now } : Blob δ).name = nameOf sha256 item := hname
      refine .stored hclean hsound (by simp [hsome]) ?_ ?_
      · rw [content_set, hnew, ← hheld]
      · rw [storedBytes_set, hnew, if_neg hsome, if_neg hsome]
        intro other hother
        rw [hnew] at hother
        exact (hsound other hother).trans hheld.symm
    rcases fault with _ | stage
    · exact hstored
    · cases stage with
      | read => exact .refused rfl hclean nofun
      | chmodStored => exact .refused rfl hclean nofun
      | touch => exact .refused rfl hclean nofun
      | create => exact hstored
      | write => exact hstored
      | fsync => exact hstored
      | close => exact hstored
      | link => exact hstored
      | chmod => exact hstored
      | directoryFsync => exact hstored
      | removeTemporary => exact hstored
      | cleanupFsync => exact hstored

/-- A new image is published; a failure takes it back unless it is one of the cleanup. -/
theorem put_absent {fault : Option Stage} {now : Int} {store : Store δ} {item : Decoded}
    (hget : store.get? (nameOf sha256 item) = none) :
    PutOutcome sha256 fault store item (put sha256 fault now store item) := by
  have hnone : content store (nameOf sha256 item) = none := content_eq_none.mpr hget
  have hsound : Agrees sha256 store item := by
    intro data hdata
    rw [hnone] at hdata
    exact absurd hdata nofun
  let blob : Blob δ := ⟨sha256 item.data, item.mime, item.data, now⟩
  have hcontent : content (store.set blob) =
      Function.update (content store) (nameOf sha256 item) (some item.data) := content_set store blob
  have hback : content ((store.set blob).delete (nameOf sha256 item)) = content store := by
    funext name
    rw [content_delete, hcontent]
    by_cases h : name = nameOf sha256 item
    · rw [if_pos h, h, hnone]
    · rw [if_neg h, Function.update_of_ne h]
  have hbytes := @storedBytes_set _ _ store blob fun data hdata => hsound data hdata
  unfold put
  dsimp only
  rw [show store.get? (refOf sha256 item).name = none from hget]
  dsimp only
  have hplain : ∀ {stage : Stage}, stage.cleansUp = false → ¬ Unclean sha256 (some stage) store item := by
    intro stage hstage h
    have hup : stage.cleansUp = true := by simpa using h.1
    rw [hstage] at hup
    exact absurd hup nofun
  have hstored : ∀ {fault : Option Stage}, ¬ Unclean sha256 fault store item →
      PutOutcome sha256 fault store item (.put (store.set blob) (refOf sha256 item) true) :=
    fun hclean => .stored hclean hsound (by simp [hnone]) hcontent hbytes
  rcases fault with _ | stage
  · exact hstored fun h => absurd h.1 (by simp)
  · cases stage with
    | read => exact hstored (hplain rfl)
    | chmodStored => exact hstored (hplain rfl)
    | touch => exact hstored (hplain rfl)
    | create => exact .refused rfl (hplain rfl) nofun
    | write => exact .refused rfl (hplain rfl) nofun
    | fsync => exact .refused rfl (hplain rfl) nofun
    | close => exact .refused rfl (hplain rfl) nofun
    | link => exact .refused rfl (hplain rfl) nofun
    | chmod => exact .refused hback (hplain rfl) nofun
    | directoryFsync => exact .refused hback (hplain rfl) nofun
    | removeTemporary => exact .left ⟨rfl, hnone⟩ hcontent
    | cleanupFsync => exact .left ⟨rfl, hnone⟩ hcontent

theorem put_outcome {fault : Option Stage} {now : Int} {store : Store δ} {item : Decoded}
    (hapart : Apart sha256 store item) :
    PutOutcome sha256 fault store item (put sha256 fault now store item) := by
  cases hget : store.get? (nameOf sha256 item) with
  | none => exact put_absent hget
  | some blob => exact put_present hget hapart

end

end Delegatus.RuntimeImages
