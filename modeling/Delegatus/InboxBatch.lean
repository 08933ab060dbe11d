import Delegatus.Utf8Texts
import Delegatus.UnitText
import Delegatus.Entries
import Mathlib.Data.List.Sort

/-!
# Inbox batches

Messages that arrive while an agent works are handed over as one.  `composeBatch` chooses a prefix of
the waiting members, operator messages first, by rendering each longer choice and stopping at the first
that exceeds a bound.  The rendered text holds a part for each member behind a header, and the entry
records where each part lies: `batchPartContent` reads a member's content back from there, and
`verifyBatchMembership` accepts an operation only where every part of the entry checks.

`Digests` stands for the hashes and for the reading of dates.
-/

namespace Delegatus.InboxBatch

open JsonText UnitText Utf8Texts

inductive StructuredImageMime where
  | png | jpeg | gif | webp
  deriving DecidableEq

structure StructuredImageRef where
  sha256 : String
  mime : StructuredImageMime
  bytes : Nat
  deriving DecidableEq

structure StructuredMessageContent where
  text : Text
  images : List StructuredImageRef
  deriving DecidableEq

inductive OriginKind where
  | operator | agent
  deriving DecidableEq

structure MessageOrigin where
  kind : OriginKind
  role : Option Text := none
  project : Option String := none
  conversationId : Option String := none
  channel : Option String := none

structure InboxBatchPart where
  operationId : String
  contentDigest : String
  admittedAt : String
  headerStart : Nat
  textStart : Nat
  textEnd : Nat
  imageStart : Nat
  imageEnd : Nat
  origin : Option MessageOrigin
  selectedContext : Option Text
  referenceTo : Option String
  escaped : Bool

/-- `runtime` and `selectedContext` are carried along as their texts. -/
structure QueueEntry where
  parts : Option (List InboxBatchPart) := none
  id : String
  content : Option StructuredMessageContent := none
  contentDigest : Option String := none
  text : Option Text := none
  images : Option (List StructuredImageRef) := none
  expectedTurnId : Option (Option String) := none
  runtime : Option Text := none
  selectedContext : Option Text := none
  origin : Option MessageOrigin := none

structure NormalizedQueueEntry where
  parts : Option (List InboxBatchPart)
  id : String
  content : StructuredMessageContent
  contentDigest : String
  expectedTurnId : Option (Option String)
  runtime : Option Text
  selectedContext : Option Text
  origin : Option MessageOrigin

structure InboxMember where
  entry : QueueEntry
  admittedAt : String
  eventSeq : Nat
  priority : Bool

/-- The digest of a content, the batch id of operations with their digests, and the ISO text of a date
that parses. -/
structure Digests where
  structuredContentDigest : StructuredMessageContent → String
  inboxBatchId : List (String × String) → String
  isoDate : String → Option Text

def MAX_STRUCTURED_TEXT_BYTES : Nat := 32000

def MAX_SAFE_INTEGER : Nat := 9007199254740991

variable (digests : Digests)

/-- A content with its digest; a blank text without images is refused. -/
def structuredContent (text : Text) (images : List StructuredImageRef) :
    Except String (StructuredMessageContent × String) :=
  if (trim text).isEmpty && images.isEmpty then .error "message content is required"
  else .ok ({ text := text, images := images },
    digests.structuredContentDigest { text := text, images := images })

/-- `entry.content?.text ?? entry.text ?? ""` and the images alike. -/
def QueueEntry.given (entry : QueueEntry) : StructuredMessageContent :=
  { text := ((entry.content.map (·.text)).or entry.text).getD []
    images := ((entry.content.map (·.images)).or entry.images).getD [] }

def normalizeQueueEntry (entry : QueueEntry) : Except String NormalizedQueueEntry := do
  let (content, contentDigest) ← structuredContent digests entry.given.text entry.given.images
  if entry.contentDigest.any fun recorded => recorded ≠ "" && recorded ≠ contentDigest then
    .error "queue entry content digest mismatch"
  else
    .ok {
      parts := entry.parts
      id := entry.id
      content := content
      contentDigest := contentDigest
      expectedTurnId := entry.expectedTurnId
      runtime := entry.runtime
      selectedContext := entry.selectedContext
      origin := entry.origin }

/-! ### Rendering -/

/-- A number in a text. -/
def decimal (n : Nat) : Text := (Nat.toDigits 10 n).map fun c => UInt16.ofNat c.toNat

/-- `[a-zA-Z0-9_-]`. -/
def isTokenUnit (u : UInt16) : Bool :=
  (97 ≤ u && u ≤ 122) || (65 ≤ u && u ≤ 90) || (48 ≤ u && u ≤ 57) || u = 95 || u = 45

def author (origin : Option MessageOrigin) : Text :=
  match origin with
  | none => units "Delegatus"
  | some { kind := .operator, .. } => units "the operator"
  | some { kind := .agent, role := role, .. } =>
      match role with
      | some (u :: rest) => units "agent " ++ (u :: rest).filter isTokenUnit
      | _ => units "Delegatus"

/-- `/^\[\d+\/\d+ · from /`. -/
def imitatesHeader : Text → Bool
  | 91 :: rest =>
      !(rest.takeWhile isDigit).isEmpty &&
      match rest.dropWhile isDigit with
      | 47 :: tail =>
          !(tail.takeWhile isDigit).isEmpty && (units " · from ").isPrefixOf (tail.dropWhile isDigit)
      | _ => false
  | _ => false

def intro (count held : Nat) : Text :=
  units "[Delegatus] " ++ decimal count ++
    units " messages arrived while you were working. They follow in the order they were sent." ++
    (if held = 0 then [] else units " " ++ decimal held ++ units " older messages are held for your next turn.") ++
    units "\n"

def sentText (admittedAt : String) : Text :=
  match digests.isoDate admittedAt with
  | some iso => (iso.drop 11).take 8 ++ units " UTC"
  | none => units "unknown time"

def header (index count : Nat) (entry : NormalizedQueueEntry) (admittedAt : String) : Text :=
  units "[" ++ decimal (index + 1) ++ units "/" ++ decimal count ++ units " · from " ++
    author entry.origin ++ units " · sent " ++ sentText digests admittedAt ++ units "]\n"

/-- What makes two members copies of one message. -/
structure CopyKey where
  contentDigest : String
  kind : Option OriginKind
  role : Option Text
  project : Option String
  conversationId : Option String
  channel : Option String
  deriving DecidableEq

def copyKey (entry : NormalizedQueueEntry) : CopyKey :=
  { contentDigest := entry.contentDigest
    kind := entry.origin.map (·.kind)
    role := entry.origin.bind (·.role)
    project := entry.origin.bind (·.project)
    conversationId := entry.origin.bind (·.conversationId)
    channel := entry.origin.bind (·.channel) }

/-- The locals of `render`. -/
structure Rendering where
  text : Text
  images : List StructuredImageRef
  parts : List InboxBatchPart
  copies : Entries CopyKey Nat

/-- The text of a part, behind its header. -/
def partText (count : Nat) (duplicate : Option Nat) (entry : NormalizedQueueEntry) : Text :=
  match duplicate with
  | some first => units "same text as " ++ decimal (first + 1) ++ units "/" ++ decimal count
  | none => (if imitatesHeader entry.content.text then units "> " else []) ++ entry.content.text

/-- One turn of the loop; the member's index is the number of parts before it. -/
def Rendering.add (count : Nat) (out : Rendering) (member : InboxMember) (entry : NormalizedQueueEntry) :
    Rendering :=
  let index := out.parts.length
  let duplicate := out.copies.at? (copyKey entry)
  let copies := if duplicate.isNone then out.copies.set (copyKey entry, index) else out.copies
  let headerStart := out.text.length
  let text := out.text ++ header digests index count entry member.admittedAt
  let textStart := text.length
  let text := text ++ partText count duplicate entry
  let textEnd := text.length
  let text := text ++ units "\n"
  let imageStart := out.images.length
  let images := if duplicate.isNone then out.images ++ entry.content.images else out.images
  let part : InboxBatchPart :=
    { operationId := entry.id
      contentDigest := entry.contentDigest
      admittedAt := member.admittedAt
      headerStart := headerStart
      textStart := textStart
      textEnd := textEnd
      imageStart := imageStart
      imageEnd := images.length
      origin := entry.origin
      selectedContext := entry.selectedContext
      referenceTo := duplicate.bind fun first => (out.parts[first]?).map (·.operationId)
      escaped := imitatesHeader entry.content.text }
  { text := text, images := images, parts := out.parts ++ [part], copies := copies }

/-- The members with their normalized entries. -/
def normalizeMembers (members : List InboxMember) : Except String (List (InboxMember × NormalizedQueueEntry)) :=
  members.mapM fun member => (normalizeQueueEntry digests member.entry).map fun entry => (member, entry)

def renderMembers (held : Nat) (members : List (InboxMember × NormalizedQueueEntry)) : Rendering :=
  members.foldl (fun out member => out.add digests members.length member.1 member.2)
    { text := intro members.length held, images := [], parts := [], copies := Table.empty }

def render (members : List InboxMember) (held : Nat) : Except String QueueEntry := do
  let normalized ← normalizeMembers digests members
  let out := renderMembers digests held normalized
  let (content, contentDigest) ← structuredContent digests out.text out.images
  .ok {
    id := digests.inboxBatchId (out.parts.map fun part => (part.operationId, part.contentDigest))
    content := some content
    contentDigest := some contentDigest
    expectedTurnId := some none
    parts := some out.parts
    runtime := members.head?.bind (·.entry.runtime) }

/-! ### Composing -/

def sortMembers (members : List InboxMember) : List InboxMember :=
  members.insertionSort fun a b => a.eventSeq ≤ b.eventSeq

/-- `ordinaryPrefix` at the last index of the event: the ordinary members before it. -/
def ordinaryBefore (ordered : List InboxMember) (eventSeq : Nat) : Nat :=
  let endIndex := ordered.length - 1 - (ordered.reverse.findIdx fun member => member.eventSeq = eventSeq)
  (ordered.take endIndex).countP fun member => !member.priority

/-- The ordinary members that a choice passes over. -/
def heldBy (ordered proposed : List InboxMember) : Nat :=
  match proposed.getLast? with
  | some last =>
      ordinaryBefore ordered last.eventSeq -
        proposed.countP fun member => !member.priority && member.eventSeq < last.eventSeq
  | none => 0

/-- A rendered entry beyond a bound, with 256 bytes reserved for the intro. -/
def exceeds (entry : QueueEntry) : Bool :=
  let content := entry.content.getD { text := [], images := [] }
  let headerStart := (entry.parts.bind fun parts => parts.head?.map (·.headerStart)).getD 0
  let introBytes := utf8Length (content.text.take headerStart)
  let bytes := utf8Length content.text + (256 - introBytes)
  decide (bytes > MAX_STRUCTURED_TEXT_BYTES) || decide (content.images.length > 16) ||
    decide ((content.images.map (·.bytes)).sum > 18 * 1024 * 1024)

/-- The loop over the candidates: each longer choice is rendered. -/
def choose (ordered selected : List InboxMember) : List InboxMember → Except String (List InboxMember)
  | [] => .ok selected
  | member :: rest => do
      let proposed := sortMembers (selected ++ [member])
      let entry ← render digests proposed (heldBy ordered proposed)
      if exceeds entry then .ok selected else choose ordered (selected ++ [member]) rest

structure ComposedBatch where
  entry : QueueEntry
  members : List InboxMember
  remaining : List InboxMember

def priorityFirst (ordered : List InboxMember) : List InboxMember :=
  (ordered.filter fun member => member.priority) ++ ordered.filter fun member => !member.priority

/-- The chosen entry alone, as it would be sent without a batch. -/
def NormalizedQueueEntry.alone (entry : NormalizedQueueEntry) : QueueEntry :=
  { parts := entry.parts
    id := entry.id
    content := some entry.content
    contentDigest := some entry.contentDigest
    expectedTurnId := some none
    runtime := entry.runtime
    selectedContext := entry.selectedContext
    origin := entry.origin }

def composeBatch (input : List InboxMember) (heldOrdinaryCount : Nat) : Except String ComposedBatch :=
  if input.isEmpty then .error "inbox batch needs a member"
  else if (input.zip input.tail).any fun pair => pair.2.eventSeq < pair.1.eventSeq then
    .error "inbox members must follow admission order"
  else do
    let candidates := priorityFirst input
    let chosen ← choose digests input [] candidates
    let selected := sortMembers (if chosen.isEmpty then candidates.take 1 else chosen)
    -- A member is itself wherever its operation id occurs.
    let remaining := input.filter fun member => !selected.any fun other => other.entry.id = member.entry.id
    let held := match selected.getLast? with
      | some last => remaining.countP fun member => !member.priority && member.eventSeq < last.eventSeq
      | none => 0
    match selected with
    | [member] => do
        let entry ← normalizeQueueEntry digests member.entry
        .ok { entry := entry.alone, members := selected, remaining := remaining }
    | _ => do
        let entry ← render digests selected (max held heldOrdinaryCount)
        .ok { entry := entry, members := selected, remaining := remaining }

/-! ### Reading a batch -/

/-- `text.slice(start, end)`. -/
def slice {α : Type*} (items : List α) (first last : Nat) : List α := (items.take last).drop first

/-- The content that a part holds itself. -/
def ownContent (content : StructuredMessageContent) (part : InboxBatchPart) : StructuredMessageContent :=
  let text := slice content.text part.textStart part.textEnd
  { text := if part.escaped then text.drop 2 else text
    images := slice content.images part.imageStart part.imageEnd }

/-- `part.referenceTo` where it is not empty. -/
def InboxBatchPart.reference (part : InboxBatchPart) : Option String :=
  part.referenceTo.filter fun id => id ≠ ""

/-- The content of the part at an index.  A part that is referred to is none that refers. -/
def batchPartContent (content : StructuredMessageContent) (parts : List InboxBatchPart) (index : Nat)
    (part : InboxBatchPart) : Option StructuredMessageContent :=
  match part.reference with
  | some id =>
      ((parts.take index).find? fun previous =>
        decide (previous.operationId = id) && previous.reference.isNone).map (ownContent content)
  | none => some (ownContent content part)

/-- The loop of `verifyBatchMembership`: the images up to which the parts check, if they all do. -/
def checkParts (content : StructuredMessageContent) (parts : List InboxBatchPart)
    (index textEnd imageEnd : Nat) : List InboxBatchPart → Option Nat
  | [] => some imageEnd
  | part :: rest =>
      if !([part.headerStart, part.textStart, part.textEnd, part.imageStart, part.imageEnd].all
            fun n => decide (n ≤ MAX_SAFE_INTEGER))
          || decide (part.headerStart < textEnd) || decide (part.textStart < part.headerStart)
          || decide (part.textEnd < part.textStart) || decide (part.textEnd > content.text.length)
          || decide (part.imageStart ≠ imageEnd) || decide (part.imageEnd < part.imageStart)
          || decide (part.imageEnd > content.images.length)
          || decide ((batchPartContent content parts index part).map digests.structuredContentDigest
              ≠ some part.contentDigest) then none
      else checkParts content parts (index + 1) part.textEnd part.imageEnd rest

def verifyBatchMembership (entry : QueueEntry) (operationId : String) (digest : Option String) : Bool :=
  match entry.parts, entry.content, digest.filter (fun digest => digest ≠ "") with
  | some parts, some content, some digest =>
      !decide (parts.length < 2) && !decide (parts.length > 1000) &&
      decide (entry.id = digests.inboxBatchId (parts.map fun part => (part.operationId, part.contentDigest))) &&
      decide (entry.contentDigest = some (digests.structuredContentDigest content)) &&
      decide ((parts.map (·.operationId)).eraseDups.length = parts.length) &&
      (checkParts digests content parts 0 0 0 parts == some content.images.length) &&
      parts.any fun part => decide (part.operationId = operationId ∧ part.contentDigest = digest)
  | _, _, _ => false

end Delegatus.InboxBatch
