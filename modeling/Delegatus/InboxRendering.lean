import Delegatus.InboxBatch
import Delegatus.DistinctSorts
import Mathlib.Data.List.Induction

/-!
# What a rendered batch holds

`Rendered` is the invariant of the rendering loop: each part lies behind the parts before it, and what
lies there is the content of its member, or the part refers to an earlier one with the same copy key.
A longer text and more images leave what earlier parts hold (`ownContent_append`).  From this the whole
entry checks (`checkParts_laid`), and every part reads back (`Rendered.content`).
-/

namespace Delegatus.InboxBatch

open JsonText UnitText Utf8Texts

variable {digests : Digests}

/-! ### Slices -/

theorem slice_append {α : Type*} (items more : List α) {first last : Nat} (h : last ≤ items.length) :
    slice (items ++ more) first last = slice items first last := by
  rw [slice, slice, List.take_append_of_le_length h]

/-- What stands between two positions of a list. -/
theorem slice_middle {α : Type*} (front items back : List α) :
    slice (front ++ items ++ back) front.length (front.length + items.length) = items := by
  have hlength : (front ++ items).length = front.length + items.length := List.length_append
  rw [slice, ← hlength, List.take_left, List.drop_left]

theorem ownContent_append (content : StructuredMessageContent) (text : Text)
    (images : List StructuredImageRef) {part : InboxBatchPart} (htext : part.textEnd ≤ content.text.length)
    (himages : part.imageEnd ≤ content.images.length) :
    ownContent { text := content.text ++ text, images := content.images ++ images } part
      = ownContent content part := by
  unfold ownContent
  dsimp only
  rw [slice_append _ _ htext, slice_append _ _ himages]

/-! ### The layout of the parts -/

/-- The parts lie one behind the other, in the text from `textEnd` and in the images from `imageEnd`
on. -/
def Laid (textEnd imageEnd : Nat) : List InboxBatchPart → Nat → Nat → Prop
  | [], lastText, lastImage => lastText = textEnd ∧ lastImage = imageEnd
  | part :: rest, lastText, lastImage =>
      textEnd ≤ part.headerStart ∧ part.headerStart ≤ part.textStart ∧ part.textStart ≤ part.textEnd ∧
        part.imageStart = imageEnd ∧ part.imageStart ≤ part.imageEnd ∧
        Laid part.textEnd part.imageEnd rest lastText lastImage

theorem Laid.concat {textEnd imageEnd lastText lastImage : Nat} {parts : List InboxBatchPart}
    (h : Laid textEnd imageEnd parts lastText lastImage) {part : InboxBatchPart}
    (hheader : lastText ≤ part.headerStart) (hstart : part.headerStart ≤ part.textStart)
    (hend : part.textStart ≤ part.textEnd) (himage : part.imageStart = lastImage)
    (himages : part.imageStart ≤ part.imageEnd) :
    Laid textEnd imageEnd (parts ++ [part]) part.textEnd part.imageEnd := by
  induction parts generalizing textEnd imageEnd with
  | nil =>
    obtain ⟨rfl, rfl⟩ := h
    exact ⟨hheader, hstart, hend, himage, himages, rfl, rfl⟩
  | cons first rest ih =>
    obtain ⟨hfirst, hnext, hlast, hsame, hle, hrest⟩ := h
    exact ⟨hfirst, hnext, hlast, hsame, hle, ih hrest⟩

/-- No part ends before the parts before it. -/
theorem Laid.le {textEnd imageEnd lastText lastImage : Nat} {parts : List InboxBatchPart}
    (h : Laid textEnd imageEnd parts lastText lastImage) : textEnd ≤ lastText ∧ imageEnd ≤ lastImage := by
  induction parts generalizing textEnd imageEnd with
  | nil =>
    obtain ⟨rfl, rfl⟩ := h
    exact ⟨le_refl _, le_refl _⟩
  | cons part rest ih =>
    obtain ⟨hfirst, hnext, hlast, hsame, hle, hrest⟩ := h
    have := ih hrest
    omega

/-- Parts that are laid out, and whose contents have their digests, all check. -/
theorem checkParts_laid {content : StructuredMessageContent} {parts rest : List InboxBatchPart}
    {index textEnd imageEnd lastText : Nat}
    (hlaid : Laid textEnd imageEnd rest lastText content.images.length)
    (htext : lastText ≤ content.text.length) (hsafe : content.text.length ≤ MAX_SAFE_INTEGER)
    (himages : content.images.length ≤ MAX_SAFE_INTEGER)
    (hdigest : ∀ i part, rest[i]? = some part →
      (batchPartContent content parts (index + i) part).map digests.structuredContentDigest
        = some part.contentDigest) :
    checkParts digests content parts index textEnd imageEnd rest = some content.images.length := by
  induction rest generalizing index textEnd imageEnd with
  | nil =>
    obtain ⟨-, himage⟩ := hlaid
    rw [checkParts, himage]
  | cons part rest ih =>
    obtain ⟨hfirst, hnext, hlast, hsame, hle, hrest⟩ := hlaid
    obtain ⟨hbelow, hbelow'⟩ := hrest.le
    have hown := hdigest 0 part rfl
    rw [Nat.add_zero] at hown
    unfold checkParts
    rw [if_neg]
    · apply ih hrest
      intro i other hother
      have := hdigest (i + 1) other (by simpa using hother)
      rwa [Nat.add_assoc, Nat.add_comm 1 i]
    · simp only [List.all_cons, List.all_nil, Bool.and_true, Bool.or_eq_true, Bool.not_eq_true',
        Bool.and_eq_false_iff, decide_eq_false_iff_not, decide_eq_true_eq, hown, ne_eq,
        not_true_eq_false, or_false]
      omega

/-! ### The rendering loop -/

/-- A member as it is rendered, with its normalized entry. -/
abbrev Normalized := InboxMember × NormalizedQueueEntry

/-- The part of the member at an index: it holds the content, or it refers to an earlier copy. -/
structure Told (done : List Normalized) (out : Rendering) (index : Nat) (entry : NormalizedQueueEntry)
    (part : InboxBatchPart) : Prop where
  operationId : part.operationId = entry.id
  contentDigest : part.contentDigest = entry.contentDigest
  textEnd : part.textEnd ≤ out.text.length
  imageEnd : part.imageEnd ≤ out.images.length
  content : (part.referenceTo = none ∧
      ownContent { text := out.text, images := out.images } part = entry.content) ∨
    ∃ j first source, j < index ∧ done[j]? = some first ∧ out.parts[j]? = some source ∧
      source.referenceTo = none ∧ copyKey first.2 = copyKey entry ∧ part.referenceTo = some first.2.id

/-- **The invariant of the loop.** -/
structure Rendered (done : List Normalized) (out : Rendering) : Prop where
  length : out.parts.length = done.length
  laid : ∃ lastText, lastText ≤ out.text.length ∧ Laid 0 0 out.parts lastText out.images.length
  told : ∀ i member part, done[i]? = some member → out.parts[i]? = some part →
    Told done out i member.2 part
  copies : ∀ key j, out.copies.at? key = some j → ∃ member part, done[j]? = some member ∧
    copyKey member.2 = key ∧ out.parts[j]? = some part ∧ part.referenceTo = none

theorem rendered_nil (text : Text) :
    Rendered [] { text := text, images := [], parts := [], copies := Table.empty } := by
  refine ⟨rfl, ⟨0, Nat.zero_le _, rfl, rfl⟩, ?_, ?_⟩
  · intro i member part hmember
    simp at hmember
  · intro key j hcopy
    rw [Entries.at?_empty] at hcopy
    exact nomatch hcopy

/-- A longer rendering tells the same of the members before. -/
theorem Told.mono {done : List Normalized} {out new : Rendering} {i : Nat}
    {entry : NormalizedQueueEntry} {part : InboxBatchPart} (h : Told done out i entry part)
    (hindex : i ≤ done.length) (hlength : out.parts.length = done.length) (member : Normalized)
    {text : Text} {images : List StructuredImageRef} {last : InboxBatchPart}
    (htext : new.text = out.text ++ text) (himages : new.images = out.images ++ images)
    (hparts : new.parts = out.parts ++ [last]) : Told (done ++ [member]) new i entry part := by
  refine ⟨h.operationId, h.contentDigest, ?_, ?_, ?_⟩
  · rw [htext, List.length_append]
    exact h.textEnd.trans (Nat.le_add_right _ _)
  · rw [himages, List.length_append]
    exact h.imageEnd.trans (Nat.le_add_right _ _)
  · rcases h.content with ⟨hnone, hown⟩ | ⟨j, first, source, hj, hfirst, hsource, hrest⟩
    · left
      refine ⟨hnone, ?_⟩
      rw [htext, himages]
      exact (ownContent_append { text := out.text, images := out.images } text images h.textEnd
        h.imageEnd).trans hown
    · right
      refine ⟨j, first, source, hj, ?_, ?_, hrest⟩
      · rw [List.getElem?_append_left (by omega)]
        exact hfirst
      · rw [hparts, List.getElem?_append_left (by omega)]
        exact hsource

/-- What one turn adds. -/
structure Added (digests : Digests) (count : Nat) (out : Rendering) (member : Normalized)
    (new : Rendering) (part : InboxBatchPart) : Prop where
  parts : new.parts = out.parts ++ [part]
  text : new.text = out.text ++ (header digests out.parts.length count member.2 member.1.admittedAt ++
    partText count (out.copies.at? (copyKey member.2)) member.2 ++ units "\n")
  images : new.images = out.images ++
    if (out.copies.at? (copyKey member.2)).isNone then member.2.content.images else []
  copies : new.copies = if (out.copies.at? (copyKey member.2)).isNone then
    out.copies.set (copyKey member.2, out.parts.length) else out.copies
  operationId : part.operationId = member.2.id
  contentDigest : part.contentDigest = member.2.contentDigest
  headerStart : part.headerStart = out.text.length
  textStart : part.textStart = out.text.length +
    (header digests out.parts.length count member.2 member.1.admittedAt).length
  textEnd : part.textEnd = part.textStart +
    (partText count (out.copies.at? (copyKey member.2)) member.2).length
  imageStart : part.imageStart = out.images.length
  imageEnd : part.imageEnd = new.images.length
  escaped : part.escaped = imitatesHeader member.2.content.text
  referenceTo : part.referenceTo = (out.copies.at? (copyKey member.2)).bind fun first =>
    (out.parts[first]?).map (·.operationId)

theorem added (digests : Digests) (count : Nat) (out : Rendering) (member : Normalized) :
    ∃ part, Added digests count out member (out.add digests count member.1 member.2) part := by
  refine ⟨_, ⟨rfl, ?_, ?_, rfl, rfl, rfl, rfl, ?_, ?_, rfl, rfl, rfl, rfl⟩⟩
  · simp only [Rendering.add, List.append_assoc]
  · simp only [Rendering.add]
    split
    · rfl
    · rw [List.append_nil]
  · rw [List.length_append]
  · dsimp only
    rw [List.length_append, List.length_append]

theorem Added.told {count : Nat} {out new : Rendering} {member : Normalized} {part : InboxBatchPart}
    {done : List Normalized} (h : Added digests count out member new part) (hout : Rendered done out) :
    Told (done ++ [member]) new done.length member.2 part := by
  have htextEnd : part.textEnd ≤ new.text.length := by
    rw [h.textEnd, h.textStart, h.text]
    simp only [List.length_append]
    omega
  refine ⟨h.operationId, h.contentDigest, htextEnd, le_of_eq h.imageEnd, ?_⟩
  have hslice : slice new.text part.textStart part.textEnd
      = partText count (out.copies.at? (copyKey member.2)) member.2 := by
    have hmiddle := slice_middle
      (out.text ++ header digests out.parts.length count member.2 member.1.admittedAt)
      (partText count (out.copies.at? (copyKey member.2)) member.2) (units "\n")
    rw [List.length_append, ← h.textStart, ← h.textEnd] at hmiddle
    rw [h.text]
    simpa only [List.append_assoc] using hmiddle
  cases hcopy : out.copies.at? (copyKey member.2) with
  | none =>
    left
    have hreference := h.referenceTo
    have himages := h.images
    rw [hcopy] at hreference hslice himages
    refine ⟨hreference, ?_⟩
    have himageSlice : slice new.images part.imageStart part.imageEnd = member.2.content.images := by
      have hmiddle := slice_middle out.images member.2.content.images []
      rw [List.append_nil] at hmiddle
      have hends : part.imageEnd = out.images.length + member.2.content.images.length := by
        rw [h.imageEnd, himages, List.length_append]
        rfl
      rw [h.imageStart, hends, himages]
      exact hmiddle
    unfold ownContent
    rw [hslice, himageSlice, h.escaped]
    unfold partText
    by_cases hescaped : imitatesHeader member.2.content.text = true
    · rw [hescaped]
      rfl
    · rw [Bool.not_eq_true] at hescaped
      rw [hescaped]
      rfl
  | some j =>
    right
    obtain ⟨first, source, hfirst, hkey, hsource, hown⟩ := hout.copies _ j hcopy
    have hj : j < done.length := (List.getElem?_eq_some_iff.mp hfirst).1
    have hsourceId := (hout.told j first source hfirst hsource).operationId
    refine ⟨j, first, source, hj, ?_, ?_, hown, hkey, ?_⟩
    · rw [List.getElem?_append_left hj]
      exact hfirst
    · rw [h.parts, List.getElem?_append_left (by rw [hout.length]; exact hj)]
      exact hsource
    · rw [h.referenceTo, hcopy, Option.bind_some, hsource, Option.map_some, hsourceId]

theorem Rendered.add {count : Nat} {done : List Normalized} {out : Rendering} (h : Rendered done out)
    (member : Normalized) :
    Rendered (done ++ [member]) (out.add digests count member.1 member.2) := by
  obtain ⟨part, hadded⟩ := added digests count out member
  generalize out.add digests count member.1 member.2 = new at hadded
  have hnewTold := hadded.told h
  refine ⟨?_, ?_, ?_, ?_⟩
  · rw [hadded.parts, List.length_append, List.length_append, h.length]
    rfl
  · obtain ⟨lastText, hlast, hlaid⟩ := h.laid
    refine ⟨part.textEnd, hnewTold.textEnd, ?_⟩
    rw [hadded.parts, ← hadded.imageEnd]
    apply hlaid.concat
    · rw [hadded.headerStart]
      exact hlast
    · rw [hadded.headerStart, hadded.textStart]
      exact Nat.le_add_right _ _
    · rw [hadded.textEnd]
      exact Nat.le_add_right _ _
    · exact hadded.imageStart
    · rw [hadded.imageStart, hadded.imageEnd, hadded.images, List.length_append]
      exact Nat.le_add_right _ _
  · intro i other otherPart hother hotherPart
    rcases Nat.lt_or_ge i done.length with hlt | hge
    · rw [List.getElem?_append_left hlt] at hother
      rw [hadded.parts, List.getElem?_append_left (by rw [h.length]; exact hlt)] at hotherPart
      exact (h.told i other otherPart hother hotherPart).mono (le_of_lt hlt) h.length member hadded.text
        hadded.images hadded.parts
    · have hi : i = done.length := by
        have hlt := (List.getElem?_eq_some_iff.mp hother).1
        rw [List.length_append, List.length_singleton] at hlt
        omega
      subst hi
      have hmember : other = member := by
        rw [List.getElem?_append_right (le_refl _), Nat.sub_self] at hother
        exact (Option.some.inj hother).symm
      have hpart : otherPart = part := by
        rw [hadded.parts, ← h.length, List.getElem?_append_right (le_refl _), Nat.sub_self] at hotherPart
        exact (Option.some.inj hotherPart).symm
      rw [hmember, hpart]
      exact hnewTold
  · intro key j hcopy
    have hold : ∀ key j, out.copies.at? key = some j → ∃ member' part',
        (done ++ [member])[j]? = some member' ∧ copyKey member'.2 = key ∧
          new.parts[j]? = some part' ∧ part'.referenceTo = none := by
      intro key j hcopy
      obtain ⟨member', part', hmember, hkey, hpart, hown⟩ := h.copies key j hcopy
      have hj : j < done.length := (List.getElem?_eq_some_iff.mp hmember).1
      refine ⟨member', part', ?_, hkey, ?_, hown⟩
      · rw [List.getElem?_append_left hj]
        exact hmember
      · rw [hadded.parts, List.getElem?_append_left (by rw [h.length]; exact hj)]
        exact hpart
    rw [hadded.copies] at hcopy
    cases hdup : out.copies.at? (copyKey member.2) with
    | some first =>
      rw [hdup] at hcopy
      exact hold key j hcopy
    | none =>
      rw [hdup] at hcopy
      rw [Option.isNone_none, if_pos rfl, Entries.at?_set] at hcopy
      split at hcopy
      · next hkey =>
        obtain rfl := Option.some.inj hcopy
        refine ⟨member, part, ?_, hkey.symm, ?_, ?_⟩
        · rw [h.length, List.getElem?_append_right (le_refl _), Nat.sub_self]
          rfl
        · rw [hadded.parts, List.getElem?_append_right (le_refl _), Nat.sub_self]
          rfl
        · rw [hadded.referenceTo, hdup]
          rfl
      · exact hold key j hcopy

theorem rendered (digests : Digests) (held : Nat) (members : List Normalized) :
    Rendered members (renderMembers digests held members) := by
  unfold renderMembers
  generalize members.length = count
  induction members using List.reverseRecOn with
  | nil => exact rendered_nil _
  | append_singleton members member ih =>
    rw [List.foldl_append, List.foldl_cons, List.foldl_nil]
    exact ih.add member

/-! ### Reading back -/

/-- Members that a batch can tell apart: their operation ids are different, and contents of one digest
are one content. -/
structure Distinct (members : List Normalized) : Prop where
  nodup : (members.map (·.2.id)).Nodup
  named : ∀ member ∈ members, member.2.id ≠ ""
  contents : ∀ a ∈ members, ∀ b ∈ members, a.2.contentDigest = b.2.contentDigest →
    a.2.content = b.2.content

/-- The part at an index of a rendering. -/
theorem Rendered.part {members : List Normalized} {out : Rendering} (h : Rendered members out) {i : Nat}
    {member : Normalized} (hmember : members[i]? = some member) :
    ∃ part, out.parts[i]? = some part ∧ Told members out i member.2 part := by
  have hi : i < out.parts.length := by
    rw [h.length]
    exact (List.getElem?_eq_some_iff.mp hmember).1
  have hpart : out.parts[i]? = some out.parts[i] := List.getElem?_eq_getElem hi
  exact ⟨_, hpart, h.told i member _ hmember hpart⟩

/-- Two parts of one operation are one part. -/
theorem Rendered.operationIds {members : List Normalized} {out : Rendering} (h : Rendered members out) :
    out.parts.map (·.operationId) = members.map (·.2.id) := by
  apply List.ext_getElem
  · rw [List.length_map, List.length_map, h.length]
  · intro i hi hi'
    rw [List.length_map] at hi hi'
    rw [List.getElem_map, List.getElem_map]
    exact (h.told i members[i] out.parts[i] (List.getElem?_eq_getElem hi')
      (List.getElem?_eq_getElem hi)).operationId

theorem find_unique {α : Type*} {p : α → Bool} {items : List α} {x : α} (hx : x ∈ items) (hp : p x = true)
    (honly : ∀ y ∈ items, p y = true → y = x) : items.find? p = some x := by
  cases hfind : items.find? p with
  | none => exact absurd hp (List.find?_eq_none.mp hfind x hx)
  | some y => rw [honly y (List.mem_of_find?_eq_some hfind) (List.find?_some hfind)]

/-- **Every part reads back as its member's content.** -/
theorem Rendered.content {members : List Normalized} {out : Rendering} (h : Rendered members out)
    (hdistinct : Distinct members) {i : Nat} {member : Normalized} {part : InboxBatchPart}
    (hmember : members[i]? = some member) (hpart : out.parts[i]? = some part) :
    batchPartContent { text := out.text, images := out.images } out.parts i part
      = some member.2.content := by
  have htold := h.told i member part hmember hpart
  unfold batchPartContent
  rcases htold.content with ⟨hnone, hown⟩ | ⟨j, first, source, hj, hfirst, hsource, hnone, hkey, href⟩
  · have hreference : part.reference = none := by rw [InboxBatchPart.reference, hnone]; rfl
    rw [hreference]
    exact congrArg some hown
  · have hfirstmem : first ∈ members := List.mem_of_getElem? hfirst
    have hreference : part.reference = some first.2.id := by
      rw [InboxBatchPart.reference, href, Option.filter_some,
        if_pos (by simpa using hdistinct.named first hfirstmem)]
    have hsourceTold := h.told j first source hfirst hsource
    have hsourceOwn : ownContent { text := out.text, images := out.images } source = first.2.content := by
      rcases hsourceTold.content with ⟨-, hown⟩ | ⟨_, _, _, _, _, _, _, _, hrefers⟩
      · exact hown
      · rw [hnone] at hrefers
        exact nomatch hrefers
    have hids : (out.parts.map (·.operationId)).Nodup := by
      rw [h.operationIds]
      exact hdistinct.nodup
    have hfind : ((out.parts.take i).find? fun previous =>
        decide (previous.operationId = first.2.id) && previous.reference.isNone) = some source := by
      apply find_unique
      · rw [List.mem_iff_getElem?]
        exact ⟨j, by rw [List.getElem?_take_of_lt hj, hsource]⟩
      · rw [hsourceTold.operationId, InboxBatchPart.reference, hnone]
        simp
      · intro other hother hmatch
        have hid : other.operationId = source.operationId := by
          rw [hsourceTold.operationId]
          exact of_decide_eq_true (Bool.and_eq_true_iff.mp hmatch).1
        exact List.inj_on_of_nodup_map hids (List.mem_of_mem_take hother) (List.mem_of_getElem? hsource) hid
    have hsame : first.2.content = member.2.content := by
      apply hdistinct.contents first hfirstmem member (List.mem_of_getElem? hmember)
      exact congrArg CopyKey.contentDigest hkey
    rw [hreference]
    dsimp only
    rw [hfind, Option.map_some, hsourceOwn, hsame]

/-! ### Verification -/

/-- The entry that a rendering becomes. -/
def Rendering.content (out : Rendering) : StructuredMessageContent :=
  { text := out.text, images := out.images }

theorem Rendered.checks {members : List Normalized} {out : Rendering} (h : Rendered members out)
    (hdistinct : Distinct members)
    (hdigests : ∀ member ∈ members,
      member.2.contentDigest = digests.structuredContentDigest member.2.content)
    (htext : out.text.length ≤ MAX_SAFE_INTEGER) (himages : out.images.length ≤ MAX_SAFE_INTEGER) :
    checkParts digests out.content out.parts 0 0 0 out.parts = some out.images.length := by
  obtain ⟨lastText, hlast, hlaid⟩ := h.laid
  apply checkParts_laid hlaid hlast htext himages
  intro i part hpart
  have hi : i < members.length := by
    rw [← h.length]
    exact (List.getElem?_eq_some_iff.mp hpart).1
  have hmember : members[i]? = some members[i] := List.getElem?_eq_getElem hi
  rw [Nat.zero_add, Rendering.content, h.content hdistinct hmember hpart, Option.map_some,
    (h.told i _ part hmember hpart).contentDigest, hdigests _ (List.getElem_mem hi)]

/-- **Every member of a rendered entry is accepted.** -/
theorem Rendered.verified {members : List Normalized} {out : Rendering} (h : Rendered members out)
    (hdistinct : Distinct members)
    (hdigests : ∀ member ∈ members,
      member.2.contentDigest = digests.structuredContentDigest member.2.content)
    (hnonempty : ∀ content, digests.structuredContentDigest content ≠ "")
    (htwo : 2 ≤ members.length) (hmany : members.length ≤ 1000)
    (htext : out.text.length ≤ MAX_SAFE_INTEGER) (himages : out.images.length ≤ MAX_SAFE_INTEGER)
    {entry : QueueEntry} (hparts : entry.parts = some out.parts) (hcontent : entry.content = some out.content)
    (hid : entry.id = digests.inboxBatchId
      (out.parts.map fun part => (part.operationId, part.contentDigest)))
    (hdigest : entry.contentDigest = some (digests.structuredContentDigest out.content))
    {member : Normalized} (hmember : member ∈ members) :
    verifyBatchMembership digests entry member.2.id (some member.2.contentDigest) = true := by
  have hgiven : (some member.2.contentDigest).filter (fun digest => decide (digest ≠ ""))
      = some member.2.contentDigest := by
    rw [Option.filter_some, if_pos]
    rw [hdigests member hmember]
    simpa using hnonempty _
  have hids : (out.parts.map (·.operationId)).Nodup := by
    rw [h.operationIds]
    exact hdistinct.nodup
  have hsize : (out.parts.map (·.operationId)).eraseDups.length = out.parts.length := by
    rw [DistinctSorts.eraseDups_of_nodup hids, List.length_map]
  have hchecks := h.checks hdistinct hdigests htext himages
  have hany : (out.parts.any fun part =>
      decide (part.operationId = member.2.id ∧ part.contentDigest = member.2.contentDigest)) = true := by
    obtain ⟨i, hi⟩ := List.getElem?_of_mem hmember
    obtain ⟨part, hpart, htold⟩ := h.part hi
    rw [List.any_eq_true]
    exact ⟨part, List.mem_of_getElem? hpart,
      decide_eq_true ⟨htold.operationId, htold.contentDigest⟩⟩
  unfold verifyBatchMembership
  rw [hparts, hcontent, hgiven]
  dsimp only
  rw [hchecks, hany, h.length, hsize, h.length, hid, hdigest]
  simp [Rendering.content, not_lt.mpr htwo, not_lt.mpr hmany]

end Delegatus.InboxBatch
