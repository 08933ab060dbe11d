import Delegatus.InboxRendering
import Mathlib.Data.List.TakeWhile

/-!
# Composed batches

The text of a rendering is its intro and a body that does not depend on how many messages are held
(`renderMembers_text`), so a choice that passed the bounds with 256 bytes reserved keeps them under the
final intro.  Each part takes at least 33 bytes, and a batch has fewer parts than the 1,000 that
`verifyBatchMembership` accepts.  `composeBatch_lossless` puts this together with the choice of the
members.
-/

namespace Delegatus.InboxBatch

open JsonText UnitText Utf8Texts

variable {digests : Digests}

/-! ### Intro and body -/

/-- Two renderings that differ in the intro before one body. -/
structure SameBody (front front' : Text) (out out' : Rendering) : Prop where
  text : ∃ body, out.text = front ++ body ∧ out'.text = front' ++ body
  images : out.images = out'.images
  copies : out.copies = out'.copies
  length : out.parts.length = out'.parts.length

theorem SameBody.add {front front' : Text} {out out' : Rendering} (h : SameBody front front' out out')
    (digests : Digests) (count : Nat) (member : Normalized) :
    SameBody front front' (out.add digests count member.1 member.2)
      (out'.add digests count member.1 member.2) := by
  obtain ⟨part, hadded⟩ := added digests count out member
  obtain ⟨part', hadded'⟩ := added digests count out' member
  obtain ⟨body, htext, htext'⟩ := h.text
  let piece := header digests out.parts.length count member.2 member.1.admittedAt ++
    partText count (out.copies.at? (copyKey member.2)) member.2 ++ units "\n"
  refine ⟨⟨body ++ piece, ?_, ?_⟩, ?_, ?_, ?_⟩
  · rw [hadded.text, htext, List.append_assoc]
  · rw [hadded'.text, htext', List.append_assoc, ← h.length, ← h.copies]
  · rw [hadded.images, hadded'.images, h.images, h.copies]
  · rw [hadded.copies, hadded'.copies, h.copies, h.length]
  · rw [hadded.parts, hadded'.parts, List.length_append, List.length_append, h.length]
    rfl

theorem sameBody (digests : Digests) (held held' : Nat) (members : List Normalized) :
    SameBody (intro members.length held) (intro members.length held')
      (renderMembers digests held members) (renderMembers digests held' members) := by
  unfold renderMembers
  generalize members.length = count
  induction members using List.reverseRecOn with
  | nil => exact ⟨⟨[], by simp, by simp⟩, rfl, rfl, rfl⟩
  | append_singleton members member ih =>
    rw [List.foldl_append, List.foldl_append, List.foldl_cons, List.foldl_cons, List.foldl_nil,
      List.foldl_nil]
    exact ih.add digests count member

theorem length_decimal_pos (n : Nat) : 1 ≤ (decimal n).length := by
  rw [decimal, List.length_map]
  exact Nat.length_toDigits_pos

theorem author_length (origin : Option MessageOrigin) : 6 ≤ (author origin).length := by
  unfold author
  split
  · decide
  · decide
  · split
    · rw [List.length_append]
      have : (units "agent ").length = 6 := by decide
      omega
    · decide

variable (digests) in
theorem sentText_length (admittedAt : String) : 4 ≤ (sentText digests admittedAt).length := by
  unfold sentText
  split
  · rw [List.length_append]
    have : (units " UTC").length = 4 := by decide
    omega
  · decide

variable (digests) in
theorem header_length (index count : Nat) (entry : NormalizedQueueEntry) (admittedAt : String) :
    32 ≤ (header digests index count entry admittedAt).length := by
  have hindex := length_decimal_pos (index + 1)
  have hcount := length_decimal_pos count
  have hauthor := author_length entry.origin
  have hsent := sentText_length digests admittedAt
  have hliterals : (units "[").length = 1 ∧ (units "/").length = 1 ∧ (units " · from ").length = 8 ∧
      (units " · sent ").length = 8 ∧ (units "]\n").length = 2 := by decide
  simp only [header, List.length_append]
  omega

/-- Each member adds at least 33 units. -/
theorem foldl_length (digests : Digests) (count : Nat) (start : Rendering) (members : List Normalized) :
    start.text.length + 33 * members.length ≤
      (members.foldl (fun out member => out.add digests count member.1 member.2) start).text.length := by
  induction members using List.reverseRecOn with
  | nil => simp
  | append_singleton members member ih =>
    rw [List.foldl_append, List.foldl_cons, List.foldl_nil]
    obtain ⟨part, hadded⟩ := added digests count
      (members.foldl (fun out member => out.add digests count member.1 member.2) start) member
    have hheader := header_length digests
      (members.foldl (fun out member => out.add digests count member.1 member.2) start).parts.length
      count member.2 member.1.admittedAt
    have hbreak : (units "\n").length = 1 := by decide
    rw [hadded.text]
    simp only [List.length_append, List.length_singleton, hbreak]
    omega

/-! ### The reserve for the intro -/

def Ascii (text : Text) : Prop := ∀ u ∈ text, u < 0x80

theorem Ascii.of_all {text : Text} (h : (text.all fun u => decide (u < 0x80)) = true) : Ascii text := by
  intro u hu
  exact of_decide_eq_true (List.all_eq_true.mp h u hu)

theorem Ascii.append {front back : Text} (h : Ascii front) (h' : Ascii back) : Ascii (front ++ back) := by
  intro u hu
  rcases List.mem_append.mp hu with hfront | hback
  · exact h u hfront
  · exact h' u hback

theorem ascii_decimal (n : Nat) : Ascii (decimal n) := by
  intro u hu
  obtain ⟨c, hc, rfl⟩ := List.mem_map.mp hu
  have hdigit := Nat.isDigit_of_mem_toDigits (by decide) (by decide) hc
  rw [Char.isDigit, Bool.and_eq_true, decide_eq_true_eq, decide_eq_true_eq] at hdigit
  have hle : c.toNat ≤ 57 := hdigit.2
  have hsize : c.toNat < UInt16.size := lt_of_le_of_lt hle (by decide)
  rw [UInt16.lt_iff_toNat_lt, UInt16.toNat_ofNat_of_lt' hsize]
  exact lt_of_le_of_lt hle (by decide)

theorem length_decimal_le {n k : Nat} (hk : 0 < k) (h : n < 10 ^ k) : (decimal n).length ≤ k := by
  rw [decimal, List.length_map]
  exact (Nat.length_toDigits_le_iff (by decide) hk).mpr h

theorem Ascii.of_ofList {chars : List Char}
    (h : (((chars.flatMap JsStrings.charUnits).map UInt16.ofNat).all fun u => decide (u < 0x80)) = true) :
    Ascii (units (String.ofList chars)) := by
  rw [units_ofList]
  exact Ascii.of_all h

theorem ascii_intro (count held : Nat) : Ascii (intro count held) := by
  have hname : Ascii (units "[Delegatus] ") := Ascii.of_ofList (by decide)
  have harrived : Ascii (units " messages arrived while you were working. They follow in the order they were sent.") :=
    Ascii.of_ofList (by decide)
  have hspace : Ascii (units " ") := Ascii.of_ofList (by decide)
  have hheld : Ascii (units " older messages are held for your next turn.") :=
    Ascii.of_ofList (by decide)
  have hbreak : Ascii (units "\n") := Ascii.of_ofList (by decide)
  unfold intro
  apply Ascii.append _ hbreak
  apply Ascii.append ((hname.append (ascii_decimal count)).append harrived)
  split
  · intro u hu
    exact nomatch hu
  · exact (hspace.append (ascii_decimal held)).append hheld

/-- The intro fits the 256 bytes that the choice reserves for it. -/
theorem intro_fits {count held : Nat} (hcount : count < 10 ^ 4) (hheld : held ≤ MAX_SAFE_INTEGER) :
    utf8Length (intro count held) ≤ 256 := by
  have hsafe : MAX_SAFE_INTEGER < 10 ^ 16 := by decide
  have hcountLength := length_decimal_le (by decide) hcount
  have hheldLength := length_decimal_le (by decide) (lt_of_le_of_lt hheld hsafe)
  have hliterals : (units "[Delegatus] ").length = 12 ∧
      (units " messages arrived while you were working. They follow in the order they were sent.").length ≤ 90 ∧
      (units " ").length = 1 ∧ (units " older messages are held for your next turn.").length ≤ 50 ∧
      (units "\n").length = 1 := by
    rw [units_ofList, units_ofList, units_ofList, units_ofList, units_ofList]
    decide
  rw [utf8Length_ascii (ascii_intro count held)]
  unfold intro
  split
  · simp only [List.length_append, List.length_nil]
    omega
  · simp only [List.length_append]
    omega

theorem intro_last (count held : Nat) : (intro count held).getLast? = some 10 := by
  unfold intro
  rw [List.getLast?_append]
  rfl

theorem intro_apart (count held : Nat) (body : Text) : Apart (intro count held) body :=
  Apart.of_last (intro_last count held) (by decide)

/-- A text with an intro is not blank. -/
theorem intro_not_blank (count held : Nat) (body : Text) : trim (intro count held ++ body) ≠ [] := by
  have hhead : ∃ rest, intro count held ++ body = 91 :: rest := by
    unfold intro
    exact ⟨_, rfl⟩
  obtain ⟨rest, hrest⟩ := hhead
  have hdrop : (91 :: rest : Text).dropWhile isWhite = 91 :: rest := dropWhile_of_head (by
    intro u hu
    rw [List.head?_cons, Option.some.injEq] at hu
    rw [← hu]
    decide)
  have hmem : (91 : UInt16) ∈ (91 :: rest : Text).reverse := by simp
  rw [hrest, trim, trimEnd, hdrop]
  intro hnil
  rw [List.reverse_eq_nil_iff] at hnil
  have hsplit := List.takeWhile_append_dropWhile (p := isWhite) (l := (91 :: rest : Text).reverse)
  rw [hnil, List.append_nil] at hsplit
  rw [← hsplit] at hmem
  exact absurd (List.mem_takeWhile_imp hmem) (by decide)

/-! ### Normalized members -/

theorem normalizeQueueEntry_ok {entry : QueueEntry} {normalized : NormalizedQueueEntry}
    (h : normalizeQueueEntry digests entry = .ok normalized) :
    normalized.id = entry.id ∧ normalized.content = entry.given ∧
      normalized.contentDigest = digests.structuredContentDigest entry.given := by
  unfold normalizeQueueEntry structuredContent at h
  split at h
  · exact nomatch h
  · simp only [Bind.bind, Except.bind] at h
    split at h
    · exact nomatch h
    · obtain rfl := Except.ok.inj h
      exact ⟨rfl, rfl, rfl⟩

/-- The pairs that `normalizeMembers` gives. -/
structure Pairs (digests : Digests) (members : List InboxMember) (pairs : List Normalized) : Prop where
  members : pairs.map Prod.fst = members
  normalized : ∀ pair ∈ pairs, normalizeQueueEntry digests pair.1.entry = .ok pair.2

theorem normalizeMembers_ok {members : List InboxMember}
    (h : ∀ member ∈ members, ∃ normalized, normalizeQueueEntry digests member.entry = .ok normalized) :
    ∃ pairs, normalizeMembers digests members = .ok pairs ∧ Pairs digests members pairs := by
  induction members with
  | nil => exact ⟨[], rfl, rfl, by simp⟩
  | cons member rest ih =>
    obtain ⟨normalized, hnormalized⟩ := h member List.mem_cons_self
    obtain ⟨pairs, hpairs, hmembers, hall⟩ := ih fun other hother => h other (List.mem_cons_of_mem _ hother)
    refine ⟨(member, normalized) :: pairs, ?_, ?_, ?_⟩
    · unfold normalizeMembers at hpairs ⊢
      rw [List.mapM_cons, hnormalized, hpairs]
      rfl
    · rw [List.map_cons, hmembers]
    · intro pair hpair
      rcases List.mem_cons.mp hpair with rfl | hrest
      · exact hnormalized
      · exact hall pair hrest

/-! ### Rendered entries -/

/-- The entry that `render` makes of its members. -/
structure RenderedEntry (digests : Digests) (pairs : List Normalized) (held : Nat) (entry : QueueEntry) :
    Prop where
  parts : entry.parts = some (renderMembers digests held pairs).parts
  content : entry.content = some (renderMembers digests held pairs).content
  id : entry.id = digests.inboxBatchId
    ((renderMembers digests held pairs).parts.map fun part => (part.operationId, part.contentDigest))
  contentDigest : entry.contentDigest =
    some (digests.structuredContentDigest (renderMembers digests held pairs).content)

theorem renderMembers_text (digests : Digests) (held : Nat) (pairs : List Normalized) :
    ∃ body, 33 * pairs.length ≤ body.length ∧ ∀ held',
      (renderMembers digests held' pairs).text = intro pairs.length held' ++ body := by
  obtain ⟨body, hbody, -⟩ := (sameBody digests held held pairs).text
  refine ⟨body, ?_, ?_⟩
  · have hlength := foldl_length digests pairs.length
      { text := intro pairs.length held, images := [], parts := [], copies := Table.empty } pairs
    rw [← renderMembers, hbody, List.length_append] at hlength
    dsimp only at hlength
    omega
  · intro held'
    obtain ⟨body', hbody', hheld'⟩ := (sameBody digests held held' pairs).text
    rw [hbody, List.append_cancel_left_eq] at hbody'
    rw [hheld', hbody']

theorem render_ok {members : List InboxMember} {pairs : List Normalized} (held : Nat)
    (h : normalizeMembers digests members = .ok pairs) :
    ∃ entry, render digests members held = .ok entry ∧ RenderedEntry digests pairs held entry := by
  obtain ⟨body, -, htext⟩ := renderMembers_text digests held pairs
  have hblank : (trim (renderMembers digests held pairs).text).isEmpty = false := by
    rw [htext held, List.isEmpty_eq_false_iff]
    exact intro_not_blank _ _ _
  have hcontent : structuredContent digests (renderMembers digests held pairs).text
      (renderMembers digests held pairs).images = .ok ((renderMembers digests held pairs).content,
        digests.structuredContentDigest (renderMembers digests held pairs).content) := by
    unfold structuredContent
    rw [hblank]
    rfl
  unfold render
  rw [h]
  simp only [Bind.bind, Except.bind]
  rw [hcontent]
  exact ⟨_, rfl, rfl, rfl, rfl, rfl⟩

/-! ### Bounds -/

/-- The bounds of a rendered entry. -/
structure Bounded (content : StructuredMessageContent) : Prop where
  text : utf8Length content.text ≤ MAX_STRUCTURED_TEXT_BYTES
  images : content.images.length ≤ 16
  imageBytes : (content.images.map (·.bytes)).sum ≤ 18 * 1024 * 1024

/-- A rendering keeps its first part. -/
theorem foldl_head (digests : Digests) (count : Nat) (start : Rendering) (members : List Normalized)
    (hsome : start.parts ≠ []) :
    (members.foldl (fun out member => out.add digests count member.1 member.2) start).parts.head?
      = start.parts.head? := by
  induction members generalizing start with
  | nil => rfl
  | cons member rest ih =>
    obtain ⟨part, hadded⟩ := added digests count start member
    have hparts : (start.add digests count member.1 member.2).parts ≠ [] := by
      rw [hadded.parts]
      exact List.append_ne_nil_of_left_ne_nil hsome _
    rw [List.foldl_cons, ih _ hparts, hadded.parts, List.head?_append_of_ne_nil _ hsome]

/-- The first header follows the intro. -/
theorem head_headerStart (digests : Digests) (held : Nat) {pairs : List Normalized} (hsome : pairs ≠ []) :
    ((renderMembers digests held pairs).parts.head?.map (·.headerStart))
      = some (intro pairs.length held).length := by
  unfold renderMembers
  generalize pairs.length = count
  cases pairs with
  | nil => exact absurd rfl hsome
  | cons member rest =>
    obtain ⟨part, hadded⟩ := added digests count
      { text := intro count held, images := [], parts := [], copies := Table.empty } member
    have hparts := hadded.parts
    dsimp only [List.nil_append] at hparts
    rw [List.foldl_cons, foldl_head, hparts, List.head?_cons, Option.map_some, hadded.headerStart]
    rw [hparts]
    exact List.cons_ne_nil _ _

/-- **A choice that passed the bounds keeps them under another intro.** -/
theorem bounded_of_choice {pairs : List Normalized} {held held' : Nat} {entry : QueueEntry}
    (hentry : RenderedEntry digests pairs held entry) (hsome : pairs ≠ [])
    (hpassed : exceeds entry = false) (hheld' : held' ≤ MAX_SAFE_INTEGER) :
    Bounded (renderMembers digests held' pairs).content ∧ pairs.length ≤ 1000 := by
  obtain ⟨body, hbody, htext⟩ := renderMembers_text digests held pairs
  have himages := (sameBody digests held held' pairs).images
  have hbytes : utf8Length body + 256 ≤ MAX_STRUCTURED_TEXT_BYTES ∧
      (renderMembers digests held pairs).images.length ≤ 16 ∧
      ((renderMembers digests held pairs).images.map (·.bytes)).sum ≤ 18 * 1024 * 1024 := by
    unfold exceeds at hpassed
    rw [hentry.content, hentry.parts] at hpassed
    simp only [Option.getD_some, Option.bind_some, head_headerStart digests held hsome,
      Rendering.content, htext, List.take_left, Bool.or_eq_false_iff, decide_eq_false_iff_not,
      not_lt, gt_iff_lt, utf8Length_append (intro_apart _ _ _)] at hpassed
    obtain ⟨⟨htextBytes, hcount⟩, hsum⟩ := hpassed
    exact ⟨by omega, hcount, hsum⟩
  obtain ⟨hbodyBytes, hcount, hsum⟩ := hbytes
  have hlimit : MAX_STRUCTURED_TEXT_BYTES = 32000 := by decide
  have hunits := length_le_utf8Length body
  have hmany : pairs.length ≤ 1000 := by omega
  have hintro : utf8Length (intro pairs.length held') ≤ 256 :=
    intro_fits (lt_of_le_of_lt hmany (by decide)) hheld'
  refine ⟨⟨?_, ?_, ?_⟩, hmany⟩
  · rw [Rendering.content, htext, utf8Length_append (intro_apart _ _ _)]
    omega
  · rw [Rendering.content, ← himages]
    exact hcount
  · rw [Rendering.content, ← himages]
    exact hsum

/-! ### The choice -/

theorem normalizeMembers_pairs {members : List InboxMember} {pairs : List Normalized}
    (h : normalizeMembers digests members = .ok pairs) : Pairs digests members pairs := by
  induction members generalizing pairs with
  | nil =>
    obtain rfl := Except.ok.inj h
    exact ⟨rfl, by simp⟩
  | cons member rest ih =>
    unfold normalizeMembers at h ih
    rw [List.mapM_cons] at h
    cases hmember : normalizeQueueEntry digests member.entry with
    | error message =>
      rw [hmember] at h
      exact nomatch h
    | ok normalized =>
      rw [hmember] at h
      cases hrest : rest.mapM fun member =>
          (normalizeQueueEntry digests member.entry).map fun entry => (member, entry) with
      | error message =>
        rw [hrest] at h
        exact nomatch h
      | ok others =>
        rw [hrest] at h
        obtain rfl := Except.ok.inj h
        obtain ⟨hmembers, hall⟩ := ih hrest
        refine ⟨by rw [List.map_cons, hmembers], ?_⟩
        intro pair hpair
        rcases List.mem_cons.mp hpair with rfl | hpair
        · exact hmember
        · exact hall pair hpair

/-- What `render` gives is a rendered entry. -/
theorem render_rendered {members : List InboxMember} {held : Nat} {entry : QueueEntry}
    (h : render digests members held = .ok entry) :
    ∃ pairs, normalizeMembers digests members = .ok pairs ∧ RenderedEntry digests pairs held entry := by
  cases hpairs : normalizeMembers digests members with
  | error message =>
    unfold render at h
    rw [hpairs] at h
    exact nomatch h
  | ok pairs =>
    obtain ⟨entry', hentry', hrendered⟩ := render_ok held hpairs
    rw [h] at hentry'
    obtain rfl := Except.ok.inj hentry'
    exact ⟨pairs, rfl, hrendered⟩

/-- A choice whose rendering stays within the bounds. -/
def Passed (digests : Digests) (ordered selected : List InboxMember) : Prop :=
  ∃ entry, render digests (sortMembers selected) (heldBy ordered (sortMembers selected)) = .ok entry ∧
    exceeds entry = false

/-- The chosen members are a prefix of the candidates, and none or one that passed. -/
theorem choose_chosen {ordered candidates selected chosen : List InboxMember}
    (hselected : selected = [] ∨ Passed digests ordered selected)
    (h : choose digests ordered selected candidates = .ok chosen) :
    (∃ k, k ≤ candidates.length ∧ chosen = selected ++ candidates.take k) ∧
      (chosen = [] ∨ Passed digests ordered chosen) := by
  induction candidates generalizing selected with
  | nil =>
    obtain rfl := Except.ok.inj h
    exact ⟨⟨0, le_refl _, by simp⟩, hselected⟩
  | cons member rest ih =>
    unfold choose at h
    dsimp only at h
    cases hrender : render digests (sortMembers (selected ++ [member]))
        (heldBy ordered (sortMembers (selected ++ [member]))) with
    | error message =>
      rw [hrender] at h
      exact nomatch h
    | ok entry =>
      rw [hrender] at h
      simp only [Bind.bind, Except.bind] at h
      cases hexceeds : exceeds entry with
      | true =>
        rw [hexceeds] at h
        obtain rfl := Except.ok.inj h
        exact ⟨⟨0, Nat.zero_le _, by simp⟩, hselected⟩
      | false =>
        rw [hexceeds] at h
        obtain ⟨⟨k, hk, hchosen⟩, hpassed⟩ := ih (Or.inr ⟨entry, hrender, hexceeds⟩) h
        refine ⟨⟨k + 1, Nat.succ_le_succ hk, ?_⟩, hpassed⟩
        rw [hchosen, List.take_succ_cons, List.append_assoc]
        rfl

/-- The choice fails on no members that normalize. -/
theorem choose_ok {ordered candidates selected : List InboxMember}
    (h : ∀ member ∈ selected ++ candidates,
      ∃ normalized, normalizeQueueEntry digests member.entry = .ok normalized) :
    ∃ chosen, choose digests ordered selected candidates = .ok chosen := by
  induction candidates generalizing selected with
  | nil => exact ⟨selected, rfl⟩
  | cons member rest ih =>
    have hproposed : ∀ other ∈ sortMembers (selected ++ [member]),
        ∃ normalized, normalizeQueueEntry digests other.entry = .ok normalized := by
      intro other hother
      apply h
      have hmem := (List.perm_insertionSort _ _).mem_iff.mp hother
      simp only [List.mem_append, List.mem_cons] at hmem ⊢
      tauto
    obtain ⟨pairs, hpairs, -⟩ := normalizeMembers_ok hproposed
    obtain ⟨entry, hentry, -⟩ := render_ok (heldBy ordered (sortMembers (selected ++ [member]))) hpairs
    unfold choose
    dsimp only
    rw [hentry]
    simp only [Bind.bind, Except.bind]
    split
    · exact ⟨selected, rfl⟩
    · apply ih
      rw [List.append_assoc]
      exact h

/-! ### The members of a batch -/

/-- The members that wait: their operation ids are different, and what has one digest is one content. -/
structure Waiting (digests : Digests) (input : List InboxMember) : Prop where
  few : input.length ≤ MAX_SAFE_INTEGER
  nodup : (input.map (·.entry.id)).Nodup
  named : ∀ member ∈ input, member.entry.id ≠ ""
  digested : ∀ content, digests.structuredContentDigest content ≠ ""
  contents : ∀ a ∈ input, ∀ b ∈ input,
    digests.structuredContentDigest a.entry.given = digests.structuredContentDigest b.entry.given →
      a.entry.given = b.entry.given

theorem priorityFirst_perm (input : List InboxMember) : (priorityFirst input).Perm input := by
  have h := List.filter_append_perm (fun member : InboxMember => member.priority) input
  simpa [priorityFirst] using h

theorem sortMembers_perm (members : List InboxMember) : (sortMembers members).Perm members :=
  List.perm_insertionSort _ _

theorem sortMembers_ordered (members : List InboxMember) :
    (sortMembers members).Pairwise fun a b => a.eventSeq ≤ b.eventSeq := by
  have : Std.Total fun a b : InboxMember => a.eventSeq ≤ b.eventSeq := ⟨fun a b => le_total _ _⟩
  have : IsTrans InboxMember fun a b => a.eventSeq ≤ b.eventSeq := ⟨fun a b c => le_trans⟩
  exact List.pairwise_insertionSort _ _

/-- What remains beside the members taken from the candidates. -/
def remainingOf (input selected : List InboxMember) : List InboxMember :=
  input.filter fun member => !selected.any fun other => other.entry.id = member.entry.id

/-- **The taken members and the rest are the input.** -/
theorem partition {input candidates selected : List InboxMember} {k : Nat}
    (hnodup : (input.map (·.entry.id)).Nodup) (hcandidates : candidates.Perm input)
    (hselected : selected.Perm (candidates.take k)) :
    (selected ++ remainingOf input selected).Perm input := by
  have hids : (candidates.map (·.entry.id)).Nodup := (hcandidates.map _).nodup_iff.mpr hnodup
  have hsplit : candidates.take k ++ candidates.drop k = candidates := List.take_append_drop k candidates
  let taken : InboxMember → Bool := fun member => selected.any fun other => other.entry.id = member.entry.id
  have hnone : (candidates.take k).filter (fun member => !taken member) = [] := by
    rw [List.filter_eq_nil_iff]
    intro member hmember
    have hmem : member ∈ selected := hselected.mem_iff.mpr hmember
    simp only [taken, Bool.not_eq_true', Bool.not_eq_false, List.any_eq_true, decide_eq_true_eq]
    exact ⟨member, hmem, rfl⟩
  have hall : (candidates.drop k).filter (fun member => !taken member) = candidates.drop k := by
    rw [List.filter_eq_self]
    intro member hmember
    rw [Bool.not_eq_true', List.any_eq_false]
    intro other hother hsame
    rw [← hsplit, List.map_append, List.nodup_append] at hids
    exact hids.2.2 other.entry.id (List.mem_map_of_mem (hselected.mem_iff.mp hother)) member.entry.id
      (List.mem_map_of_mem hmember) (of_decide_eq_true hsame)
  have hrest : (remainingOf input selected).Perm (candidates.drop k) := by
    have hfilter := hcandidates.symm.filter fun member => !taken member
    rw [← hsplit, List.filter_append, hnone, hall, List.nil_append] at hfilter
    exact hfilter
  have hall := hselected.append hrest
  rw [hsplit] at hall
  exact hall.trans hcandidates

/-- The members that a batch takes of its input. -/
structure Taken (digests : Digests) (input selected : List InboxMember) : Prop where
  ordered : selected.Pairwise fun a b => a.eventSeq ≤ b.eventSeq
  taken : ∃ k, 1 ≤ k ∧ selected.Perm ((priorityFirst input).take k)
  passed : selected.length = 1 ∨
    ∃ held entry, render digests selected held = .ok entry ∧ exceeds entry = false

theorem taken_of_chosen {input chosen : List InboxMember} (hsome : input ≠ [])
    (h : choose digests input [] (priorityFirst input) = .ok chosen) :
    Taken digests input
      (sortMembers (if chosen.isEmpty then (priorityFirst input).take 1 else chosen)) := by
  obtain ⟨⟨k, -, hchoice⟩, hpassed⟩ := choose_chosen (Or.inl rfl) h
  rw [List.nil_append] at hchoice
  refine ⟨sortMembers_ordered _, ?_, ?_⟩
  · cases hempty : chosen.isEmpty with
    | true => exact ⟨1, le_refl _, sortMembers_perm _⟩
    | false =>
      refine ⟨k, ?_, ?_⟩
      · rcases Nat.eq_zero_or_pos k with rfl | hpos
        · rw [hchoice] at hempty
          exact nomatch hempty
        · exact hpos
      · rw [← hchoice]
        exact sortMembers_perm _
  · cases hempty : chosen.isEmpty with
    | true =>
      left
      have hpos : 0 < (priorityFirst input).length := by
        rw [(priorityFirst_perm input).length_eq]
        exact List.length_pos_of_ne_nil hsome
      rw [(sortMembers_perm _).length_eq, if_pos rfl, List.length_take]
      exact Nat.min_eq_left hpos
    | false =>
      right
      rcases hpassed with rfl | ⟨entry, hentry⟩
      · exact nomatch hempty
      · exact ⟨_, entry, hentry⟩

/-! ### What a batch holds -/

/-- A batch of two or more members: its entry keeps the bounds, every member is accepted, and the part
of every member reads back as the member's content. -/
structure HoldsMembers (digests : Digests) (entry : QueueEntry) (members : List InboxMember) : Prop where
  bounded : ∃ content, entry.content = some content ∧ Bounded content
  verified : ∀ member ∈ members, verifyBatchMembership digests entry member.entry.id
    (some (digests.structuredContentDigest member.entry.given)) = true
  contents : ∀ i member, members[i]? = some member → ∃ content parts part, entry.content = some content ∧
    entry.parts = some parts ∧ parts[i]? = some part ∧ part.operationId = member.entry.id ∧
    batchPartContent content parts i part = some member.entry.given

theorem Pairs.member {members : List InboxMember} {pairs : List Normalized}
    (h : Pairs digests members pairs) {i : Nat} {member : InboxMember} (hmember : members[i]? = some member) :
    ∃ pair, pairs[i]? = some pair ∧ pair.2.id = member.entry.id ∧ pair.2.content = member.entry.given ∧
      pair.2.contentDigest = digests.structuredContentDigest member.entry.given := by
  rw [← h.members, List.getElem?_map, Option.map_eq_some_iff] at hmember
  obtain ⟨pair, hpair, rfl⟩ := hmember
  exact ⟨pair, hpair, normalizeQueueEntry_ok (h.normalized pair (List.mem_of_getElem? hpair))⟩

theorem Pairs.distinct {members : List InboxMember} {pairs : List Normalized}
    (h : Pairs digests members pairs) (hwaiting : Waiting digests members) : Distinct pairs := by
  have hids : pairs.map (·.2.id) = members.map (·.entry.id) := by
    rw [← h.members, List.map_map]
    apply List.map_congr_left
    intro pair hpair
    exact (normalizeQueueEntry_ok (h.normalized pair hpair)).1
  have hmem : ∀ pair ∈ pairs, pair.1 ∈ members := by
    intro pair hpair
    rw [← h.members]
    exact List.mem_map_of_mem hpair
  refine ⟨by rw [hids]; exact hwaiting.nodup, ?_, ?_⟩
  · intro pair hpair
    rw [(normalizeQueueEntry_ok (h.normalized pair hpair)).1]
    exact hwaiting.named _ (hmem pair hpair)
  · intro a ha b hb hsame
    obtain ⟨-, hcontent, hdigest⟩ := normalizeQueueEntry_ok (h.normalized a ha)
    obtain ⟨-, hcontent', hdigest'⟩ := normalizeQueueEntry_ok (h.normalized b hb)
    rw [hdigest, hdigest'] at hsame
    rw [hcontent, hcontent']
    exact hwaiting.contents _ (hmem a ha) _ (hmem b hb) hsame

/-- Some of the waiting members. -/
theorem Waiting.subperm {input members : List InboxMember} (h : Waiting digests input)
    (hsub : members.Subperm input) : Waiting digests members := by
  refine ⟨hsub.length_le.trans h.few, ?_, ?_, h.digested, ?_⟩
  · obtain ⟨some, hperm, hsublist⟩ := hsub
    exact (hperm.map _).nodup_iff.mp ((hsublist.map _).nodup h.nodup)
  · intro member hmember
    exact h.named member (hsub.subset hmember)
  · intro a ha b hb
    exact h.contents a (hsub.subset ha) b (hsub.subset hb)

/-- **A rendered choice holds its members.** -/
theorem holdsMembers {members : List InboxMember} {held held' : Nat} {passed entry : QueueEntry}
    (hwaiting : Waiting digests members) (htwo : 2 ≤ members.length)
    (hpassed : render digests members held = .ok passed) (hbounds : exceeds passed = false)
    (hentry : render digests members held' = .ok entry) (hheld' : held' ≤ MAX_SAFE_INTEGER) :
    HoldsMembers digests entry members := by
  obtain ⟨pairs, hpairs, hrendered⟩ := render_rendered hpassed
  obtain ⟨pairs', hpairs', hrendered'⟩ := render_rendered hentry
  rw [hpairs] at hpairs'
  obtain rfl := Except.ok.inj hpairs'
  have hof := normalizeMembers_pairs hpairs
  have hlength : pairs.length = members.length := by rw [← hof.members, List.length_map]
  have hsome : pairs ≠ [] := List.ne_nil_of_length_pos (by omega)
  obtain ⟨hbounded, hmany⟩ := bounded_of_choice hrendered hsome hbounds hheld'
  have hdistinct := hof.distinct hwaiting
  have hout := rendered digests held' pairs
  have hdigests : ∀ pair ∈ pairs, pair.2.contentDigest = digests.structuredContentDigest pair.2.content := by
    intro pair hpair
    obtain ⟨-, hcontent, hdigest⟩ := normalizeQueueEntry_ok (hof.normalized pair hpair)
    rw [hcontent, hdigest]
  have hsafe : MAX_STRUCTURED_TEXT_BYTES ≤ MAX_SAFE_INTEGER ∧ 16 ≤ MAX_SAFE_INTEGER := by decide
  refine ⟨⟨_, hrendered'.content, hbounded⟩, ?_, ?_⟩
  · intro member hmember
    obtain ⟨i, hi⟩ := List.getElem?_of_mem hmember
    obtain ⟨pair, hpair, hid, -, hdigest⟩ := hof.member hi
    rw [← hid, ← hdigest]
    apply hout.verified hdistinct hdigests hwaiting.digested (by omega) hmany
    · exact ((length_le_utf8Length _).trans hbounded.text).trans hsafe.1
    · exact hbounded.images.trans hsafe.2
    · exact hrendered'.parts
    · exact hrendered'.content
    · exact hrendered'.id
    · exact hrendered'.contentDigest
    · exact List.mem_of_getElem? hpair
  · intro i member hmember
    obtain ⟨pair, hpair, hid, hcontent, -⟩ := hof.member hmember
    obtain ⟨part, hpart, htold⟩ := hout.part hpair
    refine ⟨_, _, part, hrendered'.content, hrendered'.parts, hpart, htold.operationId.trans hid, ?_⟩
    rw [← hcontent]
    exact hout.content hdistinct hpair hpart

/-- What a composed batch keeps of its input. -/
structure Lossless (digests : Digests) (input : List InboxMember) (batch : ComposedBatch) : Prop where
  partition : (batch.members ++ batch.remaining).Perm input
  left : batch.remaining.Sublist input
  ordered : batch.members.Pairwise fun a b => a.eventSeq ≤ b.eventSeq
  taken : ∃ k, 1 ≤ k ∧ batch.members.Perm ((priorityFirst input).take k)
  alone : ∀ member, batch.members = [member] → batch.entry.id = member.entry.id ∧
    batch.entry.content = some member.entry.given ∧
    batch.entry.contentDigest = some (digests.structuredContentDigest member.entry.given)
  together : 2 ≤ batch.members.length → HoldsMembers digests batch.entry batch.members

/-- The entry of a batch. -/
theorem composeBatch_taken {input : List InboxMember} {heldOrdinaryCount : Nat} {batch : ComposedBatch}
    (h : composeBatch digests input heldOrdinaryCount = .ok batch) :
    Taken digests input batch.members ∧ batch.remaining = remainingOf input batch.members ∧
      ((∃ member entry, batch.members = [member] ∧ normalizeQueueEntry digests member.entry = .ok entry ∧
          batch.entry = entry.alone) ∨
        (∀ member, batch.members ≠ [member]) ∧ ∃ held, held ≤ input.length ∧
          render digests batch.members (max held heldOrdinaryCount) = .ok batch.entry) := by
  unfold composeBatch at h
  split at h
  · exact nomatch h
  · next hsome =>
    split at h
    · exact nomatch h
    · dsimp only at h
      cases hchosen : choose digests input [] (priorityFirst input) with
      | error message =>
        rw [hchosen] at h
        exact nomatch h
      | ok chosen =>
        rw [hchosen] at h
        have htaken := taken_of_chosen (by simpa using hsome) hchosen
        simp only [Bind.bind, Except.bind] at h
        generalize sortMembers (if chosen.isEmpty then (priorityFirst input).take 1 else chosen)
          = selected at h htaken
        have hheld : ∀ p : InboxMember → Bool,
            (remainingOf input selected).countP p ≤ input.length := fun p =>
          List.countP_le_length.trans (List.length_filter_le _ _)
        split at h
        · next member =>
          cases hentry : normalizeQueueEntry digests member.entry with
          | error message =>
            rw [hentry] at h
            exact nomatch h
          | ok entry =>
            rw [hentry] at h
            obtain rfl := Except.ok.inj h
            exact ⟨htaken, rfl, Or.inl ⟨member, entry, rfl, hentry, rfl⟩⟩
        · next hseveral =>
          split at h
          · exact nomatch h
          · next entry hentry =>
            obtain rfl := Except.ok.inj h
            refine ⟨htaken, rfl, Or.inr ⟨hseveral, _, ?_, hentry⟩⟩
            split
            · exact hheld _
            · exact Nat.zero_le _

theorem zip_tail_ordered {input : List InboxMember}
    (h : input.Pairwise fun a b => a.eventSeq ≤ b.eventSeq) :
    ((input.zip input.tail).any fun pair => pair.2.eventSeq < pair.1.eventSeq) = false := by
  induction input with
  | nil => rfl
  | cons member rest ih =>
    cases rest with
    | nil => rfl
    | cons next more =>
      obtain ⟨hfirst, hrest⟩ := List.pairwise_cons.mp h
      have hnext := hfirst next List.mem_cons_self
      rw [List.tail_cons, List.zip_cons_cons, List.any_cons, Bool.or_eq_false_iff]
      exact ⟨by simpa using hnext, ih hrest⟩

/-- An admission-ordered input whose entries normalize is composed. -/
theorem composeBatch_ok {input : List InboxMember} {heldOrdinaryCount : Nat} (hsome : input ≠ [])
    (hordered : input.Pairwise fun a b => a.eventSeq ≤ b.eventSeq)
    (hnormal : ∀ member ∈ input, ∃ entry, normalizeQueueEntry digests member.entry = .ok entry) :
    ∃ batch, composeBatch digests input heldOrdinaryCount = .ok batch := by
  have hcandidates : ∀ member ∈ [] ++ priorityFirst input,
      ∃ entry, normalizeQueueEntry digests member.entry = .ok entry := by
    intro member hmember
    exact hnormal member ((priorityFirst_perm input).mem_iff.mp hmember)
  obtain ⟨chosen, hchosen⟩ := @choose_ok digests input _ _ hcandidates
  obtain ⟨-, ⟨k, -, htaken⟩, -⟩ := taken_of_chosen hsome hchosen
  unfold composeBatch
  rw [if_neg (by simpa using hsome), zip_tail_ordered hordered, if_neg Bool.false_ne_true]
  dsimp only
  rw [hchosen]
  simp only [Bind.bind, Except.bind]
  generalize sortMembers (if chosen.isEmpty then (priorityFirst input).take 1 else chosen)
    = selected at htaken
  have hselected : ∀ member ∈ selected, ∃ entry, normalizeQueueEntry digests member.entry = .ok entry := by
    intro member hmember
    exact hcandidates member (List.mem_of_mem_take (htaken.mem_iff.mp hmember))
  split
  · next member =>
    obtain ⟨entry, hentry⟩ := hselected member (List.mem_singleton_self _)
    rw [hentry]
    exact ⟨_, rfl⟩
  · obtain ⟨pairs, hpairs, -⟩ := normalizeMembers_ok hselected
    split
    · next message herror =>
      obtain ⟨entry, hentry, -⟩ := render_ok _ hpairs
      rw [hentry] at herror
      exact nomatch herror
    · exact ⟨_, rfl⟩

/-- **A composed batch is lossless and verifies itself.**  It fails on no admission-ordered input whose
entries normalize. -/
theorem composeBatch_lossless {input : List InboxMember} {heldOrdinaryCount : Nat}
    (hwaiting : Waiting digests input) (hheld : heldOrdinaryCount ≤ MAX_SAFE_INTEGER) :
    (∀ batch, composeBatch digests input heldOrdinaryCount = .ok batch → Lossless digests input batch) ∧
      (input ≠ [] → input.Pairwise (fun a b => a.eventSeq ≤ b.eventSeq) →
        (∀ member ∈ input, ∃ entry, normalizeQueueEntry digests member.entry = .ok entry) →
        ∃ batch, composeBatch digests input heldOrdinaryCount = .ok batch) := by
  refine ⟨?_, composeBatch_ok⟩
  intro batch hbatch
  obtain ⟨⟨hordered, ⟨k, hk, htaken⟩, hpassed⟩, hremaining, hentry⟩ := composeBatch_taken hbatch
  have hpartition := partition hwaiting.nodup (priorityFirst_perm input) htaken
  rw [← hremaining] at hpartition
  refine ⟨hpartition, ?_, hordered, ⟨k, hk, htaken⟩, ?_, ?_⟩
  · rw [hremaining]
    exact List.filter_sublist
  · intro member hmember
    rcases hentry with ⟨other, entry, hmembers, hnormal, halone⟩ | ⟨hseveral, -⟩
    · rw [hmembers, List.cons.injEq] at hmember
      rw [hmember.1] at hnormal
      obtain ⟨hid, hcontent, hdigest⟩ := normalizeQueueEntry_ok hnormal
      rw [halone]
      exact ⟨hid, congrArg some hcontent, congrArg some hdigest⟩
    · exact absurd hmember (hseveral member)
  · intro htwo
    have hsub : batch.members.Subperm input :=
      (List.sublist_append_left batch.members batch.remaining).subperm.trans hpartition.subperm
    rcases hpassed with hone | ⟨held, passed, hpassed, hbounds⟩
    · omega
    · rcases hentry with ⟨member, entry, hmembers, -, -⟩ | ⟨-, held', hfew, hentry⟩
      · rw [hmembers, List.length_singleton] at htwo
        omega
      · apply holdsMembers (hwaiting.subperm hsub) htwo hpassed hbounds hentry
        exact max_le (hfew.trans hwaiting.few) hheld

/-- Two copies of a text that imitates a header, and an operator's message with an image. -/
theorem composeBatch_lossless_copies :
    let text := units "[1/2 · from a"
    let image : StructuredImageRef := { sha256 := "ab", mime := .png, bytes := 40 }
    let digests : Digests :=
      { structuredContentDigest := fun content => if content.images.isEmpty then "text" else "image"
        inboxBatchId := fun parts => "inbox_" ++ toString parts.length
        isoDate := fun _ => none }
    let member := fun (id seq : Nat) (priority : Bool) (content : StructuredMessageContent) =>
      ({ entry := { id := toString id, content := some content }, admittedAt := "", eventSeq := seq,
         priority := priority } : InboxMember)
    let input := [member 1 4 false { text := text, images := [] },
      member 2 5 true { text := units "look", images := [image] },
      member 3 6 false { text := text, images := [] }]
    ∃ batch, composeBatch digests input 0 = .ok batch ∧ batch.members.map (·.eventSeq) = [4, 5, 6] ∧
      Lossless digests input batch := by
  intro text image digests member input
  have hwaiting : Waiting digests input := by
    refine ⟨by decide, by decide, by decide, ?_, by decide⟩
    intro content
    dsimp only [digests]
    split <;> decide
  have hcomposed : (composeBatch digests input 0).toOption.map (fun batch => batch.members.map (·.eventSeq))
      = some [4, 5, 6] := by decide +kernel
  obtain ⟨hlossless, hok⟩ := @composeBatch_lossless digests input 0 hwaiting (by decide)
  cases hbatch : composeBatch digests input 0 with
  | error message =>
      rw [hbatch] at hcomposed
      exact nomatch hcomposed
  | ok batch =>
      rw [hbatch] at hcomposed
      exact ⟨batch, rfl, Option.some.inj hcomposed, hlossless batch hbatch⟩

end Delegatus.InboxBatch
