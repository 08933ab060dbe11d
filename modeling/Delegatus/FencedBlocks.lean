import Delegatus.JsonTextLines
import Delegatus.StageVerdictChannels

/-!
# Fences stand at the start of a line

`fencedBlocks` goes through a text line by line and counts offsets by hand.  Every block it returns
opens at a line that is a fence, closes before a line that is one or at the end of the text, and its
payload is what the text holds between its bounds; the blocks come in order and do not meet.
-/

namespace Delegatus.StageVerdicts

open JsonText UnitText

/-! ### Lines at their offsets -/

/-- The line of a text that starts at an offset. -/
structure LineAt (text : Text) (offset : Nat) (line : Text) : Prop where
  around : ∃ front back, text = front ++ line ++ back ∧ front.length = offset ∧
    (front = [] ∨ ∃ before, front = before ++ [10]) ∧ (back = [] ∨ ∃ after, back = 10 :: after)
  whole : (10 : UInt16) ∉ line

def joinLines (lines : List Text) : Text := [10].intercalate lines

theorem joinLines_cons {lines : List Text} (line : Text) (h : lines ≠ []) :
    joinLines (line :: lines) = line ++ 10 :: joinLines lines := by
  cases lines with
  | nil => exact absurd rfl h
  | cons next lines => simp [joinLines, List.intercalate, List.intersperse]

/-- The lines that are still to be gone through. -/
structure Rest (text : Text) (lines : List Text) (offset lineNumber : Nat) : Prop where
  whole : ∀ line ∈ lines, (10 : UInt16) ∉ line
  ended : lines = [] → offset = text.length + 1
  cut : lines ≠ [] → ∃ front, text = front ++ joinLines lines ∧ front.length = offset ∧
    (front = [] ∨ ∃ before, front = before ++ [10]) ∧ front.count 10 = lineNumber

theorem Rest.lineAt {text line : Text} {lines : List Text} {offset lineNumber : Nat}
    (h : Rest text (line :: lines) offset lineNumber) : LineAt text offset line := by
  obtain ⟨front, htext, hlength, hfront, -⟩ := h.cut (List.cons_ne_nil _ _)
  refine ⟨?_, h.whole line List.mem_cons_self⟩
  by_cases hnil : lines = []
  · refine ⟨front, [], ?_, hlength, hfront, Or.inl rfl⟩
    rw [htext, hnil]
    simp [joinLines, List.intercalate]
  · rw [joinLines_cons line hnil] at htext
    exact ⟨front, 10 :: joinLines lines, by rw [htext, List.append_assoc], hlength, hfront,
      Or.inr ⟨_, rfl⟩⟩

theorem Rest.next {text line : Text} {lines : List Text} {offset lineNumber : Nat}
    (h : Rest text (line :: lines) offset lineNumber) :
    Rest text lines (offset + line.length + 1) (lineNumber + 1) := by
  obtain ⟨front, htext, hlength, -, hcount⟩ := h.cut (List.cons_ne_nil _ _)
  refine ⟨fun other hother => h.whole other (List.mem_cons_of_mem _ hother), ?_, ?_⟩
  · intro hnil
    rw [htext, hnil, ← hlength]
    simp [joinLines, List.intercalate]
  · intro hne
    rw [joinLines_cons line hne] at htext
    refine ⟨front ++ line ++ [10], by rw [htext]; simp, by simp [hlength, Nat.add_assoc],
      Or.inr ⟨_, rfl⟩, ?_⟩
    rw [List.count_append, List.count_append, hcount,
      List.count_eq_zero_of_not_mem (h.whole line List.mem_cons_self)]
    rfl

theorem Rest.line_le {text line : Text} {lines : List Text} {offset lineNumber : Nat}
    (h : Rest text (line :: lines) offset lineNumber) : offset + line.length ≤ text.length := by
  obtain ⟨front, back, htext, hlength, -⟩ := h.lineAt.around
  rw [htext, List.length_append, List.length_append, hlength]
  omega

theorem Rest.number {text line : Text} {lines : List Text} {offset lineNumber : Nat}
    (h : Rest text (line :: lines) offset lineNumber) : lineNumber = (text.take offset).count 10 := by
  obtain ⟨front, htext, hlength, -, hcount⟩ := h.cut (List.cons_ne_nil _ _)
  rw [htext, List.take_left' hlength, hcount]

theorem rest_splitOn (text : Text) : Rest text (text.splitOn 10) 0 0 := by
  refine ⟨?_, fun hnil => absurd hnil (List.splitOn_ne_nil 10 text), ?_⟩
  · intro line hline
    exact (exists_around_line hline).1
  · intro _
    refine ⟨[], ?_, rfl, Or.inl rfl, rfl⟩
    rw [joinLines, List.intercalate_splitOn, List.nil_append]

/-! ### Blocks -/

/-- A line that opens a block, with its fence and what follows it. -/
structure Opens (line token info : Text) : Prop where
  fence : fenceLine (dropCr line) = some (token, info)
  info : ¬(token.head? = some BACKTICK ∧ BACKTICK ∈ info)

/-- A line that closes a block opened by the fence `token`. -/
structure ClosesFence (token line : Text) : Prop where
  fence : ∃ token' info', fenceLine (dropCr line) = some (token', info') ∧
    token'.head? = token.head? ∧ token.length ≤ token'.length ∧ trim info' = []

/-- A block as a reader of the text finds it. -/
structure Faithful (text : Text) (block : FencedBlock) : Prop where
  payload : block.payload = (text.take block.payloadEnd).drop block.payloadStart
  bounds : block.payloadStart ≤ block.payloadEnd ∧ block.payloadEnd ≤ text.length
  line : block.line = (text.take block.index).count 10 + 1
  fences : ∃ opening token info, LineAt text block.index opening ∧ Opens opening token info ∧
    block.payloadStart = min (block.index + opening.length + 1) text.length ∧
    (block.payloadEnd = text.length ∨ ∃ offset closing, LineAt text offset closing ∧
      ClosesFence token closing ∧ block.payloadStart ≤ offset ∧
      block.payloadEnd = max block.payloadStart (offset - 1))

/-- A fence that was opened at a line of the text. -/
structure Opened (text : Text) (fence : OpenFence) : Prop where
  line : fence.line = (text.take fence.index).count 10 + 1
  opening : ∃ opening token info, LineAt text fence.index opening ∧ Opens opening token info ∧
    fence.payloadStart = min (fence.index + opening.length + 1) text.length ∧
    token.head? = some fence.marker ∧ token.length = fence.length

theorem fenceToken_ne_nil {text token info : Text} (h : fenceToken text = some (token, info)) :
    token ≠ [] := by
  unfold fenceToken at h
  split at h
  · exact nomatch h
  · rename_i marker _
    dsimp only at h
    split at h
    · rename_i hfence
      rw [← (Prod.mk.inj (Option.some.inj h)).1]
      intro hnil
      rw [hnil] at hfence
      simp at hfence
    · exact nomatch h

theorem fenceLine_ne_nil {line token info : Text} (h : fenceLine line = some (token, info)) :
    token ≠ [] := by
  unfold fenceLine at h
  split at h
  · exact fenceToken_ne_nil h
  · exact nomatch h

theorem head_of_ne_nil {token : Text} (h : token ≠ []) : token.head? = some (token.headD BACKTICK) := by
  cases token with
  | nil => exact absurd rfl h
  | cons u token => rfl

/-- The place from which the blocks that are yet to come start. -/
def startOf (fence : Option OpenFence) (offset : Nat) : Nat :=
  match fence with
  | none => offset
  | some fence => fence.index

structure Found (text : Text) (start : Nat) (blocks : List FencedBlock) : Prop where
  faithful : ∀ block ∈ blocks, Faithful text block
  from_start : ∀ block ∈ blocks, start ≤ block.index
  apart : blocks.Pairwise fun a b => a.payloadEnd < b.index

theorem Found.weaken {text : Text} {start start' : Nat} {blocks : List FencedBlock}
    (h : Found text start' blocks) (hle : start ≤ start') : Found text start blocks :=
  ⟨h.faithful, fun block hblock => hle.trans (h.from_start block hblock), h.apart⟩

theorem found_nil (text : Text) (start : Nat) : Found text start [] :=
  ⟨(fun _ hmem => nomatch hmem), (fun _ hmem => nomatch hmem), List.Pairwise.nil⟩

/-- A block that the end of the text closes. -/
theorem Opened.found {text : Text} {fence : OpenFence} (h : Opened text fence) :
    Found text fence.index
      [{ index := fence.index, line := fence.line, payload := text.drop fence.payloadStart
         payloadStart := fence.payloadStart, payloadEnd := text.length }] := by
  obtain ⟨opening, token, info, hat, hopens, hstart, -⟩ := h.opening
  have hle : fence.payloadStart ≤ text.length := by
    rw [hstart]
    exact Nat.min_le_right _ _
  refine ⟨?_, ?_, List.pairwise_singleton _ _⟩
  · intro block hblock
    rw [List.mem_singleton.mp hblock]
    refine ⟨?_, ⟨hle, Nat.le_refl _⟩, h.line, opening, token, info, hat, hopens, hstart, Or.inl rfl⟩
    dsimp only
    rw [List.take_length]
  · intro block hblock
    rw [List.mem_singleton.mp hblock]

/-! ### The scan -/

theorem opens_of_line {text line token info : Text} {offset lineNumber : Nat} {lines : List Text}
    (hrest : Rest text (line :: lines) offset lineNumber)
    (hfence : fenceLine (dropCr line) = some (token, info))
    (hinfo : ¬(token.head? = some BACKTICK && info.contains BACKTICK) = true) :
    Opened text
      { marker := token.headD BACKTICK, length := token.length, index := offset
        line := lineNumber + 1, payloadStart := min (offset + line.length + 1) text.length } := by
  refine ⟨by dsimp only; rw [hrest.number], line, token, info, hrest.lineAt, ⟨hfence, ?_⟩, rfl,
    head_of_ne_nil (fenceLine_ne_nil hfence), rfl⟩
  intro hboth
  apply hinfo
  rw [Bool.and_eq_true, decide_eq_true_eq, List.contains_iff_mem]
  exact hboth

/-- A line that closes the open block, and the blocks after it. -/
theorem Opened.closed {text line token info : Text} {offset lineNumber : Nat} {lines : List Text}
    {fence : OpenFence} (h : Opened text fence) (hrest : Rest text (line :: lines) offset lineNumber)
    (hstart : fence.payloadStart ≤ offset) (hbefore : fence.index < offset)
    (hfence : fenceLine (dropCr line) = some (token, info))
    (hcloses : (token.head? = some fence.marker && decide (token.length ≥ fence.length) &&
      decide (trim info = [])) = true) {blocks : List FencedBlock}
    (hblocks : Found text (offset + line.length + 1) blocks) {payloadEnd : Nat}
    (hend : payloadEnd = if offset > fence.payloadStart then offset - 1 else fence.payloadStart) :
    Found text fence.index
      ({ index := fence.index, line := fence.line
         payload := (text.take payloadEnd).drop fence.payloadStart
         payloadStart := fence.payloadStart, payloadEnd } :: blocks) := by
  obtain ⟨opening, token', info', hat, hopens, hpayload, hmarker, hlength⟩ := h.opening
  rw [Bool.and_eq_true, Bool.and_eq_true, decide_eq_true_eq, decide_eq_true_eq,
    decide_eq_true_eq] at hcloses
  have hoffset := hrest.line_le
  have hmax : payloadEnd = max fence.payloadStart (offset - 1) := by
    rw [hend]
    split
    · omega
    · omega
  refine ⟨?_, ?_, List.Pairwise.cons ?_ hblocks.apart⟩
  · intro block hblock
    rcases List.mem_cons.mp hblock with rfl | hblock
    · refine ⟨rfl, by dsimp only; omega, h.line, opening, token', info', hat, hopens, hpayload, Or.inr ?_⟩
      refine ⟨offset, line, hrest.lineAt, ⟨token, info, hfence, ?_, ?_, hcloses.2⟩, hstart, hmax⟩
      · rw [hcloses.1.1, hmarker]
      · rw [hlength]
        exact hcloses.1.2
    · exact hblocks.faithful block hblock
  · intro block hblock
    rcases List.mem_cons.mp hblock with rfl | hblock
    · exact Nat.le_refl _
    · have := hblocks.from_start block hblock
      omega
  · intro block hblock
    have := hblocks.from_start block hblock
    dsimp only
    omega

theorem found_scan {text : Text} {lines : List Text} {offset lineNumber : Nat}
    (hrest : Rest text lines offset lineNumber) (fence : Option OpenFence)
    (hfence : ∀ held, fence = some held →
      Opened text held ∧ held.index < offset ∧ held.payloadStart ≤ offset) :
    Found text (startOf fence offset) (scanFences text lines fence offset lineNumber) := by
  induction lines generalizing offset lineNumber fence with
  | nil =>
    cases fence with
    | none => exact found_nil text offset
    | some held => exact (hfence held rfl).1.found
  | cons line lines ih =>
    have hnone := ih hrest.next none (fun _ hheld => nomatch hheld)
    have hpast : offset ≤ offset + line.length + 1 := by omega
    cases hline : fenceLine (dropCr line) with
    | none =>
      cases fence with
      | none =>
        simp only [scanFences, hline]
        exact hnone.weaken hpast
      | some held =>
        obtain ⟨hopened, hindex, hstart⟩ := hfence held rfl
        simp only [scanFences, hline]
        apply ih hrest.next (some held)
        intro other hother
        rw [← Option.some.inj hother]
        exact ⟨hopened, by omega, by omega⟩
    | some read =>
      obtain ⟨token, info⟩ := read
      cases fence with
      | none =>
        simp only [scanFences, hline]
        split
        · exact hnone.weaken hpast
        · rename_i hinfo
          have hopened := opens_of_line hrest hline hinfo
          refine ih hrest.next
            (some
              { marker := token.headD BACKTICK, length := token.length, index := offset
                line := lineNumber + 1
                payloadStart := min (offset + line.length + 1) text.length }) ?_
          intro other hother
          rw [← Option.some.inj hother]
          exact ⟨hopened, by dsimp only; omega, Nat.min_le_left _ _⟩
      | some held =>
        obtain ⟨hopened, hindex, hstart⟩ := hfence held rfl
        simp only [scanFences, hline]
        split
        · rename_i hcloses
          exact hopened.closed hrest hstart hindex hline hcloses hnone rfl
        · apply ih hrest.next (some held)
          intro other hother
          rw [← Option.some.inj hother]
          exact ⟨hopened, by omega, by omega⟩

/-- Every block of a text is where a reader of its lines finds it, and blocks do not meet. -/
theorem found_fencedBlocks (text : Text) : Found text 0 (fencedBlocks text) :=
  found_scan (rest_splitOn text) none fun _ hheld => nomatch hheld

end Delegatus.StageVerdicts
