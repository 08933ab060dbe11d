import Delegatus.UnitText
import Delegatus.Utf8Texts
import Mathlib.Data.List.DropRight

/-!
# Chunks of speech

`takeVoiceStreamChunk` cuts the next chunk from the text that waits to be spoken, at the end of a sentence,
at white space, or where the window ends that `utf8ChunkAt` bounds in bytes.  `takes_chunk` is what one
chunk is like, and `drain_flatten` that the chunks taken to the end are the whole text.
-/

namespace Delegatus.VoiceChunks

open JsonText UnitText Utf8Texts

/-! ### Windows -/

/-- The loop over the code points: those that fit beside the `bytes` of the earlier ones.  The first one
always does. -/
def fitting (maxBytes bytes : ℕ) (first : Bool) : List Text → List Text
  | [] => []
  | symbol :: rest =>
    if !first && decide (maxBytes < bytes + pointBytes symbol) then []
    else symbol :: fitting maxBytes (bytes + pointBytes symbol) false rest

/-- The chunk from `offset` on and the offset of the next; `none` at the end of the text. -/
def utf8ChunkAt (value : Text) (offset maxBytes : ℕ) : Except Text (Option (Text × ℕ)) :=
  if value.length < offset then .error (units "voice delivery offset is invalid")
  else if 0 < offset ∧ (value[offset]?.any isTrail && value[offset - 1]?.any isLead) then
    .error (units "voice delivery offset splits a Unicode scalar")
  else if maxBytes < 4 then .error (units "voice delivery chunk size is invalid")
  else if offset = value.length then .ok none
  else
    let text := (fitting maxBytes 0 true (points (value.drop offset))).flatten
    if text = [] then .ok none else .ok (some (text, offset + text.length))

/-! ### Boundaries -/

def VOICE_STREAM_MIN_SENTENCE_CHARS : ℕ := 180
def VOICE_STREAM_DEADLINE_MIN_CHARS : ℕ := 140
def VOICE_STREAM_TARGET_CHARS : ℕ := 560
def VOICE_STREAM_MAX_BYTES : ℕ := 1800

/-- `[.!?…]` -/
def isStop (u : UInt16) : Bool := u = 46 || u = 33 || u = 63 || u = 0x2026

/-- `["')\]}»”’]` -/
def isCloser (u : UInt16) : Bool :=
  u = 34 || u = 39 || u = 41 || u = 93 || u = 125 || u = 0xBB || u = 0x201D || u = 0x2019

/-- The length of a match of the sentence pattern at the start of a text. -/
def sentenceMatch : Text → Option ℕ
  | [] => none
  | u :: rest =>
    let closers := rest.takeWhile isCloser
    let spaces := (rest.drop closers.length).takeWhile isWhite
    if isStop u && !spaces.isEmpty then some (1 + closers.length + spaces.length) else none

/-- The ends of the matches; after one the search goes on at its end, for which it skips its units. -/
def matchEnds (offset skip : ℕ) : Text → List ℕ
  | [] => []
  | u :: rest =>
    match skip with
    | skip + 1 => matchEnds (offset + 1) skip rest
    | 0 =>
      match sentenceMatch (u :: rest) with
      | some length => (offset + length) :: matchEnds (offset + 1) (length - 1) rest
      | none => matchEnds (offset + 1) 0 rest

/-- The last end of a sentence that is not before `minimum`. -/
def lastBoundary (value : Text) (minimum : ℕ) : Option ℕ :=
  ((matchEnds 0 0 value).filter (minimum ≤ ·)).getLast?

/-- `value.search(/\s+\S*$/u)`: where the last run of white space starts. -/
def lastSpaces (value : Text) : Option ℕ :=
  let front := value.rdropWhile fun u => !isWhite u
  if front = [] then none else some (front.rdropWhile isWhite).length

def whitespaceBoundary (value : Text) (preferred minimum : ℕ) : ℕ :=
  match (lastSpaces (value.take (preferred + 1))).filter (minimum ≤ ·) with
  | some before => before + ((value.drop before).takeWhile isWhite).length
  | none =>
    match (value.drop preferred).findIdx? isWhite with
    | some after => preferred + after + 1
    | none => value.length

/-! ### Chunks -/

inductive VoiceStreamFlushMode
  | eager
  | deadline
  | final
deriving DecidableEq

structure VoiceStreamChunk where
  text : Text
  remainder : Text

/-- Where the window is cut, if it is. -/
def cutOf (buffer window : Text) (hardBounded : Bool) (mode : VoiceStreamFlushMode) : Option ℕ :=
  match lastBoundary window VOICE_STREAM_MIN_SENTENCE_CHARS with
  | some sentence => some sentence
  | none =>
    if mode = .final then some window.length
    else if hardBounded || decide (VOICE_STREAM_TARGET_CHARS ≤ buffer.length) then
      some (whitespaceBoundary window (min VOICE_STREAM_TARGET_CHARS window.length) VOICE_STREAM_MIN_SENTENCE_CHARS)
    else if mode = .deadline ∧ VOICE_STREAM_DEADLINE_MIN_CHARS ≤ buffer.length then
      some (whitespaceBoundary window window.length VOICE_STREAM_DEADLINE_MIN_CHARS)
    else none

/-- An error is one that `utf8ChunkAt` throws, or that of a window that is missing. -/
def takeVoiceStreamChunk (buffer : Text) (mode : VoiceStreamFlushMode) : Except Text (Option VoiceStreamChunk) :=
  if buffer = [] then .ok none
  else
    match utf8ChunkAt buffer 0 VOICE_STREAM_MAX_BYTES with
    | .error error => .error error
    | .ok none => .error (units "bounded is null")
    | .ok (some (window, nextOffset)) =>
      match cutOf buffer window (decide (nextOffset < buffer.length)) mode with
      | none => .ok none
      | some cut => if cut = 0 then .ok none else .ok (some ⟨buffer.take cut, buffer.drop cut⟩)

/-- Chunks are taken in final mode until the buffer is empty; `none` when `rounds` are not enough. -/
def drain : ℕ → Text → Option (List Text)
  | rounds, buffer =>
    if buffer = [] then some []
    else
      match rounds with
      | 0 => none
      | rounds + 1 =>
        match takeVoiceStreamChunk buffer .final with
        | .ok (some chunk) => (drain rounds chunk.remainder).map (chunk.text :: ·)
        | _ => none

/-! ### Where a text may be cut -/

/-- White space ends at `cut`. -/
def WhiteEnd (text : Text) (cut : ℕ) : Prop :=
  ∃ front u back, text = front ++ u :: back ∧ cut = front.length + 1 ∧ isWhite u = true

theorem WhiteEnd.cons {text : Text} {cut : ℕ} (u : UInt16) (h : WhiteEnd text cut) : WhiteEnd (u :: text) (cut + 1) := by
  obtain ⟨front, w, back, rfl, rfl, hwhite⟩ := h
  exact ⟨u :: front, w, back, rfl, rfl, hwhite⟩

theorem isLead_of_white {u : UInt16} (h : isWhite u = true) : isLead u = false := by
  unfold isWhite at h
  unfold isLead
  simp only [Bool.or_eq_true, Bool.and_eq_true, decide_eq_true_eq, UInt16.le_iff_toNat_le, ← UInt16.toNat_inj,
    UInt16.reduceToNat] at h
  simp only [UInt16.le_iff_toNat_le, UInt16.reduceToNat, Bool.and_eq_false_iff, decide_eq_false_iff_not]
  omega

theorem WhiteEnd.apart {text : Text} {cut : ℕ} (h : WhiteEnd text cut) : Apart (text.take cut) (text.drop cut) := by
  obtain ⟨front, u, back, rfl, rfl, hwhite⟩ := h
  have htake : (front ++ u :: back).take (front.length + 1) = front ++ [u] := by
    rw [List.take_length_add_append, List.take_succ_cons, List.take_zero]
  rw [htake]
  exact Apart.of_last List.getLast?_concat (isLead_of_white hwhite)

/-- The end of a run of white space. -/
theorem whiteEnd_run (front back : Text) {w : UInt16} (hwhite : isWhite w = true) :
    WhiteEnd (front ++ w :: back) (front.length + ((w :: back).takeWhile isWhite).length) := by
  obtain ⟨run, last, hrun⟩ : ∃ run last, (w :: back).takeWhile isWhite = run ++ [last] := by
    rw [List.takeWhile_cons_of_pos hwhite]
    exact ⟨_, _, (List.dropLast_append_getLast (List.cons_ne_nil _ _)).symm⟩
  refine ⟨front ++ run, last, (w :: back).dropWhile isWhite, ?_, ?_, ?_⟩
  · calc front ++ w :: back = front ++ ((w :: back).takeWhile isWhite ++ (w :: back).dropWhile isWhite) := by
          rw [List.takeWhile_append_dropWhile]
      _ = front ++ run ++ last :: (w :: back).dropWhile isWhite := by rw [hrun]; simp
  · rw [hrun, List.length_append, List.length_append, List.length_singleton, Nat.add_assoc]
  · exact List.mem_takeWhile_imp (hrun ▸ List.mem_append_right run List.mem_cons_self)

/-! ### Boundaries -/

theorem sentenceMatch_spec {text : Text} {n : ℕ} (h : sentenceMatch text = some n) : WhiteEnd text n := by
  cases text with
  | nil => exact absurd h nofun
  | cons u rest =>
    unfold sentenceMatch at h
    dsimp only at h
    split at h
    · rename_i hmatch
      obtain ⟨-, hspaces⟩ := Bool.and_eq_true_iff.mp hmatch
      cases hdrop : rest.drop (rest.takeWhile isCloser).length with
      | nil =>
        rw [hdrop] at hspaces
        exact absurd hspaces (by decide)
      | cons w back =>
        have hwhite : isWhite w = true := by
          by_contra hnot
          rw [hdrop, List.takeWhile_cons_of_neg hnot] at hspaces
          exact absurd hspaces (by decide)
        have hrun := whiteEnd_run (u :: rest.takeWhile isCloser) back hwhite
        have htext : u :: rest.takeWhile isCloser ++ w :: back = u :: rest := by
          rw [← hdrop, List.cons_append]
          congr 1
          conv_rhs => rw [← List.take_append_drop (rest.takeWhile isCloser).length rest]
          rw [← List.prefix_iff_eq_take.mp (List.takeWhile_prefix _)]
        rw [htext, List.length_cons] at hrun
        rw [hdrop, Option.some.injEq] at h
        rw [← h, Nat.add_comm 1]
        exact hrun
    · exact absurd h nofun

theorem matchEnds_spec {offset skip e : ℕ} {text : Text} (h : e ∈ matchEnds offset skip text) :
    ∃ cut, e = offset + cut ∧ WhiteEnd text cut := by
  induction text generalizing offset skip with
  | nil => exact absurd h List.not_mem_nil
  | cons u rest ih =>
    have hlift : ∀ {skip}, e ∈ matchEnds (offset + 1) skip rest → ∃ cut, e = offset + cut ∧ WhiteEnd (u :: rest) cut := by
      intro skip hmem
      obtain ⟨cut, rfl, hcut⟩ := ih hmem
      exact ⟨cut + 1, by omega, hcut.cons u⟩
    cases skip with
    | succ skip => exact hlift h
    | zero =>
      rw [matchEnds] at h
      cases hmatch : sentenceMatch (u :: rest) with
      | none =>
        rw [hmatch] at h
        exact hlift h
      | some length =>
        rw [hmatch] at h
        rcases List.mem_cons.mp h with rfl | hmem
        · exact ⟨length, rfl, sentenceMatch_spec hmatch⟩
        · exact hlift hmem

theorem lastBoundary_spec {value : Text} {minimum cut : ℕ} (h : lastBoundary value minimum = some cut) :
    WhiteEnd value cut := by
  have hmem := List.mem_of_getLast? h
  obtain ⟨stop, heq, hend⟩ := matchEnds_spec (List.mem_filter.mp hmem).1
  rw [heq, Nat.zero_add]
  exact hend

theorem lastSpaces_spec {value : Text} {before : ℕ} (h : lastSpaces value = some before) :
    ∃ front w back, value = front ++ w :: back ∧ before = front.length ∧ isWhite w = true := by
  unfold lastSpaces at h
  dsimp only at h
  split at h
  · exact absurd h nofun
  · rename_i hfront
    obtain ⟨tail, htail⟩ := List.rdropWhile_prefix (fun u => !isWhite u) (l := value)
    have hlast := List.rdropWhile_last_not (fun u => !isWhite u) value hfront
    generalize value.rdropWhile (fun u => !isWhite u) = front at *
    rw [Bool.not_eq_true', Bool.not_eq_false] at hlast
    cases hrun : front.rtakeWhile isWhite with
    | nil => exact absurd hlast (List.rtakeWhile_eq_nil_iff.mp hrun hfront)
    | cons w run =>
      have hsplit : front.rdropWhile isWhite ++ w :: run = front := hrun ▸ List.rdropWhile_append_rtakeWhile
      refine ⟨front.rdropWhile isWhite, w, run ++ tail, ?_, (Option.some.inj h).symm, ?_⟩
      · rw [← htail, ← List.cons_append, ← List.append_assoc, hsplit]
      · exact List.mem_rtakeWhile_imp (hrun ▸ List.mem_cons_self)

/-- The cut is after white space or at the end. -/
theorem whitespaceBoundary_spec (value : Text) (preferred minimum : ℕ) :
    WhiteEnd value (whitespaceBoundary value preferred minimum) ∨
      whitespaceBoundary value preferred minimum = value.length := by
  unfold whitespaceBoundary
  cases hbefore : (lastSpaces (value.take (preferred + 1))).filter (minimum ≤ ·) with
  | some before =>
    obtain ⟨front, w, back, hvalue, rfl, hwhite⟩ := lastSpaces_spec (Option.filter_eq_some_iff.mp hbefore).1
    have hwhole : value = front ++ w :: (back ++ value.drop (preferred + 1)) := by
      rw [← List.cons_append, ← List.append_assoc, ← hvalue, List.take_append_drop]
    have hdrop : value.drop front.length = w :: (back ++ value.drop (preferred + 1)) := by
      conv_lhs => rw [hwhole]
      rw [List.drop_left]
    left
    dsimp only
    rw [hdrop]
    conv_lhs => rw [hwhole]
    exact whiteEnd_run front _ hwhite
  | none =>
    dsimp only
    cases hafter : (value.drop preferred).findIdx? isWhite with
    | none => exact Or.inr rfl
    | some after =>
      obtain ⟨hlt, hwhite, -⟩ := List.findIdx?_eq_some_iff_getElem.mp hafter
      left
      have hheld : preferred + after < value.length := by
        rw [List.length_drop] at hlt
        omega
      refine ⟨value.take (preferred + after), value[preferred + after], value.drop (preferred + after + 1), ?_, ?_, ?_⟩
      · rw [← List.drop_eq_getElem_cons, List.take_append_drop]
      · rw [List.length_take, Nat.min_eq_left (Nat.le_of_lt hheld)]
      · rw [List.getElem_drop] at hwhite
        exact hwhite

/-! ### Windows -/

theorem pointBytes_le (symbol : Text) : pointBytes symbol ≤ 4 := by
  unfold pointBytes
  split
  · split
    · decide
    · split <;> decide
  · decide

theorem fitting_front (maxBytes bytes : ℕ) (first : Bool) (symbols : List Text) :
    ∃ rest, symbols = fitting maxBytes bytes first symbols ++ rest := by
  induction symbols generalizing bytes first with
  | nil => exact ⟨[], rfl⟩
  | cons symbol symbols ih =>
    rw [fitting]
    split
    · exact ⟨symbol :: symbols, rfl⟩
    · obtain ⟨rest, hrest⟩ := ih (bytes + pointBytes symbol) false
      exact ⟨rest, by rw [List.cons_append, ← hrest]⟩

/-- The bytes stay within the bound, which has room for any one symbol. -/
theorem fitting_bytes {maxBytes : ℕ} (hmax : 4 ≤ maxBytes) {bytes : ℕ} (hbytes : bytes ≤ maxBytes) {first : Bool}
    (hfirst : first = true → bytes = 0) (symbols : List Text) :
    bytes + ((fitting maxBytes bytes first symbols).map pointBytes).sum ≤ maxBytes := by
  induction symbols generalizing bytes first with
  | nil => exact hbytes
  | cons symbol symbols ih =>
    rw [fitting]
    split
    · exact hbytes
    · rename_i htaken
      have hroom : bytes + pointBytes symbol ≤ maxBytes := by
        cases first with
        | true => rw [hfirst rfl, Nat.zero_add]; exact (pointBytes_le symbol).trans hmax
        | false => simpa using htaken
      rw [List.map_cons, List.sum_cons, ← Nat.add_assoc]
      exact ih hroom nofun

theorem fitting_ne_nil {maxBytes : ℕ} {symbols : List Text} (h : symbols ≠ []) : fitting maxBytes 0 true symbols ≠ [] := by
  cases symbols with
  | nil => exact absurd rfl h
  | cons symbol symbols =>
    rw [fitting, Bool.not_true, Bool.false_and, if_neg Bool.false_ne_true]
    exact List.cons_ne_nil _ _

/-- What the window of a text is like. -/
structure Window (maxBytes : ℕ) (value window : Text) : Prop where
  nonempty : window ≠ []
  bytes : utf8Length window ≤ maxBytes
  apart : ∃ rest, value = window ++ rest ∧ Apart window rest

theorem utf8ChunkAt_zero {maxBytes : ℕ} (hmax : 4 ≤ maxBytes) {value : Text} (hvalue : value ≠ []) :
    ∃ window, utf8ChunkAt value 0 maxBytes = .ok (some (window, window.length)) ∧ Window maxBytes value window := by
  have hpoints : points value ≠ [] := by
    intro hnone
    rw [← points_flatten value, hnone] at hvalue
    exact hvalue rfl
  obtain ⟨rest, hrest⟩ := fitting_front maxBytes 0 true (points value)
  obtain ⟨hwindow, hapart⟩ := points_front hrest
  have hnonempty : (fitting maxBytes 0 true (points value)).flatten ≠ [] := by
    intro hnone
    rw [hnone] at hwindow
    exact fitting_ne_nil hpoints hwindow.symm
  refine ⟨(fitting maxBytes 0 true (points value)).flatten, ?_, hnonempty, ?_, rest.flatten, ?_, hapart⟩
  · have hlength : ¬0 = value.length := fun h => hvalue (List.eq_nil_of_length_eq_zero h.symm)
    unfold utf8ChunkAt
    rw [if_neg (Nat.not_lt_zero _), if_neg fun h => absurd h.1 (Nat.lt_irrefl 0), if_neg (Nat.not_lt.mpr hmax),
      if_neg hlength]
    dsimp only
    rw [List.drop_zero, if_neg hnonempty, Nat.zero_add]
  · unfold utf8Length
    rw [hwindow, ← Nat.zero_add (List.sum _)]
    exact fitting_bytes hmax (Nat.zero_le _) (fun _ => rfl) _
  · rw [← List.flatten_append, ← hrest, points_flatten]

/-! ### Chunks -/

theorem cutOf_spec {buffer window : Text} {hardBounded : Bool} {mode : VoiceStreamFlushMode} {cut : ℕ}
    (h : cutOf buffer window hardBounded mode = some cut) : WhiteEnd window cut ∨ cut = window.length := by
  unfold cutOf at h
  split at h
  · rename_i sentence hsentence
    obtain rfl := Option.some.inj h
    exact Or.inl (lastBoundary_spec hsentence)
  · split at h
    · exact Or.inr (Option.some.inj h).symm
    · split at h
      · obtain rfl := Option.some.inj h
        exact whitespaceBoundary_spec _ _ _
      · split at h
        · obtain rfl := Option.some.inj h
          exact whitespaceBoundary_spec _ _ _
        · cases h

/-- The final mode always cuts. -/
theorem cutOf_final (buffer window : Text) (hardBounded : Bool) : ∃ cut, cutOf buffer window hardBounded .final = some cut := by
  unfold cutOf
  split
  · exact ⟨_, rfl⟩
  · exact ⟨_, if_pos rfl⟩

/-- A chunk of a buffer. -/
structure Chunk (buffer : Text) (chunk : VoiceStreamChunk) : Prop where
  whole : chunk.text ++ chunk.remainder = buffer
  nonempty : chunk.text ≠ []
  bytes : utf8Length chunk.text ≤ VOICE_STREAM_MAX_BYTES
  apart : Apart chunk.text chunk.remainder

/-- A cut inside the window leaves a chunk. -/
theorem chunk_of_cut {buffer window : Text} (hwindow : Window VOICE_STREAM_MAX_BYTES buffer window) {cut : ℕ}
    (hcut : WhiteEnd window cut ∨ cut = window.length) : Chunk buffer ⟨buffer.take cut, buffer.drop cut⟩ ∧ cut ≠ 0 := by
  obtain ⟨hnonempty, hbytes, rest, rfl, hapart⟩ := hwindow
  rcases hcut with hwhite | rfl
  · have hsum := utf8Length_append hwhite.apart
    have happart : Apart (window.take cut) (window.drop cut ++ rest) := by
      obtain ⟨front, u, back, rfl, rfl, hu⟩ := hwhite
      rw [List.take_length_add_append, List.take_succ_cons, List.take_zero]
      exact Apart.of_last List.getLast?_concat (isLead_of_white hu)
    obtain ⟨front, u, back, hsplit, hlength, -⟩ := hwhite
    have hle : cut ≤ window.length := by
      rw [hsplit, hlength, List.length_append, List.length_cons]
      omega
    rw [List.take_append_drop] at hsum
    rw [List.take_append_of_le_length hle, List.drop_append_of_le_length hle]
    refine ⟨⟨?_, ?_, (show utf8Length (window.take cut) ≤ VOICE_STREAM_MAX_BYTES by omega), happart⟩, by omega⟩
    · rw [← List.append_assoc, List.take_append_drop]
    · intro hnone
      have hzero := congrArg List.length hnone
      rw [List.length_take, Nat.min_eq_left hle] at hzero
      exact absurd hzero (by rw [hlength]; exact Nat.succ_ne_zero _)
  · rw [List.take_left, List.drop_left]
    exact ⟨⟨rfl, hnonempty, hbytes, hapart⟩, fun hzero => hnonempty (List.eq_nil_of_length_eq_zero hzero)⟩

/-- **One chunk** of a buffer, in any mode; in final mode there is one. -/
theorem take_spec {buffer : Text} (hbuffer : buffer ≠ []) (mode : VoiceStreamFlushMode) :
    ∃ taken, takeVoiceStreamChunk buffer mode = .ok taken ∧ (∀ chunk ∈ taken, Chunk buffer chunk) ∧
      (mode = .final → taken ≠ none) := by
  obtain ⟨window, hchunk, hwindow⟩ := utf8ChunkAt_zero (by decide : 4 ≤ VOICE_STREAM_MAX_BYTES) hbuffer
  unfold takeVoiceStreamChunk
  rw [if_neg hbuffer, hchunk]
  dsimp only
  cases hcut : cutOf buffer window (decide (window.length < buffer.length)) mode with
  | none =>
    refine ⟨none, rfl, nofun, ?_⟩
    rintro rfl
    obtain ⟨cut, hfinal⟩ := cutOf_final buffer window (decide (window.length < buffer.length))
    rw [hfinal] at hcut
    exact absurd hcut nofun
  | some cut =>
    obtain ⟨hspec, hpos⟩ := chunk_of_cut hwindow (cutOf_spec hcut)
    refine ⟨some ⟨buffer.take cut, buffer.drop cut⟩, if_neg hpos, fun chunk hmem => ?_, nofun⟩
    obtain rfl := Option.some.inj hmem
    exact hspec

/-- As many rounds as the buffer has units are enough, and the chunks are the buffer. -/
theorem drain_spec {rounds : ℕ} {buffer : Text} (h : buffer.length ≤ rounds) :
    ∃ chunks, drain rounds buffer = some chunks ∧ chunks.flatten = buffer ∧
      ∀ chunk ∈ chunks, chunk ≠ [] ∧ utf8Length chunk ≤ VOICE_STREAM_MAX_BYTES := by
  induction rounds generalizing buffer with
  | zero =>
    obtain rfl := List.eq_nil_of_length_eq_zero (Nat.le_zero.mp h)
    exact ⟨[], rfl, rfl, fun _ hmem => absurd hmem List.not_mem_nil⟩
  | succ rounds ih =>
    by_cases hbuffer : buffer = []
    · subst hbuffer
      exact ⟨[], rfl, rfl, fun _ hmem => absurd hmem List.not_mem_nil⟩
    · obtain ⟨taken, htake, hchunk, hsome⟩ := take_spec hbuffer .final
      obtain ⟨chunk, rfl⟩ := Option.ne_none_iff_exists'.mp (hsome rfl)
      obtain ⟨hwhole, hnonempty, hbytes, -⟩ := hchunk chunk rfl
      have hshorter : chunk.remainder.length ≤ rounds := by
        rw [← hwhole, List.length_append] at h
        have hpos := List.length_pos_iff.mpr hnonempty
        omega
      obtain ⟨chunks, hdrain, hflatten, hall⟩ := ih hshorter
      refine ⟨chunk.text :: chunks, ?_, ?_, ?_⟩
      · rw [drain, if_neg hbuffer, htake]
        dsimp only
        rw [hdrain, Option.map_some]
      · rw [List.flatten_cons, hflatten, hwhole]
      · intro other hmem
        rcases List.mem_cons.mp hmem with rfl | hmem
        · exact ⟨hnonempty, hbytes⟩
        · exact hall other hmem

/-- **Speech is cut without loss**: a chunk and its remainder are the buffer, the chunk is not empty, fits the
bound and splits no surrogate pair, and in final mode the chunks come to an end and are the buffer. -/
theorem voice_chunks_lossless (buffer : Text) :
    (∀ mode, ∃ taken, takeVoiceStreamChunk buffer mode = .ok taken ∧ ∀ chunk ∈ taken, Chunk buffer chunk) ∧
    ∀ rounds, buffer.length ≤ rounds → ∃ chunks, drain rounds buffer = some chunks ∧ chunks.flatten = buffer ∧
      ∀ chunk ∈ chunks, chunk ≠ [] ∧ utf8Length chunk ≤ VOICE_STREAM_MAX_BYTES := by
  refine ⟨fun mode => ?_, fun rounds h => drain_spec h⟩
  by_cases hbuffer : buffer = []
  · subst hbuffer
    exact ⟨none, rfl, nofun⟩
  · obtain ⟨taken, htake, hchunk, -⟩ := take_spec hbuffer mode
    exact ⟨taken, htake, hchunk⟩

end Delegatus.VoiceChunks
