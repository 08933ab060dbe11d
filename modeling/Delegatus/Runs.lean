import Mathlib.Data.List.Basic
import Mathlib.Data.List.Induction
import Mathlib.Order.Basic

/-!
# Runs of a step function and their invariants

A component that answers every call with a new state and a result is a function
`step : σ → α → σ × ρ`.  A run is the list of calls it received.  This module states
once what is proved about runs by induction: a property kept by every step holds after
every run (`after_invariant`), a relation kept by every step relates the ends of every
run (`after_related`), and a property that one call establishes and the later calls keep
still holds when the run ends (`after_since`).

`Since` is the ghost of such a call: the run so far holds a call that established the
fact, and no later call withdrew it.

Nothing here names a particular component.
-/

namespace Delegatus.Runs

variable {σ α ρ : Type*} (step : σ → α → σ × ρ)

/-- The state reached from `s` when the calls of `ops` are made in order. -/
def after (s : σ) (ops : List α) : σ :=
  ops.foldl (fun s op => (step s op).1) s

@[simp] theorem after_nil (s : σ) : after step s [] = s := rfl

@[simp] theorem after_cons (s : σ) (op : α) (ops : List α) :
    after step s (op :: ops) = after step (step s op).1 ops := rfl

theorem after_append (s : σ) (pre post : List α) :
    after step s (pre ++ post) = after step (after step s pre) post := by
  simp [after]

theorem after_concat (s : σ) (ops : List α) (op : α) :
    after step s (ops ++ [op]) = (step (after step s ops) op).1 := by
  simp [after]

/-- The result that the call `op` gives when it is made after `ops`. -/
def answer (s : σ) (ops : List α) (op : α) : ρ :=
  (step (after step s ops) op).2

variable {step}

/-- **Invariant rule.**  What every step keeps holds after every run. -/
theorem after_invariant {P : σ → Prop} (hstep : ∀ s op, P s → P (step s op).1)
    {s : σ} (hs : P s) (ops : List α) : P (after step s ops) := by
  induction ops generalizing s with
  | nil => exact hs
  | cons op ops ih => exact ih (hstep s op hs)

/-- **Unless rule.**  Over an invariant `I`: a property that every call keeps unless it
is an exceptional one holds after the run, or the run holds an exceptional call. -/
theorem after_unless {I P : σ → Prop} {E : σ → α → Prop}
    (hI : ∀ s op, I s → I (step s op).1)
    (hstep : ∀ s op, I s → P s → ¬ E s op → P (step s op).1)
    {s : σ} (hs : I s) (hP : P s) (ops : List α) :
    P (after step s ops) ∨
      ∃ pre op post, ops = pre ++ op :: post ∧ E (after step s pre) op := by
  induction ops generalizing s with
  | nil => exact Or.inl hP
  | cons op ops ih =>
    by_cases hop : E s op
    · exact Or.inr ⟨[], op, ops, rfl, hop⟩
    · rcases ih (hI s op hs) (hstep s op hs hP hop) with hend | ⟨pre, other, post, rfl, hE⟩
      · exact Or.inl hend
      · exact Or.inr ⟨op :: pre, other, post, rfl, hE⟩

/-- The unless rule for a run without exceptional calls. -/
theorem after_invariant_of {I P : σ → Prop} {Q : α → Prop}
    (hI : ∀ s op, I s → I (step s op).1)
    (hstep : ∀ s op, I s → Q op → P s → P (step s op).1)
    {s : σ} (hs : I s) (hP : P s) (ops : List α) (hops : ∀ op ∈ ops, Q op) :
    P (after step s ops) := by
  have hkept : ∀ s op, I s → P s → ¬ ¬ Q op → P (step s op).1 :=
    fun s op hs hP hop => hstep s op hs (not_not.mp hop) hP
  rcases after_unless (E := fun _ op => ¬ Q op) hI hkept hs hP ops with
    hend | ⟨pre, op, post, rfl, hop⟩
  · exact hend
  · exact absurd (hops op (by simp)) hop

/-- **Relation rule.**  A reflexive and transitive relation that every step respects
relates the two ends of every run. -/
theorem after_related {R : σ → σ → Prop} (hrefl : ∀ s, R s s)
    (htrans : ∀ a b c, R a b → R b c → R a c) (hstep : ∀ s op, R s (step s op).1)
    (s : σ) (ops : List α) : R s (after step s ops) := by
  induction ops generalizing s with
  | nil => exact hrefl s
  | cons op ops ih => exact htrans _ _ _ (hstep s op) (ih _)

/-- The relation rule where the steps respect the relation only in states that satisfy
an invariant `I`. -/
theorem after_related_of {I : σ → Prop} {R : σ → σ → Prop} (hrefl : ∀ s, R s s)
    (htrans : ∀ a b c, R a b → R b c → R a c) (hI : ∀ s op, I s → I (step s op).1)
    (hstep : ∀ s op, I s → R s (step s op).1) {s : σ} (hs : I s) (ops : List α) :
    R s (after step s ops) := by
  induction ops generalizing s with
  | nil => exact hrefl s
  | cons op ops ih => exact htrans _ _ _ (hstep s op hs) (ih (hI s op hs))

/-! ### Conditions on every call -/

variable (step) in
/-- Every call of the run meets `Q`, read in the state the call is made in. -/
def EveryCall (Q : σ → α → Prop) (s : σ) (ops : List α) : Prop :=
  ∀ pre op post, ops = pre ++ op :: post → Q (after step s pre) op

theorem EveryCall.front {Q : σ → α → Prop} {s : σ} {front back : List α}
    (h : EveryCall step Q s (front ++ back)) : EveryCall step Q s front := by
  rintro pre op post rfl
  exact h pre op (post ++ back) (by simp)

theorem EveryCall.back {Q : σ → α → Prop} {s : σ} {front back : List α}
    (h : EveryCall step Q s (front ++ back)) : EveryCall step Q (after step s front) back := by
  rintro pre op post rfl
  rw [← after_append]
  exact h (front ++ pre) op post (by simp)

/-- The calls after the first one. -/
theorem EveryCall.tail {Q : σ → α → Prop} {s : σ} {op : α} {ops : List α}
    (h : EveryCall step Q s (op :: ops)) : EveryCall step Q (step s op).1 ops := by
  have hsplit : EveryCall step Q s ([op] ++ ops) := h
  exact hsplit.back

theorem everyCall_nil (Q : σ → α → Prop) (s : σ) : EveryCall step Q s [] := by
  intro pre op post heq
  simp at heq

theorem everyCall_cons {Q : σ → α → Prop} {s : σ} {op : α} {ops : List α} (hop : Q s op)
    (hops : EveryCall step Q (step s op).1 ops) : EveryCall step Q s (op :: ops) := by
  intro pre other post heq
  cases pre with
  | nil =>
    simp only [List.nil_append, List.cons.injEq] at heq
    exact heq.1 ▸ hop
  | cons first pre =>
    simp only [List.cons_append, List.cons.injEq] at heq
    obtain ⟨rfl, rfl⟩ := heq
    exact hops pre other post rfl

/-- **Conditional invariant rule.**  What every call that meets `Q` keeps holds after
every run whose calls all meet `Q`. -/
theorem after_of_everyCall {P : σ → Prop} {Q : σ → α → Prop}
    (hstep : ∀ s op, P s → Q s op → P (step s op).1) {s : σ} (hs : P s) {ops : List α}
    (h : EveryCall step Q s ops) : P (after step s ops) := by
  induction ops generalizing s with
  | nil => exact hs
  | cons op ops ih =>
    have hfirst : Q s op := h [] op ops rfl
    exact ih (hstep s op hs hfirst) h.tail

theorem everyCall_concat {Q : σ → α → Prop} {s : σ} {ops : List α} {op : α} :
    EveryCall step Q s (ops ++ [op]) ↔ EveryCall step Q s ops ∧ Q (after step s ops) op := by
  constructor
  · exact fun h => ⟨h.front, h ops op [] rfl⟩
  · rintro ⟨hfront, hlast⟩ pre other post heq
    rcases List.eq_nil_or_concat post with rfl | ⟨back, last, rfl⟩
    · obtain ⟨rfl, hsame⟩ := List.append_inj' heq rfl
      obtain ⟨rfl, -⟩ := List.cons.inj hsame
      exact hlast
    · have hsplit : ops ++ [op] = (pre ++ other :: back) ++ [last] := by
        rw [heq]
        simp [List.concat_eq_append]
      obtain ⟨rfl, -⟩ := List.append_inj' hsplit rfl
      exact hfront pre other back rfl

/-! ### Facts that calls make and unmake

`Standing made undone s ops` says that some call of `ops` made a fact and that no call after it
unmade it, where each call is read in the state that it was made in. -/

section Standing

variable (step) (made undone : σ → α → Prop)

def Standing (s : σ) (ops : List α) : Prop :=
  ∃ pre op post, ops = pre ++ op :: post ∧ made (after step s pre) op ∧
    EveryCall step (fun s later => ¬undone s later) (after step s (pre ++ [op])) post

theorem not_standing_nil (s : σ) : ¬Standing step made undone s [] := by
  rintro ⟨pre, op, post, heq, -, -⟩
  simp at heq

theorem standing_concat (s : σ) (ops : List α) (op : α) :
    Standing step made undone s (ops ++ [op]) ↔
      made (after step s ops) op ∨
        (Standing step made undone s ops ∧ ¬undone (after step s ops) op) := by
  constructor
  · rintro ⟨pre, first, post, heq, hmade, hkept⟩
    rcases List.eq_nil_or_concat post with rfl | ⟨back, last, rfl⟩
    · obtain ⟨rfl, hsame⟩ := List.append_inj' heq rfl
      obtain ⟨rfl, -⟩ := List.cons.inj hsame
      exact Or.inl hmade
    · have hsplit : ops ++ [op] = (pre ++ first :: back) ++ [last] := by
        rw [heq]
        simp [List.concat_eq_append]
      obtain ⟨rfl, hsame⟩ := List.append_inj' hsplit rfl
      obtain ⟨rfl, -⟩ := List.cons.inj hsame
      rw [List.concat_eq_append, everyCall_concat, ← after_append] at hkept
      refine Or.inr ⟨⟨pre, first, back, rfl, hmade, hkept.1⟩, ?_⟩
      simpa using hkept.2
  · rintro (hmade | ⟨⟨pre, first, post, rfl, hmade, hkept⟩, hop⟩)
    · exact ⟨ops, op, [], rfl, hmade, everyCall_nil _ _⟩
    · refine ⟨pre, first, post ++ [op], by simp, hmade, everyCall_concat.mpr ⟨hkept, ?_⟩⟩
      rw [← after_append]
      simpa using hop

/-- **Standing rule.**  Over an invariant `I`: a property that each call makes, or keeps unless it
unmakes it, holds after a run exactly when the run has made it and not unmade it since. -/
theorem after_iff_standing {step : σ → α → σ × ρ} {made undone : σ → α → Prop} {I P : σ → Prop}
    (hI : ∀ s op, I s → I (step s op).1)
    (hstep : ∀ s op, I s → (P (step s op).1 ↔ made s op ∨ (P s ∧ ¬undone s op)))
    {s : σ} (hs : I s) (hP : ¬P s) (ops : List α) :
    P (after step s ops) ↔ Standing step made undone s ops := by
  induction ops using List.reverseRecOn with
  | nil => exact iff_of_false hP (not_standing_nil step made undone s)
  | append_singleton ops op ih =>
    rw [after_concat, hstep _ op (after_invariant hI hs ops), standing_concat, ih]

end Standing

/-! ### Facts established by a call

`Since step s made undone ops` says that some call of `ops` established a fact (`made`,
read in the state the call was made in) and that no call after it satisfies `undone`. -/

section Since

variable (step) (made : σ → α → Prop) (undone : α → Prop)

/-- A call of the run established the fact, and no later call withdrew it. -/
def Since (s : σ) (ops : List α) : Prop :=
  ∃ pre op post, ops = pre ++ op :: post ∧ made (after step s pre) op ∧
    ∀ later ∈ post, ¬ undone later

theorem not_since_nil (s : σ) : ¬ Since step made undone s [] := by
  rintro ⟨pre, op, post, heq, -, -⟩
  simp at heq

/-- One more call either establishes the fact or leaves a standing one standing. -/
theorem since_concat (s : σ) (ops : List α) (op : α) :
    Since step made undone s (ops ++ [op]) ↔
      made (after step s ops) op ∨ (Since step made undone s ops ∧ ¬ undone op) := by
  constructor
  · rintro ⟨pre, first, post, heq, hmade, hkept⟩
    rcases List.eq_nil_or_concat post with rfl | ⟨front, last, rfl⟩
    · have hsplit := List.append_inj' heq rfl
      obtain ⟨rfl, hlast⟩ := hsplit
      simp only [List.cons.injEq, and_true] at hlast
      exact Or.inl (hlast ▸ hmade)
    · have hsplit : ops ++ [op] = (pre ++ first :: front) ++ [last] := by
        rw [heq]
        simp [List.concat_eq_append]
      obtain ⟨rfl, hlast⟩ := List.append_inj' hsplit rfl
      simp only [List.cons.injEq, and_true] at hlast
      subst hlast
      refine Or.inr ⟨⟨pre, first, front, rfl, hmade, ?_⟩, ?_⟩
      · intro later hlater
        exact hkept later (by simp [List.concat_eq_append, hlater])
      · exact hkept op (by simp [List.concat_eq_append])
  · rintro (hmade | ⟨⟨pre, first, post, rfl, hmade, hkept⟩, hop⟩)
    · exact ⟨ops, op, [], rfl, hmade, by simp⟩
    · refine ⟨pre, first, post ++ [op], by simp, hmade, ?_⟩
      intro later hlater
      rcases List.mem_append.mp hlater with hold | hnew
      · exact hkept later hold
      · rw [List.mem_singleton.mp hnew]
        exact hop

/-- **Since rule.**  Over an invariant `I`: if the establishing call makes `P` true and
every other call that does not withdraw the fact keeps `P`, then `P` holds after every
run in which the fact stands. -/
theorem after_since {step : σ → α → σ × ρ} {made : σ → α → Prop} {undone : α → Prop}
    {I P : σ → Prop} (hI : ∀ s op, I s → I (step s op).1)
    (hmade : ∀ s op, I s → made s op → P (step s op).1)
    (hkept : ∀ s op, I s → ¬ undone op → P s → P (step s op).1)
    {s : σ} (hs : I s) {ops : List α} (hsince : Since step made undone s ops) :
    P (after step s ops) := by
  obtain ⟨pre, op, post, rfl, hop, hlater⟩ := hsince
  have hpre : I (after step s pre) := after_invariant hI hs pre
  rw [after_append, after_cons]
  exact after_invariant_of hI hkept (hI _ op hpre) (hmade _ op hpre hop) post hlater

end Since

/-! ### Values that calls make

`made s op v` says that the call, made in the state, made the value.  `Ever` is a value that
some call of the run made, and `Latest` the one that no later call followed with another. -/

section Latest

variable {β : Type*} (step : σ → α → σ × ρ) (made : σ → α → β → Prop)

/-- Some call of the run made the value. -/
def Ever (s : σ) (ops : List α) (value : β) : Prop :=
  ∃ pre op post, ops = pre ++ op :: post ∧ made (after step s pre) op value

/-- A call of the run made the value, and no later call made any. -/
def Latest (s : σ) (ops : List α) (value : β) : Prop :=
  ∃ pre op post, ops = pre ++ op :: post ∧ made (after step s pre) op value ∧
    ∀ other, ¬Ever step made (after step s (pre ++ [op])) post other

variable {step made}

theorem not_ever_nil (s : σ) (value : β) : ¬Ever step made s [] value := by
  rintro ⟨pre, op, post, heq, -⟩
  simp at heq

/-- One more call makes the value, or it was made before. -/
theorem ever_concat (s : σ) (ops : List α) (op : α) (value : β) :
    Ever step made s (ops ++ [op]) value ↔
      made (after step s ops) op value ∨ Ever step made s ops value := by
  constructor
  · rintro ⟨pre, first, post, heq, hmade⟩
    rcases List.eq_nil_or_concat post with rfl | ⟨front, last, rfl⟩
    · obtain ⟨rfl, hlast⟩ := List.append_inj' heq rfl
      simp only [List.cons.injEq, and_true] at hlast
      exact Or.inl (hlast ▸ hmade)
    · have hsplit : ops ++ [op] = (pre ++ first :: front) ++ [last] := by
        rw [heq]
        simp [List.concat_eq_append]
      obtain ⟨rfl, -⟩ := List.append_inj' hsplit rfl
      exact Or.inr ⟨pre, first, front, rfl, hmade⟩
  · rintro (hmade | ⟨pre, first, post, rfl, hmade⟩)
    · exact ⟨ops, op, [], rfl, hmade⟩
    · exact ⟨pre, first, post ++ [op], by simp, hmade⟩

/-- The value that the last call makes is the latest. -/
theorem latest_of_made {s : σ} {ops : List α} {op : α} {value : β}
    (h : made (after step s ops) op value) : Latest step made s (ops ++ [op]) value :=
  ⟨ops, op, [], rfl, h, not_ever_nil _⟩

/-- A call that makes none leaves the latest value. -/
theorem Latest.concat {s : σ} {ops : List α} {op : α} {value : β}
    (h : Latest step made s ops value) (hnone : ∀ other, ¬made (after step s ops) op other) :
    Latest step made s (ops ++ [op]) value := by
  obtain ⟨pre, first, post, rfl, hmade, hlater⟩ := h
  refine ⟨pre, first, post ++ [op], by simp, hmade, ?_⟩
  intro other
  rw [ever_concat, ← after_append]
  rintro (hlast | hever)
  · refine hnone other ?_
    simpa using hlast
  · exact hlater other hever

end Latest

end Delegatus.Runs
