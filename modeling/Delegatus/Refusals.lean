import Mathlib.Data.List.Basic

/-!
# Folds of steps that may refuse

A fold applies a step to each element in order, and the first step that refuses refuses the
whole fold.  `Accepted start xs A` says that each element is accepted in the state that the
elements before it lead to, and `run_isOk_iff` that a fold succeeds exactly when each of
its steps is accepted there.  A `Turn` is a state of the fold with the element that comes next.
-/

namespace Delegatus.Refusals

universe v

variable {σ α β ε : Type*}

theorem map_eq_ok {e : Except ε α} {f : α → β} {b : β} :
    e.map f = .ok b ↔ ∃ a, e = .ok a ∧ f a = b := by
  cases e with
  | ok a => simp [Except.map]
  | error error => simp [Except.map]

/-- A result that is passed on is refused where it was refused. -/
theorem map_isOk {e : Except ε α} {f : α → β} : (∃ b, e.map f = .ok b) ↔ ∃ a, e = .ok a := by
  constructor
  · rintro ⟨b, hb⟩
    obtain ⟨a, ha, -⟩ := map_eq_ok.mp hb
    exact ⟨a, ha⟩
  · rintro ⟨a, ha⟩
    exact ⟨f a, map_eq_ok.mpr ⟨a, ha, rfl⟩⟩

theorem bind_eq_ok {δ : Type*} {α β : Type v} {e : Except δ α} {f : α → Except δ β} {b : β} :
    (e >>= f) = .ok b ↔ ∃ a, e = .ok a ∧ f a = .ok b := by
  cases e with
  | ok a => simp [Bind.bind, Except.bind]
  | error error => simp [Bind.bind, Except.bind]

/-- The steps in order; the first refusal is the refusal of the fold. -/
def run (step : σ → α → Except ε σ) : σ → List α → Except ε σ
  | state, [] => .ok state
  | state, x :: rest =>
    match step state x with
    | .ok state => run step state rest
    | .error error => .error error

variable {step : σ → α → Except ε σ}

@[simp] theorem run_nil (state : σ) : run step state [] = .ok state := rfl

theorem run_cons_ok {state out : σ} {x : α} {rest : List α} :
    run step state (x :: rest) = .ok out ↔
      ∃ mid, step state x = .ok mid ∧ run step mid rest = .ok out := by
  change (match step state x with
    | .ok state => run step state rest
    | .error error => .error error) = .ok out ↔ _
  cases step state x with
  | ok mid => simp
  | error error => simp

theorem run_append_ok {state out : σ} {pre post : List α} :
    run step state (pre ++ post) = .ok out ↔
      ∃ mid, run step state pre = .ok mid ∧ run step mid post = .ok out := by
  induction pre generalizing state with
  | nil => simp
  | cons x rest ih =>
    rw [List.cons_append, run_cons_ok]
    constructor
    · rintro ⟨mid, hx, hrest⟩
      obtain ⟨last, hlast, hpost⟩ := ih.mp hrest
      exact ⟨last, run_cons_ok.mpr ⟨mid, hx, hlast⟩, hpost⟩
    · rintro ⟨last, hpre, hpost⟩
      obtain ⟨mid, hx, hlast⟩ := run_cons_ok.mp hpre
      exact ⟨mid, hx, ih.mpr ⟨last, hlast, hpost⟩⟩

/-- Each element is accepted in the state that the elements before it lead to. -/
def Accepted (step : σ → α → Except ε σ) (A : σ → α → Prop) (start : σ) (xs : List α) : Prop :=
  ∀ pre x post, xs = pre ++ x :: post → ∀ mid, run step start pre = .ok mid → A mid x

theorem accepted_nil {A : σ → α → Prop} (start : σ) : Accepted step A start [] := by
  intro pre x post h
  simp at h

theorem accepted_cons {A : σ → α → Prop} {start : σ} {x : α} {rest : List α} :
    Accepted step A start (x :: rest) ↔
      A start x ∧ ∀ mid, step start x = .ok mid → Accepted step A mid rest := by
  constructor
  · intro h
    refine ⟨h [] x rest rfl start rfl, ?_⟩
    intro mid hmid pre y post hrest last hlast
    exact h (x :: pre) y post (by rw [hrest, List.cons_append]) last (run_cons_ok.mpr ⟨mid, hmid, hlast⟩)
  · rintro ⟨hx, hrest⟩ pre y post hsplit last hlast
    cases pre with
    | nil =>
      obtain ⟨rfl, rfl⟩ := List.cons.inj hsplit
      obtain rfl := Except.ok.inj hlast
      exact hx
    | cons z pre =>
      obtain ⟨rfl, rfl⟩ := List.cons.inj hsplit
      obtain ⟨mid, hmid, hpre⟩ := run_cons_ok.mp hlast
      exact hrest mid hmid pre y post rfl last hpre

/-- What is accepted throughout is accepted up to anywhere. -/
theorem Accepted.front {A : σ → α → Prop} {start : σ} {pre post : List α}
    (h : Accepted step A start (pre ++ post)) : Accepted step A start pre := by
  rintro front x back rfl
  exact h front x (back ++ post) (by simp)

/-- After a first step that was taken, the rest is accepted where it leads to. -/
theorem accepted_cons_ok {A : σ → α → Prop} {start mid : σ} {x : α} {rest : List α}
    (hx : step start x = .ok mid) :
    Accepted step A start (x :: rest) ↔ A start x ∧ Accepted step A mid rest := by
  rw [accepted_cons, hx]
  simp

theorem accepted_cons_error {A : σ → α → Prop} {start : σ} {x : α} {rest : List α} {error : ε}
    (hx : step start x = .error error) : Accepted step A start (x :: rest) ↔ A start x := by
  rw [accepted_cons, hx]
  simp

instance decidableAccepted {A : σ → α → Prop} [∀ state x, Decidable (A state x)] :
    (xs : List α) → (start : σ) → Decidable (Accepted step A start xs)
  | [], start => isTrue (accepted_nil start)
  | x :: rest, start =>
    match hx : step start x with
    | .error _ => decidable_of_iff' (A start x) (accepted_cons_error hx)
    | .ok mid =>
      haveI := decidableAccepted (A := A) rest mid
      decidable_of_iff' (A start x ∧ Accepted step A mid rest) (accepted_cons_ok hx)

/-- What every step keeps, a fold keeps. -/
theorem run_invariant {I : σ → Prop} {xs : List α}
    (hstep : ∀ state x next, x ∈ xs → I state → step state x = .ok next → I next)
    {start out : σ} (hstart : I start) (h : run step start xs = .ok out) : I out := by
  induction xs generalizing start with
  | nil =>
    obtain rfl := Except.ok.inj h
    exact hstart
  | cons x rest ih =>
    obtain ⟨mid, hx, hrest⟩ := run_cons_ok.mp h
    have hmid := hstep start x mid List.mem_cons_self hstart hx
    exact ih (fun state y next hy => hstep state y next (List.mem_cons_of_mem _ hy)) hmid hrest

/-- What every accepted step keeps, a fold of accepted steps keeps. -/
theorem run_invariant_of_accepted {I : σ → Prop} {A : σ → α → Prop}
    (hstep : ∀ state x next, I state → A state x → step state x = .ok next → I next)
    {start out : σ} {xs : List α} (hstart : I start) (haccepted : Accepted step A start xs)
    (h : run step start xs = .ok out) : I out := by
  induction xs generalizing start with
  | nil =>
    obtain rfl := Except.ok.inj h
    exact hstart
  | cons x rest ih =>
    obtain ⟨mid, hx, hrest⟩ := run_cons_ok.mp h
    obtain ⟨hfirst, hothers⟩ := accepted_cons.mp haccepted
    exact ih (hstep start x mid hstart hfirst hx) (hothers mid hx) hrest

/-- **A fold succeeds exactly when each of its steps is accepted**, where `A` says which
steps are, in the states that keep the invariant `I`. -/
theorem run_isOk_iff {A : σ → α → Prop} {I : σ → Prop} {xs : List α}
    (hstep : ∀ state x next, x ∈ xs → I state → step state x = .ok next → I next)
    (haccepts : ∀ state x, x ∈ xs → I state → ((∃ next, step state x = .ok next) ↔ A state x))
    {start : σ} (hstart : I start) :
    (∃ out, run step start xs = .ok out) ↔ Accepted step A start xs := by
  induction xs generalizing start with
  | nil => exact iff_of_true ⟨start, rfl⟩ (accepted_nil start)
  | cons x rest ih =>
    have hrest := fun {mid : σ} (hmid : I mid) =>
      ih (fun state y next hy => hstep state y next (List.mem_cons_of_mem _ hy))
        (fun state y hy => haccepts state y (List.mem_cons_of_mem _ hy)) hmid
    have hx := haccepts start x List.mem_cons_self hstart
    rw [accepted_cons, ← hx]
    constructor
    · rintro ⟨out, hout⟩
      obtain ⟨mid, hmid, hout⟩ := run_cons_ok.mp hout
      refine ⟨⟨mid, hmid⟩, fun other hother => ?_⟩
      obtain rfl := Except.ok.inj (hmid.symm.trans hother)
      exact (hrest (hstep start x mid List.mem_cons_self hstart hmid)).mp ⟨out, hout⟩
    · rintro ⟨⟨mid, hmid⟩, hall⟩
      have hmid' := hstep start x mid List.mem_cons_self hstart hmid
      obtain ⟨out, hout⟩ := (hrest hmid').mpr (hall mid hmid)
      exact ⟨out, run_cons_ok.mpr ⟨mid, hmid, hout⟩⟩

/-! ### Turns -/

/-- `x` takes its turn in the state `mid`, which the elements before it lead to. -/
def Turn (step : σ → α → Except ε σ) (start : σ) (xs : List α) (mid : σ) (x : α) : Prop :=
  ∃ pre post, xs = pre ++ x :: post ∧ run step start pre = .ok mid

theorem Turn.mem {start mid : σ} {xs : List α} {x : α} (h : Turn step start xs mid x) : x ∈ xs := by
  obtain ⟨pre, post, rfl, _⟩ := h
  exact List.mem_append_right _ List.mem_cons_self

theorem not_turn_nil {start mid : σ} {x : α} : ¬ Turn step start [] mid x := fun h => by
  simpa using h.mem

theorem turn_cons {start mid : σ} {x y : α} {rest : List α} :
    Turn step start (x :: rest) mid y ↔
      (mid = start ∧ y = x) ∨ ∃ next, step start x = .ok next ∧ Turn step next rest mid y := by
  constructor
  · rintro ⟨pre, post, hsplit, hpre⟩
    cases pre with
    | nil =>
      obtain ⟨rfl, rfl⟩ := List.cons.inj hsplit
      exact Or.inl ⟨(Except.ok.inj hpre).symm, rfl⟩
    | cons z pre =>
      obtain ⟨rfl, rfl⟩ := List.cons.inj hsplit
      obtain ⟨next, hx, hrun⟩ := run_cons_ok.mp hpre
      exact Or.inr ⟨next, hx, pre, post, rfl, hrun⟩
  · rintro (⟨rfl, rfl⟩ | ⟨next, hx, pre, post, rfl, hrun⟩)
    · exact ⟨[], rest, rfl, rfl⟩
    · exact ⟨x :: pre, post, rfl, run_cons_ok.mpr ⟨next, hx, hrun⟩⟩

/-- In a fold that succeeds every element takes its turn. -/
theorem turn_of_mem {start out : σ} {xs : List α} (h : run step start xs = .ok out) {x : α}
    (hx : x ∈ xs) : ∃ mid, Turn step start xs mid x := by
  obtain ⟨pre, post, rfl⟩ := List.append_of_mem hx
  obtain ⟨mid, hpre, _⟩ := run_append_ok.mp h
  exact ⟨mid, pre, post, rfl, hpre⟩

/-- **What holds after a fold held before it or was made in a turn**, where `M` says which
turns make it and no step unmakes it. -/
theorem run_made {Q : σ → Prop} {M : σ → α → Prop}
    (hstep : ∀ state x next, step state x = .ok next → (Q next ↔ Q state ∨ M state x))
    {start out : σ} {xs : List α} (h : run step start xs = .ok out) :
    Q out ↔ Q start ∨ ∃ mid x, Turn step start xs mid x ∧ M mid x := by
  induction xs generalizing start with
  | nil =>
    obtain rfl := Except.ok.inj h
    simp [not_turn_nil]
  | cons x rest ih =>
    obtain ⟨next, hx, hrest⟩ := run_cons_ok.mp h
    rw [ih hrest, hstep start x next hx, or_assoc]
    apply or_congr_right
    constructor
    · rintro (hmade | ⟨mid, y, hturn, hmade⟩)
      · exact ⟨start, x, turn_cons.mpr (Or.inl ⟨rfl, rfl⟩), hmade⟩
      · exact ⟨mid, y, turn_cons.mpr (Or.inr ⟨next, hx, hturn⟩), hmade⟩
    · rintro ⟨mid, y, hturn, hmade⟩
      rcases turn_cons.mp hturn with ⟨rfl, rfl⟩ | ⟨other, hother, hturn⟩
      · exact Or.inl hmade
      · obtain rfl := Except.ok.inj (hx.symm.trans hother)
        exact Or.inr ⟨mid, y, hturn, hmade⟩

/-- What held before a fold holds in every turn of it. -/
theorem Turn.keeps {Q : σ → Prop}
    (hstep : ∀ state x next, step state x = .ok next → Q state → Q next)
    {start mid : σ} {xs : List α} {x : α} (h : Turn step start xs mid x) (hstart : Q start) : Q mid := by
  obtain ⟨pre, post, rfl, hrun⟩ := h
  exact run_invariant (fun state y next _ hq hy => hstep state y next hy hq) hstart hrun

/-- What holds after a turn holds after the fold. -/
theorem Turn.last {Q : σ → Prop}
    (hstep : ∀ state x next, step state x = .ok next → Q state → Q next)
    {start mid out : σ} {xs : List α} {x : α} (h : Turn step start xs mid x)
    (hmade : ∀ next, step mid x = .ok next → Q next) (hrun : run step start xs = .ok out) : Q out := by
  obtain ⟨pre, post, rfl, hpre⟩ := h
  obtain ⟨mid', hpre', hpost⟩ := run_append_ok.mp hrun
  obtain rfl := Except.ok.inj (hpre.symm.trans hpre')
  obtain ⟨next, hx, hrest⟩ := run_cons_ok.mp hpost
  exact run_invariant (fun state y next _ hq hy => hstep state y next hy hq) (hmade next hx) hrest

/-! ### Checks -/

/-- The checks in order; the first refusal refuses. -/
def all (check : α → Except ε Unit) (xs : List α) : Except ε Unit :=
  run (fun _ x => check x) () xs

theorem all_eq_ok {check : α → Except ε Unit} {xs : List α} :
    all check xs = .ok () ↔ ∀ x ∈ xs, check x = .ok () := by
  induction xs with
  | nil => simp [all]
  | cons x rest ih =>
    rw [all, run_cons_ok, List.forall_mem_cons]
    constructor
    · rintro ⟨⟨⟩, hx, hrest⟩
      exact ⟨hx, ih.mp hrest⟩
    · rintro ⟨hx, hrest⟩
      exact ⟨(), hx, ih.mpr hrest⟩

/-- The elements that a check keeps; the first refusal refuses. -/
def filter (check : α → Except ε Bool) : List α → Except ε (List α)
  | [] => .ok []
  | x :: rest =>
    match check x with
    | .error error => .error error
    | .ok keep => (filter check rest).map fun kept => if keep then x :: kept else kept

/-! ### What refuses nothing -/

theorem filter_eq {check : α → Except ε Bool} {p : α → Bool} {xs : List α}
    (h : ∀ x ∈ xs, check x = .ok (p x)) : filter check xs = .ok (xs.filter p) := by
  induction xs with
  | nil => exact rfl
  | cons x rest ih =>
    rw [filter, h x List.mem_cons_self, ih fun y hy => h y (List.mem_cons_of_mem _ hy),
      List.filter_cons]
    exact rfl

theorem mapM_eq {α β : Type} {f : α → Except ε β} {g : α → β} {xs : List α}
    (h : ∀ x ∈ xs, f x = .ok (g x)) : xs.mapM f = .ok (xs.map g) := by
  induction xs with
  | nil => exact rfl
  | cons x rest ih =>
    rw [List.mapM_cons, h x List.mem_cons_self, ih fun y hy => h y (List.mem_cons_of_mem _ hy)]
    exact rfl

end Delegatus.Refusals
