import Mathlib.Order.Lattice
import Mathlib.Order.Defs.LinearOrder
import Mathlib.Data.List.Basic

/-!
# Last-writer-wins registers

A register is a value under a stamp of a linear order.  Joining an incoming register
into a held one takes the incoming register only if its stamp is larger: an equal stamp
keeps the held value.  A replica that starts from `held` (nothing, at first) and receives
the registers of a list, in order, ends with `absorb held list`.

`Latest held list r` says what that result is, with no reference to the order: the held
register if no stamp of the list exceeds its stamp, and otherwise a register of the list
with the largest stamp.  `absorb` computes a latest register (`latest_absorb`), and when
equal stamps of the list carry equal values there is only one (`Latest.unique`), so the
order and the repetitions of the list do not matter (`absorb_eq_of_mem_iff`).

Nothing here names a particular component.
-/

namespace Delegatus.LastWriter

/-- A value under the stamp of its last write. -/
structure Register (σ β : Type*) where
  stamp : σ
  value : β

variable {σ β : Type*} [LinearOrder σ]

/-- The incoming register wins only with a larger stamp. -/
def join (held incoming : Register σ β) : Register σ β :=
  if held.stamp < incoming.stamp then incoming else held

/-- Nothing held takes the incoming register as it is. -/
def take : Option (Register σ β) → Register σ β → Register σ β
  | none, incoming => incoming
  | some held, incoming => join held incoming

/-- The register held after the registers of `incoming` arrived in order. -/
def absorb (held : Option (Register σ β)) (incoming : List (Register σ β)) :
    Option (Register σ β) :=
  incoming.foldl (fun held register => some (take held register)) held

@[simp] theorem absorb_nil (held : Option (Register σ β)) : absorb held [] = held := rfl

@[simp] theorem absorb_cons (held : Option (Register σ β)) (register : Register σ β)
    (rest : List (Register σ β)) :
    absorb held (register :: rest) = absorb (some (take held register)) rest := rfl

theorem absorb_append (held : Option (Register σ β)) (front back : List (Register σ β)) :
    absorb held (front ++ back) = absorb (absorb held front) back := by
  simp [absorb]

theorem join_of_lt {held incoming : Register σ β} (h : held.stamp < incoming.stamp) :
    join held incoming = incoming := if_pos h

theorem join_of_le {held incoming : Register σ β} (h : incoming.stamp ≤ held.stamp) :
    join held incoming = held := if_neg (not_lt.mpr h)

/-! ### The latest register -/

/-- `result` is the held register if nothing incoming is later, and otherwise a latest
incoming register. -/
def Latest (held : Option (Register σ β)) (incoming : List (Register σ β))
    (result : Register σ β) : Prop :=
  (held = some result ∧ ∀ register ∈ incoming, register.stamp ≤ result.stamp) ∨
    (result ∈ incoming ∧ (∀ register ∈ incoming, register.stamp ≤ result.stamp) ∧
      ∀ register, held = some register → register.stamp < result.stamp)

/-- Every incoming stamp, and the held one, is at most the latest. -/
theorem Latest.le {held : Option (Register σ β)} {incoming : List (Register σ β)}
    {result register : Register σ β} (h : Latest held incoming result)
    (hmem : register ∈ incoming) : register.stamp ≤ result.stamp := by
  rcases h with ⟨-, hle⟩ | ⟨-, hle, -⟩
  · exact hle register hmem
  · exact hle register hmem

/-- One more register keeps a latest register latest, or takes its place. -/
theorem Latest.concat {held : Option (Register σ β)} {incoming : List (Register σ β)}
    {result : Register σ β} (h : Latest held incoming result) (register : Register σ β) :
    Latest held (incoming ++ [register]) (join result register) := by
  rcases lt_or_ge result.stamp register.stamp with hlt | hge
  · rw [join_of_lt hlt]
    refine Or.inr ⟨by simp, ?_, ?_⟩
    · intro other hother
      rcases List.mem_append.mp hother with hother | hother
      · exact (h.le hother).trans hlt.le
      · rw [List.mem_singleton.mp hother]
    · intro other hother
      rcases h with ⟨hheld, -⟩ | ⟨-, -, hheld⟩
      · rw [hheld] at hother
        cases hother
        exact hlt
      · exact (hheld other hother).trans hlt
  · rw [join_of_le hge]
    have hle : ∀ other ∈ incoming ++ [register], other.stamp ≤ result.stamp := by
      intro other hother
      rcases List.mem_append.mp hother with hother | hother
      · exact h.le hother
      · rw [List.mem_singleton.mp hother]
        exact hge
    rcases h with ⟨hheld, -⟩ | ⟨hmem, -, hheld⟩
    · exact Or.inl ⟨hheld, hle⟩
    · exact Or.inr ⟨List.mem_append_left _ hmem, hle, hheld⟩

/-- A replica that received something holds the latest register. -/
theorem latest_absorb_cons (held : Option (Register σ β)) (first : Register σ β)
    (rest : List (Register σ β)) :
    ∃ result, absorb held (first :: rest) = some result ∧
      Latest held (first :: rest) result := by
  have hstart : Latest held [first] (take held first) := by
    cases held with
    | none => exact Or.inr ⟨by simp [take], by simp [take], by simp⟩
    | some register =>
      have hnil : Latest (some register) [] register := Or.inl ⟨rfl, by simp⟩
      exact hnil.concat first
  rw [absorb_cons]
  generalize hseen : [first] = seen at hstart
  have hall : first :: rest = seen ++ rest := by rw [← hseen]; rfl
  rw [hall]
  clear hall hseen
  generalize take held first = current at hstart
  induction rest generalizing seen current with
  | nil => exact ⟨current, rfl, by simpa using hstart⟩
  | cons register rest ih =>
    obtain ⟨result, hresult, hlatest⟩ := ih (seen ++ [register]) _ (hstart.concat register)
    exact ⟨result, hresult, by simpa using hlatest⟩

theorem latest_absorb {held : Option (Register σ β)} {incoming : List (Register σ β)}
    {result : Register σ β} (h : absorb held incoming = some result) :
    Latest held incoming result := by
  cases incoming with
  | nil => exact Or.inl ⟨h, by simp⟩
  | cons first rest =>
    obtain ⟨other, hother, hlatest⟩ := latest_absorb_cons held first rest
    rw [h] at hother
    exact Option.some.inj hother ▸ hlatest

/-- A replica that holds nothing started without a register and received none. -/
theorem absorb_eq_none {held : Option (Register σ β)} {incoming : List (Register σ β)}
    (h : absorb held incoming = none) : held = none ∧ incoming = [] := by
  cases incoming with
  | nil => exact ⟨h, rfl⟩
  | cons first rest =>
    obtain ⟨result, hresult, -⟩ := latest_absorb_cons held first rest
    rw [h] at hresult
    cases hresult

/-- Equal stamps of the list carry equal values. -/
def Consistent (incoming : List (Register σ β)) : Prop :=
  ∀ a ∈ incoming, ∀ b ∈ incoming, a.stamp = b.stamp → a = b

/-- **The latest register is unique** over lists with the same members whose equal stamps
carry equal values. -/
theorem Latest.unique {held : Option (Register σ β)} {left right : List (Register σ β)}
    (hsame : ∀ register, register ∈ left ↔ register ∈ right) (hconsistent : Consistent left)
    {a b : Register σ β} (ha : Latest held left a) (hb : Latest held right b) : a = b := by
  rcases ha with ⟨hheld, hle⟩ | ⟨hmem, hle, hbelow⟩
  · rcases hb with ⟨hheld', -⟩ | ⟨hmem', -, hbelow'⟩
    · exact Option.some.inj (hheld.symm.trans hheld')
    · exact absurd (hbelow' a hheld) (not_lt.mpr (hle b ((hsame b).mpr hmem')))
  · rcases hb with ⟨hheld', hle'⟩ | ⟨hmem', hle', -⟩
    · exact absurd (hbelow b hheld') (not_lt.mpr (hle' a ((hsame a).mp hmem)))
    · have hmem'' : b ∈ left := (hsame b).mpr hmem'
      exact hconsistent a hmem b hmem''
        (le_antisymm (hle' a ((hsame a).mp hmem)) (hle b hmem''))

/-- **Order and repetition do not matter.**  Two replicas that start alike and receive the
same registers, in any order and any number of times, end alike. -/
theorem absorb_eq_of_mem_iff {held : Option (Register σ β)} {left right : List (Register σ β)}
    (hsame : ∀ register, register ∈ left ↔ register ∈ right)
    (hconsistent : Consistent left) : absorb held left = absorb held right := by
  cases left with
  | nil =>
    have hright : right = [] :=
      List.eq_nil_iff_forall_not_mem.mpr fun register hmem => by
        simpa using (hsame register).mpr hmem
    rw [hright]
  | cons first rest =>
    cases right with
    | nil => simpa using hsame first
    | cons first' rest' =>
      obtain ⟨a, ha, hlatest⟩ := latest_absorb_cons held first rest
      obtain ⟨b, hb, hlatest'⟩ := latest_absorb_cons held first' rest'
      rw [ha, hb, hlatest.unique hsame hconsistent hlatest']

end Delegatus.LastWriter
