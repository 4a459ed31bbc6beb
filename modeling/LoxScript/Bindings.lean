/-!
Finite maps from names, as lists in the order in which the names were first bound.
-/
namespace LoxScript

/-- Names with what they are bound to. -/
abbrev Bindings (α : Type) := List (String × α)

namespace Bindings

variable {α : Type}

def get? (b : Bindings α) (name : String) : Option α :=
  match b with
  | [] => none
  | (other, a) :: rest => if other = name then some a else get? rest name

/-- Binds a name, in place of an earlier binding if there is one. -/
def set (b : Bindings α) (name : String) (a : α) : Bindings α :=
  match b with
  | [] => [(name, a)]
  | (other, c) :: rest => if other = name then (name, a) :: rest else (other, c) :: set rest name a

def has (b : Bindings α) (name : String) : Bool := (b.get? name).isSome

/-- The bindings in the order of their names. -/
def sorted (b : Bindings α) : Bindings α := b.mergeSort fun x y => !(decide (y.1 < x.1))

@[simp]
theorem get?_set_self (b : Bindings α) (name : String) (a : α) :
    (b.set name a).get? name = some a := by
  induction b with
  | nil => simp [set, get?]
  | cons head rest ih =>
    obtain ⟨other, c⟩ := head
    by_cases h : other = name <;> simp [set, get?, h, ih]

theorem get?_set_of_ne (b : Bindings α) {name other : String} (a : α) (h : other ≠ name) :
    (b.set name a).get? other = b.get? other := by
  induction b with
  | nil => simp [set, get?, h.symm]
  | cons head rest ih =>
    obtain ⟨first, c⟩ := head
    by_cases hf : first = name
    · subst hf
      simp [set, get?, h.symm]
    · by_cases ho : first = other
      · subst ho
        simp [set, get?, hf]
      · simp [set, get?, hf, ho, ih]

theorem get?_set (b : Bindings α) (name other : String) (a : α) :
    (b.set name a).get? other = if other = name then some a else b.get? other := by
  by_cases h : other = name
  · subst h
    simp
  · simp [h, get?_set_of_ne]

@[simp]
theorem has_set (b : Bindings α) (name other : String) (a : α) :
    (b.set name a).has other ↔ other = name ∨ b.has other := by
  by_cases h : other = name <;> simp [has, get?_set, h]

theorem has_iff (b : Bindings α) (name : String) : b.has name ↔ ∃ a, b.get? name = some a :=
  Option.isSome_iff_exists

theorem has_eq_false_iff (b : Bindings α) (name : String) :
    b.has name = false ↔ b.get? name = none := by
  simp [has]

@[simp]
theorem set_set (b : Bindings α) (name : String) (a c : α) :
    (b.set name a).set name c = b.set name c := by
  induction b with
  | nil => simp [set]
  | cons head rest ih =>
    obtain ⟨other, d⟩ := head
    by_cases h : other = name <;> simp [set, h, ih]

end Bindings
end LoxScript
