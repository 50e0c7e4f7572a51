-- SUMMARY: The variables of a program and their values.
import Forth.Value

/-!
# Variables

A variable exists from its first assignment on. The variables are kept in the
order of their first assignments.
-/

namespace Forth

/-- The values of the variables that have been set. -/
structure Variables where
  bindings : List (String × Value) := []
  deriving DecidableEq, Inhabited

namespace Variables

def get? (vs : Variables) (name : String) : Option Value :=
  (vs.bindings.find? (·.1 = name)).map (·.2)

/-- The bindings with a new value for `name`, in its old place or at the end. -/
def bind (name : String) (v : Value) : List (String × Value) → List (String × Value)
  | [] => [(name, v)]
  | (other, w) :: rest =>
    if other = name then (name, v) :: rest else (other, w) :: bind name v rest

def set (vs : Variables) (name : String) (v : Value) : Variables :=
  ⟨bind name v vs.bindings⟩

@[simp] theorem get?_set_self (vs : Variables) (name : String) (v : Value) :
    (vs.set name v).get? name = some v := by
  obtain ⟨bs⟩ := vs
  simp only [set, get?]
  induction bs with
  | nil => simp [bind]
  | cons b bs ih =>
    by_cases h : b.1 = name
    · simp [bind, h]
    · simpa [bind, h] using ih

theorem get?_set_of_ne (vs : Variables) {name other : String} (v : Value) (h : name ≠ other) :
    (vs.set name v).get? other = vs.get? other := by
  obtain ⟨bs⟩ := vs
  simp only [set, get?]
  induction bs with
  | nil => simp [bind, h]
  | cons b bs ih =>
    by_cases hb : b.1 = name
    · simp [bind, hb, h]
    · by_cases ho : b.1 = other
      · simp [bind, ho, h.symm]
      · simpa [bind, hb, ho] using ih

end Variables

end Forth
