/-
  File:      RedisProxy/Lib/Overrides.lean
  Subject:   ASSIGNMENTS TO THE FIELDS OF A RECORD, in order, the last one of each field winning.

  The fields are the elements of a type, each with a type of values of its own, and an assignment
  is a field with a value for it. `Fields` says that a type of records has these fields;
  `Fields.value_assign` is the reading of a whole list of assignments, and
  `Fields.assign_eq_self_iff` says when it changes nothing.
-/
import Mathlib.Data.List.Induction
import Mathlib.Data.List.Sigma

namespace RedisProxy.Lib

/-! ## 1. The last assignment -/

section LastFor

variable {ι : Type} {α : ι → Type} [DecidableEq ι]

/-- The value of the last assignment to a field. -/
def lastFor (i : ι) (as : List (Sigma α)) : Option (α i) := as.reverse.dlookup i

/-- The last assignment to a field is the one that counts. -/
theorem lastFor_snoc_self (as : List (Sigma α)) (i : ι) (v : α i) :
    lastFor i (as ++ [⟨i, v⟩]) = some v := by
  rw [lastFor, List.reverse_append, List.reverse_singleton, List.singleton_append,
    List.dlookup_cons_eq]

theorem lastFor_snoc_of_ne (as : List (Sigma α)) {a : Sigma α} {i : ι} (h : i ≠ a.1) :
    lastFor i (as ++ [a]) = lastFor i as := by
  rw [lastFor, List.reverse_append, List.reverse_singleton, List.singleton_append,
    List.dlookup_cons_ne _ a h]
  rfl

end LastFor

/-! ## 2. Records -/

/-- The records `ρ` have the fields `ι`: a record is the values of its fields, and a field can be
    set without touching another. -/
structure Fields (ρ : Type) {ι : Type} (α : ι → Type) [DecidableEq ι] where
  value : ρ → ∀ i, α i
  set : ρ → Sigma α → ρ
  value_set : ∀ r a, value (set r a) = Function.update (value r) a.1 a.2
  ext : ∀ {r r'}, value r = value r' → r = r'

namespace Fields

variable {ρ ι : Type} {α : ι → Type} [DecidableEq ι] (F : Fields ρ α)

/-- The record after the assignments, one by one. -/
def assign (r : ρ) (as : List (Sigma α)) : ρ := as.foldl F.set r

@[simp] theorem assign_nil (r : ρ) : F.assign r [] = r := rfl

@[simp] theorem assign_cons (r : ρ) (a : Sigma α) (as : List (Sigma α)) :
    F.assign r (a :: as) = F.assign (F.set r a) as := rfl

/-- Assignments one after the other. -/
theorem assign_append (r : ρ) (as bs : List (Sigma α)) :
    F.assign r (as ++ bs) = F.assign (F.assign r as) bs := List.foldl_append

/-- **The last assignment to a field wins.** -/
theorem value_assign (r : ρ) (as : List (Sigma α)) (i : ι) :
    F.value (F.assign r as) i = (lastFor i as).getD (F.value r i) := by
  induction as using List.reverseRecOn with
  | nil => rfl
  | append_singleton as a ih =>
    rw [assign_append, assign_cons, assign_nil, F.value_set]
    by_cases h : i = a.1
    · subst h
      rw [Function.update_self, lastFor_snoc_self]
      rfl
    · rw [Function.update_of_ne h, ih, lastFor_snoc_of_ne as h]

/-- Assignments change nothing exactly when the last one to each field gives it the value it
    has. -/
theorem assign_eq_self_iff (r : ρ) (as : List (Sigma α)) :
    F.assign r as = r ↔ ∀ i v, lastFor i as = some v → v = F.value r i := by
  constructor
  · intro h i v hv
    have hi := F.value_assign r as i
    rw [h, hv] at hi
    exact hi.symm
  · intro h
    refine F.ext (funext fun i => ?_)
    rw [F.value_assign]
    cases hv : lastFor i as with
    | none => rfl
    | some v => exact h i v hv

end Fields

end RedisProxy.Lib
