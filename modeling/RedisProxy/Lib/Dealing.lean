/-
  File:      RedisProxy/Lib/Dealing.lean
  Subject:   A LIST DEALT AROUND A TABLE OF `w`; no program fact.

  `deal w i l` is what the player at place `i` has after the elements of `l` were dealt one by
  one, beginning at place 0. `getElem?_deal` says which element of `l` each of them is,
  `length_deal` how many there are.
-/
import Mathlib.Data.List.Induction
import Mathlib.Data.Nat.ModEq

namespace RedisProxy.Lib

variable {α : Type} {w i : Nat}

/-- What place `i` out of `w` gets of a list dealt in order. -/
def deal (w i : Nat) (l : List α) : List α :=
  (l.zipIdx.filter fun x => x.2 % w = i).map (·.1)

@[simp] theorem deal_nil (w i : Nat) : deal w i ([] : List α) = [] := rfl

/-- Dealing one more. -/
theorem deal_snoc (w i : Nat) (l : List α) (x : α) :
    deal w i (l ++ [x]) = deal w i l ++ if l.length % w = i then [x] else [] := by
  unfold deal
  rw [List.zipIdx_append, List.filter_append, List.map_append, Nat.zero_add, List.zipIdx_singleton]
  split
  · rename_i h
    simp [h]
  · rename_i h
    simp [h]

theorem deal_snoc_self (l : List α) (x : α) (h : l.length % w = i) :
    deal w i (l ++ [x]) = deal w i l ++ [x] := by
  rw [deal_snoc, if_pos h]

theorem deal_snoc_of_ne (l : List α) (x : α) (h : l.length % w ≠ i) :
    deal w i (l ++ [x]) = deal w i l := by
  rw [deal_snoc, if_neg h, List.append_nil]

/-- Place `i` gets every `w`th. -/
theorem length_deal (hi : i < w) (l : List α) :
    (deal w i l).length = (l.length + (w - 1 - i)) / w := by
  induction l using List.reverseRecOn with
  | nil => exact (Nat.div_eq_of_lt (by simp only [List.length_nil]; omega)).symm
  | append_singleton l x ih =>
    have hdvd : w ∣ l.length + (w - 1 - i) + 1 ↔ l.length % w = i := by
      have hsum : l.length + (w - 1 - i) + 1 = l.length + (w - i) := by omega
      rw [hsum]
      have hzero : i + (w - i) ≡ 0 [MOD w] := by
        rw [Nat.add_sub_cancel' hi.le]
        exact (Nat.modEq_zero_iff_dvd).mpr (Nat.dvd_refl w)
      constructor
      · intro h
        have heq : l.length + (w - i) ≡ i + (w - i) [MOD w] :=
          ((Nat.modEq_zero_iff_dvd).mpr h).trans hzero.symm
        exact Eq.trans (Nat.ModEq.add_right_cancel' (w - i) heq) (Nat.mod_eq_of_lt hi)
      · intro h
        have heq : l.length ≡ i [MOD w] := Eq.trans h (Nat.mod_eq_of_lt hi).symm
        exact (Nat.modEq_zero_iff_dvd).mp ((heq.add_right (w - i)).trans hzero)
    have hlen : (l ++ [x]).length + (w - 1 - i) = l.length + (w - 1 - i) + 1 := by
      rw [List.length_append, List.length_singleton]
      omega
    rw [hlen, Nat.succ_div, deal_snoc, List.length_append, ih]
    simp only [hdvd]
    split <;> rfl

/-- The `j`th that place `i` gets is the one at position `w * j + i`. -/
theorem getElem?_deal (hi : i < w) (l : List α) (j : Nat) :
    (deal w i l)[j]? = l[w * j + i]? := by
  induction l using List.reverseRecOn with
  | nil => rfl
  | append_singleton l x ih =>
    have hdiv := Nat.div_add_mod l.length w
    by_cases hturn : l.length % w = i
    · -- it is this place's turn, after as many full rounds as it has elements
      have hlen : (deal w i l).length = l.length / w := by
        rw [length_deal hi, Nat.div_eq_of_lt_le]
        · rw [Nat.mul_comm]
          omega
        · rw [Nat.mul_comm, Nat.mul_succ]
          omega
      rw [deal_snoc_self l x hturn]
      rcases Nat.lt_trichotomy j (l.length / w) with hlt | heq | hgt
      · rw [List.getElem?_append_left (by omega), ih, List.getElem?_append_left]
        have := Nat.mul_le_mul_left w (Nat.succ_le_of_lt hlt)
        rw [Nat.mul_succ] at this
        omega
      · have hpos : w * j + i = l.length := by
          rw [heq]
          omega
        rw [hpos, heq, ← hlen, List.getElem?_concat_length, List.getElem?_concat_length]
      · have := Nat.mul_le_mul_left w (Nat.succ_le_of_lt hgt)
        rw [Nat.mul_succ] at this
        rw [List.getElem?_eq_none, List.getElem?_eq_none] <;>
          simp only [List.length_append, List.length_singleton] <;> omega
    · rw [deal_snoc_of_ne l x hturn, ih]
      have hne : w * j + i ≠ l.length := by
        intro heq
        rw [← heq, Nat.mul_add_mod, Nat.mod_eq_of_lt hi] at hturn
        exact hturn rfl
      rcases Nat.lt_or_gt_of_ne hne with hlt | hgt
      · rw [List.getElem?_append_left hlt]
      · rw [List.getElem?_eq_none hgt.le, List.getElem?_eq_none]
        simp only [List.length_append, List.length_singleton]
        omega

/-- No place is ahead of another by more than one. -/
theorem length_deal_le {j : Nat} (hi : i < w) (hj : j < w) (l : List α) :
    (deal w i l).length ≤ (deal w j l).length + 1 := by
  rw [length_deal hi, length_deal hj, ← Nat.add_div_right _ (by omega)]
  exact Nat.div_le_div_right (by omega)

end RedisProxy.Lib
