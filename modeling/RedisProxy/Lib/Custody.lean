/-
  File:      RedisProxy/Lib/Custody.lean
  Subject:   EXCLUSIVE CUSTODY OF RESOURCES; no program fact.

  Holders have at most one resource each. Custody is exclusive when every resource that exists has
  exactly one holder and nobody holds one that does not exist. It stays so when a holder gives its
  resource up and the resource ceases to exist (`drop`), when it passes it on to a holder that has
  none (`transfer`), and when a new resource comes to a holder that has none (`acquire`).
-/
import Mathlib.Data.Finset.Basic
import Mathlib.Logic.Function.Basic

namespace RedisProxy.Lib

variable {H R : Type}

/-- **Every resource that exists has exactly one holder, and no other is held.** -/
structure Exclusive (holds : H → Option R) (exist : Finset R) : Prop where
  held : ∀ r, r ∈ exist ↔ ∃ h, holds h = some r
  one : ∀ h h' r, holds h = some r → holds h' = some r → h = h'

namespace Exclusive

variable {holds : H → Option R} {exist : Finset R}

theorem mem (e : Exclusive holds exist) {h : H} {r : R} (hr : holds h = some r) : r ∈ exist :=
  (e.held r).mpr ⟨h, hr⟩

variable [DecidableEq H]

/-- A holder that has none changes nothing by having none. -/
theorem clear (e : Exclusive holds exist) {h : H} (hn : holds h = none) :
    Exclusive (Function.update holds h none) exist := by
  rwa [← hn, Function.update_eq_self]

variable [DecidableEq R]

/-- A holder gives its resource up. -/
theorem drop (e : Exclusive holds exist) {h : H} {r : R} (hr : holds h = some r) :
    Exclusive (Function.update holds h none) (exist.erase r) := by
  have hold : ∀ {x q}, Function.update holds h none x = some q → x ≠ h ∧ holds x = some q := by
    intro x q hx
    by_cases hxh : x = h
    · rw [hxh, Function.update_self] at hx
      cases hx
    · exact ⟨hxh, by rwa [Function.update_of_ne hxh] at hx⟩
  refine ⟨fun q => ?_, fun x y q hx hy => e.one x y q (hold hx).2 (hold hy).2⟩
  rw [Finset.mem_erase, e.held]
  constructor
  · rintro ⟨hne, x, hx⟩
    refine ⟨x, ?_⟩
    rw [Function.update_of_ne fun hxh => hne ?_]
    · exact hx
    · rw [hxh, hr] at hx
      exact (Option.some.inj hx).symm
  · rintro ⟨x, hx⟩
    obtain ⟨hxh, hx⟩ := hold hx
    refine ⟨fun hq => hxh ?_, x, hx⟩
    exact e.one x h r (hq ▸ hx) hr

/-- A new resource comes to a holder that has none. -/
theorem acquire (e : Exclusive holds exist) {h : H} {r : R} (hn : holds h = none)
    (hr : r ∉ exist) : Exclusive (Function.update holds h (some r)) (insert r exist) := by
  have hcases : ∀ {x q}, Function.update holds h (some r) x = some q →
      x = h ∧ q = r ∨ x ≠ h ∧ holds x = some q := by
    intro x q hx
    by_cases hxh : x = h
    · rw [hxh, Function.update_self] at hx
      exact Or.inl ⟨hxh, (Option.some.inj hx).symm⟩
    · exact Or.inr ⟨hxh, by rwa [Function.update_of_ne hxh] at hx⟩
  refine ⟨fun q => ?_, fun x y q hx hy => ?_⟩
  · rw [Finset.mem_insert, e.held]
    constructor
    · rintro (rfl | ⟨x, hx⟩)
      · exact ⟨h, Function.update_self ..⟩
      · refine ⟨x, ?_⟩
        rw [Function.update_of_ne fun hxh => ?_]
        · exact hx
        · rw [hxh, hn] at hx
          cases hx
    · rintro ⟨x, hx⟩
      exact (hcases hx).imp And.right fun hx => ⟨x, hx.2⟩
  · rcases hcases hx with ⟨hxh, hq⟩ | ⟨_, hx'⟩
    · rcases hcases hy with ⟨hyh, _⟩ | ⟨_, hy'⟩
      · exact hxh.trans hyh.symm
      · exact absurd (e.mem hy') (hq ▸ hr)
    · rcases hcases hy with ⟨_, hq⟩ | ⟨_, hy'⟩
      · exact absurd (e.mem hx') (hq ▸ hr)
      · exact e.one x y q hx' hy'

/-- A holder passes its resource on to one that has none. -/
theorem transfer (e : Exclusive holds exist) {h h' : H} {r : R} (hr : holds h = some r)
    (hn : holds h' = none) :
    Exclusive (Function.update (Function.update holds h none) h' (some r)) exist := by
  have hne : h' ≠ h := by
    rintro rfl
    rw [hn] at hr
    cases hr
  have hdrop := e.drop hr
  have hacq := hdrop.acquire (h := h') (r := r) (by rw [Function.update_of_ne hne]; exact hn)
    (Finset.notMem_erase r exist)
  rwa [Finset.insert_erase (e.mem hr)] at hacq

end Exclusive

end RedisProxy.Lib
