/-
  File:      RedisProxy/Lib/History.lean
  Subject:   HISTORIES, NEWEST EVENT FIRST. What was true of every event when it happened, and
             whether some event of a kind happened; no program fact.

  A history is a list of events with the newest at the head, so the tail of an event is what
  had happened before it. `Always P h` says that every event of `h` was in the relation `P` to
  its own past, `Sometime P h` that some event was. Both unfold one event at a time, which is
  what an induction over the steps of a machine needs; `always_iff` and `sometime_iff` give the
  reading over all splits of the history. `collect f h` is what the events of `h` contribute,
  in the order in which they happened.
-/
import Mathlib.Logic.Basic
import Mathlib.Data.List.Basic

namespace RedisProxy.Lib

variable {ε : Type}

/-- Every event of the history was in the relation `P` to what had happened before it. -/
def Always (P : ε → List ε → Prop) : List ε → Prop
  | [] => True
  | e :: h => P e h ∧ Always P h

/-- Some event of the history was in the relation `P` to what had happened before it. -/
def Sometime (P : ε → List ε → Prop) : List ε → Prop
  | [] => False
  | e :: h => P e h ∨ Sometime P h

section Readings

variable {P : ε → List ε → Prop}

@[simp] theorem always_nil : Always P [] := trivial

@[simp] theorem always_cons {e : ε} {h : List ε} : Always P (e :: h) ↔ P e h ∧ Always P h :=
  Iff.rfl

@[simp] theorem sometime_nil : ¬ Sometime P [] := id

@[simp] theorem sometime_cons {e : ε} {h : List ε} :
    Sometime P (e :: h) ↔ P e h ∨ Sometime P h := Iff.rfl

/-- `Always` over all splits of the history. -/
theorem always_iff {h : List ε} : Always P h ↔ ∀ new e old, h = new ++ e :: old → P e old := by
  induction h with
  | nil => simp
  | cons x h ih =>
    rw [always_cons, ih]
    constructor
    · rintro ⟨hx, hall⟩ new e old hsplit
      cases new with
      | nil =>
        obtain ⟨rfl, rfl⟩ := List.cons.inj hsplit
        exact hx
      | cons y new =>
        exact hall new e old (List.cons.inj hsplit).2
    · intro hall
      exact ⟨hall [] x h rfl, fun new e old hsplit => hall (x :: new) e old (by rw [hsplit]; rfl)⟩

/-- `Sometime` over all splits of the history. -/
theorem sometime_iff {h : List ε} :
    Sometime P h ↔ ∃ new e old, h = new ++ e :: old ∧ P e old := by
  induction h with
  | nil => simp
  | cons x h ih =>
    rw [sometime_cons, ih]
    constructor
    · rintro (hx | ⟨new, e, old, rfl, he⟩)
      · exact ⟨[], x, h, rfl, hx⟩
      · exact ⟨x :: new, e, old, rfl, he⟩
    · rintro ⟨new, e, old, hsplit, he⟩
      cases new with
      | nil =>
        obtain ⟨rfl, rfl⟩ := List.cons.inj hsplit
        exact Or.inl he
      | cons y new => exact Or.inr ⟨new, e, old, (List.cons.inj hsplit).2, he⟩

/-- What holds of every event with its past may be weakened event by event. -/
theorem Always.imp {Q : ε → List ε → Prop} (hPQ : ∀ e h, P e h → Q e h) {h : List ε}
    (ha : Always P h) : Always Q h := by
  induction h with
  | nil => trivial
  | cons e h ih => exact ⟨hPQ e h ha.1, ih ha.2⟩

end Readings

section Collect

variable {β : Type}

/-- The contributions of the events, oldest first. -/
def collect (f : ε → List β) : List ε → List β
  | [] => []
  | e :: h => collect f h ++ f e

variable {f : ε → List β}

@[simp] theorem collect_nil : collect f [] = [] := rfl

@[simp] theorem collect_cons (e : ε) (h : List ε) : collect f (e :: h) = collect f h ++ f e := rfl

theorem collect_eq_nil {h : List ε} (hf : ∀ e ∈ h, f e = []) : collect f h = [] := by
  induction h with
  | nil => rfl
  | cons e h ih =>
    rw [collect_cons, ih fun x hx => hf x (List.mem_cons_of_mem _ hx), hf e List.mem_cons_self]
    rfl

/-- What is collected comes from one of the events. -/
theorem mem_collect {h : List ε} {b : β} : b ∈ collect f h ↔ ∃ e ∈ h, b ∈ f e := by
  induction h with
  | nil => simp
  | cons e h ih => simp [ih, or_comm]

/-- Later events come behind. -/
theorem collect_append (new h : List ε) : collect f (new ++ h) = collect f h ++ collect f new := by
  induction new with
  | nil => exact (List.append_nil _).symm
  | cons e new ih => rw [List.cons_append, collect_cons, ih, collect_cons, List.append_assoc]

/-- What happened later comes after it. -/
theorem collect_mono {h h' : List ε} (hs : h <:+ h') : collect f h <+: collect f h' := by
  obtain ⟨new, rfl⟩ := hs
  rw [collect_append]
  exact List.prefix_append _ _

/-- What stands at a place of a list stands there in every longer one. -/
theorem getElem?_mono {l l' : List β} (h : l <+: l') {i : Nat} {x : β} (hx : l[i]? = some x) :
    l'[i]? = some x := by
  obtain ⟨hi, rfl⟩ := List.getElem?_eq_some_iff.mp hx
  exact List.prefix_iff_getElem?.mp h i hi

end Collect

end RedisProxy.Lib
