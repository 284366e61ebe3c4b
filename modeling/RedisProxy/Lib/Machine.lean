/-
  File:      RedisProxy/Lib/Machine.lean
  Subject:   MACHINES WITH A PARTIAL STEP FUNCTION. Runs, reachable states, the invariant rule
             and the projection rule; no program fact.

  A machine is a start state and a step function; `none` means that the action is not enabled.
  A run is a list of actions, so a concrete run is evaluated by the kernel and a statement over
  every run is an induction over `Reachable`:

  * `Reachable.invariant` -- what holds at the start and over every step holds in every
    reachable state; the step may use that its source is reachable;
  * `Reachable.restricted`, `Reachable.along` -- the same from any reachable state on, for runs
    whose actions are all of one kind or for all runs;
  * `Reachable.paid`, `Reachable.ranked` -- what a rank that falls with every step pays for is done
    in time; `Reachable.descend` -- some run brings about what a rank leads to;
  * `Reachable.project` -- if every step of one machine shows as a (possibly empty) run of
    another through a map of the states, reachable states map to reachable states, and
    `run_filterMap` -- the same for runs, where each action shows as one action at most;
  * `Reachable.simulates` -- if every step of one machine is one step of another, runs map to runs
    with the same actions.

  An `Object` answers to the operations it is given, and `Object.refines` is its refinement rule:
  if one step through a map of the states gives the same answer, every run gives the same answers.
-/
import Mathlib.Logic.Basic

namespace RedisProxy.Lib

/-- A machine: a start state and a partial step function over actions. -/
structure Machine (σ α : Type) where
  init : σ
  step : σ → α → Option σ

namespace Machine

variable {σ α τ β : Type}

/-- The state a list of actions leads to, `none` as soon as one of them is not enabled. -/
def run (M : Machine σ α) : σ → List α → Option σ
  | s, [] => some s
  | s, a :: as => (M.step s a).bind fun s' => M.run s' as

/-- The states some run leads to. -/
inductive Reachable (M : Machine σ α) : σ → Prop where
  | start : Reachable M M.init
  | next {s s' : σ} (a : α) (h : Reachable M s) (hs : M.step s a = some s') : Reachable M s'

theorem run_cons {M : Machine σ α} {s u : σ} {a : α} {as : List α} :
    M.run s (a :: as) = some u ↔ ∃ s', M.step s a = some s' ∧ M.run s' as = some u := by
  simp only [run, Option.bind_eq_some_iff]

theorem run_append {M : Machine σ α} {s u : σ} {as bs : List α} :
    M.run s (as ++ bs) = some u ↔ ∃ t, M.run s as = some t ∧ M.run t bs = some u := by
  induction as generalizing s with
  | nil => simp [run]
  | cons a as ih =>
    rw [List.cons_append, run_cons]
    simp only [ih, run_cons]
    constructor
    · rintro ⟨s', hs, t, ht, hu⟩
      exact ⟨t, ⟨s', hs, ht⟩, hu⟩
    · rintro ⟨t, ⟨s', hs, ht⟩, hu⟩
      exact ⟨s', hs, t, ht, hu⟩

theorem run_single {M : Machine σ α} {s u : σ} {a : α} (h : M.step s a = some u) :
    M.run s [a] = some u := by
  rw [run_cons]
  exact ⟨u, h, rfl⟩

theorem Reachable.run {M : Machine σ α} {s u : σ} (h : M.Reachable s) {as : List α}
    (hr : M.run s as = some u) : M.Reachable u := by
  induction as generalizing s with
  | nil =>
    cases hr
    exact h
  | cons a as ih =>
    obtain ⟨s', hs, hu⟩ := run_cons.mp hr
    exact ih (h.next a hs) hu

/-- A run from the start state leads to a reachable state. -/
theorem reachable_of_run {M : Machine σ α} {as : List α} {s : σ}
    (h : M.run M.init as = some s) : M.Reachable s :=
  Reachable.start.run h

/-- **The invariant rule.** -/
theorem Reachable.invariant {M : Machine σ α} {I : σ → Prop} (h0 : I M.init)
    (hI : ∀ s a s', M.Reachable s → I s → M.step s a = some s' → I s') {s : σ}
    (h : M.Reachable s) : I s := by
  induction h with
  | start => exact h0
  | next a h hs ih => exact hI _ a _ h ih hs

/-- **The invariant rule for runs whose actions are all of one kind.** -/
theorem Reachable.restricted {M : Machine σ α} {I : σ → Prop} {ok : α → Prop} {s u : σ}
    (h : M.Reachable s) (h0 : I s)
    (hI : ∀ s a s', M.Reachable s → ok a → I s → M.step s a = some s' → I s') {as : List α}
    (hok : ∀ a ∈ as, ok a) (hr : M.run s as = some u) : I u := by
  induction as generalizing s with
  | nil =>
    cases hr
    exact h0
  | cons a as ih =>
    obtain ⟨s', hs, hu⟩ := run_cons.mp hr
    have ha : ok a := hok a List.mem_cons_self
    exact ih (h.next a hs) (hI s a s' h ha h0 hs) (fun b hb => hok b (List.mem_cons_of_mem _ hb)) hu

/-- **The invariant rule for what holds from a state on.** -/
theorem Reachable.along {M : Machine σ α} {I : σ → Prop} {s u : σ} (h : M.Reachable s) (h0 : I s)
    (hI : ∀ s a s', M.Reachable s → I s → M.step s a = some s' → I s') {as : List α}
    (hr : M.run s as = some u) : I u :=
  h.restricted h0 (fun s a s' hs _ => hI s a s' hs) (fun _ _ => trivial) hr

/-- **The payment rule**, for runs whose actions are all `ok`: until `D` holds, the steps `down`
    lower the rank and only the steps `up` raise it, by `k` at most; so over a run either `D` comes
    to hold or the rank has paid for all steps. -/
theorem Reachable.paid {M : Machine σ α} {I D : σ → Prop} {ok : α → Prop} {r : σ → Nat}
    {down up : α → Bool} {k : Nat}
    (hI : ∀ s a s', M.Reachable s → ok a → I s → M.step s a = some s' →
      I s' ∧ (D s → D s') ∧ (D s' ∨ r s' + (down a).toNat ≤ r s + k * (up a).toNat))
    {s u : σ} (h : M.Reachable s) (hs : I s) {as : List α} (hok : ∀ a ∈ as, ok a)
    (hr : M.run s as = some u) : D u ∨ r u + as.countP down ≤ r s + k * as.countP up := by
  induction as generalizing s with
  | nil =>
    cases hr
    exact Or.inr (Nat.le_refl _)
  | cons a as ih =>
    obtain ⟨s', hs', hu⟩ := run_cons.mp hr
    have ha : ok a := hok a List.mem_cons_self
    have hrest : ∀ b ∈ as, ok b := fun b hb => hok b (List.mem_cons_of_mem _ hb)
    obtain ⟨hI', _, hd | hle⟩ := hI s a s' h ha hs hs'
    · -- what holds stays
      have hstay : I u ∧ D u := (h.next a hs').restricted (I := fun s => I s ∧ D s) ⟨hI', hd⟩
        (fun s a s' hreach ha hs hstep =>
          have hnext := hI s a s' hreach ha hs.1 hstep
          ⟨hnext.1, hnext.2.1 hs.2⟩) hrest hu
      exact Or.inl hstay.2
    · rcases ih (h.next a hs') hI' hrest hu with hd | hle'
      · exact Or.inl hd
      · refine Or.inr ?_
        rw [List.countP_cons, List.countP_cons, Nat.mul_add]
        cases hdown : down a <;> cases hup : up a <;>
          simp only [hdown, hup, Bool.toNat_true, Bool.toNat_false] at hle <;>
          simp only [Bool.false_eq_true, if_true, if_false] <;> omega

/-- **The ranking rule**: until `D` holds, the steps `down` lower the rank and only the steps
    `up` raise it, by one each; so over a run either `D` comes to hold or the rank has paid for all
    steps. -/
theorem Reachable.ranked {M : Machine σ α} {I D : σ → Prop} {r : σ → Nat}
    {down up : α → Bool}
    (hI : ∀ s a s', M.Reachable s → I s → M.step s a = some s' →
      I s' ∧ (D s → D s') ∧ (D s' ∨ r s' + (down a).toNat ≤ r s + (up a).toNat))
    {s u : σ} (h : M.Reachable s) (hs : I s) {as : List α} (hr : M.run s as = some u) :
    D u ∨ r u + as.countP down ≤ r s + as.countP up := by
  have hpaid := h.paid (D := D) (r := r) (k := 1) 
    (fun s a s' hreach _ hs hstep => by
      rw [Nat.one_mul]
      exact hI s a s' hreach hs hstep) hs (fun _ _ => trivial) hr
  rwa [Nat.one_mul] at hpaid

/-- **The descent rule**: a state in which `D` does not hold has an `ok` step that lowers the rank
    or brings `D` about; so some run of such steps does. -/
theorem Reachable.descend {M : Machine σ α} {I D : σ → Prop} {ok : α → Prop} {r : σ → Nat}
    (hI : ∀ s, M.Reachable s → I s → ¬ D s →
      ∃ a s', ok a ∧ M.step s a = some s' ∧ (D s' ∨ I s' ∧ r s' < r s))
    {s : σ} (h : M.Reachable s) (hs : I s) :
    ∃ as u, (∀ a ∈ as, ok a) ∧ M.run s as = some u ∧ D u := by
  generalize hn : r s = n
  induction n using Nat.strongRecOn generalizing s with
  | _ n ih =>
    by_cases hd : D s
    · exact ⟨[], s, nofun, rfl, hd⟩
    · obtain ⟨a, s', ha, hstep, hd' | ⟨hs', hlt⟩⟩ := hI s h hs hd
      · exact ⟨[a], s', fun b hb => List.mem_singleton.mp hb ▸ ha, run_single hstep, hd'⟩
      · obtain ⟨as, u, hok, hrun, hu⟩ := ih (r s') (hn ▸ hlt) (h.next a hstep) hs' rfl
        refine ⟨a :: as, u, fun b hb => ?_, run_cons.mpr ⟨s', hstep, hrun⟩, hu⟩
        rcases List.mem_cons.mp hb with rfl | hb
        · exact ha
        · exact hok b hb

/-- **The projection rule**: every step of `M` shows as a run of `N` through `f`. -/
theorem Reachable.project {M : Machine σ α} {N : Machine τ β} (f : σ → τ) (h0 : f M.init = N.init)
    (hf : ∀ s a s', M.Reachable s → M.step s a = some s' → ∃ bs, N.run (f s) bs = some (f s'))
    {s : σ} (h : M.Reachable s) : N.Reachable (f s) := by
  induction h with
  | start => exact h0 ▸ .start
  | next a h hs ih =>
    obtain ⟨bs, hr⟩ := hf _ a _ h hs
    exact ih.run hr

/-- **The projection rule for runs**: every action of `M` shows as an action of `N` or as none. -/
theorem run_filterMap {M : Machine σ α} {N : Machine τ β} (f : σ → τ) (g : α → Option β)
    (hf : ∀ s a s', M.step s a = some s' → N.run (f s) (g a).toList = some (f s')) {s u : σ}
    {as : List α} (hr : M.run s as = some u) : N.run (f s) (as.filterMap g) = some (f u) := by
  induction as generalizing s with
  | nil =>
    cases hr
    rfl
  | cons a as ih =>
    obtain ⟨s', hs, hu⟩ := run_cons.mp hr
    have hcons : (a :: as).filterMap g = (g a).toList ++ as.filterMap g := by
      cases h : g a <;> simp [h]
    rw [hcons]
    exact run_append.mpr ⟨f s', hf s a s' hs, ih hu⟩

/-- **The simulation rule**: every step of `M` is through `f` a step of `N`, under a label that `g`
    reads as the action. -/
theorem Reachable.simulates {M : Machine σ α} {N : Machine τ β} (f : σ → τ) (g : β → α)
    (hf : ∀ s a s', M.Reachable s → M.step s a = some s' →
      ∃ b, g b = a ∧ N.step (f s) b = some (f s'))
    {s u : σ} (h : M.Reachable s) {as : List α} (hr : M.run s as = some u) :
    ∃ bs, bs.map g = as ∧ N.run (f s) bs = some (f u) := by
  induction as generalizing s with
  | nil =>
    cases hr
    exact ⟨[], rfl, rfl⟩
  | cons a as ih =>
    obtain ⟨s', hs, hu⟩ := run_cons.mp hr
    obtain ⟨b, hb, hstep⟩ := hf s a s' h hs
    obtain ⟨bs, hbs, hrun⟩ := ih (h.next a hs) hu
    exact ⟨b :: bs, by rw [List.map_cons, hb, hbs], run_cons.mpr ⟨f s', hstep, hrun⟩⟩

end Machine

/-- An object: the answer to an operation and the state after it, `none` when the operation is
    not allowed. -/
structure Object (σ α ω : Type) where
  step : σ → α → Option (ω × σ)

namespace Object

variable {σ τ α ω : Type}

/-- The answers to a list of operations and the state after them. -/
def run (M : Object σ α ω) : σ → List α → Option (List ω × σ)
  | s, [] => some ([], s)
  | s, a :: as => (M.step s a).bind fun (o, s') => (M.run s' as).map fun (os, u) => (o :: os, u)

theorem run_cons {M : Object σ α ω} {s u : σ} {a : α} {as : List α} {os : List ω} :
    M.run s (a :: as) = some (os, u) ↔
      ∃ o s' os', M.step s a = some (o, s') ∧ M.run s' as = some (os', u) ∧ os = o :: os' := by
  constructor
  · intro h
    obtain ⟨⟨o, s'⟩, hs, h⟩ := Option.bind_eq_some_iff.mp h
    obtain ⟨⟨os', u'⟩, hr, he⟩ := Option.map_eq_some_iff.mp h
    cases he
    exact ⟨o, s', os', hs, hr, rfl⟩
  · intro ⟨o, s', os', hs, hr, he⟩
    simp only [run, hs, Option.bind_some, hr, Option.map_some, he]

/-- **The refinement rule.** -/
theorem refines {M : Object σ α ω} {N : Object τ α ω} (f : σ → τ)
    (hf : ∀ s a o s', M.step s a = some (o, s') → N.step (f s) a = some (o, f s')) {s u : σ}
    {as : List α} {os : List ω} (h : M.run s as = some (os, u)) :
    N.run (f s) as = some (os, f u) := by
  induction as generalizing s os with
  | nil =>
    cases h
    rfl
  | cons a as ih =>
    obtain ⟨o, s', os', hs, hr, rfl⟩ := run_cons.mp h
    exact run_cons.mpr ⟨o, f s', os', hf s a o s' hs, ih hr, rfl⟩

end Object

end RedisProxy.Lib
