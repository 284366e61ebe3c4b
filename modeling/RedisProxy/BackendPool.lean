/-
  File:      RedisProxy/BackendPool.lean
  Subject:   `BackendPool` (src/backend_pool.cpp): the channels of one worker.

  A `BackendChannel*` is the number of a channel. The pool is the family of its channels; it
  picks one for a batch and passes calls on.
-/
import RedisProxy.Channel.Model
import Mathlib.Data.List.FinRange
import Mathlib.Data.List.MinMax
import Mathlib.Logic.Function.Basic

namespace RedisProxy

/-! ## 1. The pool -/

/-- `BackendPool`, with `n` channels. -/
abbrev BackendPool (n : Nat) := Fin n → BackendChannel

namespace BackendPool

variable {n : Nat}

/-- `BackendPool::BackendPool`. -/
def init (blockSize : Nat) (h : 0 < blockSize) : BackendPool n := fun _ => .init blockSize h

/-- `BackendPool::detachOwner`. -/
def detachOwner (p : BackendPool n) (owner : Owner) : BackendPool n :=
  fun c => (p c).detachOwner owner

/-- The histories of the channels have only grown. -/
def Grows (p p' : BackendPool n) : Prop := ∀ c, (p c).trace <:+ (p' c).trace

/-- The loop of `BackendPool::select`: a healthy channel with fewer commands replaces the best
    one so far. -/
def better (p : BackendPool n) (best : Option (Fin n)) (c : Fin n) : Option (Fin n) :=
  match best with
  | none => if (p c).isHealthy then some c else none
  | some b =>
      if (p c).isHealthy && (p c).queuedCommandCount < (p b).queuedCommandCount then some c
      else some b

/-- `BackendPool::select`. -/
def select (p : BackendPool n) : Option (Fin n) → Option (Fin n)
  | some current => if (p current).isHealthy then some current else none
  | none => (List.finRange n).foldl p.better none

/-- `BackendPool::submit`: the channel that took the batch, and the pool. -/
def submit (p : BackendPool n) (owner : Owner) (current : Option (Fin n)) (bytes : BufferChain)
    (count : Nat) : Option (Fin n) × BackendPool n :=
  match p.select current with
  | none => (none, p)
  | some c =>
      let x := (p c).submit owner bytes count
      (if x.1 then some c else none, Function.update p c x.2)

/-! ## 2. The choice of a channel -/

/-- The ready channels, in the order of the pool. -/
def healthy (p : BackendPool n) : List (Fin n) := (List.finRange n).filter fun c => (p c).isHealthy

theorem mem_healthy {p : BackendPool n} {c : Fin n} : c ∈ p.healthy ↔ (p c).isHealthy = true := by
  simp [healthy]

/-- **The loop of `select` is a search for a minimum** among the ready channels. -/
theorem select_none (p : BackendPool n) :
    p.select none = p.healthy.argmin fun c => (p c).queuedCommandCount := by
  have hbetter : p.better = fun best c => if (p c).isHealthy then
      List.argAux (fun x y => (p x).queuedCommandCount < (p y).queuedCommandCount) best c
      else best := by
    funext best c
    cases best with
    | none => rfl
    | some b => by_cases hc : (p c).isHealthy = true <;> simp [better, List.argAux, hc]
  rw [select, healthy, List.argmin, List.foldl_filter, hbetter]

/-- **A channel that is selected is ready**, and it is the current one if there is one. -/
theorem select_some {p : BackendPool n} {current : Option (Fin n)} {c : Fin n}
    (h : p.select current = some c) :
    (p c).isHealthy = true ∧ (current = none ∨ current = some c) := by
  cases current with
  | none =>
    rw [select_none] at h
    exact ⟨mem_healthy.mp (List.argmin_mem h), Or.inl rfl⟩
  | some b =>
    simp only [select] at h
    split at h
    · rename_i hb
      cases h
      exact ⟨hb, Or.inr rfl⟩
    · cases h

/-- In a list in ascending order what stands first is not greater. -/
theorem le_of_idxOf_le {l : List (Fin n)} (hl : l.Pairwise (· < ·)) {b c : Fin n} (hb : b ∈ l)
    (hc : c ∈ l) (h : l.idxOf b ≤ l.idxOf c) : b ≤ c := by
  have hbl := List.idxOf_lt_length_of_mem hb
  have hcl := List.idxOf_lt_length_of_mem hc
  rcases Nat.lt_or_eq_of_le h with hlt | heq
  · have hget := List.pairwise_iff_getElem.mp hl _ _ hbl hcl hlt
    rw [List.getElem_idxOf, List.getElem_idxOf] at hget
    exact Nat.le_of_lt hget
  · rw [(List.idxOf_inj hb).mp heq]

/-- The first of the ready channels with the fewest commands. -/
structure FirstLeast (p : BackendPool n) (c : Fin n) : Prop where
  ready : (p c).isHealthy = true
  least : ∀ c', (p c').isHealthy = true → (p c).queuedCommandCount ≤ (p c').queuedCommandCount
  first : ∀ c', c' < c → (p c').isHealthy = true →
    (p c).queuedCommandCount < (p c').queuedCommandCount

theorem FirstLeast.unique {p : BackendPool n} {b c : Fin n} (hb : p.FirstLeast b)
    (hc : p.FirstLeast c) : b = c := by
  have hbc := hb.least c hc.ready
  have hcb := hc.least b hb.ready
  rcases lt_trichotomy b c with hlt | heq | hgt
  · have := hc.first b hlt hb.ready
    omega
  · exact heq
  · have := hb.first c hgt hc.ready
    omega

theorem firstLeast_of_select {p : BackendPool n} {c : Fin n} (h : p.select none = some c) :
    p.FirstLeast c := by
  rw [select_none] at h
  obtain ⟨hmem, hle, hidx⟩ := List.argmin_eq_some_iff.mp h
  refine ⟨mem_healthy.mp hmem, fun c' hc' => hle c' (mem_healthy.mpr hc'), fun c' hlt hc' => ?_⟩
  by_contra hnot
  have hmem' := mem_healthy.mpr hc'
  have hsorted : p.healthy.Pairwise (· < ·) := (List.pairwise_lt_finRange n).filter _
  have hge := le_of_idxOf_le hsorted hmem hmem' (hidx c' hmem' (Nat.le_of_not_lt hnot))
  exact absurd hlt (not_lt.mpr hge)

theorem select_none_iff (p : BackendPool n) :
    (∀ c, p.select none = some c ↔ p.FirstLeast c) ∧
      (p.select none = none ↔ ∀ c, (p c).isHealthy = false) := by
  have hnone : p.select none = none ↔ ∀ c, (p c).isHealthy = false := by
    rw [select_none, List.argmin_eq_none, healthy, List.filter_eq_nil_iff]
    simp
  refine ⟨fun c => ⟨firstLeast_of_select, fun hc => ?_⟩, hnone⟩
  cases hsel : p.select none with
  | none =>
    have hready := hc.ready
    rw [hnone.mp hsel c] at hready
    cases hready
  | some b => rw [(firstLeast_of_select hsel).unique hc]

/-! ## 3. Batches -/

/-- A batch of at least one command is taken by a selected channel. -/
theorem submit_of_select {p : BackendPool n} {current : Option (Fin n)} {c : Fin n}
    (h : p.select current = some c) (owner : Owner) (bytes : BufferChain) {count : Nat}
    (hcount : count ≠ 0) : p.submit owner current bytes count =
      (some c, Function.update p c ((p c).submit owner bytes count).2) := by
  have htaken : ((p c).submit owner bytes count).1 = true := by
    simp [BackendChannel.submit, (select_some h).1, hcount]
  simp only [submit, h, htaken, if_true]

theorem submit_of_none {p : BackendPool n} {current : Option (Fin n)}
    (h : p.select current = none) (owner : Owner) (bytes : BufferChain) (count : Nat) :
    p.submit owner current bytes count = (none, p) := by
  simp only [submit, h]

theorem submit_zero (p : BackendPool n) (owner : Owner) (current : Option (Fin n))
    (bytes : BufferChain) : p.submit owner current bytes 0 = (none, p) := by
  cases hsel : p.select current with
  | none => exact submit_of_none hsel owner bytes 0
  | some c =>
    have hrefused : (p c).submit owner bytes 0 = (false, p c) := by simp [BackendChannel.submit]
    simp only [submit, hsel, hrefused, Function.update_eq_self]
    rfl

/-- **Which channel takes a batch, and what that changes**, in every state of the pool. Without a
    current channel it is the first of the ready ones with the fewest commands, and none exactly
    when none is ready; a current channel is never given up for another. A batch that is taken
    stands last in the queue of its channel and is counted there; nothing else changes. -/
theorem batch_placed (p : BackendPool n) (owner : Owner) (current : Option (Fin n))
    (bytes : BufferChain) (count : Nat) :
    (current = none → 0 < count →
      (∀ c, (p.submit owner current bytes count).1 = some c ↔ p.FirstLeast c) ∧
      ((p.submit owner current bytes count).1 = none ↔ ∀ c, (p c).isHealthy = false)) ∧
    (∀ b, current = some b → 0 < count →
      (p.submit owner current bytes count).1 = if (p b).isHealthy then some b else none) ∧
    (count = 0 → (p.submit owner current bytes count).1 = none) ∧
    (∀ c, (p.submit owner current bytes count).1 = some c →
      ((p.submit owner current bytes count).2 c).writeQueue =
        (p c).writeQueue ++ [⟨owner, bytes, count, (p c).trace.length⟩] ∧
      ((p.submit owner current bytes count).2 c).queuedCommands = (p c).queuedCommands + count ∧
      ∀ c', c' ≠ c → (p.submit owner current bytes count).2 c' = p c') ∧
    ((p.submit owner current bytes count).1 = none →
      (p.submit owner current bytes count).2 = p) := by
  by_cases hcount : count = 0
  · subst hcount
    rw [submit_zero]
    exact ⟨fun _ h0 => absurd h0 (Nat.lt_irrefl 0), fun _ _ h0 => absurd h0 (Nat.lt_irrefl 0),
      fun _ => rfl, nofun, fun _ => rfl⟩
  have hfst : (p.submit owner current bytes count).1 = p.select current := by
    cases hsel : p.select current with
    | none => rw [submit_of_none hsel]
    | some c => rw [submit_of_select hsel owner bytes hcount]
  refine ⟨fun hnone _ => ?_, fun b hb _ => ?_, fun h0 => absurd h0 hcount, fun c hc => ?_,
    fun hc => ?_⟩
  · subst hnone
    rw [hfst]
    exact p.select_none_iff
  · subst hb
    rw [hfst]
    rfl
  · rw [hfst] at hc
    have hready : (p c).isHealthy = true := (select_some hc).1
    rw [submit_of_select hc owner bytes hcount]
    refine ⟨?_, ?_, fun c' hne => Function.update_of_ne hne _ _⟩
    · simp [BackendChannel.submit, hready, hcount]
    · simp [BackendChannel.submit, hready, hcount]
  · rw [hfst] at hc
    rw [submit_of_none hc]

end BackendPool

end RedisProxy
