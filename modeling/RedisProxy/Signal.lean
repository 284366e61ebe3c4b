/-
  File:      RedisProxy/Signal.lean
  Subject:   `CoroutineSignal` (src/coroutine_signal.cpp) over the condition variable of libco.

  `co::CoCond` is not part of the repository; its documented behaviour is the model here:
  `Signal` moves one waiting coroutine to the run queue without running it and remembers
  nothing when nobody waits, `Timedwait(0)` suspends the caller until it is signalled. So the
  condition variable is two numbers, how many coroutines are suspended in it (`blocked`) and how
  many of the signalled ones have not run yet (`woken`).
-/
import Mathlib.Logic.Basic

namespace RedisProxy

/-- `CoroutineSignal`: the flag `pending_` and the two counts of its `CoCond`. -/
structure CoroutineSignal where
  pending : Bool
  blocked : Nat
  woken : Nat
  deriving DecidableEq, Repr

namespace CoroutineSignal

def init : CoroutineSignal := ⟨false, 0, 0⟩

/-- `CoCond::Signal`. -/
def condSignal (s : CoroutineSignal) : CoroutineSignal :=
  match s.blocked with
  | 0 => s
  | b + 1 => { s with blocked := b, woken := s.woken + 1 }

/-- `CoroutineSignal::notify`. -/
def notify (s : CoroutineSignal) : CoroutineSignal :=
  ({ s with pending := true }).condSignal

/-- `CoroutineSignal::wait` up to its return or its suspension; the flag of the result says
    whether it returned. -/
def wait (s : CoroutineSignal) : Bool × CoroutineSignal :=
  if s.pending then (true, { s with pending := false })
  else (false, { s with blocked := s.blocked + 1 })

/-- The rest of `CoroutineSignal::wait` in a coroutine that was suspended in it. A coroutine
    whose wake is not scheduled does not run. -/
def resume (s : CoroutineSignal) : Option CoroutineSignal :=
  match s.woken with
  | 0 => none
  | w + 1 => some { s with woken := w, pending := false }

/-- **A signal with one user**, which is suspended in `wait()` or not: a set flag means that
    nobody is left blocked. -/
structure Waits (s : CoroutineSignal) (suspended : Bool) : Prop where
  sound : s.pending = true → s.blocked = 0
  one : s.blocked + s.woken = suspended.toNat

section Waits

variable {s s' : CoroutineSignal} {suspended : Bool}

theorem init_waits : init.Waits false := ⟨nofun, rfl⟩

theorem Waits.blocked_le (h : s.Waits suspended) : s.blocked ≤ 1 := by
  have := h.one
  cases suspended <;> simp only [Bool.toNat_true, Bool.toNat_false] at this <;> omega

theorem Waits.blocked_of_awake (h : s.Waits false) : s.blocked = 0 := by
  have := h.one
  simp only [Bool.toNat_false] at this
  omega

/-- **After `notify` the user is awake or its wake is scheduled.** -/
theorem Waits.notify (h : s.Waits suspended) :
    s.notify.Waits suspended ∧ s.notify.blocked = 0 := by
  have hle := h.blocked_le
  have hone := h.one
  unfold CoroutineSignal.notify condSignal
  split
  · rename_i h0
    exact ⟨⟨fun _ => h0, hone⟩, h0⟩
  · rename_i b hb
    have hb : s.blocked = b + 1 := hb
    have h0 : b = 0 := by omega
    refine ⟨⟨fun _ => h0, ?_⟩, h0⟩
    simp only [h0]
    omega

/-- A `wait()` that finds a notification takes it and does not suspend. -/
theorem Waits.wait_returned (h : s.Waits false) (hw : s.wait = (true, s')) : s'.Waits false := by
  unfold wait at hw
  split at hw
  · cases hw
    exact ⟨nofun, h.one⟩
  · cases hw

/-- One that finds none suspends the only waiter. -/
theorem Waits.wait_suspended (h : s.Waits false) (hw : s.wait = (false, s')) : s'.Waits true := by
  unfold wait at hw
  split at hw
  · cases hw
  · rename_i hp
    cases hw
    have hone := h.one
    refine ⟨fun hp' => absurd hp' hp, ?_⟩
    simp only [Bool.toNat_true, Bool.toNat_false] at hone ⊢
    omega

/-- The waiter that was woken is awake again. -/
theorem Waits.resume (h : s.Waits true) (hr : s.resume = some s') : s'.Waits false := by
  have hone := h.one
  unfold CoroutineSignal.resume at hr
  split at hr
  · cases hr
  · rename_i w hw
    cases hr
    simp only [Bool.toNat_true] at hone
    exact ⟨nofun, by simp only [Bool.toNat_false]; omega⟩

/-- A user suspended in `wait()` can go on, or it is blocked. -/
theorem Waits.resume_or_blocked (h : s.Waits true) : s.resume.isSome ∨ s.blocked = 1 := by
  have hone := h.one
  cases hw : s.woken with
  | zero =>
    rw [hw, Bool.toNat_true] at hone
    exact Or.inr hone
  | succ w =>
    refine Or.inl ?_
    simp [CoroutineSignal.resume, hw]

end Waits

end CoroutineSignal

end RedisProxy
