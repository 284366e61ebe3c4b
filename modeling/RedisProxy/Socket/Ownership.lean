/-
  File:      RedisProxy/Socket/Ownership.lean
  Subject:   `CoSocket` AS THE OWNER OF A DESCRIPTOR (src/co_socket.cpp): construction, moves,
             `release`, `reset`, `close`, `shutdown` and destruction.

  The kernel gives out the number of a closed descriptor again, so closing one that somebody else
  holds by now would hit a stranger. `Process` is the kernel's table of open descriptors, the
  sockets by their addresses, and the descriptors the program has as plain numbers (from `accept`,
  `socket` or `release`), of which it passes each to one socket at most. The run shows that custody
  is exclusive (`owned_reachable`).

  Not here: what goes over a socket (Socket.lean), and the calls inside `conn_util`, which close
  what they opened when they fail.
-/
import RedisProxy.Lib.Machine
import RedisProxy.Lib.Custody

namespace RedisProxy

open Lib

/-! ## 1. The operations -/

/-- The kernel's table of open descriptors; `badCalls` counts the calls on one that is not open. -/
structure FdTable where
  opened : Finset Nat
  badCalls : Nat

/-- `::close`. -/
def FdTable.close (k : FdTable) (fd : Nat) : FdTable :=
  if fd ∈ k.opened then { k with opened := k.opened.erase fd }
  else { k with badCalls := k.badCalls + 1 }

/-- `::shutdown`, in one or both directions: the descriptor stays open. -/
def FdTable.shutdown (k : FdTable) (fd : Nat) : FdTable :=
  if fd ∈ k.opened then k else { k with badCalls := k.badCalls + 1 }

/-- `CoSocket`: the member `fd_`, negative when the socket has none. -/
structure CoSocket where
  fd : Int
  deriving DecidableEq, Repr

namespace CoSocket

/-- `CoSocket::release`. -/
def release (s : CoSocket) : Int × CoSocket := (s.fd, ⟨-1⟩)

/-- `CoSocket::close`, and `CoSocket::~CoSocket`. -/
def close (s : CoSocket) (k : FdTable) : CoSocket × FdTable :=
  if 0 ≤ s.fd then (⟨-1⟩, k.close s.fd.toNat) else (s, k)

/-- `CoSocket::reset`. -/
def reset (s : CoSocket) (fd : Int) (k : FdTable) : CoSocket × FdTable := (⟨fd⟩, (s.close k).2)

/-- `CoSocket::shutdown` and `CoSocket::shutdownRead`. -/
def shutdown (s : CoSocket) (k : FdTable) : FdTable :=
  if 0 ≤ s.fd then k.shutdown s.fd.toNat else k

/-- `CoSocket::CoSocket(CoSocket&&)`: the new socket and the other one. -/
def moveConstruct (other : CoSocket) : CoSocket × CoSocket := (⟨other.release.1⟩, other.release.2)

/-- `CoSocket::operator=(CoSocket&&)` for two different sockets. -/
def moveAssign (s other : CoSocket) (k : FdTable) : CoSocket × CoSocket × FdTable :=
  (⟨other.release.1⟩, other.release.2, (s.close k).2)

/-- The descriptor a socket has. -/
def held (s : CoSocket) : Option Nat := if 0 ≤ s.fd then some s.fd.toNat else none

theorem fd_of_held {s : CoSocket} {f : Nat} (h : s.held = some f) : s.fd = f := by
  simp only [held, Option.ite_none_right_eq_some, Option.some.injEq] at h
  rw [← h.2]
  exact (Int.toNat_of_nonneg h.1).symm

end CoSocket

/-! ## 2. The process -/

structure Process where
  table : FdTable
  raw : Finset Nat
  sockets : Nat → Option CoSocket

/-- What the program does with sockets and descriptors; a socket is named by its address. `opens` is
    a system call that returned a descriptor, any that is not open. -/
inductive SocketAct where
  | opens (fd : Nat)
  | construct (i : Nat) (fd : Int)
  | moveConstruct (i j : Nat)
  | moveAssign (i j : Nat)
  | release (i : Nat)
  | reset (i : Nat) (fd : Int)
  | close (i : Nat)
  | shutdown (i : Nat)
  | destroy (i : Nat)

namespace Process

def init : Process := ⟨⟨∅, 0⟩, ∅, fun _ => none⟩

/-- The caller may pass no descriptor, or one that it has as a plain number. -/
def passes (p : Process) (fd : Int) : Bool := decide (fd < 0 ∨ fd.toNat ∈ p.raw)

/-- The plain numbers after one of them was passed on. -/
def handedOver (p : Process) (fd : Int) : Finset Nat :=
  if 0 ≤ fd then p.raw.erase fd.toNat else p.raw

/-- The plain numbers after a socket gave its descriptor back. -/
def regained (p : Process) (fd : Int) : Finset Nat :=
  if 0 ≤ fd then insert fd.toNat p.raw else p.raw

def put (p : Process) (i : Nat) (s : Option CoSocket) : Nat → Option CoSocket :=
  Function.update p.sockets i s

def step (p : Process) : SocketAct → Option Process
  | .opens fd =>
      if fd ∈ p.table.opened then none
      else some { p with
        table := { p.table with opened := insert fd p.table.opened }
        raw := insert fd p.raw }
  | .construct i fd =>
      if (p.sockets i).isNone && p.passes fd then
        some { p with raw := p.handedOver fd, sockets := p.put i (some ⟨fd⟩) }
      else none
  | .moveConstruct i j =>
      if (p.sockets i).isNone then
        (p.sockets j).map fun other => { p with
          sockets := Function.update (p.put j (some other.moveConstruct.2)) i
            (some other.moveConstruct.1) }
      else none
  | .moveAssign i j =>
      (p.sockets i).bind fun s => (p.sockets j).map fun other =>
        -- `this != &other`
        if i = j then p
        else { p with
          table := (s.moveAssign other p.table).2.2
          sockets := Function.update (p.put j (some (s.moveAssign other p.table).2.1)) i
            (some (s.moveAssign other p.table).1) }
  | .release i =>
      (p.sockets i).map fun s =>
        { p with raw := p.regained s.release.1, sockets := p.put i (some s.release.2) }
  | .reset i fd =>
      if p.passes fd then
        (p.sockets i).map fun s => { p with
          table := (s.reset fd p.table).2
          raw := p.handedOver fd
          sockets := p.put i (some (s.reset fd p.table).1) }
      else none
  | .close i =>
      (p.sockets i).map fun s =>
        { p with table := (s.close p.table).2, sockets := p.put i (some (s.close p.table).1) }
  | .shutdown i => (p.sockets i).map fun s => { p with table := s.shutdown p.table }
  | .destroy i =>
      (p.sockets i).map fun s => { p with table := (s.close p.table).2, sockets := p.put i none }

/-- **The machine of a process and its sockets.** -/
def machine : Machine Process SocketAct := ⟨init, step⟩

/-! ## 3. Custody -/

/-- Who may hold a descriptor: a socket, or the program as a plain number. -/
inductive Holder where
  | socket (i : Nat)
  | raw (fd : Nat)
  deriving DecidableEq

def holds (p : Process) : Holder → Option Nat
  | .socket i => (p.sockets i).bind CoSocket.held
  | .raw fd => if fd ∈ p.raw then some fd else none

/-- **Every open descriptor has exactly one holder**, and no call was made on one that is not
    open. -/
structure Owned (p : Process) : Prop where
  custody : Exclusive p.holds p.table.opened
  calls : p.table.badCalls = 0

section Owned

variable {p : Process} {i j : Nat} {s : CoSocket} {fd : Int}

theorem holds_put (p : Process) (t : FdTable) (i : Nat) (o : Option CoSocket) :
    holds { p with table := t, sockets := p.put i o } =
      Function.update p.holds (.socket i) (o.bind CoSocket.held) := by
  funext x
  cases x with
  | socket k =>
    by_cases hk : k = i
    · subst hk
      simp [holds, put]
    · rw [Function.update_of_ne (by simpa using hk)]
      simp [holds, put, hk]
  | raw f =>
    rw [Function.update_of_ne (by simp)]
    rfl

/-- A change of the plain numbers at `f` alone. -/
theorem holds_raw (p : Process) (t : FdTable) {r : Finset Nat} (f : Nat)
    (hr : ∀ g, g ≠ f → (g ∈ r ↔ g ∈ p.raw)) :
    holds { p with table := t, raw := r } =
      Function.update p.holds (.raw f) (if f ∈ r then some f else none) := by
  funext x
  cases x with
  | socket k =>
    rw [Function.update_of_ne (by simp)]
    rfl
  | raw g =>
    by_cases hg : g = f
    · subst hg
      simp [holds]
    · rw [Function.update_of_ne (by simpa using hg)]
      simp only [holds, hr g hg]

theorem holds_erase (p : Process) (f : Nat) :
    holds { p with raw := p.raw.erase f } = Function.update p.holds (.raw f) none :=
  (holds_raw p p.table f fun _ hg => by simp [hg]).trans (by simp)

theorem holds_insert (p : Process) (t : FdTable) (f : Nat) :
    holds { p with table := t, raw := insert f p.raw } =
      Function.update p.holds (.raw f) (some f) :=
  (holds_raw p t f fun _ hg => by simp [hg]).trans (by simp)

theorem holds_socket (hs : p.sockets i = some s) : p.holds (.socket i) = s.held := by
  simp [holds, hs]

theorem init_owned : init.Owned where
  custody := by
    have hnone : ∀ h, init.holds h = none := by
      rintro (k | f) <;> rfl
    refine ⟨fun r => ⟨fun hr => absurd hr (Finset.notMem_empty r), ?_⟩, fun h h' r hr => ?_⟩
    · rintro ⟨h, hr⟩
      rw [hnone h] at hr
      cases hr
    · rw [hnone h] at hr
      cases hr
  calls := rfl

/-- A socket that has a descriptor closes one that is open. -/
theorem Owned.close_table (h : p.Owned) (hs : p.sockets i = some s) :
    s.held = none ∧ (s.close p.table).2 = p.table ∨
      ∃ f, s.held = some f ∧
        (s.close p.table).2 = { p.table with opened := p.table.opened.erase f } := by
  unfold CoSocket.held CoSocket.close
  by_cases hf : 0 ≤ s.fd
  · have hheld : p.holds (.socket i) = some s.fd.toNat := by
      rw [holds_socket hs, CoSocket.held, if_pos hf]
    refine Or.inr ⟨s.fd.toNat, if_pos hf, ?_⟩
    rw [if_pos hf, FdTable.close, if_pos (h.custody.mem hheld)]
  · exact Or.inl ⟨if_neg hf, by rw [if_neg hf]⟩

/-- A socket closes what it has; it is left without a descriptor, or is destroyed. -/
theorem Owned.closed (h : p.Owned) (hs : p.sockets i = some s) {o : Option CoSocket}
    (ho : o.bind CoSocket.held = none) :
    Owned { p with table := (s.close p.table).2, sockets := p.put i o } := by
  have hheld := holds_socket hs
  refine ⟨?_, ?_⟩
  · rw [holds_put, ho]
    rcases h.close_table hs with ⟨hnone, ht⟩ | ⟨f, hf, ht⟩
    · rw [ht]
      exact h.custody.clear (hheld.trans hnone)
    · rw [ht]
      exact h.custody.drop (hheld.trans hf)
  · rcases h.close_table hs with ⟨_, ht⟩ | ⟨f, _, ht⟩ <;> rw [ht] <;> exact h.calls

/-- A socket without a descriptor takes over a plain number. -/
theorem Owned.given (h : p.Owned) (hn : p.holds (.socket i) = none) (hfd : p.passes fd = true) :
    Owned { p with raw := p.handedOver fd, sockets := p.put i (some ⟨fd⟩) } := by
  refine ⟨?_, h.calls⟩
  by_cases hf : 0 ≤ fd
  · have hraw : fd.toNat ∈ p.raw := by
      have hcase : fd < 0 ∨ fd.toNat ∈ p.raw := by simpa [passes] using hfd
      exact hcase.resolve_left (Int.not_lt.mpr hf)
    have hholds : holds { p with raw := p.handedOver fd, sockets := p.put i (some ⟨fd⟩) } =
        Function.update (Function.update p.holds (.raw fd.toNat) none) (.socket i)
          (some fd.toNat) := by
      rw [← holds_erase, handedOver, if_pos hf]
      refine (holds_put { p with raw := p.raw.erase fd.toNat } p.table i _).trans ?_
      rw [Option.bind_some, CoSocket.held, if_pos hf]
    rw [hholds]
    exact h.custody.transfer (by simp [holds, hraw]) hn
  · have hholds : holds { p with raw := p.handedOver fd, sockets := p.put i (some ⟨fd⟩) } =
        Function.update p.holds (.socket i) none := by
      rw [handedOver, if_neg hf]
      refine (holds_put p p.table i _).trans ?_
      rw [Option.bind_some, CoSocket.held, if_neg hf]
    rw [hholds]
    exact h.custody.clear hn

theorem held_none : CoSocket.held ⟨-1⟩ = none := rfl

/-- A socket without a descriptor takes over that of another. -/
theorem Owned.passed (h : p.Owned) (hne : i ≠ j) (hn : p.holds (.socket i) = none)
    (hj : p.sockets j = some s) :
    Owned { p with sockets := Function.update (p.put j (some ⟨-1⟩)) i (some ⟨s.fd⟩) } := by
  refine ⟨?_, h.calls⟩
  have hholds : holds { p with
      sockets := Function.update (p.put j (some ⟨-1⟩)) i (some ⟨s.fd⟩) } =
      Function.update (Function.update p.holds (.socket j) none) (.socket i) s.held := by
    refine (holds_put { p with sockets := p.put j (some ⟨-1⟩) } p.table i _).trans ?_
    rw [holds_put p p.table j]
    rfl
  have hheld := holds_socket hj
  rw [hholds]
  cases hs : s.held with
  | some f => exact h.custody.transfer (hheld.trans hs) hn
  | none =>
    refine (h.custody.clear (hheld.trans hs)).clear ?_
    rw [Function.update_of_ne (by simpa using hne)]
    exact hn

/-- A socket gives its descriptor back as a plain number. -/
theorem Owned.released (h : p.Owned) (hs : p.sockets i = some s) :
    Owned { p with raw := p.regained s.fd, sockets := p.put i (some ⟨-1⟩) } := by
  refine ⟨?_, h.calls⟩
  have hheld := holds_socket hs
  by_cases hf : 0 ≤ s.fd
  · rw [CoSocket.held, if_pos hf] at hheld
    have hraw : p.holds (.raw s.fd.toNat) = none := by
      simp only [holds]
      split
      · rename_i hmem
        have := h.custody.one (.raw s.fd.toNat) (.socket i) s.fd.toNat (by simp [holds, hmem]) hheld
        cases this
      · rfl
    have hholds : holds { p with raw := p.regained s.fd, sockets := p.put i (some ⟨-1⟩) } =
        Function.update (Function.update p.holds (.socket i) none) (.raw s.fd.toNat)
          (some s.fd.toNat) := by
      rw [regained, if_pos hf]
      refine (holds_insert { p with sockets := p.put i (some ⟨-1⟩) } p.table s.fd.toNat).trans ?_
      rw [holds_put p p.table i, Option.bind_some, held_none]
    rw [hholds]
    exact h.custody.transfer hheld hraw
  · have hholds : holds { p with raw := p.regained s.fd, sockets := p.put i (some ⟨-1⟩) } =
        Function.update p.holds (.socket i) none := by
      rw [regained, if_neg hf]
      exact holds_put p p.table i _
    rw [CoSocket.held, if_neg hf] at hheld
    rw [hholds]
    exact h.custody.clear hheld

theorem Owned.step {p' : Process} {a : SocketAct} (h : p.Owned) (hs : p.step a = some p') :
    p'.Owned := by
  cases a with
  | opens f =>
    simp only [Process.step] at hs
    split at hs
    · cases hs
    · rename_i hnew
      cases hs
      refine ⟨?_, h.calls⟩
      rw [holds_insert]
      refine h.custody.acquire ?_ hnew
      have hraw : f ∉ p.raw := fun hmem =>
        hnew (h.custody.mem (h := Holder.raw f) (by simp [holds, hmem]))
      simp [holds, hraw]
  | construct i fd =>
    simp only [Process.step] at hs
    split at hs
    · rename_i hok
      cases hs
      obtain ⟨hfree, hfd⟩ := Bool.and_eq_true_iff.mp hok
      refine h.given ?_ hfd
      simp [holds, Option.isNone_iff_eq_none.mp hfree]
    · cases hs
  | moveConstruct i j =>
    simp only [Process.step] at hs
    split at hs
    · rename_i hfree
      obtain ⟨other, hj, rfl⟩ := Option.map_eq_some_iff.mp hs
      have hi := Option.isNone_iff_eq_none.mp hfree
      refine h.passed (fun hij => ?_) (by simp [holds, hi]) hj
      rw [← hij, hi] at hj
      cases hj
    · cases hs
  | moveAssign i j =>
    obtain ⟨s, hi, hs⟩ := Option.bind_eq_some_iff.mp hs
    obtain ⟨other, hj, rfl⟩ := Option.map_eq_some_iff.mp hs
    split
    · exact h
    · rename_i hij
      -- first `close()`, then the descriptor of the other one
      have hclosed := h.closed hi (o := some ⟨-1⟩) rfl
      have hj' : p.put i (some ⟨-1⟩) j = some other := by
        rw [put, Function.update_of_ne (Ne.symm hij)]
        exact hj
      have hpassed := hclosed.passed hij (by simp [holds, put, held_none]) hj'
      have hsockets : Function.update (Function.update (p.put i (some ⟨-1⟩)) j (some ⟨-1⟩)) i
          (some ⟨other.fd⟩) = Function.update (p.put j (some ⟨-1⟩)) i (some ⟨other.fd⟩) := by
        rw [put, put, Function.update_comm hij, Function.update_idem]
      simp only [put] at hpassed hsockets
      rw [hsockets] at hpassed
      exact hpassed
  | release i =>
    obtain ⟨s, hi, rfl⟩ := Option.map_eq_some_iff.mp hs
    exact h.released hi
  | reset i fd =>
    simp only [Process.step] at hs
    split at hs
    · rename_i hfd
      obtain ⟨s, hi, rfl⟩ := Option.map_eq_some_iff.mp hs
      have hclosed := h.closed hi (o := some ⟨-1⟩) rfl
      have hgiven := hclosed.given (i := i) (by simp [holds, put, held_none]) hfd
      simp only [put, Function.update_idem] at hgiven
      exact hgiven
    · cases hs
  | close i =>
    obtain ⟨s, hi, rfl⟩ := Option.map_eq_some_iff.mp hs
    refine h.closed hi ?_
    unfold CoSocket.close
    split
    · rfl
    · rename_i hf
      exact if_neg hf
  | shutdown i =>
    obtain ⟨s, hi, rfl⟩ := Option.map_eq_some_iff.mp hs
    have hsame : s.shutdown p.table = p.table := by
      unfold CoSocket.shutdown
      split
      · rename_i hf
        refine if_pos (h.custody.mem (h := Holder.socket i) ?_)
        rw [holds_socket hi, CoSocket.held, if_pos hf]
      · rfl
    rw [hsame]
    exact h
  | destroy i =>
    obtain ⟨s, hi, rfl⟩ := Option.map_eq_some_iff.mp hs
    exact h.closed hi rfl

theorem owned_reachable (h : machine.Reachable p) : p.Owned :=
  h.invariant (I := Owned) init_owned fun _ _ _ _ hI hs => hI.step hs

/-- A step in which socket `i` closes the descriptor it has. -/
inductive Closing (i : Nat) : SocketAct → Prop where
  | close : Closing i (.close i)
  | destroy : Closing i (.destroy i)
  | reset (fd : Int) : Closing i (.reset i fd)
  | moveAssign (j : Nat) (h : i ≠ j) : Closing i (.moveAssign i j)

/-- A step leaves every descriptor open, or some socket closes what it has. -/
theorem step_table {p' : Process} {a : SocketAct} (hs : p.step a = some p') :
    p.table.opened ⊆ p'.table.opened ∨
      ∃ i s, p.sockets i = some s ∧ Closing i a ∧ p'.table = (s.close p.table).2 := by
  cases a with
  | opens g =>
    simp only [Process.step] at hs
    split at hs
    · cases hs
    · cases hs
      exact Or.inl (Finset.subset_insert g _)
  | construct i fd =>
    simp only [Process.step] at hs
    split at hs
    · cases hs
      exact Or.inl (Finset.Subset.refl _)
    · cases hs
  | moveConstruct i j =>
    simp only [Process.step] at hs
    split at hs
    · obtain ⟨other, _, rfl⟩ := Option.map_eq_some_iff.mp hs
      exact Or.inl (Finset.Subset.refl _)
    · cases hs
  | moveAssign i j =>
    obtain ⟨s, hi, hs⟩ := Option.bind_eq_some_iff.mp hs
    obtain ⟨other, _, rfl⟩ := Option.map_eq_some_iff.mp hs
    split
    · exact Or.inl (Finset.Subset.refl _)
    · rename_i hij
      exact Or.inr ⟨i, s, hi, .moveAssign j hij, rfl⟩
  | release i =>
    obtain ⟨s, _, rfl⟩ := Option.map_eq_some_iff.mp hs
    exact Or.inl (Finset.Subset.refl _)
  | reset i fd =>
    simp only [Process.step] at hs
    split at hs
    · obtain ⟨s, hi, rfl⟩ := Option.map_eq_some_iff.mp hs
      exact Or.inr ⟨i, s, hi, .reset fd, rfl⟩
    · cases hs
  | close i =>
    obtain ⟨s, hi, rfl⟩ := Option.map_eq_some_iff.mp hs
    exact Or.inr ⟨i, s, hi, .close, rfl⟩
  | shutdown i =>
    obtain ⟨s, _, rfl⟩ := Option.map_eq_some_iff.mp hs
    refine Or.inl (Finset.subset_of_eq ?_)
    unfold CoSocket.shutdown FdTable.shutdown
    repeat' split
    all_goals rfl
  | destroy i =>
    obtain ⟨s, hi, rfl⟩ := Option.map_eq_some_iff.mp hs
    exact Or.inr ⟨i, s, hi, .destroy, rfl⟩

/-- **A descriptor is closed by the socket that holds it and by nobody else.** -/
theorem Owned.closed_by_holder {p' : Process} {a : SocketAct} (h : p.Owned)
    (hs : p.step a = some p') {f : Nat} (hf : f ∈ p.table.opened) (hf' : f ∉ p'.table.opened) :
    ∃ i s, p.sockets i = some s ∧ s.fd = f ∧ Closing i a := by
  rcases step_table hs with hsub | ⟨i, s, hi, ha, ht⟩
  · exact absurd (hsub hf) hf'
  · refine ⟨i, s, hi, ?_, ha⟩
    rw [ht] at hf'
    rcases h.close_table hi with ⟨_, hsame⟩ | ⟨g, hg, herase⟩
    · rw [hsame] at hf'
      exact absurd hf hf'
    · rw [herase] at hf'
      have hfg : f = g := by
        by_contra hne
        exact hf' (Finset.mem_erase.mpr ⟨hne, hf⟩)
      exact CoSocket.fd_of_held (hfg ▸ hg)

/-- **Descriptors are owned.** Whatever a program does with its sockets, passing to each of them
    only descriptors that no socket has: no `::close` or `::shutdown` is made on a descriptor that
    is not open; a descriptor is open exactly as long as one socket, or the program, has it, and
    never two of them; and it is closed only by the socket that has it. -/
theorem descriptors_owned (h : machine.Reachable p) :
    p.table.badCalls = 0 ∧
    (∀ f : Nat, f ∈ p.table.opened ↔ f ∈ p.raw ∨ ∃ i s, p.sockets i = some s ∧ s.fd = f) ∧
    (∀ i s, p.sockets i = some s → 0 ≤ s.fd → s.fd.toNat ∉ p.raw ∧
      ∀ j t, p.sockets j = some t → t.fd = s.fd → j = i) ∧
    ∀ a p' f, p.step a = some p' → f ∈ p.table.opened → f ∉ p'.table.opened →
      ∃ i s, p.sockets i = some s ∧ s.fd = f ∧ Closing i a := by
  have ho := owned_reachable h
  have hheld : ∀ {i : Nat} {s : CoSocket}, p.sockets i = some s → 0 ≤ s.fd →
      p.holds (.socket i) = some s.fd.toNat := by
    intro i s hs hf
    rw [holds_socket hs, CoSocket.held, if_pos hf]
  refine ⟨ho.calls, fun f => ?_, fun i s hs hf => ⟨fun hraw => ?_, fun j t ht he => ?_⟩,
    fun a p' f hs hf hf' => ho.closed_by_holder hs hf hf'⟩
  · rw [ho.custody.held]
    constructor
    · rintro ⟨k | g, hk⟩
      · obtain ⟨s, hs, hsf⟩ := Option.bind_eq_some_iff.mp hk
        exact Or.inr ⟨k, s, hs, CoSocket.fd_of_held hsf⟩
      · simp only [holds, Option.ite_none_right_eq_some, Option.some.injEq] at hk
        exact Or.inl (hk.2 ▸ hk.1)
    · rintro (hraw | ⟨i, s, hs, hsf⟩)
      · exact ⟨.raw f, by simp [holds, hraw]⟩
      · refine ⟨.socket i, ?_⟩
        rw [hheld hs (by rw [hsf]; exact Int.natCast_nonneg f), hsf, Int.toNat_natCast]
  · have hraw' : p.holds (.raw s.fd.toNat) = some s.fd.toNat := by simp [holds, hraw]
    cases ho.custody.one _ _ _ hraw' (hheld hs hf)
  · have hone := ho.custody.one _ _ _ (hheld ht (he ▸ hf)) (he ▸ hheld hs hf)
    exact Holder.socket.inj hone

/-- A descriptor is taken over, moved and assigned over another one, whose number is given out
    again. -/
def reusedNumber : List SocketAct :=
  [.opens 3, .construct 0 3, .moveConstruct 1 0, .opens 4, .reset 0 4, .moveAssign 1 0, .opens 3,
    .shutdown 1, .destroy 0]

theorem descriptors_owned_reusedNumber :
    ∃ p, machine.run init reusedNumber = some p ∧ p.sockets 1 = some ⟨4⟩ ∧ p.sockets 0 = none ∧
      3 ∈ p.raw ∧ 3 ∈ p.table.opened ∧ 4 ∈ p.table.opened ∧ p.table.badCalls = 0 := by
  have hrun : (machine.run init reusedNumber).map (fun p =>
      (p.sockets 1, p.sockets 0, decide (3 ∈ p.raw))) = some (some ⟨4⟩, none, true) := by
    decide +kernel
  obtain ⟨p, hp, hval⟩ := Option.map_eq_some_iff.mp hrun
  simp only [Prod.mk.injEq, decide_eq_true_eq] at hval
  obtain ⟨h1, h0, hraw⟩ := hval
  obtain ⟨hcalls, hopen, _⟩ := descriptors_owned (Machine.reachable_of_run hp)
  exact ⟨p, hp, h1, h0, hraw, (hopen 3).mpr (Or.inl hraw), (hopen 4).mpr (Or.inr ⟨1, _, h1, rfl⟩),
    hcalls⟩

end Owned

end Process

end RedisProxy
