/-
  File:      RedisProxy/Channel/Counter.lean
  Subject:   `queued_commands_` COUNTS WHAT STANDS IN THE TWO QUEUES.

  The counter and the queues are changed apart from one another, and the queues differently when
  an owner leaves. `Counted` is kept by every line step, so the counter is exact at every moment
  of every run, inside callbacks as well, and no subtraction the code makes goes below zero.
-/
import RedisProxy.Channel.Line
import Mathlib.Algebra.BigOperators.Group.List.Basic

namespace RedisProxy

open Lib

/-! ## 1. The invariant -/

namespace Line

/-- The commands of batches not yet started. -/
def waiting (l : Line) : Nat := (l.writeQueue.map (·.commandCount)).sum

/-- The replies started batches still stand for. -/
def awaited (l : Line) : Nat := (l.pendingQueue.map (·.remainingReplies)).sum

/-- **The counter is exact, and no entry of a queue is used up.** -/
structure Counted (l : Line) : Prop where
  exact : l.queued = l.waiting + l.awaited
  batches : ∀ b ∈ l.writeQueue, 0 < b.commandCount
  entries : ∀ p ∈ l.pendingQueue, 0 < p.remainingReplies

theorem init_counted : init.Counted where
  exact := rfl
  batches := nofun
  entries := nofun

section Counted

variable {l l' : Line}

/-- A step that leaves the queues and the counter alone. -/
theorem Counted.keep (h : l.Counted) (hw : l'.writeQueue = l.writeQueue)
    (hp : l'.pendingQueue = l.pendingQueue) (hq : l'.queued = l.queued) : l'.Counted where
  exact := by
    rw [waiting, awaited, hw, hp, hq]
    exact h.exact
  batches := by
    rw [hw]
    exact h.batches
  entries := by
    rw [hp]
    exact h.entries

theorem Counted.submit (h : l.Counted) (o : Owner) (bytes : BufferChain) {count : Nat}
    (hpos : count ≠ 0) : (l.submit o bytes count).Counted where
  exact := by
    have hw : (l.submit o bytes count).waiting = l.waiting + count := by
      simp [waiting, Line.submit]
    have ha : (l.submit o bytes count).awaited = l.awaited := rfl
    have hq : (l.submit o bytes count).queued = l.queued + count := rfl
    rw [hw, ha, hq, h.exact]
    omega
  batches b hb := by
    rcases List.mem_append.mp hb with hb | hb
    · exact h.batches b hb
    · rw [List.mem_singleton.mp hb]
      exact Nat.pos_of_ne_zero hpos
  entries := h.entries

/-- The commands that wait are those of an owner and those of the others. -/
theorem waiting_split (q : List RequestBatch) (o : Owner) :
    ((q.filter (·.owner = o)).map (·.commandCount)).sum +
      ((q.filter (·.owner ≠ o)).map (·.commandCount)).sum = (q.map (·.commandCount)).sum :=
  List.sum_map_filter_add_sum_map_filter_not (fun b : RequestBatch => b.owner = o) _ q

theorem Counted.detach (h : l.Counted) (o : Owner) : (l.detach o).Counted where
  exact := by
    have ha : (l.detach o).awaited = l.awaited := by
      simp only [awaited, Line.detach, List.map_map]
      congr 2
      funext p
      simp only [Function.comp]
      split <;> rfl
    have hsplit := waiting_split l.writeQueue o
    have hexact := h.exact
    rw [ha]
    show l.queued - ((l.writeQueue.filter (·.owner = o)).map (·.commandCount)).sum =
      ((l.writeQueue.filter (·.owner ≠ o)).map (·.commandCount)).sum + l.awaited
    rw [waiting] at hexact
    omega
  batches b hb := h.batches b (List.mem_of_mem_filter hb)
  entries p hp := by
    obtain ⟨p₀, hp₀, rfl⟩ := List.mem_map.mp hp
    have hpos := h.entries p₀ hp₀
    split
    · exact hpos
    · exact hpos

theorem Counted.take (h : l.Counted) {b : RequestBatch} {q : List RequestBatch}
    (hq : l.writeQueue = b :: q) : (l.take b q).Counted where
  exact := by
    have hw : l.waiting = b.commandCount + (l.take b q).waiting := by
      rw [waiting, hq]
      rfl
    have ha : (l.take b q).awaited = l.awaited + b.commandCount := by
      simp [awaited, Line.take]
    have hc : (l.take b q).queued = l.queued := rfl
    rw [ha, hc, h.exact, hw]
    omega
  batches b' hb' := h.batches b' (hq ▸ List.mem_cons_of_mem _ hb')
  entries p hp := by
    rcases List.mem_append.mp hp with hp | hp
    · exact h.entries p hp
    · rw [List.mem_singleton.mp hp]
      exact h.batches b (hq ▸ List.mem_cons_self)

/-- Nothing stays queued, and the counter starts over. -/
theorem counted_fail (l : Line) (st : Status) : (l.fail st).Counted where
  exact := rfl
  batches := nofun
  entries := nofun

theorem Counted.answer (h : l.Counted) {p : PendingBatch} {q : List PendingBatch}
    (hq : l.pendingQueue = p :: q) (r : BufferChain) (rest : Bytes) :
    (l.answer p q r rest).Counted := by
  have hpos : 0 < p.remainingReplies := h.entries p (hq ▸ List.mem_cons_self)
  have ha : l.awaited = p.remainingReplies + (q.map (·.remainingReplies)).sum := by
    rw [awaited, hq]
    rfl
  have hexact := h.exact
  have hw : (l.answer p q r rest).waiting = l.waiting := rfl
  have hc : (l.answer p q r rest).queued = l.queued - 1 := rfl
  have hq' : (l.answer p q r rest).pendingQueue = if p.remainingReplies - 1 = 0 then q
      else { p with remainingReplies := p.remainingReplies - 1, answered := p.answered + 1 } :: q :=
    rfl
  refine ⟨?_, h.batches, fun p' hp' => ?_⟩
  · rw [hw, hc, awaited, hq']
    split
    · omega
    · rw [List.map_cons, List.sum_cons]
      dsimp only
      omega
  · rw [hq'] at hp'
    split at hp'
    · exact h.entries p' (hq ▸ List.mem_cons_of_mem _ hp')
    · rcases List.mem_cons.mp hp' with rfl | hp'
      · exact Nat.pos_of_ne_zero ‹_›
      · exact h.entries p' (hq ▸ List.mem_cons_of_mem _ hp')

/-- **Every step of a line keeps the count.** -/
theorem Step.counted {may : List Frame → Outside → Prop} (hs : Step may l l') (h : l.Counted) :
    l'.Counted := by
  cases hs with
  | submit o bytes count ready pos call => exact h.submit o bytes pos
  | detach o call => exact h.detach o
  | fail st ready frames => exact counted_fail l st
  | take b q frames ready task queue => exact h.take queue
  | answer p q r rest frames ready queue input => exact h.answer queue r rest
  | stray f rest st frames ready queue input => exact counted_fail _ st
  | start | stop | wrote | wroteAll | gaveUp | received | dial | connect | clear | call | ret =>
    exact h.keep rfl rfl rfl

end Counted

end Line

/-! ## 2. Every reachable channel -/

namespace BackendChannel

section Reachable

variable {U : UnpackOne} {allow : Owner → Op → Bool} {blockSize : Nat} {hb : 0 < blockSize}
  {ch : BackendChannel}

/-- The counter in the loop of `detachOwner` when it comes to one more batch. -/
theorem detachWrites_enough {q : List RequestBatch} {total : Nat}
    (h : (q.map (·.commandCount)).sum ≤ total) {o : Owner} {before after : List RequestBatch}
    {b : RequestBatch} (hq : q = before ++ b :: after) :
    b.commandCount ≤ (detachWrites o before total).2 := by
  rw [detachWrites_eq]
  have hsplit := Line.waiting_split before o
  rw [hq, List.map_append, List.sum_append, List.map_cons, List.sum_cons] at h
  dsimp only
  omega

/-- **The counter is exact.** In every reachable state, whatever the owners do in their callbacks,
    `queuedCommandCount()` is the number of commands in `write_queue_` and of replies still
    awaited in `pending_queue_`, and no entry of either stands for nothing. So the subtractions
    of `dispatchReply` and each of those in the loop of `detachOwner` stay above zero. -/
theorem commands_counted (h : (machine U allow blockSize hb).Reachable ch) :
    ch.queuedCommandCount =
      (ch.writeQueue.map (·.commandCount)).sum + (ch.pendingQueue.map (·.remainingReplies)).sum ∧
    (∀ b ∈ ch.writeQueue, 1 ≤ b.commandCount) ∧
    (∀ p ∈ ch.pendingQueue, 1 ≤ p.remainingReplies) ∧
    (∀ p q, ch.pendingQueue = p :: q → 1 ≤ p.remainingReplies ∧ 1 ≤ ch.queuedCommands) ∧
    (∀ o before b after, ch.writeQueue = before ++ b :: after → b.owner = o →
      b.commandCount ≤ (detachWrites o before ch.queuedCommands).2) := by
  have hc : ch.line.Counted := line_invariant Line.init_counted (fun _ _ hI hs => hs.counted hI) h
  have hexact : ch.queuedCommands =
      (ch.writeQueue.map (·.commandCount)).sum + (ch.pendingQueue.map (·.remainingReplies)).sum :=
    hc.exact
  refine ⟨hexact, hc.batches, hc.entries, fun p q hq => ?_, fun o before b after hq _ => ?_⟩
  · have hmem : p ∈ ch.pendingQueue := by
      rw [hq]
      exact List.mem_cons_self
    have hpos : 0 < p.remainingReplies := hc.entries p hmem
    rw [hq, List.map_cons, List.sum_cons] at hexact
    exact ⟨hpos, by omega⟩
  · exact detachWrites_enough (by omega) hq

end Reachable

/-- Owner 7 sends two commands and owner 8 three; the batch of 7 is started, and 7 leaves in the
    callback of its first reply. -/
def leavesInCallback : List Act :=
  [.op (.start {}), .run 0 .none, .run 0 (.connected true),
    .op (.submit 7 (.ofSlices [[1, 2]]) 2), .op (.submit 8 (.ofSlices [[3]]) 3), .run 0 .none,
    .reader 0 .none, .reader 0 (.read (.data [5])), .reader 0 (.parse fun _ => true),
    .op (.detachOwner 7)]

theorem commands_counted_leavesInCallback :
    ∃ ch, (machine (fun _ _ _ => ⟨.kOk, 1, none⟩) (fun _ _ => true) 8 (by decide)).run
        (init 8 (by decide)) leavesInCallback = some ch ∧
      ch.frames.length = 1 ∧ ch.queuedCommandCount = 4 ∧
      ch.queuedCommandCount = (ch.writeQueue.map (·.commandCount)).sum +
        (ch.pendingQueue.map (·.remainingReplies)).sum := by
  refine ⟨_, rfl, rfl, rfl, ?_⟩
  have hr : (machine (fun _ _ _ => ⟨.kOk, 1, none⟩) (fun _ _ => true) 8 (by decide)).run
      (init 8 (by decide)) leavesInCallback = some _ := rfl
  exact (commands_counted (Machine.reachable_of_run hr)).1

end BackendChannel

end RedisProxy
