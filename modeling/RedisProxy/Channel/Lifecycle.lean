/-
  File:      RedisProxy/Channel/Lifecycle.lean
  Subject:   THE LIFE OF A CHANNEL: one `run()` task at a time, one reader at a time, nothing
             carried from one connection to the next.

  `Phase ch pc` says what the place of the `run()` task implies for the rest of the channel;
  `Life` adds that there is at most one such task and that a channel which is not ready has
  nothing queued. `Life.turn` says what a step can be to the life of a channel; the rest is
  read off it: what the step that makes a channel ready finds (`ready_step`), when the socket is
  touched (`fd_step`), and that a stop lasts until the next start (`Halts`).
-/
import RedisProxy.Channel.Model
import RedisProxy.Lib.History

namespace RedisProxy.BackendChannel

open Lib

/-! ## 1. The invariant -/

/-- What the place of the `run()` task says about the rest of the channel. -/
def Phase (ch : BackendChannel) : RunPc → Prop
  | .loopHead | .backoff =>
      ch.readers = [] ∧ ch.state ≠ .kReady ∧ ch.fd = none ∧ ch.redisIn.content = []
  | .connecting => ch.readers = [] ∧ ch.state ≠ .kReady ∧ ch.redisIn.content = []
  | .writerHead | .writerWait | .writing _ =>
      (ch.state = .kReady → ∃ pc, ch.readers = [pc] ∧ pc ≠ .leaving) ∧ ch.readers.length ≤ 1
  | .joinHead | .joinWait => ch.state ≠ .kReady ∧ ch.readers.length ≤ 1
  | .cleanup => ch.readers = [] ∧ ch.state ≠ .kReady

/-- **The life of a channel.** -/
structure Life (ch : BackendChannel) : Prop where
  done : ch.readerDone = true ↔ ch.readers = []
  idle : ch.state ≠ .kReady → ch.writeQueue = [] ∧ ch.pendingQueue = [] ∧ ch.queuedCommands = 0
  task : (ch.runs = [] ∧ ch.readers = [] ∧ ch.state = .kStopped ∧ ch.fd = none ∧
      ch.redisIn.content = []) ∨
    ∃ pc, ch.runs = [pc] ∧ ch.state ≠ .kStopped ∧ ch.Phase pc

theorem init_life (n : Nat) (h : 0 < n) : (init n h).Life where
  done := ⟨fun _ => rfl, fun _ => rfl⟩
  idle _ := ⟨rfl, rfl, rfl⟩
  task := Or.inl ⟨rfl, rfl, rfl, rfl, rfl⟩

/-- The state of a channel and its queues. -/
def queues (ch : BackendChannel) :=
  (ch.state, ch.writeQueue, ch.pendingQueue, ch.queuedCommands)

/-- What the life of a channel is about. -/
def standing (ch : BackendChannel) :=
  (ch.readerDone, ch.readers, ch.runs, ch.fd, ch.redisIn.content, ch.queues)

/-- A step that is no event in the life of the channel. -/
theorem Life.congr {ch ch' : BackendChannel} (h : ch.Life) (hs : ch'.standing = ch.standing) :
    ch'.Life := by
  simp only [standing, queues, Prod.mk.injEq] at hs
  obtain ⟨h1, h2, h7, h8, h9, h3, h4, h5, h6⟩ := hs
  refine ⟨by rw [h1, h2]; exact h.done, by rw [h3, h4, h5, h6]; exact h.idle, ?_⟩
  rw [h2, h3, h7, h8, h9]
  refine h.task.imp id ?_
  rintro ⟨pc, hr, hs, hp⟩
  refine ⟨pc, hr, hs, ?_⟩
  cases pc <;> simp only [Phase, h2, h3, h8, h9] at hp ⊢ <;> exact hp

/-- A channel that is ready has its writer and its reader. -/
theorem Life.of_ready {ch : BackendChannel} (h : ch.Life) (hs : ch.state = .kReady) :
    ∃ pc rpc, ch.runs = [pc] ∧ ch.readers = [rpc] ∧ rpc ≠ .leaving ∧
      (pc = .writerHead ∨ pc = .writerWait ∨ ∃ c, pc = .writing c) := by
  rcases h.task with ⟨_, _, hst, _, _⟩ | ⟨pc, hr, _, hp⟩
  · rw [hs] at hst
    cases hst
  · cases pc with
    | loopHead | backoff => exact absurd hs hp.2.1
    | connecting => exact absurd hs hp.2.1
    | joinHead | joinWait => exact absurd hs hp.1
    | cleanup => exact absurd hs hp.2
    | writerHead =>
      obtain ⟨rpc, hrd, hne⟩ := hp.1 hs
      exact ⟨_, rpc, hr, hrd, hne, Or.inl rfl⟩
    | writerWait =>
      obtain ⟨rpc, hrd, hne⟩ := hp.1 hs
      exact ⟨_, rpc, hr, hrd, hne, Or.inr (Or.inl rfl)⟩
    | writing c =>
      obtain ⟨rpc, hrd, hne⟩ := hp.1 hs
      exact ⟨_, rpc, hr, hrd, hne, Or.inr (Or.inr ⟨c, rfl⟩)⟩

/-! ## 2. The operations keep it -/

/-- `failConnection` empties the queues of a channel that is ready no more. -/
theorem failConnection_life {ch : BackendChannel} (h : ch.Life) (st : Status) :
    (ch.failConnection st).Life := by
  unfold failConnection
  split
  · exact h
  · rename_i hs
    have hs : ch.state = .kReady := Classical.not_not.mp hs
    obtain ⟨pc, rpc, hr, hrd, _, hpc⟩ := h.of_ready hs
    refine ⟨h.done, fun _ => ⟨rfl, rfl, rfl⟩, Or.inr ⟨pc, hr, nofun, ?_⟩⟩
    have hp : (ChannelState.kClosing = .kReady → ∃ pc, ch.readers = [pc] ∧ pc ≠ .leaving) ∧
        ch.readers.length ≤ 1 := by
      refine ⟨nofun, ?_⟩
      rw [hrd]
      exact Nat.le_refl 1
    rcases hpc with rfl | rfl | ⟨c, rfl⟩ <;> exact hp

theorem detachWrites_nil (o : Owner) (n : Nat) : detachWrites o [] n = ([], n) := rfl

/-- Every call of the interface keeps it. -/
theorem apply_life {ch : BackendChannel} (h : ch.Life) (o : Op) : (ch.apply o).Life := by
  cases o with
  | submit owner bytes count =>
    simp only [apply, submit]
    split
    · exact h
    · rename_i hc
      have hs : ch.state = .kReady := by
        simp only [isHealthy, Bool.or_eq_true, not_or] at hc
        simpa using hc.1
      refine ⟨h.done, fun hn => absurd hs hn, ?_⟩
      refine h.task.imp id ?_
      rintro ⟨pc, hr, hst, hp⟩
      refine ⟨pc, hr, hst, ?_⟩
      cases pc <;> exact hp
  | detachOwner owner =>
    refine ⟨h.done, fun hn => ?_, ?_⟩
    · obtain ⟨h1, h2, h3⟩ := h.idle hn
      simp only [apply, detachOwner, h1, h2, h3, detachWrites_nil, List.map_nil]
      exact ⟨trivial, trivial, trivial⟩
    · refine h.task.imp id ?_
      rintro ⟨pc, hr, hst, hp⟩
      refine ⟨pc, hr, hst, ?_⟩
      cases pc <;> exact hp
  | start config =>
    simp only [apply, start]
    split
    · exact h
    · rename_i hc
      have hs : ch.state = .kStopped := by simpa [isStopped] using hc
      rcases h.task with ⟨hr, hrd, _, hfd, hin⟩ | ⟨pc, _, hst, _⟩
      · refine ⟨h.done, fun _ => h.idle (by rw [hs]; decide), Or.inr ⟨.loopHead, ?_, ?_, ?_⟩⟩
        · show ch.runs ++ [.loopHead] = _
          rw [hr]
          rfl
        · nofun
        · exact ⟨hrd, nofun, hfd, hin⟩
      · exact absurd hs hst
  | stop =>
    have h' : Life { ch with
        stopRequested := true, frames := .stopTail :: ch.frames, trace := .stopped :: ch.trace } :=
      h.congr rfl
    exact failConnection_life h' _

/-- So does a reply, in a channel that is ready. -/
theorem dispatchReply_life {ch : BackendChannel} (h : ch.Life) (hs : ch.state = .kReady)
    (reply : BufferChain) : (ch.dispatchReply reply).Life := by
  unfold dispatchReply
  split
  · have h' : Life { ch with trace := .stray ch.conn reply.bytes :: ch.trace } :=
      h.congr rfl
    exact failConnection_life h' _
  · refine ⟨h.done, fun hn => absurd hs hn, ?_⟩
    refine h.task.imp id ?_
    rintro ⟨pc, hr, hst, hp⟩
    refine ⟨pc, hr, hst, ?_⟩
    cases pc <;> exact hp

/-! ## 3. The tasks keep it -/

/-- The task that steps is the only one, and its place says what `Phase` says. -/
theorem Life.run_of_get {ch : BackendChannel} (h : ch.Life) {i : Nat} {pc : RunPc}
    (hi : ch.runs[i]? = some pc) : i = 0 ∧ ch.runs = [pc] ∧ ch.state ≠ .kStopped ∧ ch.Phase pc := by
  rcases h.task with ⟨hr, _⟩ | ⟨pc', hr, hst, hp⟩
  · rw [hr] at hi
    cases hi
  · rw [hr] at hi
    cases i with
    | zero =>
      cases hi
      exact ⟨rfl, hr, hst, hp⟩
    | succ i => cases hi

/-- Likewise the reader that steps; while one exists, `run()` is in `writerLoop` or joins it. -/
theorem Life.reader_of_get {ch : BackendChannel} (h : ch.Life) {i : Nat} {pc : ReaderPc}
    (hi : ch.readers[i]? = some pc) : i = 0 ∧ ch.readers = [pc] ∧
      ∃ rpc, ch.runs = [rpc] ∧ ch.state ≠ .kStopped ∧ ch.Phase rpc ∧
        (rpc = .writerHead ∨ rpc = .writerWait ∨ (∃ c, rpc = .writing c) ∨ rpc = .joinHead ∨
          rpc = .joinWait) := by
  have hlen : ch.readers.length ≤ 1 → i = 0 ∧ ch.readers = [pc] := by
    intro hl
    match hrd : ch.readers, hl with
    | [], _ => rw [hrd] at hi; cases hi
    | [x], _ =>
      rw [hrd] at hi
      cases i with
      | zero => cases hi; exact ⟨rfl, rfl⟩
      | succ i => cases hi
  rcases h.task with ⟨_, hrd, _⟩ | ⟨rpc, hr, hst, hp⟩
  · rw [hrd] at hi
    cases hi
  · cases rpc with
    | loopHead | backoff => rw [hp.1] at hi; cases hi
    | connecting => rw [hp.1] at hi; cases hi
    | cleanup => rw [hp.1] at hi; cases hi
    | writerHead => obtain ⟨h1, h2⟩ := hlen hp.2; exact ⟨h1, h2, _, hr, hst, hp, Or.inl rfl⟩
    | writerWait =>
      obtain ⟨h1, h2⟩ := hlen hp.2
      exact ⟨h1, h2, _, hr, hst, hp, Or.inr (Or.inl rfl)⟩
    | writing c =>
      obtain ⟨h1, h2⟩ := hlen hp.2
      exact ⟨h1, h2, _, hr, hst, hp, Or.inr (Or.inr (Or.inl ⟨c, rfl⟩))⟩
    | joinHead =>
      obtain ⟨h1, h2⟩ := hlen hp.2
      exact ⟨h1, h2, _, hr, hst, hp, Or.inr (Or.inr (Or.inr (Or.inl rfl)))⟩
    | joinWait =>
      obtain ⟨h1, h2⟩ := hlen hp.2
      exact ⟨h1, h2, _, hr, hst, hp, Or.inr (Or.inr (Or.inr (Or.inr rfl)))⟩

theorem moveTask_some {π : Type} {l : List π} {x : π} (h : l = [x]) (y : π) :
    moveTask l 0 (some y) = [y] := by
  rw [h]
  rfl

theorem moveTask_none {π : Type} {l : List π} {x : π} (h : l = [x]) : moveTask l 0 none = [] := by
  rw [h]
  rfl

/-- A step that leaves the channel as it is but for the place of `run()`. -/
theorem Life.move {ch ch' : BackendChannel} (h : ch.Life) (pc : RunPc) (hr : ch'.runs = [pc])
    (h1 : ch'.readerDone = ch.readerDone) (h2 : ch'.readers = ch.readers)
    (hq : ch'.queues = ch.queues) (hst : ch.state ≠ .kStopped) (hp : ch'.Phase pc) : ch'.Life := by
  simp only [queues, Prod.mk.injEq] at hq
  obtain ⟨h3, h4, h5, h6⟩ := hq
  exact ⟨by rw [h1, h2]; exact h.done, by rw [h3, h4, h5, h6]; exact h.idle,
    Or.inr ⟨pc, hr, by rw [h3]; exact hst, hp⟩⟩

theorem isHealthy_iff {ch : BackendChannel} : ch.isHealthy = true ↔ ch.state = .kReady := by
  simp [isHealthy]

theorem not_isHealthy_iff {ch : BackendChannel} : (!ch.isHealthy) = true ↔ ch.state ≠ .kReady := by
  simp [isHealthy]

/-- Whichever way `writer_signal_.wait()` at a loop head goes, it changes the signal only. -/
theorem waitWriter_eq (ch : BackendChannel) (head wait : RunPc) :
    ∃ s pc, ch.waitWriter head wait = ({ ch with writerSignal := s }, some pc) ∧
      (pc = head ∨ pc = wait) := by
  unfold waitWriter
  split
  · exact ⟨_, _, rfl, Or.inl rfl⟩
  · exact ⟨_, _, rfl, Or.inr rfl⟩

section Places

variable {ch : BackendChannel} {io : RunIo} {x : BackendChannel × Option RunPc}

/-- The channel after a step of its only `run()` task. -/
abbrev ran (x : BackendChannel × Option RunPc) : BackendChannel :=
  { x.1 with runs := moveTask x.1.runs 0 x.2 }

/-- The head of the connect loop: the task ends, dials, or cleans up for want of a socket. -/
theorem life_loopHead (h : ch.Life) (hr : ch.runs = [.loopHead]) (hp : ch.Phase .loopHead)
    (hx : ch.runStep .loopHead io = some x) : (ran x).Life := by
  simp only [runStep] at hx
  split at hx
  · cases hx
    exact ⟨h.done, fun _ => h.idle hp.2.1,
      Or.inl ⟨moveTask_none hr, hp.1, rfl, hp.2.2.1, hp.2.2.2⟩⟩
  · split at hx
    · cases hx
      exact ⟨h.done, fun _ => h.idle hp.2.1,
        Or.inr ⟨.connecting, moveTask_some hr _, nofun, hp.1, nofun, hp.2.2.2⟩⟩
    · cases hx
      exact ⟨h.done, fun _ => h.idle hp.2.1,
        Or.inr ⟨.cleanup, moveTask_some hr _, nofun, hp.1, nofun⟩⟩
    · cases hx

/-- A connection that is there gets its reader. -/
theorem life_connecting (h : ch.Life) (hr : ch.runs = [.connecting]) (hst : ch.state ≠ .kStopped)
    (hp : ch.Phase .connecting) (hx : ch.runStep .connecting io = some x) : (ran x).Life := by
  cases io <;> simp only [runStep] at hx <;> try cases hx
  split at hx
  · cases hx
    refine ⟨⟨nofun, fun hc => ?_⟩, fun hc => absurd rfl hc,
      Or.inr ⟨.writerHead, moveTask_some hr _, nofun, fun _ => ⟨.head, ?_, by decide⟩, ?_⟩⟩
    · simp [hp.1] at hc
    · simp [hp.1]
    · simp [hp.1]
  · cases hx
    exact h.move .cleanup (moveTask_some hr _) rfl rfl rfl hst ⟨hp.1, hp.2.1⟩

/-- The head of the writer's loop: it leaves, waits, or takes the first batch. -/
theorem life_writerHead (h : ch.Life) (hr : ch.runs = [.writerHead]) (hst : ch.state ≠ .kStopped)
    (hp : ch.Phase .writerHead) (hx : ch.runStep .writerHead io = some x) : (ran x).Life := by
  cases io <;> simp only [runStep] at hx <;> try cases hx
  split at hx
  · rename_i hh
    cases hx
    exact h.move .joinHead (moveTask_some hr _) rfl rfl rfl hst ⟨not_isHealthy_iff.mp hh, hp.2⟩
  · rename_i hh
    have hready : ch.state = .kReady := by simpa [isHealthy] using hh
    split at hx
    · obtain ⟨s, pc, he, hpc⟩ := waitWriter_eq ch .writerHead .writerWait
      rw [he] at hx
      cases hx
      refine h.move pc (moveTask_some hr _) rfl rfl rfl hst ?_
      rcases hpc with rfl | rfl <;> exact hp
    · rename_i b q hq
      cases hx
      exact ⟨h.done, fun hc => absurd hready hc,
        Or.inr ⟨.writing (.start b.bytes), moveTask_some hr _, hst, hp⟩⟩

/-- A write goes on, or it returns to the head of the loop, with the connection given up if it
    failed. -/
theorem life_writing (h : ch.Life) {c : WriteCursor} (hr : ch.runs = [.writing c])
    (hst : ch.state ≠ .kStopped) (hp : ch.Phase (.writing c))
    (hx : ch.runStep (.writing c) io = some x) : (ran x).Life := by
  cases io <;> simp only [runStep] at hx <;> try cases hx
  obtain ⟨w, _, he⟩ := Option.map_eq_some_iff.mp hx
  cases w with
  | running c' =>
    cases he
    exact h.move (.writing c') (moveTask_some hr _) rfl rfl rfl hst hp
  | returned st =>
    cases he
    have hl : (if st.ok then ch else ch.failConnection st).Life := by
      split
      · exact h
      · exact failConnection_life h st
    have hruns : (if st.ok then ch else ch.failConnection st).runs = [.writing c] := by
      unfold failConnection
      repeat' split
      all_goals exact hr
    rcases hl.task with ⟨hr', _⟩ | ⟨pc, hr', hst', hp'⟩
    · rw [hruns] at hr'
      cases hr'
    · rw [hruns] at hr'
      cases hr'
      exact hl.move .writerHead (moveTask_some hruns _) rfl rfl rfl hst' hp'

/-- The join of the reader: over when the reader is done, else waiting. -/
theorem life_joinHead (h : ch.Life) (hr : ch.runs = [.joinHead]) (hst : ch.state ≠ .kStopped)
    (hp : ch.Phase .joinHead) (hx : ch.runStep .joinHead io = some x) : (ran x).Life := by
  cases io <;> simp only [runStep] at hx <;> try cases hx
  split at hx
  · rename_i hd
    cases hx
    exact h.move .cleanup (moveTask_some hr _) rfl rfl rfl hst ⟨h.done.mp hd, hp.1⟩
  · obtain ⟨s, pc, he, hpc⟩ := waitWriter_eq ch .joinHead .joinWait
    rw [he] at hx
    cases hx
    refine h.move pc (moveTask_some hr _) rfl rfl rfl hst ?_
    rcases hpc with rfl | rfl <;> exact hp

end Places

/-- **A step of `run()` keeps it**, from each place. -/
theorem runTask_life {ch ch' : BackendChannel} (h : ch.Life) {i : Nat} {io : RunIo}
    (hs : ch.runTask i io = some ch') : ch'.Life := by
  unfold runTask at hs
  split at hs
  on_goal 2 => cases hs
  rename_i pc hfr hi
  obtain ⟨x, hx, rfl⟩ := Option.map_eq_some_iff.mp hs
  obtain ⟨rfl, hr, hst, hp⟩ := h.run_of_get hi
  cases pc with
  | loopHead => exact life_loopHead h hr hp hx
  | connecting => exact life_connecting h hr hst hp hx
  | writerHead => exact life_writerHead h hr hst hp hx
  | writing c => exact life_writing h hr hst hp hx
  | joinHead => exact life_joinHead h hr hst hp hx
  | writerWait =>
    cases io <;> simp only [runStep] at hx <;> try cases hx
    obtain ⟨s, _, rfl⟩ := Option.map_eq_some_iff.mp hx
    exact h.move .writerHead (moveTask_some hr _) rfl rfl rfl hst hp
  | joinWait =>
    cases io <;> simp only [runStep] at hx <;> try cases hx
    obtain ⟨s, _, rfl⟩ := Option.map_eq_some_iff.mp hx
    exact h.move .joinHead (moveTask_some hr _) rfl rfl rfl hst hp
  | cleanup =>
    cases io <;> simp only [runStep] at hx <;> try cases hx
    refine ⟨h.done, h.idle, Or.inr ⟨if ch.stopRequested then .loopHead else .backoff,
      moveTask_some hr _, hst, ?_⟩⟩
    split <;> exact ⟨hp.1, hp.2, rfl, rfl⟩
  | backoff =>
    cases io <;> simp only [runStep] at hx <;> try cases hx
    exact h.move .loopHead (moveTask_some hr _) rfl rfl rfl hst hp

/-- The reader moves while its channel keeps everything `Life` reads but the content. -/
theorem Life.moveReader {ch ch' : BackendChannel} (h : ch.Life) {pc : ReaderPc} (pc' : ReaderPc)
    (hrd : ch.readers = [pc]) (hpc : pc' = .leaving → ch.state ≠ .kReady)
    (h1 : ch'.readerDone = ch.readerDone) (h2 : ch'.readers = [pc']) (hq : ch'.queues = ch.queues)
    (h7 : ch'.runs = ch.runs) : ch'.Life := by
  simp only [queues, Prod.mk.injEq] at hq
  obtain ⟨h3, h4, h5, h6⟩ := hq
  have hget : ch.readers[0]? = some pc := by
    rw [hrd]
    rfl
  obtain ⟨_, _, rpc, hr, hst, hp, hcase⟩ := h.reader_of_get hget
  refine ⟨?_, by rw [h3, h4, h5, h6]; exact h.idle, Or.inr ⟨rpc, by rw [h7]; exact hr, ?_, ?_⟩⟩
  · rw [h1, h.done, hrd, h2]
    simp
  · rw [h3]
    exact hst
  · have hw : (ch'.state = .kReady → ∃ pc, ch'.readers = [pc] ∧ pc ≠ .leaving) ∧
        ch'.readers.length ≤ 1 := by
      rw [h2, h3]
      exact ⟨fun hs => ⟨pc', rfl, fun e => hpc e hs⟩, Nat.le_refl 1⟩
    rcases hcase with rfl | rfl | ⟨c, rfl⟩ | rfl | rfl
    · exact hw
    · exact hw
    · exact hw
    · exact ⟨by rw [h3]; exact hp.1, hw.2⟩
    · exact ⟨by rw [h3]; exact hp.1, hw.2⟩

/-- `failConnection` touches no task, and the channel is not ready after it. -/
theorem failConnection_fields (ch : BackendChannel) (st : Status) :
    (ch.failConnection st).readers = ch.readers ∧ (ch.failConnection st).runs = ch.runs ∧
      (ch.failConnection st).state ≠ .kReady := by
  unfold failConnection
  split
  · rename_i hs
    exact ⟨rfl, rfl, hs⟩
  · exact ⟨rfl, rfl, nofun⟩

theorem dispatchReply_readers (ch : BackendChannel) (reply : BufferChain) :
    (ch.dispatchReply reply).readers = ch.readers := by
  unfold dispatchReply
  split
  · exact (failConnection_fields _ _).1
  · rfl

/-- The content of the input buffer matters only while no reader exists. -/
theorem Life.reread {ch : BackendChannel} (h : ch.Life) {pc : ReaderPc} (hrd : ch.readers = [pc])
    (b : Buffer) (p : RespParser) (t : List Event) :
    Life { ch with redisIn := b, replyParser := p, trace := t } := by
  have hget : ch.readers[0]? = some pc := by
    rw [hrd]
    rfl
  obtain ⟨_, _, rpc, hr, hst, hp, hcase⟩ := h.reader_of_get hget
  refine ⟨h.done, h.idle, Or.inr ⟨rpc, hr, hst, ?_⟩⟩
  rcases hcase with rfl | rfl | ⟨c, rfl⟩ | rfl | rfl <;> exact hp

/-- **A step of `readerLoop()` keeps it**, from each place. -/
theorem readerTask_life {U : UnpackOne} {ch ch' : BackendChannel} (h : ch.Life) {i : Nat}
    {io : ReaderIo} (hs : ch.readerTask U i io = some ch') : ch'.Life := by
  unfold readerTask at hs
  split at hs
  on_goal 2 => cases hs
  rename_i pc hfr hi
  obtain ⟨x, hx, rfl⟩ := Option.map_eq_some_iff.mp hs
  obtain ⟨rfl, hrd, rpc, hr, hst, hp, hcase⟩ := h.reader_of_get hi
  cases pc with
  | head =>
    cases io <;> simp only [readerStep] at hx <;> try cases hx
    refine h.moveReader (if ch.isHealthy then .reading else .leaving) hrd (fun hl => ?_)
      rfl (moveTask_some hrd _) rfl rfl
    intro hready
    rw [isHealthy_iff.mpr hready] at hl
    cases hl
  | reading =>
    cases io with
    | none | parse _ => cases hx
    | read o =>
      obtain ⟨⟨st, b⟩, _, rfl⟩ := Option.map_eq_some_iff.mp hx
      cases st with
      | none =>
        exact (h.reread hrd b ch.replyParser ch.trace).moveReader .reading hrd nofun rfl
          (moveTask_some hrd _) rfl rfl
      | some st =>
        have h' := h.reread hrd b ch.replyParser (.received ch.conn o.bytes :: ch.trace)
        dsimp only
        split
        · rename_i hh
          exact h'.moveReader .leaving hrd (fun _ => not_isHealthy_iff.mp hh) rfl
            (moveTask_some hrd _) rfl rfl
        · split
          · have hf := failConnection_life h' st
            obtain ⟨f1, f2, f3⟩ := failConnection_fields
              { ch with redisIn := b, trace := .received ch.conn o.bytes :: ch.trace } st
            exact hf.moveReader .leaving (f1.trans hrd) (fun _ => f3) rfl
              (moveTask_some (f1.trans hrd) _) rfl rfl
          · exact h'.moveReader .parsing hrd nofun rfl (moveTask_some hrd _) rfl rfl
  | parsing =>
    cases io with
    | none | read _ => cases hx
    | parse alloc =>
      simp only [readerStep] at hx
      split at hx
      · cases hx
        exact h.moveReader .head hrd nofun rfl (moveTask_some hrd _) rfl rfl
      · rename_i hh
        have hready : ch.state = .kReady := by simpa [isHealthy] using hh
        obtain ⟨⟨ps, chain, parser, b⟩, _, rfl⟩ := Option.map_eq_some_iff.mp hx
        have h' := h.reread hrd b parser ch.trace
        dsimp only
        split
        · exact h'.moveReader .head hrd nofun rfl (moveTask_some hrd _) rfl rfl
        · rename_i reply _
          have hd := dispatchReply_life h' hready reply
          have hrd' := (dispatchReply_readers
            { ch with redisIn := b, replyParser := parser } reply).trans hrd
          exact hd.moveReader .parsing hrd' nofun rfl (moveTask_some hrd' _) rfl rfl
        · have hf := failConnection_life h' (.protocolError "bad redis reply")
          obtain ⟨f1, f2, f3⟩ := failConnection_fields
            { ch with redisIn := b, replyParser := parser } (.protocolError "bad redis reply")
          exact hf.moveReader .head (f1.trans hrd) nofun rfl
            (moveTask_some (f1.trans hrd) _) rfl rfl
  | leaving =>
    cases io <;> simp only [readerStep] at hx <;> try cases hx
    have hnil : moveTask ch.readers 0 none = [] := moveTask_none hrd
    have hnr : ch.state ≠ .kReady := by
      intro hready
      obtain ⟨_, rpc', _, hrd', hne, _⟩ := h.of_ready hready
      rw [hrd] at hrd'
      cases hrd'
      exact hne rfl
    refine ⟨⟨fun _ => hnil, fun _ => rfl⟩, h.idle, Or.inr ⟨rpc, hr, hst, ?_⟩⟩
    have hw : (ch.state = .kReady → ∃ pc, moveTask ch.readers 0 none = [pc] ∧ pc ≠ .leaving) ∧
        (moveTask ch.readers 0 none).length ≤ 1 := by
      rw [hnil]
      exact ⟨fun hs => absurd hs hnr, Nat.zero_le 1⟩
    rcases hcase with rfl | rfl | ⟨c, rfl⟩ | rfl | rfl
    · exact hw
    · exact hw
    · exact hw
    · exact ⟨hp.1, hw.2⟩
    · exact ⟨hp.1, hw.2⟩

theorem ret_life {ch ch' : BackendChannel} (h : ch.Life) (hs : ch.ret = some ch') : ch'.Life := by
  unfold ret at hs
  split at hs <;> cases hs <;> exact h.congr rfl

theorem next_life {ch ch' : BackendChannel} (h : ch.Life) {o : Owner} (hs : ch.next o = some ch') :
    ch'.Life := by
  unfold next at hs
  split at hs
  · split at hs
    · cases hs
      exact h.congr rfl
    · cases hs
  · cases hs

/-- **Every step of the machine keeps it.** -/
theorem step_life {U : UnpackOne} {allow : Owner → Op → Bool} {ch ch' : BackendChannel} {a : Act}
    (h : ch.Life) (hs : ch.step U allow a = some ch') : ch'.Life := by
  cases a with
  | op o =>
    simp only [step] at hs
    split at hs
    · cases hs
      exact apply_life h o
    · cases hs
  | ret => exact ret_life h hs
  | next o => exact next_life h hs
  | run i io => exact runTask_life h hs
  | reader i io => exact readerTask_life h hs

/-! ## 4. What a step does to the socket and to readiness -/

/-- `stop()` was called and no effective `start()` since. -/
def stopPending : List Event → Bool
  | [] => false
  | .stopped :: _ => true
  | .started :: _ => false
  | _ :: t => stopPending t

/-- Whether an event is an effective `start()`, a `stop()` or a connection becoming ready. -/
def isTurn : Event → Bool
  | .started | .stopped | .connected _ => true
  | _ => false

/-- Every connection became ready while no `stop()` was pending. -/
def ReadyUnstopped : List Event → Prop :=
  Always fun e past => ∀ n, e = .connected n → stopPending past = false

/-- Events that are neither `start()` nor `stop()` leave a pending stop pending. -/
theorem stopPending_append {new : List Event} (hn : ∀ e ∈ new, isTurn e = false)
    (t : List Event) : stopPending (new ++ t) = stopPending t := by
  induction new with
  | nil => rfl
  | cons e new ih =>
    have he : isTurn e = false := hn e List.mem_cons_self
    have ih := ih fun x hx => hn x (List.mem_cons_of_mem _ hx)
    cases e <;> first | exact ih | cases he

theorem readyUnstopped_append {new t : List Event} (hn : ∀ e ∈ new, isTurn e = false)
    (h : ReadyUnstopped t) : ReadyUnstopped (new ++ t) := by
  induction new with
  | nil => exact h
  | cons e new ih =>
    refine ⟨?_, ih fun x hx => hn x (List.mem_cons_of_mem _ hx)⟩
    rintro n rfl
    cases hn _ List.mem_cons_self

/-- The history grew by events that are no turn in the channel's life. -/
def Grows (t t' : List Event) : Prop := ∃ new, t' = new ++ t ∧ ∀ e ∈ new, isTurn e = false

theorem Grows.refl (t : List Event) : Grows t t := ⟨[], rfl, nofun⟩

theorem Grows.cons {t : List Event} {e : Event} (h : isTurn e = false) : Grows t (e :: t) :=
  ⟨[e], rfl, by simpa using h⟩

theorem Grows.trans {t t' t'' : List Event} (h : Grows t t') (h' : Grows t' t'') :
    Grows t t'' := by
  obtain ⟨new, rfl, hn⟩ := h
  obtain ⟨new', rfl, hn'⟩ := h'
  refine ⟨new' ++ new, (List.append_assoc ..).symm, fun e he => ?_⟩
  rcases List.mem_append.mp he with he | he
  · exact hn' e he
  · exact hn e he

/-- A step that leaves the socket and the stop request alone and makes nothing ready. -/
structure Keeps (ch ch' : BackendChannel) : Prop where
  fd : ch'.fd = ch.fd
  conn : ch'.conn = ch.conn
  stop : ch'.stopRequested = ch.stopRequested
  ready : ch'.state = .kReady → ch.state = .kReady
  history : Grows ch.trace ch'.trace

theorem Keeps.trans {a b c : BackendChannel} (h : a.Keeps b) (h' : b.Keeps c) : a.Keeps c :=
  ⟨h'.fd.trans h.fd, h'.conn.trans h.conn, h'.stop.trans h.stop, fun hc => h.ready (h'.ready hc),
    h.history.trans h'.history⟩

/-- A failure changes neither the socket nor the connection. -/
theorem keeps_failConnection (ch : BackendChannel) (st : Status) :
    ch.Keeps (ch.failConnection st) := by
  unfold failConnection
  split
  · exact ⟨rfl, rfl, rfl, id, .refl _⟩
  · exact ⟨rfl, rfl, rfl, nofun, .cons rfl⟩

theorem keeps_dispatchReply (ch : BackendChannel) (reply : BufferChain) :
    ch.Keeps (ch.dispatchReply reply) := by
  unfold dispatchReply
  split
  · refine .trans ?_ (keeps_failConnection _ _)
    exact ⟨rfl, rfl, rfl, id, .cons rfl⟩
  · exact ⟨rfl, rfl, rfl, id, .cons rfl⟩

/-- The reader changes neither of them. -/
theorem keeps_readerStep {U : UnpackOne} {ch : BackendChannel} {pc : ReaderPc} {io : ReaderIo}
    {x : BackendChannel × Option ReaderPc} (h : ch.readerStep U pc io = some x) :
    ch.Keeps x.1 := by
  cases pc with
  | head | leaving =>
    cases io <;> simp only [readerStep] at h <;> cases h
    exact ⟨rfl, rfl, rfl, id, .refl _⟩
  | reading =>
    cases io with
    | none | parse _ => cases h
    | read o =>
      obtain ⟨⟨st, b⟩, _, rfl⟩ := Option.map_eq_some_iff.mp h
      cases st with
      | none => exact ⟨rfl, rfl, rfl, id, .refl _⟩
      | some st =>
        dsimp only
        repeat' split
        · exact ⟨rfl, rfl, rfl, id, .cons rfl⟩
        · refine .trans ?_ (keeps_failConnection _ _)
          exact ⟨rfl, rfl, rfl, id, .cons rfl⟩
        · exact ⟨rfl, rfl, rfl, id, .cons rfl⟩
  | parsing =>
    cases io with
    | none | read _ => cases h
    | parse alloc =>
      simp only [readerStep] at h
      split at h
      · cases h
        exact ⟨rfl, rfl, rfl, id, .refl _⟩
      · obtain ⟨⟨ps, chain, parser, b⟩, _, rfl⟩ := Option.map_eq_some_iff.mp h
        have hp : ch.Keeps { ch with replyParser := parser, redisIn := b } :=
          ⟨rfl, rfl, rfl, id, .refl _⟩
        dsimp only
        split
        · exact hp
        · exact hp.trans (keeps_dispatchReply _ _)
        · exact hp.trans (keeps_failConnection _ _)

/-- What a step of a channel is to its life. -/
inductive Turn (ch ch' : BackendChannel) : Prop where
  | keeps (h : ch.Keeps ch')
  | start (hs : ch.state = .kStopped) (fd : ch'.fd = ch.fd) (conn : ch'.conn = ch.conn)
      (stop : ch'.stopRequested = false) (state : ch'.state = .kConnecting)
      (trace : ch'.trace = .started :: ch.trace)
  | stop (fd : ch'.fd = ch.fd) (conn : ch'.conn = ch.conn) (stop : ch'.stopRequested = true)
      (state : ch'.state ≠ .kReady) (history : Grows (.stopped :: ch.trace) ch'.trace)
  | socket (runs : ch.runs = [.loopHead]) (readers : ch.readers = [])
      (stop : ch'.stopRequested = ch.stopRequested) (state : ch'.state = .kConnecting)
      (trace : ch'.trace = ch.trace)
  | ready (runs : ch.runs = [.connecting]) (readers : ch.readers = [])
      (input : ch.redisIn.content = []) (go : ch.stopRequested = false)
      (result : ch' = { ch with
        state := .kReady
        readerDone := false
        readers := [.head]
        runs := [.writerHead]
        trace := .connected ch.conn :: ch.trace })
  | close (runs : ch.runs = [.cleanup]) (readers : ch.readers = [])
      (stop : ch'.stopRequested = ch.stopRequested) (state : ch.state ≠ .kReady)
      (state' : ch'.state = ch.state) (trace : ch'.trace = ch.trace)

/-- The calls that turn a channel are `start()` and `stop()`. -/
theorem turn_apply (ch : BackendChannel) (o : Op) : ch.Turn (ch.apply o) := by
  cases o with
  | submit owner bytes count =>
    refine .keeps ?_
    simp only [apply, submit]
    split
    · exact ⟨rfl, rfl, rfl, id, .refl _⟩
    · exact ⟨rfl, rfl, rfl, id, .cons rfl⟩
  | detachOwner owner => exact .keeps ⟨rfl, rfl, rfl, id, .cons rfl⟩
  | start config =>
    simp only [apply, start]
    split
    · exact .keeps ⟨rfl, rfl, rfl, id, .refl _⟩
    · rename_i hs
      exact .start (by simpa [isStopped] using hs) rfl rfl rfl rfl rfl
  | stop =>
    have hk := keeps_failConnection { ch with
      stopRequested := true, frames := .stopTail :: ch.frames, trace := .stopped :: ch.trace }
      (.closed "backend stopped")
    exact .stop hk.fd hk.conn hk.stop (failConnection_fields _ _).2.2 hk.history

/-- `run()` turns it when it dials, when it connects and when it ends. -/
theorem Life.turn_runTask {ch ch' : BackendChannel} (h : ch.Life) {i : Nat} {io : RunIo}
    (hs : ch.runTask i io = some ch') : ch.Turn ch' := by
  unfold runTask at hs
  split at hs
  on_goal 2 => cases hs
  rename_i pc hfr hi
  obtain ⟨x, hx, rfl⟩ := Option.map_eq_some_iff.mp hs
  obtain ⟨rfl, hr, hst, hp⟩ := h.run_of_get hi
  -- only the three places that touch the socket or the state differ from `Keeps`
  have hsame : ∀ s pc', x = ({ ch with writerSignal := s }, pc') →
      ch.Turn { x.1 with runs := moveTask x.1.runs 0 x.2 } := by
    rintro s pc' rfl
    exact .keeps ⟨rfl, rfl, rfl, id, .refl _⟩
  cases pc with
  | loopHead =>
    simp only [runStep] at hx
    split at hx
    · cases hx
      exact .keeps ⟨rfl, rfl, rfl, nofun, .refl _⟩
    · split at hx
      · cases hx
        exact .socket hr hp.1 rfl rfl rfl
      · cases hx
        exact .keeps ⟨rfl, rfl, rfl, nofun, .refl _⟩
      · cases hx
  | connecting =>
    cases io <;> simp only [runStep] at hx <;> try cases hx
    split at hx
    · rename_i hgo
      cases hx
      have hgo : ch.stopRequested = false := by simpa using (Bool.and_eq_true_iff.mp hgo).2
      refine .ready hr hp.1 hp.2.2 hgo ?_
      simp only [hr, hp.1, moveTask, List.nil_append, List.set_cons_zero]
    · cases hx
      exact hsame ch.writerSignal _ rfl
  | writerHead =>
    cases io <;> simp only [runStep] at hx <;> try cases hx
    split at hx
    · cases hx
      exact hsame ch.writerSignal _ rfl
    · split at hx
      · obtain ⟨s, pc, he, _⟩ := waitWriter_eq ch .writerHead .writerWait
        exact hsame s _ ((Option.some.inj hx).symm.trans he)
      · cases hx
        exact .keeps ⟨rfl, rfl, rfl, id, .cons rfl⟩
  | writerWait | joinWait =>
    cases io <;> simp only [runStep] at hx <;> try cases hx
    obtain ⟨s, _, rfl⟩ := Option.map_eq_some_iff.mp hx
    exact hsame s _ rfl
  | writing c =>
    cases io <;> simp only [runStep] at hx <;> try cases hx
    obtain ⟨w, _, rfl⟩ := Option.map_eq_some_iff.mp hx
    cases w with
    | running c' => exact .keeps ⟨rfl, rfl, rfl, id, .cons rfl⟩
    | returned st =>
      have hk : ch.Keeps (if st.ok then ch else ch.failConnection st) := by
        split
        · exact ⟨rfl, rfl, rfl, id, .refl _⟩
        · exact keeps_failConnection ch st
      exact .keeps ⟨hk.fd, hk.conn, hk.stop, hk.ready, hk.history⟩
  | joinHead =>
    cases io <;> simp only [runStep] at hx <;> try cases hx
    split at hx
    · cases hx
      exact hsame ch.writerSignal _ rfl
    · obtain ⟨s, pc, he, _⟩ := waitWriter_eq ch .joinHead .joinWait
      exact hsame s _ ((Option.some.inj hx).symm.trans he)
  | cleanup =>
    cases io <;> simp only [runStep] at hx <;> try cases hx
    exact .close hr hp.1 rfl hp.2 rfl rfl
  | backoff =>
    cases io <;> simp only [runStep] at hx <;> try cases hx
    exact hsame ch.writerSignal _ rfl

/-- **Every step of a channel is one of these turns.** -/
theorem Life.turn {U : UnpackOne} {allow : Owner → Op → Bool} {ch ch' : BackendChannel} {a : Act}
    (h : ch.Life) (hs : ch.step U allow a = some ch') : ch.Turn ch' := by
  cases a with
  | op o =>
    simp only [step] at hs
    split at hs
    · cases hs
      exact turn_apply ch o
    · cases hs
  | ret =>
    simp only [step, ret] at hs
    split at hs <;> cases hs <;> exact .keeps ⟨rfl, rfl, rfl, id, .refl _⟩
  | next o =>
    simp only [step, next] at hs
    split at hs
    · split at hs
      · cases hs
        exact .keeps ⟨rfl, rfl, rfl, id, .cons rfl⟩
      · cases hs
    · cases hs
  | run i io => exact h.turn_runTask hs
  | reader i io =>
    simp only [step, readerTask] at hs
    split at hs
    · obtain ⟨x, hx, rfl⟩ := Option.map_eq_some_iff.mp hs
      have hk := keeps_readerStep hx
      exact .keeps ⟨hk.fd, hk.conn, hk.stop, hk.ready, hk.history⟩
    · cases hs

/-- The flag of `stop()` and the history say the same. -/
structure Halts (ch : BackendChannel) : Prop where
  flag : ch.stopRequested = stopPending ch.trace
  unready : stopPending ch.trace = true → ch.state ≠ .kReady
  history : ReadyUnstopped ch.trace

theorem init_halts (n : Nat) (h : 0 < n) : (init n h).Halts where
  flag := rfl
  unready := nofun
  history := trivial

/-- **A step keeps it**: after a `stop()` nothing makes the channel ready before a `start()`. -/
theorem Turn.halts {ch ch' : BackendChannel} (h : ch.Turn ch') (hh : ch.Halts) : ch'.Halts := by
  cases h with
  | keeps h =>
    obtain ⟨new, hnew, hn⟩ := h.history
    have hp : stopPending ch'.trace = stopPending ch.trace := by
      rw [hnew]
      exact stopPending_append hn _
    refine ⟨by rw [h.stop, hh.flag, hp], fun hs hr => ?_, ?_⟩
    · exact hh.unready (hp ▸ hs) (h.ready hr)
    · rw [hnew]
      exact readyUnstopped_append hn hh.history
  | start hs fd conn stop state trace =>
    refine ⟨by rw [stop, trace]; rfl, fun _ => by rw [state]; nofun, ?_⟩
    rw [trace]
    exact ⟨nofun, hh.history⟩
  | stop fd conn stop state history =>
    obtain ⟨new, hnew, hn⟩ := history
    have hp : stopPending ch'.trace = true := by
      rw [hnew]
      exact stopPending_append hn _
    refine ⟨by rw [stop, hp], fun _ => state, ?_⟩
    rw [hnew]
    exact readyUnstopped_append hn ⟨nofun, hh.history⟩
  | socket runs readers stop state trace =>
    refine ⟨by rw [stop, trace, hh.flag], fun _ => by rw [state]; nofun, ?_⟩
    rw [trace]
    exact hh.history
  | ready runs readers input go result =>
    subst result
    have hp : stopPending ch.trace = false := by rw [← hh.flag, go]
    refine ⟨hh.flag, fun hs => ?_, ?_⟩
    · rw [show stopPending (.connected ch.conn :: ch.trace) = stopPending ch.trace from rfl, hp] at hs
      cases hs
    · exact ⟨fun _ _ => hp, hh.history⟩
  | close runs readers stop state state' trace =>
    refine ⟨by rw [stop, trace, hh.flag], fun _ => by rw [state']; exact state, ?_⟩
    rw [trace]
    exact hh.history

/-! ## 5. The life of every reachable channel -/

section Reachable

variable {U : UnpackOne} {allow : Owner → Op → Bool} {blockSize : Nat} {hb : 0 < blockSize}

/-- **The life of every reachable channel.** -/
theorem life_reachable {ch : BackendChannel} (h : (machine U allow blockSize hb).Reachable ch) :
    ch.Life :=
  h.invariant (I := Life) (init_life blockSize hb) fun _ _ _ _ hI hs => step_life hI hs

theorem halts_reachable {ch : BackendChannel} (h : (machine U allow blockSize hb).Reachable ch) :
    ch.Halts :=
  h.invariant (I := Halts) (init_halts blockSize hb) fun _ _ _ hr hI hs =>
    ((life_reachable hr).turn hs).halts hI

/-- **A channel becomes ready only from a clean start**: nothing unparsed, no stop requested,
    and of the tasks only the `run()` that has just connected. -/
theorem ready_step {ch ch' : BackendChannel} {a : Act} (h : ch.Life)
    (hs : ch.step U allow a = some ch') (hr : ch.state ≠ .kReady) (hr' : ch'.state = .kReady) :
    ch.redisIn.content = [] ∧ ch'.redisIn.content = [] ∧ ch'.stopRequested = false ∧
      ch.readers = [] ∧ ch.runs = [.connecting] ∧ ch'.trace = .connected ch'.conn :: ch.trace := by
  cases h.turn hs with
  | keeps h => exact absurd (h.ready hr') hr
  | start hs fd conn stop state trace => rw [state] at hr'; cases hr'
  | stop fd conn stop state history => exact absurd hr' state
  | socket runs readers stop state trace => rw [state] at hr'; cases hr'
  | ready runs readers input go result =>
    subst result
    exact ⟨input, input, go, readers, runs, rfl⟩
  | close runs readers stop state state' trace => exact absurd (state' ▸ hr') state

/-- **The socket is closed or replaced only while nobody uses it.** -/
theorem fd_step {ch ch' : BackendChannel} {a : Act} (h : ch.Life)
    (hs : ch.step U allow a = some ch') (hfd : ch'.fd ≠ ch.fd ∨ ch'.conn ≠ ch.conn) :
    .reading ∉ ch.readers ∧ ∀ c, .writing c ∉ ch.runs := by
  have hidle : ∀ pc : RunPc, (∀ c, pc ≠ .writing c) → ch.readers = [] → ch.runs = [pc] →
      .reading ∉ ch.readers ∧ ∀ c, .writing c ∉ ch.runs := by
    intro pc hpc hrd hr
    rw [hrd, hr]
    exact ⟨List.not_mem_nil, fun c hc => hpc c (List.mem_singleton.mp hc).symm⟩
  cases h.turn hs with
  | keeps h => exact absurd hfd (by simp [h.fd, h.conn])
  | start hs fd conn stop state trace => exact absurd hfd (by simp [fd, conn])
  | stop fd conn stop state history => exact absurd hfd (by simp [fd, conn])
  | socket runs readers stop state trace => exact hidle .loopHead nofun readers runs
  | ready runs readers input go result => exact hidle .connecting nofun readers runs
  | close runs readers stop state state' trace => exact hidle .cleanup nofun readers runs

/-- **The life of a channel**, for every run of it and its owners: nothing is queued unless it
    is ready; there is one `run()` at most; it becomes ready only from a clean start; its socket
    is closed or replaced only while nobody uses it; after `stop()` it is not ready and does not
    become so before a `start()` that has an effect, and only a stopped channel has one. -/
theorem channel_life {ch : BackendChannel} (h : (machine U allow blockSize hb).Reachable ch) :
    (ch.state ≠ .kReady → ch.writeQueue = [] ∧ ch.pendingQueue = [] ∧ ch.queuedCommands = 0) ∧
    ch.runs.length ≤ 1 ∧
    (∀ a ch', ch.step U allow a = some ch' → ch.state ≠ .kReady → ch'.state = .kReady →
      ch.redisIn.content = [] ∧ ch'.redisIn.content = [] ∧ ch'.stopRequested = false ∧
        ch.readers = [] ∧ ch.runs = [.connecting] ∧
        ch'.trace = .connected ch'.conn :: ch.trace) ∧
    (∀ a ch', ch.step U allow a = some ch' → ch'.fd ≠ ch.fd ∨ ch'.conn ≠ ch.conn →
      .reading ∉ ch.readers ∧ ∀ c, .writing c ∉ ch.runs) ∧
    (stopPending ch.trace = true → ch.state ≠ .kReady) ∧ ReadyUnstopped ch.trace ∧
    (∀ config, ch.isStopped = false → ch.start config = ch) ∧
    (∀ config, ch.isStopped = true → (ch.start config).trace = .started :: ch.trace) := by
  have hl := life_reachable h
  have hh := halts_reachable h
  refine ⟨hl.idle, ?_, fun a ch' hs => ready_step hl hs, fun a ch' hs => fd_step hl hs,
    hh.unready, hh.history, fun config hs => ?_, fun config hs => ?_⟩
  · rcases hl.task with ⟨hr, _⟩ | ⟨pc, hr, _⟩ <;> rw [hr]
    · exact Nat.zero_le 1
    · exact Nat.le_refl 1
  · simp [start, hs]
  · simp [start, hs]

end Reachable

/-- Connect, take a batch, stop while it is being written. -/
def stopWhileWriting : List Act :=
  [.op (.start {}), .run 0 .none, .run 0 (.connected true),
    .op (.submit 7 (.ofSlices [[1, 2]]) 1), .run 0 .none, .op .stop]

theorem channel_life_stopWhileWriting :
    ∃ ch, (machine (fun _ _ _ => ⟨.kNeedMore, 0, none⟩) (fun _ _ => true) 1 (by decide)).run
        (init 1 (by decide)) stopWhileWriting = some ch ∧
      ch.frames.length = 2 ∧ ch.runs.length = 1 ∧ ch.state ≠ .kReady ∧ ch.pendingQueue = [] := by
  refine ⟨_, rfl, rfl, rfl, ?_⟩
  have hr : (machine (fun _ _ _ => ⟨.kNeedMore, 0, none⟩) (fun _ _ => true) 1 (by decide)).run
      (init 1 (by decide)) stopWhileWriting = some _ := rfl
  have hl := channel_life (Machine.reachable_of_run hr)
  have hn := hl.2.2.2.2.1 rfl
  exact ⟨hn, (hl.1 hn).2.1⟩

end RedisProxy.BackendChannel
