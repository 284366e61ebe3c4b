/-
  File:      RedisProxy/Worker/Quiet.lean
  Subject:   NO DEADLOCK INSIDE A WORKER: a worker that can do nothing by itself waits for its
             clients and for Redis, and for nothing else.

  `isInternal` marks the steps for which nobody outside has to do anything: the calls in progress,
  the steps between two system calls, and the timers. A worker is quiet when none of them is
  enabled.

  * `quiet_iff` -- a worker is quiet when each channel and each session stands at a system call or
    in a `wait()` without a wake on its way (`settled`);
  * `waits_outside` -- in a reachable worker that is quiet, what such a place means: a session
    waits for its client, or for the replies to commands that are on a ready connection whose reader
    is reading from Redis and whose writer has written all there was, or is writing.
-/
import RedisProxy.Worker.Ending
import RedisProxy.Worker.Wakeup
import RedisProxy.Channel.Shutdown

namespace RedisProxy

open Lib

/-! ## 1. Places where the outside has the next word -/

/-- `run()` stands at a system call, or in a `wait()` without a wake on its way. -/
def RunPc.settled (sig : CoroutineSignal) : RunPc → Bool
  | .connecting => true
  | .writing c => !c.offer.isEmpty
  | .writerWait | .joinWait => sig.woken == 0
  | _ => false

namespace BackendChannel

def settled (ch : BackendChannel) : Bool :=
  ch.frames.isEmpty && ch.runs.all (RunPc.settled ch.writerSignal) &&
    ch.readers.all (· == .reading)

/-- A step of `run()` that needs nothing from outside. -/
def RunIo.isInternal : RunIo → Bool
  | .none | .write Option.none => true
  | _ => false

/-- Likewise a step of the reader. -/
def ReaderIo.isInternal : ReaderIo → Bool
  | .read _ => false
  | _ => true

end BackendChannel

namespace ClientSession

variable {n : Nat}

def readerSettled (s : ClientSession n) : Bool :=
  match s.reader with
  | .reading | .done => true
  | .blocked _ => s.replySignal.woken == 0
  | _ => false

def writerSettled (s : ClientSession n) : Bool :=
  match s.writer with
  | .writing c => !c.offer.isEmpty
  | .blocked => s.outputSignal.woken == 0
  | .done => true
  | _ => false

def SessionReaderIo.isInternal : SessionReaderIo → Bool
  | .read _ => false
  | _ => true

def SessionWriterIo.isInternal : SessionWriterIo → Bool
  | .none | .write Option.none => true
  | _ => false

end ClientSession

/-- A step for which nobody outside the worker has to do anything. -/
def WorkerAct.isInternal {n : Nat} : WorkerAct n → Bool
  | .run _ _ io => io.isInternal
  | .read _ _ io => io.isInternal
  | .reader _ io => io.isInternal
  | .writer _ io => io.isInternal
  | act => act.isCall

theorem WorkerAct.isInternal_of_isCall {n : Nat} {act : WorkerAct n} (h : act.isCall = true) :
    act.isInternal = true := by
  cases act with
  | next c a | callback c | ret c => rfl
  | _ => cases h

theorem CoroutineSignal.resume_eq_none {s : CoroutineSignal} :
    s.resume = none ↔ s.woken = 0 := by
  unfold resume
  split <;> simp_all

/-! ## 2. The channels -/

namespace BackendChannel

variable {U : UnpackOne} {ch : BackendChannel}

/-- A `run()` has a step of its own unless its place is settled. -/
theorem runStep_internal (ch : BackendChannel) (pc : RunPc) :
    (∃ io, io.isInternal = true ∧ (ch.runStep pc io).isSome) ↔
      pc.settled ch.writerSignal = false := by
  have hresume : ∀ head : RunPc, (ch.writerSignal.resume.map fun s =>
      (({ ch with writerSignal := s }, some head) : BackendChannel × Option RunPc)).isSome ↔
        (ch.writerSignal.woken == 0) = false := by
    intro head
    rw [Option.isSome_map, ← Option.ne_none_iff_isSome, Ne, CoroutineSignal.resume_eq_none]
    simp
  constructor
  · rintro ⟨io, hio, hsome⟩
    cases pc with
    | connecting =>
      cases io with
      | connected ok | noSocket => cases hio
      | none | write o => cases hsome
    | writing c =>
      cases io with
      | write o =>
        cases o with
        | none =>
          simp only [runStep, writeRound, Option.isSome_map] at hsome
          split at hsome
          · rename_i hoff
            simp [RunPc.settled, hoff]
          · cases hsome
        | some o => cases hio
      | none | noSocket | connected ok => cases hsome
    | writerWait | joinWait =>
      cases io with
      | none => exact (hresume _).mp hsome
      | noSocket | connected ok | write o => cases hsome
    | loopHead | writerHead | joinHead | cleanup | backoff => rfl
  · intro hpc
    cases pc with
    | loopHead | joinHead =>
      refine ⟨.none, rfl, ?_⟩
      simp only [runStep]
      split <;> rfl
    | writerHead =>
      refine ⟨.none, rfl, ?_⟩
      simp only [runStep]
      split
      · rfl
      · split <;> rfl
    | connecting => cases hpc
    | writing c =>
      have hoff : c.offer = [] := by simpa [RunPc.settled] using hpc
      exact ⟨.write none, rfl, by simp [runStep, writeRound, hoff]⟩
    | writerWait | joinWait => exact ⟨.none, rfl, (hresume _).mpr hpc⟩
    | cleanup | backoff => exact ⟨.none, rfl, rfl⟩

theorem nextReplyFrame_isSome (p : RespParser) (alloc : Nat → Bool) (b : Buffer) :
    (p.nextReplyFrame U alloc b).isSome := by
  rw [RespParser.nextReplyFrame_eq, Option.isSome_map]
  exact RespParser.unpack_isSome

/-- A reader has a step of its own unless it reads. -/
theorem readerStep_internal (ch : BackendChannel) (pc : ReaderPc) :
    (∃ io, io.isInternal = true ∧ (ch.readerStep U pc io).isSome) ↔ pc ≠ .reading := by
  constructor
  · rintro ⟨io, hio, hsome⟩ rfl
    cases io with
    | none | parse alloc => cases hsome
    | read o => cases hio
  · intro hpc
    cases pc with
    | head | leaving => exact ⟨.none, rfl, rfl⟩
    | reading => exact absurd rfl hpc
    | parsing =>
      refine ⟨.parse fun _ => true, rfl, ?_⟩
      simp only [readerStep]
      split
      · rfl
      · rw [Option.isSome_map]
        exact nextReplyFrame_isSome ..

theorem runTask_isSome {i : Nat} {io : RunIo} :
    (ch.runTask i io).isSome ↔
      ch.frames = [] ∧ ∃ pc, ch.runs[i]? = some pc ∧ (ch.runStep pc io).isSome := by
  unfold runTask
  split
  · rename_i pc hfr hi
    simp [hfr, hi]
  · rename_i hne
    constructor
    · intro h
      cases h
    · rintro ⟨hfr, pc, hi, _⟩
      exact absurd hi (hne pc hfr)

theorem readerTask_isSome {i : Nat} {io : ReaderIo} :
    (ch.readerTask U i io).isSome ↔
      ch.frames = [] ∧ ∃ pc, ch.readers[i]? = some pc ∧ (ch.readerStep U pc io).isSome := by
  unfold readerTask
  split
  · rename_i pc hfr hi
    simp [hfr, hi]
  · rename_i hne
    constructor
    · intro h
      cases h
    · rintro ⟨hfr, pc, hi, _⟩
      exact absurd hi (hne pc hfr)

/-- **A channel outside a call has a step of its own unless it is settled.** -/
theorem settled_iff (hfr : ch.frames = []) : ch.settled = true ↔
    (∀ i io, io.isInternal = true → ch.runTask i io = none) ∧
      ∀ i io, io.isInternal = true → ch.readerTask U i io = none := by
  simp only [settled, hfr, List.isEmpty_nil, Bool.true_and, Bool.and_eq_true, List.all_eq_true]
  refine and_congr ⟨fun h i io hio => ?_, fun h pc hpc => ?_⟩ ⟨fun h i io hio => ?_,
    fun h pc hpc => ?_⟩
  · rw [← Option.not_isSome_iff_eq_none, runTask_isSome]
    rintro ⟨_, pc, hi, hsome⟩
    have hset := h pc (List.mem_of_getElem? hi)
    rw [(runStep_internal ch pc).mp ⟨io, hio, hsome⟩] at hset
    cases hset
  · obtain ⟨i, hi⟩ := List.getElem?_of_mem hpc
    refine Bool.not_eq_false _ |>.mp fun hset => ?_
    obtain ⟨io, hio, hsome⟩ := (runStep_internal ch pc).mpr hset
    have hnone := h i io hio
    rw [← Option.not_isSome_iff_eq_none, runTask_isSome] at hnone
    exact hnone ⟨hfr, pc, hi, hsome⟩
  · rw [← Option.not_isSome_iff_eq_none, readerTask_isSome]
    rintro ⟨_, pc, hi, hsome⟩
    have hset := h pc (List.mem_of_getElem? hi)
    exact (readerStep_internal ch pc).mp ⟨io, hio, hsome⟩ (by simpa using hset)
  · obtain ⟨i, hi⟩ := List.getElem?_of_mem hpc
    refine Classical.byContradiction fun hset => ?_
    have hne : pc ≠ .reading := by simpa using hset
    obtain ⟨io, hio, hsome⟩ := (readerStep_internal (U := U) ch pc).mpr hne
    have hnone := h i io hio
    rw [← Option.not_isSome_iff_eq_none, readerTask_isSome] at hnone
    exact hnone ⟨hfr, pc, hi, hsome⟩

end BackendChannel

/-! ## 3. The sessions -/

namespace ClientSession

variable {n : Nat} {E : Env} {s : ClientSession n} {a : Owner} {p : BackendPool n}

/-- The parsing loop of a round ends. -/
theorem parseLoop_isSome (E : Env) (alloc : Nat → Nat → Bool) (budget : Nat) (r : Round) :
    (parseLoop E alloc budget r).isSome := by
  induction budget generalizing r with
  | zero => rfl
  | succ budget ih =>
    have hpeek : (r.parser.peekFrame E.unpackOne (alloc r.parsed) r.input r.consumed).isSome := by
      rw [RespParser.peekFrame_eq]
      split
      · rfl
      · rw [Option.isSome_map]
        exact RespParser.unpack_isSome
    obtain ⟨⟨ps, info, parser, input⟩, hx⟩ := Option.isSome_iff_exists.mp hpeek
    simp only [parseLoop, hx, Option.bind_some]
    split
    · rfl
    · split
      · exact ih _
      · rfl
    · rfl

theorem readerTop_isSome (E : Env) (s : ClientSession n) (a : Owner) (p : BackendPool n)
    (alloc : Nat → Nat → Bool) : (s.readerTop E a p alloc).isSome := by
  unfold readerTop
  split
  · rfl
  · rw [Option.isSome_map]
    exact parseLoop_isSome ..

/-- A reader has a step of its own unless it is settled. -/
theorem readerStep_internal (E : Env) (s : ClientSession n) (a : Owner) (p : BackendPool n) :
    (∃ io, io.isInternal = true ∧ (s.readerStep E a p io).isSome) ↔ s.readerSettled = false := by
  constructor
  · rintro ⟨io, hio, hsome⟩
    cases hpc : s.reader with
    | reading | done =>
      cases io with
      | none | parse alloc => simp [readerStep, hpc] at hsome
      | read o => cases hio
    | blocked error =>
      cases io with
      | none =>
        simp only [readerStep, hpc, Option.isSome_map, ← Option.ne_none_iff_isSome, Ne,
          CoroutineSignal.resume_eq_none] at hsome
        simpa [readerSettled, hpc] using hsome
      | parse alloc => simp [readerStep, hpc] at hsome
      | read o => cases hio
    | top | awaiting error | polling | leaving => simp [readerSettled, hpc]
  · intro hset
    cases hpc : s.reader with
    | top =>
      refine ⟨.parse fun _ _ => true, rfl, ?_⟩
      simp only [readerStep, hpc, Option.isSome_map]
      exact readerTop_isSome ..
    | awaiting error | polling | leaving => exact ⟨.none, rfl, by simp [readerStep, hpc]⟩
    | blocked error =>
      refine ⟨.none, rfl, ?_⟩
      simp only [readerStep, hpc, Option.isSome_map, ← Option.ne_none_iff_isSome, Ne,
        CoroutineSignal.resume_eq_none]
      simpa [readerSettled, hpc] using hset
    | reading | done => simp [readerSettled, hpc] at hset

/-- A writer has a step of its own unless it is settled. -/
theorem writerStep_internal (E : Env) (s : ClientSession n) (a : Owner) (p : BackendPool n) :
    (∃ io, io.isInternal = true ∧ (s.writerStep E a p io).isSome) ↔ s.writerSettled = false := by
  constructor
  · rintro ⟨io, hio, hsome⟩
    cases hpc : s.writer with
    | done =>
      cases io with
      | none | write o => simp [writerStep, hpc] at hsome
    | blocked =>
      cases io with
      | none =>
        simp only [writerStep, hpc, Option.isSome_map, ← Option.ne_none_iff_isSome, Ne,
          CoroutineSignal.resume_eq_none] at hsome
        simpa [writerSettled, hpc] using hsome
      | write o => simp [writerStep, hpc] at hsome
    | writing c =>
      cases io with
      | none => simp [writerStep, hpc] at hsome
      | write o =>
        cases o with
        | none =>
          simp only [writerStep, hpc, writerWrite, writeRound, Option.isSome_map] at hsome
          split at hsome
          · rename_i hoff
            simp [writerSettled, hpc, hoff]
          · cases hsome
        | some o => cases hio
    | top | leaving => simp [writerSettled, hpc]
  · intro hset
    cases hpc : s.writer with
    | top | leaving => exact ⟨.none, rfl, by simp [writerStep, hpc]⟩
    | blocked =>
      refine ⟨.none, rfl, ?_⟩
      simp only [writerStep, hpc, Option.isSome_map, ← Option.ne_none_iff_isSome, Ne,
        CoroutineSignal.resume_eq_none]
      simpa [writerSettled, hpc] using hset
    | writing c =>
      have hoff : c.offer = [] := by simpa [writerSettled, hpc] using hset
      exact ⟨.write none, rfl, by simp [writerStep, hpc, writerWrite, writeRound, hoff]⟩
    | done => simp [writerSettled, hpc] at hset

end ClientSession

/-! ## 4. The worker -/

namespace Worker

variable {n : Nat} {E : Env} {w : Worker n}

/-- **The worker can do nothing by itself.** -/
def Quiet (E : Env) (w : Worker n) : Prop :=
  ∀ act : WorkerAct n, act.isInternal = true → w.step E act = none

theorem Quiet.idle (h : w.Quiet E) (hk : w.Kept E) : ∀ c, (w.pool c).frames = [] := by
  intro c
  refine Classical.byContradiction fun hfr => ?_
  obtain ⟨act, hcall, hsome⟩ := call_enabled hk hfr
  rw [h act (WorkerAct.isInternal_of_isCall hcall)] at hsome
  cases hsome

/-- **A worker is quiet when all of it is settled.** -/
theorem quiet_iff (hk : w.Kept E) : w.Quiet E ↔
    (∀ c, (w.pool c).settled = true) ∧
      ∀ a s, w.sessions a = some s → s.readerSettled = true ∧ s.writerSettled = true := by
  constructor
  · intro h
    have hfr := h.idle hk
    have hidle : w.idle = true := idle_iff.mpr hfr
    refine ⟨fun c => ?_, fun a s hs => ⟨?_, ?_⟩⟩
    · refine (BackendChannel.settled_iff (U := E.unpackOne) (hfr c)).mpr ⟨fun i io hio => ?_,
        fun i io hio => ?_⟩
      · simpa [step, resume, hidle] using h (.run c i io) hio
      · simpa [step, resume, hidle] using h (.read c i io) hio
    · refine Bool.not_eq_false _ |>.mp fun hset => ?_
      obtain ⟨io, hio, hsome⟩ := (ClientSession.readerStep_internal E s a w.pool).mpr hset
      have hnone := h (.reader a io) hio
      simp only [step, resume, hidle, if_true, hs, Option.bind_some,
        Option.map_eq_none_iff] at hnone
      rw [hnone] at hsome
      cases hsome
    · refine Bool.not_eq_false _ |>.mp fun hset => ?_
      obtain ⟨io, hio, hsome⟩ := (ClientSession.writerStep_internal E s a w.pool).mpr hset
      have hnone := h (.writer a io) hio
      simp only [step, resume, hidle, if_true, hs, Option.bind_some,
        Option.map_eq_none_iff] at hnone
      rw [hnone] at hsome
      cases hsome
  · rintro ⟨hch, hses⟩ act hact
    have hfr : ∀ c, (w.pool c).frames = [] := fun c => by
      have hset := hch c
      simp only [BackendChannel.settled, Bool.and_eq_true, List.isEmpty_iff] at hset
      exact hset.1.1
    have hidle : w.idle = true := idle_iff.mpr hfr
    have hchannel := fun c => (BackendChannel.settled_iff (U := E.unpackOne) (hfr c)).mp (hch c)
    cases act with
    | next c a => simp [step, BackendChannel.next, hfr c]
    | callback c => simp [step, callback, hfr c]
    | ret c => simp [step, ret, hfr c]
    | run c i io => simp [step, resume, hidle, (hchannel c).1 i io hact]
    | read c i io => simp [step, resume, hidle, (hchannel c).2 i io hact]
    | reader a io =>
      simp only [step, resume, hidle, if_true]
      cases hs : w.sessions a with
      | none => rfl
      | some s =>
        rw [Option.bind_some, Option.map_eq_none_iff, ← Option.not_isSome_iff_eq_none]
        intro hsome
        have hset := (hses a s hs).1
        rw [(ClientSession.readerStep_internal E s a w.pool).mp ⟨io, hact, hsome⟩] at hset
        cases hset
    | writer a io =>
      simp only [step, resume, hidle, if_true]
      cases hs : w.sessions a with
      | none => rfl
      | some s =>
        rw [Option.bind_some, Option.map_eq_none_iff, ← Option.not_isSome_iff_eq_none]
        intro hsome
        have hset := (hses a s hs).2
        rw [(ClientSession.writerStep_internal E s a w.pool).mp ⟨io, hact, hsome⟩] at hset
        cases hset
    | accept a | reap | start c | stop c => cases hact

end Worker

/-! ## 5. What a quiet worker waits for -/

namespace BackendChannel

/-- The channel has a connection and waits for Redis: its reader reads, and its writer has written
    all there was or is writing. -/
structure AtRedis (ch : BackendChannel) : Prop where
  ready : ch.state = .kReady
  reads : ch.readers = [.reading]
  writes : ch.runs = [.writerWait] ∧ ch.writeQueue = [] ∨
    ∃ c, ch.runs = [.writing c] ∧ c.rest ≠ []

/-- **What a channel that is settled waits for**: a `start()`, the outcome of an attempt to connect,
    Redis, or, when it is no longer ready, the return of a system call on the connection it has
    given up. -/
inductive WaitsOutside (ch : BackendChannel) : Prop where
  | stopped (state : ch.state = .kStopped)
  | connecting (runs : ch.runs = [.connecting])
  | redis (h : ch.AtRedis)
  | closing (state : ch.state ≠ .kReady)
      (call : ch.readers = [.reading] ∨ ∃ c, ch.runs = [.writing c] ∧ c.rest ≠ [])

variable {ch : BackendChannel}

theorem readers_of_settled (hset : ch.settled = true) {pc : ReaderPc} (hrd : ch.readers = [pc]) :
    pc = .reading := by
  simp only [settled, hrd, List.all_cons, List.all_nil, Bool.and_true, Bool.and_eq_true,
    beq_iff_eq] at hset
  exact hset.2

theorem run_of_settled (hset : ch.settled = true) {pc : RunPc} (hr : ch.runs = [pc]) :
    pc.settled ch.writerSignal = true := by
  simp only [settled, hr, List.all_cons, List.all_nil, Bool.and_true, Bool.and_eq_true] at hset
  exact hset.1.2

theorem rest_of_settled {sig : CoroutineSignal} {c : WriteCursor}
    (h : (RunPc.writing c).settled sig = true) : c.rest ≠ [] := by
  intro hnil
  simp [RunPc.settled, WriteCursor.offer_eq_nil.mpr hnil] at h

/-- A suspended `run()` that is settled waits for what has not happened. -/
theorem waiting_of_settled (ha : ch.Attentive) {pc : RunPc} (hr : ch.runs = [pc])
    (hsusp : pc.suspended = true) (h0 : ch.writerSignal.woken = 0) : ch.Waiting pc := by
  refine (resume_enabled ha hr hsusp).resolve_left fun hres => ?_
  rw [CoroutineSignal.resume_eq_none.mpr h0] at hres
  cases hres

theorem atRedis_of_settled (hl : ch.Life) (ha : ch.Attentive) (hset : ch.settled = true)
    (hs : ch.state = .kReady) : ch.AtRedis := by
  obtain ⟨pc, rpc, hr, hrd, _, hpc⟩ := hl.of_ready hs
  have hrun := run_of_settled hset hr
  refine ⟨hs, by rw [hrd, readers_of_settled hset hrd], ?_⟩
  rcases hpc with rfl | rfl | ⟨c, rfl⟩
  · cases hrun
  · have hwait := waiting_of_settled ha hr rfl (by simpa [RunPc.settled] using hrun)
    exact Or.inl ⟨hr, hwait.2⟩
  · exact Or.inr ⟨c, hr, rest_of_settled hrun⟩

theorem waitsOutside_of_settled (hl : ch.Life) (ha : ch.Attentive) (hset : ch.settled = true) :
    ch.WaitsOutside := by
  by_cases hs : ch.state = .kReady
  · exact .redis (atRedis_of_settled hl ha hset hs)
  rcases hl.task with ⟨_, _, hst, _⟩ | ⟨pc, hr, _, hp⟩
  · exact .stopped hst
  have hrun := run_of_settled hset hr
  cases pc with
  | connecting => exact .connecting hr
  | writing c => exact .closing hs (Or.inr ⟨c, hr, rest_of_settled hrun⟩)
  | writerWait =>
    have hwait := waiting_of_settled ha hr rfl (by simpa [RunPc.settled] using hrun)
    exact absurd hwait.1 hs
  | joinWait =>
    have hwait := waiting_of_settled ha hr rfl (by simpa [RunPc.settled] using hrun)
    have hsome : ch.readers ≠ [] := fun hnil =>
      Bool.false_ne_true (hwait.symm.trans (hl.done.mpr hnil))
    obtain ⟨rpc, hrd⟩ := List.length_eq_one_iff.mp
      (Nat.le_antisymm hp.2 (List.length_pos_iff.mpr hsome))
    exact .closing hs (Or.inl (by rw [hrd, readers_of_settled hset hrd]))
  | loopHead | writerHead | joinHead | cleanup | backoff => cases hrun

end BackendChannel

namespace Worker

variable {n : Nat} {E : Env} {w : Worker n}

/-- **What a session waits for** in a worker that can do nothing by itself: each of its loops has
    ended, or is in a system call on the client's socket, or waits for replies, and these are
    awaited from Redis. -/
structure WaitsOutside (w : Worker n) (a : Owner) (s : ClientSession n) : Prop where
  reader : s.reader = .done ∨ s.reader = .reading ∨
    (∃ error, s.reader = .blocked error) ∧ s.state = .kOpen ∧ s.pendingReplies ≠ 0
  writer : s.writer = .done ∨ (∃ c, s.writer = .writing c ∧ c.rest ≠ []) ∨
    s.writer = .blocked ∧ s.clientOut = [] ∧ (s.reader = .reading ∨ s.pendingReplies ≠ 0)
  replies : s.pendingReplies ≠ 0 → ∃ c, s.currentBackend = some c ∧ (w.pool c).AtRedis ∧
    (w.pool c).entryReplies a = s.pendingReplies
  ended : s.reader = .done → s.writer = .done → a ∈ w.finished

theorem Kept.reader_waits (hk : w.Kept E) {a : Owner} {s : ClientSession n}
    (hs : w.sessions a = some s) (hset : s.readerSettled = true) :
    s.reader = .done ∨ s.reader = .reading ∨
      (∃ error, s.reader = .blocked error) ∧ s.state = .kOpen ∧ s.pendingReplies ≠ 0 := by
  have ho := hk.orderly a s hs
  cases hpc : s.reader with
  | done => exact Or.inl rfl
  | reading => exact Or.inr (Or.inl rfl)
  | blocked error =>
    have hsig := ho.reply
    rw [hpc] at hsig
    have h0 : s.replySignal.woken = 0 := by simpa [ClientSession.readerSettled, hpc] using hset
    have hb := hsig.resume_or_blocked.resolve_left fun hres => by
      rw [CoroutineSignal.resume_eq_none.mpr h0] at hres
      cases hres
    exact Or.inr (Or.inr ⟨⟨error, rfl⟩, ho.readerAsleep hb⟩)
  | top | awaiting error | polling | leaving =>
    simp [ClientSession.readerSettled, hpc] at hset

theorem Kept.writer_waits (hk : w.Kept E) {a : Owner} {s : ClientSession n}
    (hs : w.sessions a = some s) (hset : s.readerSettled = true ∧ s.writerSettled = true) :
    s.writer = .done ∨ (∃ c, s.writer = .writing c ∧ c.rest ≠ []) ∨
      s.writer = .blocked ∧ s.clientOut = [] ∧ (s.reader = .reading ∨ s.pendingReplies ≠ 0) := by
  have ho := hk.orderly a s hs
  cases hpc : s.writer with
  | done => exact Or.inl rfl
  | writing c =>
    refine Or.inr (Or.inl ⟨c, rfl, fun hnil => ?_⟩)
    simp [ClientSession.writerSettled, hpc, WriteCursor.offer_eq_nil.mpr hnil] at hset
  | blocked =>
    have hsig := ho.output
    rw [hpc] at hsig
    have h0 : s.outputSignal.woken = 0 := by simpa [ClientSession.writerSettled, hpc] using hset.2
    have hb := hsig.resume_or_blocked.resolve_left fun hres => by
      rw [CoroutineSignal.resume_eq_none.mpr h0] at hres
      cases hres
    obtain ⟨hempty, hlive, hwait⟩ := ho.writerAsleep hb
    refine Or.inr (Or.inr ⟨rfl, hempty, ?_⟩)
    rcases hk.reader_waits hs hset.1 with hdone | hreading | ⟨_, _, hpending⟩
    · -- the stream has ended, so the session is draining and has replies to wait for
      have hopen := ho.readerGone (by rw [hdone]; rfl)
      refine Or.inr fun hzero => hwait ⟨?_, hzero⟩
      cases hst : s.state with
      | kOpen => exact absurd hst hopen
      | kDraining => rfl
      | kAborted => exact absurd hst hlive
    · exact Or.inl hreading
    · exact Or.inr hpending
  | top | leaving => simp [ClientSession.writerSettled, hpc] at hset

/-- The replies a session awaits are awaited from Redis. -/
theorem Kept.replies_wait (hk : w.Kept E) (hset : ∀ c, (w.pool c).settled = true)
    (hidle : ∀ c, (w.pool c).frames = []) {a : Owner} {s : ClientSession n}
    (hs : w.sessions a = some s) (hpos : s.pendingReplies ≠ 0) :
    ∃ c, s.currentBackend = some c ∧ (w.pool c).AtRedis ∧
      (w.pool c).entryReplies a = s.pendingReplies := by
  have ht := hk.tallied a s hs
  have hne : s.inflight ≠ [] := fun hnil => hpos (ht.pending_eq_zero.mpr hnil)
  obtain ⟨c, hcur⟩ := Option.ne_none_iff_exists'.mp fun hnone => hne (ht.current.mp hnone)
  obtain ⟨hentries, hready⟩ := hk.entries hs (hidle c)
  have hdue : s.due c = s.inflight.map (·.command) := by rw [ClientSession.due, if_pos hcur]
  rw [hdue, List.length_map, ← ht.pending] at hentries
  refine ⟨c, hcur, ?_, hentries⟩
  refine BackendChannel.atRedis_of_settled (hk.life c)
    (BackendChannel.attentive_reachable (hk.channels c)) (hset c) (hready ?_)
  rw [hdue]
  exact fun hnil => hne (List.map_eq_nil_iff.mp hnil)

/-- **No deadlock inside a worker.** In a reachable worker that can do nothing by itself, no call is
    in progress, every channel waits for a `start()`, for a connection, for Redis or, when it is no
    longer ready, for the return of a system call on the connection it has given up, and every
    session waits for its client or for Redis: in particular the replies it awaits are entries of a
    ready channel whose reader is reading from Redis and whose writer has written everything, or is
    writing. -/
theorem waits_outside {w : Worker E.config.channels} (h : (machine E).Reachable w)
    (hq : w.Quiet E) :
    w.idle = true ∧ (∀ c, (w.pool c).WaitsOutside) ∧
      ∀ a s, w.sessions a = some s → w.WaitsOutside a s := by
  have hk := kept_reachable h
  have hidle := hq.idle hk
  obtain ⟨hch, hses⟩ := (quiet_iff hk).mp hq
  refine ⟨idle_iff.mpr hidle, fun c => ?_, fun a s hs => ?_⟩
  · exact BackendChannel.waitsOutside_of_settled (hk.life c)
      (BackendChannel.attentive_reachable (hk.channels c)) (hch c)
  · obtain ⟨hr, hw⟩ := hses a s hs
    refine ⟨hk.reader_waits hs hr, hk.writer_waits hs ⟨hr, hw⟩, hk.replies_wait hch hidle hs,
      fun hrd hwd => (hk.reported a).mpr ⟨s, hs, ?_⟩⟩
    rw [(hk.orderly a s hs).finish, hrd, hwd]
    rfl

/-- The address a step accepts a session at. -/
def acceptsAt {n : Nat} : WorkerAct n → Option Owner
  | .accept a => some a
  | _ => none

/-- No session is where none was accepted. -/
theorem sessions_of_unaccepted {w : Worker E.config.channels}
    {acts : List (WorkerAct E.config.channels)} {a : Owner} (ha : a ∉ acts.filterMap acceptsAt)
    (hr : (machine E).run (init E) acts = some w) : w.sessions a = none := by
  have hok : ∀ act ∈ acts, act ≠ .accept a := by
    rintro act hact rfl
    exact ha (List.mem_filterMap.mpr ⟨_, hact, rfl⟩)
  refine Machine.Reachable.start.restricted (I := fun v : Worker E.config.channels =>
    v.sessions a = none) rfl (fun v act v' hv hact hnone hstep => ?_) hok hr
  cases hs : v'.sessions a with
  | none => rfl
  | some s' =>
    obtain ⟨he, _⟩ := (step_move (kept_reachable hv).single hstep).appears hnone hs
    exact absurd he hact

/-- The three sleepers of `threeAsleep`, with the reader of the channel in a read. -/
def allAsleep : List (WorkerAct 2) := threeAsleep ++ [.read channel0 0 .none]

theorem waits_outside_allAsleep :
    ∃ w s, (machine pingEnv).run (init pingEnv) allAsleep = some w ∧ w.sessions 7 = some s ∧
      s.pendingReplies = 1 ∧ ∃ c, s.currentBackend = some c ∧ (w.pool c).AtRedis ∧
        (w.pool c).entryReplies 7 = 1 := by
  have hrun : ((machine pingEnv).run (init pingEnv) allAsleep).bind (fun w =>
      (w.sessions 7).map fun s => (s.readerSettled, s.writerSettled, s.pendingReplies,
        decide (∀ c, (w.pool c).settled = true))) = some (true, true, 1, true) := by
    decide +kernel
  obtain ⟨w, hw, hval⟩ := Option.bind_eq_some_iff.mp hrun
  obtain ⟨s, hs, hval⟩ := Option.map_eq_some_iff.mp hval
  simp only [Prod.mk.injEq, decide_eq_true_eq] at hval
  obtain ⟨hreader, hwriter, hpending, hchannels⟩ := hval
  have hreach := Machine.reachable_of_run hw
  have hquiet : w.Quiet pingEnv := by
    refine (quiet_iff (kept_reachable hreach)).mpr ⟨hchannels, fun a t ht => ?_⟩
    have haccepted : allAsleep.filterMap acceptsAt = [7] := by decide
    obtain rfl : a = 7 := by
      refine Classical.byContradiction fun hne => ?_
      have hnot : a ∉ allAsleep.filterMap acceptsAt := by
        rw [haccepted]
        exact fun ha => hne (List.mem_singleton.mp ha)
      rw [sessions_of_unaccepted (E := pingEnv) hnot hw] at ht
      cases ht
    rw [hs] at ht
    cases ht
    exact ⟨hreader, hwriter⟩
  obtain ⟨_, _, hsessions⟩ := waits_outside hreach hquiet
  have hreplies := (hsessions 7 s hs).replies (by rw [hpending]; decide)
  rw [hpending] at hreplies
  exact ⟨w, s, hw, hs, hpending, hreplies⟩

end Worker

end RedisProxy
