/-
  File:      RedisProxy/Channel/Shutdown.lean
  Subject:   A CHANNEL THAT CLOSES GETS TO ITS END: `stop()` completes, and without a `stop()` there
             is always a way back to a ready connection.

  A connection that is not ready is being taken down by three parties that wait for each other:
  `run()`, which joins the reader; the reader, which notifies `run()` as its last act; and the calls
  on the stack, `failConnection` and the tail of `stop()`, which notify as well. `remaining` counts
  the steps this can still take. A notification that is on its way counts two: it lets `run()` look
  once more and wait once more.

  * `closes_step` -- until the channel is ready or stopped, each step of the channel itself that is
    not told to try again takes something off, and of the calls from outside only `stop()` adds;
  * `progress_enabled` -- such a step is always enabled: nobody waits for something that does not
    come;
  * `stop_completes`, `recovers` -- what follows for every run after a `stop()`, and for a channel
    that nobody stopped.
-/
import RedisProxy.Channel.Wakeup

namespace RedisProxy

/-! ## 1. How far a channel is from its end -/

/-- The steps `run()` has left from a place, the loops over its signal aside; before the end of the
    loop with a stop requested, before a connection without. -/
def RunPc.remaining (stop : Bool) : RunPc → Nat
  | .loopHead => if stop then 1 else 2
  | .connecting => if stop then 5 else 1
  | .writerHead => 8
  | .writerWait => 7
  | .writing c => 9 + c.rest.length
  | .joinHead => 6
  | .joinWait => 5
  | .cleanup => 4
  | .backoff => if stop then 2 else 3

/-- Likewise for a reader; the last step also notifies. -/
def ReaderPc.remaining : ReaderPc → Nat
  | .head => 4
  | .reading => 4
  | .parsing => 5
  | .leaving => 3

/-- Likewise for a call on the stack; each owner still to be called is a call and its return. -/
def Frame.remaining : Frame → Nat
  | .onReply _ _ => 1
  | .onFailure _ => 1
  | .failing _ todo => 1 + 2 * todo.length
  | .stopTail => 3

/-- A notification that `run()` has not seen yet. -/
def CoroutineSignal.unseen (s : CoroutineSignal) : Nat :=
  if s.pending || 0 < s.woken then 2 else 0

theorem CoroutineSignal.unseen_le (s : CoroutineSignal) : s.unseen ≤ 2 := by
  unfold unseen
  split <;> omega

theorem CoroutineSignal.Waits.unseen_resume {s s' : CoroutineSignal} (h : s.Waits true)
    (hr : s.resume = some s') : s.unseen = 2 ∧ s'.unseen = 0 := by
  have hone := h.one
  unfold CoroutineSignal.resume at hr
  split at hr
  · cases hr
  · rename_i w hw
    cases hr
    have h0 : w = 0 := by
      rw [hw, Bool.toNat_true] at hone
      omega
    simp [unseen, hw, h0]

namespace BackendChannel

open Lib

/-- **The steps a closing channel can still take.** -/
def remaining (ch : BackendChannel) : Nat :=
  (ch.runs.map (RunPc.remaining ch.stopRequested)).sum + (ch.readers.map ReaderPc.remaining).sum +
    (ch.frames.map Frame.remaining).sum + ch.writerSignal.unseen

/-- The channel has come to its end: no task, no socket, nothing left of the connection. -/
structure Finished (ch : BackendChannel) : Prop where
  state : ch.state = .kStopped
  runs : ch.runs = []
  readers : ch.readers = []
  fd : ch.fd = none
  content : ch.redisIn.content = []

theorem Life.finished {ch : BackendChannel} (h : ch.Life) (hs : ch.runs = []) : ch.Finished := by
  rcases h.task with ⟨hr, hrd, hst, hfd, hin⟩ | ⟨pc, hr, _⟩
  · exact ⟨hst, hr, hrd, hfd, hin⟩
  · rw [hs] at hr
    cases hr

theorem Life.running {ch : BackendChannel} (h : ch.Life) (hr : ch.runs ≠ []) :
    ch.state ≠ .kStopped := by
  rcases h.task with ⟨hnil, _⟩ | ⟨_, _, hst, _⟩
  · exact absurd hnil hr
  · exact hst

/-- A step of the channel itself that is not a system call told to try again. -/
def Act.progresses : Act → Bool
  | .op _ => false
  | .run _ (.write (some .again)) => false
  | .reader _ (.read .again) => false
  | _ => true

/-- The attempt to connect fails. -/
def Act.misses : Act → Bool
  | .run _ .noSocket => true
  | .run _ (.connected false) => true
  | _ => false

def Act.isStart : Act → Bool
  | .op (.start _) => true
  | _ => false

def Act.isStop : Act → Bool
  | .op .stop => true
  | _ => false

/-- What a step is to a channel that is not ready: the connection is there, `run()` has ended
    because of a `stop()`, or the channel has come nearer to one of the two by `d`, what the step
    itself has `added` aside. -/
inductive Closes (ch ch' : BackendChannel) (d added : Nat) : Prop where
  | ready (go : ch.stopRequested = false) (state : ch'.state = .kReady)
  | ended (stop : ch.stopRequested = true) (stop' : ch'.stopRequested = true) (runs : ch'.runs = [])
  | nears (runs : ch'.runs.length = ch.runs.length) (stop : ch'.stopRequested = ch.stopRequested)
      (less : ch'.remaining + d ≤ ch.remaining + added)

/-! ## 2. Every step of the channel takes something off -/

section Step

variable {U : UnpackOne} {allow : Owner → Op → Bool} {ch ch' : BackendChannel}

theorem failConnection_of_ne (hs : ch.state ≠ .kReady) (st : Status) :
    ch.failConnection st = ch := by
  rw [failConnection, if_pos hs]

theorem closes_ret (hs : ch.ret = some ch') : ch.Closes ch' 1 0 := by
  unfold ret at hs
  split at hs <;> cases hs <;> rename_i hfr <;> refine .nears rfl rfl ?_
  · simp only [remaining, hfr, List.map_cons, List.sum_cons, Frame.remaining]
    omega
  · simp only [remaining, hfr, List.map_cons, List.sum_cons, Frame.remaining]
    omega
  · simp only [remaining, hfr, List.map_cons, List.sum_cons, Frame.remaining]
    omega
  · -- the end of `stop()` notifies
    have hle := ch.writerSignal.notify.unseen_le
    simp only [remaining, hfr, List.map_cons, List.sum_cons, Frame.remaining]
    omega

theorem closes_next {o : Owner} (hs : ch.next o = some ch') : ch.Closes ch' 1 0 := by
  unfold next at hs
  split at hs
  on_goal 2 => cases hs
  rename_i status todo fs hfr
  split at hs
  on_goal 2 => cases hs
  rename_i ho
  cases hs
  have hlen := List.length_erase_of_mem ho
  have hpos := List.length_pos_of_mem ho
  refine .nears rfl rfl ?_
  simp only [remaining, hfr, List.map_cons, List.sum_cons, Frame.remaining, hlen]
  omega

/-- What is left besides `run()`. -/
def besides (ch : BackendChannel) : Nat :=
  (ch.readers.map ReaderPc.remaining).sum + (ch.frames.map Frame.remaining).sum +
    ch.writerSignal.unseen

theorem remaining_at {pc : RunPc} (hr : ch.runs = [pc]) :
    ch.remaining = pc.remaining ch.stopRequested + ch.besides := by
  simp only [remaining, besides, hr, List.map_cons, List.map_nil, List.sum_cons, List.sum_nil]
  omega

/-- `run()` goes to a nearer place while the rest stays. -/
theorem closes_move {pc pc' : RunPc} {d : Nat} (hr : ch.runs = [pc]) (hr' : ch'.runs = [pc'])
    (hstop : ch'.stopRequested = ch.stopRequested) (hb : ch'.besides = ch.besides)
    (hlt : pc'.remaining ch.stopRequested + d ≤ pc.remaining ch.stopRequested) :
    ch.Closes ch' d 0 := by
  refine .nears (by rw [hr, hr']; rfl) hstop ?_
  rw [remaining_at hr, remaining_at hr', hstop, hb]
  omega

/-- `run()` looks for a notification at a loop head: it takes one, or it waits. -/
theorem closes_waitWriter {head wait : RunPc} (hr : ch.runs = [head])
    (hsig : ch.writerSignal.Waits false)
    (hlt : wait.remaining ch.stopRequested + 1 ≤ head.remaining ch.stopRequested)
    {x : BackendChannel × Option RunPc} (hx : ch.waitWriter head wait = x) :
    ch.Closes { x.1 with runs := moveTask x.1.runs 0 x.2 } 1 0 := by
  have hwoken : ch.writerSignal.woken = 0 := by
    have hone := hsig.one
    rw [Bool.toNat_false] at hone
    omega
  unfold waitWriter at hx
  cases hp : ch.writerSignal.pending with
  | true =>
    simp only [CoroutineSignal.wait, hp, if_true] at hx
    subst hx
    refine .nears (by rw [moveTask_some hr head, hr]) rfl ?_
    rw [remaining_at hr, remaining_at (moveTask_some hr head)]
    simp only [besides, CoroutineSignal.unseen, hp, hwoken, Bool.true_or, Bool.false_or,
      Nat.lt_irrefl, decide_false, Bool.false_eq_true, if_true, if_false]
    omega
  | false =>
    simp only [CoroutineSignal.wait, hp, Bool.false_eq_true, if_false] at hx
    subst hx
    refine .nears (by rw [moveTask_some hr wait, hr]; rfl) rfl ?_
    rw [remaining_at hr, remaining_at (moveTask_some hr wait)]
    simp only [besides, CoroutineSignal.unseen, hp, hwoken]
    omega

/-- `run()` takes the notification it was woken for. -/
theorem closes_resume {pc head : RunPc} {s : CoroutineSignal} (hr : ch.runs = [pc])
    (hsig : ch.writerSignal.Waits true) (hres : ch.writerSignal.resume = some s)
    (hlt : head.remaining ch.stopRequested ≤ pc.remaining ch.stopRequested + 1) :
    ch.Closes { ch with writerSignal := s, runs := moveTask ch.runs 0 (some head) } 1 0 := by
  obtain ⟨h2, h0⟩ := hsig.unseen_resume hres
  refine .nears (by rw [moveTask_some hr head, hr]; rfl) rfl ?_
  rw [remaining_at hr, remaining_at (moveTask_some hr head)]
  simp only [besides, h2, h0]
  omega

section Places

variable {io : RunIo} {x : BackendChannel × Option RunPc}

/-- From the head of the connect loop it ends or dials; to be without a socket is no way out unless
    a stop was asked for. -/
theorem closes_loopHead (hr : ch.runs = [.loopHead]) {d : Nat} (hd : d ≤ 1)
    (hgo : ch.stopRequested = true ∨ io ≠ .noSocket) (hx : ch.runStep .loopHead io = some x) :
    ch.Closes (ran x) d 0 := by
  simp only [runStep] at hx
  split at hx
  · rename_i hstop
    cases hx
    exact .ended hstop hstop (moveTask_none hr)
  · rename_i hstop
    split at hx
    · cases hx
      refine closes_move hr (moveTask_some hr .connecting) rfl rfl ?_
      simp only [RunPc.remaining, hstop]
      exact Nat.add_le_add_left hd _
    · exact absurd rfl (hgo.resolve_left hstop)
    · cases hx

/-- A connect that returns makes the channel ready, or leads to the clean-up of a stopped one. -/
theorem closes_connecting (hr : ch.runs = [.connecting]) {d : Nat} (hd : d ≤ 1)
    (hgo : ch.stopRequested = true ∨ io ≠ .connected false)
    (hx : ch.runStep .connecting io = some x) : ch.Closes (ran x) d 0 := by
  cases io <;> simp only [runStep] at hx <;> try cases hx
  rename_i ok
  split at hx
  · rename_i hgo
    cases hx
    exact .ready (by simpa using (Bool.and_eq_true_iff.mp hgo).2) rfl
  · rename_i hok
    cases hx
    have hstop : ch.stopRequested = true := by
      refine hgo.elim id fun hne => ?_
      cases ok with
      | false => exact absurd rfl hne
      | true => simpa using hok
    refine closes_move hr (moveTask_some hr .cleanup) rfl rfl ?_
    simp only [RunPc.remaining, hstop, if_true]
    omega

/-- A write that moves has less before it; one that returns leads back to the writer's head. -/
theorem closes_writing {c : WriteCursor} (hne : ch.state ≠ .kReady) (hr : ch.runs = [.writing c])
    (hx : ch.runStep (.writing c) io = some x) :
    ch.Closes (ran x) (Act.run 0 io).progresses.toNat 0 := by
  cases io <;> simp only [runStep] at hx <;> try cases hx
  rename_i o
  obtain ⟨w, hround, he⟩ := Option.map_eq_some_iff.mp hx
  cases w with
  | running c' =>
    cases he
    refine closes_move hr (moveTask_some hr (.writing c')) rfl rfl ?_
    have hrest := congrArg List.length (writeRound_running hround)
    rw [List.length_append] at hrest
    simp only [RunPc.remaining]
    rcases o with _ | o
    · simp only [writeRound] at hround
      split at hround <;> cases hround
    · have hahead := (writeRound_ahead hround).2
      rw [reads_offer hround] at hahead
      have hmoves : (Act.run 0 (.write (some o))).progresses.toNat = o.moves.toNat := by
        cases o <;> rfl
      rw [hmoves]
      omega
  | returned st =>
    have hsame : (if st.ok then ch else ch.failConnection st) = ch := by
      rw [failConnection_of_ne hne, ite_self]
    simp only [hsame] at he
    cases he
    refine closes_move hr (moveTask_some hr .writerHead) rfl rfl ?_
    have hle := Bool.toNat_le (Act.run 0 (.write o)).progresses
    simp only [RunPc.remaining]
    omega

end Places

/-- **Each step of `run()` takes something off**, unless the kernel only said to try again. -/
theorem closes_run (hl : ch.Life) (ha : ch.Attentive) (hne : ch.state ≠ .kReady) {i : Nat}
    {io : RunIo} (hgo : ch.stopRequested = true ∨ (Act.run i io).misses = false)
    (hs : ch.runTask i io = some ch') :
    ch.Closes ch' (Act.run i io).progresses.toNat 0 := by
  unfold runTask at hs
  split at hs
  on_goal 2 => cases hs
  rename_i pc hfr hi
  obtain ⟨x, hx, rfl⟩ := Option.map_eq_some_iff.mp hs
  obtain ⟨rfl, hr, _, _⟩ := hl.run_of_get hi
  have hsig : ch.writerSignal.Waits pc.suspended := by
    have hs := ha.signal
    rw [hr] at hs
    simpa using hs
  cases pc with
  | loopHead =>
    refine closes_loopHead hr (Bool.toNat_le _) (hgo.imp_right fun hgo hno => ?_) hx
    rw [hno] at hgo
    cases hgo
  | connecting =>
    refine closes_connecting hr (Bool.toNat_le _) (hgo.imp_right fun hgo hno => ?_) hx
    rw [hno] at hgo
    cases hgo
  | writing c => exact closes_writing hne hr hx
  | writerHead =>
    cases io <;> simp only [runStep] at hx <;> try cases hx
    rw [if_pos (not_isHealthy_iff.mpr hne)] at hx
    cases hx
    exact closes_move hr (moveTask_some hr .joinHead) rfl rfl
      (by simp only [RunPc.remaining]; decide)
  | writerWait | joinWait =>
    cases io <;> simp only [runStep] at hx <;> try cases hx
    obtain ⟨s, hres, rfl⟩ := Option.map_eq_some_iff.mp hx
    exact closes_resume hr hsig hres (Nat.le_refl _)
  | joinHead =>
    cases io <;> simp only [runStep] at hx <;> try cases hx
    split at hx
    · cases hx
      exact closes_move hr (moveTask_some hr .cleanup) rfl rfl
        (by simp only [RunPc.remaining]; decide)
    · exact closes_waitWriter hr hsig (Nat.le_refl _) (Option.some.inj hx)
  | cleanup =>
    cases io <;> simp only [runStep] at hx <;> try cases hx
    refine closes_move hr (moveTask_some hr _) rfl rfl ?_
    cases ch.stopRequested <;> decide
  | backoff =>
    cases io <;> simp only [runStep] at hx <;> try cases hx
    refine closes_move hr (moveTask_some hr .loopHead) rfl rfl ?_
    cases ch.stopRequested <;> decide

/-- The reader goes to a nearer place while the rest stays. -/
theorem closes_moveReader {pc pc' : ReaderPc} {d : Nat} (hrd : ch.readers = [pc])
    (hrd' : ch'.readers = [pc']) (hruns : ch'.runs = ch.runs)
    (hstop : ch'.stopRequested = ch.stopRequested) (hfr : ch'.frames = ch.frames)
    (hsig : ch'.writerSignal = ch.writerSignal) (hlt : pc'.remaining + d ≤ pc.remaining) :
    ch.Closes ch' d 0 := by
  refine .nears (by rw [hruns]) hstop ?_
  simp only [remaining, hrd, hrd', hruns, hstop, hfr, hsig, List.map_cons, List.map_nil,
    List.sum_cons, List.sum_nil]
  omega

theorem closes_reader (hl : ch.Life) (hne : ch.state ≠ .kReady) {i : Nat} {io : ReaderIo}
    (hs : ch.readerTask U i io = some ch') :
    ch.Closes ch' (Act.reader i io).progresses.toNat 0 := by
  unfold readerTask at hs
  split at hs
  on_goal 2 => cases hs
  rename_i pc hfr hi
  obtain ⟨x, hx, rfl⟩ := Option.map_eq_some_iff.mp hs
  obtain ⟨rfl, hrd, _⟩ := hl.reader_of_get hi
  have hunhealthy : (!ch.isHealthy) = true := not_isHealthy_iff.mpr hne
  cases pc with
  | head =>
    cases io <;> simp only [readerStep] at hx <;> try cases hx
    have hfalse : ch.isHealthy = false := by simpa using hunhealthy
    refine closes_moveReader hrd (moveTask_some hrd _) rfl rfl rfl rfl ?_
    rw [hfalse]
    decide
  | reading =>
    cases io with
    | none | parse _ => cases hx
    | read o =>
      obtain ⟨⟨st, b⟩, hread, rfl⟩ := Option.map_eq_some_iff.mp hx
      cases st with
      | none =>
        -- only `EAGAIN` keeps the reader where it is
        have hagain : (Act.reader 0 (.read o)).progresses = false := by
          cases o with
          | again => rfl
          | data d =>
            simp only [readSome] at hread
            split at hread <;> cases hread
          | closed | timeout | error m => cases hread
        rw [hagain]
        exact closes_moveReader hrd (moveTask_some hrd .reading) rfl rfl rfl rfl (Nat.le_refl _)
      | some st =>
        have hle := Bool.toNat_le (Act.reader 0 (.read o)).progresses
        simp only [if_pos hunhealthy]
        refine closes_moveReader hrd (moveTask_some hrd .leaving) rfl rfl rfl rfl ?_
        simp only [ReaderPc.remaining]
        omega
  | parsing =>
    cases io with
    | none | read _ => cases hx
    | parse alloc =>
      simp only [readerStep, if_pos hunhealthy] at hx
      cases hx
      exact closes_moveReader hrd (moveTask_some hrd .head) rfl rfl rfl rfl (Nat.le_refl _)
  | leaving =>
    cases io <;> simp only [readerStep] at hx <;> try cases hx
    -- the reader is gone, its notification is on its way
    have hle := ch.writerSignal.notify.unseen_le
    refine .nears rfl rfl ?_
    simp only [remaining, moveTask_none hrd]
    simp only [hrd, List.map_cons, List.map_nil, List.sum_cons, List.sum_nil, ReaderPc.remaining,
      Act.progresses, Bool.toNat_true]
    omega

/-- After a `stop()`, a call from outside changes nothing here unless it is another `stop()`, which
    adds its own tail. -/
theorem closes_apply (hne : ch.state ≠ .kReady) (hstop : ch.stopRequested = true) {o : Op}
    (hstart : (Act.op o).isStart = false) :
    ch.Closes (ch.apply o) 0 (3 * (Act.op o).isStop.toNat) := by
  cases o with
  | submit owner bytes count =>
    have hunhealthy : (!ch.isHealthy) = true := not_isHealthy_iff.mpr hne
    simp only [apply, submit, hunhealthy, Bool.true_or, if_true]
    exact .nears rfl rfl (Nat.le_add_right _ _)
  | detachOwner owner => exact .nears rfl rfl (Nat.le_add_right _ _)
  | start config => cases hstart
  | stop =>
    simp only [apply, stop]
    rw [failConnection, if_pos hne]
    refine .nears rfl hstop.symm ?_
    simp only [remaining, hstop, List.map_cons, List.sum_cons, Frame.remaining, Act.isStop,
      Bool.toNat_true]
    omega

/-- **What a step does to a channel that is not ready**, if a stop was requested and nobody starts
    it again, or if the step is one of the channel's own and connects when it tries to. -/
theorem closes_step (hl : ch.Life) (ha : ch.Attentive) (hne : ch.state ≠ .kReady) {a : Act}
    (hgo : ch.stopRequested = true ∧ a.isStart = false ∨ a.progresses = true ∧ a.misses = false)
    (hs : ch.step U allow a = some ch') :
    ch.Closes ch' a.progresses.toNat (3 * a.isStop.toNat) := by
  cases a with
  | op o =>
    obtain ⟨hstop, hstart⟩ := hgo.resolve_right fun h => Bool.false_ne_true h.1
    simp only [step] at hs
    split at hs
    · cases hs
      exact closes_apply hne hstop hstart
    · cases hs
  | ret => exact closes_ret hs
  | next o => exact closes_next hs
  | run i io => exact closes_run hl ha hne (hgo.imp And.left And.right) hs
  | reader i io => exact closes_reader hl hne hs

/-! ## 3. A step is always enabled -/

/-- A call on the stack can go on. -/
theorem frames_enabled (hfr : ch.frames ≠ []) :
    ∃ a, a.progresses = true ∧ a.misses = false ∧ (ch.step U allow a).isSome := by
  match hf : ch.frames, hfr with
  | .onReply _ _ :: _, _ | .onFailure _ :: _, _ | .failing _ [] :: _, _ | .stopTail :: _, _ =>
    exact ⟨.ret, rfl, rfl, by simp [step, ret, hf]⟩
  | .failing _ (o :: _) :: _, _ =>
    exact ⟨.next o, rfl, rfl, by simp [step, next, hf]⟩

theorem run_enabled {pc : RunPc} (hfr : ch.frames = []) (hr : ch.runs = [pc]) {io : RunIo}
    (h : (ch.runStep pc io).isSome) : (ch.step U allow (.run 0 io)).isSome := by
  simp [step, runTask, hfr, hr, h]

/-- The reader of a connection that is no longer ready has a step from every place; in a read it is
    the end of the stream. -/
theorem reader_enabled (hfr : ch.frames = []) (hne : ch.state ≠ .kReady) {pc : ReaderPc}
    (hrd : ch.readers = [pc]) :
    ∃ a, a.progresses = true ∧ a.misses = false ∧ (ch.step U allow a).isSome := by
  have hunhealthy : ch.isHealthy = false := by simpa using not_isHealthy_iff.mpr hne
  cases pc with
  | head | leaving =>
    exact ⟨.reader 0 .none, rfl, rfl, by simp [step, readerTask, hfr, hrd, readerStep]⟩
  | reading =>
    exact ⟨.reader 0 (.read .closed), rfl, rfl,
      by simp [step, readerTask, hfr, hrd, readerStep, readSome]⟩
  | parsing =>
    exact ⟨.reader 0 (.parse fun _ => true), rfl, rfl,
      by simp [step, readerTask, hfr, hrd, readerStep, hunhealthy]⟩

/-- A `run()` that is suspended was woken or waits for what has not happened. -/
theorem resume_enabled (ha : ch.Attentive) {pc : RunPc} (hr : ch.runs = [pc])
    (hpc : pc.suspended = true) : ch.writerSignal.resume.isSome ∨ ch.Waiting pc := by
  have hsig := ha.signal
  simp only [hr, List.any_cons, List.any_nil, hpc, Bool.or_false] at hsig
  refine hsig.resume_or_blocked.imp id fun hb => ha.asleep hb pc ?_
  rw [hr]
  exact List.mem_singleton_self pc

/-- **A channel that is neither ready nor stopped has a step of its own.** -/
theorem progress_enabled (hl : ch.Life) (ha : ch.Attentive) (hne : ch.state ≠ .kReady)
    (hst : ch.state ≠ .kStopped) :
    ∃ a, a.progresses = true ∧ a.misses = false ∧ (ch.step U allow a).isSome := by
  by_cases hfr : ch.frames = []
  on_goal 2 => exact frames_enabled hfr
  rcases hl.task with ⟨_, _, hs, _⟩ | ⟨pc, hr, _, hp⟩
  · exact absurd hs hst
  cases pc with
  | loopHead =>
    refine ⟨.run 0 .none, rfl, rfl, run_enabled hfr hr ?_⟩
    simp only [runStep]
    split <;> rfl
  | connecting =>
    refine ⟨.run 0 (.connected true), rfl, rfl, run_enabled hfr hr ?_⟩
    simp only [runStep]
    split <;> rfl
  | writerHead =>
    refine ⟨.run 0 .none, rfl, rfl, run_enabled hfr hr ?_⟩
    simp only [runStep, if_pos (not_isHealthy_iff.mpr hne)]
    rfl
  | writerWait =>
    rcases resume_enabled ha hr rfl with hres | hwait
    · exact ⟨.run 0 .none, rfl, rfl, run_enabled hfr hr (by simpa [runStep] using hres)⟩
    · exact absurd hwait.1 hne
  | writing c =>
    by_cases hoff : c.offer = []
    · exact ⟨.run 0 (.write none), rfl, rfl,
        run_enabled hfr hr (by simp [runStep, writeRound, hoff])⟩
    · -- bytes are left to offer, and the kernel may refuse them
      exact ⟨.run 0 (.write (some (.error "EPIPE"))), rfl, rfl,
        run_enabled hfr hr (by simp [runStep, writeRound, hoff])⟩
  | joinHead =>
    refine ⟨.run 0 .none, rfl, rfl, run_enabled hfr hr ?_⟩
    simp only [runStep]
    split <;> rfl
  | joinWait =>
    rcases resume_enabled ha hr rfl with hres | hwait
    · exact ⟨.run 0 .none, rfl, rfl, run_enabled hfr hr (by simpa [runStep] using hres)⟩
    · -- `run()` waits for the reader, so there is one, and it can go on
      have hsome : ch.readers ≠ [] := fun hnil =>
        Bool.false_ne_true (hwait.symm.trans (hl.done.mpr hnil))
      obtain ⟨rpc, hrd⟩ := List.length_eq_one_iff.mp
        (Nat.le_antisymm hp.2 (List.length_pos_iff.mpr hsome))
      exact reader_enabled hfr hne hrd
  | cleanup | backoff => exact ⟨.run 0 .none, rfl, rfl, run_enabled hfr hr rfl⟩

end Step

/-! ## 4. Every run after a `stop()`, and a way back without one -/

section Reachable

variable {U : UnpackOne} {allow : Owner → Op → Bool} {blockSize : Nat} {hb : 0 < blockSize}

/-- **`stop()` completes.** In every run after a `stop()` in which nobody starts the channel again,
    whatever the owners call meanwhile and in whatever order the tasks run: either the channel has
    come to its end, with no task, no socket and nothing left of the connection, or some step of its
    own is enabled and the steps it has taken so far, with what remains, are at most what
    `remaining` counted at first and three more for each further `stop()`. System calls told to try
    again are no such steps (`Act.progresses`): how often the kernel says so is not bounded. -/
theorem stop_completes {ch ch' : BackendChannel}
    (h : (machine U allow blockSize hb).Reachable ch) (hstop : ch.stopRequested = true)
    {as : List Act} (hok : ∀ a ∈ as, a.isStart = false)
    (hr : (machine U allow blockSize hb).run ch as = some ch') :
    ch'.Finished ∨
      (∃ a, a.progresses = true ∧ (ch'.step U allow a).isSome) ∧
        ch'.remaining + as.countP Act.progresses ≤ ch.remaining + 3 * as.countP Act.isStop := by
  have hunready : ∀ c : BackendChannel, (machine U allow blockSize hb).Reachable c →
      c.stopRequested = true → c.state ≠ .kReady := by
    intro c hc hs
    have hh := halts_reachable hc
    exact hh.unready (hh.flag ▸ hs)
  have hstep : ∀ (s : BackendChannel) a s', (machine U allow blockSize hb).Reachable s →
      a.isStart = false → s.stopRequested = true →
      (machine U allow blockSize hb).step s a = some s' →
      s'.stopRequested = true ∧ (s.runs = [] → s'.runs = []) ∧
        (s'.runs = [] ∨
          s'.remaining + a.progresses.toNat ≤ s.remaining + 3 * a.isStop.toNat) := by
    intro s a s' hs ha hI hstep
    cases closes_step (life_reachable hs) (attentive_reachable hs) (hunready s hs hI)
        (Or.inl ⟨hI, ha⟩) hstep with
    | ready go state =>
      rw [hI] at go
      cases go
    | ended stop stop' runs => exact ⟨stop', fun _ => runs, Or.inl runs⟩
    | nears runs stop less =>
      refine ⟨stop.trans hI, fun hnil => ?_, Or.inr less⟩
      rw [hnil] at runs
      exact List.eq_nil_of_length_eq_zero runs
  have hend := h.run hr
  have hl := life_reachable hend
  by_cases hnil : ch'.runs = []
  · exact Or.inl (hl.finished hnil)
  refine Or.inr ⟨?_, (h.paid hstep hstop hok hr).resolve_left hnil⟩
  have hstop' : ch'.stopRequested = true :=
    h.restricted (I := fun c => c.stopRequested = true) hstop
      (fun s a s' hs ha hI hst => (hstep s a s' hs ha hI hst).1) hok hr
  obtain ⟨a, ha, _, hs⟩ := progress_enabled hl (attentive_reachable hend)
    (hunready ch' hend hstop') (hl.running hnil)
  exact ⟨a, ha, hs⟩

/-- The owner is told of the failure and calls `stop()` once more from its callback. -/
def stopAgain : List Act := [.next 7, .op .stop, .ret, .ret]

theorem stop_completes_stopAgain :
    ∃ ch ch', (machine (fun _ _ _ => ⟨.kNeedMore, 0, none⟩) (fun _ _ => true) 1 (by decide)).run
        (init 1 (by decide)) stopWhileWriting = some ch ∧ ch.remaining = 23 ∧
      (machine (fun _ _ _ => ⟨.kNeedMore, 0, none⟩) (fun _ _ => true) 1 (by decide)).run
        ch stopAgain = some ch' ∧ ¬ ch'.Finished ∧ ch'.remaining + 3 ≤ 23 + 3 * 1 ∧
      ∃ a, a.progresses = true ∧
        (ch'.step (fun _ _ _ => ⟨.kNeedMore, 0, none⟩) (fun _ _ => true) a).isSome := by
  have hruns :
      ((machine (fun _ _ _ => ⟨.kNeedMore, 0, none⟩) (fun _ _ => true) 1 (by decide)).run
        (init 1 (by decide)) stopWhileWriting).bind (fun ch =>
          ((machine (fun _ _ _ => ⟨.kNeedMore, 0, none⟩) (fun _ _ => true) 1 (by decide)).run
            ch stopAgain).map fun ch' => (ch.stopRequested, ch.remaining, ch'.runs.length)) =
        some (true, 23, 1) := by decide +kernel
  obtain ⟨ch, hrun, hrest⟩ := Option.bind_eq_some_iff.mp hruns
  obtain ⟨ch', hagain, he⟩ := Option.map_eq_some_iff.mp hrest
  simp only [Prod.mk.injEq] at he
  obtain ⟨hstop, hremaining, hlen⟩ := he
  have hopen : ¬ ch'.Finished := by
    intro hf
    rw [hf.runs] at hlen
    cases hlen
  obtain ⟨hstep, hle⟩ := (stop_completes (Machine.reachable_of_run hrun) hstop (by decide)
    hagain).resolve_left hopen
  rw [hremaining] at hle
  exact ⟨ch, ch', hrun, hremaining, hagain, hopen, hle, hstep⟩

/-- **A channel nobody stopped finds its way back.** Wherever it stands, in the middle of a failure
    or of a reconnect, its own steps lead it to a ready connection once an attempt to connect
    succeeds: no owner has to do anything for it. -/
theorem recovers {ch : BackendChannel} (h : (machine U allow blockSize hb).Reachable ch)
    (hgo : ch.stopRequested = false) (hst : ch.state ≠ .kStopped) :
    ∃ as ch', (∀ a ∈ as, a.progresses = true ∧ a.misses = false) ∧
      (machine U allow blockSize hb).run ch as = some ch' ∧ ch'.isHealthy = true := by
  refine h.descend (I := fun c => c.stopRequested = false ∧ c.runs ≠ []) (r := remaining)
    (fun s hs hI hD => ?_) ⟨hgo, fun hnil => ?_⟩
  · have hl := life_reachable hs
    have hne : s.state ≠ .kReady := fun hr => hD (isHealthy_iff.mpr hr)
    obtain ⟨a, ha, hm, hsome⟩ :
        ∃ a : Act, a.progresses = true ∧ a.misses = false ∧ (s.step U allow a).isSome :=
      progress_enabled hl (attentive_reachable hs) hne (hl.running hI.2)
    obtain ⟨s', hs'⟩ := Option.isSome_iff_exists.mp hsome
    refine ⟨a, s', ⟨ha, hm⟩, hs', ?_⟩
    cases closes_step hl (attentive_reachable hs) hne (Or.inr ⟨ha, hm⟩) hs' with
    | ready go state => exact Or.inl (isHealthy_iff.mpr state)
    | ended stop stop' runs =>
      rw [hI.1] at stop
      cases stop
    | nears runs stop less =>
      have hop : a.isStop = false := by
        cases a with
        | op o => cases ha
        | ret | next o | run i io | reader i io => rfl
      rw [ha, hop, Bool.toNat_true, Bool.toNat_false] at less
      refine Or.inr ⟨⟨stop.trans hI.1, fun hnil => hI.2 ?_⟩, by omega⟩
      rw [hnil] at runs
      exact List.eq_nil_of_length_eq_zero runs.symm
  · exact hst ((life_reachable h).finished hnil).state

/-- A connection with a batch in flight, closed by its peer. -/
def brokenWhileWriting : List Act :=
  [.op (.start {}), .run 0 .none, .run 0 (.connected true),
    .op (.submit 7 (.ofSlices [[1, 2]]) 1), .run 0 .none, .reader 0 .none,
    .reader 0 (.read .closed)]

theorem recovers_brokenWhileWriting :
    ∃ ch, (machine (fun _ _ _ => ⟨.kNeedMore, 0, none⟩) (fun _ _ => true) 1 (by decide)).run
        (init 1 (by decide)) brokenWhileWriting = some ch ∧ ch.isHealthy = false ∧
      ∃ as ch', (∀ a ∈ as, a.progresses = true ∧ a.misses = false) ∧
        (machine (fun _ _ _ => ⟨.kNeedMore, 0, none⟩) (fun _ _ => true) 1 (by decide)).run
          ch as = some ch' ∧ ch'.isHealthy = true := by
  have hrun : (machine (fun _ _ _ => ⟨.kNeedMore, 0, none⟩) (fun _ _ => true) 1 (by decide)).run
      (init 1 (by decide)) brokenWhileWriting = some _ := rfl
  exact ⟨_, hrun, rfl, recovers (Machine.reachable_of_run hrun) rfl nofun⟩

end Reachable

end BackendChannel

end RedisProxy
