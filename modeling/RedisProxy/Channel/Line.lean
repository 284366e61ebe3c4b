/-
  File:      RedisProxy/Channel/Line.lean
  Subject:   THE LINE, the channel without its coroutines, and that the channel refines it.

  A `Line` is what a channel is to its owners and to Redis: the two queues, the bytes still to
  be written of the batch at work, the bytes received and not yet parsed, the stack of
  callbacks and the history. `Line.Step` is everything that can happen on it; nothing in it
  speaks of signals, task places, buffers or parsers.

  `step_line` is the refinement: every step of the channel's machine is a (possibly empty) run
  of line steps. What is proved of every line step (modules Ledger, Delivery, Outcome and
  Stream) therefore holds of every run of the code. `submit_noted` and `step_noting` tie the
  history to the calls: a `submit` that returns true is in it, and nothing else is that looks
  like one.
-/
import RedisProxy.Channel.Lifecycle
import Mathlib.Logic.Relation

namespace RedisProxy

open BackendChannel

/-! ## 1. The line -/

/-- What the `run()` task is doing with the socket. -/
inductive LineTask where
  | idle
  | dialing
  | writing (rest : Bytes)

structure Line where
  ready : Bool
  conn : Nat
  task : LineTask
  writeQueue : List RequestBatch
  pendingQueue : List PendingBatch
  queued : Nat
  unparsed : Bytes
  frames : List Frame
  trace : List Event

namespace Line

def init : Line := ⟨false, 0, .idle, [], [], 0, [], [], []⟩

/-- The owners with something outstanding, each once. -/
def owners (l : Line) : List Owner :=
  (l.writeQueue.map (·.owner) ++ l.pendingQueue.filterMap (·.owner)).dedup

/-- A batch is queued, numbered by how much has happened. -/
def submit (l : Line) (o : Owner) (bytes : BufferChain) (count : Nat) : Line :=
  { l with
    writeQueue := l.writeQueue ++ [⟨o, bytes, count, l.trace.length⟩]
    queued := l.queued + count
    trace := .submitted l.conn l.trace.length o bytes.bytes count :: l.trace }

/-- The first queued batch is started. -/
def take (l : Line) (b : RequestBatch) (q : List RequestBatch) : Line :=
  { l with
    writeQueue := q
    pendingQueue := l.pendingQueue ++ [⟨some b.owner, b.commandCount, b.id, b.owner, 0⟩]
    task := .writing b.bytes.bytes
    trace := .taken l.conn b.id b.owner b.bytes.bytes b.commandCount :: l.trace }

/-- The connection is given up: nothing stays queued, the owners are to be told. -/
def fail (l : Line) (st : Status) : Line :=
  { l with
    ready := false
    frames := .failing st l.owners :: l.frames
    writeQueue := []
    pendingQueue := []
    queued := 0
    trace := .failed l.conn st :: l.trace }

/-- An owner leaves: its unstarted batches vanish, its started ones keep their place. -/
def detach (l : Line) (o : Owner) : Line :=
  { l with
    writeQueue := l.writeQueue.filter (·.owner ≠ o)
    queued := l.queued - ((l.writeQueue.filter (·.owner = o)).map (·.commandCount)).sum
    pendingQueue := l.pendingQueue.map fun p =>
      if p.owner = some o then { p with owner := none } else p
    trace := .detached o :: l.trace }

/-- The first owed reply arrives. -/
def answer (l : Line) (p : PendingBatch) (q : List PendingBatch) (r : BufferChain)
    (rest : Bytes) : Line :=
  { l with
    pendingQueue :=
      if p.remainingReplies - 1 = 0 then q
      else { p with remainingReplies := p.remainingReplies - 1, answered := p.answered + 1 } :: q
    queued := l.queued - 1
    unparsed := rest
    frames := (p.owner.map fun o => .onReply o r).toList ++ l.frames
    trace := .replied l.conn r.bytes p.owner :: l.trace }

theorem frames_answer (l : Line) (p : PendingBatch) (q : List PendingBatch) (r : BufferChain)
    (rest : Bytes) :
    (l.answer p q r rest).frames = (p.owner.map fun o => .onReply o r).toList ++ l.frames := rfl

/-- What comes to a line from its owners: a call of the interface, the return of a callback. -/
inductive Outside where
  | call (o : Op)
  | ret

/-- **One step of a line**; `may` says what its owners do, and with what on the stack. -/
inductive Step (may : List Frame → Outside → Prop) : Line → Line → Prop where
  | submit {l : Line} (o : Owner) (bytes : BufferChain) (count : Nat) (ready : l.ready = true)
      (pos : count ≠ 0) (call : may l.frames (.call (.submit o bytes count))) :
      Step may l (l.submit o bytes count)
  | detach {l : Line} (o : Owner) (call : may l.frames (.call (.detachOwner o))) :
      Step may l (l.detach o)
  | start {l : Line} (ready : l.ready = false) :
      Step may l { l with trace := .started :: l.trace }
  | stop {l : Line} (call : may l.frames (.call .stop)) :
      Step may l { l with frames := .stopTail :: l.frames, trace := .stopped :: l.trace }
  | fail {l : Line} (st : Status) (ready : l.ready = true)
      (frames : l.frames = [] ∨ ∃ fs, l.frames = .stopTail :: fs) : Step may l (l.fail st)
  | take {l : Line} (b : RequestBatch) (q : List RequestBatch) (frames : l.frames = [])
      (ready : l.ready = true) (task : l.task = .idle) (queue : l.writeQueue = b :: q) :
      Step may l (l.take b q)
  | wrote {l : Line} (bs rest : Bytes) (frames : l.frames = [])
      (task : l.task = .writing (bs ++ rest)) :
      Step may l { l with task := .writing rest, trace := .wrote l.conn bs :: l.trace }
  | wroteAll {l : Line} (task : l.task = .writing []) : Step may l { l with task := .idle }
  | gaveUp {l : Line} (ready : l.ready = false) : Step may l { l with task := .idle }
  | received {l : Line} (bs : Bytes) (frames : l.frames = []) (task : l.task ≠ .dialing) :
      Step may l { l with
        unparsed := l.unparsed ++ bs, trace := .received l.conn bs :: l.trace }
  | answer {l : Line} (p : PendingBatch) (q : List PendingBatch) (r : BufferChain) (rest : Bytes)
      (frames : l.frames = []) (ready : l.ready = true) (queue : l.pendingQueue = p :: q)
      (input : l.unparsed = r.bytes ++ rest) : Step may l (l.answer p q r rest)
  | stray {l : Line} (f rest : Bytes) (st : Status) (frames : l.frames = [])
      (ready : l.ready = true) (queue : l.pendingQueue = []) (input : l.unparsed = f ++ rest) :
      Step may l ({ l with unparsed := rest, trace := .stray l.conn f :: l.trace }.fail st)
  | dial {l : Line} (frames : l.frames = []) (ready : l.ready = false) (input : l.unparsed = []) :
      Step may l { l with conn := l.conn + 1, task := .dialing }
  | connect {l : Line} (frames : l.frames = []) (task : l.task = .dialing)
      (input : l.unparsed = []) :
      Step may l { l with
        ready := true, task := .idle, trace := .connected l.conn :: l.trace }
  | clear {l : Line} (frames : l.frames = []) (ready : l.ready = false) :
      Step may l { l with unparsed := [] }
  | call {l : Line} (st : Status) (o : Owner) (todo : List Owner) (fs : List Frame)
      (frames : l.frames = .failing st todo :: fs) (mem : o ∈ todo) :
      Step may l { l with
        frames := .onFailure o :: .failing st (todo.erase o) :: fs
        trace := .failure l.conn o :: l.trace }
  | ret {l : Line} (f : Frame) (fs : List Frame) (frames : l.frames = f :: fs)
      (idle : ∀ st o todo, f ≠ .failing st (o :: todo))
      (back : f.isCallback = true → may l.frames .ret) : Step may l { l with frames := fs }

/-- A run of line steps. -/
abbrev Steps (may : List Frame → Outside → Prop) : Line → Line → Prop :=
  Relation.ReflTransGen (Step may)

/-- Submissions and detachments among new events are calls that `may` has. -/
def Noted (may : List Frame → Outside → Prop) (new : List Event) : Prop :=
  (∀ n id o bytes count, .submitted n id o bytes count ∈ new →
    ∃ fs chain, may fs (.call (.submit o chain count)) ∧ chain.bytes = bytes) ∧
  (∀ o, .detached o ∈ new → ∃ fs, may fs (.call (.detachOwner o)))

theorem Noted.append {may : List Frame → Outside → Prop} {new new' : List Event}
    (h : Noted may new) (h' : Noted may new') : Noted may (new' ++ new) := by
  refine ⟨fun n id o bytes count hmem => ?_, fun o hmem => ?_⟩
  · exact (List.mem_append.mp hmem).elim (h'.1 n id o bytes count) (h.1 n id o bytes count)
  · exact (List.mem_append.mp hmem).elim (h'.2 o) (h.2 o)

/-- The events of a step that is no call. -/
theorem noted_of_none {may : List Frame → Outside → Prop} {new : List Event}
    (hsub : ∀ n id o bytes count, .submitted n id o bytes count ∉ new)
    (hdet : ∀ o, .detached o ∉ new) : Noted may new :=
  ⟨fun n id o bytes count hmem => absurd hmem (hsub n id o bytes count),
    fun o hmem => absurd hmem (hdet o)⟩

/-- A line step notes a submission or a detachment only if it is that call. -/
theorem Step.noted {may : List Frame → Outside → Prop} {l l' : Line} (h : Step may l l') :
    ∃ new, l'.trace = new ++ l.trace ∧ Noted may new := by
  cases h with
  | submit o bytes count _ _ call =>
    refine ⟨[_], rfl, fun n id o' bytes' count' hmem => ?_, by simp⟩
    cases List.mem_singleton.mp hmem
    exact ⟨_, bytes, call, rfl⟩
  | detach o call =>
    refine ⟨[_], rfl, by simp, fun o' hmem => ?_⟩
    cases List.mem_singleton.mp hmem
    exact ⟨_, call⟩
  | stray => exact ⟨[_, _], rfl, noted_of_none (by simp) (by simp)⟩
  | wroteAll | gaveUp | dial | clear | ret => exact ⟨[], rfl, noted_of_none nofun nofun⟩
  | start | stop | fail | take | wrote | received | answer | connect | call =>
    exact ⟨[_], rfl, noted_of_none (by simp) (by simp)⟩

theorem Steps.noted {may : List Frame → Outside → Prop} {l l' : Line} (h : Steps may l l') :
    ∃ new, l'.trace = new ++ l.trace ∧ Noted may new := by
  induction h with
  | refl => exact ⟨[], rfl, noted_of_none nofun nofun⟩
  | tail _ hstep ih =>
    obtain ⟨new, hnew, hn⟩ := ih
    obtain ⟨new', hnew', hn'⟩ := hstep.noted
    exact ⟨new' ++ new, by rw [hnew', hnew, List.append_assoc], hn.append hn'⟩

/-- The history only grows. -/
theorem Steps.history {may : List Frame → Outside → Prop} {l l' : Line} (h : Steps may l l') :
    l.trace <:+ l'.trace := by
  obtain ⟨new, hnew, _⟩ := h.noted
  exact ⟨new, hnew.symm⟩

/-- What there is when owners do in their callbacks what `allow` lets them. -/
def Calls (allow : Owner → Op → Bool) (fs : List Frame) : Outside → Prop
  | .call o => mayCall allow fs o = true
  | .ret => True

/-- What there is in a step without the owners: nothing but `stop()` at a scheduling point. -/
def Own (fs : List Frame) : Outside → Prop
  | .call o => fs = [] ∧ o = .stop
  | .ret => False

end Line

/-! ## 2. The line of a channel -/

namespace BackendChannel

/-- What a `run()` task at a place does with the socket. -/
def RunPc.lineTask : RunPc → LineTask
  | .connecting => .dialing
  | .writing c => .writing c.rest
  | _ => .idle

def lineTask (ch : BackendChannel) : LineTask :=
  match ch.runs with
  | [pc] => RunPc.lineTask pc
  | _ => .idle

def line (ch : BackendChannel) : Line where
  ready := ch.isHealthy
  conn := ch.conn
  task := ch.lineTask
  writeQueue := ch.writeQueue
  pendingQueue := ch.pendingQueue
  queued := ch.queuedCommands
  unparsed := ch.redisIn.content
  frames := ch.frames
  trace := ch.trace

/-! ## 3. The refinement -/

theorem detachWrites_eq (o : Owner) (q : List RequestBatch) (n : Nat) :
    detachWrites o q n =
      (q.filter (·.owner ≠ o), n - ((q.filter (·.owner = o)).map (·.commandCount)).sum) := by
  induction q generalizing n with
  | nil => rfl
  | cons b q ih =>
    unfold detachWrites
    by_cases hb : b.owner = o
    · rw [if_pos hb, ih]
      simp [hb, Nat.sub_sub]
    · rw [if_neg hb, ih]
      simp [hb]

theorem line_detachOwner (ch : BackendChannel) (o : Owner) :
    (ch.detachOwner o).line = ch.line.detach o := by
  simp only [line, detachOwner, detachWrites_eq, Line.detach]
  rfl

/-- The batch a ready channel takes is queued on its line. -/
theorem line_submit {ch : BackendChannel} (h : ch.isHealthy = true) (o : Owner)
    (bytes : BufferChain) {count : Nat} (hc : count ≠ 0) :
    (ch.submit o bytes count).2.line = ch.line.submit o bytes count := by
  simp only [submit, h, Bool.not_true, Bool.false_or, beq_iff_eq, hc, if_false]
  rfl

/-- The history of the channel notes it. -/
theorem trace_submit {ch : BackendChannel} (h : ch.isHealthy = true) (o : Owner)
    (bytes : BufferChain) {count : Nat} (hc : count ≠ 0) : (ch.submit o bytes count).2.trace =
      .submitted ch.conn ch.trace.length o bytes.bytes count :: ch.trace :=
  congrArg Line.trace (line_submit h o bytes hc)

theorem line_task {ch : BackendChannel} {pc : RunPc} (hr : ch.runs = [pc]) :
    ch.line.task = RunPc.lineTask pc := by
  simp only [line, lineTask, hr]

/-- The place of `run()` matters to the line only for what it does with the socket. -/
theorem line_moved {ch : BackendChannel} {pc : RunPc} (hr : ch.runs = [pc]) (pc' : RunPc)
    (s : CoroutineSignal) (ht : RunPc.lineTask pc' = RunPc.lineTask pc) :
    ({ ch with writerSignal := s, runs := [pc'] } : BackendChannel).line = ch.line := by
  simp only [line, lineTask, hr, ht]
  rfl

section Refinement

variable {may : List Frame → Line.Outside → Prop} {allow : Owner → Op → Bool} {U : UnpackOne}

theorem Life.runs_of_stopped {ch : BackendChannel} (h : ch.Life) (hs : ch.state = .kStopped) :
    ch.runs = [] := by
  rcases h.task with ⟨hr, _⟩ | ⟨_, _, hne, _⟩
  · exact hr
  · exact absurd hs hne

theorem steps_failConnection (ch : BackendChannel) (st : Status)
    (hf : ch.frames = [] ∨ ∃ fs, ch.frames = .stopTail :: fs) :
    Line.Steps may ch.line (ch.failConnection st).line := by
  unfold failConnection
  split
  · exact .refl
  · rename_i hs
    have hready : ch.line.ready = true := isHealthy_iff.mpr (Classical.not_not.mp hs)
    exact .single (.fail st hready hf)

theorem steps_apply {ch : BackendChannel} (h : ch.Life) {o : Op} (hc : may ch.frames (.call o)) :
    Line.Steps may ch.line (ch.apply o).line := by
  cases o with
  | submit owner bytes count =>
    simp only [apply, submit]
    split
    · exact .refl
    · rename_i hok
      have hok : ch.isHealthy = true ∧ count ≠ 0 := by simpa [Bool.or_eq_true, not_or] using hok
      exact .single (.submit owner bytes count hok.1 hok.2 hc)
  | detachOwner owner =>
    have hd : Line.Step may ch.line (ch.line.detach owner) := .detach owner hc
    rw [← line_detachOwner] at hd
    exact .single hd
  | start config =>
    simp only [apply, start]
    split
    · exact .refl
    · rename_i hs
      have hs : ch.state = .kStopped := by simpa [isStopped] using hs
      have hready : ch.line.ready = false := by simp [line, isHealthy, hs]
      have hr : ch.runs = [] := h.runs_of_stopped hs
      refine .single ?_
      convert Line.Step.start hready using 1
      simp only [line, lineTask, hr, List.nil_append, RunPc.lineTask, isHealthy, hs]
      rfl
  | stop =>
    refine .head (.stop hc) ?_
    exact steps_failConnection { ch with
      stopRequested := true, frames := .stopTail :: ch.frames, trace := .stopped :: ch.trace }
      _ (Or.inr ⟨_, rfl⟩)

section Places

variable {ch : BackendChannel} {io : RunIo} {x : BackendChannel × Option RunPc}

/-- A step that only moves the task, between places that are one to the line. -/
theorem steps_moved {pc : RunPc} (hr : ch.runs = [pc]) (s : CoroutineSignal) (pc' : RunPc)
    (hx : x = ({ ch with writerSignal := s }, some pc'))
    (ht : RunPc.lineTask pc' = RunPc.lineTask pc) : Line.Steps may ch.line (ran x).line := by
  subst hx
  rw [ran, moveTask_some hr, line_moved hr pc' s ht]

/-- A wait for the signal, at the head of the writer's loop and of the join. -/
theorem steps_waitWriter {pc head wait : RunPc} (hr : ch.runs = [pc])
    (hhead : RunPc.lineTask head = RunPc.lineTask pc)
    (hwait : RunPc.lineTask wait = RunPc.lineTask pc) :
    Line.Steps may ch.line (ran (ch.waitWriter head wait)).line := by
  obtain ⟨s, pc', he, hpc⟩ := waitWriter_eq ch head wait
  refine steps_moved hr s pc' he ?_
  rcases hpc with rfl | rfl
  · exact hhead
  · exact hwait

/-- The head of the connect loop: the task ends, dials, or has no socket to dial with. -/
theorem steps_loopHead (hr : ch.runs = [.loopHead]) (hfr : ch.frames = [])
    (hp : ch.Phase .loopHead) (hx : ch.runStep .loopHead io = some x) :
    Line.Steps may ch.line (ran x).line := by
  have hfalse : ch.isHealthy = false := by simpa [isHealthy] using hp.2.1
  simp only [runStep] at hx
  split at hx
  · cases hx
    have hline : ch.line = ({ ch with state := .kStopped, runs := [] } : BackendChannel).line := by
      simp only [line, lineTask, hr, hfalse]
      rfl
    rw [hline, ran, ← moveTask_none hr]
  · split at hx
    · cases hx
      refine .single ?_
      convert Line.Step.dial hfr (show ch.line.ready = false from hfalse) hp.2.2.2 using 1
      simp only [ran, moveTask_some hr, line, hfalse]
      rfl
    · cases hx
      have hline : ch.line =
          ({ ch with state := .kConnecting, runs := [.cleanup] } : BackendChannel).line := by
        simp only [line, lineTask, hr, hfalse]
        rfl
      rw [hline, ran, ← moveTask_some hr]
    · cases hx

/-- The connect returns: the line is ready, or the dialing is given up. -/
theorem steps_connecting (hr : ch.runs = [.connecting]) (hfr : ch.frames = [])
    (hp : ch.Phase .connecting) (hx : ch.runStep .connecting io = some x) :
    Line.Steps may ch.line (ran x).line := by
  cases io <;> simp only [runStep] at hx <;> try cases hx
  split at hx
  · cases hx
    refine .single ?_
    convert Line.Step.connect hfr (line_task hr) hp.2.2 using 1
    simp only [ran, moveTask_some hr]
    rfl
  · cases hx
    have hready : ch.line.ready = false := by simpa [line, isHealthy] using hp.2.1
    refine .single ?_
    convert Line.Step.gaveUp hready using 1
    simp only [ran, moveTask_some hr]
    rfl

/-- The head of the writer's loop: it leaves, waits, or takes the first batch. -/
theorem steps_writerHead (hr : ch.runs = [.writerHead]) (hfr : ch.frames = [])
    (hx : ch.runStep .writerHead io = some x) : Line.Steps may ch.line (ran x).line := by
  cases io <;> simp only [runStep] at hx <;> try cases hx
  split at hx
  · cases hx
    exact steps_moved hr ch.writerSignal _ rfl rfl
  · rename_i hh
    have hready : ch.line.ready = true := by simpa [line] using hh
    split at hx
    · cases hx
      exact steps_waitWriter hr rfl rfl
    · rename_i b q hq
      cases hx
      refine .single ?_
      convert Line.Step.take b q hfr hready (line_task hr) hq using 1
      simp only [ran, moveTask_some hr, line, lineTask, RunPc.lineTask, WriteCursor.rest_start]
      rfl

/-- The writer's call into the kernel: more of the batch is out, all of it, or it failed. -/
theorem steps_writing {c : WriteCursor} (hr : ch.runs = [.writing c]) (hfr : ch.frames = [])
    (hx : ch.runStep (.writing c) io = some x) : Line.Steps may ch.line (ran x).line := by
  have htask := line_task hr
  rcases io with _ | _ | _ | o <;> simp only [runStep] at hx <;> try cases hx
  obtain ⟨w, hw, rfl⟩ := Option.map_eq_some_iff.mp hx
  cases w with
  | running c' =>
    have hrest : ch.line.task = .writing (c.accepted o ++ c'.rest) := by
      rw [htask, writeRound_running hw]
      rfl
    refine .single ?_
    convert Line.Step.wrote _ _ hfr hrest using 1
    simp only [ran, moveTask_some hr]
    rfl
  | returned st =>
    obtain ⟨_, hst⟩ := writeRound_returned hw
    dsimp only
    split
    · rename_i hok
      have hdone : ch.line.task = .writing [] := by
        rw [htask, ← hst.mp hok]
        rfl
      refine .single ?_
      convert Line.Step.wroteAll hdone using 1
      simp only [ran, moveTask_some hr]
      rfl
    · obtain ⟨_, hruns, hnr⟩ := failConnection_fields ch st
      have hready : (ch.failConnection st).line.ready = false := by
        simpa [line, isHealthy] using hnr
      refine (steps_failConnection ch st (Or.inl hfr)).tail ?_
      convert Line.Step.gaveUp hready using 1
      simp only [ran, moveTask_some (hruns.trans hr)]
      rfl

/-- The join of the reader: over, or waiting. -/
theorem steps_joinHead (hr : ch.runs = [.joinHead]) (hx : ch.runStep .joinHead io = some x) :
    Line.Steps may ch.line (ran x).line := by
  cases io <;> simp only [runStep] at hx <;> try cases hx
  split at hx
  · cases hx
    exact steps_moved hr ch.writerSignal _ rfl rfl
  · cases hx
    exact steps_waitWriter hr rfl rfl

/-- The clean-up drops what was not parsed. -/
theorem steps_cleanup (hr : ch.runs = [.cleanup]) (hfr : ch.frames = [])
    (hp : ch.Phase .cleanup) (hx : ch.runStep .cleanup io = some x) :
    Line.Steps may ch.line (ran x).line := by
  cases io <;> simp only [runStep] at hx <;> try cases hx
  have hready : ch.line.ready = false := by simpa [line, isHealthy] using hp.2
  refine .single ?_
  convert Line.Step.clear hfr hready using 1
  have ht : RunPc.lineTask (if ch.stopRequested then .loopHead else .backoff) = .idle := by
    split <;> rfl
  simp only [ran, moveTask_some hr]
  simp only [line, lineTask, ht, hr, Buffer.content_clear]
  rfl

end Places

/-- A step of the `run()` task is a run of line steps, from each place it may stand at. -/
theorem steps_runTask {ch ch' : BackendChannel} (h : ch.Life) {i : Nat} {io : RunIo}
    (hs : ch.runTask i io = some ch') : Line.Steps may ch.line ch'.line := by
  unfold runTask at hs
  split at hs
  on_goal 2 => cases hs
  rename_i pc hfr hi
  obtain ⟨x, hx, rfl⟩ := Option.map_eq_some_iff.mp hs
  obtain ⟨rfl, hr, _, hp⟩ := h.run_of_get hi
  cases pc with
  | loopHead => exact steps_loopHead hr hfr hp hx
  | connecting => exact steps_connecting hr hfr hp hx
  | writerHead => exact steps_writerHead hr hfr hx
  | writerWait | joinWait =>
    cases io <;> simp only [runStep] at hx <;> try cases hx
    obtain ⟨s, _, rfl⟩ := Option.map_eq_some_iff.mp hx
    exact steps_moved hr s _ rfl rfl
  | writing c => exact steps_writing hr hfr hx
  | joinHead => exact steps_joinHead hr hx
  | cleanup => exact steps_cleanup hr hfr hp hx
  | backoff =>
    cases io <;> simp only [runStep] at hx <;> cases hx
    exact steps_moved hr ch.writerSignal _ rfl rfl

theorem steps_dispatchReply (ch : BackendChannel) {reply : BufferChain} {input : Bytes}
    (hfr : ch.frames = []) (hs : ch.state = .kReady)
    (hin : input = reply.bytes ++ ch.redisIn.content) :
    Line.Steps may { ch.line with unparsed := input } (ch.dispatchReply reply).line := by
  have hready : ch.line.ready = true := isHealthy_iff.mpr hs
  unfold dispatchReply
  split
  · rename_i hq
    refine .single ?_
    convert Line.Step.stray (l := { ch.line with unparsed := input }) reply.bytes
      ch.redisIn.content (.protocolError "unexpected redis reply") hfr hready hq hin using 1
    simp only [failConnection, hs]
    rfl
  · rename_i p q hq
    exact .single (.answer (l := { ch.line with unparsed := input }) p q reply ch.redisIn.content
      hfr hready hq hin)

/-- The line has no reader. -/
theorem line_readers (ch : BackendChannel) (rs : List ReaderPc) :
    ({ ch with readers := rs } : BackendChannel).line = ch.line := rfl

theorem steps_readerTask {ch ch' : BackendChannel} (h : ch.Life) {i : Nat} {io : ReaderIo}
    (hs : ch.readerTask U i io = some ch') : Line.Steps may ch.line ch'.line := by
  unfold readerTask at hs
  split at hs
  on_goal 2 => cases hs
  rename_i pc hfr hi
  obtain ⟨x, hx, rfl⟩ := Option.map_eq_some_iff.mp hs
  obtain ⟨rfl, hrd, rpc, hr, hst, hp, hcase⟩ := h.reader_of_get hi
  rw [line_readers]
  have hdial : ch.line.task ≠ .dialing := by
    rw [line_task hr]
    rcases hcase with rfl | rfl | ⟨c, rfl⟩ | rfl | rfl <;> nofun
  cases pc with
  | head | leaving =>
    cases io <;> simp only [readerStep] at hx <;> cases hx
    exact .refl
  | reading =>
    cases io with
    | none | parse _ => cases hx
    | read o =>
      obtain ⟨⟨st, b⟩, hread, rfl⟩ := Option.map_eq_some_iff.mp hx
      have hcontent := content_readSome hread
      -- the bytes read are behind what was unparsed
      cases st with
      | none =>
        have hb : o.bytes = [] := bytes_of_again hread
        have hline : ch.line = ({ ch with redisIn := b } : BackendChannel).line := by
          simp only [line, hcontent, hb, List.append_nil]
          rfl
        rw [hline]
        exact .refl
      | some st =>
        have hrecv : Line.Steps may ch.line ({ ch with
            redisIn := b, trace := .received ch.conn o.bytes :: ch.trace } : BackendChannel).line := by
          refine .single ?_
          convert Line.Step.received o.bytes hfr hdial using 1
          simp only [line, hcontent]
          rfl
        dsimp only
        repeat' split
        · exact hrecv
        · exact hrecv.trans (steps_failConnection _ st (Or.inl hfr))
        · exact hrecv
  | parsing =>
    cases io with
    | none | read _ => cases hx
    | parse alloc =>
      simp only [readerStep] at hx
      split at hx
      · cases hx
        exact .refl
      · rename_i hh
        have hready : ch.state = .kReady := by simpa [isHealthy] using hh
        obtain ⟨⟨ps, chain, parser, b⟩, hnext, rfl⟩ := Option.map_eq_some_iff.mp hx
        have hline : b.content = ch.redisIn.content →
            ch.line = ({ ch with replyParser := parser, redisIn := b } : BackendChannel).line := by
          intro hb
          simp only [line, hb]
          rfl
        cases chain with
        | none =>
          obtain ⟨hps, hb⟩ := RespParser.nextReplyFrame_none hnext
          dsimp only
          split
          · rw [hline hb]
            exact .refl
          · rename_i heq
            cases heq
          · rw [hline hb]
            exact steps_failConnection _ _ (Or.inl hfr)
        | some reply =>
          obtain ⟨rfl, hb⟩ := RespParser.nextReplyFrame_some hnext
          exact steps_dispatchReply { ch with replyParser := parser, redisIn := b } hfr hready hb

/-- A call returns; `may` is asked if it is one of an owner. -/
theorem steps_ret {may : List Frame → Line.Outside → Prop} {ch ch' : BackendChannel}
    (hs : ch.ret = some ch')
    (back : ∀ f fs, ch.frames = f :: fs → f.isCallback = true → may ch.frames .ret) :
    Line.Steps may ch.line ch'.line := by
  unfold ret at hs
  split at hs <;> cases hs <;> rename_i hfr <;>
    exact .single (.ret _ _ hfr (fun _ _ _ heq => by cases heq) (back _ _ hfr))

/-- `failConnection` calls the next owner. -/
theorem steps_next {may : List Frame → Line.Outside → Prop} {ch ch' : BackendChannel} {o : Owner}
    (hs : ch.next o = some ch') : Line.Steps may ch.line ch'.line := by
  unfold next at hs
  split at hs
  · rename_i st todo fs hfr
    split at hs
    · rename_i hmem
      cases hs
      exact .single (.call st o todo fs hfr hmem)
    · cases hs
  · cases hs

/-- **The channel refines the line**: every step of the channel's machine is a run of line
    steps, in which the owners do what the action is. -/
theorem step_line_of {ch ch' : BackendChannel} {a : Act} (h : ch.Life)
    (hs : ch.step U allow a = some ch')
    (hcall : ∀ o, a = .op o → mayCall allow ch.frames o = true → may ch.frames (.call o))
    (hret : may ch.frames .ret) : Line.Steps may ch.line ch'.line := by
  cases a with
  | op o =>
    simp only [step] at hs
    split at hs
    · rename_i hc
      cases hs
      exact steps_apply h (hcall o rfl hc)
    · cases hs
  | ret => exact steps_ret hs fun _ _ _ _ => hret
  | next o => exact steps_next hs
  | run i io => exact steps_runTask h hs
  | reader i io => exact steps_readerTask h hs

theorem step_line {ch ch' : BackendChannel} {a : Act} (h : ch.Life)
    (hs : ch.step U allow a = some ch') : Line.Steps (Line.Calls allow) ch.line ch'.line :=
  step_line_of h hs (fun _ _ hc => hc) trivial

/-- What holds of the first line and is kept by every line step holds of every reachable
    channel. -/
theorem line_invariant {blockSize : Nat} {hb : 0 < blockSize} {I : Line → Prop} (h0 : I Line.init)
    (hI : ∀ l l', I l → Line.Step (Line.Calls allow) l l' → I l') {ch : BackendChannel}
    (h : (machine U allow blockSize hb).Reachable ch) : I ch.line := by
  refine h.invariant (I := fun ch => I ch.line) h0 fun ch a ch' hr hi hs => ?_
  have hsteps := step_line (life_reachable hr) hs
  generalize ch'.line = l' at hsteps
  induction hsteps with
  | refl => exact hi
  | tail _ hstep ih => exact hI _ _ ih hstep

end Refinement

/-! ## 4. The calls in the history -/

section Noting

variable {U : UnpackOne} {allow : Owner → Op → Bool} {ch ch' : BackendChannel} {a : Act}

/-- What a step says of the calls: a submission is noted only by a `submit` that returns true,
    a detachment only by `detachOwner`. -/
def Noting (ch : BackendChannel) (a : Act) (ch' : BackendChannel) : Prop :=
  ∃ new, ch'.trace = new ++ ch.trace ∧
    (∀ n id o bytes count, .submitted n id o bytes count ∈ new → ∃ chain,
      a = .op (.submit o chain count) ∧ (ch.submit o chain count).1 = true ∧
        chain.bytes = bytes) ∧
    (∀ o, .detached o ∈ new → a = .op (.detachOwner o))

/-- A refused batch leaves the channel as it is. -/
theorem submit_refused {o : Owner} {bytes : BufferChain} {count : Nat}
    (h : (ch.submit o bytes count).1 = false) : (ch.submit o bytes count).2 = ch := by
  unfold submit at h ⊢
  split
  · rfl
  · rename_i hok
    rw [if_neg hok] at h
    cases h

/-- An accepted one came to a ready channel and has commands. -/
theorem submit_accepted {o : Owner} {bytes : BufferChain} {count : Nat}
    (h : (ch.submit o bytes count).1 = true) : ch.isHealthy = true ∧ count ≠ 0 := by
  unfold submit at h
  split at h
  · cases h
  · rename_i hok
    simpa [Bool.or_eq_true, not_or] using hok

/-- It is noted, with its connection, its owner, its bytes and the number of its commands. -/
theorem submit_noted {o : Owner} {bytes : BufferChain} {count : Nat}
    (h : (ch.submit o bytes count).1 = true) : (ch.submit o bytes count).2.trace =
      .submitted ch.conn ch.trace.length o bytes.bytes count :: ch.trace :=
  trace_submit (submit_accepted h).1 o bytes (submit_accepted h).2

/-- **Nothing else notes a call**: every step of the machine is `Noting`. -/
theorem step_noting (h : ch.Life) (hs : ch.step U allow a = some ch') : ch.Noting a ch' := by
  have hline : Line.Steps (fun _ out => ∀ o, out = .call o → a = .op o) ch.line ch'.line :=
    step_line_of h hs (fun o ha _ _ ho => by cases ho; exact ha) nofun
  obtain ⟨new, hnew, hsub, hdet⟩ := hline.noted
  refine ⟨new, hnew, fun n id o bytes count hmem => ?_, fun o hmem => ?_⟩
  · obtain ⟨_, chain, ha, hbytes⟩ := hsub n id o bytes count hmem
    refine ⟨chain, ha _ rfl, ?_, hbytes⟩
    cases hok : (ch.submit o chain count).1 with
    | true => rfl
    | false =>
      -- a refused batch would have noted nothing
      have hch : ch' = ch := by
        rw [ha _ rfl, step, Option.ite_none_right_eq_some] at hs
        exact (Option.some.inj hs.2).symm.trans (submit_refused hok)
      have hnil : new = [] := List.self_eq_append_left.mp (hch ▸ hnew)
      rw [hnil] at hmem
      cases hmem
  · obtain ⟨_, ha⟩ := hdet o hmem
    exact ha _ rfl

end Noting

end BackendChannel

end RedisProxy
