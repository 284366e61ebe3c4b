/-
  File:      RedisProxy/Channel/Model.lean
  Subject:   `BackendChannel` (src/backend_channel.cpp): data, operations and coroutines.

  The channel's coroutines run `run()` (with `writerLoop()` inside it) and `readerLoop()`. A
  coroutine is kept as the place where it stands (`RunPc`, `ReaderPc`); one step takes it from
  there to the next place where it may be suspended or where its loop starts over. The tasks are
  lists, because nothing but the code keeps `start()` and a new connection from adding a second
  one.

  `failConnection` and `dispatchReply` call back into the owners, and an owner may call the
  channel again. `frames` is the stack of these calls: while it is not empty, only the call on
  top of it goes on (section 4).

  Ghost fields, which no operation reads: `conn` numbers the sockets, `trace` is the history of
  the channel (newest event first), a batch carries the number of its submission (`id`), its
  sender and how many replies it already got.
-/
import RedisProxy.Lib.Machine
import RedisProxy.Signal
import RedisProxy.Socket
import RedisProxy.Config
import RedisProxy.Resp.Parser
import Mathlib.Data.List.Dedup

namespace RedisProxy

/-- A `ReplySink*`: the address of an owner. -/
abbrev Owner := Nat

/-! ## 1. Data -/

/-- `BackendChannel::RequestBatch`. -/
structure RequestBatch where
  owner : Owner
  bytes : BufferChain
  commandCount : Nat
  id : Nat

/-- `BackendChannel::PendingBatch`; `owner` is null once its owner was detached. -/
structure PendingBatch where
  owner : Option Owner
  remainingReplies : Nat
  id : Nat
  sender : Owner
  answered : Nat

/-- `BackendChannel::State`. -/
inductive ChannelState where
  | kStopped | kConnecting | kReady | kClosing
  deriving DecidableEq, Repr

/-- Where a `run()` task stands. -/
inductive RunPc where
  | loopHead
  | connecting
  | writerHead
  | writerWait
  | writing (c : WriteCursor)
  | joinHead
  | joinWait
  | cleanup
  | backoff

/-- Where a `readerLoop()` task stands; `leaving` is before `reader_done_ = true`. -/
inductive ReaderPc where
  | head
  | reading
  | parsing
  | leaving
  deriving DecidableEq

/-- A call in progress on the stack of the running coroutine: into an owner's
    `onBackendReply` or `onBackendFailure`, of `failConnection` with the owners it has still to
    call, and of `stop()` after its `failConnection`. -/
inductive Frame where
  | onReply (owner : Owner) (reply : BufferChain)
  | onFailure (owner : Owner)
  | failing (status : Status) (todo : List Owner)
  | stopTail

/-- The frame is a call into an owner. -/
def Frame.isCallback : Frame → Bool
  | .onReply _ _ | .onFailure _ => true
  | .failing _ _ | .stopTail => false

/-- What happens on a channel, each with the number of the connection it happened on. -/
inductive Event where
  | started
  | stopped
  | connected (conn : Nat)
  | submitted (conn id : Nat) (owner : Owner) (bytes : Bytes) (count : Nat)
  | detached (owner : Owner)
  | taken (conn id : Nat) (owner : Owner) (bytes : Bytes) (count : Nat)
  | wrote (conn : Nat) (bytes : Bytes)
  | received (conn : Nat) (bytes : Bytes)
  | replied (conn : Nat) (frame : Bytes) (dest : Option Owner)
  | stray (conn : Nat) (frame : Bytes)
  | failed (conn : Nat) (status : Status)
  | failure (conn : Nat) (owner : Owner)

structure BackendChannel where
  state : ChannelState
  stopRequested : Bool
  readerDone : Bool
  writeQueue : List RequestBatch
  pendingQueue : List PendingBatch
  queuedCommands : Nat
  writerSignal : CoroutineSignal
  fd : Option Nat
  redisIn : Buffer
  replyParser : RespParser
  runs : List RunPc
  readers : List ReaderPc
  frames : List Frame
  conn : Nat
  trace : List Event

/-- The calls of the channel's interface that change it. -/
inductive Op where
  | submit (owner : Owner) (bytes : BufferChain) (count : Nat)
  | detachOwner (owner : Owner)
  | start (config : Config)
  | stop

namespace BackendChannel

/-- `BackendChannel::BackendChannel`. -/
def init (blockSize : Nat) (h : 0 < blockSize) : BackendChannel where
  state := .kStopped
  stopRequested := false
  readerDone := true
  writeQueue := []
  pendingQueue := []
  queuedCommands := 0
  writerSignal := .init
  fd := none
  redisIn := .init blockSize h
  replyParser := .init
  runs := []
  readers := []
  frames := []
  conn := 0
  trace := []

/-! ## 2. The operations -/

def isHealthy (ch : BackendChannel) : Bool := ch.state == .kReady

def isStopped (ch : BackendChannel) : Bool := ch.state == .kStopped

def queuedCommandCount (ch : BackendChannel) : Nat := ch.queuedCommands

/-- `BackendChannel::submit`. -/
def submit (ch : BackendChannel) (owner : Owner) (bytes : BufferChain) (count : Nat) :
    Bool × BackendChannel :=
  if !ch.isHealthy || count == 0 then (false, ch)
  else
    let id := ch.trace.length
    (true, { ch with
      writeQueue := ch.writeQueue ++ [⟨owner, bytes, count, id⟩]
      queuedCommands := ch.queuedCommands + count
      writerSignal := ch.writerSignal.notify
      trace := .submitted ch.conn id owner bytes.bytes count :: ch.trace })

/-- The loop of `detachOwner` over `write_queue_`: the queue and the counter. -/
def detachWrites (owner : Owner) : List RequestBatch → Nat → List RequestBatch × Nat
  | [], n => ([], n)
  | b :: q, n =>
      if b.owner = owner then detachWrites owner q (n - b.commandCount)
      else
        let (q', n') := detachWrites owner q n
        (b :: q', n')

/-- `BackendChannel::detachOwner`. Started batches keep their place in the reply stream. -/
def detachOwner (ch : BackendChannel) (owner : Owner) : BackendChannel :=
  { ch with
    writeQueue := (detachWrites owner ch.writeQueue ch.queuedCommands).1
    queuedCommands := (detachWrites owner ch.writeQueue ch.queuedCommands).2
    pendingQueue := ch.pendingQueue.map fun p =>
      if p.owner = some owner then { p with owner := none } else p
    trace := .detached owner :: ch.trace }

/-- The owners `failConnection` collects, each once. -/
def owners (ch : BackendChannel) : List Owner :=
  (ch.writeQueue.map (·.owner) ++ ch.pendingQueue.filterMap (·.owner)).dedup

/-- `BackendChannel::failConnection` up to its loop over the owners, which is left on the
    stack. -/
def failConnection (ch : BackendChannel) (status : Status) : BackendChannel :=
  if ch.state ≠ .kReady then ch
  else
    { ch with
      state := .kClosing
      writerSignal := ch.writerSignal.notify
      frames := .failing status ch.owners :: ch.frames
      writeQueue := []
      pendingQueue := []
      queuedCommands := 0
      trace := .failed ch.conn status :: ch.trace }

/-- `BackendChannel::dispatchReply`. -/
def dispatchReply (ch : BackendChannel) (reply : BufferChain) : BackendChannel :=
  match ch.pendingQueue with
  | [] =>
      ({ ch with trace := .stray ch.conn reply.bytes :: ch.trace }).failConnection
        (.protocolError "unexpected redis reply")
  | p :: q =>
      { ch with
        pendingQueue :=
          if p.remainingReplies - 1 = 0 then q
          else { p with remainingReplies := p.remainingReplies - 1, answered := p.answered + 1 } :: q
        queuedCommands := ch.queuedCommands - 1
        -- the callback of an attached owner is the next call
        frames := (p.owner.map fun o => .onReply o reply).toList ++ ch.frames
        trace := .replied ch.conn reply.bytes p.owner :: ch.trace }

/-- `BackendChannel::start`. -/
def start (ch : BackendChannel) (config : Config) : BackendChannel :=
  if !ch.isStopped then ch
  else
    { ch with
      replyParser := ch.replyParser.setLimits config.maxBulkBytes config.maxArrayElements 8
        RespParser.sizeMax
      stopRequested := false
      state := .kConnecting
      runs := ch.runs ++ [.loopHead]
      trace := .started :: ch.trace }

/-- `BackendChannel::stop` up to the callbacks of its `failConnection`. -/
def stop (ch : BackendChannel) : BackendChannel :=
  ({ ch with
    stopRequested := true
    frames := .stopTail :: ch.frames
    trace := .stopped :: ch.trace }).failConnection (.closed "backend stopped")

/-- A call of the interface; `submit`'s answer is dropped. -/
def apply (ch : BackendChannel) : Op → BackendChannel
  | .submit owner bytes count => (ch.submit owner bytes count).2
  | .detachOwner owner => ch.detachOwner owner
  | .start config => ch.start config
  | .stop => ch.stop

/-! ## 3. The coroutines -/

/-- What the outside decides in a step of `run()`. -/
inductive RunIo where
  | none
  | noSocket
  | connected (ok : Bool)
  | write (o : Option WriteOutcome)

/-- `writer_signal_.wait()` at a loop head: back to the head, or suspended. -/
def waitWriter (ch : BackendChannel) (head wait : RunPc) : BackendChannel × Option RunPc :=
  match ch.writerSignal.wait with
  | (true, s) => ({ ch with writerSignal := s }, some head)
  | (false, s) => ({ ch with writerSignal := s }, some wait)

/-- One step of `run()` from a place: the channel and where the task stands then (none: it
    ended). -/
def runStep (ch : BackendChannel) : RunPc → RunIo → Option (BackendChannel × Option RunPc)
  | .loopHead, io =>
      if ch.stopRequested then some ({ ch with state := .kStopped }, none)
      else match io with
        -- `connectOnce`: a socket of its own for every attempt
        | .none =>
            some ({ ch with state := .kConnecting, fd := some (ch.conn + 1), conn := ch.conn + 1 },
              some .connecting)
        | .noSocket => some ({ ch with state := .kConnecting }, some .cleanup)
        | _ => none
  | .connecting, .connected ok =>
      if ok && !ch.stopRequested then
        some ({ ch with
          state := .kReady
          readerDone := false
          readers := ch.readers ++ [.head]
          trace := .connected ch.conn :: ch.trace }, some .writerHead)
      else some (ch, some .cleanup)
  | .writerHead, .none =>
      if !ch.isHealthy then some (ch, some .joinHead)
      else match ch.writeQueue with
        | [] => some (ch.waitWriter .writerHead .writerWait)
        | b :: q =>
            some ({ ch with
              writeQueue := q
              pendingQueue := ch.pendingQueue ++ [⟨some b.owner, b.commandCount, b.id, b.owner, 0⟩]
              trace := .taken ch.conn b.id b.owner b.bytes.bytes b.commandCount :: ch.trace },
              some (.writing (.start b.bytes)))
  | .writerWait, .none =>
      ch.writerSignal.resume.map fun s => ({ ch with writerSignal := s }, some .writerHead)
  | .writing c, .write o =>
      (writeRound c o).map fun
        | .running c' =>
            ({ ch with trace := .wrote ch.conn (c.accepted o) :: ch.trace }, some (.writing c'))
        | .returned st => (if st.ok then ch else ch.failConnection st, some .writerHead)
  | .joinHead, .none =>
      if ch.readerDone then some (ch, some .cleanup)
      else some (ch.waitWriter .joinHead .joinWait)
  | .joinWait, .none =>
      ch.writerSignal.resume.map fun s => ({ ch with writerSignal := s }, some .joinHead)
  | .cleanup, .none =>
      some ({ ch with fd := none, redisIn := ch.redisIn.clear },
        some (if ch.stopRequested then .loopHead else .backoff))
  | .backoff, .none => some (ch, some .loopHead)
  | _, _ => none

/-- What the outside decides in a step of `readerLoop()`. -/
inductive ReaderIo where
  | none
  | read (o : ReadOutcome)
  | parse (alloc : Nat → Bool)

/-- One step of `readerLoop()` and the lines after it in its task. -/
def readerStep (U : UnpackOne) (ch : BackendChannel) :
    ReaderPc → ReaderIo → Option (BackendChannel × Option ReaderPc)
  | .head, .none => some (ch, some (if ch.isHealthy then .reading else .leaving))
  | .reading, .read o =>
      (readSome ch.redisIn o).map fun
        | (none, b) => ({ ch with redisIn := b }, some .reading)
        | (some st, b) =>
            let ch' := { ch with redisIn := b, trace := .received ch.conn o.bytes :: ch.trace }
            if !ch.isHealthy then (ch', some .leaving)
            else if !st.ok then (ch'.failConnection st, some .leaving)
            else (ch', some .parsing)
  | .parsing, .parse alloc =>
      if !ch.isHealthy then some (ch, some .head)
      else (ch.replyParser.nextReplyFrame U alloc ch.redisIn).map fun (ps, chain, parser, b) =>
        let ch' : BackendChannel := { ch with replyParser := parser, redisIn := b }
        match ps, chain with
        | .kNeedMore, _ => (ch', some .head)
        | .kOk, some reply => (ch'.dispatchReply reply, some .parsing)
        | _, _ => (ch'.failConnection (.protocolError "bad redis reply"), some .head)
  | .leaving, .none =>
      some ({ ch with readerDone := true, writerSignal := ch.writerSignal.notify }, none)
  | _, _ => none

/-! ## 4. The machine of one channel -/

/-- A step of the channel and its owners: a call of the interface, the return of the call on
    top of the stack, `failConnection` calling the next owner, a step of the `i`th task. -/
inductive Act where
  | op (o : Op)
  | ret
  | next (owner : Owner)
  | run (i : Nat) (io : RunIo)
  | reader (i : Nat) (io : ReaderIo)

/-- Who may call the interface: anybody at a scheduling point, inside a callback the owner that
    was called, within what `allow` lets it do. -/
def mayCall (allow : Owner → Op → Bool) : List Frame → Op → Bool
  | [], _ => true
  | .onReply owner _ :: _, o => allow owner o
  | .onFailure owner :: _, o => allow owner o
  | _, _ => false

/-- The return of the call on top of the stack. -/
def ret (ch : BackendChannel) : Option BackendChannel :=
  match ch.frames with
  | .onReply _ _ :: fs => some { ch with frames := fs }
  | .onFailure _ :: fs => some { ch with frames := fs }
  | .failing _ [] :: fs => some { ch with frames := fs }
  | .stopTail :: fs => some { ch with frames := fs, writerSignal := ch.writerSignal.notify }
  | _ => none

/-- The loop of `failConnection` calls `onBackendFailure` of an owner it has still to call. -/
def next (ch : BackendChannel) (owner : Owner) : Option BackendChannel :=
  match ch.frames with
  | .failing status todo :: fs =>
      if owner ∈ todo then
        some { ch with
          frames := .onFailure owner :: .failing status (todo.erase owner) :: fs
          trace := .failure ch.conn owner :: ch.trace }
      else none
  | _ => none

/-- The list of tasks after its `i`th one went to another place or ended. -/
def moveTask {π : Type} (l : List π) (i : Nat) : Option π → List π
  | some pc => l.set i pc
  | none => l.eraseIdx i

/-- One step of the `i`th `run()` task, at a scheduling point. -/
def runTask (ch : BackendChannel) (i : Nat) (io : RunIo) : Option BackendChannel :=
  match ch.frames, ch.runs[i]? with
  | [], some pc => (ch.runStep pc io).map fun x => { x.1 with runs := moveTask x.1.runs i x.2 }
  | _, _ => none

/-- One step of the `i`th `readerLoop()` task, at a scheduling point. -/
def readerTask (U : UnpackOne) (ch : BackendChannel) (i : Nat) (io : ReaderIo) :
    Option BackendChannel :=
  match ch.frames, ch.readers[i]? with
  | [], some pc =>
      (ch.readerStep U pc io).map fun x => { x.1 with readers := moveTask x.1.readers i x.2 }
  | _, _ => none

def step (U : UnpackOne) (allow : Owner → Op → Bool) (ch : BackendChannel) :
    Act → Option BackendChannel
  | .op o => if mayCall allow ch.frames o then some (ch.apply o) else none
  | .ret => ch.ret
  | .next owner => ch.next owner
  | .run i io => ch.runTask i io
  | .reader i io => ch.readerTask U i io

/-- **The machine of one channel**, over owners that do in their callbacks what `allow` lets
    them. -/
def machine (U : UnpackOne) (allow : Owner → Op → Bool) (blockSize : Nat) (h : 0 < blockSize) :
    Lib.Machine BackendChannel Act :=
  ⟨init blockSize h, step U allow⟩

end BackendChannel

end RedisProxy
