/-
  File:      RedisProxy/Session/Model.lean
  Subject:   `ClientSession` (src/client_session.cpp): data, methods and its two coroutines.

  `readerLoop` and `writerLoop` are kept as the places where they stand; one step takes a loop
  from a place to the next one where it may be suspended or where it starts over. The methods
  take and return the pool, because they call it.

  Ghost fields, which no method reads: `uid` says which session this is, `input` and `eof` what
  was read, `verdicts` what became of every command parsed and `ending` of the stream, `batches`
  the calls of `BackendPool::submit` that were accepted, `inflight` the commands whose replies
  are awaited, `outputs` what was put into `client_out_`, `handed` what the socket took, and
  `finishCalls` how often `on_finished_` was called.
-/
import RedisProxy.BackendPool
import RedisProxy.CommandRules
import RedisProxy.Channel.Ledger

namespace RedisProxy

/-! ## 1. Data -/

/-- What is fixed for a worker. `packError` is `redis::PackError`, which like `redis::UnpackOne`
    is not part of the repository. -/
structure Env where
  unpackOne : UnpackOne
  packError : String → Bytes
  config : Config
  rules : CommandRules
  blockSize : Nat
  blockSize_pos : 0 < blockSize

/-- `MakeBufferChain` on the worker's pool. -/
def Env.makeChain (E : Env) (bytes : Bytes) : BufferChain :=
  makeBufferChain E.blockSize E.blockSize_pos bytes

/-- `ClientSession::State`. -/
inductive SessionState where
  | kOpen | kDraining | kAborted
  deriving DecidableEq, Repr

/-- Where `readerLoop` stands; `leaving` is before `finishLoop()`. -/
inductive SessionReaderPc where
  | top
  | awaiting (error : String)
  | blocked (error : String)
  | polling
  | reading
  | leaving
  | done
  deriving DecidableEq

/-- Where `writerLoop` stands. -/
inductive SessionWriterPc where
  | top
  | blocked
  | writing (c : WriteCursor)
  | leaving
  | done

/-- Where a command went: the channel, its connection then, the place in a batch. -/
structure Slot (n : Nat) where
  channel : Fin n
  conn : Nat
  command : Command
  deriving DecidableEq

/-- What became of a command parsed from the input. -/
inductive Verdict (n : Nat) where
  | forwarded (frame : Bytes) (slot : Option (Slot n))
  | rejected (frame : Bytes) (message : String)

structure ClientSession (n : Nat) where
  isOpen : Bool
  parser : RespParser
  clientIn : Buffer
  clientOut : List BufferChain
  outputSignal : CoroutineSignal
  replySignal : CoroutineSignal
  currentBackend : Option (Fin n)
  pendingReplies : Nat
  state : SessionState
  finalError : String
  activeLoops : Nat
  reader : SessionReaderPc
  writer : SessionWriterPc
  uid : Nat
  input : Bytes
  eof : Bool
  verdicts : List (Verdict n)
  ending : Option String
  batches : List (Bytes × Nat)
  inflight : List (Slot n)
  outputs : List Bytes
  handed : Bytes
  finishCalls : Nat

namespace ClientSession

variable {n : Nat}

/-- `ClientSession::ClientSession`, then `ClientSession::start`. -/
def init (E : Env) (uid : Nat) : ClientSession n where
  isOpen := true
  parser := RespParser.init.setLimits E.config.maxBulkBytes E.config.maxArrayElements 8
    E.config.maxRequestBytes
  clientIn := .init E.blockSize E.blockSize_pos
  clientOut := []
  outputSignal := .init
  replySignal := .init
  currentBackend := none
  pendingReplies := 0
  state := .kOpen
  finalError := ""
  activeLoops := 2
  reader := .top
  writer := .top
  uid := uid
  input := []
  eof := false
  verdicts := []
  ending := none
  batches := []
  inflight := []
  outputs := []
  handed := []
  finishCalls := 0

/-! ## 2. Methods -/

/-- `ClientSession::onBackendReply`. -/
def onBackendReply (s : ClientSession n) (reply : BufferChain) : ClientSession n :=
  { s with
    pendingReplies := s.pendingReplies - 1
    currentBackend := if s.pendingReplies - 1 = 0 then none else s.currentBackend
    replySignal := if s.pendingReplies - 1 = 0 then s.replySignal.notify else s.replySignal
    clientOut := s.clientOut ++ [reply]
    outputSignal := s.outputSignal.notify
    inflight := s.inflight.tail
    outputs := s.outputs ++ [reply.bytes] }

/-- What `ClientSession::abort` does to the session itself. -/
def aborted (s : ClientSession n) : ClientSession n :=
  { s with
    state := .kAborted
    currentBackend := none
    pendingReplies := 0
    clientOut := []
    outputSignal := s.outputSignal.notify
    replySignal := s.replySignal.notify
    inflight := [] }

/-- `ClientSession::abort` (and `onBackendFailure`); `a` is the address of the session. -/
def abort (s : ClientSession n) (a : Owner) (p : BackendPool n) :
    ClientSession n × BackendPool n :=
  if s.state = .kAborted then (s, p) else (s.aborted, p.detachOwner a)

/-- `ClientSession::drain`. -/
def drain (s : ClientSession n) (error : String) : ClientSession n :=
  if s.state ≠ .kOpen then s
  else
    { s with
      state := .kDraining
      finalError := error
      outputSignal := s.outputSignal.notify
      ending := some error }

/-- `ClientSession::finishLoop`; the flag says that `on_finished_` was called. -/
def finishLoop (s : ClientSession n) (a : Owner) (p : BackendPool n) :
    ClientSession n × BackendPool n × Bool :=
  if s.activeLoops - 1 ≠ 0 then ({ s with activeLoops := s.activeLoops - 1 }, p, false)
  else
    ({ s with activeLoops := s.activeLoops - 1, isOpen := false, finishCalls := s.finishCalls + 1 },
      p.detachOwner a, true)

/-- The places of the first `count` of the frames of a batch that channel `c` takes next. -/
def slotsOf (p : BackendPool n) (c : Fin n) (a : Owner) (count : Nat) : List (Slot n) :=
  (commandsOf (p c).trace.length a 0 count).map fun command => ⟨c, (p c).conn, command⟩

/-- The verdicts on the frames of a batch, with their places. -/
def verdictsOf (frames : List Bytes) (slots : List (Slot n)) : List (Verdict n) :=
  frames.mapIdx fun j frame => .forwarded frame slots[j]?

/-- `ClientSession::submitBatch`; `frames` are the commands of the batch. -/
def submitBatch (s : ClientSession n) (a : Owner) (p : BackendPool n) (bytes : BufferChain)
    (count : Nat) (frames : List Bytes) : Bool × ClientSession n × BackendPool n :=
  if count = 0 then (true, { s with verdicts := s.verdicts ++ verdictsOf frames [] }, p)
  else
    match p.submit a s.currentBackend bytes count with
    | (none, p') =>
        (false, { s with verdicts := s.verdicts ++ verdictsOf frames [] }.abort a p')
    | (some c, p') =>
        (true, { s with
          currentBackend := some c
          pendingReplies := s.pendingReplies + count
          verdicts := s.verdicts ++ verdictsOf frames (slotsOf p c a count)
          batches := s.batches ++ [(bytes.bytes, count)]
          inflight := s.inflight ++ slotsOf p c a count }, p')

/-! ## 3. `readerLoop` -/

/-- The variables of one round of `readerLoop`, with the parser and the buffer; `frames` are the
    commands accepted in it. -/
structure Round where
  parsed : Nat
  consumed : Nat
  rejectedBytes : Nat
  error : String
  ps : ParseStatus
  parser : RespParser
  input : Buffer
  frames : List Bytes

def Round.start (parser : RespParser) (input : Buffer) : Round :=
  ⟨0, 0, 0, "", .kNeedMore, parser, input, []⟩

/-- The parsing loop of a round with so many commands left in its budget; `alloc` says for each
    command which growths of the arena succeed. -/
def parseLoop (E : Env) (alloc : Nat → Nat → Bool) : Nat → Round → Option Round
  | 0, r => some r
  | budget + 1, r =>
      (r.parser.peekFrame E.unpackOne (alloc r.parsed) r.input r.consumed).bind
        fun (ps, info, parser, input) =>
          match ps, info with
          | .kNeedMore, _ => some { r with ps := ps, parser := parser, input := input }
          | .kOk, some info =>
              let valid := E.rules.validate info.commandName info.argc
              if valid.ok then
                parseLoop E alloc budget { r with
                  ps := ps
                  parser := parser
                  input := input
                  consumed := r.consumed + info.consumed
                  parsed := r.parsed + 1
                  frames := r.frames ++ [(input.content.drop r.consumed).take info.consumed] }
              else
                some { r with
                  ps := ps
                  parser := parser
                  input := input
                  error := valid.message
                  rejectedBytes := info.consumed }
          | ps, _ =>
              some { r with
                ps := ps
                parser := parser
                input := input
                error := if ps = .kNoMemory then "ERR proxy out of memory"
                  else "ERR proxy protocol error" }

/-- The batch of a round goes to the pool, if there is one. -/
def submitRound (s : ClientSession n) (a : Owner) (p : BackendPool n) (r : Round) :
    Bool × ClientSession n × BackendPool n :=
  if 0 < r.parsed then
    { s with parser := r.parser, clientIn := r.input.sliced r.consumed }.submitBatch a p
      (r.input.slicePrefix r.consumed) (r.parsed % 2 ^ 32) r.frames
  else (true, { s with parser := r.parser, clientIn := r.input }, p)

/-- The rest of a round whose batch was taken. -/
def closeRound (s : ClientSession n) (r : Round) : ClientSession n :=
  if r.error ≠ "" then
    if r.rejectedBytes = 0 then { s.drain r.error with reader := .leaving }
    else
      { s with
        clientIn := s.clientIn.consume r.rejectedBytes
        verdicts := s.verdicts ++ [.rejected (s.clientIn.content.take r.rejectedBytes) r.error]
        reader := .awaiting r.error }
  -- the parsing budget is a scheduling boundary, not a demand for new I/O
  else if r.ps = .kOk ∧ s.clientIn.readableBytes ≠ 0 then { s with reader := .polling }
  else { s with reader := .reading }

/-- A round of `readerLoop` up to its first suspension. -/
def readerTop (E : Env) (s : ClientSession n) (a : Owner) (p : BackendPool n)
    (alloc : Nat → Nat → Bool) : Option (ClientSession n × BackendPool n) :=
  if s.state ≠ .kOpen then some ({ s with reader := .leaving }, p)
  else
    (parseLoop E alloc E.config.maxPipelineCommandsPerRead (.start s.parser s.clientIn)).map
      fun r =>
        let x := s.submitRound a p r
        if x.1 then (x.2.1.closeRound r, x.2.2) else ({ x.2.1 with reader := .leaving }, x.2.2)

/-- The loop that waits for the outstanding replies before the error of a rejected command. -/
def readerAwait (E : Env) (s : ClientSession n) (error : String) : ClientSession n :=
  if s.state = .kOpen ∧ s.pendingReplies ≠ 0 then
    match s.replySignal.wait with
    | (true, sig) => { s with replySignal := sig, reader := .awaiting error }
    | (false, sig) => { s with replySignal := sig, reader := .blocked error }
  else if s.state ≠ .kOpen then { s with reader := .leaving }
  else
    { s with
      clientOut := s.clientOut ++ [E.makeChain (E.packError error)]
      outputSignal := s.outputSignal.notify
      outputs := s.outputs ++ [E.packError error]
      reader := .top }

/-- The final error of a stream that ended with so much unparsed. -/
def endError (b : Buffer) : String := if b.readableBytes = 0 then "" else "ERR proxy protocol error"

/-- One system call of `readSome`, and the rest of the round when it returns. -/
def readerRead (s : ClientSession n) (a : Owner) (p : BackendPool n) (o : ReadOutcome) :
    Option (ClientSession n × BackendPool n) :=
  (readSome s.clientIn o).map fun
    | (none, b) => ({ s with clientIn := b }, p)
    | (some st, b) =>
        let s' := { s with clientIn := b, input := s.input ++ o.bytes }
        if s.state ≠ .kOpen then ({ s' with reader := .leaving }, p)
        else if st.ok then ({ s' with reader := .top }, p)
        else if st.code = .kClosed then
          ({ s'.drain (endError b) with reader := .leaving, eof := true }, p)
        else ({ (s'.abort a p).1 with reader := .leaving }, (s'.abort a p).2)

/-- What the outside decides in a step of `readerLoop`. -/
inductive SessionReaderIo where
  | none
  | parse (alloc : Nat → Nat → Bool)
  | read (o : ReadOutcome)

/-- One step of the reader's coroutine; the flag says that `on_finished_` was called. -/
def readerStep (E : Env) (s : ClientSession n) (a : Owner) (p : BackendPool n)
    (io : SessionReaderIo) : Option (ClientSession n × BackendPool n × Bool) :=
  match s.reader, io with
  | .top, .parse alloc => (s.readerTop E a p alloc).map fun x => (x.1, x.2, false)
  | .awaiting error, .none => some (s.readerAwait E error, p, false)
  | .blocked error, .none =>
      s.replySignal.resume.map fun sig =>
        ({ s with replySignal := sig, reader := .awaiting error }, p, false)
  | .polling, .none => some ({ s with reader := .top }, p, false)
  | .reading, .read o => (s.readerRead a p o).map fun x => (x.1, x.2, false)
  | .leaving, .none => some ({ s with reader := .done }.finishLoop a p)
  | _, _ => none

/-! ## 4. `writerLoop` -/

/-- The loop that joins up to `count` more outputs to a reply. -/
def gather : Nat → BufferChain → List BufferChain → BufferChain × List BufferChain
  | 0, reply, q => (reply, q)
  | _ + 1, reply, [] => (reply, [])
  | count + 1, reply, c :: q => gather count (reply.appendChain c) q

/-- A round of `writerLoop` up to its first system call or suspension. -/
def writerTop (E : Env) (s : ClientSession n) : ClientSession n :=
  if s.state = .kAborted then { s with writer := .leaving }
  else match s.clientOut with
    | [] =>
        if s.state = .kDraining ∧ s.pendingReplies = 0 then
          if s.finalError = "" then { s with writer := .leaving }
          else
            -- pushed to the empty queue and taken from it again
            { s with
              finalError := ""
              outputs := s.outputs ++ [E.packError s.finalError]
              writer := .writing (.start (E.makeChain (E.packError s.finalError))) }
        else
          match s.outputSignal.wait with
          | (true, sig) => { s with outputSignal := sig }
          | (false, sig) => { s with outputSignal := sig, writer := .blocked }
    | reply :: q =>
        { s with
          clientOut := (gather 63 reply q).2
          writer := .writing (.start (gather 63 reply q).1) }

/-- One system call of `writeAll`, and the rest of the round when it returns. -/
def writerWrite (s : ClientSession n) (a : Owner) (p : BackendPool n) (c : WriteCursor)
    (o : Option WriteOutcome) : Option (ClientSession n × BackendPool n) :=
  (writeRound c o).map fun
    | .running c' => ({ s with writer := .writing c', handed := s.handed ++ c.accepted o }, p)
    | .returned st =>
        if st.ok then ({ s with writer := .top }, p)
        else ({ (s.abort a p).1 with writer := .leaving }, (s.abort a p).2)

/-- What the outside decides in a step of `writerLoop`. -/
inductive SessionWriterIo where
  | none
  | write (o : Option WriteOutcome)

/-- One step of the writer's coroutine; the flag says that `on_finished_` was called. -/
def writerStep (E : Env) (s : ClientSession n) (a : Owner) (p : BackendPool n)
    (io : SessionWriterIo) : Option (ClientSession n × BackendPool n × Bool) :=
  match s.writer, io with
  | .top, .none => some (s.writerTop E, p, false)
  | .blocked, .none =>
      s.outputSignal.resume.map fun sig =>
        ({ s with outputSignal := sig, writer := .top }, p, false)
  | .writing c, .write o => (s.writerWrite a p c o).map fun x => (x.1, x.2, false)
  | .leaving, .none => some ({ s with writer := .done }.finishLoop a p)
  | _, _ => none

end ClientSession

end RedisProxy
